import PveMeta.Shape

/-! # The walk over a document

What the walk of one prefix reports at a value, and what the findings of a document are made of. -/

namespace PveMeta
namespace Shape

variable [Deps] {shape : Shape} {owner : Declared} {schema sub v doc : Value} {path : Path} {inherited enforce : Bool}
  {r : Report}

theorem mem_walkItems {i : Nat} {items : List Value} : r ∈ shape.walkItems owner sub path enforce i items ↔
    ∃ j item, items[j]? = some item ∧ r ∈ shape.walk owner sub (path.join (DocId.decimal (i + j))) enforce item := by
  induction items generalizing i with
  | nil => simp [walkItems]
  | cons item items ih =>
    rw [walkItems, List.mem_append, ih]
    constructor
    · intro h
      rcases h with h | ⟨j, item', hitem, h⟩
      · exact ⟨0, item, rfl, h⟩
      · exact ⟨j + 1, item', hitem, by rwa [show i + (j + 1) = i + 1 + j by omega]⟩
    · intro ⟨j, item', hitem, h⟩
      cases j with
      | zero =>
        obtain rfl : item = item' := Option.some.inj hitem
        exact Or.inl h
      | succ j => exact Or.inr ⟨j, item', hitem, by rwa [show i + 1 + j = i + (j + 1) by omega]⟩

theorem mem_walkMembers {props m : Members} :
    r ∈ shape.walkMembers owner props path enforce m ↔ ∃ e ∈ m, ∃ sub, Assoc.get? e.1 props = some sub ∧
      (shape.governing (path.join e.1)).map (·.pre) = some owner.pre ∧
        r ∈ shape.walk owner sub (path.join e.1) enforce e.2 := by
  induction m with
  | nil => simp [walkMembers]
  | cons e m ih =>
    rw [walkMembers, List.mem_append, ih, List.exists_mem_cons_iff]
    refine or_congr_left ?_
    cases Assoc.get? e.1 props with
    | none => simp
    | some sub =>
      dsimp only
      split
      · next hgov => simp [hgov]
      · next hgov => simp [hgov]

/-- At a value: a miss and nothing below it, or else a format to check, or what is reported below. -/
theorem mem_walk : r ∈ shape.walk owner schema path inherited v ↔
    (∃ msg, checkValue schema v = some msg ∧ r = .finding ⟨path, msg, flag schema "enforce" inherited⟩) ∨
      checkValue schema v = none ∧
        ((∃ s format, v = .string s ∧ (schema.get? "format").bind Value.asStr = some format ∧
            r = .format ⟨path, format, s⟩) ∨
          (∃ items sub, v = .array items ∧ schema.get? "items" = some sub ∧
            r ∈ shape.walkItems owner sub path (flag schema "enforce" inherited) 0 items) ∨
          ∃ m props, v = .object m ∧ (schema.get? "properties").bind Value.asObject = some props ∧
            r ∈ shape.walkMembers owner props path (flag schema "enforce" inherited) m) := by
  cases hc : checkValue schema v with
  | some msg => cases v <;> simp [walk, hc]
  | none =>
    cases v with
    | object m =>
      simp only [walk, hc]
      cases (schema.get? "properties").bind Value.asObject <;> simp
    | array items =>
      simp only [walk, hc]
      cases schema.get? "items" <;> simp
    | string s =>
      simp only [walk, hc, Value.asStr]
      cases (schema.get? "format").bind Value.asStr <;> simp
    | _ => simp [walk, hc, Value.asStr]

/-- What the schema of one prefix has to report about a document. -/
def reportsOf (shape : Shape) (doc : Value) (owner : Declared) : List Report :=
  match owner.schema, getPath doc owner.pre with
  | some schema, some value => walk shape owner schema owner.pre owner.enforce value
  | _, _ => []

theorem mem_reportsOf : r ∈ shape.reportsOf doc owner ↔ ∃ schema value, owner.schema = some schema ∧
    getPath doc owner.pre = some value ∧ r ∈ shape.walk owner schema owner.pre owner.enforce value := by
  unfold reportsOf
  cases owner.schema <;> cases getPath doc owner.pre <;> simp

theorem mem_findings : r ∈ shape.findings doc ↔ ∃ owner ∈ shape.prefixes, r ∈ shape.reportsOf doc owner := by
  rw [findings, List.mem_insertionSort, List.mem_flatMap]
  rfl

end Shape
end PveMeta
