import PveMeta.Theorems.Editor

/-! # Defaults

The loader holds a default against the declared type only. The check of a value has the `enum` and the bounds besides,
so a default that is not in them is one its own schema refuses. -/

namespace PveMeta
open Shape Value

variable {schema node sub d : Value}

/-- `Nested node schema`: `node` is the schema or stands in it, under `properties` and `items` to any depth. -/
inductive Nested (node : Value) : Value → Prop
  | self : Nested node node
  | item {schema sub : Value} (hitems : schema.get? "items" = some sub) (h : Nested node sub) : Nested node schema
  | property {schema : Value} {props : Members} {e : String × Value}
      (hprops : (schema.get? "properties").bind Value.asObject = some props) (he : e ∈ props) (h : Nested node e.2) :
      Nested node schema

/-- A number of the value lies between the bounds of the schema, as far as it has them. -/
structure InRange (schema value : Value) : Prop where
  least : ∀ n min, value.asNumber = some n → (schema.get? "minimum").bind Value.asNumber = some min →
    min.asF64.rank ≤ n.asF64.rank
  most : ∀ n max, value.asNumber = some n → (schema.get? "maximum").bind Value.asNumber = some max →
    n.asF64.rank ≤ max.asF64.rank

section

variable [Deps]

theorem Accepted.nested (h : Accepted schema) (hnode : Nested node schema) : Accepted node := by
  induction hnode with
  | self => exact h
  | item hitems _ ih => exact ih (h.items hitems)
  | property hprops he _ ih => exact ih (h.properties hprops _ he)

/-- The loader holds a default against the declared type. -/
theorem Accepted.default (h : Accepted schema) (hd : schema.get? "default" = some d) : wrongType schema d = false := by
  obtain ⟨name, at_, h⟩ := h
  obtain ⟨m, rfl⟩ := Accepted.exists_object ⟨name, at_, h⟩
  obtain ⟨declared, hkeywords, -⟩ := Except.bind_eq_ok.mp h
  have hchecks := checkKeywords_eq_ok hkeywords
  have hdefault := hchecks.ofDefault
  have hget : Assoc.get? "default" m = some d := hd
  rw [wrongType, ← declaredType_eq_ok hchecks.ofType]
  cases declared with
  | none => rfl
  | some t =>
    unfold Registry.checkDefault at hdefault
    rw [hget] at hdefault
    dsimp only at hdefault
    split at hdefault
    · next hmatches => simp [hmatches]
    · cases hdefault

theorem outOfBounds_eq_none {value : Value} : outOfBounds schema value = none ↔ InRange schema value := by
  have hbounds : ∀ {a b : Bool} {s t : String}, (if a then some s else if b then some t else none) = none ↔
      a = false ∧ b = false := by
    intro a b s t
    cases a <;> cases b <;> simp
  rw [outOfBounds, hbounds]
  simp only [Option.any_eq_false, Option.map_eq_some_iff, decide_eq_false_iff_not, not_lt, forall_exists_index, and_imp]
  constructor
  · rintro ⟨hleast, hmost⟩
    exact ⟨fun n min hn hmin => hleast _ n hn rfl _ min hmin rfl, fun n max hn hmax => hmost _ n hn rfl _ max hmax rfl⟩
  · intro h
    refine ⟨?_, ?_⟩
    · rintro _ n hn rfl _ min hmin rfl
      exact h.least n min hn hmin
    · rintro _ n hn rfl _ max hmax rfl
      exact h.most n max hn hmax

/-- The value check finds nothing in a default exactly if the node's `enum` admits it and it is within the bounds. -/
theorem default_passes_iff (h : Accepted schema) (hnode : Nested node schema) (hd : node.get? "default" = some d) :
    checkValue node d = none ↔ admitted node d = true ∧ InRange node d := by
  have htype : wrongType node d = false := (h.nested hnode).default hd
  rw [checkValue_eq, htype, if_neg Bool.false_ne_true, ← outOfBounds_eq_none]
  cases admitted node d <;> simp

end

/-! ### A port -/

open Sample

/-- A port of a web server, with a default. -/
def port (n : UInt64) : Value :=
  .object [("type", .string "integer"), ("enum", .array [.number (.posInt 80), .number (.posInt 443)]),
    ("minimum", .number (.posInt 1)), ("default", .number (.posInt n))]

/-- A schema that holds a port two levels down. -/
def portSchema (n : UInt64) : Value :=
  .object [("properties", .object [("listen", .object [("items", port n)])])]

theorem nested_port (n : UInt64) : Nested (port n) (portSchema n) :=
  .property rfl (List.mem_singleton_self _) (.item rfl .self)

theorem default_passes_port : checkValue (port 80) (.number (.posInt 80)) = none := by
  refine (default_passes_iff ⟨"web", "schema", by rfl⟩ (nested_port 80) rfl).mpr ⟨by rfl, ⟨?_, ?_⟩⟩
  · rintro n min ⟨⟩ ⟨⟩
    decide
  · rintro n max - ⟨⟩

/-- The loader takes a default that no member of the `enum` is. -/
theorem default_refused_port : ¬ ∀ schema node d, Accepted schema → Nested node schema → node.get? "default" = some d →
    checkValue node d = none := by
  intro h
  have hport := h _ _ _ ⟨"web", "schema", by rfl⟩ (nested_port 81) rfl
  cases hport

end PveMeta
