import PveMeta.Theorems.Layers
import PveMeta.Theorems.SchemaIndex
import PveMeta.Wire

/-! # The shape that the editor reads

A row read back declares what its definition does, with the booleans of the schema spelled `1` and `0`. Which prefix
governs, what a schema describes and which flags hold do not depend on that spelling. -/

namespace PveMeta
open Shape

variable {v schema : Value} {m : Members} {key : String} {d : Declared} {l : List Declared} {path : Path} {inherited : Bool}

/-! ### A value on its way -/

theorem itemsThroughPerl_eq (items : List Value) : itemsThroughPerl items = items.map throughPerl := by
  induction items with
  | nil => rfl
  | cons v items ih => rw [itemsThroughPerl, ih, List.map_cons]

theorem membersThroughPerl_eq (m : Members) : membersThroughPerl m = m.map fun e => (e.1, throughPerl e.2) := by
  induction m with
  | nil => rfl
  | cons e m ih => rw [membersThroughPerl, ih, List.map_cons]

theorem get?_membersThroughPerl : Assoc.get? key (membersThroughPerl m) = (Assoc.get? key m).map throughPerl := by
  induction m with
  | nil => rfl
  | cons e m ih =>
    rw [membersThroughPerl, Assoc.get?_cons, Assoc.get?_cons, ih]
    split <;> rfl

@[simp] theorem get?_throughPerl : (throughPerl v).get? key = (v.get? key).map throughPerl := by
  cases v with
  | object m => exact get?_membersThroughPerl
  | _ => rfl

@[simp] theorem asStr_throughPerl : (throughPerl v).asStr = v.asStr := by cases v <;> rfl

@[simp] theorem asObject_throughPerl : (throughPerl v).asObject = v.asObject.map membersThroughPerl := by
  cases v <;> rfl

@[simp] theorem asArray_throughPerl : (throughPerl v).asArray = v.asArray.map (List.map throughPerl) := by
  cases v with
  | array items => exact congrArg some (itemsThroughPerl_eq items)
  | _ => rfl

/-- A flag reads the same in both spellings. -/
@[simp] theorem asFlag_throughPerl : asFlag (throughPerl v) = asFlag v := by
  cases v with
  | bool b => cases b <;> rfl
  | _ => rfl

theorem flag_throughPerl : flag (throughPerl schema) key inherited = flag schema key inherited := by
  rw [flag, flag, get?_throughPerl]
  cases schema.get? key <;> simp

theorem propertiesOf_throughPerl :
    propertiesOf (throughPerl schema) = (propertiesOf schema).map fun e => (e.1, throughPerl e.2) := by
  rw [propertiesOf, propertiesOf, get?_throughPerl]
  cases schema.get? "properties" with
  | none => rfl
  | some u =>
    rw [Option.map_some, Option.bind_some, Option.bind_some, asObject_throughPerl]
    cases u.asObject with
    | none => rfl
    | some props => exact membersThroughPerl_eq props

/-! ### A row -/

/-- What is declared, as the editor has it. -/
def Declared.throughPerl (d : Declared) : Declared := { d with schema := d.schema.map PveMeta.throughPerl }

/-- A definition that the loader takes comes back from its row. -/
theorem declared_of_row [Deps] {name : String} {text : Text} {p : PrefixDef} (h : Registry.parsePrefix name text = .ok p) :
    (WirePrefix.read (throughPerl p.serialize)).map WirePrefix.declared =
      some (some (Declared.ofPrefixDef p).throughPerl) := by
  obtain ⟨-, hparse, hname, hschema⟩ := Registry.parsePrefix_eq_ok h
  rw [← hname] at hparse
  have hread : WirePrefix.read (throughPerl p.serialize) = some ⟨p.pre.display, p.description,
      p.schema.map throughPerl, some (.number (.posInt (if p.enforce then 1 else 0))),
      some (.number (.posInt (if p.hidden then 1 else 0))), none⟩ := by
    obtain ⟨pre, description, selector, schema, enforce, hidden, nodes, origin, overrides⟩ := p
    cases schema with
    | none => cases description <;> cases nodes <;> rfl
    | some schema =>
      obtain ⟨m, rfl⟩ := (hschema schema rfl).exists_object
      cases description <;> cases nodes <;> rfl
  have htruthy : ∀ b : Bool, truthy (.number (.posInt (if b then 1 else 0))) = b := by decide
  rw [hread, Option.map_some, WirePrefix.declared]
  simp only [Option.isSome_none, Bool.false_eq_true, if_false, hparse, Option.any_some, htruthy]
  rfl

theorem exists_ofRows [Deps] {defs : List PrefixDef}
    (h : ∀ p ∈ defs, ∃ name text, Registry.parsePrefix name text = .ok p) :
    Shape.ofRows (listingRows defs) = some (Shape.new ((defs.map Declared.ofPrefixDef).map Declared.throughPerl)) := by
  have hread : ∃ entries, (listingRows defs).mapM WirePrefix.read = some entries ∧
      entries.filterMap WirePrefix.declared = (defs.map Declared.ofPrefixDef).map Declared.throughPerl := by
    induction defs with
    | nil => exact ⟨[], rfl, rfl⟩
    | cons p defs ih =>
      obtain ⟨entries, hentries, hdeclared⟩ := ih fun q hq => h q (List.mem_cons_of_mem p hq)
      obtain ⟨name, text, hp⟩ := h p List.mem_cons_self
      obtain ⟨row, hrow, hd⟩ := Option.map_eq_some_iff.mp (declared_of_row hp)
      refine ⟨row :: entries, ?_, ?_⟩
      · rw [listingRows, List.map_cons, List.mapM_cons, hrow, ← listingRows, hentries]
        rfl
      · rw [List.filterMap_cons_some hd, hdeclared, List.map_cons, List.map_cons]
  obtain ⟨entries, hentries, hdeclared⟩ := hread
  rw [Shape.ofRows, hentries, Option.map_some, hdeclared]

/-! ### What the spelling does not touch -/

theorem prefixes_throughPerl :
    (Shape.new (l.map Declared.throughPerl)).prefixes = (Shape.new l).prefixes.map Declared.throughPerl := by
  rw [Shape.new, Shape.new]
  exact (List.map_insertionSort _ _ Declared.throughPerl l fun _ _ _ _ => Iff.rfl).symm

theorem governing_throughPerl : (Shape.new (l.map Declared.throughPerl)).governing path =
    ((Shape.new l).governing path).map Declared.throughPerl := by
  rw [governing, prefixes_throughPerl, List.find?_map]
  rfl

theorem governs_throughPerl : ((Shape.new (l.map Declared.throughPerl)).governing path).map (·.pre) =
    ((Shape.new l).governing path).map (·.pre) := by
  rw [governing_throughPerl, Option.map_map]
  rfl

/-- An entry of the index, as the editor has it. -/
def Described.throughPerl (d : Described) : Described := { d with schema := PveMeta.throughPerl d.schema }

theorem collect_throughPerl :
    (Shape.new (l.map Declared.throughPerl)).collect d.throughPerl path inherited (throughPerl schema) =
      ((Shape.new l).collect d path inherited schema).map Described.throughPerl := by
  induction schema using schema_ind generalizing path inherited with
  | node schema ih =>
    by_cases hgov : ((Shape.new l).governing path).map (·.pre) = some d.pre
    · have hgov' : ((Shape.new (l.map Declared.throughPerl)).governing path).map (·.pre) = some d.throughPerl.pre :=
        governs_throughPerl.trans hgov
      rw [collect_eq hgov, collect_eq hgov', flag_throughPerl, propertiesOf_throughPerl, List.map_cons, List.flatMap_map,
        List.map_flatMap]
      refine congrArg _ (List.flatMap_congr fun e he => ?_)
      exact ih e he
    · have hgov' : ¬ ((Shape.new (l.map Declared.throughPerl)).governing path).map (·.pre) = some d.throughPerl.pre :=
        fun h => hgov (governs_throughPerl.symm.trans h)
      rw [collect_of_not_governs hgov, collect_of_not_governs hgov', List.map_nil]

theorem schemaIndex_throughPerl :
    (Shape.new (l.map Declared.throughPerl)).schemaIndex = (Shape.new l).schemaIndex.map Described.throughPerl := by
  rw [schemaIndex, schemaIndex, prefixes_throughPerl, List.flatMap_map, List.map_flatMap]
  refine List.flatMap_congr fun d _ => ?_
  cases hs : d.schema with
  | none => simp [Declared.throughPerl, hs]
  | some schema =>
    have hs' : d.throughPerl.schema = some (throughPerl schema) := by simp [Declared.throughPerl, hs]
    rw [hs']
    exact collect_throughPerl

end PveMeta
