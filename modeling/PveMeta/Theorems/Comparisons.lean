import PveMeta.Lib.Sorting
import PveMeta.Theorems.Dialect
import PveMeta.Theorems.Findings

/-! # The comparisons a walk makes

A walk compares values with nodes, one after the other, and reports on each comparison by itself. So its reports are
those of its comparisons, and which comparisons it makes depends only on which of them come out without a miss. -/

namespace PveMeta
open Value

/-- A value compared with the node that describes it, and whether a miss would be enforced. -/
structure Comparison where
  path : Path
  schema : Value
  value : Value
  enforce : Bool

/-- A value below another one, with its segment and its node. -/
structure Child where
  seg : String
  schema : Value
  value : Value

namespace Shape

/-- What a walk goes on to below a value that has no miss. -/
def children (shape : Shape) (owner : Declared) (schema : Value) (path : Path) : Value → List Child
  | .object m => m.filterMap fun e => (Assoc.get? e.1 (propertiesOf schema)).bind fun sub =>
      if (shape.governing (path.join e.1)).map (·.pre) = some owner.pre then some ⟨e.1, sub, e.2⟩ else none
  | .array items =>
    match schema.get? "items" with
    | some sub => items.mapIdx fun i item => ⟨DocId.decimal i, sub, item⟩
    | none => []
  | _ => []

variable [Deps]

/-- What is reported on one comparison. -/
def report (c : Comparison) : Option Report :=
  match checkValue c.schema c.value with
  | some msg => some (.finding ⟨c.path, msg, c.enforce⟩)
  | none =>
    match c.value.asStr, (c.schema.get? "format").bind Value.asStr with
    | some s, some format => some (.format ⟨c.path, format, s⟩)
    | _, _ => none

mutual

/-- The comparisons of a value and of what is below it, as far as `owner` governs. -/
def comparisons (shape : Shape) (owner : Declared) (schema : Value) (path : Path) (inherited : Bool) :
    Value → List Comparison
  | value@(.object m) =>
    let enforce := flag schema "enforce" inherited
    ⟨path, schema, value, enforce⟩ ::
      if checkValue schema value = none then memberComparisons shape owner (propertiesOf schema) path enforce m else []
  | value@(.array items) =>
    let enforce := flag schema "enforce" inherited
    ⟨path, schema, value, enforce⟩ ::
      if checkValue schema value = none then
        match schema.get? "items" with
        | some sub => itemComparisons shape owner sub path enforce 0 items
        | none => []
      else []
  | value => [⟨path, schema, value, flag schema "enforce" inherited⟩]

def itemComparisons (shape : Shape) (owner : Declared) (sub : Value) (path : Path) (enforce : Bool) (i : Nat) :
    List Value → List Comparison
  | [] => []
  | item :: items =>
    comparisons shape owner sub (path.join (DocId.decimal i)) enforce item ++
      itemComparisons shape owner sub path enforce (i + 1) items

def memberComparisons (shape : Shape) (owner : Declared) (props : Members) (path : Path) (enforce : Bool) :
    Members → List Comparison
  | [] => []
  | (key, child) :: rest =>
    (match Assoc.get? key props with
      | some sub =>
        if (shape.governing (path.join key)).map (·.pre) = some owner.pre then
          comparisons shape owner sub (path.join key) enforce child
        else []
      | none => []) ++ memberComparisons shape owner props path enforce rest

end

variable {shape : Shape} {owner : Declared} {schema sub v doc : Value} {path p : Path} {inherited enforce : Bool}
  {c : Comparison} {ch : Child} {r : Report}

/-! ### One step down -/

theorem walkItems_eq {i : Nat} {items : List Value} : shape.walkItems owner sub path enforce i items =
    (items.mapIdx fun j item => (⟨DocId.decimal (i + j), sub, item⟩ : Child)).flatMap fun ch =>
      shape.walk owner ch.schema (path.join ch.seg) enforce ch.value := by
  induction items generalizing i with
  | nil => rfl
  | cons item items ih =>
    rw [walkItems, ih, List.mapIdx_cons, List.flatMap_cons]
    simp only [Nat.add_zero, Nat.add_assoc, Nat.add_comm 1]

theorem itemComparisons_eq {i : Nat} {items : List Value} : shape.itemComparisons owner sub path enforce i items =
    (items.mapIdx fun j item => (⟨DocId.decimal (i + j), sub, item⟩ : Child)).flatMap fun ch =>
      shape.comparisons owner ch.schema (path.join ch.seg) enforce ch.value := by
  induction items generalizing i with
  | nil => rfl
  | cons item items ih =>
    rw [itemComparisons, ih, List.mapIdx_cons, List.flatMap_cons]
    simp only [Nat.add_zero, Nat.add_assoc, Nat.add_comm 1]

theorem walkMembers_eq {m : Members} : shape.walkMembers owner (propertiesOf schema) path enforce m =
    (shape.children owner schema path (.object m)).flatMap fun ch =>
      shape.walk owner ch.schema (path.join ch.seg) enforce ch.value := by
  induction m with
  | nil => rfl
  | cons e m ih =>
    rw [walkMembers, ih, children, children, List.filterMap_cons]
    cases Assoc.get? e.1 (propertiesOf schema) with
    | none => rfl
    | some sub =>
      dsimp only [Option.bind_some]
      split <;> simp

theorem walkMembers_nil {m : Members} : shape.walkMembers owner [] path enforce m = [] := by
  induction m with
  | nil => rfl
  | cons e m ih => rw [walkMembers, ih, Assoc.get?_nil, List.append_nil]

theorem memberComparisons_eq {m : Members} : shape.memberComparisons owner (propertiesOf schema) path enforce m =
    (shape.children owner schema path (.object m)).flatMap fun ch =>
      shape.comparisons owner ch.schema (path.join ch.seg) enforce ch.value := by
  induction m with
  | nil => rfl
  | cons e m ih =>
    rw [memberComparisons, ih, children, children, List.filterMap_cons]
    cases Assoc.get? e.1 (propertiesOf schema) with
    | none => rfl
    | some sub =>
      dsimp only [Option.bind_some]
      split <;> simp

theorem comparisons_eq : shape.comparisons owner schema path inherited v =
    ⟨path, schema, v, flag schema "enforce" inherited⟩ ::
      if checkValue schema v = none then
        (shape.children owner schema path v).flatMap fun ch =>
          shape.comparisons owner ch.schema (path.join ch.seg) (flag schema "enforce" inherited) ch.value
      else [] := by
  cases v with
  | object m => rw [comparisons, memberComparisons_eq]
  | array items =>
    simp only [comparisons, children]
    cases schema.get? "items" with
    | none => rfl
    | some sub =>
      simp only [itemComparisons_eq, Nat.zero_add]
  | _ => simp [comparisons, children]

theorem walk_eq : shape.walk owner schema path inherited v =
    (report ⟨path, schema, v, flag schema "enforce" inherited⟩).toList ++
      if checkValue schema v = none then
        (shape.children owner schema path v).flatMap fun ch =>
          shape.walk owner ch.schema (path.join ch.seg) (flag schema "enforce" inherited) ch.value
      else [] := by
  cases hc : checkValue schema v with
  | some msg => cases v <;> simp [walk, report, hc]
  | none =>
    cases v with
    | object m =>
      simp only [walk, report, hc, asStr, ← walkMembers_eq, propertiesOf]
      cases (schema.get? "properties").bind Value.asObject <;> simp [walkMembers_nil]
    | array items =>
      simp only [walk, report, hc, children]
      cases schema.get? "items" with
      | none => rfl
      | some sub => simp [walkItems_eq, asStr]
    | string s =>
      simp only [walk, report, hc, asStr, children]
      cases (schema.get? "format").bind Value.asStr <;> rfl
    | _ => simp [walk, report, hc, asStr, children]

/-- What is below a value: a member with the property of its key, or an item with `items`. -/
inductive Below (schema : Value) : Value → Child → Prop
  | member {m : Members} {key : String} {sub child : Value} (hmem : (key, child) ∈ m)
      (hsub : Assoc.get? key (propertiesOf schema) = some sub) : Below schema (.object m) ⟨key, sub, child⟩
  | item {items : List Value} {i : Nat} {sub item : Value} (hitem : items[i]? = some item)
      (hsub : schema.get? "items" = some sub) : Below schema (.array items) ⟨DocId.decimal i, sub, item⟩

omit [Deps] in
theorem below_of_mem (h : ch ∈ shape.children owner schema path v) : Below schema v ch := by
  cases v with
  | object m =>
    obtain ⟨e, he, h⟩ := List.mem_filterMap.mp h
    obtain ⟨sub, hsub, h⟩ := Option.bind_eq_some_iff.mp h
    split at h
    · cases h
      exact .member he hsub
    · cases h
  | array items =>
    rw [children] at h
    split at h
    · next sub hsub =>
      obtain ⟨i, hi, rfl⟩ := List.mem_mapIdx.mp h
      exact .item (List.getElem?_eq_getElem hi) hsub
    · cases h
  | _ => cases h

theorem Below.accepted (h : Below schema v ch) (hs : Accepted schema) : Accepted ch.schema := by
  cases h with
  | member hmem hsub =>
    rw [propertiesOf] at hsub
    cases hprops : (schema.get? "properties").bind Value.asObject with
    | none =>
      rw [hprops] at hsub
      cases hsub
    | some props =>
      rw [hprops] at hsub
      exact hs.properties hprops _ (Assoc.mem_of_get? hsub)
  | item hitem hsub => exact hs.items hsub

omit [Deps] in
theorem Below.getPath {doc : Loaded} (h : Below schema v ch) (hv : getPath doc.val path = some v) :
    getPath doc.val (path.join ch.seg) = some ch.value := by
  cases h with
  | member hmem hsub => exact doc.getPath_member hv hmem
  | item hitem hsub => exact doc.getPath_item hv hitem

/-! ### All the way down -/

omit [Deps] in
/-- Induction over a value: what a walk goes on to comes first. -/
theorem child_ind {P : Value → Prop}
    (node : ∀ v, (∀ (shape : Shape) owner schema path, ∀ ch ∈ shape.children owner schema path v, P ch.value) → P v)
    (v : Value) : P v := by
  induction v using Value.ind with
  | object m ih =>
    refine node _ fun shape owner schema path ch hch => ?_
    cases below_of_mem hch with
    | member hmem hsub => exact ih _ hmem
  | array items ih =>
    refine node _ fun shape owner schema path ch hch => ?_
    cases below_of_mem hch with
    | item hitem hsub => exact ih _ (List.mem_of_getElem? hitem)
  | _ =>
    refine node _ fun shape owner schema path ch hch => ?_
    cases below_of_mem hch

/-- The reports of a walk are those of its comparisons. -/
theorem walk_eq_filterMap :
    shape.walk owner schema path inherited v = (shape.comparisons owner schema path inherited v).filterMap report := by
  induction v using child_ind generalizing schema path inherited with
  | node v ih =>
    rw [walk_eq, comparisons_eq, List.filterMap_cons]
    have hbelow : (if checkValue schema v = none then (shape.children owner schema path v).flatMap fun ch =>
          shape.walk owner ch.schema (path.join ch.seg) (flag schema "enforce" inherited) ch.value else []) =
        (if checkValue schema v = none then (shape.children owner schema path v).flatMap fun ch =>
          shape.comparisons owner ch.schema (path.join ch.seg) (flag schema "enforce" inherited) ch.value
          else []).filterMap report := by
      split
      · rw [List.filterMap_flatMap]
        exact List.flatMap_congr fun ch hch => ih shape owner schema path ch hch
      · rfl
    rw [hbelow]
    cases report ⟨path, schema, v, flag schema "enforce" inherited⟩ <;> rfl

theorem mem_comparisons : c ∈ shape.comparisons owner schema path inherited v ↔
    c = ⟨path, schema, v, flag schema "enforce" inherited⟩ ∨ checkValue schema v = none ∧
      ∃ ch ∈ shape.children owner schema path v,
        c ∈ shape.comparisons owner ch.schema (path.join ch.seg) (flag schema "enforce" inherited) ch.value := by
  rw [comparisons_eq, List.mem_cons]
  refine or_congr_right ?_
  split
  · next hc => simp [hc, List.mem_flatMap]
  · next hc => simp [hc]

/-- What is compared below a value is below its path. -/
theorem path_prefix_of_mem_comparisons (hc : c ∈ shape.comparisons owner schema path inherited v) : path <+: c.path := by
  induction v using child_ind generalizing schema path inherited with
  | node v ih =>
    rcases mem_comparisons.mp hc with rfl | ⟨-, ch, hch, hc⟩
    · exact List.prefix_rfl
    · exact (List.prefix_append path [ch.seg]).trans (ih shape owner schema path ch hch hc)

/-- Below an accepted schema every node is accepted. -/
theorem accepted_of_mem_comparisons (hs : Accepted schema) (hc : c ∈ shape.comparisons owner schema path inherited v) :
    Accepted c.schema := by
  induction v using child_ind generalizing schema path inherited with
  | node v ih =>
    rcases mem_comparisons.mp hc with rfl | ⟨-, ch, hch, hc⟩
    · exact hs
    · exact ih shape owner schema path ch hch ((below_of_mem hch).accepted hs) hc

theorem getPath_of_mem_comparisons {doc : Loaded} (hv : getPath doc.val path = some v)
    (hc : c ∈ shape.comparisons owner schema path inherited v) : getPath doc.val c.path = some c.value := by
  induction v using child_ind generalizing schema path inherited with
  | node v ih =>
    rcases mem_comparisons.mp hc with rfl | ⟨-, ch, hch, hc⟩
    · exact hv
    · exact ih shape owner schema path ch hch ((below_of_mem hch).getPath hv) hc

/-! ### The comparisons of a document -/

/-- The comparisons that the walk of one prefix makes. -/
def comparisonsOf (shape : Shape) (doc : Value) (owner : Declared) : List Comparison :=
  match owner.schema, getPath doc owner.pre with
  | some schema, some value => comparisons shape owner schema owner.pre owner.enforce value
  | _, _ => []

/-- All comparisons of a document. -/
def compared (shape : Shape) (doc : Value) : List Comparison := shape.prefixes.flatMap (shape.comparisonsOf doc)

theorem mem_comparisonsOf : c ∈ shape.comparisonsOf doc owner ↔ ∃ schema value, owner.schema = some schema ∧
    getPath doc owner.pre = some value ∧ c ∈ shape.comparisons owner schema owner.pre owner.enforce value := by
  unfold comparisonsOf
  cases owner.schema <;> cases getPath doc owner.pre <;> simp

theorem getPath_of_mem_compared {doc : Loaded} (hc : c ∈ shape.compared doc.val) :
    getPath doc.val c.path = some c.value := by
  obtain ⟨owner, -, hc⟩ := List.mem_flatMap.mp hc
  obtain ⟨schema, value, -, hvalue, hc⟩ := mem_comparisonsOf.mp hc
  exact getPath_of_mem_comparisons hvalue hc

theorem accepted_of_mem_compared (hs : ∀ o ∈ shape.prefixes, ∀ schema, o.schema = some schema → Accepted schema)
    (hc : c ∈ shape.compared doc) : Accepted c.schema := by
  obtain ⟨owner, ho, hc⟩ := List.mem_flatMap.mp hc
  obtain ⟨schema, value, hschema, -, hc⟩ := mem_comparisonsOf.mp hc
  exact accepted_of_mem_comparisons (hs owner ho schema hschema) hc

theorem findings_eq : shape.findings doc =
    ((shape.compared doc).filterMap report).insertionSort fun a b => ! b.path.lt a.path := by
  have hreports : (shape.compared doc).filterMap report = shape.prefixes.flatMap (shape.reportsOf doc) := by
    rw [compared, List.filterMap_flatMap]
    refine List.flatMap_congr fun owner _ => ?_
    unfold comparisonsOf reportsOf
    cases owner.schema <;> cases getPath doc owner.pre <;> first | rfl | exact walk_eq_filterMap.symm
  rw [hreports]
  rfl

theorem path_of_report (h : report c = some r) : r.path = c.path := by
  unfold report at h
  split at h
  · cases h
    rfl
  · split at h
    · cases h
      rfl
    · cases h

/-- The findings at one path are what is reported on the comparisons there, in their order. -/
theorem findings_at : (shape.findings doc).filter (fun r => r.path = p) =
    ((shape.compared doc).filter fun c => c.path = p).filterMap report := by
  have := byPath_total
  have := byPath_trans
  rw [findings_eq, Sorting.filter_insertionSort]
  · generalize shape.compared doc = cs
    induction cs with
    | nil => rfl
    | cons c cs ih =>
      cases hr : report c with
      | none =>
        rw [List.filterMap_cons_none hr, ih, List.filter_cons]
        split
        · rw [List.filterMap_cons_none hr]
        · rfl
      | some r =>
        have hpath := path_of_report hr
        rw [List.filterMap_cons_some hr, List.filter_cons, List.filter_cons, ih, hpath]
        split
        · rw [List.filterMap_cons_some hr]
        · rfl
  · intro a b ha hb
    rw [not_lt_iff_le, of_decide_eq_true ha, of_decide_eq_true hb]

end Shape
end PveMeta
