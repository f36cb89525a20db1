import Mathlib.Data.String.Basic
import PveMeta.Lib.Scope
import PveMeta.Shape

/-! # The prefixes of a shape

The prefix that governs a path is the longest that contains it, and it governs every path between it and that
one. So the node at a path, and the settings it inherits, are read down one schema. -/

namespace PveMeta
open Scope

/-! ### The order of the prefixes -/

theorem bySpecificity_ne_gt {a b : Path} : bySpecificity a b ≠ .gt ↔
    b.length < a.length ∨ b.length = a.length ∧ a.display ≤ b.display := by
  have hname : compare a.display b.display ≠ .gt ↔ a.display ≤ b.display := compare_le_iff_le
  unfold bySpecificity
  rcases Nat.lt_trichotomy b.length a.length with hlt | heq | hgt
  · simp [Nat.compare_eq_lt.mpr hlt, hlt]
  · simp [heq, hname]
  · simp [Nat.compare_eq_gt.mpr hgt, Nat.not_lt.mpr hgt.le, hgt.ne']

theorem bySpecificity_total (a b : Path) : bySpecificity a b ≠ .gt ∨ bySpecificity b a ≠ .gt := by
  rw [bySpecificity_ne_gt, bySpecificity_ne_gt]
  rcases Nat.lt_trichotomy b.length a.length with hlt | heq | hgt
  · exact Or.inl (Or.inl hlt)
  · rcases le_total a.display b.display with hle | hle
    · exact Or.inl (Or.inr ⟨heq, hle⟩)
    · exact Or.inr (Or.inr ⟨heq.symm, hle⟩)
  · exact Or.inr (Or.inl hgt)

theorem bySpecificity_trans {a b c : Path} (hab : bySpecificity a b ≠ .gt) (hbc : bySpecificity b c ≠ .gt) :
    bySpecificity a c ≠ .gt := by
  rw [bySpecificity_ne_gt] at hab hbc ⊢
  rcases hab with hab | ⟨hab, hle⟩ <;> rcases hbc with hbc | ⟨hbc, hle'⟩
  · exact Or.inl (hbc.trans hab)
  · exact Or.inl (hbc ▸ hab)
  · exact Or.inl (hab ▸ hbc)
  · exact Or.inr ⟨hbc.trans hab, hle.trans hle'⟩

/-- The order by specificity never puts a shorter prefix first. -/
theorem length_le_of_sorted {α : Type} (key : α → Path) (l : List α) :
    (l.insertionSort fun a b => bySpecificity (key a) (key b) ≠ .gt).Pairwise
      fun a b => (key b).length ≤ (key a).length := by
  have : Std.Total fun a b : α => bySpecificity (key a) (key b) ≠ .gt := ⟨fun a b => bySpecificity_total (key a) (key b)⟩
  have : IsTrans α fun a b => bySpecificity (key a) (key b) ≠ .gt := ⟨fun a b c => bySpecificity_trans⟩
  refine (List.pairwise_insertionSort _ l).imp fun {a b} h => ?_
  rcases bySpecificity_ne_gt.mp h with h | ⟨h, -⟩ <;> omega

theorem Shape.mem_prefixes_new {declared : List Declared} {d : Declared} :
    d ∈ (Shape.new declared).prefixes ↔ d ∈ declared :=
  List.mem_insertionSort _

/-- The prefixes of a shape, if no two are at one place. -/
theorem Shape.longestFirst_new {declared : List Declared} (h : (declared.map (·.pre)).Nodup) :
    LongestFirst Declared.pre (Shape.new declared).prefixes where
  sorted := length_le_of_sorted Declared.pre declared
  distinct := by
    have hperm : ((Shape.new declared).prefixes.map (·.pre)).Perm (declared.map (·.pre)) :=
      (List.perm_insertionSort _ _).map _
    exact List.pairwise_map.mp (hperm.nodup_iff.mpr h)

/-! ### Declarations -/

/-- The prefixes that reach a document: no two at one place, and no map of a schema with a key twice. -/
structure Declarations where
  list : List Declared
  distinct : (list.map (·.pre)).Nodup
  wf : ∀ d ∈ list, ∀ schema, d.schema = some schema → schema.WF

namespace Declarations

def shape (ds : Declarations) : Shape := Shape.new ds.list

variable {ds : Declarations} {owner other : Declared} {path p q : Path}

theorem mem_prefixes : owner ∈ ds.shape.prefixes ↔ owner ∈ ds.list := Shape.mem_prefixes_new

theorem longestFirst (ds : Declarations) : LongestFirst Declared.pre ds.shape.prefixes := Shape.longestFirst_new ds.distinct

theorem governing_eq_some_iff : ds.shape.governing path = some owner ↔
    owner ∈ ds.list ∧ owner.pre <+: path ∧ ∀ d ∈ ds.list, d.pre <+: path → d.pre <+: owner.pre := by
  have h := ds.longestFirst.longest_eq_some_iff (d := owner) (p := path)
  simp only [mem_prefixes] at h
  exact h

theorem governing_pre (h : owner ∈ ds.list) : ds.shape.governing owner.pre = some owner :=
  ds.longestFirst.longest_key (mem_prefixes.mpr h)

theorem governing_between (h : ds.shape.governing p = some owner) (hq : owner.pre <+: q) (hqp : q <+: p) :
    ds.shape.governing q = some owner :=
  ds.longestFirst.longest_between h hq hqp

theorem governing_contains (h : ds.shape.governing path = some owner) : owner.pre <+: path := key_prefix_of_longest h

/-- The walks compare prefixes, which is to compare what is declared there. -/
theorem governs_iff (h : owner ∈ ds.list) :
    (ds.shape.governing path).map (·.pre) = some owner.pre ↔ ds.shape.governing path = some owner := by
  constructor
  · intro hpre
    obtain ⟨d, hd, heq⟩ := Option.map_eq_some_iff.mp hpre
    rw [hd, ds.longestFirst.eq_of_key (mem_of_longest hd) (mem_prefixes.mpr h) heq]
  · intro hgov
    rw [hgov]
    rfl

end Declarations

/-! ### The node at a path -/

section

variable {schema sub : Value} {k key : String} {p q : Path}

@[simp] theorem Shape.nodeAt_nil : Shape.nodeAt schema [] = some schema := rfl

theorem Shape.nodeAt_cons : Shape.nodeAt schema (k :: p) =
    ((schema.get? "properties").bind (·.get? k)).bind (Shape.nodeAt · p) := rfl

theorem Shape.nodeAt_append : Shape.nodeAt schema (p ++ q) = (Shape.nodeAt schema p).bind (Shape.nodeAt · q) := by
  induction p generalizing schema with
  | nil => rfl
  | cons k p ih =>
    simp only [List.cons_append, nodeAt_cons, ih, Option.bind_assoc]

/-- The schema of a key below a node is a member of its `properties`. -/
theorem child_eq_some_iff : (schema.get? "properties").bind (·.get? k) = some sub ↔
    ∃ props, (schema.get? "properties").bind Value.asObject = some props ∧ Assoc.get? k props = some sub := by
  cases schema.get? "properties" with
  | none => simp
  | some v => cases v <;> simp [Value.get?, Value.asObject]

/-- The schemas under a node's `properties`. -/
def propertiesOf (schema : Value) : Members := ((schema.get? "properties").bind Value.asObject).getD []

/-- Induction over a schema: the schemas under its `properties` come first. -/
theorem schema_ind {P : Value → Prop} (node : ∀ schema, (∀ e ∈ propertiesOf schema, P e.2) → P schema)
    (schema : Value) : P schema := by
  -- A schema below is two maps down, so the members of a map are carried along.
  have hboth : P schema ∧ ∀ m, schema.asObject = some m → ∀ e ∈ m, P e.2 := by
    induction schema using Value.ind with
    | object m ih =>
      refine ⟨node _ fun e he => ?_, fun m' hm e he => ?_⟩
      · rw [propertiesOf] at he
        cases hprops : (Value.get? "properties" (.object m)).bind Value.asObject with
        | none =>
          rw [hprops] at he
          cases he
        | some props =>
          rw [hprops] at he
          obtain ⟨v, hv, hobj⟩ := Option.bind_eq_some_iff.mp hprops
          exact (ih ("properties", v) (Assoc.mem_of_get? hv)).2 props hobj e he
      · cases hm
        exact (ih e he).1
    | _ =>
      constructor
      · refine node _ fun e he => ?_
        cases he
      · intro m h
        cases h
  exact hboth.1

/-! ### What a node says and inherits -/

/-- The flag that the node at a path has of its own. -/
def Shape.explicitly (shape : Shape) (key : String) (path : Path) : Option Bool :=
  (shape.schemaAt path).bind fun schema => (schema.get? key).bind asFlag

/-- `owner` governs `path`, its schema has the node `schema` there, and `b` is the setting of `key` that holds there. -/
structure Shape.At (shape : Shape) (key : String) (default : Bool) (owner : Declared) (path : Path) (schema : Value)
    (b : Bool) : Prop where
  governs : shape.governing path = some owner
  node : shape.schemaAt path = some schema
  nearest : Nearest (shape.explicitly key) owner.pre path default b

variable {ds : Declarations} {owner : Declared} {path : Path} {default b : Bool}

theorem Shape.schemaAt_of_governing {shape : Shape} (h : shape.governing path = some owner) :
    shape.schemaAt path = owner.schema.bind (Shape.nodeAt · (path.drop owner.pre.length)) := by
  rw [schemaAt, h, Option.bind_some]

theorem Shape.explicitly_of_schemaAt {shape : Shape} (h : shape.schemaAt path = some schema) :
    shape.explicitly key path = (schema.get? key).bind asFlag := by
  rw [explicitly, h, Option.bind_some]

theorem Shape.At.root (h : owner ∈ ds.list) (hschema : owner.schema = some schema) :
    ds.shape.At key default owner owner.pre schema (flag schema key default) := by
  have hgov := Declarations.governing_pre h
  have hnode : ds.shape.schemaAt owner.pre = some schema := by
    rw [Shape.schemaAt_of_governing hgov, hschema, List.drop_length, Option.bind_some, Shape.nodeAt_nil]
  have hnear := Nearest.root (ds.shape.explicitly key) owner.pre default
  rw [Shape.explicitly_of_schemaAt hnode] at hnear
  exact ⟨hgov, hnode, hnear⟩

theorem Shape.At.child (h : ds.shape.At key default owner path schema b)
    (hsub : (schema.get? "properties").bind (·.get? k) = some sub)
    (hgov : ds.shape.governing (path.join k) = some owner) :
    ds.shape.At key default owner (path.join k) sub (flag sub key b) := by
  have hpre := Declarations.governing_contains h.governs
  have hnode : ds.shape.schemaAt (path.join k) = some sub := by
    have hup := h.node
    rw [Shape.schemaAt_of_governing h.governs] at hup
    obtain ⟨top, htop, hup⟩ := Option.bind_eq_some_iff.mp hup
    rw [Shape.schemaAt_of_governing hgov, htop, Path.join, List.drop_append_of_le_length hpre.length_le,
      Option.bind_some, Shape.nodeAt_append, hup, Option.bind_some, Shape.nodeAt_cons, hsub]
    rfl
  have hnear := h.nearest.child (k := k) hpre
  rw [← Path.join, Shape.explicitly_of_schemaAt hnode] at hnear
  exact ⟨hgov, hnode, hnear⟩

end

end PveMeta
