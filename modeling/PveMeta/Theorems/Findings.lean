import Mathlib.Data.List.Lex
import PveMeta.Theorems.Shadowing

/-! # Findings are complete

The walks of all prefixes together find, at every path that a schema describes and the document has a value at,
what the check of that value under that node says, unless a value above missed its own node. -/

namespace PveMeta
open Scope View Value

section

variable [Deps]

/-- Nothing is missed at the paths from `top` down to the one above `path`. -/
def Silent (shape : Shape) (doc : Value) (top path : Path) : Prop :=
  ∀ q, top <+: q → q <+: path → q ≠ path → ∀ schema v, shape.schemaAt q = some schema → readAt doc q = some v →
    Shape.checkValue schema v = none

/-- What a document misses at one path: what the check says of the value and the node there, where it is silent
    above, enforced if the nearest setting says so. -/
def Misses (shape : Shape) (doc : Value) (f : Finding) : Prop :=
  ∃ owner schema v, shape.governing f.path = some owner ∧ shape.schemaAt f.path = some schema ∧
    readAt doc f.path = some v ∧ Shape.checkValue schema v = some f.msg ∧ Silent shape doc owner.pre f.path ∧
    Nearest (shape.explicitly "enforce") owner.pre f.path owner.enforce f.enforced

variable {ds : Declarations} {owner : Declared} {schema v w doc : Value} {path p : Path} {inherited : Bool} {f : Finding}
  {k msg : String}

/-! ### What is found is missed -/

theorem Silent.root (shape : Shape) (doc : Value) (top : Path) : Silent shape doc top top := by
  intro q hq hq' hne
  exact absurd (hq'.eq_of_length (hq'.length_le.antisymm hq.length_le)) hne

theorem Silent.child {shape : Shape} {top : Path} (h : Silent shape doc top path) (hs : shape.schemaAt path = some schema)
    (hv : readAt doc path = some v) (hc : Shape.checkValue schema v = none) : Silent shape doc top (path.join k) := by
  intro q hq hq' hne s u hs' hu
  rcases List.prefix_concat_iff.mp hq' with heq | hup
  · exact absurd heq hne
  · by_cases heq : q = path
    · subst heq
      rw [hs, Option.some.injEq] at hs'
      rw [hv, Option.some.injEq] at hu
      rw [← hs', ← hu, hc]
    · exact h q hq hup heq s u hs' hu

omit [Deps] in
theorem valueAt_join {m : Members} (hv : valueAt doc path = some (.object m)) (hk : Assoc.get? k m = some v) :
    valueAt doc (path.join k) = some v := by
  rw [Path.join, valueAt_append hv, valueAt_object_cons, hk, Option.bind_some, valueAt_nil]

theorem misses_of_mem_walk (hd : doc.WF)
    (hitems : ∀ p schema items, readAt doc p = some (.array items) → ds.shape.schemaAt p = some schema →
      schema.get? "items" = none)
    (hat : ds.shape.At "enforce" owner.enforce owner path schema (flag schema "enforce" inherited))
    (hv : valueAt doc path = some v) (hsilent : Silent ds.shape doc owner.pre path)
    (hr : Report.finding f ∈ ds.shape.walk owner schema path inherited v) : Misses ds.shape doc f := by
  have ho := (Declarations.governing_eq_some_iff.mp hat.governs).1
  have hread : readAt doc path = some v := by rw [readAt_eq, hv]
  induction v using Value.ind generalizing schema path inherited with
  | object m ih =>
    rcases Shape.mem_walk.mp hr with
      ⟨msg, hc, heq⟩ | ⟨hc, ⟨s, format, heq, -⟩ | ⟨items, sub, heq, -⟩ | ⟨m', props, heq, hprops, hr⟩⟩
    · cases heq
      exact ⟨owner, schema, _, hat.governs, hat.node, hread, hc, hsilent, hat.nearest⟩
    · cases heq
    · cases heq
    · cases heq
      obtain ⟨e, he, sub, hsub, hgov, hr⟩ := Shape.mem_walkMembers.mp hr
      have hbelow := hat.child (child_eq_some_iff.mpr ⟨props, hprops, hsub⟩) ((Declarations.governs_iff ho).mp hgov)
      have hmember := valueAt_join hv (Assoc.get?_of_mem (valueAt_wf hd hv).keys he)
      exact ih e he hbelow hmember (hsilent.child hat.node hread hc) hr (by rw [readAt_eq, hmember])
  | array items ih =>
    rcases Shape.mem_walk.mp hr with
      ⟨msg, hc, heq⟩ | ⟨-, ⟨s, format, heq, -⟩ | ⟨items', sub, -, hsub, -⟩ | ⟨m, props, heq, -⟩⟩
    · cases heq
      exact ⟨owner, schema, _, hat.governs, hat.node, hread, hc, hsilent, hat.nearest⟩
    · cases heq
    · rw [hitems path schema items hread hat.node] at hsub
      cases hsub
    · cases heq
  | _ =>
    rcases Shape.mem_walk.mp hr with
      ⟨msg, hc, heq⟩ | ⟨-, ⟨s, format, -, -, heq⟩ | ⟨items, sub, heq, -⟩ | ⟨m, props, heq, -⟩⟩
    · cases heq
      exact ⟨owner, schema, _, hat.governs, hat.node, hread, hc, hsilent, hat.nearest⟩
    · cases heq
    · cases heq
    · cases heq

/-! ### What is missed is found -/

theorem exists_mem_walk {shape : Shape} {s : Value} (inherited : Bool)
    (hgov : ∀ q, q <+: p → (shape.governing (path ++ q)).map (·.pre) = some owner.pre)
    (hnode : Shape.nodeAt schema p = some s) (hv : valueAt v p = some w) (hc : Shape.checkValue s w = some msg)
    (hsilent : ∀ q, q <+: p → q ≠ p → ∀ s' v', Shape.nodeAt schema q = some s' → valueAt v q = some v' →
      Shape.checkValue s' v' = none) :
    ∃ b, Report.finding ⟨path ++ p, msg, b⟩ ∈ shape.walk owner schema path inherited v := by
  induction p generalizing path schema v inherited with
  | nil =>
    rw [Shape.nodeAt_nil, Option.some.injEq] at hnode
    rw [valueAt_nil, Option.some.injEq] at hv
    subst hnode hv
    exact ⟨flag schema "enforce" inherited, Shape.mem_walk.mpr (Or.inl ⟨msg, hc, by rw [List.append_nil]⟩)⟩
  | cons k p ih =>
    cases v
    case object m =>
      obtain ⟨u, hu, hv⟩ := Option.bind_eq_some_iff.mp hv
      rw [Shape.nodeAt_cons] at hnode
      obtain ⟨sub, hsub, hnode⟩ := Option.bind_eq_some_iff.mp hnode
      obtain ⟨props, hprops, hget⟩ := child_eq_some_iff.mp hsub
      have hbelow : ∀ q, q <+: p → (shape.governing (path.join k ++ q)).map (·.pre) = some owner.pre := by
        intro q hq
        have hgo := hgov (k :: q) (List.cons_prefix_cons.mpr ⟨rfl, hq⟩)
        rwa [List.append_cons] at hgo
      have hquiet : ∀ q, q <+: p → q ≠ p → ∀ s' v', Shape.nodeAt sub q = some s' → valueAt u q = some v' →
          Shape.checkValue s' v' = none := by
        intro q hq hne s' v' hs' hv'
        refine hsilent (k :: q) (List.cons_prefix_cons.mpr ⟨rfl, hq⟩) (fun heq => hne (List.cons.inj heq).2) s' v' ?_ ?_
        · rw [Shape.nodeAt_cons, hsub, Option.bind_some, hs']
        · rw [valueAt_object_cons, hu, Option.bind_some, hv']
      obtain ⟨b, hb⟩ := ih (flag schema "enforce" inherited) hbelow hnode hv hquiet
      refine ⟨b, Shape.mem_walk.mpr (Or.inr ⟨?_, Or.inr (Or.inr ⟨m, props, rfl, hprops, ?_⟩)⟩)⟩
      · exact hsilent [] List.nil_prefix (List.cons_ne_nil k p).symm schema _ rfl valueAt_nil
      · have hhere := hgov [k] (List.cons_prefix_cons.mpr ⟨rfl, List.nil_prefix⟩)
        rw [Path.join_append] at hb
        exact Shape.mem_walkMembers.mpr ⟨(k, u), Assoc.mem_of_get? hu, sub, hget, hhere, hb⟩
    all_goals cases hv

theorem exists_mem_findings (h : Misses ds.shape doc f) :
    ∃ b, Report.finding ⟨f.path, f.msg, b⟩ ∈ ds.shape.findings doc := by
  obtain ⟨owner, schema, v, hgov, hnode, hv, hc, hsilent, -⟩ := h
  have ho := (Declarations.governing_eq_some_iff.mp hgov).1
  obtain ⟨r, hr⟩ := Declarations.governing_contains hgov
  rw [Shape.schemaAt_of_governing hgov] at hnode
  obtain ⟨top, htop, hnode⟩ := Option.bind_eq_some_iff.mp hnode
  rw [← hr, List.drop_left] at hnode
  rw [readAt_eq] at hv
  obtain ⟨x, hx, -⟩ := valueAt_above hv (Declarations.governing_contains hgov)
  rw [← hr, valueAt_append hx] at hv
  have hbetween : ∀ q, q <+: r → ds.shape.governing (owner.pre ++ q) = some owner := by
    intro q hq
    refine Declarations.governing_between hgov (List.prefix_append _ _) ?_
    rw [← hr]
    exact (List.prefix_append_right_inj owner.pre).mpr hq
  have hquiet : ∀ q, q <+: r → q ≠ r → ∀ s' v', Shape.nodeAt top q = some s' → valueAt x q = some v' →
      Shape.checkValue s' v' = none := by
    intro q hq hne s' v' hs' hv'
    refine hsilent (owner.pre ++ q) (List.prefix_append _ _) ?_ ?_ s' v' ?_ ?_
    · rw [← hr]
      exact (List.prefix_append_right_inj owner.pre).mpr hq
    · rw [← hr]
      exact fun heq => hne (List.append_cancel_left heq)
    · rw [Shape.schemaAt_of_governing (hbetween q hq), htop, List.drop_left, Option.bind_some, hs']
    · rw [readAt_eq, valueAt_append hx, hv']
  obtain ⟨b, hb⟩ := exists_mem_walk owner.enforce
    (fun q hq => (Declarations.governs_iff ho).mpr (hbetween q hq)) hnode hv hc hquiet
  rw [hr] at hb
  exact ⟨b, Shape.mem_findings.mpr ⟨owner, Declarations.mem_prefixes.mpr ho,
    Shape.mem_reportsOf.mpr ⟨top, x, htop, getPath_of_valueAt hx, hb⟩⟩⟩

/-! ### The findings of a document -/

omit [Deps] in
theorem not_lt_iff_le {a b : Path} : (! b.lt a) = true ↔ a ≤ b := by
  rw [Path.lt, Bool.not_eq_true', decide_eq_false_iff_not]
  exact not_lt (α := List String)

omit [Deps] in
theorem byPath_total : Std.Total fun a b : Report => (! b.path.lt a.path) = true := ⟨fun a b => by
  rw [not_lt_iff_le, not_lt_iff_le]
  exact le_total a.path b.path⟩

omit [Deps] in
theorem byPath_trans : IsTrans Report fun a b => (! b.path.lt a.path) = true := ⟨fun a b c hab hbc => by
  rw [not_lt_iff_le] at hab hbc ⊢
  exact hab.trans hbc⟩

theorem findings_sorted (shape : Shape) (doc : Value) :
    (shape.findings doc).Pairwise fun a b => b.path.lt a.path = false := by
  have := byPath_total
  have := byPath_trans
  exact (List.pairwise_insertionSort _ _).imp fun {a b} h => Bool.not_eq_true' _ ▸ h

/-- Where no list is described by `items` and no declared prefix runs through a list, the findings are what the
    document misses, path by path, in the order of the paths. -/
theorem findings_complete (ds : Declarations) (doc : Tree)
    (hitems : ∀ p schema items, readAt doc.val p = some (.array items) → ds.shape.schemaAt p = some schema →
      schema.get? "items" = none)
    (hthrough : ∀ d ∈ ds.list, ∀ q, q <+: d.pre → q ≠ d.pre → ∀ items, readAt doc.val q ≠ some (.array items)) :
    (∀ f, Report.finding f ∈ ds.shape.findings doc.val ↔ Misses ds.shape doc.val f) ∧
      (ds.shape.findings doc.val).Pairwise fun a b => b.path.lt a.path = false := by
  have hsound : ∀ f, Report.finding f ∈ ds.shape.findings doc.val → Misses ds.shape doc.val f := by
    intro f hf
    obtain ⟨owner, ho, hr⟩ := Shape.mem_findings.mp hf
    have ho := Declarations.mem_prefixes.mp ho
    obtain ⟨schema, v, hs, hv, hr⟩ := Shape.mem_reportsOf.mp hr
    have hkeys : valueAt doc.val owner.pre = some v := by
      refine (valueAt_or_runsIntoList hv).resolve_right ?_
      intro ⟨q, seg, rest, items, i, member, hpre, hq, _⟩
      refine hthrough owner ho q (hpre ▸ List.prefix_append _ _) ?_ items hq
      rw [hpre]
      simp
    exact misses_of_mem_walk doc.property hitems (Shape.At.root ho hs) hkeys (Silent.root _ _ _) hr
  refine ⟨fun f => ⟨hsound f, fun hm => ?_⟩, findings_sorted _ _⟩
  -- The flag of what is found is the nearest one, and there is only one.
  obtain ⟨b, hb⟩ := exists_mem_findings hm
  obtain ⟨owner, -, -, hgov, -, -, -, -, hnear⟩ := hm
  obtain ⟨owner', -, -, hgov', -, -, -, -, hnear'⟩ := hsound _ hb
  cases hgov.symm.trans hgov'
  have hflag : b = f.enforced := hnear'.unique hnear
  rwa [hflag] at hb

end

/-- `port` is an integer, enforced. -/
def portShape : Declarations where
  list := [⟨["port"], none, some (.object [("type", .string "integer")]), true, false⟩]
  distinct := by decide
  wf := by
    intro d hd schema hs
    rw [List.mem_singleton.mp hd, Option.some.injEq] at hs
    rw [← hs]
    exact .object (List.nodup_singleton _) fun _ he => (List.mem_singleton.mp he) ▸ .string "integer"

/-- `port: x` -/
def portText : Tree :=
  ⟨.object [("port", .string "x")],
    .object (List.nodup_singleton _) fun _ he => (List.mem_singleton.mp he) ▸ .string "x"⟩

open Sample in
theorem findings_complete_port : Misses portShape.shape portText.val ⟨["port"], "expected integer", true⟩ := by
  have hnolist : ∀ p items, readAt portText.val p ≠ some (.array items) := by
    intro p items h
    rw [readAt_eq] at h
    rcases p with - | ⟨k, - | ⟨j, p⟩⟩
    · cases h
    · obtain ⟨u, hu, h⟩ := Option.bind_eq_some_iff.mp h
      cases List.mem_singleton.mp (Assoc.mem_of_get? hu)
      cases h
    · obtain ⟨u, hu, h⟩ := Option.bind_eq_some_iff.mp h
      cases List.mem_singleton.mp (Assoc.mem_of_get? hu)
      cases h
  refine ((findings_complete portShape portText (fun p schema items h => absurd h (hnolist p items))
    fun d _ q _ _ items => hnolist q items).1 _).mp ?_
  have hfindings : portShape.shape.findings portText.val = [.finding ⟨["port"], "expected integer", true⟩] := by rfl
  rw [hfindings]
  exact List.mem_singleton_self _

end PveMeta
