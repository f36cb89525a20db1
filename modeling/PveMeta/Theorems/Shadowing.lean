import PveMeta.Sample
import PveMeta.Theorems.Gate
import PveMeta.Theorems.Ids
import PveMeta.Theorems.Shapes

/-! # Schemas shadow

A walk asks at every key of a map which prefix governs, and at no member of a list. A prefix is looked up by a
descent that does follow an index. So what is reported is what the governing prefix says exactly if no prefix
leads into a list. -/

namespace PveMeta
open View Value

/-- A loaded document: each key once in every map, and no list longer than an index reaches. -/
structure Loaded where
  val : Value
  wf : val.WF
  indexed : ∀ p items, getPath val p = some (.array items) → items.length ≤ 2 ^ 64

/-- Every report is the governing prefix's own, no path is reported for two prefixes, and what a declared prefix
    leads to is what it names: no prefix reaches into a list. -/
structure Shadows [Deps] (ds : Declarations) (doc : Value) : Prop where
  governed : ∀ r ∈ ds.shape.findings doc, ∀ owner ∈ ds.list, r ∈ ds.shape.reportsOf doc owner →
    ds.shape.governing r.path = some owner
  once : ∀ r ∈ ds.shape.findings doc, ∀ r' ∈ ds.shape.findings doc, r.path = r'.path → ∀ owner ∈ ds.list,
    ∀ other ∈ ds.list, r ∈ ds.shape.reportsOf doc owner → r' ∈ ds.shape.reportsOf doc other → owner = other
  noMember : ∀ owner ∈ ds.list, ∀ v, getPath doc owner.pre = some v → readAt doc owner.pre = some v

/-- The path leads by keys to a list of the document, by an index to a member of it, and on to a value. -/
def RunsIntoList (doc : Value) (path : Path) : Prop :=
  ∃ q seg rest items i member, path = q ++ seg :: rest ∧ readAt doc q = some (.array items) ∧
    Text.parseNat (2 ^ 64) seg.toList = some i ∧ items[i]? = some member ∧ (getPath member rest).isSome

variable {ds : Declarations} {owner : Declared} {schema v w doc : Value} {path p q : Path} {inherited : Bool}

/-! ### Where a path leads -/

theorem getPath_append_bind : getPath v (p ++ q) = (getPath v p).bind (getPath · q) := by
  induction p generalizing v with
  | nil => rfl
  | cons k p ih =>
    cases v with
    | object m =>
      rw [List.cons_append, getPath, getPath]
      simp only [ih, Option.bind_assoc]
    | array items =>
      rw [List.cons_append, getPath, getPath]
      simp only [ih, Option.bind_assoc]
    | _ => rfl

/-- A path that leads to a value leads there by keys, unless it runs into a list. -/
theorem valueAt_or_runsIntoList (h : getPath doc p = some v) : valueAt doc p = some v ∨ RunsIntoList doc p := by
  induction p generalizing doc with
  | nil =>
    cases h
    exact Or.inl valueAt_nil
  | cons seg p ih =>
    cases doc
    case object m =>
      obtain ⟨u, hu, h⟩ := Option.bind_eq_some_iff.mp h
      rcases ih h with hval | ⟨q, seg', rest, items, i, member, rfl, hq, hi, hmember, hrest⟩
      · refine Or.inl ?_
        rw [valueAt_object_cons, hu, Option.bind_some, hval]
      · refine Or.inr ⟨seg :: q, seg', rest, items, i, member, rfl, ?_, hi, hmember, hrest⟩
        rw [readAt_eq] at hq ⊢
        rw [valueAt_object_cons, hu, Option.bind_some, hq]
    case array items =>
      obtain ⟨i, hi, h⟩ := Option.bind_eq_some_iff.mp h
      obtain ⟨member, hmember, h⟩ := Option.bind_eq_some_iff.mp h
      refine Or.inr ⟨[], seg, p, items, i, member, rfl, ?_, hi, hmember, by rw [h]; rfl⟩
      rw [readAt_eq, valueAt_nil]
    all_goals cases h

theorem RunsIntoList.exists_getPath (h : RunsIntoList doc p) : ∃ v, getPath doc p = some v ∧ valueAt doc p = none := by
  obtain ⟨q, seg, rest, items, i, member, rfl, hq, hi, hmember, hrest⟩ := h
  obtain ⟨v, hv⟩ := Option.isSome_iff_exists.mp hrest
  rw [readAt_eq] at hq
  refine ⟨v, ?_, by rw [valueAt_append hq]; rfl⟩
  rw [getPath_append hq, getPath]
  simp only [hi, hmember, Option.bind_some, hv]

theorem getPath_of_valueAt (h : valueAt doc p = some v) : getPath doc p = some v := by
  have hpath := getPath_append h []
  rwa [List.append_nil] at hpath

/-- A path that leads by keys to a value does not run over a list. -/
theorem not_array_above {k : String} {items : List Value} (h : valueAt doc (path.join k) = some v) :
    getPath doc path ≠ some (.array items) := by
  intro hlist
  obtain ⟨y, hy, hend⟩ := valueAt_above h (List.prefix_append path [k])
  rw [getPath_of_valueAt hy, Option.some.injEq] at hlist
  subst hlist
  rcases hend with heq | hobj
  · simp [Path.join] at heq
  · cases hobj

namespace Loaded

variable (doc : Loaded)

theorem getPath_member {m : Members} (hv : getPath doc.val path = some (.object m)) {e : String × Value} (he : e ∈ m) :
    getPath doc.val (path.join e.1) = some e.2 := by
  have hkeys := (getPath_wf doc.wf hv).keys
  rw [Path.join, getPath_append_bind, hv, Option.bind_some, getPath]
  simp only [Assoc.get?_of_mem hkeys he, Option.bind_some]
  rfl

theorem getPath_item {items : List Value} (hv : getPath doc.val path = some (.array items)) {j : Nat} {item : Value}
    (hitem : items[j]? = some item) : getPath doc.val (path.join (DocId.decimal j)) = some item := by
  obtain ⟨hj, -⟩ := List.getElem?_eq_some_iff.mp hitem
  have hindex := Decimal.parseNat_toDigits (lt_of_lt_of_le hj (doc.indexed path items hv))
  rw [Path.join, getPath_append_bind, hv, Option.bind_some, getPath, Perl.decimal_toList]
  simp only [hindex, hitem, Option.bind_some]
  rfl

end Loaded

/-! ### What a walk reports -/

/-- Where no prefix leads into a list, a member of one has the prefix of the list. -/
theorem governing_member {k : String} {items : List Value}
    (hmember : ∀ d ∈ ds.list, ∀ v, getPath doc d.pre = some v → valueAt doc d.pre = some v)
    (hgov : ds.shape.governing path = some owner) (hlist : getPath doc path = some (.array items))
    (hv : getPath doc (path.join k) = some v) : ds.shape.governing (path.join k) = some owner := by
  obtain ⟨ho, hpre, hmax⟩ := Declarations.governing_eq_some_iff.mp hgov
  refine Declarations.governing_eq_some_iff.mpr ⟨ho, hpre.trans (List.prefix_append path [k]), fun d hd hdp => ?_⟩
  rcases List.prefix_concat_iff.mp hdp with heq | hup
  · have hkeys := hmember d hd v (by rw [heq]; exact hv)
    rw [heq] at hkeys
    exact absurd hlist (not_array_above hkeys)
  · exact hmax d hd hup

section

variable [Deps] {r : Report}

theorem governing_of_mem_walk {doc : Loaded}
    (hmember : ∀ d ∈ ds.list, ∀ v, getPath doc.val d.pre = some v → valueAt doc.val d.pre = some v)
    (hgov : ds.shape.governing path = some owner) (hv : getPath doc.val path = some v)
    (hr : r ∈ ds.shape.walk owner schema path inherited v) : ds.shape.governing r.path = some owner := by
  have ho := (Declarations.governing_eq_some_iff.mp hgov).1
  induction v using Value.ind generalizing schema path inherited with
  | object m ih =>
    rcases Shape.mem_walk.mp hr with
      ⟨msg, -, rfl⟩ | ⟨-, ⟨s, format, -, -, rfl⟩ | ⟨items, sub, heq, -⟩ | ⟨m', props, heq, -, hr⟩⟩
    · exact hgov
    · exact hgov
    · cases heq
    · cases heq
      obtain ⟨e, he, sub, -, hbelow, hr⟩ := Shape.mem_walkMembers.mp hr
      exact ih e he ((Declarations.governs_iff ho).mp hbelow) (doc.getPath_member hv he) hr
  | array items ih =>
    rcases Shape.mem_walk.mp hr with
      ⟨msg, -, rfl⟩ | ⟨-, ⟨s, format, -, -, rfl⟩ | ⟨items', sub, heq, -, hr⟩ | ⟨m, props, heq, -⟩⟩
    · exact hgov
    · exact hgov
    · cases heq
      obtain ⟨j, item, hitem, hr⟩ := Shape.mem_walkItems.mp hr
      rw [Nat.zero_add] at hr
      have hget := doc.getPath_item hv hitem
      exact ih item (List.mem_of_getElem? hitem) (governing_member hmember hgov hv hget) hget hr
    · cases heq
  | _ =>
    rcases Shape.mem_walk.mp hr with
      ⟨msg, -, rfl⟩ | ⟨-, ⟨s, format, -, -, rfl⟩ | ⟨items, sub, heq, -⟩ | ⟨m, props, heq, -⟩⟩
    · exact hgov
    · exact hgov
    · cases heq
    · cases heq

/-- What is reported is what the governing prefix says, once, and no prefix names a member of a list, exactly if no
    declared prefix leads by keys to a list of the document and by an index into it. -/
theorem findings_shadow_iff (ds : Declarations) (doc : Loaded) :
    Shadows ds doc.val ↔ ∀ owner ∈ ds.list, ¬ RunsIntoList doc.val owner.pre := by
  constructor
  · intro h owner ho hruns
    obtain ⟨v, hv, hnone⟩ := hruns.exists_getPath
    have hread := h.noMember owner ho v hv
    rw [readAt_eq, hnone] at hread
    cases hread
  · intro h
    have hmember : ∀ d ∈ ds.list, ∀ v, getPath doc.val d.pre = some v → valueAt doc.val d.pre = some v :=
      fun d hd v hv => (valueAt_or_runsIntoList hv).resolve_right (h d hd)
    have hgov : ∀ owner ∈ ds.list, ∀ r ∈ ds.shape.reportsOf doc.val owner, ds.shape.governing r.path = some owner := by
      intro owner ho r hr
      obtain ⟨schema, v, -, hv, hr⟩ := Shape.mem_reportsOf.mp hr
      exact governing_of_mem_walk hmember (Declarations.governing_pre ho) hv hr
    refine ⟨fun r _ owner ho hr => hgov owner ho r hr, fun r _ r' _ heq owner ho other hother hr hr' => ?_,
      fun owner ho v hv => ?_⟩
    · have hsame := hgov owner ho r hr
      rw [heq, hgov other hother r' hr', Option.some.injEq] at hsame
      exact hsame.symm
    · rw [readAt_eq]
      exact hmember owner ho v hv

end

/-- `ports` lists integers, and `ports.0` is a boolean. -/
def portPair : Declarations where
  list := [
    ⟨["ports"], none, some (.object [("items", .object [("type", .string "integer")])]), false, false⟩,
    ⟨["ports", "0"], none, some (.object [("type", .string "boolean")]), false, false⟩]
  distinct := by decide
  wf := by
    have hone : ∀ (k : String) (v : Value), v.WF → (Value.object [(k, v)]).WF :=
      fun k v hv => .object (List.nodup_singleton k) fun e he => (List.mem_singleton.mp he) ▸ hv
    intro d hd schema hs
    rcases List.mem_pair.mp hd with rfl | rfl
    · cases hs
      exact hone _ _ (hone _ _ (.string "integer"))
    · cases hs
      exact hone _ _ (.string "boolean")

/-- `ports: ["x"]` -/
def portDoc : Loaded where
  val := .object [("ports", .array [.string "x"])]
  wf := by
    refine .object (List.nodup_singleton _) fun e he => ?_
    rw [List.mem_singleton.mp he]
    refine .array fun v hv => ?_
    rw [List.mem_singleton.mp hv]
    exact .string "x"
  indexed := by
    intro p items h
    have hlen : items = [.string "x"] := by
      rcases p with - | ⟨k, - | ⟨i, p⟩⟩
      · cases h
      · obtain ⟨u, hu, h⟩ := Option.bind_eq_some_iff.mp h
        cases h
        cases List.mem_singleton.mp (Assoc.mem_of_get? hu)
        rfl
      · obtain ⟨u, hu, h⟩ := Option.bind_eq_some_iff.mp h
        cases List.mem_singleton.mp (Assoc.mem_of_get? hu)
        obtain ⟨i, -, h⟩ := Option.bind_eq_some_iff.mp h
        obtain ⟨v, hv, h⟩ := Option.bind_eq_some_iff.mp h
        cases List.mem_singleton.mp (List.mem_of_getElem? hv)
        cases p <;> cases h
    rw [hlen]
    decide

open Sample in
/-- The first port is reported on twice, once by the schema of `ports`, which does not govern it. -/
theorem member_reported_twice :
    (portPair.shape.findings portDoc.val).map Report.path = [["ports", "0"], ["ports", "0"]] ∧
      ¬ Shadows portPair portDoc.val := by
  have hfindings : portPair.shape.findings portDoc.val =
      [.finding ⟨["ports", "0"], "expected boolean", false⟩, .finding ⟨["ports", "0"], "expected integer", false⟩] := by
    rfl
  refine ⟨by rw [hfindings]; rfl, fun h => ?_⟩
  have hmem : Report.finding ⟨["ports", "0"], "expected integer", false⟩ ∈ portPair.shape.findings portDoc.val := by
    rw [hfindings]
    exact List.mem_cons_of_mem _ List.mem_cons_self
  have hgov := h.governed _ hmem _ List.mem_cons_self List.mem_cons_self
  have hpre := congrArg (Option.map Declared.pre) hgov
  have hlong : (portPair.shape.governing ["ports", "0"]).map Declared.pre = some ["ports", "0"] := by rfl
  rw [Report.path, hlong] at hpre
  simp at hpre

end PveMeta
