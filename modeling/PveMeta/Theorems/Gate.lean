import PveMeta.Theorems.Deletes
import PveMeta.Theorems.Reads
import PveMeta.Theorems.MergeDiff

/-! # The gate, without the touched list

A write is refused for a finding that is new, or that a touched path is at, above or below. Whatever the write is,
those are the findings that a path of the diff is at, above or below: the reports stop at other places, but a
finding is about a value that is there, and no report names what is beside it for a change of it. -/

namespace PveMeta
open Api MetaStore View Patch Value

/-- `p` leads to a value, or into one that is no map. -/
def Reached (v : Value) (p : Path) : Prop :=
  ∃ q x, q <+: p ∧ valueAt v q = some x ∧ (q = p ∨ x.isObject = false)

variable {v w x old new : Value} {p q r : Path} {T : List Touched} {t : Touched} {m n : Members}

/-! ### Values along a path -/

theorem valueAt_append (h : valueAt v q = some x) (r : Path) : valueAt v (q ++ r) = valueAt x r := by
  induction q generalizing v with
  | nil =>
    rw [valueAt_nil, Option.some.injEq] at h
    rw [h, List.nil_append]
  | cons k q ih =>
    cases v
    case object m =>
      obtain ⟨u, hu, h⟩ := Option.bind_eq_some_iff.mp h
      rw [List.cons_append, valueAt_object_cons, hu, Option.bind_some]
      exact ih h
    all_goals cases h

/-- Above a value there are values, and maps where it is not the value itself. -/
theorem valueAt_above (h : valueAt v p = some x) (hq : q <+: p) :
    ∃ y, valueAt v q = some y ∧ (q = p ∨ y.isObject = true) := by
  induction q generalizing v p with
  | nil =>
    refine ⟨v, valueAt_nil, ?_⟩
    cases p with
    | nil => exact Or.inl rfl
    | cons k p => cases v <;> first | exact Or.inr rfl | cases h
  | cons k q ih =>
    obtain ⟨p', rfl⟩ := hq
    rw [List.cons_append] at h ⊢
    cases v
    case object m =>
      obtain ⟨u, hu, hrest⟩ := Option.bind_eq_some_iff.mp h
      obtain ⟨y, hy, hend⟩ := ih hrest (List.prefix_append q p')
      refine ⟨y, by rw [valueAt_object_cons, hu, Option.bind_some, hy], hend.imp_left fun heq => ?_⟩
      rw [← heq]
    all_goals cases h

theorem isMap_above (h : valueAt v p = some x) (hq : q <+: p) (hne : q ≠ p) : IsMap (valueAt v q) := by
  obtain ⟨y, hy, hend⟩ := valueAt_above h hq
  rw [hy, isMap_iff]
  exact hend.resolve_left hne

theorem getPath_append (h : valueAt v q = some x) (r : Path) : getPath v (q ++ r) = getPath x r := by
  induction q generalizing v with
  | nil =>
    rw [valueAt_nil, Option.some.injEq] at h
    rw [h, List.nil_append]
  | cons k q ih =>
    cases v
    case object m =>
      obtain ⟨u, hu, hrest⟩ := Option.bind_eq_some_iff.mp h
      rw [List.cons_append, getPath]
      simp only [hu, Option.bind_some]
      exact ih hrest
    all_goals cases h

theorem getElem?_of_forall₂ {α β : Type} {R : α → β → Prop} {xs : List α} {ys : List β} (h : List.Forall₂ R xs ys)
    (i : Nat) :
    (xs[i]? = none ∧ ys[i]? = none) ∨ ∃ x y, xs[i]? = some x ∧ ys[i]? = some y ∧ R x y := by
  induction h generalizing i with
  | nil => exact Or.inl ⟨rfl, rfl⟩
  | cons hxy _ ih =>
    cases i with
    | zero => exact Or.inr ⟨_, _, rfl, rfl, hxy⟩
    | succ i => exact ih i

theorem optEq_getPath (hv : v.WF) (hw : w.WF) (h : (v == w) = true) (p : Path) : OptEq (getPath v p) (getPath w p) := by
  induction p generalizing v w with
  | nil => exact h
  | cons k p ih =>
    cases v <;> cases w <;> first | trivial | cases h | skip
    case object.object m n =>
      have hk := (object_beq_iff hv hw).mp h k
      simp only [getPath]
      cases hm : Assoc.get? k m <;> cases hn : Assoc.get? k n <;> rw [hm, hn] at hk <;>
        first | trivial | exact hk.elim | exact ih (hv.of_get? hm) (hw.of_get? hn) hk
    case array.array xs ys =>
      rw [array_beq_array, beqItems_iff] at h
      simp only [getPath]
      cases Text.parseNat (2 ^ 64) k.toList with
      | none => trivial
      | some i =>
        rcases getElem?_of_forall₂ h i with ⟨hx, hy⟩ | ⟨x, y, hx, hy, hxy⟩
        · simp only [Option.bind_some, hx, hy]
          trivial
        · simp only [Option.bind_some, hx, hy]
          exact ih (hv.items x (List.mem_of_getElem? hx)) (hw.items y (List.mem_of_getElem? hy)) hxy

theorem Path.isPrefixOf_iff_prefix : p.isPrefixOf q = true ↔ p <+: q := List.isPrefixOf_iff_prefix

/-! ### Where findings are -/

theorem Reached.append {p : Path} (hx : getPath v p = some x) (h : Reached x r) : Reached v (p ++ r) := by
  have hcases : valueAt v p = some x ∨ ∃ q y, q <+: p ∧ valueAt v q = some y ∧ y.isObject = false := by
    induction p generalizing v with
    | nil =>
      cases hx
      exact Or.inl valueAt_nil
    | cons k p ih =>
      cases v
      case object m =>
        obtain ⟨u, hu, hrest⟩ := Option.bind_eq_some_iff.mp hx
        rcases ih hrest with h | ⟨q, y, hq, hy, hobj⟩
        · exact Or.inl (by rw [valueAt_object_cons, hu, Option.bind_some, h])
        · refine Or.inr ⟨k :: q, y, List.cons_prefix_cons.mpr ⟨rfl, hq⟩, ?_, hobj⟩
          rw [valueAt_object_cons, hu, Option.bind_some, hy]
      case array items => exact Or.inr ⟨[], _, List.nil_prefix, valueAt_nil, rfl⟩
      all_goals cases hx
  rcases hcases with hp | ⟨q, y, hq, hy, hobj⟩
  · obtain ⟨q, y, hq, hy, hend⟩ := h
    refine ⟨p ++ q, y, (List.prefix_append_right_inj p).mpr hq, by rw [valueAt_append hp, hy], ?_⟩
    exact hend.imp_left fun heq => by rw [heq]
  · exact ⟨q, y, hq.trans (List.prefix_append p r), hy, Or.inr hobj⟩

section

variable [Deps] {shape : Shape} {owner : Declared} {schema : Value} {path : Path} {inherited : Bool}

omit [Deps] in
theorem Reached.here (v : Value) (path : Path) : ∃ r, path = path ++ r ∧ Reached v r :=
  ⟨[], by rw [List.append_nil], [], v, List.prefix_rfl, valueAt_nil, Or.inl rfl⟩

theorem walk_reached (hv : v.WF) {rep : Report} (h : rep ∈ shape.walk owner schema path inherited v) :
    ∃ r, rep.path = path ++ r ∧ Reached v r := by
  induction v using Value.ind generalizing schema path inherited with
  | object m ih =>
    rcases Shape.mem_walk.mp h with
      ⟨msg, -, rfl⟩ | ⟨-, ⟨s, format, -, -, rfl⟩ | ⟨items, sub, heq, -⟩ | ⟨m', props, heq, hprops, h⟩⟩
    · exact Reached.here _ path
    · exact Reached.here _ path
    · cases heq
    · cases heq
      obtain ⟨e, he, sub, hsub, hgov, h⟩ := Shape.mem_walkMembers.mp h
      obtain ⟨r, hr, q, x, hq, hx, hend⟩ := ih e he (hv.members e he) h
      refine ⟨e.1 :: r, by rw [hr, Path.join_append], e.1 :: q, x, List.cons_prefix_cons.mpr ⟨rfl, hq⟩, ?_, ?_⟩
      · rw [valueAt_object_cons, Assoc.get?_of_mem hv.keys he, Option.bind_some, hx]
      · exact hend.imp_left fun heq => by rw [heq]
  | array items ih =>
    rcases Shape.mem_walk.mp h with
      ⟨msg, -, rfl⟩ | ⟨-, ⟨s, format, -, -, rfl⟩ | ⟨items', sub, heq, hsub, h⟩ | ⟨m, props, heq, -⟩⟩
    · exact Reached.here _ path
    · exact Reached.here _ path
    · cases heq
      obtain ⟨j, item, hitem, h⟩ := Shape.mem_walkItems.mp h
      have hmem := List.mem_of_getElem? hitem
      obtain ⟨r, hr, -⟩ := ih item hmem (hv.items item hmem) h
      exact ⟨_, by rw [hr, Path.join_append], [], _, List.nil_prefix, valueAt_nil, Or.inr rfl⟩
    · cases heq
  | null | bool | number | string =>
    rcases Shape.mem_walk.mp h with
      ⟨msg, -, rfl⟩ | ⟨-, ⟨s, format, -, -, rfl⟩ | ⟨items, sub, heq, -⟩ | ⟨m, props, heq, -⟩⟩
    · exact Reached.here _ path
    · exact Reached.here _ path
    · cases heq
    · cases heq

theorem findings_reached (hv : v.WF) {rep : Report} (h : rep ∈ shape.findings v) : Reached v rep.path := by
  obtain ⟨owner, -, h⟩ := Shape.mem_findings.mp h
  obtain ⟨schema, value, hschema, hvalue, h⟩ := Shape.mem_reportsOf.mp h
  obtain ⟨r, hr, hreached⟩ := walk_reached (getPath_wf hv hvalue) h
  rw [hr]
  exact Reached.append hvalue hreached

end

/-! ### Two reports of one change -/

/-- A report of the change of a document, in entries that are sharp. -/
structure Reports (old new : Value) (T : List Touched) : Prop where
  exact_ : Exact Path.root (some old) (some new) T
  sharp : Sharp Path.root (some old) (some new) T

namespace Reports

theorem holds (h : Reports old new T) (ht : t ∈ T) : t.op.Holds (valueAt old t.path) (valueAt new t.path) := by
  obtain ⟨r, hr, hop⟩ := h.exact_.sound t ht
  obtain rfl : t.path = r := hr
  exact hop

theorem sharp_at (h : Reports old new T) (ht : t ∈ T) : t.op.Sharp (some old) (some new) t.path := by
  obtain ⟨r, hr, hop⟩ := h.sharp t ht
  obtain rfl : t.path = r := hr
  exact hop

theorem covers (h : Reports old new T) (hne : ¬ OptEq (valueAt old r) (valueAt new r)) :
    ∃ t ∈ T, r <+: t.path ∨ t.path <+: r := by
  obtain ⟨t, ht, s, hs, hc⟩ := h.exact_.covers r hne
  obtain rfl : t.path = s := hs
  exact ⟨t, ht, hc⟩

theorem not_below (h : Reports old new T) (ht : t ∈ T) (hq : q <+: t.path) (hne : q ≠ t.path) :
    IsMap (valueAt new q) := by
  have hholds := h.holds ht
  have hsharp := h.sharp_at ht
  cases hc : t.op with
  | set =>
    rw [hc] at hholds
    obtain ⟨v, hv, -⟩ := hholds
    exact isMap_above hv hq hne
  | delete =>
    rw [hc] at hsharp
    exact hsharp q hq hne

theorem set_of_reached (h : Reports old new T) (ht : t ∈ T) (hp : t.path <+: p) (hr : Reached new p) : t.op = .set := by
  cases hc : t.op with
  | set => rfl
  | delete =>
    exfalso
    have hholds := h.holds ht
    rw [hc] at hholds
    obtain ⟨q, x, hqp, hx, hend⟩ := hr
    rcases List.prefix_or_prefix_of_prefix hp hqp with hq | hq
    · obtain ⟨y, hy, -⟩ := valueAt_above hx hq
      rw [hholds.2] at hy
      cases hy
    · have hne : q ≠ t.path := by
        rintro rfl
        rw [hholds.2] at hx
        cases hx
      have hmap := h.not_below ht hq hne
      rw [hx, isMap_iff] at hmap
      rcases hend with rfl | hobj
      · exact hne (hq.eq_of_length_le hp.length_le)
      · rw [hobj] at hmap
        cases hmap

theorem not_maps (h : Reports old new T) (ht : t ∈ T) (hp : t.path <+: p) (hr : Reached new p) :
    ¬ (IsMap (valueAt old t.path) ∧ IsMap (valueAt new t.path)) := by
  have hsharp := h.sharp_at ht
  rw [h.set_of_reached ht hp hr] at hsharp
  exact hsharp

/-- A change of what leads to `p` is reported at, above or below `p`. -/
theorem covers_reached (h : Reports old new T) (hq : q <+: p) (hx : valueAt new q = some x)
    (hend : q = p ∨ x.isObject = false) (hne : ¬ OptEq (valueAt old q) (valueAt new q)) :
    ∃ t ∈ T, p <+: t.path ∨ t.path <+: p := by
  obtain ⟨t, ht, hc⟩ := h.covers hne
  refine ⟨t, ht, ?_⟩
  rcases hc with hc | hc
  · by_cases heq : q = t.path
    · exact Or.inr (heq ▸ hq)
    · have hmap := h.not_below ht hc heq
      rw [hx, isMap_iff] at hmap
      rcases hend with rfl | hobj
      · exact Or.inl hc
      · rw [hobj] at hmap
        cases hmap
  · exact Or.inr (hc.trans hq)

/-- An entry at or above a place that is reached says that what leads there changed. -/
theorem changed_of_above (h : Reports old new T) (ht : t ∈ T) (hp : t.path <+: p) (hqp : q <+: p)
    (hx : valueAt new q = some x) (hend : q = p ∨ x.isObject = false) :
    ¬ OptEq (valueAt old q) (valueAt new q) := by
  by_cases heq : q = t.path
  · rw [heq]
    exact (h.holds ht).ne
  · rcases List.prefix_or_prefix_of_prefix hp hqp with htq | hqt
    · have hnew : IsMap (valueAt new t.path) := isMap_above hx htq (Ne.symm heq)
      have hold : ¬ IsMap (valueAt old t.path) := fun hold =>
        h.not_maps ht hp ⟨q, x, hqp, hx, hend⟩ ⟨hold, hnew⟩
      cases hy : valueAt old q with
      | none =>
        rw [hx]
        exact id
      | some y => exact absurd (isMap_above hy htq (Ne.symm heq)) hold
    · have hmap := h.not_below ht hqt heq
      rw [hx, isMap_iff] at hmap
      rcases hend with rfl | hobj
      · exact absurd (hqt.eq_of_length_le hp.length_le) heq
      · rw [hobj] at hmap
        cases hmap

/-- Of two reports of one change, one that goes below a place only in maps on both sides, both have an entry at,
    above or below a place that is reached, or neither. -/
theorem agree {D : List Touched} (hT : Reports old new T) (hD : Reports old new D)
    (hspine : ∀ d ∈ D, ∀ q, q <+: d.path → q ≠ d.path → IsMap (valueAt old q) ∧ IsMap (valueAt new q))
    (hr : Reached new p) :
    (∃ t ∈ T, p <+: t.path ∨ t.path <+: p) ↔ ∃ d ∈ D, p <+: d.path ∨ d.path <+: p := by
  constructor
  · rintro ⟨t, ht, hc⟩
    obtain ⟨d, hd, hdt⟩ := hD.covers (hT.holds ht).ne
    refine ⟨d, hd, ?_⟩
    rcases hc with hc | hc
    · rcases hdt with hdt | hdt
      · exact Or.inl (hc.trans hdt)
      · exact List.prefix_or_prefix_of_prefix hc hdt
    · rcases hdt with hdt | hdt
      · by_cases heq : t.path = d.path
        · exact Or.inr (heq ▸ hc)
        · exact absurd (hspine d hd t.path hdt heq) (hT.not_maps ht hc hr)
      · exact Or.inr (hdt.trans hc)
  · rintro ⟨d, hd, hc⟩
    rcases hc with hc | hc
    · obtain ⟨t, ht, htd⟩ := hT.covers (hD.holds hd).ne
      refine ⟨t, ht, ?_⟩
      rcases htd with htd | htd
      · exact Or.inl (hc.trans htd)
      · exact List.prefix_or_prefix_of_prefix hc htd
    · obtain ⟨q, x, hqp, hx, hend⟩ := hr
      exact hT.covers_reached hqp hx hend (hD.changed_of_above hd hc hqp hx hend)

theorem unchanged (h : Reports old new T) (ho : old.WF) (hn : new.WF) (hr : Reached new p)
    (hno : ¬ ∃ t ∈ T, p <+: t.path ∨ t.path <+: p) : OptEq (getPath old p) (getPath new p) := by
  obtain ⟨q, x, hq, hx, hend⟩ := hr
  have heq : OptEq (valueAt old q) (valueAt new q) := by
    by_contra hne
    exact hno (h.covers_reached hq hx hend hne)
  rw [hx] at heq
  cases hy : valueAt old q with
  | none =>
    rw [hy] at heq
    exact heq.elim
  | some y =>
    rw [hy] at heq
    obtain ⟨r, rfl⟩ := hq
    rw [getPath_append hy, getPath_append hx]
    exact optEq_getPath (valueAt_wf ho hy) (valueAt_wf hn hx) heq r

end Reports

theorem diff_reports (ho : old.WF) (hn : new.WF) : Reports old new (diff old new) :=
  ⟨diffAt_exact ho hn, diffAt_sharp hn⟩

/-- A diff goes below a place only where both sides have a map. -/
theorem diff_spine (ho : old.WF) (hn : new.WF) {d : Touched} (hd : d ∈ diff old new) (hq : q <+: d.path)
    (hne : q ≠ d.path) :
    IsMap (valueAt old q) ∧ IsMap (valueAt new q) := by
  obtain ⟨r, hr, hmaps⟩ := (diffAt_spine ho hn).maps d hd
  obtain rfl : d.path = r := hr
  exact hmaps q hq hne

theorem mutatePut_reports {p : ParsedPut} {v : Tree} (h : mutatePut p v.val = (.ok T, new)) : Reports v.val new T := by
  have hreplace : ∀ {x : Value}, x.WF → replace v.val p.viewPath x = (.ok T, new) → Reports v.val new T :=
    fun hx hrun => ⟨replace_exact v.2 hx hrun, replace_sharp hx hrun⟩
  unfold mutatePut at h
  split at h
  · exact ⟨merge_exact v.2 p.payload.2 h, merge_sharp v.2 p.payload.2 h⟩
  · split at h
    · cases h
    · next old hold =>
      split at h
      · exact hreplace (keepComments_wf (valueAt_wf v.2 (valueAt_of_descend hold)) p.payload.2) h
      · exact hreplace p.payload.2 h
    · exact hreplace p.payload.2 h

/-! ### The gate -/

section

variable [Deps] {s : MetaStore} {req : PutRequest} {put : ParsedPut} {stored : Stored} {planned : Value} {shape : Shape}
  {touched : List Touched} {f : Finding}

/-- A finding that was not there, or that is at, above or below a path of the diff. -/
def Introduced (shape : Shape) (stored planned : Value) (f : Finding) : Prop :=
  (∀ g ∈ shape.enforcedFindings stored, ¬ (g.path = f.path ∧ g.msg = f.msg)) ∨
    ∃ d ∈ diff stored planned, f.path <+: d.path ∨ d.path <+: f.path

theorem mem_enforcedFindings_of_eq {g : Finding} (hf : f ∈ shape.enforcedFindings new) (hg : g ∈ shape.enforcedFindings old)
    (hpath : g.path = f.path) (hmsg : g.msg = f.msg) : f ∈ shape.enforcedFindings old := by
  have hen : g.enforced = f.enforced := by
    rw [(mem_enforcedFindings.mp hg).2, (mem_enforcedFindings.mp hf).2]
  have heq : g = f := by
    cases f
    cases g
    cases hpath
    cases hmsg
    cases hen
    rfl
  exact heq ▸ hg

/-- What the gate keeps of the findings does not depend on which report of the change it is given. -/
theorem mem_introduced (ho : old.WF) (hn : new.WF) (hT : Reports old new T) :
    f ∈ Shape.introduced (shape.enforcedFindings old) (shape.enforcedFindings new) (T.map (·.path)) ↔
      f ∈ shape.enforcedFindings new ∧ Introduced shape old new f := by
  rw [Shape.introduced, List.mem_filter]
  refine and_congr_right fun hf => ?_
  have hreached : Reached new f.path := findings_reached hn (mem_enforcedFindings.mp hf).1
  rw [Bool.or_eq_true, Introduced]
  refine or_congr ?_ ?_
  · rw [Bool.not_eq_true', List.contains_eq_mem, decide_eq_false_iff_not]
    constructor
    · rintro hno g hg ⟨hpath, hmsg⟩
      exact hno (mem_enforcedFindings_of_eq hf hg hpath hmsg)
    · exact fun hno hmem => hno f hmem ⟨rfl, rfl⟩
  · rw [← hT.agree (diff_reports ho hn) (fun d hd q hq hne => diff_spine ho hn hd hq hne) hreached]
    simp only [List.any_map, List.any_eq_true, Function.comp_apply, Bool.or_eq_true, Path.isPrefixOf_iff_prefix]
    exact exists_congr fun t => and_congr_right fun _ => Or.comm

/-- A put of a guest's document that can be read, without force, that gets as far as the schemas. -/
structure AtGate (s : MetaStore) (req : PutRequest) (put : ParsedPut) (stored : Stored) (touched : List Touched)
    (planned : Value) : Prop where
  parsed : parsePut req = .ok put
  guest : put.docId.isGuest = true
  fresh : s.checkPrecondition put.docId req.digest = .ok ()
  read : readStored s put.docId = .ok stored
  readable : stored.unrecoverable = none
  plan : planWrite put.keepNotes (mutatePut put stored.value.val) = .ok (touched, planned)
  unforced : req.force = false

def refusal (refused : List Finding) : ApiError :=
  ⟨422, "the result does not match an enforced schema: " ++
    joinWith "; " (refused.map fun f => f.path.display ++ ": " ++ f.msg) ++
    " (the prefix declares enforce: true; pass force=1 to store it anyway)"⟩

omit [Deps] in
theorem statusOf_ne_422 (e : Error) : statusOf e ≠ 422 := by cases e <;> simp [statusOf]

omit [Deps] in
theorem lift_status {α : Type} {r : Except Error α} {e : ApiError} (h : lift r = .error e) : e.status ≠ 422 := by
  cases r with
  | ok a => cases h
  | error e₀ =>
    cases h
    exact statusOf_ne_422 e₀

theorem applyPut_status {d : DocId} {plan : Plan} {e : ApiError} (h : (applyPut s req d stored plan).1 = .error e) :
    e.status ≠ 422 := by
  unfold applyPut at h
  split at h
  · split at h
    · cases h
    · cases hsize : lift (checkSize (Text.byteLen plan.text)) with
      | ok u =>
        rw [hsize] at h
        cases h
      | error e' =>
        rw [hsize] at h
        cases h
        exact lift_status hsize
  · exact lift_status h

namespace AtGate

/-- What the gate answers for a put that reaches it. -/
theorem preparePut_eq (h : AtGate s req put stored touched planned) :
    preparePut s req =
      let refused := Shape.introduced ((Shape.ofGuest req.prefixes).enforcedFindings stored.value.val)
        ((Shape.ofGuest req.prefixes).enforcedFindings planned) (touched.map (·.path))
      if refused.isEmpty then .ok (put, stored, ⟨planned, touched, diskFormat.dump planned⟩)
      else .error (refusal refused) := by
  obtain ⟨vmid, hvmid⟩ : ∃ vmid, put.docId = .guest vmid := by
    have hguest := h.guest
    cases hd : put.docId with
    | guest vmid => exact ⟨vmid, rfl⟩
    | registry kind name =>
      rw [hd] at hguest
      cases hguest
  have hrepair : checkRepairable stored put.viewPath put.isMerge = .ok () := by
    rw [checkRepairable, h.readable]
  have hshape : checkRegistryShape put.docId (diskFormat.dump planned) = .ok () := by rw [hvmid]; rfl
  have hfresh : lift (s.checkPrecondition put.docId req.digest) = .ok () := by rw [h.fresh]; rfl
  have hplan : planPut req put stored = do
      checkEnforced req.prefixes put.docId stored.value.val planned touched
      return ⟨planned, touched, diskFormat.dump planned⟩ := by
    simp only [planPut, hrepair, Except.ok_bind, h.plan, hshape, h.unforced, Bool.false_eq_true, if_false]
  rw [preparePut, h.parsed]
  simp only [Except.ok_bind, hfresh, h.read, hplan]
  rw [hvmid, checkEnforced]
  split <;> rfl

theorem planned_wf (h : AtGate s req put stored touched planned) : planned.WF := by
  have hwf := mutatePut_wf put stored.value
  rwa [(planWrite_eq_ok h.plan).1] at hwf

theorem mem_refused (h : AtGate s req put stored touched planned) :
    f ∈ Shape.introduced (shape.enforcedFindings stored.value.val) (shape.enforcedFindings planned)
        (touched.map (·.path)) ↔ f ∈ shape.enforcedFindings planned ∧ Introduced shape stored.value.val planned f :=
  mem_introduced stored.value.2 h.planned_wf (mutatePut_reports (planWrite_eq_ok h.plan).1)

end AtGate

/-- A put that reaches the gate is refused with 422 exactly for an enforced finding of the planned document that the
    stored one had not, or that is at, above or below a path of the diff between the two. So an accepted put leaves
    every enforced finding of its result as it was, on a value that it did not change. -/
theorem refused_iff_introduced (h : AtGate s req put stored touched planned) :
    ((∃ e, (putDocument s req).1 = .error e ∧ e.status = 422) ↔
      ∃ f ∈ (Shape.ofGuest req.prefixes).enforcedFindings planned,
        Introduced (Shape.ofGuest req.prefixes) stored.value.val planned f) ∧
    ∀ answer, (putDocument s req).1 = .ok answer → ∀ f ∈ (Shape.ofGuest req.prefixes).enforcedFindings planned,
      f ∈ (Shape.ofGuest req.prefixes).enforcedFindings stored.value.val ∧
        OptEq (getPath stored.value.val f.path) (getPath planned f.path) := by
  have hprepare := h.preparePut_eq
  have hmem : ∀ f, _ ↔ f ∈ (Shape.ofGuest req.prefixes).enforcedFindings planned ∧
      Introduced (Shape.ofGuest req.prefixes) stored.value.val planned f := fun f => h.mem_refused
  generalize Shape.introduced ((Shape.ofGuest req.prefixes).enforcedFindings stored.value.val)
    ((Shape.ofGuest req.prefixes).enforcedFindings planned) (touched.map (·.path)) = refused at hprepare hmem
  cases refused with
  | nil =>
    have hnone : ∀ f ∈ (Shape.ofGuest req.prefixes).enforcedFindings planned,
        ¬ Introduced (Shape.ofGuest req.prefixes) stored.value.val planned f := fun f hf hin =>
      absurd ((hmem f).mpr ⟨hf, hin⟩) List.not_mem_nil
    refine ⟨⟨?_, ?_⟩, ?_⟩
    · rintro ⟨e, he, hstatus⟩
      rw [putDocument, hprepare] at he
      cases happly : (applyPut s req put.docId stored ⟨planned, touched, diskFormat.dump planned⟩).1 with
      | ok digest =>
        simp [happly, Except.map] at he
      | error e' =>
        simp only [List.isEmpty_nil, if_true, happly, Except.map, Except.error.injEq] at he
        exact absurd (he ▸ hstatus) (applyPut_status happly)
    · rintro ⟨f, hf, hin⟩
      exact absurd hin (hnone f hf)
    · intro answer _ f hf
      have hno := hnone f hf
      rw [Introduced, not_or] at hno
      have hreached : Reached planned f.path := findings_reached h.planned_wf (mem_enforcedFindings.mp hf).1
      refine ⟨?_, (diff_reports stored.value.2 h.planned_wf).unchanged stored.value.2 h.planned_wf hreached hno.2⟩
      by_contra hout
      exact hno.1 fun g hg heq => hout (mem_enforcedFindings_of_eq hf hg heq.1 heq.2)
  | cons f refused =>
    obtain ⟨hf, hin⟩ := (hmem f).mp List.mem_cons_self
    have hrun : (putDocument s req).1 = .error (refusal (f :: refused)) := by
      rw [putDocument, hprepare]
      rfl
    refine ⟨⟨fun _ => ⟨f, hf, hin⟩, fun _ => ⟨_, hrun, rfl⟩⟩, fun answer hok => ?_⟩
    rw [hrun] at hok
    cases hok

end

open Sample

/-- A text under `a`, enforced. -/
def textAtA : PrefixDef :=
  ⟨["a"], none, .all, some (.object [("type", .string "string")]), true, false, [], .packaged, false⟩

/-- `{a: 1}` is replaced by `{a: 2}`: both have a number where a text has to be, and `a` is changed. -/
theorem refused_iff_introduced_text :
    ∃ e, (putDocument (storeOf [(100, "a: 1\n".toList)]) { sampleRequest with prefixes := [textAtA] }).1 = .error e ∧
      e.status = 422 := by
  have hgate : AtGate (storeOf [(100, "a: 1\n".toList)]) { sampleRequest with prefixes := [textAtA] }
      ⟨.guest 100, Path.root, false, docA 2, false⟩ ⟨docA 1, Sample.sha256Hex (Text.encode "a: 1\n".toList), none,
        some "a: 1\n".toList, rfl⟩ [⟨["a"], .set⟩]
      (docA 2).val := ⟨rfl, rfl, by decide +kernel, rfl, rfl, rfl, rfl⟩
  refine (refused_iff_introduced hgate).1.mpr ?_
  · exact ⟨⟨["a"], "expected string", true⟩, by decide, Or.inr ⟨⟨["a"], .set⟩, by decide, Or.inl List.prefix_rfl⟩⟩

end PveMeta
