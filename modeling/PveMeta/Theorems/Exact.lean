import PveMeta.Theorems.ValueEq
import PveMeta.Theorems.WellFormed

/-! # Reports of a change

A list of touched paths is exact for a change of a value if each entry is true of it and every
difference lies at, above or below an entry. Exactness of a map follows from exactness under its keys,
a change of one map after another adds their reports up as long as they change different keys, and a
change of a map deep in a document is reported as the change of that map is. -/

namespace PveMeta
open View Patch Value

/-- What an entry with this operation says about the value before and the value after. -/
def Op.Holds (old new : Option Value) : Op → Prop
  | .set => ∃ v, new = some v ∧ ¬ OptEq old (some v)
  | .delete => old.isSome ∧ new = none

/-- The value at `r` below an optional value. -/
def optAt (o : Option Value) (r : Path) : Option Value := o.bind fun v => valueAt v r

/-- `touched` reports the change of the value at `path` from `old` to `new`. -/
structure Exact (path : Path) (old new : Option Value) (touched : List Touched) : Prop where
  sound : ∀ t ∈ touched, ∃ r, t.path = path ++ r ∧ t.op.Holds (optAt old r) (optAt new r)
  covers : ∀ r, ¬ OptEq (optAt old r) (optAt new r) → ∃ t ∈ touched, ∃ s, t.path = path ++ s ∧ (r <+: s ∨ s <+: r)

/-- `touched` reports the change of the map at `path` from `m` to `m'`, which is one of keys in `K` only. -/
structure ExactOn (path : Path) (K : String → Prop) (m m' : Members) (touched : List Touched) : Prop where
  frame : ∀ k, ¬ K k → Assoc.get? k m' = Assoc.get? k m
  sound : ∀ t ∈ touched, ∃ k, K k ∧ ∃ r, t.path = path.join k ++ r ∧
    t.op.Holds (optAt (Assoc.get? k m) r) (optAt (Assoc.get? k m') r)
  covers : ∀ k r, ¬ OptEq (optAt (Assoc.get? k m) r) (optAt (Assoc.get? k m') r) →
    ∃ t ∈ touched, ∃ s, t.path = path.join k ++ s ∧ (r <+: s ∨ s <+: r)

variable {path : Path} {o n : Option Value} {v w : Value} {m m' m₁ m₂ om nm : Members} {k : String}
  {T T₁ T₂ : List Touched} {K K₁ K₂ : String → Prop}

@[simp] theorem optAt_none {r : Path} : optAt none r = none := rfl

@[simp] theorem optAt_some {r : Path} : optAt (some v) r = valueAt v r := rfl

@[simp] theorem optAt_nil : optAt o [] = o := by cases o <;> simp

@[simp] theorem valueAt_object_key {r : Path} : valueAt (.object m) (k :: r) = optAt (Assoc.get? k m) r := rfl

theorem Path.join_append (path : Path) (k : String) (r : Path) : path.join k ++ r = path ++ k :: r := by
  simp [Path.join]

/-! ### A value as a whole -/

theorem optEq_optAt (h : OptEq o n) (ho : ∀ v, o = some v → v.WF) (hn : ∀ v, n = some v → v.WF) (r : Path) :
    OptEq (optAt o r) (optAt n r) := by
  induction r generalizing o n with
  | nil => simpa using h
  | cons seg rest ih =>
    cases o <;> cases n <;> first | trivial | exact h.elim | skip
    next v w =>
      cases v <;> cases w <;> first | trivial | cases h | skip
      next m n =>
        have hm := ho _ rfl
        have hn := hn _ rfl
        exact ih ((object_beq_iff hm hn).mp h seg) (fun _ hv => hm.of_get? hv) (fun _ hv => hn.of_get? hv)

theorem Exact.same (h : ∀ v, o = some v → v.WF) : Exact path o o [] where
  sound := by simp
  covers r hr := absurd (optEq_optAt (OptEq.refl h) h h r) hr

theorem Exact.set (h : ¬ OptEq o (some v)) : Exact path o (some v) [⟨path, .set⟩] where
  sound := by simpa [Op.Holds] using h
  covers r _ := ⟨_, List.mem_singleton_self _, [], by simp⟩

theorem Exact.delete : Exact path (some v) none [⟨path, .delete⟩] where
  sound := by simp [Op.Holds]
  covers r _ := ⟨_, List.mem_singleton_self _, [], by simp⟩

theorem Exact.nil_iff (h : Exact path o n T) (ho : ∀ v, o = some v → v.WF) (hn : ∀ v, n = some v → v.WF) :
    T = [] ↔ OptEq o n := by
  refine ⟨fun hT => ?_, fun heq => List.eq_nil_iff_forall_not_mem.mpr fun t ht => ?_⟩
  · by_contra hne
    obtain ⟨t, ht, -⟩ := h.covers [] (by simpa using hne)
    simp [hT] at ht
  · obtain ⟨r, -, hop⟩ := h.sound t ht
    have hr := optEq_optAt heq ho hn r
    cases hc : t.op with
    | set =>
      obtain ⟨v, hv, hne⟩ := hc ▸ hop
      exact hne (hv ▸ hr)
    | delete =>
      obtain ⟨hsome, hnone⟩ := hc ▸ hop
      rw [hr.isSome_eq, hnone] at hsome
      cases hsome

/-! ### The keys of a map -/

theorem ExactOn.refl (hm : (Value.object m).WF) : ExactOn path K m m [] where
  frame _ _ := rfl
  sound := by simp
  covers k r h := absurd (optEq_optAt (OptEq.refl fun _ => hm.of_get?) (fun _ => hm.of_get?) (fun _ => hm.of_get?) r) h

theorem ExactOn.mono (h : ExactOn path K₁ m m' T) (hK : ∀ k, K₁ k → K₂ k) : ExactOn path K₂ m m' T where
  frame k hk := h.frame k fun h₁ => hk (hK k h₁)
  sound t ht := by
    obtain ⟨k, hk, r, hr⟩ := h.sound t ht
    exact ⟨k, hK k hk, r, hr⟩
  covers := h.covers

theorem ExactOn.of_key (hm : (Value.object m).WF) (h : Exact (path.join k) (Assoc.get? k m) (Assoc.get? k m') T)
    (hframe : ∀ j, j ≠ k → Assoc.get? j m' = Assoc.get? j m) : ExactOn path (· = k) m m' T where
  frame := hframe
  sound t ht := ⟨k, rfl, h.sound t ht⟩
  covers j r hne := by
    by_cases hj : j = k
    · subst hj
      exact h.covers r hne
    · rw [hframe j hj] at hne
      exact absurd (optEq_optAt (OptEq.refl fun _ => hm.of_get?) (fun _ => hm.of_get?) (fun _ => hm.of_get?) r) hne

theorem ExactOn.trans (h₁ : ExactOn path K₁ m m₁ T₁) (h₂ : ExactOn path K₂ m₁ m₂ T₂)
    (hdisj : ∀ k, K₁ k → ¬ K₂ k) : ExactOn path (fun k => K₁ k ∨ K₂ k) m m₂ (T₁ ++ T₂) where
  frame k hk := by
    rw [not_or] at hk
    rw [h₂.frame k hk.2, h₁.frame k hk.1]
  sound t ht := by
    rcases List.mem_append.mp ht with ht | ht
    · obtain ⟨k, hk, r, hr⟩ := h₁.sound t ht
      rw [← h₂.frame k (hdisj k hk)] at hr
      exact ⟨k, Or.inl hk, r, hr⟩
    · obtain ⟨k, hk, r, hr⟩ := h₂.sound t ht
      rw [h₁.frame k fun h => hdisj k h hk] at hr
      exact ⟨k, Or.inr hk, r, hr⟩
  covers k r hne := by
    by_cases hk : K₁ k
    · rw [h₂.frame k (hdisj k hk)] at hne
      obtain ⟨t, ht, hs⟩ := h₁.covers k r hne
      exact ⟨t, List.mem_append_left _ ht, hs⟩
    · rw [← h₁.frame k hk] at hne
      obtain ⟨t, ht, hs⟩ := h₂.covers k r hne
      exact ⟨t, List.mem_append_right _ ht, hs⟩

/-- A report that is exact under the keys is exact about any value that reads as the map does below
    its own place, once it says anything at all. -/
theorem ExactOn.exact_of_ne_nil (h : ExactOn path K m m' T) (hT : T ≠ [])
    (ho : ∀ k r, optAt o (k :: r) = optAt (Assoc.get? k m) r)
    (hn : ∀ k r, optAt n (k :: r) = optAt (Assoc.get? k m') r) : Exact path o n T where
  sound t ht := by
    obtain ⟨k, -, r, hr, hop⟩ := h.sound t ht
    exact ⟨k :: r, by rw [hr, Path.join_append], by rwa [ho, hn]⟩
  covers r hne := by
    cases r with
    | nil =>
      obtain ⟨t, ht⟩ := List.exists_mem_of_ne_nil T hT
      obtain ⟨k, -, r, hr, -⟩ := h.sound t ht
      exact ⟨t, ht, k :: r, by rw [hr, Path.join_append], Or.inl List.nil_prefix⟩
    | cons k r =>
      rw [ho, hn] at hne
      obtain ⟨t, ht, s, hs, hc⟩ := h.covers k r hne
      exact ⟨t, ht, k :: s, by rw [hs, Path.join_append], by simpa [List.cons_prefix_cons] using hc⟩

theorem ExactOn.exact (h : ExactOn path K m m' T) (hm : (Value.object m).WF) (hm' : (Value.object m').WF) :
    Exact path (some (.object m)) (some (.object m')) T := by
  by_cases hT : T = []
  · subst hT
    have heq : OptEq (some (.object m)) (some (.object m')) := by
      refine optEq_some.mpr ((object_beq_iff hm hm').mpr fun k => ?_)
      by_contra hne
      obtain ⟨t, ht, -⟩ := h.covers k [] (by simpa using hne)
      cases ht
    refine ⟨by simp, fun r hne => absurd (optEq_optAt heq ?_ ?_ r) hne⟩ <;> rintro _ ⟨⟩ <;> assumption
  · exact h.exact_of_ne_nil hT (fun _ _ => rfl) (fun _ _ => rfl)

/-! ### A map deep in a document -/

theorem valueAt_below {d : Value} {q r : Path} (h : mapAt d q = some m) :
    valueAt d (q ++ k :: r) = optAt (Assoc.get? k m) r := by
  rw [valueAt_eq Path.root, descendFrom_below h, ← valueAt_eq, valueAt_object_key]

/-- Equal maps are interchangeable in a document that holds one of them. -/
theorem beq_putAt {d : Value} {q : Path} (hd : d.WF) (hm' : (Value.object m').WF)
    (hq : valueAt d q = some (.object m)) (heq : (Value.object m == Value.object m') = true) :
    (d == putAt m' d q) = true := by
  induction q generalizing d with
  | nil =>
    rw [valueAt_nil] at hq
    cases hq
    exact heq
  | cons seg rest ih =>
    cases d <;> try cases hq
    next M =>
      rw [valueAt_object_key] at hq
      cases hv : Assoc.get? seg M with
      | none => simp [hv] at hq
      | some v =>
        rw [hv] at hq
        have hwf : (Value.object (Assoc.insert seg (putAt m' v rest) M)).WF :=
          hd.insert (putAt_wf (hd.of_get? hv) hm')
        rw [putAt_object_cons, hv, Option.getD_some, object_beq_iff hd hwf]
        intro j
        by_cases hj : j = seg
        · rw [hj, hv, Assoc.get?_insert_self]
          exact ih (hd.of_get? hv) hq
        · rw [Assoc.get?_insert_ne hj]
          exact OptEq.refl fun _ => hd.of_get?

/-- The report of a change of the map at `q` is the report of the change of the document, if it says
    something or the documents are equal. -/
theorem ExactOn.lift {d : Value} {q : Path} (h : ExactOn q K m m' T) (hd : d.WF) (hm' : (Value.object m').WF)
    (hq : mapAt d q = some m) (hT : T = [] → (d == putAt m' d q) = true) :
    Exact Path.root (some d) (some (putAt m' d q)) T := by
  have hd' : (putAt m' d q).WF := putAt_wf hd hm'
  refine ⟨fun t ht => ?_, fun r hne => ?_⟩
  · obtain ⟨k, -, r, hr, hop⟩ := h.sound t ht
    refine ⟨t.path, rfl, ?_⟩
    rw [hr, Path.join_append, optAt_some, optAt_some, valueAt_below hq, valueAt_below (mapAt_putAt hq)]
    exact hop
  · have hT' : T ≠ [] := fun hnil => hne <|
      optEq_optAt (optEq_some.mpr (hT hnil)) (by rintro _ ⟨⟩; exact hd) (by rintro _ ⟨⟩; exact hd') r
    by_cases hr : r <+: q
    · obtain ⟨t, ht⟩ := List.exists_mem_of_ne_nil T hT'
      obtain ⟨k, -, s, hs, -⟩ := h.sound t ht
      refine ⟨t, ht, t.path, rfl, Or.inl ?_⟩
      rw [hs, Path.join_append]
      exact hr.trans (List.prefix_append _ _)
    by_cases hqr : q <+: r
    · obtain ⟨s, rfl⟩ := hqr
      cases s with
      | nil => exact absurd (by simp) hr
      | cons k s =>
        rw [optAt_some, optAt_some, valueAt_below hq, valueAt_below (mapAt_putAt hq)] at hne
        obtain ⟨t, ht, s', hs', hc⟩ := h.covers k s hne
        refine ⟨t, ht, t.path, rfl, ?_⟩
        rw [hs', Path.join_append, List.prefix_append_right_inj, List.prefix_append_right_inj, List.cons_prefix_cons,
          List.cons_prefix_cons]
        simpa using hc
    · have : valueAt (putAt m' d q) r = valueAt d r := by
        rw [valueAt_eq Path.root, valueAt_eq Path.root, descendFrom_putAt_of_not_prefix hq hqr hr]
      rw [optAt_some, optAt_some, this] at hne
      exact absurd (OptEq.refl fun _ => valueAt_wf hd) hne

end PveMeta
