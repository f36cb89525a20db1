import PveMeta.Theorems.Sharp

/-! # A merge reports what a diff would

A report that is exact and sharp can still go below a place where one side has no map. One that does not, and names
each place once, is told by the two values alone: its entries are the places where they first differ. A merge patch
and a diff both report so; the induction over the patch carries that entries for different keys are at different
places, and that below a key the maps on both sides are those of the key. -/

namespace PveMeta
open View Patch Value

/-- Above `r` there are maps on both sides. -/
def MapsAbove (o n : Option Value) (r : Path) : Prop := ∀ q, q <+: r → q ≠ r → IsMap (optAt o q) ∧ IsMap (optAt n q)

/-- The entries of a report about the value at `path` are at places of their own, below maps. -/
structure Spine (path : Path) (o n : Option Value) (T : List Touched) : Prop where
  nodup : (T.map Touched.path).Nodup
  maps : ∀ t ∈ T, ∃ r, t.path = path ++ r ∧ MapsAbove o n r

/-- The entries of a report about keys of the map at `path`, in `K`, are at places of their own, below maps. -/
structure SpineOn (path : Path) (K : String → Prop) (m m' : Members) (T : List Touched) : Prop where
  nodup : (T.map Touched.path).Nodup
  maps : ∀ t ∈ T, ∃ k, K k ∧ ∃ r, t.path = path.join k ++ r ∧ MapsAbove (Assoc.get? k m) (Assoc.get? k m') r

variable {path : Path} {o n : Option Value} {v w old new : Value} {m m' m₁ m₂ whole om nm : Members} {k : String}
  {T T₁ T₂ : List Touched} {K K₁ K₂ : String → Prop} {t : Touched}

/-! ### Entries and keys -/

theorem MapsAbove.here : MapsAbove o n [] := fun _ hq hne => absurd (List.prefix_nil.mp hq) hne

theorem MapsAbove.below {r : Path} (h : MapsAbove (Assoc.get? k m) (Assoc.get? k m') r) :
    MapsAbove (some (.object m)) (some (.object m')) (k :: r) := by
  intro q hq hne
  cases q with
  | nil => exact ⟨⟨m, optAt_nil⟩, m', optAt_nil⟩
  | cons j q =>
    obtain ⟨rfl, hrest⟩ := List.cons_prefix_cons.mp hq
    exact h q hrest fun heq => hne (by rw [heq])

theorem Spine.nil : Spine path o n [] := ⟨List.nodup_nil, fun _ h => nomatch h⟩

theorem Spine.single (op : Op) : Spine path o n [⟨path, op⟩] where
  nodup := List.nodup_singleton _
  maps t ht := ⟨[], by rw [List.mem_singleton.mp ht, List.append_nil], MapsAbove.here⟩

theorem Spine.leaf : Spine path o n (if v == w then [] else [⟨path, .set⟩]) := by
  split
  · exact Spine.nil
  · exact Spine.single .set

theorem SpineOn.nil : SpineOn path K m m' [] := ⟨List.nodup_nil, fun _ h => nomatch h⟩

theorem SpineOn.of_key (h : Spine (path.join k) (Assoc.get? k m) (Assoc.get? k m') T) : SpineOn path (· = k) m m' T :=
  ⟨h.nodup, fun t ht => ⟨k, rfl, h.maps t ht⟩⟩

theorem SpineOn.mono (h : SpineOn path K₁ m m' T) (hK : ∀ k, K₁ k → K₂ k) : SpineOn path K₂ m m' T where
  nodup := h.nodup
  maps t ht := by
    obtain ⟨k, hk, hr⟩ := h.maps t ht
    exact ⟨k, hK k hk, hr⟩

theorem SpineOn.spine (h : SpineOn path K m m' T) : Spine path (some (.object m)) (some (.object m')) T where
  nodup := h.nodup
  maps t ht := by
    obtain ⟨k, -, r, hr, hmaps⟩ := h.maps t ht
    exact ⟨k :: r, by rw [hr, Path.join_append], hmaps.below⟩

theorem Path.join_append_inj {j k : String} {r s : Path} (h : path.join j ++ r = path.join k ++ s) : j = k := by
  rw [Path.join_append, Path.join_append, List.append_cancel_left_eq] at h
  exact (List.cons.inj h).1

/-- Entries of two changes that are of different keys are at different places. -/
theorem SpineOn.trans (h₁ : SpineOn path K₁ m m₁ T₁) (h₂ : SpineOn path K₂ m₁ m₂ T₂)
    (hf₁ : ∀ k, ¬ K₁ k → Assoc.get? k m₁ = Assoc.get? k m) (hf₂ : ∀ k, ¬ K₂ k → Assoc.get? k m₂ = Assoc.get? k m₁)
    (hdisj : ∀ k, K₁ k → ¬ K₂ k) : SpineOn path (fun k => K₁ k ∨ K₂ k) m m₂ (T₁ ++ T₂) where
  nodup := by
    rw [List.map_append, List.nodup_append]
    refine ⟨h₁.nodup, h₂.nodup, fun p hp q hq heq => ?_⟩
    obtain ⟨t, ht, rfl⟩ := List.mem_map.mp hp
    obtain ⟨u, hu, rfl⟩ := List.mem_map.mp hq
    obtain ⟨j, hj, r, hr, -⟩ := h₁.maps t ht
    obtain ⟨k, hk, s, hs, -⟩ := h₂.maps u hu
    rw [hr, hs] at heq
    exact hdisj j hj (Path.join_append_inj heq ▸ hk)
  maps t ht := by
    rcases List.mem_append.mp ht with ht | ht
    · obtain ⟨k, hk, r, hr⟩ := h₁.maps t ht
      rw [← hf₂ k (hdisj k hk)] at hr
      exact ⟨k, Or.inl hk, r, hr⟩
    · obtain ⟨k, hk, r, hr⟩ := h₂.maps t ht
      rw [hf₁ k fun h => hdisj k h hk] at hr
      exact ⟨k, Or.inr hk, r, hr⟩

/-! ### Diffs -/

theorem nodup_joins {ks : List String} (h : ks.Nodup) : (ks.map path.join).Nodup :=
  h.map fun j k hjk => Path.join_append_inj (r := []) (s := []) (by rw [hjk])

/-- The keys of a diff of maps: `hkey` is the induction hypothesis, for the keys of the new map. -/
theorem diffAt_object_spineOn (ho : (Value.object om).WF) (hn : (Value.object nm).WF)
    (hkey : ∀ e ∈ nm, Spine (path.join e.1) (Assoc.get? e.1 om) (some e.2) (diffKey path om e.1 e.2)) :
    SpineOn path (fun _ => True) om nm (diffAt path (.object om) (.object nm)) where
  nodup := by
    rw [diffAt, diffMembers_eq, List.map_append, List.nodup_append, List.map_map, List.map_flatMap, List.nodup_flatMap]
    refine ⟨⟨fun e he => (hkey e he).nodup, ?_⟩, nodup_joins (ho.keys.filter _), ?_⟩
    · have hkeys : nm.Pairwise fun d e => d.1 ≠ e.1 := List.pairwise_map.mp hn.keys
      refine hkeys.imp_of_mem fun {d e} hd he hne p hp hq => ?_
      obtain ⟨t, ht, rfl⟩ := List.mem_map.mp hp
      obtain ⟨u, hu, heq⟩ := List.mem_map.mp hq
      obtain ⟨r, hr, -⟩ := (hkey d hd).maps t ht
      obtain ⟨s, hs, -⟩ := (hkey e he).maps u hu
      rw [hr, hs] at heq
      exact hne (Path.join_append_inj heq).symm
    · intro p hp q hq heq
      obtain ⟨e, he, hp⟩ := List.mem_flatMap.mp hp
      obtain ⟨t, ht, rfl⟩ := List.mem_map.mp hp
      obtain ⟨k, hk, rfl⟩ := List.mem_map.mp hq
      obtain ⟨r, hr, -⟩ := (hkey e he).maps t ht
      have hjoin : path.join e.1 ++ r = path.join k ++ [] := by rw [← hr, heq, List.append_nil]; rfl
      have hnone := (List.mem_filter.mp hk).2
      rw [← Path.join_append_inj hjoin, Assoc.get?_of_mem hn.keys he] at hnone
      cases hnone
  maps t ht := by
    rw [diffAt, diffMembers_eq] at ht
    rcases List.mem_append.mp ht with ht | ht
    · obtain ⟨e, he, ht⟩ := List.mem_flatMap.mp ht
      obtain ⟨r, hr, hmaps⟩ := (hkey e he).maps t ht
      exact ⟨e.1, trivial, r, hr, by rwa [Assoc.get?_of_mem hn.keys he]⟩
    · obtain ⟨k, -, rfl⟩ := List.mem_map.mp ht
      exact ⟨k, trivial, [], by rw [List.append_nil], MapsAbove.here⟩

/-- A diff names each place once, and goes below a place only where both sides have a map. -/
theorem diffAt_spine (ho : old.WF) (hn : new.WF) : Spine path (some old) (some new) (diffAt path old new) := by
  induction new using Value.ind generalizing path old with
  | object nm ih =>
    cases old
    case object om =>
      refine (diffAt_object_spineOn ho hn fun e he => ?_).spine
      unfold diffKey
      cases hk : Assoc.get? e.1 om with
      | none => exact Spine.single .set
      | some ov =>
        dsimp only
        split
        · exact ih e he (ho.of_get? hk) (hn.members e he)
        · exact Spine.leaf
    all_goals
      rw [diffAt_leaf (by simp [isObject])]
      exact Spine.leaf
  | _ =>
    rw [diffAt_leaf (by simp [isObject])]
    exact Spine.leaf

/-! ### Merge patches -/

theorem keyWise_spineOn : KeyWise SpineOn where
  nil _ := .nil
  mono h hK := h.mono hK
  trans h₁ h₂ hf₁ hf₂ hdisj := h₁.trans h₂ hf₁ hf₂ hdisj
  delete _ _ := .of_key (.single .delete)
  set _ _ _ := .of_key (.single .set)
  child {path K k m child child' T} _ hk _ h := by
    refine SpineOn.of_key ?_
    rw [hk, Assoc.get?_insert_self]
    exact h.spine

theorem applyEntries_spineOn {q : Members} (hq : (Value.object q).WF) (hm : (Value.object m).WF) :
    SpineOn path (fun j => ∃ k ∈ Assoc.keys q, Changes q k j) m (applyEntries q path m q).2
      (applyEntries q path m q).1 :=
  keyWise_spineOn.applyEntries hq hm

theorem applyPatch_spine {doc patch : Value} (hd : doc.WF) (hp : patch.WF) :
    Spine Path.root (some doc) (some (applyPatch doc patch).2) (applyPatch doc patch).1 := by
  unfold applyPatch
  split
  · next h =>
    rw [Bool.and_eq_true, isObject_iff, isObject_iff] at h
    obtain ⟨⟨m, rfl⟩, p, rfl⟩ := h
    exact (applyEntries_spineOn hp hd).spine
  · exact Spine.nil

/-! ### What such a report consists of -/

/-- `t` says what happened at a place where the values first differ: maps on both sides above it, not on both sides
    at it. -/
structure FirstDiffers (o n : Option Value) (r : Path) (op : Op) : Prop where
  holds : op.Holds (optAt o r) (optAt n r)
  ends : ¬ (IsMap (optAt o r) ∧ IsMap (optAt n r))
  above : MapsAbove o n r

theorem Op.Holds.ne {op : Op} (h : op.Holds o n) : ¬ OptEq o n := by
  intro heq
  cases op with
  | set =>
    obtain ⟨v, rfl, hne⟩ := h
    exact hne heq
  | delete =>
    obtain ⟨hsome, rfl⟩ := h
    rw [heq.isSome_eq] at hsome
    cases hsome

theorem Op.Holds.unique {a b : Op} (ha : a.Holds o n) (hb : b.Holds o n) : a = b := by
  cases a <;> cases b <;> try rfl
  · obtain ⟨v, hv, -⟩ := ha
    rw [hb.2] at hv
    cases hv
  · obtain ⟨v, hv, -⟩ := hb
    rw [ha.2] at hv
    cases hv

theorem Spine.firstDiffers (hs : Spine path o n T) (hex : Exact path o n T) (hsharp : Sharp path o n T) (ht : t ∈ T) :
    ∃ r, t.path = path ++ r ∧ FirstDiffers o n r t.op := by
  obtain ⟨r, hr, habove⟩ := hs.maps t ht
  obtain ⟨r₁, hr₁, hholds⟩ := hex.sound t ht
  obtain ⟨r₂, hr₂, hop⟩ := hsharp t ht
  obtain rfl : r = r₁ := List.append_cancel_left (hr.symm.trans hr₁)
  obtain rfl : r = r₂ := List.append_cancel_left (hr.symm.trans hr₂)
  refine ⟨r, hr, hholds, ?_, habove⟩
  cases hc : t.op with
  | set =>
    rw [hc] at hop
    exact hop
  | delete =>
    rw [hc] at hholds
    intro hmaps
    rw [hholds.2] at hmaps
    obtain ⟨_, hm⟩ := hmaps.2
    cases hm

/-- An exact and sharp report that stays on maps is of the places where the values first differ, and of all of them:
    an entry that covers such a place can be neither above it nor below. -/
theorem Spine.mem_iff (hs : Spine path o n T) (hex : Exact path o n T) (hsharp : Sharp path o n T) :
    t ∈ T ↔ ∃ r, t.path = path ++ r ∧ FirstDiffers o n r t.op := by
  refine ⟨hs.firstDiffers hex hsharp, fun ⟨r, hr, h⟩ => ?_⟩
  obtain ⟨u, hu, s, hus, hc⟩ := hex.covers r h.holds.ne
  obtain ⟨s', hs', hdiff⟩ := hs.firstDiffers hex hsharp hu
  obtain rfl : s = s' := List.append_cancel_left (hus.symm.trans hs')
  have heq : r = s := by
    by_contra hne
    rcases hc with hc | hc
    · exact h.ends (hdiff.above r hc hne)
    · exact hdiff.ends (h.above s hc (Ne.symm hne))
  subst heq
  have hpath : t.path = u.path := hr.trans hus.symm
  have hop : t.op = u.op := h.holds.unique hdiff.holds
  cases t
  cases u
  cases hpath
  cases hop
  exact hu

/-- A merge patch reports what the diff between the document before it and the document after it does, each place
    once. -/
theorem applyPatch_reports_diff (old patch : Tree) :
    let touched := (applyPatch old.val patch.val).1
    let new := (applyPatch old.val patch.val).2
    touched.Nodup ∧ (diff old.val new).Nodup ∧ ∀ t, t ∈ touched ↔ t ∈ diff old.val new := by
  intro touched new
  have hnew : new.WF := applyPatch_wf old.2 patch.2
  have hmerge : Spine Path.root (some old.val) (some new) touched := applyPatch_spine old.2 patch.2
  have hdiff : Spine Path.root (some old.val) (some new) (diff old.val new) := diffAt_spine old.2 hnew
  refine ⟨hmerge.nodup.of_map _, hdiff.nodup.of_map _, fun t => ?_⟩
  rw [hmerge.mem_iff (applyPatch_exact old.2 patch.2) (applyPatch_sharp old.2 patch.2),
    hdiff.mem_iff (diffAt_exact old.2 hnew) (diffAt_sharp hnew)]

end PveMeta
