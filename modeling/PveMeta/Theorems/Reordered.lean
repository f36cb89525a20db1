import PveMeta.Theorems.Merges

/-! # A merge twice, and in another order

What a merge makes of a key depends on what the patch says of it and of its subject, not on where the patch says so.
Patches that differ in the order of keys make of one document two that differ in that; the places that are touched
are told by the values alone, so they are the same. -/

namespace PveMeta
open View Patch Value

/-- The two values differ in the order of keys only, at any depth. -/
inductive Reordered : Value → Value → Prop where
  | null : Reordered .null .null
  | bool (b : Bool) : Reordered (.bool b) (.bool b)
  | number (n : Number) : Reordered (.number n) (.number n)
  | string (s : String) : Reordered (.string s) (.string s)
  | array {xs ys : List Value} (length : xs.length = ys.length)
      (items : ∀ (i : Nat) (x y : Value), xs[i]? = some x → ys[i]? = some y → Reordered x y) :
      Reordered (.array xs) (.array ys)
  | object {m n : Members} (keys : (Assoc.keys m).Perm (Assoc.keys n))
      (members : ∀ (k : String) (v w : Value), Assoc.get? k m = some v → Assoc.get? k n = some w → Reordered v w) :
      Reordered (.object m) (.object n)

variable {v w x d patch patch' : Value} {m n n' q q' : Members} {o : Option Value} {path pre r : Path} {k j : String}
  {T : List Touched} {new : Value} {op : Op}

namespace Reordered

theorem refl (v : Value) : Reordered v v := by
  induction v using Value.ind with
  | null => exact .null
  | bool b => exact .bool b
  | number n => exact .number n
  | string s => exact .string s
  | array items ih =>
    refine .array rfl fun i x y hx hy => ?_
    obtain rfl : x = y := Option.some.inj (hx.symm.trans hy)
    exact ih x (List.mem_of_getElem? hx)
  | object m ih =>
    refine .object (List.Perm.refl _) fun k v w hv hw => ?_
    obtain rfl : v = w := Option.some.inj (hv.symm.trans hw)
    exact ih _ (Assoc.mem_of_get? hv)

theorem rel_refl (o : Option Value) : Option.Rel Reordered o o := by
  cases o with
  | none => exact .none
  | some v => exact .some (refl v)

theorem rel_isSome {o n : Option Value} (h : Option.Rel Reordered o n) : o.isSome = n.isSome := by cases h <;> rfl

theorem get? (h : Reordered (.object m) (.object n)) (k : String) :
    Option.Rel Reordered (Assoc.get? k m) (Assoc.get? k n) := by
  obtain ⟨hkeys, hmembers⟩ : (Assoc.keys m).Perm (Assoc.keys n) ∧
      ∀ k v w, Assoc.get? k m = some v → Assoc.get? k n = some w → Reordered v w := by
    cases h with
    | object hkeys hmembers => exact ⟨hkeys, hmembers⟩
  have hiff : (Assoc.get? k m).isSome ↔ (Assoc.get? k n).isSome := by
    rw [Assoc.get?_isSome_iff, Assoc.get?_isSome_iff, hkeys.mem_iff]
  cases hm : Assoc.get? k m <;> cases hn : Assoc.get? k n <;> rw [hm, hn] at hiff
  · exact .none
  · exact absurd (hiff.mpr rfl) (by simp)
  · exact absurd (hiff.mp rfl) (by simp)
  · exact .some (hmembers k _ _ hm hn)

theorem of_key (h : Reordered (.object m) (.object n)) (hv : Assoc.get? k m = some v) (hw : Assoc.get? k n = some w) :
    Reordered v w := by
  have hk := h.get? k
  rw [hv, hw] at hk
  cases hk
  assumption

theorem of_get? (hm : (Value.object m).WF) (hn : (Value.object n).WF)
    (h : ∀ k, Option.Rel Reordered (Assoc.get? k m) (Assoc.get? k n)) : Reordered (.object m) (.object n) := by
  refine .object ((List.perm_ext_iff_of_nodup hm.keys hn.keys).mpr fun k => ?_) fun k v w hv hw => ?_
  · rw [← Assoc.get?_isSome_iff, ← Assoc.get?_isSome_iff, rel_isSome (h k)]
  · have hk := h k
    rw [hv, hw] at hk
    cases hk
    assumption

theorem isObject (h : Reordered v w) : v.isObject = w.isObject := by cases h <;> rfl

theorem insert (h : Reordered v w) : Reordered (.object (Assoc.insert k v m)) (.object (Assoc.insert k w m)) := by
  refine .object (by rw [Assoc.keys_insert, Assoc.keys_insert]) fun j a b ha hb => ?_
  rw [Assoc.get?_insert] at ha hb
  split at ha
  · next hj =>
    rw [if_pos hj] at hb
    cases ha
    cases hb
    exact h
  · next hj =>
    rw [if_neg hj, ha] at hb
    cases hb
    exact refl a

theorem putAt (h : Reordered (.object n) (.object n')) : Reordered (putAt n d path) (putAt n' d path) := by
  induction path generalizing d with
  | nil => cases d <;> first | exact h | exact refl _
  | cons seg rest ih => cases d <;> first | exact ih.insert | exact refl _

/-! ### Equality and lookups -/

/-- What equals one value equals the other. -/
theorem beq_eq (h : Reordered v w) (hv : v.WF) (hw : w.WF) (hx : x.WF) : (x == v) = (x == w) := by
  induction h generalizing x with
  | null => rfl
  | bool b => rfl
  | number n => rfl
  | string s => rfl
  | @array xs ys hlen _ ih =>
    cases x <;> try rfl
    next zs =>
      rw [Bool.eq_iff_iff, array_beq_array, array_beq_array, beqItems_iff, beqItems_iff, List.forall₂_iff_get,
        List.forall₂_iff_get]
      refine and_congr (by rw [hlen]) (forall_congr' fun i => ?_)
      have hitem : ∀ (hz : i < zs.length) (hi : i < xs.length) (hj : i < ys.length),
          (zs.get ⟨i, hz⟩ == xs.get ⟨i, hi⟩) = (zs.get ⟨i, hz⟩ == ys.get ⟨i, hj⟩) := fun hz hi hj =>
        ih i _ _ (List.getElem?_eq_getElem hi) (List.getElem?_eq_getElem hj) (hv.items _ (List.get_mem _ _))
          (hw.items _ (List.get_mem _ _)) (hx.items _ (List.get_mem _ _))
      constructor
      · intro h hz hj
        rw [← hitem hz (hlen ▸ hj) hj]
        exact h hz (hlen ▸ hj)
      · intro h hz hi
        rw [hitem hz hi (hlen ▸ hi)]
        exact h hz (hlen ▸ hi)
  | @object m n hkeys hmembers ih =>
    cases x <;> try rfl
    next l =>
      rw [Bool.eq_iff_iff, object_beq_iff hx hv, object_beq_iff hx hw]
      refine forall_congr' fun k => ?_
      have hk := (Reordered.object hkeys hmembers).get? k
      cases hl : Assoc.get? k l <;> cases hm : Assoc.get? k m <;> cases hn : Assoc.get? k n <;> rw [hm, hn] at hk <;>
        try first | exact Iff.rfl | cases hk
      rw [optEq_some, optEq_some, ih k _ _ hm hn (hv.of_get? hm) (hw.of_get? hn) (hx.of_get? hl)]

theorem optEq {o n n' : Option Value} (h : Option.Rel Reordered n n') (ho : ∀ v, o = some v → v.WF)
    (hn : ∀ v, n = some v → v.WF) (hn' : ∀ v, n' = some v → v.WF) : OptEq o n ↔ OptEq o n' := by
  cases h with
  | none => rfl
  | @some v w h =>
    cases o with
    | none => rfl
    | some x => rw [optEq_some, optEq_some, h.beq_eq (hn _ rfl) (hn' _ rfl) (ho _ rfl)]

theorem optAt {o n : Option Value} (h : Option.Rel Reordered o n) (r : Path) :
    Option.Rel Reordered (optAt o r) (optAt n r) := by
  induction r generalizing o n with
  | nil =>
    rw [optAt_nil, optAt_nil]
    exact h
  | cons k r ih =>
    cases h with
    | none => exact .none
    | @some v w h =>
      cases h with
      | object hkeys hmembers => exact ih ((object hkeys hmembers).get? k)
      | _ => exact .none

theorem rel_null {o n : Option Value} (h : Option.Rel Reordered o n) : o = some .null ↔ n = some .null := by
  cases h with
  | none => rfl
  | some h => cases h <;> simp

theorem isMap {o n : Option Value} (h : Option.Rel Reordered o n) : IsMap o ↔ IsMap n := by
  cases h with
  | none => rfl
  | some h => rw [isMap_iff, isMap_iff, h.isObject]

end Reordered

/-! ### Where values first differ -/

theorem Op.Holds.reordered {n n' : Option Value} (h : Option.Rel Reordered n n') (ho : ∀ v, o = some v → v.WF)
    (hn : ∀ v, n = some v → v.WF) (hn' : ∀ v, n' = some v → v.WF) : op.Holds o n → op.Holds o n' := by
  intro hop
  cases op with
  | set =>
    obtain ⟨v, rfl, hne⟩ := hop
    have heq := Reordered.optEq h ho hn hn'
    cases h with
    | some h => exact ⟨_, rfl, fun h' => hne (heq.mpr h')⟩
  | delete =>
    obtain ⟨hsome, rfl⟩ := hop
    cases h
    exact ⟨hsome, rfl⟩

theorem FirstDiffers.reordered {o : Value} (h : Reordered v w) (ho : o.WF) (hv : v.WF) (hw : w.WF)
    (hd : FirstDiffers (some o) (some v) r op) : FirstDiffers (some o) (some w) r op where
  holds := by
    refine hd.holds.reordered (Reordered.optAt (.some h) r) ?_ ?_ ?_
    · exact fun _ => valueAt_wf ho
    · exact fun _ => valueAt_wf hv
    · exact fun _ => valueAt_wf hw
  ends := by
    rw [← Reordered.isMap (Reordered.optAt (.some h) r)]
    exact hd.ends
  above q hq hne := by
    rw [← Reordered.isMap (Reordered.optAt (.some h) q)]
    exact hd.above q hq hne

theorem Reordered.symm (h : Reordered v w) : Reordered w v := by
  induction h with
  | array hlen _ ih => exact .array hlen.symm fun i x y hx hy => ih i y x hy hx
  | object hkeys _ ih => exact .object hkeys.symm fun k v w hv hw => ih k w v hw hv
  | _ => exact refl _

theorem FirstDiffers.reordered_iff {o : Value} (h : Reordered v w) (ho : o.WF) (hv : v.WF) (hw : w.WF) :
    FirstDiffers (some o) (some v) r op ↔ FirstDiffers (some o) (some w) r op :=
  ⟨.reordered h ho hv hw, .reordered h.symm ho hw hv⟩

/-! ### Merging -/

theorem any_dropsNote_iff (hq : (Assoc.keys q).Nodup) :
    q.any (dropsNote j) = true ↔ ∃ k, k ++ commentSuffix = j ∧ Assoc.get? k q = some .null := by
  rw [List.any_eq_true]
  constructor
  · intro h
    obtain ⟨⟨k, v⟩, he, hdrops⟩ := h
    cases v with
    | null => exact ⟨k, beq_iff_eq.mp hdrops, Assoc.get?_of_mem hq he⟩
    | _ => cases hdrops
  · intro h
    obtain ⟨k, hk, hnull⟩ := h
    exact ⟨_, Assoc.mem_of_get? hnull, beq_iff_eq.mpr hk⟩

theorem any_dropsNote_reordered (h : Reordered (.object q) (.object q')) (hq : (Value.object q).WF)
    (hq' : (Value.object q').WF) : q.any (dropsNote j) = q'.any (dropsNote j) := by
  rw [Bool.eq_iff_iff, any_dropsNote_iff hq.keys, any_dropsNote_iff hq'.keys]
  exact exists_congr fun k => and_congr_right fun _ => Reordered.rel_null (h.get? k)

theorem setLeaf_reordered (h : Reordered v w) (hv : v.WF) (hw : w.WF) (ho : ∀ x, o = some x → x.WF) :
    Option.Rel Reordered (setLeaf o v) (setLeaf o w) := by
  have hsame : o.any (· == v) = o.any (· == w) := by
    cases o with
    | none => rfl
    | some x => exact h.beq_eq hv hw (ho _ rfl)
  unfold setLeaf
  rw [hsame]
  split
  · exact Reordered.rel_refl o
  · exact .some h

/-- The entries of two patch maps make of one map two that differ in the order of keys: `hvalue` says so of the
    entries' values. -/
theorem applyEntries_reordered_of (h : Reordered (.object q) (.object q')) (hq : (Value.object q).WF)
    (hq' : (Value.object q').WF) (hm : (Value.object m).WF)
    (hvalue : ∀ k v w, Assoc.get? k q = some v → Assoc.get? k q' = some w → ∀ path o, (∀ x, o = some x → x.WF) →
      Option.Rel Reordered (mergedValue path o v) (mergedValue path o w)) :
    Reordered (.object (applyEntries q path m q).2) (.object (applyEntries q' path m q').2) := by
  refine Reordered.of_get? (applyEntries_wf hq hm) (applyEntries_wf hq' hm) fun j => ?_
  rw [get?_applyEntries hq.keys, get?_applyEntries hq'.keys, mergedKey, mergedKey]
  have hj := h.get? j
  cases hv : Assoc.get? j q <;> cases hw : Assoc.get? j q' <;> rw [hv, hw] at hj <;> cases hj
  · dsimp only
    rw [any_dropsNote_reordered h hq hq']
    exact Reordered.rel_refl _
  · exact hvalue j _ _ hv hw _ _ fun _ => hm.of_get?

/-- What is touched is told by what becomes of the map. -/
theorem mem_applyEntries_iff (hq : (Value.object q).WF) (hm : (Value.object m).WF) {t : Touched} :
    t ∈ (applyEntries q path m q).1 ↔
      ∃ r, t.path = path ++ r ∧ FirstDiffers (some (.object m)) (some (.object (applyEntries q path m q).2)) r t.op :=
  (applyEntries_spineOn hq hm).spine.mem_iff ((applyEntries_exactOn hq hm).exact hm (applyEntries_wf hq hm))
    (applyEntries_sharpOn hq hm).sharp

theorem touched_reordered (h : Reordered (.object (applyEntries q path m q).2) (.object (applyEntries q' path m q').2))
    (hq : (Value.object q).WF) (hq' : (Value.object q').WF) (hm : (Value.object m).WF) {t : Touched} :
    t ∈ (applyEntries q path m q).1 ↔ t ∈ (applyEntries q' path m q').1 := by
  rw [mem_applyEntries_iff hq hm, mem_applyEntries_iff hq' hm]
  refine exists_congr fun r => and_congr_right fun _ => ?_
  exact FirstDiffers.reordered_iff h hm (applyEntries_wf hq hm) (applyEntries_wf hq' hm)

theorem isEmpty_eq_of_mem_iff {T T' : List Touched} (h : ∀ t, t ∈ T ↔ t ∈ T') : T.isEmpty = T'.isEmpty := by
  rw [Bool.eq_iff_iff, List.isEmpty_iff, List.isEmpty_iff, List.eq_nil_iff_forall_not_mem,
    List.eq_nil_iff_forall_not_mem]
  exact forall_congr' fun t => not_congr (h t)

theorem mergedValue_reordered (h : Reordered v w) (hv : v.WF) (hw : w.WF) (ho : ∀ x, o = some x → x.WF) :
    Option.Rel Reordered (mergedValue path o v) (mergedValue path o w) := by
  induction h generalizing path o with
  | @object q q' hkeys hmembers ih =>
    have hq := Reordered.object hkeys hmembers
    have hentries : ∀ {m}, (Value.object m).WF →
        Reordered (.object (applyEntries q path m q).2) (.object (applyEntries q' path m q').2) := fun hm =>
      applyEntries_reordered_of hq hv hw hm fun k v w hk hk' path o => ih k v w hk hk' (hv.of_get? hk) (hw.of_get? hk')
    by_cases hmap : IsMap o
    · obtain ⟨child, rfl⟩ := hmap
      rw [mergedValue_child, mergedValue_child]
      exact .some (hentries (ho _ rfl))
    · have hempty : q.isEmpty = q'.isEmpty := by
        have hlen := hkeys.length_eq
        rw [Assoc.keys, Assoc.keys, List.length_map, List.length_map] at hlen
        rw [Bool.eq_iff_iff, List.isEmpty_iff_length_eq_zero, List.isEmpty_iff_length_eq_zero, hlen]
      have htouched : (applyEntries q path [] q).1.isEmpty = (applyEntries q' path [] q').1.isEmpty :=
        isEmpty_eq_of_mem_iff fun t => touched_reordered (hentries .empty) hv hw .empty
      rw [mergedValue_scratch hmap, mergedValue_scratch hmap, hempty, htouched]
      split
      · exact Reordered.rel_refl _
      · split
        · exact .some (hentries .empty)
        · exact .none
  | array hlen hitems ih => exact setLeaf_reordered (.array hlen hitems) hv hw ho
  | _ => exact Reordered.rel_refl _

theorem applyEntries_reordered (h : Reordered (.object q) (.object q')) (hq : (Value.object q).WF)
    (hq' : (Value.object q').WF) (hm : (Value.object m).WF) :
    Reordered (.object (applyEntries q path m q).2) (.object (applyEntries q' path m q').2) :=
  applyEntries_reordered_of h hq hq' hm fun _ _ _ hk hk' _ _ =>
    mergedValue_reordered (h.of_key hk hk') (hq.of_get? hk) (hq'.of_get? hk')

/-! ### Views -/

theorem applyObj_again (path : Path) (hm : (Value.object m).WF) (hp : patch.WF) :
    applyObj (applyObj (.object m) patch path).2 patch path = ([], (applyObj (.object m) patch path).2) := by
  by_cases hobj : patch.isObject = true
  · obtain ⟨q, rfl⟩ := isObject_iff.mp hobj
    have hagain : applyEntries q path (applyEntries q path m q).2 q = ([], (applyEntries q path m q).2) :=
      applyEntries_again hp hm
    simp only [applyObj, hagain]
  · simp only [applyObj_of_not_object hobj]

theorem applyObj_reordered (path : Path) (h : Reordered patch patch') (hm : (Value.object m).WF) (hp : patch.WF)
    (hp' : patch'.WF) :
    Reordered (applyObj (.object m) patch path).2 (applyObj (.object m) patch' path).2 ∧
      ∀ t, t ∈ (applyObj (.object m) patch path).1 ↔ t ∈ (applyObj (.object m) patch' path).1 := by
  cases h with
  | object hkeys hmembers =>
    have hentries : Reordered (.object (applyEntries _ path m _).2) (.object (applyEntries _ path m _).2) :=
      applyEntries_reordered (.object hkeys hmembers) hp hp' hm
    exact ⟨hentries, fun _ => touched_reordered hentries hp hp' hm⟩
  | _ => exact ⟨Reordered.refl _, fun _ => Iff.rfl⟩

/-- A merge works on a map, the one that is there or an empty one. -/
theorem scratchOf_eq (ho : ∀ v, o = some v → v.WF) : ∃ m, scratchOf o = .object m ∧ (Value.object m).WF := by
  unfold scratchOf
  split
  · exact ⟨_, rfl, ho _ rfl⟩
  · exact ⟨[], rfl, .empty⟩

theorem mergeScratch_snd : (mergeScratch pre o patch).2 = (applyObj (scratchOf o) patch pre).2 := by
  rw [mergeScratch, apply_ite Prod.snd, ite_self]

theorem mergeScratch_again (ho : ∀ v, o = some v → v.WF) (hp : patch.WF) :
    mergeScratch pre (some (mergeScratch pre o patch).2) patch = ([], (mergeScratch pre o patch).2) := by
  obtain ⟨m, hscratch, hm⟩ := scratchOf_eq ho
  have hagain := applyObj_again pre hm hp
  obtain ⟨-, m', hsnd, -⟩ := applyObj_exactOn pre hm hp
  rw [hsnd] at hagain
  rw [mergeScratch_snd, hscratch, hsnd]
  simp [mergeScratch, scratchOf, hagain]

theorem mergeScratch_reordered (pre : Path) (h : Reordered patch patch') (ho : ∀ v, o = some v → v.WF) (hp : patch.WF)
    (hp' : patch'.WF) : Reordered (mergeScratch pre o patch).2 (mergeScratch pre o patch').2 ∧
      ∀ t, t ∈ (mergeScratch pre o patch).1 ↔ t ∈ (mergeScratch pre o patch').1 := by
  obtain ⟨m, hscratch, hm⟩ := scratchOf_eq ho
  obtain ⟨hsnd, hfst⟩ := applyObj_reordered pre h hm hp hp'
  rw [mergeScratch_snd, mergeScratch_snd, hscratch]
  refine ⟨hsnd, fun t => ?_⟩
  have hempty := isEmpty_eq_of_mem_iff hfst
  unfold mergeScratch
  rw [hscratch]
  dsimp only
  rw [hempty]
  split
  · rfl
  · exact hfst t

theorem applyPatch_again (hd : d.WF) (hp : patch.WF) :
    applyPatch (applyPatch d patch).2 patch = ([], (applyPatch d patch).2) := by
  by_cases hobj : d.isObject = true
  · obtain ⟨m, rfl⟩ := isObject_iff.mp hobj
    have hagain := applyObj_again Path.root hd hp
    obtain ⟨-, m', hsnd, -⟩ := applyObj_exactOn Path.root hd hp
    rw [hsnd] at hagain
    unfold applyPatch
    by_cases hmap : patch.isObject = true
    · simp [hmap, hsnd, hagain]
    · simp [hmap]
  · simp [applyPatch, hobj]

theorem applyPatch_reordered (h : Reordered patch patch') (hd : d.WF) (hp : patch.WF) (hp' : patch'.WF) :
    Reordered (applyPatch d patch).2 (applyPatch d patch').2 ∧
      ∀ t, t ∈ (applyPatch d patch).1 ↔ t ∈ (applyPatch d patch').1 := by
  unfold applyPatch
  rw [← h.isObject]
  split
  · next hobj =>
    rw [Bool.and_eq_true] at hobj
    obtain ⟨m, rfl⟩ := isObject_iff.mp hobj.1
    exact applyObj_reordered Path.root h hd hp hp'
  · exact ⟨Reordered.refl _, fun _ => Iff.rfl⟩

/-- A view reads back what was written under its key. -/
theorem descend_putAt_insert (h : mapAt d path = some m) :
    descend (putAt (Assoc.insert k v m) d path) (path.join k) = .ok (some v) := by
  rw [descend, Path.join, descendFrom_below (mapAt_putAt h), descendFrom_object_cons, Assoc.get?_insert_self]
  rfl

/-- A merge that succeeds, done once more, touches nothing and leaves the document as it is, its order included. The
    same merge with the keys of the patch in another order, at any depth, succeeds too, makes the same document up to
    the order of keys and touches the same places. -/
theorem merge_again_and_reordered {doc patch : Tree} (h : merge doc.val pre patch.val = (.ok T, new)) :
    merge new pre patch.val = (.ok [], new) ∧
      ∀ patch' : Tree, Reordered patch.val patch'.val →
        ∃ T' new', merge doc.val pre patch'.val = (.ok T', new') ∧ Reordered new new' ∧ ∀ t, t ∈ T ↔ t ∈ T' := by
  rcases pre.eq_root_or_join with rfl | ⟨q, k, rfl⟩
  · rw [merge_root, Prod.mk.injEq, Except.ok.injEq] at h
    obtain ⟨rfl, rfl⟩ := h
    refine ⟨by rw [merge_root, applyPatch_again doc.2 patch.2], fun patch' hreordered => ?_⟩
    obtain ⟨hnew, htouched⟩ := applyPatch_reordered hreordered doc.2 patch.2 patch'.2
    exact ⟨_, _, rfl, hnew, htouched⟩
  · have hrun := h
    rw [merge_join] at h
    split at h
    · cases h
    · next o ho =>
      obtain ⟨m, hq, rfl⟩ := descend_join_ok ho
      have hwf : ∀ v, Assoc.get? k m = some v → v.WF := fun _ => (mapAt_wf doc.2 hq).of_get?
      have hother : ∀ patch' : Tree, Reordered patch.val patch'.val →
          (mergeScratch (q.join k) (Assoc.get? k m) patch.val).1.isEmpty =
            (mergeScratch (q.join k) (Assoc.get? k m) patch'.val).1.isEmpty := fun patch' hreordered =>
        isEmpty_eq_of_mem_iff (mergeScratch_reordered (q.join k) hreordered hwf patch.2 patch'.2).2
      split at h
      · next hempty =>
        cases h
        refine ⟨hrun, fun patch' hreordered => ⟨[], doc.val, ?_, Reordered.refl _, fun _ => Iff.rfl⟩⟩
        rw [merge_join, ho]
        dsimp only
        rw [← hother patch' hreordered, if_pos hempty]
      · next hempty =>
        cases h
        rw [hq]
        refine ⟨?_, fun patch' hreordered => ?_⟩
        · rw [merge_join, Option.getD_some, descend_putAt_insert hq]
          dsimp only
          rw [mergeScratch_again hwf patch.2]
          rfl
        · obtain ⟨hscratch, htouched⟩ := mergeScratch_reordered (q.join k) hreordered hwf patch.2 patch'.2
          refine ⟨_, _, ?_, hscratch.insert.putAt, htouched⟩
          rw [merge_join, ho]
          dsimp only
          rw [← hother patch' hreordered, if_neg hempty, hq]

/-- `{"a": 3, "b": null}` on `{"a": 1, "b": 2, "b__": "n"}`, with its keys the other way round. -/
theorem merge_again_and_reordered_note :
    let old := Value.object [("a", .number (.posInt 1)), ("b", .number (.posInt 2)), ("b__", .string "n")]
    let swapped := Value.object [("b", .null), ("a", .number (.posInt 3))]
    ∃ T' new', merge old Path.root swapped = (.ok T', new') ∧ ⟨["b__"], .delete⟩ ∈ T' := by
  let old : Tree := ⟨.object [("a", .number (.posInt 1)), ("b", .number (.posInt 2)), ("b__", .string "n")],
    .object (by decide) (by simp [WF.number, WF.string])⟩
  let patch : Tree := ⟨.object [("a", .number (.posInt 3)), ("b", .null)],
    .object (by decide) (by simp [WF.number, WF.null])⟩
  let swapped : Tree := ⟨.object [("b", .null), ("a", .number (.posInt 3))],
    .object (by decide) (by simp [WF.number, WF.null])⟩
  have h : merge old.val Path.root patch.val =
      (.ok [⟨["a"], .set⟩, ⟨["b"], .delete⟩, ⟨["b__"], .delete⟩], .object [("a", .number (.posInt 3))]) := rfl
  have hswapped : Reordered patch.val swapped.val := by
    refine Reordered.of_get? patch.2 swapped.2 fun k => ?_
    simp only [Assoc.get?_cons, Assoc.get?_nil]
    by_cases ha : "a" = k
    · subst ha
      exact .some (.number _)
    · rw [if_neg ha, if_neg ha]
      exact Reordered.rel_refl _
  obtain ⟨T', new', hrun, -, htouched⟩ := (merge_again_and_reordered h).2 swapped hswapped
  exact ⟨T', new', hrun, (htouched _).mp (by simp)⟩

end PveMeta
