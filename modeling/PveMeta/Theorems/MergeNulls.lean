import PveMeta.Theorems.KeptNotes
import PveMeta.Theorems.Reordered

/-! # Merges and their delete markers

A `null` of a patch deletes at every depth, also where the document has no map for it to delete from: there the patch
is applied to a map of its own. So what a merge writes is free of `null` but for arrays, which it takes as they are,
and a patch of nothing but deletes makes nothing. -/

namespace PveMeta
open View Patch Value

/-- No `null` at any depth. -/
def NullFree (v : Value) : Prop := ¬ Inside .null v

/-- Every leaf of the patch is `null`, and no map in it is empty, the patch itself apart. -/
def OnlyDeletes (patch : Value) : Prop :=
  ∀ r v, valueAt patch r = some v → (v.isObject = false → v = .null) ∧ (r ≠ [] → v ≠ .object [])

/-- Where `n` holds a `null`, it is in an array of `S`. -/
structure NullsOf (S : Path → List Value → Prop) (n : Option Value) : Prop where
  maps : ∀ r, optAt n r ≠ some .null
  arrays : ∀ r items, optAt n r = some (.array items) → Inside .null (.array items) → S r items

/-- The arrays of a patch. -/
def Supplied (patch : Value) (r : Path) (items : List Value) : Prop := valueAt patch r = some (.array items)

/-- Every key that `n` has, at any depth, `o` has too. -/
def Within (n o : Option Value) : Prop := ∀ p, (n.bind (getPath · p)).isSome → (o.bind (getPath · p)).isSome

variable {v w x d new patch : Value} {m m' q : Members} {o n : Option Value} {path pre r : Path} {k j : String}
  {T : List Touched} {S : Path → List Value → Prop}

/-! ### Values in values -/

theorem Inside.of_valueAt (hv : Inside w v) (h : valueAt d path = some v) : Inside w d := by
  induction path generalizing d with
  | nil =>
    rw [valueAt_nil] at h
    cases h
    exact hv
  | cons k path ih =>
    cases d
    case object m =>
      obtain ⟨u, hu, hrest⟩ := Option.bind_eq_some_iff.mp h
      exact .member (Assoc.mem_of_get? hu) (ih hrest)
    all_goals cases h

theorem NullFree.of_valueAt (hd : NullFree d) (h : valueAt d path = some v) : NullFree v := fun hv =>
  hd (Inside.of_valueAt hv h)

theorem NullFree.of_get? (hm : NullFree (.object m)) (h : Assoc.get? k m = some v) : NullFree v := fun hv =>
  hm (.member (Assoc.mem_of_get? h) hv)

theorem nullFree_empty : NullFree (.object []) := by
  intro h
  cases h with
  | member he _ => cases he

/-! ### Nulls -/

namespace NullsOf

theorem none : NullsOf S none := ⟨fun _ h => (nomatch h), fun _ _ h => (nomatch h)⟩

theorem of_nullFree (h : ∀ w, n = some w → NullFree w) : NullsOf S n where
  maps r hr := by
    obtain ⟨w, hw, hnull⟩ := Option.bind_eq_some_iff.mp hr
    exact h w hw (Inside.of_valueAt .self hnull)
  arrays r items hr hin := by
    obtain ⟨w, hw, harray⟩ := Option.bind_eq_some_iff.mp hr
    exact absurd (Inside.of_valueAt hin harray) (h w hw)

/-- A map holds what its keys hold. -/
theorem object (h : ∀ k, NullsOf (fun r => S (k :: r)) (Assoc.get? k m)) : NullsOf S (some (.object m)) where
  maps r := by
    cases r with
    | nil => simp
    | cons k r => exact (h k).maps r
  arrays r items hr hin := by
    cases r with
    | nil => simp at hr
    | cons k r => exact (h k).arrays r items hr hin

theorem insert (hm : NullFree (.object m)) (h : NullsOf (fun r => S (k :: r)) (some v)) :
    NullsOf S (some (.object (Assoc.insert k v m))) := by
  refine object fun j => ?_
  by_cases hj : j = k
  · rw [hj, Assoc.get?_insert_self]
    exact h
  · rw [Assoc.get?_insert_ne hj]
    exact of_nullFree fun _ => hm.of_get?

theorem putAt (hd : NullFree d) (hq : mapAt d path = some m) (h : NullsOf (fun r => S (path ++ k :: r)) (some v)) :
    NullsOf S (some (putAt (Assoc.insert k v m) d path)) := by
  induction path generalizing d S with
  | nil =>
    obtain ⟨m₀, rfl⟩ := exists_object_of_mapAt hq
    cases hq
    exact insert hd h
  | cons seg rest ih =>
    obtain ⟨M, rfl⟩ := exists_object_of_mapAt hq
    rw [putAt_object_cons]
    refine insert hd (ih ?_ hq h)
    cases hv : Assoc.get? seg M with
    | none => exact nullFree_empty
    | some v => exact hd.of_get? hv

theorem setLeaf (ho : ∀ w, o = some w → NullFree w) (hv : v ≠ .null) (hobj : v.isObject = false) :
    NullsOf (Supplied v) (setLeaf o v) := by
  unfold Patch.setLeaf
  split
  · exact of_nullFree ho
  · have hbelow : ∀ r w, optAt (some v) r = some w → r = [] ∧ w = v := by
      intro r w h
      cases r with
      | nil =>
        rw [optAt_nil] at h
        exact ⟨rfl, (Option.some.inj h).symm⟩
      | cons k r =>
        cases v
        case object m => cases hobj
        all_goals cases h
    constructor
    · intro r hr
      exact hv (hbelow r _ hr).2.symm
    · intro r items hr _
      exact hr

/-- What the entries of a patch map make of a map: `hkey` says so of their values. -/
theorem applyEntries_of (hq : (Value.object q).WF) (hm : NullFree (.object m))
    (hkey : ∀ e ∈ q, ∀ path o, (∀ w, o = some w → NullFree w) → NullsOf (Supplied e.2) (mergedValue path o e.2)) :
    NullsOf (Supplied (.object q)) (some (.object (applyEntries q path m q).2)) := by
  refine object fun j => ?_
  rw [get?_applyEntries hq.keys, mergedKey]
  cases hj : Assoc.get? j q with
  | some v =>
    have hsame : (fun r => Supplied (.object q) (j :: r)) = Supplied v := by
      funext r items
      rw [Supplied, valueAt_object_key, hj]
      rfl
    rw [hsame]
    exact hkey _ (Assoc.mem_of_get? hj) _ _ fun _ => hm.of_get?
  | none =>
    dsimp only
    split
    · exact none
    · exact of_nullFree fun _ => hm.of_get?

theorem mergedValue (hv : v.WF) (ho : ∀ w, o = some w → NullFree w) : NullsOf (Supplied v) (mergedValue path o v) := by
  induction v using Value.ind generalizing path o with
  | null => exact none
  | object q ih =>
    have hentries : ∀ {m}, NullFree (.object m) →
        NullsOf (Supplied (.object q)) (some (.object (applyEntries q path m q).2)) := fun hm =>
      applyEntries_of hv hm fun e he path o => ih e he (hv.members e he)
    by_cases hmap : IsMap o
    · obtain ⟨child, rfl⟩ := hmap
      rw [mergedValue_child]
      exact hentries (ho _ rfl)
    · rw [mergedValue_scratch hmap]
      split
      · exact of_nullFree fun w hw => Option.some.inj hw ▸ nullFree_empty
      · split
        · exact hentries nullFree_empty
        · exact none
  | _ => exact setLeaf ho (by simp) rfl

theorem applyObj (hp : patch.WF) (hm : NullFree (.object m)) :
    NullsOf (Supplied patch) (some (applyObj (.object m) patch path).2) := by
  by_cases hobj : patch.isObject = true
  · obtain ⟨q, rfl⟩ := isObject_iff.mp hobj
    exact applyEntries_of hp hm fun e he _ _ => mergedValue (hp.members e he)
  · rw [applyObj_of_not_object hobj]
    exact of_nullFree fun w hw => Option.some.inj hw ▸ hm

theorem mergeScratch (hp : patch.WF) (ho : ∀ w, o = some w → NullFree w) :
    NullsOf (Supplied patch) (some (mergeScratch pre o patch).2) := by
  obtain ⟨m, hscratch, hm⟩ : ∃ m, scratchOf o = .object m ∧ NullFree (.object m) := by
    unfold scratchOf
    split
    · exact ⟨_, rfl, ho _ rfl⟩
    · exact ⟨[], rfl, nullFree_empty⟩
  rw [mergeScratch_snd, hscratch]
  exact applyObj hp hm

end NullsOf

/-! ### Keys -/

namespace Within

theorem none : Within none o := fun _ h => nomatch h

theorem refl (o : Option Value) : Within o o := fun _ h => h

theorem object (h : ∀ k, Within (Assoc.get? k m') (Assoc.get? k m)) : Within (some (.object m')) (some (.object m)) := by
  intro p hp
  cases p with
  | nil => rfl
  | cons k p => exact h k p hp

/-- What has the keys of an empty map has those of any value. -/
theorem of_scratch (h : Within (some w) (some (.object []))) : Within (some w) (some v) := by
  intro p hp
  cases p with
  | nil => rfl
  | cons k p =>
    have hsome := h (k :: p) hp
    cases hsome

theorem eq_none (h : Within n .none) : n = .none := by
  cases n with
  | none => rfl
  | some v => exact nomatch h [] rfl

theorem insert (h : Within (some w) (Assoc.get? k m)) :
    Within (some (.object (Assoc.insert k w m))) (some (.object m)) := by
  refine object fun j => ?_
  by_cases hj : j = k
  · rw [hj, Assoc.get?_insert_self]
    exact h
  · rw [Assoc.get?_insert_ne hj]
    exact refl _

theorem putAt (hq : valueAt d path = some (.object m)) (h : Within (some (.object m')) (some (.object m))) :
    Within (some (putAt m' d path)) (some d) := by
  induction path generalizing d with
  | nil =>
    rw [valueAt_nil] at hq
    cases hq
    exact h
  | cons seg rest ih =>
    cases d
    case object M =>
      obtain ⟨u, hu, hrest⟩ := Option.bind_eq_some_iff.mp hq
      rw [putAt_object_cons, hu]
      refine insert ?_
      rw [hu]
      exact ih hrest
    all_goals cases hq

end Within

theorem OnlyDeletes.entry (h : OnlyDeletes (.object q)) (hj : Assoc.get? j q = some v) :
    OnlyDeletes v ∧ v ≠ .object [] := by
  have hbelow : ∀ r w, valueAt v r = some w → (w.isObject = false → w = .null) ∧ w ≠ .object [] := by
    intro r w hw
    obtain ⟨hleaf, hempty⟩ := h (j :: r) w (by rw [valueAt_object_key, hj]; exact hw)
    exact ⟨hleaf, hempty (by simp)⟩
  exact ⟨fun r w hw => ⟨(hbelow r w hw).1, fun _ => (hbelow r w hw).2⟩, (hbelow [] v valueAt_nil).2⟩

/-- Deletes that find nothing to delete report nothing. -/
theorem applyEntries_nil_of_within (hq : (Value.object q).WF)
    (h : Within (some (.object (applyEntries q path [] q).2)) (some (.object []))) : (applyEntries q path [] q).1 = [] := by
  have hm' : (Value.object (applyEntries q path [] q).2).WF := applyEntries_wf hq .empty
  have hon : ExactOn path _ _ _ _ := applyEntries_exactOn hq .empty
  have hexact : Exact path _ _ _ := hon.exact .empty hm'
  refine (hexact.nil_iff (fun _ h => Option.some.inj h ▸ .empty) (fun _ h => Option.some.inj h ▸ hm')).mpr ?_
  refine optEq_some.mpr ((object_beq_iff .empty hm').mpr fun k => ?_)
  have hnone : Assoc.get? k (applyEntries q path [] q).2 = none := by
    cases hk : Assoc.get? k (applyEntries q path [] q).2 with
    | none => rfl
    | some v =>
      have hsome := h [k] (by simp [getPath, hk])
      simp [getPath] at hsome
  rw [hnone]
  trivial

namespace Within

/-- What the entries of a patch map of deletes make of a map: `hkey` says so of their values. -/
theorem applyEntries_of (hq : (Value.object q).WF)
    (hkey : ∀ e ∈ q, ∀ path o, Within (mergedValue path o e.2) o) :
    Within (some (.object (applyEntries q path m q).2)) (some (.object m)) := by
  refine object fun j => ?_
  rw [get?_applyEntries hq.keys, mergedKey]
  cases hj : Assoc.get? j q with
  | some v => exact hkey _ (Assoc.mem_of_get? hj) _ _
  | none =>
    dsimp only
    split
    · exact none
    · exact refl _

theorem mergedValue (hv : v.WF) (hdel : OnlyDeletes v) (hne : v ≠ .object []) : Within (mergedValue path o v) o := by
  induction v using Value.ind generalizing path o with
  | null => exact none
  | object q ih =>
    have hentries : ∀ m, Within (some (.object (applyEntries q path m q).2)) (some (.object m)) := by
      intro m
      refine applyEntries_of hv fun e he path o => ?_
      obtain ⟨hdel', hne'⟩ := hdel.entry (Assoc.get?_of_mem hv.keys he)
      exact ih e he (hv.members e he) hdel' hne'
    by_cases hmap : IsMap o
    · obtain ⟨child, rfl⟩ := hmap
      rw [mergedValue_child]
      exact hentries child
    · rw [mergedValue_scratch hmap]
      split
      · next hempty => exact absurd (congrArg Value.object (List.isEmpty_iff.mp hempty)) hne
      · rw [applyEntries_nil_of_within hv (hentries [])]
        cases o with
        | none => exact none
        | some w => exact of_scratch (hentries [])
  | _ =>
    have hnull := (hdel [] _ valueAt_nil).1 rfl
    cases hnull

theorem applyObj (hp : patch.WF) (hdel : OnlyDeletes patch) :
    Within (some (applyObj (.object m) patch path).2) (some (.object m)) := by
  by_cases hobj : patch.isObject = true
  · obtain ⟨q, rfl⟩ := isObject_iff.mp hobj
    refine applyEntries_of hp fun e he _ _ => ?_
    obtain ⟨hdel', hne⟩ := hdel.entry (Assoc.get?_of_mem hp.keys he)
    exact mergedValue (hp.members e he) hdel' hne
  · rw [applyObj_of_not_object hobj]
    exact refl _

theorem applyObj_nil (hp : patch.WF) (hdel : OnlyDeletes patch) : (Patch.applyObj (.object []) patch path).1 = [] := by
  by_cases hobj : patch.isObject = true
  · obtain ⟨q, rfl⟩ := isObject_iff.mp hobj
    exact applyEntries_nil_of_within hp (applyObj hp hdel)
  · rw [applyObj_of_not_object hobj]

/-- A merge of deletes that writes anything had something there to delete from, or to put a map instead of. -/
theorem mergeScratch (hp : patch.WF) (hdel : OnlyDeletes patch) (hT : (mergeScratch pre o patch).1 ≠ []) :
    Within (some (mergeScratch pre o patch).2) o := by
  cases o with
  | none => exact absurd (applyObj_nil hp hdel) hT
  | some v =>
    rw [mergeScratch_snd]
    cases v
    case object m => exact applyObj hp hdel
    all_goals exact of_scratch (applyObj hp hdel)

end Within

/-- What a merge writes into a document without `null` has none but in arrays of the patch, each at the place where
    the patch has it. And a patch of deletes, without an empty map below its root, leaves no key, at any depth, that
    was not there. -/
theorem merge_conjures_nothing {doc patch : Tree} (hdoc : NullFree doc.val)
    (h : merge doc.val pre patch.val = (.ok T, new)) :
    (∀ q, valueAt new q ≠ some .null) ∧
      (∀ q items, valueAt new q = some (.array items) → Inside .null (.array items) →
        ∃ r, q = pre ++ r ∧ valueAt patch.val r = some (.array items)) ∧
      (OnlyDeletes patch.val → ∀ p, (getPath new p).isSome → (getPath doc.val p).isSome) := by
  have hsame : ∀ {S}, NullsOf S (some doc.val) := NullsOf.of_nullFree fun w hw => Option.some.inj hw ▸ hdoc
  suffices hboth : NullsOf (fun q items => ∃ r, q = pre ++ r ∧ Supplied patch.val r items) (some new) ∧
      (OnlyDeletes patch.val → Within (some new) (some doc.val)) from
    ⟨hboth.1.maps, hboth.1.arrays, hboth.2⟩
  rcases pre.eq_root_or_join with rfl | ⟨q, k, rfl⟩
  · rw [merge_root, Prod.mk.injEq] at h
    obtain ⟨-, rfl⟩ := h
    unfold applyPatch
    split
    · next hobj =>
      rw [Bool.and_eq_true] at hobj
      obtain ⟨m, hm⟩ := isObject_iff.mp hobj.1
      rw [hm] at hdoc ⊢
      refine ⟨?_, Within.applyObj patch.2⟩
      have hnulls : NullsOf (Supplied patch.val) (some (applyObj (.object m) patch.val Path.root).2) :=
        NullsOf.applyObj patch.2 hdoc
      exact ⟨hnulls.maps, fun r items hr hin => ⟨r, rfl, hnulls.arrays r items hr hin⟩⟩
    · exact ⟨hsame, fun _ => Within.refl _⟩
  · rw [merge_join] at h
    split at h
    · cases h
    · next o ho =>
      obtain ⟨m, hq, rfl⟩ := descend_join_ok ho
      split at h
      · cases h
        exact ⟨hsame, fun _ => Within.refl _⟩
      · next hT =>
        cases h
        rw [hq]
        have hkeys : ∀ w, Assoc.get? k m = some w → NullFree w ∧ valueAt doc.val q = some (.object m) := by
          intro w hw
          have hm : valueAt doc.val q = some (.object m) := valueAt_of_mapAt hq fun hnil => by simp [hnil] at hw
          exact ⟨(hdoc.of_valueAt hm).of_get? hw, hm⟩
        refine ⟨NullsOf.putAt hdoc hq ?_, fun hdel => ?_⟩
        · have hnulls : NullsOf (Supplied patch.val) (some (mergeScratch (q.join k) (Assoc.get? k m) patch.val).2) :=
            NullsOf.mergeScratch patch.2 fun w hw => (hkeys w hw).1
          exact ⟨hnulls.maps, fun r items hr hin => ⟨r, (Path.join_append q k r).symm, hnulls.arrays r items hr hin⟩⟩
        · have hwithin := Within.mergeScratch patch.2 hdel (by simpa using hT)
          cases hk : Assoc.get? k m with
          | none =>
            rw [hk] at hwithin
            exact absurd hwithin.eq_none (by simp)
          | some w =>
            rw [← hk]
            exact Within.putAt (hkeys w hk).2 (Within.insert hwithin)

/-- `{"a": {"b": null}}` on `{"a": {"b": 1}}`. -/
theorem merge_conjures_nothing_delete :
    let old := Value.object [("a", .object [("b", .number (.posInt 1))])]
    let new := Value.object [("a", .object [])]
    ∀ p, (getPath new p).isSome → (getPath old p).isSome := by
  let old : Tree := ⟨.object [("a", .object [("b", .number (.posInt 1))])],
    .object (by decide) (by simpa using WF.object (by decide) (by simp [WF.number]))⟩
  let patch : Tree := ⟨.object [("a", .object [("b", .null)])],
    .object (by decide) (by simpa using WF.object (by decide) (by simp [WF.null]))⟩
  have h : merge old.val Path.root patch.val = (.ok [⟨["a", "b"], .delete⟩], .object [("a", .object [])]) := rfl
  have hold : NullFree old.val := by
    intro hin
    cases hin with
    | member he hin =>
      rw [List.mem_singleton.mp he] at hin
      cases hin with
      | member he hin =>
        rw [List.mem_singleton.mp he] at hin
        cases hin
  have hdel : OnlyDeletes patch.val := by
    intro r v hv
    rcases r with _ | ⟨a, _ | ⟨b, r⟩⟩
    · rw [valueAt_nil] at hv
      cases hv
      exact ⟨by rintro ⟨⟩, fun h => absurd rfl h⟩
    · obtain ⟨u, hu, hv⟩ := Option.bind_eq_some_iff.mp hv
      cases List.mem_singleton.mp (Assoc.mem_of_get? hu)
      rw [valueAt_nil] at hv
      cases hv
      exact ⟨by rintro ⟨⟩, by rintro _ ⟨⟩⟩
    · obtain ⟨u, hu, hv⟩ := Option.bind_eq_some_iff.mp hv
      cases List.mem_singleton.mp (Assoc.mem_of_get? hu)
      obtain ⟨w, hw, hv⟩ := Option.bind_eq_some_iff.mp hv
      cases List.mem_singleton.mp (Assoc.mem_of_get? hw)
      cases r with
      | nil =>
        cases hv
        exact ⟨fun _ => rfl, by rintro _ ⟨⟩⟩
      | cons c r => cases hv
  exact (merge_conjures_nothing hold h).2.2 hdel

end PveMeta
