import Mathlib.Data.Set.Card
import PveMeta.Theorems.Rollback

/-! # What a purge takes

Over any calls on a root that was empty, every file of the root is the document of one guest or a copy of it. A purge
takes the files of its guest, counts them, and leaves the others, whatever their vmids have in common as texts. -/

namespace PveMeta
namespace History
open Api MetaStore Backup

variable {s t : MetaStore} {v w : UInt32} {n : Nat} {p : FsPath}

/-- The place of the guest's document, or of a copy of it under a name that a snapshot can have. -/
def PlaceOf (v : UInt32) (p : FsPath) : Prop :=
  p = docPath v ∨ ∃ name, isValidSnapshotName name = true ∧ p = snapshotPath v name

theorem PlaceOf.vmid_eq (hv : PlaceOf v p) (hw : PlaceOf w p) : v = w := by
  rcases hv with rfl | ⟨name, -, rfl⟩ <;> rcases hw with hw | ⟨name', -, hw⟩
  · exact docPath_injective hw
  · exact absurd hw.symm (snapshotPath_ne_docPath w v name')
  · exact absurd hw (snapshotPath_ne_docPath v w name)
  · exact (snapshotPath_injective hw).1

/-! ### Counting files -/

def fileCount (s : MetaStore) : Nat := (Assoc.keys s.files).toFinset.card

theorem toFinset_keys_erase (files : List (FsPath × File)) (p : FsPath) :
    (Assoc.keys (Assoc.erase p files)).toFinset = (Assoc.keys files).toFinset.erase p := by
  ext q
  rw [Assoc.keys_erase, List.mem_toFinset, List.mem_filter, Finset.mem_erase, List.mem_toFinset, decide_eq_true_iff,
    and_comm]

theorem fileCount_removeFile {b : Bool} (h : s.removeFile p = (.ok b, t)) : b.toNat + fileCount t = fileCount s := by
  unfold removeFile at h
  split at h
  · cases h
    rw [fileCount, fileCount, toFinset_keys_erase]
    cases hget : (Assoc.get? p s.files).isSome with
    | true =>
      have hmem : p ∈ (Assoc.keys s.files).toFinset := List.mem_toFinset.mpr (Assoc.get?_isSome_iff.mp hget)
      rw [Bool.toNat_true, Nat.add_comm, Finset.card_erase_add_one hmem]
    | false =>
      have hmem : p ∉ (Assoc.keys s.files).toFinset := by
        rw [List.mem_toFinset, ← Assoc.get?_isSome_iff, hget]
        exact Bool.false_ne_true
      rw [Bool.toNat_false, Nat.zero_add, Finset.erase_eq_of_notMem hmem]
  · cases h

theorem fileCount_delete {b : Bool} {d : DocId} (h : s.delete d = (.ok b, t)) : b.toNat + fileCount t = fileCount s := by
  unfold delete at h
  split at h
  · cases h
  · exact fileCount_removeFile h

theorem fileCount_deleteSnapshot {b : Bool} {name : String} (h : s.deleteSnapshot v name = (.ok b, t)) :
    b.toNat + fileCount t = fileCount s := by
  unfold deleteSnapshot at h
  split at h
  · cases h
  · split at h
    · exact fileCount_removeFile h
    · cases h

theorem fileCount_deleteSnapshots {names : List String} {removed : Nat}
    (h : deleteSnapshots v names removed s = (.ok n, t)) :
    n + fileCount t = removed + fileCount s := by
  induction names generalizing s removed with
  | nil =>
    cases h
    rfl
  | cons name names ih =>
    rw [deleteSnapshots] at h
    split at h
    · cases h
    · next b s' hdelete =>
      have hrest := ih h
      have hone := fileCount_deleteSnapshot hdelete
      cases b <;> simp only [Bool.toNat_true, Bool.toNat_false, if_true, Bool.false_eq_true, if_false] at hone hrest <;>
        omega

/-- A purge that gets through counts the files that are gone. -/
theorem fileCount_purge (h : s.purge v = (.ok n, t)) : n + fileCount t = fileCount s := by
  unfold purge at h
  split at h
  · cases h
  · next b s' hdelete =>
    have hdoc := fileCount_delete hdelete
    split at h
    · cases h
    · have hcopies := fileCount_deleteSnapshots h
      cases b <;> simp only [Bool.toNat_true, Bool.toNat_false, if_true, Bool.false_eq_true, if_false] at hdoc hcopies <;>
        omega

/-! ### One purge -/

theorem faultFree_of_purge (h : (s.purge v).1 = .ok n) : s.FaultFree := by
  unfold purge at h
  split at h
  · cases h
  · next b s' hdelete =>
    unfold delete checkAvailable at hdelete
    split at hdelete
    · cases hdelete
    · next havailable =>
      split at havailable
      · next hnone =>
        unfold removeFile at hdelete
        split at hdelete
        · next hwrites =>
          cases hdelete
          split at h
          · cases h
          · next names hlist =>
            refine ⟨hnone, ?_, hwrites⟩
            unfold listSnapshots at hlist
            obtain ⟨-, -, hlist⟩ := Except.bind_eq_ok.mp hlist
            split at hlist
            · cases hlist
            · next hreads => exact hreads
        · cases hdelete
      · cases havailable

theorem get?_purge_other (h : ¬ PlaceOf v p) : Assoc.get? p (s.purge v).2.files = Assoc.get? p s.files :=
  get?_purge (fun hdoc => h (.inl hdoc)) fun name hname hcopy => h (.inr ⟨name, hname, hcopy⟩)

theorem get?_purge_own (hok : (s.purge v).1 = .ok n) (h : PlaceOf v p) : Assoc.get? p (s.purge v).2.files = none := by
  obtain ⟨m, files, hpurge, hdoc, hcopies, -⟩ := @purge_eq s v (faultFree_of_purge hok)
  rw [hpurge]
  rcases h with rfl | ⟨name, hname, rfl⟩
  · exact hdoc
  · exact hcopies name hname

/-- What is counted are the guest's files. -/
theorem purge_count (hok : (s.purge v).1 = .ok n) : n = {p | PlaceOf v p ∧ (Assoc.get? p s.files).isSome}.ncard := by
  have hcount := fileCount_purge (Prod.ext hok rfl : s.purge v = (.ok n, (s.purge v).2))
  have hset : {p | PlaceOf v p ∧ (Assoc.get? p s.files).isSome} =
      ((Assoc.keys s.files).toFinset \ (Assoc.keys (s.purge v).2.files).toFinset : Finset FsPath) := by
    ext p
    rw [Finset.mem_coe, Finset.mem_sdiff, List.mem_toFinset, List.mem_toFinset, ← Assoc.get?_isSome_iff,
      ← Assoc.get?_isSome_iff]
    by_cases hp : PlaceOf v p
    · simp [get?_purge_own hok hp, hp]
    · rw [get?_purge_other hp]
      exact iff_of_false (fun hmem => hp hmem.1) fun hmem => hmem.2 hmem.1
  have hsub : (Assoc.keys (s.purge v).2.files).toFinset ⊆ (Assoc.keys s.files).toFinset := by
    intro p hp
    rw [List.mem_toFinset, ← Assoc.get?_isSome_iff] at hp ⊢
    by_cases hplace : PlaceOf v p
    · rw [get?_purge_own hok hplace] at hp
      cases hp
    · rwa [get?_purge_other hplace] at hp
  rw [hset, Set.ncard_coe_finset]
  have hcard := Finset.card_sdiff_add_card_eq_card hsub
  rw [fileCount, fileCount] at hcount
  omega

/-! ### Every file is a guest's -/

section

variable [Deps]

omit [Deps] in
theorem get?_snapshot {name : String} (h : isValidSnapshotName name = true → p ≠ snapshotPath w name) :
    Assoc.get? p (s.snapshot w name).2.files = Assoc.get? p s.files := by
  unfold snapshot
  split
  · rfl
  · split
    · rfl
    · next hvalid =>
      rw [Bool.not_eq_true, Bool.not_eq_false'] at hvalid
      split
      · rfl
      · rfl
      · exact get?_writeAtomic (h hvalid)

/-- No call touches a file that is in no document's place and no copy's. -/
theorem get?_call (hdoc : ∀ d, p ≠ s.pathFor d)
    (hcopies : ∀ w name, isValidSnapshotName name = true → p ≠ snapshotPath w name) (c : Call) :
    Assoc.get? p (c.run s).2.files = Assoc.get? p s.files := by
  cases c with
  | write r =>
    simp only [Call.run]
    rcases r.run_cases s with ⟨e, he⟩ | ⟨d, vp, stored, plan, -, hrun⟩
    · rw [he]
    · rw [hrun]
      exact Change.get?_apply (hdoc d)
  | putRaw id text expected =>
    simp only [Call.run]
    rcases s.putRaw_cases id text expected with ⟨e, he⟩ | ⟨doc, t, hput, -⟩
    · rw [he]
    · rw [hput]
      exact get?_written (hdoc id)
  | delete id => exact get?_delete (hdoc id)
  | snapshot w name => exact get?_snapshot (hcopies w name)
  | rollback w name => exact get?_rollback (hdoc (.guest w))
  | deleteSnapshot w name =>
    rcases deleteSnapshot_cases s w name with ⟨e, he⟩ | ⟨⟨b, hb⟩, hvalid, hframe⟩
    · simp only [Call.run, he]
    · exact hframe p (hcopies w name hvalid)
  | importBlock w description mode => exact get?_importBlock (hdoc (.guest w)) (hcopies w)
  | purge w => exact get?_purge (hdoc (.guest w)) (hcopies w)

def Placed (s : MetaStore) : Prop := ∀ file, (Assoc.get? (.root file) s.files).isSome → ∃ v, PlaceOf v (.root file)

theorem placed_call (h : Placed s) (c : Call) : Placed (c.run s).2 := by
  intro file hfile
  by_contra hnone
  have hkept : Assoc.get? (.root file) (c.run s).2.files = Assoc.get? (.root file) s.files := by
    refine get?_call (fun d hd => ?_) (fun w name hname hcopy => hnone ⟨w, .inr ⟨name, hname, hcopy⟩⟩) c
    cases d with
    | guest w => exact hnone ⟨w, .inl hd⟩
    | registry kind name =>
      -- A prefix file is in no case written in the root itself.
      rw [pathFor, registryWritePath] at hd
      split at hd <;> cases hd
  rw [hkept] at hfile
  exact hnone (h file hfile)

theorem placed_run (h : Placed s) (calls : List (Env × Call)) : Placed (run s calls) :=
  @Log.run_keeps _ _ _ step (fun s _ => Placed s) (fun s _ call hs => placed_call (s := call.1.meet s) hs call.2) s h calls

/-- A store whose root was empty, after some calls. -/
def FromEmpty (s : MetaStore) : Prop :=
  ∃ (s₀ : MetaStore) (calls : List (Env × Call)), (∀ file, Assoc.get? (.root file) s₀.files = none) ∧ s = run s₀ calls

/-- No two documents or copies have one place, and every file of the root is in the place of one guest's. A purge leaves
    the files of the other guests even where it fails; where it does not, the guest's files are gone and it returns how
    many there were. -/
theorem purge_complete (h : FromEmpty s) :
    (∀ d e, s.pathFor d = s.pathFor e → d = e) ∧
      (∀ v w m n, snapshotPath v m = snapshotPath w n → v = w ∧ m = n) ∧ (∀ v name d, snapshotPath v name ≠ s.pathFor d) ∧
      (∀ file, (Assoc.get? (.root file) s.files).isSome → ∃! v, PlaceOf v (.root file)) ∧
      ∀ (env : Env) (v : UInt32),
        (∀ w p, w ≠ v → PlaceOf w p → Assoc.get? p ((env.meet s).purge v).2.files = Assoc.get? p s.files) ∧
        (∀ n, ((env.meet s).purge v).1 = .ok n → (∀ p, PlaceOf v p → Assoc.get? p ((env.meet s).purge v).2.files = none) ∧
          n = {p | PlaceOf v p ∧ (Assoc.get? p s.files).isSome}.ncard) ∧
        ((env.meet s).FaultFree → ∃ n, ((env.meet s).purge v).1 = .ok n) := by
  obtain ⟨s₀, calls, hempty, rfl⟩ := h
  have hplaced : Placed (run s₀ calls) := placed_run (fun file hfile => by rw [hempty file] at hfile; cases hfile) calls
  refine ⟨fun d e => pathFor_injective, fun v w m n => snapshotPath_injective, fun v name d =>
    pathFor_ne_snapshotPath v name,
    fun file hfile => ?_, fun env v => ⟨fun w p hw hp => ?_, fun n hok => ?_, fun hfree => ?_⟩⟩
  · obtain ⟨v, hv⟩ := hplaced file hfile
    exact ⟨v, hv, fun w hw => hw.vmid_eq hv⟩
  · exact @get?_purge_other (env.meet (run s₀ calls)) v p fun hv => hw (hp.vmid_eq hv)
  · exact ⟨fun p hp => get?_purge_own hok hp, @purge_count (env.meet (run s₀ calls)) v n hok⟩
  · obtain ⟨n, files, hpurge, -⟩ := @purge_eq _ v hfree
    exact ⟨n, by rw [hpurge]⟩

end

open Sample

/-- Guest 10, with a copy besides its document, and guest 100. -/
def tenAndHundred : MetaStore :=
  run (storeOf []) [(calm, .putRaw (.guest 10) "a: 1".toList none), (calm, .snapshot 10 "before"),
  (calm, .putRaw (.guest 100) "a: 1".toList none)]

/-- Guest 100 keeps its file when guest 10 is purged. -/
theorem purge_complete_prefix : ((calm.meet tenAndHundred).purge 10).1.toOption = some 2 ∧
    (Assoc.get? (docPath 100) tenAndHundred.files).isSome = true ∧
    Assoc.get? (docPath 100) ((calm.meet tenAndHundred).purge 10).2.files =
      Assoc.get? (docPath 100) tenAndHundred.files := by
  have hfrom : FromEmpty tenAndHundred := ⟨storeOf [], _, fun _ => rfl, rfl⟩
  obtain ⟨-, -, -, -, hpurge⟩ := purge_complete hfrom
  exact ⟨by decide +kernel, by decide +kernel, (hpurge calm 10).1 100 (docPath 100) (by decide) (.inl rfl)⟩

end History
end PveMeta
