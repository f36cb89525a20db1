import PveMeta.Theorems.Frame
import PveMeta.Theorems.Invariant

/-! # What a rollback brings back

A copy keeps what the snapshot put there until the next snapshot of that name or its deletion: every other
call is about other files. A snapshot of a guest without a document puts nothing there, so a rollback to it
brings back that there was none exactly if no older copy was left under the name. -/

namespace PveMeta
namespace History
open Api MetaStore Backup

def docBytes (s : MetaStore) (vmid : UInt32) : Option ByteArray := (s.own (.guest vmid)).map File.bytes

def copyBytes (s : MetaStore) (vmid : UInt32) (name : String) : Option ByteArray :=
  (Assoc.get? (snapshotPath vmid name) s.files).map File.bytes

/-! ### What each call does to one copy -/

variable {s : MetaStore} {v w : UInt32} {m n : String} {p : FsPath}

theorem get?_writeAtomic {q : FsPath} {bytes : ByteArray} (h : p ≠ q) :
    Assoc.get? p (s.writeAtomic q bytes).2.files = Assoc.get? p s.files := by
  unfold writeAtomic
  split
  · exact Assoc.get?_insert_ne h
  · rfl

theorem get?_removeFile {q : FsPath} (h : p ≠ q) : Assoc.get? p (s.removeFile q).2.files = Assoc.get? p s.files := by
  unfold removeFile
  split
  · exact Assoc.get?_erase_ne h
  · rfl

theorem get?_delete {d : DocId} (h : p ≠ s.pathFor d) : Assoc.get? p (s.delete d).2.files = Assoc.get? p s.files := by
  unfold delete
  split
  · rfl
  · exact get?_removeFile h

/-- A snapshot fails, finds no document, or copies the one there is. -/
theorem snapshot_cases (s : MetaStore) (v : UInt32) (n : String) :
    (∃ e, s.snapshot v n = (.error e, s)) ∨ (s.own (.guest v) = none ∧ s.snapshot v n = (.ok false, s)) ∨
      ∃ f, s.own (.guest v) = some f ∧
        s.snapshot v n = (.ok true, { s with files := Assoc.insert (snapshotPath v n) ⟨f.bytes, s.now⟩ s.files }) := by
  unfold snapshot
  split
  · exact Or.inl ⟨_, rfl⟩
  · split
    · exact Or.inl ⟨_, rfl⟩
    · split
      · exact Or.inl ⟨_, rfl⟩
      · next hstat => exact Or.inr (Or.inl ⟨(stat_eq_ok.mp hstat).2.symm, rfl⟩)
      · next f hstat =>
        cases hw : s.writeFault with
        | some msg => exact Or.inl ⟨.io msg, by simp only [writeAtomic, hw]; rfl⟩
        | none =>
          refine Or.inr (Or.inr ⟨f, (stat_eq_ok.mp hstat).2.symm, ?_⟩)
          simp only [writeAtomic, hw]
          rfl

/-- A rollback fails, or the document is the copy, and absent if there is none. -/
theorem rollback_cases (s : MetaStore) (v : UInt32) (n : String) :
    (∃ e, s.rollback v n = (.error e, s)) ∨
      (∃ outcome, (s.rollback v n).1 = .ok outcome) ∧ docBytes (s.rollback v n).2 v = copyBytes s v n := by
  unfold rollback
  split
  · exact Or.inl ⟨_, rfl⟩
  · split
    · exact Or.inl ⟨_, rfl⟩
    · split
      · exact Or.inl ⟨_, rfl⟩
      · next f hstat =>
        have hcopy := (stat_eq_ok.mp hstat).2
        cases hw : s.writeFault with
        | some msg => exact Or.inl ⟨.io msg, by simp only [writeAtomic, hw]; rfl⟩
        | none =>
          refine Or.inr ⟨⟨.restored, by simp only [writeAtomic, hw]; rfl⟩, ?_⟩
          simp only [writeAtomic, hw, docBytes, copyBytes, ← hcopy]
          simp [own]
      · next hstat =>
        have hcopy := (stat_eq_ok.mp hstat).2
        cases hw : s.writeFault with
        | some msg => exact Or.inl ⟨.io msg, by simp only [removeFile, hw]; rfl⟩
        | none =>
          refine Or.inr ⟨⟨_, by simp only [removeFile, hw]; rfl⟩, ?_⟩
          simp only [removeFile, hw, docBytes, copyBytes, ← hcopy]
          simp [own]

theorem get?_rollback (h : p ≠ docPath v) : Assoc.get? p (s.rollback v n).2.files = Assoc.get? p s.files := by
  unfold rollback
  split
  · rfl
  · split
    · rfl
    · split
      · rfl
      · exact get?_writeAtomic h
      · exact get?_removeFile h

theorem deleteSnapshot_cases (s : MetaStore) (v : UInt32) (n : String) :
    (∃ e, s.deleteSnapshot v n = (.error e, s)) ∨
      (∃ b, (s.deleteSnapshot v n).1 = .ok b) ∧ isValidSnapshotName n = true ∧
        ∀ p, p ≠ snapshotPath v n → Assoc.get? p (s.deleteSnapshot v n).2.files = Assoc.get? p s.files := by
  unfold deleteSnapshot
  split
  · exact Or.inl ⟨_, rfl⟩
  · split
    · next hvalid =>
      unfold removeFile
      split
      · exact Or.inr ⟨⟨_, rfl⟩, hvalid, fun p hp => Assoc.get?_erase_ne hp⟩
      · exact Or.inl ⟨_, rfl⟩
    · exact Or.inl ⟨_, rfl⟩

theorem get?_deleteSnapshots {names : List String} {k : Nat}
    (h : ∀ name, isValidSnapshotName name = true → p ≠ snapshotPath w name) :
    Assoc.get? p (deleteSnapshots w names k s).2.files = Assoc.get? p s.files := by
  induction names generalizing s k with
  | nil => rfl
  | cons name names ih =>
    unfold deleteSnapshots
    rcases deleteSnapshot_cases s w name with ⟨e, he⟩ | ⟨⟨b, hb⟩, hvalid, hframe⟩
    · rw [he]
    · split
      · next e s' heq =>
        rw [heq] at hb
        cases hb
      · next b' s' heq =>
        rw [ih, ← hframe p (h name hvalid), heq]

section

variable [Deps]

theorem get?_importBlock {description : Text} {mode : ImportMode} (hdoc : p ≠ docPath w)
    (hcopies : ∀ name, isValidSnapshotName name = true → p ≠ snapshotPath w name) :
    Assoc.get? p (importBlock s w description mode).2.files = Assoc.get? p s.files := by
  unfold importBlock
  split
  · rfl
  · rfl
  · next found hfind =>
    dsimp only
    split
    · rfl
    · rfl
    · rcases s.putRaw_cases (.guest w) (found.yaml ++ ['\n']) none with ⟨e, he⟩ | ⟨doc, t, hput, -⟩
      · rw [he]
      · rw [hput]
        dsimp only
        have hwritten := @get?_written s (.guest w) p (normalizeTrailingNewline (found.yaml ++ ['\n'])) hdoc
        unfold dropCopies
        cases mode with
        | install => exact hwritten
        | restore =>
          dsimp only
          split
          · exact hwritten
          · rw [get?_deleteSnapshots hcopies]
            exact hwritten

omit [Deps] in
theorem get?_purge (hdoc : p ≠ docPath w) (hcopies : ∀ name, isValidSnapshotName name = true → p ≠ snapshotPath w name) :
    Assoc.get? p (s.purge w).2.files = Assoc.get? p s.files := by
  have hdelete := @get?_delete s p (.guest w) hdoc
  unfold purge
  split
  · next e s' heq => rwa [heq] at hdelete
  · next b s' heq =>
    rw [heq] at hdelete
    split
    · exact hdelete
    · rw [get?_deleteSnapshots hcopies, hdelete]

/-- The call leaves the copy of `vmid` under `name`: it is about other files, or a snapshot or deletion of
    the name that fails. -/
def Leaves (vmid : UInt32) (name : String) (s : MetaStore) (call : Env × Call) : Prop :=
  match call.2 with
  | .snapshot w m | .deleteSnapshot w m => w = vmid → m = name → ¬ Succeeds s call
  | .importBlock w _ _ | .purge w => w ≠ vmid
  | _ => True

theorem copy_of_leaves {call : Env × Call} (h : Leaves v n s call) :
    Assoc.get? (snapshotPath v n) (step s call).1.files = Assoc.get? (snapshotPath v n) s.files := by
  obtain ⟨env, c⟩ := call
  have hdoc : ∀ w, snapshotPath v n ≠ docPath w := fun w => snapshotPath_ne_docPath v w n
  show Assoc.get? (snapshotPath v n) (c.run (env.meet s)).2.files = Assoc.get? (snapshotPath v n) (env.meet s).files
  cases c with
  | write r =>
    simp only [Call.run]
    rcases r.run_cases (env.meet s) with ⟨e, he⟩ | ⟨d, vp, stored, plan, -, hrun⟩
    · rw [he]
    · rw [hrun]
      exact Change.get?_apply (pathFor_ne_snapshotPath v n)
  | putRaw id text expected =>
    simp only [Call.run]
    rcases (env.meet s).putRaw_cases id text expected with ⟨e, he⟩ | ⟨doc, t, hput, -⟩
    · rw [he]
    · rw [hput]
      exact get?_written (pathFor_ne_snapshotPath v n)
  | delete id => exact get?_delete (pathFor_ne_snapshotPath v n)
  | snapshot w m =>
    simp only [Leaves, Succeeds, Call.run] at h ⊢
    rcases snapshot_cases (env.meet s) w m with ⟨e, he⟩ | ⟨-, he⟩ | ⟨f, -, he⟩
    · rw [he]
    · rw [he]
    · rw [he] at h ⊢
      refine Assoc.get?_insert_ne fun heq => ?_
      obtain ⟨rfl, rfl⟩ := snapshotPath_injective heq
      exact h rfl rfl rfl
  | rollback w m => exact get?_rollback (hdoc w)
  | deleteSnapshot w m =>
    simp only [Leaves, Succeeds, Call.run] at h ⊢
    rcases deleteSnapshot_cases (env.meet s) w m with ⟨e, he⟩ | ⟨⟨b, hb⟩, -, hframe⟩
    · rw [he]
    · refine hframe _ fun heq => ?_
      obtain ⟨rfl, rfl⟩ := snapshotPath_injective heq
      rw [hb] at h
      exact h rfl rfl rfl
  | importBlock w description mode =>
    exact get?_importBlock (hdoc w) fun name _ heq => h (snapshotPath_injective heq).1.symm
  | purge w => exact get?_purge (hdoc w) fun name _ heq => h (snapshotPath_injective heq).1.symm

/-! ### Histories -/

theorem copyBytes_run {calls : List (Env × Call)} (h : Log.Along step (Leaves v n) s calls) :
    copyBytes (run s calls) v n = copyBytes s v n := by
  have hrun := @Log.run_inv _ _ _ step (Leaves v n)
    (fun t _ => Assoc.get? (snapshotPath v n) t.files = Assoc.get? (snapshotPath v n) s.files)
    (fun t _ call hcall ht => (copy_of_leaves hcall).trans ht) s [] calls h rfl
  exact congrArg _ hrun

theorem run_append (calls more : List (Env × Call)) : run s (calls ++ more) = run (run s calls) more := by
  rw [run, Log.run_append]
  rfl

/-- A successful snapshot leaves the document's bytes under the name, or what was there for no document. -/
theorem copyBytes_snapshot {env : Env} (h : Succeeds s (env, .snapshot v n)) :
    copyBytes (step s (env, .snapshot v n)).1 v n = (docBytes s v).or (copyBytes s v n) := by
  simp only [Succeeds, Call.run, step] at h ⊢
  have hdoc : docBytes (env.meet s) v = docBytes s v := rfl
  have hcopy : copyBytes (env.meet s) v n = copyBytes s v n := rfl
  rcases snapshot_cases (env.meet s) v n with ⟨e, he⟩ | ⟨hnone, he⟩ | ⟨f, hf, he⟩
  · rw [he] at h
    cases h
  · rw [he, ← hdoc, docBytes, hnone]
    exact hcopy
  · rw [he, ← hdoc, docBytes, hf]
    simp [copyBytes]

/-- After a rollback, the document is what it was at the last snapshot of the name that still stands, exactly
    if there was a document at that snapshot or no older copy under the name. -/
theorem rollback_restores_iff {before after : List (Env × Call)} {env env' : Env}
    (hsnap : Succeeds (run s before) (env, .snapshot v n))
    (hafter : Log.Along step (Leaves v n) (run s (before ++ [(env, .snapshot v n)])) after)
    (hroll : Succeeds (run s (before ++ [(env, .snapshot v n)] ++ after)) (env', .rollback v n)) :
    docBytes (run s (before ++ [(env, .snapshot v n)] ++ after ++ [(env', .rollback v n)])) v = docBytes (run s before) v ↔
      (docBytes (run s before) v = none → copyBytes (run s before) v n = none) := by
  have htaken : copyBytes (run s (before ++ [(env, .snapshot v n)])) v n =
      (docBytes (run s before) v).or (copyBytes (run s before) v n) := by
    rw [run_append]
    exact copyBytes_snapshot hsnap
  have hkept : copyBytes (run s (before ++ [(env, .snapshot v n)] ++ after)) v n =
      (docBytes (run s before) v).or (copyBytes (run s before) v n) := by
    rw [run_append (s := s) (before ++ _), copyBytes_run hafter, htaken]
  have hback : docBytes (run s (before ++ [(env, .snapshot v n)] ++ after ++ [(env', .rollback v n)])) v =
      copyBytes (run s (before ++ [(env, .snapshot v n)] ++ after)) v n := by
    rw [run_append (s := s) (before ++ _ ++ after)]
    generalize run s (before ++ [(env, .snapshot v n)] ++ after) = t at hroll
    simp only [Succeeds, Call.run] at hroll
    rcases rollback_cases (env'.meet t) v n with ⟨e, he⟩ | ⟨-, hdoc⟩
    · rw [he] at hroll
      cases hroll
    · exact hdoc
  rw [hback, hkept]
  cases hdoc : docBytes (run s before) v with
  | none => simp
  | some b => simp

end

section Samples
open Sample

def calm : Env := ⟨none, none, none, 1⟩

/-- A snapshot is taken of a guest that has a document, then the document is deleted. -/
def leftover : List (Env × Call) :=
  [(calm, .putRaw (.guest 100) "a: 1\n".toList none), (calm, .snapshot 100 "before"), (calm, .delete (.guest 100))]

/-- A second snapshot of the name, of no document: the first one's copy stands, and a rollback brings back a
    document that was not there. -/
theorem rollback_revives_copy :
    Succeeds (run (storeOf []) leftover) (calm, .snapshot 100 "before") ∧
      Succeeds (run (storeOf []) (leftover ++ [(calm, .snapshot 100 "before")])) (calm, .rollback 100 "before") ∧
      docBytes (run (storeOf []) leftover) 100 = none ∧
      docBytes (run (storeOf []) (leftover ++ [(calm, .snapshot 100 "before")] ++ [] ++ [(calm, .rollback 100 "before")]))
        100 ≠ none := by
  refine ⟨rfl, rfl, rfl, ?_⟩
  decide +kernel

/-- The first snapshot of a guest with a document, and a rollback to it. -/
theorem rollback_restores_iff_put :
    let put : List (Env × Call) := [(calm, .putRaw (.guest 100) "a: 1\n".toList none)]
    docBytes (run (storeOf []) (put ++ [(calm, .snapshot 100 "before")] ++ [(calm, .delete (.guest 100))] ++
        [(calm, .rollback 100 "before")])) 100 = docBytes (run (storeOf []) put) 100 ↔
      (docBytes (run (storeOf []) put) 100 = none → copyBytes (run (storeOf []) put) 100 "before" = none) :=
  rollback_restores_iff rfl ⟨trivial, trivial⟩ rfl

end Samples

end History
end PveMeta
