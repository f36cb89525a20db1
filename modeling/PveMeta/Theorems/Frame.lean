import PveMeta.Theorems.Writes

/-! # What a write may touch

A call that is refused, or is a dry run, leaves every file as it is. One that succeeds changes no file but
the one where a write of its document lands: no packaged prefix file, no snapshot copy, and nothing that a
read of another document finds. -/

namespace PveMeta
open Api MetaStore

/-- Nothing but `d`'s own file differs. -/
structure Framed (s s' : MetaStore) (d : DocId) : Prop where
  files : ∀ p, p ≠ s.pathFor d → Assoc.get? p s'.files = Assoc.get? p s.files
  packaged : ∀ i file, i + 1 < s.prefixDirs → Assoc.get? (.prefixDir i file) s'.files =
    Assoc.get? (.prefixDir i file) s.files
  copies : ∀ v name, Assoc.get? (snapshotPath v name) s'.files = Assoc.get? (snapshotPath v name) s.files
  documents : ∀ e, e ≠ d → s'.own e = s.own e ∧ s'.content e = s.content e

variable {s : MetaStore} {d : DocId} {c : Change}

namespace Change

@[simp] theorem apply_keep : Change.keep.apply s d = s := rfl

@[simp] theorem apply_remove : Change.remove.apply s d = s.removed d := rfl

@[simp] theorem apply_write (text : Text) : (Change.write text).apply s d = s.written d text := rfl

theorem get?_apply {p : FsPath} (h : p ≠ s.pathFor d) : Assoc.get? p (c.apply s d).files = Assoc.get? p s.files := by
  cases c with
  | keep => rfl
  | remove => exact get?_removed h
  | write text => exact get?_written h

theorem own_apply : (c.apply s d).own d = c.file s.now (s.own d) := by
  cases c with
  | keep => rfl
  | remove => exact own_removed
  | write text => exact own_written

theorem own_apply_ne {e : DocId} (h : e ≠ d) : (c.apply s d).own e = s.own e := by
  cases c with
  | keep => rfl
  | remove => exact own_removed_ne h
  | write text => exact own_written_ne h

theorem packaged_apply {e : DocId} : (c.apply s d).packaged e = s.packaged e := by
  cases c with
  | keep => rfl
  | remove => exact packaged_removed
  | write text => exact packaged_written

theorem content_apply_ne {e : DocId} (h : e ≠ d) : (c.apply s d).content e = s.content e := by
  rw [content, content, own_apply_ne h, packaged_apply]

end Change

theorem Framed.of_change : Framed s (c.apply s d) d where
  files _ := Change.get?_apply
  packaged i file hi := by
    refine Change.get?_apply fun h => ?_
    cases d with
    | guest v => cases h
    | registry kind name =>
      simp only [pathFor, registryWritePath] at h
      split at h
      · cases h
      · injection h with hi'
        omega
  copies v name := Change.get?_apply (pathFor_ne_snapshotPath v name)
  documents _ h := ⟨Change.own_apply_ne h, Change.content_apply_ne h⟩

section

variable [Deps]

omit [Deps] in
theorem Request.change_dryRun {r : Request} {vp : Path} {stored : Stored} {plan : Plan} (h : r.dryRun = true) :
    r.change vp stored plan = .keep := by
  cases r with
  | put req =>
    have hdry : req.dryRun = true := h
    rw [change, hdry, Bool.true_or, if_pos rfl]
  | delete req => cases h

/-- A write that fails or is a dry run changes nothing; one that succeeds changes the file of the document it
    names, if any. -/
theorem write_framed (s : MetaStore) (r : Request) :
    ((∃ e, (r.run s).1 = .error e) ∨ r.dryRun = true → (r.run s).2 = s) ∧
      ∀ answer, (r.run s).1 = .ok answer → ∃ d, parseId r.id = .ok d ∧ Framed s (r.run s).2 d := by
  rcases r.run_cases s with ⟨e, he⟩ | ⟨d, vp, stored, plan, hans, hrun⟩
  · rw [he]
    exact ⟨fun _ => rfl, fun answer h => by cases h⟩
  · rw [hrun]
    refine ⟨fun h => ?_, fun answer _ => ⟨d, (Request.target_eq_ok hans.target_eq).1, Framed.of_change⟩⟩
    rcases h with ⟨e, he⟩ | hdry
    · cases he
    · rw [Request.change_dryRun hdry, Change.apply_keep]

end

end PveMeta
