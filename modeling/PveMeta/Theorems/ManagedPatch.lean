import PveMeta.ManagedPatch

/-! # What a managed patch leaves

The diversion and the pristine copy are right after every command, whatever fails. The live file is not: it is stale
where a command stops before it, and what a copy left where one fails. -/

namespace PveMeta
namespace ManagedPatch

/-! ### What is promised -/

/-- The live file is the package's current one, as it is or with the diff. -/
def Fresh (e : Entry) (upstream : ByteArray) (real : Option ByteArray) : Prop :=
  ∃ file, real = some file ∧ (file = upstream ∨ e.patch upstream = some file)

/-- The files are as the diversion says. -/
structure Managed (e : Entry) (s : State) : Prop where
  plain : s.diversion = false → s.real = some s.upstream
  backup : s.diversion = true → s.diverted = some s.upstream
  fresh : s.diversion = true → Fresh e s.upstream s.real

/-- What a command leaves is as promised, and nothing is left of the patch where a removal succeeds. -/
def Keeps (e : Entry) (c : Command) (s : State) : Prop :=
  Managed e (c.run e s).2 ∧
    ∀ f, c = .remove f → (c.run e s).1 = true → (c.run e s).2.diversion = false ∧ (c.run e s).2.real = some s.upstream

/-! ### When it is kept -/

/-- What a copy leaves that fails. -/
def Copy.Leaves (P : Option ByteArray → Prop) : Copy → Prop
  | .ok => True
  | .failed left => P left

/-- `apply` does not come to the pristine copy. -/
def Stops (f : Failing) (s : State) : Prop :=
  f.start = true ∨ f.diff = true ∨ (isDiverted f s = true ∧ f.listpackage = true) ∨
    (isDiverted f s = false ∧ (s.real = none ∨ f.add = true))

/-- The patched file is built, and so is installed. -/
def Builds (e : Entry) (f : Failing) (s : State) : Prop :=
  ((s.diversion = true ∧ s.real ≠ none) ∨ f.placeholder = .ok) ∧ (build e f s.upstream).isSome = true

/-- The live file is not stale where the command stops before it, and no copy that fails leaves it stale. -/
def Command.Sound (e : Entry) (s : State) : Command → Prop
  | .apply f =>
    (Stops f s → s.diversion = true → Fresh e s.upstream s.real) ∧
    (¬ Stops f s → Builds e f s → f.install.Leaves (Fresh e s.upstream)) ∧
    (¬ Stops f s → ¬ Builds e f s → isDiverted f s = true → f.restore.Leaves (Fresh e s.upstream)) ∧
    (¬ Stops f s → ¬ Builds e f s → isDiverted f s = false → f.rm = true →
      if s.diversion then Fresh e s.upstream s.real
      else f.placeholder.Leaves fun left => left = none ∨ Fresh e s.upstream left)
  | .remove f => s.diversion = true →
    if f.start then Fresh e s.upstream s.real
    else f.truename = false ∧ (f.listpackage = true → Fresh e s.upstream s.real) ∧
      (f.listpackage = false → f.rm = true → s.real = none ∨ Fresh e s.upstream s.real)

/-! ### The shapes of a state -/

/-- The package's file is the live one, or it is the pristine copy; the live file is then whatever it is. -/
inductive Shaped : State → Prop
  | plain (u : ByteArray) : Shaped ⟨u, false, some u, none⟩
  | diverted (u : ByteArray) (real : Option ByteArray) : Shaped ⟨u, true, real, some u⟩

variable {e : Entry} {f : Failing} {s : State} {u v : ByteArray} {real : Option ByteArray} {createdDivert : Bool}

theorem managed_plain : Managed e ⟨u, false, some u, none⟩ := ⟨fun _ => rfl, by rintro ⟨⟩, by rintro ⟨⟩⟩

theorem managed_diverted : Managed e ⟨u, true, real, some u⟩ ↔ Fresh e u real :=
  ⟨fun h => h.fresh rfl, fun h => ⟨by rintro ⟨⟩, fun _ => rfl, fun _ => h⟩⟩

theorem fresh_upstream : Fresh e u (some u) := ⟨u, rfl, Or.inl rfl⟩

theorem not_fresh_none : ¬ Fresh e u none := by
  rintro ⟨file, h, -⟩
  cases h

theorem fresh_build {file : ByteArray} (h : build e f u = some file) : Fresh e u (some file) := by
  unfold build at h
  split at h
  · cases h
  · exact ⟨file, rfl, Or.inr (Option.filter_eq_some_iff.mp h).1⟩

/-- What is at `real` after a copy. -/
def Copy.result (file : ByteArray) : Copy → Option ByteArray
  | .ok => some file
  | .failed left => left

theorem write_eq (copy : Copy) (file : ByteArray) : s.write copy file = { s with real := copy.result file } := by
  cases copy <;> rfl

theorem fresh_result {copy : Copy} {file : ByteArray} (h : Fresh e u (some file)) :
    Fresh e u (copy.result file) ↔ copy.Leaves (Fresh e u) := by
  cases copy with
  | ok => exact ⟨fun _ => trivial, fun _ => h⟩
  | failed left => exact Iff.rfl

/-! ### Rolling back -/

/-- A diversion that is new is undone, unless a file that `rm` left is in the way. -/
theorem restore_created (hremove : f.remove = false) : restoreOnFailure f true ⟨v, true, real, some u⟩ =
    if f.rm = true ∧ real ≠ none then ⟨v, true, real, some u⟩ else ⟨v, false, some u, none⟩ := by
  cases hrm : f.rm <;> cases real <;> simp [restoreOnFailure, dpkgDivertRemove, State.rm, hrm, hremove]

/-- A diversion that was there stays, and the pristine copy is put over the live file. -/
theorem restore_reused : restoreOnFailure f false ⟨v, true, real, some u⟩ = ⟨v, true, f.restore.result u, some u⟩ := by
  simp [restoreOnFailure, write_eq]

theorem managed_restore_created (hremove : f.remove = false) :
    Managed e (restoreOnFailure f true ⟨u, true, real, some u⟩) ↔ (f.rm = true → real = none ∨ Fresh e u real) := by
  rw [restore_created hremove]
  split
  · next h => rw [managed_diverted, or_iff_right h.2, forall_prop_of_true h.1]
  · next h =>
    refine ⟨fun _ hrm => Or.inl ?_, fun _ => managed_plain⟩
    by_contra hreal
    exact h ⟨hrm, hreal⟩

theorem managed_restore_reused :
    Managed e (restoreOnFailure f false ⟨u, true, real, some u⟩) ↔ f.restore.Leaves (Fresh e u) := by
  rw [restore_reused, managed_diverted, fresh_result fresh_upstream]

/-! ### Rebuilding -/

/-- The live file is there, or the copy that stands in for it is made. -/
def Stands (f : Failing) (real : Option ByteArray) : Prop := real ≠ none ∨ f.placeholder = .ok

theorem standIn_eq : standIn f u ⟨v, true, real, some u⟩ =
    (real.isSome || f.placeholder matches .ok, ⟨v, true, real.or (f.placeholder.result u), some u⟩) := by
  cases real <;> cases h : f.placeholder <;> simp [standIn, h, State.write, Copy.result]

theorem stands_iff : (real.isSome || f.placeholder matches .ok) = true ↔ Stands f real := by
  cases real <;> cases h : f.placeholder <;> simp [Stands, h]

def Copy.succeeds : Copy → Bool
  | .ok => true
  | .failed _ => false

theorem rebuild_built {file : ByteArray} (hstands : Stands f real) (hbuild : build e f u = some file) :
    rebuild e f createdDivert ⟨v, true, real, some u⟩ =
      (f.install.succeeds, ⟨v, true, f.install.result file, some u⟩) := by
  simp only [rebuild, standIn_eq, stands_iff.mpr hstands, hbuild, write_eq]
  cases f.install <;> rfl

theorem rebuild_failed (h : ¬ (Stands f real ∧ (build e f u).isSome = true)) :
    rebuild e f createdDivert ⟨v, true, real, some u⟩ =
      (false, restoreOnFailure f createdDivert ⟨v, true, real.or (f.placeholder.result u), some u⟩) := by
  simp only [rebuild, standIn_eq]
  by_cases hstands : Stands f real
  · have hbuild : build e f u = none := by simpa using fun hb => h ⟨hstands, hb⟩
    simp only [stands_iff.mpr hstands, hbuild]
  · rw [← stands_iff, Bool.not_eq_true] at hstands
    simp only [hstands]

theorem managed_rebuild_built (h : Stands f real ∧ (build e f u).isSome = true) :
    Managed e (rebuild e f createdDivert ⟨u, true, real, some u⟩).2 ↔ f.install.Leaves (Fresh e u) := by
  obtain ⟨file, hfile⟩ := Option.isSome_iff_exists.mp h.2
  rw [rebuild_built h.1 hfile, managed_diverted, fresh_result (fresh_build hfile)]

/-! ### The commands -/

theorem divert_plain :
    divert f ⟨u, false, some u, none⟩ = if f.add then none else some (true, ⟨u, true, none, some u⟩) := by
  cases hadd : f.add <;> simp [divert, isDiverted, dpkgDivertAdd, hadd]

theorem divert_diverted : divert f ⟨u, true, real, some u⟩ =
    if f.truename then if real = none ∨ f.add = true then none else some (true, ⟨u, true, real, some u⟩)
    else if f.listpackage then none else some (false, ⟨u, true, real, some u⟩) := by
  cases htrue : f.truename <;> cases hadd : f.add <;> cases real <;> simp [divert, isDiverted, dpkgDivertAdd, htrue, hadd]

theorem divert_eq_none (hs : Shaped s) : divert f s = none ↔
    (isDiverted f s = true ∧ f.listpackage = true) ∨ (isDiverted f s = false ∧ (s.real = none ∨ f.add = true)) := by
  cases hs with
  | plain u => simp [divert_plain, isDiverted]
  | diverted u real =>
    rw [divert_diverted]
    cases htrue : f.truename <;> simp [isDiverted, htrue, or_iff_not_imp_left]

theorem run_of_stops (hs : Shaped s) (h : Stops f s) : ((Command.apply f).run e s).2 = s := by
  rw [Stops, ← divert_eq_none hs] at h
  rcases h with h | h | h
  · simp [Command.run, Command.failing, h]
  · simp [Command.run, applyOne, h]
  · simp [Command.run, applyOne, h]

theorem run_of_divert {s' : State} (h : ¬ Stops f s) (hdivert : divert f s = some (createdDivert, s')) :
    (Command.apply f).run e s = rebuild e f createdDivert s' := by
  have hstart : f.start = false := by simpa using fun hstart => h (Or.inl hstart)
  have hdiff : f.diff = false := by simpa using fun hdiff => h (Or.inr (Or.inl hdiff))
  simp [Command.run, Command.failing, applyOne, hstart, hdiff, hdivert]

theorem divert_of_not_stops (h : ¬ Stops f ⟨u, true, real, some u⟩) :
    divert f ⟨u, true, real, some u⟩ = some (f.truename, ⟨u, true, real, some u⟩) ∧ (f.truename = true → real ≠ none) := by
  rw [Stops, ← divert_eq_none (.diverted u real), not_or, not_or, divert_diverted] at h
  rw [divert_diverted]
  cases htrue : f.truename with
  | false =>
    have hlist : f.listpackage = false := by simpa [htrue] using h.2.2
    exact ⟨by simp [hlist], by rintro ⟨⟩⟩
  | true =>
    have hgoes : ¬ (real = none ∨ f.add = true) := by simpa [htrue] using h.2.2
    exact ⟨by simp only [if_true, if_neg hgoes], fun _ hreal => hgoes (Or.inl hreal)⟩

theorem managed_apply_plain (hremove : f.remove = false) (h : ¬ Stops f ⟨u, false, some u, none⟩) :
    Managed e ((Command.apply f).run e ⟨u, false, some u, none⟩).2 ↔
      (Command.apply f).Sound e ⟨u, false, some u, none⟩ := by
  have hdivert : divert f ⟨u, false, some u, none⟩ = some (true, ⟨u, true, none, some u⟩) := by
    rw [divert_plain, if_neg fun hadd => h (Or.inr (Or.inr (Or.inr ⟨rfl, Or.inr hadd⟩)))]
  have hbuilds : Builds e f ⟨u, false, some u, none⟩ ↔ Stands f none ∧ (build e f u).isSome = true := by
    simp [Builds, Stands]
  rw [run_of_divert h hdivert, Command.Sound, hbuilds]
  by_cases hb : Stands f none ∧ (build e f u).isSome = true
  · simp only [managed_rebuild_built hb, h, hb, not_true_eq_false, not_false_eq_true, forall_prop_of_true,
      forall_prop_of_false, true_and, and_true]
  · have hplaceholder : (f.placeholder.result u = none ∨ Fresh e u (f.placeholder.result u)) ↔
        f.placeholder.Leaves fun left => left = none ∨ Fresh e u left := by
      cases f.placeholder with
      | ok => exact ⟨fun _ => trivial, fun _ => Or.inr fresh_upstream⟩
      | failed left => exact Iff.rfl
    rw [rebuild_failed hb, managed_restore_created hremove, Option.none_or, hplaceholder]
    simp only [h, hb, isDiverted, Bool.false_and, Bool.false_eq_true, if_false, not_false_eq_true, forall_prop_of_true,
      forall_prop_of_false, true_and]

theorem managed_apply_diverted (hremove : f.remove = false) (h : ¬ Stops f ⟨u, true, real, some u⟩) :
    Managed e ((Command.apply f).run e ⟨u, true, real, some u⟩).2 ↔ (Command.apply f).Sound e ⟨u, true, real, some u⟩ := by
  obtain ⟨hdivert, hreal⟩ := divert_of_not_stops h
  have hbuilds : Builds e f ⟨u, true, real, some u⟩ ↔ Stands f real ∧ (build e f u).isSome = true := by
    simp [Builds, Stands]
  rw [run_of_divert h hdivert, Command.Sound, hbuilds]
  by_cases hb : Stands f real ∧ (build e f u).isSome = true
  · simp only [managed_rebuild_built hb, h, hb, not_true_eq_false, not_false_eq_true, forall_prop_of_true,
      forall_prop_of_false, true_and, and_true]
  · rw [rebuild_failed hb]
    cases htrue : f.truename with
    | false =>
      rw [managed_restore_reused]
      simp only [h, hb, isDiverted, htrue, Bool.not_false, Bool.and_true, Bool.true_eq_false, not_false_eq_true,
        forall_prop_of_true, forall_prop_of_false, true_and, and_true]
    | true =>
      -- The diversion is taken for a new one, and the live file has been there all along.
      obtain ⟨file, rfl⟩ := Option.ne_none_iff_exists'.mp (hreal htrue)
      rw [managed_restore_created hremove, Option.some_or, or_iff_right (Option.some_ne_none file)]
      simp only [h, hb, isDiverted, htrue, Bool.not_true, Bool.and_false, Bool.false_eq_true, not_false_eq_true,
        forall_prop_of_true, forall_prop_of_false, true_and, if_true]

theorem managed_apply (hremove : f.remove = false) (hs : Shaped s) :
    Managed e ((Command.apply f).run e s).2 ↔ (Command.apply f).Sound e s := by
  by_cases hstops : Stops f s
  · -- Nothing is touched.
    simp only [run_of_stops hs hstops, Command.Sound, hstops, not_true_eq_false, forall_prop_of_true, forall_prop_of_false,
      not_false_eq_true, and_true]
    cases hs with
    | plain u => exact ⟨fun _ => by rintro ⟨⟩, fun _ => managed_plain⟩
    | diverted u real => exact managed_diverted.trans ⟨fun h _ => h, fun h => h rfl⟩
  · cases hs with
    | plain u => exact managed_apply_plain hremove hstops
    | diverted u real => exact managed_apply_diverted hremove hstops

theorem keeps_apply (hremove : f.remove = false) (hs : Shaped s) :
    Keeps e (.apply f) s ↔ (Command.apply f).Sound e s := by
  rw [← managed_apply hremove hs]
  exact ⟨fun h => h.1, fun h => ⟨h, by rintro _ ⟨⟩⟩⟩

theorem removeOne_diverted (hremove : f.remove = false) : removeOne f ⟨u, true, real, some u⟩ =
    if f.truename then (true, ⟨u, true, real, some u⟩)
    else if f.listpackage then (false, ⟨u, true, real, some u⟩)
    else if f.rm = true ∧ real ≠ none then (false, ⟨u, true, real, some u⟩)
    else (true, ⟨u, false, some u, none⟩) := by
  cases htrue : f.truename <;> cases hlist : f.listpackage <;> cases hrm : f.rm <;> cases real <;>
    simp [removeOne, isDiverted, dpkgDivertRemove, State.rm, htrue, hlist, hrm, hremove]

theorem keeps_remove (hremove : f.remove = false) (hs : Shaped s) :
    Keeps e (.remove f) s ↔ (Command.remove f).Sound e s := by
  cases hs with
  | plain u =>
    have hrun : ((Command.remove f).run e ⟨u, false, some u, none⟩).2 = ⟨u, false, some u, none⟩ := by
      cases hstart : f.start <;> simp [Command.run, Command.failing, removeOne, isDiverted, hstart]
    refine ⟨fun _ => by rintro ⟨⟩, fun _ => ?_⟩
    rw [Keeps, hrun]
    exact ⟨managed_plain, fun _ _ _ => ⟨rfl, rfl⟩⟩
  | diverted u real =>
    -- What is kept where nothing changes and the command says so, and where it says that it succeeded.
    have hfailed : (Command.remove f).run e ⟨u, true, real, some u⟩ = (false, ⟨u, true, real, some u⟩) →
        (Keeps e (.remove f) ⟨u, true, real, some u⟩ ↔ Fresh e u real) := by
      intro hrun
      rw [Keeps, hrun, managed_diverted]
      exact ⟨fun h => h.1, fun h => ⟨h, by rintro _ _ ⟨⟩⟩⟩
    rw [Command.Sound, forall_prop_of_true rfl]
    cases hstart : f.start with
    | true => exact hfailed (by simp [Command.run, Command.failing, hstart])
    | false =>
      have hrun : (Command.remove f).run e ⟨u, true, real, some u⟩ = removeOne f ⟨u, true, real, some u⟩ := by
        simp [Command.run, Command.failing, hstart]
      rw [hrun, removeOne_diverted hremove] at hfailed
      rw [if_neg Bool.false_ne_true]
      cases htrue : f.truename with
      | true =>
        refine ⟨fun h => ?_, by rintro ⟨⟨⟩, -⟩⟩
        have hgone := h.2 f rfl
        rw [hrun, removeOne_diverted hremove, htrue, if_pos rfl] at hgone
        cases (hgone rfl).1
      | false =>
        cases hlist : f.listpackage with
        | true =>
          rw [hfailed (by simp [htrue, hlist])]
          exact ⟨fun h => ⟨rfl, fun _ => h, by rintro ⟨⟩⟩, fun h => h.2.1 rfl⟩
        | false =>
          by_cases hrm : f.rm = true ∧ real ≠ none
          · rw [hfailed (by simp [htrue, hlist, hrm])]
            exact ⟨fun h => ⟨rfl, by rintro ⟨⟩, fun _ _ => Or.inr h⟩, fun h => (h.2.2 rfl hrm.1).resolve_left hrm.2⟩
          · refine ⟨fun _ => ⟨rfl, by rintro ⟨⟩, fun _ hrm' => Or.inl ?_⟩, fun _ => ?_⟩
            · by_contra hreal
              exact hrm ⟨hrm', hreal⟩
            · rw [Keeps, hrun, removeOne_diverted hremove, htrue, hlist, if_neg Bool.false_ne_true,
                if_neg Bool.false_ne_true, if_neg hrm]
              exact ⟨managed_plain, fun _ _ _ => ⟨rfl, rfl⟩⟩

/-! ### Runs -/

theorem Shaped.restore (hremove : f.remove = false) :
    Shaped (restoreOnFailure f createdDivert ⟨u, true, real, some u⟩) := by
  cases createdDivert with
  | false =>
    rw [restore_reused]
    exact .diverted u _
  | true =>
    rw [restore_created hremove]
    split
    · exact .diverted u real
    · exact .plain u

theorem Shaped.rebuild (hremove : f.remove = false) :
    Shaped (rebuild e f createdDivert ⟨u, true, real, some u⟩).2 := by
  by_cases h : Stands f real ∧ (build e f u).isSome = true
  · obtain ⟨file, hfile⟩ := Option.isSome_iff_exists.mp h.2
    rw [rebuild_built h.1 hfile]
    exact .diverted u _
  · rw [rebuild_failed h]
    exact .restore hremove

theorem Shaped.apply (hremove : f.remove = false) (hs : Shaped s) : Shaped ((Command.apply f).run e s).2 := by
  by_cases hstops : Stops f s
  · rw [run_of_stops hs hstops]
    exact hs
  · cases hs with
    | plain u =>
      have hdivert : divert f ⟨u, false, some u, none⟩ = some (true, ⟨u, true, none, some u⟩) := by
        rw [divert_plain, if_neg fun hadd => hstops (Or.inr (Or.inr (Or.inr ⟨rfl, Or.inr hadd⟩)))]
      rw [run_of_divert hstops hdivert]
      exact .rebuild hremove
    | diverted u real =>
      rw [run_of_divert hstops (divert_of_not_stops hstops).1]
      exact .rebuild hremove

theorem Shaped.remove (hremove : f.remove = false) (hs : Shaped s) : Shaped ((Command.remove f).run e s).2 := by
  rw [Command.run]
  split
  · exact hs
  · cases hs with
    | plain u => exact .plain u
    | diverted u real =>
      show Shaped (removeOne f _).2
      rw [removeOne_diverted hremove]
      split
      · exact .diverted u real
      · split
        · exact .diverted u real
        · split
          · exact .diverted u real
          · exact .plain u

/-- `dpkg-divert --remove` does what it is asked to, as far as it can. -/
def Event.Removes : Event → Prop
  | .command c => c.failing.remove = false
  | .upgrade _ => True

theorem Shaped.step {event : Event} (hremoves : event.Removes) (hs : Shaped s) : Shaped (step e s event) := by
  cases event with
  | command c =>
    cases c with
    | apply f => exact hs.apply hremoves
    | remove f => exact hs.remove hremoves
  | upgrade file =>
    cases hs with
    | plain u => exact .plain file
    | diverted u real => exact .diverted file real

theorem Shaped.run {events : List Event} (hremoves : ∀ event ∈ events, event.Removes) (hs : Shaped s) :
    Shaped (run e s events) :=
  List.foldlRecOn events (ManagedPatch.step e) hs fun _ h event hmem => h.step (hremoves event hmem)

section Samples

def textOf (n : UInt8) : ByteArray := ⟨#[n]⟩

/-- An entry whose diff appends a byte. -/
def sample : Entry := ⟨fun file => some ⟨file.data.push 0⟩, [], "perl", fun _ => true⟩

/-- The file is patched, and then its package upgraded. -/
def upgraded : List Event := [.command (.apply .none), .upgrade (textOf 2)]

theorem upgraded_removes : ∀ event ∈ upgraded, event.Removes := by
  simp [upgraded, Event.Removes, Command.failing, Failing.none]

theorem run_upgraded : run sample (.installed (textOf 1)) upgraded =
    ⟨textOf 2, true, some ⟨#[1, 0]⟩, some (textOf 2)⟩ := rfl

end Samples

end ManagedPatch
end PveMeta
