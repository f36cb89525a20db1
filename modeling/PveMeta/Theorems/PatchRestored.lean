import PveMeta.PatchedTree
import PveMeta.Theorems.ManagedPatch

/-! # What a failed apply leaves of one path

Every failure after the diversion is rolled back, but for that of `install`; and where pve-ext diverts the path already, a
failure before the copy is looked at leaves the live file as it was, stale or not. -/

namespace PveMeta
namespace ManagedPatch

/-! ### What is promised -/

/-- The file as its package has it. -/
def Site.pristine (s : Site) : Option ByteArray := if s.diverter = .pveExt then s.diverted else s.real

/-- `apply_one` ends before it looks at the copy. -/
def Site.Stops (f : Failing) (s : Site) : Prop := f.diff = true ∨ s.divert f = none

/-- The patched file is built. -/
structure Site.Builds (e : Entry) (f : Failing) (s : Site) : Prop where
  goes : ¬ s.Stops f
  stands : (s.diverter = .pveExt ∧ s.real ≠ none) ∨ f.placeholder = .ok
  built : ∃ pristine, s.pristine = some pristine ∧ (build e f pristine).isSome = true

/-- No step of `apply_one` fails. -/
def Site.Unfailing (e : Entry) (f : Failing) (s : Site) : Prop := s.Builds e f ∧ f.install = .ok

/-- A failed apply restores what it found, and one of which no step fails patches the file. -/
structure Site.Restores (e : Entry) (f : Failing) (s : Site) : Prop where
  plain : s.diverter = .nobody → (s.applyOne e f).1 = false →
    (s.applyOne e f).2.diverter = .nobody ∧ (s.applyOne e f).2.real = s.real
  reused : s.diverter = .pveExt → (s.applyOne e f).1 = false →
    ∀ pristine, s.diverted = some pristine → (s.applyOne e f).2.real = some pristine
  foreign : ∀ toCopy, s.diverter = .other toCopy → s.applyOne e f = (false, s)
  answers : (s.applyOne e f).1 = true ↔ s.Unfailing e f
  patched : s.Unfailing e f → ∃ pristine file, s.pristine = some pristine ∧ e.patch pristine = some file ∧
    (s.applyOne e f).2.real = some file

/-! ### When it is kept -/

/-- The live file of a path that is diverted is not stale where the apply stops before it; and `install` does not fail,
    unless it leaves that file as it is to be. -/
structure Site.Sound (e : Entry) (f : Failing) (s : Site) : Prop where
  stops : s.Stops f → s.diverter = .pveExt → ∀ pristine, s.diverted = some pristine → s.real = some pristine
  installs : s.Builds e f → ∀ left, f.install = .failed left → s.diverter = .pveExt ∧ left = s.diverted

variable {e : Entry} {f : Failing} {s : Site} {u v : ByteArray} {real diverted : Option ByteArray} {createdDivert : Bool}

/-! ### The diversion -/

theorem divert_nobody : (Site.mk v .nobody real diverted).divert f =
    if f.add = true ∨ real = none ∨ diverted ≠ none then none else some (true, ⟨v, .pveExt, none, real⟩) := by
  cases hadd : f.add <;> cases real <;> cases diverted <;>
    simp [Site.divert, Site.isDiverted, Site.dpkgDivertAdd, Site.state, dpkgDivertAdd, Site.of, hadd]

theorem divert_pveExt : (Site.mk v .pveExt real diverted).divert f =
    if f.truename then if real = none ∨ f.add = true then none else some (true, ⟨v, .pveExt, real, diverted⟩)
    else if f.listpackage then none else some (false, ⟨v, .pveExt, real, diverted⟩) := by
  cases htrue : f.truename <;> cases hlist : f.listpackage <;> cases hadd : f.add <;> cases real <;>
    simp [Site.divert, Site.isDiverted, Site.diversionOwnedByUs, Site.dpkgDivertAdd, Site.state, dpkgDivertAdd, Site.of,
      htrue, hlist, hadd]

theorem divert_other (toCopy : Bool) : (Site.mk v (.other toCopy) real diverted).divert f = none := by
  cases toCopy <;> simp [Site.divert, Site.isDiverted, Site.diversionOwnedByUs, Site.dpkgDivertAdd]

theorem applyOne_of_stops (h : s.Stops f) : s.applyOne e f = (false, s) := by
  unfold Site.applyOne
  rcases h with h | h
  · rw [if_pos h]
  · rw [h, ite_self]

theorem applyOne_of_divert {s' : Site} (h : ¬ s.Stops f) (hdivert : s.divert f = some (createdDivert, s')) :
    s.applyOne e f = ((rebuild e f createdDivert s'.state).1, .of (rebuild e f createdDivert s'.state).2) := by
  rw [Site.applyOne, if_neg fun hdiff => h (Or.inl hdiff), hdivert]

/-- A path that goes on is one of pve-ext's now. -/
theorem Site.divert_of_not_stops (h : ¬ s.Stops f) : ∃ createdDivert, s.divert f =
    some (createdDivert, ⟨s.upstream, .pveExt, if s.diverter = .pveExt then s.real else none, s.pristine⟩) ∧
      (createdDivert = false → s.diverter = .pveExt) ∧ ∀ toCopy, s.diverter ≠ .other toCopy := by
  obtain ⟨v, diverter, real, diverted⟩ := s
  have hgoes : (Site.mk v diverter real diverted).divert f ≠ none := fun hnone => h (Or.inr hnone)
  cases diverter with
  | nobody =>
    rw [divert_nobody] at hgoes ⊢
    split at hgoes
    · exact absurd rfl hgoes
    · next hadd => exact ⟨true, if_neg hadd, by rintro ⟨⟩, by rintro _ ⟨⟩⟩
  | pveExt =>
    rw [divert_pveExt] at hgoes ⊢
    cases htrue : f.truename with
    | true =>
      simp only [htrue, if_true] at hgoes ⊢
      split at hgoes
      · exact absurd rfl hgoes
      · next hadd => exact ⟨true, if_neg hadd, by rintro ⟨⟩, by rintro _ ⟨⟩⟩
    | false =>
      rw [htrue, if_neg Bool.false_ne_true] at hgoes
      rw [if_neg Bool.false_ne_true]
      split at hgoes
      · exact absurd rfl hgoes
      · next hlist => exact ⟨false, if_neg hlist, fun _ => rfl, by rintro _ ⟨⟩⟩
  | other toCopy => exact absurd (divert_other toCopy) hgoes

/-- A path that no other package diverts is treated as a path by itself is. -/
theorem applyOne_eq (h : ∀ toCopy, s.diverter ≠ .other toCopy) :
    s.applyOne e f = ((applyOne e f s.state).1, .of (applyOne e f s.state).2) := by
  have hdivert : s.divert f = (ManagedPatch.divert f s.state).map fun r => (r.1, .of r.2) := by
    obtain ⟨v, diverter, real, diverted⟩ := s
    cases diverter with
    | nobody =>
      rw [divert_nobody]
      cases hadd : f.add <;> cases real <;> cases diverted <;>
        simp [ManagedPatch.divert, isDiverted, dpkgDivertAdd, Site.state, Site.of, hadd]
    | pveExt =>
      rw [divert_pveExt]
      cases htrue : f.truename <;> cases hlist : f.listpackage <;> cases hadd : f.add <;> cases real <;>
        simp [ManagedPatch.divert, isDiverted, dpkgDivertAdd, Site.state, Site.of, htrue, hlist, hadd]
    | other toCopy => exact absurd rfl (h toCopy)
  have hof : Site.of s.state = s := by
    obtain ⟨v, diverter, real, diverted⟩ := s
    cases diverter with
    | nobody => rfl
    | pveExt => rfl
    | other toCopy => exact absurd rfl (h toCopy)
  have hstate : ∀ t : State, (Site.of t).state = t := by
    rintro ⟨u, diversion, real, diverted⟩
    cases diversion <;> rfl
  unfold Site.applyOne applyOne
  rw [hdivert]
  split
  · rw [hof]
  · cases ManagedPatch.divert f s.state with
    | none => exact congrArg _ hof.symm
    | some r =>
      simp only [Option.map_some, hstate]

/-! ### What becomes of it -/

theorem stands_iff_site : Stands f (if s.diverter = .pveExt then s.real else none) ↔
    (s.diverter = .pveExt ∧ s.real ≠ none) ∨ f.placeholder = .ok := by
  by_cases hours : s.diverter = .pveExt <;> simp [Stands, hours]

/-- The file is patched, but for an `install` that fails. -/
theorem applyOne_built (h : s.Builds e f) : ∃ pristine file, s.pristine = some pristine ∧ build e f pristine = some file ∧
    s.applyOne e f = (f.install.succeeds, ⟨s.upstream, .pveExt, f.install.result file, some pristine⟩) := by
  obtain ⟨pristine, hpristine, hbuild⟩ := h.built
  obtain ⟨file, hfile⟩ := Option.isSome_iff_exists.mp hbuild
  obtain ⟨createdDivert, hdivert, -, -⟩ := Site.divert_of_not_stops h.goes
  refine ⟨pristine, file, hpristine, hfile, ?_⟩
  rw [applyOne_of_divert h.goes hdivert]
  simp only [Site.state, hpristine, decide_true]
  rw [rebuild_built (stands_iff_site.mpr h.stands) hfile]
  rfl

/-- Where there is a copy, what fails before `install` is rolled back. -/
theorem applyOne_failed (hrm : f.rm = false) (hremove : f.remove = false) (hrestore : f.restore = .ok) (hgoes : ¬ s.Stops f)
    (h : ¬ s.Builds e f) {pristine : ByteArray} (hpristine : s.pristine = some pristine) :
    (s.applyOne e f).1 = false ∧ (s.applyOne e f).2.real = some pristine ∧
      (s.diverter = .nobody → (s.applyOne e f).2.diverter = .nobody) := by
  obtain ⟨createdDivert, hdivert, hreused, -⟩ := Site.divert_of_not_stops hgoes
  rw [applyOne_of_divert hgoes hdivert]
  simp only [Site.state, hpristine, decide_true]
  rw [rebuild_failed fun hb => h ⟨hgoes, stands_iff_site.mp hb.1, pristine, hpristine, hb.2⟩]
  cases createdDivert with
  | true =>
    rw [restore_created hremove, hrm, if_neg (by simp)]
    exact ⟨rfl, rfl, fun _ => rfl⟩
  | false =>
    rw [restore_reused, hrestore]
    refine ⟨rfl, rfl, fun hnobody => ?_⟩
    cases (hreused rfl).symm.trans hnobody

/-- Without a copy nothing is patched. -/
theorem applyOne_no_copy (hgoes : ¬ s.Stops f) (h : s.pristine = none) : (s.applyOne e f).1 = false := by
  obtain ⟨createdDivert, hdivert, -, -⟩ := Site.divert_of_not_stops hgoes
  rw [applyOne_of_divert hgoes hdivert, h]
  rfl

theorem succeeds_iff {copy : Copy} : copy.succeeds = true ↔ copy = .ok := by
  cases copy <;> simp [Copy.succeeds]

theorem applyOne_unbuilt (h : ¬ s.Builds e f) : (s.applyOne e f).1 = false := by
  by_cases hgoes : s.Stops f
  · rw [applyOne_of_stops hgoes]
  · cases hpristine : s.pristine with
    | none => exact applyOne_no_copy hgoes hpristine
    | some pristine =>
      obtain ⟨createdDivert, hdivert, -, -⟩ := Site.divert_of_not_stops hgoes
      rw [applyOne_of_divert hgoes hdivert]
      simp only [Site.state, hpristine, decide_true]
      rw [rebuild_failed fun hb => h ⟨hgoes, stands_iff_site.mp hb.1, pristine, hpristine, hb.2⟩]

theorem answers_applyOne : (s.applyOne e f).1 = true ↔ s.Unfailing e f := by
  by_cases hbuilds : s.Builds e f
  · obtain ⟨pristine, file, -, -, happly⟩ := applyOne_built hbuilds
    rw [happly, succeeds_iff]
    exact ⟨fun h => ⟨hbuilds, h⟩, fun h => h.2⟩
  · rw [applyOne_unbuilt hbuilds]
    exact ⟨by rintro ⟨⟩, fun h => absurd h.1 hbuilds⟩

/-- What `apply_one` leaves that succeeds. -/
theorem applyOne_eq_true (h : (s.applyOne e f).1 = true) : ∃ pristine file, s.pristine = some pristine ∧
    build e f pristine = some file ∧ (s.applyOne e f).2 = ⟨s.upstream, .pveExt, some file, some pristine⟩ := by
  obtain ⟨hbuilds, hinstall⟩ := answers_applyOne.mp h
  obtain ⟨pristine, file, hpristine, hfile, happly⟩ := applyOne_built hbuilds
  refine ⟨pristine, file, hpristine, hfile, ?_⟩
  rw [happly, hinstall]
  rfl

theorem patch_of_build {pristine file : ByteArray} (h : build e f pristine = some file) : e.patch pristine = some file := by
  unfold build at h
  split at h
  · cases h
  · exact (Option.filter_eq_some_iff.mp h).1

theorem Site.Sound.restores (hrm : f.rm = false) (hremove : f.remove = false) (hrestore : f.restore = .ok)
    (h : s.Sound e f) :
    s.Restores e f := by
  have hpristine : s.diverter = .pveExt → s.pristine = s.diverted := fun hours => if_pos hours
  refine ⟨fun hnobody hfalse => ?_, fun hours hfalse pristine hdiverted => ?_, fun toCopy hother => ?_,
    answers_applyOne, fun hgoes => ?_⟩
  · by_cases hstops : s.Stops f
    · rw [applyOne_of_stops hstops]
      exact ⟨hnobody, rfl⟩
    · have hreal : s.pristine = s.real := if_neg (by rw [hnobody]; rintro ⟨⟩)
      cases hfile : s.real with
      | none =>
        refine absurd (Or.inr ?_) hstops
        obtain ⟨v, diverter, real, diverted⟩ := s
        cases hnobody
        cases hfile
        rw [divert_nobody, if_pos (Or.inr (Or.inl rfl))]
      | some file =>
        by_cases hbuilds : s.Builds e f
        · obtain ⟨_, _, -, -, happly⟩ := applyOne_built hbuilds
          rw [happly] at hfalse
          cases hinstall : f.install with
          | ok =>
            rw [hinstall] at hfalse
            cases hfalse
          | failed left => cases hnobody.symm.trans (h.installs hbuilds left hinstall).1
        · obtain ⟨-, hleft, hdiverter⟩ := applyOne_failed hrm hremove hrestore hstops hbuilds (hreal.trans hfile)
          exact ⟨hdiverter hnobody, hleft⟩
  · by_cases hstops : s.Stops f
    · rw [applyOne_of_stops hstops]
      exact h.stops hstops hours pristine hdiverted
    · by_cases hbuilds : s.Builds e f
      · obtain ⟨_, _, -, -, happly⟩ := applyOne_built hbuilds
        rw [happly] at hfalse ⊢
        cases hinstall : f.install with
        | ok =>
          rw [hinstall] at hfalse
          cases hfalse
        | failed left => exact (h.installs hbuilds left hinstall).2.trans hdiverted
      · exact (applyOne_failed hrm hremove hrestore hstops hbuilds ((hpristine hours).trans hdiverted)).2.1
  · by_cases hstops : s.Stops f
    · exact applyOne_of_stops hstops
    · obtain ⟨_, -, -, hne⟩ := Site.divert_of_not_stops hstops
      exact absurd hother (hne toCopy)
  · obtain ⟨pristine, file, hpristine, hfile, happly⟩ := applyOne_eq_true (answers_applyOne.mpr hgoes)
    exact ⟨pristine, file, hpristine, patch_of_build hfile, by rw [happly]⟩

theorem Site.Restores.sound (h : s.Restores e f) : s.Sound e f := by
  refine ⟨fun hstops hours pristine hdiverted => ?_, fun hbuilds left hinstall => ?_⟩
  · have hreal := h.reused hours (by rw [applyOne_of_stops hstops]) pristine hdiverted
    rwa [applyOne_of_stops hstops] at hreal
  · obtain ⟨pristine, file, hpristine, -, happly⟩ := applyOne_built hbuilds
    have hfalse : (s.applyOne e f).1 = false := by
      rw [happly, hinstall]
      rfl
    obtain ⟨_, -, -, hne⟩ := Site.divert_of_not_stops hbuilds.goes
    cases hdiverter : s.diverter with
    | nobody =>
      have hleft := (h.plain hdiverter hfalse).1
      rw [happly] at hleft
      cases hleft
    | pveExt =>
      have hdiverted : s.diverted = some pristine := by rwa [Site.pristine, if_pos hdiverter] at hpristine
      have hleft := h.reused hdiverter hfalse pristine hdiverted
      rw [happly, hinstall] at hleft
      exact ⟨rfl, hleft.trans hdiverted.symm⟩
    | other toCopy => exact absurd hdiverter (hne toCopy)

/-- A failed apply restores what it found if and only if the live file is not stale where it stops before the copy, and
    `install` does not fail, or leaves that file as it is to be. -/
theorem restores_iff (e : Entry) (f : Failing) (s : Site) (hrm : f.rm = false) (hremove : f.remove = false)
    (hrestore : f.restore = .ok) : s.Restores e f ↔ s.Sound e f :=
  ⟨Site.Restores.sound, Site.Sound.restores hrm hremove hrestore⟩

section Samples

/-- A file that is patched, and whose package was upgraded since. -/
def staleSite : Site := ⟨textOf 2, .pveExt, some ⟨#[1, 0]⟩, some (textOf 2)⟩

def installedSite : Site := ⟨textOf 1, .nobody, some (textOf 1), none⟩

theorem restores_iff_stale : staleSite.Restores sample { Failing.none with check := true } := by
  refine (restores_iff sample { Failing.none with check := true } staleSite rfl rfl rfl).mpr ⟨?_, by rintro - _ ⟨⟩⟩
  rintro (h | h) <;> cases h

/-- The old patch stays where the diff is gone; and the diversion stays where `install` fails. -/
theorem not_restored : ¬ staleSite.Restores sample { Failing.none with diff := true } ∧
    ¬ installedSite.Restores sample { Failing.none with install := .failed none } := by
  refine ⟨fun h => ?_, fun h => ?_⟩
  · have hreal : some (⟨#[1, 0]⟩ : ByteArray) = some (textOf 2) := h.reused rfl rfl (textOf 2) rfl
    exact absurd hreal (by decide)
  · cases (h.plain rfl rfl).1

end Samples

end ManagedPatch
end PveMeta
