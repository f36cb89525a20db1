import PveMeta.Guest.Sample
import PveMeta.Theorems.GuestPaths

/-! # What a guest's path says

A path that is accepted is where its text says, in plain names; and the temp file beside it is nothing that another path
can name. -/

namespace PveMeta
namespace Guest

/-- One path leads through the other. -/
def Above (a b : Text) : Prop := ∃ rest, b = a ++ '/' :: rest

/-- The two are in one directory. -/
def Siblings (a b : Text) : Prop :=
  ∃ dir name name', '/' ∉ name ∧ '/' ∉ name' ∧ a = dir ++ '/' :: name ∧ b = dir ++ '/' :: name'

/-- A path that is where it says, whatever reads it. -/
structure Plain (p : Text) : Prop where
  absolute : ∃ rest, p = '/' :: rest ∧ ∀ name ∈ rest.splitOn '/', name ≠ [] ∧ name ≠ ['.'] ∧ name ≠ ['.', '.']
  chars : ∀ c ∈ p, isSegmentChar c = true ∨ c = '.' ∨ c = '/'
  unquoted : ∀ c ∈ "'\"\n".toList, c ∉ p
  roots : ∀ root ∈ forbiddenRoots, p ≠ root ∧ ¬ Above root p
  manifest : p ≠ manifestPath ∧ ¬ Above p manifestPath ∧ ¬ Above manifestPath p

/-! ### The names of a path -/

theorem segmentProblem_eq_none {segment : Text} (h : segmentProblem segment = none) :
    (segment ≠ [] ∧ segment ≠ ['.'] ∧ segment ≠ ['.', '.']) ∧ ∀ c ∈ segment, isSegmentChar c = true ∨ c = '.' := by
  unfold segmentProblem at h
  split at h
  · cases h
  · next hempty =>
    split at h
    · cases h
    · next hdots =>
      split at h
      · cases h
      · next hchars =>
        refine ⟨⟨hempty, not_or.mp hdots⟩, fun c hc => ?_⟩
        have := List.find?_eq_none.mp hchars c hc
        by_cases hdot : c = '.'
        · exact .inr hdot
        · exact .inl (by simpa [hdot] using this)

theorem isAtOrUnder_eq_false {a b : Text} : isAtOrUnder a b = false ↔ b ≠ a ∧ ¬ Above a b := by
  rw [isAtOrUnder, Bool.or_eq_false_iff, beq_eq_false_iff_ne, ne_comm, Bool.eq_false_iff]
  exact and_congr_right' (not_congr isUnder_iff)

theorem roots_of_pathProblem {p : Text} (h : pathProblem p = none) :
    ∀ root ∈ forbiddenRoots, isAtOrUnder root p = false := by
  unfold pathProblem at h
  split at h
  · split at h
    · cases h
    · split at h
      · cases h
      · split at h
        · cases h
        · next hroots => exact fun root hroot => Bool.eq_false_iff.mpr (List.find?_eq_none.mp hroots root hroot)
  · cases h

theorem plain_of_pathProblem {p : Text} (h : pathProblem p = none) : Plain p := by
  obtain ⟨rest, rfl, hsegments⟩ := segments_of_pathProblem h
  have hchars : ∀ c ∈ '/' :: rest, isSegmentChar c = true ∨ c = '.' ∨ c = '/' := by
    intro c hc
    rw [cons_eq_flatMap_splitOn] at hc
    obtain ⟨name, hname, hc⟩ := List.mem_flatMap.mp hc
    rcases List.mem_cons.mp hc with rfl | hc
    · exact .inr (.inr rfl)
    · rcases (segmentProblem_eq_none (hsegments name hname)).2 c hc with hchar | hdot
      · exact .inl hchar
      · exact .inr (.inl hdot)
  constructor
  · exact ⟨rest, rfl, fun name hname => (segmentProblem_eq_none (hsegments name hname)).1⟩
  · exact hchars
  · intro c hc hmem
    have hbad : ∀ c ∈ "'\"\n".toList, ¬ (isSegmentChar c = true ∨ c = '.' ∨ c = '/') := by simp [isSegmentChar,
      Char.isAlphanum, Char.isAlpha, Char.isUpper, Char.isLower, Char.isDigit]
    exact hbad c hc (hchars c hmem)
  · exact fun root hroot => isAtOrUnder_eq_false.mp (roots_of_pathProblem h root hroot)
  · obtain ⟨hat, hunder⟩ := manifest_of_pathProblem h
    obtain ⟨hne, habove⟩ := isAtOrUnder_eq_false.mp hat
    refine ⟨hne.symm, habove, fun hbelow => ?_⟩
    rw [isUnder_iff.mpr hbelow] at hunder
    cases hunder

/-! ### The temp file beside it -/

theorem tempFor_append (dir : Text) {name : Text} (h : '/' ∉ name) :
    tempFor (dir ++ '/' :: name) = dir ++ '/' :: ('.' :: name ++ tempMark ++ ".tmp".toList) := by
  rw [tempFor_eq, splitName_append dir h]

theorem siblings_tempFor (dir : Text) {name : Text} (h : '/' ∉ name) :
    Siblings (tempFor (dir ++ '/' :: name)) (dir ++ '/' :: name) := by
  have hname := not_mem_tempName (dir ++ '/' :: name)
  rw [splitName_append dir h] at hname
  exact ⟨dir, _, name, hname, h, tempFor_append dir h, rfl⟩

/-- Files in directories have their temp files to themselves. -/
theorem tempFor_inj {dir dir' name name' : Text} (h : '/' ∉ name) (h' : '/' ∉ name')
    (heq : tempFor (dir ++ '/' :: name) = tempFor (dir' ++ '/' :: name')) : dir ++ '/' :: name = dir' ++ '/' :: name' := by
  have hname := not_mem_tempName (dir ++ '/' :: name)
  have hname' := not_mem_tempName (dir' ++ '/' :: name')
  rw [splitName_append dir h] at hname
  rw [splitName_append dir' h'] at hname'
  have hsplit := congrArg splitName heq
  rw [tempFor_append dir h, tempFor_append dir' h', splitName_append dir hname, splitName_append dir' hname',
    Prod.mk.injEq] at hsplit
  obtain ⟨rfl, htemp⟩ := hsplit
  rw [List.append_assoc, List.append_assoc, List.append_left_inj, List.cons_inj_right] at htemp
  exact congrArg (dir ++ '/' :: ·) htemp

theorem not_reserved_of_pathProblem {p : Text} (h : pathProblem p = none) : ¬ Reserved p := GuestPath.not_reserved ⟨p, h⟩

section

variable [RustDebug]

/-- The string of an entry or a record is accepted as the path. -/
def GuestPath.Accepts (s : Text) (p : GuestPath) : Prop := GuestPath.parse s = .ok p ∨ GuestPath.absolute s = .ok p

theorem GuestPath.text_of_accepts {s : Text} {p : GuestPath} (h : Accepts s p) :
    p.text = s ∨ s.head? ≠ some '/' ∧ p.text = guestRoot ++ '/' :: s := by
  rcases h with h | h
  · unfold parse at h
    split at h
    · cases h
    · have htext := Manifest.text_of_absolute (Except.mapError_eq_ok.mp h)
      split at htext
      · exact .inl htext
      · next hhead => exact .inr ⟨hhead, htext⟩
  · exact .inl (Manifest.text_of_absolute h)

/-- A path that is accepted is the string that it was accepted from, or that string under the guest's root; it is where it
    says; and its temp file is beside it, none of another path, and itself not a path. -/
theorem GuestPath.names_where_it_is {s : Text} {p : GuestPath} (hp : Accepts s p) :
    (p.text = s ∨ s.head? ≠ some '/' ∧ p.text = guestRoot ++ '/' :: s) ∧ Plain p.text ∧
      Siblings (tempFor p.text) p.text ∧ (∀ t q, Accepts t q → tempFor p.text = tempFor q.text → p = q) ∧
      tempFor p.text ≠ tempFor manifestPath ∧
      ∀ temp ∈ [tempFor p.text, tempFor manifestPath], pathProblem temp ≠ none ∧ ∀ u r, Accepts u r → r.text ≠ temp := by
  have hplain := plain_of_pathProblem p.valid
  obtain ⟨dir, name, hname, htext, -⟩ := p.parent
  have hmanifest : manifestPath = guestRoot ++ '/' :: manifestName := rfl
  refine ⟨text_of_accepts hp, hplain, ?_, fun _ q _ heq => ?_, fun heq => ?_, fun temp htemp => ?_⟩
  · rw [htext]
    exact siblings_tempFor dir hname.2.1
  · obtain ⟨dir', name', hname', htext', -⟩ := q.parent
    rw [htext, htext'] at heq
    have := tempFor_inj hname.2.1 hname'.2.1 heq
    rw [← htext, ← htext'] at this
    exact ext_text this
  · rw [htext, hmanifest] at heq
    have := tempFor_inj hname.2.1 (by decide) heq
    rw [← htext, ← hmanifest] at this
    exact hplain.manifest.1 this
  · have hreserved : Reserved temp := by
      rcases List.mem_cons.mp htemp with rfl | htemp
      · exact reserved_tempFor p.text
      · rw [List.mem_singleton.mp htemp]
        exact reserved_tempFor manifestPath
    refine ⟨fun h => not_reserved_of_pathProblem h hreserved, fun u r _ heq => ?_⟩
    rw [← heq] at hreserved
    exact r.not_reserved hreserved

end

open GuestSample in
theorem GuestPath.names_where_it_is_app : Plain appPath.text ∧ tempFor appPath.text ≠ tempFor manifestPath :=
  have h := @names_where_it_is rustDebug "app".toList appPath (.inl (by rfl))
  ⟨h.2.1, h.2.2.2.2.1⟩

end Guest
end PveMeta
