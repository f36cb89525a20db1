import PveMeta.Theorems.GuestDecided
import PveMeta.Theorems.GuestNames

/-! # Collisions, entry by entry

An entry of a document is refused for its path exactly if another entry would be a file that cannot be there with it,
whatever becomes of that other entry. -/

namespace PveMeta
namespace Guest

section

variable [Deps] {rows : List Resolved} {i j : Nat} {d e : Desired}

/-- Only one of the two can be a file. -/
def Exclude (p q : GuestPath) : Prop := p = q ∨ Above p.text q.text ∨ Above q.text p.text

/-- The entries at `i` and `j` would be files of which only one can be there. -/
structure ClashAt (rows : List Resolved) (i j : Nat) (d e : Desired) : Prop where
  ne : j ≠ i
  file : rows[i]? = some (.file d)
  other : rows[j]? = some (.file e)
  exclude : Exclude d.entry.path e.entry.path

omit [Deps] in
theorem collides_iff {p q : GuestPath} : collides p q = true ↔ Exclude p q := by
  rw [collides, Bool.or_eq_true, beq_iff_eq, GuestPath.nestsWith, Bool.or_eq_true, isUnder_iff, isUnder_iff]
  rfl

/-- An entry has no clash of its own only if it clashes with no other. -/
theorem not_clashAt (h : clash rows i d.entry.path = none) (e : Desired) : ¬ ClashAt rows i j d e := by
  intro hat
  have hfree := clash_eq_none h hat.ne hat.other
  rw [collides_iff.mpr hat.exclude] at hfree
  cases hfree

/-- What is refused is refused for the first other entry that it clashes with. -/
theorem refused_of_clashAt (h : ClashAt rows i j d e) : ∃ j' e', ClashAt rows i j' d e' ∧
    (refuseCollisions rows)[i]? = some (.refused d.entry.name (collisionError d.entry.path e'.entry.name)) := by
  cases hclash : clash rows i d.entry.path with
  | none => exact absurd h (not_clashAt hclash e)
  | some other =>
    obtain ⟨j', e', hne, hother, rfl, hcollides⟩ := clash_eq_some hclash
    exact ⟨j', e', ⟨hne, h.file, hother, collides_iff.mp hcollides⟩, refuseCollisions_of_clash h.file hclash⟩

theorem kept_of_not_clashAt (h : ∀ j d e, ¬ ClashAt rows i j d e) : (refuseCollisions rows)[i]? = rows[i]? := by
  refine refuseCollisions_of_none fun d hd => ?_
  cases hclash : clash rows i d.entry.path with
  | none => rfl
  | some other =>
    obtain ⟨j, e, hne, hother, -, hcollides⟩ := clash_eq_some hclash
    exact absurd ⟨hne, hd, hother, collides_iff.mp hcollides⟩ (h j d e)

/-- The entries of a document, each judged alone. -/
def judgedAlone [RustDebug] (doc : Value) (map : Members) : List Resolved :=
  (map.filter fun e => ! isCommentKey e.1).map fun e => resolve doc e.1 e.2

/-- The files that are left exclude each other nowhere; an entry is refused for its path if and only if it clashes with
    another, judged alone; and all that clash with none are left, where they were. -/
theorem collisions_entry_by_entry [RustDebug] {doc tree : Value} {map : Members} (hkey : doc.get? documentKey = some tree)
    (hmap : tree.asObject = some map) : ∃ entries : List Resolved, GuestFiles.ofDocument doc = .entries entries ∧
      entries.length = (judgedAlone doc map).length ∧
      (∀ (i j : Nat) (d e : Desired), i ≠ j → entries[i]? = some (.file d) → entries[j]? = some (.file e) →
        ¬ Exclude d.entry.path e.entry.path) ∧
      ∀ i : Nat, (entries[i]? ≠ (judgedAlone doc map)[i]? ↔ ∃ j d e, ClashAt (judgedAlone doc map) i j d e) ∧
        ∀ (j : Nat) (d e : Desired), ClashAt (judgedAlone doc map) i j d e →
          ∃ j' e', ClashAt (judgedAlone doc map) i j' d e' ∧
          entries[i]? = some (.refused d.entry.name (collisionError d.entry.path e'.entry.name)) := by
  refine ⟨refuseCollisions (judgedAlone doc map), ?_, ?_, ?_, fun i => ⟨⟨fun hne => ?_, ?_⟩, ?_⟩⟩
  · rw [GuestFiles.ofDocument, hkey]
    simp only [hmap]
    rfl
  · simp [refuseCollisions]
  · intro i j d e hij hd he hexclude
    obtain ⟨hd, hclash⟩ := file_of_refuseCollisions hd
    exact not_clashAt hclash e ⟨hij.symm, hd, (file_of_refuseCollisions he).1, hexclude⟩
  · by_contra hnone
    simp only [not_exists] at hnone
    exact hne (kept_of_not_clashAt hnone)
  · rintro ⟨j, d, e, hat⟩ hsame
    obtain ⟨_, _, _, hrefused⟩ := refused_of_clashAt hat
    rw [hrefused, hat.file] at hsame
    cases hsame
  · exact fun j d e hat => refused_of_clashAt hat

end

open Sample GuestSample

/-- Two entries for the file `app`. -/
def twice : Members :=
  ["a", "b"].map fun name => (name, .object [("view", .string "v"), ("path", .string "app"), ("format", .string "raw")])

def twiceFile (name : String) : Desired :=
  .of ⟨name, some ["v"], appPath, .raw, 0o444, .root, .keep, userSource name⟩ (Text.encode "x".toList)

theorem collisions_entry_by_entry_twice :
    ∃ entries : List Resolved,
      GuestFiles.ofDocument (.object [("v", .string "x"), ("guest-files", .object twice)]) = .entries entries ∧
      ∃ e : Desired, entries[0]? = some (.refused "a" (collisionError appPath e.entry.name)) := by
  obtain ⟨entries, h, -, -, hentries⟩ := @collisions_entry_by_entry _ _
    (.object [("v", .string "x"), ("guest-files", .object twice)]) (.object twice) twice (by rfl) (by rfl)
  obtain ⟨_, e, -, hrefused⟩ := (hentries 0).2 1 (twiceFile "a") (twiceFile "b") ⟨by decide, by rfl, by rfl, .inl rfl⟩
  exact ⟨entries, h, e, hrefused⟩

end Guest
end PveMeta
