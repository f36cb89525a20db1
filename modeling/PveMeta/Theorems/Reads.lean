import PveMeta.Theorems.Places
import PveMeta.Theorems.DryRun

/-! # A read as a function of the file

What `read_stored` answers depends on the file a read finds and on nothing else of the store, and the
precondition of a write compares with that file's identity. Both say so only while reads do not fail; one
that fails answers nothing. -/

namespace PveMeta
open MetaStore

section

variable [Deps] {s : MetaStore} {d : DocId} {f : File} {raw : Text} {w : Tree}

namespace MetaStore

/-- The identity of the content a read finds, empty for none. -/
def identity (s : MetaStore) (d : DocId) : String := ((s.content d).map identityOf).getD ""

theorem identityOf_of_le (h : f.bytes.size ≤ maxReadBytes) : identityOf f = digest f.bytes := by
  rw [identityOf, if_neg (Nat.not_lt.mpr h)]

theorem identityOf_ne_empty (f : File) : identityOf f ≠ "" := by
  unfold identityOf digest
  split <;> exact Deps.sha256Hex_ne_empty _

omit [Deps] in
theorem checkAvailable_eq_ok : s.checkAvailable = .ok () ↔ s.unavailable = none := by
  unfold checkAvailable
  cases s.unavailable <;> simp

omit [Deps] in
theorem stat_eq_ok {p : FsPath} {o : Option File} : s.stat p = .ok o ↔ s.readFault = none ∧ o = Assoc.get? p s.files := by
  unfold stat
  cases s.readFault with
  | none => simp [eq_comm]
  | some msg => simp

theorem digestOf_of_readable (h : s.Readable) : s.digestOf d = .ok ((s.content d).map identityOf) := by
  simp only [digestOf, checkAvailable_eq_ok.mpr h.available, Except.ok_bind, identify, stat, h.reads,
    get?_readPathFor h.reads]
  rfl

theorem readable_of_digestOf {o : Option String} (h : s.digestOf d = .ok o) : s.Readable := by
  obtain ⟨_, ha, h⟩ := Except.bind_eq_ok.mp h
  obtain ⟨file, hstat, -⟩ := Except.bind_eq_ok.mp h
  exact ⟨checkAvailable_eq_ok.mp ha, (stat_eq_ok.mp hstat).1⟩

omit [Deps] in
theorem checkDigest_eq_ok {o : Option String} {expected : String} :
    checkDigest o (some expected) = .ok () ↔ o.getD "" = expected := by
  unfold checkDigest
  dsimp only
  split
  · next h => simp [h]
  · next h => simp [h]

/-- A precondition that holds has found the content whose identity it names. -/
theorem checkPrecondition_eq_ok {expected : String} :
    s.checkPrecondition d (some expected) = .ok () ↔ s.Readable ∧ s.identity d = expected := by
  rw [checkPrecondition, if_neg (by simp)]
  constructor
  · intro h
    obtain ⟨o, ho, h⟩ := Except.bind_eq_ok.mp h
    have hread := readable_of_digestOf ho
    rw [digestOf_of_readable hread] at ho
    cases ho
    exact ⟨hread, checkDigest_eq_ok.mp h⟩
  · rintro ⟨hread, h⟩
    rw [digestOf_of_readable hread]
    exact checkDigest_eq_ok.mpr h

omit [Deps] in
theorem hasOwnFile_of_readable (h : s.Readable) : s.hasOwnFile d = .ok (s.own d).isSome := by
  simp only [hasOwnFile, checkAvailable_eq_ok.mpr h.available, Except.ok_bind, stat, h.reads, own]
  rfl

theorem read_of_readable (h : s.Readable) : s.read d =
    match s.content d with
    | none => .error (.notFound d)
    | some f => parseDocument d (s.readPathFor d) f := by
  have hstat : s.stat (s.readPathFor d) = .ok (s.content d) := stat_eq_ok.mpr ⟨h.reads, (get?_readPathFor h.reads).symm⟩
  cases hc : s.content d with
  | none => simp only [read, checkAvailable_eq_ok.mpr h.available, Except.ok_bind, readDocument, hstat, hc]
  | some f => simp only [read, checkAvailable_eq_ok.mpr h.available, Except.ok_bind, readDocument, hstat, hc]

/-- A read fails otherwise, whether or not there is a document. -/
theorem read_of_not_readable (h : ¬ s.Readable) (d : DocId) :
    (∃ why, s.read d = .error (.unavailable why)) ∨ ∃ why, s.read d = .error (.io why) := by
  cases havailable : s.unavailable with
  | some why => exact .inl ⟨why, by simp only [read, checkAvailable, havailable, Except.error_bind]⟩
  | none =>
    obtain ⟨why, hfault⟩ := Option.ne_none_iff_exists'.mp fun hreads => h ⟨havailable, hreads⟩
    refine .inr ⟨why, ?_⟩
    simp only [read, checkAvailable, havailable, Except.ok_bind, readDocument, stat, hfault, Except.error_bind]

end MetaStore

namespace Api

/-- What a read makes of the file it finds. -/
def storedOf : Option File → Stored
  | none => Stored.absent
  | some f =>
    if f.bytes.size > maxReadBytes then
      unrecoverable (identityOf f) none (Error.tooLarge f.bytes.size maxReadBytes).display
    else
      match Text.decode? f.bytes with
      | none => unrecoverable (identityOf f) none
          (Error.parse diskFormat ("invalid utf-8: " ++ Deps.utf8Error f.bytes) none).display
      | some raw =>
        match diskFormat.parseRaw raw with
        | .error e => unrecoverable (digest f.bytes) (some raw) e.display
        | .ok v =>
          if h : v.val.isObject = true then ⟨v, digest f.bytes, none, some raw, h⟩
          else unrecoverable (digest f.bytes) (some raw) "the stored document is not a mapping"

theorem readStored_of_readable (h : s.Readable) : readStored s d = .ok (storedOf (s.content d)) := by
  rw [readStored, read_of_readable h, digestOf_of_readable h]
  cases hc : s.content d with
  | none => rfl
  | some f =>
    by_cases hsize : f.bytes.size > maxReadBytes
    · simp only [parseDocument, checkReadSize, storedOf, hsize, if_true, Except.error_bind]
      rfl
    · simp only [parseDocument, checkReadSize, storedOf, hsize, if_false, Except.ok_bind]
      cases hraw : Text.decode? f.bytes with
      | none => rfl
      | some raw =>
        cases hp : diskFormat.parseRaw raw with
        | error e =>
          simp only [hp]
          rfl
        | ok v =>
          simp only [hp, pure, Except.pure]
          split <;> rfl

/-- A read that answers does not fail, and answers what the file says. -/
theorem readStored_eq_ok {st : Stored} (h : readStored s d = .ok st) : s.Readable ∧ st = storedOf (s.content d) := by
  have hread : s.Readable := by
    by_contra hnot
    rcases MetaStore.read_of_not_readable hnot d with ⟨why, hwhy⟩ | ⟨why, hwhy⟩
    · rw [readStored, hwhy] at h
      cases h
    · rw [readStored, hwhy] at h
      cases h
  rw [readStored_of_readable hread, Except.ok.injEq] at h
  exact ⟨hread, h.symm⟩

/-- What a read has of a file: its document and its text, or a reason, and its text if there is one. -/
theorem storedOf_cases (f : File) :
    (∃ raw w, ∃ hobj : w.val.isObject = true, f.bytes.size ≤ maxReadBytes ∧ f.bytes = Text.encode raw ∧
      diskFormat.parseRaw raw = .ok w ∧ storedOf (some f) = ⟨w, digest f.bytes, none, some raw, hobj⟩) ∨
    ∃ raw err, storedOf (some f) = unrecoverable (identityOf f) raw err ∧
      ∀ t, raw = some t → f.bytes.size ≤ maxReadBytes ∧ f.bytes = Text.encode t := by
  rw [storedOf]
  split
  · exact Or.inr ⟨none, _, rfl, by rintro t ⟨⟩⟩
  · next hsize =>
    have hle := Nat.le_of_not_lt hsize
    have hid := identityOf_of_le hle
    cases hraw : Text.decode? f.bytes with
    | none => exact Or.inr ⟨none, _, rfl, by rintro t ⟨⟩⟩
    | some raw =>
      have hbytes : f.bytes = Text.encode raw := (Text.encode_of_decode? hraw).symm
      have htext : ∀ t, some raw = some t → f.bytes.size ≤ maxReadBytes ∧ f.bytes = Text.encode t := by
        rintro t ⟨⟩
        exact ⟨hle, hbytes⟩
      cases hparse : diskFormat.parseRaw raw with
      | error e => exact Or.inr ⟨some raw, e.display, by simp only [hparse, hid], htext⟩
      | ok w =>
        by_cases hobj : w.val.isObject = true
        · exact Or.inl ⟨raw, w, hobj, hle, hbytes, hparse, by simp only [hparse, dif_pos hobj]⟩
        · exact Or.inr ⟨some raw, "the stored document is not a mapping", by simp only [hparse, dif_neg hobj, hid], htext⟩

theorem digest_storedOf (o : Option File) : (storedOf o).digest = (o.map identityOf).getD "" := by
  cases o with
  | none => rfl
  | some f =>
    rcases storedOf_cases f with ⟨raw, w, hobj, hsize, -, -, hst⟩ | ⟨raw, err, hst, -⟩
    · rw [hst]
      exact (identityOf_of_le hsize).symm
    · rw [hst]
      rfl

theorem digest_storedOf_content : (storedOf (s.content d)).digest = s.identity d := digest_storedOf _

theorem storedOf_raw {o : Option File} (h : (storedOf o).raw = some raw) :
    ∃ f, o = some f ∧ f.bytes.size ≤ maxReadBytes ∧ f.bytes = Text.encode raw := by
  cases o with
  | none => cases h
  | some f =>
    refine ⟨f, rfl, ?_⟩
    rcases storedOf_cases f with ⟨raw', w, hobj, hsize, hbytes, -, hst⟩ | ⟨raw', err, hst, htext⟩
    · rw [hst] at h
      cases h
      exact ⟨hsize, hbytes⟩
    · rw [hst] at h
      exact htext raw h

/-- What can be read back was read from a file that holds its text, or is not there. -/
theorem storedOf_readable {o : Option File} (h : (storedOf o).unrecoverable = none) :
    (o = none ∧ storedOf o = Stored.absent) ∨
    ∃ f raw w, ∃ hobj : w.val.isObject = true, o = some f ∧ f.bytes.size ≤ maxReadBytes ∧ f.bytes = Text.encode raw ∧
      diskFormat.parseRaw raw = .ok w ∧ storedOf o = ⟨w, digest f.bytes, none, some raw, hobj⟩ := by
  cases o with
  | none => exact Or.inl ⟨rfl, rfl⟩
  | some f =>
    rcases storedOf_cases f with ⟨raw, w, hobj, hread⟩ | ⟨raw, err, hst, -⟩
    · exact Or.inr ⟨f, raw, w, hobj, rfl, hread⟩
    · rw [hst] at h
      cases h

theorem storedOf_of_parse (hsize : f.bytes.size ≤ maxReadBytes) (hraw : Text.decode? f.bytes = some raw)
    (hparse : diskFormat.parseRaw raw = .ok w) (hobj : w.val.isObject = true) :
    storedOf (some f) = ⟨w, digest f.bytes, none, some raw, hobj⟩ := by
  simp only [storedOf, if_neg (Nat.not_lt.mpr hsize), hraw, hparse, hobj, dif_pos]

end Api

end

end PveMeta
