import PveMeta.Store
import PveMeta.Lib.Decimal
import PveMeta.Lib.Except

/-! # A guest's files

The document and the snapshot copies of a guest have places of their own, so a write of the one leaves the
others, and a purge takes them all and nothing else. The results hold while no file operation fails. -/

namespace PveMeta
namespace MetaStore

/-- The cluster file system is there, and none of its operations fails. -/
structure FaultFree (s : MetaStore) : Prop where
  available : s.unavailable = none
  reads : s.readFault = none
  writes : s.writeFault = none

theorem FaultFree.withFiles {s : MetaStore} (h : s.FaultFree) (files : List (FsPath × File)) :
    ({ s with files } : MetaStore).FaultFree :=
  ⟨h.available, h.reads, h.writes⟩

/-- The place of a guest's document. -/
def docPath (vmid : UInt32) : FsPath := .root (fileName (.guest vmid))

@[simp] theorem pathFor_guest (s : MetaStore) (vmid : UInt32) : s.pathFor (.guest vmid) = docPath vmid := rfl

@[simp] theorem readPathFor_guest (s : MetaStore) (vmid : UInt32) : s.readPathFor (.guest vmid) = docPath vmid := rfl

/-! ### Places -/

theorem dot_not_mem_decimal (n : Nat) : '.' ∉ (DocId.decimal n).toList := by
  intro h
  have hdigit := List.all_eq_true.mp (Decimal.all_isDigit_toDigits n) '.' (by simpa [DocId.decimal] using h)
  exact absurd hdigit (by decide)

theorem toList_fileName_guest (vmid : UInt32) :
    (fileName (.guest vmid)).toList = (DocId.decimal vmid.toNat).toList ++ ".yaml".toList := by
  simp [fileName, DocId.baseName, diskFormat, Format.ext]

theorem snapshotPath_ne_docPath (v w : UInt32) (name : String) : snapshotPath v name ≠ docPath w := by
  intro h
  have hfile := congrArg String.toList (FsPath.root.inj h)
  rw [toList_fileName_guest] at hfile
  simp only [String.toList_append, diskFormat, Format.ext] at hfile
  have hbase : (DocId.decimal v.toNat).toList ++ ".".toList ++ name.toList = (DocId.decimal w.toNat).toList := by
    have hext : (DocId.decimal v.toNat).toList ++ ".".toList ++ name.toList ++ ".yaml".toList =
        (DocId.decimal w.toNat).toList ++ ".yaml".toList := by
      rw [← hfile]
      simp
    exact List.append_cancel_right hext
  refine dot_not_mem_decimal w.toNat ?_
  rw [← hbase]
  simp

theorem docPath_injective {v w : UInt32} (h : docPath v = docPath w) : v = w := by
  have hfile := congrArg String.toList (FsPath.root.inj h)
  rw [toList_fileName_guest, toList_fileName_guest] at hfile
  have hdigits := List.append_cancel_right hfile
  simp only [DocId.decimal, String.toList_ofList] at hdigits
  exact UInt32.toNat_inj.mp (Decimal.toDigits_injective hdigits)

theorem snapshotPath_injective {v w : UInt32} {m n : String} (h : snapshotPath v m = snapshotPath w n) : v = w ∧ m = n := by
  have hfile := congrArg String.toList (FsPath.root.inj h)
  have hsplit : (DocId.decimal v.toNat).toList ++ '.' :: (m.toList ++ ".yaml".toList) =
      (DocId.decimal w.toNat).toList ++ '.' :: (n.toList ++ ".yaml".toList) := by
    simpa [diskFormat, Format.ext] using hfile
  obtain ⟨hv, hm⟩ := Text.append_cons_inj (dot_not_mem_decimal _) (dot_not_mem_decimal _) hsplit
  simp only [DocId.decimal, String.toList_ofList] at hv
  exact ⟨UInt32.toNat_inj.mp (Decimal.toDigits_injective hv), String.toList_inj.mp (List.append_cancel_right hm)⟩

theorem dot_not_mem_of_fromExt {ext : String} {fmt : Format} (h : Format.fromExt ext = some fmt) : '.' ∉ ext.toList := by
  intro hmem
  have hlow : '.' ∈ (String.ofList (ext.toList.map Char.toLower)).toList := by
    rw [String.toList_ofList]
    exact List.mem_map_of_mem hmem
  unfold Format.fromExt at h
  dsimp only at h
  split at h
  · next hy =>
    rcases hy with hy | hy <;> rw [hy] at hlow <;> exact absurd hlow (by decide)
  · split at h
    · next hj =>
      rw [hj] at hlow
      exact absurd hlow (by decide)
    · cases h

/-- The listing knows a copy by its name, whatever spelling its extension has. -/
theorem snapshotOf_of_fromExt {vmid : UInt32} {name ext : String} (hname : isValidSnapshotName name = true)
    (hext : Format.fromExt ext = some diskFormat) :
    snapshotOf vmid (DocId.decimal vmid.toNat ++ "." ++ name ++ "." ++ ext) = some name := by
  have hchars : (DocId.decimal vmid.toNat ++ "." ++ name ++ "." ++ ext).toList =
      (DocId.decimal vmid.toNat ++ ".").toList ++ (name.toList ++ '.' :: ext.toList) := by
    simp
  have hhead : ((DocId.decimal vmid.toNat ++ ".").toList ++ (name.toList ++ '.' :: ext.toList)).head? ≠ some '.' := by
    intro h
    obtain ⟨d, ds, hd⟩ := List.exists_cons_of_ne_nil (show (DocId.decimal vmid.toNat).toList ≠ [] by
      simp [DocId.decimal])
    rw [String.toList_append, hd] at h
    obtain rfl : d = '.' := by simpa using h
    exact dot_not_mem_decimal vmid.toNat (hd ▸ List.mem_cons_self)
  have hsplit : Text.splitOnce '.' (name.toList ++ '.' :: ext.toList).reverse =
      some (ext.toList.reverse, name.toList.reverse) := by
    have hdot : '.' ∉ ext.toList.reverse := by simpa using dot_not_mem_of_fromExt hext
    simpa using Text.splitOnce_append hdot name.toList.reverse
  rw [snapshotOf, hchars, if_neg hhead, Text.stripPrefix_append]
  simp only [Option.bind_eq_bind, Option.bind_some, hsplit, hext, List.reverse_reverse, String.ofList_toList, hname,
    and_self, if_true]

theorem snapshotOf_snapshotPath {vmid : UInt32} {name file : String} (hname : isValidSnapshotName name = true)
    (hfile : snapshotPath vmid name = .root file) : snapshotOf vmid file = some name := by
  obtain rfl := FsPath.root.inj hfile
  exact snapshotOf_of_fromExt hname rfl

theorem isValidSnapshotName_of_snapshotOf {vmid : UInt32} {file name : String} (h : snapshotOf vmid file = some name) :
    isValidSnapshotName name = true := by
  rw [snapshotOf] at h
  split at h
  · cases h
  · obtain ⟨rest, -, h⟩ := Option.bind_eq_some_iff.mp h
    obtain ⟨⟨ext, rev⟩, -, h⟩ := Option.bind_eq_some_iff.mp h
    dsimp only at h
    split at h
    · next hvalid =>
      cases h
      exact hvalid.2
    · cases h

/-! ### Deleting copies -/

/-- There is no copy of the guest's document under any name. -/
def NoCopies (vmid : UInt32) (files : List (FsPath × File)) : Prop :=
  ∀ name, isValidSnapshotName name = true → Assoc.get? (snapshotPath vmid name) files = none

variable {s : MetaStore} {vmid : UInt32}

theorem deleteSnapshots_eq (h : s.FaultFree) {names : List String} (hvalid : ∀ n ∈ names, isValidSnapshotName n = true)
    (removed : Nat) :
    ∃ n, deleteSnapshots vmid names removed s =
      (.ok n, { s with files := (names.map (snapshotPath vmid)).foldl (fun m p => Assoc.erase p m) s.files }) := by
  induction names generalizing s removed with
  | nil => exact ⟨removed, rfl⟩
  | cons name names ih =>
    obtain ⟨hname, hnames⟩ := List.forall_mem_cons.mp hvalid
    have hdelete : s.deleteSnapshot vmid name =
        (.ok (Assoc.get? (snapshotPath vmid name) s.files).isSome,
          { s with files := Assoc.erase (snapshotPath vmid name) s.files }) := by
      simp only [deleteSnapshot, checkAvailable, h.available, hname, if_true, removeFile, h.writes]
    obtain ⟨n, hn⟩ := ih (h.withFiles (Assoc.erase (snapshotPath vmid name) s.files)) hnames
      (if (Assoc.get? (snapshotPath vmid name) s.files).isSome then removed + 1 else removed)
    refine ⟨n, ?_⟩
    simp only [deleteSnapshots, hdelete, hn, List.map_cons, List.foldl_cons]

/-- Every name that some file of the root is a copy for. -/
theorem listSnapshots_eq (h : s.FaultFree) :
    ∃ names, s.listSnapshots vmid = .ok names ∧
      ∀ name, name ∈ names ↔ ∃ file f, (FsPath.root file, f) ∈ s.files ∧ snapshotOf vmid file = some name := by
  refine ⟨_, by simp only [listSnapshots, checkAvailable, h.available, h.reads]; rfl, fun name => ?_⟩
  rw [List.mem_insertionSort, List.mem_filterMap]
  constructor
  · rintro ⟨⟨p, f⟩, hmem, hname⟩
    cases p with
    | root file => exact ⟨file, f, hmem, hname⟩
    | prefixDir i file => cases hname
    | fallback file => cases hname
  · rintro ⟨file, f, hmem, hname⟩
    exact ⟨(.root file, f), hmem, hname⟩

/-- Deleting the snapshots that are listed deletes every copy, and nothing else. -/
theorem deleteListed (h : s.FaultFree) (removed : Nat) :
    ∃ names n files, s.listSnapshots vmid = .ok names ∧
      deleteSnapshots vmid names removed s = (.ok n, { s with files }) ∧ NoCopies vmid files ∧
      ∀ p, (∀ name, p ≠ snapshotPath vmid name) → Assoc.get? p files = Assoc.get? p s.files := by
  obtain ⟨names, hlist, hmem⟩ := @listSnapshots_eq s vmid h
  have hvalid : ∀ n ∈ names, isValidSnapshotName n = true := by
    intro n hn
    obtain ⟨file, f, -, hname⟩ := (hmem n).mp hn
    exact isValidSnapshotName_of_snapshotOf hname
  obtain ⟨n, hdelete⟩ := @deleteSnapshots_eq s vmid h names hvalid removed
  refine ⟨names, n, _, hlist, hdelete, fun name hname => ?_, fun p hp => ?_⟩
  · rw [Assoc.get?_foldl_erase]
    split
    · rfl
    · next hnot =>
      cases hget : Assoc.get? (snapshotPath vmid name) s.files with
      | none => rfl
      | some f =>
        have hfile := Assoc.mem_of_get? hget
        exact absurd (List.mem_map_of_mem ((hmem name).mpr ⟨_, f, hfile, snapshotOf_snapshotPath hname rfl⟩)) hnot
  · rw [Assoc.get?_foldl_erase, if_neg]
    rintro hmem
    obtain ⟨name, -, rfl⟩ := List.mem_map.mp hmem
    exact hp name rfl

/-- A purge takes the document and every copy, and nothing else. -/
theorem purge_eq (h : s.FaultFree) :
    ∃ n files, s.purge vmid = (.ok n, { s with files }) ∧ Assoc.get? (docPath vmid) files = none ∧
      NoCopies vmid files ∧
      ∀ p, p ≠ docPath vmid → (∀ name, p ≠ snapshotPath vmid name) → Assoc.get? p files = Assoc.get? p s.files := by
  have hdelete : s.delete (.guest vmid) =
      (.ok (Assoc.get? (docPath vmid) s.files).isSome, { s with files := Assoc.erase (docPath vmid) s.files }) := by
    simp only [delete, checkAvailable, h.available, removeFile, h.writes, pathFor_guest]
  obtain ⟨names, n, files, hlist, hrest, hcopies, hframe⟩ :=
    @deleteListed _ vmid (h.withFiles (Assoc.erase (docPath vmid) s.files))
      (if (Assoc.get? (docPath vmid) s.files).isSome then 1 else 0)
  refine ⟨n, files, ?_, ?_, hcopies, fun p hp hname => ?_⟩
  · simp only [purge, hdelete, hlist, hrest]
  · rw [hframe _ fun name heq => snapshotPath_ne_docPath vmid vmid name heq.symm, Assoc.get?_erase_self]
  · rw [hframe p hname, Assoc.get?_erase_ne hp]

/-! ### Writing and reading a document -/

section

variable [Deps] {id : DocId} {text : Text} {f : File} {raw : Text} {w : Tree}

omit [Deps] in
theorem checkSize_eq_ok {size : Nat} : checkSize size = .ok () ↔ size ≤ maxBytes := by
  unfold checkSize
  split <;> simp <;> omega

/-- What a write accepts is the text it was given, normalized. -/
theorem of_checkRaw {n : Text} {expected : Option String} (h : s.checkRaw id text expected = .ok (n, w)) :
    (∃ o, s.digestOf id = .ok o) ∧
      n = normalizeTrailingNewline text ∧ Text.byteLen n ≤ maxBytes ∧ Format.yaml.parse n = .ok w := by
  obtain ⟨_, -, h⟩ := Except.bind_eq_ok.mp h
  obtain ⟨o, ho, h⟩ := Except.bind_eq_ok.mp h
  obtain ⟨_, -, h⟩ := Except.bind_eq_ok.mp h
  obtain ⟨_, hsize, h⟩ := Except.bind_eq_ok.mp h
  obtain ⟨v, hparse, h⟩ := Except.bind_eq_ok.mp h
  cases h
  exact ⟨⟨o, ho⟩, rfl, checkSize_eq_ok.mp hsize, hparse⟩

/-- Without a digest to check, a write is refused for its size or its content only. -/
theorem checkRaw_eq_ok (h : s.FaultFree) {n : Text} :
    s.checkRaw id text none = .ok (n, w) ↔
      n = normalizeTrailingNewline text ∧ Text.byteLen n ≤ maxBytes ∧ Format.yaml.parse n = .ok w := by
  refine ⟨fun heq => (of_checkRaw heq).2, ?_⟩
  rintro ⟨rfl, hsize, hparse⟩
  have hdig : s.digestOf id = .ok ((Assoc.get? (s.readPathFor id) s.files).map identityOf) := by
    simp only [digestOf, checkAvailable, h.available, identify, stat, h.reads]
    rfl
  have hcheck : s.checkRaw id text none =
      (checkSize (Text.byteLen (normalizeTrailingNewline text)) >>= fun _ =>
        Format.yaml.parse (normalizeTrailingNewline text) >>= fun v => .ok (normalizeTrailingNewline text, v)) := by
    simp only [checkRaw, checkAvailable, h.available, hdig]
    rfl
  rw [hcheck, checkSize_eq_ok.mpr hsize, hparse]
  rfl

theorem putRaw_of_error {e : Error} {expected : Option String} (h : s.checkRaw id text expected = .error e) :
    s.putRaw id text expected = (.error e, s) := by
  simp only [putRaw, h]

theorem putRaw_of_ok (h : s.FaultFree) {n : Text} {expected : Option String}
    (hcheck : s.checkRaw id text expected = .ok (n, w)) :
    s.putRaw id text expected =
      (.ok ⟨id, s.pathFor id, n, w, none, digest (Text.encode n), s.now⟩,
        { s with files := Assoc.insert (s.pathFor id) ⟨Text.encode n, s.now⟩ s.files }) := by
  simp [putRaw, hcheck, writeAtomic, h.writes, stat, h.reads, Except.map]

theorem read_guest (h : s.FaultFree) (hf : Assoc.get? (docPath vmid) s.files = some f)
    (hsize : f.bytes.size ≤ maxReadBytes) (hraw : Text.decode? f.bytes = some raw)
    (hparse : Format.yaml.parseRaw raw = .ok w) :
    s.read (.guest vmid) = .ok ⟨.guest vmid, docPath vmid, raw, w, none, digest f.bytes, f.mtime⟩ := by
  have hcheck : checkReadSize f.bytes.size = .ok () := by
    rw [checkReadSize, if_neg (Nat.not_lt.mpr hsize)]
  simp only [read, checkAvailable, h.available, readDocument, stat, h.reads, readPathFor_guest, hf, Except.ok_bind,
    parseDocument, hcheck, hraw, diskFormat, hparse]
  rfl

theorem read_guest_eq_ok {doc : Document} (h : s.read (.guest vmid) = .ok doc) :
    ∃ f, Assoc.get? (docPath vmid) s.files = some f ∧ Text.decode? f.bytes = some doc.raw ∧
      doc.digest = digest f.bytes ∧ (doc.parseError = none → Format.yaml.parseRaw doc.raw = .ok doc.value) := by
  obtain ⟨_, -, h⟩ := Except.bind_eq_ok.mp h
  obtain ⟨file, hstat, h⟩ := Except.bind_eq_ok.mp h
  cases file with
  | none => cases h
  | some f =>
    rw [stat] at hstat
    split at hstat
    · obtain ⟨_, -, h⟩ := Except.bind_eq_ok.mp h
      refine ⟨f, by simpa using hstat, ?_⟩
      split at h
      · cases h
      · next raw hraw =>
        split at h
        · next value hparse =>
          cases h
          exact ⟨hraw, rfl, fun _ => hparse⟩
        · cases h
          exact ⟨hraw, rfl, fun h => nomatch h⟩
    · cases hstat

end

end MetaStore
end PveMeta
