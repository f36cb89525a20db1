import PveMeta.Lib.Decimal
import PveMeta.Lib.Delimited
import PveMeta.Sample
import PveMeta.Theorems.Layers
import PveMeta.Theorems.Reads
import PveMeta.Version

/-! # What the version token tells

A token is the hash of a stream that gives back the names and the identities it was made of. So two states of
the disk with one token have the same regular files where documents, snapshot copies and prefix files are;
a symbolic link is not in the stream, and what it leads to may change unseen. -/

namespace PveMeta

/-- The regular file of a name: no link, and nothing that cannot be looked at. -/
def Directory.fileAt (d : Directory) (name : String) : Option File :=
  match Assoc.get? name d.entries with
  | some ⟨false, some (.file f)⟩ => some f
  | _ => none

/-- A name that the scan does not skip. -/
def Visible (name : String) : Prop := name.toList.head? ≠ some '.'

/-! ### The bytes of a length -/

theorem leBytes_injective {width m n : Nat} (hm : m < 2 ^ (8 * width)) (hn : n < 2 ^ (8 * width))
    (h : MetaStore.leBytes width m = MetaStore.leBytes width n) : m = n := by
  apply Nat.eq_of_testBit_eq
  intro i
  by_cases hi : i < 8 * width
  · have hbyte : UInt8.ofNat (m >>> (8 * (i / 8))) = UInt8.ofNat (n >>> (8 * (i / 8))) := by
      have hget := congrArg (·[i / 8]?) h
      have hlt : i / 8 < width := by omega
      simpa [MetaStore.leBytes, hlt] using hget
    have hmod := congrArg (Nat.testBit ·.toNat (i % 8)) hbyte
    have hlt : i % 8 < 8 := Nat.mod_lt _ (by decide)
    simp only [UInt8.toNat_ofNat', Nat.testBit_mod_two_pow, hlt, decide_true, Bool.true_and, Nat.testBit_shiftRight,
      Nat.div_add_mod] at hmod
    exact hmod
  · have hpow : 2 ^ (8 * width) ≤ 2 ^ i := Nat.pow_le_pow_right (by decide) (by omega)
    rw [Nat.testBit_lt_two_pow (by omega), Nat.testBit_lt_two_pow (by omega)]

namespace Disk
open MetaStore (identityOf_of_le)

section

variable [Deps]

/-! ### The stream -/

/-- An entry whose name has a length and whose identity is a hash in hex. -/
structure Framed (entry : String × String) : Prop where
  name : entry.1.utf8ByteSize < 2 ^ 64
  identity : entry.2.utf8ByteSize = 64

omit [Deps] in
theorem data_injective {s t : String} (h : s.toByteArray.data.toList = t.toByteArray.data.toList) : s = t :=
  String.toByteArray_inj.mp (ByteArray.ext (Array.toList_inj.mp h))

omit [Deps] in
theorem frame_delimited : Delimited frame Framed :=
  Delimited.of_length (fun n => by rw [MetaStore.leBytes, List.length_map, List.length_range]) (by decide)
    (fun ha hb h => leBytes_injective ha.name hb.name h) (fun ha hb => ha.identity.trans hb.identity.symm)
    fun hname hdig => Prod.ext (data_injective hname) (data_injective hdig)

omit [Deps] in
/-- A stream is of one set of entries. -/
theorem mem_of_stream_eq {es es' : List (String × String)} (hes : ∀ e ∈ es, Framed e) (hes' : ∀ e ∈ es', Framed e)
    (h : stream es = stream es') (e : String × String) : e ∈ es ↔ e ∈ es' := by
  have hflat := Array.toList_inj.mpr (congrArg ByteArray.data h)
  rw [stream, stream] at hflat
  have hsorted := frame_delimited.flatMap_injective
    (fun a ha => hes a ((List.mem_insertionSort _).mp ha)) (fun a ha => hes' a ((List.mem_insertionSort _).mp ha)) hflat
  rw [← List.mem_insertionSort (fun a b => entryLe a b), hsorted, List.mem_insertionSort]

/-! ### The entries -/

theorem scanEntry_eq_some {pre : String} {entry : String × DirEntry} {e : String × String} :
    scanEntry pre entry = .ok (some e) ↔
      Visible entry.1 ∧ ∃ f, entry.2 = ⟨false, some (.file f)⟩ ∧ e = (pre ++ entry.1, MetaStore.identityOf f) := by
  obtain ⟨name, symlink, node⟩ := entry
  unfold scanEntry
  dsimp only
  split
  · next hskip =>
    constructor
    · intro h
      cases h
    · rintro ⟨hvisible, f, heq, -⟩
      cases heq
      rcases hskip with hhidden | hlink
      · exact absurd hhidden hvisible
      · cases hlink
  · next hkeep =>
    rw [not_or, Bool.not_eq_true] at hkeep
    obtain ⟨hvisible, rfl⟩ := hkeep
    cases node with
    | none => exact ⟨fun h => (nomatch h), fun ⟨_, _, h, _⟩ => nomatch h⟩
    | some node =>
      cases node with
      | file f =>
        constructor
        · intro h
          cases h
          exact ⟨hvisible, f, rfl, rfl⟩
        · rintro ⟨-, f', heq, rfl⟩
          cases heq
          rfl
      | unreadable msg => exact ⟨fun h => (nomatch h), fun ⟨_, _, h, _⟩ => nomatch h⟩
      | other => exact ⟨fun h => (nomatch h), fun ⟨_, _, h, _⟩ => nomatch h⟩

omit [Deps] in
theorem fileAt_eq_some {d : Directory} {name : String} {f : File} :
    d.fileAt name = some f ↔ (name, (⟨false, some (.file f)⟩ : DirEntry)) ∈ d.entries := by
  constructor
  · intro h
    unfold Directory.fileAt at h
    split at h
    · next hget =>
      cases h
      exact Assoc.mem_of_get? hget
    · cases h
  · intro h
    rw [Directory.fileAt, Assoc.get?_of_mem d.nodup h]

/-- A scan finds the visible regular files. -/
theorem mem_scanForVersion {dir : Directory} {pre : String} {found : List (String × String)}
    (h : scanForVersion dir pre = .ok found) {e : String × String} : e ∈ found ↔
      ∃ name f, Visible name ∧ dir.fileAt name = some f ∧ e = (pre ++ name, MetaStore.identityOf f) := by
  obtain ⟨listing, hlisting, h⟩ := Except.bind_eq_ok.mp h
  obtain ⟨rows, hrows, h⟩ := Except.bind_eq_ok.mp h
  cases h
  have hentries : listing = dir.entries := by
    unfold Directory.readDir at hlisting
    split at hlisting
    · exact (Except.ok.inj hlisting).symm
    · cases hlisting
  subst hentries
  simp only [List.mem_filterMap, id_eq, exists_eq_right]
  constructor
  · intro hmem
    obtain ⟨entry, hentry, hscan⟩ := Except.exists_of_mapM hrows hmem
    obtain ⟨hvisible, f, heq, he⟩ := scanEntry_eq_some.mp hscan
    refine ⟨entry.1, f, hvisible, fileAt_eq_some.mpr ?_, he⟩
    rw [← heq]
    exact hentry
  · rintro ⟨name, f, hvisible, hfile, rfl⟩
    obtain ⟨i, hi⟩ := List.mem_iff_getElem?.mp (fileAt_eq_some.mp hfile)
    obtain ⟨row, hrow, hscan⟩ := (Except.getElem?_of_mapM hrows).2 i _ hi
    rw [scanEntry_eq_some.mpr ⟨hvisible, f, rfl, rfl⟩] at hscan
    cases hscan
    exact List.mem_of_getElem? hrow

/-- The entries are those of the root, under their names, and those of each prefix directory, under its path. -/
theorem mem_entries {disk : Disk} {dirs : PrefixDirs} {es : List (String × String)} (h : disk.entries dirs = .ok es)
    {e : String × String} : e ∈ es ↔
      (∃ name f, Visible name ∧ disk.root.fileAt name = some f ∧ e = (name, MetaStore.identityOf f)) ∨
        ∃ path ∈ dirs.paths, ∃ name f, Visible name ∧ (disk.dir path).fileAt name = some f ∧
          e = (path ++ "/" ++ name, MetaStore.identityOf f) := by
  obtain ⟨root, hroot, h⟩ := Except.bind_eq_ok.mp h
  obtain ⟨below, hbelow, h⟩ := Except.bind_eq_ok.mp h
  cases h
  rw [List.mem_append, mem_scanForVersion hroot, List.mem_flatten]
  refine or_congr (by simp) ?_
  constructor
  · rintro ⟨found, hfound, he⟩
    obtain ⟨path, hpath, hscan⟩ := Except.exists_of_mapM hbelow hfound
    exact ⟨path, hpath, (mem_scanForVersion hscan).mp he⟩
  · rintro ⟨path, hpath, he⟩
    obtain ⟨i, hi⟩ := List.mem_iff_getElem?.mp hpath
    obtain ⟨found, hfound, hscan⟩ := (Except.getElem?_of_mapM hbelow).2 i _ hi
    exact ⟨found, List.mem_of_getElem? hfound, (mem_scanForVersion hscan).mpr he⟩

/-! ### Names -/

omit [Deps] in
theorem isEntryName_of_fileAt {d : Directory} {name : String} {f : File}
    (hnames : ∀ name ∈ Assoc.keys d.entries, IsEntryName name) (h : d.fileAt name = some f) : IsEntryName name :=
  hnames name (Assoc.mem_keys_of_mem (fileAt_eq_some.mp h))

omit [Deps] in
/-- A path and a name in it are read off their join. -/
theorem join_injective {path path' name name' : String} (hname : IsEntryName name) (hname' : IsEntryName name')
    (h : path ++ "/" ++ name = path' ++ "/" ++ name') : path = path' ∧ name = name' := by
  have hrev : ∀ {p n : String}, IsEntryName n → Text.splitOnce '/' (p ++ "/" ++ n).toList.reverse =
      some (n.toList.reverse, p.toList.reverse) := by
    intro p n hn
    have hsplit : (p ++ "/" ++ n).toList.reverse = n.toList.reverse ++ '/' :: p.toList.reverse := by simp
    rw [hsplit, Text.splitOnce_append (by simpa using hn.noSlash)]
  have heq := (hrev hname).symm.trans ((congrArg (fun s => Text.splitOnce '/' s.toList.reverse) h).trans (hrev hname'))
  simp only [Option.some.injEq, Prod.mk.injEq, List.reverse_inj, String.toList_inj] at heq
  exact ⟨heq.2, heq.1⟩

omit [Deps] in
theorem root_ne_join {path name name' : String} (hname : IsEntryName name) : name ≠ path ++ "/" ++ name' := by
  intro h
  refine hname.noSlash ?_
  rw [h]
  simp

/-- A file that the scan of a disk meets. -/
def HasFile (disk : Disk) (dirs : PrefixDirs) (f : File) : Prop :=
  ∃ name, Visible name ∧ (disk.root.fileAt name = some f ∨ ∃ path ∈ dirs.paths, (disk.dir path).fileAt name = some f)

/-- What a token is made with: the contents of the files and the stream. -/
def Hashed (disk : Disk) (dirs : PrefixDirs) (bytes : ByteArray) : Prop :=
  (∃ f, disk.HasFile dirs f ∧ bytes = f.bytes) ∨ ∃ es, disk.entries dirs = .ok es ∧ bytes = stream es

/-- The files of a disk are below the read cap, and their hashes have the length of a hash. -/
structure Ordinary (disk : Disk) (dirs : PrefixDirs) : Prop where
  small : ∀ f, disk.HasFile dirs f → f.bytes.size ≤ MetaStore.maxReadBytes
  length : ∀ f, disk.HasFile dirs f → (MetaStore.digest f.bytes).utf8ByteSize = 64

theorem framed_of_mem {disk : Disk} {dirs : PrefixDirs} {es : List (String × String)} (h : disk.Ordinary dirs)
    (hes : disk.entries dirs = .ok es) : ∀ e ∈ es, Framed e := by
  have hid : ∀ f, disk.HasFile dirs f → (MetaStore.identityOf f).utf8ByteSize = 64 := by
    intro f hf
    rw [identityOf_of_le (h.small f hf)]
    exact h.length f hf
  intro e he
  rcases (mem_entries hes).mp he with ⟨name, f, hvisible, hfile, rfl⟩ | ⟨path, hpath, name, f, hvisible, hfile, rfl⟩
  · have hshort := (isEntryName_of_fileAt disk.rootNames hfile).short
    exact ⟨show name.utf8ByteSize < 2 ^ 64 by omega, hid f ⟨name, hvisible, Or.inl hfile⟩⟩
  · have hshort := (isEntryName_of_fileAt (disk.dirNames path) hfile).short
    have hfits := dirs.fits path hpath
    refine ⟨?_, hid f ⟨name, hvisible, Or.inr ⟨path, hpath, hfile⟩⟩⟩
    have hslash : ("/" : String).utf8ByteSize = 1 := rfl
    show (path ++ "/" ++ name).utf8ByteSize < 2 ^ 64
    rw [String.utf8ByteSize_append, String.utf8ByteSize_append, hslash]
    omega

/-! ### Two states with one token -/

/-- The content of a regular file of a name. -/
def contentAt (d : Directory) (name : String) : Option ByteArray := (d.fileAt name).map File.bytes

/-- Every regular file that a read of a document or of a snapshot copy opens, and every one that the loader lists,
    is in both states, with the same content. -/
structure SameFiles (dirs : PrefixDirs) (d₁ d₂ : Disk) : Prop where
  document : ∀ vmid, contentAt d₁.root (MetaStore.fileName (.guest vmid)) =
    contentAt d₂.root (MetaStore.fileName (.guest vmid))
  snapshot : ∀ vmid name file, MetaStore.snapshotPath vmid name = .root file →
    contentAt d₁.root file = contentAt d₂.root file
  prefixFile : ∀ path ∈ dirs.paths, ∀ name, Registry.isValidFileName name = true →
    contentAt (d₁.dir path) (Registry.yamlFile name) = contentAt (d₂.dir path) (Registry.yamlFile name)

variable {d₁ d₂ : Disk} {dirs : PrefixDirs} {es es' : List (String × String)}

/-- One disk's file is the other's, where an entry of the one is an entry of the other. -/
theorem content_of_mem (h₁ : d₁.entries dirs = .ok es) (h₂ : d₂.entries dirs = .ok es') (hsub : ∀ e ∈ es, e ∈ es')
    (ho₁ : d₁.Ordinary dirs) (ho₂ : d₂.Ordinary dirs)
    (hcf : ∀ a b, d₁.Hashed dirs a → d₂.Hashed dirs b → Deps.sha256Hex a = Deps.sha256Hex b → a = b) :
    (∀ name b, Visible name → contentAt d₁.root name = some b → contentAt d₂.root name = some b) ∧
      ∀ path ∈ dirs.paths, ∀ name b, Visible name → contentAt (d₁.dir path) name = some b →
        contentAt (d₂.dir path) name = some b := by
  have hbytes : ∀ f f', d₁.HasFile dirs f → d₂.HasFile dirs f' → MetaStore.identityOf f = MetaStore.identityOf f' →
      f.bytes = f'.bytes := by
    intro f f' hf hf' hid
    rw [identityOf_of_le (ho₁.small f hf), identityOf_of_le (ho₂.small f' hf')] at hid
    exact hcf _ _ (Or.inl ⟨f, hf, rfl⟩) (Or.inl ⟨f', hf', rfl⟩) hid
  constructor
  · intro name b hvisible hb
    obtain ⟨f, hfile, rfl⟩ := Option.map_eq_some_iff.mp hb
    have hmem := hsub _ ((mem_entries h₁).mpr (Or.inl ⟨name, f, hvisible, hfile, rfl⟩))
    have hname := isEntryName_of_fileAt d₁.rootNames hfile
    rcases (mem_entries h₂).mp hmem with ⟨name', f', hvisible', hfile', heq⟩ | ⟨path, -, name', f', -, -, heq⟩
    · obtain ⟨rfl, hid⟩ := Prod.mk.inj heq
      have hsame := hbytes f f' ⟨name, hvisible, Or.inl hfile⟩ ⟨name, hvisible, Or.inl hfile'⟩ hid
      rw [contentAt, hfile', Option.map_some, hsame]
    · exact absurd (Prod.mk.inj heq).1 (root_ne_join hname)
  · intro path hpath name b hvisible hb
    obtain ⟨f, hfile, rfl⟩ := Option.map_eq_some_iff.mp hb
    have hmem := hsub _ ((mem_entries h₁).mpr (Or.inr ⟨path, hpath, name, f, hvisible, hfile, rfl⟩))
    have hname := isEntryName_of_fileAt (d₁.dirNames path) hfile
    rcases (mem_entries h₂).mp hmem with ⟨name', f', -, hfile', heq⟩ | ⟨path', hpath', name', f', hvisible', hfile', heq⟩
    · exact absurd (Prod.mk.inj heq).1.symm (root_ne_join (isEntryName_of_fileAt d₂.rootNames hfile'))
    · obtain ⟨hjoin, hid⟩ := Prod.mk.inj heq
      obtain ⟨rfl, rfl⟩ := join_injective hname (isEntryName_of_fileAt (d₂.dirNames path') hfile') hjoin
      have hsame := hbytes f f' ⟨name, hvisible, Or.inr ⟨path, hpath, hfile⟩⟩
        ⟨name, hvisible, Or.inr ⟨path, hpath, hfile'⟩⟩ hid
      rw [contentAt, hfile', Option.map_some, hsame]

omit [Deps] in
theorem visible_decimal (n : Nat) (rest : String) : Visible (DocId.decimal n ++ rest) := by
  intro h
  rw [DocId.decimal, String.toList_append, String.toList_ofList,
    List.head?_append_of_ne_nil _ Nat.toDigits_ne_nil] at h
  have hdigit := List.all_eq_true.mp (Decimal.all_isDigit_toDigits n) '.' (List.mem_of_mem_head? h)
  revert hdigit
  decide

omit [Deps] in
theorem visible_fileName (vmid : UInt32) : Visible (MetaStore.fileName (.guest vmid)) := by
  rw [MetaStore.fileName, String.append_assoc]
  exact visible_decimal vmid.toNat _

/-- States of the disk with one token have the same regular files. -/
theorem version_determines {token : String} (h₁ : d₁.version dirs = .ok token) (h₂ : d₂.version dirs = .ok token)
    (ho₁ : d₁.Ordinary dirs) (ho₂ : d₂.Ordinary dirs)
    (hcf : ∀ a b, d₁.Hashed dirs a → d₂.Hashed dirs b → Deps.sha256Hex a = Deps.sha256Hex b → a = b) :
    SameFiles dirs d₁ d₂ := by
  obtain ⟨es, hes, h₁⟩ := Except.bind_eq_ok.mp h₁
  obtain ⟨es', hes', h₂⟩ := Except.bind_eq_ok.mp h₂
  have hstream : stream es = stream es' :=
    hcf _ _ (Or.inr ⟨es, hes, rfl⟩) (Or.inr ⟨es', hes', rfl⟩) ((Except.ok.inj h₁).trans (Except.ok.inj h₂).symm)
  have hmem := mem_of_stream_eq (framed_of_mem ho₁ hes) (framed_of_mem ho₂ hes') hstream
  obtain ⟨hroot, hdir⟩ := content_of_mem hes hes' (fun e he => (hmem e).mp he) ho₁ ho₂ hcf
  obtain ⟨hroot', hdir'⟩ := content_of_mem hes' hes (fun e he => (hmem e).mpr he) ho₂ ho₁
    fun a b ha hb h => (hcf b a hb ha h.symm).symm
  have hboth : ∀ {o o' : Option ByteArray}, (∀ b, o = some b → o' = some b) → (∀ b, o' = some b → o = some b) → o = o' :=
    fun h h' => Option.ext fun b => ⟨h b, h' b⟩
  have hrootEq : ∀ name, Visible name → contentAt d₁.root name = contentAt d₂.root name :=
    fun name hv => hboth (fun b => hroot name b hv) fun b => hroot' name b hv
  refine ⟨fun vmid => hrootEq _ (visible_fileName vmid), ?_, ?_⟩
  · intro vmid name file hfile
    cases hfile
    refine hrootEq _ ?_
    simp only [String.append_assoc]
    exact visible_decimal vmid.toNat _
  · intro path hpath name hvalid
    have hv := Registry.yamlFile_visible hvalid
    exact hboth (fun b => hdir path hpath _ b hv) fun b => hdir' path hpath _ b hv

end

/-- A disk of one file in the root and one that the scan skips. -/
def sampleDisk (entry : DirEntry) (hidden : String) (h : IsEntryName hidden) (hne : "100.yaml" ≠ hidden) : Disk where
  root := ⟨[("100.yaml", entry), (hidden, ⟨false, some .other⟩)], by simpa [Assoc.keys] using hne, none⟩
  dir _ := ⟨[], List.nodup_nil, none⟩
  rootNames name hmem := by
    have hdoc : IsEntryName "100.yaml" := ⟨by decide, by decide⟩
    rcases List.mem_cons.mp hmem with rfl | hmem
    · exact hdoc
    · rwa [List.mem_singleton.mp hmem]
  dirNames _ name hmem := by cases hmem

def sampleFile (text : Text) (mtime : Fin (2 ^ 63 * 10 ^ 9)) : Node := .file ⟨Text.encode text, mtime⟩

def sampleDirs : PrefixDirs := ⟨["/etc/pve/meta.d/prefixes"], by decide⟩

/-- The file a read of a name opens, links followed. -/
def openedAt (d : Directory) (name : String) : Option ByteArray :=
  match d.node name with
  | some (.file f) => some f.bytes
  | _ => none

open Sample in
theorem ordinary_sampleDisk {symlink : Bool} {text : Text} {mtime : Fin (2 ^ 63 * 10 ^ 9)} {hidden : String}
    (h : IsEntryName hidden) (hne : "100.yaml" ≠ hidden) (hsize : (Text.encode text).size ≤ MetaStore.maxReadBytes)
    (hlen : (MetaStore.digest (Text.encode text)).utf8ByteSize = 64) :
    (sampleDisk ⟨symlink, some (sampleFile text mtime)⟩ hidden h hne).Ordinary sampleDirs := by
  have hfile : ∀ f, (sampleDisk ⟨symlink, some (sampleFile text mtime)⟩ hidden h hne).HasFile sampleDirs f →
      f.bytes = Text.encode text := by
    rintro f ⟨name, -, hat | ⟨path, -, hat⟩⟩
    · have hmem := fileAt_eq_some.mp hat
      simp only [sampleDisk, List.mem_cons, Prod.mk.injEq, DirEntry.mk.injEq, List.not_mem_nil, or_false, sampleFile,
        Option.some.injEq, Node.file.injEq, reduceCtorEq, and_false] at hmem
      rw [hmem.2.2]
    · exact absurd (fileAt_eq_some.mp hat) List.not_mem_nil
  exact ⟨fun f hf => by rw [hfile f hf]; exact hsize, fun f hf => by rw [hfile f hf]; exact hlen⟩

open Sample in
/-- Two states that differ in a file's time and in a file that is no document. -/
theorem version_determines_touched :
    SameFiles sampleDirs
      (sampleDisk ⟨false, some (sampleFile "a: 1\n".toList 0)⟩ ".tmp" ⟨by decide, by decide⟩ (by decide))
      (sampleDisk ⟨false, some (sampleFile "a: 1\n".toList 5)⟩ "lost" ⟨by decide, by decide⟩ (by decide)) := by
  have htoken : ∀ d : Disk, (d.version sampleDirs).toOption =
      some (Deps.sha256Hex (stream [("100.yaml", MetaStore.digest (Text.encode "a: 1\n".toList))])) →
      d.version sampleDirs =
        .ok (Deps.sha256Hex (stream [("100.yaml", MetaStore.digest (Text.encode "a: 1\n".toList))])) :=
    fun d h => Except.toOption_eq_some.mp h
  exact version_determines (htoken _ (by decide +kernel)) (htoken _ (by decide +kernel))
    (ordinary_sampleDisk _ _ (by decide +kernel) (by decide +kernel))
    (ordinary_sampleDisk _ _ (by decide +kernel) (by decide +kernel)) fun a b _ _ h => Sample.sha256Hex_injective h

open Sample in
/-- What a link leads to changes under one token. -/
theorem link_unseen : ¬ ∀ (d₁ d₂ : Disk) (dirs : PrefixDirs) (token : String), d₁.version dirs = .ok token →
    d₂.version dirs = .ok token → d₁.Ordinary dirs → d₂.Ordinary dirs →
    (∀ a b, d₁.Hashed dirs a → d₂.Hashed dirs b → Deps.sha256Hex a = Deps.sha256Hex b → a = b) →
    ∀ vmid, openedAt d₁.root (MetaStore.fileName (.guest vmid)) =
      openedAt d₂.root (MetaStore.fileName (.guest vmid)) := by
  intro h
  have hsame := h
    (sampleDisk ⟨true, some (sampleFile "a: 1\n".toList 0)⟩ ".tmp" ⟨by decide, by decide⟩ (by decide))
    (sampleDisk ⟨true, some (sampleFile "a: 2\n".toList 0)⟩ ".tmp" ⟨by decide, by decide⟩ (by decide))
    sampleDirs (Deps.sha256Hex (stream [])) (Except.toOption_eq_some.mp (by decide +kernel))
    (Except.toOption_eq_some.mp (by decide +kernel)) (ordinary_sampleDisk _ _ (by decide +kernel) (by decide +kernel))
    (ordinary_sampleDisk _ _ (by decide +kernel) (by decide +kernel)) (fun a b _ _ h => Sample.sha256Hex_injective h) 100
  revert hsame
  decide +kernel

end Disk
end PveMeta
