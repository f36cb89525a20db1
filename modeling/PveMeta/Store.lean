import PveMeta.Registry

/-! # The file store

Documents and snapshot copies as files (`store.rs`), with the digest compare-and-swap. The file system
is the files under the store's root and under the prefix directories; whether the cluster file system is
there, and whether its reads and writes fail, is part of the state. -/

namespace PveMeta

/-- A file's place: in the store's root, in the prefix directory of an index (the last one is the
    cluster's), or in the directory inside the root that prefix files go to where none is configured. -/
inductive FsPath where
  | root (file : String)
  | prefixDir (i : Nat) (file : String)
  | fallback (file : String)
  deriving DecidableEq

instance mtimeNeZero : NeZero (2 ^ 63 * 10 ^ 9) := ⟨by decide⟩

/-- A file's content, and when it was written, in nanoseconds since the epoch. -/
structure File where
  bytes : ByteArray
  mtime : Fin (2 ^ 63 * 10 ^ 9)

structure MetaStore where
  files : List (FsPath × File)
  prefixDirs : Nat
  /-- Why the cluster file system is not available, if it is not -/
  unavailable : Option String
  /-- The error every read fails with, if reads fail -/
  readFault : Option String
  writeFault : Option String
  now : Fin (2 ^ 63 * 10 ^ 9)

structure Document where
  id : DocId
  path : FsPath
  raw : Text
  value : Tree
  parseError : Option String
  digest : String
  mtime : Fin (2 ^ 63 * 10 ^ 9)

inductive RollbackOutcome where
  | restored
  | removedNoSnapshot
  | noOp
  deriving DecidableEq

/-- The empty document. -/
def Tree.empty : Tree := ⟨.object [], Value.WF.empty⟩

namespace MetaStore

def maxBytes : Nat := 512 * 1024
def maxReadBytes : Nat := 4 * 1024 * 1024
def diskFormat : Format := .yaml

/-- `^[A-Za-z][A-Za-z0-9_-]*$`, and not a format's extension. -/
def isValidSnapshotName (name : String) : Bool :=
  match name.toList with
  | [] => false
  | c :: cs => c.isAlpha && (cs.all fun c => c.isAlphanum || c == '_' || c == '-') && (Format.fromExt name).isNone

def normalizeTrailingNewline (text : Text) : Text := Text.trimNewlines text ++ ['\n']

/-! ### The file system -/

def checkAvailable (s : MetaStore) : Except Error Unit :=
  match s.unavailable with
  | none => .ok ()
  | some msg => .error (.unavailable msg)

/-- What is at `p`; nothing if there is no file. -/
def stat (s : MetaStore) (p : FsPath) : Except Error (Option File) :=
  match s.readFault with
  | none => .ok (Assoc.get? p s.files)
  | some msg => .error (.io msg)

/-- `write_atomic`: the file has its new content, or what it had. -/
def writeAtomic (s : MetaStore) (p : FsPath) (bytes : ByteArray) : Except Error Unit × MetaStore :=
  match s.writeFault with
  | none => (.ok (), { s with files := Assoc.insert p ⟨bytes, s.now⟩ s.files })
  | some msg => (.error (.io msg), s)

/-- `remove_file`, saying whether there was one. -/
def removeFile (s : MetaStore) (p : FsPath) : Except Error Bool × MetaStore :=
  match s.writeFault with
  | none => (.ok (Assoc.get? p s.files).isSome, { s with files := Assoc.erase p s.files })
  | some msg => (.error (.io msg), s)

/-! ### Where a document is -/

def fileName (id : DocId) : String := id.baseName ++ "." ++ diskFormat.ext

/-- The directory a prefix file is written in: the highest-precedence one. -/
def registryWritePath (s : MetaStore) (file : String) : FsPath :=
  if s.prefixDirs = 0 then .fallback file else .prefixDir (s.prefixDirs - 1) file

def pathFor (s : MetaStore) (id : DocId) : FsPath :=
  match id with
  | .guest _ => .root (fileName id)
  | .registry .. => s.registryWritePath (fileName id)

/-- A regular file, or one that cannot be looked at. -/
def isFileOrUnreadable (s : MetaStore) (p : FsPath) : Bool := s.readFault.isSome || (Assoc.get? p s.files).isSome

/-- The file among the prefix directories that the highest-precedence one has. -/
def locate (s : MetaStore) (file : String) : Option FsPath :=
  ((List.range s.prefixDirs).reverse.map (FsPath.prefixDir · file)).find? s.isFileOrUnreadable

def readPathFor (s : MetaStore) (id : DocId) : FsPath :=
  match id with
  | .guest _ => s.pathFor id
  | .registry .. => (s.locate (fileName id)).getD (s.pathFor id)

def snapshotPath (vmid : UInt32) (name : String) : FsPath :=
  .root (DocId.decimal vmid.toNat ++ "." ++ name ++ "." ++ diskFormat.ext)

/-! ### Digests -/

section Documents

variable [Deps]

def digest (bytes : ByteArray) : String := Deps.sha256Hex bytes

/-- `n` in `width` bytes, the lowest first. -/
def leBytes (width n : Nat) : List UInt8 := (List.range width).map fun i => UInt8.ofNat (n >>> (8 * i))

/-- What stands for the content of a file above the read cap: its length and modification time. -/
def oversizedPreimage (f : File) : ByteArray :=
  "pve-meta:above-read-cap:".toByteArray ++
    ByteArray.mk (leBytes 8 f.bytes.size ++ leBytes 16 f.mtime).toArray

/-- A file's content identity. -/
def identityOf (f : File) : String :=
  if f.bytes.size > maxReadBytes then Deps.sha256Hex (oversizedPreimage f) else digest f.bytes

def identify (s : MetaStore) (p : FsPath) : Except Error (Option String) := do
  return (← s.stat p).map identityOf

def digestOf (s : MetaStore) (id : DocId) : Except Error (Option String) := do
  s.checkAvailable
  s.identify (s.readPathFor id)

/-- No expectation always holds; the empty one is that of a missing document. -/
def checkDigest (current expected : Option String) : Except Error Unit :=
  match expected with
  | none => .ok ()
  | some expected =>
    let actual := current.getD ""
    if actual = expected then .ok () else .error (.digestMismatch expected actual)

def checkPrecondition (s : MetaStore) (id : DocId) (expected : Option String) : Except Error Unit :=
  if expected.isNone then .ok ()
  else do checkDigest (← s.digestOf id) expected

/-! ### Reading and writing a document -/

def checkSize (size : Nat) : Except Error Unit :=
  if size > maxBytes then .error (.tooLarge size maxBytes) else .ok ()

def checkReadSize (size : Nat) : Except Error Unit :=
  if size > maxReadBytes then .error (.tooLarge size maxReadBytes) else .ok ()

/-- A file as a document; a syntax error is part of the document, not an error of the read. -/
def parseDocument (id : DocId) (path : FsPath) (f : File) : Except Error Document := do
  checkReadSize f.bytes.size
  match Text.decode? f.bytes with
  | none => .error (.parse diskFormat ("invalid utf-8: " ++ Deps.utf8Error f.bytes) none)
  | some raw =>
    match diskFormat.parseRaw raw with
    | .ok value => return ⟨id, path, raw, value, none, digest f.bytes, f.mtime⟩
    | .error e => return ⟨id, path, raw, Tree.empty, some e.display, digest f.bytes, f.mtime⟩

def readDocument (s : MetaStore) (id : DocId) (path : FsPath) : Except Error Document := do
  match ← s.stat path with
  | none => .error (.notFound id)
  | some f => parseDocument id path f

def read (s : MetaStore) (id : DocId) : Except Error Document := do
  s.checkAvailable
  s.readDocument id (s.readPathFor id)

/-- A file where a write of `id` would land. -/
def hasOwnFile (s : MetaStore) (id : DocId) : Except Error Bool := do
  s.checkAvailable
  return (← s.stat (s.pathFor id)).isSome

/-- The checks `put_raw` makes before it writes: the normalized text and its value. -/
def checkRaw (s : MetaStore) (id : DocId) (text : Text) (expected : Option String) : Except Error (Text × Tree) := do
  s.checkAvailable
  checkDigest (← s.digestOf id) expected
  let normalized := normalizeTrailingNewline text
  checkSize (Text.byteLen normalized)
  let value ← diskFormat.parse normalized
  return (normalized, value)

/-- Replaces `id`'s document with `text`, creating it if it is absent. -/
def putRaw (s : MetaStore) (id : DocId) (text : Text) (expected : Option String) : Except Error Document × MetaStore :=
  match s.checkRaw id text expected with
  | .error e => (.error e, s)
  | .ok (normalized, value) =>
    let path := s.pathFor id
    match s.writeAtomic path (Text.encode normalized) with
    | (.error e, s) => (.error e, s)
    | (.ok (), s) =>
      ((s.stat path).map fun f =>
        ⟨id, path, normalized, value, none, digest (Text.encode normalized), (f.map File.mtime).getD s.now⟩, s)

end Documents

/-- Deletes `id`'s document, never its snapshots. -/
def delete (s : MetaStore) (id : DocId) : Except Error Bool × MetaStore :=
  match s.checkAvailable with
  | .error e => (.error e, s)
  | .ok () => s.removeFile (s.pathFor id)

/-! ### Snapshot copies -/

/-- The snapshot that a file of the root is a copy for. -/
def snapshotOf (vmid : UInt32) (file : String) : Option String := do
  if file.toList.head? = some '.' then none else
  let rest ← Text.stripPrefix (DocId.decimal vmid.toNat ++ ".").toList file.toList
  -- `rsplit_once`: what precedes the last dot, and what follows it.
  let (ext, name) ← Text.splitOnce '.' rest.reverse
  let name := String.ofList name.reverse
  if Format.fromExt (String.ofList ext.reverse) = some diskFormat ∧ isValidSnapshotName name then some name else none

def listSnapshots (s : MetaStore) (vmid : UInt32) : Except Error (List String) := do
  s.checkAvailable
  match s.readFault with
  | some msg => .error (.io msg)
  | none =>
    let names := s.files.filterMap fun e =>
      match e.1 with
      | .root file => snapshotOf vmid file
      | _ => none
    return names.insertionSort fun a b => ! decide (b < a)

/-- The vmid that a file of the root is for: the first of its name's parts, with a snapshot's name after it
    or none. -/
def vmidOfFile (name : String) : Option UInt32 := do
  let stem ← Text.stripSuffix ("." ++ diskFormat.ext).toList name.toList
  let (head, snap) := match Text.splitOnce '.' stem with
    | some (head, snap) => (head, some snap)
    | none => (stem, none)
  if snap.any fun n => ! isValidSnapshotName (String.ofList n) then none else Text.parseU32 head

/-- Every file of the root that is no temporary one, with its vmid. -/
def classifiedRoot (s : MetaStore) : Except Error (List (String × Option UInt32)) := do
  s.checkAvailable
  match s.readFault with
  | some msg => .error (.io msg)
  | none =>
    let names := s.files.filterMap fun e =>
      match e.1 with
      | .root file => some file
      | _ => none
    return (names.filter fun file => file.toList.head? ≠ some '.').map fun file => (file, vmidOfFile file)

/-- Every vmid with a file, in order. -/
def storedVmids (s : MetaStore) : Except Error (List UInt32) := do
  let files ← s.classifiedRoot
  return (files.filterMap Prod.snd).dedup.insertionSort fun a b => a ≤ b

/-- Every file of the root that is no guest's, in order. -/
def unknownFiles (s : MetaStore) : Except Error (List String) := do
  let files ← s.classifiedRoot
  return ((files.filter fun e => e.2.isNone).map Prod.fst).insertionSort fun a b => ! decide (b < a)

/-- Copies the document under a snapshot's name; `false` if there is none. -/
def snapshot (s : MetaStore) (vmid : UInt32) (name : String) : Except Error Bool × MetaStore :=
  match s.checkAvailable with
  | .error e => (.error e, s)
  | .ok () =>
    if ! isValidSnapshotName name then (.error (.invalidName name), s)
    else
      match s.stat (s.pathFor (.guest vmid)) with
      | .error e => (.error e, s)
      | .ok none => (.ok false, s)
      | .ok (some f) =>
        let (r, s) := s.writeAtomic (snapshotPath vmid name) f.bytes
        (r.map fun () => true, s)

def rollback (s : MetaStore) (vmid : UInt32) (name : String) : Except Error RollbackOutcome × MetaStore :=
  match s.checkAvailable with
  | .error e => (.error e, s)
  | .ok () =>
    if ! isValidSnapshotName name then (.error (.invalidName name), s)
    else
      match s.stat (snapshotPath vmid name) with
      | .error e => (.error e, s)
      | .ok (some f) =>
        let (r, s) := s.writeAtomic (s.pathFor (.guest vmid)) f.bytes
        (r.map fun () => .restored, s)
      | .ok none =>
        let (r, s) := s.removeFile (s.pathFor (.guest vmid))
        (r.map fun removed => if removed then .removedNoSnapshot else .noOp, s)

def deleteSnapshot (s : MetaStore) (vmid : UInt32) (name : String) : Except Error Bool × MetaStore :=
  match s.checkAvailable with
  | .error e => (.error e, s)
  | .ok () =>
    if isValidSnapshotName name then s.removeFile (snapshotPath vmid name) else (.error (.invalidName name), s)

/-- Deletes the listed snapshots, counting those that were there. -/
def deleteSnapshots (vmid : UInt32) : List String → Nat → MetaStore → Except Error Nat × MetaStore
  | [], removed, s => (.ok removed, s)
  | name :: names, removed, s =>
    match s.deleteSnapshot vmid name with
    | (.error e, s) => (.error e, s)
    | (.ok deleted, s) => deleteSnapshots vmid names (if deleted then removed + 1 else removed) s

/-- Removes `vmid`'s document and every snapshot of it. -/
def purge (s : MetaStore) (vmid : UInt32) : Except Error Nat × MetaStore :=
  match s.delete (.guest vmid) with
  | (.error e, s) => (.error e, s)
  | (.ok deleted, s) =>
    match s.listSnapshots vmid with
    | .error e => (.error e, s)
    | .ok names => deleteSnapshots vmid names (if deleted then 1 else 0) s

end MetaStore
end PveMeta
