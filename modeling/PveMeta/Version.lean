import PveMeta.Layers

/-! # The version token

A hash over the store's root and the prefix directories, for clients that poll (`store.rs`). Every file is in
it with its name and its content's identity; hidden names and symbolic links are not. -/

namespace PveMeta

/-- A name that an entry of a directory can have. -/
structure IsEntryName (name : String) : Prop where
  noSlash : '/' ∉ name.toList
  short : name.utf8ByteSize ≤ 255

/-- The store's root, and what is at every path that may be a prefix directory. -/
structure Disk where
  root : Directory
  dir : String → Directory
  rootNames : ∀ name ∈ Assoc.keys root.entries, IsEntryName name
  dirNames : ∀ path, ∀ name ∈ Assoc.keys (dir path).entries, IsEntryName name

/-- The configured prefix directories; a path is a string, which has a length. -/
structure PrefixDirs where
  paths : List String
  fits : ∀ path ∈ paths, path.utf8ByteSize < 2 ^ 63

namespace Disk

section

variable [Deps]

/-- What an entry adds to the hash: nothing if it is hidden, a link or no file. -/
def scanEntry (pre : String) (entry : String × DirEntry) : Except Error (Option (String × String)) :=
  if entry.1.toList.head? = some '.' ∨ entry.2.symlink = true then .ok none
  else
    match entry.2.node with
    | some (.file f) => .ok (some (pre ++ entry.1, MetaStore.identityOf f))
    | some (.unreadable msg) => .error (.io msg)
    | some .other | none => .ok none

def scanForVersion (dir : Directory) (pre : String) : Except Error (List (String × String)) := do
  let listing ← dir.readDir
  let found ← listing.mapM (scanEntry pre)
  return found.filterMap id

/-- Entries by name, then by identity. -/
def entryLe (a b : String × String) : Bool := a.1 < b.1 || a.1 == b.1 && a.2 ≤ b.2

/-- The bytes of an entry: the length of its name, its name, its identity. -/
def frame (entry : String × String) : List UInt8 :=
  MetaStore.leBytes 8 entry.1.toByteArray.data.toList.length ++ entry.1.toByteArray.data.toList ++
    entry.2.toByteArray.data.toList

def entries (disk : Disk) (dirs : PrefixDirs) : Except Error (List (String × String)) := do
  let root ← scanForVersion disk.root ""
  let below ← dirs.paths.mapM fun path => scanForVersion (disk.dir path) (path ++ "/")
  return root ++ below.flatten

/-- What is hashed. -/
def stream (entries : List (String × String)) : ByteArray :=
  ⟨((entries.insertionSort fun a b => entryLe a b).flatMap frame).toArray⟩

def version (disk : Disk) (dirs : PrefixDirs) : Except Error String := do
  let entries ← disk.entries dirs
  return Deps.sha256Hex (stream entries)

end

end Disk
end PveMeta
