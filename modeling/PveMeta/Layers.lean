import Mathlib.Data.String.Basic
import PveMeta.Lib.Tally
import PveMeta.Store

/-! # The prefix directories

The registry's directories, from the lowest precedence to the highest, as the loader walks them
(`registry.rs`). The file of a name that counts is the one in the highest directory that has it. -/

namespace PveMeta

/-- What is at a path, links followed. -/
inductive Node where
  | file (f : File)
  /-- There, but not to be looked at or not to be read, and why -/
  | unreadable (msg : String)
  | other

/-- An entry of a directory; a link can lead nowhere. -/
structure DirEntry where
  symlink : Bool
  node : Option Node

/-- A directory. One that is not there has no entries. -/
structure Directory where
  entries : List (String × DirEntry)
  nodup : (Assoc.keys entries).Nodup
  /-- Why it cannot be listed, if it cannot -/
  listFault : Option String

structure RegistryFailure where
  name : String
  origin : Origin
  error : String
  deriving DecidableEq

def Node.isFileOrUnreadable : Node → Bool
  | .file _ | .unreadable _ => true
  | .other => false

/-- `read_to_string`, of what is at the path. -/
def Node.readToString : Option Node → Except String Text
  | some (.file f) =>
    match Text.decode? f.bytes with
    | some text => .ok text
    | none => .error "stream did not contain valid UTF-8"
  | some (.unreadable msg) => .error msg
  | some .other => .error "Is a directory (os error 21)"
  | none => .error "No such file or directory (os error 2)"

namespace Directory

/-- What `stat` finds at a file of the directory. -/
def node (d : Directory) (file : String) : Option Node := (Assoc.get? file d.entries).bind (·.node)

def isFileOrUnreadable (d : Directory) (file : String) : Bool := (d.node file).any Node.isFileOrUnreadable

def readDir (d : Directory) : Except Error (List (String × DirEntry)) :=
  match d.listFault with
  | none => .ok d.entries
  | some msg => .error (.io msg)

def readToString (d : Directory) (file : String) : Except String Text :=
  Node.readToString (d.node file)

end Directory

namespace Registry

def yamlFile (name : String) : String := name ++ ".yaml"

/-- The prefix that an entry is the file of. -/
def yamlStem (d : Directory) (file : String) : Option String :=
  if file.toList.head? = some '.' then none
  else
    match Text.stripSuffix ".yaml".toList file.toList with
    | none => none
    | some stem =>
      if ! isValidFileName (String.ofList stem) || ! d.isFileOrUnreadable file then none else some (String.ofList stem)

/-- The names of the prefix files of a directory. -/
def yamlFiles (d : Directory) : Except Error (List String) := do
  let entries ← d.readDir
  return (entries.filterMap fun e => yamlStem d e.1).insertionSort fun a b => ! decide (b < a)

/-- The index of the highest directory that has a file of `name`. -/
def effectiveFile (dirs : List Directory) (name : String) : Option Nat :=
  (List.range dirs.length).reverse.find? fun i => (dirs[i]?).any (·.isFileOrUnreadable (yamlFile name))

def locate (dirs : List Directory) (name : String) : Option FsPath :=
  (effectiveFile dirs name).map fun i => .prefixDir i (yamlFile name)

/-- `write_dir`: the last directory, or the one inside the root if none is configured. -/
def writePath (dirs : List Directory) (file : String) : FsPath :=
  if dirs.length = 0 then .fallback file else .prefixDir (dirs.length - 1) file

/-- Where the store reads the prefix document of `name`. -/
def readPath (dirs : List Directory) (name : String) : FsPath :=
  (locate dirs name).getD (writePath dirs (yamlFile name))

/-- The last directory is the cluster's, the ones below it are packaged. -/
def clusterLayers (dirs : List Directory) : List (Directory × Origin) :=
  dirs.mapIdx fun i dir => (dir, if i + 1 = dirs.length then .cluster else .packaged)

/-- The row of a name that `count` directories hold, loaded or failed. -/
def loadName {α : Type} (layers : List (Directory × Origin)) (parse : String → Text → Except Error α)
    (stamp : α → Origin → Bool → α) (name : String) (count : Nat) : Option (Except RegistryFailure (String × α)) := do
  let index ← effectiveFile (layers.map Prod.fst) name
  let (dir, origin) ← layers[index]?
  match dir.readToString (yamlFile name) with
  | .error e => return .error ⟨name, origin, e⟩
  | .ok text =>
    match parse name text with
    | .error e => return .error ⟨name, origin, e.display⟩
    | .ok parsed => return .ok (name, stamp parsed origin (1 < count))

def failed {α : Type} : Except RegistryFailure α → Option RegistryFailure
  | .ok _ => none
  | .error failure => some failure

/-- Loads a list of directories, each name from its effective file. -/
def loadDirs {α : Type} (layers : List (Directory × Origin)) (parse : String → Text → Except Error α)
    (stamp : α → Origin → Bool → α) : Except Error (List (String × α) × List RegistryFailure) := do
  let names ← (layers.map Prod.fst).mapM yamlFiles
  let rows := (Tally.ofList names.flatten).filterMap fun holder => loadName layers parse stamp holder.1 holder.2
  return (rows.filterMap Except.toOption, rows.filterMap failed)

section

variable [Deps]

def stamp (p : PrefixDef) (origin : Origin) (overrides : Bool) : PrefixDef := { p with origin, overrides }

/-- Every prefix file, most specific first, and every one that did not load. -/
def listPrefixes (dirs : List Directory) : Except Error (List PrefixDef × List RegistryFailure) := do
  let (parsed, failures) ← loadDirs (clusterLayers dirs) parsePrefix stamp
  return ((parsed.map Prod.snd).insertionSort fun a b => bySpecificity a.pre b.pre ≠ .gt, failures)

end

end Registry

namespace MetaStore

/-- The names of the files in the prefix directory of an index. -/
def prefixFiles (s : MetaStore) (i : Nat) : List String :=
  (s.files.filterMap fun e =>
    match e.1 with
    | .prefixDir j file => if j = i then some file else none
    | _ => none).dedup

/-- A prefix directory of the store as its walks see it. -/
def directory (s : MetaStore) (i : Nat) : Directory where
  entries := (s.prefixFiles i).map fun file => (file, ⟨false, (Assoc.get? (.prefixDir i file) s.files).map .file⟩)
  nodup := by
    rw [Assoc.keys, List.map_map]
    simpa [Function.comp_def, prefixFiles] using List.nodup_dedup _
  listFault := s.readFault

/-- The directories of the registry, which is handed out behind the availability check. -/
def registry (s : MetaStore) : Except Error (List Directory) := do
  s.checkAvailable
  return (List.range s.prefixDirs).map s.directory

/-- The prefixes as the store's loader answers them. -/
def listPrefixes [Deps] (s : MetaStore) : Except Error (List PrefixDef × List RegistryFailure) := do
  Registry.listPrefixes (← s.registry)

end MetaStore

end PveMeta
