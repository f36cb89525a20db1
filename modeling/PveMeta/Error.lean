import PveMeta.Path

/-! # Documents by name, and what can go wrong with them

Formats, document ids and the error type every layer shares (`error.rs`), with the messages an API
response carries. -/

namespace PveMeta

/-- A serialization format. YAML is the one on disk; JSON is spoken on the wire only. -/
inductive Format where
  | yaml
  | json
  deriving DecidableEq

namespace Format

def ext : Format → String
  | .yaml => "yaml"
  | .json => "json"

/-- A file extension as a format, ASCII case aside; `yml` is YAML too. -/
def fromExt (ext : String) : Option Format :=
  let lower := String.ofList (ext.toList.map Char.toLower)
  if lower = "yaml" ∨ lower = "yml" then some .yaml else if lower = "json" then some .json else none

end Format

/-- A position in a text, 1-based on both axes. -/
structure Location where
  line : Nat
  column : Nat
  deriving DecidableEq

/-- One finding of the lint. -/
structure Lint where
  path : Path
  msg : String
  deriving DecidableEq

def Lint.display (l : Lint) : String := if l.path.isRoot then l.msg else l.path.display ++ ": " ++ l.msg

inductive RegistryKind where
  | prefixDef
  deriving DecidableEq

def RegistryKind.asStr : RegistryKind → String
  | .prefixDef => "prefixes"

def RegistryKind.noun : RegistryKind → String
  | .prefixDef => "prefix"

/-- A guest's document, or a prefix file. -/
inductive DocId where
  | guest (vmid : UInt32)
  | registry (kind : RegistryKind) (name : String)
  deriving DecidableEq

namespace DocId

def decimal (n : Nat) : String := String.ofList (Nat.toDigits 10 n)

def baseName : DocId → String
  | .guest vmid => decimal vmid.toNat
  | .registry _ name => name

/-- The spelling of an id on the wire: `105`, `prefixes/<name>`. -/
def display : DocId → String
  | .guest vmid => decimal vmid.toNat
  | .registry kind name => kind.asStr ++ "/" ++ name

def isGuest : DocId → Bool
  | .guest _ => true
  | .registry .. => false

end DocId

inductive Error where
  | parse (format : Format) (msg : String) (loc : Option Location)
  | lint (lints : List Lint)
  | digestMismatch (expected actual : String)
  | notFound (id : DocId)
  | tooLarge (size max : Nat)
  | invalidPath (msg : String)
  | invalidName (msg : String)
  | registry (msg : String)
  | unavailable (msg : String)
  | io (msg : String)
  deriving DecidableEq

def joinWith (sep : String) (ss : List String) : String :=
  String.ofList (sep.toList.intercalate (ss.map String.toList))

def Error.display : Error → String
  | .parse format msg _ => "failed to parse " ++ format.ext ++ " document: " ++ msg
  | .lint lints => "document failed validation: " ++ joinWith "; " (lints.map Lint.display)
  | .digestMismatch expected actual => "digest mismatch: expected " ++ expected ++ ", actual " ++ actual
  | .notFound id => "not found: " ++ id.display
  | .tooLarge size max =>
    "document too large: " ++ DocId.decimal size ++ " bytes (max " ++ DocId.decimal max ++ " bytes)"
  | .invalidPath msg => "invalid path: " ++ msg
  | .invalidName msg => "invalid name: " ++ msg
  | .registry msg => "invalid registry file: " ++ msg
  | .unavailable msg => "cluster filesystem not available: " ++ msg
  | .io msg => msg

/-- Parses the dotted (`a.b.c`) or slash (`a/b/c`, `/a/b/c`) form of a path; nothing, or `/`, is the
    root. -/
def Path.parse (s : String) : Except Error Path :=
  let trimmed := (Text.stripPrefix ['/'] s.toList).getD s.toList
  if trimmed.isEmpty then .ok Path.root
  else
    let parts := (trimmed.splitOn (if s.toList.contains '/' then '/' else '.')).map String.ofList
    if parts.all isValidSegment then .ok parts else .error (.invalidPath s)

end PveMeta
