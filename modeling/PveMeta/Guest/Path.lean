import Mathlib.Data.List.Lex
import Mathlib.Data.Char
import PveMeta.Path

/-! # Paths inside a guest

Where a file of a guest's document may be written (`pve-meta-guest-files`, `entry.rs`): an absolute path that needs no
normalising, outside the kernel's file systems and away from the manifest, none of whose names is one of the daemon's
own. -/

namespace PveMeta
namespace Guest

/-- `{:?}` of a character, and of a string -/
class RustDebug where
  char : Char → String
  str : Text → String

/-- The directory that relative paths resolve under. -/
def guestRoot : Text := "/etc/pve-meta".toList

def forbiddenRoots : List Text := ["/proc".toList, "/sys".toList, "/dev".toList]

/-- Reserved inside every name: the daemon's temp files are named with it. -/
def tempMark : Text := ".pve-meta-guest-files".toList

/-- `manifest::NAME` -/
def manifestName : Text := ".guest-files".toList

/-- `manifest::path` -/
def manifestPath : Text := guestRoot ++ '/' :: manifestName

/-- `b` is strictly below the directory `a`. -/
def isUnder (a b : Text) : Bool :=
  match Text.stripPrefix a b with
  | some ('/' :: _) => true
  | _ => false

def isAtOrUnder (a b : Text) : Bool := a == b || isUnder a b

/-! ### Judging a path -/

/-- Why a path is refused. -/
inductive PathProblem where
  | notAbsolute
  | noFile
  | emptySegment
  | dots (segment : Text)
  | badChar (c : Char)
  | reserved
  | forbidden (root : Text)
  | manifest

def PathProblem.message [RustDebug] : PathProblem → String
  | .notAbsolute => "not absolute"
  | .noFile => "'/' is not a file"
  | .emptySegment => "empty segment"
  | .dots segment => "'" ++ String.ofList segment ++ "' segment"
  | .badChar c => RustDebug.char c ++ " is not allowed"
  | .reserved => "'" ++ String.ofList tempMark ++ "' is reserved"
  | .forbidden root => String.ofList root ++ " is not a filesystem files are written to"
  | .manifest => "collides with the manifest " ++ String.ofList manifestPath

def segmentProblem (segment : Text) : Option PathProblem :=
  if segment = [] then some .emptySegment
  else if segment = ['.'] ∨ segment = ['.', '.'] then some (.dots segment)
  else
    match segment.find? fun c => c != '.' && ! isSegmentChar c with
    | some c => some (.badChar c)
    | none => if tempMark <:+: segment then some .reserved else none

def pathProblem : Text → Option PathProblem
  | '/' :: rest =>
    if rest = [] then some .noFile
    else
      match (rest.splitOn '/').findSome? segmentProblem with
      | some why => some why
      | none =>
        match forbiddenRoots.find? (isAtOrUnder · ('/' :: rest)) with
        | some root => some (.forbidden root)
        | none =>
          if isAtOrUnder ('/' :: rest) manifestPath || isUnder manifestPath ('/' :: rest) then some .manifest else none
  | _ => some .notAbsolute

/-- A file's absolute path inside the guest. -/
structure GuestPath where
  text : Text
  valid : pathProblem text = none

namespace GuestPath

theorem ext_text {p q : GuestPath} (h : p.text = q.text) : p = q := by
  cases p
  cases q
  cases h
  rfl

instance : LinearOrder GuestPath := LinearOrder.lift' text fun _ _ => ext_text

instance instLawfulBEq : LawfulBEq GuestPath := inferInstance

/-- An already absolute path, as the manifest records one. -/
def absolute (p : Text) : Except PathProblem GuestPath :=
  match h : pathProblem p with
  | none => .ok ⟨p, h⟩
  | some why => .error why

/-- An entry's `path`. -/
def parse [RustDebug] (s : Text) : Except String GuestPath :=
  if s = [] then .error "path is empty"
  else
    let full := if s.head? = some '/' then s else guestRoot ++ '/' :: s
    (absolute full).mapError fun why => "path '" ++ String.ofList s ++ "': " ++ why.message

/-- The directories that some names lead through. -/
def directoriesFrom (dir : Text) : List Text → List Text
  | [] => []
  | name :: names => (dir ++ '/' :: name) :: directoriesFrom (dir ++ '/' :: name) names

/-- Every directory the file lives under, parent first. -/
def directories (p : GuestPath) : List Text := directoriesFrom [] (p.text.tail.splitOn '/').dropLast

/-- One of the two is a directory that the other lives under. -/
def nestsWith (p q : GuestPath) : Bool := isUnder p.text q.text || isUnder q.text p.text

end GuestPath

/-! ### Temp files -/

/-- The directory a path is in, and its name there: `rsplit_once('/')`, or all of it. -/
def splitName (absolute : Text) : Text × Text :=
  match Text.splitOnce '/' absolute.reverse with
  | some (base, dir) => (dir.reverse, base.reverse)
  | none => ([], absolute)

/-- The sibling that a new version is written to. -/
def tempFor (absolute : Text) : Text :=
  (splitName absolute).1 ++ '/' :: '.' :: (splitName absolute).2 ++ tempMark ++ ".tmp".toList

/-- One of the path's names carries the mark of the daemon's own files. -/
def Reserved (p : Text) : Prop := ∃ name ∈ p.splitOn '/', tempMark <:+: name

instance (p : Text) : Decidable (Reserved p) := inferInstanceAs (Decidable (∃ name ∈ p.splitOn '/', _))

end Guest
end PveMeta
