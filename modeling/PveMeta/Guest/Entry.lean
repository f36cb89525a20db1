import PveMeta.Store
import PveMeta.View
import PveMeta.Guest.Path

/-! # The `guest-files` key

What should be a file inside the guest, and what that file holds (`entry.rs`): the entries of a guest's document, each
judged on its own, or the files that an operator hands over. -/

namespace PveMeta
namespace Guest

/-- The top-level key of a document that is read. -/
def documentKey : String := "guest-files"

def maxContentBytes : Nat := MetaStore.maxBytes

/-- How a view becomes file content. -/
inductive FileFormat where
  | yaml
  | json
  | raw
  deriving DecidableEq

def FileFormat.parse : String → Option FileFormat
  | "yaml" => some .yaml
  | "json" => some .json
  | "raw" => some .raw
  | _ => none

/-- What happens to a file that no longer holds what was written. -/
inductive LocalEdits where
  | keep
  | overwrite
  deriving DecidableEq

structure Owner where
  uid : UInt32
  gid : UInt32
  deriving DecidableEq

def Owner.root : Owner := ⟨0, 0⟩

/-- A number of at most ten digits. -/
def parseId (t : Text) : Option UInt32 :=
  if ! t.isEmpty && decide (Text.byteLen t ≤ 10) && t.all Char.isDigit then Text.parseU32 t else none

/-- `uid:gid` -/
def Owner.parse (s : Text) : Option Owner := do
  let (u, g) ← Text.splitOnce ':' s
  return ⟨← parseId u, ← parseId g⟩

def isOctal (c : Char) : Bool := '0' ≤ c && c ≤ '7'

def octal (digits : Text) : Nat := digits.foldl (fun n c => n * 8 + (c.toNat - '0'.toNat)) 0

/-- `0444` or `444` -/
def parseMode (s : Text) : Option Nat := do
  let digits ← match Text.byteLen s with
    | 4 => Text.stripPrefix ['0'] s
    | 3 => some s
    | _ => none
  if digits.all isOctal then some (octal digits) else none

/-! ### Who asks for a file -/

def userSource (name : String) : Text := "user/".toList ++ name.toList

def managedSource (operator name : String) : Text := "managed/".toList ++ (operator.toList ++ '/' :: name.toList)

def isManagedSource (source : Text) : Bool := "managed/".toList.isPrefixOf source

/-- The operator of a `managed/<operator>/<name>` source. -/
def managedOperator (source : Text) : Option Text :=
  (Text.stripPrefix "managed/".toList source).bind fun rest => (rest.splitOn '/').head?

/-- Two sources that claim one path refuse each other, except renames. -/
def sourcesConflict (a b : Text) : Bool :=
  if a = b then false
  else
    match managedOperator a, managedOperator b with
    | some x, some y => x != y
    | some _, none | none, some _ => true
    | none, none => false

/-! ### Entries -/

/-- One entry, validated. An operator's has no view. -/
structure Entry where
  name : String
  view : Option Path
  path : GuestPath
  format : FileFormat
  mode : Nat
  owner : Owner
  localEdits : LocalEdits
  source : Text
  deriving DecidableEq

def modeError (mode : String) : String := "mode '" ++ mode ++ "' is not an octal mode such as \"0444\""

def ownerError (owner : String) : String := "owner '" ++ owner ++ "' is not uid:gid"

/-- An operator-built entry. -/
def Entry.managed [RustDebug] (operator name path : String) (format : FileFormat) (mode owner : String)
    (localEdits : LocalEdits) : Except String Entry := do
  let path ← GuestPath.parse path.toList
  let mode ← match parseMode mode.toList with
    | some m => .ok m
    | none => .error (modeError mode)
  let owner ← match Owner.parse owner.toList with
    | some o => .ok o
    | none => .error (ownerError owner)
  return ⟨name, none, path, format, mode, owner, localEdits, managedSource operator name⟩

section

variable [Deps]

/-- An entry with its content, and the hash of that. -/
structure Desired where
  entry : Entry
  content : ByteArray
  sha256 : String
  hashed : sha256 = MetaStore.digest content

/-- What one entry of the document asks for. -/
inductive Resolved where
  | file (d : Desired)
  | absent (name : String)
  | refused (name reason : String)

def Resolved.name : Resolved → String
  | .file d => d.entry.name
  | .absent name | .refused name _ => name

/-- A guest's files, as its document states them or as an operator hands them over. -/
inductive GuestFiles where
  | nothing
  | held (why : String)
  | entries (entries : List Resolved)
  | managed (items : List Desired)

def checkContentLen (content : ByteArray) : Except String Unit :=
  if content.size > maxContentBytes then
    .error ("content is " ++ toString content.size ++ " bytes, above the " ++ toString maxContentBytes ++ "-byte cap")
  else .ok ()

def Desired.of (entry : Entry) (content : ByteArray) : Desired := ⟨entry, content, MetaStore.digest content, rfl⟩

/-- Content handed over by an operator. -/
def Desired.direct (entry : Entry) (content : ByteArray) : Except String Desired := do
  checkContentLen content
  return .of entry content

/-! ### The document's entries -/

/-- The content of a view. -/
def render (value : Value) (format : FileFormat) : Except String ByteArray := do
  let content ← match format, value with
    | .yaml, _ => .ok (Text.encode (View.render (View.stripComments value) .yaml))
    | .json, _ => .ok (Text.encode (View.render (View.stripComments value) .json))
    | .raw, .string s => .ok (Text.encode s.toList)
    | .raw, _ => .error "format raw needs the view to be a string"
  checkContentLen content
  return content

/-- A field that is a string, if it is there. -/
def textField (map : Members) (key : String) : Except String (Option String) :=
  match Assoc.get? key map with
  | none => .ok none
  | some (.string s) => .ok (some s)
  | some _ => .error ("'" ++ key ++ "' must be a string")

def knownFields : List String := ["view", "path", "format", "mode", "owner", "local_edits"]

def required (key : String) (field : Option String) : Except String String :=
  match field with
  | some s => .ok s
  | none => .error ("'" ++ key ++ "' is required")

def viewError (view : String) : String := "view '" ++ view ++ "' is not a dotted key path"

def parseView (view : String) : Except String Path :=
  if view = "" ∨ '/' ∈ view.toList then .error (viewError view)
  else (Path.parse view).mapError fun _ => viewError view

def parseFormat : Option String → Except String FileFormat
  | none => .ok .yaml
  | some f =>
    match FileFormat.parse f with
    | some format => .ok format
    | none => .error ("format '" ++ f ++ "' is not yaml, json or raw")

def parseModeField : Option String → Except String Nat
  | none => .ok 0o444
  | some m =>
    match parseMode m.toList with
    | some mode => .ok mode
    | none => .error (modeError m)

def parseOwnerField : Option String → Except String Owner
  | none => .ok .root
  | some o =>
    match Owner.parse o.toList with
    | some owner => .ok owner
    | none => .error (ownerError o)

def parseLocalEdits : Option String → Except String LocalEdits
  | none | some "keep" => .ok .keep
  | some "overwrite" => .ok .overwrite
  | some o => .error ("local_edits '" ++ o ++ "' is not keep or overwrite")

/-- Validates one entry's fields. A field that is not known is refused. -/
def parseEntry [RustDebug] (name : String) (spec : Value) : Except String Entry := do
  let map ← match spec.asObject with
    | some map => .ok map
    | none => .error "an entry must be a map"
  match map.find? fun e => ! isCommentKey e.1 && ! knownFields.contains e.1 with
    | some e => .error ("unknown field '" ++ e.1 ++ "'")
    | none => .ok ()
  let view ← parseView (← required "view" (← textField map "view"))
  let path ← GuestPath.parse (← required "path" (← textField map "path")).toList
  let format ← parseFormat (← textField map "format")
  let mode ← parseModeField (← textField map "mode")
  let owner ← parseOwnerField (← textField map "owner")
  let localEdits ← parseLocalEdits (← textField map "local_edits")
  return ⟨name, some view, path, format, mode, owner, localEdits, userSource name⟩

def resolve [RustDebug] (doc : Value) (name : String) (spec : Value) : Resolved :=
  match parseEntry name spec with
  | .error reason => .refused name reason
  | .ok entry =>
    match entry.view with
    | none => .refused name "a document entry always has a view"
    | some view =>
      -- A view that leads into a list or a scalar has no content, like one that is not there.
      match (View.extract doc view).toOption.join with
      | none => .absent name
      | some value =>
        match render value entry.format with
        | .ok content => .file (.of entry content)
        | .error reason => .refused name reason

def Resolved.desired? : Resolved → Option Desired
  | .file d => some d
  | .absent _ | .refused .. => none

def Resolved.path? (r : Resolved) : Option GuestPath := r.desired?.map (·.entry.path)

/-- Two files cannot both be there. -/
def collides (p q : GuestPath) : Bool := p == q || p.nestsWith q

def collisionError (p : GuestPath) (name : String) : String :=
  "path '" ++ String.ofList p.text ++ "' collides with entry '" ++ name ++ "'"

/-- The first other entry whose path collides with that of the entry at `i`. -/
def clash (entries : List Resolved) (i : Nat) (p : GuestPath) : Option Resolved :=
  (entries.zipIdx.find? fun e => e.2 != i && e.1.path?.any (collides p)).map Prod.fst

/-- Entries whose paths collide are refused, all of them. -/
def refuseCollisions (entries : List Resolved) : List Resolved :=
  entries.mapIdx fun i r =>
    match r.path? with
    | none => r
    | some p =>
      match clash entries i p with
      | none => r
      | some other => .refused r.name (collisionError p other.name)

namespace GuestFiles

/-- The `guest-files` key of a parsed document. -/
def ofDocument [RustDebug] (doc : Value) : GuestFiles :=
  match doc.get? documentKey with
  | none => .nothing
  | some tree =>
    match tree.asObject with
    | none => .held ("'" ++ documentKey ++ "' is not a map")
    | some map =>
      .entries (refuseCollisions ((map.filter fun e => ! isCommentKey e.1).map fun e => resolve doc e.1 e.2))

/-- The first two files whose paths collide. -/
def firstCollision : List Desired → Option String
  | [] => none
  | a :: rest =>
    match rest.find? fun b => collides a.entry.path b.entry.path with
    | some b => some (collisionError a.entry.path b.entry.name)
    | none => firstCollision rest

/-- Operator-handed files. -/
def ofManaged (items : List Desired) : Except String GuestFiles :=
  match firstCollision items with
  | some why => .error why
  | none => .ok (.managed items)

def wantsFiles : GuestFiles → Bool
  | .entries rows => rows.any (·.desired?.isSome)
  | .managed items => ! items.isEmpty
  | .nothing | .held _ => false

/-- What there is to write. -/
def desired : GuestFiles → List Desired
  | .entries rows => rows.filterMap Resolved.desired?
  | .managed items => items
  | .nothing | .held _ => []

end GuestFiles

end

end Guest
end PveMeta
