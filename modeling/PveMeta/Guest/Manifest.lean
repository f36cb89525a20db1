import PveMeta.Lib.SortedMap
import PveMeta.Guest.Entry

/-! # The manifest

One record for each file written, kept inside the guest beside what it describes (`manifest.rs`). It is how a file that
was written is told apart from one that somebody else wrote or edited. -/

namespace PveMeta
namespace Guest

/-- Who asked for a file, and the hash of its content as written. -/
structure Record where
  entry : String
  path : GuestPath
  sha256 : String
  source : Text
  deriving DecidableEq

structure Manifest where
  records : SortedMap GuestPath Record
  deriving DecidableEq

structure RawRecord where
  entry : String
  path : Text
  sha256 : String
  source : Text
  deriving DecidableEq

structure RawManifest where
  version : Nat
  files : List RawRecord
  deriving DecidableEq

/-- `serde_json` of a raw manifest; a record without a source is read with an empty one. -/
class Serde where
  toStringPretty : RawManifest → Text
  fromSlice : ByteArray → Except String RawManifest

namespace Manifest

def version : Nat := 1

/-- The mode of the manifest file itself. -/
def mode : Nat := 0o600

/-- The largest manifest that is read back. -/
def maxBytes : Nat := 1024 * 1024

/-- The directories that the manifest lives in. -/
def directories : List Text := ["/etc".toList, guestRoot]

def empty : Manifest := ⟨.empty⟩

def isEmpty (m : Manifest) : Bool := m.records.isEmpty

/-- A record without a source is a document entry's own. -/
def sourceOf (r : RawRecord) : Text := if r.source = [] then userSource r.entry else r.source

/-- One more record of a file that is read. -/
def addRaw [RustDebug] (m : Manifest) (r : RawRecord) : Except String Manifest := do
  let path ← (GuestPath.absolute r.path).mapError fun why => "record " ++ RustDebug.str r.path ++ ": " ++ why.message
  if (m.records.get? path).isSome then .error ("'" ++ String.ofList path.text ++ "' is recorded twice")
  else .ok ⟨m.records.insert path ⟨r.entry, path, r.sha256, sourceOf r⟩⟩

/-- A file that is not a manifest, or has a record whose path does not validate, is an error. -/
def parse [RustDebug] [Serde] (bytes : ByteArray) : Except String Manifest := do
  let raw ← (Serde.fromSlice bytes).mapError ("not a manifest: " ++ ·)
  if raw.version ≠ version then
    .error ("manifest version " ++ toString raw.version ++ " is not " ++ toString version)
  else raw.files.foldlM addRaw empty

def toRaw (m : Manifest) : RawManifest :=
  ⟨version, m.records.entries.map fun e => ⟨e.2.entry, e.2.path.text, e.2.sha256, e.2.source⟩⟩

/-- The manifest's text, sorted by path. -/
def render [Serde] (m : Manifest) : ByteArray := Text.encode (Serde.toStringPretty m.toRaw ++ ['\n'])

end Manifest

end Guest
end PveMeta
