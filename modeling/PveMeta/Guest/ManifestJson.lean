import PveMeta.Lib.Json
import PveMeta.Guest.Manifest

/-! # The JSON of a manifest

What `derive(Serialize, Deserialize)` makes of a raw manifest and of its records, over the JSON that `serde_json` writes and
reads. -/

namespace PveMeta
namespace Guest

/-- `serde_json`, down to the JSON that a text says. -/
class SerdeJson where
  toStringPretty : Json → Text
  fromSlice : ByteArray → Except String Json
  /-- Why JSON that was read is no manifest. -/
  notManifest : ByteArray → String

namespace RawRecord

def fieldNames : List Text := ["entry".toList, "path".toList, "sha256".toList, "source".toList]

def members (r : RawRecord) : List (Text × Json) :=
  [("entry".toList, .string r.entry.toList), ("path".toList, .string r.path), ("sha256".toList, .string r.sha256.toList),
    ("source".toList, .string r.source)]

def toJson (r : RawRecord) : Json := .object r.members

/-- Only the source may be missing: `#[serde(default)]` -/
def ofJson (json : Json) : Option RawRecord := do
  match ← json.fields? fieldNames with
  | [entry, path, sha256, source] =>
    let entry ← Json.required Json.string? entry
    let path ← Json.required Json.string? path
    let sha256 ← Json.required Json.string? sha256
    let source ← Json.defaulted [] Json.string? source
    some ⟨String.ofList entry, path, String.ofList sha256, source⟩
  | _ => none

theorem ofJson_toJson (r : RawRecord) : ofJson r.toJson = some r := by
  have hkeys : Assoc.keys r.members = fieldNames := rfl
  have hfields : r.toJson.fields? fieldNames = some (r.members.map fun e => some e.2) :=
    hkeys ▸ Json.fields?_object (hkeys ▸ by decide)
  rw [ofJson, hfields]
  simp [members]

end RawRecord

namespace RawManifest

def fieldNames : List Text := ["version".toList, "files".toList]

def members (raw : RawManifest) : List (Text × Json) :=
  [("version".toList, .integer raw.version), ("files".toList, .array (raw.files.map RawRecord.toJson))]

def toJson (raw : RawManifest) : Json := .object raw.members

def ofJson (json : Json) : Option RawManifest := do
  match ← json.fields? fieldNames with
  | [version, files] =>
    let version ← Json.required (Json.unsigned? 32) version
    let files ← Json.required (Json.list? RawRecord.ofJson) files
    some ⟨version, files⟩
  | _ => none

theorem ofJson_toJson {raw : RawManifest} (h : raw.version < 2 ^ 32) : ofJson raw.toJson = some raw := by
  have hkeys : Assoc.keys raw.members = fieldNames := rfl
  have hfields : raw.toJson.fields? fieldNames = some (raw.members.map fun e => some e.2) :=
    hkeys ▸ Json.fields?_object (hkeys ▸ by decide)
  have hversion : Json.unsigned? 32 (.integer raw.version) = some raw.version := Json.unsigned?_integer h
  have hfiles : Json.list? RawRecord.ofJson (.array (raw.files.map RawRecord.toJson)) = some raw.files :=
    Json.list?_array RawRecord.ofJson_toJson raw.files
  rw [ofJson, hfields]
  simp [members, hversion, hfiles]

end RawManifest

/-- `serde_json` at the type of a raw manifest. -/
instance serdeOfJson [SerdeJson] : Serde where
  toStringPretty raw := SerdeJson.toStringPretty raw.toJson
  fromSlice bytes := do
    let json ← SerdeJson.fromSlice bytes
    match RawManifest.ofJson json with
    | some raw => .ok raw
    | none => .error (SerdeJson.notManifest bytes)

/-- What is assumed of `serde_json`: the JSON of a manifest is read back from its text. -/
def Manifest.JsonReads [SerdeJson] : Prop :=
  ∀ raw : RawManifest, raw.version = version →
    SerdeJson.fromSlice (Text.encode (SerdeJson.toStringPretty raw.toJson ++ ['\n'])) = .ok raw.toJson

end Guest
end PveMeta
