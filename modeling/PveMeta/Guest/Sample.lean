import Mathlib.Logic.Encodable.Basic
import Mathlib.Logic.Equiv.List
import PveMeta.Sample
import PveMeta.Guest.ManifestJson
import PveMeta.Guest.Sync
import PveMeta.Theorems.GuestManifest
import PveMeta.Theorems.GuestSources

/-! # A sample of a guest

An instance of what a sync uses of the crates, which writes the manifests below as `serde_json` does, and something that
is read back for every other one; and a guest with the directories that a manifest lives in. -/

namespace PveMeta
namespace GuestSample
open Guest Sample

/-! ### Manifests -/

def appPath : GuestPath := ⟨"/etc/pve-meta/app".toList, by decide +kernel⟩

def one : ByteArray := Text.encode "a: 1\n".toList

def two : ByteArray := Text.encode "a: 2\n".toList

/-- A manifest of the one file `app`, as `source` wrote it. -/
def appManifest (content : ByteArray) (source : Text) : RawManifest :=
  ⟨Manifest.version, [⟨"app", appPath.text, MetaStore.digest content, source⟩]⟩

/-- The members of a record are in the order of its fields. -/
def appText (content : ByteArray) (source : Text) : Text :=
  "\x7b\n  \"version\": 1,\n  \"files\": [\n    \x7b\n      \"entry\": \"app\",\n".toList ++
    "      \"path\": \"".toList ++ appPath.text ++ "\",\n      \"sha256\": \"".toList ++
    (MetaStore.digest content).toList ++ "\",\n      \"source\": \"".toList ++ source ++
    "\"\n    \x7d\n  ]\n\x7d".toList

def manifests : List (RawManifest × Text) :=
  [one, two].flatMap fun content =>
    [userSource "app", managedSource "a/b" "app", managedSource "a/c" "app"].map fun source =>
      (appManifest content source, appText content source)

scoped instance encodableChar : Encodable Char := Encodable.ofLeftInverse Char.toNat Char.ofNat Char.ofNat_toNat

/-- What a raw manifest is made of. -/
def parts (raw : RawManifest) : ℕ × List (Text × Text × Text × Text) :=
  (raw.version, raw.files.map fun r => (r.entry.toList, r.path, r.sha256.toList, r.source))

def ofParts (p : ℕ × List (Text × Text × Text × Text)) : RawManifest :=
  ⟨p.1, p.2.map fun (entry, path, sha256, source) => ⟨String.ofList entry, path, String.ofList sha256, source⟩⟩

theorem ofParts_parts (raw : RawManifest) : ofParts (parts raw) = raw := by
  simp [ofParts, parts, Function.comp_def]

scoped instance encodableRaw : Encodable RawManifest := Encodable.ofLeftInverse parts ofParts ofParts_parts

def toStringPretty (raw : RawManifest) : Text :=
  match Assoc.get? raw manifests with
  | some t => t
  | none => List.replicate (Encodable.encode raw) '#'

def fromSlice (bytes : ByteArray) : Except String RawManifest :=
  match Text.decode? bytes with
  | none => .error "invalid utf-8"
  | some t =>
    match manifests.find? fun e => e.2 ++ ['\n'] = t with
    | some e => .ok e.1
    | none =>
      match Encodable.decode (t.length - 1) with
      | some raw => .ok raw
      | none => .error "not a sample"

scoped instance serde : Serde := ⟨toStringPretty, fromSlice⟩

scoped instance rustDebug : RustDebug :=
  ⟨fun c => "'" ++ String.ofList [c] ++ "'", fun t => "\"" ++ String.ofList t ++ "\""⟩

theorem find?_manifests : ∀ e ∈ manifests, manifests.find? (fun e' => e'.2 ++ ['\n'] = e.2 ++ ['\n']) = some e := by
  decide +kernel

theorem head?_manifests : ∀ e ∈ manifests, e.2.head? = some '\x7b' := by
  decide +kernel

theorem serdeReads : Manifest.SerdeReads := by
  intro raw _
  show fromSlice (Text.encode (toStringPretty raw ++ ['\n'])) = .ok raw
  rw [fromSlice, Text.decode?_encode, toStringPretty]
  cases hraw : Assoc.get? raw manifests with
  | some t =>
    dsimp only
    rw [find?_manifests (raw, t) (Assoc.mem_of_get? hraw)]
  | none =>
    have hnone : (manifests.find? fun e => e.2 ++ ['\n'] = List.replicate (Encodable.encode raw) '#' ++ ['\n']) = none := by
      refine List.find?_eq_none.mpr fun e he heq => ?_
      have hhead := head?_manifests e he
      rw [List.append_cancel_right (of_decide_eq_true heq), List.head?_replicate] at hhead
      split at hhead <;> cases hhead
    dsimp only
    rw [hnone, List.length_append, List.length_replicate, List.length_singleton, Nat.add_sub_cancel, Encodable.encodek]

/-! ### By way of JSON -/

/-- A manifest of the one file `app`, from before there were sources. -/
def oldText : Text :=
  "\x7b\"version\": 1, \"files\": [\x7b\"entry\": \"app\", \"path\": \"".toList ++ appPath.text ++
    "\", \"sha256\": \"".toList ++ (MetaStore.digest one).toList ++ "\"\x7d]\x7d".toList

def oldJson : Json :=
  .object [("version".toList, .integer 1),
    ("files".toList, .array [.object [("entry".toList, .string "app".toList), ("path".toList, .string appPath.text),
      ("sha256".toList, .string (MetaStore.digest one).toList)]])]

/-- The texts of the manifests, as the JSON that they say, and the one from before there were sources. -/
@[reducible] def serdeJson : SerdeJson where
  toStringPretty json :=
    match RawManifest.ofJson json with
    | some raw => toStringPretty raw
    | none => []
  fromSlice bytes :=
    if Text.decode? bytes = some oldText then .ok oldJson else (fromSlice bytes).map RawManifest.toJson
  notManifest _ := "missing field"

theorem jsonReads : @Manifest.JsonReads serdeJson := by
  intro raw hversion
  have hread : RawManifest.ofJson raw.toJson = some raw :=
    RawManifest.ofJson_toJson (hversion ▸ (show Manifest.version < 2 ^ 32 by decide))
  have hnew : Text.decode? (Text.encode (toStringPretty raw ++ ['\n'])) ≠ some oldText := by
    intro heq
    rw [Text.decode?_encode] at heq
    have hlast := congrArg List.getLast? (Option.some.inj heq)
    rw [List.getLast?_concat, show oldText.getLast? = some '\x7d' by decide +kernel] at hlast
    cases hlast
  have htext : serdeJson.toStringPretty raw.toJson = toStringPretty raw := by
    show (match RawManifest.ofJson raw.toJson with
      | some raw => toStringPretty raw
      | none => []) = _
    rw [hread]
  have hslice : fromSlice (Text.encode (toStringPretty raw ++ ['\n'])) = .ok raw := serdeReads raw hversion
  rw [htext]
  show (if Text.decode? (Text.encode (toStringPretty raw ++ ['\n'])) = some oldText then _ else _) = _
  rw [if_neg hnew, hslice]
  rfl

/-- What is kept of the file `app` that a document asked for. -/
def kept : Manifest := ⟨SortedMap.empty.insert appPath ⟨"app", appPath, MetaStore.digest one, userSource "app"⟩⟩

/-! ### A guest -/

/-- A guest with the directories of a manifest and nothing else. -/
def guest : Fs := fun p => if p = "/etc".toList ∨ p = guestRoot then .dir else .missing

/-- What a document asks for that has this text for the file `app`. -/
def asked (text : String) : GuestFiles :=
  .ofDocument (.object [("a", .string text),
    ("guest-files",
      .object [("app", .object [("view", .string "a"), ("path", .string "app"), ("format", .string "raw")])])])

/-- An operator's entry for the file `app`. -/
def appEntry (operator : String) : Entry :=
  ⟨"app", none, appPath, .raw, 0o444, .root, .keep, managedSource operator "app"⟩

def handed (operator : String) (content : ByteArray) : GuestFiles := .managed [.of (appEntry operator) content]

theorem asks_asked (text : String) : Writer.user.Asks (asked text) := .document _

theorem asks_handed (operator : String) {content : ByteArray} (hsize : ¬ content.size > maxContentBytes) :
    (Writer.managed operator).Asks (handed operator content) := by
  refine .managed operator [.of (appEntry operator) content] _ rfl fun d hd => ?_
  refine ⟨"app", "app", .raw, "0444", "0:0", .keep, appEntry operator, content, ?_, ?_⟩
  · rfl
  · rw [List.mem_singleton.mp hd, Desired.direct, checkContentLen, if_neg hsize]
    rfl

end GuestSample
end PveMeta
