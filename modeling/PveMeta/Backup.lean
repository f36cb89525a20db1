import PveMeta.Store
import PveMeta.Lib.Decimal

/-! # The notes block

How a guest's document travels through a backup (`backup.rs`): as one marked block in the notes, which a
restore reads back and strips. -/

namespace PveMeta
namespace Backup

def version : UInt32 := 1
def maxYamlBytes : Nat := 16 * 1024
def beginPrefix : Text := "[pve-meta v".toList
def endLine : Text := "[/pve-meta]".toList
def fenceOpen : Text := "````yaml".toList
def fenceClose : Text := "````".toList

/-- What a block's header line says. -/
structure Header where
  version : UInt32
  vmid : Option UInt32
  time : Option Text
  sha256 : Option Text

/-- A block in a notes text: its byte range, without the newline that ends it, its header and the document
    text between the fences. -/
structure Found where
  start : Nat
  stop : Nat
  header : Header
  yaml : Text

inductive ImportMode where
  | restore
  | install
  deriving DecidableEq

inductive ImportAction where
  | none
  | imported
  | stripped
  deriving DecidableEq

/-- What an import did; no description leaves the notes as they are. -/
structure Import where
  action : ImportAction
  description : Option Text
  deriving DecidableEq

/-! ### Rendering -/

/-- A number in decimal, with zeros in front up to `width` digits. -/
def pad (width n : Nat) : Text :=
  let digits := Nat.toDigits 10 n
  List.replicate (width - digits.length) '0' ++ digits

def formatUtc (y m d secs : Nat) : Text :=
  pad 4 y ++ ['-'] ++ pad 2 m ++ ['-'] ++ pad 2 d ++ ['T'] ++ pad 2 (secs / 3600) ++ [':'] ++
    pad 2 (secs % 3600 / 60) ++ [':'] ++ pad 2 (secs % 60) ++ ['Z']

/-- Seconds since the epoch as `YYYY-MM-DDTHH:MM:SSZ`. -/
def rfc3339Utc (unix : Nat) : Text :=
  let z := unix / 86400 + 719468
  let era := z / 146097
  let doe := z % 146097
  let yoe := (doe - doe / 1460 + doe / 36524 - doe / 146096) / 365
  let doy := doe - (365 * yoe + yoe / 4 - yoe / 100)
  let mp := (5 * doy + 2) / 153
  let d := doy - (153 * mp + 2) / 5 + 1
  let m := if mp < 10 then mp + 3 else mp - 9
  let y := yoe + era * 400
  formatUtc (if m ≤ 2 then y + 1 else y) m d (unix % 86400)

/-- `[pve-meta v1 vmid=… time=… sha256=…]` -/
def headerText (version vmid time digest : Text) : Text :=
  beginPrefix ++ version ++ " vmid=".toList ++ vmid ++ " time=".toList ++ time ++ " sha256=".toList ++ digest ++ [']']

def headerLine (vmid : UInt32) (digest : String) (now : Nat) : Text :=
  headerText (Nat.toDigits 10 version.toNat) (Nat.toDigits 10 vmid.toNat) (rfc3339Utc now) digest.toList

/-- The block for a document's file text. -/
def render (vmid : UInt32) (yaml : Text) (digest : String) (now : Nat) : Except Error Text :=
  let yaml := Text.trimNewlines yaml
  if Text.byteLen yaml > maxYamlBytes then .error (.tooLarge (Text.byteLen yaml) maxYamlBytes)
  else .ok (headerLine vmid digest now ++ ['\n'] ++ fenceOpen ++ ['\n'] ++ yaml ++ ['\n'] ++ fenceClose ++ ['\n'] ++
    endLine)

/-! ### Finding the block -/

def isBreak (c : Char) : Bool := c == '\n' || c == '\r'

/-- `trim_end_matches(['\n', '\r'])`. -/
def trimBreaks (l : Text) : Text := l.rdropWhile isBreak

def isHeaderLine (l : Text) : Bool :=
  beginPrefix.isPrefixOf (trimBreaks l) && (trimBreaks l).getLast? == some ']'

def isEndLine (l : Text) : Bool := Text.trimEnd (trimBreaks l) == endLine

/-- Where the scan for a block is, the last header line, and the header of the last block that ended. -/
structure Scan where
  offset : Nat
  header : Option Nat
  block : Option Nat

def scanLine (s : Scan) (line : Text) : Scan :=
  let offset := s.offset + Text.byteLen line
  if isHeaderLine line then { s with offset, header := some s.offset }
  else if isEndLine line && s.header.isSome then { s with offset, block := s.header }
  else { s with offset }

def lastHeader (text : Text) : Option Nat := ((Text.splitInclusive text).foldl scanLine ⟨0, none, none⟩).block

/-- One field of a header line. -/
def headerField (header : Header) (field : Text) : Header :=
  match Text.splitOnce '=' field with
  | none => header
  | some (k, v) =>
    if k = "vmid".toList then { header with vmid := Text.parseU32 v }
    else if k = "time".toList then { header with time := some v }
    else if k = "sha256".toList then { header with sha256 := some v }
    else header

def parseHeader (line : Text) : Option Header := do
  let rest ← Text.stripPrefix beginPrefix (Text.trimEnd line)
  let inner ← Text.stripSuffix [']'] rest
  match Text.words inner with
  | [] => none
  | w :: fields =>
    let version ← Text.parseU32 w
    return fields.foldl headerField ⟨version, none, none, none⟩

def malformed (msg : String) : Error := .parse .yaml ("malformed pve-meta notes block: " ++ msg) none

/-- The lines up to the first end line, if there is one. -/
def takeBody : List Text → Option (List Text)
  | [] => none
  | l :: ls => if Text.trimEnd l = endLine then some [] else (takeBody ls).map (l :: ·)

/-- The lines before the closing fence. -/
def readBody (lines : List Text) : Except Error (List Text) :=
  match takeBody lines with
  | none => .error (malformed "no end line")
  | some body =>
    if (body.getLast?).map Text.trimEnd = some fenceClose then .ok body.dropLast
    else .error (malformed "the end line is not preceded by the closing fence")

/-- The header and the lines between the fences of the block that `lines` begin with. -/
def readBlock (lines : List Text) : Except Error (Header × List Text) :=
  match parseHeader (lines.head?.getD []) with
  | none => .error (malformed "unreadable header line")
  | some header =>
    if header.version ≠ version then
      .error (malformed ("unsupported version v" ++ DocId.decimal header.version.toNat))
    else if (lines.tail.head?).map Text.trimEnd ≠ some fenceOpen then
      .error (malformed "the header is not followed by the opening fence")
    else (readBody lines.tail.tail).map (header, ·)

/-- Where a block of `consumed` lines from `start` on ends, its last newline aside. -/
def blockStop (description : Text) (start consumed : Nat) : Nat :=
  let rest := Text.dropBytes start description
  let stop := start + Text.byteLen ((Text.splitInclusive rest).take consumed).flatten
  if (Text.takeBytes stop description).getLast? = some '\n' then stop - 1 else stop

/-- The block in a notes text, if there is one. -/
def find (description : Text) : Except Error (Option Found) :=
  match lastHeader description with
  | none => .ok none
  | some start => do
    let (header, body) ← readBlock (Text.lines (Text.dropBytes start description))
    -- The header, the opening fence, the document's lines, the closing fence and the end line.
    let stop := blockStop description start (2 + body.length + 2)
    return some ⟨start, stop, header, Text.unlines body⟩

/-- The notes without the block, the newline after it and the white space before it. -/
def strip (description : Text) (found : Found) : Text :=
  let before := Text.trimEnd (Text.takeBytes found.start description)
  let after := (Text.dropBytes found.stop description).dropWhile (· == '\n')
  Text.trimEnd (before ++ (if ! before.isEmpty && ! Text.isBlank after then ['\n'] else []) ++ after)

/-- Strips block after block, up to `fuel` of them. -/
def stripBlocks : Nat → Text → Text
  | 0, description => description
  | fuel + 1, description =>
    match find description with
    | .ok (some found) => stripBlocks fuel (strip description found)
    | _ => description

/-- The notes without any well-formed block: each is at least a character long. -/
def stripAll (description : Text) : Text := stripBlocks description.length description

/-! ### Export and import -/

section

variable [Deps]

/-- The block for a guest's current document, if it has one. -/
def exportBlock (s : MetaStore) (vmid : UInt32) (now : Nat) : Except Error (Option Text) :=
  match s.read (.guest vmid) with
  | .error (.notFound _) => .ok none
  | .error e => .error e
  | .ok doc =>
    match doc.parseError with
    | some msg => .error (.parse .yaml ("the stored document does not parse: " ++ msg) none)
    | none => (render vmid doc.raw doc.digest now).map some

/-- A document that is already there: only the install-time scan asks. -/
def existing (s : MetaStore) (vmid : UInt32) (mode : ImportMode) : Except Error Bool :=
  match mode with
  | .restore => .ok false
  | .install => (s.digestOf (.guest vmid)).map Option.isSome

/-- A restored guest has no snapshots, so copies left from what it replaced go. -/
def dropCopies (s : MetaStore) (vmid : UInt32) (mode : ImportMode) : Except Error Nat × MetaStore :=
  match mode with
  | .install => (.ok 0, s)
  | .restore =>
    match s.listSnapshots vmid with
    | .error e => (.error e, s)
    | .ok names => MetaStore.deleteSnapshots vmid names 0 s

/-- Reads the block of the notes into a guest's document and strips it. -/
def importBlock (s : MetaStore) (vmid : UInt32) (description : Text) (mode : ImportMode) :
    Except Error Import × MetaStore :=
  match find description with
  | .error e => (.error e, s)
  | .ok none => (.ok ⟨.none, none⟩, s)
  | .ok (some found) =>
    let stripped := stripAll (strip description found)
    match existing s vmid mode with
    | .error e => (.error e, s)
    | .ok true => (.ok ⟨.stripped, some stripped⟩, s)
    | .ok false =>
      match s.putRaw (.guest vmid) (found.yaml ++ ['\n']) none with
      | (.error e, s) => (.error e, s)
      | (.ok _, s) =>
        let (dropped, s) := dropCopies s vmid mode
        (dropped.map fun _ => ⟨.imported, some stripped⟩, s)

end

/-- The notes a backup carries: the guest's, without white space at the end, a blank line, and the block. -/
def composeNotes (notes block : Text) : Text :=
  let notes := Text.trimEnd notes
  (if notes.isEmpty then [] else notes ++ ['\n', '\n']) ++ block

end Backup
end PveMeta
