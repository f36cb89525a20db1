import PveMeta.Guest.World
import PveMeta.Lib.Base64
import PveMeta.Lib.Shell

/-! # The guest that a script runs in

The programs that the scripts of `pct.rs` call, over the files of a guest. A call of one can fail, or be the last: the
guest is stopped, or the time is up. Before each command of a script the others may do to the files what they like. -/

namespace PveMeta
namespace Guest

/-- In the C locale that the scripts run in, a character is a byte. -/
def byteText (b : ByteArray) : Text := b.data.toList.map fun b => Char.ofNat b.toNat

def textBytes (t : Text) : ByteArray := ⟨(t.map fun c => UInt8.ofNat c.toNat).toArray⟩

/-- What becomes of a call of a program, or of a write: it works; it fails, with something to say and some of a write made;
    everything is killed, some of a write made; or when it is done. -/
inductive CallFate where
  | works
  | fails (err : Text) (kept : Nat)
  | killed (kept : Nat)
  | last

/-- The guest's files and where its programs are, what the others make of the files before the next commands, and what
    becomes of the next calls. -/
structure Machine where
  fs : Fs
  tools : Text → Option Text
  turns : List (Option Fs)
  fates : List CallFate

inductive Tool where
  | stat
  | sha256sum
  | base64
  | head
  | cut
  | mv
  | rm
  | mkdir
  | chown
  | chmod
  deriving DecidableEq

def Tool.ofName (name : Text) : Option Tool :=
  Assoc.get? name [("stat".toList, .stat), ("sha256sum".toList, .sha256sum), ("base64".toList, .base64),
    ("head".toList, .head), ("cut".toList, .cut), ("mv".toList, .mv), ("rm".toList, .rm), ("mkdir".toList, .mkdir),
    ("chown".toList, .chown), ("chmod".toList, .chmod)]

def Inode.isSymlink : Inode → Bool
  | .symlink _ => true
  | _ => false

namespace Machine

def set (m : Machine) (path : Text) (node : Inode) : Machine := { m with fs := Function.update m.fs path node }

/-- The others leave `fs`, but for the manifest. -/
def edit (m : Machine) (fs : Fs) : Machine := { m with fs := fun p => if p = manifestPath then m.fs p else fs p }

/-- The others' turn. -/
def turn (m : Machine) : Machine :=
  match m.turns with
  | [] => m
  | none :: turns => { m with turns }
  | some fs :: turns => { m with turns }.edit fs

/-- What becomes of the next call. -/
def fate (m : Machine) : CallFate × Machine :=
  match m.fates with
  | [] => (.works, m)
  | f :: fates => (f, { m with fates })

/-- `[ -L path ]`, `[ -e path ]`, `[ -d path ]` and `[ -f path ]` -/
def test (m : Machine) (op : Char) (path : Text) : Bool :=
  if op = 'L' then (m.fs path).isSymlink
  else
    match nodeAt m.fs path with
    | .missing | .symlink _ => false
    | .dir => op == 'e' || op == 'd'
    | .file .. => op == 'e' || op == 'f'
    | .other => op == 'e'

/-- What a file that can be opened holds. -/
def content (m : Machine) (path : Text) : Option ByteArray :=
  match nodeAt m.fs path with
  | .file _ _ content => some content
  | _ => none

end Machine

/-- `<uid>:<gid>` -/
def parseOwner (t : Text) : Option Owner := do
  let (uid, gid) ← Text.splitOnce ':' t
  return ⟨← Text.parseU32 uid, ← Text.parseU32 gid⟩

/-- The first field of every line. -/
def firstFields (t : Text) : Text :=
  (Text.splitInclusive t).flatMap fun line => line.takeWhile (fun c => c != ' ' && c != '\n') ++ ['\n']

/-- `%u %g %a` -/
def statLine (owner : Owner) (mode : Nat) : Text :=
  Nat.toDigits 10 owner.uid.toNat ++ ' ' :: (Nat.toDigits 10 owner.gid.toNat ++ ' ' :: Nat.toDigits 8 mode)

section

variable [Deps]

/-- What a program writes and what it makes of the files; nothing if it fails. -/
def Tool.run (m : Machine) (input : Text) : Tool → List Text → Option (Text × Machine)
  | .stat, [_, _, path] =>
    match m.fs path with
    | .file owner mode _ => some (statLine owner mode ++ ['\n'], m)
    | _ => none
  | .sha256sum, [] => some ((MetaStore.digest (textBytes input)).toList ++ "  -\n".toList, m)
  | .base64, [_] => (Base64.decode (input.filter (· ≠ '\n'))).map fun bytes => (byteText ⟨bytes.toArray⟩, m)
  | .head, [_, n, path] => (m.content path).map fun c => ((byteText c).take (Nat.ofDigitChars 10 n 0), m)
  | .cut, [_, _] => some (firstFields input, m)
  | .mv, [_, source, path] =>
    match m.fs source with
    | .file owner mode content =>
      let target := moveInto m.fs path (splitName source).2
      if target = source ∨ m.fs target = .dir then none
      else some ([], (m.set source .missing).set target (.file owner mode content))
    | _ => none
  | .rm, [_, path] =>
    match m.fs path with
    | .dir => none
    | _ => some ([], m.set path .missing)
  | .mkdir, [_, _, dir] =>
    match m.fs dir with
    | .missing => if creatable m.fs dir then some ([], m.set dir .dir) else none
    | _ => none
  | .chown, [owner, path] =>
    match parseOwner owner, m.fs path with
    | some owner, .file _ mode content => if owner.settable then some ([], m.set path (.file owner mode content)) else none
    | _, _ => none
  | .chmod, [mode, path] =>
    match m.fs path with
    | .file owner _ content => some ([], m.set path (.file owner (Nat.ofDigitChars 8 mode 0) content))
    | _ => none
  | _, _ => none

/-- What only works on its input. -/
def Tool.isFilter : Tool → Bool
  | .sha256sum | .base64 | .cut => true
  | _ => false

/-- A filter does not fail over what is outside; and a temp file can be removed where one can be made. -/
def Tool.mayFail (tool : Tool) (args : List Text) : Bool :=
  ! tool.isFilter && ! (tool = .rm && args.any fun path => decide (Reserved path))

/-- The options that the scripts give each program. -/
def Tool.options : Tool → List Text
  | .stat => ["-c".toList, "%u %g %a".toList]
  | .sha256sum => []
  | .base64 => ["-d".toList]
  | .head => ["-c".toList]
  | .cut => ["-d ".toList, "-f1".toList]
  | .mv | .rm => ["-f".toList]
  | .mkdir => ["-m".toList, "0755".toList]
  | .chown | .chmod => []

namespace Machine

/-- A program that works, or fails by itself; what it says then is left out. -/
def perform (m : Machine) (tool : Tool) (args : List Text) (input : Text) : Shell.Result × Machine :=
  let rest := if tool.isFilter then [] else input
  match if tool.options.isPrefixOf args then tool.run m input args else none with
  | some (out, m) => (⟨0, out, [], rest⟩, m)
  | none => (⟨1, [], [], rest⟩, m)

def runTool (m : Machine) (tool : Tool) (args : List Text) (input : Text) : Option Shell.Result × Machine :=
  let (fate, m) := m.fate
  let (r, after) := m.perform tool args input
  match fate with
  | .works => (some r, after)
  | .fails err _ => if tool.mayFail args then (some ⟨1, [], err, input⟩, m) else (some r, after)
  | .killed _ => (none, m)
  | .last => (none, after)

def run (argv : List Text) (input : Text) (m : Machine) : Option Shell.Result × Machine :=
  match argv with
  | [] => (some ⟨127, [], [], input⟩, m)
  | name :: args =>
    match m.tools name, Tool.ofName name with
    | some _, some tool => m.runTool tool args input
    | _, _ => (some ⟨127, [], [], input⟩, m)

/-- A file is made with what the umask leaves of its mode, or emptied. -/
def create (umask : Nat) (path : Text) (m : Machine) : Option Bool × Machine :=
  let (fate, m) := m.fate
  let made :=
    match m.fs path with
    | .missing => if creatable m.fs path then some (Inode.file .root (0o666 - (0o666 &&& umask)) ⟨#[]⟩) else none
    | .file owner mode _ => some (.file owner mode ⟨#[]⟩)
    | _ => none
  match fate, made with
  | .works, some node => (some true, m.set path node)
  | .last, some node => (none, m.set path node)
  | .killed _, _ | .last, none => (none, m)
  | .fails _ _, _ | .works, none => (some false, m)

/-- A file that was just made is written. -/
def write (path t : Text) (m : Machine) : Option Bool × Machine :=
  let (fate, m) := m.fate
  match m.fs path with
  | .file owner mode _ =>
    match fate with
    | .works => (some true, m.set path (.file owner mode (textBytes t)))
    | .fails _ kept => (some false, m.set path (.file owner mode (textBytes (t.take kept))))
    | .killed kept => (none, m.set path (.file owner mode (textBytes (t.take kept))))
    | .last => (none, m.set path (.file owner mode (textBytes t)))
  | _ => (some false, m)

end Machine

/-- A guest, as its shell sees it. -/
def system : Shell.System Machine where
  locate m name := m.tools name
  test := Machine.test
  read m path := (m.content path).map byteText
  create := Machine.create
  write := Machine.write
  run := Machine.run

end

end Guest
end PveMeta
