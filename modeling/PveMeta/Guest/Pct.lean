import PveMeta.Guest.Machine
import PveMeta.Guest.Script
import PveMeta.Lib.ShellReader

/-! # A guest over `pct exec`

Every read, check and write inside a guest is one call of a generated script, and its answer is the script's exit status and
output (`pct.rs`). -/

namespace PveMeta
namespace Guest

/-! ### Scripts -/

/-- `PROBE` -/
def probeFunction : Text :=
  ("p() \x7b\n" ++
    "  if [ -L \"$1\" ]; then echo L\n" ++
    "  elif [ ! -e \"$1\" ]; then echo M\n" ++
    "  elif [ -d \"$1\" ]; then echo D\n" ++
    "  elif [ -f \"$1\" ]; then\n" ++
    "    s=$(stat -c '%u %g %a' \"$1\") || exit 91\n" ++
    "    h=$(sha256sum < \"$1\" | cut -d' ' -f1) || exit 91\n" ++
    "    echo \"F $s $h\"\n" ++
    "  else echo O\n" ++
    "  fi\n" ++
    "\x7d\n").toList

def probeScript (paths : List Text) : Text :=
  scriptPrelude ++ probeFunction ++ paths.flatMap fun path => "p ".toList ++ quote path ++ ['\n']

def readScript (path : Text) (max : Nat) : Text :=
  scriptPrelude ++ ("if [ -L ".toList ++ quote path ++ " ] || [ ! -f ".toList ++ quote path ++
    " ]; then exit 3; fi\nexec head -c ".toList ++ Nat.toDigits 10 (max + 1) ++ [' '] ++ quote path ++ ['\n'])

/-! ### Answers -/

def lineOf (l : Text) : Text :=
  match Text.stripSuffix ['\n'] l with
  | none => l
  | some l => (Text.stripSuffix ['\r'] l).getD l

/-- `str::lines` -/
def strLines (t : Text) : List Text := (Text.splitInclusive t).map lineOf

/-- `u32::from_str_radix` -/
def fromStrRadix (t : Text) (radix : Nat) : Option UInt32 :=
  let digits := Text.afterSign t
  if digits.isEmpty || ! digits.all fun c => c.isDigit && c.toNat - '0'.toNat < radix then none
  else if Nat.ofDigitChars radix digits 0 < 2 ^ 32 then some (.ofNat (Nat.ofDigitChars radix digits 0))
  else none

def isAsciiHexdigit (c : Char) : Bool := c.isDigit || ('a' ≤ c && c ≤ 'f') || ('A' ≤ c && c ≤ 'F')

section

variable [RustDebug]

def probeNum (t : Text) (radix : Nat) : Except String UInt32 :=
  match fromStrRadix t radix with
  | some n => .ok n
  | none => .error ("bad number " ++ RustDebug.str t)

/-- One line of a probe. -/
def parseNode (path line : Text) : Except String Node :=
  let unreadable := .error ("probe of " ++ String.ofList path ++ ": unreadable answer " ++ RustDebug.str line)
  match line.splitOn ' ' with
  | [['L']] => .ok .symlink
  | [['M']] => .ok .missing
  | [['O']] => .ok .other
  | [['D']] => .ok .dir
  | [['F'], uid, gid, mode, sha] =>
    if Text.byteLen sha = 64 ∧ sha.all isAsciiHexdigit = true then do
      let uid ← probeNum uid 10
      let gid ← probeNum gid 10
      let mode ← probeNum mode 8
      .ok (.file uid gid mode.toNat (String.ofList (sha.map Char.toLower)))
    else unreadable
  | _ => unreadable

/-- The answers, path by path. A sync probes no path twice, so that the map is this list. -/
def parseNodes : List (Text × Text) → Except String Nodes
  | [] => .ok []
  | (path, line) :: rest => do
    let node ← parseNode path line
    let nodes ← parseNodes rest
    .ok ((path, node) :: nodes)

/-- Reads a probe's output, one line per path in order. -/
def parseProbe (paths : List Text) (stdout : ByteArray) : Except String Nodes :=
  match Text.decode? stdout with
  | none => .error "probe output is not text"
  | some text =>
    let lines := strLines text
    if lines.length ≠ paths.length then
      .error ("probe answered " ++ toString lines.length ++ " lines for " ++ toString paths.length ++ " paths")
    else parseNodes (paths.zip lines)

/-- The `i`-th line of a commit. -/
def parseOutcome (i : Nat) (line : Text) : Except String Outcome :=
  match Text.stripPrefix (Nat.toDigits 10 i ++ [' ']) line with
  | none => .error ("commit: unreadable answer " ++ RustDebug.str line)
  | some rest =>
    if rest = "done".toList then .ok .done
    else if rest = "changed".toList then .ok .changed
    else
      match Text.stripPrefix "failed ".toList rest with
      | some what => .ok (.failed (String.ofList what))
      | none => .error ("commit: unreadable answer " ++ RustDebug.str line)

def parseOutcomes : Nat → List Text → Except String (List Outcome)
  | _, [] => .ok []
  | i, line :: lines => do
    let outcome ← parseOutcome i line
    let outcomes ← parseOutcomes (i + 1) lines
    .ok (outcome :: outcomes)

/-- Reads a commit's output: one line per operation, in order. -/
def parseCommit (n : Nat) (stdout : ByteArray) : Except String (List Outcome) :=
  match Text.decode? stdout with
  | none => .error "commit output is not text"
  | some text => do
    let out ← parseOutcomes 0 (strLines text)
    if out.length ≠ n then .error ("commit answered " ++ toString out.length ++ " of " ++ toString n ++ " operations")
    else .ok out

end

/-! ### Calls -/

/-- The most that a call may write. -/
def maxOutput : Nat := 4 * 1024 * 1024

def stderrCap : Nat := 64 * 1024

/-- Captured result of a finished command. -/
structure Output where
  status : Nat
  stdout : ByteArray
  stderr : Text

/-- How deep a shell's functions can call one another. -/
def shellDepth : Nat := 64

section

variable [Deps]

/-- What is left of a script that has come to an end: its answer, if that can be had. -/
def answer : Shell.Flow × Shell.State Machine → Except String Output × Machine
  | (.killed, s) => (.error "pct exec: no answer after 120s, killed", s.sys)
  | (_, s) =>
    if s.out.length > maxOutput ∨ s.err.length > stderrCap then (.error "pct exec: more output than allowed", s.sys)
    else (.ok ⟨s.status, textBytes s.out, s.err⟩, s.sys)

namespace Pct

/-- `pct exec <vmid> -- /bin/sh -s`, which can fail before its shell runs, or when all is done. -/
def exec (script : Text) (m : Machine) : Except String Output × Machine :=
  match m.fate with
  | (.works, m) => answer (Shell.runScript system Machine.turn shellDepth script m)
  | (.last, m) =>
    (.error "pct exec: no answer after 120s, killed", (Shell.runScript system Machine.turn shellDepth script m).2.sys)
  | (.fails err _, m) => (.ok ⟨255, ⟨#[]⟩, err⟩, m)
  | (.killed _, m) => (.error "pct exec: no answer after 120s, killed", m)

variable [RustDebug] (vmid : UInt32)

/-- What is said of a script that failed. -/
def failure (what : String) (out : Output) : String :=
  what ++ " in guest " ++ toString vmid.toNat ++ " failed (exit " ++ toString out.status ++ "): " ++
    RustDebug.str (Text.trimEnd (out.stderr.dropWhile Text.isSpace))

def execOk (what : String) (script : Text) (m : Machine) : Except String Output × Machine :=
  match exec script m with
  | (.error e, m) => (.error e, m)
  | (.ok out, m) => if out.status ≠ 0 then (.error (failure vmid what out), m) else (.ok out, m)

def probe (paths : List Text) (m : Machine) : Except String Nodes × Machine :=
  match execOk vmid "probe" (probeScript paths) m with
  | (.error e, m) => (.error e, m)
  | (.ok out, m) => (parseProbe paths out.stdout, m)

def read (path : Text) (max : Nat) (m : Machine) : Except String (Option ByteArray) × Machine :=
  match exec (readScript path max) m with
  | (.error e, m) => (.error e, m)
  | (.ok out, m) =>
    if out.status = 0 then
      if out.stdout.size > max then
        (.error (String.ofList path ++ " in guest " ++ toString vmid.toNat ++ " is above " ++ toString max ++ " bytes"), m)
      else (.ok (some out.stdout), m)
    else if out.status = 3 then (.ok none, m)
    else (.error (failure vmid ("reading " ++ String.ofList path) out), m)

def commit (dirs : List Text) (ops : List Op) (m : Machine) : Except String (List Outcome) × Machine :=
  match execOk vmid "commit" (commitScript dirs ops) m with
  | (.error e, m) => (.error e, m)
  | (.ok out, m) => (parseCommit ops.length out.stdout, m)

end Pct

end

end Guest
end PveMeta
