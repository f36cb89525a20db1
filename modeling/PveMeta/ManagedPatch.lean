import Mathlib.Data.List.Infix

/-! # Managed patches

`pve-ext-patch apply` and `pve-ext-patch remove` on one path (`pve-ext/bin/pve-ext-patch`): the file that a package
ships, dpkg's diversion of it, the pristine copy that the diversion keeps, and the live file. Every step but the tests
of a file can fail. -/

namespace PveMeta
namespace ManagedPatch

/-- A line's bytes. -/
abbrev Line := List UInt8

/-- What a manifest says of the path, and what the tools make of that: `patch -p1 --fuzz=0` with the diff, none if a
    hunk does not apply, and whether `perl -c` ends with `syntax OK`. -/
structure Entry where
  patch : ByteArray → Option ByteArray
  marker : Line
  check : String
  perlCheckOk : ByteArray → Bool

/-- The package's current file; whether pve-ext diverts it; the files at `real` and at `diverted`. -/
structure State where
  upstream : ByteArray
  diversion : Bool
  real : Option ByteArray
  diverted : Option ByteArray

/-- The file as its package installed it. -/
def State.installed (upstream : ByteArray) : State := ⟨upstream, false, some upstream, none⟩

/-- How a step that writes a file ends, and what it leaves of the file if it fails. -/
inductive Copy where
  | ok
  | failed (left : Option ByteArray)

/-- Which steps of a command fail: what precedes the first file, the diff's being there, the two queries of
    `dpkg-divert` and its `--add` and `--remove`, the copy that stands in for the file, what goes on in the scratch
    area, the check, `install`, `rm -f`, and `cp -a`. -/
structure Failing where
  start : Bool
  diff : Bool
  truename : Bool
  listpackage : Bool
  add : Bool
  remove : Bool
  placeholder : Copy
  scratch : Bool
  check : Bool
  install : Copy
  rm : Bool
  restore : Copy

/-- Nothing fails. -/
def Failing.none : Failing := ⟨false, false, false, false, false, false, .ok, false, false, .ok, false, .ok⟩

/-! ### Files -/

/-- `file` is copied to `real`. -/
def State.write (s : State) (copy : Copy) (file : ByteArray) : State :=
  match copy with
  | .ok => { s with real := some file }
  | .failed left => { s with real := left }

/-- `rm -f "$real"` -/
def State.rm (s : State) (f : Failing) : State := if f.rm then s else { s with real := .none }

/-! ### dpkg-divert -/

/-- A query that fails says no. -/
def isDiverted (f : Failing) (s : State) : Bool := s.diversion && ! f.truename

/-- `--add --rename`: a diversion that is there already is left as it is, and no other file is overwritten. -/
def dpkgDivertAdd (f : Failing) (s : State) : Option State :=
  if f.add then none
  else if s.diversion then some s
  else
    match s.real, s.diverted with
    | some _, some _ => none
    | some file, .none => some { s with diversion := true, real := .none, diverted := some file }
    | .none, _ => some { s with diversion := true }

/-- `--remove --rename`: no other file is overwritten. -/
def dpkgDivertRemove (f : Failing) (s : State) : Option State :=
  if f.remove then none
  else if ! s.diversion then some s
  else
    match s.diverted, s.real with
    | some _, some _ => none
    | some file, .none => some { s with diversion := false, real := some file, diverted := .none }
    | .none, _ => some { s with diversion := false }

/-! ### The checks -/

/-- The lines that `grep` counts: what follows the last newline is one if it is not empty. -/
def lines (file : ByteArray) : List Line :=
  let parts := file.data.toList.splitOn 10
  if parts.getLast? = some [] then parts.dropLast else parts

def countLines (needle : Line) (file : ByteArray) : Nat := (lines file).countP fun line => decide (needle <:+: line)

/-- `</body>` -/
def bodyEnd : Line := [60, 47, 98, 111, 100, 121, 62]

def templateCheckOk (marker : Line) (file : ByteArray) : Bool := countLines marker file == 1 && countLines bodyEnd file != 0

def runCheck (e : Entry) (file : ByteArray) : Bool :=
  if e.check = "perl" then e.perlCheckOk file
  else if e.check = "template" then templateCheckOk e.marker file
  else false

/-! ### Apply -/

def restoreOnFailure (f : Failing) (createdDivert : Bool) (s : State) : State :=
  if createdDivert then (dpkgDivertRemove f (s.rm f)).getD (s.rm f)
  else
    match s.diverted with
    | some file => s.write f.restore file
    | none => s

/-- The diversion that `apply` works with, and whether it is new; none if it stops here. -/
def divert (f : Failing) (s : State) : Option (Bool × State) :=
  if isDiverted f s then if f.listpackage then none else some (false, s)
  else if s.real.isNone then none
  else (dpkgDivertAdd f s).map (true, ·)

/-- The pristine copy stands in for a file that is not there, as after a diversion that is new. -/
def standIn (f : Failing) (pristine : ByteArray) (s : State) : Bool × State :=
  match s.real, f.placeholder with
  | some _, _ => (true, s)
  | none, .ok => (true, s.write .ok pristine)
  | none, .failed left => (false, s.write (.failed left) pristine)

/-- The patched file, if the diff applies and the check passes. -/
def build (e : Entry) (f : Failing) (pristine : ByteArray) : Option ByteArray :=
  if f.scratch then none else (e.patch pristine).filter fun file => runCheck e file && ! f.check

/-- `apply_one` from where the path is diverted. -/
def rebuild (e : Entry) (f : Failing) (createdDivert : Bool) (s : State) : Bool × State :=
  match s.diverted with
  | none => (false, restoreOnFailure f createdDivert s)
  | some pristine =>
    match standIn f pristine s with
    | (false, s) => (false, restoreOnFailure f createdDivert s)
    | (true, s) =>
      match build e f pristine with
      | none => (false, restoreOnFailure f createdDivert s)
      | some file =>
        -- An `install` that fails is not rolled back.
        (f.install matches .ok, s.write f.install file)

def applyOne (e : Entry) (f : Failing) (s : State) : Bool × State :=
  if f.diff then (false, s)
  else
    match divert f s with
    | none => (false, s)
    | some (createdDivert, s) => rebuild e f createdDivert s

/-! ### Remove -/

def removeOne (f : Failing) (s : State) : Bool × State :=
  if isDiverted f s then
    if f.listpackage then (false, s)
    else
      match dpkgDivertRemove f (s.rm f), s.diverted, (s.rm f).real with
      | some s, _, _ => (true, s)
      | none, some file, none => (false, (s.rm f).write f.restore file)
      | none, _, _ => (false, s.rm f)
  else (true, s)

/-! ### Runs -/

inductive Command where
  | apply (f : Failing)
  | remove (f : Failing)

def Command.failing : Command → Failing
  | .apply f | .remove f => f

/-- Whether the command succeeds, and what it leaves. -/
def Command.run (e : Entry) (c : Command) (s : State) : Bool × State :=
  if c.failing.start then (false, s)
  else
    match c with
    | .apply f => applyOne e f s
    | .remove f => removeOne f s

/-- A command, or an upgrade of the package, which dpkg unpacks where the diversion says. -/
inductive Event where
  | command (c : Command)
  | upgrade (file : ByteArray)

def step (e : Entry) (s : State) : Event → State
  | .command c => (c.run e s).2
  | .upgrade file =>
    if s.diversion then { s with upstream := file, diverted := some file }
    else { s with upstream := file, real := some file }

def run (e : Entry) (s : State) (events : List Event) : State := events.foldl (step e) s

end ManagedPatch
end PveMeta
