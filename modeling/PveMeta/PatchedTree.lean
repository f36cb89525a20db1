import PveMeta.Lib.Text
import PveMeta.ManagedPatch

/-! # Managed patches in a file tree

`pve-ext-patch apply` and `pve-ext-patch remove` on all the entries of the selected manifests: each path on its own, with
whoever diverts it. Nothing keeps two entries from naming one path; an entry that names the copy that another keeps fails,
for dpkg takes no path for two diversions. -/

namespace PveMeta
namespace ManagedPatch

/-- Who diverts a path: nobody, pve-ext to its copy, or another package, there or to another place. -/
inductive Diverter where
  | nobody
  | pveExt
  | other (toCopy : Bool)
  deriving DecidableEq

/-- A path, whoever diverts it. -/
structure Site where
  upstream : ByteArray
  diverter : Diverter
  real : Option ByteArray
  diverted : Option ByteArray

namespace Site

/-- A path that no other package diverts. -/
def of (s : State) : Site := ⟨s.upstream, if s.diversion then .pveExt else .nobody, s.real, s.diverted⟩

def state (s : Site) : State := ⟨s.upstream, s.diverter = .pveExt, s.real, s.diverted⟩

/-- `--truename` is the copy, whoever diverts the path there. -/
def isDiverted (f : Failing) (s : Site) : Bool :=
  match s.diverter with
  | .nobody | .other false => false
  | .pveExt | .other true => ! f.truename

/-- `--listpackage` is pve-ext. -/
def diversionOwnedByUs (f : Failing) (s : Site) : Bool := decide (s.diverter = .pveExt) && ! f.listpackage

/-- `--add` clashes with another package's diversion. -/
def dpkgDivertAdd (f : Failing) (s : Site) : Option Site :=
  match s.diverter with
  | .other _ => none
  | .nobody | .pveExt => (ManagedPatch.dpkgDivertAdd f s.state).map of

def divert (f : Failing) (s : Site) : Option (Bool × Site) :=
  if s.isDiverted f then if s.diversionOwnedByUs f then some (false, s) else none
  else if s.real.isNone then none
  else (s.dpkgDivertAdd f).map (true, ·)

/-- `apply_one` -/
def applyOne (e : Entry) (f : Failing) (s : Site) : Bool × Site :=
  if f.diff then (false, s)
  else
    match s.divert f with
    | none => (false, s)
    | some (createdDivert, s) =>
      let (ok, t) := rebuild e f createdDivert s.state
      (ok, of t)

/-- `remove_one` -/
def removeOne (f : Failing) (s : Site) : Bool × Site :=
  if s.isDiverted f then
    if s.diversionOwnedByUs f then
      let (ok, t) := ManagedPatch.removeOne f s.state
      (ok, of t)
    else (false, s)
  else (true, s)

end Site

/-! ### The tree -/

/-- The name of the copy that a diversion keeps. -/
def divertedPath (path : Text) : Text := path ++ ".pve-ext-orig".toList

/-- The file goes to its copy, whoever diverts it. -/
def Diverter.toCopy : Diverter → Bool
  | .pveExt | .other true => true
  | .nobody | .other false => false

/-- The files, what packages ship, and dpkg's diversions. -/
@[ext] structure Tree where
  file : Text → Option ByteArray
  upstream : Text → ByteArray
  diverter : Text → Diverter

namespace Tree

def site (t : Tree) (path : Text) : Site := ⟨t.upstream path, t.diverter path, t.file path, t.file (divertedPath path)⟩

/-- Of a path and the copy that it is to have, one is in another's diversion: as the path that is diverted, or as the copy.
    Which other places the `.other false` divert to is not known here; a clash with one is a failure of `--add`. -/
def clashes (t : Tree) (path : Text) : Bool :=
  decide (t.diverter (divertedPath path) ≠ .nobody) ||
    (match Text.stripSuffix ".pve-ext-orig".toList path with
    | some original => (t.diverter original).toCopy
    | none => false)

/-- What fails of an entry's turn: `--add` also where it clashes. A diversion that is there already does not. -/
def failing (t : Tree) (path : Text) (f : Failing) : Failing :=
  { f with add := f.add || (decide (t.diverter path ≠ .pveExt) && t.clashes path) }

/-- A command changes a path, its copy and its diversion. -/
def put (t : Tree) (path : Text) (s : Site) : Tree where
  file := Function.update (Function.update t.file path s.real) (divertedPath path) s.diverted
  upstream := t.upstream
  diverter := Function.update t.diverter path s.diverter

end Tree

/-- An entry of a manifest. -/
structure Named where
  path : Text
  entry : Entry

/-- An entry, and which steps fail when its turn comes. -/
abbrev Turn := Named × Failing

def Tree.applyAll : List Turn → Tree → Bool × Tree
  | [], t => (true, t)
  | (n, f) :: turns, t =>
    let (ok, s) := (t.site n.path).applyOne n.entry (t.failing n.path f)
    let (ok', t) := Tree.applyAll turns (t.put n.path s)
    (ok && ok', t)

def Tree.removeAll : List Turn → Tree → Bool × Tree
  | [], t => (true, t)
  | (n, f) :: turns, t =>
    let (ok, s) := (t.site n.path).removeOne f
    let (ok', t) := Tree.removeAll turns (t.put n.path s)
    (ok && ok', t)

/-- The entries that are read of the selected manifests: one without a path is passed over. -/
def turnsOf (manifests : List (List Turn)) : List Turn := manifests.flatten.filter fun turn => ! turn.1.path.isEmpty

/-- `apply`, unless it does not come to the first file; without any entry, it fails. -/
def cmdApply (starts : Bool) (manifests : List (List Turn)) (t : Tree) : Bool × Tree :=
  if ! starts || (turnsOf manifests).isEmpty then (false, t) else Tree.applyAll (turnsOf manifests) t

/-- `remove`, unless it does not come to the first file. -/
def cmdRemove (starts : Bool) (manifests : List (List Turn)) (t : Tree) : Bool × Tree :=
  if ! starts then (false, t) else Tree.removeAll (turnsOf manifests) t

end ManagedPatch
end PveMeta
