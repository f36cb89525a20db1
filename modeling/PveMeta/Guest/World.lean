import Mathlib
import PveMeta.Guest.Plan

/-! # The guest that a sync acts in

What the calls of a sync do inside a guest (`guest.rs`), by the scripts that do it (`pct.rs`). Before every step the others
may do to the files what they like, and every step can fail, or be the last before the script is cut off. The log says what
became of the files; nothing depends on it. -/

namespace PveMeta
namespace Guest

/-- What is at a path of the guest; at a symlink, the path that it leads to in the end. -/
inductive Inode where
  | missing
  | symlink (target : Text)
  | dir
  | file (owner : Owner) (mode : Nat) (content : ByteArray)
  | other
  deriving DecidableEq

abbrev Fs := Text → Inode

/-- Where a path leads: to itself, unless it is a symlink. -/
def leadsTo (fs : Fs) (path : Text) : Text :=
  match fs path with
  | .symlink target => target
  | _ => path

/-- What is at a path, a symlink followed, perhaps to `/`. -/
def nodeAt (fs : Fs) (path : Text) : Inode :=
  match fs path with
  | .symlink [] => .dir
  | .symlink target => fs target
  | node => node

/-- Something can be made in the directory. -/
def canHold (fs : Fs) (dir : Text) : Bool := dir == [] || nodeAt fs dir == .dir

/-- `NAME_MAX`, and `PATH_MAX` with the byte that ends a path. -/
def fits (path : Text) : Bool :=
  decide (Text.byteLen path < 4096) && (path.splitOn '/').all fun name => decide (Text.byteLen name ≤ 255)

/-- Something can be made at the path: its directory is there, and its name is not too long. -/
def creatable (fs : Fs) (path : Text) : Bool := canHold fs (splitName path).1 && fits path

/-- Where `mv` puts a file of this name: into what the path leads to, if that is a directory. -/
def moveInto (fs : Fs) (path name : Text) : Text :=
  if nodeAt fs path = .dir then leadsTo fs path ++ '/' :: name else path

/-- `chown` takes neither of the ids that stand for none. -/
def Owner.settable (o : Owner) : Bool := o.uid != 0xffffffff && o.gid != 0xffffffff

/-- How a step fails: the call does, or the write of a temp file, what gives that its owner and mode, or the rename,
    the removal or the `mkdir`; or the script is cut off, before the step or with the temp file half written. -/
inductive Fault where
  | none
  | write
  | owner
  | final
  | cut
  | cutWriting (left : ByteArray)
  deriving DecidableEq

/-- What the others leave of the files before a step, and how the step fails. -/
structure Turn where
  others : Option Fs
  fault : Fault

/-- What a sync did to a file: it found it exactly as wanted, or wrote one of this hash; or a file of this hash is no
    more. -/
inductive Deed where
  | found (path : Text) (sha256 : String)
  | wrote (path : Text) (sha256 : String)
  | destroyed (path : Text) (sha256 : String)
  deriving DecidableEq

/-- The guest's files, what is to happen to them while a sync runs, and what syncs have done to them. -/
structure World where
  fs : Fs
  turns : List Turn
  log : List Deed

/-- What happened to one operation of a commit. -/
inductive Outcome where
  | done
  | changed
  | failed (what : String)
  deriving DecidableEq

namespace World

/-- The others leave `fs`, but for the manifest. -/
def edit (w : World) (fs : Fs) : World := { w with fs := fun p => if p = manifestPath then w.fs p else fs p }

/-- The next step's turn is taken. -/
def turn (w : World) : Fault × World :=
  match w.turns with
  | [] => (.none, w)
  | t :: turns =>
    let w := { w with turns }
    (t.fault, match t.others with
      | some fs => w.edit fs
      | none => w)

def set (w : World) (path : Text) (node : Inode) : World := { w with fs := Function.update w.fs path node }

def note (w : World) (deeds : List Deed) : World := { w with log := w.log ++ deeds }

end World

section

variable [Deps]

def Inode.lstat : Inode → Node
  | .missing => .missing
  | .symlink _ => .symlink
  | .dir => .dir
  | .file owner mode content => .file owner.uid owner.gid mode (MetaStore.digest content)
  | .other => .other

namespace World

/-- A file that a step is about to do away with. -/
def destroy (w : World) (path : Text) : World :=
  match w.fs path with
  | .file _ _ content => w.note [.destroyed path (MetaStore.digest content)]
  | _ => w

/-- `rm -f` -/
def rmForce (w : World) (path : Text) : World :=
  match w.fs path with
  | .dir => w
  | _ => (w.destroy path).set path .missing

/-- Where `mv -f` puts the path's temp file. -/
def moveTarget (w : World) (path : Text) : Text := moveInto w.fs path (splitName (tempFor path)).2

/-- `mv -f` of a temp file with this content. -/
def move (w : World) (path : Text) (owner : Owner) (mode : Nat) (content : ByteArray) : World :=
  let target := w.moveTarget path
  ((w.destroy target).set target (.file owner mode content)).note [.wrote target (MetaStore.digest content)]

end World

def Expect.holds (node : Inode) : Expect → Bool
  | .any => true
  | .missing => node == .missing
  | .sha256 hash =>
    match node with
    | .file _ _ content => MetaStore.digest content == hash
    | _ => false

/-! ### The steps of a commit -/

def cutOff : String := "no answer, killed"

/-- `w` of the commit script; the expectation is checked with the rename. A file is not renamed to itself. -/
def place (w : World) (fault : Fault) (path : Text) (content : ByteArray) (mode : Nat) (owner : Owner) (expect : Expect) :
    Except String Outcome × World :=
  let w := w.rmForce (tempFor path)
  if fault = .write ∨ w.fs (tempFor path) = .dir ∨ creatable w.fs (tempFor path) = false then (.ok (.failed "write"), w)
  else
    match fault with
    | .owner => (.ok (.failed "owner or mode"), w)
    | .cutWriting left => (.error cutOff, w.set (tempFor path) (.file .root 0o600 left))
    | _ =>
      if owner.settable = false then (.ok (.failed "owner or mode"), w)
      else if ! expect.holds (w.fs path) then (.ok .changed, w)
      else if fault = .final ∨ w.moveTarget path = tempFor path ∨ w.fs (w.moveTarget path) = .dir then
        (.ok (.failed "rename"), w)
      else (.ok .done, w.move path owner mode content)

/-- `rmf` of the commit script. -/
def remove (w : World) (fault : Fault) (path : Text) (sha256 : String) : Outcome × World :=
  match w.fs path with
  | .missing => (.done, w)
  | .file _ _ content =>
    if MetaStore.digest content ≠ sha256 then (.changed, w)
    else if fault = .final then (.failed "removal", w)
    else (.done, (w.destroy path).set path .missing)
  | .symlink _ | .dir | .other => (.changed, w)

def runOp (w : World) (op : Op) : Except String Outcome × World :=
  let (fault, w) := w.turn
  if fault = .cut then (.error cutOff, w)
  else
    match op with
    | .place path content mode owner expect => place w fault path content mode owner expect
    | .remove path sha256 =>
      let (outcome, w) := remove w fault path sha256
      (.ok outcome, w)

/-- `d` of the commit script. -/
def mkdir (w : World) (dir : Text) : Except String Unit × World :=
  let (fault, w) := w.turn
  match w.fs dir with
  | .dir => if fault = .none then (.ok (), w) else (.error cutOff, w)
  | .symlink _ => (.error (String.ofList dir ++ " is a symlink"), w)
  | .file .. | .other => (.error (String.ofList dir ++ " is not a directory"), w)
  | .missing =>
    if fault ≠ .none ∨ creatable w.fs dir = false then (.error cutOff, w) else (.ok (), w.set dir .dir)

def mkdirs : List Text → World → Except String Unit × World
  | [], w => (.ok (), w)
  | dir :: dirs, w =>
    match mkdir w dir with
    | (.error e, w) => (.error e, w)
    | (.ok (), w) => mkdirs dirs w

def runOps : List Op → World → Except String (List Outcome) × World
  | [], w => (.ok [], w)
  | op :: ops, w =>
    match runOp w op with
    | (.error e, w) => (.error e, w)
    | (.ok outcome, w) =>
      match runOps ops w with
      | (.error e, w) => (.error e, w)
      | (.ok outcomes, w) => (.ok (outcome :: outcomes), w)

/-! ### The calls -/

/-- The call itself fails, before its script does anything or when its output is awaited. -/
def World.call (w : World) : Except String Unit × World :=
  let (fault, w) := w.turn
  (if fault = .none then .ok () else .error cutOff, w)

def World.read (w : World) (path : Text) (max : Nat) : Except String (Option ByteArray) × World :=
  match w.call with
  | (.error e, w) => (.error e, w)
  | (.ok (), w) =>
    match w.fs path with
    | .file _ _ content =>
      if content.size > max then (.error (String.ofList path ++ " is above " ++ toString max ++ " bytes"), w)
      else (.ok (some content), w)
    | _ => (.ok none, w)

def World.probeAll : List Text → World → Except String Nodes × World
  | [], w => (.ok [], w)
  | path :: paths, w =>
    match w.call with
    | (.error e, w) => (.error e, w)
    | (.ok (), w) =>
      match World.probeAll paths w with
      | (.error e, w) => (.error e, w)
      | (.ok nodes, after) => (.ok ((path, (w.fs path).lstat) :: nodes), after)

def World.probe (w : World) (paths : List Text) : Except String Nodes × World := World.probeAll paths w

def World.commit (w : World) (dirs : List Text) (ops : List Op) : Except String (List Outcome) × World :=
  match w.call with
  | (.error e, w) => (.error e, w)
  | (.ok (), w) =>
    match mkdirs dirs w with
    | (.error e, w) => (.error e, w)
    | (.ok (), w) =>
      match runOps ops w with
      | (.error e, w) => (.error e, w)
      | (.ok outcomes, w) =>
        match w.call with
        | (.error e, w) => (.error e, w)
        | (.ok (), w) => (.ok outcomes, w)

end

end Guest
end PveMeta
