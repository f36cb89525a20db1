import PveMeta.Backup
import PveMeta.Lib.Log

/-! # The lifecycle hooks

What the patched `PVE::AbstractConfig` does about a guest's metadata when its config is created, written and
destroyed, and the two marker files on the node that tie the steps of one restore together. A hook that gets
no lock, or that fails, is a warning and nothing more. -/

namespace PveMeta
namespace Lifecycle
open Backup MetaStore

/-- What the hooks look at in a guest's config. -/
structure GuestConf where
  lock : Option String
  description : Option Text

/-- What one node has for one guest: the store, and whether `/run/pve-meta/<vmid>` and
    `/run/pve-meta/<vmid>.existing` are there. -/
structure Node where
  store : MetaStore
  created : Bool
  existing : Bool

/-- What a hook that ran under the lock came to; nothing, if it got no lock. -/
abbrev Outcome (α : Type) := Option (Except Error α)

/-- What a config write did about the metadata. -/
inductive Effect where
  | none
  | imports (r : Outcome Import)
  | clears (r : Outcome Nat)

/-- `locked_warn` -/
def lockedWarn {α : Type} (gotLock : Bool) (s : MetaStore) (code : MetaStore → Except Error α × MetaStore) :
    Outcome α × MetaStore :=
  if gotLock then ((code s).1, (code s).2) else (none, s)

/-- `index($notes, '[pve-meta v') != -1` -/
def mentionsBlock (notes : Text) : Bool := notes.tails.any fun t => beginPrefix.isPrefixOf t

/-- The config's notes mention a block (`$meta_block`). -/
def metaBlock (conf : GuestConf) : Bool :=
  match conf.description with
  | some notes => mentionsBlock notes
  | none => false

/-- `!$conf->{lock}` -/
def unlocked (conf : GuestConf) : Bool :=
  match conf.lock with
  | some lock => lock = "" || lock = "0"
  | none => true

/-- A write that takes the marker, if it is there. -/
def takes (conf : GuestConf) : Bool := metaBlock conf || unlocked conf

/-- The notes an import hands back; empty ones are left out. -/
def withDescription (conf : GuestConf) (r : Outcome Import) : GuestConf :=
  match r with
  | some (.ok ⟨_, some notes⟩) =>
      if notes.isEmpty then { conf with description := none } else { conf with description := some notes }
  | _ => conf

section

variable [Deps]

/-- `write_config`, up to the write of the file. -/
def writeConfig (vmid : UInt32) (n : Node) (conf : GuestConf) (gotLock : Bool) : Node × GuestConf × Effect :=
  if takes conf && n.created then
    -- Both markers are gone from here on.
    if metaBlock conf then
      let (r, s) := lockedWarn gotLock n.store fun s => importBlock s vmid (conf.description.getD []) .restore
      (⟨s, false, false⟩, withDescription conf r, .imports r)
    else if n.existing then
      let (r, s) := lockedWarn gotLock n.store fun s => s.purge vmid
      (⟨s, false, false⟩, conf, .clears r)
    else (⟨n.store, false, false⟩, conf, .none)
  else (n, conf, .none)

/-- What `create_and_lock_config` does after its own write of the config. -/
def markCreated (vmid : UInt32) (n : Node) (allowExisting gotLock : Bool) : Node :=
  let s := if allowExisting then n.store else (lockedWarn gotLock n.store fun s => s.purge vmid).2
  ⟨s, true, allowExisting⟩

/-- The config that `create_and_lock_config` writes: the one there is, or an empty one, locked. -/
def skeleton (old : GuestConf) (lock : Option String) : GuestConf := { old with lock := some (lock.getD "create") }

/-- `create_and_lock_config`; its own write comes before the marker. -/
def createAndLockConfig (vmid : UInt32) (n : Node) (allowExisting : Bool) (lock : Option String) (old : GuestConf)
    (gotImport gotPurge : Bool) : Node × Effect :=
  let (n, _, e) := writeConfig vmid n (skeleton old lock) gotImport
  (markCreated vmid n allowExisting gotPurge, e)

/-- `destroy_config`, after the config is gone: the marker goes last, if the purge went through. -/
def destroyConfig (vmid : UInt32) (n : Node) (gotLock : Bool) : Node :=
  let (r, s) := lockedWarn gotLock n.store fun s => s.purge vmid
  match r with
  | some (.ok _) => ⟨s, false, n.existing⟩
  | _ => ⟨s, n.created, n.existing⟩

/-! ### Runs -/

/-- A call for the guest on its node, or a change of the store by anyone else. -/
inductive Call where
  | create (allowExisting : Bool) (lock : Option String) (old : GuestConf) (gotImport gotPurge : Bool)
  | write (conf : GuestConf) (gotLock : Bool)
  | destroy (gotLock : Bool)
  | other (store : MetaStore)

/-- What a call leaves in the log of a run. -/
inductive Entry where
  | wrote (conf : GuestConf) (effect : Effect)
  | created (allowExisting : Bool)
  | destroyed
  | other

def step (vmid : UInt32) (n : Node) : Call → Node × List Entry
  | .create allow lock old gotImport gotPurge =>
    let (n, e) := createAndLockConfig vmid n allow lock old gotImport gotPurge
    (n, [.wrote (skeleton old lock) e, .created allow])
  | .write conf gotLock =>
    let (n, _, e) := writeConfig vmid n conf gotLock
    (n, [.wrote conf e])
  | .destroy gotLock => (destroyConfig vmid n gotLock, [.destroyed])
  | .other store => ({ n with store }, [.other])

/-- A run of calls, and its log. -/
def run (vmid : UInt32) (n : Node) (calls : List Call) : Node × List Entry := Log.run (step vmid) n calls

/-- Writes of the config, one after the other, each with the lock it needs. -/
def writeAll (vmid : UInt32) (n : Node) (confs : List GuestConf) : Node :=
  confs.foldl (fun n conf => (writeConfig vmid n conf true).1) n

end

end Lifecycle
end PveMeta
