import PveMeta.Clients

/-! # A vmid and its incarnations

One vmid, whose guest is destroyed and created again while clients of the endpoint write its document. Its config
comes and goes under a lock of its own; the hooks follow some time after, under the document's lock, which the
writes take too. Nothing tells a client that the guest is another than the one it read of. -/

namespace PveMeta
namespace Incarnations
open Clients

/-- What a create or a destroy still has to do about the metadata. -/
inductive Hook where
  | create (incarnation : Nat)
  | destroy
  deriving DecidableEq

/-- The clients' system, stamped with the incarnation; whether the guest's config is there; the hooks that are due, and
    the one that has the document's lock. -/
structure Cluster where
  system : System
  config : Bool
  due : List Hook
  running : Option Hook

/-- No create has been seen yet, and no hook is due. -/
def Cluster.start (store : MetaStore) (vms : List UInt32) (config : Bool) : Cluster :=
  ⟨.start store vms, config, [], none⟩

/-- A step of a client (or of the vmlist, which may say what was), of a create or a destroy, or of a hook. -/
inductive Event where
  | client (move : Move)
  | unlink
  | create (allowExisting : Bool)
  | lock (hook : Hook)
  | hook

/-- What is logged: an acknowledged write of any document, or a hook that ran. -/
inductive Entry where
  | ack (a : Ack)
  | ran (hook : Hook)

section

variable [Deps]

def step (vmid : UInt32) (y : Cluster) : Event → Cluster × List Entry
  | .client move => ({ y with system := (Clients.step y.system move).1 }, (Clients.step y.system move).2.map .ack)
  | .unlink =>
    -- `destroy_config`
    if y.config then ({ y with config := false, due := .destroy :: y.due }, []) else (y, [])
  | .create allowExisting =>
    -- `create_and_lock_config`, after `check_vmid_unused`; a restore over an existing guest calls no hook here.
    if y.config && ! allowExisting then (y, [])
    else
      let incarnation := y.system.epoch + 1
      let due := if allowExisting then y.due else .create incarnation :: y.due
      ({ y with system := { y.system with epoch := incarnation }, config := true, due }, [])
  | .lock hook =>
    if hook ∈ y.due ∧ y.system.holder (Perl.hookLock vmid) = none then
      let holder := Function.update y.system.holder (Perl.hookLock vmid) (some .hook)
      ({ y with system := { y.system with holder }, due := y.due.erase hook, running := some hook }, [])
    else (y, [])
  | .hook =>
    -- `on_create` and `on_destroy` are one call of the store; where it fails, the hook has not run.
    match y.running, y.system.store.purge vmid with
    | some hook, (.ok _, store) =>
      let holder := Function.update y.system.holder (Perl.hookLock vmid) none
      ({ y with system := { y.system with store, holder }, running := none }, [.ran hook])
    | _, _ => (y, [])

/-- A run of events in any order, and its log. -/
def run (vmid : UInt32) (y : Cluster) (events : List Event) : Cluster × List Entry := Log.run (step vmid) y events

end

/-- What an entry leaves of the file of the guest's document. -/
def Entry.file (vmid : UInt32) (own : Option File) : Entry → Option File
  | .ack a => if a.job.doc = .guest vmid then a.file own else own
  | .ran _ => none

/-- What the entries leave of it, from nothing. -/
def left (vmid : UInt32) (log : List Entry) : Option File := log.foldl (Entry.file vmid) none

end Incarnations
end PveMeta
