import PveMeta.Clients

/-! # A guest is created

`create_and_lock_config` of a vmid that is not in use, while clients of the endpoint write. The config is there
first, and from then on the vmlist may name the guest; the hook that clears the vmid comes after it, under the lock
of the document that the writes take too. A write may carry a digest here, or none. -/

namespace PveMeta
namespace Creation
open Api Clients

/-- How far the create is: the vmid is free, the config is there, its hook has the document's lock, it has returned. -/
inductive Stage where
  | unused
  | visible
  | clearing
  | returned
  deriving DecidableEq

structure World where
  system : System
  stage : Stage

/-- The vmid is free, and the vmlist names no guest yet. -/
def World.start (store : MetaStore) : World := ⟨.start store [], .unused⟩

/-- A step of a client, of the vmlist, or of the create. -/
inductive Event where
  | env (env : History.Env)
  | vmlist (vms : List UInt32)
  | take (c : Nat) (request : Request)
  | assertExists (c : Nat)
  | check (c : Nat)
  | plan (c : Nat)
  | apply (c : Nat)
  | create (allowExisting : Bool)
  | lock
  | timeout
  | hook

/-- What is logged: an acknowledged write of any document, and that the hook has removed the guest's document. -/
inductive Entry where
  | ack (a : Ack)
  | cleared

/-- `_locked`: a write of a client that does not write takes the lock of its id. -/
def take (y : System) (c : Nat) (request : Request) : System :=
  match parseId request.id, Perl.lockDomainFor request.id with
  | .ok doc, .ok lock =>
    if Perl.isRouted request.id = true ∧ (y.phase c).job?.isNone ∧ y.holder lock = none then
      y.acquire c ⟨request, ⟨doc, request.digest.getD "", none, y.epoch⟩, lock, y.epoch⟩
    else y
  | _, _ => y

section

variable [Deps]

def step (vmid : UInt32) (y : World) : Event → World × List Entry
  | .env env => ({ y with system := { y.system with store := env.meet y.system.store } }, [])
  | .vmlist vms =>
    if vmid ∈ vms ∧ y.stage = .unused then (y, []) else ({ y with system := { y.system with vms } }, [])
  | .take c request => ({ y with system := take y.system c request }, [])
  | .assertExists c => ({ y with system := assertExists y.system c }, [])
  | .check c => ({ y with system := Clients.check y.system c }, [])
  | .plan c => ({ y with system := Clients.plan y.system c }, [])
  | .apply c => ({ y with system := (Clients.apply y.system c).1 }, (Clients.apply y.system c).2.map .ack)
  | .create allowExisting =>
    match y.stage with
    | .unused => ({ y with stage := if allowExisting then .returned else .visible }, [])
    | _ => (y, [])
  | .lock =>
    if y.stage = .visible ∧ y.system.holder (Perl.hookLock vmid) = none then
      let holder := Function.update y.system.holder (Perl.hookLock vmid) (some .hook)
      (⟨{ y.system with holder }, .clearing⟩, [])
    else (y, [])
  | .timeout =>
    -- `locked_warn` warns of a lock it does not get, and of a hook that fails, and the create goes on.
    match y.stage with
    | .visible => ({ y with stage := .returned }, [])
    | _ => (y, [])
  | .hook =>
    match y.stage with
    | .clearing =>
      let holder := Function.update y.system.holder (Perl.hookLock vmid) none
      (⟨{ y.system with store := (y.system.store.purge vmid).2, holder }, .returned⟩,
        if (y.system.store.delete (.guest vmid)).1.toBool then [.cleared] else [])
    | _ => (y, [])

/-- A run of events in any order, and its log. -/
def run (vmid : UInt32) (y : World) (events : List Event) : World × List Entry := Log.run (step vmid) y events

end

/-- What an entry leaves of the file of the guest's document. -/
def Entry.file (vmid : UInt32) (own : Option File) : Entry → Option File
  | .ack a => if a.job.doc = .guest vmid then a.file own else own
  | .cleared => none

/-- What the entries leave of it. -/
def left (vmid : UInt32) (own : Option File) (log : List Entry) : Option File := log.foldl (Entry.file vmid) own

end Creation
end PveMeta
