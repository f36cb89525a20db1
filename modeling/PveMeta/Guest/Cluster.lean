import PveMeta.Guest.Daemon

/-! # The daemons of a cluster

A daemon runs on every node, on the containers that the vmlist places there. Between its polls documents are written,
containers are started, stopped, locked and migrated, and daemons are restarted. -/

namespace PveMeta
namespace Guest

/-- The vmlist once a guest is on another node. -/
def VmList.migrate (l : VmList) (vmid : UInt32) (node : String) : VmList where
  entries := l.entries.map fun e => if e.1 = vmid then (e.1, { e.2 with node }) else e
  sorted := by
    have hkeys : ((fun e : UInt32 × VmGuest => e.1.toNat) ∘ fun e => if e.1 = vmid then (e.1, { e.2 with node }) else e) =
        fun e => e.1.toNat := by
      funext e
      simp only [Function.comp_apply]
      split <;> rfl
    rw [List.map_map, hkeys]
    exact l.sorted

/-- How a poll goes: when it is, what it can read and which locks it gets, and what happens meanwhile to the files of the
    containers that are synced. -/
structure View where
  now : Nat
  vmlist : Except String Unit
  active : Except String Unit
  containerLock : UInt32 → Except String Unit
  guestLock : UInt32 → Except String Bool
  turns : UInt32 → List Turn

section

variable [Deps] [RustDebug]

/-- The nodes' daemons, and what they act on. -/
structure Cluster where
  store : MetaStore
  vmlist : VmList
  /-- The inode of a running container's command socket -/
  running : UInt32 → Option UInt64
  lock : UInt32 → Option String
  guests : UInt32 → World
  daemon : String → Daemon

namespace Cluster

/-- The documents are others; a container starts or stops, is locked or unlocked, has its files changed by others, but for
    the manifest, or is migrated; a node's daemon is restarted, or polls. -/
inductive Event where
  | documents (store : MetaStore)
  | container (vmid : UInt32) (inode : Option UInt64)
  | lock (vmid : UInt32) (lock : Option String)
  | others (vmid : UInt32) (fs : Fs)
  | migrate (vmid : UInt32) (node : String) (inode : Option UInt64)
  | restart (node : String)
  | poll (node : String) (view : View)

/-- What a node's poll finds. -/
def pollOf (c : Cluster) (node : String) (view : View) : Found where
  now := view.now
  vmlist := view.vmlist.map fun _ => c.vmlist
  active := view.active.map fun _ vmid => if (localTo node c.vmlist).contains vmid then c.running vmid else none
  stores _ := c.store
  containerLock vmid := (view.containerLock vmid).map fun _ => c.lock vmid
  guestLock := view.guestLock
  turns := view.turns

variable [Serde]

/-- A node's daemon and the guests, before the daemon polls and after. -/
def host (c : Cluster) (node : String) : Host := ⟨c.daemon node, c.guests, []⟩

def polled (c : Cluster) (timing : Timing) (node : String) (view : View) : Host :=
  (c.host node).tick node timing (c.pollOf node view)

def step (c : Cluster) (timing : Timing) : Event → Cluster
  | .documents store => { c with store }
  | .container vmid inode => { c with running := Function.update c.running vmid inode }
  | .lock vmid lock => { c with lock := Function.update c.lock vmid lock }
  | .others vmid fs => { c with guests := Function.update c.guests vmid ((c.guests vmid).edit fs) }
  | .migrate vmid node inode =>
    { c with vmlist := c.vmlist.migrate vmid node, running := Function.update c.running vmid inode }
  | .restart node => { c with daemon := Function.update c.daemon node .default }
  | .poll node view =>
    let h := c.polled timing node view
    { c with guests := h.guests, daemon := Function.update c.daemon node h.daemon }

end Cluster

end

end Guest
end PveMeta
