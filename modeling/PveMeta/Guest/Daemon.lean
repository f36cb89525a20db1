import PveMeta.Guest.Sync

/-! # The daemon

The loop on one node (`daemon.rs`): which of the containers there are synced at a poll, and what is remembered of each. What
it logs is left out. -/

namespace PveMeta
namespace Guest

/-- The kind of guest a vmid is. -/
inductive Kind where
  | lxc
  | qemu
  | other
  deriving DecidableEq

/-- One guest of the vmlist. -/
structure VmGuest where
  node : String
  kind : Kind
  deriving DecidableEq

/-- `/etc/pve/.vmlist`, in the order of the vmids. -/
structure VmList where
  entries : List (UInt32 × VmGuest)
  sorted : (entries.map fun e => e.1.toNat).Pairwise (· < ·)

/-- How often the loop does what, in seconds. -/
structure Timing where
  poll : Nat := 10
  drift : Nat := 600
  retry : Nat := 60

/-- Why a container is synced now, in the order they are served. -/
inductive Reason where
  | changed
  | started
  | drift
  deriving DecidableEq

def Reason.rank : Reason → Nat
  | .changed => 0
  | .started => 1
  | .drift => 2

/-- What the loop remembers of one container. -/
structure Memo where
  /-- The digest of the document that the last sync was of -/
  digest : Option String := none
  /-- The command socket's inode at the last poll -/
  inode : Option UInt64 := none
  /-- Its manifest had records at the last sync -/
  watched : Bool := false
  nextDue : Option Nat := none
  deriving DecidableEq

/-- Whether a container is synced at this poll, and why. -/
def due (memo : Option Memo) (inode : Option UInt64) (digest : Option String) (hasGuestFilesKey : Bool) (now : Nat) :
    Option Reason :=
  if inode.isNone then none
  else if ! hasGuestFilesKey && ! memo.any Memo.watched then none
  else
    match memo with
    | none => some .changed
    | some m =>
      if m.digest ≠ digest then some .changed
      else if m.inode ≠ inode then some .started
      else if m.nextDue.all fun t => decide (t ≤ now) then some .drift
      else none

section

variable [Deps]

/-- Whether the document has the key, so that the container is one to watch. -/
def GuestFiles.hasGuestFilesKey : GuestFiles → Bool
  | .nothing => false
  | .held _ | .entries _ | .managed _ => true

variable [RustDebug]

/-- A guest's files as its stored document says it. -/
def readGuestFiles (store : MetaStore) (vmid : UInt32) : Except String GuestFiles :=
  match store.read (.guest vmid) with
  | .ok doc =>
    match doc.parseError with
    | some e => .ok (.held ("the document does not parse: " ++ e))
    | none => .ok (.ofDocument doc.value.val)
  | .error (.notFound _) => .ok .nothing
  | .error (.tooLarge actual limit) => .ok (.held (Error.tooLarge actual limit).display)
  | .error e => .error ("reading the document of " ++ DocId.decimal vmid.toNat ++ ": " ++ e.display)

/-- By vmid, the digest and the files of the document. -/
abbrev Wanted := UInt32 → Option (Option String × GuestFiles)

/-- The loop's whole state. -/
structure Daemon where
  memos : UInt32 → Option Memo
  wanted : Wanted

/-- A daemon that was just started. -/
def Daemon.default : Daemon := ⟨fun _ => none, fun _ => none⟩

/-! ### Reading the documents -/

/-- The files that are kept under the digest. -/
def cached (digest : Option String) : Option (Option String × GuestFiles) → Option GuestFiles
  | some (d, files) => if d = digest then some files else none
  | none => none

/-- The documents of the local containers, the `k`-th read of the store finding it as `stores k`; and what is left of the
    files that were kept. -/
def readAll (stores : Nat → MetaStore) : List UInt32 → Nat → Wanted → Except String Wanted × Wanted
  | [], _, wanted => (.ok fun _ => none, wanted)
  | vmid :: vmids, k, wanted =>
    match (stores k).digestOf (.guest vmid) with
    | .error e => (.error ("the document of " ++ DocId.decimal vmid.toNat ++ ": " ++ e.display), wanted)
    | .ok digest =>
      let left := Function.update wanted vmid none
      match cached digest (wanted vmid) with
      | some files =>
        let (next, left) := readAll stores vmids (k + 1) left
        (next.map fun next => Function.update next vmid (some (digest, files)), left)
      | none =>
        match readGuestFiles (stores (k + 1)) vmid with
        | .error e => (.error e, left)
        | .ok files =>
          let (next, left) := readAll stores vmids (k + 2) left
          (next.map fun next => Function.update next vmid (some (digest, files)), left)

/-! ### One poll -/

/-- What a poll finds around it. -/
structure Found where
  now : Nat
  vmlist : Except String VmList
  /-- The running containers, with the inode of the command socket -/
  active : Except String (UInt32 → Option UInt64)
  stores : Nat → MetaStore
  /-- The `lock:` of a container's config -/
  containerLock : UInt32 → Except String (Option String)
  /-- Whether `GuestLock::take` gets the lock, which a sync by hand may hold -/
  guestLock : UInt32 → Except String Bool
  /-- What happens to the files of a container while it is synced -/
  turns : UInt32 → List Turn

/-- The containers of a node. -/
def localTo (node : String) (vmlist : VmList) : List UInt32 :=
  (vmlist.entries.filter fun e => e.2.node == node && decide (e.2.kind = .lxc)).map Prod.fst

namespace Daemon

/-- The state once every document was read: it forgets the containers that are not local. -/
def retain (d : Daemon) (vmids : List UInt32) (next : Wanted) : Daemon :=
  ⟨fun vmid => if vmids.contains vmid then d.memos vmid else none, next⟩

/-- Why a container is due. -/
def reason (d : Daemon) (active : UInt32 → Option UInt64) (now : Nat) (vmid : UInt32) : Option Reason :=
  (d.wanted vmid).bind fun w => due (d.memos vmid) (active vmid) w.1 w.2.hasGuestFilesKey now

/-- The containers that are due, in the order they are served. -/
def queue (d : Daemon) (active : UInt32 → Option UInt64) (now : Nat) (vmids : List UInt32) : List (Reason × UInt32) :=
  (vmids.filterMap fun vmid => (d.reason active now vmid).map (·, vmid)).mergeSort fun a b =>
    decide (a.1.rank < b.1.rank) || a.1.rank == b.1.rank && decide (a.2 ≤ b.2)

/-- A container that is not due was seen, or seen stopped. -/
def seen (d : Daemon) (active : UInt32 → Option UInt64) (now : Nat) (vmids : List UInt32) : Daemon :=
  { d with memos := fun vmid =>
      if vmids.contains vmid && (d.reason active now vmid).isNone then
        (d.memos vmid).map fun m => { m with inode := active vmid }
      else d.memos vmid }

/-- `self.memos.entry(vmid).or_default()`, changed. -/
def modifyMemo (d : Daemon) (vmid : UInt32) (f : Memo → Memo) : Daemon :=
  { d with memos := Function.update d.memos vmid (some (f ((d.memos vmid).getD {}))) }

end Daemon

/-- Why a container cannot be synced right now, if it cannot. -/
def stoppedOrLocked (p : Found) (active : UInt32 → Option UInt64) (vmid : UInt32) : Except String (Option String) :=
  if (active vmid).isNone then .ok (some "stopped")
  else (p.containerLock vmid).map fun lock => lock.map fun l => "locked (" ++ l ++ ")"

variable [Serde]

/-- What a sync leaves in the memo. -/
def Memo.synced (timing : Timing) (now : Nat) (digest : Option String) (wanted : GuestFiles) (result : Except String Report)
    (m : Memo) : Memo :=
  match result with
  | .error _ =>
    { m with digest := digest, watched := m.watched || wanted.hasGuestFilesKey, nextDue := some (now + timing.retry) }
  | .ok report => { m with digest := digest, watched := report.hasRecords, nextDue := some (now + timing.drift) }

/-- A node's daemon and the guests of the cluster. -/
structure Host where
  daemon : Daemon
  guests : UInt32 → World
  /-- The containers that were synced, in order; nothing depends on it -/
  synced : List UInt32

namespace Host

/-- One sync of a container that is due; `false` where it is tried again at the next poll. -/
def sync (h : Host) (timing : Timing) (p : Found) (active : UInt32 → Option UInt64) (vmid : UInt32) : Bool × Host :=
  match stoppedOrLocked p active vmid, p.guestLock vmid, h.daemon.wanted vmid with
  | .ok none, .ok true, some (digest, wanted) =>
    let (result, guest) := Guest.sync wanted false { h.guests vmid with turns := p.turns vmid }
    (true,
      { daemon := h.daemon.modifyMemo vmid (Memo.synced timing p.now digest wanted result)
        guests := Function.update h.guests vmid guest
        synced := h.synced ++ [vmid] })
  | _, _, _ => (false, h)

/-- A container of the queue is served. -/
def serve (timing : Timing) (p : Found) (active : UInt32 → Option UInt64) (h : Host) (entry : Reason × UInt32) : Host :=
  let (done, h) := h.sync timing p active entry.2
  if done then { h with daemon := h.daemon.modifyMemo entry.2 fun m => { m with inode := active entry.2 } } else h

/-- The poll once every document was read. -/
def serveAll (h : Host) (timing : Timing) (p : Found) (active : UInt32 → Option UInt64) (vmids : List UInt32) : Host :=
  (h.daemon.queue active p.now vmids).foldl (serve timing p active) { h with daemon := h.daemon.seen active p.now vmids }

/-- One poll. What cannot be read ends it. -/
def tick (h : Host) (node : String) (timing : Timing) (p : Found) : Host :=
  match p.vmlist, p.active with
  | .ok vmlist, .ok active =>
    let vmids := localTo node vmlist
    match readAll p.stores vmids 0 h.daemon.wanted with
    | (.error _, left) => { h with daemon := { h.daemon with wanted := left } }
    | (.ok next, _) => serveAll { h with daemon := h.daemon.retain vmids next } timing p active vmids
  | _, _ => h

end Host

end

end Guest
end PveMeta
