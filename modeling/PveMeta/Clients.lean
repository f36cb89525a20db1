import PveMeta.History
import PveMeta.Perl
import PveMeta.Theorems.Places

/-! # Clients of the endpoint

Any number of clients that read documents and write them with the digest they read. A write runs under the lock
that `_locked` takes for its id; its existence check, its digest check, its plan and the write of the plan are
steps of their own, and whatever else happens may happen between any two of them. -/

namespace PveMeta
namespace Clients
open Api

/-- Who may hold a lock. -/
inductive Owner where
  | client (c : Nat)
  | hook
  deriving DecidableEq

/-- What a client knows of a document from its last read: the digest it was given, of the content that was there. -/
structure Seen where
  doc : DocId
  digest : String
  content : Option File
  epoch : Nat

/-- A write that carries the digest of what its client saw, and the lock it runs under. -/
structure Job where
  request : Request
  seen : Seen
  lock : String
  epoch : Nat

abbrev Job.doc (job : Job) : DocId := job.seen.doc

abbrev Job.digest (job : Job) : String := job.seen.digest

/-- How far a client is: what it read last, or where its write is. -/
inductive Phase where
  | idle
  | read (seen : Seen)
  | locked (job : Job)
  | present (job : Job)
  | checked (job : Job)
  | planned (job : Job) (stored : Stored) (plan : Plan)

/-- The write that is under way. -/
def Phase.job? : Phase → Option Job
  | .idle | .read _ => none
  | .locked job | .present job | .checked job | .planned job _ _ => some job

/-- The store, the vmlist, the locks, and the clients by number. Nothing depends on `epoch`: it is what a read or a
    lock is stamped with. -/
structure System where
  store : MetaStore
  vms : List UInt32
  holder : String → Option Owner
  phase : Nat → Phase
  epoch : Nat

/-- No client has read anything, and no lock is taken. -/
def System.start (store : MetaStore) (vms : List UInt32) : System := ⟨store, vms, fun _ => none, fun _ => .idle, 0⟩

namespace System

def setPhase (y : System) (c : Nat) (phase : Phase) : System := { y with phase := Function.update y.phase c phase }

/-- The write is over, one way or the other: the lock is free again, and the client still knows what it read. -/
def release (y : System) (c : Nat) (job : Job) : System :=
  { y.setPhase c (.read job.seen) with holder := Function.update y.holder job.lock none }

/-- The write takes its lock. -/
def acquire (y : System) (c : Nat) (job : Job) : System :=
  { y.setPhase c (.locked job) with holder := Function.update y.holder job.lock (some (.client c)) }

variable {y : System} {c c' : Nat} {phase : Phase} {job : Job} {lock : String}

@[simp] theorem phase_setPhase_self : (y.setPhase c phase).phase c = phase := Function.update_self ..

theorem phase_setPhase_ne (h : c' ≠ c) : (y.setPhase c phase).phase c' = y.phase c' := Function.update_of_ne h ..

@[simp] theorem store_setPhase : (y.setPhase c phase).store = y.store := rfl

@[simp] theorem holder_setPhase : (y.setPhase c phase).holder = y.holder := rfl

@[simp] theorem phase_release_self : (y.release c job).phase c = .read job.seen := phase_setPhase_self

theorem phase_release_ne (h : c' ≠ c) : (y.release c job).phase c' = y.phase c' := phase_setPhase_ne h

@[simp] theorem store_release : (y.release c job).store = y.store := rfl

theorem holder_release_ne (h : lock ≠ job.lock) : (y.release c job).holder lock = y.holder lock :=
  Function.update_of_ne h ..

@[simp] theorem phase_acquire_self : (y.acquire c job).phase c = .locked job := phase_setPhase_self

theorem phase_acquire_ne (h : c' ≠ c) : (y.acquire c job).phase c' = y.phase c' := phase_setPhase_ne h

@[simp] theorem store_acquire : (y.acquire c job).store = y.store := rfl

@[simp] theorem holder_acquire_self : (y.acquire c job).holder job.lock = some (.client c) := Function.update_self ..

theorem holder_acquire_ne (h : lock ≠ job.lock) : (y.acquire c job).holder lock = y.holder lock :=
  Function.update_of_ne h ..

end System

/-- A step of a client, or of what is around them all. -/
inductive Move where
  | env (env : History.Env)
  | vmlist (vms : List UInt32)
  | get (c : Nat) (id : String) (view : Option String) (formatName : String) (comments : Bool) (acl : CallerAcl)
  | lock (c : Nat) (request : Request)
  | assertExists (c : Nat)
  | check (c : Nat)
  | plan (c : Nat)
  | apply (c : Nat)

/-- A write that is acknowledged: what was planned for it, on what, and when its plan was written. -/
structure Ack where
  client : Nat
  job : Job
  view : Path
  stored : Stored
  plan : Plan
  now : Fin (2 ^ 63 * 10 ^ 9)

namespace Ack

def change (a : Ack) : Change := a.job.request.change a.view a.stored a.plan

/-- What the write leaves of the document's file. -/
def file (a : Ack) (own : Option File) : Option File := a.change.file a.now own

end Ack

/-- `_locked`: a write of the document that was read, carrying its digest, takes the lock of its id. -/
def lock (y : System) (c : Nat) (request : Request) : System :=
  match y.phase c, Perl.lockDomainFor request.id with
  | .read seen, .ok lock =>
    if Perl.isRouted request.id = true ∧ parseId request.id = .ok seen.doc ∧ request.digest = some seen.digest ∧
        y.holder lock = none then
      y.acquire c ⟨request, seen, lock, y.epoch⟩
    else y
  | _, _ => y

def assertExists (y : System) (c : Nat) : System :=
  match y.phase c with
  | .locked job =>
    if Perl.guestExists y.vms job.request.id then y.setPhase c (.present job) else y.release c job
  | _ => y

section

variable [Deps]

/-- `GET`: the client has the digest of what is there. -/
def get (y : System) (c : Nat) (id : String) (view : Option String) (formatName : String) (comments : Bool)
    (acl : CallerAcl) : System :=
  match parseId id, getDocument y.store id view formatName comments acl with
  | .ok doc, .ok answer =>
    if (y.phase c).job?.isNone ∧ Perl.guestExists y.vms id = true then
      y.setPhase c (.read ⟨doc, answer.digest, y.store.content doc, y.epoch⟩)
    else y
  | _, _ => y

/-- The digest has to be that of what is stored. -/
def check (y : System) (c : Nat) : System :=
  match y.phase c with
  | .present job =>
    match job.request.check y.store with
    | .ok () => y.setPhase c (.checked job)
    | .error _ => y.release c job
  | _ => y

def plan (y : System) (c : Nat) : System :=
  match y.phase c with
  | .checked job =>
    match job.request.plan y.store with
    | .ok (stored, plan) => y.setPhase c (.planned job stored plan)
    | .error _ => y.release c job
  | _ => y

/-- The plan is written, and acknowledged if that succeeds. -/
def apply (y : System) (c : Nat) : System × List Ack :=
  match y.phase c with
  | .planned job stored plan =>
    let y' : System := { y.release c job with store := (job.request.apply y.store stored plan).2 }
    match job.request.target, (job.request.apply y.store stored plan).1 with
    | .ok (_, vp), .ok _ => (y', [⟨c, job, vp, stored, plan, y.store.now⟩])
    | _, _ => (y', [])
  | _ => (y, [])

def step (y : System) : Move → System × List Ack
  | .env env => ({ y with store := env.meet y.store }, [])
  | .vmlist vms => ({ y with vms }, [])
  | .get c id view formatName comments acl => (get y c id view formatName comments acl, [])
  | .lock c request => (lock y c request, [])
  | .assertExists c => (assertExists y c, [])
  | .check c => (check y c, [])
  | .plan c => (plan y c, [])
  | .apply c => apply y c

/-- A run of steps in any order: where it leads, and the writes acknowledged on the way. -/
def run (y : System) (moves : List Move) : System × List Ack := Log.run step y moves

end

end Clients
end PveMeta
