import PveMeta.Incarnations
import PveMeta.Theorems.Clients

/-! # A reused vmid never inherits

The create hook takes the document's lock, so no write that had it before can still be under way when the hook is
done, and what it leaves is nothing. All that the document holds after it comes from writes that took the lock in
the new incarnation, each of them checked and planned against what those before it left. -/

namespace PveMeta
namespace MetaStore

variable {s t : MetaStore} {v : UInt32} {n : Nat}

theorem faultFree_of_purge (h : s.purge v = (.ok n, t)) : s.FaultFree := by
  unfold purge at h
  have hdelete : s.unavailable = none ∧ s.writeFault = none := by
    cases hu : s.unavailable with
    | some msg => simp [delete, checkAvailable, hu] at h
    | none =>
      cases hw : s.writeFault with
      | some msg => simp [delete, checkAvailable, hu, removeFile, hw] at h
      | none => exact ⟨rfl, rfl⟩
  refine ⟨hdelete.1, ?_, hdelete.2⟩
  cases hr : s.readFault with
  | none => rfl
  | some msg => simp [delete, checkAvailable, hdelete.1, removeFile, hdelete.2, listSnapshots, hr] at h

theorem own_of_purge (h : s.purge v = (.ok n, t)) :
    t.own (.guest v) = none ∧ (∀ d, d ≠ .guest v → t.own d = s.own d) ∧ t.packaged = s.packaged := by
  obtain ⟨n', files, hpurge, hdoc, -, hframe⟩ := @purge_eq s v (faultFree_of_purge h)
  rw [hpurge] at h
  cases h
  have hcopy : ∀ {d : DocId} (name : String), s.pathFor d ≠ snapshotPath v name := fun name =>
    (pathFor_ne_snapshotPath v name).symm
  refine ⟨hdoc, fun d hd => hframe _ (fun hp => hd (pathFor_injective hp)) fun name => hcopy name, ?_⟩
  funext d
  refine findSome?_congr fun p hp => hframe p ?_ ?_
  · rintro rfl
    exact pathFor_not_mem_packagedPaths (d := .guest v) hp
  · rintro name rfl
    cases d with
    | guest w => cases hp
    | registry kind file =>
      obtain ⟨i, -, hi⟩ := List.mem_map.mp hp
      cases hi

end MetaStore

namespace Incarnations
open Clients MetaStore

theorem left_concat (vmid : UInt32) (log : List Entry) (e : Entry) :
    left vmid (log ++ [e]) = e.file vmid (left vmid log) := List.foldl_append

section

variable [Deps] {vmid : UInt32} {y : Cluster} {log : List Entry}

/-- A write of the guest's document in the incarnation `n`, after the entries `mid` of that incarnation: it took the lock
    in it, and was checked and planned against what they left. -/
structure Fresh (vmid : UInt32) (n : Nat) (mid : List Entry) (a : Ack) : Prop where
  locked : a.job.epoch = n
  carried : a.job.request.digest = some a.job.digest
  seen : contentDigest a.job.seen.content = a.job.digest
  digest : contentDigest (left vmid mid) = a.job.digest
  plan : a.job.request.planOn (left vmid mid) none = .ok (a.stored, a.plan)

/-- Every write of the guest's document in the log is fresh. -/
def AllFresh (vmid : UInt32) (n : Nat) (log : List Entry) : Prop :=
  Log.Justified (fun mid e => ∀ a, e = .ack a → a.job.doc = .guest vmid → Fresh vmid n mid a) log

/-- What holds since the hook of the incarnation ran. -/
structure Since (vmid : UInt32) (y : System) (after : List Entry) : Prop where
  own : y.store.own (.guest vmid) = left vmid after
  fresh : AllFresh vmid y.epoch after
  held : ∀ c job, (y.phase c).job? = some job → job.lock = Perl.hookLock vmid → job.epoch = y.epoch

structure Inv (vmid : UInt32) (y : Cluster) (log : List Entry) : Prop where
  steady : Steady y.system
  hooked : ∀ hook, y.running = some hook → y.system.holder (Perl.hookLock vmid) = some .hook
  due : ∀ n, .create n ∈ y.due → n ≤ y.system.epoch
  running : ∀ n, y.running = some (.create n) → n ≤ y.system.epoch
  ran : ∀ n, .ran (.create n) ∈ log → n ≤ y.system.epoch
  since : ∀ before after, log = before ++ .ran (.create y.system.epoch) :: after → Since vmid y.system after

theorem Since.client {after : List Entry} (h : Since vmid y.system after) (hsteady : Steady y.system) (move : Move) :
    Since vmid (Clients.step y.system move).1 (after ++ (Clients.step y.system move).2.map .ack) := by
  have hs := Stepped.of_step hsteady move
  have hheld : ∀ c job, ((Clients.step y.system move).1.phase c).job? = some job → job.lock = Perl.hookLock vmid →
      job.epoch = (Clients.step y.system move).1.epoch := by
    intro c job hj hlock
    rw [hs.epoch]
    rcases hs.of_job hj with hold | hnew
    · exact h.held c job hold hlock
    · exact hnew
  rcases hs.own with ⟨hacks, hown⟩ | ⟨a, ha, hacks, hown⟩
  · rw [hacks, List.map_nil, List.append_nil]
    exact ⟨by rw [hown, h.own], by rw [hs.epoch]; exact h.fresh, hheld⟩
  · rw [hacks, List.map_cons, List.map_nil]
    refine ⟨?_, ?_, hheld⟩
    · rw [hown, left_concat, Entry.file, ← h.own]
      split
      · next hdoc =>
        rw [← hdoc]
        exact Ack.apply_self ..
      · next hdoc => exact Ack.apply_ne (Ne.symm hdoc)
    · rw [hs.epoch]
      refine Log.Justified.concat h.fresh ?_
      rintro _ ⟨⟩ hdoc
      have hj : (y.system.phase a.client).job? = some a.job := by rw [ha.phase]; rfl
      have hfresh := ha.fresh
      have hplan := ha.plan
      rw [hdoc, content_guest, h.own] at hfresh
      rw [hdoc, packaged_guest, h.own] at hplan
      exact ⟨h.held _ _ hj (by rw [ha.lock_eq, hdoc]; rfl), ha.carried, ha.seen, hfresh, hplan⟩

/-- A hook ran: the document is gone, and no write is under way. -/
theorem Since.ran {after : List Entry} {store : MetaStore} {n : Nat} {holder : String → Option Owner}
    (hsteady : Steady y.system) (hooked : y.system.holder (Perl.hookLock vmid) = some .hook)
    (hpurge : y.system.store.purge vmid = (.ok n, store)) (hleft : left vmid after = none)
    (hfresh : AllFresh vmid y.system.epoch after) : Since vmid { y.system with store, holder } after where
  own := (own_of_purge hpurge).1.trans hleft.symm
  fresh := hfresh
  held c job hj hlock := by
    have hheld := hsteady.held c job hj
    rw [hlock, hooked] at hheld
    cases hheld

namespace Inv

theorem client (h : Inv vmid y log) (move : Move) :
    Inv vmid { y with system := (Clients.step y.system move).1 } (log ++ (Clients.step y.system move).2.map .ack) := by
  have hs := Stepped.of_step h.steady move
  refine ⟨hs.steady h.steady, fun hook hrun => hs.holder_hook h.steady (h.hooked hook hrun), ?_, ?_, ?_, ?_⟩
  · rw [hs.epoch]
    exact h.due
  · rw [hs.epoch]
    exact h.running
  · intro n hn
    rw [hs.epoch]
    rcases List.mem_append.mp hn with hn | hn
    · exact h.ran n hn
    · obtain ⟨a, -, ha⟩ := List.mem_map.mp hn
      cases ha
  · intro before after hlog
    rw [hs.epoch] at hlog
    rcases hs.own with ⟨hacks, -⟩ | ⟨a, -, hacks, -⟩
    · rw [hacks, List.map_nil, List.append_nil] at hlog
      have hafter := (h.since before after hlog).client h.steady move
      rwa [hacks, List.map_nil, List.append_nil] at hafter
    · rw [hacks, List.map_cons, List.map_nil] at hlog
      rcases Log.concat_split hlog with ⟨-, he, -⟩ | ⟨rest, rfl, hrest⟩
      · cases he
      · have hafter := (h.since before rest hrest).client h.steady move
        rwa [hacks, List.map_cons, List.map_nil] at hafter

theorem unlink (h : Inv vmid y log) : Inv vmid { y with config := false, due := .destroy :: y.due } log where
  steady := h.steady
  hooked := h.hooked
  due n hn := by
    rcases List.mem_cons.mp hn with hn | hn
    · cases hn
    · exact h.due n hn
  running := h.running
  ran := h.ran
  since := h.since

/-- A new incarnation: its hook has not run, whatever ran before. -/
theorem create (h : Inv vmid y log) (allowExisting : Bool) :
    Inv vmid { y with system := { y.system with epoch := y.system.epoch + 1 }, config := true,
                      due := if allowExisting then y.due else .create (y.system.epoch + 1) :: y.due } log where
  steady := ⟨h.steady.phases, h.steady.held⟩
  hooked := h.hooked
  due n hn := by
    cases allowExisting with
    | true => exact (h.due n hn).trans (Nat.le_succ _)
    | false =>
      rcases List.mem_cons.mp hn with hn | hn
      · cases hn
        exact le_rfl
      · exact (h.due n hn).trans (Nat.le_succ _)
  running n hn := (h.running n hn).trans (Nat.le_succ _)
  ran n hn := (h.ran n hn).trans (Nat.le_succ _)
  since before after hlog := by
    have hle := h.ran (y.system.epoch + 1) (by rw [hlog]; simp)
    omega

/-- A hook takes the lock, which no write under way has. -/
theorem lock (h : Inv vmid y log) {hook : Hook} (hdue : hook ∈ y.due)
    (hfree : y.system.holder (Perl.hookLock vmid) = none) :
    Inv vmid { y with
      system := { y.system with holder := Function.update y.system.holder (Perl.hookLock vmid) (some .hook) },
      due := y.due.erase hook, running := some hook } log where
  steady := by
    refine ⟨h.steady.phases, fun c job hj => ?_⟩
    have hheld := h.steady.held c job hj
    have hne : job.lock ≠ Perl.hookLock vmid := by
      intro heq
      rw [heq, hfree] at hheld
      cases hheld
    exact (Function.update_of_ne hne ..).trans hheld
  hooked _ _ := Function.update_self ..
  due n hn := h.due n (List.mem_of_mem_erase hn)
  running n hn := h.due n (Option.some.inj hn ▸ hdue)
  ran := h.ran
  since before after hlog :=
    have hsince := h.since before after hlog
    ⟨hsince.own, hsince.fresh, hsince.held⟩

theorem hook (h : Inv vmid y log) {hook : Hook} {store : MetaStore} {n : Nat} (hrun : y.running = some hook)
    (hpurge : y.system.store.purge vmid = (.ok n, store)) :
    Inv vmid { y with
      system := { y.system with store, holder := Function.update y.system.holder (Perl.hookLock vmid) none },
      running := none } (log ++ [.ran hook]) where
  steady := by
    have hooked := h.hooked hook hrun
    have hne : ∀ {c job}, (y.system.phase c).job? = some job → job.lock ≠ Perl.hookLock vmid := by
      intro c job hj heq
      have hheld := h.steady.held c job hj
      rw [heq, hooked] at hheld
      cases hheld
    obtain ⟨-, hframe, hpackaged⟩ := own_of_purge hpurge
    refine ⟨fun c => ?_, fun c job hj => ?_⟩
    · refine Phase.Ok.congr (h.steady.phases c) hpackaged fun job hj hlock => hframe _ fun hdoc => ?_
      exact hne hj (by rw [hlock, hdoc]; rfl)
    · exact (Function.update_of_ne (hne hj) ..).trans (h.steady.held c job hj)
  hooked _ hnone := by cases hnone
  due := h.due
  running _ hnone := by cases hnone
  ran m hm := by
    rcases List.mem_append.mp hm with hm | hm
    · exact h.ran m hm
    · obtain rfl := (Entry.ran.inj (List.mem_singleton.mp hm)).symm
      exact h.running m hrun
  since before after hlog := by
    have hooked := h.hooked hook hrun
    rcases Log.concat_split hlog with ⟨-, -, rfl⟩ | ⟨rest, rfl, hrest⟩
    · exact Since.ran h.steady hooked hpurge rfl Log.justified_nil
    · refine Since.ran h.steady hooked hpurge (left_concat ..) ?_
      exact Log.Justified.concat (h.since before rest hrest).fresh fun a ha => by cases ha

theorem step (h : Inv vmid y log) (event : Event) :
    Inv vmid (step vmid y event).1 (log ++ (step vmid y event).2) := by
  cases event with
  | client move => exact h.client move
  | unlink =>
    rw [Incarnations.step]
    split <;> rw [List.append_nil]
    · exact h.unlink
    · exact h
  | create allowExisting =>
    rw [Incarnations.step]
    split <;> rw [List.append_nil]
    · exact h
    · exact h.create allowExisting
  | lock hook =>
    rw [Incarnations.step]
    split <;> rw [List.append_nil]
    · next hfree => exact h.lock hfree.1 hfree.2
    · exact h
  | hook =>
    rw [Incarnations.step]
    split
    · next hook n store hrun hpurge => exact h.hook hrun hpurge
    · rw [List.append_nil]
      exact h

theorem start (vmid : UInt32) (s : MetaStore) (vms : List UInt32) (config : Bool) :
    Inv vmid (.start s vms config) [] where
  steady := Steady.start s vms
  hooked _ hrun := by cases hrun
  due _ hdue := by cases hdue
  running _ hrun := by cases hrun
  ran _ hran := by cases hran
  since before after hlog := by cases before <;> cases hlog

theorem run (vmid : UInt32) (s : MetaStore) (vms : List UInt32) (config : Bool) (events : List Event) :
    Inv vmid (run vmid (.start s vms config) events).1 (run vmid (.start s vms config) events).2 :=
  @Log.run_keeps _ _ _ (Incarnations.step vmid) (Inv vmid) (fun _ _ event h => h.step event) _ (start vmid s vms config)
    events

end Inv

/-- Once the create hook of the incarnation has run, the document is what the writes since then left of nothing. Each of
    them took the lock in this incarnation; and the digest it carries, whenever that was read, is the one that the writes
    of this incarnation before it left, on which it was planned. -/
theorem never_inherits {vmid : UInt32} {s : MetaStore} {vms : List UInt32} {config : Bool} {events : List Event}
    {before after : List Entry}
    (hlog : (run vmid (.start s vms config) events).2 =
      before ++ .ran (.create (run vmid (.start s vms config) events).1.system.epoch) :: after) :
    (run vmid (.start s vms config) events).1.system.store.content (.guest vmid) = left vmid after ∧
      ∀ mid a rest, after = mid ++ .ack a :: rest → a.job.doc = .guest vmid →
        Fresh vmid (run vmid (.start s vms config) events).1.system.epoch mid a := by
  have hsince := (Inv.run vmid s vms config events).since before after hlog
  refine ⟨by rw [content_guest, hsince.own], fun mid a rest hafter hdoc => ?_⟩
  exact hsince.fresh mid (.ack a) rest hafter a rfl hdoc

end

section Samples
open Sample

/-- What an entry is: a hook, or a write of a document by a client who read it in one incarnation and took the lock in
    another. -/
def Entry.summary : Entry → Hook ⊕ DocId × Nat × Nat
  | .ran hook => .inl hook
  | .ack a => .inr (a.job.doc, a.job.seen.epoch, a.job.epoch)

/-- A client reads that guest 100 has no document. The guest is destroyed and another created, and the client writes. -/
def staleWrite : List Event :=
  [.client (.get 0 "100" none "yaml" true root), .unlink, .client (.vmlist []), .lock .destroy, .hook, .create false,
    .client (.vmlist [100]), .lock (.create 1), .hook] ++
  (writes 0 (.put ⟨[], "100", none, "yaml", "a: 1\n".toList, "replace", some "", false, false, true, root⟩)).map .client

theorem staleWrite_log : ∃ a, (run 100 (.start (storeOf []) [100] true) staleWrite).2 =
    [.ran .destroy] ++ .ran (.create 1) :: [.ack a] ∧ a.job.doc = .guest 100 ∧ a.job.seen.epoch = 0 := by
  have hlog : (run 100 (.start (storeOf []) [100] true) staleWrite).2.map Entry.summary =
      [.inl .destroy, .inl (.create 1), .inr (.guest 100, 0, 1)] := by decide +kernel
  obtain ⟨e₁, l₁, h₁, he₁, hlog⟩ := List.map_eq_cons_iff.mp hlog
  obtain ⟨e₂, l₂, rfl, he₂, hlog⟩ := List.map_eq_cons_iff.mp hlog
  obtain ⟨e₃, l₃, rfl, he₃, hlog⟩ := List.map_eq_cons_iff.mp hlog
  obtain rfl := List.map_eq_nil_iff.mp hlog
  cases e₁ <;> cases he₁
  cases e₂ <;> cases he₂
  cases e₃ with
  | ran hook => cases he₃
  | ack a =>
    simp only [Entry.summary, Sum.inr.injEq, Prod.mk.injEq] at he₃
    exact ⟨a, h₁, he₃.1, he₃.2.1⟩

theorem epoch_staleWrite : (run 100 (.start (storeOf []) [100] true) staleWrite).1.system.epoch = 1 := by decide +kernel

theorem never_inherits_stale : ∃ a,
    (run 100 (.start (storeOf []) [100] true) staleWrite).1.system.store.content (.guest 100) = left 100 [.ack a] ∧
      Fresh 100 1 [] a := by
  obtain ⟨a, hlog, hdoc, -⟩ := staleWrite_log
  rw [← epoch_staleWrite] at hlog
  have h := never_inherits hlog
  refine ⟨a, h.1, ?_⟩
  have hfresh := h.2 [] a [] rfl hdoc
  rwa [epoch_staleWrite] at hfresh

/-- The write is accepted in the new incarnation, as the document is missing again, and the document is what its client
    meant for the old one. -/
theorem stale_digest_lands : ∃ a, (run 100 (.start (storeOf []) [100] true) staleWrite).2 =
      [.ran .destroy] ++ .ran (.create (run 100 (.start (storeOf []) [100] true) staleWrite).1.system.epoch) :: [.ack a] ∧
    a.job.doc = .guest 100 ∧ a.job.request.digest = some "" ∧
    a.job.seen.epoch < (run 100 (.start (storeOf []) [100] true) staleWrite).1.system.epoch ∧
    (run 100 (.start (storeOf []) [100] true) staleWrite).1.system.store.content (.guest 100) = a.file none ∧
    (a.file none).map (·.bytes) = some (Text.encode "a: 1\n".toList) := by
  obtain ⟨a, hlog, hdoc, hepoch⟩ := staleWrite_log
  rw [← epoch_staleWrite] at hlog
  have hsince := (Inv.run 100 (storeOf []) [100] true staleWrite).since _ _ hlog
  have hown : (run 100 (.start (storeOf []) [100] true) staleWrite).1.system.store.own (.guest 100) = a.file none := by
    rw [hsince.own, left, List.foldl_cons, List.foldl_nil, Entry.file, if_pos hdoc]
  have hbytes : ((run 100 (.start (storeOf []) [100] true) staleWrite).1.system.store.own (.guest 100)).map (·.bytes) =
      some (Text.encode "a: 1\n".toList) := by decide +kernel
  have hfresh := hsince.fresh [] (.ack a) [] rfl a rfl hdoc
  refine ⟨a, hlog, hdoc, ?_, by rw [hepoch, epoch_staleWrite]; exact Nat.zero_lt_one, by rw [content_guest, hown],
    by rw [← hown, hbytes]⟩
  rw [hfresh.carried, ← hfresh.digest]
  rfl

end Samples

end Incarnations
end PveMeta
