import PveMeta.Creation
import PveMeta.Theorems.Clients
import PveMeta.Theorems.Rollback

/-! # A write to a guest that is being created

The document of the guest is what the acknowledged writes and the create's hook leave of it, in the order in which
they came. The hook runs once, and removes what it finds: a write that was acknowledged before it is gone, one that
comes after it stays. -/

namespace PveMeta
namespace Creation
open Api Clients MetaStore

theorem left_concat (vmid : UInt32) (own : Option File) (log : List Entry) (e : Entry) :
    left vmid own (log ++ [e]) = e.file vmid (left vmid own log) := List.foldl_append

/-- Writes of other documents leave the guest's. -/
theorem left_of_others {vmid : UInt32} {own : Option File} {log : List Entry} (hclear : .cleared ∉ log)
    (hothers : ∀ b, .ack b ∈ log → b.job.doc ≠ .guest vmid) : left vmid own log = own := by
  induction log generalizing own with
  | nil => rfl
  | cons e log ih =>
    rw [List.mem_cons, not_or] at hclear
    obtain ⟨hne, hclear⟩ := hclear
    have hfile : e.file vmid own = own := by
      cases e with
      | ack b => exact if_neg (hothers b List.mem_cons_self)
      | cleared => exact absurd rfl hne
    rw [left, List.foldl_cons, hfile]
    exact ih hclear fun b hb => hothers b (List.mem_cons_of_mem _ hb)

theorem left_of_cleared {vmid : UInt32} {own : Option File} {log : List Entry} (hclear : .cleared ∈ log)
    (hothers : ∀ b, .ack b ∈ log → b.job.doc ≠ .guest vmid) : left vmid own log = none := by
  induction log generalizing own with
  | nil => cases hclear
  | cons e log ih =>
    have hothers' := fun b hb => hothers b (List.mem_cons_of_mem e hb)
    by_cases hmem : .cleared ∈ log
    · exact ih hmem hothers'
    · rcases List.mem_cons.mp hclear with rfl | h
      · exact left_of_others hmem hothers'
      · exact absurd h hmem

section

variable [Deps] {vmid : UInt32} {s : MetaStore} {y : World} {log : List Entry} {c : Nat} {phase : Phase}

/-! ### Clients -/

/-- A write under way is about the document that its id names, and a plan has the text of its own dump. -/
structure Sane (phase : Phase) : Prop where
  id_eq : ∀ {job}, phase.job? = some job → parseId job.request.id = .ok job.doc
  text_eq : ∀ {job stored plan}, phase = .planned job stored plan → plan.text = diskFormat.dump plan.planned

theorem Sane.read (seen : Seen) : Sane (.read seen) :=
  ⟨fun h => (nomatch h), fun h => (nomatch h)⟩

/-- What a client's step makes of the phases: its own is sane again, the others are as they were. -/
theorem Sane.setPhase {z : System} (h : ∀ c, Sane (z.phase c)) (hphase : Sane phase) (c' : Nat) :
    Sane ((z.setPhase c phase).phase c') := by
  by_cases hc : c' = c
  · rw [hc, System.phase_setPhase_self]
    exact hphase
  · rw [System.phase_setPhase_ne hc]
    exact h c'

theorem Sane.release {z : System} {job : Job} (h : ∀ c, Sane (z.phase c)) (c' : Nat) : Sane ((z.release c job).phase c') :=
  Sane.setPhase h (.read _) c'

theorem take_spec {z : System} {request : Request} (h : ∀ c, Sane (z.phase c)) :
    (∀ c', Sane ((take z c request).phase c')) ∧ (take z c request).store = z.store := by
  unfold take
  split
  · next doc lock hdoc hlock =>
    split
    · refine ⟨Sane.setPhase h ⟨?_, fun heq => (nomatch heq)⟩, rfl⟩
      rintro _ ⟨⟩
      exact hdoc
    · exact ⟨h, rfl⟩
  · exact ⟨h, rfl⟩

theorem assertExists_spec {z : System} (h : ∀ c, Sane (z.phase c)) :
    (∀ c', Sane ((assertExists z c).phase c')) ∧ (assertExists z c).store = z.store := by
  unfold assertExists
  split
  · next job hphase =>
    have hid := (h c).id_eq (by rw [hphase]; rfl)
    split
    · refine ⟨Sane.setPhase h ⟨?_, fun heq => (nomatch heq)⟩, rfl⟩
      rintro _ ⟨⟩
      exact hid
    · exact ⟨Sane.release h, rfl⟩
  · exact ⟨h, rfl⟩

theorem check_spec {z : System} (h : ∀ c, Sane (z.phase c)) :
    (∀ c', Sane ((Clients.check z c).phase c')) ∧ (Clients.check z c).store = z.store := by
  unfold Clients.check
  split
  · next job hphase =>
    have hid := (h c).id_eq (by rw [hphase]; rfl)
    split
    · refine ⟨Sane.setPhase h ⟨?_, fun heq => (nomatch heq)⟩, rfl⟩
      rintro _ ⟨⟩
      exact hid
    · exact ⟨Sane.release h, rfl⟩
  · exact ⟨h, rfl⟩

theorem plan_spec {z : System} (h : ∀ c, Sane (z.phase c)) :
    (∀ c', Sane ((Clients.plan z c).phase c')) ∧ (Clients.plan z c).store = z.store := by
  unfold Clients.plan
  split
  · next job hphase =>
    have hid := (h c).id_eq (by rw [hphase]; rfl)
    split
    · next stored plan hplan =>
      obtain ⟨-, -, -, -, htext⟩ := Request.plan_eq_ok hplan
      refine ⟨Sane.setPhase h ⟨?_, ?_⟩, rfl⟩
      · rintro _ ⟨⟩
        exact hid
      · rintro _ _ _ ⟨⟩
        exact htext
    · exact ⟨Sane.release h, rfl⟩
  · exact ⟨h, rfl⟩

/-- The write of a plan is refused and leaves the store, or it is acknowledged and changes its own document. -/
theorem apply_spec {z : System} (h : ∀ c, Sane (z.phase c)) :
    (∀ c', Sane ((Clients.apply z c).1.phase c')) ∧
      (((Clients.apply z c).2 = [] ∧ (Clients.apply z c).1.store = z.store) ∨
        ∃ a, (Clients.apply z c).2 = [a] ∧ (Clients.apply z c).1.store.own = a.apply z.store.own) := by
  unfold Clients.apply
  split
  · next job stored plan hphase =>
    have hid := (h c).id_eq (by rw [hphase]; rfl)
    have htext := (h c).text_eq hphase
    cases ht : job.request.target with
    | error e =>
      have hsame : (job.request.apply z.store stored plan).2 = z.store := by rw [Request.apply, ht]
      simp only [hsame]
      exact ⟨Sane.release h, Or.inl (by simp)⟩
    | ok target =>
      obtain ⟨d, vp⟩ := target
      obtain rfl : d = job.doc := Except.ok.inj ((Request.target_eq_ok ht).1.symm.trans hid)
      rcases @Request.apply_cases _ z.store job.doc vp job.request stored plan ht htext with ⟨e, he⟩ | ⟨hdone, -⟩
      · simp only [he]
        exact ⟨Sane.release h, Or.inl (by simp)⟩
      · simp only [hdone]
        refine ⟨Sane.release h, Or.inr ⟨⟨c, job, vp, stored, plan, z.store.now⟩, rfl, funext fun d => ?_⟩⟩
        by_cases hd : d = job.doc
        · rw [hd, Ack.apply_self]
          exact Change.own_apply
        · exact (Change.own_apply_ne hd).trans (Ack.apply_ne hd).symm
  · exact ⟨h, Or.inl ⟨rfl, rfl⟩⟩

/-! ### The document of the guest -/

omit [Deps] in
/-- The hook removes the document, or finds that it cannot and leaves it. -/
theorem own_purge (vmid : UInt32) (t : MetaStore) :
    (t.purge vmid).2.own (.guest vmid) = if (t.delete (.guest vmid)).1.toBool then none else t.own (.guest vmid) := by
  have hdoc : ∀ name, t.pathFor (.guest vmid) ≠ snapshotPath vmid name := fun name =>
    (pathFor_ne_snapshotPath vmid name).symm
  unfold purge
  rcases Request.delete_cases t (.guest vmid) with ⟨e, he⟩ | ⟨b, hb⟩
  · simp only [he]
    rfl
  · simp only [hb]
    rw [if_pos (show (Except.ok b : Except Error Bool).toBool = true from rfl)]
    have hremoved : (t.removed (.guest vmid)).own (.guest vmid) = none := own_removed
    split
    · exact hremoved
    · exact (History.get?_deleteSnapshots fun name _ => hdoc name).trans hremoved

structure Inv (vmid : UInt32) (s : MetaStore) (y : World) (log : List Entry) : Prop where
  sane : ∀ c, Sane (y.system.phase c)
  own : y.system.store.own (.guest vmid) = left vmid (s.own (.guest vmid)) log
  cleared : .cleared ∈ log → y.stage = .returned
  once : Log.Justified (fun before e => e = .cleared → .cleared ∉ before) log

namespace Inv

theorem start (vmid : UInt32) (s : MetaStore) : Inv vmid s (.start s) [] where
  sane _ := ⟨fun h => (nomatch h), fun h => (nomatch h)⟩
  own := rfl
  cleared h := by cases h
  once := Log.justified_nil

/-- A step that writes nothing. -/
theorem quiet (h : Inv vmid s y log) {z : System} {stage : Stage} (hsane : ∀ c, Sane (z.phase c))
    (hown : z.store.own (.guest vmid) = y.system.store.own (.guest vmid))
    (hstage : y.stage = .returned → stage = .returned) :
    Inv vmid s ⟨z, stage⟩ (log ++ []) := by
  rw [List.append_nil]
  exact ⟨hsane, hown.trans h.own, fun hc => hstage (h.cleared hc), h.once⟩

theorem apply (h : Inv vmid s y log) (c : Nat) :
    Inv vmid s { y with system := (Clients.apply y.system c).1 } (log ++ (Clients.apply y.system c).2.map .ack) := by
  obtain ⟨hsane, ⟨hacks, hstore⟩ | ⟨a, hacks, hown⟩⟩ := @apply_spec _ c y.system h.sane
  · rw [hacks]
    exact h.quiet hsane (by rw [hstore]) id
  · rw [hacks, List.map_cons, List.map_nil]
    refine ⟨hsane, ?_, fun hc => h.cleared ?_, h.once.concat fun heq => by cases heq⟩
    · rw [hown, left_concat, ← h.own, Entry.file]
      split
      · next hdoc =>
        rw [← hdoc]
        exact Ack.apply_self ..
      · next hdoc => exact Ack.apply_ne (Ne.symm hdoc)
    · rcases List.mem_append.mp hc with hc | hc
      · exact hc
      · cases List.mem_singleton.mp hc

theorem hook (h : Inv vmid s y log) (hstage : y.stage = .clearing) {holder : String → Option Owner} :
    Inv vmid s ⟨{ y.system with store := (y.system.store.purge vmid).2, holder }, .returned⟩
      (log ++ if (y.system.store.delete (.guest vmid)).1.toBool then [.cleared] else []) := by
  have hpurge := own_purge vmid y.system.store
  have hnot : .cleared ∉ log := fun hc => by
    have := h.cleared hc
    rw [hstage] at this
    cases this
  split
  · next hok =>
    rw [if_pos hok] at hpurge
    refine ⟨h.sane, ?_, fun _ => rfl, h.once.concat fun _ => hnot⟩
    rw [left_concat]
    exact hpurge
  · next hfail =>
    rw [if_neg hfail] at hpurge
    exact h.quiet h.sane hpurge fun _ => rfl

theorem step (h : Inv vmid s y log) (event : Event) :
    Inv vmid s (step vmid y event).1 (log ++ (step vmid y event).2) := by
  cases event with
  | env env => exact h.quiet h.sane rfl id
  | vmlist vms =>
    rw [Creation.step]
    split
    · exact h.quiet h.sane rfl id
    · exact h.quiet h.sane rfl id
  | take c request =>
    obtain ⟨hsane, hstore⟩ := @take_spec _ c y.system request h.sane
    exact h.quiet hsane (by rw [hstore]) id
  | assertExists c =>
    obtain ⟨hsane, hstore⟩ := @assertExists_spec _ c y.system h.sane
    exact h.quiet hsane (by rw [hstore]) id
  | check c =>
    obtain ⟨hsane, hstore⟩ := @check_spec _ c y.system h.sane
    exact h.quiet hsane (by rw [hstore]) id
  | plan c =>
    obtain ⟨hsane, hstore⟩ := @plan_spec _ c y.system h.sane
    exact h.quiet hsane (by rw [hstore]) id
  | apply c => exact h.apply c
  | create allowExisting =>
    rw [Creation.step]
    split
    · next hstage => exact h.quiet h.sane rfl fun hreturned => by rw [hstage] at hreturned; cases hreturned
    · exact h.quiet h.sane rfl id
  | lock =>
    rw [Creation.step]
    split
    · next hlock => exact h.quiet h.sane rfl fun hreturned => by rw [hlock.1] at hreturned; cases hreturned
    · exact h.quiet h.sane rfl id
  | timeout =>
    rw [Creation.step]
    split
    · exact h.quiet h.sane rfl fun _ => rfl
    · exact h.quiet h.sane rfl id
  | hook =>
    rw [Creation.step]
    split
    · next hstage => exact h.hook hstage
    · exact h.quiet h.sane rfl id

theorem run (vmid : UInt32) (s : MetaStore) (events : List Event) :
    Inv vmid s (run vmid (.start s) events).1 (run vmid (.start s) events).2 :=
  @Log.run_keeps _ _ _ (Creation.step vmid) (Inv vmid s) (fun _ _ event h => h.step event) _ (start vmid s) events

end Inv

/-- The last acknowledged write of the guest's document is what is stored, unless the create's hook removed the
    document after it; and the hook removes nothing that was written after it. -/
theorem acked_write_kept {events : List Event} {before after : List Entry} {a : Ack}
    (hlog : (run vmid (.start s) events).2 = before ++ .ack a :: after) (hdoc : a.job.doc = .guest vmid)
    (hlast : ∀ b, .ack b ∈ after → b.job.doc ≠ .guest vmid) :
    (.cleared ∉ after → (run vmid (.start s) events).1.system.store.own (.guest vmid) =
        a.file (left vmid (s.own (.guest vmid)) before)) ∧
      (.cleared ∈ after → (run vmid (.start s) events).1.system.store.own (.guest vmid) = none) ∧
      (.cleared ∈ before → .cleared ∉ after) := by
  have hinv := Inv.run vmid s events
  have hown : (run vmid (.start s) events).1.system.store.own (.guest vmid) =
      left vmid (a.file (left vmid (s.own (.guest vmid)) before)) after := by
    rw [hinv.own, hlog, left, List.foldl_append, List.foldl_cons, Entry.file, if_pos hdoc]
    rfl
  refine ⟨fun h => ?_, fun h => ?_, fun hbefore hafter => ?_⟩
  · rw [hown, left_of_others h hlast]
  · rw [hown, left_of_cleared h hlast]
  · obtain ⟨mid, rest, rfl⟩ := List.append_of_mem hafter
    have honce := hinv.once (before ++ .ack a :: mid) .cleared rest (by rw [hlog]; simp) rfl
    exact honce (List.mem_append_left _ hbefore)

end

section Samples
open Sample

/-- A put of `{a: 1}` without a digest. -/
def putA : Request := .put ⟨[], "100", none, "yaml", "a: 1\n".toList, "replace", none, false, false, true, root⟩

def writes (request : Request) : List Event :=
  [.take 0 request, .assertExists 0, .check 0, .plan 0, .apply 0]

/-- What an entry is: the hook, or the write of a document and what it leaves of a missing file. -/
def Entry.summary : Entry → Option (DocId × Option ByteArray)
  | .cleared => none
  | .ack a => some (a.job.doc, (a.file none).map (·.bytes))

theorem acked_write_kept_late : ∃ a : Ack,
    (run 100 (.start (storeOf [])) ([.create false, .vmlist [100], .lock, .hook] ++ writes putA)).1.system.store.own
      (.guest 100) = a.file (left 100 none [.cleared]) ∧
        (a.file none).map (·.bytes) = some (Text.encode "a: 1\n".toList) := by
  have hlog : (run 100 (.start (storeOf [])) ([.create false, .vmlist [100], .lock, .hook] ++ writes putA)).2.map
      Entry.summary = [none, some (.guest 100, some (Text.encode "a: 1\n".toList))] := by decide +kernel
  obtain ⟨e₁, l₁, h₁, he₁, hlog⟩ := List.map_eq_cons_iff.mp hlog
  obtain ⟨e₂, l₂, rfl, he₂, hlog⟩ := List.map_eq_cons_iff.mp hlog
  obtain rfl := List.map_eq_nil_iff.mp hlog
  cases e₁ with
  | ack a => cases he₁
  | cleared =>
    cases e₂ with
    | cleared => cases he₂
    | ack a =>
      simp only [Entry.summary, Option.some.injEq, Prod.mk.injEq] at he₂
      exact ⟨a, (@acked_write_kept _ 100 (storeOf []) _ [.cleared] [] a h₁ he₂.1 (fun b hb => by cases hb)).1
        List.not_mem_nil, he₂.2⟩

/-- The vmlist names the guest, a put is acknowledged, and then the create's hook gets the lock. -/
theorem early_write_removed : ∃ a : Ack,
    (run 100 (.start (storeOf [])) ([.create false, .vmlist [100]] ++ writes putA ++ [.lock, .hook])).2 =
      [.ack a, .cleared] ∧
    a.job.doc = .guest 100 ∧ (a.file none).map (·.bytes) = some (Text.encode "a: 1\n".toList) ∧
    (run 100 (.start (storeOf [])) ([.create false, .vmlist [100]] ++ writes putA ++ [.lock, .hook])).1.stage = .returned ∧
    (run 100 (.start (storeOf [])) ([.create false, .vmlist [100]] ++ writes putA ++ [.lock, .hook])).1.system.store.own
      (.guest 100) = none := by
  have hlog : (run 100 (.start (storeOf [])) ([.create false, .vmlist [100]] ++ writes putA ++ [.lock, .hook])).2.map
      Entry.summary = [some (.guest 100, some (Text.encode "a: 1\n".toList)), none] := by decide +kernel
  obtain ⟨e₁, l₁, h₁, he₁, hlog⟩ := List.map_eq_cons_iff.mp hlog
  obtain ⟨e₂, l₂, rfl, he₂, hlog⟩ := List.map_eq_cons_iff.mp hlog
  obtain rfl := List.map_eq_nil_iff.mp hlog
  cases e₂ with
  | ack a => cases he₂
  | cleared =>
    cases e₁ with
    | cleared => cases he₁
    | ack a =>
      simp only [Entry.summary, Option.some.injEq, Prod.mk.injEq] at he₁
      refine ⟨a, h₁, he₁.1, he₁.2, by decide +kernel, ?_⟩
      rw [(Inv.run 100 (storeOf []) _).own, h₁]
      rfl

end Samples

end Creation
end PveMeta
