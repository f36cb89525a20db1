import PveMeta.Theorems.GuestPctSync

/-! # Syncs that nothing disturbs

Turns in which nobody else does anything and nothing fails are as good as none. -/

namespace PveMeta
namespace Guest

open Choices (andThen done each)

variable [Deps] {α β : Type} {fs : Fs} {ts : List Turn} {log : List Deed}

/-- Nobody else does anything, and nothing fails. -/
def Peaceful (ts : List Turn) : Prop := ∀ t ∈ ts, t = ⟨none, .none⟩

/-- Peaceful turns make no difference to the step. -/
def Steady (step : World → Except String α × World) : Prop :=
  ∀ fs ts log, Peaceful ts → ∃ r fs' ts' log', Peaceful ts' ∧
    step ⟨fs, ts, log⟩ = (r, ⟨fs', ts', log'⟩) ∧ step ⟨fs, [], log⟩ = (r, ⟨fs', [], log'⟩)

section

omit [Deps]

theorem Peaceful.tail (h : Peaceful ts) : Peaceful ts.tail := fun t ht => h t (List.mem_of_mem_tail ht)

theorem turn_peaceful (h : Peaceful ts) : (⟨fs, ts, log⟩ : World).turn = (.none, ⟨fs, ts.tail, log⟩) := by
  cases ts with
  | nil => rfl
  | cons t ts =>
    rw [h t List.mem_cons_self]
    rfl

/-- What only looks at the files. -/
theorem steady_look (g : Fs → Except String α) : Steady fun w => (g w.fs, w) :=
  fun fs ts log h => ⟨g fs, fs, ts, log, h, rfl, rfl⟩

theorem Steady.andThen {step : World → Except String α × World} {next : α → World → Except String β × World}
    (h : Steady step) (hnext : ∀ a, Steady (next a)) : Steady (Choices.andThen step next) := by
  intro fs ts log hpeace
  obtain ⟨r, fs', ts', log', hpeace', hstep, hplain⟩ := h fs ts log hpeace
  cases r with
  | error e => exact ⟨.error e, fs', ts', log', hpeace', Choices.andThen_error hstep, Choices.andThen_error hplain⟩
  | ok a =>
    obtain ⟨r, fs'', ts'', log'', hpeace'', hstep', hplain'⟩ := hnext a fs' ts' log' hpeace'
    exact ⟨r, fs'', ts'', log'', hpeace'', (Choices.andThen_ok hstep).trans hstep',
      (Choices.andThen_ok hplain).trans hplain'⟩

theorem steady_done (a : α) : Steady (done a) := steady_look fun _ => .ok a

theorem Steady.each {step : α → World → Except String β × World} (h : ∀ a, Steady (step a)) (l : List α) :
    Steady (Choices.each step l) := by
  induction l with
  | nil => exact steady_done []
  | cons a l ih => exact (h a).andThen fun b => ih.andThen fun bs => steady_done (b :: bs)

theorem steady_call : Steady World.call := by
  intro fs ts log h
  refine ⟨.ok (), fs, ts.tail, log, h.tail, ?_, rfl⟩
  rw [World.call, turn_peaceful h]
  rfl

theorem steady_mkdir (dir : Text) : Steady fun w => mkdir w dir := by
  intro fs ts log h
  have hplain : (⟨fs, [], log⟩ : World).turn = (.none, ⟨fs, [], log⟩) := rfl
  simp only [mkdir, turn_peaceful h, hplain]
  cases fs dir with
  | missing =>
    dsimp only
    split
    · exact ⟨_, fs, _, log, h.tail, rfl, rfl⟩
    · exact ⟨_, Function.update fs dir .dir, _, log, h.tail, rfl, rfl⟩
  | _ => exact ⟨_, fs, _, log, h.tail, rfl, rfl⟩

end

theorem turns_of_destroy (fs : Fs) (ts : List Turn) (log : List Deed) (path : Text) :
    (⟨fs, ts, log⟩ : World).destroy path = { (⟨fs, [], log⟩ : World).destroy path with turns := ts } := by
  unfold World.destroy
  dsimp only
  cases fs path <;> rfl

theorem turns_of_rmForce (fs : Fs) (ts : List Turn) (log : List Deed) (path : Text) :
    (⟨fs, ts, log⟩ : World).rmForce path = { (⟨fs, [], log⟩ : World).rmForce path with turns := ts } := by
  unfold World.rmForce
  rw [turns_of_destroy]
  dsimp only
  cases fs path <;> rfl

theorem turns_of_place {path : Text} {content : ByteArray} {mode : Nat} {owner : Owner} {expect : Expect} :
    place ⟨fs, ts, log⟩ .none path content mode owner expect =
      ((place ⟨fs, [], log⟩ .none path content mode owner expect).1,
        { (place ⟨fs, [], log⟩ .none path content mode owner expect).2 with turns := ts }) := by
  unfold place
  rw [turns_of_rmForce]
  cases (⟨fs, [], log⟩ : World).rmForce (tempFor path) with
  | mk fs ts' log' =>
    have htarget : (⟨fs, ts, log'⟩ : World).moveTarget path = (⟨fs, ts', log'⟩ : World).moveTarget path := rfl
    dsimp only
    rw [htarget]
    split
    · rfl
    split
    · rfl
    split
    · rfl
    split
    · rfl
    · rw [World.move, World.move, htarget, turns_of_destroy fs ts log', turns_of_destroy fs ts' log']
      rfl

theorem turns_of_remove (ts : List Turn) {path : Text} {sha256 : String} : remove ⟨fs, ts, log⟩ .none path sha256 =
    ((remove ⟨fs, [], log⟩ .none path sha256).1, { (remove ⟨fs, [], log⟩ .none path sha256).2 with turns := ts }) := by
  unfold remove
  rw [turns_of_destroy]
  dsimp only
  cases fs path with
  | file owner mode content =>
    dsimp only
    split <;> rfl
  | _ => rfl

theorem steady_runOp (op : Op) : Steady fun w => runOp w op := by
  intro fs ts log h
  have hplain : (⟨fs, [], log⟩ : World).turn = (.none, ⟨fs, [], log⟩) := rfl
  simp only [runOp, turn_peaceful h, hplain, reduceCtorEq, if_false]
  cases op with
  | place path content mode owner expect => exact ⟨_, _, ts.tail, _, h.tail, turns_of_place, turns_of_place⟩
  | remove path sha256 =>
    dsimp only
    rw [turns_of_remove ts.tail, turns_of_remove []]
    exact ⟨_, _, ts.tail, _, h.tail, rfl, rfl⟩

/-! ### Calls -/

theorem steady_commit (dirs : List Text) (ops : List Op) : Steady (World.commit · dirs ops) := by
  rw [commit_eq]
  have hscript : Steady (committing dirs ops) :=
    steady_call.andThen fun _ => (Steady.each steady_mkdir dirs).andThen fun _ => Steady.each steady_runOp ops
  exact hscript.andThen fun os => steady_call.andThen fun _ => steady_done os

theorem steady_probe (paths : List Text) : Steady (World.probe · paths) := by
  rw [probe_eq]
  exact Steady.each (fun path => steady_call.andThen fun _ => steady_look fun fs => .ok (path, (fs path).lstat)) paths

omit [Deps] in
theorem steady_read (path : Text) (max : Nat) : Steady (World.read · path max) := by
  intro fs ts log h
  have hplain : (⟨fs, [], log⟩ : World).turn = (.none, ⟨fs, [], log⟩) := rfl
  simp only [World.read, World.call, turn_peaceful h, hplain, if_true]
  cases fs path with
  | file owner mode content =>
    dsimp only
    split <;> exact ⟨_, fs, ts.tail, log, h.tail, rfl, rfl⟩
  | _ => exact ⟨_, fs, ts.tail, log, h.tail, rfl, rfl⟩

variable [RustDebug] [Serde]

theorem steady_inspect (files : GuestFiles) (force : Bool) : Steady (World.calls.inspect files force) := by
  have hlook : Steady (World.calls.look files) := by
    rw [Calls.look_andThen]
    refine (steady_read manifestPath Manifest.maxBytes).andThen fun bytes => ?_
    split
    · exact (steady_probe _).andThen fun nodes => steady_done _
    · exact steady_done _
  rw [Calls.inspect_andThen]
  refine hlook.andThen fun e fs ts log h => ?_
  exact ⟨_, fs, ts, _, h, rfl, rfl⟩

omit [RustDebug] in
theorem steady_saveManifest (before after : Manifest) (dirs : List Text) :
    Steady (World.calls.saveManifest before after dirs) := by
  rw [Calls.saveManifest_andThen]
  split
  · exact steady_done ()
  · exact (steady_commit dirs [manifestOp after]).andThen fun os => steady_look fun _ => saved os

theorem steady_sync (files : GuestFiles) (force : Bool) : Steady (sync files force) := by
  show Steady (World.calls.sync files force)
  rw [Calls.sync_andThen]
  refine (steady_inspect files force).andThen fun ins => ?_
  split
  · have hcommit : Steady (if ins.plan.ops.isEmpty then done [] else World.calls.commit ins.plan.dirs ins.plan.ops) := by
      split
      · exact steady_done []
      · exact steady_commit _ _
    exact hcommit.andThen fun os => (steady_saveManifest _ _ _).andThen fun _ => steady_done _
  · exact steady_done _

end Guest
end PveMeta
