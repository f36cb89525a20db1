import PveMeta.Theorems.GuestCalm
import PveMeta.Theorems.GuestShellOps

/-! # What the functions of a commit come to

`w`, `rmf` and `d`, each from its commands: it does what the step of a commit does that has its name, with some fault, and
tells what that step says; or the script is killed in it, and of the files that are no temp files either all is as it was or
all is done. -/

namespace PveMeta
namespace Guest

open Shell (State Flow Cmd Ends Word Words exec lit arg cmd)

variable [Deps] {s t u : State Machine} {path temp : Text} {fs base : Fs}
    {call : Cmd → State Machine → Flow × State Machine}
  {content : ByteArray} {mode : Nat} {owner : Owner} {expect : Expect} {i : Text} {depth : Nat} {m : Machine}
variable {next moved : Fs → Prop} {tells : Text → Fs → Prop} {c d : Cmd}

/-! ### The step that `w` is -/

theorem destroy_turns (w : World) (path : Text) : (w.destroy path).turns = w.turns := by
  unfold World.destroy
  split <;> rfl

theorem rmForce_eq (w : World) (path : Text) :
    (w.rmForce path).fs = cleared w.fs path ∧ (w.rmForce path).turns = w.turns := by
  unfold World.rmForce cleared
  cases hnode : w.fs path with
  | dir => exact ⟨rfl, rfl⟩
  | _ =>
    refine ⟨?_, destroy_turns w path⟩
    rw [if_neg (by simp), World.set, destroy_fs]

section

variable {w : World} {fault : Fault}

omit [Deps] in
theorem moveTarget_of_fs (h : w.fs = base) : w.moveTarget path = (World.start base).moveTarget path := by
  rw [World.moveTarget, h]
  rfl

theorem place_write (hbase : cleared w.fs (tempFor path) = base)
    (h : fault = .write ∨ base (tempFor path) = .dir ∨ creatable base (tempFor path) = false) :
    place w fault path content mode owner expect = (.ok (.failed "write"), w.rmForce (tempFor path)) := by
  rw [← hbase, ← (rmForce_eq w (tempFor path)).1] at h
  unfold place
  exact if_pos h

theorem place_owner (hfault : fault = .owner ∨ fault = .none ∧ owner.settable = false)
    (hbase : cleared w.fs (tempFor path) = base) (hdir : base (tempFor path) ≠ .dir)
    (hhold : creatable base (tempFor path) = true) :
    place w fault path content mode owner expect = (.ok (.failed "owner or mode"), w.rmForce (tempFor path)) := by
  have hgo : ¬ (fault = .write ∨ (w.rmForce (tempFor path)).fs (tempFor path) = .dir ∨
      creatable (w.rmForce (tempFor path)).fs (tempFor path) = false) := by
    rw [(rmForce_eq w (tempFor path)).1, hbase]
    rcases hfault with rfl | ⟨rfl, -⟩ <;> simp [hdir, hhold]
  unfold place
  dsimp only
  rw [if_neg hgo]
  rcases hfault with rfl | ⟨rfl, hsettable⟩
  · rfl
  · exact if_pos hsettable

theorem place_checked (hfault : fault = .none ∨ fault = .final) (hbase : cleared w.fs (tempFor path) = base)
    (hdir : base (tempFor path) ≠ .dir) (hhold : creatable base (tempFor path) = true) (howner : owner.settable = true) :
    place w fault path content mode owner expect =
      if ! expect.holds (base path) then (.ok .changed, w.rmForce (tempFor path))
      else if fault = .final ∨ Immovable base path then (.ok (.failed "rename"), w.rmForce (tempFor path))
      else (.ok .done, (w.rmForce (tempFor path)).move path owner mode content) := by
  have hfs : (w.rmForce (tempFor path)).fs = base := (rmForce_eq w (tempFor path)).1.trans hbase
  have htarget : (w.rmForce (tempFor path)).moveTarget path = (World.start base).moveTarget path :=
    moveTarget_of_fs hfs
  have hgo : ¬ (fault = .write ∨ (w.rmForce (tempFor path)).fs (tempFor path) = .dir ∨
      creatable (w.rmForce (tempFor path)).fs (tempFor path) = false) := by
    rw [hfs]
    rcases hfault with rfl | rfl <;> simp [hdir, hhold]
  unfold place
  dsimp only
  rw [if_neg hgo, hfs, htarget, howner]
  rcases hfault with rfl | rfl <;> rfl

theorem move_eq (path : Text) (owner : Owner) (mode : Nat) (content : ByteArray) (hfs : w.fs = base) :
    (w.move path owner mode content).fs =
        Function.update base ((World.start base).moveTarget path) (.file owner mode content) ∧
      (w.move path owner mode content).turns = w.turns := by
  have htarget : w.moveTarget path = (World.start base).moveTarget path := moveTarget_of_fs hfs
  refine ⟨?_, destroy_turns ..⟩
  show Function.update (w.destroy (w.moveTarget path)).fs (w.moveTarget path) _ = _
  rw [destroy_fs, htarget, hfs]

end

/-! ### `w` -/

/-- What the script writes of an outcome. -/
def Outcome.text : Outcome → Text
  | .done => "done".toList
  | .changed => "changed".toList
  | .failed what => "failed ".toList ++ what.toList

/-- A step of this kind says this outcome, and leaves these files. -/
def Steps (s : State Machine) (step : World → Except String Outcome × World) (o : Outcome) (fs : Fs) : Prop :=
  ∀ w, w.fs = s.sys.fs → ∃ w', step w = (.ok o, w') ∧ w'.fs = fs ∧ w'.turns = w.turns

/-- With some fault, which there is none of if nothing goes wrong. -/
def Tells (s : State Machine) (step : Fault → World → Except String Outcome × World) (what : Text) (fs : Fs) : Prop :=
  ∃ fault o, (Calm s → fault = .none) ∧ o.text = what ∧ Steps s (step fault) o fs

/-! ### All of `w` -/

/-- The files when a temp file has become the file at the path. -/
def renamed (base : Fs) (path : Text) (owner : Owner) (mode : Nat) (content : ByteArray) : Fs :=
  Function.update base ((World.start base).moveTarget path) (.file owner mode content)

/-- What `w` may tell of files that had no temp file, and when. -/
structure Verdicts (s : State Machine) (base : Fs) (path : Text) (content : ByteArray) (mode : Nat) (owner : Owner)
    (expect : Expect) (moved : Fs → Prop) (tells : Text → Fs → Prop) : Prop where
  write : ¬ Calm s ∨ base (tempFor path) = .dir ∨ creatable base (tempFor path) = false → tells "failed write".toList base
  notOwned : base (tempFor path) ≠ .dir → creatable base (tempFor path) = true → ¬ Calm s ∨ owner.settable = false →
    tells "failed owner or mode".toList base
  changed : base (tempFor path) ≠ .dir → creatable base (tempFor path) = true → owner.settable = true →
    expect.holds (base path) = false → tells "changed".toList base
  rename : base (tempFor path) ≠ .dir → creatable base (tempFor path) = true → owner.settable = true →
    expect.holds (base path) = true → ¬ Calm s ∨ Immovable base path → tells "failed rename".toList base
  done : base (tempFor path) ≠ .dir → creatable base (tempFor path) = true → owner.settable = true →
    expect.holds (base path) = true → ¬ Immovable base path →
    moved (renamed base path owner mode content) ∧ tells "done".toList (renamed base path owner mode content)

theorem Verdicts.later (h : Verdicts s base path content mode owner expect moved tells) (hw : Within temp s t) :
    Verdicts t base path content mode owner expect moved tells where
  write hwhy := h.write (hwhy.imp_left hw.wild)
  notOwned hdir hhold hwhy := h.notOwned hdir hhold (hwhy.imp_left hw.wild)
  changed := h.changed
  rename hdir hhold howner hholds hwhy := h.rename hdir hhold howner hholds (hwhy.imp_left hw.wild)
  done := h.done

namespace Placing

/-- From the check of what is there on. -/
theorem ends_checked (h : Placing s i path mode owner expect)
    (hv : Verdicts s base path content mode owner expect moved tells)
    (hbase : Based base (tempFor path) s.sys.fs) (hfile : s.sys.fs (tempFor path) = .file owner mode content)
    (hdir : base (tempFor path) ≠ .dir) (hhold : creatable base (tempFor path) = true) (howner : owner.settable = true)
    (hplain : expect.Plain) (hreserved : ¬ Reserved path) :
    Ends (Placed s i (tempFor path) moved tells) (exec system (Shell.calls system (depth + 1))
      (.seq unlessExpected (.seq (orSkip (.not (cmd [lit "mv", lit "-f", arg "3", arg "2"])) (giveUp "failed rename"))
        (tell "done")))
      s) := by
  have hnot : path ≠ tempFor path := ne_tempFor hreserved path
  refine ends_stage (h.ends_unlessExpected hbase hnot hplain (hv.changed hdir hhold howner)) fun t hw ht => ?_
  obtain ⟨hfs, hholds⟩ := ht
  have hv' := hv.later hw
  exact (h.kept hw).ends_rename (hfs ▸ hbase) (hfs ▸ hfile) hnot (hv'.done hdir hhold howner hholds)
    (hv'.rename hdir hhold howner hholds)

/-- From the `chown` on. -/
theorem ends_written (h : Placing s i path mode owner expect)
    (hv : Verdicts s base path content mode owner expect moved tells)
    (hbase : Based base (tempFor path) s.sys.fs) (hfile : s.sys.fs (tempFor path) = .file .root 0o600 content)
    (hdir : base (tempFor path) ≠ .dir) (hhold : creatable base (tempFor path) = true) (hplain : expect.Plain)
    (hreserved : ¬ Reserved path) :
    Ends (Placed s i (tempFor path) moved tells) (exec system (Shell.calls system (depth + 1))
      (.seq (orSkip notOwned (giveUp "failed owner or mode")) (.seq unlessExpected
        (.seq (orSkip (.not (cmd [lit "mv", lit "-f", arg "3", arg "2"])) (giveUp "failed rename"))
          (tell "done")))) s) := by
  have hbased {fs : Fs} (hfs : ∀ p, p ≠ tempFor path → fs p = s.sys.fs p) (hnot : fs (tempFor path) ≠ .dir) :
      Based base (tempFor path) fs :=
    ⟨fun p hp => (hfs p hp).trans (hbase.off p hp), iff_of_false hnot hdir, hbase.clear⟩
  have howned : Ends (Stage s i (tempFor path) (fun fs => owner.settable = true ∧ Based base (tempFor path) fs ∧
      fs (tempFor path) = .file owner mode content) tells)
      (exec system (Shell.calls system (depth + 1)) (orSkip notOwned (giveUp "failed owner or mode")) s) := by
    refine h.ends_orGiveUp base ((h.ends_notOwned hfile).mono fun f t ht => ?_)
    obtain ⟨hw, hkilled | ⟨hf, hworked, hwhy, hnot⟩⟩ := ht
    · exact ⟨hw, Or.inl hkilled⟩
    · refine ⟨hw, Or.inr ⟨hf, fun hzero => ⟨hbased hw.files hnot, hv.notOwned hdir hhold (hwhy hzero)⟩, fun hstatus => ?_⟩⟩
      obtain ⟨howner, hfs⟩ := hworked hstatus
      refine ⟨howner, hbased hw.files hnot, ?_⟩
      rw [hfs]
      exact Function.update_self ..
  refine ends_stage howned fun t hw ht => ?_
  exact (h.kept hw).ends_checked (hv.later hw) ht.2.1 ht.2.2 hdir hhold ht.1 hplain hreserved

/-- `w`, from what it may tell. -/
theorem ends_body (h : Placing s i path mode owner expect) (depth : Nat)
    (hv : Verdicts s (cleared s.sys.fs (tempFor path)) path content mode owner expect moved tells)
    (hinput : s.input = base64 content ++ ['\n']) (hplain : expect.Plain) (hreserved : ¬ Reserved path) :
    Ends (Placed s i (tempFor path) moved tells) (exec system (Shell.calls system (depth + 1)) placeBody s) := by
  generalize hbase : cleared s.sys.fs (tempFor path) = base at hv
  have hclear : base (tempFor path) = .missing ∨ base (tempFor path) = .dir := hbase ▸ cleared_self _ _
  refine h.ends_removeTemp.seq (fun t ht => ?_) fun f t hf ht => ?_
  · obtain ⟨hw, ⟨hf, -⟩ | ⟨-, hinput', hfs⟩⟩ := ht
    · cases hf
    rw [hbase] at hfs
    rw [hinput] at hinput'
    have hwrite : Ends (Stage t i (tempFor path) (fun fs => base (tempFor path) = .missing ∧
        creatable base (tempFor path) = true ∧ fs = Function.update base (tempFor path) (.file .root 0o600 content)) tells)
        (exec system (Shell.calls system (depth + 1)) (orSkip (.not writeTemp) (giveUp "failed write")) t) := by
      refine (h.kept hw).ends_orGiveUp base ((ends_not ((h.kept hw).ends_writeTemp hinput' (hfs ▸ hclear))).mono
        fun f v ht => ?_)
      obtain ⟨hw', hkilled | ⟨hf, u, hu, rfl⟩⟩ := ht
      · exact ⟨hw', Or.inl hkilled⟩
      · have hoff : ∀ p, p ≠ tempFor path → u.sys.fs p = base p := fun p hp => (hw'.files p hp).trans (congrFun hfs p)
        have hworked := hu.worked
        have hfailed := hu.failed
        have hdir := hu.dir
        rw [hfs] at hworked hfailed hdir
        refine ⟨hw', Or.inr ⟨hf, fun hzero => ⟨⟨hoff, hdir, hclear⟩, (hv.later hw).write (hfailed fun heq => ?_)⟩,
          fun hne => hworked ?_⟩⟩
        · rw [State.ended, heq] at hzero
          cases hzero
        · by_contra hstatus
          rw [State.ended, if_neg hstatus] at hne
          exact hne rfl
    refine (ends_stage hwrite fun v hw' hv' => ?_).mono fun f u hu => hw.placed hu
    obtain ⟨hmissing, hhold, hfs'⟩ := hv'
    have hdir : base (tempFor path) ≠ .dir := by simp [hmissing]
    have hfile : v.sys.fs (tempFor path) = .file .root 0o600 content := by
      rw [hfs']
      exact Function.update_self ..
    refine (h.kept (hw.trans hw')).ends_written (hv.later (hw.trans hw')) ⟨fun p hp => ?_, ?_, hclear⟩ hfile hdir
      hhold hplain hreserved
    · rw [hfs']
      exact Function.update_of_ne hp _ _
    · rw [hfile]
      exact iff_of_false (by simp) hdir
  · obtain ⟨hw, ⟨hkilled, wild⟩ | ⟨hnext, -⟩⟩ := ht
    · exact .killed hkilled wild hw.kept hw.out (Or.inl hw.files)
    · exact absurd hnext hf

end Placing

/-- What `w` may tell is what the step says. -/
theorem verdicts_place (s : State Machine) (path : Text) (content : ByteArray) (mode : Nat) (owner : Owner)
    (expect : Expect) :
    Verdicts s (cleared s.sys.fs (tempFor path)) path content mode owner expect
      (Steps s (fun w => place w .none path content mode owner expect) .done)
      (Tells s fun fault w => place w fault path content mode owner expect) := by
  generalize hbase : cleared s.sys.fs (tempFor path) = base
  have hrm {w : World} (hw : w.fs = s.sys.fs) : cleared w.fs (tempFor path) = base := by rw [hw, hbase]
  have hclear {w : World} (hw : w.fs = s.sys.fs) :
      (w.rmForce (tempFor path)).fs = base ∧ (w.rmForce (tempFor path)).turns = w.turns :=
    ⟨(rmForce_eq w _).1.trans (hrm hw), (rmForce_eq w _).2⟩
  have hdone (hdir : base (tempFor path) ≠ .dir) (hhold : creatable base (tempFor path) = true)
      (howner : owner.settable = true) (hholds : expect.holds (base path) = true) (hstuck : ¬ Immovable base path) :
      Steps s (fun w => place w .none path content mode owner expect) .done (renamed base path owner mode content) := by
    intro w hw
    have hmove := move_eq path owner mode content (hclear hw).1
    refine ⟨_, ?_, hmove.1, hmove.2.trans (hclear hw).2⟩
    dsimp only
    rw [place_checked (Or.inl rfl) (hrm hw) hdir hhold howner, hholds, if_neg (by simp),
      if_neg (not_or.mpr ⟨by simp, hstuck⟩)]
  refine ⟨fun hwhy => ?_, fun hdir hhold hwhy => ?_, fun hdir hhold howner hholds => ?_,
    fun hdir hhold howner hholds hwhy => ?_, fun hdir hhold howner hholds hstuck => ?_⟩
  · by_cases hcalm : Calm s
    · exact ⟨.none, .failed "write", fun _ => rfl, rfl, fun w hw =>
        ⟨_, place_write (hrm hw) (Or.inr (hwhy.resolve_left (not_not.mpr hcalm))), hclear hw⟩⟩
    · exact ⟨.write, .failed "write", fun h => absurd h hcalm, rfl, fun w hw =>
        ⟨_, place_write (hrm hw) (Or.inl rfl), hclear hw⟩⟩
  · by_cases hcalm : Calm s
    · exact ⟨.none, .failed "owner or mode", fun _ => rfl, rfl, fun w hw =>
        ⟨_, place_owner (Or.inr ⟨rfl, hwhy.resolve_left (not_not.mpr hcalm)⟩) (hrm hw) hdir hhold, hclear hw⟩⟩
    · exact ⟨.owner, .failed "owner or mode", fun h => absurd h hcalm, rfl, fun w hw =>
        ⟨_, place_owner (Or.inl rfl) (hrm hw) hdir hhold, hclear hw⟩⟩
  · refine ⟨.none, .changed, fun _ => rfl, rfl, fun w hw => ⟨_, ?_, hclear hw⟩⟩
    dsimp only
    rw [place_checked (Or.inl rfl) (hrm hw) hdir hhold howner, hholds]
    rfl
  · by_cases hcalm : Calm s
    · refine ⟨.none, .failed "rename", fun _ => rfl, rfl, fun w hw => ⟨_, ?_, hclear hw⟩⟩
      dsimp only
      rw [place_checked (Or.inl rfl) (hrm hw) hdir hhold howner, hholds, if_neg (by simp),
        if_pos (Or.inr (hwhy.resolve_left (not_not.mpr hcalm)))]
    · refine ⟨.final, .failed "rename", fun h => absurd h hcalm, rfl, fun w hw => ⟨_, ?_, hclear hw⟩⟩
      dsimp only
      rw [place_checked (Or.inr rfl) (hrm hw) hdir hhold howner, hholds, if_neg (by simp), if_pos (Or.inl rfl)]
  · have hsteps := hdone hdir hhold howner hholds hstuck
    exact ⟨hsteps, .none, .done, fun _ => rfl, rfl, hsteps⟩

/-! ### `rmf` -/

/-- `remove`, as a step that says its outcome. -/
def removal (path : Text) (sha256 : String) (fault : Fault) (w : World) : Except String Outcome × World :=
  (.ok (remove w fault path sha256).1, (remove w fault path sha256).2)

/-- The shell in `rmf`, which was called for this. -/
structure Removing (s : State Machine) (i path : Text) (sha256 : String) : Prop where
  ready : Ready s
  hash : Assoc.get? ['h'] s.funs = some hashOf
  args : s.args = [i, path, sha256.toList]

variable {sha256 : String}

namespace Removing

omit [Deps] in
theorem kept (h : Removing s i path sha256) (hk : Kept s t) : Removing t i path sha256 :=
  ⟨h.ready.kept hk, hk.funs ▸ h.hash, hk.args.trans h.args⟩

omit [Deps] in
theorem param_number (h : Removing s i path sha256) : s.param "1".toList = some i := by
  show s.args[0]? = _
  rw [h.args]
  rfl

omit [Deps] in
theorem param_path (h : Removing s i path sha256) : s.param "2".toList = some path := by
  show s.args[1]? = _
  rw [h.args]
  rfl

omit [Deps] in
theorem param_hash (h : Removing s i path sha256) : s.param "3".toList = some sha256.toList := by
  show s.args[2]? = _
  rw [h.args]
  rfl

end Removing

/-- `rmf` is over, and has read nothing. -/
def Removed (s : State Machine) (i path : Text) (sha256 : String) (f : Flow) (t : State Machine) : Prop :=
  Placed s i (tempFor path) (Steps s (removal path sha256 .none) .done) (Tells s (removal path sha256)) f t ∧
    t.input = s.input

theorem steps_removal {fault : Fault} {o : Outcome} {fs : Fs} (h : ∀ w : World, w.fs = s.sys.fs →
    (remove w fault path sha256).1 = o ∧ (remove w fault path sha256).2.fs = fs ∧
      (remove w fault path sha256).2.turns = w.turns) :
    Steps s (removal path sha256 fault) o fs := by
  intro w hw
  obtain ⟨ho, hfs, hturns⟩ := h w hw
  exact ⟨_, by rw [removal, ho], hfs, hturns⟩

theorem Removed.of_same (hk : Kept s t) (hout : t.out = s.out) (hfs : t.sys.fs = s.sys.fs) {f : Flow}
    (h : Removed t i path sha256 f u) : Removed s i path sha256 f u := by
  have hsteps {fault : Fault} {o : Outcome} {fs : Fs} (h : Steps t (removal path sha256 fault) o fs) :
      Steps s (removal path sha256 fault) o fs := fun w hw => h w (hw.trans hfs.symm)
  have hw : Within (tempFor path) s t := hk.within hout fun p _ => congrFun hfs p
  obtain ⟨hp, hinput⟩ := h
  refine ⟨?_, hinput.trans hk.input⟩
  cases hw.placed hp with
  | killed hf wild hk hout files => exact .killed hf wild hk hout (files.imp_right hsteps)
  | told hf what ht files =>
    obtain ⟨fault, o, hcalm, htext, ho⟩ := files
    exact .told hf what ht ⟨fault, o, fun hs => hcalm (hk.calm hs), htext, hsteps ho⟩

namespace Removing

/-- A test that says what the step says, or that lets `rmf` go on. -/
theorem ends_test (h : Removing s i path sha256) {b : Cmd} {what : String} {R : Prop}
    (hb : Ends (fun f t => Kept s t ∧ t.sys.fs = s.sys.fs ∧ t.out = s.out ∧ Survives s (fun t =>
      (t.status = 0 → Tells s (removal path sha256) what.toList s.sys.fs) ∧ (t.status ≠ 0 → R)) f t) (exec system call b s))
    (hd : ∀ t, Removing t i path sha256 → t.sys.fs = s.sys.fs → R → Ends (Removed t i path sha256) (exec system call d t)) :
    Ends (Removed s i path sha256) (exec system call (.seq (orSkip b (tellAndReturn what)) d) s) := by
  refine Ends.seq (P := fun f t => Removed s i path sha256 f t ∧ f ≠ .next ∨
    f = .next ∧ Kept s t ∧ t.out = s.out ∧ t.sys.fs = s.sys.fs ∧ R) ?_ (fun t ht => ?_) fun f t hf ht => ?_
  · refine hb.cond (fun t ht hstatus => ?_) (fun t ht hstatus => ?_) fun f t hf ht => ?_
    · obtain ⟨hk, hfs, hout, ⟨hf, -⟩ | ⟨-, htells, -⟩⟩ := ht
      · cases hf
      rw [(h.kept hk).ready.exec_tellAndReturn (h.kept hk).param_number]
      refine Or.inl ⟨⟨.told (Or.inr rfl) _ (.of_say ⟨hk.args, hk.funs, rfl, hk.tools, hk.turns, hk.calm⟩ hout _) ?_,
        hk.input⟩, by simp⟩
      show Tells s _ _ t.sys.fs
      rw [hfs]
      exact htells hstatus
    · obtain ⟨hk, hfs, hout, ⟨hf, -⟩ | ⟨-, -, hr⟩⟩ := ht
      · cases hf
      exact Or.inr ⟨rfl, hk.trans (kept_ended t 0), hout, hfs, hr hstatus⟩
    · obtain ⟨hk, hfs, hout, ⟨hkilled, wild⟩ | ⟨hnext, -⟩⟩ := ht
      · exact Or.inl ⟨⟨.killed hkilled wild ⟨hk.args, hk.funs, rfl, hk.tools, hk.turns, hk.calm⟩ hout
          (Or.inl fun p _ => congrFun hfs p), hk.input⟩, hf⟩
      · exact absurd hnext hf
  · obtain ⟨-, hnever⟩ | ⟨-, hk, hout, hfs, hr⟩ := ht
    · exact absurd rfl hnever
    exact (hd t (h.kept hk) hfs hr).mono fun f u hu => hu.of_same hk hout hfs
  · obtain ⟨hp, -⟩ | ⟨hnext, -⟩ := ht
    · exact hp
    · exact absurd hnext hf

/-- `rm -f "$2"`, and what is told of it. -/
theorem ends_rm (h : Removing s i path sha256) (hfile : IsFile (s.sys.fs path))
    (hdone : Steps s (removal path sha256 .none) .done (Function.update s.sys.fs path .missing))
    (hfailed : ¬ Calm s → Tells s (removal path sha256) "failed removal".toList s.sys.fs) :
    Ends (Removed s i path sha256) (exec system call
      (.seq (orSkip (.not (cmd [lit "rm", lit "-f", arg "2"])) (tellAndReturn "failed removal")) (tell "done")) s) := by
  have hwords : (Shell.words [lit "rm", lit "-f", arg "2"]).texts? s = some (Tool.rm.name :: ["-f".toList, path]) :=
    Shell.texts?_cons (Shell.text?_lit _)
      (Shell.texts?_cons (Shell.text?_lit _) (Shell.texts?_cons (Shell.text?_arg h.param_path) rfl))
  have heffect : effectOf s.sys .rm ["-f".toList, path] = some ([], Function.update s.sys.fs path .missing) := by
    obtain ⟨owner, mode, content, hnode⟩ := hfile
    rw [effectOf, Tool.run, hnode]
    rfl
  have hdoes := h.ready.does_tool call hwords rfl rfl rfl
  have hfree : (if False then none else some ([], Function.update s.sys.fs path .missing)) =
      some (([] : Text), Function.update s.sys.fs path .missing) := if_neg not_false
  rw [heffect, ← hfree] at hdoes
  have hinput {t : State Machine} (hk : Kept s t) : Kept { s with input := t.input } t :=
    ⟨hk.args, hk.funs, rfl, hk.tools, hk.turns, hk.calm⟩
  refine Ends.seq (P := fun f t => Removed s i path sha256 f t ∧ f ≠ .next ∨
    f = .next ∧ Kept s t ∧ t.out = s.out ∧ t.sys.fs = Function.update s.sys.fs path .missing) ?_ (fun t ht =>
      ?_) fun f t hf ht => ?_
  · refine (ends_reversed hdoes).cond (fun t ht hstatus => ?_) (fun t ht hstatus => ?_) fun f t hf ht => ?_
    · cases ht with
      | killed _ _ hkilled => cases hkilled
      | worked _ _ _ hreversed => exact absurd hstatus hreversed
      | failed hk why _ _ hout hfs =>
        rw [(h.kept hk).ready.exec_tellAndReturn (h.kept hk).param_number]
        refine Or.inl ⟨⟨.told (Or.inr rfl) _ (.of_say (hinput hk) hout _) ?_, hk.input⟩, by simp⟩
        show Tells s _ _ t.sys.fs
        rw [hfs]
        exact hfailed (why.resolve_right not_false)
    · cases ht with
      | killed _ _ hkilled => cases hkilled
      | failed _ _ _ hreversed => exact absurd hreversed hstatus
      | worked hk _ _ _ hout hfs => exact Or.inr ⟨rfl, hk.trans (kept_ended t 0), hout, hfs⟩
    · cases ht with
      | killed hk wild hkilled hout files =>
        refine Or.inl ⟨⟨.killed hkilled wild (hinput hk) hout ?_, hk.input⟩, hf⟩
        rcases files with hfs | ⟨-, hfs⟩
        · exact Or.inl fun p _ => by rw [hfs]
        · rw [hfs]
          exact Or.inr hdone
      | failed _ _ hnext => exact absurd hnext hf
      | worked _ _ hnext => exact absurd hnext hf
  · obtain ⟨-, hnever⟩ | ⟨-, hk, hout, hfs⟩ := ht
    · exact absurd rfl hnever
    rw [(h.kept hk).ready.exec_tell (h.kept hk).param_number]
    refine ⟨.told (Or.inl rfl) _ (.of_say (hinput hk) hout _) ?_, hk.input⟩
    show Tells s _ _ t.sys.fs
    rw [hfs]
    exact ⟨.none, .done, fun _ => rfl, rfl, hdone⟩
  · obtain ⟨hp, -⟩ | ⟨hnext, -⟩ := ht
    · exact hp
    · exact absurd hnext hf

end Removing

theorem tells_changed (hmissing : s.sys.fs path ≠ .missing)
    (h : ∀ owner mode content, s.sys.fs path = .file owner mode content →
      (MetaStore.digest content).toList ≠ sha256.toList) :
    Tells s (removal path sha256) "changed".toList s.sys.fs := by
  refine ⟨.none, .changed, fun _ => rfl, rfl, steps_removal fun w hw => ?_⟩
  have hremove : remove w .none path sha256 = (.changed, w) := by
    rw [← hw] at h hmissing
    unfold remove
    cases hnode : w.fs path with
    | missing => exact absurd hnode hmissing
    | file owner mode content => exact if_pos fun heq => h owner mode content hnode (congrArg _ heq)
    | _ => rfl
  rw [hremove]
  exact ⟨rfl, hw, rfl⟩

theorem tells_missing (h : s.sys.fs path = .missing) : Tells s (removal path sha256) "done".toList s.sys.fs := by
  refine ⟨.none, .done, fun _ => rfl, rfl, steps_removal fun w hw => ?_⟩
  have hremove : remove w .none path sha256 = (.done, w) := by
    rw [← hw] at h
    unfold remove
    rw [h]
  rw [hremove]
  exact ⟨rfl, hw, rfl⟩

theorem remove_file {w : World} {fault : Fault} (hfile : w.fs path = .file owner mode content)
    (hhash : MetaStore.digest content = sha256) : remove w fault path sha256 =
      if fault = .final then (.failed "removal", w) else (.done, (w.destroy path).set path .missing) := by
  unfold remove
  rw [hfile]
  exact if_neg (not_not.mpr hhash)

theorem Removing.ends_body (h : Removing s i path sha256) :
    Ends (Removed s i path sha256) (exec system (Shell.calls system (depth + 1)) removeBody s) := by
  have hlink : exec system (Shell.calls system (depth + 1)) (isA "-L" "2") s =
      (.next, s.ended (if s.sys.test 'L' path then 0 else 1)) := h.ready.exec_isA rfl h.param_path
  refine h.ends_test (R := ∀ target, s.sys.fs path ≠ .symlink target) ?_ fun s₁ h₁ hfs₁ hsym => ?_
  · rw [hlink]
    refine ⟨kept_ended s _, rfl, rfl, Or.inr ⟨rfl, fun hstatus => ?_, fun hstatus target hsym =>
      hstatus (if_pos (test_link.mpr ⟨target, hsym⟩))⟩⟩
    obtain ⟨target, hsym⟩ : ∃ target, s.sys.fs path = .symlink target := by
      rw [← test_link]
      by_contra hne
      rw [State.ended, if_neg hne] at hstatus
      cases hstatus
    exact tells_changed (by simp [hsym]) fun _ _ _ hfile => (symlink_ne_file (hsym.symm.trans hfile)).elim
  rw [← hfs₁] at hsym
  have hexists : exec system (Shell.calls system (depth + 1)) (isNoA "-e" "2") s₁ =
      (.next, s₁.ended (if s₁.sys.test 'e' path then 1 else 0)) := h₁.ready.exec_isNoA rfl h₁.param_path
  refine h₁.ends_test (R := s₁.sys.fs path ≠ .missing) ?_ fun s₂ h₂ hfs₂ hmissing => ?_
  · rw [hexists]
    refine ⟨kept_ended s₁ _, rfl, rfl, Or.inr ⟨rfl, fun hstatus => tells_missing ?_, fun hstatus hmissing =>
      hstatus (if_neg ?_)⟩⟩
    · by_contra hne
      rw [State.ended, if_pos ((test_exists hsym).mpr hne)] at hstatus
      cases hstatus
    · exact fun htest => (test_exists hsym).mp htest hmissing
  rw [← hfs₂] at hsym hmissing
  have hfile : exec system (Shell.calls system (depth + 1)) (isNoA "-f" "2") s₂ =
      (.next, s₂.ended (if s₂.sys.test 'f' path then 1 else 0)) := h₂.ready.exec_isNoA rfl h₂.param_path
  have hk : (if s₂.sys.test 'f' path then 1 else 0) = 0 ↔ ¬ IsFile (s₂.sys.fs path) := by
    rw [← test_file hsym]
    cases s₂.sys.test 'f' path <;> simp
  have hthat := h₂.ready.ends_isNotThat h₂.hash h₂.param_path h₂.param_hash hfile hk
  refine h₂.ends_test (R := ∃ owner mode content, s₂.sys.fs path = .file owner mode content ∧
    MetaStore.digest content = sha256) ?_
    fun s₃ h₃ hfs₃ hr => ?_
  · refine hthat.mono fun f t ht => ?_
    obtain ⟨hkept, hfs, hout, hkilled | ⟨hnext, hiff⟩⟩ := ht
    · exact ⟨hkept, hfs, hout, Or.inl hkilled⟩
    · refine ⟨hkept, hfs, hout, Or.inr ⟨hnext, fun hzero => tells_changed hmissing (hiff.mp hzero), fun hne => ?_⟩⟩
      have hall := mt hiff.mpr hne
      push Not at hall
      obtain ⟨owner, mode, content, hnode, heq⟩ := hall
      exact ⟨owner, mode, content, hnode, String.toList_inj.mp heq⟩
  rw [← hfs₃] at hr
  obtain ⟨owner, mode, content, hnode, hhash⟩ := hr
  refine h₃.ends_rm ⟨owner, mode, content, hnode⟩ (steps_removal fun w hw => ?_) fun hwild =>
    ⟨.final, .failed "removal", fun hcalm => absurd hcalm hwild, rfl, steps_removal fun w hw => ?_⟩
  · rw [remove_file (hw ▸ hnode) hhash, if_neg (by simp)]
    refine ⟨rfl, ?_, destroy_turns w path⟩
    rw [World.set, destroy_fs, hw]
  · rw [remove_file (hw ▸ hnode) hhash, if_pos rfl]
    exact ⟨rfl, hw, rfl⟩

/-! ### `d` -/

variable {dir : Text}

/-- What is there, if nothing fails: the directory, or a place for it. -/
def Makes (fs : Fs) (dir : Text) (after : Fs) : Prop :=
  fs dir = .dir ∧ after = fs ∨
    fs dir = .missing ∧ creatable fs dir = true ∧ after = Function.update fs dir .dir

/-- `d` is over: the script is killed, or ends over what is in the way, or goes on. -/
inductive DirMade (s : State Machine) (dir : Text) (f : Flow) (t : State Machine) : Prop where
  | killed (flow : f = .killed) (wild : ¬ Calm s) (kept : Kept s t)
      (files : t.sys.fs = s.sys.fs ∨ Makes s.sys.fs dir t.sys.fs)
  | exit (flow : f = .exit) (status : t.status ≠ 0) (kept : Kept s t)
      (files : t.sys.fs = s.sys.fs) (why : s.sys.fs dir ≠ .dir)
      (calm : Calm s → s.sys.fs dir = .missing → creatable s.sys.fs dir = false)
  | made (flow : f = .next ∨ f = .ret) (status : t.status = 0) (kept : Kept s t) (out : t.out = s.out)
      (files : Makes s.sys.fs dir t.sys.fs)

/-- What is in the way is said to the error output. -/
theorem Ready.exec_inTheWay (call) (h : Ready s) (what : String) (hdir : s.param ['1'] = some dir) :
    ∃ err, exec system call (inTheWay what) s = (.exit, ({ s with err } : State Machine).ended 92) := by
  have hwords : (Shell.words [lit "echo", .param ['1'] (.quoted what.toList .nil)]).texts? { s with out := [] } =
      some ("echo".toList :: [dir ++ what.toList]) := by
    refine Shell.texts?_cons (Shell.text?_lit _) (Shell.texts?_cons ?_ rfl)
    have hparam : ({ s with out := [] } : State Machine).param ['1'] = some dir := hdir
    simp [Word.text?, hparam]
  have hready : Ready { s with out := [] } := ⟨h.equipped, h.free⟩
  have hecho := hready.invoke_builtin call rfl hwords
  refine ⟨s.err ++ Shell.echoed [dir ++ what.toList], ?_⟩
  have hexit (s : State Machine) (h : Ready s) : exec system call (cmd [lit "exit", lit "92"]) s = (.exit, s.ended 92) :=
    h.exec_exit "92"
  rw [inTheWay, exec, exec, cmd, hecho]
  exact hexit _ ⟨h.equipped, h.free⟩

theorem Ready.ends_inTheWay (h : Ready s) (status : Nat) (what : String) (hdir : s.param "1".toList = some dir)
    (hnot : s.sys.fs dir ≠ .dir) (hthere : s.sys.fs dir ≠ .missing) :
    Ends (DirMade s dir) (exec system call (.seq (inTheWay what) d) (s.ended status)) := by
  obtain ⟨err, hexec⟩ := (h.kept (kept_ended s status)).exec_inTheWay call what hdir
  rw [exec, hexec]
  exact .exit rfl (Nat.succ_ne_zero 91) ⟨rfl, rfl, rfl, rfl, rfl, fun hs => hs⟩ rfl hnot fun _ hmissing =>
    absurd hmissing hthere

omit [Deps] in
theorem DirMade.of_ended {status : Nat} {f : Flow} (h : DirMade (s.ended status) dir f t) : DirMade s dir f t := by
  cases h with
  | killed hf wild hk files => exact .killed hf wild ((kept_ended s status).trans hk) files
  | exit hf hstatus hk files why calm => exact .exit hf hstatus ((kept_ended s status).trans hk) files why calm
  | made hf hstatus hk hout files => exact .made hf hstatus ((kept_ended s status).trans hk) hout files

/-- `mkdir -m 0755 "$1" || exit 92`, where nothing is. -/
theorem Ready.ends_mkdir (h : Ready s) (hdir : s.param "1".toList = some dir) (hmissing : s.sys.fs dir = .missing) :
    Ends (DirMade s dir)
      (exec system call (.or (cmd [lit "mkdir", lit "-m", lit "0755", arg "1"]) (cmd [lit "exit", lit "92"])) s) := by
  have hwords : (Shell.words [lit "mkdir", lit "-m", lit "0755", arg "1"]).texts? s =
      some (Tool.mkdir.name :: ["-m".toList, "0755".toList, dir]) :=
    Shell.texts?_cons (Shell.text?_lit _) (Shell.texts?_cons (Shell.text?_lit _) (Shell.texts?_cons (Shell.text?_lit _)
      (Shell.texts?_cons (Shell.text?_arg hdir) rfl)))
  have heffect : effectOf s.sys .mkdir ["-m".toList, "0755".toList, dir] =
      if creatable s.sys.fs dir = true then some ([], Function.update s.sys.fs dir .dir) else none := by
    rw [effectOf, Tool.run, hmissing]
    dsimp only
    split <;> rfl
  have hnot : s.sys.fs dir ≠ .dir := by simp [hmissing]
  have hdoes := h.does_tool call hwords rfl rfl rfl
  rw [heffect] at hdoes
  refine hdoes.or (fun t ht hstatus => ?_) (fun t ht hstatus => ?_) fun f t hf ht => ?_
  · cases ht with
    | killed _ _ hf => cases hf
    | failed _ _ _ hne => exact absurd hstatus hne
    | worked hk _ _ e he hout hfs =>
      split at he
      · next hhold =>
        cases he
        exact .made (Or.inl rfl) hstatus hk (hout.trans (List.append_nil _)) (Or.inr ⟨hmissing, hhold, hfs⟩)
      · cases he
  · cases ht with
    | killed _ _ hf => cases hf
    | failed hk why _ _ hout hfs =>
      rw [(h.kept hk).exec_exit]
      have hstatus : Shell.statusOf ["92".toList] ≠ 0 := by decide
      refine .exit rfl hstatus (hk.trans (kept_ended t _)) hfs hnot fun hcalm _ => ?_
      rcases why with hnone | ⟨-, hwild⟩
      · split at hnone
        · cases hnone
        · next hhold => exact Bool.eq_false_iff.mpr hhold
      · exact absurd hcalm hwild
    | worked _ _ hzero => exact absurd hzero hstatus
  · cases ht with
    | killed hk wild hkilled _ files =>
      refine .killed hkilled wild hk ?_
      rcases files with hfs | ⟨e, he, hfs⟩
      · exact Or.inl hfs
      · split at he
        · next hhold =>
          cases he
          exact Or.inr (Or.inr ⟨hmissing, hhold, hfs⟩)
        · cases he
    | failed _ _ hnext => exact absurd hnext hf
    | worked _ hnext => exact absurd hnext hf

/-- `d` makes the directory, or the script ends. -/
theorem Ready.ends_dir (h : Ready s) (hdir : s.param "1".toList = some dir) :
    Ends (DirMade s dir) (exec system call dirBody s) := by
  have hready (status : Nat) : Ready (s.ended status) := h.kept (kept_ended s status)
  have hlink : exec system call (isA "-L" "1") s = (.next, s.ended (if s.sys.test 'L' dir then 0 else 1)) :=
    h.exec_isA rfl hdir
  rw [dirBody, orSkip, Shell.exec_seq_skip hlink]
  by_cases hlinked : ∃ target, s.sys.fs dir = .symlink target
  · rw [if_pos (if_pos (test_link.mpr hlinked))]
    obtain ⟨target, hsym⟩ := hlinked
    exact h.ends_inTheWay _ _ hdir (by simp [hsym]) (by simp [hsym])
  have hsym := not_exists.mp hlinked
  rw [if_neg fun hk => by simp [mt test_link.mp hlinked] at hk]
  have hisDir : exec system call (isA "-d" "1") (s.ended 0) =
      (.next, (s.ended 0).ended (if s.sys.test 'd' dir then 0 else 1)) :=
    (hready 0).exec_isA rfl hdir
  rw [orSkip, Shell.exec_seq_skip hisDir]
  by_cases hthere : s.sys.fs dir = .dir
  · rw [if_pos (if_pos ((test_dir hsym).mpr hthere))]
    have hwords (s : State Machine) : (Shell.words [lit "return", lit "0"]).texts? s =
      some ("return".toList :: [['0']]) := rfl
    have hreturn (k : Nat) : exec system call (cmd [lit "return", lit "0"]) (s.ended k) =
        Shell.runBuiltin system [['0']] (s.ended k) .ret := (hready k).invoke_builtin call rfl (hwords _)
    have hseq (k : Nat) (d : Cmd) : exec system call (.seq (cmd [lit "return", lit "0"]) d) (s.ended k) =
        (.ret, s.ended 0) := by
      rw [exec, hreturn]
      rfl
    show Ends _ (exec system call _ (s.ended _))
    rw [hseq]
    exact .made (Or.inr rfl) rfl (kept_ended s 0) rfl (Or.inl ⟨hthere, rfl⟩)
  rw [if_neg fun hk => by simp [mt (test_dir hsym).mp hthere] at hk]
  have hexists : exec system call (isA "-e" "1") (s.ended 0) =
      (.next, (s.ended 0).ended (if s.sys.test 'e' dir then 0 else 1)) :=
    (hready 0).exec_isA rfl hdir
  show Ends _ (exec system call (.seq (orSkip (isA "-e" "1") _) _) (s.ended 0))
  rw [orSkip, Shell.exec_seq_skip hexists]
  by_cases hmissing : s.sys.fs dir = .missing
  · rw [if_neg fun hk => by simp [mt (test_exists hsym).mp (not_not.mpr hmissing)] at hk]
    exact ((hready 0).ends_mkdir hdir hmissing).mono fun f t ht => ht.of_ended
  · rw [if_pos (if_pos ((test_exists hsym).mpr hmissing))]
    exact h.ends_inTheWay _ _ hdir hthere hmissing

end Guest
end PveMeta
