import PveMeta.Theorems.GuestAnswers
import PveMeta.Theorems.GuestPct
import PveMeta.Theorems.GuestScriptRead

/-! # A commit over `pct exec`

The call that commits does what the steps of a commit do, with some faults, and gives the same answer: its script is read as
the commands, each command is a step, and what the commands tell is read back. -/

namespace PveMeta
namespace Guest

open Shell (State Flow Cmd Ends exec)
open Choices (andThen done each Goes Stops Comes Ceases)

theorem Agree.symm {fs fs' : Fs} (h : Agree fs fs') : Agree fs' fs := fun p hp => (h p hp).symm

variable [Deps] {m : Machine} {fair : Prop} {s t : State Machine} {fs : Fs} {o : Option Fs} {depth : Nat}

/-! ### Steps with faults -/

/-- A step that is cut off otherwise counts as one that is not. -/
theorem opStep_cut (op : Op) : opStep op .cut = opStep op .none := by
  cases op with
  | place path content mode owner expect =>
    funext w
    unfold opStep place
    dsimp only
    simp only [reduceCtorEq, false_or]
  | remove path sha256 =>
    funext w
    unfold opStep removal remove
    simp only [reduceCtorEq]

theorem runOp_goes {op : Op} {fault : Fault} {b : Outcome} {after : Fs} (hfs : s.sys.fs = edited fs o)
    (h : Steps s (opStep op fault) b after) (hcut : fault ≠ .cut) :
    Goes frame (fun w => runOp w op) fs [⟨o, fault⟩] b after := by
  intro w rest hw hturns
  have hturn : w.turn = (fault, ⟨edited fs o, rest, w.log⟩) := (turn_eq hturns).trans (by rw [← hw]; rfl)
  obtain ⟨w', hstep, hafter, hrest⟩ := h ⟨edited fs o, rest, w.log⟩ hfs.symm
  refine ⟨w', ?_, hafter, hrest⟩
  dsimp only
  rw [runOp, hturn]
  dsimp only
  rw [if_neg hcut]
  exact hstep

theorem runOp_stops {op : Op} {after : Fs} (h : Agree (edited fs o) after) :
    Stops frame Agree (fun w => runOp w op) fs [⟨o, .cut⟩] after := by
  intro w rest hw hturns
  have hturn : w.turn = (.cut, ⟨edited fs o, rest, w.log⟩) := (turn_eq hturns).trans (by rw [← hw]; rfl)
  refine ⟨cutOff, ⟨edited fs o, rest, w.log⟩, ?_, h.symm⟩
  dsimp only
  rw [runOp, hturn]
  rfl

omit [Deps] in
theorem mkdir_goes {dir : Text} {after : Fs} (h : Makes (edited fs o) dir after) :
    Goes frame (fun w => mkdir w dir) fs [⟨o, .none⟩] () after := by
  intro w rest hw hturns
  have hturn : w.turn = (.none, ⟨edited fs o, rest, w.log⟩) := (turn_eq hturns).trans (by rw [← hw]; rfl)
  dsimp only
  rw [mkdir, hturn]
  rcases h with ⟨hdir, rfl⟩ | ⟨hmissing, hhold, rfl⟩
  · refine ⟨⟨edited fs o, rest, w.log⟩, ?_, rfl, rfl⟩
    simp [hdir]
  · refine ⟨(⟨edited fs o, rest, w.log⟩ : World).set dir .dir, ?_, rfl, rfl⟩
    simp [hmissing, hhold]

omit [Deps] in
/-- A directory is not made over what is there, or where nothing can be, or when something fails. -/
theorem mkdir_stops {dir : Text} {fault : Fault}
    (h : fault ≠ .none ∨ edited fs o dir ≠ .dir ∧ (edited fs o dir = .missing → creatable (edited fs o) dir = false)) :
    Stops frame Agree (fun w => mkdir w dir) fs [⟨o, fault⟩] (edited fs o) := by
  intro w rest hw hturns
  have hturn : w.turn = (fault, ⟨edited fs o, rest, w.log⟩) := (turn_eq hturns).trans (by rw [← hw]; rfl)
  have hstops : ∃ e, mkdir w dir = (.error e, ⟨edited fs o, rest, w.log⟩) := by
    rw [mkdir, hturn]
    dsimp only
    cases hnode : edited fs o dir with
    | dir => exact ⟨_, if_neg (h.resolve_right fun hand => hand.1 hnode)⟩
    | missing =>
      have hfails : fault ≠ .none ∨ creatable (edited fs o) dir = false := h.imp_right fun hand => hand.2 hnode
      exact ⟨_, if_pos hfails⟩
    | symlink => exact ⟨_, rfl⟩
    | file => exact ⟨_, rfl⟩
    | other => exact ⟨_, rfl⟩
  obtain ⟨e, hstep⟩ := hstops
  exact ⟨e, _, hstep, Agree.refl _⟩

/-! ### Commands -/

/-- The functions of a commit. -/
def commitFuns : List (Text × Cmd) := [(['d'], dirBody), (['h'], hashOf), (['w'], placeBody), ("rmf".toList, removeBody)]

omit [Deps] in
theorem Going.committing (h : Going m (defined [] commitFuns) s) : Committing s where
  ready := h.ready (by decide)
  dir := by rw [h.funs]; rfl
  hash := by rw [h.funs]; rfl
  place := by rw [h.funs]; rfl
  remove := by rw [h.funs]; rfl

variable (hfair : fair → m.fates = [])

include hfair in
omit [Deps] in
theorem unfair (h : Going m (defined [] commitFuns) s) (hwild : ¬ Calm s) : ¬ fair := fun hf => hwild (h.calm (hfair hf))

include hfair in
theorem matches_op {op : Op} (hop : op.Fit) (k : Nat) :
    Matches m (defined [] commitFuns) fair (depth + 2) (opCommand k op) (fun w => runOp w op)
      fun b => outcomeLine k b ++ ['\n'] := by
  intro s fs o h hfs ho
  refine (ends_opCommand h.committing hop k).mono fun f t ht => ?_
  cases ht with
  | killed hf wild hk hout files =>
    have hnot := unfair hfair h wild
    refine .ceased (Or.inl hf) (hk.tools.trans h.tools) ?_
    rcases files with hsame | hdone
    · exact .stops [⟨o, .cut⟩] (Choices.forall_mem_single ⟨ho, fun hf => absurd hf hnot⟩) (runOp_stops (hfs ▸ hsame))
    · exact .after .done [⟨o, .none⟩] (Choices.forall_mem_single (.none o ho)) (allowed_cut hnot)
        (runOp_goes hfs hdone (by simp))
  | told hf hk hstatus what hout files =>
    obtain ⟨fault, b, hcalm, rfl, hsteps⟩ := files
    have hallowed : fair → fault = .none := fun hf => hcalm (h.calm (hfair hf))
    by_cases hcut : fault = .cut
    · rw [hcut, opStep_cut] at hsteps
      exact .next b [⟨o, .none⟩] (Choices.forall_mem_single (.none o ho)) hf (h.kept hk hstatus) hk.input
        (runOp_goes hfs hsteps (by simp)) hout
    · exact .next b [⟨o, fault⟩] (Choices.forall_mem_single ⟨ho, hallowed⟩) hf (h.kept hk hstatus) hk.input
        (runOp_goes hfs hsteps hcut) hout

include hfair in
theorem matches_dir (dir : Text) :
    Matches m (defined [] commitFuns) fair (depth + 2) (dirCommand dir) (fun w => mkdir w dir) fun _ => [] := by
  intro s fs o h hfs ho
  refine (ends_dirCommand h.committing dir).mono fun f t ht => ?_
  obtain ⟨ht, hret⟩ := ht
  cases ht with
  | killed hf wild hk files =>
    have hnot := unfair hfair h wild
    refine .ceased (Or.inl hf) (hk.tools.trans h.tools) ?_
    rcases files with hsame | hmade
    · rw [hsame, hfs]
      exact .stops [⟨o, .cut⟩] (Choices.forall_mem_single ⟨ho, fun hf => absurd hf hnot⟩) (mkdir_stops (Or.inl (by simp)))
    · exact .after () [⟨o, .none⟩] (Choices.forall_mem_single (.none o ho)) (allowed_cut hnot) (mkdir_goes (hfs ▸ hmade))
  | exit hf hstatus hk files why calm =>
    refine .ceased (Or.inr ⟨by simp [hf], hstatus⟩) (hk.tools.trans h.tools) ?_
    rw [files, hfs]
    rw [hfs] at why calm
    by_cases hf : fair
    · exact .stops [⟨o, .none⟩] (Choices.forall_mem_single (.none o ho))
        (mkdir_stops (Or.inr ⟨why, calm (h.calm (hfair hf))⟩))
    · exact .stops [⟨o, .final⟩] (Choices.forall_mem_single ⟨ho, fun hfair => absurd hfair hf⟩)
        (mkdir_stops (Or.inl (by simp)))
  | made hf hstatus hk hout files =>
    exact .next () [⟨o, .none⟩] (Choices.forall_mem_single (.none o ho)) (hf.resolve_right hret) (h.kept hk hstatus)
      hk.input
      (mkdir_goes (hfs ▸ files)) (hout.trans (List.append_nil _).symm)

/-! ### What is told -/

theorem told_runOp {op : Op} {w w' : World} {b : Outcome} (h : runOp w op = (.ok b, w')) : b ∈ told := by
  have hplace (w : World) (fault path content mode owner expect)
      (h : place w fault path content mode owner expect = (.ok b, w')) : b ∈ told := by
    unfold place at h
    dsimp only at h
    repeat' split at h
    all_goals cases h
    all_goals decide
  have hremove (w : World) (fault path sha256) : (remove w fault path sha256).1 ∈ told := by
    unfold remove
    repeat' split
    all_goals simp [told]
  rcases hturn : w.turn with ⟨fault, w₁⟩
  rw [runOp, hturn] at h
  dsimp only at h
  split at h
  · cases h
  · cases op with
    | place => exact hplace _ _ _ _ _ _ _ h
    | remove =>
      cases h
      exact hremove _ _ _ _

theorem told_committing {dirs : List Text} {ops : List Op} {ts : List Turn} {os : List Outcome} {after : Fs}
    (h : Goes frame (committing dirs ops) fs ts os after) : os.length = ops.length ∧ ∀ b ∈ os, b ∈ told := by
  obtain ⟨w, hw, -, -⟩ := h ⟨fs, ts, []⟩ [] rfl (List.append_nil ts).symm
  obtain ⟨_, w₁, -, hw⟩ := Choices.of_andThen_ok hw
  obtain ⟨_, w₂, -, hw⟩ := Choices.of_andThen_ok hw
  exact Choices.of_each_ok (fun _ _ _ _ h => told_runOp h) hw

omit [Deps] in
theorem texts_outcomes {l : List Op} {os : List Outcome} (h : os.length = l.length) (k : Nat) :
    texts (fun (e : Op × Nat) b => outcomeLine e.2 b ++ ['\n']) (l.zipIdx k) os = answerText (outcomeLines k os) := by
  induction l generalizing k os with
  | nil =>
    cases os with
    | nil => rfl
    | cons => cases h
  | cons op l ih =>
    cases os with
    | nil => cases h
    | cons b os =>
      have hrest := ih (Nat.succ.inj h) (k + 1)
      exact congrArg ((outcomeLine k b ++ ['\n']) ++ ·) hrest

/-! ### The script -/

omit [Deps] in
theorem length_le_flatMap {α : Type} {f : α → Text} (hf : ∀ a, 0 < (f a).length) (l : List α) :
    l.length ≤ (l.flatMap f).length := by
  induction l with
  | nil => exact Nat.le_refl 0
  | cons a l ih =>
    rw [List.flatMap_cons, List.length_append, List.length_cons]
    have := hf a
    omega

omit [Deps] in
theorem length_scriptPrelude : 8 ≤ scriptPrelude.length := by
  decide +kernel

omit [Deps] in
theorem length_commitScript (dirs : List Text) (ops : List Op) :
    8 + dirs.length + ops.length ≤ (commitScript dirs ops).length := by
  have hline (a b : Text) : 0 < (a ++ ['\n'] ++ b).length := by
    simp only [List.length_append, List.length_singleton]
    omega
  have hdirs :=
    length_le_flatMap (f := fun d => "d ".toList ++ quote d ++ ['\n']) (fun d => List.length_pos_of_ne_nil (by simp)) dirs
  have hops := length_le_flatMap (f := fun e : Op × Nat => opText e.2 e.1) (fun e => hline _ _) ops.zipIdx
  have hprelude := length_scriptPrelude
  rw [List.length_zipIdx] at hops
  simp only [commitScript, List.length_append] at hdirs hops ⊢
  omega

/-- The shell before a script, with nothing left to read. -/
def blank (m : Machine) : State Machine := { sys := m }

variable {dirs : List Text} {ops : List Op}

/-- The script of a commit does what the steps of a commit do. -/
theorem ends_commitScript (hfair : fair → m.fates = [] ∧ Equipped m) (hdirs : ∀ dir ∈ dirs, '\'' ∉ dir)
    (hops : ∀ op ∈ ops, op.Quotable)
    (hfit : ∀ op ∈ ops, op.Fit) (fates : List CallFate) (hcalm : m.fates = [] → fates = []) :
    Ends (Over m (defined [] commitFuns) fair (committing dirs ops) (fun os => answerText (outcomeLines 0 os)) m.fs
      (blank m))
      (Shell.runScript system Machine.turn shellDepth (commitScript dirs ops) { m with fates }) := by
  have hscript : Shell.Script (commitScript dirs ops) (preludeCommands ++ (definitions commitFuns ++
      (dirs.map dirCommand ++ (ops.zipIdx.map (fun e => opCommand e.2 e.1) ++ [])))) := by
    have hread : Shell.Script _ (preludeCommands ++ definitions commitFuns ++ dirs.map dirCommand ++
        ops.zipIdx.map fun e => opCommand e.2 e.1) := script_commitScript hdirs hops
    simpa [List.append_assoc] using hread
  obtain ⟨k, hk⟩ := Nat.exists_eq_add_of_le (length_commitScript dirs ops)
  have hfuel : (commitScript dirs ops).length + 1 =
      commitFuns.length + (dirs.length + (ops.zipIdx.length + (k + 1))) + 4 := by
    rw [hk, List.length_zipIdx]
    simp only [commitFuns, List.length_cons, List.length_nil]
    omega
  rw [Shell.runScript, hfuel]
  have hsteps : each (fun (e : Op × Nat) w => runOp w e.1) ops.zipIdx = each (fun op w => runOp w op) ops := by
    rw [← Choices.each_map (fun op w => runOp w op) Prod.fst, List.zipIdx_map_fst]
  refine ends_script hcalm hscript (fun t o ht hfs ho hout hs => ?_) fun t o hnot hstatus hfs ho htools => ?_
  · have hcall : Goes frame World.call m.fs [⟨o, .none⟩] () t.sys.fs := hfs ▸ call_goes
    have hallowed : ∀ k ∈ [(⟨o, .none⟩ : Turn)], Allowed m fair k := Choices.forall_mem_single (.none o ho)
    have hdirCommand : ∀ dir ∈ dirs, Matches m (defined [] commitFuns) fair shellDepth (dirCommand dir)
      (fun w => mkdir w dir)
        fun _ => [] := fun dir _ => matches_dir (fun hf => (hfair hf).1) dir
    have hopCommand : ∀ e ∈ ops.zipIdx, Matches m (defined [] commitFuns) fair shellDepth (opCommand e.2 e.1)
      (fun w => runOp w e.1)
        fun b => outcomeLine e.2 b ++ ['\n'] := fun e he =>
      matches_op (fun hf => (hfair hf).1) (hfit e.1 (List.fst_mem_of_mem_zipIdx he)) e.2
    refine ends_all hdirCommand mkdir_cut ht hs (fun u _ ts hts hu hgoes _ hout' hs' => ?_)
      fun f u hstopped htools hceases => ?_
    · refine ends_all hopCommand (fun e => runOp_cut e.1) hu hs'
        (fun v os ts' hts' hv hgoes' hlength hout'' hs'' => ?_) fun f v hstopped htools hceases => ?_
      · rw [hsteps] at hgoes'
        rw [List.length_zipIdx] at hlength
        have hinput : v.input = [] := congrArg Prod.snd (Option.some.inj hs'')
        have hrest : Goes frame (andThen (each (fun dir w => mkdir w dir) dirs) fun _ =>
          each (fun op w => runOp w op) ops) t.sys.fs
            (ts ++ ts') os v.sys.fs := hgoes.andThen hgoes'
        have hall : Goes frame (committing dirs ops) m.fs ([⟨o, .none⟩] ++ (ts ++ ts')) os v.sys.fs := hcall.andThen hrest
        refine hs''.run_nil (.next os _ ?_ rfl hv hinput hall ?_)
        · exact List.forall_mem_append.mpr ⟨hallowed, List.forall_mem_append.mpr ⟨hts, hts'⟩⟩
        · rw [hout'', hout', hout, texts_outcomes hlength]
          simp [texts, blank]
      · exact .ceased hstopped htools (hcall.andThen_ceases hallowed (hgoes.andThen_ceases hts (hsteps ▸ hceases)))
    · exact .ceased hstopped htools (hcall.andThen_ceases hallowed (hceases.andThen_each runOp_cut ops))
  · refine .ceased (Or.inr ⟨by simp, by rw [hstatus]; decide⟩) htools ?_
    rw [hfs]
    have hcut : Stops frame Agree World.call m.fs [⟨o, .cut⟩] (edited m.fs o) := call_stops (by simp)
    exact .stops [⟨o, .cut⟩] (Choices.forall_mem_single ⟨ho, fun hf => absurd (hfair hf).2 hnot⟩) (hcut.andThen _)

/-! ### The call -/

variable [RustDebug]

omit [RustDebug] in
theorem commit_goes {ts : List Turn} {os : List Outcome} {after : Fs}
    (h : Goes frame (committing dirs ops) fs ts os after) :
    Goes frame (World.commit · dirs ops) fs (ts ++ [⟨none, .none⟩]) os after := by
  have hcall : Goes frame World.call after [⟨none, .none⟩] () after := call_goes
  rw [commit_eq]
  exact h.andThen (hcall.andThen_done fun _ => os)

omit [RustDebug] in
/-- What a call that gives no answer has done, the steps of a commit have done that fail. -/
theorem commit_stops {after : Fs} (h : Ceases frame Agree (Allowed m fair) cutTurn (committing dirs ops) fs after) :
    ∃ ts, (∀ k ∈ ts, Allowed m fair k) ∧ Stops frame Agree (World.commit · dirs ops) fs ts after := by
  rw [commit_eq]
  exact h.andThen fun os v => (call_cut v).andThen _

/-- A commit over `pct exec` is a commit of the guest, whatever fails and whatever the others do; and it has no faults if
    nothing fails. -/
theorem commit_refines (vmid : UInt32) (hdirs : ∀ dir ∈ dirs, '\'' ∉ dir) (hops : ∀ op ∈ ops, op.Quotable)
    (hfit : ∀ op ∈ ops, op.Fit) :
    Refines m (Fair (commitScript dirs ops) m) (World.commit · dirs ops) (Pct.commit vmid dirs ops m) := by
  have hfair (hf : Fair (commitScript dirs ops) m) : m.fates = [] ∧ Equipped m := ⟨hf.calm, hf.equipped⟩
  have hcalled := called fun fates hcalm => ends_commitScript hfair hdirs hops hfit fates hcalm
  have hceased (e : String) (m' : Machine) (htools : m'.tools = m.tools)
      (h : Ceases frame Agree (Allowed m (Fair (commitScript dirs ops) m)) cutTurn (committing dirs ops) m.fs m'.fs) :
      Refines m (Fair (commitScript dirs ops) m) (World.commit · dirs ops) (.error e, m') := by
    obtain ⟨ts, hts, hstops⟩ := commit_stops h
    exact ⟨.error ts hts hstops, htools, fun _ h => (nomatch h), fun _ h => nomatch h⟩
  unfold Pct.commit Pct.execOk
  generalize Pct.exec (commitScript dirs ops) m = e at hcalled
  obtain ⟨r, m'⟩ := e
  dsimp only at hcalled ⊢
  cases hcalled with
  | answered f t hends hf =>
    dsimp only
    cases hends with
    | next os ts hts _ hgoing _ hgoes hout =>
      obtain ⟨hlength, htold⟩ := told_committing hgoes
      have hparse : parseCommit ops.length (textBytes t.out) = .ok os := by
        rw [hout, ← hlength]
        exact parseCommit_lines htold
      rw [if_neg (not_not.mpr hgoing.status)]
      dsimp only
      rw [hparse]
      exact ⟨.ok _ (List.forall_mem_append.mpr ⟨hts, Choices.forall_mem_single (.none none (Or.inl rfl))⟩)
        (commit_goes hgoes), hgoing.tools, fun _ _ => hgoing.turns, fun _ _ => hgoing.calm⟩
    | ceased hstopped htools hceases =>
      rw [if_pos (hstopped.resolve_left hf).2]
      exact hceased _ _ htools hceases
  | lost e f t hends hwhy =>
    cases hends with
    | next os ts hts hflow hgoing _ hgoes =>
      have hnot : ¬ Fair (commitScript dirs ops) m := hwhy.resolve_left (by simp [hflow])
      exact hceased _ _ hgoing.tools (.after os ts hts (allowed_cut hnot) hgoes)
    | ceased _ htools hceases => exact hceased _ _ htools hceases
  | never r m' hnot hsame hfailed =>
    have hcut : Ceases frame Agree (Allowed m (Fair (commitScript dirs ops) m)) cutTurn (committing dirs ops) m.fs
        m'.fs := by
      rw [hsame]
      exact .stops [cutTurn] (Choices.forall_mem_single (allowed_cut hnot)) ((call_cut m.fs).andThen _)
    have htools : m'.tools = m.tools := by rw [hsame]
    cases r with
    | error e => exact hceased e m' htools hcut
    | ok out =>
      dsimp only
      rw [if_pos (by rw [hfailed out rfl]; decide)]
      exact hceased _ m' htools hcut

end Guest
end PveMeta
