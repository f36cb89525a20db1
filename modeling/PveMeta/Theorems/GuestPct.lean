import PveMeta.Lib.Choices
import PveMeta.Theorems.GuestShellRun

/-! # A script, as steps of a sync

The commands of a script and the steps that a sync counts, one for one: a script that goes through all of them does what
the steps do with some faults, which there are none of if nothing goes wrong; one that ends before that does what steps
that fail do, but for what is left of the daemon's own files. -/

namespace PveMeta
namespace Guest

open Shell (State Flow Cmd Ends exec)
open Choices (andThen done each Goes Stops Comes Ceases)

/-- What the steps of a sync are seen by. -/
def frame : Choices.Frame World Fs Turn := ⟨World.fs, World.turns⟩

/-- The next step is cut off before it does anything. -/
def cutTurn : Turn := ⟨none, .cut⟩

/-- The others do what they do to the machine; and nothing fails where all is fair. -/
def Allowed (m : Machine) (fair : Prop) (t : Turn) : Prop :=
  (t.others = none ∨ t.others ∈ m.turns) ∧ (fair → t.fault = .none)

theorem Agree.refl (fs : Fs) : Agree fs fs := fun _ _ => rfl

section

variable {m : Machine} {fair : Prop}

theorem Allowed.none (o : Option Fs) (h : o = none ∨ o ∈ m.turns) : Allowed m fair ⟨o, .none⟩ := ⟨h, fun _ => rfl⟩

theorem allowed_cut (h : ¬ fair) : Allowed m fair cutTurn := ⟨Or.inl rfl, fun hfair => absurd hfair h⟩

theorem Allowed.single {t : Turn} (h : Allowed m fair t) : ∀ k ∈ [t], Allowed m fair k :=
  fun _ hk => List.mem_singleton.mp hk ▸ h

end

/-- A turn of a world with this one first. -/
theorem turn_eq {w : World} {t : Turn} {rest : List Turn} (h : w.turns = t :: rest) :
    w.turn = (t.fault, ⟨edited w.fs t.others, rest, w.log⟩) := by
  unfold World.turn
  rw [h]
  cases t with
  | mk others fault => cases others <;> rfl

/-! ### The steps of a call -/

section

variable {fs : Fs} {o : Option Fs}

theorem call_goes : Goes frame World.call fs [⟨o, .none⟩] () (edited fs o) := by
  intro w rest hfs hturns
  refine ⟨⟨edited fs o, rest, w.log⟩, ?_, rfl, rfl⟩
  rw [World.call, turn_eq hturns, ← hfs]
  rfl

theorem call_stops {fault : Fault} (h : fault ≠ .none) : Stops frame Agree World.call fs [⟨o, fault⟩] (edited fs o) := by
  intro w rest hfs hturns
  refine ⟨cutOff, ⟨edited fs o, rest, w.log⟩, ?_, Agree.refl _⟩
  rw [World.call, turn_eq hturns, ← hfs]
  exact Prod.ext (if_neg h) rfl

theorem call_cut (fs : Fs) : Stops frame Agree World.call fs [cutTurn] fs := call_stops (o := none) (by simp)

end

theorem mkdirs_eq (dirs : List Text) : mkdirs dirs = andThen (each (fun dir w => mkdir w dir) dirs) fun _ => done () := by
  induction dirs with
  | nil => rfl
  | cons dir dirs ih =>
    have hstep : mkdirs (dir :: dirs) = andThen (fun w => mkdir w dir) fun _ => mkdirs dirs := by
      funext w
      rw [mkdirs, andThen]
      rcases mkdir w dir with ⟨_ | _, _⟩ <;> rfl
    rw [hstep, each, ih]
    simp only [Choices.andThen_assoc, Choices.done_andThen]

theorem mkdir_cut (dir : Text) (fs : Fs) : Stops frame Agree (fun w => mkdir w dir) fs [cutTurn] fs := by
  intro w rest hfs hturns
  have hturn : w.turn = (.cut, ⟨fs, rest, w.log⟩) := (turn_eq hturns).trans (by rw [← hfs]; rfl)
  dsimp only
  rw [mkdir, hturn]
  cases hnode : fs dir <;> simp only [hnode] <;> exact ⟨_, _, rfl, Agree.refl fs⟩

variable [Deps]

theorem runOps_eq (ops : List Op) : runOps ops = each (fun op w => runOp w op) ops := by
  induction ops with
  | nil => rfl
  | cons op ops ih =>
    rw [each, ← ih]
    funext w
    rw [runOps, andThen]
    rcases runOp w op with ⟨_ | _, w'⟩
    · rfl
    · dsimp only
      rw [andThen]
      rcases runOps ops w' with ⟨_ | _, _⟩ <;> rfl

/-- What the script of a commit does. -/
def committing (dirs : List Text) (ops : List Op) : World → Except String (List Outcome) × World :=
  andThen World.call fun _ => andThen (each (fun dir w => mkdir w dir) dirs) fun _ => each (fun op w => runOp w op) ops

theorem commit_eq (dirs : List Text) (ops : List Op) :
    (World.commit · dirs ops) = andThen (committing dirs ops) fun os => andThen World.call fun _ => done os := by
  have hcommit : (World.commit · dirs ops) = andThen World.call fun _ => andThen (mkdirs dirs) fun _ =>
      andThen (runOps ops) fun os => andThen World.call fun _ => done os := by
    funext w
    rw [World.commit, andThen]
    rcases w.call with ⟨_ | _, w₁⟩
    · rfl
    dsimp only
    rw [andThen]
    rcases mkdirs dirs w₁ with ⟨_ | _, w₂⟩
    · rfl
    dsimp only
    rw [andThen]
    rcases runOps ops w₂ with ⟨_ | _, w₃⟩
    · rfl
    dsimp only
    rw [andThen]
    rcases w₃.call with ⟨_ | _, w₄⟩ <;> rfl
  rw [hcommit, committing, mkdirs_eq, runOps_eq]
  simp only [Choices.andThen_assoc, Choices.done_andThen]

/-- One path of a probe. -/
def probing (path : Text) : World → Except String (Text × Node) × World :=
  andThen World.call fun _ w => (.ok (path, (w.fs path).lstat), w)

theorem probe_eq (paths : List Text) : (World.probe · paths) = each probing paths := by
  show World.probeAll paths = _
  induction paths with
  | nil => rfl
  | cons path paths ih =>
    rw [each, ← ih, probing, Choices.andThen_assoc]
    funext w
    rw [World.probeAll, andThen]
    rcases w.call with ⟨_ | _, w₁⟩
    · rfl
    dsimp only
    rw [andThen]
    dsimp only
    rw [andThen]
    rcases World.probeAll paths w₁ with ⟨_ | _, w₂⟩ <;> rfl

/-! ### Steps that are cut off -/

theorem runOp_cut (op : Op) (fs : Fs) : Stops frame Agree (fun w => runOp w op) fs [cutTurn] fs := by
  intro w rest hfs hturns
  have hturn : w.turn = (.cut, ⟨fs, rest, w.log⟩) := (turn_eq hturns).trans (by rw [← hfs]; rfl)
  refine ⟨cutOff, ⟨fs, rest, w.log⟩, ?_, Agree.refl fs⟩
  dsimp only
  rw [runOp, hturn]
  rfl

theorem probing_cut (path : Text) (fs : Fs) : Stops frame Agree (probing path) fs [cutTurn] fs := (call_cut fs).andThen _

/-! ### Commands, one after the other -/

variable {m : Machine} {fair : Prop} {funs : List (Text × Cmd)} {s t : State Machine} {fs : Fs} {o : Option Fs}

/-- A script goes on: nothing was lost, and its functions are defined. -/
structure Going (m : Machine) (funs : List (Text × Cmd)) (s : State Machine) : Prop where
  funs : s.funs = funs
  status : s.status = 0
  equipped : Equipped s.sys
  tools : s.sys.tools = m.tools
  turns : s.sys.turns ⊆ m.turns
  calm : m.fates = [] → s.sys.fates = []

omit [Deps] in
theorem Going.kept (h : Going m funs s) (hk : Kept s t) (hstatus : t.status = 0) : Going m funs t where
  funs := hk.funs.trans h.funs
  status := hstatus
  equipped := fun name hname => hk.tools ▸ h.equipped name hname
  tools := hk.tools.trans h.tools
  turns := hk.turns ▸ h.turns
  calm := fun hm => hk.calm (h.calm hm)

omit [Deps] in
theorem Going.turned (h : Going m funs s) (input : Text) {m' : Machine} (ho : Turned s.sys m' o) :
    Going m funs { s with input, sys := m' } where
  funs := h.funs
  status := h.status
  equipped := fun name hname => ho.tools ▸ h.equipped name hname
  tools := ho.tools.trans h.tools
  turns := fun _ hx => h.turns (ho.turns hx)
  calm := fun hm => ho.fates.trans (h.calm hm)

omit [Deps] in
/-- No function has the name of a tool or of a builtin. -/
theorem Going.ready (h : Going m funs s)
    (hfree : ∀ name ∈ Assoc.keys funs, Tool.ofName name = none ∧ Shell.builtin name = none) : Ready s := by
  refine ⟨h.equipped, fun name hname => ?_⟩
  rw [h.funs]
  refine Assoc.get?_eq_none_iff.mpr fun hmem => ?_
  obtain ⟨htool, hbuiltin⟩ := hfree name hmem
  rw [htool, hbuiltin] at hname
  simp at hname

variable {α β : Type}

/-- A part of a script is over: it did what the step does, and the script goes on; or the script has come to an end. -/
inductive Over (m : Machine) (funs : List (Text × Cmd)) (fair : Prop) (step : World → Except String β × World)
    (text : β → Text) (fs : Fs) (s : State Machine) (f : Flow) (t : State Machine) : Prop where
  | next (b : β) (ts : List Turn) (allowed : ∀ k ∈ ts, Allowed m fair k) (flow : f = .next) (going : Going m funs t)
      (input : t.input = s.input) (goes : Goes frame step fs ts b t.sys.fs) (out : t.out = s.out ++ text b)
  | ceased (stopped : f = .killed ∨ f ≠ .next ∧ t.status ≠ 0) (tools : t.sys.tools = m.tools)
      (ceases : Ceases frame Agree (Allowed m fair) cutTurn step fs t.sys.fs)

/-- A command of a script, run after the others' turn. -/
def Matches (m : Machine) (funs : List (Text × Cmd)) (fair : Prop) (depth : Nat) (c : Cmd)
    (step : World → Except String β × World) (text : β → Text) : Prop :=
  ∀ s fs o, Going m funs s → s.sys.fs = edited fs o → (o = none ∨ o ∈ m.turns) →
    Ends (Over m funs fair step text fs s) (exec system (Shell.calls system depth) c s)

/-- What a list of steps writes. -/
def texts (text : α → β → Text) (l : List α) (bs : List β) : Text := (l.zip bs).flatMap fun e => text e.1 e.2

/-- The commands for a list of steps. -/
theorem ends_all {depth n : Nat} {command : α → Cmd} {step : α → World → Except String β × World} {text : α → β → Text}
    {cs : List Cmd} {Q : Flow → State Machine → Prop} {l : List α}
    (hcommand : ∀ a ∈ l, Matches m funs fair depth (command a) (step a) (text a))
    (hcut : ∀ a v, Stops frame Agree (step a) v [cutTurn] v) (h : Going m funs s)
    (hs : Shell.Script s.input (l.map command ++ cs))
    (hnext : ∀ t bs ts, (∀ k ∈ ts, Allowed m fair k) → Going m funs t → Goes frame (each step l) s.sys.fs ts bs t.sys.fs →
      bs.length = l.length → t.out = s.out ++ texts text l bs → Shell.Script t.input cs →
      Ends Q (Shell.runInput system Machine.turn depth n t))
    (hceased : ∀ f t, f = .killed ∨ f ≠ .next ∧ t.status ≠ 0 → t.sys.tools = m.tools →
      Ceases frame Agree (Allowed m fair) cutTurn (each step l) s.sys.fs t.sys.fs → Q f t) :
    Ends Q (Shell.runInput system Machine.turn depth (l.length + n) s) := by
  induction l generalizing s with
  | nil =>
    rw [List.length_nil, Nat.zero_add]
    exact hnext s [] [] (fun _ hk => nomatch hk) h (Choices.goes_done [] _) rfl (List.append_nil _).symm hs
  | cons a l ih =>
    obtain ⟨input, hinput, hrun⟩ := hs.run (S := system) (n := l.length + n)
    obtain ⟨o, ho⟩ := turned_turn s.sys
    have hmem : o = none ∨ o ∈ m.turns := ho.mem.imp_right fun hx => h.turns hx
    rw [List.length_cons, Nat.add_right_comm]
    refine hrun _ Q (hcommand a List.mem_cons_self _ s.sys.fs o (h.turned input ho) ho.files hmem) (fun t ht => ?_)
      fun f t hf ht => ?_
    · cases ht with
      | next b ts hts hflow hgoing hsame hgoes hout =>
        refine ih (s := t) (fun a ha => hcommand a (List.mem_cons_of_mem _ ha)) hgoing (hsame ▸ hinput) ?_ ?_
        · intro u bs ts' hts' hu hgoes' hlength hout'
          refine hnext u (b :: bs) (ts ++ ts') (List.forall_mem_append.mpr ⟨hts, hts'⟩) hu (hgoes.each hgoes') ?_ ?_
          · rw [List.length_cons, List.length_cons, hlength]
          · rw [hout', hout, List.append_assoc]
            rfl
        · intro f u hstopped htools hceases
          exact hceased f u hstopped htools (hgoes.each_ceases hts hceases)
      | ceased hstopped =>
        rcases hstopped with hf | hf
        · cases hf
        · exact absurd rfl hf.1
    · cases ht with
      | next _ _ _ hflow => exact absurd hflow hf
      | ceased hstopped htools hceases => exact hceased f t hstopped htools (hceases.each hcut l)

/-! ### What a script begins with -/

/-- The functions that a script defines. -/
def defined (funs : List (Text × Cmd)) (defs : List (Text × Cmd)) : List (Text × Cmd) :=
  defs.foldl (fun funs e => Assoc.insert e.1 e.2 funs) funs

def definitions (defs : List (Text × Cmd)) : List Cmd := defs.map fun e => .define e.1 e.2

theorem ends_definitions {depth n : Nat} {cs : List Cmd} {Q : Flow → State Machine → Prop} {defs : List (Text × Cmd)}
    (h : Opened funs s) (hs : Shell.Script s.input (definitions defs ++ cs))
    (hnext : ∀ t o, Opened (defined funs defs) t → Turned s.sys t.sys o → Shell.Script t.input cs →
      Ends Q (Shell.runInput system Machine.turn depth n t)) :
    Ends Q (Shell.runInput system Machine.turn depth (defs.length + n) s) := by
  induction defs generalizing funs s with
  | nil =>
    rw [List.length_nil, Nat.zero_add]
    exact hnext s none h (.refl s.sys) hs
  | cons e defs ih =>
    rw [List.length_cons, Nat.add_right_comm]
    refine h.run (Assoc.insert e.1 e.2 funs) hs (fun t ht => ?_) fun t o ht ho hts => ?_
    · exact ⟨{ t.ended 0 with funs := Assoc.insert e.1 e.2 t.funs }, by rw [exec], ⟨by rw [← ht.funs], ht.out, rfl⟩,
        rfl, rfl⟩
    · exact ih ht hts fun u o' hu ho' hus => hnext u _ hu (ho.trans ho') hus

/-- A script begins: its functions are defined, and the others have done what they do; or a tool is missing. -/
theorem ends_script {depth n : Nat} {cs : List Cmd} {Q : Flow → State Machine → Prop} {defs : List (Text × Cmd)}
    {script : Text} {fates : List CallFate} (hcalm : m.fates = [] → fates = [])
    (hs : Shell.Script script (preludeCommands ++ (definitions defs ++ cs)))
    (hgo : ∀ t o, Going m (defined [] defs) t → t.sys.fs = edited m.fs o → (o = none ∨ o ∈ m.turns) → t.out = [] →
      Shell.Script t.input cs → Ends Q (Shell.runInput system Machine.turn depth n t))
    (hexit : ∀ t o, ¬ Equipped m → t.status = 90 → t.sys.fs = edited m.fs o → (o = none ∨ o ∈ m.turns) →
      t.sys.tools = m.tools → Q .exit t) :
    Ends Q (Shell.runInput system Machine.turn depth (defs.length + n + 4)
      { sys := { m with fates }, input := script }) := by
  have hopened : Opened [] ({ sys := { m with fates }, input := script } : State Machine) := ⟨rfl, rfl, rfl⟩
  refine ends_prelude hopened hs (fun t o ht ho hts hequipped => ?_) fun t o ho hstatus hnot => ?_
  · refine ends_definitions ht hts fun u o' hu ho' hus => ?_
    have hall := ho.trans ho'
    refine hgo u _ ⟨hu.funs, hu.status, ?_, hall.tools, hall.turns, fun hm => hall.fates.trans (hcalm hm)⟩ hall.files
      hall.mem hu.out hus
    exact fun name hname => ho'.tools ▸ hequipped name hname
  · exact hexit t o hnot hstatus ho.files ho.mem ho.tools

/-! ### Calls -/

/-- Nothing goes wrong with a call: every program works and is there, and what the script writes is not too much. -/
structure Fair (script : Text) (m : Machine) : Prop where
  calm : m.fates = []
  equipped : Equipped m
  out : (Shell.runScript system Machine.turn shellDepth script m).2.out.length ≤ maxOutput
  err : (Shell.runScript system Machine.turn shellDepth script m).2.err.length ≤ stderrCap

/-- What comes of a call of a script that ends so. -/
inductive Called (m : Machine) (fair : Prop) (Q : Flow → State Machine → Prop) : Except String Output → Machine → Prop where
  | answered (f : Flow) (t : State Machine) (ends : Q f t) (flow : f ≠ .killed) :
      Called m fair Q (.ok ⟨t.status, textBytes t.out, t.err⟩) t.sys
  | lost (e : String) (f : Flow) (t : State Machine) (ends : Q f t) (why : f = .killed ∨ ¬ fair) :
      Called m fair Q (.error e) t.sys
  | never (r : Except String Output) (m' : Machine) (unfair : ¬ fair) (same : m' = { m with fates := m'.fates })
      (failed : ∀ out, r = .ok out → out.status = 255) : Called m fair Q r m'

omit [Deps] in
theorem answer_eq {f : Flow} (hf : f ≠ .killed) : answer (f, t) =
    if t.out.length > maxOutput ∨ t.err.length > stderrCap then (.error "pct exec: more output than allowed", t.sys)
    else (.ok ⟨t.status, textBytes t.out, t.err⟩, t.sys) := by
  cases f with
  | killed => exact absurd rfl hf
  | _ => rfl

theorem called {script : Text} {Q : Flow → State Machine → Prop}
    (h : ∀ fates, (m.fates = [] → fates = []) →
      Ends Q (Shell.runScript system Machine.turn shellDepth script { m with fates })) :
    Called m (Fair script m) Q (Pct.exec script m).1 (Pct.exec script m).2 := by
  obtain ⟨fate, fates, hfate, hcalm⟩ := fate_eq m
  have hends := h fates fun hm => (hcalm hm).2
  unfold Pct.exec
  rw [hfate]
  cases fate with
  | works =>
    dsimp only
    cases hrun : Shell.runScript system Machine.turn shellDepth script { m with fates } with
    | mk f t =>
      rw [hrun] at hends
      by_cases hf : f = .killed
      · exact hf ▸ .lost _ f t hends (Or.inl hf)
      rw [answer_eq hf]
      split
      · next hmuch =>
        refine .lost _ f t hends (Or.inr fun hfair => ?_)
        have hm : { m with fates } = m := by rw [(hcalm hfair.calm).2, ← hfair.calm]
        rw [hm] at hrun
        have hout : t.out.length ≤ maxOutput := by simpa [hrun] using hfair.out
        have herr : t.err.length ≤ stderrCap := by simpa [hrun] using hfair.err
        omega
      · exact .answered f t hends hf
  | last =>
    exact .lost _ _ _ hends (Or.inr fun hfair => nomatch (hcalm hfair.calm).1)
  | fails err kept =>
    exact .never _ _ (fun hfair => nomatch (hcalm hfair.calm).1) rfl fun out hout => by cases hout; rfl
  | killed kept =>
    exact .never _ _ (fun hfair => nomatch (hcalm hfair.calm).1) rfl fun out hout => by cases hout

/-- A call comes to what the step can come to; and it leaves the guest what it is. -/
structure Refines (m : Machine) (fair : Prop) (step : World → Except String α × World) (r : Except String α × Machine) :
    Prop where
  comes : Comes frame Agree (Allowed m fair) step m.fs r.1 r.2.fs
  tools : r.2.tools = m.tools
  turns : ∀ a, r.1 = .ok a → r.2.turns ⊆ m.turns
  calm : ∀ a, r.1 = .ok a → m.fates = [] → r.2.fates = []

end Guest
end PveMeta
