import PveMeta.Theorems.GuestShellProbe
import PveMeta.Theorems.GuestShellSteps

/-! # The commands of a script

What the calls of the functions come to, and what stands before them: the script ends if a tool is missing, and goes on with
the functions defined. -/

namespace PveMeta
namespace Guest

open Shell (State Flow Cmd Ends Word Words exec lit arg cmd)

variable [Deps] {s t u : State Machine} {path : Text} {call : Cmd → State Machine → Flow × State Machine} {depth : Nat}

/-! ### Calls of functions -/

/-- A function is called, and returns to where the script is. -/
theorem ends_call {body : Cmd} {args : List Text} {P Q : Flow → State Machine → Prop}
    (hbody : Ends P (exec system (Shell.calls system depth) body { s with args }))
    (hret : ∀ t, P .ret t → Q .next { t with args := s.args })
    (hother : ∀ f t, f ≠ .ret → P f t → Q f { t with args := s.args }) :
    Ends Q (Shell.callFunction (Shell.calls system (depth + 1)) body args s) := by
  rw [Shell.callFunction, Shell.calls]
  split
  · next t heq =>
    rw [heq] at hbody
    exact hret t hbody
  · next f t hne heq =>
    rw [heq] at hbody
    exact hother f t hne hbody

/-- A call in the script, its words expanded. -/
theorem exec_call {name : Text} {body : Cmd} {args : List Text} {ws : Words} (hfun : Assoc.get? name s.funs = some body)
    (hwords : ws.texts? s = some (name :: args)) : exec system call (.simple ws) s =
      Shell.callFunction call body args s := by
  rw [Shell.exec_simple hwords, Shell.invoke, hfun]

/-- The functions of a commit are defined, and nothing else. -/
structure Committing (s : State Machine) : Prop where
  ready : Ready s
  dir : Assoc.get? ['d'] s.funs = some dirBody
  hash : Assoc.get? ['h'] s.funs = some hashOf
  place : Assoc.get? ['w'] s.funs = some placeBody
  remove : Assoc.get? "rmf".toList s.funs = some removeBody

omit [Deps] in
theorem Committing.kept (h : Committing s) (hk : Kept s t) : Committing t :=
  ⟨h.ready.kept hk, hk.funs ▸ h.dir, hk.funs ▸ h.hash, hk.funs ▸ h.place, hk.funs ▸ h.remove⟩

/-- One operation, with some fault. -/
def opStep (op : Op) (fault : Fault) (w : World) : Except String Outcome × World :=
  match op with
  | .place path content mode owner expect => Guest.place w fault path content mode owner expect
  | .remove path sha256 => removal path sha256 fault w

/-- The operation puts down none of the daemon's own files, and a hash that it expects reads like one. -/
def Op.Fit : Op → Prop
  | .place path _ _ _ expect => expect.Plain ∧ ¬ Reserved path
  | .remove _ _ => True

/-- The files are the same but for the daemon's own. -/
def Agree (fs fs' : Fs) : Prop := ∀ p, ¬ Reserved p → fs p = fs' p

/-- An operation's call is over. -/
inductive Operated (s : State Machine) (i : Text) (op : Op) (f : Flow) (t : State Machine) : Prop where
  | killed (flow : f = .killed) (wild : ¬ Calm s) (kept : Kept s t) (out : t.out = s.out)
      (files : Agree s.sys.fs t.sys.fs ∨ Steps s (opStep op .none) .done t.sys.fs)
  | told (flow : f = .next) (kept : Kept s t) (status : t.status = 0) (what : Text)
      (out : t.out = s.out ++ (i ++ ' ' :: what ++ ['\n'])) (files : Tells s (opStep op) what t.sys.fs)

theorem Operated.of_placed {op : Op} {i temp input : Text} {args : List Text} {f g : Flow} (htemp : Reserved temp)
    (hp : Placed { s with args, input } i temp (Steps s (opStep op .none) .done) (Tells s (opStep op)) f t)
    (hg : g = if f = .ret then .next else f) : Operated s i op g { t with args := s.args, input := s.input } := by
  cases hp with
  | killed hf wild hk hout files =>
    rw [hf, if_neg (by simp)] at hg
    refine .killed hg wild ⟨rfl, hk.funs, rfl, hk.tools, hk.turns, hk.calm⟩ hout ?_
    rcases files with hfs | hmoved
    · exact Or.inl fun p hp => (hfs p fun heq => hp (heq ▸ htemp)).symm
    · exact Or.inr hmoved
  | told hf what ht files =>
    have hflow : (if f = .ret then .next else f) = Flow.next := by
      rcases hf with rfl | rfl <;> rfl
    exact .told (hg.trans hflow) ⟨rfl, ht.kept.funs, rfl, ht.kept.tools, ht.kept.turns, ht.kept.calm⟩ ht.status what
      ht.out files

omit [Deps] in
theorem text?_plainWord (t : Text) : (plainWord t).text? s = some t := congrArg some (List.append_nil _)

/-- An operation, as the script has it. -/
theorem ends_opCommand (h : Committing s) {op : Op} (hop : op.Fit) (k : Nat) :
    Ends (Operated s (Nat.toDigits 10 k) op) (exec system (Shell.calls system (depth + 2)) (opCommand k op) s) := by
  cases op with
  | place path content mode owner expect =>
    obtain ⟨hplain, hreserved⟩ := hop
    have hplacing : Placing
        { s with
          input := base64 content ++ ['\n']
          args := [Nat.toDigits 10 k, path, tempFor path, expect.text, modeText mode, owner.text] }
        (Nat.toDigits 10 k) path mode owner expect := ⟨⟨h.ready.equipped, h.ready.free⟩, h.hash, rfl⟩
    have hbody : Ends
      (Placed _ (Nat.toDigits 10 k) (tempFor path) (Steps s (opStep (.place path content mode owner expect) .none) .done)
        (Tells s (opStep (.place path content mode owner expect)))) _ :=
      hplacing.ends_body depth (verdicts_place _ path content mode owner expect) rfl hplain hreserved
    have hwords : (Shell.words [lit "w", plainWord (Nat.toDigits 10 k), quotedWord path, quotedWord (tempFor path),
        quotedWord expect.text, plainWord (modeText mode),
          plainWord owner.text]).texts? { s with input := base64 content ++ ['\n'] } =
        some (['w'] :: [Nat.toDigits 10 k, path, tempFor path, expect.text, modeText mode, owner.text]) :=
      Shell.texts?_cons (Shell.text?_lit _) <| Shell.texts?_cons (text?_plainWord _) <|
        Shell.texts?_cons (Shell.text?_quoted _) <|
        Shell.texts?_cons (Shell.text?_quoted _) <| Shell.texts?_cons (Shell.text?_quoted _) <|
        Shell.texts?_cons (text?_plainWord _) <| Shell.texts?_cons (text?_plainWord _) rfl
    have hcall :
      Ends (fun f t => Operated s (Nat.toDigits 10 k) (.place path content mode owner expect) f { t with input := s.input })
        (exec system (Shell.calls system (depth + 2)) (cmd [lit "w", plainWord (Nat.toDigits 10 k), quotedWord path,
          quotedWord (tempFor path), quotedWord expect.text, plainWord (modeText mode), plainWord owner.text])
          { s with input := base64 content ++ ['\n'] }) := by
      have hfun : Assoc.get? ['w'] ({ s with input := base64 content ++ ['\n'] } : State Machine).funs = some placeBody :=
        h.place
      rw [cmd, exec_call hfun hwords]
      refine ends_call hbody (fun t ht => ?_) fun f t hf ht => ?_
      · exact Operated.of_placed (t := t) (reserved_tempFor path) ht rfl
      · exact Operated.of_placed (t := t) (reserved_tempFor path) ht (if_neg hf).symm
    exact hcall.here fun f t ht => ht
  | remove path sha256 =>
    have hremoving : Removing { s with args := [Nat.toDigits 10 k, path, sha256.toList] } (Nat.toDigits 10 k) path sha256 :=
      ⟨⟨h.ready.equipped, h.ready.free⟩, h.hash, rfl⟩
    have hwords :
      (Shell.words [lit "rmf", plainWord (Nat.toDigits 10 k), quotedWord path, quotedWord sha256.toList]).texts? s =
        some ("rmf".toList :: [Nat.toDigits 10 k, path, sha256.toList]) :=
      Shell.texts?_cons (Shell.text?_lit _) <| Shell.texts?_cons (text?_plainWord _) <|
        Shell.texts?_cons (Shell.text?_quoted _) <|
        Shell.texts?_cons (Shell.text?_quoted _) rfl
    have hinput {t : State Machine} (ht : t.input = s.input) :
        ({ t with args := s.args } : State Machine) = { t with args := s.args, input := s.input } := by rw [← ht]
    rw [opCommand, cmd, exec_call h.remove hwords]
    refine ends_call hremoving.ends_body (fun t ht => ?_) fun f t hf ht => ?_
    · rw [hinput ht.2]
      exact .of_placed (reserved_tempFor path) ht.1 rfl
    · rw [hinput ht.2]
      exact .of_placed (reserved_tempFor path) ht.1 (if_neg hf).symm

/-- A call of `d`. -/
theorem ends_dirCommand (h : Committing s) (dir : Text) :
    Ends (fun f t => DirMade s dir f t ∧ f ≠ .ret) (exec system (Shell.calls system (depth + 2)) (dirCommand dir) s) := by
  have hwords : (Shell.words [lit "d", quotedWord dir]).texts? s = some (['d'] :: [dir]) :=
    Shell.texts?_cons (Shell.text?_lit _) (Shell.texts?_cons (Shell.text?_quoted _) rfl)
  have hready : Ready { s with args := [dir] } := ⟨h.ready.equipped, h.ready.free⟩
  rw [dirCommand, cmd, exec_call h.dir hwords]
  refine ends_call (hready.ends_dir rfl) (fun t ht => ?_) fun f t hf ht => ?_
  · cases ht with
    | killed hf => cases hf
    | exit hf => cases hf
    | made _ hstatus hk hout files =>
      exact ⟨.made (Or.inl rfl) hstatus ⟨rfl, hk.funs, hk.input, hk.tools, hk.turns, hk.calm⟩ hout files, by simp⟩
  · refine ⟨?_, hf⟩
    cases ht with
    | killed hf wild hk files => exact .killed hf wild ⟨rfl, hk.funs, hk.input, hk.tools, hk.turns, hk.calm⟩ files
    | exit hf hstatus hk files why calm =>
      exact .exit hf hstatus ⟨rfl, hk.funs, hk.input, hk.tools, hk.turns, hk.calm⟩ files why calm
    | made hf' hstatus hk hout files =>
      exact .made hf' hstatus ⟨rfl, hk.funs, hk.input, hk.tools, hk.turns, hk.calm⟩ hout files

/-! ### The others' turns -/

/-- What the others leave, but for the manifest. -/
def edited (fs : Fs) : Option Fs → Fs
  | none => fs
  | some fs' => fun p => if p = manifestPath then fs p else fs' p

/-- The others have had some turns. -/
structure Turned (m m' : Machine) (o : Option Fs) : Prop where
  mem : o = none ∨ o ∈ m.turns
  files : m'.fs = edited m.fs o
  tools : m'.tools = m.tools
  fates : m'.fates = m.fates
  turns : m'.turns ⊆ m.turns

omit [Deps] in
theorem edited_edited (fs : Fs) (o o' : Option Fs) : edited (edited fs o) o' = edited fs (o' <|> o) := by
  cases o' with
  | none => rfl
  | some fs' =>
    funext p
    cases o with
    | none => rfl
    | some =>
      simp only [edited, Option.orElse_eq_orElse, Option.orElse_eq_or, Option.some_or]
      split <;> rfl

omit [Deps] in
theorem Turned.refl (m : Machine) : Turned m m none := ⟨Or.inl rfl, rfl, rfl, rfl, fun _ h => h⟩

omit [Deps] in
theorem turned_turn (m : Machine) : ∃ o, Turned m m.turn o := by
  unfold Machine.turn
  split
  · exact ⟨none, .refl m⟩
  · next turns h => exact ⟨none, Or.inl rfl, rfl, rfl, rfl, fun _ hx => h ▸ List.mem_cons_of_mem _ hx⟩
  · next fs turns h =>
    exact ⟨some fs, Or.inr (h ▸ List.mem_cons_self), rfl, rfl, rfl, fun _ hx => h ▸ List.mem_cons_of_mem _ hx⟩

omit [Deps] in
theorem Turned.trans {m m' m'' : Machine} {o o' : Option Fs} (h : Turned m m' o) (h' : Turned m' m'' o') :
    Turned m m'' (o' <|> o) where
  mem := by
    cases o' with
    | none => exact h.mem
    | some fs => exact Or.inr (h.turns (h'.mem.resolve_left (by simp)))
  files := by rw [h'.files, h.files, edited_edited]
  tools := h'.tools.trans h.tools
  fates := h'.fates.trans h.fates
  turns := fun _ hx => h.turns (h'.turns hx)

/-! ### What stands before the calls -/

/-- Nothing has been written, and only these functions are defined. -/
structure Opened (funs : List (Text × Cmd)) (s : State Machine) : Prop where
  funs : s.funs = funs
  out : s.out = []
  status : s.status = 0

variable {funs : List (Text × Cmd)}

/-- A tool that is not there is named, and the script ends. -/
theorem exec_missingTool (call) {name : Text} (hfuns : s.funs = []) (hparam : s.param ['t'] = some name) :
    ∃ err, exec system call missingTool s = (.exit, ({ s with err } : State Machine).ended 90) := by
  have hfree (s : State Machine) (h : s.funs = []) (n : Text) : Assoc.get? n s.funs = none := by rw [h]; rfl
  have hwords :
    (Shell.words [lit "echo", .quoted ['\''] (.param ['t'] (.quoted "' is not in the guest".toList .nil))]).texts?
      { s with out := [] } = some ("echo".toList :: [['\''] ++ (name ++ ("' is not in the guest".toList ++ []))]) := by
    refine Shell.texts?_cons (Shell.text?_lit _) (Shell.texts?_cons ?_ rfl)
    have hparam' : ({ s with out := [] } : State Machine).param ['t'] = some name := hparam
    rw [Word.text?, Word.text?, hparam', Word.text?]
    rfl
  have hecho :
    exec system call (cmd [lit "echo", .quoted ['\''] (.param ['t'] (.quoted "' is not in the guest".toList .nil))])
      { s with out := [] } = _ := Shell.exec_builtin (hfree _ hfuns _) rfl hwords
  have hexit (s : State Machine) (h : s.funs = []) : exec system call (cmd [lit "exit", lit "90"]) s =
      Shell.runBuiltin system ["90".toList] s .exit := Shell.exec_builtin (hfree _ h _) rfl rfl
  refine ⟨s.err ++ Shell.echoed [['\''] ++ (name ++ ("' is not in the guest".toList ++ []))], ?_⟩
  rw [missingTool, exec, exec, hecho]
  exact hexit _ hfuns

/-- The tools are checked: one is not there, or all are. -/
theorem ends_toolsCheck (h : Opened [] s) :
    Ends (fun f t => t.sys = s.sys ∧ t.input = s.input ∧
      (f = .exit ∧ t.status = 90 ∧ ¬ Equipped s.sys ∨ f = .next ∧ Opened [] t ∧ Equipped s.sys))
      (exec system call toolsCheck s) := by
  have hwords : (Shell.words (toolNames.map lit)).texts? s = some (toolNames.map String.toList) := rfl
  refine Ends.each hwords (Ends.loop (I := fun ts t => t.sys = s.sys ∧ t.input = s.input ∧ Opened [] t ∧
    (∀ name ∈ ts, name ∈ toolNames.map String.toList) ∧
    ∀ name ∈ toolNames.map String.toList, name ∈ ts ∨ (s.sys.tools name).isSome = true) ?_ ?_ _ _ ?_)
  · intro name ts t ht
    obtain ⟨hsys, hinput, hopened, hsub, hdone⟩ := ht
    have hparam : (t.bind ['t'] name).param "t".toList = some name := Assoc.get?_insert_self
    have hcommand : (Shell.words [lit "command", lit "-v", arg "t"]).texts? (t.bind ['t'] name) =
        some ("command".toList :: ["-v".toList, name]) :=
      Shell.texts?_cons (Shell.text?_lit _)
        (Shell.texts?_cons (Shell.text?_lit _) (Shell.texts?_cons (Shell.text?_arg hparam) rfl))
    have hexec : exec system call (cmd [lit "command", lit "-v", arg "t"]) (t.bind ['t'] name) =
        Shell.runBuiltin system ["-v".toList, name] (t.bind ['t'] name) .command :=
      Shell.exec_builtin (by rw [State.bind, hopened.funs]; rfl) rfl hcommand
    have hargs : s.sys.tools name = t.sys.tools name := by rw [hsys]
    cases hlocate : t.sys.tools name with
    | some place =>
      have hfound : exec system call (.dropAll (cmd [lit "command", lit "-v", arg "t"])) (t.bind ['t'] name) =
          (.next, (t.bind ['t'] name).ended 0) := by
        have hcall : Shell.runBuiltin system ["-v".toList, name] (t.bind ['t'] name) .command =
            (.next, ((t.bind ['t'] name).say (place ++ ['\n'])).ended 0) := by
          simp [Shell.runBuiltin, system, State.bind, hlocate]
        rw [exec, hexec, hcall]
        rfl
      have hor : exec system call (.or (.dropAll (cmd [lit "command", lit "-v", arg "t"])) missingTool)
        (t.bind ['t'] name) =
          (.next, (t.bind ['t'] name).ended 0) := by
        rw [exec, hfound]
        rfl
      rw [hor]
      refine Or.inl ⟨rfl, hsys, hinput, ⟨hopened.funs, hopened.out, rfl⟩, fun n hn => hsub n (List.mem_cons_of_mem _ hn),
        fun n hn => ?_⟩
      rcases hdone n hn with hmem | hthere
      · rcases List.mem_cons.mp hmem with rfl | hmem
        · exact Or.inr (by rw [hargs, hlocate]; rfl)
        · exact Or.inl hmem
      · exact Or.inr hthere
    | none =>
      have hlost : exec system call (.dropAll (cmd [lit "command", lit "-v", arg "t"])) (t.bind ['t'] name) =
          (.next, (t.bind ['t'] name).ended 127) := by
        have hcall : Shell.runBuiltin system ["-v".toList, name] (t.bind ['t'] name) .command =
            (.next, (t.bind ['t'] name).ended 127) := by
          simp [Shell.runBuiltin, system, State.bind, hlocate]
        rw [exec, hexec, hcall]
        rfl
      have hor : exec system call (.or (.dropAll (cmd [lit "command", lit "-v", arg "t"])) missingTool)
        (t.bind ['t'] name) =
          exec system call missingTool ((t.bind ['t'] name).ended 127) := by
        rw [exec, hlost]
        rfl
      obtain ⟨err, hexit⟩ := exec_missingTool call (s := (t.bind ['t'] name).ended 127) hopened.funs hparam
      rw [hor, hexit]
      refine Or.inr ⟨by simp, hsys, hinput, Or.inl ⟨rfl, rfl, fun hequipped => ?_⟩⟩
      obtain ⟨n, hn, rfl⟩ := List.mem_map.mp (hsub name List.mem_cons_self)
      have hthere := hequipped n hn
      rw [hargs, hlocate] at hthere
      cases hthere
  · intro t ht
    obtain ⟨hsys, hinput, hopened, -, hdone⟩ := ht
    refine ⟨hsys, hinput, Or.inr ⟨rfl, hopened, fun name hname => ?_⟩⟩
    exact (hdone name.toList (List.mem_map_of_mem hname)).resolve_left List.not_mem_nil
  · exact ⟨rfl, rfl, ⟨h.funs, h.out, rfl⟩, fun _ hname => hname, fun _ hname => Or.inl hname⟩

variable {c : Cmd} {cs : List Cmd} {Q : Flow → State Machine → Prop} {n : Nat}

/-- A command that only concerns the shell. -/
theorem Opened.run (funs' : List (Text × Cmd)) (h : Opened funs s) (hs : Shell.Script s.input (c :: cs))
    (hc : ∀ t, Opened funs t → ∃ u, exec system (Shell.calls system depth) c t = (.next, u) ∧ Opened funs' u ∧
      u.sys = t.sys ∧ u.input = t.input)
    (hnext : ∀ t o, Opened funs' t → Turned s.sys t.sys o → Shell.Script t.input cs →
      Ends Q (Shell.runInput system Machine.turn depth n t)) :
    Ends Q (Shell.runInput system Machine.turn depth (n + 1) s) := by
  obtain ⟨rest, hrest, hrun⟩ := hs.run (S := system) (n := n)
  obtain ⟨o, ho⟩ := turned_turn s.sys
  obtain ⟨u, hexec, hu, hsys, hinput⟩ := hc { s with input := rest, sys := s.sys.turn } ⟨h.funs, h.out, h.status⟩
  refine hrun (fun f t => f = .next ∧ t = u) Q ?_ (fun t ht => ?_) fun f t hf ht => absurd ht.1 hf
  · rw [hexec]
    exact ⟨rfl, rfl⟩
  · obtain ⟨-, rfl⟩ := ht
    exact hnext t o hu (hsys ▸ ho) (hinput ▸ hrest)

/-- What stands before everything: the script goes on with all tools there, or ends. -/
theorem ends_prelude (h : Opened [] s) (hs : Shell.Script s.input (preludeCommands ++ cs))
    (hnext : ∀ t o, Opened [] t → Turned s.sys t.sys o → Shell.Script t.input cs → Equipped t.sys →
      Ends Q (Shell.runInput system Machine.turn depth n t))
    (hexit : ∀ t o, Turned s.sys t.sys o → t.status = 90 → ¬ Equipped s.sys → Q .exit t) :
    Ends Q (Shell.runInput system Machine.turn depth (n + 4) s) := by
  refine h.run [] hs (fun t ht => ?_) fun t₁ o₁ h₁ ho₁ hs₁ => ?_
  · have hbuiltin : exec system (Shell.calls system depth) (cmd [lit "set", lit "-u"]) t =
        Shell.runBuiltin system ["-u".toList] t .set :=
      Shell.exec_builtin (by rw [ht.funs]; rfl) rfl rfl
    refine ⟨_, hbuiltin, ?_, ?_, ?_⟩
    · exact ⟨ht.funs, ht.out, rfl⟩
    · rfl
    · rfl
  refine h₁.run [] hs₁ (fun t ht => ?_) fun t₂ o₂ h₂ ho₂ hs₂ => ?_
  · refine ⟨_, Shell.exec_assign (Shell.text?_lit _), ?_, rfl, rfl⟩
    exact ⟨ht.funs, ht.out, rfl⟩
  refine h₂.run [] hs₂ (fun t ht => ?_) fun t₃ o₃ h₃ ho₃ hs₃ => ?_
  · have hbuiltin : exec system (Shell.calls system depth) (cmd [lit "export", lit "PATH", lit "LC_ALL=C"]) t =
        Shell.runBuiltin system ["PATH".toList, "LC_ALL=C".toList] t .export :=
      Shell.exec_builtin (by rw [ht.funs]; rfl) rfl rfl
    refine ⟨_, hbuiltin, ?_, ?_, ?_⟩
    · exact ⟨ht.funs, ht.out, rfl⟩
    · rfl
    · rfl
  have hturned := (ho₁.trans ho₂).trans ho₃
  obtain ⟨rest, hrest, hrun⟩ := hs₃.run (S := system) (n := n)
  obtain ⟨o, ho⟩ := turned_turn t₃.sys
  have hopened : Opened [] { t₃ with input := rest, sys := t₃.sys.turn } := ⟨h₃.funs, h₃.out, h₃.status⟩
  have hall := hturned.trans ho
  refine hrun _ Q (ends_toolsCheck hopened) (fun t ht => ?_) fun f t hf ht => ?_
  · obtain ⟨hsys, hinput, ⟨hf, -⟩ | ⟨-, ht, hequipped⟩⟩ := ht
    · cases hf
    · have hsys' : t.sys = t₃.sys.turn := hsys
      have hinput' : t.input = rest := hinput
      exact hnext t _ ht (hsys' ▸ hall) (hinput' ▸ hrest) (hsys' ▸ hequipped)
  · obtain ⟨hsys, -, ⟨rfl, hstatus, hnot⟩ | ⟨hnext, -⟩⟩ := ht
    · have hsys' : t.sys = t₃.sys.turn := hsys
      refine hexit t _ (hsys' ▸ hall) hstatus fun hequipped => hnot fun name hname => ?_
      have htools : t₃.sys.turn.tools = s.sys.tools := hall.tools
      rw [htools]
      exact hequipped name hname
    · exact absurd hnext hf

end Guest
end PveMeta
