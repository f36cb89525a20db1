import PveMeta.Guest.Functions
import PveMeta.Theorems.GuestCommit
import PveMeta.Lib.ShellRules

/-! # What the commands of a script do

Each program of the scripts, and the shell around it, over the files of a guest: what it makes of them if it works, and that
they are as they were if it fails. Where a script is killed, it was before a program or after it. -/

namespace PveMeta
namespace Guest

open Shell (State Flow Cmd Ends Word Words exec lit arg cmd)

variable [Deps] {m m' : Machine} {s t u : State Machine} {tool : Tool} {args : List Text} {input path : Text}

/-! ### Nodes -/

section

variable {owner : Owner} {mode : Nat} {content : ByteArray}

omit [Deps] in
theorem file_ne_dir : Inode.file owner mode content ≠ .dir := by simp

omit [Deps] in
theorem missing_ne_dir : Inode.missing ≠ .dir := by simp

omit [Deps] in
theorem symlink_ne_file {target : Text} : Inode.symlink target ≠ .file owner mode content := by simp

end

/-! ### What stays -/

/-- Nothing goes wrong any more. -/
def Calm (s : State Machine) : Prop := s.sys.fates = []

/-- The guest has every tool. -/
def Equipped (m : Machine) : Prop := ∀ name ∈ toolNames, (m.tools name.toList).isSome = true

/-- All but the files, the output, and what a command leaves for the next one to look at. -/
structure Kept (s t : State Machine) : Prop where
  args : t.args = s.args
  funs : t.funs = s.funs
  input : t.input = s.input
  tools : t.sys.tools = s.sys.tools
  turns : t.sys.turns = s.sys.turns
  calm : Calm s → Calm t

omit [Deps] in
theorem Kept.refl (s : State Machine) : Kept s s := ⟨rfl, rfl, rfl, rfl, rfl, fun h => h⟩

omit [Deps] in
theorem Kept.trans (h : Kept s t) (h' : Kept t u) : Kept s u :=
  ⟨h'.args.trans h.args, h'.funs.trans h.funs, h'.input.trans h.input, h'.tools.trans h.tools, 
    h'.turns.trans h.turns, fun hs => h'.calm (h.calm hs)⟩

/-- A command that makes this of the output and the files, if it does not fail. -/
inductive Does (s : State Machine) (mayFail : Bool) (effect : Option (Text × Fs)) (f : Flow) (t : State Machine) :
    Prop where
  | killed (kept : Kept s t) (wild : ¬ Calm s) (flow : f = .killed) (out : t.out = s.out)
      (files : t.sys.fs = s.sys.fs ∨ ∃ e, effect = some e ∧ t.sys.fs = e.2)
  | failed (kept : Kept s t) (why : effect = none ∨ mayFail = true ∧ ¬ Calm s) (flow : f = .next) (status : t.status ≠ 0)
      (out : t.out = s.out) (files : t.sys.fs = s.sys.fs) (code : t.status = 1)
  | worked (kept : Kept s t) (flow : f = .next) (status : t.status = 0) (e : Text × Fs) (effect : effect = some e)
      (out : t.out = s.out ++ e.1) (files : t.sys.fs = e.2)

/-! ### Programs -/

theorem run_frame {e : Text × Machine} (h : tool.run m input args = some e) : e.2 = { m with fs := e.2.fs } := by
  unfold Tool.run at h
  split at h
  case h_1 => split at h <;> cases h; rfl
  case h_2 => cases h; rfl
  case h_3 =>
    obtain ⟨_, -, rfl⟩ := Option.map_eq_some_iff.mp h
    rfl
  case h_4 =>
    obtain ⟨_, -, rfl⟩ := Option.map_eq_some_iff.mp h
    rfl
  case h_5 => cases h; rfl
  case h_6 =>
    split at h
    · dsimp only at h
      split at h <;> cases h
      rfl
    · cases h
  case h_7 => split at h <;> cases h; rfl
  case h_8 =>
    split at h
    · split at h <;> cases h
      rfl
    · cases h
  case h_9 =>
    split at h
    · split at h <;> cases h
      rfl
    · cases h
  case h_10 => split at h <;> cases h; rfl
  case h_11 => cases h

/-- What becomes of later calls is nothing to a program. -/
theorem run_fates (m : Machine) (tool : Tool) (args : List Text) (input : Text) (fates : List CallFate) :
    Tool.run { m with fates } input tool args = (tool.run m input args).map fun e => (e.1, { e.2 with fates }) := by
  unfold Tool.run
  split
  case h_1 path => cases h : m.fs path <;> rfl
  case h_2 => rfl
  case h_3 => cases Base64.decode (input.filter (· ≠ '\n')) <;> rfl
  case h_4 _ _ path =>
    show (m.content path).map _ = ((m.content path).map _).map _
    cases m.content path <;> rfl
  case h_5 => rfl
  case h_6 _ source path =>
    dsimp only
    cases h : m.fs source with
    | file owner mode content =>
      dsimp only
      split <;> rfl
    | _ => rfl
  case h_7 _ path => cases h : m.fs path <;> rfl
  case h_8 _ _ dir =>
    cases h : m.fs dir with
    | missing =>
      dsimp only
      split <;> rfl
    | _ => rfl
  case h_9 owner path =>
    dsimp only
    cases parseOwner owner with
    | none => rfl
    | some owner =>
      cases h : m.fs path with
      | file _ mode content =>
        dsimp only
        split <;> rfl
      | _ => rfl
  case h_10 mode path => cases h : m.fs path <;> rfl
  case h_11 => rfl

/-- What a tool writes and what it makes of the files. -/
def effectOf (m : Machine) (tool : Tool) (args : List Text) : Option (Text × Fs) :=
  (tool.run m [] args).map fun e => (e.1, e.2.fs)

omit [Deps] in
theorem fate_eq (m : Machine) :
    ∃ fate fates, m.fate = (fate, { m with fates }) ∧ (m.fates = [] → fate = .works ∧ fates = []) := by
  cases h : m.fates with
  | nil =>
    refine ⟨.works, m.fates, ?_, fun _ => ⟨rfl, h⟩⟩
    unfold Machine.fate
    split
    · rfl
    · next heq => rw [h] at heq; cases heq
  | cons fate fates =>
    refine ⟨fate, fates, ?_, fun hnil => nomatch hnil⟩
    rw [Machine.fate, h]

omit [Deps] in
/-- The state after a call of the system that left only these. -/
theorem kept_of (fs : Fs) (fates : List CallFate) (out err : Text) (status : Nat) (hcalm : Calm s → fates = []) :
    Kept s { s with sys := { s.sys with fs, fates }, out, err, status } :=
  ⟨rfl, rfl, rfl, rfl, rfl, hcalm⟩

/-- A call of a tool that reads nothing of its input. -/
theorem does_runTool {name : Text} (hname : Tool.ofName name = some tool) (hthere : (s.sys.tools name).isSome = true)
    (hfilter : tool.isFilter = false) (hoptions : tool.options.isPrefixOf args = true)
    (hinput : tool.run s.sys s.input args = tool.run s.sys [] args) :
    Ends (Does s (tool.mayFail args) (effectOf s.sys tool args)) (Shell.runProgram system (name :: args) s) := by
  obtain ⟨fate, fates, hfate, hcalm⟩ := fate_eq s.sys
  obtain ⟨place, hplace⟩ := Option.isSome_iff_exists.mp hthere
  have hrun : system.run (name :: args) s.input s.sys = s.sys.runTool tool args s.input := by
    show Machine.run (name :: args) s.input s.sys = _
    simp only [Machine.run, hplace, hname]
  have hcalm' : Calm s → fates = [] := fun h => (hcalm h).2
  have hwild : fate ≠ .works → ¬ Calm s := fun hne h => hne (hcalm h).1
  rw [Shell.runProgram, hrun, Machine.runTool, hfate]
  cases heffect : tool.run s.sys [] args with
  | none =>
    have hperform : Machine.perform ⟨s.sys.fs, s.sys.tools, s.sys.turns, fates⟩ tool args s.input =
        (⟨1, [], [], s.input⟩, ⟨s.sys.fs, s.sys.tools, s.sys.turns, fates⟩) := by
      rw [Machine.perform, if_pos hoptions, run_fates s.sys, hinput, heffect, hfilter]
      rfl
    have hnone : effectOf s.sys tool args = none := by rw [effectOf, heffect, Option.map_none]
    have hkept (err : Text) : Kept s { s with sys := { s.sys with fates }, out := s.out ++ [], err, status := 1 } :=
      kept_of s.sys.fs fates _ _ 1 hcalm'
    dsimp only
    rw [hperform, hnone]
    cases fate with
    | works => exact .failed (hkept _) (Or.inl rfl) rfl Nat.one_ne_zero (List.append_nil _) rfl rfl
    | fails err kept =>
      cases tool.mayFail args with
      | false => exact .failed (hkept _) (Or.inl rfl) rfl Nat.one_ne_zero (List.append_nil _) rfl rfl
      | true => exact .failed (hkept _) (Or.inl rfl) rfl Nat.one_ne_zero (List.append_nil _) rfl rfl
    | killed kept => exact .killed (kept_of s.sys.fs fates _ _ _ hcalm') (hwild (by simp)) rfl rfl (Or.inl rfl)
    | last => exact .killed (kept_of s.sys.fs fates _ _ _ hcalm') (hwild (by simp)) rfl rfl (Or.inl rfl)
  | some e =>
    have hframe := run_frame heffect
    have hperform : Machine.perform ⟨s.sys.fs, s.sys.tools, s.sys.turns, fates⟩ tool args s.input =
        (⟨0, e.1, [], s.input⟩, ⟨e.2.fs, s.sys.tools, s.sys.turns, fates⟩) := by
      rw [Machine.perform, if_pos hoptions, run_fates s.sys, hinput, heffect, hfilter, Option.map_some, hframe]
      rfl
    have hsome : effectOf s.sys tool args = some (e.1, e.2.fs) := by rw [effectOf, heffect, Option.map_some]
    have hworked : Kept s
        { s with sys := { s.sys with fs := e.2.fs, fates }, out := s.out ++ e.1, err := s.err ++ [], status := 0 } :=
      kept_of e.2.fs fates _ _ 0 hcalm'
    dsimp only
    rw [hperform, hsome]
    cases fate with
    | works => exact .worked hworked rfl rfl _ rfl rfl rfl
    | fails err kept =>
      cases tool.mayFail args with
      | false => exact .worked hworked rfl rfl _ rfl rfl rfl
      | true =>
        exact .failed (kept_of s.sys.fs fates _ _ 1 hcalm') (Or.inr ⟨rfl, hwild (by simp)⟩) rfl Nat.one_ne_zero
          (List.append_nil _)
          rfl rfl
    | killed kept => exact .killed (kept_of s.sys.fs fates _ _ _ hcalm') (hwild (by simp)) rfl rfl (Or.inl rfl)
    | last => exact .killed (kept_of e.2.fs fates _ _ _ hcalm') (hwild (by simp)) rfl rfl (Or.inr ⟨_, rfl, rfl⟩)

/-- A call of a tool that only works on its input, which it reads to the end. -/
theorem ends_runFilter {name out : Text} (hname : Tool.ofName name = some tool) (hthere : (s.sys.tools name).isSome = true)
    (hfilter : tool.isFilter = true) (hoptions : tool.options.isPrefixOf args = true)
    (hrun : tool.run s.sys s.input args = some (out, s.sys)) :
    Ends (fun f t => t.sys.fs = s.sys.fs ∧
      (f = .killed ∧ ¬ Calm s ∧ Kept s t ∧ t.out = s.out ∨
        f = .next ∧ t.status = 0 ∧ Kept { s with input := [] } t ∧ t.out = s.out ++ out))
      (Shell.runProgram system (name :: args) s) := by
  obtain ⟨fate, fates, hfate, hcalm⟩ := fate_eq s.sys
  obtain ⟨place, hplace⟩ := Option.isSome_iff_exists.mp hthere
  have hcall : system.run (name :: args) s.input s.sys = s.sys.runTool tool args s.input := by
    show Machine.run (name :: args) s.input s.sys = _
    simp only [Machine.run, hplace, hname]
  have hcalm' : Calm s → fates = [] := fun h => (hcalm h).2
  have hwild : fate ≠ .works → ¬ Calm s := fun hne h => hne (hcalm h).1
  have hnever : tool.mayFail args = false := by rw [Tool.mayFail, hfilter]; rfl
  have hperform : Machine.perform ⟨s.sys.fs, s.sys.tools, s.sys.turns, fates⟩ tool args s.input =
      (⟨0, out, [], []⟩, ⟨s.sys.fs, s.sys.tools, s.sys.turns, fates⟩) := by
    rw [Machine.perform, if_pos hoptions, run_fates s.sys, hrun, hfilter, Option.map_some]
    rfl
  have hdone (err : Text) : Kept { s with input := [] }
      { s with sys := ⟨s.sys.fs, s.sys.tools, s.sys.turns, fates⟩, input := [], out := s.out ++ out, err, status := 0 } :=
    ⟨rfl, rfl, rfl, rfl, rfl, hcalm'⟩
  rw [Shell.runProgram, hcall, Machine.runTool, hfate]
  dsimp only
  rw [hperform, hnever]
  cases fate with
  | works => exact ⟨rfl, Or.inr ⟨rfl, rfl, hdone _, rfl⟩⟩
  | fails err kept => exact ⟨rfl, Or.inr ⟨rfl, rfl, hdone _, rfl⟩⟩
  | killed kept => exact ⟨rfl, Or.inl ⟨rfl, hwild (by simp), kept_of s.sys.fs fates _ _ _ hcalm', rfl⟩⟩
  | last => exact ⟨rfl, Or.inl ⟨rfl, hwild (by simp), kept_of s.sys.fs fates _ _ _ hcalm', rfl⟩⟩

/-! ### Simple commands -/

def Tool.name : Tool → Text
  | .stat => "stat".toList
  | .sha256sum => "sha256sum".toList
  | .base64 => "base64".toList
  | .head => "head".toList
  | .cut => "cut".toList
  | .mv => "mv".toList
  | .rm => "rm".toList
  | .mkdir => "mkdir".toList
  | .chown => "chown".toList
  | .chmod => "chmod".toList

omit [Deps] in
theorem ofName_name (tool : Tool) : Tool.ofName tool.name = some tool := by cases tool <;> rfl

omit [Deps] in
theorem builtin_name (tool : Tool) : Shell.builtin tool.name = none := by cases tool <;> rfl

omit [Deps] in
theorem name_mem (tool : Tool) : ∃ name ∈ toolNames, name.toList = tool.name := by
  cases tool <;> exact ⟨_, by decide, rfl⟩

/-- The tools are there, and no function has the name of a tool or of a builtin. -/
structure Ready (s : State Machine) : Prop where
  equipped : Equipped s.sys
  free : ∀ name, (Tool.ofName name).isSome = true ∨ (Shell.builtin name).isSome = true → Assoc.get? name s.funs = none

omit [Deps] in
theorem Ready.kept (h : Ready s) (hk : Kept s t) : Ready t :=
  ⟨fun name hname => hk.tools ▸ h.equipped name hname, hk.funs ▸ h.free⟩

variable {call : Cmd → State Machine → Flow × State Machine} {ws : Words} {out : Text}

omit [Deps] in
theorem Ready.there (h : Ready s) (tool : Tool) : (s.sys.tools tool.name).isSome = true := by
  obtain ⟨name, hname, heq⟩ := name_mem tool
  exact heq ▸ h.equipped name hname

theorem Ready.invoke_tool (h : Ready s) (hwords : ws.texts? s = some (tool.name :: args)) :
    exec system call (.simple ws) s = Shell.runProgram system (tool.name :: args) s := by
  have hfree := h.free tool.name (Or.inl (by rw [ofName_name]; rfl))
  rw [Shell.exec_simple hwords, Shell.invoke, hfree, builtin_name]

theorem Ready.does_tool (call) (h : Ready s) (hwords : ws.texts? s = some (tool.name :: args))
    (hfilter : tool.isFilter = false)
    (hoptions : tool.options.isPrefixOf args = true) (hinput : tool.run s.sys s.input args = tool.run s.sys [] args) :
    Ends (Does s (tool.mayFail args) (effectOf s.sys tool args)) (exec system call (.simple ws) s) := by
  rw [h.invoke_tool hwords]
  exact does_runTool (ofName_name tool) (h.there tool) hfilter hoptions hinput

theorem Ready.ends_filter (call) (h : Ready s) (hwords : ws.texts? s = some (tool.name :: args))
    (hfilter : tool.isFilter = true)
    (hoptions : tool.options.isPrefixOf args = true) (hrun : tool.run s.sys s.input args = some (out, s.sys)) :
    Ends (fun f t => t.sys.fs = s.sys.fs ∧
      (f = .killed ∧ ¬ Calm s ∧ Kept s t ∧ t.out = s.out ∨
        f = .next ∧ t.status = 0 ∧ Kept { s with input := [] } t ∧ t.out = s.out ++ out))
      (exec system call (.simple ws) s) := by
  rw [h.invoke_tool hwords]
  exact ends_runFilter (ofName_name tool) (h.there tool) hfilter hoptions hrun

theorem Ready.invoke_builtin (call) (h : Ready s) {name : Text} {b : Shell.Builtin} (hb : Shell.builtin name = some b)
    (hwords : ws.texts? s = some (name :: args)) : exec system call (.simple ws) s = Shell.runBuiltin system args s b := by
  have hfree := h.free name (Or.inr (by rw [hb]; rfl))
  rw [Shell.exec_simple hwords, Shell.invoke, hfree, hb]

/-- A test of one path. -/
theorem Ready.exec_isA (h : Ready s) {op name : String} {c : Char} (hop : op.toList = ['-', c])
    (hpath : s.param name.toList = some path) :
    exec system call (isA op name) s = (.next, s.ended (if s.sys.test c path then 0 else 1)) := by
  have hwords : (Shell.words [lit "[", lit op, arg name, lit "]"]).texts? s = some (['['] :: [['-', c], path, [']']]) := by
    simp [Shell.words, Shell.lit, Shell.arg, Words.texts?, Word.text?, hop, hpath]
  exact h.invoke_builtin call rfl hwords

theorem Ready.exec_isNoA (h : Ready s) {op name : String} {c : Char} (hop : op.toList = ['-', c])
    (hpath : s.param name.toList = some path) :
    exec system call (isNoA op name) s = (.next, s.ended (if s.sys.test c path then 1 else 0)) := by
  have hwords : (Shell.words [lit "[", lit "!", lit op, arg name, lit "]"]).texts? s =
      some (['['] :: [['!'], ['-', c], path, [']']]) := by
    simp [Shell.words, Shell.lit, Shell.arg, Words.texts?, Word.text?, hop, hpath]
  have htested : Shell.tested system s [['!'], ['-', c], path, [']']] = if s.sys.test c path then 1 else 0 := by
    show (if (! s.sys.test c path) = true then 0 else 1) = _
    cases s.sys.test c path <;> rfl
  rw [← htested]
  exact h.invoke_builtin call rfl hwords

/-- A line that begins with the number of the operation. -/
theorem Ready.exec_tell (h : Ready s) {what : String} {i : Text} (hi : s.param ['1'] = some i) :
    exec system call (tell what) s = (.next, (s.say (i ++ ' ' :: what.toList ++ ['\n'])).ended 0) := by
  have hwords : (Shell.words [lit "echo", .param ['1'] (.quoted (' ' :: what.toList) .nil)]).texts? s =
      some ("echo".toList :: [i ++ ' ' :: what.toList]) := by
    simp [Shell.words, Shell.lit, Words.texts?, Word.text?, hi]
  have hecho : Shell.echoed [i ++ ' ' :: what.toList] = i ++ ' ' :: what.toList ++ ['\n'] := by
    simp [Shell.echoed]
  rw [← hecho]
  exact h.invoke_builtin call rfl hwords

theorem Ready.exec_tellAndReturn (h : Ready s) {what : String} {i : Text} (hi : s.param ['1'] = some i) :
    exec system call (tellAndReturn what) s = (.ret, (s.say (i ++ ' ' :: what.toList ++ ['\n'])).ended 0) := by
  have hready : Ready ((s.say (i ++ ' ' :: what.toList ++ ['\n'])).ended 0) := ⟨h.equipped, h.free⟩
  have hwords : (Shell.words [lit "return", lit "0"]).texts? ((s.say (i ++ ' ' :: what.toList ++ ['\n'])).ended 0) =
      some ("return".toList :: [['0']]) := rfl
  have hreturn := hready.invoke_builtin call rfl hwords
  rw [tellAndReturn, Shell.exec, h.exec_tell hi]
  exact hreturn

theorem Ready.exec_exit (h : Ready s) (status : String) :
    exec system call (cmd [lit "exit", lit status]) s = (.exit, s.ended (Shell.statusOf [status.toList])) := by
  have hwords : (Shell.words [lit "exit", lit status]).texts? s = some ("exit".toList :: [status.toList]) :=
    Shell.texts?_cons (Shell.text?_lit _) (Shell.texts?_cons (Shell.text?_lit _) rfl)
  exact h.invoke_builtin call rfl hwords

/-! ### Hashes -/

omit [Deps] in
theorem textBytes_byteText (b : ByteArray) : textBytes (byteText b) = b := by
  have hbyte : ∀ x : UInt8, UInt8.ofNat (Char.ofNat x.toNat).toNat = x := by
    intro x
    have hx := x.toNat_lt
    rw [Char.toNat_ofNat, if_pos (Or.inl (by omega)), UInt8.ofNat_toNat]
  cases b with
  | mk data =>
    simp [textBytes, byteText, Function.comp_def, hbyte]

/-- The characters of a hash. -/
theorem isHex_of_mem_digest {b : ByteArray} {c : Char} (hc : c ∈ (MetaStore.digest b).toList) :
    c.isDigit = true ∨ ('a' ≤ c ∧ c ≤ 'f') := by
  have h := List.all_eq_true.mp (Deps.sha256Hex_digits b) c hc
  simpa using h

theorem not_mem_digest {b : ByteArray} {c : Char} (h : ¬ (c.isDigit = true ∨ ('a' ≤ c ∧ c ≤ 'f'))) :
    c ∉ (MetaStore.digest b).toList := fun hc => h (isHex_of_mem_digest hc)

omit [Deps] in
theorem trimNewlines_line {l : Text} (h : '\n' ∉ l) : Text.trimNewlines (l ++ ['\n']) = l := by
  have hself : Text.trimNewlines l = l := by
    rw [Text.trimNewlines, List.rdropWhile_eq_self_iff]
    intro hne
    have hlast : l.getLast hne ≠ '\n' := fun heq => h (heq ▸ List.getLast_mem hne)
    simpa using hlast
  exact (Text.trimNewlines_append_replicate l 1).trans hself

theorem firstFields_digest (b : ByteArray) :
    firstFields ((MetaStore.digest b).toList ++ "  -\n".toList) = (MetaStore.digest b).toList ++ ['\n'] := by
  have hspace : ' ' ∉ (MetaStore.digest b).toList := not_mem_digest (by decide)
  have hnewline : '\n' ∉ (MetaStore.digest b).toList := not_mem_digest (by decide)
  have hne : ∀ c ∈ (MetaStore.digest b).toList, c ≠ ' ' ∧ c ≠ '\n' := fun c hc =>
    ⟨fun h => hspace (h ▸ hc), fun h => hnewline (h ▸ hc)⟩
  have hline : '\n' ∉ (MetaStore.digest b).toList ++ "  -".toList := by
    simp only [List.mem_append, not_or]
    exact ⟨hnewline, by decide⟩
  have htext : (MetaStore.digest b).toList ++ "  -\n".toList =
      (MetaStore.digest b).toList ++ "  -".toList ++ '\n' :: [] := by
    simp
  have htake : ((MetaStore.digest b).toList ++ "  -".toList ++ ['\n']).takeWhile (fun c => c != ' ' && c != '\n') =
      (MetaStore.digest b).toList := by
    have hpos : ∀ c ∈ (MetaStore.digest b).toList, (c != ' ' && c != '\n') = true := fun c hc => by simp [hne c hc]
    rw [List.append_assoc, List.takeWhile_append_of_pos hpos]
    exact List.append_nil _
  rw [htext, firstFields, Text.splitInclusive_line hline, List.flatMap_cons, htake]
  exact List.append_nil _

omit [Deps] in
theorem kept_out (s : State Machine) (out : Text) : Kept s { s with out } := ⟨rfl, rfl, rfl, rfl, rfl, fun h => h⟩

omit [Deps] in
theorem kept_ended (s : State Machine) (status : Nat) : Kept s (s.ended status) := ⟨rfl, rfl, rfl, rfl, rfl, fun h => h⟩

variable {owner : Owner} {mode : Nat} {content : ByteArray}

omit [Deps] in
theorem content_of_file (h : m.fs path = .file owner mode content) : m.content path = some content := by
  rw [Machine.content, nodeAt_of_plain (by simp [h]), h]

/-- The hash of a file, which nothing else is done to. -/
theorem Ready.ends_hashOf (call) (h : Ready s) (hpath : s.param ['1'] = some path)
    (hfile : s.sys.fs path = .file owner mode content) :
    Ends (fun f t => Kept s t ∧ t.sys.fs = s.sys.fs ∧
      (f = .killed ∧ ¬ Calm s ∧ t.out = s.out ∨
        f = .next ∧ t.status = 0 ∧ t.out = s.out ++ ((MetaStore.digest content).toList ++ ['\n'])))
      (exec system call hashOf s) := by
  have hready : Ready { s with out := [] } := h.kept (kept_out s [])
  have hread : system.read s.sys path = some (byteText content) := by
    show (s.sys.content path).map byteText = _
    rw [content_of_file hfile, Option.map_some]
  have hsum : Tool.sha256sum.run s.sys (byteText content) [] =
      some ((MetaStore.digest content).toList ++ "  -\n".toList, s.sys) := by
    rw [Tool.run, textBytes_byteText]
  have hfirst : Ends (fun f t => Kept s t ∧ t.sys.fs = s.sys.fs ∧
      (f = .killed ∧ ¬ Calm s ∨ f = .next ∧ t.out = (MetaStore.digest content).toList ++ "  -\n".toList))
      (exec system call (.input (arg "1") (cmd [lit "sha256sum"])) { s with out := [] }) := by
    have hinner : Ready { s with out := [], input := byteText content } := ⟨h.equipped, h.free⟩
    have hwords : (Shell.words [lit "sha256sum"]).texts? { s with out := [], input := byteText content } =
        some (Tool.sha256sum.name :: []) := rfl
    have hfilter := hinner.ends_filter call hwords rfl rfl hsum
    have hword : (arg "1").text? { s with out := [] } = some path := by
      have hparam : ({ s with out := [] } : State Machine).param ['1'] = some path := hpath
      simp [arg, Word.text?, hparam]
    refine Ends.input hword hread hfilter fun f t ht => ?_
    obtain ⟨hfs, ⟨hf, hwild, hk, -⟩ | ⟨hf, -, hk, hout⟩⟩ := ht
    · exact ⟨⟨hk.args, hk.funs, rfl, hk.tools, hk.turns, hk.calm⟩, hfs, Or.inl ⟨hf, hwild⟩⟩
    · exact ⟨⟨hk.args, hk.funs, rfl, hk.tools, hk.turns, hk.calm⟩, hfs, Or.inr ⟨hf, hout⟩⟩
  refine Ends.pipe hfirst (fun t ht => ?_) fun f t hf ht => ?_
  · obtain ⟨hk, hfs, ⟨-, hwild⟩ | ⟨hf, -⟩⟩ := ht
    · exact ⟨⟨rfl, rfl, hk.input, hk.tools, hk.turns, hk.calm⟩, hfs, Or.inl ⟨rfl, hwild, rfl⟩⟩
    · cases hf
  · obtain ⟨hk, hfs, ⟨hkilled, -⟩ | ⟨-, hout⟩⟩ := ht
    · exact absurd hkilled hf
    have hsecond : Ready { s.captured t with input := t.out } :=
      ⟨fun name hname => hk.tools ▸ h.equipped name hname, h.free⟩
    have hcut : Tool.cut.run t.sys t.out ["-d ".toList, "-f1".toList] =
        some ((MetaStore.digest content).toList ++ ['\n'], t.sys) := by
      rw [Tool.run, hout, firstFields_digest]
    have hwords : (Shell.words [lit "cut", .plain "-d".toList (.quoted [' '] .nil), lit "-f1"]).texts?
        { s.captured t with input := t.out } = some (Tool.cut.name :: ["-d ".toList, "-f1".toList]) := rfl
    have hfilter := hsecond.ends_filter call hwords rfl (by decide) hcut
    refine hfilter.mono fun g u hu => ?_
    obtain ⟨hfs', ⟨rfl, hwild, hk', hout'⟩ | ⟨rfl, hstatus, hk', hout'⟩⟩ := hu
    · exact ⟨⟨rfl, rfl, hk.input, hk'.tools.trans hk.tools, hk'.turns.trans hk.turns,
        fun hs => hk'.calm (hk.calm hs)⟩, hfs'.trans hfs, Or.inl ⟨rfl, fun hs => hwild (hk.calm hs), hout'⟩⟩
    · exact ⟨⟨rfl, rfl, hk.input, hk'.tools.trans hk.tools, hk'.turns.trans hk.turns,
        fun hs => hk'.calm (hk.calm hs)⟩, hfs'.trans hfs, Or.inr ⟨rfl, hstatus, hout'⟩⟩

variable {depth : Nat}

/-- What `h` writes of a file, in a shell whose functions can still call one another. -/
theorem Ready.ends_h (depth) (h : Ready s) (hfun : Assoc.get? ['h'] s.funs = some hashOf)
    (hpath : s.param ['2'] = some path) (hfile : s.sys.fs path = .file owner mode content) :
    Ends (fun f t => Kept s t ∧ t.sys.fs = s.sys.fs ∧
      (f = .killed ∧ ¬ Calm s ∨ f = .next ∧ t.out = (MetaStore.digest content).toList ++ ['\n']))
      (exec system (Shell.calls system (depth + 1)) (cmd [lit "h", arg "2"]) { s with out := [] }) := by
  have hparam : ({ s with out := [] } : State Machine).param ['2'] = some path := hpath
  have hwords : (Shell.words [lit "h", arg "2"]).texts? { s with out := [] } = some [['h'], path] := by
    simp [Shell.words, lit, arg, Words.texts?, Word.text?, hparam]
  have hready : Ready { s with out := [], args := [path] } := ⟨h.equipped, h.free⟩
  have hhash := hready.ends_hashOf (Shell.calls system depth) rfl hfile
  have hinvoke : Shell.invoke system (Shell.calls system (depth + 1)) [['h'], path] { s with out := [] } =
      Shell.callFunction (Shell.calls system (depth + 1)) hashOf [path] { s with out := [] } := by
    simp only [Shell.invoke, hfun]
  have hcall : Shell.calls system (depth + 1) hashOf { s with out := [], args := [path] } =
      exec system (Shell.calls system depth) hashOf { s with out := [], args := [path] } := rfl
  rw [cmd, Shell.exec_simple hwords, hinvoke, Shell.callFunction]
  dsimp only
  rw [hcall]
  rcases hexec : exec system (Shell.calls system depth) hashOf { s with out := [], args := [path] } with ⟨f, t⟩
  rw [hexec] at hhash
  obtain ⟨hk, hfs, ⟨rfl, hwild, -⟩ | ⟨rfl, -, hout⟩⟩ := hhash
  · exact ⟨⟨rfl, hk.funs, hk.input, hk.tools, hk.turns, hk.calm⟩, hfs, Or.inl ⟨rfl, hwild⟩⟩
  · exact ⟨⟨rfl, hk.funs, hk.input, hk.tools, hk.turns, hk.calm⟩, hfs, Or.inr ⟨rfl, hout⟩⟩

/-- The hash of a file is compared with the one that is expected. -/
theorem Ready.ends_hashDiffers (h : Ready s) (hfun : Assoc.get? ['h'] s.funs = some hashOf)
    (hpath : s.param ['2'] = some path)
    (hfile : s.sys.fs path = .file owner mode content) {name : String} {e : Text} (he : s.param name.toList = some e) :
    Ends (fun f t => Kept s t ∧ t.sys.fs = s.sys.fs ∧ t.out = s.out ∧
      (f = .killed ∧ ¬ Calm s ∨ f = .next ∧ (t.status = 0 ↔ (MetaStore.digest content).toList ≠ e)))
      (exec system (Shell.calls system (depth + 1)) (hashDiffers name) s) := by
  have hbracket : Shell.expand system (Shell.calls system (depth + 1)) (lit "[") s = (.ok ['['], s) :=
    Shell.expand_of_text? rfl
  rw [hashDiffers, cmd, Shell.words, Shell.words, exec, Shell.expandAll, hbracket]
  dsimp only
  rw [Shell.expandAll]
  rcases Shell.expand_output (h.ends_h depth hfun hpath hfile) with ⟨t, ht, hexpand⟩ | ⟨f, t, hf, ht, hexpand⟩
  · rw [hexpand]
    obtain ⟨hk, hfs, ⟨-, hwild⟩ | ⟨hf, -⟩⟩ := ht
    · exact ⟨⟨rfl, rfl, hk.input, hk.tools, hk.turns, hk.calm⟩, hfs, rfl, Or.inl ⟨rfl, hwild⟩⟩
    · cases hf
  · rw [hexpand]
    obtain ⟨hk, hfs, ⟨hkilled, -⟩ | ⟨-, hout⟩⟩ := ht
    · exact absurd hkilled hf
    have hk' : Kept s (s.captured t) := ⟨rfl, rfl, hk.input, hk.tools, hk.turns, hk.calm⟩
    have hrest : (Shell.words [lit "!=", arg name, lit "]"]).texts? (s.captured t) =
        some [['!', '='], e, [']']] := by
      have hparam : (s.captured t).param name.toList = some e := he
      simp [Shell.words, lit, arg, Words.texts?, Word.text?, hparam]
    have hready := h.kept hk'
    have hfree := hready.free ['['] (Or.inr rfl)
    have hinvoke : Shell.invoke system (Shell.calls system (depth + 1))
        [['['], (MetaStore.digest content).toList, ['!', '='], e, [']']] (s.captured t) =
          (.next, State.ended (s.captured t)
            (Shell.tested system (s.captured t) [(MetaStore.digest content).toList, ['!', '='], e, [']']])) := by
      rw [Shell.invoke, hfree]
      rfl
    dsimp only
    rw [Shell.expandAll_of_texts? hrest, hout, trimNewlines_line (not_mem_digest (by decide))]
    dsimp only
    rw [hinvoke, Shell.tested_ne]
    refine ⟨hk'.trans (kept_ended _ _), hfs, rfl, Or.inr ⟨rfl, ?_⟩⟩
    show (if (MetaStore.digest content).toList ≠ e then 0 else 1) = 0 ↔ _
    simp

end Guest
end PveMeta
