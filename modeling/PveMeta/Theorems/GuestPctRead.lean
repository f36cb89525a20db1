import PveMeta.Theorems.GuestPctProbe

/-! # The manifest, read over `pct exec`

The call that reads the manifest gives its content, if it is a file: nobody but the daemon changes it while the call runs,
so that what is tested is what is read. -/

namespace PveMeta
namespace Guest

open Shell (State Flow Cmd Ends exec lit arg cmd)
open Choices (andThen Goes Stops Comes)

variable [Deps] {m : Machine} {fair : Prop} {s t : State Machine} {fs : Fs} {o : Option Fs} {depth n : Nat} {path : Text}
  {owner : Owner} {mode : Nat} {content : ByteArray}

/-! ### The step -/

omit [Deps] in
theorem edited_manifest (fs : Fs) (o : Option Fs) : edited fs o manifestPath = fs manifestPath := by
  cases o with
  | none => rfl
  | some fs' =>
    show (if manifestPath = manifestPath then fs manifestPath else fs' manifestPath) = _
    exact if_pos rfl

section

variable {max : Nat}

omit [Deps] in
theorem call_ok {w : World} {rest : List Turn} (hw : w.fs = fs) (hturns : w.turns = ⟨o, .none⟩ :: rest) :
    w.call = (.ok (), ⟨edited fs o, rest, w.log⟩) := by
  rw [World.call, turn_eq hturns, ← hw]
  rfl

omit [Deps] in
theorem read_stops {fault : Fault} (h : fault ≠ .none) :
    Stops frame Agree (World.read · manifestPath max) fs [⟨o, fault⟩] (edited fs o) := by
  intro w rest hw hturns
  obtain ⟨e, w', hcall, hfs⟩ := call_stops h w rest hw hturns
  refine ⟨e, w', ?_, hfs⟩
  dsimp only
  rw [World.read, hcall]

omit [Deps] in
theorem read_none (h : ¬ IsFile (fs manifestPath)) :
    Goes frame (World.read · manifestPath max) fs [⟨o, .none⟩] none (edited fs o) := by
  intro w rest hw hturns
  refine ⟨⟨edited fs o, rest, w.log⟩, ?_, rfl, rfl⟩
  dsimp only
  rw [World.read, call_ok hw hturns]
  dsimp only
  rw [edited_manifest]
  cases hnode : fs manifestPath with
  | file owner mode content => exact absurd ⟨owner, mode, content, hnode⟩ h
  | _ => rfl

omit [Deps] in
theorem read_file (hfile : fs manifestPath = .file owner mode content) {w : World} {rest : List Turn} (hw : w.fs = fs)
    (hturns : w.turns = ⟨o, .none⟩ :: rest) : w.read manifestPath max = if content.size > max then
        (.error (String.ofList manifestPath ++ " is above " ++ toString max ++ " bytes"), ⟨edited fs o, rest, w.log⟩)
      else (.ok (some content), ⟨edited fs o, rest, w.log⟩) := by
  rw [World.read, call_ok hw hturns]
  dsimp only
  rw [edited_manifest, hfile]

omit [Deps] in
theorem read_small (hfile : fs manifestPath = .file owner mode content) (hsize : ¬ content.size > max) :
    Goes frame (World.read · manifestPath max) fs [⟨o, .none⟩] (some content) (edited fs o) := by
  intro w rest hw hturns
  exact ⟨⟨edited fs o, rest, w.log⟩, (read_file hfile hw hturns).trans (if_neg hsize), rfl, rfl⟩

omit [Deps] in
theorem read_large (hfile : fs manifestPath = .file owner mode content) (hsize : content.size > max) :
    Stops frame Agree (World.read · manifestPath max) fs [⟨o, .none⟩] (edited fs o) := by
  intro w rest hw hturns
  exact ⟨_, ⟨edited fs o, rest, w.log⟩, (read_file hfile hw hturns).trans (if_pos hsize), Agree.refl _⟩

end

/-! ### The script -/

omit [Deps] in
theorem size_textBytes (t : Text) : (textBytes t).size = t.length := by
  rw [textBytes, ByteArray.size, List.size_toArray, List.length_map]

omit [Deps] in
theorem length_byteText (b : ByteArray) : (byteText b).length = b.size := by
  rw [byteText, List.length_map, Array.length_toList]
  rfl

/-- `[ -L '<path>' ] || [ ! -f '<path>' ]` -/
theorem Ready.exec_noFile (call) (h : Ready s) (path : Text) :
    ∃ k, exec system call (.or (cmd [lit "[", lit "-L", quotedWord path, lit "]"])
      (cmd [lit "[", lit "!", lit "-f", quotedWord path, lit "]"])) s = (.next, s.ended k) ∧ (k = 0 ↔
        ¬ IsFile (s.sys.fs path)) := by
  have hlinkWords (s : State Machine) : (Shell.words [lit "[", lit "-L", quotedWord path, lit "]"]).texts? s =
      some (['['] :: [['-', 'L'], path, [']']]) := by
    simp [Shell.words, Shell.lit, quotedWord, Shell.Words.texts?, Shell.Word.text?]
  have hfileWords (s : State Machine) : (Shell.words [lit "[", lit "!", lit "-f", quotedWord path, lit "]"]).texts? s =
      some (['['] :: [['!'], ['-', 'f'], path, [']']]) := by
    simp [Shell.words, Shell.lit, quotedWord, Shell.Words.texts?, Shell.Word.text?]
  have hlink : exec system call (cmd [lit "[", lit "-L", quotedWord path, lit "]"]) s =
      (.next, s.ended (if s.sys.test 'L' path then 0 else 1)) := h.invoke_builtin (b := .test) call rfl (hlinkWords s)
  have hfile (j : Nat) : exec system call (cmd [lit "[", lit "!", lit "-f", quotedWord path, lit "]"]) (s.ended j) =
      (.next, (s.ended j).ended (if s.sys.test 'f' path then 1 else 0)) := by
    have htested : Shell.tested system (s.ended j) [['!'], ['-', 'f'], path, [']']] =
        if s.sys.test 'f' path then 1 else 0 := by
      show (if (! s.sys.test 'f' path) = true then 0 else 1) = _
      cases s.sys.test 'f' path <;> rfl
    rw [← htested]
    exact (h.kept (kept_ended s j)).invoke_builtin (b := .test) call rfl (hfileWords _)
  exact ⟨_, Shell.exec_or_ended hlink (hfile _), status_noFile s.sys path⟩

/-- The script ends here, unless there is a file. -/
theorem Ready.exec_unlessFile (call) (h : Ready s) (path : Text) :
    IsFile (s.sys.fs path) ∧ exec system call (orSkip (.or (cmd [lit "[", lit "-L", quotedWord path, lit "]"])
        (cmd [lit "[", lit "!", lit "-f", quotedWord path, lit "]"])) (cmd [lit "exit", lit "3"])) s = (.next, s.ended 0) ∨
      ¬ IsFile (s.sys.fs path) ∧ exec system call (orSkip (.or (cmd [lit "[", lit "-L", quotedWord path, lit "]"])
        (cmd [lit "[", lit "!", lit "-f", quotedWord path, lit "]"])) (cmd [lit "exit",
          lit "3"])) s = (.exit, s.ended 3) := by
  obtain ⟨j, hexec, hj⟩ := h.exec_noFile call path
  rw [orSkip, exec, hexec]
  by_cases hzero : j = 0
  · exact Or.inr ⟨hj.mp hzero, (if_pos hzero).trans ((h.kept (kept_ended s j)).exec_exit "3")⟩
  · exact Or.inl ⟨not_not.mp (mt hj.mpr hzero), (if_neg hzero).trans (Shell.exec_skip system call _)⟩

/-- `exec head -c <max + 1> '<path>'`, of a file -/
theorem Ready.ends_execHead (call) (h : Ready s) (n : Nat) (hfile : s.sys.fs path = .file owner mode content) :
    Ends (fun f t => Kept s t ∧ t.sys.fs = s.sys.fs ∧
      (f = .killed ∧ ¬ Calm s ∨ f = .exit ∧ t.status = 1 ∧ ¬ Calm s ∨
        f = .exit ∧ t.status = 0 ∧ t.out = s.out ++ (byteText content).take n))
      (exec system call (cmd [lit "exec", lit "head", lit "-c", plainWord (Nat.toDigits 10 n), quotedWord path]) s) := by
  have hwords : (Shell.words [lit "exec", lit "head", lit "-c", plainWord (Nat.toDigits 10 n), quotedWord path]).texts? s =
      some ("exec".toList :: [Tool.head.name, "-c".toList, Nat.toDigits 10 n, path]) :=
    Shell.texts?_cons (Shell.text?_lit _) (Shell.texts?_cons (Shell.text?_lit _) (Shell.texts?_cons (Shell.text?_lit _)
      (Shell.texts?_cons (text?_plainWord _) (Shell.texts?_cons (Shell.text?_quoted _) rfl))))
  have hexec : exec system call (cmd [lit "exec", lit "head", lit "-c", plainWord (Nat.toDigits 10 n), quotedWord path]) s =
      Shell.runBuiltin system [Tool.head.name, "-c".toList, Nat.toDigits 10 n, path] s .exec :=
    h.invoke_builtin call rfl hwords
  have heffect : effectOf s.sys .head ["-c".toList, Nat.toDigits 10 n, path] =
      some ((byteText content).take n, s.sys.fs) := by
    rw [effectOf, Tool.run, content_of_file hfile]
    rw [Nat.ofDigitChars_ten_toDigits]
    rfl
  have hdoes : Ends (Does s (Tool.head.mayFail ["-c".toList, Nat.toDigits 10 n, path])
      (effectOf s.sys .head ["-c".toList, Nat.toDigits 10 n, path]))
      (Shell.runProgram system (Tool.head.name :: ["-c".toList, Nat.toDigits 10 n, path]) s) :=
    does_runTool (ofName_name .head) (h.there .head) rfl rfl rfl
  rw [heffect] at hdoes
  rw [hexec, Shell.runBuiltin]
  generalize Shell.runProgram system (Tool.head.name :: ["-c".toList, Nat.toDigits 10 n, path]) s = r at hdoes
  obtain ⟨f, t⟩ := r
  cases hdoes with
  | killed hk hwild hf _ files =>
    have hfs : t.sys.fs = s.sys.fs := by
      rcases files with hfs | ⟨e, he, hfs⟩
      · exact hfs
      · cases he
        exact hfs
    obtain rfl : f = .killed := hf
    exact ⟨hk, hfs, Or.inl ⟨rfl, hwild⟩⟩
  | failed hk why hf _ _ hfs hcode =>
    obtain rfl : f = .next := hf
    exact ⟨hk, hfs, Or.inr (Or.inl ⟨rfl, hcode, (why.resolve_left (by simp)).2⟩)⟩
  | worked hk hf hstatus e he hout hfs =>
    cases he
    obtain rfl : f = .next := hf
    exact ⟨hk, hfs, Or.inr (Or.inr ⟨rfl, hstatus, hout⟩)⟩

/-- How the script that reads the manifest ends: there is no file, or it is written out, or there is no answer. -/
inductive Reads (m : Machine) (fair : Prop) (max : Nat) (f : Flow) (t : State Machine) : Prop where
  | nothing (flow : f = .exit) (status : t.status = 3) (turns : t.sys.turns ⊆ m.turns)
      (calm : m.fates = [] → t.sys.fates = [])
      (file : ¬ IsFile (m.fs manifestPath))
  | told (owner : Owner) (mode : Nat) (content : ByteArray) (flow : f = .exit) (status : t.status = 0)
      (turns : t.sys.turns ⊆ m.turns)
      (calm : m.fates = [] → t.sys.fates = []) (file : m.fs manifestPath = .file owner mode content)
      (out : t.out = (byteText content).take (max + 1))
  | ceased (stopped : f = .killed ∨ t.status ≠ 0 ∧ t.status ≠ 3) (unfair : ¬ fair)

/-- The files are only what the others made of them. -/
structure Edited (m : Machine) (t : State Machine) : Prop where
  tools : t.sys.tools = m.tools
  files : ∃ o, (o = none ∨ o ∈ m.turns) ∧ t.sys.fs = edited m.fs o

omit [Deps] in
theorem mem_orElse {o o' : Option Fs} (h : o = none ∨ o ∈ m.turns) (h' : o' = none ∨ o' ∈ m.turns) :
    (o' <|> o) = none ∨ (o' <|> o) ∈ m.turns := by
  cases o' with
  | none => exact h
  | some => exact h'

omit [Deps] in
theorem length_readScript (path : Text) (max : Nat) : 8 ≤ (readScript path max).length :=
  length_scriptPrelude.trans (List.prefix_append scriptPrelude _).length_le

theorem ends_readScript {max : Nat} (hscript : Shell.Script (readScript manifestPath max) (readCommands manifestPath max))
    (hfair : fair → m.fates = [] ∧ Equipped m) (fates : List CallFate) (hcalm : m.fates = [] → fates = []) :
    Ends (fun f t => Edited m t ∧ Reads m fair max f t)
      (Shell.runScript system Machine.turn shellDepth (readScript manifestPath max) { m with fates }) := by
  obtain ⟨k, hk⟩ := Nat.exists_eq_add_of_le (length_readScript manifestPath max)
  have hfuel : (readScript manifestPath max).length + 1 = List.length (α := Text × Cmd) [] + (k + 3 + 1 + 1) + 4 := by
    rw [List.length_nil]
    omega
  rw [Shell.runScript, hfuel]
  refine ends_script hcalm hscript (fun t o ht hfs ho hout hs => ?_) fun t o hnot hstatus hfs ho htools => ?_
  · obtain ⟨u, hu, hrun⟩ := hs.run (S := system) (n := k + 3 + 1)
    obtain ⟨o₁, ho₁⟩ := turned_turn t.sys
    have hgoing₁ : Going m [] { t with input := u, sys := t.sys.turn } := ht.turned u ho₁
    have hmem₁ := mem_orElse ho (ho₁.mem.imp_right fun hx => ht.turns hx)
    have hfs₁ : t.sys.turn.fs = edited m.fs (o₁ <|> o) := by rw [ho₁.files, hfs, edited_edited]
    have hnode₁ : t.sys.turn.fs manifestPath = m.fs manifestPath := by rw [hfs₁, edited_manifest]
    rcases (hgoing₁.ready fun name hname => absurd hname List.not_mem_nil).exec_unlessFile (Shell.calls system shellDepth)
        manifestPath with
      ⟨hfile, htest⟩ | ⟨hfile, htest⟩
    · refine hrun (fun f v => f = .next ∧ v = _) _ (by rw [htest]; exact ⟨rfl, rfl⟩) (fun v hv => ?_) fun f v hf hv =>
        absurd hv.1 hf
      obtain ⟨-, rfl⟩ := hv
      obtain ⟨owner, mode, content, hfile⟩ := hfile
      rw [hnode₁] at hfile
      obtain ⟨u', -, hrun'⟩ :=
        Shell.Script.run (S := system) (s := ({ t with input := u, sys := t.sys.turn } : State Machine).ended 0)
        (n := k + 3) hu
      obtain ⟨o₂, ho₂⟩ := turned_turn t.sys.turn
      have hgoing₂ : Going m [] ({ t with input := u', sys := t.sys.turn.turn, status := 0 } : State Machine) :=
        (hgoing₁.kept (kept_ended _ 0) rfl).turned u' ho₂
      have hmem₂ := mem_orElse hmem₁ (ho₂.mem.imp_right fun hx => hgoing₁.turns hx)
      have hfs₂ : t.sys.turn.turn.fs = edited m.fs (o₂ <|> (o₁ <|> o)) := by rw [ho₂.files, hfs₁, edited_edited]
      have hfile₂ : t.sys.turn.turn.fs manifestPath = .file owner mode content := by rw [hfs₂, edited_manifest, hfile]
      have hready₂ := hgoing₂.ready fun name hname => absurd hname List.not_mem_nil
      refine hrun' _ _ (hready₂.ends_execHead _ (max + 1) hfile₂) (fun v hv => ?_) fun f v _ hv => ?_
      · obtain ⟨-, -, ⟨hkilled, -⟩ | ⟨hexit, -⟩ | ⟨hexit, -⟩⟩ := hv
        · cases hkilled
        · cases hexit
        · cases hexit
      · obtain ⟨hk, hsame, hend⟩ := hv
        have hedited : Edited m v := ⟨hk.tools.trans hgoing₂.tools, _, hmem₂, hsame.trans hfs₂⟩
        have hunfair (hwild : ¬ Calm ({ t with input := u', sys := t.sys.turn.turn, status := 0 } : State Machine)) :
            ¬ fair :=
          fun hf => hwild (hgoing₂.calm (hfair hf).1)
        refine ⟨hedited, ?_⟩
        rcases hend with ⟨hkilled, hwild⟩ | ⟨-, hcode, hwild⟩ | ⟨hexit, hstatus, hsaid⟩
        · exact .ceased (Or.inl hkilled) (hunfair hwild)
        · exact .ceased (Or.inr (by rw [hcode]; decide)) (hunfair hwild)
        · refine .told owner mode content hexit hstatus (hk.turns ▸ hgoing₂.turns) (fun hm => hk.calm (hgoing₂.calm hm))
            hfile ?_
          rw [hsaid]
          show t.out ++ _ = _
          rw [hout, List.nil_append]
    · refine hrun (fun f v => f = .exit ∧ v = _) _ (by rw [htest]; exact ⟨rfl, rfl⟩) (fun v hv => by cases hv.1)
        fun f v _ hv => ?_
      obtain ⟨rfl, rfl⟩ := hv
      exact ⟨⟨hgoing₁.tools, _, hmem₁, hfs₁⟩, .nothing rfl rfl hgoing₁.turns hgoing₁.calm (hnode₁ ▸ hfile)⟩
  · exact ⟨⟨htools, o, ho, hfs⟩, .ceased (Or.inr (by rw [hstatus]; decide)) fun hf => hnot (hfair hf).2⟩

/-! ### The call that reads -/

variable [RustDebug]

/-- A read of the manifest over `pct exec` is a read of the guest. -/
theorem read_refines_of {max : Nat} (hscript : Shell.Script (readScript manifestPath max) (readCommands manifestPath max))
    (vmid : UInt32) :
    Refines m (Fair (readScript manifestPath max) m) (World.read · manifestPath max)
      (Pct.read vmid manifestPath max m) := by
  have hfair (hf : Fair (readScript manifestPath max) m) : m.fates = [] ∧ Equipped m := ⟨hf.calm, hf.equipped⟩
  have hcalled := called fun fates hcalm => ends_readScript hscript hfair fates hcalm
  have hfailed {e : String} {m' : Machine} {o : Option Fs} (htools : m'.tools = m.tools)
      (ho : o = none ∨ o ∈ m.turns) (hfs : m'.fs = edited m.fs o) (hnot : ¬ Fair (readScript manifestPath max) m) :
      Refines m (Fair (readScript manifestPath max) m) (World.read · manifestPath max) (.error e, m') := by
    refine ⟨?_, htools, fun _ h => (nomatch h), fun _ h => nomatch h⟩
    have hstops : Stops frame Agree (World.read · manifestPath max) m.fs [⟨o, .cut⟩] m'.fs := hfs ▸ read_stops (by simp)
    exact .error _ (Choices.forall_mem_single ⟨ho, fun hf => absurd hf hnot⟩) hstops
  unfold Pct.read
  generalize Pct.exec (readScript manifestPath max) m = r at hcalled
  obtain ⟨r, m'⟩ := r
  dsimp only at hcalled ⊢
  cases hcalled with
  | answered f t hends hf =>
    obtain ⟨⟨htools, o, ho, hfs⟩, hreads⟩ := hends
    have hallowed : ∀ k ∈ [⟨o, .none⟩], Allowed m (Fair (readScript manifestPath max) m) k :=
      Choices.forall_mem_single (Allowed.none o ho)
    dsimp only
    cases hreads with
    | nothing _ hstatus hturns hcalm hfile =>
      rw [if_neg (by rw [hstatus]; decide), if_pos hstatus]
      have hgoes : Goes frame (World.read · manifestPath max) m.fs [⟨o, .none⟩] none t.sys.fs := hfs ▸ read_none hfile
      exact ⟨.ok _ hallowed hgoes, htools, fun _ _ => hturns, fun _ _ => hcalm⟩
    | told owner mode content _ hstatus hturns hcalm hfile hout =>
      rw [if_pos hstatus, size_textBytes, hout, List.length_take, length_byteText]
      by_cases hsize : content.size > max
      · have hstops : Stops frame Agree (World.read · manifestPath max) m.fs [⟨o, .none⟩] t.sys.fs :=
          hfs ▸ read_large hfile hsize
        rw [if_pos (by omega)]
        exact ⟨.error _ hallowed hstops, htools, fun _ h => (nomatch h), fun _ h => nomatch h⟩
      · have hall : (byteText content).take (max + 1) = byteText content :=
          List.take_of_length_le (by rw [length_byteText]; omega)
        have hgoes : Goes frame (World.read · manifestPath max) m.fs [⟨o, .none⟩] (some content) t.sys.fs :=
          hfs ▸ read_small hfile hsize
        rw [if_neg (by omega), hall, textBytes_byteText]
        exact ⟨.ok _ hallowed hgoes, htools, fun _ _ => hturns, fun _ _ => hcalm⟩
    | ceased hstopped hnot =>
      obtain ⟨hzero, hthree⟩ := hstopped.resolve_left hf
      rw [if_neg hzero, if_neg hthree]
      exact hfailed htools ho hfs hnot
  | lost e f t hends hwhy =>
    obtain ⟨⟨htools, o, ho, hfs⟩, hreads⟩ := hends
    refine hfailed htools ho hfs ?_
    cases hreads with
    | nothing hflow => exact hwhy.resolve_left (by simp [hflow])
    | told _ _ _ hflow => exact hwhy.resolve_left (by simp [hflow])
    | ceased _ hnot => exact hnot
  | never r m' hnot hsame hstatus =>
    have htools : m'.tools = m.tools := by rw [hsame]
    have hfs : m'.fs = edited m.fs none := by rw [hsame]; rfl
    cases r with
    | error e => exact hfailed htools (Or.inl rfl) hfs hnot
    | ok out =>
      have hcode := hstatus out rfl
      dsimp only
      rw [if_neg (by rw [hcode]; decide), if_neg (by rw [hcode]; decide)]
      exact hfailed htools (Or.inl rfl) hfs hnot

theorem read_refines (vmid : UInt32) : Refines m (Fair (readScript manifestPath Manifest.maxBytes) m)
    (World.read · manifestPath Manifest.maxBytes) (Pct.read vmid manifestPath Manifest.maxBytes m) :=
  read_refines_of script_readManifest vmid

end Guest
end PveMeta
