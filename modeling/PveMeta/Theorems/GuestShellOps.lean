import PveMeta.Lib.Decimal
import PveMeta.Theorems.GuestCalm
import PveMeta.Theorems.GuestScript
import PveMeta.Theorems.GuestShell

/-! # What the functions of a commit do

`w`, `rmf` and `d`, from what their commands do: each does what the step of a commit does that has its name, with some
fault, and says so; or the script is killed in it, and of the files that are no temp files either all is as it was or all
is done. -/

namespace PveMeta
namespace Guest

open Shell (State Flow Cmd Ends Word Words exec lit arg cmd)

variable [Deps] {s t u : State Machine} {path temp : Text} {fs base : Fs}
    {call : Cmd → State Machine → Flow × State Machine}
  {content : ByteArray} {mode : Nat} {owner : Owner} {expect : Expect} {i : Text} {depth : Nat} {m : Machine}

/-! ### Files that are made -/

omit [Deps] in
theorem create_cases (umask : Nat) (h : m.fs temp = .missing ∨ m.fs temp = .dir) : ∃ fates, (m.fates = [] → fates = []) ∧
    ((m.fates ≠ [] ∧ ∃ fs, (∀ p, p ≠ temp → fs p = m.fs p) ∧
        m.create umask temp = (none, ⟨fs, m.tools, m.turns, fates⟩)) ∨
      ((m.fates ≠ [] ∨ m.fs temp = .dir ∨ creatable m.fs temp = false) ∧
        m.create umask temp = (some false, ⟨m.fs, m.tools, m.turns, fates⟩)) ∨
      (m.fs temp = .missing ∧ creatable m.fs temp = true ∧ m.create umask temp = (some true,
        ⟨Function.update m.fs temp (.file .root (0o666 - (0o666 &&& umask)) ⟨#[]⟩), m.tools, m.turns, fates⟩))) := by
  obtain ⟨fate, fates, hfate, hcalm⟩ := fate_eq m
  have hwild : fate ≠ .works → m.fates ≠ [] := fun hne hnil => hne (hcalm hnil).1
  refine ⟨fates, fun hnil => (hcalm hnil).2, ?_⟩
  unfold Machine.create
  rw [hfate]
  dsimp only
  rcases h with h | h
  · rw [h]
    dsimp only
    cases hhold : creatable m.fs temp with
    | true =>
      rw [if_pos rfl]
      cases fate with
      | works => exact Or.inr (Or.inr ⟨rfl, rfl, rfl⟩)
      | fails => exact Or.inr (Or.inl ⟨Or.inl (hwild (by simp)), rfl⟩)
      | killed => exact Or.inl ⟨hwild (by simp), m.fs, fun _ _ => rfl, rfl⟩
      | last => exact Or.inl ⟨hwild (by simp), _, fun p hp => Function.update_of_ne hp _ _, rfl⟩
    | false =>
      rw [if_neg (by simp)]
      cases fate with
      | works => exact Or.inr (Or.inl ⟨Or.inr (Or.inr rfl), rfl⟩)
      | fails => exact Or.inr (Or.inl ⟨Or.inr (Or.inr rfl), rfl⟩)
      | killed => exact Or.inl ⟨hwild (by simp), m.fs, fun _ _ => rfl, rfl⟩
      | last => exact Or.inl ⟨hwild (by simp), m.fs, fun _ _ => rfl, rfl⟩
  · rw [h]
    cases fate with
    | works => exact Or.inr (Or.inl ⟨Or.inr (Or.inl rfl), rfl⟩)
    | fails => exact Or.inr (Or.inl ⟨Or.inr (Or.inl rfl), rfl⟩)
    | killed => exact Or.inl ⟨hwild (by simp), m.fs, fun _ _ => rfl, rfl⟩
    | last => exact Or.inl ⟨hwild (by simp), m.fs, fun _ _ => rfl, rfl⟩

omit [Deps] in
theorem write_cases {old : ByteArray} (h : m.fs temp = .file owner mode old) (t : Text) :
    ∃ fates, (m.fates = [] → fates = []) ∧
    ((m.fates ≠ [] ∧ ∃ c, m.write temp t = (none,
        ⟨Function.update m.fs temp (.file owner mode c), m.tools, m.turns, fates⟩)) ∨
      (m.fates ≠ [] ∧ ∃ c, m.write temp t = (some false,
        ⟨Function.update m.fs temp (.file owner mode c), m.tools, m.turns, fates⟩)) ∨
      m.write temp t = (some true,
        ⟨Function.update m.fs temp (.file owner mode (textBytes t)), m.tools, m.turns, fates⟩)) := by
  obtain ⟨fate, fates, hfate, hcalm⟩ := fate_eq m
  have hwild : fate ≠ .works → m.fates ≠ [] := fun hne hnil => hne (hcalm hnil).1
  refine ⟨fates, fun hnil => (hcalm hnil).2, ?_⟩
  unfold Machine.write
  rw [hfate]
  dsimp only
  rw [h]
  cases fate with
  | works => exact Or.inr (Or.inr rfl)
  | fails err kept => exact Or.inr (Or.inl ⟨hwild (by simp), _, rfl⟩)
  | killed kept => exact Or.inl ⟨hwild (by simp), _, rfl⟩
  | last => exact Or.inl ⟨hwild (by simp), _, rfl⟩

omit [Deps] in
theorem decode_content (content : ByteArray) :
    Base64.decode ((base64 content ++ ['\n']).filter (· ≠ '\n')) = some content.data.toList := by
  rw [List.filter_append, filter_base64]
  have hnewline : ['\n'].filter (· ≠ '\n') = [] := rfl
  rw [hnewline, List.append_nil, Base64.decode_encode]

/-! ### Temp files -/

/-- All is kept but a temp file, and what is left to be read. -/
structure Within (temp : Text) (s t : State Machine) : Prop where
  kept : Kept { s with input := t.input } t
  out : t.out = s.out
  files : ∀ p, p ≠ temp → t.sys.fs p = s.sys.fs p

omit [Deps] in
theorem Within.trans (h : Within temp s t) (h' : Within temp t u) : Within temp s u where
  kept := ⟨h'.kept.args.trans h.kept.args, h'.kept.funs.trans h.kept.funs, rfl, h'.kept.tools.trans h.kept.tools,
    h'.kept.turns.trans h.kept.turns, fun hs => h'.kept.calm (h.kept.calm hs)⟩
  out := h'.out.trans h.out
  files p hp := (h'.files p hp).trans (h.files p hp)

omit [Deps] in
theorem Kept.within (h : Kept s t) (hout : t.out = s.out) (hfs : ∀ p, p ≠ temp → t.sys.fs p = s.sys.fs p) :
    Within temp s t :=
  ⟨⟨h.args, h.funs, rfl, h.tools, h.turns, h.calm⟩, hout, hfs⟩

/-- The shell is killed, or goes on. -/
def Survives (s : State Machine) (Q : State Machine → Prop) (f : Flow) (t : State Machine) : Prop :=
  f = .killed ∧ ¬ Calm s ∨ f = .next ∧ Q t

omit [Deps] in
theorem Within.wild (h : Within temp s t) (ht : ¬ Calm t) : ¬ Calm s := fun hs => ht (h.kept.calm hs)

/-- What is at a path when `rm -f` has been there. -/
def cleared (fs : Fs) (path : Text) : Fs := if fs path = .dir then fs else Function.update fs path .missing

omit [Deps] in
theorem cleared_ne {p : Text} (h : p ≠ path) : cleared fs path p = fs p := by
  unfold cleared
  split
  · rfl
  · exact Function.update_of_ne h _ _

omit [Deps] in
theorem cleared_self (fs : Fs) (path : Text) : cleared fs path path = .missing ∨ cleared fs path path = .dir := by
  unfold cleared
  split
  · next h => exact Or.inr h
  · exact Or.inl (Function.update_self ..)

/-- The write of a temp file worked, or did not. -/
structure Written (s : State Machine) (temp : Text) (content : ByteArray) (t : State Machine) : Prop where
  worked : t.status = 0 → s.sys.fs temp = .missing ∧ creatable s.sys.fs temp = true ∧
    t.sys.fs = Function.update s.sys.fs temp (.file .root 0o600 content)
  failed : t.status ≠ 0 → ¬ Calm s ∨ s.sys.fs temp = .dir ∨ creatable s.sys.fs temp = false
  dir : t.sys.fs temp = .dir ↔ s.sys.fs temp = .dir

/-- `base64 -d`, of what the script has there. -/
theorem ends_decode (call) (h : Ready s) (hinput : s.input = base64 content ++ ['\n']) :
    Ends (fun f t => t.sys.fs = s.sys.fs ∧ Kept { s with input := t.input } t ∧
        (f = .killed ∧ ¬ Calm s ∨ f = .next ∧ t.status = 0 ∧ t.out = s.out ++ byteText content))
      (exec system call (cmd [lit "base64", lit "-d"]) s) := by
  have hdecode : Tool.base64.run s.sys s.input ["-d".toList] = some (byteText content, s.sys) := by
    rw [Tool.run, hinput, decode_content]
    rfl
  have hwords : (Shell.words [lit "base64", lit "-d"]).texts? s = some (Tool.base64.name :: ["-d".toList]) := rfl
  refine (h.ends_filter call hwords rfl rfl hdecode).mono fun f t ht => ?_
  obtain ⟨hfs, ⟨hf, hwild, hk, -⟩ | ⟨hf, hstatus, hk, hout⟩⟩ := ht
  · exact ⟨hfs, ⟨hk.args, hk.funs, rfl, hk.tools, hk.turns, hk.calm⟩, Or.inl ⟨hf, hwild⟩⟩
  · exact ⟨hfs, ⟨hk.args, hk.funs, rfl, hk.tools, hk.turns, hk.calm⟩, Or.inr ⟨hf, hstatus, hout⟩⟩

omit [Deps] in
/-- The decoder's output is written to the temp file that was made for it. -/
theorem ends_write (hmissing : s.sys.fs temp = .missing) (hhold : creatable s.sys.fs temp = true)
    (hfs : t.sys.fs = Function.update s.sys.fs temp (.file .root 0o600 ⟨#[]⟩)) (hk : Kept { s with input := t.input } t)
    (hstatus : t.status = 0) (hout : t.out = byteText content) :
    (∀ sys, t.sys.write temp t.out = (none, sys) → Within temp s { t with sys, out := s.out } ∧
        Survives s (Written s temp content) .killed { t with sys, out := s.out }) ∧
      (∀ sys, t.sys.write temp t.out = (some false, sys) → Within temp s { t.ended 1 with sys, out := s.out } ∧
        Survives s (Written s temp content) .next { t.ended 1 with sys, out := s.out }) ∧
      ∀ sys, t.sys.write temp t.out = (some true, sys) → Within temp s { t with sys, out := s.out } ∧
        Survives s (Written s temp content) .next { t with sys, out := s.out } := by
  have htemp : t.sys.fs temp = .file .root 0o600 ⟨#[]⟩ := by
    rw [hfs]
    exact Function.update_self ..
  have hmade (c : ByteArray) : Function.update t.sys.fs temp (.file .root 0o600 c) =
      Function.update s.sys.fs temp (.file .root 0o600 c) := by
    rw [hfs, Function.update_idem]
  obtain ⟨fates, hfates, hwrites⟩ := write_cases htemp t.out
  have hwithin (c : ByteArray) (status : Nat) : Within temp s { t with
      sys := ⟨Function.update t.sys.fs temp (.file .root 0o600 c), t.sys.tools, t.sys.turns, fates⟩,
      out := s.out, status } := by
    refine ⟨⟨hk.args, hk.funs, rfl, hk.tools, hk.turns, fun hs => hfates (hk.calm hs)⟩, rfl, fun p hp => ?_⟩
    show Function.update t.sys.fs temp (.file .root 0o600 c) p = _
    rw [hmade]
    exact Function.update_of_ne hp _ _
  have hdir (c : ByteArray) : Function.update t.sys.fs temp (.file .root 0o600 c) temp = .dir ↔ s.sys.fs temp = .dir := by
    rw [hmissing, Function.update_self]
    exact iff_of_false file_ne_dir missing_ne_dir
  have hwild (h : t.sys.fates ≠ []) : ¬ Calm s := fun hs => h (hk.calm hs)
  refine ⟨fun sys hsys => ?_, fun sys hsys => ?_, fun sys hsys => ?_⟩
  all_goals rcases hwrites with ⟨hfaulty, c, hcase⟩ | ⟨hfaulty, c, hcase⟩ | hcase
  all_goals cases hsys.symm.trans hcase
  · exact ⟨hwithin c t.status, Or.inl ⟨rfl, hwild hfaulty⟩⟩
  · exact ⟨hwithin c 1, Or.inr ⟨rfl, fun hs => (Nat.one_ne_zero hs).elim, fun _ => Or.inl (hwild hfaulty), hdir c⟩⟩
  · refine ⟨hwithin _ t.status, Or.inr ⟨rfl, fun _ => ⟨hmissing, hhold, ?_⟩, fun hs => absurd hstatus hs, hdir _⟩⟩
    show Function.update t.sys.fs temp (.file .root 0o600 (textBytes t.out)) = _
    rw [hmade, hout, textBytes_byteText]

/-- `base64 -d > "$3"`: the temp file is made, and then written. -/
theorem ends_toTemp (call) (h : Ready s) (humask : s.umask = 0o077) (hinput : s.input = base64 content ++ ['\n'])
    (hfs : s.sys.fs temp = .missing ∨ s.sys.fs temp = .dir) :
    Ends (fun f t => Within temp s t ∧ Survives s (Written s temp content) f t)
      (Shell.toFile system temp (exec system call (cmd [lit "base64", lit "-d"])) s) := by
  obtain ⟨fates, hfates, hcases⟩ := create_cases 0o077 hfs
  have hcreate : system.create s.umask temp s.sys = s.sys.create 0o077 temp := by rw [humask]; rfl
  rcases hcases with ⟨hwild, fs, hoff, hmade⟩ | ⟨hwhy, hmade⟩ | ⟨hmissing, hhold, hmade⟩
  · rw [Shell.toFile, hcreate, hmade]
    exact ⟨⟨⟨rfl, rfl, rfl, rfl, rfl, hfates⟩, rfl, hoff⟩, Or.inl ⟨rfl, hwild⟩⟩
  · rw [Shell.toFile, hcreate, hmade]
    exact ⟨⟨⟨rfl, rfl, rfl, rfl, rfl, hfates⟩, rfl, fun _ _ => rfl⟩,
      Or.inr ⟨rfl, fun hstatus => (Nat.one_ne_zero hstatus).elim, fun _ => hwhy, Iff.rfl⟩⟩
  · rw [hmade] at hcreate
    refine Ends.toFile (P := fun f t => t.sys.fs = Function.update s.sys.fs temp (.file .root 0o600 ⟨#[]⟩) ∧
      Kept { s with input := t.input } t ∧ (f = .killed ∧ ¬ Calm s ∨ f = .next ∧ t.status = 0 ∧ t.out = byteText content))
      (fun sys hsys => ?_) (fun sys hsys => ?_) (fun sys hsys => ?_) (fun t ht => ?_) fun f t hf ht r sys hwrite => ?_
    · cases hcreate.symm.trans hsys
    · cases hcreate.symm.trans hsys
    · have hsys := (Prod.mk.inj (hcreate.symm.trans hsys)).2
      have hready : Ready { s with sys, out := [] } := ⟨hsys ▸ h.equipped, h.free⟩
      have hdecode := ends_decode call hready hinput
      subst hsys
      refine hdecode.mono fun f t ht => ?_
      obtain ⟨htfs, hk, hends⟩ := ht
      exact ⟨htfs, ⟨hk.args, hk.funs, rfl, hk.tools, hk.turns, fun hs => hk.calm (hfates hs)⟩,
        hends.imp_left fun hkilled => ⟨hkilled.1, fun hs => hkilled.2 (hfates hs)⟩⟩
    · obtain ⟨htfs, hk, ⟨-, hwild⟩ | ⟨hnext, -⟩⟩ := ht
      · refine ⟨⟨⟨hk.args, hk.funs, rfl, hk.tools, hk.turns, hk.calm⟩, rfl, fun p hp => ?_⟩, Or.inl ⟨rfl, hwild⟩⟩
        rw [htfs]
        exact Function.update_of_ne hp _ _
      · cases hnext
    · obtain ⟨htfs, hk, ⟨hkilled, -⟩ | ⟨rfl, hstatus, hout⟩⟩ := ht
      · exact absurd hkilled hf
      · obtain ⟨hkilled, hfailed, hworked⟩ := ends_write hmissing hhold htfs hk hstatus hout
        cases r with
        | none => exact hkilled sys hwrite
        | some worked =>
          cases worked with
          | false => exact hfailed sys hwrite
          | true => exact hworked sys hwrite

/-! ### Owners and modes -/

omit [Deps] in
theorem parseOwner_text (owner : Owner) : parseOwner owner.text = some owner := by
  have huid : ':' ∉ Nat.toDigits 10 owner.uid.toNat := fun h =>
    Bool.noConfusion (List.all_eq_true.mp (Decimal.all_isDigit_toDigits owner.uid.toNat) ':' h)
  have htext : owner.text = Nat.toDigits 10 owner.uid.toNat ++ ':' :: Nat.toDigits 10 owner.gid.toNat := by
    simp [Owner.text]
  rw [parseOwner, htext, Text.splitOnce_append huid]
  simp [Decimal.parseU32_toDigits]

omit [Deps] in
theorem ofDigitChars_modeText (mode : Nat) : Nat.ofDigitChars 8 (modeText mode) 0 = mode := by
  simp [modeText, Nat.ofDigitChars_append, Nat.ofDigitChars_toDigits]

/-! ### Steps on a temp file -/

/-- Such a step works, or leaves all as it was. -/
def Works (s : State Machine) (fs : Fs) (t : State Machine) : Prop :=
  t.status = 0 ∧ t.sys.fs = fs ∨ t.status ≠ 0 ∧ ¬ Calm s ∧ t.sys.fs = s.sys.fs

omit [Deps] in
theorem Does.works {b : Bool} {f : Flow} (h : Does s b (some ([], fs)) f t) (hoff : ∀ p, p ≠ temp → fs p = s.sys.fs p) :
    Within temp s t ∧ Survives s (Works s fs) f t := by
  cases h with
  | killed hk wild hf hout files =>
    refine ⟨hk.within hout fun p hp => ?_, Or.inl ⟨hf, wild⟩⟩
    rcases files with hfs | ⟨e, he, hfs⟩
    · rw [hfs]
    · cases he
      rw [hfs]
      exact hoff p hp
  | failed hk why hf hstatus hout hfs =>
    rcases why with hnone | ⟨-, hwild⟩
    · cases hnone
    · exact ⟨hk.within hout fun p _ => by rw [hfs], Or.inr ⟨hf, Or.inr ⟨hstatus, hwild, hfs⟩⟩⟩
  | worked hk hf hstatus e he hout hfs =>
    cases he
    rw [List.append_nil] at hout
    refine ⟨hk.within hout fun p hp => ?_, Or.inr ⟨hf, Or.inl ⟨hstatus, hfs⟩⟩⟩
    rw [hfs]
    exact hoff p hp

omit [Deps] in
/-- A program that fails by itself leaves the files. -/
theorem Does.fails {b : Bool} {f : Flow} (h : Does s b none f t) :
    Within temp s t ∧ Survives s (fun t => t.status ≠ 0 ∧ t.sys.fs = s.sys.fs) f t := by
  cases h with
  | killed hk wild hf hout files =>
    refine ⟨hk.within hout fun p _ => ?_, Or.inl ⟨hf, wild⟩⟩
    rcases files with hfs | ⟨e, he, -⟩
    · rw [hfs]
    · cases he
  | failed hk _ hf hstatus hout hfs => exact ⟨hk.within hout fun p _ => by rw [hfs], Or.inr ⟨hf, hstatus, hfs⟩⟩
  | worked _ _ _ e he => cases he

/-- A program that makes these files unless it is stuck, its status reversed. -/
inductive Reversed (s : State Machine) (stuck : Prop) (after : Fs) (f : Flow) (t : State Machine) : Prop where
  | killed (kept : Kept s t) (wild : ¬ Calm s) (flow : f = .killed) (out : t.out = s.out)
      (files : t.sys.fs = s.sys.fs ∨ ¬ stuck ∧ t.sys.fs = after)
  | failed (kept : Kept s t) (why : ¬ Calm s ∨ stuck) (flow : f = .next) (status : t.status = 0) (out : t.out = s.out)
      (files : t.sys.fs = s.sys.fs)
  | worked (kept : Kept s t) (free : ¬ stuck) (flow : f = .next) (status : t.status ≠ 0) (out : t.out = s.out)
      (files : t.sys.fs = after)

theorem ends_reversed {b : Bool} {stuck : Prop} [Decidable stuck] {after : Fs} {c : Cmd}
    (h : Ends (Does s b (if stuck then none else some ([], after))) (exec system call c s)) :
    Ends (Reversed s stuck after) (exec system call (.not c) s) := by
  have heffect {e : Text × Fs} (he : (if stuck then none else some ([], after)) = some e) : ¬ stuck ∧ e = ([], after) := by
    split at he
    · cases he
    · next hfree => exact ⟨hfree, (Option.some.inj he).symm⟩
  refine h.not (fun t ht => ?_) fun f t hf ht => ?_
  · cases ht with
    | killed _ _ hkilled => cases hkilled
    | failed hk why _ hstatus hout hfs =>
      refine .failed (hk.trans (kept_ended t _)) ?_ rfl (if_neg hstatus) hout hfs
      rcases why with hnone | ⟨-, hwild⟩
      · by_contra hnot
        rw [if_neg (not_or.mp hnot).2] at hnone
        cases hnone
      · exact Or.inl hwild
    | worked hk _ hstatus e he hout hfs =>
      obtain ⟨hfree, rfl⟩ := heffect he
      rw [List.append_nil] at hout
      refine .worked (hk.trans (kept_ended t _)) hfree rfl ?_ hout hfs
      rw [State.ended, if_pos hstatus]
      exact Nat.one_ne_zero
  · cases ht with
    | killed hk wild hkilled hout files =>
      refine .killed hk wild hkilled hout (files.imp_right ?_)
      rintro ⟨e, he, hfs⟩
      obtain ⟨hfree, rfl⟩ := heffect he
      exact ⟨hfree, hfs⟩
    | failed _ _ hnext => exact absurd hnext hf
    | worked _ hnext => exact absurd hnext hf

/-- The status of a command, turned. -/
theorem ends_not {c : Cmd} {Q : State Machine → Prop}
    (h : Ends (fun f t => Within temp s t ∧ Survives s Q f t) (exec system call c s)) :
    Ends (fun f t => Within temp s t ∧ Survives s (fun t => ∃ u, Q u ∧ t = u.ended (if u.status = 0 then 1 else 0)) f t)
      (exec system call (.not c) s) := by
  refine h.not (fun t ht => ?_) fun f t hf ht => ?_
  · obtain ⟨hw, ⟨hf, -⟩ | ⟨-, hq⟩⟩ := ht
    · cases hf
    · exact ⟨⟨⟨hw.kept.args, hw.kept.funs, rfl, hw.kept.tools, hw.kept.turns, hw.kept.calm⟩, hw.out, hw.files⟩,
        Or.inr ⟨rfl, t, hq, rfl⟩⟩
  · obtain ⟨hw, hkilled | ⟨hnext, -⟩⟩ := ht
    · exact ⟨hw, Or.inl hkilled⟩
    · exact absurd hnext hf

/-! ### The commands of `w` -/

/-- The shell in `w`, which was called for this. -/
structure Placing (s : State Machine) (i path : Text) (mode : Nat) (owner : Owner) (expect : Expect) : Prop where
  ready : Ready s
  hash : Assoc.get? ['h'] s.funs = some hashOf
  args : s.args = [i, path, tempFor path, expect.text, modeText mode, owner.text]

namespace Placing

omit [Deps] in
theorem of_kept (h : Placing s i path mode owner expect) (hk : Kept { s with input := t.input } t) :
    Placing t i path mode owner expect :=
  ⟨⟨fun name hname => hk.tools ▸ h.ready.equipped name hname, hk.funs ▸ h.ready.free⟩, hk.funs ▸ h.hash,
    hk.args.trans h.args⟩

omit [Deps] in
theorem kept (h : Placing s i path mode owner expect) (hw : Within temp s t) : Placing t i path mode owner expect :=
  h.of_kept hw.kept

omit [Deps] in
theorem param_number (h : Placing s i path mode owner expect) : s.param "1".toList = some i := by
  show s.args[0]? = _
  rw [h.args]
  rfl

omit [Deps] in
theorem param_path (h : Placing s i path mode owner expect) : s.param "2".toList = some path := by
  show s.args[1]? = _
  rw [h.args]
  rfl

omit [Deps] in
theorem param_temp (h : Placing s i path mode owner expect) : s.param "3".toList = some (tempFor path) := by
  show s.args[2]? = _
  rw [h.args]
  rfl

omit [Deps] in
theorem param_expect (h : Placing s i path mode owner expect) : s.param "4".toList = some expect.text := by
  show s.args[3]? = _
  rw [h.args]
  rfl

omit [Deps] in
theorem param_mode (h : Placing s i path mode owner expect) : s.param "5".toList = some (modeText mode) := by
  show s.args[4]? = _
  rw [h.args]
  rfl

omit [Deps] in
theorem param_owner (h : Placing s i path mode owner expect) : s.param "6".toList = some owner.text := by
  show s.args[5]? = _
  rw [h.args]
  rfl

/-- `rm -f "$3"` -/
theorem ends_removeTemp (h : Placing s i path mode owner expect) :
    Ends (fun f t => Within (tempFor path) s t ∧
        Survives s (fun t => t.input = s.input ∧ t.sys.fs = cleared s.sys.fs (tempFor path)) f t)
      (exec system call removeTemp s) := by
  have hwords : (Shell.words [lit "rm", lit "-f", arg "3"]).texts? s = some (Tool.rm.name :: ["-f".toList, tempFor path]) :=
    Shell.texts?_cons (Shell.text?_lit _)
      (Shell.texts?_cons (Shell.text?_lit _) (Shell.texts?_cons (Shell.text?_arg h.param_temp) rfl))
  have hnever : Tool.rm.mayFail ["-f".toList, tempFor path] = false := by
    simp [Tool.mayFail, Tool.isFilter, reserved_tempFor]
  have hdoes := h.ready.does_tool call hwords rfl rfl rfl
  have heffect : effectOf s.sys .rm ["-f".toList, tempFor path] =
      if s.sys.fs (tempFor path) = .dir then none else some ([], Function.update s.sys.fs (tempFor path) .missing) := by
    rw [effectOf, Tool.run]
    cases s.sys.fs (tempFor path) <;> rfl
  rw [hnever, heffect] at hdoes
  refine hdoes.mono fun f t ht => ?_
  cases ht with
  | killed hk wild hf hout files =>
    refine ⟨hk.within hout fun p hp => ?_, Or.inl ⟨hf, wild⟩⟩
    rcases files with hfs | ⟨e, he, hfs⟩
    · rw [hfs]
    · split at he
      · cases he
      · cases he
        rw [hfs]
        exact Function.update_of_ne hp _ _
  | failed hk why hf _ hout hfs =>
    rcases why with hnone | ⟨hfalse, -⟩
    · split at hnone
      · next hdir => exact ⟨hk.within hout fun p _ => by rw [hfs], Or.inr ⟨hf, hk.input, hfs.trans (if_pos hdir).symm⟩⟩
      · cases hnone
    · cases hfalse
  | worked hk hf _ e he hout hfs =>
    split at he
    · cases he
    · next hdir =>
      cases he
      rw [List.append_nil] at hout
      have hfs' : t.sys.fs = cleared s.sys.fs (tempFor path) := hfs.trans (if_neg hdir).symm
      exact ⟨hk.within hout fun p hp => by rw [hfs', cleared_ne hp], Or.inr ⟨hf, hk.input, hfs'⟩⟩

/-- `( umask 077; base64 -d > "$3" ) 2>/dev/null` -/
theorem ends_writeTemp (h : Placing s i path mode owner expect) (hinput : s.input = base64 content ++ ['\n'])
    (hfs : s.sys.fs (tempFor path) = .missing ∨ s.sys.fs (tempFor path) = .dir) :
    Ends (fun f t => Within (tempFor path) s t ∧ Survives s (Written s (tempFor path) content) f t)
      (exec system call writeTemp s) := by
  have hready : Ready { s.ended 0 with umask := 0o077 } := ⟨h.ready.equipped, h.ready.free⟩
  have humask : exec system call (cmd [lit "umask", lit "077"]) s = Shell.runBuiltin system ["077".toList] s .umask :=
    h.ready.invoke_builtin call rfl rfl
  have hword : (arg "3").text? { s.ended 0 with umask := 0o077 } = some (tempFor path) := Shell.text?_arg h.param_temp
  have hcreate := Ends.create hword (ends_toTemp call hready rfl hinput hfs)
  have hfirst : Ends (fun f t => f = .next ∧ t = { s.ended 0 with umask := 0o077 })
      (exec system call (cmd [lit "umask", lit "077"]) s) := by
    rw [humask]
    exact ⟨rfl, rfl⟩
  have hseq := Ends.seq hfirst (fun t ht => by rw [ht.2]; exact hcreate) fun f t hf ht => absurd ht.1 hf
  have hsub : Ends (fun f t => Within (tempFor path) s t ∧ Survives s (Written s (tempFor path) content) f t)
      (exec system call (.sub (.seq (cmd [lit "umask", lit "077"]) (.create (arg "3") (cmd [lit "base64", lit "-d"]))))
        s) := by
    refine hseq.sub (fun t ht => ?_) fun f t hf ht => ?_
    · obtain ⟨hw, ⟨-, hwild⟩ | ⟨hf, -⟩⟩ := ht
      · exact ⟨⟨⟨rfl, rfl, rfl, hw.kept.tools, hw.kept.turns, hw.kept.calm⟩, hw.out, hw.files⟩, Or.inl ⟨rfl, hwild⟩⟩
      · cases hf
    · obtain ⟨hw, ⟨hkilled, -⟩ | ⟨-, hwritten⟩⟩ := ht
      · exact absurd hkilled hf
      · exact ⟨⟨⟨rfl, rfl, rfl, hw.kept.tools, hw.kept.turns, hw.kept.calm⟩, hw.out, hw.files⟩,
          Or.inr ⟨rfl, hwritten.worked, hwritten.failed, hwritten.dir⟩⟩
  refine hsub.dropErr fun f t ht => ?_
  obtain ⟨hw, hs⟩ := ht
  refine ⟨⟨⟨hw.kept.args, hw.kept.funs, rfl, hw.kept.tools, hw.kept.turns, hw.kept.calm⟩, hw.out, hw.files⟩, ?_⟩
  rcases hs with hkilled | ⟨hf, hwritten⟩
  · exact Or.inl hkilled
  · exact Or.inr ⟨hf, hwritten.worked, hwritten.failed, hwritten.dir⟩

theorem ends_chown (h : Placing s i path mode owner expect) {o : Owner} {k : Nat}
    (hfile : s.sys.fs (tempFor path) = .file o k content) :
    Ends (fun f t => Within (tempFor path) s t ∧ Survives s (fun t =>
        t.status = 0 ∧ owner.settable = true ∧ t.sys.fs = Function.update s.sys.fs (tempFor path) (.file owner k content) ∨
          t.status ≠ 0 ∧ (¬ Calm s ∨ owner.settable = false) ∧ t.sys.fs = s.sys.fs) f t)
      (exec system call (.dropErr (cmd [lit "chown", arg "6", arg "3"])) s) := by
  have hwords : (Shell.words [lit "chown", arg "6", arg "3"]).texts? s =
      some (Tool.chown.name :: [owner.text, tempFor path]) :=
    Shell.texts?_cons (Shell.text?_lit _)
      (Shell.texts?_cons (Shell.text?_arg h.param_owner) (Shell.texts?_cons (Shell.text?_arg h.param_temp) rfl))
  have heffect : effectOf s.sys .chown [owner.text, tempFor path] =
      if owner.settable then some ([], Function.update s.sys.fs (tempFor path) (.file owner k content)) else none := by
    rw [effectOf, Tool.run, parseOwner_text, hfile]
    dsimp only
    split <;> rfl
  have hdoes := h.ready.does_tool call hwords rfl rfl rfl
  rw [heffect] at hdoes
  refine hdoes.dropErr fun f t ht => ?_
  cases howner : owner.settable with
  | true =>
    rw [howner, if_pos rfl] at ht
    obtain ⟨hw, hs⟩ := ht.works fun p hp => Function.update_of_ne hp _ _
    refine ⟨⟨⟨hw.kept.args, hw.kept.funs, rfl, hw.kept.tools, hw.kept.turns, hw.kept.calm⟩, hw.out, hw.files⟩, ?_⟩
    refine hs.imp_right fun hnext => ⟨hnext.1, hnext.2.imp (fun hworked => ⟨hworked.1, rfl, hworked.2⟩) fun hfailed => ?_⟩
    exact ⟨hfailed.1, Or.inl hfailed.2.1, hfailed.2.2⟩
  | false =>
    rw [howner, if_neg (by simp)] at ht
    obtain ⟨hw, hs⟩ : Within (tempFor path) s t ∧ Survives s _ f t := ht.fails
    refine ⟨⟨⟨hw.kept.args, hw.kept.funs, rfl, hw.kept.tools, hw.kept.turns, hw.kept.calm⟩, hw.out, hw.files⟩, ?_⟩
    exact hs.imp_right fun hnext => ⟨hnext.1, Or.inr ⟨hnext.2.1, Or.inr rfl, hnext.2.2⟩⟩

theorem ends_chmod (h : Placing s i path mode owner expect) {o : Owner} {k : Nat}
    (hfile : s.sys.fs (tempFor path) = .file o k content) :
    Ends (fun f t => Within (tempFor path) s t ∧
        Survives s (Works s (Function.update s.sys.fs (tempFor path) (.file o mode content))) f t)
      (exec system call (cmd [lit "chmod", arg "5", arg "3"]) s) := by
  have hwords : (Shell.words [lit "chmod", arg "5", arg "3"]).texts? s =
      some (Tool.chmod.name :: [modeText mode, tempFor path]) :=
    Shell.texts?_cons (Shell.text?_lit _)
      (Shell.texts?_cons (Shell.text?_arg h.param_mode) (Shell.texts?_cons (Shell.text?_arg h.param_temp) rfl))
  have heffect : effectOf s.sys .chmod [modeText mode, tempFor path] =
      some ([], Function.update s.sys.fs (tempFor path) (.file o mode content)) := by
    rw [effectOf, Tool.run, hfile]
    dsimp only
    rw [ofDigitChars_modeText]
    rfl
  have hdoes := h.ready.does_tool call hwords rfl rfl rfl
  rw [heffect] at hdoes
  exact hdoes.mono fun f t ht => ht.works fun p hp => Function.update_of_ne hp _ _

/-- `! chown "$6" "$3" 2>/dev/null || ! chmod "$5" "$3"` -/
theorem ends_notOwned (h : Placing s i path mode owner expect)
    (hfile : s.sys.fs (tempFor path) = .file .root 0o600 content) :
    Ends (fun f t => Within (tempFor path) s t ∧ Survives s (fun t =>
        (t.status ≠ 0 → owner.settable = true ∧
          t.sys.fs = Function.update s.sys.fs (tempFor path) (.file owner mode content)) ∧
          (t.status = 0 → ¬ Calm s ∨ owner.settable = false) ∧ t.sys.fs (tempFor path) ≠ .dir) f t)
      (exec system call notOwned s) := by
  refine Ends.or (ends_not (h.ends_chown hfile)) (fun t ht hstatus => ?_) (fun t ht hstatus => ?_) fun f t hf ht => ?_
  · obtain ⟨hw, ⟨hf, -⟩ | ⟨-, u, hu, rfl⟩⟩ := ht
    · cases hf
    rcases hu with ⟨hzero, -⟩ | ⟨-, hwhy, hfs⟩
    · rw [hzero] at hstatus
      cases hstatus
    · refine ⟨hw, Or.inr ⟨rfl, fun hne => absurd hstatus hne, fun _ => hwhy, ?_⟩⟩
      show u.sys.fs (tempFor path) ≠ .dir
      rw [hfs, hfile]
      exact file_ne_dir
  · obtain ⟨hw, ⟨hf, -⟩ | ⟨-, u, hu, rfl⟩⟩ := ht
    · cases hf
    rcases hu with ⟨-, howner, hfs⟩ | ⟨hne, -⟩
    · have hown : (u.ended (if u.status = 0 then 1 else 0)).sys.fs (tempFor path) = .file owner 0o600 content := by
        show u.sys.fs (tempFor path) = _
        rw [hfs]
        exact Function.update_self ..
      refine (ends_not ((h.kept hw).ends_chmod hown)).mono fun f t ht => ?_
      obtain ⟨hw', ⟨hf, hwild⟩ | ⟨hf, v, hv, rfl⟩⟩ := ht
      · exact ⟨hw.trans hw', Or.inl ⟨hf, hw.wild hwild⟩⟩
      · refine ⟨hw.trans hw', Or.inr ⟨hf, ?_⟩⟩
        rcases hv with ⟨hzero, hfs'⟩ | ⟨hne, hwild, hfs'⟩
        · have hupdate : v.sys.fs = Function.update s.sys.fs (tempFor path) (.file owner mode content) := by
            rw [hfs']
            show Function.update u.sys.fs _ _ = _
            rw [hfs, Function.update_idem]
          refine ⟨fun _ => ⟨howner, hupdate⟩, fun hnot => ?_, ?_⟩
          · rw [State.ended, hzero] at hnot
            cases hnot
          · show v.sys.fs (tempFor path) ≠ .dir
            rw [hupdate, Function.update_self]
            exact file_ne_dir
        · refine ⟨fun hnot => ?_, fun _ => Or.inl (hw.wild hwild), ?_⟩
          · rw [State.ended, if_neg hne] at hnot
            exact absurd rfl hnot
          · show v.sys.fs (tempFor path) ≠ .dir
            rw [hfs', hown]
            exact file_ne_dir
    · rw [if_neg hne] at hstatus
      exact absurd rfl hstatus
  · obtain ⟨hw, hkilled | ⟨hnext, -⟩⟩ := ht
    · exact ⟨hw, Or.inl hkilled⟩
    · exact absurd hnext hf

end Placing

/-! ### Stages of `w` -/

/-- A line was written, and the status is zero. -/
structure Told (s : State Machine) (line : Text) (t : State Machine) : Prop where
  kept : Kept { s with input := t.input } t
  status : t.status = 0
  out : t.out = s.out ++ line

omit [Deps] in
theorem Told.of_say (hk : Kept { s with input := t.input } t) (hout : t.out = s.out) (line : Text) :
    Told s line ((t.say line).ended 0) where
  kept := ⟨hk.args, hk.funs, rfl, hk.tools, hk.turns, hk.calm⟩
  status := rfl
  out := by rw [← hout]; rfl

/-- `w` goes on, or returns with something that it tells. -/
inductive Stage (s : State Machine) (i temp : Text) (next : Fs → Prop) (tells : Text → Fs → Prop) (f : Flow)
    (t : State Machine) :
    Prop where
  | killed (flow : f = .killed) (wild : ¬ Calm s) (within : Within temp s t)
  | next (flow : f = .next) (within : Within temp s t) (files : next t.sys.fs)
  | told (flow : f = .ret) (what : Text) (told : Told s (i ++ ' ' :: what ++ ['\n']) t) (files : tells what t.sys.fs)

/-- `w` is over. -/
inductive Placed (s : State Machine) (i temp : Text) (moved : Fs → Prop) (tells : Text → Fs → Prop) (f : Flow)
    (t : State Machine) : Prop where
  | killed (flow : f = .killed) (wild : ¬ Calm s) (kept : Kept { s with input := t.input } t) (out : t.out = s.out)
      (files : (∀ p, p ≠ temp → t.sys.fs p = s.sys.fs p) ∨ moved t.sys.fs)
  | told (flow : f = .next ∨ f = .ret) (what : Text) (told : Told s (i ++ ' ' :: what ++ ['\n']) t)
      (files : tells what t.sys.fs)

variable {next moved : Fs → Prop} {tells : Text → Fs → Prop} {c d : Cmd}

omit [Deps] in
theorem Within.told {line : Text} (h : Within temp s t) (ht : Told t line u) : Told s line u where
  kept := ⟨ht.kept.args.trans h.kept.args, ht.kept.funs.trans h.kept.funs, rfl, ht.kept.tools.trans h.kept.tools,
    ht.kept.turns.trans h.kept.turns, fun hs => ht.kept.calm (h.kept.calm hs)⟩
  status := ht.status
  out := by rw [ht.out, h.out]

omit [Deps] in
theorem Within.placed (h : Within temp s t) {f : Flow} (hu : Placed t i temp moved tells f u) :
    Placed s i temp moved tells f u := by
  cases hu with
  | killed hf wild hk hout files =>
    refine .killed hf (h.wild wild) ⟨hk.args.trans h.kept.args, hk.funs.trans h.kept.funs, rfl, hk.tools.trans h.kept.tools,
      hk.turns.trans h.kept.turns, fun hs => hk.calm (h.kept.calm hs)⟩ (hout.trans h.out) ?_
    rcases files with hfs | hmoved
    · exact Or.inl fun p hp => (hfs p hp).trans (h.files p hp)
    · exact Or.inr hmoved
  | told hf what ht files => exact .told hf what (h.told ht) files

theorem ends_stage (hc : Ends (Stage s i temp next tells) (exec system call c s))
    (hd : ∀ t, Within temp s t → next t.sys.fs → Ends (Placed t i temp moved tells) (exec system call d t)) :
    Ends (Placed s i temp moved tells) (exec system call (.seq c d) s) := by
  refine hc.seq (fun t ht => ?_) fun f t hf ht => ?_
  · cases ht with
    | killed hf => cases hf
    | next _ hw hnext => exact (hd t hw hnext).mono fun f u hu => hw.placed hu
    | told hf => cases hf
  · cases ht with
    | killed hk wild hw => exact .killed hk wild hw.kept hw.out (Or.inl hw.files)
    | next hnext => exact absurd hnext hf
    | told hret what ht files => exact .told (Or.inr hret) what ht files

/-- The files are those of `base`, but that there may be a temp file. -/
structure Based (base : Fs) (temp : Text) (fs : Fs) : Prop where
  off : ∀ p, p ≠ temp → fs p = base p
  dir : fs temp = .dir ↔ base temp = .dir
  clear : base temp = .missing ∨ base temp = .dir

omit [Deps] in
theorem Based.cleared (h : Based base temp fs) : cleared fs temp = base := by
  funext p
  by_cases hp : p = temp
  · rw [hp, Guest.cleared]
    split
    · next hdir => rw [hdir, h.dir.mp hdir]
    · next hdir =>
      rcases h.clear with hmissing | hbase
      · rw [Function.update_self, hmissing]
      · exact absurd (h.dir.mpr hbase) hdir
  · rw [cleared_ne hp, h.off p hp]

namespace Placing

/-- The temp file is removed, and it is told what was wrong. -/
theorem ends_giveUp (h : Placing s i path mode owner expect) (hbase : Based base (tempFor path) s.sys.fs) {what : String}
    (htells : tells what.toList base) :
    Ends (Stage s i (tempFor path) (fun _ => False) tells) (exec system call (giveUp what) s) := by
  refine h.ends_removeTemp.seq (fun t ht => ?_) fun f t hf ht => ?_
  · obtain ⟨hw, ⟨hf, -⟩ | ⟨-, -, hfs⟩⟩ := ht
    · cases hf
    rw [(h.kept hw).ready.exec_tellAndReturn (h.kept hw).param_number]
    refine .told rfl what.toList (.of_say hw.kept hw.out _) ?_
    show tells _ t.sys.fs
    rw [hfs, hbase.cleared]
    exact htells
  · obtain ⟨hw, ⟨hk, wild⟩ | ⟨hnext, -⟩⟩ := ht
    · exact .killed hk wild hw
    · exact absurd hnext hf

/-- What is checked has gone well, or `w` gives up over it. -/
theorem ends_orGiveUp (h : Placing s i path mode owner expect) (base : Fs) {b : Cmd} {what : String}
    (hb : Ends (fun f t => Within (tempFor path) s t ∧ Survives s (fun t =>
      (t.status = 0 → Based base (tempFor path) t.sys.fs ∧ tells what.toList base) ∧ (t.status ≠ 0 → next t.sys.fs)) f t)
      (exec system call b s)) :
    Ends (Stage s i (tempFor path) next tells) (exec system call (orSkip b (giveUp what)) s) := by
  refine hb.cond (fun t ht hstatus => ?_) (fun t ht hstatus => ?_) fun f t hf ht => ?_
  · obtain ⟨hw, ⟨hf, -⟩ | ⟨-, hzero, -⟩⟩ := ht
    · cases hf
    obtain ⟨hbase, htells⟩ := hzero hstatus
    refine ((h.kept hw).ends_giveUp hbase htells).mono fun f u hu => ?_
    cases hu with
    | killed hf wild hw' => exact .killed hf (hw.wild wild) (hw.trans hw')
    | next _ _ hnever => exact hnever.elim
    | told hf what hu files => exact .told hf what (hw.told hu) files
  · obtain ⟨hw, ⟨hf, -⟩ | ⟨-, -, hnext⟩⟩ := ht
    · cases hf
    exact .next rfl ⟨⟨hw.kept.args, hw.kept.funs, rfl, hw.kept.tools, hw.kept.turns, hw.kept.calm⟩, hw.out, hw.files⟩
      (hnext hstatus)
  · obtain ⟨hw, ⟨hk, wild⟩ | ⟨hnext, -⟩⟩ := ht
    · exact .killed hk wild hw
    · exact absurd hnext hf

end Placing

/-! ### What is at a path -/

def IsFile (node : Inode) : Prop := ∃ owner mode content, node = .file owner mode content

omit [Deps] in
theorem isSymlink_iff {node : Inode} : node.isSymlink = true ↔ ∃ target, node = .symlink target := by
  cases node <;> simp [Inode.isSymlink]

omit [Deps] in
theorem test_link : m.test 'L' path = true ↔ ∃ target, m.fs path = .symlink target := by
  rw [Machine.test, if_pos rfl, isSymlink_iff]

section

variable (h : ∀ target, m.fs path ≠ .symlink target)

include h

omit [Deps] in
theorem test_exists : m.test 'e' path = true ↔ m.fs path ≠ .missing := by
  have hne : ¬ ('e' = 'L') := by decide
  rw [Machine.test, if_neg hne, nodeAt_of_plain h]
  cases hnode : m.fs path with
  | symlink target => exact absurd hnode (h target)
  | _ => simp

omit [Deps] in
theorem test_dir : m.test 'd' path = true ↔ m.fs path = .dir := by
  have hne : ¬ ('d' = 'L') := by decide
  rw [Machine.test, if_neg hne, nodeAt_of_plain h]
  cases hnode : m.fs path with
  | symlink target => exact absurd hnode (h target)
  | _ => simp

omit [Deps] in
theorem test_file : m.test 'f' path = true ↔ IsFile (m.fs path) := by
  have hne : ¬ ('f' = 'L') := by decide
  rw [Machine.test, if_neg hne, nodeAt_of_plain h]
  cases hnode : m.fs path with
  | symlink target => exact absurd hnode (h target)
  | _ => simp [IsFile]

end

/-- `[ -e "$2" ] || [ -L "$2" ]` -/
theorem Ready.exec_isThere (call) (h : Ready s) (hpath : s.param "2".toList = some path) :
    ∃ k, exec system call isThere s = (.next, s.ended k) ∧ (k = 0 ↔ s.sys.fs path ≠ .missing) := by
  have hexists : exec system call (isA "-e" "2") s = (.next, s.ended (if s.sys.test 'e' path then 0 else 1)) :=
    h.exec_isA rfl hpath
  have hlink : exec system call (isA "-L" "2") (s.ended (if s.sys.test 'e' path then 0 else 1)) =
      (.next, (s.ended (if s.sys.test 'e' path then 0 else 1)).ended (if s.sys.test 'L' path then 0 else 1)) :=
    (h.kept (kept_ended s _)).exec_isA rfl hpath
  refine ⟨_, Shell.exec_or_ended hexists hlink, ?_⟩
  show (if (if s.sys.test 'e' path = true then 0 else 1) = 0 then 0
    else if s.sys.test 'L' path = true then 0 else 1) = 0 ↔ _
  by_cases hsym : ∃ target, s.sys.fs path = .symlink target
  · obtain ⟨target, htarget⟩ := hsym
    rw [if_pos (test_link.mpr ⟨target, htarget⟩), ite_self, htarget]
    simp
  · rw [if_neg fun hl => hsym (test_link.mp hl), ← test_exists (not_exists.mp hsym)]
    cases s.sys.test 'e' path <;> simp

omit [Deps] in
theorem status_noFile (m : Machine) (path : Text) :
    (if (if m.test 'L' path = true then 0 else 1) = 0 then 0 else if m.test 'f' path = true then 1 else 0) = 0 ↔
      ¬ IsFile (m.fs path) := by
  by_cases hsym : ∃ target, m.fs path = .symlink target
  · obtain ⟨target, htarget⟩ := hsym
    rw [if_pos (test_link.mpr ⟨target, htarget⟩), htarget]
    simp [IsFile]
  · rw [if_neg fun hl => hsym (test_link.mp hl), ← test_file (not_exists.mp hsym)]
    cases m.test 'f' path <;> simp

/-- `[ -L "$2" ] || [ ! -f "$2" ]` -/
theorem Ready.exec_isNoFile (call) (h : Ready s) (hpath : s.param "2".toList = some path) :
    ∃ k, exec system call (.or (isA "-L" "2") (isNoA "-f" "2")) s = (.next, s.ended k) ∧
      (k = 0 ↔ ¬ IsFile (s.sys.fs path)) := by
  have hlink : exec system call (isA "-L" "2") s = (.next, s.ended (if s.sys.test 'L' path then 0 else 1)) :=
    h.exec_isA rfl hpath
  have hfile : exec system call (isNoA "-f" "2") (s.ended (if s.sys.test 'L' path then 0 else 1)) =
      (.next, (s.ended (if s.sys.test 'L' path then 0 else 1)).ended (if s.sys.test 'f' path then 1 else 0)) :=
    (h.kept (kept_ended s _)).exec_isNoA rfl hpath
  exact ⟨_, Shell.exec_or_ended hlink hfile, status_noFile s.sys path⟩

/-- A test that there is no file, or one with another hash. -/
theorem Ready.ends_isNotThat (h : Ready s) (hfun : Assoc.get? ['h'] s.funs = some hashOf)
    (hpath : s.param "2".toList = some path)
    {name : String} {e : Text} (he : s.param name.toList = some e) {b : Cmd} {k : Nat}
    (hb : exec system (Shell.calls system (depth + 1)) b s = (.next, s.ended k)) (hk : k = 0 ↔ ¬ IsFile (s.sys.fs path)) :
    Ends (fun f t => Kept s t ∧ t.sys.fs = s.sys.fs ∧ t.out = s.out ∧ Survives s (fun t =>
        t.status = 0 ↔ ∀ owner mode content, s.sys.fs path = .file owner mode content →
          (MetaStore.digest content).toList ≠ e) f t)
      (exec system (Shell.calls system (depth + 1)) (.or b (hashDiffers name)) s) := by
  have hfirst : Ends (fun f t => f = .next ∧ t = s.ended k) (exec system (Shell.calls system (depth + 1)) b s) := by
    rw [hb]
    exact ⟨rfl, rfl⟩
  refine hfirst.or (fun t ht hstatus => ?_) (fun t ht hstatus => ?_) fun f t hf ht => absurd ht.1 hf
  · obtain ⟨-, rfl⟩ := ht
    refine ⟨kept_ended s k, rfl, rfl, Or.inr ⟨rfl, ?_⟩⟩
    refine iff_of_true hstatus fun owner mode content hfile => ?_
    exact absurd ⟨owner, mode, content, hfile⟩ (hk.mp hstatus)
  · obtain ⟨-, rfl⟩ := ht
    obtain ⟨owner, mode, content, hfile⟩ := not_not.mp (mt hk.mpr hstatus)
    have hready := h.kept (kept_ended s k)
    refine (hready.ends_hashDiffers hfun hpath hfile he).mono fun f t ht => ?_
    obtain ⟨hkept, hfs, hout, hkilled | ⟨hnext, hiff⟩⟩ := ht
    · exact ⟨(kept_ended s k).trans hkept, hfs, hout, Or.inl hkilled⟩
    · refine ⟨(kept_ended s k).trans hkept, hfs, hout,
        Or.inr ⟨hnext, hiff.trans ⟨fun hne o m c hc => ?_, fun hall => hall _ _ _ hfile⟩⟩⟩
      obtain ⟨-, -, rfl⟩ := Inode.file.inj (hfile.symm.trans hc)
      exact hne

/-- A hash that is an expectation is not one of the words for the others. -/
def Expect.Plain : Expect → Prop
  | .sha256 hash => hash.toList ≠ ['*'] ∧ hash.toList ≠ ['-']
  | _ => True

theorem holds_sha256 {hash : String} {node : Inode} : (Expect.sha256 hash).holds node = false ↔
    ∀ owner mode content, node = .file owner mode content → (MetaStore.digest content).toList ≠ hash.toList := by
  unfold Expect.holds
  cases node with
  | file owner mode content =>
    rw [beq_eq_false_iff_ne]
    refine ⟨fun hne o m c heq => ?_, fun hall heq => hall _ _ _ rfl (congrArg _ heq)⟩
    obtain ⟨-, -, rfl⟩ := Inode.file.inj heq
    exact fun h => hne (String.toList_inj.mp h)
  | _ => exact iff_of_true rfl fun _ _ _ heq => nomatch heq

namespace Placing

/-- The path is looked at, and `w` gives up over what is there. -/
theorem ends_unlessExpected (h : Placing s i path mode owner expect) (hbase : Based base (tempFor path) s.sys.fs)
    (hne : path ≠ tempFor path) (hplain : expect.Plain) (htells : expect.holds (base path) = false →
      tells "changed".toList base) :
    Ends (Stage s i (tempFor path) (fun fs => fs = s.sys.fs ∧ expect.holds (base path) = true) tells)
      (exec system (Shell.calls system (depth + 1)) unlessExpected s) := by
  have hthere : s.sys.fs path = base path := hbase.off path hne
  refine Ends.choose (Shell.text?_arg h.param_expect) ?_
  cases expect with
  | any =>
    have hended : Within (tempFor path) s (s.ended 0) := (kept_ended s 0).within rfl fun _ _ => rfl
    exact .next rfl hended ⟨rfl, rfl⟩
  | missing =>
    show Ends _ (exec system _ (orSkip isThere (giveUp "changed")) s)
    obtain ⟨k, hexec, hk⟩ := h.ready.exec_isThere (Shell.calls system (depth + 1)) h.param_path
    refine h.ends_orGiveUp base ?_
    rw [hexec]
    refine ⟨(kept_ended s k).within rfl fun _ _ => rfl, Or.inr ⟨rfl, fun hzero => ⟨hbase, ?_⟩, fun hnot => ⟨rfl, ?_⟩⟩⟩
    · refine htells ?_
      have hpresent := hk.mp hzero
      rw [hthere] at hpresent
      exact beq_eq_false_iff_ne.mpr hpresent
    · have hmissing := not_not.mp (mt hk.mpr hnot)
      rw [hthere] at hmissing
      exact beq_iff_eq.mpr hmissing
  | sha256 hash =>
    have hchoose : Shell.choose system (Shell.calls system (depth + 1)) hash.toList
        (.cons (some ['*']) .skip <| .cons (some ['-']) (orSkip isThere (giveUp "changed")) <|
          .cons none (orSkip isNotThat (giveUp "changed")) .nil) s =
        exec system (Shell.calls system (depth + 1)) (orSkip isNotThat (giveUp "changed")) s := by
      rw [Shell.choose, if_neg (by simp [hplain.1.symm]), Shell.choose, if_neg (by simp [hplain.2.symm]), Shell.choose,
        if_pos (Or.inl rfl)]
    show Ends _ (Shell.choose system _ hash.toList _ s)
    rw [hchoose]
    obtain ⟨k, hexec, hk⟩ := h.ready.exec_isNoFile (Shell.calls system (depth + 1)) h.param_path
    refine h.ends_orGiveUp base ((h.ready.ends_isNotThat h.hash h.param_path h.param_expect hexec hk).mono fun f t ht => ?_)
    obtain ⟨hkept, hfs, hout, hkilled | ⟨hnext, hiff⟩⟩ := ht
    · exact ⟨hkept.within hout fun p _ => by rw [hfs], Or.inl hkilled⟩
    · rw [hthere] at hiff
      refine ⟨hkept.within hout fun p _ => by rw [hfs],
        Or.inr ⟨hnext, fun hzero => ⟨hfs ▸ hbase, ?_⟩, fun hnot => ⟨hfs, ?_⟩⟩⟩
      · exact htells (holds_sha256.mpr (hiff.mp hzero))
      · exact (Bool.not_eq_false _).mp fun hfalse => hnot (hiff.mpr (holds_sha256.mp hfalse))

end Placing

/-! ### The rename -/

/-- The temp file cannot be moved: to itself, or over a directory. -/
abbrev Immovable (base : Fs) (path : Text) : Prop :=
  (World.start base).moveTarget path = tempFor path ∨ base ((World.start base).moveTarget path) = .dir

namespace Placing

/-- `mv -f "$3" "$2"` -/
theorem does_mv (call) (h : Placing s i path mode owner expect) (hbase : Based base (tempFor path) s.sys.fs)
    (hfile : s.sys.fs (tempFor path) = .file owner mode content) (hne : path ≠ tempFor path) :
    Ends (Does s true (if Immovable base path then none
        else some ([], Function.update base ((World.start base).moveTarget path) (.file owner mode content))))
      (exec system call (cmd [lit "mv", lit "-f", arg "3", arg "2"]) s) := by
  have hwords : (Shell.words [lit "mv", lit "-f", arg "3", arg "2"]).texts? s =
      some (Tool.mv.name :: ["-f".toList, tempFor path, path]) :=
    Shell.texts?_cons (Shell.text?_lit _) (Shell.texts?_cons (Shell.text?_lit _)
      (Shell.texts?_cons (Shell.text?_arg h.param_temp) (Shell.texts?_cons (Shell.text?_arg h.param_path) rfl)))
  have hdir : ¬ s.sys.fs (tempFor path) = .dir := by
    rw [hfile]
    exact file_ne_dir
  have hdirs : ∀ p, s.sys.fs p = .dir ↔ base p = .dir := fun p => by
    by_cases hp : p = tempFor path
    · rw [hp]
      exact hbase.dir
    · rw [hbase.off p hp]
  have hsame : moveInto s.sys.fs path (splitName (tempFor path)).2 = (World.start base).moveTarget path :=
    @moveTarget_congr (.start base) (.start s.sys.fs) path (hbase.off path hne) hdirs
  have hclear : Function.update s.sys.fs (tempFor path) .missing = base := by
    rw [← hbase.cleared, cleared, if_neg hdir]
  have heffect : effectOf s.sys .mv ["-f".toList, tempFor path, path] =
      if Immovable base path then none
      else some ([], Function.update base ((World.start base).moveTarget path) (.file owner mode content)) := by
    have hiff : ((World.start base).moveTarget path = tempFor path ∨ s.sys.fs ((World.start base).moveTarget path) = .dir) ↔
        Immovable base path := or_congr_right (hdirs _)
    rw [effectOf, Tool.run, hfile]
    dsimp only
    rw [hsame]
    by_cases hstuck : Immovable base path
    · rw [if_pos hstuck, if_pos (hiff.mpr hstuck)]
      rfl
    · rw [if_neg hstuck, if_neg (mt hiff.mp hstuck), Option.map_some, Machine.set, Machine.set, hclear]
  have hdoes := h.ready.does_tool call hwords rfl rfl rfl
  rw [heffect] at hdoes
  exact hdoes

/-- The temp file is renamed, or removed. -/
theorem ends_rename (h : Placing s i path mode owner expect) (hbase : Based base (tempFor path) s.sys.fs)
    (hfile : s.sys.fs (tempFor path) = .file owner mode content) (hne : path ≠ tempFor path)
    (hdone : ¬ Immovable base path →
      moved (Function.update base ((World.start base).moveTarget path) (.file owner mode content)) ∧
        tells "done".toList (Function.update base ((World.start base).moveTarget path) (.file owner mode content)))
    (hfailed : ¬ Calm s ∨ Immovable base path → tells "failed rename".toList base) :
    Ends (Placed s i (tempFor path) moved tells)
      (exec system call (.seq (orSkip (.not (cmd [lit "mv", lit "-f", arg "3", arg "2"])) (giveUp "failed rename"))
        (tell "done")) s) := by
  generalize hafter : Function.update base ((World.start base).moveTarget path) (.file owner mode content) = after at hdone
  have hmv := h.does_mv call hbase hfile hne
  rw [hafter] at hmv
  have hinput {t : State Machine} (hk : Kept s t) : Kept { s with input := t.input } t :=
    ⟨hk.args, hk.funs, rfl, hk.tools, hk.turns, hk.calm⟩
  have hcond : Ends (fun f t => Placed s i (tempFor path) moved tells f t ∧ f ≠ .next ∨
      f = .next ∧ Kept s t ∧ t.out = s.out ∧ tells "done".toList t.sys.fs)
      (exec system call (orSkip (.not (cmd [lit "mv", lit "-f", arg "3", arg "2"])) (giveUp "failed rename")) s) := by
    refine (ends_reversed hmv).cond (fun t ht hstatus => ?_) (fun t ht hstatus => ?_) fun f t hf ht => ?_
    · cases ht with
      | killed _ _ hkilled => cases hkilled
      | worked _ _ _ hreversed => exact absurd hstatus hreversed
      | failed hk why _ _ hout hfs =>
        have hw : Within (tempFor path) s t := hk.within hout fun p _ => by rw [hfs]
        refine ((h.kept hw).ends_giveUp (hfs ▸ hbase) (hfailed why)).mono fun f u hu => Or.inl ?_
        cases hu with
        | killed hf wild hw' =>
          exact ⟨.killed hf (hw.wild wild) (hw.trans hw').kept (hw.trans hw').out
            (Or.inl (hw.trans hw').files), by simp [hf]⟩
        | next _ _ hnever => exact hnever.elim
        | told hf what hu files => exact ⟨.told (Or.inr hf) what (hw.told hu) files, by simp [hf]⟩
    · cases ht with
      | killed _ _ hkilled => cases hkilled
      | failed _ _ _ hreversed => exact absurd hreversed hstatus
      | worked hk hfree _ _ hout hfs =>
        refine Or.inr ⟨rfl, hk.trans (kept_ended t 0), hout, ?_⟩
        show tells _ t.sys.fs
        rw [hfs]
        exact (hdone hfree).2
    · cases ht with
      | killed hk wild hkilled hout files =>
        refine Or.inl ⟨.killed hkilled wild (hinput hk) hout ?_, hf⟩
        rcases files with hfs | ⟨hfree, hfs⟩
        · exact Or.inl fun p _ => by rw [hfs]
        · rw [hfs]
          exact Or.inr (hdone hfree).1
      | failed _ _ hnext => exact absurd hnext hf
      | worked _ _ hnext => exact absurd hnext hf
  refine hcond.seq (fun t ht => ?_) fun f t hf ht => ?_
  · obtain ⟨-, hnever⟩ | ⟨-, hk, hout, htells⟩ := ht
    · exact absurd rfl hnever
    rw [(h.of_kept (hinput hk)).ready.exec_tell (h.of_kept (hinput hk)).param_number]
    exact .told (Or.inl rfl) _ (.of_say (hinput hk) hout _) htells
  · obtain ⟨hp, -⟩ | ⟨hnext, -⟩ := ht
    · exact hp
    · exact absurd hnext hf

end Placing

end Guest
end PveMeta
