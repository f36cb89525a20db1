import PveMeta.Theorems.GuestShellOps

/-! # What a probe comes to

`p`, from its commands: it writes a line that tells what is at a path, and changes nothing; or the script ends, or is
killed. -/

namespace PveMeta
namespace Guest

open Shell (State Flow Cmd Ends Word Words exec lit arg cmd)

variable [Deps] {s t u : State Machine} {path : Text} {call : Cmd → State Machine → Flow × State Machine}
  {content : ByteArray} {mode : Nat} {owner : Owner} {c d : Cmd}

/-- What a probe writes of what is at a path. -/
def nodeLine : Inode → Text
  | .missing => ['M']
  | .symlink _ => ['L']
  | .dir => ['D']
  | .file owner mode content => "F ".toList ++ statLine owner mode ++ ' ' :: (MetaStore.digest content).toList
  | .other => ['O']

/-- `p` is over. -/
inductive Probed (s : State Machine) (path : Text) (f : Flow) (t : State Machine) : Prop where
  | killed (flow : f = .killed) (wild : ¬ Calm s) (kept : Kept s t) (files : t.sys.fs = s.sys.fs)
  | exit (flow : f = .exit) (wild : ¬ Calm s) (status : t.status ≠ 0) (kept : Kept s t) (files : t.sys.fs = s.sys.fs)
  | told (flow : f = .next) (status : t.status = 0) (kept : Kept s t) (files : t.sys.fs = s.sys.fs)
      (out : t.out = s.out ++ (nodeLine (s.sys.fs path) ++ ['\n']))

omit [Deps] in
theorem not_mem_digits {base : Nat} (hbase : 0 < base) (hten : base ≤ 10) {c : Char} (hc : c.isDigit = false) (n : Nat) :
    c ∉ Nat.toDigits base n := fun h => by
  rw [Nat.isDigit_of_mem_toDigits hbase hten h] at hc
  cases hc

omit [Deps] in
theorem not_mem_statLine (owner : Owner) (mode : Nat) : '\n' ∉ statLine owner mode := by
  have hdigits (base : Nat) (hbase : 0 < base) (hten : base ≤ 10) (n : Nat) : '\n' ∉ Nat.toDigits base n :=
    not_mem_digits hbase hten rfl n
  simp [statLine, hdigits]

/-- `s=$(stat -c '%u %g %a' "$1")` -/
theorem Ready.ends_stat (h : Ready s) (hpath : s.param "1".toList = some path)
    (hfile : s.sys.fs path = .file owner mode content) :
    Ends (fun f t => (f = .killed ∧ ¬ Calm s ∧ Kept s t ∧ t.sys.fs = s.sys.fs) ∨ f = .next ∧ Kept s t ∧
      t.sys.fs = s.sys.fs ∧ t.out = s.out ∧
        (t.status = 0 ∧ t.vars = Assoc.insert ['s'] (statLine owner mode) s.vars ∨ t.status ≠ 0 ∧ ¬ Calm s))
      (exec system call (.assign ['s'] (.output statOf .nil)) s) := by
  have hready : Ready { s.ended 0 with out := [] } := ⟨h.equipped, h.free⟩
  have hparam : ({ s.ended 0 with out := [] } : State Machine).param "1".toList = some path := hpath
  have hwords : (Shell.words [lit "stat", lit "-c", .quoted "%u %g %a".toList .nil, arg "1"]).texts?
    { s.ended 0 with out := [] } =
      some (Tool.stat.name :: ["-c".toList, "%u %g %a".toList, path]) :=
    Shell.texts?_cons (Shell.text?_lit _) (Shell.texts?_cons (Shell.text?_lit _) (Shell.texts?_cons (Shell.text?_quoted _)
      (Shell.texts?_cons (Shell.text?_arg hparam) rfl)))
  have heffect : effectOf s.sys .stat ["-c".toList, "%u %g %a".toList, path] =
      some (statLine owner mode ++ ['\n'], s.sys.fs) := by
    rw [effectOf, Tool.run, hfile]
    rfl
  have hdoes := hready.does_tool call hwords rfl rfl rfl
  have heffect' : effectOf ({ s.ended 0 with out := [] } : State Machine).sys .stat ["-c".toList, "%u %g %a".toList, path] =
      some (statLine owner mode ++ ['\n'], s.sys.fs) := heffect
  rw [heffect'] at hdoes
  refine Ends.assign hdoes (fun t ht => ?_) fun f t hf ht => ?_
  · cases ht with
    | killed hk wild _ hout files =>
      have hfs : t.sys.fs = s.sys.fs := by
        rcases files with hfs | ⟨e, he, hfs⟩
        · exact hfs
        · cases he
          exact hfs
      exact Or.inl ⟨rfl, wild, ⟨rfl, rfl, hk.input, hk.tools, hk.turns, hk.calm⟩, hfs⟩
    | failed _ _ hnext => cases hnext
    | worked _ hnext => cases hnext
  · cases ht with
    | killed _ _ hkilled => exact absurd hkilled hf
    | failed hk why hnext hstatus hout hfs =>
      rcases why with hnone | ⟨-, wild⟩
      · cases hnone
      · exact Or.inr ⟨rfl, ⟨rfl, rfl, hk.input, hk.tools, hk.turns, hk.calm⟩, hfs, rfl, Or.inr ⟨hstatus, wild⟩⟩
    | worked hk hnext hstatus e he hout hfs =>
      cases he
      have hvalue : Text.trimNewlines t.out = statLine owner mode := by
        rw [hout]
        exact trimNewlines_line (not_mem_statLine owner mode)
      refine Or.inr ⟨rfl, ⟨rfl, rfl, hk.input, hk.tools, hk.turns, hk.calm⟩, hfs, rfl, Or.inl ⟨hstatus, ?_⟩⟩
      rw [hvalue]
      rfl

/-- `h=$(sha256sum < "$1" | cut -d' ' -f1)` -/
theorem Ready.ends_hash (h : Ready s) (hpath : s.param "1".toList = some path)
    (hfile : s.sys.fs path = .file owner mode content) :
    Ends (fun f t => Kept s t ∧ t.sys.fs = s.sys.fs ∧ (f = .killed ∧ ¬ Calm s ∨ f = .next ∧ t.out = s.out ∧ t.status = 0 ∧
        t.vars = Assoc.insert ['h'] (MetaStore.digest content).toList s.vars))
      (exec system call (.assign ['h'] (.output hashOf .nil)) s) := by
  have hready : Ready { s.ended 0 with out := [] } := ⟨h.equipped, h.free⟩
  have hparam : ({ s.ended 0 with out := [] } : State Machine).param "1".toList = some path := hpath
  refine Ends.assign (hready.ends_hashOf call hparam hfile) (fun t ht => ?_) fun f t hf ht => ?_
  · obtain ⟨hk, hfs, ⟨-, wild, -⟩ | ⟨hnext, -⟩⟩ := ht
    · exact ⟨⟨rfl, rfl, hk.input, hk.tools, hk.turns, hk.calm⟩, hfs, Or.inl ⟨rfl, wild⟩⟩
    · cases hnext
  · obtain ⟨hk, hfs, ⟨hkilled, -⟩ | ⟨-, hstatus, hout⟩⟩ := ht
    · exact absurd hkilled hf
    have hvalue : Text.trimNewlines t.out = (MetaStore.digest content).toList := by
      rw [hout]
      exact trimNewlines_line (not_mem_digest (by decide))
    refine ⟨⟨rfl, rfl, hk.input, hk.tools, hk.turns, hk.calm⟩, hfs, Or.inr ⟨rfl, rfl, hstatus, ?_⟩⟩
    rw [hvalue]
    rfl

/-- A line that has nothing to be expanded. -/
theorem Ready.ends_echo (h : Ready s) {w : String} (hline : nodeLine (s.sys.fs path) = w.toList) :
    Ends (Probed s path) (exec system call (cmd [lit "echo", lit w]) s) := by
  have hwords : (Shell.words [lit "echo", lit w]).texts? s = some ("echo".toList :: [w.toList]) :=
    Shell.texts?_cons (Shell.text?_lit _) (Shell.texts?_cons (Shell.text?_lit _) rfl)
  have hecho : exec system call (cmd [lit "echo", lit w]) s = Shell.runBuiltin system [w.toList] s .echo :=
    h.invoke_builtin call rfl hwords
  have hechoed : Shell.echoed [w.toList] = w.toList ++ ['\n'] := by simp [Shell.echoed]
  rw [hecho]
  refine .told rfl rfl ⟨rfl, rfl, rfl, rfl, rfl, fun hs => hs⟩ rfl ?_
  rw [hline, ← hechoed]
  rfl

theorem Probed.of_same (hk : Kept s t) (hfs : t.sys.fs = s.sys.fs) (hout : t.out = s.out) {f : Flow}
    (h : Probed t path f u) :
    Probed s path f u := by
  cases h with
  | killed hf wild hk' files => exact .killed hf (fun hs => wild (hk.calm hs)) (hk.trans hk') (files.trans hfs)
  | exit hf wild hstatus hk' files => exact .exit hf (fun hs => wild (hk.calm hs)) hstatus (hk.trans hk') (files.trans hfs)
  | told hf hstatus hk' files hout' =>
    refine .told hf hstatus (hk.trans hk') (files.trans hfs) ?_
    rw [hout', hout, hfs]

/-- A variable is read off a file, or the script ends. -/
theorem ends_orFail {c : Cmd} {P : State Machine → Prop} (hs : Ready s)
    (hc : Ends (fun f t => Kept s t ∧ t.sys.fs = s.sys.fs ∧ (f = .killed ∧ ¬ Calm s ∨ f = .next ∧ t.out = s.out ∧
      (t.status = 0 ∧ P t ∨ t.status ≠ 0 ∧ ¬ Calm s))) (exec system call c s))
    (hd : ∀ t, Kept s t → t.sys.fs = s.sys.fs → t.out = s.out → P t → Ends (Probed t path) (exec system call d t)) :
    Ends (Probed s path) (exec system call (.seq (orFail c) d) s) := by
  refine Ends.seq (P := fun f t => Probed s path f t ∧ f ≠ .next ∨ f = .next ∧ Kept s t ∧ t.sys.fs = s.sys.fs ∧
    t.out = s.out ∧ P t)
    ?_ (fun t ht => ?_) fun f t hf ht => ?_
  · refine hc.or (fun t ht hstatus => ?_) (fun t ht hstatus => ?_) fun f t hf ht => ?_
    · obtain ⟨hk, hfs, ⟨hkilled, -⟩ | ⟨-, hout, ⟨-, hp⟩ | ⟨hne, -⟩⟩⟩ := ht
      · cases hkilled
      · exact Or.inr ⟨rfl, hk, hfs, hout, hp⟩
      · exact absurd hstatus hne
    · obtain ⟨hk, hfs, ⟨hkilled, -⟩ | ⟨-, hout, ⟨hzero, -⟩ | ⟨-, wild⟩⟩⟩ := ht
      · cases hkilled
      · exact absurd hzero hstatus
      · have hexit : exec system call (cmd [lit "exit", lit "91"]) t = _ := (hs.kept hk).exec_exit "91"
        rw [hexit]
        have hne : Shell.statusOf ["91".toList] ≠ 0 := by decide
        exact Or.inl ⟨.exit rfl wild hne (hk.trans (kept_ended t _)) hfs, by simp⟩
    · obtain ⟨hk, hfs, ⟨hkilled, wild⟩ | ⟨hnext, -⟩⟩ := ht
      · exact Or.inl ⟨.killed hkilled wild hk hfs, hf⟩
      · exact absurd hnext hf
  · obtain ⟨-, hnever⟩ | ⟨-, hk, hfs, hout, hp⟩ := ht
    · exact absurd rfl hnever
    exact (hd t hk hfs hout hp).mono fun f u hu => hu.of_same hk hfs hout
  · obtain ⟨hp, -⟩ | ⟨hnext, -⟩ := ht
    · exact hp
    · exact absurd hnext hf

/-- What is written of a file. -/
theorem Ready.ends_file (h : Ready s) (hpath : s.param "1".toList = some path)
    (hfile : s.sys.fs path = .file owner mode content) :
    Ends (Probed s path) (exec system call
      (.seq (orFail (.assign ['s'] (.output statOf .nil))) (.seq (orFail (.assign ['h'] (.output hashOf .nil))) fileLine))
        s) := by
  refine ends_orFail h (P := fun t => t.vars = Assoc.insert ['s'] (statLine owner mode) s.vars)
    ((h.ends_stat hpath hfile).mono fun f t ht => ?_) fun t hk hfs hout hvars => ?_
  · rcases ht with ⟨hf, wild, hk, hfs⟩ | ⟨hf, hk, hfs, hout, hstatus⟩
    · exact ⟨hk, hfs, Or.inl ⟨hf, wild⟩⟩
    · exact ⟨hk, hfs, Or.inr ⟨hf, hout, hstatus⟩⟩
  have hpath' : t.param "1".toList = some path := by
    show t.args[0]? = _
    rw [hk.args]
    exact hpath
  rw [← hfs] at hfile
  refine ends_orFail (h.kept hk) (P := fun u => u.vars = Assoc.insert ['h'] (MetaStore.digest content).toList t.vars)
    (((h.kept hk).ends_hash hpath' hfile).mono fun f u hu => ?_) fun u hk' hfs' hout' hvars' => ?_
  · obtain ⟨hk, hfs, hkilled | ⟨hf, hout, hstatus, hvars⟩⟩ := hu
    · exact ⟨hk, hfs, Or.inl hkilled⟩
    · exact ⟨hk, hfs, Or.inr ⟨hf, hout, Or.inl ⟨hstatus, hvars⟩⟩⟩
  rw [← hfs'] at hfile
  have hstat : u.param ['s'] = some (statLine owner mode) := by
    show Assoc.get? ['s'] u.vars = _
    rw [hvars', hvars, Assoc.get?_insert_ne (by decide), Assoc.get?_insert_self]
  have hhash : u.param ['h'] = some (MetaStore.digest content).toList := by
    show Assoc.get? ['h'] u.vars = _
    rw [hvars', Assoc.get?_insert_self]
  have hline : nodeLine (u.sys.fs path) = "F ".toList ++
      (statLine owner mode ++ ([' '] ++ ((MetaStore.digest content).toList ++ []))) := by
    rw [hfile]
    simp [nodeLine]
  have hwords :
      (Shell.words [lit "echo", .quoted "F ".toList (.param ['s'] (.quoted [' '] (.param ['h'] .nil)))]).texts? u =
      some ("echo".toList :: [nodeLine (u.sys.fs path)]) := by
    refine Shell.texts?_cons (Shell.text?_lit _) (Shell.texts?_cons ?_ rfl)
    rw [hline, Word.text?, Word.text?, hstat, Word.text?, Word.text?, hhash]
    rfl
  have hecho : exec system call fileLine u = Shell.runBuiltin system [nodeLine (u.sys.fs path)] u .echo :=
    ((h.kept hk).kept hk').invoke_builtin call rfl hwords
  rw [hecho]
  refine .told rfl rfl ⟨rfl, rfl, rfl, rfl, rfl, fun hs => hs⟩ rfl ?_
  have hechoed : Shell.echoed [nodeLine (u.sys.fs path)] = nodeLine (u.sys.fs path) ++ ['\n'] := by simp [Shell.echoed]
  rw [← hechoed]
  rfl

/-- A test whose status is known, and what it leads to. -/
theorem ends_probeTest {b : Cmd} {k : Nat} (hb : exec system call b s = (.next, s.ended k))
    (htrue : k = 0 → Ends (Probed (s.ended k) path) (exec system call c (s.ended k)))
    (hfalse : k ≠ 0 → Ends (Probed (s.ended k) path) (exec system call d (s.ended k))) :
    Ends (Probed s path) (exec system call (.cond b c d) s) := by
  have hfirst : Ends (fun f t => f = .next ∧ t = s.ended k) (exec system call b s) := by
    rw [hb]
    exact ⟨rfl, rfl⟩
  refine hfirst.cond (fun t ht hstatus => ?_) (fun t ht hstatus => ?_) fun f t hf ht => absurd ht.1 hf
  · obtain ⟨-, rfl⟩ := ht
    exact (htrue hstatus).mono fun f u hu => hu.of_same (kept_ended s k) rfl rfl
  · obtain ⟨-, rfl⟩ := ht
    exact (hfalse hstatus).mono fun f u hu => hu.of_same (kept_ended s k) rfl rfl

/-- `p` -/
theorem Ready.ends_probe (h : Ready s) (hpath : s.param "1".toList = some path) :
    Ends (Probed s path) (exec system call probeBody s) := by
  have hready (k : Nat) : Ready (s.ended k) := h.kept (kept_ended s k)
  have hlink : exec system call (isA "-L" "1") s = (.next, s.ended (if s.sys.test 'L' path then 0 else 1)) :=
    h.exec_isA rfl hpath
  refine ends_probeTest hlink (fun hk => ?_) fun hk => ?_
  · obtain ⟨target, hsym⟩ : ∃ target, s.sys.fs path = .symlink target := test_link.mp (by simpa using hk)
    exact (hready _).ends_echo (by simp [State.ended, hsym, nodeLine])
  have hsym : ∀ target, s.sys.fs path ≠ .symlink target := fun target heq => hk (if_pos (test_link.mpr ⟨target, heq⟩))
  have hexists (j : Nat) : exec system call (isNoA "-e" "1") (s.ended j) =
      (.next, (s.ended j).ended (if s.sys.test 'e' path then 1 else 0)) :=
    (hready j).exec_isNoA rfl hpath
  refine ends_probeTest (hexists _) (fun hk => ?_) fun hk => ?_
  · have hmissing : s.sys.fs path = .missing := not_not.mp fun hne => by simp [(test_exists hsym).mpr hne] at hk
    exact (hready _).ends_echo (by simp [State.ended, hmissing, nodeLine])
  have hmissing : s.sys.fs path ≠ .missing := fun heq => hk (if_neg fun htest => (test_exists hsym).mp htest heq)
  have hisDir (j : Nat) : exec system call (isA "-d" "1") (s.ended j) =
      (.next, (s.ended j).ended (if s.sys.test 'd' path then 0 else 1)) :=
    (hready j).exec_isA rfl hpath
  refine ends_probeTest (hisDir _) (fun hk => ?_) fun hk => ?_
  · have hdir : s.sys.fs path = .dir := (test_dir hsym).mp (by simpa using hk)
    exact (hready _).ends_echo (by simp [State.ended, hdir, nodeLine])
  have hdir : s.sys.fs path ≠ .dir := fun heq => hk (if_pos ((test_dir hsym).mpr heq))
  have hisFile (j : Nat) : exec system call (isA "-f" "1") (s.ended j) =
      (.next, (s.ended j).ended (if s.sys.test 'f' path then 0 else 1)) :=
    (hready j).exec_isA rfl hpath
  refine ends_probeTest (hisFile _) (fun hk => ?_) fun hk => ?_
  · obtain ⟨owner, mode, content, hfile⟩ := (test_file hsym).mp (by simpa using hk)
    exact (hready _).ends_file hpath hfile
  · have hfile : ¬ IsFile (s.sys.fs path) := fun hf => hk (if_pos ((test_file hsym).mpr hf))
    have hother : s.sys.fs path = .other := by
      cases hnode : s.sys.fs path with
      | missing => exact absurd hnode hmissing
      | symlink target => exact absurd hnode (hsym target)
      | dir => exact absurd hnode hdir
      | file owner mode content => exact absurd ⟨owner, mode, content, hnode⟩ hfile
      | other => rfl
    exact (hready _).ends_echo (by simp [State.ended, hother, nodeLine])

end Guest
end PveMeta
