import PveMeta.Lib.ShellReader

/-! # Rules for a shell's commands

What holds when a command has come to an end, from what holds when its parts have: one rule for each kind of command. A part
that ends the function, or the shell, or in which the shell is killed, ends the whole. -/

namespace Shell

variable {σ : Type} {S : System σ} {call : Cmd → State σ → Flow × State σ} {P Q : Flow → State σ → Prop}
  {b c d : Cmd} {s t : State σ} {w : Word} {ws : Words}

/-- A result satisfies `Q`. -/
def Ends (Q : Flow → State σ → Prop) (r : Flow × State σ) : Prop := Q r.1 r.2

theorem Ends.mono {r : Flow × State σ} (h : Ends P r) (himp : ∀ f t, P f t → Q f t) : Ends Q r := himp _ _ h

/-! ### Words without substitutions -/

/-- The text of a word that runs no command. -/
def Word.text? (s : State σ) : Word → Option Text
  | .nil => some []
  | .plain t w | .quoted t w => (w.text? s).map (t ++ ·)
  | .param name w =>
    match s.param name with
    | none => none
    | some t => (w.text? s).map (t ++ ·)
  | .output _ _ => none

def Words.texts? (s : State σ) : Words → Option (List Text)
  | .nil => some []
  | .cons w ws =>
    match w.text? s, ws.texts? s with
    | some t, some ts => some (t :: ts)
    | _, _ => none

theorem text?_lit (x : String) : (lit x).text? s = some x.toList := congrArg some (List.append_nil _)

theorem text?_quoted (t : Text) : (Word.quoted t .nil).text? s = some t := congrArg some (List.append_nil _)

theorem text?_arg {name : String} {t : Text} (h : s.param name.toList = some t) : (arg name).text? s = some t := by
  show (match s.param name.toList with | none => none | some t => some (t ++ [])) = some t
  rw [h]
  exact congrArg some (List.append_nil t)

theorem texts?_cons {t : Text} {ts : List Text} (hw : w.text? s = some t) (hws : ws.texts? s = some ts) :
    (Words.cons w ws).texts? s = some (t :: ts) := by
  rw [Words.texts?, hw, hws]

theorem expand_of_text? : ∀ {w : Word} {u : Text}, w.text? s = some u → expand S call w s = (.ok u, s)
  | .nil, _, h => by
    cases h
    rfl
  | .plain t w, _, h => by
    obtain ⟨v, hv, rfl⟩ := Option.map_eq_some_iff.mp h
    rw [expand, expand_of_text? hv]
  | .quoted t w, _, h => by
    obtain ⟨v, hv, rfl⟩ := Option.map_eq_some_iff.mp h
    rw [expand, expand_of_text? hv]
  | .param name w, _, h => by
    rw [Word.text?] at h
    split at h
    · cases h
    · next t ht =>
      obtain ⟨v, hv, rfl⟩ := Option.map_eq_some_iff.mp h
      rw [expand, ht, expand_of_text? hv]
  | .output .., _, h => nomatch h

theorem expandAll_of_texts? {us : List Text} (h : ws.texts? s = some us) : expandAll S call ws s = (.ok us, s) := by
  induction us generalizing ws with
  | nil =>
    cases ws with
    | nil => simp
    | cons w ws =>
      rw [Words.texts?] at h
      split at h <;> cases h
  | cons u us ih =>
    cases ws with
    | nil => cases h
    | cons w ws =>
      rw [Words.texts?] at h
      split at h
      · next t ts ht hts =>
        cases h
        rw [expandAll, expand_of_text? ht]
        dsimp only
        rw [ih hts]
      · cases h

theorem exec_simple {us : List Text} (h : ws.texts? s = some us) : exec S call (.simple ws) s = invoke S call us s := by
  rw [exec, expandAll_of_texts? h]

/-- A word that is the output of a command. -/
theorem expand_output (hc : Ends P (exec S call c { s with out := [] })) :
    (∃ t, P .killed t ∧ expand S call (.output c .nil) s = (.error .killed, s.captured t)) ∨
      ∃ f t, f ≠ .killed ∧ P f t ∧
        expand S call (.output c .nil) s = (.ok (Text.trimNewlines t.out), s.captured t) := by
  rw [expand]
  rcases hexec : exec S call c { s with out := [] } with ⟨f, t⟩
  rw [hexec] at hc
  by_cases hf : f = .killed
  · subst hf
    exact Or.inl ⟨t, hc, rfl⟩
  · refine Or.inr ⟨f, t, hf, hc, ?_⟩
    cases f with
    | killed => exact absurd rfl hf
    | _ => simp

/-- A test whether two texts differ. -/
theorem tested_ne (t u : Text) : tested S s [t, ['!', '='], u, [']']] = if t ≠ u then 0 else 1 := by
  have hholds : holds S s [t, ['!', '='], u] = some (decide (t ≠ u)) := by simp [holds]
  have hlast : ([t, ['!', '='], u, [']']] : List Text).getLast? = some [']'] := rfl
  have hinit : ([t, ['!', '='], u, [']']] : List Text).dropLast = [t, ['!', '='], u] := rfl
  rw [tested, if_pos hlast, hinit, hholds]
  simp only [decide_eq_true_eq]

/-- Tests, one after the other. -/
theorem exec_or_ended {k l : Nat} (hc : exec S call c s = (.next, s.ended k))
    (hd : exec S call d (s.ended k) = (.next, (s.ended k).ended l)) :
    exec S call (.or c d) s = (.next, s.ended (if k = 0 then 0 else l)) := by
  rw [exec, hc]
  show (if k = 0 then (Flow.next, s.ended k) else exec S call d (s.ended k)) = _
  by_cases hk : k = 0
  · rw [if_pos hk, if_pos hk, hk]
  · rw [if_neg hk, if_neg hk, hd]
    rfl
/-- A test, and what is only done if it holds. -/
theorem exec_seq_skip {k : Nat} (hb : exec S call b s = (.next, s.ended k)) :
    exec S call (.seq (.cond b c .skip) d) s =
      if k = 0 then exec S call (.seq c d) (s.ended k) else exec S call d (s.ended 0) := by
  have hcond : exec S call (.cond b c .skip) s = if k = 0 then exec S call c (s.ended k) else (.next, s.ended 0) := by
    rw [exec, hb]
    simp [State.ended]
  rw [exec, hcond]
  by_cases hk : k = 0
  · rw [if_pos hk, if_pos hk, exec]
  · rw [if_neg hk, if_neg hk]

/-! ### Rules -/

theorem Ends.seq (hc : Ends P (exec S call c s)) (hnext : ∀ t, P .next t → Ends Q (exec S call d t))
    (hstop : ∀ f t, f ≠ .next → P f t → Q f t) : Ends Q (exec S call (.seq c d) s) := by
  rw [exec]
  split
  · next t h =>
    rw [h] at hc
    exact hnext t hc
  · next hne => exact hstop _ _ (fun h => hne _ (Prod.ext h rfl)) hc

theorem Ends.or (hc : Ends P (exec S call c s)) (hdone : ∀ t, P .next t → t.status = 0 → Q .next t)
    (hnext : ∀ t, P .next t → t.status ≠ 0 → Ends Q (exec S call d t)) (hstop : ∀ f t, f ≠ .next → P f t → Q f t) :
    Ends Q (exec S call (.or c d) s) := by
  rw [exec]
  split
  · next t h =>
    rw [h] at hc
    split
    · next hstatus => exact hdone t hc hstatus
    · next hstatus => exact hnext t hc hstatus
  · next hne => exact hstop _ _ (fun h => hne _ (Prod.ext h rfl)) hc

theorem Ends.cond (hb : Ends P (exec S call b s)) (htrue : ∀ t, P .next t → t.status = 0 → Ends Q (exec S call c t))
    (hfalse : ∀ t, P .next t → t.status ≠ 0 → Ends Q (exec S call d t)) (hstop : ∀ f t, f ≠ .next → P f t → Q f t) :
    Ends Q (exec S call (.cond b c d) s) := by
  rw [exec]
  split
  · next t h =>
    rw [h] at hb
    split
    · next hstatus => exact htrue t hb hstatus
    · next hstatus => exact hfalse t hb hstatus
  · next hne => exact hstop _ _ (fun h => hne _ (Prod.ext h rfl)) hb

theorem Ends.not (hc : Ends P (exec S call c s))
    (hnext : ∀ t, P .next t → Q .next (t.ended (if t.status = 0 then 1 else 0)))
    (hstop : ∀ f t, f ≠ .next → P f t → Q f t) : Ends Q (exec S call (.not c) s) := by
  rw [exec]
  split
  · next t h =>
    rw [h] at hc
    exact hnext t hc
  · next hne => exact hstop _ _ (fun h => hne _ (Prod.ext h rfl)) hc

theorem Ends.sub (hc : Ends P (exec S call c s)) (hkilled : ∀ t, P .killed t → Q .killed (s.leave t))
    (hdone : ∀ f t, f ≠ .killed → P f t → Q .next (s.leave t)) : Ends Q (exec S call (.sub c) s) := by
  rw [exec]
  split
  · next t h =>
    rw [h] at hc
    exact hkilled t hc
  · next f t hne h =>
    rw [h] at hc
    exact hdone f t hne hc

theorem Ends.dropErr (hc : Ends P (exec S call c s)) (h : ∀ f t, P f t → Q f { t with err := s.err }) :
    Ends Q (exec S call (.dropErr c) s) := by
  rw [exec]
  exact h _ _ hc

theorem Ends.toErr (hc : Ends P (exec S call c { s with out := [] }))
    (h : ∀ f t, P f t → Q f { t with out := s.out, err := t.err ++ t.out }) : Ends Q (exec S call (.toErr c) s) := by
  rw [exec]
  exact h _ _ hc

theorem Ends.dropAll (hc : Ends P (exec S call c s)) (h : ∀ f t, P f t → Q f { t with out := s.out, err := s.err }) :
    Ends Q (exec S call (.dropAll c) s) := by
  rw [exec]
  exact h _ _ hc

theorem Ends.here {u : Text} (hc : Ends P (exec S call c { s with input := u }))
    (h : ∀ f t, P f t → Q f { t with input := s.input }) : Ends Q (exec S call (.here u c) s) := by
  rw [exec]
  exact h _ _ hc

theorem Ends.input {path u : Text} (hw : w.text? s = some path) (hread : S.read s.sys path = some u)
    (hc : Ends P (exec S call c { s with input := u })) (h : ∀ f t, P f t → Q f { t with input := s.input }) :
    Ends Q (exec S call (.input w c) s) := by
  rw [exec, expand_of_text? hw]
  dsimp only
  rw [hread]
  exact h _ _ hc

/-- A command whose output another one reads, each in a shell of its own. -/
theorem Ends.pipe (hc : Ends P (exec S call c { s with out := [] })) (hkilled : ∀ t, P .killed t → Q .killed (s.captured t))
    (hnext : ∀ f t, f ≠ .killed → P f t →
      Ends (fun g u => Q (if g = .killed then .killed else .next) { s.leave u with input := t.input })
        (exec S call d { s.captured t with input := t.out })) :
    Ends Q (exec S call (.pipe c d) s) := by
  rw [exec]
  split
  · next t h =>
    rw [h] at hc
    exact hkilled t hc
  · next f t hne h =>
    rw [h] at hc
    exact hnext f t hne hc

theorem Ends.create {path : Text} (hw : w.text? s = some path) (h : Ends Q (toFile S path (exec S call c) s)) :
    Ends Q (exec S call (.create w c) s) := by
  rw [exec, expand_of_text? hw]
  exact h

/-- The file is made, then the command runs, then what it wrote is written to the file; any of that can be the end. -/
theorem Ends.toFile {path : Text} {body : State σ → Flow × State σ}
    (hlast : ∀ sys, S.create s.umask path s.sys = (none, sys) → Q .killed { s with sys })
    (hnot : ∀ sys, S.create s.umask path s.sys = (some false, sys) → Q .next { s.ended 1 with sys })
    (hbody : ∀ sys, S.create s.umask path s.sys = (some true, sys) → Ends P (body { s with sys, out := [] }))
    (hkilled : ∀ t, P .killed t → Q .killed { t with out := s.out })
    (hwrite : ∀ f t, f ≠ .killed → P f t → ∀ r sys, S.write path t.out t.sys = (r, sys) →
      match r with
      | none => Q .killed { t with sys, out := s.out }
      | some true => Q f { t with sys, out := s.out }
      | some false => Q f { t.ended 1 with sys, out := s.out }) :
    Ends Q (toFile S path body s) := by
  rw [Shell.toFile]
  split
  · next sys h => exact hlast sys h
  · next sys h => exact hnot sys h
  · next sys h =>
    have hp := hbody sys h
    split
    · next t heq =>
      rw [heq] at hp
      exact hkilled t hp
    · next f t hne heq =>
      rw [heq] at hp
      have hw := hwrite f t hne hp
      split
      · next sys hr => exact hw none sys hr
      · next sys hr => exact hw (some true) sys hr
      · next sys hr => exact hw (some false) sys hr

/-- A variable that is the output of a command. -/
theorem Ends.assign {name : Text} (hc : Ends P (exec S call c { s.ended 0 with out := [] }))
    (hkilled : ∀ t, P .killed t → Q .killed ((s.ended 0).captured t))
    (hdone : ∀ f t, f ≠ .killed → P f t → Q .next (((s.ended 0).captured t).bind name (Text.trimNewlines t.out))) :
    Ends Q (exec S call (.assign name (.output c .nil)) s) := by
  rw [exec]
  rcases expand_output hc with ⟨t, ht, hexpand⟩ | ⟨f, t, hf, ht, hexpand⟩
  · rw [hexpand]
    exact hkilled t ht
  · rw [hexpand]
    exact hdone f t hf ht

theorem Ends.choose {arms : Arms} {u : Text} (hw : w.text? s = some u) (h : Ends Q (choose S call u arms s)) :
    Ends Q (exec S call (.choose w arms) s) := by
  rw [exec, expand_of_text? hw]
  exact h

/-- A loop keeps what its body keeps of the words that are left. -/
theorem Ends.loop {name : Text} {body : State σ → Flow × State σ} {I : List Text → State σ → Prop}
    (hbody : ∀ t ts s, I (t :: ts) s → Ends (fun f u => f = .next ∧ I ts u ∨ f ≠ .next ∧ Q f u) (body (s.bind name t)))
    (hdone : ∀ s, I [] s → Q .next s) (ts : List Text) (s : State σ) (h : I ts s) : Ends Q (Shell.loop name body ts s) := by
  induction ts generalizing s with
  | nil => exact hdone s h
  | cons t ts ih =>
    have hfirst := hbody t ts s h
    rw [Shell.loop]
    rcases hexec : body (s.bind name t) with ⟨f, u⟩
    rw [hexec] at hfirst
    rcases hfirst with ⟨hf, hu⟩ | ⟨hf, hu⟩
    · cases hf
      exact ih u hu
    · cases f with
      | next => exact absurd rfl hf
      | _ => exact hu

theorem Ends.each {name : Text} {ts : List Text} (hws : ws.texts? s = some ts)
    (h : Ends Q (Shell.loop name (exec S call c) ts (s.ended 0))) : Ends Q (exec S call (.each name ws c) s) := by
  rw [exec, expandAll_of_texts? hws]
  exact h

/-- A builtin that no function hides. -/
theorem exec_builtin {name : Text} {args : List Text} {b : Builtin} (hfree : Assoc.get? name s.funs = none)
    (hb : builtin name = some b) (hwords : ws.texts? s = some (name :: args)) :
    exec S call (.simple ws) s = runBuiltin S args s b := by
  rw [exec_simple hwords, invoke, hfree, hb]

theorem exec_assign {name u : Text} (hw : w.text? (s.ended 0) = some u) :
    exec S call (.assign name w) s = (.next, (s.ended 0).bind name u) := by
  rw [exec, expand_of_text? hw]

/-! ### Scripts -/

/-- Text with nothing in it is no command. -/
theorem complete_spaces {t : Text} (h : t.all isSpacing = true) : complete.read t = none :=
  Reader.read_bind_none (Reader.read_takeWhile_none (List.all_eq_true.mp h))

/-- A script goes on with its first command, and what that leaves of the input is the rest of it. -/
theorem Script.run {cs : List Cmd} {turn : σ → σ} {depth n : Nat} (h : Script s.input (c :: cs)) :
    ∃ u, Script u cs ∧ ∀ P Q : Flow → State σ → Prop,
      Ends P (exec S (calls S depth) c { s with input := u, sys := turn s.sys }) →
      (∀ t, P .next t → Ends Q (runInput S turn depth n t)) → (∀ f t, f ≠ .next → P f t → Q f t) →
      Ends Q (runInput S turn depth (n + 1) s) := by
  obtain ⟨u, hc, hcs⟩ := commands_succ (n := cs.length) h
  refine ⟨u, hcs, fun P Q hexec hnext hstop => ?_⟩
  have hspaces : ¬ s.input.all isSpacing = true := fun hall => by
    rw [complete_spaces hall] at hc
    cases hc
  rw [runInput, if_neg hspaces, hc]
  dsimp only
  split
  · next t heq =>
    rw [heq] at hexec
    exact hnext t hexec
  · next hne => exact hstop _ _ (fun hf => hne _ (Prod.ext hf rfl)) hexec

theorem Script.run_nil {turn : σ → σ} {depth n : Nat} (h : Script s.input []) (hs : Q .next s) :
    Ends Q (runInput S turn depth (n + 1) s) := by
  have hinput : s.input = [] := congrArg Prod.snd (Option.some.inj h)
  rw [runInput, hinput]
  exact hs

end Shell
