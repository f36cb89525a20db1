import PveMeta.Theorems.GuestPctCommit

/-! # A probe over `pct exec`

The call that probes tells what is at every path when it comes to it, or nothing. What the others do before the first of
them may as well be done in its turn; and a probe whose answer is lost may as well have failed at its last path. -/

namespace PveMeta
namespace Guest

open Shell (State Flow Cmd Ends exec lit arg cmd)
open Choices (andThen done each Goes Stops Comes Ceases)

variable [Deps] {m : Machine} {fair : Prop} {s t : State Machine} {fs : Fs} {o : Option Fs} {depth : Nat}

/-! ### The script of a probe -/

/-- The function of a probe. -/
def probeFuns : List (Text × Cmd) := [(['p'], probeBody)]

theorem probing_goes (path : Text) :
    Goes frame (probing path) fs [⟨o, .none⟩] (path, (edited fs o path).lstat) (edited fs o) := by
  intro w rest hw hturns
  obtain ⟨w', hcall, hfs, hrest⟩ := call_goes w rest hw hturns
  refine ⟨w', ?_, hfs, hrest⟩
  rw [probing, Choices.andThen_ok hcall, ← hfs]
  rfl

theorem matches_probe (hfair : fair → m.fates = []) (path : Text) :
    Matches m (defined [] probeFuns) fair (depth + 1) (cmd [lit "p", quotedWord path]) (probing path)
      fun e => e.2.line ++ ['\n'] := by
  intro s fs o h hfs ho
  have hready : Ready s := h.ready (by decide)
  have hfun : Assoc.get? ['p'] s.funs = some probeBody := by
    rw [h.funs]
    rfl
  have hwords : (Shell.words [lit "p", quotedWord path]).texts? s = some (['p'] :: [path]) :=
    Shell.texts?_cons (Shell.text?_lit _) (Shell.texts?_cons (Shell.text?_quoted _) rfl)
  have hargs : Ready { s with args := [path] } := ⟨hready.equipped, hready.free⟩
  have hover {f : Flow} {t : State Machine} (ht : Probed { s with args := [path] } path f t) :
      Over m (defined [] probeFuns) fair (probing path) (fun e => e.2.line ++ ['\n']) fs s f { t with args := s.args } := by
    have hstop (hkept : Kept { s with args := [path] } t) (hsame : t.sys.fs = s.sys.fs) (hwild : ¬ Calm s)
        (hstopped : f = .killed ∨ f ≠ .next ∧ t.status ≠ 0) :
        Over m (defined [] probeFuns) fair (probing path) (fun e => e.2.line ++ ['\n']) fs s f
          { t with args := s.args } := by
      have hnot : ¬ fair := fun hf => hwild (h.calm (hfair hf))
      refine .ceased hstopped (hkept.tools.trans h.tools) ?_
      have hcut : Stops frame Agree World.call fs [⟨o, .cut⟩] (edited fs o) := call_stops (by simp)
      show Ceases frame Agree (Allowed m fair) cutTurn (probing path) fs t.sys.fs
      rw [hsame, hfs]
      exact .stops [⟨o, .cut⟩] (Choices.forall_mem_single ⟨ho, fun hf => absurd hf hnot⟩) (hcut.andThen _)
    cases ht with
    | killed hf hwild hk hsame => exact hstop hk hsame hwild (Or.inl hf)
    | exit hf hwild hstatus hk hsame => exact hstop hk hsame hwild (Or.inr ⟨by simp [hf], hstatus⟩)
    | told hf hstatus hk hsame hout =>
      have hkept : Kept s { t with args := s.args } := ⟨rfl, hk.funs, hk.input, hk.tools, hk.turns, hk.calm⟩
      have hfiles : t.sys.fs = edited fs o := hsame.trans hfs
      refine .next (path, (s.sys.fs path).lstat) [⟨o, .none⟩] (Choices.forall_mem_single (.none o ho)) hf
        (h.kept hkept hstatus) hk.input
        ?_ (hout.trans (by rw [nodeLine_eq]))
      show Goes frame (probing path) fs _ _ t.sys.fs
      rw [hfiles, hfs]
      exact probing_goes path
  rw [cmd, exec_call hfun hwords]
  refine ends_call (hargs.ends_probe rfl) (fun t ht => ?_) fun f t _ ht => hover ht
  cases ht with
  | killed hf => cases hf
  | exit hf => cases hf
  | told hf => cases hf

/-! ### What the others do first -/

section

variable {α : Type} {next : Unit → World → Except String α × World} {ts : List Turn} {a : α} {after : Fs}

omit [Deps] in
/-- What the others did before may as well be done in the turn of the call. -/
theorem call_early {w : World} {k : Turn} {rest : List Turn} (hw : w.fs = fs)
    (hturns : w.turns = ⟨k.others <|> o, k.fault⟩ :: rest) :
    w.call = (⟨edited fs o, k :: rest, w.log⟩ : World).call := by
  rw [World.call, World.call, turn_eq hturns, turn_eq (w := ⟨edited fs o, k :: rest, w.log⟩) rfl, hw, edited_edited]

omit [Deps] in
theorem not_goes_nil (h : Goes frame (andThen World.call next) fs [] a after) : False := by
  obtain ⟨w', hw, -⟩ := h ⟨fs, [cutTurn], []⟩ [cutTurn] rfl rfl
  obtain ⟨_, _, hcall, -⟩ := Choices.of_andThen_ok hw
  cases hcall

omit [Deps] in
theorem fault_of_goes {k : Turn} (h : Goes frame (andThen World.call next) fs (k :: ts) a after) : k.fault = .none := by
  obtain ⟨w', hw, -⟩ := h ⟨fs, k :: ts, []⟩ [] rfl (List.append_nil _).symm
  obtain ⟨_, _, hcall, -⟩ := Choices.of_andThen_ok hw
  rw [World.call, turn_eq (w := ⟨fs, k :: ts, []⟩) rfl] at hcall
  by_contra hne
  dsimp only at hcall
  rw [if_neg hne] at hcall
  cases hcall

omit [Deps] in
theorem allowed_early {k : Turn} (h : Allowed m fair k) (ho : o = none ∨ o ∈ m.turns) :
    Allowed m fair ⟨k.others <|> o, k.fault⟩ := by
  refine ⟨?_, h.2⟩
  obtain ⟨others, fault⟩ := k
  cases others with
  | none => exact ho
  | some fs => exact h.1

omit [Deps] in
theorem comes_early {r : Except String α}
    (h : Comes frame Agree (Allowed m fair) (andThen World.call next) (edited fs o) r after)
    (ho : o = none ∨ o ∈ m.turns) : Comes frame Agree (Allowed m fair) (andThen World.call next) fs r after := by
  have hsame {w : World} {k : Turn} {rest : List Turn} (hw : w.fs = fs)
    (hturns : w.turns = ⟨k.others <|> o, k.fault⟩ :: rest) :
      andThen World.call next w = andThen World.call next ⟨edited fs o, k :: rest, w.log⟩ := by
    rw [andThen, andThen, call_early hw hturns]
  cases h with
  | ok ks hks h =>
    cases ks with
    | nil => exact (not_goes_nil h).elim
    | cons k ks =>
      obtain ⟨hk, hks⟩ := List.forall_mem_cons.mp hks
      refine .ok (⟨k.others <|> o, k.fault⟩ :: ks) (List.forall_mem_cons.mpr ⟨allowed_early hk ho, hks⟩)
        fun w rest hw hturns => ?_
      rw [hsame hw hturns]
      exact h _ rest rfl rfl
  | error ks hks h =>
    cases ks with
    | nil =>
      refine .error [⟨o, .none⟩] (Choices.forall_mem_single (.none o ho)) fun w rest hw hturns => ?_
      have hturns' : w.turns = ⟨(⟨none, .none⟩ : Turn).others <|> o, .none⟩ :: rest := hturns
      rw [hsame hw hturns']
      exact h _ (⟨none, .none⟩ :: rest) rfl rfl
    | cons k ks =>
      obtain ⟨hk, hks⟩ := List.forall_mem_cons.mp hks
      refine .error (⟨k.others <|> o, k.fault⟩ :: ks) (List.forall_mem_cons.mpr ⟨allowed_early hk ho, hks⟩)
        fun w rest hw hturns => ?_
      rw [hsame hw hturns]
      exact h _ rest rfl rfl

end

/-! ### A probe whose answer is lost -/

theorem each_probing (path : Text) (paths : List Text) : ∃ next : Unit → World → Except String Nodes × World,
    each probing (path :: paths) = andThen World.call next :=
  ⟨_, by rw [each, probing, Choices.andThen_assoc]⟩

theorem probing_eq (path : Text) {w : World} {k : Turn} {rest : List Turn} (hturns : w.turns = k :: rest)
    (hfault : k.fault = .none) :
    probing path w = (.ok (path, (edited w.fs k.others path).lstat), ⟨edited w.fs k.others, rest, w.log⟩) := by
  have hcall : w.call = (.ok (), ⟨edited w.fs k.others, rest, w.log⟩) := by
    rw [World.call, turn_eq hturns, hfault]
    rfl
  rw [probing, Choices.andThen_ok hcall]

/-- A probe that went through had a turn for its first path, in which nothing failed. -/
theorem goes_probing_cons {path : Text} {paths : List Text} {ts : List Turn} {es : Nodes} {after : Fs}
    (h : Goes frame (each probing (path :: paths)) fs ts es after) :
    ∃ k ks, ts = k :: ks ∧ es = (path, (edited fs k.others path).lstat) :: es.tail ∧
      Goes frame (each probing paths) (edited fs k.others) ks es.tail after := by
  obtain ⟨next, hnext⟩ := each_probing path paths
  cases ts with
  | nil => exact (not_goes_nil (hnext ▸ h)).elim
  | cons k ks =>
    have hfault : k.fault = .none := fault_of_goes (hnext ▸ h)
    have hinv (log : List Deed) (rest : List Turn) : ∃ w', frame.view w' = after ∧ frame.choices w' = rest ∧
        es = (path, (edited fs k.others path).lstat) :: es.tail ∧
        each probing paths ⟨edited fs k.others, ks ++ rest, log⟩ = (.ok es.tail, w') := by
      obtain ⟨w', hgoes, hfs, hrest⟩ := h ⟨fs, k :: (ks ++ rest), log⟩ rest rfl rfl
      obtain ⟨e, w₁, hprobing, hgoes⟩ := Choices.of_andThen_ok hgoes
      obtain ⟨es', w₂, hes, hdone⟩ := Choices.of_andThen_ok hgoes
      rw [probing_eq path rfl hfault] at hprobing
      cases hprobing
      cases hdone
      exact ⟨w', hfs, hrest, rfl, hes⟩
    obtain ⟨_, -, -, hes, -⟩ := hinv [] []
    refine ⟨k, ks, rfl, hes, fun w rest hw hturns => ?_⟩
    obtain ⟨w', hfs, hrest, -, hgoes⟩ := hinv w.log rest
    have hw' : (⟨edited fs k.others, ks ++ rest, w.log⟩ : World) = w := by rw [← hw, ← hturns]; rfl
    exact ⟨w', hw' ▸ hgoes, hfs, hrest⟩

/-- A probe that went through might as well have failed in its last call. -/
theorem probe_lost {path : Text} {paths : List Text} {ts : List Turn} {es : Nodes} {after : Fs}
    (hts : ∀ k ∈ ts, k.others = none ∨ k.others ∈ m.turns) (h : Goes frame (each probing (path :: paths)) fs ts es after) :
    ∃ ts', (∀ k ∈ ts', k.others = none ∨ k.others ∈ m.turns) ∧
      Stops frame Agree (each probing (path :: paths)) fs ts' after := by
  induction paths generalizing path fs ts es with
  | nil =>
    obtain ⟨k, ks, rfl, -, hdone⟩ := goes_probing_cons h
    obtain ⟨w', hw, hfs, -⟩ := hdone ⟨edited fs k.others, ks, []⟩ [] rfl (List.append_nil ks).symm
    have hsame : ⟨edited fs k.others, ks, []⟩ = w' := congrArg Prod.snd hw
    have hafter : edited fs k.others = after := by rw [← hfs, ← hsame]; rfl
    refine ⟨[⟨k.others, .cut⟩], Choices.forall_mem_single (hts k List.mem_cons_self), ?_⟩
    have hcut : Stops frame Agree World.call fs [⟨k.others, .cut⟩] (edited fs k.others) := call_stops (by simp)
    obtain ⟨next, hnext⟩ := each_probing path []
    rw [hnext, ← hafter]
    exact hcut.andThen next
  | cons p paths ih =>
    obtain ⟨k, ks, rfl, -, hrest⟩ := goes_probing_cons h
    obtain ⟨hk, hks⟩ := List.forall_mem_cons.mp hts
    obtain ⟨ts', hts', hstops⟩ := ih hks hrest
    have hfirst : Goes frame (probing path) fs [⟨k.others, .none⟩] (path, (edited fs k.others path).lstat)
        (edited fs k.others) :=
      probing_goes path
    exact ⟨[⟨k.others, .none⟩] ++ ts', List.forall_mem_append.mpr ⟨Choices.forall_mem_single hk, hts'⟩,
      hfirst.andThen_stops (hstops.andThen _)⟩

/-! ### The call that probes -/

variable {paths : List Text}

omit [Deps] in
theorem length_probeScript (paths : List Text) : 8 + paths.length ≤ (probeScript paths).length := by
  have hpaths := length_le_flatMap (f := fun path => "p ".toList ++ quote path ++ ['\n'])
    (fun p => List.length_pos_of_ne_nil (by simp)) paths
  have hprelude := length_scriptPrelude
  simp only [probeScript, List.length_append] at hpaths ⊢
  omega

omit [Deps] in
theorem texts_probed {paths : List Text} {es : Nodes} (h : es.length = paths.length) :
    texts (fun _ (e : Text × Node) => e.2.line ++ ['\n']) paths es = answerText (es.map fun e => e.2.line) := by
  induction paths generalizing es with
  | nil =>
    cases es with
    | nil => rfl
    | cons => cases h
  | cons path paths ih =>
    cases es with
    | nil => cases h
    | cons e es => exact congrArg ((e.2.line ++ ['\n']) ++ ·) (ih (Nat.succ.inj h))

/-- A probe that gives no answer is one of which a call failed. -/
theorem comes_ceased {path : Text} {after : Fs}
    (h : Ceases frame Agree (Allowed m fair) cutTurn (each probing (path :: paths)) fs after) (e : String) :
    Comes frame Agree (Allowed m fair) (each probing (path :: paths)) fs (.error e : Except String Nodes) after := by
  cases h with
  | stops ts hts h => exact .error ts hts h
  | after es ts hts hcut h =>
    have hnot : ¬ fair := fun hf => nomatch hcut.2 hf
    obtain ⟨ts', hts', hstops⟩ := probe_lost (fun k hk => (hts k hk).1) h
    exact .error ts' (fun k hk => ⟨hts' k hk, fun hf => absurd hf hnot⟩) hstops

theorem of_probing {w w' : World} {es : Nodes} (h : each probing paths w = (.ok es, w')) :
    es.map (·.1) = paths ∧ ∀ e ∈ es, e.2.Hex := by
  induction paths generalizing w es with
  | nil =>
    cases h
    exact ⟨rfl, fun _ he => nomatch he⟩
  | cons path paths ih =>
    obtain ⟨e, w₁, he, h⟩ := Choices.of_andThen_ok h
    obtain ⟨es', w₂, hes, h⟩ := Choices.of_andThen_ok h
    obtain ⟨_, w₃, -, he⟩ := Choices.of_andThen_ok he
    cases he
    cases h
    obtain ⟨hnames, hhex⟩ := ih hes
    exact ⟨congrArg (path :: ·) hnames, List.forall_mem_cons.mpr ⟨hex_lstat _, hhex⟩⟩

theorem of_goes_probing {ts : List Turn} {es : Nodes} {after : Fs} (h : Goes frame (each probing paths) fs ts es after) :
    es.map (·.1) = paths ∧ ∀ e ∈ es, e.2.Hex := by
  obtain ⟨w, hw, -, -⟩ := h ⟨fs, ts, []⟩ [] rfl (List.append_nil ts).symm
  exact of_probing hw

/-- Nothing is told but what was there after some turn of the others. -/
theorem legible_of_goes {ts : List Turn} {es : Nodes} {after : Fs} (h : Goes frame (each probing paths) fs ts es after)
    (hts : ∀ k ∈ ts, k.others = none ∨ k.others ∈ m.turns)
    (hfs : ∀ o, o = none ∨ o ∈ m.turns → ∀ path, (edited fs o path).lstat.Legible) : ∀ e ∈ es, e.2.Legible := by
  induction paths generalizing fs ts es with
  | nil =>
    have hes : es = [] := List.map_eq_nil_iff.mp (of_goes_probing h).1
    rw [hes]
    exact fun _ he => nomatch he
  | cons path paths ih =>
    obtain ⟨k, ks, rfl, hes, hrest⟩ := goes_probing_cons h
    obtain ⟨hk, hks⟩ := List.forall_mem_cons.mp hts
    rw [hes]
    refine List.forall_mem_cons.mpr ⟨hfs _ hk path, ih hrest hks fun o ho p => ?_⟩
    rw [edited_edited]
    refine hfs _ ?_ p
    cases o with
    | none => exact hk
    | some => exact ho

/-- How the script of a probe ends: all is told, or there is no answer. -/
inductive ProbeEnds (m : Machine) (fair : Prop) (paths : List Text) (f : Flow) (t : State Machine) : Prop where
  | told (es : Nodes) (flow : f = .next) (going : Going m (defined [] probeFuns) t)
      (hex : ∀ e ∈ es, e.2.Hex) (names : es.map (·.1) = paths)
      (comes : Comes frame Agree (Allowed m fair) (each probing paths) m.fs (.ok es : Except String Nodes) t.sys.fs)
      (lost : ¬ fair → ∀ e, Comes frame Agree (Allowed m fair) (each probing paths) m.fs (.error e : Except String Nodes)
        t.sys.fs)
      (out : t.out = answerText (es.map fun e => e.2.line))
  | ceased (stopped : f = .killed ∨ f ≠ .next ∧ t.status ≠ 0) (tools : t.sys.tools = m.tools)
      (comes : ∀ e, Comes frame Agree (Allowed m fair) (each probing paths) m.fs (.error e : Except String Nodes) t.sys.fs)

theorem ends_probeScript (hfair : fair → m.fates = [] ∧ Equipped m) (hpaths : ∀ path ∈ paths, '\'' ∉ path)
    (hne : paths ≠ []) (fates : List CallFate) (hcalm : m.fates = [] → fates = []) :
    Ends (ProbeEnds m fair paths)
      (Shell.runScript system Machine.turn shellDepth (probeScript paths) { m with fates }) := by
  obtain ⟨path, rest, rfl⟩ := List.exists_cons_of_ne_nil hne
  obtain ⟨next, hnext⟩ := each_probing path rest
  have hscript : Shell.Script (probeScript (path :: rest)) (preludeCommands ++ (definitions probeFuns ++
      ((path :: rest).map (fun path => cmd [lit "p", quotedWord path]) ++ []))) := by
    have hread : Shell.Script _ (preludeCommands ++ definitions probeFuns ++
        (path :: rest).map fun path => cmd [lit "p", quotedWord path]) := script_probeScript hpaths
    simpa [List.append_assoc] using hread
  obtain ⟨k, hk⟩ := Nat.exists_eq_add_of_le (length_probeScript (path :: rest))
  have hfuel : (probeScript (path :: rest)).length + 1 = probeFuns.length + ((path :: rest).length + (k + 4)) + 4 := by
    rw [hk]
    simp only [probeFuns, List.length_cons, List.length_nil]
    omega
  rw [Shell.runScript, hfuel]
  refine ends_script hcalm hscript (fun t o ht hfs ho hout hs => ?_) fun t o hnot hstatus hfs ho htools => ?_
  · have hcommand : ∀ p ∈ path :: rest, Matches m (defined [] probeFuns) fair shellDepth (cmd [lit "p", quotedWord p])
      (probing p)
        fun e => e.2.line ++ ['\n'] := fun p _ => matches_probe (fun hf => (hfair hf).1) p
    have hearly {r : Except String Nodes} {after : Fs}
      (h : Comes frame Agree (Allowed m fair) (each probing (path :: rest)) t.sys.fs r after) :
        Comes frame Agree (Allowed m fair) (each probing (path :: rest)) m.fs r after := by
      rw [hnext] at h ⊢
      exact comes_early (hfs ▸ h) ho
    refine ends_all hcommand probing_cut ht hs (fun u es ts hts hu hgoes hlength hout' hs' => ?_)
      fun f u hstopped htools hceases => .ceased hstopped htools fun e => hearly (comes_ceased hceases e)
    refine hs'.run_nil (.told es rfl hu ?_ ?_ (hearly (.ok ts hts hgoes)) (fun hnot e =>
      hearly (comes_ceased (.after es ts hts (allowed_cut hnot) hgoes) e)) ?_)
    · exact (of_goes_probing hgoes).2
    · exact (of_goes_probing hgoes).1
    · rw [hout', hout, texts_probed hlength, List.nil_append]
  · refine .ceased (Or.inr ⟨by simp, by rw [hstatus]; decide⟩) htools fun e => ?_
    have hcut : Stops frame Agree World.call m.fs [⟨o, .cut⟩] (edited m.fs o) := call_stops (by simp)
    rw [hfs, hnext]
    exact .error [⟨o, .cut⟩] (Choices.forall_mem_single ⟨ho, fun hf => absurd (hfair hf).2 hnot⟩) (hcut.andThen _)

/-- What a machine's files can be told of without loss: now, and whatever the others make of them. -/
def Tellable (m : Machine) : Prop :=
  ∀ o, o = none ∨ o ∈ m.turns → ∀ path, (edited m.fs o path).lstat.Legible

variable [RustDebug]

/-- A probe over `pct exec` is a probe of the guest, whatever fails and whatever the others do; and it has no faults if
    nothing fails and all can be told. -/
theorem probe_refines (vmid : UInt32) (hpaths : ∀ path ∈ paths, '\'' ∉ path) (hne : paths ≠ []) :
    Refines m (Fair (probeScript paths) m ∧ Tellable m) (World.probe · paths) (Pct.probe vmid paths m) := by
  have hfair (hf : Fair (probeScript paths) m ∧ Tellable m) : m.fates = [] ∧ Equipped m := ⟨hf.1.calm, hf.1.equipped⟩
  have hcalled := called fun fates hcalm => ends_probeScript hfair hpaths hne fates hcalm
  rw [probe_eq]
  have hfailed {e : String} {m' : Machine} (htools : m'.tools = m.tools)
      (h : Comes frame Agree (Allowed m (Fair (probeScript paths) m ∧ Tellable m)) (each probing paths) m.fs
        (.error e : Except String Nodes) m'.fs) :
      Refines m (Fair (probeScript paths) m ∧ Tellable m) (each probing paths) (.error e, m') :=
    ⟨h, htools, fun _ h => (nomatch h), fun _ h => nomatch h⟩
  unfold Pct.probe Pct.execOk
  generalize Pct.exec (probeScript paths) m = r at hcalled
  obtain ⟨r, m'⟩ := r
  dsimp only at hcalled ⊢
  cases hcalled with
  | answered f t hends hf =>
    dsimp only
    cases hends with
    | told es _ hgoing hhex hnames hcomes hlost hout =>
      rw [if_neg (not_not.mpr hgoing.status), hout, ← hnames]
      dsimp only
      rcases parseProbe_lines hhex with ⟨-, hparse⟩ | ⟨hnot, e, hparse⟩
      · rw [hparse, hnames]
        exact ⟨hcomes, hgoing.tools, fun _ _ => hgoing.turns, fun _ _ => hgoing.calm⟩
      · rw [hparse, hnames]
        refine hfailed hgoing.tools (hlost (fun hf => hnot ?_) e)
        cases hcomes with
        | ok ts hts hgoes => exact legible_of_goes hgoes (fun k hk => (hts k hk).1) hf.2
    | ceased hstopped htools hcomes =>
      rw [if_pos (hstopped.resolve_left hf).2]
      exact hfailed htools (hcomes _)
  | lost e f t hends hwhy =>
    cases hends with
    | told es hflow hgoing _ _ _ hlost =>
      have hnot : ¬ Fair (probeScript paths) m := hwhy.resolve_left (by simp [hflow])
      exact hfailed hgoing.tools (hlost (fun hf => hnot hf.1) e)
    | ceased _ htools hcomes => exact hfailed htools (hcomes e)
  | never r m' hnot hsame hstatus =>
    obtain ⟨path, rest, rfl⟩ := List.exists_cons_of_ne_nil hne
    have hcut (e : String) : Comes frame Agree (Allowed m (Fair (probeScript (path :: rest)) m ∧ Tellable m))
        (each probing (path :: rest)) m.fs (.error e : Except String Nodes) m'.fs := by
      rw [hsame]
      exact .error [cutTurn] (Choices.forall_mem_single (allowed_cut fun hf => hnot hf.1))
        ((probing_cut path m.fs).andThen _)
    have htools : m'.tools = m.tools := by rw [hsame]
    cases r with
    | error e => exact hfailed htools (hcut e)
    | ok out =>
      dsimp only
      rw [if_pos (by rw [hstatus out rfl]; decide)]
      exact hfailed htools (hcut _)

end Guest
end PveMeta
