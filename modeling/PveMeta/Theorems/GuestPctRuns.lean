import PveMeta.Guest.Sample
import PveMeta.Theorems.GuestChanges
import PveMeta.Theorems.GuestPeace

/-! # Runs over `pct exec`

Syncs by scripts, one after the other, each of which can be cut off anywhere: what such a run does the steps can do, and
so what holds of the files whatever the steps do holds of them here. -/

namespace PveMeta
namespace Guest

open Relation (ReflTransGen)

section

variable [Deps] [RustDebug] [Serde]

/-! ### Over `pct exec` -/

section

variable {vmid : UInt32} {m : Machine} {files : GuestFiles} {force : Bool} {α : Type}

/-- What came of a call is what comes of the step. A call that failed may leave the daemon's own files otherwise. -/
def Came (step : World → Except String α × World) (w : World) (r : Except String α × Machine) : Prop :=
  ∃ w', match r with
    | (.ok a, m') => step w = (.ok a, w') ∧ w'.fs = m'.fs
    | (.error _, m') => (∃ e, step w = (.error e, w')) ∧ Agree m'.fs w'.fs

omit [Deps] [RustDebug] [Serde] in
theorem Refines.simulated {fair : Prop} {step : World → Except String α × World} {r : Except String α × Machine}
    (h : Refines m fair step r) :
    ∃ ts, (∀ t ∈ ts, Allowed m fair t) ∧ ∀ log, Came step ⟨m.fs, ts, log⟩ r := by
  obtain ⟨e, m'⟩ := r
  cases h.comes with
  | ok ts hts hgoes =>
    refine ⟨ts, hts, fun log => ?_⟩
    obtain ⟨w', hw', hfs, -⟩ := hgoes ⟨m.fs, ts, log⟩ [] rfl (List.append_nil ts).symm
    exact ⟨w', hw', hfs⟩
  | error ts hts hstops =>
    refine ⟨ts, hts, fun log => ?_⟩
    obtain ⟨e, w', hw', hlike⟩ := hstops ⟨m.fs, ts, log⟩ [] rfl (List.append_nil ts).symm
    exact ⟨w', ⟨e, hw'⟩, hlike⟩

omit [Deps] [RustDebug] [Serde] in
theorem Came.agree {step : World → Except String α × World} {w : World} {r : Except String α × Machine}
    (h : Came step w r) :
    Agree r.2.fs (step w).2.fs := by
  obtain ⟨r, m'⟩ := r
  obtain ⟨w', h⟩ := h
  cases r with
  | ok a =>
    rw [h.1]
    exact fun p _ => congrFun h.2.symm p
  | error e =>
    obtain ⟨⟨e', hstep⟩, hagree⟩ := h
    rw [hstep]
    exact hagree

theorem sync_world (vmid : UInt32) (files : GuestFiles) (force : Bool) :
    ∃ ts, (∀ t ∈ ts, t.others = none ∨ t.others ∈ m.turns) ∧
      ∀ log, Agree ((Pct.calls vmid).sync files force m).2.fs (sync files force ⟨m.fs, ts, log⟩).2.fs := by
  obtain ⟨ts, hts, hcame⟩ := (sync_refines vmid files force).simulated
  exact ⟨ts, fun t ht => (hts t ht).1, fun log => (hcame log).agree⟩

end

/-! ### Runs -/

section

variable {vmid : UInt32} {m : Machine} {happenings : List Happening}

/-- Happenings, as events from this world on: a sync with some faults, and then a change of the daemon's own temp files
    only. -/
inductive Follows : World → List Happening → List Event → Prop
  | nil (w : World) : Follows w [] []
  | others {w : World} {fs : Fs} {hs : List Happening} {es : List Event} (h : Follows (step w (.others fs)) hs es) :
      Follows w (.others fs :: hs) (.others fs :: es)
  | editManifest {w : World} {node : Inode} {hs : List Happening} {es : List Event}
      (h : Follows (step w (.editManifest node)) hs es) : Follows w (.editManifest node :: hs) (.editManifest node :: es)
  | sync {w : World} {files : GuestFiles} {force : Bool} {turns : List (Option Fs)} {fates : List CallFate} {ts : List Turn}
      {left : Fs} {hs : List Happening} {es : List Event} (mem : ∀ t ∈ ts, t.others = none ∨ t.others ∈ turns)
      (agree : Agree left (step w (.sync files force ts)).fs)
      (h : Follows (step (step w (.sync files force ts)) (.others left)) hs es) :
      Follows w (.sync files force turns fates :: hs) (.sync files force ts :: .others left :: es)

theorem exists_follows (vmid : UInt32) (happenings : List Happening) (w : World) (hw : w.fs = m.fs) :
    ∃ events, Follows w happenings events ∧ (run w events).fs = (m.runs vmid happenings).fs := by
  induction happenings generalizing m w with
  | nil => exact ⟨[], .nil w, hw⟩
  | cons h happenings ih =>
    cases h with
    | others fs =>
      have hfs : (step w (.others fs)).fs = (m.step vmid (.others fs)).fs := by
        simp only [step, World.edit, Machine.step, Machine.edit, hw]
      obtain ⟨events, hfollows, hrun⟩ := ih (step w (.others fs)) hfs
      exact ⟨.others fs :: events, .others hfollows, hrun⟩
    | editManifest node =>
      have hfs : (step w (.editManifest node)).fs = (m.step vmid (.editManifest node)).fs := by
        simp only [step, World.set, Machine.step, Machine.set, hw]
      obtain ⟨events, hfollows, hrun⟩ := ih (step w (.editManifest node)) hfs
      exact ⟨.editManifest node :: events, .editManifest hfollows, hrun⟩
    | sync files force turns fates =>
      obtain ⟨ts, hts, hagree⟩ := sync_world (m := { m with turns, fates }) vmid files force
      have hstep : step w (.sync files force ts) = (sync files force ⟨m.fs, ts, w.log⟩).2 := by rw [← hw]; rfl
      have hagree : Agree (m.step vmid (.sync files force turns fates)).fs (step w (.sync files force ts)).fs :=
        hstep ▸ hagree w.log
      -- what the scripts left is what the step left, but for temp files, and these are changed after it
      have hfs : (step (step w (.sync files force ts)) (.others (m.step vmid (.sync files force turns fates)).fs)).fs =
          (m.step vmid (.sync files force turns fates)).fs := by
        funext p
        rw [step, World.edit]
        dsimp only
        split
        · next hp => exact (hagree p (hp ▸ not_reserved_manifestPath)).symm
        · rfl
      obtain ⟨events, hfollows, hrun⟩ := ih _ hfs
      exact ⟨.sync files force ts :: .others _ :: events, .sync hts hagree hfollows, hrun⟩

/-- What holds of the files and is kept by every happening, the others' and a sync's, holds after a run. -/
theorem runs_keep {P : Fs → Prop} {happenings : List Happening} (h : P m.fs)
    (hothers : ∀ fs left, .others left ∈ happenings → P fs → P fun p => if p = manifestPath then fs p else left p)
    (hedit : ∀ fs node, .editManifest node ∈ happenings → P fs → P (Function.update fs manifestPath node))
    (hsync : ∀ files force turns fates, .sync files force turns fates ∈ happenings → ∀ fs fs' ts,
      (∀ t ∈ ts, t.others = none ∨ t.others ∈ turns) → Agree fs' (sync files force ⟨fs, ts, []⟩).2.fs → P fs → P fs') :
    P (m.runs vmid happenings).fs := by
  refine List.foldlRecOn (motive := fun m' : Machine => P m'.fs) happenings (Machine.step vmid) h
    fun m' hfs happening hmem => ?_
  cases happening with
  | others fs => exact hothers m'.fs fs hmem hfs
  | editManifest node => exact hedit m'.fs node hmem hfs
  | sync files force turns fates =>
    obtain ⟨ts, hts, hagree⟩ := sync_world (m := { m' with turns, fates }) vmid files force
    exact hsync files force turns fates hmem m'.fs _ ts hts (hagree []) hfs

end

/-! ### What is never there in part -/

section

variable {vmid : UInt32} {m : Machine} {happenings : List Happening} {p : Text}

/-- The others left these files, at the start or in a run. -/
def LeftBy (fs₀ : Fs) (happenings : List Happening) (fs : Fs) : Prop :=
  fs = fs₀ ∨ .others fs ∈ happenings ∨
    ∃ files force turns fates, .sync files force turns fates ∈ happenings ∧ some fs ∈ turns

/-- A sync of the run was asked for this file at the path. -/
def AskedFor (happenings : List Happening) (p : Text) (node : Inode) : Prop :=
  ∃ files force turns fates, .sync files force turns fates ∈ happenings ∧
    ∃ d ∈ files.desired, d.entry.path.text = p ∧ node = .file d.entry.owner d.entry.mode d.content

/-- What may be at the path after a run. -/
def Whole (fs₀ : Fs) (happenings : List Happening) (p : Text) (node : Inode) : Prop :=
  node = .missing ∨ node = .dir ∨ (∃ fs, LeftBy fs₀ happenings fs ∧ fs p = node) ∨ AskedFor happenings p node

omit [RustDebug] [Serde] in
theorem Change.whole {fs₀ : Fs} {files : GuestFiles} {force : Bool} {turns : List (Option Fs)} {fates : List CallFate}
    (hmem : .sync files force turns fates ∈ happenings) {old : Manifest} {node node' : Inode}
    (h : Change files old force (fun fs => some fs ∈ turns) p node node') : Whole fs₀ happenings p node' := by
  have hasked (d : Desired) (wanted : d ∈ files.desired) (path : d.entry.path.text = p) :
      Whole fs₀ happenings p (.file d.entry.owner d.entry.mode d.content) :=
    Or.inr (Or.inr (Or.inr ⟨files, force, turns, fates, hmem, d, wanted, path, rfl⟩))
  cases h with
  | others node fs left =>
    exact Or.inr (Or.inr (Or.inl ⟨fs, Or.inr (Or.inr ⟨files, force, turns, fates, hmem, left⟩), rfl⟩))
  | made => exact Or.inr (Or.inl rfl)
  | created d wanted path => exact hasked d wanted path
  | updated d wanted path => exact hasked d wanted path
  | overwritten d wanted path => exact hasked d wanted path
  | removed => exact Or.inl rfl

theorem sync_changes {files : GuestFiles} {force : Bool} {turns : List (Option Fs)} {fs fs' : Fs} {ts : List Turn}
    (hp : ¬ Reserved p) (hne : p ≠ manifestPath) (hts : ∀ t ∈ ts, t.others = none ∨ t.others ∈ turns)
    (hagree : Agree fs' (sync files force ⟨fs, ts, []⟩).2.fs) :
    ReflTransGen (Change files (manifestAt (fs manifestPath)) force (fun left => some left ∈ turns) p) (fs p) (fs' p) := by
  have hfaced : Faced (fun left => some left ∈ turns) ⟨fs, ts, []⟩ := by
    intro t ht left hleft
    rcases hts t ht with hnone | hmem
    · rw [hnone] at hleft
      cases hleft
    · exact hleft ▸ hmem
  rw [hagree p hp]
  exact (sync_led hp hne files force ⟨fs, ts, []⟩ hfaced).2

/-- Nobody records a file of this hash at the path. -/
def Unrecorded (p : Text) (hash : String) (m : Manifest) : Prop :=
  ∀ q r, m.records.get? q = some r → q.text = p → r.sha256 ≠ hash

/-- The others leave the file as it is, and a sync neither asks for its content at its path nor overwrites what it finds
    there. -/
def Happening.Sparing (p : Text) (owner : Owner) (mode : Nat) (content : ByteArray) : Happening → Prop
  | .others fs => fs p = .file owner mode content
  | .editManifest node => Unrecorded p (MetaStore.digest content) (manifestAt node)
  | .sync files force turns _ => (∃ V : Writer, V.Asks files) ∧ force = false ∧
    (∀ d ∈ files.desired, d.entry.path.text = p → d.entry.localEdits = .keep ∧ d.sha256 ≠ MetaStore.digest content) ∧
    ∀ fs, some fs ∈ turns → fs p = .file owner mode content

variable {owner : Owner} {mode : Nat} {content : ByteArray}

omit [RustDebug] [Serde] in
/-- A file that is not recorded is not changed but by the others, unless that is forced. -/
theorem Change.spared {files : GuestFiles} {old : Manifest} {force : Bool} {may : Fs → Prop} {node : Inode}
    (h : Change files old force may p (.file owner mode content) node) (hold : Unrecorded p (MetaStore.digest content) old)
    (hforce : force = false) (hkeep : ∀ d ∈ files.desired, d.entry.path.text = p → d.entry.localEdits = .keep)
    (hmay : ∀ fs, may fs → fs p = .file owner mode content) : node = .file owner mode content := by
  cases h with
  | others _ fs left => exact hmay fs left
  | updated d wanted path r known _ _ _ hash => exact absurd hash.symm (hold _ r known path)
  | overwritten d wanted path _ _ _ forced =>
    rw [hkeep d wanted path, hforce] at forced
    rcases forced with hedits | hforced
    · cases hedits
    · cases hforced
  | removed q path unwanted r known _ _ _ hash => exact absurd hash.symm (hold q r known path)

/-- A sync is one of the writers', and whoever else edits the manifest attributes what is in it to them. -/
def Happening.By (writers : Set Writer) : Happening → Prop
  | .others _ => True
  | .editManifest node => Attributed writers (manifestAt node)
  | .sync files _ _ _ => ∃ V ∈ writers, V.Asks files

/-- Every record stays one writer's, whatever fails or is killed. -/
theorem runs_attributed (hserde : Manifest.SerdeReads) (vmid : UInt32) {writers : Set Writer}
    (hapart : writers.InjOn Writer.known) (h : Attributed writers (manifestAt (m.fs manifestPath)))
    (hhappenings : ∀ h ∈ happenings, h.By writers) :
    Attributed writers (manifestAt ((m.runs vmid happenings).fs manifestPath)) := by
  refine runs_keep (P := fun fs => Attributed writers (manifestAt (fs manifestPath))) h (fun fs left _ hfs => ?_)
    (fun fs node hmem _ => ?_) fun files force turns fates hmem fs fs' ts _ hagree hfs => ?_
  · dsimp only
    rwa [if_pos rfl]
  · rw [Function.update_self]
    exact hhappenings _ hmem
  · rw [hagree manifestPath not_reserved_manifestPath]
    exact step_attributed (w := ⟨fs, ts, []⟩) (e := .sync files force ts) hserde hapart (hhappenings _ hmem) hfs

end

/-! ### Each call -/

section

variable {α : Type} {vmid : UInt32} {m : Machine} {fair : Prop} {files : GuestFiles} {old : Manifest} {nodes : Nodes}
    {force : Bool}

/-- A call does what the step does, with turns that the others took and with faults only if something went wrong; and just
    what the step does if nothing goes wrong and nobody else is there. -/
structure Implements (m : Machine) (fair : Prop) (step : World → Except String α × World) (r : Except String α × Machine) :
    Prop where
  simulated : ∃ ts, (∀ t ∈ ts, Allowed m fair t) ∧ ∀ log, Came step ⟨m.fs, ts, log⟩ r
  undisturbed : fair → (∀ others ∈ m.turns, others = none) → ∀ log, Came step ⟨m.fs, [], log⟩ r

omit [Deps] [RustDebug] [Serde] in
theorem Steady.came {step : World → Except String α × World} (hsteady : Steady step) {fs : Fs} {ts : List Turn}
    {log : List Deed}
    (hpeace : Peaceful ts) {r : Except String α × Machine} (h : Came step ⟨fs, ts, log⟩ r) : Came step ⟨fs, [], log⟩ r := by
  obtain ⟨result, fs', ts', log', -, hstep, hplain⟩ := hsteady fs ts log hpeace
  obtain ⟨r, m'⟩ := r
  obtain ⟨w', h⟩ := h
  rw [hstep] at h
  refine ⟨⟨fs', [], log'⟩, ?_⟩
  rw [hplain]
  cases r with
  | ok a =>
    obtain ⟨hresult, hfs⟩ := h
    cases hresult
    exact ⟨rfl, hfs⟩
  | error e =>
    obtain ⟨⟨e', hresult⟩, hagree⟩ := h
    cases hresult
    exact ⟨⟨e', rfl⟩, hagree⟩

omit [Deps] [RustDebug] [Serde] in
theorem Refines.implements {step : World → Except String α × World} {r : Except String α × Machine}
    (h : Refines m fair step r) (hsteady : Steady step) : Implements m fair step r := by
  obtain ⟨ts, hts, hcame⟩ := h.simulated
  refine ⟨⟨ts, hts, hcame⟩, fun hfair halone log => hsteady.came (fun t ht => ?_) (hcame log)⟩
  obtain ⟨hothers, hfault⟩ := hts t ht
  have hnone : t.others = none := hothers.elim id fun hmem => halone t.others hmem
  obtain ⟨others, fault⟩ := t
  cases hnone
  cases hfault hfair
  rfl

omit [Serde] in
theorem probe_over_pct (vmid : UInt32) {paths : List Text} (hpaths : ∀ path ∈ paths, '\'' ∉ path) (hne : paths ≠ []) :
    Implements m (Fair (probeScript paths) m ∧ Tellable m) (World.probe · paths) (Pct.probe vmid paths m) :=
  (probe_refines vmid hpaths hne).implements (steady_probe paths)

omit [Serde] in
theorem read_over_pct (vmid : UInt32) (m : Machine) : Implements m (Fair (readScript manifestPath Manifest.maxBytes) m)
    (World.read · manifestPath Manifest.maxBytes) (Pct.read vmid manifestPath Manifest.maxBytes m) :=
  (read_refines vmid).implements (steady_read _ _)

omit [RustDebug] in
/-- Every script of a sync is read as the commands that it is meant to be, whatever the paths, the contents and the
    hashes. -/
theorem sync_scripts_read (files : GuestFiles) (old after : Manifest) (force : Bool) (hnodes : ∀ e ∈ nodes, e.2.Hex) :
    Shell.Script (readScript manifestPath Manifest.maxBytes) (readCommands manifestPath Manifest.maxBytes) ∧
      Shell.Script (probeScript (probePaths files old)) (probeCommands (probePaths files old)) ∧
      Shell.Script (commitScript (plan files old nodes force).dirs (plan files old nodes force).ops)
        (commitCommands (plan files old nodes force).dirs (plan files old nodes force).ops) ∧
      Shell.Script (commitScript (plan files old nodes force).dirs [manifestOp after])
        (commitCommands (plan files old nodes force).dirs [manifestOp after]) := by
  have hdirs : ∀ dir ∈ (plan files old nodes force).dirs, '\'' ∉ dir := fun _ h => quotable_dirs h
  refine ⟨script_readManifest, script_probeScript fun _ h => quotable_probePaths h, script_commitScript hdirs
    fun op hop => ?_, script_commitScript hdirs fun op hop => ?_⟩
  · exact ((planned_of_mem hop).fit hnodes).1
  · exact List.mem_singleton.mp hop ▸ (fit_manifestOp after).1

omit [Serde] in
/-- The answer of a probe is read as what is there, unless a number in it is too large to be read. -/
theorem probe_answer_reads (l : List (Text × Inode)) :
    (∀ e ∈ l, e.2.lstat.Legible) ∧ parseProbe (l.map (·.1)) (textBytes (answerText (l.map fun e => e.2.lstat.line))) =
        .ok (l.map fun e => (e.1, e.2.lstat)) ∨
      ¬ (∀ e ∈ l, e.2.lstat.Legible) ∧
        ∃ why, parseProbe (l.map (·.1)) (textBytes (answerText (l.map fun e => e.2.lstat.line))) = .error why := by
  have hhex : ∀ e ∈ l.map fun e => (e.1, e.2.lstat), e.2.Hex := by
    intro e he
    obtain ⟨e, -, rfl⟩ := List.mem_map.mp he
    exact hex_lstat e.2
  have hlines := parseProbe_lines hhex
  simp only [List.map_map, Function.comp_def, List.forall_mem_map] at hlines
  exact hlines

end

end

/-! ### A run -/

open GuestSample Sample

/-- A guest with every tool, where nothing fails. -/
def machine : Machine := ⟨guest, fun name => (Tool.ofName name).map fun _ => name, [], []⟩

/-- A sync of a document with this text for the file `app`, with a call that fails and then one that is killed in a
    write. -/
def troubled (text : String) : Happening := .sync (asked text) false [] [.works, .works, .fails [] 0, .killed 1]

theorem probe_over_pct_app : Implements machine (Fair (probeScript [appPath.text]) machine ∧ Tellable machine)
    (World.probe · [appPath.text]) (Pct.probe 101 [appPath.text] machine) :=
  probe_over_pct 101 (fun path h => List.mem_singleton.mp h ▸ appPath.quotable) (by decide)

/-- What a document asks for whose text has a quote and the mark that an input ends with. -/
def marked : GuestFiles := asked "it's\nPVE_META_GUEST_FILES_EOF\n"

/-- What a probe finds of a file that was written and then changed. -/
def changedNodes : Nodes :=
  [("/etc".toList, .dir), (guestRoot, .dir), (appPath.text, .file 0 0 0o644 (MetaStore.digest two))]

/-- It is overwritten by force. -/
def markedPlan : Plan := plan marked kept changedNodes true

theorem sync_scripts_read_app : markedPlan.items.map (·.action) = [.overwrite] ∧
    Shell.Script (readScript manifestPath Manifest.maxBytes) (readCommands manifestPath Manifest.maxBytes) ∧
      Shell.Script (probeScript (probePaths marked kept)) (probeCommands (probePaths marked kept)) ∧
      Shell.Script (commitScript markedPlan.dirs markedPlan.ops) (commitCommands markedPlan.dirs markedPlan.ops) ∧
      Shell.Script (commitScript markedPlan.dirs [manifestOp kept]) (commitCommands markedPlan.dirs [manifestOp kept]) := by
  have hnodes : ∀ e ∈ changedNodes, e.2.Hex := by
    intro e he
    simp only [changedNodes, List.mem_cons, List.not_mem_nil, or_false] at he
    rcases he with rfl | rfl | rfl
    · trivial
    · trivial
    · exact hex_lstat (.file .root 0o644 two)
  exact ⟨by decide +kernel, sync_scripts_read marked kept kept true hnodes⟩

theorem runs_attributed_app :
    Attributed {Writer.user} (manifestAt ((machine.runs 101 [troubled "a: 1\n", troubled "a: 2\n"]).fs manifestPath)) := by
  refine runs_attributed serdeReads 101 (Set.injOn_singleton _ _) (fun q r hr => ?_) fun h hmem => ?_
  · have hnone : machine.fs manifestPath = .missing := by decide +kernel
    rw [hnone] at hr
    cases hr
  · simp only [List.mem_cons, List.not_mem_nil, or_false] at hmem
    rcases hmem with rfl | rfl
    · exact ⟨.user, rfl, asks_asked _⟩
    · exact ⟨.user, rfl, asks_asked _⟩

end Guest
end PveMeta
