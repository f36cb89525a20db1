import PveMeta.Guest.Calls
import PveMeta.Theorems.GuestPctRead
import PveMeta.Theorems.GuestWriters

/-! # A sync over `pct exec`

A sync whose every read, check and write is a script run by the shell of a guest does what a sync of the steps does with
some faults, and reports the same: the paths, hashes and modes of its plan are such that its scripts are read as they are
meant. -/

namespace PveMeta
namespace Guest

open Choices (andThen done Goes Stops Comes)

variable [Deps] {α β : Type} {m m' : Machine} {fair : Prop} {files : GuestFiles} {old : Manifest} {nodes : Nodes}
    {force : Bool}

/-! ### One call after another -/

omit [Deps] in
theorem Refines.mono {step : World → Except String α × World} {r : Except String α × Machine} (h : Refines m fair step r)
    {fair' : Prop} (himp : fair' → fair) : Refines m fair' step r :=
  ⟨h.comes.mono fun _ hk => ⟨hk.1, fun hf => hk.2 (himp hf)⟩, h.tools, h.turns, h.calm⟩

omit [Deps] in
/-- Nothing is asked of the guest. -/
theorem refines_pure (r : Except String α) (m : Machine) : Refines m fair (fun w => (r, w)) (r, m) := by
  refine ⟨?_, rfl, fun _ _ _ h => h, fun _ _ h => h⟩
  cases r with
  | ok a => exact Choices.comes_done a m.fs
  | error e => exact .error [] (fun _ hk => nomatch hk) fun w _ hfs _ => ⟨e, w, rfl, hfs ▸ Agree.refl _⟩

omit [Deps] in
theorem refines_done (a : α) (m : Machine) : Refines m fair (done a) (done a m : Except String α × Machine) :=
  refines_pure (.ok a) m

omit [Deps] in
/-- Calls one after the other are steps one after the other. -/
theorem Refines.andThen {step : World → Except String α × World} {next : α → World → Except String β × World}
    {call : Machine → Except String α × Machine} {rest : α → Machine → Except String β × Machine}
      (h : Refines m fair step (call m))
    (hnext : ∀ a m', call m = (.ok a, m') → Refines m' fair (next a) (rest a m')) :
    Refines m fair (Choices.andThen step next) (Choices.andThen call rest m) := by
  cases hcall : call m with
  | mk r m' =>
    rw [hcall] at h
    cases r with
    | error e =>
      rw [Choices.andThen_error hcall]
      exact ⟨h.comes.andThen_error next, h.tools, fun _ hr => (nomatch hr), fun _ hr => nomatch hr⟩
    | ok a =>
      rw [Choices.andThen_ok hcall]
      have hrest := hnext a m' hcall
      have hturns : m'.turns ⊆ m.turns := h.turns a rfl
      have hcomes : Comes frame Agree (Allowed m fair) (next a) m'.fs (rest a m').1 (rest a m').2.fs :=
        hrest.comes.mono fun _ hk => ⟨hk.1.imp_right fun hx => hturns hx, hk.2⟩
      exact ⟨h.comes.andThen hcomes, hrest.tools.trans h.tools,
        fun b hb _ hx => hturns (hrest.turns b hb hx), fun b hb hm => hrest.calm b hb (h.calm a rfl hm)⟩

/-! ### What a plan hands to the scripts -/

omit [Deps] in
theorem quotable_of_segment {name : Text} (h : segmentProblem name = none) : '\'' ∉ name := by
  intro hmem
  unfold segmentProblem at h
  split at h
  · cases h
  split at h
  · cases h
  split at h
  · cases h
  next hfind =>
  have hchar := List.find?_eq_none.mp hfind '\'' hmem
  revert hchar
  decide

omit [Deps] in
theorem GuestPath.quotable (p : GuestPath) : '\'' ∉ p.text := by
  obtain ⟨rest, htext, hsegments⟩ := segments_of_pathProblem p.valid
  rw [htext, cons_eq_flatMap_splitOn]
  intro hmem
  obtain ⟨name, hname, hc⟩ := List.mem_flatMap.mp hmem
  rcases List.mem_cons.mp hc with hc | hc
  · revert hc
    decide
  · exact quotable_of_segment (hsegments name hname) hc

omit [Deps] in
theorem quotable_of_mem_directories {p : GuestPath} {dir : Text} (h : dir ∈ p.directories) : '\'' ∉ dir := by
  have hunder := isUnder_of_mem_directories h
  unfold isUnder at hunder
  split at hunder
  · next hstrip => exact fun hmem => p.quotable (eq_of_stripPrefix hstrip ▸ List.mem_append_left _ hmem)
  · cases hunder

omit [Deps] in
theorem GuestPath.ne_nil (p : GuestPath) : p.text ≠ [] := by
  obtain ⟨rest, htext, -⟩ := segments_of_pathProblem p.valid
  rw [htext]
  exact List.cons_ne_nil _ _

omit [Deps] in
theorem hex_of_assess {p : GuestPath} {hash : String} {mode : Nat} {owner : Owner} (hnodes : ∀ e ∈ nodes, e.2.Hex)
    (h : assess p nodes = .present hash mode owner) : ∀ c ∈ hash.toList, IsHex c := by
  unfold assess at h
  split at h
  · next state hdirs =>
    rw [h] at hdirs
    exact absurd hdirs assessDirs_ne_present
  cases hget : Assoc.get? p.text nodes with
  | none =>
    rw [Nodes.at, hget] at h
    cases h
  | some node =>
    rw [Nodes.at, hget, Option.getD_some] at h
    have hhex := hnodes _ (Assoc.mem_of_get? hget)
    cases node with
    | file uid gid mode' hash' =>
      cases h
      exact fun c hc => isHex_of (hhex c hc)
    | _ => cases h

omit [Deps] in
theorem plain_of_hex {hash : String} (h : ∀ c ∈ hash.toList, IsHex c) :
    '\'' ∉ hash.toList ∧ (Expect.sha256 hash).Plain := by
  have hchar (c : Char) (hc : isAsciiHexdigit c = false) : c ∉ hash.toList := fun hmem => by
    rw [(h c hmem).digit] at hc
    cases hc
  refine ⟨hchar _ (by decide), fun hall => ?_, fun hall => ?_⟩
  · exact hchar '*' (by decide) (by rw [hall]; exact List.mem_singleton_self _)
  · exact hchar '-' (by decide) (by rw [hall]; exact List.mem_singleton_self _)

/-- What is planned can be written in a script, and is not about one of the daemon's own files. -/
theorem Planned.fit {op : Op} (h : Planned files old nodes force op) (hnodes : ∀ e ∈ nodes, e.2.Hex) :
    op.Quotable ∧ op.Fit := by
  cases h with
  | create d => exact ⟨⟨d.entry.path.quotable, by decide⟩, trivial, d.entry.path.not_reserved⟩
  | update d _ _ r mode owner _ state =>
    obtain ⟨hquote, hplain⟩ := plain_of_hex (hex_of_assess hnodes state)
    exact ⟨⟨d.entry.path.quotable, hquote⟩, hplain, d.entry.path.not_reserved⟩
  | overwrite d _ _ hash mode owner state =>
    obtain ⟨hquote, hplain⟩ := plain_of_hex (hex_of_assess hnodes state)
    exact ⟨⟨d.entry.path.quotable, hquote⟩, hplain, d.entry.path.not_reserved⟩
  | remove q r _ mode owner _ _ _ state => exact ⟨⟨q.quotable, (plain_of_hex (hex_of_assess hnodes state)).1⟩, trivial⟩

theorem quotable_dirs {dir : Text} (h : dir ∈ (plan files old nodes force).dirs) : '\'' ∉ dir := by
  rcases mem_dirs h with rfl | ⟨d, -, hdir⟩
  · decide
  · exact quotable_of_mem_directories (List.mem_of_mem_filter hdir)

omit [Deps] in
theorem fit_manifestOp [Serde] (after : Manifest) : (manifestOp after).Quotable ∧ (manifestOp after).Fit :=
  ⟨⟨by decide, by decide⟩, trivial, not_reserved_manifestPath⟩

theorem probePaths_ne_nil (files : GuestFiles) (old : Manifest) : probePaths files old ≠ [] :=
  List.ne_nil_of_mem (mem_probePaths_iff.mpr (Or.inr (Or.inr (List.mem_cons_self (a := "/etc".toList)))))

theorem quotable_probePaths {path : Text} (h : path ∈ probePaths files old) : '\'' ∉ path := by
  have hquotable {q : GuestPath} (hq : path = q.text ∨ path ∈ q.directories) : '\'' ∉ path := by
    rcases hq with rfl | hdir
    · exact q.quotable
    · exact quotable_of_mem_directories hdir
  rcases mem_probePaths_iff.mp h with ⟨q, -, hq⟩ | ⟨q, -, hq⟩ | hdir
  · exact hquotable hq
  · exact hquotable hq
  · have hall : ∀ dir ∈ Manifest.directories, '\'' ∉ dir := by decide
    exact hall path hdir

/-! ### A sync, call by call -/

section

variable [RustDebug] [Serde] {σ : Type} (g : Calls σ)

theorem Calls.look_andThen (files : GuestFiles) : g.look files =
    andThen (g.read manifestPath Manifest.maxBytes) fun bytes =>
      if files.wantsFiles || ! (trusted bytes).1.isEmpty then
        andThen (g.probe (probePaths files (trusted bytes).1)) fun nodes => done (trusted bytes, nodes)
      else done (trusted bytes, []) := by
  funext s
  unfold Calls.look
  rw [andThen]
  rcases g.read manifestPath Manifest.maxBytes s with ⟨_ | bytes, s₁⟩
  · rfl
  dsimp only
  split
  · rw [andThen]
    rcases g.probe (probePaths files (trusted bytes).1) s₁ with ⟨_ | _, _⟩ <;> rfl
  · rfl

theorem Calls.inspect_andThen (files : GuestFiles) (force : Bool) : g.inspect files force =
    andThen (g.look files) fun e s => (.ok ⟨plan files e.1.1 e.2 force, e.1.1, e.1.2⟩,
      g.note ((files.desired.filter (asWanted e.2)).map fun d => .found d.entry.path.text d.sha256) s) := by
  funext s
  unfold Calls.inspect
  rw [andThen]
  rcases g.look files s with ⟨_ | ⟨⟨_, _⟩, _⟩, _⟩ <;> rfl

/-- What a save of the manifest says of how it went. -/
def saved : List Outcome → Except String Unit
  | [.failed why] => .error ("writing " ++ String.ofList manifestPath ++ ": " ++ why)
  | _ => .ok ()

omit [Deps] [RustDebug] in
theorem Calls.saveManifest_andThen (before after : Manifest) (dirs : List Text) : g.saveManifest before after dirs =
    if after = before then done () else andThen (g.commit dirs [manifestOp after]) fun os s => (saved os, s) := by
  funext s
  unfold Calls.saveManifest
  split
  · rfl
  · rw [andThen]
    rcases g.commit dirs [manifestOp after] s with ⟨_ | ⟨_ | ⟨_ | _, _ | _⟩⟩, _⟩ <;> rfl

theorem Calls.sync_andThen (files : GuestFiles) (force : Bool) : g.sync files force =
    andThen (g.inspect files force) fun ins =>
      if ins.plan.changes ins.manifest then
        andThen (if ins.plan.ops.isEmpty then done [] else g.commit ins.plan.dirs ins.plan.ops) fun os =>
          andThen (g.saveManifest ins.manifest (ins.plan.manifestAfter ins.manifest (os.map fun o => o == .done))
              (if ins.plan.ops.isEmpty then ins.plan.dirs else [])) fun _ =>
            done ⟨zipOutcomes ins.plan.items os, ins.warning,
              ! (ins.plan.manifestAfter ins.manifest (os.map fun o => o == .done)).isEmpty⟩
      else done ⟨zipOutcomes ins.plan.items [], ins.warning, ! ins.manifest.isEmpty⟩ := by
  funext s
  unfold Calls.sync
  rw [andThen]
  rcases g.inspect files force s with ⟨_ | ins, s₁⟩
  · rfl
  dsimp only
  split
  · rw [andThen]
    have hcommit : (if ins.plan.ops.isEmpty = true then (Except.ok [], s₁) else g.commit ins.plan.dirs ins.plan.ops s₁) =
        (if ins.plan.ops.isEmpty = true then done [] else g.commit ins.plan.dirs ins.plan.ops) s₁ := by
      split <;> rfl
    rw [hcommit]
    rcases (if ins.plan.ops.isEmpty = true then done [] else g.commit ins.plan.dirs ins.plan.ops) s₁ with ⟨_ | os, s₂⟩
    · rfl
    dsimp only
    rw [andThen]
    rcases g.saveManifest ins.manifest _ _ s₂ with ⟨_ | _, _⟩ <;> rfl
  · rfl

end

/-! ### What each part of it refines -/

section

variable [RustDebug] [Serde] {vmid : UInt32}

/-- Nothing goes wrong with any call of a sync: no program fails or is killed, none is missing, no answer is too large,
    and every number is one that can be told. -/
structure Smooth (vmid : UInt32) (files : GuestFiles) (force : Bool) (m : Machine) : Prop where
  read : Fair (readScript manifestPath Manifest.maxBytes) m
  probe : ∀ bytes m', (Pct.calls vmid).read manifestPath Manifest.maxBytes m = (.ok bytes, m') →
    (files.wantsFiles || ! (trusted bytes).1.isEmpty) = true →
    Fair (probeScript (probePaths files (trusted bytes).1)) m' ∧ Tellable m'
  commit : ∀ ins m', (Pct.calls vmid).inspect files force m = (.ok ins, m') → ins.plan.changes ins.manifest = true →
    ¬ ins.plan.ops.isEmpty = true → Fair (commitScript ins.plan.dirs ins.plan.ops) m'
  save : ∀ ins m₁ os m₂, (Pct.calls vmid).inspect files force m = (.ok ins, m₁) → ins.plan.changes ins.manifest = true →
    (if ins.plan.ops.isEmpty then done [] else (Pct.calls vmid).commit ins.plan.dirs ins.plan.ops) m₁ = (.ok os, m₂) →
    ins.plan.manifestAfter ins.manifest (os.map fun o => o == .done) ≠ ins.manifest →
    Fair (commitScript (if ins.plan.ops.isEmpty then ins.plan.dirs else [])
      [manifestOp (ins.plan.manifestAfter ins.manifest (os.map fun o => o == .done))]) m₂

theorem look_refines (vmid : UInt32) (files : GuestFiles) (force : Bool) (m : Machine) :
    Refines m (Smooth vmid files force m) (World.calls.look files) ((Pct.calls vmid).look files m) := by
  rw [Calls.look_andThen, Calls.look_andThen]
  have hread : Refines m (Smooth vmid files force m) (World.calls.read manifestPath Manifest.maxBytes)
      ((Pct.calls vmid).read manifestPath Manifest.maxBytes m) := (read_refines vmid).mono Smooth.read
  refine hread.andThen fun bytes m' hbytes => ?_
  split
  · next hwants =>
    have hprobe : Refines m' (Smooth vmid files force m) (World.calls.probe (probePaths files (trusted bytes).1))
        ((Pct.calls vmid).probe (probePaths files (trusted bytes).1) m') :=
      (probe_refines vmid (fun _ h => quotable_probePaths h) (probePaths_ne_nil _ _)).mono fun h =>
        h.probe bytes m' hbytes hwants
    exact hprobe.andThen fun nodes m' _ => refines_done _ m'
  · exact refines_done _ m'

omit [Serde] in
/-- What a probe comes to has the hashes that a guest's files have. -/
theorem hex_of_probe {paths : List Text} (hpaths : ∀ path ∈ paths, '\'' ∉ path) (hne : paths ≠ [])
    (h : Pct.probe vmid paths m = (.ok nodes, m')) : ∀ e ∈ nodes, e.2.Hex := by
  have hcomes := (probe_refines (m := m) vmid hpaths hne).comes
  rw [h] at hcomes
  cases hcomes with
  | ok ts hts hgoes =>
    rw [probe_eq] at hgoes
    exact (of_goes_probing hgoes).2

theorem hex_of_look {seen : Manifest × Option String} (h : (Pct.calls vmid).look files m = (.ok (seen, nodes), m')) :
    ∀ e ∈ nodes, e.2.Hex := by
  rw [Calls.look_andThen] at h
  obtain ⟨bytes, m₁, -, h⟩ := Choices.of_andThen_ok h
  split at h
  · obtain ⟨found, m₂, hprobe, h⟩ := Choices.of_andThen_ok h
    cases h
    exact hex_of_probe (fun _ h => quotable_probePaths h) (probePaths_ne_nil _ _) hprobe
  · cases h
    exact fun _ he => nomatch he

theorem inspect_refines (vmid : UInt32) (files : GuestFiles) (force : Bool) (m : Machine) :
    Refines m (Smooth vmid files force m) (World.calls.inspect files force) ((Pct.calls vmid).inspect files force m) := by
  rw [Calls.inspect_andThen, Calls.inspect_andThen]
  refine (look_refines vmid files force m).andThen fun e m' _ => ?_
  exact ⟨.ok [] (fun _ hk => nomatch hk) fun w _ hfs hturns => ⟨_, rfl, hfs, hturns⟩, rfl, fun _ _ _ h => h, fun _ _ h => h⟩

theorem plan_of_inspect {ins : Inspection} (h : (Pct.calls vmid).inspect files force m = (.ok ins, m')) :
    ∃ nodes, (∀ e ∈ nodes, e.2.Hex) ∧ ins.plan = plan files ins.manifest nodes force := by
  rw [Calls.inspect_andThen] at h
  obtain ⟨⟨seen, nodes⟩, m₁, hlook, h⟩ := Choices.of_andThen_ok h
  cases h
  exact ⟨nodes, hex_of_look hlook, rfl⟩

theorem saveManifest_refines {before after : Manifest} {dirs : List Text} (hdirs : ∀ dir ∈ dirs, '\'' ∉ dir)
    (hfair : fair → after ≠ before → Fair (commitScript dirs [manifestOp after]) m) :
    Refines m fair (World.calls.saveManifest before after dirs)
      ((Pct.calls vmid).saveManifest before after dirs m) := by
  rw [Calls.saveManifest_andThen, Calls.saveManifest_andThen]
  split
  · exact refines_done _ m
  next hne =>
  obtain ⟨hquotable, hfit⟩ := fit_manifestOp after
  have hcommit : Refines m fair (World.calls.commit dirs [manifestOp after])
      ((Pct.calls vmid).commit dirs [manifestOp after] m) :=
    (commit_refines vmid hdirs (fun op hop => List.mem_singleton.mp hop ▸ hquotable)
      (fun op hop => List.mem_singleton.mp hop ▸ hfit)).mono fun h => hfair h hne
  exact hcommit.andThen fun os m' _ => refines_pure (saved os) m'

/-- A sync over `pct exec` is a sync of the guest, whatever fails and whatever the others do meanwhile; and it has no
    faults if nothing goes wrong. -/
theorem sync_refines (vmid : UInt32) (files : GuestFiles) (force : Bool) :
    Refines m (Smooth vmid files force m) (sync files force) ((Pct.calls vmid).sync files force m) := by
  show Refines m _ (World.calls.sync files force) _
  rw [Calls.sync_andThen, Calls.sync_andThen]
  refine (inspect_refines vmid files force m).andThen fun ins m₁ hins => ?_
  obtain ⟨nodes, hhex, hplan⟩ := plan_of_inspect hins
  have hdirs : ∀ dir ∈ ins.plan.dirs, '\'' ∉ dir := fun dir hdir => quotable_dirs (hplan ▸ hdir)
  have hops : ∀ op ∈ ins.plan.ops, op.Quotable ∧ op.Fit := fun op hop => (planned_of_mem (hplan ▸ hop)).fit hhex
  split
  · next hchanges =>
    have hcommit : Refines m₁ (Smooth vmid files force m)
        (if ins.plan.ops.isEmpty then done [] else World.calls.commit ins.plan.dirs ins.plan.ops)
        ((if ins.plan.ops.isEmpty then done [] else (Pct.calls vmid).commit ins.plan.dirs ins.plan.ops) m₁) := by
      split
      · exact refines_done _ m₁
      · next hsome =>
        exact (commit_refines vmid hdirs (fun op hop => (hops op hop).1) fun op hop => (hops op hop).2).mono
          fun h => h.commit ins m₁ hins hchanges hsome
    refine hcommit.andThen fun os m₂ hos => ?_
    have hsave (h : Smooth vmid files force m) := h.save ins m₁ os m₂ hins hchanges hos
    refine (saveManifest_refines (fun dir hdir => ?_) hsave).andThen fun _ m₃ _ => refines_done _ m₃
    split at hdir
    · exact hdirs dir hdir
    · cases hdir
  · exact refines_done _ m₁

end

end Guest
end PveMeta
