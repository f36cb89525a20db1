import PveMeta.Theorems.GuestAlone
import PveMeta.Theorems.GuestConverge

/-! # What the daemon takes for a local edit

Files are replaced before the manifest says so. As long as every sync gets through, a file that the daemon wrote is recorded
with its hash; one that is cut off leaves files whose record is not theirs, and what becomes of these depends on what the
document asks for next. -/

namespace PveMeta
namespace Guest

section

variable [Deps] {files : GuestFiles} {old : Manifest} {nodes : Nodes} {force : Bool} {q : GuestPath} {fs : Fs}
    {w w' : World}

/-! ### Looking -/

/-- The files ask for a path, or one is recorded. -/
def Concerned (files : GuestFiles) (old : Manifest) : Prop :=
  (∃ d, d ∈ files.desired) ∨ ∃ q r, old.records.get? q = some r

/-- The nodes show what is at every path that is wanted or recorded, and if there is one, where the manifest lives. -/
structure Saw (files : GuestFiles) (old : Manifest) (nodes : Nodes) (fs : Fs) : Prop where
  wanted : ∀ d ∈ files.desired, Sees nodes fs d.entry.path
  recorded : ∀ q r, old.records.get? q = some r → Sees nodes fs q
  root : Concerned files old → ∀ dir ∈ Manifest.directories, nodes.at dir = (fs dir).lstat

theorem Probes.saw (h : Probes files old nodes fs) : Saw files old nodes fs :=
  ⟨fun _ hd => h.wanted hd, fun _ _ hr => h.recorded hr, fun _ dir hdir =>
    h dir (mem_probePaths_iff.mpr (.inr (.inr hdir)))⟩

theorem desired_of_wantsFiles (h : files.wantsFiles = false) : files.desired = [] := by
  cases files with
  | nothing => rfl
  | held why => rfl
  | entries rows =>
    refine List.filterMap_eq_nil_iff.mpr fun row hrow => ?_
    simpa using List.any_eq_false.mp h row hrow
  | managed items => simpa [GuestFiles.wantsFiles, GuestFiles.desired] using h

/-- There is nothing to look at. -/
theorem saw_nothing (hwants : files.wantsFiles = false) (hempty : old.isEmpty = true) : Saw files old nodes fs := by
  have hwanted : ∀ d, d ∉ files.desired := by simp [desired_of_wantsFiles hwants]
  have hnone : ∀ q r, old.records.get? q ≠ some r := by
    have hentries : old.records.entries = [] := List.isEmpty_iff.mp hempty
    intro q r hr
    rw [← SortedMap.mem_entries_iff, hentries] at hr
    cases hr
  refine ⟨fun d hd => absurd hd (hwanted d), fun q r hr => absurd hr (hnone q r), ?_⟩
  rintro (⟨d, hd⟩ | ⟨q, r, hr⟩)
  · exact absurd hd (hwanted d)
  · exact absurd hr (hnone q r)

/-- The hold is told from where the manifest lives. -/
theorem Saw.hold (h : Saw files old nodes fs) (hconcerned : Concerned files old) :
    holdReason files nodes = holdReason files (probed fs Manifest.directories) := by
  have hroot : ∀ dir ∈ Manifest.directories, nodes.at dir = (probed fs Manifest.directories).at dir := fun dir hdir => by
    rw [h.root hconcerned dir hdir, at_probed hdir]
  cases files with
  | held why => rfl
  | _ =>
    unfold holdReason
    dsimp only
    rw [Manifest.directories] at hroot ⊢
    simp only [List.findSome?_cons, List.findSome?_nil, List.forall_mem_cons] at hroot ⊢
    rw [hroot.1, hroot.2.1]

variable [RustDebug] [Serde]

theorem look_alone (h : Alone w) : Still w (look files w).2 ∧
    ∀ m warning nodes, (look files w).1 = .ok ((m, warning), nodes) → Saw files m nodes w.fs := by
  have hread := still_read h manifestPath Manifest.maxBytes
  simp only [look, Calls.look, World.calls_read, World.calls_probe]
  split
  · next e w₁ heq =>
    rw [heq] at hread
    exact ⟨hread, by rintro _ _ _ ⟨⟩⟩
  · next bytes w₁ heq =>
    rw [heq] at hread
    split
    · obtain ⟨hprobe, hnodes⟩ := probe_alone hread.alone (probePaths files (trusted bytes).1)
      split
      · next e w₂ heq₂ =>
        rw [heq₂] at hprobe
        exact ⟨hread.trans hprobe, by rintro _ _ _ ⟨⟩⟩
      · next nodes w₂ heq₂ =>
        rw [heq₂] at hprobe hnodes
        refine ⟨hread.trans hprobe, fun m warning nodes' hok => ?_⟩
        obtain ⟨htrusted, rfl⟩ := Prod.mk.inj (Except.ok.inj hok)
        rw [hnodes nodes rfl, hread.fs, htrusted]
        exact (probes_probed files m w.fs).saw
    · next hnothing =>
      refine ⟨hread, fun m warning nodes' hok => ?_⟩
      obtain ⟨htrusted, -⟩ := Prod.mk.inj (Except.ok.inj hok)
      rw [htrusted] at hnothing
      simp only [Bool.or_eq_true, Bool.not_eq_true', not_or, Bool.not_eq_true, Bool.not_eq_false] at hnothing
      exact saw_nothing hnothing.1 hnothing.2

/-- Nobody does anything to the files, and nothing is written. -/
structure Idle (w w' : World) : Prop where
  fs : w'.fs = w.fs
  log : ∃ added, w'.log = w.log ++ added ∧ ∀ path hash, .wrote path hash ∉ added
  alone : Alone w'

omit [Deps] [RustDebug] [Serde] in
theorem Still.idle (h : Still w w') : Idle w w' :=
  ⟨h.fs, ⟨[], by rw [h.log, List.append_nil], by rintro _ _ ⟨⟩⟩, h.alone⟩

theorem inspect_alone (h : Alone w) : Idle w (inspect files force w).2 := by
  have hlook := (@look_alone _ files w _ _ h).1
  simp only [inspect, Calls.inspect, World.calls_look, World.calls_note]
  split
  · next e w₁ heq =>
    rw [heq] at hlook
    exact hlook.idle
  · next m warning nodes w₁ heq =>
    rw [heq] at hlook
    refine ⟨hlook.fs, ⟨_, congrArg (· ++ _) hlook.log, fun path hash hmem => ?_⟩, hlook.alone⟩
    obtain ⟨d, -, ⟨⟩⟩ := List.mem_map.mp hmem

/-- What was decided, it was decided on what is there. -/
theorem inspect_saw (h : Alone w) {ins : Inspection} (hins : (inspect files force w).1 = .ok ins) :
    ∃ nodes, Saw files (manifestAt (w.fs manifestPath)) nodes w.fs ∧
      ins.manifest = manifestAt (w.fs manifestPath) ∧
        ins.plan = plan files (manifestAt (w.fs manifestPath)) nodes force := by
  obtain ⟨nodes, hlook, hold, hplan, -⟩ := inspect_eq_ok (Prod.ext hins rfl)
  have hsaw := (look_alone h).2 _ _ _ hlook
  rw [hold] at hplan hsaw
  exact ⟨nodes, hsaw, hold, hplan⟩

/-! ### A sync at one path -/

/-- The record of a path in the manifest that is there. -/
def recordAt (fs : Fs) (q : GuestPath) : Option Record := (manifestAt (fs manifestPath)).records.get? q

/-- What came of a sync at a path: nothing was written there, and a file that is there has its record as it was, or as
    planned with nothing to be done to it; or the planned file landed, and is recorded so if the sync got through. -/
inductive Became (p : Plan) (old : Manifest) (q : GuestPath) (through : Prop) (w w' : World) : Prop
  | left (leaves : Leaves q.text w w')
      (record : ∀ owner mode content, w'.fs q.text = .file owner mode content → recordAt w'.fs q = old.records.get? q ∨
        recordAt w'.fs q = p.manifest.records.get? q ∧ ∀ op ∈ p.ops, op.path ≠ q.text)
  | landed (op : Op) (mem : op ∈ p.ops) (path : op.path = q.text) (lands : op.Lands w w')
      (made : ∀ dir ∈ p.dirs, w'.fs dir = .dir) (record : through → recordAt w'.fs q = p.manifest.records.get? q)

/-- Nobody else is at the files: directories stay, and the log grows. -/
structure Undisturbed (w w' : World) : Prop where
  dirs : ∀ p, w.fs p = .dir → w'.fs p = .dir
  log : ∃ added, w'.log = w.log ++ added

omit [Deps] [RustDebug] [Serde] in
theorem Undisturbed.trans {w₁ : World} (h : Undisturbed w w₁) (h' : Undisturbed w₁ w') : Undisturbed w w' := by
  obtain ⟨added, hlog⟩ := h.log
  obtain ⟨more, hmore⟩ := h'.log
  exact ⟨fun p hp => h'.dirs p (h.dirs p hp), added ++ more, by rw [hmore, hlog, List.append_assoc]⟩

omit [Deps] [RustDebug] [Serde] in
theorem Undisturbed.subset (h : Undisturbed w w') : w.log ⊆ w'.log := by
  obtain ⟨added, hlog⟩ := h.log
  exact hlog ▸ List.subset_append_left _ _

omit [Deps] [RustDebug] [Serde] in
theorem Idle.undisturbed (h : Idle w w') : Undisturbed w w' := ⟨fun _ hp => h.fs ▸ hp, h.log.imp fun _ hadded => hadded.1⟩

omit [Deps] [RustDebug] [Serde] in
theorem Idle.leaves (h : Idle w w') (q : Text) : Leaves q w w' := by
  obtain ⟨added, hlog, hnone⟩ := h.log
  refine ⟨fun _ _ _ hfile => h.fs ▸ hfile, fun hash hwrote => ?_⟩
  rw [hlog] at hwrote
  exact (List.mem_append.mp hwrote).resolve_right (hnone q hash)

theorem Became.mono {p : Plan} {through through' : Prop} (h : Became p old q through w w') (himp : through' → through) :
    Became p old q through' w w' := by
  cases h with
  | left leaves record => exact .left leaves record
  | landed op mem path lands made record => exact .landed op mem path lands made fun hthrough => record (himp hthrough)

theorem Became.after_idle {p : Plan} {through : Prop} {w₁ : World} (h : Became p old q through w₁ w') (hidle : Idle w w₁) :
    Became p old q through w w' := by
  cases h with
  | left leaves record => exact .left ((hidle.leaves _).trans leaves) record
  | landed op mem path lands made record =>
    exact .landed op mem path (lands.before (hidle.log.imp fun _ hadded => hadded.1)) made record

section

variable {after : Manifest} {rs : Except String Unit} {w₁ : World} (h : Saved old after rs w₁ w')
  (hread : manifestAt (.file .root Manifest.mode after.render) = after)

include h

omit [Deps] [RustDebug] in
theorem Saved.undisturbed : Undisturbed w₁ w' := ⟨h.dirs, h.log⟩

include hread

omit [Deps] in
/-- The manifest that is there is the one to be left, if the sync gets through and no directory is in its place, and else
    may be as it was. -/
theorem Saved.read : manifestAt (w'.fs manifestPath) = after ∨
    manifestAt (w'.fs manifestPath) = manifestAt (w₁.fs manifestPath) ∧
      (rs = .ok () → after = old ∨ nodeAt w'.fs manifestPath = .dir) := by
  rcases h.manifest with ⟨hsame, hok⟩ | hafter
  · exact .inr ⟨congrArg _ hsame, hok⟩
  · rw [hafter]
    exact .inl hread

/-- What comes of a commit at a path comes of the sync. -/
theorem Saved.became {p : Plan} {outcomes : List Outcome} (hold : manifestAt (w₁.fs manifestPath) = old)
    (hafter : p.manifestAfter old (outcomes.map fun o => o == .done) = after) (hlength : outcomes.length = p.ops.length)
    (hfate : Fate p.dirs p.ops q.text (.ok outcomes) w w₁) :
    Became p old q (rs = .ok () ∧ nodeAt w'.fs manifestPath ≠ .dir) w w' := by
  have hstays := h.stays q.text q.not_reserved q.ne_manifestPath
  cases hfate with
  | left leaves removed =>
    have hsave := h.leaves q.text q.not_reserved q.ne_manifestPath
    refine .left (leaves.trans hsave) fun owner mode content hfile => ?_
    rcases h.read hread with hafter' | ⟨hsame, -⟩
    · rw [recordAt, hafter', ← hafter]
      refine (get?_after hlength).imp_right fun hplanned => ⟨hplanned.1, fun op hop hpath => ?_⟩
      exact removed outcomes rfl _ (hplanned.2 op hop hpath) hpath rfl owner mode content (hsave.file _ _ _ hfile)
    · exact .inl (by rw [recordAt, hsame, hold])
  | landed op mem path lands made done =>
    have hplanned : after.records.get? q = p.manifest.records.get? q := hafter ▸ get?_after_done (done outcomes rfl)
    refine .landed op mem path ?_ (fun dir hdir => h.dirs dir (made dir hdir)) fun hok => ?_
    · cases op with
      | place path' content mode owner expect =>
        obtain rfl : path' = q.text := path
        exact lands.congr ((hstays _ _ _ lands.1).trans lands.1.symm) h.log
      | remove path' sha256 => exact lands.elim
    · rw [recordAt, ← hplanned]
      rcases h.read hread with hafter' | ⟨hsame, hkept⟩
      · rw [hafter']
      · rw [hsame, hold, (hkept hok.1).resolve_right hok.2]

end

section

variable {V : Writer} {p : Plan} (hp : p = plan files old nodes force) (hask : V.Asks files) (halone : Alone w)

include hp hask halone

omit [Serde] in
/-- What comes of a plan's commit. -/
theorem commit_plan_alone {r : Except String (List Outcome)}
    (h : (if p.ops.isEmpty then (.ok [], w) else w.commit p.dirs p.ops) = (r, w')) :
    Alone w' ∧ (∀ path, w.fs path = .dir → w'.fs path = .dir) ∧ ∀ q : GuestPath, Fate p.dirs p.ops q.text r w w' := by
  split at h
  · next hempty =>
    cases h
    exact ⟨halone, fun _ => id, fun q => .left (.refl _ _) (by simp [List.isEmpty_iff.mp hempty])⟩
  · obtain ⟨halone', hdirs⟩ := commit_dirs halone h
    refine ⟨halone', hdirs, fun q => ?_⟩
    subst hp
    exact commit_fate halone (fun op hop => (planned_fits hop).1) guarded_of_mem hask.apart.plan_ops q.not_reserved h

/-- What comes of it at each path, once the manifest is saved. -/
theorem carry_alone (hserde : Manifest.SerdeReads) (hold : manifestAt (w.fs manifestPath) = old)
    {r : Except String (List Outcome)} (h : carry p old w = (r, w')) :
    Undisturbed w w' ∧ ∀ q, Became p old q ((∃ outcomes, r = .ok outcomes) ∧ nodeAt w'.fs manifestPath ≠ .dir) w w' := by
  have hkeyed : old.Keyed := hold ▸ keyed_manifestAt _
  unfold carry at h
  cases hcommit : if p.ops.isEmpty then (.ok [], w) else w.commit p.dirs p.ops with
  | mk r₁ w₁ =>
    obtain ⟨halone₁, hdirs₁, hfate⟩ := commit_plan_alone hp hask halone hcommit
    obtain ⟨hacts, hanswered⟩ := commit_plan hp hcommit
    have hlog₁ := hacts.log.forall_added.imp fun _ hadded => hadded.1
    have hold₁ : manifestAt (w₁.fs manifestPath) = old := by rw [hacts.manifest, hold]
    rw [hcommit] at h
    cases r₁ with
    | error e =>
      cases h
      refine ⟨⟨hdirs₁, hlog₁⟩, fun q => ?_⟩
      cases hfate q with
      | left leaves removed => exact .left leaves fun _ _ _ _ => .inl (by rw [recordAt, hold₁])
      | landed op mem path lands made done => exact .landed op mem path lands made (by rintro ⟨⟨outcomes, ⟨⟩⟩, -⟩)
    | ok outcomes =>
      have hleft : Left p old _ w₁.log := ⟨outcomes, hanswered outcomes rfl, rfl⟩
      have hsaveDirs := ne_manifestPath_of_left hp
      dsimp only at h
      generalize hafter : p.manifestAfter old (outcomes.map fun o => o == .done) = after at h hleft
      have hread : manifestAt (.file .root Manifest.mode after.render) = after :=
        manifestAt_render hserde ((hp ▸ hleft).keyed hask hkeyed) _ _
      obtain ⟨rs, hsaved, hrs⟩ : ∃ rs, Saved old after rs w₁ w' ∧ ((∃ outcomes, r = .ok outcomes) → rs = .ok ()) := by
        have hsaved := @saveManifest_alone _ w₁ _ _ old after halone₁ hsaveDirs
        unfold conclude at h
        split at h
        · next e w₂ heq =>
          cases h
          rw [heq] at hsaved
          exact ⟨_, hsaved, by rintro ⟨outcomes, ⟨⟩⟩⟩
        · next w₂ heq =>
          cases h
          rw [heq] at hsaved
          exact ⟨_, hsaved, fun _ => rfl⟩
      refine ⟨.trans ⟨hdirs₁, hlog₁⟩ hsaved.undisturbed, fun q => ?_⟩
      exact (hsaved.became hread hold₁ hafter (hanswered outcomes rfl).length (hfate q)).mono (And.imp_left hrs)

end

/-- What comes of a sync at each path, if it gets to look. -/
theorem sync_alone (hserde : Manifest.SerdeReads) {V : Writer} (hask : V.Asks files) (halone : Alone w) :
    ((∃ e, (inspect files force w).1 = .error e) ∧ (∃ e, (sync files force w).1 = .error e) ∧
      Idle w (sync files force w).2) ∨
      ∃ ins nodes, (inspect files force w).1 = .ok ins ∧ Saw files (manifestAt (w.fs manifestPath)) nodes w.fs ∧
        ins.plan = plan files (manifestAt (w.fs manifestPath)) nodes force ∧ Undisturbed w (sync files force w).2 ∧
        ∀ q, Became ins.plan (manifestAt (w.fs manifestPath)) q
          ((∃ report, (sync files force w).1 = .ok report) ∧ nodeAt (sync files force w).2.fs manifestPath ≠ .dir) w
          (sync files force w).2 := by
  have hidle := @inspect_alone _ files force w _ _ halone
  cases hins : inspect files force w with
  | mk r w₁ =>
    rw [hins] at hidle
    cases r with
    | error e =>
      simp only [sync, Calls.sync, World.calls_inspect, World.calls_commit, World.calls_saveManifest]
      rw [hins]
      exact .inl ⟨⟨e, rfl⟩, ⟨e, rfl⟩, hidle⟩
    | ok ins =>
      obtain ⟨nodes, hsaw, hold, hplan⟩ := inspect_saw halone (congrArg Prod.fst hins)
      refine .inr ⟨ins, nodes, rfl, hsaw, hplan, ?_⟩
      by_cases hchanges : ins.plan.changes ins.manifest = true
      · obtain ⟨hworld, hthrough⟩ := sync_carry hins hchanges
        rw [hworld, ← hold]
        have hold₁ : manifestAt (w₁.fs manifestPath) = ins.manifest := by rw [hidle.fs, hold]
        obtain ⟨hundisturbed, hbecame⟩ := carry_alone (hold ▸ hplan) hask hidle.alone hserde hold₁ rfl
        exact ⟨hidle.undisturbed.trans hundisturbed, fun q =>
          ((hbecame q).mono (And.imp_left hthrough.mp)).after_idle hidle⟩
      · have hsync : (sync files force w).2 = w₁ := by
          simp only [sync, Calls.sync, World.calls_inspect, World.calls_commit, World.calls_saveManifest]
          rw [hins]
          dsimp only
          rw [if_neg hchanges]
        rw [hsync]
        exact ⟨hidle.undisturbed, fun q => .left (hidle.leaves _) fun _ _ _ _ => .inl (by rw [recordAt, hidle.fs])⟩

/-! ### Nothing is done away with unseen -/

omit [RustDebug] [Serde] in
theorem Idle.accounts (h : Idle w w') : Accounts w w' := by
  obtain ⟨added, hlog, -⟩ := h.log
  exact ⟨added, hlog, fun _ _ _ _ _ hne => absurd (by rw [h.fs]) hne⟩

omit [RustDebug] in
theorem carry_accounts {p : Plan} {old : Manifest} (halone : Alone w) : Accounts w (carry p old w).2 := by
  unfold carry
  cases hcommit : if p.ops.isEmpty then (.ok [], w) else w.commit p.dirs p.ops with
  | mk r w₁ =>
    obtain ⟨halone₁, hfirst⟩ : Alone w₁ ∧ Accounts w w₁ := by
      split at hcommit
      · cases hcommit
        exact ⟨halone, .refl _⟩
      · exact ⟨(commit_dirs halone hcommit).1, commit_accounts halone hcommit⟩
    cases r with
    | error e => exact hfirst
    | ok outcomes =>
      dsimp only
      generalize p.manifestAfter old (outcomes.map fun o => o == .done) = after
      generalize (if p.ops.isEmpty then p.dirs else []) = dirs
      have hsaved : Accounts w₁ (saveManifest old after dirs w₁).2 := saveManifest_accounts halone₁
      unfold conclude
      cases hsave : saveManifest old after dirs w₁ with
      | mk r₂ w₂ =>
        rw [hsave] at hsaved
        cases r₂ <;> exact hfirst.trans hsaved

/-- Of every file that a sync does away with, the log says so. -/
theorem sync_accounts (halone : Alone w) : Accounts w (sync files force w).2 := by
  have hidle := @inspect_alone _ files force w _ _ halone
  cases hins : inspect files force w with
  | mk r w₁ =>
    rw [hins] at hidle
    cases r with
    | error e =>
      simp only [sync, Calls.sync, World.calls_inspect, World.calls_commit, World.calls_saveManifest]
      rw [hins]
      exact hidle.accounts
    | ok ins =>
      by_cases hchanges : ins.plan.changes ins.manifest = true
      · rw [(sync_carry hins hchanges).1]
        exact hidle.accounts.trans (carry_accounts hidle.alone)
      · simp only [sync, Calls.sync, World.calls_inspect, World.calls_commit, World.calls_saveManifest]
        rw [hins]
        dsimp only
        rw [if_neg hchanges]
        exact hidle.accounts

/-! ### Where a file comes from -/

section

variable {owner : Owner} {mode : Nat} {content : ByteArray}

omit [RustDebug] [Serde]

/-- A file that is wanted and not to be written, and that is taken for the entry's own, is as it is wanted. -/
theorem Saw.adopted (h : Saw files old nodes fs) {d : Desired} (hd : d ∈ files.desired) (hnot : ¬ Due old nodes force d)
    (hadopts : (verdict old nodes force d).1.adopts = true) (hfile : fs d.entry.path.text = .file owner mode content) :
    d.sha256 = MetaStore.digest content ∧ ∀ dir ∈ d.entry.path.directories, fs dir = .dir := by
  obtain ⟨-, hwanted⟩ := (verdict_not_due hnot).2.mp hadopts
  unfold asWanted at hwanted
  split at hwanted
  · next hash mode' owner' hstate =>
    obtain ⟨⟨content', hfile', rfl⟩, hway⟩ := (h.wanted d hd).present hstate
    cases hfile.symm.trans hfile'
    simp only [Bool.and_eq_true, beq_iff_eq] at hwanted
    exact ⟨hwanted.1.1.symm, hway⟩
  · cases hwanted

/-- Where nothing is done to a file, its record is to stay, or to say what the file holds; or it did not say so. -/
theorem Saw.planned_left (h : Saw files old nodes fs) (hapart : Apart files)
    (hno : ∀ op ∈ (plan files old nodes force).ops, op.path ≠ q.text) (hfile : fs q.text = .file owner mode content) :
    (plan files old nodes force).manifest.records.get? q = old.records.get? q ∨
      (∃ r, (plan files old nodes force).manifest.records.get? q = some r ∧ r.sha256 = MetaStore.digest content ∧
        ∀ dir ∈ q.directories, fs dir = .dir) ∨
      ∃ r, old.records.get? q = some r ∧
        ¬ (r.sha256 = MetaStore.digest content ∧ ∀ dir ∈ q.directories, fs dir = .dir) := by
  cases hhold : holdReason files nodes with
  | some why =>
    rw [plan_of_hold hhold]
    exact .inl rfl
  | none =>
    rw [ops_plan hhold] at hno
    rw [plan_eq hhold]
    by_cases hq : q ∈ files.desired.map (·.entry.path)
    · obtain ⟨d, hd, rfl⟩ := List.mem_map.mp hq
      have hnot : ¬ Due old nodes force d := fun hdue => by
        obtain ⟨op, hop⟩ := isSome_fileOp.mpr hdue
        exact hno op (List.mem_append_left _ (List.mem_filterMap.mpr ⟨d, hd, hop⟩)) (path_fileOp hop)
      rw [hapart.get?_wanted hd, keptRecord]
      split
      · next hadopts => exact .inr (.inl ⟨d.record, rfl, h.adopted hd hnot hadopts hfile⟩)
      · exact .inl rfl
    · rw [get?_unwanted hq]
      cases hr : old.records.get? q with
      | none => exact .inl rfl
      | some r =>
        cases hkeeps : keepsGone files nodes q r with
        | true => exact .inl (if_pos hkeeps)
        | false =>
          -- One that said so is removed with its file.
          refine .inr (.inr ⟨r, rfl, ?_⟩)
          rintro ⟨hhash, hway⟩
          have hgone : goneOp files nodes (q, r) = some (.remove q.text r.sha256) := by
            rw [goneOp, if_neg (by simp [hq, hkeeps]), (h.recorded q r hr).assess_present hway hfile, decideGone,
              if_pos hhash.symm, hhash]
          have hmem := List.mem_filterMap.mpr ⟨(q, r), SortedMap.mem_entries_iff.mpr hr, hgone⟩
          exact hno _ (List.mem_append_right _ hmem) rfl

/-- An operation whose file lands is that of a file that is wanted, and is to be written. -/
theorem landed_due (hhold : holdReason files nodes = none) {op : Op} (hop : op ∈ (plan files old nodes force).ops)
    (hlands : op.Lands w w') : ∃ d ∈ files.desired, Due old nodes force d ∧ op.path = d.entry.path.text ∧
      w'.fs op.path = .file d.entry.owner d.entry.mode d.content ∧
        ∃ added, w'.log = w.log ++ added ∧ .wrote op.path (MetaStore.digest d.content) ∈ added := by
  rw [ops_plan hhold] at hop
  rcases List.mem_append.mp hop with hop | hop
  · obtain ⟨d, hd, hfile⟩ := List.mem_filterMap.mp hop
    obtain ⟨expect, -, rfl⟩ := Option.map_eq_some_iff.mp hfile
    exact ⟨d, hd, isSome_fileOp.mp ⟨_, hfile⟩, rfl, hlands⟩
  · obtain ⟨e, -, hgone⟩ := List.mem_filterMap.mp hop
    obtain ⟨rfl, -, -⟩ := goneOp_eq_some hgone
    exact hlands.elim

end

/-- Where a file comes from: the manifest has its hash for it, or a sync wrote it that did not get to record it, and it is
    where a plan finds it; or it was there from the start, without a record, and none has ever been written there. -/
def Traced (start : Fs) (cut : List Deed) (w : World) (q : GuestPath) : Prop :=
  ∀ owner mode content, w.fs q.text = .file owner mode content →
    (((∃ r, recordAt w.fs q = some r ∧ r.sha256 = MetaStore.digest content) ∨
        .wrote q.text (MetaStore.digest content) ∈ cut) ∧ ∀ dir ∈ q.directories, w.fs dir = .dir) ∨
      (recordAt w.fs q = none ∧ start q.text = .file owner mode content ∧ ∀ hash, .wrote q.text hash ∉ w.log)

section

variable {start : Fs} {cut cut' : List Deed} (hcut : cut ⊆ cut')

include hcut

theorem Traced.idle (h : Traced start cut w q) (hidle : Idle w w') : Traced start cut' w' q := by
  intro owner mode content hfile
  rw [recordAt, hidle.fs] at *
  refine (h owner mode content hfile).imp ?_ fun hstart => ⟨hstart.1, hstart.2.1, fun hash hwrote => ?_⟩
  · exact fun hknown => ⟨hknown.1.imp_right fun hmem => hcut hmem, hknown.2⟩
  · exact hstart.2.2 hash ((hidle.leaves _).wrote hash hwrote)

/-- A sync keeps that, if what it wrote is counted among the writes of those that did not get to record them. -/
theorem Became.traced (h : Traced start cut w q) {p : Plan} {through : Prop} (hundisturbed : Undisturbed w w')
    (hbecame : Became p (manifestAt (w.fs manifestPath)) q through w w')
    (hsaw : Saw files (manifestAt (w.fs manifestPath)) nodes w.fs) (hapart : Apart files)
    (hp : p = plan files (manifestAt (w.fs manifestPath)) nodes force)
    (hadded : ¬ through → ∀ added, w'.log = w.log ++ added → added ⊆ cut') : Traced start cut' w' q := by
  intro owner mode content hfile
  cases hbecame with
  | left leaves record =>
    have hbefore := leaves.file owner mode content hfile
    rcases h owner mode content hbefore with ⟨hknown | hcutoff, hway⟩ | ⟨hnone, hstart, hnever⟩
    · obtain ⟨r, hr, hhash⟩ := hknown
      refine .inl ⟨.inl ?_, fun dir hdir => hundisturbed.dirs dir (hway dir hdir)⟩
      rcases record owner mode content hfile with hold | ⟨hplanned, hno⟩
      · exact ⟨r, hold.trans hr, hhash⟩
      · rw [hplanned]
        rcases hsaw.planned_left hapart (hp ▸ hno) hbefore with hsame | ⟨r', hr', hhash', -⟩ | ⟨r', hr', hnot⟩
        · exact ⟨r, (hp ▸ hsame).trans hr, hhash⟩
        · exact ⟨r', hp ▸ hr', hhash'⟩
        · cases hr'.symm.trans hr
          exact absurd ⟨hhash, hway⟩ hnot
    · exact .inl ⟨.inr (hcut hcutoff), fun dir hdir => hundisturbed.dirs dir (hway dir hdir)⟩
    · rcases record owner mode content hfile with hold | ⟨hplanned, hno⟩
      · exact .inr ⟨hold.trans hnone, hstart, fun hash hwrote => hnever hash (leaves.wrote hash hwrote)⟩
      · rcases hsaw.planned_left hapart (hp ▸ hno) hbefore with hsame | ⟨r', hr', hhash', hway⟩ | ⟨r', hr', -⟩
        · refine .inr ⟨?_, hstart, fun hash hwrote => hnever hash (leaves.wrote hash hwrote)⟩
          rw [hplanned, hp, hsame]
          exact hnone
        · refine .inl ⟨.inl ⟨r', ?_, hhash'⟩, fun dir hdir => hundisturbed.dirs dir (hway dir hdir)⟩
          rw [hplanned, hp, hr']
        · cases hr'.symm.trans hnone
  | landed op mem path lands made record =>
    have hhold : holdReason files nodes = none := by
      by_contra hheld
      obtain ⟨why, hwhy⟩ := Option.ne_none_iff_exists'.mp hheld
      rw [hp, plan_of_hold hwhy] at mem
      cases mem
    obtain ⟨d, hd, hdue, hpath, hlanded, added, hlog, hwrote⟩ := landed_due hhold (hp ▸ mem) lands
    obtain rfl : q = d.entry.path := GuestPath.ext_text (path.symm.trans hpath)
    rw [path] at hlanded hwrote
    cases hfile.symm.trans hlanded
    refine .inl ⟨?_, fun dir hdir => ?_⟩
    · by_cases hthrough : through
      · refine .inl ⟨d.record, ?_, d.hashed⟩
        rw [record hthrough, hp, plan_eq hhold]
        exact (hapart.get?_wanted hd).trans (if_pos (verdict_due hdue).1)
      · exact .inr (hadded hthrough added hlog hwrote)
    · rcases (hsaw.wanted d hd).due_made hhold hd hdue hdir with hthere | hmade
      · exact hundisturbed.dirs dir hthere
      · exact made dir (hp ▸ hmade)

end

/-! ### Files that are left as changed -/

section

omit [Deps] [RustDebug] [Serde]

variable {r : Record}

theorem ne_changed {dir : Text} {message : String} (h : message.toList.getLast? ≠ some 'n') (hne : message.toList ≠ []) :
    String.ofList dir ++ message ≠ "changed since it was written" := by
  intro heq
  have hlast := congrArg (fun s => s.toList.getLast?) heq
  simp only [String.toList_append, String.toList_ofList, List.getLast?_append_of_ne_nil _ hne] at hlast
  exact h (hlast.trans (by decide))

theorem assess_ne_changed : assess q nodes ≠ .unsafePath "changed since it was written" := by
  have hdir : ∀ dir (node : Node), dirProblem dir node ≠ some "changed since it was written" := by
    intro dir node
    cases node with
    | missing => rintro ⟨⟩
    | dir => rintro ⟨⟩
    | symlink => exact fun h => ne_changed (by decide) (by decide) (Option.some.inj h)
    | _ => exact fun h => ne_changed (by decide) (by decide) (Option.some.inj h)
  have hdirs : ∀ dirs, assessDirs nodes dirs ≠ some (.unsafePath "changed since it was written") := by
    intro dirs
    induction dirs with
    | nil => rintro ⟨⟩
    | cons dir dirs ih =>
      rw [assessDirs]
      split
      · next why hwhy =>
        rintro ⟨⟩
        exact hdir dir _ hwhy
      · split
        · rintro ⟨⟩
        · exact ih
  unfold assess
  split
  · next state hstate =>
    rintro rfl
    exact hdirs _ hstate
  · split
    · rintro ⟨⟩
    · exact fun h => ne_changed (by decide) (by decide) (FileState.unsafePath.inj h)
    · exact fun h => ne_changed (by decide) (by decide) (FileState.unsafePath.inj h)
    · exact fun h => ne_changed (by decide) (by decide) (FileState.unsafePath.inj h)
    · rintro ⟨⟩

theorem decideGone_changed : (decideGone q r (assess q nodes)).1 = .left "changed since it was written" ↔
    ∃ hash mode owner, assess q nodes = .present hash mode owner ∧ hash ≠ r.sha256 := by
  have hjudged := @assess_ne_changed nodes q
  cases hstate : assess q nodes with
  | missing => exact iff_of_false (by rintro ⟨⟩) (by rintro ⟨_, _, _, ⟨⟩, -⟩)
  | unsafePath why =>
    rw [hstate] at hjudged
    exact iff_of_false (fun h => hjudged (congrArg _ (Action.left.inj h))) (by rintro ⟨_, _, _, ⟨⟩, -⟩)
  | present hash mode owner =>
    unfold decideGone
    dsimp only
    split
    · next hsame => exact iff_of_false (by rintro ⟨⟩) (by rintro ⟨_, _, _, ⟨⟩, hne⟩; exact hne hsame)
    · next hne => exact iff_of_true rfl ⟨hash, mode, owner, rfl, hne⟩
end

/-! ### Runs in which nobody else acts -/

/-- A guest, and what those syncs did in it of which the manifest may not tell. -/
structure Course where
  world : World
  cut : List Deed

/-- One sync, as it is run. -/
structure Poll where
  files : GuestFiles
  force : Bool
  turns : List Turn

/-- It is of a document's files, and nobody else does anything meanwhile. -/
structure Poll.Own (p : Poll) : Prop where
  asks : Writer.user.Asks p.files
  alone : ∀ t ∈ p.turns, t.others = none

def Poll.event (p : Poll) : Event := .sync p.files p.force p.turns

/-- One more sync: the manifest may not tell of what it did if it ended in an error, or if a directory is in the manifest's
    place. -/
def Course.poll (c : Course) (p : Poll) : Course where
  world := step c.world p.event
  cut :=
    match sync p.files p.force { c.world with turns := p.turns } with
    | (.ok _, w) => if nodeAt w.fs manifestPath = .dir then c.cut ++ w.log.drop c.world.log.length else c.cut
    | (.error _, w) => c.cut ++ w.log.drop c.world.log.length

/-- One sync after the other, from a guest with these files. -/
def course (fs : Fs) (polls : List Poll) : Course := polls.foldl .poll ⟨.start fs, []⟩

/-- Of every file that was there at first and is not as it was, the log says that it is no more. -/
theorem course_accounts {fs : Fs} {polls : List Poll} (hpolls : ∀ p ∈ polls, p.Own) :
    Accounts (.start fs) (course fs polls).world := by
  refine List.foldlRecOn (motive := fun c => Accounts (.start fs) c.world) polls Course.poll ?_ fun c hc p hp => ?_
  · exact .refl _
  have halone : Alone { c.world with turns := p.turns } := (hpolls p hp).alone
  exact hc.trans (sync_accounts halone)

/-- What is known of a guest in which nobody but the daemon ever acted. -/
structure Course.Kept (start : Fs) (c : Course) : Prop where
  cut : c.cut ⊆ c.world.log
  traced : ∀ q, Traced start c.cut c.world q
  sources : ∀ q r, recordAt c.world.fs q = some r → ∃ name, r.source = Writer.user.source name

section

variable {start : Fs} {c : Course} {p : Poll}

theorem Course.subset_cut : c.cut ⊆ (c.poll p).cut := by
  unfold Course.poll
  dsimp only
  split
  · split
    · exact List.subset_append_left _ _
    · exact List.Subset.refl _
  · exact List.subset_append_left _ _

theorem Course.cut_subset : (c.poll p).cut ⊆ c.cut ++ (c.poll p).world.log := by
  unfold Course.poll step Poll.event
  dsimp only
  have hgrown : ∀ w : World, c.cut ++ w.log.drop c.world.log.length ⊆ c.cut ++ w.log := fun w =>
    List.append_subset.mpr ⟨List.subset_append_left _ _,
      List.Subset.trans (List.drop_subset _ _) (List.subset_append_right _ _)⟩
  split
  · next report w' heq =>
    rw [heq]
    split
    · exact hgrown w'
    · exact List.subset_append_left _ _
  · next e w' heq =>
    rw [heq]
    exact hgrown w'

/-- What a sync did that did not get to record it. -/
theorem Course.added_subset (hnot : ¬ ((∃ report, (sync p.files p.force { c.world with turns := p.turns }).1 = .ok report) ∧
      nodeAt (c.poll p).world.fs manifestPath ≠ .dir))
    {added : List Deed} (hlog : (c.poll p).world.log = c.world.log ++ added) : added ⊆ (c.poll p).cut := by
  unfold Course.poll step Poll.event at *
  dsimp only at *
  have hadded : ∀ w : World, w.log = c.world.log ++ added → added ⊆ c.cut ++ w.log.drop c.world.log.length := by
    intro w hw
    rw [hw, List.drop_left]
    exact List.subset_append_right _ _
  split
  · next report w' heq =>
    rw [heq] at hnot hlog
    rw [if_pos (not_not.mp fun hdir => hnot ⟨⟨report, rfl⟩, hdir⟩)]
    exact hadded w' hlog
  · next e w' heq =>
    rw [heq] at hlog
    exact hadded w' hlog

/-- Whatever comes of a sync. -/
theorem Course.Kept.poll (hserde : Manifest.SerdeReads) (h : c.Kept start) (hp : p.Own) : (c.poll p).Kept start := by
  let w : World := { c.world with turns := p.turns }
  have halone : Alone w := hp.alone
  have htraced : ∀ q, Traced start c.cut w q := h.traced
  have hsources : KeepsApart {.user} .user p.files p.force w :=
    sync_keepsApart hserde (Set.injOn_singleton _ _) rfl hp.asks w
  have hown : ∀ q r, recordAt (c.poll p).world.fs q = some r → ∃ name, r.source = Writer.user.source name := fun q r hr =>
    (hsources.own q r hr).elim (h.sources q r) id
  have hcut : c.world.log ⊆ (c.poll p).world.log → (c.poll p).cut ⊆ (c.poll p).world.log := fun hgrown =>
    List.Subset.trans Course.cut_subset (List.append_subset.mpr ⟨List.Subset.trans h.cut hgrown, List.Subset.refl _⟩)
  rcases sync_alone hserde hp.asks halone with ⟨-, -, hidle⟩ | ⟨ins, nodes, -, hsaw, hplan, hundisturbed, hbecame⟩
  · exact ⟨hcut hidle.undisturbed.subset, fun q => (htraced q).idle Course.subset_cut hidle, hown⟩
  · refine ⟨hcut hundisturbed.subset, fun q => ?_, hown⟩
    exact (hbecame q).traced Course.subset_cut (htraced q) hundisturbed hsaw hp.asks.apart hplan fun hnot added hlog =>
      Course.added_subset hnot hlog

theorem Course.kept (hserde : Manifest.SerdeReads) (hnone : manifestAt (start manifestPath) = .empty) {polls : List Poll}
    (hpolls : ∀ p ∈ polls, p.Own) : (course start polls).Kept start := by
  refine List.foldlRecOn polls Course.poll ?_ fun c hc p hp => hc.poll hserde (hpolls p hp)
  have hrecord : ∀ q, recordAt start q = none := fun q => by
    rw [recordAt, hnone]
    rfl
  refine ⟨List.nil_subset _, fun q owner mode content hfile => .inr ⟨hrecord q, hfile, by rintro _ ⟨⟩⟩, fun q r hr => ?_⟩
  cases (hrecord q).symm.trans hr

/-! ### When it knows its own -/

/-- A file that is kept as a local edit is one that no sync ever wrote, and was there from the start; and no file is left as
    changed. -/
def Course.Knows (start : Fs) (c : Course) (p : Plan) : Prop :=
  ∀ item ∈ p.items, item.action ≠ .left "changed since it was written" ∧
    (item.action = .keptLocalEdit → ∃ q, item.path = some q ∧ c.world.fs q.text = start q.text ∧
      ∀ hash, .wrote q.text hash ∉ c.world.log)

/-- What a poll asks for makes no local edit of this file: its record says what it holds; or it is wanted as it is, or may
    be replaced; or it is not wanted, and has no record or one of an entry that is refused. -/
def Poll.Takes (p : Poll) (old : Manifest) (q : GuestPath) (owner : Owner) (mode : Nat) (content : ByteArray) : Prop :=
  (∃ r, old.records.get? q = some r ∧ r.sha256 = MetaStore.digest content) ∨
    (∃ d ∈ p.files.desired, d.entry.path = q ∧
      (MetaStore.digest content = d.sha256 ∧ mode = d.entry.mode ∧ owner = d.entry.owner ∨
        d.entry.localEdits = .overwrite ∨ p.force = true)) ∨
    q ∉ p.files.desired.map (·.entry.path) ∧ ∀ r, old.records.get? q = some r → r.entry ∈ heldNames p.files.rows

/-- So it is with every file that a sync wrote which did not get to record it, unless everything is held. -/
def Course.Resumes (c : Course) (p : Poll) : Prop :=
  holdReason p.files (probed c.world.fs Manifest.directories) = none →
    ∀ (q : GuestPath) owner mode content, c.world.fs q.text = .file owner mode content →
      .wrote q.text (MetaStore.digest content) ∈ c.cut → p.Takes (manifestAt (c.world.fs manifestPath)) q owner mode content

section

variable (h : c.Kept start) (hp : p.Own) (hsaw : Saw p.files (manifestAt (c.world.fs manifestPath)) nodes c.world.fs)
  (hhold : holdReason p.files nodes = none)

include h hp hsaw hhold

theorem Course.Kept.knows (hresumes : c.Resumes p) :
    c.Knows start (plan p.files (manifestAt (c.world.fs manifestPath)) nodes p.force) := by
  have htakes : Concerned p.files (manifestAt (c.world.fs manifestPath)) → _ := fun hconcerned =>
    hresumes (hsaw.hold hconcerned ▸ hhold)
  rw [plan_eq hhold]
  intro item hitem
  rw [items_draft] at hitem
  rcases List.mem_append.mp hitem with hitem | hitem
  · obtain ⟨row, hrow, hitem⟩ := List.mem_filterMap.mp hitem
    cases row with
    | absent name => cases hitem
    | refused name reason =>
      cases hitem
      exact ⟨by rintro ⟨⟩, by rintro ⟨⟩⟩
    | file d =>
      cases hitem
      have hd := GuestFiles.mem_desired.mpr hrow
      refine ⟨verdict_ne_left, fun hkept => ?_⟩
      obtain ⟨-, hash, mode, owner, hstate, hnot, hunknown, hmay⟩ := verdict_kept.mp hkept
      obtain ⟨⟨content, hfile, rfl⟩, -⟩ := (hsaw.wanted d hd).present hstate
      have hforeign : ∀ r, (manifestAt (c.world.fs manifestPath)).records.get? d.entry.path = some r →
          r.sha256 ≠ MetaStore.digest content := by
        intro r hr hhash
        rw [hr] at hunknown
        exact hunknown (by simp [hhash])
      rcases h.traced d.entry.path owner mode content hfile with ⟨⟨r, hr, hhash⟩ | hcut, -⟩ | ⟨-, hstart, hnever⟩
      · exact absurd hhash (hforeign r hr)
      · rcases htakes (.inl ⟨d, hd⟩) _ owner mode content hfile hcut with ⟨r, hr, hhash⟩ | ⟨e, he, hpath, htaken⟩ | ⟨hq, -⟩
        · exact absurd hhash (hforeign r hr)
        · obtain rfl := List.inj_on_of_nodup_map hp.asks.apart.nodup he hd hpath
          exact htaken.elim (fun hsame => absurd hsame hnot) fun hreplaced => absurd hreplaced hmay
        · exact absurd (List.mem_map_of_mem hd) hq
      · exact ⟨_, rfl, hfile.trans hstart.symm, hnever⟩
  · obtain ⟨⟨q, r⟩, he, hitem⟩ := List.mem_filterMap.mp hitem
    obtain ⟨rfl, hq, hkeeps⟩ := goneItem_eq_some hitem
    have hr := SortedMap.mem_entries_iff.mp he
    refine ⟨fun hleft => ?_, fun hkept => ?_⟩
    · obtain ⟨hash, mode, owner, hstate, hne⟩ := decideGone_changed.mp hleft
      obtain ⟨⟨content, hfile, rfl⟩, -⟩ := (hsaw.recorded q r hr).present hstate
      rcases h.traced q owner mode content hfile with ⟨⟨r', hr', hhash⟩ | hcut, -⟩ | ⟨hnone, -⟩
      · cases hr'.symm.trans hr
        exact hne hhash.symm
      · rcases htakes (.inr ⟨q, r, hr⟩) q owner mode content hfile hcut with
          ⟨r', hr', hhash⟩ | ⟨d, hd, rfl, -⟩ | ⟨-, hheld⟩
        · cases hr'.symm.trans hr
          exact hne hhash.symm
        · exact hq (List.mem_map_of_mem hd)
        · rw [keepsGone, hstate] at hkeeps
          simp [hheld r hr] at hkeeps
      · cases hnone.symm.trans hr
    · have hdrops := Draft.Accounted.drops_decideGone q r (assess q nodes)
      dsimp only at hkept
      rw [hkept] at hdrops
      cases hdrops

/-- Else it takes its own work for a local edit. -/
theorem Course.Kept.resumes (hknows : c.Knows start (plan p.files (manifestAt (c.world.fs manifestPath)) nodes p.force)) :
    c.Resumes p := by
  rw [plan_eq hhold] at hknows
  intro _ q owner mode content hfile hcut
  have hwrote := h.cut hcut
  have hway : ∀ dir ∈ q.directories, c.world.fs dir = .dir := by
    rcases h.traced q owner mode content hfile with ⟨-, hway⟩ | ⟨-, -, hnever⟩
    · exact hway
    · exact absurd hwrote (hnever _)
  by_contra htakes
  obtain ⟨hforeign, hnot⟩ := not_or.mp htakes
  obtain ⟨hwanted, hgone⟩ := not_or.mp hnot
  by_cases hq : q ∈ p.files.desired.map (·.entry.path)
  · obtain ⟨d, hd, rfl⟩ := List.mem_map.mp hq
    have hfree : Unclaimed (manifestAt (c.world.fs manifestPath)) d := by
      intro r hr
      obtain ⟨name, hsource⟩ := hp.asks.source hd
      obtain ⟨name', hsource'⟩ := h.sources _ r hr
      rw [hsource, hsource']
      exact sourcesConflict_user (isManagedSource_userSource name) (isManagedSource_userSource name')
    have hkept := (@verdict_kept _ _ nodes p.force d).mpr
      ⟨hfree, _, _, _, (hsaw.wanted d hd).assess_present hway hfile, fun hsame => hwanted ⟨d, hd, rfl, .inl hsame⟩, ?_,
        fun hmay => hwanted ⟨d, hd, rfl, .inr hmay⟩⟩
    · obtain ⟨q, ⟨⟩, -, hnever⟩ := (hknows _ (mem_items_wanted hd)).2 hkept
      exact hnever _ hwrote
    · intro hany
      obtain ⟨r, hr, hhash⟩ := (Option.any_eq_true _ _).mp hany
      exact hforeign ⟨r, hr, of_decide_eq_true hhash⟩
  · push Not at hgone
    obtain ⟨r, hr, hheld⟩ := hgone hq
    have hstate := (hsaw.recorded q r hr).assess_present hway hfile
    obtain ⟨name, hsource⟩ := h.sources q r hr
    have hdrops : keepsGone p.files nodes q r = false := by
      rw [keepsGone, hstate, hsource]
      simp [hp.asks.deletes, hheld]
    have hitem : goneItem p.files nodes (q, r) = some ⟨r.entry, some q, (decideGone q r (assess q nodes)).1⟩ := by
      rw [goneItem, if_neg (by simp [hq, hdrops])]
    have hmem :=
      List.mem_append_right (p.files.rows.filterMap (rowItem (manifestAt (c.world.fs manifestPath)) nodes p.force))
      (List.mem_filterMap.mpr ⟨(q, r), SortedMap.mem_entries_iff.mpr hr, hitem⟩)
    rw [← items_draft] at hmem
    exact (hknows _ hmem).1 (decideGone_changed.mpr ⟨_, _, _, hstate, fun hhash => hforeign ⟨r, hr, hhash.symm⟩⟩)

end

end

/-- Whatever the syncs before came to, and whatever is asked for now: what the daemon wrote is known for its own if and only
    if what is asked for agrees with what is left of syncs that did not get to record it. -/
theorem own_work_iff (hserde : Manifest.SerdeReads) (hnone : manifestAt (fs manifestPath) = .empty) {polls : List Poll}
    (hpolls : ∀ p ∈ polls, p.Own) {p : Poll} (hp : p.Own) {ins : Inspection}
    (hins : (inspect p.files p.force { (course fs polls).world with turns := p.turns }).1 = .ok ins) :
    (course fs polls).Knows fs ins.plan ↔ (course fs polls).Resumes p := by
  have hkept := Course.kept hserde hnone hpolls
  have halone : Alone { (course fs polls).world with turns := p.turns } := hp.alone
  obtain ⟨nodes, hsaw, -, hplan⟩ := inspect_saw halone hins
  rw [hplan]
  cases hhold : holdReason p.files nodes with
  | none => exact ⟨hkept.resumes hp hsaw hhold, hkept.knows hp hsaw hhold⟩
  | some why =>
    have hknows : (course fs polls).Knows fs
        (plan p.files (manifestAt ((course fs polls).world.fs manifestPath)) nodes p.force) := by
      rw [plan_of_hold hhold]
      intro item hitem
      obtain ⟨e, -, rfl⟩ := List.mem_map.mp hitem
      exact ⟨by rintro ⟨⟩, by rintro ⟨⟩⟩
    refine iff_of_true hknows fun hfree q owner mode content hfile hcut => ?_
    -- A hold for where the manifest lives is seen only where there is something to look for.
    have hnothing : ¬ Concerned p.files (manifestAt ((course fs polls).world.fs manifestPath)) := fun hconcerned => by
      rw [hsaw.hold hconcerned, hfree] at hhold
      cases hhold
    obtain ⟨hwanted, hrecorded⟩ := not_or.mp hnothing
    push Not at hwanted hrecorded
    exact .inr (.inr ⟨fun hq => (List.mem_map.mp hq).elim fun d hd => hwanted d hd.1, fun r hr =>
      absurd hr (hrecorded q r)⟩)

end

open GuestSample Sample

/-- A sync of a document with this text for the file `app`. -/
def pollOf (text : String) (turns : List Turn) : Poll := ⟨asked text, false, turns⟩

/-- One that is killed when it has put the file in place, before the manifest is written. -/
def interrupted : Poll := pollOf "a: 1\n" (List.replicate 6 ⟨none, .none⟩ ++ [⟨none, .cut⟩])

theorem own_pollOf (text : String) : (pollOf text []).Own := ⟨asks_asked text, by rintro _ ⟨⟩⟩

theorem own_interrupted : ∀ p ∈ [interrupted], p.Own := by
  intro p hp
  rw [List.mem_singleton.mp hp]
  exact ⟨asks_asked _, by decide⟩

theorem cut_interrupted : (course guest [interrupted]).cut = [.wrote appPath.text (MetaStore.digest one)] ∧
    (course guest [interrupted]).world.fs appPath.text = .file .root 0o444 one := by
  decide +kernel

/-- A file that was put in place by a sync that was killed is found as it is wanted. -/
theorem own_work_app : ∃ ins,
    (inspect (asked "a: 1\n") false { (course guest [interrupted]).world with turns := [] }).1 = .ok ins ∧
      (course guest [interrupted]).Knows guest ins.plan := by
  have hok : ((inspect (asked "a: 1\n") false
      { (course guest [interrupted]).world with turns := [] }).1.toOption).isSome = true := by
    decide +kernel
  obtain ⟨ins, hins⟩ := Option.isSome_iff_exists.mp hok
  have hins' := Except.toOption_eq_some.mp hins
  refine ⟨ins, hins', (own_work_iff serdeReads (by decide +kernel) own_interrupted (own_pollOf "a: 1\n") hins').mpr ?_⟩
  intro _ q owner mode content hfile hcut
  rw [cut_interrupted.1, List.mem_singleton] at hcut
  obtain rfl : q = appPath := GuestPath.ext_text (Deed.wrote.inj hcut).1
  cases cut_interrupted.2.symm.trans hfile
  refine .inr (.inl ?_)
  decide +kernel

/-- The same file is kept as a local edit if the document has changed in the meantime. -/
theorem own_work_kept : (∀ p ∈ [interrupted], p.Own) ∧ (pollOf "a: 2\n" []).Own ∧ guest appPath.text = .missing ∧
    .wrote appPath.text (MetaStore.digest one) ∈ (course guest [interrupted]).world.log ∧
    ∃ ins, (inspect (asked "a: 2\n") false { (course guest [interrupted]).world with turns := [] }).1 = .ok ins ∧
      ins.plan.items.map (fun item => (item.path, item.action)) = [(some appPath, .keptLocalEdit)] := by
  have hkept : (inspect (asked "a: 2\n") false { (course guest [interrupted]).world with turns := [] }).1.toOption.map
      (fun ins => ins.plan.items.map fun item => (item.path, item.action)) = some [(some appPath, .keptLocalEdit)] := by
    decide +kernel
  obtain ⟨ins, hins, hitems⟩ := Option.map_eq_some_iff.mp hkept
  exact ⟨own_interrupted, own_pollOf _, by decide +kernel, by decide +kernel, ins, Except.toOption_eq_some.mp hins, hitems⟩

end Guest
end PveMeta
