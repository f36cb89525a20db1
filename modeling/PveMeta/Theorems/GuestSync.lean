import PveMeta.Theorems.GuestCommit
import PveMeta.Theorems.GuestSources

/-! # What a sync does

A sync does what its plan says, as far as it gets; and it leaves the manifest that it read, or the plan's with the
records of what was not done as they were. -/

namespace PveMeta
namespace Guest

variable {old : Manifest} {q : GuestPath} {w w' : World}

/-! ### The manifest after a commit -/

theorem get?_undone {m : Manifest} {op : Op} : (Plan.undone old m op).records.get? q =
    if op.path = q.text then old.records.get? q else m.records.get? q := by
  unfold Plan.undone
  split
  · next p hp =>
    have hpath : op.path = q.text ↔ q = p := by
      rw [← Manifest.text_of_absolute hp]
      exact ⟨fun h => GuestPath.ext_text h.symm, fun h => by rw [h]⟩
    unfold Plan.restored
    split
    · next r hr =>
      rw [SortedMap.get?_insert]
      simp only [hpath]
      split
      · next h => rw [h, hr]
      · rfl
    · next hnone =>
      rw [SortedMap.get?_erase]
      simp only [hpath]
      split
      · next h => rw [h, hnone]
      · rfl
  · next e he =>
    rw [if_neg]
    intro h
    rw [h, Manifest.absolute_text] at he
    cases he

/-- A record is as it was where an operation of its path was not done, else as it was planned. -/
theorem get?_manifestAfter {p : Plan} {done : List Bool} : (p.manifestAfter old done).records.get? q =
    if ∃ e ∈ p.ops.zip done, e.2 = false ∧ e.1.path = q.text then old.records.get? q
    else p.manifest.records.get? q := by
  have hfold : ∀ (l : List (Op × Bool)) (m : Manifest),
      (l.foldl (fun m e => Plan.undone old m e.1) m).records.get? q =
        if ∃ e ∈ l, e.1.path = q.text then old.records.get? q else m.records.get? q := by
    intro l
    induction l with
    | nil => simp
    | cons e l ih =>
      intro m
      rw [List.foldl_cons, ih, get?_undone]
      by_cases hl : ∃ e' ∈ l, e'.1.path = q.text
      · obtain ⟨e', he', hpath⟩ := hl
        rw [if_pos ⟨e', he', hpath⟩, if_pos ⟨e', List.mem_cons_of_mem _ he', hpath⟩]
      · rw [if_neg hl]
        by_cases hhead : e.1.path = q.text
        · rw [if_pos hhead, if_pos ⟨e, List.mem_cons_self, hhead⟩]
        · rw [if_neg hhead, if_neg]
          rintro ⟨e', he', hpath⟩
          rcases List.mem_cons.mp he' with rfl | he'
          · exact hhead hpath
          · exact hl ⟨e', he', hpath⟩
  rw [Plan.manifestAfter, hfold]
  refine if_congr ⟨?_, ?_⟩ rfl rfl
  · rintro ⟨e, he, hpath⟩
    obtain ⟨hmem, hdone⟩ := List.mem_filter.mp he
    exact ⟨e, hmem, by simpa using hdone, hpath⟩
  · rintro ⟨e, hmem, hdone, hpath⟩
    exact ⟨e, List.mem_filter.mpr ⟨hmem, by simpa using hdone⟩, hpath⟩

/-- Where all that is done at a path was done, its record is as planned. -/
theorem get?_after_done {p : Plan} {outcomes : List Outcome}
    (h : ∀ e ∈ p.ops.zip outcomes, e.1.path = q.text → e.2 = .done) :
    (p.manifestAfter old (outcomes.map fun o => o == .done)).records.get? q = p.manifest.records.get? q := by
  rw [get?_manifestAfter, if_neg]
  rintro ⟨e, he, hnot, hpath⟩
  rw [List.zip_map_right] at he
  obtain ⟨e', he', rfl⟩ := List.mem_map.mp he
  simp [h e' he' hpath] at hnot

/-- Else it is as it was, unless all that is done there was done. -/
theorem get?_after {p : Plan} {outcomes : List Outcome} (hlength : outcomes.length = p.ops.length) :
    (p.manifestAfter old (outcomes.map fun o => o == .done)).records.get? q = old.records.get? q ∨
      ((p.manifestAfter old (outcomes.map fun o => o == .done)).records.get? q = p.manifest.records.get? q ∧
        ∀ op ∈ p.ops, op.path = q.text → (op, .done) ∈ p.ops.zip outcomes) := by
  rw [get?_manifestAfter]
  split
  · exact Or.inl rfl
  · next hnone =>
    refine Or.inr ⟨rfl, fun op hop hpath => ?_⟩
    obtain ⟨i, hi, hget⟩ := List.mem_iff_getElem.mp hop
    have hi' : i < outcomes.length := by rw [hlength]; exact hi
    have hmem : (op, outcomes[i]) ∈ p.ops.zip outcomes := by
      refine List.mem_iff_getElem.mpr ⟨i, by rw [List.length_zip]; omega, ?_⟩
      rw [List.getElem_zip, hget]
    by_cases hdone : outcomes[i] = .done
    · rwa [hdone] at hmem
    · refine absurd ⟨(op, outcomes[i] == .done), ?_, by simpa using hdone, hpath⟩ hnone
      rw [List.zip_map_right]
      exact List.mem_map.mpr ⟨(op, outcomes[i]), hmem, rfl⟩

/-! ### Reads -/

theorem quiet_read (w : World) (path : Text) (max : Nat) : Quiet w (w.read path max).2 := by
  have hcall := quiet_call w
  unfold World.read
  split
  · next e w₁ heq => rwa [heq] at hcall
  · next w₁ heq =>
    rw [heq] at hcall
    split
    · split <;> exact hcall
    · exact hcall

theorem map_zipOutcomes (items : List Item) (outcomes : List Outcome) :
    (zipOutcomes items outcomes).map (·.item) = items := by
  induction items generalizing outcomes with
  | nil => rfl
  | cons item items ih =>
    unfold zipOutcomes
    split
    · rw [List.map_cons, ih]
    · rw [List.map_cons, ih]

variable [Deps] {files : GuestFiles} {nodes : Nodes} {force : Bool}

theorem quiet_probe (w : World) (paths : List Text) : Quiet w (w.probe paths).2 := by
  unfold World.probe
  induction paths generalizing w with
  | nil => exact .refl w
  | cons path paths ih =>
    have hcall := quiet_call w
    unfold World.probeAll
    split
    · next e w₁ heq => rwa [heq] at hcall
    · next w₁ heq =>
      rw [heq] at hcall
      have hrest := ih w₁
      split
      · next e w₂ heq₂ =>
        rw [heq₂] at hrest
        exact hcall.trans hrest
      · next nodes w₂ heq₂ =>
        rw [heq₂] at hrest
        exact hcall.trans hrest

/-! ### The plan's operations and directories -/

theorem Planned.guarded {op : Op} (h : Planned files old nodes force op) : op.Guarded := by
  cases h with
  | create d => exact ⟨d.entry.path.ne_manifestPath, by rintro _ _ _ _ ⟨⟩⟩
  | update d => exact ⟨d.entry.path.ne_manifestPath, by rintro _ _ _ _ ⟨⟩⟩
  | overwrite d => exact ⟨d.entry.path.ne_manifestPath, by rintro _ _ _ _ ⟨⟩⟩
  | remove q => exact ⟨q.ne_manifestPath, by rintro _ _ _ _ ⟨⟩⟩

theorem guarded_of_mem : ∀ op ∈ (plan files old nodes force).ops, op.Guarded := fun _ h => (planned_of_mem h).guarded

theorem ne_manifestPath_of_mem_dirs : ∀ dir ∈ (plan files old nodes force).dirs, dir ≠ manifestPath := by
  intro dir h
  rcases mem_dirs h with rfl | ⟨d, -, hmissing⟩
  · decide
  · exact ne_manifestPath_of_mem_directories (List.mem_filter.mp hmissing).1

/-- The manifest that a commit of these operations leaves. -/
def Left (p : Plan) (old after : Manifest) (log : List Deed) : Prop :=
  ∃ outcomes, Answered p.ops outcomes log ∧ after = p.manifestAfter old (outcomes.map fun o => o == .done)

theorem Left.get?_of_not_mem {p : Plan} {after : Manifest} {log : List Deed} (h : Left p old after log)
    (hq : ∀ op ∈ p.ops, op.path ≠ q.text) : after.records.get? q = p.manifest.records.get? q := by
  obtain ⟨outcomes, -, rfl⟩ := h
  rw [get?_manifestAfter, if_neg]
  rintro ⟨e, he, -, hpath⟩
  exact hq e.1 (List.of_mem_zip he).1 hpath

/-- A record that is left was there, or was planned with all that is done at its path. -/
theorem Left.get? {p : Plan} {after : Manifest} {log : List Deed} (h : Left p old after log) :
    after.records.get? q = old.records.get? q ∨
      (after.records.get? q = p.manifest.records.get? q ∧ ∀ op ∈ p.ops, op.path = q.text → op.Wrote log) := by
  obtain ⟨outcomes, hanswered, rfl⟩ := h
  exact (get?_after hanswered.length).imp_right fun h =>
    ⟨h.1, fun op hop hpath => hanswered.wrote op _ (h.2 op hop hpath) rfl⟩

/-- Whose a record is that is left: it was there, or its file is one that is wanted, and as it should be. -/
theorem Left.recorded {after : Manifest} {log : List Deed} {r : Record}
    (h : Left (plan files old nodes force) old after log)
    (hr : after.records.get? q = some r) : old.records.get? q = some r ∨
      ∃ d ∈ files.desired, d.entry.path = q ∧ d.record = r ∧ Unclaimed old d ∧
        (asWanted nodes d = true ∨ .wrote q.text d.sha256 ∈ log) := by
  rcases h.get? (q := q) with hold | ⟨hplanned, hwrote⟩
  · exact Or.inl (hold ▸ hr)
  · rw [hplanned] at hr
    cases recorded_of_get? hr with
    | old h => exact Or.inl h
    | found d wanted unclaimed path record h => exact Or.inr ⟨d, wanted, path, record, unclaimed, Or.inl h⟩
    | written d wanted unclaimed path record expect hop =>
      have hdone := hwrote _ hop rfl
      rw [Op.Wrote, ← d.hashed] at hdone
      exact Or.inr ⟨d, wanted, path, record, unclaimed, Or.inr hdone⟩

/-! ### What the deeds of a sync are -/

/-- What a sync may do, by its plan and by what is at the manifest's path. -/
def Plan.Does (p : Plan) (files : GuestFiles) (nodes : Nodes) (node : Inode) : Deed → Prop
  | .found path hash => ∃ d ∈ files.desired, asWanted nodes d = true ∧ path = d.entry.path.text ∧ hash = d.sha256
  | .wrote path _ => Reserved path ∨ path = manifestPath ∨ ∃ op ∈ p.ops, path = op.path
  | .destroyed path hash => Reserved path ∨ (∃ op ∈ p.ops, path = op.path ∧ op.Expects hash) ∨
    (path = manifestPath ∧ ∃ owner mode content, node = .file owner mode content ∧ MetaStore.digest content = hash)

theorem Plan.does_of_op {p : Plan} {node : Inode} {e : Deed} (h : ∃ op ∈ p.ops, op.Does e) : p.Does files nodes node e := by
  obtain ⟨op, hop, h⟩ := h
  cases e with
  | found path hash => exact h.elim
  | wrote path hash => exact Or.inr (Or.inr ⟨op, hop, h⟩)
  | destroyed path hash => exact h.imp_right fun h => Or.inl ⟨op, hop, h⟩

theorem Plan.does_of_saves {p : Plan} {node : Inode} {e : Deed} (h : SavesOver node e) : p.Does files nodes node e := by
  cases e with
  | found path hash => exact h.elim
  | wrote path hash => exact h.elim (fun h => Or.inr (Or.inl h)) Or.inl
  | destroyed path hash => exact h.imp_right Or.inr

/-- The commit of a sync, if there is anything to commit. -/
theorem commit_plan {p : Plan} {r : Except String (List Outcome)} (hp : p = plan files old nodes force)
    (h : (if p.ops.isEmpty then (.ok [], w) else w.commit p.dirs p.ops) = (r, w')) :
    Acts (fun e => ∃ op ∈ p.ops, op.Does e) w w' ∧ ∀ outcomes, r = .ok outcomes → Answered p.ops outcomes w'.log := by
  subst hp
  split at h
  · next hempty =>
    cases h
    rw [List.isEmpty_iff.mp hempty]
    refine ⟨(Quiet.refl _).acts, ?_⟩
    rintro _ ⟨⟩
    exact ⟨rfl, by rintro _ _ ⟨⟩⟩
  · exact commit_acts ne_manifestPath_of_mem_dirs guarded_of_mem h

/-- The directories that are left for the manifest's commit to make. -/
theorem ne_manifestPath_of_left {p : Plan} (hp : p = plan files old nodes force) :
    ∀ dir ∈ if p.ops.isEmpty then p.dirs else [], dir ≠ manifestPath := by
  intro dir hdir
  split at hdir
  · exact ne_manifestPath_of_mem_dirs dir (hp ▸ hdir)
  · cases hdir

variable [Serde]

/-- What a sync does before its commit: it notes the files that are as wanted. -/
structure Looked (files : GuestFiles) (nodes : Nodes) (p : Plan) (w w' : World) : Prop where
  acts : Acts (p.Does files nodes (w.fs manifestPath)) w w'
  found : ∀ d ∈ files.desired, asWanted nodes d = true → .found d.entry.path.text d.sha256 ∈ w'.log

/-- What came of a sync that looked: its deeds, the manifest that it read or the one that is left, and its report. -/
structure Synced (files : GuestFiles) (old : Manifest) (nodes : Nodes) (p : Plan) (w : World) (r : Except String Report)
    (w' : World) : Prop where
  log : Log.Extends (fun _ => p.Does files nodes (w.fs manifestPath)) w.log w'.log
  found : ∀ d ∈ files.desired, asWanted nodes d = true → .found d.entry.path.text d.sha256 ∈ w'.log
  manifest : w'.fs manifestPath = w.fs manifestPath ∨ ∃ after, Left p old after w'.log ∧
    w'.fs manifestPath = .file .root Manifest.mode after.render ∧
      .wrote manifestPath (MetaStore.digest after.render) ∈ w'.log
  items : ∀ report, r = .ok report → report.items.map (·.item) = p.items

/-- The deeds of the commit, and the manifest's after it. -/
theorem Synced.of_saved {p : Plan} {r : Except String Report} {w₁ w₂ : World} {after : Manifest}
    (hlooked : Looked files nodes p w w₁) (hacts : Acts (fun e => ∃ op ∈ p.ops, op.Does e) w₁ w₂)
    (hleft : Left p old after w₂.log) (hsaves : Saves after.render w₂ w')
    (hitems : ∀ report, r = .ok report → report.items.map (·.item) = p.items) : Synced files old nodes p w r w' := by
  have hcommitted := hlooked.acts.trans (hacts.mono fun _ => Plan.does_of_op)
  have hsaved := hsaves.log
  rw [hcommitted.manifest] at hsaved
  refine ⟨?_, ?_, ?_, hitems⟩
  · exact hcommitted.log.trans (hsaved.mono fun _ _ _ => Plan.does_of_saves)
  · exact fun d hd hwanted => hsaves.log.subset (hacts.log.subset (hlooked.found d hd hwanted))
  · rcases hsaves.manifest with h | ⟨h, hwrote⟩
    · exact Or.inl (h.trans hcommitted.manifest)
    · obtain ⟨outcomes, hanswered, heq⟩ := hleft
      refine Or.inr ⟨after, ⟨outcomes, ⟨hanswered.length, fun op outcome hmem hdone => ?_⟩, heq⟩, h, hwrote⟩
      exact (hanswered.wrote op outcome hmem hdone).mono hsaves.log.subset

theorem saveManifest_saves (old after : Manifest) {dirs : List Text} (w : World)
    (hdirs : ∀ dir ∈ dirs, dir ≠ manifestPath) :
    Saves after.render w (saveManifest old after dirs w).2 := by
  simp only [saveManifest, Calls.saveManifest, World.calls_commit]
  split
  · exact (Quiet.refl w).saves
  · split
    · next e w₁ heq => exact commit_saves hdirs heq
    · next why w₁ heq => exact commit_saves hdirs heq
    · next outcomes w₁ heq => exact commit_saves hdirs heq

/-! ### A sync -/

variable [RustDebug]

/-- The manifest that is read from what is at its path. -/
def manifestAt : Inode → Manifest
  | .file _ _ content => (trusted (some content)).1
  | _ => .empty

omit [Deps] in
theorem keyed_manifestAt (node : Inode) : (manifestAt node).Keyed := by
  cases node with
  | file owner mode content =>
    unfold manifestAt trusted
    dsimp only
    split
    · next m hm => exact Manifest.Keyed.parse hm
    · exact Manifest.Keyed.empty
  | _ => exact Manifest.Keyed.empty

omit [Deps] in
theorem manifestAt_render (hserde : Manifest.SerdeReads) {m : Manifest} (hm : m.Keyed) (owner : Owner) (mode : Nat) :
    manifestAt (.file owner mode m.render) = m := by
  unfold manifestAt trusted
  simp only [Manifest.parse_render hserde hm]

omit [Serde] in
/-- The manifest that a sync leaves is read back. -/
theorem Left.keyed {V : Writer} {after : Manifest} {log : List Deed}
    (hleft : Left (plan files old nodes force) old after log) (hask : V.Asks files) (hold : old.Keyed) : after.Keyed := by
  intro q r hr
  rcases hleft.recorded hr with hr | ⟨d, hd, rfl, rfl, -, -⟩
  · exact hold q r hr
  · obtain ⟨name, hsource⟩ := hask.source hd
    refine ⟨rfl, ?_⟩
    rw [Desired.record, hsource]
    exact V.source_ne_nil name

omit [Deps] [Serde] [RustDebug] in
/-- What is read is what is at the manifest's path. -/
theorem bytes_of_read {max : Nat} {bytes : Option ByteArray} (h : (w.read manifestPath max).1 = .ok bytes) :
    (∃ owner mode content, w.fs manifestPath = .file owner mode content ∧ bytes = some content) ∨
      (∀ owner mode content, w.fs manifestPath ≠ .file owner mode content) ∧ bytes = none := by
  have hcall := quiet_call w
  unfold World.read at h
  split at h
  · cases h
  · next w₁ heq =>
    rw [heq] at hcall
    rw [← hcall.manifest]
    split at h
    · next owner mode content hfile =>
      split at h
      · cases h
      · cases h
        exact Or.inl ⟨owner, mode, content, hfile, rfl⟩
    · next hnot =>
      cases h
      exact Or.inr ⟨hnot, rfl⟩

omit [Deps] in
theorem manifestAt_of_read {max : Nat} {bytes : Option ByteArray} (h : (w.read manifestPath max).1 = .ok bytes) :
    (trusted bytes).1 = manifestAt (w.fs manifestPath) := by
  rcases bytes_of_read h with ⟨owner, mode, content, hfile, rfl⟩ | ⟨hnot, rfl⟩
  · rw [hfile]
    rfl
  · cases hnode : w.fs manifestPath with
    | file owner mode content => exact absurd hnode (hnot owner mode content)
    | _ => rfl

theorem quiet_look (files : GuestFiles) (w : World) : Quiet w (look files w).2 := by
  have hread := quiet_read w manifestPath Manifest.maxBytes
  simp only [look, Calls.look, World.calls_read, World.calls_probe]
  split
  · next e w₁ heq => rwa [heq] at hread
  · next bytes w₁ heq =>
    rw [heq] at hread
    split
    · have hprobe := quiet_probe w₁ (probePaths files (trusted bytes).1)
      split
      · next e w₂ heq₂ =>
        rw [heq₂] at hprobe
        exact hread.trans hprobe
      · next nodes w₂ heq₂ =>
        rw [heq₂] at hprobe
        exact hread.trans hprobe
    · exact hread

theorem read_of_look {seen : Manifest × Option String} (h : (look files w).1 = .ok (seen, nodes)) :
    ∃ bytes, (w.read manifestPath Manifest.maxBytes).1 = .ok bytes ∧ seen = trusted bytes := by
  simp only [look, Calls.look, World.calls_read, World.calls_probe] at h
  split at h
  · cases h
  · next bytes w₁ hread =>
    have hok : (w.read manifestPath Manifest.maxBytes).1 = .ok bytes := by rw [hread]
    refine ⟨bytes, hok, ?_⟩
    split at h
    · split at h
      · cases h
      · cases h
        rfl
    · cases h
      rfl

theorem manifestAt_of_look {m : Manifest} {warning : Option String} (h : (look files w).1 = .ok ((m, warning), nodes)) :
    m = manifestAt (w.fs manifestPath) := by
  obtain ⟨bytes, hread, hseen⟩ := read_of_look h
  rw [← manifestAt_of_read hread, ← hseen]

theorem inspect_eq_error {e : String} (h : inspect files force w = (.error e, w')) : Quiet w w' := by
  have hquiet := quiet_look files w
  simp only [inspect, Calls.inspect, World.calls_look, World.calls_note] at h
  split at h
  · next e' w₁ hlook =>
    cases h
    rwa [hlook] at hquiet
  · cases h

/-- What is decided, and from what; the files that are found as wanted are noted. -/
theorem inspect_eq_ok {ins : Inspection} (h : inspect files force w = (.ok ins, w')) :
    ∃ nodes, (look files w).1 = .ok ((ins.manifest, ins.warning), nodes) ∧
      ins.manifest = manifestAt (w.fs manifestPath) ∧ ins.plan = plan files ins.manifest nodes force ∧
      Looked files nodes ins.plan w w' := by
  have hquiet := quiet_look files w
  simp only [inspect, Calls.inspect, World.calls_look, World.calls_note] at h
  split at h
  · cases h
  · next old warning nodes w₁ hlook =>
    cases h
    have hok : (look files w).1 = .ok ((old, warning), nodes) := by rw [hlook]
    rw [hlook] at hquiet
    refine ⟨nodes, hok, manifestAt_of_look hok, rfl, ⟨?_, hquiet.manifest⟩, fun d hd hwanted => ?_⟩
    · rw [World.note, hquiet.log]
      refine Log.Extends.of_forall fun e he => ?_
      obtain ⟨d, hd, rfl⟩ := List.mem_map.mp he
      obtain ⟨hd, hwanted⟩ := List.mem_filter.mp hd
      exact ⟨d, hd, hwanted, rfl, rfl⟩
    · exact List.mem_append_right _ (List.mem_map_of_mem (List.mem_filter.mpr ⟨hd, hwanted⟩))

/-- A sync that does not get to look does nothing; one that does acts by its plan. -/
theorem sync_cases {r : Except String Report} (h : sync files force w = (r, w')) :
    (Quiet w w' ∧ ∃ e, r = .error e) ∨
      ∃ warning nodes, (look files w).1 = .ok ((manifestAt (w.fs manifestPath), warning), nodes) ∧
        Synced files (manifestAt (w.fs manifestPath)) nodes (plan files (manifestAt (w.fs manifestPath)) nodes force)
          w r w' := by
  simp only [sync, Calls.sync, World.calls_inspect, World.calls_commit, World.calls_saveManifest] at h
  split at h
  · next e w₁ heq =>
    cases h
    exact Or.inl ⟨inspect_eq_error heq, e, rfl⟩
  · next ins w₁ heq =>
    obtain ⟨nodes, hlook, hold, hplan, hlooked⟩ := inspect_eq_ok heq
    rw [← hold]
    refine Or.inr ⟨ins.warning, nodes, hlook, ?_⟩
    rw [← hplan]
    split at h
    · split at h
      · next e w₂ hcommit =>
        cases h
        obtain ⟨hacts, -⟩ := commit_plan hplan hcommit
        have hcommitted := hlooked.acts.trans (hacts.mono fun _ => Plan.does_of_op)
        refine ⟨hcommitted.log, fun d hd hwanted => ?_, Or.inl hcommitted.manifest, by rintro _ ⟨⟩⟩
        exact hacts.log.subset (hlooked.found d hd hwanted)
      · next outcomes w₂ hcommit =>
        obtain ⟨hacts, hanswered⟩ := commit_plan hplan hcommit
        have hdirs := ne_manifestPath_of_left hplan
        generalize (if ins.plan.ops.isEmpty then ins.plan.dirs else []) = dirs at h hdirs
        have hsaves := saveManifest_saves ins.manifest
          (ins.plan.manifestAfter ins.manifest (outcomes.map fun o => o == .done)) w₂ hdirs
        have hleft : Left ins.plan ins.manifest _ w₂.log := ⟨outcomes, hanswered outcomes rfl, rfl⟩
        split at h
        · next e w₃ hsave =>
          cases h
          rw [hsave] at hsaves
          exact .of_saved hlooked hacts hleft hsaves (by rintro _ ⟨⟩)
        · next w₃ hsave =>
          cases h
          rw [hsave] at hsaves
          refine .of_saved hlooked hacts hleft hsaves ?_
          rintro _ ⟨⟩
          exact map_zipOutcomes _ _
    · cases h
      refine ⟨hlooked.acts.log, hlooked.found, Or.inl hlooked.acts.manifest, ?_⟩
      rintro _ ⟨⟩
      exact map_zipOutcomes _ _

theorem sync_spec (files : GuestFiles) (force : Bool) (w : World) :
    (Quiet w (sync files force w).2 ∧ ∃ e, (sync files force w).1 = .error e) ∨
      ∃ warning nodes, (look files w).1 = .ok ((manifestAt (w.fs manifestPath), warning), nodes) ∧
        Synced files (manifestAt (w.fs manifestPath)) nodes (plan files (manifestAt (w.fs manifestPath)) nodes force) w
          (sync files force w).1 (sync files force w).2 :=
  sync_cases rfl

end Guest
end PveMeta
