import PveMeta.Guest.Sync
import PveMeta.Lib.Log

/-! # What a plan holds

Every operation of a plan, and every record of the manifest it leaves, comes from an entry or a record that justifies
it. A step of the plan adds what is justified, and so does the plan. -/

namespace PveMeta
namespace Guest

variable [Deps] {files : GuestFiles} {old : Manifest} {nodes : Nodes} {force : Bool}

/-! ### What a target is judged to be -/

section

omit [Deps]

variable {q : GuestPath} {dirs : List Text}

theorem assessDirs_eq_none : assessDirs nodes dirs = none ↔ ∀ dir ∈ dirs, nodes.at dir = .dir := by
  induction dirs with
  | nil => exact iff_of_true rfl (by rintro _ ⟨⟩)
  | cons dir dirs ih =>
    rw [assessDirs, List.forall_mem_cons]
    cases hnode : nodes.at dir with
    | dir => simpa [dirProblem] using ih
    | _ => simp [dirProblem]

theorem assessDirs_ne_present {hash : String} {mode : Nat} {owner : Owner} :
    assessDirs nodes dirs ≠ some (.present hash mode owner) := by
  induction dirs with
  | nil => rintro ⟨⟩
  | cons dir dirs ih =>
    unfold assessDirs
    split
    · rintro ⟨⟩
    · split
      · rintro ⟨⟩
      · exact ih

/-- A directory on the way is missing, and those before it are there. -/
def BreaksOff (nodes : Nodes) (dirs : List Text) : Prop :=
  ∃ before dir after, dirs = before ++ dir :: after ∧ (∀ d ∈ before, nodes.at d = .dir) ∧ nodes.at dir = .missing

theorem assessDirs_eq_missing : assessDirs nodes dirs = some .missing ↔ BreaksOff nodes dirs := by
  induction dirs with
  | nil =>
    refine iff_of_false (by rintro ⟨⟩) ?_
    rintro ⟨before, dir, after, hsplit, -⟩
    simp at hsplit
  | cons dir dirs ih =>
    have hbreaks : BreaksOff nodes (dir :: dirs) ↔
        nodes.at dir = .missing ∨ nodes.at dir = .dir ∧ BreaksOff nodes dirs := by
      constructor
      · rintro ⟨before, dir', after, hsplit, hbefore, hmissing⟩
        cases before with
        | nil =>
          obtain ⟨rfl, -⟩ := List.cons.inj hsplit
          exact .inl hmissing
        | cons first before =>
          obtain ⟨rfl, rfl⟩ := List.cons.inj hsplit
          obtain ⟨hfirst, hbefore⟩ := List.forall_mem_cons.mp hbefore
          exact .inr ⟨hfirst, before, dir', after, rfl, hbefore, hmissing⟩
      · rintro (hmissing | ⟨hfirst, before, dir', after, rfl, hbefore, hmissing⟩)
        · exact ⟨[], dir, dirs, rfl, by rintro _ ⟨⟩, hmissing⟩
        · exact ⟨dir :: before, dir', after, rfl, List.forall_mem_cons.mpr ⟨hfirst, hbefore⟩, hmissing⟩
    rw [hbreaks, assessDirs]
    cases hnode : nodes.at dir with
    | missing => simp [dirProblem]
    | dir => simpa [dirProblem] using ih
    | _ => simp [dirProblem]

theorem assess_eq_missing : assess q nodes = .missing ↔
    BreaksOff nodes q.directories ∨ (∀ dir ∈ q.directories, nodes.at dir = .dir) ∧ nodes.at q.text = .missing := by
  constructor
  · intro h
    unfold assess at h
    split at h
    · next state hstate =>
      subst h
      exact .inl (assessDirs_eq_missing.mp hstate)
    · next hnone =>
      refine .inr ⟨assessDirs_eq_none.mp hnone, ?_⟩
      split at h
      · assumption
      all_goals cases h
  · rintro (hbreaks | ⟨hdirs, hmissing⟩)
    · rw [assess, assessDirs_eq_missing.mpr hbreaks]
    · rw [assess, assessDirs_eq_none.mpr hdirs, hmissing]

end

/-! ### What is asked for -/

theorem GuestFiles.mem_desired {d : Desired} : d ∈ files.desired ↔ .file d ∈ files.rows := by
  cases files with
  | nothing => simp [desired, rows]
  | held why => simp [desired, rows]
  | managed items => simp [desired, rows]
  | entries rows =>
    simp only [desired, GuestFiles.rows, List.mem_filterMap]
    refine ⟨?_, fun h => ⟨.file d, h, rfl⟩⟩
    rintro ⟨row, hrow, hd⟩
    cases row with
    | file d' =>
      cases hd
      exact hrow
    | absent name => cases hd
    | refused name reason => cases hd

/-- The record of the entry's path is none that another writer's entry made. -/
def Unclaimed (old : Manifest) (d : Desired) : Prop :=
  ∀ r, old.records.get? d.entry.path = some r → sourcesConflict d.entry.source r.source = false

/-- What justifies an operation. -/
inductive Planned (files : GuestFiles) (old : Manifest) (nodes : Nodes) (force : Bool) : Op → Prop
  | create (d : Desired) (wanted : d ∈ files.desired) (unclaimed : Unclaimed old d)
      (state : assess d.entry.path nodes = .missing) :
      Planned files old nodes force (.place d.entry.path.text d.content d.entry.mode d.entry.owner .missing)
  | update (d : Desired) (wanted : d ∈ files.desired) (unclaimed : Unclaimed old d) (r : Record) (mode : Nat)
      (owner : Owner)
      (known : old.records.get? d.entry.path = some r) (state : assess d.entry.path nodes = .present r.sha256 mode owner) :
      Planned files old nodes force (.place d.entry.path.text d.content d.entry.mode d.entry.owner (.sha256 r.sha256))
  | overwrite (d : Desired) (wanted : d ∈ files.desired) (unclaimed : Unclaimed old d) (hash : String) (mode : Nat)
      (owner : Owner) (state : assess d.entry.path nodes = .present hash mode owner)
      (forced : d.entry.localEdits = .overwrite ∨ force = true) :
      Planned files old nodes force (.place d.entry.path.text d.content d.entry.mode d.entry.owner (.sha256 hash))
  | remove (q : GuestPath) (r : Record) (known : old.records.get? q = some r) (mode : Nat) (owner : Owner)
      (unwanted : q ∉ files.desired.map (·.entry.path)) (owned : deletionOwner files r.source = true)
      (unheld : r.entry ∉ heldNames files.rows) (state : assess q nodes = .present r.sha256 mode owner) :
      Planned files old nodes force (.remove q.text r.sha256)

/-- What justifies a record: it was there, or its file was found as wanted, or is written. -/
inductive Recorded (files : GuestFiles) (old : Manifest) (nodes : Nodes) (ops : List Op) (q : GuestPath) (r : Record) : Prop
  | old (h : old.records.get? q = some r)
  | found (d : Desired) (wanted : d ∈ files.desired) (unclaimed : Unclaimed old d) (path : d.entry.path = q)
      (record : d.record = r) (h : asWanted nodes d = true)
  | written (d : Desired) (wanted : d ∈ files.desired) (unclaimed : Unclaimed old d) (path : d.entry.path = q)
      (record : d.record = r) (expect : Expect)
      (h : Op.place q.text d.content d.entry.mode d.entry.owner expect ∈ ops)

theorem Recorded.mono {ops ops' : List Op} {q : GuestPath} {r : Record} (h : Recorded files old nodes ops q r)
    (hops : ∀ op ∈ ops, op ∈ ops') : Recorded files old nodes ops' q r := by
  cases h with
  | old h => exact .old h
  | found d wanted unclaimed path record h => exact .found d wanted unclaimed path record h
  | written d wanted unclaimed path record expect h => exact .written d wanted unclaimed path record expect (hops _ h)

/-- What is planned so far is justified. -/
structure Draft.Justified (files : GuestFiles) (old : Manifest) (nodes : Nodes) (force : Bool) (p : Draft) : Prop where
  ops : ∀ op ∈ p.ops, Planned files old nodes force op
  records : ∀ q r, p.manifest.records.get? q = some r → Recorded files old nodes p.ops q r
  dirs : ∀ dir, (p.dirs.get? dir).isSome = true → ∃ d ∈ files.desired, dir ∈ missingDirs nodes d.entry.path

namespace Draft.Justified

variable {p : Draft}

theorem addItem (h : p.Justified files old nodes force) (entry : String) (path : Option GuestPath) (action : Action) :
    (p.addItem entry path action).Justified files old nodes force := ⟨h.ops, h.records, h.dirs⟩

theorem addOp (h : p.Justified files old nodes force) {op : Op} (hop : Planned files old nodes force op) :
    ({ p with ops := p.ops ++ [op] } : Draft).Justified files old nodes force := by
  refine ⟨fun op' hop' => ?_, fun q r hr => (h.records q r hr).mono fun _ => List.mem_append_left _, h.dirs⟩
  rcases List.mem_append.mp hop' with hop' | hop'
  · exact h.ops op' hop'
  · rw [List.mem_singleton.mp hop']
    exact hop

theorem addDirs (h : p.Justified files old nodes force) {d : Desired} (wanted : d ∈ files.desired) :
    ({ p with dirs := (missingDirs nodes d.entry.path).foldl (fun dirs dir => dirs.insert dir ()) p.dirs } :
      Draft).Justified files old nodes force := by
  refine ⟨h.ops, h.records, fun dir hdir => ?_⟩
  rcases SortedMap.isSome_get?_foldl.mp hdir with hdir | hdir
  · exact ⟨d, wanted, hdir⟩
  · exact h.dirs dir hdir

theorem record (h : p.Justified files old nodes force) {q : GuestPath} {r : Record}
    (hr : Recorded files old nodes p.ops q r) : (p.record q r).Justified files old nodes force := by
  refine ⟨h.ops, fun q' r' hr' => ?_, h.dirs⟩
  rw [Draft.record, SortedMap.get?_insert] at hr'
  split at hr'
  · next hq =>
    cases hr'
    rw [hq]
    exact hr
  · exact h.records q' r' hr'

theorem keep (h : p.Justified files old nodes force) (q : GuestPath) :
    (p.keep q (old.records.get? q)).Justified files old nodes force := by
  unfold Draft.keep
  split
  · next r hr => exact h.record (.old hr)
  · exact h

end Draft.Justified

/-! ### One entry -/

/-- What is done with a file, and why. -/
theorem decideFile_cases (d : Desired) (record : Option Record) (state : FileState) :
    (∃ why, decideFile d record state force = (.refused why, none)) ∨
    (state = .missing ∧ decideFile d record state force = (.create, some .missing)) ∨
    ∃ hash mode owner, state = .present hash mode owner ∧
      ((hash = d.sha256 ∧ mode = d.entry.mode ∧ owner = d.entry.owner ∧
          decideFile d record state force = (.inSync, none)) ∨
        (∃ r, record = some r ∧ r.sha256 = hash ∧ decideFile d record state force = (.update, some (.sha256 hash))) ∨
        ((d.entry.localEdits = .overwrite ∨ force = true) ∧
          decideFile d record state force = (.overwrite, some (.sha256 hash))) ∨
        decideFile d record state force = (.keptLocalEdit, none)) := by
  cases state with
  | unsafePath why => exact Or.inl ⟨why, rfl⟩
  | missing => exact Or.inr (Or.inl ⟨rfl, rfl⟩)
  | present hash mode owner =>
    refine Or.inr (Or.inr ⟨hash, mode, owner, rfl, ?_⟩)
    unfold decideFile
    dsimp only
    split
    · next h => exact Or.inl ⟨h.1, h.2.1, h.2.2, rfl⟩
    · split
      · next h =>
        obtain ⟨r, hr, hhash⟩ := (Option.any_eq_true _ _).mp h
        exact Or.inr (Or.inl ⟨r, hr, of_decide_eq_true hhash, rfl⟩)
      · split
        · next h => exact Or.inr (Or.inr (Or.inl ⟨h, rfl⟩))
        · exact Or.inr (Or.inr (Or.inr rfl))

omit [Deps] in
theorem decideGone_cases (q : GuestPath) (r : Record) (state : FileState) :
    (∃ action, decideGone q r state = (action, none)) ∨
    ∃ mode owner, state = .present r.sha256 mode owner ∧
      decideGone q r state = (.delete, some (.remove q.text r.sha256)) := by
  cases state with
  | missing => exact Or.inl ⟨_, rfl⟩
  | unsafePath why => exact Or.inl ⟨_, rfl⟩
  | present hash mode owner =>
    by_cases hhash : hash = r.sha256
    · subst hhash
      exact Or.inr ⟨mode, owner, rfl, by rw [decideGone, if_pos rfl]⟩
    · exact Or.inl ⟨_, by rw [decideGone, if_neg hhash]⟩

theorem asWanted_of_assess {d : Desired}
    (h : assess d.entry.path nodes = .present d.sha256 d.entry.mode d.entry.owner) : asWanted nodes d = true := by
  simp [asWanted, h]

namespace Draft.Justified

variable {p : Draft} {d : Desired}

/-- An operation of an entry comes with the entry's record. -/
theorem place (h : p.Justified files old nodes force) (wanted : d ∈ files.desired) (unclaimed : Unclaimed old d)
    {expect : Expect}
    (hop : Planned files old nodes force (.place d.entry.path.text d.content d.entry.mode d.entry.owner expect)) :
    ({ p.record d.entry.path d.record with
        ops := p.ops ++ [.place d.entry.path.text d.content d.entry.mode d.entry.owner expect] } : Draft).Justified
      files old nodes force :=
  (h.addOp hop).record
    (.written d wanted unclaimed rfl rfl expect (List.mem_append_right _ (List.mem_singleton_self _)))

theorem planTarget (h : p.Justified files old nodes force) (wanted : d ∈ files.desired) (unclaimed : Unclaimed old d) :
    (planTarget nodes force d (old.records.get? d.entry.path) p).Justified files old nodes force := by
  unfold Guest.planTarget
  rcases decideFile_cases d (old.records.get? d.entry.path) (assess d.entry.path nodes) with
    ⟨why, hdecide⟩ | ⟨hstate, hdecide⟩ | ⟨hash, mode, owner, hstate, hpresent⟩
  · rw [hdecide]
    exact (h.keep d.entry.path).addItem _ _ _
  · rw [hdecide]
    exact ((h.place wanted unclaimed (.create d wanted unclaimed hstate)).addDirs wanted).addItem _ _ _
  · rcases hpresent with ⟨rfl, rfl, rfl, hdecide⟩ | ⟨r, hr, rfl, hdecide⟩ | ⟨hforced, hdecide⟩ | hdecide
    · rw [hdecide]
      exact (h.record (.found d wanted unclaimed rfl rfl (asWanted_of_assess hstate))).addItem _ _ _
    · rw [hdecide]
      exact (h.place wanted unclaimed (.update d wanted unclaimed r mode owner hr hstate)).addItem _ _ _
    · rw [hdecide]
      exact (h.place wanted unclaimed (.overwrite d wanted unclaimed hash mode owner hstate hforced)).addItem _ _ _
    · rw [hdecide]
      exact (h.keep d.entry.path).addItem _ _ _

theorem planFile (h : p.Justified files old nodes force) (wanted : d ∈ files.desired) :
    (planFile old nodes force d p).Justified files old nodes force := by
  unfold Guest.planFile
  split
  · next r hr =>
    split
    · exact (h.addItem _ _ _).record (.old hr)
    · next hconflict =>
      rw [← hr]
      refine h.planTarget wanted fun r' hr' => ?_
      rw [hr] at hr'
      cases hr'
      simpa using hconflict
  · next hnone =>
    rw [← hnone]
    refine h.planTarget wanted fun r hr => ?_
    rw [hnone] at hr
    cases hr

theorem planEntry (h : p.Justified files old nodes force) {row : Resolved} (hrow : row ∈ files.rows) :
    (planEntry old nodes force p row).Justified files old nodes force := by
  cases row with
  | file d => exact h.planFile (GuestFiles.mem_desired.mpr hrow)
  | absent name => exact h
  | refused name reason => exact h.addItem _ _ _

/-! ### One record -/

theorem planRecord (h : p.Justified files old nodes force) {e : GuestPath × Record} (he : e ∈ old.records.entries) :
    (planRecord files nodes (files.desired.map (·.entry.path)) (heldNames files.rows) p e).Justified files old nodes
      force := by
  obtain ⟨q, r⟩ := e
  have hr : old.records.get? q = some r := SortedMap.mem_entries_iff.mp he
  unfold Guest.planRecord
  split
  · exact h
  · next hunwanted =>
    split
    · exact h.addItem _ _ _
    · next state hmissing =>
      split
      · exact h.record (.old hr)
      · next howner =>
        split
        · exact h.record (.old hr)
        · next hheld =>
          rcases decideGone_cases q r (assess q nodes) with ⟨action, hdecide⟩ | ⟨mode, owner, hstate, hdecide⟩
          · rw [hdecide]
            simpa using h.addItem _ _ _
          · rw [hdecide]
            exact (h.addOp (.remove q r hr mode owner hunwanted (by simpa using howner) hheld hstate)).addItem _ _ _

end Draft.Justified

/-! ### The plan -/

theorem justified_draft : (draft files old nodes force).Justified files old nodes force := by
  refine List.foldlRecOn _ _ ?_ fun p hp e he => hp.planRecord he
  refine List.foldlRecOn _ _ ?_ fun p hp row hrow => hp.planEntry hrow
  exact ⟨by rintro _ ⟨⟩, by rintro _ _ ⟨⟩, by rintro _ ⟨⟩⟩

theorem plan_of_hold {why : String} (h : holdReason files nodes = some why) : plan files old nodes force =
    ⟨old.records.entries.map fun e => ⟨e.2.entry, some e.2.path, .refused why⟩, [], [], old⟩ := by
  rw [plan, h]

variable (old force) in
theorem plan_of_draft (h : holdReason files nodes = none) : ∃ dirs, plan files old nodes force =
    ⟨(draft files old nodes force).items, (draft files old nodes force).ops, dirs, (draft files old nodes force).manifest⟩ ∧
    ∀ dir ∈ dirs, dir = guestRoot ∨ ∃ d ∈ files.desired, dir ∈ missingDirs nodes d.entry.path := by
  rw [plan, h]
  refine ⟨_, rfl, fun dir hdir => ?_⟩
  rw [SortedMap.mem_keys_iff] at hdir
  split at hdir
  · rw [SortedMap.get?_insert] at hdir
    split at hdir
    · next hroot => exact Or.inl hroot
    · exact Or.inr (justified_draft.dirs dir hdir)
  · exact Or.inr (justified_draft.dirs dir hdir)

theorem planned_of_mem {op : Op} (h : op ∈ (plan files old nodes force).ops) : Planned files old nodes force op := by
  cases hhold : holdReason files nodes with
  | some why =>
    rw [plan_of_hold hhold] at h
    cases h
  | none =>
    obtain ⟨dirs, hplan, -⟩ := plan_of_draft old force hhold
    rw [hplan] at h
    exact justified_draft.ops op h

theorem recorded_of_get? {q : GuestPath} {r : Record} (h : (plan files old nodes force).manifest.records.get? q = some r) :
    Recorded files old nodes (plan files old nodes force).ops q r := by
  cases hhold : holdReason files nodes with
  | some why =>
    rw [plan_of_hold hhold] at h
    exact .old h
  | none =>
    obtain ⟨dirs, hplan, -⟩ := plan_of_draft old force hhold
    rw [hplan] at h ⊢
    exact justified_draft.records q r h

theorem mem_dirs {dir : Text} (h : dir ∈ (plan files old nodes force).dirs) :
    dir = guestRoot ∨ ∃ d ∈ files.desired, dir ∈ missingDirs nodes d.entry.path := by
  cases hhold : holdReason files nodes with
  | some why =>
    rw [plan_of_hold hhold] at h
    cases h
  | none =>
    obtain ⟨dirs, hplan, hdirs⟩ := plan_of_draft old force hhold
    rw [hplan] at h
    exact hdirs dir h

/-! ### A file of another writer's -/

section

variable {q : GuestPath} {r : Record} {p : Draft} {d : Desired}

/-- A record of `q` that none of the entries may take over, nor the plan clear away. -/
structure Foreign (files : GuestFiles) (old : Manifest) (q : GuestPath) (r : Record) : Prop where
  recorded : old.records.get? q = some r
  conflict : ∀ d ∈ files.desired, d.entry.path = q → sourcesConflict d.entry.source r.source = true
  owner : deletionOwner files r.source = false

/-- No operation is on its file. -/
theorem Foreign.untouched (h : Foreign files old q r) (nodes : Nodes) (force : Bool) :
    ∀ op ∈ (plan files old nodes force).ops, op.path ≠ q.text := by
  have hclaimed : ∀ d ∈ files.desired, Unclaimed old d → d.entry.path.text ≠ q.text := by
    intro d hd hunclaimed htext
    have hpath := GuestPath.ext_text htext
    have hfree := hunclaimed r (hpath ▸ h.recorded)
    rw [h.conflict d hd hpath] at hfree
    cases hfree
  intro op hop
  cases planned_of_mem hop with
  | create d wanted unclaimed => exact hclaimed d wanted unclaimed
  | update d wanted unclaimed => exact hclaimed d wanted unclaimed
  | overwrite d wanted unclaimed => exact hclaimed d wanted unclaimed
  | remove q' r' known mode owner unwanted owned =>
    intro htext
    obtain rfl : q' = q := GuestPath.ext_text htext
    rw [h.recorded] at known
    cases known
    rw [h.owner] at owned
    cases owned

/-- The claimant is refused. -/
theorem planFile_of_conflict (hr : old.records.get? d.entry.path = some r)
    (hconflict : sourcesConflict d.entry.source r.source = true) : planFile old nodes force d p =
      (p.addItem d.entry.name (some d.entry.path) (.refused (sourceError d.entry r))).record d.entry.path r := by
  rw [planFile, hr]
  dsimp only
  rw [if_pos hconflict]

end

end Guest
end PveMeta
