import PveMeta.Theorems.GuestPlan

/-! # What a plan may do

A plan removes only what the user plane wrote and nothing wants, places only over what it saw and may replace, and drops
a record only where it says so. -/

namespace PveMeta
namespace Guest

variable [Deps] {files : GuestFiles} {old : Manifest} {nodes : Nodes} {force : Bool} {q : GuestPath} {r : Record}

section

omit [Deps]

/-! ### Records that are dropped -/

/-- The actions with which a record ends. -/
def Action.drops : Action → Bool
  | .forget | .delete | .left _ => true
  | _ => false

theorem Action.drops_iff {action : Action} : action.drops = true ↔
    action = .forget ∨ action = .delete ∨ ∃ why, action = .left why := by
  cases action <;> simp [drops]

/-- The path has a record, or an item with which its record ended. -/
def Draft.Accounted (p : Draft) (q : GuestPath) : Prop :=
  (p.manifest.records.get? q).isSome = true ∨ ∃ item ∈ p.items, item.path = some q ∧ item.action.drops = true

namespace Draft.Accounted

variable {p : Draft}

theorem addItem (h : p.Accounted q) (entry : String) (path : Option GuestPath) (action : Action) :
    (p.addItem entry path action).Accounted q := by
  refine h.imp_right ?_
  rintro ⟨item, hitem, hdrops⟩
  exact ⟨item, List.mem_append_left _ hitem, hdrops⟩

theorem record (h : p.Accounted q) (q' : GuestPath) (r : Record) : (p.record q' r).Accounted q := by
  refine h.imp_left fun hsome => ?_
  rw [Draft.record, SortedMap.get?_insert]
  split
  · rfl
  · exact hsome

theorem keep (h : p.Accounted q) (q' : GuestPath) (r : Option Record) : (p.keep q' r).Accounted q := by
  cases r with
  | none => exact h
  | some r => exact h.record q' r

theorem of_record (q : GuestPath) (r : Record) : (p.record q r).Accounted q := by
  refine .inl ?_
  rw [Draft.record, SortedMap.get?_insert_self]
  rfl

theorem of_drop {entry : String} {action : Action} (h : action.drops = true) :
    (p.addItem entry (some q) action).Accounted q :=
  .inr ⟨_, List.mem_append_right _ (List.mem_singleton_self _), rfl, h⟩

end Draft.Accounted

end

namespace Draft.Accounted

variable {p : Draft} {d : Desired}

theorem planTarget (h : p.Accounted q) (record : Option Record) : (planTarget nodes force d record p).Accounted q := by
  have hkept := (h.keep d.entry.path record).addItem d.entry.name (some d.entry.path)
  have hrecorded := (h.record d.entry.path d.record).addItem d.entry.name (some d.entry.path)
  unfold Guest.planTarget
  rcases decideFile_cases d record (assess d.entry.path nodes) with
    ⟨why, hdecide⟩ | ⟨-, hdecide⟩ | ⟨hash, mode, owner, -,
      ⟨-, -, -, hdecide⟩ | ⟨r', -, -, hdecide⟩ | ⟨-, hdecide⟩ | hdecide⟩ <;> rw [hdecide]
  exacts [hkept _, hrecorded _, hrecorded _, hrecorded _, hrecorded _, hkept _]

theorem planFile (h : p.Accounted q) : (planFile old nodes force d p).Accounted q := by
  unfold Guest.planFile
  split
  · split
    · exact (h.addItem _ _ _).record _ _
    · exact h.planTarget _
  · exact h.planTarget _

theorem planEntry (h : p.Accounted q) (row : Resolved) : (planEntry old nodes force p row).Accounted q := by
  cases row with
  | file d => exact h.planFile
  | absent name => exact h
  | refused name reason => exact h.addItem _ _ _

/-- The record of a file that is wanted stays, or makes way for another. -/
theorem of_wanted (hr : old.records.get? d.entry.path = some r) :
    (Guest.planFile old nodes force d p).Accounted d.entry.path := by
  rw [Guest.planFile, hr]
  dsimp only
  split
  · exact of_record _ _
  · unfold Guest.planTarget
    rcases decideFile_cases d (some r) (assess d.entry.path nodes) with
      ⟨why, hdecide⟩ | ⟨-, hdecide⟩ | ⟨hash, mode, owner, -,
        ⟨-, -, -, hdecide⟩ | ⟨r', -, -, hdecide⟩ | ⟨-, hdecide⟩ | hdecide⟩
    all_goals
      rw [hdecide]
      exact (of_record _ _).addItem _ _ _

omit [Deps] in
theorem drops_decideGone (q : GuestPath) (r : Record) (state : FileState) : (decideGone q r state).1.drops = true := by
  cases state with
  | missing => rfl
  | unsafePath why => rfl
  | present hash mode owner =>
    unfold decideGone
    dsimp only
    split <;> rfl

theorem planRecord (h : p.Accounted q) (wanted : List GuestPath) (held : List String) (e : GuestPath × Record) :
    (planRecord files nodes wanted held p e).Accounted q := by
  unfold Guest.planRecord
  split
  · exact h
  · split
    · exact h.addItem _ _ _
    · split
      · exact h.record _ _
      · split
        · exact h.record _ _
        · exact h.addItem _ _ _

/-- The record of a file that is wanted no more stays, or ends with an item. -/
theorem of_gone {wanted : List GuestPath} {held : List String} (hq : q ∉ wanted) :
    (Guest.planRecord files nodes wanted held p (q, r)).Accounted q := by
  unfold Guest.planRecord
  rw [if_neg hq]
  split
  · exact of_drop rfl
  · split
    · exact of_record _ _
    · split
      · exact of_record _ _
      · exact of_drop (drops_decideGone q r _)

end Draft.Accounted

variable (files nodes force) in
/-- A record is in the planned manifest, or an item says how it ended. -/
theorem accounted_plan (hr : old.records.get? q = some r) :
    ((plan files old nodes force).manifest.records.get? q).isSome = true ∨
      ∃ item ∈ (plan files old nodes force).items, item.path = some q ∧ item.action.drops = true := by
  have hdraft : (draft files old nodes force).Accounted q := by
    unfold draft
    by_cases hq : q ∈ files.desired.map (·.entry.path)
    · refine List.foldlRecOn (motive := fun p : Draft => p.Accounted q) _ _ ?_ fun p hp e _ => hp.planRecord _ _ e
      obtain ⟨d, hd, rfl⟩ := List.mem_map.mp hq
      exact Log.foldl_of_mem (P := fun p : Draft => p.Accounted d.entry.path) (GuestFiles.mem_desired.mp hd)
        (fun p => .of_wanted hr) (fun p hp row _ => hp.planEntry row) _
    · exact Log.foldl_of_mem (P := fun p : Draft => p.Accounted q) (SortedMap.mem_entries_iff.mpr hr)
        (fun p => .of_gone hq) (fun p hp e _ => hp.planRecord _ _ e) _
  cases hhold : holdReason files nodes with
  | some why =>
    rw [plan_of_hold hhold]
    refine .inl ?_
    rw [hr]
    rfl
  | none =>
    obtain ⟨dirs, hplan, -⟩ := plan_of_draft old force hhold
    rw [hplan]
    exact hdraft

/-! ### Operations -/

omit [Deps] in
theorem managedOperator_of_user {source : Text} (h : isManagedSource source = false) : managedOperator source = none := by
  rw [managedOperator, Text.stripPrefix, if_neg (by rw [← isManagedSource, h]; exact Bool.false_ne_true), Option.bind_none]

omit [Deps] in
/-- Within the user plane no two sources conflict. -/
theorem sourcesConflict_user {a b : Text} (ha : isManagedSource a = false) (hb : isManagedSource b = false) :
    sourcesConflict a b = false := by
  rw [sourcesConflict, managedOperator_of_user ha, managedOperator_of_user hb]
  split <;> rfl

omit [Deps] in
theorem isManagedSource_userSource (name : String) : isManagedSource (userSource name) = false := rfl

theorem mem_heldNames {rows : List Resolved} {name reason : String} (h : .refused name reason ∈ rows) :
    name ∈ heldNames rows :=
  List.mem_filterMap.mpr ⟨_, h, rfl⟩

theorem deletionOwner_eq_true {source : Text} (h : deletionOwner files source = true) : isManagedSource source = false := by
  cases files with
  | managed items => cases h
  | nothing => exact Bool.not_eq_true' _ ▸ h
  | held why => exact Bool.not_eq_true' _ ▸ h
  | entries rows => exact Bool.not_eq_true' _ ▸ h

/-- A removal is of a file as the user plane recorded it, which no entry wants and no refused entry may have written. -/
structure RemoveJustified (files : GuestFiles) (old : Manifest) (nodes : Nodes) (path : Text) (hash : String)
    (q : GuestPath) (r : Record) : Prop where
  path : path = q.text
  recorded : old.records.get? q = some r
  user : isManagedSource r.source = false
  unclaimed : ∀ name, sourcesConflict (userSource name) r.source = false
  hash : hash = r.sha256
  probed : ∃ mode owner, assess q nodes = .present r.sha256 mode owner
  unwanted : ∀ d ∈ files.desired, d.entry.path ≠ q
  unheld : ∀ reason, .refused r.entry reason ∉ files.rows

/-- A file is placed over what was probed, and over a file only if that is as recorded or may be overwritten. -/
structure PlaceJustified (old : Manifest) (nodes : Nodes) (force : Bool) (path : Text) (content : ByteArray) (mode : Nat)
    (owner : Owner) (expect : Expect) (d : Desired) : Prop where
  wanted : path = d.entry.path.text ∧ content = d.content ∧ mode = d.entry.mode ∧ owner = d.entry.owner
  unclaimed : ∀ r, old.records.get? d.entry.path = some r → sourcesConflict d.entry.source r.source = false
  probed : expect = .missing ∧ assess d.entry.path nodes = .missing ∨
    ∃ hash m o, expect = .sha256 hash ∧ assess d.entry.path nodes = .present hash m o ∧
      ((∃ r, old.records.get? d.entry.path = some r ∧ r.sha256 = hash) ∨ d.entry.localEdits = .overwrite ∨ force = true)

/-- Every operation of a plan is justified, none is on an unsafe path or one recorded for a conflicting source, and a
    record goes only with an item that says so. -/
theorem plan_justified (files : GuestFiles) (old : Manifest) (nodes : Nodes) (force : Bool) :
    (∀ path hash, .remove path hash ∈ (plan files old nodes force).ops →
      ∃ q r, RemoveJustified files old nodes path hash q r) ∧
    (∀ path content mode owner expect, .place path content mode owner expect ∈ (plan files old nodes force).ops →
      ∃ d ∈ files.desired, PlaceJustified old nodes force path content mode owner expect d) ∧
    (∀ op ∈ (plan files old nodes force).ops, ∀ q : GuestPath, op.path = q.text → ∀ why, assess q nodes ≠ .unsafePath why) ∧
    ∀ q r, old.records.get? q = some r → (plan files old nodes force).manifest.records.get? q = none →
      ∃ item ∈ (plan files old nodes force).items, item.path = some q ∧
        (item.action = .forget ∨ item.action = .delete ∨ ∃ why, item.action = .left why) := by
  refine ⟨fun path hash hop => ?_, fun path content mode owner expect hop => ?_, fun op hop q hpath why => ?_,
    fun q r hr hnone => ?_⟩
  · cases planned_of_mem hop with
    | remove q r known mode owner unwanted owned unheld state =>
      have huser := deletionOwner_eq_true owned
      exact ⟨q, r, rfl, known, huser, fun name => sourcesConflict_user (isManagedSource_userSource name) huser, rfl,
        ⟨mode, owner, state⟩,
        fun d hd hq => unwanted (List.mem_map.mpr ⟨d, hd, hq⟩), fun reason h => unheld (mem_heldNames h)⟩
  · cases planned_of_mem hop with
    | create d wanted unclaimed state => exact ⟨d, wanted, ⟨rfl, rfl, rfl, rfl⟩, unclaimed, .inl ⟨rfl, state⟩⟩
    | update d wanted unclaimed r m o known state =>
      exact ⟨d, wanted, ⟨rfl, rfl, rfl, rfl⟩, unclaimed, .inr ⟨_, m, o, rfl, state, .inl ⟨r, known, rfl⟩⟩⟩
    | overwrite d wanted unclaimed hash m o state forced =>
      exact ⟨d, wanted, ⟨rfl, rfl, rfl, rfl⟩, unclaimed, .inr ⟨hash, m, o, rfl, state, .inr forced⟩⟩
  · have hq : ∀ q' : GuestPath, q'.text = q.text → ∀ state, assess q' nodes = state → assess q nodes = state := by
      intro q' htext state hstate
      rwa [← GuestPath.ext_text htext]
    cases planned_of_mem hop with
    | create d wanted unclaimed state => simp [hq _ hpath _ state]
    | update d wanted unclaimed r m o known state => simp [hq _ hpath _ state]
    | overwrite d wanted unclaimed hash m o state forced => simp [hq _ hpath _ state]
    | remove q' r known m o unwanted owned unheld state => simp [hq _ hpath _ state]
  · have haccounted := accounted_plan files nodes force hr
    rw [hnone] at haccounted
    obtain ⟨item, hitem, hpath, hdrops⟩ := haccounted.resolve_left Bool.false_ne_true
    exact ⟨item, hitem, hpath, Action.drops_iff.mp hdrops⟩

end Guest
end PveMeta
