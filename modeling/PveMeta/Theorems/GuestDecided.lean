import PveMeta.Theorems.GuestJustified
import PveMeta.Theorems.GuestSources

/-! # The plan, path by path

Every entry and every record adds its own to a plan, whatever is planned already. The files that are asked for have paths
of which no two collide, so a path has one operation at most, and its record in the planned manifest is decided in one
place. -/

namespace PveMeta
namespace Guest

variable [Deps] {files : GuestFiles} {old : Manifest} {nodes : Nodes} {force : Bool} {d : Desired} {p : Draft}
    {q : GuestPath}

/-! ### One entry -/

/-- What is done with a file that is wanted, whoever recorded it. -/
def verdict (old : Manifest) (nodes : Nodes) (force : Bool) (d : Desired) : Action × Option Expect :=
  match old.records.get? d.entry.path with
  | some r =>
    if sourcesConflict d.entry.source r.source then (.refused (sourceError d.entry r), none)
    else decideFile d (some r) (assess d.entry.path nodes) force
  | none => decideFile d none (assess d.entry.path nodes) force

/-- The actions with which the record becomes the entry's own. -/
def Action.adopts : Action → Bool
  | .inSync | .create | .update | .overwrite => true
  | _ => false

/-- The record of a file that is wanted, in the planned manifest. -/
def keptRecord (old : Manifest) (d : Desired) (action : Action) : Option Record :=
  if action.adopts then some d.record else old.records.get? d.entry.path

def Desired.op (d : Desired) (expect : Expect) : Op := .place d.entry.path.text d.content d.entry.mode d.entry.owner expect

/-- What one file adds to a plan. -/
def Draft.decide (p : Draft) (old : Manifest) (nodes : Nodes) (d : Desired) (decided : Action × Option Expect) : Draft where
  items := p.items ++ [⟨d.entry.name, some d.entry.path, decided.1⟩]
  ops := p.ops ++ (decided.2.map d.op).toList
  dirs :=
    if decided.1 = .create then (missingDirs nodes d.entry.path).foldl (fun dirs dir => dirs.insert dir ()) p.dirs
    else p.dirs
  manifest := (p.keep d.entry.path (keptRecord old d decided.1)).manifest

theorem planTarget_eq : planTarget nodes force d (old.records.get? d.entry.path) p =
    p.decide old nodes d (decideFile d (old.records.get? d.entry.path) (assess d.entry.path nodes) force) := by
  unfold planTarget
  rcases decideFile_cases d (old.records.get? d.entry.path) (assess d.entry.path nodes) with
    ⟨why, hdecide⟩ | ⟨-, hdecide⟩ | ⟨hash, mode, owner, -,
      ⟨-, -, -, hdecide⟩ | ⟨r', -, -, hdecide⟩ | ⟨-, hdecide⟩ | hdecide⟩
  all_goals
    rw [hdecide]
    cases hr : old.records.get? d.entry.path <;>
      simp [Draft.decide, Draft.addItem, Draft.keep, Draft.record, keptRecord, Action.adopts, Desired.op, hr]

theorem planFile_eq : planFile old nodes force d p = p.decide old nodes d (verdict old nodes force d) := by
  cases hr : old.records.get? d.entry.path with
  | none =>
    have htarget := @planTarget_eq _ old nodes force d p
    rw [hr] at htarget
    rw [planFile, verdict, hr]
    exact htarget
  | some r =>
    cases hconflict : sourcesConflict d.entry.source r.source with
    | true =>
      rw [planFile_of_conflict hr hconflict, verdict, hr]
      simp [hconflict, Draft.decide, Draft.addItem, Draft.keep, Draft.record, keptRecord, Action.adopts, hr]
    | false =>
      have htarget := @planTarget_eq _ old nodes force d p
      rw [hr] at htarget
      rw [planFile, verdict, hr]
      simp only [hconflict, Bool.false_eq_true, if_false]
      exact htarget

/-! ### One record -/

/-- The record of a file that is not wanted stays. -/
def keepsGone (files : GuestFiles) (nodes : Nodes) (q : GuestPath) (r : Record) : Bool :=
  match assess q nodes with
  | .missing => false
  | _ => ! deletionOwner files r.source || decide (r.entry ∈ heldNames files.rows)

/-- The operation on a file that is not wanted. -/
def goneOp (files : GuestFiles) (nodes : Nodes) (e : GuestPath × Record) : Option Op :=
  if e.1 ∈ files.desired.map (·.entry.path) ∨ keepsGone files nodes e.1 e.2 = true then none
  else (decideGone e.1 e.2 (assess e.1 nodes)).2

theorem ops_planRecord (e : GuestPath × Record) :
    (planRecord files nodes (files.desired.map (·.entry.path)) (heldNames files.rows) p e).ops =
      p.ops ++ (goneOp files nodes e).toList := by
  unfold planRecord goneOp keepsGone
  by_cases hwanted : e.1 ∈ files.desired.map (·.entry.path)
  · rw [if_pos hwanted, if_pos (Or.inl hwanted)]
    simp
  · rw [if_neg hwanted]
    cases hstate : assess e.1 nodes with
    | missing => simp [hwanted, decideGone, Draft.addItem]
    | _ =>
      cases howner : deletionOwner files e.2.source <;> by_cases hheld : e.2.entry ∈ heldNames files.rows <;>
        simp [hwanted, hheld, Draft.record, Draft.addItem]

theorem manifest_planRecord (e : GuestPath × Record) :
    (planRecord files nodes (files.desired.map (·.entry.path)) (heldNames files.rows) p e).manifest =
      if e.1 ∉ files.desired.map (·.entry.path) ∧ keepsGone files nodes e.1 e.2 = true then (p.record e.1 e.2).manifest
      else p.manifest := by
  unfold planRecord keepsGone
  by_cases hwanted : e.1 ∈ files.desired.map (·.entry.path)
  · rw [if_pos hwanted, if_neg fun h => h.1 hwanted]
  · rw [if_neg hwanted]
    cases hstate : assess e.1 nodes with
    | missing => simp [Draft.addItem]
    | _ =>
      cases howner : deletionOwner files e.2.source <;> by_cases hheld : e.2.entry ∈ heldNames files.rows <;>
        simp [hwanted, hheld, Draft.addItem]

/-! ### All of them -/

/-- What the rows of a document or the files of an operator ask for. -/
theorem GuestFiles.desired_eq : files.rows.filterMap Resolved.desired? = files.desired := by
  cases files with
  | nothing => rfl
  | held why => rfl
  | entries rows => rfl
  | managed items =>
    rw [GuestFiles.rows, GuestFiles.desired, List.filterMap_map]
    exact List.filterMap_some

/-- The operation on a file that is wanted. -/
def fileOp (old : Manifest) (nodes : Nodes) (force : Bool) (d : Desired) : Option Op :=
  (verdict old nodes force d).2.map d.op

theorem ops_rows (rows : List Resolved) (p : Draft) : (rows.foldl (planEntry old nodes force) p).ops =
    p.ops ++ (rows.filterMap Resolved.desired?).filterMap (fileOp old nodes force) := by
  rw [List.filterMap_filterMap]
  refine Log.foldl_filterMap Draft.ops (fun p row => ?_) rows p
  cases row with
  | file d =>
    rw [planEntry, planFile_eq]
    rfl
  | absent name => exact (List.append_nil _).symm
  | refused name reason => exact (List.append_nil _).symm

theorem ops_draft : (draft files old nodes force).ops =
    files.desired.filterMap (fileOp old nodes force) ++ old.records.entries.filterMap (goneOp files nodes) := by
  rw [draft, Log.foldl_filterMap Draft.ops (fun _ e => ops_planRecord e), ops_rows, GuestFiles.desired_eq]
  rfl

/-- The item of an entry; there is none for one whose view is absent. -/
def rowItem (old : Manifest) (nodes : Nodes) (force : Bool) : Resolved → Option Item
  | .file d => some ⟨d.entry.name, some d.entry.path, (verdict old nodes force d).1⟩
  | .absent _ => none
  | .refused name reason => some ⟨name, none, .refused reason⟩

/-- The item of a record, unless its file is wanted or the record stays. -/
def goneItem (files : GuestFiles) (nodes : Nodes) (e : GuestPath × Record) : Option Item :=
  if e.1 ∈ files.desired.map (·.entry.path) ∨ keepsGone files nodes e.1 e.2 = true then none
  else some ⟨e.2.entry, some e.1, (decideGone e.1 e.2 (assess e.1 nodes)).1⟩

theorem goneItem_eq_some {e : GuestPath × Record} {item : Item} (h : goneItem files nodes e = some item) :
    item = ⟨e.2.entry, some e.1, (decideGone e.1 e.2 (assess e.1 nodes)).1⟩ ∧ e.1 ∉ files.desired.map (·.entry.path) ∧
      keepsGone files nodes e.1 e.2 = false := by
  unfold goneItem at h
  split at h
  · cases h
  · next hnot =>
    cases h
    obtain ⟨hwanted, hgone⟩ := not_or.mp hnot
    exact ⟨rfl, hwanted, Bool.eq_false_iff.mpr hgone⟩

theorem items_planRecord (e : GuestPath × Record) :
    (planRecord files nodes (files.desired.map (·.entry.path)) (heldNames files.rows) p e).items =
      p.items ++ (goneItem files nodes e).toList := by
  unfold planRecord goneItem keepsGone
  by_cases hwanted : e.1 ∈ files.desired.map (·.entry.path)
  · rw [if_pos hwanted, if_pos (Or.inl hwanted)]
    simp
  · rw [if_neg hwanted]
    cases hstate : assess e.1 nodes with
    | missing => simp [hwanted, decideGone, Draft.addItem]
    | _ =>
      cases howner : deletionOwner files e.2.source <;> by_cases hheld : e.2.entry ∈ heldNames files.rows <;>
        simp [hwanted, hheld, Draft.record, Draft.addItem]

theorem items_draft : (draft files old nodes force).items =
    files.rows.filterMap (rowItem old nodes force) ++ old.records.entries.filterMap (goneItem files nodes) := by
  have hrow : ∀ (p : Draft) row, (planEntry old nodes force p row).items = p.items ++
      (rowItem old nodes force row).toList := by
    intro p row
    cases row with
    | file d =>
      rw [planEntry, planFile_eq]
      rfl
    | absent name => exact (List.append_nil _).symm
    | refused name reason => rfl
  rw [draft, Log.foldl_filterMap Draft.items (fun _ e => items_planRecord e), Log.foldl_filterMap Draft.items hrow]
  rfl

theorem mem_items_draft {item : Item} {row : Resolved} (hrow : row ∈ files.rows)
    (hitem : rowItem old nodes force row = some item) :
    item ∈ (draft files old nodes force).items := by
  rw [items_draft]
  exact List.mem_append_left _ (List.mem_filterMap.mpr ⟨row, hrow, hitem⟩)

theorem mem_items_wanted (hd : d ∈ files.desired) :
    ⟨d.entry.name, some d.entry.path, (verdict old nodes force d).1⟩ ∈ (draft files old nodes force).items :=
  mem_items_draft (GuestFiles.mem_desired.mp hd) rfl

theorem mem_items_refused {name reason : String} (h : .refused name reason ∈ files.rows) :
    ⟨name, none, .refused reason⟩ ∈ (draft files old nodes force).items :=
  mem_items_draft h rfl

/-! ### Paths that do not collide -/

/-- No two of the files have paths of which only one can be there. -/
def Apart (files : GuestFiles) : Prop := files.desired.Pairwise fun d e => collides d.entry.path e.entry.path = false

theorem apart_of_firstCollision {items : List Desired} (h : GuestFiles.firstCollision items = none) :
    items.Pairwise fun d e => collides d.entry.path e.entry.path = false := by
  induction items with
  | nil => exact .nil
  | cons d items ih =>
    rw [GuestFiles.firstCollision] at h
    split at h
    · cases h
    · next hnone =>
      refine .cons (fun e he => ?_) (ih h)
      exact Bool.eq_false_iff.mpr (List.find?_eq_none.mp hnone e he)

theorem path?_eq_some {row : Resolved} {q : GuestPath} : row.path? = some q ↔ ∃ d, row = .file d ∧ d.entry.path = q := by
  cases row <;> simp [Resolved.path?, Resolved.desired?]

/-- The clash of an entry is another file that collides with it. -/
theorem clash_eq_some {rows : List Resolved} {i : Nat} {other : Resolved} (h : clash rows i q = some other) :
    ∃ j e, j ≠ i ∧ rows[j]? = some (.file e) ∧ other = .file e ∧ collides q e.entry.path = true := by
  obtain ⟨⟨row, j⟩, hfind, rfl⟩ := Option.map_eq_some_iff.mp h
  have hmem := List.mem_zipIdx_iff_getElem?.mp (List.mem_of_find?_eq_some hfind)
  have hother := List.find?_some hfind
  simp only [Bool.and_eq_true, bne_iff_ne, Option.any_eq_true] at hother
  obtain ⟨hne, q', hq', hcollides⟩ := hother
  obtain ⟨e, rfl, rfl⟩ := path?_eq_some.mp hq'
  exact ⟨j, e, hne, hmem, rfl, hcollides⟩

theorem clash_eq_none {rows : List Resolved} {i : Nat} (h : clash rows i q = none) {j : Nat} {e : Desired} (hne : j ≠ i)
    (he : rows[j]? = some (.file e)) : collides q e.entry.path = false := by
  have hmem : (Resolved.file e, j) ∈ rows.zipIdx := List.mem_zipIdx_iff_getElem?.mpr he
  have := List.find?_eq_none.mp (Option.map_eq_none_iff.mp h) _ hmem
  simpa [Resolved.path?, Resolved.desired?, hne] using this

/-- An entry that clashes is refused. -/
theorem refuseCollisions_of_clash {rows : List Resolved} {i : Nat} {other : Resolved} (hd : rows[i]? = some (.file d))
    (h : clash rows i d.entry.path = some other) :
    (refuseCollisions rows)[i]? = some (.refused d.entry.name (collisionError d.entry.path other.name)) := by
  rw [refuseCollisions, List.getElem?_mapIdx, hd]
  simp [Resolved.path?, Resolved.desired?, Resolved.name, h]

/-- Every other entry stays as it is. -/
theorem refuseCollisions_of_none {rows : List Resolved} {i : Nat}
    (h : ∀ d, rows[i]? = some (.file d) → clash rows i d.entry.path = none) : (refuseCollisions rows)[i]? = rows[i]? := by
  rw [refuseCollisions, List.getElem?_mapIdx]
  cases hrow : rows[i]? with
  | none => rfl
  | some row =>
    cases row with
    | absent name => rfl
    | refused name reason => rfl
    | file d =>
      have := h d hrow
      simp [Resolved.path?, Resolved.desired?, this]

/-- An entry that is left standing clashes with none. -/
theorem file_of_refuseCollisions {rows : List Resolved} {i : Nat} (h : (refuseCollisions rows)[i]? = some (.file d)) :
    rows[i]? = some (.file d) ∧ clash rows i d.entry.path = none := by
  have hkept : ∀ d', rows[i]? = some (.file d') → clash rows i d'.entry.path = none := by
    intro d' hd'
    cases hclash : clash rows i d'.entry.path with
    | none => rfl
    | some other =>
      rw [refuseCollisions_of_clash hd' hclash] at h
      cases h
  rw [refuseCollisions_of_none hkept] at h
  exact ⟨h, hkept d h⟩

/-- An entry of a document that is left standing collides with no other. -/
theorem apart_refuseCollisions (rows : List Resolved) :
    ((refuseCollisions rows).filterMap Resolved.desired?).Pairwise
      fun d e => collides d.entry.path e.entry.path = false := by
  have hfile : ∀ {row : Resolved} {d : Desired}, row.desired? = some d → row = .file d := by
    intro row d h
    cases row with
    | file d' => rw [Option.some.inj h]
    | absent name => cases h
    | refused name reason => cases h
  rw [List.pairwise_filterMap, List.pairwise_iff_getElem]
  intro i j hi hj hlt d hd e he
  obtain ⟨-, hclash⟩ := file_of_refuseCollisions ((List.getElem?_eq_getElem hi).trans (congrArg some (hfile hd)))
  obtain ⟨hrow, -⟩ := file_of_refuseCollisions ((List.getElem?_eq_getElem hj).trans (congrArg some (hfile he)))
  exact clash_eq_none hclash hlt.ne' hrow

/-- What a document states, or an operator may hand over. -/
inductive Requested [RustDebug] : GuestFiles → Prop
  | nothing : Requested .nothing
  | held (why : String) : Requested (.held why)
  | document (doc : Value) : Requested (.ofDocument doc)
  | managed (items : List Desired) (files : GuestFiles) (h : GuestFiles.ofManaged items = .ok files) : Requested files

theorem Writer.Asks.requested [RustDebug] {V : Writer} (h : V.Asks files) : Requested files := by
  cases h with
  | nothing => exact .nothing
  | held why => exact .held why
  | document doc => exact .document doc
  | managed operator items files h built => exact .managed items files h

theorem Requested.apart [RustDebug] (h : Requested files) : Apart files := by
  cases h with
  | nothing => exact .nil
  | held why => exact .nil
  | document doc =>
    unfold Apart GuestFiles.ofDocument
    split
    · exact .nil
    · split
      · exact .nil
      · exact apart_refuseCollisions _
  | managed items files h =>
    unfold GuestFiles.ofManaged at h
    split at h
    · cases h
    · next hnone =>
      cases h
      exact apart_of_firstCollision hnone

theorem Writer.Asks.apart [RustDebug] {V : Writer} (h : V.Asks files) : Apart files := h.requested.apart

omit [Deps] in
theorem ne_of_collides {q q' : GuestPath} (h : collides q q' = false) : q ≠ q' := by
  rintro rfl
  simp [collides] at h

theorem Apart.nodup (h : Apart files) : (files.desired.map (·.entry.path)).Nodup :=
  List.pairwise_map.mpr (List.Pairwise.imp (fun hd => ne_of_collides hd) h)

/-! ### One operation a path -/

theorem path_fileOp {op : Op} (h : fileOp old nodes force d = some op) : op.path = d.entry.path.text := by
  obtain ⟨expect, -, rfl⟩ := Option.map_eq_some_iff.mp h
  rfl

theorem goneOp_eq_some {e : GuestPath × Record} {op : Op} (h : goneOp files nodes e = some op) :
    op = .remove e.1.text e.2.sha256 ∧ e.1 ∉ files.desired.map (·.entry.path) ∧ keepsGone files nodes e.1 e.2 = false := by
  unfold goneOp at h
  split at h
  · cases h
  · next hnot =>
    obtain ⟨hwanted, hgone⟩ := not_or.mp hnot
    rcases decideGone_cases e.1 e.2 (assess e.1 nodes) with ⟨action, hdecide⟩ | ⟨mode, owner, -, hdecide⟩
    · rw [hdecide] at h
      cases h
    · rw [hdecide] at h
      cases h
      exact ⟨rfl, hwanted, Bool.eq_false_iff.mpr hgone⟩

theorem path_goneOp {e : GuestPath × Record} {op : Op} (h : goneOp files nodes e = some op) :
    op.path = e.1.text ∧ e.1 ∉ files.desired.map (·.entry.path) := by
  obtain ⟨rfl, hwanted, -⟩ := goneOp_eq_some h
  exact ⟨rfl, hwanted⟩

/-- No two operations of a plan are on one path. -/
theorem Apart.ops (h : Apart files) : (draft files old nodes force).ops.Pairwise fun a b => a.path ≠ b.path := by
  rw [ops_draft, List.pairwise_append]
  refine ⟨?_, ?_, ?_⟩
  · refine List.pairwise_filterMap.mpr (List.Pairwise.imp (fun {d e} hcollides a ha b hb hpath => ?_) h)
    rw [path_fileOp ha, path_fileOp hb] at hpath
    exact ne_of_collides hcollides (GuestPath.ext_text hpath)
  · refine List.pairwise_filterMap.mpr (List.Pairwise.imp (fun {d e} hlt a ha b hb hpath => ?_)
      (List.pairwise_map.mp old.records.sorted))
    rw [(path_goneOp ha).1, (path_goneOp hb).1] at hpath
    exact hlt.ne (GuestPath.ext_text hpath)
  · intro a ha b hb hpath
    obtain ⟨d, hd, ha⟩ := List.mem_filterMap.mp ha
    obtain ⟨e, -, hb⟩ := List.mem_filterMap.mp hb
    rw [path_fileOp ha, (path_goneOp hb).1] at hpath
    exact (path_goneOp hb).2 (List.mem_map.mpr ⟨d, hd, GuestPath.ext_text hpath⟩)

/-! ### The planned manifest -/

omit [Deps] in
theorem get?_keep (record : Option Record) (q' : GuestPath) : (p.keep q' record).manifest.records.get? q =
    if q = q' then record.or (p.manifest.records.get? q) else p.manifest.records.get? q := by
  cases record with
  | none => simp [Draft.keep]
  | some r =>
    rw [Draft.keep, Draft.record, SortedMap.get?_insert]
    rfl

theorem get?_rows_of_not_mem {rows : List Resolved} (h : ∀ d ∈ rows.filterMap Resolved.desired?, d.entry.path ≠ q)
    (p : Draft) :
    (rows.foldl (planEntry old nodes force) p).manifest.records.get? q = p.manifest.records.get? q := by
  induction rows generalizing p with
  | nil => rfl
  | cons row rows ih =>
    cases row with
    | absent name => exact ih h p
    | refused name reason => exact ih h _
    | file d =>
      have hd : q ≠ d.entry.path := (h d List.mem_cons_self).symm
      rw [List.foldl_cons, ih fun e he => h e (List.mem_cons_of_mem d he), planEntry, planFile_eq]
      exact (get?_keep _ _).trans (if_neg hd)

theorem get?_rows_of_mem {rows : List Resolved} (hd : d ∈ rows.filterMap Resolved.desired?)
    (hnodup : ((rows.filterMap Resolved.desired?).map (·.entry.path)).Nodup) (p : Draft) :
    (rows.foldl (planEntry old nodes force) p).manifest.records.get? d.entry.path =
      (keptRecord old d (verdict old nodes force d).1).or (p.manifest.records.get? d.entry.path) := by
  induction rows generalizing p with
  | nil => cases hd
  | cons row rows ih =>
    cases row with
    | absent name => exact ih hd hnodup p
    | refused name reason => exact ih hd hnodup _
    | file d' =>
      obtain ⟨hnew, hrest⟩ := List.nodup_cons.mp hnodup
      rw [List.foldl_cons, planEntry, planFile_eq]
      rcases List.mem_cons.mp hd with rfl | hd
      · rw [get?_rows_of_not_mem fun e he hpath => hnew (List.mem_map.mpr ⟨e, he, hpath⟩)]
        exact (get?_keep _ _).trans (if_pos rfl)
      · have hne : d.entry.path ≠ d'.entry.path := fun hpath => hnew (List.mem_map.mpr ⟨d, hd, hpath⟩)
        rw [ih hd hrest]
        exact congrArg _ ((get?_keep _ _).trans (if_neg hne))

theorem get?_gone (l : List (GuestPath × Record)) (p : Draft) (hnodup : (Assoc.keys l).Nodup) :
    (l.foldl (planRecord files nodes (files.desired.map (·.entry.path)) (heldNames files.rows)) p).manifest.records.get? q =
      if q ∈ files.desired.map (·.entry.path) then p.manifest.records.get? q
      else ((Assoc.get? q l).filter (keepsGone files nodes q)).or (p.manifest.records.get? q) := by
  induction l generalizing p with
  | nil => simp
  | cons e l ih =>
    obtain ⟨hnew, hrest⟩ := List.nodup_cons.mp hnodup
    rw [List.foldl_cons, ih _ hrest, manifest_planRecord]
    by_cases hwanted : q ∈ files.desired.map (·.entry.path)
    · rw [if_pos hwanted, if_pos hwanted]
      split
      · next h =>
        refine SortedMap.get?_insert_ne ?_
        rintro rfl
        exact h.1 hwanted
      · rfl
    · rw [if_neg hwanted, if_neg hwanted, Assoc.get?_cons]
      by_cases hq : e.1 = q
      · subst hq
        rw [if_pos rfl, Assoc.get?_eq_none_iff.mpr hnew]
        cases hkeeps : keepsGone files nodes e.1 e.2 <;> simp [hwanted, hkeeps, Draft.record, Option.filter]
      · rw [if_neg hq]
        split
        · rw [Draft.record, SortedMap.get?_insert_ne (Ne.symm hq)]
        · rfl

/-- The planned record of a file that is wanted. -/
theorem Apart.get?_wanted (h : Apart files) (hd : d ∈ files.desired) :
    (draft files old nodes force).manifest.records.get? d.entry.path = keptRecord old d (verdict old nodes force d).1 := by
  have hmem : d.entry.path ∈ files.desired.map (·.entry.path) := List.mem_map_of_mem hd
  have hnodup := h.nodup
  rw [← GuestFiles.desired_eq] at hd hnodup
  rw [draft, get?_gone _ _ SortedMap.nodup_keys, if_pos hmem, get?_rows_of_mem hd hnodup]
  exact Option.or_none

/-- The planned record of a file that is not wanted. -/
theorem get?_unwanted (hq : q ∉ files.desired.map (·.entry.path)) :
    (draft files old nodes force).manifest.records.get? q = (old.records.get? q).filter (keepsGone files nodes q) := by
  rw [draft, get?_gone _ _ SortedMap.nodup_keys, if_neg hq, get?_rows_of_not_mem]
  · exact Option.or_none
  · rw [GuestFiles.desired_eq]
    exact fun d hd hpath => hq (List.mem_map.mpr ⟨d, hd, hpath⟩)

/-! ### The planned directories -/

theorem isSome_dirs_rows {dir : Text} (rows : List Resolved) (p : Draft) :
    ((rows.foldl (planEntry old nodes force) p).dirs.get? dir).isSome = true ↔
      (∃ d ∈ rows.filterMap Resolved.desired?, (verdict old nodes force d).1 = .create ∧
        dir ∈ missingDirs nodes d.entry.path) ∨
        (p.dirs.get? dir).isSome = true := by
  induction rows generalizing p with
  | nil => simp
  | cons row rows ih =>
    cases row with
    | absent name => exact ih p
    | refused name reason => exact ih _
    | file d =>
      have hdesired : (Resolved.file d :: rows).filterMap Resolved.desired? = d :: rows.filterMap Resolved.desired? := rfl
      rw [List.foldl_cons, ih, hdesired, planEntry, planFile_eq, Draft.decide]
      simp only [List.mem_cons, exists_eq_or_imp]
      by_cases hcreate : (verdict old nodes force d).1 = .create
      · rw [if_pos hcreate, SortedMap.isSome_get?_foldl]
        simp only [hcreate, true_and]
        exact or_left_comm.trans or_assoc.symm
      · rw [if_neg hcreate]
        simp only [hcreate, false_and, false_or]

theorem dirs_planRecord {wanted : List GuestPath} {held : List String} (e : GuestPath × Record) :
    (planRecord files nodes wanted held p e).dirs = p.dirs := by
  unfold planRecord
  split
  · rfl
  · split
    · rfl
    · split
      · rfl
      · split <;> rfl

theorem isSome_dirs_draft {dir : Text} : ((draft files old nodes force).dirs.get? dir).isSome = true ↔
    ∃ d ∈ files.desired, (verdict old nodes force d).1 = .create ∧ dir ∈ missingDirs nodes d.entry.path := by
  have hgone : ∀ (l : List (GuestPath × Record)) (p : Draft),
    (l.foldl (planRecord files nodes (files.desired.map (·.entry.path))
      (heldNames files.rows)) p).dirs = p.dirs := by
    intro l
    induction l with
    | nil => exact fun _ => rfl
    | cons e l ih => exact fun p => (ih _).trans (dirs_planRecord e)
  rw [draft, hgone, isSome_dirs_rows, GuestFiles.desired_eq]
  simp

/-- The plan, when nothing stands in the way of the manifest. -/
theorem plan_eq (h : holdReason files nodes = none) : plan files old nodes force =
    ⟨(draft files old nodes force).items, (draft files old nodes force).ops, (plan files old nodes force).dirs,
      (draft files old nodes force).manifest⟩ := by
  rw [plan, h]

theorem Apart.plan_ops (h : Apart files) : (plan files old nodes force).ops.Pairwise fun a b => a.path ≠ b.path := by
  cases hhold : holdReason files nodes with
  | none =>
    rw [plan_eq hhold]
    exact h.ops
  | some why =>
    rw [plan_of_hold hhold]
    exact .nil

theorem sorted_dirs : (plan files old nodes force).dirs.Pairwise (· < ·) := by
  unfold plan
  split
  · exact .nil
  · exact SortedMap.sorted _

/-- The directories that are made: those that a new file needs, and the manifest's own. -/
theorem mem_dirs_iff (h : holdReason files nodes = none) {dir : Text} : dir ∈ (plan files old nodes force).dirs ↔
    (dir = guestRoot ∧ (plan files old nodes force).changes old = true ∧ nodes.at guestRoot ≠ .dir) ∨
      ∃ d ∈ files.desired, (verdict old nodes force d).1 = .create ∧ dir ∈ missingDirs nodes d.entry.path := by
  rw [← isSome_dirs_draft]
  have hchanges : (plan files old nodes force).changes old =
      (! (draft files old nodes force).ops.isEmpty || decide ((draft files old nodes force).manifest ≠ old)) := by
    rw [plan_eq h]
    rfl
  rw [hchanges, plan, h]
  dsimp only
  rw [SortedMap.mem_keys_iff]
  split
  · next hroot =>
    rw [SortedMap.get?_insert]
    split
    · next hdir => exact iff_of_true rfl (.inl ⟨hdir, hroot⟩)
    · next hdir => simp [hdir]
  · next hroot => exact ⟨.inr, fun h => h.resolve_left fun hdir => hroot hdir.2⟩

/-! ### What is to change -/

/-- A file is to be written: nobody else has it recorded, and it is missing, or not as it is wanted and may be replaced. -/
def Due (old : Manifest) (nodes : Nodes) (force : Bool) (d : Desired) : Prop :=
  Unclaimed old d ∧
    match assess d.entry.path nodes with
    | .missing => True
    | .present sha256 mode owner => ¬ (sha256 = d.sha256 ∧ mode = d.entry.mode ∧ owner = d.entry.owner) ∧
      ((old.records.get? d.entry.path).any (·.sha256 = sha256) = true ∨ d.entry.localEdits = .overwrite ∨ force = true)
    | .unsafePath _ => False

theorem verdict_unclaimed (h : Unclaimed old d) :
    verdict old nodes force d = decideFile d (old.records.get? d.entry.path) (assess d.entry.path nodes) force := by
  unfold verdict
  cases hr : old.records.get? d.entry.path with
  | none => rfl
  | some r =>
    dsimp only
    rw [h r hr, if_neg Bool.false_ne_true]

theorem verdict_claimed (h : ¬ Unclaimed old d) : ∃ why, verdict old nodes force d = (.refused why, none) := by
  unfold Unclaimed at h
  push Not at h
  obtain ⟨r, hr, hconflict⟩ := h
  rw [verdict, hr]
  dsimp only
  rw [if_pos (by simpa using hconflict)]
  exact ⟨_, rfl⟩

theorem verdict_due (h : Due old nodes force d) : (verdict old nodes force d).1.adopts = true ∧
    ∃ expect, (verdict old nodes force d).2 = some expect := by
  obtain ⟨hfree, hstate⟩ := h
  rw [verdict_unclaimed hfree]
  split at hstate
  · next hmissing =>
    rw [hmissing]
    exact ⟨rfl, _, rfl⟩
  · next hash mode owner hpresent =>
    obtain ⟨hnot, hmay⟩ := hstate
    rw [hpresent, decideFile, if_neg hnot]
    split
    · exact ⟨rfl, _, rfl⟩
    · next hunknown =>
      rw [if_pos (hmay.resolve_left hunknown)]
      exact ⟨rfl, _, rfl⟩
  · exact hstate.elim

/-- A file that is not to be written is as it is wanted, and taken for the entry's own, or nothing is done with it. -/
theorem verdict_not_due (h : ¬ Due old nodes force d) : (verdict old nodes force d).2 = none ∧
    ((verdict old nodes force d).1.adopts = true ↔ Unclaimed old d ∧ asWanted nodes d = true) := by
  by_cases hfree : Unclaimed old d
  · have hstate := not_and.mp h hfree
    rw [verdict_unclaimed hfree, asWanted]
    split at hstate
    · exact absurd trivial hstate
    · next hash mode owner hpresent =>
      rw [hpresent, decideFile]
      by_cases hsame : hash = d.sha256 ∧ mode = d.entry.mode ∧ owner = d.entry.owner
      · rw [if_pos hsame]
        simp [Action.adopts, hfree, hsame]
      · obtain ⟨hunknown, hkept⟩ := not_or.mp (not_and.mp hstate hsame)
        rw [if_neg hsame, if_neg hunknown, if_neg hkept]
        refine ⟨rfl, iff_of_false Bool.false_ne_true ?_⟩
        simpa [hfree, and_assoc] using hsame
    · next hjudged =>
      rw [hjudged]
      exact ⟨rfl, iff_of_false Bool.false_ne_true fun h => Bool.false_ne_true h.2⟩
  · obtain ⟨why, hverdict⟩ := @verdict_claimed _ old nodes force d hfree
    rw [hverdict]
    exact ⟨rfl, iff_of_false Bool.false_ne_true fun h => hfree h.1⟩

theorem isSome_fileOp : (∃ op, fileOp old nodes force d = some op) ↔ Due old nodes force d := by
  unfold fileOp
  by_cases hdue : Due old nodes force d
  · obtain ⟨-, expect, hexpect⟩ := @verdict_due _ old nodes force d hdue
    rw [hexpect]
    exact iff_of_true ⟨_, rfl⟩ hdue
  · rw [(verdict_not_due hdue).1]
    exact iff_of_false (by rintro ⟨op, ⟨⟩⟩) hdue

theorem adopts_verdict : (verdict old nodes force d).1.adopts = true ↔
    Due old nodes force d ∨ Unclaimed old d ∧ asWanted nodes d = true := by
  by_cases hdue : Due old nodes force d
  · exact iff_of_true (verdict_due hdue).1 (.inl hdue)
  · rw [(verdict_not_due hdue).2, or_iff_right hdue]

theorem due_of_create (h : (verdict old nodes force d).1 = .create) :
    Due old nodes force d ∧ assess d.entry.path nodes = .missing := by
  have hfree : Unclaimed old d := by
    by_contra hclaimed
    obtain ⟨why, hverdict⟩ := @verdict_claimed _ old nodes force d hclaimed
    rw [hverdict] at h
    cases h
  have hstate : assess d.entry.path nodes = .missing := by
    rw [verdict_unclaimed hfree] at h
    rcases decideFile_cases d (old.records.get? d.entry.path) (assess d.entry.path nodes) with
      ⟨why, hdecide⟩ | ⟨hmissing, -⟩ | ⟨hash, mode, owner, -,
        ⟨-, -, -, hdecide⟩ | ⟨r', -, -, hdecide⟩ | ⟨-, hdecide⟩ | hdecide⟩
    · rw [hdecide] at h
      cases h
    · exact hmissing
    all_goals
      rw [hdecide] at h
      cases h
  exact ⟨⟨hfree, by rw [hstate]; trivial⟩, hstate⟩

theorem create_of_due (h : Due old nodes force d) (hstate : assess d.entry.path nodes = .missing) :
    (verdict old nodes force d).1 = .create := by
  rw [verdict_unclaimed h.1, hstate]
  rfl

/-- A file is kept as a local edit that is neither as it is wanted nor as it is recorded, and may not be replaced. -/
theorem verdict_kept : (verdict old nodes force d).1 = .keptLocalEdit ↔ Unclaimed old d ∧
    ∃ hash mode owner, assess d.entry.path nodes = .present hash mode owner ∧
      ¬ (hash = d.sha256 ∧ mode = d.entry.mode ∧ owner = d.entry.owner) ∧
      ¬ (old.records.get? d.entry.path).any (·.sha256 = hash) = true ∧
        ¬ (d.entry.localEdits = .overwrite ∨ force = true) := by
  by_cases hfree : Unclaimed old d
  · rw [verdict_unclaimed hfree, and_iff_right hfree]
    cases hstate : assess d.entry.path nodes with
    | missing => exact iff_of_false (by rintro ⟨⟩) (by rintro ⟨_, _, _, ⟨⟩, -⟩)
    | unsafePath why => exact iff_of_false (by rintro ⟨⟩) (by rintro ⟨_, _, _, ⟨⟩, -⟩)
    | present hash mode owner =>
      constructor
      · intro h
        refine ⟨hash, mode, owner, rfl, ?_⟩
        unfold decideFile at h
        dsimp only at h
        split at h
        · cases h
        · next hnot =>
          split at h
          · cases h
          · next hunknown =>
            split at h
            · cases h
            · next hkept => exact ⟨hnot, hunknown, hkept⟩
      · rintro ⟨_, _, _, ⟨⟩, hnot, hunknown, hkept⟩
        rw [decideFile, if_neg hnot, if_neg hunknown, if_neg hkept]
  · obtain ⟨why, hverdict⟩ := @verdict_claimed _ old nodes force d hfree
    rw [hverdict]
    exact iff_of_false (by rintro ⟨⟩) fun h => hfree h.1

theorem verdict_ne_left {why : String} : (verdict old nodes force d).1 ≠ .left why := by
  by_cases hfree : Unclaimed old d
  · rw [verdict_unclaimed hfree]
    rcases decideFile_cases d (old.records.get? d.entry.path) (assess d.entry.path nodes) with
      ⟨why, hdecide⟩ | ⟨-, hdecide⟩ | ⟨hash, mode, owner, -,
        ⟨-, -, -, hdecide⟩ | ⟨r', -, -, hdecide⟩ | ⟨-, hdecide⟩ | hdecide⟩
    all_goals
      rw [hdecide]
      rintro ⟨⟩
  · obtain ⟨why, hverdict⟩ := @verdict_claimed _ old nodes force d hfree
    rw [hverdict]
    rintro ⟨⟩

/-! ### Records of others -/

section

variable {r : Record}

theorem keepsGone_of_foreign (h : deletionOwner files r.source = false) :
    keepsGone files nodes q r = true ↔ assess q nodes ≠ .missing := by
  unfold keepsGone
  split
  · next hmissing => simp [hmissing]
  · next hthere => simpa [h] using hthere

theorem Foreign.verdict (h : Foreign files old q r) (hd : d ∈ files.desired) (hpath : d.entry.path = q) :
    ∃ why, verdict old nodes force d = (.refused why, none) := by
  refine verdict_claimed fun hfree => ?_
  have hconflict := h.conflict d hd hpath
  rw [hfree r (hpath ▸ h.recorded)] at hconflict
  cases hconflict

/-- The record stays, of a file that is claimed or is there. -/
theorem Foreign.kept (h : Foreign files old q r) (hapart : Apart files)
    (hthere : q ∉ files.desired.map (·.entry.path) → assess q nodes ≠ .missing) :
    (plan files old nodes force).manifest.records.get? q = some r := by
  cases hhold : holdReason files nodes with
  | some why =>
    rw [plan_of_hold hhold]
    exact h.recorded
  | none =>
    rw [plan_eq hhold]
    by_cases hq : q ∈ files.desired.map (·.entry.path)
    · obtain ⟨d, hd, hpath⟩ := List.mem_map.mp hq
      obtain ⟨why, hverdict⟩ := @Foreign.verdict _ files old nodes force d q r h hd hpath
      rw [← hpath, hapart.get?_wanted hd, hverdict]
      exact (congrArg old.records.get? hpath).trans h.recorded
    · rw [get?_unwanted hq, h.recorded]
      exact if_pos ((keepsGone_of_foreign h.owner).mpr (hthere hq))

/-- The claimants are refused, or everything is. -/
theorem Foreign.refused (h : Foreign files old q r) (hpath : r.path = q) (hq : q ∈ files.desired.map (·.entry.path))
    (nodes : Nodes) (force : Bool) :
    ∃ item ∈ (plan files old nodes force).items, item.path = some q ∧ ∃ why, item.action = .refused why := by
  cases hhold : holdReason files nodes with
  | some why =>
    rw [plan_of_hold hhold]
    refine ⟨_, List.mem_map_of_mem (SortedMap.mem_entries_iff.mpr h.recorded), ?_, why, rfl⟩
    exact congrArg some hpath
  | none =>
    rw [plan_eq hhold]
    obtain ⟨d, hd, hwanted⟩ := List.mem_map.mp hq
    obtain ⟨why, hverdict⟩ := @Foreign.verdict _ files old nodes force d q r h hd hwanted
    exact ⟨_, mem_items_wanted hd, congrArg some hwanted, why, congrArg Prod.fst hverdict⟩

end

/-! ### When anything changes -/

/-- The records are to change: a file's is not its entry's own yet, or one is given up. -/
def Stale (files : GuestFiles) (old : Manifest) (nodes : Nodes) (force : Bool) : Prop :=
  (∃ d ∈ files.desired, (Due old nodes force d ∨ Unclaimed old d ∧ asWanted nodes d = true) ∧
    old.records.get? d.entry.path ≠ some d.record) ∨
  ∃ q r, old.records.get? q = some r ∧ q ∉ files.desired.map (·.entry.path) ∧ keepsGone files nodes q r = false

theorem keptRecord_eq {action : Action} : keptRecord old d action = old.records.get? d.entry.path ↔
    (action.adopts = true → old.records.get? d.entry.path = some d.record) := by
  unfold keptRecord
  split
  · next h => simp [h, eq_comm]
  · next h => simp [h]

omit [Deps] in
theorem Manifest.ext_get? {m n : Manifest} (h : ∀ q, m.records.get? q = n.records.get? q) : m = n := by
  cases m
  cases n
  exact congrArg Manifest.mk (SortedMap.ext_get? h)

/-- The planned manifest is the one there is, unless records are to change. -/
theorem Apart.manifest_ne_iff (h : Apart files) : (draft files old nodes force).manifest ≠ old ↔
    Stale files old nodes force := by
  constructor
  · intro hne
    by_contra hnot
    obtain ⟨hwanted, hgone⟩ := not_or.mp hnot
    push Not at hwanted hgone
    refine hne (Manifest.ext_get? fun q => ?_)
    by_cases hq : q ∈ files.desired.map (·.entry.path)
    · obtain ⟨d, hd, rfl⟩ := List.mem_map.mp hq
      rw [h.get?_wanted hd, keptRecord_eq]
      exact fun hadopts => hwanted d hd (adopts_verdict.mp hadopts)
    · rw [get?_unwanted hq]
      cases hr : old.records.get? q with
      | none => rfl
      | some r => exact if_pos (Bool.ne_false_iff.mp (hgone q r hr hq))
  · rintro (⟨d, hd, hadopts, hne⟩ | ⟨q, r, hr, hq, hgone⟩) heq
    · have hwanted := @Apart.get?_wanted _ files old nodes force d h hd
      rw [heq, eq_comm, keptRecord_eq] at hwanted
      exact hne (hwanted (adopts_verdict.mpr hadopts))
    · have hunwanted := @get?_unwanted _ files old nodes force q hq
      rw [heq, hr, Option.filter, hgone, if_neg Bool.false_ne_true] at hunwanted
      cases hunwanted

/-- A plan changes something if a file is to be written, or a record is to change. -/
theorem Apart.changes_iff (h : Apart files) (hhold : holdReason files nodes = none) :
    (plan files old nodes force).changes old = true ↔
      (∃ d ∈ files.desired, Due old nodes force d) ∨ Stale files old nodes force := by
  rw [plan_eq hhold, Plan.changes, Bool.or_eq_true, decide_eq_true_iff, h.manifest_ne_iff, Bool.not_eq_true',
    List.isEmpty_eq_false_iff_exists_mem, ops_draft]
  constructor
  · rintro (⟨op, hop⟩ | hstale)
    · rcases List.mem_append.mp hop with hop | hop
      · obtain ⟨d, hd, hfile⟩ := List.mem_filterMap.mp hop
        exact .inl ⟨d, hd, isSome_fileOp.mp ⟨op, hfile⟩⟩
      · obtain ⟨e, he, hgone⟩ := List.mem_filterMap.mp hop
        obtain ⟨-, hwanted, hkeeps⟩ := goneOp_eq_some hgone
        exact .inr (.inr ⟨e.1, e.2, SortedMap.mem_entries_iff.mp he, hwanted, hkeeps⟩)
    · exact .inr hstale
  · rintro (⟨d, hd, hdue⟩ | hstale)
    · obtain ⟨op, hop⟩ := isSome_fileOp.mpr hdue
      exact .inl ⟨op, List.mem_append_left _ (List.mem_filterMap.mpr ⟨d, hd, hop⟩)⟩
    · exact .inr hstale

end Guest
end PveMeta
