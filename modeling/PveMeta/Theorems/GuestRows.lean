import PveMeta.Theorems.GuestDecided
import PveMeta.Theorems.GuestSync
import PveMeta.Guest.Sample

/-! # Outcomes and rows

The operations of a plan and the rows that write are added apart, and joined by their places only. They are the same in
number and order, so the outcome of an operation is reported on the row that it is of, and the record of its path is the
one that it leaves as it was. -/

namespace PveMeta
namespace Guest

/-- The operation that a row is about. -/
structure Op.IsOf (op : Op) (item : Item) : Prop where
  writes : item.action.writes = true
  path : item.path.map (·.text) = some op.path

/-! ### Rows of outcomes -/

/-- The rows that write have the outcomes, in order. -/
theorem outcome_of_writes {items : List Item} {outcomes : List Outcome} {k : Nat} {row : Done}
    (h : ((zipOutcomes items outcomes).filter (·.item.action.writes))[k]? = some row) :
    (items.filter (·.action.writes))[k]? = some row.item ∧ row.outcome = outcomes[k]? := by
  induction items generalizing outcomes k with
  | nil =>
    rw [zipOutcomes] at h
    cases h
  | cons item items ih =>
    rw [zipOutcomes] at h
    split at h
    · next hwrites =>
      simp only [List.filter_cons, hwrites, if_true] at h ⊢
      cases k with
      | zero =>
        cases h
        exact ⟨rfl, List.head?_eq_getElem?⟩
      | succ k =>
        rw [List.getElem?_cons_succ] at h ⊢
        rw [← List.getElem?_tail]
        exact ih h
    · next hwrites =>
      simp only [List.filter_cons, hwrites] at h ⊢
      exact ih h

/-- The others have none. -/
theorem outcome_of_not_writes {items : List Item} {outcomes : List Outcome} {row : Done}
    (h : row ∈ zipOutcomes items outcomes) (hwrites : row.item.action.writes = false) : row.outcome = none := by
  induction items generalizing outcomes with
  | nil =>
    rw [zipOutcomes] at h
    cases h
  | cons item items ih =>
    rw [zipOutcomes] at h
    split at h <;> rcases List.mem_cons.mp h with rfl | h
    · next hitem => cases hitem.symm.trans hwrites
    · exact ih h
    · rfl
    · exact ih h

section

variable [Deps] {files : GuestFiles} {old : Manifest} {nodes : Nodes} {force : Bool} {d : Desired}

/-! ### Operations and rows -/

/-- A file that is wanted has an operation exactly if its action writes. -/
theorem writes_verdict : (verdict old nodes force d).1.writes = (verdict old nodes force d).2.isSome := by
  by_cases hunclaimed : Unclaimed old d
  · rw [verdict_unclaimed hunclaimed]
    rcases @decideFile_cases _ force d (old.records.get? d.entry.path) (assess d.entry.path nodes) with
      ⟨why, h⟩ | ⟨-, h⟩ | ⟨_, _, _, -, ⟨-, -, -, h⟩ | ⟨_, -, -, h⟩ | ⟨-, h⟩ | h⟩ <;> rw [h] <;> rfl
  · obtain ⟨why, h⟩ : ∃ why, verdict old nodes force d = (.refused why, none) := verdict_claimed hunclaimed
    rw [h]
    rfl

theorem isOf_row (row : Resolved) : Option.Rel Op.IsOf (row.desired?.bind (fileOp old nodes force))
    ((rowItem old nodes force row).filter (·.action.writes)) := by
  cases row with
  | absent name => exact .none
  | refused name reason => exact .none
  | file d =>
    have hwrites := @writes_verdict _ old nodes force d
    rw [Resolved.desired?, Option.bind_some, fileOp, rowItem]
    cases hexpect : (verdict old nodes force d).2 with
    | none =>
      rw [hexpect] at hwrites
      simp only [Option.filter_some, hwrites]
      exact .none
    | some expect =>
      rw [hexpect] at hwrites
      simp only [Option.filter_some, hwrites]
      exact .some ⟨hwrites, rfl⟩

theorem isOf_gone (e : GuestPath × Record) : Option.Rel Op.IsOf (goneOp files nodes e)
    ((goneItem files nodes e).filter (·.action.writes)) := by
  unfold goneOp goneItem
  split
  · exact .none
  · cases hstate : assess e.1 nodes with
    | missing => exact .none
    | unsafePath why => exact .none
    | present hash mode owner =>
      rw [decideGone]
      split
      · exact .some ⟨rfl, rfl⟩
      · exact .none

omit [Deps] in
theorem isOf_filterMap {α : Type} {f : α → Option Op} {g : α → Option Item}
    (h : ∀ a, Option.Rel Op.IsOf (f a) ((g a).filter (·.action.writes))) (l : List α) :
    List.Forall₂ Op.IsOf (l.filterMap f) ((l.filterMap g).filter (·.action.writes)) := by
  rw [List.filter_filterMap]
  refine List.rel_filterMap (R := Eq) ?_ (List.forall₂_same.mpr fun _ _ => rfl)
  rintro a _ rfl
  exact h a

/-- The operations of a plan are those of its rows that write. -/
theorem isOf_plan : List.Forall₂ Op.IsOf (plan files old nodes force).ops
    ((plan files old nodes force).items.filter (·.action.writes)) := by
  cases hhold : holdReason files nodes with
  | some why =>
    rw [plan_of_hold hhold, List.filter_map]
    simp [Function.comp_def, Action.writes]
  | none =>
    rw [plan_eq hhold]
    show List.Forall₂ _ (draft files old nodes force).ops ((draft files old nodes force).items.filter _)
    rw [ops_draft, items_draft, List.filter_append, ← GuestFiles.desired_eq, List.filterMap_filterMap]
    exact List.rel_append (isOf_filterMap isOf_row _) (isOf_filterMap isOf_gone _)

theorem isOf_getElem? {k : Nat} {op : Op} (h : (plan files old nodes force).ops[k]? = some op) : ∃ item,
    ((plan files old nodes force).items.filter (·.action.writes))[k]? = some item ∧ op.IsOf item := by
  obtain ⟨hlength, hget⟩ := List.forall₂_iff_get.mp (@isOf_plan _ files old nodes force)
  obtain ⟨hk, rfl⟩ := List.getElem?_eq_some_iff.mp h
  exact ⟨_, List.getElem?_eq_getElem (hlength ▸ hk), hget k hk (hlength ▸ hk)⟩

/-- A planned operation is at a path that is accepted. -/
theorem pathProblem_of_mem_ops {op : Op} (h : op ∈ (plan files old nodes force).ops) : pathProblem op.path = none := by
  obtain ⟨k, hk⟩ := List.getElem?_of_mem h
  obtain ⟨item, -, hof⟩ := isOf_getElem? hk
  obtain ⟨q, -, htext⟩ := Option.map_eq_some_iff.mp hof.path
  rw [← htext]
  exact q.valid

/-! ### A report -/

section

variable [RustDebug] [Serde] {w w' : World}

/-- What a sync reports is what its commit answered, on the rows of its plan. -/
theorem report_of_sync {report : Report} (h : sync files force w = (.ok report, w')) : ∃ ins w₁ outcomes w₂,
    inspect files force w = (.ok ins, w₁) ∧
    (if ins.plan.ops.isEmpty then (.ok [], w₁) else w₁.commit ins.plan.dirs ins.plan.ops) = (.ok outcomes, w₂) ∧
    report.items = zipOutcomes ins.plan.items outcomes := by
  simp only [sync, Calls.sync, World.calls_inspect, World.calls_commit, World.calls_saveManifest] at h
  split at h
  · cases h
  · next ins w₁ hinspect =>
    split at h
    · split at h
      · cases h
      · next outcomes w₂ hcommit =>
        split at h
        · cases h
        · cases h
          exact ⟨ins, w₁, outcomes, w₂, hinspect, hcommit, rfl⟩
    · next hsame =>
      cases h
      have hempty : ins.plan.ops.isEmpty = true := by
        rw [Plan.changes, Bool.or_eq_true, not_or] at hsame
        simpa using hsame.1
      exact ⟨ins, w', [], w', hinspect, by rw [if_pos hempty], rfl⟩

end

/-! ### All of it -/

/-- What is known of the outcomes of a plan, of which there may be any. -/
structure Plan.Joined (p : Plan) (old : Manifest) : Prop where
  rows : List.Forall₂ Op.IsOf p.ops (p.items.filter (·.action.writes))
  distinct : p.ops.Pairwise fun a b => a.path ≠ b.path
  valid : ∀ op ∈ p.ops, pathProblem op.path = none
  items : ∀ outcomes, (zipOutcomes p.items outcomes).map (·.item) = p.items
  silent : ∀ outcomes, ∀ row ∈ zipOutcomes p.items outcomes, row.item.action.writes = false → row.outcome = none
  reported : ∀ (outcomes : List Outcome) (k : Nat) (op : Op), p.ops[k]? = some op → ∃ row,
    ((zipOutcomes p.items outcomes).filter (·.item.action.writes))[k]? = some row ∧ op.IsOf row.item ∧
      row.outcome = outcomes[k]?
  undone : ∀ (done : List Bool) (k : Nat) (op : Op) (q : GuestPath), p.ops[k]? = some op → done[k]? = some false →
    op.path = q.text → (p.manifestAfter old done).records.get? q = old.records.get? q
  kept : ∀ (done : List Bool) (q : GuestPath),
    (∀ (k : Nat) (op : Op), p.ops[k]? = some op → done[k]? = some false → op.path ≠ q.text) →
      (p.manifestAfter old done).records.get? q = p.manifest.records.get? q

theorem Apart.joined (h : Apart files) : (plan files old nodes force).Joined old := by
  refine ⟨isOf_plan, h.plan_ops, fun _ => pathProblem_of_mem_ops, map_zipOutcomes _, fun _ _ => outcome_of_not_writes,
    ?_, ?_, ?_⟩
  · intro outcomes k op hop
    obtain ⟨item, hitem, hof⟩ := isOf_getElem? hop
    have hlength : ((zipOutcomes (plan files old nodes force).items outcomes).filter (·.item.action.writes)).length =
        ((plan files old nodes force).items.filter (·.action.writes)).length := by
      conv_rhs => rw [← map_zipOutcomes (plan files old nodes force).items outcomes]
      rw [List.filter_map, List.length_map]
      rfl
    obtain ⟨hk, -⟩ := List.getElem?_eq_some_iff.mp hitem
    have hrow := List.getElem?_eq_getElem (hlength.symm ▸ hk)
    obtain ⟨hrowItem, houtcome⟩ := outcome_of_writes hrow
    obtain rfl := Option.some.inj (hrowItem.symm.trans hitem)
    exact ⟨_, hrow, hof, houtcome⟩
  · intro done k op q hop hdone hpath
    rw [get?_manifestAfter, if_pos]
    obtain ⟨hk, rfl⟩ := List.getElem?_eq_some_iff.mp hop
    obtain ⟨hk', hdone⟩ := List.getElem?_eq_some_iff.mp hdone
    refine ⟨((plan files old nodes force).ops[k], done[k]), ?_, hdone, hpath⟩
    exact List.mem_iff_getElem.mpr ⟨k, by rw [List.length_zip]; omega, List.getElem_zip⟩
  · intro done q hkept
    rw [get?_manifestAfter, if_neg]
    rintro ⟨e, he, hdone, hpath⟩
    obtain ⟨k, hk, rfl⟩ := List.mem_iff_getElem.mp he
    rw [List.length_zip] at hk
    rw [List.getElem_zip] at hdone hpath
    refine hkept k _ (List.getElem?_eq_getElem (by omega)) ?_ hpath
    rw [List.getElem?_eq_getElem (by omega)]
    exact congrArg some hdone

/-- Outcomes land on the rows of their operations, and on the records of their paths; and what a sync reports are the
    outcomes of its commit, on the rows of its plan. -/
theorem outcomes_on_their_rows [RustDebug] [Serde] (hfiles : Requested files) (old : Manifest) (nodes : Nodes)
    (force : Bool) :
    (plan files old nodes force).Joined old ∧
    ∀ (w w' : World) (report : Report), sync files force w = (.ok report, w') → ∃ ins w₁ outcomes w₂,
      inspect files force w = (.ok ins, w₁) ∧ ins.plan.Joined ins.manifest ∧
      (if ins.plan.ops.isEmpty then (.ok [], w₁) else w₁.commit ins.plan.dirs ins.plan.ops) = (.ok outcomes, w₂) ∧
      outcomes.length = ins.plan.ops.length ∧ report.items = zipOutcomes ins.plan.items outcomes := by
  refine ⟨hfiles.apart.joined, fun w w' report h => ?_⟩
  obtain ⟨ins, w₁, outcomes, w₂, hinspect, hcommit, hitems⟩ := report_of_sync h
  obtain ⟨nodes', -, -, hplan, -⟩ := inspect_eq_ok hinspect
  refine ⟨ins, w₁, outcomes, w₂, hinspect, ?_, hcommit, ((commit_plan hplan hcommit).2 outcomes rfl).length, hitems⟩
  rw [hplan]
  exact hfiles.apart.joined

end

open Sample GuestSample

/-- What a document asks for that has one file as it was written before and another one that is new. -/
def pairFiles : GuestFiles :=
  .ofDocument (.object [("a", .string "a: 2\n"), ("b", .string "b: 1\n"),
    ("guest-files", .object [
      ("app", .object [("view", .string "a"), ("path", .string "app"), ("format", .string "raw")]),
      ("web", .object [("view", .string "b"), ("path", .string "web"), ("format", .string "raw")])])])

def pairNodes : Nodes := [("/etc".toList, .dir), (guestRoot, .dir), (appPath.text, .file 0 0 0o444 (MetaStore.digest one))]

/-- A guest with the first one and its record, where the rename of the other one fails. -/
def pairGuest : World where
  fs := Function.update (Function.update guest appPath.text (.file .root 0o444 one)) manifestPath
    (.file .root Manifest.mode kept.render)
  turns := List.replicate 7 ⟨none, .none⟩ ++ [⟨none, .final⟩]
  log := []

def outcomesOf (r : Except String Report) : Option (List (Option Outcome)) :=
  r.toOption.map fun report => report.items.map (·.outcome)

theorem outcomes_on_their_rows_app :
    (plan pairFiles kept pairNodes false).ops.length = 2 ∧ (plan pairFiles kept pairNodes false).Joined kept ∧
    outcomesOf (sync pairFiles false pairGuest).1 = some [some .done, some (.failed "rename")] ∧
    ∃ report ins w₁ outcomes w₂, (sync pairFiles false pairGuest).1 = .ok report ∧
      inspect pairFiles false pairGuest = (.ok ins, w₁) ∧ ins.plan.Joined ins.manifest ∧
      (if ins.plan.ops.isEmpty then (.ok [], w₁) else w₁.commit ins.plan.dirs ins.plan.ops) = (.ok outcomes, w₂) ∧
      outcomes.length = ins.plan.ops.length ∧ report.items = zipOutcomes ins.plan.items outcomes := by
  obtain ⟨hjoined, hreported⟩ := outcomes_on_their_rows (.document _) kept pairNodes false
  have houtcomes : outcomesOf (sync pairFiles false pairGuest).1 = some [some .done, some (.failed "rename")] := by
    decide +kernel
  obtain ⟨report, hreport, -⟩ := Option.map_eq_some_iff.mp houtcomes
  have hok : (sync pairFiles false pairGuest).1 = .ok report := Except.toOption_eq_some.mp hreport
  refine ⟨by decide +kernel, hjoined, houtcomes, report, ?_⟩
  cases hsync : sync pairFiles false pairGuest with
  | mk r w' =>
    rw [hsync] at hok
    obtain rfl : r = .ok report := hok
    obtain ⟨ins, w₁, outcomes, w₂, h⟩ := hreported pairGuest w' report hsync
    exact ⟨ins, w₁, outcomes, w₂, rfl, h⟩

end Guest
end PveMeta
