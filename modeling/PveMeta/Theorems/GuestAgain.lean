import PveMeta.Theorems.GuestConverge
import PveMeta.Theorems.GuestOwn
import PveMeta.Theorems.GuestPctRuns
import PveMeta.Theorems.GuestRows

/-! # A sync that is done

If a sync says that all is done, and nothing disturbed it, the next one has nothing to do. -/

namespace PveMeta
namespace Guest

section

variable [Deps] {files : GuestFiles} {old : Manifest} {nodes : Nodes} {force again : Bool} {fs : Fs} {w w' : World}

/-- Nothing is refused, and all that was to be written or removed is. -/
def Report.AllDone (r : Report) : Prop :=
  ∀ row ∈ r.items, (∀ why, row.item.action ≠ .refused why) ∧ (row.item.action.writes = true → row.outcome = some .done)

/-! ### What the rows tell -/

section

variable {items : List Item} {outcomes : List Outcome}

omit [Deps] in
theorem mem_zipOutcomes {item : Item} (h : item ∈ items) : ∃ row ∈ zipOutcomes items outcomes, row.item = item := by
  rw [← map_zipOutcomes items outcomes] at h
  exact List.mem_map.mp h

omit [Deps] in
theorem length_writing : ((zipOutcomes items outcomes).filter (·.item.action.writes)).length =
    (items.filter (·.action.writes)).length := by
  have hmap := congrArg (·.filter (·.action.writes)) (map_zipOutcomes items outcomes)
  rw [← hmap, List.filter_map, List.length_map]
  rfl

/-- There is a row for each operation, and so all outcomes are done where all rows are. -/
theorem outcomes_done {p : Plan} (hp : p = plan files old nodes force) (hlength : outcomes.length = p.ops.length)
    (h : ∀ row ∈ zipOutcomes p.items outcomes, row.item.action.writes = true → row.outcome = some .done) :
    outcomes = p.ops.map fun _ => .done := by
  refine List.ext_getElem? fun k => ?_
  rw [List.getElem?_map]
  have hops : p.ops.length = (p.items.filter (·.action.writes)).length := by
    subst hp
    exact isOf_plan.length_eq
  by_cases hk : k < p.ops.length
  · have hrow : k < ((zipOutcomes p.items outcomes).filter (·.item.action.writes)).length := by
      rwa [length_writing, ← hops]
    have hget := List.getElem?_eq_getElem hrow
    obtain ⟨hmem, hwrites⟩ := List.mem_filter.mp (List.mem_of_getElem? hget)
    rw [← (outcome_of_writes hget).2, h _ hmem hwrites, List.getElem?_eq_getElem hk]
    rfl
  · rw [List.getElem?_eq_none (hlength ▸ Nat.le_of_not_lt hk), List.getElem?_eq_none (Nat.le_of_not_lt hk)]
    rfl

end

/-! ### The next plan -/

theorem Saw.probes (h : Saw files old nodes fs) (hconcerned : Concerned files old) : Probes files old nodes fs := by
  intro path hpath
  rcases mem_probePaths_iff.mp hpath with ⟨q, hq, hway⟩ | ⟨q, hq, hway⟩ | hdir
  · obtain ⟨⟨q, r⟩, hmem, rfl⟩ := List.mem_map.mp hq
    exact h.recorded q r (SortedMap.mem_entries_iff.mp hmem) path hway
  · obtain ⟨d, hd, rfl⟩ := List.mem_map.mp hq
    exact h.wanted d hd path hway
  · exact h.root hconcerned path hdir

/-- A plan records nothing where nothing was wanted or recorded. -/
theorem Concerned.before (h : Concerned files (plan files old nodes force).manifest) : Concerned files old := by
  rcases h with hd | ⟨q, r, hr⟩
  · exact .inl hd
  · by_cases hq : q ∈ files.desired.map (·.entry.path)
    · obtain ⟨d, hd, -⟩ := List.mem_map.mp hq
      exact .inl ⟨d, hd⟩
    · refine .inr ⟨q, r, ?_⟩
      cases hhold : holdReason files nodes with
      | some why => rwa [plan_of_hold hhold] at hr
      | none =>
        rw [plan_eq hhold] at hr
        exact (Option.filter_eq_some_iff.mp ((get?_unwanted hq).symm.trans hr)).1

theorem ops_of_unconcerned (h : ¬ Concerned files old) : (plan files old nodes force).ops = [] := by
  cases hhold : holdReason files nodes with
  | some why => rw [plan_of_hold hhold]
  | none =>
    rw [ops_plan hhold, List.append_eq_nil_iff, List.filterMap_eq_nil_iff, List.filterMap_eq_nil_iff]
    exact ⟨fun d hd => absurd (.inl ⟨d, hd⟩) h, fun e he => absurd (.inr ⟨_, _, SortedMap.mem_entries_iff.mp he⟩) h⟩

variable [RustDebug] [Serde]

/-- A plan that is carried out with nothing to disturb it, and that refuses nothing, leaves nothing to do. -/
theorem ops_again {V : Writer} (hask : V.Asks files) (h : Saw files old nodes w.fs) (hcalm : w.turns = [])
    (hforce : again = true → force = true) (hrefuses : (plan files old nodes force).RefusesNothing)
    (hcarry : carry (plan files old nodes force) old w = (.ok ((plan files old nodes force).ops.map fun _ => .done), w'))
    {nodes' : Nodes} (hafter : Saw files (plan files old nodes force).manifest nodes' w'.fs) :
    (plan files (plan files old nodes force).manifest nodes' again).ops = [] := by
  by_cases hstill : Concerned files (plan files old nodes force).manifest
  · have hconcerned := hstill.before
    cases hhold : holdReason files nodes with
    | none =>
      have hcarried := hask.apart.carried hhold hcalm hcarry
      exact ((h.probes hconcerned).settled hask.apart hhold hcarried hrefuses hforce (hafter.probes hstill)).ops
    | some why =>
      rw [plan_of_hold hhold, carry_of_isEmpty rfl, conclude, saveManifest, Calls.saveManifest, if_pos rfl] at hcarry
      obtain rfl := (Prod.mk.inj hcarry).2
      rw [plan_of_hold hhold] at hafter ⊢
      have hagain : holdReason files nodes' = some why := by rw [hafter.hold hconcerned, ← h.hold hconcerned, hhold]
      rw [plan_of_hold hagain]
  · exact ops_of_unconcerned hstill

omit [RustDebug] [Serde] in
/-- A file that is as it was wanted, or was to be kept, is not to be written where nothing is recorded, as before. -/
theorem not_due_unrecorded (hapart : Apart files) (h : Probes files .empty nodes fs) (hhold : holdReason files nodes = none)
    {fs' : Fs} (hcarried : Carried (plan files .empty nodes force) fs fs')
    (hrefuses : (plan files .empty nodes force).RefusesNothing) (hforce : again = true → force = true) {nodes' : Nodes}
    {d : Desired} (hd : d ∈ files.desired) (hafter : Sees nodes' fs' d.entry.path) : ¬ Due .empty nodes' again d := by
  intro hagain
  by_cases hdue : Due .empty nodes force d
  · have hdiff := hagain.2
    rw [(due_after h hhold hcarried hafter hd hdue).1] at hdiff
    exact hdiff.1 ⟨rfl, rfl, rfl⟩
  · obtain ⟨hfree, hmissing | ⟨hash, mode, owner, hstate⟩⟩ := judged hrefuses hhold hd
    · exact hdue ⟨hfree, by rw [hmissing]; trivial⟩
    · refine hdue ⟨hfree, ?_⟩
      have hmay := hagain.2
      rw [(settled_after h hhold hcarried hapart hafter hd hdue hstate).1] at hmay
      rw [hstate]
      exact ⟨hmay.1, hmay.2.imp_right (Or.imp_right hforce)⟩

/-- Nor does it where no manifest could be left, as before. -/
theorem ops_unsaved {V : Writer} (hask : V.Asks files) (h : Saw files .empty nodes w.fs) (hcalm : w.turns = [])
    (hforce : again = true → force = true) (hrefuses : (plan files .empty nodes force).RefusesNothing)
    (hcarry : carry (plan files .empty nodes force) .empty w =
      (.ok ((plan files .empty nodes force).ops.map fun _ => .done), w'))
    {nodes' : Nodes} (hafter : Saw files .empty nodes' w'.fs) : (plan files .empty nodes' again).ops = [] := by
  by_cases hconcerned : Concerned files .empty
  · cases hhold' : holdReason files nodes' with
    | some why => rw [plan_of_hold hhold']
    | none =>
      cases hhold : holdReason files nodes with
      | none =>
        have hcarried := hask.apart.carried hhold hcalm hcarry
        rw [ops_plan hhold', List.append_eq_nil_iff, List.filterMap_eq_nil_iff, List.filterMap_eq_nil_iff]
        refine ⟨fun d hd => Option.eq_none_iff_forall_ne_some.mpr fun op hop => ?_, fun e he => absurd he List.not_mem_nil⟩
        exact not_due_unrecorded hask.apart (h.probes hconcerned) hhold hcarried hrefuses hforce hd (hafter.wanted d hd)
          (isSome_fileOp.mp ⟨op, hop⟩)
      | some why =>
        rw [plan_of_hold hhold, carry_of_isEmpty rfl, conclude, saveManifest, Calls.saveManifest, if_pos rfl] at hcarry
        obtain rfl := (Prod.mk.inj hcarry).2
        rw [hafter.hold hconcerned, ← h.hold hconcerned, hhold] at hhold'
        cases hhold'
  · exact ops_of_unconcerned hconcerned

/-- The manifest that is left, once all is done, is the plan's; unless a directory is in its place, and none was read. -/
theorem manifest_of_carry {p : Plan} (hp : p = plan files old nodes force) {V : Writer} (hask : V.Asks files)
    (halone : Alone w) (hserde : Manifest.SerdeReads) (hold : manifestAt (w.fs manifestPath) = old)
    (h : carry p old w = (.ok (p.ops.map fun _ => .done), w')) :
    manifestAt (w'.fs manifestPath) = p.manifest ∨ manifestAt (w'.fs manifestPath) = .empty ∧ old = .empty := by
  have hkeyed : old.Keyed := hold ▸ keyed_manifestAt _
  unfold carry at h
  cases hcommit : if p.ops.isEmpty then (.ok [], w) else w.commit p.dirs p.ops with
  | mk r w₁ =>
    obtain ⟨halone₁, -, -⟩ := commit_plan_alone hp hask halone hcommit
    obtain ⟨hacts, hanswered⟩ := commit_plan hp hcommit
    rw [hcommit] at h
    cases r with
    | error e => cases h
    | ok outcomes =>
      have hleft : Left p old _ w₁.log := ⟨outcomes, hanswered outcomes rfl, rfl⟩
      obtain ⟨rfl, hsave⟩ := conclude_ok h
      rw [manifestAfter_done] at hsave hleft
      have hread : manifestAt (.file .root Manifest.mode p.manifest.render) = p.manifest := by
        subst hp
        exact manifestAt_render hserde (hleft.keyed hask hkeyed) _ _
      have hsaved := @saveManifest_alone _ w₁ _ _ old p.manifest halone₁ (ne_manifestPath_of_left hp)
      rw [hsave] at hsaved
      rcases hsaved.read hread with hafter | ⟨hsame, hkept⟩
      · exact .inl hafter
      · rw [hacts.manifest, hold] at hsame
        rcases hkept rfl with hkept | hdir
        · exact .inl (hsame.trans hkept.symm)
        · have hnone := manifestAt_of_leads (leads_of_nodeAt hdir)
          exact .inr ⟨hnone, hsame.symm.trans hnone⟩

/-- A sync that says that all is done has carried its plan out. -/
theorem carry_of_sync {report : Report} {ins : Inspection} {w₁ : World} (hins : inspect files force w = (.ok ins, w₁))
    (hok : sync files force w = (.ok report, w')) (hall : report.AllDone) :
    carry ins.plan ins.manifest w₁ = (.ok (ins.plan.ops.map fun _ => .done), w') ∧ ins.plan.RefusesNothing := by
  obtain ⟨ins', w₁', outcomes, w₂, hins', hcommit, hitems⟩ := report_of_sync hok
  rw [hins] at hins'
  cases hins'
  obtain ⟨nodes, -, -, hplan, -⟩ := inspect_eq_ok hins
  have hlength := ((commit_plan hplan hcommit).2 outcomes rfl).length
  have hdone : outcomes = ins.plan.ops.map fun _ => .done :=
    outcomes_done hplan hlength fun row hrow => (hall row (hitems ▸ hrow)).2
  refine ⟨?_, fun item hitem why => ?_⟩
  · by_cases hchanges : ins.plan.changes ins.manifest = true
    · obtain ⟨hworld, hthrough⟩ := sync_carry hins hchanges
      obtain ⟨outcomes', hcarried⟩ := hthrough.mp ⟨report, congrArg Prod.fst hok⟩
      have hcarry : carry ins.plan ins.manifest w₁ = (.ok outcomes', w') :=
        Prod.ext hcarried (hworld.symm.trans (congrArg Prod.snd hok))
      have hconclude := hcarry
      rw [carry, hcommit] at hconclude
      rw [hcarry, ← (conclude_ok hconclude).1, hdone]
    · have hsync := hok
      simp only [sync, Calls.sync, World.calls_inspect, World.calls_commit, World.calls_saveManifest] at hsync
      rw [hins] at hsync
      dsimp only at hsync
      rw [if_neg hchanges] at hsync
      cases hsync
      simp only [Plan.changes, Bool.or_eq_true, not_or, Bool.not_eq_true] at hchanges
      have hempty : ins.plan.ops = [] := by simpa using hchanges.1
      have hsame : ins.plan.manifest = ins.manifest := by simpa using hchanges.2
      rw [carry_of_isEmpty hempty, conclude, saveManifest, Calls.saveManifest, if_pos hsame, hempty]
      rfl
  · obtain ⟨row, hrow, rfl⟩ := @mem_zipOutcomes _ outcomes item hitem
    exact (hall row (hitems ▸ hrow)).1 why

/-- Once a sync that nothing disturbs says that all is done, planning again finds nothing to do. -/
theorem ops_after_sync {V : Writer} (hask : V.Asks files) (hserde : Manifest.SerdeReads) {log : List Deed}
    (hforce : again = true → force = true) {report : Report}
    (hok : sync files force ⟨fs, [], log⟩ = (.ok report, w')) (hall : report.AllDone) {nodes' : Nodes}
    (hafter : Saw files (manifestAt (w'.fs manifestPath)) nodes' w'.fs) :
    (plan files (manifestAt (w'.fs manifestPath)) nodes' again).ops = [] := by
  have halone : Alone ⟨fs, [], log⟩ := fun t ht => absurd ht List.not_mem_nil
  obtain ⟨ins, w₁, -, -, hins, -, -⟩ := report_of_sync hok
  obtain ⟨hcarry, hrefuses⟩ := carry_of_sync hins hok hall
  have hidle := @inspect_alone _ files force _ _ _ halone
  obtain ⟨nodes, hsaw, hold, hplan⟩ := inspect_saw halone (congrArg Prod.fst hins)
  rw [hins] at hidle
  have hcalm : w₁.turns = [] := by
    obtain ⟨r, fs', ts', log', -, -, hplain⟩ := steady_inspect files force fs [] log fun t ht => absurd ht List.not_mem_nil
    rw [World.calls_inspect, hins] at hplain
    cases hplain
    rfl
  obtain rfl : w₁.fs = fs := hidle.fs
  rw [hold, hplan] at hcarry
  rw [hplan] at hrefuses
  have hsaw : Saw files (manifestAt (w₁.fs manifestPath)) nodes w₁.fs := hsaw
  rcases manifest_of_carry rfl hask hidle.alone hserde rfl hcarry with hleft | ⟨hleft, hnone⟩
  · rw [hleft] at hafter ⊢
    exact ops_again hask hsaw hcalm hforce hrefuses hcarry hafter
  · rw [hnone] at hsaw hrefuses hcarry
    rw [hleft] at hafter ⊢
    exact ops_unsaved hask hsaw hcalm hforce hrefuses hcarry hafter

/-- Once a sync that nothing disturbs says that all is done, the next one writes and removes nothing. -/
theorem sync_again {V : Writer} (hask : V.Asks files) (hserde : Manifest.SerdeReads) {log : List Deed}
    (hforce : again = true → force = true) {report : Report}
    (hok : sync files force ⟨fs, [], log⟩ = (.ok report, w')) (hall : report.AllDone) {w₂ : World}
    (halone : Alone w₂) (hsame : w₂.fs = w'.fs) {report' : Report} {w₃ : World}
    (hnext : sync files again w₂ = (.ok report', w₃)) : ∀ row ∈ report'.items, row.item.action.writes = false := by
  obtain ⟨ins, w₄, outcomes, w₅, hins, -, hitems⟩ := report_of_sync hnext
  obtain ⟨nodes', hsaw, -, hplan⟩ := inspect_saw halone (congrArg Prod.fst hins)
  rw [hsame] at hsaw hplan
  have hops := ops_after_sync hask hserde hforce hok hall hsaw
  intro row hrow
  have hitem : row.item ∈ ins.plan.items := by
    rw [← map_zipOutcomes ins.plan.items outcomes, ← hitems]
    exact List.mem_map_of_mem hrow
  have hnone : ins.plan.items.filter (·.action.writes) = [] := by
    have hrows := (@isOf_plan _ files (manifestAt (w'.fs manifestPath)) nodes' again)
    rw [hops, List.forall₂_nil_left_iff] at hrows
    rw [hplan, hrows]
  exact Bool.eq_false_iff.mpr fun hwrites => List.not_mem_nil (hnone ▸ List.mem_filter.mpr ⟨hitem, hwrites⟩)

variable {vmid : UInt32} {m m' : Machine}

/-- So it is with a sync by scripts. -/
theorem ops_after_scripts {V : Writer} (hask : V.Asks files) (hserde : Manifest.SerdeReads)
    (hsmooth : Smooth vmid files force m) (halone : ∀ others ∈ m.turns, others = none)
    (hforce : again = true → force = true) {report : Report}
    (hok : (Pct.calls vmid).sync files force m = (.ok report, m')) (hall : report.AllDone) {nodes' : Nodes}
    (hafter : Saw files (manifestAt (m'.fs manifestPath)) nodes' m'.fs) :
    (plan files (manifestAt (m'.fs manifestPath)) nodes' again).ops = [] := by
  have himplements := (sync_refines (m := m) vmid files force).implements (steady_sync files force)
  have hcame := himplements.undisturbed hsmooth halone []
  rw [hok] at hcame
  obtain ⟨w', hsync, hfs⟩ := hcame
  rw [← hfs] at hafter ⊢
  exact ops_after_sync hask hserde hforce hsync hall hafter

end

open GuestSample Sample

/-- What a document asks for of a guest without files, and then once more. -/
def first : Except String Report × World := sync (asked "a: 1\n") false ⟨guest, [], []⟩

def second : Except String Report × World := sync (asked "a: 1\n") false ⟨first.2.fs, [], []⟩

def rowsOf (r : Except String Report × World) : Option (List (Action × Option Outcome)) :=
  r.1.toOption.map fun report => report.items.map fun row => (row.item.action, row.outcome)

theorem sync_again_app : rowsOf first = some [(.create, some .done)] ∧
    ∃ report, second.1 = .ok report ∧ ∀ row ∈ report.items, row.item.action.writes = false := by
  obtain ⟨hfirst, hsecond⟩ : rowsOf first = some [(.create, some .done)] ∧ (rowsOf second).isSome = true := by
    decide +kernel
  refine ⟨hfirst, ?_⟩
  obtain ⟨report, hreport, hrows⟩ := Option.map_eq_some_iff.mp hfirst
  obtain ⟨rows, hsome⟩ := Option.isSome_iff_exists.mp hsecond
  obtain ⟨report', hreport', -⟩ := Option.map_eq_some_iff.mp hsome
  have hok : first.1 = .ok report := Except.toOption_eq_some.mp hreport
  have hok' : second.1 = .ok report' := Except.toOption_eq_some.mp hreport'
  have hall : report.AllDone := by
    intro row hrow
    have hmem := List.mem_map_of_mem (f := fun row : Done => (row.item.action, row.outcome)) hrow
    rw [hrows, List.mem_singleton, Prod.mk.injEq] at hmem
    rw [hmem.1, hmem.2]
    exact ⟨fun why heq => (by cases heq), fun _ => rfl⟩
  have hdone : first = (.ok report, first.2) := Prod.fst_eq_iff.mp hok
  have hnext : second = (.ok report', second.2) := Prod.fst_eq_iff.mp hok'
  exact ⟨report', hok', @sync_again _ _ false false guest first.2 _ _ .user (asks_asked _) serdeReads []
    id report hdone hall ⟨first.2.fs, [], []⟩ (fun t ht => absurd ht List.not_mem_nil) rfl report' second.2 hnext⟩

end Guest
end PveMeta
