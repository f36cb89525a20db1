import PveMeta.Theorems.GuestCarried

/-! # Planning again

Once a plan is carried out, with nothing to disturb it, every file that is wanted is as it should be or kept as it was, and
of the others only those have a record that somebody else is to delete. A plan of what is there then has nothing to do,
and it forgets a record only where a file was removed that stood where a directory on the way should be. -/

namespace PveMeta
namespace Guest

section

variable [Deps] {files : GuestFiles} {old : Manifest} {nodes nodes' : Nodes} {force : Bool} {d : Desired} {q : GuestPath}
  {fs fs' : Fs} {r : Record}

/-! ### A plan that refuses nothing -/

def Plan.RefusesNothing (p : Plan) : Prop := ∀ item ∈ p.items, ∀ why, item.action ≠ .refused why

section

variable (hrefuses : (plan files old nodes force).RefusesNothing) (hhold : holdReason files nodes = none)

include hrefuses hhold

theorem heldNames_eq_nil : heldNames files.rows = [] := by
  rw [plan_eq hhold] at hrefuses
  refine List.filterMap_eq_nil_iff.mpr fun row hrow => ?_
  cases row with
  | file d => rfl
  | absent name => rfl
  | refused name reason => exact absurd rfl (hrefuses _ (mem_items_refused hrow) reason)

/-- A file that is wanted is not recorded for anybody else, and is missing, or a file where one can be. -/
theorem judged (hd : d ∈ files.desired) : Unclaimed old d ∧
    (assess d.entry.path nodes = .missing ∨ ∃ hash mode owner, assess d.entry.path nodes = .present hash mode owner) := by
  rw [plan_eq hhold] at hrefuses
  have hverdict := hrefuses _ (mem_items_wanted hd)
  have hfree : Unclaimed old d := by
    by_contra hclaimed
    obtain ⟨why, hrefused⟩ := @verdict_claimed _ old nodes force d hclaimed
    exact hverdict why (by rw [hrefused])
  refine ⟨hfree, ?_⟩
  rw [verdict_unclaimed hfree] at hverdict
  cases hstate : assess d.entry.path nodes with
  | missing => exact .inl rfl
  | present hash mode owner => exact .inr ⟨hash, mode, owner, rfl⟩
  | unsafePath why =>
    rw [hstate] at hverdict
    exact absurd rfl (hverdict why)

end

/-! ### Where a file is missing -/

omit [Deps] in
/-- Where there is nothing but directories on the way, it leads on or breaks off. -/
theorem dirs_or_breaksOff {dirs : List Text} (h : ∀ dir ∈ dirs, nodes.at dir = .dir ∨ nodes.at dir = .missing) :
    (∀ dir ∈ dirs, nodes.at dir = .dir) ∨ BreaksOff nodes dirs := by
  induction dirs with
  | nil => exact .inl (by rintro _ ⟨⟩)
  | cons dir dirs ih =>
    obtain ⟨hhead | hhead, hrest⟩ := List.forall_mem_cons.mp h
    · rcases ih hrest with hdirs | ⟨before, dir', after, rfl, hbefore, hmissing⟩
      · exact .inl (List.forall_mem_cons.mpr ⟨hhead, hdirs⟩)
      · exact .inr ⟨dir :: before, dir', after, rfl, List.forall_mem_cons.mpr ⟨hhead, hbefore⟩, hmissing⟩
    · exact .inr ⟨[], dir, dirs, rfl, by rintro _ ⟨⟩, hhead⟩

theorem Sees.assess_present (h : Sees nodes fs q) (hdirs : ∀ dir ∈ q.directories, fs dir = .dir) {owner : Owner}
    {mode : Nat} {content : ByteArray} (hfile : fs q.text = .file owner mode content) :
    assess q nodes = .present (MetaStore.digest content) mode owner := by
  have hnodes : ∀ dir ∈ q.directories, nodes.at dir = .dir := fun dir hdir => by
    rw [h dir (.inr hdir), hdirs dir hdir]
    rfl
  rw [assess, assessDirs_eq_none.mpr hnodes, h q.text (.inl rfl), hfile]
  rfl

/-! ### The files afterwards -/

theorem ops_plan (hhold : holdReason files nodes = none) : (plan files old nodes force).ops =
    files.desired.filterMap (fileOp old nodes force) ++ old.records.entries.filterMap (goneOp files nodes) := by
  rw [plan_eq hhold]
  exact ops_draft

/-- There is no operation on a file that is wanted and not to be written. -/
theorem Apart.no_op_wanted (h : Apart files) (hhold : holdReason files nodes = none) (hd : d ∈ files.desired)
    (hnot : ¬ Due old nodes force d) : ∀ op ∈ (plan files old nodes force).ops, op.path ≠ d.entry.path.text := by
  rw [ops_plan hhold]
  intro op hop hpath
  rcases List.mem_append.mp hop with hop | hop
  · obtain ⟨e, he, hfile⟩ := List.mem_filterMap.mp hop
    rw [path_fileOp hfile] at hpath
    obtain rfl := List.inj_on_of_nodup_map h.nodup he hd (GuestPath.ext_text hpath)
    exact hnot (isSome_fileOp.mp ⟨op, hfile⟩)
  · obtain ⟨e, -, hgone⟩ := List.mem_filterMap.mp hop
    rw [(path_goneOp hgone).1] at hpath
    exact (path_goneOp hgone).2 (List.mem_map.mpr ⟨d, hd, (GuestPath.ext_text hpath).symm⟩)

/-- There is none on a file that is not wanted and whose record stays. -/
theorem no_op_kept (hhold : holdReason files nodes = none) (hr : old.records.get? q = some r)
    (hq : q ∉ files.desired.map (·.entry.path)) (hkeeps : keepsGone files nodes q r = true) :
    ∀ op ∈ (plan files old nodes force).ops, op.path ≠ q.text := by
  rw [ops_plan hhold]
  intro op hop hpath
  rcases List.mem_append.mp hop with hop | hop
  · obtain ⟨e, he, hfile⟩ := List.mem_filterMap.mp hop
    rw [path_fileOp hfile] at hpath
    exact hq (List.mem_map.mpr ⟨e, he, GuestPath.ext_text hpath⟩)
  · obtain ⟨⟨q', r'⟩, he, hgone⟩ := List.mem_filterMap.mp hop
    obtain ⟨rfl, -, hnot⟩ := goneOp_eq_some hgone
    obtain rfl : q' = q := GuestPath.ext_text hpath
    rw [SortedMap.mem_entries_iff, hr, Option.some_inj] at he
    rw [← he, hkeeps] at hnot
    cases hnot

theorem asWanted_congr (h : assess d.entry.path nodes' = assess d.entry.path nodes) :
    asWanted nodes' d = asWanted nodes d := by
  unfold asWanted
  rw [h]

/-- A file is removed that stands where a directory on the way should be. -/
def Plan.Uncovers (p : Plan) (q : GuestPath) : Prop := ∃ path hash, Op.remove path hash ∈ p.ops ∧ path ∈ q.directories

section

variable (h : Probes files old nodes fs) (hhold : holdReason files nodes = none)
  (hcarried : Carried (plan files old nodes force) fs fs')

include h hhold hcarried

/-- A file that was to be written is as it is wanted. -/
theorem due_after (hafter : Sees nodes' fs' d.entry.path) (hd : d ∈ files.desired) (hdue : Due old nodes force d) :
    assess d.entry.path nodes' = .present d.sha256 d.entry.mode d.entry.owner ∧
      ∀ dir ∈ d.entry.path.directories, fs' dir = .dir := by
  have hdirs : ∀ dir ∈ d.entry.path.directories, fs' dir = .dir := by
    intro dir hdir
    rw [hcarried.dirs, made_dir]
    exact ((h.wanted hd).due_made hhold hd hdue hdir).symm
  obtain ⟨op, hop⟩ := isSome_fileOp.mpr hdue
  have hmem : op ∈ (plan files old nodes force).ops := by
    rw [ops_plan hhold]
    exact List.mem_append_left _ (List.mem_filterMap.mpr ⟨d, hd, hop⟩)
  have hfile := hcarried.own op hmem
  obtain ⟨expect, -, rfl⟩ := Option.map_eq_some_iff.mp hop
  rw [d.hashed]
  exact ⟨hafter.assess_present hdirs hfile, hdirs⟩

/-- A file that was not to be written is as it was. -/
theorem settled_after (hapart : Apart files) (hafter : Sees nodes' fs' d.entry.path) (hd : d ∈ files.desired)
    (hnot : ¬ Due old nodes force d) {hash : String} {mode : Nat} {owner : Owner}
    (hstate : assess d.entry.path nodes = .present hash mode owner) :
    assess d.entry.path nodes' = .present hash mode owner ∧ ∀ dir ∈ d.entry.path.directories, fs' dir = .dir := by
  obtain ⟨⟨content, hfile, rfl⟩, hdirs⟩ := (h.wanted hd).present hstate
  have hdirs' : ∀ dir ∈ d.entry.path.directories, fs' dir = .dir := fun dir hdir =>
    (hcarried.dirs dir).mpr (made_dir.mpr (.inr (hdirs dir hdir)))
  refine ⟨hafter.assess_present hdirs' ?_, hdirs'⟩
  rw [hcarried.others _ d.entry.path.not_reserved d.entry.path.ne_manifestPath (hapart.no_op_wanted hhold hd hnot),
    made_of_not_mem (hapart.not_mem_dirs hhold hd), hfile]

/-- Nothing more is to be done with a file that is wanted, and its record is its entry's if the file is as wanted. -/
theorem wanted_after (hapart : Apart files) (hrefuses : (plan files old nodes force).RefusesNothing) {again : Bool}
    (hforce : again = true → force = true) (hafter : Sees nodes' fs' d.entry.path) (hd : d ∈ files.desired) :
    ¬ Due (plan files old nodes force).manifest nodes' again d ∧
      (asWanted nodes' d = true → (plan files old nodes force).manifest.records.get? d.entry.path = some d.record) ∧
        ∀ dir ∈ d.entry.path.directories, fs' dir = .dir := by
  have hrecord : (plan files old nodes force).manifest.records.get? d.entry.path =
      keptRecord old d (verdict old nodes force d).1 := by
    rw [plan_eq hhold]
    exact hapart.get?_wanted hd
  rw [Due, hrecord]
  by_cases hdue : Due old nodes force d
  · obtain ⟨hstate, hdirs⟩ := due_after h hhold hcarried hafter hd hdue
    refine ⟨fun hagain => ?_, fun _ => if_pos (verdict_due hdue).1, hdirs⟩
    have hdiff := hagain.2
    rw [hstate] at hdiff
    exact hdiff.1 ⟨rfl, rfl, rfl⟩
  · obtain ⟨hfree, hmissing | ⟨hash, mode, owner, hstate⟩⟩ := judged hrefuses hhold hd
    · exact absurd ⟨hfree, by rw [hmissing]; trivial⟩ hdue
    · obtain ⟨hstate', hdirs⟩ := settled_after h hhold hcarried hapart hafter hd hdue hstate
      have hsame := asWanted_congr (hstate'.trans hstate.symm)
      refine ⟨fun hagain => hdue ⟨hfree, ?_⟩, fun hwanted => ?_, hdirs⟩
      · have hmay := hagain.2
        rw [hstate'] at hmay
        rw [hstate]
        obtain ⟨hdiff, hmay⟩ := hmay
        refine ⟨hdiff, ?_⟩
        have hkept : (verdict old nodes force d).1.adopts = false := by
          rw [Bool.eq_false_iff, ne_eq, (verdict_not_due hdue).2]
          rintro ⟨-, hwanted⟩
          rw [asWanted, hstate] at hwanted
          exact hdiff (by simpa [and_assoc] using hwanted)
        rw [keptRecord, hkept, if_neg Bool.false_ne_true] at hmay
        exact hmay.imp_right (Or.imp_right hforce)
      · exact if_pos ((verdict_not_due hdue).2.mpr ⟨hfree, hsame ▸ hwanted⟩)

/-- A file that is not wanted and whose record stays is there afterwards, unless what stood in its way is removed. -/
theorem missing_after (hr : old.records.get? q = some r) (hq : q ∉ files.desired.map (·.entry.path))
    (hkeeps : keepsGone files nodes q r = true) (hafter : Sees nodes' fs' q) (hmissing : assess q nodes' = .missing) :
    (plan files old nodes force).Uncovers q := by
  by_contra hcovered
  have hsees := h.recorded hr
  have hstate : assess q nodes ≠ .missing := by
    intro hstate
    rw [keepsGone, hstate] at hkeeps
    cases hkeeps
  -- A directory on the way that is there now was there, or was missing and made.
  have hdir : ∀ dir ∈ q.directories, nodes'.at dir = .dir → nodes.at dir = .dir ∨ nodes.at dir = .missing := by
    intro dir hway hnode
    rw [hafter dir (.inr hway), lstat_eq_dir, hcarried.dirs, made_dir] at hnode
    rw [hsees dir (.inr hway), lstat_eq_dir, lstat_eq_missing]
    exact hnode.elim (hcarried.ways dir) .inl
  -- What is missing now was missing.
  have hgone : ∀ path, (path ∈ q.directories ∨ path = q.text) → nodes'.at path = .missing → nodes.at path = .missing := by
    intro path hway hnode
    have hreserved : ¬ Reserved path ∧ path ≠ manifestPath := by
      rcases hway with hway | rfl
      · exact ⟨not_reserved_of_mem_directories hway, ne_manifestPath_of_mem_directories hway⟩
      · exact ⟨q.not_reserved, q.ne_manifestPath⟩
    have hnone : ∀ op ∈ (plan files old nodes force).ops, op.path ≠ path := by
      rintro op hop rfl
      rcases hway with hway | hown
      · have hnode' := hcarried.own op hop
        rw [hafter _ (.inr hway), lstat_eq_missing, hnode'] at hnode
        cases op with
        | place path content mode owner expect => cases hnode
        | remove path hash => exact hcovered ⟨path, hash, hop, hway⟩
      · exact no_op_kept hhold hr hq hkeeps op hop hown
    rw [hafter path hway.symm, lstat_eq_missing, hcarried.others path hreserved.1 hreserved.2 hnone, made] at hnode
    split at hnode
    · cases hnode
    · rw [hsees path hway.symm, hnode]
      rfl
  refine hstate (assess_eq_missing.mpr ?_)
  rcases assess_eq_missing.mp hmissing with ⟨before, dir, after, hsplit, hbefore, hlast⟩ | ⟨hdirs, hlast⟩
  · have hmem : ∀ d ∈ before, d ∈ q.directories := fun d hd => hsplit ▸ List.mem_append_left _ hd
    have hdir' : dir ∈ q.directories := hsplit ▸ List.mem_append_right _ List.mem_cons_self
    rcases dirs_or_breaksOff fun d hd => hdir d (hmem d hd) (hbefore d hd) with
      hall | ⟨before', dir', after', rfl, hbefore', hmissing'⟩
    · exact .inl ⟨before, dir, after, hsplit, hall, hgone dir (.inl hdir') hlast⟩
    · exact .inl ⟨before', dir', after' ++ dir :: after, by rw [hsplit]; simp, hbefore', hmissing'⟩
  · rcases dirs_or_breaksOff fun dir hway => hdir dir hway (hdirs dir hway) with hall | hbreaks
    · exact .inr ⟨hall, hgone q.text (.inr rfl) hlast⟩
    · exact .inl hbreaks

omit hhold in
/-- What a file was removed in the way of is missing. -/
theorem uncovered (huncovers : (plan files old nodes force).Uncovers q) (hafter : Sees nodes' fs' q) :
    assess q nodes' = .missing := by
  obtain ⟨path, hash, hop, hway⟩ := huncovers
  have hgone := hcarried.own _ hop
  cases planned_of_mem hop with
  | remove q' r known mode owner unwanted owned unheld state =>
    obtain ⟨-, hdirs⟩ := (h.recorded known).present state
    obtain ⟨rest, hsplit⟩ := GuestPath.directories_split hway
    refine assess_eq_missing.mpr (.inl ⟨q'.directories, q'.text, rest, hsplit, fun dir hdir => ?_, ?_⟩)
    · have hmem : dir ∈ q.directories := hsplit ▸ List.mem_append_left _ hdir
      rw [hafter dir (.inr hmem), lstat_eq_dir, hcarried.dirs, made_dir]
      exact .inr (hdirs dir hdir)
    · rw [hafter q'.text (.inr hway), lstat_eq_missing]
      exact hgone

/-- The manifest still has its directory, or can be given one. -/
theorem hold_after {m : Manifest} (hafter : Probes files m nodes' fs') : holdReason files nodes' = none := by
  have hnone : ∀ op ∈ (plan files old nodes force).ops, ∀ dir ∈ Manifest.directories, op.path ≠ dir := by
    rintro op hop dir hdir rfl
    have habove : ∀ dir ∈ Manifest.directories, isAtOrUnder dir manifestPath = true := by decide
    have hat := habove _ hdir
    cases planned_of_mem hop with
    | create d => rw [Op.path, (manifest_of_pathProblem d.entry.path.valid).1] at hat; cases hat
    | update d => rw [Op.path, (manifest_of_pathProblem d.entry.path.valid).1] at hat; cases hat
    | overwrite d => rw [Op.path, (manifest_of_pathProblem d.entry.path.valid).1] at hat; cases hat
    | remove q => rw [Op.path, (manifest_of_pathProblem q.valid).1] at hat; cases hat
  have hroot : ∀ dir ∈ Manifest.directories, dirProblem dir (nodes'.at dir) = none := by
    intro dir hdir
    have hplain : ∀ dir ∈ Manifest.directories, ¬ Reserved dir ∧ dir ≠ manifestPath := by decide
    rw [hafter dir (mem_probePaths_iff.mpr (.inr (.inr hdir))),
      hcarried.others dir (hplain dir hdir).1 (hplain dir hdir).2 fun op hop => hnone op hop dir hdir, made]
    split
    · rfl
    · rcases (h.root hhold hdir).2 with hthere | hmissing
      · rw [hthere]
        rfl
      · rw [hmissing]
        rfl
  unfold holdReason at hhold ⊢
  split
  · cases hhold
  · exact List.findSome?_eq_none_iff.mpr hroot

end

/-! ### The records afterwards -/

theorem goneOp_of_foreign (h : deletionOwner files r.source = false) : goneOp files nodes (q, r) = none := by
  unfold goneOp
  split
  · rfl
  · next hnot =>
    have hmissing := not_not.mp (mt (keepsGone_of_foreign h).mpr (not_or.mp hnot).2)
    rw [hmissing]
    rfl

/-- Where nothing is refused, only a record that is another's to delete stays. -/
theorem foreign_of_keepsGone (hheld : heldNames files.rows = []) (hkeeps : keepsGone files nodes q r = true) :
    deletionOwner files r.source = false := by
  unfold keepsGone at hkeeps
  split at hkeeps
  · cases hkeeps
  · simpa [hheld] using hkeeps

theorem Plan.Uncovers.managed (h : (plan files old nodes force).Uncovers q)
    (hforeign : deletionOwner files r.source = false) :
    isManagedSource r.source = true := by
  obtain ⟨path, hash, hop, -⟩ := h
  cases planned_of_mem hop with
  | remove q' r' known mode owner unwanted owned unheld state =>
    cases files with
    | managed items => cases owned
    | nothing => exact Bool.not_eq_false' _ ▸ hforeign
    | held why => exact Bool.not_eq_false' _ ▸ hforeign
    | entries rows => exact Bool.not_eq_false' _ ▸ hforeign

/-- Planning again finds nothing to do; it forgets what is missing now that a file was removed, and that is an
    operator's. -/
structure Settled (p : Plan) (m : Manifest) (p' : Plan) : Prop where
  ops : p'.ops = []
  forgets : ∀ q, p.Uncovers q → p'.manifest.records.get? q = none
  keeps : ∀ q, ¬ p.Uncovers q → p'.manifest.records.get? q = m.records.get? q
  managed : ∀ q r, m.records.get? q = some r → p.Uncovers q → isManagedSource r.source = true

theorem Probes.settled (h : Probes files old nodes fs) (hapart : Apart files) (hhold : holdReason files nodes = none)
    (hcarried : Carried (plan files old nodes force) fs fs') (hrefuses : (plan files old nodes force).RefusesNothing)
    {again : Bool} (hforce : again = true → force = true)
      (hafter : Probes files (plan files old nodes force).manifest nodes' fs') :
    Settled (plan files old nodes force) (plan files old nodes force).manifest
      (plan files (plan files old nodes force).manifest nodes' again) := by
  have hhold' := hold_after h hhold hcarried hafter
  have hwanted := fun d hd => wanted_after h hhold hcarried hapart hrefuses hforce (hafter.wanted hd) (d := d) hd
  have hgone : ∀ q r, q ∉ files.desired.map (·.entry.path) → (plan files old nodes force).manifest.records.get? q = some r →
      old.records.get? q = some r ∧ keepsGone files nodes q r = true ∧ deletionOwner files r.source = false := by
    intro q r hq hr
    rw [plan_eq hhold] at hr
    obtain ⟨hold, hkeeps⟩ := Option.filter_eq_some_iff.mp ((get?_unwanted hq).symm.trans hr)
    exact ⟨hold, hkeeps, foreign_of_keepsGone (heldNames_eq_nil hrefuses hhold) hkeeps⟩
  have hunwanted : ∀ q, (plan files old nodes force).Uncovers q → q ∉ files.desired.map (·.entry.path) := by
    rintro q ⟨path, hash, hop, hway⟩ hq
    obtain ⟨d, hd, rfl⟩ := List.mem_map.mp hq
    have hnode := hcarried.own _ hop
    rw [show (Op.remove path hash).path = path from rfl, (hwanted d hd).2.2 path hway] at hnode
    cases hnode
  have hmissing : ∀ q r, q ∉ files.desired.map (·.entry.path) →
      (plan files old nodes force).manifest.records.get? q = some r →
      (assess q nodes' = .missing ↔ (plan files old nodes force).Uncovers q) := by
    intro q r hq hr
    obtain ⟨hold, hkeeps, -⟩ := hgone q r hq hr
    exact ⟨missing_after h hhold hcarried hold hq hkeeps (hafter.recorded hr),
      fun huncovers => uncovered h hcarried huncovers (hafter.recorded hr)⟩
  have hsame : ∀ q, q ∈ files.desired.map (·.entry.path) →
      (plan files (plan files old nodes force).manifest nodes' again).manifest.records.get? q =
        (plan files old nodes force).manifest.records.get? q := by
    intro q hq
    obtain ⟨d, hd, rfl⟩ := List.mem_map.mp hq
    obtain ⟨hnot, hrecord, -⟩ := hwanted d hd
    rw [plan_eq hhold', hapart.get?_wanted hd, keptRecord_eq]
    exact fun hadopts => hrecord ((verdict_not_due hnot).2.mp hadopts).2
  have hother : ∀ q, q ∉ files.desired.map (·.entry.path) →
      (plan files (plan files old nodes force).manifest nodes' again).manifest.records.get? q =
        ((plan files old nodes force).manifest.records.get? q).filter (keepsGone files nodes' q) := by
    intro q hq
    rw [plan_eq hhold']
    exact get?_unwanted hq
  refine ⟨?_, fun q huncovers => ?_, fun q hcovered => ?_, fun q r hr huncovers => ?_⟩
  · rw [ops_plan hhold', List.append_eq_nil_iff, List.filterMap_eq_nil_iff, List.filterMap_eq_nil_iff]
    refine ⟨fun d hd => ?_, fun e he => ?_⟩
    · rw [Option.eq_none_iff_forall_ne_some]
      exact fun op hop => (hwanted d hd).1 (isSome_fileOp.mp ⟨op, hop⟩)
    · by_cases hq : e.1 ∈ files.desired.map (·.entry.path)
      · exact if_pos (.inl hq)
      · exact goneOp_of_foreign (hgone e.1 e.2 hq (SortedMap.mem_entries_iff.mp he)).2.2
  · have hq := hunwanted q huncovers
    rw [hother q hq]
    cases hr : (plan files old nodes force).manifest.records.get? q with
    | none => rfl
    | some r =>
      refine if_neg fun hkeeps => ?_
      exact (keepsGone_of_foreign (hgone q r hq hr).2.2).mp hkeeps ((hmissing q r hq hr).mpr huncovers)
  · by_cases hq : q ∈ files.desired.map (·.entry.path)
    · exact hsame q hq
    · rw [hother q hq]
      cases hr : (plan files old nodes force).manifest.records.get? q with
      | none => rfl
      | some r =>
        refine if_pos ((keepsGone_of_foreign (hgone q r hq hr).2.2).mpr fun hstate => hcovered ?_)
        exact (hmissing q r hq hr).mp hstate
  · exact huncovers.managed (hgone q r (hunwanted q huncovers) hr).2.2

/-- Where everything is held, and so nothing is recorded that it would refuse, planning again holds it again. -/
theorem settled_of_hold {why : String} (hhold : holdReason files nodes = some why)
    (hrefuses : (plan files old nodes force).RefusesNothing) (again : Bool) :
    Settled (plan files old nodes force) old (plan files old nodes again) := by
  rw [plan_of_hold hhold] at hrefuses
  have hnone : ∀ q, old.records.get? q = none := by
    intro q
    cases hr : old.records.get? q with
    | none => rfl
    | some r => exact absurd rfl (hrefuses _ (List.mem_map_of_mem (SortedMap.mem_entries_iff.mpr hr)) why)
  rw [plan_of_hold hhold, plan_of_hold hhold]
  refine ⟨rfl, fun q _ => hnone q, fun _ _ => rfl, fun q r hr _ => ?_⟩
  rw [hnone q] at hr
  cases hr

/-- Once a plan that refuses nothing is carried out with nothing to disturb it, planning again finds nothing to do, and
    forgets at most what a removed file was in the way of. -/
theorem sync_converges [RustDebug] [Serde] {V : Writer} (hask : V.Asks files) {force again : Bool}
    (hforce : again = true → force = true) {p : Plan} (hp : plan files old (probed fs (probePaths files old)) force = p)
    (hrefuses : p.RefusesNothing) {w' : World} (hdone : carry p old (.start fs) = (.ok (p.ops.map fun _ => .done), w'))
    {m : Manifest} (hm : p.manifestAfter old (p.ops.map fun _ => true) = m) :
    Settled p m (plan files m (probed w'.fs (probePaths files m)) again) := by
  have hmanifest : p.manifestAfter old (p.ops.map fun _ => true) = p.manifest := by
    have hdone := @manifestAfter_done old p p.ops
    rwa [List.map_map] at hdone
  rw [hmanifest] at hm
  subst hm hp
  have h := probes_probed files old fs
  cases hhold : holdReason files (probed fs (probePaths files old)) with
  | none =>
    exact h.settled hask.apart hhold (hask.apart.carried hhold rfl hdone) hrefuses hforce (probes_probed _ _ _)
  | some why =>
    have hsettled := settled_of_hold hhold hrefuses again
    rw [plan_of_hold hhold, carry_of_isEmpty rfl, conclude, saveManifest, Calls.saveManifest, if_pos rfl] at hdone
    obtain rfl := (Prod.mk.inj hdone).2
    rw [plan_of_hold hhold] at hsettled ⊢
    exact hsettled

end

open GuestSample Sample

/-- What a document asks for of a guest without files. -/
def firstPlan : Plan := plan (asked "a: 1\n") .empty (probed guest (probePaths (asked "a: 1\n") .empty)) true

theorem refusesNothing_of_actions {p : Plan} {actions : List Action} (h : p.items.map (·.action) = actions)
    (hactions : ∀ action ∈ actions, action.writes = true) : p.RefusesNothing := by
  intro item hitem why hrefused
  have hwrites := hactions item.action (h ▸ List.mem_map_of_mem hitem)
  rw [hrefused] at hwrites
  cases hwrites

/-- A file that is written is not written again. -/
theorem sync_converges_app : firstPlan.ops.length = 1 ∧ Settled firstPlan firstPlan.manifest
    (plan (asked "a: 1\n") firstPlan.manifest
      (probed (carry firstPlan .empty (.start guest)).2.fs (probePaths (asked "a: 1\n") firstPlan.manifest)) true) := by
  have hactions : firstPlan.items.map (·.action) = [.create] := by decide +kernel
  have hdone : (carry firstPlan .empty (.start guest)).1 = .ok (firstPlan.ops.map fun _ => .done) := by decide +kernel
  have hmanifest : firstPlan.manifestAfter .empty (firstPlan.ops.map fun _ => true) = firstPlan.manifest := by
    decide +kernel
  exact ⟨by decide +kernel, @sync_converges _ _ _ _ _ _ _ (asks_asked _) true true id _ rfl
    (refusesNothing_of_actions hactions (by decide)) _ (Prod.ext hdone rfl) _ hmanifest⟩

/-- Where a file stands that should be a directory on the way to another. -/
def belowPath : GuestPath := ⟨"/etc/pve-meta/app/b".toList, by decide +kernel⟩

def nestedManifest : Manifest :=
  ⟨(SortedMap.empty.insert appPath ⟨"app", appPath, MetaStore.digest one, userSource "app"⟩).insert belowPath
    ⟨"b", belowPath, MetaStore.digest one, managedSource "a" "b"⟩⟩

def nestedGuest : Fs := Function.update guest appPath.text (.file .root 0o444 one)

def nestedPlan : Plan := plan .nothing nestedManifest (probed nestedGuest (probePaths .nothing nestedManifest)) false

/-- The record of an operator's file is forgotten once the file in its way is removed. -/
theorem operator_forgotten : Writer.user.Asks .nothing ∧ nestedPlan.RefusesNothing ∧
    (carry nestedPlan nestedManifest (.start nestedGuest)).1 = .ok (nestedPlan.ops.map fun _ => .done) ∧
    (plan .nothing (nestedPlan.manifestAfter nestedManifest (nestedPlan.ops.map fun _ => true))
      (probed (carry nestedPlan nestedManifest (.start nestedGuest)).2.fs
        (probePaths .nothing
          (nestedPlan.manifestAfter nestedManifest (nestedPlan.ops.map fun _ => true)))) false).manifest ≠
      nestedPlan.manifestAfter nestedManifest (nestedPlan.ops.map fun _ => true) := by
  have hactions : nestedPlan.items.map (·.action) = [.delete] := by decide +kernel
  exact ⟨.nothing, refusesNothing_of_actions hactions (by decide), by decide +kernel, by decide +kernel⟩

end Guest
end PveMeta
