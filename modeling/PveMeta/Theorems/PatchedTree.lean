import PveMeta.Theorems.PatchRestored

/-! # The patches of several manifests

Each entry is built from the pristine copy of its path, so of the entries that name one path the last is the one that is
in; and a removal takes a path from whatever manifest patched it. No two that succeed name a path and its copy: dpkg lets no
path be in two diversions. -/

namespace PveMeta
namespace ManagedPatch

variable {t : Tree} {p q : Text} {s : Site} {turns before after : List Turn} {turn : Turn}

/-! ### Paths that have nothing to do with each other -/

theorem divertedPath_inj : divertedPath p = divertedPath q ↔ p = q := List.append_left_inj _

theorem divertedPath_ne (p : Text) : divertedPath p ≠ p := by
  intro h
  have := congrArg List.length h
  simp [divertedPath] at this

/-- Neither path is the other, or the other's copy. -/
structure Clear (p q : Text) : Prop where
  ne : q ≠ p
  copy : q ≠ divertedPath p
  copied : divertedPath q ≠ p

/-- No entry names the copy of another. -/
def NoCopies (names : List Named) : Prop := ∀ a ∈ names, ∀ b ∈ names, a.path ≠ divertedPath b.path

theorem NoCopies.clear {names : List Named} (h : NoCopies names) {a b : Named} (ha : a ∈ names) (hb : b ∈ names)
    (hne : b.path ≠ a.path) : Clear a.path b.path :=
  ⟨hne, h b hb a ha, fun heq => h a ha b hb heq.symm⟩

/-- The entries whose turns these are. -/
def names (turns : List Turn) : List Named := turns.map Prod.fst

theorem mem_names (h : turn ∈ turns) : turn.1 ∈ names turns := List.mem_map_of_mem h

theorem NoCopies.eq_or_clear (h : NoCopies (names turns)) {n : Named} (hn : n ∈ names turns) (hturn : turn ∈ turns) :
    turn.1.path = n.path ∨ Clear turn.1.path n.path := by
  by_cases heq : turn.1.path = n.path
  · exact Or.inl heq
  · exact Or.inr (h.clear (mem_names hturn) hn (Ne.symm heq))

namespace Tree

theorem site_put (h : s.upstream = t.upstream p) : (t.put p s).site p = s := by
  obtain ⟨v, diverter, real, diverted⟩ := s
  cases h
  simp [site, put, (divertedPath_ne p).symm]

theorem site_put_of_clear (h : Clear p q) : (t.put p s).site q = t.site q := by
  simp [site, put, h.ne, h.copy, h.copied, divertedPath_inj]

/-! ### One entry after the other -/

/-- The tree after an entry's turn. -/
def applied (t : Tree) (turn : Turn) : Tree :=
  t.put turn.1.path ((t.site turn.1.path).applyOne turn.1.entry (t.failing turn.1.path turn.2)).2

/-- An entry's turn succeeds. -/
def goesWell (t : Tree) (turn : Turn) : Bool :=
  ((t.site turn.1.path).applyOne turn.1.entry (t.failing turn.1.path turn.2)).1

theorem applyAll_cons : applyAll (turn :: turns) t =
    (t.goesWell turn && (applyAll turns (t.applied turn)).1, (applyAll turns (t.applied turn)).2) := rfl

theorem applyAll_append : applyAll (before ++ after) t =
    ((applyAll before t).1 && (applyAll after (applyAll before t).2).1, (applyAll after (applyAll before t).2).2) := by
  induction before generalizing t with
  | nil => rfl
  | cons turn before ih => rw [List.cons_append, applyAll_cons, ih, applyAll_cons, Bool.and_assoc]

/-- What an entry's turn leaves at its path, if it succeeds. -/
theorem site_applied (h : t.goesWell turn = true) : ∃ pristine file,
    (t.site turn.1.path).pristine = some pristine ∧ build turn.1.entry turn.2 pristine = some file ∧
      (t.applied turn).site turn.1.path = ⟨t.upstream turn.1.path, .pveExt, some file, some pristine⟩ := by
  obtain ⟨pristine, file, hpristine, hfile, happly⟩ := applyOne_eq_true h
  refine ⟨pristine, file, hpristine, hfile, ?_⟩
  rw [applied, happly]
  exact site_put rfl

/-- A diversion that is there already clashes with none. -/
theorem failing_of_pveExt {f : Failing} (h : t.diverter p = .pveExt) : t.failing p f = f := by
  rw [failing, h]
  simp

theorem upstream_applyAll : (applyAll turns t).2.upstream = t.upstream := by
  induction turns generalizing t with
  | nil => rfl
  | cons turn turns ih =>
    rw [applyAll_cons]
    exact ih

/-- Other paths are left alone, whatever fails. -/
theorem site_applyAll (h : ∀ turn ∈ turns, Clear turn.1.path q) : (applyAll turns t).2.site q = t.site q := by
  induction turns generalizing t with
  | nil => rfl
  | cons turn turns ih =>
    rw [applyAll_cons]
    show (applyAll turns _).2.site q = _
    rw [ih fun b hb => h b (List.mem_cons_of_mem _ hb), applied, site_put_of_clear (h turn List.mem_cons_self)]

/-- A successful run keeps the pristine file of every path. -/
theorem pristine_applyAll (hok : (applyAll turns t).1 = true) (h : ∀ turn ∈ turns, turn.1.path = q ∨ Clear turn.1.path q) :
    ((applyAll turns t).2.site q).pristine = (t.site q).pristine := by
  induction turns generalizing t with
  | nil => rfl
  | cons turn turns ih =>
    rw [applyAll_cons, Bool.and_eq_true] at hok
    rw [applyAll_cons]
    show ((applyAll turns _).2.site q).pristine = _
    rw [ih hok.2 fun b hb => h b (List.mem_cons_of_mem _ hb)]
    rcases h turn List.mem_cons_self with rfl | hclear
    · obtain ⟨pristine, file, hpristine, -, hsite⟩ := site_applied hok.1
      rw [hsite, hpristine]
      rfl
    · rw [applied, site_put_of_clear hclear]

theorem file_applyAll (h : ∀ turn ∈ turns, q ≠ turn.1.path ∧ q ≠ divertedPath turn.1.path) :
    (applyAll turns t).2.file q = t.file q := by
  induction turns generalizing t with
  | nil => rfl
  | cons turn turns ih =>
    rw [applyAll_cons]
    show (applyAll turns _).2.file q = _
    rw [ih fun b hb => h b (List.mem_cons_of_mem _ hb)]
    obtain ⟨hne, hcopy⟩ := h turn List.mem_cons_self
    simp [applied, put, hne, hcopy]

theorem diverter_applyAll (h : ∀ turn ∈ turns, q ≠ turn.1.path) : (applyAll turns t).2.diverter q = t.diverter q := by
  induction turns generalizing t with
  | nil => rfl
  | cons turn turns ih =>
    rw [applyAll_cons]
    show (applyAll turns _).2.diverter q = _
    rw [ih fun b hb => h b (List.mem_cons_of_mem _ hb)]
    simp [applied, put, h turn List.mem_cons_self]

/-! ### The diversions -/

/-- As dpkg keeps its diversions: a path that another goes to is not diverted itself. -/
def Lawful (t : Tree) : Prop := ∀ q, (t.diverter q).toCopy = true → t.diverter (divertedPath q) = .nobody

theorem diverter_of (s : State) : (Site.of s).diverter = .pveExt ∨ (Site.of s).diverter = .nobody := by
  unfold Site.of
  split
  · exact Or.inl rfl
  · exact Or.inr rfl

/-- A diversion that is new is one that `--add` makes. -/
theorem diverter_applyOne {e : Entry} {f : Failing} : (s.applyOne e f).2.diverter = s.diverter ∨
    (s.applyOne e f).2.diverter = .nobody ∨
      ((s.applyOne e f).2.diverter = .pveExt ∧ s.diverter = .nobody ∧ f.add = false) := by
  by_cases hstops : s.Stops f
  · exact Or.inl (by rw [applyOne_of_stops hstops])
  · obtain ⟨createdDivert, hdivert, -, hothers⟩ := Site.divert_of_not_stops hstops
    have hours : (s.applyOne e f).2.diverter = .pveExt ∨ (s.applyOne e f).2.diverter = .nobody := by
      rw [applyOne_of_divert hstops hdivert]
      exact diverter_of _
    obtain ⟨v, diverter, real, diverted⟩ := s
    cases diverter with
    | pveExt => exact hours.imp_right Or.inl
    | other toCopy => exact absurd rfl (hothers toCopy)
    | nobody =>
      rw [divert_nobody] at hdivert
      split at hdivert
      · cases hdivert
      · next hadd =>
        rcases hours with hours | hnobody
        · exact Or.inr (Or.inr ⟨hours, rfl, Bool.eq_false_iff.mpr (not_or.mp hadd).1⟩)
        · exact Or.inr (Or.inl hnobody)

theorem clashes_eq_false : t.clashes p = false ↔
    t.diverter (divertedPath p) = .nobody ∧ ∀ q, divertedPath q = p → (t.diverter q).toCopy = false := by
  rw [clashes, Bool.or_eq_false_iff, decide_eq_false_iff_not, not_not]
  refine and_congr_right fun _ => ?_
  split
  · next original horiginal =>
    obtain rfl : p = divertedPath original := Text.eq_append_of_stripSuffix horiginal
    simp only [divertedPath_inj, forall_eq]
  · next hnone =>
    refine iff_of_true rfl fun q hq => ?_
    rw [← hq, divertedPath, Text.stripSuffix_append] at hnone
    cases hnone

/-- Every turn keeps the diversions so, whatever fails. -/
theorem Lawful.applied (h : t.Lawful) : (t.applied turn).Lawful := by
  obtain ⟨⟨path, e⟩, f⟩ := turn
  have hdiverter : ∀ q, (t.applied (⟨path, e⟩, f)).diverter q =
      if q = path then ((t.site path).applyOne e (t.failing path f)).2.diverter else t.diverter q := fun q => by
    simp only [Tree.applied, put, Function.update_apply]
  have hcases := @diverter_applyOne (t.site path) e (t.failing path f)
  intro q hq
  rw [hdiverter] at hq ⊢
  generalize ((t.site path).applyOne e (t.failing path f)).2.diverter = d at hq hcases ⊢
  rcases hcases with hsame | hnobody | ⟨hours, hfrom, hadd⟩
  · have hsame : d = t.diverter path := hsame
    split at hq
    · next heq =>
      rw [if_neg (heq ▸ divertedPath_ne q), heq]
      exact h path (hsame ▸ hq)
    · split
      · next hcopy => rw [hsame, ← hcopy, h q hq]
      · exact h q hq
  · rw [hnobody] at hq ⊢
    split at hq
    · cases hq
    · split
      · rfl
      · exact h q hq
  · -- The diversion is new, so that it does not clash.
    have hfrom : t.diverter path = .nobody := hfrom
    have hclear : t.clashes path = false := by simpa [failing, hfrom] using (Bool.or_eq_false_iff.mp hadd).2
    obtain ⟨hcopy, hcopied⟩ := clashes_eq_false.mp hclear
    split at hq
    · next heq =>
      rw [if_neg (heq ▸ divertedPath_ne q), heq]
      exact hcopy
    · split
      · next hpath =>
        rw [hcopied q hpath] at hq
        cases hq
      · exact h q hq

theorem Lawful.applyAll (h : t.Lawful) : (applyAll turns t).2.Lawful := by
  induction turns generalizing t with
  | nil => exact h
  | cons turn turns ih =>
    rw [applyAll_cons]
    exact ih h.applied

/-- A successful run diverts every path that it names, and gives up no diversion. -/
theorem pveExt_applyAll (hok : (Tree.applyAll turns t).1 = true)
    (h : t.diverter q = .pveExt ∨ ∃ n ∈ names turns, n.path = q) :
    (Tree.applyAll turns t).2.diverter q = .pveExt := by
  induction turns generalizing t with
  | nil => exact h.resolve_right (by rintro ⟨_, ⟨⟩, -⟩)
  | cons turn turns ih =>
    rw [applyAll_cons, Bool.and_eq_true] at hok
    rw [applyAll_cons]
    obtain ⟨pristine, file, -, -, hsite⟩ := site_applied hok.1
    have hthis : (t.applied turn).diverter turn.1.path = .pveExt := congrArg Site.diverter hsite
    refine ih hok.2 ?_
    by_cases hpath : q = turn.1.path
    · exact Or.inl (hpath ▸ hthis)
    · refine h.imp (fun h => ?_) ?_
      · simpa [Tree.applied, put, hpath] using h
      · rintro ⟨n, hn, rfl⟩
        rcases List.mem_cons.mp hn with rfl | hn
        · exact absurd rfl hpath
        · exact ⟨n, hn, rfl⟩

/-- Entries that all succeed name no copies of each other's paths. -/
theorem noCopies_of_applyAll (h : t.Lawful) (hok : (Tree.applyAll turns t).1 = true) : NoCopies (names turns) := by
  intro a ha b hb heq
  have hours : ∀ n ∈ names turns, (Tree.applyAll turns t).2.diverter n.path = .pveExt := fun n hn =>
    pveExt_applyAll hok (Or.inr ⟨n, hn, rfl⟩)
  have hnobody := h.applyAll b.path (by rw [hours b hb]; rfl)
  rw [← heq, hours a ha] at hnobody
  cases hnobody

/-! ### The last entry of a path -/

/-- The file of the last entry that names a path is the one that is there. -/
theorem site_last (hcopies : NoCopies (names turns)) (hok : (applyAll turns t).1 = true) {first rest : List Named}
    {n : Named} (hsplit : names turns = first ++ n :: rest) (hlast : ∀ m ∈ rest, m.path ≠ n.path) : ∃ pristine file f,
      (t.site n.path).pristine = some pristine ∧ build n.entry f pristine = some file ∧
      (applyAll turns t).2.site n.path = ⟨t.upstream n.path, .pveExt, some file, some pristine⟩ := by
  have hn : n ∈ names turns := by
    rw [hsplit]
    exact List.mem_append_right _ List.mem_cons_self
  obtain ⟨before, after', rfl, -, hafter'⟩ := List.map_eq_append_iff.mp hsplit
  obtain ⟨turn, after, rfl, rfl, rfl⟩ := List.map_eq_cons_iff.mp hafter'
  rw [applyAll_append, applyAll_cons] at hok ⊢
  simp only [Bool.and_eq_true] at hok
  obtain ⟨hbefore, hturn, -⟩ := hok
  have hbeforePath : ∀ b ∈ before, b.1.path = turn.1.path ∨ Clear b.1.path turn.1.path := fun b hb =>
    hcopies.eq_or_clear hn (List.mem_append_left _ hb)
  have hafterPath : ∀ a ∈ after, Clear a.1.path turn.1.path := fun a ha =>
    (hcopies.eq_or_clear hn (List.mem_append_right _ (List.mem_cons_of_mem _ ha))).resolve_left
      (hlast a.1 (List.mem_map_of_mem ha))
  obtain ⟨pristine, file, hpristine, hfile, hsite⟩ := site_applied hturn
  refine ⟨pristine, file, turn.2, (pristine_applyAll hbefore hbeforePath).symm.trans hpristine, hfile, ?_⟩
  show (applyAll after _).2.site _ = _
  rw [site_applyAll hafterPath, hsite, upstream_applyAll]

/-- Every entry is built, if only to be replaced. -/
theorem builds_of_mem (hcopies : NoCopies (names turns)) (hok : (applyAll turns t).1 = true) (hturn : turn ∈ turns) :
    ∃ pristine file, (t.site turn.1.path).pristine = some pristine ∧ build turn.1.entry turn.2 pristine = some file := by
  obtain ⟨before, after, rfl⟩ := List.append_of_mem hturn
  rw [applyAll_append, applyAll_cons] at hok
  simp only [Bool.and_eq_true] at hok
  obtain ⟨hbefore, hthis, -⟩ := hok
  obtain ⟨pristine, file, hpristine, hfile, -⟩ := site_applied hthis
  refine ⟨pristine, file, ?_, hfile⟩
  rw [← pristine_applyAll hbefore fun b hb => hcopies.eq_or_clear (mem_names hturn) (List.mem_append_left _ hb), hpristine]

end Tree

theorem exists_last {l : List Named} (h : ∃ n ∈ l, n.path = q) : ∃ first m rest, l = first ++ m :: rest ∧ m.path = q ∧
    ∀ k ∈ rest, k.path ≠ q := by
  induction l with
  | nil =>
    obtain ⟨n, hn, -⟩ := h
    cases hn
  | cons m l ih =>
    by_cases hlater : ∃ k ∈ l, k.path = q
    · obtain ⟨first, m', rest, rfl, hpath, hrest⟩ := ih hlater
      exact ⟨m :: first, m', rest, rfl, hpath, hrest⟩
    · obtain ⟨n, hn, hpath⟩ := h
      refine ⟨[], m, l, rfl, ?_, fun k hk hpath' => hlater ⟨k, hk, hpath'⟩⟩
      rcases List.mem_cons.mp hn with rfl | hn
      · exact hpath
      · exact absurd ⟨n, hn, hpath⟩ hlater

namespace Tree

/-! ### Again -/

variable {turns' : List Turn}

/-- The same entries again change nothing, if they succeed. -/
theorem applyAll_again (hcopies : NoCopies (names turns)) (hok : (applyAll turns t).1 = true)
    (hnames : names turns' = names turns) (hok' : (applyAll turns' (applyAll turns t).2).1 = true) :
    (applyAll turns' (applyAll turns t).2).2 = (applyAll turns t).2 := by
  have hmem : ∀ {turn : Turn}, turn ∈ turns' → turn.1 ∈ names turns := fun hturn => hnames ▸ mem_names hturn
  -- The last entry of a path builds the same file from the same pristine copy.
  have hsite : ∀ q, (∃ n ∈ names turns, n.path = q) →
      (applyAll turns' (applyAll turns t).2).2.site q = (applyAll turns t).2.site q := by
    intro q hq
    obtain ⟨first, n, rest, hsplit, rfl, hlast⟩ := exists_last hq
    obtain ⟨pristine, file, f, -, hfile, hfinal⟩ := site_last hcopies hok hsplit hlast
    obtain ⟨pristine', file', f', hpristine', hfile', hfinal'⟩ :=
      site_last (hnames.symm ▸ hcopies) hok' (hnames.trans hsplit) hlast
    rw [hfinal] at hpristine'
    obtain rfl : pristine = pristine' := Option.some.inj hpristine'
    obtain rfl : file = file' := Option.some.inj ((patch_of_build hfile).symm.trans (patch_of_build hfile'))
    rw [hfinal', hfinal, upstream_applyAll]
  ext1
  · funext q
    by_cases hq : ∃ n ∈ names turns, n.path = q
    · exact congrArg Site.real (hsite q hq)
    · by_cases hcopy : ∃ n ∈ names turns, q = divertedPath n.path
      · obtain ⟨n, hn, rfl⟩ := hcopy
        exact congrArg Site.diverted (hsite n.path ⟨n, hn, rfl⟩)
      · exact file_applyAll fun turn hturn =>
          ⟨fun h => hq ⟨turn.1, hmem hturn, h.symm⟩, fun h => hcopy ⟨turn.1, hmem hturn, h⟩⟩
  · exact upstream_applyAll
  · funext q
    by_cases hq : ∃ n ∈ names turns, n.path = q
    · exact congrArg Site.diverter (hsite q hq)
    · exact diverter_applyAll fun turn hturn h => hq ⟨turn.1, hmem hturn, h.symm⟩

/-- The entry can be built from the copy that pve-ext keeps. -/
def Ready (t : Tree) (n : Named) : Prop :=
  (t.site n.path).diverter = .pveExt ∧ ∃ pristine, (t.site n.path).diverted = some pristine ∧
    (build n.entry .none pristine).isSome = true

theorem Ready.succeeds {n : Named} (h : t.Ready n) : t.goesWell (n, .none) = true := by
  obtain ⟨hours, pristine, hdiverted, hbuild⟩ := h
  rw [goesWell, failing_of_pveExt hours]
  refine answers_applyOne.mpr ⟨⟨?_, .inr rfl, pristine, (if_pos hours).trans hdiverted, hbuild⟩, rfl⟩
  rintro (h | h)
  · cases h
  · simp [Site.divert, Site.isDiverted, Site.diversionOwnedByUs, Failing.none, hours] at h

theorem ready_of_site {n m : Named} {file pristine : ByteArray}
    (h : t.site n.path = ⟨t.upstream n.path, .pveExt, some file, some pristine⟩) (hpath : m.path = n.path)
      (hbuild : (build m.entry .none pristine).isSome = true) : t.Ready m := by
  rw [Ready, hpath, h]
  exact ⟨rfl, pristine, rfl, hbuild⟩

/-- With no step failing, entries that can be built are. -/
theorem applyAll_ready {l : List Named} (hcopies : NoCopies l) (h : ∀ n ∈ l, t.Ready n) :
    (applyAll (l.map fun n => (n, Failing.none)) t).1 = true := by
  induction l generalizing t with
  | nil => rfl
  | cons n l ih =>
    have hthis := (h n List.mem_cons_self).succeeds
    rw [List.map_cons, applyAll_cons, Bool.and_eq_true]
    refine ⟨hthis, ih (fun a ha b hb => hcopies a (List.mem_cons_of_mem _ ha) b (List.mem_cons_of_mem _ hb)) fun m hm => ?_⟩
    by_cases hpath : m.path = n.path
    · obtain ⟨pristine, file, hpristine, hfile, hsite⟩ := @site_applied t (n, .none) hthis
      obtain ⟨hours, pristine', hdiverted, hbuild⟩ := h m (List.mem_cons_of_mem _ hm)
      rw [hpath] at hours hdiverted
      obtain rfl : pristine = pristine' :=
        Option.some.inj (hpristine.symm.trans ((if_pos hours).trans hdiverted))
      exact ready_of_site hsite hpath hbuild
    · have hclear := hcopies.clear List.mem_cons_self (List.mem_cons_of_mem n hm) hpath
      have hready := h m (List.mem_cons_of_mem _ hm)
      rw [Ready] at hready ⊢
      rwa [applied, site_put_of_clear hclear]

theorem build_quiet {e : Entry} {f : Failing} {pristine file : ByteArray} (h : build e f pristine = some file) :
    (build e .none pristine).isSome = true := by
  have hpatch := patch_of_build h
  unfold build at h
  split at h
  · cases h
  · obtain ⟨-, hcheck⟩ := Option.filter_eq_some_iff.mp h
    rw [Bool.and_eq_true] at hcheck
    simp [build, Failing.none, hpatch, hcheck.1]

/-- And so they are after they have succeeded. -/
theorem ready_applyAll (hcopies : NoCopies (names turns)) (hok : (applyAll turns t).1 = true) :
    ∀ n ∈ names turns, (applyAll turns t).2.Ready n := by
  intro n hn
  obtain ⟨turn, hturn, rfl⟩ := List.mem_map.mp hn
  obtain ⟨pristine, file, hpristine, hfile⟩ := builds_of_mem hcopies hok hturn
  obtain ⟨first, m, rest, hsplit, hpath, hlast⟩ := exists_last ⟨turn.1, hn, rfl⟩
  obtain ⟨pristine', file', f, hpristine', -, hsite⟩ := site_last hcopies hok hsplit (hpath ▸ hlast)
  rw [hpath] at hpristine'
  obtain rfl : pristine = pristine' := Option.some.inj (hpristine.symm.trans hpristine')
  rw [← congrFun (@upstream_applyAll t turns)] at hsite
  exact ready_of_site hsite hpath.symm (build_quiet hfile)

/-! ### Removal -/

/-- The tree after a path's removal. -/
def removed (t : Tree) (turn : Turn) : Tree := t.put turn.1.path ((t.site turn.1.path).removeOne turn.2).2

theorem removeAll_cons : removeAll (turn :: turns) t =
    (((t.site turn.1.path).removeOne turn.2).1 && (removeAll turns (t.removed turn)).1,
      (removeAll turns (t.removed turn)).2) := rfl

/-- Other paths are left alone, whatever fails. -/
theorem site_removeAll (h : ∀ turn ∈ turns, Clear turn.1.path q) : (removeAll turns t).2.site q = t.site q := by
  induction turns generalizing t with
  | nil => rfl
  | cons turn turns ih =>
    rw [removeAll_cons]
    show (removeAll turns _).2.site q = _
    rw [ih fun b hb => h b (List.mem_cons_of_mem _ hb), removed, site_put_of_clear (h turn List.mem_cons_self)]

/-- The path has this pristine file, as a copy or as the file itself. -/
def Keeps (t : Tree) (q : Text) (pristine : ByteArray) : Prop :=
  (∃ real, t.site q = ⟨t.upstream q, .pveExt, real, some pristine⟩) ∨
    t.site q = ⟨t.upstream q, .nobody, some pristine, none⟩

/-- A path that was applied to keeps its pristine file. -/
theorem keeps_applyAll (hcopies : NoCopies (names turns)) (hok : (applyAll turns t).1 = true) {n : Named}
    (hn : n ∈ names turns) :
    ∃ pristine, (t.site n.path).pristine = some pristine ∧ (applyAll turns t).2.Keeps n.path pristine := by
  obtain ⟨first, m, rest, hsplit, hpath, hlast⟩ := exists_last ⟨n, hn, rfl⟩
  obtain ⟨pristine, file, f, hpristine, -, hsite⟩ := site_last hcopies hok hsplit (hpath ▸ hlast)
  rw [hpath] at hpristine hsite
  refine ⟨pristine, hpristine, Or.inl ⟨some file, ?_⟩⟩
  rw [hsite, upstream_applyAll]

theorem site_removed {n : Named} {pristine : ByteArray} (h : t.Keeps n.path pristine) :
    ((t.site n.path).removeOne .none).1 = true ∧
      (t.removed (n, .none)).site n.path = ⟨t.upstream n.path, .nobody, some pristine, none⟩ := by
  have hremove : (t.site n.path).removeOne .none = (true, ⟨t.upstream n.path, .nobody, some pristine, none⟩) := by
    rcases h with ⟨real, h⟩ | h
    · rw [h]
      rfl
    · rw [h]
      rfl
  rw [removed, hremove]
  exact ⟨rfl, site_put rfl⟩

/-- With no step failing, every path that is named is as its package has it, and diverted no more. -/
theorem removeAll_quiet {l : List Named} (hcopies : NoCopies l) (h : ∀ n ∈ l, ∃ pristine, t.Keeps n.path pristine) :
    (removeAll (l.map fun n => (n, Failing.none)) t).1 = true ∧ ∀ n ∈ l, ∀ pristine, t.Keeps n.path pristine →
      (removeAll (l.map fun n => (n, Failing.none)) t).2.site n.path =
        ⟨t.upstream n.path, .nobody, some pristine, none⟩ := by
  induction l generalizing t with
  | nil => exact ⟨rfl, by rintro _ ⟨⟩⟩
  | cons n l ih =>
    obtain ⟨pristine, hkeeps⟩ := h n List.mem_cons_self
    obtain ⟨hok, hsite⟩ := site_removed hkeeps
    have hkept : ∀ m ∈ l, ∀ u, t.Keeps m.path u → (t.removed (n, .none)).Keeps m.path u := by
      intro m hm u hu
      by_cases hpath : m.path = n.path
      · rw [hpath] at hu ⊢
        exact Or.inr (site_removed hu).2
      · have hclear := hcopies.clear List.mem_cons_self (List.mem_cons_of_mem n hm) hpath
        rw [Keeps] at hu ⊢
        rw [removed, site_put_of_clear hclear]
        exact hu
    obtain ⟨hrest, hsites⟩ := ih (fun a ha b hb => hcopies a (List.mem_cons_of_mem _ ha) b (List.mem_cons_of_mem _ hb))
      fun m hm => (h m (List.mem_cons_of_mem _ hm)).imp fun u hu => hkept m hm u hu
    rw [List.map_cons, removeAll_cons, hok, hrest]
    refine ⟨rfl, fun m hm u hu => ?_⟩
    by_cases hlater : ∃ k ∈ l, k.path = m.path
    · obtain ⟨k, hk, hpath⟩ := hlater
      rw [← hpath] at hu ⊢
      exact hsites k hk u (hkept k hk u hu)
    · obtain rfl : m = n := (List.mem_cons.mp hm).resolve_right fun hm' => hlater ⟨m, hm', rfl⟩
      have hclear : ∀ turn ∈ l.map fun n => (n, Failing.none), Clear turn.1.path m.path := by
        intro turn hturn
        obtain ⟨k, hk, rfl⟩ := List.mem_map.mp hturn
        exact hcopies.clear (List.mem_cons_of_mem _ hk) hm fun heq => hlater ⟨k, hk, heq.symm⟩
      show (removeAll (l.map fun n => (n, Failing.none)) _).2.site m.path = _
      rw [site_removeAll hclear]
      exact (site_removed hu).2

end Tree

/-! ### The commands -/

/-- The same manifests, no step failing. -/
def quiet (manifests : List (List Turn)) : List (List Turn) := manifests.map (·.map fun turn => (turn.1, Failing.none))

theorem turnsOf_quiet (manifests : List (List Turn)) :
    turnsOf (quiet manifests) = (names (turnsOf manifests)).map fun n => (n, Failing.none) := by
  rw [turnsOf, quiet, ← List.map_flatten, List.filter_map, names, turnsOf, List.map_map]
  rfl

theorem cmdApply_eq_true {starts : Bool} {manifests : List (List Turn)} (h : (cmdApply starts manifests t).1 = true) :
    turnsOf manifests ≠ [] ∧ cmdApply starts manifests t = Tree.applyAll (turnsOf manifests) t := by
  unfold cmdApply at h ⊢
  split at h
  · cases h
  · next hgoes =>
    rw [Bool.or_eq_true, not_or, List.isEmpty_iff] at hgoes
    exact ⟨hgoes.2, if_neg (by simp [hgoes])⟩

/-- The entry's patch is in: the file is the pristine one with the diff. -/
def PatchIn (t t' : Tree) (n : Named) : Prop :=
  ∃ pristine file, (t.site n.path).pristine = some pristine ∧ n.entry.patch pristine = some file ∧
    t'.file n.path = some file

/-- What a successful apply of the manifests to `t` has made of it. -/
structure AllIn (manifests : List (List Turn)) (t t' : Tree) : Prop where
  patched : ∀ first n rest, names (turnsOf manifests) = first ++ n :: rest → (∀ m ∈ rest, m.path ≠ n.path) → PatchIn t t' n
  again : cmdApply true (quiet manifests) t' = (true, t')
  idempotent : ∀ starts manifests', names (turnsOf manifests') = names (turnsOf manifests) →
    (cmdApply starts manifests' t').1 = true → (cmdApply starts manifests' t').2 = t'
  others : ∀ starts manifest, names manifest ∈ manifests.map names → ∀ n ∈ names (turnsOf manifests),
    (∀ m ∈ names manifest, m.path ≠ n.path) → (cmdRemove starts [manifest] t').2.site n.path = t'.site n.path
  restored : ∀ manifest ∈ manifests, (cmdRemove true (quiet [manifest]) t').1 = true ∧
    ∀ n ∈ names (turnsOf [manifest]), ∃ pristine, (t.site n.path).pristine = some pristine ∧
      (cmdRemove true (quiet [manifest]) t').2.site n.path = ⟨t.upstream n.path, .nobody, some pristine, none⟩

theorem mem_names_turnsOf {manifests : List (List Turn)} {n : Named} : n ∈ names (turnsOf manifests) ↔
    (∃ l ∈ manifests.map names, n ∈ l) ∧ n.path ≠ [] := by
  simp only [names, turnsOf, List.mem_map, List.mem_filter, List.mem_flatten, Bool.not_eq_true', List.isEmpty_eq_false_iff]
  constructor
  · rintro ⟨turn, ⟨⟨l, hl, hturn⟩, hpath⟩, rfl⟩
    exact ⟨⟨_, ⟨l, hl, rfl⟩, mem_names hturn⟩, hpath⟩
  · rintro ⟨⟨_, ⟨l, hl, rfl⟩, hn⟩, hpath⟩
    obtain ⟨turn, hturn, rfl⟩ := List.mem_map.mp hn
    exact ⟨turn, ⟨⟨l, hl, hturn⟩, hpath⟩, rfl⟩

section Samples

/-- An entry whose diff appends another byte. -/
def sampleTwo : Entry := ⟨fun file => some ⟨file.data.push 1⟩, [], "perl", fun _ => true⟩

def samplePath : Text := ['/', 'p']

def manifestOf (path : Text) (e : Entry) : List Turn := [(⟨path, e⟩, .none)]

/-- One file, as its package has it. -/
def sampleTree : Tree := ⟨fun q => if q = samplePath then some (textOf 1) else none, fun _ => textOf 1, fun _ => .nobody⟩

/-- Two manifests of one path. -/
def sharing : List (List Turn) := [manifestOf samplePath sample, manifestOf samplePath sampleTwo]

/-- A path's copy is no path to divert. -/
example :
    (cmdApply true [manifestOf samplePath sample, manifestOf (divertedPath samplePath) sample] sampleTree).1 = false := by
  decide +kernel

end Samples

end ManagedPatch
end PveMeta
