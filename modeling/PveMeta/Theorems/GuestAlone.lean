import PveMeta.Theorems.GuestCarried

/-! # A sync that nobody disturbs

With nobody else at the files, whatever fails and wherever a sync is cut off: a file that is there afterwards was there, or
an operation put it there, which the log says; and where the sync gets through, the manifest does. -/

namespace PveMeta
namespace Guest

variable [Deps] {w w' : World} {files : GuestFiles} {path q : Text} {fault : Fault} {content : ByteArray} {mode : Nat}
  {owner : Owner} {expect : Expect} {op : Op} {ops : List Op} {dirs : List Text}

/-! ### Steps that do nothing -/

/-- Nothing is done, and nobody else does anything either. -/
structure Still (w w' : World) : Prop where
  fs : w'.fs = w.fs
  log : w'.log = w.log
  alone : Alone w'

section

omit [Deps]

theorem Still.refl (h : Alone w) : Still w w := ⟨rfl, rfl, h⟩

theorem Still.trans {w₁ : World} (h : Still w w₁) (h' : Still w₁ w') : Still w w' :=
  ⟨h'.fs.trans h.fs, h'.log.trans h.log, h'.alone⟩

theorem still_turn (h : Alone w) : Still w w.turn.2 := ⟨h.turn.1, (quiet_turn w).log, h.turn.2⟩

theorem still_call (h : Alone w) : Still w w.call.2 := still_turn h

theorem still_read (h : Alone w) (path : Text) (max : Nat) : Still w (w.read path max).2 := by
  have hcall := still_call h
  unfold World.read
  split
  · next e w₁ heq => rwa [heq] at hcall
  · next w₁ heq =>
    rw [heq] at hcall
    split
    · split <;> exact hcall
    · exact hcall

end

/-- A probe sees the files as they are. -/
theorem probe_alone (h : Alone w) (paths : List Text) :
    Still w (w.probe paths).2 ∧ ∀ nodes, (w.probe paths).1 = .ok nodes → nodes = probed w.fs paths := by
  unfold World.probe
  induction paths generalizing w with
  | nil =>
    refine ⟨.refl h, ?_⟩
    rintro _ ⟨⟩
    rfl
  | cons path paths ih =>
    have hcall := still_call h
    rw [World.probeAll]
    split
    · next e w₁ heq =>
      rw [heq] at hcall
      exact ⟨hcall, by rintro _ ⟨⟩⟩
    · next w₁ heq =>
      rw [heq] at hcall
      obtain ⟨hstill, hnodes⟩ := ih hcall.alone
      split
      · next e w₂ heq₂ =>
        rw [heq₂] at hstill
        exact ⟨hcall.trans hstill, by rintro _ ⟨⟩⟩
      · next nodes w₂ heq₂ =>
        rw [heq₂] at hstill hnodes
        refine ⟨hcall.trans hstill, ?_⟩
        rintro _ ⟨⟩
        rw [hnodes nodes rfl, hcall.fs]
        rfl

/-! ### Steps that write nothing at a path -/

/-- A file that is at the path was there, and none was written there. -/
structure Leaves (q : Text) (w w' : World) : Prop where
  file : ∀ owner mode content, w'.fs q = .file owner mode content → w.fs q = .file owner mode content
  wrote : ∀ hash, .wrote q hash ∈ w'.log → .wrote q hash ∈ w.log

section

omit [Deps]

theorem Leaves.refl (q : Text) (w : World) : Leaves q w w := ⟨fun _ _ _ => id, fun _ => id⟩

theorem Leaves.trans {w₁ : World} (h : Leaves q w w₁) (h' : Leaves q w₁ w') : Leaves q w w' :=
  ⟨fun owner mode content hfile => h.file owner mode content (h'.file owner mode content hfile),
    fun hash hwrote => h.wrote hash (h'.wrote hash hwrote)⟩

theorem Still.leaves (h : Still w w') (q : Text) : Leaves q w w' :=
  ⟨fun _ _ _ hfile => h.fs ▸ hfile, fun _ hwrote => h.log ▸ hwrote⟩

/-- Directories are made, at most. -/
structure Grows (w w' : World) : Prop where
  node : ∀ p, w'.fs p = w.fs p ∨ w.fs p = .missing ∧ w'.fs p = .dir
  log : w'.log = w.log
  alone : Alone w'

theorem Grows.leaves (h : Grows w w') (q : Text) : Leaves q w w' := by
  refine ⟨fun owner mode content hfile => ?_, fun _ hwrote => h.log ▸ hwrote⟩
  rcases h.node q with hsame | ⟨-, hdir⟩
  · exact hsame ▸ hfile
  · cases hdir.symm.trans hfile

/-- What is there stays. -/
theorem Grows.stays (h : Grows w w') {p : Text} (hp : w.fs p ≠ .missing) : w'.fs p = w.fs p :=
  (h.node p).resolve_right fun hmade => hp hmade.1

theorem Grows.dir (h : Grows w w') {p : Text} (hp : w.fs p = .dir) : w'.fs p = .dir := by
  rw [h.stays (by rw [hp]; rintro ⟨⟩), hp]

theorem Grows.trans {w₁ : World} (h : Grows w w₁) (h' : Grows w₁ w') : Grows w w' := by
  refine ⟨fun p => ?_, h'.log.trans h.log, h'.alone⟩
  rcases h'.node p with hsame | ⟨hmissing, hdir⟩
  · rw [hsame]
    exact h.node p
  · rcases h.node p with hsame | ⟨hmissing', -⟩
    · exact .inr ⟨hsame ▸ hmissing, hdir⟩
    · exact .inr ⟨hmissing', hdir⟩

theorem Still.grows (h : Still w w') : Grows w w' := ⟨fun _ => .inl (by rw [h.fs]), h.log, h.alone⟩

theorem grows_mkdir (h : Alone w) (dir : Text) :
    Grows w (mkdir w dir).2 ∧ ((mkdir w dir).1 = .ok () → (mkdir w dir).2.fs dir = .dir) := by
  have hturn := (still_turn h).grows
  unfold mkdir
  split
  next fault w₁ heq =>
  rw [heq] at hturn
  split
  · next hdir => split <;> exact ⟨hturn, fun _ => hdir⟩
  · exact ⟨hturn, by rintro ⟨⟩⟩
  · exact ⟨hturn, by rintro ⟨⟩⟩
  · exact ⟨hturn, by rintro ⟨⟩⟩
  · next hmissing =>
    split
    · exact ⟨hturn, by rintro ⟨⟩⟩
    · refine ⟨hturn.trans ⟨fun p => ?_, rfl, hturn.alone⟩, fun _ => set_self _ _ _⟩
      by_cases hp : p = dir
      · exact .inr ⟨hp ▸ hmissing, hp ▸ set_self _ _ _⟩
      · exact .inl (set_ne hp _)

theorem grows_mkdirs (h : Alone w) (dirs : List Text) :
    Grows w (mkdirs dirs w).2 ∧ ((mkdirs dirs w).1 = .ok () → ∀ dir ∈ dirs, (mkdirs dirs w).2.fs dir = .dir) := by
  induction dirs generalizing w with
  | nil => exact ⟨(Still.refl h).grows, by rintro - _ ⟨⟩⟩
  | cons dir dirs ih =>
    obtain ⟨hgrows, hmade⟩ := grows_mkdir h dir
    unfold mkdirs
    split
    · next e w₁ heq =>
      rw [heq] at hgrows
      exact ⟨hgrows, by rintro ⟨⟩⟩
    · next w₁ heq =>
      rw [heq] at hgrows hmade
      obtain ⟨hrest, hall⟩ := ih hgrows.alone
      exact ⟨hgrows.trans hrest, fun hok => List.forall_mem_cons.mpr ⟨hrest.dir (hmade rfl), hall hok⟩⟩

end

/-- No file is done away with. -/
theorem Grows.accounts (h : Grows w w') : Accounts w w' := by
  refine ⟨[], by rw [h.log, List.append_nil], fun path owner mode content hfile hne => absurd (h.stays ?_) hne⟩
  rw [hfile]
  rintro ⟨⟩

/-! ### One operation -/

/-- The operation put its file at its path, and that is logged. -/
def Op.Lands (w w' : World) : Op → Prop
  | .place path content mode owner _ => w'.fs path = .file owner mode content ∧
    ∃ added, w'.log = w.log ++ added ∧ .wrote path (MetaStore.digest content) ∈ added
  | .remove _ _ => False

theorem wrote_destroy {p hash} (h : .wrote q hash ∈ (w.destroy p).log) : .wrote q hash ∈ w.log := by
  rcases destroy_log w p with hlog | ⟨owner, mode, content, -, hlog⟩
  · rwa [hlog] at h
  · rw [hlog, List.mem_append, List.mem_singleton] at h
    exact h.resolve_right (by rintro ⟨⟩)

theorem rmForce_leaves (h : q ≠ path) : Leaves q w (w.rmForce path) := by
  refine ⟨fun _ _ _ hfile => (rmForce_fs h).symm.trans hfile, fun hash hwrote => ?_⟩
  unfold World.rmForce at hwrote
  split at hwrote
  · exact hwrote
  · exact wrote_destroy hwrote

/-- A file is put at its path and that is logged, or nothing is written there. -/
theorem place_at (hpath : ¬ Reserved path) (hany : expect ≠ .any) {r : Except String Outcome}
    (h : place w fault path content mode owner expect = (r, w')) :
    (r = .ok .done ∧ (Op.place path content mode owner expect).Lands w w') ∨ (r ≠ .ok .done ∧ Leaves path w w') := by
  have hrm : Leaves path w (w.rmForce (tempFor path)) := rmForce_leaves (ne_tempFor hpath path)
  obtain ⟨removed, hlog⟩ : ∃ removed, (w.rmForce (tempFor path)).log = w.log ++ removed := by
    unfold World.rmForce
    split
    · exact ⟨[], (List.append_nil _).symm⟩
    · rcases destroy_log w (tempFor path) with hlog | ⟨owner, mode, content, -, hlog⟩
      · exact ⟨[], hlog.trans (List.append_nil _).symm⟩
      · exact ⟨_, hlog⟩
  have hplaced := after_place w fault path content mode owner expect
  rw [h] at hplaced
  cases hplaced with
  | left hne => exact .inr ⟨fun hdone => hne (Except.ok.inj hdone), hrm⟩
  | cut hfree kept =>
    refine .inr ⟨by rintro ⟨⟩, hrm.trans ⟨fun _ _ _ hfile => ?_, fun _ => id⟩⟩
    rwa [set_ne (ne_tempFor hpath path)] at hfile
  | done hholds hfree =>
    refine .inl ⟨rfl, ?_, ?_⟩
    · unfold World.move
      rw [moveTarget_of_ne_dir (ne_dir_of_holds hany hholds)]
      exact set_self _ _ _
    · unfold World.move
      rw [moveTarget_of_ne_dir (ne_dir_of_holds hany hholds)]
      rcases destroy_log (w.rmForce (tempFor path)) path with hsame | ⟨o, m, c, -, hmore⟩
      · refine ⟨removed ++ [.wrote path (MetaStore.digest content)], ?_, by simp⟩
        rw [← List.append_assoc, ← hlog, ← hsame]
        rfl
      · refine ⟨removed ++ [.destroyed path (MetaStore.digest c)] ++ [.wrote path (MetaStore.digest content)], ?_, by simp⟩
        rw [← List.append_assoc, ← List.append_assoc, ← hlog, ← hmore]
        rfl

theorem remove_leaves (w : World) (fault : Fault) (path : Text) (sha256 : String) :
    Leaves path w (remove w fault path sha256).2 := by
  unfold remove
  split
  · exact .refl _ _
  · split
    · exact .refl _ _
    · split
      · exact .refl _ _
      · refine ⟨fun _ _ _ hfile => ?_, fun hash hwrote => wrote_destroy hwrote⟩
        rw [set_self] at hfile
        cases hfile
  all_goals exact .refl _ _

/-- What an operation does at its own path: its file lands there, or nothing is written. -/
theorem runOp_at (halone : Alone w) (hfits : op.Fits) {r : Except String Outcome} (h : runOp w op = (r, w')) :
    (r = .ok .done ∧ op.Lands w w') ∨ (Leaves op.path w w' ∧ (r = .ok .done → w'.fs op.path = .missing)) := by
  have hturn := still_turn halone
  unfold runOp at h
  split at h
  next fault w₁ heq =>
  rw [heq] at hturn
  have hleaves : Leaves op.path w w₁ := hturn.leaves _
  split at h
  · cases h
    exact .inr ⟨hleaves, by rintro ⟨⟩⟩
  · cases op with
    | place path content mode owner expect =>
      rcases place_at hfits.1 hfits.2.2 h with ⟨hdone, hfile, added, hlog, hwrote⟩ | ⟨hnot, hrest⟩
      · exact .inl ⟨hdone, hfile, added, hturn.log ▸ hlog, hwrote⟩
      · exact .inr ⟨hleaves.trans hrest, fun hdone => absurd hdone hnot⟩
    | remove path sha256 =>
      cases h
      exact .inr ⟨hleaves.trans (remove_leaves w₁ fault path sha256), fun hdone => remove_done (Except.ok.inj hdone)⟩

/-- Nor is anything written elsewhere. -/
theorem runOp_leaves (halone : Alone w) (hguarded : op.Guarded) (hq : ¬ Reserved q) (hne : q ≠ op.path)
    {r : Except String Outcome} (h : runOp w op = (r, w')) : w'.fs q = w.fs q ∧ Leaves q w w' := by
  have hsame : w'.fs q = w.fs q := ((runOp_actsAt h).others q hq hne).trans (congrFun (still_turn halone).fs q)
  refine ⟨hsame, fun _ _ _ hfile => hsame ▸ hfile, fun hash hwrote => ?_⟩
  obtain ⟨added, hlog, hdoes⟩ := (runOp_acts hguarded h).1.log.forall_added
  rw [hlog] at hwrote
  exact (List.mem_append.mp hwrote).resolve_right fun hadded => hne (hdoes _ hadded)

/-! ### All of them -/

/-- What came of a commit at one path: nothing was written there, and what was done there was a removal; or one of the
    operations landed, with the directories made, and is answered so. -/
inductive Fate (dirs : List Text) (ops : List Op) (q : Text) (r : Except String (List Outcome)) (w w' : World) : Prop
  | left (leaves : Leaves q w w')
      (removed : ∀ outcomes, r = .ok outcomes → ∀ e ∈ ops.zip outcomes, e.1.path = q → e.2 = .done →
        ∀ owner mode content, w'.fs q ≠ .file owner mode content)
  | landed (op : Op) (mem : op ∈ ops) (path : op.path = q) (lands : op.Lands w w') (made : ∀ dir ∈ dirs, w'.fs dir = .dir)
      (done : ∀ outcomes, r = .ok outcomes → ∀ e ∈ ops.zip outcomes, e.1.path = q → e.2 = .done)

theorem Op.Lands.congr {w₁ : World} (h : op.Lands w w₁) (hfs : w'.fs op.path = w₁.fs op.path)
    (hlog : ∃ added, w'.log = w₁.log ++ added) : op.Lands w w' := by
  cases op with
  | place path content mode owner expect =>
    obtain ⟨hfile, added, hadded, hwrote⟩ := h
    obtain ⟨more, hmore⟩ := hlog
    exact ⟨hfs.trans hfile, added ++ more, by rw [hmore, hadded, List.append_assoc], List.mem_append_left _ hwrote⟩
  | remove path sha256 => exact h

theorem Op.Lands.before {w₁ : World} (h : op.Lands w₁ w') (hlog : ∃ added, w₁.log = w.log ++ added) : op.Lands w w' := by
  cases op with
  | place path content mode owner expect =>
    obtain ⟨hfile, added, hadded, hwrote⟩ := h
    obtain ⟨first, hfirst⟩ := hlog
    exact ⟨hfile, first ++ added, by rw [hadded, hfirst, List.append_assoc], List.mem_append_right _ hwrote⟩
  | remove path sha256 => exact h

theorem alone_runOp (halone : Alone w) {r : Except String Outcome} (h : runOp w op = (r, w')) : Alone w' := by
  intro t ht
  rw [(runOp_actsAt h).turns] at ht
  exact (still_turn halone).alone t ht

theorem runOps_leaves (halone : Alone w) (hguarded : ∀ op ∈ ops, op.Guarded) (hq : ¬ Reserved q)
    (hne : ∀ op ∈ ops, op.path ≠ q) {r : Except String (List Outcome)} (h : runOps ops w = (r, w')) :
    w'.fs q = w.fs q ∧ Leaves q w w' := by
  induction ops generalizing w r with
  | nil =>
    cases h
    exact ⟨rfl, .refl _ _⟩
  | cons op ops ih =>
    obtain ⟨hhead, htail⟩ := List.forall_mem_cons.mp hguarded
    obtain ⟨hneHead, hneTail⟩ := List.forall_mem_cons.mp hne
    rcases runOps_cons h with ⟨e, hop, -⟩ | ⟨outcome, w₁, r', hop, hrest, -⟩
    · exact runOp_leaves halone hhead hq hneHead.symm hop
    · obtain ⟨hfs, hleaves⟩ := runOp_leaves halone hhead hq hneHead.symm hop
      obtain ⟨hfs', hleaves'⟩ := ih (alone_runOp halone hop) htail hneTail hrest
      exact ⟨hfs'.trans hfs, hleaves.trans hleaves'⟩

theorem runOps_grown (hguarded : ∀ op ∈ ops, op.Guarded) {r : Except String (List Outcome)} (h : runOps ops w = (r, w')) :
    ∃ added, w'.log = w.log ++ added :=
  (runOps_acts hguarded h).1.log.forall_added.imp fun _ hadded => hadded.1

/-- Operations on different paths: what came of them at one path. -/
theorem runOps_fate (halone : Alone w) (hfits : ∀ op ∈ ops, op.Fits) (hguarded : ∀ op ∈ ops, op.Guarded)
    (hpaths : ops.Pairwise fun a b => a.path ≠ b.path) (hq : ¬ Reserved q) {r : Except String (List Outcome)}
    (h : runOps ops w = (r, w')) : Fate [] ops q r w w' := by
  induction ops generalizing w r with
  | nil =>
    cases h
    exact .left (.refl _ _) (by simp)
  | cons op ops ih =>
    obtain ⟨hother, hrest⟩ := List.pairwise_cons.mp hpaths
    obtain ⟨hfit, hfitRest⟩ := List.forall_mem_cons.mp hfits
    obtain ⟨hguard, hguardRest⟩ := List.forall_mem_cons.mp hguarded
    have hzip : ∀ {outcome : Outcome} {r' : Except String (List Outcome)} {P : Op × Outcome → Prop}, P (op, outcome) →
        (∀ outcomes, r' = .ok outcomes → ∀ e ∈ ops.zip outcomes, P e) →
          ∀ outcomes, r'.map (outcome :: ·) = .ok outcomes → ∀ e ∈ (op :: ops).zip outcomes, P e := by
      intro outcome r' P hhead htail outcomes hok
      cases r' with
      | error e => cases hok
      | ok rest =>
        cases hok
        exact List.forall_mem_cons.mpr ⟨hhead, htail rest rfl⟩
    rcases runOps_cons h with ⟨e, hop, rfl⟩ | ⟨outcome, w₁, r', hop, hops, rfl⟩
    · by_cases hpath : op.path = q
      · subst hpath
        rcases runOp_at halone hfit hop with ⟨hdone, -⟩ | ⟨hleaves, -⟩
        · cases hdone
        · exact .left hleaves (by rintro _ ⟨⟩)
      · exact .left (runOp_leaves halone hguard hq (Ne.symm hpath) hop).2 (by rintro _ ⟨⟩)
    · have halone₁ := alone_runOp halone hop
      by_cases hpath : op.path = q
      · subst hpath
        -- Nothing more is done at the path of the first.
        obtain ⟨hfs, hleaves'⟩ := runOps_leaves halone₁ hguardRest hq (fun op' hop' => (hother op' hop').symm) hops
        have hnone : ∀ (outcomes : List Outcome), ∀ e ∈ ops.zip outcomes, e.1.path ≠ op.path := fun outcomes e he =>
          (hother e.1 (List.of_mem_zip he).1).symm
        rcases runOp_at halone hfit hop with ⟨hdone, hlands⟩ | ⟨hleaves, hgone⟩
        · refine .landed op List.mem_cons_self rfl (hlands.congr hfs (runOps_grown hguardRest hops)) (by rintro _ ⟨⟩) ?_
          exact hzip (fun _ => Except.ok.inj hdone) fun outcomes _ e he hsame => absurd hsame (hnone outcomes e he)
        · refine .left (hleaves.trans hleaves') ?_
          refine hzip (fun _ hdone owner mode content hfile => ?_) fun outcomes _ e he hsame =>
            absurd hsame (hnone outcomes e he)
          rw [hfs, hgone (congrArg Except.ok hdone)] at hfile
          cases hfile
      · have hleaves := (runOp_leaves halone hguard hq (Ne.symm hpath) hop).2
        have hgrown := (runOp_acts hguard hop).1.log.forall_added.imp fun _ hadded => hadded.1
        cases ih halone₁ hfitRest hguardRest hrest hops with
        | left leaves removed =>
          exact .left (hleaves.trans leaves) (hzip (fun hsame => absurd hsame hpath) removed)
        | landed op' mem path lands made done =>
          exact .landed op' (List.mem_cons_of_mem _ mem) path (lands.before hgrown) made
            (hzip (fun hsame => absurd hsame hpath) done)

theorem runOps_alone (halone : Alone w) {r : Except String (List Outcome)} (h : runOps ops w = (r, w')) :
    Alone w' ∧ ∀ p, w'.fs p = .dir ↔ w.fs p = .dir := by
  induction ops generalizing w r with
  | nil =>
    cases h
    exact ⟨halone, fun _ => Iff.rfl⟩
  | cons op ops ih =>
    have hdirs : ∀ {r₁ w₁}, runOp w op = (r₁, w₁) → ∀ p, w₁.fs p = .dir ↔ w.fs p = .dir := fun hop p => by
      rw [(runOp_actsAt hop).dirs, (still_turn halone).fs]
    rcases runOps_cons h with ⟨e, hop, -⟩ | ⟨outcome, w₁, r', hop, hrest, -⟩
    · exact ⟨alone_runOp halone hop, hdirs hop⟩
    · obtain ⟨halone', hlater⟩ := ih (alone_runOp halone hop) hrest
      exact ⟨halone', fun p => (hlater p).trans (hdirs hop p)⟩

/-- Of every file that the operations do away with, the log says so. -/
theorem runOps_accounts (halone : Alone w) {r : Except String (List Outcome)} (h : runOps ops w = (r, w')) :
    Accounts w w' := by
  induction ops generalizing w r with
  | nil =>
    cases h
    exact .refl _
  | cons op ops ih =>
    have hturn : Accounts w w.turn.2 := (still_turn halone).grows.accounts
    rcases runOps_cons h with ⟨e, hop, -⟩ | ⟨outcome, w₁, r', hop, hrest, -⟩
    · exact hturn.trans (runOp_accounts hop)
    · exact (hturn.trans (runOp_accounts hop)).trans (ih (alone_runOp halone hop) hrest)

theorem runOps_singleton {r : Except String (List Outcome)} (h : runOps [op] w = (r, w')) :
    ∃ r', runOp w op = (r', w') ∧ ∀ outcomes, r = .ok outcomes → ∃ outcome, outcomes = [outcome] ∧ r' = .ok outcome := by
  rcases runOps_cons h with ⟨e, hop, rfl⟩ | ⟨outcome, w₁, r', hop, hrest, rfl⟩
  · exact ⟨_, hop, by rintro _ ⟨⟩⟩
  · cases hrest
    refine ⟨_, hop, ?_⟩
    rintro _ ⟨⟩
    exact ⟨outcome, rfl, rfl⟩

/-! ### A commit -/

/-- A commit comes to nothing, or its directories are made and its operations run. -/
theorem commit_alone (halone : Alone w) {r : Except String (List Outcome)} (h : w.commit dirs ops = (r, w')) :
    ((∃ e, r = .error e) ∧ Grows w w') ∨
      ∃ w₁ r₁ w₂, Grows w w₁ ∧ (∀ dir ∈ dirs, w₁.fs dir = .dir) ∧
        ((∀ dir ∈ dirs, dir ≠ manifestPath) → w₁.fs manifestPath = w.fs manifestPath) ∧
          runOps ops w₁ = (r₁, w₂) ∧ Still w₂ w' ∧ ∀ outcomes, r = .ok outcomes → r₁ = .ok outcomes := by
  have hcall := (still_call halone).grows
  have hmanifest := (quiet_call w).manifest
  unfold World.commit at h
  split at h
  · next e w₁ heq =>
    cases h
    rw [heq] at hcall
    exact .inl ⟨⟨e, rfl⟩, hcall⟩
  · next w₁ heq =>
    rw [heq] at hcall hmanifest
    obtain ⟨hgrows, hmade⟩ := grows_mkdirs hcall.alone dirs
    have hquiet : (∀ dir ∈ dirs, dir ≠ manifestPath) → (mkdirs dirs w₁).2.fs manifestPath = w.fs manifestPath :=
      fun hdirs => (quiet_mkdirs hdirs).manifest.trans hmanifest
    split at h
    · next e w₂ heq₂ =>
      cases h
      rw [heq₂] at hgrows
      exact .inl ⟨⟨e, rfl⟩, hcall.trans hgrows⟩
    · next w₂ heq₂ =>
      rw [heq₂] at hgrows hmade hquiet
      refine .inr ⟨w₂, (runOps ops w₂).1, (runOps ops w₂).2, hcall.trans hgrows, hmade rfl, hquiet, rfl, ?_⟩
      have halone' := (@runOps_alone _ w₂ _ ops hgrows.alone _ rfl).1
      split at h
      · next e w₃ heq₃ =>
        cases h
        rw [heq₃] at halone' ⊢
        exact ⟨.refl halone', by rintro _ ⟨⟩⟩
      · next outcomes w₃ heq₃ =>
        rw [heq₃] at halone' ⊢
        have hlast := still_call halone'
        split at h
        · next e w₄ heq₄ =>
          cases h
          rw [heq₄] at hlast
          exact ⟨hlast, by rintro _ ⟨⟩⟩
        · next w₄ heq₄ =>
          cases h
          rw [heq₄] at hlast
          exact ⟨hlast, fun _ => id⟩

theorem commit_dirs (halone : Alone w) {r : Except String (List Outcome)} (h : w.commit dirs ops = (r, w')) :
    Alone w' ∧ ∀ p, w.fs p = .dir → w'.fs p = .dir := by
  rcases commit_alone halone h with ⟨-, hgrows⟩ | ⟨w₁, r₁, w₂, hgrows, -, -, hops, hlast, -⟩
  · exact ⟨hgrows.alone, fun p => hgrows.dir⟩
  · refine ⟨hlast.alone, fun p hp => ?_⟩
    rw [hlast.fs]
    exact ((runOps_alone hgrows.alone hops).2 p).mpr (hgrows.dir hp)

theorem commit_accounts (halone : Alone w) {r : Except String (List Outcome)} (h : w.commit dirs ops = (r, w')) :
    Accounts w w' := by
  rcases commit_alone halone h with ⟨-, hgrows⟩ | ⟨w₁, r₁, w₂, hgrows, -, -, hops, hlast, -⟩
  · exact hgrows.accounts
  · exact (hgrows.accounts.trans (runOps_accounts hgrows.alone hops)).trans hlast.grows.accounts

theorem commit_fate (halone : Alone w) (hfits : ∀ op ∈ ops, op.Fits) (hguarded : ∀ op ∈ ops, op.Guarded)
    (hpaths : ops.Pairwise fun a b => a.path ≠ b.path) (hq : ¬ Reserved q) {r : Except String (List Outcome)}
    (h : w.commit dirs ops = (r, w')) : Fate dirs ops q r w w' := by
  rcases commit_alone halone h with ⟨⟨e, rfl⟩, hgrows⟩ | ⟨w₁, r₁, w₂, hgrows, hmade, -, hops, hlast, hr⟩
  · exact .left (hgrows.leaves q) (by rintro _ ⟨⟩)
  · have hdirs := (runOps_alone hgrows.alone hops).2
    cases runOps_fate hgrows.alone hfits hguarded hpaths hq hops with
    | left leaves removed =>
      refine .left ((hgrows.leaves q).trans (leaves.trans (hlast.leaves q))) fun outcomes hok e he hpath hdone => ?_
      rw [hlast.fs]
      exact removed outcomes (hr outcomes hok) e he hpath hdone
    | landed op mem path lands made done =>
      refine .landed op mem path ?_ (fun dir hdir => ?_) fun outcomes hok => done outcomes (hr outcomes hok)
      · refine (lands.congr (by rw [hlast.fs]) ⟨[], by rw [hlast.log, List.append_nil]⟩).before ⟨[], ?_⟩
        rw [hgrows.log, List.append_nil]
      · rw [hlast.fs, hdirs]
        exact hmade dir hdir

/-! ### The manifest -/

section

variable [Serde] {old after : Manifest}

/-- The manifest is written, or that fails; or it is moved into a directory, which its path is or leads to. -/
theorem manifestOp_ok {outcome : Outcome} (h : runOp w (manifestOp after) = (.ok outcome, w')) :
    (∃ why, outcome = .failed why) ∨ w'.fs manifestPath = .file .root Manifest.mode after.render ∨
      w'.fs manifestPath = w.fs manifestPath ∧ nodeAt w'.fs manifestPath = .dir := by
  have hturn := quiet_turn w
  unfold runOp manifestOp at h
  split at h
  next fault w₁ heq =>
  rw [heq] at hturn
  have hsame : (w₁.rmForce (tempFor manifestPath)).fs manifestPath = w.fs manifestPath := by
    rw [rmForce_fs (tempFor_ne_manifestPath manifestPath).symm, hturn.manifest]
  split at h
  · cases h
  · have hplaced := after_place w₁ fault manifestPath after.render Manifest.mode .root .any
    dsimp only at h
    rw [h] at hplaced
    cases hplaced with
    | left hne hexpected =>
      cases outcome with
      | done => exact absurd rfl hne
      | changed => exact absurd rfl (hexpected rfl)
      | failed why => exact .inl ⟨why, rfl⟩
    | done hholds hfree =>
      refine .inr ?_
      by_cases hdir : nodeAt (w₁.rmForce (tempFor manifestPath)).fs manifestPath = .dir
      · have hpath :
            ((w₁.rmForce (tempFor manifestPath)).move manifestPath .root Manifest.mode after.render).fs manifestPath =
              (w₁.rmForce (tempFor manifestPath)).fs manifestPath :=
          (set_ne (moveTarget_ne hdir not_reserved_manifestPath).symm _).trans (congrFun (destroy_fs ..) _)
        exact .inr ⟨hpath.trans hsame, (nodeAt_dir_congr hpath (move_dir hfree)).mpr hdir⟩
      · unfold World.move
        rw [moveTarget_of_ne_dir hdir]
        exact .inl (set_self ((w₁.rmForce (tempFor manifestPath)).destroy manifestPath) manifestPath _)

/-- A directory, or what may lead to one. -/
def Inode.Leads (node : Inode) : Prop := node = .dir ∨ ∃ target, node = .symlink target

omit [Deps] [Serde] in
theorem leads_of_nodeAt {fs : Fs} (h : nodeAt fs path = .dir) : (fs path).Leads := by
  unfold nodeAt at h
  split at h
  · next hlink => exact .inr ⟨[], hlink⟩
  · next target _ hlink => exact .inr ⟨target, hlink⟩
  · exact .inl h

omit [Deps] in
/-- Where the manifest's path may lead to a directory, nothing is read there. -/
theorem manifestAt_of_leads [RustDebug] {node : Inode} (h : node.Leads) : manifestAt node = .empty := by
  rcases h with rfl | ⟨target, rfl⟩ <;> rfl

/-- The manifest that is left when it was saved; where its path leads to a directory, it is moved into that. -/
theorem saveManifest_leaves (hdirs : ∀ dir ∈ dirs, dir ≠ manifestPath) (h : saveManifest old after dirs w = (.ok (), w')) :
    (after = old ∧ w' = w) ∨ w'.fs manifestPath = .file .root Manifest.mode after.render ∨
      w'.fs manifestPath = w.fs manifestPath ∧ (w.fs manifestPath).Leads := by
  simp only [saveManifest, Calls.saveManifest, World.calls_commit] at h
  split at h
  · next hsame =>
    cases h
    exact .inl ⟨hsame, rfl⟩
  · split at h
    · cases h
    · cases h
    · next outcomes w₃ hnot heq =>
      cases h
      obtain ⟨w₁, hfirst, ⟨⟨e, ⟨⟩⟩, -⟩ | ⟨r₁, w₂, hops, hlast, hr⟩⟩ := commit_cases hdirs heq
      obtain ⟨r₂, hop, hone⟩ := runOps_singleton hops
      obtain ⟨outcome, rfl, rfl⟩ := hone outcomes (hr outcomes rfl)
      rw [hlast.manifest]
      rcases manifestOp_ok hop with ⟨why, rfl⟩ | hwritten | ⟨hstays, hdir⟩
      · exact absurd rfl (hnot why)
      · exact .inr (.inl hwritten)
      · have hsame := hstays.trans hfirst.manifest
        exact .inr (.inr ⟨hsame, hsame ▸ leads_of_nodeAt hdir⟩)

/-- What came of the manifest: it is as it was, and where that is the end of a sync it has to be, or there is a directory
    that it was moved into; or it is the one to be left. And nothing else is written. -/
structure Saved (old after : Manifest) (r : Except String Unit) (w w' : World) : Prop where
  leaves : ∀ q, ¬ Reserved q → q ≠ manifestPath → Leaves q w w'
  stays : ∀ q, ¬ Reserved q → q ≠ manifestPath → ∀ owner mode content,
    w.fs q = .file owner mode content → w'.fs q = .file owner mode content
  dirs : ∀ p, w.fs p = .dir → w'.fs p = .dir
  log : ∃ added, w'.log = w.log ++ added
  manifest : (w'.fs manifestPath = w.fs manifestPath ∧ (r = .ok () → after = old ∨ nodeAt w'.fs manifestPath = .dir)) ∨
    w'.fs manifestPath = .file .root Manifest.mode after.render

theorem saveManifest_alone (halone : Alone w) (hdirs : ∀ dir ∈ dirs, dir ≠ manifestPath) :
    Saved old after (saveManifest old after dirs w).1 w (saveManifest old after dirs w).2 := by
  by_cases hsame : after = old
  · rw [saveManifest, Calls.saveManifest, if_pos hsame]
    exact ⟨fun q _ _ => .refl q w, fun _ _ _ _ _ _ => id, fun _ => id, ⟨[], (List.append_nil _).symm⟩,
      .inl ⟨rfl, fun _ => .inl hsame⟩⟩
  · have hsaves := saveManifest_saves old after w hdirs
    have hok : (saveManifest old after dirs w).1 = .ok () → ∃ outcomes, (∀ why, outcomes ≠ [.failed why]) ∧
        (w.commit dirs [manifestOp after]).1 = .ok outcomes := by
      intro hok
      rw [saveManifest, Calls.saveManifest, if_neg hsame, World.calls_commit] at hok
      split at hok
      · cases hok
      · cases hok
      · next hnot heq => exact ⟨_, fun why h => hnot why (by rw [← h]), by rw [heq]⟩
    generalize (saveManifest old after dirs w).1 = r at hok ⊢
    rw [saveManifest_world hsame] at hsaves ⊢
    cases hcommit : w.commit dirs [manifestOp after] with
    | mk r₁ w' =>
      rw [hcommit] at hsaves hok
      obtain ⟨added, hlog, hadded⟩ := hsaves.log.forall_added
      have hwrote : ∀ q, ¬ Reserved q → q ≠ manifestPath → ∀ hash, .wrote q hash ∈ w'.log → .wrote q hash ∈ w.log := by
        intro q hq hne hash hwrote
        rw [hlog] at hwrote
        refine (List.mem_append.mp hwrote).resolve_right fun hmem => ?_
        exact (hadded _ hmem).elim hne hq
      rcases commit_alone halone hcommit with ⟨⟨e, rfl⟩, hgrows⟩ | ⟨w₁, r₂, w₂, hgrows, -, hquiet, hops, hlast, hr⟩
      · refine ⟨fun q hq hne => ⟨(hgrows.leaves q).file, hwrote q hq hne⟩, fun q _ _ owner mode content hfile => ?_,
          fun p => hgrows.dir, ⟨added, hlog⟩, hsaves.manifest.imp (fun h => ⟨h, fun hdone => ?_⟩) And.left⟩
        · rw [hgrows.stays (by rw [hfile]; rintro ⟨⟩), hfile]
        · obtain ⟨outcomes, -, ⟨⟩⟩ := hok hdone
      · obtain ⟨r₃, hop, hone⟩ := runOps_singleton hops
        have hothers : ∀ q, ¬ Reserved q → q ≠ manifestPath → w'.fs q = w₁.fs q := fun q hq hne => by
          rw [hlast.fs, (runOp_actsAt hop).others q hq hne, (still_turn hgrows.alone).fs]
        have hdirs' := (commit_dirs halone hcommit).2
        refine ⟨fun q hq hne => ⟨fun owner mode content hfile => ?_, hwrote q hq hne⟩,
          fun q hq hne owner mode content hfile => ?_, hdirs', ⟨added, hlog⟩, ?_⟩
        · exact (hgrows.leaves q).file owner mode content (hothers q hq hne ▸ hfile)
        · rw [hothers q hq hne, hgrows.stays (by rw [hfile]; rintro ⟨⟩), hfile]
        · by_cases hdone : r = .ok ()
          · obtain ⟨outcomes, hnot, heq⟩ := hok hdone
            obtain ⟨outcome, rfl, houtcome⟩ := hone outcomes (hr outcomes heq)
            subst houtcome
            rw [hlast.fs]
            rcases manifestOp_ok hop with ⟨why, rfl⟩ | hwritten | ⟨hstays, hmoved⟩
            · exact absurd rfl (hnot why)
            · exact .inr hwritten
            · exact .inl ⟨hstays.trans (hquiet hdirs), fun _ => .inr hmoved⟩
          · exact hsaves.manifest.imp (fun h => ⟨h, fun hdone' => absurd hdone' hdone⟩) And.left

theorem saveManifest_accounts (halone : Alone w) : Accounts w (saveManifest old after dirs w).2 := by
  by_cases hsame : after = old
  · rw [saveManifest, Calls.saveManifest, if_pos hsame]
    exact .refl w
  · rw [saveManifest_world hsame]
    exact commit_accounts halone rfl

end

end Guest
end PveMeta
