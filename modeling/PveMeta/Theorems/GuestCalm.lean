import PveMeta.Theorems.GuestDecided
import PveMeta.Theorems.GuestSync

/-! # A commit that nothing disturbs

With nobody else at the files and no call that fails, directories are made if their parents are there, and an operation is
done if what it expects is there, its directory is, no directory is in the way of its temp file, no name is too long, and
the owner can be set. -/

namespace PveMeta
namespace Guest

variable [Deps] {w w' : World} {path dir p : Text} {fault : Fault} {content : ByteArray} {mode : Nat} {owner : Owner}
  {expect : Expect} {sha256 : String} {r : Except String Outcome}

/-! ### Turns that do nothing -/

/-- Nobody else does anything to the files. -/
def Alone (w : World) : Prop := ∀ t ∈ w.turns, t.others = none

section

omit [Deps]

theorem Alone.turn (h : Alone w) : w.turn.2.fs = w.fs ∧ Alone w.turn.2 := by
  unfold World.turn
  split
  · exact ⟨rfl, h⟩
  · next t turns hturns =>
    have hnone : t.others = none := h t (hturns ▸ List.mem_cons_self)
    rw [hnone]
    exact ⟨rfl, fun t' ht' => h t' (hturns ▸ List.mem_cons_of_mem t ht')⟩

theorem turn_calm (h : w.turns = []) : w.turn = (.none, w) := by
  unfold World.turn
  rw [h]

theorem call_calm (h : w.turns = []) : w.call = (.ok (), w) := by
  rw [World.call, turn_calm h]
  rfl

end

/-- What a probe of the paths sees. -/
def probed (fs : Fs) (paths : List Text) : Nodes := paths.map fun path => (path, (fs path).lstat)

theorem at_probed {fs : Fs} {paths : List Text} (h : path ∈ paths) : (probed fs paths).at path = (fs path).lstat := by
  unfold Nodes.at
  induction paths with
  | nil => cases h
  | cons path' paths ih =>
    rw [probed, List.map_cons, Assoc.get?_cons]
    split
    · next heq =>
      cases heq
      rfl
    · next hne => exact ih ((List.mem_cons.mp h).resolve_left (Ne.symm hne))

/-! ### Directories -/

section

omit [Deps]

theorem lt_child (dir name : Text) : dir < dir ++ '/' :: name := by
  induction dir with
  | nil => exact List.nil_lt_cons _ _
  | cons c dir ih => exact List.cons_lt_cons_self.mpr ih

/-- The files with the directories made. -/
def made (fs : Fs) (dirs : List Text) : Fs := fun p => if p ∈ dirs then .dir else fs p

theorem made_nil (fs : Fs) : made fs [] = fs := rfl

theorem made_cons {fs : Fs} {dirs : List Text} : made (Function.update fs dir .dir) dirs = made fs (dir :: dirs) := by
  funext p
  by_cases hp : p = dir
  · simp [made, hp]
  · simp [made, hp]

theorem set_self (w : World) (path : Text) (node : Inode) : (w.set path node).fs path = node := Function.update_self _ _ _

theorem set_ne (h : p ≠ path) (node : Inode) : (w.set path node).fs p = w.fs p := Function.update_of_ne h _ _

theorem canHold_of_dir {fs : Fs} (h : fs dir = .dir) : canHold fs dir = true := by
  rw [canHold, nodeAt_of_plain (by simp [h]), h]
  exact Bool.or_true _

theorem canHold_of_parent {fs : Fs} (h : dir = [] ∨ fs dir = .dir) : canHold fs dir = true := by
  rcases h with rfl | h
  · rfl
  · exact canHold_of_dir h

theorem canHold_of_missing {fs : Fs} (h : fs dir = .missing) (hroot : dir ≠ []) : canHold fs dir = false := by
  rw [canHold, nodeAt_of_plain (by simp [h]), h]
  simpa using hroot

/-- A directory is one as long as there are no fewer of them. -/
theorem nodeAt_dir_mono {fs fs' : Fs} (hpath : fs' path = fs path) (hdirs : ∀ p, fs p = .dir → fs' p = .dir)
    (h : nodeAt fs path = .dir) : nodeAt fs' path = .dir := by
  unfold nodeAt at h ⊢
  rw [hpath]
  split at h
  · rfl
  · exact hdirs _ h
  · exact h

theorem canHold_mono {fs fs' : Fs} (hpath : fs' dir = fs dir) (hdirs : ∀ p, fs p = .dir → fs' p = .dir)
    (h : canHold fs dir = true) : canHold fs' dir = true := by
  rw [canHold, Bool.or_eq_true, beq_iff_eq, beq_iff_eq] at h ⊢
  exact h.imp_right (nodeAt_dir_mono hpath hdirs)

theorem creatable_eq_true {fs : Fs} : creatable fs path = true ↔ canHold fs (splitName path).1 = true ∧ fits path = true :=
  Bool.and_eq_true _ _ ▸ Iff.rfl

theorem mkdir_calm (h : w.turns = []) (hmissing : w.fs dir = .missing) (hhold : creatable w.fs dir = true) :
    mkdir w dir = (.ok (), w.set dir .dir) := by
  rw [mkdir, turn_calm h]
  dsimp only
  rw [hmissing]
  dsimp only
  rw [if_neg (by simp [hhold])]

/-- Directories in order, each missing, are made if the parent of each is there or among them. -/
theorem mkdirs_calm {dirs : List Text} (h : w.turns = []) (hsorted : dirs.Pairwise (· < ·))
    (hmissing : ∀ dir ∈ dirs, w.fs dir = .missing) (hfits : ∀ dir ∈ dirs, fits dir = true)
    (hparent : ∀ dir ∈ dirs, canHold w.fs (splitName dir).1 = true ∨ (splitName dir).1 ∈ dirs ∧ (splitName dir).1 < dir) :
    mkdirs dirs w = (.ok (), { w with fs := made w.fs dirs }) := by
  induction dirs generalizing w with
  | nil => rfl
  | cons dir dirs ih =>
    obtain ⟨hfirst, hrest⟩ := List.pairwise_cons.mp hsorted
    have hhold : canHold w.fs (splitName dir).1 = true := by
      rcases hparent dir List.mem_cons_self with hhold | ⟨hmem, hlt⟩
      · exact hhold
      · -- A parent comes before its child, and nothing comes before the first.
        rcases List.mem_cons.mp hmem with heq | hmem
        · exact absurd (heq ▸ hlt) (lt_irrefl _)
        · exact absurd (hfirst _ hmem) hlt.asymm
    rw [mkdirs,
      mkdir_calm h (hmissing dir List.mem_cons_self) (creatable_eq_true.mpr ⟨hhold, hfits dir List.mem_cons_self⟩)]
    have hlater : mkdirs dirs (w.set dir .dir) = (.ok (), { w.set dir .dir with fs := made (w.set dir .dir).fs dirs }) := by
      refine ih h hrest (fun d hd => ?_) (fun d hd => hfits d (List.mem_cons_of_mem _ hd)) fun d hd => ?_
      · rw [set_ne (hfirst d hd).ne']
        exact hmissing d (List.mem_cons_of_mem _ hd)
      · by_cases hp : (splitName d).1 = dir
        · rw [hp]
          exact .inl (canHold_of_dir (set_self w dir .dir))
        · rcases hparent d (List.mem_cons_of_mem _ hd) with hhold' | ⟨hmem, hlt⟩
          · refine .inl (canHold_mono (set_ne hp _) (fun q hq => ?_) hhold')
            by_cases hqd : q = dir
            · rw [hqd, set_self]
            · rwa [set_ne hqd]
          · exact .inr ⟨(List.mem_cons.mp hmem).resolve_left hp, hlt⟩
    dsimp only
    rw [hlater, ← made_cons]
    rfl

theorem mkdir_ok (h : w.turns = []) (hok : mkdir w dir = (.ok (), w')) :
    w' = w.set dir .dir ∧ (w.fs dir = .dir ∨ w.fs dir = .missing) := by
  rw [mkdir, turn_calm h] at hok
  dsimp only at hok
  split at hok
  · next hnode =>
    cases hok
    refine ⟨?_, .inl hnode⟩
    rw [World.set, Function.update_eq_self_iff.mpr hnode.symm]
  · cases hok
  · cases hok
  · cases hok
  · next hnode =>
    split at hok
    · cases hok
    · cases hok
      exact ⟨rfl, .inr hnode⟩

/-- Directories that were made without an error are there, where nothing else was, and nothing else is changed. -/
theorem mkdirs_ok {dirs : List Text} (h : w.turns = []) (hok : mkdirs dirs w = (.ok (), w')) :
    w' = { w with fs := made w.fs dirs } ∧ ∀ dir ∈ dirs, w.fs dir = .dir ∨ w.fs dir = .missing := by
  induction dirs generalizing w with
  | nil =>
    cases hok
    exact ⟨rfl, by rintro _ ⟨⟩⟩
  | cons dir dirs ih =>
    rw [mkdirs] at hok
    split at hok
    · cases hok
    · next w₁ hmkdir =>
      obtain ⟨rfl, hnode⟩ := mkdir_ok h hmkdir
      obtain ⟨hworld, hrest⟩ := @ih (w.set dir .dir) h hok
      refine ⟨by rw [hworld, ← made_cons]; rfl, List.forall_mem_cons.mpr ⟨hnode, fun d hd => ?_⟩⟩
      by_cases hsame : d = dir
      · rwa [hsame]
      · rw [← set_ne hsame]
        exact hrest d hd

/-- A directory that cannot be made, whichever of the others are, ends it. -/
theorem mkdirs_stuck {dirs : List Text} (h : w.turns = []) (hdir : dir ∈ dirs) (hmissing : w.fs dir = .missing)
    (hstuck : ∀ ds ⊆ dirs, creatable (made w.fs ds) dir = false) : ∃ e, (mkdirs dirs w).1 = .error e := by
  induction dirs generalizing w with
  | nil => cases hdir
  | cons d dirs ih =>
    rw [mkdirs]
    by_cases hd : dir = d
    · subst hd
      have hnot : creatable w.fs dir = false := hstuck [] (List.nil_subset _)
      rw [mkdir, turn_calm h]
      dsimp only
      rw [hmissing]
      dsimp only
      rw [if_pos (Or.inr hnot)]
      exact ⟨_, rfl⟩
    · split
      · exact ⟨_, rfl⟩
      · next w₁ heq =>
        obtain ⟨rfl, -⟩ := mkdir_ok h heq
        refine ih h ((List.mem_cons.mp hdir).resolve_left hd) (by rwa [set_ne hd]) fun ds hds => ?_
        show creatable (made (Function.update w.fs d .dir) ds) dir = false
        rw [made_cons]
        exact hstuck (d :: ds) (List.cons_subset_cons d hds)

end

/-! ### Directories stay -/

omit [Deps] in
theorem set_dir {node : Inode} (h : w.fs path ≠ .dir) (hnode : node ≠ .dir) (p : Text) :
    (w.set path node).fs p = .dir ↔ w.fs p = .dir := by
  by_cases hp : p = path
  · rw [hp, set_self]
    exact iff_of_false hnode h
  · rw [set_ne hp]

theorem rmForce_dir (p : Text) : (w.rmForce path).fs p = .dir ↔ w.fs p = .dir := by
  unfold World.rmForce
  split
  · exact Iff.rfl
  · next hnot =>
    have hset := @set_dir (w.destroy path) path .missing (by rwa [destroy_fs]) (by rintro ⟨⟩) p
    rwa [destroy_fs] at hset

omit [Deps] in
theorem nodeAt_dir_congr {fs fs' : Fs} (hpath : fs' path = fs path) (hdirs : ∀ p, fs' p = .dir ↔ fs p = .dir) :
    nodeAt fs' path = .dir ↔ nodeAt fs path = .dir :=
  ⟨nodeAt_dir_mono hpath.symm fun p => (hdirs p).mp, nodeAt_dir_mono hpath fun p => (hdirs p).mpr⟩

omit [Deps] in
theorem creatable_congr {fs fs' : Fs} (hparent : fs' (splitName path).1 = fs (splitName path).1)
    (hdirs : ∀ p, fs' p = .dir ↔ fs p = .dir) : creatable fs' path = creatable fs path := by
  rw [Bool.eq_iff_iff, creatable_eq_true, creatable_eq_true]
  exact and_congr_left fun _ =>
    ⟨canHold_mono hparent.symm fun p => (hdirs p).mp, canHold_mono hparent fun p => (hdirs p).mpr⟩

omit [Deps] in
theorem moveTarget_congr (hpath : w'.fs path = w.fs path) (hdirs : ∀ p, w'.fs p = .dir ↔ w.fs p = .dir) :
    w'.moveTarget path = w.moveTarget path := by
  unfold World.moveTarget moveInto leadsTo
  simp only [nodeAt_dir_congr hpath hdirs, hpath]

theorem move_dir (h : w.fs (w.moveTarget path) ≠ .dir) (p : Text) :
    (w.move path owner mode content).fs p = .dir ↔ w.fs p = .dir := by
  have hset := @set_dir (w.destroy (w.moveTarget path)) (w.moveTarget path) (.file owner mode content) (by rwa [destroy_fs])
    (by rintro ⟨⟩) p
  rwa [destroy_fs] at hset

theorem turns_destroy (w : World) (path : Text) : (w.destroy path).turns = w.turns := by
  unfold World.destroy
  split <;> rfl

theorem turns_rmForce (w : World) (path : Text) : (w.rmForce path).turns = w.turns := by
  unfold World.rmForce
  split
  · rfl
  · exact turns_destroy w path

omit [Deps] in
theorem ne_tempFor (h : ¬ Reserved p) (path : Text) : p ≠ tempFor path := by
  rintro rfl
  exact h (reserved_tempFor path)

omit [Deps] in
theorem ne_moveTarget (h : ¬ Reserved p) (hp : p ≠ path) : p ≠ w.moveTarget path := by
  unfold World.moveTarget moveInto
  split
  · rintro rfl
    exact h (reserved_into _ path)
  · exact hp

omit [Deps] in
/-- What is moved into a directory is moved to another path. -/
theorem moveTarget_ne (hdir : nodeAt w.fs path = .dir) (hpath : ¬ Reserved path) : w.moveTarget path ≠ path := by
  rw [World.moveTarget, moveInto, if_pos hdir]
  exact fun hsame => hpath (hsame ▸ reserved_into _ path)

/-- What an operation on the path does at most: it makes no directory and does away with none, and changes only the file
    at the path and files of the daemon's own. -/
structure ActsAt (path : Text) (w w' : World) : Prop where
  dirs : ∀ p, w'.fs p = .dir ↔ w.fs p = .dir
  others : ∀ p, ¬ Reserved p → p ≠ path → w'.fs p = w.fs p
  turns : w'.turns = w.turns

omit [Deps] in
theorem ActsAt.refl (path : Text) (w : World) : ActsAt path w w := ⟨fun _ => Iff.rfl, fun _ _ _ => rfl, rfl⟩

omit [Deps] in
theorem ActsAt.trans {w₁ : World} (h : ActsAt path w w₁) (h' : ActsAt path w₁ w') : ActsAt path w w' :=
  ⟨fun p => (h'.dirs p).trans (h.dirs p), fun p hp hne => (h'.others p hp hne).trans (h.others p hp hne),
    h'.turns.trans h.turns⟩

theorem rmForce_actsAt : ActsAt path w (w.rmForce (tempFor path)) :=
  ⟨rmForce_dir, fun _ hp _ => rmForce_fs (ne_tempFor hp path), turns_rmForce w _⟩

omit [Deps] in
theorem setTemp_actsAt {node : Inode} (h : w.fs (tempFor path) ≠ .dir) (hnode : node ≠ .dir) :
    ActsAt path w (w.set (tempFor path) node) :=
  ⟨set_dir h hnode, fun _ hp _ => set_ne (ne_tempFor hp path) node, rfl⟩

theorem move_actsAt (h : w.fs (w.moveTarget path) ≠ .dir) : ActsAt path w (w.move path owner mode content) := by
  refine ⟨move_dir h, fun p hp hne => ?_, turns_destroy w _⟩
  show (World.set _ _ _).fs p = _
  rw [set_ne (ne_moveTarget hp hne), destroy_fs]

theorem place_actsAt (h : place w fault path content mode owner expect = (r, w')) : ActsAt path w w' := by
  have hrm : ActsAt path w (w.rmForce (tempFor path)) := rmForce_actsAt
  have hplaced := after_place w fault path content mode owner expect
  rw [h] at hplaced
  cases hplaced with
  | left hne => exact hrm
  | cut hfree kept => exact hrm.trans (setTemp_actsAt hfree (by rintro ⟨⟩))
  | done hholds hfree => exact hrm.trans (move_actsAt hfree)

theorem remove_actsAt (w : World) (fault : Fault) (path : Text) (sha256 : String) :
    ActsAt path w (remove w fault path sha256).2 := by
  unfold remove
  split
  · exact .refl path w
  · next owner mode content hfile =>
    split
    · exact .refl path w
    · split
      · exact .refl path w
      · refine ⟨fun p => ?_, fun p _ hne => ?_, turns_destroy w path⟩
        · have hset := @set_dir (w.destroy path) path .missing (by rw [destroy_fs, hfile]; rintro ⟨⟩) (by rintro ⟨⟩) p
          rwa [destroy_fs] at hset
        · rw [set_ne hne, destroy_fs]
  all_goals exact .refl path w

theorem runOp_actsAt {op : Op} (h : runOp w op = (r, w')) : ActsAt op.path w.turn.2 w' := by
  unfold runOp at h
  split at h
  next fault w₁ heq =>
  obtain rfl : w.turn.2 = w₁ := by rw [heq]
  split at h
  · cases h
    exact .refl _ _
  · cases op with
    | place path content mode owner expect => exact place_actsAt h
    | remove path sha256 =>
      cases h
      exact remove_actsAt w.turn.2 fault path sha256

/-! ### One operation -/

/-- A file is put in its place, its directory's name and its own being none of the daemon's: what can go wrong is to be
    seen before the temp file is removed. -/
theorem place_calm (hpath : ¬ Reserved path) (hparent : ¬ Reserved (splitName path).1) :
    place w .none path content mode owner expect =
      if w.fs (tempFor path) = .dir ∨ creatable w.fs (tempFor path) = false then
        (.ok (.failed "write"), w.rmForce (tempFor path))
      else if owner.settable = false then (.ok (.failed "owner or mode"), w.rmForce (tempFor path))
      else if expect.holds (w.fs path) = false then (.ok .changed, w.rmForce (tempFor path))
      else if w.moveTarget path = tempFor path ∨ w.fs (w.moveTarget path) = .dir then
        (.ok (.failed "rename"), w.rmForce (tempFor path))
      else (.ok .done, (w.rmForce (tempFor path)).move path owner mode content) := by
  have hfs : (w.rmForce (tempFor path)).fs path = w.fs path := rmForce_fs (ne_tempFor hpath path)
  have hhold : creatable (w.rmForce (tempFor path)).fs (tempFor path) = creatable w.fs (tempFor path) := by
    refine creatable_congr (rmForce_fs ?_) rmForce_dir
    rw [splitName_tempFor]
    exact ne_tempFor hparent path
  have htarget : (w.rmForce (tempFor path)).moveTarget path = w.moveTarget path := moveTarget_congr hfs rmForce_dir
  unfold place
  simp only [hfs, hhold, htarget, rmForce_dir, reduceCtorEq, false_or, Bool.not_eq_true']

/-- What a file that is put in its place needs. -/
structure Placeable (fs : Fs) (path : Text) (owner : Owner) (expect : Expect) (target : Text) : Prop where
  temp : fs (tempFor path) ≠ .dir
  creatable : creatable fs (tempFor path) = true
  owner : owner.settable = true
  expected : expect.holds (fs path) = true
  other : target ≠ tempFor path
  free : fs target ≠ .dir

theorem place_eq_done (hpath : ¬ Reserved path) (hparent : ¬ Reserved (splitName path).1) :
    (place w .none path content mode owner expect).1 = .ok .done ↔
      Placeable w.fs path owner expect (w.moveTarget path) := by
  rw [place_calm hpath hparent]
  split
  · next h =>
    refine iff_of_false (by rintro ⟨⟩) fun hplaceable => ?_
    rcases h with h | h
    · exact hplaceable.temp h
    · rw [hplaceable.creatable] at h
      cases h
  · next hwritable =>
    rw [not_or, Bool.not_eq_false] at hwritable
    split
    · next howner => exact iff_of_false (by rintro ⟨⟩) fun hplaceable => by rw [hplaceable.owner] at howner; cases howner
    · next howner =>
      split
      · next hholds =>
        refine iff_of_false (by rintro ⟨⟩) fun hplaceable => ?_
        rw [hplaceable.expected] at hholds
        cases hholds
      · next hholds =>
        rw [Bool.not_eq_false] at howner hholds
        split
        · next htarget => exact iff_of_false (by rintro ⟨⟩) fun hplaceable => htarget.elim hplaceable.other hplaceable.free
        · next htarget =>
          rw [not_or] at htarget
          exact iff_of_true rfl ⟨hwritable.1, hwritable.2, howner, hholds, htarget.1, htarget.2⟩

/-- What an operation leaves at its path. -/
def Op.node : Op → Inode
  | .place _ content mode owner _ => .file owner mode content
  | .remove _ _ => .missing

theorem place_own (hpath : ¬ Reserved path) (hdir : nodeAt w.fs path ≠ .dir)
    (h : place w .none path content mode owner expect = (.ok .done, w')) : w'.fs path = .file owner mode content := by
  have hplaced := after_place w .none path content mode owner expect
  rw [h] at hplaced
  cases hplaced with
  | left hne => exact absurd rfl hne
  | done _ _ =>
    have hfs : (w.rmForce (tempFor path)).fs path = w.fs path := rmForce_fs (ne_tempFor hpath path)
    unfold World.move
    rw [moveTarget_congr hfs rmForce_dir, moveTarget_of_ne_dir hdir]
    exact set_self _ _ _

theorem remove_calm (hfile : ∃ owner mode content, w.fs path = .file owner mode content ∧
    MetaStore.digest content = sha256) :
    remove w .none path sha256 = (.done, (w.destroy path).set path .missing) := by
  obtain ⟨owner, mode, content, hfile, hhash⟩ := hfile
  unfold remove
  rw [hfile]
  dsimp only
  rw [if_neg (by simpa using hhash), if_neg (by rintro ⟨⟩)]

/-! ### All of them -/

/-- The operation's directory is there, and at its path is what it expects. -/
def Op.Ready (fs : Fs) : Op → Prop
  | .place path _ _ _ expect => ¬ Reserved path ∧ ¬ Reserved (splitName path).1 ∧
    ((splitName path).1 = [] ∨ fs (splitName path).1 = .dir) ∧ expect.holds (fs path) = true ∧ expect ≠ .any
  | .remove path sha256 => ¬ Reserved path ∧ ∃ owner mode content, fs path = .file owner mode content ∧
    MetaStore.digest content = sha256

/-- A directory is in the way of the operation's temp file, or that has too long a name, or no such owner can be set. -/
def Op.Blocked (fs : Fs) : Op → Prop
  | .place path _ _ owner _ => fs (tempFor path) = .dir ∨ fits (tempFor path) = false ∨ owner.settable = false
  | .remove _ _ => False

theorem Op.Ready.unreserved {op : Op} {fs : Fs} (h : op.Ready fs) : ¬ Reserved op.path := by
  cases op with
  | place path content mode owner expect => exact h.1
  | remove path sha256 => exact h.1

/-- What is done to other files makes no difference to an operation. -/
theorem Op.Ready.congr {op : Op} {fs fs' : Fs} (h : op.Ready fs) (hpath : fs' op.path = fs op.path)
    (hdirs : ∀ p, fs' p = .dir ↔ fs p = .dir) : op.Ready fs' := by
  cases op with
  | place path content mode owner expect =>
    obtain ⟨hres, hparent, hdir, hholds, hne⟩ := h
    have hsame : fs' path = fs path := hpath
    exact ⟨hres, hparent, hdir.imp_right (hdirs _).mpr, hsame ▸ hholds, hne⟩
  | remove path sha256 =>
    obtain ⟨hres, hfile⟩ := h
    have hsame : fs' path = fs path := hpath
    exact ⟨hres, hsame ▸ hfile⟩

omit [Deps] in
theorem Op.blocked_congr {op : Op} {fs fs' : Fs} (hdirs : ∀ p, fs' p = .dir ↔ fs p = .dir) :
    op.Blocked fs' ↔ op.Blocked fs := by
  cases op with
  | place path content mode owner expect => exact or_congr_left (hdirs _)
  | remove path sha256 => exact Iff.rfl

/-- An operation that is ready is done unless it is blocked. -/
theorem Op.Ready.placeable (h : (Op.place path content mode owner expect).Ready w.fs) :
    Placeable w.fs path owner expect (w.moveTarget path) ↔ ¬ (Op.place path content mode owner expect).Blocked w.fs := by
  obtain ⟨hres, -, hparent, hholds, hany⟩ := h
  have hnode := ne_dir_of_holds hany hholds
  have hhold : canHold w.fs (splitName (tempFor path)).1 = true := by
    rw [splitName_tempFor]
    exact canHold_of_parent hparent
  rw [moveTarget_of_ne_dir hnode]
  constructor
  · rintro ⟨htemp, hcreatable, howner, -, -, -⟩ (hblocked | hblocked | hblocked)
    · exact htemp hblocked
    · rw [(creatable_eq_true.mp hcreatable).2] at hblocked
      cases hblocked
    · rw [howner] at hblocked
      cases hblocked
  · intro hblocked
    obtain ⟨htemp, hrest⟩ := not_or.mp hblocked
    rw [not_or, Bool.not_eq_false, Bool.not_eq_false] at hrest
    refine ⟨htemp, creatable_eq_true.mpr ⟨hhold, hrest.1⟩, hrest.2, hholds, ne_tempFor hres path, fun hdir => hnode ?_⟩
    rwa [nodeAt_of_plain (by simp [hdir])]

theorem runOp_calm {op : Op} (h : w.turns = []) (hready : op.Ready w.fs) (hop : runOp w op = (r, w')) :
    (∃ outcome, r = .ok outcome) ∧ (r = .ok .done ↔ ¬ op.Blocked w.fs) := by
  rw [runOp, turn_calm h] at hop
  dsimp only at hop
  rw [if_neg (by rintro ⟨⟩)] at hop
  cases op with
  | place path content mode owner expect =>
    have hplace : place w .none path content mode owner expect = (r, w') := hop
    have hdone := @place_eq_done _ w path content mode owner expect hready.1 hready.2.1
    rw [hplace, hready.placeable] at hdone
    refine ⟨?_, hdone⟩
    rw [place_calm hready.1 hready.2.1] at hplace
    split at hplace
    · cases hplace
      exact ⟨_, rfl⟩
    · split at hplace
      · cases hplace
        exact ⟨_, rfl⟩
      · split at hplace
        · cases hplace
          exact ⟨_, rfl⟩
        · split at hplace <;> cases hplace <;> exact ⟨_, rfl⟩
  | remove path sha256 =>
    have hremove : (Except.ok (remove w .none path sha256).1, (remove w .none path sha256).2) = (r, w') := hop
    rw [remove_calm hready.2] at hremove
    cases hremove
    exact ⟨⟨_, rfl⟩, iff_of_true rfl id⟩

/-- The operation is on a file that can be one, and has an expectation. -/
def Op.Fits : Op → Prop
  | .place path _ _ _ expect => ¬ Reserved path ∧ ¬ Reserved (splitName path).1 ∧ expect ≠ .any
  | .remove path _ => ¬ Reserved path

omit [Deps] in
theorem Op.Fits.unreserved {op : Op} (h : op.Fits) : ¬ Reserved op.path := by
  cases op with
  | place path content mode owner expect => exact h.1
  | remove path sha256 => exact h

theorem remove_done (h : (remove w fault path sha256).1 = .done) : (remove w fault path sha256).2.fs path = .missing := by
  unfold remove at h ⊢
  split
  · assumption
  · next hfile =>
    simp only [hfile] at h
    split
    · next hhash =>
      rw [if_pos hhash] at h
      cases h
    · next hhash =>
      rw [if_neg hhash] at h
      split
      · next hfault =>
        rw [if_pos hfault] at h
        cases h
      · exact set_self _ _ _
  all_goals
    next hnode =>
    simp only [hnode] at h
    cases h

/-- An operation that is done leaves what it should. -/
theorem runOp_own {op : Op} (h : w.turns = []) (hfits : op.Fits) (hop : runOp w op = (.ok .done, w')) :
    w'.fs op.path = op.node := by
  rw [runOp, turn_calm h] at hop
  dsimp only at hop
  rw [if_neg (by rintro ⟨⟩)] at hop
  cases op with
  | place path content mode owner expect =>
    obtain ⟨hres, hparent, hany⟩ := hfits
    have hholds := ((place_eq_done hres hparent).mp (congrArg Prod.fst hop)).expected
    exact place_own hres (ne_dir_of_holds hany hholds) hop
  | remove path sha256 =>
    have hremove : (Except.ok (remove w .none path sha256).1, (remove w .none path sha256).2) = (.ok .done, w') := hop
    obtain ⟨hdone, rfl⟩ := Prod.mk.inj hremove
    exact remove_done (Except.ok.inj hdone)

/-- One operation, and then the others, unless the script ends with it. -/
theorem runOps_cons {op : Op} {ops : List Op} {r : Except String (List Outcome)} (h : runOps (op :: ops) w = (r, w')) :
    (∃ e, runOp w op = (.error e, w') ∧ r = .error e) ∨
      ∃ outcome w₁ r', runOp w op = (.ok outcome, w₁) ∧ runOps ops w₁ = (r', w') ∧ r = r'.map (outcome :: ·) := by
  rw [runOps] at h
  cases hop : runOp w op with
  | mk r₁ w₁ =>
    rw [hop] at h
    cases r₁ with
    | error e =>
      cases h
      exact .inl ⟨e, rfl, rfl⟩
    | ok outcome =>
      dsimp only at h
      split at h
      · next heq =>
        cases h
        exact .inr ⟨outcome, w₁, _, rfl, heq, rfl⟩
      · next heq =>
        cases h
        exact .inr ⟨outcome, w₁, _, rfl, heq, rfl⟩

theorem runOps_turns {ops : List Op} {r : Except String (List Outcome)} (h : w.turns = []) (hops : runOps ops w = (r, w')) :
    w'.turns = [] := by
  induction ops generalizing w r with
  | nil =>
    cases hops
    exact h
  | cons op ops ih =>
    rcases runOps_cons hops with ⟨e, hop, -⟩ | ⟨outcome, w₁, r', hop, hrest, -⟩
    · rw [(runOp_actsAt hop).turns, turn_calm h, h]
    · exact ih (by rw [(runOp_actsAt hop).turns, turn_calm h, h]) hrest

/-- The operations are done: each has left what it should, and nothing else is changed but for files of the daemon's own. -/
structure Committed (ops : List Op) (w w' : World) : Prop where
  own : ∀ op ∈ ops, w'.fs op.path = op.node
  others : ∀ p, ¬ Reserved p → (∀ op ∈ ops, op.path ≠ p) → w'.fs p = w.fs p
  dirs : ∀ p, w'.fs p = .dir ↔ w.fs p = .dir

/-- Operations on different paths that are all done leave what they should. -/
theorem runOps_committed {ops : List Op} (h : w.turns = []) (hfits : ∀ op ∈ ops, op.Fits)
    (hpaths : ops.Pairwise fun a b => a.path ≠ b.path) (hops : runOps ops w = (.ok (ops.map fun _ => .done), w')) :
    Committed ops w w' := by
  induction ops generalizing w with
  | nil =>
    cases hops
    exact ⟨by rintro _ ⟨⟩, fun _ _ _ => rfl, fun _ => Iff.rfl⟩
  | cons op ops ih =>
    obtain ⟨hother, hrest⟩ := List.pairwise_cons.mp hpaths
    obtain ⟨hhead, htail⟩ := List.forall_mem_cons.mp hfits
    rcases runOps_cons hops with ⟨e, -, herror⟩ | ⟨outcome, w₁, r', hop, hlater, hall⟩
    · cases herror
    · cases r' with
      | error e => cases hall
      | ok outcomes =>
        obtain ⟨rfl, rfl⟩ := List.cons.inj (Except.ok.inj hall)
        have hacts := runOp_actsAt hop
        rw [turn_calm h] at hacts
        have hlast := ih (hacts.turns.trans h) htail hrest hlater
        refine ⟨List.forall_mem_cons.mpr ⟨?_, hlast.own⟩, fun p hp hne => ?_, fun p => (hlast.dirs p).trans (hacts.dirs p)⟩
        · rw [hlast.others _ hhead.unreserved fun op' hop' => (hother op' hop').symm]
          exact runOp_own h hhead hop
        · obtain ⟨hpath, hpaths⟩ := List.forall_mem_cons.mp hne
          exact (hlast.others p hp hpaths).trans (hacts.others p hp (Ne.symm hpath))

/-- Operations on different paths, each of them ready, are all done unless one is blocked. -/
theorem runOps_calm {ops : List Op} (h : w.turns = []) (hready : ∀ op ∈ ops, op.Ready w.fs)
    (hpaths : ops.Pairwise fun a b => a.path ≠ b.path) :
    ∃ outcomes w', runOps ops w = (.ok outcomes, w') ∧
      (outcomes = ops.map (fun _ => .done) ↔ ∀ op ∈ ops, ¬ op.Blocked w.fs) := by
  induction ops generalizing w with
  | nil => exact ⟨[], w, rfl, iff_of_true rfl (by rintro _ ⟨⟩)⟩
  | cons op ops ih =>
    obtain ⟨hother, hrest⟩ := List.pairwise_cons.mp hpaths
    obtain ⟨hhead, htail⟩ := List.forall_mem_cons.mp hready
    cases hop : runOp w op with
    | mk r w₁ =>
      obtain ⟨⟨outcome, rfl⟩, hdone⟩ := runOp_calm h hhead hop
      have hacts := runOp_actsAt hop
      rw [turn_calm h] at hacts
      have hsame : ∀ op' ∈ ops, w₁.fs op'.path = w.fs op'.path := fun op' hop' =>
        hacts.others _ (htail op' hop').unreserved (hother op' hop').symm
      obtain ⟨outcomes, w', hops, hall⟩ := ih (hacts.turns.trans h)
        (fun op' hop' => (htail op' hop').congr (hsame op' hop') hacts.dirs) hrest
      refine ⟨outcome :: outcomes, w', by rw [runOps, hop]; dsimp only; rw [hops], ?_⟩
      rw [List.map_cons, List.cons.injEq, hall, List.forall_mem_cons, ← hdone, Except.ok.injEq]
      exact and_congr_right fun _ => forall₂_congr fun op' _ => not_congr (Op.blocked_congr hacts.dirs)

end Guest
end PveMeta
