import PveMeta.Lib.Log
import PveMeta.Theorems.GuestPaths
import PveMeta.Theorems.GuestPlan

/-! # What a commit does

Every operation does away with a file only as its expectation allows, or with one of the daemon's own; and the manifest
is as it was, but for the operation that writes it. -/

namespace PveMeta
namespace Guest

variable [Deps] {w w' : World} {path dir : Text} {fault : Fault} {content : ByteArray} {mode : Nat} {owner : Owner}
  {expect : Expect} {sha256 : String} {r : Except String Outcome}

/-! ### Where a path leads -/

section

variable {fs : Fs}

omit [Deps] in
theorem nodeAt_of_plain (h : ∀ target, fs path ≠ .symlink target) : nodeAt fs path = fs path := by
  unfold nodeAt
  split
  · next hlink => exact absurd hlink (h [])
  · next target _ hlink => exact absurd hlink (h target)
  · rfl

omit [Deps] in
theorem moveInto_of_ne_dir {name : Text} (h : nodeAt fs path ≠ .dir) : moveInto fs path name = path := if_neg h

omit [Deps] in
theorem moveTarget_of_ne_dir (h : nodeAt w.fs path ≠ .dir) : w.moveTarget path = path := moveInto_of_ne_dir h

end

/-! ### Steps that do nothing to a file -/

/-- Nothing is done to a file, and the manifest is as it was. -/
structure Quiet (w w' : World) : Prop where
  log : w'.log = w.log
  manifest : w'.fs manifestPath = w.fs manifestPath

/-- What is done to the files, the manifest as it was. -/
structure Acts (P : Deed → Prop) (w w' : World) : Prop where
  log : Log.Extends (fun _ => P) w.log w'.log
  manifest : w'.fs manifestPath = w.fs manifestPath

section

variable {w₁ : World} {P Q : Deed → Prop}

omit [Deps] in
theorem Quiet.refl (w : World) : Quiet w w := ⟨rfl, rfl⟩

omit [Deps] in
theorem Quiet.trans (h : Quiet w w₁) (h' : Quiet w₁ w') : Quiet w w' := ⟨h'.log.trans h.log, h'.manifest.trans h.manifest⟩

omit [Deps] in
theorem Quiet.acts (h : Quiet w w') : Acts P w w' := ⟨h.log ▸ .refl, h.manifest⟩

omit [Deps] in
theorem Acts.trans (h : Acts P w w₁) (h' : Acts P w₁ w') : Acts P w w' :=
  ⟨h.log.trans h'.log, h'.manifest.trans h.manifest⟩

omit [Deps] in
theorem Acts.mono (h : Acts P w w') (himp : ∀ e, P e → Q e) : Acts Q w w' :=
  ⟨h.log.mono fun _ e _ => himp e, h.manifest⟩

omit [Deps] in
theorem quiet_edit (w : World) (fs : Fs) : Quiet w (w.edit fs) := ⟨rfl, by simp [World.edit]⟩

omit [Deps] in
theorem quiet_turn (w : World) : Quiet w w.turn.2 := by
  unfold World.turn
  split
  · exact .refl w
  · next t turns hturns =>
    cases t.others with
    | none => exact ⟨rfl, rfl⟩
    | some fs =>
      have hedit := quiet_edit { w with turns } fs
      exact ⟨hedit.log, hedit.manifest⟩

omit [Deps] in
theorem quiet_call (w : World) : Quiet w w.call.2 := quiet_turn w

omit [Deps] in
theorem quiet_set (h : path ≠ manifestPath) (node : Inode) : Quiet w (w.set path node) :=
  ⟨rfl, by simp [World.set, h.symm]⟩

omit [Deps] in
theorem quiet_mkdir (h : dir ≠ manifestPath) : Quiet w (mkdir w dir).2 := by
  have hturn := quiet_turn w
  unfold mkdir
  split
  next fault w₁ heq =>
  rw [heq] at hturn
  split
  · split <;> exact hturn
  · exact hturn
  · exact hturn
  · exact hturn
  · split
    · exact hturn
    · exact hturn.trans (quiet_set h .dir)

omit [Deps] in
theorem quiet_mkdirs {dirs : List Text} (h : ∀ dir ∈ dirs, dir ≠ manifestPath) : Quiet w (mkdirs dirs w).2 := by
  induction dirs generalizing w with
  | nil => exact .refl w
  | cons dir dirs ih =>
    have hhead : Quiet w (mkdir w dir).2 := quiet_mkdir (h dir List.mem_cons_self)
    unfold mkdirs
    split
    · next e w₁ heq => rwa [heq] at hhead
    · next w₁ heq =>
      rw [heq] at hhead
      exact hhead.trans (ih fun dir' hdir => h dir' (List.mem_cons_of_mem _ hdir))

end
/-! ### One operation -/

/-- What an operation requires of the hash of a file that it replaces or removes. -/
def Op.Expects (hash : String) : Op → Prop
  | .place _ _ _ _ expect => expect = .sha256 hash
  | .remove _ sha256 => sha256 = hash

/-- An operation writes its own path, and does away with what it expects there, or with a file of the daemon's own. -/
def Op.Does (op : Op) : Deed → Prop
  | .found _ _ => False
  | .wrote p _ => p = op.path
  | .destroyed p hash => Reserved p ∨ (p = op.path ∧ op.Expects hash)

/-- The operation has an expectation, and is not about the manifest. -/
structure Op.Guarded (op : Op) : Prop where
  path : op.path ≠ manifestPath
  expects : ∀ path content mode owner, op ≠ .place path content mode owner .any

theorem destroy_fs (w : World) (path : Text) : (w.destroy path).fs = w.fs := by
  unfold World.destroy
  split <;> rfl

theorem destroy_log (w : World) (path : Text) :
    (w.destroy path).log = w.log ∨
      ∃ owner mode content, w.fs path = .file owner mode content ∧
        (w.destroy path).log = w.log ++ [.destroyed path (MetaStore.digest content)] := by
  unfold World.destroy
  split
  · next owner mode content h => exact Or.inr ⟨owner, mode, content, h, rfl⟩
  · exact Or.inl rfl

theorem destroy_extends {P : Deed → Prop}
    (h : ∀ owner mode content, w.fs path = .file owner mode content → P (.destroyed path (MetaStore.digest content))) :
    Log.Extends (fun _ => P) w.log (w.destroy path).log := by
  rcases destroy_log w path with hlog | ⟨owner, mode, content, hfile, hlog⟩
  · rw [hlog]
    exact .refl
  · rw [hlog]
    exact .concat .refl (h owner mode content hfile)

/-- A temp file is removed, before the new one is written. -/
theorem rmForce_acts {op : Op} (path : Text) : Acts op.Does w (w.rmForce (tempFor path)) := by
  unfold World.rmForce
  split
  · exact (Quiet.refl w).acts
  · refine ⟨destroy_extends fun _ _ _ _ => Or.inl (reserved_tempFor path), ?_⟩
    rw [(quiet_set (tempFor_ne_manifestPath path) .missing).manifest, destroy_fs]

theorem rmForce_fs (h : path ≠ dir) : (w.rmForce dir).fs path = w.fs path := by
  unfold World.rmForce
  split
  · rfl
  · simp [World.set, h, destroy_fs]

theorem expect_holds_file {hash : String} {node : Inode} (h : (Expect.sha256 hash).holds node = true) :
    ∃ owner mode content, node = .file owner mode content ∧ MetaStore.digest content = hash := by
  cases node with
  | file owner mode content => exact ⟨owner, mode, content, rfl, by simpa [Expect.holds] using h⟩
  | _ => cases h

/-- What is expected to be missing, or a file, is no symlink and no directory. -/
theorem ne_dir_of_holds {fs : Fs} (hne : expect ≠ .any) (h : expect.holds (fs path) = true) : nodeAt fs path ≠ .dir := by
  cases hnode : fs path with
  | missing =>
    rw [nodeAt, hnode]
    rintro ⟨⟩
  | file owner mode content =>
    rw [nodeAt, hnode]
    rintro ⟨⟩
  | _ =>
    rw [hnode] at h
    cases expect with
    | any => exact absurd rfl hne
    | missing => cases h
    | sha256 hash => cases h

/-- What `w` of the commit script comes to: it leaves the file as it is; it is cut off while it writes the temp file; or the
    file is put in its place. -/
inductive AfterPlace (w : World) (path : Text) (content : ByteArray) (mode : Nat) (owner : Owner) (expect : Expect) :
    Except String Outcome × World → Prop
  | left {outcome : Outcome} (ne : outcome ≠ .done) (expected : outcome = .changed → expect ≠ .any) :
      AfterPlace w path content mode owner expect (.ok outcome, w.rmForce (tempFor path))
  | cut (free : (w.rmForce (tempFor path)).fs (tempFor path) ≠ .dir) (kept : ByteArray) :
      AfterPlace w path content mode owner expect
        (.error cutOff, (w.rmForce (tempFor path)).set (tempFor path) (.file .root 0o600 kept))
  | done (holds : expect.holds ((w.rmForce (tempFor path)).fs path) = true)
      (free : (w.rmForce (tempFor path)).fs ((w.rmForce (tempFor path)).moveTarget path) ≠ .dir) :
      AfterPlace w path content mode owner expect (.ok .done, (w.rmForce (tempFor path)).move path owner mode content)

theorem after_place (w : World) (fault : Fault) (path : Text) (content : ByteArray) (mode : Nat) (owner : Owner)
    (expect : Expect) : AfterPlace w path content mode owner expect (place w fault path content mode owner expect) := by
  unfold place
  dsimp only
  split
  · exact .left (by rintro ⟨⟩) (by rintro ⟨⟩)
  · next hwritable =>
    split
    · exact .left (by rintro ⟨⟩) (by rintro ⟨⟩)
    · exact .cut (fun hdir => hwritable (Or.inr (Or.inl hdir))) _
    · split
      · exact .left (by rintro ⟨⟩) (by rintro ⟨⟩)
      · split
        · next hnot =>
          refine .left (by rintro ⟨⟩) fun _ hany => ?_
          rw [hany] at hnot
          cases hnot
        · next hholds =>
          split
          · exact .left (by rintro ⟨⟩) (by rintro ⟨⟩)
          · next hrename => exact .done (by simpa using hholds) fun hdir => hrename (Or.inr (Or.inr hdir))

/-- What is expected is no directory, so nothing is moved into one. -/
theorem move_acts (hg : (Op.place path content mode owner expect).Guarded) (hholds : expect.holds (w.fs path) = true) :
    Acts (Op.place path content mode owner expect).Does w (w.move path owner mode content) ∧
      .wrote path (MetaStore.digest content) ∈ (w.move path owner mode content).log := by
  have hany : expect ≠ .any := by
    rintro rfl
    exact hg.expects path content mode owner rfl
  have hexpects : ∀ o m c, w.fs path = .file o m c → expect = .sha256 (MetaStore.digest c) := by
    intro o m c hfile
    cases expect with
    | any => exact absurd rfl hany
    | missing =>
      rw [hfile] at hholds
      cases hholds
    | sha256 hash =>
      obtain ⟨o', m', c', hfile', rfl⟩ := expect_holds_file hholds
      rw [hfile] at hfile'
      cases hfile'
      rfl
  have hmanifest : path ≠ manifestPath := hg.path
  unfold World.move
  rw [moveTarget_of_ne_dir (ne_dir_of_holds hany hholds)]
  refine ⟨⟨?_, ?_⟩, List.mem_append_right _ (List.mem_singleton_self _)⟩
  · refine .concat (destroy_extends fun o m c hfile => Or.inr ⟨rfl, hexpects o m c hfile⟩) rfl
  · simp [World.note, World.set, destroy_fs, hmanifest.symm]

/-- A file is put in its place if what is there is what is expected. -/
theorem place_acts (hg : (Op.place path content mode owner expect).Guarded)
    (h : place w fault path content mode owner expect = (r, w')) :
    Acts (Op.place path content mode owner expect).Does w w' ∧
      (r = .ok .done → .wrote path (MetaStore.digest content) ∈ w'.log) := by
  have hrm : Acts (Op.place path content mode owner expect).Does w (w.rmForce (tempFor path)) := rmForce_acts path
  have hplaced := after_place w fault path content mode owner expect
  rw [h] at hplaced
  cases hplaced with
  | left hne => exact ⟨hrm, fun hdone => absurd (Except.ok.inj hdone) hne⟩
  | cut _ kept => exact ⟨hrm.trans (quiet_set (tempFor_ne_manifestPath path) _).acts, by rintro ⟨⟩⟩
  | done hholds _ =>
    obtain ⟨hmove, hwrote⟩ := move_acts hg hholds
    exact ⟨hrm.trans hmove, fun _ => hwrote⟩

theorem remove_acts (hg : (Op.remove path sha256).Guarded) :
    Acts (Op.remove path sha256).Does w (remove w fault path sha256).2 := by
  have hmanifest : path ≠ manifestPath := hg.path
  unfold remove
  split
  · exact (Quiet.refl w).acts
  · next owner mode content hfile =>
    split
    · exact (Quiet.refl w).acts
    · next hhash =>
      split
      · exact (Quiet.refl w).acts
      · refine ⟨destroy_extends fun o m c hfile' => Or.inr ⟨rfl, ?_⟩, by simp [World.set, destroy_fs, hmanifest.symm]⟩
        rw [hfile] at hfile'
        cases hfile'
        exact (not_not.mp hhash).symm
  · exact (Quiet.refl w).acts
  · exact (Quiet.refl w).acts
  · exact (Quiet.refl w).acts

/-! ### All of them -/

/-- The file of an operation that was done is written. -/
def Op.Wrote (log : List Deed) : Op → Prop
  | .place path content _ _ _ => .wrote path (MetaStore.digest content) ∈ log
  | .remove _ _ => True

theorem runOp_acts {op : Op} (hg : op.Guarded) (h : runOp w op = (r, w')) :
    Acts op.Does w w' ∧ (r = .ok .done → op.Wrote w'.log) := by
  have hturn := quiet_turn w
  unfold runOp at h
  split at h
  next fault w₁ heq =>
  rw [heq] at hturn
  split at h
  · cases h
    exact ⟨hturn.acts, by rintro ⟨⟩⟩
  · cases op with
    | place path content mode owner expect =>
      obtain ⟨hacts, hwrote⟩ := place_acts hg h
      exact ⟨hturn.acts.trans hacts, hwrote⟩
    | remove path sha256 =>
      cases h
      exact ⟨hturn.acts.trans (remove_acts hg), fun _ => True.intro⟩

/-- The answers of the operations, in order, where there are any. -/
structure Answered (ops : List Op) (outcomes : List Outcome) (log : List Deed) : Prop where
  length : outcomes.length = ops.length
  wrote : ∀ op outcome, (op, outcome) ∈ ops.zip outcomes → outcome = .done → op.Wrote log

theorem Op.Wrote.mono {op : Op} {log log' : List Deed} (h : op.Wrote log) (hsub : log ⊆ log') : op.Wrote log' := by
  cases op with
  | place path content mode owner expect => exact hsub h
  | remove path sha256 => exact True.intro

theorem runOps_acts {ops : List Op} {r : Except String (List Outcome)} (hg : ∀ op ∈ ops, op.Guarded)
    (h : runOps ops w = (r, w')) :
    Acts (fun e => ∃ op ∈ ops, op.Does e) w w' ∧ ∀ outcomes, r = .ok outcomes → Answered ops outcomes w'.log := by
  induction ops generalizing w r with
  | nil =>
    cases h
    refine ⟨(Quiet.refl _).acts, ?_⟩
    rintro _ ⟨⟩
    exact ⟨rfl, by rintro _ _ ⟨⟩⟩
  | cons op ops ih =>
    have hhead : ∀ e, op.Does e → ∃ op' ∈ op :: ops, op'.Does e := fun e he => ⟨op, List.mem_cons_self, he⟩
    have hrest : ∀ e, (∃ op' ∈ ops, op'.Does e) → ∃ op' ∈ op :: ops, op'.Does e := by
      rintro e ⟨op', hop', he⟩
      exact ⟨op', List.mem_cons_of_mem _ hop', he⟩
    unfold runOps at h
    split at h
    · next e w₁ heq =>
      cases h
      obtain ⟨hacts, -⟩ := runOp_acts (hg op List.mem_cons_self) heq
      exact ⟨hacts.mono hhead, by rintro _ ⟨⟩⟩
    · next outcome w₁ heq =>
      obtain ⟨hacts, hwrote⟩ := runOp_acts (hg op List.mem_cons_self) heq
      have htail := fun op' hop' => hg op' (List.mem_cons_of_mem op hop')
      split at h
      · next e w₂ heq₂ =>
        cases h
        obtain ⟨hacts', -⟩ := ih htail heq₂
        exact ⟨(hacts.mono hhead).trans (hacts'.mono hrest), by rintro _ ⟨⟩⟩
      · next outcomes w₂ heq₂ =>
        cases h
        obtain ⟨hacts', hanswered⟩ := ih htail heq₂
        refine ⟨(hacts.mono hhead).trans (hacts'.mono hrest), ?_⟩
        rintro _ ⟨⟩
        have hrestAnswered := hanswered outcomes rfl
        refine ⟨congrArg (· + 1) hrestAnswered.length, fun op' outcome' hmem hdone => ?_⟩
        rcases List.mem_cons.mp hmem with heq' | hmem
        · cases heq'
          rw [hdone] at hwrote
          exact (hwrote rfl).mono hacts'.log.subset
        · exact hrestAnswered.wrote op' outcome' hmem hdone

theorem commit_cases {dirs : List Text} {ops : List Op} {r : Except String (List Outcome)}
    (hdirs : ∀ dir ∈ dirs, dir ≠ manifestPath) (h : w.commit dirs ops = (r, w')) :
    ∃ w₁, Quiet w w₁ ∧ (((∃ e, r = .error e) ∧ Quiet w₁ w') ∨
      ∃ r₁ w₂, runOps ops w₁ = (r₁, w₂) ∧ Quiet w₂ w' ∧ ∀ outcomes, r = .ok outcomes → r₁ = .ok outcomes) := by
  have hcall := quiet_call w
  unfold World.commit at h
  split at h
  · next e w₁ heq =>
    cases h
    rw [heq] at hcall
    exact ⟨_, hcall, Or.inl ⟨⟨e, rfl⟩, .refl _⟩⟩
  · next w₁ heq =>
    rw [heq] at hcall
    have hmkdirs : Quiet w₁ (mkdirs dirs w₁).2 := quiet_mkdirs hdirs
    split at h
    · next e w₂ heq₂ =>
      cases h
      rw [heq₂] at hmkdirs
      exact ⟨_, hcall.trans hmkdirs, Or.inl ⟨⟨e, rfl⟩, .refl _⟩⟩
    · next w₂ heq₂ =>
      rw [heq₂] at hmkdirs
      refine ⟨w₂, hcall.trans hmkdirs, Or.inr ?_⟩
      split at h
      · next e w₃ heq₃ =>
        cases h
        exact ⟨_, _, heq₃, .refl _, by rintro _ ⟨⟩⟩
      · next outcomes w₃ heq₃ =>
        have hlast := quiet_call w₃
        split at h
        · next e w₄ heq₄ =>
          cases h
          rw [heq₄] at hlast
          exact ⟨_, _, heq₃, hlast, by rintro _ ⟨⟩⟩
        · next w₄ heq₄ =>
          cases h
          rw [heq₄] at hlast
          exact ⟨_, _, heq₃, hlast, fun _ hr => hr⟩

theorem commit_acts {dirs : List Text} {ops : List Op} {r : Except String (List Outcome)}
    (hdirs : ∀ dir ∈ dirs, dir ≠ manifestPath) (hg : ∀ op ∈ ops, op.Guarded) (h : w.commit dirs ops = (r, w')) :
    Acts (fun e => ∃ op ∈ ops, op.Does e) w w' ∧ ∀ outcomes, r = .ok outcomes → Answered ops outcomes w'.log := by
  obtain ⟨w₁, hfirst, ⟨⟨e, rfl⟩, hlast⟩ | ⟨r₁, w₂, hops, hlast, hr⟩⟩ := commit_cases hdirs h
  · exact ⟨(hfirst.trans hlast).acts, by rintro _ ⟨⟩⟩
  · obtain ⟨hacts, hanswered⟩ := runOps_acts hg hops
    refine ⟨hfirst.acts.trans (hacts.trans hlast.acts), fun outcomes hok => ?_⟩
    rw [hlast.log]
    exact hanswered outcomes (hr outcomes hok)

/-! ### Nothing is done away with unseen -/

/-- Of a file that is not as it was, the log says that it is no more. -/
def Accounts (w w' : World) : Prop :=
  ∃ added, w'.log = w.log ++ added ∧ ∀ path owner mode content, w.fs path = .file owner mode content →
    w'.fs path ≠ w.fs path → .destroyed path (MetaStore.digest content) ∈ added

theorem Accounts.refl (w : World) : Accounts w w :=
  ⟨[], (List.append_nil _).symm, fun _ _ _ _ _ hne => absurd rfl hne⟩

theorem Accounts.trans {w₁ : World} (h : Accounts w w₁) (h' : Accounts w₁ w') : Accounts w w' := by
  obtain ⟨added, hlog, hadded⟩ := h
  obtain ⟨added', hlog', hadded'⟩ := h'
  refine ⟨added ++ added', by rw [hlog', hlog, List.append_assoc], fun path owner mode content hfile hne => ?_⟩
  by_cases hsame : w₁.fs path = w.fs path
  · exact List.mem_append_right _ (hadded' path owner mode content (hsame ▸ hfile) (hsame ▸ hne))
  · exact List.mem_append_left _ (hadded path owner mode content hfile hsame)

theorem accounts_set (h : ∀ owner mode content, w.fs path ≠ .file owner mode content) (node : Inode) :
    Accounts w (w.set path node) := by
  refine ⟨[], (List.append_nil _).symm, fun p owner mode content hfile hne => ?_⟩
  by_cases hp : p = path
  · exact absurd (hp ▸ hfile) (h owner mode content)
  · exact absurd (Function.update_of_ne hp _ _) hne

theorem accounts_note (w : World) (deeds : List Deed) : Accounts w (w.note deeds) :=
  ⟨deeds, rfl, fun _ _ _ _ _ hne => absurd rfl hne⟩

theorem accounts_destroy (w : World) (path : Text) (node : Inode) : Accounts w ((w.destroy path).set path node) := by
  rcases destroy_log w path with hlog | ⟨owner, mode, content, hfile, hlog⟩
  · have hnone : ∀ owner mode content, w.fs path ≠ .file owner mode content := by
      intro owner mode content hfile
      unfold World.destroy at hlog
      rw [hfile] at hlog
      simp [World.note] at hlog
    refine ⟨[], by rw [List.append_nil]; exact hlog, fun p owner mode content hfile hne => ?_⟩
    by_cases hp : p = path
    · exact absurd (hp ▸ hfile) (hnone owner mode content)
    · simp [World.set, destroy_fs, hp] at hne
  · refine ⟨_, hlog, fun p owner' mode' content' hfile' hne => ?_⟩
    by_cases hp : p = path
    · subst hp
      rw [hfile] at hfile'
      cases hfile'
      exact List.mem_singleton_self _
    · simp [World.set, destroy_fs, hp] at hne

theorem accounts_rmForce (w : World) (path : Text) : Accounts w (w.rmForce path) := by
  unfold World.rmForce
  split
  · exact .refl w
  · exact accounts_destroy w path .missing

theorem rmForce_not_file (w : World) (path : Text) (owner : Owner) (mode : Nat) (content : ByteArray) :
    (w.rmForce path).fs path ≠ .file owner mode content := by
  unfold World.rmForce
  split
  · next hdir =>
    rw [hdir]
    rintro ⟨⟩
  · simp [World.set]

theorem place_accounts (h : place w fault path content mode owner expect = (r, w')) : Accounts w w' := by
  have hrm := accounts_rmForce w (tempFor path)
  have hplaced := after_place w fault path content mode owner expect
  rw [h] at hplaced
  cases hplaced with
  | left hne => exact hrm
  | cut _ kept => exact hrm.trans (accounts_set (rmForce_not_file w _) _)
  | done hholds _ => exact hrm.trans ((accounts_destroy _ _ _).trans (accounts_note _ _))

theorem remove_accounts (w : World) (fault : Fault) (path : Text) (sha256 : String) :
    Accounts w (remove w fault path sha256).2 := by
  unfold remove
  split
  · exact .refl w
  · split
    · exact .refl w
    · split
      · exact .refl w
      · exact accounts_destroy w path .missing
  all_goals exact .refl w

/-- The others have their turn, and then an operation accounts for what it does. -/
theorem runOp_accounts {op : Op} (h : runOp w op = (r, w')) : Accounts w.turn.2 w' := by
  unfold runOp at h
  split at h
  next fault w₁ heq =>
  obtain rfl : w.turn.2 = w₁ := by rw [heq]
  split at h
  · cases h
    exact .refl _
  · cases op with
    | place path content mode owner expect => exact place_accounts h
    | remove path sha256 =>
      cases h
      exact remove_accounts w.turn.2 fault path sha256

/-! ### The manifest -/

/-- What the write of a manifest does, with this at its path. -/
def SavesOver (node : Inode) : Deed → Prop
  | .found _ _ => False
  | .wrote p _ => p = manifestPath ∨ Reserved p
  | .destroyed p hash =>
    Reserved p ∨ (p = manifestPath ∧ ∃ owner mode content, node = .file owner mode content ∧
      MetaStore.digest content = hash)

/-- The manifest is as it was, or this one. -/
structure Saves (m : ByteArray) (w w' : World) : Prop where
  log : Log.Extends (fun _ => SavesOver (w.fs manifestPath)) w.log w'.log
  manifest : w'.fs manifestPath = w.fs manifestPath ∨
    (w'.fs manifestPath = .file .root Manifest.mode m ∧ .wrote manifestPath (MetaStore.digest m) ∈ w'.log)

theorem Quiet.saves {m : ByteArray} (h : Quiet w w') : Saves m w w' := ⟨h.log ▸ .refl, Or.inl h.manifest⟩

theorem Saves.quiet {m : ByteArray} {w₁ w₂ : World} (hfirst : Quiet w w₁) (h : Saves m w₁ w₂) (hlast : Quiet w₂ w') :
    Saves m w w' := by
  obtain ⟨hlog, hmanifest⟩ := h
  rw [hfirst.log, hfirst.manifest] at hlog
  rw [hfirst.manifest] at hmanifest
  refine ⟨hlast.log ▸ hlog, ?_⟩
  rw [hlast.log, hlast.manifest]
  exact hmanifest

theorem rmForce_saves {m : ByteArray} : Saves m w (w.rmForce (tempFor manifestPath)) := by
  unfold World.rmForce
  split
  · exact (Quiet.refl w).saves
  · refine ⟨destroy_extends fun _ _ _ _ => Or.inl (reserved_tempFor manifestPath), Or.inl ?_⟩
    rw [(quiet_set (tempFor_ne_manifestPath manifestPath) .missing).manifest, destroy_fs]

/-- A manifest is moved into a directory, if one is there; under a name of the daemon's own. -/
theorem move_saves {m : ByteArray} : Saves m w (w.move manifestPath .root Manifest.mode m) := by
  unfold World.move World.moveTarget moveInto
  split
  · have hinto := reserved_into (leadsTo w.fs manifestPath) manifestPath
    have hne : leadsTo w.fs manifestPath ++ '/' :: (splitName (tempFor manifestPath)).2 ≠ manifestPath := by
      intro h
      rw [h] at hinto
      exact not_reserved_manifestPath hinto
    refine ⟨.concat (destroy_extends fun _ _ _ _ => Or.inl hinto) (Or.inr hinto), Or.inl ?_⟩
    simp [World.note, World.set, destroy_fs, hne.symm]
  · refine ⟨.concat (destroy_extends fun o md c hfile => Or.inr ⟨rfl, o, md, c, hfile, rfl⟩) (Or.inl rfl), Or.inr ⟨?_, ?_⟩⟩
    · simp [World.note, World.set]
    · exact List.mem_append_right _ (List.mem_singleton_self _)

theorem Saves.trans {m : ByteArray} {w₁ : World} (h : Saves m w w₁) (hsame : w₁.fs manifestPath = w.fs manifestPath)
    (h' : Saves m w₁ w') : Saves m w w' := by
  obtain ⟨hlog, hmanifest⟩ := h'
  rw [hsame] at hlog hmanifest
  exact ⟨h.log.trans hlog, hmanifest⟩

theorem place_saves {m : ByteArray} (h : place w fault manifestPath m Manifest.mode .root .any = (r, w')) :
    Saves m w w' := by
  have hrm : Saves m w (w.rmForce (tempFor manifestPath)) := rmForce_saves
  have hsame := rmForce_fs (w := w) (tempFor_ne_manifestPath manifestPath).symm
  have hplaced := after_place w fault manifestPath m Manifest.mode .root .any
  rw [h] at hplaced
  cases hplaced with
  | left hne => exact hrm
  | cut _ kept => exact hrm.trans hsame (quiet_set (tempFor_ne_manifestPath manifestPath) _).saves
  | done hholds _ => exact hrm.trans hsame move_saves

theorem commit_saves [Serde] {dirs : List Text} {m : Manifest} {r : Except String (List Outcome)}
    (hdirs : ∀ dir ∈ dirs, dir ≠ manifestPath) (h : w.commit dirs [manifestOp m] = (r, w')) : Saves m.render w w' := by
  obtain ⟨w₁, hfirst, ⟨-, hlast⟩ | ⟨r₁, w₂, hops, hlast, -⟩⟩ := commit_cases hdirs h
  · exact (hfirst.trans hlast).saves
  · refine Saves.quiet hfirst ?_ hlast
    have hturn := quiet_turn w₁
    have hop : ∃ r₂, runOp w₁ (manifestOp m) = (r₂, w₂) := by
      unfold runOps at hops
      split at hops
      · next e w₃ heq =>
        cases hops
        exact ⟨_, heq⟩
      · next outcome w₃ heq =>
        cases hops
        exact ⟨_, heq⟩
    obtain ⟨r₂, hop⟩ := hop
    unfold runOp manifestOp at hop
    split at hop
    next fault w₃ heq =>
    rw [heq] at hturn
    split at hop
    · cases hop
      exact hturn.saves
    · exact Saves.quiet hturn (place_saves hop) (.refl w₂)

end Guest
end PveMeta
