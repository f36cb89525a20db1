import PveMeta.Lifecycle
import PveMeta.Theorems.Import

/-! # The marker of a create

While the marker is there, the log ends in the create that left it and in nothing since that takes it; the
companion marker says what kind of create that was. Every step keeps this, apart from a destroy whose hook
does not run to its end. -/

namespace PveMeta
namespace Lifecycle
open Backup MetaStore

/-! ### Mentions -/

theorem mentionsBlock_iff {notes : Text} : mentionsBlock notes = true ↔ ∃ a b, notes = a ++ b ∧ beginPrefix <+: b := by
  rw [mentionsBlock, List.any_eq_true]
  constructor
  · rintro ⟨t, ht, hpre⟩
    obtain ⟨a, rfl⟩ := (List.mem_tails t notes).mp ht
    exact ⟨a, t, rfl, List.isPrefixOf_iff_prefix.mp hpre⟩
  · rintro ⟨a, b, rfl, hpre⟩
    exact ⟨b, (List.mem_tails b _).mpr (List.suffix_append a b), List.isPrefixOf_iff_prefix.mpr hpre⟩

theorem mentionsBlock_of_lastHeader {notes : Text} {start : Nat} (h : lastHeader notes = some start) :
    mentionsBlock notes = true := by
  obtain ⟨a, b, hsplit, -, hpre⟩ := lastHeader_eq_some h
  exact mentionsBlock_iff.mpr ⟨a, b, hsplit, hpre⟩

theorem mentionsBlock_of_find {notes : Text} {found : Found} (h : find notes = .ok (some found)) :
    mentionsBlock notes = true := by
  rw [find] at h
  split at h
  · cases h
  · next start hstart => exact mentionsBlock_of_lastHeader hstart

/-! ### Quiet entries -/

/-- An entry that leaves the marker of an earlier create to a later write; `destroys` tells whether a destroy
    is one. -/
def Quiet (destroys : Bool) : Entry → Prop
  | .wrote conf _ => takes conf = false
  | .created _ => False
  | .destroyed => destroys = true
  | .other => True

/-- The last create of the log, called with `allowExisting`, has only quiet entries after it. -/
def Armed (destroys allowExisting : Bool) (log : List Entry) : Prop :=
  ∃ before after, log = before ++ .created allowExisting :: after ∧ ∀ e ∈ after, Quiet destroys e

theorem armed_created (destroys allow : Bool) (log : List Entry) : Armed destroys allow (log ++ [.created allow]) :=
  ⟨log, [], rfl, fun _ h => nomatch h⟩

theorem Armed.concat {destroys allow : Bool} {log : List Entry} {e : Entry} (h : Armed destroys allow log)
    (he : Quiet destroys e) : Armed destroys allow (log ++ [e]) := by
  obtain ⟨before, after, rfl, hafter⟩ := h
  refine ⟨before, after ++ [e], by simp, ?_⟩
  exact List.forall_mem_append.mpr ⟨hafter, List.forall_mem_singleton.mpr he⟩

/-- No clean log with a destroy at its end is armed. -/
theorem not_armed_destroyed (allow : Bool) (log : List Entry) : ¬ Armed false allow (log ++ [.destroyed]) := by
  rintro ⟨before, after, hlog, hafter⟩
  rcases List.eq_nil_or_concat after with rfl | ⟨after, e, rfl⟩
  · obtain ⟨-, he⟩ := List.append_inj' hlog rfl
    cases he
  · have hsplit : log ++ [Entry.destroyed] = (before ++ .created allow :: after) ++ [e] := by
      rw [hlog]
      simp
    obtain ⟨-, he⟩ := List.append_inj' hsplit rfl
    cases he
    have hquiet : Quiet false .destroyed := hafter .destroyed (by simp)
    exact Bool.false_ne_true hquiet

/-- Why a write may do what it did: an import or a clearing takes the marker of a create, which for a clearing
    was called over an existing guest. -/
def Reason (destroys : Bool) (before : List Entry) : Entry → Prop
  | .wrote conf (.imports _) => takes conf = true ∧ ∃ allow, Armed destroys allow before
  | .wrote conf (.clears _) => takes conf = true ∧ Armed destroys true before
  | _ => True

/-- The markers and the log of a run. -/
structure Inv (destroys : Bool) (n : Node) (log : List Entry) : Prop where
  armed : n.created = true → Armed destroys n.existing log
  reasons : Log.Justified (Reason destroys) log

section

variable {vmid : UInt32} {n n' : Node} {conf conf' : GuestConf} {effect : Effect} {gotLock : Bool}
  {log : List Entry} {destroys : Bool}

theorem inv_nil (h : n.created = false) : Inv destroys n [] :=
  ⟨fun hc => absurd hc (by simp [h]), Log.justified_nil⟩

theorem Inv.mark (h : Inv destroys n log) (vmid : UInt32) (allow gotPurge : Bool) :
    Inv destroys (markCreated vmid n allow gotPurge) (log ++ [.created allow]) :=
  ⟨fun _ => armed_created destroys allow log, h.reasons.concat True.intro⟩

/-- A destroy takes the marker if its hook runs to its end. -/
theorem destroyConfig_created (h : gotLock = true ∧ n.store.FaultFree) :
    (destroyConfig vmid n gotLock).created = false := by
  obtain ⟨rfl, hfree⟩ := h
  obtain ⟨k, files, hpurge, -⟩ := @purge_eq n.store vmid hfree
  simp only [destroyConfig, lockedWarn, hpurge, if_true]

theorem created_of_destroyConfig (h : (destroyConfig vmid n gotLock).created = true) :
    n.created = true ∧ (destroyConfig vmid n gotLock).existing = n.existing := by
  unfold destroyConfig at h ⊢
  dsimp only at h ⊢
  split at h
  · cases h
  · exact ⟨h, rfl⟩

/-- A destroy that finds the marker gets the lock, and its purge cannot fail. -/
def CleanDestroy (n : Node) : Call → Prop
  | .destroy gotLock => n.created = true → gotLock = true ∧ n.store.FaultFree
  | _ => True

/-- A destroy that leaves the marker is not a clean one. -/
theorem Inv.destroy (h : Inv destroys n log)
    (hc : destroys = false → n.created = true → gotLock = true ∧ n.store.FaultFree) :
    Inv destroys (destroyConfig vmid n gotLock) (log ++ [.destroyed]) := by
  refine ⟨fun hcreated => ?_, h.reasons.concat True.intro⟩
  obtain ⟨hbefore, hexisting⟩ := created_of_destroyConfig hcreated
  have hdestroys : destroys = true := by
    by_contra hd
    have hgone : (destroyConfig vmid n gotLock).created = false :=
      destroyConfig_created (hc (Bool.not_eq_true _ ▸ hd) hbefore)
    rw [hcreated] at hgone
    cases hgone
  rw [hexisting]
  exact (h.armed hbefore).concat hdestroys

variable [Deps]

/-- What a config write can do: take both markers, and import or clear only if the markers call for it, or
    leave the node as it is. -/
theorem writeConfig_cases (h : writeConfig vmid n conf gotLock = (n', conf', effect)) :
    (takes conf = true ∧ n.created = true ∧ n'.created = false ∧
        ((∃ r, effect = .imports r) ∨ (n.existing = true ∧ ∃ r, effect = .clears r) ∨ effect = .none)) ∨
      ((takes conf = true → n.created = false) ∧ n' = n ∧ effect = .none) := by
  unfold writeConfig at h
  split at h
  · next htakes =>
    simp only [Bool.and_eq_true] at htakes
    left
    split at h
    · cases h
      exact ⟨htakes.1, htakes.2, rfl, Or.inl ⟨_, rfl⟩⟩
    · split at h
      · next hexisting =>
        cases h
        exact ⟨htakes.1, htakes.2, rfl, Or.inr (Or.inl ⟨hexisting, _, rfl⟩)⟩
      · cases h
        exact ⟨htakes.1, htakes.2, rfl, Or.inr (Or.inr rfl)⟩
  · next htakes =>
    right
    cases h
    simp only [Bool.and_eq_true, not_and, Bool.not_eq_true] at htakes
    exact ⟨htakes, rfl, rfl⟩

theorem Inv.write (h : Inv destroys n log) (hw : writeConfig vmid n conf gotLock = (n', conf', effect)) :
    Inv destroys n' (log ++ [.wrote conf effect]) := by
  rcases writeConfig_cases hw with ⟨htakes, hcreated, hcreated', heffect⟩ | ⟨htakes, rfl, rfl⟩
  · have harmed := h.armed hcreated
    refine ⟨fun hc => absurd hc (by simp [hcreated']), h.reasons.concat ?_⟩
    rcases heffect with ⟨r, rfl⟩ | ⟨hexisting, r, rfl⟩ | rfl
    · exact ⟨htakes, _, harmed⟩
    · exact ⟨htakes, hexisting ▸ harmed⟩
    · exact True.intro
  · refine ⟨fun hc => (h.armed hc).concat ?_, h.reasons.concat True.intro⟩
    show takes conf = false
    by_contra htakes'
    rw [htakes (Bool.not_eq_false _ ▸ htakes')] at hc
    cases hc

/-- Every step keeps the invariant, with no destroy since the create if every destroy is a clean one. -/
theorem Inv.step (c : Call) (hc : destroys = false → CleanDestroy n c) (h : Inv destroys n log) :
    Inv destroys (Lifecycle.step vmid n c).1 (log ++ (Lifecycle.step vmid n c).2) := by
  cases c with
  | create allow lock old gotImport gotPurge =>
    obtain ⟨n', conf', effect, hw⟩ : ∃ n' conf' effect,
        writeConfig vmid n (skeleton old lock) gotImport = (n', conf', effect) := ⟨_, _, _, rfl⟩
    have := (h.write hw).mark vmid allow gotPurge
    simpa [Lifecycle.step, createAndLockConfig, hw] using this
  | write conf gotLock =>
    obtain ⟨n', conf', effect, hw⟩ : ∃ n' conf' effect,
        writeConfig vmid n conf gotLock = (n', conf', effect) := ⟨_, _, _, rfl⟩
    simpa [Lifecycle.step, hw] using h.write hw
  | destroy gotLock => exact h.destroy hc
  | other store => exact ⟨fun hcreated => (h.armed hcreated).concat True.intro, h.reasons.concat True.intro⟩

theorem inv_run {calls : List Call} (hc : destroys = false → Log.Along (Lifecycle.step vmid) CleanDestroy n calls)
    (h0 : n.created = false) : Inv destroys (run vmid n calls).1 (run vmid n calls).2 := by
  have halong : Log.Along (Lifecycle.step vmid) (fun n c => destroys = false → CleanDestroy n c) n calls := by
    cases destroys with
    | false =>
      have := hc rfl
      simpa using this
    | true => simpa using Log.Along.trivial n calls
  exact Log.run_inv (fun n log c hc (h : Inv destroys n log) => h.step c hc) halong (inv_nil h0)

end

/-! ### What the log says -/

/-- An import follows a create, with no create, no destroy and no write that takes the marker in between. -/
def ImportsFollowCreate (log : List Entry) : Prop :=
  Log.Justified (fun before e => ∀ conf r, e = .wrote conf (.imports r) → ∃ allow, Armed false allow before) log

/-- Between two imports there is a create. -/
def ImportsOnce (log : List Entry) : Prop :=
  ∀ before between after conf r conf' r',
    log = before ++ .wrote conf (.imports r) :: (between ++ .wrote conf' (.imports r') :: after) →
      ∃ allow, .created allow ∈ between

/-- A clearing takes the marker of a create that was called over an existing guest: no other create, and no
    write that takes the marker, is in between. -/
def ClearsFollowRestore (log : List Entry) : Prop :=
  Log.Justified (fun before e => ∀ conf r, e = .wrote conf (.clears r) → Armed true true before) log

/-- An import takes the marker, so the next one needs another create. -/
theorem importsOnce_of_reasons {destroys : Bool} {log : List Entry} (h : Log.Justified (Reason destroys) log) :
    ImportsOnce log := by
  intro before between after conf r conf' r' hlog
  have htakes : takes conf = true := (h _ _ _ hlog).1
  have hlog' : log = (before ++ .wrote conf (.imports r) :: between) ++ .wrote conf' (.imports r') :: after := by
    rw [hlog]
    simp
  obtain ⟨-, allow, init, tail, hsplit, hquiet⟩ := h _ _ _ hlog'
  refine ⟨allow, ?_⟩
  rcases List.append_eq_append_iff.mp hsplit with ⟨t, rfl, ht⟩ | ⟨t, rfl, ht⟩
  · -- The last create is after the first import.
    cases t with
    | nil => cases ht
    | cons e t =>
      obtain ⟨-, rfl⟩ := List.cons.inj ht
      simp
  · cases t with
    | nil => cases ht
    | cons e t =>
      obtain ⟨-, rfl⟩ := List.cons.inj ht
      have hkept : Quiet destroys (.wrote conf (.imports r)) := hquiet (.wrote conf (.imports r)) (by simp)
      exact absurd htakes (by simp [show takes conf = false from hkept])

/-- In a run whose destroys are clean, every import has a create of its own. In any run, a clearing takes the
    marker of a create over an existing guest. -/
theorem run_markers [Deps] (vmid : UInt32) (n : Node) (calls : List Call) (h0 : n.created = false) :
    (Log.Along (step vmid) CleanDestroy n calls →
        ImportsFollowCreate (run vmid n calls).2 ∧ ImportsOnce (run vmid n calls).2) ∧
      ClearsFollowRestore (run vmid n calls).2 := by
  constructor
  · intro hclean
    have hreasons := (@inv_run vmid n false _ calls (fun _ => hclean) h0).reasons
    refine ⟨hreasons.mono fun before e hreason conf r he => ?_, importsOnce_of_reasons hreasons⟩
    subst he
    exact hreason.2
  · have hreasons := (@inv_run vmid n true _ calls (fun h => nomatch h) h0).reasons
    refine hreasons.mono fun before e hreason conf r he => ?_
    subst he
    exact hreason.2

/-! ### Samples -/

section

open Sample

/-- A create, a write whose notes mention a block, and a create that is destroyed again. -/
def sampleCalls : List Call :=
  [.create false none ⟨none, none⟩ true true, .write ⟨none, some "see [pve-meta v1]".toList⟩ true,
    .create false none ⟨none, none⟩ true true, .destroy true]

theorem run_markers_sample :
    (ImportsFollowCreate (run 100 ⟨storeOf [], false, false⟩ sampleCalls).2 ∧
        ImportsOnce (run 100 ⟨storeOf [], false, false⟩ sampleCalls).2) ∧
      ClearsFollowRestore (run 100 ⟨storeOf [], false, false⟩ sampleCalls).2 := by
  have hclean : Log.Along (step 100) CleanDestroy ⟨storeOf [], false, false⟩ sampleCalls :=
    ⟨True.intro, True.intro, True.intro, fun _ => ⟨rfl, by rfl, by rfl, by rfl⟩, True.intro⟩
  have h := run_markers 100 ⟨storeOf [], false, false⟩ sampleCalls rfl
  exact ⟨h.1 hclean, h.2⟩

/-- A destroy that gets no lock leaves the marker of the create before it, and a write imports a block. -/
theorem destroyed_create_imports :
    ∃ notes d before after,
      (run 100 ⟨storeOf [], false, false⟩ [.create false none ⟨none, none⟩ true true, .destroy false,
          .write ⟨none, some notes⟩ true]).2 =
        before ++ .wrote ⟨none, some notes⟩ (.imports (some (.ok ⟨.imported, d⟩))) :: after ∧
      ¬ ∃ allow, Armed false allow before := by
  obtain ⟨block, hexport⟩ := @exportBlock_storeOf 100 "a: 1\n".toList (docA 1) 0 (by decide) (by decide) rfl
  obtain ⟨doc, hread, -, hrender⟩ := exportBlock_eq_ok hexport
  have hdoc := @read_storeOf 100 "a: 1\n".toList (docA 1) (by decide) rfl
  obtain rfl := Except.ok.inj (hdoc.symm.trans hread)
  obtain ⟨found, hfind, hyaml⟩ : ∃ found, find (composeNotes [] block) = .ok (some found) ∧
      found.yaml = Text.trimNewlines (Format.yaml.dump (docA 1).val) :=
    ⟨_, @find_composed _ 100 0 (docA 1) _ block [] dumps_docA (noSpace_digest _) hrender, rfl⟩
  have hmentions : mentionsBlock (composeNotes [] block) = true := mentionsBlock_of_find hfind
  -- The store is as the create found it: the destroy did not get to its purge.
  obtain ⟨w, hcheck⟩ :=
    @checkRaw_dump _ _ _ _ _ _ (storeOf []) (.guest 100) (faultFree_storeOf []) dumps_docA (by decide) hrender
  rw [← hyaml] at hcheck
  obtain ⟨files, himport, -⟩ := importBlock_of_ok (faultFree_storeOf []) hfind hcheck
  have hcreate : createAndLockConfig 100 ⟨storeOf [], false, false⟩ false none ⟨none, none⟩ true true =
      (⟨storeOf [], true, false⟩, .none) := by rfl
  have hwrite : (writeConfig 100 ⟨storeOf [], true, false⟩ ⟨none, some (composeNotes [] block)⟩ true).2.2 =
      .imports (some (.ok ⟨.imported, some (stripAll (strip (composeNotes [] block) found))⟩)) := by
    simp [writeConfig, takes, metaBlock, hmentions, lockedWarn, himport]
  refine ⟨composeNotes [] block, some (stripAll (strip (composeNotes [] block) found)),
    [.wrote (skeleton ⟨none, none⟩ none) .none, .created false, .destroyed], [], ?_, ?_⟩
  · rw [← hwrite]
    simp only [run, Log.run, step, hcreate]
    rfl
  · rintro ⟨allow, harmed⟩
    exact not_armed_destroyed allow [_, _] harmed

end

end Lifecycle
end PveMeta
