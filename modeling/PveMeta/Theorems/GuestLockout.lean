import PveMeta.Guest.Sample
import PveMeta.Theorems.GuestOwn

/-! # A manifest that is too long

A manifest that is not one, or has a record that does not validate, is not trusted, and a sync goes on as if there were
none. One above the cap is not read at all, and no sync decides anything until it is gone; and the manifest that a sync
writes at its path is read back by the next one, unless it is above the cap. -/

namespace PveMeta
namespace Guest

variable {w w' : World}

/-! ### Calls that are answered -/

/-- No call to the guest fails. -/
def Serves (w : World) : Prop := ∀ t ∈ w.turns, t.fault = .none

theorem Serves.turn (h : Serves w) : w.turn.1 = .none ∧ Serves w.turn.2 := by
  unfold World.turn
  split
  · exact ⟨rfl, h⟩
  · next t turns hturns =>
    refine ⟨h t (hturns ▸ List.mem_cons_self), ?_⟩
    split <;> exact fun t' ht' => h t' (hturns ▸ List.mem_cons_of_mem t ht')

theorem Serves.call (h : Serves w) : w.call = (.ok (), w.turn.2) := by
  rw [World.call]
  simp [h.turn.1]

/-- What is at the manifest's path is no file above the cap. -/
def Inode.Fits : Inode → Prop
  | .file _ _ content => content.size ≤ Manifest.maxBytes
  | _ => True

theorem Serves.read (h : Serves w) : (w.read manifestPath Manifest.maxBytes).2 = w.turn.2 ∧
    ((∃ bytes, (w.read manifestPath Manifest.maxBytes).1 = .ok bytes) ↔ (w.fs manifestPath).Fits) := by
  have hmanifest := (quiet_turn w).manifest
  rw [World.read, h.call, ← hmanifest]
  dsimp only
  cases hnode : w.turn.2.fs manifestPath with
  | file owner mode content =>
    by_cases hsize : content.size > Manifest.maxBytes
    · simp [hsize, Inode.Fits]
    · simp [hsize, Inode.Fits, Nat.le_of_not_lt hsize]
  | _ => simp [Inode.Fits]

section

variable [Deps]

theorem Serves.probeAll (paths : List Text) (h : Serves w) : ∃ nodes, (World.probeAll paths w).1 = .ok nodes := by
  induction paths generalizing w with
  | nil => exact ⟨[], rfl⟩
  | cons path paths ih =>
    obtain ⟨nodes, hnodes⟩ := ih h.turn.2
    rw [World.probeAll, h.call]
    dsimp only
    split
    · next e _ heq =>
      rw [heq] at hnodes
      cases hnodes
    · exact ⟨_, rfl⟩

variable [RustDebug] [Serde] {files : GuestFiles} {force : Bool}

/-! ### What a sync decides from -/

/-- A sync decides, from the manifest that it reads; one that is not trusted counts as empty, and so does none. -/
structure Decided (files : GuestFiles) (force : Bool) (w : World) (ins : Inspection) : Prop where
  ok : (inspect files force w).1 = .ok ins
  trusted : ∀ owner mode content m, w.fs manifestPath = .file owner mode content → Manifest.parse content = .ok m →
    ins.manifest = m ∧ ins.warning = none
  untrusted : ∀ owner mode content e, w.fs manifestPath = .file owner mode content → Manifest.parse content = .error e →
    ins.manifest = .empty ∧ ins.warning.isSome = true
  missing : (∀ owner mode content, w.fs manifestPath ≠ .file owner mode content) → ins.manifest = .empty ∧
    ins.warning = none

theorem decided_of_inspect {ins : Inspection} (h : (inspect files force w).1 = .ok ins) : Decided files force w ins := by
  obtain ⟨nodes, hlook, -⟩ := @inspect_eq_ok w (inspect files force w).2 _ files force _ _ ins (Prod.ext h rfl)
  obtain ⟨bytes, hread, hseen⟩ := read_of_look hlook
  rcases bytes_of_read hread with ⟨owner, mode, content, hfile, rfl⟩ | ⟨hnot, rfl⟩
  · refine ⟨h, fun _ _ _ m hnode hparse => ?_, fun _ _ _ e hnode hparse => ?_, fun hnone => absurd hfile (hnone _ _ _)⟩
    · cases hfile.symm.trans hnode
      rw [Guest.trusted, hparse, Prod.mk.injEq] at hseen
      exact hseen
    · cases hfile.symm.trans hnode
      rw [Guest.trusted, hparse, Prod.mk.injEq] at hseen
      exact ⟨hseen.1, by rw [hseen.2]; rfl⟩
  · refine ⟨h, fun _ _ _ _ hnode => absurd hnode (hnot _ _ _), fun _ _ _ _ hnode => absurd hnode (hnot _ _ _), fun _ => ?_⟩
    rw [Guest.trusted, Prod.mk.injEq] at hseen
    exact hseen

theorem Serves.look (h : Serves w) : (∃ seen, (look files w).1 = .ok seen) ↔ (w.fs manifestPath).Fits := by
  obtain ⟨hturn, hread⟩ := h.read
  rw [← hread]
  simp only [Guest.look, Calls.look, World.calls_read, World.calls_probe]
  cases hbytes : w.read manifestPath Manifest.maxBytes with
  | mk r w₁ =>
    rw [hbytes] at hturn
    obtain rfl : w₁ = w.turn.2 := hturn
    cases r with
    | error e => simp
    | ok bytes =>
      dsimp only
      refine ⟨fun _ => ⟨bytes, rfl⟩, fun _ => ?_⟩
      split
      · obtain ⟨nodes, hnodes⟩ := h.turn.2.probeAll (probePaths files (trusted bytes).1)
        rw [← World.probe] at hnodes
        split
        · next e _ heq =>
          rw [heq] at hnodes
          cases hnodes
        · exact ⟨_, rfl⟩
      · exact ⟨_, rfl⟩

theorem inspect_of_look {seen : (Manifest × Option String) × Nodes} (h : (look files w).1 = .ok seen) :
    ∃ ins, (inspect files force w).1 = .ok ins := by
  simp only [inspect, Calls.inspect, World.calls_look, World.calls_note]
  cases hlook : look files w with
  | mk r w₁ =>
    rw [hlook] at h
    cases h
    exact ⟨_, rfl⟩

/-- A sync decides exactly if the manifest is not above the cap. -/
theorem Serves.decides (h : Serves w) : (∃ ins, Decided files force w ins) ↔ (w.fs manifestPath).Fits := by
  rw [← @Serves.look w _ _ _ files h]
  constructor
  · rintro ⟨ins, hins⟩
    obtain ⟨nodes, hlook, -⟩ := @inspect_eq_ok w (inspect files force w).2 _ files force _ _ ins (Prod.ext hins.ok rfl)
    exact ⟨_, hlook⟩
  · rintro ⟨seen, hlook⟩
    obtain ⟨ins, hins⟩ := @inspect_of_look w _ _ _ files force seen hlook
    exact ⟨ins, decided_of_inspect hins⟩

/-! ### What a sync writes -/

/-- What a sync is to write as the manifest: what its commit was answered to have come to, where that is not what it
    read. -/
def ToSave (files : GuestFiles) (force : Bool) (w : World) (after : Manifest) : Prop :=
  ∃ ins w₁ outcomes w₂, inspect files force w = (.ok ins, w₁) ∧ ins.plan.changes ins.manifest = true ∧
    (if ins.plan.ops.isEmpty then (.ok [], w₁) else w₁.commit ins.plan.dirs ins.plan.ops) = (.ok outcomes, w₂) ∧
    after = ins.plan.manifestAfter ins.manifest (outcomes.map fun o => o == .done) ∧ after ≠ ins.manifest

section

variable {after : Manifest} (h : ToSave files force w after)

include h

theorem ToSave.keyed {V : Writer} (hask : V.Asks files) : after.Keyed := by
  obtain ⟨ins, w₁, outcomes, w₂, hins, -, hcommit, hafter, -⟩ := h
  obtain ⟨nodes, -, hold, hplan, -⟩ := inspect_eq_ok hins
  obtain ⟨-, hanswered⟩ := commit_plan hplan hcommit
  have hleft : Left ins.plan ins.manifest after w₂.log := ⟨outcomes, hanswered outcomes rfl, hafter⟩
  exact (hplan ▸ hleft).keyed hask (hold ▸ keyed_manifestAt _)

/-- It is what is saved, on a manifest that is as it was read. -/
theorem ToSave.saves : ∃ (old : Manifest) (dirs : List Text) (w₂ : World), after ≠ old ∧
    (∀ dir ∈ dirs, dir ≠ manifestPath) ∧
    w₂.fs manifestPath = w.fs manifestPath ∧ (sync files force w).2 = (saveManifest old after dirs w₂).2 ∧
      ((∃ report, (sync files force w).1 = .ok report) → (saveManifest old after dirs w₂).1 = .ok ()) := by
  obtain ⟨ins, w₁, outcomes, w₂, hins, hchanges, hcommit, hafter, hne⟩ := h
  obtain ⟨nodes, -, -, hplan, hlooked⟩ := inspect_eq_ok hins
  obtain ⟨hacts, -⟩ := commit_plan hplan hcommit
  obtain ⟨hworld, hthrough⟩ := sync_carry hins hchanges
  refine ⟨ins.manifest, _, w₂, hne, ne_manifestPath_of_left hplan, hacts.manifest.trans hlooked.acts.manifest, ?_⟩
  rw [hworld, hthrough, carry, hcommit]
  dsimp only
  rw [← hafter, conclude]
  cases hsave : saveManifest ins.manifest after (if ins.plan.ops.isEmpty then ins.plan.dirs else []) w₂ with
  | mk r w₃ =>
    cases r with
    | error e => exact ⟨rfl, by rintro ⟨outcomes', ⟨⟩⟩⟩
    | ok u => exact ⟨rfl, fun _ => rfl⟩

/-- Nothing else is ever written at the manifest's path. -/
theorem ToSave.written : (sync files force w).2.fs manifestPath = w.fs manifestPath ∨
    (sync files force w).2.fs manifestPath = .file .root Manifest.mode after.render := by
  obtain ⟨old, dirs, w₂, -, hdirs, hsame, hworld, -⟩ := h.saves
  rw [hworld, ← hsame]
  exact (saveManifest_saves old after w₂ hdirs).manifest.imp_right And.left

/-- It is there when the sync has got through, unless there may be a directory that it was moved into. -/
theorem ToSave.through (hthrough : ∃ report, (sync files force w).1 = .ok report) (hleads : ¬ (w.fs manifestPath).Leads) :
    (sync files force w).2.fs manifestPath = .file .root Manifest.mode after.render := by
  obtain ⟨old, dirs, w₂, hne, hdirs, hsame, hworld, hok⟩ := h.saves
  rw [hworld]
  rcases saveManifest_leaves hdirs (Prod.ext (hok hthrough) rfl) with ⟨heq, -⟩ | hwritten | ⟨-, hdir⟩
  · exact absurd heq hne
  · exact hwritten
  · exact absurd (hsame ▸ hdir) hleads

/-- Where nobody else does anything meanwhile, it is there unless the path is or leads to a directory. -/
theorem ToSave.through_alone {V : Writer} (hask : V.Asks files) (halone : Alone w)
    (hthrough : ∃ report, (sync files force w).1 = .ok report)
    (hdir : nodeAt (sync files force w).2.fs manifestPath ≠ .dir) :
    (sync files force w).2.fs manifestPath = .file .root Manifest.mode after.render := by
  obtain ⟨ins, w₁, outcomes, w₂, hins, hchanges, hcommit, hafter, hne⟩ := h
  obtain ⟨nodes, -, -, hplan, -⟩ := inspect_eq_ok hins
  have hidle := @inspect_alone _ files force _ _ _ halone
  rw [hins] at hidle
  obtain ⟨halone₂, -, -⟩ := commit_plan_alone hplan hask hidle.alone hcommit
  obtain ⟨hworld, hok⟩ := sync_carry hins hchanges
  rw [hok, carry, hcommit] at hthrough
  rw [hworld, carry, hcommit] at hdir ⊢
  dsimp only at hthrough hdir ⊢
  rw [← hafter, conclude] at hthrough hdir ⊢
  have hsaved := @saveManifest_alone _ w₂ _ _ ins.manifest after halone₂ (ne_manifestPath_of_left hplan)
  cases hsave : saveManifest ins.manifest after (if ins.plan.ops.isEmpty then ins.plan.dirs else []) w₂ with
  | mk r w₃ =>
    rw [hsave] at hthrough hdir hsaved
    cases r with
    | error e =>
      obtain ⟨outcomes', ⟨⟩⟩ := hthrough
    | ok u =>
      rcases hsaved.manifest with ⟨-, hkept⟩ | hwritten
      · exact ((hkept rfl).elim hne hdir).elim
      · exact hwritten

end

/-- A sync that has nothing to write as the manifest leaves what is at its path. -/
theorem sync_manifest (files : GuestFiles) (force : Bool) (w : World) :
    (sync files force w).2.fs manifestPath = w.fs manifestPath ∨ ∃ after, ToSave files force w after := by
  cases hins : inspect files force w with
  | mk r w₁ =>
    cases r with
    | error e =>
      simp only [sync, Calls.sync, World.calls_inspect]
      rw [hins]
      exact .inl (inspect_eq_error hins).manifest
    | ok ins =>
      obtain ⟨nodes, -, -, hplan, hlooked⟩ := inspect_eq_ok hins
      by_cases hchanges : ins.plan.changes ins.manifest = true
      · rw [(sync_carry hins hchanges).1, carry]
        cases hcommit : if ins.plan.ops.isEmpty then (.ok [], w₁) else w₁.commit ins.plan.dirs ins.plan.ops with
        | mk r w₂ =>
          have hsame := (commit_plan hplan hcommit).1.manifest.trans hlooked.acts.manifest
          cases r with
          | error e => exact .inl hsame
          | ok outcomes =>
            by_cases hafter : ins.plan.manifestAfter ins.manifest (outcomes.map fun o => o == .done) = ins.manifest
            · refine .inl ?_
              dsimp only
              rwa [hafter, conclude, saveManifest, Calls.saveManifest, if_pos rfl]
            · exact .inr ⟨_, ins, w₁, outcomes, w₂, hins, hchanges, hcommit, rfl, hafter⟩
      · simp only [sync, Calls.sync, World.calls_inspect]
        rw [hins]
        dsimp only
        rw [if_neg hchanges]
        exact .inl hlooked.acts.manifest

/-- A sync decides a plan, from a manifest that counts as empty if it is not trusted, if and only if the manifest is not
    above the cap. At the manifest's path it writes the manifest that it is to write, or nothing; that is there when it
    has got through, unless the path may have led to a directory; and where it is there, the next sync reads it back, as
    the records that were written, if and only if it is not above the cap. -/
theorem never_locked_out_iff (hserde : Manifest.SerdeReads) :
    (∀ (files : GuestFiles) (force : Bool) (w : World), Serves w →
      ((∃ ins, Decided files force w ins) ↔ (w.fs manifestPath).Fits)) ∧
    ∀ (V : Writer) (files : GuestFiles) (force : Bool) (w : World), V.Asks files →
      ((sync files force w).2.fs manifestPath = w.fs manifestPath ∨ ∃ after, ToSave files force w after ∧
        (sync files force w).2.fs manifestPath = .file .root Manifest.mode after.render) ∧
      ∀ after, ToSave files force w after →
        ((∃ report, (sync files force w).1 = .ok report) →
          (¬ (w.fs manifestPath).Leads ∨ Alone w ∧ nodeAt (sync files force w).2.fs manifestPath ≠ .dir) →
          (sync files force w).2.fs manifestPath = .file .root Manifest.mode after.render) ∧
        ((sync files force w).2.fs manifestPath = .file .root Manifest.mode after.render →
          ∀ (next : GuestFiles) (force' : Bool) (turns : List Turn), Serves { (sync files force w).2 with turns } →
            ((∃ ins, Decided next force' { (sync files force w).2 with turns } ins ∧ ins.manifest = after ∧
              ins.warning = none) ↔
              after.render.size ≤ Manifest.maxBytes)) := by
  refine ⟨fun files force w h => h.decides, fun V files force w hask =>
    ⟨?_, fun after h => ⟨fun hthrough hleads => hleads.elim (h.through hthrough) fun halone =>
      h.through_alone hask halone.1 hthrough halone.2, fun hwritten => ?_⟩⟩⟩
  · rcases sync_manifest files force w with hsame | ⟨after, h⟩
    · exact .inl hsame
    · exact h.written.imp_right fun hwritten => ⟨after, h, hwritten⟩
  · intro next force' turns hserves
    have hfits : ((sync files force w).2.fs manifestPath).Fits ↔ after.render.size ≤ Manifest.maxBytes := by
      rw [hwritten]
      exact Iff.rfl
    rw [← hfits, ← @Serves.decides _ _ _ _ next force' hserves]
    constructor
    · rintro ⟨ins, hins, -⟩
      exact ⟨ins, hins⟩
    · rintro ⟨ins, hins⟩
      exact ⟨ins, hins, hins.trusted _ _ _ after hwritten (Manifest.parse_render hserde (h.keyed hask))⟩

end

open Sample GuestSample

/-- An empty guest is synced, and what was written is read by the next sync. -/
theorem never_locked_out_iff_sample : ((∃ ins, Decided .nothing false (.start guest) ins) ↔ (guest manifestPath).Fits) ∧
    ∃ after, ToSave (asked "a: 1\n") false (.start guest) after ∧
      ((∃ ins, Decided .nothing false { (sync (asked "a: 1\n") false (.start guest)).2 with turns := [] } ins ∧
        ins.manifest = after ∧ ins.warning = none) ↔ after.render.size ≤ Manifest.maxBytes) := by
  obtain ⟨hdecides, hwrites⟩ := never_locked_out_iff serdeReads
  obtain ⟨hwritten, hall⟩ := hwrites .user (asked "a: 1\n") false (.start guest) (asks_asked _)
  obtain ⟨after, hsave, hfile⟩ := hwritten.resolve_left (by decide +kernel)
  exact ⟨hdecides .nothing false (.start guest) (by rintro _ ⟨⟩), after, hsave,
    (hall after hsave).2 hfile .nothing false [] (by rintro _ ⟨⟩)⟩

/-- One byte more than is read. -/
def tooLong : ByteArray := ⟨Array.replicate (Manifest.maxBytes + 1) 0⟩

def lockedOut : World := .start (Function.update guest manifestPath (.file .root Manifest.mode tooLong))

theorem never_locked_out_tooLong : Serves lockedOut ∧ ¬ ∃ ins, Decided (asked "a: 1\n") false lockedOut ins := by
  have hserves : Serves lockedOut := by rintro _ ⟨⟩
  refine ⟨hserves, ?_⟩
  rw [hserves.decides]
  simp [lockedOut, World.start, Inode.Fits, tooLong, ByteArray.size]

end Guest
end PveMeta
