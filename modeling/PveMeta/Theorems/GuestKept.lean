import PveMeta.Guest.Sample
import PveMeta.Theorems.GuestSync

/-! # What syncs do away with

Over a run of the document's syncs that overwrite no local edits, a file that is replaced or removed is one that a sync
wrote there or found as wanted, or one of the daemon's own. It rests on the records: each is of such a file. -/

namespace PveMeta
namespace Guest

section

variable [Deps] {w w' : World} {files : GuestFiles} {log log' : List Deed} {path : Text} {hash : String}

/-- A sync wrote a file of this hash there, or found one exactly as wanted. -/
def Known (log : List Deed) (path : Text) (hash : String) : Prop := .wrote path hash ∈ log ∨ .found path hash ∈ log

instance decidableKnown (log : List Deed) (path : Text) (hash : String) : Decidable (Known log path hash) :=
  inferInstanceAs (Decidable (_ ∨ _))

/-- What is done away with is known to be a sync's, or at a name of the daemon's own. -/
def Spares (before : List Deed) : Deed → Prop
  | .destroyed path hash => Reserved path ∨ Known before path hash
  | .found .. | .wrote .. => True

omit [Deps] in
theorem Known.mono (h : Known log path hash) (hsub : log ⊆ log') : Known log' path hash :=
  h.imp (fun h => hsub h) fun h => hsub h

variable [RustDebug] [Serde]

/-- Every deed is justified, the manifest is what a sync wrote, and each of its records is of a file that is known. -/
structure Sound (w : World) : Prop where
  justified : Log.Justified Spares w.log
  manifest : ∀ owner mode content, w.fs manifestPath = .file owner mode content →
    .wrote manifestPath (MetaStore.digest content) ∈ w.log
  records : ∀ q r, (manifestAt (w.fs manifestPath)).records.get? q = some r → Known w.log q.text r.sha256

theorem Sound.quiet (h : Sound w) (hquiet : Quiet w w') : Sound w' := by
  obtain ⟨hlog, hmanifest⟩ := hquiet
  refine ⟨hlog ▸ h.justified, ?_, ?_⟩
  · rw [hlog, hmanifest]
    exact h.manifest
  · rw [hlog, hmanifest]
    exact h.records

/-- A plan that overwrites nothing expects the hashes of records. -/
theorem Planned.known {nodes : Nodes} {op : Op} (h : Sound w) (hkeep : ∀ d ∈ files.desired, d.entry.localEdits = .keep)
    (hop : Planned files (manifestAt (w.fs manifestPath)) nodes false op) (hexpects : op.Expects hash) :
    Known w.log op.path hash := by
  cases hop with
  | create d => cases hexpects
  | update d wanted unclaimed r mode owner known state =>
    cases hexpects
    exact h.records _ r known
  | overwrite d wanted unclaimed hash mode owner state forced =>
    rw [hkeep d wanted] at forced
    simp at forced
  | remove q r known =>
    cases hexpects
    exact h.records q r known

theorem Sound.spares {nodes : Nodes} {e : Deed} {before : List Deed} (h : Sound w)
    (hkeep : ∀ d ∈ files.desired, d.entry.localEdits = .keep) (hsub : w.log ⊆ before)
    (he : (plan files (manifestAt (w.fs manifestPath)) nodes false).Does files nodes (w.fs manifestPath) e) :
    Spares before e := by
  cases e with
  | found path hash => exact True.intro
  | wrote path hash => exact True.intro
  | destroyed path hash =>
    rcases he with hreserved | ⟨op, hop, rfl, hexpects⟩ | ⟨rfl, owner, mode, content, hnode, rfl⟩
    · exact Or.inl hreserved
    · exact Or.inr (((planned_of_mem hop).known h hkeep hexpects).mono hsub)
    · exact Or.inr (Or.inl (hsub (h.manifest owner mode content hnode)))

theorem sync_sound (hserde : Manifest.SerdeReads) (h : Sound w) (hask : Writer.user.Asks files)
    (hkeep : ∀ d ∈ files.desired, d.entry.localEdits = .keep) : Sound (sync files false w).2 := by
  rcases sync_spec files false w with
    ⟨hquiet, -⟩ | ⟨warning, nodes, -, hlog, hfound, hmanifest, -⟩
  · exact h.quiet hquiet
  · generalize (sync files false w).2 = w' at *
    have hsub : w.log ⊆ w'.log := hlog.subset
    refine ⟨?_, ?_, ?_⟩
    · exact (hlog.mono fun before e hsub he => h.spares hkeep hsub he).justified h.justified
    · intro owner mode content hnode
      rcases hmanifest with hsame | ⟨after, -, hafter, hwrote⟩
      · exact hsub (h.manifest owner mode content (hsame ▸ hnode))
      · rw [hafter] at hnode
        cases hnode
        exact hwrote
    · intro q r hr
      rcases hmanifest with hsame | ⟨after, hleft, hafter, -⟩
      · rw [hsame] at hr
        exact (h.records q r hr).mono hsub
      · rw [hafter, manifestAt_render hserde (hleft.keyed hask (keyed_manifestAt _))] at hr
        rcases hleft.recorded hr with hr | ⟨d, hd, rfl, rfl, -, hwanted | hwrote⟩
        · exact (h.records q r hr).mono hsub
        · exact Or.inr (hfound d hd hwanted)
        · exact Or.inl hwrote

/-! ### Runs -/

/-- The others leave the manifest alone, and a sync is the document's and overwrites no local edits. -/
def Event.Keeping : Event → Prop
  | .others _ => True
  | .editManifest _ => False
  | .sync files force _ => Writer.user.Asks files ∧ force = false ∧ ∀ d ∈ files.desired, d.entry.localEdits = .keep

theorem run_sound (hserde : Manifest.SerdeReads) (h : Sound w) {events : List Event} (hevents : ∀ e ∈ events, e.Keeping) :
    Sound (run w events) := by
  refine List.foldlRecOn events step h fun w hw e he => ?_
  have hkeeping := hevents e he
  cases e with
  | others fs => exact hw.quiet (quiet_edit w fs)
  | editManifest node => exact hkeeping.elim
  | sync files force turns =>
    obtain ⟨hask, rfl, hkeep⟩ := hkeeping
    exact sync_sound hserde (hw.quiet ⟨rfl, rfl⟩) hask hkeep

end

open GuestSample Sample

/-- A sync of a document with this text for the file `app`. -/
def syncOf (text : String) : Event := .sync (asked text) false []

theorem keeping_syncOf : ∀ text ∈ ["a: 1\n", "a: 2\n"], (syncOf text).Keeping := by
  intro text htext
  refine ⟨asks_asked text, rfl, ?_⟩
  revert text
  decide +kernel

/-- A guest where somebody else has a file at the name of a temp file. -/
def crowded : Fs := Function.update guest (tempFor appPath.text) (.file .root 0o644 two)

end Guest
end PveMeta
