import PveMeta.History
import PveMeta.Theorems.Writes

/-! # What is in the store's root

Every guest document and every snapshot copy that the store wrote is one it would take again: text that
parses and passes the lint, within the cap, with one newline at its end. Writes check it, and snapshots and
rollbacks copy bytes. -/

namespace PveMeta
namespace History
open Api MetaStore Backup

section

variable [Deps] {s : MetaStore} {d : DocId} {files : List (FsPath × File)}

/-- The text of a document, as the store writes it. -/
structure Sound (bytes : ByteArray) : Prop where
  text : ∃ t, bytes = Text.encode t ∧ t = Text.trimNewlines t ++ ['\n'] ∧ ∃ w, Format.yaml.parse t = .ok w
  size : bytes.size ≤ maxBytes

/-- Every file of the root is sound. -/
def RootSound (files : List (FsPath × File)) : Prop :=
  ∀ file f, Assoc.get? (.root file) files = some f → Sound f.bytes

theorem RootSound.insert {p : FsPath} {f : File} (h : RootSound files) (hf : Sound f.bytes) :
    RootSound (Assoc.insert p f files) := by
  intro file g hg
  rw [Assoc.get?_insert] at hg
  split at hg
  · cases hg
    exact hf
  · exact h file g hg

theorem RootSound.erase {p : FsPath} (h : RootSound files) : RootSound (Assoc.erase p files) := by
  intro file f hf
  rw [Assoc.get?_erase] at hf
  split at hf
  · cases hf
  · exact h file f hf

/-! ### Each call -/

theorem sound_normalized {text : Text} {w : Tree} (hsize : Text.byteLen (normalizeTrailingNewline text) ≤ maxBytes)
    (hparse : Format.yaml.parse (normalizeTrailingNewline text) = .ok w) :
    Sound (Text.encode (normalizeTrailingNewline text)) where
  text := by
    refine ⟨_, rfl, ?_, w, hparse⟩
    rw [normalizeTrailingNewline, Text.trimNewlines_newline]
  size := by rwa [Text.size_encode]

theorem putRaw_rootSound (h : RootSound s.files) (text : Text) (expected : Option String) :
    RootSound (s.putRaw d text expected).2.files := by
  rcases s.putRaw_cases d text expected with ⟨e, he⟩ | ⟨doc, w, hput, -, hsize, hparse, -⟩
  · rw [he]
    exact h
  · rw [hput]
    exact h.insert (sound_normalized hsize hparse)

theorem request_rootSound (h : RootSound s.files) (r : Request) : RootSound (r.run s).2.files := by
  rcases r.run_cases s with ⟨e, he⟩ | ⟨d, vp, stored, plan, hans, hrun⟩
  · rw [he]
    exact h
  · rw [hrun]
    have hfits := hans.fits
    have hnorm : normalizeTrailingNewline plan.text = plan.text := by rw [hans.text_eq, normalize_dump]
    cases hc : r.change vp stored plan with
    | keep => exact h
    | remove => exact h.erase
    | write t =>
      obtain rfl := Request.change_eq_write hc
      rw [hc] at hfits
      obtain ⟨hsize, w, hparse⟩ := hfits
      rw [← hnorm] at hsize hparse
      have hsound := sound_normalized hsize hparse
      rw [hnorm] at hsound
      exact h.insert hsound

theorem removeFile_rootSound {p : FsPath} (h : RootSound s.files) : RootSound (s.removeFile p).2.files := by
  unfold removeFile
  split
  · exact h.erase
  · exact h

theorem delete_rootSound (h : RootSound s.files) : RootSound (s.delete d).2.files := by
  unfold delete
  split
  · exact h
  · exact removeFile_rootSound h

theorem writeAtomic_rootSound {p : FsPath} {bytes : ByteArray} (h : RootSound s.files) (hb : Sound bytes) :
    RootSound (s.writeAtomic p bytes).2.files := by
  unfold writeAtomic
  split
  · exact h.insert hb
  · exact h

theorem snapshot_rootSound (h : RootSound s.files) (vmid : UInt32) (name : String) :
    RootSound (s.snapshot vmid name).2.files := by
  unfold snapshot
  split
  · exact h
  · split
    · exact h
    · split
      · exact h
      · exact h
      · next f hstat => exact writeAtomic_rootSound h (h _ f (stat_eq_ok.mp hstat).2.symm)

theorem rollback_rootSound (h : RootSound s.files) (vmid : UInt32) (name : String) :
    RootSound (s.rollback vmid name).2.files := by
  unfold rollback
  split
  · exact h
  · split
    · exact h
    · split
      · exact h
      · next f hstat => exact writeAtomic_rootSound h (h _ f (stat_eq_ok.mp hstat).2.symm)
      · exact removeFile_rootSound h

theorem deleteSnapshot_rootSound (h : RootSound s.files) (vmid : UInt32) (name : String) :
    RootSound (s.deleteSnapshot vmid name).2.files := by
  unfold deleteSnapshot
  split
  · exact h
  · split
    · exact removeFile_rootSound h
    · exact h

theorem deleteSnapshots_rootSound {vmid : UInt32} {names : List String} {n : Nat} (h : RootSound s.files) :
    RootSound (deleteSnapshots vmid names n s).2.files := by
  induction names generalizing s n with
  | nil => exact h
  | cons name names ih =>
    have hone := deleteSnapshot_rootSound h vmid name
    unfold deleteSnapshots
    split
    · next e s' heq => rwa [heq] at hone
    · next b s' heq =>
      rw [heq] at hone
      exact ih hone

theorem purge_rootSound (h : RootSound s.files) (vmid : UInt32) : RootSound (s.purge vmid).2.files := by
  have hdelete := @delete_rootSound _ s (.guest vmid) h
  unfold purge
  split
  · next e s' heq => rwa [heq] at hdelete
  · next b s' heq =>
    rw [heq] at hdelete
    split
    · exact hdelete
    · exact deleteSnapshots_rootSound hdelete

theorem importBlock_rootSound (h : RootSound s.files) (vmid : UInt32) (description : Text) (mode : ImportMode) :
    RootSound (importBlock s vmid description mode).2.files := by
  unfold importBlock
  split
  · exact h
  · exact h
  · next found hfind =>
    dsimp only
    split
    · exact h
    · exact h
    · have hput := @putRaw_rootSound _ s (.guest vmid) h (found.yaml ++ ['\n']) none
      split
      · next e s' heq => rwa [heq] at hput
      · next doc s' heq =>
        rw [heq] at hput
        unfold dropCopies
        cases mode with
        | install => exact hput
        | restore =>
          dsimp only
          split
          · exact hput
          · exact deleteSnapshots_rootSound hput

/-- Every call keeps the root sound, whether it succeeds or not. -/
theorem call_rootSound (h : RootSound s.files) (c : Call) : RootSound (c.run s).2.files := by
  cases c with
  | write r => exact request_rootSound h r
  | putRaw id text expected => exact putRaw_rootSound h text expected
  | delete id => exact delete_rootSound h
  | snapshot vmid name => exact snapshot_rootSound h vmid name
  | rollback vmid name => exact rollback_rootSound h vmid name
  | deleteSnapshot vmid name => exact deleteSnapshot_rootSound h vmid name
  | importBlock vmid description mode => exact importBlock_rootSound h vmid description mode
  | purge vmid => exact purge_rootSound h vmid

/-! ### A history -/

theorem run_rootSound (h : RootSound s.files) (calls : List (Env × Call)) : RootSound (run s calls).files := by
  have hrun := @Log.run_inv _ _ _ (step (s := ·)) (fun _ _ => True) (fun s _ => RootSound s.files)
    (fun s _ call _ hs => call_rootSound (s := call.1.meet s) hs call.2) s [] calls (Log.Along.trivial s calls) h
  exact hrun

/-- From a store without guest files on, every document of a guest and every snapshot copy is sound, after
    any calls, failed ones included. -/
theorem stored_documents_sound {s : MetaStore} (hempty : ∀ file, Assoc.get? (.root file) s.files = none)
    (calls : List (Env × Call)) :
    (∀ vmid f, (run s calls).own (.guest vmid) = some f → Sound f.bytes) ∧
      ∀ vmid name f, Assoc.get? (snapshotPath vmid name) (run s calls).files = some f → Sound f.bytes := by
  have hsound : RootSound (run s calls).files := by
    refine run_rootSound (fun file f hf => ?_) calls
    rw [hempty] at hf
    cases hf
  exact ⟨fun vmid f hf => hsound _ f hf, fun vmid name f hf => hsound _ f hf⟩

end

open Sample in
/-- A document is put and a snapshot of it taken. -/
theorem stored_documents_sound_put :
    let calls : List (Env × Call) :=
      [(⟨none, none, none, 1⟩, .putRaw (.guest 100) "a: 1".toList none), (⟨none, none, none, 2⟩, .snapshot 100 "before")]
    (∀ vmid f, (run (storeOf []) calls).own (.guest vmid) = some f → Sound f.bytes) ∧
      ∀ vmid name f, Assoc.get? (snapshotPath vmid name) (run (storeOf []) calls).files = some f → Sound f.bytes :=
  stored_documents_sound (fun _ => rfl) _

end History
end PveMeta
