import PveMeta.Theorems.Markers

/-! # After a restore

The writes that follow a create leave its markers alone up to the first that mentions a block or is unlocked.
That write settles what the restored guest has: the document of the block, or nothing, or, where the notes
mention a block and have none, whatever the guest before it had. -/

namespace PveMeta
namespace Lifecycle
open Backup MetaStore

/-- The guest has neither a document nor a copy of one. -/
def Cleared (vmid : UInt32) (s : MetaStore) : Prop := Assoc.get? (docPath vmid) s.files = none ∧ NoCopies vmid s.files

/-- A write of a restore: with no notes, or with those of the backup. -/
def Carries (notes : Text) (conf : GuestConf) : Prop := conf.description = none ∨ conf.description = some notes

section

variable [Deps] {vmid : UInt32} {n : Node} {notes : Text} {conf final : GuestConf} {writes : List GuestConf}

/-! ### The writes after a create -/

/-- Without the marker, writes do nothing about the metadata. -/
theorem writeAll_of_not_created (h : n.created = false) (confs : List GuestConf) : writeAll vmid n confs = n := by
  induction confs with
  | nil => rfl
  | cons conf confs ih =>
    have hwrite : (writeConfig vmid n conf true).1 = n := by
      rw [writeConfig, if_neg (by simp [h])]
    rw [writeAll, List.foldl_cons, hwrite]
    exact ih

theorem writeConfig_mention (hcreated : n.created = true) (hconf : conf.description = some notes)
    (hmention : mentionsBlock notes = true) :
    (writeConfig vmid n conf true).1 = ⟨(importBlock n.store vmid notes .restore).2, false, false⟩ := by
  have hmeta : metaBlock conf = true := by rw [metaBlock, hconf]; exact hmention
  simp [writeConfig, takes, hmeta, hcreated, hconf, lockedWarn]

theorem writeConfig_unlocked (hcreated : n.created = true) (hunlocked : unlocked conf = true)
    (hmeta : metaBlock conf = false) :
    (writeConfig vmid n conf true).1 = ⟨if n.existing then (n.store.purge vmid).2 else n.store, false, false⟩ := by
  cases hexisting : n.existing <;> simp [writeConfig, takes, hmeta, hcreated, hunlocked, hexisting, lockedWarn]

/-- A locked write that mentions no block leaves the node as it is. -/
theorem writeConfig_locked (hlocked : unlocked conf = false) (hmeta : metaBlock conf = false) :
    (writeConfig vmid n conf true).1 = n := by
  rw [writeConfig, if_neg (by simp [takes, hlocked, hmeta])]

omit [Deps] in
theorem metaBlock_of_carries (h : Carries notes conf) :
    metaBlock conf = true ↔ conf.description = some notes ∧ mentionsBlock notes = true := by
  rcases h with h | h
  · simp [metaBlock, h]
  · simp [metaBlock, h]

/-- What the writes of a restore come to: an import of the notes, if they mention a block and some write has
    them; else a purge, if the guest was there before. -/
theorem writeAll_restore (hcreated : n.created = true) (hlocked : ∀ c ∈ writes, unlocked c = false)
    (hfinal : unlocked final = true) (hcarries : ∀ c ∈ writes ++ [final], Carries notes c) :
    ((mentionsBlock notes = true ∧ ∃ c ∈ writes ++ [final], c.description = some notes) ∧
        (writeAll vmid n (writes ++ [final])).store = (importBlock n.store vmid notes .restore).2) ∨
      (¬ (mentionsBlock notes = true ∧ ∃ c ∈ writes ++ [final], c.description = some notes) ∧
        (writeAll vmid n (writes ++ [final])).store = if n.existing then (n.store.purge vmid).2 else n.store) := by
  induction writes with
  | nil =>
    have hmeta := metaBlock_of_carries (hcarries final (List.mem_singleton_self _))
    by_cases h : metaBlock final = true
    · obtain ⟨hconf, hmention⟩ := hmeta.mp h
      left
      refine ⟨⟨hmention, final, List.mem_singleton_self _, hconf⟩, ?_⟩
      exact congrArg Node.store (writeConfig_mention hcreated hconf hmention)
    · right
      refine ⟨?_, congrArg Node.store (writeConfig_unlocked hcreated hfinal (Bool.not_eq_true _ ▸ h))⟩
      rintro ⟨hmention, c, hc, hconf⟩
      obtain rfl := List.mem_singleton.mp hc
      exact h (hmeta.mpr ⟨hconf, hmention⟩)
  | cons conf writes ih =>
    have hmeta := metaBlock_of_carries (hcarries conf List.mem_cons_self)
    by_cases h : metaBlock conf = true
    · obtain ⟨hconf, hmention⟩ := hmeta.mp h
      left
      refine ⟨⟨hmention, conf, List.mem_cons_self, hconf⟩, ?_⟩
      rw [List.cons_append, writeAll, List.foldl_cons, writeConfig_mention hcreated hconf hmention, ← writeAll,
        writeAll_of_not_created rfl]
    · have hstep : (writeConfig vmid n conf true).1 = n :=
        writeConfig_locked (hlocked conf List.mem_cons_self) (Bool.not_eq_true _ ▸ h)
      have hrest : writeAll vmid n (conf :: writes ++ [final]) = writeAll vmid n (writes ++ [final]) := by
        rw [List.cons_append, writeAll, List.foldl_cons, hstep, ← writeAll]
      have hnone : ¬ (conf.description = some notes ∧ mentionsBlock notes = true) := fun hc => h (hmeta.mpr hc)
      have hmem : (mentionsBlock notes = true ∧ ∃ c ∈ conf :: writes ++ [final], c.description = some notes) ↔
          (mentionsBlock notes = true ∧ ∃ c ∈ writes ++ [final], c.description = some notes) := by
        constructor
        · rintro ⟨hmention, c, hc, hconf⟩
          rcases List.mem_cons.mp hc with rfl | hc
          · exact absurd ⟨hconf, hmention⟩ hnone
          · exact ⟨hmention, c, hc, hconf⟩
        · rintro ⟨hmention, c, hc, hconf⟩
          exact ⟨hmention, c, List.mem_cons_of_mem _ hc, hconf⟩
      rw [hrest, hmem]
      exact ih (fun c hc => hlocked c (List.mem_cons_of_mem _ hc)) fun c hc => hcarries c (List.mem_cons_of_mem _ hc)

/-! ### The create -/

theorem faultFree_importBlock (h : n.store.FaultFree) (notes : Text) :
    (importBlock n.store vmid notes .restore).2.FaultFree := by
  cases hfind : find notes with
  | error e =>
    rw [importBlock, hfind]
    exact h
  | ok r =>
    cases r with
    | none =>
      rw [importBlock, hfind]
      exact h
    | some found =>
      cases hcheck : n.store.checkRaw (.guest vmid) (found.yaml ++ ['\n']) none with
      | error e =>
        rw [importBlock_of_error hfind hcheck]
        exact h
      | ok r =>
        obtain ⟨files, himport, -⟩ := importBlock_of_ok h hfind hcheck
        rw [himport]
        exact h.withFiles files

omit [Deps] in
theorem faultFree_purge {s : MetaStore} (h : s.FaultFree) : (s.purge vmid).2.FaultFree := by
  obtain ⟨k, files, hpurge, -⟩ := @purge_eq s vmid h
  rw [hpurge]
  exact h.withFiles files

theorem faultFree_writeConfig (h : n.store.FaultFree) (conf : GuestConf) :
    (writeConfig vmid n conf true).1.store.FaultFree := by
  unfold writeConfig
  split
  · split
    · exact faultFree_importBlock h _
    · split
      · exact faultFree_purge h
      · exact h
  · exact h

/-- A create leaves its markers, and over a free vmid an empty slot. -/
theorem create_spec (h : n.store.FaultFree) (allow : Bool) (lock : Option String) (old : GuestConf) :
    (createAndLockConfig vmid n allow lock old true true).1.created = true ∧
      (createAndLockConfig vmid n allow lock old true true).1.existing = allow ∧
      (createAndLockConfig vmid n allow lock old true true).1.store.FaultFree ∧
      (allow = false → Cleared vmid (createAndLockConfig vmid n allow lock old true true).1.store) := by
  have hfree : (writeConfig vmid n (skeleton old lock) true).1.store.FaultFree := faultFree_writeConfig h _
  have hstore : (createAndLockConfig vmid n allow lock old true true).1.store =
      if allow then (writeConfig vmid n (skeleton old lock) true).1.store
      else ((writeConfig vmid n (skeleton old lock) true).1.store.purge vmid).2 := rfl
  refine ⟨rfl, rfl, ?_, ?_⟩
  · rw [hstore]
    split
    · exact hfree
    · exact faultFree_purge hfree
  · rintro rfl
    obtain ⟨k, files, hpurge, hdoc, hcopies, -⟩ := @purge_eq _ vmid hfree
    rw [hstore, if_neg Bool.false_ne_true, hpurge]
    exact ⟨hdoc, hcopies⟩

/-! ### The outcome -/

/-- The last block of the notes is well-formed, and `text` is its document's file text, which the store takes. -/
def Accepted (notes text : Text) : Prop :=
  ∃ found w, find notes = .ok (some found) ∧ text = normalizeTrailingNewline found.yaml ∧
    Text.byteLen text ≤ maxBytes ∧ Format.yaml.parse text = .ok w

/-- What a restore promises of the store at its end: the document of the notes' block, if there is one that
    the store takes; nothing, if the notes have no block. -/
structure Restored (vmid : UInt32) (notes : Text) (s : MetaStore) : Prop where
  block : ∀ text, Accepted notes text →
    (Assoc.get? (docPath vmid) s.files).map File.bytes = some (Text.encode text) ∧ NoCopies vmid s.files
  none : BlockFree notes → Cleared vmid s

omit [Deps] in
theorem cleared_purge {s : MetaStore} (h : s.FaultFree) : Cleared vmid (s.purge vmid).2 := by
  obtain ⟨k, files, hpurge, hdoc, hcopies, -⟩ := @purge_eq s vmid h
  rw [hpurge]
  exact ⟨hdoc, hcopies⟩

theorem importBlock_accepted {s : MetaStore} (h : s.FaultFree) {text : Text} (ha : Accepted notes text) :
    (Assoc.get? (docPath vmid) (importBlock s vmid notes .restore).2.files).map File.bytes = some (Text.encode text) ∧
      NoCopies vmid (importBlock s vmid notes .restore).2.files := by
  obtain ⟨found, w, hfind, rfl, hsize, hparse⟩ := ha
  have hcheck : s.checkRaw (.guest vmid) (found.yaml ++ ['\n']) none = .ok (normalizeTrailingNewline found.yaml, w) :=
    (checkRaw_eq_ok h).mpr ⟨(normalize_newline _).symm, hsize, hparse⟩
  obtain ⟨files, himport, hget, hcopies, -⟩ := importBlock_of_ok h hfind hcheck
  rw [himport]
  exact ⟨by rw [hget]; rfl, hcopies⟩

/-- After a restore the guest is the backup, exactly if some write has the notes, where these have a block that
    the store takes, and it is not a restore over a guest that had a document or a copy, of notes that some
    write has and that mention a block but have none. -/
theorem restored_iff (vmid : UInt32) (n : Node) (allow : Bool) (lock : Option String) (old : GuestConf)
    (writes : List GuestConf) (final : GuestConf) (notes : Text) (hfree : n.store.FaultFree)
    (hlocked : ∀ c ∈ writes, unlocked c = false) (hfinal : unlocked final = true)
    (hcarries : ∀ c ∈ writes ++ [final], Carries notes c) :
    let start := (createAndLockConfig vmid n allow lock old true true).1
    let carried := ∃ c ∈ writes ++ [final], c.description = some notes
    Restored vmid notes (writeAll vmid start (writes ++ [final])).store ↔
      ((∃ text, Accepted notes text) → carried) ∧
        ¬ (allow = true ∧ BlockFree notes ∧ mentionsBlock notes = true ∧ carried ∧ ¬ Cleared vmid start.store) := by
  intro start carried
  obtain ⟨hcreated, hexisting, hstartFree, hcleared⟩ := @create_spec _ vmid n hfree allow lock old
  rcases @writeAll_restore _ vmid start notes final writes hcreated hlocked hfinal hcarries with
    ⟨⟨hmention, hcarried⟩, hstore⟩ | ⟨hnot, hstore⟩
  · -- The notes are imported; without a block that leaves the store as it is.
    have hkept : BlockFree notes → (importBlock start.store vmid notes .restore).2 = start.store := by
      intro hblockFree
      rw [importBlock, hblockFree.find]
    rw [hstore]
    constructor
    · intro hr
      refine ⟨fun _ => hcarried, ?_⟩
      rintro ⟨-, hblockFree, -, -, hdirty⟩
      exact hdirty (hkept hblockFree ▸ hr.none hblockFree)
    · rintro ⟨-, hcond⟩
      refine ⟨fun text ha => importBlock_accepted hstartFree ha, fun hblockFree => ?_⟩
      rw [hkept hblockFree]
      by_contra hdirty
      cases allow with
      | false => exact hdirty (hcleared rfl)
      | true => exact hcond ⟨rfl, hblockFree, hmention, hcarried, hdirty⟩
  · -- The guest has nothing, whatever the notes are.
    have hempty : Cleared vmid (if start.existing then (start.store.purge vmid).2 else start.store) := by
      cases allow with
      | false =>
        rw [if_neg (by rw [hexisting]; exact Bool.false_ne_true)]
        exact hcleared rfl
      | true =>
        rw [if_pos hexisting]
        exact cleared_purge hstartFree
    rw [hstore]
    constructor
    · intro hr
      constructor
      · rintro ⟨text, ha⟩
        have hdoc := (hr.block text ha).1
        rw [hempty.1] at hdoc
        cases hdoc
      · rintro ⟨-, -, hmention, hcarried, -⟩
        exact hnot ⟨hmention, hcarried⟩
    · rintro ⟨hneeds, -⟩
      refine ⟨fun text ha => ?_, fun _ => hempty⟩
      obtain ⟨found, w, hfind, -⟩ := id ha
      exact absurd ⟨mentionsBlock_of_find hfind, hneeds ⟨text, ha⟩⟩ hnot

end

/-! ### Samples -/

section

open Sample

theorem restored_iff_sample :
    let start :=
      (createAndLockConfig 100 ⟨storeOf [(100, "a: 1\n".toList)], false, false⟩ true none ⟨none, none⟩ true true).1
    let carried := ∃ c ∈ [] ++ [(⟨none, none⟩ : GuestConf)], c.description = some "web".toList
    Restored 100 "web".toList (writeAll 100 start ([] ++ [⟨none, none⟩])).store ↔
      ((∃ text, Accepted "web".toList text) → carried) ∧
        ¬ (true = true ∧ BlockFree "web".toList ∧ mentionsBlock "web".toList = true ∧ carried ∧
          ¬ Cleared 100 start.store) :=
  restored_iff 100 ⟨storeOf [(100, "a: 1\n".toList)], false, false⟩ true none ⟨none, none⟩ [] ⟨none, none⟩ "web".toList
    (faultFree_storeOf _) (fun _ h => nomatch h) rfl fun c hc => Or.inl (by rw [List.mem_singleton.mp hc])

/-- Notes that mention the marker text, restored over a guest with a document: the document is still there. -/
theorem mention_keeps_document :
    let start :=
      (createAndLockConfig 100 ⟨storeOf [(100, "a: 1\n".toList)], false, false⟩ true none ⟨none, none⟩ true true).1
    ¬ Restored 100 "see [pve-meta v1]".toList
      (writeAll 100 start ([] ++ [⟨none, some "see [pve-meta v1]".toList⟩])).store := by
  intro start hrestored
  have hfree : BlockFree "see [pve-meta v1]".toList := by
    unfold BlockFree
    decide
  have hstart : start = ⟨storeOf [(100, "a: 1\n".toList)], true, true⟩ := rfl
  have hwrite : (writeAll 100 start ([] ++ [⟨none, some "see [pve-meta v1]".toList⟩])).store =
      storeOf [(100, "a: 1\n".toList)] := by
    rw [hstart, List.nil_append, writeAll, List.foldl_cons, List.foldl_nil, writeConfig_mention rfl rfl (by decide),
      importBlock, hfree.find]
  have hdoc : Assoc.get? (docPath 100) (storeOf [(100, "a: 1\n".toList)]).files =
      some ⟨Text.encode "a: 1\n".toList, 0⟩ := by
    simp [storeOf, docPath]
  have hcleared := hrestored.none hfree
  rw [hwrite] at hcleared
  rw [hcleared.1] at hdoc
  cases hdoc

end

end Lifecycle
end PveMeta
