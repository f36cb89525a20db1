import PveMeta.Theorems.Digests

/-! # Damaged documents

A file that is too large to read, is not text, does not parse or is not a map is read as a document that
cannot be recovered. It is never shown as an empty document or as none, and only a write of the whole of it
is not refused. -/

namespace PveMeta
open Api MetaStore

section

variable [Deps] {s : MetaStore} {d : DocId} {f : File}

/-- Above the read cap, not UTF-8, not parsable, or not a map. -/
def Damaged (f : File) : Prop :=
  f.bytes.size > maxReadBytes ∨
    ∀ raw, Text.decode? f.bytes = some raw → ∀ w, diskFormat.parseRaw raw = .ok w → w.val.isObject = false

/-- A damaged file is read as its identity, a reason, and its text if there is one. -/
theorem storedOf_damaged (h : Damaged f) :
    ∃ raw err, storedOf (some f) = unrecoverable (identityOf f) raw err ∧ ∀ t, raw = some t →
      Text.decode? f.bytes = some t := by
  rcases storedOf_cases f with ⟨raw, w, hobj, hsize, hbytes, hparse, -⟩ | ⟨raw, err, hst, htext⟩
  · have hdecode : Text.decode? f.bytes = some raw := by rw [hbytes, Text.decode?_encode]
    have hmap := h.resolve_left (Nat.not_lt.mpr hsize) raw hdecode w hparse
    rw [hobj] at hmap
    cases hmap
  · refine ⟨raw, err, hst, fun t ht => ?_⟩
    rw [(htext t ht).2, Text.decode?_encode]

/-- A damaged document is shown as its text and the reason, if at all; and a call on it that is no replace and
    no delete of the whole document is refused and leaves every file as it is. -/
theorem damaged_document (hc : s.content d = some f) (hf : Damaged f) :
    (∀ r : Request, parseId r.id = .ok d → ¬ r.Whole → ∃ e, r.run s = (.error e, s)) ∧
      ∀ id view formatName comments acl doc, parseId id = .ok d →
        getDocument s id view formatName comments acl = .ok doc →
          doc.parseError.isSome = true ∧ doc.data = none ∧ (∃ t, doc.text = some t ∧ Text.decode? f.bytes = some t) ∧
            doc.digest = identityOf f ∧ doc.digest ≠ "" := by
  obtain ⟨raw, err, hst, hraw⟩ := storedOf_damaged hf
  refine ⟨fun r hid hwhole => ?_, fun id view formatName comments acl doc hid hget => ?_⟩
  · rcases r.run_cases s with herr | ⟨d', vp, stored, plan, hans, -⟩
    · exact herr
    · obtain ⟨hid', -⟩ := Request.target_eq_ok hans.target_eq
      rw [hid, Except.ok.injEq] at hid'
      subst hid'
      have hun : stored.unrecoverable = some err := by
        rw [hans.stored_eq, hc, hst]
        rfl
      rcases Request.repairable hans.plan_eq with hnone | hw
      · rw [hun] at hnone
        cases hnone
      · exact absurd hw hwhole
  · obtain ⟨d', fmt, vp, hd, -, -, hread, h⟩ := getDocument_eq_ok hget
    rw [hid, Except.ok.injEq] at hd
    subst hd
    rw [hc, hst] at h
    simp only [rendered, unrecoverable] at h
    split at h
    · cases h
      exact ⟨rfl, rfl, ⟨_, rfl, hraw _ rfl⟩, rfl, identityOf_ne_empty f⟩
    · cases h

end

open Sample in
/-- A guest's file is a list: a delete of a view of it is refused. -/
theorem damaged_document_list :
    ∃ e, (Request.delete ⟨"100", some "a", none, ⟨"root@pam", true, true, [], none⟩⟩).run
      (storeOf [(100, "- a\n".toList)]) = (.error e, storeOf [(100, "- a\n".toList)]) := by
  have hf : Damaged ⟨Text.encode "- a\n".toList, 0⟩ := by
    refine Or.inr fun raw hraw w hw => ?_
    obtain rfl : "- a\n".toList = raw := by simpa using hraw
    obtain rfl : docList = w := by injection hw
    rfl
  exact (damaged_document rfl hf).1 (.delete ⟨"100", some "a", none, ⟨"root@pam", true, true, [], none⟩⟩) rfl
    fun h => by cases h

end PveMeta
