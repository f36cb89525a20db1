import PveMeta.Api
import PveMeta.Lib.Except
import PveMeta.Sample
import PveMeta.Theorems.KeepComments

/-! # Dry runs

What a write would do is decided before anything is written. The checks the store makes once more when
the write is real (the digest, the size, the lint of the normalized text) cannot refuse what the plan let
through, so a dry run answers what the write would. -/

namespace PveMeta
open MetaStore

/-! ### The text of a planned document -/

theorem Text.trimNewlines_newline (t : Text) : Text.trimNewlines (Text.trimNewlines t ++ ['\n']) = Text.trimNewlines t := by
  have h := Text.trimNewlines_append_replicate (Text.trimNewlines t) 1
  rw [Text.trimNewlines_idempotent] at h
  exact h

namespace Api

theorem mutatePut_wf (p : ParsedPut) (v : Tree) : (mutatePut p v.val).2.WF := by
  unfold mutatePut
  split
  · exact View.Edit.run_wf v (.merge p.viewPath p.payload)
  · split
    · exact v.2
    · next old hold =>
      split
      · have hwf := View.keepComments_wf (View.valueAt_wf v.2 (View.valueAt_of_descend hold)) p.payload.2
        exact View.Edit.run_wf v (.replace p.viewPath ⟨_, hwf⟩)
      · exact View.Edit.run_wf v (.replace p.viewPath p.payload)
    · exact View.Edit.run_wf v (.replace p.viewPath p.payload)

theorem planWrite_eq_ok {kept : Bool} {r : Except Error (List Touched) × Value} {touched : List Touched} {v : Value}
    (h : planWrite kept r = .ok (touched, v)) : r = (.ok touched, v) ∧ lint v = [] := by
  obtain ⟨t, ht, h⟩ := Except.bind_eq_ok.mp h
  rw [lift, Except.mapError_eq_ok] at ht
  dsimp only at h
  split at h
  · next hlint =>
    cases h
    exact ⟨Prod.ext ht rfl, by simpa using hlint⟩
  · cases h

end Api

section

variable [Deps]

/-- A dump ends in one newline already. -/
@[simp] theorem normalize_dump (f : Format) (v : Value) : normalizeTrailingNewline (f.dump v) = f.dump v := by
  simp only [normalizeTrailingNewline, Format.dump, Format.ensureSingleTrailingNewline, Text.trimNewlines_newline]

namespace Api

variable {s : MetaStore} {req : PutRequest} {p : ParsedPut} {stored : Stored} {plan : Plan} {id : DocId}

/-- A plan is a lint-clean document with each key once, next to its own dump. -/
theorem planPut_eq_ok (h : planPut req p stored = .ok plan) :
    mutatePut p stored.value.val = (.ok plan.touched, plan.planned) ∧ lint plan.planned = [] ∧
      plan.planned.WF ∧ plan.text = diskFormat.dump plan.planned := by
  obtain ⟨_, -, h⟩ := Except.bind_eq_ok.mp h
  obtain ⟨⟨touched, v⟩, hplan, h⟩ := Except.bind_eq_ok.mp h
  obtain ⟨hmut, hlint⟩ := planWrite_eq_ok hplan
  obtain ⟨_, -, h⟩ := Except.bind_eq_ok.mp h
  obtain ⟨_, -, h⟩ := Except.bind_eq_ok.mp h
  cases h
  have hwf := mutatePut_wf p stored.value
  rw [hmut] at hwf
  exact ⟨hmut, hlint, hwf, rfl⟩

/-! ### The store's own checks -/

theorem checkAvailable_of_readStored (h : readStored s id = .ok stored) : s.checkAvailable = .ok () := by
  cases hc : s.checkAvailable with
  | ok u => rfl
  | error e =>
    have hread : s.read id = .error e := by simp only [MetaStore.read, hc, Except.error_bind]
    cases hu : s.unavailable with
    | none => simp [checkAvailable, hu] at hc
    | some msg =>
      obtain rfl : Error.unavailable msg = e := by simpa [checkAvailable, hu] using hc
      rw [readStored, hread] at h
      cases h

/-- The document's digest can be told whenever reads do not fail. -/
theorem digestOf_eq_ok (hc : s.checkAvailable = .ok ()) (hr : s.readFault = none) : ∃ d, s.digestOf id = .ok d := by
  simp only [digestOf, hc, Except.ok_bind, identify, stat, hr]
  exact ⟨_, rfl⟩

theorem putRaw_digest {v : Value} {expected : Option String} {w : Tree} (hc : s.checkAvailable = .ok ())
    (hr : s.readFault = none) (hw : s.writeFault = none) (hpre : s.checkPrecondition id expected = .ok ())
    (hparse : diskFormat.parse (diskFormat.dump v) = .ok w) :
    ((s.putRaw id (diskFormat.dump v) expected).1.map (·.digest)) =
      (checkSize (Text.byteLen (diskFormat.dump v))).map fun () => digest (Text.encode (diskFormat.dump v)) := by
  obtain ⟨d, hd⟩ : ∃ d, s.digestOf id = .ok d := digestOf_eq_ok hc hr
  have hdig : checkDigest d expected = .ok () := by
    cases expected with
    | none => rfl
    | some e => simpa [checkPrecondition, hd] using hpre
  cases hsize : checkSize (Text.byteLen (diskFormat.dump v)) with
  | error e => simp [putRaw, checkRaw, hc, hd, hdig, hsize, Except.map]
  | ok u => simp [putRaw, checkRaw, hc, hd, hdig, hsize, hparse, writeAtomic, hw, stat, hr, Except.map]

/-- What was prepared passed the digest check and was planned on what the read gave. -/
theorem preparePut_eq_ok (h : preparePut s req = .ok (p, stored, plan)) :
    parsePut req = .ok p ∧ s.checkPrecondition p.docId req.digest = .ok () ∧ readStored s p.docId = .ok stored ∧
      planPut req p stored = .ok plan := by
  obtain ⟨p', hp, h⟩ := Except.bind_eq_ok.mp h
  obtain ⟨_, hpre, h⟩ := Except.bind_eq_ok.mp h
  obtain ⟨stored', hread, h⟩ := Except.bind_eq_ok.mp h
  obtain ⟨plan', hplan, h⟩ := Except.bind_eq_ok.mp h
  cases h
  exact ⟨hp, Except.mapError_eq_ok.mp hpre, hread, hplan⟩

/-- The write of a plan answers what its dry run answers. -/
theorem applyPut_dryRun (h : preparePut s req = .ok (p, stored, plan)) (hr : s.readFault = none)
    (hw : s.writeFault = none)
    (hround : ∀ v : Tree, lint v.val = [] → ∃ w, Format.yaml.parse (Format.yaml.dump v.val) = .ok w) :
    (applyPut s { req with dryRun := true } p.docId stored plan).1 =
      (applyPut s { req with dryRun := false } p.docId stored plan).1 := by
  obtain ⟨-, hpre, hread, hplan⟩ := preparePut_eq_ok h
  obtain ⟨-, hlint, hwf, htext⟩ := planPut_eq_ok hplan
  unfold applyPut
  by_cases hu : unchanged stored plan = true
  · simp only [hu, Bool.or_true, if_true]
  · obtain ⟨w, hparse⟩ := hround ⟨plan.planned, hwf⟩ hlint
    have hput := putRaw_digest (checkAvailable_of_readStored hread) hr hw hpre hparse
    rw [← htext] at hput
    simp only [hu, Bool.or_false, if_true, if_false, Bool.false_eq_true, hput]
    cases checkSize (Text.byteLen plan.text) <;> rfl

/-- Where no I/O fails and every dump of a lint-clean document parses, a dry run returns what the write
    returns, and changes no file. -/
theorem putDocument_dryRun (s : MetaStore) (req : PutRequest) (hr : s.readFault = none) (hw : s.writeFault = none)
    (hround : ∀ v : Tree, lint v.val = [] → ∃ w, Format.yaml.parse (Format.yaml.dump v.val) = .ok w) :
    (putDocument s { req with dryRun := true }).1 = (putDocument s { req with dryRun := false }).1 ∧
      (putDocument s { req with dryRun := true }).2 = s := by
  have hprep : ∀ b, preparePut s { req with dryRun := b } = preparePut s req := fun _ => rfl
  unfold putDocument
  rw [hprep true, hprep false]
  cases h : preparePut s req with
  | error e => exact ⟨rfl, rfl⟩
  | ok prepared =>
    obtain ⟨p, stored, plan⟩ := prepared
    refine ⟨?_, ?_⟩
    · simp only [applyPut_dryRun h hr hw hround]
    · simp only [applyPut, Bool.true_or, if_true]

end Api

end

namespace Api

/-- `{a: 1}` is replaced by `{a: 2}`. -/
def sampleRequest : PutRequest :=
  ⟨[], "100", none, "yaml", "a: 2\n".toList, "replace", some (Sample.sha256Hex (Text.encode "a: 1\n".toList)), false, false,
    true, ⟨"root@pam", true, true, [], none⟩⟩

open Sample in
theorem putDocument_dryRun_sample :
    (putDocument (storeOf [(100, "a: 1\n".toList)]) { sampleRequest with dryRun := true }).1 =
        (putDocument (storeOf [(100, "a: 1\n".toList)]) { sampleRequest with dryRun := false }).1 ∧
      (putDocument (storeOf [(100, "a: 1\n".toList)]) { sampleRequest with dryRun := true }).2 =
        storeOf [(100, "a: 1\n".toList)] :=
  putDocument_dryRun _ _ rfl rfl Sample.parse_dump

end Api
end PveMeta
