import PveMeta.Theorems.Gate
import PveMeta.Theorems.WriteBack

/-! # A write that changes nothing

A put that leaves the document as it is touches nothing. Whether it leaves the file as well is told by the file's
text: one that is not what the write would write is rewritten, and one that is not there is created. -/

namespace PveMeta
open Api MetaStore View Value

section

variable [Deps] {s s' : MetaStore} {req : PutRequest} {p : ParsedPut} {stored : Stored} {plan : Plan}
  {answer : ApiPutResult} {d : DocId} {o : Option File} {text : Text}

/-- A put, not a dry run, of a document that can be read or is not there, that is accepted and whose planned document
    equals the stored one. -/
structure ChangesNothing (s : MetaStore) (req : PutRequest) (p : ParsedPut) (stored : Stored) (plan : Plan)
    (answer : ApiPutResult) (s' : MetaStore) : Prop where
  prepared : preparePut s req = .ok (p, stored, plan)
  real : req.dryRun = false
  readable : stored.unrecoverable = none
  accepted : putDocument s req = (.ok answer, s')
  same : (stored.value.val == plan.planned) = true

/-- The file that a read of the document finds holds this text. -/
def MetaStore.Holds (s : MetaStore) (d : DocId) (text : Text) : Prop :=
  (s.content d).map File.bytes = some (Text.encode text)

/-- A readable document was read from a file that holds its text. -/
theorem raw_storedOf_iff (h : (storedOf o).unrecoverable = none) :
    (storedOf o).raw = some text ↔ o.map File.bytes = some (Text.encode text) := by
  constructor
  · intro hraw
    obtain ⟨f, rfl, -, hbytes⟩ := storedOf_raw hraw
    rw [Option.map_some, hbytes]
  · intro hbytes
    rcases storedOf_readable h with ⟨rfl, -⟩ | ⟨f, raw, w, hobj, rfl, -, hraw, -, hst⟩
    · cases hbytes
    · rw [Option.map_some, Option.some.injEq, hraw] at hbytes
      have htext := congrArg Text.decode? hbytes
      rw [Text.decode?_encode, Text.decode?_encode] at htext
      rw [hst, htext]

namespace ChangesNothing

theorem touched_eq (h : ChangesNothing s req p stored plan answer s') : plan.touched = [] := by
  obtain ⟨-, -, -, hplan⟩ := preparePut_eq_ok h.prepared
  obtain ⟨hmut, -, hwf, -⟩ := planPut_eq_ok hplan
  refine ((mutatePut_reports hmut).exact_.nil_iff ?_ ?_).mpr (optEq_some.mpr h.same)
  · intro v hv
    exact Option.some.inj hv ▸ stored.value.2
  · intro v hv
    exact Option.some.inj hv ▸ hwf

theorem unchanged_iff (h : ChangesNothing s req p stored plan answer s') :
    unchanged stored plan = true ↔ s.Holds p.docId (diskFormat.dump plan.planned) := by
  obtain ⟨-, -, hread, hplan⟩ := preparePut_eq_ok h.prepared
  obtain ⟨-, -, -, htext⟩ := planPut_eq_ok hplan
  obtain ⟨-, hstored⟩ := readStored_eq_ok hread
  have hreadable := h.readable
  rw [hstored] at hreadable
  rw [unchanged, h.touched_eq, h.readable, htext, hstored, Holds, ← raw_storedOf_iff hreadable]
  simp

/-- It writes the text it planned, unless the file holds that already. -/
theorem store_eq (h : ChangesNothing s req p stored plan answer s') :
    (s.Holds p.docId (diskFormat.dump plan.planned) ∧ s' = s ∧ answer.digest = s.identity p.docId) ∨
      (¬ s.Holds p.docId (diskFormat.dump plan.planned) ∧ s' = s.written p.docId (diskFormat.dump plan.planned) ∧
        answer.digest = digest (Text.encode (diskFormat.dump plan.planned))) := by
  obtain ⟨-, -, hread, hplan⟩ := preparePut_eq_ok h.prepared
  obtain ⟨-, -, -, htext⟩ := planPut_eq_ok hplan
  obtain ⟨-, hstored⟩ := readStored_eq_ok hread
  have haccepted := h.accepted
  rw [putDocument, h.prepared] at haccepted
  dsimp only at haccepted
  cases hu : unchanged stored plan with
  | true =>
    have hholds := h.unchanged_iff.mp hu
    refine Or.inl ⟨hholds, ?_⟩
    have hraw : (storedOf (s.content p.docId)).raw = some (diskFormat.dump plan.planned) := by
      have hreadable := h.readable
      rw [hstored] at hreadable
      exact (raw_storedOf_iff hreadable).mpr hholds
    obtain ⟨f, hf, hsize, hbytes⟩ := storedOf_raw hraw
    rw [applyPut, hu, Bool.or_true, if_pos rfl, if_pos rfl] at haccepted
    cases haccepted
    refine ⟨rfl, ?_⟩
    rw [identity, hf, Option.map_some, Option.getD_some, identityOf_of_le hsize, hbytes, htext]
  | false =>
    refine Or.inr ⟨fun hholds => ?_, ?_⟩
    · rw [h.unchanged_iff.mpr hholds] at hu
      cases hu
    · rw [applyPut, hu, h.real, Bool.or_false, if_neg Bool.false_ne_true, htext] at haccepted
      rcases s.putRaw_cases p.docId (diskFormat.dump plan.planned) req.digest with ⟨e, he⟩ | ⟨doc, w, hput, hdig, -⟩
      · rw [he] at haccepted
        cases haccepted
      · rw [hput] at haccepted
        cases haccepted
        rw [normalize_dump] at hdig ⊢
        exact ⟨rfl, hdig⟩

end ChangesNothing

/-- A put that leaves a readable or absent document as it is touches nothing. It leaves every file as it is, exactly if
    the file that the read found, a packaged one too, holds the text that the document is written as; the digest is
    then the one from before. If that file holds another text, or there is none, the text is written where writes of
    the document land, and the digest is that of the text. -/
theorem rewrites_nothing_iff (h : ChangesNothing s req p stored plan answer s') :
    answer.touched = [] ∧ (s' = s ↔ s.Holds p.docId (diskFormat.dump plan.planned)) ∧
      (s.Holds p.docId (diskFormat.dump plan.planned) → answer.digest = s.identity p.docId) ∧
      (¬ s.Holds p.docId (diskFormat.dump plan.planned) →
        s' = s.written p.docId (diskFormat.dump plan.planned) ∧
          answer.digest = digest (Text.encode (diskFormat.dump plan.planned))) := by
  have htouched : answer.touched = [] := by
    have haccepted := h.accepted
    rw [putDocument, h.prepared] at haccepted
    obtain ⟨dg, -, rfl⟩ := Except.map_eq_ok.mp (congrArg Prod.fst haccepted)
    exact List.map_eq_nil_iff.mpr h.touched_eq
  rcases h.store_eq with ⟨hholds, hs, hdigest⟩ | ⟨hno, hs, hdigest⟩
  · exact ⟨htouched, ⟨fun _ => hholds, fun _ => hs⟩, fun _ => hdigest, fun hno => absurd hholds hno⟩
  · refine ⟨htouched, ⟨fun heq => ?_, fun hholds => absurd hholds hno⟩, fun hholds => absurd hholds hno,
      fun _ => ⟨hs, hdigest⟩⟩
    rw [Holds, ← heq, hs, content_written]
    rfl

end

open Sample

/-- A merge of nothing into guest 100. -/
def mergeNothing : PutRequest :=
  ⟨[], "100", none, "yaml", "{}\n".toList, "merge", none, false, false, true, ⟨"root@pam", true, true, [], none⟩⟩

/-- A hand-written file, with a comment of YAML's own. -/
def handWritten : Text := "a: 1 # one\n".toList

def handStore : MetaStore := storeOf [(100, handWritten)]

def handPut : ParsedPut := ⟨.guest 100, Path.root, true, docEmpty, false⟩

def handStored : Stored := ⟨docA 1, Sample.sha256Hex (Text.encode handWritten), none, some handWritten, rfl⟩

def handPlan : Plan := ⟨(docA 1).val, [], "a: 1\n".toList⟩

def handAnswer : ApiPutResult := ⟨"100", "", Sample.sha256Hex (Text.encode "a: 1\n".toList), []⟩

/-- The read of that file and the plan, step by step: the texts are short, the runs of the parser on them are not. -/
theorem preparePut_handWritten : preparePut handStore mergeNothing = .ok (handPut, handStored, handPlan) := by
  have hparse : parsePut mergeNothing = .ok handPut := rfl
  have hpre : handStore.checkPrecondition handPut.docId mergeNothing.digest = .ok () := rfl
  have hread : readStored handStore handPut.docId = .ok handStored := rfl
  have hplan : planPut mergeNothing handPut handStored = .ok handPlan := rfl
  simp only [preparePut, hparse, Except.ok_bind, hpre, hread, hplan]
  rfl

theorem putRaw_handWritten : handStore.putRaw handPut.docId handPlan.text mergeNothing.digest =
    (.ok ⟨.guest 100, .root "100.yaml", "a: 1\n".toList, docA 1, none, handAnswer.digest, 1⟩,
      handStore.written (.guest 100) "a: 1\n".toList) := by
  have havail : handStore.checkAvailable = .ok () := rfl
  have hdigest : handStore.digestOf handPut.docId = .ok (some handStored.digest) := rfl
  have hsize : checkSize (Text.byteLen (normalizeTrailingNewline handPlan.text)) = .ok () := rfl
  have hparse : diskFormat.parse (normalizeTrailingNewline handPlan.text) = .ok (docA 1) := rfl
  have hwrite : handStore.writeFault = none := rfl
  have hread : handStore.readFault = none := rfl
  have hcheck : handStore.checkRaw handPut.docId handPlan.text mergeNothing.digest =
      .ok ("a: 1\n".toList, docA 1) := by
    simp only [checkRaw, havail, hdigest, hsize, hparse, Except.ok_bind]
    rfl
  simp only [putRaw, hcheck, writeAtomic, hwrite, stat, hread]
  rfl

theorem changesNothing_handWritten : ChangesNothing handStore mergeNothing handPut handStored handPlan handAnswer
    (handStore.written (.guest 100) "a: 1\n".toList) := by
  have hchanged : unchanged handStored handPlan = false := by decide +kernel
  refine ⟨preparePut_handWritten, rfl, rfl, ?_, rfl⟩
  rw [putDocument, preparePut_handWritten]
  simp only [applyPut, hchanged, putRaw_handWritten]
  rfl

theorem not_holds_handWritten : ¬ handStore.Holds (.guest 100) "a: 1\n".toList := by
  intro h
  have hbytes : Text.encode handWritten = Text.encode "a: 1\n".toList := Option.some.inj h
  exact absurd hbytes (by decide)

/-- The merge of nothing touches nothing of the hand-written file, and writes it. -/
theorem rewrites_nothing_iff_hand_written :
    handAnswer.touched = [] ∧ handStore.written (.guest 100) "a: 1\n".toList ≠ handStore := by
  obtain ⟨htouched, hsame, -⟩ := rewrites_nothing_iff changesNothing_handWritten
  exact ⟨htouched, fun heq => not_holds_handWritten (hsame.mp heq)⟩

/-- The document stays as it is, with its key order, and the file does not, nor the digest. -/
theorem hand_written_is_rewritten : ∃ s req p stored plan answer s',
    ChangesNothing s req p stored plan answer s' ∧ plan.planned = stored.value.val ∧ s' ≠ s ∧
      answer.digest ≠ s.identity p.docId := by
  have h := changesNothing_handWritten
  refine ⟨_, _, _, _, _, _, _, h, rfl, ?_⟩
  rcases h.store_eq with ⟨hholds, -⟩ | ⟨-, -, hdigest⟩
  · exact absurd hholds not_holds_handWritten
  · refine ⟨fun heq => not_holds_handWritten ?_, ?_⟩
    · rw [← heq, Holds, content_written]
      rfl
    · rw [hdigest]
      decide

end PveMeta
