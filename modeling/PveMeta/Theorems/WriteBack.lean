import PveMeta.Theorems.Digests
import PveMeta.Theorems.KeptNotes
import PveMeta.Theorems.Lens
import PveMeta.Theorems.RoundTrip

/-! # A stripped read written back

A read without notes answers the document without them, and a replace without notes puts the stored ones back.
What comes out is the document that was read if every note finds its place, and if the text that was answered
reads as what it was made from. Then nothing is touched, and the file is left alone. -/

namespace PveMeta
open Api MetaStore View Value

/-! ### Lints of what is inside -/

theorem lintMembers_eq_nil {path : Path} {m : Members} (h : lintMembers path m = []) {e : String × Value} (he : e ∈ m) :
    (isCommentKey e.1 = true → e.2.isString = true) ∧ lintWalk (path.join e.1) e.2 = [] := by
  induction m with
  | nil => cases he
  | cons d m ih =>
    simp only [lintMembers, List.append_eq_nil_iff] at h
    obtain ⟨⟨⟨-, hnote⟩, hwalk⟩, hrest⟩ := h
    rcases List.mem_cons.mp he with rfl | he
    · refine ⟨fun hc => ?_, hwalk⟩
      by_contra hs
      simp [hc, hs] at hnote
    · exact ih hrest he

theorem lintItems_eq_nil {path : Path} {i : Nat} {items : List Value} (h : lintItems path i items = []) {v : Value}
    (hv : v ∈ items) : ∃ q, lintWalk q v = [] := by
  induction items generalizing i with
  | nil => cases hv
  | cons w items ih =>
    rw [lintItems, List.append_eq_nil_iff] at h
    rcases List.mem_cons.mp hv with rfl | hv
    · exact ⟨_, h.1⟩
    · exact ih h.2 hv

theorem lintWalk_inside {v w : Value} (hw : Inside w v) {path : Path} (h : lintWalk path v = []) :
    ∃ q, lintWalk q w = [] := by
  induction hw generalizing path with
  | self => exact ⟨path, h⟩
  | member he _ ih => exact ih (lintMembers_eq_nil h he).2
  | item hv _ ih =>
    obtain ⟨q, hq⟩ := lintItems_eq_nil h hv
    exact ih hq

theorem texts_of_lint {v : Value} (h : lint v = []) {m : Members} (hm : Inside (.object m) v) {e : String × Value}
    (he : e ∈ m) (hc : isCommentKey e.1 = true) : e.2.isString = true := by
  obtain ⟨q, hq⟩ := lintWalk_inside hm (List.append_eq_nil_iff.mp h).2
  exact (lintMembers_eq_nil hq he).1 hc

/-! ### Stripped documents -/

theorem stripComments_wf {v : Value} (h : v.WF) : (stripComments v).WF := by
  induction v using Value.ind with
  | array items ih =>
    rw [stripComments, stripItems_eq]
    refine .array fun w hw => ?_
    obtain ⟨v, hv, rfl⟩ := List.mem_map.mp hw
    exact ih v hv (h.items v hv)
  | object m ih =>
    rw [stripComments, stripMembers_eq]
    refine .object ?_ fun e he => ?_
    · rw [Assoc.keys, List.map_map]
      exact (List.filter_sublist.map Prod.fst).nodup h.keys
    · obtain ⟨d, hd, rfl⟩ := List.mem_map.mp he
      have hd := (List.mem_filter.mp hd).1
      exact ih d hd (h.members d hd)
  | _ => exact h

theorem isObject_setLast (s : String) (v : Value) : (v.setLast s).isObject = v.isObject := by cases v <;> rfl

/-- A document that ends in another string stays another when the stored notes are put into it. -/
theorem not_beq_keepComments_setLast {v : Value} {s t : String} (hv : v.WF) (hn : Noted v)
    (hlast : (stripComments v).lastScalar = some (.string s)) (hne : t ≠ s) :
    ¬ (v == keepComments v ((stripComments v).setLast t)) = true := by
  induction v using Value.ind with
  | null => cases hlast
  | bool b => cases hlast
  | number n => cases hlast
  | string r => exact not_beq_setLast hv hlast hne
  | array items ih =>
    rw [stripComments_of_bare (hn.lists items .self)] at hlast ⊢
    exact not_beq_setLast hv hlast hne
  | object om ih =>
    rw [stripComments] at hlast
    have hstrip : (Value.object (stripMembers om)).WF := stripComments_wf hv
    obtain ⟨e', he', hlast, hget⟩ := exists_last hstrip.keys hlast
    rw [stripMembers_eq] at he'
    obtain ⟨e, he, rfl⟩ := List.mem_map.mp he'
    obtain ⟨he, hc⟩ := List.mem_filter.mp he
    rw [Bool.not_eq_true'] at hc
    have hown := Assoc.get?_of_mem hv.keys he
    rw [stripComments, setLast, keepComments, object_beq_object, Bool.and_eq_true, beqMembers_iff]
    intro heq
    have hmem := heq.2 e he
    rw [get?_placeNotes_of_plain hc, get?_keepMembers, hget t, Option.map_some, optEq_some, keptValue, hown] at hmem
    dsimp only at hmem hlast
    rw [isObject_setLast, isObject_stripComments, Bool.and_self] at hmem
    cases hobj : e.2.isObject with
    | true =>
      rw [hobj, if_pos rfl] at hmem
      exact ih e he (hv.members e he) (hn.member he) hlast hmem
    | false =>
      have hsame : stripComments e.2 = e.2 := by
        cases hv2 : e.2 with
        | object n =>
          rw [hv2] at hobj
          cases hobj
        | array items => exact stripComments_of_bare ((hn.member he).lists items (hv2 ▸ .self))
        | _ => rfl
      rw [hobj, if_neg Bool.false_ne_true, hsame] at hmem
      rw [hsame] at hlast
      exact not_beq_setLast (hv.members e he) hlast hne hmem

section

variable [Deps] {s : MetaStore} {d : DocId} {old w : Tree} {req : PutRequest} {doc : ApiViewDocument} {f : File}

def stripped (v : Tree) : Tree := ⟨stripComments v.val, stripComments_wf v.2⟩

/-- The file of `d` is the dump of `old`, and is read as that; a prefix file is one that the loader takes. -/
structure HoldsDump (s : MetaStore) (d : DocId) (old : Tree) : Prop where
  readable : s.Readable
  content : ∃ mtime, s.content d = some ⟨Text.encode (diskFormat.dump old.val), mtime⟩
  size : Text.byteLen (diskFormat.dump old.val) ≤ maxReadBytes
  parses : diskFormat.parseRaw (diskFormat.dump old.val) = .ok old
  lint : lint old.val = []
  shape : checkRegistryShape d (diskFormat.dump old.val) = .ok ()

/-- A replace of the whole document without notes, of what a read of it answered: the text itself, or a text that
    reads as the data. -/
structure WritesBack (req : PutRequest) (d : DocId) (doc : ApiViewDocument) : Prop where
  id : parseId req.id = .ok d
  view : parseView req.view = .ok Path.root
  mode : req.mode = "replace" ∨ req.mode = ""
  comments : req.comments = false
  acl : req.acl.write = true
  digest : req.digest = none ∨ req.digest = some doc.digest
  payload : (parseViewFormat req.formatName = .ok .yaml ∧ doc.text = some req.payload) ∨
    (parseViewFormat req.formatName = .ok .json ∧ ∃ w, Format.json.parseRaw req.payload = .ok w ∧ doc.data = some w.val)

/-- Whatever a read without notes answers, written back it touches nothing, answers the same digest, and leaves
    every file as it is. -/
def Rests (s : MetaStore) (d : DocId) : Prop :=
  ∀ id view formatName acl doc req, parseId id = .ok d → parseView view = .ok Path.root →
    getDocument s id view formatName false acl = .ok doc → WritesBack req d doc →
      putDocument s req = (.ok ⟨d.display, viewOut req.view, doc.digest, []⟩, s)

/-! ### The read -/

theorem HoldsDump.stored (h : HoldsDump s d old) (hobj : old.val.isObject = true) :
    storedOf (s.content d) =
      ⟨old, digest (Text.encode (diskFormat.dump old.val)), none, some (diskFormat.dump old.val), hobj⟩ := by
  obtain ⟨mtime, hcontent⟩ := h.content
  rw [hcontent]
  refine storedOf_of_parse ?_ (Text.decode?_encode _) h.parses hobj
  rw [Text.size_encode]
  exact h.size

theorem HoldsDump.isObject (h : HoldsDump s d old) : old.val.isObject = true := by
  by_contra hno
  have hlint := h.lint
  rw [PveMeta.lint, if_neg hno] at hlint
  cases hlint

/-- What a read without notes answers: the stripped document, as data or as its dump. -/
theorem getDocument_stripped {id view formatName acl} (h : HoldsDump s d old) (hid : parseId id = .ok d)
    (hview : parseView view = .ok Path.root) (hget : getDocument s id view formatName false acl = .ok doc) :
    doc.digest = digest (Text.encode (diskFormat.dump old.val)) ∧
      ((parseViewFormat formatName = .ok .json ∧ doc.data = some (stripped old).val ∧ doc.text = none) ∨
        (parseViewFormat formatName = .ok .yaml ∧ doc.data = none ∧
          doc.text = some (diskFormat.dump (stripped old).val))) := by
  obtain ⟨d', fmt, vp, hd, hfmt, hvp, hread, hget⟩ := getDocument_eq_ok hget
  rw [hid, Except.ok.injEq] at hd
  subst hd
  rw [hview, Except.ok.injEq] at hvp
  subst hvp
  rw [h.stored h.isObject] at hget
  have hvalue : ∀ base : Value, (if view.isSome then
      (lift (View.extract base Path.root)).map fun v => v.getD (.object []) else .ok base) = .ok base := by
    intro base
    split <;> rfl
  simp only [rendered, hvalue, Except.bind, Bool.and_false, Option.filter_some, Bool.false_eq_true, if_false] at hget
  cases fmt with
  | json =>
    cases hget
    exact ⟨rfl, Or.inl ⟨hfmt, rfl, rfl⟩⟩
  | yaml =>
    cases view <;>
    · cases hget
      exact ⟨rfl, Or.inr ⟨hfmt, rfl, rfl⟩⟩

/-! ### The write -/

theorem parsePut_of_writesBack {fmt : Format} (h : WritesBack req d doc) (hfmt : parseViewFormat req.formatName = .ok fmt)
    (hpayload : fmt.parseRaw req.payload = .ok w) : parsePut req = .ok ⟨d, Path.root, false, w, true⟩ := by
  have hmode : ¬ req.mode = "merge" := by
    rcases h.mode with hm | hm <;> rw [hm] <;> decide
  simp only [parsePut, h.id, hfmt, h.view, authorizeWrite, h.acl, if_true, hmode, if_false, h.mode, Except.ok_bind,
    View.parse, hpayload, h.comments]
  rfl

omit [Deps] in
theorem introduced_self (fs : List Finding) : Shape.introduced fs fs [] = [] := by
  rw [Shape.introduced, List.filter_eq_nil_iff]
  intro f hf
  simp [hf]

theorem checkEnforced_self (prefixes : List PrefixDef) (v : Value) : checkEnforced prefixes d v v [] = .ok () := by
  cases d with
  | registry kind name => rfl
  | guest vmid =>
    rw [checkEnforced]
    simp only [List.map_nil, introduced_self]
    rfl

/-- A payload that gives the document back when its notes are in again. -/
theorem planPut_of_kept (h : HoldsDump s d old) (hkeep : keepComments old.val w.val = old.val) :
    planPut req ⟨d, Path.root, false, w, true⟩ (storedOf (s.content d)) =
      .ok ⟨old.val, [], diskFormat.dump old.val⟩ := by
  rw [h.stored h.isObject]
  have hmut : mutatePut ⟨d, Path.root, false, w, true⟩ old.val = (.ok [], old.val) := by
    show View.replace old.val Path.root (keepComments old.val w.val) = _
    rw [hkeep, replace_root, Patch.diff, diffAt_self old.2]
  have hwrite : planWrite true (.ok [], old.val) = .ok (([] : List Touched), old.val) := by
    simp only [planWrite, h.lint]
    rfl
  have hgate : (if req.force then .ok () else checkEnforced req.prefixes d old.val old.val []) = .ok () := by
    split
    · rfl
    · exact checkEnforced_self req.prefixes old.val
  simp only [planPut, checkRepairable, hmut, hwrite, h.shape, hgate, Except.ok_bind]
  rfl

/-- Such a payload leaves everything as it is. -/
theorem putDocument_of_kept (h : HoldsDump s d old) (hp : parsePut req = .ok ⟨d, Path.root, false, w, true⟩)
    (hdig : req.digest = none ∨ req.digest = some (digest (Text.encode (diskFormat.dump old.val))))
    (hkeep : keepComments old.val w.val = old.val) :
    putDocument s req =
      (.ok ⟨d.display, viewOut req.view, digest (Text.encode (diskFormat.dump old.val)), []⟩, s) := by
  have hstored := h.stored h.isObject
  have hcheck : s.checkPrecondition d req.digest = .ok () := by
    rcases hdig with hnone | hsome
    · rw [hnone]
      rfl
    · rw [hsome, checkPrecondition_eq_ok]
      refine ⟨h.readable, ?_⟩
      rw [← digest_storedOf_content, hstored]
  have hprepare : preparePut s req = .ok (⟨d, Path.root, false, w, true⟩, storedOf (s.content d),
      ⟨old.val, [], diskFormat.dump old.val⟩) := by
    simp only [preparePut, hp, Except.ok_bind, hcheck, readStored_of_readable h.readable, planPut_of_kept h hkeep]
    rfl
  have hunchanged : unchanged (storedOf (s.content d)) ⟨old.val, [], diskFormat.dump old.val⟩ = true := by
    rw [unchanged_iff, hstored]
    exact ⟨rfl, rfl, rfl⟩
  simp only [putDocument, hprepare, applyPut, hunchanged, Bool.or_true, if_true, Except.ok_bind]
  rfl

/-- Where the notes and the text come back, a stripped read written back leaves everything as it is. -/
theorem rests_of_kept (h : HoldsDump s d old) (hkeep : keepComments old.val (stripComments old.val) = old.val)
    (hback : Format.yaml.parseRaw (diskFormat.dump (stripped old).val) = .ok (stripped old)) : Rests s d := by
  intro id view formatName acl doc req hid hview hget hwb
  obtain ⟨hdig, hanswer⟩ := getDocument_stripped h hid hview hget
  obtain ⟨w, hp, hw⟩ : ∃ w, parsePut req = .ok ⟨d, Path.root, false, w, true⟩ ∧ w.val = stripComments old.val := by
    rcases hwb.payload with ⟨hfmt, htext⟩ | ⟨hfmt, w, hparse, hdata⟩
    · rcases hanswer with ⟨-, -, hnone⟩ | ⟨-, -, hdump⟩
      · rw [hnone] at htext
        cases htext
      · rw [hdump, Option.some.injEq] at htext
        exact ⟨_, parsePut_of_writesBack hwb hfmt (htext ▸ hback), rfl⟩
    · rcases hanswer with ⟨-, hsome, -⟩ | ⟨-, hnone, -⟩
      · rw [hsome, Option.some.injEq] at hdata
        exact ⟨w, parsePut_of_writesBack hwb hfmt hparse, hdata.symm⟩
      · rw [hnone] at hdata
        cases hdata
  rw [hdig]
  exact putDocument_of_kept h hp (hdig ▸ hwb.digest) (hw ▸ hkeep)

/-! ### Where it does not -/

/-- A write that touches nothing planned what it touched nothing of. -/
theorem mutatePut_of_untouched {answer : ApiPutResult} {s' : MetaStore} (hput : putDocument s req = (.ok answer, s'))
    (htouched : answer.touched = []) :
    ∃ p stored new, parsePut req = .ok p ∧ readStored s p.docId = .ok stored ∧
      mutatePut p stored.value.val = (.ok [], new) := by
  unfold putDocument at hput
  cases hprepare : preparePut s req with
  | error e =>
    rw [hprepare] at hput
    cases hput
  | ok psp =>
    obtain ⟨p, stored, plan⟩ := psp
    rw [hprepare] at hput
    obtain ⟨hp, -, hread, hplan⟩ := preparePut_eq_ok hprepare
    obtain ⟨dg, -, rfl⟩ := Except.map_eq_ok.mp (congrArg Prod.fst hput)
    have hnil : plan.touched = [] := List.map_eq_nil_iff.mp htouched
    refine ⟨p, stored, plan.planned, hp, hread, ?_⟩
    rw [← hnil]
    exact (planPut_eq_ok hplan).1

/-- Where the text of the stripped document is read as another, it does not. -/
theorem not_rests_of_kept {id : String} (hid : parseId id = .ok d) (h : HoldsDump s d old) (hn : Noted old.val)
    (he : Emission (stripped old)) (hk : EndsInKept (stripped old).val) : ¬ Rests s d := by
  intro hrests
  let acl : CallerAcl := ⟨"root@pam", true, true, [], none⟩
  let payload : Text := diskFormat.dump (stripped old).val
  let req : PutRequest := ⟨[], id, none, "yaml", payload, "replace", none, false, false, false, acl⟩
  have hyaml : parseViewFormat "yaml" = .ok .yaml := rfl
  have hstored := h.stored h.isObject
  obtain ⟨doc, hget⟩ : ∃ doc, getDocument s id none "yaml" false acl = .ok doc :=
    getDocument_answers h.readable hid (by rw [hstored]) rfl rfl
  have htext : doc.text = some payload := by
    rcases (getDocument_stripped h hid rfl hget).2 with ⟨hjson, -⟩ | ⟨-, -, htext⟩
    · cases hyaml.symm.trans hjson
    · exact htext
  have hwb : WritesBack req d doc := ⟨hid, rfl, Or.inl rfl, rfl, rfl, Or.inl rfl, Or.inl ⟨hyaml, htext⟩⟩
  obtain ⟨str, t, w, hlast, hne, hparse, hw⟩ := parse_cut_dump he hk
  obtain ⟨p, stored, new, hp, hread, hmut⟩ :=
    mutatePut_of_untouched (hrests id none "yaml" acl doc req hid rfl hget hwb) rfl
  rw [parsePut_of_writesBack hwb hyaml hparse, Except.ok.injEq] at hp
  subst hp
  rw [readStored_of_readable h.readable, Except.ok.injEq, hstored] at hread
  subst hread
  have hdiff : Patch.diff old.val (keepComments old.val w.val) = [] := by
    have hreplace : View.replace old.val Path.root (keepComments old.val w.val) = (.ok [], new) := hmut
    rw [replace_root] at hreplace
    exact Except.ok.inj (congrArg Prod.fst hreplace)
  have hwf : (keepComments old.val w.val).WF := keepComments_wf old.2 w.2
  have hbeq :=
    (diffAt_exact old.2 hwf : Exact Path.root _ _ _).nil_iff (by rintro _ ⟨⟩; exact old.2) (by rintro _ ⟨⟩; exact hwf)
  refine not_beq_keepComments_setLast old.2 hn hlast hne ?_
  have heq := hbeq.mp hdiff
  rwa [hw] at heq

/-- For a document that is lint-clean, with notes about their map or a key beside them and none in a list, and
    whose file holds its dump: the stored notes come back to a stripped read, and writing it back leaves everything
    as it is, exactly if each note about a note stands behind it and the stripped document does not end in a string
    that is a newline or ends in two. -/
theorem stripped_read_rests_iff {id : String} (hid : parseId id = .ok d) (h : HoldsDump s d old)
    (hann : ∀ m, Inside (.object m) old.val → Annotated m)
    (hlists : ∀ items, Inside (.array items) old.val → Bare (.array items)) (he : Emission (stripped old)) :
    (keepComments old.val (stripComments old.val) = old.val ∧ Rests s d) ↔
      (∀ m, Inside (.object m) old.val → Ordered m) ∧ ¬ EndsInKept (stripped old).val := by
  have hn : Noted old.val := ⟨fun m hm e hemem hc => texts_of_lint h.lint hm hemem hc, hann, hlists⟩
  rw [keepComments_stripComments_iff old.2 hn]
  refine and_congr_right fun hord => ⟨fun hrests hk => not_rests_of_kept hid h hn he hk hrests, fun hk => ?_⟩
  exact rests_of_kept h (keepComments_stripComments old.2 hn hord) (parseYaml_dump he hk)

end

/-! ### Samples -/

/-- A note about a note, before it. -/
def ahead : Tree :=
  ⟨.object [("a", .number (.posInt 1)), ("a____", .string "n"), ("a__", .string "m")],
    .object (by decide) (by simp [WF.number, WF.string])⟩

/-- The first of the two notes is lost: the one it is about is not back when its turn comes. -/
theorem ahead_loses_note : lint ahead.val = [] ∧ (∀ m, Inside (.object m) ahead.val → Annotated m) ∧
    (∀ items, Inside (.array items) ahead.val → Bare (.array items)) ∧
    keepComments ahead.val (stripComments ahead.val) ≠ ahead.val := by
  have hitems : ∀ {items}, ¬ Inside (.array items) ahead.val := by
    intro items h
    cases h with
    | member he h =>
      simp only [List.mem_cons, List.not_mem_nil, or_false] at he
      rcases he with rfl | rfl | rfl <;> cases h
  refine ⟨by decide, fun m h => ?_, fun items h => absurd h hitems, fun h => ?_⟩
  · cases h with
    | self =>
      have hall : ∀ k ∈ ["a", "a____", "a__"], ∀ subject ∈ noteSubject k, subject = "" ∨
          subject ∈ ["a", "a____", "a__"] := by
        decide
      exact hall
    | member he h =>
      simp only [List.mem_cons, List.not_mem_nil, or_false] at he
      rcases he with rfl | rfl | rfl <;> cases h
  · have hkept : keepComments ahead.val (stripComments ahead.val) =
        .object [("a", .number (.posInt 1)), ("a__", .string "m")] := rfl
    rw [hkept] at h
    exact absurd (congrArg List.length (Value.object.inj h)) (by decide)

open Sample in
/-- `{a: 1, a__: n}`, read without its note and written back. -/
theorem stripped_read_rests_iff_docNoted :
    (keepComments docNoted.val (stripComments docNoted.val) = docNoted.val ∧
        Rests (storeOf [(100, "a: 1\na__: n\n".toList)]) (.guest 100)) ↔
      (∀ m, Inside (.object m) docNoted.val → Ordered m) ∧ ¬ EndsInKept (stripped docNoted).val := by
  have hfile : HoldsDump (storeOf [(100, "a: 1\na__: n\n".toList)]) (.guest 100) docNoted :=
    ⟨⟨rfl, rfl⟩, ⟨0, rfl⟩, by decide, rfl, by decide, rfl⟩
  have hid : parseId "100" = .ok (.guest 100) := rfl
  refine stripped_read_rests_iff hid hfile (fun m h => ?_) (fun items h => ?_) emission_docA
  · cases h with
    | self =>
      have hall : ∀ k ∈ ["a", "a__"], ∀ subject ∈ noteSubject k, subject = "" ∨ subject ∈ ["a", "a__"] := by decide
      exact hall
    | member he h =>
      simp only [List.mem_cons, List.not_mem_nil, or_false] at he
      rcases he with rfl | rfl <;> cases h
  · cases h with
    | member he h =>
      simp only [List.mem_cons, List.not_mem_nil, or_false] at he
      rcases he with rfl | rfl <;> cases h

end PveMeta
