import PveMeta.Request
import PveMeta.Theorems.Reads

/-! # A write as a change of one file

A call is its steps in a row. A refused write leaves the store as it is, and one that is answered makes the
change that its plan says, to the one file where a write of the document lands. -/

namespace PveMeta
open Api MetaStore

section

variable [Deps] {s s' : MetaStore} {d : DocId} {vp : Path} {r : Request} {stored : Stored} {plan : Plan} {dg : String}

namespace MetaStore

variable {text : Text} {expected : Option String}

/-- A raw write is refused and leaves the store, or writes the text it was given, normalized. -/
theorem putRaw_cases (s : MetaStore) (d : DocId) (text : Text) (expected : Option String) :
    (∃ e, s.putRaw d text expected = (.error e, s)) ∨
      ∃ doc w, s.putRaw d text expected = (.ok doc, s.written d (normalizeTrailingNewline text)) ∧
        doc.digest = digest (Text.encode (normalizeTrailingNewline text)) ∧
        Text.byteLen (normalizeTrailingNewline text) ≤ maxBytes ∧
        Format.yaml.parse (normalizeTrailingNewline text) = .ok w ∧ s.Readable := by
  cases hcheck : s.checkRaw d text expected with
  | error e => exact Or.inl ⟨e, putRaw_of_error hcheck⟩
  | ok nw =>
    obtain ⟨n, w⟩ := nw
    obtain ⟨⟨_, hdig⟩, rfl, hsize, hparse⟩ := of_checkRaw hcheck
    have hread := readable_of_digestOf hdig
    cases hw : s.writeFault with
    | some msg =>
      refine Or.inl ⟨.io msg, ?_⟩
      simp only [putRaw, hcheck, writeAtomic, hw]
    | none =>
      have hput := putRaw_of_ok ⟨hread.available, hread.reads, hw⟩ hcheck
      exact Or.inr ⟨_, w, hput, rfl, hsize, hparse, hread⟩

end MetaStore

namespace Request

theorem parsePut_eq_ok {req : PutRequest} {p : ParsedPut} (h : parsePut req = .ok p) :
    parseId req.id = .ok p.docId ∧ parseView req.view = .ok p.viewPath ∧ req.acl.write = true ∧
      p.keepNotes = (! p.isMerge && ! req.comments) ∧
      ((p.isMerge = true ∧ req.mode = "merge") ∨ (p.isMerge = false ∧ (req.mode = "replace" ∨ req.mode = ""))) := by
  obtain ⟨d, hd, h⟩ := Except.bind_eq_ok.mp h
  obtain ⟨f, -, h⟩ := Except.bind_eq_ok.mp h
  obtain ⟨vp, hvp, h⟩ := Except.bind_eq_ok.mp h
  obtain ⟨_, hacl, h⟩ := Except.bind_eq_ok.mp h
  have hwrite : req.acl.write = true := by
    rw [authorizeWrite] at hacl
    split at hacl
    · assumption
    · cases hacl
  dsimp only at h
  split at h
  · next hmode =>
    obtain ⟨_, hm, h⟩ := Except.bind_eq_ok.mp h
    obtain ⟨payload, -, h⟩ := Except.bind_eq_ok.mp h
    cases hm
    cases h
    exact ⟨hd, hvp, hwrite, rfl, Or.inl ⟨rfl, hmode⟩⟩
  · split at h
    · next hmode =>
      obtain ⟨_, hm, h⟩ := Except.bind_eq_ok.mp h
      obtain ⟨payload, -, h⟩ := Except.bind_eq_ok.mp h
      cases hm
      cases h
      exact ⟨hd, hvp, hwrite, rfl, Or.inr ⟨rfl, hmode⟩⟩
    · cases h

theorem target_eq_ok (h : r.target = .ok (d, vp)) : parseId r.id = .ok d ∧ parseView r.view = .ok vp := by
  cases r with
  | put req =>
    obtain ⟨p, hp, h⟩ := Except.map_eq_ok.mp h
    cases h
    obtain ⟨hd, hvp, -⟩ := parsePut_eq_ok hp
    exact ⟨hd, hvp⟩
  | delete req =>
    obtain ⟨d', hd, h⟩ := Except.bind_eq_ok.mp h
    obtain ⟨vp', hvp, h⟩ := Except.bind_eq_ok.mp h
    obtain ⟨_, -, h⟩ := Except.bind_eq_ok.mp h
    cases h
    exact ⟨hd, hvp⟩

/-- A call is its check, its plan and its write, one after the other. -/
theorem run_eq : r.run s =
    match r.check s with
    | .error e => (.error e, s)
    | .ok () =>
      match r.plan s with
      | .error e => (.error e, s)
      | .ok (stored, plan) =>
        ((r.apply s stored plan).1.bind fun digest =>
          r.target.map fun t => ⟨t.1.display, viewOut r.view, digest, touchedOut plan.touched⟩,
          (r.apply s stored plan).2) := by
  cases r with
  | put req =>
    simp only [run, putDocument, preparePut, check, Request.plan, apply, target, digest, view]
    cases parsePut req with
    | error e => rfl
    | ok p =>
      simp only [Except.ok_bind, Except.map]
      cases lift (s.checkPrecondition p.docId req.digest) with
      | error e => rfl
      | ok u =>
        simp only [Except.ok_bind]
        cases readStored s p.docId with
        | error e => rfl
        | ok stored =>
          simp only [Except.ok_bind]
          cases planPut req p stored with
          | error e => rfl
          | ok plan =>
            simp only [Except.ok_bind, pure, Except.pure]
            cases (applyPut s req p.docId stored plan).1 <;> rfl
  | delete req =>
    simp only [run, deleteDocument, prepareDelete, check, Request.plan, apply, target, digest, view]
    cases parseDelete req with
    | error e => rfl
    | ok t =>
      obtain ⟨docId, viewPath⟩ := t
      simp only [Except.ok_bind, Except.map]
      cases lift (s.checkPrecondition docId req.digest) with
      | error e => rfl
      | ok u =>
        simp only [Except.ok_bind]
        cases readStored s docId with
        | error e => rfl
        | ok stored =>
          simp only [Except.ok_bind]
          cases checkRepairable stored viewPath false with
          | error e => rfl
          | ok u =>
            simp only [Except.ok_bind]
            cases lift (s.hasOwnFile docId) with
            | error e => rfl
            | ok own =>
              simp only [Except.ok_bind]
              cases planDelete docId viewPath stored own with
              | error e => rfl
              | ok plan =>
                simp only [Except.ok_bind, pure, Except.pure]
                cases (applyDelete s req docId viewPath stored plan).1 <;> rfl

/-- The plan of a delete is the document without the view, lint-clean, next to its own dump; and a packaged
    file is not deleted as a whole. -/
theorem planDelete_eq_ok {ownFile : Bool} (h : planDelete d vp stored ownFile = .ok plan) :
    View.remove stored.value.val vp = (.ok plan.touched, plan.planned) ∧ lint plan.planned = [] ∧
      plan.text = diskFormat.dump plan.planned ∧
      (d.isGuest = false → vp.isRoot = true → stored.digest.isEmpty = false → ownFile = true) := by
  have hrest : ∀ {u : Except ApiError Unit}, (u >>= fun _ => do
      let p ← planWrite false (View.remove stored.value.val vp)
      return ⟨p.2, p.1, diskFormat.dump p.2⟩) = .ok plan →
        View.remove stored.value.val vp = (.ok plan.touched, plan.planned) ∧ lint plan.planned = [] ∧
          plan.text = diskFormat.dump plan.planned := by
    intro u h
    obtain ⟨_, -, h⟩ := Except.bind_eq_ok.mp h
    obtain ⟨⟨touched, v⟩, hplan, h⟩ := Except.bind_eq_ok.mp h
    cases h
    obtain ⟨hremove, hlint⟩ := planWrite_eq_ok hplan
    exact ⟨hremove, hlint, rfl⟩
  cases d with
  | guest v =>
    obtain ⟨hremove, hlint, htext⟩ := @hrest (.ok ()) h
    exact ⟨hremove, hlint, htext, fun hg => by cases hg⟩
  | registry kind name =>
    unfold planDelete at h
    dsimp only at h
    split at h
    · cases h
    · next hown =>
      obtain ⟨hremove, hlint, htext⟩ := @hrest (.ok ()) h
      refine ⟨hremove, hlint, htext, fun _ hroot hdig => ?_⟩
      simpa [hroot, hdig] using hown

/-- A call with a plan has parameters in order and a document it read, and the plan's text is a dump. -/
theorem plan_eq_ok (h : r.plan s = .ok (stored, plan)) :
    ∃ d vp, r.target = .ok (d, vp) ∧ readStored s d = .ok stored ∧ plan.text = diskFormat.dump plan.planned := by
  cases r with
  | put req =>
    obtain ⟨p, hp, h⟩ := Except.bind_eq_ok.mp h
    obtain ⟨st, hread, h⟩ := Except.bind_eq_ok.mp h
    obtain ⟨pl, hplan, h⟩ := Except.bind_eq_ok.mp h
    cases h
    exact ⟨p.docId, p.viewPath, by simp only [target, hp, Except.map], hread, (planPut_eq_ok hplan).2.2.2⟩
  | delete req =>
    obtain ⟨⟨docId, viewPath⟩, hp, h⟩ := Except.bind_eq_ok.mp h
    obtain ⟨st, hread, h⟩ := Except.bind_eq_ok.mp h
    obtain ⟨_, -, h⟩ := Except.bind_eq_ok.mp h
    obtain ⟨own, -, h⟩ := Except.bind_eq_ok.mp h
    obtain ⟨pl, hplan, h⟩ := Except.bind_eq_ok.mp h
    cases h
    exact ⟨docId, viewPath, hp, hread, (planDelete_eq_ok hplan).2.2.1⟩

/-- A replace or a delete of the document as a whole. -/
def Whole : Request → Prop
  | .put req => parseView req.view = .ok Path.root ∧ (req.mode = "replace" ∨ req.mode = "")
  | .delete req => parseView req.view = .ok Path.root

theorem Whole.isRoot (h : r.Whole) (ht : r.target = .ok (d, vp)) : vp.isRoot = true := by
  have hview : parseView r.view = .ok Path.root := by
    cases r with
    | put req => exact h.1
    | delete req => exact h
  rw [(target_eq_ok ht).2, Except.ok.injEq] at hview
  rw [hview, Path.isRoot_root]

omit [Deps] in
theorem checkRepairable_eq_ok {isMerge : Bool} :
    checkRepairable stored vp isMerge = .ok () ↔ stored.unrecoverable = none ∨ (vp = Path.root ∧ isMerge = false) := by
  unfold checkRepairable
  cases stored.unrecoverable with
  | none => simp
  | some err =>
    dsimp only
    split
    · next h => simpa [Path.isRoot, Path.root] using h
    · next h => simpa [badRequest, Path.isRoot, Path.root] using h

/-- A document that could not be read takes a plan for the whole of it only. -/
theorem repairable (h : r.plan s = .ok (stored, plan)) : stored.unrecoverable = none ∨ r.Whole := by
  cases r with
  | put req =>
    obtain ⟨p, hp, h⟩ := Except.bind_eq_ok.mp h
    obtain ⟨st, hread, h⟩ := Except.bind_eq_ok.mp h
    obtain ⟨pl, hplan, h⟩ := Except.bind_eq_ok.mp h
    cases h
    obtain ⟨_, hrep, -⟩ := Except.bind_eq_ok.mp hplan
    obtain ⟨-, hview, -, -, hmode⟩ := parsePut_eq_ok hp
    refine (checkRepairable_eq_ok.mp hrep).imp_right fun hroot => ⟨by rw [hview, hroot.1], ?_⟩
    rcases hmode with ⟨hmerge, -⟩ | ⟨-, hmode⟩
    · rw [hroot.2] at hmerge
      cases hmerge
    · exact hmode
  | delete req =>
    obtain ⟨⟨docId, viewPath⟩, hp, h⟩ := Except.bind_eq_ok.mp h
    obtain ⟨st, hread, h⟩ := Except.bind_eq_ok.mp h
    obtain ⟨_, hrep, h⟩ := Except.bind_eq_ok.mp h
    obtain ⟨own, -, h⟩ := Except.bind_eq_ok.mp h
    obtain ⟨pl, hplan, h⟩ := Except.bind_eq_ok.mp h
    cases h
    have ht : (Request.delete req).target = .ok (docId, viewPath) := hp
    refine (checkRepairable_eq_ok.mp hrep).imp_right fun hroot => ?_
    have hview : parseView req.view = .ok viewPath := (target_eq_ok ht).2
    rwa [hroot.1] at hview

omit [Deps] in
theorem change_eq_write {text : Text} (h : r.change vp stored plan = .write text) : text = plan.text := by
  cases r with
  | put req =>
    rw [change] at h
    split at h <;> cases h
    rfl
  | delete req =>
    rw [change] at h
    split at h
    · cases h
    · split at h <;> cases h
      rfl

/-- The digest that the write of a plan answers with. -/
def answered (viewPath : Path) (stored : Stored) (plan : Plan) (r : Request) : String :=
  match r.change viewPath stored plan, r with
  | .write text, _ => MetaStore.digest (Text.encode text)
  | .remove, _ => ""
  | .keep, .put _ => MetaStore.digest (Text.encode plan.text)
  | .keep, .delete _ => stored.digest

/-- The text of a change is one the store takes. -/
def Fits : Change → Prop
  | .write text => Text.byteLen text ≤ maxBytes ∧ ∃ w, Format.yaml.parse text = .ok w
  | _ => True

theorem applyPut_cases {req : PutRequest} (htext : normalizeTrailingNewline plan.text = plan.text) :
    (∃ e, applyPut s req d stored plan = (.error e, s)) ∨
      applyPut s req d stored plan =
          (.ok ((Request.put req).answered vp stored plan), ((Request.put req).change vp stored plan).apply s d) ∧
        Fits ((Request.put req).change vp stored plan) := by
  cases hc : req.dryRun || unchanged stored plan with
  | true =>
    have hchange : (Request.put req).change vp stored plan = .keep := by simp only [change, hc, if_true]
    simp only [answered, hchange]
    unfold applyPut
    rw [if_pos hc]
    by_cases hu : unchanged stored plan = true
    · exact Or.inr ⟨by rw [if_pos hu]; rfl, trivial⟩
    · rw [if_neg hu]
      cases checkSize (Text.byteLen plan.text) with
      | error e => exact Or.inl ⟨ofError e, rfl⟩
      | ok u => exact Or.inr ⟨rfl, trivial⟩
  | false =>
    have hchange : (Request.put req).change vp stored plan = .write plan.text := by
      simp only [change, hc, Bool.false_eq_true, if_false]
    simp only [answered, hchange]
    unfold applyPut
    rw [if_neg (by simp [hc])]
    rcases s.putRaw_cases d plan.text req.digest with ⟨e, he⟩ | ⟨doc, w, hput, hdig, hsize, hparse, -⟩
    · exact Or.inl ⟨ofError e, by rw [he]; rfl⟩
    · rw [htext] at hput hdig hsize hparse
      refine Or.inr ⟨?_, hsize, w, hparse⟩
      rw [hput, ← hdig]
      rfl

omit [Deps] in
theorem delete_cases (s : MetaStore) (d : DocId) :
    (∃ e, s.delete d = (.error e, s)) ∨ ∃ b, s.delete d = (.ok b, s.removed d) := by
  unfold MetaStore.delete
  cases s.checkAvailable with
  | error e => exact Or.inl ⟨e, rfl⟩
  | ok u =>
    cases hw : s.writeFault with
    | some msg => exact Or.inl ⟨.io msg, by simp only [removeFile, hw]⟩
    | none =>
      refine Or.inr ⟨(Assoc.get? (s.pathFor d) s.files).isSome, ?_⟩
      simp only [removeFile, hw, removed]

theorem applyDelete_cases {req : DeleteRequest} (htext : normalizeTrailingNewline plan.text = plan.text) :
    (∃ e, applyDelete s req d vp stored plan = (.error e, s)) ∨
      applyDelete s req d vp stored plan =
          (.ok ((Request.delete req).answered vp stored plan), ((Request.delete req).change vp stored plan).apply s d) ∧
        Fits ((Request.delete req).change vp stored plan) := by
  by_cases hroot : vp.isRoot = true
  · have hchange : (Request.delete req).change vp stored plan = .remove := by simp only [change, hroot, if_true]
    simp only [answered, hchange]
    unfold applyDelete
    rw [if_pos hroot]
    rcases delete_cases s d with ⟨e, he⟩ | ⟨b, hb⟩
    · exact Or.inl ⟨ofError e, by rw [he]; rfl⟩
    · exact Or.inr ⟨by rw [hb]; rfl, trivial⟩
  by_cases hkeep : (plan.touched.isEmpty || stored.digest.isEmpty) = true
  · have hchange : (Request.delete req).change vp stored plan = .keep := by
      simp only [change, hroot, hkeep, if_true, Bool.false_eq_true, if_false]
    simp only [answered, hchange]
    unfold applyDelete
    rw [if_neg hroot]
    split
    · exact Or.inr ⟨rfl, trivial⟩
    · next htouched =>
      have hdig : stored.digest.isEmpty = true := by simpa [htouched] using hkeep
      rw [if_neg (by simp [hdig]), String.isEmpty_iff.mp hdig]
      exact Or.inr ⟨rfl, trivial⟩
  · have hchange : (Request.delete req).change vp stored plan = .write plan.text := by
      simp only [change, hroot, hkeep, Bool.false_eq_true, if_false]
    simp only [answered, hchange]
    rw [Bool.or_eq_true, not_or] at hkeep
    unfold applyDelete
    rw [if_neg hroot, if_neg hkeep.1, if_pos (by simp [hkeep.2])]
    cases checkRegistryShape d plan.text with
    | error e => exact Or.inl ⟨e, rfl⟩
    | ok u =>
      rcases s.putRaw_cases d plan.text req.digest with ⟨e, he⟩ | ⟨doc, w, hput, hdig, hsize, hparse, -⟩
      · exact Or.inl ⟨ofError e, by simp only [he]; rfl⟩
      · rw [htext] at hput hdig hsize hparse
        refine Or.inr ⟨?_, hsize, w, hparse⟩
        rw [← hdig]
        simp only [hput]
        rfl

/-- The write of a plan is refused, or it makes the change and answers as the plan says. -/
theorem apply_cases (ht : r.target = .ok (d, vp)) (htext : plan.text = diskFormat.dump plan.planned) :
    (∃ e, r.apply s stored plan = (.error e, s)) ∨
      r.apply s stored plan = (.ok (r.answered vp stored plan), (r.change vp stored plan).apply s d) ∧
        Fits (r.change vp stored plan) := by
  have hnorm : normalizeTrailingNewline plan.text = plan.text := by rw [htext, normalize_dump]
  unfold apply
  rw [ht]
  cases r with
  | put req => exact applyPut_cases hnorm
  | delete req => exact applyDelete_cases hnorm

/-- A call that is answered: it read the document, its precondition held, and its change is the plan's. -/
structure Answered (s : MetaStore) (r : Request) (d : DocId) (vp : Path) (stored : Stored) (plan : Plan) : Prop where
  target_eq : r.target = .ok (d, vp)
  check_eq : r.check s = .ok ()
  plan_eq : r.plan s = .ok (stored, plan)
  readable : s.Readable
  stored_eq : stored = storedOf (s.content d)
  text_eq : plan.text = diskFormat.dump plan.planned
  fits : Fits (r.change vp stored plan)

/-- A call is refused and leaves the store, or it is answered and makes one change. -/
theorem run_cases (s : MetaStore) (r : Request) :
    (∃ e, r.run s = (.error e, s)) ∨
      ∃ d vp stored plan, Answered s r d vp stored plan ∧
        r.run s = (.ok ⟨d.display, viewOut r.view, r.answered vp stored plan, touchedOut plan.touched⟩,
          (r.change vp stored plan).apply s d) := by
  rw [run_eq]
  cases hcheck : r.check s with
  | error e => exact Or.inl ⟨e, rfl⟩
  | ok u =>
    cases hplan : r.plan s with
    | error e => exact Or.inl ⟨e, rfl⟩
    | ok sp =>
      obtain ⟨stored, plan⟩ := sp
      obtain ⟨d, vp, ht, hread, htext⟩ := plan_eq_ok hplan
      obtain ⟨hreadable, hstored⟩ := readStored_eq_ok hread
      rcases @apply_cases _ s d vp r stored plan ht htext with ⟨e, he⟩ | ⟨hok, hfits⟩
      · exact Or.inl ⟨e, by simp only [he]; rfl⟩
      · refine Or.inr ⟨d, vp, stored, plan, ⟨ht, hcheck, hplan, hreadable, hstored, htext, hfits⟩, ?_⟩
        simp only [hok, ht]
        rfl

end Request

end

end PveMeta
