import PveMeta.Theorems.Frame

/-! # The digest a write answers with

A write answers with the digest of what it left: the text it wrote, the file it left alone, or nothing. The
next read reports that digest, and a next write that carries it runs as if it carried none. -/

namespace PveMeta
open Api MetaStore

section

variable [Deps] {s : MetaStore} {d : DocId} {vp : Path} {r : Request} {stored : Stored} {plan : Plan} {dg : String}

/-! ### A precondition that holds -/

theorem MetaStore.putRaw_carrying {text : Text} (h : s.checkPrecondition d (some dg) = .ok ()) :
    s.putRaw d text (some dg) = s.putRaw d text none := by
  obtain ⟨hread, hid⟩ := checkPrecondition_eq_ok.mp h
  have hdig : checkDigest ((s.content d).map identityOf) (some dg) = .ok () := checkDigest_eq_ok.mpr hid
  simp only [putRaw, checkRaw, digestOf_of_readable hread, Except.ok_bind, hdig]
  rfl

namespace Request

omit [Deps] in
@[simp] theorem id_carrying (id : String) (o : Option String) : (r.carrying id o).id = id := by cases r <;> rfl

omit [Deps] in
@[simp] theorem view_carrying (id : String) (o : Option String) : (r.carrying id o).view = r.view := by cases r <;> rfl

omit [Deps] in
@[simp] theorem digest_carrying (id : String) (o : Option String) : (r.carrying id o).digest = o := by cases r <;> rfl

theorem target_carrying (o o' : Option String) : (r.carrying r.id o).target = (r.carrying r.id o').target := by
  cases r <;> rfl

theorem plan_carrying (o o' : Option String) : (r.carrying r.id o).plan s = (r.carrying r.id o').plan s := by
  cases r <;> rfl

theorem run_carrying (hid : parseId r.id = .ok d) (h : s.checkPrecondition d (some dg) = .ok ()) :
    (r.carrying r.id (some dg)).run s = (r.carrying r.id none).run s := by
  have hcheck : (r.carrying r.id (some dg)).check s = (r.carrying r.id none).check s := by
    unfold check
    rw [target_carrying (some dg) none, digest_carrying, digest_carrying]
    cases ht : (r.carrying r.id none).target with
    | error e => rfl
    | ok t =>
      obtain ⟨e, vp⟩ := t
      obtain ⟨he, -⟩ := target_eq_ok ht
      rw [id_carrying, hid, Except.ok.injEq] at he
      subst he
      simp only [Except.ok_bind, h]
      rfl
  have happly : ∀ stored plan, (r.carrying r.id (some dg)).apply s stored plan =
      (r.carrying r.id none).apply s stored plan := by
    intro stored plan
    unfold apply
    rw [target_carrying (some dg) none]
    cases ht : (r.carrying r.id none).target with
    | error e => rfl
    | ok t =>
      obtain ⟨e, vp⟩ := t
      obtain ⟨he, -⟩ := target_eq_ok ht
      rw [id_carrying, hid, Except.ok.injEq] at he
      subst he
      cases r with
      | put req => simp only [carrying, applyPut, putRaw_carrying h]
      | delete req => simp only [carrying, applyDelete, putRaw_carrying h]
  rw [run_eq, run_eq, hcheck, plan_carrying (some dg) none, target_carrying (some dg) none]
  simp only [happly, view_carrying]

end Request

/-! ### What a write leaves -/

omit [Deps] in
theorem Change.readable (c : Change) (h : s.Readable) : (c.apply s d).Readable := by
  cases c <;> exact ⟨h.available, h.reads⟩

theorem identityOf_text {t : Text} {now : Fin (2 ^ 63 * 10 ^ 9)} (h : Text.byteLen t ≤ maxBytes) :
    identityOf ⟨Text.encode t, now⟩ = digest (Text.encode t) := by
  refine identityOf_of_le ?_
  rw [Text.size_encode]
  exact h.trans (by decide)

theorem parse_eq_ok {t : Text} {w : Tree} (h : Format.yaml.parse t = .ok w) :
    Format.yaml.parseRaw t = .ok w ∧ w.val.isObject = true := by
  obtain ⟨v, hraw, hlint⟩ := Except.bind_eq_ok.mp h
  split at hlint
  · next hnil =>
    cases hlint
    refine ⟨hraw, ?_⟩
    by_contra hno
    rw [lint, if_neg hno] at hnil
    cases hnil
  · cases hlint

/-- What the store takes is read back as it was parsed. -/
theorem storedOf_fits {t : Text} {now : Fin (2 ^ 63 * 10 ^ 9)} (h : Request.Fits (.write t)) :
    (storedOf (some ⟨Text.encode t, now⟩)).unrecoverable = none := by
  obtain ⟨hsize, w, hparse⟩ := h
  obtain ⟨hraw, hobj⟩ := parse_eq_ok hparse
  have hle : (Text.encode t).size ≤ maxReadBytes := by
    rw [Text.size_encode]
    exact hsize.trans (by decide)
  have hst := @storedOf_of_parse _ ⟨Text.encode t, now⟩ t w hle (Text.decode?_encode t) hraw hobj
  rw [hst]

omit [Deps] in
theorem unchanged_iff : unchanged stored plan = true ↔
    plan.touched = [] ∧ stored.unrecoverable = none ∧ stored.raw = some plan.text := by
  simp [unchanged, and_assoc]

/-- The document after a write can be read, and its identity is the digest the write answered with. -/
theorem Request.identity_after (hans : Request.Answered s r d vp stored plan) (hdry : r.dryRun = false)
    (hkind : ∀ req, r = .delete req → vp.isRoot = true → d.isGuest = true) :
    ((r.change vp stored plan).apply s d).identity d = r.answered vp stored plan ∧
      (storedOf (((r.change vp stored plan).apply s d).content d)).unrecoverable = none := by
  have hfits := hans.fits
  have hstored := hans.stored_eq
  unfold Request.answered
  cases hc : r.change vp stored plan with
  | write t =>
    rw [hc] at hfits
    rw [Change.apply_write, identity, content_written]
    exact ⟨identityOf_text hfits.1, storedOf_fits hfits⟩
  | remove =>
    have hguest : d.isGuest = true := by
      cases r with
      | put req =>
        rw [change] at hc
        split at hc <;> cases hc
      | delete req =>
        refine hkind req rfl ?_
        by_contra hroot
        rw [change, if_neg hroot] at hc
        split at hc <;> cases hc
    rw [Change.apply_remove, identity, content_removed]
    cases d with
    | guest v => exact ⟨rfl, rfl⟩
    | registry kind name => cases hguest
  | keep =>
    rw [Change.apply_keep, ← hstored]
    cases r with
    | put req =>
      have hu : unchanged stored plan = true := by
        have hdry' : req.dryRun = false := hdry
        rw [change, hdry', Bool.false_or] at hc
        by_contra hno
        rw [if_neg hno] at hc
        cases hc
      obtain ⟨-, hrec, hraw⟩ := unchanged_iff.mp hu
      rw [hstored] at hraw
      obtain ⟨f, hf, hsize, hbytes⟩ := storedOf_raw hraw
      refine ⟨?_, hrec⟩
      rw [identity, hf, Option.map_some, Option.getD_some, identityOf_of_le hsize, hbytes]
    | delete req =>
      have hroot : ¬ vp.isRoot = true := by
        intro hroot
        rw [change, if_pos hroot] at hc
        cases hc
      refine ⟨?_, (Request.repairable hans.plan_eq).resolve_right fun hw => hroot (hw.isRoot hans.target_eq)⟩
      rw [hstored, digest_storedOf_content]

/-! ### The next calls -/

/-- What is left has the digest `dg`: it is what the next read reports, and a precondition that holds. -/
structure Chains (s : MetaStore) (d : DocId) (dg : String) : Prop where
  digestOf : ∃ o, s.digestOf d = .ok o ∧ o.getD "" = dg
  reports : ∀ id view formatName comments acl doc, parseId id = .ok d →
    getDocument s id view formatName comments acl = .ok doc → doc.digest = dg
  answers : ∀ id formatName comments acl, parseId id = .ok d → acl.read = true → (Format.fromExt formatName).isSome →
    ∃ doc, getDocument s id none formatName comments acl = .ok doc
  accepted : ∀ next : Request, parseId next.id = .ok d →
    (next.carrying next.id (some dg)).run s = (next.carrying next.id none).run s

/-- What a read answers from what is stored. -/
def rendered (d : DocId) (fmt : Format) (view : Option String) (vp : Path) (comments : Bool) (stored : Stored) :
    Except ApiError ApiViewDocument :=
  match stored.unrecoverable with
  | some err =>
    match fmt, comments, stored.raw with
    | .yaml, true, some raw => .ok ⟨d.display, viewOut view, stored.digest, none, some raw, some err⟩
    | _, _, _ =>
      .error ⟨422, "the stored document cannot be rendered: " ++ err ++
        " (read it raw with format=yaml&comments=1 (CLI: --comments); " ++
        "replace it with a full document (no 'view', mode=replace) or delete it)"⟩
  | none =>
    let base := if comments then stored.value.val else View.stripComments stored.value.val
    (if view.isSome then (lift (View.extract base vp)).map fun v => v.getD (.object []) else .ok base).bind fun value =>
      match fmt with
      | .json => .ok ⟨d.display, viewOut view, stored.digest, some value, none, none⟩
      | .yaml =>
        let text := match view, stored.raw.filter fun raw => ! raw.isEmpty && comments with
          | none, some raw => raw
          | _, _ => View.render value .yaml
        .ok ⟨d.display, viewOut view, stored.digest, none, some text, none⟩

theorem getDocument_eq_ok {id view formatName comments acl doc}
    (h : getDocument s id view formatName comments acl = .ok doc) :
    ∃ d fmt vp, parseId id = .ok d ∧ parseViewFormat formatName = .ok fmt ∧ parseView view = .ok vp ∧ s.Readable ∧
      rendered d fmt view vp comments (storedOf (s.content d)) = .ok doc := by
  obtain ⟨d, hd, h⟩ := Except.bind_eq_ok.mp h
  obtain ⟨fmt, hfmt, h⟩ := Except.bind_eq_ok.mp h
  obtain ⟨vp, hvp, h⟩ := Except.bind_eq_ok.mp h
  dsimp only at h
  split at h
  · cases h
  · rw [Except.ok_bind] at h
    obtain ⟨st, hread, h⟩ := Except.bind_eq_ok.mp h
    obtain ⟨hreadable, rfl⟩ := readStored_eq_ok hread
    refine ⟨d, fmt, vp, hd, hfmt, hvp, hreadable, ?_⟩
    rw [rendered]
    cases hu : (storedOf (s.content d)).unrecoverable with
    | some err =>
      rw [hu] at h
      exact h
    | none =>
      rw [hu] at h
      cases view <;> exact h

theorem digest_rendered {fmt view comments} {doc : ApiViewDocument}
    (h : rendered d fmt view vp comments stored = .ok doc) : doc.digest = stored.digest := by
  unfold rendered at h
  split at h
  · split at h
    · cases h
      rfl
    · cases h
  · obtain ⟨value, -, h⟩ := Except.bind_eq_ok.mp h
    split at h <;>
    · cases h
      rfl

theorem digest_getDocument {id view formatName comments acl doc} (hid : parseId id = .ok d)
    (h : getDocument s id view formatName comments acl = .ok doc) : s.Readable ∧ doc.digest = s.identity d := by
  obtain ⟨d', fmt, vp, hd, -, -, hread, h⟩ := getDocument_eq_ok h
  rw [hid, Except.ok.injEq] at hd
  subst hd
  exact ⟨hread, by rw [digest_rendered h, digest_storedOf_content]⟩

theorem getDocument_answers {id formatName comments acl} (hread : s.Readable) (hid : parseId id = .ok d)
    (hrec : (storedOf (s.content d)).unrecoverable = none) (hacl : acl.read = true)
    (hfmt : (Format.fromExt formatName).isSome) : ∃ doc, getDocument s id none formatName comments acl = .ok doc := by
  obtain ⟨fmt, hfmt⟩ := Option.isSome_iff_exists.mp hfmt
  simp only [getDocument, hid, parseViewFormat, hfmt, parseView, readStored_of_readable hread, hrec, hacl, Except.ok_bind,
    Bool.not_true, Bool.false_eq_true, if_false, Option.isSome_none]
  cases fmt <;> exact ⟨_, rfl⟩

theorem Chains.of_identity (hread : s.Readable) (hid : s.identity d = dg)
    (hrec : (storedOf (s.content d)).unrecoverable = none) : Chains s d dg where
  digestOf := ⟨_, digestOf_of_readable hread, hid⟩
  reports _ _ _ _ _ _ hparse h := (digest_getDocument hparse h).2.trans hid
  answers _ _ _ _ hparse hacl hfmt := getDocument_answers hread hparse hrec hacl hfmt
  accepted _ hparse := Request.run_carrying hparse (checkPrecondition_eq_ok.mpr ⟨hread, hid⟩)

/-- The digest that a successful write answers with, a root delete of a prefix file aside, is the one that the
    document has from then on. -/
theorem digests_chain {s' : MetaStore} {answer : ApiPutResult} (hrun : r.run s = (.ok answer, s'))
    (hdry : r.dryRun = false) (ht : r.target = .ok (d, vp))
    (hkind : ∀ req, r = .delete req → vp.isRoot = true → d.isGuest = true) : Chains s' d answer.digest := by
  rcases r.run_cases s with ⟨e, he⟩ | ⟨d', vp', stored, plan, hans, hrun'⟩
  · rw [he] at hrun
    cases hrun
  · rw [hrun'] at hrun
    cases hrun
    obtain ⟨rfl, rfl⟩ : d' = d ∧ vp' = vp := by simpa [hans.target_eq] using ht
    obtain ⟨hid, hrec⟩ := Request.identity_after hans hdry hkind
    exact Chains.of_identity (Change.readable _ hans.readable) hid hrec

end

open Sample in
/-- Guest 100's document is deleted. -/
theorem digests_chain_delete :
    Chains ((Request.delete ⟨"100", none, none, ⟨"root@pam", true, true, [], none⟩⟩).run
      (storeOf [(100, "a: 1\n".toList)])).2 (.guest 100) "" := by
  have hanswer : ((Request.delete ⟨"100", none, none, ⟨"root@pam", true, true, [], none⟩⟩).run
      (storeOf [(100, "a: 1\n".toList)])).1 = .ok ⟨"100", "", "", [⟨"a", "delete"⟩]⟩ :=
    Except.toOption_eq_some.mp (by decide +kernel)
  exact @digests_chain _ _ (.guest 100) Path.root _ _ _ (Prod.mk.eta.symm.trans (by rw [hanswer])) rfl rfl
    fun _ _ _ => rfl

end PveMeta
