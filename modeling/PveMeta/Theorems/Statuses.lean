import PveMeta.Theorems.Digests

/-! # Which calls are answered 409

A 409 says that the digest a call carries is not that of what is stored; nothing else is answered with it. -/

namespace PveMeta
open Api MetaStore View Except

/-- The error is no digest mismatch. -/
def Error.NoMismatch (e : Error) : Prop := ∀ expected actual, e ≠ .digestMismatch expected actual

/-- The error is not answered 409. -/
def ApiError.NoConflict (e : ApiError) : Prop := e.status ≠ 409

variable {d x : Value} {pre : Path}

theorem Api.failsWith_lift {α : Type} {r : Except Error α} (h : FailsWith Error.NoMismatch r) :
    FailsWith ApiError.NoConflict (lift r) := by
  refine h.mapError fun e he => ?_
  cases e with
  | digestMismatch expected actual => exact absurd rfl (he expected actual)
  | _ => exact fun h => nomatch h

theorem noMismatch_blocked (p : Path) : (blocked p).NoMismatch := fun _ _ h => nomatch h

/-! ### Parameters -/

theorem failsWith_parsePath (s : String) : FailsWith Error.NoMismatch (Path.parse s) := by
  unfold Path.parse
  dsimp only
  refine .ite (fun _ => .ok _) fun _ => .ite (fun _ => .ok _) fun _ => .error ?_
  exact fun _ _ h => nomatch h

theorem failsWith_parseId (id : String) : FailsWith ApiError.NoConflict (parseId id) := by
  unfold parseId
  split
  · dsimp only
    split
    · exact .error fun h => nomatch h
    · split
      · exact .error fun h => nomatch h
      · exact .ok _
  · split
    · exact .ok _
    · exact .error fun h => nomatch h

theorem failsWith_parseView (view : Option String) : FailsWith ApiError.NoConflict (parseView view) := by
  cases view with
  | none => exact .ok _
  | some s => exact failsWith_lift (failsWith_parsePath s)

theorem failsWith_parseViewFormat (name : String) : FailsWith ApiError.NoConflict (parseViewFormat name) := by
  unfold parseViewFormat
  split
  · exact .ok _
  · exact .error fun h => nomatch h

theorem failsWith_authorizeWrite (acl : CallerAcl) : FailsWith ApiError.NoConflict (authorizeWrite acl) := by
  unfold authorizeWrite
  split
  · exact .ok _
  · exact .error fun h => nomatch h

/-! ### The mutations -/

theorem failsWith_descend (p : Path) : FailsWith Error.NoMismatch (descend d p) := by
  have hfrom : ∀ (full q : Path) (d : Value), FailsWith Error.NoMismatch (descendFrom full d q) := by
    intro full q
    induction q with
    | nil => exact fun _ => .ok _
    | cons seg rest ih =>
      intro d
      cases d with
      | object m =>
        rw [descendFrom_object_cons]
        split
        · exact ih _
        · exact .ok _
      | _ => exact .error (noMismatch_blocked full)
  exact hfrom p p d

theorem failsWith_replace : FailsWith Error.NoMismatch (replace d pre x).1 := by
  rcases pre.eq_root_or_join with rfl | ⟨q, k, rfl⟩
  · exact .ok _
  · rw [replace_join]
    split
    · exact .ok _
    · exact .error (noMismatch_blocked q)

theorem failsWith_merge : FailsWith Error.NoMismatch (merge d pre x).1 := by
  rcases pre.eq_root_or_join with rfl | ⟨q, k, rfl⟩
  · exact .ok _
  · have hdescend := @failsWith_descend d (q.join k)
    rw [merge_join]
    split
    · next e he => exact .error (hdescend e he)
    · split <;> exact .ok _

theorem failsWith_remove : FailsWith Error.NoMismatch (remove d pre).1 := by
  rcases pre.eq_root_or_join with rfl | ⟨q, k, rfl⟩
  · exact .ok _
  · have hdescend := @failsWith_descend d q
    rw [remove_join]
    split
    · next e he => exact .error (hdescend e he)
    · exact .ok _
    · exact .ok _
    · exact .error (noMismatch_blocked _)

theorem failsWith_planWrite {keptNotes : Bool} {result : Except Error (List Touched) × Value}
    (h : FailsWith Error.NoMismatch result.1) : FailsWith ApiError.NoConflict (planWrite keptNotes result) := by
  refine (failsWith_lift h).bind fun touched _ => ?_
  dsimp only
  split
  · exact .ok _
  · exact .error fun h => nomatch h

theorem failsWith_checkRepairable {stored : Stored} {isMerge : Bool} :
    FailsWith ApiError.NoConflict (checkRepairable stored pre isMerge) := by
  unfold checkRepairable
  split
  · exact .ok _
  · split
    · exact .ok _
    · exact .error fun h => nomatch h

section

variable [Deps] {s : MetaStore} {id : DocId} {p : ParsedPut} {stored : Stored} {plan : Plan} {r : Request}

/-! ### Parsing -/

theorem failsWith_parseRaw (format : Format) (text : Text) : FailsWith Error.NoMismatch (format.parseRaw text) := by
  have hreject : ∀ a b at_, FailsWith Error.NoMismatch (Format.rejectAnchorOrTag a b at_) := by
    intro a b at_
    unfold Format.rejectAnchorOrTag
    split
    · exact .error (by rintro _ _ ⟨⟩)
    · split
      · exact .error (by rintro _ _ ⟨⟩)
      · exact .ok _
  have hkey : ∀ stack at_, FailsWith Error.NoMismatch (Format.rejectIfKeyPosition stack at_) := by
    intro stack at_
    unfold Format.rejectIfKeyPosition
    split
    · exact .error (by rintro _ _ ⟨⟩)
    · exact .ok _
  have hevent : ∀ stack event at_, FailsWith Error.NoMismatch (Format.scanEvent stack event at_) := by
    intro stack event at_
    unfold Format.scanEvent
    split
    · exact .error (by rintro _ _ ⟨⟩)
    · exact (hreject _ _ _).bind fun _ _ => .ok _
    · exact (hreject _ _ _).bind fun _ _ => (hkey _ _).bind fun _ _ => .ok _
    · exact (hreject _ _ _).bind fun _ _ => (hkey _ _).bind fun _ _ => .ok _
    · exact .ok _
    · exact .ok _
    · exact .ok _
  have hscan : ∀ events stack, FailsWith Error.NoMismatch (Format.scanEvents stack events) := by
    intro events
    induction events with
    | nil => exact fun _ => .ok _
    | cons e events ih =>
      intro stack
      cases e with
      | error e => exact .error (by rintro _ _ ⟨⟩)
      | ok e => exact (hevent stack e.1 _).bind fun stack _ => ih stack
  cases format with
  | json =>
    unfold Format.parseRaw
    dsimp only
    split
    · exact .ok _
    · exact .error (by rintro _ _ ⟨⟩)
  | yaml =>
    refine (hscan _ _).bind fun _ _ => ?_
    split
    · exact .ok _
    · exact .error (by rintro _ _ ⟨⟩)

theorem failsWith_parse (format : Format) (text : Text) : FailsWith Error.NoMismatch (format.parse text) := by
  refine (failsWith_parseRaw format text).bind fun _ _ => ?_
  split
  · exact .ok _
  · exact .error fun _ _ h => nomatch h

theorem failsWith_parsePut (req : PutRequest) : FailsWith ApiError.NoConflict (parsePut req) := by
  have hpayload : ∀ (format : Format) (isMerge : Bool),
      FailsWith Error.NoMismatch (if isMerge then parsePatch req.payload format else parse req.payload format) := by
    intro format isMerge
    refine .ite (fun _ => (failsWith_parseRaw _ _).bind fun _ _ => ?_) fun _ => failsWith_parseRaw _ _
    exact .ite (fun _ => .ok _) fun _ => .error fun _ _ h => nomatch h
  refine (failsWith_parseId _).bind fun _ _ => (failsWith_parseViewFormat _).bind fun _ _ =>
    (failsWith_parseView _).bind fun _ _ => (failsWith_authorizeWrite _).bind fun _ _ => ?_
  dsimp only
  split
  · exact (failsWith_lift (hpayload _ _)).bind fun _ _ => .ok _
  · split
    · exact (failsWith_lift (hpayload _ _)).bind fun _ _ => .ok _
    · exact .error fun h => nomatch h

omit [Deps] in
theorem failsWith_parseDelete (req : DeleteRequest) : FailsWith ApiError.NoConflict (parseDelete req) :=
  (failsWith_parseId _).bind fun _ _ => (failsWith_parseView _).bind fun _ _ =>
    (failsWith_authorizeWrite _).bind fun _ _ => .ok _

theorem failsWith_target : FailsWith ApiError.NoConflict r.target := by
  cases r with
  | put req => exact (failsWith_parsePut req).map
  | delete req => exact failsWith_parseDelete req

/-! ### The store -/

omit [Deps] in
theorem failsWith_checkAvailable : FailsWith Error.NoMismatch s.checkAvailable := by
  unfold checkAvailable
  split
  · exact .ok _
  · exact .error fun _ _ h => nomatch h

omit [Deps] in
theorem failsWith_stat {path : FsPath} : FailsWith Error.NoMismatch (s.stat path) := by
  unfold stat
  split
  · exact .ok _
  · exact .error fun _ _ h => nomatch h

theorem failsWith_digestOf {d : DocId} : FailsWith Error.NoMismatch (s.digestOf d) :=
  failsWith_checkAvailable.bind fun _ _ => failsWith_stat.bind fun _ _ => .ok _

theorem failsWith_readStored {d : DocId} : FailsWith ApiError.NoConflict (readStored s d) := by
  have hread : FailsWith Error.NoMismatch (s.read d) := by
    refine failsWith_checkAvailable.bind fun _ _ => failsWith_stat.bind fun file _ => ?_
    cases file with
    | none => exact .error fun _ _ h => nomatch h
    | some f =>
      refine Except.FailsWith.bind ?_ fun _ _ => ?_
      · exact .ite (fun _ => .error fun _ _ h => nomatch h) fun _ => .ok _
      · split
        · exact .error fun _ _ h => nomatch h
        · split <;> exact .ok _
  unfold readStored
  split
  · exact .ok _
  · exact (failsWith_lift failsWith_digestOf).bind fun _ _ => .ok _
  · exact (failsWith_lift failsWith_digestOf).bind fun _ _ => .ok _
  · next e _ _ he =>
    have := @failsWith_lift Document _ hread
    rw [he] at this
    exact .error (this _ rfl)
  · split
    · exact .ok _
    · split <;> exact .ok _

/-! ### Plans -/

theorem failsWith_checkRegistryShape {d : DocId} {text : Text} :
    FailsWith ApiError.NoConflict (checkRegistryShape d text) := by
  unfold checkRegistryShape
  split
  · exact .ok _
  · split
    · exact .ok _
    · exact .error fun h => nomatch h

theorem failsWith_planPut {req : PutRequest} : FailsWith ApiError.NoConflict (planPut req p stored) := by
  have hmutate : FailsWith Error.NoMismatch (mutatePut p stored.value.val).1 := by
    unfold mutatePut
    split
    · exact failsWith_merge
    · have hdescend := @failsWith_descend stored.value.val p.viewPath
      split
      · next e he => exact .error (hdescend e he)
      · exact failsWith_replace
      · exact failsWith_replace
  refine failsWith_checkRepairable.bind fun _ _ => (failsWith_planWrite hmutate).bind fun _ _ =>
    failsWith_checkRegistryShape.bind fun _ _ => ?_
  refine Except.FailsWith.bind ?_ fun _ _ => .ok _
  refine .ite (fun _ => .ok _) fun _ => ?_
  unfold checkEnforced
  split
  · exact .ok _
  · exact .ite (fun _ => .ok _) fun _ => .error fun h => nomatch h

theorem failsWith_planDelete {d : DocId} {ownFile : Bool} :
    FailsWith ApiError.NoConflict (planDelete d pre stored ownFile) := by
  have hplan : FailsWith ApiError.NoConflict (planWrite false (View.remove stored.value.val pre)) :=
    failsWith_planWrite failsWith_remove
  unfold planDelete
  cases d with
  | guest v => exact hplan.bind fun _ _ => .ok _
  | registry kind name =>
    dsimp only
    split
    · exact .error fun h => nomatch h
    · exact hplan.bind fun _ _ => .ok _

theorem failsWith_plan : FailsWith ApiError.NoConflict (r.plan s) := by
  cases r with
  | put req =>
    exact (failsWith_parsePut req).bind fun _ _ => failsWith_readStored.bind fun _ _ =>
      failsWith_planPut.bind fun _ _ => .ok _
  | delete req =>
    refine (failsWith_parseDelete req).bind fun _ _ => failsWith_readStored.bind fun _ _ =>
      failsWith_checkRepairable.bind fun _ _ => Except.FailsWith.bind (failsWith_lift ?_) fun _ _ =>
        failsWith_planDelete.bind fun _ _ => .ok _
    exact failsWith_checkAvailable.bind fun _ _ => failsWith_stat.bind fun _ _ => .ok _

/-! ### Writes -/

theorem failsWith_putRaw {d : DocId} {text : Text} {expected : Option String}
    (h : ∀ o, s.digestOf d = .ok o → checkDigest o expected = .ok ()) :
    FailsWith Error.NoMismatch (s.putRaw d text expected).1 := by
  have hcheck : FailsWith Error.NoMismatch (s.checkRaw d text expected) := by
    refine failsWith_checkAvailable.bind fun _ _ => failsWith_digestOf.bind fun o ho => ?_
    rw [h o ho, Except.ok_bind]
    refine Except.FailsWith.bind ?_ fun _ _ => (failsWith_parse _ _).bind fun _ _ => .ok _
    exact .ite (fun _ => .error fun _ _ h => nomatch h) fun _ => .ok _
  unfold putRaw
  split
  · next e he => exact .error (hcheck e he)
  · dsimp only
    split
    · next e s' he =>
      unfold writeAtomic at he
      split at he <;> cases he
      exact .error fun _ _ h => nomatch h
    · exact failsWith_stat.map

theorem failsWith_apply {d : DocId} {vp : Path} (ht : r.target = .ok (d, vp))
    (h : ∀ o, s.digestOf d = .ok o → checkDigest o r.digest = .ok ()) :
    FailsWith ApiError.NoConflict (r.apply s stored plan).1 := by
  unfold Request.apply
  rw [ht]
  dsimp only
  cases r with
  | put req =>
    dsimp only
    unfold applyPut
    split
    · dsimp only
      split
      · exact .ok _
      · refine (failsWith_lift ?_).bind fun _ _ => .ok _
        exact .ite (fun _ => .error fun _ _ h => nomatch h) fun _ => .ok _
    · exact failsWith_lift (failsWith_putRaw h).map
  | delete req =>
    dsimp only
    unfold applyDelete
    split
    · refine failsWith_lift (Except.FailsWith.map ?_)
      unfold MetaStore.delete
      split
      · next e he => exact .error (failsWith_checkAvailable e he)
      · unfold removeFile
        split
        · exact .ok _
        · exact .error fun _ _ h => nomatch h
    · split
      · exact .ok _
      · split
        · split
          · next e he => exact .error (failsWith_checkRegistryShape e he)
          · exact failsWith_lift (failsWith_putRaw h).map
        · exact .ok _

/-- A call that is answered 409 carries a digest that is not that of what is stored. -/
theorem Request.digest_of_conflict {e : ApiError} (h : (r.run s).1 = .error e) (hs : e.status = 409) :
    ∃ d dg, parseId r.id = .ok d ∧ r.digest = some dg ∧ s.identity d ≠ dg := by
  rw [run_eq] at h
  cases ht : r.target with
  | error e' =>
    simp only [check, ht, Except.error_bind, Except.error.injEq] at h
    exact absurd hs (h ▸ failsWith_target e' ht)
  | ok t =>
    obtain ⟨d, vp⟩ := t
    cases hc : s.checkPrecondition d r.digest with
    | error e' =>
      simp only [check, ht, hc, lift, Except.ok_bind, Except.mapError, Except.error.injEq] at h
      cases hdg : r.digest with
      | none =>
        rw [hdg] at hc
        cases hc
      | some dg =>
        refine ⟨d, dg, (target_eq_ok ht).1, rfl, fun hid => ?_⟩
        rw [hdg, checkPrecondition, if_neg (by simp)] at hc
        cases ho : s.digestOf d with
        | error e'' =>
          rw [ho, Except.error_bind] at hc
          cases hc
          have hno : FailsWith ApiError.NoConflict (lift (.error e' : Except Error Unit)) :=
            failsWith_lift (.error (failsWith_digestOf e' ho))
          exact absurd hs (h ▸ hno _ rfl)
        | ok o =>
          have hread := readable_of_digestOf ho
          rw [digestOf_of_readable hread] at ho
          cases ho
          rw [digestOf_of_readable hread, Except.ok_bind, checkDigest_eq_ok.mpr hid] at hc
          cases hc
    | ok u =>
      have hdigest : ∀ o, s.digestOf d = .ok o → checkDigest o r.digest = .ok () := by
        intro o ho
        unfold checkPrecondition at hc
        split at hc
        · next hnone =>
          rw [Option.isNone_iff_eq_none.mp hnone]
          rfl
        · rwa [ho, Except.ok_bind] at hc
      simp only [check, ht, hc, lift, Except.ok_bind, Except.mapError] at h
      cases hp : r.plan s with
      | error e' =>
        rw [hp] at h
        cases h
        exact absurd hs (failsWith_plan e hp)
      | ok sp =>
        obtain ⟨stored, plan⟩ := sp
        rw [hp] at h
        exact absurd hs ((failsWith_apply ht hdigest).bind (fun _ _ => .ok _) e h)

end

end PveMeta
