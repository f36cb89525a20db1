import PveMeta.Theorems.Dialect
import PveMeta.Theorems.Frame
import PveMeta.Theorems.Subtree
import PveMeta.Theorems.Walk

/-! # What a delete leaves of the findings

A delete takes members out of maps and changes nothing else. A schema that the loader takes says nothing about
which members a map has, so what it finds in what is left it found there before: a map fits its schema or not
whatever it holds, and every value that is left is looked at under the schema it had. -/

namespace PveMeta
open Api MetaStore View Value

/-! ### What is left of a value -/

/-- `w` is `v` with members taken out of maps. -/
def Leaves (v w : Value) : Prop :=
  ∀ p x, valueAt w p = some x → ∃ y, valueAt v p = some y ∧ (y = x ∨ (y.isObject = true ∧ x.isObject = true))

variable {v w x : Value} {m n : Members} {k : String} {p q : Path} {T : List Touched}

theorem Leaves.refl (v : Value) : Leaves v v := fun _ x hx => ⟨x, hx, Or.inl rfl⟩

theorem Leaves.eq_or_objects (h : Leaves v w) : v = w ∨ ∃ m n, v = .object m ∧ w = .object n := by
  obtain ⟨y, hy, heq⟩ := h [] w valueAt_nil
  rw [valueAt_nil, Option.some.injEq] at hy
  subst hy
  refine heq.imp_right fun ⟨hv, hw⟩ => ?_
  obtain ⟨m, rfl⟩ := isObject_iff.mp hv
  obtain ⟨n, rfl⟩ := isObject_iff.mp hw
  exact ⟨m, n, rfl, rfl⟩

theorem Leaves.member (h : Leaves (.object m) (.object n)) (hx : Assoc.get? k n = some x) :
    ∃ y, Assoc.get? k m = some y ∧ Leaves y x := by
  have hhead : valueAt (.object n) [k] = some x := by rw [valueAt_object_cons, hx, Option.bind_some, valueAt_nil]
  obtain ⟨y, hy, -⟩ := h [k] x hhead
  obtain ⟨y', hget, hy'⟩ := Option.bind_eq_some_iff.mp hy
  refine ⟨y', hget, fun p z hz => ?_⟩
  have hbelow : valueAt (.object n) (k :: p) = some z := by rw [valueAt_object_cons, hx, Option.bind_some, hz]
  obtain ⟨u, hu, heq⟩ := h (k :: p) z hbelow
  rw [valueAt_object_cons, hget, Option.bind_some] at hu
  exact ⟨u, hu, heq⟩

theorem Leaves.putAt (hq : valueAt v q = some (.object m))
    (hsub : ∀ k x, Assoc.get? k n = some x → Assoc.get? k m = some x) : Leaves v (putAt n v q) := by
  induction q generalizing v with
  | nil =>
    rw [valueAt_nil, Option.some.injEq] at hq
    subst hq
    intro p x hx
    cases p with
    | nil =>
      rw [putAt_object_nil, valueAt_nil, Option.some.injEq] at hx
      exact ⟨_, valueAt_nil, Or.inr ⟨rfl, hx ▸ rfl⟩⟩
    | cons k p =>
      obtain ⟨y, hy, hx⟩ := Option.bind_eq_some_iff.mp hx
      refine ⟨x, ?_, Or.inl rfl⟩
      rw [valueAt_object_cons, hsub k y hy]
      exact hx
  | cons seg q ih =>
    cases v
    case object m₀ =>
      obtain ⟨u, hu, hrest⟩ := Option.bind_eq_some_iff.mp hq
      rw [putAt_object_cons, hu, Option.getD_some]
      intro p x hx
      cases p with
      | nil =>
        rw [valueAt_nil, Option.some.injEq] at hx
        exact ⟨_, valueAt_nil, Or.inr ⟨rfl, hx ▸ rfl⟩⟩
      | cons k p =>
        rw [valueAt_object_cons] at hx
        rw [valueAt_object_cons]
        by_cases hk : k = seg
        · subst hk
          rw [Assoc.get?_insert_self, Option.bind_some] at hx
          rw [hu, Option.bind_some]
          exact ih hrest p x hx
        · rw [Assoc.get?_insert_ne hk] at hx
          exact ⟨x, hx, Or.inl rfl⟩
    all_goals cases hq

theorem leaves_remove {d d' : Value} (hd : d.isObject = true) (h : remove d p = (.ok T, d')) : Leaves d d' := by
  rcases p.eq_root_or_join with rfl | ⟨q, k, rfl⟩
  · rw [remove_root] at h
    cases h
    intro r x hx
    cases r with
    | nil =>
      rw [valueAt_nil, Option.some.injEq] at hx
      exact ⟨d, valueAt_nil, Or.inr ⟨hd, hx ▸ rfl⟩⟩
    | cons k r => cases hx
  · rw [remove_join] at h
    split at h
    · cases h
    · cases h
      exact Leaves.refl d
    · next m hq =>
      cases h
      refine Leaves.putAt (valueAt_of_descend hq) fun j x hx => ?_
      by_cases hj : j = k
      · rw [hj, removeKey, Assoc.get?_erase_self] at hx
        cases hx
      · rw [removeKey, Assoc.get?_erase_ne hj] at hx
        by_cases hn : j = k ++ commentSuffix
        · rw [hn, Assoc.get?_erase_self] at hx
          cases hx
        · rwa [Assoc.get?_erase_ne hn] at hx
    · cases h

/-- A place that is left was there, and what is there is left of what was. -/
theorem Leaves.getPath (h : Leaves v w) (hx : getPath w p = some x) : ∃ y, getPath v p = some y ∧ Leaves y x := by
  induction p generalizing v w with
  | nil =>
    cases hx
    exact ⟨v, rfl, h⟩
  | cons seg p ih =>
    rcases h.eq_or_objects with rfl | ⟨m, n, rfl, rfl⟩
    · exact ⟨x, hx, Leaves.refl x⟩
    · obtain ⟨u, hu, hx⟩ := Option.bind_eq_some_iff.mp hx
      obtain ⟨y, hy, hyu⟩ := h.member hu
      obtain ⟨z, hz, hzx⟩ := ih hyu hx
      exact ⟨z, by rw [PveMeta.getPath]; simp only [hy, Option.bind_some, hz], hzx⟩

theorem getPath_wf (hv : v.WF) (hx : getPath v p = some x) : x.WF := by
  induction p generalizing v with
  | nil =>
    cases hx
    exact hv
  | cons seg p ih =>
    cases v
    case object m =>
      obtain ⟨u, hu, hx⟩ := Option.bind_eq_some_iff.mp hx
      exact ih (hv.of_get? hu) hx
    case array items =>
      obtain ⟨i, -, hx⟩ := Option.bind_eq_some_iff.mp hx
      obtain ⟨u, hu, hx⟩ := Option.bind_eq_some_iff.mp hx
      exact ih (hv.items u (List.mem_of_getElem? hu)) hx
    all_goals cases hx

/-! ### What is found in what is left -/

section

variable [Deps] {schema : Value} {shape : Shape} {owner : Declared} {path : Path} {inherited : Bool}

omit [Deps] in
theorem enumAdmits_object {declared : Option String} {member : Value}
    (h : (member.isString || member.isNumber || member.isBool) = true) :
    enumAdmits declared member (.object m) = false := by
  unfold enumAdmits
  split
  · cases asFlag member <;> rfl
  · cases member <;> first | rfl | cases h

/-- Whether a map fits an accepted schema does not depend on its members. -/
theorem checkValue_object (h : Accepted schema) (m n : Members) :
    Shape.checkValue schema (.object m) = Shape.checkValue schema (.object n) := by
  have hany : ∀ {l : Members}, ((schema.get? "enum").bind Value.asArray).filter (fun allowed =>
      ! allowed.any (enumAdmits ((schema.get? "type").bind Value.asStr) · (.object l))) =
        (schema.get? "enum").bind Value.asArray := by
    intro l
    cases henum : (schema.get? "enum").bind Value.asArray with
    | none => rfl
    | some members =>
      have hnone : members.any (enumAdmits ((schema.get? "type").bind Value.asStr) · (.object l)) = false :=
        List.any_eq_false.mpr fun u hu => by rw [enumAdmits_object (h.enum henum u hu)]; exact Bool.false_ne_true
      rw [Option.filter_some, hnone]
      rfl
  simp only [Shape.checkValue, hany]
  rfl

/-- What is reported about what is left was reported before. -/
theorem walk_subset (hw : w.WF) (hl : Leaves v w) (hs : Accepted schema) {r : Report}
    (hr : r ∈ shape.walk owner schema path inherited w) : r ∈ shape.walk owner schema path inherited v := by
  induction w using Value.ind generalizing v schema path inherited with
  | object n ih =>
    rcases hl.eq_or_objects with rfl | ⟨m, n', rfl, heq⟩
    · exact hr
    · obtain rfl := Value.object.inj heq
      rw [Shape.mem_walk] at hr ⊢
      rw [checkValue_object hs m n]
      rcases hr with hmiss | ⟨hc, ⟨s, format, heq, -⟩ | ⟨items, sub, heq, -⟩ | ⟨n', props, heq, hprops, hr⟩⟩
      · exact Or.inl hmiss
      · cases heq
      · cases heq
      · cases heq
        obtain ⟨e, he, sub, hsub, hgov, hr⟩ := Shape.mem_walkMembers.mp hr
        obtain ⟨y, hy, hle⟩ := hl.member (Assoc.get?_of_mem hw.keys he)
        have haccepted := hs.properties hprops _ (Assoc.mem_of_get? hsub)
        have hbelow := Shape.mem_walkMembers.mpr ⟨(e.1, y), Assoc.mem_of_get? hy, sub, hsub, hgov,
          ih e he (hw.members e he) hle haccepted hr⟩
        exact Or.inr ⟨hc, Or.inr (Or.inr ⟨m, props, rfl, hprops, hbelow⟩)⟩
  | _ =>
    rcases hl.eq_or_objects with rfl | ⟨m, n, rfl, heq⟩
    · exact hr
    · cases heq

theorem findings_subset (hw : w.WF) (hl : Leaves v w)
    (hs : ∀ o ∈ shape.prefixes, ∀ schema, o.schema = some schema → Accepted schema) {r : Report}
    (hr : r ∈ shape.findings w) : r ∈ shape.findings v := by
  obtain ⟨owner, howner, hr⟩ := Shape.mem_findings.mp hr
  obtain ⟨schema, x, hschema, hx, hr⟩ := Shape.mem_reportsOf.mp hr
  obtain ⟨y, hy, hle⟩ := hl.getPath hx
  have hbefore := walk_subset (getPath_wf hw hx) hle (hs owner howner schema hschema) hr
  exact Shape.mem_findings.mpr ⟨owner, howner, Shape.mem_reportsOf.mpr ⟨schema, y, hschema, hy, hbefore⟩⟩

theorem mem_enforcedFindings {f : Finding} :
    f ∈ shape.enforcedFindings v ↔ Report.finding f ∈ shape.findings v ∧ f.enforced = true := by
  rw [Shape.enforcedFindings, List.mem_filterMap]
  constructor
  · rintro ⟨r, hr, hf⟩
    cases r with
    | finding g =>
      dsimp only at hf
      split at hf
      · next hen =>
        cases hf
        exact ⟨hr, hen⟩
      · cases hf
    | format g => cases hf
  · rintro ⟨hr, hen⟩
    exact ⟨_, hr, by simp [hen]⟩

/-! ### The delete of a document -/

variable {s s' : MetaStore} {d : DocId} {vp : Path} {req : DeleteRequest} {stored : Stored} {plan : Plan}

/-- The plan of a delete is the document without the view. -/
theorem Request.plan_delete_eq_ok (h : (Request.delete req).plan s = .ok (stored, plan)) :
    ∃ vp, View.remove stored.value.val vp = (.ok plan.touched, plan.planned) := by
  obtain ⟨⟨docId, vp⟩, -, h⟩ := Except.bind_eq_ok.mp h
  obtain ⟨st, -, h⟩ := Except.bind_eq_ok.mp h
  obtain ⟨_, -, h⟩ := Except.bind_eq_ok.mp h
  obtain ⟨own, -, h⟩ := Except.bind_eq_ok.mp h
  obtain ⟨pl, hplan, h⟩ := Except.bind_eq_ok.mp h
  cases h
  exact ⟨vp, (planDelete_eq_ok hplan).1⟩

/-- Each enforced finding of `w` is one of `v`. -/
def NothingNew (shape : Shape) (v w : Value) : Prop :=
  ∀ f ∈ shape.enforcedFindings w, f ∈ shape.enforcedFindings v

/-- A removal gives a document no finding that it had not, under schemas that the loader takes; so the file that a
    delete of a document leaves is the one that was there, or none, or the dump of a document with no enforced
    finding that the stored one had not. -/
theorem delete_finds_nothing_new (hs : ∀ o ∈ shape.prefixes, ∀ schema, o.schema = some schema → Accepted schema) :
    (∀ (d : Tree) (p : Path) (T : List Touched) (d' : Value), d.val.isObject = true → remove d.val p = (.ok T, d') →
      ∀ r ∈ shape.findings d', r ∈ shape.findings d.val) ∧
    ∀ (s : MetaStore) (req : DeleteRequest) (answer : ApiPutResult) (s' : MetaStore),
      deleteDocument s req = (.ok answer, s') → ∃ d, parseId req.id = .ok d ∧
        (s'.own d = s.own d ∨ s'.own d = none ∨ ∃ planned mtime,
          s'.own d = some ⟨Text.encode (diskFormat.dump planned), mtime⟩ ∧
            NothingNew shape (storedOf (s.content d)).value.val planned) := by
  have hremove : ∀ (d : Tree) (p : Path) (T : List Touched) (d' : Value), d.val.isObject = true →
      remove d.val p = (.ok T, d') → ∀ r ∈ shape.findings d', r ∈ shape.findings d.val := by
    intro d p T d' hobj h r hr
    have hwf := Edit.run_wf d (.remove p)
    rw [show (Edit.remove p).run d.val = (.ok T, d') from h] at hwf
    exact findings_subset hwf (leaves_remove hobj h) hs hr
  refine ⟨hremove, fun s req answer s' h => ?_⟩
  rcases (Request.delete req).run_cases s with ⟨e, he⟩ | ⟨d, vp, stored, plan, hans, hrun⟩
  · cases he.symm.trans h
  · obtain rfl := congrArg Prod.snd (hrun.symm.trans h)
    refine ⟨d, (Request.target_eq_ok hans.target_eq).1, ?_⟩
    dsimp only
    rw [Change.own_apply]
    cases hc : (Request.delete req).change vp stored plan with
    | keep => exact Or.inl rfl
    | remove => exact Or.inr (Or.inl rfl)
    | write text =>
      have htext : text = diskFormat.dump plan.planned := (Request.change_eq_write hc).trans hans.text_eq
      refine Or.inr (Or.inr ⟨plan.planned, s.now, by rw [htext]; rfl, fun f hf => ?_⟩)
      obtain ⟨q, hq⟩ := Request.plan_delete_eq_ok hans.plan_eq
      rw [← hans.stored_eq]
      rw [mem_enforcedFindings] at hf ⊢
      exact ⟨hremove stored.value q _ _ stored.mapping hq _ hf.1, hf.2⟩

end

section Samples
open Sample

/-- A schema of maps with a text under `a`. -/
def textUnderA : Value :=
  .object [("type", .string "object"), ("properties", .object [("a", .object [("type", .string "string")])])]

/-- `{app: {a: 1, b: 1}}`, with the schema at `app`, loses `b`: there is still a number under `a`, and nothing
    else is found. -/
theorem delete_finds_nothing_new_text :
    let shape : Shape := ⟨[⟨["app"], none, some textUnderA, true, false⟩]⟩
    ∀ r ∈ shape.findings (.object [("app", .object [("a", .number (.posInt 1))])]),
      r ∈ shape.findings (.object [("app", .object [("a", .number (.posInt 1)), ("b", .number (.posInt 1))])]) := by
  have hwf : (Value.object [("app", .object [("a", .number (.posInt 1)), ("b", .number (.posInt 1))])]).WF :=
    .object (by decide) (by simpa using Value.WF.object (by decide) (by simp [Value.WF.number]))
  refine (delete_finds_nothing_new fun o ho schema hschema => ?_).1 ⟨_, hwf⟩ ["app", "b"] [⟨["app", "b"], .delete⟩]
    _ rfl rfl
  obtain rfl := List.mem_singleton.mp ho
  cases hschema
  exact ⟨"app", "schema", rfl⟩

end Samples

end PveMeta
