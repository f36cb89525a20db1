import PveMeta.Theorems.Conflicts
import PveMeta.Theorems.Clients
import PveMeta.Theorems.Lens
import Mathlib.Data.List.InsertIdx

/-! # Writes of a list

A list is written as a whole, and the digest is to tell that nobody has written since it was read. It does where the
digest is that of the read the list is from, and then the write changes one member of the list and nothing else. -/

namespace PveMeta
namespace Panel
open Api MetaStore View

/-! ### Values in the browser -/

section

variable [Browser] {v w : Value} {m : Members}

theorem jsItems_eq (items : List Value) : jsItems items = items.map js := by
  induction items with
  | nil => rfl
  | cons x items ih => rw [jsItems, ih, List.map_cons]

theorem js_array (items : List Value) : js (.array items) = .array (items.map js) := by
  rw [js, jsItems_eq]

theorem get?_jsMembers (k : String) : Assoc.get? k (jsMembers m) = (Assoc.get? k m).map js := by
  induction m with
  | nil => rfl
  | cons e m ih =>
    obtain ⟨j, x⟩ := e
    rw [jsMembers, Assoc.get?_cons, Assoc.get?_cons, ih]
    split <;> rfl

theorem isArray_js : (js v).isArray = v.isArray := by
  cases v <;> rfl

theorem asArray_js : (js v).asArray = v.asArray.map (List.map js) := by
  cases v <;> first | rfl | simp [js, jsItems_eq, Value.asArray]

omit [Browser] in
theorem descend_eq (p : Path) : descend v p = View.valueAt v p := by
  induction p generalizing v with
  | nil => cases v <;> rfl
  | cons k p ih =>
    cases v with
    | object m =>
      rw [descend, valueAt_object_cons]
      exact Option.bind_congr fun x _ => ih
    | _ => rfl

theorem valueAt_js (p : Path) : View.valueAt (js v) p = (View.valueAt v p).map js := by
  induction p generalizing v with
  | nil => simp
  | cons k p ih =>
    cases v with
    | object m =>
      rw [js, valueAt_object_cons, valueAt_object_cons, get?_jsMembers]
      cases Assoc.get? k m with
      | none => rfl
      | some x => exact ih
    | _ => rfl

end

/-! ### Paths -/

/-- Without a slash, the browser and the server take a path apart alike. -/
theorem parse_eq_segments {path : String} {p : Path} (hne : path ≠ "") (hslash : '/' ∉ path.toList)
    (h : Path.parse path = .ok p) : p = segments path := by
  have hstrip : Text.stripPrefix ['/'] path.toList = none := by
    cases hs : Text.stripPrefix ['/'] path.toList with
    | none => rfl
    | some rest => exact absurd (by rw [Text.eq_append_of_stripPrefix hs]; simp) hslash
  have hnil : path.toList.isEmpty = false := by
    simpa using hne
  have hcontains : path.toList.contains '/' = false := by simpa using hslash
  unfold Path.parse at h
  rw [hstrip, Option.getD_none] at h
  dsimp only at h
  rw [hnil, hcontains] at h
  simp only [Bool.false_eq_true, if_false] at h
  split at h <;> cases h
  rfl

/-! ### Lists -/

/-- The members of the list at `p`. -/
def itemsAt (v : Value) (p : Path) : List Value := ((View.valueAt v p).bind Value.asArray).getD []

/-- A change as the server reads it. -/
def ListChange.js [Browser] : ListChange → ListChange
  | .replace i v => .replace i (Panel.js v)
  | .drop i => .drop i
  | .append v => .append (Panel.js v)

theorem ListChange.map_apply [Browser] (change : ListChange) (items : List Value) :
    (change.apply items).map Panel.js = change.js.apply (items.map Panel.js) := by
  cases change with
  | replace i v => exact List.map_set
  | drop i => exact (List.eraseIdx_map Panel.js items i).symm
  | append v => exact List.map_append

/-- The members that a change leaves alone. -/
def ListChange.others (items : List Value) : ListChange → List Value
  | .replace i _ | .drop i => items.eraseIdx i
  | .append _ => items

theorem ListChange.others_map [Browser] {change : ListChange} {items : List Value}
    (hjs : ∀ x ∈ change.others items, Panel.js x = x) : change.others (items.map Panel.js) = change.others items := by
  have hothers : (change.others items).map Panel.js = change.others items := by
    rw [List.map_congr_left hjs, List.map_id']
  cases change with
  | append v => exact hothers
  | _ => exact (List.eraseIdx_map Panel.js items _).trans hothers

/-- Only the other members have to come back from the browser as they were. -/
theorem ListChange.apply_map [Browser] {change : ListChange} {items : List Value}
    (hjs : ∀ x ∈ change.others items, Panel.js x = x) : change.js.apply (items.map Panel.js) = change.js.apply items := by
  have hothers := ListChange.others_map hjs
  cases change with
  | append v => exact congrArg (· ++ [Panel.js v]) hothers
  | drop i => exact hothers
  | replace i v =>
    refine List.ext_getElem? fun k => ?_
    show ((items.map Panel.js).set i (Panel.js v))[k]? = (items.set i (Panel.js v))[k]?
    rw [List.getElem?_set, List.getElem?_set, List.length_map, List.getElem?_map]
    split
    · rfl
    · next hk =>
      cases hx : items[k]? with
      | none => rfl
      | some x =>
        have hmem : x ∈ items.eraseIdx i := List.mem_eraseIdx_iff_getElem?.mpr ⟨k, Ne.symm hk, hx⟩
        exact congrArg some (hjs x hmem)

theorem ListChange.fits_map [Browser] {change : ListChange} {items : List Value} (h : change.Fits (items.map Panel.js)) :
    change.Fits items := by
  cases change with
  | append v => exact trivial
  | _ => simpa only [ListChange.Fits, List.length_map] using h

/-- What is stored of the document. -/
def documentOf [Deps] (s : MetaStore) (d : DocId) : Value := (storedOf (s.content d)).value.val

/-- Between `before` and `after` one member of the list at `p` changes, and nothing else. -/
structure ChangesMember [Deps] [Browser] (d : DocId) (p : Path) (change : ListChange) (before after : MetaStore) :
    Prop where
  framed : Framed before after d
  list : ∀ v, View.valueAt (documentOf before d) p = some v → v.isArray = true
  fits : change.Fits (itemsAt (documentOf before d) p)
  document : ∃ new : Value, (∃ f, after.content d = some f ∧ f.bytes = Text.encode (diskFormat.dump new)) ∧
    View.valueAt new p = some (.array (change.js.apply (itemsAt (documentOf before d) p))) ∧
    ∀ q, Path.Incomparable q p → extract new q = extract (documentOf before d) q

section

variable [Deps] [Browser] {id : String} {d : DocId} {s b : MetaStore} {doc : ApiViewDocument} {data : Value}
  {err : Option String} {w : Write}

/-! ### Reads -/

/-- What is assumed of the emitter and the parser: the text of the empty map is read back as that, and no text is no map. -/
structure EmptyText [Deps] : Prop where
  reads : View.parse (View.render (.object []) .yaml) .yaml = .ok Tree.empty
  nil : ∀ tree, View.parse [] .yaml = .ok tree → tree.val.isObject = false

omit [Browser] in
/-- A read of a content, and what another content with the same digest has stored. -/
theorem stored_eq_of_digest (hinj : ∀ a b, Deps.sha256Hex a = Deps.sha256Hex b → a = b) (hid : parseId id = .ok d)
    {acl : CallerAcl} (hget : getDocument s id none "yaml" true acl = .ok doc) (hdigest : b.identity d = doc.digest)
    (hrec : (storedOf (b.content d)).unrecoverable = none) :
    rendered d .yaml none [] true (storedOf (b.content d)) = .ok doc := by
  obtain ⟨d', fmt, vp, hd', hfmt, hvp, -, hrendered⟩ := getDocument_eq_ok hget
  rw [hid, Except.ok.injEq] at hd'
  subst hd'
  cases hfmt
  cases hvp
  have hhash := hashed_eq_of_contentDigest hinj (hdigest.trans (digest_getDocument hid hget).2)
  cases hb : b.content d with
  | none =>
    cases hs : s.content d with
    | none => rwa [hs] at hrendered
    | some f =>
      rw [hb, hs] at hhash
      cases hhash
  | some g =>
    cases hs : s.content d with
    | none =>
      rw [hb, hs] at hhash
      cases hhash
    | some f =>
      rw [hb, hs, Option.map_some, Option.map_some, Option.some.injEq] at hhash
      have hsmall : ¬ g.bytes.size > maxReadBytes := by
        intro hbig
        rw [hb] at hrec
        simp only [storedOf, hbig, if_true] at hrec
        cases hrec
      by_cases hbig : f.bytes.size > maxReadBytes
      · -- The answer would have been an error, there being no text to render.
        rw [hs] at hrendered
        simp only [storedOf, hbig, if_true, rendered, unrecoverable] at hrendered
        cases hrendered
      · rw [hashed, hashed, if_neg hsmall, if_neg hbig] at hhash
        have hident : identityOf g = identityOf f := by
          rw [identityOf_of_le (Nat.le_of_not_lt hsmall), identityOf_of_le (Nat.le_of_not_lt hbig), hhash]
        have hsame : storedOf (some g) = storedOf (some f) := by
          simp only [storedOf, hident, hhash]
        rw [hsame]
        rwa [hs] at hrendered

/-- The data that a panel has from a read of a document that can be read back. -/
theorem data_of_rendered (hempty : EmptyText) {stored : Stored} (hstored : stored = storedOf (b.content d))
    (hrec : stored.unrecoverable = none) (hrendered : rendered d .yaml none [] true stored = .ok doc)
    (hdata : State.readDocument doc = some (data, err)) : data = js stored.value.val := by
  have hparse : ∀ {text : Text} {tree : Tree}, View.parse text .yaml = .ok tree → tree.val.isObject = true →
      parseYaml text = .ok (js tree.val) := by
    intro text tree hp hobj
    obtain ⟨m, hm⟩ := Value.isObject_iff.mp hobj
    rw [parseYaml, hp, Except.map, hm]
  have hread : ∀ {text : Text} {tree : Tree}, doc.parseError = none → doc.text = some text →
      View.parse text .yaml = .ok tree → tree.val.isObject = true → tree.val = stored.value.val →
      data = js stored.value.val := by
    intro text tree herr htext hp hobj htree
    rw [State.readDocument, herr, htext, Option.filter_none, Option.getD_some] at hdata
    dsimp only at hdata
    rw [hparse hp hobj] at hdata
    cases hdata
    rw [htree]
  rw [rendered, hrec] at hrendered
  dsimp only at hrendered
  rcases storedOf_readable (hstored ▸ hrec) with ⟨-, habsent⟩ | ⟨f, raw, tree, hobj, -, -, -, hp, hst⟩
  · rw [hstored, habsent] at hrendered
    cases hrendered
    exact hread rfl rfl hempty.reads rfl (by rw [hstored, habsent]; rfl)
  · by_cases hnil : raw = []
    · subst hnil
      rw [hempty.nil tree hp] at hobj
      cases hobj
    · have hne : raw.isEmpty = false := by simpa using hnil
      rw [hstored, hst] at hrendered
      simp only [Option.filter_some, hne, Bool.not_false, Bool.true_and, if_true] at hrendered
      cases hrendered
      exact hread rfl rfl hp hobj (by rw [hstored, hst])

/-! ### An acknowledged write -/

omit [Browser] in
theorem payload_eq_ok {req : PutRequest} {p : ParsedPut} (h : parsePut req = .ok p) (hmode : req.mode = "replace") :
    ∃ fmt, parseViewFormat req.formatName = .ok fmt ∧ View.parse req.payload fmt = .ok p.payload := by
  obtain ⟨d, -, h⟩ := Except.bind_eq_ok.mp h
  obtain ⟨fmt, hfmt, h⟩ := Except.bind_eq_ok.mp h
  obtain ⟨vp, -, h⟩ := Except.bind_eq_ok.mp h
  obtain ⟨_, -, h⟩ := Except.bind_eq_ok.mp h
  dsimp only at h
  rw [if_neg (by rw [hmode]; decide), if_pos (Or.inl hmode), Except.ok_bind] at h
  obtain ⟨payload, hpayload, h⟩ := Except.bind_eq_ok.mp h
  cases h
  exact ⟨fmt, hfmt, Except.mapError_eq_ok.mp hpayload⟩

/-- A request that sets the value at `path`. -/
def setRequest (id path : String) (v : Value) (w : Write) (prefixes : List PrefixDef) (acl : CallerAcl) : PutRequest :=
  ⟨prefixes, id, if path = "" then none else some path, "json", Browser.encode v, "replace", some w.digest, false, w.force,
    true, acl⟩

omit [Deps] in
theorem request_eq {path : String} {v : Value} {prefixes : List PrefixDef} {acl : CallerAcl}
    (hedit : w.edit = some ⟨path, .set v⟩) : w.request id prefixes acl = .put (setRequest id path v w prefixes acl) := by
  rw [Write.request, hedit]
  rfl

/-- What the server does with a set that it acknowledges: the view is replaced in what is stored. -/
theorem exists_plan {path : String} {v : Value} {prefixes : List PrefixDef} {acl : CallerAcl} (hid : parseId id = .ok d)
    (hedit : w.edit = some ⟨path, .set v⟩) (hok : answerOf ((w.request id prefixes acl).run b).1 = .ok) :
    ∃ p payload stored plan, parseView (setRequest id path v w prefixes acl).view = .ok p ∧
      View.parse (Browser.encode v) .json = .ok payload ∧ stored = storedOf (b.content d) ∧
      (stored.unrecoverable = none ∨ p = Path.root) ∧ b.identity d = w.digest ∧
      View.replace stored.value.val p payload.val = (.ok plan.touched, plan.planned) ∧ lint plan.planned = [] ∧
      ((w.request id prefixes acl).run b).2 = ((w.request id prefixes acl).change p stored plan).apply b d ∧
      plan.text = diskFormat.dump plan.planned := by
  rw [request_eq hedit] at hok ⊢
  rcases (Request.put (setRequest id path v w prefixes acl)).run_cases b with ⟨e, he⟩ | ⟨d', p, stored, plan, hans, hrun⟩
  · rw [he] at hok
    cases hok
  · obtain ⟨hd', hview⟩ := Request.target_eq_ok hans.target_eq
    obtain rfl : d' = d := Except.ok.inj (hd'.symm.trans hid)
    obtain ⟨pp, hpp, hplan⟩ := Except.bind_eq_ok.mp hans.plan_eq
    obtain ⟨st, hread, hplan⟩ := Except.bind_eq_ok.mp hplan
    obtain ⟨pl, hpl, hplan⟩ := Except.bind_eq_ok.mp hplan
    cases hplan
    obtain ⟨fmt, hfmt, hpayload⟩ := payload_eq_ok hpp rfl
    obtain rfl : .json = fmt := Except.ok.inj ((show parseViewFormat "json" = .ok .json from rfl).symm.trans hfmt)
    obtain ⟨-, hview', -, hkeep, hmode⟩ := Request.parsePut_eq_ok hpp
    have hmerge : pp.isMerge = false := by
      rcases hmode with ⟨-, hmode⟩ | ⟨hmode, -⟩
      · exact absurd hmode (show ¬ "replace" = "merge" by decide)
      · exact hmode
    have hvp : pp.viewPath = p := Except.ok.inj (hview'.symm.trans hview)
    obtain ⟨hmut, hlint, -, -⟩ := planPut_eq_ok hpl
    rw [mutatePut, hmerge, hkeep, hmerge, hvp] at hmut
    have hreplace : View.replace stored.value.val p pp.payload.val = (.ok plan.touched, plan.planned) := by
      simp only [Bool.false_eq_true, if_false, Bool.not_false] at hmut
      split at hmut
      · cases hmut
      · exact hmut
      · exact hmut
    have hident : b.identity d' = w.digest := by
      obtain ⟨⟨d'', vp'⟩, htarget, hcheck⟩ := Except.bind_eq_ok.mp hans.check_eq
      obtain ⟨rfl, -⟩ := Prod.mk.inj (Except.ok.inj (hans.target_eq.symm.trans htarget))
      exact (checkPrecondition_eq_ok.mp (Except.mapError_eq_ok.mp hcheck)).2
    refine ⟨p, pp.payload, stored, plan, hview, hpayload, hans.stored_eq, ?_, hident, hreplace, hlint, by rw [hrun],
      hans.text_eq⟩
    refine (Request.repairable hans.plan_eq).imp_right fun hwhole => ?_
    have hroot := hwhole.isRoot hans.target_eq
    rwa [Path.isRoot, List.isEmpty_iff] at hroot

/-- What is left of the document is the text of what was planned. -/
theorem content_of_change {path : String} {v : Value} {p : Path} {prefixes : List PrefixDef} {acl : CallerAcl}
    {stored : Stored} {plan : Plan} (hstored : stored = storedOf (b.content d)) (hedit : w.edit = some ⟨path, .set v⟩) :
    ∃ f, (((w.request id prefixes acl).change p stored plan).apply b d).content d = some f ∧
      f.bytes = Text.encode plan.text := by
  rw [request_eq hedit, Request.change]
  split
  · next hkeep =>
    rw [show (setRequest id path v w prefixes acl).dryRun = false from rfl, Bool.false_or, unchanged_iff] at hkeep
    obtain ⟨f, hf, -, hbytes⟩ := storedOf_raw (hstored ▸ hkeep.2.2)
    exact ⟨f, hf, hbytes⟩
  · exact ⟨_, content_written, rfl⟩

/-- A list that is written with the digest of the read it is from: if that is acknowledged, one member changes. -/
theorem changesMember_of_answered (hinj : ∀ a b, Deps.sha256Hex a = Deps.sha256Hex b → a = b) (hempty : EmptyText)
    (hencode : ∀ v tree, View.parse (Browser.encode v) .json = .ok tree → tree.val = js v) (hid : parseId id = .ok d)
    {prefixes : List PrefixDef} {acl : CallerAcl} (hok : answerOf ((w.request id prefixes acl).run b).1 = .ok)
    {list : ListWrite} (hread : ReadAs id w.digest data) {path : String} (hedit : w.edit = some ⟨path, .set
      (.array (list.change.apply (listOf data path)))⟩) (hfits : list.change.Fits (listOf data path))
    (hlist : ListAt data path) (hslash : '/' ∉ path.toList)
    (hjs : ∀ x ∈ list.change.others (itemsAt (documentOf b d) (segments path)), js x = x) :
    ChangesMember d (segments path) list.change b ((w.request id prefixes acl).run b).2 := by
  obtain ⟨s, acl', doc, err, hget, hdigest, hdata⟩ := hread
  obtain ⟨p, payload, stored, plan, hview, hpayload, hstored, hrec, hident, hreplace, hlint, hafter, htext⟩ :=
    exists_plan hid hedit hok
  have hpayload' := hencode _ _ hpayload
  rw [js_array, ListChange.map_apply] at hpayload'
  by_cases hne : path = ""
  · -- A document that is a list is not taken.
    rw [setRequest, if_pos hne] at hview
    obtain rfl : Path.root = p := Except.ok.inj hview
    rw [replace_root, Prod.mk.injEq] at hreplace
    rw [← hreplace.2, hpayload', lint] at hlint
    cases hlint
  · rw [setRequest, if_neg hne] at hview
    obtain rfl := parse_eq_segments hne hslash (Except.mapError_eq_ok.mp hview)
    have hrec : stored.unrecoverable = none := hrec.resolve_right fun h => by
      rw [segments, Path.root, List.map_eq_nil_iff] at h
      exact List.splitOn_ne_nil _ _ h
    have hdata' : data = js (documentOf b d) := by
      rw [hstored] at hrec
      have := data_of_rendered hempty rfl hrec (stored_eq_of_digest hinj hid hget (hident.trans hdigest.symm) hrec) hdata
      exact this
    have hvalue : valueAt data path = (View.valueAt (documentOf b d) (segments path)).map js := by
      rw [valueAt, if_neg hne, descend_eq, hdata', valueAt_js]
    have hitems : listOf data path = (itemsAt (documentOf b d) (segments path)).map js := by
      rw [listOf, hvalue, itemsAt]
      cases View.valueAt (documentOf b d) (segments path) with
      | none => rfl
      | some v =>
        rw [Option.map_some, Option.bind_some, Option.bind_some, asArray_js]
        cases v.asArray <;> rfl
    have hkept := ListChange.others_map hjs
    rw [hitems, ListChange.apply_map fun x hx => hjs x (hkept ▸ hx), ListChange.apply_map hjs] at hpayload'
    rw [hitems] at hfits
    have hreplace' : View.replace (documentOf b d) (segments path) payload.val = (.ok plan.touched, plan.planned) := by
      rw [documentOf, ← hstored]
      exact hreplace
    refine ⟨?_, ?_, ListChange.fits_map hfits, plan.planned, ?_, ?_, fun q hq =>
      extract_replace_of_incomparable hreplace' hq⟩
    · rw [hafter]
      exact Framed.of_change
    · intro v hv
      rw [hv, Option.map_some] at hvalue
      rcases hlist with hnone | ⟨items, hsome⟩
      · cases hvalue.symm.trans hnone
      · rw [← isArray_js, Option.some.inj (hvalue.symm.trans hsome)]
        rfl
    · rw [hafter, ← htext]
      exact content_of_change hstored hedit
    · rw [valueAt_of_descend (extract_replace hreplace'), hpayload']

/-- Every list that is sent is from a read; it goes with the digest of that read if and only if no read has landed since
    that found the document under another digest. And if it does and is acknowledged, what it changes is one member of
    the list at its path, where the path has no slash and the browser keeps the other members. -/
theorem listWrite_iff (hinj : ∀ a b, Deps.sha256Hex a = Deps.sha256Hex b → a = b) (hempty : EmptyText)
    (hencode : ∀ v tree, View.parse (Browser.encode v) .json = .ok tree → tree.val = js v) (hid : parseId id = .ok d)
    (store : MetaStore) (moves : List Move) {before after : List Out} {out : Out}
    (hlog : (run id (.start store) moves).2 = before ++ out :: after) :
    (∀ w list, out = .sent w → w.list = some list → ∃ r, list.read = some r ∧ (w.digest = r ↔ found before = some r)) ∧
    ∀ w list b a, out = .handled w .ok b a → w.list = some list → list.read = some w.digest →
      ∃ path v, w.edit = some ⟨path, .set v⟩ ∧ ('/' ∉ path.toList →
        (∀ x ∈ list.change.others (itemsAt (documentOf b d) (segments path)), js x = x) →
        ChangesMember d (segments path) list.change b a) := by
  have hjustified : Log.Justified (Fair id) _ := (Inv.run store moves).fair
  have hfair := hjustified before out after hlog
  refine ⟨?_, ?_⟩
  · rintro w list rfl hlist
    obtain ⟨hdigest, hfrom, hfound⟩ := hfair
    obtain ⟨r, data, hr, -⟩ := hfrom list hlist
    refine ⟨r, hr, ?_⟩
    obtain ⟨dg, hdg⟩ := Option.isSome_iff_exists.mp (hfound (by rw [hlist]; rfl))
    rw [hdigest, hdg, Option.getD_some, Option.some.injEq]
  · rintro w list b a rfl hlist hread
    obtain ⟨hfrom, prefixes, acl, hok, rfl⟩ := hfair
    obtain ⟨r, data, hr, hdata, path, hedit, hfits, hat⟩ := hfrom list hlist
    obtain rfl : r = w.digest := Option.some.inj (hr.symm.trans hread)
    exact ⟨path, _, hedit, fun hslash hjs =>
      changesMember_of_answered hinj hempty hencode hid hok hdata hedit hfits hat hslash hjs⟩

end

section Samples
open Sample

def store₂ : MetaStore := storeOf [(100, "a:\n- a\n".toList)]

/-- The document is loaded, and a member appended to its list. -/
def appended : List Move := [.land 0 true] ++ ask ++ [.openAppend "a", .ok "" (.string "b"), .serve 0 [] auditor]

/-- In between the text card is entered, for which its script does not come, and somebody else appends a member. -/
def appendedAhead : List Move :=
  [.land 0 true] ++ ask ++ [.toText, .others (storeOf [(100, "a:\n- a\n- c\n".toList)])] ++ ask ++
    [.land 0 false, .openAppend "a", .ok "" (.string "b"), .serve 0 [] auditor]

/-- The strings of guest 100's list. -/
def stringsOf (s : MetaStore) : List (Option String) := (itemsAt (documentOf s (.guest 100)) ["a"]).map Value.asStr

/-- A list that the server took: its path, the list it was written over, the list it left, and whether it went with the
    digest of its read. -/
def Out.taken : Out → Option (Option String × List (Option String) × List (Option String) × Bool)
  | .handled w .ok b a => w.list.map fun list =>
    (w.edit.map (·.path), stringsOf b, stringsOf a, list.read == some w.digest)
  | _ => none

theorem mem_taken {log : List Out} {e} (h : log.filterMap Out.taken = [e]) : ∃ w list b a, .handled w .ok b a ∈ log ∧
    w.list = some list ∧ w.edit.map (·.path) = e.1 ∧ stringsOf b = e.2.1 ∧ stringsOf a = e.2.2.1 ∧
    (list.read = some w.digest ↔ e.2.2.2 = true) := by
  obtain ⟨out, hmem, hout⟩ :=
    List.mem_filterMap.mp (show e ∈ log.filterMap Out.taken by rw [h]; exact List.mem_singleton_self e)
  unfold Out.taken at hout
  split at hout
  · obtain ⟨list, hlist, rfl⟩ := Option.map_eq_some_iff.mp hout
    exact ⟨_, list, _, _, hmem, hlist, rfl, rfl, rfl, beq_iff_eq.symm⟩
  · cases hout

theorem emptyText : EmptyText := by
  refine ⟨rfl, ?_⟩
  intro tree h
  cases h

theorem encode_kept (v : Value) (tree : Tree) (h : View.parse (encode v) .json = .ok tree) : tree.val = js v := by
  unfold encode at h
  split at h
  · obtain rfl : pair "a" "b" = tree := Except.ok.inj h
    rfl
  · cases h

mutual

theorem js_eq : (v : Value) → js v = v
  | .object m => by rw [js, jsMembers_eq m]
  | .array items => by rw [js, jsItems_eq_self items]
  | .number _ => rfl
  | .null => rfl
  | .bool _ => rfl
  | .string _ => rfl

theorem jsItems_eq_self : (items : List Value) → jsItems items = items
  | [] => rfl
  | v :: items => by rw [jsItems, js_eq v, jsItems_eq_self items]

theorem jsMembers_eq : (m : Members) → jsMembers m = m
  | [] => rfl
  | (k, v) :: m => by rw [jsMembers, js_eq v, jsMembers_eq m]

end

/-- The member is appended, and the document is otherwise as it was. -/
theorem listWrite_iff_appended : ∃ w list b a, .handled w .ok b a ∈ (run "100" (.start store₂) appended).2 ∧
    w.list = some list ∧ ChangesMember (.guest 100) ["a"] list.change b a := by
  have htaken : (run "100" (.start store₂) appended).2.filterMap Out.taken =
      [(some "a", [some "a"], [some "a", some "b"], true)] := by
    decide +kernel
  obtain ⟨w, list, b, a, hmem, hlist, hpath, -, -, hread⟩ := mem_taken htaken
  obtain ⟨before, after, hlog⟩ := List.append_of_mem hmem
  obtain ⟨path, v, hedit, hchanges⟩ := (listWrite_iff (fun _ _ => sha256Hex_injective) emptyText encode_kept rfl store₂
    appended hlog).2 w list b a rfl hlist (hread.mpr rfl)
  rw [hedit, Option.map_some, Option.some.injEq] at hpath
  subst hpath
  exact ⟨w, list, b, a, hmem, hlist, hchanges (by decide) fun x _ => js_eq x⟩

/-- The member that somebody else appended is gone. -/
theorem append_loses_member : (run "100" (.start store₂) appendedAhead).1.panel.mode = .tree ∧
    ∃ w list b a, .handled w .ok b a ∈ (run "100" (.start store₂) appendedAhead).2 ∧ w.list = some list ∧
      list.read ≠ some w.digest ∧ stringsOf b = [some "a", some "c"] ∧ stringsOf a = [some "a", some "b"] := by
  refine ⟨by decide +kernel, ?_⟩
  have htaken : (run "100" (.start store₂) appendedAhead).2.filterMap Out.taken =
      [(some "a", [some "a", some "c"], [some "a", some "b"], false)] := by
    decide +kernel
  obtain ⟨w, list, b, a, hmem, hlist, -, hb, ha, hread⟩ := mem_taken htaken
  exact ⟨w, list, b, a, hmem, hlist, fun h => Bool.false_ne_true (hread.mp h), hb, ha⟩

end Samples

end Panel
end PveMeta
