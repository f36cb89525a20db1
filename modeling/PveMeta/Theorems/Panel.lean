import PveMeta.Panel

/-! # What a step of the panel does

The digest and the data of the panel change where an answer to a read lands, and nowhere else; a write is sent with the
digest the panel has. -/

namespace PveMeta
namespace Panel
open Api

variable {p : State} {r : State × List Task} {w : Write} {t : Task}

/-- A task that is no write, and leads to none of a list. -/
def Task.plain : Task → Bool
  | .rows | .read _ | .monaco | .discard _ | .remove _ => true
  | .got .. | .write _ | .wrote .. | .saveAnyway _ | .removeMember .. => false

/-- A handler that leaves the document of the panel alone, and sends no write. -/
structure Plain (p : State) (r : State × List Task) : Prop where
  docState : r.1.docState = p.docState
  rows : r.1.rows = p.rows
  editor : r.1.editor = p.editor ∨ r.1.editor = none
  tasks : ∀ t ∈ r.2, t.plain = true

namespace Plain

theorem same (p : State) : Plain p (p, []) := ⟨rfl, rfl, Or.inl rfl, by simp⟩

theorem of_eq {q : State} (h : Plain q r) (hdoc : q.docState = p.docState) (hrows : q.rows = p.rows)
    (heditor : q.editor = p.editor ∨ q.editor = none) : Plain p r where
  docState := h.docState.trans hdoc
  rows := h.rows.trans hrows
  editor := by
    rcases h.editor with he | he
    · rw [he]
      exact heditor
    · exact Or.inr he
  tasks := h.tasks

theorem reload (p : State) : Plain p p.reload := by
  unfold State.reload
  split
  · exact same p
  · split <;> exact ⟨rfl, rfl, Or.inl rfl, by simp [Task.plain]⟩

theorem editorClosed (p : State) : Plain p p.editorClosed := by
  unfold State.editorClosed
  split
  · exact reload p
  · exact same p

theorem closeEditor (p : State) (n : Nat) : Plain p (p.closeEditor n) := by
  unfold State.closeEditor
  split
  · exact (editorClosed _).of_eq rfl rfl (Or.inr rfl)
  · exact same p

theorem enterTextMode (p : State) : Plain p p.enterTextMode :=
  ⟨rfl, rfl, Or.inl rfl, by simp [State.enterTextMode, Task.plain]⟩

theorem finishLeavingTextMode (p : State) : Plain p p.finishLeavingTextMode :=
  (reload _).of_eq rfl rfl (Or.inl rfl)

theorem leaveTextMode (p : State) : Plain p p.leaveTextMode := by
  unfold State.leaveTextMode
  split
  · exact ⟨rfl, rfl, Or.inl rfl, by simp [Task.plain]⟩
  · exact finishLeavingTextMode p

theorem refreshText (p : State) (keepBuffer : Bool) : Plain p (p.refreshText keepBuffer) :=
  ⟨rfl, rfl, Or.inl rfl, by simp [State.refreshText, Task.plain]⟩

theorem discardText (p : State) : Plain p p.discardText := by
  unfold State.discardText
  split
  · exact ⟨rfl, rfl, Or.inl rfl, by simp [Task.plain]⟩
  · exact refreshText p false

theorem conflict (p : State) (edit : Option Edit) : Plain p (p.conflict edit) := by
  unfold State.conflict
  split
  · exact refreshText p true
  · split
    · exact ⟨rfl, rfl, Or.inl rfl, by simp [Task.plain]⟩
    · exact reload p

theorem done (p : State) (asker : Asker) : Plain p (p.done asker) := by
  cases asker with
  | editor n => exact closeEditor p n
  | text => exact refreshText p false
  | nobody => exact same p

/-- One handler after the other. -/
theorem append {q : State} {ts : List Task} (h : Plain p (q, ts)) (h' : Plain q r) : Plain p (r.1, ts ++ r.2) where
  docState := h'.docState.trans h.docState
  rows := h'.rows.trans h.rows
  editor := by
    rcases h'.editor with he | he
    · rcases h.editor with hq | hq
      · exact Or.inl (he.trans hq)
      · exact Or.inr (he.trans hq)
    · exact Or.inr he
  tasks t ht := by
    rcases List.mem_append.mp ht with ht | ht
    · exact h.tasks t ht
    · exact h'.tasks t ht

theorem answered_ok (p : State) (w : Write) : Plain p (p.answered w .ok) :=
  append (reload p) (done p.reload.1 w.asker)

end Plain

/-! ### Sends -/

/-- The list that `data` has at `path`. -/
def listOf (data : Value) (path : String) : List Value := ((valueAt data path).bind Value.asArray).getD []

/-- Nothing but a list is at `path`. -/
def ListAt (data : Value) (path : String) : Prop :=
  valueAt data path = none ∨ ∃ items, valueAt data path = some (.array items)

/-- The member that a change is about is one of the list. -/
def ListChange.Fits (items : List Value) : ListChange → Prop
  | .replace i _ | .drop i => i < items.length
  | .append _ => True

/-- The write is of the list in `data`, with one change made to it. -/
structure WritesList (data : Value) (w : Write) (list : ListWrite) : Prop where
  edit : ∃ path, w.edit = some ⟨path, .set (.array (list.change.apply (listOf data path)))⟩ ∧
    list.change.Fits (listOf data path) ∧ ListAt data path

/-- The write that a handler of the panel `p` sends: it carries the panel's digest, and a list is the panel's. -/
structure Sends (p : State) (w : Write) : Prop where
  digest : w.digest = p.digestOf
  list : ∀ list, w.list = some list → list.read = p.docState.bind (·.read) ∧ WritesList p.dataOf w list

theorem Sends.of_edit (p : State) (edit : Edit) (force : Bool) (asker : Asker) :
    Sends p ⟨some edit, [], p.digestOf, force, asker, none⟩ := ⟨rfl, fun _ h => by cases h⟩

/-- An editor of a list. -/
def Editor.ofList : Editor → Prop
  | .member .. | .append _ => True
  | .value _ | .key => False

/-- What a handler of the panel `p` does that is not the landing of a read. `L` is that the panel has the data of a read,
    `carried` a write that the handler is about. -/
inductive Handles (L : Prop) (p : State) (carried : Option Write) : State × List Task → Prop where
  | plain {r : State × List Task} (h : Plain p r) : Handles L p carried r
  | opens {q : State} (docState : q.docState = p.docState) (rows : q.rows = p.rows)
    (editor : ∀ n e, q.editor = some (n, e) → e.ofList → L) : Handles L p carried (q, [])
  | sends {w : Write} (h : Sends p w) (list : w.list.isSome → L) : Handles L p carried (p, [.write w])
  | resends {w w' : Write} (hw : carried = some w) (digest : w'.digest = p.digestOf) (edit : w'.edit = w.edit)
    (list : w'.list = w.list) : Handles L p carried (p, [.write w'])
  | asks {w : Write} (hw : carried = some w) : Handles L p carried (p, [.saveAnyway w])
  | remembers {path : String} {member : Member} (hL : L) : Handles L p carried (p, [.removeMember path member])

namespace Handles

variable {L : Prop} {carried : Option Write} {path : String} {value : Value} {asker : Asker}

theorem same : Handles L p carried (p, []) := .plain (.same p)

theorem sendList {change : ListChange} (hL : L) (hfits : change.Fits (p.listAt path)) (hlist : ListAt p.dataOf path) :
    Handles L p carried (p, p.sendList path change asker) := by
  refine .sends ⟨rfl, ?_⟩ fun _ => hL
  rintro _ ⟨⟩
  exact ⟨rfl, path, rfl, hfits, hlist⟩

theorem writeListMember {member : Member} {value : Option Value} (hL : L) :
    Handles L p carried (p, p.writeListMember path member value asker) := by
  unfold State.writeListMember
  split
  · exact same
  · next item hitem =>
    split
    · have hlt : member.index < (p.listAt path).length := (List.getElem?_eq_some_iff.mp hitem).1
      refine sendList hL ?_ ?_
      · cases value <;> exact hlt
      · -- There is a member, so there is a list.
        unfold State.listAt at hlt
        cases hv : valueAt p.dataOf path with
        | none => simp [hv] at hlt
        | some v =>
          cases v with
          | array items => exact Or.inr ⟨items, hv⟩
          | _ => simp [hv, Value.asArray] at hlt
    · exact same

theorem appendListMember (hL : L) : Handles L p carried (p, p.appendListMember path value asker) := by
  unfold State.appendListMember
  split
  · next h => exact sendList hL trivial (Or.inl h)
  · next items h => exact sendList hL trivial (Or.inr ⟨items, h⟩)
  · exact same

theorem sendEdit {edit : Edit} : Handles L p carried (p, p.sendEdit edit false asker none) :=
  .sends (Sends.of_edit p edit false asker) (by simp)

theorem applyText (force : Bool) : Handles L p carried (p.applyText force) := by
  unfold State.applyText
  split
  · split
    · exact same
    · exact .sends ⟨rfl, fun _ h => by cases h⟩ (by simp)
  · exact same

theorem ok (hL : ∀ n e, p.editor = some (n, e) → e.ofList → L) : Handles L p carried (p, p.ok path value) := by
  unfold State.ok
  split
  · exact same
  · exact sendEdit
  · exact sendEdit
  · next n path member he => exact writeListMember (hL _ _ he trivial)
  · next n path he => exact appendListMember (hL _ _ he trivial)

theorem answered (w : Write) (answer : Answer) : Handles L p (some w) (p.answered w answer) := by
  unfold State.answered
  split
  · exact .plain (Plain.answered_ok p w)
  · exact .plain (Plain.conflict p w.edit)
  · split
    · exact same
    · exact .asks rfl
  · exact same
  · exact same

theorem saveAnyway (w : Write) : Handles L p (some w) (p.saveAnyway w) := by
  unfold State.saveAnyway
  cases he : w.edit with
  | some edit => exact .resends rfl rfl he.symm rfl
  | none => exact applyText true

/-- Whoever opens an editor of a list, or asks about a member, has rows. -/
theorem act (hrows : p.rows.isSome → L) (heditor : ∀ n e, p.editor = some (n, e) → e.ofList → L) (move : Move) :
    Handles L p none (p.act move) := by
  have hmember : ∀ {path i member}, p.memberOf path i = some member → L := by
    intro path i member hm
    obtain ⟨rows, hr, -⟩ := Option.bind_eq_some_iff.mp hm
    exact hrows (by rw [hr]; rfl)
  unfold State.act
  split
  · exact .plain (Plain.reload p)
  · split
    · exact same
    · exact .plain (Plain.enterTextMode p)
  · split
    · exact same
    · exact .plain (Plain.leaveTextMode p)
  · split
    · exact .plain (Plain.discardText p)
    · exact same
  · exact .plain ⟨rfl, rfl, Or.inl rfl, by simp⟩
  · exact applyText false
  · exact .opens rfl rfl (by rintro _ _ ⟨⟩ ⟨⟩)
  · exact .opens rfl rfl (by rintro _ _ ⟨⟩ ⟨⟩)
  · split
    · exact same
    · next member hm =>
      split
      · exact .opens rfl rfl (by rintro _ _ ⟨⟩ ⟨⟩)
      · exact .opens rfl rfl fun _ _ _ _ => hmember hm
  · split
    · next hr => exact .opens rfl rfl fun _ _ _ _ => hrows hr
    · exact same
  · exact ok heditor
  · split
    · exact .plain (Plain.closeEditor p _)
    · exact same
  · exact sendEdit
  · exact .plain ⟨rfl, rfl, Or.inl rfl, by simp [Task.plain]⟩
  · split
    · exact same
    · next member hm => exact .remembers (hmember hm)
  all_goals exact same

end Handles

/-- The write that a task is about. -/
def Task.carried : Task → Option Write
  | .wrote w _ | .saveAnyway w => some w
  | _ => none

theorem landing_of_not_got [Deps] [Browser] (h : ¬ ∃ by_ answer, t = .got by_ answer) : t.landing = [] := by
  cases t with
  | got by_ answer => exact absurd ⟨by_, answer, rfl⟩ h
  | _ => rfl

theorem handles_callBack [Deps] [Browser] {L : Prop} (hgot : ¬ ∃ by_ answer, t = .got by_ answer)
    (hL : ∀ path member, t = .removeMember path member → L) (yes : Bool) :
    Handles L p t.carried (callBack p yes t) := by
  cases t with
  | got by_ answer => exact absurd ⟨by_, answer, rfl⟩ hgot
  | rows => exact .plain ⟨rfl, rfl, Or.inl rfl, by cases yes <;> simp [callBack, Task.plain]⟩
  | read | write => exact .same
  | monaco =>
    cases yes with
    | true =>
      refine .plain ⟨?_, ?_, Or.inl ?_, by simp [callBack]⟩ <;>
      · simp only [callBack, if_true, State.showTextEditor]
        split <;> rfl
    | false => exact .plain ⟨rfl, rfl, Or.inl rfl, by simp [callBack]⟩
  | wrote w answer => exact .answered w answer
  | saveAnyway w =>
    cases yes with
    | true => exact .saveAnyway w
    | false => exact .same
  | discard leave =>
    cases yes with
    | true =>
      cases leave with
      | true => exact .plain (Plain.finishLeavingTextMode p)
      | false => exact .plain (Plain.refreshText p false)
    | false => exact .same
  | remove edit =>
    cases yes with
    | true => exact .sendEdit
    | false => exact .same
  | removeMember path member =>
    cases yes with
    | true => exact .writeListMember (hL path member rfl)
    | false => exact .same

theorem plain_got [Deps] [Browser] (by_ : Reader) (answer : Option ApiViewDocument) :
    ∀ t ∈ (p.got by_ answer).2, t.plain = true := by
  cases answer with
  | none => cases by_ <;> simp [State.got]
  | some doc =>
    cases by_ with
    | load =>
      simp only [State.got, State.loaded]
      split
      · simp
      · split <;> simp [State.enterTextMode, Task.plain]
    | conflict | enterText | refresh => simp [State.got, Task.plain]

/-- The writes a handler sends carry the digest of the panel. -/
theorem Handles.digest_of_write {L : Prop} {carried : Option Write} (h : Handles L p carried r) (hw : .write w ∈ r.2) :
    w.digest = p.digestOf := by
  cases h with
  | plain hp => cases hp.tasks _ hw
  | opens => cases hw
  | sends hs =>
    cases List.mem_singleton.mp hw
    exact hs.digest
  | resends _ hdigest =>
    cases List.mem_singleton.mp hw
    exact hdigest
  | asks => cases List.mem_singleton.mp hw
  | remembers => cases List.mem_singleton.mp hw

theorem mem_take_sent {y : System} (h : .sent w ∈ (y.take r).2) : .write w ∈ r.2 := by
  obtain ⟨t, ht, hw⟩ := List.mem_filterMap.mp h
  cases t <;> cases hw
  exact ht

/-- A write is sent with the digest that the panel has. -/
theorem digest_of_sent [Deps] [Browser] {id : String} {y : System} {move : Move} (h : .sent w ∈ (step id y move).2) :
    w.digest = y.panel.digestOf := by
  cases move with
  | others => cases h
  | lose => cases h
  | serve k prefixes acl =>
    unfold step serve at h
    dsimp only at h
    split at h
    · cases h
    · cases List.mem_singleton.mp h
    · cases h
  | land k yes =>
    unfold step land at h
    dsimp only at h
    split at h
    · next t _ =>
      split at h
      · rcases List.mem_append.mp h with h | h
        · unfold Task.landing at h
          split at h
          · split at h
            · cases List.mem_singleton.mp h
            · cases h
          · split at h
            · cases List.mem_singleton.mp h
            · cases h
          · cases List.mem_singleton.mp h
          · cases List.mem_singleton.mp h
          · cases h
        · have hw := mem_take_sent h
          by_cases hgot : ∃ by_ answer, t = .got by_ answer
          · obtain ⟨by_, answer, rfl⟩ := hgot
            cases plain_got by_ answer _ hw
          · exact (handles_callBack hgot (fun _ _ _ => True.intro) yes).digest_of_write hw
      · cases h
    · cases h
  | reload | toText | toTree | revert | type | apply | openValue | openKey | openMember | openAppend | ok | cancel | set
  | remove | removeMember =>
    exact (Handles.act (fun _ => True.intro) (fun _ _ _ _ => True.intro) _).digest_of_write (mem_take_sent h)

/-! ### What a run keeps -/

/-- The digest of the newest answer that the panel took over: an absent document has none, and the text card takes
    that over as nothing. -/
def carry (newest : Option String) : Out → Option String
  | .landed whole digest => if whole || digest != "" then some digest else newest
  | .sent _ | .handled .. => newest

def found (log : List Out) : Option String := log.foldl carry none

theorem found_append (log outs : List Out) : found (log ++ outs) = outs.foldl carry (found log) := List.foldl_append

/-- The panel has the data of a read. -/
def Loaded (p : State) : Prop := (p.docState.bind (·.read)).isSome = true

section

variable [Deps] [Browser] {id : String} {y : System} {log : List Out} {ts : List Task}

/-- A read of the document answered the digest `r`, and this data. -/
def ReadAs (id : String) (r : String) (data : Value) : Prop :=
  ∃ s acl doc err, getDocument s id none "yaml" true acl = .ok doc ∧ doc.digest = r ∧
    State.readDocument doc = some (data, err)

/-- The list of the write is that of a read. -/
def FromRead (id : String) (w : Write) : Prop :=
  ∀ list, w.list = some list → ∃ r data, list.read = some r ∧ ReadAs id r data ∧ WritesList data w list

/-- What holds of a task while it waits; `L` is that the panel has the data of a read. -/
def TaskOk (id : String) (L : Prop) : Task → Prop
  | .got _ (some doc) => ∃ s acl, getDocument s id none "yaml" true acl = .ok doc
  | .write w | .wrote w _ | .saveAnyway w => FromRead id w ∧ (w.list.isSome → L)
  | .removeMember .. => L
  | _ => True

/-- A write is sent with the newest digest found, a list after the read it is from; and a write that is handled is run
    on the store. -/
def Fair (id : String) (before : List Out) : Out → Prop
  | .landed .. => True
  | .sent w => w.digest = (found before).getD "" ∧ FromRead id w ∧ (w.list.isSome → (found before).isSome)
  | .handled w answer b a => FromRead id w ∧
    ∃ prefixes acl, answerOf ((w.request id prefixes acl).run b).1 = answer ∧ ((w.request id prefixes acl).run b).2 = a

structure Inv (id : String) (y : System) (log : List Out) : Prop where
  digest : y.panel.digestOf = (found log).getD ""
  known : Loaded y.panel → (found log).isSome
  data : ∀ ds, y.panel.docState = some ds → ∀ r, ds.read = some r → ReadAs id r ds.data
  rows : y.panel.rows.isSome → Loaded y.panel
  editor : ∀ n e, y.panel.editor = some (n, e) → e.ofList → Loaded y.panel
  tasks : ∀ t ∈ y.tasks, TaskOk id (Loaded y.panel) t
  fair : Log.Justified (Fair id) log

theorem TaskOk.of_plain {L : Prop} (h : t.plain = true) : TaskOk id L t := by
  cases t <;> first | exact True.intro | cases h

omit [Deps] [Browser] in
theorem sent_of_plain (h : ∀ t ∈ ts, t.plain = true) : ts.filterMap Task.sent = [] := by
  refine List.filterMap_eq_nil_iff.mpr fun t ht => ?_
  have := h t ht
  cases t <;> first | rfl | cases this

theorem TaskOk.mono {L L' : Prop} (h : TaskOk id L t) (hL : L → L') : TaskOk id L' t := by
  cases t with
  | write | wrote | saveAnyway => exact ⟨h.1, fun hl => hL (h.2 hl)⟩
  | removeMember => exact hL h
  | got by_ answer => cases answer <;> exact h
  | rows | read | monaco | discard | remove => exact True.intro

omit [Deps] [Browser] in
theorem fields_setDigest (p : State) (digest : String) :
    (p.setDigest digest).rows = p.rows ∧ (p.setDigest digest).editor = p.editor := by
  rw [State.setDigest]
  split <;> exact ⟨rfl, rfl⟩

/-- A text card that is read again changes nothing of the panel's document but the digest. -/
theorem fields_refreshed (p : State) (keepBuffer : Bool) (doc : ApiViewDocument) :
    (p.refreshed keepBuffer doc).docState = (p.setDigest doc.digest).docState ∧
      (p.refreshed keepBuffer doc).rows = p.rows ∧ (p.refreshed keepBuffer doc).editor = p.editor := by
  have hset := fields_setDigest p doc.digest
  have hclear : ∀ q : State, q.clearParseErrorIfSound.docState = q.docState ∧ q.clearParseErrorIfSound.rows = q.rows ∧
      q.clearParseErrorIfSound.editor = q.editor := by
    intro q
    unfold State.clearParseErrorIfSound
    split <;> exact ⟨rfl, rfl, rfl⟩
  obtain ⟨hdoc, hrows, heditor⟩ := hclear { p.setDigest doc.digest with textOriginal := doc.text.getD [] }
  unfold State.refreshed
  dsimp only
  split <;> exact ⟨hdoc, hrows.trans hset.1, heditor.trans hset.2⟩

namespace Inv

theorem start (store : MetaStore) : Inv id (.start store) [] where
  digest := rfl
  known h := by cases h
  data _ h := by cases h
  rows h := by cases h
  editor _ _ h := by cases h
  tasks t ht := by
    rw [List.mem_singleton.mp ht]
    trivial
  fair := Log.justified_nil

/-- Other tasks, each of which is in order. -/
theorem with_tasks (h : Inv id y log) {store : MetaStore} (hts : ∀ t ∈ ts, TaskOk id (Loaded y.panel) t) :
    Inv id { y with store, tasks := ts } log :=
  ⟨h.digest, h.known, h.data, h.rows, h.editor, hts, h.fair⟩

theorem fromRead (h : Inv id y log) (hw : Sends y.panel w) (hlist : w.list.isSome → Loaded y.panel) : FromRead id w := by
  intro list hl
  obtain ⟨hread, hwrites⟩ := hw.list list hl
  obtain ⟨r, hr⟩ := Option.isSome_iff_exists.mp (hlist (by rw [hl]; rfl))
  obtain ⟨ds, hds, hdsr⟩ := Option.bind_eq_some_iff.mp hr
  refine ⟨r, ds.data, hread.trans hr, h.data ds hds r hdsr, ?_⟩
  rwa [State.dataOf, hds] at hwrites

/-- What a handler does that is no landing of a read. -/
theorem handles (h : Inv id y log) {carried : Option Write} (hr : Handles (Loaded y.panel) y.panel carried r)
    (hcarried : ∀ w, carried = some w → FromRead id w ∧ (w.list.isSome → Loaded y.panel)) :
    Inv id (y.take r).1 (log ++ (y.take r).2) := by
  have hquiet : ∀ {q : State} {ts : List Task}, q.docState = y.panel.docState → q.rows = y.panel.rows →
      (∀ n e, q.editor = some (n, e) → e.ofList → Loaded y.panel) → (∀ t ∈ ts, TaskOk id (Loaded y.panel) t) →
      ts.filterMap Task.sent = [] → Inv id (y.take (q, ts)).1 (log ++ (y.take (q, ts)).2) := by
    intro q ts hdoc hrows heditor hts hsent
    have hloaded : Loaded q = Loaded y.panel := by rw [Loaded, hdoc, Loaded]
    rw [show (y.take (q, ts)).2 = [] from hsent, List.append_nil]
    refine ⟨?_, fun hl => h.known (hloaded ▸ hl), fun ds hds => h.data ds (hdoc ▸ hds), fun hr =>
      hloaded ▸ h.rows (hrows ▸ hr), fun n e he hlist => hloaded ▸ heditor n e he hlist, fun t ht => ?_, h.fair⟩
    · rw [← h.digest, System.take, State.digestOf, hdoc, State.digestOf]
    · rw [show Loaded (y.take (q, ts)).1.panel = Loaded y.panel from hloaded]
      rcases List.mem_append.mp ht with ht | ht
      · exact h.tasks t ht
      · exact hts t ht
  have hsend : ∀ {w : Write}, w.digest = y.panel.digestOf → FromRead id w → (w.list.isSome → Loaded y.panel) →
      Inv id (y.take (y.panel, [.write w])).1 (log ++ (y.take (y.panel, [.write w])).2) := by
    intro w hdigest hfrom hlist
    refine ⟨?_, ?_, h.data, h.rows, h.editor, fun t ht => ?_,
      h.fair.concat ⟨hdigest.trans h.digest, hfrom, fun hl => h.known (hlist hl)⟩⟩
    · rw [found_append]
      exact h.digest
    · rw [found_append]
      exact h.known
    · rcases List.mem_append.mp ht with ht | ht
      · exact h.tasks t ht
      · rw [List.mem_singleton.mp ht]
        exact ⟨hfrom, hlist⟩
  cases hr with
  | plain hp =>
    refine hquiet hp.docState hp.rows (fun n e he hlist => ?_) (fun t ht => .of_plain (hp.tasks t ht))
      (sent_of_plain hp.tasks)
    rcases hp.editor with heq | heq
    · exact h.editor n e (heq ▸ he) hlist
    · rw [heq] at he
      cases he
  | opens hdoc hrows heditor => exact hquiet hdoc hrows heditor (by simp) rfl
  | sends hw hlist => exact hsend hw.digest (h.fromRead hw hlist) hlist
  | resends hw hdigest hedit hlist =>
    obtain ⟨hfrom, hloaded⟩ := hcarried _ hw
    refine hsend hdigest (fun list hl => ?_) (hlist ▸ hloaded)
    obtain ⟨r, data, hr, hread, path, he, hfits⟩ := hfrom list (hlist ▸ hl)
    exact ⟨r, data, hr, hread, path, hedit.trans he, hfits⟩
  | asks hw =>
    refine hquiet rfl rfl h.editor (fun t ht => ?_) rfl
    rw [List.mem_singleton.mp ht]
    exact hcarried _ hw
  | remembers hL =>
    refine hquiet rfl rfl h.editor (fun t ht => ?_) rfl
    rw [List.mem_singleton.mp ht]
    exact hL

/-- An answer lands that brings the data with the digest. -/
theorem whole (h : Inv id y log) {p : State} {doc : ApiViewDocument} {data : Value} {err : Option String}
    (hread : ∃ s acl, getDocument s id none "yaml" true acl = .ok doc) (hdata : State.readDocument doc = some (data, err))
    (hdoc : p.docState = some ⟨doc.digest, data, some doc.digest⟩) (hts : ∀ t ∈ ts, t.plain = true) :
    Inv id (y.take (p, ts)).1 (log ++ .landed true doc.digest :: (y.take (p, ts)).2) := by
  obtain ⟨s, acl, hget⟩ := hread
  have hloaded : Loaded p := by
    rw [Loaded, hdoc]
    rfl
  rw [show (y.take (p, ts)).2 = [] from sent_of_plain hts]
  have hfound : found (log ++ [.landed true doc.digest]) = some doc.digest := by rw [found_append]; rfl
  refine ⟨?_, ?_, ?_, fun _ => hloaded, fun _ _ _ _ => hloaded, fun t ht => ?_, h.fair.concat trivial⟩
  · rw [hfound, System.take, State.digestOf, hdoc]
    rfl
  · rw [hfound]
    exact fun _ => rfl
  · intro ds hds r hr
    rw [show (y.take (p, ts)).1.panel.docState = some ⟨doc.digest, data, some doc.digest⟩ from hdoc, Option.some.injEq]
      at hds
    subst hds
    cases hr
    exact ⟨s, acl, doc, err, hget, rfl, hdata⟩
  · rcases List.mem_append.mp ht with ht | ht
    · exact (h.tasks t ht).mono fun _ => hloaded
    · exact TaskOk.of_plain (hts t ht)

/-- An answer lands that brings the digest alone. -/
theorem alone (h : Inv id y log) {p : State} {digest : String} (hdoc : p.docState = (y.panel.setDigest digest).docState)
    (hrows : p.rows = y.panel.rows) (heditor : p.editor = y.panel.editor) (hts : ∀ t ∈ ts, t.plain = true) :
    Inv id (y.take (p, ts)).1 (log ++ .landed false digest :: (y.take (p, ts)).2) := by
  rw [show (y.take (p, ts)).2 = [] from sent_of_plain hts]
  have hread : p.docState.bind (·.read) = y.panel.docState.bind (·.read) := by
    rw [hdoc, State.setDigest]
    split
    · rfl
    · cases y.panel.docState <;> rfl
  have hloaded : Loaded p = Loaded y.panel := by rw [Loaded, hread, Loaded]
  have hfound : found (log ++ [.landed false digest]) = if digest = "" then found log else some digest := by
    rw [found_append, List.foldl_cons, List.foldl_nil, carry]
    by_cases hd : digest = "" <;> simp [hd]
  refine ⟨?_, ?_, ?_, ?_, ?_, fun t ht => ?_, h.fair.concat trivial⟩
  · rw [hfound, System.take, State.digestOf, hdoc, State.setDigest]
    split
    · exact h.digest
    · rfl
  · rw [hfound]
    intro hl
    split
    · exact h.known (hloaded ▸ hl)
    · rfl
  · intro ds hds r hr
    rw [show (y.take (p, ts)).1.panel.docState = (y.panel.setDigest digest).docState from hdoc, State.setDigest] at hds
    split at hds
    · exact h.data ds hds r hr
    · cases hds
      obtain ⟨ds, hds, hdsr⟩ := Option.bind_eq_some_iff.mp hr
      have := h.data ds hds r hdsr
      rwa [State.dataOf, hds]
  · intro hr
    exact hloaded ▸ h.rows (hrows ▸ hr)
  · intro n e he hlist
    exact hloaded ▸ h.editor n e (heditor ▸ he) hlist
  · rw [show Loaded (y.take (p, ts)).1.panel = Loaded y.panel from hloaded]
    rcases List.mem_append.mp ht with ht | ht
    · exact h.tasks t ht
    · exact TaskOk.of_plain (hts t ht)

theorem got (h : Inv id y log) {by_ : Reader} {answer : Option ApiViewDocument}
    (hok : TaskOk id (Loaded y.panel) (.got by_ answer)) :
    Inv id (y.take (y.panel.got by_ answer)).1
      (log ++ (Task.landing (.got by_ answer) ++ (y.take (y.panel.got by_ answer)).2)) := by
  have hnone : Inv id (y.take (y.panel, [])).1 (log ++ (y.take (y.panel, [])).2) :=
    h.handles (.same : Handles _ _ none _) (by simp)
  cases answer with
  | none =>
    cases by_ with
    | enterText =>
      have hplain : Plain y.panel (y.panel.got .enterText none) := ⟨rfl, rfl, Or.inl rfl, by simp [State.got]⟩
      exact h.handles (.plain hplain : Handles _ _ none _) (by simp)
    | load | conflict | refresh => exact hnone
  | some doc =>
    cases by_ with
    | load =>
      unfold State.got Task.landing State.loaded
      dsimp only
      split
      · next hdata =>
        rw [hdata]
        exact hnone
      · next data err hdata =>
        rw [hdata]
        split
        · exact h.whole hok hdata rfl (by simp [Task.plain])
        · exact h.whole hok hdata rfl (by simp)
    | conflict edit =>
      unfold State.got Task.landing State.rereadInEditor
      dsimp only
      split
      · next hdata =>
        rw [hdata]
        exact hnone
      · next data err hdata =>
        rw [hdata]
        exact h.whole hok hdata rfl (by simp)
    | enterText =>
      have hset := fields_setDigest y.panel doc.digest
      exact h.alone rfl hset.1 hset.2 (by simp [Task.plain])
    | refresh keepBuffer =>
      obtain ⟨hdoc, hrows, heditor⟩ := fields_refreshed y.panel keepBuffer doc
      exact h.alone hdoc hrows heditor (by simp)

theorem callBack (h : Inv id y log) (ht : TaskOk id (Loaded y.panel) t) (yes : Bool) :
    Inv id (y.take (callBack y.panel yes t)).1 (log ++ (t.landing ++ (y.take (callBack y.panel yes t)).2)) := by
  by_cases hgot : ∃ by_ answer, t = .got by_ answer
  · obtain ⟨by_, answer, rfl⟩ := hgot
    exact h.got ht
  · rw [landing_of_not_got hgot, List.nil_append]
    refine h.handles (handles_callBack hgot (fun _ _ hrem => ?_) yes) fun w hw => ?_
    · subst hrem
      exact ht
    · cases t <;> cases hw
      · exact ht
      · exact ht

theorem serve (h : Inv id y log) (k : Nat) (prefixes : List PrefixDef) (acl : CallerAcl) :
    Inv id (serve id y k prefixes acl).1 (log ++ (serve id y k prefixes acl).2) := by
  have hset : ∀ {t' : Task}, TaskOk id (Loaded y.panel) t' → ∀ t ∈ y.tasks.set k t', TaskOk id (Loaded y.panel) t := by
    intro t' ht' t ht
    rcases List.mem_or_eq_of_mem_set ht with ht | rfl
    · exact h.tasks t ht
    · exact ht'
  unfold Panel.serve
  split
  · rw [List.append_nil]
    refine h.with_tasks (hset ?_)
    cases hget : getDocument y.store id none "yaml" true acl with
    | error e => exact True.intro
    | ok doc => exact ⟨y.store, acl, hget⟩
  · next w hw =>
    have hok := h.tasks _ (List.mem_of_getElem? hw)
    have hrest : Inv id ⟨((w.request id prefixes acl).run y.store).2, y.panel,
        y.tasks.set k (.wrote w (answerOf ((w.request id prefixes acl).run y.store).1))⟩ log := h.with_tasks (hset hok)
    refine ⟨?_, ?_, hrest.data, hrest.rows, hrest.editor, hrest.tasks, h.fair.concat ⟨hok.1, prefixes, acl, rfl, rfl⟩⟩
    · rw [found_append]
      exact hrest.digest
    · rw [found_append]
      exact hrest.known
  · rw [List.append_nil]
    exact h

theorem lose (h : Inv id y log) (k : Nat) : Inv id (lose y k) log := by
  have hset : ∀ {t' : Task}, TaskOk id (Loaded y.panel) t' → Inv id { y with tasks := y.tasks.set k t' } log := by
    intro t' ht'
    refine h.with_tasks fun t ht => ?_
    rcases List.mem_or_eq_of_mem_set ht with ht | rfl
    · exact h.tasks t ht
    · exact ht'
  unfold Panel.lose
  split
  · exact hset True.intro
  · exact hset True.intro
  · next w hw =>
    have hok := h.tasks _ (List.mem_of_getElem? hw)
    exact @hset (.wrote w .failed) hok
  · next w answer hw =>
    have hok := h.tasks _ (List.mem_of_getElem? hw)
    exact @hset (.wrote w .failed) hok
  · exact h

theorem land (h : Inv id y log) (k : Nat) (yes : Bool) : Inv id (land y k yes).1 (log ++ (land y k yes).2) := by
  unfold Panel.land
  split
  · next t ht =>
    split
    · have herase : ∀ t' ∈ y.tasks.eraseIdx k, TaskOk id (Loaded y.panel) t' := fun t' ht' =>
        h.tasks t' (List.mem_of_mem_eraseIdx ht')
      have hrest : Inv id { y with tasks := y.tasks.eraseIdx k } log := h.with_tasks herase
      exact hrest.callBack (h.tasks t (List.mem_of_getElem? ht)) yes
    · rw [List.append_nil]
      exact h
  · rw [List.append_nil]
    exact h

theorem step (h : Inv id y log) (move : Move) : Inv id (step id y move).1 (log ++ (step id y move).2) := by
  cases move with
  | others store =>
    rw [show (Panel.step id y (.others store)).2 = [] from rfl, List.append_nil]
    exact h.with_tasks h.tasks
  | serve k prefixes acl => exact h.serve k prefixes acl
  | lose k =>
    rw [show (Panel.step id y (.lose k)).2 = [] from rfl, List.append_nil]
    exact h.lose k
  | land k yes => exact h.land k yes
  | reload | toText | toTree | revert | type | apply | openValue | openKey | openMember | openAppend | ok | cancel | set
  | remove | removeMember => exact h.handles (Handles.act h.rows h.editor _) (by simp)

theorem run (store : MetaStore) (moves : List Move) :
    Inv id (run id (.start store) moves).1 (run id (.start store) moves).2 :=
  @Log.run_keeps _ _ _ (Panel.step id) (Inv id) (fun _ _ move h => h.step move) _ (start store) moves

end Inv

end

end Panel
end PveMeta
