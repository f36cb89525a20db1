import PveMeta.Lib.Log
import PveMeta.Request

/-! # The document panel

One document's editor in the web interface (`60-doc.js`, `61-text-card.js`, `62-tree-panel.js`): the document as rows
or as one text, the modal editors over the rows, and what is still to call back, be it a request, a question or the
text editor's script. A handler takes the panel to the panel, and to the tasks it leaves behind. -/

namespace PveMeta

namespace Panel
open Api

/-! ### Values in the browser -/

section

variable [Browser]

mutual

/-- A value as the browser holds it. -/
def js : Value → Value
  | .object m => .object (jsMembers m)
  | .array items => .array (jsItems items)
  | .number n => .number (Browser.number n)
  | .null => .null
  | .bool b => .bool b
  | .string s => .string s

def jsItems : List Value → List Value
  | [] => []
  | v :: items => js v :: jsItems items

def jsMembers : Members → Members
  | [] => []
  | (k, v) :: m => (k, js v) :: jsMembers m

end

/-- `Codec.parse` of YAML. -/
def parseYaml [Deps] (text : Text) : Except Error Value :=
  (View.parse text .yaml).map fun tree =>
    match tree.val with
    | .null => .object []
    | v => js v

end

/-- `path.split('.')` -/
def segments (path : String) : Path := (path.toList.splitOn '.').map String.ofList

/-- The value below some keys, each of them a map's own. -/
def descend : Value → Path → Option Value
  | v, [] => some v
  | .object m, key :: rest => (Assoc.get? key m).bind fun v => descend v rest
  | _, _ :: _ => none

/-- `Utils.valueAt`: the empty path is the document itself. -/
def valueAt (data : Value) (path : String) : Option Value :=
  if path = "" then some data else descend data (segments path)

/-- `Utils.sameValue` -/
def sameValue (a b : Value) : Bool := a == b

/-! ### The state -/

/-- `{ digest, data }`, and the digest of the read that brought the data. Nothing depends on that one. -/
structure DocState where
  digest : String
  data : Value
  read : Option String

inductive Mode where
  | tree
  | text
  deriving DecidableEq

/-- What an edit does at its path. -/
inductive Op where
  | set (value : Value)
  | delete

structure Edit where
  path : String
  op : Op

/-- A member of a list as its row showed it. -/
structure Member where
  index : Nat
  value : Value

/-- What a write of a list does to its members. -/
inductive ListChange where
  | replace (i : Nat) (v : Value)
  | drop (i : Nat)
  | append (v : Value)

def ListChange.apply (items : List Value) : ListChange → List Value
  | .replace i v => items.set i v
  | .drop i => items.eraseIdx i
  | .append v => items ++ [v]

/-- Where the list of a write comes from: the read that brought the document, and what was done to the list since. -/
structure ListWrite where
  read : Option String
  change : ListChange

/-- Who waits for the answer to a write. -/
inductive Asker where
  | editor (n : Nat)
  | text
  | nobody

/-- A write as it is sent. Without an edit it is the text card's whole document. Nothing depends on `list`. -/
structure Write where
  edit : Option Edit
  text : Text
  digest : String
  force : Bool
  asker : Asker
  list : Option ListWrite

/-- A modal editor: of one value or one subtree, of a key to come, of a member of a list, or of one more member. -/
inductive Editor where
  | value (path : String)
  | key
  | member (path : String) (member : Member)
  | append (path : String)

/-- Who reads the document. -/
inductive Reader where
  | load
  | conflict (edit : Edit)
  | enterText
  | refresh (keepBuffer : Bool)

/-- The answer to a write, as far as the panel tells answers apart. -/
inductive Answer where
  | ok
  | status (n : Nat)
  | failed
  deriving DecidableEq

/-- What is still to call back: the reads before the document's and the core, a read or a write on its way to the
    server or back, the text editor's script, or a question. -/
inductive Task where
  | rows
  | read (by_ : Reader)
  | got (by_ : Reader) (answer : Option ApiViewDocument)
  | monaco
  | write (w : Write)
  | wrote (w : Write) (answer : Answer)
  | saveAnyway (w : Write)
  | discard (leave : Bool)
  | remove (edit : Edit)
  | removeMember (path : String) (member : Member)

/-- `editor` is numbered, so that an answer finds the window that waits for it; `rows` is the document that the rows
    were built from. -/
structure State where
  docState : Option DocState
  mode : Mode
  rows : Option Value
  editor : Option (Nat × Editor)
  editors : Nat
  reloadPending : Bool
  docParseError : Option String
  textEditor : Option Text
  textOriginal : Text

/-- The panel before it is rendered. -/
def State.initial : State := ⟨none, .tree, none, none, 0, false, none, none, []⟩

namespace State

def digestOf (p : State) : String := (p.docState.map (·.digest)).getD ""

def dataOf (p : State) : Value := (p.docState.map (·.data)).getD (.object [])

/-- A document that is not there has no digest, and leaves the panel's as it was. -/
def setDigest (p : State) (digest : String) : State :=
  if digest = "" then p
  else { p with docState := some ⟨digest, p.dataOf, p.docState.bind (·.read)⟩ }

/-- A read that brings both. -/
def setDoc (p : State) (digest : String) (data : Value) : State := { p with docState := some ⟨digest, data, some digest⟩ }

/-- `textIsDirty` -/
def dirty (p : State) : Bool := p.textEditor.any (· != p.textOriginal)

/-! ### Loading -/

def reload (p : State) : State × List Task :=
  if p.mode = .text then (p, [])
  else if p.editor.isSome then ({ p with reloadPending := true }, [])
  else ({ p with reloadPending := false, docParseError := none }, [.rows])

def editorClosed (p : State) : State × List Task := if p.reloadPending then p.reload else (p, [])

/-- The editor with the number `n` is closed, if it is the one that is open. -/
def closeEditor (p : State) (n : Nat) : State × List Task :=
  if p.editor.any (·.1 == n) then editorClosed { p with editor := none } else (p, [])

def openEditor (p : State) (editor : Editor) : State :=
  { p with editor := some (p.editors, editor), editors := p.editors + 1 }

/-! ### The text card -/

def enterTextMode (p : State) : State × List Task := ({ p with mode := .text }, [.read .enterText])

def abortTextMode (p : State) : State := { p with mode := .tree }

def finishLeavingTextMode (p : State) : State × List Task := reload { p with textEditor := none, mode := .tree }

def leaveTextMode (p : State) : State × List Task :=
  if p.dirty then (p, [.discard true]) else p.finishLeavingTextMode

def refreshText (p : State) (keepBuffer : Bool) : State × List Task := (p, [.read (.refresh keepBuffer)])

def discardText (p : State) : State × List Task :=
  if p.dirty then (p, [.discard false]) else p.refreshText false

/-- `showTextEditor`, once its script is there. -/
def showTextEditor (p : State) : State := if p.mode = .text then { p with textEditor := some p.textOriginal } else p

def applyText (p : State) (force : Bool) : State × List Task :=
  match p.textEditor with
  | some buffer =>
    if buffer = p.textOriginal then (p, []) else (p, [.write ⟨none, buffer, p.digestOf, force, .text, none⟩])
  | none => (p, [])

/-! ### Writes -/

/-- The digest is looked up when the edit is sent, and again when it is sent again. -/
def sendEdit (p : State) (edit : Edit) (force : Bool) (asker : Asker) (list : Option ListWrite) : List Task :=
  [.write ⟨some edit, [], p.digestOf, force, asker, list⟩]

def listAt (p : State) (path : String) : List Value := ((valueAt p.dataOf path).bind Value.asArray).getD []

/-- The list with a change made to it, from the read that brought it. -/
def sendList (p : State) (path : String) (change : ListChange) (asker : Asker) : List Task :=
  p.sendEdit ⟨path, .set (.array (change.apply (p.listAt path)))⟩ false asker
    (some ⟨p.docState.bind (·.read), change⟩)

/-- One member replaced, or dropped; nothing if the member is not where its row showed it. -/
def writeListMember (p : State) (path : String) (member : Member) (value : Option Value) (asker : Asker) : List Task :=
  match (p.listAt path)[member.index]? with
  | none => []
  | some item =>
    if sameValue item member.value then
      p.sendList path (value.elim (.drop member.index) (.replace member.index)) asker
    else []

/-- What `addListMember` does on OK. -/
def appendListMember (p : State) (path : String) (value : Value) (asker : Asker) : List Task :=
  match valueAt p.dataOf path with
  | none | some (.array _) => p.sendList path (.append value) asker
  | some _ => []

/-- A 409: whichever copy of unwritten work there is decides how the document is read again. -/
def conflict (p : State) (edit : Option Edit) : State × List Task :=
  if p.mode = .text then p.refreshText true
  else
    match edit, p.editor with
    | some edit, some _ => (p, [.read (.conflict edit)])
    | _, _ => p.reload

/-- `onDone(true)` -/
def done (p : State) : Asker → State × List Task
  | .editor n => p.closeEditor n
  | .text => p.refreshText false
  | .nobody => (p, [])

/-- The answer to a write. -/
def answered (p : State) (w : Write) : Answer → State × List Task
  | .ok =>
    let (p, before) := p.reload
    let (p, after) := p.done w.asker
    (p, before ++ after)
  | .status 409 => p.conflict w.edit
  | .status 422 => (p, if w.force then [] else [.saveAnyway w])
  | .status _ | .failed => (p, [])

/-- "Save anyway": the same write again. -/
def saveAnyway (p : State) (w : Write) : State × List Task :=
  match w.edit with
  | some edit => (p, p.sendEdit edit true w.asker w.list)
  | none => p.applyText true

/-! ### Answers to a read -/

section

variable [Deps] [Browser]

/-- `readDocument`: the data and the parse error of an answer, unless the browser cannot parse the text. -/
def readDocument (doc : ApiViewDocument) : Option (Value × Option String) :=
  match doc.parseError.filter (· ≠ "") with
  | some err => some (.object [], some err)
  | none => (parseYaml (doc.text.getD [])).toOption.map fun data => (data, none)

/-- `loadDocument`: a document that does not parse is handed to the text card. -/
def loaded (p : State) (doc : ApiViewDocument) : State × List Task :=
  match readDocument doc with
  | none => (p, [])
  | some (data, err) =>
    let p := { p.setDoc doc.digest data with rows := some data }
    match err with
    | some err => enterTextMode { p with docParseError := some err }
    | none => (p, [])

/-- `conflictInEditor`: the document is read around the editor, and the rows are owed. -/
def rereadInEditor (p : State) (doc : ApiViewDocument) : State :=
  match readDocument doc with
  | none => p
  | some (data, _) => { p.setDoc doc.digest data with reloadPending := true }

def clearParseErrorIfSound (p : State) : State :=
  match p.docParseError, parseYaml p.textOriginal with
  | some _, .ok _ => { p with docParseError := none }
  | _, _ => p

def refreshed (p : State) (keepBuffer : Bool) (doc : ApiViewDocument) : State :=
  let p := clearParseErrorIfSound { p.setDigest doc.digest with textOriginal := doc.text.getD [] }
  if p.textEditor.isSome && ! keepBuffer then { p with textEditor := some p.textOriginal } else p

/-- The answer to a read lands; none is a read that failed. -/
def got (p : State) : Reader → Option ApiViewDocument → State × List Task
  | .load, some doc => p.loaded doc
  | .conflict _, some doc => (p.rereadInEditor doc, [])
  | .enterText, some doc => ({ p.setDigest doc.digest with textOriginal := doc.text.getD [] }, [.monaco])
  | .refresh keepBuffer, some doc => (p.refreshed keepBuffer doc, [])
  | .enterText, none => (p.abortTextMode, [])
  | .load, none | .conflict _, none | .refresh _, none => (p, [])

end

end State

/-! ### The panel and its server -/

/-- The store, the panel, and what is still to call back. -/
structure System where
  store : MetaStore
  panel : State
  tasks : List Task

/-- The panel is rendered, which begins its first load. -/
def System.start (store : MetaStore) : System := ⟨store, .initial, [.rows]⟩

/-- What happens next: others write, the server handles a request, a request or its answer is lost, something calls
    back (`yes` is the answer to a question, and whether the reads before the document's, the core or the script came),
    or the user does something. -/
inductive Move where
  | others (store : MetaStore)
  | serve (k : Nat) (prefixes : List PrefixDef) (acl : CallerAcl)
  | lose (k : Nat)
  | land (k : Nat) (yes : Bool)
  | reload
  | toText
  | toTree
  | revert
  | type (buffer : Text)
  | apply
  | openValue (path : String)
  | openKey
  | openMember (path : String) (i : Nat)
  | openAppend (path : String)
  | ok (path : String) (value : Value)
  | cancel
  | set (path : String) (value : Value)
  | remove (path : String)
  | removeMember (path : String) (i : Nat)

/-- What a log of a run holds: an answer to a read that the panel took over, with or without the data; a write that
    was sent; and a write that the server handled, between two states of the store. -/
inductive Out where
  | landed (whole : Bool) (digest : String)
  | sent (w : Write)
  | handled (w : Write) (answer : Answer) (before after : MetaStore)

/-- The member at `i` of the list at `path`, as its row shows it. -/
def State.memberOf (p : State) (path : String) (i : Nat) : Option Member := do
  let rows ← p.rows
  let items ← (valueAt rows path).bind Value.asArray
  let item ← items[i]?
  return ⟨i, item⟩

def State.ok (p : State) (path : String) (value : Value) : List Task :=
  match p.editor with
  | none => []
  | some (n, .value path) => p.sendEdit ⟨path, .set value⟩ false (.editor n) none
  | some (n, .key) => p.sendEdit ⟨path, .set value⟩ false (.editor n) none
  | some (n, .member path member) => p.writeListMember path member (some value) (.editor n)
  | some (n, .append path) => p.appendListMember path value (.editor n)

/-- What the user does to the panel. -/
def State.act (p : State) : Move → State × List Task
  | .reload => p.reload
  | .toText => if p.mode = .text then (p, []) else p.enterTextMode
  | .toTree => if p.mode = .tree ∨ p.docParseError.isSome then (p, []) else p.leaveTextMode
  | .revert => if p.mode = .text then p.discardText else (p, [])
  | .type buffer => ({ p with textEditor := p.textEditor.map fun _ => buffer }, [])
  | .apply => p.applyText false
  | .openValue path => (p.openEditor (.value path), [])
  | .openKey => (p.openEditor .key, [])
  | .openMember path i =>
    match p.memberOf path i with
    | none => (p, [])
    | some member =>
      -- A member with a structure of its own is edited as text, in the list it is in.
      if member.value.isObject || member.value.isArray then (p.openEditor (.value path), [])
      else (p.openEditor (.member path member), [])
  | .openAppend path => (if p.rows.isSome then p.openEditor (.append path) else p, [])
  | .ok path value => (p, p.ok path value)
  | .cancel =>
    match p.editor with
    | some (n, _) => p.closeEditor n
    | none => (p, [])
  | .set path value => (p, p.sendEdit ⟨path, .set value⟩ false .nobody none)
  | .remove path => (p, [.remove ⟨path, .delete⟩])
  | .removeMember path i =>
    match p.memberOf path i with
    | none => (p, [])
    | some member => (p, [.removeMember path member])
  | .others _ | .serve .. | .lose _ | .land .. => (p, [])

section

variable [Deps] [Browser]

/-- `writeFor`, and what the text card sends. -/
def Write.request (id : String) (prefixes : List PrefixDef) (acl : CallerAcl) (w : Write) : Request :=
  match w.edit with
  | some ⟨path, .delete⟩ => .delete ⟨id, some path, some w.digest, acl⟩
  | some ⟨path, .set value⟩ =>
    .put ⟨prefixes, id, if path = "" then none else some path, "json", Browser.encode value, "replace", some w.digest,
      false, w.force, true, acl⟩
  | none => .put ⟨prefixes, id, none, "yaml", w.text, "replace", some w.digest, false, w.force, true, acl⟩

def answerOf (r : Except ApiError ApiPutResult) : Answer :=
  match r with
  | .ok _ => .ok
  | .error e => .status e.status

/-- A task calls back, or is asked about. -/
def callBack (p : State) (yes : Bool) : Task → State × List Task
  | .rows => (p, if yes then [.read .load] else [])
  | .got by_ answer => p.got by_ answer
  | .monaco => (if yes then p.showTextEditor else p.abortTextMode, [])
  | .wrote w answer => p.answered w answer
  | .saveAnyway w => if yes then p.saveAnyway w else (p, [])
  | .discard leave =>
    if yes then if leave then p.finishLeavingTextMode else p.refreshText false
    else (p, [])
  | .remove edit => (p, if yes then p.sendEdit edit false .nobody none else [])
  | .removeMember path member => (p, if yes then p.writeListMember path member none .nobody else [])
  | .read _ | .write _ => (p, [])

/-- The answer that a task has for the panel, if it is a read's and the panel takes it over. -/
def Task.landing : Task → List Out
  | .got .load (some doc) | .got (.conflict _) (some doc) =>
    if (State.readDocument doc).isSome then [.landed true doc.digest] else []
  | .got .enterText (some doc) | .got (.refresh _) (some doc) => [.landed false doc.digest]
  | _ => []

/-- A task that waits for the panel, not for the server. -/
def Task.here : Task → Bool
  | .read _ | .write _ => false
  | _ => true

def Task.sent : Task → Option Out
  | .write w => some (.sent w)
  | _ => none

/-- The panel is as a handler left it, and the handler's tasks are added. -/
def System.take (y : System) (r : State × List Task) : System × List Out :=
  ({ y with panel := r.1, tasks := y.tasks ++ r.2 }, r.2.filterMap Task.sent)

def serve (id : String) (y : System) (k : Nat) (prefixes : List PrefixDef) (acl : CallerAcl) : System × List Out :=
  match y.tasks[k]? with
  | some (.read by_) =>
    ({ y with tasks := y.tasks.set k (.got by_ (getDocument y.store id none "yaml" true acl).toOption) }, [])
  | some (.write w) =>
    let (r, store) := (w.request id prefixes acl).run y.store
    ({ y with store, tasks := y.tasks.set k (.wrote w (answerOf r)) }, [.handled w (answerOf r) y.store store])
  | _ => (y, [])

def lose (y : System) (k : Nat) : System :=
  match y.tasks[k]? with
  | some (.read by_) | some (.got by_ _) => { y with tasks := y.tasks.set k (.got by_ none) }
  | some (.write w) | some (.wrote w _) => { y with tasks := y.tasks.set k (.wrote w .failed) }
  | _ => y

def land (y : System) (k : Nat) (yes : Bool) : System × List Out :=
  match y.tasks[k]? with
  | some task =>
    if task.here then
      let r := ({ y with tasks := y.tasks.eraseIdx k } : System).take (callBack y.panel yes task)
      (r.1, task.landing ++ r.2)
    else (y, [])
  | none => (y, [])

/-- `id` is the document's. -/
def step (id : String) (y : System) : Move → System × List Out
  | .others store => ({ y with store }, [])
  | .serve k prefixes acl => serve id y k prefixes acl
  | .lose k => (lose y k, [])
  | .land k yes => land y k yes
  | move => y.take (y.panel.act move)

def run (id : String) (y : System) (moves : List Move) : System × List Out := Log.run (step id) y moves

end

end Panel
end PveMeta
