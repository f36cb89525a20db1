import PveMeta.Store
import PveMeta.View

/-! # The API layer

Reads and writes of a document by id (`api.rs`). A write is parsed and authorized, checked against the
digest it carries, planned on a copy of what is stored, and only then applied. -/

namespace PveMeta

structure ApiError where
  status : Nat
  msg : String
  deriving DecidableEq

namespace Api

/-! ### Errors -/

def showDigest (d : String) : String := if d.isEmpty then "<empty>" else d

def statusOf : Error → Nat
  | .digestMismatch .. => 409
  | .notFound _ => 404
  | .lint _ | .parse .. | .invalidPath _ | .invalidName _ | .registry _ | .tooLarge .. => 400
  | .unavailable _ => 503
  | .io _ => 500

/-- `ApiError::from` -/
def ofError (e : Error) : ApiError :=
  ⟨statusOf e, match e with
    | .digestMismatch expected actual =>
      "digest mismatch: expected " ++ showDigest expected ++ ", actual " ++ showDigest actual
    | e => e.display⟩

/-- `?` on a core result. -/
def lift {α : Type} (r : Except Error α) : Except ApiError α := r.mapError ofError

def badRequest (msg : String) : ApiError := ⟨400, msg⟩

def forbidden (path : Path) : ApiError :=
  if path.isRoot then ⟨403, "not permitted: the whole document"⟩ else ⟨403, "not permitted: " ++ path.display⟩

/-! ### Parameters -/

/-- A vmid, or `prefixes/<name>`. -/
def parseId (id : String) : Except ApiError DocId :=
  match Text.splitOnce '/' id.toList with
  | some (kind, name) =>
    let kind := String.ofList kind
    let name := String.ofList name
    if kind ≠ "prefixes" then
      .error (badRequest ("invalid id '" ++ id ++ "': unknown registry kind '" ++ kind ++ "' (expected 'prefixes')"))
    else if ! Registry.isValidFileName name then
      .error (badRequest ("invalid id '" ++ id ++ "': '" ++ name ++ "' is not a valid prefixes name"))
    else .ok (.registry .prefixDef name)
  | none =>
    match Text.parseU32 id.toList with
    | some vmid => .ok (.guest vmid)
    | none => .error (badRequest ("invalid id '" ++ id ++ "': must be a vmid or 'prefixes/<name>'"))

def parseView (view : Option String) : Except ApiError Path :=
  match view with
  | some s => lift (Path.parse s)
  | none => .ok Path.root

def viewOut (view : Option String) : String := view.getD ""

def parseViewFormat (name : String) : Except ApiError Format :=
  match Format.fromExt name with
  | some format => .ok format
  | none => .error (badRequest ("invalid format '" ++ name ++ "': expected 'json' or 'yaml'"))

/-- The caller, as Perl computes it. -/
structure CallerAcl where
  authid : String
  read : Bool
  write : Bool
  tags : List String
  node : Option NodeName

structure ApiTouched where
  path : String
  op : String
  deriving DecidableEq

structure ApiPutResult where
  id : String
  view : String
  digest : String
  touched : List ApiTouched
  deriving DecidableEq

structure ApiViewDocument where
  id : String
  view : String
  digest : String
  data : Option Value
  text : Option Text
  parseError : Option String

def touchedOut (touched : List Touched) : List ApiTouched :=
  touched.map fun t =>
    ⟨t.path.display, match t.op with
      | .set => "set"
      | .delete => "delete"⟩

/-! ### Reading -/

/-- What one read gave: the stored map, or the empty one with a reason if the file is there but is not
    one; the digest on disk, empty for no file; and the file's text if it was read. -/
structure Stored where
  value : Tree
  digest : String
  unrecoverable : Option String
  raw : Option Text
  mapping : value.val.isObject = true

namespace Stored

def absent : Stored := ⟨Tree.empty, "", none, none, rfl⟩

end Stored

/-- The empty document and the reason. -/
def unrecoverable (digest : String) (raw : Option Text) (reason : String) : Stored :=
  ⟨Tree.empty, digest, some reason, raw, rfl⟩

section

variable [Deps]

/-- Reads a document without ever failing on its content. -/
def readStored (s : MetaStore) (id : DocId) : Except ApiError Stored :=
  match s.read id with
  | .error (.notFound _) => .ok Stored.absent
  | .error e@(.tooLarge ..) | .error e@(.parse ..) => do
    let digest ← lift (s.digestOf id)
    return unrecoverable (digest.getD "") none e.display
  | .error e => .error (ofError e)
  | .ok doc =>
    match doc.parseError with
    | some err => .ok (unrecoverable doc.digest (some doc.raw) err)
    | none =>
      if h : doc.value.val.isObject = true then .ok ⟨doc.value, doc.digest, none, some doc.raw, h⟩
      else .ok (unrecoverable doc.digest (some doc.raw) "the stored document is not a mapping")

/-- `GET` of a document. -/
def getDocument (s : MetaStore) (id : String) (view : Option String) (formatName : String) (comments : Bool)
    (acl : CallerAcl) : Except ApiError ApiViewDocument := do
  let docId ← parseId id
  let fmt ← parseViewFormat formatName
  let viewPath ← parseView view
  if ! acl.read then .error (forbidden viewPath) else .ok ()
  let stored ← readStored s docId
  match stored.unrecoverable with
  | some err =>
    match fmt, comments, stored.raw with
    | .yaml, true, some raw => return ⟨docId.display, viewOut view, stored.digest, none, some raw, some err⟩
    | _, _, _ =>
      .error ⟨422, "the stored document cannot be rendered: " ++ err ++
        " (read it raw with format=yaml&comments=1 (CLI: --comments); " ++
        "replace it with a full document (no 'view', mode=replace) or delete it)"⟩
  | none =>
    let base := if comments then stored.value.val else View.stripComments stored.value.val
    let value ← if view.isSome then (lift (View.extract base viewPath)).map fun v => v.getD (.object []) else .ok base
    match fmt with
    | .json => return ⟨docId.display, viewOut view, stored.digest, some value, none, none⟩
    | .yaml =>
      -- The whole document with its notes is the file's own text.
      let text := match view, stored.raw.filter fun raw => ! raw.isEmpty && comments with
        | none, some raw => raw
        | _, _ => View.render value .yaml
      return ⟨docId.display, viewOut view, stored.digest, none, some text, none⟩

/-! ### Listing -/

/-- A row of the vmlist as Perl hands it over, with whether the caller may read the guest. -/
structure GuestInput where
  vmid : UInt32
  node : Option String
  kind : Option String
  name : Option String
  tags : List String
  read : Bool

structure GuestListEntry where
  vmid : UInt32
  node : Option String
  kind : Option String
  name : Option String
  tags : List String
  digest : String
  deriving DecidableEq

def GuestInput.entry (guest : GuestInput) (digest : String) : GuestListEntry :=
  ⟨guest.vmid, guest.node, guest.kind, guest.name, guest.tags, digest⟩

/-- The row of one guest, unless the listing leaves it out. -/
def listGuest (s : MetaStore) (hasPath : Option Path) (guest : GuestInput) : Except ApiError (Option GuestListEntry) :=
  if ! guest.read then .ok none
  else
    match hasPath with
    | some path => do
      let stored ← readStored s (.guest guest.vmid)
      if (getPath (View.stripComments stored.value.val) path).isNone then return none
      else return some (guest.entry stored.digest)
    | none => do
      let digest ← lift (s.digestOf (.guest guest.vmid))
      return some (guest.entry (digest.getD ""))

/-- The guests the caller may read, those with a value at `has` if it is given. -/
def listGuests (s : MetaStore) (guests : List GuestInput) (has : Option String) :
    Except ApiError (List GuestListEntry) := do
  let hasPath ← match has with
    | some has => (lift (Path.parse has)).map some
    | none => .ok none
  let rows ← guests.mapM (listGuest s hasPath)
  return rows.filterMap id

/-! ### Planning a write -/

/-- An unrecoverable document takes a write of the whole document only. -/
def checkRepairable (stored : Stored) (viewPath : Path) (isMerge : Bool) : Except ApiError Unit :=
  match stored.unrecoverable with
  | none => .ok ()
  | some err =>
    if viewPath.isRoot && ! isMerge then .ok ()
    else .error (badRequest
      ("the stored document cannot be read back and can only be repaired as a whole: " ++
        "replace it with a full document (no 'view', mode=replace) or delete it (" ++ err ++ ")"))

def authorizeWrite (acl : CallerAcl) : Except ApiError Unit :=
  if acl.write then .ok () else .error ⟨403, "not permitted: no write access to this document"⟩

/-- Mutates a copy and lints it; `keptNotes` marks a finding on a note as one of a stored note. -/
def planWrite (keptNotes : Bool) (result : Except Error (List Touched) × Value) :
    Except ApiError (List Touched × Value) := do
  let touched ← lift result.1
  let lints := lint result.2
  if lints.isEmpty then return (touched, result.2)
  else
    let detail := joinWith "; " <| lints.map fun l =>
      if keptNotes && View.namesComment l.path then l.display ++ " (a stored note; fix it with comments=1)"
      else l.display
    .error (badRequest ("document failed validation: " ++ detail))

/-- The text of a prefix file has to be one. -/
def checkRegistryShape (docId : DocId) (text : Text) : Except ApiError Unit :=
  match docId with
  | .guest _ => .ok ()
  | .registry kind name =>
    match Registry.parsePrefix name text with
    | .ok _ => .ok ()
    | .error e => .error (badRequest ("the result would not be a valid " ++ kind.noun ++ ": " ++ e.display ++
        " (the loader would skip the file, so the write is refused instead)"))

/-- The enforced schemas refuse a write that introduces a finding. -/
def checkEnforced (prefixes : List PrefixDef) (docId : DocId) (stored planned : Value) (touched : List Touched) :
    Except ApiError Unit :=
  match docId with
  | .registry .. => .ok ()
  | .guest _ =>
    let shape := Shape.ofGuest prefixes
    let refused := Shape.introduced (shape.enforcedFindings stored) (shape.enforcedFindings planned)
      (touched.map (·.path))
    if refused.isEmpty then .ok ()
    else .error ⟨422, "the result does not match an enforced schema: " ++
      joinWith "; " (refused.map fun f => f.path.display ++ ": " ++ f.msg) ++
      " (the prefix declares enforce: true; pass force=1 to store it anyway)"⟩

structure PutRequest where
  prefixes : List PrefixDef
  id : String
  view : Option String
  formatName : String
  payload : Text
  mode : String
  digest : Option String
  dryRun : Bool
  force : Bool
  comments : Bool
  acl : CallerAcl

/-- A `PUT` whose parameters are in order and whose caller may write. -/
structure ParsedPut where
  docId : DocId
  viewPath : Path
  isMerge : Bool
  payload : Tree
  keepNotes : Bool

def parsePut (req : PutRequest) : Except ApiError ParsedPut := do
  let docId ← parseId req.id
  let fmt ← parseViewFormat req.formatName
  let viewPath ← parseView req.view
  authorizeWrite req.acl
  let isMerge ←
    if req.mode = "merge" then .ok true
    else if req.mode = "replace" ∨ req.mode = "" then .ok false
    else .error (badRequest ("invalid mode '" ++ req.mode ++ "': expected 'replace' or 'merge'"))
  let payload ← lift (if isMerge then View.parsePatch req.payload fmt else View.parse req.payload fmt)
  return ⟨docId, viewPath, isMerge, payload, ! isMerge && ! req.comments⟩

/-- What a write would do to the document it was planned against. -/
structure Plan where
  planned : Value
  touched : List Touched
  text : Text

/-- The mutation of a `PUT`: a merge, or a replace that keeps the stored notes unless told not to. -/
def mutatePut (p : ParsedPut) (v : Value) : Except Error (List Touched) × Value :=
  if p.isMerge then View.merge v p.viewPath p.payload.val
  else
    match View.extract v p.viewPath with
    | .error e => (.error e, v)
    | .ok (some old) =>
      View.replace v p.viewPath (if p.keepNotes then View.keepComments old p.payload.val else p.payload.val)
    | .ok none => View.replace v p.viewPath p.payload.val

/-- Everything `put_document` does between the read and the write. -/
def planPut (req : PutRequest) (p : ParsedPut) (stored : Stored) : Except ApiError Plan := do
  checkRepairable stored p.viewPath p.isMerge
  let (touched, planned) ← planWrite p.keepNotes (mutatePut p stored.value.val)
  let text := MetaStore.diskFormat.dump planned
  checkRegistryShape p.docId text
  (if req.force then .ok () else checkEnforced req.prefixes p.docId stored.value.val planned touched)
  return ⟨planned, touched, text⟩

/-- A write that changes nothing rewrites nothing. -/
def unchanged (stored : Stored) (plan : Plan) : Bool :=
  plan.touched.isEmpty && stored.unrecoverable.isNone && stored.raw == some plan.text

/-- The digest of what is stored when the write is done, which a dry run answers without the write. -/
def applyPut (s : MetaStore) (req : PutRequest) (docId : DocId) (stored : Stored) (plan : Plan) :
    Except ApiError String × MetaStore :=
  if req.dryRun || unchanged stored plan then
    ((do
      if unchanged stored plan then .ok () else lift (MetaStore.checkSize (Text.byteLen plan.text))
      return MetaStore.digest (Text.encode plan.text)), s)
  else
    let (r, s) := s.putRaw docId plan.text req.digest
    (lift (r.map (·.digest)), s)

/-- `put_document` up to the write. -/
def preparePut (s : MetaStore) (req : PutRequest) : Except ApiError (ParsedPut × Stored × Plan) := do
  let p ← parsePut req
  lift (s.checkPrecondition p.docId req.digest)
  let stored ← readStored s p.docId
  let plan ← planPut req p stored
  return (p, stored, plan)

/-- `PUT` of a document. -/
def putDocument (s : MetaStore) (req : PutRequest) : Except ApiError ApiPutResult × MetaStore :=
  match preparePut s req with
  | .error e => (.error e, s)
  | .ok (p, stored, plan) =>
    let (r, s) := applyPut s req p.docId stored plan
    (r.map fun digest => ⟨p.docId.display, viewOut req.view, digest, touchedOut plan.touched⟩, s)

structure DeleteRequest where
  id : String
  view : Option String
  digest : Option String
  acl : CallerAcl

def parseDelete (req : DeleteRequest) : Except ApiError (DocId × Path) := do
  let docId ← parseId req.id
  let viewPath ← parseView req.view
  authorizeWrite req.acl
  return (docId, viewPath)

/-- Everything `delete_document` does between the reads and the write; `ownFile` is whether the document
    has a file where a write of it lands. -/
def planDelete (docId : DocId) (viewPath : Path) (stored : Stored) (ownFile : Bool) : Except ApiError Plan := do
  match docId with
  | .registry kind name =>
    if ! ownFile && viewPath.isRoot && ! stored.digest.isEmpty then
      .error ⟨404, "no cluster file for " ++ kind.noun ++ " '" ++ name ++ "' (the packaged file cannot be removed)"⟩
    else .ok ()
  | .guest _ => .ok ()
  let (touched, planned) ← planWrite false (View.remove stored.value.val viewPath)
  return ⟨planned, touched, MetaStore.diskFormat.dump planned⟩

/-- The digest of what is stored when the delete is done. -/
def applyDelete (s : MetaStore) (req : DeleteRequest) (docId : DocId) (viewPath : Path) (stored : Stored)
    (plan : Plan) : Except ApiError String × MetaStore :=
  if viewPath.isRoot then
    let (r, s) := s.delete docId
    (lift (r.map fun _ => ""), s)
  else if plan.touched.isEmpty then (.ok stored.digest, s)
  else if ! stored.digest.isEmpty then
    match checkRegistryShape docId plan.text with
    | .error e => (.error e, s)
    | .ok () =>
      let (r, s) := s.putRaw docId plan.text req.digest
      (lift (r.map (·.digest)), s)
  else (.ok "", s)

/-- `delete_document` up to the write. -/
def prepareDelete (s : MetaStore) (req : DeleteRequest) : Except ApiError (DocId × Path × Stored × Plan) := do
  let (docId, viewPath) ← parseDelete req
  lift (s.checkPrecondition docId req.digest)
  let stored ← readStored s docId
  checkRepairable stored viewPath false
  let ownFile ← lift (s.hasOwnFile docId)
  let plan ← planDelete docId viewPath stored ownFile
  return (docId, viewPath, stored, plan)

/-- `DELETE` of a document, or of a view of it. -/
def deleteDocument (s : MetaStore) (req : DeleteRequest) : Except ApiError ApiPutResult × MetaStore :=
  match prepareDelete s req with
  | .error e => (.error e, s)
  | .ok (docId, viewPath, stored, plan) =>
    let (r, s) := applyDelete s req docId viewPath stored plan
    (r.map fun digest => ⟨docId.display, viewOut req.view, digest, touchedOut plan.touched⟩, s)

end

end Api
end PveMeta
