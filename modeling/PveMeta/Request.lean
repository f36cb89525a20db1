import PveMeta.Api

/-! # A write, step by step

A call of `put_document` or `delete_document` is a check of its parameters and its precondition, a plan made
on what is stored, and the write of the plan. The steps stand on their own here, as the file may be looked
at between any two of them. -/

namespace PveMeta
open Api MetaStore

/-- A call that writes. -/
inductive Request where
  | put (req : PutRequest)
  | delete (req : DeleteRequest)

/-- What a write does to the file that it may write. -/
inductive Change where
  | keep
  | remove
  | write (text : Text)

namespace Change

/-- The store with the change made to the document `d`. -/
def apply (s : MetaStore) (d : DocId) : Change → MetaStore
  | .keep => s
  | .remove => { s with files := Assoc.erase (s.pathFor d) s.files }
  | .write text => { s with files := Assoc.insert (s.pathFor d) ⟨Text.encode text, s.now⟩ s.files }

/-- The change of the file itself; `now` is when it is made. -/
def file (now : Fin (2 ^ 63 * 10 ^ 9)) (own : Option File) : Change → Option File
  | .keep => own
  | .remove => none
  | .write text => some ⟨Text.encode text, now⟩

end Change

namespace Request

def id : Request → String
  | .put req => req.id
  | .delete req => req.id

def view : Request → Option String
  | .put req => req.view
  | .delete req => req.view

def digest : Request → Option String
  | .put req => req.digest
  | .delete req => req.digest

def dryRun : Request → Bool
  | .put req => req.dryRun
  | .delete _ => false

/-- The same call for another document, with another precondition. -/
def carrying (id : String) (digest : Option String) : Request → Request
  | .put req => .put { req with id, digest }
  | .delete req => .delete { req with id, digest }

section

variable [Deps]

/-- The document and the view a call is about, once its parameters are in order. -/
def target : Request → Except ApiError (DocId × Path)
  | .put req => (parsePut req).map fun p => (p.docId, p.viewPath)
  | .delete req => parseDelete req

/-- Up to the precondition. -/
def check (s : MetaStore) (r : Request) : Except ApiError Unit := do
  let (docId, _) ← r.target
  lift (s.checkPrecondition docId r.digest)

/-- From the read to the plan. -/
def plan (s : MetaStore) : Request → Except ApiError (Stored × Plan)
  | .put req => do
    let p ← parsePut req
    let stored ← readStored s p.docId
    let plan ← planPut req p stored
    return (stored, plan)
  | .delete req => do
    let (docId, viewPath) ← parseDelete req
    let stored ← readStored s docId
    checkRepairable stored viewPath false
    let ownFile ← lift (s.hasOwnFile docId)
    let plan ← planDelete docId viewPath stored ownFile
    return (stored, plan)

/-- The write of the plan, and the digest it answers with. -/
def apply (s : MetaStore) (stored : Stored) (plan : Plan) (r : Request) : Except ApiError String × MetaStore :=
  match r.target with
  | .error e => (.error e, s)
  | .ok (docId, viewPath) =>
    match r with
    | .put req => applyPut s req docId stored plan
    | .delete req => applyDelete s req docId viewPath stored plan

/-- The whole call. -/
def run (s : MetaStore) : Request → Except ApiError ApiPutResult × MetaStore
  | .put req => putDocument s req
  | .delete req => deleteDocument s req

/-- What the write of a plan does to the file, if it is not refused. -/
def change (viewPath : Path) (stored : Stored) (plan : Plan) : Request → Change
  | .put req => if req.dryRun || unchanged stored plan then .keep else .write plan.text
  | .delete _ =>
    if viewPath.isRoot then .remove
    else if plan.touched.isEmpty || stored.digest.isEmpty then .keep
    else .write plan.text

end

end Request
end PveMeta
