import PveMeta.Patch
import PveMeta.Format

/-! # Views

Reads and writes of a document below a prefix, through maps only (`view.rs`). The mutating operations
work in place: what they return is their result next to the document as they leave it, on an error
too. -/

namespace PveMeta
namespace View

def blocked (p : Path) : Error :=
  .invalidPath (p.display ++ ": a view prefix may only address into maps, never through an array or a scalar")

/-! ### Descents -/

/-- The value at the segments of a path, `full` being the path an error names. -/
def descendFrom (full : Path) (doc : Value) : Path → Except Error (Option Value)
  | [] => .ok (some doc)
  | seg :: rest =>
    match doc with
    | .object m =>
      match Assoc.get? seg m with
      | some v => descendFrom full v rest
      | none => .ok none
    | _ => .error (blocked full)

/-- `Ok(None)` means that some segment is simply missing. -/
def descend (doc : Value) (path : Path) : Except Error (Option Value) := descendFrom path doc path

/-- `descend_mut`, with what the caller does to the value it is handed. -/
def descendMutFrom {α : Type} (full : Path) (act : Value → Except Error α × Value) (doc : Value) :
    Path → Except Error (Option α) × Value
  | [] =>
    let (r, doc) := act doc
    (r.map some, doc)
  | seg :: rest =>
    match doc with
    | .object m =>
      match Assoc.get? seg m with
      | some v =>
        let (r, v) := descendMutFrom full act v rest
        (r, .object (Assoc.insert seg v m))
      | none => (.ok none, .object m)
    | v => (.error (blocked full), v)

def descendMut {α : Type} (doc : Value) (path : Path) (act : Value → Except Error α × Value) :
    Except Error (Option α) × Value :=
  descendMutFrom path act doc path

/-- `descend_creating`, with what the caller does to the map it is handed. A missing segment is created
    as an empty map before the descent goes on below it. -/
def descendCreatingFrom {α : Type} (full : Path) (act : Members → α × Members) (doc : Value) :
    Path → Except Error α × Value
  | [] =>
    match doc with
    | .object m =>
      let (a, m) := act m
      (.ok a, .object m)
    | v => (.error (blocked full), v)
  | seg :: rest =>
    match doc with
    | .object m =>
      let (r, v) := descendCreatingFrom full act ((Assoc.get? seg m).getD (.object [])) rest
      (r, .object (Assoc.insert seg v m))
    | v => (.error (blocked full), v)

def descendCreating {α : Type} (doc : Value) (path : Path) (act : Members → α × Members) : Except Error α × Value :=
  descendCreatingFrom path act doc path

/-! ### Reading and writing a subtree -/

/-- The subtree at `pre`; `Ok(None)` if nothing is there. -/
def extract (doc : Value) (pre : Path) : Except Error (Option Value) := descend doc pre

/-- What a replace reports, the key having held `old`. -/
def replaceTouched (pre : Path) (old : Option Value) (subtree : Value) : List Touched :=
  match old with
  | some old => Patch.diffAt pre old subtree
  | none =>
    let touched := Patch.diffAt pre (.object []) subtree
    -- An empty map that was not there is a change, though the diff of the contents is empty.
    if touched.isEmpty then [⟨pre, .set⟩] else touched

/-- Replaces the subtree at `pre`, creating the maps above it that are missing. -/
def replace (doc : Value) (pre : Path) (subtree : Value) : Except Error (List Touched) × Value :=
  match pre.parent, pre.last with
  | some parentPath, some key =>
    let (r, doc) := descendCreating doc parentPath fun m => (Assoc.get? key m, Assoc.insert key subtree m)
    (r.map fun old => replaceTouched pre old subtree, doc)
  | _, _ => (.ok (Patch.diff doc subtree), subtree)

/-- What a merge starts from: the map that is there, an empty one instead of anything else. -/
def scratchOf : Option Value → Value
  | some (.object m) => .object m
  | _ => .object []

/-- A merge patch on a copy of what is at `pre`. A value that becomes a map is a change even if the patch
    writes nothing into it. -/
def mergeScratch (pre : Path) (existing : Option Value) (patch : Value) : List Touched × Value :=
  let (touched, scratch) := Patch.applyObj (scratchOf existing) patch pre
  if existing.isSome && ! existing.any Value.isObject && touched.isEmpty then ([⟨pre, .set⟩], scratch)
  else (touched, scratch)

/-- Applies a merge patch to the subtree at `pre`. A patch that changes nothing creates nothing. -/
def merge (doc : Value) (pre : Path) (patch : Value) : Except Error (List Touched) × Value :=
  match pre.parent, pre.last with
  | some parentPath, some key =>
    match descend doc pre with
    | .error e => (.error e, doc)
    | .ok existing =>
      let (touched, scratch) := mergeScratch pre existing patch
      if touched.isEmpty then (.ok [], doc)
      else
        let (r, doc) := descendCreating doc parentPath fun m => ((), Assoc.insert key scratch m)
        (r.map fun () => touched, doc)
  | _, _ =>
    let (touched, doc) := Patch.applyPatch doc patch
    (.ok touched, doc)

/-- Takes `key` and its note out of a map at `parentPath`. -/
def removeKey (parentPath : Path) (key : String) (m : Members) : List Touched × Members :=
  let note := key ++ commentSuffix
  let noted := if (Assoc.get? note m).isSome then [⟨parentPath.join note, .delete⟩] else []
  let m := Assoc.erase note m
  let pre := parentPath.join key
  let own := match Assoc.get? key m with
    | some (.object old) =>
      let below := Patch.diffAt pre (.object old) (.object [])
      if below.isEmpty then [⟨pre, .delete⟩] else below
    | some _ => [⟨pre, .delete⟩]
    | none => []
  (noted ++ own, Assoc.erase key m)

/-- `removeKey` in the value that a descent found at `parentPath`. -/
def removeIn (parentPath : Path) (key : String) : Value → Except Error (List Touched) × Value
  | .object m =>
    let (touched, m) := removeKey parentPath key m
    (.ok touched, .object m)
  | v => (.error (blocked (parentPath.join key)), v)

/-- Removes the subtree at `pre` and the note about it; at the root, empties the document. -/
def remove (doc : Value) (pre : Path) : Except Error (List Touched) × Value :=
  match pre.parent, pre.last with
  | some parentPath, some key =>
    let (r, doc) := descendMut doc parentPath (removeIn parentPath key)
    (r.map fun touched => touched.getD [], doc)
  | _, _ => (.ok (Patch.diff doc (.object [])), .object [])

/-! ### Notes -/

mutual

/-- A value without its comment keys, at any depth. -/
def stripComments : Value → Value
  | .object m => .object (stripMembers m)
  | .array items => .array (stripItems items)
  | .null => .null
  | .bool b => .bool b
  | .number n => .number n
  | .string s => .string s

def stripItems : List Value → List Value
  | [] => []
  | v :: items => stripComments v :: stripItems items

def stripMembers : Members → Members
  | [] => []
  | (k, v) :: m => if isCommentKey k then stripMembers m else (k, stripComments v) :: stripMembers m

end

/-- A path that names a note. -/
def namesComment (p : Path) : Bool := p.any isCommentKey

/-- The key a note is about, the empty one for the note of a map. -/
def noteSubject (k : String) : Option String :=
  (Text.stripSuffix commentSuffix.toList k.toList).map String.ofList

def position (k : String) (m : Members) : Option Nat := m.findIdx? (·.1 == k)

/-- Puts the notes of a stored map back into `out`: each after the nearest key that stood before it and
    is still there. `before` holds the keys that preceded in `whole`, the nearest first. -/
def placeNotes (whole : Members) (before : List String) (out : Members) : Members → Members
  | [] => out
  | (k, v) :: rest =>
    let next := match noteSubject k with
      | none => out
      | some subject =>
        let alive := subject.isEmpty ||
          ((Assoc.get? subject whole).isSome && (Assoc.get? subject out).isSome)
        if ! alive || (Assoc.get? k out).isSome then out
        else
          let at_ := ((before.findSome? (position · out)).map (· + 1)).getD 0
          out.insertIdx at_ (k, v)
    placeNotes whole (k :: before) next rest

mutual

/-- `new` with the stored notes of `old` that the map-level rule keeps. -/
def keepComments (old : Value) : Value → Value
  | .object nm =>
    match old with
    | .object om => .object (placeNotes om [] (keepMembers om nm) om)
    | _ => .object nm
  | .null => .null
  | .bool b => .bool b
  | .number n => .number n
  | .string s => .string s
  | .array items => .array items

def keepMembers (om : Members) : Members → Members
  | [] => []
  | (k, v) :: nm =>
    (match Assoc.get? k om with
      | some ov => if ov.isObject && v.isObject then (k, keepComments ov v) else (k, v)
      | none => (k, v)) :: keepMembers om nm

end

/-! ### Payloads -/

section Payload

variable [Deps]

/-- A view's canonical text. -/
def render (value : Value) (format : Format) : Text := format.dump value

/-- A replace payload: any value. -/
def parse (text : Text) (format : Format) : Except Error Tree := format.parseRaw text

/-- A merge payload: a map, in which `null` deletes. -/
def parsePatch (text : Text) (format : Format) : Except Error Tree := do
  let value ← format.parseRaw text
  if value.val.isObject then .ok value
  else .error (.lint [⟨Path.root, "a merge payload must be an object"⟩])

end Payload

/-! ### The three edits -/

/-- A mutation of a document, below a prefix. -/
inductive Edit where
  | replace (pre : Path) (subtree : Tree)
  | merge (pre : Path) (patch : Tree)
  | remove (pre : Path)

def Edit.run (doc : Value) : Edit → Except Error (List Touched) × Value
  | .replace pre subtree => View.replace doc pre subtree.val
  | .merge pre patch => View.merge doc pre patch.val
  | .remove pre => View.remove doc pre

end View
end PveMeta
