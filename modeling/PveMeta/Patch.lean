import PveMeta.Model

/-! # Merge patches and structural diffs

`patch.rs`: what happened to which path when a patch is applied, and when one document replaces
another. -/

namespace PveMeta

inductive Op where
  | set
  | delete
  deriving DecidableEq

structure Touched where
  path : Path
  op : Op
  deriving DecidableEq

namespace Patch

/-- A key that is not there, or holds another value, is set; one that holds the value already is left
    alone. -/
def setKey (path : Path) (k : String) (v : Value) (m : Members) : List Touched × Members :=
  if (Assoc.get? k m).any (· == v) then ([], m) else ([⟨path.join k, .set⟩], Assoc.insert k v m)

/-- `null` deletes `k`, and its note unless the patch says what becomes of the note. -/
def deleteKey (whole : Members) (path : Path) (k : String) (m : Members) : List Touched × Members :=
  let own := if (Assoc.get? k m).isSome then [⟨path.join k, .delete⟩] else []
  let m := Assoc.erase k m
  let note := k ++ commentSuffix
  if (Assoc.get? note whole).isNone && (Assoc.get? note m).isSome then
    (own ++ [⟨path.join note, .delete⟩], Assoc.erase note m)
  else (own, m)

mutual

/-- One entry `(k, v)` of the patch map `whole` applied to the map `m` at `path`. -/
def applyEntry (whole : Members) (path : Path) (k : String) (m : Members) : Value → List Touched × Members
  | .null => deleteKey whole path k m
  | .object q =>
    match Assoc.get? k m with
    | some (.object child) =>
      let (touched, child) := applyEntries q (path.join k) child q
      (touched, Assoc.insert k (.object child) m)
    | existing =>
      if q.isEmpty then setKey path k (.object []) m
      else
        -- Applied to an empty scratch map, so that the patch's own `null`s delete there.
        let (sub, scratch) := applyEntries q (path.join k) [] q
        if existing.isSome || ! sub.isEmpty then
          ([⟨path.join k, .set⟩], Assoc.insert k (.object scratch) m)
        else ([], m)
  | .bool b => setKey path k (.bool b) m
  | .number n => setKey path k (.number n) m
  | .string s => setKey path k (.string s) m
  | .array items => setKey path k (.array items) m

/-- The entries of the patch map `whole` applied in order. -/
def applyEntries (whole : Members) (path : Path) (m : Members) : Members → List Touched × Members
  | [] => ([], m)
  | (k, v) :: rest =>
    let (first, m) := applyEntry whole path k m v
    let (others, m) := applyEntries whole path m rest
    (first ++ others, m)

end

/-- `apply_obj`: nothing happens unless both are maps. -/
def applyObj (doc patch : Value) (path : Path) : List Touched × Value :=
  match patch, doc with
  | .object p, .object m =>
    let (touched, m) := applyEntries p path m p
    (touched, .object m)
  | _, _ => ([], doc)

def applyPatch (doc patch : Value) : List Touched × Value :=
  if doc.isObject && patch.isObject then applyObj doc patch Path.root else ([], doc)

mutual

/-- `diff_at`: maps on both sides are compared key by key, anything else as a whole. -/
def diffAt (path : Path) (old : Value) : Value → List Touched
  | .object nm =>
    match old with
    | .object om =>
      diffMembers path om nm ++
        ((Assoc.keys om).filter fun k => (Assoc.get? k nm).isNone).map fun k => ⟨path.join k, .delete⟩
    | _ => [⟨path, .set⟩]
  | .null => if old == .null then [] else [⟨path, .set⟩]
  | .bool b => if old == .bool b then [] else [⟨path, .set⟩]
  | .number n => if old == .number n then [] else [⟨path, .set⟩]
  | .string s => if old == .string s then [] else [⟨path, .set⟩]
  | .array items => if old == .array items then [] else [⟨path, .set⟩]

/-- The keys of the new map, each against what the old map has at it. -/
def diffMembers (path : Path) (om : Members) : Members → List Touched
  | [] => []
  | (k, nv) :: rest =>
    (match Assoc.get? k om with
      | some ov =>
        if ov.isObject && nv.isObject then diffAt (path.join k) ov nv
        else if ov == nv then [] else [⟨path.join k, .set⟩]
      | none => [⟨path.join k, .set⟩]) ++ diffMembers path om rest

end

def diff (old new : Value) : List Touched := diffAt Path.root old new

end Patch
end PveMeta
