import PveMeta.Value
import PveMeta.Error

/-! # The document model

Comment keys and the lint (`model.rs`): the one check every write's planned document passes. -/

namespace PveMeta

/-- The suffix of a key that is a note: `foo__` documents `foo`, and `__` the map it is in. -/
def commentSuffix : String := "__"

def isCommentKey (k : String) : Bool := commentSuffix.toList.isSuffixOf k.toList

/-- The key rule: what is wrong with the key `k`, if anything. -/
def keyLint (k : String) : Option String :=
  if isValidSegment k then none
  else some ("invalid key '" ++ k ++ "': keys must match ^[A-Za-z0-9_@!-]+$ and contain no dots")

mutual

/-- The findings of the lint below `path`. -/
def lintWalk (path : Path) : Value → List Lint
  | .null => [⟨path, "null values are not allowed (omit the key instead)"⟩]
  | .array items => lintItems path 0 items
  | .object m => lintMembers path m
  | .bool _ | .number _ | .string _ => []

/-- The items of an array from index `i` on. -/
def lintItems (path : Path) (i : Nat) : List Value → List Lint
  | [] => []
  | item :: items => lintWalk (path.join (DocId.decimal i)) item ++ lintItems path (i + 1) items

def lintMembers (path : Path) : Members → List Lint
  | [] => []
  | (k, v) :: m =>
    ((keyLint k).map (Lint.mk (path.join k))).toList ++
      (if isCommentKey k && ! v.isString then [⟨path.join k, "comment key value must be a string"⟩] else []) ++
      lintWalk (path.join k) v ++ lintMembers path m

end

/-- The one lint: the top level is a map, no `null` anywhere, keys in the charset, notes are strings. -/
def lint (doc : Value) : List Lint :=
  (if doc.isObject then [] else [⟨Path.root, "top level must be an object"⟩]) ++ lintWalk Path.root doc

/-- The value at `path`; a segment is a key of a map or an index of an array. -/
def getPath (doc : Value) : Path → Option Value
  | [] => some doc
  | seg :: rest =>
    match doc with
    | .object m => (Assoc.get? seg m).bind (getPath · rest)
    | .array items => (Text.parseNat (2 ^ 64) seg.toList).bind fun i => (items[i]?).bind (getPath · rest)
    | _ => none

end PveMeta
