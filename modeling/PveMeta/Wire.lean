import PveMeta.Registry

/-! # The listing on its way to the editor

A row of `GET /meta/prefixes` as the API serialises it, what Perl makes of it, and the shape that the browser
build reads from the rows (`pve-meta-wasm`, `lib.rs`). -/

namespace PveMeta

/-! ### The rows -/

def Selector.serialize : Selector → Value
  | .all => .object [("all", .bool true)]
  | .tag t => .object [("tag", .string t)]

def Origin.serialize : Origin → Value
  | .packaged => .string "packaged"
  | .cluster => .string "cluster"

/-- A field that is skipped where there is nothing. -/
def optionalField (key : String) (v : Option Value) : Members := (v.map (key, ·)).toList

def NodeOverride.serialize (o : NodeOverride) : Value :=
  .object (optionalField "schema" o.schema ++ optionalField "enforce" (o.enforce.map .bool) ++
    optionalField "hidden" (o.hidden.map .bool))

def PrefixDef.serialize (d : PrefixDef) : Value :=
  .object ([("prefix", .string d.pre.display)] ++ optionalField "description" (d.description.map .string) ++
    [("selector", d.selector.serialize)] ++ optionalField "schema" d.schema ++
    [("enforce", .bool d.enforce), ("hidden", .bool d.hidden)] ++
    (if d.nodes.isEmpty then [] else [("nodes", .object (d.nodes.map fun (node, o) => (node.val, o.serialize)))]) ++
    [("origin", d.origin.serialize), ("overrides", .bool d.overrides)])

mutual

/-- A value on its way through Perl, which spells a boolean `1` or `0`. -/
def throughPerl : Value → Value
  | .bool b => .number (.posInt (if b then 1 else 0))
  | .array items => .array (itemsThroughPerl items)
  | .object m => .object (membersThroughPerl m)
  | .null => .null
  | .number n => .number n
  | .string s => .string s

def itemsThroughPerl : List Value → List Value
  | [] => []
  | v :: items => throughPerl v :: itemsThroughPerl items

def membersThroughPerl : Members → Members
  | [] => []
  | (k, v) :: m => (k, throughPerl v) :: membersThroughPerl m

end

/-- The rows of the listing, as the browser has them. -/
def listingRows (defs : List PrefixDef) : List Value := defs.map fun d => throughPerl d.serialize

/-! ### What the browser build reads -/

/-- Perl's truth: `1`, `true`, a non-empty string other than `"0"`. -/
def truthy : Value → Bool
  | .bool b => b
  | .number n => n.asF64.rank ≠ 0
  | .string s => ! (s.isEmpty || s == "0")
  | .null => false
  | _ => true

/-- One row: a prefix already resolved for the guest, or the name of a file that did not load. -/
structure WirePrefix where
  pre : String
  description : Option String
  schema : Option Value
  enforce : Option Value
  hidden : Option Value
  error : Option String

namespace WirePrefix

/-- The fields of a row; what else a map holds is passed over. -/
def fieldsOf (names : List String) : Value → Option (List (Option Value))
  | .object m => some (names.map (Assoc.get? · m))
  | .array items => if items.length ≤ names.length then some ((List.range names.length).map (items[·]?)) else none
  | _ => none

def read (row : Value) : Option WirePrefix := do
  match ← fieldsOf ["prefix", "description", "schema", "enforce", "hidden", "error"] row with
  | [pre, description, schema, enforce, hidden, error] =>
    return ⟨← pre.bind Value.asStr, ← Registry.optional Value.asStr description, ← Registry.optional some schema,
      ← Registry.optional some enforce, ← Registry.optional some hidden, ← Registry.optional Value.asStr error⟩
  | _ => none

/-- What a row declares: nothing if its file did not load. -/
def declared (row : WirePrefix) : Option Declared :=
  if row.error.isSome then none
  else
    match Path.parse row.pre with
    | .ok pre => some ⟨pre, row.description, row.schema, row.enforce.any truthy, row.hidden.any truthy⟩
    | .error _ => none

end WirePrefix

/-- `Args::shape`: the shape of the rows, if every one is a row. -/
def Shape.ofRows (rows : List Value) : Option Shape :=
  (rows.mapM WirePrefix.read).map fun entries => Shape.new (entries.filterMap WirePrefix.declared)

end PveMeta
