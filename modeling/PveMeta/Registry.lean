import PveMeta.Shape

/-! # Prefix files

What a prefix file says and which texts are one (`registry.rs`): the loader's own parser, which a write
of a prefix file has to satisfy too. -/

namespace PveMeta

/-- Which guests a prefix applies to. -/
inductive Selector where
  | all
  | tag (t : String)
  deriving DecidableEq

/-- A node's own `schema`, `enforce` and `hidden`. -/
structure NodeOverride where
  schema : Option Value
  enforce : Option Bool
  hidden : Option Bool

inductive Origin where
  | packaged
  | cluster
  deriving DecidableEq

/-- `[a-zA-Z0-9]([a-zA-Z0-9-]*[a-zA-Z0-9])?` -/
def isNodeName (s : String) : Bool :=
  (s.toList.head?.any Char.isAlphanum) && (s.toList.getLast?.any Char.isAlphanum) &&
    s.toList.all fun c => c.isAlphanum || c == '-'

/-- A node name, checked where it is made. -/
def NodeName := { s : String // isNodeName s = true }

def NodeName.new (s : String) : Except Error NodeName :=
  if h : isNodeName s = true then .ok ⟨s, h⟩ else .error (.invalidName s)

/-- One prefix: what it is, and where it applies. -/
structure PrefixDef where
  pre : Path
  description : Option String
  selector : Selector
  schema : Option Value
  enforce : Bool
  hidden : Bool
  nodes : List (NodeName × NodeOverride)
  origin : Origin
  overrides : Bool

namespace Registry

def maxFileNameLen : Nat := 128

/-- A prefix file's name without its extension: segments joined by dots. -/
def isValidFileName (name : String) : Bool :=
  ! name.toList.isEmpty && name.utf8ByteSize ≤ maxFileNameLen &&
    ((name.toList.splitOn '.').map String.ofList).all isValidSegment

/-! ### Strict parsing

`serde_json::from_value` into the raw structures. A structure is read from a map with no unknown key,
or from a list of its fields in order; a missing field has its default. -/

structure RawSelector where
  all : Option Bool
  tag : Option String

structure RawPrefixDef where
  description : Option String
  selector : Option RawSelector
  enforce : Option Bool
  hidden : Option Bool
  schema : Option Value
  nodes : List (String × NodeOverride)

/-- The fields of a structure, in order. -/
def fieldsOf (names : List String) : Value → Option (List (Option Value))
  | .object m =>
    if (Assoc.keys m).all names.contains then some (names.map (Assoc.get? · m)) else none
  | .array items => if items.length ≤ names.length then some ((List.range names.length).map (items[·]?)) else none
  | _ => none

/-- An `Option` field: absent and `null` are nothing. -/
def optional {α : Type} (read : Value → Option α) : Option Value → Option (Option α)
  | none | some .null => some none
  | some v => (read v).map some

def readBool : Value → Option Bool
  | .bool b => some b
  | _ => none

def readSelector (v : Value) : Option RawSelector := do
  match ← fieldsOf ["all", "tag"] v with
  | [all, tag] => return ⟨← optional readBool all, ← optional Value.asStr tag⟩
  | _ => none

def readNodeOverride (v : Value) : Option NodeOverride := do
  match ← fieldsOf ["schema", "enforce", "hidden"] v with
  | [schema, enforce, hidden] =>
    return ⟨← optional some schema, ← optional asFlag enforce, ← optional asFlag hidden⟩
  | _ => none

/-- `BTreeMap<String, RawNodeOverride>`: the nodes by name; a missing field is an empty map. -/
def readNodes : Option Value → Option (List (String × NodeOverride))
  | none => some []
  | some (.object m) => do
    let nodes ← m.mapM fun (k, v) => (readNodeOverride v).map (k, ·)
    return nodes.insertionSort fun a b => ! decide (b.1 < a.1)
  | some _ => none

def readPrefixDef (v : Value) : Option RawPrefixDef := do
  match ← fieldsOf ["description", "selector", "enforce", "hidden", "schema", "nodes"] v with
  | [description, selector, enforce, hidden, schema, nodes] =>
    return ⟨← optional Value.asStr description, ← optional readSelector selector, ← optional asFlag enforce,
      ← optional asFlag hidden, ← optional some schema, ← readNodes nodes⟩
  | _ => none

def bad (msg : String) : Error := .registry msg

def parseSelector (where_ : String) : Option RawSelector → Except Error Selector
  | none => .error (bad (where_ ++ ": missing 'selector' (use \x7b all: true \x7d or \x7b tag: <name> \x7d)"))
  | some ⟨some true, none⟩ => .ok .all
  | some ⟨none, some t⟩ =>
    if t.isEmpty then .error (invalid where_) else .ok (.tag t)
  | some _ => .error (invalid where_)
where
  invalid (where_ : String) : Error :=
    bad (where_ ++ ": invalid 'selector' (exactly one of \x7b all: true \x7d or \x7b tag: <name> \x7d)")

/-! ### The schema dialect -/

def schemaTypes : List String := ["string", "integer", "number", "boolean", "object", "array"]

section Dialect

variable [Deps]

/-- What a schema node is refused for, at its place in the file. -/
def dialectError (name at_ msg : String) : Error := bad (name ++ ": " ++ at_ ++ ": " ++ msg)

def declaredType (name at_ : String) (m : Members) : Except Error (Option String) :=
  match Assoc.get? "type" m with
  | none => .ok none
  | some v =>
    match v.asStr.filter schemaTypes.contains with
    | some t => .ok (some t)
    | none => .error (dialectError name at_ ("'type' must be one of " ++ joinWith ", " schemaTypes ++
        " (got " ++ Shape.scalarText v ++ ")"))

def checkEnum (name at_ : String) (declared : Option String) (m : Members) : Except Error Unit :=
  match Assoc.get? "enum" m with
  | none => .ok ()
  | some (.array []) => .error (dialectError name at_ "'enum' must not be empty")
  | some (.array members) =>
    members.forM fun v =>
      if ! (v.isString || v.isNumber || v.isBool) then
        .error (dialectError name at_ "'enum' members must be scalars")
      else
        match declared.filter fun t => ! typeMatches t v with
        | some t => .error (dialectError name at_ ("'enum' member " ++ Shape.scalarText v ++ " is not of type " ++ t))
        | none => .ok ()
  | some _ => .error (dialectError name at_ "'enum' must be a list")

def readBound (name at_ : String) (declared : Option String) (m : Members) (key : String) :
    Except Error (Option F64) :=
  match Assoc.get? key m with
  | none => .ok none
  | some v =>
    match v.asNumber with
    | none => .error (dialectError name at_ ("'" ++ key ++ "' must be a number"))
    | some n =>
      if declared = none ∨ declared = some "integer" ∨ declared = some "number" then .ok (some n.asF64)
      else .error (dialectError name at_ ("'" ++ key ++ "' has no meaning for type " ++ declared.getD ""))

/-- The keywords of one schema node, the nested schemas aside. -/
def checkKeywords (name at_ : String) (m : Members) : Except Error (Option String) := do
  let declared ← declaredType name at_ m
  ["description", "format"].forM fun key =>
    if (Assoc.get? key m).any fun v => ! v.isString then
      .error (dialectError name at_ ("'" ++ key ++ "' must be a string"))
    else .ok ()
  ["hidden", "enforce", "multiline", "optional"].forM fun key =>
    if (Assoc.get? key m).any fun v => (asFlag v).isNone then
      .error (dialectError name at_ ("'" ++ key ++ "' must be true/false or 1/0"))
    else .ok ()
  checkEnum name at_ declared m
  let min ← readBound name at_ declared m "minimum"
  let max ← readBound name at_ declared m "maximum"
  match min, max with
  | some min, some max =>
    if max.rank < min.rank then
      .error (dialectError name at_ ("'minimum' (" ++ Deps.f64ToString min ++ ") is above 'maximum' (" ++
        Deps.f64ToString max ++ ")"))
    else .ok ()
  | _, _ => .ok ()
  match declared, Assoc.get? "default" m with
  | some t, some d =>
    if typeMatches t d then .ok declared
    else .error (dialectError name at_ ("'default' is not of type " ++ t))
  | _, _ => .ok declared

mutual

/-- Refuses a schema whose keywords would not do what they say. -/
def checkSchemaDialect (name at_ : String) : Value → Except Error Unit
  | .object m => do
    let declared ← checkKeywords name at_ m
    checkItems name at_ declared m
    checkProperties name at_ declared m
  | _ => .error (dialectError name at_ "a schema node must be a map")

/-- The schema under `items`, looked up among the members of the node. -/
def checkItems (name at_ : String) (declared : Option String) : Members → Except Error Unit
  | [] => .ok ()
  | (k, v) :: rest =>
    if k = "items" then
      match declared.filter (· ≠ "array") with
      | some t => .error (dialectError name at_ ("'items' has no meaning for type " ++ t))
      | none => checkSchemaDialect name (at_ ++ ".items") v
    else checkItems name at_ declared rest

/-- The schemas under `properties`. -/
def checkProperties (name at_ : String) (declared : Option String) : Members → Except Error Unit
  | [] => .ok ()
  | (k, v) :: rest =>
    if k = "properties" then
      match v with
      | .object props =>
        match declared.filter (· ≠ "object") with
        | some t => .error (dialectError name at_ ("'properties' has no meaning for type " ++ t))
        | none => checkEach name at_ props
      | _ => .error (dialectError name at_ "'properties' must be a map")
    else checkProperties name at_ declared rest

def checkEach (name at_ : String) : Members → Except Error Unit
  | [] => .ok ()
  | (key, sub) :: rest =>
    if isValidSegment key then do
      checkSchemaDialect name (at_ ++ ".properties." ++ key) sub
      checkEach name at_ rest
    else .error (dialectError name at_ ("property '" ++ key ++ "' is not a valid key"))

end

def parseNode (name : String) (entry : String × NodeOverride) : Except Error (NodeName × NodeOverride) := do
  match NodeName.new entry.1 with
  | .error _ => .error (bad (name ++ ": nodes." ++ entry.1 ++ ": not a valid node name"))
  | .ok node =>
    match entry.2.schema with
    | some schema => checkSchemaDialect name ("nodes." ++ entry.1 ++ ".schema") schema
    | none => .ok ()
    return (node, entry.2)

def parsePrefix (name : String) (text : Text) : Except Error PrefixDef := do
  let invalid := bad (name ++ ": file name is not a valid prefix")
  if isValidFileName name then .ok () else .error invalid
  let pre ← (Path.parse name).mapError fun _ => invalid
  if pre.isRoot then .error invalid else .ok ()
  let value ← Format.parseRaw .yaml text
  match readPrefixDef value.val with
  | none => .error (bad (name ++ ": " ++ Deps.fromValueError value.val))
  | some raw =>
    let selector ← parseSelector name raw.selector
    match raw.schema with
    | some schema => checkSchemaDialect name "schema" schema
    | none => .ok ()
    let nodes ← raw.nodes.mapM (parseNode name)
    return { pre, description := raw.description, selector, schema := raw.schema,
             enforce := raw.enforce.getD false, hidden := raw.hidden.getD false, nodes,
             origin := .cluster, overrides := false }

end Dialect

end Registry

/-- A prefix as the shape of a document sees it. -/
def Declared.ofPrefixDef (p : PrefixDef) : Declared := ⟨p.pre, p.description, p.schema, p.enforce, p.hidden⟩

def Shape.ofGuest (defs : List PrefixDef) : Shape := Shape.new (defs.map Declared.ofPrefixDef)

end PveMeta
