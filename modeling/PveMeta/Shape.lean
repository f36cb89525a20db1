import Mathlib.Data.List.Sort
import PveMeta.Format
import PveMeta.Patch

/-! # The shape of a document

Which declared prefix governs a path, and what its schema says about the value there (`shape.rs`).
Schemas shadow and never merge: the most specific prefix that contains a path is the only one
consulted for it. -/

namespace PveMeta

/-- A flag: `true`/`false`, or `1`/`0`. -/
def asFlag : Value → Option Bool
  | .bool b => some b
  | .number n => if n.asInt = some 1 then some true else if n.asInt = some 0 then some false else none
  | _ => none

/-- A value of a declared type; a type that is not known constrains nothing. -/
def typeMatches (declared : String) (value : Value) : Bool :=
  if declared = "string" then value.isString
  else if declared = "integer" then (value.asNumber.bind Number.asInt).isSome
  else if declared = "number" then value.isNumber
  else if declared = "boolean" then (asFlag value).isSome
  else if declared = "object" then value.isObject
  else if declared = "array" then value.isArray
  else true

/-- An `enum` member admits an equal value, and under `type: boolean` one that is the same flag. -/
def enumAdmits (declared : Option String) (member value : Value) : Bool :=
  if declared = some "boolean" then
    match asFlag member, asFlag value with
    | some m, some v => m == v
    | _, _ => false
  else member == value

/-- A declared prefix: where it sits and what it says. -/
structure Declared where
  pre : Path
  description : Option String
  schema : Option Value
  enforce : Bool
  hidden : Bool

structure Finding where
  path : Path
  msg : String
  enforced : Bool
  deriving DecidableEq

/-- A `format` the schema asks for, left to a validator that knows it. -/
structure FormatCheck where
  path : Path
  format : String
  value : String
  deriving DecidableEq

inductive Report where
  | finding (f : Finding)
  | format (f : FormatCheck)
  deriving DecidableEq

def Report.path : Report → Path
  | .finding f => f.path
  | .format f => f.path

/-- A path that a schema describes, and whether it is offered before anything is stored there. -/
structure Described where
  path : Path
  schema : Value
  hidden : Bool

/-- The longer prefix first, then by name. -/
def bySpecificity (a b : Path) : Ordering :=
  (compare b.length a.length).then (compare a.display b.display)

/-- Paths by their segments (`Ord`). -/
def Path.lt (a b : Path) : Bool := decide (List.Lex (fun s t : String => s < t) a b)

/-- The prefixes that reach a document, most specific first. -/
structure Shape where
  prefixes : List Declared

/-- A schema node's flag, or what it inherits. -/
def flag (schema : Value) (key : String) (inherited : Bool) : Bool :=
  ((schema.get? key).bind asFlag).getD inherited

namespace Shape

/-- `sort_by` keeps the order of what compares equal. -/
def new (declared : List Declared) : Shape :=
  ⟨declared.insertionSort fun a b => bySpecificity a.pre b.pre ≠ .gt⟩

/-- The most specific prefix that contains `path`. -/
def governing (shape : Shape) (path : Path) : Option Declared :=
  shape.prefixes.find? (·.pre.isPrefixOf path)

/-- The node at a path below a schema, down its `properties`. -/
def nodeAt (schema : Value) : Path → Option Value
  | [] => some schema
  | seg :: rest => ((schema.get? "properties").bind (·.get? seg)).bind (nodeAt · rest)

/-- The schema node that describes `path`, if the governing prefix declares one. -/
def schemaAt (shape : Shape) (path : Path) : Option Value :=
  (shape.governing path).bind fun owner => owner.schema.bind (nodeAt · (path.drop owner.pre.length))

mutual

/-- A node's entry and those of the nodes below it, as far as `owner` governs. -/
def collect (shape : Shape) (owner : Declared) (path : Path) (inherited : Bool) : Value → List Described
  | schema@(.object m) =>
    if (shape.governing path).map (·.pre) = some owner.pre then
      -- Un-hiding a key below a hidden one is how one keeps the few that matter.
      let hidden := flag schema "hidden" inherited
      ⟨path, schema, hidden⟩ :: collectProperties shape owner path hidden m
    else []
  | schema =>
    if (shape.governing path).map (·.pre) = some owner.pre then
      [⟨path, schema, flag schema "hidden" inherited⟩]
    else []

/-- The schemas under `properties`, looked up among the members of the node. -/
def collectProperties (shape : Shape) (owner : Declared) (path : Path) (hidden : Bool) : Members → List Described
  | [] => []
  | (k, v) :: rest =>
    if k = "properties" then
      match v with
      | .object props => collectEach shape owner path hidden props
      | _ => []
    else collectProperties shape owner path hidden rest

def collectEach (shape : Shape) (owner : Declared) (path : Path) (hidden : Bool) : Members → List Described
  | [] => []
  | (key, sub) :: rest =>
    collect shape owner (path.join key) hidden sub ++ collectEach shape owner path hidden rest

end

/-- Every path that a schema describes, each prefix's own below it. -/
def schemaIndex (shape : Shape) : List Described :=
  shape.prefixes.flatMap fun owner =>
    match owner.schema with
    | some schema => collect shape owner owner.pre owner.hidden schema
    | none => []

section Check

variable [Deps]

/-- A string as itself, anything else as its JSON. -/
def scalarText : Value → String
  | .string s => s
  | v => Deps.jsonToString v

/-- Why a value does not fit a schema: of type, enum and range, the first that is missed. -/
def checkValue (schema value : Value) : Option String :=
  let declared := (schema.get? "type").bind Value.asStr
  let wrongType := declared.filter fun d => ! typeMatches d value
  let notAllowed := ((schema.get? "enum").bind Value.asArray).filter fun allowed =>
    ! allowed.any (enumAdmits declared · value)
  let bound (key : String) : Option F64 := ((schema.get? key).bind Value.asNumber).map Number.asF64
  let n := value.asNumber.map Number.asF64
  let below := n.any fun n => (bound "minimum").any fun min => n.rank < min.rank
  let above := n.any fun n => (bound "maximum").any fun max => max.rank < n.rank
  let text (key : String) : String := Deps.jsonToString ((schema.get? key).getD .null)
  match wrongType, notAllowed with
  | some d, _ => some ("expected " ++ d)
  | none, some allowed => some ("expected one of: " ++ joinWith ", " (allowed.map scalarText))
  | none, none =>
    if below then some ("must be at least " ++ text "minimum")
    else if above then some ("must be at most " ++ text "maximum")
    else none

mutual

/-- The reports about a value and what is below it, as far as `owner` governs. -/
def walk (shape : Shape) (owner : Declared) (schema : Value) (path : Path) (inherited : Bool) : Value → List Report
  | value@(.object m) =>
    let enforce := flag schema "enforce" inherited
    match checkValue schema value with
    | some msg => [.finding ⟨path, msg, enforce⟩]
    | none =>
      match (schema.get? "properties").bind Value.asObject with
      | some props => walkMembers shape owner props path enforce m
      | none => []
  | value@(.array items) =>
    let enforce := flag schema "enforce" inherited
    match checkValue schema value with
    | some msg => [.finding ⟨path, msg, enforce⟩]
    | none =>
      match schema.get? "items" with
      | some sub => walkItems shape owner sub path enforce 0 items
      | none => []
  | value =>
    let enforce := flag schema "enforce" inherited
    match checkValue schema value with
    | some msg => [.finding ⟨path, msg, enforce⟩]
    | none =>
      match value.asStr, (schema.get? "format").bind Value.asStr with
      | some s, some format => [.format ⟨path, format, s⟩]
      | _, _ => []

def walkItems (shape : Shape) (owner : Declared) (sub : Value) (path : Path) (enforce : Bool) (i : Nat) :
    List Value → List Report
  | [] => []
  | item :: items =>
    walk shape owner sub (path.join (DocId.decimal i)) enforce item ++
      walkItems shape owner sub path enforce (i + 1) items

def walkMembers (shape : Shape) (owner : Declared) (props : Members) (path : Path) (enforce : Bool) :
    Members → List Report
  | [] => []
  | (key, child) :: rest =>
    (match Assoc.get? key props with
      | some sub =>
        -- A more specific prefix owns what it governs.
        if (shape.governing (path.join key)).map (·.pre) = some owner.pre then
          walk shape owner sub (path.join key) enforce child
        else []
      | none => []) ++ walkMembers shape owner props path enforce rest

end

def findings (shape : Shape) (doc : Value) : List Report :=
  (shape.prefixes.flatMap fun owner =>
    match owner.schema, getPath doc owner.pre with
    | some schema, some value => walk shape owner schema owner.pre owner.enforce value
    | _, _ => []).insertionSort fun a b => ! b.path.lt a.path

/-- The findings a write may be refused for. -/
def enforcedFindings (shape : Shape) (doc : Value) : List Finding :=
  (shape.findings doc).filterMap fun r =>
    match r with
    | .finding f => if f.enforced then some f else none
    | .format _ => none

end Check

/-- Of the findings after an edit, the new ones and those on a path it changed. -/
def introduced (before after : List Finding) (changed : List Path) : List Finding :=
  after.filter fun f =>
    ! before.contains f || changed.any fun c => c.isPrefixOf f.path || f.path.isPrefixOf c

end Shape
end PveMeta
