import PveMeta.Deps

/-! # The two serialization formats

Canonical parse and dump of a document (`format.rs`). YAML is read strictly: no anchors, aliases,
explicit tags or complex keys. -/

namespace PveMeta
namespace Format

/-! ### The safety scan -/

/-- What encloses the event being read. -/
inductive Ctx where
  | seq
  | map (expectKey : Bool)
  deriving DecidableEq

def atMarker (m : Marker) : Location := ⟨m.line, m.col + 1⟩

def yamlErr (msg : String) (at_ : Location) : Error := .parse .yaml msg (some at_)

/-- A key or a value was read: an enclosing map now expects the other. -/
def noteChild : List Ctx → List Ctx
  | .map expectKey :: stack => .map (! expectKey) :: stack
  | stack => stack

def rejectIfKeyPosition (stack : List Ctx) (at_ : Location) : Except Error Unit :=
  match stack with
  | .map true :: _ => .error (yamlErr "non-string (complex) mapping keys are not allowed" at_)
  | _ => .ok ()

def rejectAnchorOrTag (anchored tagged : Bool) (at_ : Location) : Except Error Unit :=
  if anchored then .error (yamlErr "YAML anchors are not allowed" at_)
  else if tagged then .error (yamlErr "YAML explicit tags are not allowed" at_)
  else .ok ()

/-- One event against the stack of enclosing collections, innermost first. -/
def scanEvent (stack : List Ctx) (event : Event) (at_ : Location) : Except Error (List Ctx) :=
  match event with
  | .alias => .error (yamlErr "YAML aliases are not allowed" at_)
  | .scalar anchored tagged => do
    rejectAnchorOrTag anchored tagged at_
    return noteChild stack
  | .sequenceStart anchored tagged => do
    rejectAnchorOrTag anchored tagged at_
    rejectIfKeyPosition stack at_
    return .seq :: stack
  | .mappingStart anchored tagged => do
    rejectAnchorOrTag anchored tagged at_
    rejectIfKeyPosition stack at_
    return .map true :: stack
  | .sequenceEnd | .mappingEnd => return noteChild stack.tail
  | .other => return stack

def scanEvents (stack : List Ctx) : List (Except (String × Marker) (Event × Marker)) → Except Error Unit
  | [] => .ok ()
  | .error (msg, m) :: _ => .error (yamlErr msg (atMarker m))
  | .ok (event, m) :: rest => do
    let stack ← scanEvent stack event (atMarker m)
    scanEvents stack rest

variable [Deps]

def scanYamlSafety (text : Text) : Except Error Unit := scanEvents [] (Deps.yamlEvents text)

/-! ### Parse and dump -/

def parseYaml (text : Text) : Except Error Tree := do
  scanYamlSafety text
  match Deps.yamlFromStr text with
  | .ok tree => .ok tree
  | .error (msg, loc) => .error (.parse .yaml msg loc)

/-- Parses without the lint. -/
def parseRaw (format : Format) (text : Text) : Except Error Tree :=
  match format with
  | .json =>
    match Deps.jsonFromStr text with
    | .ok tree => .ok tree
    | .error (msg, loc) => .error (.parse .json msg (some loc))
  | .yaml => parseYaml text

/-- Parses, then lints. -/
def parse (format : Format) (text : Text) : Except Error Tree := do
  let value ← parseRaw format text
  if lint value.val = [] then .ok value else .error (.lint (lint value.val))

def ensureSingleTrailingNewline (s : Text) : Text := Text.trimNewlines s ++ ['\n']

/-- The canonical text of a document. -/
def dump (format : Format) (doc : Value) : Text :=
  ensureSingleTrailingNewline <|
    match format with
    | .json => Deps.jsonToStringPretty doc
    | .yaml => Deps.yamlToString doc

end Format
end PveMeta
