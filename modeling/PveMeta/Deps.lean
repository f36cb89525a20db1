import PveMeta.Model

/-! # What the code calls and this repository does not hold

The YAML and JSON crates, the YAML event parser, the deserializer's messages and the hash. Every
definition that reaches one of them takes the class; what a result assumes of them it states. -/

namespace PveMeta

/-- A parser event of `saphyr-parser`, with what the safety scan looks at. -/
inductive Event where
  | alias
  | scalar (anchored tagged : Bool)
  | sequenceStart (anchored tagged : Bool)
  | sequenceEnd
  | mappingStart (anchored tagged : Bool)
  | mappingEnd
  | other
  deriving DecidableEq

/-- A position as `saphyr-parser` counts it: lines from 1, columns from 0. -/
structure Marker where
  line : Nat
  col : Nat
  deriving DecidableEq

/-- The third-party code. A parser hands on values with each key once, since it inserts into a map. -/
class Deps where
  /-- `serde_yaml_ng::to_string` -/
  yamlToString : Value → Text
  /-- `serde_yaml_ng::from_str`; an error has a message and maybe a place -/
  yamlFromStr : Text → Except (String × Option Location) Tree
  /-- The events of `saphyr_parser::Parser`, up to its first error -/
  yamlEvents : Text → List (Except (String × Marker) (Event × Marker))
  /-- `serde_json::to_string_pretty` -/
  jsonToStringPretty : Value → Text
  /-- `serde_json::from_str` -/
  jsonFromStr : Text → Except (String × Location) Tree
  /-- `serde_json::to_string`, also a value's `Display` -/
  jsonToString : Value → String
  /-- `Display` of an `f64` -/
  f64ToString : F64 → String
  /-- What `serde_json::from_value` says of a value that is no prefix file -/
  fromValueError : Value → String
  /-- The message of `String::from_utf8` -/
  utf8Error : ByteArray → String
  /-- The lowercase hex SHA-256 -/
  sha256Hex : ByteArray → String
  /-- A hash in hex is hex digits -/
  sha256Hex_digits : ∀ b, (sha256Hex b).toList.all fun c => c.isDigit || ('a' ≤ c && c ≤ 'f')
  /-- and is never empty -/
  sha256Hex_ne_empty : ∀ b, sha256Hex b ≠ ""

/-- What the browser does to a value on its way in and out. -/
class Browser where
  /-- A number as `JSON.parse` and then `Ext.encode` leave it -/
  number : Number → Number
  /-- `Ext.encode` -/
  encode : Value → Text

end PveMeta
