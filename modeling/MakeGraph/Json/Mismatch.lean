import MakeGraph.Json.Basic
import MakeGraph.Text.Quoted
import MakeGraph.Version

/-!
# `MakeGraph.Json.Mismatch` — why a document does not load

A document fails to load with an `Issue`: its text is malformed, or it is JSON but a value in it is
a `Mismatch` for what should stand there. `Mismatch.message` is the wording.
-/

namespace MakeGraph.Json

/-- What is wrong with a value that is JSON. -/
inductive Mismatch where
  /-- A value of the wrong shape. -/
  | shape (found : Shape) (wanted : String)
  /-- A value of the right shape that is none of the possible ones. -/
  | value (found : Shape) (wanted : String)
  /-- An array with too few or too many items. -/
  | length (found : Nat) (wanted : String)
  /-- A member that must be there. -/
  | missing (field : String)
  /-- A member that stands twice. -/
  | duplicate (field : String)
  /-- A member that cannot be there. -/
  | unknownField (field : String) (known : List String)
  /-- A name that is none of the possible ones. -/
  | unknownVariant (name : String) (known : List String)
  /-- A value that has none of the forms of `name`. -/
  | noForm (name : String)
  /-- A text that is no version number. -/
  | version (cause : Version.Error)
deriving DecidableEq, Repr

/-- Why a document does not load. -/
inductive Issue where
  /-- The text is not JSON. -/
  | malformed
  /-- The text is JSON but does not fit. -/
  | mismatch (cause : Mismatch)
deriving DecidableEq, Repr

/-- The name of a shape in a message. -/
def Shape.text : Shape → String
  | null => "null"
  | bool value => "boolean `" ++ (if value then "true" else "false") ++ "`"
  | number (.double below magnitude) =>
      "floating point `" ++ (Number.double below magnitude).text ++ "`"
  | number value => "integer `" ++ value.text ++ "`"
  | string text => "string " ++ Text.quoted text
  | array => "sequence"
  | object => "map"

namespace Mismatch

/-- The possible names in a message. -/
def possible : List String → String
  | [a] => "expected `" ++ a ++ "`"
  | [a, b] => "expected `" ++ a ++ "` or `" ++ b ++ "`"
  | names => "expected one of " ++ String.intercalate ", " (names.map fun a => "`" ++ a ++ "`")

/-- The wording of a mismatch. -/
def message : Mismatch → String
  | shape found wanted => "invalid type: " ++ found.text ++ ", expected " ++ wanted
  | value found wanted => "invalid value: " ++ found.text ++ ", expected " ++ wanted
  | length found wanted => "invalid length " ++ toString found ++ ", expected " ++ wanted
  | missing field => "missing field `" ++ field ++ "`"
  | duplicate field => "duplicate field `" ++ field ++ "`"
  | unknownField field known => "unknown field `" ++ field ++ "`, " ++ possible known
  | unknownVariant name known => "unknown variant `" ++ name ++ "`, " ++ possible known
  | noForm name => "data did not match any variant of untagged enum " ++ name
  | version cause => cause.message Text.quotedChar

end Mismatch

/-- The wording of an issue. -/
def Issue.message : Issue → String
  | malformed => "malformed document"
  | mismatch cause => cause.message

end MakeGraph.Json
