import MakeGraph.Json.Basic

/-!
# `MakeGraph.Json.Printer` — documents as indented text

`Json.pretty` writes a whole document with two spaces of indentation for every open bracket, one
item or member on a line, and empty brackets closed at once. In strings only `"`, `\` and the
control characters below U+0020 are escaped.
-/

namespace MakeGraph.Json

/-- A digit of a code, in lower case. -/
def hexDigit (n : Nat) : Char :=
  if n < 10 then Char.ofNat ('0'.toNat + n) else Char.ofNat ('a'.toNat + n - 10)

/-- The characters that stand for a character in a string. -/
def escapeChar (c : Char) : List Char :=
  if c = '"' then ['\\', '"']
  else if c = '\\' then ['\\', '\\']
  else if c = '\x08' then ['\\', 'b']
  else if c = '\x0c' then ['\\', 'f']
  else if c = '\n' then ['\\', 'n']
  else if c = '\r' then ['\\', 'r']
  else if c = '\t' then ['\\', 't']
  else if c.toNat < 0x20 then ['\\', 'u', '0', '0', hexDigit (c.toNat / 16), hexDigit (c.toNat % 16)]
  else [c]

/-- A string in its quotes. -/
def quoted (text : String) : String :=
  "\"" ++ String.ofList (text.toList.flatMap escapeChar) ++ "\""

/-- The blanks before a line inside `depth` open brackets. -/
def indent (depth : Nat) : String :=
  String.ofList (List.replicate (2 * depth) ' ')

/-- Lines inside brackets, each but the last with a comma behind it. -/
def block (opening closing : String) (depth : Nat) : List String → String
  | [] => opening ++ closing
  | lines =>
      opening ++ "\n" ++
        String.intercalate ",\n" (lines.map (indent (depth + 1) ++ ·)) ++
        "\n" ++ indent depth ++ closing

mutual

/-- The text of a document inside `depth` open brackets. -/
def prettyAt (depth : Nat) : Json → String
  | null => "null"
  | bool true => "true"
  | bool false => "false"
  | number value => value.text
  | string text => quoted text
  | array items _ => block "[" "]" depth (prettyItems (depth + 1) items)
  | object members _ => block "\x7b" "\x7d" depth (prettyMembers (depth + 1) members)
  | unreadable | broken => ""

/-- The texts of items. -/
def prettyItems (depth : Nat) : List Json → List String
  | [] => []
  | item :: items => prettyAt depth item :: prettyItems depth items

/-- The texts of members. -/
def prettyMembers (depth : Nat) : List (String × Json) → List String
  | [] => []
  | (key, value) :: members =>
      (quoted key ++ ": " ++ prettyAt depth value) :: prettyMembers depth members

end

/-- The text of a document. -/
def pretty (value : Json) : String :=
  prettyAt 0 value

end MakeGraph.Json
