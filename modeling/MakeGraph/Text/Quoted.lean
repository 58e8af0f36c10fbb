import MakeGraph.Text.Hidden

/-!
# `MakeGraph.Text.Quoted` — texts as messages quote them

Messages show a text between `"` and a character between `'`, so that every character of it can be
seen: the quote itself and the backslash are escaped, line breaks, tabs and NUL have a letter, and
any other hidden character is written by its code.
-/

namespace MakeGraph.Text

/-- A number in hexadecimal digits, in lower case. -/
def hex (n : Nat) : String :=
  String.ofList (Nat.toDigits 16 n)

/-- A character inside quotes of the kind `quote`. -/
def showChar (quote c : Char) : String :=
  if c = quote || c = '\\' then "\\" ++ c.toString
  else if c = '\n' then "\\n"
  else if c = '\r' then "\\r"
  else if c = '\t' then "\\t"
  else if c = '\x00' then "\\0"
  else if isHidden c then "\\u\x7b" ++ hex c.toNat ++ "\x7d"
  else c.toString

/-- A text as messages quote it. -/
def quoted (text : String) : String :=
  "\"" ++ String.join (text.toList.map (showChar '"')) ++ "\""

/-- A character as messages quote it. -/
def quotedChar (c : Char) : String :=
  "'" ++ showChar '\'' c ++ "'"

example : quoted "a\"b'\n\u200b" = "\"a\\\"b'\\n\\u\x7b200b\x7d\"" := by decide +kernel
example : quotedChar '\'' = "'\\''" := by decide

end MakeGraph.Text
