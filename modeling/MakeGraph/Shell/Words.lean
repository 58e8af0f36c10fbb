/-!
# `MakeGraph.Shell.Words` — splitting a text by shell rules

`words?` splits a text into words as a POSIX shell would before any expansion: blanks separate,
`'…'` is literal, in `"…"` a backslash protects only `$`, a backquote, `"` and `\`, outside of
quotes it protects any character, a backslash before a line break vanishes with it, and `#` at the
start of a word begins a comment that ends with the line. An unclosed quote or a backslash at the
very end makes the text no list of words.

The splitter is a machine that eats one character at a time (`Splitter.eat`): `words?` folds it
over the text, so its laws are statements about one step.
-/

namespace MakeGraph.Shell

/-- Where the splitter stands. A state inside a word carries the characters read so far,
last one first. -/
inductive Splitter.State where
  /-- Between words. -/
  | between
  /-- In a comment. -/
  | comment
  /-- In a word, outside of quotes. -/
  | word (read : List Char)
  /-- After a backslash outside of quotes. -/
  | escape (read : List Char)
  /-- Between single quotes. -/
  | single (read : List Char)
  /-- Between double quotes. -/
  | double (read : List Char)
  /-- After a backslash between double quotes. -/
  | doubleEscape (read : List Char)
deriving DecidableEq, Repr

/-- The finished words, last one first, and the state that the splitter is in. -/
structure Splitter where
  /-- The finished words, last one first. -/
  words : List String := []
  /-- Where the splitter stands. -/
  state : Splitter.State := .between
deriving DecidableEq, Repr

namespace Splitter

/-- The characters that separate words. -/
def isSeparator (c : Char) : Bool :=
  c == ' ' || c == '\t' || c == '\n'

/-- The characters that a backslash protects between double quotes. -/
def isDoubleEscapable (c : Char) : Bool :=
  c == '$' || c == '\x60' || c == '"' || c == '\\'

/-- The state after a character that belongs to a word outside of quotes and does not end it. -/
def State.inWord (read : List Char) (c : Char) : State :=
  if c = '"' then .double read
  else if c = '\'' then .single read
  else if c = '\\' then .escape read
  else .word (c :: read)

/-- One step of the splitter. -/
def eat (s : Splitter) (c : Char) : Splitter :=
  match s.state with
  | .between =>
      if isSeparator c then s
      else if c = '#' then { s with state := .comment }
      else { s with state := .inWord [] c }
  | .comment => if c = '\n' then { s with state := .between } else s
  | .word read =>
      if isSeparator c then ⟨String.ofList read.reverse :: s.words, .between⟩
      else { s with state := .inWord read c }
  | .escape read =>
      { s with state := .word (if c = '\n' then read else c :: read) }
  | .single read =>
      { s with state := if c = '\'' then .word read else .single (c :: read) }
  | .double read =>
      { s with state :=
          if c = '"' then .word read
          else if c = '\\' then .doubleEscape read
          else .double (c :: read) }
  | .doubleEscape read =>
      { s with state :=
          .double (if c = '\n' then read
            else if isDoubleEscapable c then c :: read
            else c :: '\\' :: read) }

/-- The words once the text has ended; none when it ended inside quotes or after a backslash. -/
def finish? (s : Splitter) : Option (List String) :=
  match s.state with
  | .between | .comment => some s.words.reverse
  | .word read => some (String.ofList read.reverse :: s.words).reverse
  | _ => none

end Splitter

/-- The words of a text by shell rules, if its quotes are balanced. -/
def words? (text : String) : Option (List String) :=
  (text.toList.foldl Splitter.eat {}).finish?

example : words? "-O2  -DNAME='a b' # rest" = some ["-O2", "-DNAME=a b"] := by decide
example : words? "\"a\\$b\\x\" \\\n" = some ["a$b\\x", ""] := by decide
example : words? "'open" = none := by decide

end MakeGraph.Shell
