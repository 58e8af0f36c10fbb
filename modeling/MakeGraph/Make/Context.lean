import MakeGraph.Make.Error
import MakeGraph.Shell.Quote
import MakeGraph.Text.Blank

/-!
# `MakeGraph.Make.Context` — the places of a Makefile and how text is escaped for them

Make reads the same text differently depending on where it stands: a `#` begins a comment in a list
of targets, a `|` separates order-only prerequisites, and recipe lines go to the shell after make
has expanded them. `escape` turns a plain text into one that make, and in recipes the shell, reads
back as that text:

* `$` is always doubled;
* in `target` and `dependency` position a special character takes a backslash, and the backslashes
  directly before it are doubled so that they stay literal (`guardSpecials`);
* in shell words and function arguments the result is quoted as one word.
-/

namespace MakeGraph.Make

/-- The place in a Makefile that a text is written for. -/
inductive Context where
  /-- A rule target, or the left side of a target-specific assignment. -/
  | target
  /-- A prerequisite, normal or order-only. -/
  | dependency
  /-- One shell word of a recipe or of a variable's value. -/
  | shellWord
  /-- A whole shell line, written as it is. -/
  | shellLine
  /-- One argument of a function call. -/
  | functionArgument
deriving DecidableEq, Repr

namespace Context

/-- The name by which a context is asked for. -/
def name : Context → String
  | target => "target"
  | dependency => "dependency"
  | shellWord => "shell-word"
  | shellLine => "shell-line"
  | functionArgument => "function-argument"

/-- All contexts. -/
def all : List Context :=
  [target, dependency, shellWord, shellLine, functionArgument]

/-- The context that a name asks for. -/
def named (text : String) : Except Error Context :=
  match all.find? (·.name = text) with
  | some context => .ok context
  | none => .error (.unknownContext text)

/-- The characters that end, split or expand a name in both target and dependency position. -/
def isNameSpecial (c : Char) : Bool :=
  c == '#' || c == '?' || c == '*' || c == '[' || c == ']' || c == '~' || Text.isBlank c

/-- The characters with a meaning of their own in a target. -/
def specialInTargets (c : Char) : Bool :=
  c == '%' || isNameSpecial c

/-- The characters with a meaning of their own in a prerequisite, which takes `%` literally. -/
def specialInPrerequisites (c : Char) : Bool :=
  c == '|' || isNameSpecial c

end Context

/-! ## Escaping -/

/-- Every `$` twice. -/
def doubleDollars (cs : List Char) : List Char :=
  cs.flatMap fun c => if c = '$' then ['$', '$'] else [c]

/-- Every comma as a reference to the helper variable that holds one. -/
def referToCommas (cs : List Char) : List Char :=
  cs.flatMap fun c => if c = ',' then ['$', ','] else [c]

/-- Whether a special character follows directly after the backslashes that a text begins with. -/
def leadsToSpecial (special : Char → Bool) : List Char → Bool
  | [] => false
  | c :: cs => if c = '\\' then leadsToSpecial special cs else special c

/-- A backslash before every special character; backslashes that lead to one are doubled. -/
def guardSpecials (special : Char → Bool) : List Char → List Char
  | [] => []
  | c :: cs =>
      let written :=
        if c = '\\' then (if leadsToSpecial special cs then ['\\', '\\'] else ['\\'])
        else if special c then ['\\', c]
        else [c]
      written ++ guardSpecials special cs

/-- The characters that stand for a plain text in a context. -/
def escapeChars (context : Context) (cs : List Char) : List Char :=
  let doubled := doubleDollars cs
  match context with
  | .target => guardSpecials Context.specialInTargets doubled
  | .dependency => guardSpecials Context.specialInPrerequisites doubled
  | .shellLine => doubled
  | .shellWord => Shell.quoteChars doubled
  | .functionArgument => Shell.quoteChars (referToCommas doubled)

/-- The text that stands for the plain `text` in a context. -/
def escape (context : Context) (text : String) : String :=
  String.ofList (escapeChars context text.toList)

example : escape .target "a b" = "a\\ b" := by decide
example : escape .target "back\\#slash" = "back\\\\\\#slash" := by decide
example : escape .dependency "a|b\\" = "a\\|b\\" := by decide
example : escape .shellLine "$HOME" = "$$HOME" := by decide

end MakeGraph.Make
