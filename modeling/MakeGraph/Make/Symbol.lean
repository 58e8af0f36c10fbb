import MakeGraph.Make.Piece

/-!
# `MakeGraph.Make.Symbol` — named things of a Makefile

Variables, target patterns and function calls. Each has a piece that uses it
(`Variable.toPiece`, `Pattern.toPiece`, `Call.toPiece`).

A pattern template has exactly one live `%`. A `%` after an odd run of backslashes is a literal
percent sign; each pair of backslashes before a `%` stands for one backslash
(`Pattern.ofTemplate`).
-/

namespace MakeGraph.Make

/-! ## Variables -/

/-- A variable, known by its name. -/
structure Variable where
  /-- The name, with every character that make would not take as part of a name replaced. -/
  name : String
deriving DecidableEq, Repr, Inhabited

/-- A character that a variable's name cannot hold: a blank, `:`, `#` or `=`. -/
def endsName (c : Char) : Bool :=
  Text.isBlank c || c == ':' || c == '#' || c == '='

namespace Variable

/-- The variable of a name, in which `_` takes the place of every character that would end it. -/
def named (text : String) : Variable :=
  ⟨text.map fun c => if endsName c then '_' else c⟩

/-- The use of a variable. -/
def toPiece (v : Variable) : Piece :=
  .verbatim (reference v.name)

end Variable

/-! ## Patterns -/

/-- A target pattern: the text before its wildcard and the text after it. -/
structure Pattern where
  /-- The pattern as it was given. -/
  template : String
  /-- The literal text before the wildcard. -/
  before : String
  /-- The literal text after the wildcard. -/
  after : String
deriving DecidableEq, Repr, Inhabited

namespace Pattern

/-- The literal texts between the live wildcards of a template, given how many backslashes stand
directly before it. -/
def betweenWildcards : Nat → List Char → List (List Char)
  | n, [] => [List.replicate n '\\']
  | n, c :: cs =>
      if c = '\\' then betweenWildcards (n + 1) cs
      else if c = '%' then
        let kept := List.replicate (n / 2) '\\'
        if n % 2 = 1 then prependTo (kept ++ ['%']) (betweenWildcards 0 cs)
        else kept :: betweenWildcards 0 cs
      else prependTo (List.replicate n '\\' ++ [c]) (betweenWildcards 0 cs)
where
  /-- Writes `text` in front of the first piece. -/
  prependTo (text : List Char) : List (List Char) → List (List Char)
    | [] => [text]
    | piece :: rest => (text ++ piece) :: rest

/-- Reads a template; it must have exactly one live wildcard. -/
def ofTemplate (template : String) : Except Error Pattern :=
  match betweenWildcards 0 template.toList with
  | [before, after] => .ok ⟨template, String.ofList before, String.ofList after⟩
  | others => .error (.liveWildcards template (others.length - 1))

/-- The pattern that every target matches. -/
def any : Pattern :=
  ⟨"%", "", ""⟩

/-- A text cut where the backslashes that end it begin. -/
def splitTrailingBackslashes (cs : List Char) : List Char × List Char :=
  let run := cs.reverse.takeWhile (· = '\\')
  (cs.take (cs.length - run.length), run)

/-- The use of a pattern: its literal halves around a live `%`. Backslashes that end the first half
are doubled, or they would quote the wildcard. -/
def toPiece (p : Pattern) : Piece :=
  let (body, run) := splitTrailingBackslashes p.before.toList
  .sequence <|
    (if body = [] then [] else [.plain (String.ofList body)]) ++
    (if run = [] then [] else [.verbatim (String.ofList (run ++ run))]) ++
    [.verbatim "%"] ++
    (if p.after = "" then [] else [.plain p.after])

example : ((ofTemplate "50\\%/%.txt").toOption.map (·.toPiece.render .target)) =
    some "50\\%/%.txt" := by decide +kernel
example : (ofTemplate "a%b%c").toOption = none := by decide

end Pattern

/-! ## Function calls -/

/-- A call of a make function. Every argument is a list of words. -/
structure Call where
  /-- The function. -/
  name : String
  /-- The arguments, each written as words between spaces. -/
  args : List (List Piece) := []
deriving Repr, Inhabited

namespace Call

/-- A call of the macro that a variable holds; its arguments are `$1`, `$2` and so on there. -/
def macroCall (v : Variable) : Call :=
  ⟨"call", [[.plain v.name]]⟩

/-- The call with one more argument. -/
def arg (call : Call) (words : List Piece) : Call :=
  { call with args := call.args ++ [words] }

/-- The text of one argument. -/
def renderArg (words : List Piece) : String :=
  String.intercalate " " (words.map (Piece.render .functionArgument))

/-- The text of a call. -/
def render (call : Call) : String :=
  "$(" ++ call.name ++ " " ++ String.intercalate "," (call.args.map renderArg) ++ ")"

/-- The use of a call. -/
def toPiece (call : Call) : Piece :=
  .verbatim call.render

example : (((macroCall ⟨"LINK"⟩).arg [.plain "a.o", .plain "b c.o"]).arg [.plain "out"]).render =
    "$(call LINK,a.o b' c.o',out)" := by decide

end Call

end MakeGraph.Make
