import MakeGraph.Make.Model

/-!
# `MakeGraph.Make.Layout` — a Makefile as text

`Makefile.render` writes a model in a fixed order of sections, and within a section in the order of
its entries: global variables, pattern-scoped variables, definitions, rules, includes. Every
piece is written for the place in which it stands; the punctuation between them is written as it
is.
-/

namespace MakeGraph.Make

/-! ## Lists and commands -/

/-- Pieces with `delimiter` between each two. Before the first stands `opening` and after the
last `closing`; an empty list has neither. -/
def separated (context : Context) (delimiter opening closing : String) :
    List Piece → String
  | [] => ""
  | pieces =>
      opening ++ String.intercalate delimiter (pieces.map (Piece.render context)) ++ closing

/-- The text of a command: a line as it is, words quoted and with a space between each two. -/
def Command.render : Command → String
  | line piece => piece.render .shellLine
  | words pieces => separated .shellWord " " "" "" pieces

/-! ## Variables -/

/-- The operator of an assignment, with the spaces around it. -/
def Assignment.operator : Assignment → String
  | simple => " := "
  | recursive => " = "

/-- The line of an assignment, scoped to a target or global. -/
def renderAssignment (target : Option Piece) (v : Variable) (value : Command)
    (assignment : Assignment) : String :=
  let scope := match target with
    | some piece => piece.render .target ++ ": "
    | none => ""
  scope ++ v.name ++ assignment.operator ++ value.render ++ "\n"

/-- The lines of the assignments of one scope. -/
def Bindings.render (target : Option Piece) (bindings : Bindings) : String :=
  String.join (bindings.map fun (v, value, assignment) =>
    renderAssignment target v value assignment)

/-- The block of a multi-line definition. -/
def renderDefine (v : Variable) (lines : List Command) : String :=
  "define " ++ v.name ++ "\n" ++ String.join (lines.map (·.render ++ "\n")) ++ "endef\n\n"

/-! ## Rules and includes -/

/-- What follows the prerequisites of a rule. -/
def Recipe.render : Recipe → String
  | inline commands => String.join (commands.map ("\n\t" ++ ·.render))
  | shared reference => " ; " ++ reference.render .shellLine

namespace Rule

/-- The lines of the variables that a rule sets for its targets. -/
def renderVariables (rule : Rule) : String :=
  String.join (rule.targets.map fun target =>
    String.join (rule.overrides.map fun (v, value) =>
      renderAssignment (some target) v value .simple))

/-- The line that marks the targets of a rule as phony. -/
def renderPhony (rule : Rule) : String :=
  if rule.phony then ".PHONY: " ++ separated .dependency " " "" "" rule.targets ++ "\n" else ""

/-- The targets and prerequisites of a rule. -/
def renderHeader (rule : Rule) : String :=
  separated .target " " "" "" rule.targets ++ ":" ++
    separated .dependency " " " " "" rule.deps ++
    separated .dependency " " " | " "" rule.orderOnly

/-- The commands of a rule. -/
def renderRecipe (rule : Rule) : String :=
  match rule.recipe with
  | some recipe => recipe.render
  | none => ""

/-- The text of a rule: its variables, its phony mark, its header and its recipe. -/
def render (rule : Rule) : String :=
  rule.renderVariables ++ rule.renderPhony ++ rule.renderHeader ++ rule.renderRecipe ++ "\n\n"

end Rule

/-- The line of an include directive. -/
def Include.render (inc : Include) : String :=
  (if inc.optional then "-include " else "include ") ++ inc.name.render .target ++ "\n"

/-! ## The whole file -/

namespace Makefile

/-- The global variables, with an empty line after them. -/
def renderGlobals (m : Makefile) : String :=
  if m.globals.isEmpty then "" else Bindings.render none m.globals ++ "\n"

/-- The pattern-scoped variables, with an empty line after them. -/
def renderScopes (m : Makefile) : String :=
  if m.scopes.all fun (_, bindings) => bindings.isEmpty then ""
  else
    String.join (m.scopes.map fun (pattern, bindings) =>
      Bindings.render (some pattern.toPiece) bindings) ++ "\n"

/-- The multi-line definitions. -/
def renderDefines (m : Makefile) : String :=
  String.join (m.defines.map fun (v, lines) => renderDefine v lines)

/-- The text of the whole file. -/
def render (m : Makefile) : String :=
  ".SUFFIXES:\n\n" ++ m.renderGlobals ++ m.renderScopes ++ m.renderDefines ++
    String.join (m.rules.map Rule.render) ++ String.join (m.includes.map Include.render)

example : empty.render = ".SUFFIXES:\n\n, := ,\n\n" := by decide

end Makefile

end MakeGraph.Make
