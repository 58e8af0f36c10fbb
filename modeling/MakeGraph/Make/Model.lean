import MakeGraph.Make.Symbol
import MakeGraph.Table

/-!
# `MakeGraph.Make.Model` — the model of a Makefile

A `Makefile` holds global variables, variables scoped to a pattern, multi-line definitions, rules
and includes, each in the order in which it was added. Names and targets are checked when something
is added: a failing operation gives an `Error` and no model, and a succeeding one appends exactly
one entry.

## Contents

* `Command`, `Recipe`, `Rule`, `Include`, `Makefile` — the parts
* `Makefile.declare`, `Makefile.declareOnce`, `Makefile.define` — variables and definitions
* `Makefile.addRule`, `Makefile.addInclude` — rules and includes
* `Makefile.declares`, `Makefile.makes` — questions
-/

namespace MakeGraph.Make

/-! ## Parts -/

/-- A shell command, or the value of a variable. -/
inductive Command where
  /-- A whole line, written as it is. -/
  | line (piece : Piece)
  /-- Words, each quoted for itself. -/
  | words (pieces : List Piece)
deriving Repr, Inhabited

/-- How make expands a variable. -/
inductive Assignment where
  /-- Once, where it is assigned: `:=`. -/
  | simple
  /-- At every use: `=`. -/
  | recursive
deriving DecidableEq, Repr

/-- What a declaration asks for: an assignment, or a definition of one line. -/
inductive Flavor where
  /-- An assignment with the given operator. -/
  | assigned (assignment : Assignment)
  /-- A `define` block. -/
  | defined
deriving DecidableEq, Repr

/-- The commands that bring the targets of a rule up to date. -/
inductive Recipe where
  /-- Commands of its own, one on a line each. -/
  | inline (commands : List Command)
  /-- A reference to a shared definition, written on the rule's own line. -/
  | shared (reference : Piece)
deriving Repr

/-- A rule. -/
structure Rule where
  /-- What the rule makes. -/
  targets : List Piece
  /-- The prerequisites. -/
  deps : List Piece := []
  /-- The prerequisites that must exist but whose age does not matter. -/
  orderOnly : List Piece := []
  /-- How the targets are made. -/
  recipe : Option Recipe := none
  /-- Variables with a value of their own for these targets. -/
  overrides : Table Variable Command := []
  /-- Whether the targets are names only and no files. -/
  phony : Bool := false
deriving Repr

/-- An include directive. -/
structure Include where
  /-- The included file. -/
  name : Piece
  /-- Whether the file may be missing. -/
  optional : Bool
deriving Repr

/-- The assignments of one scope. -/
abbrev Bindings := Table Variable (Command × Assignment)

/-- The model of a Makefile. -/
structure Makefile where
  /-- Global variables. -/
  globals : Bindings
  /-- Variables scoped to the targets that match a pattern. -/
  scopes : Table Pattern Bindings
  /-- Multi-line definitions. -/
  defines : Table Variable (List Command) := []
  /-- Rules. -/
  rules : List Rule := []
  /-- The targets of the rules as written, in order. -/
  claimed : List String := []
  /-- Include directives. -/
  includes : List Include := []
deriving Repr

/-- The texts under which the targets of a rule are claimed. -/
def Rule.claims (rule : Rule) : List String :=
  rule.targets.map (Piece.render .target)

namespace Makefile

/-- The empty model: the scope of all targets, and the variable `,` with which function arguments
escape commas. -/
def empty : Makefile where
  globals := [(⟨","⟩, (.line (.plain ","), .simple))]
  scopes := [(.any, [])]

/-! ## Variables and definitions -/

/-- The assignments of a scope; `none` asks for the global ones. -/
def bindings (m : Makefile) : Option Pattern → Bindings
  | none => m.globals
  | some pattern => (m.scopes.find? pattern).getD []

/-- Whether a scope declares a name. Global variables and definitions share their names. -/
def declares (m : Makefile) (v : Variable) (scope : Option Pattern) : Bool :=
  (m.bindings scope).contains v || (scope.isNone && m.defines.contains v)

/-- Fails when a scope declares a name already. -/
def requireFree (m : Makefile) (v : Variable) (scope : Option Pattern) : Except Error Unit :=
  if m.declares v scope then .error (.variableTaken v.name (scope.map (·.template)))
  else .ok ()

/-- Declares a variable in a scope that does not declare it yet. A definition has no scope. -/
def declare (m : Makefile) (v : Variable) (value : Command) (flavor : Flavor)
    (scope : Option Pattern) : Except Error Makefile := do
  m.requireFree v scope
  match flavor, scope with
  | .defined, some _ => .error (.scopedDefinition v.name)
  | .defined, none => .ok { m with defines := m.defines.append v [value] }
  | .assigned assignment, some pattern =>
      let bindings := (m.bindings scope).append v (value, assignment)
      .ok { m with scopes := m.scopes.insert pattern bindings }
  | .assigned assignment, none =>
      .ok { m with globals := m.globals.append v (value, assignment) }

/-- Declares a variable unless its scope declares the name already. -/
def declareOnce (m : Makefile) (v : Variable) (value : Command) (flavor : Flavor)
    (scope : Option Pattern) : Except Error Makefile :=
  if m.declares v scope then .ok m else m.declare v value flavor scope

/-- Adds a definition of several lines. -/
def define (m : Makefile) (v : Variable) (lines : List Command) : Except Error Makefile := do
  m.requireFree v none
  .ok { m with defines := m.defines.append v lines }

/-! ## Rules and includes -/

/-- The first text that is taken already or stands earlier in the list. -/
def firstTaken? (taken : List String) : List String → Option String
  | [] => none
  | text :: rest => if text ∈ taken then some text else firstTaken? (taken ++ [text]) rest

/-- Adds a rule, whose targets must be new and all different. -/
def addRule (m : Makefile) (rule : Rule) : Except Error Makefile :=
  if rule.targets.isEmpty then .error .noTargets
  else match firstTaken? m.claimed rule.claims with
    | some target => .error (.targetTaken target)
    | none => .ok { m with rules := m.rules ++ [rule], claimed := m.claimed ++ rule.claims }

/-- Whether a rule makes a target. -/
def makes (m : Makefile) (target : Piece) : Bool :=
  m.claimed.contains (target.render .target)

/-- Adds an include directive. -/
def addInclude (m : Makefile) (name : Piece) (optional : Bool) : Makefile :=
  { m with includes := m.includes ++ [⟨name, optional⟩] }

end Makefile

end MakeGraph.Make
