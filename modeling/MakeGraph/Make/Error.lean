/-!
# `MakeGraph.Make.Error` — why a Makefile cannot be assembled

Every cause is one constructor of `Error` and carries the values that its report names. The report
has three parts: `Error.message`, the stable diagnostic `Error.code`, and for some causes
`Error.help`.
-/

namespace MakeGraph.Make

/-- The reasons for which building or writing a Makefile fails. Each is fatal to its run. -/
inductive Error where
  /-- A pattern template without exactly one live wildcard; `found` counts them. -/
  | liveWildcards (template : String) (found : Nat)
  /-- A variable that its scope already declares; `scope` is the template of a pattern scope. -/
  | variableTaken (name : String) (scope : Option String)
  /-- A target, as written in the Makefile, that a rule already claims. -/
  | targetTaken (target : String)
  /-- A rule without targets. -/
  | noTargets
  /-- A multi-line definition asked for under a pattern scope. -/
  | scopedDefinition (name : String)
  /-- A name that no rendering context has. -/
  | unknownContext (name : String)
  /-- A library file whose name no link flag can stand for. -/
  | unnamedLibrary (name : String)
  /-- An operation that the link mode does not have. -/
  | missingFromMode (operation mode : String)
  /-- An edge kind without a rule generator. -/
  | unhandledEdge (kind : String)
  /-- A language for which the toolchain has no `tool`. -/
  | toolMissing (tool lang : String)
deriving DecidableEq, Repr

namespace Error

/-- What is wrong, in one line. -/
def message : Error → String
  | liveWildcards template found =>
      "pattern '" ++ template ++ "' must contain exactly one '%' wildcard, found "
        ++ toString found
  | variableTaken name none => "variable '" ++ name ++ "' already exists"
  | variableTaken name (some scope) =>
      "variable '" ++ name ++ "' already exists for pattern '" ++ scope ++ "'"
  | targetTaken target => "rule for '" ++ target ++ "' already exists"
  | noTargets => "a rule must have at least one target"
  | scopedDefinition name => "macro '" ++ name ++ "' cannot be scoped to a pattern"
  | unknownContext name => "unknown syntax '" ++ name ++ "'"
  | unnamedLibrary name => "'" ++ name ++ "' is not a valid library name"
  | missingFromMode operation mode => operation ++ " is not supported for " ++ mode ++ " linking"
  | unhandledEdge kind => "no rule generator registered for '" ++ kind ++ "' edges"
  | toolMissing tool lang => "no " ++ tool ++ " available for language '" ++ lang ++ "'"

/-- The stable code under which tools recognise the diagnostic. -/
def code : Error → String
  | liveWildcards .. => "mkgen::make::invalid_pattern"
  | variableTaken .. => "mkgen::make::duplicate_variable"
  | targetTaken .. => "mkgen::make::duplicate_target"
  | noTargets => "mkgen::make::empty_targets"
  | scopedDefinition .. => "mkgen::make::scoped_define"
  | unknownContext .. => "mkgen::make::unsupported_syntax"
  | unnamedLibrary .. => "mkgen::make::invalid_library_name"
  | missingFromMode .. => "mkgen::make::unsupported_mode"
  | unhandledEdge .. => "mkgen::make::unknown_edge_type"
  | toolMissing .. => "mkgen::make::unknown_language"

/-- Advice on how to mend the cause, where there is one. -/
def help : Error → Option String
  | variableTaken .. => some "use the declare-once helpers for variables shared between rules"
  | _ => none

end Error

end MakeGraph.Make
