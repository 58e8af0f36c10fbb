import MakeGraph.Graph.Basic
import MakeGraph.Make.Piece
import MakeGraph.Tool.Config

/-!
# `MakeGraph.Tool.Compiler` — what a compiler's command looks like

A `Compiler` knows where flags, input and output go in its command, how it spells a header directory,
and how it reports the headers that it reads. There are two: the drivers that take the options of
GCC, one for each language, and Microsoft's `cl`, which compiles both languages.
-/

namespace MakeGraph

open Make (Piece)

/-! ## Languages -/

/-- A source language that has tools. -/
inductive Language where
  | c
  | cxx
deriving DecidableEq, Repr

/-- The language of a name. -/
def Language.named? : String → Option Language
  | "c" => some c
  | "c++" => some cxx
  | _ => none

/-- The language of a name, for the use of a `tool`. -/
def Language.named (tool text : String) : Except Make.Error Language :=
  match named? text with
  | some language => .ok language
  | none => .error (.toolMissing tool text)

/-! ## Compilers -/

/-- How a compiler reports the headers that it reads. -/
inductive HeaderReport where
  | none
  /-- In a file of make rules. -/
  | gcc
  /-- On its output. -/
  | msvc
deriving DecidableEq, Repr

/-- The name of a way of reporting headers. -/
def HeaderReport.name : HeaderReport → String
  | none => "none"
  | gcc => "gcc"
  | msvc => "msvc"

/-- The report that a compile command asks for. -/
inductive ReportRequest where
  | none
  /-- A file of make rules. -/
  | file (name : Piece)
  /-- Lines on the compiler's output. -/
  | inline
deriving Repr

/-- The operands of a compile command. -/
structure CompileOperands where
  /-- The compiler. -/
  compiler : Piece
  /-- The source file. -/
  source : Piece
  /-- The object file. -/
  object : Piece
  /-- The report on headers. -/
  report : ReportRequest := .none
  /-- Flags before the source. -/
  flags : List Piece := []
deriving Repr

/-- What is to be known of a compiler. -/
structure Compiler where
  /-- What the shared recipe is named after. -/
  recipeStem : String
  /-- What the variable with the command is named after. -/
  programStem : String
  /-- The command. -/
  program : String
  /-- What the variable with the flags is named after. -/
  flagsStem : String
  /-- The flags of every compilation. -/
  usualFlags : List String
  /-- How the compiler reports headers. -/
  headerReport : HeaderReport
  /-- The flags for objects of shared libraries. -/
  sharedFlags : List Piece
  /-- The flags that add a directory of headers. -/
  includeFlags : IncludeDir → List Piece
  /-- The whole command. -/
  command : CompileOperands → List Piece

/-- A flag with a piece right behind it. -/
def flagged (flag : String) (operand : Piece) : Piece :=
  .join [.plain flag, operand]

namespace Compiler

/-- The variable with the command of the compiler of a language. -/
def driverVar : Language → String
  | .c => "cc"
  | .cxx => "cxx"

/-- A compiler that takes the options of GCC. -/
def cc (language : Language) (tools : ToolConfig) : Compiler where
  recipeStem := driverVar language
  programStem := driverVar language
  program := match language with
    | .c => tools.cc
    | .cxx => tools.cxx
  flagsStem := match language with
    | .c => "cflags"
    | .cxx => "cxxflags"
  usualFlags := match language with
    | .c => tools.cflags ++ tools.cppflags
    | .cxx => tools.cxxflags ++ tools.cppflags
  headerReport := .gcc
  sharedFlags := [.plain "-fPIC"]
  includeFlags := fun dir => [flagged (if dir.system then "-isystem" else "-I") (.path dir.path)]
  command := fun c =>
    let report := match c.report with
      | .file name => [.plain "-MMD", .plain "-MF", name]
      | .none | .inline => []
    [c.compiler] ++ c.flags ++ [.plain "-c", c.source] ++ report ++ [.plain "-o", c.object]

/-- Microsoft's compiler. -/
def msvc (tools : ToolConfig) : Compiler where
  recipeStem := "cxx"
  programStem := "cxx"
  program := tools.cxx
  flagsStem := "cxxflags"
  usualFlags := tools.cxxflags ++ tools.cppflags
  headerReport := .msvc
  sharedFlags := []
  includeFlags := fun dir => [flagged "/I" (.path dir.path)]
  command := fun c =>
    let report := match c.report with
      | .none => []
      | .file _ | .inline => [.plain "/showIncludes"]
    [c.compiler] ++ c.flags ++ report ++ [.plain "/c", c.source, flagged "/Fo" c.object]

end Compiler

end MakeGraph
