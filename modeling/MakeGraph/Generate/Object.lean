import MakeGraph.Generate.ToolVariables

/-!
# `MakeGraph.Generate.Object` — the rules of compile edges

Every compile edge has a rule of its own for its object. The command stands in one shared definition
for each compiler, `RULE_CC` or `RULE_CXX`; flags of one file only are set for its target. A compiler
that writes a file of dependencies has it included, and extended by an empty rule for every header.
-/

namespace MakeGraph.Generate

open Make (Command Error Piece Makefile Recipe Rule Variable)

/-- The lines that add, for every header named in `depfile`, a rule without prerequisites, so that a
deleted header does not stop make. -/
def headerRules (depfile : Piece) : List Command := [
  .line (.join [.plain "@sed -e 's/.*://' -e 's/\\\\$//' < ", depfile,
    .plain " | fmt -1 | \\"]),
  .line (.join [.plain "  sed -e 's/^ *//' -e 's/$/:/' >> ", depfile])]

/-- The lines of the shared recipe of a compiler whose command is in `command`. -/
def compileRecipe (compiler : Compiler) (command : Variable) : List Command :=
  let target := (Variable.named "@").toPiece
  let depfile := Piece.join [target, .plain ".d"]
  let (report, filter) : ReportRequest × List Command := match compiler.headerReport with
    | .gcc => (.file depfile, headerRules depfile)
    | .msvc => (.inline, [])
    | .none => (.none, [])
  let words := compiler.command {
    compiler := command.toPiece
    source := (Variable.named "<").toPiece
    object := target
    report
    flags := [(flagsVariable compiler.flagsStem).toPiece] }
  .words words :: filter

/-- Defines the shared recipe of a compiler, once. -/
def defineCompileRecipe (m : Makefile) (compiler : Compiler) : Except Error Makefile :=
  let recipe := sharedRecipe compiler.recipeStem
  if m.declares recipe none then .ok m
  else do
    let (command, m) ← declareProgram m compiler.programStem compiler.program
    m.define recipe (compileRecipe compiler command)

/-- The flags of one file only. -/
def compileFlags (compiler : Compiler) (edge : CompileEdge) : List Piece :=
  (if edge.inSharedLibrary then compiler.sharedFlags else []) ++
    edge.includeDirs.flatMap compiler.includeFlags ++ Piece.plainTexts edge.options

/-- The rule of a compile edge. -/
def compileRule (compiler : Compiler) (edge : CompileEdge) : Rule :=
  let flags := compileFlags compiler edge
  { targets := [.path edge.output]
    deps := (edge.source :: edge.extraDeps).map .path
    orderOnly := directoryMarks [edge.output]
    recipe := some (.shared (sharedRecipe compiler.recipeStem).toPiece)
    overrides :=
      if flags.isEmpty then []
      else [(flagsVariable compiler.flagsStem, withGlobalFlags compiler.flagsStem flags)] }

/-- The flags of every file of a language. -/
def globalCompileFlags (compiler : Compiler) (graph : BuildGraph) (lang : String) : List String :=
  compiler.usualFlags ++ (graph.globalOptions.find? lang).getD []

/-- Adds what a compile edge needs. -/
def addCompile (job : Job) (edge : CompileEdge) (m : Makefile) : Except Error Makefile := do
  let compiler ← job.toolchain.compiler edge.lang
  let m ← declareFlags m compiler.flagsStem (globalCompileFlags compiler job.graph edge.lang)
  let m ← defineCompileRecipe m compiler
  let m ← m.addRule (compileRule compiler edge)
  return match compiler.headerReport with
    | .gcc => m.addInclude (.path (edge.output.addExtension ".d")) true
    | .none | .msvc => m

end MakeGraph.Generate
