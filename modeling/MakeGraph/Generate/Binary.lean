import MakeGraph.Generate.ToolVariables

/-!
# `MakeGraph.Generate.Binary` — the rules of link edges

The command of a link stands in one shared definition for each linker, such as `RULE_LINK_CC`, which
takes the inputs as `$1` and the output as `$2`. A link with an import library makes two files: both
depend on a stamp, and only the stamp has a recipe, so that the command runs once.
-/

namespace MakeGraph.Generate

open Make (Call Command Error Piece Makefile Recipe Rule Variable)

/-- The ending of a stamp. -/
def stampExtension : String := ".stamp"

/-- The shared recipe of a linker whose command is in `command`. -/
def linkRecipe (linker : Linker) (command : Variable) : List Command := [
  .words (linker.command {
    linker := command.toPiece
    inputs := (Variable.named "1").toPiece
    output := (Variable.named "2").toPiece
    libs := linker.libsStem.map fun name => (flagsVariable name).toPiece
    flags := [(flagsVariable linker.flagsStem).toPiece] })]

/-- Defines the shared recipe of a linker, once. -/
def defineLinkRecipe (m : Makefile) (linker : Linker) : Except Error Makefile :=
  let recipe := sharedRecipe linker.recipeStem
  if m.declares recipe none then .ok m
  else do
    let (command, m) ← declareProgram m linker.programStem linker.program
    m.define recipe (linkRecipe linker command)

/-- The flags of every link of a kind. -/
def globalLinkFlags (linker : Linker) (graph : BuildGraph) (mode : LinkMode) : List String :=
  if mode = .staticLibrary then linker.usualFlags
  else linker.usualFlags ++ graph.globalLinkOptions

/-- The flags of one binary only. -/
def linkFlags (linker : Linker) (edge : LinkEdge) : Except Error (List Piece) := do
  let own :=
    if edge.mode = .staticLibrary then []
    else
      Piece.plainTexts edge.options ++ linker.searchFlags edge.libs ++
        linker.runPath edge.libs edge.output
  let imported ← match edge.importLibrary with
    | some path => linker.importFlags path
    | none => .ok []
  return linker.modeFlags ++ own ++ imported

/-- The arguments that link the libraries of one binary. -/
def linkLibs (linker : Linker) (edge : LinkEdge) : Except Error (List Piece) := do
  return (← edge.libs.mapM linker.libraryWords).flatten

/-- The variables that the rule of a link sets: the flags and the libraries of this binary only. -/
def linkVariables (linker : Linker) (edge : LinkEdge) (flags libs : List Piece) :
    Table Variable Command :=
  let flagsEntry :=
    if flags.isEmpty then []
    else [(flagsVariable linker.flagsStem, withGlobalFlags linker.flagsStem flags)]
  let libsEntry := match linker.libsStem with
    | some name =>
        if edge.libs.isEmpty then [] else [(flagsVariable name, withGlobalFlags name libs)]
    | none => []
  flagsEntry ++ libsEntry

/-- The call of the shared recipe for an edge. -/
def linkCall (linker : Linker) (edge : LinkEdge) : Call :=
  ((Call.macroCall (sharedRecipe linker.recipeStem)).arg (edge.files.map .path)).arg
    [.path edge.output]

/-- The prerequisites of a link. -/
def linkDeps (edge : LinkEdge) : List RootedPath :=
  edge.files ++ (edge.libs.filter (·.generated)).map (·.path) ++ edge.extraDeps

/-- The stamp of a link with two outputs. -/
def stamp (edge : LinkEdge) : RootedPath :=
  edge.output.addExtension stampExtension

/-- The rules of a link edge: the one with its recipe comes last. -/
def linkRules (linker : Linker) (edge : LinkEdge) (overrides : Table Variable Command) :
    List Rule :=
  let call := (linkCall linker edge).toPiece
  let deps : List Piece := (linkDeps edge).map .path
  let orderOnly := directoryMarks edge.outputs
  match edge.importLibrary with
  | none =>
      [{ targets := [.path edge.output], deps, orderOnly, overrides, recipe := some (.shared call) }]
  | some _ =>
      let touch := Command.words [.verbatim "@touch", (Variable.named "@").toPiece]
      [{ targets := edge.outputs.map .path, deps := [.path (stamp edge)] },
       { targets := [.path (stamp edge)], deps, orderOnly, overrides
         recipe := some (.inline [.line call, touch]) }]

/-- Declares the variables with the libraries of a linker, if its binaries have any, and finds the
arguments for the libraries of an edge. -/
def declareLibs (m : Makefile) (linker : Linker) (edge : LinkEdge) :
    Except Error (List Piece × Makefile) :=
  match linker.libsStem with
  | none => .ok ([], m)
  | some name => do
      let m ← declareFlags m name linker.usualLibs
      return (← linkLibs linker edge, m)

/-- Adds what a link edge needs. -/
def addLink (job : Job) (edge : LinkEdge) (m : Makefile) : Except Error Makefile := do
  let linker ← job.toolchain.linker edge.lang edge.mode
  let m ← declareFlags m linker.flagsStem (globalLinkFlags linker job.graph edge.mode)
  let flags ← linkFlags linker edge
  let (libs, m) ← declareLibs m linker edge
  let m ← defineLinkRecipe m linker
  (linkRules linker edge (linkVariables linker edge flags libs)).foldlM Makefile.addRule m

end MakeGraph.Generate
