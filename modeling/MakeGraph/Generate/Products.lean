import MakeGraph.Generate.Object
import MakeGraph.Generate.Installation
import MakeGraph.Generate.Binary
import MakeGraph.Generate.TestSuite

/-!
# `MakeGraph.Generate.Products` — the Makefile of a build description

`generate` makes the whole Makefile in a fixed order: the variables of the directories, the target
`all`, what installs, what tests, the rules of every edge, the rule that makes directories, and the
rule that makes the Makefile again when the description changes. Which generator an edge has is the
matter of a table (`Handlers`); `generateBy` takes any.
-/

namespace MakeGraph.Generate

open Make (Call Error Piece Makefile Pattern Rule Variable)

/-! ## Directories -/

/-- The value of the variable of a root. -/
def rootValue? (env : Environment) (root : Root) : Option Piece :=
  if root = .source then some (.plain env.srcdir.text) else env.installDirs.value? root

/-- Declares the variable of a root, if it has one. -/
def declareDirectory (env : Environment) (m : Makefile) (root : Root) : Except Error Makefile :=
  match root.variableName?, rootValue? env root with
  | some name, some value => m.declare (.named name) (.line value) (.assigned .simple) none
  | _, _ => .ok m

/-- Declares the variables of all roots. -/
def declareDirectories (env : Environment) (m : Makefile) : Except Error Makefile :=
  Root.anchored.foldlM (declareDirectory env) m

/-- The pattern of the files that stand for directories. -/
def markPattern : Pattern :=
  ⟨"%/.dir", "", "/.dir"⟩

example : (Pattern.ofTemplate "%/.dir").toOption = some markPattern := by decide +kernel

/-- The rule that makes a directory and the file that stands for it. -/
def markRule : Rule :=
  let target := (Variable.named "@").toPiece
  let directory : Call :=
    ⟨"patsubst", [[markPattern.toPiece], [.verbatim "%"], [target]]⟩
  { targets := [markPattern.toPiece]
    recipe := some (.inline [
      .words [.verbatim "@mkdir", .plain "-p", directory.toPiece],
      .words [.verbatim "@touch", target]]) }

/-! ## Making the Makefile again -/

/-- The name of the Makefile. -/
def makefileName : String := "Makefile"

/-- The name of the file with the directories that were searched for sources. -/
def findDepsName : String := ".mkgen-find-deps"

/-- A file that is written beside the Makefile. -/
structure Companion where
  /-- Its name below the build directory. -/
  name : Path
  contents : String
deriving DecidableEq, Repr

/-- The rules by which the Makefile depends on the directories that were searched. -/
def findDepsText (dirs : List RootedPath) : String :=
  let dirs := dirs.map Piece.path
  makefileName ++ ":" ++ Make.separated .dependency " " " " "" dirs ++ "\n\n" ++
    String.join (dirs.map fun dir => dir.render .target ++ ":\n")

/-- The files beside the Makefile: one if any directory was searched. -/
def companions (graph : BuildGraph) : List Companion :=
  if graph.findDirs.isEmpty then [] else [⟨⟨findDepsName⟩, findDepsText graph.findDirs⟩]

/-- The rule that makes the Makefile. -/
def regenerateRule (env : Environment) : Rule where
  targets := [.plain makefileName]
  deps := [.path env.rootedDescription]
  recipe := some (.inline [.words (Piece.plainTexts [env.generator.text, "regenerate", "."])])

/-- Adds the rule that makes the Makefile, and includes the file beside it. -/
def addRegenerate (job : Job) (m : Makefile) : Except Error Makefile :=
  let m :=
    if job.graph.findDirs.isEmpty then m else m.addInclude (.path (.build findDepsName)) false
  m.addRule (regenerateRule job.env)

/-! ## Edges -/

/-- Adds what an edge needs. -/
abbrev Handler := Job → Edge → Makefile → Except Error Makefile

/-- The handlers of the kinds of edges. -/
abbrev Handlers := EdgeKind → Option Handler

/-- The rule of an alias. -/
def aliasRule (edge : AliasEdge) : Rule where
  targets := [.path edge.target]
  deps := edge.deps.map .path
  phony := true

/-- A command as it was given: a line as it is, words each quoted. -/
def commandOf : CommandLine → Make.Command
  | .line text => .line (.plain text)
  | .words texts => .words (Piece.plainTexts texts)

/-- The rule of a command edge. -/
def commandRule (edge : CommandEdge) : Rule where
  targets := [.path edge.target]
  deps := edge.deps.map .path
  recipe := some (.inline (edge.commands.map commandOf))
  phony := true

/-- The handler of the edges of one kind; it refuses any other. -/
def handlerOf (kind : EdgeKind) : Handler := fun job edge m =>
  match kind, edge with
  | .compile, .compile edge => addCompile job edge m
  | .link, .link edge => addLink job edge m
  | .group, .group edge => m.addRule (aliasRule edge)
  | .command, .command edge => m.addRule (commandRule edge)
  | _, edge => .error (.unhandledEdge edge.kind.name)

/-- The usual handlers: every kind has its own. -/
def usualHandlers : Handlers := fun kind =>
  some (handlerOf kind)

/-- Adds what an edge needs, by its kind's handler. -/
def addEdge (handlers : Handlers) (job : Job) (m : Makefile) (edge : Edge) :
    Except Error Makefile :=
  match handlers edge.kind with
  | some handler => handler job edge m
  | none => .error (.unhandledEdge edge.kind.name)

/-! ## The whole Makefile -/

/-- The rule of the target that makes everything. -/
def allRule (graph : BuildGraph) : Rule where
  targets := [.plain "all"]
  deps := graph.defaults.map .path
  phony := true

/-- The model of the Makefile of a build description. -/
def modelWith (handlers : Handlers) (env : Environment) (graph : BuildGraph) :
    Except Error Makefile := do
  let job : Job := ⟨env, graph⟩
  let m ← declareDirectories env .empty
  let m ← m.addRule (allRule graph)
  let m ← addInstall graph.install m
  let m ← addTests graph.tests m
  let m ← graph.edges.foldlM (addEdge handlers job) m
  let m ← m.addRule markRule
  addRegenerate job m

/-- What is generated from a build description. -/
structure Products where
  /-- The text of the Makefile. -/
  makefile : String
  /-- The files beside it. -/
  companions : List Companion
deriving DecidableEq, Repr

/-- Generates with a table of handlers. -/
def generateBy (handlers : Handlers) (env : Environment) (graph : BuildGraph) :
    Except Error Products := do
  let m ← modelWith handlers env graph
  return ⟨m.render, companions graph⟩

/-- Generates the Makefile of a build description and the files beside it. -/
def generate (env : Environment) (graph : BuildGraph) : Except Error Products :=
  generateBy usualHandlers env graph

end MakeGraph.Generate
