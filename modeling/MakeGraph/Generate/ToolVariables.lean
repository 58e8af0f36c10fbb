import MakeGraph.Environment.Basic
import MakeGraph.Make.Model

/-!
# `MakeGraph.Generate.ToolVariables` — variables that rules share

Every tool has one variable with its command, such as `CC := cc`, and two with its flags:
`GLOBAL_CFLAGS` holds the flags of all its uses, and `CFLAGS`, scoped to all targets, refers to it.
A rule with flags of its own sets `CFLAGS` for its target only. All three are declared by the first
edge that needs them.
-/

namespace MakeGraph.Generate

open Make (Command Error Piece Makefile Pattern Variable)

/-- What a run works with. -/
structure Job where
  /-- The environment of the run. -/
  env : Environment
  /-- The description. -/
  graph : BuildGraph

/-- The tools of a run. -/
def Job.toolchain (job : Job) : Toolchain :=
  job.env.toolchain

/-- A variable whose value is a plain word or line, declared once. -/
def declareLine (m : Makefile) (name : String) (value : Piece) :
    Except Error (Variable × Makefile) := do
  let v := Variable.named name
  return (v, ← m.declareOnce v (.line value) (.assigned .simple) none)

/-- The variable with the command of a tool. -/
def declareProgram (m : Makefile) (name command : String) : Except Error (Variable × Makefile) :=
  declareLine m name.toUpper (.plain command)

/-- The variable with the flags of a tool. -/
def flagsVariable (name : String) : Variable :=
  .named name.toUpper

/-- The variable with the flags of all uses of a tool. -/
def globalFlagsVariable (name : String) : Variable :=
  .named ("GLOBAL_" ++ name.toUpper)

/-- Declares the variables with the flags of a tool, the global one with the given flags. -/
def declareFlags (m : Makefile) (name : String) (flags : List String) : Except Error Makefile := do
  let global := globalFlagsVariable name
  let m ← m.declareOnce global (.words (Piece.plainTexts flags)) (.assigned .simple) none
  m.declareOnce (flagsVariable name) (.words [global.toPiece]) (.assigned .simple)
    (some Pattern.any)

/-- The variable that holds the shared recipe of a tool. -/
def sharedRecipe (stem : String) : Variable :=
  .named ("RULE_" ++ stem.toUpper)

/-- The file that stands for a directory among prerequisites. -/
def directoryMark (dir : RootedPath) : RootedPath :=
  dir.join ".dir"

/-- The marks of the directories of outputs, each once; the root itself needs none. -/
def directoryMarks (outputs : List RootedPath) : List Piece :=
  ((distinct RootedPath.same (outputs.map RootedPath.parent)).filter (!·.isRootItself)).map fun dir =>
    .path (directoryMark dir)

/-- The value of a flags variable for one rule: the global flags, then flags of its own. -/
def withGlobalFlags (name : String) (flags : List Piece) : Command :=
  .words ((globalFlagsVariable name).toPiece :: flags)

end MakeGraph.Generate
