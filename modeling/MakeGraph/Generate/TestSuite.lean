import MakeGraph.Generate.ToolVariables
import MakeGraph.Make.Layout

/-!
# `MakeGraph.Generate.TestSuite` — the targets `tests` and `test`

`tests` makes every test program, and `test` runs the tests. A driver is given the tests that it runs
as arguments, each as a single shell word (`asOneWord`).
-/

namespace MakeGraph.Generate

open Make (Command Error Piece Makefile Rule)

/-- The target that makes the test programs. -/
def makeTestsName : String := "tests"

/-- The target that runs the tests. -/
def runTestsName : String := "test"

/-- A program as the shell finds it without searching for it. -/
def programWord (target : RootedPath) : Piece :=
  if target.root = .build && !target.path.text.toList.contains '/' then
    .join [.verbatim "./", .path target]
  else .path target

/-- The words that run a program: its variables, the program, its options. -/
def invocation (program : TestProgram) : List Piece :=
  (program.env.map fun (key, value) => .join [.plain key, .verbatim "=", .plain value]) ++
    [programWord program.target] ++ Piece.plainTexts program.options

/-- Words as one shell word, which the shell reads as the text of the words. -/
def asOneWord (words : List Piece) : Piece :=
  let line := Make.separated .shellWord " " "" "" words
  if words.length > 1 then .verbatim (Shell.quote line) else .verbatim line

mutual

/-- The words that run a test. -/
def testWords : TestCase → List Piece
  | .test program => invocation program
  | .driver program _ tests => invocation program ++ testArguments tests

/-- The words that stand for tests among the arguments of a driver. -/
def testArguments : List TestCase → List Piece
  | [] => []
  | case :: cases => asOneWord (testWords case) :: testArguments cases

end

mutual

/-- The drivers of a test that edges make: a driver before those that it runs. -/
def generatedDrivers : TestCase → List RootedPath
  | .test _ => []
  | .driver program generated tests =>
      (if generated then [program.target] else []) ++ allGeneratedDrivers tests

/-- The drivers of tests that edges make. -/
def allGeneratedDrivers : List TestCase → List RootedPath
  | [] => []
  | case :: cases => generatedDrivers case ++ allGeneratedDrivers cases

end

/-- The rule that makes the test programs. -/
def testsRule (tests : Tests) : Rule where
  targets := [.plain makeTestsName]
  deps := tests.targets.map .path
  phony := true

/-- The rule that runs the tests. -/
def testRule (tests : Tests) : Rule where
  targets := [.plain runTestsName]
  deps :=
    (if tests.targets.isEmpty then [] else [.plain makeTestsName]) ++
      tests.extraDeps.map .path ++ (allGeneratedDrivers tests.cases).map .path
  recipe := some (.inline (tests.cases.map fun case => .words (testWords case)))
  phony := true

/-- The rules for tests. -/
def testRules (tests : Tests) : List Rule :=
  if tests.isEmpty then []
  else (if tests.targets.isEmpty then [] else [testsRule tests]) ++ [testRule tests]

/-- Adds the rules for tests. -/
def addTests (tests : Tests) (m : Makefile) : Except Error Makefile :=
  (testRules tests).foldlM Makefile.addRule m

end MakeGraph.Generate
