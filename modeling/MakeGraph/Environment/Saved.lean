import MakeGraph.Environment.Basic
import MakeGraph.FileTree.Basic

/-!
# `MakeGraph.Environment.Saved` — the environment that a build directory holds

`Environment.load` makes an environment of what the file in a build directory holds.
-/

namespace MakeGraph.Environment

/-- Why the environment of a build directory does not load. -/
inductive LoadError where
  /-- Its file cannot be read. -/
  | unreadable (file : Path) (cause : FileError)
  /-- Its file does not hold an environment. -/
  | invalid (file : Path) (cause : Json.Issue)
deriving DecidableEq, Repr

/-- The wording for an environment that does not load. -/
def LoadError.message : LoadError → String
  | unreadable file cause => "read environment from " ++ file.text ++ ": " ++ cause.message
  | invalid file cause => "parse environment in " ++ file.text ++ ": " ++ cause.message

/-- The environment of a build directory, by what reading its file gave. -/
def load (builddir : Path) (contents : Except FileError String) : Except LoadError Environment := do
  let text ← contents.mapError (.unreadable (savedPath builddir))
  (parse text).mapError (.invalid (savedPath builddir))

end MakeGraph.Environment
