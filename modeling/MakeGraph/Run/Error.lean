import MakeGraph.Environment.Saved
import MakeGraph.Graph.Decode
import MakeGraph.Make.Error

/-!
# `MakeGraph.Run.Error` — the effects of a run, and why a run fails

A run changes files by a few `Effect`s. `Run.Error` has one constructor for each cause that stops a
run, and `Run.Error.message` tells the cause behind what the run was doing.
-/

namespace MakeGraph.Run

/-! ## Effects -/

/-- One change to the files. -/
inductive Effect where
  /-- Sees to it that the build directory is there. -/
  | makeDirectories (builddir : Path)
  /-- Puts a complete file in the place of another, so that nobody sees half of it. -/
  | replace (file : Path) (contents : String)
  /-- Writes the file with the environment where it stands. -/
  | save (file : Path) (contents : String)
deriving DecidableEq, Repr

/-- What an effect does, as a failure tells it. -/
def Effect.doing : Effect → String
  | makeDirectories builddir => "create build directory " ++ builddir.text
  | replace file _ => "replace " ++ file.text
  | save file _ => "write environment to " ++ file.text

/-! ## Failures -/

/-- Why a run fails. -/
inductive Error where
  /-- The empty path, which has no absolute form. -/
  | emptyPath
  /-- The description is not a file. -/
  | noDescription (description : Path)
  /-- A directory to make the Makefile of again holds no environment. -/
  | noEnvironment (builddir : Path)
  /-- A tool variable that does not split. -/
  | tools (cause : ToolConfig.Error)
  /-- A saved environment that does not load. -/
  | environment (cause : Environment.LoadError)
  /-- A description that is there but cannot be read. -/
  | unreadable (description : Path) (cause : FileError)
  /-- A description that does not load. -/
  | description (description : Path) (cause : BuildGraph.Error)
  /-- A description that no Makefile can be made of. -/
  | makefile (description : Path) (cause : Make.Error)
  /-- An effect that fails. -/
  | effect (effect : Effect) (cause : FileError)
deriving DecidableEq, Repr

/-- The wording for a run that fails. A description that does not fit is told twice: as the failure
and as its cause. -/
def Error.message : Error → String
  | emptyPath => "resolve absolute path of : cannot make an empty path absolute"
  | noDescription file => "build description " ++ file.text ++ " not found"
  | noEnvironment builddir => builddir.text ++ " was not generated by mkgen"
  | tools cause => "resolve tool configuration: " ++ cause.message
  | environment cause => cause.message
  | unreadable file cause =>
      "load build description " ++ file.text ++ ": failed to read build description "
        ++ file.text ++ ": " ++ cause.message
  | description file (.invalid cause) =>
      "load build description " ++ file.text ++ ": invalid build description: "
        ++ cause.message ++ ": " ++ cause.message
  | description file (.otherMajor found) =>
      "load build description " ++ file.text ++ ": " ++ BuildGraph.Error.otherMajorMessage found
  | makefile file cause => "generate Makefile for " ++ file.text ++ ": " ++ cause.message
  | effect failed cause => failed.doing ++ ": " ++ cause.message

end MakeGraph.Run
