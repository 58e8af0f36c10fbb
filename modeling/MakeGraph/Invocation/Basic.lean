import MakeGraph.Environment.InstallDirs
import MakeGraph.Tool.Platform

/-!
# `MakeGraph.Invocation.Basic` — what the program is asked to do

An `Invocation` is a `Command` and a wish for diagnostics. There are three commands: to write the
Makefile of a description, to print it, and to make the Makefile of a build directory again. An
argument list that holds no command has one of the reasons in `Invocation.Stop`.
-/

namespace MakeGraph

namespace Invocation

/-- A description and the circumstances that its Makefile is made for. -/
structure Request where
  /-- The file with the build description. -/
  description : Path
  /-- The directory that the Makefile is written to. -/
  builddir : Path := ⟨"build"⟩
  /-- The source directory, if it is not the one of the description. -/
  srcdir : Option Path := none
  /-- The family of the tools, if one was chosen. -/
  family : Option ToolFamily := none
  /-- The system that is built for, if one was chosen. -/
  platform : Option Platform := none
  /-- Where things are installed. -/
  installDirs : InstallDirs := {}
deriving DecidableEq, Repr

/-- What the program is asked to do. -/
inductive Command where
  /-- To write the Makefile of a description. -/
  | generate (request : Request)
  /-- To print the Makefile of a description. -/
  | print (request : Request)
  /-- To make the Makefile of a build directory again. -/
  | regenerate (builddir : Path)
deriving DecidableEq, Repr

end Invocation

/-- A command, and whether it is to report its progress. -/
structure Invocation where
  verbose : Bool
  command : Invocation.Command
deriving DecidableEq, Repr

namespace Invocation

/-- Why an argument list holds no command to run. -/
inductive Stop where
  /-- Help was asked for. -/
  | help
  /-- The version was asked for. -/
  | version
  /-- There is nothing at all, so help is due. -/
  | nothingGiven
  /-- There are options, but no command. -/
  | commandMissing
  /-- A word in the command's place names no command. -/
  | commandUnknown
  /-- An argument that does not belong to the command. -/
  | argumentUnknown
  /-- A switch was given a value. -/
  | valueRefused
  /-- An option has no value, or one that it does not take. -/
  | valueInvalid
  /-- A switch or an option was given twice. -/
  | repeated
  /-- The description is not named. -/
  | descriptionMissing
deriving DecidableEq, Repr

/-- The text that tells the version. -/
def versionText : String := "mkgen 0.1.0\n"

/-- The text that tells how the program is called. -/
def usageText : String :=
  "Usage: mkgen [-v] generate [OPTIONS] DESCRIPTION\n" ++
  "       mkgen [-v] print [OPTIONS] DESCRIPTION\n" ++
  "       mkgen [-v] regenerate [BUILDDIR]\n" ++
  "Options: -B/--builddir DIR, --srcdir DIR, --toolchain cc|msvc,\n" ++
  "  --platform linux|darwin|windows|cygwin, --prefix DIR, --exec-prefix DIR,\n" ++
  "  --bindir DIR, --libdir DIR, --includedir DIR, --datadir DIR\n"

end Invocation

end MakeGraph
