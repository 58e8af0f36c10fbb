import MakeGraph.Environment.InstallDirs
import MakeGraph.Json.Printer
import MakeGraph.Tool.Linker

/-!
# `MakeGraph.Environment.Basic` — what a run depends on besides the description

An `Environment` holds the directories, the platform, the tools and the generator of a run. It is
saved in the build directory, so that the Makefile can be made again later under the same conditions.
`Environment.print` is the saved text and `Environment.parse` reads it.
-/

namespace MakeGraph

open Json (Decoder Record)

/-- What a run depends on besides the description. -/
structure Environment where
  /-- The source directory. -/
  srcdir : Path
  /-- The directory that the Makefile is written to. -/
  builddir : Path
  /-- The file with the build description. -/
  description : Path
  /-- The program that makes the Makefile. -/
  generator : Path
  /-- The system that is built for. -/
  platform : Platform
  /-- The family of the tools. -/
  family : ToolFamily
  /-- Where things are installed. -/
  installDirs : InstallDirs := {}
  /-- The commands and flags of the tools. -/
  tools : ToolConfig
deriving DecidableEq, Repr, Inhabited

namespace Environment

/-- The tools of a run. -/
def toolchain (env : Environment) : Toolchain :=
  ⟨env.family, env.platform, env.tools⟩

/-- The description as the Makefile names it: below the source directory if it lies there. -/
def rootedDescription (env : Environment) : RootedPath :=
  match env.description.stripPrefix? env.srcdir with
  | some rest => ⟨.source, rest⟩
  | none => ⟨.absolute, env.description⟩

/-- The name of the file in which an environment is saved. -/
def fileName : String := ".mkgen-environment.json"

/-- The file in which the environment of a build directory is saved. -/
def savedPath (builddir : Path) : Path :=
  builddir.join ⟨fileName⟩

/-! ## As a document -/

/-- The members of a saved environment. -/
def record :
    Record [Path, Path, Path, Path, Platform, ToolFamily, InstallDirs, ToolConfig] Environment where
  name := "Environment"
  fields :=
    .required "srcdir" Path.decode <| .required "builddir" Path.decode <|
    .required "description" Path.decode <| .required "generator" Path.decode <|
    .required "platform" Platform.decode <| .required "toolchain" ToolFamily.decode <|
    .withDefault "install_dirs" InstallDirs.decode {} <|
    .required "tools" ToolConfig.decode <| .done
  build := fun (srcdir, builddir, description, generator, platform, family, installDirs, tools,
      ()) =>
    { srcdir, builddir, description, generator, platform, family, installDirs, tools }
  lenient := true

/-- Reads a saved environment. -/
def parse (text : String) : Except Json.Issue Environment :=
  (Json.parse text).decode record.decode

/-- An environment as a document. -/
def encode (env : Environment) : Json :=
  .record [
    ("srcdir", env.srcdir.encode), ("builddir", env.builddir.encode),
    ("description", env.description.encode), ("generator", env.generator.encode),
    ("platform", .string env.platform.name), ("toolchain", .string env.family.name),
    ("install_dirs", env.installDirs.encode), ("tools", env.tools.encode)]

/-- The text under which an environment is saved. -/
def print (env : Environment) : String :=
  env.encode.pretty

end Environment

end MakeGraph
