import MakeGraph.Graph.Basic
import MakeGraph.Json.Printer
import MakeGraph.Path.Json

/-!
# `MakeGraph.Graph.Encode` — writing build descriptions

`BuildGraph.encode` writes every member of a description in a fixed order, also those with their
default value, and tables in their own order.
-/

namespace MakeGraph

/-- A list as a document. -/
def Json.ofList {α : Type} (encode : α → Json) (items : List α) : Json :=
  .list (items.map encode)

/-- A table as a document. -/
def Json.ofTable {α : Type} (encode : α → Json) (entries : Table String α) : Json :=
  .record (entries.map fun (key, value) => (key, encode value))

/-! ## Edges -/

/-- An include directory as a document. -/
def IncludeDir.encode (dir : IncludeDir) : Json :=
  .record [("path", dir.path.encode), ("system", .bool dir.system)]

/-- A library as a document. -/
def Library.encode (lib : Library) : Json :=
  .record [
    ("kind", .string lib.kind.name), ("path", lib.path.encode), ("generated", .bool lib.generated)]

/-- A command as a document. -/
def CommandLine.encode : CommandLine → Json
  | line text => .string text
  | words texts => .strings texts

/-- The members of an edge, besides its kind. -/
def Edge.members : Edge → List (String × Json)
  | compile edge => [
      ("output", edge.output.encode), ("source", edge.source.encode), ("lang", .string edge.lang),
      ("include", .ofList IncludeDir.encode edge.includeDirs), ("options", .strings edge.options),
      ("extra_deps", .ofList RootedPath.encode edge.extraDeps),
      ("in_shared_library", .bool edge.inSharedLibrary)]
  | link edge => [
      ("output", edge.output.encode),
      ("import_library", (edge.importLibrary.map RootedPath.encode).getD .null),
      ("mode", .string edge.mode.name), ("lang", .string edge.lang),
      ("files", .ofList RootedPath.encode edge.files), ("libs", .ofList Library.encode edge.libs),
      ("options", .strings edge.options), ("extra_deps", .ofList RootedPath.encode edge.extraDeps)]
  | group edge => [
      ("target", edge.target.encode), ("deps", .ofList RootedPath.encode edge.deps)]
  | command edge => [
      ("target", edge.target.encode), ("deps", .ofList RootedPath.encode edge.deps),
      ("commands", .ofList CommandLine.encode edge.commands)]

/-- An edge as a document. -/
def Edge.encode (edge : Edge) : Json :=
  .record (("type", .string edge.kind.name) :: edge.members)

/-! ## Installation and tests -/

/-- An installed file as a document. -/
def InstallFile.encode (file : InstallFile) : Json :=
  .record [
    ("path", file.path.encode), ("kind", .string file.kind.name), ("root", file.root.encode)]

/-- An installed directory as a document. -/
def InstallDirectory.encode (directory : InstallDirectory) : Json :=
  .record [("path", directory.path.encode), ("root", directory.root.encode)]

/-- An installation as a document. -/
def Install.encode (install : Install) : Json :=
  .record [
    ("files", .ofList InstallFile.encode install.files),
    ("directories", .ofList InstallDirectory.encode install.directories)]

/-- The members of a test program. -/
def TestProgram.members (program : TestProgram) : List (String × Json) := [
  ("target", program.target.encode), ("options", .strings program.options),
  ("env", .ofTable .string program.env)]

namespace TestCase

mutual

/-- A test as a document. -/
def encode : TestCase → Json
  | test program => .record (("type", .string "test") :: program.members)
  | driver program generated tests =>
      .record (("type", .string "driver") :: program.members ++
        [("generated", .bool generated), ("tests", .list (encodeAll tests))])

/-- Tests as documents. -/
def encodeAll : List TestCase → List Json
  | [] => []
  | case :: cases => encode case :: encodeAll cases

end

end TestCase

/-- The tests as a document. -/
def Tests.encode (tests : Tests) : Json :=
  .record [
    ("targets", .ofList RootedPath.encode tests.targets),
    ("extra_deps", .ofList RootedPath.encode tests.extraDeps),
    ("cases", .list (TestCase.encodeAll tests.cases))]

/-! ## The whole description -/

namespace BuildGraph

/-- A build description as a document. -/
def encode (graph : BuildGraph) : Json :=
  .record [
    ("mkgen_version", .string graph.version.text),
    ("defaults", .ofList RootedPath.encode graph.defaults),
    ("global_options", .ofTable .strings graph.globalOptions),
    ("global_link_options", .strings graph.globalLinkOptions),
    ("edges", .ofList Edge.encode graph.edges),
    ("install", graph.install.encode),
    ("tests", graph.tests.encode),
    ("find_dirs", .ofList RootedPath.encode graph.findDirs)]

/-- The text of a build description. -/
def print (graph : BuildGraph) : String :=
  graph.encode.pretty

end BuildGraph

end MakeGraph
