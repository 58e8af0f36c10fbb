import MakeGraph.Path.Rooted
import MakeGraph.Table
import MakeGraph.Version

/-!
# `MakeGraph.Graph.Basic` — build descriptions

A `BuildGraph` says what a build consists of: edges that compile, link, group or run something, what
is installed, and what is tested. It holds no commands of compilers or linkers; these are chosen
when a Makefile is generated from it.
-/

namespace MakeGraph

/-! ## Edges -/

/-- A directory that is searched for headers. -/
structure IncludeDir where
  path : RootedPath
  /-- Whether the headers there belong to the system. -/
  system : Bool := false
deriving DecidableEq, Repr, Inhabited

/-- The compilation of one source file. -/
structure CompileEdge where
  /-- The object file. -/
  output : RootedPath
  source : RootedPath
  /-- The language of the source, such as `c` or `c++`. -/
  lang : String
  /-- Directories that are searched for headers, in order. -/
  includeDirs : List IncludeDir := []
  /-- Options for this file only. -/
  options : List String := []
  /-- More prerequisites. -/
  extraDeps : List RootedPath := []
  /-- Whether the object ends up in a shared library. -/
  inSharedLibrary : Bool := false
deriving DecidableEq, Repr, Inhabited

/-- The kind of binary that a link makes. -/
inductive LinkMode where
  | executable
  | sharedLibrary
  | staticLibrary
deriving DecidableEq, Repr, Inhabited

/-- How a library takes part in a link. -/
inductive LibraryKind where
  /-- An archive named by its path. -/
  | static
  /-- A shared library. -/
  | shared
  /-- An archive of which every member is linked. -/
  | wholeArchive
deriving DecidableEq, Repr, Inhabited

/-- A library of a link. -/
structure Library where
  kind : LibraryKind
  path : RootedPath
  /-- Whether another edge makes the library. -/
  generated : Bool := false
deriving DecidableEq, Repr, Inhabited

/-- A link of objects and libraries. -/
structure LinkEdge where
  /-- The binary. -/
  output : RootedPath
  /-- The import library that is made along with a shared library. -/
  importLibrary : Option RootedPath := none
  mode : LinkMode
  /-- The language whose linker is used. -/
  lang : String
  /-- The objects. -/
  files : List RootedPath
  libs : List Library := []
  /-- Options for this binary only. -/
  options : List String := []
  /-- More prerequisites. -/
  extraDeps : List RootedPath := []
deriving DecidableEq, Repr, Inhabited

/-- Every file that a link makes, the binary first. -/
def LinkEdge.outputs (edge : LinkEdge) : List RootedPath :=
  edge.output :: edge.importLibrary.toList

/-- A name for other targets. -/
structure AliasEdge where
  target : RootedPath
  deps : List RootedPath := []
deriving DecidableEq, Repr, Inhabited

/-- A command: one shell line, or separate words. -/
inductive CommandLine where
  | line (text : String)
  | words (texts : List String)
deriving DecidableEq, Repr, Inhabited

/-- A name for commands. -/
structure CommandEdge where
  target : RootedPath
  deps : List RootedPath := []
  /-- The commands in order. -/
  commands : List CommandLine
deriving DecidableEq, Repr, Inhabited

/-- A step of a build. -/
inductive Edge where
  | compile (edge : CompileEdge)
  | link (edge : LinkEdge)
  /-- A name for other targets. -/
  | group (edge : AliasEdge)
  | command (edge : CommandEdge)
deriving DecidableEq, Repr, Inhabited

/-- What kind of step an edge is. -/
inductive EdgeKind where
  | compile
  | link
  | group
  | command
deriving DecidableEq, Repr, Inhabited

/-- The kind of an edge. -/
def Edge.kind : Edge → EdgeKind
  | compile _ => .compile
  | link _ => .link
  | group _ => .group
  | command _ => .command

namespace EdgeKind

/-- Every kind, in the order in which messages list them. -/
def all : List EdgeKind :=
  [compile, link, group, command]

/-- The name of a kind in build descriptions. -/
def name : EdgeKind → String
  | compile => "compile"
  | link => "link"
  | group => "alias"
  | command => "command"

end EdgeKind

/-! ## Names -/

namespace LinkMode

/-- Every mode, in the order in which messages list them. -/
def all : List LinkMode :=
  [executable, sharedLibrary, staticLibrary]

/-- The name of a mode. -/
def name : LinkMode → String
  | executable => "executable"
  | sharedLibrary => "shared_library"
  | staticLibrary => "static_library"

end LinkMode

namespace LibraryKind

/-- Every kind, in the order in which messages list them. -/
def all : List LibraryKind :=
  [static, shared, wholeArchive]

/-- The name of a kind. -/
def name : LibraryKind → String
  | static => "static"
  | shared => "shared"
  | wholeArchive => "whole_archive"

end LibraryKind

/-! ## Installation -/

/-- How an installed file may be used. -/
inductive InstallKind where
  /-- It can be run. -/
  | program
  /-- It can only be read. -/
  | data
deriving DecidableEq, Repr, Inhabited

namespace InstallKind

/-- Both kinds. -/
def all : List InstallKind :=
  [program, data]

/-- The name of a kind. -/
def name : InstallKind → String
  | program => "program"
  | data => "data"

end InstallKind

/-- A file that is installed. -/
structure InstallFile where
  path : RootedPath
  kind : InstallKind
  /-- The directory below which it is installed. -/
  root : Root
deriving DecidableEq, Repr, Inhabited

/-- A directory that is installed with everything in it. -/
structure InstallDirectory where
  path : RootedPath
  /-- The directory below which it is installed. -/
  root : Root
deriving DecidableEq, Repr, Inhabited

/-- What is installed. -/
structure Install where
  files : List InstallFile := []
  directories : List InstallDirectory := []
deriving DecidableEq, Repr, Inhabited

/-- Whether nothing is installed. -/
def Install.isEmpty (install : Install) : Bool :=
  install.files.isEmpty && install.directories.isEmpty

/-! ## Tests -/

/-- A program that is run as a test, or as a part of one. -/
structure TestProgram where
  target : RootedPath
  options : List String := []
  /-- Variables that are set for the program. -/
  env : Table String String := []
deriving DecidableEq, Repr, Inhabited

/-- A test, or a program that runs tests which it is given as arguments. -/
inductive TestCase where
  | test (program : TestProgram)
  /-- A driver; `generated` when an edge makes it. -/
  | driver (program : TestProgram) (generated : Bool) (tests : List TestCase)
deriving Repr, Inhabited

/-- What is tested. -/
structure Tests where
  /-- What must be made before any test runs. -/
  targets : List RootedPath := []
  /-- What else `test` needs. -/
  extraDeps : List RootedPath := []
  /-- The tests in order. -/
  cases : List TestCase := []
deriving Repr, Inhabited

/-- Whether there is no test. -/
def Tests.isEmpty (tests : Tests) : Bool :=
  tests.cases.isEmpty

/-! ## The whole description -/

/-- A build description. -/
structure BuildGraph where
  /-- The version of its format. -/
  version : Version
  /-- The targets of `all`. -/
  defaults : List RootedPath := []
  /-- Compile options of whole languages. -/
  globalOptions : Table String (List String) := []
  /-- Options of every link that is not an archive. -/
  globalLinkOptions : List String := []
  /-- The edges in order. -/
  edges : List Edge := []
  install : Install := {}
  tests : Tests := {}
  /-- Directories that were searched for sources. -/
  findDirs : List RootedPath := []
deriving Repr, Inhabited

namespace BuildGraph

/-- The major version of the format that this library reads. -/
def knownMajor : Nat := 1

end BuildGraph

end MakeGraph
