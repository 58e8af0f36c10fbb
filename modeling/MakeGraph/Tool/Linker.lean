import MakeGraph.Distinct
import MakeGraph.Text.Affix
import MakeGraph.Tool.Compiler

/-!
# `MakeGraph.Tool.Linker` — what a linker's command looks like

A `Linker` knows, for one kind of binary, where flags, inputs, libraries and output go in its
command, and how it spells libraries, their directories and the run path. There are four: the
compiler drivers and `ar`, and Microsoft's `link` and `lib`.
-/

namespace MakeGraph

open Make (Piece)

/-- The operands of a link command. -/
structure LinkOperands where
  /-- The linker. -/
  linker : Piece
  /-- Objects and archives. -/
  inputs : Piece
  /-- The binary. -/
  output : Piece
  /-- Libraries behind the inputs. -/
  libs : Option Piece := none
  /-- Flags before the inputs. -/
  flags : List Piece := []
deriving Repr

/-- What is to be known of a linker. -/
structure Linker where
  /-- What the shared recipe is named after. -/
  recipeStem : String
  /-- What the variable with the command is named after. -/
  programStem : String
  /-- The command. -/
  program : String
  /-- What the variable with the flags is named after. -/
  flagsStem : String
  /-- What the variable with the libraries is named after, if binaries have libraries. -/
  libsStem : Option String := none
  /-- The kind of binary. -/
  mode : LinkMode
  /-- The flags of every link. -/
  usualFlags : List String
  /-- The libraries of every link. -/
  usualLibs : List String := []
  /-- The flags that choose the kind of binary. -/
  modeFlags : List Piece := []
  /-- The flags that name the directories of libraries. -/
  searchFlags : List Library → List Piece := fun _ => []
  /-- The flags with which a binary finds its shared libraries when it runs. -/
  runPath : List Library → RootedPath → List Piece := fun _ _ => []
  /-- The arguments that link a library. -/
  libraryWords : Library → Except Make.Error (List Piece) :=
    fun _ => .error (.missingFromMode "library linking" mode.name)
  /-- The arguments that make an import library. -/
  importFlags : RootedPath → Except Make.Error (List Piece) :=
    fun _ => .error (.missingFromMode "import library" mode.name)
  /-- The whole command. -/
  command : LinkOperands → List Piece

namespace Linker

/-! ## Compiler drivers -/

/-- The name of a shared library for `-l`: what stands between `lib` and `.a`, or between `lib` and
the ending of shared libraries where these are linked without an import library. -/
def linkName? (platform : Platform) (fileName : String) : Option String := do
  let stem ← Text.dropLead? "lib" fileName
  let short ←
    match Text.dropTail? ".a" stem with
    | some name => some name
    | none =>
        if platform.hasImportLibrary then none
        else Text.dropTail? platform.sharedLibraryExtension stem
  if short.isEmpty then none else some short

/-- The shared libraries of a list. -/
def sharedOnes (libs : List Library) : List Library :=
  libs.filter (·.kind = .shared)

/-- The ways from the directory of `output` to the directories of shared libraries on the same
root, each once. -/
def runPathEntries (libs : List Library) (output : RootedPath) : List Path :=
  distinct Path.same ((sharedOnes libs).filterMap fun lib =>
    lib.path.parent.wayFrom? output.parent)

/-- A way as an entry of the run path, which starts where the binary lies. -/
def runPathText (way : Path) : String :=
  if way.text = "." then "$ORIGIN" else "$ORIGIN/" ++ way.text

/-- The arguments with which a compiler driver links a library. -/
def ccLibraryWords (platform : Platform) (lib : Library) : Except Make.Error (List Piece) :=
  match lib.kind with
  | .wholeArchive =>
      if platform = .darwin then .ok [.plain "-Wl,-force_load", .path lib.path]
      else
        .ok [.plain "-Wl,--whole-archive", .path lib.path, .plain "-Wl,--no-whole-archive"]
  | .static => .ok [.path lib.path]
  | .shared =>
      let fileName := lib.path.fileName?.getD ""
      match linkName? platform fileName with
      | some short => .ok [.plain ("-l" ++ short)]
      | none => .error (.unnamedLibrary fileName)

/-- A compiler driver at the link of a program or a shared library. -/
def cc (language : Language) (mode : LinkMode) (platform : Platform) (tools : ToolConfig) :
    Linker where
  recipeStem := match language with
    | .c => "link_cc"
    | .cxx => "link_cxx"
  programStem := Compiler.driverVar language
  program := match language with
    | .c => tools.cc
    | .cxx => tools.cxx
  flagsStem := "ldflags"
  libsStem := some "ldlibs"
  mode := mode
  usualFlags := tools.ldflags
  usualLibs := tools.ldlibs
  modeFlags := if mode = .sharedLibrary then [.plain "-shared", .plain "-fPIC"] else []
  searchFlags := fun libs =>
    (distinct RootedPath.same ((sharedOnes libs).map (·.path.parent))).map fun dir =>
      flagged "-L" (.path dir)
  runPath := fun libs output =>
    match runPathEntries libs output with
    | [] => []
    | entries =>
        if platform.hasRunPath then
          [.plain ("-Wl,-rpath=" ++ String.intercalate ":" (entries.map runPathText))]
        else []
  libraryWords := ccLibraryWords platform
  importFlags := fun path =>
    if mode ≠ .sharedLibrary then .error (.missingFromMode "import library" mode.name)
    else if platform.hasImportLibrary then .ok [flagged "-Wl,--out-implib=" (.path path)]
    else .ok []
  command := fun c =>
    [c.linker] ++ c.flags ++ [c.inputs] ++ c.libs.toList ++ [.plain "-o", c.output]

/-- The archiver. -/
def ar (tools : ToolConfig) : Linker where
  recipeStem := "ar"
  programStem := "ar"
  program := tools.ar
  flagsStem := "arflags"
  mode := .staticLibrary
  usualFlags := tools.arflags
  command := fun c => [c.linker] ++ c.flags ++ [c.output, c.inputs]

/-! ## Microsoft's tools -/

/-- The argument with which Microsoft's linker links a library: its file name. -/
def msvcLibraryWords (lib : Library) : Except Make.Error (List Piece) :=
  match lib.path.fileName? with
  | none => .error (.unnamedLibrary lib.path.path.text)
  | some name =>
      match lib.kind with
      | .wholeArchive => .ok [.plain ("/WHOLEARCHIVE:" ++ name)]
      | .static | .shared => .ok [.plain name]

/-- Microsoft's linker at the link of a program or a shared library. -/
def msvc (mode : LinkMode) (tools : ToolConfig) : Linker where
  recipeStem := "link"
  programStem := "link"
  program := tools.link
  flagsStem := "ldflags"
  libsStem := some "ldlibs"
  mode := mode
  usualFlags := tools.ldflags
  usualLibs := tools.ldlibs
  modeFlags := if mode = .sharedLibrary then [.plain "/DLL"] else []
  searchFlags := fun libs =>
    (distinct RootedPath.same (libs.map (·.path.parent))).map fun dir =>
      flagged "/LIBPATH:" (.path dir)
  libraryWords := msvcLibraryWords
  importFlags := fun path =>
    if mode ≠ .sharedLibrary then .error (.missingFromMode "import library" mode.name)
    else .ok [flagged "/IMPLIB:" (.path path)]
  command := fun c =>
    [c.linker] ++ c.flags ++ [c.inputs] ++ c.libs.toList ++ [flagged "/OUT:" c.output]

/-- Microsoft's librarian. -/
def msvcLib (tools : ToolConfig) : Linker where
  recipeStem := "lib"
  programStem := "lib"
  program := tools.lib
  flagsStem := "libflags"
  mode := .staticLibrary
  usualFlags := tools.libflags
  command := fun c => [c.linker] ++ c.flags ++ [c.inputs, flagged "/OUT:" c.output]

end Linker

/-! ## Toolchains -/

/-- The tools of a build. -/
structure Toolchain where
  /-- The family of the tools. -/
  family : ToolFamily
  /-- The system that they build for. -/
  platform : Platform
  /-- Their commands and flags. -/
  config : ToolConfig
deriving DecidableEq, Repr

namespace Toolchain

/-- The compiler for a language. -/
def compiler (tools : Toolchain) (lang : String) : Except Make.Error Compiler := do
  let language ← Language.named "compiler" lang
  return match tools.family with
    | .cc => .cc language tools.config
    | .msvc => .msvc tools.config

/-- The linker that makes a kind of binary from objects of a language. -/
def linker (tools : Toolchain) (lang : String) (mode : LinkMode) : Except Make.Error Linker := do
  let language ← Language.named "linker" lang
  return match tools.family, mode with
    | .cc, .staticLibrary => .ar tools.config
    | .cc, _ => .cc language mode tools.platform tools.config
    | .msvc, .staticLibrary => .msvcLib tools.config
    | .msvc, _ => .msvc mode tools.config

end Toolchain

end MakeGraph
