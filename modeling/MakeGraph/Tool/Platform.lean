import MakeGraph.Json.Decoder

/-!
# `MakeGraph.Tool.Platform` — target systems and families of tools
-/

namespace MakeGraph

open Json (Decoder)

/-- The system that a build is for. -/
inductive Platform where
  /-- GNU/Linux and other ELF systems. -/
  | linux
  /-- macOS. -/
  | darwin
  /-- Windows itself. -/
  | windows
  /-- Cygwin. -/
  | cygwin
deriving DecidableEq, Repr, Inhabited

namespace Platform

/-- Every platform, in the order in which messages list them. -/
def all : List Platform :=
  [linux, darwin, windows, cygwin]

/-- The name of a platform. -/
def name : Platform → String
  | linux => "linux"
  | darwin => "darwin"
  | windows => "windows"
  | cygwin => "cygwin"

/-- The ending of executables. -/
def executableExtension : Platform → String
  | linux | darwin => ""
  | windows | cygwin => ".exe"

/-- The ending of shared libraries. -/
def sharedLibraryExtension : Platform → String
  | linux => ".so"
  | darwin => ".dylib"
  | windows | cygwin => ".dll"

/-- Whether a shared library comes with a separate import library. -/
def hasImportLibrary : Platform → Bool
  | linux | darwin => false
  | windows | cygwin => true

/-- Whether programs can find shared libraries relative to where they lie themselves. -/
def hasRunPath : Platform → Bool
  | linux => true
  | darwin | windows | cygwin => false

/-- The platform of a name. -/
def named? (text : String) : Option Platform :=
  all.find? (·.name = text)

/-- The name of a platform as a document. -/
def decode : Decoder Platform :=
  Decoder.oneOf (all.map fun platform => (platform.name, platform))

end Platform

/-- A family of tools. -/
inductive ToolFamily where
  /-- Compilers that take the options of GCC, and `ar`. -/
  | cc
  /-- Microsoft's `cl`, `link` and `lib`. -/
  | msvc
deriving DecidableEq, Repr, Inhabited

namespace ToolFamily

/-- Both families. -/
def all : List ToolFamily :=
  [cc, msvc]

/-- The name of a family. -/
def name : ToolFamily → String
  | cc => "cc"
  | msvc => "msvc"

/-- The family of a name. -/
def named? (text : String) : Option ToolFamily :=
  all.find? (·.name = text)

/-- The name of a family as a document. -/
def decode : Decoder ToolFamily :=
  Decoder.oneOf (all.map fun family => (family.name, family))

end ToolFamily

end MakeGraph
