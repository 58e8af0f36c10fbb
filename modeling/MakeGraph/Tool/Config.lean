import MakeGraph.Json.Record
import MakeGraph.Shell.Words
import MakeGraph.Tool.Platform

/-!
# `MakeGraph.Tool.Config` — commands and default flags

The usual variables of the process environment (`CC`, `CFLAGS`, `LDFLAGS` and so on) choose the
commands and the flags of a build. A variable with flags is split by shell rules, so that
`CFLAGS="-DNAME='a b'"` holds one flag. `ToolConfig.resolve` reads them; it fails with the first
variable that does not split.
-/

namespace MakeGraph

open Json (Decoder Record)

/-- Commands and default flags. -/
structure ToolConfig where
  /-- The C compiler. -/
  cc : String
  /-- The C++ compiler. -/
  cxx : String
  /-- The archiver. -/
  ar : String
  /-- The linker of the Microsoft tools. -/
  link : String
  /-- The librarian of the Microsoft tools. -/
  lib : String
  /-- Flags of the C compiler. -/
  cflags : List String
  /-- Flags of the C++ compiler. -/
  cxxflags : List String
  /-- Flags of both compilers. -/
  cppflags : List String
  /-- Flags of links. -/
  ldflags : List String
  /-- Libraries behind every link. -/
  ldlibs : List String
  /-- Flags of the archiver. -/
  arflags : List String
  /-- Flags of the librarian. -/
  libflags : List String
deriving DecidableEq, Repr, Inhabited

namespace ToolConfig

/-- A variable that is no list of shell words. -/
structure Error where
  /-- The name of the variable. -/
  name : String
  /-- Its value. -/
  value : String
deriving DecidableEq, Repr

namespace Error

/-- What is wrong, in one line. -/
def message (e : Error) : String :=
  e.name ++ " is not a valid list of shell words: " ++ e.value

/-- The stable code under which tools recognise the diagnostic. -/
def code : String := "mkgen::config::invalid_flags"

/-- Advice on how to mend the cause. -/
def help : String := "check the variable for unbalanced quotes"

end Error

/-! ## From the process environment -/

/-- The variables that count. -/
def variableNames : List String :=
  ["CC", "CXX", "AR", "CFLAGS", "CXXFLAGS", "CPPFLAGS", "LDFLAGS", "LDLIBS", "ARFLAGS", "LIBFLAGS"]

/-- The flags in a value of a variable. -/
def wordsOf (name value : String) : Except Error (List String) :=
  match Shell.words? value with
  | some words => .ok words
  | none => .error ⟨name, value⟩

/-- The flags that a variable holds, or `default` when it is not set. -/
def flags (vars : String → Option String) (name : String) (default : List String) :
    Except Error (List String) :=
  match vars name with
  | some value => wordsOf name value
  | none => .ok default

/-- The commands and flags that the variables of the process environment choose. -/
def resolve (family : ToolFamily) (vars : String → Option String) : Except Error ToolConfig := do
  let compilers := match family with
    | .cc => ("cc", "c++")
    | .msvc => ("cl", "cl")
  let arflags ← flags vars "ARFLAGS" ["cru"]
  let cflags ← flags vars "CFLAGS" []
  let cxxflags ← flags vars "CXXFLAGS" []
  let cppflags ← flags vars "CPPFLAGS" []
  let ldflags ← flags vars "LDFLAGS" []
  let ldlibs ← flags vars "LDLIBS" []
  let libflags ← flags vars "LIBFLAGS" []
  return {
    cc := (vars "CC").getD compilers.1
    cxx := (vars "CXX").getD compilers.2
    ar := (vars "AR").getD "ar"
    link := "link"
    lib := "lib"
    cflags, cxxflags, cppflags, ldflags, ldlibs, arflags, libflags }

/-! ## As a document -/

/-- The members of a written configuration. -/
def record : Record
    [String, String, String, String, String, List String, List String, List String, List String,
      List String, List String, List String] ToolConfig where
  name := "ToolConfig"
  fields :=
    .required "cc" Decoder.text <| .required "cxx" Decoder.text <|
    .required "ar" Decoder.text <| .required "link" Decoder.text <|
    .required "lib" Decoder.text <|
    .required "cflags" (Decoder.list Decoder.text) <|
    .required "cxxflags" (Decoder.list Decoder.text) <|
    .required "cppflags" (Decoder.list Decoder.text) <|
    .required "ldflags" (Decoder.list Decoder.text) <|
    .required "ldlibs" (Decoder.list Decoder.text) <|
    .required "arflags" (Decoder.list Decoder.text) <|
    .required "libflags" (Decoder.list Decoder.text) <| .done
  build := fun (cc, cxx, ar, link, lib, cflags, cxxflags, cppflags, ldflags, ldlibs, arflags,
      libflags, ()) =>
    { cc, cxx, ar, link, lib, cflags, cxxflags, cppflags, ldflags, ldlibs, arflags, libflags }
  lenient := true

/-- A written configuration. -/
def decode : Decoder ToolConfig :=
  record.decode

/-- A configuration as a document. -/
def encode (tools : ToolConfig) : Json :=
  .record [
    ("cc", .string tools.cc), ("cxx", .string tools.cxx), ("ar", .string tools.ar),
    ("link", .string tools.link), ("lib", .string tools.lib),
    ("cflags", .strings tools.cflags), ("cxxflags", .strings tools.cxxflags),
    ("cppflags", .strings tools.cppflags), ("ldflags", .strings tools.ldflags),
    ("ldlibs", .strings tools.ldlibs), ("arflags", .strings tools.arflags),
    ("libflags", .strings tools.libflags)]

end ToolConfig

end MakeGraph
