import MakeGraph.Graph.Basic
import MakeGraph.Json.Document
import MakeGraph.Path.Json

/-!
# `MakeGraph.Graph.Decode` — reading build descriptions

`BuildGraph.parse` loads a description from its text. The text is decoded while it is read, so of
several problems the first in the text is reported; edges and tests are read whole before their
members are looked at. The version is checked when everything else has loaded.
-/

namespace MakeGraph

open Json (Decoder Fields Record)

/-! ## Edges -/

/-- A list of paths. -/
def RootedPath.decodeList : Decoder (List RootedPath) :=
  Decoder.list RootedPath.decode

/-- A list of strings. -/
def Json.Decoder.texts : Decoder (List String) :=
  Decoder.list Decoder.text

/-- The members of an include directory. -/
def IncludeDir.record : Record [RootedPath, Bool] IncludeDir where
  name := "IncludeDir"
  fields := .required "path" RootedPath.decode <| .withDefault "system" Decoder.flag false <| .done
  build := fun (path, system, ()) => ⟨path, system⟩

/-- The members of a compile edge. -/
def CompileEdge.record :
    Record [RootedPath, RootedPath, String, List IncludeDir, List String, List RootedPath, Bool]
      CompileEdge where
  name := "CompileEdge"
  fields :=
    .required "output" RootedPath.decode <| .required "source" RootedPath.decode <|
    .required "lang" Decoder.text <|
    .withDefault "include" (Decoder.list IncludeDir.record.decode) [] <|
    .withDefault "options" Decoder.texts [] <|
    .withDefault "extra_deps" RootedPath.decodeList [] <|
    .withDefault "in_shared_library" Decoder.flag false <| .done
  build := fun (output, source, lang, includeDirs, options, extraDeps, inSharedLibrary, ()) =>
    { output, source, lang, includeDirs, options, extraDeps, inSharedLibrary }

/-- The name of a link mode. -/
def LinkMode.decode : Decoder LinkMode :=
  Decoder.oneOf (LinkMode.all.map fun mode => (mode.name, mode))

/-- The name of a kind of library. -/
def LibraryKind.decode : Decoder LibraryKind :=
  Decoder.oneOf (LibraryKind.all.map fun kind => (kind.name, kind))

/-- The members of a library. -/
def Library.record : Record [LibraryKind, RootedPath, Bool] Library where
  name := "Library"
  fields :=
    .required "kind" LibraryKind.decode <| .required "path" RootedPath.decode <|
    .withDefault "generated" Decoder.flag false <| .done
  build := fun (kind, path, generated, ()) => ⟨kind, path, generated⟩

/-- The members of a link edge. -/
def LinkEdge.record :
    Record [RootedPath, Option RootedPath, LinkMode, String, List RootedPath, List Library, List String,
      List RootedPath] LinkEdge where
  name := "LinkEdge"
  fields :=
    .required "output" RootedPath.decode <|
    .withDefault "import_library" (Decoder.optional RootedPath.decode) none <|
    .required "mode" LinkMode.decode <| .required "lang" Decoder.text <|
    .required "files" RootedPath.decodeList <|
    .withDefault "libs" (Decoder.list Library.record.decode) [] <|
    .withDefault "options" Decoder.texts [] <|
    .withDefault "extra_deps" RootedPath.decodeList [] <| .done
  build := fun (output, importLibrary, mode, lang, files, libs, options, extraDeps, ()) =>
    { output, importLibrary, mode, lang, files, libs, options, extraDeps }

/-- The members of an alias. -/
def AliasEdge.record : Record [RootedPath, List RootedPath] AliasEdge where
  name := "AliasEdge"
  fields :=
    .required "target" RootedPath.decode <| .withDefault "deps" RootedPath.decodeList [] <| .done
  build := fun (target, deps, ()) => ⟨target, deps⟩

/-- A command: a string is a shell line, an array of strings is a list of words. -/
def CommandLine.decode : Decoder CommandLine := fun r document => do
  Json.ensure (r.canRead document)
  match document with
  | .string text => .ok (.line text)
  | _ =>
      match Decoder.texts .loaded document with
      | .ok texts => .ok (.words texts)
      | .error _ => Json.mismatch (.noForm "CommandLine")

/-- The members of a command edge. -/
def CommandEdge.record : Record [RootedPath, List RootedPath, List CommandLine] CommandEdge where
  name := "CommandEdge"
  fields :=
    .required "target" RootedPath.decode <| .withDefault "deps" RootedPath.decodeList [] <|
    .required "commands" (Decoder.list CommandLine.decode) <| .done
  build := fun (target, deps, commands, ()) => ⟨target, deps, commands⟩

/-- A decoder followed by a function. -/
def Json.Decoder.map {α β : Type} (f : α → β) (decode : Decoder α) : Decoder β :=
  fun r document => f <$> decode r document

/-- The decoder of the edges of a kind. -/
def EdgeKind.decoder : EdgeKind → Decoder Edge
  | compile => CompileEdge.record.decode.map .compile
  | link => LinkEdge.record.decode.map .link
  | group => AliasEdge.record.decode.map .group
  | command => CommandEdge.record.decode.map .command

/-- An edge, whose `type` is its kind. -/
def Edge.decode : Decoder Edge :=
  Decoder.tagged "Edge" (EdgeKind.all.map fun kind => (kind.name, kind.decoder))

/-! ## Installation -/

/-- The name of a kind of installed file. -/
def InstallKind.decode : Decoder InstallKind :=
  Decoder.oneOf (InstallKind.all.map fun kind => (kind.name, kind))

/-- The members of an installed file. -/
def InstallFile.record : Record [RootedPath, InstallKind, Root] InstallFile where
  name := "InstallFile"
  fields :=
    .required "path" RootedPath.decode <| .required "kind" InstallKind.decode <|
    .required "root" Root.decode <| .done
  build := fun (path, kind, root, ()) => ⟨path, kind, root⟩

/-- The members of an installed directory. -/
def InstallDirectory.record : Record [RootedPath, Root] InstallDirectory where
  name := "InstallDirectory"
  fields := .required "path" RootedPath.decode <| .required "root" Root.decode <| .done
  build := fun (path, root, ()) => ⟨path, root⟩

/-- The members of an installation. -/
def Install.record : Record [List InstallFile, List InstallDirectory] Install where
  name := "Install"
  fields :=
    .withDefault "files" (Decoder.list InstallFile.record.decode) [] <|
    .withDefault "directories" (Decoder.list InstallDirectory.record.decode) [] <| .done
  build := fun (files, directories, ()) => ⟨files, directories⟩

/-! ## Tests -/

/-- The members of a test. -/
def TestProgram.record : Record [RootedPath, List String, Table String String] TestProgram where
  name := "TestCommand"
  fields :=
    .required "target" RootedPath.decode <| .withDefault "options" Decoder.texts [] <|
    .withDefault "env" (Decoder.table Decoder.text) [] <| .done
  build := fun (target, options, env, ()) => ⟨target, options, env⟩

namespace TestCase

/-- The members of a test driver, given the decoder of the tests that it runs. -/
def driverRecord (tests : Decoder (List TestCase)) :
    Record [RootedPath, List String, Table String String, Bool, List TestCase] TestCase where
  name := "TestDriver"
  fields :=
    .required "target" RootedPath.decode <| .withDefault "options" Decoder.texts [] <|
    .withDefault "env" (Decoder.table Decoder.text) [] <|
    .withDefault "generated" Decoder.flag false <| .withDefault "tests" tests [] <| .done
  build := fun (target, options, env, generated, tests, ()) =>
    .driver ⟨target, options, env⟩ generated tests

/-- A test whose drivers nest less than `depth` deep. -/
def decodeWithin : (depth : Nat) → Decoder TestCase
  | 0 => fun _ _ => .error .malformed
  | depth + 1 =>
      Decoder.tagged "TestCase" [
        ("test", TestProgram.record.decode.map .test),
        ("driver", (driverRecord (Decoder.list (decodeWithin depth))).decode)]

/-- A test, whose `type` is its kind. Drivers nest less deep than brackets. -/
def decode : Decoder TestCase :=
  decodeWithin (Json.depthLimit + 1)

end TestCase

/-- The members of the tests. -/
def Tests.record : Record [List RootedPath, List RootedPath, List TestCase] Tests where
  name := "Tests"
  fields :=
    .withDefault "targets" RootedPath.decodeList [] <|
    .withDefault "extra_deps" RootedPath.decodeList [] <|
    .withDefault "cases" (Decoder.list TestCase.decode) [] <| .done
  build := fun (targets, extraDeps, cases, ()) => ⟨targets, extraDeps, cases⟩

/-! ## The whole description -/

/-- A version number. -/
def Version.decode : Decoder Version
  | _, .string text =>
      match Version.parse text with
      | .ok version => .ok version
      | .error cause => Json.mismatch (.version cause)
  | _, document => Json.unexpected "semver version" document

namespace BuildGraph

/-- The members of a build description. -/
def record :
    Record [Version, List RootedPath, Table String (List String), List String, List Edge, Install,
      Tests, List RootedPath] BuildGraph where
  name := "BuildGraph"
  fields :=
    .required "mkgen_version" Version.decode <|
    .withDefault "defaults" RootedPath.decodeList [] <|
    .withDefault "global_options" (Decoder.table Decoder.texts) [] <|
    .withDefault "global_link_options" Decoder.texts [] <|
    .withDefault "edges" (Decoder.list Edge.decode) [] <|
    .withDefault "install" Install.record.decode {} <|
    .withDefault "tests" Tests.record.decode {} <|
    .withDefault "find_dirs" RootedPath.decodeList [] <| .done
  build := fun (version, defaults, globalOptions, globalLinkOptions, edges, install, tests,
      findDirs, ()) =>
    { version, defaults, globalOptions, globalLinkOptions, edges, install, tests, findDirs }

/-- Why a build description does not load. -/
inductive Error where
  /-- The text is not JSON, or does not fit. -/
  | invalid (cause : Json.Issue)
  /-- The version of the format is another one. -/
  | otherMajor (found : Version)
deriving DecidableEq, Repr

namespace Error

/-- What is wrong with a description whose version is not supported. -/
def otherMajorMessage (found : Version) : String :=
  "build description version " ++ found.text ++ " is not supported (expected "
    ++ toString knownMajor ++ ".x)"

/-- The stable code under which tools recognise a version that is not supported. -/
def otherMajorCode : String := "mkgen::graph::unsupported_version"

/-- Advice for a version that is not supported. -/
def otherMajorHelp : String := "regenerate the description with a compatible front end"

/-- The wording for a description that does not fit. -/
def mismatchMessage (cause : Json.Mismatch) : String :=
  "invalid build description: " ++ cause.message

end Error

/-- Loads a build description from its text. -/
def parse (text : String) : Except Error BuildGraph :=
  match Json.Document.decode record.decode (Json.parse text) with
  | .error cause => .error (.invalid cause)
  | .ok graph =>
      if graph.version.major = knownMajor then .ok graph
      else .error (.otherMajor graph.version)

end BuildGraph

end MakeGraph
