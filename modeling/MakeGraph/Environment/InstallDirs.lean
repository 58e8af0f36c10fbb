import MakeGraph.Make.Piece
import MakeGraph.Path.Json

/-!
# `MakeGraph.Environment.InstallDirs` — where things are installed

An `InstallDirs` holds the installation directories that were chosen. One that was not chosen follows
the usual layout below `$(prefix)` and `$(exec_prefix)` (`InstallDirs.value?`).
-/

namespace MakeGraph

open Json (Decoder Record)
open Make (Piece)

/-- The installation directories that were chosen. -/
structure InstallDirs where
  /-- The directory above all others. -/
  prefixDir : Path := ⟨"/usr/local"⟩
  /-- The directory for what depends on the machine. -/
  execPrefix : Option Path := none
  /-- The directory of programs. -/
  bin : Option Path := none
  /-- The directory of libraries. -/
  lib : Option Path := none
  /-- The directory of headers. -/
  headers : Option Path := none
  /-- The directory of data. -/
  data : Option Path := none
deriving DecidableEq, Repr, Inhabited

namespace InstallDirs

/-- A chosen directory, or the text that follows the usual layout. -/
def orUsual (chosen : Option Path) (usual : String) : Piece :=
  match chosen with
  | some dir => .plain dir.text
  | none => .verbatim usual

/-- The value of the variable of an installation directory. -/
def value? (dirs : InstallDirs) : Root → Option Piece
  | .installPrefix => some (.plain dirs.prefixDir.text)
  | .execPrefix => some (orUsual dirs.execPrefix "$(prefix)")
  | .bin => some (orUsual dirs.bin "$(exec_prefix)/bin")
  | .lib => some (orUsual dirs.lib "$(exec_prefix)/lib")
  | .headers => some (orUsual dirs.headers "$(prefix)/include")
  | .data => some (orUsual dirs.data "$(prefix)/share")
  | .build | .source | .absolute => none

/-- The members of written installation directories. -/
def record : Record [Path, Option Path, Option Path, Option Path, Option Path, Option Path]
    InstallDirs where
  name := "InstallDirs"
  fields :=
    .required "prefix" Path.decode <|
    .withDefault "exec_prefix" (Decoder.optional Path.decode) none <|
    .withDefault "bindir" (Decoder.optional Path.decode) none <|
    .withDefault "libdir" (Decoder.optional Path.decode) none <|
    .withDefault "includedir" (Decoder.optional Path.decode) none <|
    .withDefault "datadir" (Decoder.optional Path.decode) none <| .done
  build := fun (prefixDir, execPrefix, bin, lib, headers, data, ()) =>
    { prefixDir, execPrefix, bin, lib, headers, data }
  lenient := true

/-- Written installation directories. -/
def decode : Decoder InstallDirs :=
  record.decode

/-- Installation directories as a document. -/
def encode (dirs : InstallDirs) : Json :=
  let optional := fun (dir : Option Path) => (dir.map Path.encode).getD .null
  .record [
    ("prefix", dirs.prefixDir.encode), ("exec_prefix", optional dirs.execPrefix),
    ("bindir", optional dirs.bin), ("libdir", optional dirs.lib),
    ("includedir", optional dirs.headers), ("datadir", optional dirs.data)]

end InstallDirs

end MakeGraph
