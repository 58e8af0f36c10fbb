import MakeGraph.Json.Record
import MakeGraph.Path.Rooted

/-!
# `MakeGraph.Path.Json` — how paths are written in documents

A path below the build directory may be written as a string; any path may be written as an object
with its `root` and its `path`, in which other members do not count. Paths are always printed in the
second form.
-/

namespace MakeGraph

open Json (Decoder Fields Record)

/-- A text that is a path. -/
def Path.decode : Decoder Path := fun r document =>
  Path.mk <$> Decoder.textAs "a UTF-8 path string" r document

/-- A path as a document. -/
def Path.encode (p : Path) : Json :=
  .string p.text

/-- The name of a root. -/
def Root.decode : Decoder Root :=
  Decoder.oneOf (Root.all.map fun root => (root.name, root))

/-- A root as a document. -/
def Root.encode (root : Root) : Json :=
  .string root.name

namespace RootedPath

/-- The members of a path written as an object. -/
def record : Record [Root, Path] RootedPath where
  name := "RawPath"
  fields := .withDefault "root" Root.decode .build <| .required "path" Path.decode <| .done
  build := fun (root, path, ()) => ⟨root, path⟩
  lenient := true

/-- The path that a document stands for, once it was read whole. -/
def ofDocument? (document : Json) : Option RootedPath :=
  match document with
  | .string text => some (build text)
  | .object .. => (record.decode .loaded document).toOption
  | _ => none

/-- A path in either form. -/
def decode : Decoder RootedPath := fun r document => do
  Json.ensure (r.canRead document)
  match ofDocument? document with
  | some p => .ok p
  | none => Json.mismatch (.noForm "RawPath")

/-- A path as a document. -/
def encode (p : RootedPath) : Json :=
  .record [("root", p.root.encode), ("path", p.path.encode)]

end RootedPath

end MakeGraph
