import MakeGraph.Make.Context
import MakeGraph.Path.Rooted

/-!
# `MakeGraph.Make.Piece` — pieces of Makefile text

A `Piece` is a part of a Makefile whose final text depends on the `Context` it is written for:
plain text is escaped there, text that is already safe passes through, a path is reached through
the variable of its root, and a concatenation writes its parts in order. `Piece.render` is that
text.
-/

namespace MakeGraph.Make

/-- A reference to the variable `name`: `$x` for a name of one character, `$(NAME)` otherwise. -/
def reference (name : String) : String :=
  if name.length = 1 then "$" ++ name else "$(" ++ name ++ ")"

/-- The text of a path: the reference to its root's variable, then the path escaped. The build
directory itself is written `.`. -/
def renderPath (context : Context) (p : RootedPath) : String :=
  match p.root.variableName? with
  | some name =>
      if p.isRootItself then reference name
      else reference name ++ "/" ++ escape context p.path.text
  | none =>
      if p.root = .build && p.isRootItself then "."
      else escape context p.path.text

/-- A piece of Makefile text. -/
inductive Piece where
  /-- Plain text, escaped where it is written. -/
  | plain (text : String)
  /-- Text that is safe as it is. -/
  | verbatim (text : String)
  /-- A path. -/
  | path (p : RootedPath)
  /-- Parts written one after another. -/
  | sequence (parts : List Piece)
deriving Repr, Inhabited

namespace Piece

mutual

/-- The text of a piece in a context. -/
def render (context : Context) : Piece → String
  | plain text => escape context text
  | verbatim text => text
  | path p => renderPath context p
  | sequence parts => renderAll context parts

/-- The texts of pieces in a context, one after another. -/
def renderAll (context : Context) : List Piece → String
  | [] => ""
  | part :: parts => render context part ++ renderAll context parts

end

/-- The parts of a concatenation; any other piece is its own only part. -/
def parts : Piece → List Piece
  | sequence parts => parts
  | other => [other]

/-- Pieces joined into one; the parts of a concatenation among them become parts of it. -/
def join (pieces : List Piece) : Piece :=
  sequence (pieces.flatMap parts)

/-- Texts as plain pieces. -/
def plainTexts (texts : List String) : List Piece :=
  texts.map plain

@[simp] theorem render_plain (context : Context) (text : String) :
    (plain text).render context = escape context text := by
  simp [render]

@[simp] theorem render_verbatim (context : Context) (text : String) :
    (verbatim text).render context = text := by
  simp [render]

@[simp] theorem render_path (context : Context) (p : RootedPath) :
    (path p).render context = renderPath context p := by
  simp [render]

theorem renderAll_eq_join (context : Context) (pieces : List Piece) :
    renderAll context pieces = String.join (pieces.map (render context)) := by
  induction pieces with
  | nil => rfl
  | cons piece pieces ih => simp [renderAll, ih]

@[simp] theorem render_sequence (context : Context) (parts : List Piece) :
    (sequence parts).render context = String.join (parts.map (render context)) := by
  rw [render, renderAll_eq_join]

example : (join [plain "-I", path ⟨.source, ⟨"src/main file.c"⟩⟩]).render .target =
    "-I$(srcdir)/src/main\\ file.c" := by decide

end Piece

end MakeGraph.Make
