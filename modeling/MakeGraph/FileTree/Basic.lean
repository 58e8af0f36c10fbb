import MakeGraph.Path.Basic
import MakeGraph.Table

/-!
# `MakeGraph.FileTree.Basic` — directories and files

A `FileTree` says what lies at each `Place`, where a place is the list of names that leads to it from
the root. A path is followed one segment at a time (`FileTree.reach`): each step starts in a
directory that is there, so `..` after a name needs that name, and a file is no way to anything.
Names and paths are only so long, and no path holds a NUL.

A tree has directories and files only. Symbolic links and hard links are left out, so every place has one
way from the root.

## Contents

* `FileError` — why the system refuses
* `Path.fault?` — paths that lead nowhere in any tree
* `FileTree.reach`, `FileTree.read`, `FileTree.isDirectory` — looking
* `FileTree.makeDirectory`, `FileTree.makeDirectories`, `FileTree.write`, `FileTree.remove` —
  changing
-/

namespace MakeGraph

/-- Why the system refuses to do something with a path. -/
inductive FileError where
  /-- Nothing lies there. -/
  | notFound
  /-- A file stands where a directory is needed. -/
  | notADirectory
  /-- A directory stands where a file is needed. -/
  | isADirectory
  /-- Something lies there already. -/
  | alreadyExists
  /-- A name or the whole path is longer than any may be. -/
  | nameTooLong
  /-- The path holds a NUL, which no path may. -/
  | holdsNul
  /-- A reason that the tree does not show, such as a full disk. -/
  | refused (reason : String)
deriving DecidableEq, Repr

namespace FileError

/-- The wording of a refusal. -/
def message : FileError → String
  | notFound => "No such file or directory (os error 2)"
  | notADirectory => "Not a directory (os error 20)"
  | isADirectory => "Is a directory (os error 21)"
  | alreadyExists => "File exists (os error 17)"
  | nameTooLong => "File name too long (os error 36)"
  | holdsNul => "file name contained an unexpected NUL byte"
  | refused reason => reason

/-- Whether a refusal to read a file tells that there is no such file. -/
def tellsAbsence : FileError → Bool
  | refused _ => false
  | _ => true

end FileError

/-! ## Routes -/

namespace Path

/-- The segments of a path, each a step: `.` and `..` count, empty ones do not. -/
def segments (p : Path) : List String :=
  ((cut p.text.toList).filter (· ≠ [])).map String.ofList

/-- Whether a path ends in a slash, as only that of a directory may. -/
def endsInSlash (p : Path) : Bool :=
  p.text.toList.getLast? = some '/'

/-- A path and its parents, as many as are asked for. -/
def parents : Nat → Path → List Path
  | 0, _ => []
  | n + 1, p => p :: parents n p.parent

/-- A path and all its parents, without the empty path. -/
def ancestors (p : Path) : List Path :=
  parents p.components.length p

/-- How many bytes a path may have. -/
def lengthLimit : Nat := 4095

/-- What keeps a path from leading anywhere, whatever lies in the tree. -/
def fault? (p : Path) : Option FileError :=
  if '\x00' ∈ p.text.toList then some .holdsNul
  else if p.text.isEmpty then some .notFound
  else if lengthLimit < p.text.utf8ByteSize then some .nameTooLong
  else none

end Path

/-- The names that lead from the root to a file or a directory. -/
abbrev Place := List String

/-- The path of a place. -/
def Place.path (place : Place) : Path :=
  ⟨"/" ++ String.intercalate "/" place⟩

/-- What lies at a place. -/
inductive Entry where
  | directory
  | file (contents : String)
deriving DecidableEq, Repr

/-- Directories and files; the root is always there. -/
structure FileTree where
  /-- What lies at the places below the root. -/
  entries : Table Place Entry := []
deriving DecidableEq, Repr

namespace FileTree

/-! ## Looking -/

/-- What lies at a place. -/
def find? (tree : FileTree) : Place → Option Entry
  | [] => some .directory
  | place => tree.entries.find? place

/-- How many bytes a name may have. -/
def nameLimit : Nat := 255

/-- The place that a segment leads to from a place, which must be a directory. -/
def step (tree : FileTree) (place : Place) (segment : String) : Except FileError Place :=
  match tree.find? place with
  | none => .error .notFound
  | some (.file _) => .error .notADirectory
  | some .directory =>
      if segment = "." then .ok place
      else if segment = ".." then .ok place.dropLast
      else if nameLimit < segment.utf8ByteSize then .error .nameTooLong
      else .ok (place ++ [segment])

/-- The place that a path leads to from the root. Only the way there has to exist. -/
def reach (tree : FileTree) (p : Path) : Except FileError Place :=
  match p.fault? with
  | some e => .error e
  | none => p.segments.foldlM tree.step []

/-- What lies where a path leads to. -/
def lookUp (tree : FileTree) (p : Path) : Except FileError Entry := do
  match tree.find? (← tree.reach p) with
  | none => .error .notFound
  | some (.file contents) => if p.endsInSlash then .error .notADirectory else .ok (.file contents)
  | some .directory => .ok .directory

/-- The contents of a file. -/
def read (tree : FileTree) (p : Path) : Except FileError String := do
  match ← tree.lookUp p with
  | .file contents => .ok contents
  | .directory => .error .isADirectory

/-- Whether a path leads to a directory. -/
def isDirectory (tree : FileTree) (p : Path) : Bool :=
  match tree.lookUp p with
  | .ok .directory => true
  | _ => false

/-- Everything below a place, each under the names that lead to it from there. -/
def below (tree : FileTree) (place : Place) : Table Place Entry :=
  tree.entries.filterMap fun (lower, entry) =>
    if place.isPrefixOf lower then some (lower.drop place.length, entry) else none

/-! ## Changing -/

/-- Puts something at a place. -/
def put (tree : FileTree) (place : Place) (entry : Entry) : FileTree :=
  ⟨tree.entries.insert place entry⟩

/-- Makes one directory, in a directory that is there. -/
def makeDirectory (tree : FileTree) (p : Path) : Except FileError FileTree := do
  let place ← tree.reach p
  if (tree.find? place).isSome then .error .alreadyExists else .ok (tree.put place .directory)

/-- Makes the first of some paths a directory; the others are its parents, and are made first if
there is no way to it. What was made stays even if the rest fails. -/
def makeAlong (tree : FileTree) : List Path → FileTree × Option FileError
  | [] => (tree, none)
  | p :: parents =>
      match tree.makeDirectory p with
      | .ok made => (made, none)
      | .error .notFound =>
          match tree.makeAlong parents with
          | (tree, some e) => (tree, some e)
          | (tree, none) =>
              match tree.makeDirectory p with
              | .ok made => (made, none)
              | .error e => (tree, if tree.isDirectory p then none else some e)
      | .error e => (tree, if tree.isDirectory p then none else some e)

/-- Sees to it that a path leads to a directory. -/
def makeDirectories (tree : FileTree) (p : Path) : FileTree × Option FileError :=
  tree.makeAlong p.ancestors

/-- Writes a file, over an old one if there is one. -/
def write (tree : FileTree) (p : Path) (contents : String) : Except FileError FileTree := do
  let place ← tree.reach p
  if p.endsInSlash || tree.find? place = some .directory then .error .isADirectory
  else .ok (tree.put place (.file contents))

/-- Removes a file. -/
def remove (tree : FileTree) (p : Path) : Except FileError FileTree := do
  let place ← tree.reach p
  match tree.find? place with
  | none => .error .notFound
  | some .directory => .error .isADirectory
  | some (.file _) =>
      if p.endsInSlash then .error .notADirectory
      else .ok ⟨tree.entries.filter fun entry => entry.1 ≠ place⟩

/-! ## Laws -/

/-- Putting something at a place below the root changes what lies there and nothing else. -/
theorem find?_put (tree : FileTree) (place other : Place) (entry : Entry) (h : place ≠ []) :
    (tree.put place entry).find? other =
      if place = other then some entry else tree.find? other := by
  cases other with
  | nil => simp [find?, h]
  | cons name names => simp [find?, put, Table.find?_insert]

end FileTree

end MakeGraph
