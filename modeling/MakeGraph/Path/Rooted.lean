import MakeGraph.Path.Basic

/-!
# `MakeGraph.Path.Rooted` — paths below a symbolic directory

A `RootedPath` is a path below a `Root`: the build directory, the source directory, one of the
installation directories, or nothing at all for an absolute path. Where a root has a Makefile
variable, the Makefile reaches the path through it (`Root.variableName?`).

`RootedPath.wayFrom?` says how to walk from one path to another that hangs off the same root.
-/

namespace MakeGraph

/-- The directory that a path is relative to. -/
inductive Root where
  /-- The build directory, in which make runs. -/
  | build
  /-- The source directory. -/
  | source
  /-- No directory: the path is absolute. -/
  | absolute
  /-- The installation directory `$(prefix)`. -/
  | installPrefix
  /-- The installation directory for what depends on the machine. -/
  | execPrefix
  /-- The installation directory of programs. -/
  | bin
  /-- The installation directory of libraries. -/
  | lib
  /-- The installation directory of headers. -/
  | headers
  /-- The installation directory of data. -/
  | data
deriving DecidableEq, Repr, Inhabited

namespace Root

/-- Every root, in the order in which messages list them. -/
def all : List Root :=
  [build, source, absolute, installPrefix, execPrefix, bin, lib, headers, data]

/-- The name of a root in build descriptions. -/
def name : Root → String
  | build => "builddir"
  | source => "srcdir"
  | absolute => "absolute"
  | installPrefix => "prefix"
  | execPrefix => "exec_prefix"
  | bin => "bindir"
  | lib => "libdir"
  | headers => "includedir"
  | data => "datadir"

/-- The roots with a Makefile variable, in the order in which the variables are declared. -/
def anchored : List Root :=
  [source, installPrefix, execPrefix, bin, lib, headers, data]

/-- The Makefile variable that holds a root; the build directory and absolute paths need none. -/
def variableName? : Root → Option String
  | build | absolute => none
  | root => some root.name

end Root

/-- A path below a root. -/
structure RootedPath where
  /-- What the path is relative to. -/
  root : Root := .build
  /-- The path below the root; empty for the root itself. -/
  path : Path := ⟨""⟩
deriving DecidableEq, Repr, Inhabited

namespace RootedPath

/-- A path below the build directory. -/
def build (text : String) : RootedPath :=
  ⟨.build, ⟨text⟩⟩

/-- Whether the path is the root itself. -/
def isRootItself (p : RootedPath) : Bool :=
  p.path.text.isEmpty

/-- Two paths are the same when they take the same steps from the same root. -/
def Same (p q : RootedPath) : Prop :=
  p.root = q.root ∧ p.path.Same q.path

instance (p q : RootedPath) : Decidable (Same p q) :=
  inferInstanceAs (Decidable (_ ∧ _))

/-- Decides `Same`. -/
def same (p q : RootedPath) : Bool :=
  decide (Same p q)

/-- The directory that holds the path. -/
def parent (p : RootedPath) : RootedPath :=
  { p with path := p.path.parent }

/-- The path `text` as seen from here. -/
def join (p : RootedPath) (text : String) : RootedPath :=
  { p with path := p.path.join ⟨text⟩ }

/-- The path with `extension` written after it. -/
def addExtension (p : RootedPath) (extension : String) : RootedPath :=
  { p with path := ⟨p.path.text ++ extension⟩ }

/-- The name of the last step. -/
def fileName? (p : RootedPath) : Option String :=
  p.path.fileName?

/-- The same path below another root. -/
def under (p : RootedPath) (root : Root) : RootedPath :=
  { p with root }

/-! ## Relative paths -/

/-- Two lists without the longest beginning that they share. -/
def dropCommon {α : Type} [DecidableEq α] : List α → List α → List α × List α
  | a :: as, b :: bs => if a = b then dropCommon as bs else (a :: as, b :: bs)
  | as, bs => (as, bs)

/-- The walk between two lists of steps: up once for every step of `start` that is not shared, then
down the steps of `target` that are not. -/
def walk (target start : List Path.Component) : Path :=
  let (down, up) := dropCommon target start
  let climbed := up.foldl (fun dir _ => dir.join ⟨".."⟩) (Path.mk "")
  let arrived := down.foldl (fun dir step => dir.join ⟨step.text⟩) climbed
  if arrived.text.isEmpty then ⟨"."⟩ else arrived

/-- The way from the directory `start` to `p`; there is none between different roots. -/
def wayFrom? (p start : RootedPath) : Option Path :=
  if p.root = start.root then some (walk p.path.components start.path.components) else none

example : (build "lib/libfoo.so").wayFrom? (build "bin") = some ⟨"../lib/libfoo.so"⟩ := by decide
example : (build "lib").wayFrom? (build "./lib") = some ⟨"../../lib"⟩ := by decide
example : (build "lib/").wayFrom? (build "lib") = some ⟨"."⟩ := by decide

end RootedPath

end MakeGraph
