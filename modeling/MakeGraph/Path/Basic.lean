/-!
# `MakeGraph.Path.Basic` — paths as text and as components

A `Path` is the text that somebody wrote. Its meaning is the list of its components, in which
repeated slashes, trailing slashes and `.` segments do not count, save that a path beginning with
`.` keeps that one. Two paths are `Same` when their components are equal; operations that cut a
path (`parent`, `stripPrefix?`) keep the spelling of what they leave.

## Contents

* `Component`, `Path.components`, `Path.same` — the meaning of a path
* `Path.parent`, `Path.fileName?`, `Path.join`, `Path.stripPrefix?` — taking apart and putting
  together
* `Path.absolute?` — a path as seen from the current directory, without looking at any file
-/

namespace MakeGraph

/-- A path as it was written. -/
structure Path where
  /-- The text of the path. -/
  text : String
deriving DecidableEq, Repr, Inhabited

namespace Path

/-- One step of a path. -/
inductive Component where
  /-- A leading slash. -/
  | root
  /-- A leading `.`. -/
  | here
  /-- A `..`. -/
  | up
  /-- Any other name. -/
  | name (text : String)
deriving DecidableEq, Repr

/-- The spelling of a component. -/
def Component.text : Component → String
  | root => "/"
  | here => "."
  | up => ".."
  | name text => text

/-! ## Segments -/

/-- What a path begins with. -/
inductive Lead where
  /-- Nothing special. -/
  | plain
  /-- A slash. -/
  | root
  /-- A segment `.`. -/
  | here
deriving DecidableEq, Repr

/-- A text cut at its slashes. -/
def cut : List Char → List (List Char)
  | [] => [[]]
  | c :: cs =>
      if c = '/' then [] :: cut cs
      else match cut cs with
        | [] => [[c]]
        | segment :: rest => (c :: segment) :: rest

/-- Segments put together again, with a slash between each two. -/
def glue : List (List Char) → List Char
  | [] => []
  | [segment] => segment
  | segment :: rest => segment ++ '/' :: glue rest

/-- What a text begins with, and the segments after that. -/
def anatomy (cs : List Char) : Lead × List (List Char) :=
  match cs with
  | '/' :: rest => (.root, cut rest)
  | _ =>
      match cut cs with
      | ['.'] :: rest => (.here, rest)
      | segments => (.plain, segments)

/-- The text of a lead and the segments after it. -/
def assemble : Lead → List (List Char) → List Char
  | .plain, segments => glue segments
  | .root, segments => '/' :: glue segments
  | .here, segments => glue (['.'] :: segments)

/-- An idle segment is no step: it is empty or a `.`. -/
def isIdle (segment : List Char) : Bool :=
  segment = [] || segment = ['.']

/-- Segments without the idle ones at the end. -/
def trimEnd (segments : List (List Char)) : List (List Char) :=
  (segments.reverse.dropWhile isIdle).reverse

/-- The component that a segment stands for, if it is not idle. -/
def Component.ofSegment? (segment : List Char) : Option Component :=
  if isIdle segment then none
  else if segment = ['.', '.'] then some .up
  else some (.name (String.ofList segment))

/-- The components that a lead contributes. -/
def Lead.components : Lead → List Component
  | plain => []
  | root => [.root]
  | here => [.here]

/-! ## Meaning -/

/-- The steps of a path. -/
def components (p : Path) : List Component :=
  let (lead, segments) := anatomy p.text.toList
  lead.components ++ segments.filterMap Component.ofSegment?

/-- Two paths are the same when they take the same steps. -/
def Same (p q : Path) : Prop :=
  p.components = q.components

instance (p q : Path) : Decidable (Same p q) :=
  inferInstanceAs (Decidable (p.components = q.components))

/-- Decides `Same`. -/
def same (p q : Path) : Bool :=
  decide (Same p q)

/-- Whether a path begins at the root of the file system. -/
def isAbsolute (p : Path) : Bool :=
  p.text.toList.head? = some '/'

/-! ## Taking apart and putting together -/

/-- The path without its last step; a path without any step but its lead has the empty path as its
parent. -/
def parent (p : Path) : Path :=
  let (lead, segments) := anatomy p.text.toList
  match trimEnd segments with
  | [] => ⟨""⟩
  | kept => ⟨String.ofList (assemble lead (trimEnd kept.dropLast))⟩

/-- The name of the last step, unless that is `..`, `.` or the root. -/
def fileName? (p : Path) : Option String :=
  match p.components.getLast? with
  | some (.name text) => some text
  | _ => none

/-- The path `q` as seen from `p`: an absolute `q` stands alone, any other goes below `p`. -/
def join (p q : Path) : Path :=
  if q.isAbsolute then q
  else if p.text.isEmpty || p.text.toList.getLast? = some '/' then ⟨p.text ++ q.text⟩
  else ⟨p.text ++ "/" ++ q.text⟩

/-- Drops the segments of the first `n` steps. -/
def dropSteps : Nat → List (List Char) → List (List Char)
  | 0, segments => segments
  | _ + 1, [] => []
  | n + 1, segment :: rest => if isIdle segment then dropSteps (n + 1) rest else dropSteps n rest

/-- What is left of a path below `base`, if the steps of `base` are the first steps of the path. -/
def stripPrefix? (p base : Path) : Option Path :=
  let (lead, segments) := anatomy p.text.toList
  if base.components.isPrefixOf p.components then
    match base.components.length with
    | 0 => some ⟨String.ofList (assemble lead (trimEnd segments))⟩
    | n + 1 =>
        let steps := n + 1 - lead.components.length
        some ⟨String.ofList (glue (trimEnd ((dropSteps steps segments).dropWhile isIdle)))⟩
  else none

/-! ## Absolute paths -/

/-- A path as seen from the directory `cwd`, without looking at any file: idle segments go, `..`
stays, and so does a slash at the end. Exactly two slashes at the front are kept, since systems may
give them a meaning. The empty path has no absolute form. -/
def absolute? (cwd p : Path) : Option Path :=
  match p.text.toList with
  | [] => none
  | cs =>
      let steps :=
        match p.components with
        | .here :: rest => rest
        | all => all
      let twoSlashes := ['/', '/'].isPrefixOf cs && !(['/', '/', '/'].isPrefixOf cs)
      let start : Path := if !p.isAbsolute then cwd else if twoSlashes then ⟨"//"⟩ else ⟨""⟩
      let steps := if twoSlashes then steps.drop 1 else steps
      let walked := steps.foldl (fun dir step => dir.join ⟨step.text⟩) start
      some (if cs.getLast? = some '/' then walked.join ⟨""⟩ else walked)

example : (Path.mk "a//b/x").parent = ⟨"a//b"⟩ := by decide
example : (Path.mk "./x").parent = ⟨"."⟩ ∧ (Path.mk "/").parent = ⟨""⟩ := by decide
example : (Path.mk "a/b/.//").fileName? = some "b" := by decide
example : Path.Same ⟨"a/./b//"⟩ ⟨"a/b"⟩ := by decide
example : (Path.mk "/work/src//x").stripPrefix? ⟨"/work//src/"⟩ = some ⟨"x"⟩ := by decide
example : Path.absolute? ⟨"/work"⟩ ⟨"./a/../b/"⟩ = some ⟨"/work/a/../b/"⟩ := by decide

end Path

end MakeGraph
