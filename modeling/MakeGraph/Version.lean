/-!
# `MakeGraph.Version` — semantic version numbers

`Version.parse` reads `MAJOR.MINOR.PATCH[-PRERELEASE][+BUILD]`, where the three numbers fit into 64
bits and have no leading zero, and the two optional parts are lists of identifiers separated by
points. `Version.text` writes it back. What is wrong with a text is a `Version.Error`; its wording
is `Version.Error.message`, given a way to show a character.
-/

namespace MakeGraph

/-- A semantic version number. -/
structure Version where
  major : Nat
  minor : Nat
  patch : Nat
  /-- The identifiers behind `-`; empty when there are none. -/
  prerelease : String := ""
  /-- The identifiers behind `+`; empty when there are none. -/
  build : String := ""
deriving DecidableEq, Repr, Inhabited

namespace Version

/-- The part of a version number that is being read. -/
inductive Part where
  | major
  | minor
  | patch
  | prerelease
  | build
deriving DecidableEq, Repr

/-- The name of a part. -/
def Part.name : Part → String
  | major => "major version number"
  | minor => "minor version number"
  | patch => "patch version number"
  | prerelease => "pre-release identifier"
  | build => "build metadata"

/-- Why a text is no version number. -/
inductive Error where
  /-- The text is empty. -/
  | empty
  /-- The text ends in a part. -/
  | unexpectedEnd (part : Part)
  /-- A character cannot stand in a part. -/
  | unexpectedChar (part : Part) (c : Char)
  /-- A character cannot stand after a part. -/
  | unexpectedCharAfter (part : Part) (c : Char)
  /-- A number begins with a zero that it does not need. -/
  | leadingZero (part : Part)
  /-- A number needs more than 64 bits. -/
  | overflow (part : Part)
  /-- Nothing stands between two points. -/
  | emptySegment (part : Part)
deriving DecidableEq, Repr

/-- The wording of an error, where `quote` shows a character. -/
def Error.message (quote : Char → String) : Error → String
  | empty => "empty string, expected a semver version"
  | unexpectedEnd part => "unexpected end of input while parsing " ++ part.name
  | unexpectedChar part c =>
      "unexpected character " ++ quote c ++ " while parsing " ++ part.name
  | unexpectedCharAfter part c => "unexpected character " ++ quote c ++ " after " ++ part.name
  | leadingZero part => "invalid leading zero in " ++ part.name
  | overflow part => "value of " ++ part.name ++ " exceeds u64::MAX"
  | emptySegment part => "empty identifier segment in " ++ part.name

/-- The greatest number of 64 bits. -/
def maxNumber : Nat := 0xFFFFFFFFFFFFFFFF

/-- Reads digits behind the value `n`. A digit behind a zero that stands alone is an error. -/
def digits (part : Part) : Nat → List Char → Except Error (Nat × List Char)
  | n, [] => .ok (n, [])
  | n, c :: cs =>
      if '0' ≤ c && c ≤ '9' then
        let value := n * 10 + (c.toNat - '0'.toNat)
        if n = 0 then .error (.leadingZero part)
        else if value > maxNumber then .error (.overflow part)
        else digits part value cs
      else .ok (n, c :: cs)

/-- Reads a number. -/
def number (part : Part) : List Char → Except Error (Nat × List Char)
  | [] => .error (.unexpectedEnd part)
  | c :: cs =>
      if '0' ≤ c && c ≤ '9' then digits part (c.toNat - '0'.toNat) cs
      else .error (.unexpectedChar part c)

/-- Reads the point behind a part. -/
def point (part : Part) : List Char → Except Error (List Char)
  | '.' :: cs => .ok cs
  | [] => .error (.unexpectedEnd part)
  | c :: _ => .error (.unexpectedCharAfter part c)

/-- A character of an identifier. -/
def isIdentifierChar (c : Char) : Bool :=
  ('0' ≤ c && c ≤ '9') || ('A' ≤ c && c ≤ 'Z') || ('a' ≤ c && c ≤ 'z') || c = '-'

/-- Checks a finished segment of an identifier list: it is not empty, and before the build metadata
no number has a leading zero. -/
def checkSegment (part : Part) (segment : List Char) : Except Error Unit :=
  if segment.isEmpty then .error (.emptySegment part)
  else if part = .prerelease && 1 < segment.length && segment.head? = some '0'
      && segment.all (fun c => '0' ≤ c && c ≤ '9') then .error (.leadingZero part)
  else .ok ()

/-- Reads identifiers separated by points: the segment that is being read, and the whole text so
far. A list that is empty as a whole is left to the caller. -/
def identifiers (part : Part) : (segment whole : List Char) → List Char →
    Except Error (List Char × List Char)
  | segment, whole, c :: cs =>
      if isIdentifierChar c then identifiers part (segment ++ [c]) (whole ++ [c]) cs
      else if c = '.' then do
        checkSegment part segment
        identifiers part [] (whole ++ [c]) cs
      else if whole.isEmpty then .ok ([], c :: cs)
      else do
        checkSegment part segment
        .ok (whole, c :: cs)
  | segment, whole, [] =>
      if whole.isEmpty then .ok ([], [])
      else do
        checkSegment part segment
        .ok (whole, [])

/-- Reads the identifiers behind `mark`, if it comes next. -/
def optionalPart (part : Part) (mark : Char) (cs : List Char) :
    Except Error (Option (List Char) × List Char) :=
  match cs with
  | c :: rest =>
      if c = mark then do
        let (whole, rest) ← identifiers part [] [] rest
        if whole.isEmpty then .error (.emptySegment part) else .ok (some whole, rest)
      else .ok (none, cs)
  | [] => .ok (none, [])

/-- Reads a version number. -/
def parse (text : String) : Except Error Version := do
  let cs := text.toList
  if cs.isEmpty then .error .empty
  let (major, cs) ← number .major cs
  let cs ← point .major cs
  let (minor, cs) ← number .minor cs
  let cs ← point .minor cs
  let (patch, cs) ← number .patch cs
  let (prerelease, cs) ← optionalPart .prerelease '-' cs
  let (build, cs) ← optionalPart .build '+' cs
  let last := if build.isSome then .build else if prerelease.isSome then .prerelease else .patch
  match cs with
  | c :: _ => .error (.unexpectedCharAfter last c)
  | [] =>
      .ok ⟨major, minor, patch, String.ofList (prerelease.getD []), String.ofList (build.getD [])⟩

/-- The text of a version number. -/
def text (v : Version) : String :=
  toString v.major ++ "." ++ toString v.minor ++ "." ++ toString v.patch ++
    (if v.prerelease.isEmpty then "" else "-" ++ v.prerelease) ++
    (if v.build.isEmpty then "" else "+" ++ v.build)

example : (parse "1.20.3-rc.1+x86").toOption.map text = some "1.20.3-rc.1+x86" := by decide +kernel
example : (parse "1.02.3").toOption = none := by decide +kernel

end Version

end MakeGraph
