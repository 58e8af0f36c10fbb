import MakeGraph.Json.Document
import MakeGraph.Json.Mismatch
import MakeGraph.Table

/-!
# `MakeGraph.Json.Decoder` — from documents to values

A `Decoder α` turns a document into an `α` or finds the first `Issue`. Which issue is first depends
on the `Reading`: a text that is decoded while it is read shows its problems in the order of the
text, and brackets may nest only so deep; a value that was read whole before, or loaded as a value,
can only be a mismatch.

## Contents

* `Reading`, `Decoder` — ways to read
* `Document.decode` — a decoder at work on a text
* `Decoder.text`, `Decoder.flag`, `Decoder.list`, `Decoder.table`, `Decoder.optional` — shapes
* `Decoder.oneOf` — names with a meaning
* `Decoder.tagged` — objects whose `type` says what they are
-/

namespace MakeGraph.Json

/-- How a document is being read. -/
inductive Reading where
  /-- As it is decoded, with room for so many brackets more. -/
  | stream (room : Nat)
  /-- Whole, before its parts are decoded. -/
  | whole
  /-- As a value that was loaded before. -/
  | loaded
deriving DecidableEq, Repr

/-- Turns a document into a value. -/
abbrev Decoder (α : Type) := Reading → Json → Except Issue α

/-- A mismatch as an issue. -/
def mismatch {α : Type} (cause : Mismatch) : Except Issue α :=
  .error (.mismatch cause)

/-- The issue of a document that is not `wanted`. -/
def unexpected {α : Type} (wanted : String) (document : Json) : Except Issue α :=
  match document.shape? with
  | some found => mismatch (.shape found wanted)
  | none => .error .malformed

/-- Fails where the text is broken off. -/
def ensure (readable : Bool) : Except Issue Unit :=
  if readable then .ok () else .error .malformed

namespace Reading

/-- The reading inside a bracket. -/
def enter : Reading → Except Issue Reading
  | stream 0 => .error .malformed
  | stream (room + 1) => .ok (stream room)
  | other => .ok other

/-- Whether a value can be read to its end. -/
def canRead (r : Reading) (document : Json) : Bool :=
  match r with
  | stream room => document.fits room
  | _ => true

/-- Whether a value can be skipped. -/
def canSkip (r : Reading) (document : Json) : Bool :=
  match r with
  | stream _ => document.skippable
  | _ => true

end Reading

/-- Decodes a text that was read as a document. Text behind the document is noticed last. -/
def Document.decode {α : Type} (decoder : Decoder α) (d : Document) : Except Issue α := do
  let value ← decoder (.stream depthLimit) d.value
  ensure (!d.excess)
  return value

namespace Decoder

/-! ## Shapes -/

/-- A string, called `wanted` in messages. -/
def textAs (wanted : String) : Decoder String
  | _, .string text => .ok text
  | _, document => unexpected wanted document

/-- A string. -/
def text : Decoder String :=
  textAs "a string"

/-- A truth value. -/
def flag : Decoder Bool
  | _, .bool value => .ok value
  | _, document => unexpected "a boolean" document

/-- An array of like items. -/
def list {α : Type} (item : Decoder α) : Decoder (List α)
  | r, .array items closed => do
      let r ← r.enter
      let values ← items.mapM (item r)
      ensure closed
      .ok values
  | _, document => unexpected "a sequence" document

/-- An object with like members. A repeated key keeps its place and takes the last value. -/
def table {α : Type} (value : Decoder α) : Decoder (Table String α)
  | r, .object members extent => do
      let r ← r.enter
      let entries ← members.foldlM (fun (read : Table String α) (key, document) =>
        return read.insert key (← value r document)) []
      ensure (extent = .whole)
      .ok entries
  | _, document => unexpected "a map" document

/-- A value, or `null` for none. -/
def optional {α : Type} (value : Decoder α) : Decoder (Option α)
  | _, .null => .ok none
  | r, document => some <$> value r document

/-! ## Names with a meaning -/

/-- The meaning of a name. -/
def lookup {α : Type} (names : List (String × α)) (name : String) : Except Issue α :=
  match names.find? (·.1 = name) with
  | some (_, meaning) => .ok meaning
  | none => mismatch (.unknownVariant name (names.map (·.1)))

/-- The empty contents of a name that is written as the key of an object: `null`, and within a value
that was read whole also an empty object. -/
def nothing : Decoder Unit
  | _, .null => .ok ()
  | .whole, .object [] _ => .ok ()
  | _, document => unexpected "unit" document

/-- One of several names, or an object with such a name as its only key and nothing in it. -/
def oneOf {α : Type} (names : List (String × α)) : Decoder α
  | _, .string name => lookup names name
  | .stream room, .object members extent => do
      let r ← (Reading.stream room).enter
      match members with
      | [] => .error .malformed
      | (name, contents) :: others =>
          let meaning ← lookup names name
          nothing r contents
          ensure (extent = .whole && others.isEmpty)
          .ok meaning
  | .stream _, _ => .error .malformed
  | r, .object members _ =>
      match members with
      | [(name, contents)] => do
          let meaning ← lookup names name
          nothing r contents
          .ok meaning
      | _ => mismatch (.value .object "map with a single key")
  | _, document => unexpected "string or map" document

/-! ## Tagged objects -/

/-- The key under which an object says what it is. -/
def tagKey : String := "type"

/-- The value of a tag. In a value that was read whole, the place of the name in the list stands for
the name too. -/
def tag {α : Type} (names : List (String × α)) : Decoder α
  | _, .string name => lookup names name
  | .whole, .number (.natural n) =>
      match names[n]? with
      | some (_, meaning) => .ok meaning
      | none =>
          mismatch (.value (.number (.natural n))
            ("variant index 0 <= i < " ++ toString names.length))
  | _, document => unexpected "variant identifier" document

/-- The tag among the members of an object, and the members that are left, last one first. -/
def splitTag {α : Type} (names : List (String × α)) (r : Reading) :
    Option α × List (String × Json) → String × Json →
    Except Issue (Option α × List (String × Json))
  | (found, others), (key, document) => do
      if key = tagKey then
        if found.isSome then mismatch (.duplicate tagKey)
        let meaning ← tag names r document
        .ok (some meaning, others)
      else
        ensure (r.canRead document)
        .ok (found, (key, document) :: others)

/-- An object that names its kind under `type`, or an array that begins with the kind. It is read
whole before the decoder of its kind sees the rest of it. -/
def tagged {α : Type} (name : String) (kinds : List (String × Decoder α)) : Decoder α
  | r, .object members extent => do
      let r ← r.enter
      let (found, others) ← members.foldlM (splitTag kinds r) (none, [])
      ensure (extent = .whole)
      match found with
      | some decode => decode .whole (.record others.reverse)
      | none => mismatch (.missing tagKey)
  | r, .array items closed => do
      let r ← r.enter
      match items with
      | [] =>
          ensure closed
          mismatch (.missing tagKey)
      | first :: others =>
          let decode ← tag kinds r first
          ensure (others.all r.canRead && closed)
          decode .whole (.list others)
  | _, document => unexpected ("internally tagged enum " ++ name) document

end Decoder

end MakeGraph.Json
