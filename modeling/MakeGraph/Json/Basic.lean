import MakeGraph.Number.Shortest

/-!
# `MakeGraph.Json.Basic` — JSON documents, whole and torn

A document is read as a stream: what is wrong with its contents may be reported before a later place
where it stops being JSON is ever reached. `Json` therefore also describes texts that are JSON only
up to a point. An array that the text breaks off is not `closed`, and such an object is `torn`.

Some scalars can be skipped but not read: strings whose escapes name half a character, and numbers
beyond every double. They are `unreadable`. An object with such a string for a key can be read up to
that key, and skipped to its end: it is `blurred`.

## Contents

* `Json`, `Json.Number`, `Json.Extent` — documents
* `Json.fits` — a document that can be read whole without nesting too deep
* `Json.skippable` — a document that can be skipped
* `Json.Shape` — what a message says of a value
-/

namespace MakeGraph

namespace Json

/-- A number as a reader keeps it. -/
inductive Number where
  /-- A whole number from zero up. -/
  | natural (n : Nat)
  /-- A whole number below zero, `-n`. -/
  | negative (n : Nat)
  /-- Any other number, and whole numbers that 64 bits do not hold. -/
  | double (negative : Bool) (magnitude : Binary64)
deriving DecidableEq, Repr, Inhabited

/-- The text of a number. -/
def Number.text : Number → String
  | natural n => toString n
  | negative n => "-" ++ toString n
  | double below magnitude => (if below then "-" else "") ++ magnitude.text

/-- How far an object goes. -/
inductive Extent where
  /-- To its brace. -/
  | whole
  /-- To its brace, but to be read only up to a key that cannot be read. -/
  | blurred
  /-- To a place where the text stops being JSON. -/
  | torn
deriving DecidableEq, Repr, Inhabited

end Json

/-- A JSON document, or the part of a text that is one. -/
inductive Json where
  | null
  | bool (value : Bool)
  | number (value : Json.Number)
  | string (text : String)
  /-- A scalar that can be skipped but not read. -/
  | unreadable
  /-- The items of an array; `closed` when its bracket was reached. -/
  | array (items : List Json) (closed : Bool)
  /-- The members of an object in order, as far as they can be read. -/
  | object (members : List (String × Json)) (extent : Json.Extent)
  /-- A place where the text stops being JSON. -/
  | broken
deriving Repr, Inhabited

namespace Json

/-- How many brackets may be open at once. -/
def depthLimit : Nat := 127

/-! ## Reading whole and skipping -/

mutual

/-- Whether a value can be read to its end while at most `room` brackets open inside each other. -/
def fits : (room : Nat) → Json → Bool
  | _, null | _, bool _ | _, number _ | _, string _ => true
  | _, unreadable | _, broken => false
  | 0, array .. | 0, object .. => false
  | room + 1, array items closed => closed && fitsItems room items
  | room + 1, object members extent => extent = .whole && fitsMembers room members

/-- Whether all items can be read to their end. -/
def fitsItems : (room : Nat) → List Json → Bool
  | _, [] => true
  | room, item :: items => fits room item && fitsItems room items

/-- Whether the values of all members can be read to their end. -/
def fitsMembers : (room : Nat) → List (String × Json) → Bool
  | _, [] => true
  | room, (_, value) :: members => fits room value && fitsMembers room members

end

mutual

/-- Whether a value can be skipped; nesting does not count. -/
def skippable : Json → Bool
  | null | bool _ | number _ | string _ | unreadable => true
  | broken => false
  | array items closed => closed && skippableItems items
  | object members extent => extent ≠ .torn && skippableMembers members

/-- Whether all items can be skipped. -/
def skippableItems : List Json → Bool
  | [] => true
  | item :: items => skippable item && skippableItems items

/-- Whether the values of all members can be skipped. -/
def skippableMembers : List (String × Json) → Bool
  | [] => true
  | (_, value) :: members => skippable value && skippableMembers members

end

/-! ## Building -/

/-- A whole array. -/
def list (items : List Json) : Json :=
  array items true

/-- A whole object. -/
def record (members : List (String × Json)) : Json :=
  object members .whole

/-- An array of strings. -/
def strings (texts : List String) : Json :=
  list (texts.map string)

/-! ## Shapes -/

/-- As much of a value as a message names. -/
inductive Shape where
  | null
  | bool (value : Bool)
  | number (value : Number)
  | string (text : String)
  | array
  | object
deriving DecidableEq, Repr

/-- The shape of a value; where the text is broken there is none. -/
def shape? : Json → Option Shape
  | null => some .null
  | bool value => some (.bool value)
  | number value => some (.number value)
  | string text => some (.string text)
  | array .. => some .array
  | object .. => some .object
  | unreadable | broken => none

end Json

end MakeGraph
