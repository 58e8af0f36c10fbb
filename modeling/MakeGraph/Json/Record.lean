import MakeGraph.Json.Decoder

/-!
# `MakeGraph.Json.Record` — objects with known members

A `Record` describes how a structure is written: a list of fields, each with a decoder and perhaps
a default, and a function that builds the structure from their values. `Record.decode` reads it from
an object with these members in any order, or from an array of their values in the order of the
fields. Members are looked at in the order of the text; a missing one is noticed at the end.
-/

namespace MakeGraph.Json

/-! ## Fields -/

/-- The fields of a structure, with the types of their values. -/
inductive Fields : List Type → Type 1 where
  | done : Fields []
  /-- A field that must be written. -/
  | required {α : Type} {types : List Type} (name : String) (decode : Decoder α)
      (rest : Fields types) : Fields (α :: types)
  /-- A field with a value for when it is not written. -/
  | withDefault {α : Type} {types : List Type} (name : String) (decode : Decoder α) (value : α)
      (rest : Fields types) : Fields (α :: types)

/-- One value of every type. -/
def Values : List Type → Type
  | [] => Unit
  | α :: types => α × Values types

/-- The values that have been read. -/
def Slots : List Type → Type
  | [] => Unit
  | α :: types => Option α × Slots types

namespace Fields

/-- The names of the fields. -/
def names {types : List Type} : Fields types → List String
  | done => []
  | required name _ rest | withDefault name _ _ rest => name :: rest.names

/-- No value yet. -/
def blank {types : List Type} : Fields types → Slots types
  | done => ()
  | required _ _ rest | withDefault _ _ _ rest => (none, rest.blank)

/-- Puts a value into a slot that must be empty. -/
def fill {α : Type} (name : String) (decode : Decoder α) (r : Reading) (document : Json)
    (slot : Option α) : Except Issue α :=
  if slot.isSome then mismatch (.duplicate name) else decode r document

/-- Reads the value of the field `key`; none when there is no such field. -/
def put? {types : List Type} (r : Reading) (key : String) (document : Json) :
    Fields types → Slots types → Option (Except Issue (Slots types))
  | done, _ => none
  | required name decode rest, (slot, slots) | withDefault name decode _ rest, (slot, slots) =>
      if name = key then
        some do return (some (← fill name decode r document slot), slots)
      else (put? r key document rest slots).map fun read => do return (slot, ← read)

/-- The values once all members have been read. -/
def complete {types : List Type} : Fields types → Slots types → Except Issue (Values types)
  | done, () => .ok ()
  | required name _ rest, (slot, slots) =>
      match slot with
      | some value => do return (value, ← rest.complete slots)
      | none => mismatch (.missing name)
  | withDefault _ _ value rest, (slot, slots) => do
      return (slot.getD value, ← rest.complete slots)

/-- Reads the values from items in the order of the fields, and returns the items left over. When
the items end before the field number `count`, `short` says so. -/
def ofItems {types : List Type} (r : Reading) (closed : Bool) (short : Nat → Issue) :
    Fields types → Nat → List Json → Except Issue (Values types × List Json)
  | done, _, items => .ok ((), items)
  | required _ decode rest, count, items =>
      match items with
      | item :: items => do
          let value ← decode r item
          let (values, items) ← rest.ofItems r closed short (count + 1) items
          return ((value, values), items)
      | [] => .error (if closed then short count else .malformed)
  | withDefault _ decode value rest, count, items =>
      match items with
      | item :: items => do
          let value ← decode r item
          let (values, items) ← rest.ofItems r closed short (count + 1) items
          return ((value, values), items)
      | [] => do
          ensure closed
          let (values, items) ← rest.ofItems r closed short (count + 1) []
          return ((value, values), items)

end Fields

/-! ## Records -/

/-- How a structure is written. -/
structure Record (types : List Type) (α : Type) where
  /-- The name of the structure in messages. -/
  name : String
  /-- The fields. -/
  fields : Fields types
  /-- The structure of its values. -/
  build : Values types → α
  /-- Whether members that are no field are passed over instead of refused. -/
  lenient : Bool := false

namespace Record

variable {types : List Type} {α : Type}

/-- A number of elements in a message. -/
def elements (n : Nat) : String :=
  toString n ++ (if n = 1 then " element" else " elements")

/-- The name of the structure in messages. -/
def wanted (record : Record types α) : String :=
  "struct " ++ record.name

/-- Reads one member. -/
def member (record : Record types α) (r : Reading) (slots : Slots types) (key : String)
    (document : Json) : Except Issue (Slots types) :=
  match record.fields.put? r key document slots with
  | some read => read
  | none =>
      if record.lenient then do
        ensure (r.canSkip document)
        return slots
      else mismatch (.unknownField key record.fields.names)

/-- The issue of items that are left when every field has its value. -/
def tooLong (r : Reading) (fields total : Nat) : Issue :=
  match r with
  | .stream _ => .malformed
  | .whole => .mismatch (.length total (elements fields ++ " in sequence"))
  | .loaded => .mismatch (.length total "fewer elements in array")

/-- Reads a structure. -/
def decode (record : Record types α) : Decoder α
  | r, .object members extent => do
      let r ← r.enter
      let slots ← members.foldlM (fun slots (key, document) =>
        record.member r slots key document) record.fields.blank
      ensure (extent = .whole)
      return record.build (← record.fields.complete slots)
  | r, .array items closed => do
      let r ← r.enter
      let count := record.fields.names.length
      let short := fun n => .mismatch (.length n (record.wanted ++ " with " ++ elements count))
      let (values, left) ← record.fields.ofItems r closed short 0 items
      if !left.isEmpty then .error (tooLong r count items.length)
      ensure closed
      return record.build values
  | _, document => unexpected record.wanted document

end Record

end MakeGraph.Json
