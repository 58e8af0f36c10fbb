/-!
# `MakeGraph.Table` — tables in the order of their entries

A `Table` is a list of keys with their values, in the order in which the keys came. The order is
part of the value, since written files follow it.

`find?` is the view of a table: `find?_insert` says what writing a key does to it, and
`keys_insert` that a key keeps its place.
-/

namespace MakeGraph

/-- Keys with their values, in the order in which the keys came. -/
abbrev Table (κ ν : Type) := List (κ × ν)

namespace Table

variable {κ ν : Type} [DecidableEq κ]

/-- The keys in order. -/
def keys (t : Table κ ν) : List κ :=
  t.map (·.1)

/-- The value of a key. -/
def find? : Table κ ν → κ → Option ν
  | [], _ => none
  | (k, v) :: rest, key => if k = key then some v else find? rest key

/-- Whether a key has a value. -/
def contains (t : Table κ ν) (key : κ) : Bool :=
  (t.find? key).isSome

/-- Writes a value at the end, for a key that the table does not have. -/
def append (t : Table κ ν) (key : κ) (value : ν) : Table κ ν :=
  List.append t [(key, value)]

/-- Writes a value: in the place of the key's old one, or at the end. -/
def insert : Table κ ν → κ → ν → Table κ ν
  | [], key, value => [(key, value)]
  | (k, v) :: rest, key, value =>
      if k = key then (k, value) :: rest else (k, v) :: insert rest key value

theorem find?_insert (t : Table κ ν) (key key' : κ) (value : ν) :
    (t.insert key value).find? key' = if key = key' then some value else t.find? key' := by
  induction t with
  | nil => simp [insert, find?]
  | cons entry rest ih =>
    obtain ⟨k, v⟩ := entry
    by_cases hk : k = key
    · subst hk
      by_cases h : k = key' <;> simp [insert, find?, h]
    · by_cases h : k = key'
      · subst h
        have hne : ¬ key = k := fun h' => hk h'.symm
        simp [insert, find?, hk, hne]
      · simp [insert, find?, hk, h, ih]

theorem keys_insert (t : Table κ ν) (key : κ) (value : ν) :
    (t.insert key value).keys = if t.contains key then t.keys else t.keys ++ [key] := by
  induction t with
  | nil => simp [insert, keys, contains, find?]
  | cons entry rest ih =>
    obtain ⟨k, v⟩ := entry
    by_cases hk : k = key
    · simp [insert, keys, contains, find?, hk]
    · simp only [keys, contains] at ih
      by_cases hc : (find? rest key).isSome = true <;>
        simp [insert, keys, contains, find?, hk, hc, ih]

end Table

end MakeGraph
