import MakeGraph.Json.Numeral

/-!
# `MakeGraph.Json.Token` — the tokens of a JSON text

`Token.scan` cuts a text into brackets, separators, scalars and strings. The scanner is a machine
that eats one character at a time (`Scanner.eat`). Where the text holds something that begins or
continues no token, it emits `Token.junk` and stops: nothing after that place matters.
-/

namespace MakeGraph.Json

/-- A token of a JSON text. -/
inductive Token where
  | openArray
  | closeArray
  | openObject
  | closeObject
  | comma
  | colon
  /-- A scalar other than a string. -/
  | scalar (value : Json)
  /-- A readable string. -/
  | string (text : String)
  /-- A string that can be skipped but not read. -/
  | blurredString
  /-- A place where no token can be read. -/
  | junk
deriving Repr

/-- The part of a numeral that was read last. -/
inductive Numeral.Stage where
  /-- The minus sign. -/
  | sign
  /-- A zero that no digit may follow. -/
  | zero
  /-- Digits before the point. -/
  | whole
  /-- The point. -/
  | point
  /-- Digits after the point. -/
  | fraction
  /-- The letter of the exponent. -/
  | mark
  /-- The sign of the exponent. -/
  | markSign
  /-- Digits of the exponent. -/
  | exponent
deriving DecidableEq, Repr

/-- Whether a numeral may end after this part. -/
def Numeral.Stage.mayEnd : Numeral.Stage → Bool
  | zero | whole | fraction | exponent => true
  | sign | point | mark | markSign => false

/-- The part of a string that has been read. -/
structure StringText where
  /-- The characters, last one first. -/
  read : List Char := []
  /-- The first half of a character that an escape named and whose second half must follow. -/
  half : Option Nat := none
  /-- Whether every half of a character found its other half. -/
  sound : Bool := true
deriving DecidableEq, Repr

namespace StringText

/-- The string with one more character. -/
def push (s : StringText) (c : Char) : StringText :=
  ⟨c :: s.read, none, s.sound && s.half.isNone⟩

/-- The string with one more unit of sixteen bits, which is a character or half of one. -/
def pushUnit (s : StringText) (unit : Nat) : StringText :=
  let isFirst := 0xD800 ≤ unit && unit ≤ 0xDBFF
  let isSecond := 0xDC00 ≤ unit && unit ≤ 0xDFFF
  match s.half with
  | some first =>
      if isSecond then
        let code := 0x10000 + (first - 0xD800) * 0x400 + (unit - 0xDC00)
        ⟨Char.ofNat code :: s.read, none, s.sound⟩
      else { s with half := none, sound := false }
  | none =>
      if isFirst then { s with half := some unit }
      else if isSecond then { s with sound := false }
      else s.push (Char.ofNat unit)

/-- The token of a finished string. -/
def token (s : StringText) : Token :=
  if s.sound && s.half.isNone then .string (String.ofList s.read.reverse) else .blurredString

end StringText

/-- Where the scanner stands. -/
inductive Scanner.State where
  /-- Between tokens. -/
  | between
  /-- In a word that goes on with `rest` and stands for `value`. -/
  | literal (rest : List Char) (value : Json)
  /-- In a number. -/
  | numeral (stage : Numeral.Stage) (read : Numeral)
  /-- In a string. -/
  | string (read : StringText)
  /-- After a backslash in a string. -/
  | escape (read : StringText)
  /-- In an escape by code, after `count` of its four digits. -/
  | code (read : StringText) (count value : Nat)
  /-- Behind a place where no token can be read. -/
  | stopped
deriving Repr

/-- The tokens found, last one first, and the state of the scanner. -/
structure Scanner where
  /-- The tokens found, last one first. -/
  found : List Token := []
  /-- Where the scanner stands. -/
  state : Scanner.State := .between
deriving Repr

namespace Scanner

/-- The value of a decimal digit. -/
def digit? (c : Char) : Option Nat :=
  if '0' ≤ c && c ≤ '9' then some (c.toNat - '0'.toNat) else none

/-- The value of a hexadecimal digit. -/
def hexDigit? (c : Char) : Option Nat :=
  if '0' ≤ c && c ≤ '9' then some (c.toNat - '0'.toNat)
  else if 'a' ≤ c && c ≤ 'f' then some (c.toNat - 'a'.toNat + 10)
  else if 'A' ≤ c && c ≤ 'F' then some (c.toNat - 'A'.toNat + 10)
  else none

/-- The character that a one-letter escape stands for. -/
def escaped? : Char → Option Char
  | '"' => some '"'
  | '\\' => some '\\'
  | '/' => some '/'
  | 'b' => some '\x08'
  | 'f' => some '\x0c'
  | 'n' => some '\n'
  | 'r' => some '\r'
  | 't' => some '\t'
  | _ => none

/-- Emits a token and waits for the next. -/
def emit (s : Scanner) (token : Token) : Scanner :=
  ⟨token :: s.found, .between⟩

/-- Gives up. -/
def stop (s : Scanner) : Scanner :=
  ⟨.junk :: s.found, .stopped⟩

/-- The first character of a token, or a blank between tokens. -/
def start (s : Scanner) (c : Char) : Scanner :=
  match c with
  | ' ' | '\t' | '\n' | '\r' => s
  | '[' => s.emit .openArray
  | ']' => s.emit .closeArray
  | '\x7b' => s.emit .openObject
  | '\x7d' => s.emit .closeObject
  | ',' => s.emit .comma
  | ':' => s.emit .colon
  | '"' => { s with state := .string {} }
  | 'n' => { s with state := .literal ['u', 'l', 'l'] .null }
  | 't' => { s with state := .literal ['r', 'u', 'e'] (.bool true) }
  | 'f' => { s with state := .literal ['a', 'l', 's', 'e'] (.bool false) }
  | '-' => { s with state := .numeral .sign { negative := true } }
  | _ =>
      match digit? c with
      | some 0 => { s with state := .numeral .zero { whole := [0] } }
      | some d => { s with state := .numeral .whole { whole := [d] } }
      | none => s.stop

/-- The next part of a numeral, if the character belongs to it. -/
def extend? (stage : Numeral.Stage) (x : Numeral) (c : Char) :
    Option (Numeral.Stage × Numeral) :=
  let mark := c = 'e' || c = 'E'
  let withDigit := fun (d : Nat) (stage' : Numeral.Stage) =>
    match stage' with
    | .whole | .zero => some (stage', { x with whole := x.whole ++ [d] })
    | .fraction => some (stage', { x with fraction := some (x.fraction.getD [] ++ [d]) })
    | _ =>
        let (below, digits) := x.exponent.getD (false, [])
        some (stage', { x with exponent := some (below, digits ++ [d]) })
  match stage, digit? c with
  | .sign, some 0 => withDigit 0 .zero
  | .sign, some d => withDigit d .whole
  | .zero, some _ => none
  | .whole, some d => withDigit d .whole
  | .point, some d | .fraction, some d => withDigit d .fraction
  | .mark, some d | .markSign, some d | .exponent, some d => withDigit d .exponent
  | .zero, none | .whole, none =>
      if c = '.' then some (.point, { x with fraction := some [] })
      else if mark then some (.mark, { x with exponent := some (false, []) })
      else none
  | .fraction, none =>
      if mark then some (.mark, { x with exponent := some (false, []) }) else none
  | .mark, none =>
      if c = '+' then some (.markSign, x)
      else if c = '-' then some (.markSign, { x with exponent := some (true, []) })
      else none
  | .sign, none | .point, none | .markSign, none | .exponent, none => none

/-- The token of a finished numeral. -/
def numeralToken (x : Numeral) : Token :=
  .scalar (match x.value? with
    | some value => .number value
    | none => .unreadable)

/-- One step of the scanner. -/
def eat (s : Scanner) (c : Char) : Scanner :=
  match s.state with
  | .between => s.start c
  | .literal rest value =>
      match rest with
      | [d] => if c = d then s.emit (.scalar value) else s.stop
      | d :: rest => if c = d then { s with state := .literal rest value } else s.stop
      | [] => s.stop
  | .numeral stage x =>
      match extend? stage x c with
      | some (stage, x) => { s with state := .numeral stage x }
      | none =>
          -- a digit after a leading zero is part of the numeral, and wrong
          if stage.mayEnd && !(stage = .zero && (digit? c).isSome) then
            (s.emit (numeralToken x)).start c
          else s.stop
  | .string read =>
      if c = '"' then s.emit read.token
      else if c = '\\' then { s with state := .escape read }
      else if c < ' ' then s.stop
      else { s with state := .string (read.push c) }
  | .escape read =>
      if c = 'u' then { s with state := .code read 0 0 }
      else match escaped? c with
        | some d => { s with state := .string (read.push d) }
        | none => s.stop
  | .code read count value =>
      match hexDigit? c with
      | none => s.stop
      | some d =>
          let value := value * 16 + d
          if count = 3 then { s with state := .string (read.pushUnit value) }
          else { s with state := .code read (count + 1) value }
  | .stopped => s

/-- The tokens once the text has ended. -/
def finish (s : Scanner) : List Token :=
  match s.state with
  | .between | .stopped => s.found.reverse
  | .numeral stage x =>
      if stage.mayEnd then (numeralToken x :: s.found).reverse else s.stop.found.reverse
  | _ => s.stop.found.reverse

end Scanner

/-- The tokens of a text. -/
def Token.scan (text : String) : List Token :=
  (text.toList.foldl Scanner.eat {}).finish

end MakeGraph.Json
