import MakeGraph.Json.Token

/-!
# `MakeGraph.Json.Document` — reading a text as a document

`Json.parse` reads a text to its end, or to the first token that cannot come where it stands. The
reader is a machine over tokens (`Reader.take`) with a stack of open brackets; at a wrong token and
at the end of the text it tears what is open (`Reader.tear`), so that everything before that place
is still there to be decoded.
-/

namespace MakeGraph.Json

/-- A bracket that is open, with what was read inside it so far, last one first. -/
inductive Reader.Frame where
  | array (items : List Json)
  /-- An object; once it is `blurred`, what follows is not kept. -/
  | object (members : List (String × Json)) (blurred : Bool)
  /-- An object in which the value of `key` is being read, or a value that is not kept. -/
  | member (members : List (String × Json)) (key : Option String)
deriving Repr

/-- What may come next. -/
inductive Reader.Stage where
  /-- A value. -/
  | value
  /-- The first item of an array, or its bracket. -/
  | firstItem
  /-- The first key of an object, or its brace. -/
  | firstKey
  /-- A key. -/
  | key
  /-- The colon behind a key. -/
  | colon
  /-- A comma, or the closing bracket. -/
  | next
  /-- Nothing: the document is complete. -/
  | done (document : Json)
  /-- Nothing: the text stopped being a document. -/
  | torn (document : Json)
  /-- Nothing: the document is complete, but text follows it. -/
  | excess (document : Json)
deriving Repr

/-- The open brackets, innermost first, and what may come next. -/
structure Reader where
  /-- The open brackets, innermost first. -/
  frames : List Reader.Frame := []
  /-- What may come next. -/
  stage : Reader.Stage := .value
deriving Repr

namespace Reader

/-- The document in which everything that is open is torn, when `inner` is what was read of a value
in its innermost bracket. -/
def close : List Frame → Json → Json
  | [], inner => inner
  | .array items :: frames, inner => close frames (.array (inner :: items).reverse false)
  | .object members _ :: frames, _ | .member members none :: frames, _ =>
      close frames (.object members.reverse .torn)
  | .member members (some key) :: frames, inner =>
      close frames (.object ((key, inner) :: members).reverse .torn)

/-- Gives up where a token cannot stand. -/
def tear (r : Reader) : Reader :=
  match r.stage with
  | .torn _ | .excess _ => r
  | .done document => ⟨[], .excess document⟩
  | _ =>
      match r.frames with
      | .array items :: frames => ⟨[], .torn (close frames (.array items.reverse false))⟩
      | frames => ⟨[], .torn (close frames .broken)⟩

/-- Puts a finished value in its place. -/
def give (frames : List Frame) (value : Json) : Reader :=
  match frames with
  | [] => ⟨[], .done value⟩
  | .array items :: frames => ⟨.array (value :: items) :: frames, .next⟩
  | .member members (some key) :: frames =>
      ⟨.object ((key, value) :: members) false :: frames, .next⟩
  | .member members none :: frames => ⟨.object members true :: frames, .next⟩
  | .object members blurred :: frames => ⟨.object members blurred :: frames, .next⟩

/-- An object whose brace was reached. -/
def finished (members : List (String × Json)) (blurred : Bool) : Json :=
  .object members.reverse (if blurred then .blurred else .whole)

/-- A token where a value may stand. -/
def takeValue (r : Reader) (token : Token) : Reader :=
  match token with
  | .scalar value => give r.frames value
  | .string text => give r.frames (.string text)
  | .blurredString => give r.frames .unreadable
  | .openArray => ⟨.array [] :: r.frames, .firstItem⟩
  | .openObject => ⟨.object [] false :: r.frames, .firstKey⟩
  | _ => r.tear

/-- A token where a key may stand. -/
def takeKey (r : Reader) (token : Token) : Reader :=
  match token, r.frames with
  | .string key, .object members false :: frames => ⟨.member members (some key) :: frames, .colon⟩
  | .string _, .object members true :: frames | .blurredString, .object members _ :: frames =>
      ⟨.member members none :: frames, .colon⟩
  | _, _ => r.tear

/-- One step of the reader. -/
def take (r : Reader) (token : Token) : Reader :=
  match r.stage, token, r.frames with
  | .value, token, _ => r.takeValue token
  | .firstItem, .closeArray, .array items :: frames => give frames (.array items.reverse true)
  | .firstItem, token, _ => r.takeValue token
  | .firstKey, .closeObject, .object members blurred :: frames =>
      give frames (finished members blurred)
  | .firstKey, token, _ | .key, token, _ => r.takeKey token
  | .colon, .colon, frames => ⟨frames, .value⟩
  | .next, .comma, .array items :: frames => ⟨.array items :: frames, .value⟩
  | .next, .comma, .object members blurred :: frames => ⟨.object members blurred :: frames, .key⟩
  | .next, .closeArray, .array items :: frames => give frames (.array items.reverse true)
  | .next, .closeObject, .object members blurred :: frames =>
      give frames (finished members blurred)
  | _, _, _ => r.tear

end Reader

/-- A text read as a document. -/
structure Document where
  /-- The document, torn where the text stops being one. -/
  value : Json
  /-- Whether text follows a complete document. -/
  excess : Bool
deriving Repr

/-- Reads a text as a document. -/
def parse (text : String) : Document :=
  let r := (Token.scan text).foldl Reader.take {}
  match r.stage with
  | .done document => ⟨document, false⟩
  | .excess document => ⟨document, true⟩
  | _ =>
      match r.tear.stage with
      | .torn document => ⟨document, false⟩
      | _ => ⟨.broken, false⟩

end MakeGraph.Json
