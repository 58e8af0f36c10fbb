/-!
# `MakeGraph.Shell.Quote` — one word for a POSIX shell

`quote` writes a text so that a POSIX shell reads it back as exactly one word. Quotes open as late
as possible and stay open until a single quote or the end of the text closes them:
`foo bar` becomes `foo' bar'`, and `it's a` becomes `it\'s' a'`.
-/

namespace MakeGraph.Shell

/-- An inert character needs no quoting: a letter, a digit, or one of `,` `.` `/` `_` `-`. -/
def isInert (c : Char) : Bool :=
  c.isAlphanum || c == ',' || c == '.' || c == '/' || c == '_' || c == '-'

/-- A character is copied when it reads the same inside quotes and outside: it is inert or lies
beyond ASCII. -/
def isCopied (c : Char) : Bool :=
  isInert c || 0x80 ≤ c.toNat

/-- The quoted form of a text, begun inside single quotes or outside of them. -/
def quoteFrom : (inside : Bool) → List Char → List Char
  | true, [] => ['\'']
  | false, [] => []
  | inside, c :: cs =>
      if isCopied c then c :: quoteFrom inside cs
      else if c = '\'' then (if inside then ['\'', '\\', '\''] else ['\\', '\'']) ++ quoteFrom false cs
      else (if inside then [c] else ['\'', c]) ++ quoteFrom true cs

/-- The word that stands for a text; the empty text needs a pair of quotes. -/
def quoteChars : List Char → List Char
  | [] => ['\'', '\'']
  | cs => quoteFrom false cs

/-- The word that a POSIX shell reads back as `text`. -/
def quote (text : String) : String :=
  String.ofList (quoteChars text.toList)

/-- Texts of copied characters stand for themselves. -/
theorem quoteFrom_false_of_all {cs : List Char} (h : cs.all isCopied = true) :
    quoteFrom false cs = cs := by
  induction cs with
  | nil => rfl
  | cons c cs ih =>
    simp only [List.all_cons, Bool.and_eq_true] at h
    simp [quoteFrom, h.1, ih h.2]

example : quote "main.c" = "main.c" := by decide
example : quote "foo bar" = "foo' bar'" := by decide
example : quote "a b'c" = "a' b'\\'c" := by decide
example : quote "-Wl,-rpath=x" = "-Wl,-rpath'=x'" := by decide

end MakeGraph.Shell
