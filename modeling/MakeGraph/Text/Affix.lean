/-!
# `MakeGraph.Text.Affix` — beginnings and endings of texts
-/

namespace MakeGraph.Text

/-- What follows `lead` at the beginning of a text. -/
def dropLead? (lead text : String) : Option String :=
  if lead.toList.isPrefixOf text.toList then
    some (String.ofList (text.toList.drop lead.toList.length))
  else none

/-- What precedes `tail` at the end of a text. -/
def dropTail? (tail text : String) : Option String :=
  if tail.toList.isSuffixOf text.toList then
    some (String.ofList (text.toList.take (text.toList.length - tail.toList.length)))
  else none

example : dropLead? "lib" "libfoo.a" = some "foo.a" := by decide
example : dropTail? ".a" "foo.a" = some "foo" := by decide
example : dropTail? ".a" "a" = none := by decide

end MakeGraph.Text
