import MakeGraph.Proofs.Make.Held

/-!
# `Proofs.Make.Escaping` — an escaped name is read as the name that it was

A name is escaped for the list that it stands in, as a target or as a prerequisite, and the two lists
do not have the same special characters. `readWord` is how make reads one word of a list: it expands
the word and takes the backslashes away that quote a special character.

Escaping is undone by this reader in both lists, and nothing of the name acts on its own on the way:
each special character is quoted (`IsGuarded`), and each dollar is one of a pair (`DollarsPaired`). So a
name is the same in every list in which it is written, and different names are different everywhere
(`readsNames_escape`).

## Contents

* `readWord` — the reader
* `IsGuarded`, `isGuarded_of_standsFree` — special characters
* `DollarsPaired`, `dollarsPaired_doubleDollars` — dollars
* `ReadsNames`, `readsNames_escape` — the main result
-/

namespace MakeGraph.Make

/-! ## The reader -/

/-- **The name that make reads of one word**: the word is expanded, and then a run of backslashes before
    a special character is halved. -/
def readWord (special : Char → Bool) (value : String → List Char) (word : String) : String :=
  readName special (expand value word.toList)

example : readWord Context.specialInTargets (fun _ => []) "a\\\\\\%\\b$$" = "a\\%\\b$" := by decide

/-! ## Special characters -/

/-- **Every special character is quoted**: the run of backslashes right before it is odd. -/
def IsGuarded (special : Char → Bool) (text : List Char) : Prop :=
  ∀ before c after, text = before ++ c :: after → special c = true → openBackslashes before % 2 = 1

/-- What is behind an even run of backslashes stands free, so a text in which nothing special stands free
    is guarded. The induction carries the backslashes that were read before. -/
theorem odd_settle_of_standsFree {special : Char → Bool} (hback : special '\\' = false)
    {before after : List Char} {c : Char} {n : Nat}
    (h : standsFree special n (before ++ c :: after) = false) (hc : special c = true) :
    (settle n before).2 % 2 = 1 := by
  induction before generalizing n with
  | nil =>
      have hne : c ≠ '\\' := by
        intro heq
        rw [heq, hback] at hc
        cases hc
      rw [List.nil_append, standsFree, if_neg hne, hc, Bool.or_eq_false_iff] at h
      simpa [settle] using h.1
  | cons d before ih =>
      rw [List.cons_append, standsFree] at h
      rw [settle]
      by_cases hd : d = '\\'
      · rw [if_pos hd] at h ⊢
        exact ih h
      · rw [if_neg hd] at h ⊢
        exact ih (Bool.or_eq_false_iff.mp h).2

theorem isGuarded_of_standsFree {special : Char → Bool} (hback : special '\\' = false)
    {text : List Char} (h : standsFree special 0 text = false) : IsGuarded special text := by
  intro before c after htext hc
  rw [htext] at h
  exact odd_settle_of_standsFree hback h hc

/-- **Escaping guards every special character.** -/
theorem isGuarded_guardSpecials {special : Char → Bool} (hback : special '\\' = false)
    (cs : List Char) : IsGuarded special (guardSpecials special cs) := by
  have hfree : standsFree special (written special 0 cs) (guardSpecials special cs) = false :=
    standsFree_guardSpecials (fun _ h => h) cs 0
  rw [written_zero] at hfree
  exact isGuarded_of_standsFree hback hfree

/-! ## Dollars -/

/-- **Every dollar is one of a pair**, when the text is read from its beginning. -/
inductive DollarsPaired : List Char → Prop
  | nil : DollarsPaired []
  | pair {cs : List Char} (h : DollarsPaired cs) : DollarsPaired ('$' :: '$' :: cs)
  | other {c : Char} {cs : List Char} (hc : c ≠ '$') (h : DollarsPaired cs) : DollarsPaired (c :: cs)

theorem dollarsPaired_doubleDollars (cs : List Char) : DollarsPaired (doubleDollars cs) := by
  induction cs with
  | nil => exact .nil
  | cons c cs ih =>
      by_cases hc : c = '$'
      · subst hc
        exact .pair ih
      · rw [doubleDollars_cons hc]
        exact .other hc ih

/-! ## The main result -/

/-- **A list in which names can be written**: an escaped name is read as the name, whatever variables hold,
    nothing of it acts on its own, and no other name has the same text. -/
structure ReadsNames (context : Context) (special : Char → Bool) : Prop where
  reads : ∀ value name, readWord special value (escape context name) = name
  guarded : ∀ name, IsGuarded special (escape context name).toList
  paired : ∀ name, DollarsPaired (escape context name).toList
  injective : Function.Injective (escape context)

/-- A context that guards its special characters, other than dollars and backslashes, reads names. -/
theorem ReadsNames.of_guardSpecials {context : Context} {special : Char → Bool}
    (hescape : ∀ cs, escapeChars context cs = guardSpecials special (doubleDollars cs))
    (hdollar : special '$' = false) (hback : special '\\' = false) : ReadsNames context special := by
  have hchars : ∀ name, (escape context name).toList =
      doubleDollars (guardSpecials special name.toList) := by
    intro name
    rw [escape, String.toList_ofList, hescape, guardSpecials_doubleDollars hdollar]
  have hreads : ∀ value name, readWord special value (escape context name) = name := by
    intro value name
    rw [readWord, readName, hchars, expand_doubleDollars,
      unguard_guardSpecials_nil (fun _ h => h) (fun _ _ h => h), String.ofList_toList]
  refine ⟨hreads, fun name => ?_, fun name => ?_, fun name other heq => ?_⟩
  · rw [escape, String.toList_ofList, hescape]
    exact isGuarded_guardSpecials hback (doubleDollars name.toList)
  · rw [hchars]
    exact dollarsPaired_doubleDollars _
  · rw [← hreads (fun _ => []) name, heq, hreads]

/-- **Names survive being escaped**, as targets and as prerequisites. A target and a prerequisite are read as
    the same name exactly if they were, and a phony rule marks the name that it makes. -/
theorem readsNames_escape :
    ReadsNames .target Context.specialInTargets ∧
      ReadsNames .dependency Context.specialInPrerequisites ∧
      (∀ value name other,
        readWord Context.specialInTargets value (escape .target name) =
          readWord Context.specialInPrerequisites value (escape .dependency other) ↔ name = other) ∧
      ∀ (rule : Rule) value name, ∃ word,
        ({ rule with targets := [.plain name], phony := true } : Rule).renderPhony =
          ".PHONY: " ++ word ++ "\n" ∧
        readWord Context.specialInPrerequisites value word = name := by
  have htarget : ReadsNames .target Context.specialInTargets :=
    .of_guardSpecials (fun _ => rfl) (by decide) (by decide)
  have hdependency : ReadsNames .dependency Context.specialInPrerequisites :=
    .of_guardSpecials (fun _ => rfl) (by decide) (by decide)
  refine ⟨htarget, hdependency, ?_, ?_⟩
  · intro value name other
    rw [htarget.reads, hdependency.reads]
  · intro rule value name
    refine ⟨escape .dependency name, ?_, hdependency.reads value name⟩
    simp [Rule.renderPhony, separated]

end MakeGraph.Make
