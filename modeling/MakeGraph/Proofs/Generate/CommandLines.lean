import MakeGraph.Proofs.Generate.EdgeRules
import MakeGraph.Proofs.Make.AssignedWords
import MakeGraph.Proofs.Text.Split

/-!
# `Proofs.Generate.CommandLines` — the commands of a description in its recipe

A command edge has a recipe with the commands of the description, of any text. Make takes a recipe
apart into its physical lines. It runs those that begin with a tab, without the characters at their
beginning that tell it how (`@`, `-` and `+`), and with their references expanded.

What is written for a list of words is read as `withoutDashes` of it, whatever the words are: the shell
takes a dash for a plain character, so it is not quoted, and make takes the dashes before the first word
away. And a line break stays one, whether it is in a line that is written as it is or between quotes
that make does not know of. A recipe runs its commands exactly where neither happens
(`rendersCommands_iff`).

## Contents

* `physicalLines` — the lines of a text
* `readRecipe?` — the reader
* `withoutDashes`, `readRecipe?_words` — what is read of a list of words
* `RendersCommands`, `FitsRecipe`, `rendersCommands_iff` — the main result
-/

namespace MakeGraph

/-- The texts of a command. -/
def CommandLine.texts : CommandLine → List String
  | line text => [text]
  | words texts => texts

namespace Generate

open Make (Command Makefile Piece Rule quotedWords)
open Shell (quoteChars quoteFrom words?)
open Outcome

/-! ## Physical lines -/

/-- **The physical lines of a text**: what is before, between and behind its line breaks. -/
def physicalLines (text : List Char) : List (List Char) :=
  text.splitOn '\n'

/-- A line break ends a line, whatever stands on both sides of it. -/
theorem physicalLines_append (before after : List Char) :
    physicalLines (before ++ '\n' :: after) = physicalLines before ++ physicalLines after :=
  List.splitOn_append_cons_self before after

/-- A text without line breaks is one line. -/
theorem physicalLines_of_not_mem {text : List Char} (h : '\n' ∉ text) :
    physicalLines text = [text] :=
  List.splitOn_eq_singleton h

/-- No line holds a line break. -/
theorem newline_not_mem_of_mem {text line : List Char} (h : line ∈ physicalLines text) :
    '\n' ∉ line :=
  Text.separator_not_mem_of_mem_splitOn h

/-- Texts without line breaks, behind one each, are the lines that follow. -/
theorem physicalLines_flatMap {texts : List (List Char)} (h : ∀ text ∈ texts, '\n' ∉ text)
    (before : List Char) :
    physicalLines (before ++ texts.flatMap fun text => '\n' :: text) =
      physicalLines before ++ texts := by
  induction texts generalizing before with
  | nil => simp
  | cons text texts ih =>
      obtain ⟨htext, htexts⟩ := List.forall_mem_cons.mp h
      rw [List.flatMap_cons, ← List.append_assoc, ih htexts, physicalLines_append,
        physicalLines_of_not_mem htext, List.append_assoc]
      rfl

/-- **Each text is one line** between others exactly if none of them holds a line break. -/
theorem physicalLines_flatMap_iff {before after : List Char} {texts : List (List Char)} :
    physicalLines ((before ++ texts.flatMap fun text => '\n' :: text) ++ '\n' :: after) =
        physicalLines before ++ texts ++ physicalLines after ↔
      ∀ text ∈ texts, '\n' ∉ text := by
  constructor
  · intro h text htext
    have hline : text ∈ physicalLines before ++ texts ++ physicalLines after :=
      List.mem_append_left _ (List.mem_append_right _ htext)
    rw [← h] at hline
    exact newline_not_mem_of_mem hline
  · intro h
    rw [physicalLines_append, physicalLines_flatMap h]

/-! ## The reader -/

/-- A character at the beginning of a recipe's line that tells make how to run it. -/
def isRecipePrefix (c : Char) : Bool :=
  c == '@' || c == '-' || c == '+'

/-- What make passes over at the beginning of a line, behind its tab. -/
def isPassedOver (c : Char) : Bool :=
  isRecipePrefix c || Make.isSeparator c

/-- **The words that a line of a recipe runs**: make passes over its beginning and expands the rest,
    which the shell splits. -/
def readRecipe? (value : String → List Char) : List Char → Option (List String)
  | '\t' :: text => words? (String.ofList (Make.expand value (text.dropWhile isPassedOver)))
  | _ => none

example : readRecipe? (fun _ => []) "\t@-echo '$$HOME/a b'".toList = some ["echo", "$HOME/a b"] := by
  decide

/-! ## Lists of words -/

/-- **What make leaves of a list of words**: the dashes before the first word are gone, with all of
    the word if it is made of dashes, and then those before the next one. -/
def withoutDashes : List String → List String
  | [] => []
  | word :: words =>
      let rest := String.ofList (word.toList.dropWhile (· = '-'))
      if word = "" then word :: words
      else if rest = "" then withoutDashes words
      else rest :: words

/-- Of the characters that are not quoted, make passes over dashes only. -/
theorem isPassedOver_of_isCopied {c : Char} (hcopied : Shell.isCopied c = true) (hdash : c ≠ '-') :
    isPassedOver c = false := by
  refine Bool.eq_false_iff.mpr fun h => ?_
  simp only [isPassedOver, isRecipePrefix, Make.isSeparator, Bool.or_eq_true, beq_iff_eq] at h
  rcases h with ((rfl | rfl) | rfl) | rfl | rfl
  · exact absurd hcopied (by decide)
  · exact hdash rfl
  · exact absurd hcopied (by decide)
  · exact absurd hcopied (by decide)
  · exact absurd hcopied (by decide)

/-- A text that does not begin with a dash is quoted so that make passes over none of it. -/
theorem quoteFrom_not_passed {c : Char} (hdash : c ≠ '-') (cs : List Char) :
    ∃ d ds, quoteFrom false (c :: cs) = d :: ds ∧ isPassedOver d = false := by
  rw [quoteFrom]
  by_cases hcopied : Shell.isCopied c = true
  · rw [if_pos hcopied]
    exact ⟨c, _, rfl, isPassedOver_of_isCopied hcopied hdash⟩
  · rw [if_neg hcopied]
    split
    · exact ⟨'\\', _, rfl, by decide⟩
    · exact ⟨'\'', _, rfl, by decide⟩

/-- **What make passes over of a quoted text**: the dashes that it begins with, and then what follows
    the text if there is no more of it. -/
theorem dropWhile_quoteFrom (cs rest : List Char) :
    (quoteFrom false cs ++ rest).dropWhile isPassedOver =
      if cs.dropWhile (· = '-') = [] then rest.dropWhile isPassedOver
      else quoteFrom false (cs.dropWhile (· = '-')) ++ rest := by
  induction cs with
  | nil => rfl
  | cons c cs ih =>
      by_cases hdash : c = '-'
      · have hquote : quoteFrom false (c :: cs) = '-' :: quoteFrom false cs := by
          rw [quoteFrom, if_pos (by rw [hdash]; decide), hdash]
        rw [hquote, List.cons_append, List.dropWhile_cons_of_pos (by decide), ih, hdash,
          List.dropWhile_cons_of_pos (by decide)]
      · have hkept : (c :: cs).dropWhile (· = '-') = c :: cs :=
          List.dropWhile_cons_of_neg (by simpa using hdash)
        obtain ⟨d, ds, hquote, hd⟩ := quoteFrom_not_passed hdash cs
        rw [hkept, if_neg (List.cons_ne_nil c cs), hquote, List.cons_append,
          List.dropWhile_cons_of_neg (by simp [hd])]

/-- Quoted words behind the first one, with a blank before each. -/
def quotedTail (words : List String) : List Char :=
  (words.map fun word => quoteChars word.toList).flatMap fun text => ' ' :: text

theorem quotedWords_cons (word : String) (words : List String) :
    quotedWords (word :: words) = quoteChars word.toList ++ quotedTail words :=
  Make.intercalate_cons _ _

theorem dropWhile_quotedTail (words : List String) :
    (quotedTail words).dropWhile isPassedOver = (quotedWords words).dropWhile isPassedOver := by
  cases words with
  | nil => rfl
  | cons word words =>
      have htail : quotedTail (word :: words) = ' ' :: quotedWords (word :: words) :=
        (Make.cons_intercalate (List.cons_ne_nil _ _)).symm
      rw [htail, List.dropWhile_cons_of_pos (by decide)]

/-- **What make passes over in front of quoted words** are the dashes of the first ones. -/
theorem dropWhile_quotedWords (words : List String) :
    (quotedWords words).dropWhile isPassedOver = quotedWords (withoutDashes words) := by
  induction words with
  | nil => rfl
  | cons word words ih =>
      rw [withoutDashes]
      by_cases hempty : word = ""
      · -- the empty word is a pair of quotes
        rw [if_pos hempty, quotedWords_cons, hempty]
        exact List.dropWhile_cons_of_neg (by decide)
      · have hword : word.toList ≠ [] := fun h => hempty (String.toList_eq_nil_iff.mp h)
        rw [if_neg hempty, quotedWords_cons, Shell.quoteChars_of_ne_nil hword, dropWhile_quoteFrom]
        by_cases hrest : word.toList.dropWhile (· = '-') = []
        · rw [if_pos hrest, if_pos (by rw [hrest]), dropWhile_quotedTail, ih]
        · have hkept : String.ofList (word.toList.dropWhile (· = '-')) ≠ "" := by
            intro h
            exact hrest (by simpa using congrArg String.toList h)
          rw [if_neg hrest, if_neg hkept, quotedWords_cons, String.toList_ofList,
            Shell.quoteChars_of_ne_nil hrest]

/-- **Nothing is lost of a list of words** exactly if its first word does not begin with a dash. -/
theorem withoutDashes_eq_self_iff {words : List String} :
    withoutDashes words = words ↔ ∀ word ∈ words.head?, word.toList.head? ≠ some '-' := by
  cases words with
  | nil => simp [withoutDashes]
  | cons word words =>
      simp only [List.head?_cons, Option.mem_some_iff, forall_eq']
      constructor
      · intro h hdash
        -- the dash stands at the beginning of the text, where make passes over it
        obtain ⟨cs, hcs⟩ : ∃ cs, word.toList = '-' :: cs := List.head?_eq_some_iff.mp hdash
        have htext : quotedWords (word :: words) = '-' :: (quoteFrom false cs ++ quotedTail words) := by
          rw [quotedWords_cons, hcs, Shell.quoteChars_of_ne_nil (List.cons_ne_nil _ _), quoteFrom,
            if_pos (by decide), List.cons_append]
        have hdrop := dropWhile_quotedWords (word :: words)
        rw [h, htext, List.dropWhile_cons_of_pos (by decide)] at hdrop
        have hshorter := (List.dropWhile_sublist isPassedOver
          (l := quoteFrom false cs ++ quotedTail words)).length_le
        rw [hdrop, List.length_cons] at hshorter
        omega
      · intro hdash
        have hkept : word.toList.dropWhile (· = '-') = word.toList := by
          cases hword : word.toList with
          | nil => rfl
          | cons c cs =>
              refine List.dropWhile_cons_of_neg fun hc => ?_
              rw [hword, List.head?_cons, of_decide_eq_true hc] at hdash
              exact hdash rfl
        rw [withoutDashes, hkept, String.ofList_toList]
        by_cases hempty : word = ""
        · rw [if_pos hempty]
        · rw [if_neg hempty, if_neg hempty]

/-- The line of a command in a recipe. -/
def recipeLine (command : CommandLine) : List Char :=
  '\t' :: (commandOf command).render.toList

/-- **What is read of a list of words.** -/
theorem readRecipe?_words (value : String → List Char) (words : List String) :
    readRecipe? value (recipeLine (.words words)) = some (withoutDashes words) := by
  have htext : (commandOf (.words words)).render.toList =
      Make.doubleDollars (quotedWords words) := Make.toList_render_plainTexts words
  show words? (String.ofList (Make.expand value
    ((commandOf (.words words)).render.toList.dropWhile isPassedOver))) = _
  rw [htext, Make.dropWhile_doubleDollars (by decide), dropWhile_quotedWords,
    Make.expand_doubleDollars]
  exact Shell.words?_of_splits (Shell.splits_quotedWords (withoutDashes words))

/-! ## The main result -/

/-- **Commands as they should stand in a recipe**: each is one line behind a tab, in their order, with
    an empty line behind the last one, and make and the shell read every list of words as these words.
    -/
structure RendersCommands (value : String → List Char) (edge : CommandEdge) : Prop where
  lines : physicalLines (commandRule edge).render.toList =
    physicalLines ((commandRule edge).renderPhony ++ (commandRule edge).renderHeader).toList ++
      edge.commands.map recipeLine ++ [[], []]
  reads : ∀ words, .words words ∈ edge.commands → words ≠ [] →
    readRecipe? value (recipeLine (.words words)) = some words

/-- **A command that a recipe can hold**: all of it is in one line, and no list of words begins with a
    dash. -/
structure FitsRecipe (command : CommandLine) : Prop where
  one_line : ∀ text ∈ command.texts, '\n' ∉ text.toList
  no_dash : ∀ words, command = .words words → ∀ word ∈ words.head?, word.toList.head? ≠ some '-'

/-- Quoting and joining leave out nothing. -/
theorem mem_quotedWords_of_mem {words : List String} {word : String} (hword : word ∈ words)
    {c : Char} (hc : c ∈ word.toList) : c ∈ quotedWords words := by
  have hquoted := Shell.subset_quoteChars word.toList hc
  cases words with
  | nil => exact absurd hword List.not_mem_nil
  | cons first words =>
      rw [quotedWords_cons]
      rcases List.mem_cons.mp hword with rfl | hrest
      · exact List.mem_append_left _ hquoted
      · refine List.mem_append_right _ (List.mem_flatMap.mpr ⟨quoteChars word.toList, ?_, ?_⟩)
        · exact List.mem_map.mpr ⟨word, hrest, rfl⟩
        · exact List.mem_cons_of_mem _ hquoted

/-- **A line break is written as it is**, in a line and between the quotes of a word. -/
theorem newline_mem_recipeLine_iff {command : CommandLine} :
    '\n' ∈ recipeLine command ↔ ∃ text ∈ command.texts, '\n' ∈ text.toList := by
  unfold recipeLine
  rw [List.mem_cons, or_iff_right (by decide)]
  cases command with
  | line text =>
      have htext : (commandOf (.line text)).render.toList = Make.doubleDollars text.toList := by
        simp [commandOf, Command.render, Make.escape, Make.escapeChars]
      rw [htext, Make.mem_doubleDollars]
      simp [CommandLine.texts]
  | words texts =>
      have htext : (commandOf (.words texts)).render.toList =
          Make.doubleDollars (quotedWords texts) := Make.toList_render_plainTexts texts
      rw [htext, Make.mem_doubleDollars]
      constructor
      · intro hmem
        by_contra hnone
        have hfree : ∀ text ∈ texts, '\n' ∉ text.toList := fun text htext hnewline =>
          hnone ⟨text, htext, hnewline⟩
        exact Make.not_mem_quotedWords (by decide) (by decide) (by decide) hfree hmem
      · rintro ⟨text, htext, hnewline⟩
        exact mem_quotedWords_of_mem htext hnewline

theorem toList_render_commandRule (edge : CommandEdge) :
    (commandRule edge).render.toList =
      (((commandRule edge).renderPhony ++ (commandRule edge).renderHeader).toList ++
        (edge.commands.map recipeLine).flatMap fun line => '\n' :: line) ++ '\n' :: ['\n'] := by
  have hvariables : (commandRule edge).renderVariables = "" := by
    simp [Rule.renderVariables, commandRule]
  have hrecipe : (commandRule edge).renderRecipe.toList =
      (edge.commands.map recipeLine).flatMap fun line => '\n' :: line := by
    simp [Rule.renderRecipe, commandRule, Make.Recipe.render, String.toList_join, List.flatMap_map,
      recipeLine]
  simp only [Rule.render, hvariables, String.toList_append, hrecipe]
  simp

/-- **Commands that a recipe can hold** are those that stand in it as they should. -/
theorem rendersCommands_iff (value : String → List Char) (edge : CommandEdge) :
    RendersCommands value edge ↔ ∀ command ∈ edge.commands, FitsRecipe command := by
  have hlines : physicalLines (commandRule edge).render.toList =
        physicalLines ((commandRule edge).renderPhony ++ (commandRule edge).renderHeader).toList ++
          edge.commands.map recipeLine ++ [[], []] ↔
      ∀ command ∈ edge.commands, ∀ text ∈ command.texts, '\n' ∉ text.toList := by
    rw [toList_render_commandRule]
    refine Iff.trans physicalLines_flatMap_iff ?_
    simp only [List.forall_mem_map, newline_mem_recipeLine_iff, not_exists, not_and]
  constructor
  · rintro ⟨hone, hreads⟩ command hcommand
    refine ⟨hlines.mp hone command hcommand, ?_⟩
    rintro words rfl
    cases words with
    | nil => simp
    | cons word words =>
        have hread := hreads (word :: words) hcommand (List.cons_ne_nil _ _)
        rw [readRecipe?_words, Option.some.injEq] at hread
        exact withoutDashes_eq_self_iff.mp hread
  · intro hfits
    refine ⟨hlines.mpr fun command hcommand => (hfits command hcommand).one_line, ?_⟩
    intro words hwords hne
    rw [readRecipe?_words, withoutDashes_eq_self_iff.mpr ((hfits _ hwords).no_dash words rfl)]

/-- The rule of a command edge stands in the Makefile, as a whole. -/
theorem exists_render_commandRule {env : Environment} {graph : BuildGraph} {products : Products}
    {edge : CommandEdge} (hproducts : generate env graph = .ok products)
    (hedge : .command edge ∈ graph.edges) :
    ∃ front back, products.makefile = front ++ (commandRule edge).render ++ back := by
  obtain ⟨m, hm, rfl⟩ := generate_eq_ok_iff.mp hproducts
  obtain ⟨c, hc, -, rfl⟩ := modelWith_eq_ok_iff.mp hm
  obtain ⟨own, before, after, hown, hrules⟩ := split_modelContribution hedge hc
  obtain rfl := Except.ok.inj hown
  have hall : (extend .empty c).rules = before ++ [commandRule edge] ++ after := hrules
  refine ⟨".SUFFIXES:\n\n" ++ (extend .empty c).renderGlobals ++ (extend .empty c).renderScopes ++
      (extend .empty c).renderDefines ++ String.join (before.map Rule.render),
    String.join (after.map Rule.render) ++
      String.join ((extend .empty c).includes.map Make.Include.render), ?_⟩
  show (extend .empty c).render = _
  unfold Makefile.render
  rw [hall]
  simp [String.join_append, String.append_assoc]

/-- **The commands of a description.** For every command edge, the recipe holds each command as one
    line, with an empty line behind the last one, and every list of words is run as these words, if
    and only if no command has a line break and no list of words begins with a dash. What any list is
    run as is known, and the rule stands as it is in every Makefile that is generated. -/
theorem commandLines_generate (value : String → List Char) (edge : CommandEdge) :
    (RendersCommands value edge ↔ ∀ command ∈ edge.commands, FitsRecipe command) ∧
      (∀ words, readRecipe? value (recipeLine (.words words)) = some (withoutDashes words)) ∧
      ∀ env graph products, generate env graph = .ok products → .command edge ∈ graph.edges →
        ∃ front back, products.makefile = front ++ (commandRule edge).render ++ back := by
  refine ⟨rendersCommands_iff value edge, readRecipe?_words value, ?_⟩
  intro env graph products hproducts hedge
  exact exists_render_commandRule hproducts hedge

/-- The description of one command edge. -/
def commandGraph (edge : CommandEdge) : BuildGraph :=
  { (default : BuildGraph) with edges := [.command edge] }

/-- Words of all kinds, and a line. -/
def quotedEdge : CommandEdge where
  target := .build "docs"
  commands := [.words ["@echo", "a b", "$HOME", "it's", "", "-n"], .line "echo $HOME > log"]

/-- Its commands are run as they were given. -/
theorem rendersCommands_quotedEdge :
    ∃ products front back, generate default (commandGraph quotedEdge) = .ok products ∧
      products.makefile = front ++ (commandRule quotedEdge).render ++ back ∧
      RendersCommands (fun _ => []) quotedEdge := by
  have haccepted : Accepted default (commandGraph quotedEdge) :=
    ⟨by simp [commandGraph, EdgeAccepted], by decide +kernel⟩
  obtain ⟨products, hproducts⟩ := haccepted.generate_succeeds
  obtain ⟨hiff, -, hstands⟩ := commandLines_generate (fun _ => []) quotedEdge
  obtain ⟨front, back, hmakefile⟩ :=
    hstands default (commandGraph quotedEdge) products hproducts List.mem_cons_self
  refine ⟨products, front, back, hproducts, hmakefile, hiff.mpr ?_⟩
  intro command hcommand
  simp only [quotedEdge, List.mem_cons, List.not_mem_nil, or_false] at hcommand
  rcases hcommand with rfl | rfl
  · refine ⟨by decide, fun words hwords => ?_⟩
    obtain rfl := CommandLine.words.inj hwords
    simp
  · exact ⟨by decide, fun words hwords => by cases hwords⟩

/-- A list of words that begins with an option. -/
def dashedEdge : CommandEdge where
  target := .build "t"
  commands := [.words ["-v", "x"]]

/-- A line with a line break. -/
def brokenEdge : CommandEdge where
  target := .build "t"
  commands := [.line "echo a\necho b"]

/-- **A dash at the beginning of a list is lost**, because make takes it for a prefix, and **a line
    break ends the line of its command**, so what follows is no part of the recipe. -/
theorem not_rendersCommands :
    (∃ products front back, generate default (commandGraph dashedEdge) = .ok products ∧
      products.makefile = front ++ ".PHONY: t\nt:\n\t-v x\n\n" ++ back ∧
      readRecipe? (fun _ => []) "\t-v x".toList = some ["v", "x"] ∧
      ¬RendersCommands (fun _ => []) dashedEdge) ∧
    ∃ products front back, generate default (commandGraph brokenEdge) = .ok products ∧
      products.makefile = front ++ ".PHONY: t\nt:\n\techo a\necho b\n\n" ++ back ∧
      ¬RendersCommands (fun _ => []) brokenEdge := by
  have hdashed : Accepted default (commandGraph dashedEdge) :=
    ⟨by simp [commandGraph, EdgeAccepted], by decide +kernel⟩
  have hbroken : Accepted default (commandGraph brokenEdge) :=
    ⟨by simp [commandGraph, EdgeAccepted], by decide +kernel⟩
  constructor
  · obtain ⟨products, hproducts⟩ := hdashed.generate_succeeds
    obtain ⟨front, back, hmakefile⟩ := exists_render_commandRule hproducts List.mem_cons_self
    have hrule : (commandRule dashedEdge).render = ".PHONY: t\nt:\n\t-v x\n\n" := by decide +kernel
    refine ⟨products, front, back, hproducts, hrule ▸ hmakefile, by decide, ?_⟩
    rw [rendersCommands_iff]
    intro hfits
    exact (hfits _ List.mem_cons_self).no_dash ["-v", "x"] rfl "-v" rfl rfl
  · obtain ⟨products, hproducts⟩ := hbroken.generate_succeeds
    obtain ⟨front, back, hmakefile⟩ := exists_render_commandRule hproducts List.mem_cons_self
    have hrule : (commandRule brokenEdge).render = ".PHONY: t\nt:\n\techo a\necho b\n\n" := by
      decide +kernel
    refine ⟨products, front, back, hproducts, hrule ▸ hmakefile, ?_⟩
    rw [rendersCommands_iff]
    intro hfits
    exact (hfits _ List.mem_cons_self).one_line "echo a\necho b" List.mem_cons_self (by decide)

end Generate

end MakeGraph
