import MakeGraph.Proofs.Generate.Acceptance
import MakeGraph.Proofs.Generate.LinkCommand
import MakeGraph.Proofs.Shell.BareWords
import Mathlib.Data.List.Forall2

/-!
# `Proofs.Generate.TestCommand` — the commands that run tests

The command of a driver has one word for each test that the driver runs. The driver gives this word to a
shell again, which splits it into the words of the test, among them perhaps words for tests of its own,
and so on to the leaves. `Runs case text` says that a text does this for a test and for all that are
below it.

A test of several words is quoted as a whole for every driver above it. A test that is a program and
nothing else is not: its word is the name of the program, which the second shell splits again. So the
command of a test runs it as described exactly when every such name below it is a bare word
(`testCommand_runs`).

## Contents

* `TestCase.tree`, `Runs` — what it means to run a test
* `Stands`, `stands_asOneWord` — pieces that are one word
* `stands_testWords` — what the shell reads of one test
* `runs_commandLine_iff` — the induction over the tree
* `testCommand_runs` — the main result
-/

namespace MakeGraph

/-! ## Trees of tests -/

namespace TestCase

/-- The program of a test. -/
def program : TestCase → TestProgram
  | .test program | .driver program _ _ => program

/-- The tests that a test runs. -/
def subtests : TestCase → List TestCase
  | .test _ => []
  | .driver _ _ tests => tests

mutual

/-- A test and all that are below it. -/
def tree : TestCase → List TestCase
  | .test program => [.test program]
  | .driver program generated tests => .driver program generated tests :: trees tests

/-- Tests and all that are below them. -/
def trees : List TestCase → List TestCase
  | [] => []
  | case :: cases => tree case ++ trees cases

end

theorem trees_eq (cases : List TestCase) : trees cases = cases.flatMap tree := by
  induction cases with
  | nil => rfl
  | cons case cases ih => rw [trees, ih, List.flatMap_cons]

theorem tree_eq (case : TestCase) : case.tree = case :: case.subtests.flatMap tree := by
  cases case with
  | test program => rfl
  | driver program generated tests => rw [tree, trees_eq, subtests]

/-- A property of a whole tree. -/
theorem forall_mem_tree {P : TestCase → Prop} {case : TestCase} :
    (∀ t ∈ case.tree, P t) ↔ P case ∧ ∀ sub ∈ case.subtests, ∀ t ∈ sub.tree, P t := by
  rw [tree_eq, List.forall_mem_cons]
  exact and_congr_right fun _ => List.forall_mem_flatMap

mutual

/-- **Induction over the tests** that a test runs. -/
theorem induction {P : TestCase → Prop}
    (step : ∀ case, (∀ sub ∈ case.subtests, P sub) → P case) : ∀ case, P case
  | .test program => step (.test program) fun _ hsub => absurd hsub List.not_mem_nil
  | .driver program generated tests =>
      step (.driver program generated tests) (forall_mem_induction step tests)

theorem forall_mem_induction {P : TestCase → Prop}
    (step : ∀ case, (∀ sub ∈ case.subtests, P sub) → P case) :
    ∀ cases : List TestCase, ∀ sub ∈ cases, P sub
  | [] => fun _ hsub => absurd hsub List.not_mem_nil
  | case :: cases =>
      List.forall_mem_cons.mpr ⟨induction step case, forall_mem_induction step cases⟩

end

end TestCase

namespace Generate

open Make (Command Makefile Piece Recipe Rule toList_escape_shellWord)
open Shell (Reads isBareWord literalWords? newline_not_mem_quoteChars quoteChars)
open Outcome

/-! ## What it means to run a test -/

/-- The name under which the shell finds a program: one in the build directory itself is not searched
    for. -/
def programName (target : RootedPath) : String :=
  if target.root = .build && !target.path.text.toList.contains '/' then "./" ++ wordOfPath target
  else wordOfPath target

/-- **The words that run a program**: its variables, its name, its options. -/
def programWords (program : TestProgram) : List String :=
  (program.env.map fun entry => entry.1 ++ "=" ++ entry.2) ++
    ([programName program.target] ++ program.options)

/-- **A text runs a test** if the shell reads it as the words of its program and one word for each test
    below it, and each of these words runs that test. -/
inductive Runs : TestCase → String → Prop
  | intro {case : TestCase} {text : String} {args : List String}
      (hwords : literalWords? text = some (programWords case.program ++ args))
      (hargs : List.Forall₂ Runs case.subtests args) : Runs case text

/-- Whether a test is a program and nothing else. -/
def isOneWord (case : TestCase) : Bool :=
  case.program.env.isEmpty && case.program.options.isEmpty && case.subtests.isEmpty

/-- Every test below a test that is a program and nothing else has a name that needs no quotes. -/
def ArgumentsBare (case : TestCase) : Prop :=
  ∀ t ∈ case.tree, ∀ sub ∈ t.subtests, isOneWord sub = true →
    isBareWord (programName sub.program.target) = true

/-- The texts of a program. -/
def programTexts (program : TestProgram) : List String :=
  (program.env.flatMap fun entry => [entry.1, entry.2]) ++
    ([program.target.path.text] ++ program.options)

/-- A program in the build directory that is run by one line. -/
structure IsLocal (program : TestProgram) : Prop where
  root : program.target.root = .build
  line : ∀ text ∈ programTexts program, '\n' ∉ text.toList

instance (program : TestProgram) : Decidable (IsLocal program) :=
  decidable_of_iff (program.target.root = .build ∧ ∀ text ∈ programTexts program, '\n' ∉ text.toList)
    ⟨fun h => ⟨h.1, h.2⟩, fun h => ⟨h.root, h.line⟩⟩

/-! ## One word -/

/-- **A piece stands for a word**: once make has read its dollars, the shell reads it as this word, in
    one line. -/
def Stands (piece : Piece) (word : String) : Prop :=
  ∃ text, (piece.render .shellWord).toList = Make.doubleDollars text ∧ Reads text [word] ∧
    '\n' ∉ text

/-- The text of words for the shell, once make has read their dollars. -/
def commandLine (words : List Piece) : String :=
  String.ofList (Make.expand (fun _ => []) (Command.words words).render.toList)

section Stands

theorem stands_plain {text : String} (h : '\n' ∉ text.toList) : Stands (.plain text) text := by
  refine ⟨quoteChars text.toList, ?_, Shell.reads_quoteChars_toList text,
    newline_not_mem_quoteChars h⟩
  rw [Piece.render_plain, toList_escape_shellWord]

/-- The assignment of a variable is one word, in which the name and the value are quoted. -/
theorem stands_assignment {name value : String} (hname : '\n' ∉ name.toList)
    (hvalue : '\n' ∉ value.toList) :
    Stands (.join [.plain name, .verbatim "=", .plain value]) (name ++ "=" ++ value) := by
  refine ⟨quoteChars name.toList ++ ("=".toList ++ quoteChars value.toList), ?_, ?_, ?_⟩
  · have hrender : (Piece.join [.plain name, .verbatim "=", .plain value]).render .shellWord =
        Make.escape .shellWord name ++ ("=" ++ Make.escape .shellWord value) := by
      simp [Piece.join, Piece.parts]
    rw [hrender, String.toList_append, String.toList_append, toList_escape_shellWord,
      toList_escape_shellWord, Make.doubleDollars_append, Make.doubleDollars_append]
    rfl
  · have hword : name ++ "=" ++ value =
        String.ofList (name.toList ++ ("=".toList ++ value.toList)) := by
      rw [← String.toList_append, ← String.toList_append, String.ofList_toList, String.append_assoc]
    rw [hword]
    exact Shell.reads_quoteChars_bare _ _ (by decide)
  · simp only [List.mem_append, not_or]
    exact ⟨newline_not_mem_quoteChars hname, by decide, newline_not_mem_quoteChars hvalue⟩

/-- A program in the build directory is one word, also with `./` before it. -/
theorem stands_programWord {target : RootedPath} (hroot : target.root = .build)
    (hline : '\n' ∉ target.path.text.toList) : Stands (programWord target) (programName target) := by
  have hvariable : target.root.variableName? = none := by
    rw [hroot]
    rfl
  have hword : '\n' ∉ (wordOfPath target).toList := by
    unfold wordOfPath
    split
    · decide
    · exact hline
  have hpath : ((Piece.path target).render .shellWord).toList =
      Make.doubleDollars (quoteChars (wordOfPath target).toList) := by
    rw [render_path_of_no_variable hvariable (by decide), toList_escape_shellWord]
  unfold programWord programName
  split
  · have hquoted : quoteChars "./".toList = "./".toList := by decide
    refine ⟨"./".toList ++ quoteChars (wordOfPath target).toList, ?_, ?_, ?_⟩
    · have hrender : (Piece.join [.verbatim "./", .path target]).render .shellWord =
          "./" ++ (Piece.path target).render .shellWord := by
        simp [Piece.join, Piece.parts]
      rw [hrender, String.toList_append, hpath, Make.doubleDollars_append]
      rfl
    · have hreads := Shell.reads_flatMap_quoteChars
        (List.cons_ne_nil "./".toList [(wordOfPath target).toList])
      rw [List.flatMap_cons, List.flatMap_singleton, hquoted] at hreads
      have hname : "./" ++ wordOfPath target =
          String.ofList ["./".toList, (wordOfPath target).toList].flatten := by
        rw [List.flatten_cons, List.flatten_singleton, ← String.toList_append, String.ofList_toList]
      rw [hname]
      exact hreads
    · rw [List.mem_append, not_or]
      exact ⟨by decide, newline_not_mem_quoteChars hword⟩
  · exact ⟨_, hpath, Shell.reads_quoteChars_toList _, newline_not_mem_quoteChars hword⟩

end Stands

/-! ## Several words -/

section Lines

variable {words : List Piece} {values : List String}

/-- Words behind others, each with a blank before it. -/
theorem flatMap_of_stands (h : List.Forall₂ Stands words values) :
    ∃ text, (words.flatMap fun word => ' ' :: (word.render .shellWord).toList) =
        Make.doubleDollars text ∧
      '\n' ∉ text ∧
      ∀ {lead before}, Reads lead before → Reads (lead ++ text) (before ++ values) := by
  induction h with
  | nil => exact ⟨[], rfl, List.not_mem_nil, fun h => by rwa [List.append_nil, List.append_nil]⟩
  | @cons word value words values hword _ ih =>
      obtain ⟨first, hfirst, hreads, hline⟩ := hword
      obtain ⟨rest, hrest, hrestline, hbehind⟩ := ih
      refine ⟨' ' :: (first ++ rest), ?_, ?_, fun {lead before} hlead => ?_⟩
      · rw [List.flatMap_cons, hfirst, hrest, Make.doubleDollars_cons (by decide),
          Make.doubleDollars_append]
        rfl
      · simp only [List.mem_cons, List.mem_append, not_or]
        exact ⟨by decide, hline, hrestline⟩
      · have hnext := hbehind (hlead.blank hreads)
        simpa using hnext

/-- **Words that stand for values** are read as these values, in one line. -/
theorem line_of_stands (h : List.Forall₂ Stands words values) :
    ∃ text, (Command.words words).render.toList = Make.doubleDollars text ∧ Reads text values ∧
      '\n' ∉ text := by
  cases h with
  | nil => exact ⟨[], rfl, Shell.reads_nil, List.not_mem_nil⟩
  | @cons word value words values hword hwords =>
      obtain ⟨first, hfirst, hreads, hline⟩ := hword
      obtain ⟨rest, hrest, hrestline, hbehind⟩ := flatMap_of_stands hwords
      refine ⟨first ++ rest, ?_, hbehind hreads, ?_⟩
      · rw [Command.render, Make.toList_separated_cons, hfirst, hrest, Make.doubleDollars_append]
        rfl
      · rw [List.mem_append, not_or]
        exact ⟨hline, hrestline⟩

/-- **The line of words**, whatever variables hold. -/
theorem expand_render_words (h : List.Forall₂ Stands words values) (value : String → List Char) :
    String.ofList (Make.expand value (Command.words words).render.toList) = commandLine words := by
  obtain ⟨text, htext, -⟩ := line_of_stands h
  rw [commandLine, htext, Make.expand_doubleDollars, Make.expand_doubleDollars]

theorem literalWords?_commandLine (h : List.Forall₂ Stands words values) :
    literalWords? (commandLine words) = some values := by
  obtain ⟨text, htext, hreads, -⟩ := line_of_stands h
  rw [commandLine, htext, Make.expand_doubleDollars]
  exact Shell.literalWords?_of_reads hreads

/-- **Several words as one** stand for the text of their line. -/
theorem stands_asOneWord (h : List.Forall₂ Stands words values) (hlength : words.length > 1) :
    Stands (asOneWord words) (commandLine words) := by
  obtain ⟨text, htext, -, hline⟩ := line_of_stands h
  refine ⟨quoteChars text, ?_, ?_, newline_not_mem_quoteChars hline⟩
  · unfold asOneWord
    rw [if_pos hlength, Piece.render_verbatim, Shell.quote, String.toList_ofList,
      ← Make.quoteChars_doubleDollars, ← htext]
    rfl
  · rw [commandLine, htext, Make.expand_doubleDollars]
    exact Shell.reads_quoteChars text

/-- A word by itself stands for what it stood for. -/
theorem stands_asOneWord_singleton {word : Piece} {value : String} (h : Stands word value) :
    Stands (asOneWord [word]) value := by
  obtain ⟨text, htext, hreads, hline⟩ := h
  refine ⟨text, ?_, hreads, hline⟩
  have hlength : ¬ [word].length > 1 := Nat.lt_irrefl 1
  unfold asOneWord
  rw [if_neg hlength, Piece.render_verbatim, Make.toList_separated_cons, htext]
  exact List.append_nil _

end Lines

/-! ## One test -/

section Case

variable {case : TestCase}

/-- The word that the shell reads for a test among the arguments of a driver. -/
def argumentWord (case : TestCase) : String :=
  if isOneWord case then programName case.program.target else commandLine (testWords case)

theorem testArguments_eq_map (cases : List TestCase) :
    testArguments cases = cases.map fun case => asOneWord (testWords case) := by
  induction cases with
  | nil => rfl
  | cons case cases ih => rw [testArguments, ih, List.map_cons]

/-- The words of a test: those of its program, and one for each test below it. -/
theorem testWords_eq (case : TestCase) :
    testWords case =
      invocation case.program ++ case.subtests.map fun sub => asOneWord (testWords sub) := by
  cases case with
  | test program =>
      rw [testWords]
      exact (List.append_nil _).symm
  | driver program generated tests =>
      rw [testWords, testArguments_eq_map]
      rfl

theorem stands_invocation {program : TestProgram} (h : IsLocal program) :
    List.Forall₂ Stands (invocation program) (programWords program) := by
  have hassignments : List.Forall₂ Stands
      (program.env.map fun entry => .join [.plain entry.1, .verbatim "=", .plain entry.2])
      (program.env.map fun entry => entry.1 ++ "=" ++ entry.2) := by
    rw [List.forall₂_map_left_iff, List.forall₂_map_right_iff, List.forall₂_same]
    intro entry hentry
    have hmem : ∀ text ∈ [entry.1, entry.2], text ∈ programTexts program := fun text htext =>
      List.mem_append_left _ (List.mem_flatMap.mpr ⟨entry, hentry, htext⟩)
    exact stands_assignment (h.line _ (hmem _ (by simp))) (h.line _ (hmem _ (by simp)))
  have hoptions : List.Forall₂ Stands (Piece.plainTexts program.options) program.options := by
    rw [Piece.plainTexts, List.forall₂_map_left_iff, List.forall₂_same]
    intro option hoption
    exact stands_plain (h.line option (by simp [programTexts, hoption]))
  have hprogram : Stands (programWord program.target) (programName program.target) :=
    stands_programWord h.root (h.line _ (by simp [programTexts]))
  unfold invocation programWords
  rw [List.append_assoc]
  exact List.rel_append hassignments (List.rel_append (.cons hprogram .nil) hoptions)

/-- A test that is a program and nothing else has one word, and any other has several. -/
theorem length_testWords (case : TestCase) : (testWords case).length > 1 ↔ isOneWord case = false := by
  have hlength : (testWords case).length = case.program.env.length + 1 +
      case.program.options.length + case.subtests.length := by
    rw [testWords_eq, invocation, Piece.plainTexts]
    simp only [List.length_append, List.length_map, List.length_singleton]
  rw [hlength, isOneWord, Bool.and_eq_false_iff, Bool.and_eq_false_iff]
  simp only [List.isEmpty_eq_false_iff, ← List.length_pos_iff]
  omega

/-- A test that is a program and nothing else stands for the name of the program. -/
theorem testWords_of_isOneWord (h : isOneWord case = true) :
    testWords case = [programWord case.program.target] ∧
      programWords case.program = [programName case.program.target] ∧ case.subtests = [] := by
  simp only [isOneWord, Bool.and_eq_true, List.isEmpty_iff] at h
  obtain ⟨⟨henv, hoptions⟩, hsubtests⟩ := h
  refine ⟨?_, ?_, hsubtests⟩
  · rw [testWords_eq, invocation, henv, hoptions, hsubtests]
    rfl
  · rw [programWords, henv, hoptions]
    rfl

/-- **What the shell reads of one test**: the words of its program, and one word for each test below
    it. -/
theorem stands_testWords (hlocal : ∀ t ∈ case.tree, IsLocal t.program) :
    List.Forall₂ Stands (testWords case)
      (programWords case.program ++ case.subtests.map argumentWord) := by
  induction case using TestCase.induction with
  | step case ih =>
      obtain ⟨hprogram, hsubtests⟩ := TestCase.forall_mem_tree.mp hlocal
      rw [testWords_eq]
      refine List.rel_append (stands_invocation hprogram) ?_
      rw [List.forall₂_map_left_iff, List.forall₂_map_right_iff, List.forall₂_same]
      intro sub hsub
      have hlocal := hsubtests sub hsub
      unfold argumentWord
      cases hone : isOneWord sub with
      | true =>
          obtain ⟨hsub, -⟩ := TestCase.forall_mem_tree.mp hlocal
          rw [(testWords_of_isOneWord hone).1, if_pos rfl]
          exact stands_asOneWord_singleton
            (stands_programWord hsub.root (hsub.line _ (by simp [programTexts])))
      | false =>
          rw [if_neg (by decide)]
          exact stands_asOneWord (ih sub hsub hlocal) ((length_testWords sub).mpr hone)

end Case

/-! ## The tree -/

/-- **The command of a test** runs the test exactly when the words of all tests directly below it run
    these. -/
theorem runs_commandLine {case : TestCase} (hlocal : ∀ t ∈ case.tree, IsLocal t.program) :
    Runs case (commandLine (testWords case)) ↔
      ∀ sub ∈ case.subtests, Runs sub (argumentWord sub) := by
  have hread := literalWords?_commandLine (stands_testWords hlocal)
  have hall : List.Forall₂ Runs case.subtests (case.subtests.map argumentWord) ↔
      ∀ sub ∈ case.subtests, Runs sub (argumentWord sub) := by
    rw [List.forall₂_map_right_iff, List.forall₂_same]
  rw [← hall]
  constructor
  · -- the line has one reading, so the words of the tests are known
    rintro ⟨hwords, hargs⟩
    rw [hread, Option.some.injEq] at hwords
    rw [List.append_cancel_left hwords]
    exact hargs
  · exact fun hargs => ⟨hread, hargs⟩

/-- A program and nothing else is run by its name exactly when the name is a bare word. -/
theorem runs_programName {case : TestCase} (h : isOneWord case = true) :
    Runs case (programName case.program.target) ↔
      isBareWord (programName case.program.target) = true := by
  obtain ⟨-, hwords, hsubtests⟩ := testWords_of_isOneWord h
  rw [← Shell.literalWords?_iff_isBareWord]
  constructor
  · rintro ⟨hread, hargs⟩
    rw [hsubtests, List.forall₂_nil_left_iff] at hargs
    rw [hread, hargs, hwords, List.append_nil]
  · intro hread
    refine ⟨(hread.trans ?_ : _ = some (programWords case.program ++ [])), ?_⟩
    · rw [hwords, List.append_nil]
    · rw [hsubtests]
      exact .nil

/-- The word of a test among the arguments of a driver. -/
theorem runs_argumentWord_iff {case : TestCase}
    (hcommand : Runs case (commandLine (testWords case)) ↔ ArgumentsBare case) :
    Runs case (argumentWord case) ↔
      (isOneWord case = true → isBareWord (programName case.program.target) = true) ∧
        ArgumentsBare case := by
  unfold argumentWord
  cases hone : isOneWord case with
  | true =>
      have hbelow : ArgumentsBare case := by
        obtain ⟨-, -, hsubtests⟩ := testWords_of_isOneWord hone
        rw [ArgumentsBare, TestCase.forall_mem_tree, hsubtests]
        exact ⟨fun sub hsub => absurd hsub List.not_mem_nil,
          fun sub hsub => absurd hsub List.not_mem_nil⟩
      rw [if_pos rfl, runs_programName hone]
      exact ⟨fun h => ⟨fun _ => h, hbelow⟩, fun h => h.1 rfl⟩
  | false =>
      rw [if_neg (by decide), hcommand]
      exact ⟨fun h => ⟨fun htrue => absurd htrue (by decide), h⟩, fun h => h.2⟩

/-- **The commands of a whole tree.** The induction is over the tests that a test runs: the word of one
    with several words is its command, and that of any other one is its name. -/
theorem runs_commandLine_iff {case : TestCase} (hlocal : ∀ t ∈ case.tree, IsLocal t.program) :
    Runs case (commandLine (testWords case)) ↔ ArgumentsBare case := by
  induction case using TestCase.induction with
  | step case ih =>
      obtain ⟨-, hsubtests⟩ := TestCase.forall_mem_tree.mp hlocal
      have hdirect : ∀ sub ∈ case.subtests, (Runs sub (argumentWord sub) ↔
          (isOneWord sub = true → isBareWord (programName sub.program.target) = true) ∧
            ArgumentsBare sub) := fun sub hsub =>
        runs_argumentWord_iff (ih sub hsub (hsubtests sub hsub))
      rw [runs_commandLine hlocal, ArgumentsBare, TestCase.forall_mem_tree, ← forall₂_and]
      exact forall₂_congr hdirect

/-! ## The main result -/

/-- The rule that runs the tests is in every model with tests. -/
theorem testRule_mem {env : Environment} {graph : BuildGraph} {c : Contribution}
    (hcases : graph.tests.cases ≠ []) (h : modelContribution env graph = .ok c) :
    testRule graph.tests ∈ c.rules := by
  simp only [modelContribution, bind_eq_ok_iff, pure_eq_ok_iff] at h
  obtain ⟨edges, -, rfl⟩ := h
  have htests : testRule graph.tests ∈ testRules graph.tests := by
    unfold testRules
    rw [if_neg (by simp [Tests.isEmpty, hcases])]
    exact List.mem_append_right _ (List.mem_singleton.mpr rfl)
  have hhead : testRule graph.tests ∈ (headContribution graph).rules :=
    List.mem_append_right _ (List.mem_append_right _ htests)
  exact List.mem_append_right _ (List.mem_append_left _ hhead)

/-- **The commands of all tests.** In every Makefile that is generated, the recipe of `test` has one
    line for each test. Make and the shell read it as the words of the test, and every word that stands
    for a test below it is read as the words of this one, and so on to the leaves, if and only if every
    test that is a program and nothing else, among the arguments of a driver, has a name that needs no
    quotes. -/
theorem testCommand_runs {env : Environment} {graph : BuildGraph} {products : Products}
    (hproducts : generate env graph = .ok products) (hcases : graph.tests.cases ≠ [])
    (hlocal : ∀ case ∈ graph.tests.cases, ∀ t ∈ case.tree, IsLocal t.program)
    (value : String → List Char) :
    ∃ m rule commands,
      modelWith usualHandlers env graph = .ok m ∧ products.makefile = m.render ∧
      rule ∈ m.rules ∧ rule.targets = [.plain runTestsName] ∧
      rule.recipe = some (.inline commands) ∧
      List.Forall₂ (fun case command =>
        '\n' ∉ command.render.toList ∧
        (Runs case (String.ofList (Make.expand value command.render.toList)) ↔
          ArgumentsBare case)) graph.tests.cases commands := by
  obtain ⟨m, hm, rfl⟩ := generate_eq_ok_iff.mp hproducts
  obtain ⟨c, hc, -, rfl⟩ := modelWith_eq_ok_iff.mp hm
  refine ⟨_, testRule graph.tests, _, hm, rfl, List.mem_append_right _ (testRule_mem hcases hc), rfl,
    rfl, ?_⟩
  rw [List.forall₂_map_right_iff, List.forall₂_same]
  intro case hcase
  have hstands := stands_testWords (hlocal case hcase)
  obtain ⟨text, htext, -, hline⟩ := line_of_stands hstands
  refine ⟨?_, ?_⟩
  · rw [htext, Make.mem_doubleDollars]
    exact hline
  · rw [expand_render_words hstands]
    exact runs_commandLine_iff (hlocal case hcase)

/-- A driver that runs a test with options, a driver and a program. -/
def nestedDriver : TestCase :=
  .driver { target := .build "driver", options := ["$HOME"], env := [("MODE", "a b")] } false [
    .test { target := .build "sub/t1", options := ["-q", "it's"] },
    .driver { target := .build "inner dir/t2", options := ["x y"] } true
      [.test { target := .build "t3" }],
    .test { target := .build "t4" }]

/-- A driver that runs a program with a blank in its name. -/
def blankDriver : TestCase :=
  .driver { target := .build "driver" } false [.test { target := .build "my test" }]

/-- The description of one test. -/
def testGraph (case : TestCase) : BuildGraph :=
  { (default : BuildGraph) with tests := { cases := [case] } }

/-- Quotes are nested as deeply as the tests. -/
theorem runs_nestedDriver :
    ∃ (products : Products) (m : Makefile) (rule : Rule) (command : Command),
      generate default (testGraph nestedDriver) = .ok products ∧ products.makefile = m.render ∧
      rule ∈ m.rules ∧ rule.targets = [.plain "test"] ∧ rule.recipe = some (.inline [command]) ∧
      Runs nestedDriver (String.ofList (Make.expand (fun _ => []) command.render.toList)) := by
  have haccepted : Accepted default (testGraph nestedDriver) :=
    ⟨fun edge hedge => absurd hedge List.not_mem_nil, by decide +kernel⟩
  obtain ⟨products, hproducts⟩ := haccepted.generate_succeeds
  have hlocal : ∀ case ∈ (testGraph nestedDriver).tests.cases, ∀ t ∈ case.tree, IsLocal t.program := by
    decide
  have hbare : ArgumentsBare nestedDriver := by
    unfold ArgumentsBare
    decide
  obtain ⟨m, rule, commands, -, hrender, hrule, htargets, hrecipe, hcommands⟩ :=
    testCommand_runs hproducts (List.cons_ne_nil _ _) hlocal fun _ => []
  obtain ⟨command, more, ⟨-, hruns⟩, hmore, rfl⟩ := List.forall₂_cons_left_iff.mp hcommands
  obtain rfl := List.forall₂_nil_left_iff.mp hmore
  exact ⟨products, m, rule, command, hproducts, hrender, hrule, htargets, hrecipe, hruns.mpr hbare⟩

/-- **A program and nothing else is not quoted for its driver**, so the shell that the driver starts
    makes two words of a name with a blank. -/
theorem not_runs_blankDriver :
    ∃ (products : Products) (m : Makefile) (rule : Rule) (command : Command),
      generate default (testGraph blankDriver) = .ok products ∧ products.makefile = m.render ∧
      rule ∈ m.rules ∧ rule.targets = [.plain "test"] ∧ rule.recipe = some (.inline [command]) ∧
      Shell.words? (String.ofList (Make.expand (fun _ => []) command.render.toList)) =
        some ["./driver", "./my test"] ∧
      Shell.words? "./my test" = some ["./my", "test"] ∧
      ¬ Runs blankDriver (String.ofList (Make.expand (fun _ => []) command.render.toList)) := by
  have haccepted : Accepted default (testGraph blankDriver) :=
    ⟨fun edge hedge => absurd hedge List.not_mem_nil, by decide +kernel⟩
  obtain ⟨products, hproducts⟩ := haccepted.generate_succeeds
  obtain ⟨m, hm, rfl⟩ := generate_eq_ok_iff.mp hproducts
  obtain ⟨c, hc, -, rfl⟩ := modelWith_eq_ok_iff.mp hm
  have hlocal : ∀ t ∈ blankDriver.tree, IsLocal t.program := by decide
  have hbare : ¬ ArgumentsBare blankDriver := by
    unfold ArgumentsBare
    decide
  refine ⟨_, _, testRule (testGraph blankDriver).tests, .words (testWords blankDriver), hproducts, rfl,
    List.mem_append_right _ (testRule_mem (List.cons_ne_nil _ _) hc), rfl, rfl, ?_, by decide, ?_⟩
  · decide +kernel
  · rw [expand_render_words (stands_testWords hlocal), runs_commandLine_iff hlocal]
    exact hbare

end Generate

end MakeGraph
