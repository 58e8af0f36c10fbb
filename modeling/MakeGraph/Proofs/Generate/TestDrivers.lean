import MakeGraph.Proofs.Generate.TestCommand

/-!
# `Proofs.Generate.TestDrivers` — what must be made before the tests run

The rule `test` waits for the drivers that edges make, wherever in the trees of tests they stand. Which
these are is said without the recursion that collects them: a test has an address, which is its number
among the tests of each driver on the way to it, and `generatedAt? cases address` is the target of the
driver at an address, if an edge makes it. The addresses are ordered like words in a dictionary: a
driver comes before all that it runs, and all that one test runs comes before the next test.

`ListsDrivers cases entries` says that a table has each address with a generated driver once, in this
order. There is exactly one such table (`listsDrivers_generatedTables`, `ListsDrivers.unique`), and its
targets are what the generator collects (`targets_generatedTables`).

## Contents

* `TestCase.at?`, `generatedAt?`, `ListsDrivers` — the specification
* `generatedTable`, `listsDrivers_generatedTables` — the table of the drivers, by recursion
* `RunsTests`, `runsTests_testRule` — what the rule `test` holds
* `runsTests_generate` — the main result
-/

namespace MakeGraph

/-! ## Addresses -/

namespace TestCase

/-- **The test at an address** below a test: the number of a test among those that the test runs, then
    the address below that one. -/
def at? : TestCase → List Nat → Option TestCase
  | case, [] => some case
  | case, number :: address => case.subtests[number]?.bind fun sub => sub.at? address

/-- The target of a driver that an edge makes. -/
def generatedTarget? : TestCase → Option RootedPath
  | .test _ => none
  | .driver program generated _ => if generated then some program.target else none

end TestCase

namespace Generate

open Make (Command Makefile Piece Recipe Rule)
open Outcome

/-- **The target of the generated driver at an address** in a list of tests. The list itself has no
    driver. -/
def generatedAt? (cases : List TestCase) : List Nat → Option RootedPath
  | [] => none
  | number :: address =>
      cases[number]?.bind fun case => (case.at? address).bind TestCase.generatedTarget?

/-- **A table lists the generated drivers** of tests: all that there are and no others, each address
    once, a driver before those below it and a test before those behind it. -/
structure ListsDrivers (cases : List TestCase) (entries : Table (List Nat) RootedPath) : Prop where
  ordered : entries.keys.Pairwise (· < ·)
  complete : ∀ address target,
    (address, target) ∈ entries ↔ generatedAt? cases address = some target

/-- The drivers of tests have one table. -/
theorem ListsDrivers.unique {cases : List TestCase} {entries others : Table (List Nat) RootedPath}
    (h : ListsDrivers cases entries) (h' : ListsDrivers cases others) : entries = others := by
  have hnodup : ∀ {table : Table (List Nat) RootedPath}, ListsDrivers cases table → table.Nodup :=
    fun h => (List.pairwise_map.mp h.ordered).imp fun hlt heq => by
      rw [heq] at hlt
      exact List.lt_irrefl _ hlt
  have hmem : ∀ entry, entry ∈ entries ↔ entry ∈ others := fun (address, target) => by
    rw [h.complete, h'.complete]
  have hperm : entries.Perm others := (List.perm_ext_iff_of_nodup (hnodup h) (hnodup h')).mpr hmem
  refine hperm.eq_of_pairwise ?_ (List.pairwise_map.mp h.ordered) (List.pairwise_map.mp h'.ordered)
  intro entry other _ _ hlt hgt
  exact absurd hgt (List.lt_asymm hlt)

/-! ## The table of the drivers -/

/-- An entry of the test with a number, in a list of tests. -/
def below (number : Nat) (entry : List Nat × RootedPath) : List Nat × RootedPath :=
  (number :: entry.1, entry.2)

mutual

/-- The generated drivers of a test, with their addresses below it. -/
def generatedTable : TestCase → Table (List Nat) RootedPath
  | .test _ => []
  | .driver program generated tests =>
      (if generated then [([], program.target)] else []) ++ generatedTables 0 tests

/-- The generated drivers of tests that are numbered from a number on. -/
def generatedTables (first : Nat) : List TestCase → Table (List Nat) RootedPath
  | [] => []
  | case :: cases => (generatedTable case).map (below first) ++ generatedTables (first + 1) cases

end

mutual

/-- The targets of the table are those that the generator collects, in the same order. -/
theorem targets_generatedTable : ∀ case : TestCase,
    (generatedTable case).map (·.2) = generatedDrivers case
  | .test _ => rfl
  | .driver program generated tests => by
      rw [generatedTable, generatedDrivers, List.map_append, targets_generatedTables 0 tests]
      cases generated <;> rfl

theorem targets_generatedTables : ∀ (first : Nat) (cases : List TestCase),
    (generatedTables first cases).map (·.2) = allGeneratedDrivers cases
  | _, [] => rfl
  | first, case :: cases => by
      rw [generatedTables, allGeneratedDrivers, List.map_append, List.map_map,
        ← targets_generatedTable case, targets_generatedTables (first + 1) cases]
      rfl

end

section Tables

variable {case : TestCase} {cases : List TestCase} {first : Nat} {address : List Nat}
  {target : RootedPath}

/-- A test has its own entry, if it is a generated driver, and those of the tests that it runs. -/
theorem generatedTable_eq (case : TestCase) :
    generatedTable case = (case.generatedTarget?.map fun target => ([], target)).toList ++
      generatedTables 0 case.subtests := by
  cases case with
  | test program => rfl
  | driver program generated tests =>
      rw [generatedTable]
      cases generated <;> rfl

/-- The drivers of a list are those of its tests. -/
theorem mem_generatedTables :
    (address, target) ∈ generatedTables first cases ↔
      ∃ number case rest, cases[number]? = some case ∧ address = (first + number) :: rest ∧
        (rest, target) ∈ generatedTable case := by
  induction cases generalizing first with
  | nil => simp [generatedTables]
  | cons case cases ih =>
      rw [generatedTables, List.mem_append, ih, List.mem_map]
      constructor
      · rintro (⟨⟨rest, found⟩, hmem, heq⟩ | ⟨number, other, rest, hother, rfl, hmem⟩)
        · obtain ⟨rfl, rfl⟩ := Prod.mk.inj heq
          exact ⟨0, case, rest, rfl, rfl, hmem⟩
        · exact ⟨number + 1, other, rest, hother, by rw [Nat.add_right_comm, Nat.add_assoc], hmem⟩
      · rintro ⟨number, other, rest, hother, rfl, hmem⟩
        cases number with
        | zero =>
            obtain rfl := Option.some.inj hother
            exact .inl ⟨(rest, target), hmem, rfl⟩
        | succ number =>
            exact .inr ⟨number, other, rest, hother, by rw [Nat.add_right_comm, Nat.add_assoc], hmem⟩

/-- **The table of a test has what is at its addresses**, by induction over the tests below it. -/
theorem mem_generatedTable :
    (address, target) ∈ generatedTable case ↔
      (case.at? address).bind TestCase.generatedTarget? = some target := by
  induction case using TestCase.induction generalizing address with
  | step case ih =>
      rw [generatedTable_eq, List.mem_append, mem_generatedTables]
      cases address with
      | nil => simp [TestCase.at?]
      | cons number address =>
          simp only [Option.mem_toList, Option.map_eq_some_iff, Prod.mk.injEq, reduceCtorEq, false_and,
            and_false, exists_false, false_or, Nat.zero_add, List.cons.injEq, TestCase.at?]
          constructor
          · rintro ⟨_, sub, _, hsub, ⟨rfl, rfl⟩, hmem⟩
            rw [hsub]
            exact (ih sub (List.mem_of_getElem? hsub)).mp hmem
          · intro hfound
            obtain ⟨found, hat, hfound⟩ := Option.bind_eq_some_iff.mp hfound
            obtain ⟨sub, hsub, hat⟩ := Option.bind_eq_some_iff.mp hat
            refine ⟨number, sub, address, hsub, ⟨rfl, rfl⟩, ?_⟩
            rw [ih sub (List.mem_of_getElem? hsub), hat]
            exact hfound

/-- Tables of tests in order are in order, behind each other. -/
theorem ordered_generatedTables (h : ∀ case ∈ cases, (generatedTable case).keys.Pairwise (· < ·)) :
    (generatedTables first cases).keys.Pairwise (· < ·) := by
  induction cases generalizing first with
  | nil => exact .nil
  | cons case cases ih =>
      obtain ⟨hcase, hcases⟩ := List.forall_mem_cons.mp h
      rw [generatedTables, Table.keys, List.pairwise_map, List.pairwise_append, List.pairwise_map]
      refine ⟨?_, List.pairwise_map.mp (ih hcases), ?_⟩
      · exact (List.pairwise_map.mp hcase).imp fun hlt => List.cons_lt_cons_self.mpr hlt
      · -- the tests behind have greater numbers
        rintro _ hown ⟨address, target⟩ hother
        obtain ⟨entry, -, rfl⟩ := List.mem_map.mp hown
        obtain ⟨number, other, rest, -, rfl, -⟩ := mem_generatedTables.mp hother
        exact List.cons_lt_cons_iff.mpr (.inl (by omega))

theorem ordered_generatedTable : (generatedTable case).keys.Pairwise (· < ·) := by
  induction case using TestCase.induction with
  | step case ih =>
      have hbelow : (generatedTables 0 case.subtests).keys.Pairwise (· < ·) :=
        ordered_generatedTables ih
      rw [generatedTable_eq, Table.keys, List.map_append]
      cases case.generatedTarget? with
      | none => exact hbelow
      | some target =>
          -- the address of the test itself is empty, so it is before all others
          refine List.pairwise_cons.mpr ⟨fun address haddress => ?_, hbelow⟩
          obtain ⟨⟨_, found⟩, hmem, rfl⟩ := List.mem_map.mp haddress
          obtain ⟨number, case', rest, -, rfl, -⟩ := mem_generatedTables.mp hmem
          exact List.nil_lt_cons _ _

/-- **The generated drivers of tests have a table.** -/
theorem listsDrivers_generatedTables (cases : List TestCase) :
    ListsDrivers cases (generatedTables 0 cases) where
  ordered := ordered_generatedTables fun _ _ => ordered_generatedTable
  complete address target := by
    rw [mem_generatedTables]
    cases address with
    | nil => simp [generatedAt?]
    | cons number address =>
        simp only [Nat.zero_add, List.cons.injEq, generatedAt?, Option.bind_eq_some_iff]
        constructor
        · rintro ⟨_, case, _, hcase, ⟨rfl, rfl⟩, hmem⟩
          exact ⟨case, hcase, Option.bind_eq_some_iff.mp (mem_generatedTable.mp hmem)⟩
        · rintro ⟨case, hcase, hfound⟩
          exact ⟨number, case, address, hcase, ⟨rfl, rfl⟩,
            mem_generatedTable.mpr (Option.bind_eq_some_iff.mpr hfound)⟩

end Tables

/-! ## The rule -/

/-- **The rule that runs tests**: it waits for the test programs if there are any, for what else is
    needed, and for the generated drivers in the order of their addresses. Its recipe has one entry for
    each test. In the text an entry stands behind a line break and a tab; it is copied as it is, so a line
    break in a word of the test goes on in one more line. -/
structure RunsTests (tests : Tests) (rule : Rule) : Prop where
  targets : rule.targets = [.plain "test"]
  deps : ∃ drivers, ListsDrivers tests.cases drivers ∧
    rule.deps = (if tests.targets = [] then [] else [.plain "tests"]) ++
      tests.extraDeps.map .path ++ drivers.map fun driver => .path driver.2
  orderOnly : rule.orderOnly = []
  recipe : rule.recipe = some (.inline (tests.cases.map fun case => .words (testWords case)))
  text : rule.render.toList = ".PHONY: test\ntest:".toList ++
    (rule.deps.flatMap fun dep => ' ' :: (dep.render .dependency).toList) ++
    (tests.cases.flatMap fun case =>
      '\n' :: '\t' :: (Command.words (testWords case)).render.toList) ++ ['\n', '\n']

/-- The text of the rule, from its prerequisites and its commands. -/
theorem toList_render_testRule (tests : Tests) :
    (testRule tests).render.toList = ".PHONY: test\ntest:".toList ++
      ((testRule tests).deps.flatMap fun dep => ' ' :: (dep.render .dependency).toList) ++
      (tests.cases.flatMap fun case =>
        '\n' :: '\t' :: (Command.words (testWords case)).render.toList) ++ ['\n', '\n'] := by
  have hvariables : (testRule tests).renderVariables = "" := by
    simp [Rule.renderVariables, testRule]
  have hphony : (testRule tests).renderPhony = ".PHONY: test\n" := by
    show ".PHONY: " ++ Make.separated .dependency " " "" "" [.plain runTestsName] ++ "\n" = _
    decide +kernel
  have hheader : (testRule tests).renderHeader.toList = "test:".toList ++
      (testRule tests).deps.flatMap fun dep => ' ' :: (dep.render .dependency).toList := by
    have htarget : Make.separated .target " " "" "" [.plain runTestsName] ++ ":" = "test:" := by
      decide +kernel
    show (Make.separated .target " " "" "" [.plain runTestsName] ++ ":" ++
      Make.separated .dependency " " " " "" (testRule tests).deps ++ "").toList = _
    rw [htarget, String.append_empty, String.toList_append]
    cases (testRule tests).deps with
    | nil => rfl
    | cons dep deps =>
        rw [Make.toList_separated_cons]
        rfl
  have hrecipe : (testRule tests).renderRecipe.toList = tests.cases.flatMap fun case =>
      '\n' :: '\t' :: (Command.words (testWords case)).render.toList := by
    have hlines : (testRule tests).renderRecipe = String.join (tests.cases.map fun case =>
        "\n\t" ++ (Command.words (testWords case)).render) :=
      congrArg String.join List.map_map
    rw [hlines, String.toList_join, List.flatMap_map]
    simp only [String.toList_append]
    rfl
  unfold Rule.render
  rw [hvariables, hphony]
  simp only [String.toList_append, hheader, hrecipe, ← List.append_assoc]
  rfl

/-- **The rule of the generator** runs the tests. -/
theorem runsTests_testRule (tests : Tests) : RunsTests tests (testRule tests) where
  targets := rfl
  deps := by
    refine ⟨generatedTables 0 tests.cases, listsDrivers_generatedTables tests.cases, ?_⟩
    have hdrivers : (generatedTables 0 tests.cases).map (fun driver => Piece.path driver.2) =
        (allGeneratedDrivers tests.cases).map .path := by
      rw [← targets_generatedTables 0, List.map_map]
      rfl
    rw [hdrivers, testRule, makeTestsName]
    simp only [List.isEmpty_iff]
  orderOnly := rfl
  recipe := rfl
  text := toList_render_testRule tests

/-! ## The main result -/

/-- The rules for tests, where there are any: the rule that runs them is the last one. -/
theorem testRules_of_cases {tests : Tests} (h : tests.cases ≠ []) :
    testRules tests =
      (if tests.targets = [] then [] else [testsRule tests]) ++ [testRule tests] := by
  unfold testRules
  rw [if_neg (by simp [Tests.isEmpty, h])]
  simp only [List.isEmpty_iff]

/-- Where no target is made twice, one rule makes each target. -/
theorem not_mem_claims_of_nodup {before after : List Rule} {rule : Rule} {text : String}
    (h : (claimsOf (before ++ rule :: after)).Nodup) (htext : text ∈ rule.claims) :
    ∀ other ∈ before ++ after, text ∉ other.claims := by
  have hsplit : claimsOf (before ++ rule :: after) =
      claimsOf before ++ (rule.claims ++ claimsOf after) := by
    rw [claimsOf_append]
    rfl
  rw [hsplit] at h
  obtain ⟨-, hown, hbefore⟩ := List.nodup_append.mp h
  obtain ⟨-, -, hafter⟩ := List.nodup_append.mp hown
  intro other hother hclaims
  rcases List.mem_append.mp hother with hother | hother
  · exact hbefore text (List.mem_flatMap.mpr ⟨other, hother, hclaims⟩) text
      (List.mem_append_left _ htext) rfl
  · exact hafter text htext text (List.mem_flatMap.mpr ⟨other, hother, hclaims⟩) rfl

/-- **What must be made before the tests run.** Where there is a test, the rules for tests can be added
    to every model that does not make their targets yet, and the last of them is the rule `test`, with
    the prerequisites and the commands that it should have. In every Makefile that is generated it is
    the one rule that makes `test`. -/
theorem runsTests_generate (tests : Tests) (hcases : tests.cases ≠ []) :
    (∀ m : Makefile, (∀ text ∈ testTexts tests, text ∉ m.claimed) →
      ∃ m' rule, addTests tests m = .ok m' ∧
        m'.rules = m.rules ++ (if tests.targets = [] then [] else [testsRule tests]) ++ [rule] ∧
        RunsTests tests rule) ∧
    ∀ (env : Environment) (graph : BuildGraph) (products : Products), graph.tests = tests →
      generate env graph = .ok products →
      ∃ m before rule after, modelWith usualHandlers env graph = .ok m ∧
        products.makefile = m.render ∧ m.rules = before ++ rule :: after ∧
        (∀ other ∈ before ++ after, "test" ∉ other.claims) ∧ RunsTests tests rule := by
  constructor
  · intro m hnew
    have hclaims := claims_testRules tests
    have hnodup : (testTexts tests).Nodup := by
      unfold testTexts
      split
      · exact List.nodup_nil
      · split <;> decide
    have hfresh : Fresh m (testRules tests) :=
      ⟨hclaims.targets_ne_nil, hclaims.claims_eq ▸ hnodup, hclaims.claims_eq ▸ hnew⟩
    refine ⟨_, testRule tests, (contributes_addTests tests m _).mpr ⟨_, rfl, hfresh, rfl⟩, ?_,
      runsTests_testRule tests⟩
    show m.rules ++ testRules tests = _
    rw [testRules_of_cases hcases, List.append_assoc]
  · rintro env graph products rfl hproducts
    obtain ⟨m, hm, rfl⟩ := generate_eq_ok_iff.mp hproducts
    obtain ⟨c, hc, hfresh, rfl⟩ := modelWith_eq_ok_iff.mp hm
    obtain ⟨before, after, hrules⟩ := List.append_of_mem (testRule_mem hcases hc)
    have htest : "test" ∈ (testRule graph.tests).claims := by
      show "test" ∈ [(Piece.plain runTestsName).render .target]
      decide +kernel
    exact ⟨_, before, testRule graph.tests, after, hm, rfl, hrules,
      not_mem_claims_of_nodup (hrules ▸ hfresh.nodup) htest, runsTests_testRule graph.tests⟩

/-- Tests with drivers in drivers: of those that edges make, one is below one that is not made, and one
    is run twice. -/
def layeredSuite : Tests where
  targets := [.build "t1"]
  extraDeps := [⟨.source, ⟨"data"⟩⟩, .build "t1"]
  cases := [
    .test { target := .build "t1" },
    .driver { target := .build "outer" } true [
      .driver { target := .build "found" } false [
        .driver { target := .build "inner" } true [.test { target := .build "t1" }]],
      .driver { target := .build "next" } true []],
    .driver { target := .build "outer" } true [.test { target := .build "t1" }]]

/-- Every generated driver is there as often as it is run, and no other driver is. -/
theorem runsTests_layeredSuite :
    ∃ (products : Products) (m : Makefile) (rule : Rule) (commands : List Command),
      generate default { (default : BuildGraph) with tests := layeredSuite } = .ok products ∧
      products.makefile = m.render ∧ rule ∈ m.rules ∧ rule.targets = [.plain "test"] ∧
      rule.deps = .plain "tests" :: ([⟨.source, ⟨"data"⟩⟩, .build "t1", .build "outer",
        .build "inner", .build "next", .build "outer"] : List RootedPath).map .path ∧
      rule.recipe = some (.inline commands) ∧ commands.length = 3 := by
  have haccepted : Accepted default { (default : BuildGraph) with tests := layeredSuite } :=
    ⟨fun edge hedge => absurd hedge List.not_mem_nil, by decide +kernel⟩
  obtain ⟨products, hproducts⟩ := haccepted.generate_succeeds
  obtain ⟨m, before, rule, after, -, hrender, hrules, -, hrule⟩ :=
    (runsTests_generate layeredSuite (List.cons_ne_nil _ _)).2 _ _ _ rfl hproducts
  obtain ⟨drivers, hdrivers, hdeps⟩ := hrule.deps
  obtain rfl := hdrivers.unique (listsDrivers_generatedTables layeredSuite.cases)
  refine ⟨products, m, rule, _, hproducts, hrender, ?_, hrule.targets, hdeps, hrule.recipe, rfl⟩
  rw [hrules]
  exact List.mem_append_right _ List.mem_cons_self

end Generate

end MakeGraph
