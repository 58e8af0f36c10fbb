import MakeGraph.Proofs.Generate.LinkPlace

/-!
# `Proofs.Generate.LinkWords` — the command of every link

What is said of the command of one link holds in every Makefile that is generated (`linkCommand_words`):
its rule is found there, its recipe finds what was written for this link, and all flags and libraries are
words, where no path of a library needs a variable.

An option with a `#` is enough to break the command (`words?_symbolEdge`).

## Contents

* `NamesOnly.isWord` — the words of a link
* `exists_linkSettings` — its rule, and what its recipe finds
* `linkCommand_words` — the main result
-/

namespace MakeGraph.Generate

open Make (HoldsWords Makefile Piece Recipe Rule)
open Shell (Splits)

/-! ## The words of a link -/

/-- A word of a linker is one word for the shell if its paths are reached without a variable. -/
theorem NamesOnly.isWord {named : RootedPath → Prop}
    (hnamed : ∀ p, named p → p.root = .build ∨ p.root = .absolute) {piece : Piece}
    (h : NamesOnly named piece) : isWord piece = true := by
  have hpath : ∀ p, named p → isPlainLeaf (.path p) = true := by
    intro p hp
    rw [isPlainLeaf, Bool.or_eq_true, decide_eq_true_eq, decide_eq_true_eq]
    exact hnamed p hp
  cases h with
  | text text => rfl
  | path h => exact (Bool.and_true _).trans (hpath _ h)
  | flagged flag h => exact (Bool.and_true _).trans (hpath _ h)

/-! ## The main result -/

section Generation

variable {env : Environment} {graph : BuildGraph} {products : Products} {edge : LinkEdge}

/-- **The rule that runs a link** in a Makefile that is generated, with what its recipe finds. -/
theorem exists_linkSettings (hproducts : generate env graph = .ok products)
    (hedge : .link edge ∈ graph.edges) :
    ∃ m linker rule flags libs,
      modelWith usualHandlers env graph = .ok m ∧ products.makefile = m.render ∧
      env.toolchain.linker edge.lang edge.mode = .ok linker ∧ linkFlags linker edge = .ok flags ∧
      libsOf linker edge = .ok libs ∧ rule ∈ m.rules ∧ RunsLink linker edge flags libs rule ∧
      m.defines.find? (sharedRecipe linker.recipeStem) = some (linkLines linker) ∧
      (targetText (commandTarget edge) ≠ "" → ∀ way,
        LinkSettings m linker graph edge.mode flags libs (targetText (commandTarget edge) :: way)) := by
  obtain ⟨m, hm, rfl⟩ := generate_eq_ok_iff.mp hproducts
  obtain ⟨c, hc, hfresh, rfl⟩ := modelWith_eq_ok_iff.mp hm
  obtain ⟨linker, flags, libs, rule, hlinker, hflags, hlibs, hrun, hone, htwo, hdefined⟩ :=
    hasLink_modelContribution hedge hc hfresh
  have hrule : rule ∈ c.rules := by
    have hmem : rule ∈ rulesOf (extend .empty c) (.link edge) := by
      by_cases hlibrary : edge.importLibrary = none
      · rw [hone hlibrary]
        exact List.mem_singleton.mpr rfl
      · obtain ⟨outputs, -, heq⟩ := htwo hlibrary
        rw [heq]
        exact List.mem_cons_of_mem _ (List.mem_singleton.mpr rfl)
    exact (List.mem_filter.mp hmem).1
  exact ⟨_, linker, rule, flags, libs, hm, rfl, hlinker, hflags, hlibs, hrule, hrun, hdefined,
    fun hname way => linkSettings_extend hc hfresh hedge hlinker hlibs hrun hrule hname way⟩

/-- **The command of every link is the intended one where make keeps its variables whole.** In every
    Makefile that is generated, the recipe of a link edge, expanded by make and split by the shell, gives
    the linker every input and the output as they were named, each as one word in its place, if its
    variables hold whole words. They do, where no path of a library needs a variable, exactly if the
    program is whole words and make ends the value in none of the texts that the flags and the libraries
    are put together of. -/
theorem linkCommand_words (hproducts : generate env graph = .ok products)
    (hedge : .link edge ∈ graph.edges) (hoperands : ∀ p ∈ edge.output :: edge.files, IsOperand p) :
    ∃ m linker rule recipe flags libs,
      modelWith usualHandlers env graph = .ok m ∧ products.makefile = m.render ∧
      rule ∈ m.rules ∧ rule.targets = [.path (commandTarget edge)] ∧ rule.recipe = some recipe ∧
      env.toolchain.linker edge.lang edge.mode = .ok linker ∧ linkFlags linker edge = .ok flags ∧
      libsOf linker edge = .ok libs ∧
      (∀ value words, (∀ name ∈ toolNames env.family edge, Splits (value name) (words name)) →
        ∃ command, Make.expandCall m value (firstLine recipe) = some command ∧
          Shell.words? command = some (commandWords env.family edge words)) ∧
      ((∀ p, IsLinked edge p → p.root = .build ∨ p.root = .absolute) →
        targetText (commandTarget edge) ≠ "" → ∀ way,
          (ReadInPlace m env.family edge recipe (targetText (commandTarget edge) :: way) ↔
            HoldsWords (heldProgram linker) ∧
              ∀ text ∈ linkTexts linker graph edge.mode flags libs,
                Make.isCut 0 text.toList = false)) := by
  obtain ⟨m, linker, rule, flags, libs, hm, hrender, hlinker, hflags, hlibs, hrule, hrun, hdefined,
    hsettings⟩ := exists_linkSettings hproducts hedge
  refine ⟨m, linker, rule, linkRecipeOf linker edge, flags, libs, hm, hrender, hrule, hrun.targets,
    hrun.recipe, hlinker, hflags, hlibs, ?_, ?_⟩
  · intro value words hwords
    exact words?_linkRecipeOf hlinker hoperands hdefined hwords
  · intro hroots hname way
    have hwords : ∀ piece ∈ flags ++ libs, isWord piece = true := fun piece hpiece =>
      (namesOnly_link hlinker hflags hlibs piece hpiece).isWord hroots
    exact readInPlace_iff (hsettings hname way) hlinker hwords hoperands hdefined

end Generation

/-- An environment with the compiler driver `cc`. -/
def driverEnvironment : Environment :=
  { (default : Environment) with tools := { (default : ToolConfig) with cc := "cc" } }

/-- The link of a program whose files have blanks, quotes and dollars in their names. -/
def spacedEdge : LinkEdge where
  output := .build "my prog"
  importLibrary := none
  mode := .executable
  lang := "c"
  files := [.build "a b.o", .build "it's.o", ⟨.absolute, ⟨"/c$d.o"⟩⟩]
  libs := [⟨.static, .build "my lib.a", true⟩]
  options := ["-s"]

/-- What the variables of its command hold. -/
def spacedValue (name : String) : List Char :=
  if name = "CC" then "cc".toList
  else if name = "LDFLAGS" then " -s".toList
  else if name = "LDLIBS" then " my' lib.a'".toList
  else []

/-- The words in these variables. -/
def spacedWords (name : String) : List String :=
  if name = "CC" then ["cc"]
  else if name = "LDFLAGS" then ["-s"]
  else if name = "LDLIBS" then ["my lib.a"]
  else []

theorem splits_spacedValue :
    ∀ name ∈ toolNames .cc spacedEdge, Splits (spacedValue name) (spacedWords name) := by
  refine List.forall_mem_cons.mpr ⟨?_, List.forall_mem_cons.mpr ⟨?_, List.forall_mem_singleton.mpr ?_⟩⟩
  · exact Shell.splits_quoteChars_toList "cc"
  · exact Shell.splits_nil.blank (Shell.splits_quoteChars_toList "-s")
  · exact Shell.splits_nil.blank (Shell.splits_quoteChars_toList "my lib.a")

/-- The compiler driver gets the three files and the program as they are named. -/
theorem words_spacedEdge :
    ∃ (products : Products) (m : Makefile) (recipe : Recipe) (command : String),
      generate driverEnvironment { (default : BuildGraph) with edges := [.link spacedEdge] } =
        .ok products ∧
      products.makefile = m.render ∧ ReadInPlace m .cc spacedEdge recipe ["my\\ prog"] ∧
      (∀ name ∈ toolNames .cc spacedEdge ++ globalNames .cc spacedEdge,
        m.heldAt? spacedValue ["my\\ prog"] name = some (spacedValue name)) ∧
      Make.expandCall m spacedValue (firstLine recipe) = some command ∧
      Shell.words? command =
        some ["cc", "-s", "a b.o", "it's.o", "/c$d.o", "my lib.a", "-o", "my prog"] := by
  have haccepted : Accepted driverEnvironment
      { (default : BuildGraph) with edges := [.link spacedEdge] } := by
    refine ⟨List.forall_mem_singleton.mpr ⟨.inl rfl, nofun, fun _ => ?_⟩, by decide +kernel⟩
    refine List.forall_mem_singleton.mpr ?_
    show Library.Nameable .cc .linux _
    simp [Library.Nameable]
  obtain ⟨products, hproducts⟩ := haccepted.generate_succeeds
  have hedge : Edge.link spacedEdge ∈ [Edge.link spacedEdge] := List.mem_singleton.mpr rfl
  have hoperands : ∀ p ∈ spacedEdge.output :: spacedEdge.files, IsOperand p := by decide
  obtain ⟨m, linker, rule, recipe, flags, libs, hm, hrender, -, -, -, hlinker, hflags, hlibs, hcommand,
    hplace⟩ := linkCommand_words hproducts hedge hoperands
  obtain rfl : Linker.cc .c .executable .linux driverEnvironment.tools = linker := Except.ok.inj hlinker
  obtain rfl : [.plain "-s"] = flags := Except.ok.inj hflags
  obtain rfl : [.path (.build "my lib.a")] = libs := Except.ok.inj hlibs
  have hname : targetText (commandTarget spacedEdge) = "my\\ prog" := by decide +kernel
  have hroots : ∀ p, IsLinked spacedEdge p → p.root = .build ∨ p.root = .absolute := by
    rintro p (hlibrary | ⟨lib, hlib, hpath⟩)
    · cases hlibrary
    · obtain rfl := List.mem_singleton.mp hlib
      rcases hpath with rfl | rfl <;> exact .inl rfl
  have hprogram : heldProgram (.cc .c .executable .linux driverEnvironment.tools) = some "cc".toList := by
    decide +kernel
  have hread := (hplace hroots (by decide) []).mpr
    ⟨⟨_, ["cc"], hprogram, Shell.splits_quoteChars_toList "cc"⟩, by decide +kernel⟩
  obtain ⟨command, hexpand, hwords⟩ := hcommand spacedValue spacedWords splits_spacedValue
  refine ⟨products, m, recipe, command, hproducts, hrender, hname ▸ hread, ?_, hexpand, hwords⟩
  -- the Makefile is the one whose variables are known
  obtain ⟨m', linker', rule', flags', libs', hm', -, hlinker', hflags', hlibs', -, -, -, hsettings⟩ :=
    exists_linkSettings hproducts hedge
  obtain rfl := Except.ok.inj (hm.symm.trans hm')
  obtain rfl := Except.ok.inj (hlinker.symm.trans hlinker')
  obtain rfl := Except.ok.inj (hflags.symm.trans hflags')
  obtain rfl := Except.ok.inj (hlibs.symm.trans hlibs')
  rw [hname] at hsettings
  exact heldAt?_of_entries (hsettings (by decide) []) hlinker (by decide) (by decide +kernel)
    (by decide +kernel)

/-- The link of a program with an option in which make begins a comment. -/
def symbolEdge : LinkEdge where
  output := .build "prog"
  importLibrary := none
  mode := .executable
  lang := "c"
  files := [.build "a.o", .build "b.o"]
  libs := []
  options := ["-Wl,--defsym=x#y"]

/-- What the variables of its command hold. -/
def symbolValue (name : String) : List Char :=
  if name = "CC" then "cc".toList
  else if name = "LDFLAGS" then " -Wl,--defsym'=x".toList
  else []

/-- Make ends the flags between two quotes, and the command is no list of words. -/
theorem words?_symbolEdge :
    ∃ (products : Products) (m : Makefile) (rule : Rule) (recipe : Recipe) (command : String),
      generate driverEnvironment { (default : BuildGraph) with edges := [.link symbolEdge] } =
        .ok products ∧
      products.makefile = m.render ∧ rule ∈ m.rules ∧ rule.targets = [.path (.build "prog")] ∧
      rule.recipe = some recipe ∧
      (∀ name ∈ toolNames .cc symbolEdge ++ globalNames .cc symbolEdge,
        m.heldAt? symbolValue ["prog"] name = some (symbolValue name)) ∧
      Make.expandCall m symbolValue (firstLine recipe) = some command ∧
      command = "cc  -Wl,--defsym'=x a.o b.o  -o prog" ∧ Shell.words? command = none := by
  have haccepted : Accepted driverEnvironment
      { (default : BuildGraph) with edges := [.link symbolEdge] } :=
    ⟨by simp [EdgeAccepted, symbolEdge], by decide +kernel⟩
  obtain ⟨products, hproducts⟩ := haccepted.generate_succeeds
  obtain ⟨m, linker, rule, flags, libs, -, hrender, hlinker, hflags, hlibs, hrule, hrun, hdefined,
    hsettings⟩ := exists_linkSettings hproducts (List.mem_singleton.mpr rfl)
  obtain rfl : Linker.cc .c .executable .linux driverEnvironment.tools = linker := Except.ok.inj hlinker
  obtain rfl : [.plain "-Wl,--defsym=x#y"] = flags := Except.ok.inj hflags
  obtain rfl : [] = libs := Except.ok.inj hlibs
  have hoperands : ∀ p ∈ symbolEdge.output :: symbolEdge.files, IsOperand p := by decide
  have hstem := linker_recipeStem_mem hlinker
  have hname : targetText (commandTarget symbolEdge) = "prog" := by decide +kernel
  have hcommand : commandChars symbolValue (.cc .c .executable .linux driverEnvironment.tools) symbolEdge =
      "cc  -Wl,--defsym'=x a.o b.o  -o prog".toList := by decide +kernel
  refine ⟨products, m, rule, _, _, hproducts, hrender, hrule, hrun.targets, hrun.recipe, ?_, ?_, rfl, ?_⟩
  · rw [hname] at hsettings
    exact heldAt?_of_entries (hsettings (by decide) []) hlinker (by decide) (by decide +kernel)
      (by decide +kernel)
  · rw [firstLine_linkRecipeOf hstem hoperands, expandCall_linkCall symbolValue hstem hoperands hdefined]
    exact congrArg (some ∘ String.ofList) hcommand
  · decide +kernel

end MakeGraph.Generate
