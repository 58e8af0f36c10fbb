import MakeGraph.Proofs.Generate.Acceptance
import MakeGraph.Proofs.Generate.SharedVariables
import MakeGraph.Proofs.Make.Lookup

/-!
# `Proofs.Generate.FlagsScope` — flags are never handed on

The rule of a program sets `LDFLAGS` for the program, and make hands such a value on to all that is
made on behalf of the program: objects, libraries, other programs. What stops this is that every
variable that a shared recipe refers to has a value for all targets, which counts before anything that
was handed on. So it is enough that a tool which defines a recipe also declares the variables in it
(`wildcard_mem_of_mentions`), for every tool and whatever edge comes first.

## Contents

* `Mentions` — the variables that a shared recipe refers to
* `mentions_compileLines`, `mentions_linkLines`, `mentions_flagsVariable` — they are the ones with the
  flags of its tool
* `lookup_flagsVariable` — the main result
-/

namespace MakeGraph.Generate

open Make (Command Error Makefile Piece Rule Variable)
open Outcome

/-! ## What recipes refer to -/

section Mentions

variable {tools : Toolchain} {lang stem : String}

/-- Lines of which one refers to a variable. -/
def Mentions (lines : List Command) (v : Variable) : Prop :=
  v.name ∈ lines.flatMap Command.references

instance (lines : List Command) (v : Variable) : Decidable (Mentions lines v) :=
  inferInstanceAs (Decidable (_ ∈ _))

/-- The stems of the variables with flags and their names. -/
def flagsNames : List (String × String) :=
  [("cflags", "CFLAGS"), ("cxxflags", "CXXFLAGS"), ("ldflags", "LDFLAGS"), ("ldlibs", "LDLIBS"),
    ("arflags", "ARFLAGS"), ("libflags", "LIBFLAGS")]

theorem name_flagsVariable_mem :
    ∀ stem ∈ flagsStems, (stem, (flagsVariable stem).name) ∈ flagsNames := by
  decide +kernel

/-- The recipe of a compiler refers to the variable with its own flags only. -/
theorem mentions_compileLines {compiler : Compiler} (h : tools.compiler lang = .ok compiler)
    (hstem : stem ∈ flagsStems) (hmentions : Mentions (compileLines compiler) (flagsVariable stem)) :
    stem = compiler.flagsStem := by
  have hname := name_flagsVariable_mem stem hstem
  obtain ⟨language, -, ⟨-, rfl⟩ | ⟨-, rfl⟩⟩ := compiler_ok h
  · -- the flags themselves are not in the recipe, so any will do
    cases language with
    | c =>
        have hlines : (compileLines (.cc .c default)).flatMap Command.references =
            ["CC", "CFLAGS", "<", "@", "@", "@", "@"] := by
          decide +kernel
        have hall : ∀ entry ∈ flagsNames,
            entry.2 ∈ ["CC", "CFLAGS", "<", "@", "@", "@", "@"] → entry.1 = "cflags" := by decide
        exact hall _ hname (hlines ▸ hmentions)
    | cxx =>
        have hlines : (compileLines (.cc .cxx default)).flatMap Command.references =
            ["CXX", "CXXFLAGS", "<", "@", "@", "@", "@"] := by
          decide +kernel
        have hall : ∀ entry ∈ flagsNames,
            entry.2 ∈ ["CXX", "CXXFLAGS", "<", "@", "@", "@", "@"] → entry.1 = "cxxflags" := by
          decide
        exact hall _ hname (hlines ▸ hmentions)
  · have hlines : (compileLines (.msvc default)).flatMap Command.references =
        ["CXX", "CXXFLAGS", "<", "@"] := by
      decide +kernel
    have hall : ∀ entry ∈ flagsNames,
        entry.2 ∈ ["CXX", "CXXFLAGS", "<", "@"] → entry.1 = "cxxflags" := by decide
    exact hall _ hname (hlines ▸ hmentions)

/-! ### The recipes of the four linkers -/

theorem references_ar (tools : ToolConfig) :
    (linkLines (.ar tools)).flatMap Command.references = ["AR", "ARFLAGS", "2", "1"] := by
  show (linkLines (.ar default)).flatMap Command.references = _
  decide +kernel

theorem references_cc (language : Language) (mode : LinkMode) (platform : Platform)
    (tools : ToolConfig) :
    (linkLines (.cc language mode platform tools)).flatMap Command.references =
      [if language = .c then "CC" else "CXX", "LDFLAGS", "1", "LDLIBS", "2"] := by
  show (linkLines (.cc language .executable .linux default)).flatMap Command.references = _
  cases language <;> decide +kernel

theorem references_msvcLib (tools : ToolConfig) :
    (linkLines (.msvcLib tools)).flatMap Command.references = ["LIB", "LIBFLAGS", "1", "2"] := by
  show (linkLines (.msvcLib default)).flatMap Command.references = _
  decide +kernel

theorem references_msvc (mode : LinkMode) (tools : ToolConfig) :
    (linkLines (.msvc mode tools)).flatMap Command.references =
      ["LINK", "LDFLAGS", "1", "LDLIBS", "2"] := by
  show (linkLines (.msvc .executable default)).flatMap Command.references = _
  decide +kernel

/-- The recipe of a linker refers to the variables with its own flags and libraries only. -/
theorem mentions_linkLines {mode : LinkMode} {linker : Linker}
    (h : tools.linker lang mode = .ok linker) (hstem : stem ∈ flagsStems)
    (hmentions : Mentions (linkLines linker) (flagsVariable stem)) :
    stem = linker.flagsStem ∨ linker.libsStem = some stem := by
  have hname := name_flagsVariable_mem stem hstem
  obtain ⟨language, -, ⟨-, -, rfl⟩ | ⟨-, -, rfl⟩ | ⟨-, -, rfl⟩ | ⟨-, -, rfl⟩⟩ := linker_ok h
  · have hall : ∀ entry ∈ flagsNames,
        entry.2 ∈ ["AR", "ARFLAGS", "2", "1"] → entry.1 = "arflags" := by decide
    exact .inl (hall _ hname (references_ar _ ▸ hmentions))
  · have hall : ∀ language : Language, ∀ entry ∈ flagsNames,
        entry.2 ∈ [if language = .c then "CC" else "CXX", "LDFLAGS", "1", "LDLIBS", "2"] →
          entry.1 = "ldflags" ∨ some "ldlibs" = some entry.1 := by
      intro language
      cases language <;> decide
    exact hall language _ hname (references_cc language _ _ _ ▸ hmentions)
  · have hall : ∀ entry ∈ flagsNames,
        entry.2 ∈ ["LIB", "LIBFLAGS", "1", "2"] → entry.1 = "libflags" := by decide
    exact .inl (hall _ hname (references_msvcLib _ ▸ hmentions))
  · have hall : ∀ entry ∈ flagsNames, entry.2 ∈ ["LINK", "LDFLAGS", "1", "LDLIBS", "2"] →
        entry.1 = "ldflags" ∨ some "ldlibs" = some entry.1 := by decide
    exact hall _ hname (references_msvc _ _ ▸ hmentions)

/-- It does refer to the variable with its flags. -/
theorem mentions_flagsVariable {mode : LinkMode} {linker : Linker}
    (h : tools.linker lang mode = .ok linker) :
    Mentions (linkLines linker) (flagsVariable linker.flagsStem) := by
  obtain ⟨language, -, ⟨-, -, rfl⟩ | ⟨-, -, rfl⟩ | ⟨-, -, rfl⟩ | ⟨-, -, rfl⟩⟩ := linker_ok h
  · rw [Mentions, references_ar]
    show (flagsVariable "arflags").name ∈ _
    decide +kernel
  · rw [Mentions, references_cc]
    have hname : (flagsVariable "ldflags").name = "LDFLAGS" := by decide +kernel
    exact List.mem_cons_of_mem _ (hname ▸ List.mem_cons_self)
  · rw [Mentions, references_msvcLib]
    show (flagsVariable "libflags").name ∈ _
    decide +kernel
  · rw [Mentions, references_msvc]
    show (flagsVariable "ldflags").name ∈ _
    decide +kernel

end Mentions

/-! ## Recipes and their variables -/

section Declared

variable {m : Makefile} {v : Variable} {lines : List Command} {stem : String}

/-- What is defined was declared as a recipe. -/
theorem mem_defines_adopt {d : Declaration} (h : (v, lines) ∈ (adopt m d).defines) :
    (v, lines) ∈ m.defines ∨ ∃ program command, d = .recipe v lines program command := by
  cases d with
  | global w value =>
      rw [adopt, defines_adoptGlobal] at h
      exact .inl h
  | wildcard w value =>
      have hsame : (adoptWildcard m w value).defines = m.defines := by
        unfold adoptWildcard
        split <;> rfl
      exact .inl (hsame ▸ h)
  | recipe w others program command =>
      have h : (v, lines) ∈ (adoptRecipe m w others program command).defines := h
      unfold adoptRecipe at h
      split at h
      · exact .inl h
      · rw [defines_adoptGlobal, Table.append_eq] at h
        rcases List.mem_append.mp h with h | h
        · exact .inl h
        · obtain ⟨rfl, rfl⟩ := Prod.mk.inj (List.mem_singleton.mp h)
          exact .inr ⟨program, command, rfl⟩

theorem mem_defines_adoptAll {ds : List Declaration} (h : (v, lines) ∈ (adoptAll m ds).defines) :
    (v, lines) ∈ m.defines ∨ ∃ program command, .recipe v lines program command ∈ ds := by
  induction ds generalizing m with
  | nil => exact .inl h
  | cons d ds ih =>
      rcases ih (m := adopt m d) h with hm | ⟨program, command, hmem⟩
      · rcases mem_defines_adopt hm with hm | ⟨program, command, rfl⟩
        · exact .inl hm
        · exact .inr ⟨program, command, List.mem_cons_self⟩
      · exact .inr ⟨program, command, List.mem_cons_of_mem d hmem⟩

/-- A tool that declares its flags declares them for all targets. -/
theorem wildcard_mem_flagsDeclarations (stem : String) (flags : List String) :
    .wildcard (flagsVariable stem) (.words [(globalFlagsVariable stem).toPiece]) ∈
      flagsDeclarations stem flags :=
  List.mem_cons_of_mem _ (List.mem_singleton.mpr rfl)

/-- **Whoever declares a recipe declares the flags in it** for all targets. -/
theorem wildcard_mem_of_mentions {tools : Toolchain} {graph : BuildGraph} {edge : Edge}
    {own : Contribution} (h : edgeContribution tools graph edge = .ok own) {program : Variable}
    {command : Command} (hrecipe : .recipe v lines program command ∈ own.declarations)
    (hstem : stem ∈ flagsStems) (hmentions : Mentions lines (flagsVariable stem)) :
    .wildcard (flagsVariable stem) (.words [(globalFlagsVariable stem).toPiece]) ∈
      own.declarations := by
  -- variables with flags are no recipes
  have hno : ∀ {name texts}, .recipe v lines program command ∉ flagsDeclarations name texts := by
    intro name texts hmem
    simp [flagsDeclarations] at hmem
  cases edge with
  | compile edge =>
      simp only [edgeContribution, bind_eq_ok_iff, pure_eq_ok_iff] at h
      obtain ⟨compiler, hcompiler, rfl⟩ := h
      rcases List.mem_append.mp hrecipe with hrecipe | hrecipe
      · exact absurd hrecipe hno
      · obtain ⟨-, rfl, -, -⟩ := Declaration.recipe.inj (List.mem_singleton.mp hrecipe)
        obtain rfl := mentions_compileLines hcompiler hstem hmentions
        exact List.mem_append_left _ (wildcard_mem_flagsDeclarations _ _)
  | link edge =>
      simp only [edgeContribution, bind_eq_ok_iff] at h
      obtain ⟨linker, hlinker, h⟩ := h
      rw [linkContribution_declarations h] at hrecipe ⊢
      rcases List.mem_append.mp hrecipe with hrecipe | hrecipe
      · rcases List.mem_append.mp hrecipe with hrecipe | hrecipe
        · exact absurd hrecipe hno
        · unfold libsDeclarations at hrecipe
          split at hrecipe
          · exact absurd hrecipe List.not_mem_nil
          · exact absurd hrecipe hno
      · obtain ⟨-, rfl, -, -⟩ := Declaration.recipe.inj (List.mem_singleton.mp hrecipe)
        refine List.mem_append_left _ ?_
        rcases mentions_linkLines hlinker hstem hmentions with rfl | hlibs
        · exact List.mem_append_left _ (wildcard_mem_flagsDeclarations _ _)
        · refine List.mem_append_right _ ?_
          rw [libsDeclarations, hlibs]
          exact wildcard_mem_flagsDeclarations _ _
  | group edge =>
      obtain rfl := Except.ok.inj h
      exact absurd hrecipe List.not_mem_nil
  | command edge =>
      obtain rfl := Except.ok.inj h
      exact absurd hrecipe List.not_mem_nil

/-- **Every variable in a defined recipe** has a value for all targets. -/
theorem find?_of_mentions {env : Environment} {graph : BuildGraph} {c : Contribution}
    (h : modelContribution env graph = .ok c) :
    ∃ bindings, (extend .empty c).scopes = [(.any, bindings)] ∧
      ∀ recipe ∈ (extend .empty c).defines, ∀ stem ∈ flagsStems,
        Mentions recipe.2 (flagsVariable stem) →
          bindings.find? (flagsVariable stem) =
            some (.words [(globalFlagsVariable stem).toPiece], .simple) := by
  obtain ⟨bindings, hscopes, hfind⟩ := scopes_extend h
  refine ⟨bindings, hscopes, ?_⟩
  rintro ⟨v, lines⟩ hdefined stem hstem hmentions
  rcases mem_defines_adoptAll (m := .empty) hdefined with hempty | ⟨program, command, hrecipe⟩
  · exact absurd hempty List.not_mem_nil
  -- the recipe is that of an edge, for neither directories nor the installation have one
  obtain ⟨edges, hedges, hdeclarations⟩ := modelContribution_declarations h
  have hin : .recipe v lines program command ∈ edges.declarations := by
    rw [hdeclarations] at hrecipe
    rcases List.mem_append.mp hrecipe with hrecipe | hrecipe
    · obtain ⟨root, -, hroot⟩ := List.mem_filterMap.mp hrecipe
      obtain ⟨value, hvalue⟩ := directoryDeclaration?_eq_some hroot
      cases hvalue
    rcases List.mem_append.mp hrecipe with hrecipe | hrecipe
    · unfold installContribution at hrecipe
      split at hrecipe
      · exact absurd hrecipe List.not_mem_nil
      · obtain ⟨file, -, hrecipe⟩ := List.mem_flatMap.mp hrecipe
        simp [installDeclarations] at hrecipe
    · exact hrecipe
  obtain ⟨edge, hedge, own, hown, hrecipe⟩ := exists_of_mem_contributions hedges hin
  have hwildcard := wildcard_mem_of_mentions hown hrecipe hstem hmentions
  obtain ⟨other, hother, hsubset, -⟩ := mem_modelContribution hedge h
  obtain rfl := Except.ok.inj (hown.symm.trans hother)
  exact hfind stem hstem _ (hsubset hwildcard)

end Declared

/-! ## The main result -/

/-- **Flags are never handed on.** In every Makefile that is generated, a variable with flags that a
    shared recipe refers to has the same value for a target whatever make came from: the one that the
    target's rule sets, or else the global flags. This holds for all rules and all recipes, so for
    every rule and the recipe that it runs; a stamp is a target like any other. Make has no target
    without a name. -/
theorem lookup_flagsVariable {env : Environment} {graph : BuildGraph} {products : Products}
    (hproducts : generate env graph = .ok products) :
    ∃ m, modelWith usualHandlers env graph = .ok m ∧ products.makefile = m.render ∧
      ∀ rule ∈ m.rules, ∀ target ∈ rule.claims, target ≠ "" →
        ∀ recipe ∈ m.defines, ∀ stem ∈ flagsStems, Mentions recipe.2 (flagsVariable stem) →
          ∀ way, m.lookup (flagsVariable stem) (target :: way) =
            some ((rule.override? (flagsVariable stem)).getD
              (.words [(globalFlagsVariable stem).toPiece])) := by
  obtain ⟨m, hm, rfl⟩ := generate_eq_ok_iff.mp hproducts
  obtain ⟨c, hc, hfresh, rfl⟩ := modelWith_eq_ok_iff.mp hm
  obtain ⟨bindings, hscopes, hfind⟩ := find?_of_mentions hc
  refine ⟨_, hm, rfl, fun rule hrule target htarget hname recipe hrecipe stem hstem hmentions way => ?_⟩
  have hnodup : ((extend .empty c).rules.flatMap Rule.claims).Nodup := hfresh.nodup
  exact Makefile.lookup_of_scopes hscopes (hfind recipe hrecipe stem hstem hmentions) hnodup hrule
    htarget hname way

/-- A program that is linked without options. -/
def generatorEdge : LinkEdge where
  output := .build "gen"
  mode := .executable
  lang := "c"
  files := [.build "gen.o"]

/-- A program that is linked with an option of its own, and for which another one is made first. -/
def strippedEdge : LinkEdge where
  output := .build "prog"
  mode := .executable
  lang := "c"
  files := [.build "prog.o"]
  options := ["-s"]
  extraDeps := [.build "gen"]

/-- The option of the program does not reach the one that is made for it. -/
theorem lookup_generatorEdge :
    ∃ (products : Products) (m : Makefile),
      generate default { (default : BuildGraph) with
        edges := [.link strippedEdge, .link generatorEdge] } = .ok products ∧
      products.makefile = m.render ∧
      m.lookup (flagsVariable "ldflags") ["prog", "all"] =
        some (.words [(globalFlagsVariable "ldflags").toPiece, .plain "-s"]) ∧
      m.lookup (flagsVariable "ldflags") ["gen", "prog", "all"] =
        some (.words [(globalFlagsVariable "ldflags").toPiece]) := by
  have haccepted : Accepted default { (default : BuildGraph) with
      edges := [.link strippedEdge, .link generatorEdge] } :=
    ⟨by simp [EdgeAccepted, strippedEdge, generatorEdge], by decide +kernel⟩
  obtain ⟨products, hproducts⟩ := haccepted.generate_succeeds
  obtain ⟨m, hm, hrender, hlookup⟩ := lookup_flagsVariable hproducts
  obtain ⟨c, hc, -, rfl⟩ := modelWith_eq_ok_iff.mp hm
  let linker : Linker := .cc .c .executable (default : Environment).platform (default : Environment).tools
  have hlinker : (default : Environment).toolchain.linker strippedEdge.lang strippedEdge.mode =
      .ok linker := rfl
  have hrecipe := Table.mem_of_find? (find?_linkLines hlinker List.mem_cons_self hc)
  have hmentions : Mentions (linkLines linker) (flagsVariable "ldflags") := by decide +kernel
  obtain ⟨stripped, hstripped, -, hrules⟩ := mem_modelContribution List.mem_cons_self hc
  obtain rfl := Except.ok.inj hstripped
  obtain ⟨generator, hgenerator, -, hrules'⟩ := mem_modelContribution
    (List.mem_cons_of_mem _ List.mem_cons_self) hc
  obtain rfl := Except.ok.inj hgenerator
  refine ⟨products, _, hproducts, hrender, ?_, ?_⟩
  · refine (hlookup _ (hrules List.mem_cons_self) "prog" (by decide +kernel) (by decide) _ hrecipe
      "ldflags" (by decide) hmentions ["all"]).trans ?_
    rw [Rule.override?_of_singleton (show Rule.overrides _ =
      [(flagsVariable "ldflags", withGlobalFlags "ldflags" [.plain "-s"])] from rfl)]
    rfl
  · refine (hlookup _ (hrules' List.mem_cons_self) "gen" (by decide +kernel) (by decide) _ hrecipe
      "ldflags" (by decide) hmentions ["prog", "all"]).trans ?_
    rw [Rule.override?_of_nil rfl]
    rfl

end MakeGraph.Generate
