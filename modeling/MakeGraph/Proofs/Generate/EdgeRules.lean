import MakeGraph.Proofs.Generate.RuleUses
import MakeGraph.Proofs.Path.Spelling

/-!
# `Proofs.Generate.EdgeRules` — the rules of one edge

A parallel build runs without races only if everything that a command needs stands on the one rule that
runs it. `rulesOf` collects the rules of a Makefile that make a target of an edge, wherever they stand,
and `rulesOf_edge` says that these are the rules that the edge contributes and no others. What they
hold is read off them: the command is run by one rule (`RunsLink`, `RunsCompile`), and the outputs of a
link that makes two files wait for its stamp (`AwaitsStamp`).

## Contents

* `rulesOf`, `filter_claims`, `rulesOf_edge` — the rules of an edge among all others
* `outputDirectories`, `directoryMarks_eq` — the directories that must be there first
* `count_usedNames_call` — how often a recipe calls a macro
* `RunsLink`, `AwaitsStamp`, `RunsCompile` — what the rules hold
* `rulesOf_generate` — the main result
-/

namespace MakeGraph.Generate

open Make (Call Command Error HasRoots Makefile Piece Recipe Rule UsesOnly Variable usedNames)
open Outcome

/-! ## The rules of an edge among all others -/

/-- The rules of a model that make a target of an edge. -/
def rulesOf (m : Makefile) (edge : Edge) : List Rule :=
  m.rules.filter fun rule => rule.claims.any fun text => text ∈ (targetPaths edge).map targetText

/-- **Rules are known by their targets**: where no target is made twice, the rules that make a target
    of some rules are these. -/
theorem filter_claims {before own after : List Rule} (hne : ∀ rule ∈ own, rule.targets ≠ [])
    (hnodup : (claimsOf (before ++ own ++ after)).Nodup) :
    (before ++ own ++ after).filter
      (fun rule => rule.claims.any fun text => text ∈ claimsOf own) = own := by
  rw [claimsOf_append, claimsOf_append] at hnodup
  obtain ⟨hfront, -, hback⟩ := List.nodup_append.mp hnodup
  obtain ⟨-, -, hfront⟩ := List.nodup_append.mp hfront
  have hmem : ∀ {rules : List Rule} {rule : Rule} {text : String}, rule ∈ rules →
      text ∈ rule.claims → text ∈ claimsOf rules := fun hrule htext =>
    List.mem_flatMap.mpr ⟨_, hrule, htext⟩
  have hbefore : ∀ rule ∈ before, ¬(rule.claims.any fun text => text ∈ claimsOf own) = true := by
    intro rule hrule hany
    obtain ⟨text, htext, hown⟩ := List.any_eq_true.mp hany
    exact hfront text (hmem hrule htext) text (of_decide_eq_true hown) rfl
  have hafter : ∀ rule ∈ after, ¬(rule.claims.any fun text => text ∈ claimsOf own) = true := by
    intro rule hrule hany
    obtain ⟨text, htext, hown⟩ := List.any_eq_true.mp hany
    exact hback text (List.mem_append_right _ (of_decide_eq_true hown)) text (hmem hrule htext) rfl
  have hself : ∀ rule ∈ own, (rule.claims.any fun text => text ∈ claimsOf own) = true := by
    intro rule hrule
    obtain ⟨target, targets, htargets⟩ := List.exists_cons_of_ne_nil (hne rule hrule)
    have htext : target.render .target ∈ rule.claims := by
      rw [Rule.claims, htargets]
      exact List.mem_cons_self
    exact List.any_eq_true.mpr ⟨_, htext, decide_eq_true (hmem hrule htext)⟩
  rw [List.filter_append, List.filter_append, List.filter_eq_nil_iff.mpr hbefore,
    List.filter_eq_nil_iff.mpr hafter, List.filter_eq_self.mpr hself, List.nil_append,
    List.append_nil]

/-- The rules of an item of a loop stand together among those of all items. -/
theorem split_contributions {α : Type} {c? : α → Except Error Contribution} {items : List α}
    {c : Contribution} (h : contributions c? items = .ok c) {item : α} (hitem : item ∈ items) :
    ∃ own before after, c? item = .ok own ∧ c.rules = before ++ own.rules ++ after := by
  revert item
  refine forall_contributions (P := fun items c => ∀ {item}, item ∈ items →
    ∃ own before after, c? item = .ok own ∧ c.rules = before ++ own.rules ++ after) ?_ ?_ h
  · exact fun hitem => absurd hitem List.not_mem_nil
  · intro first items a b ha ih item hitem
    rcases List.mem_cons.mp hitem with rfl | hitem
    · exact ⟨a, [], b.rules, ha, rfl⟩
    · obtain ⟨own, before, after, hown, hrules⟩ := ih hitem
      refine ⟨own, a.rules ++ before, after, hown, ?_⟩
      rw [rules_append, hrules]
      simp only [List.append_assoc]

/-- The rules of an edge stand together among those of the whole description. -/
theorem split_modelContribution {env : Environment} {graph : BuildGraph} {c : Contribution}
    {edge : Edge} (hedge : edge ∈ graph.edges) (h : modelContribution env graph = .ok c) :
    ∃ own before after, edgeContribution env.toolchain graph edge = .ok own ∧
      c.rules = before ++ own.rules ++ after := by
  simp only [modelContribution, bind_eq_ok_iff, pure_eq_ok_iff] at h
  obtain ⟨edges, hedges, rfl⟩ := h
  obtain ⟨own, before, after, hown, hrules⟩ := split_contributions hedges hedge
  refine ⟨own, (directoriesContribution env).rules ++ ((headContribution graph).rules ++ before),
    after ++ (tailContribution env graph).rules, hown, ?_⟩
  simp only [rules_append, hrules, List.append_assoc]

/-- **The rules that make a target of an edge** are those that the edge contributes, in their order. -/
theorem rulesOf_edge {env : Environment} {graph : BuildGraph} {c : Contribution} {edge : Edge}
    (hedge : edge ∈ graph.edges) (hc : modelContribution env graph = .ok c)
    (hfresh : Fresh .empty c.rules) :
    ∃ own, edgeContribution env.toolchain graph edge = .ok own ∧
      rulesOf (extend .empty c) edge = own.rules := by
  obtain ⟨own, before, after, hown, hrules⟩ := split_modelContribution hedge hc
  have hclaims := claims_edgeContribution hown
  refine ⟨own, hown, ?_⟩
  show c.rules.filter _ = own.rules
  rw [← hclaims.claims_eq, hrules]
  exact filter_claims hclaims.targets_ne_nil (hrules ▸ hfresh.nodup)

/-! ## Directories -/

/-- The directories of outputs other than their root itself: each once, where it comes first. -/
def outputDirectories (outputs : List RootedPath) : List RootedPath :=
  ((outputs.map RootedPath.parent).eraseDupsBy RootedPath.same).filter fun dir =>
    !decide (dir.Same ⟨dir.root, ⟨""⟩⟩)

/-- The file that stands for a directory, as a prerequisite. -/
def markOf (dir : RootedPath) : Piece :=
  .path (dir.join ".dir")

theorem directoryMarks_eq (outputs : List RootedPath) :
    directoryMarks outputs = (outputDirectories outputs).map markOf := by
  have hroot : ∀ dir : RootedPath,
      dir.isRootItself = decide (dir.Same ⟨dir.root, ⟨""⟩⟩) := fun dir => by
    rw [Bool.eq_iff_iff, decide_eq_true_iff, RootedPath.isRootItself_iff_same]
  unfold directoryMarks outputDirectories
  rw [distinct_eq_eraseDupsBy]
  congr 2
  exact funext fun dir => congrArg not (hroot dir)

/-- One output needs its directory, unless that is the root itself. -/
theorem directoryMarks_singleton (output : RootedPath) :
    directoryMarks [output] =
      if output.parent.Same ⟨output.root, ⟨""⟩⟩ then [] else [markOf output.parent] := by
  have hdirs : outputDirectories [output] =
      [output.parent].filter fun dir => !decide (dir.Same ⟨output.root, ⟨""⟩⟩) := rfl
  rw [directoryMarks_eq, hdirs]
  by_cases h : output.parent.Same ⟨output.root, ⟨""⟩⟩
  · simp [h]
  · simp [h]

/-! ## Calls -/

/-- Text without a dollar uses nothing. -/
theorem usedFrom_append_of_not_mem {cs : List Char} (h : '$' ∉ cs) (ds : List Char) :
    Make.usedFrom .text (cs ++ ds) = Make.usedFrom .text ds := by
  induction cs with
  | nil => rfl
  | cons c cs ih =>
      obtain ⟨hc, hcs⟩ := not_or.mp (mt List.mem_cons.mpr h)
      rw [List.cons_append, Make.usedFrom, if_neg fun heq => hc heq.symm, ih hcs]

/-- A name that no recipe can have is not the name of one. -/
theorem name_ne_sharedRecipe {name : String} (h : isRecipeName ⟨name⟩ = false) (stem : String) :
    name ≠ (sharedRecipe stem).name := by
  intro heq
  exact ne_sharedRecipe h stem (congrArg Variable.mk heq)

/-- No directory has a variable that is named like a recipe. -/
theorem hasRoots_ne_sharedRecipe (stem : String) :
    HasRoots fun name => name ≠ (sharedRecipe stem).name where
  comma := name_ne_sharedRecipe (by decide) stem
  root root name hname := by
    refine name_ne_sharedRecipe ?_ stem
    cases root <;> cases hname <;> decide

/-- **A call of a recipe** with text before it that uses nothing, and with nothing behind its name that
    uses the recipe once more, is its only use. -/
theorem count_usedNames_call {text name : String} (before : String) {arguments : List Char}
    (hplain : Make.isPlainName name = true) (hcomma : ',' ∉ name.toList)
    (hbefore : '$' ∉ before.toList) (hrest : UsesOnly (· ≠ name) arguments)
    (htext : text.toList =
      before.toList ++ ("$(call ".toList ++ (name.toList ++ ',' :: arguments))) :
    (usedNames text).count name = 1 := by
  have hchars : ∀ c ∈ name.toList, c ≠ ',' ∧ c ≠ ')' ∧ c ≠ '\x7d' := by
    intro c hc
    obtain ⟨-, -, hclose, -, hbrace, -⟩ := Make.ne_of_isPlainName hplain hc
    exact ⟨fun heq => hcomma (heq ▸ hc), hclose, hbrace⟩
  have hnames : usedNames text = name :: Make.usedFrom .text arguments := by
    rw [usedNames, htext, usedFrom_append_of_not_mem hbefore]
    show Make.usedFrom (.called []) (name.toList ++ ',' :: arguments) = _
    rw [Make.usedFrom_called name.toList hchars, List.nil_append, String.ofList_toList]
  have hnone : name ∉ Make.usedFrom .text arguments := by
    intro hmem
    exact hrest.mem_usedFrom name hmem rfl
  rw [hnames, List.count_cons_self, List.count_eq_zero_of_not_mem hnone]

/-- **The recipe of a link calls its macro once**, also where it touches a stamp. -/
theorem count_usedNames_linkRecipeOf {linker : Linker} (edge : LinkEdge)
    (hstem : linker.recipeStem ∈ recipeStems) :
    (usedNames (linkRecipeOf linker edge).render).count (sharedRecipe linker.recipeStem).name = 1 := by
  have hplain := isPlainName_sharedRecipe _ hstem
  have hcomma := comma_not_mem_sharedRecipe hstem
  have harguments := usesOnly_linkArguments edge (hasRoots_ne_sharedRecipe linker.recipeStem)
  have hcall := toList_render_linkCall edge hstem
  unfold linkRecipeOf
  cases edge.importLibrary with
  | none =>
      refine count_usedNames_call " ; " hplain hcomma (by decide) harguments ?_
      rw [← hcall, ← String.toList_append]
      simp only [Recipe.render, Call.toPiece, Piece.render_verbatim]
  | some library =>
      have hat : "@" ≠ (sharedRecipe linker.recipeStem).name :=
        name_ne_sharedRecipe (by decide) linker.recipeStem
      have htarget : UsesOnly (· ≠ (sharedRecipe linker.recipeStem).name)
          (Make.reference "@").toList := .reference (by decide) hat
      have htouch : UsesOnly (· ≠ (sharedRecipe linker.recipeStem).name)
          ("\n\t@touch ".toList ++ (Make.reference "@").toList) :=
        (UsesOnly.of_not_mem (by decide)).append htarget
      refine count_usedNames_call "\n\t" hplain hcomma (by decide) (harguments.append htouch) ?_
      have htext : (Command.words [.verbatim "@touch", (Variable.named "@").toPiece]).render =
          "@touch " ++ Make.reference "@" := by decide +kernel
      have hline : (Command.line (linkCall linker edge).toPiece).render =
          (linkCall linker edge).render := Piece.render_verbatim .shellLine _
      simp [Recipe.render, htext, hline, hcall]

/-- **The recipe of a compilation** is one use of its macro. -/
theorem count_usedNames_compileRecipe {stem : String} (hstem : stem ∈ recipeStems) :
    (usedNames (Recipe.shared (sharedRecipe stem).toPiece).render).count (sharedRecipe stem).name =
      1 := by
  have hread := Make.usedFrom_reference (isPlainName_sharedRecipe stem hstem) []
  have htext : (Recipe.shared (sharedRecipe stem).toPiece).render.toList =
      " ; ".toList ++ ((Make.reference (sharedRecipe stem).name).toList ++ []) := by
    simp [Recipe.render, Variable.toPiece]
  rw [usedNames, htext, usedFrom_append_of_not_mem (by decide), hread]
  exact List.count_cons_self

/-! ## What the rules hold -/

/-- **The rule that runs a link**: everything that the command needs stands on it, and it calls the
    recipe of its linker once. -/
structure RunsLink (linker : Linker) (edge : LinkEdge) (flags libs : List Piece) (rule : Rule) :
    Prop where
  targets : rule.targets = [.path (commandTarget edge)]
  deps : rule.deps = (edge.files ++ (edge.libs.filter (·.generated)).map (·.path) ++
    edge.extraDeps).map .path
  orderOnly : rule.orderOnly = (outputDirectories edge.outputs).map markOf
  overrides : rule.overrides =
    (if flags.isEmpty then []
      else [(flagsVariable linker.flagsStem, withGlobalFlags linker.flagsStem flags)]) ++
    (if edge.libs.isEmpty then []
      else linker.libsStem.toList.map fun name => (flagsVariable name, withGlobalFlags name libs))
  recipe : rule.recipe = some (linkRecipeOf linker edge)
  calls_once : (usedNames (linkRecipeOf linker edge).render).count
    (sharedRecipe linker.recipeStem).name = 1

/-- **The rule of two outputs** that one command makes: they wait for its stamp. -/
structure AwaitsStamp (edge : LinkEdge) (rule : Rule) : Prop where
  targets : rule.targets = edge.outputs.map .path
  deps : rule.deps = [.path (stamp edge)]
  orderOnly : rule.orderOnly = []
  overrides : rule.overrides = []
  recipe : rule.recipe = none

/-- **The rule of a compilation**: its source comes first, and its directory must be there. -/
structure RunsCompile (compiler : Compiler) (edge : CompileEdge) (rule : Rule) : Prop where
  targets : rule.targets = [.path edge.output]
  deps : rule.deps = .path edge.source :: edge.extraDeps.map .path
  orderOnly : rule.orderOnly =
    if edge.output.parent.Same ⟨edge.output.root, ⟨""⟩⟩ then [] else [markOf edge.output.parent]
  overrides : rule.overrides =
    if (compileFlags compiler edge).isEmpty then []
    else [(flagsVariable compiler.flagsStem,
      withGlobalFlags compiler.flagsStem (compileFlags compiler edge))]
  recipe : rule.recipe = some (.shared (sharedRecipe compiler.recipeStem).toPiece)
  calls_once : (usedNames (Recipe.shared (sharedRecipe compiler.recipeStem).toPiece).render).count
    (sharedRecipe compiler.recipeStem).name = 1

/-- What a model has for a link edge: one rule that runs it, behind the rule of the two outputs if there
    are two, and the recipe that is called. -/
def HasLink (m : Makefile) (tools : Toolchain) (edge : LinkEdge) : Prop :=
  ∃ linker flags libs rule,
    tools.linker edge.lang edge.mode = .ok linker ∧ linkFlags linker edge = .ok flags ∧
    libsOf linker edge = .ok libs ∧ RunsLink linker edge flags libs rule ∧
    (edge.importLibrary = none → rulesOf m (.link edge) = [rule]) ∧
    (edge.importLibrary ≠ none →
      ∃ outputs, AwaitsStamp edge outputs ∧ rulesOf m (.link edge) = [outputs, rule]) ∧
    m.defines.find? (sharedRecipe linker.recipeStem) = some (linkLines linker)

/-- What a model has for a compile edge: the one rule that runs it, and the recipe that it uses. -/
def HasCompile (m : Makefile) (tools : Toolchain) (edge : CompileEdge) : Prop :=
  ∃ compiler rule, tools.compiler edge.lang = .ok compiler ∧ RunsCompile compiler edge rule ∧
    rulesOf m (.compile edge) = [rule] ∧
    m.defines.find? (sharedRecipe compiler.recipeStem) = some (compileLines compiler)

/-- The variables of a link are those with its flags and with its libraries, if there are any. -/
theorem linkVariables_eq (linker : Linker) (edge : LinkEdge) (flags libs : List Piece) :
    linkVariables linker edge flags libs =
      (if flags.isEmpty then []
        else [(flagsVariable linker.flagsStem, withGlobalFlags linker.flagsStem flags)]) ++
      (if edge.libs.isEmpty then []
        else linker.libsStem.toList.map fun name => (flagsVariable name, withGlobalFlags name libs)) := by
  unfold linkVariables
  cases linker.libsStem with
  | none => simp
  | some name => simp

/-- The rules of a link: the last one runs it. -/
theorem linkRules_cases {linker : Linker} (edge : LinkEdge) (flags libs : List Piece)
    (hstem : linker.recipeStem ∈ recipeStems) :
    ∃ rule, RunsLink linker edge flags libs rule ∧
      (edge.importLibrary = none →
        linkRules linker edge (linkVariables linker edge flags libs) = [rule]) ∧
      (edge.importLibrary ≠ none → ∃ outputs, AwaitsStamp edge outputs ∧
        linkRules linker edge (linkVariables linker edge flags libs) = [outputs, rule]) := by
  refine ⟨{
    targets := [.path (commandTarget edge)]
    deps := (linkDeps edge).map .path
    orderOnly := directoryMarks edge.outputs
    overrides := linkVariables linker edge flags libs
    recipe := some (linkRecipeOf linker edge) }, ?_, ?_, ?_⟩
  · exact ⟨rfl, rfl, directoryMarks_eq _, linkVariables_eq linker edge flags libs, rfl,
      count_usedNames_linkRecipeOf edge hstem⟩
  · intro hone
    simp only [linkRules, commandTarget, linkRecipeOf, hone]
  · intro htwo
    obtain ⟨library, hlibrary⟩ := Option.ne_none_iff_exists'.mp htwo
    refine ⟨{ targets := edge.outputs.map .path, deps := [.path (stamp edge)] },
      ⟨rfl, rfl, rfl, rfl, rfl⟩, ?_⟩
    simp only [linkRules, commandTarget, linkRecipeOf, hlibrary]

theorem runsCompile_compileRule {compiler : Compiler} (edge : CompileEdge)
    (hstem : compiler.recipeStem ∈ recipeStems) :
    RunsCompile compiler edge (compileRule compiler edge) :=
  ⟨rfl, rfl, directoryMarks_singleton _, rfl, rfl, count_usedNames_compileRecipe hstem⟩

/-! ## The main result -/

section Generation

variable {env : Environment} {graph : BuildGraph} {c : Contribution}

theorem hasLink_modelContribution {edge : LinkEdge} (hedge : .link edge ∈ graph.edges)
    (hc : modelContribution env graph = .ok c) (hfresh : Fresh .empty c.rules) :
    HasLink (extend .empty c) env.toolchain edge := by
  obtain ⟨own, hown, hrules⟩ := rulesOf_edge hedge hc hfresh
  simp only [edgeContribution, linkContribution, bind_eq_ok_iff, pure_eq_ok_iff] at hown
  obtain ⟨linker, hlinker, flags, hflags, libs, hlibs, rfl⟩ := hown
  obtain ⟨rule, hrule, hone, htwo⟩ :=
    linkRules_cases edge flags libs (linker_recipeStem_mem hlinker)
  refine ⟨linker, flags, libs, rule, hlinker, hflags, hlibs, hrule, ?_, ?_,
    find?_linkLines hlinker hedge hc⟩
  · intro hnone
    exact hrules.trans (hone hnone)
  · intro hsome
    obtain ⟨outputs, houtputs, heq⟩ := htwo hsome
    exact ⟨outputs, houtputs, hrules.trans heq⟩

theorem hasCompile_modelContribution {edge : CompileEdge} (hedge : .compile edge ∈ graph.edges)
    (hc : modelContribution env graph = .ok c) (hfresh : Fresh .empty c.rules) :
    HasCompile (extend .empty c) env.toolchain edge := by
  obtain ⟨own, hown, hrules⟩ := rulesOf_edge hedge hc hfresh
  simp only [edgeContribution, bind_eq_ok_iff, pure_eq_ok_iff] at hown
  obtain ⟨compiler, hcompiler, rfl⟩ := hown
  exact ⟨compiler, compileRule compiler edge, hcompiler,
    runsCompile_compileRule edge (compiler_recipeStem_mem hcompiler), hrules,
    find?_compileLines hcompiler hedge hc⟩

/-- **Every edge has its command on one rule.** In every Makefile that is generated, one rule runs each
    link and each compilation, and it has the prerequisites, the directories and the variables that the
    command needs; of the rules that make a target of the edge only one can stand beside it, which
    makes two outputs wait for their stamp. -/
theorem rulesOf_generate {products : Products} (hproducts : generate env graph = .ok products) :
    ∃ m, modelWith usualHandlers env graph = .ok m ∧ products.makefile = m.render ∧
      (∀ edge, .link edge ∈ graph.edges → HasLink m env.toolchain edge) ∧
      (∀ edge, .compile edge ∈ graph.edges → HasCompile m env.toolchain edge) := by
  obtain ⟨m, hm, rfl⟩ := generate_eq_ok_iff.mp hproducts
  obtain ⟨c, hc, hfresh, rfl⟩ := modelWith_eq_ok_iff.mp hm
  refine ⟨_, hm, rfl, ?_, ?_⟩
  · intro edge hedge
    exact hasLink_modelContribution hedge hc hfresh
  · intro edge hedge
    exact hasCompile_modelContribution hedge hc hfresh

end Generation

/-- A shared library and its import library in two directories. -/
def importingEdge : LinkEdge where
  output := .build "bin/a.dll"
  importLibrary := some (.build "lib/a.lib")
  mode := .sharedLibrary
  lang := "c"
  files := [.build "obj/a.obj"]
  libs := [⟨.static, .build "lib/b.lib", true⟩, ⟨.static, .build "c.lib", false⟩]
  extraDeps := [.build "a.def"]

/-- The object that goes into it, in a third directory. -/
def importedObject : CompileEdge where
  output := .build "obj/a.obj"
  source := ⟨.source, ⟨"a.c"⟩⟩
  lang := "c"

/-- Microsoft's linker runs for the stamp, and each directory is made before the tool that needs it. -/
theorem rulesOf_importingEdge :
    ∃ (products : Products) (m : Makefile) (outputs rule object : Rule),
      generate { (default : Environment) with platform := .windows, family := .msvc }
        { (default : BuildGraph) with edges := [.compile importedObject, .link importingEdge] } =
          .ok products ∧
      products.makefile = m.render ∧
      rulesOf m (.link importingEdge) = [outputs, rule] ∧ outputs.recipe.isNone = true ∧
      outputs.overrides = [] ∧ rule.targets = [.path (.build "bin/a.dll.stamp")] ∧
      rule.deps = [.path (.build "obj/a.obj"), .path (.build "lib/b.lib"), .path (.build "a.def")] ∧
      rule.orderOnly = [.path (.build "bin/.dir"), .path (.build "lib/.dir")] ∧
      rulesOf m (.compile importedObject) = [object] ∧
      object.orderOnly = [.path (.build "obj/.dir")] := by
  have haccepted : Accepted { (default : Environment) with platform := .windows, family := .msvc }
      { (default : BuildGraph) with edges := [.compile importedObject, .link importingEdge] } := by
    have hb : (RootedPath.build "lib/b.lib").fileName? = some "b.lib" := by decide +kernel
    have hc : (RootedPath.build "c.lib").fileName? = some "c.lib" := by decide +kernel
    exact ⟨by simp [EdgeAccepted, importingEdge, importedObject, Library.Nameable, hb, hc],
      by decide +kernel⟩
  obtain ⟨products, hproducts⟩ := haccepted.generate_succeeds
  obtain ⟨m, -, hrender, hlinks, hcompiles⟩ := rulesOf_generate hproducts
  obtain ⟨linker, flags, libs, rule, -, -, -, hrule, -, htwo, -⟩ :=
    hlinks importingEdge (List.mem_cons_of_mem _ List.mem_cons_self)
  obtain ⟨outputs, houtputs, hrules⟩ := htwo (by decide)
  obtain ⟨compiler, object, -, hobject, hcompile, -⟩ := hcompiles importedObject List.mem_cons_self
  have hdirs : outputDirectories importingEdge.outputs = [.build "bin", .build "lib"] := by
    decide +kernel
  have hstamp : commandTarget importingEdge = .build "bin/a.dll.stamp" := by decide +kernel
  refine ⟨products, m, outputs, rule, object, hproducts, hrender, hrules, ?_, houtputs.overrides, ?_,
    hrule.deps, ?_, hcompile, ?_⟩
  · rw [houtputs.recipe]
    rfl
  · rw [hrule.targets, hstamp]
  · rw [hrule.orderOnly, hdirs]
    rfl
  · rw [hobject.orderOnly, if_neg (by decide +kernel)]
    rfl

end MakeGraph.Generate
