import MakeGraph.Proofs.Generate.Declarations

/-!
# `Proofs.Generate.SharedRecipes` — what the shared recipe of a linker holds

The recipe of a linker is defined by the first edge that needs it, so what a rule calls may have been
defined for another edge. This makes no difference: no other kind of variable has a name like a
recipe's, and linkers whose recipes have one name have the same recipe
(`linkLines_eq_of_recipeStem_eq`). So every link of an accepted description finds its own recipe in
the model (`find?_linkLines`).

## Contents

* `Reserved` — the invariant of the declarations one by one: nothing else takes the name
* `SoleRecipe` — a name that stands for one recipe, whatever tool declares it
* `agrees_modelContribution`, `find?_sharedRecipe` — the declarations of a whole generation
-/

namespace MakeGraph.Generate

open Make (Command Error Makefile Variable)
open Outcome

/-! ## Reserved names -/

section Reserved

/-- A declaration that neither gives the name of a recipe to a variable nor other lines to the
    recipe. -/
def Agrees (v : Variable) (lines : List Command) : Declaration → Prop
  | .global w _ => w ≠ v
  | .wildcard _ _ => True
  | .recipe w others program _ => program ≠ v ∧ (w = v → others = lines)

/-- A model in which a name is free or that of a recipe with given lines. -/
structure Reserved (v : Variable) (lines : List Command) (m : Makefile) : Prop where
  not_global : v ∉ m.globals.keys
  defined_eq : ∀ others, m.defines.find? v = some others → others = lines

variable {v : Variable} {lines : List Command} {m : Makefile} {d : Declaration}

theorem reserved_empty (hv : v ≠ ⟨","⟩) : Reserved v lines .empty :=
  ⟨fun h => hv (List.mem_singleton.mp h), fun _ h => by cases h⟩

theorem defines_adoptGlobal (m : Makefile) (w : Variable) (value : Command) :
    (adoptGlobal m w value).defines = m.defines := by
  unfold adoptGlobal
  split <;> rfl

theorem mem_globals_adoptGlobal {w x : Variable} {value : Command}
    (h : x ∈ (adoptGlobal m w value).globals.keys) : x ∈ m.globals.keys ∨ x = w := by
  unfold adoptGlobal at h
  split at h
  · exact .inl h
  · rw [Table.keys_append] at h
    exact (List.mem_append.mp h).imp_right List.mem_singleton.mp

/-- **One declaration** keeps a name reserved that it agrees with. -/
theorem Reserved.adopt (h : Reserved v lines m) (hd : Agrees v lines d) :
    Reserved v lines (adopt m d) := by
  have hglobal : ∀ {w : Variable} (value : Command), w ≠ v →
      v ∉ (adoptGlobal m w value).globals.keys := fun _ hw hmem =>
    (mem_globals_adoptGlobal hmem).elim h.not_global fun heq => hw heq.symm
  cases d with
  | global w value =>
      refine ⟨hglobal value hd, ?_⟩
      rw [Generate.adopt, defines_adoptGlobal]
      exact h.defined_eq
  | wildcard w value =>
      show Reserved v lines (adoptWildcard m w value)
      unfold adoptWildcard
      split
      · exact h
      · exact ⟨h.not_global, h.defined_eq⟩
  | recipe w others program command =>
      show Reserved v lines (adoptRecipe m w others program command)
      unfold adoptRecipe
      split
      · exact h
      · refine ⟨hglobal command hd.1, fun found hfound => ?_⟩
        rw [defines_adoptGlobal, Table.find?_append, Option.or_eq_some_iff] at hfound
        rcases hfound with hfound | ⟨-, hfound⟩
        · exact h.defined_eq found hfound
        · split at hfound
          · next hw => rw [← Option.some.inj hfound, hd.2 hw]
          · cases hfound

/-- What is defined stays defined. -/
theorem find?_defines_adopt (d : Declaration) (h : m.defines.find? v = some lines) :
    (adopt m d).defines.find? v = some lines := by
  cases d with
  | global w value =>
      rw [adopt, defines_adoptGlobal]
      exact h
  | wildcard w value =>
      show (adoptWildcard m w value).defines.find? v = some lines
      unfold adoptWildcard
      split <;> exact h
  | recipe w others program command =>
      show (adoptRecipe m w others program command).defines.find? v = some lines
      unfold adoptRecipe
      split
      · exact h
      · rw [defines_adoptGlobal, Table.find?_append, h]
        rfl

/-- A recipe is there when it has been declared. -/
theorem find?_defines_adopt_recipe (h : Reserved v lines m) (program : Variable)
    (command : Command) : (adopt m (.recipe v lines program command)).defines.find? v = some lines := by
  show (adoptRecipe m v lines program command).defines.find? v = some lines
  unfold adoptRecipe
  split
  · next hdeclared =>
      -- the name is taken, and by what else than a recipe with these lines
      have hcontains : m.defines.contains v = true := by
        cases hc : m.defines.contains v with
        | true => rfl
        | false =>
            rw [Makefile.declares_none_eq_false_iff.mpr ⟨h.not_global, fun hmem => by
              rw [← Table.contains_iff, hc] at hmem
              cases hmem⟩] at hdeclared
            cases hdeclared
      obtain ⟨others, hothers⟩ := Option.isSome_iff_exists.mp hcontains
      rw [hothers, h.defined_eq others hothers]
  · next hfree =>
      have hnone : m.defines.find? v = none := by
        have hkeys := (Makefile.declares_none_eq_false_iff.mp (Bool.eq_false_iff.mpr hfree)).2
        rw [← Table.contains_iff] at hkeys
        exact Option.not_isSome_iff_eq_none.mp hkeys
      rw [defines_adoptGlobal, Table.find?_append, hnone, if_pos rfl]
      rfl

/-- **A recipe among declarations that agree with it** is found in the model that they make, wherever
    it stands among them. -/
theorem find?_defines_adoptAll {ds : List Declaration} {program : Variable} {command : Command}
    (h : Reserved v lines m) (hds : ∀ d ∈ ds, Agrees v lines d)
    (hmem : .recipe v lines program command ∈ ds) :
    (adoptAll m ds).defines.find? v = some lines := by
  have hkeep : ∀ (ds : List Declaration) (m : Makefile), m.defines.find? v = some lines →
      (adoptAll m ds).defines.find? v = some lines := by
    intro ds
    induction ds with
    | nil => exact fun m h => h
    | cons d ds ih => exact fun m h => ih (adopt m d) (find?_defines_adopt d h)
  induction ds generalizing m with
  | nil => exact absurd hmem List.not_mem_nil
  | cons d ds ih =>
      obtain ⟨hd, hds⟩ := List.forall_mem_cons.mp hds
      rcases List.mem_cons.mp hmem with rfl | hmem
      · exact hkeep ds _ (find?_defines_adopt_recipe h program command)
      · exact ih (h.adopt hd) hds hmem

end Reserved

/-! ## Recipes of one name -/

section Tools

variable {tools : Toolchain}

/-- What the shared recipes of all tools are named after. -/
def recipeStems : List String :=
  ["cc", "cxx", "ar", "link_cc", "link_cxx", "lib", "link"]

theorem sharedRecipe_injective :
    ∀ stem ∈ recipeStems, ∀ stem' ∈ recipeStems,
      sharedRecipe stem = sharedRecipe stem' → stem = stem' := by
  decide +kernel

theorem linker_recipeStem_mem {lang : String} {mode : LinkMode} {linker : Linker}
    (h : tools.linker lang mode = .ok linker) : linker.recipeStem ∈ recipeStems := by
  obtain ⟨language, -, ⟨-, -, rfl⟩ | ⟨-, -, rfl⟩ | ⟨-, -, rfl⟩ | ⟨-, -, rfl⟩⟩ := linker_ok h
  · simp [Linker.ar, recipeStems]
  · cases language <;> simp [Linker.cc, recipeStems]
  · simp [Linker.msvcLib, recipeStems]
  · simp [Linker.msvc, recipeStems]

theorem compiler_recipeStem_mem {lang : String} {compiler : Compiler}
    (h : tools.compiler lang = .ok compiler) : compiler.recipeStem ∈ recipeStems := by
  obtain ⟨language, -, ⟨-, rfl⟩ | ⟨-, rfl⟩⟩ := compiler_ok h
  · cases language <;> simp [Compiler.cc, Compiler.driverVar, recipeStems]
  · simp [Compiler.msvc, recipeStems]

/-- The lines of the shared recipe of a linker. -/
def linkLines (linker : Linker) : List Command :=
  linkRecipe linker (programVariable linker.programStem)

/-- The lines of the shared recipe of a compiler. -/
def compileLines (compiler : Compiler) : List Command :=
  compileRecipe compiler (programVariable compiler.programStem)

/-- **Linkers whose recipes have one name** have the same recipe: what tells linkers of one name apart
    are the flags of single binaries. -/
theorem linkLines_eq_of_recipeStem_eq {lang lang' : String} {mode mode' : LinkMode}
    {linker linker' : Linker} (h : tools.linker lang mode = .ok linker)
    (h' : tools.linker lang' mode' = .ok linker') (hstem : linker.recipeStem = linker'.recipeStem) :
    linkLines linker = linkLines linker' := by
  obtain ⟨language, -, ⟨hf, -, rfl⟩ | ⟨hf, -, rfl⟩ | ⟨hf, -, rfl⟩ | ⟨hf, -, rfl⟩⟩ := linker_ok h
  all_goals
    obtain ⟨language', -, ⟨hf', -, rfl⟩ | ⟨hf', -, rfl⟩ | ⟨hf', -, rfl⟩ | ⟨hf', -, rfl⟩⟩ :=
      linker_ok h'
  -- linkers of two families never meet; in one family the stem tells the kinds apart
  all_goals first
    | exact absurd (hf.symm.trans hf') (by decide)
    | rfl
    | cases language <;> cases language' <;> first
      | rfl
      | simp [Linker.ar, Linker.cc, Linker.msvc, Linker.msvcLib] at hstem

/-- A compile recipe is not named like a link recipe. -/
theorem compiler_recipeStem_ne {lang lang' : String} {mode : LinkMode} {compiler : Compiler}
    {linker : Linker} (h : tools.compiler lang = .ok compiler)
    (h' : tools.linker lang' mode = .ok linker) : compiler.recipeStem ≠ linker.recipeStem := by
  intro hstem
  obtain ⟨language, -, ⟨-, rfl⟩ | ⟨-, rfl⟩⟩ := compiler_ok h
  all_goals
    obtain ⟨language', -, ⟨-, -, rfl⟩ | ⟨-, -, rfl⟩ | ⟨-, -, rfl⟩ | ⟨-, -, rfl⟩⟩ := linker_ok h'
  all_goals
    cases language <;> cases language' <;>
      simp [Compiler.cc, Compiler.msvc, Compiler.driverVar, Linker.ar, Linker.cc, Linker.msvc,
        Linker.msvcLib] at hstem

/-- **The one recipe of a name**: every tool whose recipe is named after `stem` has these lines. -/
structure SoleRecipe (tools : Toolchain) (stem : String) (lines : List Command) : Prop where
  mem_stems : stem ∈ recipeStems
  of_compiler : ∀ {lang : String} {compiler : Compiler}, tools.compiler lang = .ok compiler →
    compiler.recipeStem = stem → compileLines compiler = lines
  of_linker : ∀ {lang : String} {mode : LinkMode} {linker : Linker},
    tools.linker lang mode = .ok linker → linker.recipeStem = stem → linkLines linker = lines

/-- **Compilers with one name** for their recipes or for their flags are one compiler. -/
theorem compiler_eq_of_stem_eq {lang lang' : String} {compiler compiler' : Compiler}
    (h : tools.compiler lang = .ok compiler) (h' : tools.compiler lang' = .ok compiler')
    (hstem : compiler.recipeStem = compiler'.recipeStem ∨ compiler.flagsStem = compiler'.flagsStem) :
    compiler = compiler' := by
  obtain ⟨language, -, ⟨hf, rfl⟩ | ⟨hf, rfl⟩⟩ := compiler_ok h
  all_goals obtain ⟨language', -, ⟨hf', rfl⟩ | ⟨hf', rfl⟩⟩ := compiler_ok h'
  all_goals first
    | exact absurd (hf.symm.trans hf') (by decide)
    | rfl
    | cases language <;> cases language' <;> first
      | rfl
      | simp [Compiler.cc, Compiler.driverVar] at hstem

/-- The recipe of a compiler is the only one of its name. -/
theorem soleRecipe_compiler {lang : String} {compiler : Compiler}
    (h : tools.compiler lang = .ok compiler) :
    SoleRecipe tools compiler.recipeStem (compileLines compiler) where
  mem_stems := compiler_recipeStem_mem h
  of_compiler hother hstem := congrArg compileLines (compiler_eq_of_stem_eq hother h (.inl hstem))
  of_linker hlinker hstem := absurd hstem.symm (compiler_recipeStem_ne h hlinker)

/-- The recipe of a linker is the only one of its name. -/
theorem soleRecipe_linker {lang : String} {mode : LinkMode} {linker : Linker}
    (h : tools.linker lang mode = .ok linker) :
    SoleRecipe tools linker.recipeStem (linkLines linker) where
  mem_stems := linker_recipeStem_mem h
  of_compiler hcompiler hstem := absurd hstem (compiler_recipeStem_ne hcompiler h)
  of_linker hother hstem := linkLines_eq_of_recipeStem_eq hother h hstem

end Tools

/-! ## The declarations of a generation -/

section Generation

variable {env : Environment} {graph : BuildGraph} {stem : String} {lines : List Command}

theorem agrees_flagsDeclarations (stem : String) (lines : List Command) (name : String)
    (flags : List String) :
    ∀ d ∈ flagsDeclarations name flags, Agrees (sharedRecipe stem) lines d := by
  intro d hd
  simp only [flagsDeclarations, List.mem_cons, List.not_mem_nil, or_false] at hd
  rcases hd with rfl | rfl
  · exact ne_sharedRecipe (isRecipeName_globalFlagsVariable name) stem
  · exact trivial

/-- **What a tool declares** agrees with the one recipe of any name. -/
theorem agrees_of_toolDeclaration {tools : Toolchain} (hsole : SoleRecipe tools stem lines)
    {d : Declaration} (h : ToolDeclaration tools d) : Agrees (sharedRecipe stem) lines d := by
  cases h with
  | flags hstem hd => exact agrees_flagsDeclarations _ _ _ _ d hd
  | compiler h =>
      refine ⟨ne_sharedRecipe (isRecipeName_compilerProgram h) _, fun hname => ?_⟩
      exact hsole.of_compiler h (sharedRecipe_injective _ (compiler_recipeStem_mem h) _
        hsole.mem_stems hname)
  | linker h =>
      refine ⟨ne_sharedRecipe (isRecipeName_linkerProgram h) _, fun hname => ?_⟩
      exact hsole.of_linker h (sharedRecipe_injective _ (linker_recipeStem_mem h) _
        hsole.mem_stems hname)

/-- **All declarations of a generation** agree with the one recipe of any name. -/
theorem agrees_modelContribution {c : Contribution} (hsole : SoleRecipe env.toolchain stem lines)
    (h : modelContribution env graph = .ok c) :
    ∀ d ∈ c.declarations, Agrees (sharedRecipe stem) lines d := by
  intro d hd
  rcases declaration_cases h hd with ⟨root, hroot⟩ | ⟨kind, hd⟩ | htool
  · obtain ⟨value, rfl⟩ := directoryDeclaration?_eq_some hroot
    refine ne_sharedRecipe ?_ stem
    cases root <;> decide
  · simp only [installDeclarations, List.mem_cons, List.not_mem_nil, or_false] at hd
    rcases hd with rfl | rfl
    · exact ne_sharedRecipe (by decide +kernel) stem
    · refine ne_sharedRecipe ?_ stem
      cases kind <;> decide +kernel
  · exact agrees_of_toolDeclaration hsole htool

/-- **A recipe that is declared and the only one of its name** is what the model defines. -/
theorem find?_sharedRecipe {c : Contribution} {program : Variable} {command : Command}
    (hsole : SoleRecipe env.toolchain stem lines) (h : modelContribution env graph = .ok c)
    (hmem : .recipe (sharedRecipe stem) lines program command ∈ c.declarations) :
    (extend .empty c).defines.find? (sharedRecipe stem) = some lines := by
  have hcomma : sharedRecipe stem ≠ ⟨","⟩ := (ne_sharedRecipe (by decide) stem).symm
  exact find?_defines_adoptAll (reserved_empty hcomma) (agrees_modelContribution hsole h) hmem

/-- **Every link finds the recipe of its linker** in the model. -/
theorem find?_linkLines {linker : Linker} {edge : LinkEdge} {c : Contribution}
    (hlinker : env.toolchain.linker edge.lang edge.mode = .ok linker)
    (hedge : .link edge ∈ graph.edges) (h : modelContribution env graph = .ok c) :
    (extend .empty c).defines.find? (sharedRecipe linker.recipeStem) = some (linkLines linker) := by
  obtain ⟨own, hown, hdeclared, -⟩ := mem_modelContribution hedge h
  have hmem : recipeDeclaration linker.recipeStem (linkRecipe linker) linker.programStem
      linker.program ∈ own.declarations := by
    simp only [edgeContribution, linkContribution, bind_eq_ok_iff, pure_eq_ok_iff, hlinker] at hown
    obtain ⟨other, hother, flags, -, libs, -, rfl⟩ := hown
    obtain rfl := Except.ok.inj hother
    exact List.mem_append_right _ (List.mem_singleton.mpr rfl)
  exact find?_sharedRecipe (soleRecipe_linker hlinker) h (hdeclared hmem)

/-- **Every compilation finds the recipe of its compiler** in the model. -/
theorem find?_compileLines {compiler : Compiler} {edge : CompileEdge} {c : Contribution}
    (hcompiler : env.toolchain.compiler edge.lang = .ok compiler)
    (hedge : .compile edge ∈ graph.edges) (h : modelContribution env graph = .ok c) :
    (extend .empty c).defines.find? (sharedRecipe compiler.recipeStem) =
      some (compileLines compiler) := by
  obtain ⟨own, hown, hdeclared, -⟩ := mem_modelContribution hedge h
  have hmem : compilerRecipe compiler ∈ own.declarations := by
    simp only [edgeContribution, bind_eq_ok_iff, pure_eq_ok_iff, hcompiler] at hown
    obtain ⟨other, hother, rfl⟩ := hown
    obtain rfl := Except.ok.inj hother
    exact List.mem_append_right _ (List.mem_singleton.mpr rfl)
  exact find?_sharedRecipe (soleRecipe_compiler hcompiler) h (hdeclared hmem)

end Generation

end MakeGraph.Generate
