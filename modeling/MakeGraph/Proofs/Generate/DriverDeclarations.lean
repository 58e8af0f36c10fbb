import MakeGraph.Proofs.Generate.DeclarationOrder

/-!
# `Proofs.Generate.DriverDeclarations` — the declarations of the compiler drivers agree

A shared variable holds what the first edge that needs it offers, and a shared recipe is written along
with the variable of its program. So the order of the edges could matter in two ways: edges could offer
different values for one name, and a recipe could take a name that a variable needs. With the compiler
drivers neither happens: all offers are entries of one table in which every name stands once
(`ccGlobals`, `ccRecipes`).

## Contents

* `ccGlobals`, `ccRecipes` — all variables and recipes of the compiler drivers
* `CcDeclaration`, `ccDeclaration_of_mem` — the declarations of a generation are among them
* `compatible_of_ccDeclaration` — any two of them agree
-/

namespace MakeGraph.Generate

open Make (Command Piece Variable)
open Outcome

/-! ## The declarations of the compiler drivers -/

section Drivers

variable (env : Environment) (graph : BuildGraph)

/-- **All global variables** that a generation with compiler drivers may declare, each once. -/
def ccGlobals : Table Variable Command :=
  (Root.anchored.map fun root => (⟨root.name⟩, .line ((rootValue? env root).getD (.plain "")))) ++
    [(.named "INSTALL", .line (.plain "install")),
      (.named "INSTALL_PROGRAM",
        .line (.join [(Variable.named "INSTALL").toPiece, .plain (" -m " ++ "755")])),
      (.named "INSTALL_DATA",
        .line (.join [(Variable.named "INSTALL").toPiece, .plain (" -m " ++ "644")])),
      (globalFlagsVariable "cflags",
        .words (Piece.plainTexts (globalCompileFlags (.cc .c env.tools) graph "c"))),
      (globalFlagsVariable "cxxflags",
        .words (Piece.plainTexts (globalCompileFlags (.cc .cxx env.tools) graph "c++"))),
      (globalFlagsVariable "ldflags",
        .words (Piece.plainTexts (env.tools.ldflags ++ graph.globalLinkOptions))),
      (globalFlagsVariable "ldlibs", .words (Piece.plainTexts env.tools.ldlibs)),
      (globalFlagsVariable "arflags", .words (Piece.plainTexts env.tools.arflags)),
      (programVariable "cc", .line (.plain env.tools.cc)),
      (programVariable "cxx", .line (.plain env.tools.cxx)),
      (programVariable "ar", .line (.plain env.tools.ar))]

/-- **All recipes** that a generation with compiler drivers may define, each once. -/
def ccRecipes : List Declaration :=
  [compilerRecipe (.cc .c env.tools), compilerRecipe (.cc .cxx env.tools),
    linkerRecipe (.ar env.tools), linkerRecipe (.cc .c .executable env.platform env.tools),
    linkerRecipe (.cc .cxx .executable env.platform env.tools)]

/-- The name of a declaration. -/
def Declaration.name : Declaration → Variable
  | .global v _ | .wildcard v _ | .recipe v _ _ _ => v

theorem nodup_ccGlobals : (ccGlobals env graph).keys.Nodup := by
  show (Root.anchored.map (fun root => (⟨root.name⟩ : Variable)) ++
    [Variable.named "INSTALL", .named "INSTALL_PROGRAM", .named "INSTALL_DATA",
      globalFlagsVariable "cflags", globalFlagsVariable "cxxflags", globalFlagsVariable "ldflags",
      globalFlagsVariable "ldlibs", globalFlagsVariable "arflags", programVariable "cc",
      programVariable "cxx", programVariable "ar"]).Nodup
  decide +kernel

theorem isRecipeName_ccGlobals : ∀ v ∈ (ccGlobals env graph).keys, isRecipeName v = false := by
  show ∀ v ∈ Root.anchored.map (fun root => (⟨root.name⟩ : Variable)) ++
    [Variable.named "INSTALL", .named "INSTALL_PROGRAM", .named "INSTALL_DATA",
      globalFlagsVariable "cflags", globalFlagsVariable "cxxflags", globalFlagsVariable "ldflags",
      globalFlagsVariable "ldlibs", globalFlagsVariable "arflags", programVariable "cc",
      programVariable "cxx", programVariable "ar"], isRecipeName v = false
  decide +kernel

theorem nodup_ccRecipes : ((ccRecipes env).map Declaration.name).Nodup := by
  show [sharedRecipe "cc", sharedRecipe "cxx", sharedRecipe "ar", sharedRecipe "link_cc",
    sharedRecipe "link_cxx"].Nodup
  decide +kernel

variable {env graph}

/-- What a generation with compiler drivers declares. -/
inductive CcDeclaration (env : Environment) (graph : BuildGraph) : Declaration → Prop
  | global {v : Variable} {value : Command} (h : (v, value) ∈ ccGlobals env graph) :
      CcDeclaration env graph (.global v value)
  | wildcard {stem : String} (hstem : stem ∈ flagsStems) :
      CcDeclaration env graph
        (.wildcard (flagsVariable stem) (.words [(globalFlagsVariable stem).toPiece]))
  | recipe {d : Declaration} (h : d ∈ ccRecipes env) : CcDeclaration env graph d

theorem ccDeclaration_flags {stem : String} {texts : List String} (hstem : stem ∈ flagsStems)
    (hglobal : (globalFlagsVariable stem, .words (Piece.plainTexts texts)) ∈ ccGlobals env graph) :
    ∀ d ∈ flagsDeclarations stem texts, CcDeclaration env graph d := by
  intro d hd
  rcases List.mem_pair.mp hd with rfl | rfl
  · exact .global hglobal
  · exact .wildcard hstem

/-- The declarations of a compilation. -/
theorem ccDeclaration_compile {compiler : Compiler} {edge : CompileEdge} (hfamily : env.family = .cc)
    (h : env.toolchain.compiler edge.lang = .ok compiler) :
    ∀ d ∈ (compileContribution graph compiler edge).declarations, CcDeclaration env graph d := by
  have hstem := compiler_flagsStem_mem h
  obtain ⟨language, hlanguage, ⟨-, rfl⟩ | ⟨hother, -⟩⟩ := compiler_ok h
  · -- the language chooses the compiler and the options of the whole build together
    refine List.forall_mem_append.mpr ⟨ccDeclaration_flags hstem ?_, List.forall_mem_singleton.mpr ?_⟩
    · rcases language_cases hlanguage with ⟨hlang, rfl⟩ | ⟨hlang, rfl⟩
      · rw [hlang]
        exact List.mem_append_right _ (by simp [Compiler.cc, Environment.toolchain])
      · rw [hlang]
        exact List.mem_append_right _ (by simp [Compiler.cc, Environment.toolchain])
    · refine .recipe ?_
      cases language with
      | c => exact List.mem_cons_self
      | cxx => exact List.mem_cons_of_mem _ List.mem_cons_self
  · exact absurd (hfamily.symm.trans hother) (by decide)

/-- The declarations of a link. -/
theorem ccDeclaration_link {lang : String} {mode : LinkMode} {linker : Linker}
    (hfamily : env.family = .cc) (h : env.toolchain.linker lang mode = .ok linker) :
    ∀ d ∈ linkDeclarations graph linker mode, CcDeclaration env graph d := by
  obtain ⟨hflags, -, -⟩ := linker_stems_mem h
  obtain ⟨language, -, ⟨-, rfl, rfl⟩ | ⟨-, hmode, rfl⟩ | ⟨hother, -⟩ | ⟨hother, -⟩⟩ := linker_ok h
  · refine List.forall_mem_append.mpr ⟨List.forall_mem_append.mpr
      ⟨ccDeclaration_flags hflags ?_, fun d hd => absurd hd List.not_mem_nil⟩,
      List.forall_mem_singleton.mpr (.recipe ?_)⟩
    · exact List.mem_append_right _ (by simp [Linker.ar, globalLinkFlags, Environment.toolchain])
    · exact List.mem_cons_of_mem _ (List.mem_cons_of_mem _ List.mem_cons_self)
  · refine List.forall_mem_append.mpr ⟨List.forall_mem_append.mpr
      ⟨ccDeclaration_flags hflags ?_, ccDeclaration_flags (by decide) ?_⟩,
      List.forall_mem_singleton.mpr (.recipe ?_)⟩
    · rw [globalLinkFlags, if_neg hmode]
      exact List.mem_append_right _ (by simp [Linker.cc, Environment.toolchain])
    · exact List.mem_append_right _ (by simp [Linker.cc, Environment.toolchain])
    · refine List.mem_cons_of_mem _ (List.mem_cons_of_mem _ (List.mem_cons_of_mem _ ?_))
      cases language with
      | c => exact List.mem_cons_self
      | cxx => exact List.mem_cons_of_mem _ List.mem_cons_self
  · exact absurd (hfamily.symm.trans hother) (by decide)
  · exact absurd (hfamily.symm.trans hother) (by decide)

/-- **Every declaration of a generation** with compiler drivers is in the tables. -/
theorem ccDeclaration_of_mem {c : Contribution} (hfamily : env.family = .cc)
    (h : modelContribution env graph = .ok c) : ∀ d ∈ c.declarations, CcDeclaration env graph d := by
  obtain ⟨edges, hedges, hdeclarations⟩ := modelContribution_declarations h
  rw [hdeclarations]
  refine List.forall_mem_append.mpr ⟨?_, List.forall_mem_append.mpr ⟨?_, ?_⟩⟩
  · intro d hd
    obtain ⟨root, hroot, hd⟩ := List.mem_filterMap.mp hd
    unfold directoryDeclaration? at hd
    split at hd
    · next name value hname hvalue =>
        obtain rfl := Option.some.inj hd
        refine .global (List.mem_append_left _ (List.mem_map.mpr ⟨root, hroot, ?_⟩))
        rw [named_variableName hname, hvalue]
        rfl
    · cases hd
  · unfold installContribution
    split
    · exact fun d hd => absurd hd List.not_mem_nil
    · refine List.forall_mem_flatMap.mpr fun file _ d hd => ?_
      rcases List.mem_pair.mp hd with rfl | rfl
      · exact .global (List.mem_append_right _ List.mem_cons_self)
      · refine .global (List.mem_append_right _ (List.mem_cons_of_mem _ ?_))
        cases file.kind with
        | program => exact List.mem_cons_self
        | data => exact List.mem_cons_of_mem _ List.mem_cons_self
  · intro d hd
    obtain ⟨edge, -, own, hown, hd⟩ := exists_of_mem_contributions hedges hd
    cases edge with
    | compile edge =>
        simp only [edgeContribution, bind_eq_ok_iff, pure_eq_ok_iff] at hown
        obtain ⟨compiler, hcompiler, rfl⟩ := hown
        exact ccDeclaration_compile hfamily hcompiler d hd
    | link edge =>
        simp only [edgeContribution, bind_eq_ok_iff] at hown
        obtain ⟨linker, hlinker, hown⟩ := hown
        rw [linkContribution_declarations hown] at hd
        exact ccDeclaration_link hfamily hlinker d hd
    | group edge =>
        obtain rfl := Except.ok.inj hown
        exact absurd hd List.not_mem_nil
    | command edge =>
        obtain rfl := Except.ok.inj hown
        exact absurd hd List.not_mem_nil

/-- The program of every recipe is among the global variables. -/
theorem program_mem_ccGlobals (graph : BuildGraph) {v program : Variable} {lines : List Command}
    {command : Command} (h : .recipe v lines program command ∈ ccRecipes env) :
    isRecipeName v = true ∧ (program, command) ∈ ccGlobals env graph := by
  have hall : ∀ d ∈ ccRecipes env, ∃ stem lines programStem text,
      d = recipeDeclaration stem lines programStem text ∧
        (programVariable programStem, .line (.plain text)) ∈ ccGlobals env graph := by
    intro d hd
    simp only [ccRecipes, List.mem_cons, List.not_mem_nil, or_false] at hd
    rcases hd with rfl | rfl | rfl | rfl | rfl
    all_goals
      refine ⟨_, _, _, _, rfl, List.mem_append_right _ ?_⟩
      simp [Compiler.cc, Compiler.driverVar, Linker.ar, Linker.cc]
  obtain ⟨stem, lines', programStem, text, hd, hmem⟩ := hall _ h
  obtain ⟨rfl, -, rfl, rfl⟩ := Declaration.recipe.inj hd
  exact ⟨isRecipeName_sharedRecipe stem, hmem⟩

/-- What stands in the table of variables has one value and is no recipe. -/
theorem eq_of_mem_ccGlobals {v : Variable} {value other : Command}
    (h : (v, value) ∈ ccGlobals env graph) (h' : (v, other) ∈ ccGlobals env graph) :
    value = other := by
  have hfind := (Table.find?_eq_some_iff (nodup_ccGlobals env graph)).mpr h
  rw [(Table.find?_eq_some_iff (nodup_ccGlobals env graph)).mpr h'] at hfind
  exact (Option.some.inj hfind).symm

theorem ne_of_mem_ccGlobals {v w : Variable} {value : Command}
    (h : (v, value) ∈ ccGlobals env graph) (hw : isRecipeName w = true) : v ≠ w := by
  rintro rfl
  rw [isRecipeName_ccGlobals env graph v (Table.mem_keys_of_mem h)] at hw
  cases hw

/-- **Any two declarations of the compiler drivers agree.** -/
theorem compatible_of_ccDeclaration {d e : Declaration} (hd : CcDeclaration env graph d)
    (he : CcDeclaration env graph e) : d.Compatible e := by
  -- a variable and a recipe, of which the program is a variable too
  have hmixed : ∀ {v w program : Variable} {value command : Command} {lines : List Command},
      (v, value) ∈ ccGlobals env graph → .recipe w lines program command ∈ ccRecipes env →
        v ≠ w ∧ (v = program → value = command) := by
    intro v w program value command lines hv hrecipe
    obtain ⟨hw, hprogram⟩ := program_mem_ccGlobals graph hrecipe
    exact ⟨ne_of_mem_ccGlobals hv hw, fun hsame => eq_of_mem_ccGlobals hv (hsame ▸ hprogram)⟩
  have hkind : ∀ d ∈ ccRecipes env, ∃ v lines program command,
      d = .recipe v lines program command := by
    intro d hd
    simp only [ccRecipes, List.mem_cons, List.not_mem_nil, or_false] at hd
    rcases hd with rfl | rfl | rfl | rfl | rfl <;> exact ⟨_, _, _, _, rfl⟩
  cases hd with
  | @global v value hv => cases he with
    | @global w other hw => exact fun hsame => eq_of_mem_ccGlobals hv (hsame ▸ hw)
    | wildcard hstem => exact trivial
    | @recipe e he =>
        obtain ⟨w, lines, program, command, rfl⟩ := hkind e he
        exact hmixed hv he
  | @wildcard stem hstem => cases he with
    | global hw => exact trivial
    | @wildcard stem' hstem' =>
        intro hsame
        rw [flagsVariable_injective stem hstem stem' hstem' hsame]
    | @recipe e he =>
        obtain ⟨w, lines, program, command, rfl⟩ := hkind e he
        exact trivial
  | @recipe d hd =>
      obtain ⟨v, lines, program, command, rfl⟩ := hkind d hd
      cases he with
      | global hw => exact hmixed hw hd
      | wildcard hstem => exact trivial
      | @recipe e he =>
          obtain ⟨w, others, program', command', rfl⟩ := hkind e he
          obtain ⟨hv, hprogram⟩ := program_mem_ccGlobals graph hd
          obtain ⟨hw, hprogram'⟩ := program_mem_ccGlobals graph he
          refine ⟨fun hsame => ?_, fun hsame => eq_of_mem_ccGlobals hprogram (hsame ▸ hprogram'),
            ne_of_mem_ccGlobals hprogram hw, ne_of_mem_ccGlobals hprogram' hv⟩
          -- each name stands once among the recipes
          have heq := List.inj_on_of_nodup_map (nodup_ccRecipes env) hd he hsame
          exact (Declaration.recipe.inj heq).2

end Drivers

end MakeGraph.Generate
