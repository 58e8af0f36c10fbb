import MakeGraph.Proofs.Generate.Acceptance
import MakeGraph.Proofs.Generate.SharedVariables
import MakeGraph.Proofs.Make.Lookup

/-!
# `Proofs.Generate.CompileFlags` — the flags that a compilation runs with

A compilation runs with the flags of its compiler, those of its language in the whole build, and its
own. The first two come out of one global variable, which all compilations with the same variable name
share and the first of them declares. Compilers that take the options of GCC have a variable for each
language, so each finds the flags of its own language there. Microsoft's compiler has one for both, and
then all compilations run with the options of the language that happens to come first
(`compileFlags_eq`, `compileFlags_mixed`).

## Contents

* `intendedFlags` — the flags that are expected
* `leader?` — the edge that declares the global variable
* `findSome?_edge`, `find?_globalFlags` — the flags that are offered for it, and those it holds
* `compileFlags_eq` — the main result
-/

namespace MakeGraph.Generate

open Make (Command Error Makefile Piece Rule Variable)
open Outcome

/-! ## The expected flags -/

/-- The options of a language in the whole build. -/
def languageOptions (graph : BuildGraph) (lang : String) : List String :=
  (graph.globalOptions.find? lang).getD []

/-- **The flags of a compilation**: those of the compiler, the options of a language, what objects of
    shared libraries need, the directories of headers, and the options of the file. -/
def intendedFlags (compiler : Compiler) (graph : BuildGraph) (lang : String) (edge : CompileEdge) :
    List Piece :=
  Piece.plainTexts compiler.usualFlags ++ (Piece.plainTexts (languageOptions graph lang) ++
    ((if edge.inSharedLibrary then compiler.sharedFlags else []) ++
      (edge.includeDirs.flatMap compiler.includeFlags ++ Piece.plainTexts edge.options)))

/-- The edge itself if it is a compilation that has its flags in the variables of a stem. -/
def leads? (tools : Toolchain) (stem : String) : Edge → Option CompileEdge
  | .compile edge =>
      if (tools.compiler edge.lang).toOption.map (·.flagsStem) = some stem then some edge else none
  | .link _ | .group _ | .command _ => none

/-- The first of the compilations that have their flags in the variables of a stem. -/
def leader? (tools : Toolchain) (stem : String) (edges : List Edge) : Option CompileEdge :=
  edges.findSome? (leads? tools stem)

/-! ## The global flags -/

section GlobalFlags

variable {tools : Toolchain} {graph : BuildGraph} {lang : String} {compiler : Compiler}

/-- **What an edge offers** for the global flags of a compiler: the flags for its own language if it is
    a compilation with the same variable. -/
theorem findSome?_edge {edge : Edge} {own : Contribution}
    (hcompiler : tools.compiler lang = .ok compiler)
    (h : edgeContribution tools graph edge = .ok own) :
    own.declarations.findSome? (Declaration.global? (globalFlagsVariable compiler.flagsStem)) =
      (leads? tools compiler.flagsStem edge).map fun leader =>
        .words (Piece.plainTexts (globalCompileFlags compiler graph leader.lang)) := by
  have hstem := compiler_flagsStem_mem hcompiler
  cases edge with
  | compile edge =>
      simp only [edgeContribution, bind_eq_ok_iff, pure_eq_ok_iff] at h
      obtain ⟨other, hother, rfl⟩ := h
      have hrecipe : [compilerRecipe other].findSome?
          (Declaration.global? (globalFlagsVariable compiler.flagsStem)) = none := rfl
      have hleads : leads? tools compiler.flagsStem (.compile edge) =
          if other.flagsStem = compiler.flagsStem then some edge else none := by
        simp [leads?, hother, Except.toOption]
      show (_ ++ [compilerRecipe other]).findSome? _ = _
      rw [List.findSome?_append, hrecipe, Option.or_none, hleads,
        findSome?_flagsDeclarations hstem (compiler_flagsStem_mem hother)]
      by_cases heq : other.flagsStem = compiler.flagsStem
      · obtain rfl := compiler_eq_of_stem_eq hother hcompiler (.inr heq)
        rw [if_pos rfl, if_pos rfl]
        rfl
      · rw [if_neg heq, if_neg heq]
        rfl
  | link edge =>
      simp only [edgeContribution, bind_eq_ok_iff] at h
      obtain ⟨linker, hlinker, h⟩ := h
      obtain ⟨hflags, hlibs, -⟩ := linker_stems_mem hlinker
      obtain ⟨hne, hne'⟩ := linker_stems_ne hcompiler hlinker
      have hlibsNone : (libsDeclarations linker).findSome?
          (Declaration.global? (globalFlagsVariable compiler.flagsStem)) = none := by
        unfold libsDeclarations
        cases hname : linker.libsStem with
        | none => rfl
        | some name =>
            have hname' : name ≠ compiler.flagsStem := fun heq => hne' (heq ▸ hname)
            rw [findSome?_flagsDeclarations hstem (hlibs name hname), if_neg hname']
      rw [linkContribution_declarations h, linkDeclarations, List.findSome?_append,
        List.findSome?_append, findSome?_flagsDeclarations hstem hflags, if_neg hne, hlibsNone]
      rfl
  | group edge =>
      obtain rfl := Except.ok.inj h
      rfl
  | command edge =>
      obtain rfl := Except.ok.inj h
      rfl

variable {env : Environment} {c : Contribution}

/-- **The global flags of a compiler** are those that its first compilation offers. -/
theorem find?_globalFlags (hcompiler : env.toolchain.compiler lang = .ok compiler)
    (h : modelContribution env graph = .ok c) :
    (extend .empty c).globals.find? (globalFlagsVariable compiler.flagsStem) =
      (leader? env.toolchain compiler.flagsStem graph.edges).map fun leader =>
        (.words (Piece.plainTexts (globalCompileFlags compiler graph leader.lang)), .simple) := by
  obtain ⟨edges, hedges, hhead⟩ := findSome?_head compiler.flagsStem h
  have hoffer : edges.declarations.findSome?
      (Declaration.global? (globalFlagsVariable compiler.flagsStem)) =
        (leader? env.toolchain compiler.flagsStem graph.edges).map fun leader =>
          .words (Piece.plainTexts (globalCompileFlags compiler graph leader.lang)) := by
    refine forall_contributions (P := fun items c => c.declarations.findSome? _ =
      (items.findSome? (leads? env.toolchain compiler.flagsStem)).map _) rfl ?_ hedges
    intro edge edges a b ha ih
    rw [declarations_append, List.findSome?_append, findSome?_edge hcompiler ha, ih,
      List.findSome?_cons]
    cases leads? env.toolchain compiler.flagsStem edge <;> rfl
  rw [find?_globalFlagsVariable _ h, hhead, hoffer, Option.map_map]
  rfl

end GlobalFlags

/-! ## One compilation -/

section Compilation

variable {env : Environment} {graph : BuildGraph} {c : Contribution} {compiler : Compiler}
  {edge : CompileEdge}

/-- Nothing in the flags of one file refers to a variable. -/
theorem verbatim_not_mem_compileFlags {tools : Toolchain} {lang : String}
    (h : tools.compiler lang = .ok compiler) (edge : CompileEdge) (text : String) :
    .verbatim text ∉ compileFlags compiler edge := by
  have hshared : .verbatim text ∉ compiler.sharedFlags := by
    obtain ⟨language, -, ⟨-, rfl⟩ | ⟨-, rfl⟩⟩ := compiler_ok h
    · simp [Compiler.cc]
    · simp [Compiler.msvc]
  have hinclude : ∀ dir, .verbatim text ∉ compiler.includeFlags dir := by
    obtain ⟨language, -, ⟨-, rfl⟩ | ⟨-, rfl⟩⟩ := compiler_ok h
    · simp [Compiler.cc, flagged, Piece.join]
    · simp [Compiler.msvc, flagged, Piece.join]
  intro hmem
  unfold compileFlags at hmem
  rcases List.mem_append.mp hmem with hmem | hmem
  · rcases List.mem_append.mp hmem with hmem | hmem
    · split at hmem
      · exact hshared hmem
      · exact absurd hmem List.not_mem_nil
    · obtain ⟨dir, -, hdir⟩ := List.mem_flatMap.mp hmem
      exact hinclude dir hdir
  · simp [Piece.plainTexts] at hmem

/-- A compilation is among those that have their flags where it has them. -/
theorem leader?_of_mem (hcompiler : env.toolchain.compiler edge.lang = .ok compiler)
    (hedge : .compile edge ∈ graph.edges) :
    ∃ leader, leader? env.toolchain compiler.flagsStem graph.edges = some leader := by
  rw [← Option.isSome_iff_exists]
  unfold leader?
  rw [List.findSome?_isSome_iff]
  refine ⟨.compile edge, hedge, ?_⟩
  simp [leads?, hcompiler, Except.toOption]

/-- The compiler of the first compilation is that of all others with the same variable. -/
theorem compiler_of_leader? {stem : String} {edges : List Edge} {tools : Toolchain}
    {leader : CompileEdge} (h : leader? tools stem edges = some leader) :
    ∃ compiler, tools.compiler leader.lang = .ok compiler ∧ compiler.flagsStem = stem := by
  obtain ⟨edge, -, hleads⟩ := List.exists_of_findSome?_eq_some h
  cases edge with
  | compile edge =>
      rw [leads?] at hleads
      split at hleads
      · next hstem =>
          obtain rfl := Option.some.inj hleads
          cases hcompiler : tools.compiler edge.lang with
          | error e => simp [hcompiler, Except.toOption] at hstem
          | ok compiler => exact ⟨compiler, rfl, by simpa [hcompiler, Except.toOption] using hstem⟩
      · cases hleads
  | link edge => cases hleads
  | group edge => cases hleads
  | command edge => cases hleads

/-- Compilers with the options of GCC share their variables with no other language. -/
theorem leader_lang_eq (hfamily : env.family = .cc)
    (hcompiler : env.toolchain.compiler edge.lang = .ok compiler) {leader : CompileEdge}
    (h : leader? env.toolchain compiler.flagsStem graph.edges = some leader) :
    leader.lang = edge.lang := by
  obtain ⟨other, hother, hstem⟩ := compiler_of_leader? h
  have hfamily' : env.toolchain.family ≠ .msvc := by
    show env.family ≠ .msvc
    rw [hfamily]
    decide
  obtain ⟨language, hlanguage, ⟨-, rfl⟩ | ⟨hmsvc, -⟩⟩ := compiler_ok hcompiler
  · obtain ⟨language', hlanguage', ⟨-, rfl⟩ | ⟨hmsvc, -⟩⟩ := compiler_ok hother
    · have heq : language' = language := by
        cases language <;> cases language' <;> first | rfl | simp [Compiler.cc] at hstem
      exact name_eq_of_language (heq ▸ hlanguage') hlanguage
    · exact absurd hmsvc hfamily'
  · exact absurd hmsvc hfamily'

/-- **The flags of one compilation** are the expected ones for the language of the first compilation
    with the same variable. -/
theorem expandGlobals_setting (hcompiler : env.toolchain.compiler edge.lang = .ok compiler)
    (hedge : .compile edge ∈ graph.edges) (h : modelContribution env graph = .ok c)
    {leader : CompileEdge}
    (hleader : leader? env.toolchain compiler.flagsStem graph.edges = some leader) :
    compileRule compiler edge ∈ c.rules ∧
      ∃ value, (extend .empty c).setting? (compileRule compiler edge)
          (flagsVariable compiler.flagsStem) = some value ∧
        (extend .empty c).expandGlobals value =
          intendedFlags compiler graph leader.lang edge := by
  have hstem := compiler_flagsStem_mem hcompiler
  -- what the edge itself contributes: its rule, and a value for all targets
  obtain ⟨own, hown, hdeclared, hrules⟩ := mem_modelContribution hedge h
  simp only [edgeContribution, bind_eq_ok_iff, pure_eq_ok_iff, hcompiler] at hown
  obtain ⟨other, hother, rfl⟩ := hown
  obtain rfl := Except.ok.inj hother
  have hwildcard : .wildcard (flagsVariable compiler.flagsStem)
      (.words [(globalFlagsVariable compiler.flagsStem).toPiece]) ∈ c.declarations :=
    hdeclared (List.mem_append_left _ (List.mem_cons_of_mem _ (List.mem_singleton.mpr rfl)))
  refine ⟨hrules (List.mem_singleton.mpr rfl), ?_⟩
  obtain ⟨bindings, hscopes, hfind⟩ := scopes_extend h
  have hdefault : (((extend .empty c).bindings (some .any)).find?
      (flagsVariable compiler.flagsStem)).map (·.1) =
        some (.words [(globalFlagsVariable compiler.flagsStem).toPiece]) := by
    have hbindings : (extend .empty c).bindings (some .any) = bindings := by
      rw [Makefile.bindings, hscopes]
      rfl
    rw [hbindings, hfind _ hstem _ hwildcard]
    rfl
  -- either value is the global flags and then the flags of the file, of which there may be none
  have hvalue : (extend .empty c).setting? (compileRule compiler edge)
      (flagsVariable compiler.flagsStem) =
        some (withGlobalFlags compiler.flagsStem (compileFlags compiler edge)) := by
    unfold Makefile.setting?
    cases hflags : compileFlags compiler edge with
    | nil =>
        rw [Rule.override?_of_nil (by simp [compileRule, hflags]), hdefault]
        rfl
    | cons flag flags =>
        have hoverrides : (compileRule compiler edge).overrides =
            [(flagsVariable compiler.flagsStem,
              withGlobalFlags compiler.flagsStem (flag :: flags))] := by
          simp [compileRule, hflags]
        rw [Rule.override?_of_singleton hoverrides]
        rfl
  refine ⟨_, hvalue, ?_⟩
  have hglobal := find?_globalFlags hcompiler h
  rw [hleader, Option.map_some] at hglobal
  have hown := Makefile.flatMap_resolve_of_no_verbatim (extend .empty c)
    (verbatim_not_mem_compileFlags hcompiler edge)
  show ((globalFlagsVariable compiler.flagsStem).toPiece :: compileFlags compiler edge).flatMap _ = _
  rw [List.flatMap_cons, Makefile.resolve_toPiece hglobal, hown]
  simp [Command.pieces, globalCompileFlags, compileFlags, intendedFlags, languageOptions,
    Piece.plainTexts]

end Compilation

/-! ## The main result -/

/-- Expected flags for two languages are the same where the options of the languages are. -/
theorem intendedFlags_eq_iff {compiler : Compiler} {graph : BuildGraph} {lang lang' : String}
    {edge : CompileEdge} :
    intendedFlags compiler graph lang edge = intendedFlags compiler graph lang' edge ↔
      languageOptions graph lang = languageOptions graph lang' := by
  unfold intendedFlags
  rw [List.append_cancel_left_eq, List.append_cancel_right_eq]
  exact (List.map_injective_iff.mpr fun _ _ => Piece.plain.inj).eq_iff

/-- **The flags of every compilation.** In every Makefile that is generated, the recipe of a compilation
    runs with the flags of its compiler, the options of the language of the first compilation with the
    same variable, and its own flags. These are the expected ones exactly when that language has the
    options of its own, and always with the options of GCC. -/
theorem compileFlags_eq {env : Environment} {graph : BuildGraph} {products : Products}
    (hproducts : generate env graph = .ok products) {edge : CompileEdge}
    (hedge : .compile edge ∈ graph.edges) :
    ∃ m compiler leader rule value,
      modelWith usualHandlers env graph = .ok m ∧ products.makefile = m.render ∧
      env.toolchain.compiler edge.lang = .ok compiler ∧
      leader? env.toolchain compiler.flagsStem graph.edges = some leader ∧
      rule ∈ m.rules ∧ rule.targets = [.path edge.output] ∧
      m.setting? rule (flagsVariable compiler.flagsStem) = some value ∧
      m.expandGlobals value = intendedFlags compiler graph leader.lang edge ∧
      (m.expandGlobals value = intendedFlags compiler graph edge.lang edge ↔
        languageOptions graph leader.lang = languageOptions graph edge.lang) ∧
      (env.family = .cc → leader.lang = edge.lang) := by
  obtain ⟨m, hm, rfl⟩ := generate_eq_ok_iff.mp hproducts
  obtain ⟨c, hc, -, rfl⟩ := modelWith_eq_ok_iff.mp hm
  obtain ⟨own, hown, -⟩ := mem_modelContribution hedge hc
  simp only [edgeContribution, bind_eq_ok_iff] at hown
  obtain ⟨compiler, hcompiler, -⟩ := hown
  obtain ⟨leader, hleader⟩ := leader?_of_mem hcompiler hedge
  obtain ⟨hrule, value, hvalue, hflags⟩ := expandGlobals_setting hcompiler hedge hc hleader
  refine ⟨_, compiler, leader, _, value, hm, rfl, hcompiler, hleader, List.mem_append_right _ hrule,
    rfl, hvalue, hflags, ?_, fun hfamily => leader_lang_eq hfamily hcompiler hleader⟩
  rw [hflags]
  exact intendedFlags_eq_iff

/-- A C file in a build that has options for both languages. -/
def plainEdge : CompileEdge where
  output := .build "a.o"
  source := .build "a.c"
  lang := "c"

/-- A C++ file in the same build, with an option of its own. -/
def plusEdge : CompileEdge where
  output := .build "b.o"
  source := .build "b.cc"
  lang := "c++"
  options := ["-O2"]

/-- The build of the two. -/
def mixedGraph : BuildGraph :=
  { (default : BuildGraph) with
    globalOptions := [("c", ["-DPLAIN"]), ("c++", ["-DPLUS"])]
    edges := [.compile plainEdge, .compile plusEdge] }

theorem accepted_mixedGraph (family : ToolFamily) :
    Accepted { (default : Environment) with family } mixedGraph := by
  refine ⟨by simp [EdgeAccepted, mixedGraph, plainEdge, plusEdge], ?_⟩
  cases family <;> decide +kernel

/-- With the options of GCC the C++ file is compiled with the options of C++. -/
theorem compileFlags_plusEdge :
    ∃ (products : Products) (m : Makefile) (rule : Rule) (value : Command),
      generate default mixedGraph = .ok products ∧ products.makefile = m.render ∧
      rule ∈ m.rules ∧ rule.targets = [.path plusEdge.output] ∧
      m.setting? rule (flagsVariable "cxxflags") = some value ∧
      m.expandGlobals value = Piece.plainTexts ["-DPLUS", "-O2"] := by
  obtain ⟨products, hproducts⟩ := (accepted_mixedGraph .cc).generate_succeeds
  have hedge : .compile plusEdge ∈ mixedGraph.edges := List.mem_cons_of_mem _ List.mem_cons_self
  obtain ⟨m, compiler, leader, rule, value, -, hrender, hcompiler, hleader, hrule, htargets, hvalue,
    hflags, -⟩ := compileFlags_eq hproducts hedge
  obtain rfl := Except.ok.inj hcompiler
  obtain rfl := Option.some.inj hleader
  exact ⟨products, m, rule, value, hproducts, hrender, hrule, htargets, hvalue, hflags⟩

/-- **Microsoft's compiler has one variable for both languages**, so the C++ file is compiled with the
    options of C. -/
theorem compileFlags_mixed :
    ∃ (products : Products) (m : Makefile) (rule : Rule) (value : Command),
      generate { (default : Environment) with family := .msvc } mixedGraph = .ok products ∧
      products.makefile = m.render ∧
      rule ∈ m.rules ∧ rule.targets = [.path plusEdge.output] ∧
      m.setting? rule (flagsVariable "cxxflags") = some value ∧
      m.expandGlobals value = Piece.plainTexts ["-DPLAIN", "-O2"] ∧
      m.expandGlobals value ≠ intendedFlags (.msvc default) mixedGraph "c++" plusEdge := by
  obtain ⟨products, hproducts⟩ := (accepted_mixedGraph .msvc).generate_succeeds
  obtain ⟨m, hm, rfl⟩ := generate_eq_ok_iff.mp hproducts
  obtain ⟨c, hc, -, rfl⟩ := modelWith_eq_ok_iff.mp hm
  have hedge : .compile plusEdge ∈ mixedGraph.edges := List.mem_cons_of_mem _ List.mem_cons_self
  have hcompiler : ({ (default : Environment) with family := .msvc }).toolchain.compiler
      plusEdge.lang = .ok (.msvc default) := rfl
  have hleader : leader? ({ (default : Environment) with family := .msvc }).toolchain
      (Compiler.msvc default).flagsStem mixedGraph.edges = some plainEdge := rfl
  obtain ⟨hrule, value, hvalue, hflags⟩ := expandGlobals_setting hcompiler hedge hc hleader
  refine ⟨_, _, _, value, hproducts, rfl, List.mem_append_right _ hrule, rfl, hvalue, hflags, ?_⟩
  rw [hflags]
  exact fun heq => absurd (intendedFlags_eq_iff.mp heq) (by decide)

end MakeGraph.Generate
