import MakeGraph.Proofs.Generate.SettledParts

/-!
# `Proofs.Generate.Closed` — a Makefile uses only what it declares

All parts of a generation keep the invariant of the declarations, and so does the whole
(`settled_modelContribution`). Rules come last in the file, so for them it is enough that the tool which
they call has declared what it needs, earlier or later (`usesOnly_rules`). So every Makefile is closed,
with all its includes and the recipes of its companions.

## Contents

* `settled_modelContribution` — the declarations of a whole generation
* `usesOnly_rules`, `usesOnly_includes` — rules and includes
* `closed_extend`, `usesOnly_companions` — the model and what is written beside it
* `closed_generate` — the main result
-/

namespace MakeGraph.Generate

open Make (Command HasRoots Makefile Piece Variable usedNames)
open Outcome

/-! ## The whole generation -/

section Whole

variable {env : Environment} {graph : BuildGraph} {c : Contribution}

/-- **The declarations of a generation** use only what is declared before them. -/
theorem settled_modelContribution (h : modelContribution env graph = .ok c) :
    Settled (adoptAll .empty c.declarations) := by
  obtain ⟨edges, hedges, hdeclarations⟩ := modelContribution_declarations h
  have hinstall : Settled (adoptAll (adoptAll .empty (directoriesContribution env).declarations)
      (installContribution graph.install).declarations) := by
    unfold installContribution
    split
    · show Settled (adoptAll _ [])
      rw [adoptAll_nil]
      exact settled_directories env
    · exact settled_installFiles (settled_directories env) graph.install.files
  rw [hdeclarations, adoptAll_append, adoptAll_append]
  exact settled_edges hedges hinstall

/-- **The variables of all roots** are declared. -/
theorem hasRoots_modelContribution (h : modelContribution env graph = .ok c) :
    HasRoots (IsGlobal (adoptAll .empty c.declarations)) := by
  have hsettled := settled_modelContribution h
  obtain ⟨edges, -, hdeclarations⟩ := modelContribution_declarations h
  refine ⟨hsettled.comma, fun root name hname => ?_⟩
  obtain ⟨hanchored, value, hvalue⟩ :
      root ∈ Root.anchored ∧ ∃ value, rootValue? env root = some value := by
    cases root with
    | build => cases hname
    | absolute => cases hname
    | _ => exact ⟨by decide, _, rfl⟩
  have hdeclared : Declaration.global (.named name) (.line value) ∈ c.declarations := by
    rw [hdeclarations]
    refine List.mem_append_left _ (List.mem_filterMap.mpr ⟨root, hanchored, ?_⟩)
    unfold directoryDeclaration?
    rw [hname, hvalue]
  obtain ⟨hsame, hfree⟩ := variable_of_root hname
  refine hsettled.isGlobal hfree ?_
  rw [← hsame]
  exact made_adoptAll hdeclared

/-- A recipe that is among the declarations can be called. -/
theorem isKnown_sharedRecipe {stem programStem program : String} {lines : Variable → List Command}
    (h : recipeDeclaration stem lines programStem program ∈ c.declarations) :
    IsKnown (adoptAll .empty c.declarations) (sharedRecipe stem).name := by
  rcases made_adoptAll (m := .empty) h with hglobal | hdefined
  · exact .inr (.inl hglobal)
  · exact .inr (.inr (.inl hdefined))

/-- **The rules of an edge** use what the edge declares. -/
theorem usesOnly_edgeRules (h : modelContribution env graph = .ok c) {edge : Edge}
    {own : Contribution} (hown : edgeContribution env.toolchain graph edge = .ok own)
    (hsubset : own.declarations ⊆ c.declarations) :
    ∀ rule ∈ own.rules, rule.UsesOnly (IsGlobal (adoptAll .empty c.declarations))
      (IsKnown (adoptAll .empty c.declarations)) := by
  have hsettled := settled_modelContribution h
  have hroots := hasRoots_modelContribution h
  have hlater : ∀ name, IsGlobal (adoptAll .empty c.declarations) name →
      IsKnown (adoptAll .empty c.declarations) name := fun name hname => .inr (.inl hname)
  have htarget : IsKnown (adoptAll .empty c.declarations) "@" := .inl (by decide)
  cases edge with
  | compile edge =>
      simp only [edgeContribution, bind_eq_ok_iff, pure_eq_ok_iff] at hown
      obtain ⟨compiler, hcompiler, rfl⟩ := hown
      obtain ⟨hflags, hrecipe⟩ := List.append_subset.mp hsubset
      have hdefined := isKnown_sharedRecipe (hrecipe List.mem_cons_self)
      exact List.forall_mem_singleton.mpr (usesOnly_compileRule hcompiler hroots
        (isGlobal_globalFlagsVariable hsettled hflags) hdefined)
  | link edge =>
      simp only [edgeContribution, linkContribution, bind_eq_ok_iff, pure_eq_ok_iff] at hown
      obtain ⟨linker, hlinker, flags, hflags, libs, hlibs, rfl⟩ := hown
      obtain ⟨hdeclared, hrecipe⟩ := List.append_subset.mp hsubset
      obtain ⟨hglobal, hlibsDeclared⟩ := List.append_subset.mp hdeclared
      have hdefined := isKnown_sharedRecipe (hrecipe List.mem_cons_self)
      obtain ⟨hownFlags, hownLibs⟩ := usesOnly_link hroots hlinker hflags hlibs
      refine usesOnly_linkRules (linker_recipeStem_mem hlinker) hroots hlater htarget hdefined
        (usesOnly_linkVariables hlinker (isGlobal_globalFlagsVariable hsettled hglobal)
          (fun stem hstem => ?_) hownFlags hownLibs)
      have hmine : libsDeclarations linker = flagsDeclarations stem linker.usualLibs := by
        rw [libsDeclarations, Option.mem_def.mp hstem]
      exact isGlobal_globalFlagsVariable hsettled (hmine ▸ hlibsDeclared)
  | group edge =>
      obtain rfl := Except.ok.inj hown
      exact List.forall_mem_singleton.mpr (usesOnly_aliasRule hroots edge)
  | command edge =>
      obtain rfl := Except.ok.inj hown
      exact List.forall_mem_singleton.mpr (usesOnly_commandRule hroots (hlater _ hroots.comma) edge)

/-- The rule that installs uses the commands that the files of its kinds declare. -/
theorem usesOnly_installation (h : modelContribution env graph = .ok c) :
    ∀ rule ∈ (installContribution graph.install).rules,
      rule.UsesOnly (IsGlobal (adoptAll .empty c.declarations))
        (IsKnown (adoptAll .empty c.declarations)) := by
  have hroots := hasRoots_modelContribution h
  obtain ⟨edges, -, hdeclarations⟩ := modelContribution_declarations h
  have hlater : HasRoots (IsKnown (adoptAll .empty c.declarations)) :=
    ⟨.inr (.inl hroots.comma), fun root name hname => .inr (.inl (hroots.root root name hname))⟩
  have hsubset : (installContribution graph.install).declarations ⊆ c.declarations := by
    intro d hd
    rw [hdeclarations]
    exact List.mem_append_right _ (List.mem_append_left _ hd)
  unfold installContribution at hsubset ⊢
  split
  · exact fun rule hrule => absurd hrule List.not_mem_nil
  · next hsome =>
      rw [if_neg hsome] at hsubset
      refine List.forall_mem_singleton.mpr (usesOnly_installRule hroots hlater fun file hfile => ?_)
      have hmem : Declaration.global (.named (installer file.kind).1) _ ∈ c.declarations :=
        hsubset (List.mem_flatMap.mpr ⟨file, hfile, List.mem_cons_of_mem _ List.mem_cons_self⟩)
      rcases made_adoptAll (m := .empty) hmem with hglobal | hdefined
      · exact .inr (.inl hglobal)
      · exact .inr (.inr (.inl hdefined))

/-- **All rules of a generation** use only what it declares. -/
theorem usesOnly_rules (h : modelContribution env graph = .ok c) :
    ∀ rule ∈ c.rules, rule.UsesOnly (IsGlobal (adoptAll .empty c.declarations))
      (IsKnown (adoptAll .empty c.declarations)) := by
  have hroots := hasRoots_modelContribution h
  have hlater : HasRoots (IsKnown (adoptAll .empty c.declarations)) :=
    ⟨.inr (.inl hroots.comma), fun root name hname => .inr (.inl (hroots.root root name hname))⟩
  have hinstall := usesOnly_installation h
  have hedge : ∀ edge ∈ graph.edges, ∀ own, edgeContribution env.toolchain graph edge = .ok own →
      ∀ rule ∈ own.rules, rule.UsesOnly (IsGlobal (adoptAll .empty c.declarations))
        (IsKnown (adoptAll .empty c.declarations)) := by
    intro edge hedge own hown
    obtain ⟨other, hother, hsubset, -⟩ := mem_modelContribution hedge h
    obtain rfl := Except.ok.inj (hown.symm.trans hother)
    exact usesOnly_edgeRules h hown hsubset
  have hmark : markRule.UsesOnly (IsGlobal (adoptAll .empty c.declarations))
      (IsKnown (adoptAll .empty c.declarations)) :=
    usesOnly_markRule hroots.comma hlater.comma (.inl (by decide))
  intro rule hrule
  simp only [modelContribution, bind_eq_ok_iff, pure_eq_ok_iff] at h
  obtain ⟨edges, hedges, rfl⟩ := h
  simp only [rules_append, headContribution, tailContribution, regenerateContribution,
    directoriesContribution, List.nil_append, List.mem_append, List.mem_singleton] at hrule
  rcases hrule with (rfl | hrule | hrule) | hrule | rfl | rfl
  · exact usesOnly_allRule hroots graph
  · exact hinstall rule hrule
  · exact usesOnly_testRules hroots hlater graph.tests rule hrule
  · obtain ⟨edge, hmem, own, hown, hrule⟩ :=
      exists_of_mem_part rfl rules_append hedges hrule
    exact hedge edge hmem own hown rule hrule
  · exact hmark
  · exact usesOnly_regenerateRule hroots hlater.comma env

/-- Included files are named by paths. -/
theorem usesOnly_includes (h : modelContribution env graph = .ok c) :
    ∀ inc ∈ c.includes, inc.name.UsesOnly (IsGlobal (adoptAll .empty c.declarations)) := by
  have hroots := hasRoots_modelContribution h
  -- every include of an edge names a file beside its object
  have hedge : ∀ edge own, edgeContribution env.toolchain graph edge = .ok own →
      ∀ inc ∈ own.includes, ∃ p, inc.name = .path p := by
    intro edge own hown inc hinc
    cases edge with
    | compile edge =>
        simp only [edgeContribution, bind_eq_ok_iff, pure_eq_ok_iff] at hown
        obtain ⟨compiler, -, rfl⟩ := hown
        simp only [compileContribution, dependencyIncludes] at hinc
        split at hinc
        · obtain rfl := List.mem_singleton.mp hinc
          exact ⟨_, rfl⟩
        · exact absurd hinc List.not_mem_nil
        · exact absurd hinc List.not_mem_nil
    | link edge =>
        simp only [edgeContribution, linkContribution, bind_eq_ok_iff, pure_eq_ok_iff] at hown
        obtain ⟨linker, -, flags, -, libs, -, rfl⟩ := hown
        exact absurd hinc List.not_mem_nil
    | group edge =>
        obtain rfl := Except.ok.inj hown
        exact absurd hinc List.not_mem_nil
    | command edge =>
        obtain rfl := Except.ok.inj hown
        exact absurd hinc List.not_mem_nil
  intro inc hinc
  have hpath : ∃ p, inc.name = .path p := by
    simp only [modelContribution, bind_eq_ok_iff, pure_eq_ok_iff] at h
    obtain ⟨edges, hedges, rfl⟩ := h
    have hinstall : (installContribution graph.install).includes = [] := by
      unfold installContribution
      split <;> rfl
    simp only [includes_append, headContribution, tailContribution, regenerateContribution,
      directoriesContribution, hinstall, List.nil_append, List.mem_append] at hinc
    rcases hinc with hinc | hinc
    · obtain ⟨edge, -, own, hown, hinc⟩ := exists_of_mem_part rfl includes_append hedges hinc
      exact hedge edge own hown inc hinc
    · split at hinc
      · exact absurd hinc List.not_mem_nil
      · obtain rfl := List.mem_singleton.mp hinc
        exact ⟨_, rfl⟩
  obtain ⟨p, hp⟩ := hpath
  exact hp ▸ Piece.usesOnly_path hroots p

/-- The text of a model whose parts use only what is declared. -/
theorem usesOnly_render {m : Makefile} {P : String → Prop} (hsettled : Settled m)
    (hknown : ∀ name, IsKnown m name → P name)
    (hrules : ∀ rule ∈ m.rules, Make.UsesOnly P rule.render.toList)
    (hincludes : ∀ inc ∈ m.includes, Make.UsesOnly P inc.render.toList) :
    Make.UsesOnly P m.render.toList := by
  have hglobal : ∀ name, IsGlobal m name → P name := fun name hname => hknown name (.inr (.inl hname))
  obtain ⟨bindings, hscopes, hbindings⟩ := hsettled.wildcards
  have hglobals : Make.UsesOnly P m.renderGlobals.toList := by
    unfold Makefile.renderGlobals
    split
    · exact .nil
    · rw [String.toList_append]
      refine (Make.usesOnly_bindings (fun _ h => by cases h) fun entry hentry => ?_).append
        (.of_not_mem (by decide))
      obtain ⟨hname, hvalue⟩ := hsettled.inOrder.usesOnly entry hentry
      exact ⟨hname, hvalue.mono hglobal⟩
  have hwildcards : Make.UsesOnly P m.renderScopes.toList := by
    unfold Makefile.renderScopes
    split
    · exact .nil
    · rw [String.toList_append, hscopes, String.toList_join, List.flatMap_map]
      refine (Make.UsesOnly.flatMap fun scope hscope => ?_).append (.of_not_mem (by decide))
      obtain rfl := List.mem_singleton.mp hscope
      refine Make.usesOnly_bindings (fun piece hpiece => ?_) fun entry hentry => ?_
      · obtain rfl := Option.some.inj hpiece
        have hany : (Piece.join [.verbatim "%"]).UsesOnly P :=
          Piece.usesOnly_join (List.forall_mem_singleton.mpr
            (Piece.usesOnly_verbatim (.of_not_mem (by decide))))
        exact hany
      · obtain ⟨hname, hvalue⟩ := hbindings entry hentry
        exact ⟨hname, hvalue.mono hglobal⟩
  have hdefines : Make.UsesOnly P m.renderDefines.toList := by
    unfold Makefile.renderDefines
    rw [String.toList_join, List.flatMap_map]
    refine .flatMap fun entry hentry => ?_
    obtain ⟨-, hname, hlines⟩ := hsettled.defined entry hentry
    exact Make.usesOnly_renderDefine hname fun line hline => (hlines line hline).mono hknown
  unfold Makefile.render
  simp only [String.toList_append, String.toList_join, List.flatMap_map]
  exact (((((Make.UsesOnly.of_not_mem (by decide)).append hglobals).append hwildcards).append
    hdefines).append (.flatMap hrules)).append (.flatMap hincludes)

/-- **The model of a description is closed.** -/
theorem closed_extend (h : modelContribution env graph = .ok c) : Closed (extend .empty c) := by
  have hsettled : Settled (extend .empty c) := by
    obtain ⟨hcomma, hinOrder, hwildcards, hdefined⟩ := settled_modelContribution h
    exact ⟨hcomma, hinOrder, hwildcards, hdefined⟩
  have hknown : ∀ name, IsGlobal (extend .empty c) name → IsKnown (extend .empty c) name :=
    fun name hname => .inr (.inl hname)
  have hrules : ∀ rule ∈ (extend .empty c).rules,
      rule.UsesOnly (IsGlobal (extend .empty c)) (IsKnown (extend .empty c)) := usesOnly_rules h
  have hincludes : ∀ inc ∈ (extend .empty c).includes,
      Make.UsesOnly (IsGlobal (extend .empty c)) inc.render.toList := fun inc hinc =>
    Make.usesOnly_include (usesOnly_includes h inc hinc)
  obtain ⟨bindings, hscopes, hbindings⟩ := hsettled.wildcards
  refine ⟨?_, ?_, ?_, ?_, ?_, ?_, ?_⟩
  · exact (usesOnly_render hsettled (fun _ hname => hname)
      (fun rule hrule => (hrules rule hrule).whole hknown)
      (fun inc hinc => (hincludes inc hinc).mono hknown)).mem_usedNames
  · intro before v value assignment after hsplit
    exact (hsettled.inOrder.usesOnly_before hsplit).mem_usedNames
  · intro scope hscope entry hentry
    rw [hscopes] at hscope
    obtain rfl := List.mem_singleton.mp hscope
    exact (hbindings entry hentry).2.mem_usedNames
  · intro entry hentry line hline
    exact ((hsettled.defined entry hentry).2.2 line hline).mem_usedNames
  · exact fun rule hrule => (hrules rule hrule).head.mem_usedNames
  · exact fun rule hrule => ((hrules rule hrule).whole hknown).mem_usedNames
  · exact fun inc hinc => (hincludes inc hinc).mem_usedNames

/-- The file of searched directories is read along with the Makefile, and it uses global variables. -/
theorem usesOnly_companions (h : modelContribution env graph = .ok c) :
    ∀ companion ∈ companions graph, Make.UsesOnly (IsGlobal (extend .empty c))
      companion.contents.toList := by
  have hpaths := Piece.usesOnly_paths (hasRoots_modelContribution h) graph.findDirs
  unfold companions
  split
  · exact fun companion hcompanion => absurd hcompanion List.not_mem_nil
  · refine List.forall_mem_singleton.mpr ?_
    show Make.UsesOnly _ (findDepsText graph.findDirs).toList
    unfold findDepsText
    simp only [String.toList_append, String.toList_join, List.flatMap_map]
    refine ((((Make.UsesOnly.of_not_mem (by decide)).append (.of_not_mem (by decide))).append
      (Piece.usesOnly_separated (by decide) (by decide) (by decide) hpaths)).append
        (.of_not_mem (by decide))).append (.flatMap fun dir hdir => ?_)
    exact (hpaths _ (List.mem_map_of_mem hdir) .target).append (.of_not_mem (by decide))

end Whole

/-! ## The main result -/

/-- **Whatever is generated is closed.** Every use of a variable or of a recipe in a generated Makefile
    is that of a name that the same Makefile declares, and what make expands while it reads the file
    uses only global variables that stand before it. The file of searched directories, which is read
    along with it, uses only global variables. -/
theorem closed_generate {env : Environment} {graph : BuildGraph} {products : Products}
    (h : generate env graph = .ok products) :
    ∃ m, modelWith usualHandlers env graph = .ok m ∧ products.makefile = m.render ∧ Closed m ∧
      ∀ companion ∈ products.companions, ∀ name ∈ usedNames companion.contents, IsGlobal m name := by
  obtain ⟨m, hm, rfl⟩ := generate_eq_ok_iff.mp h
  obtain ⟨c, hc, -, rfl⟩ := modelWith_eq_ok_iff.mp hm
  exact ⟨_, hm, rfl, closed_extend hc, fun companion hcompanion =>
    (usesOnly_companions hc companion hcompanion).mem_usedNames⟩

/-- A description with a program of one source file, in a directory that was searched. -/
def searchedGraph : BuildGraph :=
  { (default : BuildGraph) with
    edges := [.compile {
        output := .build "gen.o"
        source := ⟨.source, ⟨"src/gen.c"⟩⟩
        lang := "c"
        includeDirs := [⟨⟨.source, ⟨"include"⟩⟩, false⟩] },
      .link generatorEdge]
    findDirs := [⟨.source, ⟨"src"⟩⟩] }

/-- It is generated, and its rules and the file beside the Makefile refer to the source directory. -/
theorem closed_searchedGraph :
    ∃ (products : Products) (m : Makefile), generate default searchedGraph = .ok products ∧
      products.makefile = m.render ∧ Closed m ∧ IsGlobal m "srcdir" ∧
      products.companions = [⟨⟨findDepsName⟩, "Makefile: $(srcdir)/src\n\n$(srcdir)/src:\n"⟩] := by
  have haccepted : Accepted default searchedGraph :=
    ⟨by simp [EdgeAccepted, searchedGraph, generatorEdge], by decide +kernel⟩
  obtain ⟨products, hproducts⟩ := haccepted.generate_succeeds
  obtain ⟨m, -, hrender, hclosed, hcompanions⟩ := closed_generate hproducts
  have hfile : products.companions =
      [⟨⟨findDepsName⟩, "Makefile: $(srcdir)/src\n\n$(srcdir)/src:\n"⟩] := by
    obtain ⟨other, -, rfl⟩ := generate_eq_ok_iff.mp hproducts
    show companions searchedGraph = _
    decide +kernel
  have hsource := hcompanions _ (hfile ▸ List.mem_cons_self) "srcdir" (by decide +kernel)
  exact ⟨products, m, hproducts, hrender, hclosed, hsource, hfile⟩

end MakeGraph.Generate
