import MakeGraph.Proofs.Generate.EdgeRules
import MakeGraph.Proofs.Generate.FlagsScope
import MakeGraph.Proofs.Generate.Programs

/-!
# `Proofs.Generate.LinkVariables` — the variables in the command of a link

The recipe of a linker refers to its program, to its flags and, where binaries have them, to libraries.
The flags of a binary are those of all links and its own, and so are its libraries: the first ones stand
in a global variable, and the rule of the link refers to it in the value that it sets.

All links with a variable of one name declare the same for it (`texts_eq_of_stem`), no rule and no scope
sets anything but flags (`setsFlags_rules`), and every variable that a recipe refers to has a value for
all targets. So wherever make comes from, the recipe of a link finds what was written for this link
(`linkSettings_extend`).

## Contents

* `globalTexts`, `find?_globalTexts` — the flags and libraries of all links
* `SetsFlags`, `setsFlags_rules`, `lookup_extend` — variables that nothing but flags hides
* `override?_flagsVariable`, `override?_libsVariable` — what the rule of a link sets
* `LinkSettings`, `linkSettings_extend` — what the recipe of a link finds, the main result
-/

namespace MakeGraph.Generate

open Make (Command Makefile Piece Rule Variable)
open Outcome

/-! ## The flags and libraries of all links -/

section Globals

variable {tools : Toolchain} {graph : BuildGraph} {lang lang' : String} {mode mode' : LinkMode}
  {linker linker' : Linker} {stem : String} {texts texts' : List String}

/-- **The flags and the libraries of all links** of a kind, by the stems of their variables. -/
def globalTexts (linker : Linker) (graph : BuildGraph) (mode : LinkMode) :
    List (String × List String) :=
  (linker.flagsStem, globalLinkFlags linker graph mode) ::
    linker.libsStem.toList.map fun name => (name, linker.usualLibs)

/-- They depend on the family of the tools and on whether there is an archive to make. -/
theorem globalTexts_eq (h : tools.linker lang mode = .ok linker) (graph : BuildGraph) :
    globalTexts linker graph mode =
      if mode = .staticLibrary then
        match tools.family with
        | .cc => [("arflags", tools.config.arflags)]
        | .msvc => [("libflags", tools.config.libflags)]
      else
        [("ldflags", tools.config.ldflags ++ graph.globalLinkOptions),
          ("ldlibs", tools.config.ldlibs)] := by
  obtain ⟨language, -, ⟨hfamily, hmode, rfl⟩ | ⟨-, hmode, rfl⟩ | ⟨hfamily, hmode, rfl⟩ |
    ⟨-, hmode, rfl⟩⟩ := linker_ok h
  · rw [if_pos hmode, hfamily, globalTexts, globalLinkFlags, if_pos hmode]
    rfl
  · rw [if_neg hmode, globalTexts, globalLinkFlags, if_neg hmode]
    rfl
  · rw [if_pos hmode, hfamily, globalTexts, globalLinkFlags, if_pos hmode]
    rfl
  · rw [if_neg hmode, globalTexts, globalLinkFlags, if_neg hmode]
    rfl

/-- **Links with a variable of one name** have the same texts for it. -/
theorem texts_eq_of_stem (h : tools.linker lang mode = .ok linker)
    (h' : tools.linker lang' mode' = .ok linker') (hmem : (stem, texts) ∈ globalTexts linker graph mode)
    (hmem' : (stem, texts') ∈ globalTexts linker' graph mode') : texts = texts' := by
  rw [globalTexts_eq h] at hmem
  rw [globalTexts_eq h'] at hmem'
  by_cases hmode : mode = .staticLibrary
  all_goals by_cases hmode' : mode' = .staticLibrary
  all_goals cases tools.family
  all_goals simp only [hmode, hmode', if_true, if_false, List.mem_cons, Prod.mk.injEq,
    List.not_mem_nil, or_false] at hmem hmem'
  all_goals grind

theorem stem_mem_of_globalTexts (h : tools.linker lang mode = .ok linker)
    (hmem : (stem, texts) ∈ globalTexts linker graph mode) : stem ∈ flagsStems := by
  obtain ⟨hflags, hlibs, -⟩ := linker_stems_mem h
  rcases List.mem_cons.mp hmem with heq | hmem
  · exact (Prod.mk.inj heq).1 ▸ hflags
  · obtain ⟨name, hname, heq⟩ := List.mem_map.mp hmem
    exact (Prod.mk.inj heq).1 ▸ hlibs name (Option.mem_toList.mp hname)

/-- A link declares these variables, and its recipe. -/
theorem linkDeclarations_eq (linker : Linker) (graph : BuildGraph) (mode : LinkMode) :
    linkDeclarations graph linker mode =
      (globalTexts linker graph mode).flatMap (fun entry => flagsDeclarations entry.1 entry.2) ++
        [linkerRecipe linker] := by
  unfold linkDeclarations libsDeclarations globalTexts linkerRecipe
  cases linker.libsStem with
  | none => simp
  | some name => simp

/-- What is offered for a global variable with flags, and by whom. -/
theorem of_global?_flagsDeclarations {name : String} {d : Declaration} {value : Command}
    (hname : name ∈ flagsStems) (hstem : stem ∈ flagsStems) (hd : d ∈ flagsDeclarations name texts)
    (hoffer : d.global? (globalFlagsVariable stem) = some value) :
    name = stem ∧ value = .words (Piece.plainTexts texts) := by
  simp only [flagsDeclarations, List.mem_cons, List.not_mem_nil, or_false] at hd
  rcases hd with rfl | rfl
  · rw [Declaration.global?] at hoffer
    split at hoffer
    · next heq =>
        exact ⟨globalFlagsVariable_injective name hname stem hstem heq, (Option.some.inj hoffer).symm⟩
    · cases hoffer
  · cases hoffer

/-- **Every offer** for a variable of a link is the one that the link itself makes. -/
theorem offer_eq (h : tools.linker lang mode = .ok linker)
    (hmem : (stem, texts) ∈ globalTexts linker graph mode) {edge : Edge} {own : Contribution}
    (hown : edgeContribution tools graph edge = .ok own) {d : Declaration} (hd : d ∈ own.declarations)
    {value : Command} (hoffer : d.global? (globalFlagsVariable stem) = some value) :
    value = .words (Piece.plainTexts texts) := by
  have hstem := stem_mem_of_globalTexts h hmem
  cases edge with
  | compile edge =>
      simp only [edgeContribution, bind_eq_ok_iff, pure_eq_ok_iff] at hown
      obtain ⟨compiler, hcompiler, rfl⟩ := hown
      rcases List.mem_append.mp hd with hd | hd
      · -- no linker shares its variables with a compiler
        obtain ⟨heq, -⟩ := of_global?_flagsDeclarations (compiler_flagsStem_mem hcompiler) hstem hd hoffer
        obtain ⟨hflags, hlibs⟩ := linker_stems_ne hcompiler h
        rcases List.mem_cons.mp hmem with hfirst | hmem
        · exact absurd ((Prod.mk.inj hfirst).1.symm.trans heq.symm) hflags
        · obtain ⟨name, hname, hentry⟩ := List.mem_map.mp hmem
          rw [(Prod.mk.inj hentry).1, ← heq] at hname
          exact absurd (Option.mem_toList.mp hname) hlibs
      · obtain rfl := List.mem_singleton.mp hd
        cases hoffer
  | link edge =>
      simp only [edgeContribution, bind_eq_ok_iff] at hown
      obtain ⟨other, hother, hown⟩ := hown
      rw [linkContribution_declarations hown, linkDeclarations_eq] at hd
      rcases List.mem_append.mp hd with hd | hd
      · obtain ⟨⟨name, others⟩, hentry, hd⟩ := List.mem_flatMap.mp hd
        obtain ⟨rfl, rfl⟩ := of_global?_flagsDeclarations (stem_mem_of_globalTexts hother hentry) hstem
          hd hoffer
        rw [texts_eq_of_stem hother h hentry hmem]
      · obtain rfl := List.mem_singleton.mp hd
        cases hoffer
  | group edge =>
      obtain rfl := Except.ok.inj hown
      exact absurd hd List.not_mem_nil
  | command edge =>
      obtain rfl := Except.ok.inj hown
      exact absurd hd List.not_mem_nil

variable {env : Environment} {c : Contribution} {edge : LinkEdge}

/-- **The global variables of every link** hold the texts of its linker. -/
theorem find?_globalTexts (h : env.toolchain.linker edge.lang edge.mode = .ok linker)
    (hedge : .link edge ∈ graph.edges) (hc : modelContribution env graph = .ok c)
    (hmem : (stem, texts) ∈ globalTexts linker graph edge.mode) :
    (extend .empty c).globals.find? (globalFlagsVariable stem) =
      some (.words (Piece.plainTexts texts), .simple) := by
  obtain ⟨edges, hedges, hhead⟩ := findSome?_head stem hc
  -- the link itself is among those that offer something
  obtain ⟨own, hown, hsubset, -⟩ := mem_contributions hedges hedge
  have hoffers : .global (globalFlagsVariable stem) (.words (Piece.plainTexts texts)) ∈
      edges.declarations := by
    have hlink := hown
    simp only [edgeContribution, bind_eq_ok_iff] at hlink
    obtain ⟨other, hother, hlink⟩ := hlink
    obtain rfl := Except.ok.inj (hother.symm.trans h)
    refine hsubset ?_
    rw [linkContribution_declarations hlink, linkDeclarations_eq]
    exact List.mem_append_left _ (List.mem_flatMap.mpr ⟨_, hmem, List.mem_cons_self⟩)
  have hsome : (edges.declarations.findSome?
      (Declaration.global? (globalFlagsVariable stem))).isSome = true := by
    refine List.findSome?_isSome_iff.mpr ⟨_, hoffers, ?_⟩
    rw [Declaration.global?, if_pos rfl]
    rfl
  obtain ⟨value, hvalue⟩ := Option.isSome_iff_exists.mp hsome
  obtain ⟨d, hd, hoffer⟩ := List.exists_of_findSome?_eq_some hvalue
  obtain ⟨other, -, others, hothers, hd⟩ := exists_of_mem_contributions hedges hd
  rw [find?_globalFlagsVariable stem hc, hhead, hvalue, offer_eq h hmem hothers hd hoffer]
  rfl

end Globals

/-! ## Variables that nothing but flags hides -/

section Scopes

variable {env : Environment} {graph : BuildGraph} {c : Contribution} {v : Variable}

/-- A variable with flags, for one target or for all. -/
def IsFlagsVariable (v : Variable) : Prop :=
  ∃ stem ∈ flagsStems, v = flagsVariable stem

/-- A rule that sets no variables but flags. -/
def SetsFlags (rule : Rule) : Prop :=
  ∀ entry ∈ rule.overrides, IsFlagsVariable entry.1

theorem setsFlags_of_nil {rule : Rule} (h : rule.overrides = []) : SetsFlags rule := by
  intro entry hentry
  rw [h] at hentry
  exact absurd hentry List.not_mem_nil

/-- The rules of a link set the flags and the libraries. -/
theorem setsFlags_linkRules {tools : Toolchain} {linker : Linker} {edge : LinkEdge}
    (h : tools.linker edge.lang edge.mode = .ok linker) (flags libs : List Piece) :
    ∀ rule ∈ linkRules linker edge (linkVariables linker edge flags libs), SetsFlags rule := by
  obtain ⟨hflagsStem, hlibsStem, -⟩ := linker_stems_mem h
  have hall : ∀ entry ∈ linkVariables linker edge flags libs, IsFlagsVariable entry.1 := by
    rw [linkVariables_eq]
    refine List.forall_mem_append.mpr ⟨?_, ?_⟩
    · split
      · exact fun entry hentry => absurd hentry List.not_mem_nil
      · exact List.forall_mem_singleton.mpr ⟨_, hflagsStem, rfl⟩
    · split
      · exact fun entry hentry => absurd hentry List.not_mem_nil
      · intro entry hentry
        obtain ⟨name, hname, rfl⟩ := List.mem_map.mp hentry
        exact ⟨name, hlibsStem name (Option.mem_toList.mp hname), rfl⟩
  unfold linkRules
  cases edge.importLibrary with
  | none => exact List.forall_mem_singleton.mpr hall
  | some path =>
      exact List.forall_mem_cons.mpr ⟨setsFlags_of_nil rfl, List.forall_mem_singleton.mpr hall⟩

/-- **The rules of an edge** set no variables but flags. -/
theorem setsFlags_edge {tools : Toolchain} {edge : Edge} {own : Contribution}
    (h : edgeContribution tools graph edge = .ok own) : ∀ rule ∈ own.rules, SetsFlags rule := by
  cases edge with
  | compile edge =>
      simp only [edgeContribution, bind_eq_ok_iff, pure_eq_ok_iff] at h
      obtain ⟨compiler, hcompiler, rfl⟩ := h
      refine List.forall_mem_singleton.mpr fun entry hentry => ?_
      simp only [compileRule] at hentry
      split at hentry
      · exact absurd hentry List.not_mem_nil
      · obtain rfl := List.mem_singleton.mp hentry
        exact ⟨_, compiler_flagsStem_mem hcompiler, rfl⟩
  | link edge =>
      simp only [edgeContribution, linkContribution, bind_eq_ok_iff, pure_eq_ok_iff] at h
      obtain ⟨linker, hlinker, flags, -, libs, -, rfl⟩ := h
      exact setsFlags_linkRules hlinker flags libs
  | group edge =>
      obtain rfl := Except.ok.inj h
      exact List.forall_mem_singleton.mpr (setsFlags_of_nil rfl)
  | command edge =>
      obtain rfl := Except.ok.inj h
      exact List.forall_mem_singleton.mpr (setsFlags_of_nil rfl)

theorem setsFlags_testRules (tests : Tests) : ∀ rule ∈ testRules tests, SetsFlags rule := by
  unfold testRules
  split
  · exact fun rule hrule => absurd hrule List.not_mem_nil
  · refine List.forall_mem_append.mpr ⟨?_, List.forall_mem_singleton.mpr (setsFlags_of_nil rfl)⟩
    split
    · exact fun rule hrule => absurd hrule List.not_mem_nil
    · exact List.forall_mem_singleton.mpr (setsFlags_of_nil rfl)

/-- **All rules of a generation** set no variables but flags. -/
theorem setsFlags_rules (h : modelContribution env graph = .ok c) : ∀ rule ∈ c.rules, SetsFlags rule := by
  have hinstall : ∀ rule ∈ (installContribution graph.install).rules, SetsFlags rule := by
    unfold installContribution
    split
    · exact fun rule hrule => absurd hrule List.not_mem_nil
    · exact List.forall_mem_singleton.mpr (setsFlags_of_nil rfl)
  simp only [modelContribution, bind_eq_ok_iff, pure_eq_ok_iff] at h
  obtain ⟨edges, hedges, rfl⟩ := h
  intro rule hrule
  simp only [rules_append, headContribution, tailContribution, regenerateContribution,
    directoriesContribution, List.nil_append, List.mem_append, List.mem_singleton] at hrule
  rcases hrule with (rfl | hrule | hrule) | hrule | rfl | rfl
  · exact setsFlags_of_nil rfl
  · exact hinstall rule hrule
  · exact setsFlags_testRules graph.tests rule hrule
  · obtain ⟨edge, -, own, hown, hrule⟩ := exists_of_mem_part rfl rules_append hedges hrule
    exact setsFlags_edge hown rule hrule
  · exact setsFlags_of_nil rfl
  · exact setsFlags_of_nil rfl

/-- The scope of all targets holds no variables but flags. -/
theorem isFlagsVariable_of_mem_scopes (h : modelContribution env graph = .ok c) :
    ∀ scope ∈ (extend .empty c).scopes, ∀ entry ∈ scope.2, IsFlagsVariable entry.1 := by
  obtain ⟨bindings, hscopes, hfind⟩ := scopes_adoptAll (m := .empty) rfl c.declarations
  intro scope hscope entry hentry
  obtain rfl := List.mem_singleton.mp (hscopes ▸ hscope : scope ∈ [(Make.Pattern.any, bindings)])
  -- what is in the scope was offered
  have hsome : (bindings.find? entry.1).isSome = true :=
    Table.contains_iff.mpr (Table.mem_keys_of_mem hentry)
  have hempty : Table.find? ([] : Make.Bindings) entry.1 = none := rfl
  rw [hfind, hempty, Option.none_or, Option.isSome_map] at hsome
  obtain ⟨value, hvalue⟩ := Option.isSome_iff_exists.mp hsome
  obtain ⟨d, hd, hoffer⟩ := List.exists_of_findSome?_eq_some hvalue
  rcases declaration_cases h hd with ⟨root, hroot⟩ | ⟨kind, hd⟩ | htool
  · obtain ⟨other, rfl⟩ := directoryDeclaration?_eq_some hroot
    cases hoffer
  · simp only [installDeclarations, List.mem_cons, List.not_mem_nil, or_false] at hd
    rcases hd with rfl | rfl <;> cases hoffer
  · cases htool with
    | @flags name texts d hname hd =>
        simp only [flagsDeclarations, List.mem_cons, List.not_mem_nil, or_false] at hd
        rcases hd with rfl | rfl
        · cases hoffer
        · rw [Declaration.wildcard?] at hoffer
          split at hoffer
          · next heq => exact ⟨name, hname, heq.symm⟩
          · cases hoffer
    | compiler h => cases hoffer
    | linker h => cases hoffer

/-- **A variable without flags** has its global value, wherever make comes from. -/
theorem lookup_extend (h : modelContribution env graph = .ok c) (hv : ¬ IsFlagsVariable v)
    (way : List String) :
    (extend .empty c).lookup v way = ((extend .empty c).globals.find? v).map (·.1) := by
  refine Makefile.lookup_eq_globals ?_ ?_ way
  · rintro rule hrule entry hentry rfl
    exact hv (setsFlags_rules h rule hrule entry hentry)
  · rintro scope hscope entry hentry rfl
    exact hv (isFlagsVariable_of_mem_scopes h scope hscope entry hentry)

end Scopes

/-! ## What the rule of a link sets -/

section Overrides

variable {tools : Toolchain} {lang : String} {mode : LinkMode} {linker : Linker} {edge : LinkEdge}
  {rule : Rule} {flags libs : List Piece}

/-- The libraries of a linker stand in another variable than its flags. -/
theorem libsStem_ne_flagsStem (h : tools.linker lang mode = .ok linker) :
    linker.libsStem ≠ some linker.flagsStem := by
  obtain ⟨language, -, ⟨-, -, rfl⟩ | ⟨-, -, rfl⟩ | ⟨-, -, rfl⟩ | ⟨-, -, rfl⟩⟩ := linker_ok h
  · exact nofun
  · show some "ldlibs" ≠ some "ldflags"
    decide
  · exact nofun
  · show some "ldlibs" ≠ some "ldflags"
    decide

theorem libsVariable_ne_flagsVariable (h : tools.linker lang mode = .ok linker) {name : String}
    (hname : linker.libsStem = some name) : flagsVariable name ≠ flagsVariable linker.flagsStem := by
  obtain ⟨hflagsStem, hlibsStem, -⟩ := linker_stems_mem h
  intro heq
  obtain rfl := flagsVariable_injective name (hlibsStem name hname) _ hflagsStem heq
  exact libsStem_ne_flagsStem h hname

/-- **The flags on the rule of a link** are those of this binary, behind the flags of all. -/
theorem override?_flagsVariable (h : tools.linker lang mode = .ok linker)
    (hrule : RunsLink linker edge flags libs rule) :
    rule.override? (flagsVariable linker.flagsStem) =
      if flags.isEmpty then none else some (withGlobalFlags linker.flagsStem flags) := by
  -- the entry for the libraries comes last, so it is the first one that is looked at
  rw [Rule.override?, hrule.overrides, Make.assigned?, List.reverse_append]
  have hflags : Table.find? (List.reverse (if flags.isEmpty then []
      else [(flagsVariable linker.flagsStem, withGlobalFlags linker.flagsStem flags)]))
        (flagsVariable linker.flagsStem) =
      if flags.isEmpty then none else some (withGlobalFlags linker.flagsStem flags) := by
    split
    · rfl
    · exact if_pos rfl
  cases hname : linker.libsStem with
  | none =>
      rw [Option.toList_none, List.map_nil, ite_self]
      exact hflags
  | some name =>
      rw [Option.toList_some, List.map_singleton]
      split
      · exact hflags
      · exact (if_neg (libsVariable_ne_flagsVariable h hname)).trans hflags

/-- **The libraries on the rule of a link** are those of this binary, behind the libraries of all. -/
theorem override?_libsVariable (h : tools.linker lang mode = .ok linker)
    (hrule : RunsLink linker edge flags libs rule) {name : String} (hname : linker.libsStem = some name) :
    rule.override? (flagsVariable name) =
      if edge.libs.isEmpty then none else some (withGlobalFlags name libs) := by
  rw [Rule.override?, hrule.overrides, Make.assigned?, List.reverse_append, hname, Option.toList_some,
    List.map_singleton]
  by_cases hlibs : edge.libs.isEmpty = true
  · rw [if_pos hlibs, if_pos hlibs]
    show Table.find? (List.reverse (if flags.isEmpty then [] else _)) _ = none
    split
    · rfl
    · exact if_neg (libsVariable_ne_flagsVariable h hname).symm
  · rw [if_neg hlibs, if_neg hlibs]
    exact if_pos rfl

end Overrides

/-! ## The main result -/

section Settings

variable {env : Environment} {graph : BuildGraph} {c : Contribution} {edge : LinkEdge}
  {linker : Linker} {flags libs : List Piece} {rule : Rule} {name : String}

/-- The recipe of a linker with libraries refers to them. -/
theorem mentions_libsVariable {tools : Toolchain} {lang : String} {mode : LinkMode}
    (h : tools.linker lang mode = .ok linker) (hname : linker.libsStem = some name) :
    Mentions (linkLines linker) (flagsVariable name) := by
  have hlibs : (flagsVariable "ldlibs").name = "LDLIBS" := by decide +kernel
  obtain ⟨language, -, ⟨-, -, rfl⟩ | ⟨-, -, rfl⟩ | ⟨-, -, rfl⟩ | ⟨-, -, rfl⟩⟩ := linker_ok h
  · cases hname
  · obtain rfl : "ldlibs" = name := Option.some.inj hname
    rw [Mentions, references_cc, hlibs]
    simp
  · cases hname
  · obtain rfl : "ldlibs" = name := Option.some.inj hname
    rw [Mentions, references_msvc, hlibs]
    decide

/-- **What the recipe of a link finds** where make comes to it on a way: the program, the flags and the
    libraries of all links, and what its rule adds to these. -/
structure LinkSettings (m : Makefile) (linker : Linker) (graph : BuildGraph) (mode : LinkMode)
    (flags libs : List Piece) (way : List String) : Prop where
  program : m.lookup (programVariable linker.programStem) way = some (.line (.plain linker.program))
  globals : ∀ stem texts, (stem, texts) ∈ globalTexts linker graph mode →
    m.lookup (globalFlagsVariable stem) way = some (.words (Piece.plainTexts texts))
  flags : m.lookup (flagsVariable linker.flagsStem) way = some (withGlobalFlags linker.flagsStem flags)
  libs : ∀ name, linker.libsStem = some name →
    m.lookup (flagsVariable name) way = some (withGlobalFlags name libs)

/-- Programs and global flags are no flags of targets. -/
theorem not_isFlagsVariable {v : Variable}
    (h : (∃ stem ∈ programStems, v = programVariable stem) ∨
      ∃ stem ∈ flagsStems, v = globalFlagsVariable stem) : ¬ IsFlagsVariable v := by
  have hprogram : ∀ stem ∈ programStems, ∀ stem' ∈ flagsStems,
      programVariable stem ≠ flagsVariable stem' := by decide +kernel
  have hglobal : ∀ stem ∈ flagsStems, ∀ stem' ∈ flagsStems,
      globalFlagsVariable stem ≠ flagsVariable stem' := by decide +kernel
  rintro ⟨stem', hstem', hflags⟩
  rcases h with ⟨stem, hstem, rfl⟩ | ⟨stem, hstem, rfl⟩
  · exact hprogram stem hstem stem' hstem' hflags
  · exact hglobal stem hstem stem' hstem' hflags

/-- A link without libraries adds none. -/
theorem libsOf_of_isEmpty (hlibs : libsOf linker edge = .ok libs) (hempty : edge.libs.isEmpty = true) :
    libs = [] := by
  unfold libsOf linkLibs at hlibs
  rw [List.isEmpty_iff.mp hempty] at hlibs
  cases hname : linker.libsStem with
  | none =>
      rw [hname] at hlibs
      exact (Except.ok.inj hlibs).symm
  | some name =>
      rw [hname] at hlibs
      exact (Except.ok.inj hlibs).symm

/-- **The rule that runs a link, with what its recipe finds**, wherever make comes from. Make has no target
    without a name. -/
theorem linkSettings_extend (hc : modelContribution env graph = .ok c) (hfresh : Fresh .empty c.rules)
    (hedge : .link edge ∈ graph.edges) (hlinker : env.toolchain.linker edge.lang edge.mode = .ok linker)
    (hlibs : libsOf linker edge = .ok libs) (hrun : RunsLink linker edge flags libs rule)
    (hrule : rule ∈ c.rules) (hname : targetText (commandTarget edge) ≠ "") (way : List String) :
    LinkSettings (extend .empty c) linker graph edge.mode flags libs
      (targetText (commandTarget edge) :: way) := by
  obtain ⟨hflagsStem, hlibsStem, hprogramStem⟩ := linker_stems_mem hlinker
  -- the recipe refers to the flags and the libraries, so all targets have a value for them
  obtain ⟨bindings, hscopes, hfind⟩ := find?_of_mentions hc
  have hrecipe := Table.mem_of_find? (find?_linkLines hlinker hedge hc)
  have hnodup : ((extend .empty c).rules.flatMap Rule.claims).Nodup := hfresh.nodup
  have hclaims : targetText (commandTarget edge) ∈ rule.claims := by
    rw [Rule.claims, hrun.targets]
    exact List.mem_singleton.mpr rfl
  have hlookup : ∀ stem ∈ flagsStems, Mentions (linkLines linker) (flagsVariable stem) →
      (extend .empty c).lookup (flagsVariable stem) (targetText (commandTarget edge) :: way) =
        some ((rule.override? (flagsVariable stem)).getD (.words [(globalFlagsVariable stem).toPiece])) :=
    fun stem hstem hmentions =>
      Makefile.lookup_of_scopes hscopes (hfind _ hrecipe stem hstem hmentions) hnodup hrule hclaims
        hname way
  refine ⟨?_, fun stem texts hmem => ?_, ?_, fun name hlibsName => ?_⟩
  · rw [lookup_extend hc (not_isFlagsVariable (.inl ⟨_, hprogramStem, rfl⟩)),
      find?_programVariable hlinker hedge hc]
    rfl
  · rw [lookup_extend hc (not_isFlagsVariable (.inr ⟨stem, stem_mem_of_globalTexts hlinker hmem, rfl⟩)),
      find?_globalTexts hlinker hedge hc hmem]
    rfl
  · rw [hlookup _ hflagsStem (mentions_flagsVariable hlinker), override?_flagsVariable hlinker hrun]
    cases flags <;> rfl
  · rw [hlookup _ (hlibsStem name hlibsName) (mentions_libsVariable hlinker hlibsName),
      override?_libsVariable hlinker hrun hlibsName]
    cases hempty : edge.libs.isEmpty with
    | true =>
        rw [libsOf_of_isEmpty hlibs hempty]
        rfl
    | false => rfl

end Settings

end MakeGraph.Generate
