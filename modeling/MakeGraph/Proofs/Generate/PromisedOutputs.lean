import MakeGraph.Proofs.Generate.Includes
import MakeGraph.Proofs.Generate.LinkFlags
import MakeGraph.Proofs.Generate.LinkVariables

/-!
# `Proofs.Generate.PromisedOutputs` — a link makes what its rules promise

The rules of a link promise its outputs to make: the binary, and the import library if the description
has one. The command of the link has to ask its linker for each of them, and it does this in two places.
The binary is the second argument of the call, and the import library stands in a flag, which reaches
the command through the variable with the flags of the rule that runs it.

The two meet wherever the linker makes import libraries at all (`MakesImports`). A compiler driver for a
platform without import libraries is given no flag for one, so nothing asks for what the rules promise
there unless somebody wrote such a flag (`not_makesOutputs`).

## Contents

* `Requests` — what a command asks for
* `linkBody`, `render_linkLines` — where the recipe has the second argument and the flags
* `RunsCommand`, `runsCommand_extend` — the command as the rule runs it
* `KeepsPromises`, `makesOutputs_generate` — the main result
* `MakesOutputs`, `not_makesOutputs` — where no import libraries are made
-/

namespace MakeGraph.Generate

open Make (Call Command Makefile Piece Rule)
open Outcome

/-! ## What a command asks for -/

/-- **What a link asks its linker to make**: the file that is the second argument of its call (the first
    one is the recipe), and those behind the flag for import libraries. An option that somebody wrote may
    ask for more. -/
def Requests (family : ToolFamily) (call : Call) (flags : Command) (p : RootedPath) : Prop :=
  call.args[2]? = some [.path p] ∨ flagged (importFlag family) (.path p) ∈ flags.pieces

/-! ## The linkers -/

section Linkers

variable {tools : Toolchain} {linker : Linker} {edge : LinkEdge}

/-- The recipe of a linker: the second argument is where its output is named. -/
def linkBody (family : ToolFamily) (edge : LinkEdge) : String :=
  if edge.mode = .staticLibrary then
    match family with
    | .cc => "$(AR) $(ARFLAGS) $2 $1"
    | .msvc => "$(LIB) $(LIBFLAGS) $1 /OUT':'$2"
  else
    match family with
    | .cc => "$(" ++ driverName edge.lang ++ ") $(LDFLAGS) $1 $(LDLIBS) -o $2"
    | .msvc => "$(LINK) $(LDFLAGS) $1 $(LDLIBS) /OUT':'$2"

theorem render_linkLines (h : tools.linker edge.lang edge.mode = .ok linker) :
    (linkLines linker).map Command.render = [linkBody tools.family edge] := by
  obtain ⟨language, hlanguage, ⟨hfamily, hmode, rfl⟩ | ⟨hfamily, hmode, rfl⟩ |
    ⟨hfamily, hmode, rfl⟩ | ⟨hfamily, hmode, rfl⟩⟩ := linker_ok h
  · rw [render_ar, hfamily, linkBody, if_pos hmode]
  · rw [render_cc, hfamily, linkBody, if_neg hmode]
    rcases language_cases hlanguage with ⟨hlang, rfl⟩ | ⟨hlang, rfl⟩
    · rw [hlang]
      rfl
    · rw [hlang]
      rfl
  · rw [render_msvcLib, hfamily, linkBody, if_pos hmode]
  · rw [render_msvc, hfamily, linkBody, if_neg hmode]

end Linkers

/-! ## The command as the rule runs it -/

/-- The stamp of a link is a target with a name. -/
theorem targetText_stamp_ne (edge : LinkEdge) : targetText (stamp edge) ≠ "" := by
  have hending : IsBareEnding stampExtension := by decide
  have htext : (stamp edge).path.text ≠ "" := fun hempty =>
    absurd (String.append_eq_empty_iff.mp hempty).2 (by decide)
  intro hempty
  rw [targetText, render_path_of_ne htext] at hempty
  have hescaped := (String.append_eq_empty_iff.mp hempty).2
  rw [show (stamp edge).path.text = edge.output.path.text ++ stampExtension from rfl,
    escape_target_append hending] at hescaped
  exact absurd (String.append_eq_empty_iff.mp hescaped).2 (by decide)

/-- **The rule that runs a link, with the flags in effect**: it calls the recipe of the linker with the
    output as the second argument, and wherever make comes from, the recipe finds these flags in the
    variable that it refers to. Make has no target without a name. -/
structure RunsCommand (m : Makefile) (family : ToolFamily) (edge : LinkEdge) (linker : Linker)
    (rule : Rule) (flags : Command) : Prop where
  mem_rulesOf : rule ∈ rulesOf m (.link edge)
  targets : rule.targets = [.path (commandTarget edge)]
  recipe : rule.recipe = some (linkRecipeOf linker edge)
  output : (linkCall linker edge).args[2]? = some [.path edge.output]
  body : ∃ lines, m.defines.find? (sharedRecipe linker.recipeStem) = some lines ∧
    lines.map Command.render = [linkBody family edge] ∧
    Mentions lines (flagsVariable linker.flagsStem)
  effect : (edge.importLibrary = none → targetText edge.output ≠ "") → ∀ way,
    m.lookup (flagsVariable linker.flagsStem) (targetText (commandTarget edge) :: way) = some flags

/-- **What a link promises and asks for**: its rules make its outputs, and a stamp if there are two, and
    every output is asked for. -/
def KeepsPromises (m : Makefile) (family : ToolFamily) (edge : LinkEdge) (linker : Linker)
    (flags : Command) : Prop :=
  (rulesOf m (.link edge)).flatMap (·.targets) = (targetPaths (.link edge)).map .path ∧
  ∀ p ∈ edge.outputs, Requests family (linkCall linker edge) flags p

section Generation

variable {env : Environment} {graph : BuildGraph} {c : Contribution} {edge : LinkEdge}

/-- The rules of a link promise its outputs, and the stamp if there are two. -/
theorem flatMap_targets_of_hasLink {m : Makefile} {tools : Toolchain} (h : HasLink m tools edge) :
    (rulesOf m (.link edge)).flatMap (·.targets) = (targetPaths (.link edge)).map .path := by
  obtain ⟨linker, flags, libs, rule, -, -, -, hrule, hone, htwo, -⟩ := h
  cases hlibrary : edge.importLibrary with
  | none =>
      have hcommand : commandTarget edge = edge.output := by rw [commandTarget, hlibrary]
      rw [hone hlibrary, List.flatMap_singleton, hrule.targets, targetPaths, hlibrary, hcommand]
      rfl
  | some path =>
      have hcommand : commandTarget edge = stamp edge := by rw [commandTarget, hlibrary]
      have houtputs : edge.outputs = [edge.output, path] := by
        rw [LinkEdge.outputs, hlibrary]
        rfl
      obtain ⟨awaits, hawaits, hrules⟩ := htwo (hlibrary ▸ Option.some_ne_none path)
      rw [hrules, List.flatMap_cons, List.flatMap_singleton, hawaits.targets, hrule.targets,
        targetPaths, hlibrary, hcommand, houtputs]
      rfl

/-- **The command of a link** in the model, and its own flags behind those of all. -/
theorem runsCommand_extend (hedge : .link edge ∈ graph.edges)
    (hc : modelContribution env graph = .ok c) (hfresh : Fresh .empty c.rules) :
    ∃ linker rule flags, env.toolchain.linker edge.lang edge.mode = .ok linker ∧
      linkFlags linker edge = .ok flags ∧
      RunsCommand (extend .empty c) env.family edge linker rule
        (withGlobalFlags linker.flagsStem flags) := by
  obtain ⟨linker, flags, libs, rule, hlinker, hflags, hlibs, hrule, hone, htwo, hdefined⟩ :=
    hasLink_modelContribution hedge hc hfresh
  have hmem : rule ∈ rulesOf (extend .empty c) (.link edge) := by
    by_cases hlibrary : edge.importLibrary = none
    · rw [hone hlibrary]
      exact List.mem_singleton.mpr rfl
    · obtain ⟨awaits, -, hrules⟩ := htwo hlibrary
      rw [hrules]
      exact List.mem_cons_of_mem _ List.mem_cons_self
  have hmentions : Mentions (linkLines linker) (flagsVariable linker.flagsStem) :=
    mentions_flagsVariable hlinker
  refine ⟨linker, rule, flags, hlinker, hflags, hmem, hrule.targets, hrule.recipe, rfl,
    ⟨_, hdefined, render_linkLines hlinker, hmentions⟩, fun hnamed way => ?_⟩
  have hname : targetText (commandTarget edge) ≠ "" := by
    unfold commandTarget
    cases hlibrary : edge.importLibrary with
    | none => exact hnamed hlibrary
    | some path => exact targetText_stamp_ne edge
  exact (linkSettings_extend hc hfresh hedge hlinker hlibs hrule (List.mem_of_mem_filter hmem) hname
    way).flags

/-- The import library is among the flags of a link whose linker makes such libraries. -/
theorem flagged_mem_linkFlags {tools : Toolchain} {linker : Linker} {flags : List Piece}
    {path : RootedPath} (h : tools.linker edge.lang edge.mode = .ok linker)
    (hflags : linkFlags linker edge = .ok flags) (hlibrary : edge.importLibrary = some path)
    (hmakes : MakesImports tools) : flagged (importFlag tools.family) (.path path) ∈ flags := by
  rw [linkFlags_eq h hflags, hlibrary]
  refine List.mem_append_right _ ?_
  rw [importedFlags, if_pos hmakes]
  exact List.mem_singleton.mpr rfl

/-! ## The main result -/

/-- **A link makes what its rules promise**, wherever its linker makes import libraries at all. In every
    Makefile that is generated, the command that a rule of a link runs names the output as the second
    argument of its call, and if the linker makes import libraries, one of the flags in effect is for that
    of the link. A link that has none, or a linker that makes them, so asks for all that its rules
    promise. -/
theorem makesOutputs_generate {products : Products} (hproducts : generate env graph = .ok products) :
    ∃ m, modelWith usualHandlers env graph = .ok m ∧ products.makefile = m.render ∧
      ∀ edge, .link edge ∈ graph.edges → ∃ linker rule flags,
        env.toolchain.linker edge.lang edge.mode = .ok linker ∧
        RunsCommand m env.family edge linker rule flags ∧
        (∀ path, edge.importLibrary = some path → MakesImports env.toolchain →
          flagged (importFlag env.family) (.path path) ∈ flags.pieces) ∧
        (edge.importLibrary = none ∨ MakesImports env.toolchain →
          KeepsPromises m env.family edge linker flags) := by
  obtain ⟨m, hm, rfl⟩ := generate_eq_ok_iff.mp hproducts
  obtain ⟨c, hc, hfresh, rfl⟩ := modelWith_eq_ok_iff.mp hm
  refine ⟨_, hm, rfl, fun edge hedge => ?_⟩
  obtain ⟨linker, rule, flags, hlinker, hflags, hruns⟩ := runsCommand_extend hedge hc hfresh
  have hflagged : ∀ path, edge.importLibrary = some path → MakesImports env.toolchain →
      flagged (importFlag env.family) (.path path) ∈
        (withGlobalFlags linker.flagsStem flags).pieces := by
    intro path hlibrary hmakes
    -- the flags of all links stand in front
    exact List.mem_cons_of_mem _ (flagged_mem_linkFlags hlinker hflags hlibrary hmakes)
  refine ⟨linker, rule, _, hlinker, hruns, hflagged, fun hmakes =>
    ⟨flatMap_targets_of_hasLink (hasLink_modelContribution hedge hc hfresh), fun p hp => ?_⟩⟩
  rcases List.mem_cons.mp hp with rfl | hp
  · exact .inl hruns.output
  · have hlibrary : edge.importLibrary = some p := Option.mem_toList.mp hp
    refine .inr (hflagged p hlibrary (hmakes.resolve_left fun hnone => ?_))
    rw [hnone] at hlibrary
    cases hlibrary

end Generation

/-- A shared library with an import library. -/
def dllEdge : LinkEdge where
  output := .build "foo.dll"
  importLibrary := some (.build "libfoo.dll.a")
  mode := .sharedLibrary
  lang := "c"
  files := [.build "foo.o"]

theorem accepted_dllEdge (env : Environment) :
    Accepted env { (default : BuildGraph) with edges := [.link dllEdge] } :=
  ⟨by simp [EdgeAccepted, dllEdge], by decide +kernel⟩

theorem targetPaths_dllEdge : targetPaths (.link dllEdge) =
    [.build "foo.dll", .build "libfoo.dll.a", .build "foo.dll.stamp"] := by
  decide +kernel

/-- A compiler driver for Cygwin is asked for both of its files. -/
theorem keepsPromises_dllEdge :
    ∃ (products : Products) (m : Makefile) (linker : Linker) (rule : Rule) (flags : Command),
      generate { (default : Environment) with platform := .cygwin }
        { (default : BuildGraph) with edges := [.link dllEdge] } = .ok products ∧
      products.makefile = m.render ∧ RunsCommand m .cc dllEdge linker rule flags ∧
      flagged "-Wl,--out-implib=" (.path (.build "libfoo.dll.a")) ∈ flags.pieces ∧
      (rulesOf m (.link dllEdge)).flatMap (·.targets) =
        [.path (.build "foo.dll"), .path (.build "libfoo.dll.a"), .path (.build "foo.dll.stamp")] ∧
      Requests .cc (linkCall linker dllEdge) flags (.build "foo.dll") ∧
      Requests .cc (linkCall linker dllEdge) flags (.build "libfoo.dll.a") := by
  obtain ⟨products, hproducts⟩ := (accepted_dllEdge
    { (default : Environment) with platform := .cygwin }).generate_succeeds
  obtain ⟨m, -, hrender, hlinks⟩ := makesOutputs_generate hproducts
  obtain ⟨linker, rule, flags, -, hruns, hflagged, hkeeps⟩ := hlinks dllEdge List.mem_cons_self
  obtain ⟨htargets, houtputs⟩ := hkeeps (.inr (by decide))
  have houtputs' : ∀ p ∈ [RootedPath.build "foo.dll", .build "libfoo.dll.a"],
      Requests .cc (linkCall linker dllEdge) flags p := houtputs
  rw [targetPaths_dllEdge] at htargets
  exact ⟨products, m, linker, rule, flags, hproducts, hrender, hruns, hflagged _ rfl (by decide),
    htargets, houtputs' _ List.mem_cons_self, houtputs' _ (List.mem_cons_of_mem _ List.mem_cons_self)⟩

/-- A link whose command, as a rule runs it, asks for all that the rules of the link promise. -/
def MakesOutputs (m : Makefile) (tools : Toolchain) (edge : LinkEdge) : Prop :=
  ∃ linker rule flags, tools.linker edge.lang edge.mode = .ok linker ∧
    RunsCommand m tools.family edge linker rule flags ∧
    KeepsPromises m tools.family edge linker flags

/-- A compiler driver for a platform without import libraries is not asked for one: it gets two flags for
    the kind of binary and no others, in whatever variables they stand. -/
theorem not_makesOutputs :
    ∃ (products : Products) (m : Makefile),
      generate default { (default : BuildGraph) with edges := [.link dllEdge] } = .ok products ∧
      products.makefile = m.render ∧
      (rulesOf m (.link dllEdge)).flatMap (·.targets) =
        [.path (.build "foo.dll"), .path (.build "libfoo.dll.a"), .path (.build "foo.dll.stamp")] ∧
      (∀ way, ∃ flags, m.lookup (flagsVariable "ldflags") ("foo.dll.stamp" :: way) = some flags ∧
        m.expandGlobals flags = [.plain "-shared", .plain "-fPIC"]) ∧
      ¬ MakesOutputs m (default : Environment).toolchain dllEdge := by
  obtain ⟨products, hproducts⟩ := (accepted_dllEdge default).generate_succeeds
  obtain ⟨m, hm, rfl⟩ := generate_eq_ok_iff.mp hproducts
  obtain ⟨c, hc, hfresh, rfl⟩ := modelWith_eq_ok_iff.mp hm
  have htargets := flatMap_targets_of_hasLink
    (hasLink_modelContribution List.mem_cons_self hc hfresh)
  rw [targetPaths_dllEdge] at htargets
  obtain ⟨linker, rule, own, hlinker, hown, hruns⟩ := runsCommand_extend List.mem_cons_self hc hfresh
  obtain rfl : Linker.cc .c .sharedLibrary .linux default = linker := Except.ok.inj hlinker
  obtain rfl : [.plain "-shared", .plain "-fPIC"] = own := Except.ok.inj hown
  have hstamp : targetText (commandTarget dllEdge) = "foo.dll.stamp" := by decide +kernel
  have heffect := hruns.effect nofun
  rw [hstamp] at heffect
  refine ⟨_, _, hproducts, rfl, htargets, fun way => ⟨_, heffect way, ?_⟩, ?_⟩
  · -- no flags are written for all links
    have hglobal : (extend .empty c).globals.find? (globalFlagsVariable "ldflags") =
        some (.words [], .simple) :=
      find?_globalTexts hlinker List.mem_cons_self hc List.mem_cons_self
    show ((globalFlagsVariable "ldflags").toPiece :: _).flatMap _ = _
    rw [List.flatMap_cons, Makefile.resolve_toPiece hglobal]
    rfl
  · rintro ⟨linker', rule', flags, hlinker', hruns', -, houtputs⟩
    obtain rfl : Linker.cc .c .sharedLibrary .linux default = linker' := Except.ok.inj hlinker'
    -- what is in effect for the stamp is what the rule sets
    have heffect' := hruns'.effect nofun []
    rw [hstamp, heffect [], Option.some.injEq] at heffect'
    subst heffect'
    rcases houtputs (.build "libfoo.dll.a") (List.mem_cons_of_mem _ List.mem_cons_self) with hcall | hflag
    · rw [hruns'.output, Option.some.injEq, List.cons.injEq, Piece.path.injEq] at hcall
      exact absurd hcall.1 (by decide)
    · -- none of the flags has a path behind it
      rcases List.mem_cons.mp hflag with hglobal | hflag
      · cases hglobal
      rcases List.mem_cons.mp hflag with hshared | hflag
      · cases hshared
      · cases List.mem_singleton.mp hflag

end MakeGraph.Generate
