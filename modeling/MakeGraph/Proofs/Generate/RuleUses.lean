import MakeGraph.Proofs.Generate.LinkFlags
import MakeGraph.Proofs.Generate.TestCommand
import MakeGraph.Proofs.Make.Uses

/-!
# `Proofs.Generate.RuleUses` — the names that recipes and rules use

What a tool writes is plain text, paths, and the operands that it is given. So the recipe of a tool
uses the variables of its program and its flags, and a rule uses the variables of directories and
whatever its tool has declared. The names are not looked up anywhere here: each lemma takes a set of
names and says which of them it needs.

## Contents

* `usesOnly_compileLines`, `usesOnly_linkLines` — shared recipes
* `usesOnly_compileFlags`, `usesOnly_link` — the flags of single files
* `usesOnly_compileRule`, `usesOnly_linkRules` and others — the rules of each kind
-/

namespace MakeGraph.Generate

open Make (Call Command HasRoots Piece Recipe Rule Variable isPlainName)
open Make.Piece (usesOnly_join usesOnly_nil usesOnly_path usesOnly_paths usesOnly_plain
  usesOnly_plainTexts usesOnly_toPiece usesOnly_verbatim)
open Make.Command (usesOnly_line usesOnly_words)
open Outcome

/-! ## Names -/

section Names

variable {name stem : String}

theorem not_mem_of_isPlainName (h : isPlainName name = true) : '$' ∉ name.toList :=
  fun hmem => (Make.ne_of_isPlainName h hmem).1 rfl

theorem isPlainName_flagsVariable :
    ∀ stem ∈ flagsStems, isPlainName (flagsVariable stem).name = true ∧
      isPlainName (globalFlagsVariable stem).name = true := by
  decide +kernel

theorem isPlainName_programVariable :
    ∀ stem ∈ programStems, isPlainName (programVariable stem).name = true := by
  decide +kernel

theorem isPlainName_sharedRecipe :
    ∀ stem ∈ recipeStems, isPlainName (sharedRecipe stem).name = true := by
  decide +kernel

theorem name_automatic : (Variable.named "@").name = "@" ∧ (Variable.named "<").name = "<" ∧
    (Variable.named "1").name = "1" ∧ (Variable.named "2").name = "2" := by
  decide +kernel

end Names

/-! ## Shared recipes -/

section Recipes

variable {tools : Toolchain} {lang : String} {P : String → Prop}

/-- The use of a variable that make sets itself. -/
theorem usesOnly_automatic {name : String} (hname : (Variable.named name).name = name)
    (hplain : isPlainName name = true) (h : P name) : (Variable.named name).toPiece.UsesOnly P :=
  usesOnly_toPiece (hname.symm ▸ hplain) (hname.symm ▸ h)

/-- A flag with a piece right behind it. -/
theorem usesOnly_flagged (hcomma : P ",") (flag : String) {operand : Piece}
    (h : operand.UsesOnly P) : (flagged flag operand).UsesOnly P := by
  refine usesOnly_join fun piece hpiece => ?_
  rcases List.mem_pair.mp hpiece with rfl | rfl
  · exact usesOnly_plain hcomma flag
  · exact h

/-- **The command of a compiler** is made of its operands and of plain text. -/
theorem usesOnly_compilerCommand {compiler : Compiler} (h : tools.compiler lang = .ok compiler)
    (hcomma : P ",") {c : CompileOperands} (hprogram : c.compiler.UsesOnly P)
    (hsource : c.source.UsesOnly P) (hobject : c.object.UsesOnly P)
    (hflags : ∀ flag ∈ c.flags, flag.UsesOnly P)
    (hreport : ∀ name, c.report = .file name → name.UsesOnly P) :
    ∀ piece ∈ compiler.command c, piece.UsesOnly P := by
  have hplain := usesOnly_plain hcomma
  obtain ⟨language, -, ⟨-, rfl⟩ | ⟨-, rfl⟩⟩ := compiler_ok h
  · intro piece hpiece
    simp only [Compiler.cc, List.mem_append, List.mem_cons, List.not_mem_nil, or_false] at hpiece
    rcases hpiece with (((rfl | hpiece) | rfl | rfl) | hreported) | rfl | rfl
    · exact hprogram
    · exact hflags piece hpiece
    · exact hplain _
    · exact hsource
    · cases hasked : c.report with
      | file name =>
          simp only [hasked, List.mem_cons, List.not_mem_nil, or_false] at hreported
          rcases hreported with rfl | rfl | rfl
          exacts [hplain _, hplain _, hreport _ hasked]
      | none | inline =>
          rw [hasked] at hreported
          exact usesOnly_nil piece hreported
    · exact hplain _
    · exact hobject
  · intro piece hpiece
    simp only [Compiler.msvc, List.mem_append, List.mem_cons, List.not_mem_nil, or_false] at hpiece
    rcases hpiece with ((rfl | hpiece) | hreported) | rfl | rfl | rfl
    · exact hprogram
    · exact hflags piece hpiece
    · cases hasked : c.report with
      | none =>
          rw [hasked] at hreported
          exact usesOnly_nil piece hreported
      | file _ | inline =>
          rw [hasked] at hreported
          exact List.forall_mem_singleton.mpr (hplain _) piece hreported
    · exact hplain _
    · exact hsource
    · exact usesOnly_flagged hcomma _ hobject

/-- **The recipe of a compiler** uses its program, its flags, the source and the object. -/
theorem usesOnly_compileLines {compiler : Compiler} (h : tools.compiler lang = .ok compiler)
    (hcomma : P ",") (htarget : P "@") (hsource : P "<")
    (hflags : P (flagsVariable compiler.flagsStem).name)
    (hprogram : P (programVariable compiler.programStem).name) :
    ∀ line ∈ compileLines compiler, line.UsesOnly P := by
  obtain ⟨hat, hless, -, -⟩ := name_automatic
  have hplain := usesOnly_plain hcomma
  have hobject : (Variable.named "@").toPiece.UsesOnly P :=
    usesOnly_automatic hat (by decide) htarget
  have hdepfile : (Piece.join [(Variable.named "@").toPiece, .plain ".d"]).UsesOnly P := by
    refine usesOnly_join fun piece hpiece => ?_
    rcases List.mem_pair.mp hpiece with rfl | rfl
    · exact hobject
    · exact hplain ".d"
  have hcommand : ∀ report : ReportRequest, (∀ name, report = .file name → name.UsesOnly P) →
      (Command.words (compiler.command {
        compiler := (programVariable compiler.programStem).toPiece
        source := (Variable.named "<").toPiece
        object := (Variable.named "@").toPiece
        report
        flags := [(flagsVariable compiler.flagsStem).toPiece] })).UsesOnly P := by
    intro report hreport
    refine usesOnly_words (usesOnly_compilerCommand h hcomma ?_ ?_ hobject ?_ hreport)
    · exact usesOnly_toPiece (isPlainName_programVariable _ (compiler_programStem_mem h)) hprogram
    · exact usesOnly_automatic hless (by decide) hsource
    · intro flag hflag
      obtain rfl := List.mem_singleton.mp hflag
      exact usesOnly_toPiece (isPlainName_flagsVariable _ (compiler_flagsStem_mem h)).1 hflags
  -- the lines behind the command extend the file of dependencies, if there is one
  unfold compileLines compileRecipe
  cases compiler.headerReport with
  | none => exact List.forall_mem_singleton.mpr (hcommand _ (by simp))
  | msvc => exact List.forall_mem_singleton.mpr (hcommand _ (by simp))
  | gcc =>
      refine List.forall_mem_cons.mpr ⟨hcommand _ ?_, ?_⟩
      · rintro name hname
        exact ReportRequest.file.inj hname ▸ hdepfile
      · have hpieces : ∀ first last : String, (Piece.join [.plain first,
            Piece.join [(Variable.named "@").toPiece, .plain ".d"], .plain last]).UsesOnly P := by
          intro first last
          refine usesOnly_join ?_
          simp only [List.forall_mem_cons, hplain, hdepfile, List.not_mem_nil, false_implies,
            implies_true, and_self]
        refine List.forall_mem_cons.mpr ⟨usesOnly_line (hpieces _ _), ?_⟩
        refine List.forall_mem_singleton.mpr (usesOnly_line (usesOnly_join ?_))
        simp only [List.forall_mem_cons, hplain, hdepfile, List.not_mem_nil, false_implies,
          implies_true, and_self]

/-- **The command of a linker** is made of its operands and of plain text. -/
theorem usesOnly_linkerCommand {mode : LinkMode} {linker : Linker}
    (h : tools.linker lang mode = .ok linker) (hcomma : P ",") {c : LinkOperands}
    (hprogram : c.linker.UsesOnly P) (hinputs : c.inputs.UsesOnly P) (houtput : c.output.UsesOnly P)
    (hlibs : ∀ libs ∈ c.libs, libs.UsesOnly P) (hflags : ∀ flag ∈ c.flags, flag.UsesOnly P) :
    ∀ piece ∈ linker.command c, piece.UsesOnly P := by
  have hplain := usesOnly_plain hcomma
  have hlast : ∀ flag, (flagged flag c.output).UsesOnly P := fun flag =>
    usesOnly_flagged hcomma flag houtput
  have hlibs : ∀ piece ∈ c.libs.toList, piece.UsesOnly P := fun piece hpiece =>
    hlibs piece (Option.mem_toList.mp hpiece)
  intro piece hpiece
  obtain ⟨language, -, ⟨-, -, rfl⟩ | ⟨-, -, rfl⟩ | ⟨-, -, rfl⟩ | ⟨-, -, rfl⟩⟩ := linker_ok h
  all_goals
    simp only [Linker.ar, Linker.cc, Linker.msvc, Linker.msvcLib, List.mem_append, List.mem_cons,
      List.not_mem_nil, or_false] at hpiece
  · rcases hpiece with (rfl | hpiece) | rfl | rfl
    exacts [hprogram, hflags piece hpiece, houtput, hinputs]
  · rcases hpiece with (((rfl | hpiece) | rfl) | hpiece) | rfl | rfl
    exacts [hprogram, hflags piece hpiece, hinputs, hlibs piece hpiece, hplain _, houtput]
  · rcases hpiece with (rfl | hpiece) | rfl | rfl
    exacts [hprogram, hflags piece hpiece, hinputs, hlast _]
  · rcases hpiece with (((rfl | hpiece) | rfl) | hpiece) | rfl
    exacts [hprogram, hflags piece hpiece, hinputs, hlibs piece hpiece, hlast _]

/-- **The recipe of a linker** uses its program, its flags and libraries, and its two arguments. -/
theorem usesOnly_linkLines {mode : LinkMode} {linker : Linker}
    (h : tools.linker lang mode = .ok linker) (hcomma : P ",") (hinputs : P "1") (houtput : P "2")
    (hflags : P (flagsVariable linker.flagsStem).name)
    (hlibs : ∀ stem ∈ linker.libsStem, P (flagsVariable stem).name)
    (hprogram : P (programVariable linker.programStem).name) :
    ∀ line ∈ linkLines linker, line.UsesOnly P := by
  obtain ⟨-, -, hone, htwo⟩ := name_automatic
  obtain ⟨hflagsStem, hlibsStem, hprogramStem⟩ := linker_stems_mem h
  refine List.forall_mem_singleton.mpr (usesOnly_words (usesOnly_linkerCommand h hcomma ?_ ?_ ?_ ?_ ?_))
  · exact usesOnly_toPiece (isPlainName_programVariable _ hprogramStem) hprogram
  · exact usesOnly_automatic hone (by decide) hinputs
  · exact usesOnly_automatic htwo (by decide) houtput
  · intro libs hmem
    obtain ⟨stem, hstem, rfl⟩ := Option.map_eq_some_iff.mp hmem
    exact usesOnly_toPiece (isPlainName_flagsVariable _ (hlibsStem stem hstem)).1 (hlibs stem hstem)
  · intro flag hflag
    obtain rfl := List.mem_singleton.mp hflag
    exact usesOnly_toPiece (isPlainName_flagsVariable _ hflagsStem).1 hflags

end Recipes

/-! ## The flags of single files -/

section Flags

variable {tools : Toolchain} {lang : String} {P : String → Prop}

/-- The flags of one file use the variables of directories. -/
theorem usesOnly_compileFlags {compiler : Compiler} (h : tools.compiler lang = .ok compiler)
    (hroots : HasRoots P) (edge : CompileEdge) :
    ∀ piece ∈ compileFlags compiler edge, piece.UsesOnly P := by
  have hshared : ∀ piece ∈ compiler.sharedFlags, piece.UsesOnly P := by
    obtain ⟨language, -, ⟨-, rfl⟩ | ⟨-, rfl⟩⟩ := compiler_ok h
    · exact List.forall_mem_singleton.mpr (usesOnly_plain hroots.comma _)
    · exact usesOnly_nil
  have hinclude : ∀ dir, ∀ piece ∈ compiler.includeFlags dir, piece.UsesOnly P := by
    obtain ⟨language, -, ⟨-, rfl⟩ | ⟨-, rfl⟩⟩ := compiler_ok h
    all_goals
      exact fun dir => List.forall_mem_singleton.mpr
        (usesOnly_flagged hroots.comma _ (usesOnly_path hroots dir.path))
  unfold compileFlags
  refine List.forall_mem_append.mpr ⟨List.forall_mem_append.mpr ⟨?_, ?_⟩, ?_⟩
  · split
    · exact hshared
    · exact usesOnly_nil
  · exact List.forall_mem_flatMap.mpr fun dir _ => hinclude dir
  · exact usesOnly_plainTexts hroots.comma edge.options

/-- A word of a linker uses the variables of the directories that its paths are in. -/
theorem NamesOnly.usesOnly (hroots : HasRoots P) {named : RootedPath → Prop} {piece : Piece}
    (h : NamesOnly named piece) : piece.UsesOnly P := by
  cases h with
  | text text => exact usesOnly_plain hroots.comma text
  | path h => exact usesOnly_path hroots _
  | flagged flag h => exact usesOnly_flagged hroots.comma flag (usesOnly_path hroots _)

/-- **The flags and the libraries of one binary** use the variables of directories. -/
theorem usesOnly_link {linker : Linker} (hroots : HasRoots P) {edge : LinkEdge}
    {flags libs : List Piece} (h : tools.linker edge.lang edge.mode = .ok linker)
    (hflags : linkFlags linker edge = .ok flags) (hlibs : libsOf linker edge = .ok libs) :
    (∀ piece ∈ flags, piece.UsesOnly P) ∧ (∀ piece ∈ libs, piece.UsesOnly P) :=
  List.forall_mem_append.mp fun piece hpiece =>
    (namesOnly_link h hflags hlibs piece hpiece).usesOnly hroots

end Flags

/-! ## Rules -/

section Rules

variable {tools : Toolchain} {now later : String → Prop}

/-- The value of a flags variable for one rule. -/
theorem usesOnly_withGlobalFlags {stem : String} {flags : List Piece} (hstem : stem ∈ flagsStems)
    (hglobal : now (globalFlagsVariable stem).name) (hflags : ∀ flag ∈ flags, flag.UsesOnly now) :
    '$' ∉ (flagsVariable stem).name.toList ∧ (withGlobalFlags stem flags).UsesOnly now := by
  obtain ⟨hname, hglobalName⟩ := isPlainName_flagsVariable stem hstem
  exact ⟨not_mem_of_isPlainName hname,
    usesOnly_words (List.forall_mem_cons.mpr ⟨usesOnly_toPiece hglobalName hglobal, hflags⟩)⟩

theorem usesOnly_directoryMarks (hroots : HasRoots now) (outputs : List RootedPath) :
    ∀ piece ∈ directoryMarks outputs, piece.UsesOnly now := by
  intro piece hpiece
  obtain ⟨dir, -, rfl⟩ := List.mem_map.mp hpiece
  exact usesOnly_path hroots _

/-- **A compile rule** uses the variables of directories and the global flags of its compiler, and it
    refers to the recipe of its compiler. -/
theorem usesOnly_compileRule {compiler : Compiler} {edge : CompileEdge}
    (h : tools.compiler edge.lang = .ok compiler) (hroots : HasRoots now)
    (hglobal : now (globalFlagsVariable compiler.flagsStem).name)
    (hrecipe : later (sharedRecipe compiler.recipeStem).name) :
    (compileRule compiler edge).UsesOnly now later where
  targets := List.forall_mem_singleton.mpr (usesOnly_path hroots _)
  deps := usesOnly_paths hroots _
  orderOnly := usesOnly_directoryMarks hroots _
  overrides := by
    intro entry hentry
    simp only [compileRule] at hentry
    split at hentry
    · exact absurd hentry List.not_mem_nil
    · obtain rfl := List.mem_singleton.mp hentry
      exact usesOnly_withGlobalFlags (compiler_flagsStem_mem h) hglobal
        (usesOnly_compileFlags h hroots edge)
  recipe := by
    rintro recipe hmem
    obtain rfl := Option.some.inj hmem
    exact usesOnly_toPiece (isPlainName_sharedRecipe _ (compiler_recipeStem_mem h)) hrecipe

/-- What stands behind the name of the recipe in the call of a link. -/
def linkArguments (edge : LinkEdge) : List Char :=
  (Call.renderArg (edge.files.map .path)).toList ++ [','] ++
    (Call.renderArg ([edge.output].map .path)).toList ++ [')']

/-- **The call of a link**: the name of its recipe, then the arguments. -/
theorem toList_render_linkCall {linker : Linker} (edge : LinkEdge)
    (hstem : linker.recipeStem ∈ recipeStems) :
    (linkCall linker edge).render.toList = "$(call ".toList ++
      ((sharedRecipe linker.recipeStem).name.toList ++ ',' :: linkArguments edge) := by
  have hname : Call.renderArg [.plain (sharedRecipe linker.recipeStem).name] =
      (sharedRecipe linker.recipeStem).name :=
    (Piece.render_plain _ _).trans (escape_sharedRecipe hstem)
  show ("$(" ++ "call" ++ " " ++ String.intercalate "," [
    Call.renderArg [.plain (sharedRecipe linker.recipeStem).name],
    Call.renderArg (edge.files.map .path), Call.renderArg ([edge.output].map .path)] ++
      ")").toList = _
  rw [hname]
  simp [String.toList_append, linkArguments]

theorem comma_not_mem_sharedRecipe {stem : String} (hstem : stem ∈ recipeStems) :
    ',' ∉ (sharedRecipe stem).name.toList := fun hmem =>
  (chars_sharedRecipe hstem _ hmem).2.2.2.1 rfl

/-- The arguments of a link refer to variables of directories. -/
theorem usesOnly_linkArguments (edge : LinkEdge) (hroots : HasRoots later) :
    Make.UsesOnly later (linkArguments edge) := by
  have hargument : ∀ ps : List RootedPath,
      Make.UsesOnly later (Call.renderArg (ps.map .path)).toList := by
    intro ps
    unfold Call.renderArg
    rw [String.toList_intercalate]
    refine .intercalate (.of_not_mem (by decide)) fun word hword => ?_
    simp only [List.map_map, List.mem_map] at hword
    obtain ⟨p, -, rfl⟩ := hword
    exact usesOnly_path hroots p .functionArgument
  exact (((hargument _).append (.of_not_mem (by decide))).append (hargument _)).append
    (.of_not_mem (by decide))

/-- The call of a link refers to its recipe, and in its arguments to variables of directories. -/
theorem usesOnly_linkCall {linker : Linker} (edge : LinkEdge)
    (hstem : linker.recipeStem ∈ recipeStems) (hroots : HasRoots later)
    (hrecipe : later (sharedRecipe linker.recipeStem).name) :
    (linkCall linker edge).toPiece.UsesOnly later := by
  refine usesOnly_verbatim ?_
  rw [toList_render_linkCall edge hstem]
  exact .call (isPlainName_sharedRecipe _ hstem) (comma_not_mem_sharedRecipe hstem) hrecipe
    (usesOnly_linkArguments edge hroots)

/-- The variables that the rule of a link sets. -/
theorem usesOnly_linkVariables {mode : LinkMode} {lang : String} {linker : Linker}
    (h : tools.linker lang mode = .ok linker) {edge : LinkEdge} {flags libs : List Piece}
    (hglobal : now (globalFlagsVariable linker.flagsStem).name)
    (hlibs : ∀ stem ∈ linker.libsStem, now (globalFlagsVariable stem).name)
    (hflags : ∀ piece ∈ flags, piece.UsesOnly now) (hwords : ∀ piece ∈ libs, piece.UsesOnly now) :
    ∀ entry ∈ linkVariables linker edge flags libs,
      '$' ∉ entry.1.name.toList ∧ entry.2.UsesOnly now := by
  obtain ⟨hflagsStem, hlibsStem, -⟩ := linker_stems_mem h
  unfold linkVariables
  refine List.forall_mem_append.mpr ⟨?_, ?_⟩
  · split
    · exact fun _ hentry => absurd hentry List.not_mem_nil
    · exact List.forall_mem_singleton.mpr (usesOnly_withGlobalFlags hflagsStem hglobal hflags)
  · split
    · next stem hstem =>
        split
        · exact fun _ hentry => absurd hentry List.not_mem_nil
        · exact List.forall_mem_singleton.mpr (usesOnly_withGlobalFlags (hlibsStem stem hstem)
            (hlibs stem hstem) hwords)
    · exact fun _ hentry => absurd hentry List.not_mem_nil

/-- **The rules of a link** use the variables of directories and whatever their variables use, and
    one of them calls the recipe of its linker. -/
theorem usesOnly_linkRules {linker : Linker} {edge : LinkEdge}
    {overrides : Table Variable Command} (hstem : linker.recipeStem ∈ recipeStems)
    (hroots : HasRoots now) (hlater : ∀ name, now name → later name) (htarget : later "@")
    (hrecipe : later (sharedRecipe linker.recipeStem).name)
    (hoverrides : ∀ entry ∈ overrides, '$' ∉ entry.1.name.toList ∧ entry.2.UsesOnly now) :
    ∀ rule ∈ linkRules linker edge overrides, rule.UsesOnly now later := by
  have hcall := usesOnly_linkCall edge hstem
    ⟨hlater _ hroots.comma, fun root name hname => hlater _ (hroots.root root name hname)⟩ hrecipe
  have hmarks := usesOnly_directoryMarks hroots edge.outputs
  have hdeps := usesOnly_paths hroots (linkDeps edge)
  have htouch : (Command.words [.verbatim "@touch", (Variable.named "@").toPiece]).UsesOnly later := by
    refine usesOnly_words fun piece hpiece => ?_
    rcases List.mem_pair.mp hpiece with rfl | rfl
    · exact usesOnly_verbatim (.of_not_mem (by decide))
    · exact usesOnly_automatic name_automatic.1 (by decide) htarget
  unfold linkRules
  cases edge.importLibrary with
  | none =>
      refine List.forall_mem_singleton.mpr ⟨?_, hdeps, hmarks, hoverrides, ?_⟩
      · exact List.forall_mem_singleton.mpr (usesOnly_path hroots _)
      · intro recipe hmem
        obtain rfl := Option.some.inj hmem
        exact hcall
  | some library =>
      refine List.forall_mem_cons.mpr ⟨⟨usesOnly_paths hroots _, ?_, usesOnly_nil, ?_, ?_⟩, ?_⟩
      · exact List.forall_mem_singleton.mpr (usesOnly_path hroots _)
      · exact fun _ hentry => absurd hentry List.not_mem_nil
      · exact fun _ hmem => by cases hmem
      · refine List.forall_mem_singleton.mpr ⟨?_, hdeps, hmarks, hoverrides, ?_⟩
        · exact List.forall_mem_singleton.mpr (usesOnly_path hroots _)
        · intro recipe hmem
          obtain rfl := Option.some.inj hmem
          exact List.forall_mem_cons.mpr ⟨usesOnly_line hcall, List.forall_mem_singleton.mpr htouch⟩

/-- A rule with one target, which sets no variables. -/
theorem usesOnly_simpleRule {target : Piece} {deps : List Piece} {recipe : Option Recipe}
    {phony : Bool} (htarget : target.UsesOnly now) (hdeps : ∀ piece ∈ deps, piece.UsesOnly now)
    (hrecipe : ∀ commands, recipe = some commands → commands.UsesOnly later) :
    ({ targets := [target], deps, recipe, phony } : Rule).UsesOnly now later where
  targets := List.forall_mem_singleton.mpr htarget
  deps := hdeps
  orderOnly := usesOnly_nil
  overrides := fun _ hentry => absurd hentry List.not_mem_nil
  recipe := hrecipe

theorem usesOnly_noRecipe : ∀ commands, (none : Option Recipe) = some commands →
    commands.UsesOnly later :=
  fun _ h => by cases h

theorem usesOnly_inline {commands : List Command} (h : ∀ command ∈ commands, command.UsesOnly later) :
    ∀ recipe, some (Recipe.inline commands) = some recipe → recipe.UsesOnly later := by
  intro recipe hrecipe
  obtain rfl := Option.some.inj hrecipe
  exact h

theorem usesOnly_aliasRule (hroots : HasRoots now) (edge : AliasEdge) :
    (aliasRule edge).UsesOnly now later :=
  usesOnly_simpleRule (usesOnly_path hroots _) (usesOnly_paths hroots _) usesOnly_noRecipe

/-- The commands of a command edge are plain text. -/
theorem usesOnly_commandRule (hroots : HasRoots now) (hcomma : later ",") (edge : CommandEdge) :
    (commandRule edge).UsesOnly now later := by
  refine usesOnly_simpleRule (usesOnly_path hroots _) (usesOnly_paths hroots _) (usesOnly_inline ?_)
  intro command hcommand
  obtain ⟨line, -, rfl⟩ := List.mem_map.mp hcommand
  cases line with
  | line text => exact usesOnly_line (usesOnly_plain hcomma text)
  | words texts => exact usesOnly_words (usesOnly_plainTexts hcomma texts)

theorem usesOnly_allRule (hroots : HasRoots now) (graph : BuildGraph) :
    (allRule graph).UsesOnly now later :=
  usesOnly_simpleRule (usesOnly_plain hroots.comma _) (usesOnly_paths hroots _) usesOnly_noRecipe

theorem usesOnly_regenerateRule (hroots : HasRoots now) (hcomma : later ",") (env : Environment) :
    (regenerateRule env).UsesOnly now later := by
  refine usesOnly_simpleRule (usesOnly_plain hroots.comma _)
    (List.forall_mem_singleton.mpr (usesOnly_path hroots _)) (usesOnly_inline ?_)
  exact List.forall_mem_singleton.mpr (usesOnly_words (usesOnly_plainTexts hcomma _))

/-- **The rule that installs** uses the command of the kind of each file. -/
theorem usesOnly_installRule {install : Install} (hroots : HasRoots now) (hlater : HasRoots later)
    (hcommands : ∀ file ∈ install.files, later (Variable.named (installer file.kind).1).name) :
    (installRule install).UsesOnly now later := by
  refine usesOnly_simpleRule (usesOnly_plain hroots.comma _)
    (List.forall_mem_singleton.mpr (usesOnly_plain hroots.comma _)) (usesOnly_inline ?_)
  refine List.forall_mem_append.mpr ⟨?_, ?_⟩
  · intro command hcommand
    obtain ⟨file, hfile, rfl⟩ := List.mem_map.mp hcommand
    have hname : isPlainName (Variable.named (installer file.kind).1).name = true := by
      cases file.kind <;> decide +kernel
    refine usesOnly_words fun piece hpiece => ?_
    simp only [List.mem_cons, List.not_mem_nil, or_false] at hpiece
    rcases hpiece with rfl | rfl | rfl | rfl
    · exact usesOnly_toPiece hname (hcommands file hfile)
    · exact usesOnly_plain hlater.comma _
    · exact usesOnly_path hlater _
    · exact usesOnly_path hlater _
  · intro command hcommand
    obtain ⟨dir, -, rfl⟩ := List.mem_map.mp hcommand
    have hsource := usesOnly_path hlater dir.path .shellWord
    have hdestination := usesOnly_path hlater (dir.path.under dir.root) .shellWord
    refine usesOnly_line (usesOnly_verbatim ?_)
    simp only [String.toList_append]
    exact (((((Make.UsesOnly.of_not_mem (by decide)).append hdestination).append
      (.of_not_mem (by decide))).append hsource).append (.of_not_mem (by decide))).append
        hdestination

/-- **The words that run a test** use the variables of directories, by induction over the tests below
    it: quoting once more breaks no use. -/
theorem usesOnly_testWords (hroots : HasRoots later) (case : TestCase) :
    ∀ piece ∈ testWords case, piece.UsesOnly later := by
  induction case using TestCase.induction with
  | step case ih =>
      have hplain := usesOnly_plain hroots.comma
      have hprogram : (programWord case.program.target).UsesOnly later := by
        unfold programWord
        split
        · refine usesOnly_join fun piece hpiece => ?_
          rcases List.mem_pair.mp hpiece with rfl | rfl
          · exact usesOnly_verbatim (.of_not_mem (by decide))
          · exact usesOnly_path hroots _
        · exact usesOnly_path hroots _
      rw [testWords_eq]
      refine List.forall_mem_append.mpr ⟨List.forall_mem_append.mpr
        ⟨List.forall_mem_append.mpr ⟨?_, List.forall_mem_singleton.mpr hprogram⟩,
          usesOnly_plainTexts hroots.comma _⟩, ?_⟩
      · intro piece hpiece
        obtain ⟨entry, -, rfl⟩ := List.mem_map.mp hpiece
        refine usesOnly_join fun piece hpiece => ?_
        simp only [List.mem_cons, List.not_mem_nil, or_false] at hpiece
        rcases hpiece with rfl | rfl | rfl
        exacts [hplain _, usesOnly_verbatim (.of_not_mem (by decide)), hplain _]
      · intro piece hpiece
        obtain ⟨sub, hsub, rfl⟩ := List.mem_map.mp hpiece
        have hline : Make.UsesOnly later
            (Make.separated .shellWord " " "" "" (testWords sub)).toList :=
          Piece.usesOnly_separated (by decide) (by decide) (by decide) (ih sub hsub)
        unfold asOneWord
        dsimp only
        split
        · refine usesOnly_verbatim ?_
          rw [Shell.quote, String.toList_ofList]
          exact hline.quoteChars
        · exact usesOnly_verbatim hline

theorem usesOnly_testRules (hroots : HasRoots now) (hlater : HasRoots later) (tests : Tests) :
    ∀ rule ∈ testRules tests, rule.UsesOnly now later := by
  have hplain := usesOnly_plain hroots.comma
  have htest : (testRule tests).UsesOnly now later := by
    refine usesOnly_simpleRule (hplain _) ?_ (usesOnly_inline ?_)
    · refine List.forall_mem_append.mpr ⟨List.forall_mem_append.mpr ⟨?_, ?_⟩, ?_⟩
      · split
        · exact usesOnly_nil
        · exact List.forall_mem_singleton.mpr (hplain _)
      · exact usesOnly_paths hroots _
      · exact usesOnly_paths hroots _
    · intro command hcommand
      obtain ⟨case, -, rfl⟩ := List.mem_map.mp hcommand
      exact usesOnly_words (usesOnly_testWords hlater case)
  unfold testRules
  split
  · exact fun _ hrule => absurd hrule List.not_mem_nil
  · refine List.forall_mem_append.mpr ⟨?_, List.forall_mem_singleton.mpr htest⟩
    split
    · exact fun _ hrule => absurd hrule List.not_mem_nil
    · exact List.forall_mem_singleton.mpr
        (usesOnly_simpleRule (hplain _) (usesOnly_paths hroots _) usesOnly_noRecipe)

/-- **The rule that makes directories** uses the target only. -/
theorem usesOnly_markRule (hcomma : now ",") (hlater : later ",") (htarget : later "@") :
    markRule.UsesOnly now later := by
  have hpattern : markPattern.toPiece.UsesOnly now := by
    have hjoin : (Piece.join [.verbatim "%", .plain "/.dir"]).UsesOnly now := by
      refine usesOnly_join fun piece hpiece => ?_
      rcases List.mem_pair.mp hpiece with rfl | rfl
      · exact usesOnly_verbatim (.of_not_mem (by decide))
      · exact usesOnly_plain hcomma _
    exact hjoin
  have hat := usesOnly_automatic name_automatic.1 (by decide) htarget
  have hdirectory : (Call.toPiece ⟨"patsubst", [[markPattern.toPiece], [.verbatim "%"],
      [(Variable.named "@").toPiece]]⟩).UsesOnly later := by
    have hrender : (Call.render ⟨"patsubst", [[markPattern.toPiece], [.verbatim "%"],
        [(Variable.named "@").toPiece]]⟩).toList =
          "$(patsubst ".toList ++ ("%/.dir,%,".toList ++ ((Make.reference "@").toList ++ [')'])) := by
      decide +kernel
    refine usesOnly_verbatim ?_
    rw [hrender]
    exact .function (.append (.of_not_mem (by decide))
      (.use (by decide) htarget (.of_not_mem (by decide))))
  refine usesOnly_simpleRule hpattern usesOnly_nil (usesOnly_inline ?_)
  refine List.forall_mem_cons.mpr ⟨usesOnly_words fun piece hpiece => ?_,
    List.forall_mem_singleton.mpr (usesOnly_words fun piece hpiece => ?_)⟩
  · simp only [List.mem_cons, List.not_mem_nil, or_false] at hpiece
    rcases hpiece with rfl | rfl | rfl
    exacts [usesOnly_verbatim (.of_not_mem (by decide)), usesOnly_plain hlater _, hdirectory]
  · rcases List.mem_pair.mp hpiece with rfl | rfl
    exacts [usesOnly_verbatim (.of_not_mem (by decide)), hat]

end Rules

end MakeGraph.Generate
