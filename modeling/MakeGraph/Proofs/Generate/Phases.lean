import MakeGraph.Proofs.Generate.Contribution
import MakeGraph.Proofs.Tool.Linker

/-!
# `Proofs.Generate.Phases` — what directories, installation, tests and tools contribute

The phases of a generation run in a fixed order on one model. Each section below names what its phase
contributes and proves that it does this and nothing else (`Contributes`).

That no phase can trip over a name is seen here: the directories have names of their own
(`declareDirectories_empty`), shared variables are declared by whoever comes first, and a recipe is
never named like the program that it runs (`isRecipeName_linkerProgram`,
`isRecipeName_compilerProgram`).
-/

namespace MakeGraph.Generate

open Make (Call Command Error Include Piece Makefile Pattern Rule Variable)
open Outcome

/-! ## Directories -/

/-- The declaration of the variable of a root, if it has one. -/
def directoryDeclaration? (env : Environment) (root : Root) : Option Declaration :=
  match root.variableName?, rootValue? env root with
  | some name, some value => some (.global (.named name) (.line value))
  | _, _ => none

/-- What the directories contribute. -/
def directoriesContribution (env : Environment) : Contribution where
  declarations := Root.anchored.filterMap (directoryDeclaration? env)

/-- The name of a root is already one that make takes. -/
theorem named_variableName {root : Root} {name : String} (h : root.variableName? = some name) :
    Variable.named name = ⟨root.name⟩ := by
  cases root <;> simp only [Root.variableName?, Root.name, Option.some.injEq, reduceCtorEq] at h <;>
    subst h <;> decide +kernel

theorem root_name_injective {root root' : Root} (h : root.name = root'.name) : root = root' := by
  cases root <;> cases root' <;> first | rfl | exact absurd h (by decide)

/-- Declaring a variable with a free name succeeds. -/
theorem declare_of_free {m : Makefile} {v : Variable} (value : Command)
    (h : m.declares v none = false) :
    m.declare v value (.assigned .simple) none = .ok (adoptGlobal m v value) := by
  have hneg : ¬ m.declares v none = true := by rw [h]; decide
  unfold Makefile.declare Makefile.requireFree adoptGlobal
  rw [if_neg hneg, if_neg hneg]
  rfl

/-- A root whose name is free is declared. -/
theorem declareDirectory_of_free (env : Environment) {m : Makefile} {root : Root}
    (hfree : m.declares ⟨root.name⟩ none = false) :
    declareDirectory env m root = .ok (adoptAll m (directoryDeclaration? env root).toList) := by
  unfold declareDirectory directoryDeclaration?
  cases hn : root.variableName? with
  | none => rfl
  | some name =>
      cases hv : rootValue? env root with
      | none => rfl
      | some value => exact declare_of_free _ (named_variableName hn ▸ hfree)

/-- Declaring one root leaves the names of the others as they were. -/
theorem declares_directory (env : Environment) {m : Makefile} {root other : Root}
    (hne : root ≠ other) :
    (adoptAll m (directoryDeclaration? env root).toList).declares ⟨other.name⟩ none =
      m.declares ⟨other.name⟩ none := by
  unfold directoryDeclaration?
  cases hn : root.variableName? with
  | none => rfl
  | some name =>
      cases hv : rootValue? env root with
      | none => rfl
      | some value =>
          refine declares_adoptGlobal _ ?_
          rw [named_variableName hn]
          exact fun heq => hne (root_name_injective (congrArg Variable.name heq))

/-- Roots whose names are free are all declared. -/
theorem foldlM_declareDirectory (env : Environment) {roots : List Root} (hroots : roots.Nodup)
    {m : Makefile} (hfree : ∀ root ∈ roots, m.declares ⟨root.name⟩ none = false) :
    roots.foldlM (declareDirectory env) m =
      .ok (adoptAll m (roots.filterMap (directoryDeclaration? env))) := by
  induction roots generalizing m with
  | nil => rfl
  | cons root roots ih =>
      obtain ⟨hnot, hnodup⟩ := List.nodup_cons.mp hroots
      have hsplit : (root :: roots).filterMap (directoryDeclaration? env) =
          (directoryDeclaration? env root).toList ++
            roots.filterMap (directoryDeclaration? env) := by
        rw [List.filterMap_cons]
        cases directoryDeclaration? env root <;> rfl
      rw [List.foldlM_cons, declareDirectory_of_free env (hfree root List.mem_cons_self), hsplit,
        adoptAll_append]
      -- the names of the other roots are still free
      refine ih hnodup fun other hother => ?_
      rw [declares_directory env (fun heq : root = other => hnot (heq ▸ hother))]
      exact hfree other (List.mem_cons_of_mem _ hother)

/-- **In the empty model the names of all roots are free.** -/
theorem declareDirectories_empty (env : Environment) :
    declareDirectories env .empty = .ok (extend .empty (directoriesContribution env)) := by
  rw [directoriesContribution, extend_declarations, declareDirectories]
  exact foldlM_declareDirectory env (by decide) (by decide)

/-! ## Rules and declarations together -/

theorem contributes_addRules (rules : List Rule) :
    Contributes (fun m => rules.foldlM Makefile.addRule m) (.ok { rules }) := by
  have hcontributions : contributions (fun rule => .ok { rules := [rule] }) rules =
      .ok { rules } := by
    induction rules with
    | nil => rfl
    | cons rule rules ih => rw [contributions, ih]; rfl
  exact hcontributions ▸ Contributes.foldlM contributes_addRule rules

/-- A generator that declares variables and then adds rules. -/
theorem contributes_declareAndAdd (declarations : List Declaration) (rules : List Rule) :
    Contributes (fun m => rules.foldlM Makefile.addRule (adoptAll m declarations))
      (.ok { declarations, rules }) := by
  have hboth : ({ declarations } : Contribution) ++ { rules } = { declarations, rules } := by
    show Contribution.mk (declarations ++ []) ([] ++ rules) ([] ++ []) = _
    rw [List.append_nil, List.nil_append, List.nil_append]
  have h := (contributes_adoptAll declarations).bind (contributes_addRules rules)
  rw [← hboth]
  exact h

/-! ## Installation -/

/-- The declarations of the command that installs files of a kind. -/
def installDeclarations (kind : InstallKind) : List Declaration :=
  [.global (.named "INSTALL") (.line (.plain "install")),
    .global (.named (installer kind).1)
      (.line (.join [(Variable.named "INSTALL").toPiece, .plain (" -m " ++ (installer kind).2)]))]

/-- The command that installs a file, by the variable of its kind. -/
def copyCommand (file : InstallFile) : Command :=
  .words [(Variable.named (installer file.kind).1).toPiece, .plain "-D", .path file.path,
    .path (file.path.under file.root)]

/-- The rule that installs. -/
def installRule (install : Install) : Rule where
  targets := [.plain "install"]
  deps := [.plain "all"]
  recipe := some (.inline (install.files.map copyCommand ++ install.directories.map copyDirectory))
  phony := true

/-- What the installation contributes. -/
def installContribution (install : Install) : Contribution :=
  if install.isEmpty then {}
  else {
    declarations := install.files.flatMap fun file => installDeclarations file.kind
    rules := [installRule install] }

theorem declareLine_eq (m : Makefile) (name : String) (value : Piece) :
    declareLine m name value = .ok (.named name, adoptGlobal m (.named name) (.line value)) := by
  simp only [declareLine, declareOnce_global]
  rfl

theorem copyFile_eq (m : Makefile) (file : InstallFile) :
    copyFile m file = .ok (copyCommand file, adoptAll m (installDeclarations file.kind)) := by
  unfold copyFile declareInstall
  simp only [declareLine_eq]
  rfl

theorem copyFiles_eq (m : Makefile) (files : List InstallFile) :
    copyFiles m files = .ok (files.map copyCommand,
      adoptAll m (files.flatMap fun file => installDeclarations file.kind)) := by
  induction files generalizing m with
  | nil => rfl
  | cons file files ih =>
      rw [copyFiles, copyFile_eq]
      simp only [List.flatMap_cons, adoptAll_append, List.map_cons]
      show (copyFiles (adoptAll m (installDeclarations file.kind)) files >>= _) = _
      rw [ih]
      rfl

/-- **The installation** contributes the commands of its files and one rule. -/
theorem contributes_addInstall (install : Install) :
    Contributes (addInstall install) (.ok (installContribution install)) := by
  unfold installContribution
  by_cases he : install.isEmpty = true
  · have heq : addInstall install = .ok := by
      funext m
      rw [addInstall, if_pos he]
    rw [if_pos he, heq]
    exact contributes_pure
  · have heq : addInstall install = fun m =>
        [installRule install].foldlM Makefile.addRule
          (adoptAll m (install.files.flatMap fun file => installDeclarations file.kind)) := by
      funext m
      rw [addInstall, if_neg he, copyFiles_eq, List.foldlM_cons]
      simp only [List.foldlM_nil, bind_pure]
      rfl
    rw [if_neg he, heq]
    exact contributes_declareAndAdd _ _

/-! ## Tests -/

/-- **The tests** contribute their rules. -/
theorem contributes_addTests (tests : Tests) :
    Contributes (addTests tests) (.ok { rules := testRules tests }) :=
  contributes_addRules (testRules tests)

/-! ## Tools -/

/-- The declarations of the variables with the flags of a tool. -/
def flagsDeclarations (name : String) (flags : List String) : List Declaration :=
  [.global (globalFlagsVariable name) (.words (Piece.plainTexts flags)),
    .wildcard (flagsVariable name) (.words [(globalFlagsVariable name).toPiece])]

theorem declareFlags_eq (m : Makefile) (name : String) (flags : List String) :
    declareFlags m name flags = .ok (adoptAll m (flagsDeclarations name flags)) := by
  unfold declareFlags
  simp only [declareOnce_global]
  exact declareOnce_wildcard _ _ _

/-- The variable with the command of a program. -/
def programVariable (stem : String) : Variable :=
  .named stem.toUpper

theorem declareProgram_eq (m : Makefile) (stem command : String) :
    declareProgram m stem command =
      .ok (programVariable stem, adoptGlobal m (programVariable stem) (.line (.plain command))) :=
  declareLine_eq m stem.toUpper (.plain command)

/-! ## The names of recipes -/

/-- Whether a variable is named like a shared recipe. -/
def isRecipeName (v : Variable) : Bool :=
  "RULE_".toList.isPrefixOf v.name.toList

/-- A name begins like the text that it is made of, as far as make takes this text. -/
theorem isPrefixOf_named_append {lead : List Char} (first rest : String)
    (h : first.toList.map (fun c => if Make.endsName c then '_' else c) = first.toList)
    (hlength : lead.length ≤ first.toList.length) :
    lead.isPrefixOf (Variable.named (first ++ rest)).name.toList =
      lead.isPrefixOf first.toList := by
  have hname : (Variable.named (first ++ rest)).name.toList =
      first.toList ++ (rest.toList.map fun c => if Make.endsName c then '_' else c) := by
    show (String.map _ (first ++ rest)).toList = _
    rw [String.toList_map, String.toList_append, List.map_append, h]
  rw [hname, Bool.eq_iff_iff, List.isPrefixOf_iff_prefix, List.isPrefixOf_iff_prefix]
  exact ⟨fun hprefix => List.prefix_of_prefix_length_le hprefix (List.prefix_append _ _) hlength,
    fun hprefix => hprefix.trans (List.prefix_append _ _)⟩

theorem isRecipeName_sharedRecipe (stem : String) : isRecipeName (sharedRecipe stem) = true :=
  (isPrefixOf_named_append "RULE_" _ (by decide) (by decide)).trans (by decide)

theorem isRecipeName_globalFlagsVariable (name : String) :
    isRecipeName (globalFlagsVariable name) = false :=
  (isPrefixOf_named_append "GLOBAL_" _ (by decide) (by decide)).trans (by decide)

theorem ne_sharedRecipe {v : Variable} (h : isRecipeName v = false) (stem : String) :
    v ≠ sharedRecipe stem := by
  rintro rfl
  rw [isRecipeName_sharedRecipe] at h
  cases h

/-- The program of a linker is not named like a recipe. -/
theorem isRecipeName_linkerProgram {tools : Toolchain} {lang : String} {mode : LinkMode}
    {linker : Linker} (h : tools.linker lang mode = .ok linker) :
    isRecipeName (programVariable linker.programStem) = false := by
  obtain ⟨language, -, ⟨-, -, rfl⟩ | ⟨-, -, rfl⟩ | ⟨-, -, rfl⟩ | ⟨-, -, rfl⟩⟩ := linker_ok h
  · show isRecipeName (programVariable "ar") = false
    decide +kernel
  · cases language
    · show isRecipeName (programVariable "cc") = false
      decide +kernel
    · show isRecipeName (programVariable "cxx") = false
      decide +kernel
  · show isRecipeName (programVariable "lib") = false
    decide +kernel
  · show isRecipeName (programVariable "link") = false
    decide +kernel

/-- The program of a compiler is not named like a recipe. -/
theorem isRecipeName_compilerProgram {tools : Toolchain} {lang : String} {compiler : Compiler}
    (h : tools.compiler lang = .ok compiler) :
    isRecipeName (programVariable compiler.programStem) = false := by
  obtain ⟨language, -, ⟨-, rfl⟩ | ⟨-, rfl⟩⟩ := compiler_ok h
  · cases language
    · show isRecipeName (programVariable "cc") = false
      decide +kernel
    · show isRecipeName (programVariable "cxx") = false
      decide +kernel
  · show isRecipeName (programVariable "cxx") = false
    decide +kernel

end MakeGraph.Generate
