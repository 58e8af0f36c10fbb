import MakeGraph.Proofs.Generate.SharedVariables

/-!
# `Proofs.Generate.Programs` — the variables with the commands of tools

A program such as `CC` has a variable of its own, and the recipes of the tools that run it refer to it.
It is declared together with the first of these recipes, and what later ones would have written is
dropped. No harm is done: tools that run a program of one name have the same command for it
(`program_eq_of_compiler`, `program_eq_of_linker`).

So wherever the recipe of a linker is defined, its program is there and holds the linker's command
(`find?_programVariable`).

## Contents

* `Equips` — a declaration that leaves a program to those who run it
* `Equipped` — the invariant of the declarations one by one
* `find?_programVariable` — the main result
-/

namespace MakeGraph.Generate

open Make (Command Makefile Variable)
open Outcome

/-! ## Programs and recipes -/

section Equipped

/-- A declaration that neither gives the name of a program to something else nor the program another
    command, and that has the program with the recipe `v`. -/
def Equips (v program : Variable) (command : Command) : Declaration → Prop
  | .global w _ => w ≠ program
  | .wildcard _ _ => True
  | .recipe w _ other value =>
      w ≠ program ∧ (other = program → value = command) ∧ (w = v → other = program)

/-- **A model in which a recipe has its program**: nothing else takes the name of the program, and where
    the recipe is defined the program has its command. -/
structure Equipped (v program : Variable) (command : Command) (m : Makefile) : Prop where
  not_defined : m.defines.find? program = none
  value_eq : ∀ found, m.globals.find? program = some found → found = (command, .simple)
  equipped : v ∈ m.defines.keys → (m.globals.find? program).isSome = true

variable {v program : Variable} {command : Command} {m : Makefile} {d : Declaration}

theorem equipped_empty (hcomma : (⟨","⟩ : Variable) ≠ program) : Equipped v program command .empty where
  not_defined := rfl
  value_eq := by
    intro found hfound
    rw [show Makefile.empty.globals.find? program = none from if_neg hcomma] at hfound
    cases hfound
  equipped := fun hv => absurd hv List.not_mem_nil

/-- Another global variable changes nothing. -/
theorem Equipped.adoptGlobal (h : Equipped v program command m) {w : Variable} {value : Command}
    (hw : w = program → value = command) : Equipped v program command (adoptGlobal m w value) := by
  have hfind := find?_globals_adoptGlobal h.not_defined w value
  refine ⟨by rw [defines_adoptGlobal, h.not_defined], fun found hfound => ?_, fun hv => ?_⟩
  · rw [hfind, Option.or_eq_some_iff] at hfound
    rcases hfound with hfound | ⟨-, hfound⟩
    · exact h.value_eq found hfound
    · split at hfound
      · next heq => rw [← Option.some.inj hfound, hw heq]
      · cases hfound
  · rw [defines_adoptGlobal] at hv
    rw [hfind, Option.isSome_or, h.equipped hv, Bool.true_or]

/-- A program is there when it has been declared. -/
theorem isSome_find?_adoptGlobal (h : Equipped v program command m) (value : Command) :
    ((Generate.adoptGlobal m program value).globals.find? program).isSome = true := by
  rw [find?_globals_adoptGlobal h.not_defined, if_pos rfl, Option.isSome_or, Option.isSome_some,
    Bool.or_true]

/-- **One declaration** leaves a recipe its program. -/
theorem Equipped.adopt (h : Equipped v program command m) (hd : Equips v program command d) :
    Equipped v program command (adopt m d) := by
  cases d with
  | global w value => exact h.adoptGlobal fun heq => absurd heq hd
  | wildcard w value =>
      show Equipped v program command (adoptWildcard m w value)
      unfold adoptWildcard
      split
      · exact h
      · exact ⟨h.not_defined, h.value_eq, h.equipped⟩
  | recipe w lines other value =>
      obtain ⟨hw, hvalue, hmine⟩ := hd
      have hother := h.adoptGlobal hvalue
      show Equipped v program command (adoptRecipe m w lines other value)
      unfold adoptRecipe
      split
      · exact h
      · refine ⟨?_, hother.value_eq, fun hv => ?_⟩
        · rw [Table.find?_append, hother.not_defined, if_neg hw]
          rfl
        · rw [Table.keys_append] at hv
          rcases List.mem_append.mp hv with hold | hnew
          · exact hother.equipped hold
          · -- the recipe comes with its program
            obtain rfl := hmine (List.mem_singleton.mp hnew).symm
            exact isSome_find?_adoptGlobal h value

theorem Equipped.adoptAll {ds : List Declaration} (h : Equipped v program command m)
    (hds : ∀ d ∈ ds, Equips v program command d) : Equipped v program command (adoptAll m ds) := by
  induction ds generalizing m with
  | nil => exact h
  | cons d ds ih =>
      obtain ⟨hd, hds⟩ := List.forall_mem_cons.mp hds
      exact ih (h.adopt hd) hds

end Equipped

/-! ## The tools -/

section Tools

variable {tools : Toolchain} {lang lang' : String} {mode mode' : LinkMode} {linker linker' : Linker}

theorem programVariable_injective :
    ∀ stem ∈ programStems, ∀ stem' ∈ programStems,
      programVariable stem = programVariable stem' → stem = stem' := by
  decide +kernel

/-- A compiler and a linker that run programs of one name run the same. -/
theorem program_eq_of_compiler {compiler : Compiler} (h : tools.compiler lang = .ok compiler)
    (h' : tools.linker lang' mode = .ok linker) (hstem : compiler.programStem = linker.programStem) :
    compiler.program = linker.program := by
  obtain ⟨language, -, ⟨hf, rfl⟩ | ⟨hf, rfl⟩⟩ := compiler_ok h
  all_goals
    obtain ⟨language', -, ⟨hf', -, rfl⟩ | ⟨hf', -, rfl⟩ | ⟨hf', -, rfl⟩ | ⟨hf', -, rfl⟩⟩ :=
      linker_ok h'
  all_goals first
    | exact absurd (hf.symm.trans hf') (by decide)
    | cases language <;> cases language' <;> first
      | rfl
      | simp [Compiler.cc, Compiler.msvc, Compiler.driverVar, Linker.ar, Linker.cc, Linker.msvc,
          Linker.msvcLib] at hstem

/-- Two linkers that run programs of one name run the same. -/
theorem program_eq_of_linker (h : tools.linker lang mode = .ok linker)
    (h' : tools.linker lang' mode' = .ok linker') (hstem : linker.programStem = linker'.programStem) :
    linker.program = linker'.program := by
  obtain ⟨language, -, ⟨hf, -, rfl⟩ | ⟨hf, -, rfl⟩ | ⟨hf, -, rfl⟩ | ⟨hf, -, rfl⟩⟩ := linker_ok h
  all_goals
    obtain ⟨language', -, ⟨hf', -, rfl⟩ | ⟨hf', -, rfl⟩ | ⟨hf', -, rfl⟩ | ⟨hf', -, rfl⟩⟩ :=
      linker_ok h'
  all_goals first
    | exact absurd (hf.symm.trans hf') (by decide)
    | rfl
    | cases language <;> cases language' <;> first
      | rfl
      | simp [Compiler.driverVar, Linker.ar, Linker.cc, Linker.msvc, Linker.msvcLib] at hstem

/-- Linkers whose recipes have one name run one program. -/
theorem programStem_eq_of_recipeStem_eq (h : tools.linker lang mode = .ok linker)
    (h' : tools.linker lang' mode' = .ok linker') (hstem : linker.recipeStem = linker'.recipeStem) :
    linker.programStem = linker'.programStem := by
  obtain ⟨language, -, ⟨hf, -, rfl⟩ | ⟨hf, -, rfl⟩ | ⟨hf, -, rfl⟩ | ⟨hf, -, rfl⟩⟩ := linker_ok h
  all_goals
    obtain ⟨language', -, ⟨hf', -, rfl⟩ | ⟨hf', -, rfl⟩ | ⟨hf', -, rfl⟩ | ⟨hf', -, rfl⟩⟩ :=
      linker_ok h'
  all_goals first
    | exact absurd (hf.symm.trans hf') (by decide)
    | rfl
    | cases language <;> cases language' <;> first
      | rfl
      | simp [Linker.ar, Linker.cc, Linker.msvc, Linker.msvcLib] at hstem

end Tools

/-! ## The main result -/

section Generation

variable {env : Environment} {graph : BuildGraph} {c : Contribution} {linker : Linker}

theorem installVariable_ne_program :
    ∀ stem ∈ programStems, Variable.named "INSTALL" ≠ programVariable stem ∧
      ∀ kind : InstallKind, Variable.named (installer kind).1 ≠ programVariable stem := by
  intro stem hstem
  have hall : ∀ stem ∈ programStems, ∀ name ∈ ["INSTALL", "INSTALL_PROGRAM", "INSTALL_DATA"],
      Variable.named name ≠ programVariable stem := by
    decide +kernel
  refine ⟨hall stem hstem _ (by decide), fun kind => hall stem hstem _ ?_⟩
  cases kind <;> decide

/-- **All declarations of a generation** leave the program of a linker to those who run it. -/
theorem equips_modelContribution {lang : String} {mode : LinkMode}
    (hlinker : env.toolchain.linker lang mode = .ok linker)
    (h : modelContribution env graph = .ok c) :
    ∀ d ∈ c.declarations, Equips (sharedRecipe linker.recipeStem)
      (programVariable linker.programStem) (.line (.plain linker.program)) d := by
  have hstem := (linker_stems_mem hlinker).2.2
  have hrecipe : ∀ stem, sharedRecipe stem ≠ programVariable linker.programStem := fun stem =>
    (ne_sharedRecipe (isRecipeName_linkerProgram hlinker) stem).symm
  intro d hd
  rcases declaration_cases h hd with ⟨root, hroot⟩ | ⟨kind, hd⟩ | htool
  · obtain ⟨value, rfl⟩ := directoryDeclaration?_eq_some hroot
    exact (programVariable_ne_root _ hstem root (by cases root <;> decide)).symm
  · obtain ⟨hinstall, hkind⟩ := installVariable_ne_program _ hstem
    simp only [installDeclarations, List.mem_cons, List.not_mem_nil, or_false] at hd
    rcases hd with rfl | rfl
    · exact hinstall
    · exact hkind kind
  · cases htool with
    | @flags name texts d hname hd =>
        simp only [flagsDeclarations, List.mem_cons, List.not_mem_nil, or_false] at hd
        rcases hd with rfl | rfl
        · exact (ne_globalFlagsVariable (isGlobalFlagsName_programVariable _ hstem) name).symm
        · exact trivial
    | @compiler lang' compiler hcompiler =>
        refine ⟨hrecipe _, fun hprogram => ?_, fun hname => ?_⟩
        · have hsame := programVariable_injective _ (compiler_programStem_mem hcompiler) _ hstem hprogram
          rw [program_eq_of_compiler hcompiler hlinker hsame]
        · exact absurd (sharedRecipe_injective _ (compiler_recipeStem_mem hcompiler) _
            (linker_recipeStem_mem hlinker) hname) (compiler_recipeStem_ne hcompiler hlinker)
    | @linker lang' mode' other hother =>
        refine ⟨hrecipe _, fun hprogram => ?_, fun hname => ?_⟩
        · have hsame := programVariable_injective _ (linker_stems_mem hother).2.2 _ hstem hprogram
          rw [program_eq_of_linker hother hlinker hsame]
        · have hsame := sharedRecipe_injective _ (linker_recipeStem_mem hother) _
            (linker_recipeStem_mem hlinker) hname
          rw [programStem_eq_of_recipeStem_eq hother hlinker hsame]

/-- **The program of every link** holds the command of its linker. -/
theorem find?_programVariable {edge : LinkEdge}
    (hlinker : env.toolchain.linker edge.lang edge.mode = .ok linker)
    (hedge : .link edge ∈ graph.edges) (h : modelContribution env graph = .ok c) :
    (extend .empty c).globals.find? (programVariable linker.programStem) =
      some (.line (.plain linker.program), .simple) := by
  have hstem := (linker_stems_mem hlinker).2.2
  have hcomma : ∀ stem ∈ programStems, (⟨","⟩ : Variable) ≠ programVariable stem := by decide +kernel
  have hempty : Equipped (sharedRecipe linker.recipeStem) (programVariable linker.programStem)
      (.line (.plain linker.program)) .empty := equipped_empty (hcomma _ hstem)
  have hequipped := hempty.adoptAll (equips_modelContribution hlinker h)
  -- the recipe is defined, and it came with its program
  have hdefined := Table.mem_keys_of_mem (Table.mem_of_find? (find?_linkLines hlinker hedge h))
  obtain ⟨found, hfound⟩ := Option.isSome_iff_exists.mp (hequipped.equipped hdefined)
  rw [show (extend .empty c).globals = (adoptAll .empty c.declarations).globals from rfl, hfound,
    hequipped.value_eq found hfound]

end Generation

end MakeGraph.Generate
