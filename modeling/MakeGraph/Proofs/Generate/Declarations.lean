import MakeGraph.Proofs.Generate.ClosedForm

/-!
# `Proofs.Generate.Declarations` — where the declarations of a generation come from

Everything that a generation declares is the variable of a directory, a command of the installation, or
something that a tool needs: the variables with its flags, and its shared recipe along with its
program. The tools are few, and so are the stems that all their names are made of (`flagsStems`,
`programStems`).

## Contents

* `compiler_flagsStem_mem` and others — the stems of the tools
* `toolDeclaration_of_edge` — what one edge declares
* `declaration_cases` — what a whole generation declares
-/

namespace MakeGraph.Generate

open Make (Command Error Makefile Piece Variable)
open Outcome

/-! ## The stems of names -/

section Stems

variable {tools : Toolchain} {lang : String} {mode : LinkMode}

/-- What the variables with the flags of tools are named after. -/
def flagsStems : List String :=
  ["cflags", "cxxflags", "ldflags", "ldlibs", "arflags", "libflags"]

/-- What the variables with the commands of tools are named after. -/
def programStems : List String :=
  ["cc", "cxx", "ar", "link", "lib"]

theorem compiler_flagsStem_mem {compiler : Compiler} (h : tools.compiler lang = .ok compiler) :
    compiler.flagsStem ∈ flagsStems := by
  obtain ⟨language, -, ⟨-, rfl⟩ | ⟨-, rfl⟩⟩ := compiler_ok h
  · cases language <;> simp [Compiler.cc, flagsStems]
  · simp [Compiler.msvc, flagsStems]

theorem compiler_programStem_mem {compiler : Compiler} (h : tools.compiler lang = .ok compiler) :
    compiler.programStem ∈ programStems := by
  obtain ⟨language, -, ⟨-, rfl⟩ | ⟨-, rfl⟩⟩ := compiler_ok h
  · cases language <;> simp [Compiler.cc, Compiler.driverVar, programStems]
  · simp [Compiler.msvc, programStems]

/-- The variables of a linker are named after its stems: one for flags, one for libraries if it has
    them, and one for its command. -/
theorem linker_stems_mem {linker : Linker} (h : tools.linker lang mode = .ok linker) :
    linker.flagsStem ∈ flagsStems ∧ (∀ name ∈ linker.libsStem, name ∈ flagsStems) ∧
      linker.programStem ∈ programStems := by
  obtain ⟨language, -, ⟨-, -, rfl⟩ | ⟨-, -, rfl⟩ | ⟨-, -, rfl⟩ | ⟨-, -, rfl⟩⟩ := linker_ok h
  · simp [Linker.ar, flagsStems, programStems]
  · cases language <;> simp [Linker.cc, Compiler.driverVar, flagsStems, programStems]
  · simp [Linker.msvcLib, flagsStems, programStems]
  · simp [Linker.msvc, flagsStems, programStems]

/-- No linker shares its variables with a compiler. -/
theorem linker_stems_ne {lang' : String} {compiler : Compiler} {linker : Linker}
    (h : tools.compiler lang = .ok compiler) (h' : tools.linker lang' mode = .ok linker) :
    linker.flagsStem ≠ compiler.flagsStem ∧ linker.libsStem ≠ some compiler.flagsStem := by
  obtain ⟨language, -, ⟨-, rfl⟩ | ⟨-, rfl⟩⟩ := compiler_ok h
  all_goals
    obtain ⟨language', -, ⟨-, -, rfl⟩ | ⟨-, -, rfl⟩ | ⟨-, -, rfl⟩ | ⟨-, -, rfl⟩⟩ := linker_ok h'
  all_goals
    cases language <;>
      simp [Compiler.cc, Compiler.msvc, Linker.ar, Linker.cc, Linker.msvc, Linker.msvcLib]

end Stems

/-! ## Edges -/

section Edges

variable {tools : Toolchain} {graph : BuildGraph} {d : Declaration}

/-- The shared recipe of a compiler, with its program. -/
def compilerRecipe (compiler : Compiler) : Declaration :=
  recipeDeclaration compiler.recipeStem (compileRecipe compiler) compiler.programStem
    compiler.program

/-- The shared recipe of a linker, with its program. -/
def linkerRecipe (linker : Linker) : Declaration :=
  recipeDeclaration linker.recipeStem (linkRecipe linker) linker.programStem linker.program

/-- A declaration that a tool of a toolchain needs. -/
inductive ToolDeclaration (tools : Toolchain) : Declaration → Prop
  /-- A variable with flags. -/
  | flags {stem : String} {texts : List String} {d : Declaration} (hstem : stem ∈ flagsStems)
      (hd : d ∈ flagsDeclarations stem texts) : ToolDeclaration tools d
  /-- The recipe of a compiler. -/
  | compiler {lang : String} {compiler : Compiler} (h : tools.compiler lang = .ok compiler) :
      ToolDeclaration tools (compilerRecipe compiler)
  /-- The recipe of a linker. -/
  | linker {lang : String} {mode : LinkMode} {linker : Linker}
      (h : tools.linker lang mode = .ok linker) : ToolDeclaration tools (linkerRecipe linker)

/-- The declarations of a link edge are those of its linker. -/
theorem linkContribution_declarations {linker : Linker} {edge : LinkEdge} {own : Contribution}
    (h : linkContribution graph linker edge = .ok own) :
    own.declarations = linkDeclarations graph linker edge.mode := by
  simp only [linkContribution, bind_eq_ok_iff, pure_eq_ok_iff] at h
  obtain ⟨flags, -, libs, -, rfl⟩ := h
  rfl

/-- **What an edge declares** is what its tool needs. -/
theorem toolDeclaration_of_edge {edge : Edge} {own : Contribution}
    (h : edgeContribution tools graph edge = .ok own) (hd : d ∈ own.declarations) :
    ToolDeclaration tools d := by
  cases edge with
  | compile edge =>
      simp only [edgeContribution, bind_eq_ok_iff, pure_eq_ok_iff] at h
      obtain ⟨compiler, hcompiler, rfl⟩ := h
      rcases List.mem_append.mp hd with hd | hd
      · exact .flags (compiler_flagsStem_mem hcompiler) hd
      · exact List.mem_singleton.mp hd ▸ .compiler hcompiler
  | link edge =>
      simp only [edgeContribution, bind_eq_ok_iff] at h
      obtain ⟨linker, hlinker, h⟩ := h
      obtain ⟨hflags, hlibs, -⟩ := linker_stems_mem hlinker
      rw [linkContribution_declarations h] at hd
      rcases List.mem_append.mp hd with hd | hd
      · rcases List.mem_append.mp hd with hd | hd
        · exact .flags hflags hd
        · unfold libsDeclarations at hd
          split at hd
          · exact absurd hd List.not_mem_nil
          · next name hname => exact .flags (hlibs name hname) hd
      · exact List.mem_singleton.mp hd ▸ .linker hlinker
  | group edge =>
      obtain rfl := Except.ok.inj h
      exact absurd hd List.not_mem_nil
  | command edge =>
      obtain rfl := Except.ok.inj h
      exact absurd hd List.not_mem_nil

end Edges

/-! ## The whole -/

section Whole

variable {env : Environment} {graph : BuildGraph} {c : Contribution} {d : Declaration}

/-- Whatever a loop contributes is contributed by one of its items. -/
theorem exists_of_mem_part {α β : Type} {c? : α → Except Error Contribution} {items : List α}
    {part : Contribution → List β} (hnil : part {} = [])
    (happend : ∀ a b, part (a ++ b) = part a ++ part b) (h : contributions c? items = .ok c) {x : β}
    (hx : x ∈ part c) : ∃ item ∈ items, ∃ own, c? item = .ok own ∧ x ∈ part own := by
  revert hx
  refine forall_contributions (P := fun items c => x ∈ part c →
    ∃ item ∈ items, ∃ own, c? item = .ok own ∧ x ∈ part own) ?_ ?_ h
  · rw [hnil]
    exact fun hx => absurd hx List.not_mem_nil
  · intro first items a b ha ih hx
    rw [happend] at hx
    rcases List.mem_append.mp hx with hx | hx
    · exact ⟨first, List.mem_cons_self, a, ha, hx⟩
    · obtain ⟨item, hitem, hown⟩ := ih hx
      exact ⟨item, List.mem_cons_of_mem first hitem, hown⟩

/-- A declaration of a loop is one of its items. -/
theorem exists_of_mem_contributions {α : Type} {c? : α → Except Error Contribution} {items : List α}
    (h : contributions c? items = .ok c) (hd : d ∈ c.declarations) :
    ∃ item ∈ items, ∃ own, c? item = .ok own ∧ d ∈ own.declarations :=
  exists_of_mem_part rfl declarations_append h hd

/-- The declarations of a generation: the directories, the installation, the edges. -/
theorem modelContribution_declarations (h : modelContribution env graph = .ok c) :
    ∃ edges, edgesContribution env graph = .ok edges ∧
      c.declarations = (directoriesContribution env).declarations ++
        ((installContribution graph.install).declarations ++ edges.declarations) := by
  simp only [modelContribution, bind_eq_ok_iff, pure_eq_ok_iff] at h
  obtain ⟨edges, hedges, rfl⟩ := h
  refine ⟨edges, hedges, ?_⟩
  simp [headContribution, tailContribution, regenerateContribution]

/-- **What a generation declares.** -/
theorem declaration_cases (h : modelContribution env graph = .ok c) (hd : d ∈ c.declarations) :
    (∃ root, directoryDeclaration? env root = some d) ∨
      (∃ kind, d ∈ installDeclarations kind) ∨ ToolDeclaration env.toolchain d := by
  obtain ⟨edges, hedges, hdeclarations⟩ := modelContribution_declarations h
  rw [hdeclarations] at hd
  rcases List.mem_append.mp hd with hd | hd
  · obtain ⟨root, -, hroot⟩ := List.mem_filterMap.mp hd
    exact .inl ⟨root, hroot⟩
  rcases List.mem_append.mp hd with hd | hd
  · unfold installContribution at hd
    split at hd
    · exact absurd hd List.not_mem_nil
    · obtain ⟨file, -, hd⟩ := List.mem_flatMap.mp hd
      exact .inr (.inl ⟨file.kind, hd⟩)
  · obtain ⟨edge, -, own, hown, hd⟩ := exists_of_mem_contributions hedges hd
    exact .inr (.inr (toolDeclaration_of_edge hown hd))

/-- The variable of a directory is named like its root. -/
theorem directoryDeclaration?_eq_some {root : Root}
    (h : directoryDeclaration? env root = some d) : ∃ value, d = .global ⟨root.name⟩ value := by
  unfold directoryDeclaration? at h
  split at h
  · next name value hname hvalue =>
      rw [named_variableName hname] at h
      exact ⟨.line value, (Option.some.inj h).symm⟩
  · cases h

end Whole

end MakeGraph.Generate
