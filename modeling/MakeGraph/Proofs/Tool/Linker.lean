import MakeGraph.Proofs.Outcome
import MakeGraph.Proofs.Text.Affix
import MakeGraph.Tool.Linker

/-!
# `Proofs.Tool.Linker` — which tools there are and what they can name

A toolchain finds a tool for two languages only. Of the four linkers two take libraries, and a library
can be named by them or not: this depends on its file name alone (`linkName?_eq_some_iff`).

## Contents

* `linker_ok`, `compiler_ok` — the tools that a toolchain gives
* `linkName?_eq_some_iff` — the file names of which `-l` can find the library
* `libraryWords_succeeds_iff`, `importFlags_succeeds_iff` — what each linker can do
-/

namespace MakeGraph

open Outcome
open Text (dropTail?_eq_some_iff dropLead?_eq_some_iff)

/-! ## Toolchains -/

/-- The languages that have tools. -/
theorem language_named_succeeds_iff (tool : String) {lang : String} :
    (∃ language, Language.named tool lang = .ok language) ↔ lang = "c" ∨ lang = "c++" := by
  unfold Language.named Language.named?
  split
  · next h => split at h <;> simp_all
  · next h => split at h <;> simp_all

/-- A toolchain has a linker for every language that it knows. -/
theorem linker_succeeds_iff (tools : Toolchain) {lang : String} (mode : LinkMode) :
    (∃ linker, tools.linker lang mode = .ok linker) ↔ lang = "c" ∨ lang = "c++" := by
  rw [← language_named_succeeds_iff "linker"]
  unfold Toolchain.linker
  cases Language.named "linker" lang with
  | error e => simp [bind, Except.bind]
  | ok language => exact ⟨fun _ => ⟨_, rfl⟩, fun _ => ⟨_, rfl⟩⟩

/-- A toolchain has a compiler for every language that it knows. -/
theorem compiler_succeeds_iff (tools : Toolchain) {lang : String} :
    (∃ compiler, tools.compiler lang = .ok compiler) ↔ lang = "c" ∨ lang = "c++" := by
  rw [← language_named_succeeds_iff "compiler"]
  unfold Toolchain.compiler
  cases Language.named "compiler" lang with
  | error e => simp [bind, Except.bind]
  | ok language => exact ⟨fun _ => ⟨_, rfl⟩, fun _ => ⟨_, rfl⟩⟩

/-- Tools have a language. -/
theorem language_of_named {tool text : String} {language : Language}
    (h : Language.named tool text = .ok language) : Language.named? text = some language := by
  unfold Language.named at h
  cases hn : Language.named? text with
  | none => rw [hn] at h; cases h
  | some language' => rw [hn] at h; rw [Except.ok.inj h]

theorem language_cases {text : String} {language : Language}
    (h : Language.named? text = some language) :
    text = "c" ∧ language = .c ∨ text = "c++" ∧ language = .cxx := by
  unfold Language.named? at h
  split at h
  · exact .inl ⟨rfl, (Option.some.inj h).symm⟩
  · exact .inr ⟨rfl, (Option.some.inj h).symm⟩
  · cases h

/-- A language has one name. -/
theorem name_eq_of_language {text text' : String} {language : Language}
    (h : Language.named? text = some language) (h' : Language.named? text' = some language) :
    text = text' := by
  rcases language_cases h with ⟨rfl, rfl⟩ | ⟨rfl, rfl⟩
  · rcases language_cases h' with ⟨rfl, -⟩ | ⟨-, hne⟩
    · rfl
    · cases hne
  · rcases language_cases h' with ⟨-, hne⟩ | ⟨rfl, -⟩
    · cases hne
    · rfl

/-- **The linkers.** The toolchain has one for each language that it knows, of four kinds. -/
theorem linker_ok {tools : Toolchain} {lang : String} {mode : LinkMode} {linker : Linker}
    (h : tools.linker lang mode = .ok linker) :
    ∃ language, Language.named? lang = some language ∧
      ((tools.family = .cc ∧ mode = .staticLibrary ∧ linker = .ar tools.config) ∨
       (tools.family = .cc ∧ mode ≠ .staticLibrary ∧
          linker = .cc language mode tools.platform tools.config) ∨
       (tools.family = .msvc ∧ mode = .staticLibrary ∧ linker = .msvcLib tools.config) ∨
       (tools.family = .msvc ∧ mode ≠ .staticLibrary ∧ linker = .msvc mode tools.config)) := by
  unfold Toolchain.linker at h
  obtain ⟨language, hl, h⟩ := bind_eq_ok_iff.mp h
  refine ⟨language, language_of_named hl, ?_⟩
  have hlinker := (pure_eq_ok_iff.mp h).symm
  cases hf : tools.family <;> cases mode <;> simp_all

/-- **The compilers.** The toolchain has one for each language that it knows, of two kinds. -/
theorem compiler_ok {tools : Toolchain} {lang : String} {compiler : Compiler}
    (h : tools.compiler lang = .ok compiler) :
    ∃ language, Language.named? lang = some language ∧
      ((tools.family = .cc ∧ compiler = .cc language tools.config) ∨
       (tools.family = .msvc ∧ compiler = .msvc tools.config)) := by
  unfold Toolchain.compiler at h
  obtain ⟨language, hl, h⟩ := bind_eq_ok_iff.mp h
  refine ⟨language, language_of_named hl, ?_⟩
  have hcompiler := (pure_eq_ok_iff.mp h).symm
  cases hf : tools.family <;> simp_all

/-! ## Names of libraries -/

/-- The ending of a shared library is not that of an archive. -/
theorem dropTail?_sharedLibraryExtension (platform : Platform) (name : String) :
    Text.dropTail? ".a" (name ++ platform.sharedLibraryExtension) = none := by
  refine Option.eq_none_iff_forall_ne_some.mpr fun front h => ?_
  have hlast := congrArg (fun text => text.toList.getLast?) (dropTail?_eq_some_iff.mp h)
  cases platform <;> simp [Platform.sharedLibraryExtension] at hlast

/-- **The name of a library for `-l`** is what stands between `lib` and one of two endings. -/
theorem linkName?_eq_some_iff {platform : Platform} {fileName name : String} :
    Linker.linkName? platform fileName = some name ↔
      name ≠ "" ∧ (fileName = "lib" ++ name ++ ".a" ∨
        platform.hasImportLibrary = false ∧
          fileName = "lib" ++ name ++ platform.sharedLibraryExtension) := by
  have hkeep : ∀ short? : Option String,
      (short?.bind fun short => if short = "" then none else some short) = some name ↔
        short? = some name ∧ name ≠ "" := by
    intro short?
    rw [Option.bind_eq_some_iff]
    constructor
    · rintro ⟨short, rfl, h⟩
      split at h
      · cases h
      · next hne => rw [← Option.some.inj h]; exact ⟨rfl, hne⟩
    · rintro ⟨rfl, hne⟩
      exact ⟨name, rfl, if_neg hne⟩
  unfold Linker.linkName?
  simp only [bind, Option.bind_eq_some_iff, dropLead?_eq_some_iff, String.isEmpty_iff,
    String.append_assoc]
  -- the ending of an archive is tried first; the other one never ends with it
  constructor
  · rintro ⟨stem, rfl, h⟩
    rw [String.append_right_inj, String.append_right_inj]
    split at h
    · next front htail =>
        obtain ⟨hfront, hne⟩ := (hkeep _).mp h
        exact ⟨hne, .inl (Option.some.inj hfront ▸ dropTail?_eq_some_iff.mp htail)⟩
    · split at h
      · exact absurd (hkeep none |>.mp h).1 (by simp)
      · next himport =>
          obtain ⟨hshort, hne⟩ := (hkeep _).mp h
          exact ⟨hne, .inr ⟨Bool.eq_false_iff.mpr himport, dropTail?_eq_some_iff.mp hshort⟩⟩
  · rintro ⟨hne, rfl | ⟨himport, rfl⟩⟩
    · refine ⟨_, rfl, ?_⟩
      rw [dropTail?_eq_some_iff.mpr rfl]
      exact (hkeep _).mpr ⟨rfl, hne⟩
    · refine ⟨_, rfl, ?_⟩
      rw [dropTail?_sharedLibraryExtension, himport]
      exact (hkeep _).mpr ⟨dropTail?_eq_some_iff.mpr rfl, hne⟩

/-! ## What linkers can do -/

/-- A library that the linker of a family of tools can name: a compiler driver finds a shared library
    by the name between `lib` and its ending, and Microsoft's linker needs a file name. -/
def Library.Nameable (family : ToolFamily) (platform : Platform) (lib : Library) : Prop :=
  match family with
  | .cc =>
      lib.kind = .shared → ∃ name, name ≠ "" ∧
        (lib.path.fileName? = some ("lib" ++ name ++ ".a") ∨
          platform.hasImportLibrary = false ∧
            lib.path.fileName? = some ("lib" ++ name ++ platform.sharedLibraryExtension))
  | .msvc => ∃ name, lib.path.fileName? = some name

/-- A compiler driver can link every library but a shared one without a name. -/
theorem ccLibraryWords_succeeds_iff {platform : Platform} {lib : Library} :
    (∃ words, Linker.ccLibraryWords platform lib = .ok words) ↔ lib.Nameable .cc platform := by
  unfold Linker.ccLibraryWords Library.Nameable
  cases hkind : lib.kind with
  | static => simp
  | wholeArchive =>
      by_cases hp : platform = .darwin
      · simp [hp]
      · simp [hp]
  | shared =>
      have hname : (∃ name, Linker.linkName? platform (lib.path.fileName?.getD "") = some name) ↔
          ∃ name, name ≠ "" ∧ (lib.path.fileName? = some ("lib" ++ name ++ ".a") ∨
            platform.hasImportLibrary = false ∧
              lib.path.fileName? = some ("lib" ++ name ++ platform.sharedLibraryExtension)) := by
        simp only [linkName?_eq_some_iff]
        cases lib.path.fileName? with
        | none =>
            refine ⟨fun ⟨name, _, h⟩ => ?_, fun ⟨name, _, h⟩ => ?_⟩
            · rcases h with h | ⟨-, h⟩
              · exact absurd (congrArg String.toList h) (by simp)
              · exact absurd (congrArg String.toList h) (by simp)
            · rcases h with h | ⟨-, h⟩ <;> cases h
        | some fileName => simp
      dsimp only
      rw [eq_self_iff_true, true_implies, ← hname]
      cases Linker.linkName? platform (lib.path.fileName?.getD "") with
      | none => simp
      | some name => simp

/-- Microsoft's linker can link every library with a file name. -/
theorem msvcLibraryWords_succeeds_iff {platform : Platform} {lib : Library} :
    (∃ words, Linker.msvcLibraryWords lib = .ok words) ↔ lib.Nameable .msvc platform := by
  unfold Linker.msvcLibraryWords Library.Nameable
  cases lib.path.fileName? with
  | none => simp
  | some name => cases lib.kind <;> simp

section Linkers

variable {tools : Toolchain} {lang : String} {mode : LinkMode} {linker : Linker}

/-- **Import libraries** come with shared libraries only. -/
theorem importFlags_succeeds_iff (h : tools.linker lang mode = .ok linker) (path : RootedPath) :
    (∃ flags, linker.importFlags path = .ok flags) ↔ mode = .sharedLibrary := by
  obtain ⟨language, -, ⟨-, rfl, rfl⟩ | ⟨-, -, rfl⟩ | ⟨-, rfl, rfl⟩ | ⟨-, -, rfl⟩⟩ := linker_ok h
  · simp [Linker.ar]
  · by_cases hmode : mode = .sharedLibrary
    · by_cases himport : tools.platform.hasImportLibrary = true
      · simp [Linker.cc, hmode, himport]
      · simp [Linker.cc, hmode, himport]
    · simp [Linker.cc, hmode]
  · simp [Linker.msvcLib]
  · by_cases hmode : mode = .sharedLibrary
    · simp [Linker.msvc, hmode]
    · simp [Linker.msvc, hmode]

/-- Archives take no libraries. -/
theorem libsStem_ne_none_iff (h : tools.linker lang mode = .ok linker) :
    linker.libsStem ≠ none ↔ mode ≠ .staticLibrary := by
  obtain ⟨language, -, ⟨-, rfl, rfl⟩ | ⟨-, hmode, rfl⟩ | ⟨-, rfl, rfl⟩ | ⟨-, hmode, rfl⟩⟩ :=
    linker_ok h
  · simp [Linker.ar]
  · simp [Linker.cc, hmode]
  · simp [Linker.msvcLib]
  · simp [Linker.msvc, hmode]

/-- **Libraries** are linked where their linker can name them. -/
theorem libraryWords_succeeds_iff (h : tools.linker lang mode = .ok linker)
    (hmode : mode ≠ .staticLibrary) (lib : Library) :
    (∃ words, linker.libraryWords lib = .ok words) ↔ lib.Nameable tools.family tools.platform := by
  obtain ⟨language, -, ⟨-, hstatic, -⟩ | ⟨hfamily, -, rfl⟩ | ⟨-, hstatic, -⟩ | ⟨hfamily, -, rfl⟩⟩ :=
    linker_ok h
  · exact absurd hstatic hmode
  · rw [hfamily]
    exact ccLibraryWords_succeeds_iff
  · exact absurd hstatic hmode
  · rw [hfamily]
    exact msvcLibraryWords_succeeds_iff

end Linkers

end MakeGraph
