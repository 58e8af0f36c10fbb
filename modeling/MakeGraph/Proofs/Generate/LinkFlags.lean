import MakeGraph.Proofs.Generate.ClosedForm
import MakeGraph.Proofs.Tool.Linker

/-!
# `Proofs.Generate.LinkFlags` — the flags of one link

The flags on the rule of a link come from five places: the kind of the binary, the options that somebody
wrote for it, the directories of its libraries, its run path, and its import library. Three of them depend
on the family of the tools only: a directory is named by one flag, and so is an import library, where the
linker makes such libraries at all (`MakesImports`).

What a linker writes is text, and it names the paths that it is given and no others. This is said once for
each linker (`NamesOperands`), and from it for the words of every link (`namesOnly_link`).

## Contents

* `Library.IsSearched`, `searchedDirs`, `searchFlags_eq` — the directories of libraries
* `MakesImports`, `importedFlags`, `importFlags_eq` — import libraries
* `ownFlags`, `linkFlags_eq` — all flags in their order
* `NamesOnly`, `NamesOperands`, `namesOperands_linker` — the words of each linker
* `namesOnly_link` — the paths that the words of a link name
-/

namespace MakeGraph

/-- Libraries that the linker of a family of tools is given by name: Microsoft's gets all of them so,
    and a compiler driver the shared ones. -/
def Library.IsSearched (family : ToolFamily) (lib : Library) : Prop :=
  family = .msvc ∨ lib.kind = .shared

instance (family : ToolFamily) (lib : Library) : Decidable (lib.IsSearched family) :=
  inferInstanceAs (Decidable (family = .msvc ∨ lib.kind = .shared))

namespace Generate

open Make (Piece)
open Outcome

variable {tools : Toolchain} {lang : String} {mode : LinkMode} {linker : Linker}

/-! ## Directories of libraries -/

/-- The flag that names a directory in which libraries are searched. -/
def searchFlag : ToolFamily → String
  | .cc => "-L"
  | .msvc => "/LIBPATH:"

/-- **The directories of the libraries that are searched**, each once, in the order of the libraries. -/
def searchedDirs (family : ToolFamily) (libs : List Library) : List RootedPath :=
  distinct RootedPath.same ((libs.filter (·.IsSearched family)).map (·.path.parent))

/-- A linker has one flag for each directory of the libraries that it searches. -/
theorem searchFlags_eq (h : tools.linker lang mode = .ok linker) (hmode : mode ≠ .staticLibrary)
    (libs : List Library) :
    linker.searchFlags libs =
      (searchedDirs tools.family libs).map fun dir => flagged (searchFlag tools.family) (.path dir) := by
  obtain ⟨language, -, ⟨-, hstatic, -⟩ | ⟨hfamily, -, rfl⟩ | ⟨-, hstatic, -⟩ | ⟨hfamily, -, rfl⟩⟩ :=
    linker_ok h
  · exact absurd hstatic hmode
  · -- a compiler driver searches the shared libraries, Microsoft's linker all of them
    have hshared : libs.filter (·.IsSearched .cc) = Linker.sharedOnes libs := by
      refine List.filter_congr fun lib _ => decide_eq_decide.mpr ?_
      exact ⟨fun hsearched => hsearched.resolve_left (by decide), .inr⟩
    rw [searchedDirs, hfamily, hshared]
    rfl
  · exact absurd hstatic hmode
  · have hall : libs.filter (·.IsSearched .msvc) = libs :=
      List.filter_eq_self.mpr fun lib _ => decide_eq_true (.inl rfl)
    rw [searchedDirs, hfamily, hall]
    rfl

/-! ## Import libraries -/

/-- The flag with which a link asks for an import library. -/
def importFlag : ToolFamily → String
  | .cc => "-Wl,--out-implib="
  | .msvc => "/IMPLIB:"

/-- A linker that makes import libraries: Microsoft's always does, and a compiler driver where the
    platform has them. -/
def MakesImports (tools : Toolchain) : Prop :=
  tools.family = .msvc ∨ tools.platform.hasImportLibrary = true

instance (tools : Toolchain) : Decidable (MakesImports tools) :=
  inferInstanceAs (Decidable (_ ∨ _))

/-- **The flags for an import library**: one, if there is such a library and the linker makes it. -/
def importedFlags (tools : Toolchain) (library : Option RootedPath) : List Piece :=
  if MakesImports tools then
    library.toList.map fun path => flagged (importFlag tools.family) (.path path)
  else []

theorem importFlags_eq (h : tools.linker lang mode = .ok linker) {path : RootedPath}
    {flags : List Piece} (hflags : linker.importFlags path = .ok flags) :
    flags = importedFlags tools (some path) := by
  obtain ⟨language, -, ⟨-, -, rfl⟩ | ⟨hfamily, -, rfl⟩ | ⟨-, -, rfl⟩ | ⟨hfamily, -, rfl⟩⟩ :=
    linker_ok h
  · cases hflags
  · have hmakes : MakesImports tools ↔ tools.platform.hasImportLibrary = true := by
      rw [MakesImports, hfamily]
      exact or_iff_right nofun
    dsimp only [Linker.cc] at hflags
    split at hflags
    · cases hflags
    · split at hflags
      · next himport =>
          rw [← Except.ok.inj hflags, importedFlags, if_pos (hmakes.mpr himport), hfamily]
          rfl
      · next himport =>
          rw [← Except.ok.inj hflags, importedFlags, if_neg (mt hmakes.mp himport)]
  · cases hflags
  · dsimp only [Linker.msvc] at hflags
    split at hflags
    · cases hflags
    · rw [← Except.ok.inj hflags, importedFlags, if_pos (.inl hfamily), hfamily]
      rfl

/-! ## All flags -/

/-- The flags that are not for archives: the options that somebody wrote, the directories of libraries and
    the run path. -/
def ownFlags (tools : Toolchain) (linker : Linker) (edge : LinkEdge) : List Piece :=
  if edge.mode = .staticLibrary then []
  else
    Piece.plainTexts edge.options ++
      (searchedDirs tools.family edge.libs).map
        (fun dir => flagged (searchFlag tools.family) (.path dir)) ++
      linker.runPath edge.libs edge.output

/-- **The flags of a link** in their order. -/
theorem linkFlags_eq {edge : LinkEdge} {flags : List Piece}
    (h : tools.linker edge.lang edge.mode = .ok linker) (hflags : linkFlags linker edge = .ok flags) :
    flags = linker.modeFlags ++ ownFlags tools linker edge ++
      importedFlags tools edge.importLibrary := by
  have hown : (if edge.mode = .staticLibrary then []
      else Piece.plainTexts edge.options ++ linker.searchFlags edge.libs ++
        linker.runPath edge.libs edge.output) = ownFlags tools linker edge := by
    unfold ownFlags
    by_cases hmode : edge.mode = .staticLibrary
    · rw [if_pos hmode, if_pos hmode]
    · rw [if_neg hmode, if_neg hmode, searchFlags_eq h hmode]
  unfold linkFlags at hflags
  rw [hown] at hflags
  cases hlibrary : edge.importLibrary with
  | none =>
      have himported : importedFlags tools none = [] := ite_self _
      rw [hlibrary] at hflags
      rw [← pure_eq_ok_iff.mp hflags, himported]
  | some path =>
      rw [hlibrary] at hflags
      obtain ⟨imported, himported, heq⟩ := bind_eq_ok_iff.mp hflags
      rw [← pure_eq_ok_iff.mp heq, importFlags_eq h himported]

/-! ## The words of each linker -/

/-- A word of a linker that names no paths but some: a text, or a path, also right behind a flag. -/
inductive NamesOnly (named : RootedPath → Prop) : Piece → Prop
  | text (text : String) : NamesOnly named (.plain text)
  | path {p : RootedPath} (h : named p) : NamesOnly named (.path p)
  | flagged {p : RootedPath} (flag : String) (h : named p) : NamesOnly named (flagged flag (.path p))

theorem NamesOnly.mono {named named' : RootedPath → Prop} (hnamed : ∀ p, named p → named' p)
    {piece : Piece} (h : NamesOnly named piece) : NamesOnly named' piece := by
  cases h with
  | text text => exact .text text
  | path h => exact .path (hnamed _ h)
  | flagged flag h => exact .flagged flag (hnamed _ h)

theorem namesOnly_nil {named : RootedPath → Prop} : ∀ piece ∈ ([] : List Piece), NamesOnly named piece :=
  fun _ hpiece => absurd hpiece List.not_mem_nil

/-- Directories behind a flag. -/
theorem namesOnly_dirs (flag : String) (libs : List Library) :
    ∀ piece ∈ (distinct RootedPath.same (libs.map (·.path.parent))).map
        (fun dir => flagged flag (.path dir)),
      NamesOnly (fun p => ∃ lib ∈ libs, lib.path.parent = p) piece := by
  intro piece hpiece
  obtain ⟨dir, hdir, rfl⟩ := List.mem_map.mp hpiece
  exact .flagged flag (List.mem_map.mp (mem_of_mem_distinct hdir))

/-- A linker whose own words name the paths that they are for, and no others. -/
structure NamesOperands (linker : Linker) : Prop where
  modeFlags : ∀ piece ∈ linker.modeFlags, NamesOnly (fun _ => False) piece
  searchFlags : ∀ libs, ∀ piece ∈ linker.searchFlags libs,
    NamesOnly (fun p => ∃ lib ∈ libs, lib.path.parent = p) piece
  runPath : ∀ libs output, ∀ piece ∈ linker.runPath libs output, NamesOnly (fun _ => False) piece
  libraryWords : ∀ lib words, linker.libraryWords lib = .ok words →
    ∀ piece ∈ words, NamesOnly (· = lib.path) piece
  importFlags : ∀ path words, linker.importFlags path = .ok words →
    ∀ piece ∈ words, NamesOnly (· = path) piece

/-- The librarians have no words of their own. -/
theorem namesOperands_ar (config : ToolConfig) : NamesOperands (.ar config) where
  modeFlags := namesOnly_nil
  searchFlags _ := namesOnly_nil
  runPath _ _ := namesOnly_nil
  libraryWords _ _ h := by cases h
  importFlags _ _ h := by cases h

theorem namesOperands_msvcLib (config : ToolConfig) : NamesOperands (.msvcLib config) where
  modeFlags := namesOnly_nil
  searchFlags _ := namesOnly_nil
  runPath _ _ := namesOnly_nil
  libraryWords _ _ h := by cases h
  importFlags _ _ h := by cases h

/-- A compiler driver names a library by its path, unless it searches it. -/
theorem namesOnly_ccLibraryWords {platform : Platform} {lib : Library} {words : List Piece}
    (h : Linker.ccLibraryWords platform lib = .ok words) :
    ∀ piece ∈ words, NamesOnly (· = lib.path) piece := by
  unfold Linker.ccLibraryWords at h
  split at h
  · split at h
    · rw [← Except.ok.inj h]
      exact List.forall_mem_cons.mpr ⟨.text _, List.forall_mem_singleton.mpr (.path rfl)⟩
    · rw [← Except.ok.inj h]
      exact List.forall_mem_cons.mpr
        ⟨.text _, List.forall_mem_cons.mpr ⟨.path rfl, List.forall_mem_singleton.mpr (.text _)⟩⟩
  · rw [← Except.ok.inj h]
    exact List.forall_mem_singleton.mpr (.path rfl)
  · dsimp only at h
    split at h
    · rw [← Except.ok.inj h]
      exact List.forall_mem_singleton.mpr (.text _)
    · cases h

theorem namesOperands_cc (language : Language) (mode : LinkMode) (platform : Platform)
    (config : ToolConfig) : NamesOperands (.cc language mode platform config) where
  modeFlags := by
    dsimp only [Linker.cc]
    split
    · exact List.forall_mem_cons.mpr ⟨.text _, List.forall_mem_singleton.mpr (.text _)⟩
    · exact namesOnly_nil
  searchFlags libs piece hpiece := by
    refine (namesOnly_dirs "-L" (Linker.sharedOnes libs) piece hpiece).mono ?_
    rintro p ⟨lib, hlib, heq⟩
    exact ⟨lib, (List.mem_filter.mp hlib).1, heq⟩
  runPath libs output := by
    dsimp only [Linker.cc]
    split
    · exact namesOnly_nil
    · split
      · exact List.forall_mem_singleton.mpr (.text _)
      · exact namesOnly_nil
  libraryWords _ _ := namesOnly_ccLibraryWords
  importFlags path words h := by
    dsimp only [Linker.cc] at h
    split at h
    · cases h
    · split at h
      · rw [← Except.ok.inj h]
        exact List.forall_mem_singleton.mpr (.flagged _ rfl)
      · rw [← Except.ok.inj h]
        exact namesOnly_nil

/-- Microsoft's linker searches all libraries. -/
theorem namesOperands_msvc (mode : LinkMode) (config : ToolConfig) :
    NamesOperands (.msvc mode config) where
  modeFlags := by
    dsimp only [Linker.msvc]
    split
    · exact List.forall_mem_singleton.mpr (.text _)
    · exact namesOnly_nil
  searchFlags := namesOnly_dirs "/LIBPATH:"
  runPath _ _ := namesOnly_nil
  libraryWords lib words h := by
    dsimp only [Linker.msvc] at h
    unfold Linker.msvcLibraryWords at h
    split at h
    · cases h
    · split at h
      all_goals
        rw [← Except.ok.inj h]
        exact List.forall_mem_singleton.mpr (.text _)
  importFlags path words h := by
    dsimp only [Linker.msvc] at h
    split at h
    · cases h
    · rw [← Except.ok.inj h]
      exact List.forall_mem_singleton.mpr (.flagged _ rfl)

/-- **Every linker** names nothing but what it is given. -/
theorem namesOperands_linker (h : tools.linker lang mode = .ok linker) : NamesOperands linker := by
  obtain ⟨language, -, ⟨-, -, rfl⟩ | ⟨-, -, rfl⟩ | ⟨-, -, rfl⟩ | ⟨-, -, rfl⟩⟩ := linker_ok h
  · exact namesOperands_ar _
  · exact namesOperands_cc language mode _ _
  · exact namesOperands_msvcLib _
  · exact namesOperands_msvc mode _

/-! ## The words of one link -/

/-- The paths in the words of a link: its import library, its libraries and their directories. -/
def IsLinked (edge : LinkEdge) (p : RootedPath) : Prop :=
  edge.importLibrary = some p ∨ ∃ lib ∈ edge.libs, lib.path = p ∨ lib.path.parent = p

theorem namesOnly_plainTexts {named : RootedPath → Prop} (texts : List String) :
    ∀ piece ∈ Piece.plainTexts texts, NamesOnly named piece := by
  intro piece hpiece
  obtain ⟨text, -, rfl⟩ := List.mem_map.mp hpiece
  exact .text text

theorem namesOnly_linkFlags {edge : LinkEdge} {flags : List Piece} (h : NamesOperands linker)
    (hflags : linkFlags linker edge = .ok flags) : ∀ piece ∈ flags, NamesOnly (IsLinked edge) piece := by
  have htexts : ∀ {piece}, NamesOnly (fun _ => False) piece → NamesOnly (IsLinked edge) piece :=
    fun htext => htext.mono fun p hfalse => hfalse.elim
  have hown : ∀ piece ∈ (if edge.mode = .staticLibrary then [] else Piece.plainTexts edge.options ++
      linker.searchFlags edge.libs ++ linker.runPath edge.libs edge.output),
        NamesOnly (IsLinked edge) piece := by
    split
    · exact namesOnly_nil
    · refine List.forall_mem_append.mpr ⟨List.forall_mem_append.mpr
        ⟨namesOnly_plainTexts _, fun piece hpiece => ?_⟩, fun piece hpiece => ?_⟩
      · refine (h.searchFlags _ piece hpiece).mono ?_
        rintro p ⟨lib, hlib, heq⟩
        exact .inr ⟨lib, hlib, .inr heq⟩
      · exact htexts (h.runPath _ _ piece hpiece)
  -- what comes before the flag for an import library
  have hfront := List.forall_mem_append.mpr
    ⟨fun piece hpiece => htexts (h.modeFlags piece hpiece), hown⟩
  unfold linkFlags at hflags
  cases hlibrary : edge.importLibrary with
  | none =>
      rw [hlibrary] at hflags
      rw [← pure_eq_ok_iff.mp hflags, List.append_nil]
      exact hfront
  | some path =>
      rw [hlibrary] at hflags
      obtain ⟨imported, himported, heq⟩ := bind_eq_ok_iff.mp hflags
      rw [← pure_eq_ok_iff.mp heq]
      refine List.forall_mem_append.mpr ⟨hfront, fun piece hpiece => ?_⟩
      refine (h.importFlags path imported himported piece hpiece).mono ?_
      rintro p rfl
      exact .inl hlibrary

theorem namesOnly_libsOf {edge : LinkEdge} {libs : List Piece} (h : NamesOperands linker)
    (hlibs : libsOf linker edge = .ok libs) : ∀ piece ∈ libs, NamesOnly (IsLinked edge) piece := by
  unfold libsOf at hlibs
  split at hlibs
  · rw [← Except.ok.inj hlibs]
    exact namesOnly_nil
  · obtain ⟨words, hwords, heq⟩ := bind_eq_ok_iff.mp hlibs
    rw [← pure_eq_ok_iff.mp heq]
    intro piece hpiece
    obtain ⟨own, hown, hpiece⟩ := List.mem_flatten.mp hpiece
    obtain ⟨lib, hlib, hwords⟩ := exists_of_mem_mapM hwords own hown
    refine (h.libraryWords lib own hwords piece hpiece).mono ?_
    rintro p rfl
    exact .inr ⟨lib, hlib, .inl rfl⟩

/-- **The words of a link** name its import library, its libraries and their directories. -/
theorem namesOnly_link {edge : LinkEdge} {flags libs : List Piece}
    (h : tools.linker edge.lang edge.mode = .ok linker) (hflags : linkFlags linker edge = .ok flags)
    (hlibs : libsOf linker edge = .ok libs) :
    ∀ piece ∈ flags ++ libs, NamesOnly (IsLinked edge) piece :=
  List.forall_mem_append.mpr ⟨namesOnly_linkFlags (namesOperands_linker h) hflags,
    namesOnly_libsOf (namesOperands_linker h) hlibs⟩

end Generate

end MakeGraph
