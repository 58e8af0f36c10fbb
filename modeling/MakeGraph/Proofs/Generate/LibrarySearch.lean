import MakeGraph.Proofs.Generate.LinkFlags
import MakeGraph.Proofs.Path.Moves

/-!
# `Proofs.Generate.LibrarySearch` — what a linker finds for the name of a library

Most libraries are linked by a name. Their directories stand in one set of flags, each once, and the
names in another: only the search of the linker puts the two together. It tries the files that a name
stands for in one directory after the other (`triedFiles`) and takes the first one that is there. Among
the libraries of the link it always finds one, and it finds the library that the name was made from
exactly when no other one has an earlier turn (`findLibrary?_libraryWords`).

Options may name directories as well. They are written by hand and come before the flags for the
libraries, as the flags of all links do, so their directories are searched first.

## Contents

* `triedFiles`, `turn`, `findLibrary?` — the search
* `isSearchFlag`, `filter_linkFlags` — the flags of a link that name directories
* `argumentFiles`, `libraryWords_of_isSearched` — the files that an argument stands for
* `findLibrary?_libraryWords` — the main result
-/

namespace MakeGraph.Generate

open Make (Piece)
open Outcome

/-! ## The search -/

/-- The files that a search tries: one directory after the other, and in each of them every name. -/
def triedFiles (dirs : List RootedPath) (names : List String) : List RootedPath :=
  dirs.flatMap fun dir => names.map dir.join

/-- **A search** takes the first library that lies where a file is tried. -/
def findLibrary? (tried : List RootedPath) (libs : List Library) : Option Library :=
  tried.findSome? fun file => libs.find? (·.path.same file)

/-- The turn at which a search tries a path; a path that is never tried comes after the last turn. -/
def turn (tried : List RootedPath) (p : RootedPath) : Nat :=
  tried.findIdx p.same

section Search

variable {tried : List RootedPath} {libs : List Library} {p q : RootedPath}

theorem turn_cons_of_same {file : RootedPath} (h : p.Same file) (tried : List RootedPath) :
    turn (file :: tried) p = 0 := by
  have hsame : p.same file = true := decide_eq_true h
  rw [turn, List.findIdx_cons, hsame, cond_true]

theorem turn_cons_of_not_same {file : RootedPath} (h : ¬ p.Same file) (tried : List RootedPath) :
    turn (file :: tried) p = turn tried p + 1 := by
  have hsame : p.same file = false := decide_eq_false h
  rw [turn, List.findIdx_cons, hsame, cond_false]
  rfl

/-- Paths that are the same have the same turn. -/
theorem turn_eq_of_same (h : p.Same q) (tried : List RootedPath) : turn tried p = turn tried q := by
  have hsame : p.same = q.same := by
    funext file
    refine decide_eq_decide.mpr ⟨fun hfile => ?_, fun hfile => ?_⟩
    · exact ⟨h.1.symm.trans hfile.1, h.2.symm.trans hfile.2⟩
    · exact ⟨h.1.trans hfile.1, h.2.trans hfile.2⟩
  rw [turn, turn, hsame]

/-- Paths that are tried at one turn are the same. -/
theorem same_of_turn_eq (h : turn tried p = turn tried q) (hp : turn tried p < tried.length) :
    p.Same q := by
  -- both are the file that is tried at this turn
  have hq : turn tried q < tried.length := h ▸ hp
  have hsameq : q.Same tried[turn tried q] := of_decide_eq_true (List.findIdx_getElem (w := hq))
  have hsamep : p.Same tried[turn tried p] := of_decide_eq_true (List.findIdx_getElem (w := hp))
  simp only [h] at hsamep
  exact ⟨hsamep.1.trans hsameq.1.symm, hsamep.2.trans hsameq.2.symm⟩

/-- **What is found has the first turn**, by induction on the files that are tried. -/
theorem turn_le_of_findLibrary? {found : Library} (h : findLibrary? tried libs = some found) :
    found ∈ libs ∧ turn tried found.path < tried.length ∧
      ∀ other ∈ libs, turn tried found.path ≤ turn tried other.path := by
  induction tried with
  | nil => cases h
  | cons file tried ih =>
      unfold findLibrary? at h
      rw [List.findSome?_cons] at h
      split at h
      · next here hhere =>
          obtain rfl := Option.some.inj h
          have hsame : here.path.Same file := by
            have htest := List.find?_some hhere
            exact of_decide_eq_true htest
          rw [turn_cons_of_same hsame]
          exact ⟨List.mem_of_find?_eq_some hhere, Nat.zero_lt_succ _, fun other _ => Nat.zero_le _⟩
      · next hnone =>
          -- no library lies at the first file, so that all turns are one later
          have hlater : ∀ lib ∈ libs, turn (file :: tried) lib.path = turn tried lib.path + 1 := by
            intro lib hlib
            refine turn_cons_of_not_same (fun hsame => ?_) tried
            exact List.find?_eq_none.mp hnone lib hlib (decide_eq_true hsame)
          obtain ⟨hmem, hlt, hfirst⟩ := ih h
          rw [hlater found hmem, List.length_cons]
          refine ⟨hmem, by omega, fun other hother => ?_⟩
          rw [hlater other hother]
          have hle := hfirst other hother
          omega

/-- **A search for a library that is tried** finds one, and it finds this very library exactly when
    this has the first turn. -/
theorem exists_findLibrary? {lib : Library} {file : RootedPath} (hlib : lib ∈ libs)
    (hfile : file ∈ tried) (hsame : lib.path.Same file) :
    ∃ found ∈ libs, findLibrary? tried libs = some found ∧
      (found.path.Same lib.path ↔
        ∀ other ∈ libs, turn tried lib.path ≤ turn tried other.path) := by
  have hsome : (findLibrary? tried libs).isSome = true := by
    refine List.findSome?_isSome_iff.mpr ⟨file, hfile, ?_⟩
    exact List.find?_isSome.mpr ⟨lib, hlib, decide_eq_true hsame⟩
  obtain ⟨found, hfound⟩ := Option.isSome_iff_exists.mp hsome
  obtain ⟨hmem, hlt, hfirst⟩ := turn_le_of_findLibrary? hfound
  refine ⟨found, hmem, hfound, fun hvery other hother => ?_, fun hleast => ?_⟩
  · rw [← turn_eq_of_same hvery]
    exact hfirst other hother
  · -- neither is tried before the other
    have hturn : turn tried found.path = turn tried lib.path := by
      have hle := hfirst lib hlib
      have hge := hleast found hmem
      omega
    exact same_of_turn_eq hturn hlt

/-- A library is tried under its name in its directory, however this is spelled. -/
theorem exists_mem_triedFiles {dirs : List RootedPath} {names : List String} {dir : RootedPath}
    {name : String} (hdir : dir ∈ dirs) (hsame : p.parent.Same dir) (hname : name ∈ names)
    (hfile : p.fileName? = some name) : ∃ file ∈ triedFiles dirs names, p.Same file :=
  ⟨dir.join name, List.mem_flatMap.mpr ⟨dir, hdir, List.mem_map_of_mem hname⟩,
    hsame.1, Path.same_join_fileName hfile hsame.2⟩

end Search

/-! ## The flags for the search -/

/-- **A flag that names a directory for the search**, whoever wrote it. -/
def isSearchFlag (family : ToolFamily) : Piece → Bool
  | .plain text => (Text.dropLead? (searchFlag family) text).isSome
  | .sequence (.plain text :: _) => (Text.dropLead? (searchFlag family) text).isSome
  | _ => false

section Linkers

variable {tools : Toolchain} {lang : String} {mode : LinkMode} {linker : Linker}

/-- The flags for directories are what they are for. -/
theorem isSearchFlag_flagged (family : ToolFamily) (dir : RootedPath) :
    isSearchFlag family (flagged (searchFlag family) (.path dir)) = true := by
  have hlead : Text.dropLead? (searchFlag family) (searchFlag family) = some "" :=
    Text.dropLead?_eq_some_iff.mpr String.append_empty.symm
  show (Text.dropLead? (searchFlag family) (searchFlag family)).isSome = true
  rw [hlead]
  rfl

/-- The flag of a run path names no directory for the search. -/
theorem isSearchFlag_runPath (h : tools.linker lang mode = .ok linker) (libs : List Library)
    (output : RootedPath) :
    ∀ flag ∈ linker.runPath libs output, isSearchFlag tools.family flag = false := by
  have hnone : ∀ flag ∈ ([] : List Piece), isSearchFlag tools.family flag = false :=
    fun flag hflag => absurd hflag List.not_mem_nil
  obtain ⟨language, -, ⟨-, -, rfl⟩ | ⟨hfamily, -, rfl⟩ | ⟨-, -, rfl⟩ | ⟨-, -, rfl⟩⟩ := linker_ok h
  · exact hnone
  · dsimp only [Linker.cc]
    split
    · exact hnone
    · split
      · refine List.forall_mem_singleton.mpr ?_
        rw [isSearchFlag, hfamily, Option.isSome_eq_false_iff, Option.isNone_iff_eq_none]
        refine Option.eq_none_iff_forall_ne_some.mpr fun rest hrest => ?_
        -- the second character tells the two flags apart
        have htext := congrArg String.toList (Text.dropLead?_eq_some_iff.mp hrest)
        rw [String.toList_append, String.toList_append] at htext
        exact absurd (List.cons.inj (List.cons.inj htext).2).1 (by decide)
      · exact hnone
  · exact hnone
  · exact hnone

/-- Neither the flags for the kind of binary nor those for an import library name directories. -/
theorem isSearchFlag_modeFlags (h : tools.linker lang mode = .ok linker) :
    ∀ flag ∈ linker.modeFlags, isSearchFlag tools.family flag = false := by
  obtain ⟨language, -, ⟨-, -, rfl⟩ | ⟨hfamily, -, rfl⟩ | ⟨-, -, rfl⟩ | ⟨hfamily, -, rfl⟩⟩ :=
    linker_ok h
  · exact fun flag hflag => absurd hflag List.not_mem_nil
  · have hall : ∀ flag ∈ if mode = .sharedLibrary then [Piece.plain "-shared", .plain "-fPIC"] else [],
        isSearchFlag .cc flag = false := by
      split
      · simp only [List.forall_mem_cons, List.not_mem_nil, false_implies, implies_true, and_true]
        exact ⟨by decide +kernel, by decide +kernel⟩
      · exact fun flag hflag => absurd hflag List.not_mem_nil
    rw [hfamily]
    exact hall
  · exact fun flag hflag => absurd hflag List.not_mem_nil
  · have hall : ∀ flag ∈ if mode = .sharedLibrary then [Piece.plain "/DLL"] else [],
        isSearchFlag .msvc flag = false := by
      split
      · exact List.forall_mem_singleton.mpr (by decide +kernel)
      · exact fun flag hflag => absurd hflag List.not_mem_nil
    rw [hfamily]
    exact hall

theorem isSearchFlag_importedFlags (tools : Toolchain) (library : Option RootedPath) :
    ∀ flag ∈ importedFlags tools library, isSearchFlag tools.family flag = false := by
  intro flag hflag
  unfold importedFlags at hflag
  split at hflag
  · obtain ⟨path, -, rfl⟩ := List.mem_map.mp hflag
    show (Text.dropLead? (searchFlag tools.family) (importFlag tools.family)).isSome = false
    cases tools.family <;> decide +kernel
  · exact absurd hflag List.not_mem_nil

/-- **The flags of a link that name directories**: those that somebody wrote as options, and one for each
    directory of the libraries that are searched. -/
theorem filter_linkFlags {edge : LinkEdge} {flags : List Piece}
    (h : tools.linker edge.lang edge.mode = .ok linker) (hmode : edge.mode ≠ .staticLibrary)
    (hflags : linkFlags linker edge = .ok flags) :
    flags.filter (isSearchFlag tools.family) =
      (Piece.plainTexts edge.options).filter (isSearchFlag tools.family) ++
        (searchedDirs tools.family edge.libs).map
          fun dir => flagged (searchFlag tools.family) (.path dir) := by
  have hnone : ∀ {others : List Piece}, (∀ flag ∈ others, isSearchFlag tools.family flag = false) →
      others.filter (isSearchFlag tools.family) = [] := by
    intro others hothers
    exact List.filter_eq_nil_iff.mpr fun flag hflag => Bool.eq_false_iff.mp (hothers flag hflag)
  have hdirs : ((searchedDirs tools.family edge.libs).map
      fun dir => flagged (searchFlag tools.family) (.path dir)).filter (isSearchFlag tools.family) =
      (searchedDirs tools.family edge.libs).map
        fun dir => flagged (searchFlag tools.family) (.path dir) := by
    refine List.filter_eq_self.mpr fun flag hflag => ?_
    obtain ⟨dir, -, rfl⟩ := List.mem_map.mp hflag
    exact isSearchFlag_flagged tools.family dir
  rw [linkFlags_eq h hflags, ownFlags, if_neg hmode]
  simp only [List.filter_append]
  rw [hnone (isSearchFlag_modeFlags h), hnone (isSearchFlag_runPath h edge.libs edge.output),
    hnone (isSearchFlag_importedFlags tools edge.importLibrary), hdirs, List.nil_append,
    List.append_nil, List.append_nil]

end Linkers

/-! ## Arguments -/

/-- The names of the files that an argument stands for: `-lNAME` for an archive or a shared library
    with that name, and an argument of Microsoft's linker for the file that it names. -/
def argumentFiles (tools : Toolchain) : Piece → List String
  | .plain text =>
      match tools.family with
      | .cc =>
          match Text.dropLead? "-l" text with
          | some name =>
              ["lib" ++ name ++ ".a", "lib" ++ name ++ tools.platform.sharedLibraryExtension]
          | none => []
      | .msvc => [(Text.dropLead? "/WHOLEARCHIVE:" text).getD text]
  | _ => []

theorem argumentFiles_short (tools : Toolchain) (hfamily : tools.family = .cc) (name : String) :
    argumentFiles tools (.plain ("-l" ++ name)) =
      ["lib" ++ name ++ ".a", "lib" ++ name ++ tools.platform.sharedLibraryExtension] := by
  have hname : Text.dropLead? "-l" ("-l" ++ name) = some name :=
    Text.dropLead?_eq_some_iff.mpr rfl
  simp only [argumentFiles, hfamily, hname]

/-- The name of a file stands for itself, also behind the flag for whole archives. -/
theorem argumentFiles_fileName (tools : Toolchain) (hfamily : tools.family = .msvc) {name : String}
    (hslash : '/' ∉ name.toList) :
    argumentFiles tools (.plain name) = [name] ∧
      argumentFiles tools (.plain ("/WHOLEARCHIVE:" ++ name)) = [name] := by
  have hwhole : Text.dropLead? "/WHOLEARCHIVE:" ("/WHOLEARCHIVE:" ++ name) = some name :=
    Text.dropLead?_eq_some_iff.mpr rfl
  have hnone : Text.dropLead? "/WHOLEARCHIVE:" name = none := by
    refine Option.eq_none_iff_forall_ne_some.mpr fun rest hrest => hslash ?_
    rw [Text.dropLead?_eq_some_iff.mp hrest, String.toList_append]
    exact List.mem_append_left _ (by decide)
  constructor
  · simp only [argumentFiles, hfamily, hnone, Option.getD_none]
  · simp only [argumentFiles, hfamily, hwhole, Option.getD_some]

section Linkers

variable {tools : Toolchain} {lang : String} {mode : LinkMode} {linker : Linker}

/-- **The argument of a library** that is searched stands for its file, among others. -/
theorem libraryWords_of_isSearched (h : tools.linker lang mode = .ok linker)
    (hmode : mode ≠ .staticLibrary) {lib : Library}
    (hname : lib.Nameable tools.family tools.platform) (hsearched : lib.IsSearched tools.family) :
    ∃ argument name, linker.libraryWords lib = .ok [argument] ∧
      lib.path.fileName? = some name ∧ name ∈ argumentFiles tools argument := by
  obtain ⟨language, -, ⟨-, hstatic, -⟩ | ⟨hfamily, -, rfl⟩ | ⟨-, hstatic, -⟩ | ⟨hfamily, -, rfl⟩⟩ :=
    linker_ok h
  · exact absurd hstatic hmode
  · -- the name is what stands between `lib` and one of the two endings
    rw [hfamily] at hname hsearched
    have hkind : lib.kind = .shared := hsearched.resolve_left (by decide)
    obtain ⟨short, hne, hfile⟩ := hname hkind
    have hwords : ∀ fileName, lib.path.fileName? = some fileName →
        Linker.linkName? tools.platform fileName = some short →
          Linker.ccLibraryWords tools.platform lib = .ok [.plain ("-l" ++ short)] := by
      intro fileName hfileName hshort
      simp only [Linker.ccLibraryWords, hkind, hfileName, Option.getD_some, hshort]
    refine ⟨.plain ("-l" ++ short), ?_⟩
    rw [argumentFiles_short tools hfamily]
    rcases hfile with hfile | ⟨himport, hfile⟩
    · refine ⟨_, hwords _ hfile (linkName?_eq_some_iff.mpr ⟨hne, .inl rfl⟩), hfile, ?_⟩
      exact List.mem_cons_self
    · refine ⟨_, hwords _ hfile (linkName?_eq_some_iff.mpr ⟨hne, .inr ⟨himport, rfl⟩⟩), hfile, ?_⟩
      exact List.mem_cons_of_mem _ List.mem_cons_self
  · exact absurd hstatic hmode
  · -- the file name is the argument, or stands in it
    rw [hfamily] at hname
    obtain ⟨name, hfile⟩ := hname
    obtain ⟨halone, hwhole⟩ :=
      argumentFiles_fileName tools hfamily (Path.slash_notMem_fileName hfile)
    have hwords : ∃ argument, Linker.msvcLibraryWords lib = .ok [argument] ∧
        argumentFiles tools argument = [name] := by
      unfold Linker.msvcLibraryWords
      rw [hfile]
      cases lib.kind with
      | wholeArchive => exact ⟨_, rfl, hwhole⟩
      | static => exact ⟨_, rfl, halone⟩
      | shared => exact ⟨_, rfl, halone⟩
    obtain ⟨argument, hargument, hfiles⟩ := hwords
    refine ⟨argument, name, hargument, hfile, ?_⟩
    rw [hfiles]
    exact List.mem_cons_self

end Linkers

/-! ## The main result -/

/-- **The name of a library leads to a library.** Of the flags of a link those name directories that
    somebody wrote as options, and one for each directory of the libraries that are searched. Whatever
    directories the written ones name, and whichever of its files a linker tries first: the search for
    the argument of a library finds a library of the link, and it finds the one that the argument was
    made from exactly when no other library has an earlier turn. -/
theorem findLibrary?_libraryWords {tools : Toolchain} {edge : LinkEdge} {linker : Linker}
    (hlinker : tools.linker edge.lang edge.mode = .ok linker) (hmode : edge.mode ≠ .staticLibrary)
    (hnames : ∀ lib ∈ edge.libs, lib.Nameable tools.family tools.platform) :
    ∃ words, linkLibs linker edge = .ok words ∧
      ∀ flags, linkFlags linker edge = .ok flags →
        flags.filter (isSearchFlag tools.family) =
          (Piece.plainTexts edge.options).filter (isSearchFlag tools.family) ++
            (searchedDirs tools.family edge.libs).map
              (fun dir => flagged (searchFlag tools.family) (.path dir)) ∧
        ∀ lib ∈ edge.libs, lib.IsSearched tools.family →
          ∃ argument ∈ words, linker.libraryWords lib = .ok [argument] ∧
            ∀ (written : List RootedPath) (names : List String),
              names.Perm (argumentFiles tools argument) →
                let tried := triedFiles (written ++ searchedDirs tools.family edge.libs) names
                ∃ found ∈ edge.libs, findLibrary? tried edge.libs = some found ∧
                  (found.path.Same lib.path ↔
                    ∀ other ∈ edge.libs, turn tried lib.path ≤ turn tried other.path) := by
  have hall : ∀ lib ∈ edge.libs, ∃ words, linker.libraryWords lib = .ok words := by
    intro lib hlib
    exact (libraryWords_succeeds_iff hlinker hmode lib).mpr (hnames lib hlib)
  obtain ⟨wordLists, hwordLists⟩ := mapM_succeeds_iff.mpr hall
  refine ⟨wordLists.flatten, ?_, fun flags hflags =>
    ⟨filter_linkFlags hlinker hmode hflags, fun lib hlib hsearched => ?_⟩⟩
  · rw [linkLibs, hwordLists]
    rfl
  obtain ⟨argument, name, hargument, hfile, hstands⟩ :=
    libraryWords_of_isSearched hlinker hmode (hnames lib hlib) hsearched
  refine ⟨argument, ?_, hargument, fun written names hperm => ?_⟩
  · obtain ⟨words, hwords, heq⟩ := exists_mem_of_mapM hwordLists lib hlib
    rw [hargument] at heq
    exact List.mem_flatten.mpr ⟨words, hwords, Except.ok.inj heq ▸ List.mem_singleton.mpr rfl⟩
  -- the directory of the library is searched under one of its spellings
  have hparent : lib.path.parent ∈
      (edge.libs.filter (·.IsSearched tools.family)).map (·.path.parent) :=
    List.mem_map_of_mem (List.mem_filter.mpr ⟨hlib, decide_eq_true hsearched⟩)
  have hrefl : ∀ dir : RootedPath, dir.same dir = true := fun dir => decide_eq_true ⟨rfl, rfl⟩
  obtain ⟨dir, hdir, hsame⟩ := exists_mem_distinct hrefl hparent
  obtain ⟨file, htried, hfound⟩ := exists_mem_triedFiles (List.mem_append_right written hdir)
    (of_decide_eq_true hsame) (hperm.mem_iff.mpr hstands) hfile
  exact exists_findLibrary? hlib htried hfound

/-- A program with libraries in three directories: two shared ones have the same name. -/
def sameNames : LinkEdge where
  output := .build "prog"
  mode := .executable
  lang := "c"
  files := [.build "a.o"]
  libs := [⟨.shared, .build "a/libfoo.so", false⟩, ⟨.shared, .build "b/libfoo.so", false⟩,
    ⟨.shared, .build "c/libbar.so", false⟩]

/-- A compiler driver on Linux. -/
def driverTools : Toolchain := ⟨.cc, .linux, default⟩

/-- Its libraries lie in three directories and have two names. -/
theorem words_sameNames :
    searchedDirs .cc sameNames.libs = [.build "a", .build "b", .build "c"] ∧
    sameNames.libs.map (Linker.ccLibraryWords .linux) =
      [.ok [.plain "-lfoo"], .ok [.plain "-lfoo"], .ok [.plain "-lbar"]] ∧
    ∀ lib ∈ sameNames.libs, lib.Nameable .cc .linux := by
  have hnames : sameNames.libs.map (fun lib => Linker.linkName? .linux (lib.path.fileName?.getD "")) =
      [some "foo", some "foo", some "bar"] := by decide +kernel
  simp only [sameNames, List.map_cons, List.map_nil, List.cons.injEq, and_true] at hnames
  obtain ⟨hfirst, hsecond, hthird⟩ := hnames
  have hwords : sameNames.libs.map (Linker.ccLibraryWords .linux) =
      [.ok [.plain "-lfoo"], .ok [.plain "-lfoo"], .ok [.plain "-lbar"]] := by
    simp only [sameNames, Linker.ccLibraryWords, List.map_cons, List.map_nil, hfirst, hsecond,
      hthird]
    rfl
  refine ⟨by decide +kernel, hwords, fun lib hlib => ccLibraryWords_succeeds_iff.mp ?_⟩
  have hmem := List.mem_map_of_mem (f := Linker.ccLibraryWords .linux) hlib
  simp only [hwords, List.mem_cons, List.not_mem_nil, or_false] at hmem
  rcases hmem with hmem | hmem | hmem
  · exact ⟨_, hmem⟩
  · exact ⟨_, hmem⟩
  · exact ⟨_, hmem⟩

/-- The library with a name of its own is found, in the last of the directories that the flags name. -/
theorem findLibrary?_ownName :
    ∃ words flags, linkLibs (.cc .c .executable .linux default) sameNames = .ok words ∧
      linkFlags (.cc .c .executable .linux default) sameNames = .ok flags ∧
      flags.filter (isSearchFlag .cc) = [flagged "-L" (.path (.build "a")),
        flagged "-L" (.path (.build "b")), flagged "-L" (.path (.build "c"))] ∧
      Piece.plain "-lbar" ∈ words ∧
      ∃ found, found.path.Same (.build "c/libbar.so") ∧
        findLibrary? (triedFiles [.build "a", .build "b", .build "c"]
          (argumentFiles driverTools (.plain "-lbar"))) sameNames.libs = some found := by
  have hlinker : driverTools.linker sameNames.lang sameNames.mode =
      .ok (.cc .c .executable .linux default) := rfl
  obtain ⟨hdirs, hwords, hnames⟩ := words_sameNames
  obtain ⟨words, hlibs, hall⟩ := findLibrary?_libraryWords hlinker (by decide) hnames
  obtain ⟨hflags, hsearch⟩ := hall _ rfl
  obtain ⟨argument, hargument, hbar, hfinds⟩ :=
    hsearch ⟨.shared, .build "c/libbar.so", false⟩ (by decide) (.inr rfl)
  have hbarWord : Linker.ccLibraryWords .linux ⟨.shared, .build "c/libbar.so", false⟩ =
      .ok [.plain "-lbar"] := by
    simp only [sameNames, List.map_cons, List.map_nil, List.cons.injEq] at hwords
    exact hwords.2.2.1
  obtain rfl : Piece.plain "-lbar" = argument :=
    (List.cons.inj (Except.ok.inj (hbarWord.symm.trans hbar))).1
  have hdirs' : searchedDirs driverTools.family sameNames.libs =
      [.build "a", .build "b", .build "c"] := hdirs
  obtain ⟨found, -, hfound, hvery⟩ := hfinds [] _ (.refl _)
  rw [hdirs'] at hflags
  rw [hdirs', List.nil_append] at hfound hvery
  refine ⟨words, _, hlibs, rfl, hflags, hargument, found, hvery.mpr ?_, hfound⟩
  show ∀ other ∈ sameNames.libs,
    turn (triedFiles [.build "a", .build "b", .build "c"]
        (argumentFiles driverTools (.plain "-lbar"))) (.build "c/libbar.so") ≤
      turn (triedFiles [.build "a", .build "b", .build "c"]
        (argumentFiles driverTools (.plain "-lbar"))) other.path
  decide +kernel

/-- The second library with a shared name is not: the search for it finds the first one, in whichever
    order the two kinds of files are tried. -/
theorem findLibrary?_sharedName :
    ∃ flags, linkFlags (.cc .c .executable .linux default) sameNames = .ok flags ∧
      flags.filter (isSearchFlag .cc) = [flagged "-L" (.path (.build "a")),
        flagged "-L" (.path (.build "b")), flagged "-L" (.path (.build "c"))] ∧
      (∀ lib ∈ sameNames.libs, lib.Nameable .cc .linux) ∧
      Linker.ccLibraryWords .linux ⟨.shared, .build "b/libfoo.so", false⟩ =
        .ok [.plain "-lfoo"] ∧
      argumentFiles driverTools (.plain "-lfoo") = ["libfoo.a", "libfoo.so"] ∧
      (∀ names ∈ [["libfoo.a", "libfoo.so"], ["libfoo.so", "libfoo.a"]],
        findLibrary? (triedFiles [.build "a", .build "b", .build "c"] names) sameNames.libs =
          some ⟨.shared, .build "a/libfoo.so", false⟩) ∧
      ¬ (RootedPath.build "a/libfoo.so").Same (.build "b/libfoo.so") := by
  have hlinker : driverTools.linker sameNames.lang sameNames.mode =
      .ok (.cc .c .executable .linux default) := rfl
  obtain ⟨hdirs, hwords, hnames⟩ := words_sameNames
  have hdirs' : searchedDirs driverTools.family sameNames.libs =
      [.build "a", .build "b", .build "c"] := hdirs
  simp only [sameNames, List.map_cons, List.map_nil, List.cons.injEq] at hwords
  have hflags := filter_linkFlags hlinker (by decide) rfl
  rw [hdirs'] at hflags
  -- `a` is searched before `b`, and both have a file of that name
  exact ⟨_, rfl, hflags, hnames, hwords.2.1, by decide +kernel, by decide +kernel, by decide +kernel⟩

end MakeGraph.Generate
