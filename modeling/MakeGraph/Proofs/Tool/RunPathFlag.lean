import MakeGraph.Proofs.Path.Detours
import MakeGraph.Proofs.Text.Split
import MakeGraph.Proofs.Tool.RunPath

/-!
# `Proofs.Tool.RunPathFlag` — the run path as the linker reads it

A binary gets its run path by one flag of the compiler driver, with a colon between each two entries. The
driver takes commas in it for ends of arguments, and the linker takes colons for ends of entries. Nothing
guards either of them in the name of a directory.

An entry that is read holds neither. So it cannot lead to a directory whose way has one, whatever else is
read (`not_mem_wayTo_of_leads`), and the entries that are read are a run path exactly if no way has any
(`runPath_leads`).

## Contents

* `flagEntries`, `entriesOf` — the reader
* `flagEntries_intercalate`, `not_mem_of_mem_entriesOf` — what is read
* `not_mem_wayTo_of_leads` — what an entry must hold to lead to a library
* `runPath_leads` — the main result
* `not_isRunPath_colon` — a directory with a colon in its name
-/

namespace MakeGraph.Linker

open Make (Piece)

/-! ## The reader -/

/-- The entries of the run path that an argument of the linker sets. -/
def argumentEntries (argument : String) : List String :=
  match Text.dropLead? "-rpath=" argument with
  | some entries => Text.splitAt ':' entries
  | none => []

/-- **The entries that a flag of a compiler driver sets.** The driver hands on to the linker what is behind
    `-Wl,` as the arguments between commas. -/
def flagEntries : Piece → List String
  | .plain text =>
      match Text.dropLead? "-Wl," text with
      | some arguments => (Text.splitAt ',' arguments).flatMap argumentEntries
      | none => []
  | _ => []

/-- The run path that flags set. -/
def entriesOf (flags : List Piece) : List String :=
  flags.flatMap flagEntries

example : entriesOf [.plain "-Wl,-rpath=$ORIGIN:/opt/lib", .plain "-s"] = ["$ORIGIN", "/opt/lib"] := by
  decide +kernel

/-- **Entries without colons and commas** are read. -/
theorem flagEntries_intercalate {entries : List String} (hne : entries ≠ [])
    (h : ∀ entry ∈ entries, ':' ∉ entry.toList ∧ ',' ∉ entry.toList) :
    flagEntries (.plain ("-Wl,-rpath=" ++ String.intercalate ":" entries)) = entries := by
  have hflag : Text.dropLead? "-Wl," ("-Wl,-rpath=" ++ String.intercalate ":" entries) =
      some ("-rpath=" ++ String.intercalate ":" entries) := by
    rw [Text.dropLead?_eq_some_iff, ← String.append_assoc]
    rfl
  have hargument : Text.dropLead? "-rpath=" ("-rpath=" ++ String.intercalate ":" entries) =
      some (String.intercalate ":" entries) :=
    Text.dropLead?_eq_some_iff.mpr rfl
  have hcomma : ',' ∉ ("-rpath=" ++ String.intercalate ":" entries).toList := by
    intro hmem
    rw [String.toList_append, String.toList_intercalate] at hmem
    rcases List.mem_append.mp hmem with hmem | hmem
    · exact absurd hmem (by decide)
    · rcases Text.mem_intercalate hmem with hmem | ⟨text, htext, hmem⟩
      · exact absurd hmem (by decide)
      · obtain ⟨entry, hentry, rfl⟩ := List.mem_map.mp htext
        exact (h entry hentry).2 hmem
  have hread : argumentEntries ("-rpath=" ++ String.intercalate ":" entries) = entries := by
    rw [argumentEntries, hargument]
    exact Text.splitAt_intercalate hne fun entry hentry => (h entry hentry).1
  rw [flagEntries, hflag]
  dsimp only
  rw [Text.splitAt_of_not_mem hcomma, List.flatMap_singleton, hread]

/-- No entry that is read has a colon or a comma. -/
theorem not_mem_of_mem_entriesOf {flags : List Piece} {entry : String} (h : entry ∈ entriesOf flags) :
    ':' ∉ entry.toList ∧ ',' ∉ entry.toList := by
  obtain ⟨flag, -, hentry⟩ := List.mem_flatMap.mp h
  cases flag with
  | plain text =>
      rw [flagEntries] at hentry
      split at hentry
      · next arguments harguments =>
          obtain ⟨argument, hargument, hentry⟩ := List.mem_flatMap.mp hentry
          rw [argumentEntries] at hentry
          split at hentry
          · next entries hentries =>
              obtain ⟨hcolon, hsub⟩ := Text.mem_splitAt hentry
              refine ⟨hcolon, fun hcomma => (Text.mem_splitAt hargument).1 ?_⟩
              rw [Text.dropLead?_eq_some_iff.mp hentries, String.toList_append]
              exact List.mem_append_right _ (hsub hcomma)
          · exact absurd hentry List.not_mem_nil
      · exact absurd hentry List.not_mem_nil
  | verbatim text => exact absurd hentry List.not_mem_nil
  | path p => exact absurd hentry List.not_mem_nil
  | sequence parts => exact absurd hentry List.not_mem_nil

/-! ## Entries and directories -/

section Ways

variable {libs : List Library} {output : RootedPath} {lib : Library} {entry : String} {c : Char}

/-- The steps that an entry adds to the directory of a binary are in its text. -/
theorem branches_destination? (houtput : output.path.IsOrdinary) {dir : List Path.Component}
    (h : destination? output entry = some dir) :
    ∃ steps, Path.Branches output.path.parent.moves steps dir ∧
      ∀ name, .name name ∈ steps → name.toList ⊆ entry.toList := by
  have hstart : output.path.parent.Descends := houtput.parent.descends
  unfold destination? originTarget? at h
  split at h
  · obtain rfl := Option.some.inj h
    refine ⟨[], ⟨output.path.parent.moves, [], ?_, List.prefix_refl _, List.nil_subset _⟩,
      fun name hname => absurd hname List.not_mem_nil⟩
    rw [List.append_nil]
    exact hstart.normalForm_eq
  · obtain ⟨path, hpath, rfl⟩ := Option.map_eq_some_iff.mp h
    obtain ⟨way, hway, rfl⟩ := Option.map_eq_some_iff.mp hpath
    refine ⟨_, Path.branches_normalForm_join hstart ⟨way⟩, fun name hname => ?_⟩
    rw [Text.dropLead?_eq_some_iff.mp hway, String.toList_append]
    exact List.subset_append_of_subset_right _ (Path.subset_text_of_name_mem hname)

/-- **An entry that leads to a library** has every character of the names on the way to it. -/
theorem not_mem_wayTo_of_leads (houtput : output.path.IsOrdinary) (hlib : lib.path.path.IsOrdinary)
    (hleads : destination? output entry = some lib.path.parent.path.normalForm)
    (hdot : c ≠ '.') (hslash : c ≠ '/') (hc : c ∉ entry.toList) :
    c ∉ (wayTo output lib).text.toList := by
  intro hmem
  have hdir : lib.path.path.parent.IsOrdinary := hlib.parent
  have hstart : output.path.parent.IsOrdinary := houtput.parent
  rcases Path.mem_text_walk hmem with heq | heq | ⟨step, hstep, hmem⟩
  · exact hdot heq
  · exact hslash heq
  · obtain ⟨steps, hbranches, hsteps⟩ := branches_destination? houtput hleads
    -- the step is no step of the directory of the binary, so the entry has added it
    have hnormal : lib.path.parent.path.normalForm = lib.path.path.parent.components := hdir.normalForm_eq
    rw [hnormal, ← hstart.descends.normalForm_eq, hstart.normalForm_eq] at hbranches
    obtain ⟨common, hcommon, -⟩ :=
      RootedPath.exists_common lib.path.path.parent.components output.path.parent.components
    obtain ⟨name, rfl⟩ := hdir step (by
      rw [hcommon]
      exact List.mem_append_right _ hstep)
    exact hc (hsteps name (hbranches.down_subset hstep) hmem)

/-! ## The main result -/

theorem mem_runPathText {way : Path} (h : c ∈ (runPathText way).toList) :
    c ∈ "$ORIGIN/".toList ∨ c ∈ way.text.toList := by
  unfold runPathText at h
  split at h
  · exact .inl (List.dropLast_subset _ h)
  · exact List.mem_append.mp (String.toList_append ▸ h)

/-- There are entries if a shared library is on the root of the binary. -/
theorem runPathEntries_eq_nil_iff :
    runPathEntries libs output = [] ↔
      ∀ lib ∈ libs, lib.kind = .shared → lib.path.root ≠ output.root := by
  have hrefl : ∀ way : Path, way.same way = true := fun way => decide_eq_true rfl
  rw [runPathEntries, filterMap_wayFrom?]
  constructor
  · intro hnil lib hlib hkind hroot
    have hway : wayTo output lib ∈
        ((sharedOnes libs).filter (·.path.root = output.root)).map (wayTo output) := by
      refine List.mem_map_of_mem (List.mem_filter.mpr ⟨?_, by simpa using hroot⟩)
      exact List.mem_filter.mpr ⟨hlib, by simpa using hkind⟩
    obtain ⟨way, hmem, -⟩ := exists_mem_distinct hrefl hway
    rw [hnil] at hmem
    cases hmem
  · intro hnone
    refine List.eq_nil_iff_forall_not_mem.mpr fun way hway => ?_
    obtain ⟨lib, hlib, -⟩ := List.mem_map.mp (mem_of_mem_distinct hway)
    obtain ⟨hshared, hroot⟩ := List.mem_filter.mp hlib
    obtain ⟨hlib, hkind⟩ := List.mem_filter.mp hshared
    exact hnone lib hlib (by simpa using hkind) (by simpa using hroot)

/-- The flag for a run path, if there is any. -/
theorem runPath_eq (language : Language) (mode : LinkMode) (config : ToolConfig) (libs : List Library)
    (output : RootedPath) :
    (Linker.cc language mode .linux config).runPath libs output =
      if runPathEntries libs output = [] then []
      else [.plain ("-Wl,-rpath=" ++
        String.intercalate ":" ((runPathEntries libs output).map runPathText))] := by
  unfold Linker.cc
  dsimp only
  cases runPathEntries libs output with
  | nil => rfl
  | cons entry entries => rfl

/-- The library of a way is on the root of the binary. -/
theorem eq_wayTo_of_wayFrom? {way : Path} (h : lib.path.parent.wayFrom? output.parent = some way) :
    lib.path.root = output.root ∧ wayTo output lib = way := by
  have hcases : lib.path.parent.wayFrom? output.parent =
      if lib.path.root = output.root then some (wayTo output lib) else none := rfl
  rw [hcases] at h
  split at h
  · next hroot => exact ⟨hroot, Option.some.inj h⟩
  · cases h

/-- **Ways without colons and commas** are read out of the flag as they were written. -/
theorem entriesOf_runPath (language : Language) (mode : LinkMode) (config : ToolConfig)
    (h : ∀ lib ∈ libs, lib.kind = .shared → ∀ way, lib.path.parent.wayFrom? output.parent = some way →
      ':' ∉ way.text.toList ∧ ',' ∉ way.text.toList) :
    entriesOf ((Linker.cc language mode .linux config).runPath libs output) =
      (runPathEntries libs output).map runPathText := by
  rw [runPath_eq]
  split
  · next hnil =>
      rw [hnil]
      rfl
  · next hne =>
      rw [entriesOf, List.flatMap_singleton]
      refine flagEntries_intercalate (mt List.map_eq_nil_iff.mp hne) fun entry hentry => ?_
      obtain ⟨way, hway, rfl⟩ := List.mem_map.mp hentry
      obtain ⟨lib, hlib, hfrom⟩ := List.mem_filterMap.mp (mem_of_mem_distinct hway)
      obtain ⟨hlib, hkind⟩ := List.mem_filter.mp hlib
      obtain ⟨hcolon, hcomma⟩ := h lib hlib (by simpa using hkind) way hfrom
      exact ⟨fun hmem => (mem_runPathText hmem).elim (by decide) hcolon,
        fun hmem => (mem_runPathText hmem).elim (by decide) hcomma⟩

/-- **The run path of a binary on Linux** has one entry for the directory of every shared library on the
    root of the binary, which leads there from the directory of the binary, and no others, exactly if no
    way to such a directory has a colon or a comma. Without such libraries there is no flag. -/
theorem runPath_leads (language : Language) (mode : LinkMode) (config : ToolConfig)
    (hlibs : ∀ lib ∈ libs, lib.path.path.IsOrdinary) (houtput : output.path.IsOrdinary) :
    let flags := (Linker.cc language mode .linux config).runPath libs output
    (IsRunPath libs output (entriesOf flags) ↔
      ∀ lib ∈ libs, lib.kind = .shared → ∀ way, lib.path.parent.wayFrom? output.parent = some way →
        ':' ∉ way.text.toList ∧ ',' ∉ way.text.toList) ∧
    (flags = [] ↔ ∀ lib ∈ libs, lib.kind = .shared → lib.path.root ≠ output.root) := by
  intro flags
  refine ⟨⟨fun hrunPath lib hlib hkind way hway => ?_, fun hways => ?_⟩, ?_⟩
  · -- the entry for the directory of the library has neither, so its way has neither
    obtain ⟨hroot, rfl⟩ := eq_wayTo_of_wayFrom? hway
    obtain ⟨entry, ⟨hentry, hleads⟩, -⟩ := hrunPath.reaches lib hlib hkind hroot
    obtain ⟨hcolon, hcomma⟩ := not_mem_of_mem_entriesOf hentry
    have hordinary := hlibs lib hlib
    exact ⟨not_mem_wayTo_of_leads houtput hordinary hleads (by decide) (by decide) hcolon,
      not_mem_wayTo_of_leads houtput hordinary hleads (by decide) (by decide) hcomma⟩
  · have hentries : entriesOf flags = (runPathEntries libs output).map runPathText :=
      entriesOf_runPath language mode config hways
    rw [hentries]
    exact isRunPath_runPathEntries houtput hlibs
  · rw [← runPathEntries_eq_nil_iff]
    show (Linker.cc language mode .linux config).runPath libs output = [] ↔ _
    rw [runPath_eq]
    split
    · next hnil => exact iff_of_true rfl hnil
    · next hne => exact iff_of_false (List.cons_ne_nil _ _) hne

end Ways

/-- Libraries of a program in two directories, with a static one, and one below another root. -/
def scatteredLibs : List Library := [
  ⟨.shared, .build "lib/libfoo.so", false⟩,
  ⟨.static, .build "arch/libold.a", false⟩,
  ⟨.shared, .build "bin/libbar.so", false⟩,
  ⟨.shared, .build "lib//libbaz.so", false⟩,
  ⟨.shared, ⟨.source, ⟨"third/libqux.so"⟩⟩, false⟩]

/-- The program finds them beside itself and in one more directory. -/
theorem runPath_scatteredLibs :
    let entries := entriesOf
      ((Linker.cc .c .executable .linux default).runPath scatteredLibs (.build "bin/prog"))
    IsRunPath scatteredLibs (.build "bin/prog") entries ∧
      entries.map (destination? (.build "bin/prog")) =
        [some [.name "lib"], some [.name "bin"]] := by
  have hlibs : ∀ lib ∈ scatteredLibs, lib.path.path.IsOrdinary := by decide +kernel
  have houtput : (RootedPath.build "bin/prog").path.IsOrdinary := by decide +kernel
  have hdirs : (libraryDirs scatteredLibs (RootedPath.build "bin/prog").root).eraseDups =
      [[.name "lib"], [.name "bin"]] := by decide +kernel
  have hways : ∀ lib ∈ scatteredLibs, lib.kind = .shared → ∀ way,
      lib.path.parent.wayFrom? (RootedPath.build "bin/prog").parent = some way →
        ':' ∉ way.text.toList ∧ ',' ∉ way.text.toList := by
    have hall : ∀ lib ∈ scatteredLibs,
        (lib.path.parent.wayFrom? (RootedPath.build "bin/prog").parent).all (fun way =>
          decide (':' ∉ way.text.toList ∧ ',' ∉ way.text.toList)) = true := by decide +kernel
    intro lib hlib _ way hway
    have htext := hall lib hlib
    rw [hway, Option.all_some] at htext
    exact of_decide_eq_true htext
  have hrunPath := ((runPath_leads .c .executable default hlibs houtput).1.mpr hways)
  refine ⟨hrunPath, ?_⟩
  rw [hrunPath.inOrder, hdirs]
  rfl

/-- **A colon or a comma in a directory** tears its entry apart: neither entry of the first library leads to
    it, and the entry of the second one ends too early. -/
theorem not_isRunPath_colon :
    (RootedPath.build "a:b/libfoo.so").path.IsOrdinary ∧
    (RootedPath.build "a,b/libfoo.so").path.IsOrdinary ∧
    (Linker.cc .c .executable .linux default).runPath
        [⟨.shared, .build "a:b/libfoo.so", false⟩] (.build "prog") =
      [.plain "-Wl,-rpath=$ORIGIN/a:b"] ∧
    entriesOf [.plain "-Wl,-rpath=$ORIGIN/a:b"] = ["$ORIGIN/a", "b"] ∧
    ¬ IsRunPath [⟨.shared, .build "a:b/libfoo.so", false⟩] (.build "prog") ["$ORIGIN/a", "b"] ∧
    (Linker.cc .c .executable .linux default).runPath
        [⟨.shared, .build "a,b/libfoo.so", false⟩] (.build "prog") =
      [.plain "-Wl,-rpath=$ORIGIN/a,b"] ∧
    entriesOf [.plain "-Wl,-rpath=$ORIGIN/a,b"] = ["$ORIGIN/a"] ∧
    ¬ IsRunPath [⟨.shared, .build "a,b/libfoo.so", false⟩] (.build "prog") ["$ORIGIN/a"] := by
  refine ⟨by decide +kernel, by decide +kernel, ?_, by decide +kernel, fun h => ?_, ?_,
    by decide +kernel, fun h => ?_⟩
  · have hways : runPathEntries [⟨.shared, .build "a:b/libfoo.so", false⟩] (.build "prog") =
        [⟨"a:b"⟩] := by decide +kernel
    rw [runPath_eq, hways]
    rfl
  · exact absurd h.inOrder (by decide +kernel)
  · have hways : runPathEntries [⟨.shared, .build "a,b/libfoo.so", false⟩] (.build "prog") =
        [⟨"a,b"⟩] := by decide +kernel
    rw [runPath_eq, hways]
    rfl
  · exact absurd h.inOrder (by decide +kernel)

end MakeGraph.Linker
