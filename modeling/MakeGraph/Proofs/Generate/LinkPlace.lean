import MakeGraph.Proofs.Generate.LinkFlags
import MakeGraph.Proofs.Generate.LinkVariables
import MakeGraph.Proofs.Generate.WordLists
import MakeGraph.Proofs.Make.AssignedWords
import MakeGraph.Proofs.Make.HeldWords

/-!
# `Proofs.Generate.LinkPlace` — the command of a link with the variables of its Makefile

The command of a link gives the linker all files and the binary as they were named if the variables in it
hold whole words (`words?_linkRecipeOf`). These variables are written by the generator too: the program as
it is, and the flags and libraries word by word, each quoted. But make ends a value at a line break, and at
a `#` that stands behind no backslash, between quotes as well. Then the variable leaves a quote open, and
what follows in the command is read as part of one word.

So the command is read in place exactly where the program is whole words and make ends the value in none of
the texts that the flags and the libraries are put together of (`readInPlace_iff`).

## Contents

* `linkEntries`, `toolNames_eq`, `forall_names_iff` — the variables in the command
* `heldAt?_program`, `heldAt?_global`, `heldAt?_own` — what they hold
* `ReadInPlace`, `linkTexts`, `isCut_linkTexts_iff` — the command and the texts in it
* `readInPlace_iff` — the main result
-/

namespace MakeGraph.Generate

open Make (Command HoldsWords IsSafeName Makefile Piece Recipe)
open Shell (Splits)
open Outcome

/-! ## The variables in the command -/

section Names

variable {tools : Toolchain} {linker : Linker} {graph : BuildGraph} {edge : LinkEdge}
  {flags libs : List Piece}

/-- The variables with the flags and libraries of a link, by their stems: the words of all links, and those
    of this one. -/
def linkEntries (linker : Linker) (graph : BuildGraph) (mode : LinkMode) (flags libs : List Piece) :
    List (String × List String × List Piece) :=
  (linker.flagsStem, globalLinkFlags linker graph mode, flags) ::
    linker.libsStem.toList.map fun name => (name, linker.usualLibs, libs)

/-- The variables of all links that those of one link begin with. -/
def globalNames (family : ToolFamily) (edge : LinkEdge) : List String :=
  (toolNames family edge).tail.map ("GLOBAL_" ++ ·)

/-- The names in the command are those of the program and of the flags and libraries. -/
theorem toolNames_eq (h : tools.linker edge.lang edge.mode = .ok linker) (graph : BuildGraph)
    (flags libs : List Piece) :
    toolNames tools.family edge = (programVariable linker.programStem).name ::
        (linkEntries linker graph edge.mode flags libs).map (fun entry => (flagsVariable entry.1).name) ∧
      globalNames tools.family edge = (linkEntries linker graph edge.mode flags libs).map
        fun entry => (globalFlagsVariable entry.1).name := by
  obtain ⟨language, hlanguage, ⟨hfamily, hmode, rfl⟩ | ⟨hfamily, hmode, rfl⟩ |
    ⟨hfamily, hmode, rfl⟩ | ⟨hfamily, hmode, rfl⟩⟩ := linker_ok h
  · simp only [globalNames, toolNames, hfamily, hmode]
    show ["AR", "ARFLAGS"] = [(programVariable "ar").name, (flagsVariable "arflags").name] ∧
      ["GLOBAL_ARFLAGS"] = [(globalFlagsVariable "arflags").name]
    decide +kernel
  · have hnames : [driverName edge.lang, "LDFLAGS", "LDLIBS"] =
          [(programVariable (Compiler.driverVar language)).name, (flagsVariable "ldflags").name,
            (flagsVariable "ldlibs").name] ∧
        ["GLOBAL_LDFLAGS", "GLOBAL_LDLIBS"] =
          [(globalFlagsVariable "ldflags").name, (globalFlagsVariable "ldlibs").name] := by
      rcases language_cases hlanguage with ⟨hlang, rfl⟩ | ⟨hlang, rfl⟩
      · rw [hlang]
        decide +kernel
      · rw [hlang]
        decide +kernel
    simp only [globalNames, toolNames, hfamily]
    exact hnames
  · simp only [globalNames, toolNames, hfamily, hmode]
    show ["LIB", "LIBFLAGS"] = [(programVariable "lib").name, (flagsVariable "libflags").name] ∧
      ["GLOBAL_LIBFLAGS"] = [(globalFlagsVariable "libflags").name]
    decide +kernel
  · have hnames : ["LINK", "LDFLAGS", "LDLIBS"] =
          [(programVariable "link").name, (flagsVariable "ldflags").name,
            (flagsVariable "ldlibs").name] ∧
        ["GLOBAL_LDFLAGS", "GLOBAL_LDLIBS"] =
          [(globalFlagsVariable "ldflags").name, (globalFlagsVariable "ldlibs").name] := by
      decide +kernel
    simp only [globalNames, toolNames, hfamily]
    exact hnames

/-- What holds of all these names holds of the program and, entry by entry, of the variables of all links
    and of those of this one. -/
theorem forall_names_iff (h : tools.linker edge.lang edge.mode = .ok linker) (graph : BuildGraph)
    (flags libs : List Piece) {P : String → Prop} :
    (∀ name ∈ toolNames tools.family edge ++ globalNames tools.family edge, P name) ↔
      P (programVariable linker.programStem).name ∧
        ∀ entry ∈ linkEntries linker graph edge.mode flags libs,
          P (globalFlagsVariable entry.1).name ∧ P (flagsVariable entry.1).name := by
  obtain ⟨htools, hglobals⟩ := toolNames_eq h graph flags libs
  rw [htools, hglobals, List.cons_append, List.forall_mem_cons, List.forall_mem_append,
    List.forall_mem_map, List.forall_mem_map]
  exact and_congr_right fun _ => and_comm.trans forall₂_and.symm

theorem mem_of_mem_linkEntries {mode : LinkMode} {entry : String × List String × List Piece}
    (hentry : entry ∈ linkEntries linker graph mode flags libs) :
    ∀ piece ∈ entry.2.2, piece ∈ flags ++ libs := by
  intro piece hpiece
  rcases List.mem_cons.mp hentry with rfl | hentry
  · exact List.mem_append_left _ hpiece
  · obtain ⟨name, -, rfl⟩ := List.mem_map.mp hentry
    exact List.mem_append_right _ hpiece

theorem stems_linkEntries (h : tools.linker edge.lang edge.mode = .ok linker) (graph : BuildGraph)
    (flags libs : List Piece) :
    ∀ entry ∈ linkEntries linker graph edge.mode flags libs, entry.1 ∈ flagsStems := by
  obtain ⟨hflags, hlibs, -⟩ := linker_stems_mem h
  refine List.forall_mem_cons.mpr ⟨hflags, fun entry hentry => ?_⟩
  obtain ⟨name, hname, rfl⟩ := List.mem_map.mp hentry
  exact hlibs name (Option.mem_toList.mp hname)

end Names

/-! ## What they hold -/

section Held

variable {m : Makefile} {linker : Linker} {graph : BuildGraph} {mode : LinkMode} {flags libs : List Piece}
  {way : List String} {entry : String × List String × List Piece}

/-- What is held by the variable with the command of a linker. It is written as it is. -/
def heldProgram (linker : Linker) : Option (List Char) :=
  Make.readAssigned? (fun _ => []) (Command.line (.plain linker.program)).valueLine

/-- The parts of texts that are words of their own. -/
def textParts (texts : List String) : List (List (List Char)) :=
  texts.map fun text => [text.toList]

theorem heldAt?_program (h : LinkSettings m linker graph mode flags libs way)
    (value : String → List Char) :
    m.heldAt? value way (programVariable linker.programStem).name = heldProgram linker := by
  have hline : (Command.line (.plain linker.program)).valueLine =
      ' ' :: (Make.doubleDollars linker.program.toList ++ ['\n']) := by
    have htext : (Make.escape .shellLine linker.program).toList =
        Make.doubleDollars linker.program.toList := String.toList_ofList
    rw [Command.valueLine, String.toList_append, String.toList_append, Command.render, Piece.render_plain,
      htext]
    rfl
  rw [Makefile.heldAt?, h.program, Option.bind_some, heldProgram, hline, Make.readAssigned?_line,
    Make.readAssigned?_line, Make.readAssigned?_doubleDollars, Make.readAssigned?_doubleDollars]

theorem heldAt?_global (h : LinkSettings m linker graph mode flags libs way)
    (hentry : entry ∈ linkEntries linker graph mode flags libs) (value : String → List Char) :
    m.heldAt? value way (globalFlagsVariable entry.1).name = Make.heldWords (textParts entry.2.1) := by
  have htexts : (entry.1, entry.2.1) ∈ globalTexts linker graph mode := by
    rcases List.mem_cons.mp hentry with rfl | hentry
    · exact List.mem_cons_self
    · obtain ⟨name, hname, rfl⟩ := List.mem_map.mp hentry
      exact List.mem_cons_of_mem _ (List.mem_map_of_mem hname)
  have hwords : (Command.words (Piece.plainTexts entry.2.1)).render.toList =
      Make.doubleDollars (Make.wordsText (textParts entry.2.1)) := by
    rw [Make.toList_render_plainTexts, Make.quotedWords_eq]
    rfl
  have hlookup : m.lookup (globalFlagsVariable entry.1) way =
      some (.words (Piece.plainTexts entry.2.1)) := h.globals _ _ htexts
  rw [Makefile.heldAt?]
  show (m.lookup (globalFlagsVariable entry.1) way).bind _ = _
  rw [hlookup]
  exact Make.readAssigned?_words value (Make.parts_ne_nil _) hwords

/-- **What one link adds** stands behind what all links have. -/
theorem heldAt?_own (h : LinkSettings m linker graph mode flags libs way)
    (hstems : ∀ entry ∈ linkEntries linker graph mode flags libs, entry.1 ∈ flagsStems)
    (hwords : ∀ piece ∈ flags ++ libs, isWord piece = true)
    (hentry : entry ∈ linkEntries linker graph mode flags libs) (value : String → List Char) :
    m.heldAt? value way (flagsVariable entry.1).name =
      Make.heldBehind (value (globalFlagsVariable entry.1).name) (entry.2.2.map wordParts) := by
  have hsafe : ∀ stem ∈ flagsStems, IsSafeName (globalFlagsVariable stem).name := by decide +kernel
  have hlookup : m.lookup (flagsVariable entry.1) way = some (withGlobalFlags entry.1 entry.2.2) := by
    rcases List.mem_cons.mp hentry with rfl | hmem
    · exact h.flags
    · obtain ⟨name, hname, rfl⟩ := List.mem_map.mp hmem
      exact h.libs name (Option.mem_toList.mp hname)
  have hown : ∀ piece ∈ entry.2.2, isWord piece = true := fun piece hpiece =>
    hwords piece (mem_of_mem_linkEntries hentry piece hpiece)
  rw [Makefile.heldAt?]
  show (m.lookup (flagsVariable entry.1) way).bind _ = _
  rw [hlookup]
  exact Make.readAssigned?_behind value (hsafe _ (hstems entry hentry)) (toList_render_words hown)
    List.map_eq_nil_iff.symm

end Held

/-! ## The command in place -/

section Place

variable {m : Makefile} {tools : Toolchain} {linker : Linker} {graph : BuildGraph} {edge : LinkEdge}
  {flags libs : List Piece} {way : List String}

/-- No word of a link is without parts. -/
theorem parts_ne_nil_of_linkEntries {mode : LinkMode} {entry : String × List String × List Piece}
    (hwords : ∀ piece ∈ flags ++ libs, isWord piece = true)
    (hentry : entry ∈ linkEntries linker graph mode flags libs) :
    ∀ parts ∈ entry.2.2.map wordParts, parts ≠ [] := by
  intro parts hparts
  obtain ⟨piece, hpiece, rfl⟩ := List.mem_map.mp hparts
  exact (toList_render_of_isWord (hwords piece (mem_of_mem_linkEntries hentry piece hpiece))).2

/-- **The command of a link is read in place** where make comes to its recipe on a way: all variables in it
    hold whole words, as make reads them, and the shell reads these words with all operands in their
    places. -/
def ReadInPlace (m : Makefile) (family : ToolFamily) (edge : LinkEdge) (recipe : Recipe)
    (way : List String) : Prop :=
  ∃ value words command,
    (∀ name ∈ toolNames family edge ++ globalNames family edge,
      m.heldAt? value way name = some (value name) ∧ Splits (value name) (words name)) ∧
    Make.expandCall m value (firstLine recipe) = some command ∧
    Shell.words? command = some (commandWords family edge words)

/-- The texts that the flags and libraries of a link are put together of. -/
def linkTexts (linker : Linker) (graph : BuildGraph) (mode : LinkMode) (flags libs : List Piece) :
    List String :=
  (linkEntries linker graph mode flags libs).flatMap fun entry =>
    entry.2.1 ++ entry.2.2.flatMap fun piece => piece.leaves.map leafText

/-- Make ends the value of a variable in none of its words if it does so in none of their texts. -/
theorem isCut_linkTexts_iff :
    (∀ text ∈ linkTexts linker graph edge.mode flags libs, Make.isCut 0 text.toList = false) ↔
      ∀ entry ∈ linkEntries linker graph edge.mode flags libs,
        (∀ parts ∈ textParts entry.2.1, Make.cutsWord parts = false) ∧
        (∀ parts ∈ entry.2.2.map wordParts, Make.cutsWord parts = false) := by
  have htexts : ∀ texts : List String, (∀ parts ∈ textParts texts, Make.cutsWord parts = false) ↔
      ∀ text ∈ texts, Make.isCut 0 text.toList = false := by
    intro texts
    rw [textParts, List.forall_mem_map]
    simp [Make.cutsWord]
  have hpieces : ∀ pieces : List Piece,
      (∀ parts ∈ pieces.map wordParts, Make.cutsWord parts = false) ↔
        ∀ text ∈ pieces.flatMap (fun piece => piece.leaves.map leafText),
          Make.isCut 0 text.toList = false := by
    intro pieces
    rw [List.forall_mem_map, List.forall_mem_flatMap]
    refine forall₂_congr fun piece _ => ?_
    rw [List.forall_mem_map]
    simp [Make.cutsWord, wordParts]
  rw [linkTexts, List.forall_mem_flatMap]
  refine forall₂_congr fun entry _ => ?_
  rw [List.forall_mem_append, htexts, hpieces]

section Settings

variable (h : LinkSettings m linker graph edge.mode flags libs way)
  (hlinker : tools.linker edge.lang edge.mode = .ok linker)
  (hwords : ∀ piece ∈ flags ++ libs, isWord piece = true)
include h hlinker hwords

/-- There are values of the variables that agree with what make reads while they hold them. -/
theorem exists_value_of_linkSettings :
    ∃ value, ∀ name ∈ toolNames tools.family edge ++ globalNames tools.family edge,
      ∀ text, m.heldAt? value way name = some text → value name = text := by
  have hstems := stems_linkEntries hlinker graph flags libs
  obtain ⟨htools, hglobals⟩ := toolNames_eq hlinker graph flags libs
  -- the program and the variables of all links refer to nothing, and the others to these
  have hbase : ∀ name ∈ (programVariable linker.programStem).name :: globalNames tools.family edge,
      ∀ value value', m.heldAt? value way name = m.heldAt? value' way name := by
    intro name hname value value'
    rcases List.mem_cons.mp hname with rfl | hname
    · rw [heldAt?_program h, heldAt?_program h]
    · rw [hglobals] at hname
      obtain ⟨entry, hentry, rfl⟩ := List.mem_map.mp hname
      rw [heldAt?_global h hentry, heldAt?_global h hentry]
  have hnames : ∀ name ∈ (linkEntries linker graph edge.mode flags libs).map
      (fun entry => (flagsVariable entry.1).name), ∀ value value',
        (∀ other ∈ (programVariable linker.programStem).name :: globalNames tools.family edge,
          value other = value' other) → m.heldAt? value way name = m.heldAt? value' way name := by
    intro name hname value value' hagree
    obtain ⟨entry, hentry, rfl⟩ := List.mem_map.mp hname
    have hglobal : (globalFlagsVariable entry.1).name ∈ globalNames tools.family edge := by
      rw [hglobals]
      exact List.mem_map_of_mem hentry
    rw [heldAt?_own h hstems hwords hentry, heldAt?_own h hstems hwords hentry,
      hagree _ (List.mem_cons_of_mem _ hglobal)]
  obtain ⟨value, hvalue⟩ := Make.exists_value_eq hbase hnames
  refine ⟨value, fun name hname => hvalue name ?_⟩
  rw [htools] at hname
  simp only [List.mem_append, List.mem_cons] at hname ⊢
  tauto

/-- What all variables hold, by the texts that are assigned to them. -/
theorem heldAt?_of_entries {value : String → List Char}
    (hprogram : heldProgram linker = some (value (programVariable linker.programStem).name))
    (hentries : ∀ entry ∈ linkEntries linker graph edge.mode flags libs,
      Make.heldWords (textParts entry.2.1) = some (value (globalFlagsVariable entry.1).name) ∧
      Make.heldBehind (value (globalFlagsVariable entry.1).name) (entry.2.2.map wordParts) =
        some (value (flagsVariable entry.1).name)) :
    ∀ name ∈ toolNames tools.family edge ++ globalNames tools.family edge,
      m.heldAt? value way name = some (value name) := by
  have hstems := stems_linkEntries hlinker graph flags libs
  rw [forall_names_iff hlinker graph flags libs]
  refine ⟨(heldAt?_program h value).trans hprogram, fun entry hentry => ?_⟩
  obtain ⟨hglobal, hown⟩ := hentries entry hentry
  exact ⟨(heldAt?_global h hentry value).trans hglobal,
    (heldAt?_own h hstems hwords hentry value).trans hown⟩

/-- **All variables hold whole words** if make ends no value in a text of them. -/
theorem holdsWords_of_linkSettings {value : String → List Char}
    (hvalue : ∀ name ∈ toolNames tools.family edge ++ globalNames tools.family edge,
      ∀ text, m.heldAt? value way name = some text → value name = text)
    (hprogram : HoldsWords (heldProgram linker))
    (hkept : ∀ text ∈ linkTexts linker graph edge.mode flags libs, Make.isCut 0 text.toList = false) :
    ∀ name ∈ toolNames tools.family edge ++ globalNames tools.family edge,
      HoldsWords (m.heldAt? value way name) := by
  have hstems := stems_linkEntries hlinker graph flags libs
  rw [forall_names_iff hlinker graph flags libs] at hvalue ⊢
  rw [isCut_linkTexts_iff] at hkept
  refine ⟨(heldAt?_program h value).symm ▸ hprogram, fun entry hentry => ?_⟩
  -- the words of all links first, because those of this one stand behind them
  have hglobal : HoldsWords (m.heldAt? value way (globalFlagsVariable entry.1).name) := by
    rw [heldAt?_global h hentry]
    exact (Make.holdsWords_words_iff (Make.parts_ne_nil entry.2.1)).mpr (hkept entry hentry).1
  refine ⟨hglobal, ?_⟩
  obtain ⟨text, read, htext, hsplits⟩ := hglobal
  rw [← (hvalue.2 entry hentry).1 text htext] at hsplits
  rw [heldAt?_own h hstems hwords hentry]
  exact (Make.holdsWords_behind_iff (parts_ne_nil_of_linkEntries hwords hentry) hsplits).mpr
    (hkept entry hentry).2

/-- **Where all variables hold whole words**, make ends no value in a text of them. -/
theorem kept_of_splits {value : String → List Char} {words : String → List String}
    (hheld : ∀ name ∈ toolNames tools.family edge ++ globalNames tools.family edge,
      m.heldAt? value way name = some (value name) ∧ Splits (value name) (words name)) :
    HoldsWords (heldProgram linker) ∧
      ∀ text ∈ linkTexts linker graph edge.mode flags libs, Make.isCut 0 text.toList = false := by
  have hstems := stems_linkEntries hlinker graph flags libs
  rw [forall_names_iff hlinker graph flags libs] at hheld
  rw [isCut_linkTexts_iff]
  obtain ⟨⟨hprogram, hsplits⟩, hentries⟩ := hheld
  refine ⟨⟨_, _, (heldAt?_program h value).symm.trans hprogram, hsplits⟩, fun entry hentry => ?_⟩
  obtain ⟨⟨hglobal, hfront⟩, hown, hsplits⟩ := hentries entry hentry
  rw [heldAt?_global h hentry] at hglobal
  rw [heldAt?_own h hstems hwords hentry] at hown
  exact ⟨(Make.holdsWords_words_iff (Make.parts_ne_nil _)).mp ⟨_, _, hglobal, hfront⟩,
    (Make.holdsWords_behind_iff (parts_ne_nil_of_linkEntries hwords hentry) hfront).mp
      ⟨_, _, hown, hsplits⟩⟩

/-- **The command is read in place** exactly where make ends no value in a text of it. -/
theorem readInPlace_iff (hoperands : ∀ p ∈ edge.output :: edge.files, IsOperand p)
    (hdefined : m.defines.find? (sharedRecipe linker.recipeStem) = some (linkLines linker)) :
    ReadInPlace m tools.family edge (linkRecipeOf linker edge) way ↔
      HoldsWords (heldProgram linker) ∧
        ∀ text ∈ linkTexts linker graph edge.mode flags libs, Make.isCut 0 text.toList = false := by
  constructor
  · rintro ⟨value, words, command, hheld, -, -⟩
    exact kept_of_splits h hlinker hwords hheld
  · rintro ⟨hprogram, hkept⟩
    obtain ⟨value, hvalue⟩ := exists_value_of_linkSettings h hlinker hwords
    have hread := holdsWords_of_linkSettings h hlinker hwords hvalue hprogram hkept
    -- the words are what the shell reads of each variable alone
    let words : String → List String := fun name =>
      (Shell.words? (String.ofList (value name))).getD []
    have hnamed : ∀ name ∈ toolNames tools.family edge ++ globalNames tools.family edge,
        m.heldAt? value way name = some (value name) ∧ Splits (value name) (words name) := by
      intro name hname
      obtain ⟨text, read, htext, hsplits⟩ := hread name hname
      obtain rfl := hvalue name hname text htext
      have hsame : words name = read := by
        show (Shell.words? (String.ofList (value name))).getD [] = read
        rw [Shell.words?_of_splits hsplits]
        rfl
      exact ⟨htext, hsame ▸ hsplits⟩
    obtain ⟨command, hcommand, hsplit⟩ := words?_linkRecipeOf hlinker hoperands hdefined
      fun name hname => (hnamed name (List.mem_append_left _ hname)).2
    exact ⟨value, words, command, hnamed, hcommand, hsplit⟩

end Settings

end Place

end MakeGraph.Generate
