import MakeGraph.Proofs.Generate.Acceptance
import MakeGraph.Proofs.Generate.LinkCommand
import MakeGraph.Proofs.Make.Header
import MakeGraph.Proofs.Shell.BareWords

/-!
# `Proofs.Generate.CompileCommand` — the command that compiles a file

The recipe of a compiler is shared by all files, so it knows the object and the source only as `$@` and
`$<`. The names themselves stand in the header of a rule, escaped for make. Make reads them there,
fills them into the recipe as they are, and gives the line to the shell.

Nothing quotes them for the shell. So the compiler is given the source and the object as they were
named exactly when both are bare words, which need no quotes (`compileCommand_words`).

## Contents

* `LiteralTexts`, `compileWords` — the command that is expected
* `expandUse?` — a reference to a definition as a recipe
* `readHeader_compileRule` — what `$@` and `$<` stand for
* `compileCommand_words` — the main result
-/

namespace MakeGraph.Generate

open Make (Command Makefile Piece Recipe Rule Variable)
open Shell (Reads bareText isBareWord literalWords? quoteChars)
open Outcome

/-! ## The expected command -/

/-- What the variables of tools hold: each a list of whole words in which nothing but quotes and
    backslashes means anything to the shell. -/
structure LiteralTexts where
  /-- The text of a variable. -/
  text : String → List Char
  /-- Its words. -/
  words : String → List String
  reads : ∀ name, Reads (text name) (words name)

/-- Variables with given words, each of them quoted. -/
def LiteralTexts.ofWords (words : String → List String) : LiteralTexts where
  text name := List.intercalate [' '] ((words name).map fun word => quoteChars word.toList)
  words := words
  reads name := Shell.reads_quotedWords (words name)

/-- The variable with the flags of the compiler of a language. -/
def compileFlagsName (lang : String) : String :=
  if lang = "c" then "CFLAGS" else "CXXFLAGS"

/-- The words that compile `source` into `object`, behind the compiler and its flags. -/
def compileOperands (object source : String) : List String :=
  ["-c", source, "-MMD", "-MF", object ++ ".d", "-o", object]

/-- **The words of the command** that makes an object. -/
def compileWords (edge : CompileEdge) (texts : LiteralTexts) : List String :=
  (texts.words (driverName edge.lang) ++ texts.words (compileFlagsName edge.lang)) ++
    compileOperands (wordOfPath edge.output) (wordOfPath edge.source)

/-! ## Make's part -/

/-- What variables hold in the recipe of a rule: `$@` is the target and `$<` the first prerequisite. -/
def withNames (target source : String) (value : String → List Char) (name : String) : List Char :=
  match name.toList with
  | ['@'] => target.toList
  | ['<'] => source.toList
  | _ => value name

/-- The lines of a recipe that is a reference to a definition, each of them expanded. -/
def expandUse? (m : Makefile) (value : String → List Char) (line : String) :
    Option (List String) := do
  let use ← Text.dropLead? "$(" line
  let name ← Text.dropTail? ")" use
  let lines ← m.defines.find? ⟨name⟩
  return lines.map fun line => String.ofList (Make.expand value line.render.toList)

/-- The shared recipes have names of several characters. -/
theorem reference_sharedRecipe {stem : String} (h : stem ∈ recipeStems) :
    Make.reference (sharedRecipe stem).name = "$(" ++ ((sharedRecipe stem).name ++ ")") := by
  have hall : ∀ stem ∈ recipeStems, (sharedRecipe stem).name.length ≠ 1 := by decide +kernel
  rw [Make.reference, if_neg (hall stem h), String.append_assoc]

/-- **A rule with a shared recipe** runs the lines of the definition. -/
theorem expandUse?_sharedRecipe {m : Makefile} {stem : String} {lines : List Command}
    (value : String → List Char) (hstem : stem ∈ recipeStems)
    (h : m.defines.find? (sharedRecipe stem) = some lines) :
    expandUse? m value (firstLine (.shared (sharedRecipe stem).toPiece)) =
      some (lines.map fun line => String.ofList (Make.expand value line.render.toList)) := by
  have hrender : (sharedRecipe stem).toPiece.render .shellLine =
      "$(" ++ ((sharedRecipe stem).name ++ ")") :=
    (Piece.render_verbatim _ _).trans (reference_sharedRecipe hstem)
  have hnewline : '\n' ∉ ((sharedRecipe stem).toPiece.render .shellLine).toList := by
    rw [hrender, String.toList_append, String.toList_append]
    simp only [List.mem_append, not_or]
    exact ⟨by decide, fun hc => (chars_sharedRecipe hstem _ hc).2.2.2.2.1 rfl, by decide⟩
  rw [firstLine_shared hnewline, hrender, expandUse?, Text.dropLead?_eq_some_iff.mpr rfl,
    Option.bind_eq_bind, Option.bind_some, Text.dropTail?_eq_some_iff.mpr rfl, Option.bind_eq_bind,
    Option.bind_some]
  show (m.defines.find? (sharedRecipe stem)).bind _ = _
  rw [h, Option.bind_some]
  rfl

/-- The first line of the recipe of a compiler with the options of GCC. -/
theorem render_compileLines (language : Language) (tools : ToolConfig) :
    (compileLines (.cc language tools)).head?.map Command.render =
      some (match language with
        | .c => "$(CC) $(CFLAGS) -c $< -MMD -MF $@.d -o $@"
        | .cxx => "$(CXX) $(CXXFLAGS) -c $< -MMD -MF $@.d -o $@") := by
  cases language with
  | c =>
      show (compileLines (.cc .c default)).head?.map Command.render = _
      decide +kernel
  | cxx =>
      show (compileLines (.cc .cxx default)).head?.map Command.render = _
      decide +kernel

/-- The text of the command, as make gives it to the shell: what the variables hold, and then the
    operands without quotes. -/
def compileText (texts : LiteralTexts) (edge : CompileEdge) : List Char :=
  (texts.text (driverName edge.lang) ++ ' ' :: texts.text (compileFlagsName edge.lang)) ++
    ' ' :: bareText (compileOperands (wordOfPath edge.output) (wordOfPath edge.source))

section Expansion

variable {tools : Toolchain} {edge : CompileEdge} {compiler : Compiler}

/-- The first line of the recipe, with any names and values filled in. -/
theorem expand_compileLine (hcompiler : tools.compiler edge.lang = .ok compiler)
    (hfamily : tools.family = .cc) :
    ∃ line filter, compileLines compiler = line :: filter ∧
      ∀ (value : String → List Char) (object source : String),
        Make.expand (withNames object source value) line.render.toList =
          (value (driverName edge.lang) ++ ' ' :: value (compileFlagsName edge.lang)) ++
            ' ' :: bareText (compileOperands object source) := by
  obtain ⟨language, hlanguage, ⟨-, rfl⟩ | ⟨hmsvc, -⟩⟩ := compiler_ok hcompiler
  · obtain ⟨line, hhead, hline⟩ := Option.map_eq_some_iff.mp (render_compileLines language tools.config)
    obtain ⟨filter, hlines⟩ := List.head?_eq_some_iff.mp hhead
    refine ⟨line, filter, hlines, fun value object source => ?_⟩
    have hoperands : ' ' :: bareText (compileOperands object source) =
        " -c ".toList ++ (source.toList ++ (" -MMD -MF ".toList ++ (object.toList ++
          (".d -o ".toList ++ (object.toList ++ []))))) := by
      simp [bareText, compileOperands]
    rw [hline, hoperands, List.append_assoc, List.cons_append]
    rcases language_cases hlanguage with ⟨hlang, rfl⟩ | ⟨hlang, rfl⟩
    · rw [driverName, compileFlagsName, hlang]
      rfl
    · rw [driverName, compileFlagsName, hlang]
      rfl
  · exact absurd (hmsvc.symm.trans hfamily) (by decide)

/-- The names are filled into the recipe as they are. -/
theorem expand_compileLines (hcompiler : tools.compiler edge.lang = .ok compiler)
    (hfamily : tools.family = .cc) (texts : LiteralTexts) :
    ∃ line filter, compileLines compiler = line :: filter ∧
      Make.expand (withNames (wordOfPath edge.output) (wordOfPath edge.source) texts.text)
        line.render.toList = compileText texts edge := by
  obtain ⟨line, filter, hlines, hline⟩ := expand_compileLine hcompiler hfamily
  exact ⟨line, filter, hlines, hline texts.text _ _⟩

/-- **What a compilation runs**: the first command of the recipe that its rule refers to. -/
theorem expandUse?_compile {env : Environment} {graph : BuildGraph} {c : Contribution}
    (hfamily : env.family = .cc) (hcompiler : env.toolchain.compiler edge.lang = .ok compiler)
    (hedge : .compile edge ∈ graph.edges) (h : modelContribution env graph = .ok c)
    (texts : LiteralTexts) :
    ∃ commands, expandUse? (extend .empty c)
        (withNames (wordOfPath edge.output) (wordOfPath edge.source) texts.text)
        (firstLine (.shared (sharedRecipe compiler.recipeStem).toPiece)) =
      some (String.ofList (compileText texts edge) :: commands) := by
  obtain ⟨line, filter, hlines, hline⟩ := expand_compileLines hcompiler hfamily texts
  have hdefined := find?_compileLines hcompiler hedge h
  rw [hlines] at hdefined
  rw [expandUse?_sharedRecipe _ (compiler_recipeStem_mem hcompiler) hdefined, List.map_cons, hline]
  exact ⟨_, rfl⟩

end Expansion

/-! ## What the names stand for -/

section Names

variable {edge : CompileEdge}

/-- The names of an edge can be read in the header of its rule: the object neither has a colon nor
    quotes the one behind it, the source does not quote the blank behind it, and both are in one
    line. -/
structure NamesReadable (edge : CompileEdge) : Prop where
  object : Make.TargetReadable (wordOfPath edge.output).toList
  source : Make.openBackslashes (wordOfPath edge.source).toList % 2 = 0
  line : '\n' ∉ (wordOfPath edge.output).toList ∧ '\n' ∉ (wordOfPath edge.source).toList

theorem wordOfPath_ne_empty {p : RootedPath} (hroot : p.root = .build) : wordOfPath p ≠ "" := by
  unfold wordOfPath
  split
  · decide
  · next h =>
      intro hempty
      rw [hroot, RootedPath.isRootItself, hempty] at h
      exact h (by decide)

/-- **The target and the first prerequisite** of the rule of a compilation are its object and its
    source. -/
theorem readHeader_compileRule (value : String → List Char) (compiler : Compiler)
    (hobject : edge.output.root = .build) (hsource : edge.source.root = .build)
    (hreadable : NamesReadable edge) :
    ∃ header, Make.readHeader value (compileRule compiler edge).renderHeader = some header ∧
      header.targets = [wordOfPath edge.output] ∧
      header.deps.head? = some (wordOfPath edge.source) := by
  have hvariable : ∀ {p : RootedPath}, p.root = .build → p.root.variableName? = none := by
    intro p hroot
    rw [hroot]
    rfl
  refine Make.readHeader_first value rfl rfl
    (render_path_of_no_variable (hvariable hobject) (by decide))
    (render_path_of_no_variable (hvariable hsource) (by decide)) ?_ hreadable.object hreadable.source
  intro name hname
  rcases List.mem_cons.mp hname with rfl | hname
  · exact ⟨wordOfPath_ne_empty hobject, hreadable.line.1⟩
  · obtain rfl := List.mem_singleton.mp hname
    exact ⟨wordOfPath_ne_empty hsource, hreadable.line.2⟩

end Names

/-! ## The shell's part -/

/-- The operands are bare words exactly when the two names are. -/
theorem forall_compileOperands_iff {object source : String} :
    (∀ word ∈ compileOperands object source, isBareWord word = true) ↔
      isBareWord object = true ∧ isBareWord source = true := by
  have hdepfile : isBareWord object = true → isBareWord (object ++ ".d") = true := by
    intro h
    have happend : object ++ ".d" = String.ofList (object.toList ++ ".d".toList) := by
      rw [← String.toList_append, String.ofList_toList]
    rw [happend]
    exact Shell.isBareWord_append (by rwa [String.ofList_toList]) (by decide)
  have hoptions : ∀ option ∈ ["-c", "-MMD", "-MF", "-o"], isBareWord option = true := by decide
  constructor
  · intro h
    exact ⟨h object (by simp [compileOperands]), h source (by simp [compileOperands])⟩
  · rintro ⟨hobject, hsource⟩ word hword
    simp only [compileOperands, List.mem_cons, List.not_mem_nil, or_false] at hword
    rcases hword with rfl | rfl | rfl | rfl | rfl | rfl | rfl
    · exact hoptions "-c" (by decide)
    · exact hsource
    · exact hoptions "-MMD" (by decide)
    · exact hoptions "-MF" (by decide)
    · exact hdepfile hobject
    · exact hoptions "-o" (by decide)
    · exact hobject

/-- **The operands** are read as they are exactly when the two names are bare words. -/
theorem literalWords?_compileText (texts : LiteralTexts) (edge : CompileEdge) :
    literalWords? (String.ofList (compileText texts edge)) = some (compileWords edge texts) ↔
      isBareWord (wordOfPath edge.output) = true ∧ isBareWord (wordOfPath edge.source) = true := by
  rw [← forall_compileOperands_iff]
  have hlead := (texts.reads (driverName edge.lang)).blank (texts.reads (compileFlagsName edge.lang))
  exact Shell.literalWords?_append_bare_iff hlead (List.cons_ne_nil _ _)

/-! ## The main result -/

/-- **The command of a compilation is the intended one exactly when its names need no quotes**, where the
    variables of the compiler hold whole words (`LiteralTexts`). In a Makefile that is generated for a
    compiler with the options of GCC, the recipe of a compile edge, with the names of its target and first
    prerequisite filled in, then gives the compiler the source and the object as they were named if and
    only if both are bare words. The header of the rule is read as these two names wherever they are
    readable at all. `assignedWords?_iff` says which lists of flags a variable holds so: none with
    a `#`. -/
theorem compileCommand_words {env : Environment} {graph : BuildGraph} {products : Products}
    (hfamily : env.family = .cc) (hproducts : generate env graph = .ok products)
    {edge : CompileEdge} (hedge : .compile edge ∈ graph.edges)
    (hobject : edge.output.root = .build) (hsource : edge.source.root = .build)
    (texts : LiteralTexts) :
    ∃ m rule recipe command commands,
      modelWith usualHandlers env graph = .ok m ∧ products.makefile = m.render ∧
      rule ∈ m.rules ∧ rule.targets = [.path edge.output] ∧ rule.recipe = some recipe ∧
      (NamesReadable edge → ∃ header,
        Make.readHeader texts.text rule.renderHeader = some header ∧
        header.targets = [wordOfPath edge.output] ∧
        header.deps.head? = some (wordOfPath edge.source)) ∧
      expandUse? m (withNames (wordOfPath edge.output) (wordOfPath edge.source) texts.text)
        (firstLine recipe) = some (command :: commands) ∧
      (literalWords? command = some (compileWords edge texts) ↔
        isBareWord (wordOfPath edge.output) = true ∧
          isBareWord (wordOfPath edge.source) = true) := by
  obtain ⟨m, hm, rfl⟩ := generate_eq_ok_iff.mp hproducts
  obtain ⟨c, hc, -, rfl⟩ := modelWith_eq_ok_iff.mp hm
  -- the edge's own contribution: its compiler and its rule
  obtain ⟨own, hown, -, hrules⟩ := mem_modelContribution hedge hc
  simp only [edgeContribution, bind_eq_ok_iff, pure_eq_ok_iff] at hown
  obtain ⟨compiler, hcompiler, rfl⟩ := hown
  have hrule : compileRule compiler edge ∈ c.rules := hrules (List.mem_singleton.mpr rfl)
  obtain ⟨commands, hcommand⟩ := expandUse?_compile hfamily hcompiler hedge hc texts
  exact ⟨_, compileRule compiler edge, _, _, commands, hm, rfl, List.mem_append_right _ hrule, rfl, rfl,
    readHeader_compileRule texts.text compiler hobject hsource, hcommand,
    literalWords?_compileText texts edge⟩

/-- A file whose names need no quotes. -/
def mainEdge : CompileEdge where
  output := .build "obj/main.o"
  source := .build "src/main.c"
  lang := "c"

/-- A file whose names have blanks. -/
def blankEdge : CompileEdge where
  output := .build "my obj.o"
  source := .build "my src.c"
  lang := "c"

/-- The build of one file. -/
def compileGraph (edge : CompileEdge) : BuildGraph :=
  { (default : BuildGraph) with edges := [.compile edge] }

/-- A C compiler with one option. -/
def optionTexts : LiteralTexts :=
  .ofWords fun name => if name = "CC" then ["cc"] else if name = "CFLAGS" then ["-O2"] else []

/-- The compiler is given names without blanks as they are. -/
theorem compileCommand_mainEdge :
    ∃ (products : Products) (m : Makefile) (rule : Rule) (recipe : Recipe) (header : Make.Header)
      (command : String) (commands : List String),
      generate default (compileGraph mainEdge) = .ok products ∧ products.makefile = m.render ∧
      rule ∈ m.rules ∧ rule.recipe = some recipe ∧
      Make.readHeader optionTexts.text rule.renderHeader = some header ∧
      header.targets = ["obj/main.o"] ∧ header.deps.head? = some "src/main.c" ∧
      expandUse? m (withNames "obj/main.o" "src/main.c" optionTexts.text) (firstLine recipe) =
        some (command :: commands) ∧
      literalWords? command = some ["cc", "-O2", "-c", "src/main.c", "-MMD", "-MF", "obj/main.o.d",
        "-o", "obj/main.o"] := by
  have haccepted : Accepted default (compileGraph mainEdge) :=
    ⟨by simp [EdgeAccepted, compileGraph, mainEdge], by decide +kernel⟩
  obtain ⟨products, hproducts⟩ := haccepted.generate_succeeds
  obtain ⟨m, rule, recipe, command, commands, -, hrender, hrule, -, hrecipe, hnames, hcommand,
    hwords⟩ := compileCommand_words rfl hproducts List.mem_cons_self rfl rfl optionTexts
  obtain ⟨header, hheader, htarget, hdep⟩ := hnames ⟨⟨by decide, by decide⟩, by decide, by decide⟩
  exact ⟨products, m, rule, recipe, header, command, commands, hproducts, hrender, hrule, hrecipe,
    hheader, htarget, hdep, hcommand, hwords.mpr (by decide)⟩

/-- **A blank in a name makes two words of it**, for the compiler and for the file of headers. -/
theorem compileCommand_blankEdge :
    ∃ (products : Products) (m : Makefile) (rule : Rule) (recipe : Recipe) (header : Make.Header)
      (command : String) (commands : List String),
      generate default (compileGraph blankEdge) = .ok products ∧ products.makefile = m.render ∧
      rule ∈ m.rules ∧ rule.recipe = some recipe ∧
      Make.readHeader optionTexts.text rule.renderHeader = some header ∧
      header.targets = ["my obj.o"] ∧ header.deps.head? = some "my src.c" ∧
      expandUse? m (withNames "my obj.o" "my src.c" optionTexts.text) (firstLine recipe) =
        some (command :: commands) ∧
      Shell.words? command = some ["cc", "-O2", "-c", "my", "src.c", "-MMD", "-MF", "my", "obj.o.d",
        "-o", "my", "obj.o"] ∧
      Shell.words? command ≠ some (compileWords blankEdge optionTexts) := by
  have haccepted : Accepted default (compileGraph blankEdge) :=
    ⟨by simp [EdgeAccepted, compileGraph, blankEdge], by decide +kernel⟩
  obtain ⟨products, hproducts⟩ := haccepted.generate_succeeds
  obtain ⟨m, hm, rfl⟩ := generate_eq_ok_iff.mp hproducts
  obtain ⟨c, hc, -, rfl⟩ := modelWith_eq_ok_iff.mp hm
  have hedge : .compile blankEdge ∈ (compileGraph blankEdge).edges := List.mem_cons_self
  have hcompiler : (default : Environment).toolchain.compiler blankEdge.lang =
      .ok (.cc .c (default : Environment).toolchain.config) := rfl
  obtain ⟨own, hown, -, hrules⟩ := mem_modelContribution hedge hc
  obtain rfl := Except.ok.inj hown
  have hreadable : NamesReadable blankEdge := ⟨⟨by decide, by decide⟩, by decide, by decide⟩
  obtain ⟨header, hheader, htarget, hdep⟩ := readHeader_compileRule optionTexts.text
    (.cc .c (default : Environment).toolchain.config) rfl rfl hreadable
  obtain ⟨commands, hcommand⟩ := expandUse?_compile rfl hcompiler hedge hc optionTexts
  refine ⟨_, _, _, _, header, _, commands, hproducts, rfl,
    List.mem_append_right _ (hrules (List.mem_singleton.mpr rfl)), rfl, hheader, htarget, hdep, hcommand,
    ?_, ?_⟩
  · decide +kernel
  · decide +kernel

end MakeGraph.Generate
