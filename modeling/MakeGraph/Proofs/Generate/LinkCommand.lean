import MakeGraph.Proofs.Generate.SharedRecipes
import MakeGraph.Proofs.Make.Expansion
import Mathlib.Data.List.TakeWhile

/-!
# `Proofs.Generate.LinkCommand` — the command that links a binary

A rule links by a call such as `$(call RULE_LINK_CC,a.o b.o,prog)`. On its way to the shell it is read
three times: make cuts the call into arguments, expands them and fills them into the definition, and
the shell splits the line that comes out. Each reading undoes one step of the writing, so that the
linker is given the files and the binary as they were named, one word each (`words?_linkRecipeOf`).

What else is in the command depends on variables. Here they hold any values that leave the shell between
words.

## Contents

* `toolNames`, `commandWords` — the command that is expected
* `expandCall_linkCall` — make's part
* `render_ar` and others, `splits_ar` and others — the shell's part, one for each linker
* `words?_linkRecipeOf` — the main result
-/

namespace MakeGraph.Generate

open Make (Command Makefile Piece Recipe Variable)
open Shell (Splits quoteChars)
open Outcome

/-! ## The expected command -/

/-- The name of a path for the shell: the build directory itself is `.`. -/
def wordOfPath (p : RootedPath) : String :=
  if p.root = .build && p.isRootItself then "." else p.path.text

/-- **A path that is reached without a variable** is written as its name. -/
theorem render_path_of_no_variable {p : RootedPath} (hvariable : p.root.variableName? = none)
    {context : Make.Context} (hdot : Make.escape context "." = ".") :
    (Piece.path p).render context = Make.escape context (wordOfPath p) := by
  rw [Piece.render_path, Make.renderPath, hvariable, wordOfPath]
  dsimp only
  split
  · exact hdot.symm
  · rfl

/-- The variable with the command of the compiler driver that links binaries of a language. -/
def driverName (lang : String) : String :=
  if lang = "c" then "CC" else "CXX"

/-- The variables in the command of a link: its program, its flags, and its libraries if it has any. -/
def toolNames (family : ToolFamily) (edge : LinkEdge) : List String :=
  match family, edge.mode with
  | .cc, .staticLibrary => ["AR", "ARFLAGS"]
  | .cc, _ => [driverName edge.lang, "LDFLAGS", "LDLIBS"]
  | .msvc, .staticLibrary => ["LIB", "LIBFLAGS"]
  | .msvc, _ => ["LINK", "LDFLAGS", "LDLIBS"]

/-- **The words of the command** that makes a binary, where variables hold `words`. -/
def commandWords (family : ToolFamily) (edge : LinkEdge) (words : String → List String) :
    List String :=
  let inputs := edge.files.map wordOfPath
  let output := wordOfPath edge.output
  match family, edge.mode with
  | .cc, .staticLibrary => words "AR" ++ (words "ARFLAGS" ++ ([output] ++ inputs))
  | .cc, _ =>
      words (driverName edge.lang) ++ (words "LDFLAGS" ++ (inputs ++
        (words "LDLIBS" ++ (["-o"] ++ [output]))))
  | .msvc, .staticLibrary =>
      words "LIB" ++ (words "LIBFLAGS" ++ (inputs ++ ["/OUT:" ++ output]))
  | .msvc, _ =>
      words "LINK" ++ (words "LDFLAGS" ++ (inputs ++
        (words "LDLIBS" ++ ["/OUT:" ++ output])))

/-- The target whose rule has the command. -/
def commandTarget (edge : LinkEdge) : RootedPath :=
  match edge.importLibrary with
  | none => edge.output
  | some _ => stamp edge

/-- The first line of a recipe. -/
def firstLine (recipe : Recipe) : String :=
  let text := match recipe with
    | .shared reference => reference.render .shellLine
    | .inline commands => String.intercalate "\n" (commands.map Command.render)
  String.ofList (text.toList.takeWhile (· ≠ '\n'))

/-! ## Operands -/

/-- A path that can be an operand: it is reached without a variable, and nothing in it ends an argument
    or the line. -/
structure IsOperand (p : RootedPath) : Prop where
  root : p.root = .build ∨ p.root = .absolute
  chars : ∀ c ∈ p.path.text.toList, c ≠ '(' ∧ c ≠ ')' ∧ c ≠ ',' ∧ c ≠ '\n' ∧ c ≠ '\x00'

instance (p : RootedPath) : Decidable (IsOperand p) :=
  decidable_of_iff ((p.root = .build ∨ p.root = .absolute) ∧ p.path.text.toList.all (fun c =>
      decide (c ≠ '(' ∧ c ≠ ')' ∧ c ≠ ',' ∧ c ≠ '\n' ∧ c ≠ '\x00')) = true)
    ⟨fun h => ⟨h.1, fun c hc => of_decide_eq_true (List.all_eq_true.mp h.2 c hc)⟩,
      fun h => ⟨h.root, List.all_eq_true.mpr fun c hc => decide_eq_true (h.chars c hc)⟩⟩

/-- The word of an operand, quoted. -/
def operandChars (p : RootedPath) : List Char :=
  quoteChars (wordOfPath p).toList

theorem IsOperand.chars_word {p : RootedPath} (h : IsOperand p) :
    ∀ c ∈ (wordOfPath p).toList, c ≠ '(' ∧ c ≠ ')' ∧ c ≠ ',' ∧ c ≠ '\n' := by
  unfold wordOfPath
  split
  · intro c hc
    obtain rfl := List.mem_singleton.mp (show c ∈ ['.'] from hc)
    decide
  · exact fun c hc => ⟨(h.chars c hc).1, (h.chars c hc).2.1, (h.chars c hc).2.2.1,
      (h.chars c hc).2.2.2.1⟩

/-- **An operand in an argument** is its quoted word with every dollar twice. -/
theorem IsOperand.toList_render {p : RootedPath} (h : IsOperand p) :
    ((Piece.path p).render .functionArgument).toList = Make.doubleDollars (operandChars p) := by
  have hvariable : p.root.variableName? = none := by
    rcases h.root with hroot | hroot <;> rw [hroot] <;> rfl
  have hcomma : ',' ∉ (wordOfPath p).toList := fun hmem => (h.chars_word ',' hmem).2.2.1 rfl
  rw [render_path_of_no_variable hvariable (by decide), Make.escape, String.toList_ofList,
    Make.escapeChars_functionArgument hcomma, operandChars]

/-! ## The call -/

/-- The inputs of a link as an argument is filled in. -/
def inputChars (edge : LinkEdge) : List Char :=
  List.intercalate [' '] (edge.files.map operandChars)

/-- The arguments of the call of a link, as they are written: the recipe, the inputs and the output. -/
def callArgs (linker : Linker) (edge : LinkEdge) : List (List Char) :=
  [(sharedRecipe linker.recipeStem).name.toList, Make.doubleDollars (inputChars edge),
    Make.doubleDollars (operandChars edge.output)]

/-- The names of recipes hold nothing that is quoted, doubled or read as part of a call. -/
theorem chars_sharedRecipe {stem : String} (h : stem ∈ recipeStems) :
    ∀ c ∈ (sharedRecipe stem).name.toList,
      Shell.isCopied c = true ∧ c ≠ '(' ∧ c ≠ ')' ∧ c ≠ ',' ∧ c ≠ '\n' ∧ c ≠ '$' := by
  have hall : ∀ stem ∈ recipeStems, (sharedRecipe stem).name.toList.all (fun c =>
      decide (Shell.isCopied c = true ∧ c ≠ '(' ∧ c ≠ ')' ∧ c ≠ ',' ∧ c ≠ '\n' ∧ c ≠ '$')) =
        true := by
    decide +kernel
  exact fun c hc => of_decide_eq_true (List.all_eq_true.mp (hall stem h) c hc)

/-- So they are written as they are. -/
theorem escape_sharedRecipe {stem : String} (h : stem ∈ recipeStems) :
    Make.escape .functionArgument (sharedRecipe stem).name = (sharedRecipe stem).name := by
  have hchars := chars_sharedRecipe h
  have hne : (sharedRecipe stem).name.toList ≠ [] := fun hnil => by
    have hrecipe := isRecipeName_sharedRecipe stem
    rw [isRecipeName, hnil] at hrecipe
    cases hrecipe
  rw [Make.escape, Make.escapeChars_functionArgument fun hc => (hchars _ hc).2.2.2.1 rfl,
    Shell.quoteChars_of_all hne (List.all_eq_true.mpr fun c hc => (hchars c hc).1),
    Make.doubleDollars_of_not_mem fun hc => (hchars _ hc).2.2.2.2.2 rfl, String.ofList_toList]

/-- **The call of a link** with operands as its arguments. -/
theorem toList_linkCall {linker : Linker} {edge : LinkEdge} (hstem : linker.recipeStem ∈ recipeStems)
    (hoperands : ∀ p ∈ edge.output :: edge.files, IsOperand p) :
    (linkCall linker edge).render =
      "$(call " ++ String.ofList (List.intercalate [','] (callArgs linker edge) ++ [')']) := by
  have hinputs : (Make.Call.renderArg (edge.files.map .path)).toList =
      Make.doubleDollars (inputChars edge) := by
    unfold Make.Call.renderArg inputChars
    rw [String.toList_intercalate, List.map_map, List.map_map, Make.doubleDollars_intercalate,
      List.map_map]
    congr 1
    refine List.map_congr_left fun p hp => ?_
    exact (hoperands p (List.mem_cons_of_mem _ hp)).toList_render
  have houtput : (Make.Call.renderArg [.path edge.output]).toList =
      Make.doubleDollars (operandChars edge.output) := by
    rw [← (hoperands edge.output List.mem_cons_self).toList_render]
    rfl
  have hname : Make.Call.renderArg [.plain (sharedRecipe linker.recipeStem).name] =
      (sharedRecipe linker.recipeStem).name := by
    refine Eq.trans ?_ (escape_sharedRecipe hstem)
    exact Piece.render_plain _ _
  have hargs : (linkCall linker edge).args.map (fun arg => (Make.Call.renderArg arg).toList) =
      callArgs linker edge := by
    show [(Make.Call.renderArg [.plain (sharedRecipe linker.recipeStem).name]).toList,
      (Make.Call.renderArg (edge.files.map .path)).toList,
      (Make.Call.renderArg [.path edge.output]).toList] = callArgs linker edge
    rw [hinputs, houtput, hname]
    rfl
  rw [← hargs, ← String.toList_inj, Make.Call.render]
  simp only [String.toList_append, String.toList_intercalate, String.toList_ofList, List.map_map]
  have hopening : "$(".toList ++ (linkCall linker edge).name.toList ++ " ".toList =
      "$(call ".toList := by
    show "$(".toList ++ "call".toList ++ " ".toList = _
    decide
  rw [hopening, List.append_assoc]
  rfl

/-- No operand ends an argument or the line. -/
theorem chars_callArgs {linker : Linker} {edge : LinkEdge}
    (hstem : linker.recipeStem ∈ recipeStems)
    (hoperands : ∀ p ∈ edge.output :: edge.files, IsOperand p) :
    ∀ arg ∈ callArgs linker edge, ∀ c ∈ arg, c ≠ '(' ∧ c ≠ ')' ∧ c ≠ ',' ∧ c ≠ '\n' := by
  have hoperand : ∀ p ∈ edge.output :: edge.files, ∀ c ∈ operandChars p,
      c ≠ '(' ∧ c ≠ ')' ∧ c ≠ ',' ∧ c ≠ '\n' := by
    intro p hp c hc
    rcases Shell.mem_quoteChars hc with hc | rfl | rfl
    · exact (hoperands p hp).chars_word c hc
    · decide
    · decide
  intro arg harg c hc
  simp only [callArgs, List.mem_cons, List.not_mem_nil, or_false] at harg
  rcases harg with rfl | rfl | rfl
  · obtain ⟨-, hopen, hclose, hcomma, hnewline, -⟩ := chars_sharedRecipe hstem c hc
    exact ⟨hopen, hclose, hcomma, hnewline⟩
  · rcases Text.mem_intercalate (Make.mem_doubleDollars.mp hc) with hblank | ⟨word, hword, hc⟩
    · rw [List.mem_singleton.mp hblank]
      decide
    · obtain ⟨p, hp, rfl⟩ := List.mem_map.mp hword
      exact hoperand p (List.mem_cons_of_mem _ hp) c hc
  · exact hoperand edge.output List.mem_cons_self c (Make.mem_doubleDollars.mp hc)

/-- **What make makes of the call**: the recipe of the linker, in which the quoted words of the inputs
    stand for `$1` and that of the output for `$2`. -/
theorem expandCall_linkCall {m : Makefile} {linker : Linker} {edge : LinkEdge}
    {lines : List Command} (value : String → List Char)
    (hstem : linker.recipeStem ∈ recipeStems)
    (hoperands : ∀ p ∈ edge.output :: edge.files, IsOperand p)
    (hdefined : m.defines.find? (sharedRecipe linker.recipeStem) = some lines) :
    Make.expandCall m value (linkCall linker edge).render =
      some (String.ofList (Make.expand
        (Make.withArgs [inputChars edge, operandChars edge.output] value)
        (List.intercalate ['\n'] (lines.map fun line => line.render.toList)))) := by
  have hargs : ∀ arg ∈ callArgs linker edge, Make.IsArgument arg := fun arg harg c hc =>
    have h := chars_callArgs hstem hoperands arg harg c hc
    ⟨h.1, h.2.1, h.2.2.1⟩
  have hbody : Make.definition? m (String.ofList (sharedRecipe linker.recipeStem).name.toList) =
      some (List.intercalate ['\n'] (lines.map fun line => line.render.toList)) := by
    rw [String.ofList_toList, Make.definition?, hdefined]
    rfl
  obtain ⟨hname, hrest⟩ := List.forall_mem_cons.mp hargs
  rw [toList_linkCall hstem hoperands, callArgs, Make.expandCall_of_definition value hname hrest hbody,
    List.map_cons, List.map_singleton, Make.expand_doubleDollars, Make.expand_doubleDollars]

/-- A call of operands is one line. -/
theorem newline_not_mem_linkCall {linker : Linker} {edge : LinkEdge}
    (hstem : linker.recipeStem ∈ recipeStems)
    (hoperands : ∀ p ∈ edge.output :: edge.files, IsOperand p) :
    '\n' ∉ (linkCall linker edge).render.toList := by
  intro hmem
  simp only [toList_linkCall hstem hoperands, String.toList_append, String.toList_ofList,
    List.mem_append] at hmem
  rcases hmem with hmem | hmem | hmem
  · revert hmem
    decide
  · rcases Text.mem_intercalate hmem with hmem | ⟨arg, harg, hmem⟩
    · revert hmem
      decide
    · exact (chars_callArgs hstem hoperands arg harg '\n' hmem).2.2.2 rfl
  · revert hmem
    decide

/-- The recipe that a link edge has. -/
def linkRecipeOf (linker : Linker) (edge : LinkEdge) : Recipe :=
  let call := (linkCall linker edge).toPiece
  match edge.importLibrary with
  | none => .shared call
  | some _ => .inline [.line call, .words [.verbatim "@touch", (Variable.named "@").toPiece]]

/-- The first of several commands is the first line if it is one line. -/
theorem firstLine_inline {command : Command} (h : '\n' ∉ command.render.toList)
    (commands : List Command) : firstLine (.inline (command :: commands)) = command.render := by
  have hall : ∀ c ∈ command.render.toList, decide (c ≠ '\n') = true :=
    fun c hc => decide_eq_true fun heq => h (heq ▸ hc)
  unfold firstLine
  dsimp only
  rw [String.toList_intercalate, List.map_cons, List.map_cons]
  cases commands with
  | nil =>
      rw [List.map_nil, List.map_nil, List.intercalate_singleton,
        List.takeWhile_eq_self_iff.mpr hall, String.ofList_toList]
  | cons next commands =>
      rw [List.map_cons, List.map_cons, List.intercalate_cons_cons, List.append_assoc,
        List.takeWhile_append_of_pos hall]
      show String.ofList (command.render.toList ++ ('\n' :: _).takeWhile _) = _
      rw [List.takeWhile_cons_of_neg (by decide), List.append_nil, String.ofList_toList]

theorem firstLine_shared {reference : Piece} (h : '\n' ∉ (reference.render .shellLine).toList) :
    firstLine (.shared reference) = reference.render .shellLine := by
  have hline : '\n' ∉ (Command.line reference).render.toList := h
  exact firstLine_inline hline []

/-- The first line of the recipe is the call, also where the recipe is that of a stamp. -/
theorem firstLine_linkRecipeOf {linker : Linker} {edge : LinkEdge}
    (hstem : linker.recipeStem ∈ recipeStems)
    (hoperands : ∀ p ∈ edge.output :: edge.files, IsOperand p) :
    firstLine (linkRecipeOf linker edge) = (linkCall linker edge).render := by
  have hpiece : (linkCall linker edge).toPiece.render .shellLine = (linkCall linker edge).render :=
    Piece.render_verbatim _ _
  have hnewline : '\n' ∉ ((linkCall linker edge).toPiece.render .shellLine).toList := by
    rw [hpiece]
    exact newline_not_mem_linkCall hstem hoperands
  unfold linkRecipeOf
  cases edge.importLibrary with
  | none => exact (firstLine_shared hnewline).trans hpiece
  | some path =>
      have hline : '\n' ∉ (Command.line (linkCall linker edge).toPiece).render.toList := hnewline
      exact (firstLine_inline hline _).trans hpiece

/-! ## The words of the command -/

section Words

variable (value : String → List Char) {words : String → List String} {edge : LinkEdge}

theorem splits_inputChars (edge : LinkEdge) :
    Splits (inputChars edge) (edge.files.map wordOfPath) :=
  Shell.splits_intercalate fun p _ => Shell.splits_quoteChars_toList (wordOfPath p)

theorem splits_outputChars (edge : LinkEdge) :
    Splits (operandChars edge.output) [wordOfPath edge.output] :=
  Shell.splits_quoteChars_toList (wordOfPath edge.output)

/-- An operand right behind a flag belongs to its word. -/
theorem splits_outFlag (edge : LinkEdge) :
    Splits ("/OUT':'".toList ++ operandChars edge.output) ["/OUT:" ++ wordOfPath edge.output] := by
  have h := Shell.splits_flatMap_quoteChars
    (List.cons_ne_nil "/OUT:".toList [(wordOfPath edge.output).toList])
  have hword : ["/OUT:".toList, (wordOfPath edge.output).toList].flatten =
      ("/OUT:" ++ wordOfPath edge.output).toList := by
    rw [String.toList_append]
    simp
  have hflag : quoteChars "/OUT:".toList = "/OUT':'".toList := by decide
  rw [hword, String.ofList_toList, List.flatMap_cons, List.flatMap_singleton, hflag] at h
  exact h

/-! ### The recipes of the four linkers -/

theorem render_ar (tools : ToolConfig) :
    (linkLines (.ar tools)).map Command.render = ["$(AR) $(ARFLAGS) $2 $1"] := by
  show (linkLines (.ar default)).map Command.render = _
  decide +kernel

theorem render_cc (language : Language) (mode : LinkMode) (platform : Platform)
    (tools : ToolConfig) :
    (linkLines (.cc language mode platform tools)).map Command.render =
      [match language with
        | .c => "$(CC) $(LDFLAGS) $1 $(LDLIBS) -o $2"
        | .cxx => "$(CXX) $(LDFLAGS) $1 $(LDLIBS) -o $2"] := by
  cases language with
  | c =>
      show (linkLines (.cc .c .executable .linux default)).map Command.render = _
      decide +kernel
  | cxx =>
      show (linkLines (.cc .cxx .executable .linux default)).map Command.render = _
      decide +kernel

theorem render_msvcLib (tools : ToolConfig) :
    (linkLines (.msvcLib tools)).map Command.render = ["$(LIB) $(LIBFLAGS) $1 /OUT':'$2"] := by
  show (linkLines (.msvcLib default)).map Command.render = _
  decide +kernel

theorem render_msvc (mode : LinkMode) (tools : ToolConfig) :
    (linkLines (.msvc mode tools)).map Command.render =
      ["$(LINK) $(LDFLAGS) $1 $(LDLIBS) /OUT':'$2"] := by
  show (linkLines (.msvc .executable default)).map Command.render = _
  decide +kernel

/-- The recipe of a linker with its arguments filled in. -/
def commandChars (linker : Linker) (edge : LinkEdge) : List Char :=
  Make.expand (Make.withArgs [inputChars edge, operandChars edge.output] value)
    (List.intercalate ['\n'] ((linkLines linker).map fun line => line.render.toList))

theorem commandChars_eq {linker : Linker} {body : String}
    (h : (linkLines linker).map Command.render = [body]) (edge : LinkEdge) :
    commandChars value linker edge =
      Make.expand (Make.withArgs [inputChars edge, operandChars edge.output] value)
        body.toList := by
  have hlines : ((linkLines linker).map fun line => line.render.toList) = [body.toList] := by
    have hmap := congrArg (List.map String.toList) h
    rwa [List.map_map] at hmap
  rw [commandChars, hlines, List.intercalate_singleton]

variable {value}

theorem splits_ar (tools : ToolConfig) (edge : LinkEdge)
    (h : ∀ name ∈ ["AR", "ARFLAGS"], Splits (value name) (words name)) :
    Splits (commandChars value (.ar tools) edge)
      (words "AR" ++ (words "ARFLAGS" ++
        ([wordOfPath edge.output] ++ edge.files.map wordOfPath))) := by
  have hbody : commandChars value (.ar tools) edge =
      value "AR" ++ ' ' :: (value "ARFLAGS" ++ ' ' ::
        (operandChars edge.output ++ ' ' :: (inputChars edge ++ []))) := by
    rw [commandChars_eq value (render_ar tools)]
    rfl
  rw [hbody, List.append_nil]
  exact (h "AR" (by simp)).blank ((h "ARFLAGS" (by simp)).blank
    ((splits_outputChars edge).blank (splits_inputChars edge)))

theorem splits_cc {language : Language} {lang : String} (mode : LinkMode) (platform : Platform)
    (tools : ToolConfig) (hlanguage : Language.named? lang = some language) (edge : LinkEdge)
    (h : ∀ name ∈ [driverName lang, "LDFLAGS", "LDLIBS"], Splits (value name) (words name)) :
    Splits (commandChars value (.cc language mode platform tools) edge)
      (words (driverName lang) ++ (words "LDFLAGS" ++ (edge.files.map wordOfPath ++
        (words "LDLIBS" ++ (["-o"] ++ [wordOfPath edge.output]))))) := by
  have hbody : commandChars value (.cc language mode platform tools) edge =
      value (driverName lang) ++ ' ' :: (value "LDFLAGS" ++ ' ' :: (inputChars edge ++
        ' ' :: (value "LDLIBS" ++ ' ' :: ("-o".toList ++ ' ' ::
          (operandChars edge.output ++ []))))) := by
    rw [commandChars_eq value (render_cc language mode platform tools)]
    unfold Language.named? at hlanguage
    split at hlanguage
    · obtain rfl := Option.some.inj hlanguage
      rfl
    · obtain rfl := Option.some.inj hlanguage
      rfl
    · cases hlanguage
  have hoption : Splits "-o".toList ["-o"] := Shell.splits_quoteChars_toList "-o"
  rw [hbody, List.append_nil]
  exact (h _ List.mem_cons_self).blank ((h "LDFLAGS" (by simp)).blank ((splits_inputChars edge).blank
    ((h "LDLIBS" (by simp)).blank (hoption.blank (splits_outputChars edge)))))

theorem splits_msvcLib (tools : ToolConfig) (edge : LinkEdge)
    (h : ∀ name ∈ ["LIB", "LIBFLAGS"], Splits (value name) (words name)) :
    Splits (commandChars value (.msvcLib tools) edge)
      (words "LIB" ++ (words "LIBFLAGS" ++ (edge.files.map wordOfPath ++
        ["/OUT:" ++ wordOfPath edge.output]))) := by
  have hbody : commandChars value (.msvcLib tools) edge =
      value "LIB" ++ ' ' :: (value "LIBFLAGS" ++ ' ' :: (inputChars edge ++ ' ' ::
        ("/OUT':'".toList ++ (operandChars edge.output ++ [])))) := by
    rw [commandChars_eq value (render_msvcLib tools)]
    rfl
  rw [hbody, List.append_nil]
  exact (h "LIB" (by simp)).blank ((h "LIBFLAGS" (by simp)).blank
    ((splits_inputChars edge).blank (splits_outFlag edge)))

theorem splits_msvc (mode : LinkMode) (tools : ToolConfig) (edge : LinkEdge)
    (h : ∀ name ∈ ["LINK", "LDFLAGS", "LDLIBS"], Splits (value name) (words name)) :
    Splits (commandChars value (.msvc mode tools) edge)
      (words "LINK" ++ (words "LDFLAGS" ++ (edge.files.map wordOfPath ++
        (words "LDLIBS" ++ ["/OUT:" ++ wordOfPath edge.output])))) := by
  have hbody : commandChars value (.msvc mode tools) edge =
      value "LINK" ++ ' ' :: (value "LDFLAGS" ++ ' ' :: (inputChars edge ++ ' ' ::
        (value "LDLIBS" ++ ' ' ::
          ("/OUT':'".toList ++ (operandChars edge.output ++ []))))) := by
    rw [commandChars_eq value (render_msvc mode tools)]
    rfl
  rw [hbody, List.append_nil]
  exact (h "LINK" (by simp)).blank ((h "LDFLAGS" (by simp)).blank
    ((splits_inputChars edge).blank ((h "LDLIBS" (by simp)).blank (splits_outFlag edge))))

/-- **The shell's part**: the command of a link edge is read as its words, whatever the linker, if its
    variables hold whole words. -/
theorem splits_commandChars {tools : Toolchain} {linker : Linker}
    (h : tools.linker edge.lang edge.mode = .ok linker)
    (hwords : ∀ name ∈ toolNames tools.family edge, Splits (value name) (words name)) :
    Splits (commandChars value linker edge) (commandWords tools.family edge words) := by
  obtain ⟨language, hlanguage, ⟨hfamily, hmode, rfl⟩ | ⟨hfamily, hmode, rfl⟩ |
    ⟨hfamily, hmode, rfl⟩ | ⟨hfamily, hmode, rfl⟩⟩ := linker_ok h
  · simp only [commandWords, toolNames, hfamily, hmode] at hwords ⊢
    exact splits_ar _ edge hwords
  · simp only [commandWords, toolNames, hfamily] at hwords ⊢
    exact splits_cc edge.mode tools.platform tools.config hlanguage edge hwords
  · simp only [commandWords, toolNames, hfamily, hmode] at hwords ⊢
    exact splits_msvcLib _ edge hwords
  · simp only [commandWords, toolNames, hfamily] at hwords ⊢
    exact splits_msvc edge.mode tools.config edge hwords

end Words

/-! ## The main result -/

/-- **The command of a link is the intended one** where its variables hold whole words: the recipe of the
    edge, expanded by make and split by the shell, gives the linker every input and the output as they
    were named, each as one word in its place. -/
theorem words?_linkRecipeOf {m : Makefile} {tools : Toolchain} {linker : Linker} {edge : LinkEdge}
    (h : tools.linker edge.lang edge.mode = .ok linker)
    (hoperands : ∀ p ∈ edge.output :: edge.files, IsOperand p)
    (hdefined : m.defines.find? (sharedRecipe linker.recipeStem) = some (linkLines linker))
    {value : String → List Char} {words : String → List String}
    (hwords : ∀ name ∈ toolNames tools.family edge, Splits (value name) (words name)) :
    ∃ command, Make.expandCall m value (firstLine (linkRecipeOf linker edge)) = some command ∧
      Shell.words? command = some (commandWords tools.family edge words) := by
  have hstem := linker_recipeStem_mem h
  refine ⟨String.ofList (commandChars value linker edge), ?_,
    Shell.words?_of_splits (splits_commandChars h hwords)⟩
  rw [firstLine_linkRecipeOf hstem hoperands]
  exact expandCall_linkCall value hstem hoperands hdefined

end MakeGraph.Generate
