import MakeGraph.Proofs.Generate.LinkCommand
import MakeGraph.Proofs.Make.Escaping
import MakeGraph.Proofs.Make.QuotedValues

/-!
# `Proofs.Generate.WordLists` — commands that are lists of words

A command is a list of pieces, and each of them should be one word for the shell. A piece may be put
together of others, which are quoted one by one: there is no blank between them, and the shell reads
quoted texts without blanks between them as one word.

So a piece counts as what it is put together of (`Piece.leaves`). If these are texts and paths that are
reached without a variable, it is one word, the text of its leaves, whatever they hold
(`literalWords?_of_isWord`). A piece without leaves would be no word at all.

## Contents

* `Piece.leaves`, `Piece.render_eq_join_leaves` — what a piece is put together of
* `isWord`, `wordText` — pieces that are words
* `wordParts`, `toList_render_words` — their text
* `literalWords?_of_isWord` — the main result
-/

namespace MakeGraph

/-! ## Leaves -/

namespace Make.Piece

mutual

/-- **The leaves of a piece**: the pieces in it that are put together of no others. -/
def leaves : Piece → List Piece
  | sequence parts => leavesOf parts
  | plain text => [plain text]
  | verbatim text => [verbatim text]
  | path p => [path p]

/-- The leaves of pieces, one after another. -/
def leavesOf : List Piece → List Piece
  | [] => []
  | part :: parts => leaves part ++ leavesOf parts

end

mutual

/-- **A piece is written leaf by leaf.** -/
theorem render_eq_join_leaves (context : Context) :
    ∀ piece : Piece, piece.render context = String.join (piece.leaves.map (render context))
  | plain text => by simp [leaves]
  | verbatim text => by simp [leaves]
  | path p => by simp [leaves]
  | sequence parts => by rw [leaves, render, renderAll_eq_join_leavesOf context parts]

theorem renderAll_eq_join_leavesOf (context : Context) :
    ∀ parts : List Piece, renderAll context parts = String.join ((leavesOf parts).map (render context))
  | [] => rfl
  | part :: parts => by
      rw [renderAll, leavesOf, List.map_append, String.join_append,
        render_eq_join_leaves context part, renderAll_eq_join_leavesOf context parts]

end

end Make.Piece

namespace Generate

open Make (Command Piece)
open Shell (Reads literalWords? quoteChars)

/-! ## Pieces that are words -/

/-- A leaf that refers to nothing: a text, or a path that is reached without a variable. -/
def isPlainLeaf : Piece → Bool
  | .plain _ => true
  | .path p => p.root = .build || p.root = .absolute
  | .verbatim _ | .sequence _ => false

/-- A piece that is put together of texts and paths. -/
def isWord (piece : Piece) : Bool :=
  !piece.leaves.isEmpty && piece.leaves.all isPlainLeaf

/-- The text that a leaf stands for. The build directory itself is `.`. -/
def leafText : Piece → String
  | .plain text | .verbatim text => text
  | .path p => wordOfPath p
  | .sequence _ => ""

/-- **The word that a piece stands for**: the texts of its leaves, one after another. -/
def wordText (piece : Piece) : String :=
  String.join (piece.leaves.map leafText)

/-- A leaf is written as its text, quoted. -/
theorem toList_render_leaf {leaf : Piece} (h : isPlainLeaf leaf = true) :
    (leaf.render .shellWord).toList = Make.doubleDollars (quoteChars (leafText leaf).toList) := by
  cases leaf with
  | plain text => rw [Piece.render_plain, Make.toList_escape_shellWord, leafText]
  | path p =>
      have hvariable : p.root.variableName? = none := by
        simp only [isPlainLeaf, Bool.or_eq_true, decide_eq_true_eq] at h
        rcases h with hroot | hroot <;> rw [hroot] <;> rfl
      rw [render_path_of_no_variable hvariable (by decide), Make.toList_escape_shellWord, leafText]
  | verbatim text => cases h
  | sequence parts => cases h

/-- Leaves are quoted one by one. -/
theorem toList_render_leaves {leaves : List Piece} (h : ∀ leaf ∈ leaves, isPlainLeaf leaf = true) :
    (String.join (leaves.map (Piece.render .shellWord))).toList =
      Make.doubleDollars ((leaves.map fun leaf => (leafText leaf).toList).flatMap quoteChars) := by
  induction leaves with
  | nil => rfl
  | cons leaf leaves ih =>
      obtain ⟨hleaf, hleaves⟩ := List.forall_mem_cons.mp h
      rw [List.map_cons, String.join_cons, String.toList_append, toList_render_leaf hleaf,
        ih hleaves, ← Make.doubleDollars_append]
      rfl

/-- The parts of the word that a piece stands for, which are quoted one by one. -/
def wordParts (piece : Piece) : List (List Char) :=
  piece.leaves.map fun leaf => (leafText leaf).toList

theorem flatten_wordParts (piece : Piece) : String.ofList (wordParts piece).flatten = wordText piece := by
  rw [wordText, ← String.toList_inj, String.toList_ofList, String.toList_join, List.flatMap_map]
  rfl

/-- **A piece that is a word** is written part by part. -/
theorem toList_render_of_isWord {piece : Piece} (h : isWord piece = true) :
    (piece.render .shellWord).toList = Make.doubleDollars ((wordParts piece).flatMap quoteChars) ∧
      wordParts piece ≠ [] := by
  simp only [isWord, Bool.and_eq_true, Bool.not_eq_true', List.isEmpty_eq_false_iff] at h
  obtain ⟨hne, hall⟩ := h
  rw [Piece.render_eq_join_leaves]
  exact ⟨toList_render_leaves (List.all_eq_true.mp hall), mt List.map_eq_nil_iff.mp hne⟩

/-! ## Lists of words -/

/-- **A list of words** is written as the words that its pieces stand for. -/
theorem toList_render_words {pieces : List Piece} (h : ∀ piece ∈ pieces, isWord piece = true) :
    (Command.words pieces).render.toList = Make.doubleDollars (Make.wordsText (pieces.map wordParts)) := by
  rw [Make.toList_render_commandWords, Make.wordsText, Make.doubleDollars_intercalate, List.map_map,
    List.map_map]
  refine congrArg _ (List.map_congr_left fun piece hpiece => ?_)
  exact (toList_render_of_isWord (h piece hpiece)).1

/-- The shell reads one word for each piece. -/
theorem reads_wordsText {pieces : List Piece} (h : ∀ piece ∈ pieces, isWord piece = true) :
    Reads (Make.wordsText (pieces.map wordParts)) (pieces.map wordText) := by
  have hword : ∀ piece, isWord piece = true →
      Reads ((wordParts piece).flatMap quoteChars) [wordText piece] := by
    intro piece hpiece
    rw [← flatten_wordParts]
    exact Shell.reads_flatMap_quoteChars (toList_render_of_isWord hpiece).2
  induction pieces with
  | nil => exact Shell.reads_nil
  | cons piece pieces ih =>
      obtain ⟨hpiece, hpieces⟩ := List.forall_mem_cons.mp h
      cases pieces with
      | nil =>
          rw [List.map_singleton, Make.wordsText, List.map_singleton, List.intercalate_singleton]
          exact hword piece hpiece
      | cons next pieces =>
          rw [List.map_cons, List.map_cons, Make.wordsText_cons_cons]
          exact (hword piece hpiece).blank (ih hpieces)

/-- **A list of words is read as these words.** No dollar is left that refers to something, the shell does
    nothing with the text but to split it, and each piece is one word, the text of its leaves. -/
theorem literalWords?_of_isWord {pieces : List Piece} (h : ∀ piece ∈ pieces, isWord piece = true)
    (value : String → List Char) :
    Make.DollarsPaired (Command.words pieces).render.toList ∧
      literalWords? (String.ofList (Make.expand value (Command.words pieces).render.toList)) =
        some (pieces.map wordText) ∧
      Shell.words? (String.ofList (Make.expand value (Command.words pieces).render.toList)) =
        some (pieces.map wordText) := by
  have hliteral := Shell.literalWords?_of_reads (reads_wordsText h)
  rw [toList_render_words h, Make.expand_doubleDollars]
  exact ⟨Make.dollarsPaired_doubleDollars _, hliteral, Shell.words?_of_literalWords? hliteral⟩

/-- An empty text, the build directory, and texts that the shell and make would act on. -/
theorem literalWords?_mixedPieces :
    literalWords? (String.ofList (Make.expand (fun _ => []) (Command.words
        [.sequence [.plain "-I", .sequence [], .path ⟨.absolute, ⟨"/a b"⟩⟩], .plain "",
          .path (.build ""), .sequence [.sequence [.plain "$(x);"], .plain "#'"]]).render.toList)) =
      some ["-I/a b", "", ".", "$(x);#'"] :=
  (literalWords?_of_isWord (by decide) fun _ => []).2.1

end Generate

end MakeGraph
