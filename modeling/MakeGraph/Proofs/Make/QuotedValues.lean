import MakeGraph.Proofs.Make.CutTexts

/-!
# `Proofs.Make.QuotedValues` — values that are lists of quoted words

The value of a variable with flags is a list of words, each of them put together of parts that are
quoted one by one. Make may end such a value in any of its words (`cutsWord`). Then the shell finds an
open quote in what the variable holds, whatever words come before, and otherwise it finds whole words
(`exists_splits_lineValue_iff`).

## Contents

* `wordsText`, `cutsWord`, `keptWord` — lists of words, and what make leaves of each
* `Opens` — texts that leave a quote open
* `splits_lineValue`, `opens_lineValue` — the two outcomes, by induction on the words
* `readAssigned?_wordsText` — the line of the assignment
-/

namespace MakeGraph.Make

open Shell (Splits Splitter quoteChars quoteFrom)
open Shell.Splitter (eat)

/-! ## Lists of words -/

/-- Words with a blank between each two. Each is put together of parts, which are quoted one by one. -/
def wordsText (words : List (List (List Char))) : List Char :=
  List.intercalate [' '] (words.map fun parts => parts.flatMap quoteChars)

/-- **A text that leaves a quote open**, in front of which the splitter stands between words. -/
def Opens (text : List Char) : Prop :=
  ∀ seen, ∃ seen' read, text.foldl eat ⟨seen, .between⟩ = ⟨seen', .single read⟩

/-- Whether make ends a value in a word. -/
def cutsWord (parts : List (List Char)) : Bool :=
  parts.any (isCut 0)

/-- What make leaves of a word in which it does not end the value. -/
def keptWord (parts : List (List Char)) : String :=
  String.ofList (parts.flatMap (dropComment 0))

theorem Opens.not_splits {text : List Char} (h : Opens text) : ¬ ∃ words, Splits text words := by
  rintro ⟨words, hsplits⟩
  obtain ⟨seen, read, hread⟩ := h []
  have hblank := hsplits []
  rw [List.foldl_append, hread] at hblank
  cases hblank

theorem Opens.blank {text more : List Char} {words : List String} (h : Splits text words)
    (h' : Opens more) : Opens (text ++ ' ' :: more) := by
  intro seen
  obtain ⟨seen', read, hread⟩ := h' (words.reverse ++ seen)
  refine ⟨seen', read, ?_⟩
  rw [List.append_cons, List.foldl_append, h, hread]

theorem words?_of_opens {text : List Char} (h : Opens text) :
    Shell.words? (String.ofList text) = none := by
  obtain ⟨seen, read, hread⟩ := h []
  rw [Shell.words?_ofList, hread]
  rfl

section Words

variable {parts : List (List Char)} {words : List (List (List Char))}

/-- A word that is begun goes on in the same way. -/
theorem foldl_eat_lineValue_begun (hne : parts ≠ []) (tail : List Char) (seen : List String) :
    (lineValue 0 (parts.flatMap quoteChars ++ tail)).foldl eat ⟨seen, .between⟩ =
      (lineValue 0 (parts.flatMap quoteChars ++ tail)).foldl eat ⟨seen, .word []⟩ := by
  obtain ⟨part, more, rfl⟩ := List.exists_cons_of_ne_nil hne
  rw [List.flatMap_cons, List.append_assoc]
  exact foldl_eat_lineValue_between part _ seen

/-- **A word that make does not cut** is read, whatever follows. -/
theorem foldl_eat_lineValue_kept (hne : parts ≠ []) (hkept : cutsWord parts = false)
    (tail : List Char) (seen : List String) :
    (lineValue 0 (parts.flatMap quoteChars ++ tail)).foldl eat ⟨seen, .between⟩ =
      (lineValue 0 tail).foldl eat ⟨seen, .word (parts.flatMap (dropComment 0)).reverse⟩ := by
  have hleaves := leaves_parts seen parts tail []
  rw [show parts.any (isCut 0) = false from hkept, if_neg (by decide), List.append_nil] at hleaves
  obtain ⟨first, hfirst, hread⟩ := hleaves
  rw [foldl_eat_lineValue_begun hne, hfirst, List.foldl_append, hread]

/-- **A word that make cuts** leaves a quote open, whatever follows. -/
theorem foldl_eat_lineValue_cut (hne : parts ≠ []) (hcut : cutsWord parts = true)
    (tail : List Char) (seen : List String) :
    ∃ read, (lineValue 0 (parts.flatMap quoteChars ++ tail)).foldl eat ⟨seen, .between⟩ =
      ⟨seen, .single read⟩ := by
  have hleaves := leaves_parts seen parts tail []
  rw [show parts.any (isCut 0) = true from hcut, if_pos rfl] at hleaves
  obtain ⟨read, hread⟩ := hleaves
  exact ⟨read, by rw [foldl_eat_lineValue_begun hne, hread]⟩

theorem wordsText_cons_cons (parts next : List (List Char)) (words : List (List (List Char))) :
    wordsText (parts :: next :: words) =
      parts.flatMap quoteChars ++ ' ' :: wordsText (next :: words) := by
  rw [wordsText, List.map_cons, List.map_cons, List.intercalate_cons_cons, List.append_assoc]
  rfl

/-- The words of a list, the first one with whatever follows. -/
theorem exists_wordsText_cons (parts : List (List Char)) (words : List (List (List Char))) :
    ∃ tail, wordsText (parts :: words) = parts.flatMap quoteChars ++ tail := by
  cases words with
  | nil => exact ⟨[], by rw [wordsText, List.map_singleton, List.intercalate_singleton, List.append_nil]⟩
  | cons next words => exact ⟨_, wordsText_cons_cons parts next words⟩

theorem eat_blank (seen : List String) (parts : List (List Char)) :
    eat ⟨seen, .word (parts.flatMap (dropComment 0)).reverse⟩ ' ' =
      ⟨keptWord parts :: seen, .between⟩ := by
  simp [eat, Splitter.isSeparator, keptWord]

/-- The blank behind a word that make does not cut finishes it. -/
theorem foldl_eat_lineValue_next (hne : parts ≠ []) (hkept : cutsWord parts = false)
    (next : List (List Char)) (words : List (List (List Char))) (seen : List String) :
    (lineValue 0 (wordsText (parts :: next :: words))).foldl eat ⟨seen, .between⟩ =
      (lineValue 0 (wordsText (next :: words))).foldl eat ⟨keptWord parts :: seen, .between⟩ := by
  have hblank : lineValue 0 (' ' :: wordsText (next :: words)) =
      ' ' :: lineValue 0 (wordsText (next :: words)) :=
    lineValue_of_ne (by decide) (by decide) (by decide) 0 _
  rw [wordsText_cons_cons, foldl_eat_lineValue_kept hne hkept, hblank, List.foldl_cons, eat_blank]

/-- **Words of which make cuts none** are whole words. -/
theorem splits_lineValue (hne : ∀ parts ∈ words, parts ≠ [])
    (hkept : ∀ parts ∈ words, cutsWord parts = false) :
    Splits (lineValue 0 (wordsText words)) (words.map keptWord) := by
  intro seen
  induction words generalizing seen with
  | nil => rfl
  | cons parts words ih =>
      obtain ⟨hparts, hwords⟩ := List.forall_mem_cons.mp hne
      obtain ⟨hfirst, hothers⟩ := List.forall_mem_cons.mp hkept
      rw [List.foldl_append]
      cases words with
      | nil =>
          have hlast := foldl_eat_lineValue_kept hparts hfirst [] seen
          rw [List.append_nil] at hlast
          rw [wordsText, List.map_singleton, List.intercalate_singleton, hlast]
          exact eat_blank seen parts
      | cons next words =>
          have hnext := ih hwords hothers (keptWord parts :: seen)
          rw [List.foldl_append] at hnext
          have hwhole : ((parts :: next :: words).map keptWord).reverse ++ seen =
              ((next :: words).map keptWord).reverse ++ keptWord parts :: seen := by
            rw [List.map_cons, List.reverse_cons, List.append_assoc]
            rfl
          rw [foldl_eat_lineValue_next hparts hfirst, hnext, hwhole]

/-- **Words of which make cuts one** leave a quote open. -/
theorem opens_lineValue (hne : ∀ parts ∈ words, parts ≠ [])
    (hcut : ∃ parts ∈ words, cutsWord parts = true) : Opens (lineValue 0 (wordsText words)) := by
  intro seen
  induction words generalizing seen with
  | nil =>
      obtain ⟨parts, hparts, -⟩ := hcut
      cases hparts
  | cons parts words ih =>
      obtain ⟨hparts, hwords⟩ := List.forall_mem_cons.mp hne
      cases hfirst : cutsWord parts with
      | true =>
          obtain ⟨tail, htail⟩ := exists_wordsText_cons parts words
          obtain ⟨read, hread⟩ := foldl_eat_lineValue_cut hparts hfirst tail seen
          exact ⟨seen, read, by rw [htail, hread]⟩
      | false =>
          have hlater : ∃ parts ∈ words, cutsWord parts = true := by
            obtain ⟨bad, hbad, hbadcut⟩ := hcut
            rcases List.mem_cons.mp hbad with rfl | hlater
            · rw [hfirst] at hbadcut
              cases hbadcut
            · exact ⟨bad, hlater, hbadcut⟩
          cases words with
          | nil =>
              obtain ⟨bad, hbad, -⟩ := hlater
              cases hbad
          | cons next words =>
              obtain ⟨seen', read, hread⟩ := ih hwords hlater (keptWord parts :: seen)
              exact ⟨seen', read, by rw [foldl_eat_lineValue_next hparts hfirst, hread]⟩

/-- **The value of a list of words** is whole words exactly where make does not end it in one of them. -/
theorem exists_splits_lineValue_iff (hne : ∀ parts ∈ words, parts ≠ []) :
    (∃ held, Splits (lineValue 0 (wordsText words)) held) ↔
      ∀ parts ∈ words, cutsWord parts = false := by
  constructor
  · intro hsplits parts hparts
    by_contra hcut
    exact (opens_lineValue hne ⟨parts, hparts, by simpa using hcut⟩).not_splits hsplits
  · exact fun h => ⟨_, splits_lineValue hne h⟩

end Words

/-! ## The line of an assignment -/

/-- A command of words is written with a blank between each two. -/
theorem toList_render_commandWords (pieces : List Piece) :
    (Command.words pieces).render.toList =
      List.intercalate [' '] (pieces.map fun piece => (piece.render .shellWord).toList) := by
  rw [Command.render]
  cases pieces with
  | nil => rfl
  | cons piece pieces => simp [separated, String.toList_intercalate, Function.comp_def]

/-- A quoted text does not end with a backslash: what is behind the last one is a quote at least. -/
theorem settle_quoteFrom {inside : Bool} (cs : List Char) {n : Nat} (hn : n ≠ 0 → inside = true) :
    (settle n (quoteFrom inside cs)).2 = 0 := by
  induction cs generalizing inside n with
  | nil =>
      cases inside with
      | true => rfl
      | false =>
          have hzero : n = 0 := by
            by_contra h
            cases hn h
          rw [hzero]
          rfl
  | cons c cs ih =>
      have hskip : ∀ {c : Char} (n : Nat) (rest : List Char), c ≠ '\\' →
          (settle n (c :: rest)).2 = (settle 0 rest).2 := by
        intro c n rest hc
        rw [settle, if_neg hc]
      by_cases hcopied : Shell.isCopied c = true
      · have hback : c ≠ '\\' := (Shell.isCopied_plain hcopied).2.2.2.2.1
        rw [quoteFrom, if_pos hcopied, hskip n _ hback]
        exact ih fun h => absurd rfl h
      · by_cases hquote : c = '\''
        · rw [quoteFrom, if_neg hcopied, if_pos hquote, settle_append]
          have hzero : (settle n (if inside = true then ['\'', '\\', '\''] else ['\\', '\''])).2 = 0 := by
            cases inside <;> rfl
          rw [hzero]
          exact ih fun h => absurd rfl h
        · rw [quoteFrom, if_neg hcopied, if_neg hquote, settle_append]
          exact ih fun _ => rfl

theorem openBackslashes_quoteChars (cs : List Char) : openBackslashes (quoteChars cs) = 0 := by
  cases cs with
  | nil => rfl
  | cons c cs => exact settle_quoteFrom (c :: cs) fun h => absurd rfl h

section Lines

variable {words : List (List (List Char))}

theorem openBackslashes_flatMap_quoteChars (parts : List (List Char)) :
    openBackslashes (parts.flatMap quoteChars) = 0 := by
  induction parts with
  | nil => rfl
  | cons part parts ih =>
      have hpart : (settle 0 (quoteChars part)).2 = 0 := openBackslashes_quoteChars part
      rw [List.flatMap_cons, openBackslashes, settle_append, hpart]
      exact ih

theorem openBackslashes_wordsText (words : List (List (List Char))) :
    openBackslashes (wordsText words) = 0 := by
  induction words with
  | nil => rfl
  | cons parts words ih =>
      have hparts : (settle 0 (parts.flatMap quoteChars)).2 = 0 := openBackslashes_flatMap_quoteChars parts
      cases words with
      | nil =>
          rw [wordsText, List.map_singleton, List.intercalate_singleton]
          exact hparts
      | cons next words =>
          rw [wordsText_cons_cons, openBackslashes, settle_append, hparts]
          exact ih

theorem newline_not_mem_of_not_isCut {n : Nat} {cs : List Char} (h : isCut n cs = false) :
    '\n' ∉ cs := by
  induction cs generalizing n with
  | nil => exact List.not_mem_nil
  | cons c cs ih =>
      obtain ⟨hends, hrest⟩ := Bool.or_eq_false_iff.mp h
      intro hmem
      rcases List.mem_cons.mp hmem with rfl | hmem
      · cases hends
      · exact ih hrest hmem

/-- Words of which make cuts none are in one line. -/
theorem takeWhile_wordsText (h : ∀ parts ∈ words, cutsWord parts = false) :
    (wordsText words).takeWhile (· ≠ '\n') = wordsText words := by
  refine takeWhile_of_newline_not_mem fun hc => ?_
  rcases Text.mem_intercalate hc with hblank | ⟨text, htext, hc⟩
  · exact absurd (List.mem_singleton.mp hblank) (by decide)
  · obtain ⟨parts, hparts, rfl⟩ := List.mem_map.mp htext
    obtain ⟨part, hpart, hc⟩ := List.mem_flatMap.mp hc
    have hkept : isCut 0 part = false := by
      have hnone := h parts hparts
      rw [cutsWord, List.any_eq_false] at hnone
      exact Bool.eq_false_iff.mpr (hnone part hpart)
    exact Shell.newline_not_mem_quoteChars (newline_not_mem_of_not_isCut hkept) hc

/-- The value begins with the first word: no blank in front of it is part of a word. -/
theorem dropWhile_wordsText (hne : ∀ parts ∈ words, parts ≠ []) :
    ((wordsText words).takeWhile (· ≠ '\n')).dropWhile isSeparator =
      (wordsText words).takeWhile (· ≠ '\n') := by
  cases words with
  | nil => rfl
  | cons parts words =>
      obtain ⟨part, more, rfl⟩ := List.exists_cons_of_ne_nil (hne parts List.mem_cons_self)
      obtain ⟨tail, htail⟩ := exists_wordsText_cons (part :: more) words
      obtain ⟨c, rest, hquoted, hsep, -⟩ := Shell.exists_quoteChars_eq_cons part
      have hnewline : c ≠ '\n' := by
        rintro rfl
        cases hsep
      have hc : ¬ isSeparator c = true := by
        intro h
        simp only [isSeparator, Splitter.isSeparator, Bool.or_eq_true, Bool.or_eq_false_iff] at h hsep
        simp [hsep] at h
      rw [htail, List.flatMap_cons, hquoted, List.cons_append, List.cons_append,
        List.takeWhile_cons_of_pos (by simpa using hnewline), List.dropWhile_cons_of_neg hc]

/-- **What a variable holds** that is assigned quoted words: the value of its line, if the line does not
    go on in the next one. -/
theorem readAssigned?_wordsText (value : String → List Char) (hne : ∀ parts ∈ words, parts ≠ []) :
    readAssigned? value (doubleDollars (wordsText words)) =
      if openBackslashes ((wordsText words).takeWhile (· ≠ '\n')) % 2 = 1 then none
      else some (lineValue 0 (wordsText words)) := by
  rw [readAssigned?_doubleDollars, dropWhile_wordsText hne]
  rfl

/-- No line of words goes on that make does not cut. -/
theorem openBackslashes_takeWhile_wordsText (h : ∀ parts ∈ words, cutsWord parts = false) :
    openBackslashes ((wordsText words).takeWhile (· ≠ '\n')) = 0 := by
  rw [takeWhile_wordsText h, openBackslashes_wordsText]

end Lines

end MakeGraph.Make
