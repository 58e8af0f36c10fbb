import MakeGraph.Shell.Quote
import MakeGraph.Shell.Words

/-!
# `Proofs.Shell.Reading` — texts that the shell reads as words and does nothing else with

Splitting a text into words is the last thing that a shell does with it. Before that it expands
variables, commands and file names, and it ends the command where a line or an operator ends it, all
this outside of quotes. `read?` is the splitter that stops at such a character, so a text that it reads
to its end is made of the words that are written there (`literalWords?`).

What the splitter makes of a text depends on the state in which it meets it. `Reads text words` says
that a text in front of a blank, met between two words, adds these words and nothing else. Such texts
can be put together with blanks (`Reads.blank`), and they are what the whole splitter takes them for
(`literalWords?_of_reads`). A quoted text is one word in any place, also right behind other quoted texts
(`reads_flatMap_quoteChars`): the splitter leaves it inside of the word, with its text read.

## Contents

* `read?`, `literalWords?` — the reader
* `Reads` — lists of words, put together with blanks
* `read?_quoteFrom`, `reads_quoteChars` — quoted texts
* `Splits` — texts of which no more is known than how they split
-/

namespace MakeGraph.Shell

open Splitter (eat)

/-! ## The reader -/

/-- A character that the shell acts on in a word outside of quotes: it expands something, ends the
    command, or redirects it. -/
def isLive (c : Char) : Bool :=
  ['$', '\x60', '*', '?', '[', '|', '&', ';', '<', '>', '(', ')', '\n'].contains c

namespace Splitter

/-- Whether the shell acts on a character instead of reading it. A tilde counts at the beginning of a
    word, and between double quotes only what begins an expansion. -/
def State.acts : State → Char → Bool
  | .between, c => isLive c || c == '~'
  | .comment, c => c == '\n'
  | .word _, c => isLive c
  | .double _, c => c == '$' || c == '\x60'
  | .escape _, _ | .single _, _ | .doubleEscape _, _ => false

/-- The splitter behind a text, if the shell acts on nothing in it. -/
def read? (s : Splitter) : List Char → Option Splitter
  | [] => some s
  | c :: cs => if s.state.acts c then none else (s.eat c).read? cs

theorem read?_cons {s : Splitter} {c : Char} (h : s.state.acts c = false) (cs : List Char) :
    s.read? (c :: cs) = (s.eat c).read? cs := by
  rw [read?, h, if_neg (by decide)]

theorem read?_append (s : Splitter) (cs ds : List Char) :
    s.read? (cs ++ ds) = (s.read? cs).bind fun t => t.read? ds := by
  induction cs generalizing s with
  | nil => rfl
  | cons c cs ih =>
      rw [List.cons_append, read?, read?]
      split
      · rfl
      · exact ih (s.eat c)

/-- A text that is read to its end is split in the same way. -/
theorem foldl_eat_of_read? {s t : Splitter} {cs : List Char} (h : s.read? cs = some t) :
    cs.foldl eat s = t := by
  induction cs generalizing s with
  | nil => exact Option.some.inj h
  | cons c cs ih =>
      rw [read?] at h
      split at h
      · cases h
      · exact ih h

end Splitter

open Splitter (read?)

/-- **The words of a text** that the shell does nothing with but read. -/
def literalWords? (text : String) : Option (List String) :=
  (read? {} text.toList).bind Splitter.finish?

/-- They are the words into which the text splits. -/
theorem words?_of_literalWords? {text : String} {words : List String}
    (h : literalWords? text = some words) : words? text = some words := by
  unfold literalWords? at h
  obtain ⟨s, hs, hfinish⟩ := Option.bind_eq_some_iff.mp h
  rw [words?, Splitter.foldl_eat_of_read? hs]
  exact hfinish

example : literalWords? "cc 'a b' c\\;d" = some ["cc", "a b", "c;d"] := by decide
example : literalWords? "cc *.c" = none := by decide

theorem words?_ofList (text : List Char) :
    words? (String.ofList text) = (text.foldl eat ⟨[], .between⟩).finish? := by
  rw [words?, String.toList_ofList]

/-! ## Lists of words -/

/-- **A text is read as words** in front of a blank. -/
def Reads (text : List Char) (words : List String) : Prop :=
  ∀ seen, read? ⟨seen, .between⟩ (text ++ [' ']) = some ⟨words.reverse ++ seen, .between⟩

theorem reads_nil : Reads [] [] :=
  fun _ => rfl

/-- **A blank between two lists** keeps them apart. -/
theorem Reads.blank {text more : List Char} {words others : List String} (h : Reads text words)
    (h' : Reads more others) : Reads (text ++ ' ' :: more) (words ++ others) := by
  intro seen
  have hsplit : text ++ ' ' :: more ++ [' '] = (text ++ [' ']) ++ (more ++ [' ']) := by simp
  rw [hsplit, Splitter.read?_append, h, Option.bind_some, h', List.reverse_append,
    List.append_assoc]

/-- Lists that can be put together with blanks can be made of words that are joined with blanks. -/
theorem intercalate_of_blank {α : Type} {R : List Char → List String → Prop} (hnil : R [] [])
    (hblank : ∀ {text more words others}, R text words → R more others →
      R (text ++ ' ' :: more) (words ++ others))
    {text : α → List Char} {word : α → String} {items : List α}
    (h : ∀ item ∈ items, R (text item) [word item]) :
    R (List.intercalate [' '] (items.map text)) (items.map word) := by
  induction items with
  | nil => exact hnil
  | cons item items ih =>
      obtain ⟨hitem, hitems⟩ := List.forall_mem_cons.mp h
      cases items with
      | nil =>
          rw [List.map_singleton, List.intercalate_singleton]
          exact hitem
      | cons next items =>
          rw [List.map_cons, List.map_cons, List.intercalate_cons_cons, List.append_assoc]
          exact hblank hitem (ih hitems)

theorem reads_intercalate {α : Type} {text : α → List Char} {word : α → String} {items : List α}
    (h : ∀ item ∈ items, Reads (text item) [word item]) :
    Reads (List.intercalate [' '] (items.map text)) (items.map word) :=
  intercalate_of_blank reads_nil (fun h h' => h.blank h') h

/-- There is one state only from which a blank leads between words with a given list of finished
    ones. -/
theorem finish?_of_eat_blank {s : Splitter} {words : List String}
    (h : s.eat ' ' = ⟨words.reverse, .between⟩) : s.finish? = some words := by
  obtain ⟨seen, state⟩ := s
  cases state with
  | between =>
      have hseen : seen = words.reverse := (Splitter.mk.inj h).1
      rw [hseen]
      exact congrArg some (List.reverse_reverse words)
  | word read =>
      have hseen : String.ofList read.reverse :: seen = words.reverse := (Splitter.mk.inj h).1
      show some (String.ofList read.reverse :: seen).reverse = some words
      rw [hseen, List.reverse_reverse]
  | comment => cases (Splitter.mk.inj h).2
  | escape read => cases (Splitter.mk.inj h).2
  | single read => cases (Splitter.mk.inj h).2
  | double read => cases (Splitter.mk.inj h).2
  | doubleEscape read => cases (Splitter.mk.inj h).2

/-- **The whole text** is read as its words. -/
theorem literalWords?_of_reads {text : List Char} {words : List String} (h : Reads text words) :
    literalWords? (String.ofList text) = some words := by
  have hblank := h []
  rw [Splitter.read?_append, List.append_nil] at hblank
  obtain ⟨s, hs, hlast⟩ := Option.bind_eq_some_iff.mp hblank
  have heat : s.eat ' ' = ⟨words.reverse, .between⟩ := by
    have hfold := Splitter.foldl_eat_of_read? hlast
    exact hfold
  rw [literalWords?, String.toList_ofList, hs, Option.bind_some]
  exact finish?_of_eat_blank heat

/-- A finished word stays what it is, whatever follows. -/
theorem exists_words_of_finish? {s : Splitter} {cs : List Char} {words : List String}
    (h : (cs.foldl eat s).finish? = some words) : ∃ more, words = s.words.reverse ++ more := by
  induction cs generalizing s with
  | nil =>
      obtain ⟨seen, state⟩ := s
      cases state with
      | between | comment => exact ⟨[], by simpa [Splitter.finish?] using h.symm⟩
      | word read => exact ⟨[String.ofList read.reverse], by simpa [Splitter.finish?] using h.symm⟩
      | escape read | single read | double read | doubleEscape read => cases h
  | cons c cs ih =>
      obtain ⟨more, hmore⟩ := ih h
      -- a step leaves the finished words alone, or one more is finished
      have hstep : (s.eat c).words = s.words ∨ ∃ word, (s.eat c).words = word :: s.words := by
        unfold eat
        split
        · split
          · exact .inl rfl
          · split <;> exact .inl rfl
        · split <;> exact .inl rfl
        · split
          · exact .inr ⟨_, rfl⟩
          · exact .inl rfl
        all_goals exact .inl rfl
      rcases hstep with hwords | ⟨word, hwords⟩
      · exact ⟨more, by rw [hmore, hwords]⟩
      · exact ⟨word :: more, by rw [hmore, hwords]; simp⟩

/-- What was read of a word that is begun. -/
def Splitter.State.begun? : Splitter.State → Option (List Char)
  | .between | .comment => none
  | .word read | .escape read | .single read | .double read | .doubleEscape read => some read

theorem begun?_inWord (read : List Char) (c : Char) :
    ∃ next, (Splitter.State.inWord read c).begun? = some next ∧ read.length ≤ next.length := by
  unfold Splitter.State.inWord
  split
  · exact ⟨read, rfl, Nat.le_refl _⟩
  · split
    · exact ⟨read, rfl, Nat.le_refl _⟩
    · split
      · exact ⟨read, rfl, Nat.le_refl _⟩
      · exact ⟨c :: read, rfl, Nat.le_succ _⟩

/-- **One step in a word** that is begun: it goes on with all that was read of it, or it is finished. -/
theorem eat_of_begun {s : Splitter} {read : List Char} (h : s.state.begun? = some read) (c : Char) :
    ((s.eat c).words = s.words ∧
        ∃ next, (s.eat c).state.begun? = some next ∧ read.length ≤ next.length) ∨
      (s.eat c).words = String.ofList read.reverse :: s.words := by
  obtain ⟨seen, state⟩ := s
  cases state with
  | between | comment => cases h
  | word held =>
      obtain rfl := Option.some.inj h
      by_cases hblank : Splitter.isSeparator c = true
      · refine .inr ?_
        simp [eat, hblank]
      · have heat : eat ⟨seen, .word held⟩ c = ⟨seen, .inWord held c⟩ := by
          simp [eat, hblank]
        rw [heat]
        exact .inl ⟨rfl, begun?_inWord held c⟩
  | escape held =>
      obtain rfl := Option.some.inj h
      refine .inl ⟨rfl, _, rfl, ?_⟩
      split <;> simp
  | single held =>
      obtain rfl := Option.some.inj h
      refine .inl ⟨rfl, ?_⟩
      by_cases hquote : c = '\''
      · exact ⟨held, by simp [eat, hquote, Splitter.State.begun?], Nat.le_refl _⟩
      · exact ⟨c :: held, by simp [eat, hquote, Splitter.State.begun?], Nat.le_succ _⟩
  | double held =>
      obtain rfl := Option.some.inj h
      refine .inl ⟨rfl, ?_⟩
      by_cases hquote : c = '"'
      · exact ⟨held, by simp [eat, hquote, Splitter.State.begun?], Nat.le_refl _⟩
      · by_cases hback : c = '\\'
        · exact ⟨held, by simp [eat, hback, Splitter.State.begun?], Nat.le_refl _⟩
        · exact ⟨c :: held, by simp [eat, hquote, hback, Splitter.State.begun?], Nat.le_succ _⟩
  | doubleEscape held =>
      obtain rfl := Option.some.inj h
      refine .inl ⟨rfl, _, rfl, ?_⟩
      split
      · exact Nat.le_refl _
      · split <;> simp only [List.length_cons] <;> omega

/-- A word that is begun loses nothing of what was read of it. -/
theorem exists_word_of_begun {s : Splitter} {read cs : List Char} {words : List String}
    (hread : s.state.begun? = some read) (h : (cs.foldl eat s).finish? = some words) :
    ∃ word more, words = s.words.reverse ++ word :: more ∧ read.length ≤ word.toList.length := by
  induction cs generalizing s read with
  | nil =>
      obtain ⟨seen, state⟩ := s
      cases state with
      | word held =>
          obtain rfl := Option.some.inj hread
          exact ⟨String.ofList held.reverse, [], by simpa [Splitter.finish?] using h.symm, by simp⟩
      | between | comment => cases hread
      | escape held | single held | double held | doubleEscape held => cases h
  | cons c cs ih =>
      rcases eat_of_begun hread c with ⟨hwords, next, hnext, hle⟩ | hwords
      · obtain ⟨word, more, hmore, hlength⟩ := ih hnext h
        exact ⟨word, more, hwords ▸ hmore, Nat.le_trans hle hlength⟩
      · have hrest : (cs.foldl eat (s.eat c)).finish? = some words := h
        obtain ⟨more, hmore⟩ := exists_words_of_finish? hrest
        refine ⟨String.ofList read.reverse, more, ?_, by simp⟩
        rw [hmore, hwords, List.reverse_cons, List.append_assoc]
        rfl

/-! ## Quoted texts -/

/-- A character that is written as it is does not end a word and begins neither quotes nor anything
    that the shell acts on. -/
theorem isCopied_plain {c : Char} (hc : isCopied c = true) :
    Splitter.isSeparator c = false ∧ c ≠ '#' ∧ c ≠ '"' ∧ c ≠ '\'' ∧ c ≠ '\\' ∧
      isLive c = false ∧ c ≠ '~' := by
  have hseparator : Splitter.isSeparator c = false := by
    refine Bool.eq_false_iff.mpr fun h => ?_
    simp only [Splitter.isSeparator, Bool.or_eq_true, beq_iff_eq] at h
    rcases h with (rfl | rfl) | rfl <;> revert hc <;> decide
  have hlive : isLive c = false := by
    have hall : ['$', '\x60', '*', '?', '[', '|', '&', ';', '<', '>', '(', ')', '\n'].all
        (fun d => !isCopied d) = true := by
      decide
    refine Bool.eq_false_iff.mpr fun h => ?_
    have hnot := List.all_eq_true.mp hall c (List.contains_iff_mem.mp h)
    rw [hc] at hnot
    cases hnot
  refine ⟨hseparator, ?_, ?_, ?_, ?_, hlive, ?_⟩
  all_goals
    rintro rfl
    revert hc
    decide

theorem eat_word (seen : List String) (read : List Char) {c : Char} (hc : isCopied c = true) :
    eat ⟨seen, .word read⟩ c = ⟨seen, .word (c :: read)⟩ := by
  obtain ⟨hsep, -, hdouble, hsingle, hback, -⟩ := isCopied_plain hc
  simp [eat, Splitter.State.inWord, hsep, hdouble, hsingle, hback]

theorem eat_single (seen : List String) (read : List Char) {c : Char} (hc : c ≠ '\'') :
    eat ⟨seen, .single read⟩ c = ⟨seen, .single (c :: read)⟩ := by
  simp [eat, hc]

theorem read?_word_copied {c : Char} (hc : isCopied c = true) (seen : List String)
    (read cs : List Char) :
    read? ⟨seen, .word read⟩ (c :: cs) = read? ⟨seen, .word (c :: read)⟩ cs := by
  obtain ⟨-, -, -, -, -, hlive, -⟩ := isCopied_plain hc
  have hacts : Splitter.State.acts (.word read) c = false := hlive
  rw [Splitter.read?_cons hacts, eat_word seen read hc]

theorem read?_single {c : Char} (hc : c ≠ '\'') (seen : List String) (read cs : List Char) :
    read? ⟨seen, .single read⟩ (c :: cs) = read? ⟨seen, .single (c :: read)⟩ cs := by
  rw [Splitter.read?_cons rfl, eat_single seen read hc]

theorem quoteChars_of_ne_nil {cs : List Char} (h : cs ≠ []) : quoteChars cs = quoteFrom false cs := by
  obtain ⟨c, cs, rfl⟩ := List.exists_cons_of_ne_nil h
  rfl

/-- Inside of quotes everything but a quote is copied. -/
theorem quoteFrom_true_append {cs : List Char} (h : '\'' ∉ cs) (ds : List Char) :
    quoteFrom true (cs ++ ds) = cs ++ quoteFrom true ds := by
  induction cs with
  | nil => rfl
  | cons c cs ih =>
      rw [List.mem_cons, not_or] at h
      rw [List.cons_append, quoteFrom, if_neg (Ne.symm h.1), ih h.2]
      split <;> rfl

/-- The state in a word, inside of single quotes or outside. -/
def wordState (inside : Bool) (read : List Char) : Splitter.State :=
  if inside then .single read else .word read

/-- **What is read of a quoted text**: the text, and the splitter is outside of quotes again. The
    induction is on the text, over both sides of the quotes. -/
theorem read?_quoteFrom (inside : Bool) (cs : List Char) (seen : List String) (read : List Char) :
    read? ⟨seen, wordState inside read⟩ (quoteFrom inside cs) =
      some ⟨seen, .word (cs.reverse ++ read)⟩ := by
  induction cs generalizing inside read with
  | nil => cases inside <;> rfl
  | cons c cs ih =>
      have hread : (c :: cs).reverse ++ read = cs.reverse ++ c :: read := by simp
      rw [hread]
      -- copied characters stay on their side of the quotes, a quote leads outside, all others inside
      by_cases hcopied : isCopied c = true
      · rw [quoteFrom, if_pos hcopied]
        cases inside with
        | true =>
            obtain ⟨-, -, -, hsingle, -⟩ := isCopied_plain hcopied
            rw [wordState, if_pos rfl, read?_single hsingle]
            exact ih true (c :: read)
        | false =>
            rw [wordState, if_neg (by decide), read?_word_copied hcopied]
            exact ih false (c :: read)
      · by_cases hquote : c = '\''
        · subst hquote
          rw [quoteFrom, if_neg hcopied, if_pos rfl, Splitter.read?_append]
          cases inside with
          | true => exact ih false ('\'' :: read)
          | false => exact ih false ('\'' :: read)
        · rw [quoteFrom, if_neg hcopied, if_neg hquote, Splitter.read?_append]
          cases inside with
          | true =>
              show (read? ⟨seen, .single read⟩ [c]).bind _ = _
              rw [read?_single hquote]
              exact ih true (c :: read)
          | false =>
              show (read? ⟨seen, .single read⟩ [c]).bind _ = _
              rw [read?_single hquote]
              exact ih true (c :: read)

/-- A quoted text inside of a word. -/
theorem read?_quoteChars (cs : List Char) (seen : List String) (read : List Char) :
    read? ⟨seen, .word read⟩ (quoteChars cs) = some ⟨seen, .word (cs.reverse ++ read)⟩ := by
  cases cs with
  | nil => rfl
  | cons c cs => exact read?_quoteFrom false (c :: cs) seen read

/-- **How a quoted text begins**: with a character that begins a word, and that the shell does not act on.
    If it is a backslash, it is there for a quote. -/
theorem exists_quoteChars_eq_cons (cs : List Char) :
    ∃ c more, quoteChars cs = c :: more ∧ Splitter.isSeparator c = false ∧ c ≠ '#' ∧
      isLive c = false ∧ c ≠ '~' ∧ (c ≠ '\\' ∨ ∃ rest, more = '\'' :: rest) := by
  have hquote_begins : Splitter.isSeparator '\'' = false ∧ '\'' ≠ '#' ∧ isLive '\'' = false ∧
      '\'' ≠ '~' ∧ '\'' ≠ '\\' := by
    decide
  obtain ⟨hsep, hhash, hlive, htilde, hback⟩ := hquote_begins
  cases cs with
  | nil => exact ⟨'\'', ['\''], rfl, hsep, hhash, hlive, htilde, .inl hback⟩
  | cons c cs =>
      have hquoted : quoteChars (c :: cs) = quoteFrom false (c :: cs) := rfl
      rw [hquoted, quoteFrom]
      by_cases hcopied : isCopied c = true
      · obtain ⟨hsep, hhash, -, -, hback, hlive, htilde⟩ := isCopied_plain hcopied
        rw [if_pos hcopied]
        exact ⟨c, _, rfl, hsep, hhash, hlive, htilde, .inl hback⟩
      · by_cases hquote : c = '\''
        · rw [if_neg hcopied, if_pos hquote]
          exact ⟨'\\', _, rfl, by decide, by decide, by decide, by decide, .inr ⟨_, rfl⟩⟩
        · rw [if_neg hcopied, if_neg hquote]
          exact ⟨'\'', _, rfl, hsep, hhash, hlive, htilde, .inl hback⟩

/-- A character that begins a word does it in the way in which a word goes on with it. -/
theorem eat_between {c : Char} (hsep : Splitter.isSeparator c = false) (hhash : c ≠ '#')
    (seen : List String) : eat ⟨seen, .between⟩ c = eat ⟨seen, .word []⟩ c := by
  simp [eat, hsep, hhash]

/-- A quoted text begins a word in the way in which it goes on with one. -/
theorem read?_quoteChars_between (cs rest : List Char) (seen : List String) :
    read? ⟨seen, .between⟩ (quoteChars cs ++ rest) =
      read? ⟨seen, .word []⟩ (quoteChars cs ++ rest) := by
  obtain ⟨c, more, hquoted, hsep, hhash, hlive, htilde, -⟩ := exists_quoteChars_eq_cons cs
  have hacts : Splitter.State.acts .between c = false := by
    simp [Splitter.State.acts, hlive, htilde]
  have hacts_word : Splitter.State.acts (.word []) c = false := hlive
  rw [hquoted, List.cons_append, Splitter.read?_cons hacts, Splitter.read?_cons hacts_word,
    eat_between hsep hhash]

theorem read?_flatMap_quoteChars (parts : List (List Char)) (seen : List String)
    (read : List Char) :
    read? ⟨seen, .word read⟩ (parts.flatMap quoteChars) =
      some ⟨seen, .word (parts.flatten.reverse ++ read)⟩ := by
  induction parts generalizing read with
  | nil => rfl
  | cons part parts ih =>
      rw [List.flatMap_cons, Splitter.read?_append, read?_quoteChars, Option.bind_some, ih,
        List.flatten_cons, List.reverse_append, List.append_assoc]

/-- **Quoted texts without blanks between them** are one word, which holds the texts. -/
theorem reads_flatMap_quoteChars {parts : List (List Char)} (h : parts ≠ []) :
    Reads (parts.flatMap quoteChars) [String.ofList parts.flatten] := by
  intro seen
  obtain ⟨part, parts, rfl⟩ := List.exists_cons_of_ne_nil h
  rw [List.flatMap_cons, List.append_assoc, read?_quoteChars_between, ← List.append_assoc,
    ← List.flatMap_cons, Splitter.read?_append, read?_flatMap_quoteChars, List.append_nil]
  show some (⟨String.ofList (part :: parts).flatten.reverse.reverse :: seen, .between⟩ : Splitter) = _
  rw [List.reverse_reverse]
  rfl

/-- A text of characters that are copied needs no quotes. -/
theorem quoteChars_of_all {cs : List Char} (hne : cs ≠ []) (h : cs.all isCopied = true) :
    quoteChars cs = cs := by
  rw [quoteChars_of_ne_nil hne, quoteFrom_false_of_all h]

/-- **A quoted text** is one word. -/
theorem reads_quoteChars (cs : List Char) : Reads (quoteChars cs) [String.ofList cs] := by
  have h := reads_flatMap_quoteChars (List.cons_ne_nil cs [])
  rwa [List.flatMap_singleton, List.flatten_singleton] at h

theorem reads_quoteChars_toList (word : String) : Reads (quoteChars word.toList) [word] := by
  have h := reads_quoteChars word.toList
  rwa [String.ofList_toList] at h

/-- Any words, each of them quoted. -/
theorem reads_quotedWords (words : List String) :
    Reads (List.intercalate [' '] (words.map fun word => quoteChars word.toList)) words := by
  have h : Reads (List.intercalate [' '] (words.map fun word => quoteChars word.toList))
      (words.map id) := reads_intercalate fun word _ => reads_quoteChars_toList word
  rwa [List.map_id] at h

/-! ## The characters of quoted texts -/

/-- Quoting brings in nothing but quotes and backslashes. -/
theorem mem_quoteFrom {inside : Bool} {c : Char} {cs : List Char} (h : c ∈ quoteFrom inside cs) :
    c ∈ cs ∨ c = '\'' ∨ c = '\\' := by
  induction cs generalizing inside with
  | nil =>
      cases inside with
      | true => exact .inr (.inl (List.mem_singleton.mp h))
      | false => exact absurd h List.not_mem_nil
  | cons d cs ih =>
      have htail : ∀ {inside}, c ∈ quoteFrom inside cs → c ∈ d :: cs ∨ c = '\'' ∨ c = '\\' :=
        fun h => (ih h).imp_left (List.mem_cons_of_mem d)
      rw [quoteFrom] at h
      split at h
      · rcases List.mem_cons.mp h with h | h
        · exact .inl (h ▸ List.mem_cons_self)
        · exact htail h
      · split at h
        · rcases List.mem_append.mp h with h | h
          · cases inside with
            | true =>
                rcases List.mem_cons.mp h with h | h
                · exact .inr (.inl h)
                · exact .inr (by simpa [or_comm] using h)
            | false => exact .inr (by simpa [or_comm] using h)
          · exact htail h
        · rcases List.mem_append.mp h with h | h
          · cases inside with
            | true => exact .inl (List.mem_singleton.mp h ▸ List.mem_cons_self)
            | false =>
                rcases List.mem_cons.mp h with h | h
                · exact .inr (.inl h)
                · exact .inl (List.mem_singleton.mp h ▸ List.mem_cons_self)
          · exact htail h

theorem mem_quoteChars {c : Char} {cs : List Char} (h : c ∈ quoteChars cs) :
    c ∈ cs ∨ c = '\'' ∨ c = '\\' := by
  cases cs with
  | nil =>
      refine .inr (.inl ?_)
      simpa [quoteChars] using h
  | cons d cs => exact mem_quoteFrom h

/-- Quoting leaves out nothing. -/
theorem subset_quoteFrom (inside : Bool) (cs : List Char) : cs ⊆ quoteFrom inside cs := by
  induction cs generalizing inside with
  | nil => exact List.nil_subset _
  | cons d cs ih =>
      intro c hc
      rw [quoteFrom]
      rcases List.mem_cons.mp hc with rfl | htail
      · split
        · exact List.mem_cons_self
        · split
          · next hquote =>
              rw [hquote]
              cases inside <;> simp
          · cases inside <;> simp
      · split
        · exact List.mem_cons_of_mem _ (ih inside htail)
        · split
          · exact List.mem_append_right _ (ih false htail)
          · exact List.mem_append_right _ (ih true htail)

theorem subset_quoteChars (cs : List Char) : cs ⊆ quoteChars cs := by
  cases cs with
  | nil => exact List.nil_subset _
  | cons d cs => exact subset_quoteFrom false (d :: cs)

theorem not_mem_quoteChars {c : Char} (hquote : c ≠ '\'') (hback : c ≠ '\\') {cs : List Char}
    (h : c ∉ cs) : c ∉ quoteChars cs := by
  intro hmem
  rcases mem_quoteChars hmem with hmem | heq | heq
  · exact h hmem
  · exact hquote heq
  · exact hback heq

theorem newline_not_mem_quoteChars {cs : List Char} (h : '\n' ∉ cs) : '\n' ∉ quoteChars cs :=
  not_mem_quoteChars (by decide) (by decide) h

/-! ## Texts that split

A text that comes from somewhere else, such as the value of a variable, may hold more than words. What
is asked of it is that it splits into words, whatever the shell does with it before. -/

/-- **A text is a list of words** in front of a blank. -/
def Splits (text : List Char) (words : List String) : Prop :=
  ∀ seen, (text ++ [' ']).foldl eat ⟨seen, .between⟩ = ⟨words.reverse ++ seen, .between⟩

theorem Reads.splits {text : List Char} {words : List String} (h : Reads text words) :
    Splits text words :=
  fun seen => Splitter.foldl_eat_of_read? (h seen)

theorem splits_nil : Splits [] [] :=
  fun _ => rfl

/-- **A blank between two lists** keeps them apart. -/
theorem Splits.blank {text more : List Char} {words others : List String} (h : Splits text words)
    (h' : Splits more others) : Splits (text ++ ' ' :: more) (words ++ others) := by
  intro seen
  have hsplit : text ++ ' ' :: more ++ [' '] = (text ++ [' ']) ++ (more ++ [' ']) := by simp
  rw [hsplit, List.foldl_append, h, h', List.reverse_append, List.append_assoc]

/-- Words that are joined with blanks. -/
theorem splits_intercalate {α : Type} {text : α → List Char} {word : α → String} {items : List α}
    (h : ∀ item ∈ items, Splits (text item) [word item]) :
    Splits (List.intercalate [' '] (items.map text)) (items.map word) :=
  intercalate_of_blank splits_nil (fun h h' => h.blank h') h

/-- **The whole splitter** reads such a text as its words. -/
theorem words?_of_splits {text : List Char} {words : List String} (h : Splits text words) :
    words? (String.ofList text) = some words := by
  have hblank := h []
  rw [List.foldl_append, List.append_nil] at hblank
  rw [words?_ofList]
  exact finish?_of_eat_blank hblank

/-- **Quoted texts without blanks between them** are one word, which holds the texts. -/
theorem splits_flatMap_quoteChars {parts : List (List Char)} (h : parts ≠ []) :
    Splits (parts.flatMap quoteChars) [String.ofList parts.flatten] :=
  (reads_flatMap_quoteChars h).splits

theorem splits_quoteChars_toList (word : String) : Splits (quoteChars word.toList) [word] :=
  (reads_quoteChars_toList word).splits

/-- Any words, each of them quoted. -/
theorem splits_quotedWords (words : List String) :
    Splits (List.intercalate [' '] (words.map fun word => quoteChars word.toList)) words :=
  (reads_quotedWords words).splits

end MakeGraph.Shell
