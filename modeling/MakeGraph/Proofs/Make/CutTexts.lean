import MakeGraph.Proofs.Make.Assigned

/-!
# `Proofs.Make.CutTexts` — where the value of a variable ends in a quoted text

A word in the value of a variable is quoted for the shell, but make reads its line first, which knows no
quotes: the value ends with the line, or where a comment begins. Quoting leaves no character bare at
which that happens, so make ends the value between quotes, and nothing closes them.

So there are only two outcomes (`leaves_quoteFrom`). If the value does not end in a quoted text, the
shell reads all of it, except for the backslashes that make has taken for the quote of a `#`. If it does,
the shell is left inside of the quotes.

## Contents

* `lineValue` — what make takes for the value
* `isCut` — the texts in which a value ends
* `Leaves`, `leaves_between`, `leaves_quote`, `leaves_copied`, `leaves_opened` — what is left of a text,
  character by character
* `leaves_quoteFrom`, `leaves_parts` — the main result, for one quoted text and for several
-/

namespace MakeGraph.Make

open Shell (Splitter isCopied quoteChars quoteFrom wordState)
open Shell.Splitter (eat)

/-! ## The end of a value -/

/-- The rest of a line without its comment, behind `n` backslashes. -/
def lineValue (n : Nat) (text : List Char) : List Char :=
  dropComment n (text.takeWhile (· ≠ '\n'))

/-- Whether a value ends at a character behind `n` backslashes: with the line, or with a comment. -/
def endsValue (n : Nat) (c : Char) : Bool :=
  c = '\n' || (c = '#' && n % 2 = 0)

/-- What is settled by a character behind `n` backslashes that does not end the value, and the backslashes
    that wait for what follows. -/
def settled (n : Nat) (c : Char) : List Char × Nat :=
  if c = '\\' then ([], n + 1)
  else (List.replicate (if c = '#' then n / 2 else n) '\\' ++ [c], 0)

/-- **A text in which the value ends**, behind `n` backslashes. -/
def isCut : Nat → List Char → Bool
  | _, [] => false
  | n, c :: cs => endsValue n c || isCut (settled n c).2 cs

example : isCut 0 "-DCOLOR=#fff".toList = true := by decide
example : isCut 0 "-DCOLOR=\\#fff".toList = false := by decide

section Steps

variable {n : Nat} {c : Char}

theorem dropComment_cons (h : endsValue n c = false) (cs : List Char) :
    dropComment n (c :: cs) = (settled n c).1 ++ dropComment (settled n c).2 cs := by
  simp only [endsValue, Bool.or_eq_false_iff, decide_eq_false_iff_not, Bool.and_eq_false_imp,
    decide_eq_true_eq] at h
  rw [dropComment, settled]
  by_cases hback : c = '\\'
  · rw [if_pos hback, if_pos hback]
    rfl
  · rw [if_neg hback, if_neg hback]
    by_cases hhash : c = '#'
    · rw [if_pos hhash, if_pos hhash, if_neg (h.2 hhash), List.append_assoc, hhash]
      rfl
    · rw [if_neg hhash, if_neg hhash, List.append_assoc]
      rfl

theorem lineValue_cons (h : endsValue n c = false) (text : List Char) :
    lineValue n (c :: text) = (settled n c).1 ++ lineValue (settled n c).2 text := by
  have hnewline : c ≠ '\n' := by
    rintro rfl
    cases h
  rw [lineValue, List.takeWhile_cons_of_pos (by simpa using hnewline), dropComment_cons h]
  rfl

/-- Where the value ends, there are backslashes left at most. -/
theorem lineValue_cons_of_ends (h : endsValue n c = true) (text : List Char) :
    ∃ k, lineValue n (c :: text) = List.replicate k '\\' := by
  by_cases hnewline : c = '\n'
  · refine ⟨n, ?_⟩
    rw [lineValue, List.takeWhile_cons_of_neg (by simpa using hnewline)]
    rfl
  · obtain ⟨rfl, heven⟩ : c = '#' ∧ n % 2 = 0 := by simpa [endsValue, hnewline] using h
    refine ⟨n / 2, ?_⟩
    rw [lineValue, List.takeWhile_cons_of_pos (by decide), dropComment, if_neg (by decide),
      if_pos rfl, if_pos heven, List.append_nil]

/-- A character that is neither a backslash nor ends a value settles the backslashes before it. -/
theorem settled_of_ne (hback : c ≠ '\\') (hhash : c ≠ '#') (n : Nat) :
    settled n c = (List.replicate n '\\' ++ [c], 0) := by
  rw [settled, if_neg hback, if_neg hhash]

theorem endsValue_of_ne (hnewline : c ≠ '\n') (hhash : c ≠ '#') (n : Nat) : endsValue n c = false := by
  simp [endsValue, hnewline, hhash]

theorem lineValue_of_ne (hnewline : c ≠ '\n') (hback : c ≠ '\\') (hhash : c ≠ '#') (n : Nat)
    (text : List Char) :
    lineValue n (c :: text) = List.replicate n '\\' ++ c :: lineValue 0 text := by
  rw [lineValue_cons (endsValue_of_ne hnewline hhash n), settled_of_ne hback hhash,
    List.append_assoc]
  rfl

end Steps

/-! ## Quoted texts -/

/-- **What is left of a quoted text** in front of `tail`, for a splitter in front of it: open quotes, or
    a word of which `read` is read, last character first. -/
def Leaves (seen : List String) (tail : List Char) (s : Splitter) (text : List Char) :
    Option (List Char) → Prop
  | none => ∃ read, text.foldl eat s = ⟨seen, .single read⟩
  | some read => ∃ first, text = first ++ tail ∧ first.foldl eat s = ⟨seen, .word read⟩

section Quoted

variable {seen : List String} {tail : List Char}

theorem Leaves.behind {s s' : Splitter} {lead text : List Char} {left : Option (List Char)}
    (h : Leaves seen tail s' text left) (hlead : lead.foldl eat s = s') :
    Leaves seen tail s (lead ++ text) left := by
  cases left with
  | none =>
      obtain ⟨read, hread⟩ := h
      exact ⟨read, by rw [List.foldl_append, hlead, hread]⟩
  | some read =>
      obtain ⟨first, rfl, hread⟩ := h
      exact ⟨lead ++ first, (List.append_assoc _ _ _).symm, by rw [List.foldl_append, hlead, hread]⟩

theorem foldl_eat_single {cs : List Char} (h : '\'' ∉ cs) (seen : List String) (read : List Char) :
    cs.foldl eat ⟨seen, .single read⟩ = ⟨seen, .single (cs.reverse ++ read)⟩ := by
  induction cs generalizing read with
  | nil => rfl
  | cons c cs ih =>
      obtain ⟨hc, hcs⟩ := not_or.mp (mt List.mem_cons.mpr h)
      rw [List.foldl_cons, Shell.eat_single seen read (Ne.symm hc), ih hcs, List.reverse_cons,
        List.append_assoc]
      rfl

theorem foldl_eat_backslashes (n : Nat) (seen : List String) (read : List Char) :
    (List.replicate n '\\').foldl eat ⟨seen, .single read⟩ =
      ⟨seen, .single (List.replicate n '\\' ++ read)⟩ := by
  have hquote : '\'' ∉ List.replicate n '\\' := fun hmem =>
    absurd (List.eq_of_mem_replicate hmem) (by decide)
  rw [foldl_eat_single hquote, List.reverse_replicate]

/-- What is left of a text of which a character has been passed by. -/
def keptBehind (n : Nat) (cs read : List Char) : Option (List Char) :=
  if isCut n cs then none else some ((dropComment n cs).reverse ++ read)

theorem keptBehind_cons {n : Nat} {c : Char} (h : endsValue n c = false) (cs read : List Char) :
    keptBehind n (c :: cs) read =
      keptBehind (settled n c).2 cs ((settled n c).1.reverse ++ read) := by
  unfold keptBehind
  rw [isCut, h, Bool.false_or, dropComment_cons h, List.reverse_append, List.append_assoc]

/-- **One character between quotes** settles the backslashes before it, waits with them for what follows,
    or ends the value. -/
theorem leaves_between {n : Nat} {c : Char} {cs text read : List Char} (hquote : c ≠ '\'')
    (h : ∀ n read, Leaves seen tail ⟨seen, .single read⟩ (lineValue n text) (keptBehind n cs read)) :
    Leaves seen tail ⟨seen, .single read⟩ (lineValue n (c :: text)) (keptBehind n (c :: cs) read) := by
  cases hends : endsValue n c with
  | true =>
      obtain ⟨k, hvalue⟩ := lineValue_cons_of_ends hends text
      have hcut : keptBehind n (c :: cs) read = none := by
        rw [keptBehind, isCut, hends, Bool.true_or, if_pos rfl]
      rw [hvalue, hcut]
      exact ⟨_, foldl_eat_backslashes k seen read⟩
  | false =>
      have hsettled : '\'' ∉ (settled n c).1 := by
        rw [settled]
        split
        · exact List.not_mem_nil
        · intro hmem
          rcases List.mem_append.mp hmem with hmem | hmem
          · exact absurd (List.eq_of_mem_replicate hmem) (by decide)
          · exact hquote (List.mem_singleton.mp hmem).symm
      rw [lineValue_cons hends, keptBehind_cons hends]
      exact (h _ _).behind (foldl_eat_single hsettled seen read)

/-- **A quote in a quoted text** stands behind a backslash and outside of the quotes. -/
theorem leaves_quote (inside : Bool) {n : Nat} (hn : inside = false → n = 0)
    {cs text read : List Char}
    (h : ∀ read, Leaves seen tail ⟨seen, .word read⟩ (lineValue 0 text) (keptBehind 0 cs read)) :
    Leaves seen tail ⟨seen, wordState inside read⟩
      (lineValue n ((if inside then ['\'', '\\', '\''] else ['\\', '\'']) ++ text))
      (keptBehind n ('\'' :: cs) read) := by
  have hplain : ∀ n, endsValue n '\'' = false := endsValue_of_ne (by decide) (by decide)
  have hsettled : ∀ n, settled n '\'' = (List.replicate n '\\' ++ ['\''], 0) :=
    settled_of_ne (by decide) (by decide)
  have hescaped : lineValue 0 ('\\' :: '\'' :: text) = ['\\', '\''] ++ lineValue 0 text := by
    rw [lineValue_cons (by decide)]
    exact lineValue_of_ne (by decide) (by decide) (by decide) 1 text
  rw [keptBehind_cons (hplain n), hsettled]
  cases inside with
  | true =>
      have hread : (List.replicate n '\\' ++ ['\'', '\\', '\'']).foldl eat ⟨seen, .single read⟩ =
          ⟨seen, .word ('\'' :: (List.replicate n '\\' ++ read))⟩ := by
        rw [List.foldl_append, foldl_eat_backslashes]
        rfl
      have hvalue : lineValue n (['\'', '\\', '\''] ++ text) =
          (List.replicate n '\\' ++ ['\'', '\\', '\'']) ++ lineValue 0 text := by
        show lineValue n ('\'' :: '\\' :: '\'' :: text) = _
        rw [lineValue_of_ne (by decide) (by decide) (by decide), hescaped, List.append_assoc]
        rfl
      rw [if_pos rfl, hvalue]
      refine Leaves.behind ?_ hread
      simpa using h ('\'' :: (List.replicate n '\\' ++ read))
  | false =>
      obtain rfl := hn rfl
      have hread : ['\\', '\''].foldl eat ⟨seen, .word read⟩ = ⟨seen, .word ('\'' :: read)⟩ := rfl
      show Leaves seen tail ⟨seen, .word read⟩ (lineValue 0 ('\\' :: '\'' :: text)) _
      rw [hescaped]
      exact (h ('\'' :: read)).behind hread

/-- **The end of a quoted text** closes the quotes that are open. -/
theorem leaves_end (inside : Bool) {n : Nat} (hn : inside = false → n = 0) (read : List Char) :
    Leaves seen (lineValue 0 tail) ⟨seen, wordState inside read⟩
      (lineValue n (quoteFrom inside [] ++ tail)) (keptBehind n [] read) := by
  have hkept : keptBehind n [] read = some (List.replicate n '\\' ++ read) := by
    simp [keptBehind, isCut, dropComment]
  rw [hkept]
  cases inside with
  | true =>
      refine ⟨List.replicate n '\\' ++ ['\''], ?_, ?_⟩
      · show lineValue n ('\'' :: tail) = _
        rw [lineValue_of_ne (by decide) (by decide) (by decide), List.append_assoc]
        rfl
      · show (List.replicate n '\\' ++ ['\'']).foldl eat ⟨seen, .single read⟩ = _
        rw [List.foldl_append, foldl_eat_backslashes]
        rfl
  | false =>
      obtain rfl := hn rfl
      exact ⟨[], rfl, rfl⟩

section Outside

variable {c : Char} {cs text read : List Char}

/-- **A character outside of quotes** is one that means nothing to make either. -/
theorem leaves_copied (hcopied : isCopied c = true)
    (h : ∀ read, Leaves seen tail ⟨seen, .word read⟩ (lineValue 0 text) (keptBehind 0 cs read)) :
    Leaves seen tail ⟨seen, .word read⟩ (lineValue 0 (c :: text)) (keptBehind 0 (c :: cs) read) := by
  obtain ⟨hsep, hhash, -, -, hback, -⟩ := Shell.isCopied_plain hcopied
  have hnewline : c ≠ '\n' := by
    rintro rfl
    cases hsep
  have hread : [c].foldl eat ⟨seen, .word read⟩ = ⟨seen, .word (c :: read)⟩ :=
    Shell.eat_word seen read hcopied
  rw [lineValue_of_ne hnewline hback hhash, keptBehind_cons (endsValue_of_ne hnewline hhash 0),
    settled_of_ne hback hhash]
  exact (h (c :: read)).behind hread

/-- **Quotes that open** before a character have it between them. -/
theorem leaves_opened (hquote : c ≠ '\'')
    (h : ∀ n read, Leaves seen tail ⟨seen, .single read⟩ (lineValue n text) (keptBehind n cs read)) :
    Leaves seen tail ⟨seen, .word read⟩ (lineValue 0 ('\'' :: c :: text))
      (keptBehind 0 (c :: cs) read) := by
  have hread : ['\''].foldl eat ⟨seen, .word read⟩ = ⟨seen, .single read⟩ := rfl
  have hvalue : lineValue 0 ('\'' :: c :: text) = ['\''] ++ lineValue 0 (c :: text) :=
    lineValue_of_ne (by decide) (by decide) (by decide) 0 _
  rw [hvalue]
  exact (leaves_between hquote h).behind hread

end Outside

/-- **What make leaves of a quoted text** behind `n` backslashes of it, by induction on the text, over both
    sides of the quotes: a whole text if its value does not end in it, and open quotes if it does. -/
theorem leaves_quoteFrom (inside : Bool) (cs : List Char) {n : Nat} (hn : inside = false → n = 0)
    (read : List Char) :
    Leaves seen (lineValue 0 tail) ⟨seen, wordState inside read⟩
      (lineValue n (quoteFrom inside cs ++ tail)) (keptBehind n cs read) := by
  induction cs generalizing inside n read with
  | nil => exact leaves_end inside hn read
  | cons c cs ih =>
      have hinside : ∀ n read, Leaves seen (lineValue 0 tail) ⟨seen, .single read⟩
          (lineValue n (quoteFrom true cs ++ tail)) (keptBehind n cs read) := by
        intro n read
        exact ih true (fun h => by cases h) read
      have houtside : ∀ read, Leaves seen (lineValue 0 tail) ⟨seen, .word read⟩
          (lineValue 0 (quoteFrom false cs ++ tail)) (keptBehind 0 cs read) := by
        intro read
        exact ih false (fun _ => rfl) read
      rw [quoteFrom]
      by_cases hcopied : isCopied c = true
      · -- it is written as it is, on the side where the text stands
        rw [if_pos hcopied]
        cases inside with
        | true => exact leaves_between (Shell.isCopied_plain hcopied).2.2.2.1 hinside
        | false =>
            obtain rfl := hn rfl
            exact leaves_copied hcopied houtside
      · by_cases hquote : c = '\''
        · -- a quote leaves the text outside of quotes
          subst hquote
          rw [if_neg hcopied, if_pos rfl, List.append_assoc]
          exact leaves_quote inside hn houtside
        · -- and all others leave it between quotes
          rw [if_neg hcopied, if_neg hquote]
          cases inside with
          | true => exact leaves_between hquote hinside
          | false =>
              obtain rfl := hn rfl
              exact leaves_opened hquote hinside

/-- A quoted text in a word. -/
theorem leaves_quoteChars (seen : List String) (cs tail read : List Char) :
    Leaves seen (lineValue 0 tail) ⟨seen, .word read⟩ (lineValue 0 (quoteChars cs ++ tail))
      (keptBehind 0 cs read) := by
  cases cs with
  | nil =>
      refine ⟨['\'', '\''], ?_, rfl⟩
      show lineValue 0 ('\'' :: '\'' :: tail) = _
      rw [lineValue_of_ne (by decide) (by decide) (by decide),
        lineValue_of_ne (by decide) (by decide) (by decide)]
      rfl
  | cons c cs => exact leaves_quoteFrom false (c :: cs) (fun _ => rfl) read

/-- Quoted texts in a word, one behind the other. -/
theorem leaves_parts (seen : List String) (parts : List (List Char)) (tail read : List Char) :
    Leaves seen (lineValue 0 tail) ⟨seen, .word read⟩
      (lineValue 0 (parts.flatMap quoteChars ++ tail))
      (if parts.any (isCut 0) then none else some ((parts.flatMap (dropComment 0)).reverse ++ read)) := by
  induction parts generalizing read with
  | nil => exact ⟨[], rfl, rfl⟩
  | cons part parts ih =>
      have hpart := leaves_quoteChars seen part (parts.flatMap quoteChars ++ tail) read
      rw [List.flatMap_cons, List.flatMap_cons, List.append_assoc, List.any_cons]
      cases hcut : isCut 0 part with
      | true =>
          rw [keptBehind, if_pos hcut] at hpart
          exact hpart
      | false =>
          rw [keptBehind, hcut, if_neg (by decide)] at hpart
          obtain ⟨first, hfirst, hread⟩ := hpart
          rw [hfirst, Bool.false_or, List.reverse_append, List.append_assoc]
          exact (ih _).behind hread

/-- A quoted text begins a word in the way in which it goes on with one, also where make cuts it. -/
theorem foldl_eat_lineValue_between (cs tail : List Char) (seen : List String) :
    (lineValue 0 (quoteChars cs ++ tail)).foldl eat ⟨seen, .between⟩ =
      (lineValue 0 (quoteChars cs ++ tail)).foldl eat ⟨seen, .word []⟩ := by
  obtain ⟨c, more, hquoted, hsep, hhash, -, -, hback⟩ := Shell.exists_quoteChars_eq_cons cs
  have hnewline : c ≠ '\n' := by
    rintro rfl
    cases hsep
  have hfirst : ∃ rest, lineValue 0 (quoteChars cs ++ tail) = c :: rest := by
    rw [hquoted, List.cons_append]
    by_cases hc : c = '\\'
    · obtain ⟨rest, rfl⟩ := hback.resolve_left fun h => h hc
      subst hc
      rw [lineValue_cons (by decide), List.cons_append]
      exact ⟨_, lineValue_of_ne (by decide) (by decide) (by decide) 1 _⟩
    · exact ⟨_, lineValue_of_ne hnewline hc hhash 0 _⟩
  obtain ⟨rest, hrest⟩ := hfirst
  rw [hrest, List.foldl_cons, List.foldl_cons, Shell.eat_between hsep hhash]

end Quoted

end MakeGraph.Make
