import MakeGraph.Proofs.Make.ArgumentText

/-!
# `Proofs.Make.ArgumentWords` — the words of one argument of a call

The words of an argument are read back from its whole text, whatever is in them: the doubled dollars and
the commas of `$,` are gone behind the expansion, and the quotes behind the shell (`words?_argText`).

They are not read back from less or more than this text. A comma or parenthesis that ends an argument
stands between quotes, and these are open at the end of it (`exists_cut`). A parenthesis that is left open
swallows the comma behind the argument, so its last word is too long (`words?_append_comma_ne`).

## Contents

* `Opening`, `exists_opening` — the text of a word that goes on
* `foldl_eat_quoteChars` — what the shell reads of it
* `words?_argText` — one argument
* `exists_cut`, `words?_append_comma_ne` — less and more than one argument
-/

namespace MakeGraph.Make

open Shell (Splitter quoteChars quoteFrom words? wordState)
open Shell.Splitter (eat)

/-! ## A word that goes on -/


section Reading

variable {value : String → List Char}


/-- **A text that a quoted word begins with**: it is written for `cs`, begun inside of quotes or outside,
    and the word goes on at `side`. Behind the expansion it is read as `cs`. -/
structure Opening (value : String → List Char) (inside : Bool) (cs text : List Char) (side : Bool) :
    Prop where
  written : ∀ ds, quoteFrom inside (inCall cs ++ ds) = text ++ quoteFrom side ds
  read : ∀ seen read rest, (expand value (text ++ rest)).foldl eat ⟨seen, wordState inside read⟩ =
    (expand value rest).foldl eat ⟨seen, wordState side (cs.reverse ++ read)⟩

theorem Opening.append {inside side side' : Bool} {cs ds text more : List Char}
    (h : Opening value inside cs text side) (h' : Opening value side ds more side') :
    Opening value inside (cs ++ ds) (text ++ more) side' where
  written := by
    intro es
    rw [inCall_append, List.append_assoc, h.written, h'.written, List.append_assoc]
  read := by
    intro seen read rest
    rw [List.append_assoc, h.read, h'.read, List.reverse_append, List.append_assoc]

/-- Between quotes everything but a quote is written as it is. -/
theorem opening_inside (hcomma : value "," = [',']) {c : Char} (hc : c ≠ '\'') :
    Opening value true [c] (inCall [c]) true where
  written := by
    refine Shell.quoteFrom_true_append ?_
    rw [inCall_singleton]
    split
    · decide
    · split
      · decide
      · exact fun hmem => hc (List.mem_singleton.mp hmem).symm
  read := by
    intro seen read rest
    rw [expand_inCall_append hcomma, List.singleton_append, List.foldl_cons]
    exact congrArg (fun s => (expand value rest).foldl eat s) (Shell.eat_single seen read hc)

/-- **What opens quotes** outside of them is written behind a quote. -/
theorem Opening.quoted {cs text : List Char} {side : Bool} (h : Opening value true cs text side)
    {c : Char} {more : List Char} (hcs : inCall cs = c :: more) (hcopied : ¬Shell.isCopied c = true)
    (hquote : c ≠ '\'') : Opening value false cs ('\'' :: text) side where
  written := by
    intro ds
    have hopened := h.written ds
    rw [hcs, List.cons_append, quoteFrom, if_neg hcopied, if_neg hquote] at hopened
    rw [hcs, List.cons_append, quoteFrom, if_neg hcopied, if_neg hquote, List.cons_append, ← hopened]
    rfl
  read := by
    intro seen read rest
    rw [List.cons_append, expand_cons value (by decide), List.foldl_cons]
    exact h.read seen read rest

/-- One character of a word. -/
theorem exists_opening_singleton (hcomma : value "," = [',']) (inside : Bool) (c : Char) :
    ∃ text side, Opening value inside [c] text side := by
  by_cases hquote : c = '\''
  · subst hquote
    cases inside with
    | true => exact ⟨['\'', '\\', '\''], false, fun ds => rfl, fun seen read rest => rfl⟩
    | false => exact ⟨['\\', '\''], false, fun ds => rfl, fun seen read rest => rfl⟩
  · have hinside := opening_inside hcomma hquote
    cases inside with
    | true => exact ⟨_, _, hinside⟩
    | false =>
        by_cases hdollar : c = '$'
        · have htext : inCall [c] = ['$', '$'] := by rw [inCall_singleton, if_pos hdollar]
          exact ⟨_, _, hinside.quoted htext (by decide) (by decide)⟩
        · by_cases hc : c = ','
          · have htext : inCall [c] = ['$', ','] := by
              rw [inCall_singleton, if_neg hdollar, if_pos hc]
            exact ⟨_, _, hinside.quoted htext (by decide) (by decide)⟩
          · have htext : inCall [c] = [c] := by rw [inCall_singleton, if_neg hdollar, if_neg hc]
            by_cases hcopied : Shell.isCopied c = true
            · refine ⟨[c], false, fun ds => ?_, fun seen read rest => ?_⟩
              · rw [htext, List.singleton_append, quoteFrom, if_pos hcopied, List.singleton_append]
              · rw [List.singleton_append, expand_cons value hdollar, List.foldl_cons]
                exact congrArg (fun s => (expand value rest).foldl eat s)
                  (Shell.eat_word seen read hcopied)
            · exact ⟨_, _, hinside.quoted htext hcopied hquote⟩

/-- **Every text** begins a word in some way. The induction is on the text, over both sides of the quotes. -/
theorem exists_opening (hcomma : value "," = [',']) (inside : Bool) (cs : List Char) :
    ∃ text side, Opening value inside cs text side := by
  induction cs generalizing inside with
  | nil => exact ⟨[], inside, fun ds => rfl, fun seen read rest => rfl⟩
  | cons c cs ih =>
      obtain ⟨first, side, hfirst⟩ := exists_opening_singleton hcomma inside c
      obtain ⟨text, side', htext⟩ := ih side
      exact ⟨first ++ text, side', hfirst.append htext⟩

theorem Opening.filter_eq {inside side : Bool} {cs text : List Char}
    (h : Opening value inside cs text side) :
    text.filter isBracketing = cs.filter isBracketing := by
  have hwritten := congrArg (List.filter isBracketing) (h.written [])
  rw [List.append_nil, filter_quoteFrom, filter_inCall, List.filter_append, filter_quoteFrom,
    List.filter_nil, List.append_nil] at hwritten
  exact hwritten.symm

/-- **The whole word** is read back, and the splitter is outside of quotes again. -/
theorem foldl_eat_quoteFrom (hcomma : value "," = [',']) (inside : Bool) (cs rest : List Char)
    (seen : List String) (read : List Char) :
    (expand value (quoteFrom inside (inCall cs) ++ rest)).foldl eat ⟨seen, wordState inside read⟩ =
      (expand value rest).foldl eat ⟨seen, .word (cs.reverse ++ read)⟩ := by
  obtain ⟨text, side, h⟩ := exists_opening hcomma inside cs
  have hwritten := h.written []
  rw [List.append_nil] at hwritten
  rw [hwritten, List.append_assoc, h.read]
  cases side with
  | true => rfl
  | false => rfl

/-- The text of a word begins it in the way in which it goes on with one. -/
theorem foldl_eat_between {cs text : List Char} (h : text.head? = (quoteChars cs).head?)
    (seen : List String) :
    (expand value text).foldl eat ⟨seen, .between⟩ =
      (expand value text).foldl eat ⟨seen, .word []⟩ := by
  obtain ⟨c, more, hquoted, hsep, hhash, hlive, -⟩ := Shell.exists_quoteChars_eq_cons cs
  rw [hquoted, List.head?_cons] at h
  obtain ⟨rest, rfl⟩ := List.head?_eq_some_iff.mp h
  have hdollar : c ≠ '$' := by
    rintro rfl
    revert hlive
    decide
  rw [expand_cons value hdollar, List.foldl_cons, List.foldl_cons, Shell.eat_between hsep hhash]

theorem foldl_eat_quoteChars (hcomma : value "," = [',']) (word : String) (rest : List Char)
    (seen : List String) :
    (expand value (quoteChars (inCall word.toList) ++ rest)).foldl eat ⟨seen, .between⟩ =
      (expand value rest).foldl eat ⟨seen, .word word.toList.reverse⟩ := by
  obtain ⟨c, more, hquoted, -⟩ := Shell.exists_quoteChars_eq_cons (inCall word.toList)
  have hhead : (quoteChars (inCall word.toList) ++ rest).head? =
      (quoteChars (inCall word.toList)).head? := by
    rw [hquoted]
    rfl
  rw [foldl_eat_between hhead]
  by_cases hnil : word.toList = []
  · rw [hnil]
    rfl
  · have hread := foldl_eat_quoteFrom hcomma false word.toList rest seen []
    rw [List.append_nil] at hread
    rw [Shell.quoteChars_of_ne_nil (inCall_ne_nil hnil)]
    exact hread

/-! ## One argument -/

/-- The words before one that is looked at, each with the blank behind it. -/
def spaced (words : List String) : List Char :=
  words.flatMap fun word => quoteChars (inCall word.toList) ++ [' ']

theorem spaced_cons (word : String) (words : List String) :
    spaced (word :: words) = quoteChars (inCall word.toList) ++ [' '] ++ spaced words :=
  List.flatMap_cons

theorem filter_spaced (words : List String) :
    (spaced words).filter isBracketing = (words.flatMap String.toList).filter isBracketing := by
  have hblank : ∀ word : String, (quoteChars (inCall word.toList) ++ [' ']).filter isBracketing =
      word.toList.filter isBracketing := by
    intro word
    rw [List.filter_append, filter_word]
    exact List.append_nil _
  rw [spaced, List.filter_flatMap, List.filter_flatMap]
  simp only [hblank]

theorem argText_append (before after : List String) (word : String) :
    argText (before ++ word :: after) = spaced before ++ argText (word :: after) := by
  induction before with
  | nil => rfl
  | cons first before ih =>
      obtain ⟨next, more, hnext⟩ : ∃ next more, before ++ word :: after = next :: more :=
        List.exists_cons_of_ne_nil (by simp)
      have hcons : argText (first :: next :: more) =
          quoteChars (inCall first.toList) ++ [' '] ++ argText (next :: more) :=
        List.intercalate_cons_cons
      rw [List.cons_append, hnext, hcons, ← hnext, ih, spaced_cons, List.append_assoc _ (spaced before)]

/-- **Words in front of others** are finished. -/
theorem foldl_eat_spaced (hcomma : value "," = [',']) (words seen : List String) (rest : List Char) :
    (expand value (spaced words ++ rest)).foldl eat ⟨seen, .between⟩ =
      (expand value rest).foldl eat ⟨words.reverse ++ seen, .between⟩ := by
  induction words generalizing seen with
  | nil => rfl
  | cons word words ih =>
      have hcons : spaced (word :: words) ++ rest =
          quoteChars (inCall word.toList) ++ ' ' :: (spaced words ++ rest) := by
        rw [spaced_cons, List.append_assoc, List.append_assoc]
        rfl
      rw [hcons, foldl_eat_quoteChars hcomma, expand_cons value (by decide), List.foldl_cons]
      have hfinished : eat ⟨seen, .word word.toList.reverse⟩ ' ' = ⟨word :: seen, .between⟩ := by
        show (⟨String.ofList word.toList.reverse.reverse :: seen, .between⟩ : Splitter) = _
        rw [List.reverse_reverse, String.ofList_toList]
      rw [hfinished, ih, List.reverse_cons, List.append_assoc]
      rfl

/-- **What is read of an argument** in front of any text: its last word is open. -/
theorem foldl_eat_argText (hcomma : value "," = [',']) (before : List String) (word : String)
    (rest : List Char) :
    (expand value (argText (before ++ [word]) ++ rest)).foldl eat ⟨[], .between⟩ =
      (expand value rest).foldl eat ⟨before.reverse, .word word.toList.reverse⟩ := by
  rw [argText_append, argText_cons, List.flatMap_nil, List.append_nil, List.append_assoc,
    foldl_eat_spaced hcomma, List.append_nil, foldl_eat_quoteChars hcomma]

/-- **The words of an argument** are read back from all of it. -/
theorem words?_argText (hcomma : value "," = [',']) (words : List String) :
    words? (String.ofList (expand value (argText words))) = some words := by
  rcases List.eq_nil_or_concat words with rfl | ⟨before, word, rfl⟩
  · rfl
  · have hread := foldl_eat_argText hcomma before word []
    rw [List.append_nil] at hread
    rw [List.concat_eq_append, Shell.words?_ofList, hread]
    show some (String.ofList word.toList.reverse.reverse :: before.reverse).reverse = _
    rw [List.reverse_reverse, String.ofList_toList, List.reverse_cons, List.reverse_reverse]

/-- **An argument that goes on** with a comma has another last word. -/
theorem words?_append_comma_ne (hcomma : value "," = [',']) {words : List String} (hne : words ≠ [])
    (rest : List Char) :
    words? (String.ofList (expand value (argText words ++ ',' :: rest))) ≠ some words := by
  obtain ⟨before, word, rfl⟩ := (List.eq_nil_or_concat words).resolve_left hne
  rw [List.concat_eq_append, Shell.words?_ofList, foldl_eat_argText hcomma,
    expand_cons value (by decide), List.foldl_cons]
  intro hfinish
  have hlonger : (eat ⟨before.reverse, .word word.toList.reverse⟩ ',').state.begun? =
      some (',' :: word.toList.reverse) := rfl
  obtain ⟨found, more, hwords, hlength⟩ := Shell.exists_word_of_begun hlonger hfinish
  have hbefore : (eat ⟨before.reverse, .word word.toList.reverse⟩ ',').words.reverse = before :=
    List.reverse_reverse before
  rw [hbefore] at hwords
  have hfound : word = found := (List.cons.inj (List.append_cancel_left hwords)).1
  rw [List.length_cons, List.length_reverse, hfound] at hlength
  omega

/-- A text that ends an argument or the call has a first character that does it. -/
theorem exists_of_depthAfter?_eq_none {depth : Nat} {cs : List Char}
    (h : depthAfter? depth cs = none) :
    ∃ lead c rest, cs = lead ++ c :: rest ∧ depthAfter? depth lead = some 0 ∧ (c = ')' ∨ c = ',') := by
  induction cs generalizing depth with
  | nil => cases h
  | cons c cs ih =>
      -- this character does not end anything, so a later one does
      have hlater : ∀ {depth'}, (∀ lead, depthAfter? depth (c :: lead) = depthAfter? depth' lead) →
          ∃ lead d rest, c :: cs = lead ++ d :: rest ∧ depthAfter? depth lead = some 0 ∧
            (d = ')' ∨ d = ',') := by
        intro depth' hstep
        rw [hstep] at h
        obtain ⟨lead, d, rest, hcs, hlead, hd⟩ := ih h
        exact ⟨c :: lead, d, rest, by rw [hcs, List.cons_append], by rw [hstep, hlead], hd⟩
      by_cases hopen : c = '('
      · exact hlater fun lead => by rw [depthAfter?, if_pos hopen]
      · by_cases hclose : c = ')'
        · by_cases hzero : depth = 0
          · exact ⟨[], c, cs, rfl, by rw [hzero, depthAfter?], .inl hclose⟩
          · exact hlater fun lead => by rw [depthAfter?, if_neg hopen, if_pos hclose, if_neg hzero]
        · by_cases hcomma : c = ',' ∧ depth = 0
          · exact ⟨[], c, cs, rfl, by rw [hcomma.2, depthAfter?], .inr hcomma.1⟩
          · exact hlater fun lead => by rw [depthAfter?, if_neg hopen, if_neg hclose, if_neg hcomma]

/-- The word in which an argument ends. -/
theorem exists_word_of_depthAfter?_eq_none {depth : Nat} {words : List String}
    (h : depthAfter? depth (words.flatMap String.toList) = none) :
    ∃ before word after lead c rest, words = before ++ word :: after ∧
      word.toList = lead ++ c :: rest ∧
      depthAfter? depth (before.flatMap String.toList ++ lead) = some 0 ∧ (c = ')' ∨ c = ',') := by
  induction words generalizing depth with
  | nil => cases h
  | cons word words ih =>
      rw [List.flatMap_cons, depthAfter?_append] at h
      cases hdepth : depthAfter? depth word.toList with
      | none =>
          obtain ⟨lead, c, rest, hword, hlead, hc⟩ := exists_of_depthAfter?_eq_none hdepth
          exact ⟨[], word, words, lead, c, rest, rfl, hword, hlead, hc⟩
      | some depth' =>
          rw [hdepth, Option.bind_some] at h
          obtain ⟨before, bad, after, lead, c, rest, hwords, hbad, hlead, hc⟩ := ih h
          refine ⟨word :: before, bad, after, lead, c, rest, by rw [hwords, List.cons_append], hbad, ?_, hc⟩
          rw [List.flatMap_cons, List.append_assoc, depthAfter?_append, hdepth, Option.bind_some, hlead]

/-- **In front of a comma or parenthesis** the quotes are open. -/
theorem exists_quoteFrom_eq (value : String → List Char) {c : Char} (hc : c = ')' ∨ c = ',')
    (side : Bool) (cs : List Char) :
    ∃ cut rest, quoteFrom side (inCall (c :: cs)) = cut ++ c :: rest ∧
      cut.filter isBracketing = [] ∧
      ∀ seen read, ∃ held, (expand value cut).foldl eat ⟨seen, wordState side read⟩ =
        ⟨seen, .single held⟩ := by
  rcases hc with rfl | rfl
  · cases side with
    | true => exact ⟨[], quoteFrom true (inCall cs), rfl, rfl, fun seen read => ⟨read, rfl⟩⟩
    | false => exact ⟨['\''], quoteFrom true (inCall cs), rfl, rfl, fun seen read => ⟨read, rfl⟩⟩
  · cases side with
    | true => exact ⟨['$'], quoteFrom true (inCall cs), rfl, rfl, fun seen read => ⟨'$' :: read, rfl⟩⟩
    | false =>
        exact ⟨['\'', '$'], quoteFrom true (inCall cs), rfl, rfl, fun seen read => ⟨'$' :: read, rfl⟩⟩

/-- **An argument that ends too early** ends in open quotes. -/
theorem exists_cut (hcomma : value "," = [',']) {words : List String}
    (h : depthAfter? 0 (words.flatMap String.toList) = none) :
    ∃ lead c rest, argText words = lead ++ c :: rest ∧ depthAfter? 0 lead = some 0 ∧
      (c = ')' ∨ c = ',') ∧ words? (String.ofList (expand value lead)) = none := by
  obtain ⟨before, word, after, start, c, more, rfl, hword, hdepth, hc⟩ :=
    exists_word_of_depthAfter?_eq_none h
  obtain ⟨text, side, hopening⟩ := exists_opening hcomma false start
  obtain ⟨cut, rest, hcut, hplain, hopen⟩ := exists_quoteFrom_eq value hc side more
  have hquoted : quoteChars (inCall word.toList) = (text ++ cut) ++ c :: rest := by
    have hne : word.toList ≠ [] := by
      rw [hword]
      simp
    rw [Shell.quoteChars_of_ne_nil (inCall_ne_nil hne), hword, inCall_append, hopening.written, hcut,
      List.append_assoc]
  have hread : ∀ seen, ∃ held,
      (expand value (text ++ cut)).foldl eat ⟨seen, .word []⟩ = ⟨seen, .single held⟩ := by
    intro seen
    have hstart := hopening.read seen [] cut
    obtain ⟨held, hheld⟩ := hopen seen (start.reverse ++ [])
    exact ⟨held, hstart.trans hheld⟩
  -- a text that leads into quotes is not empty
  have hhead : (text ++ cut).head? = (quoteChars (inCall word.toList)).head? := by
    rw [hquoted]
    cases hlead : text ++ cut with
    | nil =>
        obtain ⟨held, hheld⟩ := hread []
        rw [hlead] at hheld
        cases hheld
    | cons d ds => rfl
  have htext : argText (before ++ word :: after) = spaced before ++ (text ++ cut) ++
      c :: (rest ++ after.flatMap fun next => ' ' :: quoteChars (inCall next.toList)) := by
    rw [argText_append, argText_cons, hquoted, List.append_assoc (text ++ cut), ← List.append_assoc,
      List.cons_append]
  refine ⟨spaced before ++ (text ++ cut), c, _, htext, ?_, hc, ?_⟩
  · refine (depthAfter?_congr ?_ 0).trans hdepth
    rw [List.filter_append, List.filter_append, List.filter_append, filter_spaced, hopening.filter_eq,
      hplain, List.append_nil]
  · obtain ⟨held, hheld⟩ := hread before.reverse
    rw [Shell.words?_ofList, foldl_eat_spaced hcomma, List.append_nil, foldl_eat_between hhead, hheld]
    rfl

end Reading

end MakeGraph.Make
