import MakeGraph.Proofs.Make.ArgumentWords

/-!
# `Proofs.Make.CallArguments` — how make reads the arguments of a call

Words are read back from a call if their parentheses match and their commas are within them, whatever else
is in them. No other words are read back (`callWords?_render_iff`): an argument in which they do not match
ends too early or too late, and in both cases its words are others.

## Contents

* `forall_isEnclosed_of_splitArgs`, `wordsOf?_argText` — all arguments
* `readCall?_eq_some_iff`, `callWords?_render` — the whole call
* `callWords?_render_iff` — the main result
-/

namespace MakeGraph.Make

open Shell (words?)

/-! ## All arguments -/


section Reading

variable {value : String → List Char}

/-- What was read of an argument is kept. -/
theorem exists_of_splitArgs {depth : Nat} {arg cs behind : List Char} {found : List (List Char)}
    (h : splitArgs depth arg cs = some (found, behind)) :
    ∃ rest more, found = (arg ++ rest) :: more := by
  induction cs generalizing depth arg found with
  | nil => cases h
  | cons c cs ih =>
      have hlater : ∀ {depth'}, splitArgs depth' (arg ++ [c]) cs = some (found, behind) →
          ∃ rest more, found = (arg ++ rest) :: more := by
        intro depth' hrest
        obtain ⟨rest, more, hfound⟩ := ih hrest
        exact ⟨c :: rest, more, by rw [hfound, List.append_assoc]; rfl⟩
      have hended : ∀ more, found = arg :: more → ∃ rest more, found = (arg ++ rest) :: more :=
        fun more hfound => ⟨[], more, by rw [hfound, List.append_nil]⟩
      rw [splitArgs] at h
      split at h
      · exact hlater h
      · split at h
        · split at h
          · exact hended [] (Prod.mk.inj (Option.some.inj h)).1.symm
          · exact hlater h
        · split at h
          · obtain ⟨next, -, hnext⟩ := Option.map_eq_some_iff.mp h
            exact hended next.1 (Prod.mk.inj hnext).1.symm
          · exact hlater h

/-- An argument that ends at a character is the first one. -/
theorem exists_of_splitArgs_cut {lead rest behind : List Char} {c : Char} {found : List (List Char)}
    (hlead : depthAfter? 0 lead = some 0) (hc : c = ')' ∨ c = ',')
    (h : splitArgs 0 [] (lead ++ c :: rest) = some (found, behind)) : ∃ more, found = lead :: more := by
  rw [splitArgs_append hlead, List.nil_append] at h
  rcases hc with rfl | rfl
  · exact ⟨[], (Prod.mk.inj (Option.some.inj h)).1.symm⟩
  · have hnext : (splitArgs 0 [] rest).map (fun found => (lead :: found.1, found.2)) =
        some (found, behind) := h
    obtain ⟨next, -, hfound⟩ := Option.map_eq_some_iff.mp hnext
    exact ⟨next.1, (Prod.mk.inj hfound).1.symm⟩

/-- The words of arguments, expanded. -/
def wordsOf? (value : String → List Char) (args : List (List Char)) : Option (List (List String)) :=
  args.mapM fun arg => words? (String.ofList (expand value arg))

theorem wordsOf?_cons {arg : List Char} {args : List (List Char)} {words : List String}
    {more : List (List String)} :
    wordsOf? value (arg :: args) = some (words :: more) ↔
      words? (String.ofList (expand value arg)) = some words ∧ wordsOf? value args = some more := by
  simp only [wordsOf?, List.mapM_cons]
  cases words? (String.ofList (expand value arg)) with
  | none => simp
  | some found =>
      cases List.mapM (fun arg => words? (String.ofList (expand value arg))) args with
      | none => simp
      | some others => simp

/-- **An argument that is read back** is enclosed: if it ended too early its quotes would be open, and if it
    ended too late its last word would go on. -/
theorem isEnclosed_of_splitArgs (hcomma : value "," = [',']) {words : List String}
    {first rest behind : List Char} {more : List (List Char)}
    (hrest : rest = [')'] ∨ ∃ tail, rest = ',' :: tail)
    (hsplit : splitArgs 0 [] (argText words ++ rest) = some (first :: more, behind))
    (hread : words? (String.ofList (expand value first)) = some words) : IsEnclosed words := by
  have hdepth : depthAfter? 0 (argText words) = depthAfter? 0 (words.flatMap String.toList) :=
    depthAfter?_congr (filter_argText words) 0
  cases henclosed : depthAfter? 0 (words.flatMap String.toList) with
  | none =>
      obtain ⟨lead, c, tail, htext, hlead, hc, hopen⟩ := exists_cut hcomma henclosed
      rw [htext, List.append_assoc, List.cons_append] at hsplit
      obtain ⟨others, hfound⟩ := exists_of_splitArgs_cut hlead hc hsplit
      rw [(List.cons.inj hfound).1, hopen] at hread
      cases hread
  | some depth =>
      rw [henclosed] at hdepth
      rw [splitArgs_append hdepth, List.nil_append] at hsplit
      cases depth with
      | zero => exact henclosed
      | succ depth =>
          rcases hrest with rfl | ⟨tail, rfl⟩
          · cases hsplit
          · have hlate : splitArgs (depth + 1) (argText words ++ [',']) tail =
                some (first :: more, behind) := hsplit
            have hnonempty : words ≠ [] := by
              rintro rfl
              cases henclosed
            obtain ⟨late, others, hfound⟩ := exists_of_splitArgs hlate
            rw [(List.cons.inj hfound).1, List.append_assoc] at hread
            exact absurd hread (words?_append_comma_ne hcomma hnonempty late)

/-- **Arguments that are read back** are enclosed. The induction is on the arguments: behind one that is
    enclosed the next one is found where it was written. -/
theorem forall_isEnclosed_of_splitArgs (hcomma : value "," = [',']) {args : List (List String)}
    {found : List (List Char)} (hne : args ≠ [])
    (hsplit : splitArgs 0 [] (argsText args) = some (found, []))
    (hwords : wordsOf? value found = some args) : ∀ words ∈ args, IsEnclosed words := by
  induction args generalizing found with
  | nil => exact absurd rfl hne
  | cons words args ih =>
      obtain ⟨first, others, rfl⟩ : ∃ first others, found = first :: others := by
        obtain ⟨rest, others, hfound⟩ := exists_of_splitArgs hsplit
        exact ⟨_, others, hfound⟩
      obtain ⟨hfirst, hothers⟩ := wordsOf?_cons.mp hwords
      cases args with
      | nil =>
          rw [argsText_singleton] at hsplit
          exact List.forall_mem_singleton.mpr
            (isEnclosed_of_splitArgs hcomma (.inl rfl) hsplit hfirst)
      | cons next args =>
          rw [argsText_cons_cons] at hsplit
          have henclosed : IsEnclosed words :=
            isEnclosed_of_splitArgs hcomma (.inr ⟨_, rfl⟩) hsplit hfirst
          have hdepth : depthAfter? 0 (argText words) = some 0 :=
            (depthAfter?_congr (filter_argText words) 0).trans henclosed
          have hnext : (splitArgs 0 [] (argsText (next :: args))).map
              (fun found => (argText words :: found.1, found.2)) = some (first :: others, []) := by
            rw [splitArgs_append hdepth, List.nil_append] at hsplit
            exact hsplit
          obtain ⟨⟨found, behind⟩, hfound, heq⟩ := Option.map_eq_some_iff.mp hnext
          obtain ⟨hlist, rfl⟩ := Prod.mk.inj heq
          obtain ⟨-, rfl⟩ := List.cons.inj hlist
          exact List.forall_mem_cons.mpr ⟨henclosed, ih (List.cons_ne_nil next args) hfound hothers⟩

/-- The arguments as they were written are read back. -/
theorem wordsOf?_argText (hcomma : value "," = [',']) (args : List (List String)) :
    wordsOf? value (args.map argText) = some args := by
  induction args with
  | nil => rfl
  | cons words args ih =>
      rw [List.map_cons]
      exact wordsOf?_cons.mpr ⟨words?_argText hcomma words, ih⟩

/-! ## The whole call -/

/-- **What is read as a call**: a function and its arguments in parentheses. -/
theorem readCall?_eq_some_iff {text name : String} {args : List (List Char)} :
    readCall? value text = some (name, args) ↔
      IsFunctionName name ∧ ∃ blank rest found,
        text.toList = "$(".toList ++ (name.toList ++ blank :: rest) ∧ isSeparator blank = true ∧
          splitArgs 0 [] rest = some (found, []) ∧ found.map (expand value) = args := by
  constructor
  · intro h
    obtain ⟨call, hcall, h⟩ := Option.bind_eq_some_iff.mp h
    have htext : text.toList = "$(".toList ++ call.toList := by
      rw [Text.dropLead?_eq_some_iff.mp hcall, String.toList_append]
    have hcut : call.toList.takeWhile isFunctionChar ++ call.toList.dropWhile isFunctionChar =
        call.toList := List.takeWhile_append_dropWhile
    cases hbehind : call.toList.dropWhile isFunctionChar with
    | nil =>
        simp only [hbehind] at h
        cases h
    | cons blank rest =>
        rw [hbehind] at hcut
        simp only [hbehind] at h
        split at h
        · next hname =>
            split at h
            · next found hsplit =>
                obtain ⟨rfl, rfl⟩ := Prod.mk.inj (Option.some.inj h)
                have hread : (String.ofList (call.toList.takeWhile isFunctionChar)).toList =
                    call.toList.takeWhile isFunctionChar := String.toList_ofList
                refine ⟨⟨?_, ?_⟩, blank, rest, found, ?_, hname.1, hsplit, rfl⟩
                · intro hempty
                  rw [hempty] at hread
                  exact hname.2 hread.symm
                · rw [hread]
                  exact List.all_takeWhile
                · rw [hread, hcut, htext]
            · cases h
        · cases h
  · rintro ⟨⟨hne, hall⟩, blank, rest, found, htext, hblank, hsplit, rfl⟩
    have hname : ∀ c ∈ name.toList, isFunctionChar c = true := List.all_eq_true.mp hall
    have hcall : Text.dropLead? "$(" text = some (String.ofList (name.toList ++ blank :: rest)) := by
      have hrest : (String.ofList (name.toList ++ blank :: rest)).toList = name.toList ++ blank :: rest :=
        String.toList_ofList
      refine Text.dropLead?_eq_some_iff.mpr (String.toList_inj.mp ?_)
      rw [htext, String.toList_append, hrest]
    have hend : ¬isFunctionChar blank = true := by
      have htwo : blank = ' ' ∨ blank = '\t' := by simpa [isSeparator] using hblank
      rcases htwo with rfl | rfl <;> decide
    have htake : (name.toList ++ blank :: rest).takeWhile isFunctionChar = name.toList := by
      rw [List.takeWhile_append_of_pos hname, List.takeWhile_cons_of_neg hend, List.append_nil]
    have hdrop : (name.toList ++ blank :: rest).dropWhile isFunctionChar = blank :: rest := by
      rw [List.dropWhile_append_of_pos hname, List.dropWhile_cons_of_neg hend]
    have hnil : name.toList ≠ [] := fun h => hne (String.toList_inj.mp h)
    simp only [readCall?, hcall, Option.bind_eq_bind, Option.bind_some, String.toList_ofList, htake,
      hdrop, if_pos (And.intro hblank hnil), hsplit, String.ofList_toList]

/-- What a call is read as that is written for words. -/
theorem callWords?_render (name : String) (args : List (List String)) :
    callWords? value (Call.render ⟨name, args.map Piece.plainTexts⟩) = some (name, args) ↔
      IsFunctionName name ∧ ∃ found,
        splitArgs 0 [] (argsText args) = some (found, []) ∧ wordsOf? value found = some args := by
  have hcall : ∀ text, callWords? value text = some (name, args) ↔
      ∃ texts, readCall? value text = some (name, texts) ∧
        texts.mapM (fun arg => words? (String.ofList arg)) = some args := by
    intro text
    simp only [callWords?, Option.bind_eq_bind, Option.bind_eq_some_iff, Option.pure_def,
      Option.some.injEq, Prod.mk.injEq, Prod.exists]
    constructor
    · rintro ⟨found, texts, hread, words, hwords, rfl, rfl⟩
      exact ⟨texts, hread, hwords⟩
    · rintro ⟨texts, hread, hwords⟩
      exact ⟨name, texts, hread, args, hwords, rfl, rfl⟩
  have hexpanded : ∀ found : List (List Char),
      (found.map (expand value)).mapM (fun arg => words? (String.ofList arg)) = wordsOf? value found :=
    fun found => List.mapM_map
  rw [hcall]
  constructor
  · rintro ⟨texts, hread, hwords⟩
    obtain ⟨hname, blank, rest, found, htext, -, hsplit, rfl⟩ := readCall?_eq_some_iff.mp hread
    rw [toList_render] at htext
    obtain ⟨-, rfl⟩ := List.cons.inj (List.append_cancel_left (List.append_cancel_left htext))
    exact ⟨hname, found, hsplit, (hexpanded found).symm.trans hwords⟩
  · rintro ⟨hname, found, hsplit, hwords⟩
    refine ⟨_, readCall?_eq_some_iff.mpr ⟨hname, ' ', _, found, toList_render name args, rfl, hsplit, rfl⟩, ?_⟩
    exact (hexpanded found).trans hwords


end Reading


/-- **The arguments of a call** are read back, each with its words, exactly where the call has a function
    and an argument, and each argument encloses its words. -/
theorem callWords?_render_iff {value : String → List Char} (hcomma : value "," = [','])
    (name : String) (args : List (List String)) :
    callWords? value (Call.render ⟨name, args.map Piece.plainTexts⟩) = some (name, args) ↔
      IsFunctionName name ∧ args ≠ [] ∧ ∀ words ∈ args, IsEnclosed words := by
  rw [callWords?_render]
  refine and_congr_right fun _ => ?_
  constructor
  · rintro ⟨found, hsplit, hwords⟩
    have hne : args ≠ [] := by
      rintro rfl
      obtain rfl : found = [[]] := (Prod.mk.inj (Option.some.inj hsplit)).1.symm
      cases hwords
    exact ⟨hne, forall_isEnclosed_of_splitArgs hcomma hne hsplit hwords⟩
  · rintro ⟨hne, henclosed⟩
    have hdepth : ∀ arg ∈ args.map argText, depthAfter? 0 arg = some 0 := by
      intro arg harg
      obtain ⟨words, hwords, rfl⟩ := List.mem_map.mp harg
      exact (depthAfter?_congr (filter_argText words) 0).trans (henclosed words hwords)
    have hmap : args.map argText ≠ [] := fun h => hne (List.map_eq_nil_iff.mp h)
    exact ⟨args.map argText, splitArgs_intercalate hmap hdepth [], wordsOf?_argText hcomma args⟩

/-- Flags for a macro, with dollars, quotes, blanks and a comma in parentheses. -/
theorem callWords?_macroCall :
    callWords? (fun name => if name = "," then [','] else [])
        (((Call.macroCall ⟨"LINK"⟩).arg [.plain "a.o", .plain "b c.o"]).arg
          [.plain "-DMAX(a,b)='$a'", .plain ""]).render =
      some ("call", [["LINK"], ["a.o", "b c.o"], ["-DMAX(a,b)='$a'", ""]]) :=
  have hname : IsFunctionName "call" := by decide
  have henclosed : ∀ words ∈ [["LINK"], ["a.o", "b c.o"], ["-DMAX(a,b)='$a'", ""]], IsEnclosed words := by
    decide +kernel
  (callWords?_render_iff rfl "call" [["LINK"], ["a.o", "b c.o"], ["-DMAX(a,b)='$a'", ""]]).mpr
    ⟨hname, List.cons_ne_nil _ _, henclosed⟩

/-- The comma that hides another one ends an argument itself: the object `x,y.o` is two arguments. -/
theorem readCall?_comma :
    readCall? (fun name => if name = "," then [','] else [])
        (((Call.macroCall ⟨"RULE_LINK_CC"⟩).arg [.plain "x,y.o"]).arg [.plain "prog"]).render =
      some ("call", ["RULE_LINK_CC".toList, "x'$".toList, "y.o'".toList, "prog".toList]) := by
  decide +kernel

end MakeGraph.Make
