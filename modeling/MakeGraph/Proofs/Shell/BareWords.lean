import MakeGraph.Proofs.Shell.Reading

/-!
# `Proofs.Shell.BareWords` — words that need no quotes

A word that stands in a command without quotes is read as it is written only if nothing in it means
something else to the shell. `isBareWord` says which words these are, and
`literalWords?_append_bare_iff` that there are no others, wherever in a command they stand.

That there are no others is a matter of counting. A character that is read adds at most one character
to the words, or the end of one. Where the words are as long as the text, every character must have
added what it can, and quotes, backslashes, comments and needless blanks add nothing
(`BareSince.read?`).
-/

namespace MakeGraph.Shell

open Splitter (eat read?)

/-! ## Bare words -/

/-- A character that is read as itself in a word outside of quotes. -/
def isBare (c : Char) : Bool :=
  !Splitter.isSeparator c && c != '"' && c != '\'' && c != '\\' && !isLive c

/-- A word that is read as it is written. -/
def isBareWord (word : String) : Bool :=
  match word.toList with
  | [] => false
  | c :: cs => c != '#' && c != '~' && (c :: cs).all isBare

theorem isBare_iff {c : Char} :
    isBare c = true ↔ Splitter.isSeparator c = false ∧ c ≠ '"' ∧ c ≠ '\'' ∧ c ≠ '\\' ∧
      isLive c = false := by
  simp [isBare, and_assoc]

theorem isBareWord_cons_iff {c : Char} {cs : List Char} :
    isBareWord (String.ofList (c :: cs)) = true ↔
      c ≠ '#' ∧ c ≠ '~' ∧ isBare c = true ∧ cs.all isBare = true := by
  simp [isBareWord, and_assoc]

/-- A word goes on being bare with every character that is. -/
theorem isBareWord_append {cs ds : List Char} (h : isBareWord (String.ofList cs) = true)
    (hds : ds.all isBare = true) : isBareWord (String.ofList (cs ++ ds)) = true := by
  cases cs with
  | nil => cases h
  | cons c cs =>
      rw [isBareWord_cons_iff] at h
      obtain ⟨hhash, htilde, hc, hcs⟩ := h
      rw [List.cons_append, isBareWord_cons_iff]
      exact ⟨hhash, htilde, hc, by rw [List.all_append, hcs, hds]; rfl⟩

theorem read?_word_bare {c : Char} (hc : isBare c = true) (seen : List String)
    (read cs : List Char) :
    read? ⟨seen, .word read⟩ (c :: cs) = read? ⟨seen, .word (c :: read)⟩ cs := by
  obtain ⟨hsep, hdouble, hsingle, hback, hlive⟩ := isBare_iff.mp hc
  rw [Splitter.read?_cons (s := ⟨seen, .word read⟩) hlive]
  simp [eat, Splitter.State.inWord, hsep, hdouble, hsingle, hback]

theorem read?_word_of_all_bare {cs : List Char} (hcs : cs.all isBare = true) (seen : List String)
    (read : List Char) :
    read? ⟨seen, .word read⟩ cs = some ⟨seen, .word (cs.reverse ++ read)⟩ := by
  induction cs generalizing read with
  | nil => rfl
  | cons c cs ih =>
      rw [List.all_cons, Bool.and_eq_true] at hcs
      rw [read?_word_bare hcs.1, ih hcs.2, List.reverse_cons, List.append_assoc]
      rfl

/-- A bare character begins a word, if it begins neither a comment nor the name of a home. -/
theorem read?_between_bare {c : Char} (hhash : c ≠ '#') (htilde : c ≠ '~') (hc : isBare c = true)
    (seen : List String) (cs : List Char) :
    read? ⟨seen, .between⟩ (c :: cs) = read? ⟨seen, .word [c]⟩ cs := by
  obtain ⟨hsep, hdouble, hsingle, hback, hlive⟩ := isBare_iff.mp hc
  have hfirst : eat ⟨seen, .between⟩ c = ⟨seen, .word [c]⟩ := by
    simp [eat, Splitter.State.inWord, hsep, hhash, hdouble, hsingle, hback]
  rw [Splitter.read?_cons (by simp [Splitter.State.acts, hlive, htilde]), hfirst]

/-- **A bare word** is read as it is written. -/
theorem reads_of_isBareWord {word : String} (h : isBareWord word = true) :
    Reads word.toList [word] := by
  have hword : word = String.ofList word.toList := String.ofList_toList.symm
  rw [hword] at h
  intro seen
  generalize hcs : word.toList = cs at h hword
  cases cs with
  | nil => cases h
  | cons c cs =>
      obtain ⟨hhash, htilde, hc, hall⟩ := isBareWord_cons_iff.mp h
      rw [List.cons_append, read?_between_bare hhash htilde hc, Splitter.read?_append,
        read?_word_of_all_bare hall, Option.bind_some]
      show some (⟨String.ofList (cs.reverse ++ [c]).reverse :: seen, .between⟩ : Splitter) = _
      rw [hword, List.reverse_append, List.reverse_reverse]
      rfl

/-- **Two quoted texts with bare characters between them** are one word. -/
theorem reads_quoteChars_bare (before after : List Char) {bare : List Char}
    (hbare : bare.all isBare = true) :
    Reads (quoteChars before ++ (bare ++ quoteChars after))
      [String.ofList (before ++ (bare ++ after))] := by
  intro seen
  rw [List.append_assoc, read?_quoteChars_between, Splitter.read?_append, read?_quoteChars,
    Option.bind_some, List.append_assoc, Splitter.read?_append, read?_word_of_all_bare hbare,
    Option.bind_some, Splitter.read?_append, read?_quoteChars, Option.bind_some, List.append_nil,
    ← List.reverse_append, ← List.reverse_append, List.append_assoc]
  show some (⟨String.ofList (before ++ (bare ++ after)).reverse.reverse :: seen, .between⟩ :
    Splitter) = _
  rw [List.reverse_reverse]
  rfl

/-- **A bare word that goes on with a quoted text** is one word. -/
theorem reads_bare_quoteChars {bare : List Char} (h : isBareWord (String.ofList bare) = true)
    (cs : List Char) : Reads (bare ++ quoteChars cs) [String.ofList (bare ++ cs)] := by
  intro seen
  cases bare with
  | nil => cases h
  | cons c bare =>
      obtain ⟨hhash, htilde, hc, hall⟩ := isBareWord_cons_iff.mp h
      rw [List.cons_append, List.cons_append, read?_between_bare hhash htilde hc, List.append_assoc,
        Splitter.read?_append, read?_word_of_all_bare hall, Option.bind_some, Splitter.read?_append,
        read?_quoteChars, Option.bind_some]
      show some (⟨String.ofList (cs.reverse ++ (bare.reverse ++ [c])).reverse :: seen, .between⟩ :
        Splitter) = _
      simp

/-! ## Counting -/

/-- How much of a word a state has read. -/
def Splitter.State.size : Splitter.State → Nat
  | .between | .comment => 0
  | .word read | .escape read | .single read | .double read => read.length
  | .doubleEscape read => read.length + 1

/-- The characters of words, with one for the end of each. -/
def wordsSize : List String → Nat
  | [] => 0
  | word :: words => word.length + 1 + wordsSize words

/-- How much has been read. -/
def Splitter.size (s : Splitter) : Nat :=
  wordsSize s.words + s.state.size

theorem wordsSize_append (words others : List String) :
    wordsSize (words ++ others) = wordsSize words + wordsSize others := by
  induction words with
  | nil => rw [List.nil_append, wordsSize, Nat.zero_add]
  | cons word words ih =>
      rw [List.cons_append, wordsSize, wordsSize, ih]
      omega

theorem wordsSize_reverse (words : List String) : wordsSize words.reverse = wordsSize words := by
  induction words with
  | nil => rfl
  | cons word words ih =>
      rw [List.reverse_cons, wordsSize_append, ih, wordsSize, wordsSize, wordsSize]
      omega

/-- **A character adds at most one.** -/
theorem size_eat_le (s : Splitter) (c : Char) : (s.eat c).size ≤ s.size + 1 := by
  obtain ⟨words, state⟩ := s
  have hword : ∀ read : List Char, (Splitter.State.inWord read c).size ≤ read.length + 1 := by
    intro read
    unfold Splitter.State.inWord
    split
    · exact Nat.le_succ _
    · split
      · exact Nat.le_succ _
      · split
        · exact Nat.le_succ _
        · exact Nat.le_refl _
  cases state with
  | between =>
      unfold eat
      dsimp only
      split
      · exact Nat.le_succ _
      · split
        · exact Nat.le_succ _
        · exact Nat.add_le_add_left (hword []) _
  | comment =>
      unfold eat
      dsimp only
      split <;> exact Nat.le_succ _
  | word read =>
      unfold eat
      dsimp only
      split
      · have hlength : (String.ofList read.reverse).length = read.length := by simp
        simp only [Splitter.size, wordsSize, Splitter.State.size, hlength]
        omega
      · exact Nat.add_le_add_left (hword read) _
  | escape read =>
      unfold eat
      dsimp only
      split <;> simp only [Splitter.size, Splitter.State.size, List.length_cons] <;> omega
  | single read =>
      unfold eat
      dsimp only
      split <;> simp only [Splitter.size, Splitter.State.size, List.length_cons] <;> omega
  | double read =>
      unfold eat
      dsimp only
      split
      · exact Nat.le_succ _
      · split <;> simp only [Splitter.size, Splitter.State.size, List.length_cons] <;> omega
  | doubleEscape read =>
      unfold eat
      dsimp only
      split
      · simp only [Splitter.size, Splitter.State.size]
        omega
      · split <;> simp only [Splitter.size, Splitter.State.size, List.length_cons] <;> omega

theorem size_read?_le {s t : Splitter} {cs : List Char} (h : s.read? cs = some t) :
    t.size ≤ s.size + cs.length := by
  induction cs generalizing s with
  | nil =>
      rw [← Option.some.inj h]
      exact Nat.le_refl _
  | cons c cs ih =>
      rw [Splitter.read?] at h
      split at h
      · cases h
      · have hstep := size_eat_le s c
        have hrest := ih h
        rw [List.length_cons]
        omega

/-! ## What has added all that it can -/

/-- A splitter that has read bare words since it had finished `seen`, and nothing else. -/
structure BareSince (seen : List String) (s : Splitter) : Prop where
  words : ∃ new, s.words = new ++ seen ∧ ∀ word ∈ new, isBareWord word = true
  state : s.state = .between ∨
    ∃ read, s.state = .word read ∧ isBareWord (String.ofList read.reverse) = true

/-- **A character that adds one** is the character of a bare word or the blank behind it. -/
theorem BareSince.eat {seen : List String} {s : Splitter} (h : BareSince seen s) {c : Char}
    (hacts : s.state.acts c = false) (hsize : (s.eat c).size = s.size + 1) :
    BareSince seen (s.eat c) := by
  obtain ⟨words, state⟩ := s
  -- outside of quotes a character that leaves the word as it is adds nothing
  have hbare : ∀ read, isLive c = false → Splitter.isSeparator c = false →
      (Splitter.State.inWord read c).size = read.length + 1 →
        Splitter.State.inWord read c = .word (c :: read) ∧ isBare c = true := by
    intro read hlive hsep hgrow
    unfold Splitter.State.inWord at hgrow ⊢
    split at hgrow
    · simp [Splitter.State.size] at hgrow
    · next hdouble =>
        rw [if_neg hdouble]
        split at hgrow
        · simp [Splitter.State.size] at hgrow
        · next hsingle =>
            rw [if_neg hsingle]
            split at hgrow
            · simp [Splitter.State.size] at hgrow
            · next hback =>
                rw [if_neg hback]
                exact ⟨rfl, isBare_iff.mpr ⟨hsep, hdouble, hsingle, hback, hlive⟩⟩
  rcases h.state with hstate | ⟨read, hstate, hread⟩
  · obtain rfl : state = .between := hstate
    have hquiet : isLive c = false ∧ c ≠ '~' := by simpa [Splitter.State.acts] using hacts
    unfold Splitter.eat at hsize ⊢
    dsimp only at hsize ⊢
    split at hsize
    · exact absurd hsize (by simp)
    · next hsep =>
        rw [if_neg hsep]
        split at hsize
        · exact absurd hsize (by simp [Splitter.size, Splitter.State.size])
        · next hhash =>
            rw [if_neg hhash]
            have hgrow : (Splitter.State.inWord [] c).size = 0 + 1 := Nat.add_left_cancel hsize
            obtain ⟨hword, hc⟩ := hbare [] hquiet.1 (Bool.eq_false_iff.mpr hsep) hgrow
            refine ⟨h.words, .inr ⟨[c], hword, ?_⟩⟩
            exact isBareWord_cons_iff.mpr ⟨hhash, hquiet.2, hc, rfl⟩
  · obtain rfl : state = .word read := hstate
    unfold Splitter.eat at hsize ⊢
    dsimp only at hsize ⊢
    split at hsize
    · next hsep =>
        rw [if_pos hsep]
        obtain ⟨new, hnew, hall⟩ := h.words
        refine ⟨⟨String.ofList read.reverse :: new, ?_, List.forall_mem_cons.mpr ⟨hread, hall⟩⟩,
          .inl rfl⟩
        exact congrArg (List.cons (String.ofList read.reverse)) hnew
    · next hsep =>
        rw [if_neg hsep]
        have hgrow : (Splitter.State.inWord read c).size = read.length + 1 :=
          Nat.add_left_cancel hsize
        obtain ⟨hword, hc⟩ := hbare read hacts (Bool.eq_false_iff.mpr hsep) hgrow
        refine ⟨h.words, .inr ⟨c :: read, hword, ?_⟩⟩
        rw [List.reverse_cons]
        exact isBareWord_append hread (List.all_eq_true.mpr fun d hd => List.mem_singleton.mp hd ▸ hc)

/-- **A text that adds as much as it is long** is made of bare words. -/
theorem BareSince.read? {seen : List String} {s t : Splitter} {cs : List Char}
    (h : BareSince seen s) (hread : s.read? cs = some t) (hsize : t.size = s.size + cs.length) :
    BareSince seen t := by
  induction cs generalizing s with
  | nil => exact Option.some.inj hread ▸ h
  | cons c cs ih =>
      rw [Splitter.read?] at hread
      split at hread
      · cases hread
      · next hacts =>
          -- neither the first character nor the others can make up for one another
          have hstep := size_eat_le s c
          have hrest := size_read?_le hread
          rw [List.length_cons] at hsize
          exact ih (h.eat (Bool.eq_false_iff.mpr hacts) (by omega)) hread (by omega)

/-! ## Bare words and no others -/

/-- Only the end of a word that is still open is not counted yet. -/
theorem exists_word_of_finish? {s : Splitter} {words : List String} (hfinish : s.finish? = some words)
    (hsize : s.size < wordsSize words) :
    ∃ read, s.state = .word read ∧ words = (String.ofList read.reverse :: s.words).reverse ∧
      wordsSize words = s.size + 1 := by
  obtain ⟨found, state⟩ := s
  have hcounted : found.reverse = words → wordsSize words = wordsSize found := by
    rintro rfl
    exact wordsSize_reverse found
  cases state with
  | word read =>
      have hwords : (String.ofList read.reverse :: found).reverse = words := Option.some.inj hfinish
      have hlength : (String.ofList read.reverse).length = read.length := by simp
      refine ⟨read, rfl, hwords.symm, ?_⟩
      rw [← hwords, wordsSize_reverse, wordsSize, hlength]
      show _ = wordsSize found + read.length + 1
      omega
  | between => exact absurd (hcounted (Option.some.inj hfinish)) (Nat.ne_of_gt hsize)
  | comment => exact absurd (hcounted (Option.some.inj hfinish)) (Nat.ne_of_gt hsize)
  | escape read => cases hfinish
  | single read => cases hfinish
  | double read => cases hfinish
  | doubleEscape read => cases hfinish

/-- **A word that is all of a text** is no longer than the text. -/
theorem length_le_of_literalWords? {text word : String} (h : literalWords? text = some [word]) :
    word.length ≤ text.length := by
  obtain ⟨s, hs, hfinish⟩ := Option.bind_eq_some_iff.mp h
  have hbound : s.size ≤ 0 + text.toList.length := size_read?_le hs
  have hword : wordsSize [word] = word.length + 1 := rfl
  rw [String.length_toList] at hbound
  by_cases hsize : s.size < wordsSize [word]
  · obtain ⟨-, -, -, hcount⟩ := exists_word_of_finish? hfinish hsize
    omega
  · omega

/-- Words that together are as long as the text that they are read of are bare. -/
theorem isBareWord_of_read? {seen words : List String} {text : List Char} {s : Splitter}
    (hread : read? ⟨seen, .between⟩ text = some s)
    (hfinish : s.finish? = some (seen.reverse ++ words))
    (hsize : wordsSize words = text.length + 1) : ∀ word ∈ words, isBareWord word = true := by
  have hbound : s.size ≤ wordsSize seen + text.length := size_read?_le hread
  have htotal : wordsSize (seen.reverse ++ words) = wordsSize seen + wordsSize words := by
    rw [wordsSize_append, wordsSize_reverse]
  obtain ⟨last, hstate, hwords, hcount⟩ := exists_word_of_finish? hfinish (by omega)
  -- the last word has no end yet, so all characters have added one
  have hbare : BareSince seen ⟨seen, .between⟩ :=
    ⟨⟨[], rfl, fun word hword => absurd hword List.not_mem_nil⟩, .inl rfl⟩
  have hgrow : s.size = wordsSize seen + text.length := by omega
  obtain ⟨⟨new, hnew, hall⟩, hopen⟩ := hbare.read? hread hgrow
  have hlast : isBareWord (String.ofList last.reverse) = true := by
    rcases hopen with hopen | ⟨read, hopen, hread⟩
    · rw [hstate] at hopen
      cases hopen
    · rw [hstate] at hopen
      rw [Splitter.State.word.inj hopen]
      exact hread
  have heq : words = (String.ofList last.reverse :: new).reverse := by
    have hsplit : (String.ofList last.reverse :: (new ++ seen)).reverse =
        seen.reverse ++ (String.ofList last.reverse :: new).reverse := by simp
    rw [hnew, hsplit] at hwords
    exact List.append_cancel_left hwords
  intro word hword
  rw [heq, List.mem_reverse] at hword
  rcases List.mem_cons.mp hword with rfl | hword
  · exact hlast
  · exact hall word hword

/-- Words without quotes, with a blank between each two. -/
def bareText (words : List String) : List Char :=
  List.intercalate [' '] (words.map String.toList)

theorem wordsSize_eq_length_bareText {words : List String} (h : words ≠ []) :
    wordsSize words = (bareText words).length + 1 := by
  unfold bareText
  induction words with
  | nil => exact absurd rfl h
  | cons word words ih =>
      cases words with
      | nil =>
          rw [wordsSize, List.map_singleton, List.intercalate_singleton, String.length_toList]
          rfl
      | cons next words =>
          rw [wordsSize, ih (List.cons_ne_nil _ _), List.map_cons (l := next :: words),
            List.map_cons, List.intercalate_cons_cons, List.length_append, List.length_append,
            String.length_toList, List.length_singleton]
          omega

theorem reads_bareText {words : List String} (h : ∀ word ∈ words, isBareWord word = true) :
    Reads (bareText words) words := by
  have hreads : Reads (bareText words) (words.map id) :=
    reads_intercalate fun word hword => reads_of_isBareWord (h word hword)
  rwa [List.map_id] at hreads

/-- **Words without quotes** behind others are read as they are written exactly when they are bare. -/
theorem literalWords?_append_bare_iff {lead : List Char} {before words : List String}
    (hlead : Reads lead before) (hne : words ≠ []) :
    literalWords? (String.ofList (lead ++ ' ' :: bareText words)) = some (before ++ words) ↔
      ∀ word ∈ words, isBareWord word = true := by
  constructor
  · intro h
    have hsplit : lead ++ ' ' :: bareText words = (lead ++ [' ']) ++ bareText words := by simp
    rw [literalWords?, String.toList_ofList, hsplit, Splitter.read?_append, hlead,
      Option.bind_some, List.append_nil] at h
    obtain ⟨s, hs, hfinish⟩ := Option.bind_eq_some_iff.mp h
    refine isBareWord_of_read? hs ?_ (wordsSize_eq_length_bareText hne)
    rwa [List.reverse_reverse]
  · intro h
    exact literalWords?_of_reads (hlead.blank (reads_bareText h))

/-- **A word without quotes** that stands alone. -/
theorem literalWords?_iff_isBareWord {word : String} :
    literalWords? word = some [word] ↔ isBareWord word = true := by
  constructor
  · intro h
    obtain ⟨s, hs, hfinish⟩ := Option.bind_eq_some_iff.mp h
    have hsize : wordsSize [word] = word.toList.length + 1 := by
      rw [wordsSize, String.length_toList]
      rfl
    have hfinish : s.finish? = some ([].reverse ++ [word]) := hfinish
    exact isBareWord_of_read? hs hfinish hsize word (List.mem_singleton.mpr rfl)
  · intro h
    have hreads := literalWords?_of_reads (reads_of_isBareWord h)
    rwa [String.ofList_toList] at hreads

end MakeGraph.Shell
