import MakeGraph.Proofs.Make.Assigned
import MakeGraph.Proofs.Shell.BareWords

/-!
# `Proofs.Make.Held` — text from a variable in front of a name

A name may begin with a reference. What the variable holds was never escaped for the place in which it
is used, and what follows the reference was. Make and the shell read both as one text (`readAs?`).

The escaped half is read as it was meant (`readAs?_held`). The half from the variable must be read as it
is, and there are such texts for every place: `FitsPlace` says which. No others are, because a reader
gives no more characters than it is given (`length_le_of_readAs?`): what is lost of one half cannot come
back from the other. The same holds of the way into the variable, and so the condition for both together
is exact (`readAs?_assigned_iff`).

## Contents

* `standsFree`, `NamePlace.readName?`, `NamePlace.readNames?` — the reader of names
* `quotesAny`, `scanWords_singleton` — texts that lose nothing when they are read
* `NamePlace.readNames?_held`, `NamePlace.keeps_of_readNames?` — names
* `readAs?`, `FitsPlace`, `readAs?_assigned_iff` — the places together
-/

namespace MakeGraph.Make

/-! ## Lists of names -/

/-- Whether a character of a kind stands in a text, behind `n` backslashes, without being quoted. -/
def standsFree (p : Char → Bool) : Nat → List Char → Bool
  | _, [] => false
  | n, c :: cs =>
      if c = '\\' then standsFree p (n + 1) cs
      else (n % 2 = 0 && p c) || standsFree p 0 cs

/-- Whether a backslash stands right before a character that it can quote. -/
def quotesAny (quotable : Char → Bool) : Nat → List Char → Bool
  | _, [] => false
  | n, c :: cs =>
      if c = '\\' then quotesAny quotable (n + 1) cs
      else (n ≠ 0 && quotable c) || quotesAny quotable 0 cs

/-- A place in which names stand in a list. -/
structure NamePlace where
  /-- What ends the list. -/
  ends : Char → Bool
  /-- What makes a name stand for other names. -/
  wild : Char → Bool
  /-- What the writer escapes. -/
  special : Char → Bool
  /-- What a backslash can quote. -/
  quotable : Char → Bool

/-- A character that makes a name a pattern of file names. -/
def isGlob (c : Char) : Bool :=
  c == '?' || c == '*' || c == '['

/-- The targets of a rule: a colon ends them, and a `%` makes a name a pattern. -/
def targetPlace : NamePlace :=
  ⟨(· == ':'), fun c => c == '%' || isGlob c, Context.specialInTargets, quotableInTargets⟩

/-- The prerequisites of a rule. -/
def dependencyPlace : NamePlace :=
  ⟨fun _ => false, isGlob, Context.specialInPrerequisites, Context.specialInPrerequisites⟩

/-- The name of a word that stands for itself only. A tilde at its beginning is the home of a user. -/
def NamePlace.readName? (place : NamePlace) (word : List Char) : Option String :=
  if word.head? = some '~' ∨ standsFree place.wild 0 word then none
  else some (readName place.quotable word)

/-- The names that a whole text lists, each standing for itself. -/
def NamePlace.readNames? (place : NamePlace) (text : List Char) : Option (List String) :=
  match scanWords place.ends 0 [] text with
  | (words, none) => words.mapM place.readName?
  | (_, some _) => none

example : targetPlace.readNames? "/my src/a.c".toList = some ["/my", "src/a.c"] := by decide
example : dependencyPlace.readNames? "/my\\ src/a.c".toList = some ["/my src/a.c"] := by decide

/-- **Where names are escaped as they should**: what ends or separates names or makes them stand for others
    is special, what is special can be quoted, and neither a slash nor a backslash is. -/
structure NamePlace.Sound (place : NamePlace) : Prop where
  separator : ∀ c, isSeparator c = true → place.special c = true
  wild : ∀ c, place.wild c = true → place.special c = true
  special : ∀ c, place.special c = true → place.quotable c = true
  ends : ∀ c, place.ends c = true → place.quotable c = true
  slash : place.quotable '/' = false
  backslash : place.quotable '\\' = false

theorem isGlob_special {c : Char} (h : isGlob c = true) : Context.isNameSpecial c = true := by
  simp only [isGlob, Bool.or_eq_true, beq_iff_eq] at h
  rcases h with (rfl | rfl) | rfl <;> decide

theorem sound_targetPlace : targetPlace.Sound where
  separator _ h := separator_special_target h
  wild c h := by
    simp only [targetPlace, Bool.or_eq_true] at h
    simp only [targetPlace, Context.specialInTargets, Bool.or_eq_true]
    exact h.imp_right isGlob_special
  special _ h := special_quotable_target h
  ends c h := by
    simp only [targetPlace, quotableInTargets, Bool.or_eq_true] at h ⊢
    exact .inl h
  slash := by decide
  backslash := by decide

theorem sound_dependencyPlace : dependencyPlace.Sound where
  separator _ h := separator_special_dep h
  wild c h := by
    simp only [dependencyPlace, Context.specialInPrerequisites, Bool.or_eq_true]
    exact .inr (isGlob_special h)
  special _ h := h
  ends _ h := by cases h
  slash := by decide
  backslash := by decide

/-! ### Nothing is lost -/

section Lossless

variable {quotable ends p : Char → Bool}

theorem length_unguard_le (quotable : Char → Bool) (cs : List Char) (n : Nat) :
    (unguard quotable n cs).length ≤ n + cs.length := by
  induction cs generalizing n with
  | nil => simp [unguard]
  | cons c cs ih =>
      unfold unguard
      split
      · have := ih (n + 1)
        simp only [List.length_cons]
        omega
      · have := ih 0
        simp only [List.length_append, List.length_replicate, List.length_cons]
        split <;> omega

/-- **A backslash that quotes something is lost.** -/
theorem length_unguard_lt {cs : List Char} {n : Nat} (h : quotesAny quotable n cs = true) :
    (unguard quotable n cs).length < n + cs.length := by
  induction cs generalizing n with
  | nil => cases h
  | cons c cs ih =>
      unfold quotesAny at h
      unfold unguard
      by_cases hback : c = '\\'
      · rw [if_pos hback] at h ⊢
        have := ih h
        simp only [List.length_cons]
        omega
      · rw [if_neg hback] at h ⊢
        simp only [List.length_append, List.length_replicate, List.length_cons]
        rcases Bool.or_eq_true_iff.mp h with hhere | hlater
        · simp only [ne_eq, Bool.and_eq_true, decide_eq_true_eq] at hhere
          have hrest := length_unguard_le quotable cs 0
          rw [if_pos hhere.2]
          omega
        · have := ih hlater
          split <;> omega

/-- A text in which no backslash quotes anything is read as it is. -/
theorem unguard_of_quotesAny_eq_false {cs rest : List Char} {n : Nat}
    (h : quotesAny quotable n cs = false) (hslash : quotable '/' = false) :
    unguard quotable n (cs ++ '/' :: rest) =
      List.replicate n '\\' ++ (cs ++ '/' :: unguard quotable 0 rest) := by
  induction cs generalizing n with
  | nil => simp [unguard, hslash]
  | cons c cs ih =>
      unfold quotesAny at h
      by_cases hback : c = '\\'
      · rw [if_pos hback] at h
        rw [List.cons_append, unguard, if_pos hback, ih h, hback, List.replicate_succ',
          List.append_assoc]
        rfl
      · rw [if_neg hback] at h
        obtain ⟨hhere, hlater⟩ := Bool.or_eq_false_iff.mp h
        have hkept : (if quotable c = true then n / 2 else n) = n := by
          simp only [ne_eq, Bool.and_eq_false_iff, decide_eq_false_iff_not, not_not] at hhere
          rcases hhere with rfl | hquotable
          · simp
          · simp [hquotable]
        rw [List.cons_append, unguard_of_ne hback, hkept, ih hlater]
        rfl

/-- What stands free nowhere and is quoted nowhere is not there. -/
theorem forall_of_standsFree_eq_false {cs : List Char} {n : Nat}
    (hsub : ∀ c, p c = true → quotable c = true) (hback : quotable '\\' = false)
    (hfree : standsFree p n cs = false) (hquotes : quotesAny quotable n cs = false) :
    ∀ c ∈ cs, p c = false := by
  induction cs generalizing n with
  | nil => exact fun c hc => absurd hc List.not_mem_nil
  | cons c cs ih =>
      unfold standsFree at hfree
      unfold quotesAny at hquotes
      by_cases hc : c = '\\'
      · rw [if_pos hc] at hfree hquotes
        refine List.forall_mem_cons.mpr ⟨?_, ih hfree hquotes⟩
        by_contra hp
        have hquotable := hsub c (by simpa using hp)
        rw [hc, hback] at hquotable
        cases hquotable
      · rw [if_neg hc] at hfree hquotes
        obtain ⟨hfree, hfrees⟩ := Bool.or_eq_false_iff.mp hfree
        obtain ⟨hquotes, hquotess⟩ := Bool.or_eq_false_iff.mp hquotes
        refine List.forall_mem_cons.mpr ⟨?_, ih hfrees hquotess⟩
        by_contra hp
        have hp : p c = true := by simpa using hp
        simp only [hsub c hp, ne_eq, Bool.and_true, decide_eq_false_iff_not, not_not] at hquotes
        rw [hquotes, hp] at hfree
        cases hfree

theorem standsFree_of_forall {cs : List Char} (h : ∀ c ∈ cs, p c = false) (n : Nat) :
    standsFree p n cs = false := by
  induction cs generalizing n with
  | nil => rfl
  | cons c cs ih =>
      obtain ⟨hc, hcs⟩ := List.forall_mem_cons.mp h
      unfold standsFree
      split
      · exact ih hcs (n + 1)
      · rw [hc, Bool.and_false, Bool.false_or]
        exact ih hcs 0

theorem standsFree_append_slash (cs rest : List Char) (n : Nat) (hp : p '/' = false) :
    standsFree p n (cs ++ '/' :: rest) = (standsFree p n cs || standsFree p 0 rest) := by
  induction cs generalizing n with
  | nil => simp [standsFree, hp]
  | cons c cs ih =>
      rw [List.cons_append, standsFree, standsFree]
      split
      · exact ih (n + 1)
      · rw [ih, Bool.or_assoc]

theorem quotesAny_append_slash (cs rest : List Char) (n : Nat) (hslash : quotable '/' = false) :
    quotesAny quotable n (cs ++ '/' :: rest) =
      (quotesAny quotable n cs || quotesAny quotable 0 rest) := by
  induction cs generalizing n with
  | nil => simp [quotesAny, hslash]
  | cons c cs ih =>
      rw [List.cons_append, quotesAny, quotesAny]
      split
      · exact ih (n + 1)
      · rw [ih, Bool.or_assoc]

/-- Nothing that is special stands free in an escaped text. -/
theorem standsFree_guardSpecials {special : Char → Bool}
    (hsub : ∀ c, p c = true → special c = true) (cs : List Char) (n : Nat) :
    standsFree p (written special n cs) (guardSpecials special cs) = false := by
  have hrun : ∀ (n k : Nat) (cs : List Char),
      standsFree p n (List.replicate k '\\' ++ cs) = standsFree p (n + k) cs := by
    intro n k cs
    induction k generalizing n with
    | zero => rfl
    | succ k ih =>
        show standsFree p (n + 1) (List.replicate k '\\' ++ cs) = _
        rw [ih, Nat.add_right_comm, Nat.add_assoc]
  induction cs generalizing n with
  | nil => rfl
  | cons c cs ih =>
      by_cases hc : c = '\\'
      · subst hc
        have hnext := ih (n + 1)
        rw [written_succ] at hnext
        rw [guardSpecials_backslash, hrun, written, leadsToSpecial_backslash]
        exact hnext
      · have hlead : leadsToSpecial special (c :: cs) = special c := if_neg hc
        have htail := ih 0
        rw [written_zero] at htail
        cases hs : special c with
        | true =>
            have hodd : (2 * n + 1) % 2 = 1 := by omega
            rw [guardSpecials_special hc hs, written, hlead, hs, if_pos rfl]
            show standsFree p (2 * n + 1) (c :: guardSpecials special cs) = false
            rw [standsFree, if_neg hc, htail, hodd]
            rfl
        | false =>
            have hp : p c = false := by
              by_contra hp
              rw [hsub c (by simpa using hp)] at hs
              cases hs
            rw [guardSpecials_plain hc hs, standsFree, if_neg hc, htail, hp, Bool.and_false]
            rfl

theorem length_le_of_mem_wordOf {word w : List Char} (h : w ∈ wordOf word) :
    w.length ≤ word.length := by
  unfold wordOf at h
  split at h
  · exact absurd h List.not_mem_nil
  · rw [List.mem_singleton.mp h]

theorem length_le_of_mem_scanWords {cs word w : List Char} {n : Nat}
    (h : w ∈ (scanWords ends n word cs).1) : w.length ≤ word.length + cs.length := by
  induction cs generalizing n word with
  | nil => exact length_le_of_mem_wordOf h
  | cons c cs ih =>
      have hgrow : ∀ {n : Nat}, w ∈ (scanWords ends n (word ++ [c]) cs).1 →
          w.length ≤ word.length + (c :: cs).length := by
        intro n hw
        have := ih hw
        rw [List.length_append, List.length_singleton] at this
        rw [List.length_cons]
        omega
      unfold scanWords at h
      split at h
      · exact hgrow h
      · split at h
        · exact Nat.le_add_right_of_le (length_le_of_mem_wordOf h)
        · split at h
          · rcases List.mem_append.mp h with hfirst | hlater
            · exact Nat.le_add_right_of_le (length_le_of_mem_wordOf hfirst)
            · have := ih hlater
              rw [List.length_nil] at this
              rw [List.length_cons]
              omega
          · exact hgrow h

/-- **A word as long as its text** is the text, and nothing ended or separated it. -/
theorem scanWords_singleton {cs word w : List Char} {n : Nat}
    (h : (scanWords ends n word cs).1 = [w]) (hlong : word.length + cs.length ≤ w.length) :
    w = word ++ cs ∧ standsFree isSeparator n cs = false ∧ standsFree ends n cs = false := by
  have hone : ∀ {word : List Char}, wordOf word = [w] → w = word := by
    intro word hword
    unfold wordOf at hword
    split at hword
    · cases hword
    · exact (List.singleton_inj.mp hword).symm
  induction cs generalizing n word with
  | nil => exact ⟨(hone h).trans (List.append_nil _).symm, rfl, rfl⟩
  | cons c cs ih =>
      rw [List.length_cons] at hlong
      have hgrow : ∀ {n : Nat}, (scanWords ends n (word ++ [c]) cs).1 = [w] →
          w = word ++ c :: cs ∧ standsFree isSeparator n cs = false ∧
            standsFree ends n cs = false := by
        intro n hscan
        obtain ⟨hw, hrest⟩ := ih hscan (by rw [List.length_append, List.length_singleton]; omega)
        exact ⟨hw.trans (List.append_assoc _ _ _), hrest⟩
      unfold scanWords at h
      unfold standsFree
      split at h
      · next hback =>
          rw [if_pos hback, if_pos hback]
          exact hgrow h
      · next hback =>
          rw [if_neg hback, if_neg hback]
          split at h
          · -- the word ended before the character
            have := congrArg List.length (hone h)
            omega
          · next hends =>
              split at h
              · -- the word is one of the two halves, and both are too short
                exfalso
                have hboth : wordOf word ++ (scanWords ends 0 [] cs).1 = [w] := h
                rcases List.mem_append.mp (hboth ▸ List.mem_singleton.mpr rfl) with hfirst | hlater
                · have := length_le_of_mem_wordOf hfirst
                  omega
                · have := length_le_of_mem_scanWords hlater
                  rw [List.length_nil] at this
                  omega
              · next hsep =>
                  obtain ⟨hw, hseps, hendss⟩ := hgrow h
                  refine ⟨hw, ?_, ?_⟩
                  · rw [hseps, Bool.or_false]
                    simpa using hsep
                  · rw [hendss, Bool.or_false]
                    simpa using hends

/-- A text in which nothing ends or separates words is put into the word that was begun. -/
theorem scanWords_of_forall {cs : List Char}
    (h : ∀ c ∈ cs, isSeparator c = false ∧ ends c = false) (n : Nat) (word rest : List Char) :
    scanWords ends n word (cs ++ rest) = scanWords ends (settle n cs).2 (word ++ cs) rest := by
  induction cs generalizing n word with
  | nil => rw [List.append_nil, List.nil_append, settle]
  | cons c cs ih =>
      obtain ⟨⟨hsep, hends⟩, hcs⟩ := List.forall_mem_cons.mp h
      have happend : word ++ c :: cs = word ++ [c] ++ cs := by simp
      rw [List.cons_append, happend, settle]
      by_cases hback : c = '\\'
      · rw [if_pos hback, ← ih hcs, scanWords, if_pos hback]
      · rw [if_neg hback, scanWords_plain hback hends hsep, ih hcs]

end Lossless

/-! ### Names with a text in front -/

namespace NamePlace

variable {place : NamePlace}

/-- **A text that a place leaves as it is** when it stands there without being escaped. -/
structure Keeps (place : NamePlace) (cs : List Char) : Prop where
  no_home : cs.head? ≠ some '~'
  plain : ∀ c ∈ cs, isSeparator c = false ∧ place.ends c = false ∧ place.wild c = false
  no_quote : quotesAny place.quotable 0 cs = false

instance (place : NamePlace) (cs : List Char) : Decidable (place.Keeps cs) :=
  decidable_of_iff (cs.head? ≠ some '~' ∧
      cs.all (fun c => !isSeparator c && !place.ends c && !place.wild c) ∧
      quotesAny place.quotable 0 cs = false)
    ⟨fun h => ⟨h.1, by simpa [and_assoc] using h.2.1, h.2.2⟩,
      fun h => ⟨h.no_home, by simpa [and_assoc] using h.plain, h.no_quote⟩⟩

/-- A slash is of no kind of which all characters can be quoted. -/
theorem Sound.slash_eq_false (hplace : place.Sound) {p : Char → Bool}
    (hp : ∀ c, p c = true → place.quotable c = true) : p '/' = false := by
  by_contra hslash
  have hquotable := hp '/' (by simpa using hslash)
  rw [hplace.slash] at hquotable
  cases hquotable

/-- **One name is read** of one word that stands for itself. -/
theorem readNames?_eq_singleton {text : List Char} {name : String}
    (h : place.readNames? text = some [name]) :
    ∃ word, (scanWords place.ends 0 [] text).1 = [word] ∧ place.readName? word = some name := by
  unfold readNames? at h
  split at h
  · next words hscan =>
      rw [hscan]
      cases words with
      | nil => cases h
      | cons word words =>
          simp only [List.mapM_cons, Option.bind_eq_bind, Option.bind_eq_some_iff,
            Option.pure_def, Option.some.injEq, List.cons.injEq] at h
          obtain ⟨found, hfound, others, hothers, rfl, rfl⟩ := h
          cases words with
          | nil => exact ⟨word, rfl, hfound⟩
          | cons next words =>
              simp only [List.mapM_cons, Option.bind_eq_bind, Option.bind_eq_some_iff,
                Option.pure_def, Option.some.injEq] at hothers
              obtain ⟨_, _, _, _, hnil⟩ := hothers
              cases hnil
  · cases h

/-- What the name of a word says of the word. -/
theorem readName?_eq_some {word : List Char} {name : String} (h : place.readName? word = some name) :
    word.head? ≠ some '~' ∧ standsFree place.wild 0 word = false ∧
      name.toList = unguard place.quotable 0 word := by
  unfold readName? at h
  split at h
  · cases h
  · next hword =>
      obtain ⟨hhome, hfree⟩ := not_or.mp hword
      rw [← Option.some.inj h, readName, String.toList_ofList]
      exact ⟨hhome, by simpa using hfree, rfl⟩

/-- **A name is no longer than its text.** -/
theorem length_le_of_readNames? {text : List Char} {name : String}
    (h : place.readNames? text = some [name]) : name.length ≤ text.length := by
  obtain ⟨word, hword, hname⟩ := readNames?_eq_singleton h
  obtain ⟨-, -, htext⟩ := readName?_eq_some hname
  have hmem : word ∈ (scanWords place.ends 0 [] text).1 := by
    rw [hword]
    exact List.mem_singleton.mpr rfl
  have hscan := length_le_of_mem_scanWords hmem
  have hquotes := length_unguard_le place.quotable word 0
  rw [← htext, String.length_toList] at hquotes
  rw [List.length_nil] at hscan
  omega

/-- **A text that is read as it is** is kept. -/
theorem keeps_of_readNames? (hplace : place.Sound) {text : List Char}
    (h : place.readNames? text = some [String.ofList text]) : place.Keeps text := by
  obtain ⟨word, hword, hname⟩ := readNames?_eq_singleton h
  obtain ⟨hhome, hwild, htext⟩ := readName?_eq_some hname
  rw [String.toList_ofList] at htext
  have hquotes := length_unguard_le place.quotable word 0
  rw [← htext] at hquotes
  obtain ⟨heq, hseps, hends⟩ := scanWords_singleton hword (by rw [List.length_nil]; omega)
  obtain rfl : word = text := heq
  -- a backslash that quotes something would be missing
  have hquote : quotesAny place.quotable 0 word = false := by
    by_contra hquote
    have hlost := length_unguard_lt (by simpa using hquote)
    rw [← htext] at hlost
    omega
  have hforall : ∀ {p : Char → Bool}, (∀ c, p c = true → place.quotable c = true) →
      standsFree p 0 word = false → ∀ c ∈ word, p c = false :=
    fun hp hfree => forall_of_standsFree_eq_false hp hplace.backslash hfree hquote
  refine ⟨hhome, fun c hc => ⟨?_, ?_, ?_⟩, hquote⟩
  · exact hforall (fun c h => hplace.special c (hplace.separator c h)) hseps c hc
  · exact hforall hplace.ends hends c hc
  · exact hforall (fun c h => hplace.special c (hplace.wild c h)) hwild c hc

/-- What is kept with a slash and more behind it is kept. -/
theorem Keeps.of_append_slash (hplace : place.Sound) {held rest : List Char} (hne : held ≠ [])
    (h : place.Keeps (held ++ '/' :: rest)) : place.Keeps held := by
  refine ⟨?_, fun c hc => h.plain c (List.mem_append_left _ hc), ?_⟩
  · obtain ⟨c, cs, rfl⟩ := List.exists_cons_of_ne_nil hne
    exact h.no_home
  · have hquote := h.no_quote
    rw [quotesAny_append_slash _ _ _ hplace.slash] at hquote
    exact (Bool.or_eq_false_iff.mp hquote).1

/-- **A name that begins with a text that is kept** and goes on with an escaped one. -/
theorem readNames?_held (hplace : place.Sound) {held cs : List Char} (hne : held ≠ [])
    (hkeeps : place.Keeps held) (hcs : ∀ c ∈ cs, place.quotable c = true → place.special c = true) :
    place.readNames? (held ++ '/' :: guardSpecials place.special cs) =
      some [String.ofList (held ++ '/' :: cs)] := by
  have hseparator : ∀ c, isSeparator c = true → place.quotable c = true :=
    fun c h => hplace.special c (hplace.separator c h)
  have hwild : ∀ c, place.wild c = true → place.quotable c = true :=
    fun c h => hplace.special c (hplace.wild c h)
  have hscan : scanWords place.ends 0 [] (held ++ '/' :: guardSpecials place.special cs) =
      ([held ++ '/' :: guardSpecials place.special cs], none) := by
    have hends : ∀ c ∈ cs, place.ends c = true → place.special c = true :=
      fun c hc h => hcs c hc (hplace.ends c h)
    have hescaped := scanWords_guardSpecials hplace.separator hends 0 (held ++ ['/']) []
    rw [written_zero, List.append_nil, List.append_assoc] at hescaped
    rw [scanWords_of_forall fun c hc => ⟨(hkeeps.plain c hc).1, (hkeeps.plain c hc).2.1⟩,
      List.nil_append, scanWords_plain (by decide) (hplace.slash_eq_false hplace.ends)
        (hplace.slash_eq_false hseparator), hescaped, scanWords]
    exact congrArg (·, none) (wordOf_of_ne_nil (List.append_ne_nil_of_left_ne_nil hne _))
  have hname : place.readName? (held ++ '/' :: guardSpecials place.special cs) =
      some (String.ofList (held ++ '/' :: cs)) := by
    have hhome : (held ++ '/' :: guardSpecials place.special cs).head? ≠ some '~' := by
      obtain ⟨c, rest, rfl⟩ := List.exists_cons_of_ne_nil hne
      exact hkeeps.no_home
    have hfree : standsFree place.wild 0 (held ++ '/' :: guardSpecials place.special cs) = false := by
      have hescaped := standsFree_guardSpecials hplace.wild cs 0
      rw [written_zero] at hescaped
      rw [standsFree_append_slash _ _ _ (hplace.slash_eq_false hwild), hescaped,
        standsFree_of_forall fun c hc => (hkeeps.plain c hc).2.2]
      rfl
    rw [readName?, if_neg (not_or.mpr ⟨hhome, by simp [hfree]⟩), readName,
      unguard_of_quotesAny_eq_false hkeeps.no_quote hplace.slash,
      unguard_guardSpecials_nil hplace.special hcs]
    rfl
  unfold readNames?
  rw [hscan]
  simp [hname]

end NamePlace

/-! ## The places together -/

/-- The places in which one path is one word of the shell or one name. -/
def wordContexts : List Context :=
  [.shellWord, .dependency, .target]

/-- **What is read in a place** of an expanded text: the words of the shell, or the names of make. -/
def readAs? : Context → List Char → Option (List String)
  | .shellWord, text => Shell.literalWords? (String.ofList text)
  | .dependency, text => dependencyPlace.readNames? text
  | .target, text => targetPlace.readNames? text
  | .shellLine, _ | .functionArgument, _ => none

/-- **A text that a place leaves as it is.** -/
def FitsPlace : Context → List Char → Prop
  | .shellWord, cs => Shell.isBareWord (String.ofList cs) = true
  | .dependency, cs => dependencyPlace.Keeps cs
  | .target, cs => targetPlace.Keeps cs
  | .shellLine, _ | .functionArgument, _ => False

instance : (context : Context) → (cs : List Char) → Decidable (FitsPlace context cs)
  | .shellWord, _ => inferInstanceAs (Decidable (_ = true))
  | .dependency, cs => inferInstanceAs (Decidable (dependencyPlace.Keeps cs))
  | .target, cs => inferInstanceAs (Decidable (targetPlace.Keeps cs))
  | .shellLine, _ | .functionArgument, _ => inferInstanceAs (Decidable False)

/-- **A path below a directory**: one line, not empty, not absolute. In a target it has no colon, which is
    not escaped there. -/
structure IsBelow (context : Context) (text : String) : Prop where
  ne_empty : text ≠ ""
  one_line : '\n' ∉ text.toList
  relative : text.toList.head? ≠ some '/'
  no_colon : context = .target → ':' ∉ text.toList

section Places

variable {context : Context} {value : String → List Char}

/-- An escaped text refers to nothing. -/
theorem expand_escapeChars (hcontext : context ∈ wordContexts) (value value' : String → List Char)
    (cs : List Char) :
    expand value (escapeChars context cs) = expand value' (escapeChars context cs) := by
  cases context with
  | shellWord =>
      rw [escapeChars, quoteChars_doubleDollars, expand_doubleDollars, expand_doubleDollars]
  | dependency => rw [escapeChars_dependency, expand_doubleDollars, expand_doubleDollars]
  | target => rw [escapeChars_target, expand_doubleDollars, expand_doubleDollars]
  | shellLine => exact absurd hcontext (by decide)
  | functionArgument => exact absurd hcontext (by decide)

/-- **What is read is no longer than its text.** -/
theorem length_le_of_readAs? {text : List Char} {name : String}
    (h : readAs? context text = some [name]) : name.length ≤ text.length := by
  cases context with
  | shellWord =>
      have hlength := Shell.length_le_of_literalWords? h
      rwa [String.length_ofList] at hlength
  | dependency => exact NamePlace.length_le_of_readNames? h
  | target => exact NamePlace.length_le_of_readNames? h
  | shellLine => cases h
  | functionArgument => cases h

/-- **A text that is read as it is** fits its place, and so does what is before a slash in it. -/
theorem fitsPlace_of_readAs? {held rest : List Char} (hne : held ≠ [])
    (h : readAs? context (held ++ '/' :: rest) = some [String.ofList (held ++ '/' :: rest)]) :
    FitsPlace context held := by
  cases context with
  | shellWord =>
      obtain ⟨c, cs, rfl⟩ := List.exists_cons_of_ne_nil hne
      rw [List.cons_append] at h
      obtain ⟨hhash, htilde, hc, hall⟩ :=
        Shell.isBareWord_cons_iff.mp (Shell.literalWords?_iff_isBareWord.mp h)
      rw [List.all_append, Bool.and_eq_true] at hall
      exact Shell.isBareWord_cons_iff.mpr ⟨hhash, htilde, hc, hall.1⟩
  | dependency =>
      exact (NamePlace.keeps_of_readNames? sound_dependencyPlace h).of_append_slash
        sound_dependencyPlace hne
  | target =>
      exact (NamePlace.keeps_of_readNames? sound_targetPlace h).of_append_slash sound_targetPlace hne
  | shellLine => cases h
  | functionArgument => cases h

/-- **A path below a directory that fits** is read as one text. -/
theorem readAs?_held {held : List Char} (hne : held ≠ []) (hheld : FitsPlace context held)
    {text : String} (hbelow : IsBelow context text) :
    readAs? context (held ++ '/' :: expand value (escapeChars context text.toList)) =
      some [String.ofList (held ++ '/' :: text.toList)] := by
  cases context with
  | shellWord =>
      have hbare : Shell.isBareWord (String.ofList (held ++ ['/'])) = true :=
        Shell.isBareWord_append hheld (by decide)
      have hreads := Shell.reads_bare_quoteChars hbare text.toList
      rw [List.append_assoc, List.append_assoc] at hreads
      rw [escapeChars, quoteChars_doubleDollars, expand_doubleDollars]
      exact Shell.literalWords?_of_reads hreads
  | dependency =>
      rw [escapeChars_dependency, expand_doubleDollars]
      exact NamePlace.readNames?_held sound_dependencyPlace hne hheld fun c _ h => h
  | target =>
      rw [escapeChars_target, expand_doubleDollars]
      exact NamePlace.readNames?_held sound_targetPlace hne hheld fun c hc =>
        quotable_special_target (hbelow.no_colon rfl) hc
  | shellLine => cases hheld
  | functionArgument => cases hheld

/-- **The directories below which every path is read back**, where a variable holds the directory: those
    that can be assigned and fit the place. -/
theorem readAs?_assigned_iff (value : String → List Char) (hcontext : context ∈ wordContexts)
    {dir : List Char} (hne : dir ≠ []) :
    (∀ text, IsBelow context text → ∃ held, readAssigned? value (doubleDollars dir) = some held ∧
      readAs? context (held ++ '/' :: expand value (escapeChars context text.toList)) =
        some [String.ofList (dir ++ '/' :: text.toList)]) ↔
      IsAssignable dir ∧ FitsPlace context dir := by
  constructor
  · intro h
    -- a name of one plain letter is as long when it is escaped
    have hbelow : IsBelow context "x" := ⟨by decide, by decide, by decide, fun _ => by decide⟩
    have hescape : ∀ context ∈ wordContexts, escapeChars context "x".toList = ['x'] := by decide
    have hexpand : expand value ['x'] = ['x'] := rfl
    obtain ⟨held, hheld, hread⟩ := h "x" hbelow
    rw [hescape context hcontext, hexpand] at hread
    have hlength := length_le_of_readAs? hread
    have hx : "x".toList.length = 1 := rfl
    simp only [String.length_ofList, List.length_append, List.length_cons, List.length_nil, hx]
      at hlength
    -- what the variable lost would have to come back from a text that is no longer than its name
    have hassignable : IsAssignable dir := by
      by_contra hnot
      have := length_lt_of_not_isAssignable hnot hheld
      omega
    rw [readAssigned?_of_isAssignable value hassignable] at hheld
    obtain rfl := Option.some.inj hheld
    exact ⟨hassignable, fitsPlace_of_readAs? hne hread⟩
  · rintro ⟨hassignable, hfits⟩ text hbelow
    exact ⟨dir, readAssigned?_of_isAssignable value hassignable, readAs?_held hne hfits hbelow⟩

end Places

end MakeGraph.Make
