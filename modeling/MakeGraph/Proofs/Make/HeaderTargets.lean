import MakeGraph.Make.Layout
import MakeGraph.Proofs.Make.Names
import Mathlib.Data.List.TakeWhile

/-!
# `Proofs.Make.HeaderTargets` — how make reads the targets of a rule back

The header of a rule is written word by word and read as a whole line, so what ends one word meets
what begins after it. `readHeader` reads a line like make: the line is expanded, the targets end at
the first `:`, words end at blanks, the word `|` begins the order-only prerequisites, and a character
with an odd number of backslashes before it does none of this. `\:` in a target is a literal colon.

A colon in a target is not guarded by the writer, so it ends the targets, and neither is the backslash
at its end, which quotes what the line goes on with. All other targets are read back
(`readable_of_scanTargets`).

## Contents

* `scanWords`, `splitBar`, `readHeader` — the reader
* `scanWords_guardSpecials` — a word inside of a line
* `TargetReadable`, `scanTargets_ne` — the names that are not read back
* `scanTargets_of_readable`, `readable_of_scanTargets` — the side before the colon
-/

namespace MakeGraph.Make

/-! ## The reader -/

/-- A character that separates words. -/
def isSeparator (c : Char) : Bool :=
  c == ' ' || c == '\t'

/-- A word of a line, unless it is empty. -/
def wordOf (word : List Char) : List (List Char) :=
  if word = [] then [] else [word]

/-- The words of a line up to the first character of `ends`, and what is behind it. `n` backslashes
    stand directly before the line and `word` was read before; after an odd number of backslashes a
    character neither ends nor separates words. -/
def scanWords (ends : Char → Bool) :
    Nat → List Char → List Char → List (List Char) × Option (List Char)
  | _, word, [] => (wordOf word, none)
  | n, word, c :: cs =>
      if c = '\\' then scanWords ends (n + 1) (word ++ [c]) cs
      else if n % 2 = 0 ∧ ends c then (wordOf word, some cs)
      else if n % 2 = 0 ∧ isSeparator c then
        (wordOf word ++ (scanWords ends 0 [] cs).1, (scanWords ends 0 [] cs).2)
      else scanWords ends 0 (word ++ [c]) cs

/-- The words before and after the first word `|`. -/
def splitBar : List (List Char) → List (List Char) × List (List Char)
  | [] => ([], [])
  | word :: words =>
      if word = ['|'] then ([], words) else (word :: (splitBar words).1, (splitBar words).2)

/-- A character that a backslash quotes in a target. -/
def quotableInTargets (c : Char) : Bool :=
  c == ':' || Context.specialInTargets c

/-- The name that a word stands for. -/
def readName (quotable : Char → Bool) (word : List Char) : String :=
  String.ofList (unguard quotable 0 word)

/-- What the header of a rule says. -/
structure Header where
  /-- The names of the targets. -/
  targets : List String
  /-- The names of the prerequisites. -/
  deps : List String
  /-- The names of the order-only prerequisites. -/
  orderOnly : List String
deriving DecidableEq, Repr

/-- **A header as make reads it** after its expansion; there is none without a colon. -/
def readLine (line : List Char) : Option Header :=
  match scanWords (· == ':') 0 [] line with
  | (_, none) => none
  | (targets, some rest) =>
      let (deps, orderOnly) := splitBar (scanWords (fun _ => false) 0 [] rest).1
      some {
        targets := targets.map (readName quotableInTargets)
        deps := deps.map (readName Context.specialInPrerequisites)
        orderOnly := orderOnly.map (readName Context.specialInPrerequisites) }

/-- The header that a text begins with, where variables hold `value`. -/
def readHeader (value : String → List Char) (text : String) : Option Header :=
  readLine (expand value (text.toList.takeWhile (· ≠ '\n')))

/-! ## One word -/

section Words

variable {special quotable ends : Char → Bool}

theorem scanWords_replicate (n k : Nat) (word cs : List Char) :
    scanWords ends n word (List.replicate k '\\' ++ cs) =
      scanWords ends (n + k) (word ++ List.replicate k '\\') cs := by
  induction k generalizing n word with
  | zero => rw [List.replicate_zero, List.append_nil, List.nil_append, Nat.add_zero]
  | succ k ih =>
      show (if '\\' = '\\' then scanWords ends (n + 1) (word ++ ['\\']) (List.replicate k '\\' ++ cs)
        else _) = _
      rw [if_pos rfl, ih, Nat.add_right_comm, Nat.add_assoc, List.append_assoc]
      rfl

theorem scanWords_quoted {n : Nat} {c : Char} (hn : n % 2 = 1) (hc : c ≠ '\\')
    (word cs : List Char) :
    scanWords ends n word (c :: cs) = scanWords ends 0 (word ++ [c]) cs := by
  have hodd : ¬ n % 2 = 0 := by omega
  rw [scanWords, if_neg hc, if_neg (fun h => hodd h.1), if_neg (fun h => hodd h.1)]

theorem scanWords_plain {c : Char} (hc : c ≠ '\\') (hends : ends c = false)
    (hsep : isSeparator c = false) (n : Nat) (word cs : List Char) :
    scanWords ends n word (c :: cs) = scanWords ends 0 (word ++ [c]) cs := by
  rw [scanWords, if_neg hc, if_neg (by simp [hends]), if_neg (by simp [hsep])]

/-- **An escaped word inside of a line** is one word, and whether it ends there depends on its last
    backslashes. The induction carries the backslashes that were read so far. -/
theorem scanWords_guardSpecials {cs : List Char}
    (hsep : ∀ c, isSeparator c = true → special c = true)
    (hends : ∀ c ∈ cs, ends c = true → special c = true) (n : Nat) (word rest : List Char) :
    scanWords ends (written special n cs) word (guardSpecials special cs ++ rest) =
      scanWords ends (settle n cs).2 (word ++ guardSpecials special cs) rest := by
  induction cs generalizing n word with
  | nil =>
      show scanWords ends n word rest = scanWords ends n (word ++ []) rest
      rw [List.append_nil]
  | cons c cs ih =>
      have ih := ih fun d hd => hends d (List.mem_cons_of_mem _ hd)
      unfold settle
      by_cases hc : c = '\\'
      · -- a backslash is only counted: the character behind the run says what it means
        subst hc
        rw [if_pos rfl, guardSpecials_backslash, List.append_assoc, scanWords_replicate,
          ← List.append_assoc, ← ih, written_succ]
        simp only [written, leadsToSpecial_backslash]
      · have hlead : leadsToSpecial special (c :: cs) = special c := if_neg hc
        have htail := fun word => ih 0 word
        rw [written_zero] at htail
        rw [if_neg hc]
        cases hs : special c with
        | true =>
            have hodd : (2 * n + 1) % 2 = 1 := by omega
            rw [guardSpecials_special hc hs, written, hlead, hs, if_pos rfl]
            show scanWords ends (2 * n) word (List.replicate 1 '\\' ++ c :: (_ ++ rest)) = _
            rw [scanWords_replicate, scanWords_quoted hodd hc, htail]
            simp only [List.append_assoc]
            rfl
        | false =>
            have hends' : ends c = false := Bool.eq_false_iff.mpr fun h => by
              rw [hends c List.mem_cons_self h] at hs
              cases hs
            have hsep' : isSeparator c = false := Bool.eq_false_iff.mpr fun h => by
              rw [hsep c h] at hs
              cases hs
            rw [guardSpecials_plain hc hs, written, hlead, hs, if_neg (by decide), List.cons_append,
              scanWords_plain hc hends' hsep', htail]
            simp only [List.append_assoc]
            rfl

/-- A word that was begun is the first word of its line. -/
theorem scanWords_begun {word : List Char} (hword : word ≠ []) (n : Nat) (cs : List Char) :
    ∃ more words, (scanWords ends n word cs).1 = (word ++ more) :: words := by
  have hone : wordOf word = [word ++ []] := by
    rw [List.append_nil, wordOf, if_neg hword]
  induction cs generalizing n word with
  | nil => exact ⟨[], [], hone⟩
  | cons c cs ih =>
      have hgrow : ∀ n, ∃ more words,
          (scanWords ends n (word ++ [c]) cs).1 = (word ++ more) :: words := by
        intro n
        have hne : word ++ [c] ≠ [] := List.append_ne_nil_of_right_ne_nil _ (List.cons_ne_nil _ _)
        obtain ⟨more, words, h⟩ := ih hne n (by rw [List.append_nil, wordOf, if_neg hne])
        exact ⟨c :: more, words, by rw [h, List.append_assoc]; rfl⟩
      unfold scanWords
      split
      · exact hgrow _
      · split
        · exact ⟨[], [], hone⟩
        · split
          · exact ⟨[], (scanWords ends 0 [] cs).1, by rw [hone]; rfl⟩
          · exact hgrow 0

/-- A word at the beginning of a line. -/
theorem scanWords_word {cs : List Char} (hsep : ∀ c, isSeparator c = true → special c = true)
    (hends : ∀ c ∈ cs, ends c = true → special c = true) (rest : List Char) :
    scanWords ends 0 [] (guardSpecials special cs ++ rest) =
      scanWords ends (openBackslashes cs) (guardSpecials special cs) rest := by
  have h := scanWords_guardSpecials hsep hends 0 [] rest
  rw [written_zero] at h
  exact h

theorem guardSpecials_ne_nil {cs : List Char} (h : cs ≠ []) : guardSpecials special cs ≠ [] := by
  obtain ⟨c, cs, rfl⟩ := List.exists_cons_of_ne_nil h
  unfold guardSpecials
  refine List.append_ne_nil_of_left_ne_nil ?_ _
  split
  · split <;> exact List.cons_ne_nil _ _
  · split <;> exact List.cons_ne_nil _ _

/-- A blank that nothing quotes ends a word. -/
theorem scanWords_separator {n : Nat} (hn : n % 2 = 0) (hends : ends ' ' = false)
    (word rest : List Char) :
    scanWords ends n word (' ' :: rest) =
      (wordOf word ++ (scanWords ends 0 [] rest).1, (scanWords ends 0 [] rest).2) := by
  rw [scanWords, if_neg (by decide), if_neg (by simp [hends]), if_pos ⟨hn, by decide⟩]

theorem wordOf_of_ne_nil {word : List Char} (h : word ≠ []) : wordOf word = [word] :=
  if_neg h

end Words

/-! ## Targets -/

section Targets

/-- A target that ends neither the targets nor the word behind it. -/
def TargetReadable (t : List Char) : Prop :=
  ':' ∉ t ∧ openBackslashes t % 2 = 0

/-- The text of a target. -/
abbrev targetChars (t : List Char) : List Char :=
  guardSpecials Context.specialInTargets t

/-- The words of a line before its colon. -/
abbrev scanTargets (line : List Char) : List (List Char) × Option (List Char) :=
  scanWords (· == ':') 0 [] line

variable {t : List Char}

theorem separator_special_target {c : Char} (h : isSeparator c = true) :
    Context.specialInTargets c = true := by
  simp only [isSeparator, Bool.or_eq_true, beq_iff_eq] at h
  rcases h with rfl | rfl <;> decide

theorem special_quotable_target {c : Char} (h : Context.specialInTargets c = true) :
    quotableInTargets c = true := by
  rw [quotableInTargets, h, Bool.or_true]

/-- Without a colon nothing but special characters can be quoted in a target. -/
theorem quotable_special_target (hcolon : ':' ∉ t) {c : Char} (hc : c ∈ t)
    (h : quotableInTargets c = true) : Context.specialInTargets c = true := by
  simp only [quotableInTargets, Bool.or_eq_true, beq_iff_eq] at h
  rcases h with rfl | h
  · exact absurd hc hcolon
  · exact h

theorem scanTargets_target (hcolon : ':' ∉ t) (rest : List Char) :
    scanTargets (targetChars t ++ rest) =
      scanWords (· == ':') (openBackslashes t) (targetChars t) rest := by
  refine scanWords_word (fun _ => separator_special_target) (fun c hc h => ?_) rest
  rw [beq_iff_eq] at h
  exact absurd (h ▸ hc) hcolon

theorem readTarget_target (hcolon : ':' ∉ t) :
    unguard quotableInTargets 0 (targetChars t) = t :=
  unguard_guardSpecials_nil (fun _ => special_quotable_target)
    fun _ => quotable_special_target hcolon

/-- Text before a colon is escaped without regard to what follows. -/
theorem targetChars_append_colon (a b : List Char) :
    targetChars (a ++ ':' :: b) = targetChars a ++ ':' :: targetChars b := by
  have hlead : ∀ a : List Char, leadsToSpecial Context.specialInTargets (a ++ ':' :: b) =
      leadsToSpecial Context.specialInTargets a := by
    intro a
    induction a with
    | nil => rfl
    | cons c a ih =>
        show (if c = '\\' then leadsToSpecial _ (a ++ ':' :: b) else _) = if c = '\\' then _ else _
        rw [ih]
  induction a with
  | nil => rfl
  | cons c a ih =>
      show (if c = '\\' then (if leadsToSpecial _ (a ++ ':' :: b) then _ else _) else _) ++
        targetChars (a ++ ':' :: b) = _
      rw [hlead, ih, ← List.append_assoc]
      rfl

/-- A name that quotes what follows goes on with it, so no name that begins with `a` is read first. -/
theorem scanTargets_ne_of_odd {a : List Char} (ha : ':' ∉ a) (hodd : openBackslashes a % 2 = 1)
    {c : Char} (hc : c = ' ' ∨ c = ':') (rest tail : List Char) (names : List (List Char)) :
    (scanTargets (targetChars a ++ c :: rest)).1.map (unguard quotableInTargets 0) ≠
      (a ++ tail) :: names := by
  intro heq
  have hback : c ≠ '\\' := by rcases hc with rfl | rfl <;> decide
  have hquotable : quotableInTargets c = true := by rcases hc with rfl | rfl <;> decide
  rw [scanTargets_target ha, scanWords_quoted hodd hback] at heq
  obtain ⟨word, words, hwords⟩ := scanWords_begun
    (List.append_ne_nil_of_right_ne_nil (targetChars a) (List.cons_ne_nil c [])) 0 rest
  rw [hwords, List.append_assoc, List.map_cons] at heq
  exact unguard_ne_of_odd (fun _ => special_quotable_target)
    (fun _ => quotable_special_target ha) hodd hback hquotable word tail (List.cons.inj heq).1

/-- A name that quotes nothing ends at a colon. -/
theorem scanTargets_colon {a : List Char} (ha : ':' ∉ a) (heven : openBackslashes a % 2 = 0)
    (rest : List Char) :
    scanTargets (targetChars a ++ ':' :: rest) = (wordOf (targetChars a), some rest) := by
  rw [scanTargets_target ha, scanWords, if_neg (by decide), if_pos ⟨heven, by decide⟩]

/-- **A target that is not readable** is not the first one that is read, whether a blank or the colon
    follows it. -/
theorem scanTargets_ne (hbad : ¬ TargetReadable t) {c : Char} (hc : c = ' ' ∨ c = ':')
    (rest : List Char) (names : List (List Char)) :
    (scanTargets (targetChars t ++ c :: rest)).1.map (unguard quotableInTargets 0) ≠ t :: names := by
  by_cases hcolon : ':' ∈ t
  · -- only what is before the first colon can be read, or it quotes the colon
    obtain ⟨a, b, rfl, ha⟩ := List.eq_append_cons_of_mem hcolon
    rw [targetChars_append_colon, List.append_assoc, List.cons_append]
    by_cases hopen : openBackslashes a % 2 = 0
    · rw [scanTargets_colon ha hopen]
      intro heq
      simp only [wordOf] at heq
      split at heq
      · cases heq
      · have hname := (List.cons.inj heq).1
        rw [readTarget_target ha] at hname
        simp at hname
    · exact scanTargets_ne_of_odd ha (by omega) (.inr rfl) _ (':' :: b) names
  · have hodd : openBackslashes t % 2 = 1 := by
      have : ¬ openBackslashes t % 2 = 0 := fun h => hbad ⟨hcolon, h⟩
      omega
    have h := scanTargets_ne_of_odd hcolon hodd hc rest [] names
    rwa [List.append_nil] at h

/-- The texts of targets, up to the colon. -/
def joinTargets (ts : List (List Char)) : List Char :=
  List.intercalate [' '] (ts.map targetChars)

theorem joinTargets_cons_cons (t u : List Char) (ts : List (List Char)) (rest : List Char) :
    joinTargets (t :: u :: ts) ++ rest = targetChars t ++ ' ' :: (joinTargets (u :: ts) ++ rest) := by
  unfold joinTargets
  rw [List.map_cons, List.map_cons, List.intercalate_cons_cons, List.append_assoc,
    List.append_assoc]
  rfl

theorem joinTargets_singleton (t : List Char) : joinTargets [t] = targetChars t :=
  List.intercalate_singleton

/-- Readable targets are found one by one, and the line is cut at the colon behind them. -/
theorem scanTargets_of_readable {ts : List (List Char)} (hts : ts ≠ [])
    (hne : ∀ t ∈ ts, t ≠ []) (hread : ∀ t ∈ ts, TargetReadable t) (rest : List Char) :
    scanTargets (joinTargets ts ++ ':' :: rest) = (ts.map targetChars, some rest) := by
  induction ts with
  | nil => exact absurd rfl hts
  | cons t ts ih =>
      obtain ⟨hcolon, heven⟩ := hread t List.mem_cons_self
      have hword : wordOf (targetChars t) = [targetChars t] :=
        wordOf_of_ne_nil (guardSpecials_ne_nil (hne t List.mem_cons_self))
      cases ts with
      | nil =>
          rw [joinTargets_singleton, scanTargets_colon hcolon heven, hword]
          rfl
      | cons u ts =>
          have htail := ih (List.cons_ne_nil u ts) (fun v hv => hne v (List.mem_cons_of_mem _ hv))
            fun v hv => hread v (List.mem_cons_of_mem _ hv)
          rw [joinTargets_cons_cons, scanTargets_target hcolon,
            scanWords_separator heven (by decide), hword]
          show ([targetChars t] ++ (scanTargets _).1, (scanTargets _).2) = _
          rw [htail]
          rfl

/-- **Targets are read as they are only where all are readable**: the first other one is read as
    something else. -/
theorem readable_of_scanTargets {ts : List (List Char)} {rest : List Char}
    (hne : ∀ t ∈ ts, t ≠ [])
    (h : (scanTargets (joinTargets ts ++ ':' :: rest)).1.map (unguard quotableInTargets 0) = ts) :
    ∀ t ∈ ts, TargetReadable t := by
  induction ts with
  | nil => exact fun t ht => absurd ht List.not_mem_nil
  | cons t ts ih =>
      by_cases hread : TargetReadable t
      · obtain ⟨hcolon, heven⟩ := hread
        have hword : wordOf (targetChars t) = [targetChars t] :=
          wordOf_of_ne_nil (guardSpecials_ne_nil (hne t List.mem_cons_self))
        cases ts with
        | nil => exact fun u hu => List.mem_singleton.mp hu ▸ ⟨hcolon, heven⟩
        | cons u ts =>
            rw [joinTargets_cons_cons, scanTargets_target hcolon,
              scanWords_separator heven (by decide), hword] at h
            have htail := ih (fun v hv => hne v (List.mem_cons_of_mem _ hv)) (List.cons.inj h).2
            exact List.forall_mem_cons.mpr ⟨⟨hcolon, heven⟩, htail⟩
      · cases ts with
        | nil =>
            rw [joinTargets_singleton] at h
            exact absurd h (scanTargets_ne hread (.inr rfl) rest [])
        | cons u ts =>
            rw [joinTargets_cons_cons] at h
            exact absurd h (scanTargets_ne hread (.inl rfl) _ (u :: ts))

end Targets

end MakeGraph.Make
