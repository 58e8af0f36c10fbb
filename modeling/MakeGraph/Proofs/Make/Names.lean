import MakeGraph.Proofs.Make.Expansion

/-!
# `Proofs.Make.Names` — how make reads an escaped name back

When make has expanded a line (`expand`), it takes the backslashes off that quote something in a name.
Here is this reader and what it does to escaped text.

A backslash means something only in front of a special character, so the last backslashes of a name
are open: what they mean depends on the character that follows the name in its line. `settle` cuts a
name into the part that is read for certain and the number of its open backslashes, and
`unguard_guardSpecials` says what is read of an escaped name inside of any line.

## Contents

* `unguard` — the reader
* `guardSpecials_doubleDollars` — backslashes and dollars do not meet
* `settle`, `openBackslashes` — a name and its last backslashes
* `unguard_guardSpecials`, `unguard_ne_of_odd` — the reader on escaped text
* `guardSpecials_append`, `unguard_append` — endings such as those of files
-/

namespace MakeGraph.Make

/-! ## The reader -/

/-- The name that a text stands for, behind `n` backslashes: those before a character that they can
    quote are halved, the odd one being gone, and all others stay. -/
def unguard (quotable : Char → Bool) : Nat → List Char → List Char
  | n, [] => List.replicate n '\\'
  | n, c :: cs =>
      if c = '\\' then unguard quotable (n + 1) cs
      else List.replicate (if quotable c then n / 2 else n) '\\' ++ c :: unguard quotable 0 cs

/-! ## Dollars -/

theorem leadsToSpecial_doubleDollars (special : Char → Bool) (cs : List Char) :
    leadsToSpecial special (doubleDollars cs) = leadsToSpecial special cs := by
  induction cs with
  | nil => rfl
  | cons c cs ih =>
      show leadsToSpecial special ((if c = '$' then ['$', '$'] else [c]) ++ doubleDollars cs) = _
      by_cases hc : c = '$'
      · rw [if_pos hc, hc]
        show (if '$' = '\\' then _ else special '$') = if '$' = '\\' then _ else special '$'
        rw [if_neg (by decide), if_neg (by decide)]
      · rw [if_neg hc]
        show (if c = '\\' then leadsToSpecial special (doubleDollars cs) else special c) = _
        rw [ih]
        rfl

/-- Backslashes and dollars do not meet: it does not matter which are written first. -/
theorem guardSpecials_doubleDollars {special : Char → Bool} (hs : special '$' = false)
    (cs : List Char) :
    guardSpecials special (doubleDollars cs) = doubleDollars (guardSpecials special cs) := by
  induction cs with
  | nil => rfl
  | cons c cs ih =>
      by_cases hc : c = '$'
      · subst hc
        have hdollar : ∀ ds, guardSpecials special ('$' :: ds) = '$' :: guardSpecials special ds := by
          intro ds
          simp [guardSpecials, hs]
        show guardSpecials special ('$' :: '$' :: doubleDollars cs) = _
        rw [hdollar, hdollar, hdollar, ih]
        rfl
      · rw [doubleDollars_cons hc]
        simp only [guardSpecials, leadsToSpecial_doubleDollars, ih, doubleDollars_append]
        congr 1
        refine (doubleDollars_of_not_mem ?_).symm
        split
        · split <;> decide
        · split <;> simp [Ne.symm hc]

/-! ## Backslashes -/

/-- A name behind `n` backslashes, cut where its last backslashes begin: what is before them, and how
    many there are. -/
def settle : Nat → List Char → List Char × Nat
  | n, [] => ([], n)
  | n, c :: cs =>
      if c = '\\' then settle (n + 1) cs
      else (List.replicate n '\\' ++ c :: (settle 0 cs).1, (settle 0 cs).2)

/-- How many backslashes a name ends with. -/
def openBackslashes (cs : List Char) : Nat :=
  (settle 0 cs).2

theorem settle_eq (n : Nat) (cs : List Char) :
    (settle n cs).1 ++ List.replicate (settle n cs).2 '\\' = List.replicate n '\\' ++ cs := by
  induction cs generalizing n with
  | nil => exact (List.append_nil _).symm
  | cons c cs ih =>
      unfold settle
      by_cases hc : c = '\\'
      · rw [if_pos hc, ih, hc, List.replicate_succ', List.append_assoc]
        rfl
      · have htail := ih 0
        rw [if_neg hc]
        simpa using htail

theorem settle_append (n : Nat) (cs ds : List Char) :
    (settle n (cs ++ ds)).2 = (settle (settle n cs).2 ds).2 := by
  induction cs generalizing n with
  | nil => rfl
  | cons c cs ih =>
      rw [List.cons_append, settle, settle]
      split
      · exact ih (n + 1)
      · exact ih 0

/-- The backslashes that stand for `n` literal ones before a text. -/
def written (special : Char → Bool) (n : Nat) (cs : List Char) : Nat :=
  if leadsToSpecial special cs then 2 * n else n

/-- One more backslash of a name is one more or two more in its text. -/
theorem written_succ (special : Char → Bool) (n : Nat) (cs : List Char) :
    written special (n + 1) cs =
      written special n cs + (if leadsToSpecial special cs then 2 else 1) := by
  unfold written
  split <;> omega

theorem written_zero (special : Char → Bool) (cs : List Char) : written special 0 cs = 0 := by
  unfold written
  split <;> rfl

theorem leadsToSpecial_backslash (special : Char → Bool) (cs : List Char) :
    leadsToSpecial special ('\\' :: cs) = leadsToSpecial special cs :=
  if_pos rfl

theorem guardSpecials_backslash (special : Char → Bool) (cs : List Char) :
    guardSpecials special ('\\' :: cs) =
      List.replicate (if leadsToSpecial special cs then 2 else 1) '\\' ++
        guardSpecials special cs := by
  show (if '\\' = '\\' then (if leadsToSpecial special cs then ['\\', '\\'] else ['\\'])
    else _) ++ guardSpecials special cs = _
  rw [if_pos rfl]
  split <;> rfl

theorem guardSpecials_special {special : Char → Bool} {c : Char} (hc : c ≠ '\\')
    (hs : special c = true) (cs : List Char) :
    guardSpecials special (c :: cs) = '\\' :: c :: guardSpecials special cs := by
  simp [guardSpecials, hc, hs]

theorem guardSpecials_plain {special : Char → Bool} {c : Char} (hc : c ≠ '\\')
    (hs : special c = false) (cs : List Char) :
    guardSpecials special (c :: cs) = c :: guardSpecials special cs := by
  simp [guardSpecials, hc, hs]

/-- Nothing but backslashes is written that was not there before. -/
theorem mem_guardSpecials {special : Char → Bool} {c : Char} {cs : List Char}
    (h : c ∈ guardSpecials special cs) : c = '\\' ∨ c ∈ cs := by
  induction cs with
  | nil => exact .inr h
  | cons d cs ih =>
      have htail : c ∈ guardSpecials special cs → c = '\\' ∨ c ∈ d :: cs := fun h =>
        (ih h).imp_right (List.mem_cons_of_mem d)
      by_cases hd : d = '\\'
      · rw [hd, guardSpecials_backslash] at h
        exact (List.mem_append.mp h).elim (fun h => .inl (List.eq_of_mem_replicate h)) htail
      · cases hs : special d with
        | true =>
            rw [guardSpecials_special hd hs] at h
            simp only [List.mem_cons] at h htail ⊢
            rcases h with h | h | h
            · exact .inl h
            · exact .inr (.inl h)
            · exact htail h
        | false =>
            rw [guardSpecials_plain hd hs] at h
            rcases List.mem_cons.mp h with h | h
            · exact .inr (h ▸ List.mem_cons_self)
            · exact htail h

theorem unguard_replicate (quotable : Char → Bool) (n k : Nat) (cs : List Char) :
    unguard quotable n (List.replicate k '\\' ++ cs) = unguard quotable (n + k) cs := by
  induction k generalizing n with
  | zero => rfl
  | succ k ih =>
      show (if '\\' = '\\' then unguard quotable (n + 1) (List.replicate k '\\' ++ cs) else _) = _
      rw [if_pos rfl, ih, Nat.add_right_comm, Nat.add_assoc]

theorem unguard_of_ne {quotable : Char → Bool} {c : Char} (hc : c ≠ '\\') (n : Nat)
    (cs : List Char) :
    unguard quotable n (c :: cs) =
      List.replicate (if quotable c then n / 2 else n) '\\' ++ c :: unguard quotable 0 cs :=
  if_neg hc

/-- **What is read of an escaped name**, whatever follows it: all of the name but its last
    backslashes, which are left open. The induction carries the backslashes that were read so far:
    `n` of the name are `written special n cs` in the text. -/
theorem unguard_guardSpecials {special quotable : Char → Bool} {cs : List Char}
    (hsub : ∀ c, special c = true → quotable c = true)
    (hcs : ∀ c ∈ cs, quotable c = true → special c = true) (n : Nat) (rest : List Char) :
    unguard quotable (written special n cs) (guardSpecials special cs ++ rest) =
      (settle n cs).1 ++ unguard quotable (settle n cs).2 rest := by
  induction cs generalizing n with
  | nil => rfl
  | cons c cs ih =>
      have ih := ih fun d hd => hcs d (List.mem_cons_of_mem _ hd)
      unfold settle
      by_cases hc : c = '\\'
      · subst hc
        rw [if_pos rfl, guardSpecials_backslash, List.append_assoc, unguard_replicate, ← ih,
          written_succ]
        simp only [written, leadsToSpecial_backslash]
      · have hlead : leadsToSpecial special (c :: cs) = special c := if_neg hc
        have htail := ih 0
        rw [written_zero] at htail
        rw [if_neg hc]
        -- a special character is written behind `2 * n + 1` backslashes, of which `n` are read
        cases hs : special c with
        | true =>
            have hhalf : (2 * n + 1) / 2 = n := by omega
            rw [guardSpecials_special hc hs, written, hlead, hs, if_pos rfl]
            show unguard quotable (2 * n) (List.replicate 1 '\\' ++ c :: (_ ++ rest)) = _
            rw [unguard_replicate, unguard_of_ne hc, hsub c hs, if_pos rfl, hhalf, htail,
              List.append_assoc]
            rfl
        | false =>
            have hq : ¬ quotable c = true := fun h => by
              have := hcs c List.mem_cons_self h
              rw [hs] at this
              cases this
            rw [guardSpecials_plain hc hs, written, hlead, hs, if_neg (by decide), List.cons_append,
              unguard_of_ne hc, if_neg hq, htail, List.append_assoc]
            rfl

section Names

variable {special quotable : Char → Bool} {cs : List Char}

/-- A name that is followed by nothing is read as it was. -/
theorem unguard_guardSpecials_nil (hsub : ∀ c, special c = true → quotable c = true)
    (hcs : ∀ c ∈ cs, quotable c = true → special c = true) :
    unguard quotable 0 (guardSpecials special cs) = cs := by
  have h := unguard_guardSpecials hsub hcs 0 []
  rw [written_zero, List.append_nil] at h
  rw [h]
  exact settle_eq 0 cs

/-- **An odd last backslash** quotes what follows the name, and half of the last backslashes are lost:
    no name that begins with `cs` is read. -/
theorem unguard_ne_of_odd (hsub : ∀ c, special c = true → quotable c = true)
    (hcs : ∀ c ∈ cs, quotable c = true → special c = true) (hodd : openBackslashes cs % 2 = 1)
    {c : Char} (hc : c ≠ '\\') (hq : quotable c = true) (more tail : List Char) :
    unguard quotable 0 (guardSpecials special cs ++ c :: more) ≠ cs ++ tail := by
  intro heq
  have h := unguard_guardSpecials hsub hcs 0 (c :: more)
  rw [written_zero, unguard_of_ne hc, if_pos hq, heq] at h
  have hcut : (settle 0 cs).1 ++ List.replicate (settle 0 cs).2 '\\' = cs := settle_eq 0 cs
  have hsplit : cs ++ tail =
      (settle 0 cs).1 ++ (List.replicate (settle 0 cs).2 '\\' ++ tail) := by
    rw [← List.append_assoc, hcut]
  rw [hsplit, List.append_cancel_left_eq] at h
  -- the name goes on with a backslash where `c` is read
  obtain ⟨k, hk⟩ : ∃ k, openBackslashes cs = openBackslashes cs / 2 + (k + 1) :=
    ⟨openBackslashes cs / 2, by omega⟩
  change List.replicate (openBackslashes cs) '\\' ++ tail =
    List.replicate (openBackslashes cs / 2) '\\' ++ c :: unguard quotable 0 more at h
  generalize openBackslashes cs / 2 = half at h hk
  rw [hk, ← List.replicate_append_replicate, List.append_assoc, List.append_cancel_left_eq] at h
  exact hc (List.cons.inj h).1.symm

end Names

/-! ## Endings -/

section Endings

variable {special : Char → Bool} {ending : List Char}
  (h : ∀ c ∈ ending, c ≠ '\\' ∧ special c = false)
include h

/-- Nothing in an ending without special characters leads to one, also from before it. -/
theorem leadsToSpecial_append (cs : List Char) :
    leadsToSpecial special (cs ++ ending) = leadsToSpecial special cs := by
  induction cs with
  | nil =>
      cases ending with
      | nil => rfl
      | cons c rest =>
          obtain ⟨hc, hs⟩ := h c List.mem_cons_self
          exact (if_neg hc).trans hs
  | cons c cs ih =>
      rw [List.cons_append, leadsToSpecial, leadsToSpecial, ih]

/-- **An ending without special characters** is written behind a name as it is. -/
theorem guardSpecials_append (cs : List Char) :
    guardSpecials special (cs ++ ending) = guardSpecials special cs ++ ending := by
  induction cs with
  | nil =>
      show guardSpecials special ending = ending
      induction ending with
      | nil => rfl
      | cons c rest ih =>
          obtain ⟨⟨hc, hs⟩, hrest⟩ := List.forall_mem_cons.mp h
          rw [guardSpecials_plain hc hs, ih hrest]
  | cons c cs ih =>
      rw [List.cons_append, guardSpecials, guardSpecials, ih, leadsToSpecial_append h,
        List.append_assoc]

/-- **An ending without special characters** is read behind a text as it is: it does not change what the
    backslashes before it mean. -/
theorem unguard_append (n : Nat) (cs : List Char) :
    unguard special n (cs ++ ending) = unguard special n cs ++ ending := by
  induction cs generalizing n with
  | nil =>
      show unguard special n ending = List.replicate n '\\' ++ ending
      induction ending generalizing n with
      | nil => exact (List.append_nil _).symm
      | cons c rest ih =>
          obtain ⟨⟨hc, hs⟩, hrest⟩ := List.forall_mem_cons.mp h
          rw [unguard_of_ne hc, hs, ih hrest]
          rfl
  | cons c cs ih =>
      rw [List.cons_append, unguard, unguard, ih, ih]
      split
      · rfl
      · rw [List.append_assoc]
        rfl

end Endings

end MakeGraph.Make
