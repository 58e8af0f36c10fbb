import MakeGraph.Proofs.Make.Assigned
import Mathlib.Data.List.Basic

/-!
# `Proofs.Make.Patterns` — a pattern is written as it was read

A template is text in which a `%` may be quoted, and a target is text in which many more characters
may. Both are read by one reader: `readMarks` takes the backslashes away that quote something and marks
every character as literal or live. A pattern has one live wildcard, between two literal halves
(`Pattern.marks`).

A template is accepted exactly if it reads as a pattern (`ofTemplate_eq_ok_iff`), and what is written
for the pattern reads as the same marks again, whatever backslashes stand at the ends of its halves
(`readMarks_render`). Reading a template loses nothing (`writeMarks_readMarks`), so each step between a
template and its text in a Makefile can be undone, and different templates have different lines.

## Contents

* `Mark`, `readMarks`, `writeMarks` — the reader, and how it is undone
* `liveWildcards`, `length_betweenWildcards` — how many wildcards are live
* `ofTemplate_eq_ok_iff`, `ofTemplate_eq_error_iff` — templates
* `readMarks_guardSpecials`, `readMarks_render` — targets
* `WritesPatterns`, `writesPatterns` — the main result
-/

namespace MakeGraph.Make

/-! ## Marks -/

/-- A character as make takes it. -/
inductive Mark where
  /-- The character itself. -/
  | literal (c : Char)
  /-- What the character does in its place. -/
  | live (c : Char)
deriving DecidableEq, Repr

/-- A text of which nothing is live. -/
def literals (cs : List Char) : List Mark :=
  cs.map .literal

/-- **A text as make takes it**, behind `n` backslashes: a run of them before a special character is
    halved, and an odd one quotes the character. All other backslashes stay. -/
def readMarks (special : Char → Bool) : Nat → List Char → List Mark
  | n, [] => literals (List.replicate n '\\')
  | n, c :: cs =>
      if c = '\\' then readMarks special (n + 1) cs
      else if special c then
        literals (List.replicate (n / 2) '\\') ++
          (if n % 2 = 1 then .literal c else .live c) :: readMarks special 0 cs
      else literals (List.replicate n '\\') ++ .literal c :: readMarks special 0 cs

/-- The text that is taken as some marks, behind `n` literal backslashes. -/
def writeMarks (special : Char → Bool) : Nat → List Mark → List Char
  | n, [] => List.replicate n '\\'
  | n, .literal c :: marks =>
      if c = '\\' then writeMarks special (n + 1) marks
      else
        List.replicate (if special c then 2 * n + 1 else n) '\\' ++ c :: writeMarks special 0 marks
  | n, .live c :: marks => List.replicate (2 * n) '\\' ++ c :: writeMarks special 0 marks

section Marks

variable {special : Char → Bool}

theorem literals_append (cs ds : List Char) : literals (cs ++ ds) = literals cs ++ literals ds :=
  List.map_append

theorem literals_cons (c : Char) (cs : List Char) :
    literals (c :: cs) = .literal c :: literals cs :=
  rfl

theorem live_not_mem_literals (c : Char) (cs : List Char) : Mark.live c ∉ literals cs := by
  simp [literals]

theorem literals_injective {cs ds : List Char} (h : literals cs = literals ds) : cs = ds :=
  (List.map_inj_right fun _ _ heq => Mark.literal.inj heq).mp h

theorem writeMarks_replicate (n k : Nat) (marks : List Mark) :
    writeMarks special n (literals (List.replicate k '\\') ++ marks) =
      writeMarks special (n + k) marks := by
  induction k generalizing n with
  | zero => rfl
  | succ k ih =>
      rw [List.replicate_succ, literals_cons, List.cons_append, writeMarks, if_pos rfl, ih,
        Nat.add_right_comm, Nat.add_assoc]

/-- **Reading loses nothing**: the text can be written again. -/
theorem writeMarks_readMarks (n : Nat) (cs : List Char) :
    writeMarks special 0 (readMarks special n cs) = List.replicate n '\\' ++ cs := by
  induction cs generalizing n with
  | nil =>
      have h := @writeMarks_replicate special 0 n []
      simpa [readMarks, writeMarks] using h
  | cons c cs ih =>
      rw [readMarks]
      by_cases hc : c = '\\'
      · rw [if_pos hc, ih, hc, List.replicate_succ', List.append_assoc]
        rfl
      · rw [if_neg hc]
        cases hs : special c with
        | true =>
            -- the parity that the halved run has lost is told by the mark
            rw [if_pos rfl, writeMarks_replicate, Nat.zero_add]
            by_cases hodd : n % 2 = 1
            · have hrun : 2 * (n / 2) + 1 = n := by omega
              rw [if_pos hodd, writeMarks, if_neg hc, hs, if_pos rfl, hrun, ih]
              rfl
            · have hrun : 2 * (n / 2) = n := by omega
              rw [if_neg hodd, writeMarks, hrun, ih]
              rfl
        | false =>
            rw [if_neg (by decide), writeMarks_replicate, Nat.zero_add, writeMarks, if_neg hc, hs,
              if_neg (by decide), ih]
            rfl

theorem readMarks_injective {cs ds : List Char}
    (h : readMarks special 0 cs = readMarks special 0 ds) : cs = ds := by
  have hcs := @writeMarks_readMarks special 0 cs
  have hds := @writeMarks_readMarks special 0 ds
  rw [h] at hcs
  exact hcs.symm.trans hds

end Marks

/-! ## Templates -/

/-- **The live wildcards of a text**: the places of a `%` that an even run of backslashes stands
    before. -/
def liveWildcards (cs : List Char) : Nat :=
  (List.range cs.length).countP fun i => cs[i]? = some '%' ∧ openBackslashes (cs.take i) % 2 = 0

example : liveWildcards "a%b\\%c\\\\%".toList = 2 := by decide

/-- The live wildcards of a text behind `n` backslashes. -/
def liveWildcardsBehind (n : Nat) (cs : List Char) : Nat :=
  (List.range cs.length).countP fun i => cs[i]? = some '%' ∧ (settle n (cs.take i)).2 % 2 = 0

/-- A text is looked at from its first character on. -/
theorem liveWildcardsBehind_cons (n : Nat) (c : Char) (cs : List Char) :
    liveWildcardsBehind n (c :: cs) =
      (if c = '%' ∧ n % 2 = 0 then 1 else 0) +
        liveWildcardsBehind (if c = '\\' then n + 1 else 0) cs := by
  have hfirst : ((c :: cs)[0]? = some '%' ∧ (settle n ((c :: cs).take 0)).2 % 2 = 0) ↔
      c = '%' ∧ n % 2 = 0 := by
    simp [settle]
  have hrest : ∀ i, ((c :: cs)[i + 1]? = some '%' ∧ (settle n ((c :: cs).take (i + 1))).2 % 2 = 0) ↔
      cs[i]? = some '%' ∧ (settle (if c = '\\' then n + 1 else 0) (cs.take i)).2 % 2 = 0 := by
    intro i
    rw [List.getElem?_cons_succ, List.take_succ_cons, settle]
    split <;> rfl
  -- the places of the rest are counted from its own beginning
  unfold liveWildcardsBehind
  rw [List.length_cons, List.range_succ_eq_map, List.countP_cons, List.countP_map, Nat.add_comm]
  simp only [Function.comp_def, Nat.succ_eq_add_one, hfirst, hrest, decide_eq_true_eq]

namespace Pattern

/-- A template is read with the wildcard as its only special character. -/
def isWildcard (c : Char) : Bool :=
  c == '%'

/-- **What a pattern stands for**: its halves as they are, and a live wildcard between them. -/
def marks (p : Pattern) : List Mark :=
  literals p.before.toList ++ .live '%' :: literals p.after.toList

/-- Literal texts with a live wildcard between each two. -/
def joinLive (texts : List (List Char)) : List Mark :=
  List.intercalate [.live '%'] (texts.map literals)

theorem joinLive_cons_cons (text next : List Char) (texts : List (List Char)) :
    joinLive (text :: next :: texts) = literals text ++ .live '%' :: joinLive (next :: texts) := by
  unfold joinLive
  rw [List.map_cons, List.map_cons, List.intercalate_cons_cons, List.append_assoc]
  rfl

theorem joinLive_singleton (text : List Char) : joinLive [text] = literals text :=
  List.intercalate_singleton

theorem joinLive_prependTo (text : List Char) (texts : List (List Char)) :
    joinLive (betweenWildcards.prependTo text texts) = literals text ++ joinLive texts := by
  cases texts with
  | nil => exact (joinLive_singleton text).trans (List.append_nil _).symm
  | cons first texts =>
      cases texts with
      | nil =>
          rw [betweenWildcards.prependTo, joinLive_singleton, joinLive_singleton, literals_append]
      | cons next texts =>
          rw [betweenWildcards.prependTo, joinLive_cons_cons, joinLive_cons_cons, literals_append,
            List.append_assoc]

theorem length_prependTo {text : List Char} {texts : List (List Char)} (h : texts.length ≠ 0) :
    (betweenWildcards.prependTo text texts).length = texts.length := by
  cases texts with
  | nil => exact absurd rfl h
  | cons first texts => rfl

/-- **There is one text more than there are live wildcards.** The induction carries the backslashes that
    were read so far. -/
theorem length_betweenWildcards (n : Nat) (cs : List Char) :
    (betweenWildcards n cs).length = liveWildcardsBehind n cs + 1 := by
  induction cs generalizing n with
  | nil => rfl
  | cons c cs ih =>
      have hsome : (betweenWildcards 0 cs).length ≠ 0 := by
        rw [ih]
        exact Nat.succ_ne_zero _
      rw [betweenWildcards, liveWildcardsBehind_cons]
      by_cases hback : c = '\\'
      · have hne : ¬(c = '%' ∧ n % 2 = 0) := by
          rw [hback]
          exact fun h => absurd h.1 (by decide)
        rw [if_pos hback, if_pos hback, if_neg hne, ih, Nat.zero_add]
      · rw [if_neg hback, if_neg hback]
        by_cases hpercent : c = '%'
        · rw [if_pos hpercent]
          by_cases hodd : n % 2 = 1
          · have hquoted : ¬(c = '%' ∧ n % 2 = 0) := fun h => by omega
            rw [if_pos hodd, if_neg hquoted, length_prependTo hsome, ih, Nat.zero_add]
          · have hlive : c = '%' ∧ n % 2 = 0 := ⟨hpercent, by omega⟩
            rw [if_neg hodd, if_pos hlive, List.length_cons, ih, Nat.add_comm 1]
        · rw [if_neg hpercent, if_neg fun h => hpercent h.1, length_prependTo hsome, ih,
            Nat.zero_add]

/-- **A template is cut at its live wildcards**, and what is between them is read. -/
theorem joinLive_betweenWildcards (n : Nat) (cs : List Char) :
    joinLive (betweenWildcards n cs) = readMarks isWildcard n cs := by
  induction cs generalizing n with
  | nil => exact joinLive_singleton _
  | cons c cs ih =>
      obtain ⟨first, texts, htexts⟩ : ∃ first texts, betweenWildcards 0 cs = first :: texts :=
        List.exists_cons_of_length_eq_add_one (length_betweenWildcards 0 cs)
      rw [betweenWildcards, readMarks]
      by_cases hback : c = '\\'
      · rw [if_pos hback, if_pos hback, ih]
      · rw [if_neg hback, if_neg hback]
        by_cases hpercent : c = '%'
        · have hspecial : isWildcard c = true := by simpa [isWildcard] using hpercent
          rw [if_pos hpercent, if_pos hspecial, hpercent]
          by_cases hodd : n % 2 = 1
          · rw [if_pos hodd, if_pos hodd, joinLive_prependTo, ih, literals_append, List.append_assoc]
            rfl
          · rw [if_neg hodd, if_neg hodd, ← ih, htexts, joinLive_cons_cons]
        · have hspecial : ¬isWildcard c = true := by simpa [isWildcard] using hpercent
          rw [if_neg hpercent, if_neg hspecial, joinLive_prependTo, ih, literals_append,
            List.append_assoc]
          rfl

/-- What is in front of the first live character is known. -/
theorem literals_append_live_inj {a b : List Char} {c d : Char} {marks others : List Mark}
    (h : literals a ++ .live c :: marks = literals b ++ .live d :: others) :
    a = b ∧ c = d ∧ marks = others := by
  induction a generalizing b with
  | nil =>
      cases b with
      | nil => simpa [literals] using h
      | cons y b => simp [literals] at h
  | cons x a ih =>
      cases b with
      | nil => simp [literals] at h
      | cons y b =>
          obtain ⟨hhead, htail⟩ := List.cons.inj h
          obtain ⟨hab, hrest⟩ := ih htail
          exact ⟨by rw [hab, Mark.literal.inj hhead], hrest⟩

/-- Two texts between which there is the only live wildcard. -/
theorem joinLive_eq_iff {texts : List (List Char)} {before after : List Char} :
    joinLive texts = literals before ++ .live '%' :: literals after ↔ texts = [before, after] := by
  constructor
  · intro h
    cases texts with
    | nil =>
        have hlength := congrArg List.length h
        simp [joinLive] at hlength
    | cons first texts =>
        cases texts with
        | nil =>
            have hlive : Mark.live '%' ∈ literals first := by
              rw [← joinLive_singleton, h]
              simp
            exact absurd hlive (live_not_mem_literals _ _)
        | cons second texts =>
            rw [joinLive_cons_cons] at h
            obtain ⟨rfl, -, hrest⟩ := literals_append_live_inj h
            cases texts with
            | nil =>
                rw [joinLive_singleton] at hrest
                rw [literals_injective hrest]
            | cons third texts =>
                -- a second live wildcard would be among the literals behind the first
                have hlive : Mark.live '%' ∈ literals after := by
                  rw [← hrest, joinLive_cons_cons]
                  simp
                exact absurd hlive (live_not_mem_literals _ _)
  · rintro rfl
    rw [joinLive_cons_cons, joinLive_singleton]

/-- **When a template is a pattern**: it reads as what the pattern stands for. -/
theorem ofTemplate_eq_ok_iff {template : String} {p : Pattern} :
    ofTemplate template = .ok p ↔
      p.template = template ∧ readMarks isWildcard 0 template.toList = p.marks := by
  rw [← joinLive_betweenWildcards, marks, joinLive_eq_iff]
  unfold ofTemplate
  cases p with
  | mk own before after =>
      split
      · next first second htexts =>
          rw [htexts, Except.ok.injEq, mk.injEq]
          simp only [List.cons.injEq, and_true, String.ext_iff, String.toList_ofList]
          exact and_congr_left fun _ => eq_comm
      · next texts hother =>
          have hne : betweenWildcards 0 template.toList ≠ [before.toList, after.toList] :=
            fun h => hother _ _ h
          simp [hne]

/-- **Why a template is none**: it has no live wildcard, or more than one. -/
theorem ofTemplate_eq_error_iff {template : String} {e : Error} :
    ofTemplate template = .error e ↔
      liveWildcards template.toList ≠ 1 ∧
        e = .liveWildcards template (liveWildcards template.toList) := by
  have hlength : (betweenWildcards 0 template.toList).length = liveWildcards template.toList + 1 :=
    length_betweenWildcards 0 template.toList
  unfold ofTemplate
  split
  · next first second htexts =>
      rw [htexts] at hlength
      have hone : liveWildcards template.toList = 1 := (Nat.succ.inj hlength).symm
      simp [hone]
  · next texts hother =>
      have hne : liveWildcards template.toList ≠ 1 := by
        intro hone
        rw [hone] at hlength
        obtain ⟨first, second, htexts⟩ := List.length_eq_two.mp hlength
        exact hother first second htexts
      have hfound : (betweenWildcards 0 template.toList).length - 1 =
          liveWildcards template.toList := by
        omega
      rw [Except.error.injEq, hfound, eq_comm]
      simp [hne]

theorem ofTemplate_succeeds_iff (template : String) :
    (∃ p, ofTemplate template = .ok p) ↔ liveWildcards template.toList = 1 := by
  cases h : ofTemplate template with
  | ok p =>
      have hone : liveWildcards template.toList = 1 := by
        by_contra hne
        have herror := ofTemplate_eq_error_iff.mpr ⟨hne, rfl⟩
        rw [h] at herror
        cases herror
      simp [hone]
  | error e =>
      have hne := (ofTemplate_eq_error_iff.mp h).1
      simp [hne]

end Pattern

/-! ## Targets -/

section Targets

variable {special : Char → Bool}

theorem readMarks_replicate (n k : Nat) (cs : List Char) :
    readMarks special n (List.replicate k '\\' ++ cs) = readMarks special (n + k) cs := by
  induction k generalizing n with
  | zero => rfl
  | succ k ih =>
      rw [List.replicate_succ, List.cons_append, readMarks, if_pos rfl, ih, Nat.add_right_comm,
        Nat.add_assoc]

/-- **An escaped text in front of anything** is read as itself, but for its last backslashes: what
    they mean depends on what follows. The induction carries the backslashes that were read so far. -/
theorem readMarks_guardSpecials (n : Nat) (cs rest : List Char) :
    readMarks special (written special n cs) (guardSpecials special cs ++ rest) =
      literals (settle n cs).1 ++ readMarks special (settle n cs).2 rest := by
  induction cs generalizing n with
  | nil => rfl
  | cons c cs ih =>
      unfold settle
      by_cases hc : c = '\\'
      · subst hc
        rw [if_pos rfl, guardSpecials_backslash, List.append_assoc, readMarks_replicate, ← ih,
          written_succ]
        simp only [written, leadsToSpecial_backslash]
      · have hlead : leadsToSpecial special (c :: cs) = special c := if_neg hc
        have htail := ih 0
        rw [written_zero] at htail
        rw [if_neg hc, literals_append, literals_cons, List.append_assoc, List.cons_append, ← htail]
        cases hs : special c with
        | true =>
            have hodd : (2 * n + 1) % 2 = 1 := by omega
            have hhalf : (2 * n + 1) / 2 = n := by omega
            rw [guardSpecials_special hc hs, written, hlead, hs, if_pos rfl]
            show readMarks special (2 * n) (List.replicate 1 '\\' ++ c :: (_ ++ rest)) = _
            rw [readMarks_replicate, readMarks, if_neg hc, hs, if_pos rfl, if_pos hodd, hhalf]
        | false =>
            rw [guardSpecials_plain hc hs, written, hlead, hs, if_neg (by decide), List.cons_append,
              readMarks, if_neg hc, hs, if_neg (by decide)]

theorem readMarks_guardSpecials_nil (cs : List Char) :
    readMarks special 0 (guardSpecials special cs) = literals cs := by
  have h := @readMarks_guardSpecials special 0 cs []
  rw [written_zero, List.append_nil] at h
  rw [h, readMarks, ← literals_append, settle_eq]
  rfl

/-- **Two escaped texts with a wildcard between them**, which the last backslashes of the first one
    would quote if they were not doubled. -/
theorem readMarks_wildcard (hpercent : special '%' = true) {body : List Char}
    (hbody : openBackslashes body = 0) (k : Nat) (after : List Char) :
    readMarks special 0 (guardSpecials special body ++
        (List.replicate (2 * k) '\\' ++ '%' :: guardSpecials special after)) =
      literals (body ++ List.replicate k '\\') ++ .live '%' :: literals after := by
  have hzero : (settle 0 body).2 = 0 := hbody
  have hwhole : (settle 0 body).1 = body := by
    have h := settle_eq 0 body
    rw [hzero] at h
    simpa using h
  have heven : ¬2 * k % 2 = 1 := by omega
  have hhalf : 2 * k / 2 = k := by omega
  have hread := @readMarks_guardSpecials special 0 body
    (List.replicate (2 * k) '\\' ++ '%' :: guardSpecials special after)
  rw [written_zero, hwhole, hzero, readMarks_replicate, Nat.zero_add] at hread
  rw [hread, readMarks, if_neg (by decide), hpercent, if_pos rfl, if_neg heven, hhalf,
    readMarks_guardSpecials_nil, literals_append, List.append_assoc]

/-- A special character that an even run of backslashes stands before is live. -/
theorem live_mem_readMarks {c : Char} (hc : c ≠ '\\') (hs : special c = true) {n : Nat}
    {before : List Char} (heven : (settle n before).2 % 2 = 0) (after : List Char) :
    .live c ∈ readMarks special n (before ++ c :: after) := by
  induction before generalizing n with
  | nil =>
      have hne : ¬n % 2 = 1 := by
        change n % 2 = 0 at heven
        omega
      rw [List.nil_append, readMarks, if_neg hc, hs, if_pos rfl, if_neg hne]
      simp
  | cons d before ih =>
      rw [settle] at heven
      rw [List.cons_append, readMarks]
      by_cases hd : d = '\\'
      · rw [if_pos hd] at heven ⊢
        exact ih heven
      · rw [if_neg hd] at heven ⊢
        have hrest := ih heven
        split
        · exact List.mem_append_right _ (List.mem_cons_of_mem _ hrest)
        · exact List.mem_append_right _ (List.mem_cons_of_mem _ hrest)

end Targets

namespace Pattern

theorem settle_replicate (n k : Nat) (cs : List Char) :
    settle n (List.replicate k '\\' ++ cs) = settle (n + k) cs := by
  induction k generalizing n with
  | zero => rfl
  | succ k ih =>
      rw [List.replicate_succ, List.cons_append, settle, if_pos rfl, ih, Nat.add_right_comm,
        Nat.add_assoc]

/-- The part of a text in front of its last backslashes ends with none. -/
theorem settle_settle (n : Nat) (cs : List Char) :
    settle 0 (settle n cs).1 = ((settle n cs).1, 0) := by
  induction cs generalizing n with
  | nil => rfl
  | cons c cs ih =>
      rw [settle]
      by_cases hc : c = '\\'
      · rw [if_pos hc]
        exact ih (n + 1)
      · rw [if_neg hc, settle_replicate, Nat.zero_add, settle, if_neg hc, ih]

/-- A text is cut where its last backslashes begin. -/
theorem splitTrailingBackslashes_eq (cs : List Char) :
    splitTrailingBackslashes cs = ((settle 0 cs).1, List.replicate (settle 0 cs).2 '\\') := by
  have hcut : (settle 0 cs).1 ++ List.replicate (settle 0 cs).2 '\\' = cs := settle_eq 0 cs
  have hclosed := settle_settle 0 cs
  generalize (settle 0 cs).1 = body at hcut hclosed ⊢
  generalize (settle 0 cs).2 = k at hcut ⊢
  have hend : body.reverse.takeWhile (· = '\\') = [] := by
    cases hbody : body.reverse with
    | nil => rfl
    | cons c rest =>
        -- a last backslash would be open
        refine List.takeWhile_cons_of_neg fun hc => ?_
        have hback : body = rest.reverse ++ ['\\'] := by
          rw [← List.reverse_reverse body, hbody, List.reverse_cons, of_decide_eq_true hc]
        have hopen : (settle 0 (rest.reverse ++ ['\\'])).2 = 0 := by rw [← hback, hclosed]
        rw [settle_append] at hopen
        cases hopen
  have hrun : cs.reverse.takeWhile (· = '\\') = List.replicate k '\\' := by
    rw [← hcut, List.reverse_append, List.reverse_replicate,
      List.takeWhile_append_of_pos (by simp), hend, List.append_nil]
  unfold splitTrailingBackslashes
  rw [hrun, ← hcut]
  simp

/-- A part that is left out where it has no text. -/
theorem toList_join_optional {absent : Prop} [Decidable absent] {piece : Piece} {text : List Char}
    (hnone : absent → text = []) (hsome : (piece.render .target).toList = text) :
    (String.join ((if absent then [] else [piece]).map (Piece.render .target))).toList = text := by
  by_cases h : absent
  · rw [if_pos h, hnone h]
    rfl
  · rw [if_neg h]
    simpa using hsome

/-- The text of a pattern in a list of targets. -/
theorem toList_render_toPiece (p : Pattern) :
    (p.toPiece.render .target).toList =
      escapeChars .target (settle 0 p.before.toList).1 ++
        (List.replicate (2 * (settle 0 p.before.toList).2) '\\' ++
          '%' :: escapeChars .target p.after.toList) := by
  unfold toPiece
  rw [splitTrailingBackslashes_eq]
  dsimp only
  generalize (settle 0 p.before.toList).1 = body
  generalize (settle 0 p.before.toList).2 = k
  have hbody : (String.join ((if body = [] then [] else [.plain (String.ofList body)]).map
      (Piece.render .target))).toList = escapeChars .target body :=
    toList_join_optional (fun hnil => by rw [hnil]; rfl) (by simp [escape])
  have hrun : (String.join ((if List.replicate k '\\' = [] then [] else
      [.verbatim (String.ofList (List.replicate k '\\' ++ List.replicate k '\\'))]).map
      (Piece.render .target))).toList = List.replicate (2 * k) '\\' :=
    toList_join_optional (fun hnil => by rw [(List.replicate_eq_nil_iff _).mp hnil]; rfl)
      (by simp [Nat.two_mul])
  have hafter : (String.join ((if p.after = "" then [] else [.plain p.after]).map
      (Piece.render .target))).toList = escapeChars .target p.after.toList :=
    toList_join_optional (fun hnil => by rw [hnil]; rfl) (by simp [escape])
  simp only [Piece.render_sequence, List.map_append, String.join_append, String.toList_append,
    hbody, hrun, hafter]
  simp

/-- **A pattern is read as what it stands for**, whatever variables hold. -/
theorem readMarks_render (value : String → List Char) (p : Pattern) :
    readMarks Context.specialInTargets 0 (expand value (p.toPiece.render .target).toList) =
      p.marks := by
  have hbody : openBackslashes (settle 0 p.before.toList).1 = 0 := by
    rw [openBackslashes, settle_settle]
  have hcut : (settle 0 p.before.toList).1 ++
      List.replicate (settle 0 p.before.toList).2 '\\' = p.before.toList :=
    settle_eq 0 p.before.toList
  have htext : (p.toPiece.render .target).toList =
      doubleDollars (targetChars (settle 0 p.before.toList).1 ++
        (List.replicate (2 * (settle 0 p.before.toList).2) '\\' ++
          '%' :: targetChars p.after.toList)) := by
    rw [toList_render_toPiece, escapeChars_target, escapeChars_target, doubleDollars_append,
      doubleDollars_append, doubleDollars_backslashes, doubleDollars_cons (by decide)]
  rw [htext, expand_doubleDollars, readMarks_wildcard (by decide) hbody, hcut]
  rfl

/-- Nothing but the wildcard is live in the text of a pattern, also before it is expanded. -/
theorem live_mem_render {p : Pattern} {c : Char}
    (h : .live c ∈ readMarks Context.specialInTargets 0 (p.toPiece.render .target).toList) :
    c = '%' := by
  have hbody : openBackslashes (doubleDollars (settle 0 p.before.toList).1) = 0 := by
    rw [openBackslashes, settle_doubleDollars, settle_settle]
  have hescape : ∀ cs, escapeChars .target cs = targetChars (doubleDollars cs) := fun _ => rfl
  rw [toList_render_toPiece, hescape, hescape, readMarks_wildcard (by decide) hbody] at h
  simpa [literals] using h

/-! ## Lines -/

/-- No text of a pattern has a blank right behind a colon: it would not be quoted. -/
theorem render_ne_append (p : Pattern) (front rest : List Char) :
    (p.toPiece.render .target).toList ≠ front ++ ':' :: ' ' :: rest := by
  intro heq
  have heven : (settle 0 (front ++ [':'])).2 % 2 = 0 := by
    rw [settle_append]
    rfl
  have hlive : .live ' ' ∈ readMarks Context.specialInTargets 0 (p.toPiece.render .target).toList := by
    have hsplit : front ++ ':' :: ' ' :: rest = front ++ [':'] ++ ' ' :: rest := by simp
    rw [heq, hsplit]
    exact live_mem_readMarks (by decide) (by decide) heven rest
  exact absurd (live_mem_render hlive) (by decide)

/-- Where two texts go on with a colon and a blank, the longer one goes on so behind the shorter one. -/
theorem append_colon_cases {front more rest other : List Char}
    (h : ':' :: ' ' :: rest = more ++ ':' :: ' ' :: other) :
    front ++ more = front ∨ ∃ behind, front ++ more = front ++ ':' :: ' ' :: behind := by
  match more, h with
  | [], _ => exact .inl (List.append_nil front)
  | [c], h =>
      have hblank : ' ' = ':' := (List.cons.inj (List.cons.inj h).2).1
      cases hblank
  | c :: d :: behind, h =>
      obtain ⟨rfl, htail⟩ := List.cons.inj h
      obtain ⟨rfl, -⟩ := List.cons.inj htail
      exact .inr ⟨behind, rfl⟩

/-- **The line of a variable tells its pattern.** -/
theorem render_eq_of_renderAssignment_eq {p q : Pattern} {v w : Variable} {value other : Command}
    {assignment assignment' : Assignment}
    (h : renderAssignment (some p.toPiece) v value assignment =
      renderAssignment (some q.toPiece) w other assignment') :
    p.toPiece.render .target = q.toPiece.render .target := by
  have hline : ∀ (r : Pattern) (u : Variable) (c : Command) (a : Assignment),
      (renderAssignment (some r.toPiece) u c a).toList = (r.toPiece.render .target).toList ++
        ':' :: ' ' :: (u.name ++ a.operator ++ c.render ++ "\n").toList := by
    intro r u c a
    simp [renderAssignment]
  have hchars := congrArg String.toList h
  rw [hline, hline, List.append_eq_append_iff] at hchars
  rw [String.ext_iff]
  rcases hchars with ⟨more, hq, hmore⟩ | ⟨more, hp, hmore⟩
  · rcases append_colon_cases hmore with hsame | ⟨behind, hlonger⟩
    · rw [hq, hsame]
    · exact absurd (hq.trans hlonger) (render_ne_append q _ behind)
  · rcases append_colon_cases hmore with hsame | ⟨behind, hlonger⟩
    · rw [hp, hsame]
    · exact absurd (hp.trans hlonger) (render_ne_append p _ behind)

/-! ## The main result -/

/-- **A template tells what it stands for**, and what it stands for tells the template. -/
theorem template_eq_of_marks_eq {template other : String} {p q : Pattern}
    (hp : ofTemplate template = .ok p) (hq : ofTemplate other = .ok q) (h : p.marks = q.marks) :
    template = other := by
  have hreadp := (ofTemplate_eq_ok_iff.mp hp).2
  have hreadq := (ofTemplate_eq_ok_iff.mp hq).2
  exact String.toList_injective (readMarks_injective (hreadp.trans (h.trans hreadq.symm)))

theorem template_eq_of_render_eq {template other : String} {p q : Pattern}
    (hp : ofTemplate template = .ok p) (hq : ofTemplate other = .ok q)
    (h : p.toPiece.render .target = q.toPiece.render .target) : template = other := by
  apply template_eq_of_marks_eq hp hq
  rw [← readMarks_render (fun _ => []) p, h, readMarks_render]

/-- **Templates as they should be**: which ones are patterns and how they are read, that what is
    written for one reads the same, and that no two of them are written alike. -/
structure WritesPatterns : Prop where
  succeeds_iff : ∀ template, (∃ p, ofTemplate template = .ok p) ↔ liveWildcards template.toList = 1
  error_iff : ∀ template e, ofTemplate template = .error e ↔
    liveWildcards template.toList ≠ 1 ∧
      e = .liveWildcards template (liveWildcards template.toList)
  ok_iff : ∀ template p, ofTemplate template = .ok p ↔
    p.template = template ∧ readMarks isWildcard 0 template.toList =
      literals p.before.toList ++ .live '%' :: literals p.after.toList
  reads : ∀ value (p : Pattern),
    readMarks Context.specialInTargets 0 (expand value (p.toPiece.render .target).toList) =
      literals p.before.toList ++ .live '%' :: literals p.after.toList
  halves : ∀ template other p q, ofTemplate template = .ok p → ofTemplate other = .ok q →
    p.before = q.before → p.after = q.after → template = other
  render : ∀ template other p q, ofTemplate template = .ok p → ofTemplate other = .ok q →
    p.toPiece.render .target = q.toPiece.render .target → template = other
  /-- Scopes of different templates have no line in common. -/
  lines : ∀ template other p q, ofTemplate template = .ok p → ofTemplate other = .ok q →
    ∀ v w value value' assignment assignment',
      renderAssignment (some p.toPiece) v value assignment =
        renderAssignment (some q.toPiece) w value' assignment' → template = other

/-- **Templates are written as make reads them.** A template has a pattern exactly when it has one live
    wildcard, and is refused with the number of its live wildcards otherwise. Make reads the text of the
    pattern as its two halves around a wildcard, so no two templates are written alike. -/
theorem writesPatterns : WritesPatterns where
  succeeds_iff := ofTemplate_succeeds_iff
  error_iff _ _ := ofTemplate_eq_error_iff
  ok_iff _ _ := ofTemplate_eq_ok_iff
  reads := readMarks_render
  halves template other p q hp hq hbefore hafter := by
    apply template_eq_of_marks_eq hp hq
    rw [marks, marks, hbefore, hafter]
  render template other p q hp hq h := template_eq_of_render_eq hp hq h
  lines template other p q hp hq v w value value' assignment assignment' h :=
    template_eq_of_render_eq hp hq (render_eq_of_renderAssignment_eq h)

/-- A template with backslashes before a quoted wildcard, before the live one and at its end. -/
def backslashed : Pattern where
  template := "50\\%/a\\\\%.t x\\"
  before := "50%/a\\"
  after := ".t x\\"

/-- The template is accepted, and its text reads as its two halves. -/
theorem writesPatterns_backslashed :
    ofTemplate backslashed.template = .ok backslashed ∧
      backslashed.toPiece.render .target = "50\\%/a\\\\%.t\\ x\\" ∧
      readMarks Context.specialInTargets 0 "50\\%/a\\\\%.t\\ x\\".toList = backslashed.marks := by
  have hok : ofTemplate backslashed.template = .ok backslashed := rfl
  have hrender : backslashed.toPiece.render .target = "50\\%/a\\\\%.t\\ x\\" := by decide
  have hreads := writesPatterns.reads (fun _ => []) backslashed
  rw [hrender] at hreads
  exact ⟨hok, hrender, hreads⟩

end Pattern

end MakeGraph.Make
