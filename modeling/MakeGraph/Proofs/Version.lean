import MakeGraph.Proofs.Outcome
import MakeGraph.Version

/-!
# `Proofs.Version` — version numbers are written as they are read

A version number has one text. The digits of its numbers have no leading zero, so they are the digits
that the number is written with, and everything else is kept as it is read. So what `Version.parse`
reads, `Version.text` writes back (`text_of_parse`).

## Contents

* `chars_of_digits`, `chars_of_number` — numbers
* `chars_of_identifiers`, `chars_of_optionalPart` — identifiers
* `text_of_parse` — the main result
-/

namespace MakeGraph.Version

open Outcome

variable {part : Part} {cs rest : List Char}

/-! ## Numbers -/

/-- The digit that a character stands for is written as this character. -/
theorem digit_of_char {c : Char} (h : ('0' ≤ c && c ≤ '9') = true) :
    c.toNat - '0'.toNat < 10 ∧ Nat.digitChar (c.toNat - '0'.toNat) = c := by
  simp only [Bool.and_eq_true, decide_eq_true_eq] at h
  have hlow : '0'.toNat ≤ c.toNat := h.1
  have hhigh : c.toNat ≤ '9'.toNat := h.2
  have hall : ∀ n, n < 10 → (Nat.digitChar n).toNat = n + '0'.toNat := by decide
  have hlt : c.toNat - '0'.toNat < 10 := by
    have hzero : '0'.toNat = 48 := rfl
    have hnine : '9'.toNat = 57 := rfl
    omega
  refine ⟨hlt, Char.toNat_inj.mp ?_⟩
  rw [hall _ hlt]
  omega

/-- A digit behind a number is the last digit of ten times the number and itself. -/
theorem toDigits_append_digit {n d : Nat} (hn : n ≠ 0) (hd : d < 10) :
    Nat.toDigits 10 (n * 10 + d) = Nat.toDigits 10 n ++ [Nat.digitChar d] := by
  rw [Nat.mul_comm, ← Nat.toDigits_append_toDigits (by decide) (Nat.pos_of_ne_zero hn) hd,
    Nat.toDigits_of_lt_base hd]

/-- **Digits** are written as they were read, by induction on the text. -/
theorem chars_of_digits {n value : Nat} (h : digits part n cs = .ok (value, rest)) :
    Nat.toDigits 10 n ++ cs = Nat.toDigits 10 value ++ rest := by
  induction cs generalizing n with
  | nil =>
      cases h
      rfl
  | cons c cs ih =>
      unfold digits at h
      split at h
      · next hdigit =>
          dsimp only at h
          split at h
          · cases h
          · next hn =>
              split at h
              · cases h
              · obtain ⟨hlt, hchar⟩ := digit_of_char hdigit
                have htail := ih h
                rw [toDigits_append_digit hn hlt, hchar, List.append_assoc] at htail
                exact htail
      · cases h
        rfl

/-- **A number** is written as it was read. -/
theorem chars_of_number {value : Nat} (h : number part cs = .ok (value, rest)) :
    cs = (toString value).toList ++ rest := by
  rw [Nat.toString_eq_repr, Nat.toList_repr]
  cases cs with
  | nil => cases h
  | cons c cs =>
      rw [number] at h
      split at h
      · next hdigit =>
          obtain ⟨hlt, hchar⟩ := digit_of_char hdigit
          have hdigits := chars_of_digits h
          rw [Nat.toDigits_of_lt_base hlt, hchar] at hdigits
          exact hdigits
      · cases h

theorem chars_of_point (h : point part cs = .ok rest) : cs = '.' :: rest := by
  unfold point at h
  split at h
  · rw [Except.ok.inj h]
  · cases h
  · cases h

/-! ## Identifiers -/

/-- **Identifiers** are kept as they were read: what was read before and the text are what is read in the
    end and what is left. -/
theorem chars_of_identifiers {segment whole found : List Char}
    (h : identifiers part segment whole cs = .ok (found, rest)) : whole ++ cs = found ++ rest := by
  have hchecked : ∀ {segment read cs : List Char},
      (checkSegment part segment >>= fun _ => .ok (read, cs)) = .ok (found, rest) →
        read ++ cs = found ++ rest := by
    intro segment read cs h
    obtain ⟨-, -, h⟩ := bind_eq_ok_iff.mp h
    cases h
    rfl
  induction cs generalizing segment whole with
  | nil =>
      unfold identifiers at h
      split at h
      · next hempty =>
          cases h
          rw [List.isEmpty_iff.mp hempty]
      · exact hchecked h
  | cons c cs ih =>
      have hnext : ∀ {segment}, identifiers part segment (whole ++ [c]) cs = .ok (found, rest) →
          whole ++ c :: cs = found ++ rest := by
        intro segment h
        have htail := ih h
        rwa [List.append_assoc] at htail
      unfold identifiers at h
      split at h
      · exact hnext h
      · split at h
        · obtain ⟨-, -, h⟩ := bind_eq_ok_iff.mp h
          exact hnext h
        · split at h
          · next hempty =>
              cases h
              rw [List.isEmpty_iff.mp hempty]
          · exact hchecked h

/-- The text of identifiers that may be missing, behind their mark. -/
def marked (mark : Char) (identifiers : List Char) : List Char :=
  if identifiers = [] then [] else mark :: identifiers

/-- **Optional identifiers** are kept with their mark. -/
theorem chars_of_optionalPart {mark : Char} {found : Option (List Char)}
    (h : optionalPart part mark cs = .ok (found, rest)) :
    cs = marked mark (found.getD []) ++ rest := by
  unfold optionalPart at h
  split at h
  · split at h
    · next hmark =>
        obtain ⟨⟨whole, behind⟩, hwhole, h⟩ := bind_eq_ok_iff.mp h
        dsimp only at h
        split at h
        · cases h
        · next hne =>
            cases h
            have hchars := chars_of_identifiers hwhole
            rw [List.nil_append] at hchars
            rw [hmark, hchars, Option.getD_some, marked, if_neg (by simpa using hne)]
            rfl
    · cases h
      rfl
  · cases h
    rfl

/-! ## The main result -/

/-- The characters of a version number. -/
theorem toList_text (v : Version) :
    v.text.toList = (toString v.major).toList ++ '.' :: ((toString v.minor).toList ++
      '.' :: ((toString v.patch).toList ++
        (marked '-' v.prerelease.toList ++ marked '+' v.build.toList))) := by
  have hmarked : ∀ (mark : String) (c : Char) (text : String), mark.toList = [c] →
      (if text.isEmpty then "" else mark ++ text).toList = marked c text.toList := by
    intro mark c text hmark
    unfold marked
    by_cases hempty : text = ""
    · rw [hempty]
      rfl
    · rw [if_neg (by simpa using hempty), if_neg (by simpa using hempty), String.toList_append,
        hmark]
      rfl
  unfold text
  simp only [String.toList_append, hmarked "-" '-' _ rfl, hmarked "+" '+' _ rfl, List.append_assoc]
  rfl

/-- **A version number is written as it was read.** -/
theorem text_of_parse {text : String} {v : Version} (h : parse text = .ok v) : v.text = text := by
  unfold parse at h
  dsimp only at h
  split at h
  · cases h
  · simp only [bind_eq_ok_iff, Prod.exists] at h
    obtain ⟨major, behindMajor, hmajor, _, hpoint, minor, behindMinor, hminor, _, hpoint', patch,
      behindPatch, hpatch, prerelease, behindPrerelease, hprerelease, build, last, hbuild, h⟩ := h
    cases last with
    | cons c last => cases h
    | nil =>
        cases h
        rw [← String.toList_inj, toList_text, String.toList_ofList, String.toList_ofList,
          chars_of_number hmajor, chars_of_point hpoint, chars_of_number hminor,
          chars_of_point hpoint', chars_of_number hpatch, chars_of_optionalPart hprerelease,
          chars_of_optionalPart hbuild, List.append_nil]

end MakeGraph.Version
