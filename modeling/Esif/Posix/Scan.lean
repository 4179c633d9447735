import Esif.Posix.Bytes

/-!
# Conversions inside a line

A `%d` conversion reads no further than the first byte that is neither a digit nor, in front
of the number, a blank or a sign. So where there is more than blanks in a line, it reads the
same from the line alone as from a text that begins with the line.

## Main definitions

* `scanDigits` — the digits behind the sign

## Main results

* `scanInt_append` — `%d` in a line that is not blank, whatever follows the line
* `scanInt_blank_append` — a blank line is passed over
* `scanInt_suffix` — what `%d` leaves
-/

namespace Esif.Posix

/-- Nothing but blanks. -/
def Blank (s : Bytes) : Prop := ∀ b ∈ s, isspace b = true

instance (s : Bytes) : Decidable (Blank s) := List.decidableBAll _ s

/-- The digits behind the sign, as an `int`, and the input left. -/
def scanDigits (sign : ℕ → ℤ) (s : Bytes) : Option (ℤ × Bytes) :=
  if (s.takeWhile isdigit).isEmpty then none
  else some (toInt32 (sign (digitsVal 0 s)), s.dropWhile isdigit)

section Scan

variable {s l rest : Bytes} {b : UInt8} {z : ℤ}

theorem Blank.dropWhile_append (h : Blank l) (s : Bytes) :
    (l ++ s).dropWhile isspace = s.dropWhile isspace :=
  List.dropWhile_append_of_pos h

theorem Blank.dropWhile_eq (h : Blank l) : l.dropWhile isspace = [] :=
  List.dropWhile_eq_nil_iff.mpr h

theorem dropWhile_isspace_append (h : ¬ Blank l) (s : Bytes) :
    (l ++ s).dropWhile isspace = l.dropWhile isspace ++ s := by
  have hne : l.dropWhile isspace ≠ [] := fun hnil => h (List.dropWhile_eq_nil_iff.mp hnil)
  rw [List.dropWhile_append, if_neg (by simpa using hne)]

/-- A blank line is passed over. -/
theorem scanInt_blank_append (h : Blank l) (s : Bytes) : scanInt (l ++ s) = scanInt s := by
  rw [scanInt, scanInt, h.dropWhile_append]

theorem Blank.scanInt_eq (h : Blank l) : scanInt l = none := by
  rw [scanInt, h.dropWhile_eq]
  rfl

/-- Behind its blanks and its sign a line is read as a number. -/
theorem scanInt_append_eq (h : ¬ Blank l) :
    ∃ sign r, r <:+ l ∧ ∀ s, scanInt (l ++ s) = scanDigits sign (r ++ s) := by
  have hsuffix := List.dropWhile_suffix (l := l) isspace
  cases hdrop : l.dropWhile isspace with
  | nil => exact absurd (List.dropWhile_eq_nil_iff.mp hdrop) h
  | cons c r =>
    rw [hdrop] at hsuffix
    have htail : r <:+ l := (List.suffix_cons c r).trans hsuffix
    by_cases hminus : c = 45
    · subst hminus
      refine ⟨fun n => -(n : ℤ), r, htail, fun s => ?_⟩
      rw [scanInt, dropWhile_isspace_append h, hdrop]
      rfl
    · by_cases hplus : c = 43
      · subst hplus
        refine ⟨fun n => n, r, htail, fun s => ?_⟩
        rw [scanInt, dropWhile_isspace_append h, hdrop]
        rfl
      · refine ⟨fun n => n, c :: r, hsuffix, fun s => ?_⟩
        rw [scanInt, dropWhile_isspace_append h, hdrop]
        split
        · next heq => exact absurd (List.cons.inj heq).1 hminus
        · next heq => exact absurd (List.cons.inj heq).1 hplus
        · rfl

theorem digitsVal_append_stop (acc : ℕ) (s : Bytes) (hb : isdigit b = false) (rest : Bytes) :
    digitsVal acc (s ++ b :: rest) = digitsVal acc s := by
  induction s generalizing acc with
  | nil => simp [digitsVal, hb]
  | cons a s ih =>
    by_cases ha : isdigit a = true
    · simp only [List.cons_append, digitsVal, ha, if_true, ih]
    · simp [digitsVal, ha]

/-- The digits end at a byte that is none. -/
theorem scanDigits_append (sign : ℕ → ℤ) (s : Bytes) (hb : isdigit b = false) (rest : Bytes) :
    scanDigits sign (s ++ b :: rest) =
      (scanDigits sign s).map fun (z, left) => (z, left ++ b :: rest) := by
  have htake : (s ++ b :: rest).takeWhile isdigit = s.takeWhile isdigit := by
    rw [List.takeWhile_append]
    split
    · next hlen =>
      rw [List.takeWhile_cons_of_neg (by simp [hb]), List.append_nil]
      exact ((List.takeWhile_prefix isdigit).eq_of_length hlen).symm
    · rfl
  have hdrop : (s ++ b :: rest).dropWhile isdigit = s.dropWhile isdigit ++ b :: rest := by
    rw [List.dropWhile_append]
    split
    · next hnil =>
      rw [List.isEmpty_iff.mp hnil, List.dropWhile_cons_of_neg (by simp [hb])]
      rfl
    · rfl
  unfold scanDigits
  rw [htake, hdrop, digitsVal_append_stop 0 s hb]
  split
  · rfl
  · rfl

/-- `%d` reads the same from a line that is not blank as from a text that begins with it. -/
theorem scanInt_append (h : ¬ Blank l) (hb : isdigit b = false) (rest : Bytes) :
    scanInt (l ++ b :: rest) = (scanInt l).map fun (z, left) => (z, left ++ b :: rest) := by
  obtain ⟨sign, r, -, hscan⟩ := scanInt_append_eq h
  have hline : scanInt l = scanDigits sign r := by simpa using hscan []
  rw [hscan, hline, scanDigits_append sign r hb]

/-- What `%d` leaves is shorter. -/
theorem scanInt_suffix (h : scanInt s = some (z, rest)) : rest <:+ s ∧ rest.length < s.length := by
  by_cases hblank : Blank s
  · rw [hblank.scanInt_eq] at h
    cases h
  · obtain ⟨sign, r, hsuffix, hscan⟩ := scanInt_append_eq hblank
    have hnumber : scanDigits sign r = some (z, rest) := by simpa [h] using (hscan []).symm
    unfold scanDigits at hnumber
    split_ifs at hnumber with hempty
    obtain ⟨-, rfl⟩ := Prod.mk.inj (Option.some.inj hnumber)
    refine ⟨(List.dropWhile_suffix isdigit).trans hsuffix, ?_⟩
    have hsplit := congrArg List.length (List.takeWhile_append_dropWhile (p := isdigit) (l := r))
    have hpos : 0 < (r.takeWhile isdigit).length :=
      List.length_pos_of_ne_nil (by simpa using hempty)
    have hle := hsuffix.length_le
    rw [List.length_append] at hsplit
    omega

end Scan

end Esif.Posix
