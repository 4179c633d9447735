import Mathlib.Data.List.DropRight
import Esif.Posix.Scan

/-!
# Texts in fields of a width

`%-ns` and `%ns` fill a text up to `n` bytes with blanks, behind it and in front of it. What is
lost are the blanks at that end, so a text can be told from its field but for these.

## Main definitions

* `printLeft`, `printRight` — the two conversions
* `trimRight`, `trimSpace` — a text without the blanks behind it
* `indent` — the blanks in front of a text

## Main results

* `printLeft_eq_iff`, `printRight_eq_iff` — when two fields are the same
* `trimSpace_eq_iff` — when two texts with the same field are the same
-/

namespace Esif.Posix

/-- `' '` -/
def blank : UInt8 := 32

/-- `%-ns` -/
def printLeft (n : ℕ) (s : Bytes) : Bytes := s.rightpad n blank

/-- `%ns` -/
def printRight (n : ℕ) (s : Bytes) : Bytes := s.leftpad n blank

/-- A text without the blanks of a field behind it. -/
def trimRight (s : Bytes) : Bytes := s.rdropWhile (· = blank)

/-- A text without what `isspace` accepts behind it. -/
def trimSpace (s : Bytes) : Bytes := s.rdropWhile isspace

/-- What is in front of a text that has more than blanks. -/
def indent (s : Bytes) : Bytes := if Blank s then [] else s.takeWhile isspace

section Padding

variable {n : ℕ} {s t : Bytes}

theorem printLeft_length (h : s.length ≤ n) : (printLeft n s).length = n := by
  rw [printLeft, List.length_rightpad, max_eq_left h]

theorem printRight_length (h : s.length ≤ n) : (printRight n s).length = n := by
  rw [printRight, List.length_leftpad, max_eq_left h]

theorem trimRight_length_le (s : Bytes) : (trimRight s).length ≤ s.length :=
  (List.rdropWhile_prefix _ _).length_le

theorem trimRight_append_replicate (s : Bytes) (k : ℕ) :
    trimRight (s ++ List.replicate k blank) = trimRight s := by
  induction k with
  | zero => simp
  | succ k ih =>
    rw [List.replicate_succ', ← List.append_assoc, trimRight, List.rdropWhile_concat_pos _ _ _
      (by simp), ← trimRight, ih]

/-- The blanks that `trimRight` takes. -/
theorem eq_trimRight_append (s : Bytes) :
    s = trimRight s ++ List.replicate (s.length - (trimRight s).length) blank := by
  have hsplit := List.rdropWhile_append_rtakeWhile (p := fun b => decide (b = blank)) (l := s)
  have hblanks : s.rtakeWhile (fun b => decide (b = blank)) =
      List.replicate (s.length - (trimRight s).length) blank := by
    refine List.eq_replicate_iff.mpr ⟨?_, fun b hb => by simpa using List.mem_rtakeWhile_imp hb⟩
    have hlen := congrArg List.length hsplit
    rw [List.length_append] at hlen
    rw [trimRight]
    omega
  rw [← hblanks]
  exact hsplit.symm

/-- The field depends on the text without the blanks behind it. -/
theorem printLeft_trimRight (h : s.length ≤ n) : printLeft n s = printLeft n (trimRight s) := by
  have hle := trimRight_length_le s
  have hsplit := eq_trimRight_append s
  calc printLeft n s
      = s ++ List.replicate (n - s.length) blank := rfl
    _ = trimRight s ++ List.replicate (s.length - (trimRight s).length) blank ++
          List.replicate (n - s.length) blank := by rw [← hsplit]
    _ = trimRight s ++ List.replicate (n - (trimRight s).length) blank := by
        rw [List.append_assoc, List.replicate_append_replicate]
        congr 2
        omega
    _ = printLeft n (trimRight s) := rfl

/-- Two texts that fit have the same field exactly when they differ in the blanks behind them
only. -/
theorem printLeft_eq_iff (hs : s.length ≤ n) (ht : t.length ≤ n) :
    printLeft n s = printLeft n t ↔ trimRight s = trimRight t := by
  constructor
  · intro h
    have htrim := congrArg trimRight h
    rwa [printLeft, printLeft, List.rightpad, List.rightpad, trimRight_append_replicate,
      trimRight_append_replicate] at htrim
  · intro h
    rw [printLeft_trimRight hs, printLeft_trimRight ht, h]

/-- Without blanks in front the text is all that the field has behind them. -/
theorem dropWhile_printRight (h : ∀ b ∈ s.head?, b ≠ blank) :
    (printRight n s).dropWhile (· = blank) = s := by
  rw [printRight, List.leftpad, List.dropWhile_append_of_pos (by simp)]
  cases s with
  | nil => rfl
  | cons b s => rw [List.dropWhile_cons_of_neg (by simpa using h b rfl)]

theorem printRight_eq_iff (hs : ∀ b ∈ s.head?, b ≠ blank) (ht : ∀ b ∈ t.head?, b ≠ blank) :
    printRight n s = printRight n t ↔ s = t := by
  constructor
  · intro h
    rw [← dropWhile_printRight (n := n) hs, ← dropWhile_printRight (n := n) ht, h]
  · exact fun h => by rw [h]

/-! What a field loses of a text. -/

theorem trimSpace_trimRight (s : Bytes) : trimSpace (trimRight s) = trimSpace s := by
  have happ : ∀ k, trimSpace (trimRight s ++ List.replicate k blank) = trimSpace (trimRight s) := by
    intro k
    induction k with
    | zero => simp
    | succ k ih =>
      rw [List.replicate_succ', ← List.append_assoc, trimSpace, List.rdropWhile_concat_pos _ _ _
        (by decide), ← trimSpace, ih]
  conv_rhs => rw [eq_trimRight_append s]
  exact (happ _).symm

theorem Blank.trimSpace_eq (h : Blank s) : trimSpace s = [] := List.rdropWhile_eq_nil_iff.mpr h

theorem trimSpace_eq_nil_iff : trimSpace s = [] ↔ Blank s := List.rdropWhile_eq_nil_iff

/-- What is behind the blanks in front is trimmed by itself. -/
theorem trimSpace_append (h : ¬ Blank t) (s : Bytes) : trimSpace (s ++ t) = s ++ trimSpace t := by
  have hne : t.reverse.dropWhile isspace ≠ [] := fun hnil =>
    h fun b hb => List.dropWhile_eq_nil_iff.mp hnil b (List.mem_reverse.mpr hb)
  rw [trimSpace, trimSpace, List.rdropWhile, List.rdropWhile, List.reverse_append,
    List.dropWhile_append, if_neg (by simpa using hne), List.reverse_append, List.reverse_reverse]

theorem blank_dropWhile_iff : Blank (s.dropWhile isspace) ↔ Blank s := by
  constructor
  · intro h b hb
    rw [← List.takeWhile_append_dropWhile (p := isspace) (l := s)] at hb
    rcases List.mem_append.mp hb with hb | hb
    · exact List.mem_takeWhile_imp hb
    · exact h b hb
  · intro h b hb
    exact h b ((List.dropWhile_suffix isspace).mem hb)

/-- Two texts that differ in the blanks around them only differ in those in front when they
differ in more than the blanks behind them. -/
theorem trimSpace_eq_iff
    (h : trimRight (s.dropWhile isspace) = trimRight (t.dropWhile isspace)) :
    trimSpace s = trimSpace t ↔ indent s = indent t := by
  have htrim : trimSpace (s.dropWhile isspace) = trimSpace (t.dropWhile isspace) := by
    rw [← trimSpace_trimRight, h, trimSpace_trimRight]
  have hblank : Blank s ↔ Blank t := by
    rw [← blank_dropWhile_iff, ← trimSpace_eq_nil_iff, htrim, trimSpace_eq_nil_iff,
      blank_dropWhile_iff]
  have hsplit : ∀ u : Bytes, ¬ Blank u →
      trimSpace u = u.takeWhile isspace ++ trimSpace (u.dropWhile isspace) := fun u hu => by
    rw [← trimSpace_append (fun hdrop => hu (blank_dropWhile_iff.mp hdrop)),
      List.takeWhile_append_dropWhile]
  by_cases hs : Blank s
  · have ht := hblank.mp hs
    rw [hs.trimSpace_eq, ht.trimSpace_eq, indent, indent, if_pos hs, if_pos ht]
  · have ht : ¬ Blank t := fun ht => hs (hblank.mpr ht)
    rw [indent, indent, if_neg hs, if_neg ht, hsplit s hs, hsplit t ht, htrim]
    exact List.append_left_inj _

/-- A text that does not begin with a blank has nothing in front. -/
theorem indent_eq_nil (h : s.dropWhile isspace = s) : indent s = [] := by
  unfold indent
  split_ifs with hblank
  · rfl
  · have hlen := congrArg List.length (List.takeWhile_append_dropWhile (p := isspace) (l := s))
    rw [h, List.length_append] at hlen
    exact List.eq_nil_of_length_eq_zero (by omega)

end Padding

end Esif.Posix
