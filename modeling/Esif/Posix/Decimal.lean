import Mathlib.Data.Nat.Digits.Lemmas
import Esif.Posix.Bytes

/-!
# Printed numbers

Reading back what the `%d` and `%04d` conversions print, and the paths printed
numbers can stand in.

## Main results

* `strtol_printInt04`, `scanInt_printInt04_append` — `strtol` and `%d` read back what `%04d`
  printed
* `printInt04_injective` — different numbers are printed differently
* `length_printInt04`, `strtol_bounds` — how long a printed number is
* `components_append` — the components of two paths joined by a slash
* `components_of_isName` — a name is one component
-/

namespace Esif.Posix

open Esif.CS.Path (Move)

theorem isdigit_digit {d : ℕ} (h : d < 10) : isdigit (digit d) = true := by
  interval_cases d <;> rfl

theorem toNat_digit {d : ℕ} (h : d < 10) : (digit d).toNat - 48 = d := by
  interval_cases d <;> rfl

/-- The value of a list of digits. -/
theorem digitsVal_map_digit (ds : List ℕ) (h : ∀ d ∈ ds, d < 10) (acc : ℕ) :
    digitsVal acc (ds.map digit) = acc * 10 ^ ds.length + Nat.ofDigits 10 ds.reverse := by
  induction ds generalizing acc with
  | nil => simp [digitsVal]
  | cons d ds ih =>
    have hd : d < 10 := h d (by simp)
    have inner := ih (fun e he => h e (by simp [he])) (acc * 10 + d)
    simp only [List.map_cons, digitsVal, isdigit_digit hd, if_true, toNat_digit hd, inner,
      List.reverse_cons, Nat.ofDigits_append, List.length_reverse, Nat.ofDigits_singleton,
      List.length_cons, pow_succ]
    ring

theorem digitsVal_decimal (n : ℕ) : digitsVal 0 (decimal n) = n := by
  unfold decimal
  split
  · next h => simp [h, digitsVal, isdigit]
  · rw [digitsVal_map_digit _ fun d hd => Nat.digits_lt_base (by omega) (List.mem_reverse.mp hd)]
    simp [Nat.ofDigits_digits]

theorem isdigit_of_mem_decimal {n : ℕ} {b : UInt8} (h : b ∈ decimal n) : isdigit b = true := by
  unfold decimal at h
  split at h
  · obtain rfl : b = 48 := by simpa using h
    rfl
  · obtain ⟨d, hd, rfl⟩ := List.mem_map.mp h
    exact isdigit_digit (Nat.digits_lt_base (by omega) (List.mem_reverse.mp hd))

theorem decimal_ne_nil (n : ℕ) : decimal n ≠ [] := by
  unfold decimal
  split
  · simp
  · next h => simp [Nat.digits_ne_nil_iff_ne_zero, h]

/-- Leading zeros do not change the value. -/
theorem digitsVal_leftpad (k : ℕ) (s : Bytes) : digitsVal 0 (s.leftpad k 48) = digitsVal 0 s := by
  unfold List.leftpad
  generalize k - s.length = m
  induction m with
  | zero => rfl
  | succ m ih => simpa [List.replicate_succ, digitsVal, isdigit] using ih

theorem isdigit_of_mem_leftpad {k n : ℕ} {b : UInt8} (h : b ∈ (decimal n).leftpad k 48) :
    isdigit b = true := by
  rcases List.mem_append.mp h with hzero | hdigit
  · rw [List.eq_of_mem_replicate hzero]
    rfl
  · exact isdigit_of_mem_decimal hdigit

theorem isspace_of_isdigit {b : UInt8} (h : isdigit b = true) : isspace b = false := by
  simp only [isdigit, isspace, Bool.and_eq_true, decide_eq_true_eq, Bool.or_eq_false_iff,
    beq_eq_false_iff_ne, ne_eq, Bool.and_eq_false_iff, decide_eq_false_iff_not,
    UInt8.le_iff_toNat_le, ← UInt8.toNat_inj, UInt8.reduceToNat] at h ⊢
  omega

theorem strtol_of_digits {s : Bytes} (hne : s ≠ []) (h : ∀ b ∈ s, isdigit b = true) :
    strtol s = digitsVal 0 s := by
  obtain ⟨b, s, rfl⟩ := List.exists_cons_of_ne_nil hne
  have hb : isdigit b = true := h b (by simp)
  have hdrop : (b :: s).dropWhile isspace = b :: s := by simp [isspace_of_isdigit hb]
  unfold strtol
  rw [hdrop]
  split
  · next heq =>
    obtain ⟨rfl, -⟩ := List.cons.inj heq
    exact absurd hb (by decide)
  · next heq =>
    obtain ⟨rfl, -⟩ := List.cons.inj heq
    exact absurd hb (by decide)
  · rfl

/-- `strtol` reads back what `%04d` printed. -/
theorem strtol_printInt04 (z : ℤ) : strtol (printInt04 z) = z := by
  unfold printInt04
  split
  · next hneg =>
    have hval : strtol (45 :: (decimal z.natAbs).leftpad 3 48) =
        -(digitsVal 0 ((decimal z.natAbs).leftpad 3 48) : ℤ) := rfl
    rw [hval, digitsVal_leftpad, digitsVal_decimal]
    omega
  · next hpos =>
    rw [strtol_of_digits (by simp [List.leftpad, decimal_ne_nil])
      fun b => isdigit_of_mem_leftpad, digitsVal_leftpad, digitsVal_decimal]
    omega

/-- The value of the digits stops at the first byte that is none. -/
theorem digitsVal_append_cons {ds : Bytes} (hds : ∀ b ∈ ds, isdigit b = true) {b : UInt8}
    (hb : isdigit b = false) (acc : ℕ) (rest : Bytes) :
    digitsVal acc (ds ++ b :: rest) = digitsVal acc ds := by
  induction ds generalizing acc with
  | nil => simp [digitsVal, hb]
  | cons d ds ih =>
    have hd : isdigit d = true := hds d (by simp)
    simpa [digitsVal, hd] using ih (fun e he => hds e (by simp [he])) _

/-- `strtol` reads the number at the head of a string. -/
theorem strtol_decimal_append (n : ℕ) {b : UInt8} (hb : isdigit b = false) (hnul : b ≠ nul)
    (rest : Bytes) : strtol (cstr (decimal n ++ b :: rest)) = n := by
  obtain ⟨d, ds, hdec⟩ := List.exists_cons_of_ne_nil (decimal_ne_nil n)
  have hdigits : ∀ e ∈ decimal n, isdigit e = true := fun e => isdigit_of_mem_decimal
  have hcstr : cstr (decimal n ++ b :: rest) = decimal n ++ b :: cstr rest := by
    rw [cstr, List.takeWhile_append_of_pos, List.takeWhile_cons_of_pos (by simpa using hnul), cstr]
    intro e he
    have hne : e ≠ nul := by
      rintro rfl
      exact absurd (hdigits _ he) (by decide)
    simpa using hne
  have hd : isdigit d = true := hdigits d (by simp [hdec])
  have hdrop : (decimal n ++ b :: cstr rest).dropWhile isspace = decimal n ++ b :: cstr rest := by
    rw [hdec, List.cons_append, List.dropWhile_cons_of_neg (by simp [isspace_of_isdigit hd])]
  have hval : digitsVal 0 (decimal n ++ b :: cstr rest) = n := by
    rw [digitsVal_append_cons hdigits hb, digitsVal_decimal]
  rw [hcstr, strtol, hdrop]
  split
  · next heq =>
    obtain ⟨rfl, -⟩ := List.cons.inj (hdec ▸ heq)
    exact absurd hd (by decide)
  · next heq =>
    obtain ⟨rfl, -⟩ := List.cons.inj (hdec ▸ heq)
    exact absurd hd (by decide)
  · rw [hval]

/-- So does `%d`, and leaves the rest. -/
theorem scanInt_digits_append {ds : Bytes} (hne : ds ≠ []) (hds : ∀ b ∈ ds, isdigit b = true)
    (hval : digitsVal 0 ds < 2 ^ 31) {b : UInt8} (hb : isdigit b = false) (rest : Bytes) :
    scanInt (ds ++ b :: rest) = some ((digitsVal 0 ds : ℤ), b :: rest) ∧
      scanInt (45 :: (ds ++ b :: rest)) = some (-(digitsVal 0 ds : ℤ), b :: rest) := by
  obtain ⟨d, ds', rfl⟩ := List.exists_cons_of_ne_nil hne
  have hd : isdigit d = true := hds d (by simp)
  have hdrop : (d :: ds' ++ b :: rest).dropWhile isspace = d :: ds' ++ b :: rest := by
    rw [List.cons_append, List.dropWhile_cons_of_neg (by simp [isspace_of_isdigit hd])]
  have htake : (d :: ds' ++ b :: rest).takeWhile isdigit = d :: ds' := by
    rw [List.takeWhile_append_of_pos hds, List.takeWhile_cons_of_neg (by simp [hb]),
      List.append_nil]
  have hrest : (d :: ds' ++ b :: rest).dropWhile isdigit = b :: rest := by
    rw [List.dropWhile_append_of_pos hds, List.dropWhile_cons_of_neg (by simp [hb])]
  have hdigits : digitsVal 0 (d :: ds' ++ b :: rest) = digitsVal 0 (d :: ds') :=
    digitsVal_append_cons hds hb 0 rest
  have hint : ∀ z : ℤ, -(2 ^ 31) ≤ z → z < 2 ^ 31 → toInt32 z = z := by
    intro z hlow hhigh
    rw [toInt32]
    omega
  constructor
  · rw [scanInt, hdrop]
    split
    · next heq =>
      obtain ⟨rfl, -⟩ := List.cons.inj heq
      exact absurd hd (by decide)
    · next heq =>
      obtain ⟨rfl, -⟩ := List.cons.inj heq
      exact absurd hd (by decide)
    · rw [htake, hrest, hdigits, if_neg (by simp), hint _ (by omega) (by omega)]
  · have hminus : ∀ r : Bytes, scanInt (45 :: r) = if (r.takeWhile isdigit).isEmpty then none
        else some (toInt32 (-(digitsVal 0 r : ℤ)), r.dropWhile isdigit) := fun r => rfl
    rw [hminus, htake, hrest, hdigits, if_neg (by simp), hint _ (by omega) (by omega)]

theorem scanInt_decimal_append {n : ℕ} (hn : n < 2 ^ 31) {b : UInt8} (hb : isdigit b = false)
    (rest : Bytes) : scanInt (decimal n ++ b :: rest) = some ((n : ℤ), b :: rest) := by
  have hval : digitsVal 0 (decimal n) = n := digitsVal_decimal n
  have hscan := (scanInt_digits_append (decimal_ne_nil n) (fun _ => isdigit_of_mem_decimal)
    (by omega) hb rest).1
  rwa [hval] at hscan

/-- `%d` reads back what `%04d` printed. -/
theorem scanInt_printInt04_append {z : ℤ} (hlow : -(2 ^ 31) < z) (hhigh : z < 2 ^ 31) {b : UInt8}
    (hb : isdigit b = false) (rest : Bytes) :
    scanInt (printInt04 z ++ b :: rest) = some (z, b :: rest) := by
  have hpad : ∀ k, digitsVal 0 ((decimal z.natAbs).leftpad k 48) = z.natAbs := fun k => by
    rw [digitsVal_leftpad, digitsVal_decimal]
  have hscan : ∀ k, _ := fun k => @scanInt_digits_append ((decimal z.natAbs).leftpad k 48)
    (by simp [List.leftpad, decimal_ne_nil])
    (fun _ => isdigit_of_mem_leftpad) (by rw [hpad]; omega) b hb rest
  unfold printInt04
  split
  · have hneg := (hscan 3).2
    rw [hpad] at hneg
    rw [List.cons_append, hneg, show -(z.natAbs : ℤ) = z by omega]
  · have hpos := (hscan 4).1
    rw [hpad] at hpos
    rw [hpos, show (z.natAbs : ℤ) = z by omega]

/-! ### Lengths -/

theorem length_decimal_le {n k : ℕ} (hk : 0 < k) (h : n < 10 ^ k) : (decimal n).length ≤ k := by
  unfold decimal
  split
  · exact Nat.succ_le_of_lt hk
  · rw [List.length_map, List.length_reverse, Nat.digits_length_le_iff (by decide)]
    exact h

/-- The value of some digits is bounded by their number. -/
theorem digitsVal_lt (s : Bytes) (acc : ℕ) : digitsVal acc s < (acc + 1) * 10 ^ s.length := by
  induction s generalizing acc with
  | nil => simp [digitsVal]
  | cons b s ih =>
    have hpos : 0 < 10 ^ s.length := Nat.pow_pos (by decide)
    rw [digitsVal, List.length_cons, pow_succ]
    split
    · next hb =>
      have hdigit : b.toNat - 48 < 10 := by
        simp only [isdigit, Bool.and_eq_true, decide_eq_true_eq, UInt8.le_iff_toNat_le,
          UInt8.reduceToNat] at hb
        omega
      calc digitsVal (acc * 10 + (b.toNat - 48)) s
          < (acc * 10 + (b.toNat - 48) + 1) * 10 ^ s.length := ih _
        _ ≤ ((acc + 1) * 10) * 10 ^ s.length := Nat.mul_le_mul_right _ (by omega)
        _ = (acc + 1) * (10 ^ s.length * 10) := by ring
    · nlinarith

/-- The value of a text of four bytes has four digits, or three and a sign. -/
theorem strtol_bounds {s : Bytes} (h : s.length ≤ 4) : -1000 < strtol s ∧ strtol s < 10000 := by
  have hdrop : (s.dropWhile isspace).length ≤ 4 :=
    (List.dropWhile_suffix isspace).length_le.trans h
  have hlt : ∀ {r : Bytes} {k : ℕ}, r.length ≤ k → digitsVal 0 r < 10 ^ k := fun hr =>
    (digitsVal_lt _ 0).trans_le (by simpa using Nat.pow_le_pow_right (by decide) hr)
  unfold strtol
  split
  · next r heq =>
    rw [heq, List.length_cons] at hdrop
    have hval := hlt (r := r) (k := 3) (by omega)
    omega
  · next r heq =>
    rw [heq, List.length_cons] at hdrop
    have hval := hlt (r := r) (k := 3) (by omega)
    omega
  · have hval := hlt hdrop
    omega

/-- Such a value is printed in four bytes. -/
theorem length_printInt04 {z : ℤ} (hlow : -1000 < z) (hhigh : z < 10000) :
    (printInt04 z).length = 4 := by
  unfold printInt04
  split
  · have hdec := length_decimal_le (n := z.natAbs) (k := 3) (by decide) (by omega)
    rw [List.length_cons, List.length_leftpad]
    omega
  · have hdec := length_decimal_le (n := z.natAbs) (k := 4) (by decide) (by omega)
    rw [List.length_leftpad]
    omega

/-- Different numbers are printed differently. -/
theorem printInt04_injective : Function.Injective printInt04 := fun z z' h => by
  rw [← strtol_printInt04 z, h, strtol_printInt04]

/-! ### Paths -/

/-- A name that stands for one entry of a directory. -/
def IsName (s : Bytes) : Prop := slash ∉ s ∧ s ≠ [] ∧ s ≠ ascii "." ∧ s ≠ ascii ".."

/-- The components of two paths joined by a slash. -/
theorem components_append (s s' : Bytes) :
    components (s ++ slash :: s') = components s ++ components s' := by
  simp [components, List.splitOn_append_cons_self]

theorem components_of_isName {s : Bytes} (h : IsName s) : components s = [.down s] := by
  obtain ⟨hslash, hnil, hdot, hdotdot⟩ := h
  simp [components, List.splitOn_eq_singleton hslash, component, hnil, hdot, hdotdot]

/-- A byte that `%04d` prints is a digit or a minus sign. -/
theorem of_mem_printInt04 {z : ℤ} {b : UInt8} (h : b ∈ printInt04 z) :
    isdigit b = true ∨ b = 45 := by
  unfold printInt04 at h
  split at h
  · rcases List.mem_cons.mp h with rfl | h
    · exact Or.inr rfl
    · exact Or.inl (isdigit_of_mem_leftpad h)
  · exact Or.inl (isdigit_of_mem_leftpad h)

theorem printInt04_ne_nil (z : ℤ) : printInt04 z ≠ [] := by
  unfold printInt04
  split
  · simp
  · simp [List.leftpad, decimal_ne_nil]

/-- A text of letters followed by a printed number and a suffix is a name. -/
theorem isName_append_printInt04 (z : ℤ) {before after : Bytes} (hbefore : slash ∉ before)
    (hafter : slash ∉ after) : IsName (before ++ printInt04 z ++ after) := by
  obtain ⟨b, rest, hb⟩ := List.exists_cons_of_ne_nil (printInt04_ne_nil z)
  have hmem : b ∈ before ++ printInt04 z ++ after := by simp [hb]
  have hkind := of_mem_printInt04 (z := z) (b := b) (by simp [hb])
  refine ⟨?_, ?_, ?_, ?_⟩
  · simp only [List.mem_append, not_or]
    refine ⟨⟨hbefore, fun h => ?_⟩, hafter⟩
    rcases of_mem_printInt04 h with h | h <;> exact absurd h (by decide)
  · intro h
    simp [h] at hmem
  · intro h
    rw [h] at hmem
    obtain rfl : b = 46 := by simpa [ascii] using hmem
    rcases hkind with h | h <;> exact absurd h (by decide)
  · intro h
    rw [h] at hmem
    obtain rfl : b = 46 := by simpa [ascii] using hmem
    rcases hkind with h | h <;> exact absurd h (by decide)

end Esif.Posix
