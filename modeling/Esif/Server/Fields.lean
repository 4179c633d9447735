import Esif.Client.Form
import Esif.Posix.Decimal
import Esif.Posix.Scan
import Esif.Server.Dispass

/-!
# The words of `inspass`

`inspass` reads five words at a time with one call of `fscanf`, wherever the lines end. So what
a call makes of a line depends on where the call begins, which may be in a line before.

## Main definitions

* `scanFields` — one call of `fscanf`
* `InLine` — a line in the format that the program prints
* `noNumber` — a call fails at a word
* `Words` — a text of so many words at least

## Main results

* `scanFields_line` — a call that begins with a line
* `scanFields_append` — a call that is complete at the end of a text
* `takesCode_cut` — a call that a line cuts into
-/

namespace Esif.Server

open Esif.CS Esif.Posix
open Esif.Client (ScanError scanNumber)

/-! ### The program -/

/-- `%s` into an array of `size` bytes. -/
def scanString (size : ℕ) (s : Bytes) : Except ScanError (Bytes × Bytes) :=
  let s := s.dropWhile isspace
  let word := s.takeWhile (!isspace ·)
  if word = [] then .error .mismatch
  else if size ≤ word.length then .error .overrun
  else .ok (word, s.dropWhile (!isspace ·))

/-- `fscanf(stdin, "%d %d %s %s %s", …)`: the fields and the rest of the input. -/
def scanFields (s : Bytes) : Except ScanError (Fields × Bytes) := do
  let (disabled, s) ← scanNumber s
  let (codeval, s) ← scanNumber s
  let (pass, s) ← scanString 15 s
  let (start, s) ← scanString 20 s
  let (end_, s) ← scanString 20 s
  return (⟨disabled, codeval, pass, start, end_⟩, s)

theorem scanNumber_length {s rest : Bytes} {z : ℤ} (h : scanNumber s = .ok (z, rest)) :
    rest.length ≤ s.length := by
  unfold scanNumber at h
  cases hscan : scanInt s with
  | none => simp [hscan] at h
  | some r =>
    rw [hscan] at h
    obtain rfl := Except.ok.inj h
    exact (scanInt_suffix hscan).1.length_le

theorem scanString_length {size : ℕ} {s word rest : Bytes}
    (h : scanString size s = .ok (word, rest)) : rest.length < s.length := by
  have hskip := (List.dropWhile_suffix (l := s) isspace).length_le
  unfold scanString at h
  dsimp only at h
  split_ifs at h with hnil hsize
  obtain ⟨rfl, rfl⟩ := Prod.mk.inj (Except.ok.inj h)
  have hpos := List.length_pos_of_ne_nil hnil
  have hsplit := congrArg List.length
    (List.takeWhile_append_dropWhile (p := (!isspace ·)) (l := s.dropWhile isspace))
  rw [List.length_append] at hsplit
  omega

theorem bind_eq_ok {α β : Type} {x : Except ScanError α} {next : α → Except ScanError β} {b : β}
    (h : x >>= next = .ok b) : ∃ a, x = .ok a ∧ next a = .ok b := by
  cases x with
  | error err => cases h
  | ok a => exact ⟨a, rfl, h⟩

/-- A line that is read takes something off the input. -/
theorem scanFields_length {s rest : Bytes} {f : Fields} (h : scanFields s = .ok (f, rest)) :
    rest.length < s.length := by
  obtain ⟨⟨disabled, s₁⟩, hdisabled, h⟩ := bind_eq_ok h
  obtain ⟨⟨codeval, s₂⟩, hcodeval, h⟩ := bind_eq_ok h
  obtain ⟨⟨pass, s₃⟩, hpass, h⟩ := bind_eq_ok h
  obtain ⟨⟨start, s₄⟩, hstart, h⟩ := bind_eq_ok h
  obtain ⟨⟨end_, s₅⟩, hend, h⟩ := bind_eq_ok h
  obtain ⟨-, rfl⟩ := Prod.mk.inj (Except.ok.inj h)
  have hle₁ := scanNumber_length hdisabled
  have hle₂ := scanNumber_length hcodeval
  have hlt₃ := scanString_length hpass
  have hlt₄ := scanString_length hstart
  have hlt₅ := scanString_length hend
  omega

/-! ### Lines -/

/-- The five words of a line. -/
structure InLine where
  disabled : Bytes
  code : Bytes
  pass : Bytes
  start : Bytes
  end_ : Bytes
  deriving DecidableEq, Repr

/-- `<disabled?> <college_code> <password> <start_time> <end_time>` -/
def InLine.text (l : InLine) : Bytes :=
  l.disabled ++ 32 :: (l.code ++ 32 :: (l.pass ++ 32 :: (l.start ++ 32 :: (l.end_ ++ [newline]))))

def IsWord (word : Bytes) : Prop := word ≠ [] ∧ ∀ b ∈ word, isspace b = false

/-- A word that `%d` reads to its end. -/
def IsInt (word : Bytes) : Prop := IsWord word ∧ ∃ z, scanInt word = some (z, [])

/-- A line of the format. Nothing is said of the lengths of its words, of the size of its numbers
and of what its dates look like. -/
structure InLine.IsLine (l : InLine) : Prop where
  disabled : IsInt l.disabled
  code : IsInt l.code
  pass : IsWord l.pass
  start : IsWord l.start
  end_ : IsWord l.end_

/-- The fields that are read of a line. -/
def InLine.fields (l : InLine) : Fields :=
  ⟨toInt32 (strtol l.disabled), toInt32 (strtol l.code), l.pass, l.start, l.end_⟩

/-- The arrays hold what is read. -/
def InLine.Fits (l : InLine) : Prop := l.fields.Fits

section Scan

variable {word rest : Bytes} {size : ℕ} {b : UInt8} {z : ℤ} {l : InLine}

theorem IsWord.dropWhile (h : IsWord word) (rest : Bytes) :
    (word ++ rest).dropWhile isspace = word ++ rest := by
  obtain ⟨b, word, rfl⟩ := List.exists_cons_of_ne_nil h.1
  rw [List.cons_append, List.dropWhile_cons_of_neg]
  simp [h.2 b (by simp)]

/-- The digits of a number end where the number does. -/
theorem digits_append {r : Bytes} (hr : r.dropWhile isdigit = []) (hb : isdigit b = false)
    (rest : Bytes) :
    digitsVal 0 (r ++ b :: rest) = digitsVal 0 r ∧ (r ++ b :: rest).takeWhile isdigit = r ∧
      (r ++ b :: rest).dropWhile isdigit = b :: rest ∧ r.takeWhile isdigit = r := by
  have hall : ∀ d ∈ r, isdigit d = true := List.dropWhile_eq_nil_iff.mp hr
  refine ⟨digitsVal_append_cons hall hb 0 rest, ?_, ?_, List.takeWhile_eq_self_iff.mpr hall⟩
  · rw [List.takeWhile_append_of_pos hall, List.takeWhile_cons_of_neg (by simp [hb]),
      List.append_nil]
  · rw [List.dropWhile_append_of_pos hall, List.dropWhile_cons_of_neg (by simp [hb])]

/-- `%d` reads such a word in front of a byte that is no digit. -/
theorem IsInt.scanInt_append (h : IsInt word) (hb : isdigit b = false) (rest : Bytes) :
    scanInt (word ++ b :: rest) = some (toInt32 (strtol word), b :: rest) := by
  obtain ⟨hword, z, hz⟩ := h
  obtain ⟨c, r, rfl⟩ := List.exists_cons_of_ne_nil hword.1
  have hminus : ∀ r : Bytes, scanInt (45 :: r) = if (r.takeWhile isdigit).isEmpty then none
      else some (toInt32 (-(digitsVal 0 r : ℤ)), r.dropWhile isdigit) := fun r => rfl
  have hplus : ∀ r : Bytes, scanInt (43 :: r) = if (r.takeWhile isdigit).isEmpty then none
      else some (toInt32 (digitsVal 0 r), r.dropWhile isdigit) := fun r => rfl
  rw [List.cons_append]
  -- a sign in front of the digits, or none
  by_cases hsign : c = 45
  · subst hsign
    rw [hminus] at hz ⊢
    split_ifs at hz with hnone
    obtain ⟨hval, htake, hdrop, hself⟩ := digits_append (Prod.mk.inj (Option.some.inj hz)).2 hb rest
    rw [hself] at hnone
    rw [htake, hdrop, hval, if_neg hnone]
    rfl
  · by_cases hsign' : c = 43
    · subst hsign'
      rw [hplus] at hz ⊢
      split_ifs at hz with hnone
      obtain ⟨hval, htake, hdrop, hself⟩ :=
        digits_append (Prod.mk.inj (Option.some.inj hz)).2 hb rest
      rw [hself] at hnone
      rw [htake, hdrop, hval, if_neg hnone]
      rfl
    · have hskip := hword.dropWhile (b :: rest)
      have hskip' : (c :: r).dropWhile isspace = c :: r := by simpa using hword.dropWhile []
      rw [List.cons_append] at hskip
      unfold scanInt at hz ⊢
      unfold strtol
      rw [hskip'] at hz ⊢
      rw [hskip]
      split at hz
      · next heq => exact absurd (List.cons.inj heq).1 hsign
      · next heq => exact absurd (List.cons.inj heq).1 hsign'
      · split_ifs at hz with hnone
        obtain ⟨hval, htake, hdrop, hself⟩ :=
          digits_append (Prod.mk.inj (Option.some.inj hz)).2 hb rest
        rw [hself] at hnone
        rw [List.cons_append] at hval htake hdrop
        split
        · next heq => exact absurd (List.cons.inj heq).1 hsign
        · next heq => exact absurd (List.cons.inj heq).1 hsign'
        · rw [htake, hdrop, hval, if_neg hnone]

theorem scanString_append (h : IsWord word) (hb : isspace b = true) (rest : Bytes) :
    scanString size (word ++ b :: rest) =
      if size ≤ word.length then .error .overrun else .ok (word, b :: rest) := by
  have htake : (word ++ b :: rest).takeWhile (!isspace ·) = word := by
    rw [List.takeWhile_append_of_pos fun c hc => by simp [h.2 c hc],
      List.takeWhile_cons_of_neg (by simp [hb]), List.append_nil]
  unfold scanString
  dsimp only
  rw [h.dropWhile, htake, if_neg h.1, List.dropWhile_append_of_pos fun c hc => by simp [h.2 c hc],
    List.dropWhile_cons_of_neg (by simp [hb])]

/-- The words of a line are read one after the other. -/
theorem scanFields_line (hl : l.IsLine) (rest : Bytes) :
    scanFields (l.text ++ rest) =
      if l.pass.length < 15 ∧ l.start.length < 20 ∧ l.end_.length < 20 then
        .ok (l.fields, newline :: rest)
      else .error .overrun := by
  have htext : l.text ++ rest = l.disabled ++ 32 :: (l.code ++ 32 :: (l.pass ++ 32 ::
      (l.start ++ 32 :: (l.end_ ++ newline :: rest)))) := by simp [InLine.text]
  have hnumber : ∀ {word : Bytes}, IsInt word → ∀ rest, scanNumber (word ++ 32 :: rest) =
      .ok (toInt32 (strtol word), 32 :: rest) := by
    intro word hword rest
    rw [scanNumber, hword.scanInt_append (by decide)]
  -- the blank between two words is skipped
  have hcode : ∀ s, scanNumber (32 :: s) = scanNumber s := fun s => rfl
  have hblank : ∀ size s, scanString size (32 :: s) = scanString size s := fun size s => rfl
  have hword : ∀ {word : Bytes}, IsWord word → ∀ size rest, scanString size (word ++ 32 :: rest) =
      if size ≤ word.length then .error .overrun else .ok (word, 32 :: rest) :=
    fun hword size rest => scanString_append hword (by decide) rest
  have hend : scanString 20 (l.end_ ++ newline :: rest) =
      if 20 ≤ l.end_.length then .error .overrun else .ok (l.end_, newline :: rest) :=
    scanString_append hl.end_ (by decide) rest
  rw [htext]
  simp only [scanFields, bind, Except.bind, hnumber hl.disabled, hcode, hnumber hl.code, hblank,
    hword hl.pass]
  by_cases hpass : 15 ≤ l.pass.length
  · simp [hpass]
  by_cases hstart : 20 ≤ l.start.length
  · simp [hpass, hblank, hword hl.start, hstart]
  by_cases hlong : 20 ≤ l.end_.length
  · simp [hpass, hblank, hword hl.start, hstart, hend, hlong]
  · simp only [hpass, hblank, hword hl.start, hstart, hend, hlong, if_false]
    rw [if_pos ⟨not_le.mp hpass, not_le.mp hstart, not_le.mp hlong⟩]
    rfl

end Scan

/-! ### Calls behind a blank -/

section Steady

variable {α : Type} {s rest t : Bytes} {b : UInt8} {size : ℕ} {x : α} {f : Fields}

/-- A conversion passes over the blanks in front, and what it does with a text ends at a blank
behind it. -/
structure Steady (scan : Bytes → Except ScanError (α × Bytes)) : Prop where
  blank : ∀ s t, Blank s → scan (s ++ t) = scan t
  nil : scan [] = .error .mismatch
  word : ∀ s b t, ¬ Blank s → isspace b = true →
    scan (s ++ b :: t) = (scan s).map fun (x, rest) => (x, rest ++ b :: t)

theorem blank_append_singleton (hb : isspace b = true) : Blank (s ++ [b]) ↔ Blank s := by
  simp [Blank, or_imp, forall_and, hb]

/-- What is converted in front of a blank is converted in front of any text. -/
theorem Steady.ok {scan : Bytes → Except ScanError (α × Bytes)} (h : Steady scan)
    (hb : isspace b = true) (hscan : scan (s ++ [b]) = .ok (x, rest)) :
    ¬ Blank s ∧ ∃ rest', rest = rest' ++ [b] ∧
      ∀ t, scan (s ++ b :: t) = .ok (x, rest' ++ b :: t) := by
  have hblank : ¬ Blank s := by
    intro hblank
    have hnil := h.blank _ [] ((blank_append_singleton hb).mpr hblank)
    rw [List.append_nil, hscan, h.nil] at hnil
    cases hnil
  refine ⟨hblank, ?_⟩
  rw [h.word s b [] hblank hb] at hscan
  cases hs : scan s with
  | error err =>
    rw [hs] at hscan
    cases hscan
  | ok r =>
    rw [hs] at hscan
    obtain ⟨rfl, rfl⟩ := Prod.mk.inj (Except.ok.inj hscan)
    refine ⟨r.2, rfl, fun t => ?_⟩
    rw [h.word s b t hblank hb, hs]
    rfl

theorem isdigit_of_isspace (hb : isspace b = true) : isdigit b = false := by
  by_contra hdigit
  have hspace := isspace_of_isdigit (Bool.not_eq_false _ ▸ hdigit)
  rw [hb] at hspace
  cases hspace

theorem steady_scanNumber : Steady scanNumber where
  blank s t h := by rw [scanNumber, scanNumber, scanInt_blank_append h]
  nil := rfl
  word s b t h hb := by
    rw [scanNumber, scanNumber, scanInt_append h (isdigit_of_isspace hb)]
    cases scanInt s with
    | none => rfl
    | some r => rfl

theorem steady_scanString (size : ℕ) : Steady (scanString size) where
  blank s t h := by
    unfold scanString
    rw [h.dropWhile_append]
  nil := rfl
  word s b t h hb := by
    have hstop : (!isspace b) = false := by simp [hb]
    have htake : (s.dropWhile isspace ++ b :: t).takeWhile (!isspace ·) =
        (s.dropWhile isspace).takeWhile (!isspace ·) := by
      rw [List.takeWhile_append]
      split
      · next hlen =>
        rw [List.takeWhile_cons_of_neg (by simp [hb]), List.append_nil]
        exact ((List.takeWhile_prefix _).eq_of_length hlen).symm
      · rfl
    have hdrop : (s.dropWhile isspace ++ b :: t).dropWhile (!isspace ·) =
        (s.dropWhile isspace).dropWhile (!isspace ·) ++ b :: t := by
      rw [List.dropWhile_append]
      split
      · next hnil =>
        rw [List.isEmpty_iff.mp hnil, List.dropWhile_cons_of_neg (by simp [hb])]
        rfl
      · rfl
    unfold scanString
    dsimp only
    rw [dropWhile_isspace_append h, htake, hdrop]
    split_ifs
    · rfl
    · rfl
    · rfl

/-- A call that is complete in front of a blank is so in front of any text. -/
theorem scanFields_append (hb : isspace b = true) (h : scanFields (s ++ [b]) = .ok (f, rest)) :
    ∃ rest', rest = rest' ++ [b] ∧ ∀ t, scanFields (s ++ b :: t) = .ok (f, rest' ++ b :: t) := by
  obtain ⟨⟨disabled, s₁⟩, hdisabled, h⟩ := bind_eq_ok h
  obtain ⟨-, r₁, rfl, hscan₁⟩ := steady_scanNumber.ok hb hdisabled
  obtain ⟨⟨codeval, s₂⟩, hcodeval, h⟩ := bind_eq_ok h
  obtain ⟨-, r₂, rfl, hscan₂⟩ := steady_scanNumber.ok hb hcodeval
  obtain ⟨⟨pass, s₃⟩, hpass, h⟩ := bind_eq_ok h
  obtain ⟨-, r₃, rfl, hscan₃⟩ := (steady_scanString 15).ok hb hpass
  obtain ⟨⟨start, s₄⟩, hstart, h⟩ := bind_eq_ok h
  obtain ⟨-, r₄, rfl, hscan₄⟩ := (steady_scanString 20).ok hb hstart
  obtain ⟨⟨end_, s₅⟩, hend, h⟩ := bind_eq_ok h
  obtain ⟨-, r₅, rfl, hscan₅⟩ := (steady_scanString 20).ok hb hend
  obtain ⟨rfl, rfl⟩ := Prod.mk.inj (Except.ok.inj h)
  refine ⟨r₅, rfl, fun t => ?_⟩
  simp only [scanFields, bind, Except.bind, hscan₁, hscan₂, hscan₃, hscan₄, hscan₅]
  rfl

/-- A text of at least `n` words. -/
def Words : ℕ → Bytes → Prop
  | 0, _ => True
  | n + 1, s => ¬ Blank s ∧ Words n ((s.dropWhile isspace).dropWhile (!isspace ·))

theorem Words.of_succ {n : ℕ} (h : Words (n + 1) s) : Words n s := by
  induction n generalizing s with
  | zero => trivial
  | succ n ih => exact ⟨h.1, ih h.2⟩

/-- Any text in front of a blank leaves the words behind it. -/
theorem Words.append {n : ℕ} (h : Words n t) (hb : isspace b = true) (s : Bytes) :
    Words n (s ++ b :: t) := by
  induction n generalizing s t with
  | zero => trivial
  | succ n ih =>
    refine ⟨fun hblank => h.1 fun c hc => hblank c (by simp [hc]), ?_⟩
    by_cases hs : Blank s
    · rw [hs.dropWhile_append, List.dropWhile_cons_of_pos hb]
      exact h.2
    · rw [dropWhile_isspace_append hs, List.dropWhile_append]
      split
      · rw [List.dropWhile_cons_of_neg (by simp [hb])]
        exact ih h.of_succ []
      · exact ih h.of_succ _

/-- `%s` takes the first of the words. -/
theorem Words.scanString {n : ℕ} (h : Words (n + 1) s) (size : ℕ) :
    scanString size s = .error .overrun ∨
      ∃ word rest, scanString size s = .ok (word, rest) ∧ Words n rest := by
  have hne : (s.dropWhile isspace).takeWhile (!isspace ·) ≠ [] := by
    have hnil : s.dropWhile isspace ≠ [] := fun hnil => h.1 (List.dropWhile_eq_nil_iff.mp hnil)
    obtain ⟨b, r, hskip⟩ := List.exists_cons_of_ne_nil hnil
    have hb : isspace b = false := by
      have hhead := List.head_dropWhile_not isspace hnil
      simpa [hskip] using hhead
    rw [hskip, List.takeWhile_cons_of_pos (by simp [hb])]
    exact List.cons_ne_nil _ _
  unfold Server.scanString
  dsimp only
  rw [if_neg hne]
  split_ifs
  · exact Or.inl rfl
  · exact Or.inr ⟨_, _, rfl, h.2⟩

end Steady

/-! ### Texts in front of a line -/

/-- What can stand in front of a line. -/
def LineStart (before : Bytes) : Prop := before = [] ∨ ∃ s, before = s ++ [newline]

/-- A word stands where `%d` looks for a number. -/
def noNumber (s : Bytes) : Bool :=
  match scanInt s with
  | none => ! decide (Blank s)
  | some (_, rest) => ! decide (Blank rest) && (scanInt rest).isNone

section Cut

variable {l : InLine} {input left s t : Bytes} {b : UInt8}

/-- Where a word stands for a number, a call of `fscanf` fails, whatever follows. -/
theorem scanFields_noNumber (h : noNumber left = true) (hstart : LineStart left) (t : Bytes) :
    scanFields (left ++ t) = .error .mismatch := by
  rcases hstart with rfl | ⟨r, rfl⟩
  · exact absurd h (by decide)
  have htext : r ++ [newline] ++ t = r ++ newline :: t := by simp
  have hb : isspace newline = true := by decide
  unfold noNumber at h
  rw [htext]
  cases hscan : scanInt (r ++ [newline]) with
  | none =>
    rw [hscan] at h
    have hr : ¬ Blank r := by
      rw [← blank_append_singleton hb]
      simpa using h
    have hnone : scanInt (r ++ newline :: t) = none := by
      rw [scanInt_append hr (by decide), Option.map_eq_none_iff] at hscan ⊢
      exact hscan
    simp [scanFields, scanNumber, hnone, bind, Except.bind]
  | some z =>
    obtain ⟨z, rest⟩ := z
    rw [hscan] at h
    have hnumber : scanNumber (r ++ [newline]) = .ok (z, rest) := by rw [scanNumber, hscan]
    obtain ⟨-, rest', rfl, happend⟩ := steady_scanNumber.ok hb hnumber
    have hrest : ¬ Blank rest' ∧ scanInt (rest' ++ [newline]) = none := by
      rw [← blank_append_singleton hb]
      simpa using h
    have hnone : scanInt (rest' ++ newline :: t) = none := by
      have hscan' := hrest.2
      rw [scanInt_append hrest.1 (by decide), Option.map_eq_none_iff] at hscan' ⊢
      exact hscan'
    have hcode : scanNumber (rest' ++ newline :: t) = .error .mismatch := by rw [scanNumber, hnone]
    simp [scanFields, happend, hcode, bind, Except.bind]

/-- The call overruns an array, or reads the number `c` as its code. -/
def TakesCode (input : Bytes) (c : ℤ) : Prop :=
  scanFields input = .error .overrun ∨
    ∃ f rest, scanFields input = .ok (f, rest) ∧ f.codeval = c

/-- With three words behind its numbers a call is complete. -/
theorem takesCode_of_words {s₁ s₂ : Bytes} {disabled c : ℤ}
    (hdisabled : scanNumber input = .ok (disabled, s₁)) (hcode : scanNumber s₁ = .ok (c, s₂))
    (hwords : Words 3 s₂) : TakesCode input c := by
  unfold TakesCode
  simp only [scanFields, hdisabled, hcode, bind, Except.bind]
  rcases hwords.scanString 15 with hpass | ⟨pass, s₃, hpass, hwords⟩
  · exact Or.inl (by simp only [hpass])
  rcases hwords.scanString 20 with hstart | ⟨start, s₄, hstart, hwords⟩
  · exact Or.inl (by simp only [hpass, hstart])
  rcases hwords.scanString 20 with hend | ⟨end_, s₅, hend, -⟩
  · exact Or.inl (by simp only [hpass, hstart, hend])
  · refine Or.inr ⟨⟨disabled, c, pass, start, end_⟩, s₅, ?_, rfl⟩
    simp only [hpass, hstart, hend]
    rfl

theorem Words.word {n : ℕ} {word : Bytes} (hword : IsWord word) (hb : isspace b = true)
    (h : Words n t) : Words (n + 1) (word ++ b :: t) := by
  refine ⟨fun hblank => ?_, ?_⟩
  · obtain ⟨c, hc⟩ := List.exists_mem_of_ne_nil word hword.1
    have hspace := hblank c (by simp [hc])
    rw [hword.2 c hc] at hspace
    cases hspace
  · rw [hword.dropWhile, List.dropWhile_append_of_pos fun c hc => by simp [hword.2 c hc],
      List.dropWhile_cons_of_neg (by simp [hb])]
    exact h.append hb []

theorem InLine.IsLine.words (hl : l.IsLine) : Words 3 l.text := by
  have hpass : Words 1 (l.pass ++ 32 :: (l.start ++ 32 :: (l.end_ ++ [newline]))) :=
    .word hl.pass (by decide) trivial
  exact .word hl.disabled.1 (by decide) (.word hl.code.1 (by decide) hpass)

/-- What a line leaves behind its first number. -/
theorem InLine.IsLine.scanNumber (hl : l.IsLine) :
    ∃ rest, scanNumber l.text = .ok (toInt32 (strtol l.disabled), rest) ∧ Words 3 rest := by
  have hb : isspace 32 = true := by decide
  have hstart : Words 1 (l.start ++ 32 :: (l.end_ ++ [newline])) := .word hl.start hb trivial
  have hwords := Words.word hl.code.1 hb (.word hl.pass hb hstart)
  refine ⟨_, ?_, hwords.append hb []⟩
  rw [Client.scanNumber, InLine.text, hl.disabled.scanInt_append (by decide)]
  rfl

/-- Behind a call that is begun, the number that it reads as its code is that of the text, or
the first number of the line. -/
theorem takesCode_cut (hstart : LineStart left) (hblank : ¬ Blank left)
    (hnumber : noNumber left = false) :
    (∃ c, ∀ l : InLine, l.IsLine → TakesCode (left ++ l.text) c) ∨
      ∀ l : InLine, l.IsLine → TakesCode (left ++ l.text) (toInt32 (strtol l.disabled)) := by
  rcases hstart with rfl | ⟨r, rfl⟩
  · exact absurd (fun b hb => by cases hb) hblank
  have hb : isspace newline = true := by decide
  have htext : ∀ t, r ++ [newline] ++ t = r ++ newline :: t := by simp
  unfold noNumber at hnumber
  cases hscan : scanInt (r ++ [newline]) with
  | none =>
    rw [hscan] at hnumber
    exact absurd (by simpa using hnumber) hblank
  | some z =>
    obtain ⟨z, rest⟩ := z
    rw [hscan] at hnumber
    have hfirst : scanNumber (r ++ [newline]) = .ok (z, rest) := by rw [scanNumber, hscan]
    obtain ⟨-, rest, rfl, happend⟩ := steady_scanNumber.ok hb hfirst
    by_cases hrest : Blank rest
    -- the line brings the code
    · refine Or.inr fun l hl => ?_
      obtain ⟨t, hdisabled, hwords⟩ := hl.scanNumber
      have hskip := steady_scanNumber.blank _ l.text ((blank_append_singleton hb).mpr hrest)
      have hcode : scanNumber (rest ++ newline :: l.text) =
          .ok (toInt32 (strtol l.disabled), t) := by
        rw [← hdisabled, ← hskip]
        simp
      rw [htext]
      exact takesCode_of_words (happend _) hcode hwords
    · cases hscan' : scanInt (rest ++ [newline]) with
      | none =>
        dsimp only at hnumber
        rw [hscan'] at hnumber
        exact absurd ((blank_append_singleton hb).mp (by simpa using hnumber)) hrest
      | some c =>
        obtain ⟨c, rest'⟩ := c
        have hsecond : scanNumber (rest ++ [newline]) = .ok (c, rest') := by
          rw [scanNumber, hscan']
        obtain ⟨-, rest', rfl, happend'⟩ := steady_scanNumber.ok hb hsecond
        refine Or.inl ⟨c, fun l hl => ?_⟩
        rw [htext]
        exact takesCode_of_words (happend _) (happend' _) (hl.words.append hb rest')

end Cut

end Esif.Server
