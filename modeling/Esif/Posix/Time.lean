import Esif.Posix.Bytes

/-!
# Broken-down times

`strptime` reads a time by a format and writes each part into a `struct tm` as soon as it has
read it. What it does not read it leaves, and so a text that does not match can leave some parts
of an earlier time and some of its own.

## Main definitions

* `Tm` — the fields of `struct tm` that `mktime` reads
* `strptime` — `strptime`, with the result whether the text matches

## Main results

* `strptime_get` — the parts that are read are those of the text
* `strptime_isdst` — daylight saving is left as it was
-/

namespace Esif.Posix

/-- The fields of `struct tm` that `mktime` reads. -/
@[ext] structure Tm where
  sec : ℤ
  min : ℤ
  hour : ℤ
  mday : ℤ
  mon : ℤ
  year : ℤ
  isdst : ℤ
  deriving DecidableEq, Repr

def Tm.zero : Tm := ⟨0, 0, 0, 0, 0, 0, 0⟩

/-- The conversions `%Y`, `%m`, `%d`, `%H`, `%M` and `%S`. -/
inductive Conversion where
  | year
  | mon
  | mday
  | hour
  | min
  | sec
  deriving DecidableEq, Repr

namespace Conversion

/-- The least and the greatest number, and the most digits. -/
def bounds : Conversion → ℕ × ℕ × ℕ
  | year => (0, 9999, 4)
  | mon => (1, 12, 2)
  | mday => (1, 31, 2)
  | hour => (0, 23, 2)
  | min => (0, 59, 2)
  | sec => (0, 61, 2)

/-- Years count from 1900 and months from 0. -/
def write (n : ℕ) (tm : Tm) : Conversion → Tm
  | year => { tm with year := n - 1900 }
  | mon => { tm with mon := n - 1 }
  | mday => { tm with mday := n }
  | hour => { tm with hour := n }
  | min => { tm with min := n }
  | sec => { tm with sec := n }

end Conversion

def Tm.get (tm : Tm) : Conversion → ℤ
  | .year => tm.year
  | .mon => tm.mon
  | .mday => tm.mday
  | .hour => tm.hour
  | .min => tm.min
  | .sec => tm.sec

/-- A conversion of a format, or a byte that has to be there. -/
inductive Directive where
  | convert (c : Conversion)
  | literal (b : UInt8)
  deriving DecidableEq, Repr

/-- At most `n` more digits, as long as the number can grow within its bound. -/
def numberLoop (high : ℕ) : ℕ → ℕ → Bytes → ℕ × Bytes
  | 0, val, s => (val, s)
  | _, val, [] => (val, [])
  | n + 1, val, b :: s =>
    if val * 10 ≤ high ∧ isdigit b = true then numberLoop high n (val * 10 + (b.toNat - 48)) s
    else (val, b :: s)

/-- The number of a conversion, and what is left. Blanks in front of it are skipped. -/
def getNumber (low high digits : ℕ) (s : Bytes) : Option (ℕ × Bytes) :=
  match s.dropWhile (· == 32) with
  | [] => none
  | b :: s =>
    if isdigit b = true then
      let (val, s) := numberLoop high (digits - 1) (b.toNat - 48) s
      if val < low ∨ high < val then none else some (val, s)
    else none

/-- `strptime(s, format, &tm)`: whether `s` matches, and the time. Text behind the match is
left. -/
def strptime : List Directive → Bytes → Tm → Bool × Tm
  | [], _, tm => (true, tm)
  | .literal _ :: _, [], tm => (false, tm)
  | .literal b :: format, c :: s, tm => if c = b then strptime format s tm else (false, tm)
  | .convert c :: format, s, tm =>
    match getNumber c.bounds.1 c.bounds.2.1 c.bounds.2.2 s with
    | none => (false, tm)
    -- the part is written before the rest is looked at
    | some (n, s) => strptime format s (c.write n tm)

section Fields

variable {tm tm' : Tm} {format : List Directive} {s : Bytes} {c : Conversion}

theorem get_write_self (c : Conversion) (n : ℕ) (tm tm' : Tm) :
    (c.write n tm).get c = (c.write n tm').get c := by
  cases c <;> rfl

theorem get_write_of_ne {k : Conversion} (h : c ≠ k) (n : ℕ) (tm : Tm) :
    (k.write n tm).get c = tm.get c := by
  cases k <;> cases c <;> first | rfl | exact absurd rfl h

@[simp] theorem write_isdst (c : Conversion) (n : ℕ) (tm : Tm) :
    (c.write n tm).isdst = tm.isdst := by
  cases c <;> rfl

/-- The conversions and daylight saving are the whole time. -/
theorem Tm.ext_get (h : ∀ c, tm.get c = tm'.get c) (hisdst : tm.isdst = tm'.isdst) : tm = tm' :=
  Tm.ext (h .sec) (h .min) (h .hour) (h .mday) (h .mon) (h .year) hisdst

theorem strptime_isdst (format : List Directive) (s : Bytes) (tm : Tm) :
    (strptime format s tm).2.isdst = tm.isdst := by
  induction format generalizing s tm with
  | nil => rfl
  | cons d format ih =>
    cases d with
    | literal b =>
      cases s with
      | nil => rfl
      | cons c s =>
        rw [strptime]
        split_ifs
        · exact ih s tm
        · rfl
    | convert c =>
      rw [strptime]
      cases getNumber c.bounds.1 c.bounds.2.1 c.bounds.2.2 s with
      | none => rfl
      | some r => exact (ih r.2 _).trans (write_isdst c r.1 tm)

/-- Two times agree after a match on the parts that the format converts, and on those on which
they agreed before. -/
theorem strptime_get (hmatch : (strptime format s tm).1 = true)
    (hc : Directive.convert c ∈ format ∨ tm.get c = tm'.get c) :
    (strptime format s tm).2.get c = (strptime format s tm').2.get c := by
  -- the induction is on the format, with the text and both times as they are by then
  induction format generalizing s tm tm' with
  | nil =>
    rcases hc with hmem | hget
    · cases hmem
    · exact hget
  | cons d format ih =>
    cases d with
    | literal b =>
      have hc' : Directive.convert c ∈ format ∨ tm.get c = tm'.get c := by simpa using hc
      cases s with
      | nil => cases hmatch
      | cons a s =>
        rw [strptime] at hmatch
        rw [strptime, strptime]
        split_ifs at hmatch ⊢
        exact ih hmatch hc'
    | convert k =>
      rw [strptime] at hmatch
      rw [strptime, strptime]
      cases hnumber : getNumber k.bounds.1 k.bounds.2.1 k.bounds.2.2 s with
      | none =>
        rw [hnumber] at hmatch
        cases hmatch
      | some r =>
        rw [hnumber] at hmatch
        refine ih hmatch ?_
        -- a part that is written now is the same in both times from here on
        by_cases hk : c = k
        · subst hk
          exact Or.inr (get_write_self c r.1 tm tm')
        · rw [get_write_of_ne hk, get_write_of_ne hk]
          simpa [hk] using hc

end Fields

end Esif.Posix
