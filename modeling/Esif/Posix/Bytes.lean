import Mathlib.Data.Nat.Digits.Defs
import Mathlib.Data.List.TakeWhile
import Esif.CS.Path

/-!
# Bytes and C strings

The C library functions the program applies to byte arrays, as functions on
byte lists: string comparison, the `sscanf` conversions, `strtol`, the `printf`
conversions and path components. A C string ends at its first NUL byte.
-/

namespace Esif.Posix

open Esif.CS.Path (Move)

/-- Byte arrays. -/
abbrev Bytes := List UInt8

/-- The bytes of a text literal. -/
def ascii (s : String) : Bytes := s.toList.map fun c => c.toNat.toUInt8

/-- The terminating NUL. -/
def nul : UInt8 := 0

/-- `'\n'` -/
def newline : UInt8 := 10

/-- `'\r'` -/
def carriageReturn : UInt8 := 13

/-- `'/'` -/
def slash : UInt8 := 47

def isspace (b : UInt8) : Bool := b == 32 || (9 ≤ b && b ≤ 13)

def isdigit (b : UInt8) : Bool := 48 ≤ b && b ≤ 57

/-- A text without NUL and line breaks. -/
def IsText (text : Bytes) : Prop := ∀ b ∈ text, b ≠ nul ∧ b ≠ newline ∧ b ≠ carriageReturn

instance (text : Bytes) : Decidable (IsText text) := List.decidableBAll _ text

theorem isText_append {text text' : Bytes} : IsText (text ++ text') ↔ IsText text ∧ IsText text' :=
  List.forall_mem_append

/-- The C string an array holds: the bytes before its first NUL. -/
def cstr (s : Bytes) : Bytes := s.takeWhile (· != nul)

theorem cstr_append_nul (s rest : Bytes) : cstr (s ++ nul :: rest) = cstr s := by
  induction s with
  | nil => simp [cstr, nul]
  | cons a s ih =>
    by_cases ha : a = nul
    · simp [cstr, ha]
    · simpa [cstr, ha] using ih

theorem cstr_eq_self {s : Bytes} (h : nul ∉ s) : cstr s = s :=
  List.takeWhile_eq_self_iff.mpr fun b hb => by simpa using fun heq : b = nul => h (heq ▸ hb)

/-- `!strncmp(s, lit, strlen(lit))` for a literal `lit`, which has no NUL. -/
def strncmp (s lit : Bytes) : Bool := lit.isPrefixOf s

/-- A literal without a certain byte cannot reach across it. -/
theorem isPrefixOf_append_cons {lit : Bytes} {b : UInt8} (hlit : b ∉ lit) (line rest : Bytes) :
    lit.isPrefixOf (line ++ b :: rest) = lit.isPrefixOf line := by
  induction lit generalizing line with
  | nil => simp
  | cons a lit ih =>
    obtain ⟨hne, hlit⟩ : b ≠ a ∧ b ∉ lit := by simpa using hlit
    cases line with
    | nil => simp [List.isPrefixOf, Ne.symm hne]
    | cons c line => simp [List.isPrefixOf, ih hlit]

/-! ### Reading numbers and words -/

/-- The value of the leading decimal digits, on top of `acc`. -/
def digitsVal (acc : ℕ) : Bytes → ℕ
  | [] => acc
  | b :: bs => if isdigit b then digitsVal (acc * 10 + (b.toNat - 48)) bs else acc

/-- `strtol(s, NULL, 10)` for values that fit a `long`. -/
def strtol (s : Bytes) : ℤ :=
  match s.dropWhile isspace with
  | 45 :: r => -(digitsVal 0 r : ℤ)
  | 43 :: r => digitsVal 0 r
  | r => digitsVal 0 r

/-- The low 32 bits of a `long`, as an `int`; a value outside `long` is
clamped first, as `strtol` does. -/
def toInt32 (z : ℤ) : ℤ :=
  let z := max (-(2 ^ 63)) (min z (2 ^ 63 - 1))
  (z + 2 ^ 31) % 2 ^ 32 - 2 ^ 31

/-- The `%d` conversion: the value and the input left, when there is a digit. -/
def scanInt (s : Bytes) : Option (ℤ × Bytes) :=
  match s.dropWhile isspace with
  | 45 :: r => if (r.takeWhile isdigit).isEmpty then none
      else some (toInt32 (-(digitsVal 0 r : ℤ)), r.dropWhile isdigit)
  | 43 :: r => if (r.takeWhile isdigit).isEmpty then none
      else some (toInt32 (digitsVal 0 r), r.dropWhile isdigit)
  | r => if (r.takeWhile isdigit).isEmpty then none
      else some (toInt32 (digitsVal 0 r), r.dropWhile isdigit)

/-- The `%s` conversion: leading blanks are skipped, then the word is taken. -/
def scanWord (s : Bytes) : Bytes := (s.dropWhile isspace).takeWhile (!isspace ·)

/-- The `%[^\r\n]` conversion. -/
def scanLine (s : Bytes) : Bytes := s.takeWhile fun b => b != carriageReturn && b != newline

/-! ### Printing numbers -/

/-- The character of a decimal digit. -/
def digit (d : ℕ) : UInt8 := UInt8.ofNat (48 + d)

/-- The decimal digits of a number. -/
def decimal (n : ℕ) : Bytes := if n = 0 then [48] else (Nat.digits 10 n).reverse.map digit

/-- The `%d` conversion. -/
def printInt (z : ℤ) : Bytes :=
  if z < 0 then 45 :: decimal z.natAbs else decimal z.natAbs

/-- The `%04d` conversion. -/
def printInt04 (z : ℤ) : Bytes :=
  if z < 0 then 45 :: (decimal z.natAbs).leftpad 3 48 else (decimal z.natAbs).leftpad 4 48

/-! ### Paths -/

/-- What one component of a path string does. -/
def component (s : Bytes) : Move Bytes :=
  if s = [] ∨ s = ascii "." then .stay else if s = ascii ".." then .up else .down s

/-- The components of a path string. -/
def components (s : Bytes) : List (Move Bytes) := (s.splitOn slash).map component

end Esif.Posix
