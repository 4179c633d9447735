import Mathlib.Data.List.OfFn
import Mathlib.Data.List.Forall2

/-!
# Rows of columns

A row is printed field by field with nothing between the fields. Two rows can be compared field
by field as long as corresponding fields are equally wide.

## Main definitions

* `Columns.row` — the fields in one row
* `Columns.SameColumn` — two values whose fields are equally wide, and tell their keys
* `Columns` — two lists of values that are so, one by one

## Main results

* `Columns.row_append_eq_iff` — two rows are the same exactly when the keys are
-/

namespace Esif.CS

variable {σ κ α : Type*}

/-- The fields in one row. -/
def Columns.row (fields : List (σ → List α)) (values : List σ) : List α :=
  (List.zipWith (fun f s => f s) fields values).flatten

/-- Two values of a column: their fields are equally wide, and the same exactly when their keys
are. -/
structure Columns.SameColumn (key : σ → κ) (f : σ → List α) (s t : σ) : Prop where
  width : (f s).length = (f t).length
  tells : f s = f t ↔ key s = key t

/-- The values of two rows, column by column. -/
inductive Columns (key : σ → κ) : List (σ → List α) → List σ → List σ → Prop
  | nil : Columns key [] [] []
  | cons {f s t fields ss ts} (h : Columns.SameColumn key f s t) (hs : Columns key fields ss ts) :
      Columns key (f :: fields) (s :: ss) (t :: ts)

namespace Columns

variable {key : σ → κ} {fields fields' : List (σ → List α)} {f : σ → List α}
  {ss ts ss' ts' : List σ}

theorem append (h : Columns key fields ss ts) (h' : Columns key fields' ss' ts') :
    Columns key (fields ++ fields') (ss ++ ss') (ts ++ ts') := by
  induction h with
  | nil => exact h'
  | cons hst _ ih => exact .cons hst ih

/-- Columns that are all alike. -/
theorem ofFn {n : ℕ} {s t : Fin n → σ} (h : ∀ i, SameColumn key f (s i) (t i)) :
    Columns key (List.replicate n f) (List.ofFn s) (List.ofFn t) := by
  induction n with
  | zero =>
    simp only [List.replicate_zero, List.ofFn_zero]
    exact .nil
  | succ n ih =>
    rw [List.replicate_succ, List.ofFn_succ, List.ofFn_succ]
    exact .cons (h 0) (ih fun i => h i.succ)

/-- Two rows with something behind them are the same exactly when all keys are and what is
behind them is. -/
theorem row_append_eq_iff (h : Columns key fields ss ts) (r r' : List α) :
    row fields ss ++ r = row fields ts ++ r' ↔ ss.map key = ts.map key ∧ r = r' := by
  induction h with
  | nil => simp [row]
  | @cons f s t fields ss ts hst _ ih =>
    have hrow : ∀ u us, row (f :: fields) (u :: us) = f u ++ row fields us := fun u us => rfl
    rw [hrow, hrow, List.append_assoc, List.append_assoc, List.map_cons, List.map_cons,
      List.cons.injEq, and_assoc, ← ih, ← hst.tells]
    constructor
    · intro heq
      exact List.append_inj heq hst.width
    · rintro ⟨hfield, hrest⟩
      rw [hfield, hrest]

end Columns

end Esif.CS
