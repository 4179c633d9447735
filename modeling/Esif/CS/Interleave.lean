import Mathlib.Data.List.Sublists
import Esif.CS.Machine

/-!
# Interleaved lists

A list of tagged elements is an interleaving of what its two sides hold. An
interleaving of short lists is one of a few, so a question about the order of a
few elements comes down to these.

## Main definitions

* `lefts`, `rights`, `untag` — the two sides of an interleaving, and both
  together
* `Before` — one element comes before another
* `interleavings` — all interleavings of two lists

## Main results

* `mem_interleavings` — an interleaving is one of those of its sides
* `before_filter_iff` — the order of two elements that a filter keeps
* `Machine.run_both_lefts`, `Machine.run_both_rights` — the sides of what an
  interleaved run emits
-/

namespace Esif.CS

variable {α β : Type*}

/-- The elements of the left side, in order. -/
def lefts (l : List (α ⊕ β)) : List α := l.filterMap Sum.getLeft?

/-- The elements of the right side, in order. -/
def rights (l : List (α ⊕ β)) : List β := l.filterMap Sum.getRight?

/-- An element, whichever side it is from. -/
def untag : α ⊕ α → α := Sum.elim id id

@[simp] theorem untag_inl (a : α) : untag (.inl a) = a := rfl

@[simp] theorem untag_inr (a : α) : untag (.inr a) = a := rfl

@[simp] theorem lefts_nil : lefts ([] : List (α ⊕ β)) = [] := rfl

@[simp] theorem rights_nil : rights ([] : List (α ⊕ β)) = [] := rfl

@[simp] theorem lefts_inl (a : α) (l : List (α ⊕ β)) : lefts (.inl a :: l) = a :: lefts l := rfl

@[simp] theorem lefts_inr (b : β) (l : List (α ⊕ β)) : lefts (.inr b :: l) = lefts l := rfl

@[simp] theorem rights_inl (a : α) (l : List (α ⊕ β)) : rights (.inl a :: l) = rights l := rfl

@[simp] theorem rights_inr (b : β) (l : List (α ⊕ β)) : rights (.inr b :: l) = b :: rights l := rfl

theorem lefts_append (l l' : List (α ⊕ β)) : lefts (l ++ l') = lefts l ++ lefts l' :=
  List.filterMap_append

theorem rights_append (l l' : List (α ⊕ β)) : rights (l ++ l') = rights l ++ rights l' :=
  List.filterMap_append

theorem lefts_map_inl (l : List α) : lefts (l.map (Sum.inl : α → α ⊕ β)) = l := by
  induction l <;> simp_all

theorem lefts_map_inr (l : List β) : lefts (l.map (Sum.inr : β → α ⊕ β)) = [] := by
  induction l <;> simp_all

theorem rights_map_inl (l : List α) : rights (l.map (Sum.inl : α → α ⊕ β)) = [] := by
  induction l <;> simp_all

theorem rights_map_inr (l : List β) : rights (l.map (Sum.inr : β → α ⊕ β)) = l := by
  induction l <;> simp_all

/-- Filtering both sides alike filters each. -/
theorem lefts_filter (p : α → Bool) (l : List (α ⊕ α)) :
    lefts (l.filter (p ∘ untag)) = (lefts l).filter p := by
  induction l with
  | nil => rfl
  | cons e l ih =>
    rcases e with a | a
    · by_cases hp : p a <;> simp [hp, ih]
    · by_cases hp : p a <;> simp [hp, ih]

theorem rights_filter (p : α → Bool) (l : List (α ⊕ α)) :
    rights (l.filter (p ∘ untag)) = (rights l).filter p := by
  induction l with
  | nil => rfl
  | cons e l ih =>
    rcases e with a | a
    · by_cases hp : p a <;> simp [hp, ih]
    · by_cases hp : p a <;> simp [hp, ih]

theorem map_untag_filter (p : α → Bool) (l : List (α ⊕ α)) :
    (l.filter (p ∘ untag)).map untag = (l.map untag).filter p := by
  rw [List.filter_map]

/-! ### Order -/

/-- `a` comes before `b`. -/
def Before (a b : α) (l : List α) : Prop := [a, b].Sublist l

instance [DecidableEq α] (a b : α) (l : List α) : Decidable (Before a b l) :=
  inferInstanceAs (Decidable ([a, b].Sublist l))

/-- The order of elements that a filter keeps is their order before it. -/
theorem before_filter_iff {p : α → Bool} {a b : α} (ha : p a = true) (hb : p b = true)
    (l : List α) : Before a b (l.filter p) ↔ Before a b l := by
  constructor
  · exact fun h => h.trans List.filter_sublist
  · intro h
    have hkept : [a, b].filter p = [a, b] := by simp [ha, hb]
    rw [Before, ← hkept]
    exact h.filter p

/-! ### All interleavings -/

/-- All interleavings of two lists. -/
def interleavings : List α → List β → List (List (α ⊕ β))
  | [], bs => [bs.map .inr]
  | a :: as, [] => [(a :: as).map .inl]
  | a :: as, b :: bs =>
    (interleavings as (b :: bs)).map (.inl a :: ·) ++ (interleavings (a :: as) bs).map (.inr b :: ·)

theorem interleavings_nil_right (as : List α) :
    interleavings as ([] : List β) = [as.map .inl] := by
  cases as <;> simp [interleavings]

/-- Every interleaving of two lists is in the list of all. -/
theorem mem_interleavings (l : List (α ⊕ β)) : l ∈ interleavings (lefts l) (rights l) := by
  induction l with
  | nil => simp [interleavings]
  | cons e l ih =>
    rcases e with a | b
    · rw [lefts_inl, rights_inl]
      cases hr : rights l with
      | nil =>
        rw [hr, interleavings_nil_right, List.mem_singleton] at ih
        rw [interleavings_nil_right, List.mem_singleton, List.map_cons, ← ih]
      | cons b bs =>
        rw [hr] at ih
        simp [interleavings, ih]
    · rw [lefts_inr, rights_inr]
      cases hl : lefts l with
      | nil =>
        rw [hl] at ih
        simp only [interleavings, List.mem_singleton] at ih
        simp only [interleavings, List.mem_singleton, List.map_cons, ← ih]
      | cons a as =>
        rw [hl] at ih
        simp [interleavings, ih]

/-! ### Runs of two machines -/

namespace Machine

variable {σ ι ο τ κ : Type*} (left : Machine σ ι ο) (right : Machine τ κ ο)

/-- What the left side of an interleaved run emits is what its own run emits. -/
theorem run_both_lefts (s : σ) (t : τ) (is : List (ι ⊕ κ)) :
    lefts ((both left right).run (s, t) is).2 = (left.run s (lefts is)).2 := by
  induction is generalizing s t with
  | nil => rfl
  | cons i is ih =>
    cases i with
    | inl i =>
      rw [run_cons_snd, lefts_append, ih]
      simp [both, lefts_map_inl]
    | inr k =>
      rw [run_cons_snd, lefts_append, ih]
      simp [both, lefts_map_inr]

/-- What the right side of an interleaved run emits is what its own run emits. -/
theorem run_both_rights (s : σ) (t : τ) (is : List (ι ⊕ κ)) :
    rights ((both left right).run (s, t) is).2 = (right.run t (rights is)).2 := by
  induction is generalizing s t with
  | nil => rfl
  | cons i is ih =>
    cases i with
    | inl i =>
      rw [run_cons_snd, rights_append, ih]
      simp [both, rights_map_inl]
    | inr k =>
      rw [run_cons_snd, rights_append, ih]
      simp [both, rights_map_inr]

end Machine

end Esif.CS
