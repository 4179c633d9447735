import Mathlib.Data.List.Basic

/-!
# Following a path

A path is a list of components, each of which stays in the directory reached so
far, climbs to its parent or descends to a named entry. Following a path is
lexical: there are no links, and the root is its own parent.

## Main definitions

* `Path.walk` — the entry a path leads to
* `Path.depth` — how far below its starting directory a path ends, when it
  never climbs above it

## Main results

* `Path.walk_of_depth` — a path that never climbs above its starting directory
  stays below it, at the depth it counts
-/

namespace Esif.CS.Path

variable {α : Type*}

/-- What one component of a path does to the directory reached so far. -/
inductive Move (α : Type*) where
  | stay
  | up
  | down (name : α)
  deriving DecidableEq, Repr

/-- The entry one component leads to. -/
def Move.apply (here : List α) : Move α → List α
  | stay => here
  | up => here.dropLast
  | down name => here ++ [name]

/-- The entry a path leads to from `here`. -/
def walk (here : List α) (ms : List (Move α)) : List α := ms.foldl Move.apply here

@[simp] theorem walk_nil (here : List α) : walk here [] = here := rfl

@[simp] theorem walk_cons (here : List α) (m : Move α) (ms : List (Move α)) :
    walk here (m :: ms) = walk (m.apply here) ms := rfl

/-- Following two paths in a row. -/
theorem walk_append (here : List α) (ms ns : List (Move α)) :
    walk here (ms ++ ns) = walk (walk here ms) ns := List.foldl_append

theorem walk_map_down (here : List α) (names : List α) :
    walk here (names.map Move.down) = here ++ names := by
  induction names generalizing here with
  | nil => simp
  | cons a names ih => simp [Move.apply, ih]

/-- The number of levels below its start a path ends at, counted from `d`; no
value when it climbs above its start on the way. -/
def depth : ℕ → List (Move α) → Option ℕ
  | d, [] => some d
  | d, .stay :: ms => depth d ms
  | 0, .up :: _ => none
  | d + 1, .up :: ms => depth d ms
  | d, .down _ :: ms => depth (d + 1) ms

/-- A path that never climbs above `base` ends below `base`, at the depth it
counts. -/
theorem walk_of_depth (base : List α) {ms : List (Move α)} :
    ∀ {rel : List α} {k : ℕ}, depth rel.length ms = some k →
      ∃ rel' : List α, rel'.length = k ∧ walk (base ++ rel) ms = base ++ rel' := by
  induction ms with
  | nil =>
    intro rel k h
    exact ⟨rel, by simpa [depth] using h, rfl⟩
  | cons m ms ih =>
    intro rel k h
    cases m with
    | stay => exact @ih rel _ (by simpa [depth] using h)
    | up =>
      rcases List.eq_nil_or_concat rel with rfl | ⟨front, a, rfl⟩
      · simp [depth] at h
      · have inner : depth front.length ms = some k := by simpa [depth] using h
        have back : (base ++ front.concat a).dropLast = base ++ front := by
          rw [List.concat_eq_append, ← List.append_assoc, List.dropLast_concat]
        rw [walk_cons, Move.apply, back]
        exact ih inner
    | down name =>
      have inner : depth (rel ++ [name]).length ms = some k := by simpa [depth] using h
      rw [walk_cons, Move.apply, List.append_assoc]
      exact ih inner

/-- A path one level deep names an entry of the directory it starts in. -/
theorem walk_of_depth_one (base : List α) {ms : List (Move α)} (h : depth 0 ms = some 1) :
    ∃ name : α, walk base ms = base ++ [name] := by
  obtain ⟨rel, hlen, hwalk⟩ := @walk_of_depth α base ms [] 1 h
  obtain ⟨name, rfl⟩ := List.length_eq_one_iff.mp hlen
  exact ⟨name, by simpa using hwalk⟩

end Esif.CS.Path
