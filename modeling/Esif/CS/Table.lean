import Mathlib.Logic.Function.Basic
import Mathlib.Data.List.Basic

/-!
# Filling a table

A table is filled with entries one after the other, and an entry replaces the one that its key
has. What a key has in the end is its last entry. Two fillings with the same keys in the same
order can be compared from the front: an entry matters when no later one has its key.

## Main definitions

* `Table.insert`, `Table.fill` — one entry, and a list of them
* `Table.last` — the last entry of a key

## Main results

* `Table.fill_eq_last` — the last entry of a key wins
* `Table.last_congr_cons` — equal tables, from the front
-/

namespace Esif.CS.Table

variable {κ ν : Type*} [DecidableEq κ]

/-- An entry replaces the one that its key has. -/
def insert (table : κ → Option ν) (entry : κ × ν) : κ → Option ν :=
  Function.update table entry.1 (some entry.2)

/-- The entries one after the other. -/
def fill (table : κ → Option ν) (entries : List (κ × ν)) : κ → Option ν :=
  entries.foldl insert table

/-- The last entry of a key. -/
def last (entries : List (κ × ν)) (key : κ) : Option ν :=
  (entries.filter (·.1 = key)).getLast?.map Prod.snd

@[simp] theorem last_nil (key : κ) : last ([] : List (κ × ν)) key = none := rfl

theorem last_cons (entry : κ × ν) (entries : List (κ × ν)) (key : κ) :
    last (entry :: entries) key =
      (last entries key).or (if entry.1 = key then some entry.2 else none) := by
  unfold last
  by_cases hkey : entry.1 = key
  · rw [List.filter_cons_of_pos (by simpa using hkey), if_pos hkey, List.getLast?_cons]
    cases (entries.filter (·.1 = key)).getLast? with
    | none => rfl
    | some e => rfl
  · rw [List.filter_cons_of_neg (by simpa using hkey), if_neg hkey, Option.or_none]

/-- A key has an entry exactly when it is the key of one. -/
theorem last_eq_none_iff {entries : List (κ × ν)} {key : κ} :
    last entries key = none ↔ key ∉ entries.map Prod.fst := by
  induction entries with
  | nil => simp
  | cons entry entries ih =>
    rw [last_cons, Option.or_eq_none_iff, ih, List.map_cons, List.mem_cons, not_or, and_comm]
    by_cases hkey : entry.1 = key
    · simp [hkey]
    · simp [hkey, Ne.symm hkey]

/-- What a key has in the end is its last entry, or what it had. -/
theorem fill_eq_last (table : κ → Option ν) (entries : List (κ × ν)) (key : κ) :
    fill table entries key = (last entries key).or (table key) := by
  induction entries generalizing table with
  | nil => rfl
  | cons entry entries ih =>
    rw [last_cons, Option.or_assoc]
    refine (ih (insert table entry)).trans (congrArg _ ?_)
    by_cases hkey : entry.1 = key
    · subst hkey
      simp [insert]
    · simp [insert, hkey, Function.update_of_ne (Ne.symm hkey)]

/-- Over the same keys, two lists of entries that begin with one key agree exactly when the
rest does and the first values are equal, or replaced later. -/
theorem last_congr_cons {k : κ} {v v' : ν} {entries entries' : List (κ × ν)}
    (hkeys : entries.map Prod.fst = entries'.map Prod.fst) :
    (∀ key, last ((k, v) :: entries) key = last ((k, v') :: entries') key) ↔
      (v = v' ∨ k ∈ entries'.map Prod.fst) ∧ ∀ key, last entries key = last entries' key := by
  have hnone : ∀ key, last entries key = none ↔ last entries' key = none := fun key => by
    rw [last_eq_none_iff, last_eq_none_iff, hkeys]
  simp only [last_cons]
  constructor
  · intro h
    constructor
    · by_cases hmem : k ∈ entries'.map Prod.fst
      · exact Or.inr hmem
      · have hnone' := last_eq_none_iff.mpr hmem
        have hk := h k
        rw [(hnone k).mpr hnone', hnone'] at hk
        exact Or.inl (by simpa using hk)
    · intro key
      have hkey := h key
      cases hlast : last entries key with
      | none => rw [(hnone key).mp hlast]
      | some w =>
        have hsome : last entries' key ≠ none := fun hnil => by
          rw [(hnone key).mpr hnil] at hlast
          cases hlast
        obtain ⟨w', hw'⟩ := Option.ne_none_iff_exists'.mp hsome
        rw [hlast, hw'] at hkey
        rw [hw']
        simpa using hkey
  · rintro ⟨hfirst, hrest⟩ key
    rw [hrest key]
    rcases hfirst with rfl | hmem
    · rfl
    · by_cases hk : k = key
      · subst hk
        obtain ⟨w, hw⟩ := Option.ne_none_iff_exists'.mp fun hnil =>
          absurd hmem (last_eq_none_iff.mp hnil)
        rw [hw]
        rfl
      · rw [if_neg hk, if_neg hk]

end Esif.CS.Table
