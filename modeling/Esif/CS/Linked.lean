import Mathlib.Order.Nat
import Esif.CS.Machine

/-!
# Two machines that talk to each other

Two machines joined by a link: what one emits is handed to the other at once,
and what the other makes of it is its own affair. Either side may move at any
time, so a property of every run is one of every order of moves.

A run comes to an end when a rank falls. A move of one side may not help in a
given state; a round that holds a move of each side does, and as many rounds as
the rank bring it down to nothing.

## Main definitions

* `Machine.linked` — two machines and their link
* `Rounds` — a list of inputs that holds a number of rounds
* `Machine.Advances` — what a step does to the rank

## Main results

* `Machine.rank_rounds` — enough rounds use the rank up
* `Machine.Advances.run` — the invariant and the rank over a run
-/

namespace Esif.CS

namespace Machine

variable {σ ι ο τ κ π : Type*}

/-- Two machines that step in any order; `toRight` and `toLeft` say what the other
side gets of a step, given the state the step leads to and its outputs. -/
def linked (left : Machine σ ι ο) (right : Machine τ κ π) (toRight : σ → List ο → τ → τ)
    (toLeft : τ → List π → σ → σ) : Machine (σ × τ) (ι ⊕ κ) (ο ⊕ π)
  | (s, t), .inl i =>
    let (s, os) := left s i
    ((s, toRight s os t), os.map Sum.inl)
  | (s, t), .inr k =>
    let (t, os) := right t k
    ((toLeft t os s, t), os.map Sum.inr)

end Machine

/-- The list holds `n` rounds, one behind the other, each with an input of each
kind. -/
def Rounds {ι : Type*} (kinds : List (ι → Prop)) : ℕ → List ι → Prop
  | 0, _ => True
  | n + 1, is => ∃ round rest, is = round ++ rest ∧ (∀ kind ∈ kinds, ∃ i ∈ round, kind i) ∧
      Rounds kinds n rest

theorem rounds_replicate {ι : Type*} {kinds : List (ι → Prop)} {round : List ι}
    (h : ∀ kind ∈ kinds, ∃ i ∈ round, kind i) (n : ℕ) :
    Rounds kinds n (List.replicate n round).flatten := by
  induction n with
  | zero => trivial
  | succ n ih => exact ⟨round, _, by rw [List.replicate_succ, List.flatten_cons], h, ih⟩

namespace Machine

variable {σ ι ο : Type*} {m : Machine σ ι ο} {inv : σ → Prop} {ok : σ → ι → Prop} {rank : σ → ℕ}
  {kinds : List (ι → Prop)} {helps : σ → ι → Prop}

/-- A rank that no step raises is not raised by a run. -/
theorem rank_run_le (step : ∀ s i, inv s → ok s i → inv (m s i).1 ∧ rank (m s i).1 ≤ rank s)
    {s : σ} {is : List ι} (start : inv s) (hok : m.Meets ok s is) :
    inv (m.run s is).1 ∧ rank (m.run s is).1 ≤ rank s := by
  induction is generalizing s with
  | nil => exact ⟨start, le_rfl⟩
  | cons i is ih =>
    obtain ⟨hinv, hle⟩ := step s i start hok.1
    obtain ⟨hinv', hle'⟩ := ih hinv hok.2
    exact ⟨hinv', hle'.trans hle⟩

/-- One step: the rank falls, or the step is none that helps and what helped goes on
to help. -/
def Advances (m : Machine σ ι ο) (inv : σ → Prop) (ok : σ → ι → Prop) (rank : σ → ℕ)
    (helps : σ → ι → Prop) : Prop :=
  ∀ s i, inv s → ok s i → inv (m s i).1 ∧ (rank (m s i).1 < rank s ∨
    rank (m s i).1 = rank s ∧ ¬ helps s i ∧ ∀ j, helps s j → helps (m s i).1 j)

theorem Advances.le (step : m.Advances inv ok rank helps) (s : σ) (i : ι) (hinv : inv s)
    (hok : ok s i) : inv (m s i).1 ∧ rank (m s i).1 ≤ rank s :=
  (step s i hinv hok).imp_right fun h => h.elim Nat.le_of_lt fun h => h.1.le

/-- An input that helps lowers the rank of a run it is in. -/
theorem rank_run_lt (step : m.Advances inv ok rank helps) {s : σ} {is : List ι} (start : inv s)
    (hok : m.Meets ok s is) (hhelps : ∃ i ∈ is, helps s i) : rank (m.run s is).1 < rank s := by
  induction is generalizing s with
  | nil => simp at hhelps
  | cons i is ih =>
    obtain ⟨hi, hrest⟩ := hok
    obtain ⟨hinv, hfall⟩ := step s i start hi
    by_cases hlt : rank (m s i).1 < rank s
    · exact (rank_run_le step.le hinv hrest).2.trans_lt hlt
    · obtain ⟨heq, hnot, hkeep⟩ := hfall.resolve_left hlt
      obtain ⟨j, hj, hhelp⟩ := hhelps
      rcases List.mem_cons.mp hj with rfl | hj
      · exact absurd hhelp hnot
      · exact (ih hinv hrest ⟨j, hj, hkeep j hhelp⟩).trans_eq heq

/-- **Enough rounds.** When every round holds an input that helps, each round
lowers the rank, and as many rounds as the rank use it up. -/
theorem rank_rounds (step : m.Advances inv ok rank helps)
    (available : ∀ s, inv s → 0 < rank s → ∃ kind ∈ kinds, ∀ i, kind i → helps s i)
    {s : σ} {n : ℕ} {is : List ι} (start : inv s) (hok : m.Meets ok s is)
    (hrounds : Rounds kinds n is) (hrank : rank s ≤ n) : rank (m.run s is).1 = 0 := by
  induction n generalizing s is with
  | zero =>
    have hle := (rank_run_le step.le start hok).2
    omega
  | succ n ih =>
    obtain ⟨round, rest, rfl, hround, hrest⟩ := hrounds
    obtain ⟨hokround, hokrest⟩ := meets_append.mp hok
    have hinv := (rank_run_le step.le start hokround).1
    rw [run_append]
    refine ih hinv hokrest hrest ?_
    -- while the rank is positive, one kind of input in the round lowers it
    by_cases hpos : 0 < rank s
    · obtain ⟨kind, hkind, hhelps⟩ := available s start hpos
      obtain ⟨i, hi, hki⟩ := hround kind hkind
      have hlt := rank_run_lt step start hokround ⟨i, hi, hhelps i hki⟩
      omega
    · have hle := (rank_run_le step.le start hokround).2
      omega

/-- A run keeps the invariant, and enough rounds of it use the rank up. -/
theorem Advances.run (step : m.Advances inv ok rank helps)
    (available : ∀ s, inv s → 0 < rank s → ∃ kind ∈ kinds, ∀ i, kind i → helps s i)
    {s : σ} {is : List ι} (start : inv s) (hok : m.Meets ok s is) :
    inv (m.run s is).1 ∧ ∀ n, rank s ≤ n → Rounds kinds n is → rank (m.run s is).1 = 0 :=
  ⟨(rank_run_le step.le start hok).1, fun _ hrank hrounds =>
    rank_rounds step available start hok hrounds hrank⟩

end Machine

end Esif.CS
