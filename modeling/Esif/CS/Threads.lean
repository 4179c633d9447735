import Mathlib.Data.List.Basic
import Mathlib.Order.Nat
import Esif.CS.Machine

/-!
# Threads

A process starts threads one after the other and lets any of them take the next
step. The threads are numbered in the order they were started; a thread is never
taken away, one that has finished only does nothing. What all threads read of
the process is part of the input of the thread that steps.

## Main definitions

* `Machine.thread` — one thread takes a step
* `ofThread` — what one thread was given, or has emitted
* `Machine.Alone` — every thread is where a run of its own leads it

## Main results

* `Machine.Alone.start`, `Machine.Alone.step` — starting and stepping threads
  keep every thread to a run of its own
* `Machine.Alone.invariant` — an invariant of one machine holds of every thread
* `map_snd_filter_congr` — what the threads that matter have emitted
-/

namespace Esif.CS

variable {σ ι ο : Type*}

/-- What is that of thread `k`, in order. -/
def ofThread (k : ℕ) (es : List (ℕ × ο)) : List ο :=
  es.filterMap fun e => if e.1 = k then some e.2 else none

@[simp] theorem ofThread_nil (k : ℕ) : ofThread k ([] : List (ℕ × ο)) = [] := rfl

@[simp] theorem ofThread_append (k : ℕ) (es es' : List (ℕ × ο)) :
    ofThread k (es ++ es') = ofThread k es ++ ofThread k es' := List.filterMap_append

@[simp] theorem ofThread_map_self (k : ℕ) (es : List ο) :
    ofThread k (es.map (Prod.mk k)) = es := by
  simp [ofThread]

theorem ofThread_map_of_ne {j k : ℕ} (h : j ≠ k) (es : List ο) :
    ofThread k (es.map (Prod.mk j)) = [] := by
  simp [ofThread, h]

theorem mem_ofThread {k : ℕ} {e : ο} {es : List (ℕ × ο)} :
    e ∈ ofThread k es ↔ (k, e) ∈ es := by
  simp only [ofThread, List.mem_filterMap, Option.ite_none_right_eq_some, Option.some.injEq]
  constructor
  · rintro ⟨⟨j, e'⟩, hmem, rfl, rfl⟩
    exact hmem
  · exact fun hmem => ⟨(k, e), hmem, rfl, rfl⟩

/-- A filter on the threads is no loss where what is looked for comes from them. -/
theorem map_snd_filter_congr {p : ℕ × ο → Bool} {q : ο → Bool} {es : List (ℕ × ο)}
    (h : ∀ e ∈ es, q e.2 = true → p e = true) :
    (es.map Prod.snd).filter q = ((es.filter p).map Prod.snd).filter q := by
  rw [List.filter_map, List.filter_map, List.filter_filter]
  refine congrArg _ (List.filter_congr fun e he => ?_)
  by_cases hq : q e.2 = true
  · simp [hq, h e he hq]
  · simp [hq]

namespace Machine

variable (m : Machine σ ι ο)

/-- Thread `k` takes a step, if there is one. -/
def thread (k : ℕ) (i : ι) (ss : List σ) : List σ × List (ℕ × ο) :=
  match ss[k]? with
  | none => (ss, [])
  | some s => (ss.set k (m s i).1, (m s i).2.map (Prod.mk k))

/-- The input of thread `k`, if there is one. -/
def given (k : ℕ) (i : ι) (ss : List σ) : List (ℕ × ι) :=
  if k < ss.length then [(k, i)] else []

/-- Each thread is where a run of its own has led it, from a start that meets what `init` says of
the thread and over the inputs that were its own, with steps that meet what `ok` says of it; and
it has emitted what that run emits. -/
structure Alone (init : ℕ → σ → Prop) (ok : ℕ → σ → ι → Prop) (is : List (ℕ × ι)) (ss : List σ)
    (es : List (ℕ × ο)) : Prop where
  run : ∀ k s, ss[k]? = some s → ∃ start, init k start ∧ m.Meets (ok k) start (ofThread k is) ∧
    m.run start (ofThread k is) = (s, ofThread k es)
  quiet : ∀ k, ss.length ≤ k → ofThread k is = [] ∧ ofThread k es = []

variable {m} {init : ℕ → σ → Prop} {ok : ℕ → σ → ι → Prop} {is : List (ℕ × ι)} {ss : List σ}
  {es : List (ℕ × ο)}

theorem Alone.nil : m.Alone init ok [] [] [] :=
  ⟨fun k s h => by simp at h, fun _ _ => ⟨rfl, rfl⟩⟩

/-- A thread is started. -/
theorem Alone.start (h : m.Alone init ok is ss es) {s : σ} (hinit : init ss.length s) :
    m.Alone init ok is (ss ++ [s]) es := by
  refine ⟨fun k s' hs' => ?_, fun k hk => h.quiet k (by simp at hk; omega)⟩
  rcases lt_trichotomy k ss.length with hlt | rfl | hgt
  · rw [List.getElem?_append_left hlt] at hs'
    exact h.run k s' hs'
  · -- the new thread has emitted nothing yet
    rw [List.getElem?_concat_length] at hs'
    obtain rfl := Option.some.inj hs'
    obtain ⟨hnone, hnone'⟩ := h.quiet _ le_rfl
    exact ⟨s, hinit, by rw [hnone]; trivial, by rw [hnone, hnone', run_nil]⟩
  · rw [List.getElem?_eq_none (by simp; omega)] at hs'
    cases hs'

/-- A thread takes a step. -/
theorem Alone.step (h : m.Alone init ok is ss es) {k : ℕ} {i : ι}
    (hok : ∀ s, ss[k]? = some s → ok k s i) :
    m.Alone init ok (is ++ given k i ss) (m.thread k i ss).1 (es ++ (m.thread k i ss).2) := by
  unfold thread given
  cases hk : ss[k]? with
  | none =>
    have hge : ¬ k < ss.length := Nat.not_lt.mpr (List.getElem?_eq_none_iff.mp hk)
    simpa [hge] using h
  | some s =>
    have hlt : k < ss.length := (List.getElem?_eq_some_iff.mp hk).1
    rw [if_pos hlt]
    have hself : ofThread k [(k, i)] = [i] := ofThread_map_self k [i]
    have hother : ∀ {j}, k ≠ j → ofThread j [(k, i)] = [] := fun hne => ofThread_map_of_ne hne [i]
    refine ⟨fun j s' hs' => ?_, fun j hj => ?_⟩
    · by_cases hjk : k = j
      -- the thread itself: its run goes on by the step
      · subst hjk
        obtain ⟨start, hinit, hmeets, hrun⟩ := h.run k s hk
        rw [List.getElem?_set_self hlt] at hs'
        obtain rfl := Option.some.inj hs'
        rw [ofThread_append, hself]
        refine ⟨start, hinit, meets_append.mpr ⟨hmeets, ?_⟩, ?_⟩
        · rw [hrun]
          exact ⟨hok s hk, trivial⟩
        · rw [run_append, hrun]
          simp
      -- every other thread: nothing has happened to it
      · rw [List.getElem?_set_ne hjk] at hs'
        rw [ofThread_append, hother hjk, List.append_nil, ofThread_append, ofThread_map_of_ne hjk,
          List.append_nil]
        exact h.run j s' hs'
    · have hjk : k ≠ j := by rw [List.length_set] at hj; omega
      rw [ofThread_append, hother hjk, List.append_nil, ofThread_append, ofThread_map_of_ne hjk,
        List.append_nil]
      exact h.quiet j (by simpa using hj)

/-- **Threads keep the invariants of their machine.** What holds at every start and is kept by
every step holds of every thread and of what it has emitted. -/
theorem Alone.invariant (h : m.Alone init ok is ss es) {k : ℕ} {inv : σ → List ο → Prop}
    (hstart : ∀ s, init k s → inv s [])
    (hstep : ∀ s es i, ok k s i → inv s es → inv (m s i).1 (es ++ (m s i).2)) {s : σ}
    (hk : ss[k]? = some s) : inv s (ofThread k es) := by
  obtain ⟨start, hinit, hmeets, hrun⟩ := h.run k s hk
  have hinv := run_induction hstep (hstart start hinit) hmeets
  rwa [List.nil_append, hrun] at hinv

/-- An event is one of a thread that was started. -/
theorem Alone.exists_of_mem (h : m.Alone init ok is ss es) {k : ℕ} {e : ο} (he : (k, e) ∈ es) :
    ∃ s, ss[k]? = some s ∧ e ∈ ofThread k es := by
  have hmem := mem_ofThread.mpr he
  have hlt : k < ss.length := by
    by_contra hle
    simp [(h.quiet k (by omega)).2] at hmem
  exact ⟨ss[k], List.getElem?_eq_getElem hlt, hmem⟩

end Machine

end Esif.CS
