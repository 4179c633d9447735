import Mathlib.Data.List.Basic

/-!
# Input-driven machines

A machine takes one input at a time; each input moves its state and emits a
finite list of outputs. Everything nondeterministic about an environment is an
input, so a property of every run is a property of every list of inputs.

## Main definitions

* `Machine.run` — final state and emitted outputs of a list of inputs
* `Machine.Meets` — every input of a run meets a condition on the state it is
  given in
* `Machine.along` — what the steps of a run show
* `Machine.guarded` — a machine that is lost at an input that does not fit
* `Machine.both` — two machines side by side, stepping in any order
* `Machine.call` — a machine run until it returns
* `Throughout` — outputs judged with those before them

## Main results

* `Machine.run_induction` — the invariant rule, over the state and the outputs
  emitted so far
* `Machine.meets_iff_forall` — a run meets a condition when each of its steps does
* `Machine.run_induction_some` — the invariant rule for a machine that can be lost
-/

namespace Esif.CS

/-- A machine over states `σ`, inputs `ι` and outputs `ο`. -/
abbrev Machine (σ ι ο : Type*) := σ → ι → σ × List ο

namespace Machine

variable {σ ι ο τ κ : Type*} (m : Machine σ ι ο)

/-- The state a list of inputs leads to, and the outputs emitted on the way. -/
def run (s : σ) : List ι → σ × List ο
  | [] => (s, [])
  | i :: is => ((run (m s i).1 is).1, (m s i).2 ++ (run (m s i).1 is).2)

@[simp] theorem run_nil (s : σ) : m.run s [] = (s, []) := rfl

@[simp] theorem run_cons_fst (s : σ) (i : ι) (is : List ι) :
    (m.run s (i :: is)).1 = (m.run (m s i).1 is).1 := rfl

@[simp] theorem run_cons_snd (s : σ) (i : ι) (is : List ι) :
    (m.run s (i :: is)).2 = (m s i).2 ++ (m.run (m s i).1 is).2 := rfl

/-- Runs compose: the second part starts where the first one ends. -/
theorem run_append (s : σ) (is js : List ι) :
    m.run s (is ++ js) =
      ((m.run (m.run s is).1 js).1, (m.run s is).2 ++ (m.run (m.run s is).1 js).2) := by
  induction is generalizing s with
  | nil => rfl
  | cons i is ih => simp [Prod.ext_iff, ih (m s i).1, List.append_assoc]

theorem run_append_snd (s : σ) (is js : List ι) :
    (m.run s (is ++ js)).2 = (m.run s is).2 ++ (m.run (m.run s is).1 js).2 := by
  rw [run_append]

/-- Every input of the run meets `ok` in the state it is given in. -/
def Meets (ok : σ → ι → Prop) (s : σ) : List ι → Prop
  | [] => True
  | i :: is => ok s i ∧ Meets ok (m s i).1 is

variable {m}

@[simp] theorem meets_nil {ok : σ → ι → Prop} {s : σ} : m.Meets ok s [] := trivial

@[simp] theorem meets_cons {ok : σ → ι → Prop} {s : σ} {i : ι} {is : List ι} :
    m.Meets ok s (i :: is) ↔ ok s i ∧ m.Meets ok (m s i).1 is := Iff.rfl

instance Meets.decidable {ok : σ → ι → Prop} [∀ s i, Decidable (ok s i)] :
    (s : σ) → (is : List ι) → Decidable (m.Meets ok s is)
  | _, [] => isTrue trivial
  | s, i :: is =>
    have : Decidable (m.Meets ok (m s i).1 is) := Meets.decidable (m s i).1 is
    inferInstanceAs (Decidable (ok s i ∧ m.Meets ok (m s i).1 is))

theorem meets_append {ok : σ → ι → Prop} {s : σ} {is js : List ι} :
    m.Meets ok s (is ++ js) ↔ m.Meets ok s is ∧ m.Meets ok (m.run s is).1 js := by
  induction is generalizing s with
  | nil => simp
  | cons i is ih => simp [ih, and_assoc]

/-- A run meets a condition when each of its steps does. -/
theorem meets_iff_forall {ok : σ → ι → Prop} {s : σ} {is : List ι} :
    m.Meets ok s is ↔ ∀ before i after, is = before ++ i :: after → ok (m.run s before).1 i := by
  constructor
  · rintro h before i after rfl
    exact (meets_append.mp h).2.1
  · intro h
    induction is generalizing s with
    | nil => trivial
    | cons i is ih =>
      exact ⟨h [] i is rfl, ih fun before j after hsplit =>
        h (i :: before) j after (by simp [hsplit])⟩

/-- A condition on the inputs alone. -/
theorem meets_of_forall {ok : ι → Prop} (s : σ) {is : List ι} (h : ∀ i ∈ is, ok i) :
    m.Meets (fun _ i => ok i) s is :=
  meets_iff_forall.mpr fun before i after hsplit => h i (by simp [hsplit])

theorem Meets.mono {ok ok' : σ → ι → Prop} {s : σ} {is : List ι} (h : m.Meets ok s is)
    (hok : ∀ s i, ok s i → ok' s i) : m.Meets ok' s is :=
  meets_iff_forall.mpr fun before i after hsplit =>
    hok _ _ (meets_iff_forall.mp h before i after hsplit)

theorem meets_true (s : σ) (is : List ι) : m.Meets (fun _ _ => True) s is := by
  induction is generalizing s with
  | nil => trivial
  | cons i is ih => exact ⟨trivial, ih _⟩

/-- **Invariant rule.** A property of the state and of the outputs so far that
every step meeting `ok` preserves holds after every run whose steps meet `ok`. -/
theorem run_induction {ok : σ → ι → Prop} {inv : σ → List ο → Prop}
    (step : ∀ s es i, ok s i → inv s es → inv (m s i).1 (es ++ (m s i).2))
    {s : σ} {es : List ο} (start : inv s es) {is : List ι} (meets : m.Meets ok s is) :
    inv (m.run s is).1 (es ++ (m.run s is).2) := by
  induction is generalizing s es with
  | nil => simpa using start
  | cons i is ih =>
    have next := ih (step s es i meets.1 start) meets.2
    simpa [List.append_assoc] using next

/-- What the steps of a run show to someone who looks at each state and its input. -/
def along {κ : Type*} (m : Machine σ ι ο) (look : σ → ι → List κ) (s : σ) : List ι → List κ
  | [] => []
  | i :: is => look s i ++ along m look (m s i).1 is

/-- The invariant rule, with what the steps have shown so far. -/
theorem run_induction_along {κ : Type*} {look : σ → ι → List κ} {ok : σ → ι → Prop}
    {inv : σ → List ο → List κ → Prop}
    (step : ∀ s es ks i, ok s i → inv s es ks → inv (m s i).1 (es ++ (m s i).2) (ks ++ look s i))
    {s : σ} {es : List ο} {ks : List κ} (start : inv s es ks) {is : List ι}
    (meets : m.Meets ok s is) :
    inv (m.run s is).1 (es ++ (m.run s is).2) (ks ++ m.along look s is) := by
  induction is generalizing s es ks with
  | nil => simpa [along] using start
  | cons i is ih =>
    have next := ih (step s es ks i meets.1 start) meets.2
    simpa [along, List.append_assoc] using next

/-- Two conditions that say the same of a step from a state of the invariant, which a step that
meets them keeps. -/
theorem meets_congr {ok ok' : σ → ι → Prop} {inv : σ → Prop}
    (same : ∀ s i, inv s → (ok s i ↔ ok' s i))
    (keep : ∀ s i, inv s → ok' s i → inv (m s i).1) {s : σ} (start : inv s) {is : List ι} :
    m.Meets ok s is ↔ m.Meets ok' s is := by
  induction is generalizing s with
  | nil => exact Iff.rfl
  | cons i is ih =>
    rw [meets_cons, meets_cons, same s i start]
    exact and_congr_right fun hok => ih (keep s i start hok)

/-! ### Machines that can be lost -/

section Guarded

/-- A machine with room for some inputs only. Behind an input that does not fit there is no
state to go on with. -/
def guarded (fits : ι → Prop) [DecidablePred fits] (m : Machine σ ι ο) : Machine (Option σ) ι ο
  | none, _ => (none, [])
  | some s, i => if fits i then (some (m s i).1, (m s i).2) else (none, [])

variable {fits : ι → Prop} [DecidablePred fits]

theorem guarded_some {i : ι} (h : fits i) (s : σ) :
    m.guarded fits (some s) i = (some (m s i).1, (m s i).2) := if_pos h

theorem guarded_of_not {i : ι} (h : ¬ fits i) (s : Option σ) :
    m.guarded fits s i = (none, []) := by
  cases s with
  | none => rfl
  | some s => exact if_neg h

end Guarded

/-- **Invariant rule for a machine that can be lost.** Inputs that keep it going, each with an
invariant, keep it going all together. -/
theorem run_induction_some {m : Machine (Option σ) ι ο} {ok : ι → Prop}
    {inv : σ → List ο → Prop}
    (step : ∀ s es i, ok i → inv s es →
      ∃ s', (m (some s) i).1 = some s' ∧ inv s' (es ++ (m (some s) i).2))
    {s : σ} {es : List ο} (start : inv s es) {is : List ι} (h : ∀ i ∈ is, ok i) :
    ∃ s', (m.run (some s) is).1 = some s' ∧ inv s' (es ++ (m.run (some s) is).2) := by
  refine @run_induction _ _ _ m (fun _ => ok) (fun s es => ∃ s', s = some s' ∧ inv s' es) ?_
    (some s) es ⟨s, rfl, start⟩ is (meets_of_forall _ h)
  rintro _ es i hok ⟨s, rfl, hinv⟩
  exact step s es i hok hinv

/-! ### Two machines side by side -/

section Both

variable (left : Machine σ ι ο) (right : Machine τ κ ο)

/-- Two machines that step in any order: an input names the side that moves. -/
def both : Machine (σ × τ) (ι ⊕ κ) (ο ⊕ ο)
  | (s, t), .inl i => (((left s i).1, t), (left s i).2.map Sum.inl)
  | (s, t), .inr k => ((s, (right t k).1), (right t k).2.map Sum.inr)

end Both

/-! ### Calls -/

/-- A call: the state it works on, and what it has returned. -/
structure Call (σ ρ : Type*) where
  state : σ
  ret : Option ρ

/-- A machine run as a call: `returns` says in which steps it returns, and what. Behind
its return it does nothing. -/
def call {ρ : Type*} (returns : σ → ι → Option ρ) (m : Machine σ ι ο) : Machine (Call σ ρ) ι ο :=
  fun c i =>
    match c.ret with
    | some _ => (c, [])
    | none => (⟨(m c.state i).1, returns c.state i⟩, (m c.state i).2)

end Machine

/-! ### Outputs with those before them -/

section Throughout

variable {ο : Type*} {P Q : List ο → ο → Prop} {e : ο} {es es' : List ο}

/-- Each output stands to those before it as `P` says. -/
def Throughout (P : List ο → ο → Prop) (es : List ο) : Prop :=
  ∀ before e after, es = before ++ e :: after → P before e

@[simp] theorem throughout_nil : Throughout P [] := by
  rintro before e after h
  simp at h

theorem throughout_cons :
    Throughout P (e :: es) ↔ P [] e ∧ Throughout (fun before => P (e :: before)) es := by
  constructor
  · intro h
    refine ⟨h [] e es rfl, ?_⟩
    rintro before e' after rfl
    exact h (e :: before) e' after rfl
  · rintro ⟨hhead, htail⟩ before e' after hsplit
    cases before with
    | nil =>
      obtain ⟨rfl, -⟩ := List.cons.inj hsplit
      exact hhead
    | cons e'' before =>
      obtain ⟨rfl, hrest⟩ := List.cons.inj hsplit
      exact htail before e' after hrest

theorem throughout_append :
    Throughout P (es ++ es') ↔
      Throughout P es ∧ Throughout (fun before => P (es ++ before)) es' := by
  induction es generalizing P with
  | nil => simp
  | cons e es ih =>
    rw [List.cons_append, throughout_cons, ih, throughout_cons, and_assoc]
    rfl

theorem throughout_of_forall (h : ∀ e ∈ es, ∀ before, P before e) : Throughout P es := by
  rintro before e after rfl
  exact h e (by simp) before

theorem Throughout.mono (h : Throughout P es) (hPQ : ∀ before e, P before e → Q before e) :
    Throughout Q es :=
  fun before e after hsplit => hPQ before e (h before e after hsplit)

end Throughout

end Esif.CS
