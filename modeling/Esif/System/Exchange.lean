import Esif.CS.Linked
import Esif.Client.Submit
import Esif.Server.Serve
import Esif.System.Login

/-!
# A call of the client at the server

A function of the client that the server answers, on a connection that holds: each
side takes its steps or waits, what one sends reaches the other at once, and the
stores of the server follow its calls. A transfer is told by its stages: what a step
of either side does to a stage, and what is left of the transfer then.

## Main definitions

* `exchange` — a call of the client and the server with its stores
* `Carries` — the stages of a call, step by step

## Main results

* `Carries.advances` — a call whose stages are carried advances
-/

namespace Esif.System

open Esif.CS Esif.Posix Esif.Server
open Esif.Client (Apply Options Sent applyForms)
open Esif.Client.Apply (Reply)

/-- The server with its stores. -/
def withStores (env : Env) (cwd : Place) : Machine (Session × World) Turn Event := fun p t =>
  let (s, es) := manageClient env p.1 t
  ((s, p.2.after cwd es), es)

/-- A call of the client at the server. -/
def exchange (returns : Apply → Client.Turn → Option ℤ) (opts : Options) (env : Env) (cwd : Place) :
    Machine (Machine.Call Apply ℤ × Session × World) (Client.Turn ⊕ Turn) (Sent ⊕ Event) :=
  Machine.linked (Machine.call returns (applyForms opts)) (withStores env cwd)
    (fun _ sent p => (Session.receive (sent.flatMap Sent.bytes) false p.1, p.2))
    (fun p es c => { c with state := c.state.receive (sentBytes es) p.1.closed })

/-- The two sides, and the stores of the server. -/
abbrev Exchange : Type := Machine.Call Apply ℤ × Session × World

/-- What the server writes reaches the client. -/
def Call.receive (bs : Bytes) (q : Machine.Call Apply ℤ) : Machine.Call Apply ℤ :=
  { q with state := q.state.receive bs false }

/-! ### What has arrived -/

section Arrived

variable {s m : Session} {bs : Bytes} {phase : Phase}

theorem holds_receive (h : s.Holds bs) (bs' : Bytes) :
    (Session.receive bs' false s).Holds (bs ++ bs') :=
  ⟨by simp [Session.receive, h.inq], by simp [Session.receive, h.eof], h.buf⟩

theorem at_receive (h : s.At phase bs) (bs' : Bytes) :
    (Session.receive bs' false s).At phase (bs ++ bs') :=
  ⟨h.phase, by rw [← h.unread]; simp [Session.receive, unread], by simp [Session.receive, h.eof]⟩

theorem at_of_holds (hphase : s.phase = phase) (h : s.Holds bs) : s.At phase bs :=
  ⟨hphase, by simp [unread, h.buf, h.inq], h.eof⟩

theorem holds_of_past (heof : s.conn.eof = false) (h : s.Past [] m) : m.Holds [] := by
  obtain ⟨hbuf, hinq⟩ := List.append_eq_nil_iff.mp h.unread
  exact ⟨hinq, h.eof.trans heof, hbuf⟩

theorem holds_wait (h : s.Holds bs) (t : Turn) : (s.wait t).Holds bs := ⟨h.inq, h.eof, h.buf⟩

theorem at_wait (h : s.At phase bs) (t : Turn) : (s.wait t).At phase bs :=
  ⟨h.phase, h.unread, h.eof⟩

theorem apply_receive_nil (a : Apply) : a.receive [] false = a := by
  simp [Apply.receive, Client.Wire.receive]

theorem reply_ebuf {code : ℕ} (hcode : code < 2 ^ 31) (hlen : (decimal code).length = 3) :
    Reply code (ebuf code) :=
  ⟨replyLine_ebuf hcode hlen, by simp [ebuf, hlen, Client.RBUFSIZE]⟩

theorem reply_success : Reply Client.SUCCESS (ebuf SUCCESS) :=
  @reply_ebuf SUCCESS (by decide) (by decide)

end Arrived

/-! ### Stages -/

/-- The stages of a call, step by step: time that passes changes nothing, a step of the
client takes the call on, and so does a step of the server, unless it is one that does
not help; a side that waits does not help either. -/
structure Carries (returns : Apply → Client.Turn → Option ℤ) (opts : Options) (env : Env)
    (cwd : Place) (stage : Exchange → Prop) (ok helps : Exchange → Client.Turn ⊕ Turn → Prop)
    (left : Exchange → ℕ) : Prop where
  serving : ∀ {x}, stage x → x.2.1.closed = false
  wait : ∀ {q s w} (t : Turn), stage (q, s, w) → stage (q, s.wait t, w) ∧
    left (q, s.wait t, w) = left (q, s, w) ∧ (∀ i, ok (q, s, w) i → ok (q, s.wait t, w) i) ∧
    ∀ i, helps (q, s, w) i → helps (q, s.wait t, w) i
  running : ∀ {x c}, helps x (.inl c) → x.1.ret = none
  client_waits : ∀ {a s w c}, stage (⟨a, none⟩, s, w) → ok (⟨a, none⟩, s, w) (.inl c) →
    a.act opts c = none → returns a c = none ∧ ¬ helps (⟨a, none⟩, s, w) (.inl c)
  client_acts : ∀ {a a' s w c sent}, stage (⟨a, none⟩, s, w) → ok (⟨a, none⟩, s, w) (.inl c) →
    a.act opts c = some (a', sent) →
    let x' : Exchange := (⟨a', returns a c⟩, Session.receive (sent.flatMap Sent.bytes) false s, w)
    stage x' ∧ left x' < left (⟨a, none⟩, s, w)
  server_waits : ∀ {q s w t}, stage (q, s, w) → ok (q, s, w) (.inr t) → act env s t = none →
    ¬ helps (q, s, w) (.inr t)
  server_acts : ∀ {q s s' w t es}, stage (q, s, w) → ok (q, s, w) (.inr t) →
    act env s t = some (s', es) →
    let x' : Exchange := (Call.receive (sentBytes es) q, s', w.after cwd es)
    stage x' ∧ s'.phase ≠ .done ∧ (left x' < left (q, s, w) ∨
      left x' = left (q, s, w) ∧ ¬ helps (q, s, w) (.inr t) ∧
        ∀ i, helps (q, s, w) i → helps x' i)

section Carries

variable {returns : Apply → Client.Turn → Option ℤ} {opts : Options} {env : Env} {cwd : Place}
  {stage : Exchange → Prop} {ok helps : Exchange → Client.Turn ⊕ Turn → Prop} {left : Exchange → ℕ}

/-- **A call whose stages are carried advances.** -/
theorem Carries.advances (h : Carries returns opts env cwd stage ok helps left) :
    (exchange returns opts env cwd).Advances stage ok left helps := by
  rintro ⟨⟨a, ret⟩, s, w⟩ i hstage hok
  cases i with
  | inl c =>
    cases ret with
    | some ret =>
      -- behind its return the client does nothing
      simp only [exchange, Machine.linked, Machine.call, List.flatMap_nil, session_receive_nil]
      exact ⟨hstage, .inr ⟨trivial, fun hhelps => by simpa using h.running hhelps, fun _ hj => hj⟩⟩
    | none =>
      simp only [exchange, Machine.linked, Machine.call, applyForms]
      cases hact : a.act opts c with
      | none =>
        obtain ⟨hreturns, hhelps⟩ := h.client_waits hstage hok hact
        simp only [Option.getD_none, List.flatMap_nil, session_receive_nil, hreturns]
        exact ⟨hstage, .inr ⟨trivial, hhelps, fun _ hj => hj⟩⟩
      | some r =>
        obtain ⟨a', sent⟩ := r
        obtain ⟨hstage', hlt⟩ := h.client_acts hstage hok hact
        exact ⟨hstage', .inl hlt⟩
  | inr t =>
    -- the time before the step passes first
    obtain ⟨hwait, hleft, hoks, hkeeps⟩ := h.wait t hstage
    simp only [exchange, Machine.linked, withStores, manageClient]
    cases hact : act env (s.wait t) t with
    | none =>
      have hopen : (s.wait t).closed = false := h.serving hwait
      simp only [Option.getD_none, hopen, World.after_nil, sentBytes, List.flatMap_nil,
        apply_receive_nil]
      exact ⟨hwait, .inr ⟨hleft, fun hhelps =>
        h.server_waits hwait (hoks _ hok) hact (hkeeps _ hhelps), hkeeps⟩⟩
    | some r =>
      obtain ⟨s', es⟩ := r
      obtain ⟨hstage', hdone, hfall⟩ := h.server_acts hwait (hoks _ hok) hact
      have hopen : s'.closed = false := closed_of_ne_done hdone
      simp only [Option.getD_some, hopen]
      refine ⟨hstage', hfall.imp (fun hlt => hlt.trans_eq hleft) ?_⟩
      rintro ⟨heq, hnot, hkeep⟩
      exact ⟨heq.trans hleft, fun hhelps => hnot (hkeeps _ hhelps),
        fun i hi => hkeep i (hkeeps i hi)⟩

end Carries

end Esif.System
