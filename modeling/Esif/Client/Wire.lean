import Esif.Posix.Calm

/-!
# The client's end of the connection

The client calls `readline` and `writen` on its one socket; `readline` keeps its
buffer in static variables.
-/

namespace Esif.Client

open Esif.CS Esif.Posix

/-- The client's end of the connection: `errno` and the buffer of `readline`
with it. -/
structure Wire where
  conn : Conn
  errno : Errno := .ok
  tsd : Rline := {}
  deriving DecidableEq, Repr

/-- What the environment does during one step of the client: the outcomes of its
socket calls, whether its file can be opened, whether the user cancels, and what
variables hold that were never set. -/
structure Turn where
  reads : List Outcome := []
  writes : List Outcome := []
  ok : Bool := true
  cancel : Bool := false
  garbage : Bytes := []
  deriving DecidableEq, Repr

/-- The connection holds during the step. -/
structure Turn.Calm (t : Turn) : Prop where
  reads : Posix.Calm t.reads
  writes : Posix.Calm t.writes

instance (t : Turn) : Decidable t.Calm :=
  decidable_of_iff (Posix.Calm t.reads ∧ Posix.Calm t.writes)
    ⟨fun h => ⟨h.1, h.2⟩, fun h => ⟨h.reads, h.writes⟩⟩

/-- The step may call until a whole line is moved. -/
structure Turn.Ample (t : Turn) : Prop where
  calm : t.Calm
  reads : MAXLINE ≤ moves t.reads
  writes : MAXLINE ≤ moves t.writes

namespace Wire

/-- `readline(sockfd, buffer, maxlen)`: what it returns and the line. -/
def readline (w : Wire) (maxlen : ℕ) (reads : List Outcome) : Option (ℤ × Bytes × Wire) :=
  (Posix.readline maxlen w.tsd ⟨w.conn, w.errno, reads, []⟩).map fun r =>
    (r.ret, r.stored, ⟨r.net.conn, r.net.errno, r.tsd⟩)

/-- `writen(sockfd, bs, n)` for an array of `n` bytes: whether all of it was
written, and what was. -/
def writen (w : Wire) (bs : Bytes) (writes : List Outcome) : Option (Bool × Bytes × Wire) :=
  (Posix.writen bs ⟨w.conn, w.errno, [], writes⟩).map fun r =>
    (decide (r.ret = (bs.length : ℤ)), r.sent, { w with errno := r.net.errno })

/-- Bytes arrive behind those that are waiting; `closed` is set when the server has
closed its end. -/
def receive (bs : Bytes) (closed : Bool) (w : Wire) : Wire :=
  { w with conn := { w.conn with inq := w.conn.inq ++ bs, eof := w.conn.eof || closed } }

/-- The bytes that have arrived and that no line has taken yet. -/
def pending (w : Wire) : Bytes := unread w.tsd w.conn

@[simp] theorem pending_receive (bs : Bytes) (closed : Bool) (w : Wire) :
    (w.receive bs closed).pending = w.pending ++ bs := by
  simp [pending, receive, unread]

@[simp] theorem receive_eof (bs : Bytes) (closed : Bool) (w : Wire) :
    (w.receive bs closed).conn.eof = (w.conn.eof || closed) := rfl

section Calm

variable {w w' : Wire} {reads writes : List Outcome} {maxlen : ℕ} {ret : ℤ}
  {bs line got rest : Bytes}

/-- `writen` writes all of its array. -/
theorem writen_calm {full : Bool} {sent : Bytes} (hcalm : Calm writes)
    (h : w.writen bs writes = some (full, sent, w')) :
    full = true ∧ sent = bs ∧ w'.conn = w.conn ∧ w'.tsd = w.tsd := by
  obtain ⟨r, hr, heq⟩ := Option.map_eq_some_iff.mp h
  obtain ⟨rfl, rfl, rfl⟩ : decide (r.ret = (bs.length : ℤ)) = full ∧ r.sent = sent ∧ _ = w' := by
    simpa using heq
  obtain ⟨hret, hsent, -⟩ := Posix.writen_calm hcalm hr
  exact ⟨by simpa using hret, hsent, rfl, rfl⟩

theorem writen_some (hcalm : Calm writes) (hmoves : bs.length ≤ moves writes) :
    ∃ r, w.writen bs writes = some r := by
  obtain ⟨r, hr⟩ := @Posix.writen_some bs ⟨w.conn, w.errno, [], writes⟩ hcalm hmoves
  exact ⟨_, by rw [writen, hr]; rfl⟩

/-- `readline` returns the line that has arrived. -/
theorem readline_calm (hcalm : Calm reads) (hw : w.pending = line ++ rest)
    (hwhole : Lines.Whole isNewline (maxlen - 1) line) (hne : line ≠ [])
    (h : w.readline maxlen reads = some (ret, got, w')) :
    ret = line.length + (if endsLine line then 0 else 1) ∧ got = line ∧ w'.pending = rest ∧
      w'.conn.eof = w.conn.eof := by
  obtain ⟨r, hr, heq⟩ := Option.map_eq_some_iff.mp h
  obtain ⟨rfl, rfl, rfl⟩ : r.ret = ret ∧ r.stored = got ∧ _ = w' := by simpa using heq
  obtain ⟨hret, hstored, hrest, hreads, -⟩ :=
    @Posix.readline_whole maxlen w.tsd ⟨w.conn, w.errno, reads, []⟩ r line rest hcalm hw hwhole
      hne hr
  exact ⟨hret, hstored, hrest, hreads.eof⟩

theorem readline_some {body : Bytes} (hcalm : Calm reads)
    (hw : w.pending = body ++ newline :: rest) (hlen : body.length + 1 < maxlen)
    (hmoves : body.length < moves reads) : ∃ r, w.readline maxlen reads = some r := by
  obtain ⟨r, hr⟩ := @Posix.readline_some maxlen w.tsd ⟨w.conn, w.errno, reads, []⟩ body rest hcalm
    hw (by omega) hmoves
  exact ⟨_, by rw [readline, hr]; rfl⟩

/-- Without a byte `readline` waits, as long as the server has not closed. -/
theorem readline_nil (hmax : 1 < maxlen) (hcalm : Calm reads) (hopen : w.conn.eof = false)
    (hw : w.pending = []) : w.readline maxlen reads = none := by
  have hnone := @Posix.readline_nil maxlen hmax w.tsd ⟨w.conn, w.errno, reads, []⟩ hcalm hopen hw
  rw [readline, hnone]
  rfl

end Calm

end Wire

end Esif.Client
