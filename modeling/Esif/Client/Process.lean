import Esif.Client.Steps

/-!
# One client process and its connections

The client makes one connection after another: it logs in, sends its forms and closes. The
count, the pointer and the array that `readline` reads through are static variables of the
process, so they outlive the connection; the reader of the server is made anew, and filled with
zeros, for every session.

## Main definitions

* `Job`, `Stage`, `process` — the client from its start, through any number of connections
* `Traced`, `traced` — the same, with the connection on which each unread byte was received
* `OwnBytes` — `readline` returns bytes of the connection it reads on only

## Main results

* `Wire.readline_takes` — `readline` returns the bytes in front
* `traced_erase` — the ghost variables change nothing
* `ownBytes_iff` — every run
-/

namespace Esif.Client

open Esif.CS Esif.Posix

/-- What the user has set up when the client connects, and what the stack holds. -/
structure Job where
  username : Bytes
  digest : Bytes
  opts : Options
  cancelled : Bool
  names : List Bytes
  disk : Bytes → Option Bytes
  buffer : Bytes
  sent : ℤ

/-- `apply_forms` behind the login. -/
def Job.start (j : Job) (wire : Wire) : Apply where
  place := .start
  wire := wire
  pos := 0
  cancelled := j.cancelled
  names := j.names
  disk := j.disk
  buffer := j.buffer
  sent := j.sent

/-- Where the process is: without a connection, with what `readline` has left in its static
variables; in its login; or sending forms. -/
inductive Stage where
  | idle (errno : Errno) (tsd : Rline)
  | login (j : Job) (a : Authenticate)
  | applying (j : Job) (a : Apply)

/-- A connection is made; bytes arrive on it, or its end; the client takes a step. -/
inductive Input where
  | connect (j : Job)
  | arrive (bs : Bytes) (closed : Bool)
  | turn (t : Turn)

/-- The client process; `magic` is what it greets every server with. -/
def process (magic : Bytes) : Machine Stage Input Bytes
  -- a new socket, and the old static variables
  | .idle errno tsd, .connect j =>
    (.login j ⟨.start, { conn := { inq := [], eof := false }, errno := errno, tsd := tsd }⟩, [])
  | .login j a, .arrive bs closed => (.login j { a with wire := a.wire.receive bs closed }, [])
  | .login j a, .turn t =>
    match a.place with
    | .returned ret =>
      if ret = 0 then (.applying j (j.start a.wire), [])
      -- `close(sockfd)`
      else (.idle a.wire.errno a.wire.tsd, [])
    | _ =>
      let (a, sent) := authenticate magic j.username j.digest a t
      (.login j a, sent)
  | .applying j a, .arrive bs closed => (.applying j (a.receive bs closed), [])
  | .applying j a, .turn t =>
    match a.place with
    | .closed => (.idle a.wire.errno a.wire.tsd, [])
    | _ =>
      let (a, sent) := applyForms j.opts a t
      (.applying j a, sent.map Sent.bytes)
  | s, _ => (s, [])

/-- The bytes that were received and that `readline` has not returned. -/
def Stage.pending : Stage → Bytes
  | .idle _ tsd => tsd.buf
  | .login _ a => a.wire.pending
  | .applying _ a => a.wire.pending

/-- The bytes of these that are in the static array. -/
def Stage.kept : Stage → Bytes
  | .idle _ tsd => tsd.buf
  | .login _ a => a.wire.tsd.buf
  | .applying _ a => a.wire.tsd.buf

def Stage.isIdle : Stage → Bool
  | .idle _ _ => true
  | _ => false

/-! ### What a step takes -/

/-- `readline` returns the bytes in front. -/
theorem Wire.readline_takes {w w' : Wire} {maxlen : ℕ} {reads : List Outcome} {ret : ℤ}
    {line : Bytes} (hmax : 2 ≤ maxlen) (h : w.readline maxlen reads = some (ret, line, w')) :
    line ++ w'.pending = w.pending := by
  obtain ⟨r, hr, heq⟩ := Option.map_eq_some_iff.mp h
  obtain ⟨-, rfl, rfl⟩ : r.ret = ret ∧ r.stored = line ∧ _ = w' := by simpa using heq
  have loop := readlineLoop_spec (maxlen - 1) rfl (by omega) hr
  obtain ⟨bs, hstored, hreads⟩ := loop.reads
  rw [List.nil_append] at hstored
  rw [hstored]
  exact hreads.stream

theorem Wire.pending_writen {w w' : Wire} {bs sent : Bytes} {writes : List Outcome} {full : Bool}
    (h : w.writen bs writes = some (full, sent, w')) : w'.pending = w.pending := by
  obtain ⟨r, -, heq⟩ := Option.map_eq_some_iff.mp h
  obtain ⟨-, -, rfl⟩ : _ = full ∧ r.sent = sent ∧ _ = w' := by simpa using heq
  rfl

/-- Some bytes in front are gone. -/
def Drained (w w' : Wire) : Prop := ∃ line, line ++ w'.pending = w.pending

theorem Drained.of_eq {w w' : Wire} (h : w'.pending = w.pending) : Drained w w' := ⟨[], h⟩

theorem Drained.trans_eq {w w' w'' : Wire} (h : Drained w w') (heq : w''.pending = w'.pending) :
    Drained w w'' := by
  obtain ⟨line, hline⟩ := h
  exact ⟨line, by rw [heq, hline]⟩

section Drain

variable {a a' : Authenticate} {b b' : Apply} {magic username digest : Bytes} {t : Turn}
  {opts : Options}

theorem Authenticate.pending_send {bs : Bytes} {writes : List Outcome} {next : AuthPlace}
    {sent : List Bytes} (h : a.send bs writes next = some (a', sent)) :
    a'.wire.pending = a.wire.pending := by
  obtain ⟨⟨full, got, wire⟩, hwrite, heq⟩ := Option.map_eq_some_iff.mp h
  obtain ⟨rfl, -⟩ := Prod.mk.inj heq
  exact Wire.pending_writen hwrite

theorem Authenticate.act_takes {sent : List Bytes}
    (h : a.act magic username digest t = some (a', sent)) : Drained a.wire a'.wire := by
  unfold Authenticate.act at h
  split at h
  · unfold sendMagic at h
    split_ifs at h
    · obtain ⟨rfl, -⟩ := Prod.mk.inj (Option.some.inj h)
      exact .of_eq rfl
    · exact .of_eq (pending_send h)
  · obtain ⟨⟨ret, line, wire⟩, hread, h⟩ := Option.bind_eq_some_iff.mp h
    have htakes : Drained a.wire wire := ⟨line, Wire.readline_takes (by decide) hread⟩
    dsimp only at h
    split_ifs at h
    · obtain ⟨rfl, -⟩ := Prod.mk.inj (Option.some.inj h)
      exact htakes
    · obtain ⟨rfl, -⟩ := Prod.mk.inj (Option.some.inj h)
      exact htakes
    · exact htakes.trans_eq (pending_send h)
  · obtain ⟨⟨ret, line, wire⟩, hread, h⟩ := Option.bind_eq_some_iff.mp h
    have htakes : Drained a.wire wire := ⟨line, Wire.readline_takes (by decide) hread⟩
    dsimp only at h
    split_ifs at h
    · obtain ⟨rfl, -⟩ := Prod.mk.inj (Option.some.inj h)
      exact htakes
    · obtain ⟨rfl, -⟩ := Prod.mk.inj (Option.some.inj h)
      exact htakes
    · obtain ⟨rfl, -⟩ := Prod.mk.inj (Option.some.inj h)
      exact htakes
    · exact htakes.trans_eq (pending_send h)
  · obtain ⟨⟨ret, line, wire⟩, hread, h⟩ := Option.bind_eq_some_iff.mp h
    have htakes : Drained a.wire wire := ⟨line, Wire.readline_takes (by decide) hread⟩
    dsimp only at h
    split_ifs at h
    all_goals
      obtain ⟨rfl, -⟩ := Prod.mk.inj (Option.some.inj h)
      exact htakes
  · cases h
  · cases h

theorem Apply.pending_send {bs : Bytes} {label : Bytes → Sent} {writes : List Outcome}
    {written failed : ApplyPlace} {sent : List Sent}
    (h : b.send bs label writes written failed = some (b', sent)) :
    b'.wire.pending = b.wire.pending := by
  obtain ⟨⟨full, got, wire⟩, hwrite, heq⟩ := Option.map_eq_some_iff.mp h
  obtain ⟨rfl, -⟩ := Prod.mk.inj heq
  exact Wire.pending_writen hwrite

theorem Apply.act_takes {sent : List Sent} (h : b.act opts t = some (b', sent)) :
    Drained b.wire b'.wire := by
  unfold Apply.act at h
  split at h
  · obtain ⟨rfl, -⟩ := Prod.mk.inj (Option.some.inj h)
    exact .of_eq rfl
  · rcases nextFile_cases h with ⟨-, -, hwire, -⟩ | ⟨name, names, content, flag, -, -, -, -, hsend⟩
    · exact .of_eq (by rw [hwire])
    · have hpending := pending_send hsend
      exact .of_eq hpending
  · have h := Option.some.inj h
    unfold openForm at h
    split_ifs at h
    · obtain ⟨rfl, -⟩ := Prod.mk.inj h
      exact .of_eq rfl
    · dsimp only at h
      split at h
      all_goals
        obtain ⟨rfl, -⟩ := Prod.mk.inj h
        exact .of_eq rfl
  · unfold sendLine at h
    split_ifs at h
    · exact .of_eq (pending_send h)
    · obtain ⟨-, rfl | ⟨-, rfl⟩⟩ := afterForm_cases (Option.some.inj h)
      · exact .of_eq rfl
      · exact .of_eq rfl
    · exact .of_eq (pending_send h)
  · obtain ⟨-, ret, line, wire, hread, disk, place, rfl, -⟩ := readFormReply_cases h
    exact ⟨line, Wire.readline_takes (by decide) hread⟩
  · unfold openPhoto at h
    split at h
    · obtain ⟨rfl, -⟩ := Prod.mk.inj (Option.some.inj h)
      exact .of_eq rfl
    · split at h
      · obtain ⟨rfl, -⟩ := Prod.mk.inj (Option.some.inj h)
        exact .of_eq rfl
      · exact .of_eq (pending_send h)
  · obtain ⟨⟨ret, line, wire⟩, hread, h⟩ := Option.bind_eq_some_iff.mp h
    dsimp only at h
    split_ifs at h
    all_goals
      obtain ⟨rfl, -⟩ := Prod.mk.inj (Option.some.inj h)
      exact ⟨line, Wire.readline_takes (by decide) hread⟩
  · unfold sendBlock at h
    split_ifs at h
    · obtain ⟨rfl, -⟩ := Prod.mk.inj (Option.some.inj h)
      exact .of_eq rfl
    · split at h
      · cases h
      all_goals
        obtain ⟨rfl, -⟩ := Prod.mk.inj (Option.some.inj h)
        exact .of_eq rfl
  · obtain ⟨⟨ret, line, wire⟩, hread, heq⟩ := Option.map_eq_some_iff.mp h
    obtain ⟨rfl, -⟩ := Prod.mk.inj heq
    exact ⟨line, Wire.readline_takes (by decide) hread⟩
  · exact .of_eq (pending_send h)
  · cases h
  · cases h

end Drain

/-- A step on a connection, but for its last, takes bytes in front of those that are unread. -/
theorem process_takes (magic : Bytes) (s : Stage) (t : Turn)
    (hopen : (process magic s (.turn t)).1.isIdle = false) :
    ∃ line, line ++ (process magic s (.turn t)).1.pending = s.pending := by
  cases s with
  | idle errno tsd => exact absurd hopen (by simp [process, Stage.isIdle])
  | login j a =>
    have hstep : ∃ line, line ++ (authenticate magic j.username j.digest a t).1.wire.pending =
        a.wire.pending := by
      unfold authenticate
      cases hact : a.act magic j.username j.digest t with
      | none => exact ⟨[], rfl⟩
      | some r => exact Authenticate.act_takes hact
    unfold process at hopen ⊢
    dsimp only at hopen ⊢
    split
    · split_ifs
      · exact ⟨[], rfl⟩
      · next hplace hret =>
        rw [hplace] at hopen
        simp [hret, Stage.isIdle] at hopen
    · exact hstep
  | applying j a =>
    have hstep : ∃ line, line ++ (applyForms j.opts a t).1.wire.pending = a.wire.pending := by
      unfold applyForms
      cases hact : a.act j.opts t with
      | none => exact ⟨[], rfl⟩
      | some r => exact Apply.act_takes hact
    unfold process at hopen ⊢
    dsimp only at hopen ⊢
    split
    · next hplace =>
      rw [hplace] at hopen
      simp [Stage.isIdle] at hopen
    · exact hstep

/-- A step that closes the connection keeps the static array, and drops the rest. -/
theorem process_closes (magic : Bytes) (s : Stage) (t : Turn)
    (hidle : (process magic s (.turn t)).1.isIdle = true) :
    (process magic s (.turn t)).1.pending <+: s.pending := by
  cases s with
  | idle errno tsd => exact List.prefix_rfl
  | login j a =>
    unfold process at hidle ⊢
    dsimp only at hidle ⊢
    split
    · split_ifs
      · next hplace hret =>
        rw [hplace] at hidle
        simp [hret, Stage.isIdle] at hidle
      · exact List.prefix_append _ _
    · next hplace =>
      exfalso
      revert hidle
      split
      · next ret hret => exact absurd hret (hplace ret)
      · simp [Stage.isIdle]
  | applying j a =>
    unfold process at hidle ⊢
    dsimp only at hidle ⊢
    split
    · exact List.prefix_append _ _
    · next hplace =>
      exfalso
      revert hidle
      split
      · next hclosed => exact absurd hclosed hplace
      · simp [Stage.isIdle]

/-! ### Where the bytes come from -/

/-- The process with ghost variables: how many connections it has made, on which of them each
of the unread bytes was received, and whether the static array held bytes when the last one was
made. -/
structure Traced where
  stage : Stage
  number : ℕ
  origins : List ℕ
  dirty : Bool

/-- The process at its start: static variables are zero. -/
def Traced.start : Traced := ⟨.idle .ok {}, 0, [], false⟩

/-- The bytes that `readline` took in a step on connection `number`, and on which connection
each of them was received. -/
structure Took where
  number : ℕ
  bytes : Bytes
  origins : List ℕ

/-- The process, and the bytes that its calls of `readline` take. -/
def traced (magic : Bytes) : Machine Traced Input Took := fun s i =>
  let stage := (process magic s.stage i).1
  match i with
  | .connect _ =>
    if s.stage.isIdle then
      ({ s with stage := stage, number := s.number + 1, dirty := !s.stage.pending.isEmpty }, [])
    else ({ s with stage := stage }, [])
  | .arrive bs _ =>
    if s.stage.isIdle then ({ s with stage := stage }, [])
    else
      ({ s with stage := stage, origins := s.origins ++ List.replicate bs.length s.number }, [])
  | .turn _ =>
    -- what the socket still held is gone
    if stage.isIdle then
      ({ s with stage := stage, origins := s.origins.take stage.pending.length }, [])
    else
      let n := s.stage.pending.length - stage.pending.length
      ({ s with stage := stage, origins := s.origins.drop n },
        [⟨s.number, s.stage.pending.take n, s.origins.take n⟩])

/-- Without the ghost variables it is the process. -/
theorem traced_stage (magic : Bytes) (s : Traced) (i : Input) :
    (traced magic s i).1.stage = (process magic s.stage i).1 := by
  unfold traced
  cases i with
  | connect j => dsimp only; split <;> rfl
  | arrive bs closed => dsimp only; split <;> rfl
  | turn t => dsimp only; split <;> rfl

theorem traced_erase (magic : Bytes) (s : Traced) (is : List Input) :
    ((traced magic).run s is).1.stage = ((process magic).run s.stage is).1 := by
  induction is generalizing s with
  | nil => rfl
  | cons i is ih => rw [Machine.run_cons_fst, Machine.run_cons_fst, ih, traced_stage]

/-- Every byte that `readline` takes in the step was received on the connection it reads on. -/
def OwnBytes (magic : Bytes) (s : Traced) (i : Input) : Prop :=
  ∀ took ∈ (traced magic s i).2, ∀ origin ∈ took.origins, origin = took.number

instance (magic : Bytes) (s : Traced) (i : Input) : Decidable (OwnBytes magic s i) :=
  inferInstanceAs (Decidable (∀ took ∈ (traced magic s i).2, ∀ origin ∈ took.origins, _))

/-- Nothing is read on a connection that was made while the static array held bytes. -/
def Unmixed (magic : Bytes) (s : Traced) (i : Input) : Prop :=
  s.dirty = true → ∀ took ∈ (traced magic s i).2, took.bytes = []

/-- What is known of the origins of the unread bytes: no connection is still to come; on a
connection that was made with an empty array they are its own; on another one the first is
not, as long as nothing was read. -/
structure Origins (s : Traced) : Prop where
  length : s.origins.length = s.stage.pending.length
  le : ∀ origin ∈ s.origins, origin ≤ s.number
  own : s.stage.isIdle = false → s.dirty = false → ∀ origin ∈ s.origins, origin = s.number
  old : s.stage.isIdle = false → s.dirty = true →
    ∃ origin rest, s.origins = origin :: rest ∧ origin ≠ s.number

theorem origins_start : Origins Traced.start :=
  ⟨rfl, by simp [Traced.start], by simp [Traced.start], by simp [Traced.start, Stage.isIdle]⟩

theorem process_idle {magic : Bytes} {s : Stage} {t : Turn} (h : s.isIdle = true) :
    (process magic s (.turn t)).1.isIdle = true := by
  cases s with
  | idle errno tsd => rfl
  | login j a => simp [Stage.isIdle] at h
  | applying j a => simp [Stage.isIdle] at h

/-- Bytes arrive on a connection behind those that are unread. -/
theorem process_arrive (magic : Bytes) {s : Stage} (h : s.isIdle = false) (bs : Bytes)
    (closed : Bool) :
    (process magic s (.arrive bs closed)).1.pending = s.pending ++ bs := by
  cases s with
  | idle errno tsd => simp [Stage.isIdle] at h
  | login j a => exact Wire.pending_receive bs closed a.wire
  | applying j a => exact Wire.pending_receive bs closed a.wire

theorem process_connect_open (magic : Bytes) {s : Stage} (h : s.isIdle = false) (j : Job) :
    (process magic s (.connect j)).1 = s := by
  cases s with
  | idle errno tsd => simp [Stage.isIdle] at h
  | login j' a => rfl
  | applying j' a => rfl

/-- The static array goes over to the new connection. -/
theorem process_connect (magic : Bytes) {s : Stage} (h : s.isIdle = true) (j : Job) :
    (process magic s (.connect j)).1.pending = s.pending := by
  cases s with
  | idle errno tsd => exact List.append_nil _
  | login j' a => simp [Stage.isIdle] at h
  | applying j' a => simp [Stage.isIdle] at h

section Step

variable {magic : Bytes} {s : Traced}

/-- The bytes in front that a step on a connection takes. -/
theorem turn_takes {t : Turn}
    (hopen : (process magic s.stage (.turn t)).1.isIdle = false) :
    s.stage.isIdle = false ∧ ∃ line,
      line ++ (process magic s.stage (.turn t)).1.pending = s.stage.pending ∧
      (traced magic s (.turn t)).1.origins = s.origins.drop line.length ∧
      (traced magic s (.turn t)).2 = [⟨s.number, line, s.origins.take line.length⟩] := by
  have hidle : s.stage.isIdle = false := by
    by_contra hidle
    rw [process_idle (by simpa using hidle)] at hopen
    cases hopen
  obtain ⟨line, hline⟩ := process_takes magic s.stage t hopen
  have hn : s.stage.pending.length - (process magic s.stage (.turn t)).1.pending.length =
      line.length := by
    rw [← hline, List.length_append, Nat.add_sub_cancel]
  have htake : s.stage.pending.take line.length = line := by rw [← hline, List.take_left]
  refine ⟨hidle, line, hline, ?_, ?_⟩
  · simp only [traced, hopen, hn, Bool.false_eq_true, if_false]
  · simp only [traced, hopen, hn, htake, Bool.false_eq_true, if_false]

/-- One step: what is read is the connection's own exactly when nothing is read behind what an
earlier one has left. -/
theorem ownBytes_step (h : Origins s) (i : Input) : OwnBytes magic s i ↔ Unmixed magic s i := by
  cases i with
  | connect j =>
    have hnone : (traced magic s (.connect j)).2 = [] := by unfold traced; dsimp only; split <;> rfl
    simp [OwnBytes, Unmixed, hnone]
  | arrive bs closed =>
    have hnone : (traced magic s (.arrive bs closed)).2 = [] := by
      unfold traced; dsimp only; split <;> rfl
    simp [OwnBytes, Unmixed, hnone]
  | turn t =>
    cases hopen : (process magic s.stage (.turn t)).1.isIdle with
    | true =>
      have hnone : (traced magic s (.turn t)).2 = [] := by simp [traced, hopen]
      simp [OwnBytes, Unmixed, hnone]
    | false =>
      obtain ⟨hidle, line, hline, -, htook⟩ := turn_takes hopen
      simp only [OwnBytes, Unmixed, htook, List.forall_mem_singleton]
      cases hdirty : s.dirty with
      | false =>
        have hown := h.own hidle hdirty
        simp only [Bool.false_eq_true, false_implies, iff_true]
        exact fun origin hmem => hown origin (List.mem_of_mem_take hmem)
      | true =>
        obtain ⟨origin, rest, horigins, hne⟩ := h.old hidle hdirty
        simp only [true_implies]
        constructor
        · intro hall
          by_contra hnil
          obtain ⟨b, line, rfl⟩ := List.exists_cons_of_ne_nil hnil
          exact hne (hall origin (by simp [horigins]))
        · rintro rfl
          simp

/-- A connection is made: what the static array holds is not its own. -/
theorem origins_connect (h : Origins s) (j : Job) : Origins (traced magic s (.connect j)).1 := by
  cases hidle : s.stage.isIdle with
  | false =>
    have hs : (traced magic s (.connect j)).1 = s := by
      simp [traced, hidle, process_connect_open magic hidle j]
    rw [hs]
    exact h
  | true =>
    have hs : (traced magic s (.connect j)).1 =
        { s with
          stage := (process magic s.stage (.connect j)).1, number := s.number + 1
          dirty := !s.stage.pending.isEmpty } := by
      simp [traced, hidle]
    have hlen := h.length
    rw [hs]
    refine ⟨?_, fun origin hmem => Nat.le_succ_of_le (h.le origin hmem), fun _ hclean => ?_,
      fun _ hdirty => ?_⟩
    · rw [process_connect magic hidle j]
      exact hlen
    · have hnil : s.stage.pending = [] := by simpa using hclean
      rw [hnil, List.length_nil] at hlen
      simp [List.length_eq_zero_iff.mp hlen]
    · have hne : s.origins ≠ [] := by
        intro hnil
        rw [hnil, List.length_nil] at hlen
        simp [List.length_eq_zero_iff.mp hlen.symm] at hdirty
      obtain ⟨origin, rest, horigins⟩ := List.exists_cons_of_ne_nil hne
      have hle := h.le origin (by simp [horigins])
      exact ⟨origin, rest, horigins, by simp only; omega⟩

/-- Bytes arrive: they are the connection's own. -/
theorem origins_arrive (h : Origins s) (bs : Bytes) (closed : Bool) :
    Origins (traced magic s (.arrive bs closed)).1 := by
  cases hidle : s.stage.isIdle with
  | true =>
    have hstage : (process magic s.stage (.arrive bs closed)).1 = s.stage := by
      cases hstage : s.stage with
      | idle errno tsd => rfl
      | login j a => simp [hstage, Stage.isIdle] at hidle
      | applying j a => simp [hstage, Stage.isIdle] at hidle
    have hs : (traced magic s (.arrive bs closed)).1 = s := by simp [traced, hidle, hstage]
    rw [hs]
    exact h
  | false =>
    have hs : (traced magic s (.arrive bs closed)).1 =
        { s with
          stage := (process magic s.stage (.arrive bs closed)).1
          origins := s.origins ++ List.replicate bs.length s.number } := by
      simp [traced, hidle]
    rw [hs]
    refine ⟨?_, fun origin hmem => ?_, fun _ hclean origin hmem => ?_, fun _ hdirty => ?_⟩
    · rw [process_arrive magic hidle, List.length_append, List.length_append, h.length,
        List.length_replicate]
    · rcases List.mem_append.mp hmem with hmem | hmem
      · exact h.le origin hmem
      · exact (List.eq_of_mem_replicate hmem).le
    · rcases List.mem_append.mp hmem with hmem | hmem
      · exact h.own hidle hclean origin hmem
      · exact List.eq_of_mem_replicate hmem
    · obtain ⟨origin, rest, horigins, hne⟩ := h.old hidle hdirty
      exact ⟨origin, rest ++ _, by rw [horigins, List.cons_append], hne⟩

/-- The client takes a step, and reads nothing behind what an earlier connection has left. -/
theorem origins_turn (h : Origins s) (t : Turn) (hunmixed : Unmixed magic s (.turn t)) :
    Origins (traced magic s (.turn t)).1 := by
  have hstage := traced_stage magic s (.turn t)
  cases hopen : (process magic s.stage (.turn t)).1.isIdle with
  | true =>
    have hs : (traced magic s (.turn t)).1 =
        { s with
          stage := (process magic s.stage (.turn t)).1
          origins := s.origins.take (process magic s.stage (.turn t)).1.pending.length } := by
      simp [traced, hopen]
    have hlen := (process_closes magic s.stage t hopen).length_le
    rw [hs]
    refine ⟨?_, fun origin hmem => h.le origin (List.mem_of_mem_take hmem),
      fun hidle => ?_, fun hidle => ?_⟩
    · rw [List.length_take, h.length]
      exact Nat.min_eq_left hlen
    · exact absurd (hopen.symm.trans hidle) (by decide)
    · exact absurd (hopen.symm.trans hidle) (by decide)
  | false =>
    obtain ⟨hidle, line, hline, horigins, htook⟩ := @turn_takes magic s t hopen
    have hnumber : (traced magic s (.turn t)).1.number = s.number := by simp [traced, hopen]
    have hdirty : (traced magic s (.turn t)).1.dirty = s.dirty := by simp [traced, hopen]
    have hmem : ∀ origin ∈ (traced magic s (.turn t)).1.origins, origin ∈ s.origins := by
      rw [horigins]
      exact fun origin => List.mem_of_mem_drop
    refine ⟨?_, fun origin ho => ?_, fun _ hclean origin ho => ?_, fun _ hdirty' => ?_⟩
    · have hlen := congrArg List.length hline
      rw [List.length_append] at hlen
      rw [horigins, List.length_drop, hstage, h.length]
      omega
    · rw [hnumber]
      exact h.le origin (hmem origin ho)
    · rw [hnumber]
      exact h.own hidle (hdirty ▸ hclean) origin (hmem origin ho)
    · -- nothing was read, so the first byte is still there
      rw [hdirty] at hdirty'
      have hnil : line = [] := by simpa [htook] using hunmixed hdirty'
      rw [horigins, hnumber, hnil]
      exact h.old hidle hdirty'

theorem origins_step (h : Origins s) (i : Input) (hunmixed : Unmixed magic s i) :
    Origins (traced magic s i).1 := by
  cases i with
  | connect j => exact origins_connect h j
  | arrive bs closed => exact origins_arrive h bs closed
  | turn t => exact origins_turn h t hunmixed

end Step

/-- A connection is only made while the static array is empty. -/
def ConnectsEmpty (s : Traced) : Input → Prop
  | .connect _ => s.stage.isIdle = true → s.stage.pending = []
  | _ => True

instance (s : Traced) : (i : Input) → Decidable (ConnectsEmpty s i)
  | .connect _ => inferInstanceAs (Decidable (s.stage.isIdle = true → s.stage.pending = []))
  | .arrive _ _ => isTrue trivial
  | .turn _ => isTrue trivial

/-- When connections are only made so, no connection is dirty. -/
theorem clean_step {magic : Bytes} {s : Traced} (hclean : s.dirty = false) {i : Input}
    (hok : ConnectsEmpty s i) : (traced magic s i).1.dirty = false := by
  cases i with
  | connect j =>
    unfold traced
    dsimp only
    split
    · next hidle =>
      rw [hok hidle]
      rfl
    · exact hclean
  | arrive bs closed => unfold traced; dsimp only; split <;> exact hclean
  | turn t => unfold traced; dsimp only; split <;> exact hclean

/-- In every run of the process, over any connections and whatever is received on them, every
byte that `readline` takes was received on the connection it reads on, if and only if nothing is
read on a connection that was made while the static array held bytes. It is enough that every
connection is made while the array is empty. -/
theorem ownBytes_iff (magic : Bytes) (is : List Input) :
    ((traced magic).Meets (OwnBytes magic) .start is ↔
      (traced magic).Meets (Unmixed magic) .start is) ∧
    ((traced magic).Meets ConnectsEmpty .start is →
      (traced magic).Meets (OwnBytes magic) .start is) := by
  have hiff : (traced magic).Meets (OwnBytes magic) .start is ↔
      (traced magic).Meets (Unmixed magic) .start is :=
    @Machine.meets_congr _ _ _ _ _ _ Origins (fun s i h => ownBytes_step h i)
      (fun s i h hok => origins_step h i hok) _ origins_start _
  refine ⟨hiff, fun hempty => hiff.mpr ?_⟩
  rw [Machine.meets_iff_forall]
  rintro before i after rfl hdirty
  have hclean : ((traced magic).run .start before).1.dirty = false :=
    @Machine.run_induction _ _ _ _ _ (fun s _ => s.dirty = false)
      (fun s _ i hok hclean => clean_step hclean hok) _ [] rfl _ (Machine.meets_append.mp hempty).1
  rw [hclean] at hdirty
  cases hdirty

/-! ### Two connections -/

/-- A job with nothing to send. -/
def sampleJob : Job where
  username := ascii "0001"
  digest := []
  opts := ⟨[], true⟩
  cancelled := false
  names := []
  disk := fun _ => none
  buffer := []
  sent := 0

/-- Every call moves all it can. -/
def sampleStep : Input :=
  .turn { reads := List.replicate 3 (.upTo MAXLINE), writes := List.replicate 3 (.upTo MAXLINE) }

/-- The college code is refused, with one byte more than the reply; then the client connects
again. -/
def refusedTwice (first : Bytes) : List Input :=
  [.connect sampleJob, .arrive first false, sampleStep, sampleStep, sampleStep, sampleStep,
    .connect sampleJob, .arrive (ascii "500\n") false, sampleStep, sampleStep]

theorem ownBytes_sample :
    (traced (ascii "magic")).Meets (OwnBytes (ascii "magic")) .start
      (refusedTwice (ascii "500\n301\n")) :=
  (ownBytes_iff (ascii "magic") _).2 (by decide +kernel)

/-- The reply to the second greeting is five bytes long, and the first of them is an old one. -/
theorem ownBytes_fails_sample :
    ((traced (ascii "magic")).run .start (refusedTwice (ascii "500\n301\nX"))).2.getLast?.map
        (fun took => (took.number, took.bytes, took.origins)) =
      some (2, ascii "X500\n", [1, 2, 2, 2, 2]) ∧
    ¬ (traced (ascii "magic")).Meets (OwnBytes (ascii "magic")) .start
      (refusedTwice (ascii "500\n301\nX")) := by
  constructor
  · decide +kernel
  · decide +kernel

end Esif.Client
