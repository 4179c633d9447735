import Esif.CS.Lines
import Esif.Posix.Bytes

/-!
# Reading from and writing to a socket

The two system calls with every outcome they can have, and the four functions
of `support.c` over them. What a call returns is chosen by the environment: a
list of outcomes is consumed from the front, one for each call, so that a list
is one way the stream is cut and one way the calls fail. A function has no
result when the outcomes run out or when a `read` would block: the call is
still waiting.

The client's `my_read`, `readline`, `readn` and `writen` are the same code.
-/

namespace Esif.Posix

open Esif.CS

/-- `errno`, as far as the program tells its values apart. -/
inductive Errno where
  | ok
  | eintr
  | ewouldblock
  | other
  deriving DecidableEq, Repr

/-- The receiving end of a connection: the bytes the peer has sent and nobody
has read, and whether the peer has closed its side. `pos` counts the bytes read
so far; the program does not see it. -/
structure Conn where
  inq : Bytes
  eof : Bool
  pos : ℕ := 0
  deriving DecidableEq, Repr

/-- What one `read` or `write` does: move some bytes (at least one, when there
is one to move), or fail. -/
inductive Outcome where
  | upTo (k : ℕ)
  | fails (e : Errno)
  deriving DecidableEq, Repr

/-- The result of one `read`. -/
inductive ReadResult where
  | data (bs : Bytes)
  | error (e : Errno)
  deriving DecidableEq, Repr

/-- `read(fd, ptr, n)`; no result while there is nothing to return. -/
def Conn.read (c : Conn) (n : ℕ) : Outcome → Option (ReadResult × Conn)
  | .fails e => some (.error e, c)
  | .upTo k =>
    if n = 0 then some (.data [], c)
    else if c.inq = [] then if c.eof then some (.data [], c) else none
    else
      -- a call that returns has at least one byte
      let bs := c.inq.take (min n (max k 1))
      some (.data bs, { c with inq := c.inq.drop bs.length, pos := c.pos + bs.length })

/-- What a thread's socket calls see and leave behind. -/
structure Net where
  conn : Conn
  errno : Errno := .ok
  reads : List Outcome := []
  writes : List Outcome := []
  deriving DecidableEq, Repr

/-- What `readn` returns and what it stored. -/
structure Readn where
  ret : ℤ
  got : Bytes
  net : Net
  deriving DecidableEq, Repr

/-- The loop of `readn`, with `got` stored so far. -/
def readnLoop (n : ℕ) (got : Bytes) (conn : Conn) (errno : Errno) (writes : List Outcome) :
    List Outcome → Option Readn
  | [] => if n ≤ got.length then some ⟨n, got, ⟨conn, errno, [], writes⟩⟩ else none
  | o :: reads =>
    if n ≤ got.length then some ⟨n, got, ⟨conn, errno, o :: reads, writes⟩⟩
    else match conn.read (n - got.length) o with
      | none => none
      | some (.error .eintr, conn) => readnLoop n got conn .eintr writes reads
      -- `read` fails: what came before stays stored, and is not counted
      | some (.error e, conn) => some ⟨-1, got, ⟨conn, e, reads, writes⟩⟩
      -- the end of the stream: fewer than `n`
      | some (.data [], conn) => some ⟨got.length, got, ⟨conn, errno, reads, writes⟩⟩
      | some (.data bs, conn) => readnLoop n (got ++ bs) conn errno writes reads

/-- `readn(fd, vptr, n)` -/
def readn (n : ℕ) (net : Net) : Option Readn :=
  readnLoop n [] net.conn net.errno net.writes net.reads

/-- What `writen` returns and the bytes the socket accepted. -/
structure Writen where
  ret : ℤ
  sent : Bytes
  net : Net
  deriving DecidableEq, Repr

/-- The loop of `writen`, with `sent` accepted so far and `left` to go. -/
def writenLoop (n : ℕ) (sent left : Bytes) (conn : Conn) (errno : Errno)
    (reads : List Outcome) : List Outcome → Option Writen
  | [] => if left = [] then some ⟨n, sent, ⟨conn, errno, reads, []⟩⟩ else none
  | o :: writes =>
    if left = [] then some ⟨n, sent, ⟨conn, errno, reads, o :: writes⟩⟩
    else match o with
      -- `nwritten = 0`, call `write` again
      | .fails .eintr => writenLoop n sent left conn .eintr reads writes
      | .fails e => some ⟨-1, sent, ⟨conn, e, reads, writes⟩⟩
      | .upTo k =>
        writenLoop n (sent ++ left.take (max k 1)) (left.drop (max k 1)) conn errno reads writes

/-- `writen(fd, vptr, n)` for an array of `n` bytes. -/
def writen (bs : Bytes) (net : Net) : Option Writen :=
  writenLoop bs.length [] bs net.conn net.errno net.reads net.writes

/-- `MAXLINE` -/
def MAXLINE : ℕ := 120

/-- The buffer `readline` keeps between its calls: the bytes `rl_bufptr` points
at, `rl_cnt` of them. `pos` is the stream position of the first one; the
program does not see it. -/
structure Rline where
  buf : Bytes := []
  pos : ℕ := 0
  deriving DecidableEq, Repr

/-- What `my_read` returns: a byte, end of file or an error. -/
inductive MyRead where
  | byte (b : UInt8)
  | eof
  | error
  deriving DecidableEq, Repr

/-- `my_read` with an empty buffer: call `read` again after `EINTR`. -/
def refill (conn : Conn) (errno : Errno) (writes : List Outcome) :
    List Outcome → Option (MyRead × Rline × Net)
  | [] => none
  | o :: reads =>
    match conn.read MAXLINE o with
    | none => none
    | some (.error .eintr, conn) => refill conn .eintr writes reads
    | some (.error e, conn) => some (.error, {}, ⟨conn, e, reads, writes⟩)
    | some (.data [], conn) => some (.eof, {}, ⟨conn, errno, reads, writes⟩)
    -- the first byte is returned, the others stay in the buffer
    | some (.data (b :: bs), conn') =>
      some (.byte b, ⟨bs, conn.pos + 1⟩, ⟨conn', errno, reads, writes⟩)

/-- `my_read(tsd, fd, ptr)` -/
def myRead (tsd : Rline) (net : Net) : Option (MyRead × Rline × Net) :=
  match tsd.buf with
  | b :: bs => some (.byte b, ⟨bs, tsd.pos + 1⟩, net)
  | [] => refill net.conn net.errno net.writes net.reads

/-- What `readline` returns and the bytes it stored. The terminating NUL
follows them when `ret` is positive. -/
structure Readline where
  ret : ℤ
  stored : Bytes
  tsd : Rline
  net : Net
  deriving DecidableEq, Repr

/-- The loop of `readline`, with `stored` so far and room for `room` more
bytes before the NUL; the loop variable `n` is one more than the bytes
stored. -/
def readlineLoop (stored : Bytes) (tsd : Rline) (net : Net) : ℕ → Option Readline
  -- `n` has reached `maxlen`: it counts the NUL, which makes it one too many
  | 0 => some ⟨stored.length + 1, stored, tsd, net⟩
  | room + 1 =>
    match myRead tsd net with
    | none => none
    | some (.byte b, tsd, net) =>
      if b = newline then some ⟨stored.length + 1, stored ++ [b], tsd, net⟩
      else readlineLoop (stored ++ [b]) tsd net room
    | some (.eof, tsd, net) =>
      if stored = [] then some ⟨0, [], tsd, net⟩
      -- a last line without a newline is counted one too long as well
      else some ⟨stored.length + 1, stored, tsd, net⟩
    -- the bytes stored are lost
    | some (.error, tsd, net) => some ⟨-1, stored, tsd, net⟩

/-- `readline(fd, vptr, maxlen)` -/
def readline (maxlen : ℕ) (tsd : Rline) (net : Net) : Option Readline :=
  readlineLoop [] tsd net (maxlen - 1)

/-! ### What the calls do to the stream -/

/-- `c'` is `c` after `bs` were read from it. -/
structure Conn.Took (c : Conn) (bs : Bytes) (c' : Conn) : Prop where
  stream : bs ++ c'.inq = c.inq
  eof : c'.eof = c.eof
  pos : c'.pos = c.pos + bs.length

theorem Conn.Took.refl (c : Conn) : c.Took [] c := ⟨rfl, rfl, rfl⟩

theorem Conn.Took.eq_of_nil {c c' : Conn} (h : c.Took [] c') : c' = c := by
  obtain ⟨hstream, heof, hpos⟩ := h
  cases c
  cases c'
  simp_all

theorem Conn.Took.trans {c c' c'' : Conn} {as bs : Bytes} (h : c.Took as c')
    (h' : c'.Took bs c'') : c.Took (as ++ bs) c'' where
  stream := by rw [List.append_assoc, h'.stream, h.stream]
  eof := h'.eof.trans h.eof
  pos := by rw [h'.pos, h.pos, List.length_append, Nat.add_assoc]

theorem Conn.Took.total {c c' : Conn} {bs : Bytes} (h : c.Took bs c') :
    c'.pos + c'.inq.length = c.pos + c.inq.length := by
  rw [h.pos, ← h.stream, List.length_append, Nat.add_assoc]

theorem Conn.Took.suffix {c c' : Conn} {bs : Bytes} (h : c.Took bs c') : c'.inq <:+ c.inq :=
  ⟨bs, h.stream⟩

/-- A `read` that returns data takes it from the front of the stream; it returns
none only when none was asked for or at the end of the stream. -/
theorem Conn.read_data {c c' : Conn} {n : ℕ} {o : Outcome} {bs : Bytes}
    (h : c.read n o = some (.data bs, c')) :
    c.Took bs c' ∧ bs.length ≤ n ∧ (bs = [] → n = 0 ∨ c.inq = [] ∧ c.eof) := by
  cases o with
  | fails e => simp [Conn.read] at h
  | upTo k =>
    simp only [Conn.read] at h
    split_ifs at h with hn hq he
    · obtain ⟨⟨⟩, rfl⟩ := Option.some.inj h
      exact ⟨.refl c, by simp, fun _ => Or.inl hn⟩
    · obtain ⟨⟨⟩, rfl⟩ := Option.some.inj h
      exact ⟨.refl c, by simp, fun _ => Or.inr ⟨hq, he⟩⟩
    · obtain ⟨rfl, rfl⟩ : c.inq.take (min n (max k 1)) = bs ∧ _ = c' := by
        simpa only [Option.some.injEq, Prod.mk.injEq, ReadResult.data.injEq] using h
      have hlen : (c.inq.take (min n (max k 1))).length = min (min n (max k 1)) c.inq.length :=
        List.length_take
      refine ⟨⟨?_, rfl, rfl⟩, by omega, fun hnil => ?_⟩
      · rcases Nat.le_total (min n (max k 1)) c.inq.length with hle | hle
        · simp only [hlen, Nat.min_eq_left hle, List.take_append_drop]
        · simp only [List.take_of_length_le hle, List.drop_length, List.append_nil]
      · rcases List.take_eq_nil_iff.mp hnil with h0 | h0
        · omega
        · exact absurd h0 hq

/-- A `read` that fails takes nothing. -/
theorem Conn.read_error {c c' : Conn} {n : ℕ} {o : Outcome} {e : Errno}
    (h : c.read n o = some (.error e, c')) : c' = c := by
  cases o with
  | fails e' => exact ((by simpa [Conn.read] using h.symm : e = e' ∧ c' = c)).2
  | upTo k =>
    simp only [Conn.read] at h
    split_ifs at h <;> simp at h

theorem Conn.read_error_outcome {c c' : Conn} {n : ℕ} {o : Outcome} {e : Errno}
    (h : c.read n o = some (.error e, c')) : o = .fails e := by
  cases o with
  | fails e' =>
    obtain ⟨rfl, -⟩ : e' = e ∧ c = c' := by simpa [Conn.read] using h
    rfl
  | upTo k =>
    simp only [Conn.read] at h
    split_ifs at h <;> simp at h

theorem readnLoop_spec {n : ℕ} {writes : List Outcome} (reads : List Outcome) :
    ∀ {got : Bytes} {conn : Conn} {errno : Errno} {r : Readn}, got.length ≤ n →
      readnLoop n got conn errno writes reads = some r →
      ∃ bs, r.got = got ++ bs ∧ conn.Took bs r.net.conn ∧ r.got.length ≤ n ∧
        r.net.writes = writes ∧ (r.ret = n ∧ r.got.length = n ∨ r.ret < n) := by
  induction reads with
  | nil =>
    intro got conn errno r hle h
    rw [readnLoop] at h
    split_ifs at h with hfull
    obtain rfl := Option.some.inj h
    exact ⟨[], by simp, .refl conn, hle, rfl, Or.inl ⟨rfl, by simp only; omega⟩⟩
  | cons o reads ih =>
    intro got conn errno r hle h
    rw [readnLoop] at h
    split_ifs at h with hfull
    · obtain rfl := Option.some.inj h
      exact ⟨[], by simp, .refl conn, hle, rfl, Or.inl ⟨rfl, by simp only; omega⟩⟩
    · split at h
      · cases h
      · next conn' hread =>
        obtain rfl := Conn.read_error hread
        exact ih hle h
      · next e conn' _ hread =>
        obtain rfl := Conn.read_error hread
        obtain rfl := Option.some.inj h
        exact ⟨[], by simp, .refl _, hle, rfl, Or.inr (by simp only; omega)⟩
      · next conn' hread =>
        obtain rfl := Option.some.inj h
        obtain ⟨htook, -, -⟩ := Conn.read_data hread
        exact ⟨[], by simp, htook, hle, rfl, Or.inr (by simp only; omega)⟩
      · next bs conn' _ hread =>
        obtain ⟨htook, hlen, -⟩ := Conn.read_data hread
        have hle' : (got ++ bs).length ≤ n := by simp only [List.length_append]; omega
        obtain ⟨bs', hgot, htook', hbound, hw, hret⟩ := ih hle' h
        exact ⟨bs ++ bs', by rw [hgot, List.append_assoc], htook.trans htook', hbound, hw, hret⟩

/-- `readn` takes the bytes it stores from the stream, and returns `n` only
when it stored `n` bytes. -/
theorem readn_spec {n : ℕ} {net : Net} {r : Readn} (h : readn n net = some r) :
    net.conn.Took r.got r.net.conn ∧ r.got.length ≤ n ∧ r.net.writes = net.writes ∧
      (r.ret = n ∧ r.got.length = n ∨ r.ret < n) := by
  obtain ⟨bs, hgot, htook, hbound, hw, hret⟩ := readnLoop_spec net.reads (Nat.zero_le n) h
  rw [List.nil_append] at hgot
  exact ⟨hgot ▸ htook, hbound, hw, hret⟩

theorem writenLoop_spec {n : ℕ} {conn : Conn} {reads : List Outcome} (writes : List Outcome) :
    ∀ {sent left : Bytes} {errno : Errno} {w : Writen},
      writenLoop n sent left conn errno reads writes = some w →
      w.net.conn = conn ∧ w.net.reads = reads ∧
        (∃ bs, bs <+: left ∧ w.sent = sent ++ bs ∧ (w.ret = n ∧ bs = left ∨ w.ret = -1)) := by
  induction writes with
  | nil =>
    intro sent left errno w h
    unfold writenLoop at h
    split_ifs at h with hnil
    obtain rfl := Option.some.inj h
    exact ⟨rfl, rfl, [], by simp, by simp, Or.inl ⟨rfl, hnil.symm⟩⟩
  | cons o writes ih =>
    intro sent left errno w h
    unfold writenLoop at h
    split_ifs at h with hnil
    · obtain rfl := Option.some.inj h
      exact ⟨rfl, rfl, [], by simp, by simp, Or.inl ⟨rfl, hnil.symm⟩⟩
    · split at h
      · exact ih h
      · obtain rfl := Option.some.inj h
        exact ⟨rfl, rfl, [], by simp, by simp, Or.inr rfl⟩
      · next k =>
        obtain ⟨hconn, hreads, bs, hpre, hsent, hret⟩ := ih h
        have hsplit := List.take_append_drop (max k 1) left
        refine ⟨hconn, hreads, left.take (max k 1) ++ bs, ?_, by rw [hsent, List.append_assoc], ?_⟩
        · obtain ⟨t, ht⟩ := hpre
          exact ⟨t, by rw [List.append_assoc, ht, hsplit]⟩
        · rcases hret with ⟨hn, rfl⟩ | herr
          · exact Or.inl ⟨hn, hsplit⟩
          · exact Or.inr herr

/-- `writen` leaves the receiving end alone; what the socket accepted is a front
of the array, and all of it unless `writen` returns -1. -/
theorem writen_spec {bs : Bytes} {net : Net} {w : Writen} (h : writen bs net = some w) :
    w.net.conn = net.conn ∧ w.net.reads = net.reads ∧ w.sent <+: bs ∧
      (w.ret = bs.length ∧ w.sent = bs ∨ w.ret = -1) := by
  obtain ⟨hconn, hreads, sent, hpre, hsent, hret⟩ := writenLoop_spec net.writes h
  rw [List.nil_append] at hsent
  obtain rfl := hsent
  exact ⟨hconn, hreads, hpre, hret⟩

/-! ### What `readline` does to the stream -/

/-- The bytes of the stream that no line has taken yet. -/
def unread (tsd : Rline) (conn : Conn) : Bytes := tsd.buf ++ conn.inq

/-- The stream position of the first byte `readline` will store. -/
def position (tsd : Rline) (conn : Conn) : ℕ := if tsd.buf = [] then conn.pos else tsd.pos

/-- The buffered bytes come right before the bytes of the connection. -/
def Joined (tsd : Rline) (conn : Conn) : Prop := tsd.buf = [] ∨ tsd.pos + tsd.buf.length = conn.pos

/-- The buffered bytes come before the bytes of the connection. -/
def Ahead (tsd : Rline) (conn : Conn) : Prop := tsd.buf = [] ∨ tsd.pos + tsd.buf.length ≤ conn.pos

/-- `tsd'` and `conn'` are `tsd` and `conn` after `bs` were read line by line. -/
structure Reads (tsd : Rline) (conn : Conn) (bs : Bytes) (tsd' : Rline) (conn' : Conn) : Prop where
  stream : bs ++ unread tsd' conn' = unread tsd conn
  suffix : conn'.inq <:+ conn.inq
  eof : conn'.eof = conn.eof
  joined : Joined tsd conn → Joined tsd' conn'
  position : Joined tsd conn → position tsd' conn' = position tsd conn + bs.length
  total : conn'.pos + conn'.inq.length = conn.pos + conn.inq.length
  ahead : Ahead tsd conn → Ahead tsd' conn' ∧
    Posix.position tsd conn + bs.length ≤ Posix.position tsd' conn'

theorem Reads.refl (tsd : Rline) (conn : Conn) : Reads tsd conn [] tsd conn :=
  ⟨rfl, List.suffix_rfl, rfl, id, fun _ => rfl, rfl, fun h => ⟨h, le_rfl⟩⟩

theorem Reads.trans {tsd tsd' tsd'' : Rline} {conn conn' conn'' : Conn} {as bs : Bytes}
    (h : Reads tsd conn as tsd' conn') (h' : Reads tsd' conn' bs tsd'' conn'') :
    Reads tsd conn (as ++ bs) tsd'' conn'' where
  stream := by rw [List.append_assoc, h'.stream, h.stream]
  suffix := h'.suffix.trans h.suffix
  eof := h'.eof.trans h.eof
  joined hj := h'.joined (h.joined hj)
  position hj := by
    rw [h'.position (h.joined hj), h.position hj, List.length_append, Nat.add_assoc]
  total := h'.total.trans h.total
  ahead hahead := by
    obtain ⟨hmid, hle⟩ := h.ahead hahead
    obtain ⟨hend, hle'⟩ := h'.ahead hmid
    refine ⟨hend, ?_⟩
    rw [List.length_append]
    omega

/-- What one call of `my_read` returned. -/
def MyRead.bytes : MyRead → Bytes
  | .byte b => [b]
  | .eof => []
  | .error => []

theorem refill_spec {conn : Conn} {writes : List Outcome} (reads : List Outcome) :
    ∀ {errno : Errno} {m : MyRead} {tsd' : Rline} {net' : Net},
      refill conn errno writes reads = some (m, tsd', net') →
      (∀ pos, Reads ⟨[], pos⟩ conn m.bytes tsd' net'.conn) ∧ net'.writes = writes ∧
        (m = .eof → conn.inq = [] ∧ conn.eof) := by
  induction reads with
  | nil => intro errno m tsd' net' h; simp [refill] at h
  | cons o reads ih =>
    intro errno m tsd' net' h
    unfold refill at h
    split at h
    · cases h
    · next conn' hread =>
      obtain rfl := Conn.read_error hread
      exact ih h
    · next e conn' _ hread =>
      obtain rfl := Conn.read_error hread
      obtain ⟨rfl, rfl, rfl⟩ : MyRead.error = m ∧ _ = tsd' ∧ _ = net' := by simpa using h
      exact ⟨fun pos => ⟨rfl, List.suffix_rfl, rfl, fun _ => Or.inl rfl, fun _ => rfl, rfl,
        fun _ => ⟨Or.inl rfl, le_rfl⟩⟩, rfl, by simp⟩
    · next conn' hread =>
      obtain ⟨rfl, rfl, rfl⟩ : MyRead.eof = m ∧ _ = tsd' ∧ _ = net' := by simpa using h
      obtain ⟨htook, -, hend⟩ := Conn.read_data hread
      refine ⟨fun pos => ⟨?_, htook.suffix, htook.eof, fun _ => Or.inl rfl, fun _ => ?_,
        htook.total, fun _ => ⟨Or.inl rfl, ?_⟩⟩, rfl, fun _ => ?_⟩
      · simpa [unread, MyRead.bytes] using htook.stream
      · simpa [position, MyRead.bytes] using htook.pos
      · simpa [position, MyRead.bytes] using htook.pos.ge
      · rcases hend rfl with h0 | hend
        · simp [MAXLINE] at h0
        · exact hend
    · next b bs conn' hread =>
      obtain ⟨rfl, rfl, rfl⟩ : MyRead.byte b = m ∧ _ = tsd' ∧ _ = net' := by simpa using h
      obtain ⟨htook, -, -⟩ := Conn.read_data hread
      have hpos : conn'.pos = conn.pos + (bs.length + 1) := by simpa using htook.pos
      refine ⟨fun pos => ⟨?_, htook.suffix, htook.eof, fun _ => Or.inr ?_, fun _ => ?_,
        htook.total, fun _ => ⟨Or.inr ?_, ?_⟩⟩, rfl, by simp⟩
      · simpa [unread, MyRead.bytes] using htook.stream
      · simp only; omega
      · rcases bs with _ | ⟨b', bs⟩
        · simpa [position, MyRead.bytes] using hpos
        · simp [position, MyRead.bytes]
      · simp only; omega
      · rcases bs with _ | ⟨b', bs⟩
        · simpa [position, MyRead.bytes] using hpos.ge
        · simp [position, MyRead.bytes]

/-- `my_read` takes the byte it returns from the front of the stream; it reports
the end of file only when nothing is left. -/
theorem myRead_spec {tsd tsd' : Rline} {net net' : Net} {m : MyRead}
    (h : myRead tsd net = some (m, tsd', net')) :
    Reads tsd net.conn m.bytes tsd' net'.conn ∧ net'.writes = net.writes ∧
      (m = .eof → unread tsd net.conn = [] ∧ net.conn.eof) := by
  obtain ⟨buf, pos⟩ := tsd
  cases buf with
  | nil =>
    obtain ⟨hreads, hw, heof⟩ := refill_spec net.reads h
    exact ⟨hreads pos, hw, by simpa [unread] using heof⟩
  | cons b bs =>
    obtain ⟨rfl, rfl, rfl⟩ : MyRead.byte b = m ∧ _ = tsd' ∧ net = net' := by
      simpa [myRead] using h
    have hnext : pos + (bs.length + 1) ≤ net.conn.pos →
        pos + 1 ≤ position ⟨bs, pos + 1⟩ net.conn := fun hle => by
      unfold position
      split
      · omega
      · exact le_rfl
    refine ⟨⟨rfl, List.suffix_rfl, rfl, fun hj => Or.inr ?_, fun hj => ?_, rfl, fun ha => ?_⟩, rfl,
      by simp⟩
    · have hj : pos + (bs.length + 1) = net.conn.pos := by simpa [Joined] using hj
      simp only; omega
    · have hj : pos + (bs.length + 1) = net.conn.pos := by simpa [Joined] using hj
      rcases bs with _ | ⟨b', bs⟩
      · simpa [position, MyRead.bytes] using hj.symm
      · simp [position, MyRead.bytes]
    · have hle : pos + (bs.length + 1) ≤ net.conn.pos := by simpa [Ahead] using ha
      exact ⟨Or.inr (by simp only; omega), by simpa [position, MyRead.bytes] using hnext hle⟩

def isNewline (b : UInt8) : Bool := b == newline

/-- The line ends with its newline: it is not a part of a longer one. -/
def endsLine (line : Bytes) : Bool := line.getLast? == some newline

@[simp] theorem endsLine_concat (line : Bytes) (b : UInt8) :
    endsLine (line ++ [b]) = isNewline b := by
  rw [endsLine, isNewline, List.getLast?_concat]
  rfl

/-- What `readline` has done with `stored` in its array when there was room for
`room` more bytes. -/
structure LineLoop (stored : Bytes) (room : ℕ) (tsd : Rline) (net : Net) (r : Readline) :
    Prop where
  reads : ∃ bs, r.stored = stored ++ bs ∧ Reads tsd net.conn bs r.tsd r.net.conn
  writes : r.net.writes = net.writes
  ret : r.ret = -1 ∨
    (r.ret = 0 ∧ r.stored = [] ∧ unread tsd net.conn = [] ∧ net.conn.eof) ∨
    (r.ret = r.stored.length + (if endsLine r.stored then 0 else 1) ∧ r.stored ≠ [] ∧
      r.stored = stored ++ Lines.piece isNewline room (unread tsd net.conn) ∧
      (Lines.Settled isNewline room (Lines.piece isNewline room (unread tsd net.conn)) ∨
        unread r.tsd r.net.conn = [] ∧ net.conn.eof))

theorem readlineLoop_spec (room : ℕ) :
    ∀ {stored : Bytes} {tsd : Rline} {net : Net} {r : Readline}, endsLine stored = false →
      (stored = [] → 0 < room) → readlineLoop stored tsd net room = some r →
      LineLoop stored room tsd net r := by
  induction room with
  | zero =>
    intro stored tsd net r hopen hroom h
    obtain rfl := Option.some.inj h
    have hne : stored ≠ [] := fun hnil => absurd (hroom hnil) (by simp)
    exact ⟨⟨[], by simp, .refl tsd net.conn⟩, rfl,
      Or.inr (Or.inr ⟨by simp [hopen], hne, by simp, Or.inl (Or.inl (by simp))⟩)⟩
  | succ room ih =>
    intro stored tsd net r hopen hroom h
    unfold readlineLoop at h
    split at h
    · cases h
    -- a byte: it ends the line, or the loop goes on behind it
    · next b tsd' net' hread =>
      obtain ⟨hreads, hw, -⟩ := myRead_spec hread
      have hstream : unread tsd net.conn = b :: unread tsd' net'.conn := hreads.stream.symm
      split_ifs at h with hb
      · obtain rfl := Option.some.inj h
        have hpiece : Lines.piece isNewline (room + 1) (unread tsd net.conn) = [b] := by
          simp [hstream, Lines.piece_succ_cons, isNewline, hb]
        refine ⟨⟨[b], rfl, hreads⟩, hw, Or.inr (Or.inr ⟨?_, by simp, by rw [hpiece], Or.inl ?_⟩)⟩
        · simp [isNewline, hb]
        · rw [hpiece]
          exact Or.inr ⟨b, rfl, by simp [isNewline, hb]⟩
      · have hnl : isNewline b = false := by simpa [isNewline] using hb
        have inner := ih (by simpa using hnl) (by simp) h
        have hpiece : Lines.piece isNewline (room + 1) (unread tsd net.conn) =
            b :: Lines.piece isNewline room (unread tsd' net'.conn) := by
          simp [hstream, Lines.piece_succ_cons, hnl]
        obtain ⟨bs, hstored, hreads'⟩ := inner.reads
        refine ⟨⟨b :: bs, by simpa using hstored, hreads.trans hreads'⟩, inner.writes.trans hw, ?_⟩
        rcases inner.ret with herr | ⟨-, hnil, -⟩ | ⟨hret, hne, heq, hset⟩
        · exact Or.inl herr
        · simp [hnil] at hstored
        · refine Or.inr (Or.inr ⟨hret, hne, by simpa [hpiece] using heq, ?_⟩)
          rw [hpiece]
          rcases hset with hset | ⟨hnil, heof⟩
          · exact Or.inl (hset.cons b)
          · exact Or.inr ⟨hnil, hreads.eof ▸ heof⟩
    -- the end of the stream, with or without a line begun
    · next tsd' net' hread =>
      obtain ⟨hreads, hw, heof⟩ := myRead_spec hread
      obtain ⟨hnil, heof⟩ := heof rfl
      have hnil' : unread tsd' net'.conn = [] := by simpa [MyRead.bytes, hnil] using hreads.stream
      split_ifs at h with hs
      · obtain rfl := Option.some.inj h
        exact ⟨⟨[], by simp [hs], hreads⟩, hw, Or.inr (Or.inl ⟨rfl, rfl, hnil, heof⟩)⟩
      · obtain rfl := Option.some.inj h
        exact ⟨⟨[], by simp, hreads⟩, hw, Or.inr (Or.inr
          ⟨by simp [hopen], hs, by simp [hnil], Or.inr ⟨hnil', heof⟩⟩)⟩
    · next tsd' net' hread =>
      obtain ⟨hreads, hw, -⟩ := myRead_spec hread
      obtain rfl := Option.some.inj h
      exact ⟨⟨[], by simp, hreads⟩, hw, Or.inl rfl⟩

/-- What one call of `readline` does: it takes what it stores from the front of
the stream, and a positive result means one piece of the stream, which more
input would extend only when the stream has ended. -/
theorem readline_spec {tsd : Rline} {net : Net} {r : Readline}
    (h : readline MAXLINE tsd net = some r) : LineLoop [] (MAXLINE - 1) tsd net r :=
  readlineLoop_spec (MAXLINE - 1) rfl (by simp [MAXLINE]) h

end Esif.Posix
