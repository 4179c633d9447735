import Esif.Posix.Calm

/-!
# Moving an array over a socket

`readn` and `writen` of `support.c` with the pointer and the counter they go by, and the array
in memory. The client has the same two functions. `Net.lean` has them without the array.

## Main definitions

* `Wrote` — what one `write` does, which may also be nothing
* `readnFrom`, `writenFrom` — the two loops
* `readnAt`, `writenAt` — the two functions

## Main results

* `readnFrom_spec`, `writenFrom_spec` — what the loops have moved when they return
* `readnFrom_some`, `writenFrom_some` — they return when they may call often enough
* `readnAt_forget`, `writenAt_forget` — without the array they are `readn` and `writen`
* `transfer_exact` — the four together
-/

namespace Esif.Posix

/-- The array after `bs` were stored at `ptr`. -/
def storeAt (array : Bytes) (ptr : ℕ) (bs : Bytes) : Bytes :=
  array.take ptr ++ bs ++ array.drop (ptr + bs.length)

@[simp] theorem storeAt_nil (array : Bytes) (ptr : ℕ) : storeAt array ptr [] = array := by
  simp [storeAt]

/-- Two stores, one behind the other. -/
theorem storeAt_storeAt (array : Bytes) (ptr : ℕ) (bs bs' : Bytes) :
    storeAt (storeAt array ptr bs) (ptr + bs.length) bs' = storeAt array ptr (bs ++ bs') := by
  have htake : (storeAt array ptr bs).take (ptr + bs.length) = array.take ptr ++ bs := by
    rcases Nat.le_total ptr array.length with hle | hle
    · apply List.take_left'
      rw [List.length_append, List.length_take, Nat.min_eq_left hle]
    · rw [storeAt, List.drop_of_length_le (by omega), List.append_nil]
      apply List.take_of_length_le
      rw [List.length_append, List.length_take]
      omega
  have hdrop : (storeAt array ptr bs).drop (ptr + bs.length + bs'.length) =
      array.drop (ptr + (bs ++ bs').length) := by
    rw [List.length_append, ← Nat.add_assoc]
    rcases Nat.le_total ptr array.length with hle | hle
    · have hlen : (array.take ptr ++ bs).length = ptr + bs.length := by
        rw [List.length_append, List.length_take, Nat.min_eq_left hle]
      rw [storeAt, ← hlen, ← List.drop_drop, List.drop_left, hlen, List.drop_drop]
    · rw [List.drop_of_length_le, List.drop_of_length_le (by omega)]
      rw [storeAt, List.drop_of_length_le (by omega), List.append_nil, List.length_append,
        List.length_take]
      omega
  rw [storeAt, htake, hdrop, storeAt, List.append_assoc (array.take ptr) bs bs']

/-- What was stored in front can be read back. -/
theorem take_storeAt_zero (array bs : Bytes) : (storeAt array 0 bs).take bs.length = bs := by
  simp [storeAt]

/-! ### `readn` -/

/-- What `readn` returns, the array, and how far `ptr` has come. -/
structure ReadnAt where
  ret : ℤ
  array : Bytes
  ptr : ℕ
  net : Net
  deriving DecidableEq, Repr

/-- The loop of `readn` with `nleft` bytes to come at `ptr`. -/
def readnFrom (n : ℕ) (array : Bytes) (ptr nleft : ℕ) (conn : Conn) (errno : Errno)
    (writes : List Outcome) : List Outcome → Option ReadnAt
  | [] =>
    if nleft = 0 then some ⟨(n - nleft : ℕ), array, ptr, ⟨conn, errno, [], writes⟩⟩ else none
  | o :: reads =>
    if nleft = 0 then some ⟨(n - nleft : ℕ), array, ptr, ⟨conn, errno, o :: reads, writes⟩⟩
    else match conn.read nleft o with
      | none => none
      -- `nread = 0`
      | some (.error .eintr, conn) => readnFrom n array ptr nleft conn .eintr writes reads
      | some (.error e, conn) => some ⟨-1, array, ptr, ⟨conn, e, reads, writes⟩⟩
      -- the end of the stream
      | some (.data [], conn) =>
        some ⟨(n - nleft : ℕ), array, ptr, ⟨conn, errno, reads, writes⟩⟩
      | some (.data bs, conn) =>
        readnFrom n (storeAt array ptr bs) (ptr + bs.length) (nleft - bs.length) conn errno
          writes reads

/-- `readn(fd, vptr, n)` with this array at `vptr`. -/
def readnAt (n : ℕ) (array : Bytes) (net : Net) : Option ReadnAt :=
  readnFrom n array 0 n net.conn net.errno net.writes net.reads

/-- The calls up to the one that failed, other than by an interruption. -/
def Failed (reads rest : List Outcome) : Prop :=
  ∃ used e, e ≠ .eintr ∧ reads = used ++ .fails e :: rest

theorem Failed.cons {reads rest : List Outcome} (h : Failed reads rest) (o : Outcome) :
    Failed (o :: reads) rest := by
  obtain ⟨used, e, he, rfl⟩ := h
  exact ⟨o :: used, e, he, rfl⟩

/-- What the loop has done when it returns: the bytes it took are stored one behind the other,
and they are all of those it was to read unless the stream has ended or a call has failed. -/
structure ReadLoop (ptr nleft : ℕ) (array : Bytes) (conn : Conn) (reads : List Outcome)
    (r : ReadnAt) (bs : Bytes) : Prop where
  took : conn.Took bs r.net.conn
  stored : r.array = storeAt array ptr bs
  moved : r.ptr = ptr + bs.length
  ret : r.ret = r.ptr ∧ bs = conn.inq.take nleft ∧ (conn.inq.length < nleft → conn.eof = true) ∨
    r.ret = -1 ∧ bs <+: conn.inq.take nleft ∧ Failed reads r.net.reads

theorem readnFrom_spec {n : ℕ} {writes : List Outcome} (reads : List Outcome) :
    ∀ {array : Bytes} {ptr nleft : ℕ} {conn : Conn} {errno : Errno} {r : ReadnAt},
      ptr + nleft = n → readnFrom n array ptr nleft conn errno writes reads = some r →
      ∃ bs, ReadLoop ptr nleft array conn reads r bs := by
  -- on the calls to come; `ptr + nleft = n` in every turn of the loop
  induction reads with
  | nil =>
    intro array ptr nleft conn errno r hn h
    rw [readnFrom] at h
    split_ifs at h with hzero
    obtain rfl := Option.some.inj h
    refine ⟨[], .refl conn, (storeAt_nil array ptr).symm, rfl, Or.inl ⟨?_, ?_, ?_⟩⟩
    · rw [← hn, hzero, Nat.add_zero, Nat.sub_zero]
    · rw [hzero, List.take_zero]
    · omega
  | cons o reads ih =>
    intro array ptr nleft conn errno r hn h
    rw [readnFrom] at h
    split_ifs at h with hzero
    · obtain rfl := Option.some.inj h
      refine ⟨[], .refl conn, (storeAt_nil array ptr).symm, rfl, Or.inl ⟨?_, ?_, ?_⟩⟩
      · rw [← hn, hzero, Nat.add_zero, Nat.sub_zero]
      · rw [hzero, List.take_zero]
      · omega
    · split at h
      · cases h
      -- an interruption: nothing has moved
      · next conn' hread =>
        obtain rfl := Conn.read_error hread
        obtain ⟨bs, inner⟩ := ih hn h
        refine ⟨bs, inner.took, inner.stored, inner.moved, ?_⟩
        rcases inner.ret with hfull | ⟨hret, hpre, hfailed⟩
        · exact Or.inl hfull
        · exact Or.inr ⟨hret, hpre, hfailed.cons o⟩
      · next e conn' he hread =>
        obtain rfl := Conn.read_error hread
        obtain rfl := Conn.read_error_outcome hread
        obtain rfl := Option.some.inj h
        refine ⟨[], .refl _, (storeAt_nil array ptr).symm, rfl, Or.inr ⟨rfl, ?_, [], e, ?_, rfl⟩⟩
        · exact List.nil_prefix
        · exact he
      -- the end of the stream: nothing was left
      · next conn' hread =>
        obtain ⟨htook, -, hend⟩ := Conn.read_data hread
        obtain rfl := Option.some.inj h
        obtain ⟨hnil, heof⟩ := (hend rfl).resolve_left hzero
        refine ⟨[], htook, (storeAt_nil array ptr).symm, rfl, Or.inl ⟨?_, ?_, fun _ => heof⟩⟩
        · rw [← hn, Nat.add_sub_cancel]
        · rw [hnil, List.take_nil]
      · next bs conn' _ hread =>
        obtain ⟨htook, hlen, -⟩ := Conn.read_data hread
        obtain ⟨bs', inner⟩ := ih (by omega) h
        have htake : conn.inq.take nleft = bs ++ conn'.inq.take (nleft - bs.length) := by
          rw [← htook.stream, List.take_append, List.take_of_length_le hlen]
        have hinq := congrArg List.length htook.stream
        rw [List.length_append] at hinq
        refine ⟨bs ++ bs', htook.trans inner.took, ?_, ?_, ?_⟩
        · rw [inner.stored, storeAt_storeAt]
        · rw [inner.moved, List.length_append, Nat.add_assoc]
        · rw [htake]
          rcases inner.ret with ⟨hret, hbs, heof⟩ | ⟨hret, hpre, hfailed⟩
          · refine Or.inl ⟨hret, congrArg (bs ++ ·) hbs, fun hshort => ?_⟩
            rw [← htook.eof]
            exact heof (by omega)
          · exact Or.inr ⟨hret, (List.prefix_append_right_inj bs).mpr hpre, hfailed.cons o⟩

/-- The loop returns when what it waits for is there, or the stream has ended, and it may call
often enough. -/
theorem readnFrom_some {n : ℕ} {writes : List Outcome} (reads : List Outcome) :
    ∀ {array : Bytes} {ptr nleft : ℕ} {conn : Conn} {errno : Errno},
      nleft ≤ conn.inq.length ∨ conn.eof = true → nleft ≤ moves reads →
      ∃ r, readnFrom n array ptr nleft conn errno writes reads = some r := by
  induction reads with
  | nil =>
    intro array ptr nleft conn errno _ hmoves
    rw [readnFrom, if_pos (by simpa [moves] using hmoves)]
    exact ⟨_, rfl⟩
  | cons o reads ih =>
    intro array ptr nleft conn errno hthere hmoves
    rw [readnFrom]
    by_cases hzero : nleft = 0
    · rw [if_pos hzero]
      exact ⟨_, rfl⟩
    · rw [if_neg hzero]
      cases o with
      | fails e =>
        rw [show conn.read nleft (.fails e) = some (.error e, conn) from rfl]
        cases e with
        | eintr => exact ih hthere hmoves
        | ok | ewouldblock | other => exact ⟨_, rfl⟩
      | upTo k =>
        by_cases hnil : conn.inq = []
        · have heof : conn.eof = true := by
            rcases hthere with hle | heof
            · rw [hnil, List.length_nil] at hle
              omega
            · exact heof
          have hread : conn.read nleft (.upTo k) = some (.data [], conn) := by
            simp [Conn.read, hzero, hnil, heof]
          rw [hread]
          exact ⟨_, rfl⟩
        · obtain ⟨bs, conn', hread, hbs⟩ := @Conn.read_upTo conn nleft k hzero hnil
          obtain ⟨htook, hlen, -⟩ := Conn.read_data hread
          have hstream := congrArg List.length htook.stream
          have hpos := List.length_pos_iff.mpr hbs
          obtain ⟨b, bs, rfl⟩ := List.exists_cons_of_ne_nil hbs
          simp only [List.length_append, moves] at hstream hmoves
          simp only [hread]
          apply ih
          · rw [htook.eof]
            exact hthere.imp_left fun hle => by omega
          · omega

/-- Without the array. -/
def ReadnAt.forget (r : ReadnAt) : Readn := ⟨r.ret, r.array.take r.ptr, r.net⟩

theorem readnFrom_forget {n : ℕ} {writes : List Outcome} (array : Bytes) (reads : List Outcome) :
    ∀ {got : Bytes} {conn : Conn} {errno : Errno}, got.length ≤ n →
      (readnFrom n (storeAt array 0 got) got.length (n - got.length) conn errno writes reads).map
          ReadnAt.forget = readnLoop n got conn errno writes reads := by
  have hfull : ∀ got : Bytes, n - got.length = 0 ↔ n ≤ got.length := fun got => by omega
  have hret : ∀ got : Bytes, got.length ≤ n → n - (n - got.length) = got.length := fun got => by
    omega
  induction reads with
  | nil =>
    intro got conn errno hle
    simp only [readnFrom, readnLoop, hfull]
    split_ifs with hn
    · obtain rfl := Nat.le_antisymm hle hn
      simp only [Option.map_some, ReadnAt.forget, take_storeAt_zero, hret got hle]
    · rfl
  | cons o reads ih =>
    intro got conn errno hle
    simp only [readnFrom, readnLoop, hfull]
    split_ifs with hn
    · obtain rfl := Nat.le_antisymm hle hn
      simp only [Option.map_some, ReadnAt.forget, take_storeAt_zero, hret got hle]
    · rcases hread : conn.read (n - got.length) o with _ | ⟨bs | e, conn'⟩
      · rfl
      · cases bs with
        | nil => simp only [Option.map_some, ReadnAt.forget, take_storeAt_zero, hret got hle]
        | cons b bs =>
          obtain ⟨-, hlen, -⟩ := Conn.read_data hread
          have hstore := storeAt_storeAt array 0 got (b :: bs)
          have inner := @ih (got ++ b :: bs) conn' errno (by rw [List.length_append]; omega)
          rw [Nat.zero_add] at hstore
          rw [← hstore, List.length_append, ← Nat.sub_sub] at inner
          exact inner
      · cases e with
        | eintr => exact ih hle
        | ok | ewouldblock | other =>
          simp only [Option.map_some, ReadnAt.forget, take_storeAt_zero]

/-- `readn` of `Net.lean` is the function here without its array. -/
theorem readnAt_forget (n : ℕ) (array : Bytes) (net : Net) :
    (readnAt n array net).map ReadnAt.forget = readn n net := by
  have h := @readnFrom_forget n net.writes array net.reads [] net.conn net.errno (Nat.zero_le n)
  rwa [storeAt_nil] at h

/-! ### `writen` -/

/-- What one `write` does: accept up to `k` bytes, perhaps none, or fail. -/
inductive Wrote where
  | accepts (k : ℕ)
  | fails (e : Errno)
  deriving DecidableEq, Repr

/-- What `writen` returns and the bytes the socket accepted. -/
structure WritenAt where
  ret : ℤ
  accepted : Bytes
  errno : Errno
  writes : List Wrote
  deriving DecidableEq, Repr

/-- The loop of `writen` with `nleft` bytes to go at `ptr`. -/
def writenFrom (vptr : Bytes) (n ptr nleft : ℕ) (accepted : Bytes) (errno : Errno) :
    List Wrote → Option WritenAt
  | [] => if nleft = 0 then some ⟨n, accepted, errno, []⟩ else none
  | o :: writes =>
    if nleft = 0 then some ⟨n, accepted, errno, o :: writes⟩
    else match o with
      | .fails e =>
        if e = .eintr then writenFrom vptr n ptr nleft accepted .eintr writes
        else some ⟨-1, accepted, e, writes⟩
      | .accepts k =>
        let bs := ((vptr.drop ptr).take nleft).take k
        -- `write` did not fail, and `errno` is what an earlier call left there
        if bs = [] then
          if errno = .eintr then writenFrom vptr n ptr nleft accepted errno writes
          else some ⟨-1, accepted, errno, writes⟩
        else writenFrom vptr n (ptr + bs.length) (nleft - bs.length) (accepted ++ bs) errno writes

/-- `writen(fd, vptr, n)` for an array of `n` bytes. -/
def writenAt (vptr : Bytes) (errno : Errno) (writes : List Wrote) : Option WritenAt :=
  writenFrom vptr vptr.length 0 vptr.length [] errno writes

/-- The number of calls that move bytes. -/
def progress : List Wrote → ℕ
  | [] => 0
  | .accepts 0 :: writes => progress writes
  | .accepts (_ + 1) :: writes => progress writes + 1
  | .fails _ :: writes => progress writes

/-- When the loop returns, either all of the array was accepted or a part in front of the rest. -/
theorem writenFrom_spec {vptr : Bytes} {n : ℕ} (writes : List Wrote) :
    ∀ {ptr nleft : ℕ} {errno : Errno} {w : WritenAt}, ptr + nleft = vptr.length →
      writenFrom vptr n ptr nleft (vptr.take ptr) errno writes = some w →
      w.ret = n ∧ w.accepted = vptr ∨
        w.ret = -1 ∧ ∃ k < vptr.length, w.accepted = vptr.take k := by
  -- on the calls to come; what was accepted so far is the array up to `ptr`
  induction writes with
  | nil =>
    intro ptr nleft errno w hn h
    unfold writenFrom at h
    split_ifs at h with hzero
    obtain rfl := Option.some.inj h
    exact Or.inl ⟨rfl, List.take_of_length_le (by omega)⟩
  | cons o writes ih =>
    intro ptr nleft errno w hn h
    unfold writenFrom at h
    by_cases hzero : nleft = 0
    · rw [if_pos hzero] at h
      obtain rfl := Option.some.inj h
      exact Or.inl ⟨rfl, List.take_of_length_le (by omega)⟩
    · rw [if_neg hzero] at h
      -- a call that moves nothing, and is not made again
      have hfailed : ∀ {e : Errno}, some ⟨-1, vptr.take ptr, e, writes⟩ = some w →
          w.ret = -1 ∧ ∃ k < vptr.length, w.accepted = vptr.take k := fun heq => by
        obtain rfl := Option.some.inj heq
        exact ⟨rfl, ptr, by omega, rfl⟩
      cases o with
      | fails e =>
        by_cases he : e = .eintr
        · simp only [if_pos he] at h
          exact ih hn h
        · simp only [if_neg he] at h
          exact Or.inr (hfailed h)
      | accepts k =>
        by_cases hnil : ((vptr.drop ptr).take nleft).take k = []
        · simp only [if_pos hnil] at h
          by_cases herrno : errno = .eintr
          · rw [if_pos herrno] at h
            exact ih hn h
          · rw [if_neg herrno] at h
            exact Or.inr (hfailed h)
        · -- the bytes accepted are the next ones of the array
          have hlen : (((vptr.drop ptr).take nleft).take k).length = min k nleft := by
            rw [List.length_take, List.length_take, List.length_drop]
            omega
          have hnext : vptr.take ptr ++ ((vptr.drop ptr).take nleft).take k =
              vptr.take (ptr + min k nleft) := by
            rw [List.take_take, List.take_add]
          simp only [if_neg hnil, hlen, hnext] at h
          exact ih (by omega) h

/-- The loop returns when it may call often enough. -/
theorem writenFrom_some {vptr : Bytes} {n : ℕ} (writes : List Wrote) :
    ∀ {ptr nleft : ℕ} {accepted : Bytes} {errno : Errno}, ptr + nleft = vptr.length →
      nleft ≤ progress writes →
      ∃ w, writenFrom vptr n ptr nleft accepted errno writes = some w := by
  induction writes with
  | nil =>
    intro ptr nleft accepted errno _ hmoves
    unfold writenFrom
    rw [if_pos (by simpa [progress] using hmoves)]
    exact ⟨_, rfl⟩
  | cons o writes ih =>
    intro ptr nleft accepted errno hn hmoves
    unfold writenFrom
    by_cases hzero : nleft = 0
    · rw [if_pos hzero]
      exact ⟨_, rfl⟩
    · rw [if_neg hzero]
      cases o with
      | fails e =>
        by_cases he : e = .eintr
        · simp only [if_pos he]
          exact ih hn hmoves
        · simp only [if_neg he]
          exact ⟨_, rfl⟩
      | accepts k =>
        have hlen : (((vptr.drop ptr).take nleft).take k).length = min k nleft := by
          rw [List.length_take, List.length_take, List.length_drop]
          omega
        by_cases hnil : ((vptr.drop ptr).take nleft).take k = []
        · simp only [if_pos hnil]
          rw [hnil, List.length_nil] at hlen
          obtain rfl : k = 0 := by omega
          by_cases herrno : errno = .eintr
          · rw [if_pos herrno]
            exact ih hn hmoves
          · rw [if_neg herrno]
            exact ⟨_, rfl⟩
        · simp only [if_neg hnil, hlen]
          have hpos := List.length_pos_iff.mpr hnil
          obtain ⟨k, rfl⟩ : ∃ k', k = k' + 1 := ⟨k - 1, by omega⟩
          rw [progress] at hmoves
          apply ih <;> omega

/-- `write` as in `Net.lean`, where it accepts one byte at least. -/
def Outcome.wrote : Outcome → Wrote
  | .upTo k => .accepts (max k 1)
  | .fails e => .fails e

/-- What the two forms of `writen` have in common. -/
def Writen.core (w : Writen) : WritenAt :=
  ⟨w.ret, w.sent, w.net.errno, w.net.writes.map Outcome.wrote⟩

theorem writenFrom_forget {vptr : Bytes} {n : ℕ} {conn : Conn} {reads : List Outcome}
    (writes : List Outcome) :
    ∀ {ptr nleft : ℕ} {accepted : Bytes} {errno : Errno}, ptr + nleft = vptr.length →
      (writenLoop n accepted (vptr.drop ptr) conn errno reads writes).map Writen.core =
        writenFrom vptr n ptr nleft accepted errno (writes.map Outcome.wrote) := by
  have hdone : ∀ {ptr nleft : ℕ}, ptr + nleft = vptr.length →
      (vptr.drop ptr = [] ↔ nleft = 0) := fun hn => by
    rw [List.drop_eq_nil_iff]
    omega
  induction writes with
  | nil =>
    intro ptr nleft accepted errno hn
    simp only [List.map_nil, writenLoop, writenFrom, hdone hn]
    split_ifs <;> rfl
  | cons o writes ih =>
    intro ptr nleft accepted errno hn
    simp only [List.map_cons, writenLoop, writenFrom, hdone hn]
    by_cases hzero : nleft = 0
    · simp only [if_pos hzero]
      rfl
    · simp only [if_neg hzero]
      cases o with
      | fails e =>
        cases e with
        | eintr => exact ih hn
        | ok | ewouldblock | other => rfl
      | upTo k =>
        have hall : (vptr.drop ptr).take nleft = vptr.drop ptr := by
          apply List.take_of_length_le
          rw [List.length_drop]
          omega
        have hlen : ((vptr.drop ptr).take (max k 1)).length = min (max k 1) nleft := by
          rw [List.length_take, List.length_drop]
          omega
        have hne : (vptr.drop ptr).take (max k 1) ≠ [] := by
          apply List.ne_nil_of_length_pos
          omega
        have hdrop : (vptr.drop ptr).drop (max k 1) = vptr.drop (ptr + min (max k 1) nleft) := by
          rw [List.drop_drop]
          rcases Nat.le_total (max k 1) nleft with hle | hle
          · rw [Nat.min_eq_left hle]
          · rw [Nat.min_eq_right hle, List.drop_of_length_le (by omega),
              List.drop_of_length_le (by omega)]
        simp only [Outcome.wrote, hall, if_neg hne, hlen, hdrop]
        exact ih (by omega)

/-- `writen` of `Net.lean` is the function here, when `write` accepts one byte at least. -/
theorem writenAt_forget (vptr : Bytes) (net : Net) :
    (writen vptr net).map Writen.core =
      writenAt vptr net.errno (net.writes.map Outcome.wrote) := by
  exact @writenFrom_forget vptr vptr.length net.conn net.reads net.writes 0 vptr.length [] net.errno
    (Nat.zero_add _)

/-! ### The two together -/

/-- `readn` returns the number of bytes it was to read or that were left in the stream, and has
stored exactly these from the start of the array; or it returns -1 after a call that failed,
with a front of them stored. `writen` returns the length of its array when the socket has
accepted the array from front to end, and -1 when it has accepted a part in front of the rest.
Both return when what they wait for comes. -/
theorem transfer_exact :
    (∀ n array net r, readnAt n array net = some r →
      (r.ret = (min n net.conn.inq.length : ℕ) ∧
          r.array = storeAt array 0 (net.conn.inq.take n) ∧
          net.conn.Took (net.conn.inq.take n) r.net.conn ∧
          (net.conn.inq.length < n → net.conn.eof = true)) ∨
        (r.ret = -1 ∧ Failed net.reads r.net.reads ∧
          ∃ bs, bs <+: net.conn.inq.take n ∧ r.array = storeAt array 0 bs ∧
            net.conn.Took bs r.net.conn)) ∧
    (∀ n array net, n ≤ net.conn.inq.length ∨ net.conn.eof = true → n ≤ moves net.reads →
      ∃ r, readnAt n array net = some r) ∧
    (∀ vptr errno writes w, writenAt vptr errno writes = some w →
      (w.ret = vptr.length ∧ w.accepted = vptr) ∨
        (w.ret = -1 ∧ ∃ k < vptr.length, w.accepted = vptr.take k)) ∧
    (∀ vptr errno writes, vptr.length ≤ progress writes →
      ∃ w, writenAt vptr errno writes = some w) := by
  refine ⟨fun n array net r h => ?_, fun n array net hthere hmoves => ?_,
    fun vptr errno writes w h => ?_, fun vptr errno writes hmoves => ?_⟩
  · obtain ⟨bs, loop⟩ := readnFrom_spec net.reads (Nat.zero_add n) h
    rcases loop.ret with ⟨hret, rfl, heof⟩ | ⟨hret, hpre, hfailed⟩
    · refine Or.inl ⟨?_, loop.stored, loop.took, heof⟩
      rw [hret, loop.moved, Nat.zero_add, List.length_take]
    · exact Or.inr ⟨hret, hfailed, bs, hpre, loop.stored, loop.took⟩
  · exact readnFrom_some net.reads hthere hmoves
  · exact writenFrom_spec writes (Nat.zero_add _) h
  · exact writenFrom_some writes (Nat.zero_add _) hmoves

/-- Three bytes of five that are left, one at a time and with an interruption between them. -/
def interruptedNet : Net :=
  { conn := ⟨ascii "abcde", true, 0⟩, reads := [.upTo 1, .fails .eintr, .upTo 1, .upTo 1] }

theorem transfer_exact_interruptedNet :
    (∃ r, readnAt 3 (ascii "zzzz") interruptedNet = some r ∧ r.ret = 3 ∧
      r.array = ascii "abcz") ∧
    (writenAt (ascii "abc") .eintr [.accepts 2, .accepts 0, .fails .eintr, .accepts 1]).map
      WritenAt.accepted = some (ascii "abc") := by
  obtain ⟨hread, hreadSome, hwrite, hwriteSome⟩ := transfer_exact
  constructor
  · obtain ⟨r, hr⟩ := hreadSome 3 (ascii "zzzz") interruptedNet (by decide) (by decide)
    refine ⟨r, hr, ?_⟩
    rcases hread _ _ _ r hr with ⟨hret, harray, -, -⟩ | ⟨-, ⟨used, e, he, hreads⟩, -⟩
    · exact ⟨hret, harray⟩
    · have hcalm : ∀ o ∈ interruptedNet.reads, o.IsCalm := by decide
      exact absurd (hcalm (.fails e) (by simp [hreads])) he
  · have hrun : writenAt (ascii "abc") .eintr [.accepts 2, .accepts 0, .fails .eintr, .accepts 1] =
        some ⟨3, ascii "abc", .eintr, []⟩ := by decide
    rcases hwrite _ _ _ _ hrun with ⟨-, hall⟩ | ⟨hret, -⟩
    · rw [hrun, Option.map_some, hall]
    · exact absurd hret (by decide)

end Esif.Posix
