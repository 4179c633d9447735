import Mathlib.Order.Nat
import Esif.Posix.Net

/-!
# A connection that holds

The socket calls where nothing fails: a `read` or `write` moves some bytes or is
interrupted by a signal. However the bytes are cut then, a call that returns has
done all of its work; and it returns as soon as the bytes are there and it may
call often enough.

## Main definitions

* `Calm` — outcomes of calls on a connection that holds
* `moves` — the number of calls that move bytes

## Main results

* `readn_calm`, `readn_some` — `readn` reads what it is asked for
* `writen_calm`, `writen_some` — `writen` writes all of its array
* `readline_whole`, `readline_nil`, `readline_some` — `readline` reads a line when there is one
-/

namespace Esif.Posix

open Esif.CS

/-- The call moves bytes or is interrupted. -/
def Outcome.IsCalm : Outcome → Prop
  | .upTo _ => True
  | .fails e => e = .eintr

instance : DecidablePred Outcome.IsCalm
  | .upTo _ => isTrue trivial
  | .fails e => inferInstanceAs (Decidable (e = .eintr))

/-- Every call moves bytes or is interrupted. -/
def Calm (os : List Outcome) : Prop := ∀ o ∈ os, o.IsCalm

instance (os : List Outcome) : Decidable (Calm os) := inferInstanceAs (Decidable (∀ o ∈ os, _))

/-- The number of calls that move bytes. -/
def moves : List Outcome → ℕ
  | [] => 0
  | .upTo _ :: os => moves os + 1
  | .fails _ :: os => moves os

theorem Calm.tail {o : Outcome} {os : List Outcome} (h : Calm (o :: os)) : Calm os :=
  fun o' ho' => h o' (by simp [ho'])

theorem moves_replicate (n k : ℕ) : moves (List.replicate n (.upTo k)) = n := by
  induction n with
  | zero => rfl
  | succ n ih => simp [List.replicate_succ, moves, ih]

/-! ### `read` -/

/-- A `read` that moves bytes on an open connection with bytes waiting. -/
theorem Conn.read_upTo {c : Conn} {n k : ℕ} (hn : n ≠ 0) (hinq : c.inq ≠ []) :
    ∃ bs c', c.read n (.upTo k) = some (.data bs, c') ∧ bs ≠ [] := by
  refine ⟨_, _, by simp [Conn.read, hn, hinq]; exact ⟨rfl, rfl⟩, ?_⟩
  simp [List.take_eq_nil_iff, hinq]
  omega

theorem Conn.read_nil {c c' : Conn} {n : ℕ} {o : Outcome} (heof : c.eof = false) (hn : n ≠ 0)
    (h : c.read n o = some (.data [], c')) : False := by
  rcases (Conn.read_data h).2.2 rfl with hzero | ⟨-, hend⟩
  · exact hn hzero
  · simp [heof] at hend

/-! ### `readn` -/

section Readn

variable {n : ℕ} {writes : List Outcome}

theorem readnLoop_calm (reads : List Outcome) : ∀ {got : Bytes} {conn : Conn} {errno : Errno}
    {r : Readn}, Calm reads → conn.eof = false → got.length ≤ n →
      readnLoop n got conn errno writes reads = some r →
        r.ret = n ∧ (errno ≠ .ewouldblock → r.net.errno ≠ .ewouldblock) := by
  -- on the `read`s to come; the only failure is an interruption, and it is tried again
  induction reads with
  | nil =>
    intro got conn errno r _ _ _ h
    rw [readnLoop] at h
    split_ifs at h
    obtain rfl := Option.some.inj h
    exact ⟨rfl, id⟩
  | cons o reads ih =>
    intro got conn errno r hcalm heof hle h
    rw [readnLoop] at h
    split_ifs at h with hfull
    · obtain rfl := Option.some.inj h
      exact ⟨rfl, id⟩
    · split at h
      · cases h
      · next conn' hread =>
        obtain rfl := Conn.read_error hread
        obtain ⟨hret, herrno⟩ := ih hcalm.tail heof hle h
        exact ⟨hret, fun _ => herrno (by decide)⟩
      · next e conn' hne hread =>
        exact absurd (hcalm (.fails e) (by simp [Conn.read_error_outcome hread])) hne
      · next conn' hread => exact absurd hread fun hread => Conn.read_nil heof (by omega) hread
      · next bs conn' _ hread =>
        obtain ⟨htook, hlen, -⟩ := Conn.read_data hread
        refine ih hcalm.tail (htook.eof.trans heof) ?_ h
        simp only [List.length_append]
        omega

theorem readnLoop_some (reads : List Outcome) : ∀ {got : Bytes} {conn : Conn} {errno : Errno},
    Calm reads → conn.eof = false → n - got.length ≤ conn.inq.length →
      n - got.length ≤ moves reads → ∃ r, readnLoop n got conn errno writes reads = some r := by
  induction reads with
  | nil =>
    intro got conn errno _ _ _ hmoves
    simp only [moves] at hmoves
    rw [readnLoop, if_pos (by omega)]
    exact ⟨_, rfl⟩
  | cons o reads ih =>
    intro got conn errno hcalm heof hinq hmoves
    rw [readnLoop]
    by_cases hfull : n ≤ got.length
    · rw [if_pos hfull]
      exact ⟨_, rfl⟩
    · rw [if_neg hfull]
      cases o with
      | fails e =>
        obtain rfl : e = .eintr := hcalm (.fails e) (by simp)
        exact ih hcalm.tail heof hinq hmoves
      | upTo k =>
        -- as long as bytes are missing, some are there
        have hne : conn.inq ≠ [] := by
          rintro hnil
          rw [hnil, List.length_nil] at hinq
          omega
        obtain ⟨bs, conn', hread, hbs⟩ :=
          @Conn.read_upTo conn (n - got.length) k (by omega) hne
        obtain ⟨htook, hlen, -⟩ := Conn.read_data hread
        have hstream := congrArg List.length htook.stream
        have hpos := List.length_pos_iff.mpr hbs
        obtain ⟨b, bs, rfl⟩ := List.exists_cons_of_ne_nil hbs
        simp only [hread]
        simp only [List.length_append, moves] at hstream hmoves hpos
        refine ih hcalm.tail (htook.eof.trans heof) ?_ ?_ <;>
          simp only [List.length_append] <;> omega

/-- On a connection that holds, `readn` returns when it has read `n` bytes. -/
theorem readn_calm {net : Net} {r : Readn} (hcalm : Calm net.reads) (heof : net.conn.eof = false)
    (h : readn n net = some r) :
    r.ret = n ∧ r.got.length = n ∧ net.conn.Took r.got r.net.conn ∧
      (net.errno ≠ .ewouldblock → r.net.errno ≠ .ewouldblock) := by
  obtain ⟨hret, herrno⟩ := readnLoop_calm net.reads hcalm heof (Nat.zero_le n) h
  obtain ⟨htook, -, -, hlen⟩ := readn_spec h
  exact ⟨hret, by omega, htook, herrno⟩

/-- It does return when the bytes are there and it may call often enough. -/
theorem readn_some {net : Net} (hcalm : Calm net.reads) (heof : net.conn.eof = false)
    (hinq : n ≤ net.conn.inq.length) (hmoves : n ≤ moves net.reads) : ∃ r, readn n net = some r :=
  readnLoop_some net.reads hcalm heof hinq hmoves

end Readn

/-! ### `writen` -/

section Writen

variable {n : ℕ} {conn : Conn} {reads : List Outcome}

theorem writenLoop_calm (writes : List Outcome) : ∀ {sent left : Bytes} {errno : Errno}
    {w : Writen}, Calm writes → writenLoop n sent left conn errno reads writes = some w →
      w.ret = n ∧ w.sent = sent ++ left ∧
        (errno ≠ .ewouldblock → w.net.errno ≠ .ewouldblock) := by
  induction writes with
  | nil =>
    intro sent left errno w _ h
    unfold writenLoop at h
    split_ifs at h with hnil
    obtain rfl := Option.some.inj h
    exact ⟨rfl, by simp [hnil], id⟩
  | cons o writes ih =>
    intro sent left errno w hcalm h
    unfold writenLoop at h
    split_ifs at h with hnil
    · obtain rfl := Option.some.inj h
      exact ⟨rfl, by simp [hnil], id⟩
    · split at h
      · obtain ⟨hret, hsent, herrno⟩ := ih hcalm.tail h
        exact ⟨hret, hsent, fun _ => herrno (by decide)⟩
      · next e hne => exact absurd (hcalm (.fails e) (by simp)) hne
      · obtain ⟨hret, hsent, herrno⟩ := ih hcalm.tail h
        exact ⟨hret, by rw [hsent, List.append_assoc, List.take_append_drop], herrno⟩

theorem writenLoop_some (writes : List Outcome) : ∀ {sent left : Bytes} {errno : Errno},
    Calm writes → left.length ≤ moves writes →
      ∃ w, writenLoop n sent left conn errno reads writes = some w := by
  induction writes with
  | nil =>
    intro sent left errno _ hmoves
    unfold writenLoop
    rw [if_pos (List.length_eq_zero_iff.mp (by simpa [moves] using hmoves))]
    exact ⟨_, rfl⟩
  | cons o writes ih =>
    intro sent left errno hcalm hmoves
    unfold writenLoop
    by_cases hnil : left = []
    · rw [if_pos hnil]
      exact ⟨_, rfl⟩
    · rw [if_neg hnil]
      cases o with
      | fails e =>
        obtain rfl : e = .eintr := hcalm (.fails e) (by simp)
        exact ih hcalm.tail hmoves
      | upTo k =>
        refine ih hcalm.tail ?_
        simp only [List.length_drop, moves] at hmoves ⊢
        omega

/-- On a connection that holds, `writen` returns when it has written all of its
array. -/
theorem writen_calm {bs : Bytes} {net : Net} {w : Writen} (hcalm : Calm net.writes)
    (h : writen bs net = some w) :
    w.ret = bs.length ∧ w.sent = bs ∧ (net.errno ≠ .ewouldblock → w.net.errno ≠ .ewouldblock) := by
  simpa only [List.nil_append] using writenLoop_calm net.writes hcalm h

/-- It does return when it may call often enough. -/
theorem writen_some {bs : Bytes} {net : Net} (hcalm : Calm net.writes)
    (hmoves : bs.length ≤ moves net.writes) : ∃ w, writen bs net = some w :=
  writenLoop_some net.writes hcalm hmoves

end Writen

/-! ### `readline` -/

section Readline

theorem refill_calm {conn : Conn} {writes : List Outcome} (reads : List Outcome) :
    ∀ {errno : Errno} {m : MyRead} {tsd' : Rline} {net' : Net}, Calm reads →
      refill conn errno writes reads = some (m, tsd', net') →
      m ≠ .error ∧ Calm net'.reads ∧ moves reads ≤ moves net'.reads + 1 ∧
        (errno ≠ .ewouldblock → net'.errno ≠ .ewouldblock) := by
  induction reads with
  | nil => intro errno m tsd' net' _ h; simp [refill] at h
  | cons o reads ih =>
    intro errno m tsd' net' hcalm h
    unfold refill at h
    split at h
    · cases h
    · next conn' hread =>
      obtain rfl := Conn.read_error hread
      obtain rfl := Conn.read_error_outcome hread
      obtain ⟨hm, hcalm', hmoves, herrno⟩ := ih hcalm.tail h
      exact ⟨hm, hcalm', hmoves, fun _ => herrno (by decide)⟩
    · next e conn' hne hread =>
      exact absurd (hcalm (.fails e) (by simp [Conn.read_error_outcome hread])) hne
    · obtain ⟨rfl, rfl, rfl⟩ : MyRead.eof = m ∧ _ = tsd' ∧ _ = net' := by simpa using h
      refine ⟨by simp, hcalm.tail, ?_, id⟩
      cases o <;> simp [moves]
    · obtain ⟨rfl, rfl, rfl⟩ : MyRead.byte _ = m ∧ _ = tsd' ∧ _ = net' := by simpa using h
      refine ⟨by simp, hcalm.tail, ?_, id⟩
      cases o <;> simp [moves]

theorem refill_some {conn : Conn} {writes : List Outcome} (hinq : conn.inq ≠ [])
    (reads : List Outcome) : ∀ {errno : Errno}, Calm reads → 0 < moves reads →
      ∃ r, refill conn errno writes reads = some r := by
  induction reads with
  | nil => intro errno _ hmoves; simp [moves] at hmoves
  | cons o reads ih =>
    intro errno hcalm hmoves
    cases o with
    | fails e =>
      obtain rfl : e = .eintr := hcalm (.fails e) (by simp)
      exact ih hcalm.tail hmoves
    | upTo k =>
      obtain ⟨bs, conn', hread, hbs⟩ := @Conn.read_upTo conn MAXLINE k (by decide) hinq
      obtain ⟨b, bs, rfl⟩ := List.exists_cons_of_ne_nil hbs
      exact ⟨_, by simp only [refill, hread]; rfl⟩

theorem refill_ended {conn : Conn} {writes : List Outcome} (heof : conn.eof = true)
    (reads : List Outcome) : ∀ {errno : Errno}, Calm reads → 0 < moves reads →
      ∃ r, refill conn errno writes reads = some r := by
  induction reads with
  | nil => intro errno _ hmoves; simp [moves] at hmoves
  | cons o reads ih =>
    intro errno hcalm hmoves
    cases o with
    | fails e =>
      obtain rfl : e = .eintr := hcalm (.fails e) (by simp)
      exact ih hcalm.tail hmoves
    | upTo k =>
      by_cases hinq : conn.inq = []
      · have hread : conn.read MAXLINE (.upTo k) = some (.data [], conn) := by
          simp [Conn.read, hinq, heof, MAXLINE]
        exact ⟨_, by simp only [refill, hread]; rfl⟩
      · exact refill_some hinq (.upTo k :: reads) hcalm hmoves

/-- On a connection that holds, `my_read` reports no error. -/
theorem myRead_calm {tsd tsd' : Rline} {net net' : Net} {m : MyRead} (hcalm : Calm net.reads)
    (h : myRead tsd net = some (m, tsd', net')) :
    m ≠ .error ∧ Calm net'.reads ∧ moves net.reads ≤ moves net'.reads + 1 ∧
      (net.errno ≠ .ewouldblock → net'.errno ≠ .ewouldblock) := by
  unfold myRead at h
  split at h
  · obtain ⟨rfl, rfl, rfl⟩ : MyRead.byte _ = m ∧ _ = tsd' ∧ net = net' := by simpa using h
    exact ⟨by simp, hcalm, by omega, id⟩
  · exact refill_calm net.reads hcalm h

theorem myRead_some {tsd : Rline} {net : Net} (hcalm : Calm net.reads)
    (hunread : unread tsd net.conn ≠ []) (hmoves : 0 < moves net.reads) :
    ∃ r, myRead tsd net = some r := by
  unfold myRead
  split
  · exact ⟨_, rfl⟩
  · next hbuf =>
    refine refill_some (fun hinq => hunread ?_) net.reads hcalm hmoves
    simp [unread, hbuf, hinq]

theorem readlineLoop_calm (room : ℕ) : ∀ {stored : Bytes} {tsd : Rline} {net : Net} {r : Readline},
    Calm net.reads → readlineLoop stored tsd net room = some r →
      r.ret ≠ -1 ∧ Calm r.net.reads ∧
        (net.errno ≠ .ewouldblock → r.net.errno ≠ .ewouldblock) := by
  induction room with
  | zero =>
    intro stored tsd net r hcalm h
    obtain rfl := Option.some.inj h
    exact ⟨by simp only; omega, hcalm, id⟩
  | succ room ih =>
    intro stored tsd net r hcalm h
    unfold readlineLoop at h
    split at h
    · cases h
    · next b tsd' net' hread =>
      obtain ⟨-, hcalm', -, herrno⟩ := myRead_calm hcalm hread
      split_ifs at h
      · obtain rfl := Option.some.inj h
        exact ⟨by simp only; omega, hcalm', herrno⟩
      · obtain ⟨hret, hcalm'', herrno'⟩ := ih hcalm' h
        exact ⟨hret, hcalm'', herrno' ∘ herrno⟩
    · next tsd' net' hread =>
      obtain ⟨-, hcalm', -, herrno⟩ := myRead_calm hcalm hread
      split_ifs at h
      · obtain rfl := Option.some.inj h
        exact ⟨by simp, hcalm', herrno⟩
      · obtain rfl := Option.some.inj h
        exact ⟨by simp only; omega, hcalm', herrno⟩
    · next tsd' net' hread => exact absurd rfl (myRead_calm hcalm hread).1

theorem readlineLoop_some (room : ℕ) : ∀ {body rest stored : Bytes} {tsd : Rline} {net : Net},
    Calm net.reads → unread tsd net.conn = body ++ newline :: rest → body.length < room →
      body.length < moves net.reads → ∃ r, readlineLoop stored tsd net room = some r := by
  -- on the room that is left, which exceeds the rest of the line
  induction room with
  | zero => intro body rest stored tsd net _ _ hroom; omega
  | succ room ih =>
    intro body rest stored tsd net hcalm hunread hroom hmoves
    have hne : unread tsd net.conn ≠ [] := by simp [hunread]
    obtain ⟨⟨m, tsd', net'⟩, hread⟩ := myRead_some hcalm hne (Nat.zero_lt_of_lt hmoves)
    obtain ⟨hm, hcalm', hmoves', -⟩ := myRead_calm hcalm hread
    obtain ⟨hreads, -, hend⟩ := myRead_spec hread
    cases m with
    | error => exact absurd rfl hm
    | eof => simp [(hend rfl).1] at hunread
    | byte b =>
      have hstream := hreads.stream
      rw [hunread] at hstream
      unfold readlineLoop
      simp only [hread]
      by_cases hb : b = newline
      · rw [if_pos hb]
        exact ⟨_, rfl⟩
      · rw [if_neg hb]
        cases body with
        | nil =>
          obtain ⟨rfl, -⟩ := List.cons.inj hstream
          exact absurd rfl hb
        | cons a body =>
          obtain ⟨-, hstream⟩ := List.cons.inj hstream
          simp only [List.length_cons] at hroom hmoves
          exact ih hcalm' hstream (by omega) (by omega)

theorem readline_loop {maxlen : ℕ} (hmax : 1 < maxlen) {tsd : Rline} {net : Net} {r : Readline}
    (hcalm : Calm net.reads) (h : readline maxlen tsd net = some r) :
    r.ret ≠ -1 ∧ Calm r.net.reads ∧ (net.errno ≠ .ewouldblock → r.net.errno ≠ .ewouldblock) ∧
      LineLoop [] (maxlen - 1) tsd net r := by
  obtain ⟨hret, hcalm', herrno⟩ := readlineLoop_calm (maxlen - 1) hcalm h
  exact ⟨hret, hcalm', herrno, readlineLoop_spec (maxlen - 1) rfl (fun _ => by omega) h⟩

/-- On a connection that holds, `readline` returns the line at the front of the
stream, when it is there as a whole. -/
theorem readline_whole {maxlen : ℕ} {tsd : Rline} {net : Net} {r : Readline} {line rest : Bytes}
    (hcalm : Calm net.reads) (hunread : unread tsd net.conn = line ++ rest)
    (hwhole : Lines.Whole isNewline (maxlen - 1) line) (hne : line ≠ [])
    (h : readline maxlen tsd net = some r) :
    r.ret = line.length + (if endsLine line then 0 else 1) ∧ r.stored = line ∧
      unread r.tsd r.net.conn = rest ∧ Reads tsd net.conn line r.tsd r.net.conn ∧
      (net.errno ≠ .ewouldblock → r.net.errno ≠ .ewouldblock) := by
  have hmax : 1 < maxlen := by
    by_contra hsmall
    have hzero : maxlen - 1 = 0 := by omega
    have hpiece := hwhole.1
    rw [hzero, Lines.piece_zero] at hpiece
    exact hne hpiece.symm
  obtain ⟨hret, -, herrno, hloop⟩ := readline_loop hmax hcalm h
  obtain ⟨bs, hstored, hreads⟩ := hloop.reads
  rw [List.nil_append] at hstored
  -- neither an error nor the end of the stream, so the loop stored the whole line
  rcases hloop.ret with herr | ⟨-, -, hnil, -⟩ | ⟨hpos, -, hpiece, -⟩
  · exact absurd herr hret
  · rw [hunread] at hnil
    exact absurd (List.append_eq_nil_iff.mp hnil).1 hne
  · rw [List.nil_append, hunread, hwhole.piece_append] at hpiece
    obtain rfl : line = bs := hpiece.symm.trans hstored
    exact ⟨hpiece ▸ hpos, hpiece, List.append_cancel_left (hreads.stream.trans hunread), hreads,
      herrno⟩

/-- With no byte on an open connection it waits. -/
theorem readline_nil {maxlen : ℕ} (hmax : 1 < maxlen) {tsd : Rline} {net : Net}
    (hcalm : Calm net.reads) (heof : net.conn.eof = false) (hunread : unread tsd net.conn = []) :
    readline maxlen tsd net = none := by
  refine Option.eq_none_iff_forall_ne_some.mpr fun r h => ?_
  obtain ⟨hret, -, -, hloop⟩ := readline_loop hmax hcalm h
  obtain ⟨bs, hstored, hreads⟩ := hloop.reads
  rw [List.nil_append] at hstored
  have hbs : bs = [] := (List.append_eq_nil_iff.mp (hreads.stream.trans hunread)).1
  rcases hloop.ret with herr | ⟨-, -, -, hend⟩ | ⟨-, hne, -⟩
  · exact hret herr
  · simp [heof] at hend
  · exact hne (hstored.trans hbs)

/-- It does return when a line that fits is there and it may call often enough. -/
theorem readline_some {maxlen : ℕ} {tsd : Rline} {net : Net} {body rest : Bytes}
    (hcalm : Calm net.reads) (hunread : unread tsd net.conn = body ++ newline :: rest)
    (hlen : body.length < maxlen - 1) (hmoves : body.length < moves net.reads) :
    ∃ r, readline maxlen tsd net = some r :=
  readlineLoop_some (maxlen - 1) hcalm hunread hlen hmoves

end Readline

end Esif.Posix
