import Esif.Posix.Calm

/-!
# Reading a stream with `readline`

Successive calls of `readline` on one connection. `readline` takes its bytes from
a buffer that is filled again in the middle of lines; the calls store the pieces
of the stream all the same, whatever the single `read`s return. What a call
returns is one more than it stored when the piece does not end a line.

## Main definitions

* `readlines` — successive calls
* `Cut` — where a piece of the stream ends

## Main results

* `readlines_stream` — the calls store the pieces of the stream
* `readline_ret_iff` — when the result is the number of bytes stored
-/

namespace Esif.Posix

open Esif.CS

/-- Successive calls of `readline` on one connection, one for each of `maxlens`. -/
def readlines : List ℕ → Rline → Net → Option (List Readline)
  | [], _, _ => some []
  | maxlen :: maxlens, tsd, net => do
    let r ← readline maxlen tsd net
    let rs ← readlines maxlens r.tsd r.net
    return r :: rs

/-- A piece of the stream with `rest` behind it: it ends at its first newline, at
the bound, or with the stream. -/
inductive Cut (eof : Bool) (bound : ℕ) (piece rest : Bytes) : Prop
  | line {body : Bytes} (line : piece = body ++ [newline]) (first : newline ∉ body)
      (fits : piece.length ≤ bound)
  | full (part : newline ∉ piece) (fills : piece.length = bound)
  | last (part : newline ∉ piece) (fits : piece.length ≤ bound) (ends : rest = [])
      (closed : eof = true)

section

variable {maxlen : ℕ} {tsd : Rline} {net : Net} {r : Readline}

theorem newline_notMem_of_forall {bs : Bytes} (h : ∀ b ∈ bs, isNewline b = false) :
    newline ∉ bs := fun hmem => absurd (h newline hmem) (by decide)

/-- What one call stores. -/
theorem readline_piece (hmax : 2 ≤ maxlen) (hcalm : Calm net.reads)
    (h : readline maxlen tsd net = some r) :
    r.stored = Lines.piece isNewline (maxlen - 1) (unread tsd net.conn) ∧
      r.stored ++ unread r.tsd r.net.conn = unread tsd net.conn ∧
      r.net.conn.eof = net.conn.eof ∧
      Cut net.conn.eof (maxlen - 1) r.stored (unread r.tsd r.net.conn) ∧
      (r.ret = 0 → unread r.tsd r.net.conn = []) ∧ Calm r.net.reads := by
  obtain ⟨herr, hcalm', -, hloop⟩ := readline_loop hmax hcalm h
  obtain ⟨bs, hstored, hreads⟩ := hloop.reads
  obtain rfl : r.stored = bs := hstored
  have hstream := hreads.stream
  have hlen := Lines.piece_length_le isNewline (maxlen - 1) (unread tsd net.conn)
  -- an error is excluded; it met the end with nothing stored, or stored a piece
  rcases hloop.ret with hret | ⟨-, hnil, hunread, heof⟩ | ⟨hret, hne, hpiece, hset⟩
  · exact absurd hret herr
  · have hrest : unread r.tsd r.net.conn = [] := by
      rw [hunread] at hstream
      exact (List.append_eq_nil_iff.mp hstream).2
    have hcut : Cut net.conn.eof (maxlen - 1) r.stored (unread r.tsd r.net.conn) :=
      .last (by simp [hnil]) (by simp [hnil]) hrest heof
    exact ⟨by simp [hnil, hunread], hstream, hreads.eof, hcut, fun _ => hrest, hcalm'⟩
  · rw [List.nil_append] at hpiece
    have hpos : r.ret ≠ 0 := by
      have hlength := List.length_pos_iff.mpr hne
      split at hret <;> omega
    refine ⟨hpiece, hstream, hreads.eof, ?_, fun hzero => absurd hzero hpos, hcalm'⟩
    rw [← hpiece] at hset hlen
    rcases Lines.piece_ends isNewline (maxlen - 1) (unread tsd net.conn) with
      ⟨body, e, hline, hbody, he⟩ | ⟨hpart, -⟩
    · obtain rfl : e = newline := by simpa [isNewline] using he
      exact .line (hpiece.trans hline) (newline_notMem_of_forall hbody) hlen
    · rw [← hpiece] at hpart
      have hnotMem := newline_notMem_of_forall hpart
      rcases hset with (hfull | ⟨a, ha, hend⟩) | ⟨hrest, heof⟩
      · exact .full hnotMem hfull
      · simp [hpart a (List.mem_of_getLast? ha)] at hend
      · exact .last hnotMem hlen hrest heof

/-- Successive calls store the pieces of what is unread. -/
theorem readlines_pieces {maxlens : List ℕ} {rs : List Readline} (hmax : ∀ m ∈ maxlens, 2 ≤ m)
    (hcalm : Calm net.reads) (h : readlines maxlens tsd net = some rs) :
    rs.map Readline.stored =
        Lines.pieces isNewline (maxlens.map (· - 1)) (unread tsd net.conn) ∧
      ∀ i r maxlen, rs[i]? = some r → maxlens[i]? = some maxlen →
        Cut net.conn.eof (maxlen - 1) r.stored (unread r.tsd r.net.conn) ∧
        ((rs.take (i + 1)).map Readline.stored).flatten ++ unread r.tsd r.net.conn =
          unread tsd net.conn ∧
        (r.ret = 0 → unread r.tsd r.net.conn = []) := by
  -- on the calls; `tsd` carries over what one call has read too much
  induction maxlens generalizing tsd net rs with
  | nil =>
    obtain rfl := Option.some.inj h
    exact ⟨rfl, by simp⟩
  | cons maxlen maxlens ih =>
    simp only [readlines, Option.bind_eq_bind, Option.bind_eq_some_iff, Option.pure_def,
      Option.some.injEq] at h
    obtain ⟨r, hr, rest, hrest, rfl⟩ := h
    obtain ⟨hpiece, hstream, heof, hcut, hzero, hcalm'⟩ :=
      readline_piece (hmax maxlen (by simp)) hcalm hr
    obtain ⟨hpieces, hcuts⟩ := ih (fun m hm => hmax m (by simp [hm])) hcalm' hrest
    have hdrop : (unread tsd net.conn).drop r.stored.length = unread r.tsd r.net.conn := by
      rw [← hstream, List.drop_left' rfl]
    refine ⟨?_, fun i r' maxlen' hi hi' => ?_⟩
    · rw [List.map_cons, List.map_cons, Lines.pieces, ← hpiece, hdrop, hpieces]
    · cases i with
      | zero =>
        obtain rfl : r = r' := by simpa using hi
        obtain rfl : maxlen = maxlen' := by simpa using hi'
        exact ⟨hcut, by simpa using hstream, hzero⟩
      | succ i =>
        obtain ⟨hcut', hstream', hzero'⟩ := hcuts i r' maxlen' (by simpa using hi)
          (by simpa using hi')
        refine ⟨heof ▸ hcut', ?_, hzero'⟩
        rw [List.take_succ_cons, List.map_cons, List.flatten_cons, List.append_assoc, hstream',
          hstream]

/-! ### Calls on a stream that has ended -/

/-- On a stream that has ended, `my_read` returns when there are more calls to come
than bytes, and that stays so as long as it returns bytes. -/
theorem myRead_ended {k : ℕ} (hcalm : Calm net.reads) (heof : net.conn.eof = true)
    (hmoves : k + 1 + net.conn.inq.length ≤ moves net.reads) :
    ∃ m tsd' net', myRead tsd net = some (m, tsd', net') ∧ net'.conn.eof = true ∧
      k + net'.conn.inq.length ≤ moves net'.reads ∧
      (m ≠ .eof → k + 1 + net'.conn.inq.length ≤ moves net'.reads) := by
  unfold myRead
  split
  · exact ⟨_, _, _, rfl, heof, by omega, fun _ => hmoves⟩
  · obtain ⟨⟨m, tsd', net'⟩, hread⟩ :
      ∃ r, refill net.conn net.errno net.writes net.reads = some r :=
      refill_ended heof net.reads hcalm (by omega)
    obtain ⟨hm, -, hmoves', -⟩ := refill_calm net.reads hcalm hread
    obtain ⟨hreads, -, -⟩ := refill_spec net.reads hread
    have hstream := congrArg List.length (hreads 0).stream
    simp only [unread, List.nil_append, List.length_append] at hstream
    refine ⟨m, tsd', net', hread, (hreads 0).eof.trans heof, by omega, fun hne => ?_⟩
    cases m with
    | byte b =>
      simp only [MyRead.bytes, List.length_singleton] at hstream
      omega
    | eof => exact absurd rfl hne
    | error => exact absurd rfl hm

theorem readlineLoop_ended (room : ℕ) : ∀ {k : ℕ} {stored : Bytes} {tsd : Rline} {net : Net},
    Calm net.reads → net.conn.eof = true → k + 1 + net.conn.inq.length ≤ moves net.reads →
      ∃ r, readlineLoop stored tsd net room = some r ∧ r.net.conn.eof = true ∧
        k + r.net.conn.inq.length ≤ moves r.net.reads := by
  -- each round takes a byte or meets the end, so the `read`s suffice
  induction room with
  | zero =>
    intro k stored tsd net hcalm heof hmoves
    exact ⟨_, rfl, heof, by simp only; omega⟩
  | succ room ih =>
    intro k stored tsd net hcalm heof hmoves
    obtain ⟨m, tsd', net', hread, heof', hleft, hmore⟩ :=
      @myRead_ended tsd net k hcalm heof hmoves
    obtain ⟨hm, hcalm', -, -⟩ := myRead_calm hcalm hread
    unfold readlineLoop
    simp only [hread]
    cases m with
    | byte b =>
      by_cases hb : b = newline
      · exact ⟨_, if_pos hb, heof', hleft⟩
      · simp only [if_neg hb]
        exact ih hcalm' heof' (hmore (by simp))
    | eof =>
      by_cases hs : stored = []
      · exact ⟨_, if_pos hs, heof', hleft⟩
      · exact ⟨_, if_neg hs, heof', hleft⟩
    | error => exact absurd rfl hm

/-- Every call returns when there are enough `read`s. -/
theorem readlines_ended {maxlens : List ℕ} (hmax : ∀ m ∈ maxlens, 2 ≤ m) (hcalm : Calm net.reads)
    (heof : net.conn.eof = true)
    (hmoves : maxlens.length + net.conn.inq.length ≤ moves net.reads) :
    ∃ rs, readlines maxlens tsd net = some rs := by
  induction maxlens generalizing tsd net with
  | nil => exact ⟨[], rfl⟩
  | cons maxlen maxlens ih =>
    obtain ⟨r, hr, heof', hleft⟩ :=
      @readlineLoop_ended (maxlen - 1) _ [] tsd net hcalm heof hmoves
    have hcalm' := (readline_piece (hmax maxlen (by simp)) hcalm hr).2.2.2.2.2
    obtain ⟨rs, hrs⟩ := @ih r.tsd r.net (fun m hm => hmax m (by simp [hm])) hcalm' heof' hleft
    exact ⟨r :: rs, by simp [readlines, readline, hr, hrs]⟩

end

/-! ### The pieces and the results -/

/-- **What `readline` stores.** Successive calls on one connection, whatever the
single `read`s return: the contents they store are a function of the stream and of
the `maxlen`s. Each ends at its first newline, has `maxlen - 1` bytes, or is the last
before the end of the stream, and those stored so far make up the stream with the
bytes that are still to come. Once the stream has ended, enough `read`s let every
call return. -/
theorem readlines_stream (stream : Bytes) (eof : Bool) (errno : Errno) {reads : List Outcome}
    (hcalm : Calm reads) {maxlens : List ℕ} (hmax : ∀ m ∈ maxlens, 2 ≤ m) :
    let calls := readlines maxlens {} ⟨⟨stream, eof, 0⟩, errno, reads, []⟩
    (eof = true → maxlens.length + stream.length ≤ moves reads → calls.isSome) ∧
    ∀ rs, calls = some rs →
      rs.map Readline.stored = Lines.pieces isNewline (maxlens.map (· - 1)) stream ∧
      ∀ i r maxlen, rs[i]? = some r → maxlens[i]? = some maxlen →
        let soFar := ((rs.take (i + 1)).map Readline.stored).flatten
        Cut eof (maxlen - 1) r.stored (unread r.tsd r.net.conn) ∧
        soFar ++ unread r.tsd r.net.conn = stream ∧ (r.ret = 0 → soFar = stream) := by
  intro calls
  refine ⟨fun heof hmoves => ?_, fun rs hrs => ?_⟩
  · obtain ⟨rs, hrs⟩ := @readlines_ended {} ⟨⟨stream, eof, 0⟩, errno, reads, []⟩ maxlens hmax hcalm
      heof hmoves
    simp [calls, hrs]
  · obtain ⟨hpieces, hcuts⟩ := readlines_pieces hmax hcalm hrs
    refine ⟨hpieces, fun i r maxlen hi hi' => ?_⟩
    obtain ⟨hcut, hstream, hzero⟩ := hcuts i r maxlen hi hi'
    refine ⟨hcut, hstream, fun hret => ?_⟩
    rw [hzero hret, List.append_nil] at hstream
    exact hstream

/-- A line that is cut, and one that the end of the stream cuts. -/
theorem readlines_stream_sample :
    ∃ rs, readlines [3, 120, 120] {} ⟨⟨ascii "abc\nd", true, 0⟩, .ok,
        [.upTo 1, .fails .eintr, .upTo 3, .upTo 9, .upTo 9, .upTo 9, .upTo 9, .upTo 9, .upTo 9],
        []⟩ = some rs ∧
      rs.map Readline.stored = [ascii "ab", ascii "c\n", ascii "d"] := by
  have hreads := readlines_stream (ascii "abc\nd") true .ok
    (show Calm [.upTo 1, .fails .eintr, .upTo 3, .upTo 9, .upTo 9, .upTo 9, .upTo 9, .upTo 9,
      .upTo 9] by decide) (show ∀ m ∈ [3, 120, 120], 2 ≤ m by decide)
  obtain ⟨rs, hrs⟩ := Option.isSome_iff_exists.mp (hreads.1 rfl (by decide))
  exact ⟨rs, hrs, (hreads.2 rs hrs).1⟩

/-- **What `readline` returns.** When a call returns a positive number, it is the
number of bytes stored before the NUL exactly when there is a newline among the
first `maxlen - 1` bytes of the stream; otherwise it is one more. -/
theorem readline_ret_iff {maxlen : ℕ} (hmax : 2 ≤ maxlen) {tsd : Rline} {net : Net} {r : Readline}
    (h : readline maxlen tsd net = some r) (hret : 0 < r.ret) :
    (r.ret = r.stored.length ∧ r.ret ≤ maxlen - 1 ↔
      newline ∈ (unread tsd net.conn).take (maxlen - 1)) ∧
    (newline ∉ (unread tsd net.conn).take (maxlen - 1) → r.ret = r.stored.length + 1) := by
  have hloop := readlineLoop_spec (maxlen - 1) rfl (fun _ => by omega) h
  rcases hloop.ret with herr | ⟨hzero, -⟩ | ⟨hpos, -, hpiece, -⟩
  · omega
  · omega
  · rw [List.nil_append] at hpiece
    have hlen := Lines.piece_length_le isNewline (maxlen - 1) (unread tsd net.conn)
    rw [← hpiece] at hlen
    have hends : endsLine r.stored = true ↔ newline ∈ (unread tsd net.conn).take (maxlen - 1) := by
      have hpieces := Lines.exists_isEnd_piece_iff isNewline (maxlen - 1) (unread tsd net.conn)
      simpa [← hpiece, endsLine, isNewline] using hpieces
    rw [← hends]
    cases hline : endsLine r.stored
    · rw [hline] at hpos
      simp only [Bool.false_eq_true, if_false] at hpos
      refine ⟨iff_of_false (fun h => ?_) (by simp), fun _ => by exact_mod_cast hpos⟩
      omega
    · rw [hline] at hpos
      simp only [if_true] at hpos
      refine ⟨iff_of_true ⟨by omega, by omega⟩ rfl, fun h => absurd rfl h⟩

theorem readline_ret_iff_sample :
    ∃ r, readline 4 {} ⟨⟨ascii "ab\nc", true, 0⟩, .ok, [.upTo 9], []⟩ = some r ∧ 0 < r.ret ∧
      (r.ret = r.stored.length ∧ r.ret ≤ (4 : ℕ) - 1 ↔
        newline ∈ (unread {} (⟨ascii "ab\nc", true, 0⟩ : Conn)).take (4 - 1)) :=
  ⟨⟨3, ascii "ab\n", ⟨ascii "c", 3⟩, ⟨⟨[], true, 4⟩, .ok, [], []⟩⟩, by decide, by decide,
    (@readline_ret_iff 4 (by decide) {} ⟨⟨ascii "ab\nc", true, 0⟩, .ok, [.upTo 9], []⟩ _ (by decide)
      (by decide)).1⟩

/-- Two bytes before the end of the stream: three are reported. -/
theorem readline_ret_sample :
    ¬ ∀ maxlen tsd net r, 2 ≤ maxlen → readline maxlen tsd net = some r → 0 < r.ret →
      r.ret = r.stored.length ∧ r.ret ≤ maxlen - 1 := by
  intro h
  have hret := h 120 {} ⟨⟨ascii "ab", true, 0⟩, .ok, [.upTo 9, .upTo 9], []⟩
    ⟨3, ascii "ab", {}, ⟨⟨[], true, 2⟩, .ok, [], []⟩⟩ (by decide) (by decide) (by decide)
  exact absurd hret.1 (by decide)

end Esif.Posix
