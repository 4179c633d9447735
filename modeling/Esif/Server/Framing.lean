import Esif.Server.Login

/-!
# Payload is not taken for commands

A form body and a photo payload are parts of the same stream as the commands.
The command loop keeps clear of them as long as a body is left only at the line
that ends it and a payload only behind its last byte. The server leaves both
earlier on some of its ways out, and reads a payload past the bytes its line
buffer holds back.

## Main definitions

* `InBody`, `InPayload` — the positions of a stream inside a body or a payload
* `Framing` — what the commands of a session must have to do with them
* `Framed` — a step that does not leave a body or a payload too early
* `Aligned` — the invariant

## Main results

* `aligned_step` — one step keeps the invariant
* `framing` — the commands of a session that meets the condition
-/

namespace Esif.Server

open Esif.CS Esif.Posix

/-- A line that ends a body. -/
def isStop (line : Bytes) : Bool := line == ascii ".\n" || line == ascii "QUIT\n"

/-- The number of bytes a `BINARY` line declares: a negative number, which is a
large `size_t`, declares none. -/
def declared (imgsize : ℕ) : ℕ := if imgsize < 2 ^ 63 then imgsize else 0

/-- Where the line that the server has read up to `p` ends. -/
def lineEnd (stream : Bytes) (p : ℕ) : ℕ := Lines.lineEnd isNewline stream p

/-- Where the body behind the `FILENAME` line read up to `p` ends. -/
def bodyStop (stream : Bytes) (p : ℕ) : Option ℕ :=
  Lines.firstStop isNewline isStop stream (lineEnd stream p)

/-- The position `q` is in the body behind the `FILENAME` line read up to `p`. -/
def InBody (stream : Bytes) (p q : ℕ) : Prop :=
  lineEnd stream p ≤ q ∧ ∀ stop, bodyStop stream p = some stop → q < stop

/-- The position `q` is in the payload behind the `BINARY` line read up to `p`. -/
def InPayload (stream : Bytes) (p imgsize q : ℕ) : Prop :=
  lineEnd stream p ≤ q ∧ q < lineEnd stream p + declared imgsize

/-- Every line taken for a command begins outside every body and every payload,
and every body is left at the end of the line that ends it. -/
structure Framing (stream : Bytes) (es : List Event) : Prop where
  body : ∀ {start line q cmd}, .command start line ∈ es → ascii "FILENAME " <+: line →
    .command q cmd ∈ es → ¬ InBody stream (start + line.length) q
  payload : ∀ {p imgsize q cmd}, .payload p imgsize ∈ es → .command q cmd ∈ es →
    ¬ InPayload stream p imgsize q
  ended : ∀ {before stop after}, es = before ++ .bodyEnd stop :: after →
    ∃ es₁ start line es₂, before = es₁ ++ .command start line :: es₂ ∧
      (∀ q cmd, .command q cmd ∉ es₂) ∧ ascii "FILENAME " <+: line ∧
      bodyStop stream (start + line.length) = some stop

/-! ### The condition -/

/-- Bytes of the payload are still to be read when `offset` of them were. -/
def Session.Owes (s : Session) (imgsize offset : ℕ) : Prop :=
  offset < declared imgsize ∧ unread s.tsd s.conn ≠ []

instance (s : Session) (imgsize offset : ℕ) : Decidable (s.Owes imgsize offset) :=
  inferInstanceAs (Decidable (_ ∧ _))

/-- A `BINARY` line with a payload behind it was read whole and has a name. -/
def CommandFramed (s : Session) (t : Turn) : Prop :=
  ∀ r ∈ s.readline t.reads, ascii "BINARY " <+: r.2.1 → t.acceptimage = true →
    r.2.2.Owes (scanBinary (cstr (r.2.1.drop 7))).1 0 →
      endsLine r.2.1 ∧ (scanBinary (cstr (r.2.1.drop 7))).2 ≠ []

/-- What a `read` of `accept_binary` returns does not make it give up while
bytes of the payload are still to be read. -/
def ReadFramed (s : Session) (t : Turn) (imgsize offset : ℕ) : ReadResult × Conn → Prop
  | (.error e, _) => e = .eintr
  | (.data bs, conn) => t.ok ∨ ¬ { s with conn := conn }.Owes imgsize (offset + bs.length)

/-- The line buffer holds nothing of the payload back, the loop asks for more
than no bytes, and neither its `read` nor its `write` fails before the payload
was read. -/
def PayloadFramed (s : Session) (t : Turn) (nleft i offset : ℕ) : Prop :=
  (nleft ≠ 0 → s.tsd.buf = []) ∧
  (s.Owes ((nleft + offset) % 2 ^ 64) offset → blockSize nleft i ≠ 0 ∧
    ∀ o ∈ t.reads.head?, ∀ r ∈ s.conn.read (blockSize nleft i) o,
      ReadFramed s t ((nleft + offset) % 2 ^ 64) offset r)

/-- A part of a line that looks like the line that ends a body is that line, and
every other line is written and finds room in the record. -/
def BodyFramed (stream : Bytes) (s : Session) (t : Turn) : Prop :=
  ∀ r ∈ s.readline t.reads, 0 < r.1 →
    if isStop r.2.1 then Lines.AtStart isNewline stream s.linePos
    else t.ok = true ∧ s.regbuf.length < MAXINFOSIZE

/-- The step does not leave a body or a payload too early. -/
def FramedAt (stream : Bytes) (s : Session) (t : Turn) : Phase → Prop
  | .command => CommandFramed s t
  | .image imgsize => s.Owes imgsize 0 → t.ok = true
  | .payload nleft i offset => PayloadFramed s t nleft i offset
  | .body => BodyFramed stream s t
  | _ => True

def Framed (stream : Bytes) (s : Session) (t : Turn) : Prop := FramedAt stream s t s.phase

section Decidable

variable (stream : Bytes) (s : Session) (t : Turn)

instance : Decidable (CommandFramed s t) :=
  inferInstanceAs (Decidable (∀ r ∈ s.readline t.reads, _))

instance (imgsize offset : ℕ) : (r : ReadResult × Conn) →
    Decidable (ReadFramed s t imgsize offset r)
  | (.error e, _) => inferInstanceAs (Decidable (e = .eintr))
  | (.data _, _) => inferInstanceAs (Decidable (_ ∨ _))

instance (nleft i offset : ℕ) : Decidable (PayloadFramed s t nleft i offset) :=
  inferInstanceAs (Decidable (_ ∧ (_ → _ ∧ ∀ o ∈ t.reads.head?, _)))

instance : Decidable (BodyFramed stream s t) :=
  inferInstanceAs (Decidable (∀ r ∈ s.readline t.reads, _))

instance : (p : Phase) → Decidable (FramedAt stream s t p)
  | .command => inferInstanceAs (Decidable (CommandFramed s t))
  | .image imgsize => inferInstanceAs (Decidable (s.Owes imgsize 0 → _))
  | .payload nleft i offset => inferInstanceAs (Decidable (PayloadFramed s t nleft i offset))
  | .body => inferInstanceAs (Decidable (BodyFramed stream s t))
  | .magic | .user | .pass | .setup | .imageReply _ | .close | .insert | .reply | .abandon _ | .done
  | .fault => isTrue trivial

instance : Decidable (Framed stream s t) := inferInstanceAs (Decidable (FramedAt _ _ _ _))

end Decidable

/-! ### The invariant -/

/-- The event marks a command, a payload or the end of a body. -/
def Event.IsTurning : Event → Prop
  | .command _ _ => True
  | .payload _ _ => True
  | .bodyEnd _ => True
  | _ => False

/-- The stream goes on where the session stands. -/
structure Session.Tracks (stream : Bytes) (s : Session) : Prop where
  joined : Joined s.tsd s.conn
  unread : unread s.tsd s.conn = stream.drop s.linePos

/-- Every command began before this position. -/
def Behind (es : List Event) (pos : ℕ) : Prop := ∀ q cmd, .command q cmd ∈ es → q < pos

/-- Every body and every payload ends before or at this position. -/
structure Closed (stream : Bytes) (es : List Event) (pos : ℕ) : Prop where
  body : ∀ {start line}, .command start line ∈ es → ascii "FILENAME " <+: line →
    ∃ stop ≤ pos, bodyStop stream (start + line.length) = some stop
  payload : ∀ {p imgsize}, .payload p imgsize ∈ es →
    declared imgsize = 0 ∨ lineEnd stream p + declared imgsize ≤ pos

/-- The session is in the body of its last command, with `seen` read of the
line it stands in. -/
structure Open (stream : Bytes) (es : List Event) (pos : ℕ) (start : ℕ) (line seen : Bytes)
    (es₁ es₂ : List Event) : Prop where
  split : es = es₁ ++ .command start line :: es₂
  quiet : ∀ e ∈ es₂, ¬ e.IsTurning
  form : ascii "FILENAME " <+: line
  closed : Closed stream es₁ pos
  stop : bodyStop stream (start + line.length) =
    (Lines.stopAfter isNewline isStop seen (stream.drop pos)).map (· + pos)
  starts : Lines.AtStart isNewline stream pos → seen = []
  inside : seen = [] ∨ ∀ part, isStop (seen ++ part) = false

/-- All bodies and payloads end before or at this position, or the stream does. -/
def Clear (stream : Bytes) (s : Session) (es : List Event) (pos : ℕ) : Prop :=
  Closed stream es pos ∨ unread s.tsd s.conn = []

/-- What each place of the session says about the bodies and payloads so far. -/
def ModeAt (stream : Bytes) (s : Session) (es : List Event) : Phase → Prop
  | .magic | .user | .pass => s.tsd.buf = [] ∧ Closed stream es s.linePos
  | .image imgsize => imgsize < 2 ^ 64 ∧ Clear stream s es (s.linePos + declared imgsize)
  | .payload nleft i offset => nleft < 2 ^ 64 ∧ i ≤ MAXINFOSIZE ∧
      Clear stream s es (s.linePos + (declared ((nleft + offset) % 2 ^ 64) - offset))
  | .body => ∃ start line seen es₁ es₂, Open stream es s.linePos start line seen es₁ es₂
  | .abandon true | .done | .fault => True
  | _ => Clear stream s es s.linePos

/-- The invariant: the commands so far are framed, and while the session goes on
it knows where it stands. -/
structure Aligned (stream : Bytes) (s : Session) (es : List Event) : Prop where
  framing : Framing stream es
  going : s.Stopped ∨
    s.Tracks stream ∧ Behind es s.linePos ∧ ModeAt stream s es s.phase

/-! ### Marks -/

section Marks

variable {stream : Bytes} {es new : List Event} {pos pos' start : ℕ} {line : Bytes}

theorem Closed.mono (h : Closed stream es pos) (hle : pos ≤ pos') : Closed stream es pos' where
  body hc hline := by
    obtain ⟨stop, hstop, heq⟩ := h.body hc hline
    exact ⟨stop, hstop.trans hle, heq⟩
  payload hp := (h.payload hp).imp_right fun hend => hend.trans hle

theorem closed_nil (stream : Bytes) (pos : ℕ) : Closed stream [] pos := ⟨by simp, by simp⟩

/-- Events that are no marks do not matter. -/
theorem Closed.append (h : Closed stream es pos) (hnew : ∀ e ∈ new, ¬ e.IsTurning) :
    Closed stream (es ++ new) pos where
  body hc hline := by
    rcases List.mem_append.mp hc with hc | hc
    · exact h.body hc hline
    · exact absurd trivial (hnew _ hc)
  payload hp := by
    rcases List.mem_append.mp hp with hp | hp
    · exact h.payload hp
    · exact absurd trivial (hnew _ hp)

theorem Behind.mono (h : Behind es pos) (hle : pos ≤ pos') : Behind es pos' :=
  fun q cmd hc => (h q cmd hc).trans_le hle

/-- Events that are no commands do not matter. -/
theorem Behind.append (h : Behind es pos) (hnew : ∀ q cmd, .command q cmd ∉ new) :
    Behind (es ++ new) pos := fun q cmd hc =>
  (List.mem_append.mp hc).elim (h q cmd) fun hc => absurd hc (hnew q cmd)

theorem not_command_of_not_isTurning (hnew : ∀ e ∈ new, ¬ e.IsTurning) (q : ℕ) (cmd : Bytes) :
    .command q cmd ∉ new := fun hc => hnew _ hc trivial

/-- An event of the first part of a list is followed by that part's own rest. -/
theorem split_of_not_mem {a b before after : List Event} {e : Event} (he : e ∉ b)
    (h : a ++ b = before ++ e :: after) : ∃ after', a = before ++ e :: after' := by
  rcases List.append_eq_append_iff.mp h with ⟨c, hbefore, hb⟩ | ⟨c, ha, hrest⟩
  · exact absurd (by simp [hb]) he
  · cases c with
    | nil =>
      rw [List.nil_append] at hrest
      exact absurd (by simp [← hrest]) he
    | cons e' c =>
      obtain ⟨rfl, -⟩ := List.cons.inj hrest
      exact ⟨c, ha⟩

/-- The ends of the bodies of a list are those of its first part when the second
part holds none. -/
theorem Framing.ended_append (h : Framing stream es) (hnew : ∀ stop, .bodyEnd stop ∉ new)
    {before after : List Event} {stop : ℕ} (heq : es ++ new = before ++ .bodyEnd stop :: after) :
    ∃ es₁ start line es₂, before = es₁ ++ .command start line :: es₂ ∧
      (∀ q cmd, .command q cmd ∉ es₂) ∧ ascii "FILENAME " <+: line ∧
      bodyStop stream (start + line.length) = some stop := by
  obtain ⟨after', hes⟩ := split_of_not_mem (hnew stop) heq
  exact h.ended hes

/-- Events that are no marks do not matter. -/
theorem Framing.append (h : Framing stream es) (hnew : ∀ e ∈ new, ¬ e.IsTurning) :
    Framing stream (es ++ new) where
  body hc hline hq := by
    have old : ∀ {q cmd}, Event.command q cmd ∈ es ++ new → Event.command q cmd ∈ es :=
      fun hc => (List.mem_append.mp hc).resolve_right (not_command_of_not_isTurning hnew _ _)
    exact h.body (old hc) hline (old hq)
  payload hp hq := by
    have oldp := (List.mem_append.mp hp).resolve_right fun hp => hnew _ hp trivial
    have oldq := (List.mem_append.mp hq).resolve_right (not_command_of_not_isTurning hnew _ _)
    exact h.payload oldp oldq
  ended heq := h.ended_append (fun stop hmem => hnew _ hmem trivial) heq

/-- A command behind all bodies and payloads. -/
theorem Framing.command (h : Framing stream es) (hclosed : Closed stream es pos)
    (hbehind : Behind es pos) (hne : line ≠ []) :
    Framing stream (es ++ [.command pos line]) where
  body {start form q cmd} hc hform hq := by
    rintro ⟨hfrom, hto⟩
    have hend := Lines.le_lineEnd isNewline stream (start + form.length)
    have hlen : 0 < line.length := List.length_pos_iff.mpr hne
    rw [lineEnd] at hfrom
    simp only [List.mem_append, List.mem_singleton, Event.command.injEq] at hc hq
    rcases hc with hc | ⟨rfl, rfl⟩ <;> rcases hq with hq | ⟨rfl, rfl⟩
    · exact h.body hc hform hq ⟨hfrom, hto⟩
    · obtain ⟨stop, hstop, heq⟩ := hclosed.body hc hform
      have := hto stop heq
      omega
    · have := hbehind q cmd hq
      omega
    · omega
  payload {p imgsize q cmd} hp hq := by
    have oldp : .payload p imgsize ∈ es := by simpa using hp
    simp only [List.mem_append, List.mem_singleton, Event.command.injEq] at hq
    rcases hq with hq | ⟨rfl, rfl⟩
    · exact h.payload oldp hq
    · rintro ⟨hfrom, hto⟩
      rcases hclosed.payload oldp with hnone | hend <;> omega
  ended heq := h.ended_append (by simp) heq

/-- A command that is no form closes at once. -/
theorem Closed.command (h : Closed stream es pos) (hform : ¬ ascii "FILENAME " <+: line)
    (hle : pos ≤ pos') : Closed stream (es ++ [.command pos line]) pos' where
  body hc hline := by
    simp only [List.mem_append, List.mem_singleton, Event.command.injEq] at hc
    rcases hc with hc | ⟨rfl, rfl⟩
    · exact (h.mono hle).body hc hline
    · exact absurd hline hform
  payload hp := (h.mono hle).payload (by simpa using hp)

theorem Behind.command (h : Behind es pos) (hlt : pos < pos') :
    Behind (es ++ [.command pos line]) pos' := by
  intro q cmd hc
  simp only [List.mem_append, List.mem_singleton, Event.command.injEq] at hc
  rcases hc with hc | ⟨rfl, -⟩
  · exact (h q cmd hc).trans hlt
  · exact hlt

/-- A payload behind all commands. -/
theorem Framing.photo (h : Framing stream es) (hbehind : Behind es pos) (imgsize : ℕ) :
    Framing stream (es ++ [.payload pos imgsize]) where
  body hc hform hq := h.body (by simpa using hc) hform (by simpa using hq)
  payload {p size q cmd} hp hq := by
    have oldq : .command q cmd ∈ es := by simpa using hq
    simp only [List.mem_append, List.mem_singleton, Event.payload.injEq] at hp
    rcases hp with hp | ⟨rfl, rfl⟩
    · exact h.payload hp oldq
    · rintro ⟨hfrom, -⟩
      have hend := Lines.le_lineEnd isNewline stream p
      rw [lineEnd] at hfrom
      have := hbehind q cmd oldq
      omega
  ended heq := h.ended_append (by simp) heq

/-- A payload closes behind its last byte. -/
theorem Closed.photo (h : Closed stream es pos') {imgsize : ℕ}
    (hend : declared imgsize = 0 ∨ lineEnd stream pos + declared imgsize ≤ pos') :
    Closed stream (es ++ [.payload pos imgsize]) pos' where
  body hc hline := h.body (by simpa using hc) hline
  payload hp := by
    simp only [List.mem_append, List.mem_singleton, Event.payload.injEq] at hp
    rcases hp with hp | ⟨rfl, rfl⟩
    · exact h.payload hp
    · exact hend

end Marks

/-! ### Standing in the stream -/

section Tracks

variable {stream : Bytes} {s m : Session} {ret : ℤ} {line : Bytes}

/-- A line that was read is the next part of the stream. -/
theorem Session.Tracks.readline (h : s.Tracks stream) (hread : s.LineRead ret line m) :
    m.Tracks stream ∧ m.linePos = s.linePos + line.length := by
  have hpos : m.linePos = s.linePos + line.length := hread.reads.position h.joined
  refine ⟨⟨hread.reads.joined h.joined, ?_⟩, hpos⟩
  have hstream := hread.reads.stream
  rw [h.unread] at hstream
  rw [hpos, ← List.drop_drop, ← hstream, List.drop_left]

/-- Bytes read around an empty line buffer are the next part of the stream. -/
theorem Session.Tracks.took (h : s.Tracks stream) (hbuf : s.tsd.buf = []) {bs : Bytes}
    {conn : Conn} (htook : s.conn.Took bs conn) :
    { s with conn := conn }.Tracks stream ∧
      { s with conn := conn }.linePos = s.linePos + bs.length := by
  have hpos : { s with conn := conn }.linePos = s.linePos + bs.length := by
    simpa [Session.linePos, position, hbuf] using htook.pos
  refine ⟨⟨Or.inl hbuf, ?_⟩, hpos⟩
  have hstream : s.conn.inq = stream.drop s.linePos := by
    simpa [Posix.unread, hbuf] using h.unread
  rw [hpos, ← List.drop_drop, ← hstream, ← htook.stream, List.drop_left]
  simp [Posix.unread, hbuf]

/-- A line that was read leaves bytes unread only if some were. -/
theorem Session.LineRead.unread_ne (h : s.LineRead ret line m) (hret : 0 < ret) :
    line ≠ [] ∧ unread s.tsd s.conn ≠ [] := by
  have hne : line ≠ [] := by
    rcases h.ret with herr | ⟨hzero, -⟩ | ⟨-, hne, -⟩
    · omega
    · omega
    · exact hne
  refine ⟨hne, fun hnil => ?_⟩
  have hstream := h.reads.stream
  rw [hnil, List.append_eq_nil_iff] at hstream
  exact hne hstream.1

theorem atStart_iff_endsLine (htracks : s.Tracks stream) (hread : s.LineRead ret line m)
    (hne : line ≠ []) :
    Lines.AtStart isNewline stream (s.linePos + line.length) ↔ endsLine line = true := by
  have hdrop : stream.drop s.linePos = line ++ unread m.tsd m.conn := by
    rw [← htracks.unread, hread.reads.stream]
  rw [Lines.atStart_add isNewline hdrop hne]
  simp [endsLine, isNewline]

theorem lineEnd_of_endsLine (htracks : s.Tracks stream) (hread : s.LineRead ret line m)
    (hne : line ≠ []) (hends : endsLine line = true) :
    lineEnd stream (s.linePos + line.length) = s.linePos + line.length := by
  rw [lineEnd, Lines.lineEnd, if_pos ((atStart_iff_endsLine htracks hread hne).mpr hends)]

end Tracks

/-! ### Bodies -/

section Body

variable {stream : Bytes} {s m : Session} {ret : ℤ} {line form seen : Bytes} {start pos : ℕ}
  {es es₁ es₂ new : List Event}

theorem isStop_iff {line : Bytes} :
    isStop line = true ↔ line = ascii ".\n" ∨ line = ascii "QUIT\n" := by
  simp [isStop]

theorem isStop_of_length {line : Bytes} (h : 5 < line.length) : isStop line = false := by
  have hdot : line ≠ ascii ".\n" := fun heq => by simp [heq, ascii] at h
  have hquit : line ≠ ascii "QUIT\n" := fun heq => by simp [heq, ascii] at h
  simp [isStop, hdot, hquit]

/-- A body opens behind its `FILENAME` line. -/
theorem Open.of_form (htracks : s.Tracks stream) (hread : s.LineRead ret line m) (hret : 0 < ret)
    (hform : ascii "FILENAME " <+: line) (hclosed : Closed stream es s.linePos)
    (hnew : ∀ e ∈ new, ¬ e.IsTurning) :
    ∃ seen, Open stream (es ++ .command s.linePos line :: new) m.linePos s.linePos line seen es
      new := by
  obtain ⟨hne, -⟩ := hread.unread_ne hret
  have hstarts := atStart_iff_endsLine htracks hread hne
  have hlen : 9 ≤ line.length := hform.length_le
  -- a `FILENAME` line that was cut is longer than any line that ends a body
  have hinside : ∀ part, isStop (line ++ part) = false := fun part =>
    isStop_of_length (by rw [List.length_append]; omega)
  rw [(htracks.readline hread).2]
  refine ⟨if endsLine line then [] else line, rfl, hnew, hform, hclosed.mono (by omega), ?_, ?_, ?_⟩
  · refine Lines.firstStop_lineEnd isNewline isStop (fun hat => ?_) (fun hat => ?_)
    · rw [if_pos (hstarts.mp hat)]
    · rw [if_neg (fun hends => hat (hstarts.mpr hends))]
      exact hinside
  · intro hat
    rw [if_pos (hstarts.mp hat)]
  · split
    · exact Or.inl rfl
    · exact Or.inr hinside

/-- A line that does not end the body leaves it open. -/
theorem Open.next_line (h : Open stream es s.linePos start form seen es₁ es₂)
    (htracks : s.Tracks stream) (hread : s.LineRead ret line m) (hret : 0 < ret)
    (hline : isStop line = false) (hnew : ∀ e ∈ new, ¬ e.IsTurning) :
    ∃ seen, Open stream (es ++ new) m.linePos start form seen es₁ (es₂ ++ new) := by
  obtain ⟨hne, -⟩ := hread.unread_ne hret
  have hstarts := atStart_iff_endsLine htracks hread hne
  obtain ⟨hpiece, hsettled⟩ : line = Lines.piece isNewline (MAXLINE - 1) (unread s.tsd s.conn) ∧
      (Lines.Settled isNewline (MAXLINE - 1) line ∨ unread m.tsd m.conn = [] ∧ s.conn.eof) := by
    rcases hread.ret with herr | ⟨hzero, -⟩ | ⟨-, -, hpiece⟩
    · omega
    · omega
    · exact hpiece
  obtain ⟨seen', hcount, hstart', hinside⟩ :=
    Lines.stopAfter_piece isNewline isStop (n := MAXLINE - 1) (hpiece ▸ hread.reads.stream)
      (fun l part hl => isStop_of_length (by rw [List.length_append, hl, MAXLINE]; omega))
      h.inside (hpiece ▸ hline) (hpiece ▸ hsettled.imp_right And.left)
  have hpos := (htracks.readline hread).2
  refine ⟨seen', ?_, ?_, h.form, ?_, ?_, ?_, hinside⟩
  · rw [h.split, List.append_assoc, List.cons_append]
  · intro e he
    exact (List.mem_append.mp he).elim (h.quiet e) (hnew e)
  · exact h.closed.mono (by omega)
  · rw [h.stop, ← htracks.unread, hcount, ← (htracks.readline hread).1.unread, ← hpiece,
      Option.map_map, hpos]
    congr 1
    funext n
    simp only [Function.comp_apply]
    omega
  · intro hat
    rw [hpos, hstarts] at hat
    refine hstart' ⟨newline, ?_, rfl⟩
    simpa [endsLine, ← hpiece] using hat

/-- The line that ends the body is the first one that does. -/
theorem Open.stop_line (h : Open stream es s.linePos start form seen es₁ es₂)
    (htracks : s.Tracks stream) (hread : s.LineRead ret line m) (hret : 0 < ret)
    (hline : isStop line = true) (hat : Lines.AtStart isNewline stream s.linePos) :
    bodyStop stream (start + form.length) = some m.linePos := by
  have hpiece : line = Lines.piece isNewline (MAXLINE - 1) (unread s.tsd s.conn) := by
    rcases hread.ret with herr | ⟨hzero, -⟩ | ⟨-, -, hpiece, -⟩
    · omega
    · omega
    · exact hpiece
  have hends : ∃ b ∈ line, isNewline b = true := by
    refine ⟨newline, ?_, rfl⟩
    rcases isStop_iff.mp hline with rfl | rfl <;> decide
  have hstop := Lines.stopAfter_of_stop isNewline isStop (hpiece ▸ hline) (hpiece ▸ hends)
  rw [h.stop, h.starts hat, ← htracks.unread, hstop, ← hpiece, (htracks.readline hread).2]
  simp [Nat.add_comm]

/-- A body that has ended leaves everything closed. -/
theorem Open.closed_of_stop (h : Open stream es s.linePos start form seen es₁ es₂)
    (hstop : bodyStop stream (start + form.length) = some pos) (hle : s.linePos ≤ pos) :
    Closed stream es pos := by
  have hclosed : Closed stream (es₁ ++ [.command start form]) pos := by
    refine ⟨fun hc hline => ?_, fun hp => ?_⟩
    · simp only [List.mem_append, List.mem_singleton, Event.command.injEq] at hc
      rcases hc with hc | ⟨rfl, rfl⟩
      · exact (h.closed.mono hle).body hc hline
      · exact ⟨pos, le_rfl, hstop⟩
    · exact (h.closed.mono hle).payload (by simpa using hp)
  have hsplit : es = es₁ ++ [.command start form] ++ es₂ := by
    rw [h.split, List.append_assoc, List.singleton_append]
  rw [hsplit]
  exact hclosed.append h.quiet

/-- A body is left at the end of the line that ends it. -/
theorem Framing.left (hframing : Framing stream es)
    (h : Open stream es s.linePos start form seen es₁ es₂)
    (hstop : bodyStop stream (start + form.length) = some pos) (hnew : ∀ e ∈ new, ¬ e.IsTurning) :
    Framing stream (es ++ (new ++ [.bodyEnd pos])) := by
  have hquiet := hframing.append hnew
  rw [← List.append_assoc]
  refine ⟨fun hc hline hq => ?_, fun hp hq => ?_, fun {before stop after} heq => ?_⟩
  · exact hquiet.body (by simpa using hc) hline (by simpa using hq)
  · exact hquiet.payload (by simpa using hp) (by simpa using hq)
  · rcases List.eq_nil_or_concat after with rfl | ⟨after, e, rfl⟩
    · -- the end is the new one
      obtain ⟨rfl, hend⟩ := List.append_inj' heq rfl
      obtain rfl := Event.bodyEnd.inj (List.singleton_inj.mp hend)
      refine ⟨es₁, start, form, es₂ ++ new, ?_, fun q cmd hc => ?_, h.form, hstop⟩
      · rw [h.split, List.append_assoc, List.cons_append]
      · rcases List.mem_append.mp hc with hc | hc
        · exact h.quiet _ hc trivial
        · exact hnew _ hc trivial
    · -- the end is one of the old ones
      rw [List.concat_eq_append, ← List.cons_append, ← List.append_assoc] at heq
      obtain ⟨hold, -⟩ := List.append_inj' heq rfl
      exact hquiet.ended hold

end Body

/-! ### One step -/

section Step

variable {env : Env} {stream : Bytes} {s s' m : Session} {t : Turn} {es new : List Event} {ret : ℤ}
  {line : Bytes}

theorem Clear.mono {pos pos' : ℕ} (h : Clear stream s es pos) (hle : pos ≤ pos') :
    Clear stream s es pos' := h.imp_left fun hclosed => hclosed.mono hle

theorem Clear.append {pos : ℕ} (h : Clear stream s es pos) (hnew : ∀ e ∈ new, ¬ e.IsTurning) :
    Clear stream s (es ++ new) pos := h.imp_left fun hclosed => hclosed.append hnew

/-- What is clear behind a payload is clear already when none of it is owed. -/
theorem Clear.of_not_owes {pos imgsize offset : ℕ} (howes : ¬ s.Owes imgsize offset)
    (h : Clear stream s es (pos + (declared imgsize - offset))) : Clear stream s es pos := by
  by_cases hunread : unread s.tsd s.conn = []
  · exact Or.inr hunread
  · simp only [Session.Owes, ne_eq, hunread, not_false_eq_true, and_true] at howes
    exact h.mono (by omega)

theorem scanBinary_lt (args : Bytes) : (scanBinary args).1 < 2 ^ 64 := by
  unfold scanBinary
  split
  · simp
  · simp only
    omega

/-- A session that stops has only its framing to keep. -/
theorem Aligned.stop (hframing : Framing stream (es ++ new)) (hstop : s'.Stopped) :
    Aligned stream s' (es ++ new) := ⟨hframing, Or.inl hstop⟩

/-- What holds when the command loop has taken a line. -/
structure Taken (stream : Bytes) (s : Session) (line : Bytes) (m : Session) (es : List Event) :
    Prop where
  closed : Closed stream es s.linePos
  framing : Framing stream (es ++ [.command s.linePos line])
  behind : Behind (es ++ [.command s.linePos line]) m.linePos
  tracks : m.Tracks stream
  pos : m.linePos = s.linePos + line.length

theorem taken_of_readline (hframing : Framing stream es) (htracks : s.Tracks stream)
    (hbehind : Behind es s.linePos) (hclear : Clear stream s es s.linePos)
    (hread : s.LineRead ret line m) (hret : 0 < ret) : Taken stream s line m es := by
  obtain ⟨hne, hunread⟩ := hread.unread_ne hret
  have hclosed := hclear.resolve_right hunread
  obtain ⟨htracks', hpos⟩ := htracks.readline hread
  have hlen : 0 < line.length := List.length_pos_iff.mpr hne
  exact ⟨hclosed, hframing.command hclosed hbehind hne, hbehind.command (by omega), htracks', hpos⟩

/-- A photo behind all commands, closed behind its payload if its line was read
whole. -/
theorem Taken.photo (h : Taken stream s line m es) (hphoto : ascii "BINARY " <+: line)
    (sent : Bytes) (imgsize : ℕ) :
    let photo := es ++ [.command s.linePos line, .send sent, .payload m.linePos imgsize]
    Framing stream photo ∧ Behind photo m.linePos ∧
      ((m.Owes imgsize 0 → lineEnd stream m.linePos = m.linePos) →
        Clear stream m photo (m.linePos + declared imgsize)) := by
  intro photo
  have hsplit : photo =
      es ++ [.command s.linePos line] ++ [.send sent] ++ [.payload m.linePos imgsize] := by
    simp [photo]
  have hquiet : ∀ e ∈ [Event.send sent], ¬ e.IsTurning := by simp [Event.IsTurning]
  have hbehind := h.behind.append (not_command_of_not_isTurning hquiet)
  have hclosed : Closed stream (es ++ [.command s.linePos line] ++ [.send sent])
      (m.linePos + declared imgsize) :=
    (h.closed.command (not_form_of_photo hphoto) (by rw [h.pos]; omega)).append hquiet
  rw [hsplit]
  refine ⟨(h.framing.append hquiet).photo hbehind imgsize, hbehind.append (by simp), fun hend => ?_⟩
  by_cases howes : m.Owes imgsize 0
  · exact Or.inl (hclosed.photo (Or.inr (by rw [hend howes])))
  · by_cases hunread : unread m.tsd m.conn = []
    · exact Or.inr hunread
    · simp only [Session.Owes, ne_eq, hunread, not_false_eq_true, and_true] at howes
      exact Or.inl (hclosed.photo (Or.inl (by omega)))

theorem CommandStep.aligned (hframing : Framing stream es) (htracks : s.Tracks stream)
    (hbehind : Behind es s.linePos) (hclear : Clear stream s es s.linePos)
    (hframed : CommandFramed s t) (h : CommandStep s t s' new) : Aligned stream s' (es ++ new) := by
  -- whichever command it is, the line was taken where no form and no payload is open
  have taken : ∀ {ret line m}, s.readline t.reads = some (ret, line, m) → 0 < ret →
      Taken stream s line m es := fun hread hret =>
    taken_of_readline hframing htracks hbehind hclear (Session.readline_cases hread) hret
  cases h with
  | leave hread hes =>
    refine .stop ?_ (Or.inl rfl)
    rcases hes with rfl | ⟨hret, rfl⟩
    · simpa using hframing
    · exact (taken hread hret).framing
  | @refused ret line m errno sent hread hret hphoto =>
    have hline := taken hread (by omega)
    have hsplit : es ++ [.command s.linePos line, .send sent] =
        es ++ [.command s.linePos line] ++ [.send sent] := by simp
    have hquiet : ∀ e ∈ [Event.send sent], ¬ e.IsTurning := by simp [Event.IsTurning]
    rw [hsplit]
    refine ⟨hline.framing.append hquiet, Or.inr ⟨⟨hline.tracks.joined, hline.tracks.unread⟩,
      hline.behind.append (by simp), Or.inl (Closed.append ?_ hquiet)⟩⟩
    exact hline.closed.command (not_form_of_photo hphoto)
      (show s.linePos ≤ m.linePos by rw [hline.pos]; omega)
  | @unnamed ret line m errno sent imgsize hread hret hphoto hon hscan =>
    have hline := taken hread (by omega)
    obtain ⟨hframing', hbehind', hclear'⟩ := hline.photo hphoto sent imgsize
    -- a photo without a name is never read: nothing of it may be owed
    have howes : ¬ m.Owes imgsize 0 := fun howes =>
      (hframed _ hread hphoto hon (by rwa [hscan])).2 (by rw [hscan])
    refine ⟨hframing', Or.inr ⟨⟨hline.tracks.joined, hline.tracks.unread⟩, hbehind', ?_⟩⟩
    exact (hclear' fun h => absurd h howes).of_not_owes howes
  | @overlong ret line m errno sent imgsize tmpname hread hret hphoto hscan =>
    exact .stop ((taken hread (by omega)).photo hphoto sent imgsize).1 (Or.inr rfl)
  | @image ret line m errno sent imgsize tmpname hread hret hphoto hon hscan hname hlen =>
    have hline := taken hread (by omega)
    obtain ⟨hframing', hbehind', hclear'⟩ := hline.photo hphoto sent imgsize
    refine ⟨hframing', Or.inr ⟨⟨hline.tracks.joined, hline.tracks.unread⟩, hbehind', ?_, ?_⟩⟩
    · have hsize := scanBinary_lt (cstr (line.drop 7))
      rwa [hscan] at hsize
    · refine hclear' fun howes => ?_
      obtain ⟨hends, -⟩ := hframed _ hread hphoto hon (by rwa [hscan])
      have hread := Session.readline_cases hread
      rw [hline.pos]
      exact lineEnd_of_endsLine htracks hread (hread.unread_ne (by omega)).1 hends
  | misnamed hread hret hform => exact .stop (taken hread (by omega)).framing (Or.inr rfl)
  | closed hread hret hform => exact .stop (taken hread (by omega)).framing (Or.inl rfl)
  | @form ret line m tmpname hread hret hform hscan hlen hok =>
    have hline := taken hread (by omega)
    have hquiet : ∀ e ∈ [Event.openTrunc (m.txtdir ++ tmpname)], ¬ e.IsTurning := by
      simp [Event.IsTurning]
    obtain ⟨seen, hopen⟩ := Open.of_form htracks (Session.readline_cases hread) (by omega) hform
      hline.closed hquiet
    refine ⟨?_, Or.inr ⟨⟨hline.tracks.joined, hline.tracks.unread⟩, ?_, _, _, _, _, _, hopen⟩⟩
    · simpa using hline.framing.append hquiet
    · have hbehind' := hline.behind.append (not_command_of_not_isTurning hquiet)
      rw [List.append_assoc] at hbehind'
      exact hbehind'

/-- Bytes of a payload that were read are owed no more. -/
theorem Clear.took {size offset : ℕ} (h : Clear stream s es (s.linePos + (size - offset)))
    (htracks : s.Tracks stream) (hbuf : s.tsd.buf = []) {bs : Bytes} {conn : Conn}
    (htook : s.conn.Took bs conn) :
    Clear stream { s with conn := conn } es
      ({ s with conn := conn }.linePos + (size - (offset + bs.length))) := by
  rw [(htracks.took hbuf htook).2]
  rcases h with hclosed | hunread
  · exact Or.inl (hclosed.mono (by omega))
  · refine Or.inr ?_
    have hstream := htook.stream
    simp only [unread, hbuf, List.nil_append] at hunread ⊢
    rw [hunread, List.append_eq_nil_iff] at hstream
    exact hstream.2

theorem not_owes_of_took {imgsize offset : ℕ} (howes : ¬ s.Owes imgsize offset)
    (hbuf : s.tsd.buf = []) {bs : Bytes} {conn : Conn} (htook : s.conn.Took bs conn) :
    ¬ { s with conn := conn }.Owes imgsize (offset + bs.length) := by
  rintro ⟨hlt, hunread⟩
  refine howes ⟨by omega, fun hnil => hunread ?_⟩
  have hstream := htook.stream
  simp only [unread, hbuf, List.nil_append] at hnil ⊢
  rw [hnil, List.append_eq_nil_iff] at hstream
  exact hstream.2

theorem PayloadStep.aligned {nleft i offset : ℕ} (hframing : Framing stream es)
    (htracks : s.Tracks stream) (hbehind : Behind es s.linePos)
    (hmode : ModeAt stream s es (.payload nleft i offset))
    (hframed : PayloadFramed s t nleft i offset) (h : PayloadStep s t nleft i offset s' new) :
    Aligned stream s' (es ++ new) := by
  obtain ⟨hnleft, hi, hclear⟩ := hmode
  obtain ⟨hbuf, hread⟩ := hframed
  have hblock : blockSize nleft i ≤ MAXINFOSIZE := by
    unfold blockSize
    split <;> omega
  -- a step that gives up does so when nothing is owed
  have give_up : ∀ errno code, ¬ s.Owes ((nleft + offset) % 2 ^ 64) offset →
      Aligned stream { s with errno := errno, phase := .imageReply code } (es ++ []) := by
    intro errno code howes
    rw [List.append_nil]
    exact ⟨hframing, Or.inr ⟨⟨htracks.joined, htracks.unread⟩, hbehind, hclear.of_not_owes howes⟩⟩
  cases h with
  | finished hleft =>
    refine give_up s.errno SUCCESS fun howes => ?_
    have hlt := howes.1
    unfold declared at hlt
    split at hlt <;> omega
  | interrupted hleft =>
    rw [List.append_nil]
    exact ⟨hframing, Or.inr ⟨⟨htracks.joined, htracks.unread⟩, hbehind, hnleft, hblock, hclear⟩⟩
  | @error e hleft hfails he =>
    refine give_up e E_ERROR fun howes => he ?_
    exact (hread howes).2 _ hfails (.error e, s.conn) rfl
  | eof hleft hend =>
    refine give_up s.errno _ fun howes => ?_
    rcases hend with hzero | ⟨hinq, -⟩
    · exact (hread howes).1 hzero
    · exact howes.2 (by simp [unread, hbuf hleft, hinq])
  | @chunk bs conn hleft htook hne hlen hok =>
    obtain ⟨htracks', hpos⟩ := htracks.took (hbuf hleft) htook
    -- modulo `2 ^ 64` the sum of the counter and the offset is the size announced
    have hsize : ((nleft + (2 ^ 64 - bs.length)) % 2 ^ 64 + (offset + bs.length)) % 2 ^ 64 =
        (nleft + offset) % 2 ^ 64 := by
      simp only [MAXINFOSIZE] at hblock
      omega
    refine ⟨hframing.append (by simp [Event.IsTurning]), Or.inr ⟨⟨htracks'.joined, htracks'.unread⟩,
      (hbehind.mono ?_).append (by simp), Nat.mod_lt _ (by decide), hblock, ?_⟩⟩
    · exact le_of_le_of_eq (Nat.le_add_right _ _) hpos.symm
    · rw [hsize]
      exact (hclear.took htracks (hbuf hleft) htook).append (by simp [Event.IsTurning])
  | @short o bs conn hleft htook hok hhead hdata =>
    obtain ⟨htracks', hpos⟩ := htracks.took (hbuf hleft) htook
    have howes : ¬ { s with conn := conn }.Owes ((nleft + offset) % 2 ^ 64)
        (offset + bs.length) := by
      by_cases howes : s.Owes ((nleft + offset) % 2 ^ 64) offset
      · exact ((hread howes).2 o hhead _ hdata).resolve_left (by simp [hok])
      · exact not_owes_of_took howes (hbuf hleft) htook
    refine ⟨hframing.append (by simp [Event.IsTurning]), Or.inr ⟨⟨htracks'.joined, htracks'.unread⟩,
      (hbehind.mono ?_).append (by simp), ?_⟩⟩
    · exact le_of_le_of_eq (Nat.le_add_right _ _) hpos.symm
    · exact ((hclear.took htracks (hbuf hleft) htook).of_not_owes howes).append
        (by simp [Event.IsTurning])

/-- The body is left at a line that ends it. -/
theorem Open.aligned_stop {start : ℕ} {form seen : Bytes} {es₁ es₂ : List Event}
    (hopen : Open stream es s.linePos start form seen es₁ es₂) (hframing : Framing stream es)
    (htracks : s.Tracks stream) (hbehind : Behind es s.linePos) (hread : s.LineRead ret line m)
    (hret : 0 < ret) (hline : isStop line = true)
    (hat : Lines.AtStart isNewline stream s.linePos) :
    Framing stream (es ++ [.bodyLine s.linePos line, .bodyEnd m.linePos]) ∧
      m.Tracks stream ∧ Behind (es ++ [.bodyLine s.linePos line, .bodyEnd m.linePos]) m.linePos ∧
      Closed stream (es ++ [.bodyLine s.linePos line, .bodyEnd m.linePos]) m.linePos := by
  have hstop := hopen.stop_line htracks hread hret hline hat
  obtain ⟨htracks', hpos⟩ := htracks.readline hread
  have hclosed := hopen.closed_of_stop hstop (by omega)
  have hquiet : ∀ e ∈ [Event.bodyLine s.linePos line], ¬ e.IsTurning := by simp [Event.IsTurning]
  refine ⟨hframing.left hopen hstop hquiet, htracks', (hbehind.mono (by omega)).append (by simp),
    ?_⟩
  exact ⟨fun hc hform => hclosed.body (by simpa using hc) hform,
    fun hp => hclosed.payload (by simpa using hp)⟩

theorem BodyStep.aligned (hphase : s.phase = .body) (hframing : Framing stream es)
    (htracks : s.Tracks stream) (hbehind : Behind es s.linePos)
    (hmode : ModeAt stream s es .body) (hframed : BodyFramed stream s t)
    (h : BodyStep s t s' new) : Aligned stream s' (es ++ new) := by
  obtain ⟨start, form, seen, es₁, es₂, hopen⟩ := hmode
  -- a line that ends the form, and every other one
  have stopped : ∀ {ret line m}, s.readline t.reads = some (ret, line, m) → 0 < ret →
      isStop line = true →
      Framing stream (es ++ [.bodyLine s.linePos line, .bodyEnd m.linePos]) ∧
        m.Tracks stream ∧ Behind (es ++ [.bodyLine s.linePos line, .bodyEnd m.linePos]) m.linePos ∧
        Closed stream (es ++ [.bodyLine s.linePos line, .bodyEnd m.linePos]) m.linePos := by
    intro ret line m hread hret hline
    have hat := hframed _ hread hret
    rw [if_pos hline] at hat
    exact hopen.aligned_stop hframing htracks hbehind (Session.readline_cases hread) hret hline hat
  have gone_on : ∀ {ret line m}, s.readline t.reads = some (ret, line, m) → 0 < ret →
      ¬ isStop line = true → t.ok = true ∧ s.regbuf.length < MAXINFOSIZE := by
    intro ret line m hread hret hline
    have hok := hframed _ hread hret
    rwa [if_neg hline] at hok
  cases h with
  | cut hread hret =>
    obtain ⟨htracks', hpos⟩ := htracks.readline (Session.readline_cases hread)
    rw [List.append_nil]
    exact ⟨hframing, Or.inr ⟨⟨htracks'.joined, htracks'.unread⟩,
      hbehind.mono (le_of_le_of_eq (Nat.le_add_right _ _) hpos.symm), trivial⟩⟩
  | dot hread hret hword =>
    have hline := (Session.readline_cases hread).eq_of_word hret (ascii ".") hword
    obtain ⟨hframing', htracks', hbehind', hclosed⟩ := stopped hread hret (by rw [hline]; decide)
    exact ⟨hframing', Or.inr ⟨⟨htracks'.joined, htracks'.unread⟩, hbehind', Or.inl hclosed⟩⟩
  | quit hread hret hword =>
    have hline := (Session.readline_cases hread).eq_of_word hret (ascii "QUIT") hword
    obtain ⟨hframing', htracks', hbehind', hclosed⟩ := stopped hread hret (by rw [hline]; decide)
    exact ⟨hframing', Or.inr ⟨⟨htracks'.joined, htracks'.unread⟩, hbehind', trivial⟩⟩
  | @failed ret line m hread hret hok =>
    have hline : isStop line = true := by
      by_contra hline
      simp [(gone_on hread hret hline).1] at hok
    obtain ⟨hframing', htracks', hbehind', hclosed⟩ := stopped hread hret hline
    exact ⟨hframing', Or.inr ⟨⟨htracks'.joined, htracks'.unread⟩, hbehind', Or.inl hclosed⟩⟩
  | @full ret line m hread hret hfull =>
    have hline : isStop line = true := by
      by_contra hline
      have hroom := (gone_on hread hret hline).2
      rw [(Session.readline_cases hread).keep] at hfull
      exact absurd hroom (Nat.not_lt.mpr hfull)
    obtain ⟨hframing', htracks', hbehind', hclosed⟩ := stopped hread hret hline
    exact ⟨hframing', Or.inr ⟨⟨htracks'.joined, htracks'.unread⟩, hbehind', Or.inl hclosed⟩⟩
  | overlong hread hret => exact .stop (hframing.append (by simp [Event.IsTurning])) (Or.inr rfl)
  | @line ret line m hread hret hdot hquit hok hroom =>
    have hread := Session.readline_cases hread
    have hquiet : ∀ e ∈ [Event.bodyLine s.linePos line], ¬ e.IsTurning := by simp [Event.IsTurning]
    have hline : isStop line = false := by
      rw [Bool.eq_false_iff]
      intro hstop
      rcases isStop_iff.mp hstop with rfl | rfl
      · exact hdot List.prefix_rfl
      · exact hquit List.prefix_rfl
    obtain ⟨htracks', hpos⟩ := htracks.readline hread
    obtain ⟨seen', hopen'⟩ := hopen.next_line htracks hread hret hline hquiet
    have hphase' : m.phase = .body := by rw [hread.keep]; exact hphase
    refine ⟨hframing.append hquiet, Or.inr ⟨⟨htracks'.joined, htracks'.unread⟩,
      (hbehind.mono ?_).append (by simp), ?_⟩⟩
    · exact le_of_le_of_eq (Nat.le_add_right _ _) hpos.symm
    · simp only [hphase']
      exact ⟨start, form, seen', es₁, _, hopen'⟩

/-- A step of the login takes its bytes from the front of the stream. -/
theorem Aligned.took (hframing : Framing stream es) (htracks : s.Tracks stream)
    (hbehind : Behind es s.linePos) (hclosed : Closed stream es s.linePos)
    (hbuf : s.tsd.buf = []) {bs : Bytes} {conn : Conn} (htook : s.conn.Took bs conn)
    (hconn : s'.conn = conn) (htsd : s'.tsd = s.tsd) (hquiet : ∀ e ∈ new, ¬ e.IsTurning)
    (hmode : Closed stream (es ++ new) s'.linePos → ModeAt stream s' (es ++ new) s'.phase) :
    Aligned stream s' (es ++ new) := by
  obtain ⟨htracks', hpos⟩ := htracks.took hbuf htook
  have hpos' : s'.linePos = s.linePos + bs.length := by
    rw [← hpos, Session.linePos, Session.linePos, hconn, htsd]
  refine ⟨hframing.append hquiet, Or.inr ⟨⟨?_, ?_⟩, ?_, ?_⟩⟩
  · rw [hconn, htsd]
    exact htracks'.joined
  · rw [hconn, htsd, hpos', ← hpos]
    exact htracks'.unread
  · exact (hbehind.mono (by omega)).append (not_command_of_not_isTurning hquiet)
  · exact hmode ((hclosed.mono (by omega)).append hquiet)

/-- A step that takes no byte, and turns to no other message. -/
theorem Aligned.stay (hframing : Framing stream es) (htracks : s.Tracks stream)
    (hbehind : Behind es s.linePos) (hconn : s'.conn = s.conn) (htsd : s'.tsd = s.tsd)
    (hquiet : ∀ e ∈ new, ¬ e.IsTurning) (hmode : ModeAt stream s' (es ++ new) s'.phase) :
    Aligned stream s' (es ++ new) := by
  have hpos : s'.linePos = s.linePos := by rw [Session.linePos, Session.linePos, hconn, htsd]
  refine ⟨hframing.append hquiet, Or.inr ⟨⟨?_, ?_⟩, ?_, hmode⟩⟩
  · rw [hconn, htsd]
    exact htracks.joined
  · rw [hconn, htsd, hpos]
    exact htracks.unread
  · rw [hpos]
    exact hbehind.append (not_command_of_not_isTurning hquiet)

theorem Refused.aligned (hframing : Framing stream es) (h : Refused s' new) :
    Aligned stream s' (es ++ new) := by
  refine .stop (hframing.append fun e he => ?_) h.1
  obtain ⟨data, rfl⟩ := h.2 e he
  exact id

theorem Acted.aligned (hframed : Framed stream s t) (halign : Aligned stream s es)
    (h : Acted env s t s' new) : Aligned stream s' (es ++ new) := by
  obtain ⟨hframing, hstop | ⟨htracks, hbehind, hmode⟩⟩ := halign
  -- a session that has stopped takes no step
  · rcases hstop with hphase | hphase
      <;> have hnext := h.next
      <;> simp [hphase, Phase.Next] at hnext
  have hsend : ∀ bs, ∀ e ∈ [Event.send bs], ¬ e.IsTurning := by simp [Event.IsTurning]
  unfold Framed at hframed
  cases h with
  | magic hphase hstep =>
    simp only [hphase] at hmode
    rcases readMagic_cases hstep with href | ⟨conn, errno, buffer, htook, -, rfl, rfl⟩
    · exact href.aligned hframing
    · exact .took hframing htracks hbehind hmode.2 hmode.1 htook rfl rfl (hsend _)
        fun hclosed => ⟨hmode.1, hclosed⟩
  | user hphase hstep =>
    simp only [hphase] at hmode
    rcases readUser_cases hstep with
      href | ⟨line, passbuf, conn, errno, buffer, htook, -, -, -, -, rfl, rfl⟩
    · exact href.aligned hframing
    · exact .took hframing htracks hbehind hmode.2 hmode.1 htook rfl rfl (hsend _)
        fun hclosed => ⟨hmode.1, hclosed⟩
  | pass hphase hstep =>
    simp only [hphase] at hmode
    rcases readPass_cases hstep with href | ⟨conn, errno, buffer, -, htook, rfl, rfl⟩
    · exact href.aligned hframing
    -- the digest is a block of bytes: the stream goes on behind it
    · exact .took hframing htracks hbehind hmode.2 hmode.1 htook rfl rfl (hsend _) Or.inl
  | setup hphase hstep =>
    simp only [hphase] at hmode
    obtain ⟨buffer, phase, hnext, rfl, hes⟩ := openStores_cases hstep
    have hquiet : ∀ e ∈ new, ¬ e.IsTurning := by
      rcases hes with rfl | rfl <;> simp [Event.IsTurning]
    rcases hnext with rfl | rfl
    · exact .stop (hframing.append hquiet) (Or.inl rfl)
    · exact .stay hframing htracks hbehind rfl rfl hquiet (Clear.append hmode hquiet)
  | command hphase hstep =>
    simp only [hphase] at hmode hframed
    exact hstep.aligned hframing htracks hbehind hmode hframed
  | @image imgsize hphase hstep =>
    simp only [hphase] at hmode hframed
    obtain ⟨hsize, hclear⟩ := hmode
    rcases openImage_cases hstep with ⟨-, rfl, rfl⟩ | ⟨hok, rfl, rfl⟩
    · have hquiet : ∀ e ∈ [Event.openTrunc s.filename], ¬ e.IsTurning := by simp [Event.IsTurning]
      refine .stay hframing htracks hbehind rfl rfl hquiet ⟨hsize, Nat.zero_le _, ?_⟩
      rw [Nat.add_zero, Nat.mod_eq_of_lt hsize]
      exact hclear.append hquiet
    · rw [List.append_nil]
      refine ⟨hframing, Or.inr ⟨⟨htracks.joined, htracks.unread⟩, hbehind, ?_⟩⟩
      -- the file cannot be opened: the photo is not read, so there must be none
      have howes : ¬ s.Owes imgsize 0 := fun howes => by simp [hframed howes] at hok
      exact (Clear.of_not_owes howes hclear : Clear stream s es s.linePos)
  | payload hphase hstep =>
    simp only [hphase] at hmode hframed
    exact hstep.aligned hframing htracks hbehind hmode hframed
  | imageReply hphase hstep =>
    simp only [hphase] at hmode
    obtain ⟨errno, sent, rfl, rfl⟩ := replyImage_cases hstep
    exact .stay hframing htracks hbehind rfl rfl (hsend _) (Clear.append hmode (hsend _))
  | body hphase hstep =>
    simp only [hphase] at hmode hframed
    exact hstep.aligned hphase hframing htracks hbehind hmode hframed
  | close hphase hstep =>
    simp only [hphase] at hmode
    obtain ⟨errno, rfl, rfl⟩ := closeForm_cases hstep
    have hquiet : ∀ e ∈ [Event.writeAt s.filename 0 (flushed s.stfile t)], ¬ e.IsTurning := by
      simp [Event.IsTurning]
    exact .stay hframing htracks hbehind rfl rfl hquiet (Clear.append hmode hquiet)
  | insert hphase hstep =>
    simp only [hphase] at hmode
    obtain ⟨rfl, hes⟩ := insertForm_cases hstep
    have hquiet : ∀ e ∈ new, ¬ e.IsTurning := by
      rcases hes with ⟨-, rfl⟩ | ⟨-, rfl⟩ <;> simp [Event.IsTurning]
    exact .stay hframing htracks hbehind rfl rfl hquiet (Clear.append hmode hquiet)
  | reply hphase hstep =>
    simp only [hphase] at hmode
    obtain ⟨errno, buffer, ⟨sent, rfl, rfl⟩ | ⟨rfl, rfl⟩⟩ := replyForm_cases hstep
    · exact .stop (hframing.append (hsend _)) (Or.inl rfl)
    · exact .stay hframing htracks hbehind rfl rfl (hsend _) (Clear.append hmode (hsend _))
  | @abandon leave hphase hstep =>
    simp only [hphase] at hmode
    obtain ⟨errno, rfl, rfl⟩ := abandonForm_cases hstep
    have hquiet : ∀ data, ∀ e ∈ [Event.writeAt s.filename 0 data], ¬ e.IsTurning := by
      simp [Event.IsTurning]
    -- `QUIT` or the end of the stream ends the session, a full form does not
    cases leave
    · exact .stay hframing htracks hbehind rfl rfl (hquiet _) (Clear.append hmode (hquiet _))
    · exact .stop (hframing.append (hquiet _)) (Or.inl rfl)

theorem Framed.wait (h : Framed stream s t) : Framed stream (s.wait t) t := by
  have hphase : (s.wait t).phase = s.phase := rfl
  unfold Framed at h ⊢
  rw [hphase]
  cases hp : s.phase with
  | command =>
    rw [hp] at h
    rintro r hr
    rw [readline_wait] at hr
    obtain ⟨⟨ret, line, m⟩, hread, rfl⟩ := Option.map_eq_some_iff.mp hr
    exact h (ret, line, m) hread
  | body =>
    rw [hp] at h
    rintro r hr
    rw [readline_wait] at hr
    obtain ⟨⟨ret, line, m⟩, hread, rfl⟩ := Option.map_eq_some_iff.mp hr
    exact h (ret, line, m) hread
  | _ =>
    rw [hp] at h
    exact h

theorem aligned_step (s : Session) (es : List Event) (t : Turn) (hframed : Framed stream s t)
    (h : Aligned stream s es) :
    Aligned stream (manageClient env s t).1 (es ++ (manageClient env s t).2) := by
  have hwaited : Aligned stream (s.wait t) es :=
    ⟨h.framing, h.going.imp id fun ⟨htracks, hbehind, hmode⟩ =>
      ⟨⟨htracks.joined, htracks.unread⟩, hbehind, hmode⟩⟩
  rcases manageClient_cases env s t with heq | hact
  · simpa [heq] using hwaited
  · exact hact.aligned hframed.wait hwaited

end Step

/-- **Framing.** While a session meets the condition, it takes no line for a
command that begins inside a body or a payload, and leaves a body only at the
end of the first whole line that ends it. -/
theorem framing (env : Env) (stream : Bytes) (eof : Bool) (clock : ℤ) (user tmpname : Bytes)
    {ts : List Turn}
    (hframed : (manageClient env).Meets (Framed stream)
      (Session.init stream eof clock user tmpname) ts) :
    Framing stream ((manageClient env).run (Session.init stream eof clock user tmpname) ts).2 := by
  have start : Aligned stream (Session.init stream eof clock user tmpname) [] :=
    ⟨⟨by simp, by simp, by simp⟩, Or.inr ⟨⟨Or.inl rfl, rfl⟩, by simp [Behind],
      rfl, closed_nil stream _⟩⟩
  simpa using
    (Machine.run_induction (fun s es t ht h => aligned_step s es t ht h) start hframed).framing

/-- A college sends a form of one line. -/
theorem framing_sample :
    let stream := sampleLogin ++ ascii "FILENAME M_0001_A_0001_0.txt\nab\n.\nQUIT\n"
    Framing stream ((manageClient sampleEnv).run (Session.init stream true 1120000000 [] [])
      (List.replicate 11 sampleTurn)).2 :=
  framing sampleEnv _ true 1120000000 [] [] (by decide)

/-- A photo of 18 bytes that reads like a command is taken for one. -/
theorem framing_fails_sample :
    let stream := sampleLogin ++ ascii "BINARY 18 a.jpg\nFILENAME aaaa.txt\n"
    let photo := { sampleTurn with acceptimage := true, reads := [.upTo 16] }
    let ts := List.replicate 4 sampleTurn ++ [photo] ++ List.replicate 4 sampleTurn
    ¬ Framing stream
      ((manageClient sampleEnv).run (Session.init stream true 1120000000 [] []) ts).2 := by
  intro stream photo ts h
  have hpayload : .payload 71 18 ∈
      ((manageClient sampleEnv).run (Session.init stream true 1120000000 [] []) ts).2 := by decide
  have hcommand : .command 71 (ascii "FILENAME aaaa.txt\n") ∈
      ((manageClient sampleEnv).run (Session.init stream true 1120000000 [] []) ts).2 := by decide
  exact h.payload hpayload hcommand ⟨by decide, by decide⟩

end Esif.Server
