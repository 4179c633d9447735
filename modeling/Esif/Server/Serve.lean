import Esif.Server.Binary
import Esif.Server.Calm
import Esif.Server.Effects

/-!
# The command loop on a connection that holds

What a session past its login makes of a whole line at the front of its stream,
in the command loop, in a form and around a photo; and that a session of any kind
only moves forward in its stream.

## Main definitions

* `Forward` — the stream positions of a step only grow

## Main results

* `CommandStep.leaves` — what is no command ends the session
* `Acted.forward` — a serving session moves forward
* `readCommand_calm`, `binary_calm`, `readPayload_calm` — commands and photos
* `readBody_line`, `readBody_dot` — the lines of a form
-/

namespace Esif.Server

open Esif.CS Esif.Posix

/-! ### Commands and other lines -/

section Commands

variable {s s' : Session} {t : Turn} {es : List Event}

/-- Where no whole command is read the session ends, without a word and without an effect. -/
theorem CommandStep.leaves (h : CommandStep s t s' es)
    (hno : ∀ {ret line m}, s.readline t.reads = some (ret, line, m) → 9 ≤ ret →
      ¬ ascii "BINARY " <+: line ∧ ¬ ascii "FILENAME " <+: line) :
    s'.phase = .done ∧ sentBytes es = [] ∧ ∀ event ∈ es, ¬ event.IsEffect := by
  cases h with
  | leave hread hes =>
    rcases hes with rfl | ⟨-, rfl⟩
    · exact ⟨rfl, rfl, by simp⟩
    · exact ⟨rfl, rfl, by simp [Event.IsEffect]⟩
  | refused hread hret hword | unnamed hread hret hword | overlong hread hret hword
  | image hread hret hword => exact absurd hword (hno hread hret).1
  | misnamed hread hret hword | closed hread hret hword | form hread hret hword =>
    exact absurd hword (hno hread hret).2

/-- The only effect of a command is the file of a form, opened right behind the line that names
it. -/
theorem CommandStep.effect_cases (h : CommandStep s t s' es) :
    (∀ event ∈ es, ¬ event.IsEffect) ∨ ∃ start line old, ascii "FILENAME " <+: line ∧
      es = [.command start line,
        .openTrunc (s.txtdir ++ scanFilename (cstr (line.drop 9)) old)] := by
  cases h with
  | leave _ hes => rcases hes with rfl | ⟨-, rfl⟩ <;> simp [Event.IsEffect]
  | refused | unnamed | overlong | image | misnamed | closed => simp [Event.IsEffect]
  | @form ret line m _ hread _ hword hscan =>
    have hdir : m.txtdir = s.txtdir := by rw [(Session.readline_cases hread).keep]
    exact Or.inr ⟨s.linePos, line, m.tmpname, hword, by rw [hscan, hdir]⟩

end Commands

/-! ### Positions -/

/-- The step has moved forward in the stream, and the body lines it has read lie
between its two positions. -/
structure Forward (s s' : Session) (es : List Event) : Prop where
  ahead : Ahead s'.tsd s'.conn
  total : s'.conn.pos + s'.conn.inq.length = s.conn.pos + s.conn.inq.length
  le : s.linePos ≤ s'.linePos
  bodies : ∀ start line, .bodyLine start line ∈ es →
    s.linePos ≤ start ∧ start + line.length ≤ s'.linePos

section Forward

variable {env : Env} {s s' m : Session} {t : Turn} {es : List Event} {ret : ℤ} {line : Bytes}

theorem linePos_le (h : Ahead s.tsd s.conn) : s.linePos ≤ s.conn.pos := by
  unfold Session.linePos position
  split
  · exact le_rfl
  · next hne =>
    have hle := h.resolve_left hne
    omega

/-- A step that leaves the stream alone. -/
theorem Forward.of_eq (hahead : Ahead s.tsd s.conn) (hconn : s'.conn = s.conn)
    (htsd : s'.tsd = s.tsd) (hes : ∀ start line, .bodyLine start line ∉ es) :
    Forward s s' es where
  ahead := by rwa [hconn, htsd]
  total := by rw [hconn]
  le := by rw [Session.linePos, Session.linePos, hconn, htsd]
  bodies start line hmem := absurd hmem (hes start line)

/-- A step that reads one line. -/
theorem Forward.of_line (hahead : Ahead s.tsd s.conn)
    (hread : s.readline t.reads = some (ret, line, m))
    (hconn : s'.conn = m.conn) (htsd : s'.tsd = m.tsd)
    (hes : ∀ start line', .bodyLine start line' ∈ es → start = s.linePos ∧ line' = line) :
    Forward s s' es := by
  have hreads := (Session.readline_cases hread).reads
  obtain ⟨hahead', hle⟩ := hreads.ahead hahead
  have hle' : s.linePos + line.length ≤ s'.linePos := by
    rw [Session.linePos, Session.linePos, hconn, htsd]
    exact hle
  refine ⟨by rwa [hconn, htsd], by rw [hconn]; exact hreads.total, by omega, ?_⟩
  intro start line' hmem
  obtain ⟨rfl, rfl⟩ := hes start line' hmem
  exact ⟨le_rfl, hle'⟩

/-- A step that reads bytes of a photo. -/
theorem Forward.of_took {bs : Bytes} {conn : Conn} (hahead : Ahead s.tsd s.conn)
    (htook : s.conn.Took bs conn) (hconn : s'.conn = conn) (htsd : s'.tsd = s.tsd)
    (hes : ∀ start line, .bodyLine start line ∉ es) : Forward s s' es := by
  have hpos := htook.pos
  refine ⟨?_, by rw [hconn]; exact htook.total, ?_,
    fun start line hmem => absurd hmem (hes start line)⟩
  · rw [hconn, htsd]
    refine hahead.imp_right fun hle => ?_
    omega
  · rw [Session.linePos, Session.linePos, position, position, hconn, htsd]
    split
    · omega
    · exact le_rfl

theorem CommandStep.forward (hahead : Ahead s.tsd s.conn) (h : CommandStep s t s' es) :
    Forward s s' es := by
  cases h with
  | leave hread hes =>
    refine .of_line hahead hread rfl rfl fun start line hmem => ?_
    rcases hes with rfl | ⟨-, rfl⟩ <;> simp at hmem
  | refused hread | unnamed hread | overlong hread | image hread | misnamed hread | closed hread
  | form hread =>
    exact .of_line hahead hread rfl rfl (by simp)

/-- The command loop takes no line of a form. -/
theorem CommandStep.no_body (h : CommandStep s t s' es) (start : ℕ) (line : Bytes) :
    .bodyLine start line ∉ es := by
  cases h with
  | leave _ hes => rcases hes with rfl | ⟨-, rfl⟩ <;> simp
  | refused | unnamed | overlong | image | misnamed | closed | form => simp

theorem BodyStep.forward (hahead : Ahead s.tsd s.conn) (h : BodyStep s t s' es) :
    Forward s s' es := by
  cases h with
  | cut hread | dot hread | quit hread | failed hread | full hread | overlong hread
  | line hread =>
    exact .of_line hahead hread rfl rfl (by simp)

theorem PayloadStep.forward {nleft i offset : ℕ} (hahead : Ahead s.tsd s.conn)
    (h : PayloadStep s t nleft i offset s' es) : Forward s s' es := by
  cases h with
  | finished | interrupted | error | eof => exact .of_eq hahead rfl rfl (by simp)
  | chunk _ htook | short _ htook => exact .of_took hahead htook rfl rfl (by simp)

/-- A serving session moves forward in its stream. -/
theorem Acted.forward (hserving : s.phase.Serving) (hahead : Ahead s.tsd s.conn)
    (h : Acted env s t s' es) : Forward s s' es := by
  cases h with
  | magic hphase | user hphase | pass hphase | setup hphase =>
    simp [hphase, Phase.Serving] at hserving
  | command _ hstep => exact hstep.forward hahead
  | payload _ hstep => exact hstep.forward hahead
  | body _ hstep => exact hstep.forward hahead
  | image _ hstep =>
    rcases openImage_cases hstep with ⟨-, rfl, rfl⟩ | ⟨-, rfl, rfl⟩
    · exact .of_eq hahead rfl rfl (by simp)
    · exact .of_eq hahead rfl rfl (by simp)
  | imageReply _ hstep =>
    obtain ⟨errno, sent, rfl, rfl⟩ := replyImage_cases hstep
    exact .of_eq hahead rfl rfl (by simp)
  | close _ hstep =>
    obtain ⟨errno, rfl, rfl⟩ := closeForm_cases hstep
    exact .of_eq hahead rfl rfl (by simp)
  | insert _ hstep =>
    obtain ⟨rfl, ⟨-, rfl⟩ | ⟨-, rfl⟩⟩ := insertForm_cases hstep
    · exact .of_eq hahead rfl rfl (by simp)
    · exact .of_eq hahead rfl rfl (by simp)
  | reply _ hstep =>
    obtain ⟨errno, buffer, ⟨sent, rfl, rfl⟩ | ⟨rfl, rfl⟩⟩ := replyForm_cases hstep
    · exact .of_eq hahead rfl rfl (by simp)
    · exact .of_eq hahead rfl rfl (by simp)
  | abandon _ hstep =>
    obtain ⟨errno, rfl, rfl⟩ := abandonForm_cases hstep
    exact .of_eq hahead rfl rfl (by simp)

end Forward

/-! ### Whole lines -/

/-- The session is at `phase` on an open connection, with `bs` ahead of it. -/
structure Session.At (s : Session) (phase : Phase) (bs : Bytes) : Prop where
  phase : s.phase = phase
  unread : unread s.tsd s.conn = bs
  eof : s.conn.eof = false

/-- `m` is `s` behind a line of its stream. -/
structure Session.Past (s : Session) (rest : Bytes) (m : Session) : Prop where
  unread : Posix.unread m.tsd m.conn = rest
  eof : m.conn.eof = s.conn.eof

section Serving

variable {env : Env} {s s' m : Session} {t : Turn} {es : List Event} {line rest : Bytes}

theorem readCommand_nil (hcon : t.Connected) (hs : s.At .command []) : readCommand s t = none := by
  rw [readCommand, Session.readline_nil hcon.reads hs.eof hs.unread]
  rfl

theorem readBody_nil (hcon : t.Connected) (hs : s.At .body []) : readBody s t = none := by
  rw [readBody, Session.readline_nil hcon.reads hs.eof hs.unread]
  rfl

section Line

variable (hcon : t.Connected) (hs : unread s.tsd s.conn = line ++ rest)
  (hwhole : Lines.Whole isNewline (MAXLINE - 1) line) (hne : line ≠ [])

include hcon hs hwhole hne

/-- The line read is the one at the front of the stream. -/
theorem readline_front {ret : ℤ} {got : Bytes} (h : s.readline t.reads = some (ret, got, m)) :
    0 < ret ∧ got = line ∧ s.Past rest m := by
  obtain ⟨hret, rfl, hunread, heof⟩ := Session.readline_calm hcon.reads hs hwhole hne h
  have hpos := List.length_pos_iff.mpr hne
  refine ⟨?_, rfl, hunread, heof⟩
  rw [hret]
  split_ifs <;> omega

/-- The command loop reads past the line. -/
theorem readCommand_passes (hahead : Ahead s.tsd s.conn) (h : readCommand s t = some (s', es)) :
    s.linePos + line.length ≤ s'.linePos := by
  have step := readCommand_step h
  cases step with
  | leave hread | refused hread | unnamed hread | overlong hread | image hread | misnamed hread
  | closed hread | form hread =>
    obtain ⟨-, rfl, -⟩ := readline_front hcon hs hwhole hne hread
    exact ((Session.readline_cases hread).reads.ahead hahead).2

/-- A `FILENAME` line opens a form or ends the session. -/
theorem readCommand_form (hword : ascii "FILENAME " <+: line)
    (h : readCommand s t = some (s', es)) :
    s'.Stopped ∨ s'.phase = .body ∧ s.Past rest s' ∧ sentBytes es = [] := by
  have step := readCommand_step h
  cases step with
  | leave | overlong | misnamed | closed => exact Or.inl (by simp [Session.Stopped, Session.finish])
  | refused hread _ hphoto | unnamed hread _ hphoto | image hread _ hphoto =>
    obtain ⟨-, rfl, -⟩ := readline_front hcon hs hwhole hne hread
    exact absurd hword (not_form_of_photo hphoto)
  | form hread =>
    obtain ⟨-, -, hpast⟩ := readline_front hcon hs hwhole hne hread
    exact Or.inr ⟨rfl, ⟨hpast.unread, hpast.eof⟩, rfl⟩

/-- A line that is no command ends the session. -/
theorem readCommand_plain (hform : ¬ ascii "FILENAME " <+: line)
    (hphoto : ¬ ascii "BINARY " <+: line) (h : readCommand s t = some (s', es)) : s'.Stopped := by
  have step := readCommand_step h
  cases step with
  | leave | overlong | misnamed | closed => simp [Session.Stopped, Session.finish]
  | refused hread _ hword | unnamed hread _ hword | image hread _ hword =>
    obtain ⟨-, rfl, -⟩ := readline_front hcon hs hwhole hne hread
    exact absurd hword hphoto
  | form hread _ hword =>
    obtain ⟨-, rfl, -⟩ := readline_front hcon hs hwhole hne hread
    exact absurd hword hform

/-- A line of a form that ends nothing. -/
theorem readBody_line (hdot : ¬ ascii ".\n" <+: line) (hquit : ¬ ascii "QUIT\n" <+: line)
    (h : readBody s t = some (s', es)) (hphase : s.phase = .body) :
    s'.Stopped ∨ (s'.phase = .body ∨ s'.phase = .command ∨ s'.phase = .abandon false) ∧
      s.Past rest s' ∧ sentBytes es = [] := by
  have step := readBody_step h
  cases step with
  | cut hread hret =>
    obtain ⟨hpos, -⟩ := readline_front hcon hs hwhole hne hread
    omega
  | dot hread _ hword =>
    obtain ⟨-, rfl, -⟩ := readline_front hcon hs hwhole hne hread
    exact absurd hword hdot
  | quit hread _ hword =>
    obtain ⟨-, rfl, -⟩ := readline_front hcon hs hwhole hne hread
    exact absurd hword hquit
  | @failed _ _ m hread =>
    obtain ⟨-, -, hpast⟩ := readline_front hcon hs hwhole hne hread
    exact Or.inr ⟨Or.inr (Or.inr rfl), ⟨hpast.unread, hpast.eof⟩, rfl⟩
  | full hread =>
    obtain ⟨-, -, hpast⟩ := readline_front hcon hs hwhole hne hread
    exact Or.inr ⟨Or.inr (Or.inl rfl), ⟨hpast.unread, hpast.eof⟩, rfl⟩
  | overlong => exact Or.inl (Or.inr rfl)
  | @line _ _ m hread =>
    obtain ⟨-, -, hpast⟩ := readline_front hcon hs hwhole hne hread
    have hkeep : m.phase = s.phase := by rw [(Session.readline_cases hread).keep]
    exact Or.inr ⟨Or.inl (hkeep.trans hphase), ⟨hpast.unread, hpast.eof⟩, rfl⟩

/-- The line that ends a form. -/
theorem readBody_dot (hdot : line = ascii ".\n") (h : readBody s t = some (s', es)) :
    s'.phase = .close ∧ s.Past rest s' ∧ sentBytes es = [] ∧ s'.stfile = s.stfile ∧
      s'.regbuf = s.regbuf ∧ s'.filename = s.filename ∧ s'.regdb = s.regdb ∧ s'.regkey = s.regkey ∧
      ∀ cwd (w : World), w.after cwd es = w := by
  simp only [readBody, Option.bind_eq_bind, Option.bind_eq_some_iff] at h
  obtain ⟨⟨ret, got, m⟩, hread, h⟩ := h
  obtain ⟨hpos, rfl, hpast⟩ := readline_front hcon hs hwhole hne hread
  have hread' := Session.readline_cases hread
  have hword : strncmp m.buffer (ascii ".\n") = true := by
    rw [hread'.strncmp_eq hpos (by decide), hdot]
    rfl
  have hkeep : m.stfile = s.stfile ∧ m.regbuf = s.regbuf ∧ m.filename = s.filename ∧
      m.regdb = s.regdb ∧ m.regkey = s.regkey := by
    rw [hread'.keep]
    exact ⟨rfl, rfl, rfl, rfl, rfl⟩
  obtain ⟨hkstfile, hkregbuf, hkfilename, hkregdb, hkregkey⟩ := hkeep
  dsimp only at h
  rw [if_neg (by omega), if_pos hword] at h
  obtain ⟨rfl, rfl⟩ := Option.some.inj h
  exact ⟨rfl, ⟨hpast.unread, hpast.eof⟩, rfl, hkstfile, hkregbuf, hkfilename, hkregdb, hkregkey,
    fun cwd w => rfl⟩

/-- A `BINARY` line: the photo is refused, or expected. -/
theorem readCommand_photo (hword : ascii "BINARY " <+: line) (h : readCommand s t = some (s', es)) :
    s'.Stopped ∨ s.Past rest s' ∧
      (s'.phase = .command ∧ sentBytes es = ebuf E_IMG_NOSUPPORT ∨
        t.acceptimage = true ∧ sentBytes es = ebuf SUCCESS ∧ ∃ imgsize tmpname,
          scanBinary (cstr (line.drop 7)) = (imgsize, tmpname) ∧
          (tmpname = [] ∧ s'.phase = .imageReply E_ERROR ∨
            tmpname ≠ [] ∧ s'.phase = .image imgsize)) := by
  simp only [readCommand, Option.bind_eq_bind, Option.bind_eq_some_iff] at h
  obtain ⟨⟨ret, got, m⟩, hread, h⟩ := h
  obtain ⟨hpos, rfl, hpast⟩ := readline_front hcon hs hwhole hne hread
  have hline := Session.readline_cases hread
  have hargs : cstr (m.buffer.drop 7) = cstr (got.drop 7) := hline.cstr_drop hpos hword.length_le
  dsimp only at h
  split_ifs at h with herrno hquit hshort hbinary hform
  · obtain ⟨rfl, rfl⟩ := Option.some.inj h
    exact Or.inl (Or.inl rfl)
  · obtain ⟨rfl, rfl⟩ := Option.some.inj h
    exact Or.inl (Or.inl rfl)
  · obtain ⟨rfl, rfl⟩ := Option.some.inj h
    exact Or.inl (Or.inl rfl)
  · obtain ⟨⟨s'', es'⟩, hbin, heq⟩ := Option.bind_eq_some_iff.mp h
    obtain ⟨rfl, rfl⟩ : s'' = s' ∧ _ = es := by simpa using heq
    simp only [binary] at hbin
    split_ifs at hbin with hoff
    · obtain ⟨⟨ret', m', sent⟩, hw, heq⟩ := Option.map_eq_some_iff.mp hbin
      obtain ⟨-, rfl, errno, rfl⟩ := Session.writen_calm hcon.writes hw
      obtain ⟨rfl, rfl⟩ : _ = s'' ∧ _ = es' := by simpa using heq
      exact Or.inr ⟨⟨hpast.unread, hpast.eof⟩, Or.inl ⟨rfl, by simp [sentBytes]⟩⟩
    · obtain ⟨⟨ret', m', sent⟩, hw, heq⟩ := Option.map_eq_some_iff.mp hbin
      obtain ⟨-, rfl, errno, rfl⟩ := Session.writen_calm hcon.writes hw
      have hon : t.acceptimage = true := by simpa using hoff
      obtain ⟨imgsize, tmpname, hscan⟩ :
          ∃ imgsize tmpname, scanBinary (cstr (got.drop 7)) = (imgsize, tmpname) := ⟨_, _, rfl⟩
      -- the size and the name are scanned behind the welcome
      simp only [hargs, hscan] at heq
      split_ifs at heq with hname hfit
      · obtain ⟨rfl, rfl⟩ := Prod.mk.inj heq
        exact Or.inr ⟨⟨hpast.unread, hpast.eof⟩, Or.inr ⟨hon, by simp [sentBytes], imgsize, tmpname,
          hscan, Or.inl ⟨hname, rfl⟩⟩⟩
      -- the name overruns `tmpname`
      · obtain ⟨rfl, rfl⟩ := Prod.mk.inj heq
        exact Or.inl (Or.inr rfl)
      · obtain ⟨rfl, rfl⟩ := Prod.mk.inj heq
        exact Or.inr ⟨⟨hpast.unread, hpast.eof⟩, Or.inr ⟨hon, by simp [sentBytes], imgsize, tmpname,
          hscan, Or.inr ⟨hname, rfl⟩⟩⟩
  · obtain ⟨rfl, rfl⟩ := Option.some.inj h
    exact Or.inl (Or.inl rfl)
  · rw [hline.strncmp_eq hpos (by decide)] at hbinary
    exact absurd (List.isPrefixOf_iff_prefix.mpr hword) hbinary

/-- Reading the line leaves no time-out behind. -/
theorem readline_errno {ret : ℤ} {got : Bytes} (herrno : s.errno ≠ .ewouldblock)
    (h : s.readline t.reads = some (ret, got, m)) : m.errno ≠ .ewouldblock := by
  obtain ⟨r, hr, heq⟩ := Option.map_eq_some_iff.mp h
  obtain ⟨-, -, rfl⟩ : r.ret = ret ∧ r.stored = got ∧ _ = m := by simpa using heq
  obtain ⟨-, -, -, -, hkeep⟩ :=
    @Posix.readline_whole MAXLINE s.tsd ⟨s.conn, s.errno, t.reads, []⟩ r line rest hcon.reads hs
      hwhole hne hr
  exact hkeep herrno

/-- A `BINARY` line with a name that fits, while the server takes photos. -/
theorem readCommand_image {imgsize : ℕ} {tmpname : Bytes} (herrno : s.errno ≠ .ewouldblock)
    (hlen : 9 ≤ line.length) (hword : ascii "BINARY " <+: line) (hon : t.acceptimage = true)
    (hscan : scanBinary (cstr (line.drop 7)) = (imgsize, tmpname)) (hname : tmpname ≠ [])
    (hfit : tmpname.length < MAXFILENAME) (h : readCommand s t = some (s', es)) :
    s'.phase = .image imgsize ∧ s'.filename = s.txtdir ++ tmpname ∧ s.Past rest s' ∧
      sentBytes es = ebuf SUCCESS ∧ ∀ cwd (w : World), w.after cwd es = w := by
  simp only [readCommand, Option.bind_eq_bind, Option.bind_eq_some_iff] at h
  obtain ⟨⟨ret, got, m⟩, hread, h⟩ := h
  have herrno' := readline_errno hcon hs hwhole hne herrno hread
  obtain ⟨hpos, rfl, hpast⟩ := readline_front hcon hs hwhole hne hread
  have hline := Session.readline_cases hread
  have hkeep : m.txtdir = s.txtdir := by rw [hline.keep]
  have hargs : cstr (m.buffer.drop 7) = cstr (got.drop 7) := hline.cstr_drop hpos hword.length_le
  have hret : 9 ≤ ret := by
    obtain ⟨hret, -⟩ := Session.readline_calm hcon.reads hs hwhole hne hread
    rw [hret]
    split_ifs <;> omega
  have hbinary : strncmp m.buffer (ascii "BINARY ") = true := by
    rw [hline.strncmp_eq hpos (by decide)]
    exact List.isPrefixOf_iff_prefix.mpr hword
  have hquit : ¬ strncmp m.buffer (ascii "QUIT\n") = true := by
    rw [hline.strncmp_eq hpos (by decide), List.isPrefixOf_iff_prefix]
    intro hquit
    exact absurd (List.prefix_of_prefix_length_le hquit hword (by decide)) (by decide)
  dsimp only at h
  rw [if_neg herrno', if_neg hquit, if_neg (by omega), if_pos hbinary] at h
  obtain ⟨⟨s'', es'⟩, hbin, heq⟩ := Option.bind_eq_some_iff.mp h
  obtain ⟨rfl, rfl⟩ : s'' = s' ∧ _ = es := by simpa using heq
  simp only [binary, hon, Bool.not_true, Bool.false_eq_true, if_false] at hbin
  obtain ⟨⟨ret', m', sent⟩, hw, heq⟩ := Option.map_eq_some_iff.mp hbin
  obtain ⟨-, rfl, errno, rfl⟩ := Session.writen_calm hcon.writes hw
  simp only [hargs, hscan, if_neg hname, if_neg (Nat.not_le.mpr hfit)] at heq
  obtain ⟨rfl, rfl⟩ := Prod.mk.inj heq
  exact ⟨rfl, by simp [hkeep], ⟨hpast.unread, hpast.eof⟩, by simp [sentBytes], fun cwd w => rfl⟩

/-- A `FILENAME` line with a name that fits, whose file can be opened. -/
theorem readCommand_opens {tmpname : Bytes} (hok : t.ok = true) (herrno : s.errno ≠ .ewouldblock)
    (hword : ascii "FILENAME " <+: line)
    (hscan : scanFilename (cstr (line.drop 9)) s.tmpname = tmpname) (hfour : 4 ≤ tmpname.length)
    (hfit : tmpname.length < MAXFILENAME) (h : readCommand s t = some (s', es)) :
    s'.phase = .body ∧ s'.filename = s.txtdir ++ tmpname ∧ s'.regdb = s.regdb ∧
      s'.regkey = tmpname.take (tmpname.length - 4) ∧ s'.stfile = [] ∧ s'.regbuf = [] ∧
      s.Past rest s' ∧ sentBytes es = [] ∧
      ∀ cwd (w : World), w.after cwd es = w.apply cwd (.openTrunc s'.filename) := by
  simp only [readCommand, Option.bind_eq_bind, Option.bind_eq_some_iff] at h
  obtain ⟨⟨ret, got, m⟩, hread, h⟩ := h
  have herrno' := readline_errno hcon hs hwhole hne herrno hread
  obtain ⟨hpos, rfl, hpast⟩ := readline_front hcon hs hwhole hne hread
  have hline := Session.readline_cases hread
  have hkeep : m.txtdir = s.txtdir ∧ m.tmpname = s.tmpname ∧ m.regdb = s.regdb := by
    rw [hline.keep]
    exact ⟨rfl, rfl, rfl⟩
  have hlen : 9 ≤ got.length := hword.length_le
  have hargs : cstr (m.buffer.drop 9) = cstr (got.drop 9) := hline.cstr_drop hpos hlen
  have hret : 9 ≤ ret := by
    obtain ⟨hret, -⟩ := Session.readline_calm hcon.reads hs hwhole hne hread
    rw [hret]
    split_ifs <;> omega
  have hform : strncmp m.buffer (ascii "FILENAME ") = true := by
    rw [hline.strncmp_eq hpos (by decide)]
    exact List.isPrefixOf_iff_prefix.mpr hword
  -- no other word of the loop begins the line
  have hother : ∀ lit : Bytes, nul ∉ lit → lit.length ≤ 9 → ¬ lit <+: ascii "FILENAME " →
      ¬ strncmp m.buffer lit = true := by
    intro lit hnul hle hlit
    rw [hline.strncmp_eq hpos hnul, List.isPrefixOf_iff_prefix]
    exact fun hprefix => hlit (List.prefix_of_prefix_length_le hprefix hword hle)
  dsimp only at h
  rw [if_neg herrno', if_neg (hother (ascii "QUIT\n") (by decide) (by decide) (by decide)),
    if_neg (by omega), if_neg (hother (ascii "BINARY ") (by decide) (by decide) (by decide)),
    if_neg (by simp [hform])] at h
  simp only [filenameLine, hargs, hkeep.2.1, hscan] at h
  rw [if_neg (by omega), if_neg (by simp [hok])] at h
  obtain ⟨rfl, rfl⟩ := Prod.mk.inj (Option.some.inj h)
  exact ⟨rfl, by simp [hkeep.1], hkeep.2.2, rfl, rfl, rfl, ⟨hpast.unread, hpast.eof⟩,
    by simp [sentBytes], fun cwd w => rfl⟩

end Line

/-! ### Photos and replies -/

/-- What the turn reads of a photo, if it reads, is the last of it. -/
def LastBlock (s : Session) (t : Turn) (nleft i : ℕ) : Prop :=
  ∀ o ∈ t.reads.head?, ∀ bs conn,
    s.conn.read (blockSize nleft i) o = some (.data bs, conn) → bs.length = nleft

/-- A photo of more than a buffer is asked for a whole buffer at a time, to its end. -/
theorem blockSize_eq {nleft i : ℕ} (hblock : nleft = 0 ∨ MAXINFOSIZE < nleft ∨ i = MAXINFOSIZE)
    (hleft : nleft ≠ 0) : blockSize nleft i = MAXINFOSIZE := by
  unfold blockSize
  split_ifs with hbig
  · rfl
  · exact (hblock.resolve_left hleft).resolve_left hbig

/-- One turn of the loop over the bytes of a photo, when no byte behind it has been
sent. -/
theorem readPayload_calm {nleft i offset : ℕ} (hcon : t.Connected) (heof : s.conn.eof = false)
    (hroom : s.conn.inq.length ≤ nleft) (hlt : nleft < 2 ^ 64)
    (hblock : nleft = 0 ∨ MAXINFOSIZE < nleft ∨ i = MAXINFOSIZE)
    (hstored : t.ok = true ∨ LastBlock s t nleft i)
    (h : readPayload s t nleft i offset = some (s', es)) :
    s'.tsd = s.tsd ∧ s'.conn.eof = false ∧ sentBytes es = [] ∧
      ((∃ code, (code = SUCCESS ∨ code = E_ERROR) ∧ s'.phase = .imageReply code ∧
          s'.conn.inq = [] ∧ nleft = s.conn.inq.length) ∨
        ∃ nleft' offset', s'.phase = .payload nleft' MAXINFOSIZE offset' ∧ nleft' ≤ nleft ∧
          nleft' + s.conn.inq.length = nleft + s'.conn.inq.length) := by
  have hsize := blockSize_eq hblock
  have step := readPayload_step h
  cases step with
  | finished hleft =>
    have hinq : s.conn.inq = [] := List.eq_nil_of_length_eq_zero (by omega)
    exact ⟨rfl, heof, rfl, Or.inl ⟨SUCCESS, Or.inl rfl, rfl, hinq, by simp [hleft, hinq]⟩⟩
  | interrupted hleft =>
    exact ⟨rfl, heof, rfl, Or.inr ⟨nleft, offset, by rw [hsize hleft], le_rfl, rfl⟩⟩
  | @error e hleft hfails he =>
    exact absurd (hcon.reads (.fails e) (List.mem_of_head? hfails)) he
  | eof hleft hend =>
    rcases hend with hzero | ⟨-, hclosed⟩
    · rw [hsize hleft] at hzero
      exact absurd hzero (by decide)
    · simp [heof] at hclosed
  | @chunk bs conn hleft htook hne hlen =>
    have hstream := congrArg List.length htook.stream
    simp only [List.length_append] at hstream
    refine ⟨rfl, htook.eof.trans heof, rfl,
      Or.inr ⟨nleft - bs.length, offset + bs.length, ?_, by omega, ?_⟩⟩
    · have hmod : (nleft + (2 ^ 64 - bs.length)) % 2 ^ 64 = nleft - bs.length := by omega
      simp only [hmod, hsize hleft]
    · simp only
      omega
  | @short o bs conn hleft htook hok hhead hread =>
    -- the write fails, but nothing of the photo is left to come
    have hlast : bs.length = nleft := by
      rcases hstored with hstored | hlast
      · simp [hok] at hstored
      · exact hlast o hhead bs conn hread
    have hstream := congrArg List.length htook.stream
    simp only [List.length_append] at hstream
    have hinq : conn.inq = [] := List.eq_nil_of_length_eq_zero (by omega)
    have hcode : imageResult nleft = SUCCESS ∨ imageResult nleft = E_ERROR := by
      unfold imageResult
      split_ifs
      · exact Or.inl rfl
      · exact Or.inr rfl
    refine ⟨rfl, htook.eof.trans heof, rfl, Or.inl ⟨_, hcode, rfl, hinq, ?_⟩⟩
    rw [hinq, List.length_nil] at hstream
    omega

/-- One turn of the loop over the bytes of a photo, with `arrived` of it waiting. -/
theorem readPayload_holds {nleft i offset : ℕ} {arrived : Bytes} (hcalm : t.Calm)
    (hs : s.Holds arrived) (hle : arrived.length ≤ nleft) (hlt : nleft < 2 ^ 64)
    (hblock : nleft = 0 ∨ MAXINFOSIZE < nleft ∨ i = MAXINFOSIZE)
    (h : readPayload s t nleft i offset = some (s', es)) :
    s'.filename = s.filename ∧
      (nleft = 0 ∧ s'.phase = .imageReply SUCCESS ∧ s'.Holds arrived ∧ es = [] ∨
        nleft ≠ 0 ∧ (∀ k, t.reads.head? ≠ some (.upTo k)) ∧
          s'.phase = .payload nleft MAXINFOSIZE offset ∧ s'.Holds arrived ∧ es = [] ∨
        ∃ bs rest, bs ≠ [] ∧ arrived = bs ++ rest ∧ s'.Holds rest ∧
          s'.phase = .payload (nleft - bs.length) MAXINFOSIZE (offset + bs.length) ∧
          es = [.writeAt s.filename offset bs]) := by
  by_cases hleft : nleft = 0
  · rw [readPayload, if_pos hleft] at h
    obtain ⟨rfl, rfl⟩ := Prod.mk.inj (Option.some.inj h)
    exact ⟨rfl, Or.inl ⟨hleft, rfl, ⟨hs.inq, hs.eof, hs.buf⟩, rfl⟩⟩
  have hsize := blockSize_eq hblock hleft
  have step := readPayload_step h
  cases step with
  | finished hzero => exact absurd hzero hleft
  | @error e _ hfails he => exact absurd (hcalm.reads (.fails e) (List.mem_of_head? hfails)) he
  | eof _ hend =>
    rcases hend with hzero | ⟨-, hclosed⟩
    · rw [hsize] at hzero
      exact absurd hzero (by decide)
    · simp [hs.eof] at hclosed
  | short _ _ hok => simp [hcalm.ok] at hok
  | interrupted =>
    refine ⟨rfl, Or.inr (Or.inl ⟨hleft, fun k hhead => ?_, by rw [hsize], ⟨hs.inq, hs.eof, hs.buf⟩,
      rfl⟩)⟩
    -- an interruption: the turn had no `read` that returns
    by_cases hwait : blockSize nleft i ≠ 0 ∧ s.conn.inq = [] ∧ s.conn.eof = false
    · obtain ⟨rest, hreads⟩ := List.head?_eq_some_iff.mp hhead
      simp [readPayload, hleft, hreads, Conn.read, hwait] at h
    · obtain ⟨s'', es'', heq, -, ⟨-, hphase, -⟩ | ⟨hm, -, -, hes⟩ | ⟨-, -, hphase, -⟩⟩ :=
        @readPayload_upTo s t nleft i offset k hleft hhead hwait
      all_goals obtain ⟨rfl, rfl⟩ := Prod.mk.inj (Option.some.inj (h.symm.trans heq))
      · simp at hphase
      · simp at hes
      · simp at hphase
  | @chunk bs conn _ htook hne hlen =>
    obtain ⟨rest, hrest⟩ : ∃ rest, conn.inq = rest := ⟨_, rfl⟩
    have harrived : arrived = bs ++ rest := by rw [← hs.inq, ← htook.stream, hrest]
    -- no more has arrived than is left, so the counter does not wrap
    have hbs : bs.length ≤ nleft := by
      rw [harrived, List.length_append] at hle
      omega
    refine ⟨rfl, Or.inr (Or.inr ⟨bs, rest, hne, harrived, ⟨hrest, htook.eof.trans hs.eof, hs.buf⟩,
      ?_, rfl⟩)⟩
    have hmod : (nleft + (2 ^ 64 - bs.length)) % 2 ^ 64 = nleft - bs.length := by omega
    simp only [hmod, hsize]

theorem replyImage_calm {code : ℕ} (hcon : t.Connected) (h : replyImage s t code = some (s', es)) :
    s'.phase = .command ∧ s'.conn = s.conn ∧ s'.tsd = s.tsd ∧ sentBytes es = ebuf code := by
  obtain ⟨⟨ret, m, sent⟩, hw, heq⟩ := Option.map_eq_some_iff.mp h
  obtain ⟨-, rfl, errno, rfl⟩ := Session.writen_calm hcon.writes hw
  obtain ⟨rfl, rfl⟩ : _ = s' ∧ _ = es := by simpa using heq
  exact ⟨rfl, rfl, rfl, sentBytes_send _⟩

theorem replyForm_calm (hcon : t.Connected) (h : replyForm s t = some (s', es)) :
    s'.phase = .command ∧ s'.conn = s.conn ∧ s'.tsd = s.tsd ∧ sentBytes es = ebuf SUCCESS ∧
      ∀ cwd (w : World), w.after cwd es = w := by
  obtain ⟨rfl, errno, rfl⟩ := Session.accept_calm hcon.writes h
  exact ⟨rfl, rfl, rfl, sentBytes_send _, fun cwd w => rfl⟩

theorem replyForm_some (hample : t.Ample) : ∃ r, replyForm s t = some r :=
  Session.accept_some hample.calm.writes (le_trans (by decide) hample.writes)

/-! ### Forms -/

/-- A line that the body loop takes as it is: it ends with its newline, it fits and it
ends nothing. -/
structure FormLine (line : Bytes) : Prop where
  ends : ∃ body, line = body ++ [newline] ∧ newline ∉ body
  fits : line.length < MAXLINE
  nul : nul ∉ line
  dot : ¬ ascii ".\n" <+: line
  quit : ¬ ascii "QUIT\n" <+: line

theorem FormLine.whole (h : FormLine line) : Lines.Whole isNewline (MAXLINE - 1) line := by
  obtain ⟨⟨body, rfl, hbody⟩, hfits, -, -, -⟩ := h
  refine Lines.whole_line isNewline (fun b hb => ?_) rfl ?_
  · simpa [isNewline] using ne_of_mem_of_not_mem hb hbody
  · rw [List.length_append, List.length_singleton] at hfits
    omega

theorem FormLine.ne_nil (h : FormLine line) : line ≠ [] := by
  obtain ⟨⟨body, rfl, -⟩, -, -, -, -⟩ := h
  simp

/-- The body loop copies a line to the text and to the record. -/
theorem readBody_takes (hcalm : t.Calm) (hs : unread s.tsd s.conn = line ++ rest)
    (hline : FormLine line)
    (hphase : s.phase = .body) (hroom : s.regbuf.length + (line.length + 1) ≤ MAXINFOSIZE)
    (h : readBody s t = some (s', es)) :
    s'.phase = .body ∧ s.Past rest s' ∧ sentBytes es = [] ∧ s'.stfile = s.stfile ++ line ∧
      s'.regbuf = s.regbuf ++ (line ++ [nul]) ∧ s'.filename = s.filename ∧ s'.regdb = s.regdb ∧
      s'.regkey = s.regkey ∧ ∀ cwd (w : World), w.after cwd es = w := by
  simp only [readBody, Option.bind_eq_bind, Option.bind_eq_some_iff] at h
  obtain ⟨⟨ret, got, m⟩, hread, h⟩ := h
  obtain ⟨hret, -⟩ := Session.readline_calm hcalm.reads hs hline.whole hline.ne_nil hread
  obtain ⟨hpos, rfl, hpast⟩ := readline_front hcalm.connected hs hline.whole hline.ne_nil hread
  have hread' := Session.readline_cases hread
  -- the line has its newline, so `ret` counts its bytes and no more
  have hends : endsLine got = true := by
    obtain ⟨⟨body, rfl, -⟩, -, -, -, -⟩ := hline
    simp [isNewline]
  have hbuffer := hread'.buffer_eq hpos
  have htext : cstr m.buffer = got := by
    rw [hbuffer, cstr_append_nul, cstr_eq_self hline.nul]
  have hcopied : (m.buffer ++ [t.past]).take (ret.toNat + 1) = got ++ [nul] := by
    have hlen : ret.toNat + 1 = (got ++ [nul]).length := by
      rw [hret, if_pos hends]
      simp
    have hsplit : m.buffer ++ [t.past] =
        (got ++ [nul]) ++ (s.buffer.drop (got.length + 1) ++ [t.past]) := by
      rw [hbuffer]
      simp
    rw [hlen, hsplit, List.take_left]
  have hkeep : m.phase = s.phase ∧ m.stfile = s.stfile ∧ m.regbuf = s.regbuf ∧
      m.filename = s.filename ∧ m.regdb = s.regdb ∧ m.regkey = s.regkey := by
    rw [hread'.keep]
    exact ⟨rfl, rfl, rfl, rfl, rfl, rfl⟩
  obtain ⟨hkphase, hkstfile, hkregbuf, hkfilename, hkregdb, hkregkey⟩ := hkeep
  have hnot : ∀ {lit : Bytes}, nul ∉ lit → ¬ lit <+: got → ¬ strncmp m.buffer lit = true := by
    intro lit hnul hlit
    rwa [hread'.strncmp_eq hpos hnul, List.isPrefixOf_iff_prefix]
  have hfree : m.regbuf.length + (got ++ [nul]).length ≤ MAXINFOSIZE := by
    rw [hkregbuf, List.length_append, List.length_singleton]
    exact hroom
  have hopen : m.regbuf.length < MAXINFOSIZE := by
    rw [hkregbuf]
    omega
  dsimp only at h
  rw [if_neg (by omega), if_neg (hnot (by decide) hline.dot), if_neg (hnot (by decide) hline.quit),
    if_neg (by simp [hcalm.ok]), hcopied, if_neg (Nat.not_le.mpr hopen),
    if_neg (Nat.not_lt.mpr hfree)] at h
  obtain ⟨rfl, rfl⟩ := Prod.mk.inj (Option.some.inj h)
  exact ⟨hkphase.trans hphase, ⟨hpast.unread, hpast.eof⟩, rfl, by rw [← hkstfile, htext],
    by rw [← hkregbuf], hkfilename, hkregdb, hkregkey, fun cwd w => rfl⟩

/-! ### Progress -/

theorem binary_some (hample : t.Ample) : ∃ r, binary s t = some r := by
  have hreply : ∀ code : ℕ, (ebuf code).length ≤ MAXLINE →
      ∃ r, s.writen (ebuf code) t.writes = some r := fun code hcode =>
    Session.writen_some hample.calm.writes (hcode.trans hample.writes)
  unfold binary
  split
  · obtain ⟨w, hw⟩ := hreply E_IMG_NOSUPPORT (by decide)
    exact ⟨_, by rw [hw]; rfl⟩
  · obtain ⟨w, hw⟩ := hreply SUCCESS (by decide)
    exact ⟨_, by rw [hw]; rfl⟩

/-- A line that has arrived is read. -/
theorem readline_some {body : Bytes} (hample : t.Ample)
    (hs : unread s.tsd s.conn = body ++ newline :: rest) (hlen : body.length < MAXLINE - 1) :
    ∃ r, s.readline t.reads = some r := by
  have hmax : MAXLINE = 120 := rfl
  have hreads := hample.reads
  obtain ⟨r, hr⟩ := @Posix.readline_some MAXLINE s.tsd ⟨s.conn, s.errno, t.reads, []⟩ body rest
    hample.calm.reads hs hlen (by dsimp only; omega)
  exact ⟨_, by rw [Session.readline, hr]; rfl⟩

theorem readCommand_some {body : Bytes} (hample : t.Ample)
    (hs : unread s.tsd s.conn = body ++ newline :: rest) (hlen : body.length < MAXLINE - 1) :
    ∃ r, readCommand s t = some r := by
  obtain ⟨⟨ret, line, m⟩, hread⟩ := readline_some hample hs hlen
  simp only [readCommand, hread, Option.bind_eq_bind, Option.bind_some]
  split_ifs
  · exact ⟨_, rfl⟩
  · exact ⟨_, rfl⟩
  · exact ⟨_, rfl⟩
  · exact ⟨_, rfl⟩
  · obtain ⟨w, hw⟩ := binary_some (s := m) hample
    exact ⟨_, by rw [hw]; rfl⟩
  · exact ⟨_, rfl⟩
  · exact ⟨_, rfl⟩

theorem readBody_some {body : Bytes} (hample : t.Ample)
    (hs : unread s.tsd s.conn = body ++ newline :: rest) (hlen : body.length < MAXLINE - 1) :
    ∃ r, readBody s t = some r := by
  obtain ⟨⟨ret, line, m⟩, hread⟩ := readline_some hample hs hlen
  simp only [readBody, hread, Option.bind_eq_bind, Option.bind_some]
  split_ifs
  all_goals exact ⟨_, rfl⟩

/-- A `read` that returns bytes is answered when bytes are there, or none are needed. -/
theorem readPayload_some {nleft i offset k : ℕ} (hhead : t.reads.head? = some (.upTo k))
    (hready : nleft = 0 ∨ s.conn.inq ≠ []) : ∃ r, readPayload s t nleft i offset = some r := by
  by_cases hleft : nleft = 0
  · exact ⟨_, by rw [readPayload, if_pos hleft]⟩
  · obtain ⟨s', es, heq, -⟩ := @readPayload_upTo s t nleft i offset k hleft hhead
      fun hwait => hready.resolve_left hleft hwait.2.1
    exact ⟨_, heq⟩

theorem replyImage_some {code : ℕ} (hample : t.Ample) (hlen : (ebuf code).length ≤ MAXLINE) :
    ∃ r, replyImage s t code = some r := by
  obtain ⟨w, hw⟩ := Session.writen_some (s := s) hample.calm.writes (hlen.trans hample.writes)
  exact ⟨_, by rw [replyImage, hw]; rfl⟩

end Serving

end Esif.Server
