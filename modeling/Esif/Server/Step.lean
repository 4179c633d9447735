import Esif.Server.Session

/-!
# What one step of a session does

One lemma for each place of `manage_client`, saying everything its step can do.
The invariants of the session are case analyses of these; none of them looks
into the step functions again.

## Main definitions

* `CommandStep`, `PayloadStep`, `BodyStep` — the outcomes of the three loops
* `Keeps` — the variables that are fixed once the stores are open

## Main results

* `readMagic_cases`, `readUser_cases`, `readPass_cases` — the login
* `readCommand_step`, `readPayload_step`, `readBody_step` — the loops
* `manageClient_cases` — a step waits or acts
* `Acted.next` — the diagram of the places
* `Acted.keeps` — the college of a session does not change
-/

namespace Esif.Server

open Esif.CS Esif.Posix

/-- A reply, or a part of one. -/
def Event.IsReply (e : Event) : Prop := ∃ data, e = .send data

/-! ### The socket calls -/

namespace Session

variable {s s' : Session} {es : List Event} {ret : ℤ} {writes reads : List Outcome}

theorem writen_cases {bs : Bytes} (h : s.writen bs writes = some (ret, s', es)) :
    ∃ errno sent, s' = { s with errno := errno } ∧ es = [.send sent] ∧ sent <+: bs ∧
      (ret = bs.length ∧ sent = bs ∨ ret = -1) := by
  obtain ⟨w, hw, heq⟩ := Option.map_eq_some_iff.mp h
  obtain ⟨rfl, rfl, rfl⟩ : w.ret = ret ∧ _ = s' ∧ _ = es := by simpa using heq
  obtain ⟨-, -, hpre, hret⟩ := writen_spec hw
  exact ⟨w.net.errno, w.sent, rfl, rfl, hpre, hret⟩

theorem refuse_cases {bs : Bytes} (h : s.refuse bs writes = some (s', es)) :
    ∃ errno sent, s' = { s with errno := errno, phase := .done } ∧ es = [.send sent] ∧
      sent <+: bs := by
  obtain ⟨⟨ret, m, sent⟩, hw, heq⟩ := Option.map_eq_some_iff.mp h
  obtain ⟨errno, sent, rfl, rfl, hpre, -⟩ := writen_cases hw
  obtain ⟨rfl, rfl⟩ : _ = s' ∧ _ = es := by simpa using heq
  exact ⟨errno, sent, rfl, rfl, hpre⟩

theorem accept_cases {bs : Bytes} {next : Phase} (h : s.accept bs writes next = some (s', es)) :
    (∃ errno sent, s' = { s with errno := errno, phase := .done } ∧ es = [.send sent]) ∨
    (∃ errno, s' = { s with errno := errno, phase := next } ∧ es = [.send bs]) := by
  obtain ⟨⟨ret, m, sent⟩, hw, heq⟩ := Option.map_eq_some_iff.mp h
  obtain ⟨errno, sent, rfl, rfl, hpre, hret⟩ := writen_cases hw
  by_cases hfull : ret = bs.length
  · obtain ⟨rfl, rfl⟩ : _ = s' ∧ _ = es := by simpa [hfull] using heq
    rcases hret with ⟨-, rfl⟩ | hneg
    · exact Or.inr ⟨errno, rfl, rfl⟩
    · omega
  · obtain ⟨rfl, rfl⟩ : _ = s' ∧ _ = es := by simpa [hfull] using heq
    exact Or.inl ⟨errno, sent, rfl, rfl⟩

theorem readn_cases {n : ℕ} {got : Bytes} (h : s.readn n reads = some (ret, got, s')) :
    ∃ conn errno, s' = { s with conn := conn, errno := errno, buffer := store got s.buffer } ∧
      s.conn.Took got conn ∧ (ret = n ∧ got.length = n ∨ ret < n) := by
  obtain ⟨r, hr, heq⟩ := Option.map_eq_some_iff.mp h
  obtain ⟨rfl, rfl, rfl⟩ : r.ret = ret ∧ r.got = got ∧ _ = s' := by simpa using heq
  obtain ⟨htook, -, -, hret⟩ := readn_spec hr
  exact ⟨r.net.conn, r.net.errno, rfl, htook, hret⟩

/-- What a call of `readline` that returned `ret` has stored and left behind. -/
structure LineRead (s : Session) (ret : ℤ) (line : Bytes) (m : Session) : Prop where
  keep : m = { s with
    conn := m.conn, errno := m.errno, tsd := m.tsd
    buffer := store (if 0 < ret then line ++ [nul] else line) s.buffer }
  reads : Reads s.tsd s.conn line m.tsd m.conn
  ret : ret = -1 ∨
    (ret = 0 ∧ line = [] ∧ unread s.tsd s.conn = [] ∧ s.conn.eof) ∨
    (ret = line.length + (if endsLine line then 0 else 1) ∧ line ≠ [] ∧
      line = Lines.piece isNewline (MAXLINE - 1) (unread s.tsd s.conn) ∧
      (Lines.Settled isNewline (MAXLINE - 1) line ∨ unread m.tsd m.conn = [] ∧ s.conn.eof))

theorem readline_cases {line : Bytes} (h : s.readline reads = some (ret, line, s')) :
    LineRead s ret line s' := by
  obtain ⟨r, hr, heq⟩ := Option.map_eq_some_iff.mp h
  obtain ⟨rfl, rfl, rfl⟩ : r.ret = ret ∧ r.stored = line ∧ _ = s' := by simpa using heq
  have spec := readline_spec hr
  obtain ⟨bs, hstored, hreads⟩ := spec.reads
  rw [List.nil_append] at hstored
  refine ⟨rfl, hstored ▸ hreads, ?_⟩
  rcases spec.ret with herr | hend | ⟨hret, hne, hpiece, hset⟩
  · exact Or.inl herr
  · exact Or.inr (Or.inl hend)
  · rw [List.nil_append] at hpiece
    exact Or.inr (Or.inr ⟨hret, hne, hpiece, hpiece ▸ hset⟩)

/-- A literal is found in the buffer when the line begins with it. -/
theorem LineRead.strncmp_eq {line : Bytes} {m : Session} (h : LineRead s ret line m)
    (hret : 0 < ret) {lit : Bytes} (hlit : nul ∉ lit) :
    strncmp m.buffer lit = lit.isPrefixOf line := by
  have hbuf : m.buffer = line ++ nul :: s.buffer.drop (line.length + 1) := by
    rw [h.keep]
    simp [hret, store]
  rw [strncmp, hbuf]
  exact isPrefixOf_append_cons hlit line _

end Session

/-! ### Login -/

/-- The session is over. -/
def Session.Stopped (s : Session) : Prop := s.phase = .done ∨ s.phase = .fault

section Login

variable {env : Env} {s s' : Session} {t : Turn} {es : List Event}

/-- The login ends the session, having sent at most a reply. -/
def Refused (s' : Session) (es : List Event) : Prop := s'.Stopped ∧ ∀ e ∈ es, e.IsReply

theorem refused_of_finish (s : Session) : Refused s.finish [] := ⟨Or.inl rfl, by simp⟩

theorem refused_of_refuse {bs : Bytes} {writes : List Outcome}
    (h : s.refuse bs writes = some (s', es)) : Refused s' es := by
  obtain ⟨errno, sent, rfl, rfl, -⟩ := Session.refuse_cases h
  exact ⟨Or.inl rfl, by simp [Event.IsReply]⟩

theorem accept_refused_or {bs : Bytes} {writes : List Outcome} {next : Phase}
    (h : s.accept bs writes next = some (s', es)) :
    Refused s' es ∨ ∃ errno, s' = { s with errno := errno, phase := next } ∧ es = [.send bs] := by
  rcases Session.accept_cases h with ⟨errno, sent, rfl, rfl⟩ | hpass
  · exact Or.inl ⟨Or.inl rfl, by simp [Event.IsReply]⟩
  · exact Or.inr hpass

/-- The magic step goes on only behind the 20 bytes of the magic. -/
theorem readMagic_cases (h : readMagic env s t = some (s', es)) :
    Refused s' es ∨ ∃ conn errno buffer, s.conn.Took env.magic conn ∧
      env.magic.length = SHA_DIGEST_LENGTH ∧
      s' = { s with conn := conn, errno := errno, buffer := buffer, phase := .user } ∧
      es = [.send (ebuf SUCCESS)] := by
  simp only [readMagic, Option.bind_eq_bind, Option.bind_eq_some_iff] at h
  obtain ⟨⟨ret, got, m⟩, hread, h⟩ := h
  obtain ⟨conn, errno, rfl, htook, hret⟩ := Session.readn_cases hread
  dsimp only at h
  split_ifs at h with hshort hmagic
  · obtain ⟨rfl, rfl⟩ := Option.some.inj h
    exact Or.inl (refused_of_finish _)
  · obtain ⟨rfl, rfl⟩ := Option.some.inj h
    exact Or.inl (refused_of_finish _)
  · obtain rfl := not_not.mp hmagic
    rcases accept_refused_or h with href | ⟨errno', rfl, rfl⟩
    · exact Or.inl href
    · exact Or.inr ⟨conn, errno', _, htook, by omega, rfl, rfl⟩

/-- The record of a user whose window is open at both looks at the clock. -/
structure Admits (passbuf : Password) (first second : ℤ) : Prop where
  enabled : passbuf.disabled ≠ 1
  started : passbuf.start ≤ first
  open_ : second ≤ passbuf.end_

theorem checkUser_cases (h : checkUser env s t = some (s', es)) :
    Refused s' es ∨ ∃ errno, Admits s.passbuf s.clock (s.clock + t.lag) ∧
      s' = { s with
        errno := errno, clock := s.clock + t.lag
        checked := (s.clock, s.clock + t.lag), phase := .pass } ∧
      es = [.send (windowReply env s.passbuf)] := by
  simp only [checkUser] at h
  split_ifs at h with hdis hstart hend
  · exact Or.inl (refused_of_refuse h)
  · exact Or.inl (refused_of_refuse h)
  · exact Or.inl (refused_of_refuse h)
  · rcases accept_refused_or h with href | ⟨errno, rfl, rfl⟩
    · exact Or.inl href
    · exact Or.inr ⟨errno, ⟨hdis, by omega, by omega⟩, rfl, rfl⟩

/-- The user step goes on only behind a `USER` line whose user is looked up and
whose record passes the checks. -/
theorem readUser_cases (h : readUser env s t = some (s', es)) :
    Refused s' es ∨ ∃ line passbuf conn errno buffer, s.conn.Took line conn ∧
      line.length = 10 ∧ strncmp line (ascii "USER ") ∧
      lookupUser env.passdbp (scanUser (line.drop 5) s.user) s.passbuf = (0, passbuf) ∧
      Admits passbuf s.clock (s.clock + t.lag) ∧
      s' = { s with
        conn := conn, errno := errno, buffer := buffer, user := scanUser (line.drop 5) s.user
        passbuf := passbuf, clock := s.clock + t.lag
        checked := (s.clock, s.clock + t.lag), phase := .pass } ∧
      es = [.send (windowReply env passbuf)] := by
  simp only [readUser, Option.bind_eq_bind, Option.bind_eq_some_iff] at h
  obtain ⟨⟨ret, line, m⟩, hread, h⟩ := h
  obtain ⟨conn, errno, rfl, htook, hret⟩ := Session.readn_cases hread
  dsimp only at h
  split_ifs at h with hshort huser hno
  · obtain ⟨rfl, rfl⟩ := Option.some.inj h
    exact Or.inl (refused_of_finish _)
  · obtain ⟨rfl, rfl⟩ := Option.some.inj h
    exact Or.inl (refused_of_finish _)
  · exact Or.inl (refused_of_refuse h)
  · rcases checkUser_cases h with href | ⟨errno', hadmits, rfl, rfl⟩
    · exact Or.inl href
    · have hlen : line.length = 10 := by omega
      have hline : strncmp line (ascii "USER ") := by simpa using huser
      exact Or.inr ⟨line, _, conn, errno', _, htook, hlen, hline,
        Prod.ext (not_not.mp hno) rfl, hadmits, rfl, rfl⟩

/-- The password step goes on only behind `PASS ` and the stored digest. -/
theorem readPass_cases (h : readPass s t = some (s', es)) :
    Refused s' es ∨ ∃ conn errno buffer, s.passbuf.len ≤ SHA_DIGEST_LENGTH ∧
      s.conn.Took (ascii "PASS " ++ s.passbuf.pass.take s.passbuf.len) conn ∧
      s' = { s with conn := conn, errno := errno, buffer := buffer, phase := .setup } ∧
      es = [.send (ebuf SUCCESS)] := by
  simp only [readPass] at h
  split_ifs at h with hfit
  · obtain ⟨rfl, rfl⟩ := Option.some.inj h
    exact Or.inl ⟨Or.inr rfl, by simp⟩
  · simp only [Option.bind_eq_bind, Option.bind_eq_some_iff] at h
    obtain ⟨⟨ret, got, m⟩, hread, h⟩ := h
    obtain ⟨conn, errno, rfl, htook, hret⟩ := Session.readn_cases hread
    dsimp only at h
    split_ifs at h with hshort hpass hlen hdigest
    · obtain ⟨rfl, rfl⟩ := Option.some.inj h
      exact Or.inl (refused_of_finish _)
    · obtain ⟨rfl, rfl⟩ := Option.some.inj h
      exact Or.inl (refused_of_finish _)
    · obtain ⟨rfl, rfl⟩ := Option.some.inj h
      exact Or.inl ⟨Or.inr rfl, by simp⟩
    · exact Or.inl (refused_of_refuse h)
    · rcases accept_refused_or h with href | ⟨errno', rfl, rfl⟩
      · exact Or.inl href
      · have hgot : got = ascii "PASS " ++ s.passbuf.pass.take s.passbuf.len := by
          have hword : ascii "PASS " <+: got := by simpa [strncmp] using hpass
          rw [← not_not.mp hdigest]
          exact (List.prefix_iff_eq_append.mp hword).symm
        exact Or.inr ⟨conn, errno', _, by omega, hgot ▸ htook, rfl, rfl⟩

/-- Setting up emits the same calls whatever becomes of them, and opens the
database unless that fails. -/
theorem openStores_cases (h : openStores env s t = (s', es)) :
    let college := toInt32 (strtol s.user)
    let session := env.year s.clock
    let made : List Event := [.mkdir (yearDir TXTROOT3 session),
      .mkdir (yearDir TXTROOT3 session ++ institute college), .mkdir (yearDir BDBROOT3 session)]
    ∃ buffer phase, (phase = .done ∨ phase = .command) ∧
      s' = { s with
        college := college, txtdir := txtdirOf session college
        regdb := regdbOf session college, buffer := buffer, phase := phase } ∧
      (es = made ∨ es = made ++ [.openDb (regdbOf session college)]) := by
  simp only [openStores] at h
  split_ifs at h with hok hmem
  · obtain ⟨rfl, rfl⟩ := h
    exact ⟨_, .done, Or.inl rfl, rfl, Or.inl rfl⟩
  · obtain ⟨rfl, rfl⟩ := h
    exact ⟨_, .done, Or.inl rfl, rfl, Or.inr rfl⟩
  · obtain ⟨rfl, rfl⟩ := h
    exact ⟨_, .command, Or.inr rfl, rfl, Or.inr rfl⟩

end Login

/-! ### The loops -/

section Loops

variable {s s' : Session} {t : Turn} {es : List Event}

/-- A line that begins with a word and a newline is that word and that newline. -/
theorem Session.LineRead.eq_of_word {ret : ℤ} {line : Bytes} {m : Session}
    (h : s.LineRead ret line m) (hret : 0 < ret) (word : Bytes)
    (hword : word ++ [newline] <+: line) :
    line = word ++ [newline] := by
  rcases h.ret with herr | ⟨hzero, -⟩ | ⟨-, -, hpiece, -⟩
  · omega
  · omega
  · rw [hpiece] at hword ⊢
    exact Lines.piece_eq_of_word isNewline rfl hword

theorem Session.LineRead.buffer_eq {ret : ℤ} {line : Bytes} {m : Session}
    (h : s.LineRead ret line m) (hret : 0 < ret) :
    m.buffer = line ++ nul :: s.buffer.drop (line.length + 1) := by
  rw [h.keep]
  simp [hret, store]

/-- What the scanners see of the buffer behind a word is what follows the word
in the line. -/
theorem Session.LineRead.cstr_drop {ret : ℤ} {line : Bytes} {m : Session}
    (h : s.LineRead ret line m) (hret : 0 < ret) {n : ℕ} (hn : n ≤ line.length) :
    cstr (m.buffer.drop n) = cstr (line.drop n) := by
  rw [h.buffer_eq hret, List.drop_append_of_le_length hn]
  exact cstr_append_nul _ _

theorem not_form_of_photo {line : Bytes} (h : ascii "BINARY " <+: line) :
    ¬ ascii "FILENAME " <+: line := by
  intro h'
  have hfirst := List.prefix_of_prefix_length_le h h' (by decide)
  exact absurd hfirst (by decide)

/-- What the command loop can do with the next line. -/
inductive CommandStep (s : Session) (t : Turn) : Session → List Event → Prop
  /-- Leave: at the end of the stream, at an error or timeout, at `QUIT` or at a
  line that is no command. -/
  | leave {ret line m es} (hread : s.readline t.reads = some (ret, line, m))
      (hes : es = [] ∨ 0 < ret ∧ es = [.command s.linePos line]) :
      CommandStep s t m.finish es
  /-- A photo while the server takes none. -/
  | refused {ret line m errno sent} (hread : s.readline t.reads = some (ret, line, m))
      (hret : 9 ≤ ret)
      (hword : ascii "BINARY " <+: line) (hoff : t.acceptimage = false) :
      CommandStep s t { m with errno := errno, phase := .command }
        [.command s.linePos line, .send sent]
  /-- A photo without a name. -/
  | unnamed {ret line m errno sent imgsize} (hread : s.readline t.reads = some (ret, line, m))
      (hret : 9 ≤ ret)
      (hword : ascii "BINARY " <+: line) (hon : t.acceptimage = true)
      (hscan : scanBinary (cstr (line.drop 7)) = (imgsize, [])) :
      CommandStep s t { m with errno := errno, tmpname := [], phase := .imageReply E_ERROR }
        [.command s.linePos line, .send sent, .payload m.linePos imgsize]
  /-- A photo whose name does not fit. -/
  | overlong {ret line m errno sent imgsize tmpname}
      (hread : s.readline t.reads = some (ret, line, m))
      (hret : 9 ≤ ret)
      (hword : ascii "BINARY " <+: line) (hon : t.acceptimage = true)
      (hscan : scanBinary (cstr (line.drop 7)) = (imgsize, tmpname)) :
      CommandStep s t { m with errno := errno, tmpname := tmpname, phase := .fault }
        [.command s.linePos line, .send sent, .payload m.linePos imgsize]
  /-- A photo. -/
  | image {ret line m errno sent imgsize tmpname} (hread : s.readline t.reads = some (ret, line, m))
      (hret : 9 ≤ ret)
      (hword : ascii "BINARY " <+: line) (hon : t.acceptimage = true)
      (hscan : scanBinary (cstr (line.drop 7)) = (imgsize, tmpname)) (hname : tmpname ≠ [])
      (hlen : tmpname.length < MAXFILENAME) :
      CommandStep s t { m with
          errno := errno, tmpname := tmpname, filename := m.txtdir ++ tmpname
          phase := .image imgsize }
        [.command s.linePos line, .send sent, .payload m.linePos imgsize]
  /-- A form whose name does not fit. -/
  | misnamed {ret line m} (hread : s.readline t.reads = some (ret, line, m)) (hret : 9 ≤ ret)
      (hword : ascii "FILENAME " <+: line) :
      CommandStep s t { m with phase := .fault } [.command s.linePos line]
  /-- A form whose file cannot be opened. -/
  | closed {ret line m tmpname regkey} (hread : s.readline t.reads = some (ret, line, m))
      (hret : 9 ≤ ret)
      (hword : ascii "FILENAME " <+: line) :
      CommandStep s t { m with
          tmpname := tmpname, filename := m.txtdir ++ tmpname, regkey := regkey, errno := .other
          phase := .done }
        [.command s.linePos line]
  /-- A form. -/
  | form {ret line m tmpname} (hread : s.readline t.reads = some (ret, line, m)) (hret : 9 ≤ ret)
      (hword : ascii "FILENAME " <+: line)
      (hscan : scanFilename (cstr (line.drop 9)) m.tmpname = tmpname)
      (hlen : 4 ≤ tmpname.length ∧ tmpname.length < MAXFILENAME) (hok : t.ok = true) :
      CommandStep s t { m with
          tmpname := tmpname, filename := m.txtdir ++ tmpname
          regkey := tmpname.take (tmpname.length - 4), stfile := [], regbuf := [], phase := .body }
        [.command s.linePos line, .openTrunc (m.txtdir ++ tmpname)]

theorem binary_step {ret : ℤ} {line : Bytes} {m : Session}
    (hread : s.readline t.reads = some (ret, line, m))
    (hret : 9 ≤ ret) (hword : ascii "BINARY " <+: line) (h : binary m t = some (s', es)) :
    CommandStep s t s' (.command s.linePos line :: es) := by
  have hlen : 7 ≤ line.length := hword.length_le
  have hargs := (Session.readline_cases hread).cstr_drop (by omega) hlen
  simp only [binary] at h
  split_ifs at h with hoff
  · obtain ⟨⟨ret', m', sent⟩, hw, heq⟩ := Option.map_eq_some_iff.mp h
    obtain ⟨errno, sent, rfl, rfl, -⟩ := Session.writen_cases hw
    obtain ⟨rfl, rfl⟩ : _ = s' ∧ _ = es := by simpa using heq
    exact .refused hread hret hword (by simpa using hoff)
  · obtain ⟨⟨ret', m', sent⟩, hw, heq⟩ := Option.map_eq_some_iff.mp h
    obtain ⟨errno, sent, rfl, rfl, -⟩ := Session.writen_cases hw
    obtain ⟨imgsize, tmpname, hscan⟩ :
        ∃ imgsize tmpname, scanBinary (cstr (line.drop 7)) = (imgsize, tmpname) := ⟨_, _, rfl⟩
    simp only [hargs, hscan] at heq
    split_ifs at heq with hname hfit
    · obtain ⟨rfl, rfl⟩ := Prod.mk.inj heq
      subst hname
      exact .unnamed hread hret hword (by simpa using hoff) hscan
    · obtain ⟨rfl, rfl⟩ := Prod.mk.inj heq
      exact .overlong hread hret hword (by simpa using hoff) hscan
    · obtain ⟨rfl, rfl⟩ := Prod.mk.inj heq
      exact .image hread hret hword (by simpa using hoff) hscan hname (by omega)

theorem filenameLine_step {ret : ℤ} {line : Bytes} {m : Session}
    (hread : s.readline t.reads = some (ret, line, m))
    (hret : 9 ≤ ret) (hword : ascii "FILENAME " <+: line) (h : filenameLine m t = (s', es)) :
    CommandStep s t s' (.command s.linePos line :: es) := by
  have hlen : 9 ≤ line.length := hword.length_le
  simp only [filenameLine, (Session.readline_cases hread).cstr_drop (by omega) hlen] at h
  split_ifs at h with hfit hok
  · obtain ⟨rfl, rfl⟩ := Prod.mk.inj h
    exact .misnamed hread hret hword
  · obtain ⟨rfl, rfl⟩ := Prod.mk.inj h
    exact .closed hread hret hword
  · obtain ⟨rfl, rfl⟩ := Prod.mk.inj h
    exact .form hread hret hword rfl (by omega) (by simpa using hok)

theorem readCommand_step (h : readCommand s t = some (s', es)) : CommandStep s t s' es := by
  simp only [readCommand, Option.bind_eq_bind, Option.bind_eq_some_iff] at h
  obtain ⟨⟨ret, line, m⟩, hread, h⟩ := h
  have hline := Session.readline_cases hread
  dsimp only at h
  split_ifs at h with herrno hquit hpos hshort hbinary hform
  · obtain ⟨rfl, rfl⟩ := Option.some.inj h
    exact .leave hread (Or.inl rfl)
  · obtain ⟨rfl, rfl⟩ := Option.some.inj h
    exact .leave hread (Or.inr ⟨hpos, rfl⟩)
  · obtain ⟨rfl, rfl⟩ := Option.some.inj h
    exact .leave hread (Or.inl rfl)
  · obtain ⟨rfl, rfl⟩ := Option.some.inj h
    exact .leave hread (Or.inl rfl)
  · obtain ⟨⟨s'', es'⟩, hbin, heq⟩ := Option.bind_eq_some_iff.mp h
    obtain ⟨rfl, rfl⟩ : s'' = s' ∧ _ = es := by simpa using heq
    rw [hline.strncmp_eq (by omega) (by decide)] at hbinary
    exact binary_step hread (by omega) (List.isPrefixOf_iff_prefix.mp hbinary) hbin
  · obtain ⟨rfl, rfl⟩ := Option.some.inj h
    exact .leave hread (Or.inl rfl)
  · obtain ⟨rfl, rfl⟩ := Prod.mk.inj (Option.some.inj h)
    rw [hline.strncmp_eq (by omega) (by decide)] at hform
    exact filenameLine_step hread (by omega)
      (List.isPrefixOf_iff_prefix.mp (by simpa using hform)) rfl

/-- What one turn of the loop of `accept_binary` can do. -/
inductive PayloadStep (s : Session) (t : Turn) (nleft i offset : ℕ) : Session → List Event → Prop
  /-- Nothing is left. -/
  | finished (hleft : nleft = 0) :
      PayloadStep s t nleft i offset { s with phase := .imageReply SUCCESS } []
  /-- The read is interrupted. -/
  | interrupted (hleft : nleft ≠ 0) :
      PayloadStep s t nleft i offset
        { s with errno := .eintr, phase := .payload nleft (blockSize nleft i) offset } []
  /-- The read fails. -/
  | error {e} (hleft : nleft ≠ 0) (hfails : t.reads.head? = some (.fails e)) (he : e ≠ .eintr) :
      PayloadStep s t nleft i offset { s with errno := e, phase := .imageReply E_ERROR } []
  /-- The read returns nothing: the stream has ended, or nothing was asked for. -/
  | eof (hleft : nleft ≠ 0) (hend : blockSize nleft i = 0 ∨ s.conn.inq = [] ∧ s.conn.eof) :
      PayloadStep s t nleft i offset { s with phase := .imageReply (imageResult nleft) } []
  /-- The bytes read are written. -/
  | chunk {bs conn} (hleft : nleft ≠ 0) (htook : s.conn.Took bs conn) (hne : bs ≠ [])
      (hlen : bs.length ≤ blockSize nleft i) (hok : t.ok = true) :
      PayloadStep s t nleft i offset
        { s with
          conn := conn
          phase := .payload ((nleft + (2 ^ 64 - bs.length)) % 2 ^ 64) (blockSize nleft i)
            (offset + bs.length) }
        [.writeAt s.filename offset bs]
  /-- The bytes read are not written, or not all of them. -/
  | short {o bs conn} (hleft : nleft ≠ 0) (htook : s.conn.Took bs conn) (hok : t.ok = false)
      (hhead : t.reads.head? = some o)
      (hread : s.conn.read (blockSize nleft i) o = some (.data bs, conn)) :
      PayloadStep s t nleft i offset
        { s with
          conn := conn, errno := s.writeErrno t, phase := .imageReply (imageResult nleft) }
        [.writeAt s.filename offset (bs.take t.kept)]

theorem readPayload_step {nleft i offset : ℕ} (h : readPayload s t nleft i offset = some (s', es)) :
    PayloadStep s t nleft i offset s' es := by
  unfold readPayload at h
  split at h
  · next hleft =>
    obtain ⟨rfl, rfl⟩ := Option.some.inj h
    exact .finished hleft
  · next hleft =>
    dsimp only at h
    split at h
    · cases h
    · next o rest hreads =>
      split at h
      · cases h
      · obtain ⟨rfl, rfl⟩ := Option.some.inj h
        exact .interrupted hleft
      · next e conn hne hread =>
        obtain ⟨rfl, rfl⟩ := Option.some.inj h
        refine .error hleft ?_ hne
        rw [hreads, List.head?_cons, Conn.read_error_outcome hread]
      · next conn hread =>
        obtain ⟨rfl, rfl⟩ := Option.some.inj h
        exact .eof hleft ((Conn.read_data hread).2.2 rfl)
      · next bs conn hne hread =>
        obtain ⟨htook, hlen, -⟩ := Conn.read_data hread
        split_ifs at h with hok
        · obtain ⟨rfl, rfl⟩ := Option.some.inj h
          exact .chunk hleft htook hne hlen hok
        · obtain ⟨rfl, rfl⟩ := Option.some.inj h
          exact .short hleft htook (by simpa using hok) (by rw [hreads, List.head?_cons]) hread

/-- What the body loop can do with the next line. -/
inductive BodyStep (s : Session) (t : Turn) : Session → List Event → Prop
  /-- Leave: at the end of the stream or at an error. -/
  | cut {ret line m} (hread : s.readline t.reads = some (ret, line, m)) (hret : ret ≤ 0) :
      BodyStep s t { m with phase := .abandon true } []
  /-- The line that ends the form. -/
  | dot {ret line m} (hread : s.readline t.reads = some (ret, line, m)) (hret : 0 < ret)
      (hword : ascii ".\n" <+: line) :
      BodyStep s t { m with phase := .close } [.bodyLine s.linePos line, .bodyEnd m.linePos]
  /-- `QUIT` inside the form. -/
  | quit {ret line m} (hread : s.readline t.reads = some (ret, line, m)) (hret : 0 < ret)
      (hword : ascii "QUIT\n" <+: line) :
      BodyStep s t { m with phase := .abandon true }
        [.bodyLine s.linePos line, .bodyEnd m.linePos]
  /-- A line that cannot be written. -/
  | failed {ret line m} (hread : s.readline t.reads = some (ret, line, m))
      (hret : 0 < ret) (hok : t.ok = false) :
      BodyStep s t { m with errno := .other, phase := .abandon false }
        [.bodyLine s.linePos line, .bodyEnd m.linePos]
  /-- A line behind a record that is full. -/
  | full {ret line m} (hread : s.readline t.reads = some (ret, line, m)) (hret : 0 < ret)
      (hfull : MAXINFOSIZE ≤ m.regbuf.length) :
      BodyStep s t { m with stfile := m.stfile ++ cstr line, phase := .command }
        [.bodyLine s.linePos line, .bodyEnd m.linePos]
  /-- A line that does not fit the record. -/
  | overlong {ret line m stfile} (hread : s.readline t.reads = some (ret, line, m))
      (hret : 0 < ret) :
      BodyStep s t { m with stfile := stfile, phase := .fault } [.bodyLine s.linePos line]
  /-- A line of the form. -/
  | line {ret line m} (hread : s.readline t.reads = some (ret, line, m)) (hret : 0 < ret)
      (hdot : ¬ ascii ".\n" <+: line) (hquit : ¬ ascii "QUIT\n" <+: line) (hok : t.ok = true)
      (hroom : m.regbuf.length < MAXINFOSIZE) :
      BodyStep s t { m with
          stfile := m.stfile ++ cstr line
          regbuf := m.regbuf ++ (m.buffer ++ [t.past]).take (ret.toNat + 1) }
        [.bodyLine s.linePos line]

theorem readBody_step (h : readBody s t = some (s', es)) : BodyStep s t s' es := by
  simp only [readBody, Option.bind_eq_bind, Option.bind_eq_some_iff] at h
  obtain ⟨⟨ret, line, m⟩, hread, h⟩ := h
  have hline := Session.readline_cases hread
  dsimp only at h
  split_ifs at h with hret hdot hquit hok hfull hfit
  · obtain ⟨rfl, rfl⟩ := Option.some.inj h
    exact .cut hread hret
  · obtain ⟨rfl, rfl⟩ := Option.some.inj h
    rw [hline.strncmp_eq (by omega) (by decide)] at hdot
    exact .dot hread (by omega) (List.isPrefixOf_iff_prefix.mp hdot)
  · obtain ⟨rfl, rfl⟩ := Option.some.inj h
    rw [hline.strncmp_eq (by omega) (by decide)] at hquit
    exact .quit hread (by omega) (List.isPrefixOf_iff_prefix.mp hquit)
  · obtain ⟨rfl, rfl⟩ := Option.some.inj h
    exact .failed hread (by omega) (by simpa using hok)
  · obtain ⟨rfl, rfl⟩ := Option.some.inj h
    have hcstr : cstr m.buffer = cstr line := hline.cstr_drop (by omega) (Nat.zero_le _)
    rw [hcstr]
    exact .full hread (by omega) hfull
  · obtain ⟨rfl, rfl⟩ := Option.some.inj h
    exact .overlong hread (by omega)
  · obtain ⟨rfl, rfl⟩ := Option.some.inj h
    have hcstr : cstr m.buffer = cstr line := hline.cstr_drop (by omega) (Nat.zero_le _)
    rw [hline.strncmp_eq (by omega) (by decide)] at hdot hquit
    rw [hcstr]
    exact .line hread (by omega) (by simpa using hdot) (by simpa using hquit)
      (by simpa using hok) (by omega)

theorem flushed_prefix (stfile : Bytes) (t : Turn) : flushed stfile t <+: stfile := by
  unfold flushed
  split
  · exact List.prefix_rfl
  · exact List.take_prefix _ _

theorem closeForm_cases (h : closeForm s t = (s', es)) :
    ∃ errno, s' = { s with errno := errno, phase := .insert } ∧
      es = [.writeAt s.filename 0 (flushed s.stfile t)] := by
  obtain ⟨rfl, rfl⟩ := Prod.mk.inj h
  exact ⟨_, rfl, rfl⟩

theorem abandonForm_cases {leave : Bool} (h : abandonForm s t leave = (s', es)) :
    ∃ errno, s' = { s with errno := errno, phase := if leave then .done else .command } ∧
      es = [.writeAt s.filename 0 (flushed s.stfile t)] := by
  obtain ⟨rfl, rfl⟩ := Prod.mk.inj h
  exact ⟨_, rfl, rfl⟩

theorem insertForm_cases (h : insertForm s t = (s', es)) :
    s' = { s with phase := .reply } ∧
      (t.ok = true ∧ es = [.put s.regdb s.regkey s.regbuf] ∨ t.ok = false ∧ es = []) := by
  obtain ⟨rfl, rfl⟩ := Prod.mk.inj h
  by_cases hok : t.ok = true
  · exact ⟨rfl, Or.inl ⟨hok, by simp [hok]⟩⟩
  · exact ⟨rfl, Or.inr ⟨by simpa using hok, by simp [hok]⟩⟩

end Loops

/-! ### What no step changes -/

/-- The variables that are fixed once the stores of the college are open. -/
structure Keeps (s s' : Session) : Prop where
  user : s'.user = s.user
  passbuf : s'.passbuf = s.passbuf
  college : s'.college = s.college
  txtdir : s'.txtdir = s.txtdir
  regdb : s'.regdb = s.regdb
  checked : s'.checked = s.checked
  clock : s'.clock = s.clock

/-- The session is past its login and its stores are open. -/
def Phase.Serving : Phase → Prop
  | .magic => False
  | .user => False
  | .pass => False
  | .setup => False
  | _ => True

theorem Keeps.trans {s s' s'' : Session} (h : Keeps s s') (h' : Keeps s' s'') : Keeps s s'' :=
  ⟨h'.user.trans h.user, h'.passbuf.trans h.passbuf, h'.college.trans h.college,
    h'.txtdir.trans h.txtdir, h'.regdb.trans h.regdb, h'.checked.trans h.checked,
    h'.clock.trans h.clock⟩

theorem Session.LineRead.keeps {s m : Session} {ret : ℤ} {line : Bytes}
    (h : s.LineRead ret line m) : Keeps s m := by
  rw [h.keep]
  exact ⟨rfl, rfl, rfl, rfl, rfl, rfl, rfl⟩

section Keeps

variable {env : Env} {s s' : Session} {t : Turn} {es : List Event}

theorem CommandStep.keeps (h : CommandStep s t s' es) : Keeps s s' := by
  cases h with
  | leave hread | refused hread | unnamed hread | overlong hread | image hread
  | misnamed hread | closed hread | form hread =>
    exact (Session.readline_cases hread).keeps.trans ⟨rfl, rfl, rfl, rfl, rfl, rfl, rfl⟩

theorem BodyStep.keeps (h : BodyStep s t s' es) : Keeps s s' := by
  cases h with
  | cut hread | dot hread | quit hread | failed hread | full hread | overlong hread
  | line hread =>
    exact (Session.readline_cases hread).keeps.trans ⟨rfl, rfl, rfl, rfl, rfl, rfl, rfl⟩

theorem PayloadStep.keeps {nleft i offset : ℕ} (h : PayloadStep s t nleft i offset s' es) :
    Keeps s s' := by
  cases h <;> exact ⟨rfl, rfl, rfl, rfl, rfl, rfl, rfl⟩

theorem replyImage_cases {code : ℕ} (h : replyImage s t code = some (s', es)) :
    ∃ errno sent, s' = { s with errno := errno, phase := .command } ∧ es = [.send sent] := by
  obtain ⟨⟨ret, m, sent⟩, hw, heq⟩ := Option.map_eq_some_iff.mp h
  obtain ⟨errno, sent, rfl, rfl, -⟩ := Session.writen_cases hw
  obtain ⟨rfl, rfl⟩ : _ = s' ∧ _ = es := by simpa using heq
  exact ⟨errno, sent, rfl, rfl⟩

theorem openImage_cases {imgsize : ℕ} (h : openImage s t imgsize = (s', es)) :
    (t.ok = true ∧ s' = { s with phase := .payload imgsize 0 0 } ∧ es = [.openTrunc s.filename]) ∨
    (t.ok = false ∧ s' = { s with errno := .other, phase := .imageReply E_ERROR } ∧ es = []) := by
  simp only [openImage] at h
  split_ifs at h with hok
  · obtain ⟨rfl, rfl⟩ := Prod.mk.inj h
    exact Or.inl ⟨hok, rfl, rfl⟩
  · obtain ⟨rfl, rfl⟩ := Prod.mk.inj h
    exact Or.inr ⟨by simpa using hok, rfl, rfl⟩

theorem replyForm_cases (h : replyForm s t = some (s', es)) :
    ∃ errno buffer, (∃ sent, s' = { s with errno := errno, buffer := buffer, phase := .done } ∧
        es = [.send sent]) ∨
      (s' = { s with errno := errno, buffer := buffer, phase := .command } ∧
        es = [.send (ebuf SUCCESS)]) := by
  rcases Session.accept_cases h with ⟨errno, sent, rfl, rfl⟩ | ⟨errno, rfl, rfl⟩
  · exact ⟨errno, _, Or.inl ⟨sent, rfl, rfl⟩⟩
  · exact ⟨errno, _, Or.inr ⟨rfl, rfl⟩⟩

/-- What one step of the session can do, for each place it can be at. -/
inductive Acted (env : Env) (s : Session) (t : Turn) (s' : Session) (es : List Event) : Prop
  | magic (hphase : s.phase = .magic) (hstep : readMagic env s t = some (s', es))
  | user (hphase : s.phase = .user) (hstep : readUser env s t = some (s', es))
  | pass (hphase : s.phase = .pass) (hstep : readPass s t = some (s', es))
  | setup (hphase : s.phase = .setup) (hstep : openStores env s t = (s', es))
  | command (hphase : s.phase = .command) (hstep : CommandStep s t s' es)
  | image {imgsize} (hphase : s.phase = .image imgsize) (hstep : openImage s t imgsize = (s', es))
  | payload {nleft i offset} (hphase : s.phase = .payload nleft i offset)
      (hstep : PayloadStep s t nleft i offset s' es)
  | imageReply {code} (hphase : s.phase = .imageReply code)
      (hstep : replyImage s t code = some (s', es))
  | body (hphase : s.phase = .body) (hstep : BodyStep s t s' es)
  | close (hphase : s.phase = .close) (hstep : closeForm s t = (s', es))
  | insert (hphase : s.phase = .insert) (hstep : insertForm s t = (s', es))
  | reply (hphase : s.phase = .reply) (hstep : replyForm s t = some (s', es))
  | abandon {leave} (hphase : s.phase = .abandon leave) (hstep : abandonForm s t leave = (s', es))

theorem act_cases (h : act env s t = some (s', es)) : Acted env s t s' es := by
  unfold act at h
  split at h
  · exact .magic ‹_› h
  · exact .user ‹_› h
  · exact .pass ‹_› h
  · exact .setup ‹_› (Option.some.inj h)
  · exact .command ‹_› (readCommand_step h)
  · exact .image ‹_› (Option.some.inj h)
  · exact .payload ‹_› (readPayload_step h)
  · exact .imageReply ‹_› h
  · exact .body ‹_› (readBody_step h)
  · exact .close ‹_› (Option.some.inj h)
  · exact .insert ‹_› (Option.some.inj h)
  · exact .reply ‹_› h
  · exact .abandon ‹_› (Option.some.inj h)
  · cases h
  · cases h

/-- The places a step can lead to. -/
def Phase.Next : Phase → Phase → Prop
  | .magic, q => q = .user ∨ q = .done ∨ q = .fault
  | .user, q => q = .pass ∨ q = .done ∨ q = .fault
  | .pass, q => q = .setup ∨ q = .done ∨ q = .fault
  | .setup, q => q = .done ∨ q = .command
  | .command, q => q = .command ∨ (∃ n, q = .image n) ∨ q = .imageReply E_ERROR ∨ q = .body ∨
      q = .done ∨ q = .fault
  | .image n, q => q = .payload n 0 0 ∨ q = .imageReply E_ERROR
  | .payload _ _ _, q => (∃ n i o, q = .payload n i o) ∨ ∃ code, q = .imageReply code
  | .imageReply _, q => q = .command
  | .body, q => q = .body ∨ q = .close ∨ (∃ leave, q = .abandon leave) ∨ q = .command ∨ q = .fault
  | .close, q => q = .insert
  | .insert, q => q = .reply
  | .reply, q => q = .done ∨ q = .command
  | .abandon leave, q => q = if leave then .done else .command
  | .done, _ => False
  | .fault, _ => False

theorem Phase.next_body {p : Phase} (h : p.Next .body) : p = .command ∨ p = .body := by
  cases p with
  | abandon leave => cases leave <;> simp [Phase.Next] at h
  | _ => simp_all [Phase.Next]

theorem Phase.next_close {p : Phase} (h : p.Next .close) : p = .body := by
  cases p with
  | abandon leave => cases leave <;> simp [Phase.Next] at h
  | _ => simp_all [Phase.Next]

theorem Phase.next_insert {p : Phase} (h : p.Next .insert) : p = .close := by
  cases p with
  | abandon leave => cases leave <;> simp [Phase.Next] at h
  | _ => simp_all [Phase.Next]

theorem Phase.next_reply {p : Phase} (h : p.Next .reply) : p = .insert := by
  cases p with
  | abandon leave => cases leave <;> simp [Phase.Next] at h
  | _ => simp_all [Phase.Next]

/-- A serving session goes on serving. -/
theorem Phase.Next.serving {p q : Phase} (h : p.Next q) (hp : p.Serving) : q.Serving := by
  cases q with
  | magic | user | pass | setup =>
    cases p with
    | abandon leave => cases leave <;> simp [Phase.Next] at h
    | _ => simp_all [Phase.Next, Phase.Serving]
  | _ => trivial

theorem CommandStep.next (h : CommandStep s t s' es) : Phase.Next .command s'.phase := by
  cases h <;> simp [Phase.Next, Session.finish]

theorem BodyStep.next (hphase : s.phase = .body) (h : BodyStep s t s' es) :
    Phase.Next .body s'.phase := by
  cases h with
  | line hread =>
    rw [(Session.readline_cases hread).keep]
    exact Or.inl hphase
  | _ => simp [Phase.Next]

theorem PayloadStep.next {nleft i offset : ℕ} (h : PayloadStep s t nleft i offset s' es) :
    Phase.Next (.payload nleft i offset) s'.phase := by
  cases h <;> simp [Phase.Next]

/-- Every step follows the diagram. -/
theorem Acted.next (h : Acted env s t s' es) : s.phase.Next s'.phase := by
  cases h with
  | magic hphase hstep =>
    rw [hphase]
    rcases readMagic_cases hstep with href | ⟨conn, errno, buffer, -, -, rfl, -⟩
    · exact Or.inr href.1
    · exact Or.inl rfl
  | user hphase hstep =>
    rw [hphase]
    rcases readUser_cases hstep with
      href | ⟨line, passbuf, conn, errno, buffer, -, -, -, -, -, rfl, -⟩
    · exact Or.inr href.1
    · exact Or.inl rfl
  | pass hphase hstep =>
    rw [hphase]
    rcases readPass_cases hstep with href | ⟨conn, errno, buffer, -, -, rfl, -⟩
    · exact Or.inr href.1
    · exact Or.inl rfl
  | setup hphase hstep =>
    rw [hphase]
    obtain ⟨buffer, phase, hnext, rfl, -⟩ := openStores_cases hstep
    exact hnext
  | command hphase hstep => exact hphase ▸ hstep.next
  | image hphase hstep =>
    rw [hphase]
    rcases openImage_cases hstep with ⟨-, rfl, -⟩ | ⟨-, rfl, -⟩
    · exact Or.inl rfl
    · exact Or.inr rfl
  | payload hphase hstep => exact hphase ▸ hstep.next
  | imageReply hphase hstep =>
    rw [hphase]
    obtain ⟨errno, sent, rfl, -⟩ := replyImage_cases hstep
    rfl
  | body hphase hstep => exact hphase ▸ hstep.next hphase
  | close hphase hstep =>
    rw [hphase]
    obtain ⟨errno, rfl, -⟩ := closeForm_cases hstep
    rfl
  | insert hphase hstep =>
    rw [hphase]
    obtain ⟨rfl, -⟩ := insertForm_cases hstep
    rfl
  -- a reply that cannot be sent ends the session
  | reply hphase hstep =>
    rw [hphase]
    obtain ⟨errno, buffer, ⟨sent, rfl, -⟩ | ⟨rfl, -⟩⟩ := replyForm_cases hstep
    · exact Or.inl rfl
    · exact Or.inr rfl
  | abandon hphase hstep =>
    rw [hphase]
    obtain ⟨errno, rfl, -⟩ := abandonForm_cases hstep
    rfl

/-- A step of the session waits, or acts when the time before it has passed. -/
theorem manageClient_cases (env : Env) (s : Session) (t : Turn) :
    manageClient env s t = (s.wait t, []) ∨
      Acted env (s.wait t) t (manageClient env s t).1 (manageClient env s t).2 := by
  -- a call that cannot return yet is the one case in which the session waits
  unfold manageClient
  cases h : act env (s.wait t) t with
  | none => exact Or.inl rfl
  | some r => exact Or.inr (act_cases h)

/-- A serving session only takes bytes from the front of the connection. -/
theorem Acted.suffix (hserving : s.phase.Serving) (h : Acted env s t s' es) :
    s'.conn.inq <:+ s.conn.inq := by
  cases h with
  -- a serving session has left the login behind
  | magic hphase | user hphase | pass hphase | setup hphase =>
    simp [hphase, Phase.Serving] at hserving
  | command _ hstep =>
    cases hstep with
    | leave hread | refused hread | unnamed hread | overlong hread | image hread
    | misnamed hread | closed hread | form hread =>
      exact (Session.readline_cases hread).reads.suffix
  -- behind the command, only the payload and the lines of a form are read
  | image _ hstep =>
    rcases openImage_cases hstep with ⟨-, rfl, -⟩ | ⟨-, rfl, -⟩ <;> exact List.suffix_rfl
  | payload _ hstep =>
    cases hstep with
    | chunk _ htook | short _ htook => exact htook.suffix
    | finished | interrupted | error | eof => exact List.suffix_rfl
  | imageReply _ hstep =>
    obtain ⟨errno, sent, rfl, -⟩ := replyImage_cases hstep
    exact List.suffix_rfl
  | body _ hstep =>
    cases hstep with
    | cut hread | dot hread | quit hread | failed hread | full hread | overlong hread
    | line hread => exact (Session.readline_cases hread).reads.suffix
  | close _ hstep =>
    obtain ⟨errno, rfl, -⟩ := closeForm_cases hstep
    exact List.suffix_rfl
  | insert _ hstep =>
    obtain ⟨rfl, -⟩ := insertForm_cases hstep
    exact List.suffix_rfl
  | reply _ hstep =>
    obtain ⟨errno, buffer, ⟨sent, rfl, -⟩ | ⟨rfl, -⟩⟩ := replyForm_cases hstep <;>
      exact List.suffix_rfl
  | abandon _ hstep =>
    obtain ⟨errno, rfl, -⟩ := abandonForm_cases hstep
    exact List.suffix_rfl

/-- Once the stores are open the college, its directories, the record and the
window check do not change. -/
theorem Acted.keeps (hserving : s.phase.Serving) (h : Acted env s t s' es) : Keeps s s' := by
  cases h with
  | magic hphase | user hphase | pass hphase | setup hphase =>
    simp [hphase, Phase.Serving] at hserving
  | command _ hstep => exact hstep.keeps
  | image _ hstep =>
    rcases openImage_cases hstep with ⟨-, rfl, -⟩ | ⟨-, rfl, -⟩ <;>
      exact ⟨rfl, rfl, rfl, rfl, rfl, rfl, rfl⟩
  | payload _ hstep => exact hstep.keeps
  | imageReply _ hstep =>
    obtain ⟨errno, sent, rfl, -⟩ := replyImage_cases hstep
    exact ⟨rfl, rfl, rfl, rfl, rfl, rfl, rfl⟩
  | body _ hstep => exact hstep.keeps
  | close _ hstep =>
    obtain ⟨errno, rfl, -⟩ := closeForm_cases hstep
    exact ⟨rfl, rfl, rfl, rfl, rfl, rfl, rfl⟩
  | insert _ hstep =>
    obtain ⟨rfl, -⟩ := insertForm_cases hstep
    exact ⟨rfl, rfl, rfl, rfl, rfl, rfl, rfl⟩
  | reply _ hstep =>
    obtain ⟨errno, buffer, ⟨sent, rfl, -⟩ | ⟨rfl, -⟩⟩ := replyForm_cases hstep <;>
      exact ⟨rfl, rfl, rfl, rfl, rfl, rfl, rfl⟩
  | abandon _ hstep =>
    obtain ⟨errno, rfl, -⟩ := abandonForm_cases hstep
    exact ⟨rfl, rfl, rfl, rfl, rfl, rfl, rfl⟩

end Keeps

end Esif.Server
