import Esif.Posix.Calm
import Esif.Posix.Decimal
import Esif.Server.Step

/-!
# The login on a connection that holds

What the server makes of a client that sends what it is asked for: one lemma for
each place of the login, with everything the reply says. The lemmas of
`Esif.Server.Step` allow for any failure; these say that without one the server
goes on, and where to.

## Main definitions

* `Turn.Calm` — nothing fails during the step
* `Turn.Connected` — the connection holds during the step
* `Session.Holds` — the bytes that wait for the session
* `Refusal` — the replies to a user who may not send forms

## Main results

* `readMagic_calm`, `readUser_calm`, `readPass_calm`, `openStores_calm` — the login
-/

namespace Esif.Server

open Esif.CS Esif.Posix

/-- Nothing fails during the step. -/
structure Turn.Calm (t : Turn) : Prop where
  reads : Posix.Calm t.reads
  writes : Posix.Calm t.writes
  ok : t.ok = true
  memory : t.memory = true

instance (t : Turn) : Decidable t.Calm :=
  decidable_of_iff (Posix.Calm t.reads ∧ Posix.Calm t.writes ∧ t.ok = true ∧ t.memory = true)
    ⟨fun h => ⟨h.1, h.2.1, h.2.2.1, h.2.2.2⟩, fun h => ⟨h.reads, h.writes, h.ok, h.memory⟩⟩

/-- The connection holds during the step; a file or the database may fail. -/
structure Turn.Connected (t : Turn) : Prop where
  reads : Posix.Calm t.reads
  writes : Posix.Calm t.writes

instance (t : Turn) : Decidable t.Connected :=
  decidable_of_iff (Posix.Calm t.reads ∧ Posix.Calm t.writes)
    ⟨fun h => ⟨h.1, h.2⟩, fun h => ⟨h.reads, h.writes⟩⟩

theorem Turn.Calm.connected {t : Turn} (h : t.Calm) : t.Connected := ⟨h.reads, h.writes⟩

/-- The step may call until a whole line is moved. -/
structure Turn.Ample (t : Turn) : Prop where
  calm : t.Calm
  reads : MAXLINE ≤ moves t.reads
  writes : MAXLINE ≤ moves t.writes

/-- The bytes a step sends. -/
def sentBytes (es : List Event) : Bytes :=
  es.flatMap fun
    | .send data => data
    | _ => []

@[simp] theorem sentBytes_send (data : Bytes) : sentBytes [.send data] = data := by
  simp [sentBytes]

/-- The session has closed the connection. -/
def Session.closed (s : Session) : Bool := s.phase == .done

theorem closed_of_ne_done {s : Session} (h : s.phase ≠ .done) : s.closed = false := by
  simpa [Session.closed] using h

theorem closed_of_phase {s : Session} {phase : Phase} (hphase : s.phase = phase)
    (hne : phase ≠ .done) : s.closed = false :=
  closed_of_ne_done (hphase ▸ hne)

/-- Bytes arrive behind those that are waiting; `closed` is set when the client has
closed its end. -/
def Session.receive (bs : Bytes) (closed : Bool) (s : Session) : Session :=
  { s with conn := { s.conn with inq := s.conn.inq ++ bs, eof := s.conn.eof || closed } }

namespace Session

variable {s s' : Session} {reads writes : List Outcome} {bs rest got : Bytes} {ret : ℤ}
  {es : List Event} {next : Phase}

/-- The connection is open, `bs` has arrived on it and the line buffer is empty. -/
structure Holds (s : Session) (bs : Bytes) : Prop where
  inq : s.conn.inq = bs
  eof : s.conn.eof = false
  buf : s.tsd.buf = []

/-- `readn` returns the bytes that have arrived. -/
theorem readn_calm (hcalm : Posix.Calm reads) (hs : s.Holds (bs ++ rest))
    (h : s.readn bs.length reads = some (ret, got, s')) :
    ret = bs.length ∧ got = bs ∧ s'.Holds rest ∧ ∃ conn errno,
      s' = { s with conn := conn, errno := errno, buffer := store got s.buffer } := by
  obtain ⟨r, hr, heq⟩ := Option.map_eq_some_iff.mp h
  obtain ⟨rfl, rfl, rfl⟩ : r.ret = ret ∧ r.got = got ∧ _ = s' := by simpa using heq
  obtain ⟨hret, hlen, htook, -⟩ := Posix.readn_calm hcalm hs.eof hr
  obtain ⟨hgot, hrest⟩ : r.got = bs ∧ r.net.conn.inq = rest :=
    List.append_inj (htook.stream.trans hs.inq) hlen
  exact ⟨hret, hgot, ⟨hrest, htook.eof.trans hs.eof, hs.buf⟩, _, _, rfl⟩

/-- With fewer bytes `readn` waits. -/
theorem readn_short {n : ℕ} (hcalm : Posix.Calm reads) (hs : s.Holds bs) (hlen : bs.length < n) :
    s.readn n reads = none := by
  refine Option.eq_none_iff_forall_ne_some.mpr fun (ret, got, s') h => ?_
  obtain ⟨r, hr, -⟩ := Option.map_eq_some_iff.mp h
  obtain ⟨-, hgot, htook, -⟩ := Posix.readn_calm hcalm hs.eof hr
  have hstream := congrArg List.length (htook.stream.trans hs.inq)
  simp only [List.length_append] at hstream
  omega

theorem readn_some (hcalm : Posix.Calm reads) (hs : s.Holds bs)
    (hmoves : bs.length ≤ moves reads) : ∃ r, s.readn bs.length reads = some r := by
  obtain ⟨r, hr⟩ := @Posix.readn_some bs.length ⟨s.conn, s.errno, reads, []⟩ hcalm hs.eof
    (by simp [hs.inq]) hmoves
  exact ⟨_, by rw [readn, hr]; rfl⟩

/-- `writen` writes all of its array. -/
theorem writen_calm (hcalm : Posix.Calm writes) (h : s.writen bs writes = some (ret, s', es)) :
    ret = bs.length ∧ es = [.send bs] ∧ ∃ errno, s' = { s with errno := errno } := by
  obtain ⟨w, hw, heq⟩ := Option.map_eq_some_iff.mp h
  obtain ⟨rfl, rfl, rfl⟩ : w.ret = ret ∧ _ = s' ∧ _ = es := by simpa using heq
  obtain ⟨hret, hsent, -⟩ := Posix.writen_calm hcalm hw
  exact ⟨hret, by rw [hsent], _, rfl⟩

theorem writen_some (hcalm : Posix.Calm writes) (hmoves : bs.length ≤ moves writes) :
    ∃ r, s.writen bs writes = some r := by
  obtain ⟨w, hw⟩ := @Posix.writen_some bs ⟨s.conn, s.errno, [], writes⟩ hcalm hmoves
  exact ⟨_, by rw [writen, hw]; rfl⟩

/-- A reply that is sent whole lets the session go on. -/
theorem accept_calm (hcalm : Posix.Calm writes) (h : s.accept bs writes next = some (s', es)) :
    es = [.send bs] ∧ ∃ errno, s' = { s with errno := errno, phase := next } := by
  obtain ⟨⟨ret, m, sent⟩, hwrite, heq⟩ := Option.map_eq_some_iff.mp h
  obtain ⟨rfl, rfl, errno, rfl⟩ := writen_calm hcalm hwrite
  obtain ⟨rfl, rfl⟩ : _ = s' ∧ _ = es := by simpa using heq
  exact ⟨rfl, errno, rfl⟩

theorem refuse_calm (hcalm : Posix.Calm writes) (h : s.refuse bs writes = some (s', es)) :
    es = [.send bs] ∧ ∃ errno, s' = { s with errno := errno, phase := .done } := by
  obtain ⟨⟨ret, m, sent⟩, hwrite, heq⟩ := Option.map_eq_some_iff.mp h
  obtain ⟨rfl, rfl, errno, rfl⟩ := writen_calm hcalm hwrite
  obtain ⟨rfl, rfl⟩ : _ = s' ∧ _ = es := by simpa using heq
  exact ⟨rfl, errno, rfl⟩

theorem accept_some (hcalm : Posix.Calm writes) (hmoves : bs.length ≤ moves writes) :
    ∃ r, s.accept bs writes next = some r := by
  obtain ⟨r, hr⟩ := writen_some (s := s) hcalm hmoves
  exact ⟨_, by rw [accept, hr]; rfl⟩

theorem refuse_some (hcalm : Posix.Calm writes) (hmoves : bs.length ≤ moves writes) :
    ∃ r, s.refuse bs writes = some r := by
  obtain ⟨r, hr⟩ := writen_some (s := s) hcalm hmoves
  exact ⟨_, by rw [refuse, hr]; rfl⟩

/-- `readline` returns the line that has arrived. -/
theorem readline_calm {line : Bytes} (hcalm : Posix.Calm reads)
    (hs : unread s.tsd s.conn = line ++ rest)
    (hwhole : Lines.Whole isNewline (MAXLINE - 1) line) (hne : line ≠ [])
    (h : s.readline reads = some (ret, got, s')) :
    ret = line.length + (if endsLine line then 0 else 1) ∧ got = line ∧
      unread s'.tsd s'.conn = rest ∧ s'.conn.eof = s.conn.eof := by
  obtain ⟨r, hr, heq⟩ := Option.map_eq_some_iff.mp h
  obtain ⟨rfl, rfl, rfl⟩ : r.ret = ret ∧ r.stored = got ∧ _ = s' := by simpa using heq
  obtain ⟨hret, hstored, hrest, hreads, -⟩ :=
    @Posix.readline_whole MAXLINE s.tsd ⟨s.conn, s.errno, reads, []⟩ r line rest hcalm hs hwhole hne
      hr
  exact ⟨hret, hstored, hrest, hreads.eof⟩

/-- Without a byte `readline` waits, as long as the client has not closed. -/
theorem readline_nil (hcalm : Posix.Calm reads) (hopen : s.conn.eof = false)
    (hs : unread s.tsd s.conn = []) : s.readline reads = none := by
  have hnone := @Posix.readline_nil MAXLINE (by decide) s.tsd ⟨s.conn, s.errno, reads, []⟩ hcalm
    hopen hs
  rw [readline, hnone]
  rfl

end Session

section Login

variable {env : Env} {s s' : Session} {t : Turn} {es : List Event}

/-- `ctime` prints one line; the longest year a `struct tm` holds makes it one of
32 bytes. -/
def IsCtime (ctime : ℤ → Bytes) : Prop :=
  ∀ time, ∃ text, ctime time = text ++ [newline] ∧ newline ∉ text ∧ text.length ≤ 31

theorem IsCtime.length_le {ctime : ℤ → Bytes} (h : IsCtime ctime) (time : ℤ) :
    (ctime time).length ≤ 32 := by
  obtain ⟨text, heq, -, hlen⟩ := h time
  rw [heq, List.length_append, List.length_singleton]
  omega

/-- The replies to a user who may not send forms. -/
inductive Refusal (env : Env) : Bytes → Prop
  | noCollege : Refusal env (ebuf E_NO_COLLEGE)
  | disabled : Refusal env (ebuf E_COLLEGE_DISABLED)
  | noStart (start : ℤ) :
      Refusal env (decimal E_TIME_NOSTART ++ ascii " " ++ env.ctime start)
  | expired (end_ : ℤ) :
      Refusal env (decimal E_TIME_EXPIRED ++ ascii " " ++ env.ctime end_)

theorem readMagic_calm (hcalm : t.Calm) (hs : s.Holds env.magic)
    (hlen : env.magic.length = SHA_DIGEST_LENGTH) (h : readMagic env s t = some (s', es)) :
    s'.Holds [] ∧ es = [.send (ebuf SUCCESS)] ∧ ∃ conn errno buffer,
      s' = { s with conn := conn, errno := errno, buffer := buffer, phase := .user } := by
  simp only [readMagic, Option.bind_eq_bind, Option.bind_eq_some_iff] at h
  obtain ⟨⟨ret, got, m⟩, hread, h⟩ := h
  rw [← hlen] at hread h
  obtain ⟨rfl, rfl, hm, conn, errno, rfl⟩ :=
    Session.readn_calm hcalm.reads (by rwa [List.append_nil]) hread
  dsimp only at h
  rw [if_neg (by omega), if_neg (not_not.mpr rfl)] at h
  obtain ⟨rfl, errno', rfl⟩ := Session.accept_calm hcalm.writes h
  exact ⟨⟨hm.inq, hm.eof, hm.buf⟩, rfl, conn, errno', _, rfl⟩

/-- The checks let a user pass whose record admits both looks at the clock, and
refuse every other. -/
theorem checkUser_calm (hcalm : t.Calm) (h : checkUser env s t = some (s', es)) :
    ∃ phase errno clock reply, s' = { s with
        phase := phase, errno := errno, clock := clock, checked := (s.clock, s.clock + t.lag) } ∧
      es = [.send reply] ∧ s.clock ≤ clock ∧
      (phase = .pass ∧ reply = windowReply env s.passbuf ∧
          Admits s.passbuf s.clock (s.clock + t.lag) ∨
        phase = .done ∧ Refusal env reply ∧ ¬ Admits s.passbuf s.clock (s.clock + t.lag)) := by
  simp only [checkUser] at h
  split_ifs at h with hdis hstart hend
  · obtain ⟨rfl, errno, rfl⟩ := Session.refuse_calm hcalm.writes h
    exact ⟨.done, errno, s.clock, _, rfl, rfl, le_rfl,
      Or.inr ⟨rfl, .disabled, fun hadmits => hadmits.enabled hdis⟩⟩
  · obtain ⟨rfl, errno, rfl⟩ := Session.refuse_calm hcalm.writes h
    exact ⟨.done, errno, s.clock, _, rfl, rfl, le_rfl,
      Or.inr ⟨rfl, .noStart _, fun hadmits => absurd hadmits.started (by omega)⟩⟩
  · obtain ⟨rfl, errno, rfl⟩ := Session.refuse_calm hcalm.writes h
    exact ⟨.done, errno, s.clock + t.lag, _, rfl, rfl, by omega,
      Or.inr ⟨rfl, .expired _, fun hadmits => absurd hadmits.open_ (by omega)⟩⟩
  · obtain ⟨rfl, errno, rfl⟩ := Session.accept_calm hcalm.writes h
    exact ⟨.pass, errno, s.clock + t.lag, _, rfl, rfl, by omega,
      Or.inl ⟨rfl, rfl, hdis, by omega, by omega⟩⟩

/-- Four digits, as the client takes them for a college code. -/
structure CollegeCode (username : Bytes) : Prop where
  length : username.length = 4
  digits : ∀ b ∈ username, isdigit b = true

theorem ne_nul_of_isdigit {b : UInt8} (h : isdigit b = true) : b ≠ nul := by
  rintro rfl
  exact absurd h (by decide)

/-- The `USER` line of a college names that college. -/
theorem CollegeCode.scanUser_eq {username : Bytes} (h : CollegeCode username) (old : Bytes) :
    scanUser (username ++ [newline]) old = username := by
  have hcstr : cstr (username ++ [newline]) = username ++ [newline] := by
    refine cstr_eq_self fun hmem => ?_
    rcases List.mem_append.mp hmem with hmem | hmem
    · exact ne_nul_of_isdigit (h.digits _ hmem) rfl
    · exact absurd hmem (by decide)
  have hword : scanWord (username ++ [newline]) = username := by
    obtain ⟨b, rest, rfl⟩ : ∃ b rest, username = b :: rest :=
      List.exists_cons_of_length_pos (by rw [h.length]; decide)
    have hb := isspace_of_isdigit (h.digits b (by simp))
    have hall : ∀ b' ∈ b :: rest, (!isspace b') = true := fun b' hb' => by
      simp [isspace_of_isdigit (h.digits b' hb')]
    rw [scanWord, List.cons_append, List.dropWhile_cons_of_neg (by simp [hb]), ← List.cons_append,
      List.takeWhile_append_of_pos hall]
    simp [newline, isspace]
  have hne : username ≠ [] := by
    rintro rfl
    simpa using h.length
  rw [scanUser, hcstr, hword, if_neg hne]

theorem lookupUser_found {get : Bytes → Get} {user : Bytes} {passbuf data : Password}
    (hlen : 1 ≤ user.length) (h : get user = .found data) :
    lookupUser (some get) user passbuf = (0, data) := by
  simp only [lookupUser, if_neg (Nat.not_lt.mpr hlen), passGetdb, h]
  rfl

theorem lookupUser_failed {get : Bytes → Get} {user : Bytes} {passbuf : Password} {ret : ℤ}
    (hlen : 1 ≤ user.length) (h : get user = .failed ret) (hret : ret < 0) :
    lookupUser (some get) user passbuf = (3, passbuf) := by
  simp only [lookupUser, if_neg (Nat.not_lt.mpr hlen), passGetdb, h, if_pos hret]

/-- The user has a record that admits the two looks at the clock. -/
def MaySend (get : Bytes → Get) (username : Bytes) (checked : ℤ × ℤ) (data : Password) : Prop :=
  get username = .found data ∧ Admits data checked.1 checked.2

/-- The looks at the clock come after `clock`. -/
def Looked (clock : ℤ) (s : Session) : Prop :=
  clock ≤ s.checked.1 ∧ s.checked.1 ≤ s.checked.2 ∧ s.checked.1 ≤ s.clock

/-- A user who may send forms is told so and asked for the password; every other
is refused. -/
theorem readUser_calm {username : Bytes} {get : Bytes → Get} (hcalm : t.Calm)
    (hcode : CollegeCode username) (hs : s.Holds (ascii "USER " ++ username ++ [newline]))
    (hdb : env.passdbp = some get) (hget : ∀ ret, get username = .failed ret → ret < 0)
    (h : readUser env s t = some (s', es)) :
    s'.Holds [] ∧ s.clock ≤ s'.clock ∧ ∃ reply, es = [.send reply] ∧
      (∀ data, get username = .found data → Looked s.clock s') ∧
      (s'.phase = .pass ∧ reply = windowReply env s'.passbuf ∧
          MaySend get username s'.checked s'.passbuf ∨
        s'.phase = .done ∧ Refusal env reply ∧
          ∀ data, ¬ MaySend get username s'.checked data) := by
  have hline : (ascii "USER " ++ username ++ [newline]).length = 10 := by
    simp [ascii, hcode.length]
  have hword : strncmp (ascii "USER " ++ username ++ [newline]) (ascii "USER ") = true := by
    simp [strncmp]
  simp only [readUser, Option.bind_eq_bind, Option.bind_eq_some_iff] at h
  obtain ⟨⟨ret, got, m⟩, hread, h⟩ := h
  rw [← hline] at hread
  obtain ⟨rfl, rfl, hm, conn, errno, rfl⟩ :=
    Session.readn_calm hcalm.reads (by rwa [List.append_nil]) hread
  have hdrop : (ascii "USER " ++ username ++ [newline]).drop 5 = username ++ [newline] := rfl
  dsimp only at h
  rw [if_neg (by omega), if_neg (by rw [hword]; decide), hdrop, hcode.scanUser_eq] at h
  -- the ten bytes are there: what decides is the lookup, then the window
  have hne : 1 ≤ username.length := by rw [hcode.length]; decide
  rw [hdb] at h
  cases hfound : get username with
  | failed ret =>
    rw [lookupUser_failed hne hfound (hget ret hfound), if_pos (by simp)] at h
    obtain ⟨rfl, errno', rfl⟩ := Session.refuse_calm hcalm.writes h
    refine ⟨⟨hm.inq, hm.eof, hm.buf⟩, le_rfl, _, rfl, by simp, Or.inr ⟨rfl, .noCollege, ?_⟩⟩
    intro data hmay
    simp [MaySend, hfound] at hmay
  | found data =>
    rw [lookupUser_found hne hfound, if_neg (by simp)] at h
    obtain ⟨phase, errno', clock, reply, rfl, rfl, hclock, hcases⟩ := checkUser_calm hcalm h
    refine ⟨⟨hm.inq, hm.eof, hm.buf⟩, hclock, reply, rfl, fun _ _ => ⟨le_rfl, ?_, hclock⟩, ?_⟩
    · simp only
      omega
    · rcases hcases with ⟨rfl, rfl, hadmits⟩ | ⟨rfl, hrefusal, hadmits⟩
      · exact Or.inl ⟨rfl, rfl, hfound, hadmits⟩
      · refine Or.inr ⟨rfl, hrefusal, fun data' hmay => ?_⟩
        obtain rfl : data = data' := Get.found.inj (hfound.symm.trans hmay.1)
        exact hadmits hmay.2

/-- The digest in the record lets the user in, every other digest does not. -/
theorem readPass_calm {digest : Bytes} (hcalm : t.Calm)
    (hdigest : digest.length = SHA_DIGEST_LENGTH)
    (hlen : s.passbuf.len = SHA_DIGEST_LENGTH) (hpass : s.passbuf.pass.length = SHA_DIGEST_LENGTH)
    (hs : s.Holds (ascii "PASS " ++ digest)) (h : readPass s t = some (s', es)) :
    s'.Holds [] ∧ ∃ phase conn errno buffer, s' = { s with
        phase := phase, conn := conn, errno := errno, buffer := buffer } ∧
      (phase = .setup ∧ es = [.send (ebuf SUCCESS)] ∧ digest = s.passbuf.pass ∨
        phase = .done ∧ es = [.send (ebuf E_INVALID_PASSWORD)] ∧ digest ≠ s.passbuf.pass) := by
  have hfit : ¬ MAXLINE < 5 + s.passbuf.len := by rw [hlen]; decide
  have hline : (ascii "PASS " ++ digest).length = 5 + s.passbuf.len := by
    rw [List.length_append, hdigest, hlen]
    rfl
  have hword : strncmp (ascii "PASS " ++ digest) (ascii "PASS ") = true := by
    simp [strncmp]
  simp only [readPass, if_neg hfit, Option.bind_eq_bind, Option.bind_eq_some_iff] at h
  obtain ⟨⟨ret, got, m⟩, hread, h⟩ := h
  rw [← hline] at hread
  obtain ⟨rfl, rfl, hm, conn, errno, rfl⟩ :=
    Session.readn_calm hcalm.reads (by rwa [List.append_nil]) hread
  have hdrop : (ascii "PASS " ++ digest).drop 5 = digest := rfl
  have htake : s.passbuf.pass.take s.passbuf.len = s.passbuf.pass := by
    rw [hlen, ← hpass, List.take_length]
  dsimp only at h
  rw [if_neg (by omega), if_neg (by rw [hword]; decide), if_neg (by omega), hdrop, htake] at h
  -- the whole digest has arrived: the comparison decides
  by_cases heq : digest = s.passbuf.pass
  · rw [if_neg (not_not.mpr heq)] at h
    obtain ⟨rfl, errno', rfl⟩ := Session.accept_calm hcalm.writes h
    exact ⟨⟨hm.inq, hm.eof, hm.buf⟩, .setup, conn, errno', _, rfl, Or.inl ⟨rfl, rfl, heq⟩⟩
  · rw [if_pos heq] at h
    obtain ⟨rfl, errno', rfl⟩ := Session.refuse_calm hcalm.writes h
    exact ⟨⟨hm.inq, hm.eof, hm.buf⟩, .done, conn, errno', _, rfl, Or.inr ⟨rfl, rfl, heq⟩⟩

/-- When nothing fails the session reaches its command loop, having sent nothing. -/
theorem openStores_calm {rest : Bytes} (hcalm : t.Calm) (hs : s.Holds rest)
    (h : openStores env s t = (s', es)) :
    s'.Holds rest ∧ s'.phase = .command ∧ s'.checked = s.checked ∧ s'.clock = s.clock ∧
      sentBytes es = [] := by
  simp only [openStores, hcalm.ok, hcalm.memory] at h
  obtain ⟨rfl, rfl⟩ := h
  exact ⟨⟨hs.inq, hs.eof, hs.buf⟩, rfl, rfl, rfl, rfl⟩

/-- Without a byte the session waits, wherever it reads. -/
theorem act_nil (hcalm : t.Calm) (hs : s.Holds [])
    (hphase : s.phase ∈ [.magic, .user, .pass, .command, .done])
    (hlen : s.phase = .pass → s.passbuf.len = SHA_DIGEST_LENGTH) : act env s t = none := by
  have hshort : ∀ {n}, 0 < n → s.readn n t.reads = none := fun hn =>
    Session.readn_short hcalm.reads hs hn
  simp only [List.mem_cons, List.not_mem_nil, or_false] at hphase
  rcases hphase with hphase | hphase | hphase | hphase | hphase
  · rw [act, hphase]
    simp only [readMagic, hshort (n := SHA_DIGEST_LENGTH) (by decide)]
    rfl
  · rw [act, hphase]
    simp only [readUser, hshort (n := 10) (by decide)]
    rfl
  · have hfit : ¬ MAXLINE < 5 + s.passbuf.len := by rw [hlen hphase]; decide
    rw [act, hphase]
    simp only [readPass, if_neg hfit, hshort (n := 5 + s.passbuf.len) (by omega)]
    rfl
  · rw [act, hphase]
    simp only [readCommand, Session.readline_nil hcalm.reads hs.eof
      (by simp [unread, hs.buf, hs.inq])]
    rfl
  · rw [act, hphase]

/-! ### Progress -/

theorem readMagic_some (hample : t.Ample) (hs : s.Holds env.magic)
    (hlen : env.magic.length = SHA_DIGEST_LENGTH) : ∃ r, readMagic env s t = some r := by
  have hmoves := hample.reads
  have hmax : SHA_DIGEST_LENGTH ≤ MAXLINE := by decide
  obtain ⟨⟨ret, got, m⟩, hread⟩ := Session.readn_some hample.calm.reads hs (by omega)
  rw [hlen] at hread
  simp only [readMagic, hread, Option.bind_eq_bind, Option.bind_some]
  split_ifs
  · exact ⟨_, rfl⟩
  · exact ⟨_, rfl⟩
  · refine Session.accept_some hample.calm.writes (le_trans ?_ hample.writes)
    decide

theorem checkUser_some (hctime : IsCtime env.ctime) (hample : t.Ample) :
    ∃ r, checkUser env s t = some r := by
  have hwrites := hample.writes
  have hmax : MAXLINE = 120 := rfl
  have hstart := hctime.length_le s.passbuf.start
  have hend := hctime.length_le s.passbuf.end_
  have hword : ∀ code : ℕ, (decimal code ++ ascii " ").length ≤ 88 →
      ∀ time, (decimal code ++ ascii " " ++ env.ctime time).length ≤ MAXLINE := by
    intro code hcode time
    have htime := hctime.length_le time
    rw [List.length_append]
    omega
  simp only [checkUser]
  split_ifs
  · exact Session.refuse_some hample.calm.writes (le_trans (by decide) hwrites)
  · exact Session.refuse_some hample.calm.writes ((hword _ (by decide) _).trans hwrites)
  · exact Session.refuse_some hample.calm.writes ((hword _ (by decide) _).trans hwrites)
  · refine Session.accept_some hample.calm.writes (le_trans ?_ hwrites)
    simp only [windowReply, List.length_append, List.length_dropLast]
    have hlits : (ascii "500 ").length + (ascii " ").length + (ascii "- ").length = 7 := by decide
    omega

theorem readUser_some {line : Bytes} (hctime : IsCtime env.ctime) (hample : t.Ample)
    (hline : line.length = 10) (hs : s.Holds line) : ∃ r, readUser env s t = some r := by
  have hreads := hample.reads
  have hmax : MAXLINE = 120 := rfl
  obtain ⟨⟨ret, got, m⟩, hread⟩ := Session.readn_some hample.calm.reads hs (by omega)
  rw [hline] at hread
  simp only [readUser, hread, Option.bind_eq_bind, Option.bind_some]
  split_ifs
  · exact ⟨_, rfl⟩
  · exact ⟨_, rfl⟩
  · exact Session.refuse_some hample.calm.writes (le_trans (by decide) hample.writes)
  · exact checkUser_some hctime hample

theorem readPass_some {line : Bytes} (hample : t.Ample) (hlen : s.passbuf.len = SHA_DIGEST_LENGTH)
    (hline : line.length = 5 + SHA_DIGEST_LENGTH) (hs : s.Holds line) :
    ∃ r, readPass s t = some r := by
  have hreads := hample.reads
  have hmax : MAXLINE = 120 := rfl
  have hdigest : SHA_DIGEST_LENGTH = 20 := rfl
  obtain ⟨⟨ret, got, m⟩, hread⟩ := Session.readn_some hample.calm.reads hs (by omega)
  rw [hline, ← hlen] at hread
  simp only [readPass, hread, Option.bind_eq_bind, Option.bind_some]
  split_ifs
  · exact ⟨_, rfl⟩
  · exact ⟨_, rfl⟩
  · exact ⟨_, rfl⟩
  · exact ⟨_, rfl⟩
  · exact Session.refuse_some hample.calm.writes (le_trans (by decide) hample.writes)
  · exact Session.accept_some hample.calm.writes (le_trans (by decide) hample.writes)

end Login

end Esif.Server
