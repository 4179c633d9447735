import Esif.Server.Effects

/-!
# The login gate

No session acts on a directory, a file or a database before its client has sent
the magic, the name of a user whose record passes the checks, and the digest of
that record. The lookup fails closed: a record that was not found is either
reported or left zero-filled, and a zero-filled record has expired.

## Main definitions

* `Authenticated` — what the stream and the password database say of a session
  that has passed the gate
* `Event.UsesStores` — an effect on the stores of one college in one year
* `Gate` — the invariant of the login

## Main results

* `found_of_lookupUser` — a user who passes the checks has a record
* `gate_run` — the invariant holds after every run
* `effect_authenticated` — no effect without authentication
-/

namespace Esif.Server

open Esif.CS Esif.Posix

/-- What a session that has passed the login knows about its client: the stream
begins with the magic, a `USER` line and the digest in the record of the user it
names, all of which has been read, and that record was found and passed the
checks. `old` is what the variable `user` held at first, `clock` the time the
session began. -/
structure Authenticated (env : Env) (stream old : Bytes) (clock : ℤ) (s : Session) : Prop where
  sent : ∃ line rest,
    stream = env.magic ++ line ++ (ascii "PASS " ++ s.passbuf.pass.take s.passbuf.len) ++ rest ∧
      s.conn.inq <:+ rest ∧ env.magic.length = SHA_DIGEST_LENGTH ∧
      line.length = 10 ∧ strncmp line (ascii "USER ") ∧ s.user = scanUser (line.drop 5) old
  found : ∃ get, env.passdbp = some get ∧ get s.user = .found s.passbuf
  admits : Admits s.passbuf s.checked.1 s.checked.2
  time : clock ≤ s.checked.1 ∧ s.checked.1 ≤ s.checked.2 ∧ s.checked.2 ≤ s.clock

/-- An effect on the directories, the files or the database of a college in a
year. -/
def Event.UsesStores (session college : ℤ) : Event → Prop
  | .mkdir path => path = yearDir TXTROOT3 session ∨ path = yearDir BDBROOT3 session ∨
      path = yearDir TXTROOT3 session ++ institute college
  | .openDb path => path = regdbOf session college
  | .openTrunc path => ∃ name, path = txtdirOf session college ++ name
  | .writeAt path _ _ => ∃ name, path = txtdirOf session college ++ name
  | .put db _ _ => db = regdbOf session college
  | _ => True

theorem Event.Within.usesStores {session college : ℤ} {P : Bytes → Prop} {e : Event}
    (h : e.Within (txtdirOf session college) (regdbOf session college) P) :
    e.UsesStores session college := by
  cases e with
  | mkdir path | openDb path => exact h.elim
  | openTrunc path | writeAt path offset data =>
    obtain ⟨name, -, rfl⟩ := h
    exact ⟨name, rfl⟩
  | put db key data => exact h
  | _ => trivial

/-- Every record in the password database is one that `encrypt_password` made:
its digest has the length of the array and `len` says so. -/
def RecordsEncrypted (env : Env) : Prop :=
  ∀ get, env.passdbp = some get → ∀ key data, get key = .found data →
    data.len = SHA_DIGEST_LENGTH ∧ data.pass.length = SHA_DIGEST_LENGTH

/-- A lookup that does not report a failure has found the record, or has left
the buffer as it was. -/
theorem lookupUser_cases {passdbp : Option (Bytes → Get)} {user : Bytes} {passbuf data : Password}
    (h : lookupUser passdbp user passbuf = (0, data)) :
    (∃ get, passdbp = some get ∧ get user = .found data) ∨ data = passbuf := by
  simp only [lookupUser] at h
  split_ifs at h with hlen
  · simp at h
  · cases passdbp with
    | none => simp at h
    | some get =>
      simp only [passGetdb] at h
      cases hget : get user with
      | found data' =>
        obtain rfl : data' = data := by simpa [hget] using h
        exact Or.inl ⟨get, rfl, hget⟩
      | failed ret =>
        simp only [hget] at h
        split_ifs at h
        · simp at h
        · exact Or.inr (Prod.mk.inj h).2.symm

/-- **The lookup fails closed.** A user who passes the checks after the Epoch
has a record: what a failed lookup leaves behind has expired. -/
theorem found_of_lookupUser {passdbp : Option (Bytes → Get)} {user : Bytes} {data : Password}
    {first second : ℤ} (h : lookupUser passdbp user .zero = (0, data))
    (hadmits : Admits data first second) (hclock : 0 < second) :
    ∃ get, passdbp = some get ∧ get user = .found data := by
  rcases lookupUser_cases h with hfound | rfl
  · exact hfound
  · have hend : second ≤ 0 := hadmits.open_
    omega

section Gate

variable (env : Env) (stream old : Bytes) (clock : ℤ)

/-- What holds of a session that has not reached its stores. -/
def Pending (s : Session) : Prop :=
  match s.phase with
  | .magic => s.conn.inq = stream ∧ s.user = old ∧ s.passbuf = .zero ∧ clock ≤ s.clock
  | .user => env.magic ++ s.conn.inq = stream ∧ env.magic.length = SHA_DIGEST_LENGTH ∧
      s.user = old ∧ s.passbuf = .zero ∧ clock ≤ s.clock
  | .pass => ∃ line, env.magic ++ line ++ s.conn.inq = stream ∧
      env.magic.length = SHA_DIGEST_LENGTH ∧ line.length = 10 ∧ strncmp line (ascii "USER ") ∧
      s.user = scanUser (line.drop 5) old ∧
      (∃ get, env.passdbp = some get ∧ get s.user = .found s.passbuf) ∧
      Admits s.passbuf s.checked.1 s.checked.2 ∧
      clock ≤ s.checked.1 ∧ s.checked.1 ≤ s.checked.2 ∧ s.checked.2 ≤ s.clock
  | .setup => Authenticated env stream old clock s
  | .done => True
  | .fault => True
  | _ => False

/-- The stores of a session are those of its user's number in one year, and a
file in hand has a name with property `P`. -/
structure InStores (P : Bytes → Prop) (session : ℤ) (s : Session) : Prop where
  college : s.college = toInt32 (strtol s.user)
  txtdir : s.txtdir = txtdirOf session s.college
  regdb : s.regdb = regdbOf session s.college
  placed : s.Placed P

/-- The invariant of the login: either nothing was done, or the client is
authenticated and everything done was done to the stores of its college. -/
def Gate (s : Session) (es : List Event) : Prop :=
  (Pending env stream old clock s ∧ ∀ e ∈ es, ¬ e.IsEffect) ∨
  (Authenticated env stream old clock s ∧ s.phase.Serving ∧
    ∃ session, InStores (fun _ => True) session s ∧ ∀ e ∈ es, e.IsEffect →
      e.UsesStores session s.college)

end Gate

section Steps

variable {env : Env} {stream old : Bytes} {clock : ℤ} {s s' : Session} {t : Turn} {es : List Event}
  {P : Bytes → Prop}

theorem Authenticated.wait (h : Authenticated env stream old clock s) (t : Turn) :
    Authenticated env stream old clock (s.wait t) :=
  ⟨h.sent, h.found, h.admits, h.time.1, h.time.2.1, h.time.2.2.trans (by simp [Session.wait])⟩

theorem Authenticated.keeps (h : Authenticated env stream old clock s) (hk : Keeps s s')
    (hsuffix : s'.conn.inq <:+ s.conn.inq) : Authenticated env stream old clock s' where
  sent := by
    obtain ⟨line, rest, hstream, hrest, hline⟩ := h.sent
    rw [hk.passbuf, hk.user]
    exact ⟨line, rest, hstream, hsuffix.trans hrest, hline⟩
  found := by rw [hk.passbuf, hk.user]; exact h.found
  admits := by rw [hk.passbuf, hk.checked]; exact h.admits
  time := by rw [hk.checked, hk.clock]; exact h.time

theorem Pending.wait (h : Pending env stream old clock s) (t : Turn) :
    Pending env stream old clock (s.wait t) := by
  have hclock : s.clock ≤ (s.wait t).clock := by simp [Session.wait]
  have hphase : (s.wait t).phase = s.phase := rfl
  unfold Pending at h ⊢
  rw [hphase]
  split at h
  · obtain ⟨hinq, huser, hzero, htime⟩ := h
    exact ⟨hinq, huser, hzero, htime.trans hclock⟩
  · obtain ⟨hinq, hmagic, huser, hzero, htime⟩ := h
    exact ⟨hinq, hmagic, huser, hzero, htime.trans hclock⟩
  · obtain ⟨line, hinq, hmagic, hlen, hword, huser, hfound, hadmits, h1, h2, h3⟩ := h
    exact ⟨line, hinq, hmagic, hlen, hword, huser, hfound, hadmits, h1, h2, h3.trans hclock⟩
  · exact Authenticated.wait h t
  · trivial
  · trivial
  · exact h

theorem Refused.gate (h : Refused s' es) {es₀ : List Event} (hnone : ∀ e ∈ es₀, ¬ e.IsEffect) :
    Gate env stream old clock s' (es₀ ++ es) := by
  refine Or.inl ⟨?_, fun e he => ?_⟩
  · rcases h.1 with hdone | hfault
    · simp [Pending, hdone]
    · simp [Pending, hfault]
  · rcases List.mem_append.mp he with he | he
    · exact hnone e he
    · exact (h.2 e he).not_isEffect

theorem not_isEffect_append_send {es₀ : List Event} (hnone : ∀ e ∈ es₀, ¬ e.IsEffect)
    (bs : Bytes) : ∀ e ∈ es₀ ++ [Event.send bs], ¬ e.IsEffect := by
  intro e he
  rcases List.mem_append.mp he with he | he
  · exact hnone e he
  · obtain rfl : e = .send bs := by simpa using he
    exact id

theorem InStores.wait {session : ℤ} (h : InStores P session s) (t : Turn) :
    InStores P session (s.wait t) := ⟨h.college, h.txtdir, h.regdb, h.placed⟩

theorem namesMeet_true (s : Session) (t : Turn) : NamesMeet (fun _ => True) s t :=
  fun _ _ _ _ _ => ⟨fun _ _ _ _ _ => trivial, fun _ _ _ _ => trivial⟩

/-- The stores are open behind a successful setup. -/
theorem openStores_inStores (h : openStores env s t = (s', es)) :
    InStores P (env.year s.clock) s' ∧ s'.phase.Serving := by
  obtain ⟨buffer, phase, hnext, rfl, -⟩ := openStores_cases h
  rcases hnext with rfl | rfl
  · exact ⟨⟨rfl, rfl, rfl, fun h => h.elim⟩, trivial⟩
  · exact ⟨⟨rfl, rfl, rfl, fun h => h.elim⟩, trivial⟩

/-- The calls that set up the stores are on the stores of the user's number. -/
theorem openStores_usesStores (h : openStores env s t = (s', es)) :
    ∀ e ∈ es, e.UsesStores (env.year s.clock) (toInt32 (strtol s.user)) := by
  obtain ⟨buffer, phase, -, -, hes⟩ := openStores_cases h
  intro e he
  rcases hes with rfl | rfl
  · simp only [List.mem_cons, List.not_mem_nil, or_false] at he
    rcases he with rfl | rfl | rfl <;> simp [Event.UsesStores]
  · simp only [List.cons_append, List.nil_append, List.mem_cons, List.not_mem_nil, or_false] at he
    rcases he with rfl | rfl | rfl | rfl <;> simp [Event.UsesStores]

/-- A step of the login keeps the invariant. -/
theorem Acted.gate_of_pending (hclock : 0 < clock) {es₀ : List Event}
    (hpending : Pending env stream old clock s) (hnone : ∀ e ∈ es₀, ¬ e.IsEffect)
    (h : Acted env s t s' es) :
    Gate env stream old clock s' (es₀ ++ es) := by
  cases h with
  -- each reply of the login is a send, which is no effect
  | magic hphase hstep =>
    obtain ⟨hinq, huser, hzero, htime⟩ : _ ∧ _ ∧ _ ∧ _ := by simpa [Pending, hphase] using hpending
    rcases readMagic_cases hstep with href | ⟨conn, errno, buffer, htook, hlen, rfl, rfl⟩
    · exact href.gate hnone
    · exact Or.inl ⟨⟨hinq ▸ htook.stream, hlen, huser, hzero, htime⟩,
        not_isEffect_append_send hnone _⟩
  | user hphase hstep =>
    obtain ⟨hinq, hmagic, huser, hzero, htime⟩ : _ ∧ _ ∧ _ ∧ _ ∧ _ := by
      simpa [Pending, hphase] using hpending
    rcases readUser_cases hstep with
      href | ⟨line, passbuf, conn, errno, buffer, htook, hlen, hword, hlookup, hadmits, rfl, rfl⟩
    · exact href.gate hnone
    · rw [hzero, huser] at hlookup
      have hfound := found_of_lookupUser hlookup hadmits (by omega)
      refine Or.inl ⟨⟨line, ?_, hmagic, hlen, hword, by rw [huser], by rwa [huser], hadmits,
        htime, by simp, by simp⟩, not_isEffect_append_send hnone _⟩
      rw [← hinq, ← htook.stream, List.append_assoc]
  -- the bytes read so far are the three parts of the login, in order
  | pass hphase hstep =>
    obtain ⟨line, hinq, hmagic, hlen, hword, huser, hfound, hadmits, htime⟩ :
        ∃ line, _ ∧ _ ∧ _ ∧ _ ∧ _ ∧ _ ∧ _ ∧ _ := by simpa only [Pending, hphase] using hpending
    rcases readPass_cases hstep with href | ⟨conn, errno, buffer, -, htook, rfl, rfl⟩
    · exact href.gate hnone
    · refine Or.inl ⟨⟨⟨line, conn.inq, ?_, List.suffix_rfl, hmagic, hlen, hword, huser⟩, hfound,
        hadmits, htime⟩, not_isEffect_append_send hnone _⟩
      rw [← hinq, ← htook.stream, List.append_assoc _ (ascii "PASS " ++ _)]
  -- the first effects, of a session that is authenticated by now
  | setup hphase hstep =>
    have hauth : Authenticated env stream old clock s := by
      simpa [Pending, hphase] using hpending
    obtain ⟨hin, hserving⟩ := openStores_inStores (P := fun _ => True) hstep
    obtain ⟨buffer, phase, -, rfl, -⟩ := openStores_cases hstep
    refine Or.inr ⟨⟨hauth.sent, hauth.found, hauth.admits, hauth.time⟩, hserving, env.year s.clock,
      hin, fun e he heffect => ?_⟩
    rcases List.mem_append.mp he with he | he
    · exact absurd heffect (hnone e he)
    · exact openStores_usesStores hstep e he
  | command hphase | image hphase | payload hphase | imageReply hphase | body hphase
  | close hphase | insert hphase | reply hphase | abandon hphase =>
    simp [Pending, hphase] at hpending

theorem openStores_user (h : openStores env s t = (s', es)) : s'.user = s.user := by
  obtain ⟨buffer, phase, -, rfl, -⟩ := openStores_cases h
  rfl

theorem openStores_not_isStore (h : openStores env s t = (s', es)) : ∀ e ∈ es, ¬ e.IsStore := by
  obtain ⟨buffer, phase, -, -, hes⟩ := openStores_cases h
  rcases hes with rfl | rfl <;> simp [Event.IsStore]

/-- A step of a serving session that scans only names with property `P` stays in
the stores of its college. -/
theorem Acted.inStores {session : ℤ} (hserving : s.phase.Serving) (hin : InStores P session s)
    (hnames : NamesMeet P s t) (h : Acted env s t s' es) :
    InStores P session s' ∧ s'.phase.Serving ∧
      ∀ e ∈ es, e.Within (txtdirOf session s'.college) (regdbOf session s'.college) P := by
  have hk := h.keeps hserving
  obtain ⟨hplaced, hserving', hwithin⟩ := h.within hserving hin.placed hnames
  rw [hin.txtdir, hin.regdb, ← hk.college] at hwithin
  refine ⟨⟨?_, ?_, ?_, hplaced⟩, hserving', hwithin⟩
  · rw [hk.college, hk.user, hin.college]
  · rw [hk.txtdir, hk.college, hin.txtdir]
  · rw [hk.regdb, hk.college, hin.regdb]

/-- One step of the session keeps the invariant of the login. -/
theorem gate_step (hclock : 0 < clock) (s : Session) (es : List Event) (t : Turn)
    (h : Gate env stream old clock s es) :
    Gate env stream old clock (manageClient env s t).1 (es ++ (manageClient env s t).2) := by
  -- time that passes changes neither the login nor the stores
  have hwaited : Gate env stream old clock (s.wait t) es := by
    rcases h with ⟨hpending, hnone⟩ | ⟨hauth, hserving, session, hin, huses⟩
    · exact Or.inl ⟨hpending.wait t, hnone⟩
    · exact Or.inr ⟨hauth.wait t, hserving, session, hin.wait t, huses⟩
  rcases manageClient_cases env s t with heq | hact
  · simpa [heq] using hwaited
  · rcases hwaited with ⟨hpending, hnone⟩ | ⟨hauth, hserving, session, hin, huses⟩
    · exact hact.gate_of_pending hclock hpending hnone
    · obtain ⟨hin', hserving', hwithin⟩ := hact.inStores hserving hin (namesMeet_true _ _)
      have hk := hact.keeps hserving
      refine Or.inr ⟨hauth.keeps hk (hact.suffix hserving), hserving', session, hin',
        fun e he heffect => ?_⟩
      rcases List.mem_append.mp he with he | he
      · rw [hk.college]
        exact huses e he heffect
      · exact (hwithin e he).usesStores

end Steps

/-- The invariant of the login holds after every run. -/
theorem gate_run (env : Env) (stream : Bytes) (eof : Bool) {clock : ℤ} (hclock : 0 < clock)
    (user tmpname : Bytes) (ts : List Turn) :
    let r := (manageClient env).run (Session.init stream eof clock user tmpname) ts
    Gate env stream (cstr user) clock r.1 r.2 := by
  have start : Gate env stream (cstr user) clock (Session.init stream eof clock user tmpname) [] :=
    Or.inl ⟨⟨rfl, rfl, rfl, le_refl _⟩, by simp⟩
  have always : (manageClient env).Meets (fun _ _ => True)
      (Session.init stream eof clock user tmpname) ts := Machine.meets_true _ _
  simpa using Machine.run_induction (fun s es t _ h => gate_step hclock s es t h) start always

/-- **No effect without authentication.** Whatever the client sends, however it
arrives and whatever the lookup answers: a session that has acted on a
directory, a file or a database is one whose client had sent the magic, a user
whose record was found and passed the checks, and the twenty bytes of the digest
in that record; and all it acted on are the stores, in one year, of the number
of that user. -/
theorem effect_authenticated {env : Env} (hrecords : RecordsEncrypted env) (stream : Bytes)
    (eof : Bool) {clock : ℤ} (hclock : 0 < clock) (user tmpname : Bytes) (ts : List Turn) :
    let r := (manageClient env).run (Session.init stream eof clock user tmpname) ts
    (∃ e ∈ r.2, e.IsEffect) →
      Authenticated env stream (cstr user) clock r.1 ∧
      r.1.passbuf.pass.take r.1.passbuf.len = r.1.passbuf.pass ∧
      r.1.passbuf.pass.length = SHA_DIGEST_LENGTH ∧
      ∃ session, ∀ e ∈ r.2, e.IsEffect → e.UsesStores session (toInt32 (strtol r.1.user)) := by
  intro r heffect
  rcases gate_run env stream eof hclock user tmpname ts with
    ⟨-, hnone⟩ | ⟨hauth, -, session, hin, huses⟩
  · obtain ⟨e, he, heffect⟩ := heffect
    exact absurd heffect (hnone e he)
  · obtain ⟨get, hget, hdata⟩ := hauth.found
    obtain ⟨hlen, hpass⟩ := hrecords get hget _ _ hdata
    refine ⟨hauth, ?_, hpass, session, hin.college ▸ huses⟩
    rw [hlen, ← hpass, List.take_length]

/-! ### A login -/

/-- The SHA-1 digest of `MAGIC`. -/
def sampleMagic : Bytes :=
  [59, 70, 194, 38, 202, 77, 232, 56, 154, 45, 183, 174, 103, 233, 156, 127, 156, 144, 155, 121]

/-- The record of a college whose password is "rajshahi". -/
def samplePassword : Password where
  pass := [52, 227, 72, 68, 130, 70, 63, 234, 107, 94, 179, 211, 174, 39, 141, 131, 181, 26, 101,
    104]
  len := 20
  disabled := 0
  start := 0
  end_ := 2000000000

/-- A server with one college, 0001. -/
def sampleEnv : Env where
  magic := sampleMagic
  passdbp := some fun user =>
    if user = ascii "0001" then .found samplePassword else .failed (-30990)
  year clock := 1970 + clock / 31556952
  ctime time := if time = 0 then ascii "Thu Jan  1 00:00:00 1970\n" else
    ascii "Wed May 18 03:33:20 2033\n"

/-- What the client of that college sends to log in. -/
def sampleLogin : Bytes :=
  sampleMagic ++ ascii "USER 0001\n" ++ ascii "PASS " ++ samplePassword.pass

/-- A step in which everything succeeds and whole lines arrive. -/
def sampleTurn : Turn where
  reads := List.replicate 3 (.upTo MAXLINE)
  writes := [.upTo MAXLINE]

theorem sampleEnv_records : RecordsEncrypted sampleEnv := by
  intro get hget key data hdata
  obtain rfl : _ = get := Option.some.inj hget
  dsimp only at hdata
  split_ifs at hdata
  obtain rfl : samplePassword = data := Get.found.inj hdata
  exact ⟨rfl, rfl⟩

theorem effect_authenticated_sample :
    let r := (manageClient sampleEnv).run (Session.init sampleLogin true 1120000000 [] [])
      (List.replicate 4 sampleTurn)
    Authenticated sampleEnv sampleLogin (cstr []) 1120000000 r.1 ∧
      r.1.passbuf.pass.take r.1.passbuf.len = r.1.passbuf.pass ∧
      r.1.passbuf.pass.length = SHA_DIGEST_LENGTH ∧
      ∃ session, ∀ e ∈ r.2, e.IsEffect → e.UsesStores session (toInt32 (strtol r.1.user)) :=
  effect_authenticated sampleEnv_records sampleLogin true (by decide) [] [] _
    ⟨.mkdir (yearDir TXTROOT3 2005), by decide, trivial⟩

end Esif.Server
