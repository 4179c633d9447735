import Esif.CS.Linked
import Esif.Client.Authenticate
import Esif.Server.Calm
import Esif.Server.Inspass
import Esif.Server.Login

/-!
# Login agreement

`authenticate` and the login phase of `manage_client` at the two ends of one
connection that holds. The login is a walk through the stages of `Stage`,
whichever side moves when and however the bytes are cut; each step brings one
side closer to its end, and at every stage short of the end a side can move.

## Main definitions

* `login` — the two machines and their connection
* `Accepts` — the password database lets the user in
* `Stage` — where the two sides are, and what lies between them
* `Finished` — neither side has anything left to do

## Main results

* `Stage.server_step`, `Stage.client_step` — what a step of either side does
* `login_agreement` — both sides finish, and agree
-/

namespace Esif.System

open Esif.CS Esif.Posix Esif.Server
open Esif.Client (Authenticate AuthPlace ReplyLine authenticate)

/-- The bytes arrive at the client. -/
def Authenticate.receive (bs : Bytes) (closed : Bool) (a : Authenticate) : Authenticate :=
  { a with wire := a.wire.receive bs closed }

/-- A login of a client at the server. What one side writes reaches the other at
once, and the server closes the connection when it is done; bytes that are still
on their way are those that a `read` does not return yet. -/
def login (env : Env) (username digest : Bytes) :
    Machine (Authenticate × Session) (Client.Turn ⊕ Turn) (Bytes ⊕ Event) :=
  Machine.linked (authenticate env.magic username digest) (manageClient env)
    (fun _ sent => Session.receive sent.flatten false)
    (fun s es => Authenticate.receive (sentBytes es) s.closed)

/-! ### The replies as the client reads them -/

section Replies

variable {env : Env} {line : Bytes}

theorem errval_decimal {n : ℕ} (hn : n < 2 ^ 31) {b : UInt8} (hb : isdigit b = false)
    (hnul : b ≠ nul)
    (rest : Bytes) : Client.Authenticate.errval (decimal n ++ b :: rest) = n := by
  rw [Client.Authenticate.errval, strtol_decimal_append n hb hnul, toInt32]
  omega

theorem newline_notMem_decimal (n : ℕ) : newline ∉ decimal n := fun hmem =>
  absurd (isdigit_of_mem_decimal hmem) (by decide)

/-- A reply that is a bare number. -/
theorem replyLine_ebuf {code : ℕ} (hcode : code < 2 ^ 31) (hlen : (decimal code).length = 3) :
    ReplyLine code (ebuf code) where
  shape := ⟨decimal code, rfl, newline_notMem_decimal code⟩
  least := by simp [ebuf, hlen]
  fits := by simp [ebuf, hlen, Client.AUTHBUFSIZE]
  errval := errval_decimal hcode rfl (by decide) []

/-- A reply with a text behind its number. -/
theorem replyLine_text {code : ℕ} (hcode : code < 2 ^ 31) (hlen : (decimal code).length = 3)
    {text : Bytes} (htext : newline ∉ text) (hshort : text.length ≤ 72) :
    ReplyLine code (decimal code ++ ascii " " ++ text ++ [newline]) where
  shape := by
    refine ⟨_, rfl, ?_⟩
    simp only [List.mem_append, not_or]
    exact ⟨⟨newline_notMem_decimal code, by decide⟩, htext⟩
  least := by
    simp [ascii, hlen]
    omega
  fits := by
    simp [ascii, hlen, Client.AUTHBUFSIZE]
    omega
  errval := by
    rw [List.append_assoc, List.append_assoc]
    exact errval_decimal hcode rfl (by decide) _

/-- The client tells a refusal from a welcome. -/
theorem replyLine_refusal (hctime : IsCtime env.ctime) (h : Refusal env line) :
    ∃ code, code ≠ Client.SUCCESS ∧ ReplyLine code line := by
  cases h with
  | noCollege => exact ⟨E_NO_COLLEGE, by decide, replyLine_ebuf (by decide) (by decide)⟩
  | disabled => exact ⟨E_COLLEGE_DISABLED, by decide, replyLine_ebuf (by decide) (by decide)⟩
  | noStart start =>
    obtain ⟨text, heq, htext, hlen⟩ := hctime start
    refine ⟨E_TIME_NOSTART, by decide, ?_⟩
    rw [heq, ← List.append_assoc]
    exact replyLine_text (by decide) (by decide) htext (by omega)
  | expired end_ =>
    obtain ⟨text, heq, htext, hlen⟩ := hctime end_
    refine ⟨E_TIME_EXPIRED, by decide, ?_⟩
    rw [heq, ← List.append_assoc]
    exact replyLine_text (by decide) (by decide) htext (by omega)

theorem replyLine_windowReply (hctime : IsCtime env.ctime) (passbuf : Password) :
    ReplyLine Client.SUCCESS (windowReply env passbuf) := by
  obtain ⟨text, heq, htext, hlen⟩ := hctime passbuf.start
  obtain ⟨text', heq', htext', hlen'⟩ := hctime passbuf.end_
  have hwindow : windowReply env passbuf =
      decimal 500 ++ ascii " " ++ (text ++ ascii " " ++ ascii "- " ++ text') ++ [newline] := by
    have hcode : ascii "500 " = decimal 500 ++ ascii " " := by decide
    have hdrop : (ascii "500 " ++ (text ++ [newline])).dropLast = ascii "500 " ++ text := by
      rw [← List.append_assoc, List.dropLast_concat]
    rw [windowReply, heq, heq', hdrop, hcode]
    simp only [List.append_assoc]
  rw [hwindow]
  refine @replyLine_text 500 (by decide) (by decide) _ ?_ ?_
  · simp only [List.mem_append, not_or]
    exact ⟨⟨⟨htext, by decide⟩, by decide⟩, htext'⟩
  · have hlits : (ascii " ").length + (ascii "- ").length = 3 := by decide
    simp only [List.length_append]
    omega

end Replies

/-! ### The stages of a login -/

/-- The session is at `phase`, and `bs` has arrived. -/
structure SessionAt (s : Session) (phase : Phase) (bs : Bytes) : Prop where
  phase : s.phase = phase
  holds : s.Holds bs

/-- What the two sides rely on: the same magic, a password database that
`inspass` made, a college code of four digits. -/
structure Setting (env : Env) (get : Bytes → Get) (username digest : Bytes) : Prop where
  magic : env.magic.length = SHA_DIGEST_LENGTH
  ctime : IsCtime env.ctime
  db : env.passdbp = some get
  failed : ∀ key ret, get key = .failed ret → ret < 0
  records : ∀ key data, get key = .found data →
    data.len = SHA_DIGEST_LENGTH ∧ data.pass.length = SHA_DIGEST_LENGTH
  code : CollegeCode username
  digest : digest.length = SHA_DIGEST_LENGTH

section Stages

variable (env : Env) (get : Bytes → Get) (username digest : Bytes)

/-- The user may send forms, and the digest is the one in the record. -/
def Accepts (checked : ℤ × ℤ) : Prop :=
  ∃ data, MaySend get username checked data ∧ digest = data.pass

/-- The session began at `clock`, and looked at the clock after that when it had a
record to check. -/
def Timed (clock : ℤ) (s : Session) : Prop :=
  clock ≤ s.clock ∧ (s.phase ≠ .magic → s.phase ≠ .user →
    ∀ data, get username = .found data → Looked clock s)

/-- Where the two sides are and what lies between them. -/
inductive Stage (a : Authenticate) (s : Session) : Prop
  | start (client : a.At .start []) (server : SessionAt s .magic [])
  | magicSent (client : a.At .feedback []) (server : SessionAt s .magic env.magic)
  | magicTaken (client : a.At .feedback (ebuf SUCCESS)) (server : SessionAt s .user [])
  | userSent (client : a.At .reply [])
      (server : SessionAt s .user (ascii "USER " ++ username ++ [newline]))
  | admitted (client : a.At .reply (windowReply env s.passbuf)) (server : SessionAt s .pass [])
      (may : MaySend get username s.checked s.passbuf)
  | refused (line : Bytes) (client : a.At .reply line) (server : SessionAt s .done [])
      (refusal : Refusal env line) (maynot : ∀ data, ¬ MaySend get username s.checked data)
  | passSent (client : a.At .verdict []) (server : SessionAt s .pass (ascii "PASS " ++ digest))
      (may : MaySend get username s.checked s.passbuf)
  | verified (client : a.At .verdict (ebuf SUCCESS)) (server : SessionAt s .setup [])
      (accepts : Accepts get username digest s.checked)
  | opened (client : a.At .verdict (ebuf SUCCESS)) (server : SessionAt s .command [])
      (accepts : Accepts get username digest s.checked)
  | mismatched (client : a.At .verdict (ebuf E_INVALID_PASSWORD)) (server : SessionAt s .done [])
      (refuses : ¬ Accepts get username digest s.checked)
  | turnedAway (client : a.At (.returned 1) []) (server : SessionAt s .done [])
      (refuses : ¬ Accepts get username digest s.checked)
  | letIn (client : a.At (.returned 0) []) (server : SessionAt s .setup [])
      (accepts : Accepts get username digest s.checked)
  | serving (client : a.At (.returned 0) []) (server : SessionAt s .command [])
      (accepts : Accepts get username digest s.checked)

end Stages

/-- The steps the client has left to take. -/
def clientLeft : AuthPlace → ℕ
  | .start => 4
  | .feedback => 3
  | .reply => 2
  | .verdict => 1
  | .returned _ => 0
  | .fault => 0

/-- The steps of its login the server has left to take. -/
def serverLeft : Phase → ℕ
  | .magic => 4
  | .user => 3
  | .pass => 2
  | .setup => 1
  | _ => 0

section Steps

variable {env : Env} {get : Bytes → Get} {username digest : Bytes} {a a' : Authenticate}
  {s s' : Session} {t : Turn} {c : Client.Turn} {es : List Event} {sent : List Bytes}

theorem SessionAt.wait {phase : Phase} {bs : Bytes} (h : SessionAt s phase bs) (t : Turn) :
    SessionAt (s.wait t) phase bs := ⟨h.phase, h.holds.inq, h.holds.eof, h.holds.buf⟩

theorem SessionAt.receive {phase : Phase} (h : SessionAt s phase []) (bs : Bytes) :
    SessionAt (Session.receive bs false s) phase bs :=
  ⟨h.phase, by simp [Session.receive, h.holds.inq], by simp [Session.receive, h.holds.eof],
    h.holds.buf⟩

theorem At.receive {place : AuthPlace} {bs : Bytes} (h : a.At place bs) (bs' : Bytes)
    (closed : Bool) : (Authenticate.receive bs' closed a).At place (bs ++ bs') :=
  ⟨h.place, by simp [Authenticate.receive, h.pending]⟩

@[simp] theorem receive_nil (a : Authenticate) : Authenticate.receive [] false a = a := by
  simp [Authenticate.receive, Client.Wire.receive]

@[simp] theorem session_receive_nil (s : Session) : Session.receive [] false s = s := by
  simp [Session.receive]

/-- Nor does a server that has nothing to say. -/
theorem Stage.receive_nil (h : Stage env get username digest a s) (closed : Bool) :
    Stage env get username digest (Authenticate.receive [] closed a) s := by
  have hat : ∀ {place bs}, a.At place bs → (Authenticate.receive [] closed a).At place bs :=
    fun ha => by simpa using At.receive ha [] closed
  cases h with
  | start client server => exact .start (hat client) server
  | magicSent client server => exact .magicSent (hat client) server
  | magicTaken client server => exact .magicTaken (hat client) server
  | userSent client server => exact .userSent (hat client) server
  | admitted client server may => exact .admitted (hat client) server may
  | refused line client server refusal maynot =>
    exact .refused line (hat client) server refusal maynot
  | passSent client server may => exact .passSent (hat client) server may
  | verified client server accepts => exact .verified (hat client) server accepts
  | opened client server accepts => exact .opened (hat client) server accepts
  | mismatched client server refuses => exact .mismatched (hat client) server refuses
  | turnedAway client server refuses => exact .turnedAway (hat client) server refuses
  | letIn client server accepts => exact .letIn (hat client) server accepts
  | serving client server accepts => exact .serving (hat client) server accepts

/-- Time that passes does not change the stage. -/
theorem Stage.wait (h : Stage env get username digest a s) (t : Turn) :
    Stage env get username digest a (s.wait t) := by
  cases h with
  | start client server => exact .start client (server.wait t)
  | magicSent client server => exact .magicSent client (server.wait t)
  | magicTaken client server => exact .magicTaken client (server.wait t)
  | userSent client server => exact .userSent client (server.wait t)
  | admitted client server may => exact .admitted client (server.wait t) may
  | refused line client server refusal maynot =>
    exact .refused line client (server.wait t) refusal maynot
  | passSent client server may => exact .passSent client (server.wait t) may
  | verified client server accepts => exact .verified client (server.wait t) accepts
  | opened client server accepts => exact .opened client (server.wait t) accepts
  | mismatched client server refuses => exact .mismatched client (server.wait t) refuses
  | turnedAway client server refuses => exact .turnedAway client (server.wait t) refuses
  | letIn client server accepts => exact .letIn client (server.wait t) accepts
  | serving client server accepts => exact .serving client (server.wait t) accepts

theorem Timed.wait {clock : ℤ} (h : Timed get username clock s) (t : Turn) :
    Timed get username clock (s.wait t) := by
  have hclock : s.clock ≤ (s.wait t).clock := by simp [Session.wait]
  refine ⟨h.1.trans hclock, fun hmagic huser data hdata => ?_⟩
  obtain ⟨hfirst, hle, hlast⟩ := h.2 hmagic huser data hdata
  exact ⟨hfirst, hle, hlast.trans hclock⟩

theorem Timed.keeps {clock : ℤ} (h : Timed get username clock s) (hmagic : s.phase ≠ .magic)
    (huser : s.phase ≠ .user) (hclock : s'.clock = s.clock) (hchecked : s'.checked = s.checked) :
    Timed get username clock s' := by
  refine ⟨hclock ▸ h.1, fun _ _ data hdata => ?_⟩
  obtain ⟨hfirst, hle, hlast⟩ := h.2 hmagic huser data hdata
  rw [Looked, hclock, hchecked]
  exact ⟨hfirst, hle, hlast⟩

/-- **A step of the server** takes the login one stage on. -/
theorem Stage.server_step (hset : Setting env get username digest) (hcalm : t.Calm)
    (h : Stage env get username digest a s) (hact : act env s t = some (s', es)) :
    Stage env get username digest (Authenticate.receive (sentBytes es) s'.closed a) s' ∧
      serverLeft s'.phase < serverLeft s.phase ∧
      ∀ clock, Timed get username clock s → Timed get username clock s' := by
  have hwaits : ∀ {phase}, SessionAt s phase [] → phase ∈ [.magic, .user, .pass, .command, .done] →
      (phase = .pass → s.passbuf.len = SHA_DIGEST_LENGTH) → False := by
    intro phase hs hphase hlen
    -- a server that waits for the client has nothing to read
    have hnone := @act_nil env s t hcalm hs.holds (hs.phase ▸ hphase) (hs.phase ▸ hlen)
    simp [hact] at hnone
  cases h with
  | start client server => exact (hwaits server (by simp) (by simp)).elim
  | magicTaken client server => exact (hwaits server (by simp) (by simp)).elim
  | admitted client server may =>
    exact (hwaits server (by simp) fun _ => (hset.records _ _ may.1).1).elim
  | refused line client server refusal maynot => exact (hwaits server (by simp) (by simp)).elim
  | opened client server accepts => exact (hwaits server (by simp) (by simp)).elim
  | mismatched client server refuses => exact (hwaits server (by simp) (by simp)).elim
  | turnedAway client server refuses => exact (hwaits server (by simp) (by simp)).elim
  | serving client server accepts => exact (hwaits server (by simp) (by simp)).elim
  | magicSent client server =>
    simp only [act, server.phase] at hact
    obtain ⟨hholds, rfl, conn, errno, buffer, rfl⟩ :=
      readMagic_calm hcalm server.holds hset.magic hact
    exact ⟨.magicTaken (At.receive client _ _) ⟨rfl, hholds⟩, by simp [serverLeft, server.phase],
      fun clock htimed => ⟨htimed.1, fun _ huser => absurd rfl huser⟩⟩
  | userSent client server =>
    simp only [act, server.phase] at hact
    obtain ⟨hholds, hclock, reply, rfl, hlooked, hcases⟩ :=
      readUser_calm hcalm hset.code server.holds hset.db (hset.failed _) hact
    have htimed : ∀ clock, Timed get username clock s → Timed get username clock s' := by
      refine fun clock htimed => ⟨htimed.1.trans hclock, fun _ _ data hdata => ?_⟩
      obtain ⟨hfirst, hle, hlast⟩ := hlooked data hdata
      exact ⟨htimed.1.trans hfirst, hle, hlast⟩
    rw [sentBytes_send]
    rcases hcases with ⟨hphase, rfl, hmay⟩ | ⟨hphase, hrefusal, hmaynot⟩
    · exact ⟨.admitted (At.receive client _ _) ⟨hphase, hholds⟩ hmay,
        by simp [serverLeft, server.phase, hphase], htimed⟩
    · exact ⟨.refused reply (At.receive client _ _) ⟨hphase, hholds⟩ hrefusal hmaynot,
        by simp [serverLeft, server.phase, hphase], htimed⟩
  | passSent client server may =>
    obtain ⟨hlen, hpass⟩ := hset.records _ _ may.1
    simp only [act, server.phase] at hact
    obtain ⟨hholds, phase, conn, errno, buffer, rfl, hcases⟩ :=
      readPass_calm hcalm hset.digest hlen hpass server.holds hact
    have htimed : ∀ clock, Timed get username clock s → Timed get username clock _ :=
      fun clock htimed => @Timed.keeps get username s { s with
        phase := phase, conn := conn, errno := errno, buffer := buffer } clock htimed
        (by simp [server.phase]) (by simp [server.phase]) rfl rfl
    rcases hcases with ⟨rfl, rfl, heq⟩ | ⟨rfl, rfl, hne⟩
    · exact ⟨.verified (At.receive client _ _) ⟨rfl, hholds⟩ ⟨s.passbuf, may, heq⟩,
        by simp [serverLeft, server.phase], htimed⟩
    · refine ⟨.mismatched (At.receive client _ _) ⟨rfl, hholds⟩ ?_,
        by simp [serverLeft, server.phase], htimed⟩
      -- `get` finds one record only: the one the digest was compared with
      rintro ⟨data, hmay, heq⟩
      obtain rfl : s.passbuf = data := Get.found.inj (may.1.symm.trans hmay.1)
      exact hne heq
  | verified client server accepts =>
    simp only [act, server.phase, Option.some.injEq] at hact
    obtain ⟨hholds, hphase, hchecked, hclock, hsent⟩ := openStores_calm hcalm server.holds hact
    rw [hsent]
    exact ⟨.opened (by simpa using At.receive client [] _) ⟨hphase, hholds⟩ (hchecked ▸ accepts),
      by simp [serverLeft, server.phase, hphase],
      fun clock htimed => htimed.keeps (by simp [server.phase]) (by simp [server.phase]) hclock
        hchecked⟩
  | letIn client server accepts =>
    simp only [act, server.phase, Option.some.injEq] at hact
    obtain ⟨hholds, hphase, hchecked, hclock, hsent⟩ := openStores_calm hcalm server.holds hact
    rw [hsent]
    exact ⟨.serving (by simpa using At.receive client [] _) ⟨hphase, hholds⟩ (hchecked ▸ accepts),
      by simp [serverLeft, server.phase, hphase],
      fun clock htimed => htimed.keeps (by simp [server.phase]) (by simp [server.phase]) hclock
        hchecked⟩

/-- **A step of the client** takes the login one stage on. -/
theorem Stage.client_step (hset : Setting env get username digest) (hcalm : c.Calm)
    (h : Stage env get username digest a s) (hopen : s.phase ≠ .done → a.wire.conn.eof = false)
    (hact : a.act env.magic username digest c = some (a', sent)) :
    Stage env get username digest a' (Session.receive sent.flatten false s) ∧
      clientLeft a'.place < clientLeft a.place ∧ a'.wire.conn.eof = a.wire.conn.eof := by
  have hwaits : ∀ {place phase}, a.At place [] → place ≠ .start → s.phase = phase →
      phase ≠ .done → False := by
    intro place phase ha hplace hphase hserver
    -- a client that waits for the server has nothing to read, and the server is not gone
    have hnone := @Client.Authenticate.act_nil env.magic username digest a c hcalm
      (hopen (hphase ▸ hserver)) (ha.place ▸ hplace) ha.pending
    simp [hact] at hnone
  have hsuccess : ReplyLine Client.SUCCESS (ebuf SUCCESS) :=
    @replyLine_ebuf SUCCESS (by decide) (by decide)
  have hinvalid : ReplyLine Client.E_INVALID_PASSWORD (ebuf E_INVALID_PASSWORD) :=
    @replyLine_ebuf E_INVALID_PASSWORD (by decide) (by decide)
  cases h with
  | magicSent client server => exact (hwaits client (by simp) server.phase (by simp)).elim
  | userSent client server => exact (hwaits client (by simp) server.phase (by simp)).elim
  | passSent client server may => exact (hwaits client (by simp) server.phase (by simp)).elim
  | turnedAway client server refuses => simp [Client.Authenticate.act, client.place] at hact
  | letIn client server accepts => simp [Client.Authenticate.act, client.place] at hact
  | serving client server accepts => simp [Client.Authenticate.act, client.place] at hact
  | start client server =>
    simp only [Client.Authenticate.act, client.place] at hact
    obtain ⟨hat, heof, rfl⟩ :=
      Client.Authenticate.sendMagic_calm hcalm hset.code.length client.pending hact
    refine ⟨.magicSent hat ?_, by simp [clientLeft, client.place, hat.place], heof⟩
    simpa using server.receive env.magic
  | magicTaken client server =>
    simp only [Client.Authenticate.act, client.place] at hact
    obtain ⟨hat, heof, rfl⟩ := Client.Authenticate.readFeedback_calm hcalm client.pending hact
    refine ⟨.userSent hat ?_, by simp [clientLeft, client.place, hat.place], heof⟩
    simpa using server.receive (ascii "USER " ++ username ++ [newline])
  | admitted client server may =>
    simp only [Client.Authenticate.act, client.place] at hact
    obtain ⟨hat, heof, rfl⟩ := Client.Authenticate.readReply_success hcalm
      (replyLine_windowReply hset.ctime _) client.pending hact
    refine ⟨.passSent hat ?_ may, by simp [clientLeft, client.place, hat.place], heof⟩
    simpa using server.receive (ascii "PASS " ++ digest)
  | refused line client server refusal maynot =>
    obtain ⟨code, hcode, hreply⟩ := replyLine_refusal hset.ctime refusal
    simp only [Client.Authenticate.act, client.place] at hact
    obtain ⟨hat, heof, rfl⟩ :=
      Client.Authenticate.readReply_refusal hcode hcalm hreply client.pending hact
    refine ⟨.turnedAway hat (by simpa using server) ?_,
      by simp [clientLeft, client.place, hat.place], heof⟩
    rintro ⟨data, hmay, -⟩
    exact maynot data hmay
  | verified client server accepts =>
    simp only [Client.Authenticate.act, client.place] at hact
    obtain ⟨hat, heof, rfl⟩ :=
      Client.Authenticate.readVerdict_calm hcalm hsuccess rfl client.pending hact
    exact ⟨.letIn hat (by simpa using server) accepts,
      by simp [clientLeft, client.place, hat.place], heof⟩
  | opened client server accepts =>
    simp only [Client.Authenticate.act, client.place] at hact
    obtain ⟨hat, heof, rfl⟩ :=
      Client.Authenticate.readVerdict_calm hcalm hsuccess rfl client.pending hact
    exact ⟨.serving hat (by simpa using server) accepts,
      by simp [clientLeft, client.place, hat.place], heof⟩
  | mismatched client server refuses =>
    simp only [Client.Authenticate.act, client.place] at hact
    obtain ⟨hat, heof, rfl⟩ :=
      Client.Authenticate.readVerdict_calm hcalm hinvalid rfl client.pending hact
    exact ⟨.turnedAway hat (by simpa using server) refuses,
      by simp [clientLeft, client.place, hat.place], heof⟩

/-- The client has something to do: the login to begin or a reply to read. -/
def ClientReady (a : Authenticate) : Prop := a.place = .start ∨ a.wire.pending ≠ []

/-- The server has something to do: bytes to read or its stores to open. -/
def ServerReady (s : Session) : Prop := s.phase = .setup ∨ s.conn.inq ≠ []

/-- A client that is ready moves, when its calls may. -/
theorem Stage.client_moves (hset : Setting env get username digest) (hample : c.Ample)
    (h : Stage env get username digest a s) (hready : ClientReady a) :
    ∃ r, a.act env.magic username digest c = some r := by
  have hidle : ∀ {place}, a.At place [] → place ≠ .start → False := by
    intro place ha hplace
    rcases hready with hstart | hpending
    · exact hplace (ha.place.symm.trans hstart)
    · exact hpending ha.pending
  have hmax : MAXLINE = 120 := rfl
  have hsha : SHA_DIGEST_LENGTH = 20 := rfl
  have hpass : (ascii "PASS " ++ digest).length ≤ MAXLINE := by
    simp only [List.length_append, hset.digest]
    decide
  have hsuccess := @replyLine_ebuf SUCCESS (by decide) (by decide)
  have hinvalid := @replyLine_ebuf E_INVALID_PASSWORD (by decide) (by decide)
  cases h with
  | magicSent client server => exact (hidle client (by simp)).elim
  | userSent client server => exact (hidle client (by simp)).elim
  | passSent client server may => exact (hidle client (by simp)).elim
  | turnedAway client server refuses => exact (hidle client (by simp)).elim
  | letIn client server accepts => exact (hidle client (by simp)).elim
  | serving client server accepts => exact (hidle client (by simp)).elim
  | start client server =>
    simp only [Client.Authenticate.act, client.place]
    exact Client.Authenticate.sendMagic_some hample hset.code.length (by rw [hset.magic]; decide)
  | magicTaken client server =>
    simp only [Client.Authenticate.act, client.place]
    exact Client.Authenticate.readFeedback_some hample hset.code.length hsuccess client.pending
  | admitted client server may =>
    simp only [Client.Authenticate.act, client.place]
    exact Client.Authenticate.readReply_some hample hpass (replyLine_windowReply hset.ctime _)
      client.pending
  | refused line client server refusal maynot =>
    obtain ⟨code, -, hreply⟩ := replyLine_refusal hset.ctime refusal
    simp only [Client.Authenticate.act, client.place]
    exact Client.Authenticate.readReply_some hample hpass hreply client.pending
  | verified client server accepts =>
    simp only [Client.Authenticate.act, client.place]
    exact Client.Authenticate.readVerdict_some hample hsuccess client.pending
  | opened client server accepts =>
    simp only [Client.Authenticate.act, client.place]
    exact Client.Authenticate.readVerdict_some hample hsuccess client.pending
  | mismatched client server refuses =>
    simp only [Client.Authenticate.act, client.place]
    exact Client.Authenticate.readVerdict_some hample hinvalid client.pending

/-- A server that is ready moves, when its calls may. -/
theorem Stage.server_moves (hset : Setting env get username digest) (hample : t.Ample)
    (h : Stage env get username digest a s) (hready : ServerReady s) :
    ∃ r, act env s t = some r := by
  have hidle : ∀ {phase}, SessionAt s phase [] → phase ≠ .setup → False := by
    intro phase hs hphase
    rcases hready with hsetup | hinq
    · exact hphase (hs.phase.symm.trans hsetup)
    · exact hinq hs.holds.inq
  cases h with
  | start client server => exact (hidle server (by simp)).elim
  | magicTaken client server => exact (hidle server (by simp)).elim
  | admitted client server may => exact (hidle server (by simp)).elim
  | refused line client server refusal maynot => exact (hidle server (by simp)).elim
  | opened client server accepts => exact (hidle server (by simp)).elim
  | mismatched client server refuses => exact (hidle server (by simp)).elim
  | turnedAway client server refuses => exact (hidle server (by simp)).elim
  | serving client server accepts => exact (hidle server (by simp)).elim
  | magicSent client server =>
    simp only [act, server.phase]
    exact readMagic_some hample server.holds hset.magic
  | userSent client server =>
    have hline : (ascii "USER " ++ username ++ [newline]).length = 10 := by
      simp [ascii, hset.code.length]
    simp only [act, server.phase]
    exact readUser_some hset.ctime hample hline server.holds
  | passSent client server may =>
    have hline : (ascii "PASS " ++ digest).length = 5 + SHA_DIGEST_LENGTH := by
      rw [List.length_append, hset.digest]
      rfl
    simp only [act, server.phase]
    exact readPass_some hample (hset.records _ _ may.1).1 hline server.holds
  | verified client server accepts =>
    simp only [act, server.phase]
    exact ⟨_, rfl⟩
  | letIn client server accepts =>
    simp only [act, server.phase]
    exact ⟨_, rfl⟩

/-- Short of the end a side is ready. -/
theorem Stage.ready (hmagic : env.magic.length = SHA_DIGEST_LENGTH)
    (h : Stage env get username digest a s) (hleft : 0 < clientLeft a.place + serverLeft s.phase) :
    ClientReady a ∨ ServerReady s := by
  cases h with
  | start client server => exact Or.inl (Or.inl client.place)
  | magicSent client server =>
    refine Or.inr (Or.inr fun hnil => ?_)
    rw [server.holds.inq] at hnil
    simp [hnil, SHA_DIGEST_LENGTH] at hmagic
  | magicTaken client server =>
    refine Or.inl (Or.inr ?_)
    rw [client.pending]
    decide
  | userSent client server =>
    refine Or.inr (Or.inr ?_)
    rw [server.holds.inq]
    simp
  | admitted client server may =>
    refine Or.inl (Or.inr ?_)
    rw [client.pending]
    simp [windowReply, ascii]
  | refused line client server refusal maynot =>
    refine Or.inl (Or.inr ?_)
    rw [client.pending]
    rintro rfl
    cases refusal
  | passSent client server may =>
    refine Or.inr (Or.inr ?_)
    rw [server.holds.inq]
    simp [ascii]
  | verified client server accepts => exact Or.inr (Or.inl server.phase)
  | opened client server accepts =>
    refine Or.inl (Or.inr ?_)
    rw [client.pending]
    decide
  | mismatched client server refuses =>
    refine Or.inl (Or.inr ?_)
    rw [client.pending]
    decide
  | turnedAway client server refuses =>
    simp [client.place, server.phase, clientLeft, serverLeft] at hleft
  | letIn client server accepts => exact Or.inr (Or.inl server.phase)
  | serving client server accepts =>
    simp [client.place, server.phase, clientLeft, serverLeft] at hleft

end Steps

/-! ### Runs -/

/-- A move of either side on a connection that holds. -/
def CalmMove : Client.Turn ⊕ Turn → Prop
  | .inl c => c.Calm
  | .inr t => t.Calm

instance : DecidablePred CalmMove
  | .inl c => inferInstanceAs (Decidable c.Calm)
  | .inr t => inferInstanceAs (Decidable t.Calm)

/-- The moves that a round of the login holds: one of each side, in which a whole
line can be moved. -/
def ampleMoves : List (Client.Turn ⊕ Turn → Prop) :=
  [fun i => ∃ c, i = .inl c ∧ c.Ample, fun i => ∃ t, i = .inr t ∧ t.Ample]

/-- The steps both sides have left to take. -/
def left (p : Authenticate × Session) : ℕ := clientLeft p.1.place + serverLeft p.2.phase

/-- The side that moves has something to do, and its calls may do it. -/
def Helps (p : Authenticate × Session) : Client.Turn ⊕ Turn → Prop
  | .inl c => c.Ample ∧ ClientReady p.1
  | .inr t => t.Ample ∧ ServerReady p.2

/-- Neither side has anything left to do. -/
def Finished (a : Authenticate) (s : Session) : Prop :=
  (∃ ret, a.place = .returned ret) ∧ (s.phase = .command ∨ s.phase = .done)

/-- What holds in every state of a login. -/
structure Reached (env : Env) (get : Bytes → Get) (username digest : Bytes) (clock : ℤ)
    (p : Authenticate × Session) : Prop where
  stage : Stage env get username digest p.1 p.2
  unclosed : p.2.phase ≠ .done → p.1.wire.conn.eof = false
  timed : Timed get username clock p.2

section Runs

variable {env : Env} {get : Bytes → Get} {username digest : Bytes} {clock : ℤ}
  {p : Authenticate × Session} {i : Client.Turn ⊕ Turn}

/-- One move of either side: the login goes on, or the side waits. -/
theorem Reached.step (hset : Setting env get username digest)
    (h : Reached env get username digest clock p) (hcalm : CalmMove i) :
    Reached env get username digest clock (login env username digest p i).1 ∧
      (left (login env username digest p i).1 < left p ∨
        left (login env username digest p i).1 = left p ∧ (¬ Helps p i) ∧
          ∀ j, Helps p j → Helps (login env username digest p i).1 j) := by
  obtain ⟨a, s⟩ := p
  cases i with
  | inl c =>
    simp only [login, Machine.linked, authenticate]
    cases hact : a.act env.magic username digest c with
    | none =>
      refine ⟨⟨?_, ?_, ?_⟩, Or.inr ⟨?_, ?_, ?_⟩⟩
      · simpa using h.stage
      · simpa using h.unclosed
      · simpa using h.timed
      · simp [left]
      · rintro ⟨hample, hready⟩
        obtain ⟨r, hr⟩ := h.stage.client_moves hset hample hready
        simp [hact] at hr
      · simp
    | some r =>
      obtain ⟨a', sent⟩ := r
      obtain ⟨hstage, hleft, heof⟩ := h.stage.client_step hset hcalm h.unclosed hact
      exact ⟨⟨hstage, fun hphase => heof.trans (h.unclosed hphase), h.timed⟩,
        Or.inl (Nat.add_lt_add_right hleft _)⟩
  | inr t =>
    have hstage := h.stage.wait t
    have htimed := Timed.wait h.timed t
    simp only [login, Machine.linked, manageClient]
    cases hact : act env (s.wait t) t with
    | none =>
      refine ⟨⟨?_, fun hphase => ?_, ?_⟩, Or.inr ⟨?_, ?_, ?_⟩⟩
      · exact hstage.receive_nil _
      · have hopen : a.wire.conn.eof = false := h.unclosed hphase
        simpa [Authenticate.receive, Session.closed, hopen] using hphase
      · exact htimed
      · simp [left, Authenticate.receive, Session.wait]
      · rintro ⟨hample, hready⟩
        obtain ⟨r, hr⟩ := hstage.server_moves hset hample hready
        simp [hact] at hr
      · rintro (c | t')
        · simp [Helps, ClientReady, Authenticate.receive, sentBytes]
        · exact id
    | some r =>
      obtain ⟨s', es⟩ := r
      obtain ⟨hstage', hleft, hkeeps⟩ := hstage.server_step hset hcalm hact
      refine ⟨⟨hstage', fun hphase => ?_, hkeeps clock htimed⟩,
        Or.inl (Nat.add_lt_add_left hleft _)⟩
      have hopen : a.wire.conn.eof = false := h.unclosed fun hdone => by
        have hstopped : (s.wait t).phase = .done := hdone
        simp [act, hstopped] at hact
      simpa [Authenticate.receive, Session.closed, hopen] using hphase

/-- Enough rounds bring both sides to their end. -/
theorem Reached.run (hset : Setting env get username digest)
    (h : Reached env get username digest clock p) {moves : List (Client.Turn ⊕ Turn)}
    (hcalm : ∀ i ∈ moves, CalmMove i) :
    let r := (login env username digest).run p moves
    Reached env get username digest clock r.1 ∧
      ∀ n, left p ≤ n → Rounds ampleMoves n moves → left r.1 = 0 := by
  have step : (login env username digest).Advances (Reached env get username digest clock)
      (fun _ i => CalmMove i) left Helps := fun p i hp hi => hp.step hset hi
  have available : ∀ p, Reached env get username digest clock p → 0 < left p →
      ∃ kind ∈ ampleMoves, ∀ i, kind i → Helps p i := by
    intro p hp hpos
    rcases hp.stage.ready hset.magic hpos with hready | hready
    · refine ⟨_, List.mem_cons_self, ?_⟩
      rintro i ⟨c, rfl, hample⟩
      exact ⟨hample, hready⟩
    · refine ⟨_, List.mem_cons_of_mem _ List.mem_cons_self, ?_⟩
      rintro i ⟨t, rfl, hample⟩
      exact ⟨hample, hready⟩
  exact step.run available h (Machine.meets_of_forall p hcalm)

/-- At the end the two sides agree. -/
theorem Stage.agree {a : Authenticate} {s : Session} (h : Stage env get username digest a s) :
    (left (a, s) = 0 → Finished a s) ∧ (Finished a s →
      (a.place = .returned 0 ↔ s.phase = .command) ∧
      (s.phase = .command ↔ Accepts get username digest s.checked) ∧
      (a.place = .returned 0 → a.wire.pending = [] ∧ unread s.tsd s.conn = [])) := by
  have hleft : ∀ {a s}, left (a, s) = 0 → clientLeft a.place = 0 ∧ serverLeft s.phase = 0 :=
    fun h => Nat.add_eq_zero_iff.mp h
  cases h with
  | turnedAway client server refuses =>
    refine ⟨fun _ => ⟨⟨1, client.place⟩, Or.inr server.phase⟩, fun _ => ⟨?_, ?_, ?_⟩⟩
    · simp [client.place, server.phase]
    · simp [server.phase, refuses]
    · simp [client.place]
  | serving client server accepts =>
    refine ⟨fun _ => ⟨⟨0, client.place⟩, Or.inl server.phase⟩, fun _ => ⟨?_, ?_, fun _ => ?_⟩⟩
    · simp [client.place, server.phase]
    · simp [server.phase, accepts]
    · exact ⟨client.pending, by simp [unread, server.holds.buf, server.holds.inq]⟩
  | letIn client server accepts =>
    constructor
    · intro h
      have hserver := (hleft h).2
      simp [server.phase, serverLeft] at hserver
    · rintro ⟨-, hserver⟩
      simp [server.phase] at hserver
  | start client server | magicSent client server | magicTaken client server
  | userSent client server | admitted client server | refused _ client server
  | passSent client server | verified client server | opened client server
  | mismatched client server =>
    constructor
    · intro h
      have hclient := (hleft h).1
      simp [client.place, clientLeft] at hclient
    · rintro ⟨⟨ret, hret⟩, -⟩
      simp [client.place] at hret

end Runs

/-! ### Agreement -/

/-- `MAGIC` -/
def MAGIC : Bytes := ascii "UiPatyYZz49882454iIopzZ"

/-- A server whose password database `inspass` made of `entries`. -/
def serverEnv (sha1 : Bytes → Bytes) (year : ℤ → ℤ) (ctime : ℤ → Bytes) (entries : List Entry) :
    Env where
  magic := sha1 MAGIC
  passdbp := some (inspass sha1 entries)
  year := year
  ctime := ctime

/-- A code of a college is printed as four digits. -/
theorem collegeCode_printInt04 {code : ℕ} (hcode : code ≤ 9999) :
    CollegeCode (printInt04 code) := by
  have hprint : printInt04 code = (decimal code).leftpad 4 48 := by
    simp [printInt04]
  have hdec : (decimal code).length ≤ 4 := length_decimal_le (by decide) (by omega)
  refine ⟨?_, fun b hb => ?_⟩
  · rw [hprint, List.length_leftpad]
    omega
  · rw [hprint] at hb
    exact isdigit_of_mem_leftpad hb

theorem setting_serverEnv {sha1 : Bytes → Bytes}
    (hsha1 : ∀ bs, (sha1 bs).length = SHA_DIGEST_LENGTH) (year : ℤ → ℤ) {ctime : ℤ → Bytes}
    (hctime : IsCtime ctime) (entries : List Entry) {code : ℕ} (hcode : code ≤ 9999)
    (pass : Bytes) :
    Setting (serverEnv sha1 year ctime entries) (inspass sha1 entries) (printInt04 code)
      (sha1 (cstr pass)) where
  magic := hsha1 MAGIC
  ctime := hctime
  db := rfl
  failed key ret hfailed := by
    rcases inspass_cases sha1 entries key with hnone | ⟨e, -, -, hfound⟩
    · obtain rfl : DB_NOTFOUND = ret := Get.failed.inj (hnone.symm.trans hfailed)
      decide
    · simp [hfound] at hfailed
  records key data hdata := by
    rcases inspass_cases sha1 entries key with hnone | ⟨e, -, -, hfound⟩
    · simp [hnone] at hdata
    · obtain rfl : e.record sha1 = data := Get.found.inj (hfound.symm.trans hdata)
      exact ⟨rfl, hsha1 _⟩
  code := collegeCode_printInt04 hcode
  digest := hsha1 _

/-- **Login agreement.** A client that logs in with a college code and a password
and the server it is connected to, moving in any order while the connection
holds: after eight rounds both are at their end. There `authenticate` has
returned 0 if and only if the server is in its command loop, and that is so if
and only if the password database has a record of the code which admits the
two looks at the clock and holds the digest of the password; and then no byte is
unread on either side. -/
theorem login_agreement {sha1 : Bytes → Bytes}
    (hsha1 : ∀ bs, (sha1 bs).length = SHA_DIGEST_LENGTH) (year : ℤ → ℤ) {ctime : ℤ → Bytes}
    (hctime : IsCtime ctime) (entries : List Entry) {code : ℕ} (hcode : code ≤ 9999)
    (pass : Bytes) (clock : ℤ) (user tmpname : Bytes) {moves : List (Client.Turn ⊕ Turn)}
    (hcalm : ∀ i ∈ moves, CalmMove i) :
    let get := inspass sha1 entries
    let r := (login (serverEnv sha1 year ctime entries) (printInt04 code) (sha1 (cstr pass))).run
      (Client.Authenticate.init, Session.init [] false clock user tmpname) moves
    let client := r.1.1
    let server := r.1.2
    (Rounds ampleMoves 8 moves → Finished client server) ∧
    (Finished client server →
      (client.place = .returned 0 ↔ server.phase = .command) ∧
      (server.phase = .command ↔
        Accepts get (printInt04 code) (sha1 (cstr pass)) server.checked) ∧
      (∀ data, get (printInt04 code) = .found data → Looked clock server) ∧
      (client.place = .returned 0 →
        client.wire.pending = [] ∧ unread server.tsd server.conn = [])) := by
  intro get r client server
  have hset := setting_serverEnv hsha1 year hctime entries hcode pass
  have start : Reached (serverEnv sha1 year ctime entries) get (printInt04 code) (sha1 (cstr pass))
      clock (Client.Authenticate.init, Session.init [] false clock user tmpname) :=
    ⟨.start ⟨rfl, rfl⟩ ⟨rfl, rfl, rfl, rfl⟩, fun _ => rfl, le_rfl, fun hmagic => absurd rfl hmagic⟩
  obtain ⟨hreached, hrounds⟩ := start.run hset hcalm
  obtain ⟨hend, hagree⟩ := hreached.stage.agree
  refine ⟨fun h => hend (hrounds 8 (le_refl 8) h), fun hfinished => ?_⟩
  obtain ⟨hboth, haccepts, hunread⟩ := hagree hfinished
  obtain ⟨hmagic, huser⟩ : server.phase ≠ .magic ∧ server.phase ≠ .user := by
    rcases hfinished.2 with hphase | hphase
    · simp [server, r, hphase]
    · simp [server, r, hphase]
  exact ⟨hboth, haccepts, hreached.timed.2 hmagic huser, hunread⟩

/-- SHA-1 on the two strings of `sampleEntries`. -/
def sampleSha1 (bs : Bytes) : Bytes :=
  if bs = MAGIC then
    [59, 70, 194, 38, 202, 77, 232, 56, 154, 45, 183, 174, 103, 233, 156, 127, 156, 144, 155, 121]
  else if bs = ascii "rajshahi" then
    [52, 227, 72, 68, 130, 70, 63, 234, 107, 94, 179, 211, 174, 39, 141, 131, 181, 26, 101, 104]
  else List.replicate SHA_DIGEST_LENGTH 0

/-- One college, 0001, with the password "rajshahi". -/
def sampleEntries : List Entry := [⟨0, 1, ascii "rajshahi", 0, 2000000000⟩]

/-- Calls that move the bytes one by one. -/
def sampleBytes : List Outcome := List.replicate MAXLINE (.upTo 1)

def sampleRound : List (Client.Turn ⊕ Turn) :=
  [.inl { reads := sampleBytes, writes := sampleBytes },
    .inr { reads := sampleBytes, writes := sampleBytes }]

theorem length_sampleSha1 (bs : Bytes) : (sampleSha1 bs).length = SHA_DIGEST_LENGTH := by
  unfold sampleSha1
  split_ifs <;> rfl

theorem isCtime_sampleEnv : IsCtime sampleEnv.ctime := by
  intro time
  simp only [sampleEnv]
  split_ifs
  · exact ⟨ascii "Thu Jan  1 00:00:00 1970", by decide, by decide, by decide⟩
  · exact ⟨ascii "Wed May 18 03:33:20 2033", by decide, by decide, by decide⟩

theorem calm_sampleBytes : Posix.Calm sampleBytes := fun o ho => by
  rw [List.eq_of_mem_replicate ho]
  trivial

theorem moves_sampleBytes : MAXLINE ≤ moves sampleBytes := (moves_replicate _ _).ge

theorem calmMove_sampleRound : ∀ i ∈ (List.replicate 8 sampleRound).flatten, CalmMove i := by
  intro i hi
  obtain ⟨round, hround, hi⟩ := List.mem_flatten.mp hi
  rw [List.eq_of_mem_replicate hround] at hi
  simp only [sampleRound, List.mem_cons, List.not_mem_nil, or_false] at hi
  rcases hi with rfl | rfl
  · exact ⟨calm_sampleBytes, calm_sampleBytes⟩
  · exact ⟨calm_sampleBytes, calm_sampleBytes, rfl, rfl⟩

theorem rounds_sampleRound : Rounds ampleMoves 8 (List.replicate 8 sampleRound).flatten := by
  refine rounds_replicate (fun kind hkind => ?_) 8
  simp only [ampleMoves, List.mem_cons, List.not_mem_nil, or_false] at hkind
  rcases hkind with rfl | rfl
  · exact ⟨_, List.mem_cons_self, _, rfl, ⟨calm_sampleBytes, calm_sampleBytes⟩, moves_sampleBytes,
      moves_sampleBytes⟩
  · exact ⟨_, List.mem_cons_of_mem _ List.mem_cons_self, _, rfl,
      ⟨calm_sampleBytes, calm_sampleBytes, rfl, rfl⟩, moves_sampleBytes, moves_sampleBytes⟩

theorem login_agreement_sample :
    let get := inspass sampleSha1 sampleEntries
    let r := (login (serverEnv sampleSha1 sampleEnv.year sampleEnv.ctime sampleEntries)
      (printInt04 (1 : ℕ)) (sampleSha1 (cstr (ascii "rajshahi")))).run
      (Client.Authenticate.init, Session.init [] false 1120000000 [] [])
      (List.replicate 8 sampleRound).flatten
    let client := r.1.1
    let server := r.1.2
    Finished client server ∧
      (client.place = .returned 0 ↔ server.phase = .command) ∧
      (server.phase = .command ↔ Accepts get (printInt04 (1 : ℕ))
        (sampleSha1 (cstr (ascii "rajshahi"))) server.checked) ∧
      (∀ data, get (printInt04 (1 : ℕ)) = .found data → Looked 1120000000 server) ∧
      (client.place = .returned 0 →
        client.wire.pending = [] ∧ unread server.tsd server.conn = []) := by
  have hagree := login_agreement length_sampleSha1 sampleEnv.year isCtime_sampleEnv
    sampleEntries (show 1 ≤ 9999 by decide) (ascii "rajshahi") 1120000000 [] [] calmMove_sampleRound
  exact ⟨hagree.1 rounds_sampleRound, hagree.2 (hagree.1 rounds_sampleRound)⟩

/-- The college is let in. -/
example : ((login (serverEnv sampleSha1 sampleEnv.year sampleEnv.ctime sampleEntries)
      (printInt04 1) (sampleSha1 (cstr (ascii "rajshahi")))).run
      (Client.Authenticate.init, Session.init [] false 1120000000 [] [])
      (List.replicate 8 sampleRound).flatten).1.1.place = .returned 0 := by
  decide +kernel

end Esif.System
