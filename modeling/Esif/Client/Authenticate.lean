import Esif.CS.Machine
import Esif.Client.Wire
import Esif.Posix.Bytes

/-!
# Logging in

`authenticate` as a machine: a place for every wait of the client. The label in
which it reports its progress is left out.

## Main definitions

* `Authenticate` — where the client is in its login
* `authenticate` — one step
-/

namespace Esif.Client

open Esif.CS Esif.Posix

/-- Where `authenticate` is: before it has sent anything, waiting for the reply
to the magic, to the college code and to the password, or behind its return. -/
inductive AuthPlace where
  | start
  | feedback
  | reply
  | verdict
  | returned (ret : ℤ)
  | fault
  deriving DecidableEq, Repr

/-- A login of the client. -/
structure Authenticate where
  place : AuthPlace
  wire : Wire
  deriving DecidableEq, Repr

/-- The size of the array that `authenticate` reads lines into. -/
def AUTHBUFSIZE : ℕ := 80

def SUCCESS : ℤ := 500

def E_INVALID_PASSWORD : ℤ := 303

namespace Authenticate

/-- A login at its start, on a new connection. -/
def init : Authenticate := ⟨.start, { conn := { inq := [], eof := false } }⟩

/-- Leave with a return value, having sent nothing more. -/
def leave (a : Authenticate) (ret : ℤ) : Authenticate × List Bytes :=
  ({ a with place := .returned ret }, [])

/-- Send an array; go on in `next` when all of it was written. -/
def send (a : Authenticate) (bs : Bytes) (writes : List Outcome) (next : AuthPlace) :
    Option (Authenticate × List Bytes) :=
  (a.wire.writen bs writes).map fun (full, sent, wire) =>
    (⟨if full then next else .returned 1, wire⟩, [sent])

/-- The magic is sent. -/
def sendMagic (magic username : Bytes) (a : Authenticate) (t : Turn) :
    Option (Authenticate × List Bytes) :=
  -- the server reads a fixed number of bytes
  if username.length ≠ 4 then some (a.leave 1) else a.send magic t.writes .feedback

/-- The reply to the magic is read and the college code sent. -/
def readFeedback (username : Bytes) (a : Authenticate) (t : Turn) :
    Option (Authenticate × List Bytes) := do
  let (ret, line, wire) ← a.wire.readline AUTHBUFSIZE t.reads
  let a := { a with wire := wire }
  -- short, failed, or more than the reply
  if ret ≠ 4 then some (a.leave 1)
  else if !strncmp line (ascii "500\n") then some (a.leave 1)
  else a.send (ascii "USER " ++ username ++ [newline]) t.writes .reply

/-- `strtol(buffer, NULL, 10)` as an `int`. -/
def errval (line : Bytes) : ℤ := toInt32 (strtol (cstr line))

/-- The reply to the college code is read and the digest of the password sent;
every code but one is a refusal. A line that does not fit the array is written
outside it. -/
def readReply (digest : Bytes) (a : Authenticate) (t : Turn) :
    Option (Authenticate × List Bytes) := do
  let (ret, line, wire) ← a.wire.readline MAXLINE t.reads
  let a := { a with wire := wire }
  if AUTHBUFSIZE ≤ line.length then some ({ a with place := .fault }, [])
  else if ret < 4 then some (a.leave 1)
  else if errval line ≠ SUCCESS then some (a.leave 1)
  else a.send (ascii "PASS " ++ digest) t.writes .verdict

/-- The reply to the password is read. -/
def readVerdict (a : Authenticate) (t : Turn) : Option (Authenticate × List Bytes) := do
  let (ret, line, wire) ← a.wire.readline MAXLINE t.reads
  let a := { a with wire := wire }
  if AUTHBUFSIZE ≤ line.length then some ({ a with place := .fault }, [])
  else if ret ≠ 4 then some (a.leave 1)
  -- every other verdict lets the user in
  else if errval line = E_INVALID_PASSWORD then some (a.leave 1)
  else some (a.leave 0)

end Authenticate

/-- One step of `authenticate`, when it does not block. -/
def Authenticate.act (magic username digest : Bytes) (a : Authenticate) (t : Turn) :
    Option (Authenticate × List Bytes) :=
  match a.place with
  | .start => a.sendMagic magic username t
  | .feedback => a.readFeedback username t
  | .reply => a.readReply digest t
  | .verdict => a.readVerdict t
  | .returned _ => none
  | .fault => none

/-- `authenticate(username, pass)`, one step at a time; `digest` is the SHA-1
digest of `pass`. -/
def authenticate (magic username digest : Bytes) : Machine Authenticate Turn Bytes := fun a t =>
  (a.act magic username digest t).getD (a, [])

/-! ### On a connection that holds -/

/-- A line the server answers with, the number `code` at its head. -/
structure ReplyLine (code : ℤ) (line : Bytes) : Prop where
  shape : ∃ body, line = body ++ [newline] ∧ newline ∉ body
  least : 4 ≤ line.length
  fits : line.length < AUTHBUFSIZE
  errval : Authenticate.errval line = code

namespace Authenticate

variable {magic username digest bs line : Bytes} {a a' : Authenticate} {t : Turn}
  {sent : List Bytes} {writes : List Outcome} {next : AuthPlace}

/-- The client is at a place of its login, and `bs` has arrived. -/
structure At (a : Authenticate) (place : AuthPlace) (bs : Bytes) : Prop where
  place : a.place = place
  pending : a.wire.pending = bs

theorem send_calm (hcalm : Calm writes) (hpending : a.wire.pending = line)
    (h : a.send bs writes next = some (a', sent)) :
    a'.At next line ∧ a'.wire.conn.eof = a.wire.conn.eof ∧ sent = [bs] := by
  obtain ⟨⟨full, sent', wire⟩, hwrite, heq⟩ := Option.map_eq_some_iff.mp h
  obtain ⟨rfl, rfl, hconn, htsd⟩ := Wire.writen_calm hcalm hwrite
  obtain ⟨rfl, rfl⟩ : _ = a' ∧ _ = sent := by simpa using heq
  exact ⟨⟨rfl, by rw [← hpending, Wire.pending, Wire.pending, hconn, htsd]⟩, by rw [hconn], rfl⟩

theorem send_some (hcalm : Calm writes) (hmoves : bs.length ≤ moves writes) :
    ∃ r, a.send bs writes next = some r := by
  obtain ⟨r, hr⟩ := Wire.writen_some (w := a.wire) hcalm hmoves
  exact ⟨_, by rw [send, hr]; rfl⟩

theorem sendMagic_calm (hcalm : t.Calm) (husername : username.length = 4)
    (hpending : a.wire.pending = line) (h : a.sendMagic magic username t = some (a', sent)) :
    a'.At .feedback line ∧ a'.wire.conn.eof = a.wire.conn.eof ∧ sent = [magic] := by
  rw [sendMagic, if_neg (not_not.mpr husername)] at h
  exact send_calm hcalm.writes hpending h

theorem sendMagic_some (hample : t.Ample) (husername : username.length = 4)
    (hmagic : magic.length ≤ MAXLINE) : ∃ r, a.sendMagic magic username t = some r := by
  rw [sendMagic, if_neg (not_not.mpr husername)]
  exact send_some hample.calm.writes (hmagic.trans hample.writes)

/-- What a step that reads a line does with the line that has arrived. -/
theorem readline_calm {maxlen : ℕ} {body : Bytes} {ret : ℤ} {got : Bytes} {wire : Wire}
    (hcalm : t.Calm) (hpending : a.wire.pending = line) (hline : line = body ++ [newline])
    (hbody : newline ∉ body) (hlen : line.length < maxlen)
    (h : a.wire.readline maxlen t.reads = some (ret, got, wire)) :
    ret = line.length ∧ got = line ∧ wire.pending = [] ∧ wire.conn.eof = a.wire.conn.eof := by
  subst hline
  have hwhole : Lines.Whole isNewline (maxlen - 1) (body ++ [newline]) := by
    refine Lines.whole_line isNewline (fun b hb => ?_) rfl ?_
    · simpa [isNewline] using ne_of_mem_of_not_mem hb hbody
    · simp only [List.length_append, List.length_singleton] at hlen
      omega
  have hpending' : a.wire.pending = (body ++ [newline]) ++ [] := by rw [hpending, List.append_nil]
  obtain ⟨hret, hgot, hrest, heof⟩ :=
    Wire.readline_calm hcalm.reads hpending' hwhole (by simp) h
  exact ⟨by simpa [isNewline] using hret, hgot, hrest, heof⟩

theorem readFeedback_calm (hcalm : t.Calm) (hpending : a.wire.pending = ascii "500\n")
    (h : a.readFeedback username t = some (a', sent)) :
    a'.At .reply [] ∧ a'.wire.conn.eof = a.wire.conn.eof ∧
      sent = [ascii "USER " ++ username ++ [newline]] := by
  simp only [readFeedback, Option.bind_eq_bind, Option.bind_eq_some_iff] at h
  obtain ⟨⟨ret, got, wire⟩, hread, h⟩ := h
  obtain ⟨rfl, rfl, hpending', heof⟩ :=
    @readline_calm _ _ _ _ (ascii "500") _ _ _ hcalm hpending rfl
    (by decide) (by decide) hread
  exact heof ▸ send_calm (a := { a with wire := wire }) hcalm.writes hpending' h

/-- The college code is accepted: the digest is sent. -/
theorem readReply_success (hcalm : t.Calm) (hreply : ReplyLine SUCCESS line)
    (hpending : a.wire.pending = line) (h : a.readReply digest t = some (a', sent)) :
    a'.At .verdict [] ∧ a'.wire.conn.eof = a.wire.conn.eof ∧ sent = [ascii "PASS " ++ digest] := by
  obtain ⟨⟨body, hline, hbody⟩, hleast, hfits, herr⟩ := hreply
  have hmax : AUTHBUFSIZE < MAXLINE := by decide
  simp only [readReply, Option.bind_eq_bind, Option.bind_eq_some_iff] at h
  obtain ⟨⟨ret, got, wire⟩, hread, h⟩ := h
  obtain ⟨rfl, rfl, hpending', heof⟩ :=
    readline_calm hcalm hpending hline hbody (hfits.trans hmax) hread
  dsimp only at h
  rw [if_neg (by omega), if_neg (by omega), if_neg (not_not.mpr herr)] at h
  exact heof ▸ send_calm (a := { a with wire := wire }) hcalm.writes hpending' h

/-- The college code is refused: the client returns. -/
theorem readReply_refusal {code : ℤ} (hcode : code ≠ SUCCESS) (hcalm : t.Calm)
    (hreply : ReplyLine code line) (hpending : a.wire.pending = line)
    (h : a.readReply digest t = some (a', sent)) :
    a'.At (.returned 1) [] ∧ a'.wire.conn.eof = a.wire.conn.eof ∧ sent = [] := by
  obtain ⟨⟨body, hline, hbody⟩, hleast, hfits, herr⟩ := hreply
  have hmax : AUTHBUFSIZE < MAXLINE := by decide
  simp only [readReply, Option.bind_eq_bind, Option.bind_eq_some_iff] at h
  obtain ⟨⟨ret, got, wire⟩, hread, h⟩ := h
  obtain ⟨rfl, rfl, hpending', heof⟩ :=
    readline_calm hcalm hpending hline hbody (hfits.trans hmax) hread
  dsimp only at h
  rw [if_neg (by omega), if_neg (by omega), if_pos (herr ▸ hcode)] at h
  obtain ⟨rfl, rfl⟩ := Option.some.inj h
  exact ⟨⟨rfl, hpending'⟩, heof, rfl⟩

/-- A verdict of four bytes decides what is returned. -/
theorem readVerdict_calm {code : ℤ} (hcalm : t.Calm) (hreply : ReplyLine code line)
    (hfour : line.length = 4) (hpending : a.wire.pending = line)
    (h : a.readVerdict t = some (a', sent)) :
    a'.At (.returned (if code = E_INVALID_PASSWORD then 1 else 0)) [] ∧
      a'.wire.conn.eof = a.wire.conn.eof ∧ sent = [] := by
  obtain ⟨⟨body, hline, hbody⟩, -, hfits, herr⟩ := hreply
  have hmax : AUTHBUFSIZE < MAXLINE := by decide
  simp only [readVerdict, Option.bind_eq_bind, Option.bind_eq_some_iff] at h
  obtain ⟨⟨ret, got, wire⟩, hread, h⟩ := h
  obtain ⟨rfl, rfl, hpending', heof⟩ :=
    readline_calm hcalm hpending hline hbody (hfits.trans hmax) hread
  dsimp only at h
  rw [if_neg (by omega), if_neg (by omega), herr] at h
  split_ifs at h ⊢
  · obtain ⟨rfl, rfl⟩ := Option.some.inj h
    exact ⟨⟨rfl, hpending'⟩, heof, rfl⟩
  · obtain ⟨rfl, rfl⟩ := Option.some.inj h
    exact ⟨⟨rfl, hpending'⟩, heof, rfl⟩

/-- A line that has arrived is read when the calls may move enough bytes. -/
theorem readline_some {maxlen : ℕ} {code : ℤ} (hample : t.Ample) (hreply : ReplyLine code line)
    (hpending : a.wire.pending = line) (hmax : AUTHBUFSIZE ≤ maxlen) :
    ∃ r, a.wire.readline maxlen t.reads = some r := by
  obtain ⟨⟨body, rfl, -⟩, -, hfits, -⟩ := hreply
  have hline : AUTHBUFSIZE < MAXLINE := by decide
  have hmoves := hample.reads
  simp only [List.length_append, List.length_singleton] at hfits
  exact @Wire.readline_some a.wire t.reads maxlen [] body hample.calm.reads (by rw [hpending])
    (by omega) (by omega)

theorem readFeedback_some {code : ℤ} (hample : t.Ample) (husername : username.length = 4)
    (hreply : ReplyLine code line) (hpending : a.wire.pending = line) :
    ∃ r, a.readFeedback username t = some r := by
  have hlen : (ascii "USER " ++ username ++ [newline]).length ≤ MAXLINE := by
    simp [ascii, husername, MAXLINE]
  obtain ⟨⟨ret, got, wire⟩, hread⟩ := readline_some hample hreply hpending le_rfl
  simp only [readFeedback, hread, Option.bind_eq_bind, Option.bind_some]
  split_ifs
  · exact ⟨_, rfl⟩
  · exact ⟨_, rfl⟩
  · exact send_some hample.calm.writes (hlen.trans hample.writes)

theorem readReply_some {code : ℤ} (hample : t.Ample)
    (hdigest : (ascii "PASS " ++ digest).length ≤ MAXLINE) (hreply : ReplyLine code line)
    (hpending : a.wire.pending = line) : ∃ r, a.readReply digest t = some r := by
  have hmax : AUTHBUFSIZE ≤ MAXLINE := by decide
  obtain ⟨⟨ret, got, wire⟩, hread⟩ := readline_some hample hreply hpending hmax
  simp only [readReply, hread, Option.bind_eq_bind, Option.bind_some]
  split_ifs
  · exact ⟨_, rfl⟩
  · exact ⟨_, rfl⟩
  · exact ⟨_, rfl⟩
  · exact send_some hample.calm.writes (hdigest.trans hample.writes)

theorem readVerdict_some {code : ℤ} (hample : t.Ample) (hreply : ReplyLine code line)
    (hpending : a.wire.pending = line) : ∃ r, a.readVerdict t = some r := by
  have hmax : AUTHBUFSIZE ≤ MAXLINE := by decide
  obtain ⟨⟨ret, got, wire⟩, hread⟩ := readline_some hample hreply hpending hmax
  simp only [readVerdict, hread, Option.bind_eq_bind, Option.bind_some]
  split_ifs <;> exact ⟨_, rfl⟩

/-- Behind its start the client waits for a reply. -/
theorem act_nil (hcalm : t.Calm) (hopen : a.wire.conn.eof = false) (hplace : a.place ≠ .start)
    (hpending : a.wire.pending = []) :
    a.act magic username digest t = none := by
  unfold act
  split
  · next hstart => exact absurd hstart hplace
  · rw [readFeedback, Wire.readline_nil (by decide) hcalm.reads hopen hpending]
    rfl
  · rw [readReply, Wire.readline_nil (by decide) hcalm.reads hopen hpending]
    rfl
  · rw [readVerdict, Wire.readline_nil (by decide) hcalm.reads hopen hpending]
    rfl
  · rfl
  · rfl

end Authenticate

end Esif.Client
