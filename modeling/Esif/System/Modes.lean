import Esif.CS.Linked
import Esif.Client.Steps
import Esif.Server.Serve
import Esif.System.Form

/-!
# The modes of the two sides

`apply_forms` at `manage_client`, from behind the login to the end: every directory,
every order of moves, on a connection that holds. The client sends a command line and
takes it for granted that the server is in its command loop.

## Main definitions

* `submission` — the two sides
* `Agreed` — no command line is read by anything but the command loop
* `KeepsOn`, `Finds`, `InStep` — the moves that keep the two sides in step
* `Mode` — where the two sides are, and what lies between them

## Main results

* `Ledger.client_step`, `Ledger.server_step` — what has been sent and read
* `Mode.client_step`, `Mode.server_step` — one step of either side
* `modes_agree` — the two sides agree in every run whose moves keep them in step
-/

namespace Esif.System

open Esif.CS Esif.Posix Esif.Server
open Esif.Client (Apply Options Sent applyForms basename)
open Esif.Client.Apply (AllSent Counted Silent binaryLine)

/-- A submission: the client behind its login, the server in its command loop. Either
side sees the end of the stream when the other has closed. -/
def submission (opts : Options) (env : Env) :
    Machine (Apply × Session) (Client.Turn ⊕ Turn) (Sent ⊕ Event) :=
  Machine.linked (applyForms opts) (manageClient env)
    (fun a sent => Session.receive (sent.flatMap Sent.bytes) (a.place == .closed))
    (fun s es a => a.receive (sentBytes es) s.closed)

instance (e : Sent ⊕ Event) (es : List (Sent ⊕ Event)) : Decidable (e ∈ es) :=
  decidable_of_iff (∃ e' ∈ es, e' = e) (by simp)

/-- The client has sent the command line. -/
def Commands (es : List (Sent ⊕ Event)) (start : ℕ) (line : Bytes) : Prop :=
  .inl (.command start line) ∈ es

/-- The body loop has taken the line. -/
def Bodies (es : List (Sent ⊕ Event)) (start : ℕ) (line : Bytes) : Prop :=
  .inr (.bodyLine start line) ∈ es

/-- The server is in its command loop, and the line is the next it reads. -/
structure Hears (s : Session) (start : ℕ) (line : Bytes) : Prop where
  phase : s.phase = .command
  start : start = s.linePos
  front : line <+: unread s.tsd s.conn

/-- The two sides agree: a command line that the server has not read is the next line of
its command loop, unless the server has stopped, and none has become part of a form. -/
structure Agreed (s : Session) (es : List (Sent ⊕ Event)) : Prop where
  heard : ∀ start line, Commands es start line →
    start + line.length ≤ s.linePos ∨ s.Stopped ∨ Hears s start line
  apart : ∀ start line pos body, Commands es start line → Bodies es pos body →
    start + line.length ≤ pos ∨ pos + body.length ≤ start

/-! ### What has been sent and read -/

/-- What has been sent and read, and where. -/
structure Ledger (a : Apply) (s : Session) (es : List (Sent ⊕ Event)) : Prop where
  count : s.conn.pos + s.conn.inq.length = a.pos
  ahead : Ahead s.tsd s.conn
  serving : s.phase.Serving
  read : ∀ start line, Bodies es start line → start + line.length ≤ s.linePos
  whole : ∀ start line, Commands es start line →
    Lines.Whole isNewline (MAXLINE - 1) line ∧ line ≠ [] ∨ s.Stopped
  agreed : Agreed s es

section Ledger

variable {opts : Options} {env : Env} {a a' : Apply} {s s' : Session} {t : Turn} {c : Client.Turn}
  {es : List (Sent ⊕ Event)} {sent : List Sent} {done : List Event}

theorem act_stopped (h : s.Stopped) : act env s t = none := by
  rcases h with hphase | hphase
  · simp [act, hphase]
  · simp [act, hphase]

theorem unread_receive (bs : Bytes) (closed : Bool) (s : Session) :
    unread (Session.receive bs closed s).tsd (Session.receive bs closed s).conn =
      unread s.tsd s.conn ++ bs := by
  simp [Session.receive, unread]

/-- With nothing unread the next line begins where the stream ends. -/
theorem linePos_of_nil (hunread : unread s.tsd s.conn = []) :
    s.linePos = s.conn.pos + s.conn.inq.length := by
  obtain ⟨hbuf, hinq⟩ := List.append_eq_nil_iff.mp hunread
  simp [Session.linePos, position, hbuf, hinq]

theorem commands_append {es' : List (Sent ⊕ Event)} {start : ℕ} {line : Bytes} :
    Commands (es ++ es') start line ↔ Commands es start line ∨ Commands es' start line :=
  List.mem_append

theorem bodies_append {es' : List (Sent ⊕ Event)} {start : ℕ} {line : Bytes} :
    Bodies (es ++ es') start line ↔ Bodies es start line ∨ Bodies es' start line :=
  List.mem_append

@[simp] theorem commands_inl {start : ℕ} {line : Bytes} :
    Commands (sent.map Sum.inl) start line ↔ .command start line ∈ sent := by
  simp [Commands]

@[simp] theorem commands_inr {start : ℕ} {line : Bytes} :
    ¬ Commands (done.map Sum.inr) start line := by
  simp [Commands]

@[simp] theorem bodies_inr {start : ℕ} {line : Bytes} :
    Bodies (done.map Sum.inr) start line ↔ .bodyLine start line ∈ done := by
  simp [Bodies]

@[simp] theorem bodies_inl {start : ℕ} {line : Bytes} : ¬ Bodies (sent.map Sum.inl) start line := by
  simp [Bodies]

/-- A command line is sent to a server that waits for one, or has stopped. -/
structure Timely (s : Session) (line : Bytes) : Prop where
  server : s.At .command []
  whole : Lines.Whole isNewline (MAXLINE - 1) line
  ne_nil : line ≠ []

/-- **A step of the client** keeps the ledger, when it sends command lines in time. -/
theorem Ledger.client_step (h : Ledger a s es) (hcounted : Counted a a' sent)
    (htimely : ∀ start line, .command start line ∈ sent → s.Stopped ∨ Timely s line)
    (closed : Bool) :
    Ledger a' (Session.receive (sent.flatMap Sent.bytes) closed s) (es ++ sent.map Sum.inl) := by
  -- the server does not move: its part of the ledger is looked up in the old events
  obtain ⟨hcount, hahead, hserving, hread, hwhole, hheard, hapart⟩ := h
  have hle := linePos_le hahead
  refine ⟨?_, hahead, hserving, ?_, ?_, ?_, ?_⟩
  · simp only [Session.receive, List.length_append, hcounted.pos]
    omega
  · intro start line hbody
    exact hread start line ((bodies_append.mp hbody).resolve_right bodies_inl)
  · intro start line hcommand
    rcases commands_append.mp hcommand with hold | hnew
    · exact hwhole start line hold
    · rcases htimely start line (commands_inl.mp hnew) with hstopped | htimely
      · exact Or.inr hstopped
      · exact Or.inl ⟨htimely.whole, htimely.ne_nil⟩
  · intro start line hcommand
    rcases commands_append.mp hcommand with hold | hnew
    · refine (hheard start line hold).imp_right fun hheard => hheard.imp_right fun hears => ?_
      refine ⟨hears.phase, hears.start, hears.front.trans ?_⟩
      rw [unread_receive]
      exact List.prefix_append _ _
    · have hmem := commands_inl.mp hnew
      obtain ⟨rfl, rfl⟩ := hcounted.command start line hmem
      rcases htimely _ _ hmem with hstopped | htimely
      · exact Or.inr (Or.inl hstopped)
      · refine Or.inr (Or.inr ⟨htimely.server.phase, ?_, ?_⟩)
        · exact (hcount.symm.trans (linePos_of_nil htimely.server.unread).symm :)
        · rw [unread_receive, htimely.server.unread]
          simp [Sent.bytes]
  · intro start line pos body hcommand hbody
    have hold := (bodies_append.mp hbody).resolve_right bodies_inl
    rcases commands_append.mp hcommand with hcommand | hnew
    · exact hapart start line pos body hcommand hold
    · obtain ⟨-, rfl⟩ := hcounted.command start line (commands_inl.mp hnew)
      have hbefore := hread pos body hold
      exact Or.inr (by omega)

/-- **A step of the server** keeps the ledger: only the command loop reads past a command
line. -/
theorem Ledger.server_step (hcon : t.Connected) (h : Ledger a s es)
    (hact : act env s t = some (s', done)) (bs : Bytes) (closed : Bool) :
    Ledger (a.receive bs closed) s' (es ++ done.map Sum.inr) := by
  obtain ⟨hcount, hahead, hserving, hread, hwhole, hheard, hapart⟩ := h
  have hacted := act_cases hact
  obtain ⟨hahead', htotal, hle, hbodies⟩ := hacted.forward hserving hahead
  -- a server that moves has not stopped
  have hgoing : ¬ s.Stopped := fun hstopped => by simp [act_stopped hstopped] at hact
  refine ⟨htotal.trans hcount, hahead', hacted.next.serving hserving, ?_, ?_, ?_, ?_⟩
  · intro start line hbody
    rcases bodies_append.mp hbody with hold | hnew
    · exact (hread start line hold).trans hle
    · exact (hbodies start line (bodies_inr.mp hnew)).2
  · intro start line hcommand
    have hold := (commands_append.mp hcommand).resolve_right commands_inr
    exact Or.inl ((hwhole start line hold).resolve_right hgoing)
  · intro start line hcommand
    have hold := (commands_append.mp hcommand).resolve_right commands_inr
    rcases hheard start line hold with hbehind | hstopped | hears
    · exact Or.inl (hbehind.trans hle)
    · exact absurd hstopped hgoing
    · obtain ⟨rest, hfront⟩ := hears.front
      obtain ⟨hline, hne⟩ := (hwhole start line hold).resolve_right hgoing
      simp only [act, hears.phase] at hact
      rw [hears.start]
      exact Or.inl (readCommand_passes hcon hfront.symm hline hne hahead hact)
  · intro start line pos body hcommand hbody
    have hold := (commands_append.mp hcommand).resolve_right commands_inr
    rcases bodies_append.mp hbody with hbody | hnew
    · exact hapart start line pos body hold hbody
    · have hmem := bodies_inr.mp hnew
      rcases hheard start line hold with hbehind | hstopped | hears
      · exact Or.inl (hbehind.trans (hbodies pos body hmem).1)
      · exact absurd hstopped hgoing
      · simp only [act, hears.phase] at hact
        exact absurd hmem ((readCommand_step hact).no_body pos body)

end Ledger

/-! ### The modes -/

/-- A line of a form: the body loop takes it for no end, the command loop for no command. -/
structure BodyLine (line : Bytes) : Prop where
  whole : Lines.Whole isNewline (MAXLINE - 1) line
  ne_nil : line ≠ []
  nul : nul ∉ line
  dot : ¬ ascii ".\n" <+: line
  quit : ¬ ascii "QUIT\n" <+: line
  form : ¬ ascii "FILENAME " <+: line
  photo : ¬ ascii "BINARY " <+: line

/-- The content of a form. -/
def IsForm (content : Bytes) : Prop :=
  ∃ lines : List Bytes, content = lines.flatten ∧ ∀ line ∈ lines, BodyLine line

/-- A name that fits on one line. -/
def OneLine (name : Bytes) : Prop := newline ∉ name ∧ nul ∉ name

/-- Behind its announcement the form is sent whole, or no other one is announced: the user
has cancelled before, the file can be opened and the user does not cancel now, or the
directory holds no other form. -/
def KeepsOn (opts : Options) (a : Apply) (path : Bytes) (c : Client.Turn) : Prop :=
  a.cancelled = true ∨
  (∃ content, a.openFile path c = some content ∧ IsForm content ∧
    (c.cancel = false ∨ content = [])) ∨
  AllSent opts a ∧ (a.openFile path c = none ∨ c.cancel = true)

/-- What the client has still to send of the photo is what the server takes for it. -/
def TakesPhoto (a : Apply) (s : Session) : Prop :=
  ascii "BINARY " <+: unread s.tsd s.conn → ∀ data, a.place = .photoReply data →
    data = [] ∨ MAXINFOSIZE < data.length ∧ data.length < 2 ^ 31 ∧
      (scanBinary (cstr ((unread s.tsd s.conn).drop 7))).2 ≠ []

/-- The moves of the client that keep the two sides in step. -/
def KeepsStep (opts : Options) (a : Apply) (c : Client.Turn) : Prop :=
  match a.place with
  | .next => ∀ name ∈ a.names.head?, OneLine name
  | .named path => KeepsOn opts a path c
  | .photo path => ∀ data base, a.openFile path c = some data → basename path = some base →
      (binaryLine data.length base).length < MAXLINE
  | _ => True

/-- The moves of the server that keep the two sides in step. -/
def ServesStep (a : Apply) (s : Session) (t : Turn) : Prop :=
  match s.phase with
  | .command => t.acceptimage = true → TakesPhoto a s
  | .image imgsize => t.ok = true ∨ imgsize = 0
  | .payload nleft i _ => t.ok = true ∨ LastBlock s t nleft i
  | _ => True

/-- The moves that keep the two sides in step. -/
def InStep (opts : Options) (x : Apply × Session) : Client.Turn ⊕ Turn → Prop
  | .inl c => KeepsStep opts x.1 c
  | .inr t => ServesStep x.1 x.2 t

/-- The connection holds. -/
def Connected : Client.Turn ⊕ Turn → Prop
  | .inl c => c.Calm
  | .inr t => t.Connected

/-- The client has the lines `rest` still to send, and waits for the reply then. -/
inductive Sends (a : Apply) (rest : List Bytes) : Prop
  | body {path photo : Bytes} (todo : List Bytes) (left : rest = todo ++ [dot])
      (going : todo = [] ∨ a.cancelled = false) (text : OneLine photo)
      (client : a.At (.body path todo.flatten photo) [])
  | reply {path photo : Bytes} (none : rest = []) (text : OneLine photo)
      (client : a.At (.reply path photo) [])

/-- The server opens the form, or has opened it, and `bs` is unread. -/
def Opens (s : Session) (bs : Bytes) : Prop :=
  (∃ line, Lines.Whole isNewline (MAXLINE - 1) line ∧ ascii "FILENAME " <+: line ∧
    s.At .command (line ++ bs)) ∨ s.At .body bs

/-- The client has `rest` of the photo still to send; behind the welcome `extra` has
arrived. -/
inductive SendsPhoto (a : Apply) (rest extra : Bytes) : Prop
  | welcome (client : a.At (.photoReply rest) (ebuf SUCCESS ++ extra))
  | blocks (client : a.At (.payload rest) extra)
  | sent (none : rest = []) (client : a.At .photoResult extra)

/-- The reply to a photo. -/
def IsResult (code : ℕ) : Prop := code = SUCCESS ∨ code = E_ERROR

/-- The server takes `left` more bytes for the photo, and `extra` is its reply to it. -/
inductive ReadsPhoto (s : Session) (left : ℕ) (extra : Bytes) : Prop
  | image (phase : s.phase = .image left) (none : extra = [])
      (size : left = 0 ∨ MAXINFOSIZE < left)
  | payload {i offset : ℕ} (phase : s.phase = .payload left i offset) (none : extra = [])
      (block : left = 0 ∨ MAXINFOSIZE < left ∨ i = MAXINFOSIZE)
  | replying {code : ℕ} (phase : s.phase = .imageReply code) (result : IsResult code)
      (none : extra = []) (zero : left = 0)
  | replied {code : ℕ} (phase : s.phase = .command) (result : IsResult code)
      (reply : extra = ebuf code) (zero : left = 0)

/-- Where the two sides are and what lies between them. -/
inductive Mode (opts : Options) (a : Apply) (s : Session) : Prop
  | stopped (server : s.Stopped)
  | silent (client : Silent opts a)
  | idle (place : a.place = .start ∨ a.place = .next ∨ ∃ path, a.place = .photo path ∧ OneLine path)
      (client : a.At a.place []) (server : s.At .command [])
  | announced {path : Bytes} (client : a.At (.named path) []) (server : Opens s [])
  | sending (todo arrived rest : List Bytes) (lines : ∀ line ∈ todo, BodyLine line)
      (split : todo ++ [dot] = arrived ++ rest) (client : Sends a rest)
      (server : Opens s arrived.flatten)
  | lost (arrived rest : List Bytes) (lines : ∀ line ∈ arrived ++ rest, BodyLine line ∨ line = dot)
      (client : Sends a rest)
      (server : s.At (.abandon false) arrived.flatten ∨ s.At .command arrived.flatten)
  | closing (client : Sends a [])
      (server : s.At .close [] ∨ s.At .insert [] ∨ s.At .reply [])
  | answered {path photo : Bytes} (text : OneLine photo)
      (client : a.At (.reply path photo) (ebuf SUCCESS)) (server : s.At .command [])
  | offered {data base : Bytes} (text : OneLine base)
      (fits : (binaryLine data.length base).length < MAXLINE) (client : a.At (.photoReply data) [])
      (server : s.At .command (binaryLine data.length base))
  | refused {data : Bytes} (client : a.At (.photoReply data) (ebuf E_IMG_NOSUPPORT))
      (server : s.At .command [])
  | photo (arrived rest extra : Bytes) (left : ℕ) (client : SendsPhoto a rest extra)
      (server : ReadsPhoto s left extra) (holds : s.Holds arrived)
      (room : arrived.length + rest.length ≤ left) (fits : left < 2 ^ 31)

/-! ### Lines -/

section Lines

variable {name path photo line base : Bytes} {size : ℕ}

theorem plain_of_bodyLine (h : BodyLine line ∨ line = dot) :
    Lines.Whole isNewline (MAXLINE - 1) line ∧ line ≠ [] ∧ nul ∉ line := by
  rcases h with h | rfl
  · exact ⟨h.whole, h.ne_nil, h.nul⟩
  · exact ⟨whole_dot, by decide, by decide⟩

theorem oneLine_nil : OneLine [] := ⟨List.not_mem_nil, List.not_mem_nil⟩

/-- The name on a `PHOTO` line is one line. -/
theorem oneLine_scanPhoto (hline : nul ∉ line) (hphoto : OneLine photo) :
    OneLine (Client.scanPhoto line photo) := by
  unfold Client.scanPhoto
  dsimp only
  split_ifs
  · exact hphoto
  · refine ⟨fun hmem => ?_, fun hmem => ?_⟩
    · have hbyte := List.mem_takeWhile_imp hmem
      simp at hbyte
    · have hmem := (List.takeWhile_prefix _).subset hmem
      exact hline ((List.drop_suffix _ _).subset ((List.dropWhile_suffix _).subset hmem))
  · exact hphoto

theorem OneLine.basename (h : OneLine path) (hbase : basename path = some base) : OneLine base := by
  unfold Client.basename at hbase
  split_ifs at hbase
  obtain rfl := Option.some.inj hbase
  have hsub : ∀ b ∈ (path.reverse.takeWhile (· != slash)).reverse, b ∈ path := fun b hb =>
    List.mem_reverse.mp ((List.takeWhile_prefix _).subset (List.mem_reverse.mp hb))
  exact ⟨fun hmem => h.1 (hsub _ hmem), fun hmem => h.2 (hsub _ hmem)⟩

theorem newline_notMem_printInt (z : ℤ) : newline ∉ printInt z := by
  unfold printInt
  split_ifs
  · exact fun hmem => (List.mem_cons.mp hmem).elim (by decide) (newline_notMem_decimal _)
  · exact newline_notMem_decimal _

theorem whole_binary (hbase : OneLine base) (hfits : (binaryLine size base).length < MAXLINE) :
    Lines.Whole isNewline (MAXLINE - 1) (binaryLine size base) := by
  have hword : newline ∉ ascii "BINARY " ++ printInt (toInt32 size) ++ ascii " " ++ base := by
    simp only [List.mem_append, not_or]
    exact ⟨⟨⟨by decide, newline_notMem_printInt _⟩, by decide⟩, hbase.1⟩
  refine Lines.whole_line isNewline (fun b hb => ?_) rfl ?_
  · simpa [isNewline] using ne_of_mem_of_not_mem hb hword
  · rw [Client.Apply.binaryLine, List.length_append, List.length_singleton] at hfits
    omega

end Lines

section Steps

variable {opts : Options} {env : Env} {a a' : Apply} {s s' : Session} {t : Turn} {c : Client.Turn}
  {sent : List Sent} {done : List Event} {rest : List Bytes} {extra left : Bytes}

/-- A step of the client while it sends the form: lines more are on their way. -/
theorem Sends.step (hcalm : c.Calm) (h : Sends a rest)
    (hlines : ∀ line ∈ rest, BodyLine line ∨ line = dot) (hact : a.act opts c = some (a', sent)) :
    ∃ moved rest', rest = moved ++ rest' ∧ sent.flatMap Sent.bytes = moved.flatten ∧
      Sends a' rest' ∧ (∀ start line, .command start line ∉ sent) ∧ a'.place ≠ .closed := by
  cases h with
  | body todo hleft going text client =>
    simp only [Apply.act, client.place] at hact
    cases todo with
    | nil =>
      obtain ⟨hpast, hplace, -, rfl⟩ := Apply.sendLine_dot hcalm hact
      exact ⟨[dot], [], hleft, by simp [Sent.bytes, dot],
        .reply rfl text ((client.pending ▸ hpast).at client hplace), by simp, by simp [hplace]⟩
    | cons line todo =>
      obtain ⟨hwhole, hne, hnul⟩ := plain_of_bodyLine (hlines line (by simp [hleft]))
      have hgoing : a.cancelled = false := going.resolve_left (by simp)
      rw [List.flatten_cons] at hact
      obtain ⟨hpast, hplace, -, rfl⟩ := Apply.sendLine_line hcalm hgoing hwhole hne hnul hact
      exact ⟨[line], todo ++ [dot], hleft, by simp [Sent.bytes],
        .body todo rfl (Or.inr (hpast.cancelled.trans hgoing)) (oneLine_scanPhoto hnul text)
          ((client.pending ▸ hpast).at client hplace), by simp, by simp [hplace]⟩
  | reply hnone text client =>
    simp [Apply.act, client.place, Apply.readFormReply, Apply.readline_waits hcalm client] at hact

/-- A step of the client while it sends the photo. -/
theorem SendsPhoto.step {rest : Bytes} (hcalm : c.Calm) (h : SendsPhoto a rest extra)
    (hact : a.act opts c = some (a', sent)) :
    (∃ rest', SendsPhoto a' rest' extra ∧
        (sent.flatMap Sent.bytes).length + rest'.length ≤ rest.length ∧
        (∀ start line, .command start line ∉ sent) ∧ a'.place ≠ .closed) ∨
      a.At .photoResult extra := by
  cases h with
  | welcome client =>
    simp only [Apply.act, client.place] at hact
    obtain ⟨hpast, hplace, -, rfl⟩ :=
      Apply.readPhotoReply_calm hcalm reply_success client.pending hact
    exact .inl ⟨rest, .blocks (hpast.at client hplace), by simp, by simp, by simp [hplace]⟩
  | blocks client =>
    simp only [Apply.act, client.place] at hact
    obtain ⟨hpending, heof, hno, rest', hplace, hlen⟩ := Apply.sendBlock_calm hact
    refine .inl ⟨rest', ?_, hlen, hno, ?_⟩
    · rcases hplace with hplace | ⟨hplace, hnone⟩
      · exact .blocks ⟨hplace, hpending.trans client.pending, heof.trans client.eof⟩
      · exact .sent hnone ⟨hplace, hpending.trans client.pending, heof.trans client.eof⟩
    · rcases hplace with hplace | ⟨hplace, -⟩
      · simp [hplace]
      · simp [hplace]
  | sent _ client => exact .inr client

/-- As long as the client has not closed, the server sees no end of the stream. -/
theorem at_sent {place : Client.ApplyPlace} {phase : Phase} {bs : Bytes} (h : s.At phase bs)
    (hplace : place ≠ .closed) (bs' : Bytes) :
    (Session.receive bs' (place == .closed) s).At phase (bs ++ bs') := by
  rw [beq_false_of_ne hplace]
  exact at_receive h bs'

theorem at_quiet {place : Client.ApplyPlace} {phase : Phase} {bs : Bytes} (h : s.At phase bs)
    (hplace : place ≠ .closed) : (Session.receive [] (place == .closed) s).At phase bs := by
  simpa using at_sent h hplace []

theorem opens_sent {place : Client.ApplyPlace} {bs : Bytes} (h : Opens s bs)
    (hplace : place ≠ .closed) (bs' : Bytes) :
    Opens (Session.receive bs' (place == .closed) s) (bs ++ bs') := by
  rcases h with ⟨line, hwhole, hword, hat⟩ | hat
  · refine Or.inl ⟨line, hwhole, hword, ?_⟩
    rw [← List.append_assoc]
    exact at_sent hat hplace bs'
  · exact Or.inr (at_sent hat hplace bs')

/-- The entry `next` at the head of the directory: a form is announced in time. -/
theorem Mode.next_step (hcalm : c.Calm) (hname : ∀ name ∈ a.names.head?, OneLine name)
    (client : a.At .next []) (server : s.At .command [])
    (hact : a.nextFile opts c = some (a', sent)) :
    Mode opts a' (Session.receive (sent.flatMap Sent.bytes) (a'.place == .closed) s) ∧
      ∀ start line, .command start line ∈ sent → Timely s line := by
  rcases Apply.nextFile_cases hact with
    ⟨rfl, hplace, hwire, -⟩ | ⟨name, names, content, flag, hnames, hskip, -, -, hsend⟩
  · refine ⟨?_, by simp⟩
    rcases hplace with hplace | hplace | hplace
    · exact .silent (.leaving (Or.inl hplace))
    · have hplace := hplace.trans client.place
      have hat : a'.At a'.place [] :=
        ⟨rfl, by rw [hwire, client.pending], by rw [hwire, client.eof]⟩
      exact .idle (Or.inr (Or.inl hplace)) hat (at_quiet server (by simp [hplace]))
    · exact .silent (.leaving (Or.inr (Or.inr hplace)))
  · obtain ⟨hpast, hplace, -, rfl⟩ := Apply.send_calm hcalm hsend
    have hat : a'.At (.named (opts.infodirname ++ name)) [] :=
      ⟨hplace, hpast.pending.trans client.pending, hpast.eof.trans client.eof⟩
    have hlen : name.length ≤ Client.MAXFILENAMELEN := by
      simp only [Apply.skipped, Bool.or_eq_false_iff, decide_eq_false_iff_not, not_lt] at hskip
      exact hskip.1.2
    have hwhole := whole_name (hname name (by simp [hnames])).1 hlen
    have hword : ascii "FILENAME " <+: Apply.filenameLine name := by
      rw [Apply.filenameLine, List.append_assoc]
      exact List.prefix_append _ _
    refine ⟨.announced hat (Or.inl ⟨Apply.filenameLine name, hwhole, hword, ?_⟩), ?_⟩
    · simpa [Sent.bytes] using at_sent server (by simp [hplace]) (Apply.filenameLine name)
    · intro start line hmem
      obtain ⟨-, rfl⟩ : start = a.pos ∧ line = Apply.filenameLine name := by simpa using hmem
      exact ⟨server, hwhole, by simp [Apply.filenameLine]⟩

/-- A photo is offered in time. -/
theorem Mode.offer_step {path : Bytes} (hcalm : c.Calm) (htext : OneLine path)
    (hfits : ∀ data base, a.openFile path c = some data → basename path = some base →
      (binaryLine data.length base).length < MAXLINE)
    (client : a.At (.photo path) []) (server : s.At .command [])
    (hact : a.openPhoto path c = some (a', sent)) :
    Mode opts a' (Session.receive (sent.flatMap Sent.bytes) (a'.place == .closed) s) ∧
      ∀ start line, .command start line ∈ sent → Timely s line := by
  unfold Apply.openPhoto at hact
  split at hact
  · obtain ⟨rfl, rfl⟩ := Prod.mk.inj (Option.some.inj hact)
    exact ⟨.idle (Or.inr (Or.inl rfl)) ⟨rfl, client.pending, client.eof⟩
      (at_quiet server (by simp)), by simp⟩
  · next data hdata =>
    split at hact
    · obtain ⟨rfl, rfl⟩ := Prod.mk.inj (Option.some.inj hact)
      exact ⟨.silent (.leaving (Or.inr (Or.inr rfl))), by simp⟩
    · next base hbase =>
      obtain ⟨hpast, hplace, -, rfl⟩ := Apply.send_calm hcalm hact
      have hlen := hfits data base hdata hbase
      have hone := htext.basename hbase
      refine ⟨.offered hone hlen ((client.pending ▸ hpast).at client hplace) ?_, ?_⟩
      · simpa [Sent.bytes] using at_sent server (by simp [hplace]) (binaryLine data.length base)
      · intro start line hmem
        obtain ⟨-, rfl⟩ : start = a.pos ∧ line = binaryLine data.length base := by simpa using hmem
        exact ⟨server, whole_binary hone hlen, by simp [Apply.binaryLine]⟩

/-- Behind the announcement: the form is opened, or the client falls silent. -/
theorem Mode.open_step {path : Bytes} (hkeeps : KeepsOn opts a path c)
    (client : a.At (.named path) []) (server : Opens s []) (hact : a.openForm path c = (a', sent)) :
    Mode opts a' (Session.receive (sent.flatMap Sent.bytes) (a'.place == .closed) s) ∧
    sent = [] := by
  by_cases hgoing : a.cancelled = true
  · simp only [Apply.openForm, hgoing, if_true] at hact
    obtain ⟨rfl, rfl⟩ := Prod.mk.inj hact
    exact ⟨.silent (.leaving (Or.inl rfl)), rfl⟩
  have hsame : ({ a with cancelled := c.cancel } : Apply).openFile path c = a.openFile path c := rfl
  have hgoes : a.cancelled = false := by simpa using hgoing
  simp only [Apply.openForm, hgoes, Bool.false_eq_true, if_false, hsame] at hact
  -- a form that can be opened is sent from its first line on
  have hsends : ∀ content, a.openFile path c = some content → IsForm content →
      (c.cancel = false ∨ content = []) →
      Mode opts a' (Session.receive (sent.flatMap Sent.bytes) (a'.place == .closed) s) ∧
      sent = [] := by
    rintro content hfile ⟨lines, rfl, hlines⟩ hcancel
    simp only [hfile] at hact
    obtain ⟨rfl, rfl⟩ := Prod.mk.inj hact
    refine ⟨.sending lines [] (lines ++ [dot]) hlines rfl (.body lines rfl ?_ oneLine_nil
      ⟨rfl, client.pending, client.eof⟩) (by simpa using opens_sent server (by simp) []), rfl⟩
    refine hcancel.symm.imp_left fun hnone => ?_
    cases lines with
    | nil => rfl
    | cons line lines => simp [(hlines line List.mem_cons_self).ne_nil] at hnone
  rcases hkeeps with hcancelled | ⟨content, hfile, hform, hcancel⟩ | ⟨hall, hcut⟩
  · exact absurd hcancelled hgoing
  · exact hsends content hfile hform hcancel
  · cases hfile : a.openFile path c with
    | none =>
      simp only [hfile] at hact
      obtain ⟨rfl, rfl⟩ := Prod.mk.inj hact
      exact ⟨.silent (.through rfl hall), rfl⟩
    | some content =>
      by_cases hcontent : content = []
      · exact hsends content hfile ⟨[], by simp [hcontent], by simp⟩ (Or.inr hcontent)
      · simp only [hfile] at hact
        obtain ⟨rfl, rfl⟩ := Prod.mk.inj hact
        refine ⟨.silent (.cancelling rfl hcontent ?_ hall), rfl⟩
        exact hcut.resolve_left (by simp [hfile])

/-- The client reads the reply to its form. -/
theorem Mode.reply_step {path photo : Bytes} (hcalm : c.Calm) (text : OneLine photo)
    (client : a.At (.reply path photo) (ebuf SUCCESS)) (server : s.At .command [])
    (hact : a.readFormReply opts path photo c = some (a', sent)) :
    Mode opts a' (Session.receive (sent.flatMap Sent.bytes) (a'.place == .closed) s) ∧
      sent = [] := by
  obtain ⟨rfl, ret, line, wire, hread, disk, place, rfl, hplace⟩ := Apply.readFormReply_cases hact
  have hpending : a.wire.pending = ebuf SUCCESS ++ [] := by rw [client.pending, List.append_nil]
  obtain ⟨-, -, hrest, heof⟩ := Apply.readline_reply hcalm reply_success hpending hread
  refine ⟨?_, rfl⟩
  rcases hplace with rfl | rfl | ⟨-, rfl⟩
  · exact .idle (Or.inr (Or.inl rfl)) ⟨rfl, hrest, heof.trans client.eof⟩
      (at_quiet server (by simp))
  · exact .silent (.leaving (Or.inr (Or.inr rfl)))
  · exact .idle (Or.inr (Or.inr ⟨_, rfl, text⟩)) ⟨rfl, hrest, heof.trans client.eof⟩
      (at_quiet server (by simp))

/-- The client sends a block of the photo, or reads what became of it. -/
theorem Mode.block_step {arrived rest extra : Bytes} {left : ℕ} (hcalm : c.Calm)
    (client : SendsPhoto a rest extra) (server : ReadsPhoto s left extra) (holds : s.Holds arrived)
    (room : arrived.length + rest.length ≤ left) (fits : left < 2 ^ 31)
    (hact : a.act opts c = some (a', sent)) :
    Mode opts a' (Session.receive (sent.flatMap Sent.bytes) (a'.place == .closed) s) ∧
      ∀ start line, .command start line ∉ sent := by
  rcases client.step hcalm hact with ⟨rest', hclient, hlen, hno, hplace⟩ | hat
  · refine ⟨.photo (arrived ++ sent.flatMap Sent.bytes) rest' extra left hclient ?_ ?_ ?_ fits, hno⟩
    · cases server with
      | image phase none size => exact .image phase none size
      | payload phase none block => exact .payload phase none block
      | replying phase result none zero => exact .replying phase result none zero
      | replied phase result reply zero => exact .replied phase result reply zero
    · rw [beq_false_of_ne hplace]
      exact holds_receive holds _
    · rw [List.length_append]
      omega
  · -- the client has the reply at hand, or waits for it
    have hwaits : extra ≠ [] := by
      rintro rfl
      simp [Apply.act, hat.place, Apply.readPhotoResult, Apply.readline_waits hcalm hat] at hact
    cases server with
    | image _ none | payload _ none | replying _ _ none => exact absurd none hwaits
    | @replied code phase result reply zero =>
      have hreply : Apply.Reply code (ebuf code) := by
        rcases result with rfl | rfl
        · exact reply_success
        · exact @reply_ebuf E_ERROR (by decide) (by decide)
      obtain ⟨hpast, hplace, -, rfl⟩ := Apply.readPhotoResult_reply hcalm hreply
        (by rwa [reply, ← List.append_nil (ebuf code)] at hat) hact
      -- the reply was sent when nothing was owed: no byte of the photo is left over
      have hholds : s.Holds [] := by
        rwa [List.eq_nil_of_length_eq_zero (by omega : arrived.length = 0)] at holds
      exact ⟨.idle (Or.inr (Or.inl hplace)) (hpast.at hat rfl)
        (at_quiet (at_of_holds phase hholds) (by simp [hplace])), by simp⟩

/-- **A step of the client** keeps the modes, and it sends command lines in time. -/
theorem Mode.client_step (hcalm : c.Calm) (hkeeps : KeepsStep opts a c) (h : Mode opts a s)
    (hact : a.act opts c = some (a', sent)) :
    Mode opts a' (Session.receive (sent.flatMap Sent.bytes) (a'.place == .closed) s) ∧
      ∀ start line, .command start line ∈ sent → s.Stopped ∨ Timely s line := by
  cases h with
  | stopped server => exact ⟨.stopped server, fun _ _ _ => Or.inl server⟩
  | silent client =>
    obtain ⟨hsilent, hno⟩ := client.step hact
    exact ⟨.silent hsilent, fun start line hmem => absurd hmem (hno start line)⟩
  | idle place client server =>
    rcases place with hplace | hplace | ⟨path, hplace, htext⟩
    · by_cases hquit : (a.cancelled || !c.ok) = true
      · simp only [Apply.act, hplace, if_pos hquit, Option.some.injEq] at hact
        obtain ⟨rfl, rfl⟩ := Prod.mk.inj hact
        exact ⟨.silent (.leaving (Or.inl rfl)), by simp⟩
      · simp only [Apply.act, hplace, if_neg hquit, Option.some.injEq] at hact
        obtain ⟨rfl, rfl⟩ := Prod.mk.inj hact
        exact ⟨.idle (Or.inr (Or.inl rfl)) ⟨rfl, client.pending, client.eof⟩
          (at_quiet server (by simp)), by simp⟩
    · simp only [Apply.act, hplace] at hact
      simp only [KeepsStep, hplace] at hkeeps
      obtain ⟨hmode, htimely⟩ := Mode.next_step hcalm hkeeps (hplace ▸ client) server hact
      exact ⟨hmode, fun start line hmem => Or.inr (htimely start line hmem)⟩
    · simp only [Apply.act, hplace] at hact
      simp only [KeepsStep, hplace] at hkeeps
      obtain ⟨hmode, htimely⟩ := Mode.offer_step hcalm htext hkeeps (hplace ▸ client) server hact
      exact ⟨hmode, fun start line hmem => Or.inr (htimely start line hmem)⟩
  | announced client server =>
    simp only [Apply.act, client.place, Option.some.injEq] at hact
    simp only [KeepsStep, client.place] at hkeeps
    obtain ⟨hmode, rfl⟩ := Mode.open_step hkeeps client server hact
    exact ⟨hmode, by simp⟩
  | sending todo arrived rest lines split client server =>
    -- the lines on their way are those of the form, whichever side has moved
    have hrest : ∀ line ∈ rest, BodyLine line ∨ line = dot := by
      intro line hline
      have hmem : line ∈ todo ++ [dot] := by rw [split]; exact List.mem_append_right _ hline
      exact (List.mem_append.mp hmem).imp (lines line) List.mem_singleton.mp
    obtain ⟨moved, rest', rfl, hsent, hclient, hno, hplace⟩ := client.step hcalm hrest hact
    refine ⟨.sending todo (arrived ++ moved) rest' lines (by rw [split, List.append_assoc]) hclient
      ?_, fun start line hmem => absurd hmem (hno start line)⟩
    rw [hsent, List.flatten_append]
    exact opens_sent server hplace _
  | lost arrived rest lines client server =>
    have hrest : ∀ line ∈ rest, BodyLine line ∨ line = dot := fun line hline =>
      lines line (List.mem_append_right _ hline)
    obtain ⟨moved, rest', rfl, hsent, hclient, hno, hplace⟩ := client.step hcalm hrest hact
    refine ⟨.lost (arrived ++ moved) rest' (by simpa using lines) hclient ?_,
      fun start line hmem => absurd hmem (hno start line)⟩
    rw [hsent, List.flatten_append]
    exact server.imp (fun hat => at_sent hat hplace _) fun hat => at_sent hat hplace _
  | closing client server =>
    cases client with
    | body todo hleft => simp at hleft
    | reply hnone text client =>
      simp [Apply.act, client.place, Apply.readFormReply, Apply.readline_waits hcalm client] at hact
  | answered text client server =>
    simp only [Apply.act, client.place] at hact
    obtain ⟨hmode, rfl⟩ := Mode.reply_step hcalm text client server hact
    exact ⟨hmode, by simp⟩
  | offered text fits client server =>
    simp [Apply.act, client.place, Apply.readPhotoReply, Apply.readline_waits hcalm client] at hact
  | refused client server =>
    simp only [Apply.act, client.place] at hact
    have hreply : Apply.Reply E_IMG_NOSUPPORT (ebuf E_IMG_NOSUPPORT) :=
      @reply_ebuf E_IMG_NOSUPPORT (by decide) (by decide)
    have hpending : a.wire.pending = ebuf E_IMG_NOSUPPORT ++ [] := by
      rw [client.pending, List.append_nil]
    obtain ⟨hpast, hplace, -, rfl⟩ :=
      Apply.readPhotoReply_refused hcalm (by decide) hreply hpending hact
    exact ⟨.idle (Or.inr (Or.inl hplace)) (hpast.at client rfl)
      (at_quiet server (by simp [hplace])),
      by simp⟩
  | photo arrived rest extra left client server holds room fits =>
    obtain ⟨hmode, hno⟩ := Mode.block_step hcalm client server holds room fits hact
    exact ⟨hmode, fun start line hmem => absurd hmem (hno start line)⟩

theorem silent_receive (h : Silent opts a) (bs : Bytes) (closed : Bool) :
    Silent opts (a.receive bs closed) := by
  cases h with
  | leaving place => exact .leaving place
  | through place allSent => exact .through place allSent
  | cancelling place left cancelled allSent => exact .cancelling place left cancelled allSent

theorem Sends.receive (h : Sends a rest) : Sends (a.receive [] false) rest := by
  cases h with
  | body todo left going text client =>
    exact .body todo left going text (by simpa using client.receive [])
  | reply none text client => exact .reply none text (by simpa using client.receive [])

theorem SendsPhoto.receive {rest : Bytes} (h : SendsPhoto a rest extra) (bs : Bytes) :
    SendsPhoto (a.receive bs false) rest (extra ++ bs) := by
  cases h with
  | welcome client =>
    refine .welcome ?_
    rw [← List.append_assoc]
    exact client.receive bs
  | blocks client => exact .blocks (client.receive bs)
  | sent none client => exact .sent none (client.receive bs)

/-- What the server reads of the announced form, or of its lines. -/
theorem Mode.line_step {todo arrived rest : List Bytes} (hcon : t.Connected)
    (lines : ∀ line ∈ todo, BodyLine line) (split : todo ++ [dot] = arrived ++ rest)
    (client : Sends a rest) (server : s.At .body arrived.flatten)
    (hact : readBody s t = some (s', done)) :
    Mode opts (a.receive (sentBytes done) s'.closed) s' := by
  cases arrived with
  | nil => simp [readBody_nil hcon server] at hact
  | cons line arrived =>
    have hunread : unread s.tsd s.conn = line ++ arrived.flatten := by
      rw [server.unread, List.flatten_cons]
    cases todo with
    -- the dot: the form is taken as a whole
    | nil =>
      obtain ⟨rfl, hnone⟩ : dot = line ∧ [] = arrived ++ rest := by simpa using split
      obtain ⟨rfl, rfl⟩ := List.append_eq_nil_iff.mp hnone.symm
      obtain ⟨hphase, hpast, hsent, -⟩ := readBody_dot hcon hunread whole_dot (by decide) rfl hact
      have hopen : s'.closed = false := by simp [Session.closed, hphase]
      rw [hsent, hopen]
      exact .closing client.receive (Or.inl ⟨hphase, hpast.unread, hpast.eof.trans server.eof⟩)
    | cons line' todo =>
      obtain ⟨rfl, hsplit⟩ : line' = line ∧ todo ++ [dot] = arrived ++ rest := by simpa using split
      have hline := lines line' List.mem_cons_self
      have hlines : ∀ line ∈ todo, BodyLine line := fun line hmem =>
        lines line (List.mem_cons_of_mem _ hmem)
      have hrest : ∀ line ∈ arrived ++ rest, BodyLine line ∨ line = dot := by
        rw [← hsplit]
        exact fun line hmem => (List.mem_append.mp hmem).imp (hlines line) List.mem_singleton.mp
      -- a line is taken, or the form is lost at it and its rest read as commands
      rcases readBody_line hcon hunread hline.whole hline.ne_nil hline.dot hline.quit hact
        server.phase with hstopped | ⟨hphase, hpast, hsent⟩
      · exact .stopped hstopped
      · have heof := hpast.eof.trans server.eof
        have hopen : s'.closed = false := by
          rcases hphase with hphase | hphase | hphase <;> simp [Session.closed, hphase]
        rw [hsent, hopen]
        rcases hphase with hphase | hphase | hphase
        · exact .sending todo arrived rest hlines hsplit client.receive
            (Or.inr ⟨hphase, hpast.unread, heof⟩)
        · exact .lost arrived rest hrest client.receive (Or.inr ⟨hphase, hpast.unread, heof⟩)
        · exact .lost arrived rest hrest client.receive (Or.inl ⟨hphase, hpast.unread, heof⟩)

/-- The server answers the offer of a photo. -/
theorem Mode.answer_step {data base : Bytes} (hcon : t.Connected)
    (htakes : t.acceptimage = true → TakesPhoto a s) (text : OneLine base)
    (fits : (binaryLine data.length base).length < MAXLINE) (client : a.At (.photoReply data) [])
    (server : s.At .command (binaryLine data.length base))
    (hact : readCommand s t = some (s', done)) :
    Mode opts (a.receive (sentBytes done) s'.closed) s' := by
  have hword : ascii "BINARY " <+: binaryLine data.length base := by
    simp only [Apply.binaryLine, List.append_assoc]
    exact List.prefix_append _ _
  have hunread : unread s.tsd s.conn = binaryLine data.length base ++ [] := by
    rw [server.unread, List.append_nil]
  have hne : binaryLine data.length base ≠ [] := by simp [Apply.binaryLine]
  rcases readCommand_photo hcon hunread (whole_binary text fits) hne hword hact with
    hstopped | ⟨hpast, ⟨hphase, hsent⟩ | ⟨hon, hsent, imgsize, tmpname, hscan, hname⟩⟩
  · exact .stopped hstopped
  -- the photo is refused
  · rw [hsent, closed_of_phase hphase (by simp)]
    exact .refused (client.receive _) ⟨hphase, hpast.unread, hpast.eof.trans server.eof⟩
  · have hholds := holds_of_past server.eof hpast
    have hwelcome : SendsPhoto (a.receive (sentBytes done) false) data [] :=
      .welcome (by simpa [hsent] using client.receive (ebuf SUCCESS))
    have htaken := htakes hon (by rwa [server.unread]) data client.place
    rw [server.unread, hscan] at htaken
    -- the server scans the size that the client has sent, and takes what it stands for
    rcases hname with ⟨rfl, hphase⟩ | ⟨-, hphase⟩
    · obtain rfl : data = [] := htaken.resolve_right fun h => h.2.2 rfl
      rw [closed_of_phase hphase (by simp)]
      exact .photo [] [] [] 0 hwelcome (.replying hphase (Or.inr rfl) rfl rfl) hholds (by simp)
        (by decide)
    · have hfits : data.length < 2 ^ 31 := by
        rcases htaken with rfl | ⟨-, hlt, -⟩
        · decide
        · exact hlt
      obtain rfl : data.length = imgsize :=
        congrArg Prod.fst ((scanBinary_size hfits text.2).symm.trans hscan)
      rw [closed_of_phase hphase (by simp)]
      refine .photo [] data [] data.length hwelcome (.image hphase rfl ?_) hholds (by simp) hfits
      exact htaken.imp (fun hnone => by simp [hnone]) fun h => h.1

/-- The server goes on with the photo. -/
theorem Mode.photo_step {arrived rest : Bytes} {size : ℕ} (hcon : t.Connected)
    (hserves : ServesStep a s t) (client : SendsPhoto a rest extra)
    (server : ReadsPhoto s size extra)
    (holds : s.Holds arrived) (room : arrived.length + rest.length ≤ size) (fits : size < 2 ^ 31)
    (hact : act env s t = some (s', done)) :
    Mode opts (a.receive (sentBytes done) s'.closed) s' := by
  have hquiet : sentBytes done = [] → SendsPhoto (a.receive (sentBytes done) false) rest extra := by
    intro hsent
    simpa [hsent] using client.receive []
  cases server with
  | image phase none hsize =>
    simp only [act, phase, Option.some.injEq] at hact
    simp only [ServesStep, phase] at hserves
    rcases openImage_cases hact with ⟨-, rfl, rfl⟩ | ⟨hok, rfl, rfl⟩
    · rw [closed_of_phase rfl (by simp)]
      exact .photo arrived rest extra size (hquiet rfl)
        (.payload rfl none (hsize.imp_right Or.inl)) ⟨holds.inq, holds.eof, holds.buf⟩ room fits
    · have hzero : size = 0 := hserves.resolve_left (by simp [hok])
      rw [closed_of_phase rfl (by simp)]
      exact .photo arrived rest extra size (hquiet rfl) (.replying rfl (Or.inr rfl) none hzero)
        ⟨holds.inq, holds.eof, holds.buf⟩ room fits
  | payload phase none block =>
    simp only [act, phase] at hact
    simp only [ServesStep, phase] at hserves
    have hinq := holds.inq
    -- the loop ends with the photo, or goes on with what is left of it
    obtain ⟨htsd, heof, hsent, ⟨code, hcode, hphase, hnil, hlast⟩ |
      ⟨left, offset, hphase, hle, hleft⟩⟩ :=
      readPayload_calm hcon holds.eof (by rw [hinq]; omega) (by omega) block hserves hact
    · rw [closed_of_phase hphase (by simp)]
      rw [hinq] at hlast
      exact .photo [] rest extra 0 (hquiet hsent) (.replying hphase hcode none rfl)
        ⟨hnil, heof, htsd ▸ holds.buf⟩ (by rw [List.length_nil]; omega) (by decide)
    · rw [closed_of_phase hphase (by simp)]
      rw [hinq] at hleft
      exact .photo s'.conn.inq rest extra left (hquiet hsent)
        (.payload hphase none (Or.inr (Or.inr rfl))) ⟨rfl, heof, htsd ▸ holds.buf⟩ (by omega)
        (by omega)
  | replying phase result none zero =>
    simp only [act, phase] at hact
    obtain ⟨hphase, hconn, htsd, hsent⟩ := replyImage_calm hcon hact
    rw [closed_of_phase hphase (by simp), hsent]
    exact .photo arrived rest (extra ++ _) size (client.receive _)
      (.replied hphase result (by rw [none, List.nil_append]) zero)
      ⟨hconn ▸ holds.inq, hconn ▸ holds.eof, htsd ▸ holds.buf⟩ room fits
  | replied phase result reply zero =>
    obtain rfl : arrived = [] := List.eq_nil_of_length_eq_zero (by omega)
    simp [act, phase, readCommand_nil hcon (at_of_holds phase holds)] at hact

/-- The server reads the announcement: it opens the form, or ends the session. -/
theorem opens_command {line bs : Bytes} (hcon : t.Connected)
    (hwhole : Lines.Whole isNewline (MAXLINE - 1) line) (hword : ascii "FILENAME " <+: line)
    (hat : s.At .command (line ++ bs)) (hact : act env s t = some (s', done)) :
    s'.Stopped ∨ s'.At .body bs ∧ sentBytes done = [] := by
  simp only [act, hat.phase] at hact
  have hne : line ≠ [] := by
    rintro rfl
    exact absurd hword (by decide)
  rcases readCommand_form hcon hat.unread hwhole hne hword hact with
    hstopped | ⟨hphase, hpast, hsent⟩
  · exact .inl hstopped
  · exact .inr ⟨⟨hphase, hpast.unread, hpast.eof.trans hat.eof⟩, hsent⟩

/-- **A step of the server** keeps the modes. -/
theorem Mode.server_step (hcon : t.Connected) (hserves : ServesStep a s t) (h : Mode opts a s)
    (hact : act env s t = some (s', done)) :
    Mode opts (a.receive (sentBytes done) s'.closed) s' := by
  cases h with
  | stopped server => simp [act_stopped server] at hact
  | silent client => exact .silent (silent_receive client _ _)
  | idle place client server =>
    simp [act, server.phase, readCommand_nil hcon server] at hact
  | announced client server =>
    rcases server with ⟨line, hwhole, hword, hat⟩ | hat
    · rcases opens_command hcon hwhole hword hat hact with hstopped | ⟨hbody, hsent⟩
      · exact .stopped hstopped
      · rw [hsent, closed_of_phase hbody.phase (by simp)]
        exact .announced (by simpa using client.receive []) (Or.inr hbody)
    · simp [act, hat.phase, readBody_nil hcon hat] at hact
  | sending todo arrived rest lines split client server =>
    rcases server with ⟨line, hwhole, hword, hat⟩ | hat
    · rcases opens_command hcon hwhole hword hat hact with hstopped | ⟨hbody, hsent⟩
      · exact .stopped hstopped
      · rw [hsent, closed_of_phase hbody.phase (by simp)]
        exact .sending todo arrived rest lines split client.receive (Or.inr hbody)
    · simp only [act, hat.phase] at hact
      exact Mode.line_step hcon lines split client hat hact
  | lost arrived rest lines client server =>
    rcases server with hat | hat
    · simp only [act, hat.phase, Option.some.injEq] at hact
      obtain ⟨errno, rfl, rfl⟩ := abandonForm_cases hact
      rw [closed_of_phase rfl (by simp)]
      exact .lost arrived rest lines client.receive (Or.inr ⟨by simp, hat.unread, hat.eof⟩)
    · simp only [act, hat.phase] at hact
      cases arrived with
      | nil => simp [readCommand_nil hcon hat] at hact
      | cons line arrived =>
        have hunread : unread s.tsd s.conn = line ++ arrived.flatten := by
          rw [hat.unread, List.flatten_cons]
        have hline := lines line (by simp)
        obtain ⟨hwhole, hne, -⟩ := plain_of_bodyLine hline
        -- a line of a form is no command
        refine .stopped (readCommand_plain hcon hunread hwhole hne ?_ ?_ hact)
        · rcases hline with hline | rfl
          · exact hline.form
          · decide
        · rcases hline with hline | rfl
          · exact hline.photo
          · decide
  | closing client server =>
    rcases server with hat | hat | hat
    · simp only [act, hat.phase, Option.some.injEq] at hact
      obtain ⟨errno, rfl, rfl⟩ := closeForm_cases hact
      rw [closed_of_phase rfl (by simp)]
      exact .closing client.receive (Or.inr (Or.inl ⟨rfl, hat.unread, hat.eof⟩))
    · simp only [act, hat.phase, Option.some.injEq] at hact
      obtain ⟨rfl, ⟨-, rfl⟩ | ⟨-, rfl⟩⟩ := insertForm_cases hact
      · rw [closed_of_phase rfl (by simp)]
        exact .closing client.receive (Or.inr (Or.inr ⟨rfl, hat.unread, hat.eof⟩))
      · rw [closed_of_phase rfl (by simp)]
        exact .closing client.receive (Or.inr (Or.inr ⟨rfl, hat.unread, hat.eof⟩))
    · simp only [act, hat.phase] at hact
      obtain ⟨hphase, hconn, htsd, hsent, -⟩ := replyForm_calm hcon hact
      rw [hsent, closed_of_phase hphase (by simp)]
      cases client with
      | body todo hleft => simp at hleft
      | reply _ text client =>
        exact .answered text (client.receive _)
          ⟨hphase, by rw [htsd, hconn]; exact hat.unread, by rw [hconn]; exact hat.eof⟩
  | answered text client server => simp [act, server.phase, readCommand_nil hcon server] at hact
  | offered text fits client server =>
    simp only [act, server.phase] at hact
    simp only [ServesStep, server.phase] at hserves
    exact Mode.answer_step hcon hserves text fits client server hact
  | refused client server => simp [act, server.phase, readCommand_nil hcon server] at hact
  | photo arrived rest extra left client server holds room fits =>
    exact Mode.photo_step hcon hserves client server holds room fits hact

end Steps

/-! ### Runs -/

section Runs

variable {opts : Options} {env : Env} {a : Apply} {s : Session} {t : Turn}
  {es : List (Sent ⊕ Event)} {x : Apply × Session} {i : Client.Turn ⊕ Turn}

/-- Time that passes does not change the mode. -/
theorem Mode.wait (h : Mode opts a s) (t : Turn) : Mode opts a (s.wait t) := by
  have hopens : ∀ {bs}, Opens s bs → Opens (s.wait t) bs := fun h =>
    h.imp (fun ⟨line, hwhole, hword, hat⟩ => ⟨line, hwhole, hword, at_wait hat t⟩)
      fun hat => at_wait hat t
  cases h with
  | stopped server => exact .stopped server
  | silent client => exact .silent client
  | idle place client server => exact .idle place client (at_wait server t)
  | announced client server => exact .announced client (hopens server)
  | sending todo arrived rest lines split client server =>
    exact .sending todo arrived rest lines split client (hopens server)
  | lost arrived rest lines client server =>
    exact .lost arrived rest lines client (server.imp (at_wait · t) (at_wait · t))
  | closing client server =>
    exact .closing client (server.imp (at_wait · t) (Or.imp (at_wait · t) (at_wait · t)))
  | answered text client server => exact .answered text client (at_wait server t)
  | offered text fits client server => exact .offered text fits client (at_wait server t)
  | refused client server => exact .refused client (at_wait server t)
  | photo arrived rest extra left client server holds room fits =>
    refine .photo arrived rest extra left client ?_ (holds_wait holds t) room fits
    cases server with
    | image phase none size => exact .image phase none size
    | payload phase none block => exact .payload phase none block
    | replying phase result none zero => exact .replying phase result none zero
    | replied phase result reply zero => exact .replied phase result reply zero

theorem Ledger.wait (h : Ledger a s es) (t : Turn) : Ledger a (s.wait t) es := by
  obtain ⟨hcount, hahead, hserving, hread, hwhole, hheard, hapart⟩ := h
  refine ⟨hcount, hahead, hserving, hread, hwhole, fun start line hcommand => ?_, hapart⟩
  exact (hheard start line hcommand).imp_right fun h => h.imp_right fun hears =>
    ⟨hears.phase, hears.start, hears.front⟩

/-- What has been sent and read, and where the two sides are. -/
structure Sync (opts : Options) (x : Apply × Session) (es : List (Sent ⊕ Event)) : Prop where
  ledger : Ledger x.1 x.2 es
  mode : Mode opts x.1 x.2

/-- **A move** that keeps the two sides in step. -/
theorem Sync.step (hcon : Connected i) (hin : InStep opts x i) (h : Sync opts x es) :
    Sync opts (submission opts env x i).1 (es ++ (submission opts env x i).2) := by
  obtain ⟨hledger, hmode⟩ := h
  obtain ⟨a, s⟩ := x
  cases i with
  | inl c =>
    simp only [submission, Machine.linked, applyForms]
    cases hact : a.act opts c with
    | none =>
      -- the client waits; when it has closed, the server gets to know
      simp only [Option.getD_none]
      refine ⟨hledger.client_step (.quiet rfl) (by simp) _, ?_⟩
      by_cases hclosed : a.place = .closed
      · exact .silent (.leaving (Or.inr (Or.inl hclosed)))
      · rw [beq_false_of_ne hclosed]
        simpa using hmode
    | some r =>
      obtain ⟨a', sent⟩ := r
      obtain ⟨hmode', htimely⟩ := hmode.client_step hcon hin hact
      exact ⟨hledger.client_step (Apply.act_counted hact) htimely _, hmode'⟩
  | inr t =>
    have hwait := hmode.wait t
    simp only [submission, Machine.linked, manageClient]
    cases hact : act env (s.wait t) t with
    | none =>
      simp only [Option.getD_none, List.map_nil, List.append_nil]
      refine ⟨?_, ?_⟩
      · obtain ⟨hcount, hahead, hserving, hread, hwhole, hagreed⟩ := hledger.wait t
        exact ⟨hcount, hahead, hserving, hread, hwhole, hagreed⟩
      · by_cases hdone : (s.wait t).phase = .done
        · exact .stopped (Or.inl hdone)
        · have hopen : (s.wait t).closed = false := closed_of_ne_done hdone
          have hnone : sentBytes [] = [] := rfl
          rw [hopen, hnone, apply_receive_nil]
          exact hwait
    | some r =>
      obtain ⟨s', done⟩ := r
      have hserves : ServesStep a (s.wait t) t := hin
      exact ⟨(hledger.wait t).server_step hcon hact _ _, hwait.server_step hcon hserves hact⟩

/-- Behind the login nothing has been sent. -/
theorem sync_start (hclient : a.At .start []) (hserver : s.At .command [])
    (hpos : a.pos = s.conn.pos) :
    Sync opts (a, s) [] := by
  obtain ⟨hbuf, hinq⟩ := List.append_eq_nil_iff.mp hserver.unread
  have hplace : a.place = .start := hclient.place
  refine ⟨⟨by simp [hinq, hpos], Or.inl hbuf, by simp [hserver.phase, Phase.Serving],
      ?_, ?_, ?_, ?_⟩,
    .idle (Or.inl hplace) (by rwa [hplace]) hserver⟩
  · exact fun _ _ h => absurd h List.not_mem_nil
  · exact fun _ _ h => absurd h List.not_mem_nil
  · exact fun _ _ h => absurd h List.not_mem_nil
  · exact fun _ _ _ _ h => absurd h List.not_mem_nil

end Runs

/-- **The modes agree.** In every run whose moves keep the two sides in step, whatever the
directory holds and however the stream is cut, a command line that the server has not read
is the next line its command loop reads, and none becomes part of a form. -/
theorem modes_agree (opts : Options) (env : Env) (a : Apply) (s : Session)
    (hclient : a.At .start []) (hserver : s.At .command []) (hpos : a.pos = s.conn.pos)
    (moves : List (Client.Turn ⊕ Turn))
    (hmoves : (submission opts env).Meets (fun x i => Connected i ∧ InStep opts x i) (a, s) moves) :
    let r := (submission opts env).run (a, s) moves
    Agreed r.1.2 r.2 := by
  have hsync := (submission opts env).run_induction
    (fun x es i hi hx => Sync.step hi.1 hi.2 hx) (sync_start hclient hserver hpos) hmoves
  simpa using hsync.ledger.agreed

/-- A form with its header only. -/
def sampleHeader : Bytes := ascii "Male:0001:A:0001:Science:0:A\n"

/-- A client behind its login, with two forms that are not sent. -/
def sampleDirectory : Apply where
  place := .start
  wire := { conn := { inq := [], eof := false } }
  pos := 0
  cancelled := false
  names := [ascii "20050001A001.txt", ascii "20050001A002.txt"]
  disk := fun _ => some sampleHeader
  buffer := []
  sent := 0

/-- A server in its command loop. -/
def sampleIdle : Session :=
  { Session.init [] false 1120000000 [] [] with
    phase := .command, txtdir := ascii "/txt/", regdb := ascii "/db/1.db" }

/-- The first form is sent, and the second announced. -/
def sampleSent : List (Client.Turn ⊕ Turn) :=
  let c : Client.Turn := { reads := photoBytes, writes := photoBytes }
  let t : Turn := { reads := photoBytes, writes := photoBytes }
  [.inl c, .inl c, .inr t, .inl c, .inl c, .inl c, .inr t, .inr t, .inr t, .inr t, .inr t,
    .inl c, .inl c, .inr t]

instance (name : Bytes) : Decidable (OneLine name) :=
  inferInstanceAs (Decidable (newline ∉ name ∧ nul ∉ name))

/-- The client announces nothing that it then has to send. -/
def Unbound : Client.ApplyPlace → Bool
  | .named _ => false
  | .photo _ => false
  | _ => true

theorem inStep_unbound {opts : Options} {x : Apply × Session} {c : Client.Turn}
    (hplace : Unbound x.1.place = true) (hnames : ∀ name ∈ x.1.names.head?, OneLine name) :
    InStep opts x (.inl c) := by
  unfold InStep KeepsStep
  cases h : x.1.place <;> simp_all [Unbound]

theorem inStep_opens {opts : Options} {x : Apply × Session} {c : Client.Turn} {path content : Bytes}
    (hplace : x.1.place = .named path) (hfile : x.1.openFile path c = some content)
    (hform : IsForm content) (hcancel : c.cancel = false) : InStep opts x (.inl c) := by
  simp only [InStep, KeepsStep, hplace]
  exact Or.inr (Or.inl ⟨content, hfile, hform, Or.inl hcancel⟩)

theorem inStep_serving {opts : Options} {x : Apply × Session} {t : Turn}
    (hoff : t.acceptimage = false) (hok : t.ok = true) : InStep opts x (.inr t) := by
  unfold InStep ServesStep
  cases x.2.phase <;> simp [hoff, hok]

theorem isForm_sampleHeader : IsForm sampleHeader := by
  refine ⟨[sampleHeader], by simp, fun line hline => ?_⟩
  obtain rfl := List.mem_singleton.mp hline
  exact ⟨⟨by decide, Or.inr ⟨newline, by decide, rfl⟩⟩, by decide, by decide, by decide, by decide,
    by decide, by decide⟩

theorem modes_agree_sample :
    let r := (submission ⟨sampleDir, true⟩ sampleEnv).run (sampleDirectory, sampleIdle) sampleSent
    Agreed r.1.2 r.2 ∧ Commands r.2 57 (Apply.filenameLine (ascii "20050001A002.txt")) := by
  refine ⟨modes_agree ⟨sampleDir, true⟩ sampleEnv sampleDirectory sampleIdle ⟨rfl, rfl, rfl⟩
    ⟨rfl, rfl, rfl⟩ rfl sampleSent ?_, by unfold Commands; decide +kernel⟩
  have hclient : ({ reads := photoBytes, writes := photoBytes } : Client.Turn).Calm :=
    ⟨calm_photoBytes, calm_photoBytes⟩
  have hserver : ({ reads := photoBytes, writes := photoBytes } : Turn).Connected :=
    ⟨calm_photoBytes, calm_photoBytes⟩
  have hfree : ∀ {x : Apply × Session}, Unbound x.1.place = true →
      (∀ name ∈ x.1.names.head?, OneLine name) → ∀ c, InStep ⟨sampleDir, true⟩ x (.inl c) :=
    fun hplace hnames _ => inStep_unbound hplace hnames
  simp only [sampleSent, Machine.meets_cons, Machine.meets_nil, and_true]
  refine ⟨⟨hclient, hfree (by decide +kernel) (by decide +kernel) _⟩,
    ⟨hclient, hfree (by decide +kernel) (by decide +kernel) _⟩, ⟨hserver, inStep_serving rfl rfl⟩,
    ⟨hclient, ?_⟩, ⟨hclient, hfree (by decide +kernel) (by decide +kernel) _⟩,
    ⟨hclient, hfree (by decide +kernel) (by decide +kernel) _⟩, ⟨hserver, inStep_serving rfl rfl⟩,
    ⟨hserver, inStep_serving rfl rfl⟩, ⟨hserver, inStep_serving rfl rfl⟩,
    ⟨hserver, inStep_serving rfl rfl⟩, ⟨hserver, inStep_serving rfl rfl⟩,
    ⟨hclient, hfree (by decide +kernel) (by decide +kernel) _⟩,
    ⟨hclient, hfree (by decide +kernel) (by decide +kernel) _⟩, ⟨hserver, inStep_serving rfl rfl⟩⟩
  exact inStep_opens
    (show _ = Client.ApplyPlace.named (sampleDir ++ ascii "20050001A001.txt") by decide +kernel)
    (show _ = some sampleHeader by decide +kernel) isForm_sampleHeader rfl

/-- The user cancels when the first form has been announced: the second is announced
all the same, and then the client quits. -/
def sampleCut : List (Client.Turn ⊕ Turn) :=
  let c : Client.Turn := { reads := photoBytes, writes := photoBytes }
  let t : Turn := { reads := photoBytes, writes := photoBytes }
  [.inl c, .inl c, .inl { c with cancel := true }, .inl c, .inl c, .inl c, .inl c,
    .inr t, .inr t, .inr t, .inr t]

/-- The announcement of the second form becomes the text of the first. -/
theorem modes_differ_sample :
    let r := (submission ⟨sampleDir, true⟩ sampleEnv).run (sampleDirectory, sampleIdle) sampleCut
    (∀ i ∈ sampleCut, Connected i) ∧ ¬ Agreed r.1.2 r.2 ∧
      .inr (.writeAt (ascii "/txt/20050001A001.txt") 0
        (Apply.filenameLine (ascii "20050001A002.txt"))) ∈ r.2 := by
  intro r
  have hsent : Commands r.2 26 (Apply.filenameLine (ascii "20050001A002.txt")) := by
    unfold Commands
    decide +kernel
  have htaken : Bodies r.2 26 (Apply.filenameLine (ascii "20050001A002.txt")) := by
    unfold Bodies
    decide +kernel
  refine ⟨?_, fun hagreed => ?_, by decide +kernel⟩
  · have hcalm := calm_photoBytes
    simp only [sampleCut, List.forall_mem_cons, List.not_mem_nil, false_implies, implies_true,
      and_true]
    exact ⟨⟨hcalm, hcalm⟩, ⟨hcalm, hcalm⟩, ⟨hcalm, hcalm⟩, ⟨hcalm, hcalm⟩, ⟨hcalm, hcalm⟩,
      ⟨hcalm, hcalm⟩, ⟨hcalm, hcalm⟩, ⟨hcalm, hcalm⟩, ⟨hcalm, hcalm⟩, ⟨hcalm, hcalm⟩, hcalm, hcalm⟩
  · rcases hagreed.apart 26 _ 26 _ hsent htaken with hle | hle
    · exact absurd hle (by decide)
    · exact absurd hle (by decide)

end Esif.System
