import Esif.CS.Linked
import Esif.Client.Submit
import Esif.Client.Verify
import Esif.Server.Record
import Esif.Server.Serve
import Esif.System.Photo

/-!
# The transfer of a form

`apply_form` at the server that has got its `FILENAME` line, on a connection that
holds.

## Main definitions

* `Form` — a form the server can take
* `FormStage` — where the two sides are, and what lies between them
* `FormMove` — a move on a connection that holds, where no call fails and the user does
  not cancel

## Main results

* `FormStage.client_step`, `FormStage.server_step` — one step of either side
* `form_transfer` — the form arrives, in the text file and in the record
-/

namespace Esif.System

open Esif.CS Esif.Posix
open Esif.Server hiding TXTLINES
open Esif.Client (Apply Entries IsLine Options PhotoFits Sent TXTLINES applyForms fixInfoPath
  formErr lineWidths markSent verifyForm)
open Esif.Client.Apply (Reply)

/-- The line that ends a form. -/
def dot : Bytes := ascii ".\n"

theorem whole_dot : Lines.Whole isNewline (MAXLINE - 1) dot := by
  refine @Lines.whole_line _ isNewline _ [46] (fun b hb => ?_) newline rfl (by decide)
  rw [List.mem_singleton.mp hb]
  rfl

/-- A form of lines that fit, under a name that fits, whose header can be read back. -/
structure Form where
  path : Bytes
  name : Bytes
  lines : List Bytes
  suffix : 4 ≤ name.length
  fits : name.length < MAXFILENAME
  text : IsText name
  line : ∀ line ∈ lines, FormLine line
  room : (recordOf lines).length ≤ MAXINFOSIZE
  mark : ∀ garbage, ∃ content, markSent lines.flatten garbage = .ok content

/-- The client has the form at hand, and is not to cancel. -/
structure Attends (f : Form) (a : Apply) : Prop where
  disk : a.disk f.path = some f.lines.flatten
  going : a.cancelled = false

/-- The client has still to send the lines `rest`. -/
inductive Uploading (f : Form) (a : Apply) (rest : List Bytes) : Prop
  | named (whole : rest = f.lines ++ [dot]) (client : a.At (.named f.path) [])
  | body (todo : List Bytes) (photo : Bytes) (left : rest = todo ++ [dot])
      (lines : ∀ line ∈ todo, FormLine line) (client : a.At (.body f.path todo.flatten photo) [])
  | sent (photo : Bytes) (none : rest = []) (client : a.At (.reply f.path photo) [])

/-- The names the server has made of the command. -/
structure Names (filename db key : Bytes) (s : Session) : Prop where
  filename : s.filename = filename
  regdb : s.regdb = db
  regkey : s.regkey = key

/-- Both stores hold the form. -/
structure Holding (f : Form) (file db : Place) (key : Bytes) (w : World) : Prop where
  text : w.file file = some f.lines.flatten
  record : w.record db key = some (recordOf f.lines)

/-- Where the two sides are and what lies between them. -/
inductive FormStage (f : Form) (cwd : Place) (filename db key : Bytes) (q : Machine.Call Apply ℤ)
    (s : Session) (w : World) : Prop
  | opening (arrived rest : List Bytes) (split : f.lines ++ [dot] = arrived ++ rest)
      (client : Uploading f q.state rest) (attends : Attends f q.state) (running : q.ret = none)
      (server : s.At .command (Apply.filenameLine f.name ++ arrived.flatten))
      (named : s.txtdir ++ f.name = filename) (regdb : s.regdb = db)
      (regkey : f.name.take (f.name.length - 4) = key) (errno : s.errno ≠ .ewouldblock)
  | reading (got todo arrived rest : List Bytes) (lines : f.lines = got ++ todo)
      (split : todo ++ [dot] = arrived ++ rest) (client : Uploading f q.state rest)
      (attends : Attends f q.state) (running : q.ret = none) (server : s.At .body arrived.flatten)
      (text : s.stfile = got.flatten) (record : s.regbuf = recordOf got)
      (names : Names filename db key s) (created : w.file (resolve cwd filename) = some [])
  | closing (client : Uploading f q.state []) (attends : Attends f q.state) (running : q.ret = none)
      (server : s.At .close []) (text : s.stfile = f.lines.flatten)
      (record : s.regbuf = recordOf f.lines) (names : Names filename db key s)
      (created : w.file (resolve cwd filename) = some [])
  | inserting (client : Uploading f q.state []) (attends : Attends f q.state)
      (running : q.ret = none) (server : s.At .insert []) (record : s.regbuf = recordOf f.lines)
      (names : Names filename db key s)
      (stored : w.file (resolve cwd filename) = some f.lines.flatten)
  | replying (client : Uploading f q.state []) (attends : Attends f q.state)
    (running : q.ret = none)
      (server : s.At .reply []) (stored : Holding f (resolve cwd filename) (resolve cwd db) key w)
  | replied (photo : Bytes) (client : q.state.At (.reply f.path photo) (ebuf SUCCESS))
      (attends : Attends f q.state) (running : q.ret = none) (server : s.At .command [])
      (stored : Holding f (resolve cwd filename) (resolve cwd db) key w)
  | finished (pending : q.state.wire.pending = []) (returned : q.ret = some 0)
      (server : s.At .command []) (stored : Holding f (resolve cwd filename) (resolve cwd db) key w)

/-- The steps the client has left to take. -/
def formClientLeft (f : Form) (q : Machine.Call Apply ℤ) : ℕ :=
  match q.ret, q.state.place with
  | some _, _ => 0
  | none, .named _ => f.lines.flatten.length + 3
  | none, .body _ content _ => content.length + 2
  | none, .reply _ _ => 1
  | none, _ => 0

/-- The steps the server has left to take. -/
def formServerLeft (f : Form) (s : Session) : ℕ :=
  match s.phase with
  | .command => if unread s.tsd s.conn = [] then 0 else f.lines.flatten.length + 5
  | .body => f.lines.flatten.length - s.stfile.length + 4
  | .close => 3
  | .insert => 2
  | .reply => 1
  | _ => 0

/-- The client has something to do: a form to open or to send, or a reply to read. -/
def SubmitReady (a : Apply) : Prop :=
  (∃ path, a.place = .named path) ∨ (∃ path content photo, a.place = .body path content photo) ∨
    a.wire.pending ≠ []

/-- The server has something to do: bytes to read, or a step that reads nothing. -/
def FormReady (s : Session) : Prop :=
  unread s.tsd s.conn ≠ [] ∨ s.phase = .close ∨ s.phase = .insert ∨ s.phase = .reply

section Steps

variable {f : Form} {cwd : Place} {filename db key : Bytes} {opts : Options} {env : Env}
  {q : Machine.Call Apply ℤ} {a a' : Apply} {s s' : Session} {w : World} {t : Turn}
  {c : Client.Turn} {es : List Event} {sent : List Sent} {rest : List Bytes}

theorem Uploading.receive (h : Uploading f a rest) : Uploading f (a.receive [] false) rest := by
  cases h with
  | named whole client => exact .named whole (by simpa using client.receive [])
  | body todo photo left lines client =>
    exact .body todo photo left lines (by simpa using client.receive [])
  | sent photo none client => exact .sent photo none (by simpa using client.receive [])

/-- A step of the client while it sends the form: one line more is on its way. -/
theorem Uploading.step (hcalm : c.Calm) (hok : c.ok = true) (hcancel : c.cancel = false)
    (h : Uploading f a rest) (hattends : Attends f a) (hact : a.act opts c = some (a', sent)) :
    ∃ moved rest', rest = moved ++ rest' ∧ sent.flatMap Sent.bytes = moved.flatten ∧
      Uploading f a' rest' ∧ Attends f a' ∧ formErr opts a c = none ∧
      formClientLeft f ⟨a', none⟩ < formClientLeft f ⟨a, none⟩ := by
  have hattends' : ∀ {rest'}, a.Past rest' a' → Attends f a' := fun hpast =>
    ⟨by rw [hpast.disk]; exact hattends.disk, hpast.cancelled.trans hattends.going⟩
  cases h with
  | named whole client =>
    have hopen : a.openFile f.path c = some f.lines.flatten := by
      simp [Apply.openFile, hok, hattends.disk]
    have hact' := hact
    simp only [Apply.act, client.place, Option.some.injEq] at hact
    obtain ⟨hpast, hplace, -, rfl⟩ := Apply.openForm_calm hattends.going hcancel hopen hact
    refine ⟨[], rest, rfl, rfl,
      .body f.lines [] whole f.line ((client.pending ▸ hpast).at client hplace),
      hattends' hpast, ?_, ?_⟩
    · simp [formErr, hact', client.place, hplace]
    · simp [formClientLeft, client.place, hplace]
  | body todo photo left lines client =>
    have hact' := hact
    simp only [Apply.act, client.place] at hact
    cases todo with
    | nil =>
      obtain ⟨hpast, hplace, -, rfl⟩ := Apply.sendLine_dot hcalm hact
      refine ⟨[dot], [], left, by simp [Sent.bytes, dot],
        .sent photo rfl ((client.pending ▸ hpast).at client hplace), hattends' hpast, ?_, ?_⟩
      · simp [formErr, hact', client.place, hplace]
      · simp [formClientLeft, client.place, hplace]
    | cons line todo =>
      have hline := lines line List.mem_cons_self
      rw [List.flatten_cons] at hact
      obtain ⟨hpast, hplace, -, rfl⟩ := Apply.sendLine_line hcalm hattends.going hline.whole
        hline.ne_nil hline.nul hact
      refine ⟨[line], todo ++ [dot], left, by simp [Sent.bytes],
        .body todo _ rfl (fun l hl => lines l (List.mem_cons_of_mem _ hl))
          ((client.pending ▸ hpast).at client hplace), hattends' hpast, ?_, ?_⟩
      · simp [formErr, hact', client.place, hplace]
      · have hpos := List.length_pos_iff.mpr hline.ne_nil
        simp only [formClientLeft, client.place, hplace, List.flatten_cons, List.length_append]
        omega
  | sent photo none client =>
    simp [Apply.act, client.place, Apply.readFormReply, Apply.readline_waits hcalm client] at hact

/-- A client with no line left to send waits for the reply. -/
theorem Uploading.waits (h : Uploading f a []) : ∃ photo, a.At (.reply f.path photo) [] := by
  cases h with
  | named whole client => simp at whole
  | body todo photo left lines client => simp at left
  | sent photo none client => exact ⟨photo, client⟩

/-- Before the reply is there that client does not move. -/
theorem Uploading.act_none (hcalm : c.Calm) (h : Uploading f a []) : a.act opts c = none := by
  obtain ⟨photo, hat⟩ := h.waits
  simp [Apply.act, hat.place, Apply.readFormReply, Apply.readline_waits hcalm hat]

/-- **A step of the client** takes the transfer on. -/
theorem FormStage.client_step (hcalm : c.Calm) (hok : c.ok = true) (hcancel : c.cancel = false)
    (h : FormStage f cwd filename db key q s w) (hret : q.ret = none)
    (hact : q.state.act opts c = some (a', sent)) :
    let q' : Machine.Call Apply ℤ := ⟨a', formErr opts q.state c⟩
    let s' := Session.receive (sent.flatMap Sent.bytes) false s
    FormStage f cwd filename db key q' s' w ∧ formClientLeft f q' < formClientLeft f q ∧
      formServerLeft f s' = formServerLeft f s := by
  intro q' s'
  have hq : q = ⟨q.state, none⟩ := by rw [← hret]
  have hquiet : sent.flatMap Sent.bytes = [] → s' = s := by
    intro hnone
    simp [s', hnone, Session.receive]
  cases h with
  | opening arrived rest split client attends running server named regdb regkey errno =>
    -- what the client sends lands behind what has arrived; the server has not moved
    obtain ⟨moved, rest', rfl, hsent, hclient, hattends, herr, hlt⟩ :=
      client.step hcalm hok hcancel attends hact
    have hserver := at_receive server (sent.flatMap Sent.bytes)
    rw [hsent, List.append_assoc, ← List.flatten_append] at hserver
    have hunread : unread s.tsd s.conn ≠ [] ∧ unread s'.tsd s'.conn ≠ [] := by
      simp only [s', hsent, hserver.unread, server.unread, Apply.filenameLine]
      simp
    refine ⟨.opening (arrived ++ moved) rest' ?_ hclient hattends herr ?_ named regdb regkey errno,
      ?_, ?_⟩
    · rw [split, List.append_assoc]
    · simpa only [s', hsent] using hserver
    · rw [hq]
      simpa only [q', herr] using hlt
    · have hphase : s'.phase = .command := server.phase
      simp only [formServerLeft, hphase, server.phase]
      rw [if_neg hunread.1, if_neg hunread.2]
  | reading got todo arrived rest lines split client attends running server text record names
    created =>
    obtain ⟨moved, rest', rfl, hsent, hclient, hattends, herr, hlt⟩ :=
      client.step hcalm hok hcancel attends hact
    have hserver := at_receive server (sent.flatMap Sent.bytes)
    rw [hsent, ← List.flatten_append] at hserver
    refine ⟨.reading got todo (arrived ++ moved) rest' lines ?_ hclient hattends herr ?_ text record
      ⟨names.filename, names.regdb, names.regkey⟩ created, ?_, ?_⟩
    · rw [split, List.append_assoc]
    · simpa only [s', hsent] using hserver
    · rw [hq]
      simpa only [q', herr] using hlt
    · have hphase : s'.phase = .body := server.phase
      have hstfile : s'.stfile = s.stfile := rfl
      simp only [formServerLeft, hphase, server.phase, hstfile]
  | closing client | inserting client | replying client =>
    -- every line has been sent and no reply has come
    simp [client.act_none hcalm] at hact
  | replied photo client attends running server stored =>
    -- the reply is at hand: the flag is set and the call returns
    have hopen : q.state.openFile f.path c = some f.lines.flatten := by
      simp [Apply.openFile, hok, attends.disk]
    have hat : q.state.At (.reply f.path photo) (ebuf SUCCESS ++ []) := by rwa [List.append_nil]
    obtain ⟨hpending, -, -, rfl, herr⟩ := @Apply.readFormReply_calm opts _ _ _ _ _ _ _ _ hcalm
      ⟨_, hopen, f.mark c.garbage⟩ reply_success (by decide) hat hact
    rw [hquiet rfl]
    refine ⟨.finished hpending herr server stored, ?_, rfl⟩
    rw [hq]
    simp [q', herr, formClientLeft, client.place]
  | finished pending returned server stored => simp [hret] at returned

theorem FormStage.wait (h : FormStage f cwd filename db key q s w) (t : Turn) :
    FormStage f cwd filename db key q (s.wait t) w := by
  cases h with
  | opening arrived rest split client attends running server named regdb regkey errno =>
    exact .opening arrived rest split client attends running (at_wait server t) named regdb regkey
      errno
  | reading got todo arrived rest lines split client attends running server text record names
    created =>
    exact .reading got todo arrived rest lines split client attends running (at_wait server t) text
      record ⟨names.filename, names.regdb, names.regkey⟩ created
  | closing client attends running server text record names created =>
    exact .closing client attends running (at_wait server t) text record
      ⟨names.filename, names.regdb, names.regkey⟩ created
  | inserting client attends running server record names stored =>
    exact .inserting client attends running (at_wait server t) record
      ⟨names.filename, names.regdb, names.regkey⟩ stored
  | replying client attends running server stored =>
    exact .replying client attends running (at_wait server t) stored
  | replied photo client attends running server stored =>
    exact .replied photo client attends running (at_wait server t) stored
  | finished pending returned server stored =>
    exact .finished pending returned (at_wait server t) stored

/-- The `FILENAME` line is there as a whole. -/
theorem whole_name {name : Bytes} (hname : newline ∉ name)
    (hlen : name.length ≤ Client.MAXFILENAMELEN) :
    Lines.Whole isNewline (MAXLINE - 1) (Apply.filenameLine name) := by
  have hword : (ascii "FILENAME ").length = 9 := by decide
  refine Lines.whole_line isNewline (fun b hb => ?_) rfl ?_
  · rcases List.mem_append.mp hb with hb | hb
    · simpa [isNewline] using ne_of_mem_of_not_mem hb (by decide : newline ∉ ascii "FILENAME ")
    · simpa [isNewline] using ne_of_mem_of_not_mem hb hname
  · rw [List.length_append, hword]
    unfold Client.MAXFILENAMELEN at hlen
    unfold MAXLINE
    omega

/-- The server reads the name of a form back. -/
theorem whole_filenameLine (f : Form) :
    Lines.Whole isNewline (MAXLINE - 1) (Apply.filenameLine f.name) ∧
      ∀ tmpname, scanFilename (cstr ((Apply.filenameLine f.name).drop 9)) tmpname = f.name := by
  have hword : (ascii "FILENAME ").length = 9 := by decide
  constructor
  · refine whole_name (fun hmem => (f.text newline hmem).2.1 rfl) ?_
    have hfits := f.fits
    unfold MAXFILENAME at hfits
    unfold Client.MAXFILENAMELEN
    omega
  · intro tmpname
    have hdrop : (Apply.filenameLine f.name).drop 9 = f.name ++ [newline] := by
      rw [Apply.filenameLine, List.append_assoc, ← hword, List.drop_left]
    have hcstr : cstr (f.name ++ [newline]) = f.name ++ [newline] := by
      refine cstr_eq_self fun hmem => ?_
      rcases List.mem_append.mp hmem with hmem | hmem
      · exact (f.text nul hmem).1 rfl
      · exact absurd hmem (by decide)
    have hscan : scanLine (f.name ++ [newline]) = f.name := by
      rw [scanLine, List.takeWhile_append_of_pos]
      · simp [carriageReturn, newline]
      · intro b hb
        simp [(f.text b hb).2.1, (f.text b hb).2.2]
    have hne : f.name ≠ [] := by
      intro hnil
      have hsuffix := f.suffix
      simp [hnil] at hsuffix
    rw [hdrop, hcstr, scanFilename, hscan, if_neg hne]

theorem recordOf_cons_length (line : Bytes) (lines : List Bytes) :
    (recordOf (line :: lines)).length = line.length + 1 + (recordOf lines).length := by
  simp only [recordOf, List.map_cons, List.flatten_cons, List.length_append, List.length_singleton]

theorem recordOf_append (lines lines' : List Bytes) :
    recordOf (lines ++ lines') = recordOf lines ++ recordOf lines' := by simp [recordOf]

/-- The server takes the command, and opens the form. -/
theorem FormStage.command_step {arrived : List Bytes} (hcalm : t.Calm)
    (split : f.lines ++ [dot] = arrived ++ rest) (client : Uploading f q.state rest)
    (attends : Attends f q.state) (running : q.ret = none)
    (server : s.At .command (Apply.filenameLine f.name ++ arrived.flatten))
    (named : s.txtdir ++ f.name = filename) (regdb : s.regdb = db)
    (regkey : f.name.take (f.name.length - 4) = key) (errno : s.errno ≠ .ewouldblock)
    (hact : readCommand s t = some (s', es)) :
    FormStage f cwd filename db key (Call.receive (sentBytes es) q) s' (w.after cwd es) ∧
      s'.phase ≠ .done ∧ formServerLeft f s' < formServerLeft f s := by
  -- the `FILENAME` line has arrived whole, as the client sent it in one step
  obtain ⟨hwhole, hscan⟩ := whole_filenameLine f
  obtain ⟨hphase, hfilename, hregdb, hregkey, hstfile, hregbuf, hpast, hsent, hworld⟩ :=
    readCommand_opens hcalm.connected server.unread hwhole
      (by simp [Apply.filenameLine]) hcalm.ok errno
      (by rw [Apply.filenameLine, List.append_assoc]; exact List.prefix_append _ _)
      (hscan s.tmpname) f.suffix f.fits hact
  have hunread : unread s.tsd s.conn ≠ [] := by
    rw [server.unread]
    simp [Apply.filenameLine]
  refine ⟨?_, by simp [hphase], ?_⟩
  · rw [hsent, hworld]
    refine .reading [] f.lines arrived rest rfl split client.receive
      ⟨attends.disk, attends.going⟩ running ⟨hphase, hpast.unread, hpast.eof.trans server.eof⟩
      (by simp [hstfile]) (by simp [hregbuf, recordOf])
      ⟨hfilename.trans named, hregdb.trans regdb, hregkey.trans regkey⟩ ?_
    simp [World.apply, hfilename, named]
  · simp only [formServerLeft, hphase, server.phase, hstfile]
    rw [if_neg hunread]
    simp

/-- The server reads the dot: the client has sent everything. -/
theorem FormStage.dot_step (hcalm : t.Calm) (client : Uploading f q.state [])
    (attends : Attends f q.state) (running : q.ret = none) (server : s.At .body dot)
    (text : s.stfile = f.lines.flatten) (record : s.regbuf = recordOf f.lines)
    (names : Names filename db key s) (created : w.file (resolve cwd filename) = some [])
    (hact : readBody s t = some (s', es)) :
    FormStage f cwd filename db key (Call.receive (sentBytes es) q) s' (w.after cwd es) ∧
      s'.phase ≠ .done ∧ formServerLeft f s' < formServerLeft f s := by
  have hunread : unread s.tsd s.conn = dot ++ [] := by rw [server.unread, List.append_nil]
  obtain ⟨hphase, hpast, hsent, hstfile, hregbuf, hfilename, hregdb, hregkey, hworld⟩ :=
    readBody_dot hcalm.connected hunread whole_dot (by decide) rfl hact
  refine ⟨?_, by simp [hphase], ?_⟩
  · rw [hsent, hworld]
    exact .closing client.receive ⟨attends.disk, attends.going⟩ running
      ⟨hphase, hpast.unread, hpast.eof.trans server.eof⟩ (hstfile.trans text)
      (hregbuf.trans record)
      ⟨hfilename.trans names.filename, hregdb.trans names.regdb, hregkey.trans names.regkey⟩
      created
  · simp only [formServerLeft, hphase, server.phase]
    omega

/-- The server reads a line of the form, which joins those it has. -/
theorem FormStage.line_step {got todo arrived : List Bytes} {line : Bytes} (hcalm : t.Calm)
    (lines : f.lines = got ++ line :: todo) (split : todo ++ [dot] = arrived ++ rest)
    (client : Uploading f q.state rest) (attends : Attends f q.state) (running : q.ret = none)
    (server : s.At .body (line ++ arrived.flatten)) (text : s.stfile = got.flatten)
    (record : s.regbuf = recordOf got) (names : Names filename db key s)
    (created : w.file (resolve cwd filename) = some []) (hact : readBody s t = some (s', es)) :
    FormStage f cwd filename db key (Call.receive (sentBytes es) q) s' (w.after cwd es) ∧
      s'.phase ≠ .done ∧ formServerLeft f s' < formServerLeft f s := by
  have hline : FormLine line := f.line line (by simp [lines])
  have hroom : s.regbuf.length + (line.length + 1) ≤ MAXINFOSIZE := by
    have hle := f.room
    rw [lines, recordOf_append, List.length_append, recordOf_cons_length] at hle
    rw [record]
    omega
  obtain ⟨hphase, hpast, hsent, hstfile, hregbuf, hfilename, hregdb, hregkey, hworld⟩ :=
    readBody_takes hcalm server.unread hline server.phase hroom hact
  refine ⟨?_, by simp [hphase], ?_⟩
  · rw [hsent, hworld]
    refine .reading (got ++ [line]) todo arrived rest (by simp [lines]) split client.receive
      ⟨attends.disk, attends.going⟩ running ⟨hphase, hpast.unread, hpast.eof.trans server.eof⟩
      (by simp [hstfile, text]) ?_
      ⟨hfilename.trans names.filename, hregdb.trans names.regdb, hregkey.trans names.regkey⟩
      created
    rw [hregbuf, record, recordOf_append]
    simp [recordOf]
  · have hpos := List.length_pos_iff.mpr hline.ne_nil
    have htotal := congrArg List.length (congrArg List.flatten lines)
    simp only [List.flatten_append, List.flatten_cons, List.length_append] at htotal
    simp only [formServerLeft, hphase, server.phase, hstfile, text, List.length_append]
    omega

/-- **A step of the server** takes the transfer on. -/
theorem FormStage.server_step (hcalm : t.Calm) (h : FormStage f cwd filename db key q s w)
    (hact : act env s t = some (s', es)) :
    let q' := Call.receive (sentBytes es) q
    FormStage f cwd filename db key q' s' (w.after cwd es) ∧ s'.phase ≠ .done ∧
      formClientLeft f q' = formClientLeft f q ∧ formServerLeft f s' < formServerLeft f s := by
  intro q'
  have hclient : formClientLeft f q' = formClientLeft f q := rfl
  have hsame : sentBytes es = [] → q' = Call.receive [] q := by
    intro hnone
    simp [q', hnone]
  cases h with
  | opening arrived rest split client attends running server named regdb regkey errno =>
    simp only [act, server.phase] at hact
    obtain ⟨hstage, hdone, hlt⟩ := FormStage.command_step hcalm split client attends running server
      named regdb regkey errno hact
    exact ⟨hstage, hdone, hclient, hlt⟩
  | reading got todo arrived rest lines split client attends running server text record names
    created =>
    simp only [act, server.phase] at hact
    cases arrived with
    | nil => simp [readBody_nil hcalm.connected server] at hact
    | cons line arrived =>
      rw [List.flatten_cons] at server
      cases todo with
      | nil =>
        -- no line is left to read but the dot
        obtain ⟨rfl, hnone⟩ : dot = line ∧ [] = arrived ++ rest := by simpa using split
        obtain ⟨rfl, rfl⟩ := List.append_eq_nil_iff.mp hnone.symm
        rw [List.append_nil] at lines
        rw [List.flatten_nil, List.append_nil] at server
        obtain ⟨hstage, hdone, hlt⟩ := FormStage.dot_step hcalm client attends running server
          (by rw [text, lines]) (by rw [record, lines]) names created hact
        exact ⟨hstage, hdone, hclient, hlt⟩
      | cons line' todo =>
        -- one line moves from `todo` to `got`
        obtain ⟨rfl, hsplit⟩ : line' = line ∧ todo ++ [dot] = arrived ++ rest := by
          simpa using split
        obtain ⟨hstage, hdone, hlt⟩ := FormStage.line_step hcalm lines hsplit client attends running
          server text record names created hact
        exact ⟨hstage, hdone, hclient, hlt⟩
  | closing client attends running server text record names created =>
    simp only [act, server.phase, Option.some.injEq, closeForm, fclose, flushed, hcalm.ok,
      if_true] at hact
    obtain ⟨rfl, rfl⟩ := Prod.mk.inj hact
    refine ⟨?_, by simp, hclient, by simp [formServerLeft, server.phase]⟩
    rw [hsame rfl]
    refine .inserting client.receive ⟨attends.disk, attends.going⟩ running
      ⟨rfl, server.unread, server.eof⟩ record ⟨names.filename, names.regdb, names.regkey⟩ ?_
    simp [World.apply, names.filename, created, text]
  | inserting client attends running server record names stored =>
    simp only [act, server.phase, Option.some.injEq, insertForm, hcalm.ok, if_true] at hact
    obtain ⟨rfl, rfl⟩ := Prod.mk.inj hact
    refine ⟨?_, by simp, hclient, by simp [formServerLeft, server.phase]⟩
    rw [hsame rfl]
    refine .replying client.receive ⟨attends.disk, attends.going⟩ running
      ⟨rfl, server.unread, server.eof⟩ ⟨stored, ?_⟩
    simp [World.apply, names.regdb, names.regkey, record]
  | replying client attends running server stored =>
    simp only [act, server.phase] at hact
    obtain ⟨hphase, hconn, htsd, hsent, hworld⟩ := replyForm_calm hcalm.connected hact
    obtain ⟨photo, hat⟩ := client.waits
    have hserver : s'.At .command [] :=
      ⟨hphase, by rw [htsd, hconn]; exact server.unread, by rw [hconn]; exact server.eof⟩
    refine ⟨?_, by simp [hphase], hclient, ?_⟩
    · rw [hworld]
      refine .replied photo ?_ ⟨attends.disk, attends.going⟩ running hserver stored
      simpa [q', Call.receive, hsent] using hat.receive (ebuf SUCCESS)
    · simp [formServerLeft, hphase, server.phase, hserver.unread]
  | replied photo client attends running server stored =>
    simp [act, server.phase, readCommand_nil hcalm.connected server] at hact
  | finished pending returned server stored =>
    simp [act, server.phase, readCommand_nil hcalm.connected server] at hact

/-! ### Progress -/

/-- A client that is ready moves, when its calls may. -/
theorem FormStage.client_moves (opts : Options) (hample : c.Ample)
    (h : FormStage f cwd filename db key q s w)
    (hret : q.ret = none) (hready : SubmitReady q.state) : ∃ r, q.state.act opts c = some r := by
  have hmoves : ∀ {rest}, Uploading f q.state rest → ∃ r, q.state.act opts c = some r := by
    intro rest hclient
    cases hclient with
    | named whole client => exact ⟨_, by rw [Apply.act, client.place]⟩
    | body todo photo left lines client =>
      simp only [Apply.act, client.place]
      exact Apply.sendLine_some hample
    | sent photo none client => simp [SubmitReady, client.place, client.pending] at hready
  cases h with
  | opening _ _ _ client | reading _ _ _ _ _ _ client | closing client | inserting client
  | replying client => exact hmoves client
  | replied photo client attends running server stored =>
    have hat : q.state.At (.reply f.path photo) (ebuf SUCCESS ++ []) := by rwa [List.append_nil]
    exact Apply.readFormReply_some hample reply_success hat
  | finished pending returned server stored => simp [hret] at returned

/-- A server that is ready moves, when its calls may. -/
theorem FormStage.server_moves (env : Env) (hample : t.Ample)
    (h : FormStage f cwd filename db key q s w)
    (hready : FormReady s) : ∃ r, act env s t = some r := by
  have hidle : ∀ {phase}, s.At phase [] → phase = .command → False := by
    rintro phase hs rfl
    simp [FormReady, hs.unread, hs.phase] at hready
  cases h with
  | opening arrived rest split client attends running server named regdb regkey errno =>
    have hunread : unread s.tsd s.conn =
        (ascii "FILENAME " ++ f.name) ++ newline :: arrived.flatten := by
      rw [server.unread, Apply.filenameLine]
      simp
    have hlen : (ascii "FILENAME " ++ f.name).length < MAXLINE - 1 := by
      have hfits := f.fits
      have hword : (ascii "FILENAME ").length = 9 := by decide
      rw [List.length_append, hword]
      unfold MAXFILENAME at hfits
      unfold MAXLINE
      omega
    simp only [act, server.phase]
    exact readCommand_some hample hunread hlen
  | reading got todo arrived rest lines split client attends running server text record names
    created =>
    simp only [act, server.phase]
    cases arrived with
    | nil => simp [FormReady, server.unread, server.phase] at hready
    | cons line arrived =>
      have hmem : line ∈ todo ++ [dot] := by simp [split]
      obtain ⟨body, hbody, hlen⟩ :
          ∃ body, line = body ++ [newline] ∧ body.length < MAXLINE - 1 := by
        rcases List.mem_append.mp hmem with hmem | hmem
        · have hline := f.line line (by simp [lines, hmem])
          obtain ⟨body, hbody, -⟩ := hline.ends
          have hfits := hline.fits
          rw [hbody, List.length_append, List.length_singleton] at hfits
          exact ⟨body, hbody, by omega⟩
        · exact ⟨[46], List.mem_singleton.mp hmem, by decide⟩
      refine @readBody_some _ _ arrived.flatten body hample ?_ hlen
      rw [server.unread, hbody]
      simp
  | closing client attends running server text record names created =>
    exact ⟨_, by rw [act, server.phase]⟩
  | inserting client attends running server record names stored =>
    exact ⟨_, by rw [act, server.phase]⟩
  | replying client attends running server stored =>
    simp only [act, server.phase]
    exact replyForm_some hample
  | replied photo client attends running server stored => exact (hidle server rfl).elim
  | finished pending returned server stored => exact (hidle server rfl).elim

/-- Short of the end a side is ready. -/
theorem FormStage.ready (h : FormStage f cwd filename db key q s w)
    (hleft : 0 < formClientLeft f q + formServerLeft f s) :
    q.ret = none ∧ SubmitReady q.state ∨ FormReady s := by
  cases h with
  | opening arrived rest split client attends running server named regdb regkey errno =>
    refine .inr (.inl ?_)
    rw [server.unread]
    simp [Apply.filenameLine]
  | reading got todo arrived rest lines split client attends running server text record names
    created =>
    cases arrived with
    | nil =>
      refine .inl ⟨running, ?_⟩
      cases client with
      | named whole client => exact .inl ⟨_, client.place⟩
      | body todo' photo left lines' client => exact .inr (.inl ⟨_, _, _, client.place⟩)
      | sent photo none client => simp [none] at split
    | cons line arrived =>
      have hne : line ≠ [] := by
        have hmem : line ∈ todo ++ [dot] := by simp [split]
        rcases List.mem_append.mp hmem with hmem | hmem
        · exact (f.line line (by simp [lines, hmem])).ne_nil
        · rw [List.mem_singleton.mp hmem]
          decide
      exact .inr (.inl (by simp [server.unread, hne]))
  | closing client attends running server text record names created =>
    exact .inr (by simp [FormReady, server.phase])
  | inserting client attends running server record names stored =>
    exact .inr (by simp [FormReady, server.phase])
  | replying client attends running server stored => exact .inr (by simp [FormReady, server.phase])
  | replied photo client attends running server stored =>
    refine .inl ⟨running, .inr (.inr ?_)⟩
    rw [client.pending]
    simp [ebuf]
  | finished pending returned server stored =>
    simp [formClientLeft, returned, formServerLeft, server.phase, server.unread] at hleft

end Steps

/-! ### Runs -/

/-- A move on a connection that holds, where no call fails and the user does not
cancel. -/
def FormMove : Client.Turn ⊕ Turn → Prop
  | .inl c => c.Calm ∧ c.ok = true ∧ c.cancel = false
  | .inr t => t.Calm

instance : DecidablePred FormMove
  | .inl c => inferInstanceAs (Decidable (c.Calm ∧ c.ok = true ∧ c.cancel = false))
  | .inr t => inferInstanceAs (Decidable t.Calm)

/-- The steps both sides have left to take. -/
def formLeft (f : Form) (x : Exchange) : ℕ := formClientLeft f x.1 + formServerLeft f x.2.1

/-- The side that moves has something to do, and its calls may do it. -/
def FormHelps (x : Exchange) : Client.Turn ⊕ Turn → Prop
  | .inl c => c.Ample ∧ x.1.ret = none ∧ SubmitReady x.1.state
  | .inr t => t.Ample ∧ FormReady x.2.1

section Runs

variable {f : Form} {cwd : Place} {filename db key : Bytes} {opts : Options} {env : Env}
  {x : Exchange} {i : Client.Turn ⊕ Turn}

theorem FormStage.serving {q : Machine.Call Apply ℤ} {s : Session} {w : World}
    (h : FormStage f cwd filename db key q s w) : s.closed = false := by
  cases h with
  | opening _ _ _ _ _ _ server | reading _ _ _ _ _ _ _ _ _ server | closing _ _ _ server
  | inserting _ _ _ server | replying _ _ _ server | replied _ _ _ _ server | finished _ _ server =>
    simp [Session.closed, server.phase]

/-- The transfer of a form, step by step. -/
theorem form_carries : Carries (formErr opts) opts env cwd
    (fun x => FormStage f cwd filename db key x.1 x.2.1 x.2.2) (fun _ i => FormMove i) FormHelps
    (formLeft f) where
  serving h := h.serving
  wait t h := by
    refine ⟨h.wait t, rfl, fun i hi => hi, fun i hi => ?_⟩
    cases i <;> exact hi
  running hhelps := hhelps.2.1
  client_waits := by
    rintro a s w c h - hact
    refine ⟨by simp [formErr, hact], ?_⟩
    rintro ⟨hample, -, hready⟩
    obtain ⟨r, hr⟩ := h.client_moves opts hample rfl hready
    simp [hact] at hr
  client_acts := by
    rintro a a' s w c sent h ⟨hcalm, hok, hcancel⟩ hact
    obtain ⟨hstage, hclient, hserver⟩ := h.client_step hcalm hok hcancel rfl hact
    exact ⟨hstage, Nat.add_lt_add_of_lt_of_le hclient hserver.le⟩
  server_waits := by
    rintro q s w t h - hact ⟨hample, hready⟩
    obtain ⟨r, hr⟩ := h.server_moves env hample hready
    simp [hact] at hr
  server_acts := by
    rintro q s s' w t es h hcalm hact
    obtain ⟨hstage, hdone, hclient, hlt⟩ := h.server_step hcalm hact
    exact ⟨hstage, hdone, .inl (Nat.add_lt_add_of_le_of_lt hclient.le hlt)⟩

/-- Enough rounds bring the transfer to its end. -/
theorem FormStage.run (h : FormStage f cwd filename db key x.1 x.2.1 x.2.2)
    {moves : List (Client.Turn ⊕ Turn)} (hmoves : ∀ i ∈ moves, FormMove i) :
    let x' := ((exchange (formErr opts) opts env cwd).run x moves).1
    FormStage f cwd filename db key x'.1 x'.2.1 x'.2.2 ∧
      ∀ n, formLeft f x ≤ n → Rounds ampleMoves n moves → formLeft f x' = 0 := by
  have available : ∀ x : Exchange, FormStage f cwd filename db key x.1 x.2.1 x.2.2 →
      0 < formLeft f x → ∃ kind ∈ ampleMoves, ∀ i, kind i → FormHelps x i := by
    intro x hx hpos
    rcases hx.ready hpos with ⟨hret, hready⟩ | hready
    · refine ⟨_, List.mem_cons_self, ?_⟩
      rintro i ⟨c, rfl, hample⟩
      exact ⟨hample, hret, hready⟩
    · refine ⟨_, List.mem_cons_of_mem _ List.mem_cons_self, ?_⟩
      rintro i ⟨t, rfl, hample⟩
      exact ⟨hample, hready⟩
  exact form_carries.advances.run available h (Machine.meets_of_forall x hmoves)

/-- With no step left the transfer is over. -/
theorem FormStage.over {q : Machine.Call Apply ℤ} {s : Session} {w : World}
    (h : FormStage f cwd filename db key q s w) : (formLeft f (q, s, w) = 0 → q.ret ≠ none) ∧
      ∀ ret, q.ret = some ret → ret = 0 ∧ s.phase = .command ∧
        Holding f (resolve cwd filename) (resolve cwd db) key w ∧
        q.state.wire.pending = [] ∧ unread s.tsd s.conn = [] := by
  have hgoes : q.ret = none → formClientLeft f q ≠ 0 →
      (formLeft f (q, s, w) = 0 → q.ret ≠ none) ∧ ∀ ret, q.ret = some ret → ret = 0 ∧
        s.phase = .command ∧ Holding f (resolve cwd filename) (resolve cwd db) key w ∧
        q.state.wire.pending = [] ∧ unread s.tsd s.conn = [] := by
    intro hret hleft
    refine ⟨fun hzero => absurd (Nat.add_eq_zero_iff.mp hzero).1 hleft, fun ret hsome => ?_⟩
    simp [hret] at hsome
  have hsending : ∀ {rest}, Uploading f q.state rest → q.ret = none → formClientLeft f q ≠ 0 := by
    intro rest hclient hret
    cases hclient with
    | named _ client | body _ _ _ _ client | sent _ _ client =>
      simp [formClientLeft, hret, client.place]
  cases h with
  | opening _ _ _ client _ running | reading _ _ _ _ _ _ client _ running | closing client _ running
  | inserting client _ running | replying client _ running =>
    exact hgoes running (hsending client running)
  | replied photo client attends running server stored =>
    exact hgoes running (by simp [formClientLeft, running, client.place])
  | finished pending returned server stored =>
    refine ⟨fun _ => by simp [returned], fun ret hret => ?_⟩
    obtain rfl : (0 : ℤ) = ret := Option.some.inj (returned.symm.trans hret)
    exact ⟨rfl, server.phase, stored, pending, server.unread⟩

end Runs

/-- **The transfer of a form.** A client about to send a form, and a server that has got
its `FILENAME` line, moving in any order on a connection that holds, with any chunks:
enough rounds let the client have its reply, and where it has settled its `err`, that
is 0, both stores of the server hold the form and no byte is unread. -/
theorem form_transfer (opts : Options) (env : Env) (cwd : Place) (f : Form) (a : Apply)
    (s : Session) (w : World) (hclient : a.At (.named f.path) []) (hattends : Attends f a)
    (hserver : s.At .command (Apply.filenameLine f.name)) (herrno : s.errno ≠ .ewouldblock)
    (moves : List (Client.Turn ⊕ Turn)) (hmoves : ∀ i ∈ moves, FormMove i) :
    let x := ((exchange (formErr opts) opts env cwd).run (⟨a, none⟩, s, w) moves).1
    (Rounds ampleMoves (2 * (f.lines.flatten.length + 4)) moves → x.1.ret ≠ none) ∧
    ∀ ret, x.1.ret = some ret → ret = 0 ∧ x.2.1.phase = .command ∧
      Holding f (resolve cwd (s.txtdir ++ f.name)) (resolve cwd s.regdb)
        (f.name.take (f.name.length - 4)) x.2.2 ∧
      x.1.state.wire.pending = [] ∧ unread x.2.1.tsd x.2.1.conn = [] := by
  have start : FormStage f cwd (s.txtdir ++ f.name) s.regdb (f.name.take (f.name.length - 4))
      ⟨a, none⟩ s w :=
    .opening [] (f.lines ++ [dot]) rfl (.named rfl hclient) hattends rfl
      (by simpa using hserver) rfl
      rfl rfl herrno
  have hleft : formLeft f (⟨a, none⟩, s, w) ≤ 2 * (f.lines.flatten.length + 4) := by
    simp only [formLeft, formClientLeft, formServerLeft, hclient.place, hserver.phase]
    split_ifs <;> omega
  obtain ⟨hstage, hrounds⟩ := @FormStage.run _ _ _ _ _ opts env (⟨a, none⟩, s, w) start
    _ hmoves
  obtain ⟨hover, hend⟩ := hstage.over
  exact ⟨fun h => hover (hrounds _ hleft h), hend⟩

/-! ### The forms of the editor -/

theorem formLine_of_isLine {line : Bytes} {n : ℕ} (h : IsLine line n) (hn : n < MAXLINE) :
    FormLine line := by
  obtain ⟨body, rfl, htext, hcommand, hlen⟩ := h
  have hbody : ∀ {c : UInt8}, c = nul ∨ c = newline → c ∉ body := by
    rintro c hc hmem
    exact hc.elim (htext c hmem).1 (htext c hmem).2.1
  have hword : ∀ {lit : Bytes}, newline ∈ lit → 2 ≤ lit.length → lit.length ≤ 5 →
      ¬ lit <+: body ++ [newline] := by
    intro lit hmem hlow hhigh hlit
    rcases hcommand with rfl | hlong
    · have hle := hlit.length_le
      simp only [List.nil_append, List.length_singleton] at hle
      omega
    · have hfront := List.prefix_of_prefix_length_le hlit (List.prefix_append body [newline])
        (hhigh.trans hlong)
      exact hbody (Or.inr rfl) (hfront.subset hmem)
  refine ⟨⟨body, rfl, hbody (Or.inr rfl)⟩, by omega, fun hmem => ?_, hword (by decide) (by decide)
    (by decide), hword (by decide) (by decide) (by decide)⟩
  rcases List.mem_append.mp hmem with hmem | hmem
  · exact hbody (Or.inl rfl) hmem
  · exact absurd hmem (by decide)

theorem length_filename_bounds {e : Entries} (he : e.Fits) :
    4 ≤ e.filename.length ∧ e.filename.length < MAXFILENAME := by
  have hlen := (Client.filename_parts he).2.1
  have hsec := (he.widths (e.sec, 1) (by simp [Entries.widths])).2
  simp only at hsec
  unfold MAXFILENAME
  omega

theorem length_recordOf_le {lines : List Bytes} (hlines : List.Forall₂ IsLine lines lineWidths) :
    (recordOf lines).length ≤ MAXINFOSIZE := by
  have hsize := Client.size_le_of_isLine hlines
  have hlen : (recordOf lines).length = (lines.map fun line => line.length + 1).sum := by
    simp [recordOf, List.length_flatten, Function.comp_def]
  have hsum : (lineWidths.map (· + 1)).sum ≤ MAXINFOSIZE := by decide
  omega

/-- A form that `verify_form` has written, as the server takes it. -/
def writtenForm {session colcode path : Bytes} {e : Entries} {lines : List Bytes} (he : e.Fits)
    (hlines : List.Forall₂ IsLine lines lineWidths)
    (hform : verifyForm (fixInfoPath session colcode) e = some (path, lines)) : Form where
  path := path
  name := e.filename
  lines := lines
  suffix := (length_filename_bounds he).1
  fits := (length_filename_bounds he).2
  text := (Client.filename_parts he).1
  line := by
    intro line hline
    obtain ⟨n, hn, hisLine⟩ := Client.isLine_of_mem hlines hline
    have hall : ∀ n ∈ lineWidths, n < MAXLINE := by decide
    exact formLine_of_isLine hisLine (hall n hn)
  room := length_recordOf_le hlines
  mark := Client.markSent_verifyForm he hform

/-- **Every form the client writes is transferred whole**, as long as the extension of
its photo leaves room on the last line. -/
theorem written_form_transfer (opts : Options) (env : Env) (cwd : Place)
    {session colcode path : Bytes} {e : Entries} {lines : List Bytes} (he : e.Fits)
    (hsession : session.length = 4) (hsessionText : IsText session) (hcolcode : IsText colcode)
    (hfits : PhotoFits colcode e)
    (hform : verifyForm (fixInfoPath session colcode) e = some (path, lines)) (a : Apply)
    (s : Session) (w : World) (hclient : a.At (.named path) [])
    (hdisk : a.disk path = some lines.flatten) (hgoing : a.cancelled = false)
    (hserver : s.At .command (Apply.filenameLine e.filename)) (herrno : s.errno ≠ .ewouldblock)
    (moves : List (Client.Turn ⊕ Turn)) (hmoves : ∀ i ∈ moves, FormMove i) :
    let x := ((exchange (formErr opts) opts env cwd).run (⟨a, none⟩, s, w) moves).1
    (Rounds ampleMoves (2 * (lines.flatten.length + 4)) moves → x.1.ret ≠ none) ∧
    ∀ ret, x.1.ret = some ret → ret = 0 ∧
      x.2.2.file (resolve cwd (s.txtdir ++ e.filename)) = some lines.flatten ∧
      ∃ record, x.2.2.record (resolve cwd s.regdb) (e.filename.take (e.filename.length - 4)) =
          some record ∧
        record.length ≤ MAXINFOSIZE ∧ strings record = lines ∧ lines.length = TXTLINES := by
  intro x
  have hlines := Client.verifyForm_lines he hsession hsessionText hcolcode hfits hform
  obtain ⟨hreturns, hend⟩ := form_transfer opts env cwd (writtenForm he hlines hform) a s w hclient
    ⟨hdisk, hgoing⟩ hserver herrno moves hmoves
  refine ⟨hreturns, fun ret hret => ?_⟩
  obtain ⟨hzero, -, hholding, -⟩ := hend ret hret
  refine ⟨hzero, hholding.text, _, hholding.record, (writtenForm he hlines hform).room, ?_, ?_⟩
  · exact strings_recordOf fun line hline => ((writtenForm he hlines hform).line line hline).nul
  · exact hlines.length_eq.trans (by decide)

/-- The entries of a student. -/
def sampleStudent (photo : Option Bytes) : Entries where
  studentName := ascii "A"
  fatherName := ascii "B"
  motherName := ascii "C"
  group := ascii "Science"
  session := ascii "2005"
  board := ascii "Dhaka"
  classRoll := ascii "1"
  dayOfBirth := ascii "01"
  monthOfBirth := ascii "Jan"
  yearOfBirth := ascii "1990"
  totList := ascii "1"
  sec := ascii "A"
  collegeCode := ascii "0001"
  collegeName := ascii "College"
  previousBoard := ascii "Rajshahi"
  previousYear := ascii "2004"
  previousRoll := ascii "123456"
  previousReg := ascii "123456"
  previousSessStart := ascii "2002"
  previousSessEnd := ascii "2003"
  gender := ascii "Male"
  religion := ascii "Islam"
  subs _ := ascii "101"
  photo := photo

/-- The directory of the college 0001. -/
def sampleDir : Bytes := fixInfoPath (ascii "2005") (ascii "0001")

/-- A client about to send a form. -/
def sampleSubmitter (e : Entries) : Apply where
  place := .named (sampleDir ++ e.filename)
  wire := { conn := { inq := [], eof := false } }
  pos := 0
  cancelled := false
  names := []
  disk := fun _ => (verifyForm sampleDir e).map fun file => file.2.flatten
  buffer := []
  sent := 0

/-- A server that has got the `FILENAME` line. -/
def sampleNamed (e : Entries) : Session :=
  { Session.init (Apply.filenameLine e.filename) false 1120000000 [] [] with
    phase := .command, txtdir := ascii "/txt/", regdb := ascii "/db/1.db" }

/-- A photo whose name has 56 letters behind its last dot. -/
def samplePhotoName : Bytes := ascii "/home/ayub/p." ++ List.replicate 53 120 ++ ascii "jpg"

theorem fits_sampleStudent : (sampleStudent (some samplePhotoName)).Fits := by
  refine ⟨by decide, fun photo hphoto => ?_, by decide, by decide, by decide⟩
  obtain rfl : samplePhotoName = photo := Option.some.inj hphoto
  exact (by decide : IsText samplePhotoName)

/-- Its name is as long as fits the last line. -/
theorem photoFits_sampleStudent :
    PhotoFits (ascii "0001") (sampleStudent (some samplePhotoName)) := by
  have hext :
      ((Client.basename samplePhotoName).bind Client.extension).map List.length = some 56 := by
    decide +kernel
  intro name base ext hname hbase hextension
  obtain rfl : samplePhotoName = name := Option.some.inj hname
  rw [hbase, Option.bind_some, hextension, Option.map_some] at hext
  rw [Option.some.inj hext]
  decide

theorem formMove_photoRound (n : ℕ) : ∀ i ∈ (List.replicate n photoRound).flatten, FormMove i := by
  intro i hi
  obtain ⟨round, hround, hi⟩ := List.mem_flatten.mp hi
  rw [List.eq_of_mem_replicate hround] at hi
  simp only [photoRound, List.mem_cons, List.not_mem_nil, or_false] at hi
  rcases hi with rfl | rfl
  · exact ⟨⟨calm_photoBytes, calm_photoBytes⟩, rfl, rfl⟩
  · exact ⟨calm_photoBytes, calm_photoBytes, rfl, rfl⟩

theorem rounds_photoRound_ample (n : ℕ) :
    Rounds ampleMoves n (List.replicate n photoRound).flatten := by
  refine rounds_replicate (fun kind hkind => ?_) n
  simp only [ampleMoves, List.mem_cons, List.not_mem_nil, or_false] at hkind
  rcases hkind with rfl | rfl
  · exact ⟨_, List.mem_cons_self, _, rfl, ⟨calm_photoBytes, calm_photoBytes⟩, moves_photoBytes,
      moves_photoBytes⟩
  · exact ⟨_, List.mem_cons_of_mem _ List.mem_cons_self, _, rfl,
      ⟨calm_photoBytes, calm_photoBytes, rfl, rfl⟩, moves_photoBytes, moves_photoBytes⟩

/-- The transfer of a form from its start. -/
def sampleTransfer (e : Entries) (n : ℕ) : Exchange :=
  ((exchange (formErr ⟨sampleDir, true⟩) ⟨sampleDir, true⟩ sampleEnv []).run
    (⟨sampleSubmitter e, none⟩, sampleNamed e, World.empty) (List.replicate n photoRound).flatten).1

theorem written_form_transfer_sample :
    let e := sampleStudent (some samplePhotoName)
    let lines := ((verifyForm sampleDir e).map Prod.snd).getD []
    let x := sampleTransfer e (2 * (lines.flatten.length + 4))
    x.1.ret ≠ none ∧ ∀ ret, x.1.ret = some ret → ret = 0 ∧
      x.2.2.file (resolve [] (ascii "/txt/" ++ e.filename)) = some lines.flatten ∧
      ∃ record, x.2.2.record (resolve [] (ascii "/db/1.db"))
          (e.filename.take (e.filename.length - 4)) =
          some record ∧
        record.length ≤ MAXINFOSIZE ∧ strings record = lines ∧ lines.length = TXTLINES := by
  intro e lines
  have hform : verifyForm sampleDir e = some (sampleDir ++ e.filename, lines) := by decide +kernel
  have hdisk : (sampleSubmitter e).disk (sampleDir ++ e.filename) = some lines.flatten := by
    simp [sampleSubmitter, hform]
  obtain ⟨n, hn⟩ : ∃ n, 2 * (lines.flatten.length + 4) = n := ⟨_, rfl⟩
  obtain ⟨hreturns, hend⟩ := @written_form_transfer ⟨sampleDir, true⟩ sampleEnv [] (ascii "2005")
    (ascii "0001") (sampleDir ++ e.filename) e lines fits_sampleStudent (by decide) (by decide)
    (by decide) photoFits_sampleStudent hform (sampleSubmitter e) (sampleNamed e) World.empty
    ⟨rfl, rfl, rfl⟩ hdisk rfl ⟨rfl, by decide +kernel, rfl⟩ (by decide)
    (List.replicate n photoRound).flatten (formMove_photoRound n)
  rw [hn] at hreturns ⊢
  exact ⟨hreturns (rounds_photoRound_ample n), hend⟩

/-- A photo whose name has 57 letters behind its last dot. -/
def sampleExtension : Bytes := ascii "/home/ayub/p." ++ List.replicate 54 120 ++ ascii "jpg"

/-- The last line of the form is cut in two: the record has two strings more than the
form has lines. -/
theorem written_form_cut_sample :
    let e := sampleStudent (some sampleExtension)
    let x := sampleTransfer e 46
    (verifyForm sampleDir e).map (fun file => file.2.length) = some TXTLINES ∧ x.1.ret = some 0 ∧
      x.2.2.file (resolve [] (ascii "/txt/" ++ e.filename)) =
        (verifyForm sampleDir e).map (fun file => file.2.flatten) ∧
      (x.2.2.record (resolve [] (ascii "/db/1.db")) (e.filename.take (e.filename.length - 4))).map
        (fun record => (strings record).length) = some 41 := by
  decide +kernel

end Esif.System
