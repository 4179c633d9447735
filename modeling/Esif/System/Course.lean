import Esif.Client.Marks
import Esif.System.Errand

/-!
# The course of a form

From its announcement to the reply that marks it, the client has one form in hand, and
the server has the announcement ahead of it or the same form in hand.

## Main definitions

* `Errand.InHand` — the form the client works on
* `Nears`, `Closes` — how far the server is with it
* `Trails` — a server behind a client that has fallen silent
* `Course` — where the two sides are, and what the stores hold
* `Stores` — the calls on the stores that a delivery rests on

## Main results

* `Course.client_step`, `Course.server_step` — one step of either side
-/

namespace Esif.System

open Esif.CS Esif.Posix Esif.Server
open Esif.Client (Apply Options Sent basename)
open Esif.Client.Apply (IsSent Silent skipped)

namespace Errand

/-- A form that is not marked. -/
structure Unmarked (e : Errand) (a : Apply) (name : Bytes) : Prop where
  entry : e.Entry name
  disk : a.disk (e.path name) = e.disk (e.path name)

/-- The form the client works on. -/
structure InHand (e : Errand) (a : Apply) (name : Bytes) : Prop where
  names : name :: a.names <:+ e.names
  form : skipped name = false
  unsent : ∀ content, e.disk (e.path name) = some content → ¬ IsSent content
  disk : a.disk (e.path name) = e.disk (e.path name)
  place : a.place.form = some (e.path name)

theorem InHand.unmarked {e : Errand} {a : Apply} {name : Bytes} (h : e.InHand a name) :
    e.Unmarked a name :=
  ⟨⟨h.names.subset List.mem_cons_self, h.form⟩, h.disk⟩

end Errand

/-- The server waits for the announcement of the form, or has taken the lines `taken` of it
into an empty file; `bs` is unread behind. -/
inductive Nears (e : Errand) (w : World) (s : Session) (name : Bytes) (taken : List Bytes)
    (bs : Bytes) : Prop
  | waits (none : taken = []) (server : s.At .command (Apply.filenameLine name ++ bs))
  | takes (server : s.At .body bs) (named : NamedBy s name) (text : s.stfile = taken.flatten)
      (record : RecordOf taken s.regbuf) (created : w.file (e.file name) = some [])

/-- The server has taken all lines of the form, and stores it. -/
inductive Closes (e : Errand) (w : World) (s : Session) (name : Bytes) (lines : List Bytes) : Prop
  | close (server : s.At .close []) (named : NamedBy s name) (text : s.stfile = lines.flatten)
      (record : RecordOf lines s.regbuf) (created : w.file (e.file name) = some [])
  | insert (server : s.At .insert []) (named : NamedBy s name) (record : RecordOf lines s.regbuf)
      (stored : w.file (e.file name) = some lines.flatten)
  | reply (server : s.At .reply []) (held : e.Held w name lines.flatten)

/-- A silent client sends `QUIT` at the most. -/
def Tail (a : Apply) (bs : Bytes) : Prop := bs = [] ∨ bs = ascii "QUIT\n" ∧ a.place = .closed

/-- The server has at most one announcement ahead of it, and `bs` behind. -/
inductive Trails (e : Errand) (a : Apply) (s : Session) (bs : Bytes) : Prop
  | stopped (server : s.Stopped)
  | idle (phase : s.phase = .command) (unread : unread s.tsd s.conn = bs)
  | waits {name : Bytes} (form : e.Unmarked a name) (phase : s.phase = .command)
      (unread : unread s.tsd s.conn = Apply.filenameLine name ++ bs)
  | taking {name : Bytes} (form : e.Unmarked a name) (phase : s.phase = .body)
      (named : NamedBy s name) (unread : unread s.tsd s.conn = bs)
  | leaving {name : Bytes} {leave : Bool} (form : e.Unmarked a name)
      (phase : s.phase = .abandon leave) (named : NamedBy s name)
      (unread : unread s.tsd s.conn = bs)

/-- The client is behind the offer of a photo. -/
inductive IsPhoto : Client.ApplyPlace → Prop
  | reply (data : Bytes) : IsPhoto (.photoReply data)
  | payload (data : Bytes) : IsPhoto (.payload data)
  | result : IsPhoto .photoResult

/-- The client is at no form. -/
inductive IsFree : Client.ApplyPlace → Prop
  | start : IsFree .start
  | next : IsFree .next
  | photo {path : Bytes} (text : OneLine path) : IsFree (.photo path)

/-- Where the two sides are, and what the stores hold of the form in hand. -/
inductive Course (e : Errand) (a : Apply) (s : Session) (w : World) : Prop
  | free (place : IsFree a.place) (client : a.At a.place []) (server : s.At .command [])
  | photo (mode : Mode e.opts a s) (place : IsPhoto a.place) (going : ¬ s.Stopped)
  | announced {name : Bytes} (hand : e.InHand a name) (client : a.At (.named (e.path name)) [])
      (server : Nears e w s name [] [])
  | sending {name : Bytes} (taken todo arrived rest : List Bytes) (hand : e.InHand a name)
      (content : e.disk (e.path name) = some (taken ++ todo).flatten)
      (lines : ∀ line ∈ taken ++ todo, BodyLine line) (split : todo ++ [dot] = arrived ++ rest)
      (client : Sends a rest) (server : Nears e w s name taken arrived.flatten)
  | lost {name : Bytes} (arrived rest : List Bytes) (hand : e.InHand a name)
      (lines : ∀ line ∈ arrived ++ rest, BodyLine line ∨ line = dot) (client : Sends a rest)
      (server : s.At (.abandon false) arrived.flatten ∧ NamedBy s name ∨
        s.At .command arrived.flatten)
  | closing {name : Bytes} (lines : List Bytes) (hand : e.InHand a name)
      (content : e.disk (e.path name) = some lines.flatten) (body : ∀ line ∈ lines, BodyLine line)
      (client : Sends a []) (server : Closes e w s name lines)
  | answered {name photo text : Bytes} (base : OneLine photo) (hand : e.InHand a name)
      (client : a.At (.reply (e.path name) photo) (ebuf SUCCESS)) (server : s.At .command [])
      (content : e.disk (e.path name) = some text) (held : e.Held w name text)
  | gone (bs : Bytes) (client : Silent e.opts a) (tail : Tail a bs) (server : Trails e a s bs)
  | dead (server : s.Stopped)
      (quiet : a.wire.pending = [] ∨
        s.phase = .fault ∧ ∃ data, a.At (.photoReply data) (ebuf SUCCESS))

/-- The photo in hand is written over no form. -/
def PhotoApart (e : Errand) (s : Session) : Prop :=
  ∀ name, e.Entry name → resolve e.cwd s.filename ≠ e.file name

/-- The name in a `BINARY` line fits `tmpname`. -/
def OfferFits (s : Session) : Prop :=
  ascii "BINARY " <+: unread s.tsd s.conn →
    (scanBinary (cstr ((unread s.tsd s.conn).drop 7))).2.length < MAXFILENAME

/-- What a delivery rests on: the text and the record of a form are stored, no photo is written
over a form, and neither the name of a photo nor the lines of a form run over their arrays. -/
def Stores (e : Errand) (s : Session) (t : Turn) : Prop :=
  match s.phase with
  | .command => t.acceptimage = true → OfferFits s
  | .body => CopyInBounds s t
  | .close => t.ok = true
  | .insert => t.ok = true
  | .image _ => PhotoApart e s
  | .payload _ _ _ => PhotoApart e s
  | _ => True

/-! ### What the server reads -/

section Reads

variable {s s' : Session} {t : Turn} {es : List Event} {name line bs : Bytes}

/-- The server reads the name of a form back. -/
theorem scan_filenameLine (hname : IsText name) (hne : name ≠ []) (tmpname : Bytes) :
    scanFilename (cstr ((Apply.filenameLine name).drop 9)) tmpname = name := by
  have hdrop : (Apply.filenameLine name).drop 9 = name ++ [newline] := by
    rw [Apply.filenameLine, List.append_assoc, ← (by decide : (ascii "FILENAME ").length = 9),
      List.drop_left]
  have hcstr : cstr (name ++ [newline]) = name ++ [newline] := by
    refine cstr_eq_self fun hmem => ?_
    rcases List.mem_append.mp hmem with hmem | hmem
    · exact (hname nul hmem).1 rfl
    · exact absurd hmem (by decide)
  have hscan : scanLine (name ++ [newline]) = name := by
    rw [scanLine, List.takeWhile_append_of_pos]
    · simp [carriageReturn, newline]
    · intro b hb
      simp [(hname b hb).2.1, (hname b hb).2.2]
  rw [hdrop, hcstr, scanFilename, hscan, if_neg hne]

/-- Nothing is read: the command loop ends. -/
theorem readCommand_empty (hs : unread s.tsd s.conn = []) (h : readCommand s t = some (s', es)) :
    s'.Stopped ∧ ∀ event ∈ es, ¬ event.IsEffect := by
  have hshort : ∀ {ret : ℤ} {line : Bytes} {m : Session},
      s.readline t.reads = some (ret, line, m) → ret ≤ 0 := by
    intro ret line m hread
    rcases (Session.readline_cases hread).ret with herr | ⟨hzero, -⟩ | ⟨-, hne, hpiece, -⟩
    · omega
    · omega
    · rw [hs, Lines.piece_nil] at hpiece
      exact absurd hpiece hne
  obtain ⟨hdone, -, hquiet⟩ := (readCommand_step h).leaves fun hread hret => by
    have hle := hshort hread
    omega
  exact ⟨Or.inl hdone, hquiet⟩

section Line

variable (hcon : t.Connected) (hs : unread s.tsd s.conn = line ++ bs)
  (hwhole : Lines.Whole isNewline (MAXLINE - 1) line) (hne : line ≠ [])

include hcon hs hwhole hne

/-- A line that is no command ends the session without a word. -/
theorem readCommand_mute (hform : ¬ ascii "FILENAME " <+: line)
    (hphoto : ¬ ascii "BINARY " <+: line) (h : readCommand s t = some (s', es)) :
    s'.Stopped ∧ sentBytes es = [] ∧ ∀ event ∈ es, ¬ event.IsEffect := by
  obtain ⟨hdone, hsent, hquiet⟩ := (readCommand_step h).leaves fun hread _ => by
    obtain ⟨-, rfl, -⟩ := readline_front hcon hs hwhole hne hread
    exact ⟨hphoto, hform⟩
  exact ⟨Or.inl hdone, hsent, hquiet⟩

/-- An offer is answered before the session can stop. -/
theorem readCommand_offered (hword : ascii "BINARY " <+: line)
    (h : readCommand s t = some (s', es)) :
    (∀ event ∈ es, ¬ event.IsEffect) ∧
      (s'.Stopped → sentBytes es = [] ∨ sentBytes es = ebuf SUCCESS ∧ s'.phase = .fault) := by
  simp only [readCommand, Option.bind_eq_bind, Option.bind_eq_some_iff] at h
  obtain ⟨⟨ret, got, m⟩, hread, h⟩ := h
  obtain ⟨hpos, rfl, -⟩ := readline_front hcon hs hwhole hne hread
  have hline := Session.readline_cases hread
  dsimp only at h
  split_ifs at h with herrno hquit hshort hbinary hform
  · obtain ⟨rfl, rfl⟩ := Option.some.inj h
    exact ⟨by simp, fun _ => Or.inl rfl⟩
  · obtain ⟨rfl, rfl⟩ := Option.some.inj h
    exact ⟨by simp [Event.IsEffect], fun _ => Or.inl rfl⟩
  · obtain ⟨rfl, rfl⟩ := Option.some.inj h
    exact ⟨by simp, fun _ => Or.inl rfl⟩
  · obtain ⟨⟨s'', es'⟩, hbin, heq⟩ := Option.bind_eq_some_iff.mp h
    obtain ⟨rfl, rfl⟩ : s'' = s' ∧ _ = es := by simpa using heq
    simp only [binary] at hbin
    split_ifs at hbin with hoff
    · obtain ⟨⟨ret', m', sent⟩, hw, heq⟩ := Option.map_eq_some_iff.mp hbin
      obtain ⟨-, rfl, errno, rfl⟩ := Session.writen_calm hcon.writes hw
      obtain ⟨rfl, rfl⟩ : _ = s'' ∧ _ = es' := by simpa using heq
      exact ⟨by simp [Event.IsEffect], fun hstopped => by simp [Session.Stopped] at hstopped⟩
    · obtain ⟨⟨ret', m', sent⟩, hw, heq⟩ := Option.map_eq_some_iff.mp hbin
      obtain ⟨-, rfl, errno, rfl⟩ := Session.writen_calm hcon.writes hw
      obtain ⟨imgsize, tmpname, hscan⟩ :
          ∃ imgsize tmpname, scanBinary (cstr (m.buffer.drop 7)) = (imgsize, tmpname) :=
        ⟨_, _, rfl⟩
      simp only [hscan] at heq
      split_ifs at heq
      all_goals obtain ⟨rfl, rfl⟩ := Prod.mk.inj heq
      · exact ⟨by simp [Event.IsEffect], fun hstopped => by simp [Session.Stopped] at hstopped⟩
      -- the name overruns `tmpname`: the welcome has been sent, and the server is lost
      · exact ⟨by simp [Event.IsEffect], fun _ => Or.inr ⟨by simp [sentBytes], rfl⟩⟩
      · exact ⟨by simp [Event.IsEffect], fun hstopped => by simp [Session.Stopped] at hstopped⟩
  · obtain ⟨rfl, rfl⟩ := Option.some.inj h
    exact ⟨by simp, fun _ => Or.inl rfl⟩
  · rw [hline.strncmp_eq hpos (by decide)] at hbinary
    exact absurd (List.isPrefixOf_iff_prefix.mpr hword) hbinary

end Line

/-- The body loop stores nothing, and keeps the name in hand. -/
theorem bodyStep_keeps (h : BodyStep s t s' es) (hnamed : NamedBy s name) :
    NamedBy s' name ∧ sentBytes es = [] ∧ ∀ event ∈ es, ¬ event.IsEffect := by
  cases h with
  | cut hread =>
    have hnamed' := hnamed.of_line hread
    exact ⟨hnamed', rfl, by simp⟩
  | dot hread | quit hread | failed hread | full hread | overlong hread | line hread =>
    have hnamed' := hnamed.of_line hread
    exact ⟨⟨hnamed'.1, hnamed'.2⟩, rfl, by simp [Event.IsEffect]⟩

/-- What the announcement of a form brings about. -/
inductive Opened (s : Session) (name bs : Bytes) (s' : Session) (es : List Event) : Prop
  | stopped (server : s'.Stopped) (quiet : ∀ event ∈ es, ¬ event.IsEffect)
  | opened (phase : s'.phase = .body) (past : s.Past bs s') (named : NamedBy s' name)
      (text : s'.stfile = []) (record : s'.regbuf = []) (start : ℕ)
      (events : es = [.command start (Apply.filenameLine name), .openTrunc s'.filename])

theorem readCommand_names (hcon : t.Connected) (hname : IsText name) (hskip : skipped name = false)
    (hs : unread s.tsd s.conn = Apply.filenameLine name ++ bs)
    (h : readCommand s t = some (s', es)) :
    Opened s name bs s' es ∧ sentBytes es = [] := by
  have hne : name ≠ [] := by
    rintro rfl
    exact absurd hskip (by decide)
  have hlen : name.length ≤ Client.MAXFILENAMELEN := by
    simp only [skipped, Bool.or_eq_false_iff, decide_eq_false_iff_not, not_lt] at hskip
    exact hskip.1.2
  have hwhole := whole_name (fun hmem => (hname newline hmem).2.1 rfl) hlen
  have hword : ascii "FILENAME " <+: Apply.filenameLine name := by
    rw [Apply.filenameLine, List.append_assoc]
    exact List.prefix_append _ _
  have hfront : ∀ {ret : ℤ} {line : Bytes} {m : Session},
      s.readline t.reads = some (ret, line, m) → line = Apply.filenameLine name ∧ s.Past bs m := by
    intro ret line m hread
    obtain ⟨-, hline, hpast⟩ := readline_front hcon hs hwhole (by simp [Apply.filenameLine]) hread
    exact ⟨hline, hpast⟩
  have step := readCommand_step h
  cases step with
  | leave hread hes =>
    rcases hes with rfl | ⟨-, rfl⟩
    · exact ⟨.stopped (Or.inl rfl) (by simp), rfl⟩
    · exact ⟨.stopped (Or.inl rfl) (by simp [Event.IsEffect]), rfl⟩
  | misnamed => exact ⟨.stopped (Or.inr rfl) (by simp [Event.IsEffect]), rfl⟩
  | closed => exact ⟨.stopped (Or.inl rfl) (by simp [Event.IsEffect]), rfl⟩
  -- the line is no offer of a photo
  | refused hread _ hphoto | unnamed hread _ hphoto | overlong hread _ hphoto
  | image hread _ hphoto =>
    obtain ⟨rfl, -⟩ := hfront hread
    exact absurd hword (not_form_of_photo hphoto)
  | form hread _ _ hscan =>
    obtain ⟨rfl, hpast⟩ := hfront hread
    rw [scan_filenameLine hname hne] at hscan
    subst hscan
    exact ⟨.opened rfl ⟨hpast.unread, hpast.eof⟩ ⟨rfl, rfl⟩ rfl rfl _ rfl, rfl⟩

end Reads

/-! ### A step of the client -/

section Client

variable {e : Errand} {a a' : Apply} {s : Session} {w : World} {c : Client.Turn}
  {sent : List Sent} {name bs : Bytes} {taken rest rest' : List Bytes}

theorem Errand.Unmarked.same (h : e.Unmarked a name) (hdisk : a'.disk = a.disk) :
    e.Unmarked a' name :=
  ⟨h.entry, by rw [hdisk, h.disk]⟩

/-- The form stays in hand while it is sent. -/
theorem Errand.InHand.sends (hcalm : c.Calm) (h : e.InHand a name) (client : Sends a rest)
    (client' : Sends a' rest') (hact : a.act e.opts c = some (a', sent)) :
    e.InHand a' name ∧ a'.disk = a.disk ∧ a'.names = a.names := by
  cases client with
  | @body path photo todo _ _ _ hat =>
    simp only [Apply.act, hat.place] at hact
    obtain ⟨hdisk, hnames, hform⟩ := Apply.sendLine_keeps hact
    have hpath : path = e.path name := by
      have hplace := h.place
      rw [hat.place] at hplace
      exact Option.some.inj hplace
    have hplace : a'.place.form = some (e.path name) := by
      cases client' with
      | @body path' _ _ _ _ _ hat' =>
        have heq := hform path' (by rw [hat'.place]; rfl)
        rw [hat'.place, ← hpath, ← heq]
        rfl
      | @reply path' _ _ _ hat' =>
        have heq := hform path' (by rw [hat'.place]; rfl)
        rw [hat'.place, ← hpath, ← heq]
        rfl
    exact ⟨⟨hnames ▸ h.names, h.form, h.unsent, by rw [hdisk, h.disk], hplace⟩, hdisk, hnames⟩
  | reply _ _ hat =>
    simp [Apply.act, hat.place, Apply.readFormReply, Apply.readline_waits hcalm hat] at hact

theorem Nears.receive {place : Client.ApplyPlace} (h : Nears e w s name taken bs)
    (hplace : place ≠ .closed) (bs' : Bytes) :
    Nears e w (Session.receive bs' (place == .closed) s) name taken (bs ++ bs') := by
  cases h with
  | waits none server =>
    refine .waits none ?_
    rw [← List.append_assoc]
    exact at_sent server hplace bs'
  | takes server named text record created =>
    exact .takes (at_sent server hplace bs') named text record created

theorem Trails.same (h : Trails e a s bs) (hdisk : a'.disk = a.disk) : Trails e a' s bs := by
  cases h with
  | stopped server => exact .stopped server
  | idle phase unread => exact .idle phase unread
  | waits form phase unread => exact .waits (form.same hdisk) phase unread
  | taking form phase named unread => exact .taking (form.same hdisk) phase named unread
  | leaving form phase named unread => exact .leaving (form.same hdisk) phase named unread

theorem Trails.receive (h : Trails e a s bs) (bs' : Bytes) (closed : Bool) :
    Trails e a (Session.receive bs' closed s) (bs ++ bs') := by
  have hunread := unread_receive bs' closed s
  cases h with
  | stopped server => exact .stopped server
  | idle phase unread => exact .idle phase (by rw [hunread, unread])
  | waits form phase unread =>
    exact .waits form phase (by rw [hunread, unread, List.append_assoc])
  | taking form phase named unread => exact .taking form phase named (by rw [hunread, unread])
  | leaving form phase named unread => exact .leaving form phase named (by rw [hunread, unread])

/-- The client falls silent behind an announcement. -/
theorem Nears.trails (h : Nears e w s name taken []) (hform : e.Unmarked a name) :
    Trails e a s [] := by
  cases h with
  | waits _ server => exact .waits hform server.phase server.unread
  | takes server named => exact .taking hform server.phase named server.unread

/-- A client that has just fallen silent has sent nothing. -/
theorem Course.quits (client : Silent e.opts a') (server : Trails e a s [])
    (hdisk : a'.disk = a.disk) (closed : Bool) :
    Course e a' (Session.receive [] closed s) w :=
  .gone [] client (Or.inl rfl) ((server.same hdisk).receive [] closed)

/-- The client looks at the next entry of the directory. -/
theorem Course.next_step (hcalm : c.Calm) (hbooks : e.Books a w) (client : a.At .next [])
    (server : s.At .command []) (hact : a.nextFile e.opts c = some (a', sent)) :
    Course e a' (Session.receive (sent.flatMap Sent.bytes) (a'.place == .closed) s) w := by
  have hidle : Trails e a s [] := .idle server.phase server.unread
  rcases Apply.nextFile_cases hact with
    ⟨rfl, hplace, hwire, -, -, hdisk, -⟩ |
      ⟨name, names, content, flag, hnames, hskip, hcontent, hunsent, hsend⟩
  · rcases hplace with hplace | hplace | hplace
    · exact Course.quits (.leaving (Or.inl hplace)) hidle hdisk _
    · have hplace := hplace.trans client.place
      refine .free (hplace ▸ .next) ⟨rfl, ?_, ?_⟩ (at_quiet server (by simp [hplace]))
      · rw [hwire, client.pending]
      · rw [hwire, client.eof]
    · exact Course.quits (.leaving (Or.inr (Or.inr hplace))) hidle hdisk _
  · obtain ⟨hpast, hplace, -, rfl⟩ := Apply.send_calm hcalm hsend
    have hat : a'.At (.named (e.path name)) [] :=
      ⟨hplace, hpast.pending.trans client.pending, hpast.eof.trans client.eof⟩
    -- a form that is announced is not marked, so it is as it was
    have hcontent : a.disk (e.path name) = some content := hcontent
    have hsame : a.disk (e.path name) = e.disk (e.path name) := by
      refine (hbooks.rest name (by simp [hnames])).resolve_right ?_
      rintro ⟨marked, hmarked, hsent⟩
      rw [hcontent] at hmarked
      exact hunsent (Option.some.inj hmarked ▸ hsent)
    have hhand : e.InHand a' name := by
      refine ⟨?_, hskip, ?_, ?_, ?_⟩
      · rw [hpast.names, ← hnames]
        exact hbooks.names
      · intro content' hcontent'
        rw [← hsame, hcontent] at hcontent'
        exact Option.some.inj hcontent' ▸ hunsent
      · rw [hpast.disk]
        exact hsame
      · rw [hplace]
        rfl
    refine .announced hhand hat (.waits rfl ?_)
    simpa [Sent.bytes] using at_sent server (by simp [hplace]) (Apply.filenameLine name)

/-- The client offers a photo. -/
theorem Course.offer_step {path : Bytes} (hcalm : c.Calm) (htext : OneLine path)
    (hfits : ∀ data base, a.openFile path c = some data → basename path = some base →
      (Apply.binaryLine data.length base).length < MAXLINE)
    (client : a.At (.photo path) []) (server : s.At .command [])
    (hact : a.openPhoto path c = some (a', sent)) :
    Course e a' (Session.receive (sent.flatMap Sent.bytes) (a'.place == .closed) s) w := by
  have hmode := (@Mode.offer_step e.opts _ _ _ _ _ _ hcalm htext hfits client server hact).1
  unfold Apply.openPhoto at hact
  split at hact
  · obtain ⟨rfl, rfl⟩ := Prod.mk.inj (Option.some.inj hact)
    exact .free .next ⟨rfl, client.pending, client.eof⟩ (at_quiet server (by simp))
  · split at hact
    · obtain ⟨rfl, rfl⟩ := Prod.mk.inj (Option.some.inj hact)
      have hidle : Trails e a s [] := .idle server.phase server.unread
      refine Course.quits ?_ hidle ?_ _
      · exact .leaving (Or.inr (Or.inr rfl))
      · rfl
    · obtain ⟨-, hplace, -, -⟩ := Apply.send_calm hcalm hact
      refine .photo hmode (hplace ▸ .reply _) ?_
      have hphase : (Session.receive (sent.flatMap Sent.bytes) (a'.place == .closed) s).phase =
          .command := server.phase
      simp [Session.Stopped, hphase]

/-- Behind the announcement. -/
theorem Course.open_step (hkeeps : KeepsOn e.opts a (e.path name) c) (hhand : e.InHand a name)
    (client : a.At (.named (e.path name)) []) (server : Nears e w s name [] [])
    (hact : a.openForm (e.path name) c = (a', sent)) :
    Course e a' (Session.receive (sent.flatMap Sent.bytes) (a'.place == .closed) s) w := by
  have htrails : Trails e a s [] := server.trails hhand.unmarked
  -- the user cancels: `QUIT` is sent behind the announcement
  by_cases hgoing : a.cancelled = true
  · simp only [Apply.openForm, hgoing, if_true] at hact
    obtain ⟨rfl, rfl⟩ := Prod.mk.inj hact
    refine Course.quits ?_ htrails ?_ _
    · exact .leaving (Or.inl rfl)
    · rfl
  have hsame : ({ a with cancelled := c.cancel } : Apply).openFile (e.path name) c =
      a.openFile (e.path name) c := rfl
  have hgoes : a.cancelled = false := by simpa using hgoing
  simp only [Apply.openForm, hgoes, Bool.false_eq_true, if_false, hsame] at hact
  -- a form that can be opened is sent from its first line on
  have hsends : ∀ content, a.openFile (e.path name) c = some content → IsForm content →
      (c.cancel = false ∨ content = []) →
      Course e a' (Session.receive (sent.flatMap Sent.bytes) (a'.place == .closed) s) w := by
    rintro content hfile ⟨lines, rfl, hlines⟩ hcancel
    have hdisk : e.disk (e.path name) = some lines.flatten := by
      rw [← hhand.disk]
      simp only [Apply.openFile] at hfile
      split_ifs at hfile
      exact hfile
    simp only [hfile] at hact
    obtain ⟨rfl, rfl⟩ := Prod.mk.inj hact
    refine .sending [] lines [] (lines ++ [dot])
      ⟨hhand.names, hhand.form, hhand.unsent, hhand.disk, rfl⟩ hdisk hlines rfl
      (.body lines rfl ?_ oneLine_nil ⟨rfl, client.pending, client.eof⟩)
      (by simpa using server.receive (by simp) [])
    refine hcancel.symm.imp_left fun hnone => ?_
    cases lines with
    | nil => rfl
    | cons line lines => simp [(hlines line List.mem_cons_self).ne_nil] at hnone
  -- what keeps the two sides in step: the form is sent whole, or none follows it
  rcases hkeeps with hcancelled | ⟨content, hfile, hform, hcancel⟩ | ⟨hall, hcut⟩
  · exact absurd hcancelled hgoing
  · exact hsends content hfile hform hcancel
  · cases hfile : a.openFile (e.path name) c with
    | none =>
      simp only [hfile] at hact
      obtain ⟨rfl, rfl⟩ := Prod.mk.inj hact
      refine Course.quits ?_ htrails ?_ _
      · exact .through rfl hall
      · rfl
    | some content =>
      by_cases hcontent : content = []
      · exact hsends content hfile ⟨[], by simp [hcontent], by simp⟩ (Or.inr hcontent)
      · simp only [hfile] at hact
        obtain ⟨rfl, rfl⟩ := Prod.mk.inj hact
        refine Course.quits ?_ htrails ?_ _
        · exact .cancelling rfl hcontent (hcut.resolve_left (by simp [hfile])) hall
        · rfl

/-- The client sends a block of the photo, or reads what became of it. -/
theorem Course.block_step {arrived rest extra : Bytes} {left : ℕ} (hcalm : c.Calm)
    (client : SendsPhoto a rest extra) (server : ReadsPhoto s left extra) (holds : s.Holds arrived)
    (room : arrived.length + rest.length ≤ left) (fits : left < 2 ^ 31) (going : ¬ s.Stopped)
    (hact : a.act e.opts c = some (a', sent)) :
    Course e a' (Session.receive (sent.flatMap Sent.bytes) (a'.place == .closed) s) w := by
  have hmode := (Mode.block_step hcalm client server holds room fits hact).1
  rcases client.step hcalm hact with ⟨rest', hclient, -⟩ | hat
  · refine .photo hmode ?_ going
    cases hclient with
    | welcome client => exact client.place ▸ .reply _
    | blocks client => exact client.place ▸ .payload _
    | sent _ client => exact client.place ▸ .result
  · -- the reply was sent when nothing was owed
    cases server with
    | image _ none | payload _ none | replying _ _ none =>
      subst none
      simp [Apply.act, hat.place, Apply.readPhotoResult, Apply.readline_waits hcalm hat] at hact
    | @replied code phase result reply zero =>
      have hreply : Apply.Reply code (ebuf code) := by
        rcases result with rfl | rfl
        · exact reply_success
        · exact @reply_ebuf E_ERROR (by decide) (by decide)
      obtain ⟨hpast, hplace, -, rfl⟩ := Apply.readPhotoResult_reply hcalm hreply
        (by rwa [reply, ← List.append_nil (ebuf code)] at hat) hact
      have hholds : s.Holds [] := by
        rwa [List.eq_nil_of_length_eq_zero (by omega : arrived.length = 0)] at holds
      exact .free (hplace ▸ .next) (hpast.at hat rfl)
        (at_quiet (at_of_holds phase hholds) (by simp [hplace]))

/-- The client reads the reply to its form, and marks it. -/
theorem Course.reply_step {photo text : Bytes} (hcalm : c.Calm) (hbooks : e.Books a w)
    (base : OneLine photo) (hhand : e.InHand a name)
    (client : a.At (.reply (e.path name) photo) (ebuf SUCCESS)) (server : s.At .command [])
    (content : e.disk (e.path name) = some text) (held : e.Held w name text)
    (hact : a.readFormReply e.opts (e.path name) photo c = some (a', sent)) :
    Course e a' (Session.receive (sent.flatMap Sent.bytes) (a'.place == .closed) s) w ∧
      e.Books a' w := by
  obtain ⟨ret', line', wire', -, -, hnames, hdisk⟩ := Apply.readFormReply_marks hact
  have hmarked : e.Books a' w := by
    rcases hdisk with hdisk | ⟨-, text', marked, htext, hmark, hdisk⟩
    · exact hbooks.quiet hdisk (hnames ▸ List.suffix_rfl)
    · obtain rfl : text = text' := by
        rw [hhand.disk, content] at htext
        exact Option.some.inj htext
      exact hbooks.mark hhand.names hhand.form content held hmark hdisk hnames
  obtain ⟨rfl, ret, line, wire, hread, disk, place, rfl, hplace⟩ := Apply.readFormReply_cases hact
  have hpending : a.wire.pending = ebuf SUCCESS ++ [] := by rw [client.pending, List.append_nil]
  obtain ⟨-, -, hrest, heof⟩ := Apply.readline_reply hcalm reply_success hpending hread
  refine ⟨?_, hmarked⟩
  rcases hplace with rfl | rfl | ⟨-, rfl⟩
  · exact .free .next ⟨rfl, hrest, heof.trans client.eof⟩ (at_quiet server (by simp))
  · exact .gone [] (.leaving (Or.inr (Or.inr rfl))) (Or.inl rfl)
      (.idle server.phase (by rw [unread_receive, server.unread]; rfl))
  · exact .free (.photo base) ⟨rfl, hrest, heof.trans client.eof⟩ (at_quiet server (by simp))

/-- A silent client goes on to its `QUIT`. -/
theorem Course.silent_step (hcalm : c.Calm) (client : Silent e.opts a) (tail : Tail a bs)
    (server : Trails e a s bs) (hact : a.act e.opts c = some (a', sent)) :
    Course e a' (Session.receive (sent.flatMap Sent.bytes) (a'.place == .closed) s) w := by
  obtain ⟨hdisk, -⟩ := Apply.act_keeps client.not_isReply hact
  have hsilent := (client.step hact).1
  rcases client.sends hcalm hact with ⟨rfl, hopen⟩ | ⟨rfl, hopen, hclosed⟩
  · rcases tail with rfl | ⟨-, hplace⟩
    · exact Course.quits hsilent server hdisk _
    · simp [Apply.act, hplace] at hact
  · obtain rfl : bs = [] := tail.resolve_right fun h => hopen h.2
    have htrails := (server.same hdisk).receive (ascii "QUIT\n") (a'.place == .closed)
    exact .gone (ascii "QUIT\n") hsilent (Or.inr ⟨rfl, hclosed⟩)
      (by simpa [Sent.bytes] using htrails)

/-- The two sides behind the offer of a photo. -/
inductive PhotoMode (a : Apply) (s : Session) : Prop
  | offered {data base : Bytes} (text : OneLine base)
      (fits : (Apply.binaryLine data.length base).length < MAXLINE)
      (client : a.At (.photoReply data) [])
      (server : s.At .command (Apply.binaryLine data.length base))
  | refused {data : Bytes} (client : a.At (.photoReply data) (ebuf E_IMG_NOSUPPORT))
      (server : s.At .command [])
  | photo (arrived rest extra : Bytes) (left : ℕ) (client : SendsPhoto a rest extra)
      (server : ReadsPhoto s left extra) (holds : s.Holds arrived)
      (room : arrived.length + rest.length ≤ left) (fits : left < 2 ^ 31)

theorem Mode.photoMode {opts : Options} (mode : Mode opts a s) (place : IsPhoto a.place)
    (going : ¬ s.Stopped) : PhotoMode a s := by
  have hother : ∀ {here}, a.place = here → ¬ IsPhoto here → PhotoMode a s := by
    intro here hplace hnot
    exact absurd (hplace ▸ place) hnot
  cases mode with
  | stopped server => exact absurd server going
  | silent client =>
    cases client with
    | leaving place =>
      rcases place with hplace | hplace | hplace
      · exact hother hplace nofun
      · exact hother hplace nofun
      · exact hother hplace nofun
    | through place => exact hother place nofun
    | cancelling place => exact hother place nofun
  | idle free =>
    rcases free with hplace | hplace | ⟨path, hplace, -⟩
    · exact hother hplace nofun
    · exact hother hplace nofun
    · exact hother hplace nofun
  | announced client => exact hother client.place nofun
  | sending _ _ _ _ _ client | lost _ _ _ client | closing client =>
    cases client with
    | body _ _ _ _ client => exact hother client.place nofun
    | reply _ _ client => exact hother client.place nofun
  | answered _ client => exact hother client.place nofun
  | offered text fits client server => exact .offered text fits client server
  | refused client server => exact .refused client server
  | photo arrived rest extra left client server holds room fits =>
    exact .photo arrived rest extra left client server holds room fits

/-- The client goes on with the photo. -/
theorem Course.photo_step (hcalm : c.Calm) (mode : PhotoMode a s) (going : ¬ s.Stopped)
    (hact : a.act e.opts c = some (a', sent)) :
    Course e a' (Session.receive (sent.flatMap Sent.bytes) (a'.place == .closed) s) w := by
  cases mode with
  | offered text fits client =>
    simp [Apply.act, client.place, Apply.readPhotoReply, Apply.readline_waits hcalm client] at hact
  | refused client server =>
    simp only [Apply.act, client.place] at hact
    have hreply : Apply.Reply E_IMG_NOSUPPORT (ebuf E_IMG_NOSUPPORT) :=
      @reply_ebuf E_IMG_NOSUPPORT (by decide) (by decide)
    have hpending : a.wire.pending = ebuf E_IMG_NOSUPPORT ++ [] := by
      rw [client.pending, List.append_nil]
    obtain ⟨hpast, hplace, -, rfl⟩ :=
      Apply.readPhotoReply_refused hcalm (by decide) hreply hpending hact
    exact .free (hplace ▸ .next) (hpast.at client rfl) (at_quiet server (by simp [hplace]))
  | photo arrived rest extra left client server holds room fits =>
    exact Course.block_step hcalm client server holds room fits going hact

/-- Behind a server that has stopped nothing is marked. -/
theorem Course.dead_step (hcalm : c.Calm) (server : s.Stopped)
    (quiet : a.wire.pending = [] ∨
      s.phase = .fault ∧ ∃ data, a.At (.photoReply data) (ebuf SUCCESS))
    (hact : a.act e.opts c = some (a', sent)) :
    Course e a' (Session.receive (sent.flatMap Sent.bytes) (a'.place == .closed) s) w ∧
      a'.disk = a.disk ∧ a'.names <:+ a.names := by
  rcases quiet with hnone | ⟨-, data, client⟩
  · obtain ⟨hdisk, hnames, hpending⟩ := Apply.act_waiting hnone hact
    exact ⟨.dead server (Or.inl hpending), hdisk, hnames⟩
  · simp only [Apply.act, client.place] at hact
    have hpending : a.wire.pending = ebuf SUCCESS ++ [] := by rw [client.pending, List.append_nil]
    obtain ⟨hpast, -⟩ := Apply.readPhotoReply_calm hcalm reply_success hpending hact
    exact ⟨.dead server (Or.inl hpast.pending), hpast.disk, hpast.names ▸ List.suffix_rfl⟩

/-- **A step of the client.** -/
theorem Course.client_step (hcalm : c.Calm) (hkeeps : KeepsStep e.opts a c)
    (hbooks : e.Books a w) (h : Course e a s w) (hact : a.act e.opts c = some (a', sent)) :
    Course e a' (Session.receive (sent.flatMap Sent.bytes) (a'.place == .closed) s) w ∧
      e.Books a' w := by
  -- the books change only where a reply is read
  have hquiet : ¬ a.place.IsReply → e.Books a' w := by
    intro hplace
    obtain ⟨hdisk, hnames⟩ := Apply.act_keeps hplace hact
    exact hbooks.quiet hdisk hnames
  have hplain : ∀ {place}, a.place = place → (∀ path photo, place ≠ .reply path photo) →
      e.Books a' w := by
    rintro place rfl hne
    refine hquiet ?_
    rintro ⟨path, photo', hplace⟩
    exact hne path photo' hplace
  cases h with
  | free place client server =>
    generalize hat : a.place = here at place client
    cases place with
    | start =>
      refine ⟨?_, hplain hat (by simp)⟩
      by_cases hquit : (a.cancelled || !c.ok) = true
      · simp only [Apply.act, hat, if_pos hquit, Option.some.injEq] at hact
        obtain ⟨rfl, rfl⟩ := Prod.mk.inj hact
        have hidle : Trails e a s [] := .idle server.phase server.unread
        refine Course.quits ?_ hidle ?_ _
        · exact .leaving (Or.inl rfl)
        · rfl
      · simp only [Apply.act, hat, if_neg hquit, Option.some.injEq] at hact
        obtain ⟨rfl, rfl⟩ := Prod.mk.inj hact
        exact .free .next ⟨rfl, client.pending, client.eof⟩ (at_quiet server (by simp))
    | next =>
      refine ⟨?_, hplain hat (by simp)⟩
      simp only [Apply.act, hat] at hact
      exact Course.next_step hcalm hbooks client server hact
    | photo text =>
      refine ⟨?_, hplain hat (by simp)⟩
      simp only [Apply.act, hat] at hact
      simp only [KeepsStep, hat] at hkeeps
      exact Course.offer_step hcalm text hkeeps client server hact
  | photo mode place going =>
    refine ⟨Course.photo_step hcalm (mode.photoMode place going) going hact, hquiet ?_⟩
    rintro ⟨path, photo, hplace⟩
    rw [hplace] at place
    cases place
  | announced hand client server =>
    refine ⟨?_, hplain client.place (by simp)⟩
    simp only [Apply.act, client.place, Option.some.injEq] at hact
    simp only [KeepsStep, client.place] at hkeeps
    exact Course.open_step hkeeps hand client server hact
  | sending taken todo arrived rest hand content lines split client server =>
    have hrest : ∀ line ∈ rest, BodyLine line ∨ line = dot := by
      intro line hline
      have hmem : line ∈ todo ++ [dot] := by
        rw [split]
        exact List.mem_append_right _ hline
      rcases List.mem_append.mp hmem with hmem | hmem
      · exact Or.inl (lines line (List.mem_append_right _ hmem))
      · exact Or.inr (List.mem_singleton.mp hmem)
    obtain ⟨moved, rest', rfl, hsent, hclient, -, hplace⟩ := client.step hcalm hrest hact
    obtain ⟨hhand, hdisk, hnames⟩ := hand.sends hcalm client hclient hact
    refine ⟨.sending taken todo (arrived ++ moved) rest' hhand content lines
      (by rw [split, List.append_assoc]) hclient ?_, hbooks.quiet hdisk (hnames ▸ List.suffix_rfl)⟩
    rw [hsent, List.flatten_append]
    exact server.receive hplace _
  | lost arrived rest hand lines client server =>
    have hrest : ∀ line ∈ rest, BodyLine line ∨ line = dot := fun line hline =>
      lines line (List.mem_append_right _ hline)
    obtain ⟨moved, rest', rfl, hsent, hclient, -, hplace⟩ := client.step hcalm hrest hact
    obtain ⟨hhand, hdisk, hnames⟩ := hand.sends hcalm client hclient hact
    refine ⟨.lost (arrived ++ moved) rest' hhand (by simpa using lines) hclient ?_,
      hbooks.quiet hdisk (hnames ▸ List.suffix_rfl)⟩
    rw [hsent, List.flatten_append]
    exact server.imp (fun h => ⟨at_sent h.1 hplace _, h.2⟩) fun hat => at_sent hat hplace _
  | closing lines hand content body client server =>
    cases client with
    | body todo hleft => simp at hleft
    | reply hnone text client =>
      simp [Apply.act, client.place, Apply.readFormReply, Apply.readline_waits hcalm client] at hact
  | answered base hand client server content held =>
    simp only [Apply.act, client.place] at hact
    exact Course.reply_step hcalm hbooks base hand client server content held hact
  | gone bs client tail server =>
    exact ⟨Course.silent_step hcalm client tail server hact, hquiet client.not_isReply⟩
  | dead server quiet =>
    obtain ⟨hcourse, hdisk, hnames⟩ := Course.dead_step hcalm server quiet hact
    exact ⟨hcourse, hbooks.quiet hdisk hnames⟩

end Client

/-! ### A step of the server -/

section Server

variable {e : Errand} {env : Env} {a : Apply} {s s' : Session} {w : World} {t : Turn}
  {es : List Event} {name bs : Bytes} {taken rest : List Bytes}

theorem not_touches_of_not_isEffect {event : Event} (h : ¬ event.IsEffect) (cwd place : Place) :
    ¬ event.TouchesFile cwd place ∧ ∀ key, ¬ event.TouchesRecord cwd place key := by
  cases event <;> simp_all [Event.IsEffect, Event.TouchesFile, Event.TouchesRecord]

theorem after_of_not_isEffect (h : ∀ event ∈ es, ¬ event.IsEffect) (cwd : Place) :
    w.after cwd es = w := by
  induction es with
  | nil => rfl
  | cons event es ih =>
    have hsame : w.apply cwd event = w := by
      have hnone := h event List.mem_cons_self
      cases event <;> first | rfl | exact absurd trivial hnone
    rw [World.after_cons, hsame]
    exact ih fun event hmem => h event (List.mem_cons_of_mem _ hmem)

theorem Errand.Spares.of_not_isEffect (h : ∀ event ∈ es, ¬ event.IsEffect) : e.Spares a es := by
  intro event hmem name _ _
  exact ⟨(not_touches_of_not_isEffect (h event hmem) _ _).1,
    (not_touches_of_not_isEffect (h event hmem) _ _).2 _⟩

theorem Errand.Houses.file (h : e.Houses s) (hnamed : NamedBy s name) :
    resolve e.cwd s.filename = e.file name := by
  rw [hnamed.1, h.txtdir]
  rfl

/-- The event is one of the form that the session has in hand. -/
def OfForm (s : Session) : Event → Prop
  | .openTrunc path => path = s.filename
  | .writeAt path _ _ => path = s.filename
  | .put db key _ => db = s.regdb ∧ key = s.regkey
  | _ => True

/-- What is done to the form in hand concerns this form. -/
theorem Errand.Houses.concerns {event : Event} (h : e.Houses s) (hnamed : NamedBy s name)
    (hof : OfForm s event) : e.Concerns name event := by
  have hfile := h.file hnamed
  cases event with
  | openTrunc path =>
    obtain rfl : path = s.filename := hof
    exact ⟨fun place htouch => htouch.symm.trans hfile, fun place key htouch => htouch.elim⟩
  | writeAt path offset data =>
    obtain rfl : path = s.filename := hof
    exact ⟨fun place htouch => htouch.symm.trans hfile, fun place key htouch => htouch.elim⟩
  | put db key data =>
    obtain ⟨rfl, rfl⟩ : db = s.regdb ∧ key = s.regkey := hof
    refine ⟨fun place htouch => htouch.elim, fun place key htouch => ⟨?_, ?_⟩⟩
    · rw [← htouch.1, h.regdb]
      rfl
    · rw [← htouch.2, hnamed.2]
  | _ => exact ⟨fun place htouch => htouch.elim, fun place key htouch => htouch.elim⟩

/-- What is done to the form in hand touches no form that is marked. -/
theorem Errand.Spares.of_form (hform : e.Unmarked a name) (hhouses : e.Houses s)
    (hnamed : NamedBy s name) (h : ∀ event ∈ es, OfForm s event) : e.Spares a es :=
  .of_concerns hform.entry hform.disk fun event hmem => hhouses.concerns hnamed (h event hmem)

theorem Sends.pending (h : Sends a rest) : a.wire.pending = [] := by
  cases h with
  | body _ _ _ _ client => exact client.pending
  | reply _ _ client => exact client.pending

theorem Errand.InHand.receive (h : e.InHand a name) (bs : Bytes) (closed : Bool) :
    e.InHand (a.receive bs closed) name :=
  ⟨h.names, h.form, h.unsent, h.disk, h.place⟩

/-- The server takes the announcement. -/
theorem Nears.open_step (hcon : t.Connected) (hform : e.Unmarked a name) (hhouses : e.Houses s')
    (hunread : unread s.tsd s.conn = Apply.filenameLine name ++ bs)
    (hact : readCommand s t = some (s', es)) :
    (s'.Stopped ∨ s'.phase = .body ∧ s.Past bs s' ∧ NamedBy s' name ∧ s'.stfile = [] ∧
        s'.regbuf = [] ∧ (w.after e.cwd es).file (e.file name) = some []) ∧
      sentBytes es = [] ∧ e.Spares a es := by
  have htext := (e.name name hform.entry.mem hform.entry.form).2.1
  obtain ⟨hopened, hsent⟩ := readCommand_names hcon htext hform.entry.form hunread hact
  cases hopened with
  | stopped server quiet => exact ⟨Or.inl server, hsent, .of_not_isEffect quiet⟩
  | opened phase past named text record start events =>
    refine ⟨Or.inr ⟨phase, past, named, text, record, ?_⟩, hsent, ?_⟩
    · rw [events, ← hhouses.file named]
      simp [World.apply]
    · exact .of_form hform hhouses named (by simp [events, OfForm])

/-- The server takes a line of the form, or loses the form. -/
theorem Course.line_step {todo arrived : List Bytes} {line : Bytes} (hcon : t.Connected)
    (hand : e.InHand a name) (content : e.disk (e.path name) = some (taken ++ line :: todo).flatten)
    (lines : ∀ l ∈ taken ++ line :: todo, BodyLine l) (split : todo ++ [dot] = arrived ++ rest)
    (client : Sends a rest) (server : s.At .body (line ++ arrived.flatten))
    (named : NamedBy s name) (text : s.stfile = taken.flatten) (record : RecordOf taken s.regbuf)
    (created : w.file (e.file name) = some []) (hact : readBody s t = some (s', es)) :
    Course e (a.receive (sentBytes es) s'.closed) s' (w.after e.cwd es) := by
  have step := readBody_step hact
  obtain ⟨hnamed, hsent, hnone⟩ := bodyStep_keeps step named
  have hline : BodyLine line := lines line (by simp)
  rw [hsent, after_of_not_isEffect hnone]
  have hfront : ∀ {ret : ℤ} {got : Bytes} {m : Session},
      s.readline t.reads = some (ret, got, m) → 0 < ret ∧ got = line ∧ s.Past arrived.flatten m :=
    fun hread => readline_front hcon server.unread hline.whole hline.ne_nil hread
  have hopen : ∀ {phase}, s'.phase = phase → phase ≠ .done → s'.closed = false :=
    fun hphase hne => closed_of_phase hphase hne
  have hlost : ∀ l ∈ arrived ++ rest, BodyLine l ∨ l = dot := by
    rw [← split]
    intro l hmem
    rcases List.mem_append.mp hmem with hmem | hmem
    · exact Or.inl (lines l (by simp [hmem]))
    · exact Or.inr (List.mem_singleton.mp hmem)
  cases step with
  -- the line is whole, and no word of the loop
  | cut hread hret =>
    obtain ⟨hpos, -⟩ := hfront hread
    omega
  | dot hread _ hword =>
    obtain ⟨-, rfl, -⟩ := hfront hread
    exact absurd hword hline.dot
  | quit hread _ hword =>
    obtain ⟨-, rfl, -⟩ := hfront hread
    exact absurd hword hline.quit
  -- `fputs` fails, or `regbuf` is full: the rest of the form is read as commands
  | failed hread =>
    obtain ⟨-, -, hpast⟩ := hfront hread
    rw [hopen rfl (by simp)]
    exact .lost arrived rest (hand.receive [] false) hlost client.receive
      (Or.inl ⟨⟨rfl, hpast.unread, hpast.eof.trans server.eof⟩, hnamed⟩)
  | full hread =>
    obtain ⟨-, -, hpast⟩ := hfront hread
    rw [hopen rfl (by simp)]
    exact .lost arrived rest (hand.receive [] false) hlost client.receive
      (Or.inr ⟨rfl, hpast.unread, hpast.eof.trans server.eof⟩)
  | overlong => exact .dead (Or.inr rfl) (Or.inl (by simp [Apply.receive, client.pending]))
  | @line ret got m hread hret =>
    obtain ⟨-, rfl, hpast⟩ := hfront hread
    have hread' := Session.readline_cases hread
    have hphase : m.phase = .body := by
      rw [hread'.keep]
      exact server.phase
    have hstfile : m.stfile = taken.flatten := by
      rw [hread'.keep]
      exact text
    have hregbuf : RecordOf taken m.regbuf := by
      rw [hread'.keep]
      exact record
    rw [hopen hphase (by simp)]
    refine .sending (taken ++ [got]) todo arrived rest (hand.receive [] false)
      (by simpa using content) (by simpa using lines) split client.receive
      (.takes ⟨hphase, hpast.unread, hpast.eof.trans server.eof⟩ hnamed ?_
        (recordOf_concat hregbuf hread' hret t.past) created)
    simp [hstfile, cstr_eq_self hline.nul]

/-- The server stores the form, call by call. -/
theorem Course.closing_step {lines : List Bytes} (hcon : t.Connected) (hstores : Stores e s t)
    (hhouses : e.Houses s) (hand : e.InHand a name)
    (content : e.disk (e.path name) = some lines.flatten) (body : ∀ line ∈ lines, BodyLine line)
    (client : Sends a []) (server : Closes e w s name lines) (hact : act env s t = some (s', es)) :
    Course e (a.receive (sentBytes es) s'.closed) s' (w.after e.cwd es) ∧ e.Spares a es := by
  cases server with
  | close server named text record created =>
    simp only [Stores, server.phase] at hstores
    simp only [act, server.phase, Option.some.injEq] at hact
    obtain ⟨errno, rfl, rfl⟩ := closeForm_cases hact
    refine ⟨.closing lines (hand.receive _ _) content body client.receive (.insert
      ⟨rfl, server.unread, server.eof⟩ named record ?_), .of_form hand.unmarked hhouses named
      (by simp [OfForm])⟩
    simp [World.apply, hhouses.file named, created, flushed, hstores, text]
  | insert server named record stored =>
    simp only [Stores, server.phase] at hstores
    simp only [act, server.phase, Option.some.injEq] at hact
    obtain ⟨rfl, ⟨-, rfl⟩ | ⟨hok, -⟩⟩ := insertForm_cases hact
    · refine ⟨.closing lines (hand.receive _ _) content body client.receive (.reply
        ⟨rfl, server.unread, server.eof⟩ ⟨lines, s.regbuf, rfl, body, record, stored, ?_⟩),
        .of_form hand.unmarked hhouses named (by simp [OfForm])⟩
      have hdb : resolve e.cwd s.regdb = e.db := by
        rw [hhouses.regdb]
        rfl
      simp [World.apply, hdb, named.2]
    · simp [hok] at hstores
  | reply server held =>
    simp only [act, server.phase] at hact
    -- the reply comes when both stores hold the form
    obtain ⟨hphase, hconn, htsd, hsent, hworld⟩ := replyForm_calm hcon hact
    have hquiet : ∀ event ∈ es, ¬ event.IsEffect := by
      obtain ⟨errno, buffer, ⟨sent, -, rfl⟩ | ⟨-, rfl⟩⟩ := replyForm_cases hact
      · simp [Event.IsEffect]
      · simp [Event.IsEffect]
    have hopen : s'.closed = false := by simp [Session.closed, hphase]
    rw [hsent, hopen, hworld]
    refine ⟨?_, .of_not_isEffect hquiet⟩
    cases client with
    | body todo hleft => simp at hleft
    | @reply path photo _ base client =>
      obtain rfl : path = e.path name := by
        have hplace := hand.place
        rw [client.place] at hplace
        exact Option.some.inj hplace
      refine .answered base (hand.receive _ _) (client.receive _) ⟨hphase, ?_, ?_⟩ content held
      · rw [htsd, hconn, server.unread]
      · rw [hconn, server.eof]

/-- The server goes on with the photo, and touches no form. -/
theorem Course.picture_step (hcon : t.Connected) (hserves : ServesStep a s t)
    (hstores : Stores e s t) (mode : Mode e.opts a s) (place : IsPhoto a.place)
    (going : ¬ s.Stopped) (hact : act env s t = some (s', es)) :
    Course e (a.receive (sentBytes es) s'.closed) s' (w.after e.cwd es) ∧ e.Spares a es := by
  have hmode := mode.server_step hcon hserves hact
  have hspares : (∀ event ∈ es, ∀ place, event.TouchesFile e.cwd place →
      place = resolve e.cwd s.filename) → (∀ event ∈ es, ∀ place key,
      ¬ event.TouchesRecord e.cwd place key) →
      PhotoApart e s → e.Spares a es := by
    intro hfile hrecord hapart event hmem name hentry _
    refine ⟨fun htouch => ?_, hrecord event hmem _ _⟩
    exact hapart name hentry (hfile event hmem _ htouch).symm
  -- where the photo is, is known from the modes; here only what is touched counts
  cases mode.photoMode place going with
  | offered text fits client server =>
    simp only [act, server.phase] at hact
    have hword : ∀ size base, ascii "BINARY " <+: Apply.binaryLine size base := by
      intro size base
      simp only [Apply.binaryLine, List.append_assoc]
      exact List.prefix_append _ _
    obtain ⟨hquiet, hstops⟩ := readCommand_offered hcon
      (by rw [server.unread, List.append_nil]) (whole_binary text fits)
      (by simp [Apply.binaryLine]) (hword _ _) hact
    refine ⟨?_, .of_not_isEffect hquiet⟩
    by_cases hstopped : s'.Stopped
    · refine .dead hstopped ?_
      rcases hstops hstopped with hsent | ⟨hsent, hphase⟩
      · exact Or.inl (by simp [Apply.receive, client.pending, hsent])
      · have hopen : s'.closed = false := by simp [Session.closed, hphase]
        rw [hsent, hopen]
        exact Or.inr ⟨hphase, _, client.receive _⟩
    · exact .photo hmode place hstopped
  | refused client server => simp [act, server.phase, readCommand_nil hcon server] at hact
  | photo arrived rest extra left client server holds room fits =>
    cases server with
    | image phase =>
      simp only [Stores, phase] at hstores
      simp only [act, phase, Option.some.injEq] at hact
      rcases openImage_cases hact with ⟨-, rfl, rfl⟩ | ⟨-, rfl, rfl⟩
      · exact ⟨.photo hmode place (by simp [Session.Stopped]),
          hspares (by simp [Event.TouchesFile]) (by simp [Event.TouchesRecord]) hstores⟩
      · exact ⟨.photo hmode place (by simp [Session.Stopped]), .of_not_isEffect (by simp)⟩
    | payload phase none block =>
      simp only [Stores, phase] at hstores
      simp only [act, phase] at hact
      have step := readPayload_step hact
      refine ⟨.photo hmode place ?_, hspares ?_ ?_ hstores⟩
      · cases step <;> simp [Session.Stopped]
      · cases step <;> simp [Event.TouchesFile]
      · cases step <;> simp [Event.TouchesRecord]
    | replying phase =>
      simp only [act, phase] at hact
      obtain ⟨hphase, -⟩ := replyImage_calm hcon hact
      obtain ⟨errno, sent, -, rfl⟩ := replyImage_cases hact
      exact ⟨.photo hmode place (by simp [Session.Stopped, hphase]),
        .of_not_isEffect (by simp [Event.IsEffect])⟩
    | replied phase result reply zero =>
      obtain rfl : arrived = [] := List.eq_nil_of_length_eq_zero (by omega)
      simp [act, phase, readCommand_nil hcon (at_of_holds phase holds)] at hact

/-- A server behind a silent client takes what is left, up to `QUIT`. -/
theorem Trails.server_step (hcon : t.Connected) (hhouses : e.Houses s) (hhouses' : e.Houses s')
    (tail : bs = [] ∨ bs = ascii "QUIT\n") (h : Trails e a s bs)
    (hact : act env s t = some (s', es)) :
    (Trails e a s' bs ∨ Trails e a s' []) ∧ e.Spares a es := by
  have hwhole : Lines.Whole isNewline (MAXLINE - 1) (ascii "QUIT\n") := by
    refine @Lines.whole_line _ isNewline _ (ascii "QUIT") (fun b hb => ?_) newline rfl (by decide)
    simpa [isNewline] using ne_of_mem_of_not_mem hb (by decide : newline ∉ ascii "QUIT")
  cases h with
  | stopped server => simp [act_stopped server] at hact
  | idle phase unread =>
    simp only [act, phase] at hact
    rcases tail with rfl | rfl
    · obtain ⟨hstopped, hquiet⟩ := readCommand_empty unread hact
      exact ⟨Or.inl (.stopped hstopped), .of_not_isEffect hquiet⟩
    · obtain ⟨hstopped, -, hquiet⟩ := readCommand_mute hcon
        (by rw [unread, List.append_nil]) hwhole (by decide) (by decide) (by decide) hact
      exact ⟨Or.inl (.stopped hstopped), .of_not_isEffect hquiet⟩
  | waits form phase unread =>
    simp only [act, phase] at hact
    obtain ⟨hopened, -, hspares⟩ :=
      @Nears.open_step e a s s' .empty t es _ bs hcon form hhouses' unread hact
    refine ⟨Or.inl ?_, hspares⟩
    rcases hopened with hstopped | ⟨hphase, hpast, hnamed, -⟩
    · exact .stopped hstopped
    · exact .taking form hphase hnamed hpast.unread
  | taking form phase named hunread =>
    simp only [act, phase] at hact
    have step := readBody_step hact
    obtain ⟨hnamed, -, hquiet⟩ := bodyStep_keeps step named
    refine ⟨Or.inr ?_, .of_not_isEffect hquiet⟩
    -- nothing is left behind, and what is read is `QUIT`
    have hread : ∀ {ret : ℤ} {line : Bytes} {m : Session},
        s.readline t.reads = some (ret, line, m) →
        unread m.tsd m.conn = [] ∧ (0 < ret → line = ascii "QUIT\n") := by
      intro ret line m hread
      rcases tail with rfl | rfl
      · have hline := Session.readline_cases hread
        have hstream := hline.reads.stream
        rw [hunread] at hstream
        obtain ⟨rfl, hnone⟩ := List.append_eq_nil_iff.mp hstream
        refine ⟨hnone, fun hpos => ?_⟩
        rcases hline.ret with herr | ⟨hzero, -⟩ | ⟨-, hne, -⟩
        · omega
        · omega
        · exact absurd rfl hne
      · obtain ⟨-, hline, hpast⟩ := readline_front hcon (by rw [hunread, List.append_nil]) hwhole
          (by decide) hread
        exact ⟨hpast.unread, fun _ => hline⟩
    cases step with
    | cut hline => exact .leaving form rfl hnamed (hread hline).1
    | dot hline hret hword =>
      rw [(hread hline).2 hret] at hword
      exact absurd hword (by decide)
    | quit hline => exact .leaving form rfl hnamed (hread hline).1
    | failed hline => exact .leaving form rfl hnamed (hread hline).1
    | full hline => exact .idle rfl (hread hline).1
    | overlong => exact .stopped (Or.inr rfl)
    | line hline hret _ hquit =>
      rw [(hread hline).2 hret] at hquit
      exact absurd List.prefix_rfl hquit
  | @leaving name leave form phase named unread =>
    simp only [act, phase, Option.some.injEq] at hact
    obtain ⟨errno, rfl, rfl⟩ := abandonForm_cases hact
    refine ⟨Or.inl ?_, .of_form form hhouses named (by simp [OfForm])⟩
    cases leave with
    | true => exact .stopped (Or.inl rfl)
    | false => exact .idle rfl unread

/-- The server that waits for the announcement stops at it, or waits for the lines behind it. -/
theorem Nears.wait_step (hcon : t.Connected) (hand : e.InHand a name) (hhouses : e.Houses s')
    (server : s.At .command (Apply.filenameLine name ++ bs)) (hact : act env s t = some (s', es)) :
    (s'.Stopped ∨ Nears e (w.after e.cwd es) s' name [] bs ∧ s'.closed = false) ∧
      sentBytes es = [] ∧ e.Spares a es := by
  simp only [act, server.phase] at hact
  obtain ⟨hopened, hsent, hspares⟩ :=
    @Nears.open_step e a s s' w t es _ bs hcon hand.unmarked hhouses server.unread hact
  refine ⟨?_, hsent, hspares⟩
  rcases hopened with hstopped | ⟨hphase, hpast, hnamed, htext, hrecord, hcreated⟩
  · exact Or.inl hstopped
  · exact Or.inr ⟨.takes ⟨hphase, hpast.unread, hpast.eof.trans server.eof⟩ hnamed htext
      (hrecord ▸ .nil) hcreated, closed_of_phase hphase (by simp)⟩

/-- The server stops, and has said nothing to the client. -/
theorem Course.stops (hpending : a.wire.pending = []) (hsent : sentBytes es = [])
    (hstopped : s'.Stopped) : Course e (a.receive (sentBytes es) s'.closed) s' w :=
  .dead hstopped (Or.inl (by simp [Apply.receive, hpending, hsent]))

/-- The server takes the announcement, the client being about to send the form. -/
theorem Course.announced_step (hcon : t.Connected) (hhouses : e.Houses s')
    (hand : e.InHand a name) (client : a.At (.named (e.path name)) [])
    (server : Nears e w s name [] []) (hact : act env s t = some (s', es)) :
    Course e (a.receive (sentBytes es) s'.closed) s' (w.after e.cwd es) ∧ e.Spares a es := by
  cases server with
  | waits _ server =>
    obtain ⟨hserver, hsent, hspares⟩ := @Nears.wait_step e env a s s' w t es _ [] hcon hand hhouses
      server hact
    refine ⟨?_, hspares⟩
    rcases hserver with hstopped | ⟨hnears, hopen⟩
    · exact .stops client.pending hsent hstopped
    · rw [hsent, hopen]
      exact .announced (hand.receive _ _) (by simpa using client.receive []) hnears
  | takes server => simp [act, server.phase, readBody_nil hcon server] at hact

/-- The dot: the form is taken as a whole. -/
theorem Course.dot_step (hcon : t.Connected) (hand : e.InHand a name)
    (content : e.disk (e.path name) = some taken.flatten) (lines : ∀ line ∈ taken, BodyLine line)
    (client : Sends a []) (server : s.At .body dot) (named : NamedBy s name)
    (text : s.stfile = taken.flatten) (record : RecordOf taken s.regbuf)
    (created : w.file (e.file name) = some []) (hact : readBody s t = some (s', es)) :
    Course e (a.receive (sentBytes es) s'.closed) s' (w.after e.cwd es) := by
  obtain ⟨hphase, hpast, -, hstfile, hregbuf, hfilename, hregdb, hregkey, hworld⟩ :=
    readBody_dot hcon (server.unread.trans (List.append_nil dot).symm) whole_dot (by decide)
      rfl hact
  obtain ⟨hnamed, hsent, -⟩ := bodyStep_keeps (readBody_step hact) named
  rw [hsent, closed_of_phase hphase (by simp), hworld]
  exact .closing taken (hand.receive _ _) content lines client.receive
    (.close ⟨hphase, hpast.unread, hpast.eof.trans server.eof⟩ hnamed (hstfile.trans text)
      (hregbuf ▸ record) created)

/-- The server takes the announcement, a line or the dot, the client being at the lines. -/
theorem Course.sending_step {todo arrived : List Bytes} (hcon : t.Connected)
    (hhouses : e.Houses s') (hand : e.InHand a name)
    (content : e.disk (e.path name) = some (taken ++ todo).flatten)
    (lines : ∀ line ∈ taken ++ todo, BodyLine line) (split : todo ++ [dot] = arrived ++ rest)
    (client : Sends a rest) (server : Nears e w s name taken arrived.flatten)
    (hact : act env s t = some (s', es)) :
    Course e (a.receive (sentBytes es) s'.closed) s' (w.after e.cwd es) ∧ e.Spares a es := by
  cases server with
  | waits none server =>
    subst none
    obtain ⟨hserver, hsent, hspares⟩ := Nears.wait_step hcon hand hhouses server hact
    refine ⟨?_, hspares⟩
    rcases hserver with hstopped | ⟨hnears, hopen⟩
    · exact .stops client.pending hsent hstopped
    · rw [hsent, hopen]
      exact .sending [] todo arrived rest (hand.receive _ _) content lines split client.receive
        hnears
  | takes server named text record created =>
    simp only [act, server.phase] at hact
    obtain ⟨-, -, hquiet⟩ := bodyStep_keeps (readBody_step hact) named
    refine ⟨?_, .of_not_isEffect hquiet⟩
    -- what has arrived begins with the next line, or with the dot when none is left
    cases arrived with
    | nil => simp [readBody_nil hcon server] at hact
    | cons line arrived =>
      rw [List.flatten_cons] at server
      cases todo with
      | nil =>
        obtain ⟨rfl, hnone⟩ : dot = line ∧ [] = arrived ++ rest := by simpa using split
        obtain ⟨rfl, rfl⟩ := List.append_eq_nil_iff.mp hnone.symm
        rw [List.append_nil] at content lines
        exact Course.dot_step hcon hand content lines client (by simpa using server) named text
          record created hact
      | cons line' todo =>
        obtain ⟨rfl, hsplit⟩ : line' = line ∧ todo ++ [dot] = arrived ++ rest := by
          simpa using split
        exact Course.line_step hcon hand content lines hsplit client server named text record
          created hact

/-- The server breaks the form off, and stops at the next line of it. -/
theorem Course.lost_step {arrived : List Bytes} (hcon : t.Connected) (hhouses : e.Houses s)
    (hand : e.InHand a name) (lines : ∀ line ∈ arrived ++ rest, BodyLine line ∨ line = dot)
    (client : Sends a rest)
    (server : s.At (.abandon false) arrived.flatten ∧ NamedBy s name ∨
      s.At .command arrived.flatten)
    (hact : act env s t = some (s', es)) :
    Course e (a.receive (sentBytes es) s'.closed) s' (w.after e.cwd es) ∧ e.Spares a es := by
  rcases server with ⟨hat, named⟩ | hat
  · simp only [act, hat.phase, Option.some.injEq] at hact
    obtain ⟨errno, rfl, rfl⟩ := abandonForm_cases hact
    rw [closed_of_phase rfl (by simp)]
    exact ⟨.lost arrived rest (hand.receive _ _) lines client.receive
      (Or.inr ⟨by simp, hat.unread, hat.eof⟩),
      .of_form hand.unmarked hhouses named (by simp [OfForm])⟩
  · simp only [act, hat.phase] at hact
    cases arrived with
    | nil => simp [readCommand_nil hcon hat] at hact
    | cons line arrived =>
      have hline := lines line (by simp)
      obtain ⟨hwhole, hne, -⟩ := plain_of_bodyLine hline
      -- a line of a form is no command, so the session ends at it
      have hplain : ¬ ascii "FILENAME " <+: line ∧ ¬ ascii "BINARY " <+: line := by
        rcases hline with hline | rfl
        · exact ⟨hline.form, hline.photo⟩
        · decide
      obtain ⟨hstopped, hsent, hquiet⟩ := readCommand_mute hcon
        (by rw [hat.unread, List.flatten_cons]) hwhole hne hplain.1 hplain.2 hact
      exact ⟨.stops client.pending hsent hstopped, .of_not_isEffect hquiet⟩

/-- **A step of the server.** -/
theorem Course.server_step (hcon : t.Connected) (hserves : ServesStep a s t)
    (hstores : Stores e s t) (hhouses : e.Houses s) (h : Course e a s w)
    (hact : act env s t = some (s', es)) :
    Course e (a.receive (sentBytes es) s'.closed) s' (w.after e.cwd es) ∧ e.Spares a es := by
  have hhouses' := hhouses.step (act_cases hact)
  cases h with
  | free place client server => simp [act, server.phase, readCommand_nil hcon server] at hact
  | photo mode place going => exact Course.picture_step hcon hserves hstores mode place going hact
  | announced hand client server =>
    exact Course.announced_step hcon hhouses' hand client server hact
  | sending taken todo arrived rest hand content lines split client server =>
    exact Course.sending_step hcon hhouses' hand content lines split client server hact
  | lost arrived rest hand lines client server =>
    exact Course.lost_step hcon hhouses hand lines client server hact
  | closing lines hand content body client server =>
    exact Course.closing_step hcon hstores hhouses hand content body client server hact
  | answered base hand client server =>
    simp [act, server.phase, readCommand_nil hcon server] at hact
  | gone bs client tail server =>
    obtain ⟨htrails, hspares⟩ :=
      server.server_step hcon hhouses hhouses' (tail.imp_right And.left) hact
    refine ⟨?_, hspares⟩
    rcases htrails with htrails | htrails
    · exact .gone bs (silent_receive client _ _) tail (htrails.same rfl)
    · exact .gone [] (silent_receive client _ _) (Or.inl rfl) (htrails.same rfl)
  | dead server => simp [act_stopped server] at hact

end Server

end Esif.System
