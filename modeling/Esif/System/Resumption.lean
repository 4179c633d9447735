import Esif.System.Completion

/-!
# Submitting again

A submission is broken off, and the directory is submitted again. What was marked stays held,
and is not sent again; the submission that comes to its end completes those before it.

## Main definitions

* `Begins` — the two sides behind the login, with the directory as it was left
* `Submitted` — submissions one after another, each broken off anywhere
* `Lone` — a server that hears nothing more from its client
* `Errand.Flagged` — what the submissions have changed in the directory

## Main results

* `Lone.step` — what is marked is spared by such a server
* `Submitted.kept` — the invariant over all submissions
* `submitted_again` — the submission that completes them
-/

namespace Esif.System

open Esif.CS Esif.Posix Esif.Server
open Esif.Client (Apply Marks Sent applyForms photoOf)

/-! ### A server whose client is gone -/

/-- The session has a form in hand. -/
def HasForm : Phase → Prop
  | .body => True
  | .close => True
  | .insert => True
  | .abandon _ => True
  | _ => False

/-- What a server has left to do that hears nothing more: it has at most one form in hand, and
this one is not marked. -/
inductive Lone (e : Errand) (a : Apply) (s : Session) : Prop
  | stopped (server : s.Stopped)
  | idle (phase : s.phase = .command ∨ s.phase = .reply ∨ ∃ code, s.phase = .imageReply code)
      (unread : unread s.tsd s.conn = [])
  | form {name : Bytes} (form : e.Unmarked a name) (phase : HasForm s.phase)
      (named : NamedBy s name) (unread : unread s.tsd s.conn = [])
  | photo (phase : Pictures s.phase = true) (apart : PhotoApart e s)
      (unread : unread s.tsd s.conn = [])

section Alone

variable {e : Errand} {env : Env} {a : Apply} {s s' : Session} {w : World} {t : Turn}
  {es : List Event}

theorem Lone.wait (h : Lone e a s) (t : Turn) : Lone e a (s.wait t) := by
  cases h with
  | stopped server => exact .stopped server
  | idle phase unread => exact .idle phase unread
  | form form phase named unread => exact .form form phase named unread
  | photo phase apart unread => exact .photo phase apart unread

/-- A step without input. -/
theorem Lone.act_step (hhouses : e.Houses s) (h : Lone e a s) (hact : act env s t = some (s', es)) :
    Lone e a s' ∧ e.Spares a es := by
  cases h with
  | stopped server => simp [act_stopped server] at hact
  | idle phase unread =>
    rcases phase with phase | phase | ⟨code, phase⟩
    · simp only [act, phase] at hact
      obtain ⟨hstopped, hquiet⟩ := readCommand_empty unread hact
      exact ⟨.stopped hstopped, .of_not_isEffect hquiet⟩
    · simp only [act, phase] at hact
      obtain ⟨errno, buffer, ⟨sent, rfl, rfl⟩ | ⟨rfl, rfl⟩⟩ := replyForm_cases hact
      · exact ⟨.stopped (Or.inl rfl), .of_not_isEffect (by simp [Event.IsEffect])⟩
      · exact ⟨.idle (Or.inl rfl) unread, .of_not_isEffect (by simp [Event.IsEffect])⟩
    · simp only [act, phase] at hact
      obtain ⟨errno, sent, rfl, rfl⟩ := replyImage_cases hact
      exact ⟨.idle (Or.inl rfl) unread, .of_not_isEffect (by simp [Event.IsEffect])⟩
  | form form phase named hunread =>
    -- nothing is unread, so nothing can be read
    have hread : ∀ {ret : ℤ} {line : Bytes} {m : Session},
        s.readline t.reads = some (ret, line, m) → unread m.tsd m.conn = [] := by
      intro ret line m hread
      have hstream := (Session.readline_cases hread).reads.stream
      rw [hunread] at hstream
      exact (List.append_eq_nil_iff.mp hstream).2
    -- the form in hand is not marked, so what is done to it spares the marked ones
    cases act_cases hact with
    | body hphase step =>
      obtain ⟨hnamed, -, hquiet⟩ := bodyStep_keeps step named
      refine ⟨?_, .of_not_isEffect hquiet⟩
      cases step with
      | cut hline | dot hline | quit hline | failed hline =>
        have hnone := hread hline
        exact .form form trivial hnamed hnone
      | @line ret line m hline =>
        have hnone := hread hline
        have hsame : m.phase = s.phase := by rw [(Session.readline_cases hline).keep]
        exact .form form (hsame ▸ phase) hnamed hnone
      | full hline =>
        have hnone := hread hline
        exact .idle (Or.inl rfl) hnone
      | overlong => exact .stopped (Or.inr rfl)
    | close hphase step =>
      obtain ⟨errno, rfl, rfl⟩ := closeForm_cases step
      exact ⟨.form form trivial named hunread, .of_form form hhouses named (by simp [OfForm])⟩
    | insert hphase step =>
      obtain ⟨rfl, ⟨-, rfl⟩ | ⟨-, rfl⟩⟩ := insertForm_cases step
      · exact ⟨.idle (Or.inr (Or.inl rfl)) hunread,
          .of_form form hhouses named (by simp [OfForm])⟩
      · exact ⟨.idle (Or.inr (Or.inl rfl)) hunread, .of_not_isEffect (by simp)⟩
    | @abandon leave hphase step =>
      obtain ⟨errno, rfl, rfl⟩ := abandonForm_cases step
      refine ⟨?_, .of_form form hhouses named (by simp [OfForm])⟩
      cases leave with
      | true => exact .stopped (Or.inl rfl)
      | false => exact .idle (Or.inl rfl) hunread
    | magic hphase | user hphase | pass hphase | setup hphase | command hphase | image hphase
    | payload hphase | imageReply hphase | reply hphase => simp [hphase, HasForm] at phase
  | photo phase apart hunread =>
    -- the photo lies apart from all forms
    have hspares : ∀ {offset data}, e.Spares a [.writeAt s.filename offset data] := by
      intro offset data event hmem name hentry _
      obtain rfl := List.mem_singleton.mp hmem
      exact ⟨fun htouch => apart name hentry htouch, id⟩
    cases act_cases hact with
    | image hphase step =>
      rcases openImage_cases step with ⟨-, rfl, rfl⟩ | ⟨-, rfl, rfl⟩
      · refine ⟨.photo rfl apart hunread, ?_⟩
        intro event hmem name hentry _
        obtain rfl := List.mem_singleton.mp hmem
        exact ⟨fun htouch => apart name hentry htouch, id⟩
      · exact ⟨.idle (Or.inr (Or.inr ⟨_, rfl⟩)) hunread, .of_not_isEffect (by simp)⟩
    | payload hphase step =>
      have hnone : ∀ {bs conn}, s.conn.Took bs conn → unread s.tsd conn = [] := by
        intro bs conn htook
        obtain ⟨hbuf, hinq⟩ := List.append_eq_nil_iff.mp hunread
        have hsuffix := htook.suffix
        rw [hinq, List.suffix_nil] at hsuffix
        rw [unread, hbuf, hsuffix, List.append_nil]
      cases step with
      | finished | error | eof =>
        exact ⟨.idle (Or.inr (Or.inr ⟨_, rfl⟩)) hunread, .of_not_isEffect (by simp)⟩
      | interrupted => exact ⟨.photo rfl apart hunread, .of_not_isEffect (by simp)⟩
      | chunk _ htook => exact ⟨.photo rfl apart (hnone htook), hspares⟩
      | short _ htook => exact ⟨.idle (Or.inr (Or.inr ⟨_, rfl⟩)) (hnone htook), hspares⟩
    | magic hphase | user hphase | pass hphase | setup hphase | command hphase | imageReply hphase
    | body hphase | close hphase | insert hphase | reply hphase | abandon hphase =>
      simp [hphase, Pictures] at phase

/-- The end of the stream changes nothing. -/
theorem Lone.ended (h : Lone e a s) : Lone e a (Session.receive [] true s) := by
  have hsame : unread (Session.receive [] true s).tsd (Session.receive [] true s).conn =
      unread s.tsd s.conn := by rw [unread_receive, List.append_nil]
  cases h with
  | stopped server => exact .stopped server
  | idle phase unread => exact .idle phase (hsame.trans unread)
  | form form phase named unread => exact .form form phase named (hsame.trans unread)
  | photo phase apart unread => exact .photo phase apart (hsame.trans unread)

theorem Errand.Houses.ended (h : e.Houses s) : e.Houses (Session.receive [] true s) :=
  ⟨h.serving, h.txtdir, h.regdb⟩

/-- **A server without its client** spares what is marked, whichever of its calls fail. -/
theorem Lone.run (hhouses : e.Houses s) (h : Lone e a s) (turns : List Turn) :
    e.Spares a ((manageClient env).run s turns).2 := by
  let inv : Session → List Event → Prop := fun s es => e.Houses s ∧ Lone e a s ∧ e.Spares a es
  have step : ∀ s es t, True → inv s es →
      inv (manageClient env s t).1 (es ++ (manageClient env s t).2) := by
    rintro s es t - ⟨hhouses, hlone, hspares⟩
    have hhouses' : e.Houses (s.wait t) := hhouses.wait t
    simp only [manageClient]
    cases hact : act env (s.wait t) t with
    | none =>
      refine ⟨hhouses', hlone.wait t, ?_⟩
      rw [Option.getD_none, List.append_nil]
      exact hspares
    | some r =>
      obtain ⟨s', done⟩ := r
      obtain ⟨hlone', hdone⟩ := (hlone.wait t).act_step hhouses' hact
      refine ⟨hhouses'.step (act_cases hact), hlone', fun event hmem => ?_⟩
      exact (List.mem_append.mp hmem).elim (hspares event) (hdone event)
  have hrun : inv ((manageClient env).run s turns).1 ([] ++ ((manageClient env).run s turns).2) :=
    (manageClient env).run_induction step ⟨hhouses, h, by simp [Errand.Spares]⟩
      ((manageClient env).meets_of_forall s fun _ _ => trivial)
  simpa using hrun.2.2

/-- Wherever the submission is broken off, the server has at most a form in hand that is not
marked. -/
theorem Course.lone (h : Course e a s w) (hunread : unread s.tsd s.conn = [])
    (hphoto : Pictures s.phase = true → PhotoApart e s) : Lone e a s := by
  have hidle : s.phase = .command → Lone e a s := fun phase => .idle (Or.inl phase) hunread
  -- a server that waits for an announcement has none to read
  have hnears : ∀ {name taken bs}, e.InHand a name → Nears e w s name taken bs → Lone e a s := by
    intro name taken bs hhand hnears
    cases hnears with
    | waits _ server => exact hidle server.phase
    | takes server named =>
      exact .form hhand.unmarked (by simp [server.phase, HasForm]) named hunread
  cases h with
  | free _ _ server | answered _ _ _ server => exact hidle server.phase
  | photo mode place going =>
    cases mode.photoMode place going with
    | offered _ _ _ server | refused _ server => exact hidle server.phase
    | photo _ _ _ _ _ server =>
      cases server with
      | image phase | payload phase =>
        have hpicture : Pictures s.phase = true := by simp [phase, Pictures]
        exact .photo hpicture (hphoto hpicture) hunread
      | replying phase => exact .idle (Or.inr (Or.inr ⟨_, phase⟩)) hunread
      | replied phase => exact hidle phase
  | announced hand _ server | sending _ _ _ _ hand _ _ _ _ server => exact hnears hand server
  | lost _ _ hand _ _ server =>
    rcases server with ⟨server, named⟩ | server
    · exact .form hand.unmarked (by simp [server.phase, HasForm]) named hunread
    · exact hidle server.phase
  | closing _ hand _ _ _ server =>
    cases server with
    | close server named | insert server named =>
      exact .form hand.unmarked (by simp [server.phase, HasForm]) named hunread
    | reply server => exact .idle (Or.inr (Or.inl server.phase)) hunread
  | gone _ _ _ server =>
    cases server with
    | stopped server => exact .stopped server
    | idle phase | waits _ phase => exact hidle phase
    | taking form phase named | leaving form phase named =>
      exact .form form (by simp [phase, HasForm]) named hunread
  | dead server => exact .stopped server

end Alone

/-! ### One submission after another -/

/-- The two sides are behind the login, and the directory is as it was left. -/
structure Begins (e : Errand) (disk : Bytes → Option Bytes) (a : Apply) (s : Session) : Prop where
  names : a.names = e.names
  disk : a.disk = disk
  client : a.At .start []
  server : s.At .command []
  houses : e.Houses s

/-- The directory and the stores behind submissions one after another, each broken off anywhere:
both sides stop, or the client is lost when the server has read what it sent, and the server goes
on alone. The server may serve other colleges in between. -/
inductive Submitted (e : Errand) (env : Env) (w : World) : (Bytes → Option Bytes) → World → Prop
  | start : Submitted e env w e.disk w
  | again {disk : Bytes → Option Bytes} {w' : World} {a : Apply} {s : Session}
      {r : (Apply × Session) × List (Sent ⊕ Event)} (before : Submitted e env w disk w')
      (begins : Begins e disk a s) (moves : List (Client.Turn ⊕ Turn))
      (delivers : (submission e.opts env).Meets (Delivers e) (a, s) moves)
      (runs : (submission e.opts env).run (a, s) moves = r) :
      Submitted e env w r.1.1.disk (w'.after e.cwd (rights r.2))
  | lost {disk : Bytes → Option Bytes} {w' : World} {a : Apply} {s : Session}
      {r : (Apply × Session) × List (Sent ⊕ Event)} (before : Submitted e env w disk w')
      (begins : Begins e disk a s) (moves : List (Client.Turn ⊕ Turn))
      (delivers : (submission e.opts env).Meets (Delivers e) (a, s) moves)
      (runs : (submission e.opts env).run (a, s) moves = r)
      (unread : unread r.1.2.tsd r.1.2.conn = [])
      (photo : Pictures r.1.2.phase = true → PhotoApart e r.1.2) (turns : List Turn) :
      Submitted e env w r.1.1.disk ((w'.after e.cwd (rights r.2)).after e.cwd
        ((manageClient env).run (Session.receive [] true r.1.2) turns).2)
  | elsewhere {disk : Bytes → Option Bytes} {w' : World} (before : Submitted e env w disk w')
      (es : List Event)
      (apart : ∀ event ∈ es, ∀ name, e.Entry name → ¬ event.TouchesFile e.cwd (e.file name) ∧
        ¬ event.TouchesRecord e.cwd e.db (stem name)) :
      Submitted e env w disk (w'.after e.cwd es)

namespace Errand

/-- Where the directory has changed, a form that was due has been marked. -/
def Flagged (e : Errand) (disk : Bytes → Option Bytes) : Prop :=
  ∀ path, disk path = e.disk path ∨
    ∃ f marked, e.Due f ∧ f.path = path ∧ Marks f.lines.flatten marked ∧ disk path = some marked

end Errand

section Again

variable {e : Errand} {on : Bool} {env : Env} {a a' : Apply} {s : Session} {w w' : World}
  {c : Client.Turn} {sent : List Sent} {disk : Bytes → Option Bytes} {es : List (Sent ⊕ Event)}
  {x : Apply × Session} {i : Client.Turn ⊕ Turn} {f : Form} {p : Photo}

/-- What a step of the client marks is the form in hand. -/
theorem Course.marks (htidy : e.Tidy) (h : Course e a s w)
    (hact : a.act e.opts c = some (a', sent)) :
    a'.disk = a.disk ∨ ∃ f marked, e.Due f ∧ Marks f.lines.flatten marked ∧
      a'.disk = Function.update a.disk f.path (some marked) := by
  have hwaiting : a.wire.pending = [] → a'.disk = a.disk := fun hpending =>
    (Apply.act_waiting hpending hact).1
  have hsends : ∀ {rest}, Sends a rest → a'.disk = a.disk := fun hsends =>
    hwaiting hsends.pending
  -- a client that waits for a reply is the only one that marks
  cases h with
  | free _ client => exact Or.inl (hwaiting client.pending)
  | photo _ place =>
    refine Or.inl (Apply.act_keeps ?_ hact).1
    rintro ⟨path, photo, hplace⟩
    rw [hplace] at place
    cases place
  | announced _ client => exact Or.inl (hwaiting client.pending)
  | sending _ _ _ _ _ _ _ _ client | lost _ _ _ _ client | closing _ _ _ _ client =>
    exact Or.inl (hsends client)
  | answered base hand client _ content =>
    simp only [Apply.act, client.place] at hact
    obtain ⟨ret, line, wire, -, -, -, hdisk⟩ := Apply.readFormReply_marks hact
    rcases hdisk with hdisk | ⟨-, text, text', htext, hmark, hdisk⟩
    · exact Or.inl hdisk
    · rw [hand.disk] at htext
      -- the form in hand was not marked, so it is due
      rcases htidy _ hand.unmarked.entry _ htext with hsent | ⟨f, hdue, rfl⟩
      · exact absurd hsent (hand.unsent _ htext)
      · obtain ⟨marked, hmarks⟩ := hdue.marks
        rw [← hdue.path] at htext hdisk
        obtain rfl : f.lines.flatten = text := Option.some.inj (hdue.disk.symm.trans htext)
        rw [hmarks.markSent] at hmark
        obtain rfl : marked = text' := Except.ok.inj hmark
        exact Or.inr ⟨f, marked, hdue, hmarks, hdisk⟩
  | gone _ client =>
    exact Or.inl (Apply.act_keeps client.not_isReply hact).1
  | dead _ quiet =>
    rcases quiet with hnone | ⟨-, data, client⟩
    · exact Or.inl (hwaiting hnone)
    · refine Or.inl (Apply.act_keeps ?_ hact).1
      rintro ⟨path, photo, hplace⟩
      simp [client.place] at hplace

/-- A move changes the directory by the mark of a due form at most. -/
theorem Errand.Flagged.step (htidy : e.Tidy) (hdelivery : Delivery e w x es)
    (h : e.Flagged x.1.disk) : e.Flagged (submission e.opts env x i).1.1.disk := by
  obtain ⟨a, s⟩ := x
  cases i with
  | inl c =>
    simp only [submission, Machine.linked, applyForms]
    cases hact : a.act e.opts c with
    | none => exact h
    | some r =>
      obtain ⟨a', sent⟩ := r
      rcases hdelivery.course.marks htidy hact with hdisk | ⟨f, marked, hdue, hmarks, hdisk⟩
      · rw [Option.getD_some, hdisk]
        exact h
      · intro path
        rw [Option.getD_some, hdisk]
        by_cases hpath : f.path = path
        · subst hpath
          exact Or.inr ⟨f, marked, hdue, rfl, hmarks, Function.update_self _ _ _⟩
        · rw [Function.update_of_ne (Ne.symm hpath)]
          exact h path
  | inr t => exact h

/-- What the next submission finds. -/
theorem Errand.Keeps.books (hflagged : e.Flagged disk) (h : e.Keeps disk w)
    (hbegins : Begins e disk a s) : e.Books a w := by
  refine ⟨hbegins.names ▸ List.suffix_rfl, fun name _ => ?_, hbegins.disk ▸ h⟩
  rw [hbegins.disk]
  rcases hflagged (e.path name) with hsame | ⟨f, marked, -, -, hmarks, hdisk⟩
  · exact Or.inl hsame
  · exact Or.inr ⟨marked, hdisk, hmarks.isSent⟩

/-- A submission, wherever it is broken off. -/
theorem Begins.delivery (htidy : e.Tidy) (hbegins : Begins e disk a s) (hflagged : e.Flagged disk)
    (hkeeps : e.Keeps disk w) {moves : List (Client.Turn ⊕ Turn)}
    (hmoves : (submission e.opts env).Meets (Delivers e) (a, s) moves) :
    let r := (submission e.opts env).run (a, s) moves
    Delivery e w r.1 r.2 ∧ e.Flagged r.1.1.disk := by
  intro r
  let inv : Apply × Session → List (Sent ⊕ Event) → Prop := fun x es =>
    Delivery e w x es ∧ e.Flagged x.1.disk
  have step : ∀ x es i, Delivers e x i → inv x es →
      inv (submission e.opts env x i).1 (es ++ (submission e.opts env x i).2) := by
    rintro x es i hi ⟨hdelivery, hflagged⟩
    exact ⟨hdelivery.step hi, hflagged.step htidy hdelivery⟩
  have hstart : Delivery e w (a, s) [] :=
    (hkeeps.books hflagged hbegins).delivery hbegins.client hbegins.server hbegins.houses
  have hrun : inv r.1 ([] ++ r.2) :=
    (submission e.opts env).run_induction step ⟨hstart, hbegins.disk ▸ hflagged⟩ hmoves
  simpa using hrun

/-- **What was marked stays held**, however often the directory is submitted. -/
theorem Submitted.kept (htidy : e.Tidy) (h : Submitted e env w disk w') :
    e.Flagged disk ∧ e.Keeps disk w' := by
  induction h with
  | start => exact ⟨fun path => Or.inl rfl, fun path hmarked => absurd rfl hmarked⟩
  | @again disk w' a s r before begins moves delivers runs ih =>
    subst runs
    obtain ⟨hdelivery, hflagged⟩ := begins.delivery htidy ih.1 ih.2 delivers
    exact ⟨hflagged, hdelivery.books.kept⟩
  | @lost disk w' a s r before begins moves delivers runs unread photo turns ih =>
    subst runs
    obtain ⟨hdelivery, hflagged⟩ := begins.delivery htidy ih.1 ih.2 delivers
    refine ⟨hflagged, ?_⟩
    have hkeeps : e.Keeps _ _ := hdelivery.books.kept
    exact hkeeps.after
      ((hdelivery.course.lone unread photo).ended.run hdelivery.houses.ended turns)
  | @elsewhere disk w' before es apart ih =>
    exact ⟨ih.1, ih.2.after fun event hmem name hentry _ => apart event hmem name hentry⟩

/-! ### The submission that completes them -/

/-- What is left of the errand. -/
def Errand.again (e : Errand) (disk : Bytes → Option Bytes) : Errand := { e with disk := disk }

theorem Errand.entry_again {name : Bytes} : (e.again disk).Entry name ↔ e.Entry name :=
  ⟨fun h => ⟨h.mem, h.form⟩, fun h => ⟨h.mem, h.form⟩⟩

/-- Due again is what was due and is not marked. -/
theorem Errand.Flagged.due_iff (hflagged : e.Flagged disk) :
    (e.again disk).Due f ↔ e.Due f ∧ disk f.path = e.disk f.path := by
  constructor
  · intro h
    have hdisk : disk f.path = some f.lines.flatten := h.disk
    have hsame : disk f.path = e.disk f.path := by
      refine (hflagged f.path).resolve_right ?_
      rintro ⟨g, marked, -, -, hmarks, hmarked⟩
      -- what is marked is not due
      obtain rfl : f.lines.flatten = marked := Option.some.inj (hdisk.symm.trans hmarked)
      obtain ⟨marked', hmarks'⟩ := h.marks
      exact hmarks'.not_isSent hmarks.isSent
    exact ⟨⟨entry_again.mp h.entry, h.path, hsame.symm.trans hdisk, h.marks⟩, hsame⟩
  · rintro ⟨h, hsame⟩
    exact ⟨entry_again.mpr h.entry, h.path, hsame.trans h.disk, h.marks⟩

/-- The photo of a form lies where no form does, and is as it was. -/
theorem Errand.Flagged.photo (hflagged : e.Flagged disk) (hpictures : e.Pictures on)
    (hdue : e.Due f) (hencloses : e.Encloses f) :
    disk (photoOf f.lines) = e.disk (photoOf f.lines) := by
  refine (hflagged _).resolve_right ?_
  rintro ⟨g, marked, hg, hpath, -⟩
  exact hpictures.apart f hdue hencloses g.name hg.entry (hpath.symm.trans hg.path)

theorem Errand.Flagged.depicts_iff (hflagged : e.Flagged disk) (hpictures : e.Pictures on)
    (hdue : e.Due f) : (e.again disk).Depicts f p ↔ e.Depicts f p := by
  constructor
  · intro h
    have hencloses : e.Encloses f := ⟨h.encloses.on, h.encloses.long⟩
    refine ⟨hencloses, h.path, ?_, fun name hentry => h.apart name (entry_again.mpr hentry)⟩
    rw [h.path, ← hflagged.photo hpictures hdue hencloses, ← h.path]
    exact h.disk
  · intro h
    refine ⟨⟨h.encloses.on, h.encloses.long⟩, h.path, ?_,
      fun name hentry => h.apart name (entry_again.mp hentry)⟩
    have hsame := hflagged.photo hpictures hdue h.encloses
    rw [← h.path] at hsame
    exact hsame.trans h.disk

/-- The photos are those of the first submission. -/
theorem Errand.Flagged.pictures (hflagged : e.Flagged disk) (h : e.Pictures on) :
    (e.again disk).Pictures on := by
  have hdue : ∀ {f}, (e.again disk).Due f → e.Due f := fun hf => (hflagged.due_iff.mp hf).1
  have hencloses : ∀ {f}, (e.again disk).Encloses f → e.Encloses f :=
    fun hf => ⟨hf.on, hf.long⟩
  have hdisk : ∀ {f data}, (e.again disk).Due f → (e.again disk).Encloses f →
      (e.again disk).disk (photoOf f.lines) = some data → e.disk (photoOf f.lines) = some data := by
    intro f data hf hon hdata
    rw [← hflagged.photo h (hdue hf) (hencloses hon)]
    exact hdata
  refine ⟨fun f hf hon name hentry =>
    h.apart f (hdue hf) (hencloses hon) name (entry_again.mp hentry),
    fun hoff f hf hon data hdata => ?_, fun htaken f hf hon data hdata => ?_,
    fun htaken f g p q hf hg hp hq heq => ?_⟩
  · exact h.offered hoff f (hdue hf) (hencloses hon) data (hdisk hf hon hdata)
  · obtain ⟨p, hp⟩ := h.taken htaken f (hdue hf) (hencloses hon) data (hdisk hf hon hdata)
    exact ⟨p, (hflagged.depicts_iff h (hdue hf)).mpr hp⟩
  · exact h.own htaken f g p q (hdue hf) (hdue hg) ((hflagged.depicts_iff h (hdue hf)).mp hp)
      ((hflagged.depicts_iff h (hdue hg)).mp hq) heq

theorem Errand.Flagged.tidy (hflagged : e.Flagged disk) (htidy : e.Tidy) :
    (e.again disk).Tidy := by
  intro name hentry content hcontent
  have hcontent : disk (e.path name) = some content := hcontent
  rcases hflagged (e.path name) with hsame | ⟨f, marked, -, -, hmarks, hmarked⟩
  · rcases htidy name (entry_again.mp hentry) content (hsame ▸ hcontent) with hsent |
      ⟨f, hdue, rfl⟩
    · exact Or.inl hsent
    · exact Or.inr ⟨f, hflagged.due_iff.mpr ⟨hdue, by rw [hdue.path, hsame]⟩, rfl⟩
  · obtain rfl : marked = content := Option.some.inj (hmarked.symm.trans hcontent)
    exact Or.inl hmarks.isSent

/-- What is marked is settled. -/
theorem Errand.Keeps.settled (hflagged : e.Flagged disk) (h : e.Keeps disk w) (hdue : e.Due f)
    (hmarked : disk f.path ≠ e.disk f.path) : e.Settled f disk w := by
  have hmarks : ∃ marked, Marks f.lines.flatten marked ∧ disk f.path = some marked := by
    obtain ⟨g, marked, hg, hpath, hmarks, hdisk⟩ := (hflagged f.path).resolve_left hmarked
    have hname : g.name = f.name := Errand.path_injective (by rw [← hg.path, hpath, hdue.path])
    rw [(hdue.same hg hname).2] at hmarks
    exact ⟨marked, hmarks, hdisk⟩
  obtain ⟨name, content, hpath, hform⟩ := h f.path hmarked
  have hcontent := hform.disk
  obtain ⟨lines, record, rfl, hbody, hrecord, hfile, hdata⟩ := hform.held
  obtain rfl : f.name = name := Errand.path_injective (hdue.path.symm.trans hpath)
  -- the lines the record was built from are those of the form
  have hlines : lines = f.lines :=
    Lines.eq_of_flatten_eq (fun line hline => ⟨(hbody line hline).whole, (hbody line hline).ne_nil⟩)
      (fun line hline => ⟨(f.line line hline).whole, (f.line line hline).ne_nil⟩)
      (Option.some.inj (hcontent.symm.trans (hpath ▸ hdue.disk)))
  subst hlines
  refine ⟨hmarks, hfile, ?_⟩
  rw [hdata, hrecord.eq_iff.mpr fun line hline => ?_]
  obtain ⟨body, rfl, -⟩ := (f.line line hline).ends
  simp [endsLine]

/-- What was marked before stays settled: nothing that is done now concerns it. -/
theorem Errand.Settled.again {now : Bytes → Option Bytes} {es : List Event}
    (h : e.Settled f disk w) (hflagged : e.Flagged disk) (hdue : e.Due f)
    (hmarked : disk f.path ≠ e.disk f.path)
    (hkept : ∀ path, (∀ g, (e.again disk).Due g → g.path ≠ path) → now path = disk path)
    (hserves : ∀ event ∈ es, event.IsEffect →
      ∃ g, (e.again disk).Due g ∧ (e.again disk).Serves on g event) :
    e.Settled f now (w.after e.cwd es) := by
  obtain ⟨⟨marked, hmarks, hdisk⟩, hholding⟩ := h
  have hother : ∀ g, (e.again disk).Due g → g.name ≠ f.name := by
    intro g hg hname
    obtain ⟨hg, hsame⟩ := hflagged.due_iff.mp hg
    rw [(hdue.same hg hname).1] at hsame
    exact hmarked hsame
  have hfree : ∀ event ∈ es, ¬ event.TouchesFile e.cwd (e.file f.name) ∧
      ¬ event.TouchesRecord e.cwd e.db (stem f.name) := by
    intro event hmem
    by_cases heffect : event.IsEffect
    · obtain ⟨g, hg, ⟨hfile, hrecord⟩ | ⟨-, p, hp, hfile, hrecord⟩⟩ := hserves event hmem heffect
      · have hentry := entry_again.mp hg.entry
        refine ⟨fun htouch => hother g hg ?_, fun htouch => hother g hg ?_⟩
        · exact (Errand.file_injective hdue.entry hentry (hfile _ htouch)).symm
        · exact (stem_injective hdue.entry.form hentry.form (hrecord _ _ htouch).2).symm
      · have hentry : (e.again disk).Entry f.name := entry_again.mpr hdue.entry
        exact ⟨fun htouch => hp.apart f.name hentry (hfile _ htouch).symm, hrecord _ _⟩
    · exact ⟨(not_touches_of_not_isEffect heffect _ _).1,
        (not_touches_of_not_isEffect heffect _ _).2 _⟩
  refine ⟨⟨marked, hmarks, (hkept f.path fun g hg hpath => ?_).trans hdisk⟩, ?_, ?_⟩
  · exact hother g hg (Errand.path_injective (by rw [← hdue.path, ← hpath, hg.path]; rfl))
  · rw [World.after_file_of_forall fun event hmem => (hfree event hmem).1]
    exact hholding.text
  · rw [World.after_record_of_forall fun event hmem => (hfree event hmem).2]
    exact hholding.record

/-- What is announced for a form again is what was announced at first. -/
theorem Errand.Flagged.announces {line : Bytes} (hflagged : e.Flagged disk)
    (hpictures : e.Pictures on) (hdue : e.Due f) (h : (e.again disk).Announces f line) :
    e.Announces f line := by
  refine h.imp_right ?_
  rintro ⟨hencloses, data, base, hdata, hbase, hline⟩
  have hencloses : e.Encloses f := ⟨hencloses.on, hencloses.long⟩
  exact ⟨hencloses, data, base, (hflagged.photo hpictures hdue hencloses).symm.trans hdata, hbase,
    hline⟩

theorem Errand.Flagged.serves {event : Event} (hflagged : e.Flagged disk)
    (hpictures : e.Pictures on) (hdue : e.Due f) (h : (e.again disk).Serves on f event) :
    e.Serves on f event := by
  refine h.imp id ?_
  rintro ⟨hon, p, hp, hevent⟩
  exact ⟨hon, p, (hflagged.depicts_iff hpictures hdue).mp hp, hevent⟩

end Again

/-- **Submitting again completes it.** However often the directory was submitted before, and
wherever each submission was broken off: what they have marked is held, and stays settled. The next
submission that closes has every form settled that was due at first, announces none that was marked
before, and enough rounds bring it to its end; a server that takes photos holds those of the forms
it was sent. -/
theorem submitted_again (e : Errand) (on : Bool) (env : Env) (w w' : World)
    (disk : Bytes → Option Bytes) (a : Apply) (s : Session) (htidy : e.Tidy)
    (hpictures : e.Pictures on) (hbefore : Submitted e env w disk w')
    (hbegins : Begins e disk a s) (hgoing : a.cancelled = false) (herrno : s.errno ≠ .ewouldblock)
    (moves : List (Client.Turn ⊕ Turn))
    (hmoves : (submission e.opts env).Meets (SubmitMove on) (a, s) moves) :
    let r := (submission e.opts env).run (a, s) moves
    e.Keeps disk w' ∧
    (∀ f, e.Due f → disk f.path ≠ e.disk f.path →
      e.Settled f r.1.1.disk (w'.after e.cwd (rights r.2))) ∧
    (Rounds photoMoves (e.again disk).rounds moves →
      r.1.1.place = .closed ∧ r.1.2.phase = .done) ∧
    (r.1.1.place = .closed →
      ∀ f, e.Due f → e.Settled f r.1.1.disk (w'.after e.cwd (rights r.2)) ∧
        (on = true → disk f.path = e.disk f.path →
          e.Pictured f (w'.after e.cwd (rights r.2)))) ∧
    (∀ path, (∀ f, e.Due f → f.path ≠ path) → r.1.1.disk path = e.disk path) ∧
    (∀ start line, .command start line ∈ lefts r.2 →
      ∃ f, e.Due f ∧ disk f.path = e.disk f.path ∧ e.Announces f line) ∧
    ∀ event ∈ rights r.2, event.IsEffect →
      ∃ f, e.Due f ∧ disk f.path = e.disk f.path ∧ e.Serves on f event := by
  intro r
  obtain ⟨hflagged, hkeeps⟩ := hbefore.kept htidy
  have hhouses : (e.again disk).Houses s :=
    ⟨hbegins.houses.serving, hbegins.houses.txtdir, hbegins.houses.regdb⟩
  obtain ⟨hends, hcompleted, hkept, hannounces, hserves⟩ :=
    submission_completes (e.again disk) on env a s w' (hflagged.tidy htidy)
      (hflagged.pictures hpictures) hbegins.names hbegins.disk hgoing hbegins.client
      hbegins.server hhouses herrno moves hmoves
  have hsettled : ∀ f, e.Due f → disk f.path ≠ e.disk f.path →
      e.Settled f r.1.1.disk (w'.after e.cwd (rights r.2)) := fun f hdue hmarked =>
    (hkeeps.settled hflagged hdue hmarked).again hflagged hdue hmarked hkept hserves
  refine ⟨hkeeps, hsettled, hends, fun hclosed f hdue => ⟨?_, fun hon hsame p hp => ?_⟩,
    fun path hpath => ?_, fun start line hmem => ?_, fun event hmem heffect => ?_⟩
  · by_cases hsame : disk f.path = e.disk f.path
    · obtain ⟨h, -⟩ := hcompleted hclosed f (hflagged.due_iff.mpr ⟨hdue, hsame⟩)
      exact ⟨h.marked, h.holding⟩
    · exact hsettled f hdue hsame
  · obtain ⟨-, hpictured⟩ := hcompleted hclosed f (hflagged.due_iff.mpr ⟨hdue, hsame⟩)
    exact hpictured hon p ((hflagged.depicts_iff hpictures hdue).mpr hp)
  · refine (hkept path fun f hf => hpath f (hflagged.due_iff.mp hf).1).trans ?_
    refine (hflagged path).resolve_right ?_
    rintro ⟨f, marked, hdue, hfile, -⟩
    exact hpath f hdue hfile
  · obtain ⟨f, hf, hline⟩ := hannounces start line hmem
    obtain ⟨hdue, hsame⟩ := hflagged.due_iff.mp hf
    exact ⟨f, hdue, hsame, hflagged.announces hpictures hdue hline⟩
  · obtain ⟨f, hf, hserve⟩ := hserves event hmem heffect
    obtain ⟨hdue, hsame⟩ := hflagged.due_iff.mp hf
    exact ⟨f, hdue, hsame, hflagged.serves hpictures hdue hserve⟩

/-- The client passes over the first form and announces the second; the server opens it. -/
def sampleLost : List (Client.Turn ⊕ Turn) :=
  [.inl { reads := photoBytes, writes := photoBytes },
    .inl { reads := photoBytes, writes := photoBytes },
    .inl { reads := photoBytes, writes := photoBytes },
    .inr { reads := photoBytes, writes := photoBytes }]

theorem submitted_again_sample :
    let lost :=
      (submission sampleMailing.opts sampleEnv).run (sampleMailer, sampleHoused) sampleLost
    let alone := (manageClient sampleEnv).run (Session.receive [] true lost.1.2)
      [{ reads := photoBytes, writes := photoBytes }, { reads := photoBytes, writes := photoBytes }]
    let r := (submission sampleMailing.opts sampleEnv).run
      ({ sampleMailer with disk := lost.1.1.disk }, sampleHoused)
      (List.replicate (sampleMailing.again lost.1.1.disk).rounds photoRound).flatten
    let w := ((World.empty.after sampleMailing.cwd (rights lost.2)).after sampleMailing.cwd
      alone.2).after sampleMailing.cwd (rights r.2)
    (r.1.1.place = .closed ∧ r.1.2.phase = .done) ∧
      sampleMailing.Settled sampleLetter r.1.1.disk w ∧
      w.file (sampleMailing.file sampleScan.base) = some sampleScan.data := by
  intro lost alone
  have hmoves : (submission sampleMailing.opts sampleEnv).Meets (Delivers sampleMailing)
      (sampleMailer, sampleHoused) sampleLost := by
    have hclient : ({ reads := photoBytes, writes := photoBytes } : Client.Turn).Calm :=
      ⟨calm_photoBytes, calm_photoBytes⟩
    have hserver : ({ reads := photoBytes, writes := photoBytes } : Turn).Connected :=
      ⟨calm_photoBytes, calm_photoBytes⟩
    have hfree : ∀ {x : Apply × Session}, Unbound x.1.place = true →
        (∀ name ∈ x.1.names.head?, OneLine name) →
        Delivers sampleMailing x (.inl { reads := photoBytes, writes := photoBytes }) :=
      fun hplace hnames => ⟨hclient, inStep_unbound hplace hnames⟩
    simp only [sampleLost, Machine.meets_cons, Machine.meets_nil, and_true]
    exact ⟨hfree (by decide +kernel) (by decide +kernel), hfree (by decide +kernel)
      (by decide +kernel), hfree (by decide +kernel) (by decide +kernel),
      delivers_serving hserver rfl rfl (by decide +kernel) (by decide +kernel)⟩
  have hbegins : Begins sampleMailing sampleMailing.disk sampleMailer sampleHoused :=
    ⟨rfl, rfl, ⟨rfl, rfl, rfl⟩, ⟨rfl, rfl, rfl⟩, ⟨trivial, rfl, rfl⟩⟩
  have hbefore := Submitted.lost (.start : Submitted sampleMailing sampleEnv World.empty _ _)
    hbegins sampleLost hmoves rfl (by decide +kernel)
    (fun hpicture => absurd hpicture (by decide +kernel))
    [{ reads := photoBytes, writes := photoBytes }, { reads := photoBytes, writes := photoBytes }]
  obtain ⟨n, hn⟩ : ∃ n, (sampleMailing.again lost.1.1.disk).rounds = n := ⟨_, rfl⟩
  obtain ⟨-, -, hend, hsettled, -⟩ := submitted_again sampleMailing true sampleEnv World.empty _ _
    { sampleMailer with disk := lost.1.1.disk } sampleHoused tidy_sampleMailing
    pictures_sampleMailing hbefore ⟨rfl, rfl, ⟨rfl, rfl, rfl⟩, ⟨rfl, rfl, rfl⟩,
    ⟨trivial, rfl, rfl⟩⟩ rfl (by decide) (List.replicate n photoRound).flatten
    (meets_submitRound _ n)
  rw [hn] at hend ⊢
  have hclosed := hend (rounds_photoRound n)
  obtain ⟨hletter, hphoto⟩ := hsettled hclosed.1 sampleLetter due_sampleLetter
  refine ⟨hclosed, hletter, hphoto rfl ?_ sampleScan (depicts_sampleScan due_sampleLetter)⟩
  decide +kernel

end Esif.System
