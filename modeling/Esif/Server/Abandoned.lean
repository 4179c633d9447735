import Esif.Server.Upload

/-!
# Forms that were not received to their end

The server opens the text file of a form, and so truncates it, before the first
line arrives. When the connection is lost, `QUIT` arrives inside the form, a
line cannot be written or the record is full, that file is left with a part of
the new text and none of the old one. The database has not been called by then.

## Main definitions

* `Phase.InForm` — inside a form whose end has not been read
* `Abandoning` — what such a form has done so far

## Main results

* `abandoning_run` — the invariant of a form before its end
* `abandoned_form` — what is left of the stores
-/

namespace Esif.Server

open Esif.CS Esif.Posix

/-- The session is inside a form whose end it has not read. -/
def Phase.InForm : Phase → Prop
  | .body => True
  | .abandon _ => True
  | _ => False

instance : DecidablePred Phase.InForm
  | .body => isTrue trivial
  | .abandon _ => isTrue trivial
  | .magic | .user | .pass | .setup | .command | .image _ | .payload _ _ _ | .imageReply _
  | .close | .insert | .reply | .done | .fault => isFalse id

/-- The lines the body loop has read. -/
def receivedLines (es : List Event) : List Bytes :=
  es.filterMap fun
    | .bodyLine _ line => some line
    | _ => none

theorem receivedLines_append (es es' : List Event) :
    receivedLines (es ++ es') = receivedLines es ++ receivedLines es' := List.filterMap_append

theorem receivedLines_marks (lines : List (ℕ × Bytes)) :
    receivedLines (marks lines) = lines.map Prod.snd := by
  induction lines with
  | nil => rfl
  | cons line lines ih =>
    rw [marks, List.map_cons, List.map_cons, ← ih]
    rfl

/-- The event is a mark of the loops. -/
def Event.IsMark : Event → Prop
  | .bodyLine _ _ => True
  | .bodyEnd _ => True
  | _ => False

theorem Event.IsMark.not_touchesFile {e : Event} (h : e.IsMark) {cwd place : Place} :
    ¬ e.TouchesFile cwd place := by
  cases e <;> first | exact id | exact h.elim

theorem Event.IsMark.not_touchesRecord {e : Event} (h : e.IsMark) {cwd place : Place}
    {key : Bytes} : ¬ e.TouchesRecord cwd place key := by
  cases e <;> first | exact id | exact h.elim

/-- What a form on `path` has done when its end was not read: it opened its
file, read lines, and may have closed the file with a part of their text. While
the file is open, the session holds their text back. -/
def Abandoning (path : Bytes) (s : Session) (es : List Event) : Prop :=
  ∃ lines quiet tail, es = .openTrunc path :: (marks lines ++ quiet ++ tail) ∧
    (∀ e ∈ quiet, e.IsMark) ∧
    match s.phase with
    | .body => quiet = [] ∧ tail = [] ∧ s.filename = path ∧ Collected (lines.map Prod.snd) s
    | .abandon _ => tail = [] ∧ s.filename = path ∧ s.stfile = textOf (lines.map Prod.snd)
    | .close => True
    | _ => tail = [] ∨ ∃ text, tail = [.writeAt path 0 text] ∧ text <+: textOf (lines.map Prod.snd)

section

variable {env : Env} {s s' : Session} {t : Turn} {es es₀ : List Event} {path : Bytes}

theorem Abandoning.wait (h : Abandoning path s es) (t : Turn) : Abandoning path (s.wait t) es := by
  obtain ⟨lines, quiet, tail, hes, hquiet, h⟩ := h
  refine ⟨lines, quiet, tail, hes, hquiet, ?_⟩
  have hphase : (s.wait t).phase = s.phase := rfl
  rw [hphase]
  split at h
  · obtain ⟨hq, ht, hname, hcoll⟩ := h
    exact ⟨hq, ht, hname, hcoll.text, hcoll.record⟩
  · exact h
  · trivial
  · exact h

theorem Abandoning.of_body (h : Abandoning path s es) (hphase : s.phase = .body) :
    ∃ lines, es = .openTrunc path :: marks lines ∧ s.filename = path ∧
      Collected (lines.map Prod.snd) s := by
  obtain ⟨lines, quiet, tail, hes, -, h⟩ := h
  rw [hphase] at h
  obtain ⟨rfl, rfl, hname, hcoll⟩ := h
  exact ⟨lines, by simpa using hes, hname, hcoll⟩

theorem Abandoning.of_abandon {leave : Bool} (h : Abandoning path s es)
    (hphase : s.phase = .abandon leave) :
    ∃ lines quiet, es = .openTrunc path :: (marks lines ++ quiet) ∧ (∀ e ∈ quiet, e.IsMark) ∧
      s.filename = path ∧ s.stfile = textOf (lines.map Prod.snd) := by
  obtain ⟨lines, quiet, tail, hes, hquiet, h⟩ := h
  rw [hphase] at h
  obtain ⟨rfl, hname, htext⟩ := h
  exact ⟨lines, quiet, by simpa using hes, hquiet, hname, htext⟩

/-- A step of the body loop, as long as it does not read the end of the form. -/
theorem BodyStep.abandoning (hphase : s.phase = .body) (h : BodyStep s t s' es)
    (hab : Abandoning path s es₀) : Abandoning path s' (es₀ ++ es) := by
  obtain ⟨lines, rfl, hname, hcoll⟩ := hab.of_body hphase
  cases h with
  | cut hread =>
    rw [(Session.readline_cases hread).keep]
    exact ⟨lines, [], [], by simp, by simp, rfl, hname, hcoll.text⟩
  | @dot ret line m hread =>
    exact ⟨lines, [.bodyLine s.linePos line, .bodyEnd m.linePos], [], by simp,
      by simp [Event.IsMark], trivial⟩
  | @quit ret line m hread | @failed ret line m hread =>
    refine ⟨lines, [.bodyLine s.linePos line, .bodyEnd m.linePos], [], by simp,
      by simp [Event.IsMark], ?_⟩
    rw [(Session.readline_cases hread).keep]
    exact ⟨rfl, hname, hcoll.text⟩
  | @full ret line m =>
    exact ⟨lines, [.bodyLine s.linePos line, .bodyEnd m.linePos], [], by simp,
      by simp [Event.IsMark], Or.inl rfl⟩
  | @overlong ret line m =>
    exact ⟨lines, [.bodyLine s.linePos line], [], by simp, by simp [Event.IsMark], Or.inl rfl⟩
  | @line ret line m hread hret =>
    have hline := Session.readline_cases hread
    refine ⟨lines ++ [(s.linePos, line)], [], [], by simp [marks], by simp, ?_⟩
    -- the line is copied: the text and the record grow by it
    have hphase' : m.phase = .body := by rw [hline.keep]; exact hphase
    have hst : m.stfile = s.stfile := by rw [hline.keep]
    have hreg : m.regbuf = s.regbuf := by rw [hline.keep]
    have hfile : m.filename = s.filename := by rw [hline.keep]
    simp only [hphase', List.map_append, List.map_cons, List.map_nil]
    refine ⟨trivial, trivial, hfile.trans hname, ?_, ?_⟩
    · simp only [hst, hcoll.text, textOf_concat]
    · simp only [hreg]
      exact recordOf_concat hcoll.record hline hret _

/-- A step inside a form keeps the invariant. -/
theorem abandoning_step (s : Session) (es : List Event) (t : Turn) (hin : s.phase.InForm)
    (h : Abandoning path s es) :
    Abandoning path (manageClient env s t).1 (es ++ (manageClient env s t).2) := by
  have hwaited := h.wait t
  rcases manageClient_cases env s t with heq | hact
  · simpa [heq] using hwaited
  · have hphase : (s.wait t).phase = s.phase := rfl
    cases hact with
    | body hbody hstep => exact hstep.abandoning hbody hwaited
    | @abandon leave hleave hstep =>
      obtain ⟨errno, hs', hes⟩ := abandonForm_cases hstep
      obtain ⟨lines, quiet, rfl, hquiet, hname, htext⟩ := hwaited.of_abandon hleave
      rw [hs', hes, hname, htext]
      refine ⟨lines, quiet, [.writeAt path 0 (flushed (textOf (lines.map Prod.snd)) t)], by simp,
        hquiet, ?_⟩
      cases leave <;> exact Or.inr ⟨_, rfl, flushed_prefix _ _⟩
    | magic hother | user hother | pass hother | setup hother | command hother | image hother
    | payload hother | imageReply hother | close hother | insert hother | reply hother =>
      rw [← hphase, hother] at hin
      exact hin.elim

/-- The invariant holds as long as the end of the form is not read. -/
theorem abandoning_run (h : Abandoning path s es₀) {ts : List Turn}
    (hin : (manageClient env).Meets (fun s _ => s.phase.InForm) s ts) :
    Abandoning path ((manageClient env).run s ts).1 (es₀ ++ ((manageClient env).run s ts).2) :=
  Machine.run_induction (fun s es t hin h => abandoning_step s es t hin h) h hin

/-- What is left of the stores: the named file holds a part of the text of the
lines read, and nothing else has changed. -/
theorem Abandoning.world (h : Abandoning path s es) (hclose : s.phase ≠ .close) (cwd : Place)
    (w : World) :
    (∀ place key, (w.after cwd es).record place key = w.record place key) ∧
    (∀ place, place ≠ resolve cwd path → (w.after cwd es).file place = w.file place) ∧
    ∃ text, text <+: textOf (receivedLines es) ∧
      (w.after cwd es).file (resolve cwd path) = some text := by
  obtain ⟨lines, quiet, tail, rfl, hquiet, h⟩ := h
  -- before the dot is read, at most one call of `fclose` has written
  have htail : tail = [] ∨
      ∃ text, tail = [.writeAt path 0 text] ∧ text <+: textOf (lines.map Prod.snd) := by
    split at h
    · exact Or.inl h.2.1
    · exact Or.inl h.1
    · next hphase => exact absurd hphase hclose
    · exact h
  have hmarks : ∀ place, ∀ e ∈ marks lines ++ quiet, ¬ e.TouchesFile cwd place := by
    intro place e he
    rcases List.mem_append.mp he with he | he
    · exact marks_not_touchesFile cwd place lines e he
    · exact (hquiet e he).not_touchesFile
  -- the only file touched is the one of the form, and no record is
  have hevents : ∀ e ∈ Event.openTrunc path :: (marks lines ++ quiet ++ tail),
      e = .openTrunc path ∨ e ∈ marks lines ++ quiet ∨ ∃ text, e = .writeAt path 0 text := by
    intro e he
    rcases List.mem_cons.mp he with rfl | he
    · exact Or.inl rfl
    · rcases List.mem_append.mp he with he | he
      · exact Or.inr (Or.inl he)
      · rcases htail with rfl | ⟨text, rfl, -⟩
        · simp at he
        · exact Or.inr (Or.inr ⟨text, by simpa using he⟩)
  refine ⟨fun place key => World.after_record_of_forall (fun e he => ?_) w,
    fun place hplace => World.after_file_of_forall (fun e he => ?_) w, ?_⟩
  · rcases hevents e he with rfl | hmark | ⟨text, rfl⟩
    · exact id
    · rcases List.mem_append.mp hmark with hmark | hmark
      · obtain ⟨line, -, rfl⟩ := List.mem_map.mp hmark
        exact id
      · exact (hquiet e hmark).not_touchesRecord
    · exact id
  · rcases hevents e he with rfl | hmark | ⟨text, rfl⟩
    · exact Ne.symm hplace
    · exact hmarks place e hmark
    · exact Ne.symm hplace
  · rcases htail with rfl | ⟨text, rfl, htext⟩
    · refine ⟨[], List.nil_prefix, ?_⟩
      rw [List.append_nil, World.after_cons, World.after_file_of_forall (hmarks _)]
      simp [World.apply]
    · refine ⟨text, htext.trans ?_, ?_⟩
      · have hlines : receivedLines (.openTrunc path :: (marks lines ++ quiet ++
            [.writeAt path 0 text])) = lines.map Prod.snd ++ receivedLines quiet := by
          have hopen : receivedLines [.openTrunc path] = [] := rfl
          have hwrite : receivedLines [.writeAt path 0 text] = [] := rfl
          rw [← List.singleton_append, receivedLines_append, receivedLines_append,
            receivedLines_append, receivedLines_marks, hopen, hwrite, List.nil_append,
            List.append_nil]
        rw [hlines, textOf_append]
        exact List.prefix_append _ _
      · simpa using file_of_written cwd w path text [] [] (hmarks _) (by simp)

end

/-- The step that opens a form does nothing but open its file. -/
theorem opened_of_body {env : Env} {s : Session} {t : Turn} (hcommand : s.phase = .command)
    (hopened : (manageClient env s t).1.phase = .body) :
    ∃ start line, (manageClient env s t).2 =
        [.command start line, .openTrunc (manageClient env s t).1.filename] ∧
      Collected [] (manageClient env s t).1 := by
  rcases manageClient_cases env s t with heq | hact
  · rw [heq] at hopened
    simp [Session.wait, hcommand] at hopened
  · have hphase : (s.wait t).phase = .command := hcommand
    cases hact with
    | command _ hstep =>
      generalize manageClient env s t = r at *
      obtain ⟨s', es⟩ := r
      cases hstep with
      | @form ret line => exact ⟨(s.wait t).linePos, line, rfl, rfl, .nil⟩
      | leave | refused | unnamed | overlong | image | misnamed | closed => cases hopened
    | magic hother | user hother | pass hother | setup hother | body hother | image hother
    | payload hother | imageReply hother | close hother | insert hother | reply hother
    | abandon hother => simp [hphase] at hother

/-- **A form that was not received to its end.** From the `FILENAME` line on, as
long as the end of the form is not read, and also when the session has left the
form by losing the connection, by `QUIT`, by a line that could not be written or
by a record that was full: no record of any database has changed, no file but
the named one has changed, and that one holds a part of the text of the lines
read and nothing of what it held before. -/
theorem abandoned_form (env : Env) (cwd : Place) (w : World) {s : Session} {t : Turn}
    {ts : List Turn} (hcommand : s.phase = .command)
    (hopened : (manageClient env s t).1.phase = .body)
    (hin : (manageClient env).Meets (fun s _ => s.phase.InForm) (manageClient env s t).1 ts)
    (hend : ((manageClient env).run s (t :: ts)).1.phase ≠ .close) :
    let r := (manageClient env).run s (t :: ts)
    let path := (manageClient env s t).1.filename
    (∀ place key, (w.after cwd r.2).record place key = w.record place key) ∧
    (∀ place, place ≠ resolve cwd path → (w.after cwd r.2).file place = w.file place) ∧
    ∃ text, text <+: textOf (receivedLines r.2) ∧
      (w.after cwd r.2).file (resolve cwd path) = some text := by
  intro r path
  obtain ⟨start, line, hes, hcoll⟩ := opened_of_body hcommand hopened
  have hstart : Abandoning path (manageClient env s t).1 [.openTrunc path] :=
    ⟨[], [], [], rfl, by simp, by rw [hopened]; exact ⟨rfl, rfl, rfl, hcoll⟩⟩
  have hfinal := abandoning_run hstart hin
  have hevents : r.2 = .command start line ::
      ([.openTrunc path] ++ ((manageClient env).run (manageClient env s t).1 ts).2) := by
    simp [r, hes, path]
  rw [hevents]
  exact hfinal.world hend cwd w

/-- A college sends one line of a form and is gone. -/
def sampleCut : Bytes := sampleLogin ++ ascii "FILENAME M_0001_A_0001_0.txt\nab\n"

theorem abandoned_form_sample :
    let s := ((manageClient sampleEnv).run (Session.init sampleCut true 1120000000 [] [])
      (List.replicate 4 sampleTurn)).1
    let r := (manageClient sampleEnv).run s (sampleTurn :: List.replicate 3 sampleTurn)
    let path := (manageClient sampleEnv s sampleTurn).1.filename
    (∀ place key, (World.empty.after [] r.2).record place key = World.empty.record place key) ∧
    (∀ place, place ≠ resolve [] path →
      (World.empty.after [] r.2).file place = World.empty.file place) ∧
    ∃ text, text <+: textOf (receivedLines r.2) ∧
      (World.empty.after [] r.2).file (resolve [] path) = some text :=
  abandoned_form sampleEnv [] World.empty (by decide) (by decide) (by decide) (by decide)

/-- A form sent before under the same name is gone when the connection is lost
in mid-form. -/
theorem abandoned_form_truncates_sample :
    let place := resolve [] (txtdirOf 2005 1 ++ ascii "M_0001_A_0001_0.txt")
    let held : World := { World.empty with
      file := Function.update World.empty.file place (some (ascii "old\n")) }
    let r := (manageClient sampleEnv).run (Session.init sampleCut true 1120000000 [] [])
      (List.replicate 8 sampleTurn)
    r.1.phase = .done ∧ held.file place = some (ascii "old\n") ∧
      (held.after [] r.2).file place = some (ascii "ab\n") := by
  decide +kernel

end Esif.Server
