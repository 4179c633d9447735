import Mathlib.Data.List.Induction
import Esif.Server.Names

/-!
# Uploading a form

Between the `FILENAME` line and the line that ends the form the session collects
two copies of the lines it reads: the text, which the open stream holds back
until it is closed, and the record. Behind the end of the form the text is
written, the record is put into the database, and the reply is sent; neither
result is looked at.

## Main definitions

* `RecordOf` — the record that a list of lines builds
* `FormTaken` — the events of a form, from the line that announces it
* `Receiving` — the form received so far, and its events
* `Stored` — both stores hold a form
* `FormEnded` — a run that has come to the end of a form
* `FormReplied` — a run that has come to the reply to it, and no further

## Main results

* `receiving_run` — in a form, the two copies are copies of the lines read
* `acknowledged_stored_iff` — an acknowledged form is stored exactly when both
  calls did their work and no line holds a NUL
-/

namespace Esif.Server

open Esif.CS Esif.Posix

/-! ### The two copies of a form -/

/-- The marks of the lines of a form: each with its position in the stream. -/
def marks (lines : List (ℕ × Bytes)) : List Event := lines.map fun line => .bodyLine line.1 line.2

/-- The text `fputs` has put into the stream for some lines. -/
def textOf (lines : List Bytes) : Bytes := (lines.map cstr).flatten

/-- The record some lines build: each line with its NUL, and one byte more
behind a line that is only a part of a longer one. -/
inductive RecordOf : List Bytes → Bytes → Prop
  | nil : RecordOf [] []
  | whole {lines record line} (h : RecordOf lines record) (hline : endsLine line = true) :
      RecordOf (lines ++ [line]) (record ++ (line ++ [nul]))
  | cut {lines record line} (past : UInt8) (h : RecordOf lines record)
      (hline : endsLine line = false) :
      RecordOf (lines ++ [line]) (record ++ (line ++ [nul, past]))

/-- What the last line has added. -/
theorem RecordOf.concat_cases {lines : List Bytes} {record line : Bytes}
    (h : RecordOf (lines ++ [line]) record) :
    (∃ before, RecordOf lines before ∧ endsLine line = true ∧
        record = before ++ (line ++ [nul])) ∨
      ∃ before past, RecordOf lines before ∧ endsLine line = false ∧
        record = before ++ (line ++ [nul, past]) := by
  generalize hall : lines ++ [line] = all at h
  cases h with
  | nil => simp at hall
  | whole h' hline =>
    obtain ⟨rfl, hlast⟩ := List.append_inj' hall rfl
    obtain rfl := List.singleton_inj.mp hlast
    exact Or.inl ⟨_, h', hline, rfl⟩
  | cut past h' hline =>
    obtain ⟨rfl, hlast⟩ := List.append_inj' hall rfl
    obtain rfl := List.singleton_inj.mp hlast
    exact Or.inr ⟨_, past, h', hline, rfl⟩

theorem textOf_append (lines lines' : List Bytes) :
    textOf (lines ++ lines') = textOf lines ++ textOf lines' := by simp [textOf]

theorem textOf_concat (lines : List Bytes) (line : Bytes) :
    textOf (lines ++ [line]) = textOf lines ++ cstr line := by simp [textOf]

theorem textOf_eq_flatten {lines : List Bytes} (h : ∀ line ∈ lines, nul ∉ line) :
    textOf lines = lines.flatten := by
  induction lines with
  | nil => rfl
  | cons line lines ih =>
    have inner := ih fun l hl => h l (by simp [hl])
    simp only [textOf] at inner
    simp [textOf, inner, cstr_eq_self (h line (by simp))]

theorem cstr_length_le (s : Bytes) : (cstr s).length ≤ s.length :=
  (List.takeWhile_prefix _).length_le

theorem textOf_length_le (lines : List Bytes) : (textOf lines).length ≤ lines.flatten.length := by
  induction lines with
  | nil => simp [textOf]
  | cons line lines ih =>
    simp only [textOf, List.map_cons, List.flatten_cons, List.length_append] at ih ⊢
    have := cstr_length_le line
    omega

/-- The text is as long as the lines only when no line holds a NUL. -/
theorem nul_notMem_of_textOf {lines : List Bytes} (h : textOf lines = lines.flatten) :
    ∀ line ∈ lines, nul ∉ line := by
  induction lines with
  | nil => simp
  | cons line lines ih =>
    have hlen := congrArg List.length h
    have hhead := cstr_length_le line
    have htail := textOf_length_le lines
    simp only [textOf, List.map_cons, List.flatten_cons, List.length_append] at h hlen htail
    have hsame : cstr line = line := (List.takeWhile_prefix _).eq_of_length
      (by simp only [cstr] at *; omega)
    have hrest : textOf lines = lines.flatten := by
      rw [hsame] at h
      exact List.append_cancel_left h
    intro l hl
    rcases List.mem_cons.mp hl with rfl | hl
    · intro hnul
      rw [← hsame] at hnul
      exact absurd (List.mem_takeWhile_imp hnul) (by simp)
    · exact ih hrest l hl

section

variable {env : Env} {s s' : Session} {t : Turn} {es es₀ : List Event}

/-- The two copies in the session are copies of `lines`. -/
structure Collected (lines : List Bytes) (s : Session) : Prop where
  text : s.stfile = textOf lines
  record : RecordOf lines s.regbuf

/-- The file in hand and the key are those of one name. -/
def NamedBy (s : Session) (name : Bytes) : Prop :=
  s.filename = s.txtdir ++ name ∧ s.regkey = stem name

/-- The events end with a form of this name: the line that announces it, its file opened, its
lines, and `tail` behind them. `old` is what `tmpname` held before. -/
def FormTaken (es : List Event) (dir name : Bytes) (lines : List Bytes) (tail : List Event) :
    Prop :=
  ∃ before start line old marked, ascii "FILENAME " <+: line ∧
    name = scanFilename (cstr (line.drop 9)) old ∧ lines = marked.map Prod.snd ∧
    es = before ++ .command start line :: .openTrunc (dir ++ name) :: (marks marked ++ tail)

/-- What stands behind the lines of a form that is over: nothing, or the line that it ends with. -/
def FormTail (tail : List Event) : Prop :=
  tail = [] ∨ ∃ start line stop, tail = [.bodyLine start line, .bodyEnd stop]

/-- Inside a form the events end with it, and the session has collected its lines. Behind it: its
end too, its text and, where it was broken off, no more than that. -/
def Receiving (s : Session) (es : List Event) : Prop :=
  match s.phase with
  | .body => ∃ name lines, NamedBy s name ∧ Collected lines s ∧
      FormTaken es s.txtdir name lines []
  | .close => ∃ name lines start stop, NamedBy s name ∧ Collected lines s ∧
      FormTaken es s.txtdir name lines [.bodyLine start (ascii ".\n"), .bodyEnd stop]
  | .insert => ∃ name lines start stop t, NamedBy s name ∧ RecordOf lines s.regbuf ∧
      FormTaken es s.txtdir name lines [.bodyLine start (ascii ".\n"), .bodyEnd stop,
        .writeAt s.filename 0 (flushed (textOf lines) t)]
  | .abandon _ => ∃ name lines tail, NamedBy s name ∧ s.stfile = textOf lines ∧ FormTail tail ∧
      FormTaken es s.txtdir name lines tail
  | _ => True

theorem receiving_of_magic (h : s.phase = .magic) : Receiving s es := by
  simp [Receiving, h]

theorem Receiving.of_body (h : Receiving s es) (hbody : s.phase = .body) :
    ∃ name lines, NamedBy s name ∧ Collected lines s ∧ FormTaken es s.txtdir name lines [] := by
  simpa only [Receiving, hbody] using h

theorem Receiving.of_close (h : Receiving s es) (hclose : s.phase = .close) :
    ∃ name lines start stop, NamedBy s name ∧ Collected lines s ∧
      FormTaken es s.txtdir name lines [.bodyLine start (ascii ".\n"), .bodyEnd stop] := by
  simpa only [Receiving, hclose] using h

theorem Receiving.of_insert (h : Receiving s es) (hinsert : s.phase = .insert) :
    ∃ name lines start stop t, NamedBy s name ∧ RecordOf lines s.regbuf ∧
      FormTaken es s.txtdir name lines [.bodyLine start (ascii ".\n"), .bodyEnd stop,
        .writeAt s.filename 0 (flushed (textOf lines) t)] := by
  simpa only [Receiving, hinsert] using h

theorem Receiving.of_abandon {leave : Bool} (h : Receiving s es)
    (habandon : s.phase = .abandon leave) :
    ∃ name lines tail, NamedBy s name ∧ s.stfile = textOf lines ∧ FormTail tail ∧
      FormTaken es s.txtdir name lines tail := by
  simpa only [Receiving, habandon] using h

/-- The name in hand survives a line. -/
theorem NamedBy.of_line {name line : Bytes} {ret : ℤ} {m : Session} (h : NamedBy s name)
    (hread : s.readline t.reads = some (ret, line, m)) : NamedBy m name := by
  rw [(Session.readline_cases hread).keep]
  exact h

/-- Events behind a form stand behind it. -/
theorem FormTaken.append {dir name : Bytes} {lines : List Bytes} {tail : List Event}
    (h : FormTaken es dir name lines tail) (es' : List Event) :
    FormTaken (es ++ es') dir name lines (tail ++ es') := by
  obtain ⟨before, start, line, old, marked, hword, hname, hlines, rfl⟩ := h
  exact ⟨before, start, line, old, marked, hword, hname, hlines, by simp⟩

/-- One line more. -/
theorem FormTaken.line {dir name : Bytes} {lines : List Bytes}
    (h : FormTaken es dir name lines []) (start : ℕ) (line : Bytes) :
    FormTaken (es ++ [.bodyLine start line]) dir name (lines ++ [line]) [] := by
  obtain ⟨before, start', line', old, marked, hword, hname, rfl, rfl⟩ := h
  exact ⟨before, start', line', old, marked ++ [(start, line)], hword, hname, by simp,
    by simp [marks]⟩

/-- What the body loop copies for a line is the line, its NUL and, behind a part
of a longer line, the next byte. -/
theorem recordOf_concat {lines : List Bytes} {record : Bytes} (h : RecordOf lines record)
    {ret : ℤ} {line : Bytes} {m : Session} (hread : s.LineRead ret line m) (hret : 0 < ret)
    (past : UInt8) :
    RecordOf (lines ++ [line]) (record ++ (m.buffer ++ [past]).take (ret.toNat + 1)) := by
  rcases hread.ret with herr | ⟨hzero, -⟩ | ⟨heq, -⟩
  · omega
  · omega
  · rw [hread.buffer_eq hret]
    cases hline : endsLine line with
    -- a whole line: the copy ends at the NUL `readline` put behind it
    | true =>
      have hcopied : (line ++ nul :: s.buffer.drop (line.length + 1) ++ [past]).take
          (ret.toNat + 1) = line ++ [nul] := by
        have hlen : ret.toNat = line.length := by simp [hline] at heq; omega
        rw [hlen, List.append_assoc, List.take_append, List.take_of_length_le (by omega)]
        simp
      rw [hcopied]
      exact .whole h hline
    -- a part: `ret` counts one byte too many, so the copy goes one past the NUL
    | false =>
      obtain ⟨b, rest, hrest⟩ : ∃ b rest, s.buffer.drop (line.length + 1) ++ [past] = b :: rest :=
        List.exists_cons_of_ne_nil (by simp)
      have hcopied : (line ++ nul :: s.buffer.drop (line.length + 1) ++ [past]).take
          (ret.toNat + 1) = line ++ [nul, b] := by
        have hlen : ret.toNat = line.length + 1 := by simp [hline] at heq; omega
        have htwo : line.length + 1 + 1 - line.length = 2 := by omega
        rw [hlen, List.append_assoc, List.cons_append, hrest, List.take_append,
          List.take_of_length_le (by omega), htwo]
        rfl
      rw [hcopied]
      exact .cut b h hline

theorem Phase.next_abandon {p : Phase} {leave : Bool} (h : p.Next (.abandon leave)) :
    p = .body := by
  cases p with
  | abandon leave => cases leave <;> simp [Phase.Next] at h
  | _ => simp_all [Phase.Next]

/-- Only the command loop and the form itself lead into a form. -/
theorem receiving_of_next {p : Phase} (hnext : p.Next s.phase) (hcommand : p ≠ .command)
    (hbody : p ≠ .body) (hclose : p ≠ .close) : Receiving s es := by
  unfold Receiving
  cases hphase : s.phase with
  | body =>
    rw [hphase] at hnext
    rcases Phase.next_body hnext with h | h
    · exact absurd h hcommand
    · exact absurd h hbody
  | close =>
    rw [hphase] at hnext
    exact absurd (Phase.next_close hnext) hbody
  | insert =>
    rw [hphase] at hnext
    exact absurd (Phase.next_insert hnext) hclose
  | abandon leave =>
    rw [hphase] at hnext
    exact absurd (Phase.next_abandon hnext) hbody
  | _ => trivial

theorem Acted.receiving (h : Acted env s t s' es) (hrec : Receiving s es₀) :
    Receiving s' (es₀ ++ es) := by
  have hnext := h.next
  cases h with
  | command hphase hstep =>
    cases hstep with
    | @form ret line m tmpname hread hret hword hscan =>
      exact ⟨tmpname, [], ⟨rfl, rfl⟩, ⟨rfl, .nil⟩, es₀, s.linePos, line, m.tmpname, [], hword,
        hscan.symm, rfl, by simp [marks]⟩
    -- what does not open a form promises nothing
    | leave | refused | unnamed | overlong | image | misnamed | closed => trivial
  | body hphase hstep =>
    obtain ⟨name, lines, hnamed, hcoll, htaken⟩ := hrec.of_body hphase
    cases hstep with
    | full | overlong => trivial
    | @cut ret line m hread =>
      have hnamed' := hnamed.of_line hread
      rw [(Session.readline_cases hread).keep] at hnamed' ⊢
      exact ⟨name, lines, [], hnamed', hcoll.text, Or.inl rfl, by simpa using htaken⟩
    -- the dot is not copied: both copies stay as they were
    | @dot ret line m hread hret hword =>
      have hline := Session.readline_cases hread
      obtain rfl : line = ascii ".\n" := hline.eq_of_word hret (ascii ".") hword
      have hnamed' := hnamed.of_line hread
      rw [hline.keep] at hnamed' ⊢
      exact ⟨name, lines, s.linePos, _, hnamed', ⟨hcoll.text, hcoll.record⟩,
        by simpa using htaken.append _⟩
    | @quit ret line m hread =>
      have hnamed' := hnamed.of_line hread
      rw [(Session.readline_cases hread).keep] at hnamed' ⊢
      exact ⟨name, lines, _, hnamed', hcoll.text, Or.inr ⟨_, _, _, rfl⟩,
        by simpa using htaken.append _⟩
    | @failed ret line m hread =>
      have hnamed' := hnamed.of_line hread
      rw [(Session.readline_cases hread).keep] at hnamed' ⊢
      exact ⟨name, lines, _, hnamed', hcoll.text, Or.inr ⟨_, _, _, rfl⟩,
        by simpa using htaken.append _⟩
    -- both copies grow by the line that was read
    | @line ret line m hread hret hdot hquit hok hroom =>
      have hline := Session.readline_cases hread
      have hnamed' := hnamed.of_line hread
      have hst : m.stfile = s.stfile := by rw [hline.keep]
      have hreg : m.regbuf = s.regbuf := by rw [hline.keep]
      have hphase' : m.phase = .body := by rw [hline.keep]; exact hphase
      have hdir : m.txtdir = s.txtdir := by rw [hline.keep]
      simp only [Receiving, hphase']
      refine ⟨name, lines ++ [line], hnamed', ⟨?_, ?_⟩, ?_⟩
      · simp only [hst, hcoll.text, textOf_concat]
      · simp only [hreg]
        exact recordOf_concat hcoll.record hline hret _
      · simp only [hdir]
        exact htaken.line s.linePos line
  -- what is written behind the form is the text collected so far
  | close hphase hstep =>
    obtain ⟨name, lines, start, stop, hnamed, hcoll, htaken⟩ := hrec.of_close hphase
    obtain ⟨errno, rfl, rfl⟩ := closeForm_cases hstep
    refine ⟨name, lines, start, stop, t, hnamed, hcoll.record, ?_⟩
    rw [hcoll.text]
    exact htaken.append _
  | magic hphase | user hphase | pass hphase | setup hphase | image hphase | payload hphase
  | imageReply hphase | insert hphase | reply hphase | abandon hphase =>
    rw [hphase] at hnext
    exact receiving_of_next hnext (by simp) (by simp) (by simp)

theorem Receiving.wait (h : Receiving s es) (t : Turn) : Receiving (s.wait t) es := by
  have hphase : (s.wait t).phase = s.phase := rfl
  unfold Receiving at h ⊢
  rw [hphase]
  split at h
  · obtain ⟨name, lines, hnamed, hcoll, htaken⟩ := h
    exact ⟨name, lines, hnamed, ⟨hcoll.text, hcoll.record⟩, htaken⟩
  · obtain ⟨name, lines, start, stop, hnamed, hcoll, htaken⟩ := h
    exact ⟨name, lines, start, stop, hnamed, ⟨hcoll.text, hcoll.record⟩, htaken⟩
  · exact h
  · exact h
  · trivial

theorem receiving_step (s : Session) (es : List Event) (t : Turn) (h : Receiving s es) :
    Receiving (manageClient env s t).1 (es ++ (manageClient env s t).2) := by
  have hwaited := h.wait t
  rcases manageClient_cases env s t with heq | hact
  · simpa [heq] using hwaited
  · exact hact.receiving hwaited

/-- In a form, the two copies are copies of the lines read since it was announced. -/
theorem receiving_run {s : Session} (h : Receiving s []) (ts : List Turn) :
    Receiving ((manageClient env).run s ts).1 ((manageClient env).run s ts).2 := by
  simpa using Machine.run_induction (fun s es t _ h => receiving_step s es t h) h
    (Machine.meets_true s ts)

/-! ### The steps behind the end of a form -/

theorem manageClient_of_close (h : s.phase = .close) :
    manageClient env s t = closeForm (s.wait t) t := by
  simp [manageClient, act, Session.wait, h]

theorem manageClient_of_insert (h : s.phase = .insert) :
    manageClient env s t = insertForm (s.wait t) t := by
  simp [manageClient, act, Session.wait, h]

/-- Behind the end of a form the text is written and the record is put, whatever
became of the text. -/
theorem events_of_close (h : s.phase = .close) (c p : Turn) :
    ((manageClient env).run s [c, p]).2 = .writeAt s.filename 0 (flushed s.stfile c) ::
      if p.ok then [.put s.regdb s.regkey s.regbuf] else [] := by
  have hinsert : (manageClient env s c).1.phase = .insert := by
    rw [manageClient_of_close h]
    rfl
  rw [Machine.run_cons_snd, Machine.run_cons_snd, manageClient_of_insert hinsert,
    manageClient_of_close h]
  simp [closeForm, fclose, insertForm, Session.wait]

/-- Sending the reply touches no store. -/
theorem manageClient_of_reply (h : s.phase = .reply) :
    ∀ e ∈ (manageClient env s t).2, e.IsReply := by
  rcases manageClient_cases env s t with heq | hact
  · simp [heq]
  · have hphase : (s.wait t).phase = .reply := h
    cases hact with
    | reply _ hstep =>
      obtain ⟨errno, buffer, ⟨sent, -, hes⟩ | ⟨-, hes⟩⟩ := replyForm_cases hstep <;>
        simp [hes, Event.IsReply]
    | magic hother | user hother | pass hother | setup hother | command hother | image hother
    | payload hother | imageReply hother | body hother | close hother | insert hother
    | abandon hother => simp [hphase] at hother

/-- The database is called right after the text was written. -/
theorem exists_close_of_insert {s₀ : Session} (hstart : s₀.phase ≠ .insert) {ts : List Turn}
    (h : ((manageClient env).run s₀ ts).1.phase = .insert) :
    ∃ before c, ts = before ++ [c] ∧ ((manageClient env).run s₀ before).1.phase = .close := by
  rcases List.eq_nil_or_concat ts with rfl | ⟨before, c, rfl⟩
  · exact absurd h hstart
  · rw [List.concat_eq_append, Machine.run_append] at h
    refine ⟨before, c, List.concat_eq_append, ?_⟩
    rcases manageClient_cases env ((manageClient env).run s₀ before).1 c with heq | hact
    · have hinsert : ((manageClient env).run s₀ before).1.phase = .insert := by
        simpa [heq, Session.wait] using h
      simp [manageClient_of_insert hinsert, insertForm] at h
    · have hnext := hact.next
      rw [show (manageClient env _ c).1.phase = .insert from h] at hnext
      exact Phase.next_insert hnext

/-- The reply is reached by writing the text and calling the database; waiting
for the socket adds nothing. -/
theorem exists_close_of_reply {s₀ : Session} (hstart : s₀.phase ≠ .insert ∧ s₀.phase ≠ .reply)
    {ts : List Turn} (h : ((manageClient env).run s₀ ts).1.phase = .reply) :
    ∃ before c p waits, ts = before ++ c :: p :: waits ∧
      ((manageClient env).run s₀ before).1.phase = .close ∧
      ((manageClient env).run s₀ ts).2 = ((manageClient env).run s₀ (before ++ [c, p])).2 := by
  induction ts using List.reverseRecOn with
  | nil => exact absurd h hstart.2
  | append_singleton ts r ih =>
    rw [Machine.run_append] at h
    rcases manageClient_cases env ((manageClient env).run s₀ ts).1 r with heq | hact
    · have hreply : ((manageClient env).run s₀ ts).1.phase = .reply := by
        simpa [heq, Session.wait] using h
      obtain ⟨before, c, p, waits, rfl, hclose, hes⟩ := ih hreply
      refine ⟨before, c, p, waits ++ [r], by simp, hclose, ?_⟩
      rw [Machine.run_append]
      simp [heq, hes]
    · have hnext := hact.next
      rw [show (manageClient env _ r).1.phase = .reply from h] at hnext
      obtain ⟨before, c, rfl, hclose⟩ := exists_close_of_insert hstart.1 (Phase.next_reply hnext)
      exact ⟨before, c, r, [], by simp, hclose, by simp⟩

end

/-! ### Acknowledged forms -/

/-- Both stores hold the form `s` has received: its lines in the text file, its
record under its key. -/
structure Stored (cwd : Place) (w : World) (s : Session) (lines : List Bytes) : Prop where
  text : w.file (resolve cwd s.filename) = some lines.flatten
  record : w.record (resolve cwd s.regdb) s.regkey = some s.regbuf

theorem marks_not_touchesFile (cwd place : Place) (lines : List (ℕ × Bytes)) :
    ∀ e ∈ marks lines, ¬ e.TouchesFile cwd place := by
  intro e he
  obtain ⟨line, -, rfl⟩ := List.mem_map.mp he
  exact id

/-- A file that was opened and then written once holds what was written. -/
theorem file_of_written (cwd : Place) (w : World) (path data : Bytes) (es₀ rest : List Event)
    {quiet : List Event}
    (hquiet : ∀ e ∈ quiet, ¬ e.TouchesFile cwd (resolve cwd path))
    (hrest : ∀ e ∈ rest, ¬ e.TouchesFile cwd (resolve cwd path)) :
    (w.after cwd (es₀ ++ .openTrunc path :: quiet ++ .writeAt path 0 data :: rest)).file
      (resolve cwd path) = some data := by
  have hopened : ((w.after cwd (es₀ ++ [.openTrunc path])).after cwd quiet).file
      (resolve cwd path) = some [] := by
    rw [World.after_file_of_forall hquiet, World.after_append]
    simp [World.apply]
  have hsplit : es₀ ++ .openTrunc path :: quiet ++ .writeAt path 0 data :: rest =
      ((es₀ ++ [.openTrunc path]) ++ quiet) ++ .writeAt path 0 data :: rest := by simp
  rw [hsplit, World.after_append, World.after_append, World.after_cons,
    World.after_file_of_forall hrest]
  simp [World.apply, hopened]

/-- What a call of `fclose` gets written are the lines of the form exactly when
it gets all of its text written and no line holds a NUL. -/
theorem flushed_eq_flatten_iff (lines : List Bytes) (t : Turn) :
    flushed (textOf lines) t = lines.flatten ↔
      (t.ok = true ∨ (textOf lines).length ≤ t.kept) ∧ ∀ line ∈ lines, nul ∉ line := by
  constructor
  · intro h
    have hpre := flushed_prefix (textOf lines) t
    have hlen : (flushed (textOf lines) t).length = (textOf lines).length := by
      have := textOf_length_le lines
      have := hpre.length_le
      rw [h] at *
      omega
    have htext : flushed (textOf lines) t = textOf lines := hpre.eq_of_length hlen
    refine ⟨?_, nul_notMem_of_textOf (htext.symm.trans h)⟩
    by_cases hok : t.ok = true
    · exact Or.inl hok
    · right
      simp only [flushed, hok, Bool.false_eq_true, if_false, List.length_take] at hlen
      omega
  · rintro ⟨hfull, hnul⟩
    rw [← textOf_eq_flatten hnul]
    unfold flushed
    split
    · rfl
    · next hok => exact List.take_of_length_le (hfull.resolve_left hok)

/-- What the two stores hold when the form is acknowledged: what was written, and
the record, if it was put. -/
theorem world_of_acked {cwd : Place} {w : World} {s : Session} {lines : List (ℕ × Bytes)}
    {start stop : ℕ} {data : Bytes} {p : Turn} {es₀ before acked replies : List Event}
    (hacked : acked = before ++ .writeAt s.filename 0 data ::
      if p.ok then [.put s.regdb s.regkey s.regbuf] else [])
    (hbefore : before = es₀ ++ .openTrunc s.filename ::
      (marks lines ++ [.bodyLine start (ascii ".\n"), .bodyEnd stop]))
    (hreplies : ∀ e ∈ replies, e.IsReply) :
    (w.after cwd (acked ++ replies)).file (resolve cwd s.filename) = some data ∧
      (w.after cwd (acked ++ replies)).record (resolve cwd s.regdb) s.regkey =
        if p.ok then some s.regbuf else
          (w.after cwd before).record (resolve cwd s.regdb) s.regkey := by
  constructor
  · have hsplit : acked ++ replies = es₀ ++ .openTrunc s.filename ::
        (marks lines ++ [.bodyLine start (ascii ".\n"), .bodyEnd stop]) ++
        .writeAt s.filename 0 data ::
          ((if p.ok then [.put s.regdb s.regkey s.regbuf] else []) ++ replies) := by
      simp [hacked, hbefore]
    rw [hsplit]
    -- between `fopen` and `fclose`, and behind it, nothing touches the file
    refine file_of_written cwd w s.filename data _ _ (fun e he => ?_) (fun e he => ?_)
    · rcases List.mem_append.mp he with he | he
      · exact marks_not_touchesFile _ _ lines e he
      · simp only [List.mem_cons, List.not_mem_nil, or_false] at he
        rcases he with rfl | rfl <;> exact id
    · rcases List.mem_append.mp he with he | he
      · split at he
        · obtain rfl : e = .put s.regdb s.regkey s.regbuf := by simpa using he
          exact id
        · simp at he
      · obtain ⟨sent, rfl⟩ := hreplies e he
        exact id
  · rw [World.after_append, World.after_record_of_forall, hacked, World.after_append,
      World.after_cons]
    -- the record is put behind the text, or not at all
    · by_cases hok : p.ok = true
      · simp [hok, World.apply]
      · simp [hok, World.apply]
    · intro e he
      obtain ⟨sent, rfl⟩ := hreplies e he
      exact id

/-- Closing a form and putting its record leave the form in both stores exactly
when what was written are its lines, and the record was put or was there. -/
theorem stored_iff {cwd : Place} {w : World} {s : Session} {lines : List (ℕ × Bytes)}
    {start stop : ℕ} {data : Bytes} {p : Turn} {es₀ before acked replies : List Event}
    (hacked : acked = before ++ .writeAt s.filename 0 data ::
      if p.ok then [.put s.regdb s.regkey s.regbuf] else [])
    (hbefore : before = es₀ ++ .openTrunc s.filename ::
      (marks lines ++ [.bodyLine start (ascii ".\n"), .bodyEnd stop]))
    (hreplies : ∀ e ∈ replies, e.IsReply) :
    Stored cwd (w.after cwd (acked ++ replies)) s (lines.map Prod.snd) ↔
      data = (lines.map Prod.snd).flatten ∧
      (p.ok = true ∨
        (w.after cwd before).record (resolve cwd s.regdb) s.regkey = some s.regbuf) := by
  obtain ⟨hfile, hrecord⟩ := @world_of_acked cwd w _ _ _ _ _ _ _ _ _ _ hacked hbefore hreplies
  constructor
  · rintro ⟨htext, hput⟩
    rw [hfile] at htext
    rw [hrecord] at hput
    refine ⟨Option.some.inj htext, ?_⟩
    -- a put that failed leaves the record that was there
    by_cases hok : p.ok = true
    · exact Or.inl hok
    · exact Or.inr (by simpa [hok] using hput)
  · rintro ⟨rfl, hput⟩
    refine ⟨hfile, ?_⟩
    rw [hrecord]
    by_cases hok : p.ok = true
    · simp [hok]
    · simpa [hok] using hput

/-- The run `ts` has come through the end of a form of `lines`: `before` leads to
the end of the form, where `fclose` and `DB->put` are called in turns `c` and
`p` on the two copies of these lines. -/
structure FormEnded (env : Env) (s₀ : Session) (ts before : List Turn) (c p : Turn)
    (lines : List Bytes) : Prop where
  split : ∃ waits, ts = before ++ c :: p :: waits
  close : ((manageClient env).run s₀ before).1.phase = .close
  received : ∃ es₀ marked start stop, lines = marked.map Prod.snd ∧
    ((manageClient env).run s₀ before).2 =
      es₀ ++ .openTrunc ((manageClient env).run s₀ before).1.filename ::
        (marks marked ++ [.bodyLine start (ascii ".\n"), .bodyEnd stop])
  collected : Collected lines ((manageClient env).run s₀ before).1

/-- The run `ts` has come to the reply to a form of `lines`: all it has done since the end of
this form, whatever forms it received before, are the two calls on its copies. -/
structure FormReplied (env : Env) (s₀ : Session) (ts before : List Turn) (c p : Turn)
    (lines : List Bytes) : Prop extends FormEnded env s₀ ts before c p lines where
  since : ((manageClient env).run s₀ ts).2 = ((manageClient env).run s₀ before).2 ++
    .writeAt ((manageClient env).run s₀ before).1.filename 0 (flushed (textOf lines) c) ::
      if p.ok then
        [.put ((manageClient env).run s₀ before).1.regdb ((manageClient env).run s₀ before).1.regkey
          ((manageClient env).run s₀ before).1.regbuf]
      else []

/-- At the end of a form the events end with it, and the two copies are those of its lines. -/
theorem received_of_close {env : Env} {s₀ : Session} (hmagic : s₀.phase = .magic)
    {before : List Turn} (hclose : ((manageClient env).run s₀ before).1.phase = .close) :
    ∃ es₀ marked start stop, ((manageClient env).run s₀ before).2 =
        es₀ ++ .openTrunc ((manageClient env).run s₀ before).1.filename ::
          (marks marked ++ [.bodyLine start (ascii ".\n"), .bodyEnd stop]) ∧
      Collected (marked.map Prod.snd) ((manageClient env).run s₀ before).1 := by
  obtain ⟨name, lines, start, stop, hnamed, hcoll, es₀, pos, line, old, marked, -, -, rfl, hes⟩ :=
    (@receiving_run env s₀ (receiving_of_magic hmagic) before).of_close hclose
  rw [← hnamed.1] at hes
  exact ⟨es₀ ++ [.command pos line], marked, start, stop, by rw [hes]; simp, hcoll⟩

/-- A run that comes to the reply to a form has come through the end of one, and
has called `fclose` and `DB->put` since. -/
theorem formReplied_of_reply {env : Env} {s₀ : Session} (hbody : s₀.phase = .magic)
    {ts : List Turn} (hreply : ((manageClient env).run s₀ ts).1.phase = .reply) :
    ∃ before c p lines, FormReplied env s₀ ts before c p lines := by
  obtain ⟨before, c, p, waits, hts, hclose, hes⟩ :=
    exists_close_of_reply (by simp [hbody]) hreply
  obtain ⟨es₀, lines, start, stop, hbefore, hcoll⟩ := received_of_close hbody hclose
  refine ⟨before, c, p, lines.map Prod.snd, ⟨⟨waits, hts⟩, hclose,
    ⟨es₀, lines, start, stop, rfl, hbefore⟩, hcoll⟩, ?_⟩
  rw [hes, Machine.run_append_snd, events_of_close hclose, hcoll.text]

/-- **Acknowledged forms.** In every run of a session that has come to the reply
to a form: the last it has done were `fclose` and `DB->put` on the copies of this form, and
when the reply is sent both stores hold the form exactly when `fclose` got all of the
text written, no line of the form holds a NUL, and `DB->put` stored the record,
if it was not there already. -/
theorem acknowledged_stored_iff (env : Env) (cwd : Place) (w : World) (stream : Bytes) (eof : Bool)
    (clock : ℤ) (user tmpname : Bytes) (ts : List Turn) (r : Turn) :
    let s₀ := Session.init stream eof clock user tmpname
    let acked := (manageClient env).run s₀ ts
    acked.1.phase = .reply → .send (ebuf SUCCESS) ∈ (manageClient env acked.1 r).2 →
    ∃ before c p lines, FormReplied env s₀ ts before c p lines ∧
      let received := (manageClient env).run s₀ before
      let s := received.1
      (Stored cwd (w.after cwd (acked.2 ++ (manageClient env acked.1 r).2)) s lines ↔
        ((c.ok = true ∨ (textOf lines).length ≤ c.kept) ∧ ∀ line ∈ lines, nul ∉ line) ∧
        (p.ok = true ∨
          (w.after cwd received.2).record (resolve cwd s.regdb) s.regkey = some s.regbuf)) := by
  intro s₀ acked hreply hack
  obtain ⟨before, c, p, lines, hreplied⟩ := @formReplied_of_reply env s₀ rfl ts hreply
  refine ⟨before, c, p, lines, hreplied, ?_⟩
  obtain ⟨es₀, marked, start, stop, rfl, hbefore⟩ := hreplied.received
  have hquiet : ∀ e ∈ (manageClient env acked.1 r).2, e.IsReply := manageClient_of_reply hreply
  exact (stored_iff hreplied.since hbefore hquiet).trans (by rw [flushed_eq_flatten_iff])

/-- A college sends one form of one line. -/
def sampleUpload : Bytes := sampleLogin ++ ascii "FILENAME M_0001_A_0001_0.txt\nab\n.\n"

theorem acknowledged_stored_iff_sample :
    let s₀ := Session.init sampleUpload true 1120000000 [] []
    let acked := (manageClient sampleEnv).run s₀ (List.replicate 9 sampleTurn)
    ∃ before c p lines, FormReplied sampleEnv s₀ (List.replicate 9 sampleTurn) before c p lines ∧
      let received := (manageClient sampleEnv).run s₀ before
      let s := received.1
      (Stored [] (World.empty.after [] (acked.2 ++ (manageClient sampleEnv acked.1 sampleTurn).2))
          s lines ↔
        ((c.ok = true ∨ (textOf lines).length ≤ c.kept) ∧ ∀ line ∈ lines, nul ∉ line) ∧
        (p.ok = true ∨
          (World.empty.after [] received.2).record (resolve [] s.regdb) s.regkey =
            some s.regbuf)) :=
  acknowledged_stored_iff sampleEnv [] World.empty sampleUpload true 1120000000 [] [] _ sampleTurn
    (by decide) (by decide)

/-- The same upload where `DB->put` fails is acknowledged, and no record is
there. -/
theorem acknowledged_not_stored_sample :
    let s₀ := Session.init sampleUpload true 1120000000 [] []
    let acked := (manageClient sampleEnv).run s₀
      (List.replicate 8 sampleTurn ++ [{ sampleTurn with ok := false }])
    acked.1.phase = .reply ∧
      .send (ebuf SUCCESS) ∈ (manageClient sampleEnv acked.1 sampleTurn).2 ∧
      ∀ lines, ¬ Stored []
        (World.empty.after [] (acked.2 ++ (manageClient sampleEnv acked.1 sampleTurn).2))
        acked.1 lines :=
  ⟨by decide, by decide, fun _ h => absurd h.record (by decide)⟩

end Esif.Server
