import Esif.CS.Interleave
import Esif.Server.Upload

/-!
# Two uploads of the same form

Every session runs in a thread of its own with its own stream and its own
database handle, and nothing keeps two of them apart. When two sessions of a
college upload under one name, the record is that of the session that puts it
last and the text that of the session that writes last, which need not be the
same one; and a file that was opened before the other text was written keeps
what reaches beyond its own.

## Main definitions

* `Uploads` — a session that uploads one form under a name
* `over` — a text written over another one

## Main results

* `concurrent_uploads` — the two stores after two uploads in any interleaving
-/

namespace Esif.Server

open Esif.CS Esif.Posix

/-- The event acts on the text file or the record of the form in `s`. -/
def Event.OnForm (cwd : Place) (s : Session) (e : Event) : Prop :=
  e.TouchesFile cwd (resolve cwd s.filename) ∨
    e.TouchesRecord cwd (resolve cwd s.regdb) s.regkey

instance (cwd : Place) (s : Session) (e : Event) : Decidable (e.OnForm cwd s) :=
  inferInstanceAs (Decidable (_ ∨ _))

/-- In the turns `ts` of a session from its start one form of `lines` is
uploaded and acknowledged; the session was `s` when the form had ended, both
calls behind it succeed, and nothing else the session does is about that file or
that record. -/
structure Uploads (env : Env) (cwd : Place) (s₀ : Session) (ts : List Turn) (s : Session)
    (lines : List Bytes) : Prop where
  start : ∃ stream eof clock user tmpname, s₀ = Session.init stream eof clock user tmpname
  acked : ∃ before c p waits r rest, ts = before ++ c :: p :: (waits ++ r :: rest) ∧
    ((manageClient env).run s₀ before).1 = s ∧
    FormEnded env s₀ (before ++ c :: p :: waits) before c p lines ∧
    c.ok = true ∧ p.ok = true ∧
    .send (ebuf SUCCESS) ∈
      (manageClient env ((manageClient env).run s₀ (before ++ c :: p :: waits)).1 r).2
  alone : (((manageClient env).run s₀ ts).2.filter (·.OnForm cwd s)).length = 3

/-- What an upload does to its file and its record: open, write, put. -/
def storesOf (s : Session) (lines : List Bytes) : List Event :=
  [.openTrunc s.filename, .writeAt s.filename 0 (textOf lines), .put s.regdb s.regkey s.regbuf]

section Uploads

variable {env : Env} {cwd : Place} {s₀ s : Session} {ts : List Turn} {lines : List Bytes}

theorem Uploads.record (h : Uploads env cwd s₀ ts s lines) : RecordOf lines s.regbuf := by
  obtain ⟨before, c, p, waits, r, rest, -, hs, hended, -⟩ := h.acked
  exact hs ▸ hended.collected.record

theorem Uploads.stores (h : Uploads env cwd s₀ ts s lines) :
    ((manageClient env).run s₀ ts).2.filter (·.OnForm cwd s) = storesOf s lines := by
  obtain ⟨before, c, p, waits, r, rest, rfl, hs, hended, hc, hp, -⟩ := h.acked
  obtain ⟨es₀, marked, start, stop, -, hreceived⟩ := hended.received
  have hclose := hended.close
  have htext := hended.collected.text
  rw [hs] at hreceived hclose htext
  have hflushed : flushed s.stfile c = textOf lines := by rw [flushed, if_pos hc, htext]
  have hsplit : before ++ c :: p :: (waits ++ r :: rest) =
      before ++ ([c, p] ++ (waits ++ r :: rest)) := by simp
  have hsub : (storesOf s lines).Sublist
      ((manageClient env).run s₀ (before ++ c :: p :: (waits ++ r :: rest))).2 := by
    rw [hsplit, Machine.run_append_snd, Machine.run_append_snd, hs, events_of_close hclose,
      hreceived, hflushed, if_pos hp]
    have hopen : [Event.openTrunc s.filename].Sublist (es₀ ++ .openTrunc s.filename ::
        (marks marked ++ [.bodyLine start (ascii ".\n"), .bodyEnd stop])) := by simp
    exact hopen.append (List.sublist_append_left _ _)
  have hkept : (storesOf s lines).filter (·.OnForm cwd s) = storesOf s lines := by
    simp [storesOf, Event.OnForm, Event.TouchesFile, Event.TouchesRecord]
  have hfiltered := hsub.filter (·.OnForm cwd s)
  rw [hkept] at hfiltered
  exact (hfiltered.eq_of_length (by rw [h.alone]; rfl)).symm

/-- The calls of an upload that meet a condition, when they all act on its file
or its record. -/
theorem Uploads.filter_stores (h : Uploads env cwd s₀ ts s lines) {q : Event → Bool}
    (hq : ∀ e, q e = true → e.OnForm cwd s) :
    ((manageClient env).run s₀ ts).2.filter q = (storesOf s lines).filter q := by
  rw [← h.stores, List.filter_filter]
  refine List.filter_congr fun e _ => ?_
  by_cases he : q e = true
  · simp [he, hq e he]
  · simp [he]

theorem Uploads.file_stores (h : Uploads env cwd s₀ ts s lines) :
    ((manageClient env).run s₀ ts).2.filter (·.TouchesFile cwd (resolve cwd s.filename)) =
      [.openTrunc s.filename, .writeAt s.filename 0 (textOf lines)] := by
  rw [h.filter_stores fun e he => Or.inl (by simpa using he)]
  rw [storesOf, List.filter_cons_of_pos (by simp [Event.TouchesFile]),
    List.filter_cons_of_pos (by simp [Event.TouchesFile]),
    List.filter_cons_of_neg (by rw [decide_eq_true_eq]; exact id), List.filter_nil]

theorem Uploads.record_stores (h : Uploads env cwd s₀ ts s lines) :
    ((manageClient env).run s₀ ts).2.filter
        (·.TouchesRecord cwd (resolve cwd s.regdb) s.regkey) =
      [.put s.regdb s.regkey s.regbuf] := by
  rw [h.filter_stores fun e he => Or.inr (by simpa using he)]
  rw [storesOf, List.filter_cons_of_neg (by rw [decide_eq_true_eq]; exact id),
    List.filter_cons_of_neg (by rw [decide_eq_true_eq]; exact id),
    List.filter_cons_of_pos (by simp [Event.TouchesRecord]), List.filter_nil]

end Uploads

/-! ### Both uploads -/

/-- A session that opened the file by `opened` and wrote `text` by `wrote` was the
last to write: the file holds its text, and what `other` has beyond it unless
the file was opened after `other` was written. -/
def WroteLast (es : List (Event ⊕ Event)) (opened wrote otherWrote : Event ⊕ Event)
    (text other : Bytes) (file : Option Bytes) : Prop :=
  Before otherWrote wrote es ∧
    (Before otherWrote opened es ∧ file = some text ∨
      Before opened otherWrote es ∧ file = some (text ++ other.drop text.length))

theorem WroteLast.of_filter {p : Event ⊕ Event → Bool} {es : List (Event ⊕ Event)}
    {opened wrote otherWrote : Event ⊕ Event} {text other : Bytes} {file : Option Bytes}
    (h : WroteLast (es.filter p) opened wrote otherWrote text other file) :
    WroteLast es opened wrote otherWrote text other file := by
  have hsub : ∀ {a b}, Before a b (es.filter p) → Before a b es := fun hb =>
    hb.trans List.filter_sublist
  exact ⟨hsub h.1, h.2.imp (fun h => ⟨hsub h.1, h.2⟩) fun h => ⟨hsub h.1, h.2⟩⟩

section Both

variable {cwd : Place} {es : List (Event ⊕ Event)} {path db key textA textB dataA dataB : Bytes}

/-- Two sessions open and write one file, and nothing else happens to it. -/
theorem file_of_order (w : World) (hA : lefts es = [.openTrunc path, .writeAt path 0 textA])
    (hB : rights es = [.openTrunc path, .writeAt path 0 textB]) :
    let file := (w.after cwd (es.map untag)).file (resolve cwd path)
    let opened := Event.openTrunc path
    let wroteA := Event.writeAt path 0 textA
    let wroteB := Event.writeAt path 0 textB
    (WroteLast es (.inl opened) (.inl wroteA) (.inr wroteB) textA textB file ∨
      WroteLast es (.inr opened) (.inr wroteB) (.inl wroteA) textB textA file) ∧
    (Before (.inl wroteA) (.inr opened) es → file = some textB) ∧
    (Before (.inr wroteB) (.inl opened) es → file = some textA) := by
  -- two events on each side: six orders
  have hmem := mem_interleavings es
  rw [hA, hB] at hmem
  simp only [interleavings, List.map_cons, List.map_nil, List.mem_cons, List.not_mem_nil,
    or_false, List.cons_append, List.nil_append] at hmem
  rcases hmem with rfl | rfl | rfl | rfl | rfl | rfl
  · refine ⟨Or.inr ⟨?_, Or.inl ⟨?_, ?_⟩⟩, ?_, ?_⟩ <;>
      simp [Before, List.cons_sublist_cons', World.apply, overwrite]
  · refine ⟨Or.inr ⟨?_, Or.inr ⟨?_, ?_⟩⟩, ?_, ?_⟩ <;>
      simp [Before, List.cons_sublist_cons', World.apply, overwrite]
  · refine ⟨Or.inl ⟨?_, Or.inr ⟨?_, ?_⟩⟩, ?_, ?_⟩ <;>
      simp [Before, List.cons_sublist_cons', World.apply, overwrite]
  · refine ⟨Or.inr ⟨?_, Or.inr ⟨?_, ?_⟩⟩, ?_, ?_⟩ <;>
      simp [Before, List.cons_sublist_cons', World.apply, overwrite]
  · refine ⟨Or.inl ⟨?_, Or.inr ⟨?_, ?_⟩⟩, ?_, ?_⟩ <;>
      simp [Before, List.cons_sublist_cons', World.apply, overwrite]
  · refine ⟨Or.inl ⟨?_, Or.inl ⟨?_, ?_⟩⟩, ?_, ?_⟩ <;>
      simp [Before, List.cons_sublist_cons', World.apply, overwrite]

/-- Two sessions put one record, and nothing else happens to it. -/
theorem record_of_order (w : World) (hA : lefts es = [.put db key dataA])
    (hB : rights es = [.put db key dataB]) :
    let record := (w.after cwd (es.map untag)).record (resolve cwd db) key
    let putA := Event.put db key dataA
    let putB := Event.put db key dataB
    Before (.inl putA) (.inr putB) es ∧ record = some dataB ∨
      Before (.inr putB) (.inl putA) es ∧ record = some dataA := by
  have hmem := mem_interleavings es
  rw [hA, hB] at hmem
  simp only [interleavings, List.map_cons, List.map_nil, List.mem_cons, List.not_mem_nil,
    or_false, List.cons_append, List.nil_append] at hmem
  rcases hmem with rfl | rfl
  · exact Or.inl ⟨List.Sublist.refl _, by simp [World.apply]⟩
  · exact Or.inr ⟨List.Sublist.refl _, by simp [World.apply]⟩

/-- Two sessions open and write one file, among other things. -/
theorem file_of_both (w : World)
    (hA : (lefts es).filter (·.TouchesFile cwd (resolve cwd path)) =
      [.openTrunc path, .writeAt path 0 textA])
    (hB : (rights es).filter (·.TouchesFile cwd (resolve cwd path)) =
      [.openTrunc path, .writeAt path 0 textB]) :
    let file := (w.after cwd (es.map untag)).file (resolve cwd path)
    let opened := Event.openTrunc path
    let wroteA := Event.writeAt path 0 textA
    let wroteB := Event.writeAt path 0 textB
    (WroteLast es (.inl opened) (.inl wroteA) (.inr wroteB) textA textB file ∨
      WroteLast es (.inr opened) (.inr wroteB) (.inl wroteA) textB textA file) ∧
    (Before (.inl wroteA) (.inr opened) es → file = some textB) ∧
    (Before (.inr wroteB) (.inl opened) es → file = some textA) := by
  intro file opened wroteA wroteB
  -- the events that do not touch the file can be left out
  let touches : Event → Bool := fun e => e.TouchesFile cwd (resolve cwd path)
  obtain ⟨hlast, hafterA, hafterB⟩ := @file_of_order cwd (es.filter (touches ∘ untag)) path textA
    textB w ((lefts_filter touches es).trans hA) ((rights_filter touches es).trans hB)
  rw [map_untag_filter, World.after_file_filter] at hlast hafterA hafterB
  have hopened : touches opened = true := by simp [touches, opened, Event.TouchesFile]
  have hwroteA : touches wroteA = true := by simp [touches, wroteA, Event.TouchesFile]
  have hwroteB : touches wroteB = true := by simp [touches, wroteB, Event.TouchesFile]
  refine ⟨hlast.imp WroteLast.of_filter WroteLast.of_filter, fun h => hafterA ?_,
    fun h => hafterB ?_⟩
  · exact (before_filter_iff (by exact hwroteA) (by exact hopened) es).mpr h
  · exact (before_filter_iff (by exact hwroteB) (by exact hopened) es).mpr h

/-- Two sessions put one record, among other things. -/
theorem record_of_both (w : World)
    (hA : (lefts es).filter (·.TouchesRecord cwd (resolve cwd db) key) = [.put db key dataA])
    (hB : (rights es).filter (·.TouchesRecord cwd (resolve cwd db) key) = [.put db key dataB]) :
    let record := (w.after cwd (es.map untag)).record (resolve cwd db) key
    let putA := Event.put db key dataA
    let putB := Event.put db key dataB
    Before (.inl putA) (.inr putB) es ∧ record = some dataB ∨
      Before (.inr putB) (.inl putA) es ∧ record = some dataA := by
  let touches : Event → Bool := fun e => e.TouchesRecord cwd (resolve cwd db) key
  have horder := @record_of_order cwd (es.filter (touches ∘ untag)) db key dataA dataB w
    ((lefts_filter touches es).trans hA) ((rights_filter touches es).trans hB)
  rw [map_untag_filter, World.after_record_filter] at horder
  exact horder.imp (fun h => ⟨h.1.trans List.filter_sublist, h.2⟩)
    fun h => ⟨h.1.trans List.filter_sublist, h.2⟩

end Both

/-- **Two uploads of one form.** When two sessions have uploaded forms `linesA`
and `linesB` under one name and both were acknowledged, the record is that of
the session whose put came last. The text file holds the text of the session
that wrote last, and behind it what the other text has beyond it if the file was
opened before that one was written. A session that opened the file after the
other one wrote, and put its record after the other one did, leaves both its
own. -/
theorem concurrent_uploads (env : Env) (cwd : Place) (w : World) (is : List (Turn ⊕ Turn))
    {a₀ b₀ a b : Session} {linesA linesB : List Bytes}
    (hA : Uploads env cwd a₀ (lefts is) a linesA) (hB : Uploads env cwd b₀ (rights is) b linesB)
    (hfile : b.filename = a.filename) (hdb : b.regdb = a.regdb) (hkey : b.regkey = a.regkey) :
    let es := ((Machine.both (manageClient env) (manageClient env)).run (a₀, b₀) is).2
    let file := (w.after cwd (es.map untag)).file (resolve cwd a.filename)
    let record := (w.after cwd (es.map untag)).record (resolve cwd a.regdb) a.regkey
    let opened := Event.openTrunc a.filename
    let wroteA := Event.writeAt a.filename 0 (textOf linesA)
    let wroteB := Event.writeAt a.filename 0 (textOf linesB)
    let putA := Event.put a.regdb a.regkey a.regbuf
    let putB := Event.put a.regdb a.regkey b.regbuf
    RecordOf linesA a.regbuf ∧ RecordOf linesB b.regbuf ∧
    (Before (.inl putA) (.inr putB) es ∧ record = some b.regbuf ∨
      Before (.inr putB) (.inl putA) es ∧ record = some a.regbuf) ∧
    (WroteLast es (.inl opened) (.inl wroteA) (.inr wroteB) (textOf linesA) (textOf linesB) file ∨
      WroteLast es (.inr opened) (.inr wroteB) (.inl wroteA) (textOf linesB) (textOf linesA) file) ∧
    (Before (.inl wroteA) (.inr opened) es → file = some (textOf linesB)) ∧
    (Before (.inr wroteB) (.inl opened) es → file = some (textOf linesA)) := by
  intro es file record opened wroteA wroteB putA putB
  -- each session runs as it does alone
  have hleft : lefts es = ((manageClient env).run a₀ (lefts is)).2 :=
    Machine.run_both_lefts _ _ a₀ b₀ is
  have hright : rights es = ((manageClient env).run b₀ (rights is)).2 :=
    Machine.run_both_rights _ _ a₀ b₀ is
  have hfileA := hA.file_stores
  have hfileB := hB.file_stores
  have hrecordA := hA.record_stores
  have hrecordB := hB.record_stores
  rw [← hleft] at hfileA hrecordA
  rw [← hright, hfile] at hfileB
  rw [← hright, hdb, hkey] at hrecordB
  exact ⟨hA.record, hB.record, record_of_both w hrecordA hrecordB, file_of_both w hfileA hfileB⟩

/-- The session of a college that uploads a form of one line. -/
def sampleSession (line : String) : Session :=
  Session.init (sampleLogin ++ ascii "FILENAME M_0001_A_0001_0.txt\n" ++ ascii line ++ ascii ".\n")
    true 1120000000 [] []

/-- That session at the end of the form. -/
def sampleEnd (line : String) : Session :=
  ((manageClient sampleEnv).run (sampleSession line) (List.replicate 7 sampleTurn)).1

theorem sample_uploads {line : String} {s : Session} (hs : sampleEnd line = s)
    (hclose : s.phase = .close)
    (hevents : ((manageClient sampleEnv).run (sampleSession line) (List.replicate 7 sampleTurn)).2 =
      ((manageClient sampleEnv).run (sampleSession line) (List.replicate 4 sampleTurn)).2 ++
        [.command 55 (ascii "FILENAME M_0001_A_0001_0.txt\n")] ++ .openTrunc s.filename ::
          (marks [(84, ascii line)] ++ [.bodyLine 87 (ascii ".\n"), .bodyEnd 89]))
    (htext : s.stfile = textOf [ascii line]) (hrecord : s.regbuf = [] ++ (ascii line ++ [nul]))
    (hline : endsLine (ascii line) = true)
    (hack : .send (ebuf SUCCESS) ∈ (manageClient sampleEnv ((manageClient sampleEnv).run
      (sampleSession line) (List.replicate 9 sampleTurn)).1 sampleTurn).2)
    (halone : (((manageClient sampleEnv).run (sampleSession line)
      (List.replicate 10 sampleTurn)).2.filter (·.OnForm [] s)).length = 3) :
    Uploads sampleEnv [] (sampleSession line) (List.replicate 10 sampleTurn) s [ascii line] := by
  have hcollected : Collected [ascii line] s := by
    refine ⟨htext, ?_⟩
    rw [hrecord]
    exact @RecordOf.whole [] [] _ .nil hline
  have hreplied : List.replicate 9 sampleTurn =
      List.replicate 7 sampleTurn ++ sampleTurn :: sampleTurn :: [] := by simp [List.replicate]
  rw [hreplied] at hack
  unfold sampleEnd at hs
  rw [← hs] at hclose hevents hcollected
  have hended : FormEnded sampleEnv (sampleSession line)
      (List.replicate 7 sampleTurn ++ sampleTurn :: sampleTurn :: []) (List.replicate 7 sampleTurn)
      sampleTurn sampleTurn [ascii line] :=
    ⟨⟨[], rfl⟩, hclose, ⟨_, [(84, ascii line)], 87, 89, rfl, hevents⟩, hcollected⟩
  exact ⟨⟨_, _, _, _, _, rfl⟩, ⟨_, _, _, _, _, [], by simp [List.replicate], hs, hended, rfl, rfl,
    hack⟩, halone⟩

theorem sample_uploads_ab : Uploads sampleEnv [] (sampleSession "ab\n")
    (List.replicate 10 sampleTurn) (sampleEnd "ab\n") [ascii "ab\n"] :=
  sample_uploads rfl (by decide) (by decide) (by decide) (by decide) (by decide) (by decide)
    (by decide)

theorem sample_uploads_cd : Uploads sampleEnv [] (sampleSession "cd\n")
    (List.replicate 10 sampleTurn) (sampleEnd "cd\n") [ascii "cd\n"] :=
  sample_uploads rfl (by decide) (by decide) (by decide) (by decide) (by decide) (by decide)
    (by decide)

/-- The second session runs between the write and the put of the first. -/
def sampleOrder : List (Turn ⊕ Turn) :=
  List.replicate 8 (.inl sampleTurn) ++ List.replicate 10 (.inr sampleTurn) ++
    List.replicate 2 (.inl sampleTurn)

theorem concurrent_uploads_sample :
    let a := sampleEnd "ab\n"
    let b := sampleEnd "cd\n"
    let es := ((Machine.both (manageClient sampleEnv) (manageClient sampleEnv)).run
      (sampleSession "ab\n", sampleSession "cd\n") sampleOrder).2
    let file := (World.empty.after [] (es.map untag)).file (resolve [] a.filename)
    let record := (World.empty.after [] (es.map untag)).record (resolve [] a.regdb) a.regkey
    let opened := Event.openTrunc a.filename
    let wroteA := Event.writeAt a.filename 0 (textOf [ascii "ab\n"])
    let wroteB := Event.writeAt a.filename 0 (textOf [ascii "cd\n"])
    let putA := Event.put a.regdb a.regkey a.regbuf
    let putB := Event.put a.regdb a.regkey b.regbuf
    RecordOf [ascii "ab\n"] a.regbuf ∧ RecordOf [ascii "cd\n"] b.regbuf ∧
    (Before (.inl putA) (.inr putB) es ∧ record = some b.regbuf ∨
      Before (.inr putB) (.inl putA) es ∧ record = some a.regbuf) ∧
    (WroteLast es (.inl opened) (.inl wroteA) (.inr wroteB) (textOf [ascii "ab\n"])
        (textOf [ascii "cd\n"]) file ∨
      WroteLast es (.inr opened) (.inr wroteB) (.inl wroteA) (textOf [ascii "cd\n"])
        (textOf [ascii "ab\n"]) file) ∧
    (Before (.inl wroteA) (.inr opened) es → file = some (textOf [ascii "cd\n"])) ∧
    (Before (.inr wroteB) (.inl opened) es → file = some (textOf [ascii "ab\n"])) :=
  concurrent_uploads sampleEnv [] World.empty sampleOrder sample_uploads_ab sample_uploads_cd
    (by decide) (by decide) (by decide)

/-- Both uploads are acknowledged; the text is that of the second, the record
that of the first. -/
theorem concurrent_uploads_mixed_sample :
    let es := ((Machine.both (manageClient sampleEnv) (manageClient sampleEnv)).run
      (sampleSession "ab\n", sampleSession "cd\n") sampleOrder).2
    let a := sampleEnd "ab\n"
    Uploads sampleEnv [] (sampleSession "ab\n") (lefts sampleOrder) a [ascii "ab\n"] ∧
    Uploads sampleEnv [] (sampleSession "cd\n") (rights sampleOrder) (sampleEnd "cd\n")
      [ascii "cd\n"] ∧
    (World.empty.after [] (es.map untag)).file (resolve [] a.filename) = some (ascii "cd\n") ∧
    (World.empty.after [] (es.map untag)).record (resolve [] a.regdb) a.regkey =
      some (ascii "ab\n" ++ [nul]) :=
  ⟨sample_uploads_ab, sample_uploads_cd, by decide +kernel, by decide +kernel⟩

end Esif.Server
