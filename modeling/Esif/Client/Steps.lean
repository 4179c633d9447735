import Esif.Client.Submit

/-!
# What a step of `apply_forms` sends

Whatever becomes of its calls, a step counts what it writes, and a client that has
nothing left to announce writes no command line.

## Main definitions

* `Counted` — what a step sends stands at its position in the stream
* `AllSent` — no form in the directory is left to announce
* `Silent` — the client sends no command line any more

## Main results

* `act_counted` — every step is counted
* `Silent.step` — a silent client stays silent
-/

namespace Esif.Client.Apply

open Esif.CS Esif.Posix

/-- What a step sends stands at its position in the stream. -/
structure Counted (a a' : Apply) (sent : List Sent) : Prop where
  pos : a'.pos = a.pos + (sent.flatMap Sent.bytes).length
  command : ∀ start line, .command start line ∈ sent → sent = [.command a.pos line] ∧ start = a.pos

/-- A form in the directory that is not announced: its header says that it is sent. -/
def IsSent (content : Bytes) : Prop :=
  content ≠ [] ∧ ∃ h rest, scanHeader (cstr (fgets content).1) = .ok (h, rest) ∧ h.sent ≠ 0

/-- No form in the rest of the directory is left to announce. -/
def AllSent (opts : Options) (a : Apply) : Prop :=
  ∀ name ∈ a.names, skipped name = true ∨
    ∀ content, a.disk (opts.infodirname ++ name) = some content → IsSent content

/-- The client sends no command line any more: it is leaving, or there is no form to
announce and it neither sends one. -/
inductive Silent (opts : Options) (a : Apply) : Prop
  | leaving (place : a.place = .quit ∨ a.place = .closed ∨ a.place = .fault)
  | through (place : a.place = .next) (allSent : AllSent opts a)
  | cancelling {path content : Bytes} (place : a.place = .body path content [])
      (left : content ≠ []) (cancelled : a.cancelled = true) (allSent : AllSent opts a)

section Steps

variable {opts : Options} {a a' : Apply} {t : Turn} {sent : List Sent}
  {bs path content photo data : Bytes}

theorem Counted.quiet (hpos : a'.pos = a.pos) : Counted a a' [] :=
  ⟨by simp [hpos], by simp⟩

theorem counted_goto {place : ApplyPlace} (h : a.goto place = (a', sent)) : Counted a a' sent := by
  obtain ⟨rfl, rfl⟩ := Prod.mk.inj h
  exact .quiet rfl

theorem counted_send {label : Bytes → Sent} {writes : List Outcome} {written failed : ApplyPlace}
    (hlabel : label = .data ∨ label = .command a.pos)
    (h : a.send bs label writes written failed = some (a', sent)) : Counted a a' sent := by
  obtain ⟨⟨full, got, wire⟩, -, heq⟩ := Option.map_eq_some_iff.mp h
  obtain ⟨rfl, rfl⟩ := Prod.mk.inj heq
  rcases hlabel with rfl | rfl
  · exact ⟨by simp [Sent.bytes], by simp⟩
  · refine ⟨by simp [Sent.bytes], fun start line hmem => ?_⟩
    obtain ⟨rfl, rfl⟩ : start = a.pos ∧ line = got := by simpa using hmem
    exact ⟨rfl, rfl⟩

/-- One entry of the directory: nothing is sent, or a form that is not sent is announced. -/
theorem nextFile_cases (h : a.nextFile opts t = some (a', sent)) :
    (sent = [] ∧ (a'.place = .quit ∨ a'.place = a.place ∨ a'.place = .fault) ∧ a'.wire = a.wire ∧
      a'.pos = a.pos ∧ a'.cancelled = a.cancelled ∧ a'.disk = a.disk ∧ a'.names <:+ a.names) ∨
    ∃ name names content flag, a.names = name :: names ∧ skipped name = false ∧
      a.disk (opts.infodirname ++ name) = some content ∧ ¬ IsSent content ∧
      { a with names := names, buffer := filenameLine name, sent := flag }.send (filenameLine name)
        (.command a.pos) t.writes (.named (opts.infodirname ++ name)) .closed =
          some (a', sent) := by
  unfold nextFile at h
  split at h
  · obtain ⟨rfl, rfl⟩ := Prod.mk.inj (Option.some.inj h)
    exact Or.inl ⟨rfl, Or.inl rfl, rfl, rfl, rfl, rfl, List.suffix_rfl⟩
  · next name names hnames =>
    have hsuffix : names <:+ a.names := hnames ▸ List.suffix_cons name names
    dsimp only at h
    split_ifs at h with hskip
    · obtain ⟨rfl, rfl⟩ := Prod.mk.inj (Option.some.inj h)
      exact Or.inl ⟨rfl, Or.inr (Or.inl rfl), rfl, rfl, rfl, rfl, hsuffix⟩
    · split at h
      · obtain ⟨rfl, rfl⟩ := Prod.mk.inj (Option.some.inj h)
        exact Or.inl ⟨rfl, Or.inr (Or.inl rfl), rfl, rfl, rfl, rfl, hsuffix⟩
      · next content hopen =>
        -- what is scanned is the first line, or what the array held before
        obtain ⟨buffer, hbuffer⟩ :
            ∃ buffer, (if content = [] then a.buffer else cstr (fgets content).1) = buffer :=
          ⟨_, rfl⟩
        rw [hbuffer] at h
        split at h
        · obtain ⟨rfl, rfl⟩ := Prod.mk.inj (Option.some.inj h)
          exact Or.inl ⟨rfl, Or.inr (Or.inr rfl), rfl, rfl, rfl, rfl, hsuffix⟩
        · next scan _ =>
          split_ifs at h with hsent
          · obtain ⟨rfl, rfl⟩ := Prod.mk.inj (Option.some.inj h)
            exact Or.inl ⟨rfl, Or.inr (Or.inl rfl), rfl, rfl, rfl, rfl, hsuffix⟩
          · have hdisk : a.disk (opts.infodirname ++ name) = some content := by
              simp only [openFile] at hopen
              split_ifs at hopen
              exact hopen
            refine Or.inr ⟨name, names, content, _, hnames, by simpa using hskip, hdisk, ?_, h⟩
            -- a header that says `sent` would have kept the form from being announced
            rintro ⟨hne, header, rest, hscan, hflag⟩
            rw [if_neg hne] at hbuffer
            rw [← hbuffer, hscan] at hsent
            exact hflag (not_not.mp hsent)

theorem afterForm_cases (h : a.afterForm opts photo = (a', sent)) :
    sent = [] ∧ (a' = { a with place := .next } ∨
      FILENAMELEN ≤ photo.length ∧ a' = { a with place := .photo photo }) := by
  unfold afterForm at h
  split_ifs at h with hphoto
  · obtain ⟨rfl, rfl⟩ := Prod.mk.inj h
    exact ⟨rfl, Or.inl rfl⟩
  · obtain ⟨rfl, rfl⟩ := Prod.mk.inj h
    simp only [Bool.or_eq_true, decide_eq_true_eq, not_or, not_lt] at hphoto
    exact ⟨rfl, Or.inr ⟨hphoto.2, rfl⟩⟩

theorem mark_cases (h : a.mark path t = .ok a') : ∃ disk, a' = { a with disk := disk } := by
  unfold mark at h
  split at h
  · obtain rfl := Except.ok.inj h
    exact ⟨a.disk, rfl⟩
  · next content _ =>
    cases hmark : markSent content t.garbage with
    | error e => simp [hmark, bind, Except.bind] at h
    | ok content' =>
      obtain rfl : _ = a' := by simpa [hmark, bind, Except.bind, pure, Except.pure] using h
      exact ⟨_, rfl⟩

theorem counted_afterForm (h : a.afterForm opts photo = (a', sent)) : Counted a a' sent := by
  obtain ⟨rfl, rfl | ⟨-, rfl⟩⟩ := afterForm_cases h
  · exact .quiet rfl
  · exact .quiet rfl

/-- The reply to a form is read: the client goes on behind it. -/
theorem readFormReply_cases (h : a.readFormReply opts path photo t = some (a', sent)) :
    sent = [] ∧ ∃ ret line wire, a.wire.readline RBUFSIZE t.reads = some (ret, line, wire) ∧
      ∃ disk place, a' = { a with wire := wire, disk := disk, place := place } ∧
        (place = .next ∨ place = .fault ∨ FILENAMELEN ≤ photo.length ∧ place = .photo photo) := by
  simp only [readFormReply, Option.bind_eq_bind, Option.bind_eq_some_iff] at h
  obtain ⟨⟨ret, line, wire⟩, hread, h⟩ := h
  have hafter : ∀ {disk}, ({ a with wire := wire, disk := disk } : Apply).afterForm opts photo =
      (a', sent) → sent = [] ∧ ∃ disk place,
        a' = { a with wire := wire, disk := disk, place := place } ∧
        (place = .next ∨ place = .fault ∨ FILENAMELEN ≤ photo.length ∧ place = .photo photo) := by
    intro disk h
    obtain ⟨rfl, rfl | ⟨hlen, rfl⟩⟩ := afterForm_cases h
    · exact ⟨rfl, disk, .next, rfl, Or.inl rfl⟩
    · exact ⟨rfl, disk, .photo photo, rfl, Or.inr (Or.inr ⟨hlen, rfl⟩)⟩
  suffices hgoal : sent = [] ∧ ∃ disk place,
      a' = { a with wire := wire, disk := disk, place := place } ∧
        (place = .next ∨ place = .fault ∨ FILENAMELEN ≤ photo.length ∧ place = .photo photo) from
    ⟨hgoal.1, ret, line, wire, hread, hgoal.2⟩
  dsimp only at h
  split_ifs at h
  · obtain ⟨rfl, rfl⟩ := Prod.mk.inj (Option.some.inj h)
    exact ⟨rfl, a.disk, .next, rfl, Or.inl rfl⟩
  · split at h
    · obtain ⟨rfl, rfl⟩ := Prod.mk.inj (Option.some.inj h)
      exact ⟨rfl, a.disk, .fault, rfl, Or.inr (Or.inl rfl)⟩
    · next marked hmark =>
      obtain ⟨disk, rfl⟩ := mark_cases hmark
      exact hafter (Option.some.inj h)
  · exact hafter (Option.some.inj h)

/-- The reply to `BINARY` is read. -/
theorem readPhotoReply_cases (h : a.readPhotoReply data t = some (a', sent)) :
    sent = [] ∧ ∃ wire place, a' = { a with wire := wire, place := place } := by
  simp only [readPhotoReply, Option.bind_eq_bind, Option.bind_eq_some_iff] at h
  obtain ⟨⟨ret, line, wire⟩, -, h⟩ := h
  dsimp only at h
  split_ifs at h
  all_goals
    obtain ⟨rfl, rfl⟩ := Prod.mk.inj (Option.some.inj h)
    exact ⟨rfl, wire, _, rfl⟩

/-- **Every step is counted.** -/
theorem act_counted (h : a.act opts t = some (a', sent)) : Counted a a' sent := by
  cases hplace : a.place with
  | start =>
    simp only [act, hplace] at h
    exact counted_goto (Option.some.inj h)
  | next =>
    simp only [act, hplace] at h
    rcases nextFile_cases h with ⟨rfl, -, -, hpos, -⟩ |
      ⟨name, names, content, flag, -, -, -, -, hsend⟩
    · exact .quiet hpos
    -- the announcement begins where the client's stream is
    · obtain ⟨hpos, hcommand⟩ := counted_send (Or.inr rfl) hsend
      exact ⟨hpos, hcommand⟩
  | named path =>
    simp only [act, hplace] at h
    have h := Option.some.inj h
    unfold openForm at h
    split_ifs at h
    · exact counted_goto h
    · dsimp only at h
      split at h
      · obtain ⟨rfl, rfl⟩ := Prod.mk.inj h
        exact .quiet rfl
      · obtain ⟨rfl, rfl⟩ := Prod.mk.inj h
        exact .quiet rfl
  | body path content photo =>
    simp only [act, hplace, sendLine] at h
    split_ifs at h
    · exact counted_send (Or.inl rfl) h
    · exact counted_afterForm (Option.some.inj h)
    · exact counted_send (Or.inl rfl) h
  | reply path photo =>
    simp only [act, hplace] at h
    obtain ⟨rfl, -, -, wire, -, disk, place, rfl, -⟩ := readFormReply_cases h
    exact .quiet rfl
  | photo path =>
    simp only [act, hplace, openPhoto] at h
    split at h
    · exact counted_goto (Option.some.inj h)
    · split at h
      · exact counted_goto (Option.some.inj h)
      · exact counted_send (Or.inr rfl) h
  | photoReply data =>
    simp only [act, hplace] at h
    obtain ⟨rfl, wire, place, rfl⟩ := readPhotoReply_cases h
    exact .quiet rfl
  | payload data =>
    simp only [act, hplace, sendBlock] at h
    split_ifs at h
    · exact counted_goto (Option.some.inj h)
    · split at h
      · cases h
      · obtain ⟨rfl, rfl⟩ := Prod.mk.inj (Option.some.inj h)
        exact .quiet rfl
      -- a block of the photo is no command
      · obtain ⟨rfl, rfl⟩ := Prod.mk.inj (Option.some.inj h)
        exact ⟨by simp [Sent.bytes], by simp⟩
  | photoResult =>
    simp only [act, hplace] at h
    obtain ⟨⟨ret, line, wire⟩, -, heq⟩ := Option.map_eq_some_iff.mp h
    obtain ⟨rfl, rfl⟩ := Prod.mk.inj heq
    exact .quiet rfl
  | quit =>
    simp only [act, hplace] at h
    exact counted_send (Or.inl rfl) h
  | closed => simp [act, hplace] at h
  | fault => simp [act, hplace] at h

/-- A silent client stays silent, and sends no command line. -/
theorem Silent.step (h : Silent opts a) (hact : a.act opts t = some (a', sent)) :
    Silent opts a' ∧ ∀ start line, .command start line ∉ sent := by
  cases h with
  | leaving place =>
    rcases place with hplace | hplace | hplace
    · simp only [act, hplace, sendQuit] at hact
      obtain ⟨⟨full, got, wire⟩, -, heq⟩ := Option.map_eq_some_iff.mp hact
      obtain ⟨rfl, rfl⟩ := Prod.mk.inj heq
      exact ⟨.leaving (Or.inr (Or.inl (by simp))), by simp⟩
    · simp [act, hplace] at hact
    · simp [act, hplace] at hact
  | through place allSent =>
    simp only [act, place] at hact
    rcases nextFile_cases hact with ⟨rfl, hplace, -, -, -, hdisk, hnames⟩ |
      ⟨name, names, content, flag, hnames, hskip, hdisk, hsent, -⟩
    · refine ⟨?_, by simp⟩
      rcases hplace with hplace | hplace | hplace
      · exact .leaving (Or.inl hplace)
      · refine .through (hplace.trans place) fun name hname => ?_
        rw [hdisk]
        exact allSent name (hnames.subset hname)
      · exact .leaving (Or.inr (Or.inr hplace))
    · rcases allSent name (by simp [hnames]) with hskip' | hall
      · simp [hskip] at hskip'
      · exact absurd (hall content hdisk) hsent
  | cancelling place left cancelled allSent =>
    simp only [act, place, sendLine, if_neg left, cancelled, if_true, Option.some.injEq] at hact
    obtain ⟨rfl, rfl | ⟨hlen, -⟩⟩ := afterForm_cases hact
    · exact ⟨.through rfl allSent, by simp⟩
    · simp [FILENAMELEN] at hlen

end Steps

end Esif.Client.Apply
