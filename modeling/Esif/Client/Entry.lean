import Esif.Client.Header
import Esif.Client.Marks

/-!
# An entry of the directory from its header to its mark

What `apply_forms` does with an entry is decided by the header of the file: a form that is
marked is passed over, one that is not is announced, and marked behind the reply `500`.

## Main definitions

* `Marks` — two files that differ in the mark only
* `photoOf` — the photo that the lines of a form name
* `Gathers` — the client has come by this photo
* `ApplyPlace.OfPhoto` — the client has a photo in hand

## Main results

* `nextFile_skip`, `nextFile_due` — one entry
* `Gathers.step` — the photo while the lines are sent
* `readFormReply_sets` — the form is marked
-/

namespace Esif.Client

open Esif.CS Esif.Posix

/-- The header of the form can be read back and says that the form is not sent; `marked` is the
same file with a header that says that it is. -/
def Marks (content marked : Bytes) : Prop :=
  ∃ (h : Header) (student rest : Bytes), h.Scannable student ∧ h.sent = 0 ∧
    content = h.print student ++ rest ∧ marked = { h with sent := 1 }.print student ++ rest

section Marks

variable {content marked : Bytes} {h : Header} {student rest : Bytes}

theorem Header.Scannable.scan (hs : h.Scannable student) (rest : Bytes) :
    h.print student ++ rest ≠ [] ∧
      scanHeader (cstr (fgets (h.print student ++ rest)).1) =
        .ok (h, colon :: (student ++ [newline])) := by
  refine ⟨by simp [hs.print_eq], ?_⟩
  rw [fgets_eq, hs.fgetsBuf_print (by decide), hs.cstr_print, scanHeader_print hs]

/-- The form is announced. -/
theorem Marks.unsent (h : Marks content marked) : content ≠ [] ∧
    ∃ h rest, scanHeader (cstr (fgets content).1) = .ok (h, rest) ∧ h.sent = 0 := by
  obtain ⟨h, student, rest, hs, hsent, rfl, -⟩ := h
  obtain ⟨hne, hscan⟩ := hs.scan rest
  exact ⟨hne, h, _, hscan, hsent⟩

/-- Marked, it is passed over. -/
theorem Marks.isSent (h : Marks content marked) : Apply.IsSent marked := by
  obtain ⟨h, student, rest, hs, -, -, rfl⟩ := h
  obtain ⟨hne, hscan⟩ := hs.mark.scan rest
  exact ⟨hne, _, _, hscan, one_ne_zero⟩

theorem Marks.not_isSent (h : Marks content marked) : ¬ Apply.IsSent content := by
  rintro ⟨-, header, rest, hscan, hsent⟩
  obtain ⟨-, header', rest', hscan', hsent'⟩ := h.unsent
  rw [hscan] at hscan'
  obtain ⟨rfl, -⟩ := Prod.mk.inj (Except.ok.inj hscan')
  exact hsent hsent'

theorem Marks.ne (h : Marks content marked) : marked ≠ content := by
  rintro rfl
  exact h.not_isSent h.isSent

/-- `apply_form` marks the form. -/
theorem Marks.markSent (h : Marks content marked) (garbage : Bytes) :
    markSent content garbage = .ok marked := by
  obtain ⟨h, student, rest, hs, -, rfl, rfl⟩ := h
  exact markSent_print hs rest garbage

end Marks

/-- The photo that `apply_form` has found in the lines. -/
def photoOf (lines : List Bytes) : Bytes := lines.foldl (fun photo line => scanPhoto line photo) []

theorem photoOf_concat (lines : List Bytes) (line : Bytes) :
    photoOf (lines ++ [line]) = scanPhoto line (photoOf lines) := by
  rw [photoOf, List.foldl_append]
  rfl

namespace Apply

section Next

variable {opts : Options} {a : Apply} {t : Turn} {name content : Bytes} {names : List Bytes}

/-- The directory has no entry left. -/
theorem nextFile_end (hnames : a.names = []) : a.nextFile opts t = some (a.goto .quit) := by
  simp [nextFile, hnames]

/-- An entry that is no form, that cannot be opened, or that is marked. -/
theorem nextFile_skip (hnames : a.names = name :: names) (h : skipped name = true ∨
      a.openFile (opts.infodirname ++ name) t = none ∨
      ∃ content, a.openFile (opts.infodirname ++ name) t = some content ∧ IsSent content) :
    ∃ buffer flag, a.nextFile opts t =
      some ({ a with names := names, buffer := buffer, sent := flag }, []) := by
  have hsame : ({ a with names := names } : Apply).openFile (opts.infodirname ++ name) t =
    a.openFile (opts.infodirname ++ name) t := rfl
  by_cases hskip : skipped name = true
  · exact ⟨a.buffer, a.sent, by simp [nextFile, hnames, hskip]⟩
  rcases h with h | hnone | ⟨content, hopen, hne, header, rest, hscan, hsent⟩
  · exact absurd h hskip
  · exact ⟨a.buffer, a.sent, by simp [nextFile, hnames, hskip, hsame, hnone]⟩
  · refine ⟨cstr (fgets content).1, header.sent, ?_⟩
    simp only [nextFile, hnames, if_neg hskip, hsame, hopen, if_neg hne, hscan]
    rw [if_pos hsent]

/-- A form that is not marked is announced. -/
theorem nextFile_due (hnames : a.names = name :: names) (hskip : skipped name = false)
    (hopen : a.openFile (opts.infodirname ++ name) t = some content)
    (hunsent : content ≠ [] ∧
      ∃ h rest, scanHeader (cstr (fgets content).1) = .ok (h, rest) ∧ h.sent = 0) :
    a.nextFile opts t =
      { a with names := names, buffer := filenameLine name, sent := 0 }.send (filenameLine name)
        (.command a.pos) t.writes (.named (opts.infodirname ++ name)) .closed := by
  have hsame : ({ a with names := names } : Apply).openFile (opts.infodirname ++ name) t =
    a.openFile (opts.infodirname ++ name) t := rfl
  obtain ⟨hne, header, rest, hscan, hsent⟩ := hunsent
  simp only [nextFile, hnames, hskip, Bool.false_eq_true, if_false, hsame, hopen, if_neg hne, hscan,
    hsent, ne_eq, not_true_eq_false]

theorem length_filenameLine_le (hskip : ¬ skipped name = true) :
    (filenameLine name).length ≤ MAXLINE := by
  simp only [skipped, Bool.or_eq_true, decide_eq_true_eq, not_or, not_lt] at hskip
  have hlen := hskip.1.2
  have hword : (ascii "FILENAME ").length = 9 := by decide
  simp only [filenameLine, List.length_append, hword, List.length_singleton]
  unfold MAXFILENAMELEN at hlen
  unfold MAXLINE
  omega

/-- The client comes by the entry, when its calls may. -/
theorem nextFile_some (hample : t.Ample) : ∃ r, a.nextFile opts t = some r := by
  unfold nextFile
  split
  · exact ⟨_, rfl⟩
  · next name names hnames =>
    dsimp only
    by_cases hskip : skipped name = true
    · rw [if_pos hskip]
      exact ⟨_, rfl⟩
    · rw [if_neg hskip]
      split
      · exact ⟨_, rfl⟩
      · next content _ =>
        generalize (if content = [] then a.buffer else cstr (fgets content).1) = buffer
        split
        · exact ⟨_, rfl⟩
        -- whether the flag was scanned or is that of the file before
        · split
          · split_ifs
            · exact ⟨_, rfl⟩
            · exact send_some hample (length_filenameLine_le hskip)
          · split_ifs
            · exact ⟨_, rfl⟩
            · exact send_some hample (length_filenameLine_le hskip)

end Next

section Form

variable {opts : Options} {a a' : Apply} {t : Turn} {sent : List Sent} {path photo : Bytes}

/-- A command line is sent for an entry of the directory, or for a photo. -/
theorem act_commands {start : ℕ} {line : Bytes} (h : a.act opts t = some (a', sent))
    (hmem : .command start line ∈ sent) :
    a.place = .next ∧ a.nextFile opts t = some (a', sent) ∨
      ∃ path, a.place = .photo path ∧ a.openPhoto path t = some (a', sent) := by
  -- what is sent as data is no command
  have hsend : ∀ {b : Apply} {bs writes written failed},
      b.send bs .data writes written failed = some (a', sent) → False := by
    intro b bs writes written failed hsend
    obtain ⟨⟨full, got, wire⟩, -, heq⟩ := Option.map_eq_some_iff.mp hsend
    obtain ⟨-, rfl⟩ := Prod.mk.inj heq
    simp at hmem
  have hnone : sent ≠ [] := List.ne_nil_of_mem hmem
  -- only the directory and the offer of a photo send commands
  cases hat : a.place with
  | next =>
    simp only [act, hat] at h
    exact Or.inl ⟨rfl, h⟩
  | photo path =>
    simp only [act, hat] at h
    exact Or.inr ⟨path, rfl, h⟩
  | start =>
    simp only [act, hat] at h
    exact absurd (Prod.mk.inj (Option.some.inj h)).2.symm hnone
  | named path =>
    simp only [act, hat, openForm, Option.some.injEq] at h
    split_ifs at h
    · exact absurd (Prod.mk.inj h).2.symm hnone
    · split at h
      · exact absurd (Prod.mk.inj h).2.symm hnone
      · exact absurd (Prod.mk.inj h).2.symm hnone
  | body path content photo =>
    simp only [act, hat, sendLine] at h
    split_ifs at h
    · exact (hsend h).elim
    · exact absurd (afterForm_cases (Option.some.inj h)).1 hnone
    · exact (hsend h).elim
  | reply path photo =>
    simp only [act, hat] at h
    exact absurd (readFormReply_cases h).1 hnone
  | photoReply data =>
    simp only [act, hat] at h
    exact absurd (readPhotoReply_cases h).1 hnone
  | payload data =>
    simp only [act, hat, sendBlock] at h
    split_ifs at h
    · exact absurd (Prod.mk.inj (Option.some.inj h)).2.symm hnone
    · split at h
      · cases h
      · exact absurd (Prod.mk.inj (Option.some.inj h)).2.symm hnone
      · obtain ⟨-, rfl⟩ := Prod.mk.inj (Option.some.inj h)
        simp at hmem
  | photoResult =>
    simp only [act, hat] at h
    obtain ⟨⟨ret, got, wire⟩, -, heq⟩ := Option.map_eq_some_iff.mp h
    exact absurd (Prod.mk.inj heq).2.symm hnone
  | quit =>
    simp only [act, hat] at h
    exact (hsend h).elim
  | closed => simp [act, hat] at h
  | fault => simp [act, hat] at h

/-- With a form in hand the client does not turn to the directory. -/
theorem act_form_names (hform : a.place.form = some path) (h : a.act opts t = some (a', sent)) :
    a'.names = a.names := by
  cases hat : a.place with
  | named path =>
    simp only [act, hat, openForm, Option.some.injEq] at h
    split_ifs at h
    · obtain ⟨rfl, -⟩ := Prod.mk.inj h
      rfl
    · split at h
      · obtain ⟨rfl, -⟩ := Prod.mk.inj h
        rfl
      · obtain ⟨rfl, -⟩ := Prod.mk.inj h
        rfl
  | body path content photo =>
    simp only [act, hat] at h
    exact (sendLine_keeps h).2.1
  | reply path photo =>
    simp only [act, hat] at h
    obtain ⟨ret, line, wire, -, -, hnames, -⟩ := readFormReply_marks h
    exact hnames
  | _ => simp [hat, ApplyPlace.form] at hform

/-- The reply `500` is read: the form is marked, and its photo comes next. -/
theorem readFormReply_sets {content marked line rest : Bytes} (hcalm : t.Calm)
    (hopen : a.openFile path t = some content) (hmark : Marks content marked)
    (hreply : Reply SUCCESS line) (hline : line = ascii "500\n")
    (hat : a.At (.reply path photo) (line ++ rest))
    (h : a.act opts t = some (a', sent)) :
    a'.wire.pending = rest ∧ a'.wire.conn.eof = false ∧
      a'.disk = Function.update a.disk path (some marked) ∧ a'.names = a.names ∧
      a'.cancelled = a.cancelled ∧ sent = [] ∧
      (a'.place = .next ∧ ¬ (opts.ignorePhoto = false ∧ FILENAMELEN ≤ photo.length) ∨
        (opts.ignorePhoto = false ∧ FILENAMELEN ≤ photo.length) ∧ a'.place = .photo photo) := by
  have hact : a.act opts t = a.readFormReply opts path photo t := by simp [act, hat.place]
  simp only [hact, readFormReply, Option.bind_eq_bind, Option.bind_eq_some_iff] at h
  obtain ⟨⟨ret, got, wire⟩, hread, hnext⟩ := h
  obtain ⟨rfl, rfl, hrest, heof⟩ := readline_reply hcalm hreply hat.pending hread
  have hlen : (got.length : ℤ) = 4 := by rw [hline]; rfl
  have hword : strncmp got (ascii "500\n") = true := by rw [hline]; decide
  have hmarked : ({ a with wire := wire } : Apply).mark path t =
      .ok { a with wire := wire, disk := Function.update a.disk path (some marked) } := by
    have hsame : ({ a with wire := wire } : Apply).openFile path t = some content := hopen
    simp only [mark, hsame, hmark.markSent]
    rfl
  dsimp only at hnext
  rw [if_neg (by simp [hlen]), if_pos hword, hmarked] at hnext
  have hafter := Option.some.inj hnext
  unfold afterForm at hafter
  split_ifs at hafter with hphoto
  · obtain ⟨rfl, rfl⟩ := Prod.mk.inj hafter
    refine ⟨hrest, heof.trans hat.eof, rfl, rfl, rfl, rfl, Or.inl ⟨rfl, ?_⟩⟩
    rintro ⟨hon, hlong⟩
    simp only [hon, Bool.false_or, decide_eq_true_eq] at hphoto
    exact absurd hlong (Nat.not_le.mpr hphoto)
  · obtain ⟨rfl, rfl⟩ := Prod.mk.inj hafter
    simp only [Bool.or_eq_true, decide_eq_true_eq, not_or, not_lt, Bool.not_eq_true] at hphoto
    exact ⟨hrest, heof.trans hat.eof, rfl, rfl, rfl, rfl, Or.inr ⟨hphoto, rfl⟩⟩

end Form

end Apply

/-- The client has come by the photo of the lines it has sent. -/
def Gathers (lines : List Bytes) : ApplyPlace → Prop
  | .body _ content photo =>
    ∃ taken todo, lines = taken ++ todo ∧ content = todo.flatten ∧ photo = photoOf taken
  | .reply _ photo => photo = photoOf lines
  | _ => True

/-- The client has a photo in hand. -/
def ApplyPlace.OfPhoto : ApplyPlace → Prop
  | .photo _ => True
  | .photoReply _ => True
  | .payload _ => True
  | .photoResult => True
  | _ => False

namespace Apply

variable {opts : Options} {a a' : Apply} {t : Turn} {sent : List Sent} {path : Bytes}
  {lines : List Bytes}

/-- A step of the client with a form of whole lines in hand. -/
theorem gathers_step (hcalm : t.Calm) (hgoing : a.cancelled = false) (hcancel : t.cancel = false)
    (hwhole : ∀ line ∈ lines, Lines.Whole isNewline (MAXLINE - 1) line ∧ line ≠ [] ∧ nul ∉ line)
    (hopen : a.openFile path t = some lines.flatten) (hform : a.place.form = some path)
    (h : Gathers lines a.place) (hact : a.act opts t = some (a', sent))
    (hreply : ¬ a.place.IsReply) : Gathers lines a'.place := by
  cases hat : a.place with
  | named path' =>
    obtain rfl : path' = path := by simpa [hat, ApplyPlace.form] using hform
    simp only [act, hat, Option.some.injEq] at hact
    obtain ⟨-, hplace, -⟩ := openForm_calm hgoing hcancel hopen hact
    rw [hplace]
    exact ⟨[], lines, rfl, rfl, rfl⟩
  | body path' content photo =>
    rw [hat] at h
    obtain ⟨taken, todo, rfl, rfl, rfl⟩ := h
    simp only [act, hat] at hact
    cases todo with
    | nil =>
      obtain ⟨-, hplace, -⟩ := sendLine_dot hcalm hact
      rw [hplace, List.append_nil]
      rfl
    | cons line todo =>
      obtain ⟨hline, hne, hnul⟩ := hwhole line (by simp)
      rw [List.flatten_cons] at hact
      obtain ⟨-, hplace, -⟩ := sendLine_line hcalm hgoing hline hne hnul hact
      rw [hplace]
      exact ⟨taken ++ [line], todo, by simp, rfl, (photoOf_concat taken line).symm⟩
  | reply path' photo => exact absurd ⟨path', photo, hat⟩ hreply
  | _ => simp [hat, ApplyPlace.form] at hform

/-- A step of the client with a photo in hand changes the place, the wire and the position only. -/
theorem act_photo_keeps (hplace : a.place.OfPhoto) (hact : a.act opts t = some (a', sent)) :
    a'.disk = a.disk ∧ a'.names = a.names ∧ a'.cancelled = a.cancelled := by
  cases hat : a.place with
  | photo path =>
    simp only [act, hat, openPhoto] at hact
    split at hact
    · obtain ⟨rfl, -⟩ := Prod.mk.inj (Option.some.inj hact)
      exact ⟨rfl, rfl, rfl⟩
    · split at hact
      · obtain ⟨rfl, -⟩ := Prod.mk.inj (Option.some.inj hact)
        exact ⟨rfl, rfl, rfl⟩
      · obtain ⟨r, -, heq⟩ := Option.map_eq_some_iff.mp hact
        obtain ⟨rfl, -⟩ := Prod.mk.inj heq
        exact ⟨rfl, rfl, rfl⟩
  | photoReply data =>
    simp only [act, hat] at hact
    obtain ⟨-, wire, place, rfl⟩ := readPhotoReply_cases hact
    exact ⟨rfl, rfl, rfl⟩
  | payload data =>
    simp only [act, hat, sendBlock] at hact
    split_ifs at hact
    · obtain ⟨rfl, -⟩ := Prod.mk.inj (Option.some.inj hact)
      exact ⟨rfl, rfl, rfl⟩
    · split at hact
      · cases hact
      · obtain ⟨rfl, -⟩ := Prod.mk.inj (Option.some.inj hact)
        exact ⟨rfl, rfl, rfl⟩
      · obtain ⟨rfl, -⟩ := Prod.mk.inj (Option.some.inj hact)
        exact ⟨rfl, rfl, rfl⟩
  | photoResult =>
    simp only [act, hat] at hact
    obtain ⟨r, -, heq⟩ := Option.map_eq_some_iff.mp hact
    obtain ⟨rfl, -⟩ := Prod.mk.inj heq
    exact ⟨rfl, rfl, rfl⟩
  | _ => simp [hat, ApplyPlace.OfPhoto] at hplace

end Apply

end Esif.Client
