import Esif.Client.Steps

/-!
# The order of the directory

`apply_forms` looks at the first line of each file `readdir` returns, in an array and with a
flag that every turn of its loop shares. A file whose first line cannot be scanned is decided
by the flag of the file before it, or by what the stack held.

## Main definitions

* `Move`, `submit` — the client with the bytes that arrive between its steps
* `Looked`, `Attempted` — a file that is looked at, and one that is announced
* `OwnLineDecides`, `SameForms` — what is sent depends on the files, not on their order
* `HeadersScan` — every first line that is looked at can be scanned

## Main results

* `Walk.step` — what a step without errors keeps
* `order_free_iff` — the order does not matter exactly when every header can be scanned
-/

namespace Esif.Client

open Esif.CS Esif.Posix

/-- A step of the client, or bytes that arrive. -/
inductive Move where
  | step (t : Turn)
  | arrive (bs : Bytes) (closed : Bool)

/-- The client with what arrives between its steps. -/
def submit (opts : Options) : Machine Apply Move Sent := fun a m =>
  match m with
  | .step t => applyForms opts a t
  | .arrive bs closed => (a.receive bs closed, [])

/-- The user does not cancel, files that are there can be opened and what is written is
accepted. -/
structure Turn.Smooth (t : Turn) : Prop where
  ok : t.ok = true
  cancel : t.cancel = false
  writes : Posix.Calm t.writes

def Move.Smooth : Move → Prop
  | .step t => t.Smooth
  | .arrive _ _ => True

namespace Apply

section

variable (opts : Options) (disk : Bytes → Option Bytes)

/-- The client behind its login, in front of a directory with these files and these entries.
What `buffer` and `sent` hold is whatever the stack held. -/
structure Starts (order : List Bytes) (a : Apply) : Prop where
  place : a.place = .start
  names : a.names = order
  disk : a.disk = disk
  cancelled : a.cancelled = false

/-- A file that is looked at: it has a name of a form, and can be opened. -/
def Looked (name content : Bytes) : Prop :=
  skipped name = false ∧ disk (opts.infodirname ++ name) = some content

/-- The form of that name is announced. -/
def Attempted (sent : List Sent) (name : Bytes) : Prop :=
  ∃ start, .command start (filenameLine name) ∈ sent

/-- The step takes `name` from the directory. -/
structure Takes (a : Apply) (t : Turn) (name : Bytes) (a' : Apply) (sent : List Sent) : Prop where
  place : a.place = .next
  names : a.names.head? = some name
  act : a.act opts t = some (a', sent)

/-- The loop is through. -/
def Done (a : Apply) : Prop := a.place = .quit ∨ a.place = .closed

/-- Whether a file is announced is a function of its first line, in every order and in every
run without cancelling and errors; and it is decided without leaving an array. -/
def OwnLineDecides (names : List Bytes) : Prop :=
  ∃ attempt : Bytes → Prop, ∀ order a ms t name content a' sent, order.Perm names →
    Starts disk order a → (∀ m ∈ ms, Move.Smooth m) → t.Smooth →
    Takes opts ((submit opts).run a ms).1 t name a' sent → Looked opts disk name content →
    a'.place ≠ .fault ∧ (Attempted sent name ↔ attempt (fgets content).1)

/-- In every two orders the same files are announced. -/
def SameForms (names : List Bytes) : Prop :=
  ∀ order₁ order₂ a₁ a₂ ms₁ ms₂, order₁.Perm names → order₂.Perm names →
    Starts disk order₁ a₁ → Starts disk order₂ a₂ →
    (∀ m ∈ ms₁, Move.Smooth m) → (∀ m ∈ ms₂, Move.Smooth m) →
    Done ((submit opts).run a₁ ms₁).1 → Done ((submit opts).run a₂ ms₂).1 →
    ∀ name, Attempted ((submit opts).run a₁ ms₁).2 name ↔
      Attempted ((submit opts).run a₂ ms₂).2 name

/-- Every file that is looked at has a first line that the scan of `apply_forms` takes apart. -/
def HeadersScan (names : List Bytes) : Prop :=
  ∀ name ∈ names, ∀ content, Looked opts disk name content →
    ∃ r, scanHeader (cstr (fgets content).1) = .ok r

end

/-! ### One file -/

section Decide

variable {opts : Options} {a a' : Apply} {t : Turn} {sent : List Sent} {name content : Bytes}
  {names : List Bytes}

/-- What is scanned when a file is looked at: its first line, or what the array held. -/
def scanned (a : Apply) (content : Bytes) : Bytes :=
  if content = [] then a.buffer else cstr (fgets content).1

/-- A file whose header can be scanned is announced when its flag is not set. -/
theorem nextFile_scanned (hnames : a.names = name :: names) (hskip : skipped name = false)
    (hopen : a.openFile (opts.infodirname ++ name) t = some content) {h : Header} {rest : Bytes}
    (hscan : scanHeader (a.scanned content) = .ok (h, rest)) :
    a.nextFile opts t =
      if h.sent ≠ 0 then some ({ a with
        names := names, buffer := a.scanned content, sent := h.sent }, [])
      else { a with names := names, buffer := filenameLine name, sent := h.sent }.send
        (filenameLine name) (.command a.pos) t.writes (.named (opts.infodirname ++ name))
        .closed := by
  have hopen' : ({ a with names := names } : Apply).openFile (opts.infodirname ++ name) t =
      some content := hopen
  simp only [scanned] at hscan
  simp only [nextFile, hnames, hskip, hopen', hscan, scanned, Bool.false_eq_true, if_false]

/-- One whose header cannot be scanned is announced when the flag was not set before. -/
theorem nextFile_mismatch (hnames : a.names = name :: names) (hskip : skipped name = false)
    (hopen : a.openFile (opts.infodirname ++ name) t = some content)
    (hscan : scanHeader (a.scanned content) = .error .mismatch) :
    a.nextFile opts t =
      if a.sent ≠ 0 then some ({ a with names := names, buffer := a.scanned content }, [])
      else { a with names := names, buffer := filenameLine name }.send (filenameLine name)
        (.command a.pos) t.writes (.named (opts.infodirname ++ name)) .closed := by
  have hopen' : ({ a with names := names } : Apply).openFile (opts.infodirname ++ name) t =
      some content := hopen
  simp only [scanned] at hscan
  simp only [nextFile, hnames, hskip, hopen', hscan, scanned, Bool.false_eq_true, if_false]

/-- One whose header overruns an array takes the client down. -/
theorem nextFile_overrun (hnames : a.names = name :: names) (hskip : skipped name = false)
    (hopen : a.openFile (opts.infodirname ++ name) t = some content)
    (hscan : scanHeader (a.scanned content) = .error .overrun) :
    a.nextFile opts t = some ({ a with names := names, place := .fault }, []) := by
  have hopen' : ({ a with names := names } : Apply).openFile (opts.infodirname ++ name) t =
      some content := hopen
  simp only [scanned] at hscan
  simp only [nextFile, hnames, hskip, hopen', hscan, Bool.false_eq_true, if_false]
  rfl

/-- What is written is written whole. -/
theorem send_smooth (ht : t.Smooth) {bs : Bytes} {label : Bytes → Sent}
    {written failed : ApplyPlace}
    (h : a.send bs label t.writes written failed = some (a', sent)) :
    ∃ wire, a' = { a with wire := wire, pos := a.pos + bs.length, place := written } ∧
      sent = [label bs] := by
  obtain ⟨⟨full, got, wire⟩, hwriten, heq⟩ := Option.map_eq_some_iff.mp h
  obtain ⟨rfl, rfl, -, -⟩ := Wire.writen_calm ht.writes hwriten
  obtain ⟨rfl, rfl⟩ := Prod.mk.inj heq
  exact ⟨wire, by simp, rfl⟩

theorem attempted_announce {start : ℕ} {name' : Bytes} :
    Attempted [.command start (filenameLine name)] name' ↔ name' = name := by
  simp [Attempted, filenameLine]

theorem not_attempted_nil : ¬ Attempted [] name := by simp [Attempted]

/-- The scan decides: a file is announced when the flag in its header is not set. -/
theorem decided_by_scan (ht : t.Smooth) (hplace : a.place = .next)
    (hnames : a.names = name :: names) (hskip : skipped name = false)
    (hdisk : a.disk (opts.infodirname ++ name) = some content) {h : Header} {rest : Bytes}
    (hscan : scanHeader (cstr (fgets content).1) = .ok (h, rest))
    (hact : a.act opts t = some (a', sent)) :
    a'.names = names ∧ a'.disk = a.disk ∧ a'.cancelled = a.cancelled ∧
      (h.sent ≠ 0 ∧ a'.place = .next ∧ sent = [] ∨
        h.sent = 0 ∧ a'.place = .named (opts.infodirname ++ name) ∧
          sent = [.command a.pos (filenameLine name)]) := by
  have hopen : a.openFile (opts.infodirname ++ name) t = some content := by
    rw [openFile, if_pos ht.ok, hdisk]
  have hne : content ≠ [] := by
    rintro rfl
    simp [fgets, cstr, scanHeader, scanField, bind, Except.bind] at hscan
  have hscan' : scanHeader (a.scanned content) = .ok (h, rest) := by
    rwa [scanned, if_neg hne]
  simp only [act, hplace, nextFile_scanned hnames hskip hopen hscan'] at hact
  split_ifs at hact with hsent
  · obtain ⟨rfl, rfl⟩ := Prod.mk.inj (Option.some.inj hact)
    exact ⟨rfl, rfl, rfl, Or.inl ⟨hsent, rfl, rfl⟩⟩
  · obtain ⟨wire, rfl, rfl⟩ := send_smooth ht hact
    exact ⟨rfl, rfl, rfl, Or.inr ⟨not_not.mp hsent, rfl, rfl⟩⟩

end Decide

/-! ### The steps between two entries -/

/-- The file that `apply_form` works on. -/
def workFile : ApplyPlace → Option Bytes
  | .named path => some path
  | .body path _ _ => some path
  | .reply path _ => some path
  | _ => none

/-- Behind the announcement of a form, before the next entry is taken. -/
def Inside : ApplyPlace → Prop
  | .start => False
  | .next => False
  | .quit => False
  | .closed => False
  | _ => True

/-- A step that takes no entry: it announces nothing and changes no file but the one it works
on. -/
structure Goes (a a' : Apply) (sent : List Sent) : Prop where
  names : a'.names = a.names
  cancelled : a'.cancelled = false
  place : a'.place = .next ∨ Inside a'.place
  file : ∀ path, workFile a'.place = some path → workFile a.place = some path
  disk : ∀ path, workFile a.place ≠ some path → a'.disk path = a.disk path
  quiet : ∀ name, ¬ Attempted sent name

section Between

variable {opts : Options} {a a' : Apply} {t : Turn} {sent : List Sent}
  {path content photo data : Bytes}

theorem goes_goto {place : ApplyPlace} (hcancelled : a.cancelled = false)
    (hplace : place = .next ∨ Inside place)
    (hfile : ∀ path, workFile place = some path → workFile a.place = some path)
    (h : a.goto place = (a', sent)) : Goes a a' sent := by
  obtain ⟨rfl, rfl⟩ := Prod.mk.inj h
  exact ⟨rfl, hcancelled, hplace, hfile, fun _ _ => rfl, fun _ => not_attempted_nil⟩

theorem goes_send (ht : t.Smooth) (hcancelled : a.cancelled = false) {bs : Bytes}
    {label : Bytes → Sent} {written failed : ApplyPlace} (hplace : written = .next ∨ Inside written)
    (hfile : ∀ path, workFile written = some path → workFile a.place = some path)
    (hlabel : ∀ name, ¬ Attempted [label bs] name)
    (h : a.send bs label t.writes written failed = some (a', sent)) : Goes a a' sent := by
  obtain ⟨wire, rfl, rfl⟩ := send_smooth ht h
  exact ⟨rfl, hcancelled, hplace, hfile, fun _ _ => rfl, hlabel⟩

theorem not_attempted_data (bs name : Bytes) : ¬ Attempted [.data bs] name := by
  simp [Attempted]

theorem not_attempted_binaryLine (pos size : ℕ) (base name : Bytes) :
    ¬ Attempted [.command pos (binaryLine size base)] name := by
  rintro ⟨start, hmem⟩
  obtain ⟨-, hline⟩ : start = pos ∧ filenameLine name = binaryLine size base := by
    simpa using hmem
  exact absurd (congrArg List.head? hline) (by simp [filenameLine, binaryLine, ascii])

theorem goes_afterForm (hcancelled : a.cancelled = false)
    (h : a.afterForm opts photo = (a', sent)) : Goes a a' sent := by
  obtain ⟨rfl, rfl | ⟨-, rfl⟩⟩ := afterForm_cases h
  · exact ⟨rfl, hcancelled, Or.inl rfl, by simp [workFile], fun _ _ => rfl,
      fun _ => not_attempted_nil⟩
  · exact ⟨rfl, hcancelled, Or.inr trivial, by simp [workFile], fun _ _ => rfl,
      fun _ => not_attempted_nil⟩

/-- Marking a form changes its own file at most. -/
theorem mark_disk (h : a.mark path t = .ok a') :
    a'.place = a.place ∧ a'.names = a.names ∧ a'.cancelled = a.cancelled ∧
      ∀ path', path' ≠ path → a'.disk path' = a.disk path' := by
  unfold mark at h
  split at h
  · obtain rfl := Except.ok.inj h
    exact ⟨rfl, rfl, rfl, fun _ _ => rfl⟩
  · next content _ =>
    cases hmark : markSent content t.garbage with
    | error err => simp [hmark, bind, Except.bind] at h
    | ok content' =>
      obtain rfl : _ = a' := by simpa [hmark, bind, Except.bind, pure, Except.pure] using h
      exact ⟨rfl, rfl, rfl, fun path' hne => Function.update_of_ne hne _ _⟩

/-- The step that has read the reply to a form. -/
theorem goes_readFormReply (hplace : a.place = .reply path photo) (hcancelled : a.cancelled = false)
    (h : a.readFormReply opts path photo t = some (a', sent)) : Goes a a' sent := by
  simp only [readFormReply, Option.bind_eq_bind, Option.bind_eq_some_iff] at h
  obtain ⟨⟨ret, line, wire⟩, -, h⟩ := h
  dsimp only at h
  split_ifs at h
  · obtain ⟨rfl, rfl⟩ := Prod.mk.inj (Option.some.inj h)
    exact ⟨rfl, hcancelled, Or.inl rfl, by simp [workFile], fun _ _ => rfl,
      fun _ => not_attempted_nil⟩
  · split at h
    · obtain ⟨rfl, rfl⟩ := Prod.mk.inj (Option.some.inj h)
      exact ⟨rfl, hcancelled, Or.inr trivial, by simp [workFile], fun _ _ => rfl,
        fun _ => not_attempted_nil⟩
    · next marked hmark =>
      -- the only place that writes a file
      obtain ⟨hplace', hnames, hcancelled', hdisk⟩ := mark_disk hmark
      have hgo := goes_afterForm (hcancelled'.trans hcancelled) (Option.some.inj h)
      have hfile : workFile a.place = some path := by rw [hplace]; rfl
      refine ⟨hgo.names.trans hnames, hgo.cancelled, hgo.place, fun path' hpath' => ?_,
        fun path' hne => ?_, hgo.quiet⟩
      · have hsame := hgo.file path' hpath'
        rwa [hplace'] at hsame
      · have hother : path' ≠ path := fun heq => hne (by rw [heq, hfile])
        rw [← hdisk path' hother]
        refine hgo.disk path' ?_
        rw [hplace']
        exact hne
  · have hgo := goes_afterForm (a := { a with wire := wire }) hcancelled (Option.some.inj h)
    exact ⟨hgo.names, hgo.cancelled, hgo.place, hgo.file, hgo.disk, hgo.quiet⟩

/-- Behind an announcement a step without errors takes no entry. -/
theorem act_inside (ht : t.Smooth) (hcancelled : a.cancelled = false) (hin : Inside a.place)
    (h : a.act opts t = some (a', sent)) : Goes a a' sent := by
  cases hplace : a.place with
  | start | next | quit | closed => simp [hplace, Inside] at hin
  | named path =>
    simp only [act, hplace, openForm, hcancelled, ht.cancel, Bool.false_eq_true, if_false] at h
    split at h
    · obtain ⟨rfl, rfl⟩ := Prod.mk.inj (Option.some.inj h)
      exact ⟨rfl, rfl, Or.inl rfl, by simp [workFile], fun _ _ => rfl, fun _ => not_attempted_nil⟩
    · obtain ⟨rfl, rfl⟩ := Prod.mk.inj (Option.some.inj h)
      exact ⟨rfl, rfl, Or.inr trivial, by simp [workFile, hplace], fun _ _ => rfl,
        fun _ => not_attempted_nil⟩
  | body path content photo =>
    simp only [act, hplace, sendLine] at h
    split_ifs at h with hend hcut
    · exact goes_send ht hcancelled (Or.inr (by trivial)) (by simp [workFile, hplace])
        (not_attempted_data _) h
    · exact goes_afterForm hcancelled (Option.some.inj h)
    · exact goes_send ht hcancelled (Or.inr (by trivial)) (by simp [workFile, hplace])
        (not_attempted_data _) h
  | reply path photo =>
    simp only [act, hplace] at h
    exact goes_readFormReply hplace hcancelled h
  | photo path =>
    simp only [act, hplace, openPhoto] at h
    split at h
    · exact goes_goto hcancelled (Or.inl rfl) (by simp [workFile]) (Option.some.inj h)
    · split at h
      · exact goes_goto hcancelled (Or.inr (by trivial)) (by simp [workFile]) (Option.some.inj h)
      · exact goes_send ht hcancelled (Or.inr (by trivial)) (by simp [workFile])
          (not_attempted_binaryLine _ _ _) h
  | photoReply data =>
    simp only [act, hplace, readPhotoReply, Option.bind_eq_bind, Option.bind_eq_some_iff] at h
    obtain ⟨⟨ret, line, wire⟩, -, h⟩ := h
    dsimp only at h
    split_ifs at h
    all_goals
      obtain ⟨rfl, rfl⟩ := Prod.mk.inj (Option.some.inj h)
      refine ⟨rfl, hcancelled, ?_, by simp [workFile], fun _ _ => rfl, fun _ => not_attempted_nil⟩
    · exact Or.inl rfl
    · exact Or.inr trivial
    · exact Or.inl rfl
  | payload data =>
    simp only [act, hplace, sendBlock] at h
    split_ifs at h
    · exact goes_goto hcancelled (Or.inr (by trivial)) (by simp [workFile]) (Option.some.inj h)
    · split at h
      · cases h
      · obtain ⟨rfl, rfl⟩ := Prod.mk.inj (Option.some.inj h)
        exact ⟨rfl, hcancelled, Or.inr trivial, by simp [workFile], fun _ _ => rfl,
          fun _ => not_attempted_nil⟩
      · obtain ⟨rfl, rfl⟩ := Prod.mk.inj (Option.some.inj h)
        exact ⟨rfl, hcancelled, Or.inr trivial, by simp [workFile], fun _ _ => rfl,
          not_attempted_data _⟩
  | photoResult =>
    simp only [act, hplace] at h
    obtain ⟨⟨ret, line, wire⟩, -, heq⟩ := Option.map_eq_some_iff.mp h
    obtain ⟨rfl, rfl⟩ := Prod.mk.inj heq
    exact ⟨rfl, hcancelled, Or.inl rfl, by simp [workFile], fun _ _ => rfl,
      fun _ => not_attempted_nil⟩
  | fault => simp [act, hplace] at h

end Between

/-! ### A run over the directory -/

section Walk

variable (opts : Options) (disk : Bytes → Option Bytes)

/-- A file that is announced: it is looked at, and its flag is not set. -/
def Unsent (name : Bytes) : Prop :=
  ∃ content h rest, Looked opts disk name content ∧
    scanHeader (cstr (fgets content).1) = .ok (h, rest) ∧ h.sent = 0

/-- The client on its way through the directory: it works on files it has taken, has left the
others alone, and has announced those it has taken that are not sent. -/
structure Walk (order : List Bytes) (a : Apply) (sent : List Sent) : Prop where
  cancelled : a.cancelled = false
  start : a.place = .start → a.names = order
  done : Done a → a.names = []
  taken : ∃ taken, order = taken ++ a.names ∧
    (∀ path, workFile a.place = some path → ∃ name ∈ taken, path = opts.infodirname ++ name) ∧
    (∀ name ∈ a.names, a.disk (opts.infodirname ++ name) = disk (opts.infodirname ++ name)) ∧
    ∀ name, Attempted sent name ↔ name ∈ taken ∧ Unsent opts disk name

variable {opts disk} {order names : List Bytes} {a a' : Apply} {t : Turn} {sent sent' : List Sent}

theorem attempted_append {name : Bytes} :
    Attempted (sent ++ sent') name ↔ Attempted sent name ∨ Attempted sent' name := by
  simp [Attempted, exists_or]

theorem walk_start (h : Starts disk order a) : Walk opts disk order a [] where
  cancelled := h.cancelled
  start _ := h.names
  done hdone := by
    rcases hdone with hplace | hplace <;> simp [h.place] at hplace
  taken := by
    refine ⟨[], by simp [h.names], fun path hpath => ?_, fun name _ => by rw [h.disk],
      fun name => ?_⟩
    · simp [h.place, workFile] at hpath
    · simp [not_attempted_nil]

/-- What happens between two entries keeps the walk. -/
theorem Walk.goes (hw : Walk opts disk order a sent) (hnodup : order.Nodup)
    (hgo : Goes a a' sent') (hstart : a'.place ≠ .start) :
    Walk opts disk order a' (sent ++ sent') where
  cancelled := hgo.cancelled
  start h := absurd h hstart
  done hdone := by
    rcases hgo.place with hnext | hin <;> rcases hdone with hplace | hplace
    · simp [hnext] at hplace
    · simp [hnext] at hplace
    · simp [hplace, Inside] at hin
    · simp [hplace, Inside] at hin
  taken := by
    obtain ⟨taken, horder, hfile, hdisk, hsent⟩ := hw.taken
    refine ⟨taken, by rw [hgo.names, horder], fun path hpath => hfile path (hgo.file path hpath),
      fun name hname => ?_, fun name => ?_⟩
    · -- the entries still to come are not the file it works on
      rw [hgo.names] at hname
      rw [hgo.disk _ fun hpath => ?_, hdisk name hname]
      obtain ⟨name', hname', heq⟩ := hfile _ hpath
      obtain rfl := List.append_cancel_left heq
      rw [horder] at hnodup
      exact (List.nodup_append.mp hnodup).2.2 name hname' name hname rfl
    · rw [attempted_append, hsent name]
      simp [hgo.quiet name]

/-- Taking an entry keeps the walk when exactly the unsent forms are announced. -/
theorem Walk.take (hw : Walk opts disk order a sent) {name : Bytes}
    (hnames : a.names = name :: names) (hnames' : a'.names = names) (hdisk' : a'.disk = a.disk)
    (hcancelled : a'.cancelled = a.cancelled)
    (hplace : a'.place = .next ∨ a'.place = .named (opts.infodirname ++ name))
    (hsent' : ∀ name', Attempted sent' name' ↔ name' = name ∧ Unsent opts disk name) :
    Walk opts disk order a' (sent ++ sent') where
  cancelled := hcancelled.trans hw.cancelled
  start h := by rcases hplace with hplace | hplace <;> simp [hplace] at h
  done h := by rcases hplace with hplace | hplace <;> simp [Done, hplace] at h
  taken := by
    obtain ⟨taken, horder, hfile, hdisk, hsent⟩ := hw.taken
    refine ⟨taken ++ [name], by simp [horder, hnames, hnames'], fun path hpath => ?_,
      fun name' hname' => ?_, fun name' => ?_⟩
    · rcases hplace with hplace | hplace
      · simp [hplace, workFile] at hpath
      · rw [hplace] at hpath
        exact ⟨name, by simp, (Option.some.inj hpath).symm⟩
    · rw [hdisk']
      exact hdisk name' (by simp [hnames, hnames' ▸ hname'])
    · rw [attempted_append, hsent, hsent', List.mem_append, List.mem_singleton, or_and_right]
      refine or_congr_right (and_congr_right ?_)
      rintro rfl
      rfl

/-- A turn of the loop over the directory keeps the walk. -/
theorem Walk.next (hw : Walk opts disk order a sent) (hscan : HeadersScan opts disk order)
    (ht : t.Smooth) (hplace : a.place = .next) (h : a.act opts t = some (a', sent')) :
    Walk opts disk order a' (sent ++ sent') := by
  cases hnames : a.names with
  | nil =>
    simp only [act, hplace, nextFile, hnames] at h
    obtain ⟨rfl, rfl⟩ := Prod.mk.inj (Option.some.inj h)
    obtain ⟨taken, horder, -, hdisk, hsent⟩ := hw.taken
    exact ⟨hw.cancelled, by simp, fun _ => hnames, taken, horder, by simp [workFile], hdisk,
      by simpa using hsent⟩
  | cons name names =>
    obtain ⟨taken, horder, -, hdisk, -⟩ := hw.taken
    have hmem : name ∈ a.names := by simp [hnames]
    have hact : a.nextFile opts t = some (a', sent') := by simpa [act, hplace] using h
    -- the entry is a form that can be opened, or it is passed over
    by_cases hlooked : ∃ content, Looked opts disk name content
    · obtain ⟨content, hskip, hfile⟩ := hlooked
      obtain ⟨⟨header, rest⟩, hheader⟩ :=
        hscan name (by simp [horder, hnames]) content ⟨hskip, hfile⟩
      -- no form marked so far is this one, so its header is still the one of the directory
      obtain ⟨hnames', hdisk', hcancelled', hcase⟩ := decided_by_scan ht hplace hnames hskip
        ((hdisk name hmem).trans hfile) hheader h
      have hunsent : Unsent opts disk name ↔ header.sent = 0 := by
        constructor
        · rintro ⟨content', header', rest', ⟨-, hfile'⟩, hheader', hflag⟩
          obtain rfl : content = content' := Option.some.inj (hfile.symm.trans hfile')
          obtain ⟨rfl, -⟩ := Prod.mk.inj (Except.ok.inj (hheader.symm.trans hheader'))
          exact hflag
        · exact fun hflag => ⟨content, header, rest, ⟨hskip, hfile⟩, hheader, hflag⟩
      rcases hcase with ⟨hflag, hplace', rfl⟩ | ⟨hflag, hplace', rfl⟩
      · refine hw.take hnames hnames' hdisk' hcancelled' (Or.inl hplace') fun name' => ?_
        simp [not_attempted_nil, hunsent, hflag]
      · refine hw.take hnames hnames' hdisk' hcancelled' (Or.inr hplace') fun name' => ?_
        simp [attempted_announce, hunsent, hflag]
    · -- an entry that is not looked at is passed over
      obtain ⟨rfl, rfl⟩ : a' = { a with names := names } ∧ sent' = [] := by
        simp only [nextFile, hnames] at hact
        split_ifs at hact with hskip
        · obtain ⟨rfl, rfl⟩ := Prod.mk.inj (Option.some.inj hact)
          exact ⟨rfl, rfl⟩
        · have hnone : ({ a with names := names } : Apply).openFile (opts.infodirname ++ name) t =
              none := by
            rw [openFile, if_pos ht.ok]
            cases hfile : a.disk (opts.infodirname ++ name) with
            | none => rfl
            | some content =>
              exact absurd ⟨content, by simpa using hskip, (hdisk name hmem).symm.trans hfile⟩
                hlooked
          rw [hnone] at hact
          obtain ⟨rfl, rfl⟩ := Prod.mk.inj (Option.some.inj hact)
          exact ⟨rfl, rfl⟩
      refine hw.take hnames rfl rfl rfl (Or.inl hplace) fun name' => ?_
      refine iff_of_false not_attempted_nil ?_
      rintro ⟨-, content, -, -, hlook, -⟩
      exact hlooked ⟨content, hlook⟩

/-- **One step.** A step without errors keeps the walk, when every header can be scanned. -/
theorem Walk.step (hw : Walk opts disk order a sent) (hnodup : order.Nodup)
    (hscan : HeadersScan opts disk order) {m : Move} (hm : m.Smooth) :
    Walk opts disk order (submit opts a m).1 (sent ++ (submit opts a m).2) := by
  cases m with
  | arrive bs closed =>
    rw [submit, List.append_nil]
    exact ⟨hw.cancelled, hw.start, hw.done, hw.taken⟩
  | step t =>
    simp only [submit, applyForms]
    cases h : a.act opts t with
    | none => simpa using hw
    | some r =>
      obtain ⟨a', sent'⟩ := r
      have ht : t.Smooth := hm
      rw [Option.getD_some]
      cases hplace : a.place with
      | next => exact hw.next hscan ht hplace h
      | start =>
        simp only [act, hplace, hw.cancelled, ht.ok, Bool.not_true, Bool.or_false,
          Bool.false_eq_true, if_false] at h
        obtain ⟨rfl, rfl⟩ := Prod.mk.inj (Option.some.inj h)
        obtain ⟨taken, horder, -, hdisk, hsent⟩ := hw.taken
        exact ⟨hw.cancelled, by simp, by simp [Done], taken, horder, by simp [workFile], hdisk,
          by simpa using hsent⟩
      | quit =>
        simp only [act, hplace, sendQuit] at h
        obtain ⟨wire, rfl, rfl⟩ := send_smooth ht h
        obtain ⟨taken, horder, -, hdisk, hsent⟩ := hw.taken
        refine ⟨hw.cancelled, by simp, fun _ => hw.done (Or.inl hplace), taken, horder,
          by simp [workFile], hdisk, fun name => ?_⟩
        simp [attempted_append, not_attempted_data, hsent]
      | closed => simp [act, hplace] at h
      | named path | body path content photo | reply path photo | photo path | photoReply data
      | payload data | photoResult | fault =>
        have hgo := act_inside ht hw.cancelled (by simp [hplace, Inside]) h
        refine hw.goes hnodup hgo fun (hstart : a'.place = .start) => ?_
        rcases hgo.place with hnext | hin
        · simp [hnext] at hstart
        · simp [hstart, Inside] at hin

theorem walk_run (hstart : Starts disk order a) (hnodup : order.Nodup)
    (hscan : HeadersScan opts disk order) {ms : List Move} (hms : ∀ m ∈ ms, m.Smooth) :
    Walk opts disk order ((submit opts).run a ms).1 ((submit opts).run a ms).2 := by
  have hmeets := Machine.meets_of_forall (m := submit opts) a hms
  have step : ∀ (b : Apply) (sent : List Sent) (m : Move), m.Smooth → Walk opts disk order b sent →
      Walk opts disk order (submit opts b m).1 (sent ++ (submit opts b m).2) :=
    fun _ _ _ hm hw => hw.step hnodup hscan hm
  simpa using Machine.run_induction step (walk_start hstart) hmeets

end Walk

/-! ### The order of the entries -/

section Order

variable {opts : Options} {disk : Bytes → Option Bytes} {names order : List Bytes}

theorem HeadersScan.perm (h : HeadersScan opts disk names) (hperm : order.Perm names) :
    HeadersScan opts disk order := fun name hname => h name (hperm.mem_iff.mp hname)

theorem ownLineDecides_of_headersScan (hnodup : names.Nodup) (h : HeadersScan opts disk names) :
    OwnLineDecides opts disk names := by
  -- the function of the line: its own flag
  refine ⟨fun line => ∃ header rest, scanHeader (cstr line) = .ok (header, rest) ∧ header.sent = 0,
    fun order a ms t name content a' sent hperm hstart hms ht htakes hlook => ?_⟩
  have hw := walk_run hstart (hperm.nodup_iff.mpr hnodup) (h.perm hperm) hms
  obtain ⟨taken, horder, -, hdisk, -⟩ := hw.taken
  obtain ⟨rest, hnames⟩ := List.head?_eq_some_iff.mp htakes.names
  have hmem : name ∈ order := by simp [horder, hnames]
  obtain ⟨⟨header, left⟩, hheader⟩ := h.perm hperm name hmem content hlook
  obtain ⟨-, -, -, hcase⟩ := decided_by_scan ht htakes.place hnames hlook.1
    ((hdisk name (by simp [hnames])).trans hlook.2) hheader htakes.act
  rcases hcase with ⟨hflag, hplace, rfl⟩ | ⟨hflag, hplace, rfl⟩
  · refine ⟨by simp [hplace], iff_of_false not_attempted_nil ?_⟩
    rintro ⟨header', left', hheader', hflag'⟩
    obtain ⟨rfl, -⟩ := Prod.mk.inj (Except.ok.inj (hheader.symm.trans hheader'))
    exact hflag hflag'
  · exact ⟨by simp [hplace], iff_of_true (attempted_announce.mpr rfl)
      ⟨header, left, hheader, hflag⟩⟩

/-- A run that is through has announced the unsent forms of the directory. -/
theorem attempted_of_done {a : Apply} {ms : List Move} (hperm : order.Perm names)
    (hnodup : names.Nodup) (h : HeadersScan opts disk names) (hstart : Starts disk order a)
    (hms : ∀ m ∈ ms, m.Smooth) (hdone : Done ((submit opts).run a ms).1) (name : Bytes) :
    Attempted ((submit opts).run a ms).2 name ↔ name ∈ names ∧ Unsent opts disk name := by
  have hw := walk_run hstart (hperm.nodup_iff.mpr hnodup) (h.perm hperm) hms
  obtain ⟨taken, horder, -, -, hsent⟩ := hw.taken
  -- no entry is left, so all of them were taken
  rw [hw.done hdone, List.append_nil] at horder
  rw [hsent, ← horder, hperm.mem_iff]

theorem sameForms_of_headersScan (hnodup : names.Nodup) (h : HeadersScan opts disk names) :
    SameForms opts disk names := by
  intro order₁ order₂ a₁ a₂ ms₁ ms₂ hperm₁ hperm₂ hstart₁ hstart₂ hms₁ hms₂ hdone₁ hdone₂ name
  rw [attempted_of_done hperm₁ hnodup h hstart₁ hms₁ hdone₁,
    attempted_of_done hperm₂ hnodup h hstart₂ hms₂ hdone₂]

/-- A client in front of a directory, with an empty array and this flag. -/
def before (disk : Bytes → Option Bytes) (order : List Bytes) (flag : ℤ) : Apply where
  place := .start
  wire := { conn := { inq := [], eof := false } }
  pos := 0
  cancelled := false
  names := order
  disk := disk
  buffer := []
  sent := flag

theorem before_starts (flag : ℤ) : Starts disk order (before disk order flag) :=
  ⟨rfl, rfl, rfl, rfl⟩

theorem smooth_default : ({} : Turn).Smooth := ⟨rfl, rfl, by simp [Posix.Calm]⟩

/-- The same behind `opendir`. -/
def opened (disk : Bytes → Option Bytes) (order : List Bytes) (flag : ℤ) : Apply :=
  { before disk order flag with place := .next }

theorem run_before (flag : ℤ) :
    ((submit opts).run (before disk order flag) [.step {}]).1 = opened disk order flag := rfl

theorem scanned_opened (flag : ℤ) (content : Bytes) :
    (opened disk order flag).scanned content = cstr (fgets content).1 := by
  unfold scanned
  split
  · next hnil =>
    subst hnil
    rfl
  · rfl

/-- A file in front whose header cannot be scanned is decided by what the flag held. -/
theorem headersScan_of_ownLineDecides (h : OwnLineDecides opts disk names) :
    HeadersScan opts disk names := by
  intro name hname content hlook
  obtain ⟨attempt, hattempt⟩ := h
  have hperm : (name :: names.erase name).Perm names := (List.perm_cons_erase hname).symm
  obtain ⟨t, ht, hmoves⟩ : ∃ t : Turn, t.Smooth ∧ (filenameLine name).length ≤ moves t.writes := by
    refine ⟨{ writes := List.replicate (filenameLine name).length (.upTo 1) }, ⟨rfl, rfl, ?_⟩, ?_⟩
    · intro o ho
      obtain ⟨-, rfl⟩ := List.mem_replicate.mp ho
      trivial
    · exact (moves_replicate _ 1).ge
  obtain ⟨order, horder⟩ : ∃ order, order = name :: names.erase name := ⟨_, rfl⟩
  rw [← horder] at hperm
  have hdecide : ∀ flag a' sent, (opened disk order flag).nextFile opts t = some (a', sent) →
      a'.place ≠ .fault ∧ (Attempted sent name ↔ attempt (fgets content).1) := by
    intro flag a' sent hact
    refine hattempt order _ [.step {}] t name content a' sent hperm (before_starts flag)
      (by simp [Move.Smooth, smooth_default]) ht ?_ hlook
    rw [run_before]
    exact ⟨rfl, by rw [horder]; rfl, hact⟩
  have hnames : ∀ flag, (opened disk order flag).names = name :: names.erase name :=
    fun _ => horder
  have hopen : ∀ flag, (opened disk order flag).openFile (opts.infodirname ++ name) t =
      some content := by
    intro flag
    rw [openFile, if_pos ht.ok]
    exact hlook.2
  cases hscan : scanHeader (cstr (fgets content).1) with
  | ok r => exact ⟨r, rfl⟩
  | error err =>
    have hscan' : ∀ flag, scanHeader ((opened disk order flag).scanned content) = .error err :=
      fun flag => by rw [scanned_opened, hscan]
    cases err with
    | overrun =>
      have hact := nextFile_overrun (hnames 0) hlook.1 (hopen 0) (hscan' 0)
      exact absurd rfl (hdecide 0 _ _ hact).1
    | mismatch =>
      -- with the flag set the file is passed over, without it is announced
      have hset := nextFile_mismatch (hnames 1) hlook.1 (hopen 1) (hscan' 1)
      rw [if_pos (show (opened disk order 1).sent ≠ 0 from one_ne_zero)] at hset
      have hno := mt (hdecide 1 _ _ hset).2.mpr not_attempted_nil
      have hclear := nextFile_mismatch (hnames 0) hlook.1 (hopen 0) (hscan' 0)
      rw [if_neg (show ¬ (opened disk order 0).sent ≠ 0 from not_not.mpr rfl)] at hclear
      obtain ⟨⟨full, got, wire⟩, hwriten⟩ :=
        @Wire.writen_some (opened disk order 0).wire t.writes (filenameLine name) ht.writes hmoves
      have hsend := hclear.trans (congrArg (Option.map _) hwriten)
      obtain ⟨wire', -, hsent⟩ := send_smooth ht (hclear.symm.trans hsend)
      have hyes := (hdecide 0 _ _ hsend).2.mp
      rw [hsent] at hyes
      exact absurd (hyes (attempted_announce.mpr rfl)) hno

/-- **Directory order.** What `apply_forms` announces is the same in every order of the
directory, and a function of the first line of each file, if and only if the first line of
every file that is looked at can be scanned as far as the flag. -/
theorem order_free_iff (hnodup : names.Nodup) :
    OwnLineDecides opts disk names ∧ SameForms opts disk names ↔ HeadersScan opts disk names :=
  ⟨fun h => headersScan_of_ownLineDecides h.1,
    fun h => ⟨ownLineDecides_of_headersScan hnodup h, sameForms_of_headersScan hnodup h⟩⟩

end Order

/-! ### An empty file behind a form that is sent -/

def sampleOpts : Options where
  infodirname := ascii "/info/"
  ignorePhoto := false

/-- A form that is sent. -/
def sentName : Bytes := ascii "M_0001_A_0001_0.txt"

def emptyName : Bytes := ascii "M_0002_A_0002_0.txt"

/-- Two files, one of them empty. -/
def sentAndEmpty (path : Bytes) : Option Bytes :=
  if path = ascii "/info/" ++ sentName then some (ascii "Male:0001:A:0001:Science:1:AB\n")
  else if path = ascii "/info/" ++ emptyName then some []
  else none

theorem order_free_iff_sample :
    OwnLineDecides sampleOpts sentAndEmpty [sentName, emptyName] ∧
        SameForms sampleOpts sentAndEmpty [sentName, emptyName] ↔
      HeadersScan sampleOpts sentAndEmpty [sentName, emptyName] :=
  order_free_iff (by decide)

/-- A step in which whole lines are moved. -/
def wholeTurn : Turn where
  reads := List.replicate 5 (.upTo MAXLINE)
  writes := [.upTo MAXLINE]

theorem wholeTurn_smooth : wholeTurn.Smooth := ⟨rfl, rfl, by decide⟩

/-- Behind the form that is sent the empty file is passed over, in front of it, with a flag
that happens to be 0, it is announced. -/
theorem order_free_fails_sample :
    ¬ SameForms sampleOpts sentAndEmpty [sentName, emptyName] := by
  intro h
  have hsmooth : ∀ m ∈ List.replicate 4 (Move.step wholeTurn) ++
      .arrive (ascii "500\n") false :: List.replicate 3 (.step wholeTurn), m.Smooth := by
    simp [Move.Smooth, wholeTurn_smooth]
  have hsame := h [sentName, emptyName] [emptyName, sentName]
    (before sentAndEmpty [sentName, emptyName] 0) (before sentAndEmpty [emptyName, sentName] 0)
    (List.replicate 4 (.step wholeTurn) ++
      .arrive (ascii "500\n") false :: List.replicate 3 (.step wholeTurn))
    (List.replicate 4 (.step wholeTurn) ++
      .arrive (ascii "500\n") false :: List.replicate 3 (.step wholeTurn))
    (List.Perm.refl _) (List.Perm.swap _ _ _) (before_starts 0) (before_starts 0) hsmooth hsmooth
    (Or.inr (by decide)) (Or.inl (by decide)) emptyName
  have hyes : Attempted ((submit sampleOpts).run (before sentAndEmpty [emptyName, sentName] 0)
      (List.replicate 4 (.step wholeTurn) ++
        .arrive (ascii "500\n") false :: List.replicate 3 (.step wholeTurn))).2 emptyName :=
    ⟨0, by decide⟩
  have hno : ((submit sampleOpts).run (before sentAndEmpty [sentName, emptyName] 0)
      (List.replicate 4 (.step wholeTurn) ++
        .arrive (ascii "500\n") false :: List.replicate 3 (.step wholeTurn))).2 =
          [.data (ascii "QUIT\n")] := by decide
  rw [hno] at hsame
  exact not_attempted_data _ _ (hsame.mpr hyes)

end Apply

end Esif.Client
