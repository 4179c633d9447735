import Esif.CS.Interleave
import Esif.CS.Pieces
import Esif.Client.Entry
import Esif.Server.Timeout
import Esif.System.Delivery

/-!
# Where a submission stands

A directory of forms is submitted, each form with its photo. Where the two sides are is one of
nine standings; a number says how far they are from the end.

## Main definitions

* `Errand.Due` — a form that is to be sent
* `Errand.Tidy` — a directory of forms that are marked or due
* `Errand.Pictures` — the photos the forms name
* `Errand.Announces`, `Errand.Serves` — what the client sends, and what the server does, for a form
* `Standing` — where the two sides are, and what lies between them
* `Working` — the invariant: what is not settled is still to come
* `Errand.left` — the steps the two sides have left to take

## Main results

* `readCommand_quits`, `readCommand_refuses` — the commands that are no forms
* `FormStage.placeLeft_eq`, `PhotoStage.placeLeft_eq` — what is left of a form, or of a photo, is
  what its transfer has left
* `FormStage.concerns`, `PhotoStage.concerns` — what the server does concerns what is in hand
-/

namespace Esif.System

open Esif.CS Esif.Posix Esif.Server
open Esif.Client (Apply FILENAMELEN Gathers Marks Options Sent basename photoOf photoReturn)
open Esif.Client.Apply (IsSent WritesBlock binaryLine skipped)

/-! ### What the server reads -/

section Reads

variable {s s' : Session} {t : Turn} {es : List Event} {line rest : Bytes}

theorem whole_quit : Lines.Whole isNewline (MAXLINE - 1) (ascii "QUIT\n") := by
  refine @Lines.whole_line _ isNewline _ (ascii "QUIT") (fun b hb => ?_) newline rfl (by decide)
  simpa [isNewline] using ne_of_mem_of_not_mem hb (by decide : newline ∉ ascii "QUIT")

/-- `QUIT` ends the session. -/
theorem readCommand_quits (hcon : t.Connected) (hs : unread s.tsd s.conn = ascii "QUIT\n")
    (h : readCommand s t = some (s', es)) :
    s'.phase = .done ∧ sentBytes es = [] ∧ ∀ event ∈ es, ¬ event.IsEffect := by
  have hfront : ∀ {ret : ℤ} {line : Bytes} {m : Session},
      s.readline t.reads = some (ret, line, m) → line = ascii "QUIT\n" := by
    intro ret line m hread
    exact (readline_front hcon (by rw [hs, List.append_nil]) whole_quit (by decide) hread).2.1
  refine (readCommand_step h).leaves fun hread _ => ?_
  rw [hfront hread]
  exact ⟨by decide, by decide⟩

/-- A photo is refused by a server that takes none. -/
theorem readCommand_refuses (hcon : t.Connected) (hs : unread s.tsd s.conn = line ++ rest)
    (hwhole : Lines.Whole isNewline (MAXLINE - 1) line) (hword : ascii "BINARY " <+: line)
    (hlen : 9 ≤ line.length) (herrno : s.errno ≠ .ewouldblock) (hoff : t.acceptimage = false)
    (h : readCommand s t = some (s', es)) :
    s'.phase = .command ∧ s.Past rest s' ∧ sentBytes es = ebuf E_IMG_NOSUPPORT ∧
      ∀ event ∈ es, ¬ event.IsEffect := by
  have hne : line ≠ [] := by
    rintro rfl
    simp at hlen
  simp only [readCommand, Option.bind_eq_bind, Option.bind_eq_some_iff] at h
  obtain ⟨⟨ret, got, m⟩, hread, h⟩ := h
  have herrno' := readline_errno hcon hs hwhole hne herrno hread
  obtain ⟨hpos, rfl, hpast⟩ := readline_front hcon hs hwhole hne hread
  have hline := Session.readline_cases hread
  have hret : 9 ≤ ret := by
    obtain ⟨hret, -⟩ := Session.readline_calm hcon.reads hs hwhole hne hread
    rw [hret]
    split_ifs <;> omega
  have hbinary : strncmp m.buffer (ascii "BINARY ") = true := by
    rw [hline.strncmp_eq hpos (by decide)]
    exact List.isPrefixOf_iff_prefix.mpr hword
  have hquit : ¬ strncmp m.buffer (ascii "QUIT\n") = true := by
    rw [hline.strncmp_eq hpos (by decide), List.isPrefixOf_iff_prefix]
    intro hquit
    exact absurd (List.prefix_of_prefix_length_le hquit hword (by decide)) (by decide)
  dsimp only at h
  rw [if_neg herrno', if_neg hquit, if_neg (by omega), if_pos hbinary] at h
  obtain ⟨⟨s'', es'⟩, hbin, heq⟩ := Option.bind_eq_some_iff.mp h
  obtain ⟨rfl, rfl⟩ : s'' = s' ∧ _ = es := by simpa using heq
  simp only [binary, hoff, Bool.not_false, if_true] at hbin
  obtain ⟨⟨ret', m', sent⟩, hw, heq⟩ := Option.map_eq_some_iff.mp hbin
  obtain ⟨-, rfl, errno, rfl⟩ := Session.writen_calm hcon.writes hw
  obtain ⟨rfl, rfl⟩ := Prod.mk.inj heq
  exact ⟨rfl, ⟨hpast.unread, hpast.eof⟩, by simp [sentBytes], by simp [Event.IsEffect]⟩

theorem oneLine_photoOf {lines : List Bytes} (h : ∀ line ∈ lines, nul ∉ line) :
    OneLine (photoOf lines) := by
  have hfold : ∀ {photo}, OneLine photo →
      OneLine (lines.foldl (fun photo line => Client.scanPhoto line photo) photo) := by
    induction lines with
    | nil => exact fun hphoto => hphoto
    | cons line lines ih =>
      intro photo hphoto
      exact ih (fun l hl => h l (List.mem_cons_of_mem _ hl))
        (oneLine_scanPhoto (h line List.mem_cons_self) hphoto)
  exact hfold oneLine_nil

/-- On a connection that holds nothing times out. -/
theorem prompt_of_calm (hcalm : t.Calm) (s : Session) : prompt s t = true := by
  have hnone : ∀ {os : List Outcome}, Posix.Calm os → .fails .ewouldblock ∉ os := by
    intro os hos hmem
    exact absurd (hos _ hmem) (by decide)
  have hwrites := hnone hcalm.writes
  have hreads : t.reads.head? ≠ some (.fails .ewouldblock) := fun hhead =>
    hnone hcalm.reads (List.mem_of_mem_head? hhead)
  unfold prompt
  split
  · simpa using hreads
  · simpa using hwrites
  · simpa using hwrites
  · rfl

/-- A form has one way to be cut in lines. -/
theorem lines_eq_of_flatten_eq {lines lines' : List Bytes} (h : ∀ line ∈ lines, FormLine line)
    (h' : ∀ line ∈ lines', FormLine line) (heq : lines.flatten = lines'.flatten) :
    lines = lines' :=
  Lines.eq_of_flatten_eq (fun line hline => ⟨(h line hline).whole, (h line hline).ne_nil⟩)
    (fun line hline => ⟨(h' line hline).whole, (h' line hline).ne_nil⟩) heq

end Reads

/-! ### The directory -/

namespace Errand

/-- The form is to be sent. -/
structure Due (e : Errand) (f : Form) : Prop where
  entry : e.Entry f.name
  path : f.path = e.path f.name
  disk : e.disk f.path = some f.lines.flatten
  marks : ∃ marked, Marks f.lines.flatten marked

/-- Every entry that is looked at is a form that is marked, or to be sent. -/
def Tidy (e : Errand) : Prop :=
  ∀ name, e.Entry name → ∀ content, e.disk (e.path name) = some content →
    IsSent content ∨ ∃ f, e.Due f ∧ f.name = name

/-- The client looks for the photo of the form. -/
structure Encloses (e : Errand) (f : Form) : Prop where
  on : e.opts.ignorePhoto = false
  long : FILENAMELEN ≤ (photoOf f.lines).length

/-- The photo of the form is one the server can take, and lies over no form. -/
structure Depicts (e : Errand) (f : Form) (p : Photo) : Prop where
  encloses : e.Encloses f
  path : p.path = photoOf f.lines
  disk : e.disk p.path = some p.data
  apart : ∀ name, e.Entry name → e.file p.base ≠ e.file name

/-- The photos lie where no form does. A server that takes photos (`on`) can take each of them,
under a name of its own; for the others the announcement fits. -/
structure Pictures (e : Errand) (on : Bool) : Prop where
  apart : ∀ f, e.Due f → e.Encloses f → ∀ name, e.Entry name → photoOf f.lines ≠ e.path name
  offered : on = false → ∀ f, e.Due f → e.Encloses f → ∀ data,
    e.disk (photoOf f.lines) = some data → ∃ base, basename (photoOf f.lines) = some base ∧
      (binaryLine data.length base).length < MAXLINE
  taken : on = true → ∀ f, e.Due f → e.Encloses f → ∀ data,
    e.disk (photoOf f.lines) = some data → ∃ p, e.Depicts f p
  own : on = true → ∀ f g p q, e.Due f → e.Due g → e.Depicts f p → e.Depicts g q →
    e.file p.base = e.file q.base → f.name = g.name

/-- The form is marked, and both stores hold it. -/
structure Settled (e : Errand) (f : Form) (disk : Bytes → Option Bytes) (w : World) : Prop where
  marked : ∃ marked, Marks f.lines.flatten marked ∧ disk f.path = some marked
  holding : Holding f (e.file f.name) e.db (stem f.name) w

/-- The photo of the form lies beside it. -/
def Pictured (e : Errand) (f : Form) (w : World) : Prop :=
  ∀ p, e.Depicts f p → w.file (e.file p.base) = some p.data

/-- The event touches at most the photo of the form. -/
def Portrays (e : Errand) (f : Form) (event : Event) : Prop :=
  ∃ p, e.Depicts f p ∧ (∀ place, event.TouchesFile e.cwd place → place = e.file p.base) ∧
    ∀ place key, ¬ event.TouchesRecord e.cwd place key

/-- What the server does is done to the form, or to its photo where it takes photos. -/
def Serves (e : Errand) (on : Bool) (f : Form) (event : Event) : Prop :=
  e.Concerns f.name event ∨ on = true ∧ e.Portrays f event

/-- The command line announces the form, or offers its photo. -/
def Announces (e : Errand) (f : Form) (line : Bytes) : Prop :=
  line = Apply.filenameLine f.name ∨ e.Encloses f ∧ ∃ data base,
    e.disk (photoOf f.lines) = some data ∧ basename (photoOf f.lines) = some base ∧
      line = binaryLine data.length base

/-- The photo of the form is still to come, or in hand. -/
def Awaits (e : Errand) (a : Apply) (f : Form) : Prop :=
  f.name ∈ a.names ∨ a.place.form = some f.path ∨
    a.place.OfPhoto ∧ f.name :: a.names <:+ e.names

end Errand

/-- Where the two sides are and what lies between them. -/
inductive Standing (e : Errand) (on : Bool) (a : Apply) (s : Session) (w : World) : Prop
  | looking (place : a.place = .start ∨ a.place = .next) (client : a.At a.place [])
      (server : s.At .command [])
  | sending (f : Form) (due : e.Due f) (names : f.name :: a.names <:+ e.names)
      (photo : Gathers f.lines a.place)
      (stage : FormStage f e.cwd (txtdirOf e.year e.college ++ f.name) (regdbOf e.year e.college)
        (stem f.name) ⟨a, none⟩ s w)
  | offering (f : Form) (due : e.Due f) (names : f.name :: a.names <:+ e.names)
      (encloses : e.Encloses f) (client : a.At (.photo (photoOf f.lines)) [])
      (server : s.At .command [])
  | picturing (f : Form) (p : Photo) (taken : on = true) (due : e.Due f)
      (names : f.name :: a.names <:+ e.names) (depicts : e.Depicts f p)
      (stage : PhotoStage p (txtdirOf e.year e.college ++ p.base) (e.file p.base) ⟨a, none⟩ s w)
  | offered {data base : Bytes} (off : on = false) (text : OneLine base)
      (fits : (binaryLine data.length base).length < MAXLINE) (client : a.At (.photoReply data) [])
      (server : s.At .command (binaryLine data.length base))
  | refused {data : Bytes} (off : on = false)
      (client : a.At (.photoReply data) (ebuf E_IMG_NOSUPPORT)) (server : s.At .command [])
  | leaving (names : a.names = []) (client : a.At .quit []) (server : s.At .command [])
  | closing (names : a.names = []) (place : a.place = .closed) (phase : s.phase = .command)
      (unread : unread s.tsd s.conn = ascii "QUIT\n")
  | ended (names : a.names = []) (place : a.place = .closed) (phase : s.phase = .done)

/-- What is not settled is still to come, or in hand. -/
structure Working (e : Errand) (on : Bool) (a : Apply) (s : Session) (w : World) : Prop where
  names : a.names <:+ e.names
  going : a.cancelled = false
  rest : ∀ name ∈ a.names, a.disk (e.path name) = e.disk (e.path name)
  kept : ∀ path, (∀ f, e.Due f → f.path ≠ path) → a.disk path = e.disk path
  settled : ∀ f, e.Due f → f.name ∈ a.names ∨ a.place.form = some f.path ∨ e.Settled f a.disk w
  pictured : on = true → ∀ f, e.Due f → e.Awaits a f ∨ e.Pictured f w
  houses : e.Houses s
  untimed : Untimed s
  stage : Standing e on a s w

/-! ### What is left to do -/

/-- The steps the client has left to take for a form of `n` bytes. -/
def sendLeft (n : ℕ) : Client.ApplyPlace → ℕ
  | .named _ => n + 3
  | .body _ content _ => content.length + 2
  | .reply _ _ => 1
  | _ => 0

/-- The steps the server has left to take for a form of `n` bytes. -/
def takeLeft (n : ℕ) (s : Session) : ℕ :=
  match s.phase with
  | .command => if unread s.tsd s.conn = [] then 0 else n + 5
  | .body => n - s.stfile.length + 4
  | .close => 3
  | .insert => 2
  | .reply => 1
  | _ => 0

/-- The steps the server has left to take for a photo of `n` bytes. -/
def pictureLeft (n : ℕ) (s : Session) : ℕ :=
  match s.phase with
  | .command => if unread s.tsd s.conn = [] then 0 else n + 4
  | .image size => size + 3
  | .payload nleft _ _ => nleft + 2
  | .imageReply _ => 1
  | _ => 0

/-- The size of a file. -/
def size (disk : Bytes → Option Bytes) (path : Bytes) : ℕ := ((disk path).map List.length).getD 0

/-- The size of the photo that a form names. -/
def photoSize (disk : Bytes → Option Bytes) (path : Bytes) : ℕ :=
  match disk path with
  | none => 0
  | some content => size disk (photoOf (Lines.allPieces isNewline (MAXLINE - 1) content))

/-- The steps left to take up to the next entry, and those to close the connection. -/
def Errand.placeLeft (e : Errand) (a : Apply) (s : Session) : ℕ :=
  match a.place with
  | .start => 5
  | .next => 4
  | .photo path => 5 + (size e.disk path + 4 + (size e.disk path + 4))
  | .photoReply data => 5 + (data.length + 3 + pictureLeft data.length s)
  | .payload rest => 5 + (rest.length + 2 + pictureLeft 0 s)
  | .photoResult => 5 + (1 + pictureLeft 0 s)
  | .quit => 3
  | .closed => if s.phase = .done then 0 else 2
  | place =>
    match place.form with
    | some path =>
      14 + 2 * photoSize e.disk path + (sendLeft (size e.disk path) place +
        takeLeft (size e.disk path) s)
    | none => 0

/-- The steps left to take for an entry of the directory. -/
def Errand.weight (e : Errand) (name : Bytes) : ℕ :=
  2 * (size e.disk (e.path name) + photoSize e.disk (e.path name) + 10)

/-- The steps the two sides have left to take. -/
def Errand.left (e : Errand) (x : Apply × Session) : ℕ :=
  (x.1.names.map e.weight).sum + e.placeLeft x.1 x.2

/-- The rounds a submission takes at most. -/
def Errand.rounds (e : Errand) : ℕ := (e.names.map e.weight).sum + 5

/-- The client is not waiting for a reply. -/
def HasStep (a : Apply) : Prop :=
  match a.place with
  | .reply _ _ => a.wire.pending ≠ []
  | .photoReply _ => a.wire.pending ≠ []
  | .photoResult => a.wire.pending ≠ []
  | .closed => False
  | _ => True

/-- The server is not waiting for bytes, and has not ended. -/
def SessionReady (s : Session) : Prop :=
  s.phase ≠ .done ∧ (FormReady s ∨ (∃ n, s.phase = .image n) ∨
    (∃ code, s.phase = .imageReply code) ∨ ∃ i offset, s.phase = .payload 0 i offset)

/-- The side that moves has something to do, and its calls may do it. -/
def SubmitHelps (x : Apply × Session) : Client.Turn ⊕ Turn → Prop
  | .inl c => c.Ample ∧ HasStep x.1
  | .inr t => t.Ample ∧ (∃ k, t.reads.head? = some (.upTo k)) ∧ SessionReady x.2

/-- A move on a connection that holds, where no call fails, the user does not cancel, and the
client writes the blocks of a photo whole; the server takes photos, or takes none. -/
def SubmitMove (on : Bool) (x : Apply × Session) : Client.Turn ⊕ Turn → Prop
  | .inl c => c.Calm ∧ c.ok = true ∧ c.cancel = false ∧
      ∀ data, x.1.place = .payload data → data ≠ [] → WritesBlock data c
  | .inr t => t.Calm ∧ t.acceptimage = on

section Steps

variable {e : Errand} {on : Bool} {env : Env} {f g : Form} {p : Photo} {a a' : Apply}
  {s s' : Session} {w : World} {t : Turn} {c : Client.Turn} {es : List Event} {sent : List Sent}
  {cwd file : Place} {filename db key path : Bytes}

theorem size_eq {disk : Bytes → Option Bytes} {content : Bytes} (h : disk path = some content) :
    size disk path = content.length := by
  rw [size, h]
  rfl

/-- Bytes that arrive leave the client something to do. -/
theorem hasStep_receive (h : HasStep a) (bs : Bytes) (closed : Bool) :
    HasStep (a.receive bs closed) := by
  have hpending : a.wire.pending ≠ [] → (a.receive bs closed).wire.pending ≠ [] := by
    intro hne
    simpa [Apply.receive] using fun hnil => absurd hnil hne
  have hplace : (a.receive bs closed).place = a.place := rfl
  unfold HasStep at h ⊢
  rw [hplace]
  split at h
  · exact hpending h
  · exact hpending h
  · exact hpending h
  · exact h
  · trivial

/-- Two due forms of one name are one form. -/
theorem Errand.Due.same (hf : e.Due f) (hg : e.Due g) (hname : g.name = f.name) :
    g.path = f.path ∧ g.lines = f.lines := by
  have hpath : g.path = f.path := by rw [hg.path, hf.path, hname]
  have hdisk := hg.disk
  rw [hpath, hf.disk] at hdisk
  exact ⟨hpath, lines_eq_of_flatten_eq g.line f.line (Option.some.inj hdisk).symm⟩

/-- Two forms taken last are one. -/
theorem eq_of_suffixes {name other : Bytes} {names all : List Bytes} (h : name :: names <:+ all)
    (h' : other :: names <:+ all) : name = other := by
  obtain ⟨before, rfl⟩ := h
  obtain ⟨before', heq⟩ := h'
  have hsame := (List.append_inj' heq rfl).2
  exact (List.cons.inj hsame).1.symm

theorem Errand.Due.photoSize_eq (h : e.Due f) :
    photoSize e.disk f.path = size e.disk (photoOf f.lines) := by
  have hwhole : ∀ line ∈ f.lines, Lines.Whole isNewline (MAXLINE - 1) line ∧ line ≠ [] :=
    fun line hline => ⟨(f.line line hline).whole, (f.line line hline).ne_nil⟩
  simp only [photoSize, h.disk, Lines.allPieces_of_whole hwhole]

theorem placeLeft_of_form (h : a.place.form = some path) : e.placeLeft a s =
    14 + 2 * photoSize e.disk path +
      (sendLeft (size e.disk path) a.place + takeLeft (size e.disk path) s) := by
  cases hplace : a.place with
  | named path' | body path' content photo | reply path' photo =>
    obtain rfl : path' = path := by simpa [hplace, Client.ApplyPlace.form] using h
    simp only [Errand.placeLeft, hplace, Client.ApplyPlace.form]
  | _ => simp [hplace, Client.ApplyPlace.form] at h

theorem not_ofPhoto_of_form {place : Client.ApplyPlace} (h : place.form = some path) :
    ¬ place.OfPhoto := by
  cases place with
  | named path | body path content photo | reply path photo => exact id
  | _ => simp [Client.ApplyPlace.form] at h

/-- One photo has one name and one content. -/
theorem Errand.Depicts.same {q : Photo} (h : e.Depicts f p) (hq : e.Depicts g q)
    (hpath : p.path = q.path) : p.base = q.base ∧ p.data = q.data := by
  have hnamed := p.named
  rw [hpath, q.named] at hnamed
  have hdisk := h.disk
  rw [hpath, hq.disk] at hdisk
  exact ⟨(Option.some.inj hnamed).symm, (Option.some.inj hdisk).symm⟩

/-- The client goes to another place. -/
theorem past_goto {place : Client.ApplyPlace} (h : a.goto place = (a', sent)) :
    a.Past a.wire.pending a' ∧ a'.place = place ∧ sent = [] := by
  obtain ⟨rfl, rfl⟩ := Prod.mk.inj h
  exact ⟨⟨rfl, rfl, rfl, rfl, rfl⟩, rfl, rfl⟩

/-! ### A form in hand -/

/-- While the form is sent it is in hand, and as it was. -/
theorem FormStage.hand (h : FormStage f cwd filename db key ⟨a, none⟩ s w) :
    a.place.form = some f.path ∧ Attends f a := by
  have hclient : ∀ {rest}, Uploading f a rest → a.place.form = some f.path := by
    intro rest hclient
    cases hclient with
    | named _ client | body _ _ _ _ client | sent _ _ client =>
      rw [client.place]
      rfl
  cases h with
  | opening _ _ _ client attends | reading _ _ _ _ _ _ client attends | closing client attends
  | inserting client attends | replying client attends => exact ⟨hclient client, attends⟩
  | replied photo client attends =>
    refine ⟨?_, attends⟩
    rw [client.place]
    rfl
  | finished _ returned => cases returned

/-- The steps left for the form in hand are those of its transfer. -/
theorem FormStage.placeLeft_eq (hdue : e.Due f)
    (h : FormStage f cwd filename db key ⟨a, none⟩ s w) :
    e.placeLeft a s = 14 + 2 * photoSize e.disk f.path + formLeft f (⟨a, none⟩, s, w) := by
  rw [placeLeft_of_form h.hand.1, size_eq hdue.disk]
  have hclient : formClientLeft f ⟨a, none⟩ = sendLeft f.lines.flatten.length a.place := by
    cases hplace : a.place <;> simp [formClientLeft, sendLeft, hplace]
  rw [formLeft, hclient]
  rfl

/-- While the form is sent the server is ready as in the transfer of the form. -/
theorem FormStage.ready_iff (h : FormStage f cwd filename db key ⟨a, none⟩ s w) :
    SessionReady s ↔ FormReady s := by
  have hphase : s.phase = .command ∨ s.phase = .body ∨ s.phase = .close ∨ s.phase = .insert ∨
      s.phase = .reply := by
    cases h with
    | opening _ _ _ _ _ _ server | replied _ _ _ _ server => exact Or.inl server.phase
    | reading _ _ _ _ _ _ _ _ _ server => exact Or.inr (Or.inl server.phase)
    | closing _ _ _ server => simp [server.phase]
    | inserting _ _ _ server => simp [server.phase]
    | replying _ _ _ server => simp [server.phase]
    | finished _ returned => cases returned
  constructor
  · rintro ⟨-, hready | ⟨n, hn⟩ | ⟨code, hcode⟩ | ⟨i, offset, hleft⟩⟩
    · exact hready
    · simp [hn] at hphase
    · simp [hcode] at hphase
    · simp [hleft] at hphase
  · intro hready
    refine ⟨?_, Or.inl hready⟩
    intro hdone
    simp [hdone] at hphase

/-- With a reply at hand the server has stored the form. -/
theorem FormStage.answered {opts : Options} {r : Apply × List Sent} (hcalm : c.Calm)
    (h : FormStage f cwd filename db key ⟨a, none⟩ s w) (hreply : a.place.IsReply)
    (hact : a.act opts c = some r) :
    (∃ photo, a.At (.reply f.path photo) (ebuf SUCCESS)) ∧ s.At .command [] ∧
      Holding f (resolve cwd filename) (resolve cwd db) key w := by
  have hwaits : ∀ {rest}, ¬ Uploading f a rest := by
    intro rest hclient
    obtain ⟨path, photo, hplace⟩ := hreply
    cases hclient with
    | named _ client => simp [client.place] at hplace
    | body _ _ _ _ client => simp [client.place] at hplace
    | sent photo none client =>
      simp [Apply.act, client.place, Apply.readFormReply, Apply.readline_waits hcalm client] at hact
  cases h with
  | opening _ _ _ client | reading _ _ _ _ _ _ client | closing client | inserting client
  | replying client => exact absurd client hwaits
  | replied photo client _ _ server stored => exact ⟨⟨photo, client⟩, server, stored⟩
  | finished _ returned => cases returned

/-- What the server does concerns the form in hand. -/
theorem FormStage.concerns (hcalm : t.Calm) (hhouses : e.Houses s) (hdue : e.Due f)
    (hstage : FormStage f e.cwd (txtdirOf e.year e.college ++ f.name) (regdbOf e.year e.college)
      (stem f.name) ⟨a, none⟩ s w) (hact : act env s t = some (s', es)) :
    ∀ event ∈ es, e.Concerns f.name event := by
  have hquiet : (∀ event ∈ es, ¬ event.IsEffect) → ∀ event ∈ es, e.Concerns f.name event := by
    intro hnone event hmem
    have hnot := not_touches_of_not_isEffect (hnone event hmem) e.cwd
    exact ⟨fun place htouch => absurd htouch (hnot place).1,
      fun place key htouch => absurd htouch ((hnot place).2 key)⟩
  have hnamed : Names (txtdirOf e.year e.college ++ f.name) (regdbOf e.year e.college)
      (stem f.name) s → NamedBy s f.name := by
    intro names
    exact ⟨by rw [names.filename, hhouses.txtdir], names.regkey⟩
  cases hstage with
  | opening arrived rest split client attends running server =>
    have hhouses' := hhouses.step (act_cases hact)
    simp only [act, server.phase] at hact
    -- the name is only known behind the announcement
    obtain ⟨hopened, -⟩ := readCommand_names hcalm.connected
      (e.name f.name hdue.entry.mem hdue.entry.form).2.1
      hdue.entry.form server.unread hact
    cases hopened with
    | stopped stopped quiet => exact hquiet quiet
    | opened phase past named text record start events =>
      refine fun event hmem => hhouses'.concerns named ?_
      rw [events] at hmem
      simp only [List.mem_cons, List.not_mem_nil, or_false] at hmem
      rcases hmem with rfl | rfl
      · trivial
      · rfl
  | reading got todo arrived rest lines split client attends running server text record names =>
    simp only [act, server.phase] at hact
    -- the lines are held back until the stream is closed
    exact hquiet (bodyStep_keeps (readBody_step hact) (hnamed names)).2.2
  | closing client attends running server text record names =>
    simp only [act, server.phase, Option.some.injEq] at hact
    obtain ⟨errno, rfl, rfl⟩ := closeForm_cases hact
    refine fun event hmem => hhouses.concerns (hnamed names) ?_
    rw [List.mem_singleton.mp hmem]
    rfl
  | inserting client attends running server record names =>
    simp only [act, server.phase, Option.some.injEq] at hact
    obtain ⟨rfl, ⟨-, rfl⟩ | ⟨-, rfl⟩⟩ := insertForm_cases hact
    · refine fun event hmem => hhouses.concerns (hnamed names) ?_
      rw [List.mem_singleton.mp hmem]
      exact ⟨rfl, rfl⟩
    · simp
  | replying client attends running server =>
    simp only [act, server.phase] at hact
    obtain ⟨errno, buffer, ⟨sent, -, rfl⟩ | ⟨-, rfl⟩⟩ := replyForm_cases hact
    · exact hquiet (by simp [Event.IsEffect])
    · exact hquiet (by simp [Event.IsEffect])
  | replied photo client attends running server =>
    simp [act, server.phase, readCommand_nil hcalm.connected server] at hact
  | finished _ returned => cases returned

/-! ### A photo in hand -/

theorem Sending.ofPhoto {rest extra : Bytes} (h : Sending p a rest extra) : a.place.OfPhoto := by
  cases h with
  | welcome _ client | blocks client | sent _ client =>
    rw [client.place]
    trivial

theorem PhotoStage.ofPhoto (h : PhotoStage p filename file ⟨a, none⟩ s w) : a.place.OfPhoto := by
  cases h with
  | asking client | asked client =>
    have hplace : a.place = _ := client.place
    rw [hplace]
    trivial
  | opening _ _ _ client | receiving _ _ _ _ _ _ client | replying client | replied client =>
    exact client.ofPhoto
  | finished _ returned => cases returned

/-- The steps left for the photo in hand are those of its transfer. -/
theorem PhotoStage.placeLeft_eq (hdepicts : e.Depicts f p)
    (h : PhotoStage p filename file ⟨a, none⟩ s w) :
    e.placeLeft a s = 5 + photoLeft p (⟨a, none⟩, s, w) := by
  have hsize : size e.disk p.path = p.data.length := size_eq hdepicts.disk
  have hsending : ∀ {rest extra}, Sending p a rest extra →
      (s.phase = .command → unread s.tsd s.conn = []) →
      e.placeLeft a s = 5 + photoLeft p (⟨a, none⟩, s, w) := by
    intro rest extra client hcommand
    have hserver : ∀ n, pictureLeft n s = photoServerLeft p ⟨a, none⟩ s := by
      intro n
      unfold pictureLeft photoServerLeft
      cases hphase : s.phase with
      | command => simp [hcommand hphase, client.not_photo]
      | _ => rfl
    cases client with
    | welcome _ client | blocks client | sent _ client =>
      simp only [Errand.placeLeft, client.place, photoLeft, photoClientLeft, hserver]
  have hphase : ∀ {phase : Phase}, s.phase = phase → phase ≠ .command →
      (s.phase = .command → unread s.tsd s.conn = []) := by
    rintro phase rfl hne hcommand
    exact absurd hcommand hne
  cases h with
  | asking client _ _ server =>
    have hplace : a.place = _ := client.place
    simp [Errand.placeLeft, photoLeft, photoClientLeft, photoServerLeft, hplace, server.phase,
      hsize]
  | asked client _ server =>
    have hplace : a.place = _ := client.place
    have hne : unread s.tsd s.conn ≠ [] := by
      rw [server.unread, binaryLine_eq p.fits]
      simp [ascii]
    simp [Errand.placeLeft, photoLeft, photoClientLeft, photoServerLeft, pictureLeft, hplace,
      server.phase, hne]
  | opening _ _ _ client _ phase => exact hsending client (hphase phase (by simp))
  | receiving _ _ _ _ _ _ client _ phase => exact hsending client (hphase phase (by simp))
  | replying client _ phase => exact hsending client (hphase phase (by simp))
  | replied client _ phase holds =>
    exact hsending client fun _ => (at_of_holds phase holds).unread
  | finished _ returned => cases returned

/-- While the photo is sent the server is ready as in the transfer of the photo. -/
theorem PhotoStage.ready_iff (h : PhotoStage p filename file ⟨a, none⟩ s w) :
    SessionReady s ↔ PhotoReady s := by
  constructor
  · rintro ⟨-, (hunread | hphase | hphase | hphase) | ⟨n, hphase⟩ | ⟨code, hphase⟩ |
      ⟨i, offset, hphase⟩⟩
    · exact Or.inl hunread
    all_goals exact Or.inr (by simp [hphase])
  · intro hready
    refine ⟨fun hdone => ?_, ?_⟩
    · have hopen := h.serving
      simp [Session.closed, hdone] at hopen
    · rcases hready with hunread | ⟨hcommand, hnone⟩
      · exact Or.inl (Or.inl hunread)
      · cases h with
        | asking _ _ _ server | asked _ _ server => exact absurd server.phase hcommand
        | replied _ _ phase | finished _ _ phase => exact absurd phase hcommand
        | opening _ _ _ _ _ phase => exact Or.inr (Or.inl ⟨_, phase⟩)
        | receiving _ _ _ nleft i _ _ _ phase =>
          obtain rfl := hnone _ _ _ phase
          exact Or.inr (Or.inr (Or.inr ⟨_, _, phase⟩))
        | replying _ _ phase => exact Or.inr (Or.inr (Or.inl ⟨_, phase⟩))

/-- What the server does concerns the photo in hand. -/
theorem PhotoStage.portrays (hcalm : t.Calm) (hdepicts : e.Depicts f p)
    (hfile : resolve e.cwd filename = e.file p.base)
    (h : PhotoStage p filename (e.file p.base) ⟨a, none⟩ s w)
    (hact : act env s t = some (s', es)) : ∀ event ∈ es, e.Portrays f event := by
  have hquiet : (∀ event ∈ es, ¬ event.IsEffect) → ∀ event ∈ es, e.Portrays f event := by
    intro hnone event hmem
    have hnot := not_touches_of_not_isEffect (hnone event hmem) e.cwd
    exact ⟨p, hdepicts, fun place htouch => absurd htouch (hnot place).1,
      fun place => (hnot place).2⟩
  cases h with
  | asking _ _ _ server => simp [act, server.phase, readCommand_nil hcalm.connected server] at hact
  | asked _ _ server =>
    simp only [act, server.phase] at hact
    refine hquiet (readCommand_offered hcalm.connected (by rw [server.unread, List.append_nil])
      (whole_binaryLine p.fits p.name) (by simp [binaryLine]) ?_ hact).1
    simp only [binaryLine, List.append_assoc]
    exact List.prefix_append _ _
  | opening _ _ _ _ _ phase _ named =>
    simp only [act, phase, Option.some.injEq] at hact
    rcases openImage_cases hact with ⟨-, -, rfl⟩ | ⟨-, -, rfl⟩
    · intro event hmem
      obtain rfl := List.mem_singleton.mp hmem
      refine ⟨p, hdepicts, fun place htouch => htouch.symm.trans ?_, fun place key htouch => htouch⟩
      rw [named, hfile]
    · exact hquiet (by simp)
  | receiving _ _ _ _ _ _ _ _ phase _ _ _ named =>
    simp only [act, phase] at hact
    have hwrite : ∀ {offset data}, ∀ event ∈ [Event.writeAt s.filename offset data],
        e.Portrays f event := by
      intro offset data event hmem
      obtain rfl := List.mem_singleton.mp hmem
      refine ⟨p, hdepicts, fun place htouch => htouch.symm.trans ?_, fun place key htouch => htouch⟩
      rw [named, hfile]
    cases readPayload_step hact with
    | finished | interrupted | error | eof => exact hquiet (by simp)
    | chunk | short => exact hwrite
  | replying _ _ phase =>
    simp only [act, phase] at hact
    obtain ⟨errno, sent, -, rfl⟩ := replyImage_cases hact
    exact hquiet (by simp [Event.IsEffect])
  | replied _ _ phase holds =>
    simp [act, phase, readCommand_nil hcalm.connected (at_of_holds phase holds)] at hact
  | finished _ returned => cases returned

end Steps

end Esif.System
