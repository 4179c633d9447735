import Esif.Server.Record
import Esif.Server.Whole
import Esif.System.Modes

/-!
# What a submission is for

The forms of a directory are to lie in the stores of the college, each under its name,
before the client marks them as sent.

## Main definitions

* `Errand` — the directory when the submission begins, and the stores
* `Errand.Held` — the stores hold a form
* `Errand.Honours` — a form is marked, and held
* `Errand.Books` — what has changed is a form that is marked and held
* `Errand.Spares` — what the server does touches no form that is marked

## Main results

* `Errand.file_injective`, `stem_injective` — two forms have two places in either store
* `Errand.Books.server`, `Errand.Books.quiet` — the steps that mark nothing
* `Errand.Books.mark` — the step that marks a form that is held
-/

namespace Esif.System

open Esif.CS Esif.Posix Esif.Server
open Esif.Client (Apply Options Sent)
open Esif.Client.Apply (IsSent skipped)

/-- The directory as it is when its submission begins, and the stores it is submitted to. Of the
entries that are looked at, each is the name of a file, and fits `tmpname`; the others, `.` and
`..` among them, may be anything. -/
structure Errand where
  opts : Options
  names : List Bytes
  disk : Bytes → Option Bytes
  cwd : Place
  year : ℤ
  college : ℤ
  nodup : names.Nodup
  name : ∀ name ∈ names, skipped name = false →
    IsName name ∧ IsText name ∧ name.length < MAXFILENAME

namespace Errand

/-- The path of an entry of the directory. -/
def path (e : Errand) (name : Bytes) : Bytes := e.opts.infodirname ++ name

/-- Where the text of a form lies. -/
def file (e : Errand) (name : Bytes) : Place := resolve e.cwd (txtdirOf e.year e.college ++ name)

/-- Where the database of the college lies. -/
def db (e : Errand) : Place := resolve e.cwd (regdbOf e.year e.college)

/-- The entry is looked at by `apply_forms`. -/
structure Entry (e : Errand) (name : Bytes) : Prop where
  mem : name ∈ e.names
  form : skipped name = false

/-- The stores hold the form, and the record is that of its lines. -/
def Held (e : Errand) (w : World) (name content : Bytes) : Prop :=
  ∃ lines record, content = lines.flatten ∧ (∀ line ∈ lines, BodyLine line) ∧
    RecordOf lines record ∧ w.file (e.file name) = some content ∧
    w.record e.db (stem name) = some record

/-- The file of the form is as it was up to the mark that `apply_form` sets in it, and the stores
hold the form. -/
structure Honours (e : Errand) (now : Bytes → Option Bytes) (w : World) (name content : Bytes) :
    Prop where
  entry : e.Entry name
  disk : e.disk (e.path name) = some content
  marked : ∃ garbage marked, Client.markSent content garbage = .ok marked ∧
    now (e.path name) = some marked
  held : e.Held w name content

/-- What has changed are forms, marked and held. -/
def Keeps (e : Errand) (disk : Bytes → Option Bytes) (w : World) : Prop :=
  ∀ path, disk path ≠ e.disk path →
    ∃ name content, path = e.path name ∧ e.Honours disk w name content

/-- What has changed is marked and held. The entries still to come are as they were, or marked
before. -/
structure Books (e : Errand) (a : Apply) (w : World) : Prop where
  names : a.names <:+ e.names
  rest : ∀ name ∈ a.names, a.disk (e.path name) = e.disk (e.path name) ∨
    ∃ content, a.disk (e.path name) = some content ∧ IsSent content
  kept : e.Keeps a.disk w

/-- The events touch no form that is marked. -/
def Spares (e : Errand) (a : Apply) (es : List Event) : Prop :=
  ∀ event ∈ es, ∀ name, e.Entry name → a.disk (e.path name) ≠ e.disk (e.path name) →
    ¬ event.TouchesFile e.cwd (e.file name) ∧ ¬ event.TouchesRecord e.cwd e.db (stem name)

/-- The event touches at most the form of that name. -/
def Concerns (e : Errand) (name : Bytes) (event : Event) : Prop :=
  (∀ place, event.TouchesFile e.cwd place → place = e.file name) ∧
    ∀ place key, event.TouchesRecord e.cwd place key → place = e.db ∧ key = stem name

/-- The session works on the stores of the errand. -/
structure Houses (e : Errand) (s : Session) : Prop where
  serving : s.phase.Serving
  txtdir : s.txtdir = txtdirOf e.year e.college
  regdb : s.regdb = regdbOf e.year e.college

end Errand

section Names

variable {e : Errand} {name other : Bytes}

theorem Errand.file_eq (h : e.Entry name) :
    e.file name = e.cwd ++ collegeDir e.year e.college ++ [name] := by
  rw [Errand.file, resolve_txtdirOf, components_of_isName (e.name name h.mem h.form).1]
  rfl

/-- Two forms lie in two files. -/
theorem Errand.file_injective (hname : e.Entry name) (hother : e.Entry other)
    (h : e.file name = e.file other) : name = other := by
  rw [e.file_eq hname, e.file_eq hother] at h
  simpa using h

theorem Errand.path_injective (h : e.path name = e.path other) : name = other :=
  List.append_cancel_left h

/-- A form is announced under a name with its ending. -/
theorem eq_stem_append (h : skipped name = false) : name = stem name ++ ascii ".txt" := by
  have hend : name.drop (name.length - 4) = ascii ".txt" := by
    simp only [skipped, Bool.or_eq_false_iff] at h
    simpa using h.2
  rw [stem, ← hend, List.take_append_drop]

/-- Two forms have two keys. -/
theorem stem_injective (hname : skipped name = false) (hother : skipped other = false)
    (h : stem name = stem other) : name = other := by
  rw [eq_stem_append hname, h, ← eq_stem_append hother]

end Names

section Books

variable {e : Errand} {a a' : Apply} {s s' : Session} {w : World} {es : List Event}
  {name content : Bytes}

/-- What concerns an entry that is not marked touches no form that is. -/
theorem Errand.Spares.of_concerns (hentry : e.Entry name)
    (hunmarked : a.disk (e.path name) = e.disk (e.path name))
    (h : ∀ event ∈ es, e.Concerns name event) : e.Spares a es := by
  intro event hmem other hother hmarked
  have hne : other ≠ name := by
    rintro rfl
    exact hmarked hunmarked
  obtain ⟨hfile, hrecord⟩ := h event hmem
  constructor
  · intro htouch
    exact hne (Errand.file_injective hother hentry (hfile _ htouch))
  · intro htouch
    exact hne (stem_injective hother.form hentry.form (hrecord _ _ htouch).2)

theorem Errand.Held.congr {w' : World} (h : e.Held w name content)
    (hfile : w'.file (e.file name) = w.file (e.file name))
    (hrecord : w'.record e.db (stem name) = w.record e.db (stem name)) :
    e.Held w' name content := by
  obtain ⟨lines, record, hlines, hbody, hrec, htext, hdata⟩ := h
  exact ⟨lines, record, hlines, hbody, hrec, hfile.trans htext, hrecord.trans hdata⟩

theorem Errand.Held.keep (h : e.Held w name content)
    (hfile : ∀ event ∈ es, ¬ event.TouchesFile e.cwd (e.file name))
    (hrecord : ∀ event ∈ es, ¬ event.TouchesRecord e.cwd e.db (stem name)) :
    e.Held (w.after e.cwd es) name content :=
  h.congr (World.after_file_of_forall hfile w) (World.after_record_of_forall hrecord w)

theorem Errand.Keeps.after {disk : Bytes → Option Bytes} {events : List Event} (h : e.Keeps disk w)
    (hfree : ∀ event ∈ events, ∀ name, e.Entry name → disk (e.path name) ≠ e.disk (e.path name) →
      ¬ event.TouchesFile e.cwd (e.file name) ∧ ¬ event.TouchesRecord e.cwd e.db (stem name)) :
    e.Keeps disk (w.after e.cwd events) := by
  intro path hmarked
  obtain ⟨name, content, rfl, hform⟩ := h path hmarked
  have hnone := fun event hmem => hfree event hmem name hform.entry hmarked
  exact ⟨name, content, rfl, hform.entry, hform.disk, hform.marked,
    hform.held.keep (fun event hmem => (hnone event hmem).1) fun event hmem => (hnone event hmem).2⟩

/-- The server does not touch what is marked. -/
theorem Errand.Books.server (h : e.Books a w) (hspares : e.Spares a es) (bs : Bytes)
    (closed : Bool) : e.Books (a.receive bs closed) (w.after e.cwd es) :=
  ⟨h.names, h.rest, h.kept.after hspares⟩

/-- The client marks nothing. -/
theorem Errand.Books.quiet (h : e.Books a w) (hdisk : a'.disk = a.disk)
    (hnames : a'.names <:+ a.names) : e.Books a' w := by
  refine ⟨hnames.trans h.names, fun name hname => ?_, ?_⟩
  · rw [hdisk]
    exact h.rest name (hnames.subset hname)
  · rw [hdisk]
    exact h.kept

/-- The client marks a form that is held, and that the directory does not return again. -/
theorem Errand.Books.mark {garbage marked : Bytes} (h : e.Books a w)
    (hnames : name :: a.names <:+ e.names)
    (hform : skipped name = false) (hcontent : e.disk (e.path name) = some content)
    (hheld : e.Held w name content) (hmark : Client.markSent content garbage = .ok marked)
    (hdisk : a'.disk = Function.update a.disk (e.path name) (some marked))
    (hsame : a'.names = a.names) : e.Books a' w := by
  have hmem : name ∈ e.names := hnames.subset List.mem_cons_self
  have hfresh : name ∉ a.names := (List.nodup_cons.mp (hnames.sublist.nodup e.nodup)).1
  refine ⟨hsame ▸ h.names, fun other hother => ?_, fun path hmarked => ?_⟩
  · rw [hsame] at hother
    have hne : e.path other ≠ e.path name := by
      intro heq
      exact hfresh (Errand.path_injective heq ▸ hother)
    rw [hdisk, Function.update_of_ne hne]
    exact h.rest other hother
  · by_cases hpath : path = e.path name
    · subst hpath
      refine ⟨name, content, rfl, ⟨hmem, hform⟩, hcontent, ⟨garbage, marked, hmark, ?_⟩, hheld⟩
      rw [hdisk, Function.update_self]
    · rw [hdisk, Function.update_of_ne hpath] at hmarked
      obtain ⟨other, content', rfl, hother⟩ := h.kept path hmarked
      refine ⟨other, content', rfl, hother.entry, hother.disk, ?_, hother.held⟩
      rw [hdisk, Function.update_of_ne hpath]
      exact hother.marked

/-- A session keeps its stores. -/
theorem Errand.Houses.step {env : Env} {t : Turn} (h : e.Houses s) (hact : Acted env s t s' es) :
    e.Houses s' := by
  have hk := hact.keeps h.serving
  exact ⟨hact.next.serving h.serving, hk.txtdir.trans h.txtdir, hk.regdb.trans h.regdb⟩

end Books

end Esif.System
