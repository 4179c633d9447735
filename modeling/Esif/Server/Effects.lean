import Esif.Server.Step

/-!
# The effects of a serving session

Once the stores are open, a session acts only on files named by its directory
followed by a name it scanned, and only on its own database.

## Main definitions

* `Event.IsEffect` — an event that acts on a directory, a file or a database
* `Event.Within` — an event confined to a directory and a database
* `NamesMeet` — a step scans only names with a given property

## Main results

* `Acted.within` — one step keeps to the directory and the database
-/

namespace Esif.Server

open Esif.Posix

/-- The event acts on a directory, a file or a database. -/
def Event.IsEffect : Event → Prop
  | .mkdir _ => True
  | .openDb _ => True
  | .openTrunc _ => True
  | .writeAt _ _ _ => True
  | .put _ _ _ => True
  | _ => False

/-- The event creates, truncates or writes a file, or inserts a record. -/
def Event.IsStore : Event → Prop
  | .openTrunc _ => True
  | .writeAt _ _ _ => True
  | .put _ _ _ => True
  | _ => False

theorem Event.IsStore.isEffect {e : Event} (h : e.IsStore) : e.IsEffect := by
  cases e <;> trivial

theorem Event.IsReply.not_isEffect {e : Event} (h : e.IsReply) : ¬ e.IsEffect := by
  obtain ⟨data, rfl⟩ := h
  exact id

/-- The event acts at most on files named by `txtdir` and a name with property
`P`, and on records of `regdb`. -/
def Event.Within (txtdir regdb : Bytes) (P : Bytes → Prop) : Event → Prop
  | .mkdir _ => False
  | .openDb _ => False
  | .openTrunc path => ∃ name, P name ∧ path = txtdir ++ name
  | .writeAt path _ _ => ∃ name, P name ∧ path = txtdir ++ name
  | .put db _ _ => db = regdb
  | _ => True

/-- At this place the session has a file in hand. -/
def Phase.HasFile : Phase → Prop
  | .image _ => True
  | .payload _ _ _ => True
  | .body => True
  | .close => True
  | .abandon _ => True
  | _ => False

/-- A file in hand is named by `txtdir` and a name with property `P`. -/
def Session.Placed (P : Bytes → Prop) (s : Session) : Prop :=
  s.phase.HasFile → ∃ name, P name ∧ s.filename = s.txtdir ++ name

/-- The name in the next command line has property `P`, if there is such a line and the server
goes on to open the file. Nothing looks at the length of the name before that. -/
def NamesMeet (P : Bytes → Prop) (s : Session) (t : Turn) : Prop :=
  s.phase = .command → ∀ ret line m, s.readline t.reads = some (ret, line, m) →
    (∀ name, (scanBinary (cstr (line.drop 7))).2 = name → ascii "BINARY " <+: line →
      t.acceptimage = true → name ≠ [] → P name) ∧
    (∀ name, scanFilename (cstr (line.drop 9)) s.tmpname = name → ascii "FILENAME " <+: line →
      t.ok = true → P name)

instance NamesMeet.decidable {P : Bytes → Prop} [DecidablePred P] (s : Session) (t : Turn) :
    Decidable (NamesMeet P s t) :=
  match h : s.readline t.reads with
  | none => isTrue fun _ ret line m hread => by simp [h] at hread
  | some (ret, line, m) =>
    let photo := (scanBinary (cstr (line.drop 7))).2
    let form := scanFilename (cstr (line.drop 9)) s.tmpname
    decidable_of_iff (s.phase = .command →
      (ascii "BINARY " <+: line → t.acceptimage = true → photo ≠ [] → P photo) ∧
      (ascii "FILENAME " <+: line → t.ok = true → P form)) <| by
      simp [NamesMeet, h, photo, form]

section

variable {env : Env} {s s' : Session} {t : Turn} {es : List Event} {P : Bytes → Prop}

theorem readline_wait (s : Session) (t : Turn) (reads : List Outcome) :
    (s.wait t).readline reads =
      (s.readline reads).map fun (ret, line, m) => (ret, line, m.wait t) := by
  simp [Session.readline, Session.wait, Function.comp_def]

theorem NamesMeet.wait (h : NamesMeet P s t) : NamesMeet P (s.wait t) t := by
  intro hphase ret line m hread
  rw [readline_wait] at hread
  obtain ⟨⟨ret', line', m'⟩, hread', heq⟩ := Option.map_eq_some_iff.mp hread
  obtain ⟨rfl, rfl, -⟩ : ret' = ret ∧ line' = line ∧ _ = m := by simpa using heq
  exact h hphase ret' line' m' hread'

theorem Keeps.within (h : Keeps s s') {e : Event} :
    e.Within s'.txtdir s'.regdb P ↔ e.Within s.txtdir s.regdb P := by
  rw [h.txtdir, h.regdb]

/-- A command step takes a file in hand only under a name it scanned. -/
theorem CommandStep.within (hphase : s.phase = .command) (hnames : NamesMeet P s t)
    (h : CommandStep s t s' es) :
    s'.Placed P ∧ s'.phase.Serving ∧ ∀ e ∈ es, e.Within s.txtdir s.regdb P := by
  cases h with
  | leave hread hes =>
    refine ⟨fun h => h.elim, trivial, ?_⟩
    rcases hes with rfl | ⟨-, rfl⟩ <;> simp [Event.Within]
  | refused hread | unnamed hread | overlong hread | misnamed hread | closed hread =>
    exact ⟨fun h => h.elim, trivial, by simp [Event.Within]⟩
  | image hread hret hword hon hscan hname hlen =>
    have hP := (hnames hphase _ _ _ hread).1 _ (by rw [hscan]) hword hon hname
    exact ⟨fun _ => ⟨_, hP, rfl⟩, trivial, by simp [Event.Within]⟩
  | form hread hret hword hscan hlen hok =>
    have hkeep := (Session.readline_cases hread).keep
    rw [hkeep] at hscan ⊢
    have hP := (hnames hphase _ _ _ hread).2 _ hscan hword hok
    refine ⟨fun _ => ⟨_, hP, rfl⟩, trivial, ?_⟩
    simpa [Event.Within] using hP

/-- One step of a serving session keeps to its directory and its database. -/
theorem Acted.within (hserving : s.phase.Serving) (hplaced : s.Placed P)
    (hnames : NamesMeet P s t) (h : Acted env s t s' es) :
    s'.Placed P ∧ s'.phase.Serving ∧ ∀ e ∈ es, e.Within s.txtdir s.regdb P := by
  cases h with
  | magic hphase | user hphase | pass hphase | setup hphase =>
    simp [hphase, Phase.Serving] at hserving
  | command hphase hstep => exact hstep.within hphase hnames
  -- the file in hand was named before, and its name has the property
  | image hphase hstep =>
    have hfile := hplaced (by rw [hphase]; trivial)
    rcases openImage_cases hstep with ⟨-, rfl, rfl⟩ | ⟨-, rfl, rfl⟩
    · exact ⟨fun _ => hfile, trivial, by simpa [Event.Within] using hfile⟩
    · exact ⟨fun h => h.elim, trivial, by simp⟩
  | payload hphase hstep =>
    have hfile := hplaced (by rw [hphase]; trivial)
    cases hstep with
    | finished | error | eof => exact ⟨fun h => h.elim, trivial, by simp⟩
    | interrupted => exact ⟨fun _ => hfile, trivial, by simp⟩
    | chunk => exact ⟨fun _ => hfile, trivial, by simpa [Event.Within] using hfile⟩
    | short => exact ⟨fun h => h.elim, trivial, by simpa [Event.Within] using hfile⟩
  | imageReply _ hstep =>
    obtain ⟨errno, sent, rfl, rfl⟩ := replyImage_cases hstep
    exact ⟨fun h => h.elim, trivial, by simp [Event.Within]⟩
  | body hphase hstep =>
    have hfile := hplaced (by rw [hphase]; trivial)
    cases hstep with
    | cut hread | dot hread | quit hread | failed hread | line hread =>
      rw [(Session.readline_cases hread).keep]
      exact ⟨fun _ => hfile, by simp [hphase, Phase.Serving], by simp [Event.Within]⟩
    | full hread | overlong hread => exact ⟨fun h => h.elim, trivial, by simp [Event.Within]⟩
  | close hphase hstep =>
    have hfile := hplaced (by rw [hphase]; trivial)
    obtain ⟨errno, rfl, rfl⟩ := closeForm_cases hstep
    exact ⟨fun h => h.elim, trivial, by simpa [Event.Within] using hfile⟩
  | insert _ hstep =>
    obtain ⟨rfl, ⟨-, rfl⟩ | ⟨-, rfl⟩⟩ := insertForm_cases hstep
    · exact ⟨fun h => h.elim, trivial, by simp [Event.Within]⟩
    · exact ⟨fun h => h.elim, trivial, by simp⟩
  | reply _ hstep =>
    obtain ⟨errno, buffer, ⟨sent, rfl, rfl⟩ | ⟨rfl, rfl⟩⟩ := replyForm_cases hstep <;>
      exact ⟨fun h => h.elim, trivial, by simp [Event.Within]⟩
  -- leaving or returning to the loop, the file is out of hand
  | @abandon leave hphase hstep =>
    have hfile := hplaced (by rw [hphase]; trivial)
    obtain ⟨errno, rfl, rfl⟩ := abandonForm_cases hstep
    refine ⟨fun h => ?_, ?_, by simpa [Event.Within] using hfile⟩ <;> cases leave
    · exact h.elim
    · exact h.elim
    · trivial
    · trivial

end

end Esif.Server
