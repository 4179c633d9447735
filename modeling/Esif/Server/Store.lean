import Mathlib.Logic.Function.Basic
import Esif.Posix.Bytes

/-!
# The server's stores and what a session does to them

A session acts on the world by events: the file, directory and database calls
of `manage_client` and the bytes its replies hand to the socket. Further events
record how the session took its input apart; they change nothing and no code
reads them.

The world maps resolved paths to file contents and, for the registration
databases, resolved paths and keys to records. A stream that was opened writes
to the file it opened, wherever others have moved its end meanwhile.

## Main definitions

* `Event` — one action of a session
* `World`, `World.apply`, `World.after` — the stores and the effect of events
* `resolve` — the file a path names

## Main results

* `World.after_file_of_forall`, `World.after_record_of_forall` — events that do
  not touch a file or a record leave it as it was
* `World.after_file_filter`, `World.after_record_filter` — the events that do
  decide what becomes of it
-/

namespace Esif.Server

open Esif.Posix Esif.CS

/-- One action of a session. -/
inductive Event where
  /-- `mkdir(path, DIRMODE)` -/
  | mkdir (path : Bytes)
  /-- A successful `DB->open` with `DB_CREATE`. -/
  | openDb (path : Bytes)
  /-- A successful `fopen(path, "w")` or `open(path, O_WRONLY|O_CREAT|O_TRUNC)`. -/
  | openTrunc (path : Bytes)
  /-- Bytes written at an offset of the stream opened on `path`. -/
  | writeAt (path : Bytes) (offset : ℕ) (data : Bytes)
  /-- A `DB->put` that stores. -/
  | put (db key data : Bytes)
  /-- Bytes of a reply the socket accepted. -/
  | send (data : Bytes)
  /-- The command loop takes a line as a command. -/
  | command (start : ℕ) (line : Bytes)
  /-- The payload of a `BINARY` line that was answered by `500`. -/
  | payload (start size : ℕ)
  /-- The body loop takes a line. -/
  | bodyLine (start : ℕ) (line : Bytes)
  /-- The body loop goes on to something else after a line. -/
  | bodyEnd (stop : ℕ)
  deriving DecidableEq, Repr

/-- A resolved path: the names from the root down. -/
abbrev Place := List Bytes

/-- The file or directory a path names, for a process working in `cwd`. -/
def resolve (cwd : Place) (path : Bytes) : Place := Path.walk cwd (components path)

/-- The text files and the records of the registration databases. -/
structure World where
  file : Place → Option Bytes
  record : Place → Bytes → Option Bytes

/-- The world before any upload. -/
def World.empty : World := ⟨fun _ => none, fun _ _ => none⟩

/-- A file after `data` was written at `offset`; a gap before it reads as
zeros. -/
def overwrite (old : Bytes) (offset : ℕ) (data : Bytes) : Bytes :=
  old.take offset ++ List.replicate (offset - old.length) 0 ++ data ++
    old.drop (offset + data.length)

@[simp] theorem overwrite_nil_zero (data : Bytes) : overwrite [] 0 data = data := by
  simp [overwrite]

/-- What one event does to the world. -/
def World.apply (cwd : Place) (w : World) : Event → World
  | .openTrunc path =>
    let place := resolve cwd path
    { w with file := Function.update w.file place (some []) }
  | .writeAt path offset data =>
    let place := resolve cwd path
    let written := overwrite ((w.file place).getD []) offset data
    { w with file := Function.update w.file place (some written) }
  | .put db key data =>
    let place := resolve cwd db
    let records := Function.update (w.record place) key (some data)
    { w with record := Function.update w.record place records }
  | _ => w

/-- The world after a list of events. -/
def World.after (cwd : Place) (w : World) (es : List Event) : World := es.foldl (World.apply cwd) w

@[simp] theorem World.after_nil (cwd : Place) (w : World) : w.after cwd [] = w := rfl

@[simp] theorem World.after_cons (cwd : Place) (w : World) (e : Event) (es : List Event) :
    w.after cwd (e :: es) = (w.apply cwd e).after cwd es := rfl

theorem World.after_append (cwd : Place) (w : World) (es es' : List Event) :
    w.after cwd (es ++ es') = (w.after cwd es).after cwd es' := List.foldl_append

/-! ### What an event leaves alone -/

/-- The event creates, truncates or writes the file. -/
def Event.TouchesFile (cwd place : Place) : Event → Prop
  | .openTrunc path => resolve cwd path = place
  | .writeAt path _ _ => resolve cwd path = place
  | _ => False

/-- The event stores a record under the key. -/
def Event.TouchesRecord (cwd place : Place) (key : Bytes) : Event → Prop
  | .put db key' _ => resolve cwd db = place ∧ key' = key
  | _ => False

theorem World.apply_file_of_not_touches {cwd place : Place} {w : World} {e : Event}
    (h : ¬ e.TouchesFile cwd place) : (w.apply cwd e).file place = w.file place := by
  cases e with
  | openTrunc path => exact Function.update_of_ne (Ne.symm h) _ _
  | writeAt path offset data => exact Function.update_of_ne (Ne.symm h) _ _
  | _ => rfl

theorem World.apply_record_of_not_touches {cwd place : Place} {key : Bytes} {w : World}
    {e : Event} (h : ¬ e.TouchesRecord cwd place key) :
    (w.apply cwd e).record place key = w.record place key := by
  cases e with
  | put db key' data =>
    simp only [Event.TouchesRecord, not_and] at h
    simp only [World.apply, Function.update_apply]
    by_cases hdb : resolve cwd db = place
    · have hkey : key ≠ key' := fun heq => h hdb heq.symm
      simp [hdb, hkey]
    · simp [Ne.symm hdb]
  | _ => rfl

/-- Events that do not touch a file leave it as it was. -/
theorem World.after_file_of_forall {cwd place : Place} {es : List Event}
    (h : ∀ e ∈ es, ¬ e.TouchesFile cwd place) (w : World) :
    (w.after cwd es).file place = w.file place := by
  induction es generalizing w with
  | nil => rfl
  | cons e es ih =>
    rw [World.after_cons, ih (fun e' he' => h e' (by simp [he'])),
      World.apply_file_of_not_touches (h e (by simp))]

/-- Events that do not store under a key leave its record as it was. -/
theorem World.after_record_of_forall {cwd place : Place} {key : Bytes} {es : List Event}
    (h : ∀ e ∈ es, ¬ e.TouchesRecord cwd place key) (w : World) :
    (w.after cwd es).record place key = w.record place key := by
  induction es generalizing w with
  | nil => rfl
  | cons e es ih =>
    rw [World.after_cons, ih (fun e' he' => h e' (by simp [he'])),
      World.apply_record_of_not_touches (h e (by simp))]

instance (cwd place : Place) : (e : Event) → Decidable (e.TouchesFile cwd place)
  | .openTrunc path => inferInstanceAs (Decidable (resolve cwd path = place))
  | .writeAt path _ _ => inferInstanceAs (Decidable (resolve cwd path = place))
  | .mkdir _ | .openDb _ | .put _ _ _ | .send _ | .command _ _ | .payload _ _ | .bodyLine _ _
  | .bodyEnd _ => isFalse id

instance (cwd place : Place) (key : Bytes) : (e : Event) → Decidable (e.TouchesRecord cwd place key)
  | .put db key' _ => inferInstanceAs (Decidable (resolve cwd db = place ∧ key' = key))
  | .mkdir _ | .openDb _ | .openTrunc _ | .writeAt _ _ _ | .send _ | .command _ _ | .payload _ _
  | .bodyLine _ _ | .bodyEnd _ => isFalse id

/-- What becomes of a file depends on that file alone. -/
theorem World.after_file_congr {cwd place : Place} {w w' : World}
    (h : w.file place = w'.file place) (es : List Event) :
    (w.after cwd es).file place = (w'.after cwd es).file place := by
  induction es generalizing w w' with
  | nil => exact h
  | cons e es ih =>
    refine ih ?_
    by_cases htouch : e.TouchesFile cwd place
    · cases e with
      | openTrunc path =>
        obtain rfl : resolve cwd path = place := htouch
        simp [World.apply]
      | writeAt path offset data =>
        obtain rfl : resolve cwd path = place := htouch
        simp [World.apply, h]
      | _ => exact htouch.elim
    · rw [World.apply_file_of_not_touches htouch, World.apply_file_of_not_touches htouch, h]

/-- The events that touch a file decide what becomes of it. -/
theorem World.after_file_filter (cwd place : Place) (es : List Event) (w : World) :
    (w.after cwd (es.filter (·.TouchesFile cwd place))).file place =
      (w.after cwd es).file place := by
  induction es generalizing w with
  | nil => rfl
  | cons e es ih =>
    by_cases htouch : e.TouchesFile cwd place
    · rw [List.filter_cons_of_pos (by simpa using htouch), World.after_cons, World.after_cons, ih]
    · rw [List.filter_cons_of_neg (by simpa using htouch), World.after_cons, ih]
      exact World.after_file_congr (World.apply_file_of_not_touches htouch).symm es

/-- What becomes of a record depends on that record alone. -/
theorem World.after_record_congr {cwd place : Place} {key : Bytes} {w w' : World}
    (h : w.record place key = w'.record place key) (es : List Event) :
    (w.after cwd es).record place key = (w'.after cwd es).record place key := by
  induction es generalizing w w' with
  | nil => exact h
  | cons e es ih =>
    refine ih ?_
    by_cases htouch : e.TouchesRecord cwd place key
    · cases e with
      | put db key' data =>
        obtain ⟨rfl, rfl⟩ : resolve cwd db = place ∧ key' = key := htouch
        simp [World.apply]
      | _ => exact htouch.elim
    · rw [World.apply_record_of_not_touches htouch, World.apply_record_of_not_touches htouch, h]

/-- The events that store under a key decide what becomes of its record. -/
theorem World.after_record_filter (cwd place : Place) (key : Bytes) (es : List Event) (w : World) :
    (w.after cwd (es.filter (·.TouchesRecord cwd place key))).record place key =
      (w.after cwd es).record place key := by
  induction es generalizing w with
  | nil => rfl
  | cons e es ih =>
    by_cases htouch : e.TouchesRecord cwd place key
    · rw [List.filter_cons_of_pos (by simpa using htouch), World.after_cons, World.after_cons, ih]
    · rw [List.filter_cons_of_neg (by simpa using htouch), World.after_cons, ih]
      exact World.after_record_congr (World.apply_record_of_not_touches htouch).symm es

end Esif.Server
