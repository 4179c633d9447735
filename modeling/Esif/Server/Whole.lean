import Esif.Server.Names
import Esif.Server.Process
import Esif.Server.Serve
import Esif.Server.Upload

/-!
# Whole records

Threads may mix the text of two forms in one file, but not in one record: a
record is put by one call, with what one session has collected since it opened
the file. So however many sessions upload, whatever becomes of them and whichever
calls fail, each record in a database was built from all the lines of one form,
which was received up to its last line. A process that takes no photos has no
other use for files: it creates those of forms, and writes the text of forms.

## Main definitions

* `Brought` — the events of a form that was received whole, up to its text
* `FormCall` — a call on the stores, and the form it belongs to
* `Puts` — the invariant of a session

## Main results

* `puts_step` — one step of a session keeps the invariant
* `record_of_after` — a record is the one that was put last
* `records_whole` — every record of every run comes whole from one form
* `photos_refused` — without the option there are only forms
-/

namespace Esif.Server

open Esif.CS Esif.Posix

/-- The events end with a form of this name that was received up to its last line and whose text
was written, as far as `fclose` did; its lines build this record. -/
def Brought (es : List Event) (dir name data : Bytes) (lines : List Bytes) : Prop :=
  RecordOf lines data ∧ ∃ start stop t, FormTaken es dir name lines
    [.bodyLine start (ascii ".\n"), .bodyEnd stop,
      .writeAt (dir ++ name) 0 (flushed (textOf lines) t)]

/-- What a call on the stores is to the events before it. A file is created behind the line that
names it. What is written is the text of a form, from the start of its file, right behind the form.
What is put is the record of a form brought whole, under the key of its name. -/
def FormCall (dir : Bytes) (before : List Event) : Event → Prop
  | .openTrunc path => ∃ es start line old, before = es ++ [.command start line] ∧
      ascii "FILENAME " <+: line ∧ path = dir ++ scanFilename (cstr (line.drop 9)) old
  | .writeAt path offset data => ∃ name lines tail t, FormTail tail ∧
      FormTaken before dir name lines tail ∧ path = dir ++ name ∧ offset = 0 ∧
      data = flushed (textOf lines) t
  | .put _ key data => ∃ name lines, key = stem name ∧ Brought before dir name data lines
  | _ => True

/-- The session has no photo in hand. -/
def Phase.NoPhoto : Phase → Prop
  | .image _ => False
  | .payload _ _ _ => False
  | _ => True

/-- The calls on the stores are those of forms, or of photos where there may be `photos`; records
go to the database of the college. -/
def Rightful (photos : Prop) (dir regdb : Bytes) (before : List Event) : Event → Prop
  | .put db key data => db = regdb ∧ FormCall dir before (.put db key data)
  | e => photos ∨ FormCall dir before e

/-- Nothing was stored yet, or the stores of the college are open and all that was stored was
rightful. -/
def AllRightful (photos : Prop) (s : Session) (es : List Event) : Prop :=
  (s.phase.Outside ∧ ∀ e ∈ es, ¬ e.IsEffect) ∨
  (s.phase.Serving ∧ ∃ session, InStores (fun _ => True) session s ∧
    Throughout (Rightful photos s.txtdir s.regdb) es)

/-- In a form the session has collected what it has read, and all it has stored is rightful. -/
structure Puts (photos : Prop) (s : Session) (es : List Event) : Prop where
  receiving : Receiving s es
  photo : photos ∨ s.phase.NoPhoto
  stored : AllRightful photos s es

section

variable {env : Env} {s s' : Session} {t : Turn} {es es₀ : List Event} {photos : Prop}
  {dir regdb : Bytes}

theorem Rightful.of_not_isStore {e : Event} (h : ¬ e.IsStore) (before : List Event) :
    Rightful photos dir regdb before e := by
  cases e with
  | openTrunc | writeAt | put => exact absurd trivial h
  | _ => exact Or.inr trivial

theorem Rightful.formCall {before : List Event} {e : Event}
    (h : Rightful False dir regdb before e) : FormCall dir before e := by
  cases e with
  | put => exact h.2
  | _ => exact h.resolve_left id

theorem throughout_rightful (h : ∀ e ∈ es, ¬ e.IsEffect) (es₀ : List Event) :
    Throughout (fun before => Rightful photos dir regdb (es₀ ++ before)) es :=
  throughout_of_forall fun e he _ => .of_not_isStore (fun hstore => h e he hstore.isEffect) _

/-- Only the command loop takes a photo in hand. -/
theorem Phase.Next.command_of_photo {p q : Phase} (h : p.Next q) (hp : p.NoPhoto)
    (hq : ¬ q.NoPhoto) : p = .command := by
  cases p with
  | command => rfl
  | image | payload => exact hp.elim
  | abandon leave => cases leave <;> simp [Phase.Next] at h <;> subst h <;> exact absurd trivial hq
  | done | fault => exact h.elim
  | _ => cases q <;> simp_all [Phase.Next, Phase.NoPhoto]

/-- Without the flag the command loop takes no photo in hand. -/
theorem CommandStep.noPhoto (h : CommandStep s t s' es) (hoff : t.acceptimage = false) :
    s'.phase.NoPhoto := by
  cases h with
  | image _ _ _ hon => simp [hoff] at hon
  | _ => trivial

theorem Acted.photo (h : Acted env s t s' es) (hoff : photos ∨ t.acceptimage = false)
    (hphoto : photos ∨ s.phase.NoPhoto) : photos ∨ s'.phase.NoPhoto := by
  rcases hoff with hphotos | hoff
  · exact Or.inl hphotos
  refine hphoto.imp_right fun hno => ?_
  by_contra hnext
  have hcommand := h.next.command_of_photo hno hnext
  cases h with
  | command _ hstep => exact hnext (hstep.noPhoto hoff)
  | magic hother | user hother | pass hother | setup hother | image hother | payload hother
  | imageReply hother | body hother | close hother | insert hother | reply hother
  | abandon hother => simp [hcommand] at hother

/-- What a serving session does next is rightful. -/
theorem Acted.rightful (hserving : s.phase.Serving) (hrec : Receiving s es₀)
    (hphoto : photos ∨ s.phase.NoPhoto) (h : Acted env s t s' es) :
    Throughout (fun before => Rightful photos s.txtdir s.regdb (es₀ ++ before)) es := by
  cases h with
  | magic hphase | user hphase | pass hphase | setup hphase =>
    simp [hphase, Phase.Serving] at hserving
  | command _ hstep =>
    rcases hstep.effect_cases with hnone | ⟨start, line, old, hword, rfl⟩
    · exact throughout_rightful hnone es₀
    · simp only [throughout_cons, throughout_nil, and_true]
      exact ⟨Or.inr trivial, Or.inr ⟨es₀, start, line, old, rfl, hword, rfl⟩⟩
  -- a photo is in hand, so there may be photos
  | image hphase hstep =>
    rcases openImage_cases hstep with ⟨-, -, rfl⟩ | ⟨-, -, rfl⟩
    · have hphotos := hphoto.resolve_right (by simp [hphase, Phase.NoPhoto])
      simp only [throughout_cons, throughout_nil, and_true]
      exact Or.inl hphotos
    · exact throughout_nil
  | payload hphase hstep =>
    have hphotos := hphoto.resolve_right (by simp [hphase, Phase.NoPhoto])
    cases hstep with
    | finished | interrupted | error | eof => exact throughout_nil
    | chunk | short =>
      simp only [throughout_cons, throughout_nil, and_true]
      exact Or.inl hphotos
  | imageReply _ hstep =>
    obtain ⟨errno, sent, -, rfl⟩ := replyImage_cases hstep
    exact throughout_rightful (by simp [Event.IsEffect]) es₀
  | body _ hstep => cases hstep <;> exact throughout_rightful (by simp [Event.IsEffect]) es₀
  -- the text of the form in hand, whether it came to its end or was broken off
  | close hphase hstep =>
    obtain ⟨name, lines, start, stop, hnamed, hcoll, htaken⟩ := hrec.of_close hphase
    obtain ⟨errno, -, rfl⟩ := closeForm_cases hstep
    simp only [throughout_cons, throughout_nil, and_true]
    exact Or.inr ⟨name, lines, _, t, Or.inr ⟨_, _, _, rfl⟩, by simpa using htaken, hnamed.1, rfl,
      by rw [hcoll.text]⟩
  | abandon hphase hstep =>
    obtain ⟨name, lines, tail, hnamed, htext, htail, htaken⟩ := hrec.of_abandon hphase
    obtain ⟨errno, -, rfl⟩ := abandonForm_cases hstep
    simp only [throughout_cons, throughout_nil, and_true]
    exact Or.inr ⟨name, lines, tail, t, htail, by simpa using htaken, hnamed.1, rfl, by rw [htext]⟩
  -- the record of the form in hand
  | insert hphase hstep =>
    obtain ⟨name, lines, start, stop, t', hnamed, hrecord, htaken⟩ := hrec.of_insert hphase
    obtain ⟨-, ⟨-, rfl⟩ | ⟨-, rfl⟩⟩ := insertForm_cases hstep
    · simp only [throughout_cons, throughout_nil, and_true]
      refine ⟨rfl, name, lines, hnamed.2, hrecord, start, stop, t', ?_⟩
      rw [← hnamed.1]
      simpa using htaken
    · exact throughout_nil
  | reply _ hstep =>
    obtain ⟨errno, buffer, ⟨sent, -, rfl⟩ | ⟨-, rfl⟩⟩ := replyForm_cases hstep
    · exact throughout_rightful (by simp [Event.IsEffect]) es₀
    · exact throughout_rightful (by simp [Event.IsEffect]) es₀

/-- A step before the stores are open stores nothing. -/
theorem Acted.rightful_of_outside (houtside : s.phase.Outside) (hnone : ∀ e ∈ es₀, ¬ e.IsEffect)
    (h : Acted env s t s' es) : AllRightful photos s' (es₀ ++ es) := by
  rcases h.outside_cases houtside with ⟨houtside', hnone'⟩ | hstep
  · refine Or.inl ⟨houtside', fun e he => ?_⟩
    rcases List.mem_append.mp he with he | he
    · exact hnone e he
    · exact hnone' e he
  · obtain ⟨hin, hserving⟩ := openStores_inStores (P := fun _ => True) hstep
    refine Or.inr ⟨hserving, env.year s.clock, hin, throughout_append.mpr ⟨?_, ?_⟩⟩
    · exact throughout_rightful hnone []
    · exact throughout_of_forall fun e he _ => .of_not_isStore (openStores_not_isStore hstep e he) _

theorem Puts.wait (h : Puts photos s es) (t : Turn) : Puts photos (s.wait t) es := by
  refine ⟨h.receiving.wait t, h.photo, ?_⟩
  rcases h.stored with ⟨houtside, hnone⟩ | ⟨hserving, session, hin, hall⟩
  · exact Or.inl ⟨houtside, hnone⟩
  · exact Or.inr ⟨hserving, session, hin.wait t, hall⟩

/-- One step of a session keeps the invariant. -/
theorem puts_step (env : Env) (s : Session) (es : List Event) (t : Turn)
    (hoff : photos ∨ t.acceptimage = false) (h : Puts photos s es) :
    Puts photos (manageClient env s t).1 (es ++ (manageClient env s t).2) := by
  rcases manageClient_cases env s t with heq | hact
  · simpa [heq] using h.wait t
  have hwaited := h.wait t
  refine ⟨hact.receiving hwaited.receiving, hact.photo hoff hwaited.photo, ?_⟩
  rcases hwaited.stored with ⟨houtside, hnone⟩ | ⟨hserving, session, hin, hall⟩
  · exact hact.rightful_of_outside houtside hnone
  · have hk := hact.keeps hserving
    obtain ⟨hin', hserving', -⟩ := hact.inStores hserving hin (namesMeet_true _ t)
    refine Or.inr ⟨hserving', session, hin', ?_⟩
    rw [hk.txtdir, hk.regdb]
    exact throughout_append.mpr ⟨hall, hact.rightful hserving hwaited.receiving hwaited.photo⟩

/-- What holds of a session at its start. -/
theorem puts_start (a : Arrival) : Puts photos a.session [] :=
  ⟨receiving_of_magic rfl, Or.inr trivial, Or.inl ⟨trivial, by simp⟩⟩

/-- All that a session has stored is rightful in the stores of its college. -/
theorem Puts.rightful (h : Puts photos s es) :
    ∃ year, Throughout (Rightful photos (txtdirOf year s.college) (regdbOf year s.college)) es := by
  rcases h.stored with ⟨-, hnone⟩ | ⟨-, year, hin, hall⟩
  · exact ⟨0, throughout_rightful hnone []⟩
  · refine ⟨year, ?_⟩
    rw [← hin.txtdir, ← hin.regdb]
    exact hall

end

/-! ### The record that stays -/

/-- A record is the one that was put last, if one was put. -/
theorem record_of_after {κ : Type*} (cwd place : Place) (key : Bytes) (es : List (κ × Event))
    (w : World) :
    ((∀ e ∈ es, ¬ e.2.TouchesRecord cwd place key) ∧
      (w.after cwd (es.map Prod.snd)).record place key = w.record place key) ∨
    ∃ before k db data after, es = before ++ (k, .put db key data) :: after ∧
      resolve cwd db = place ∧ (∀ e ∈ after, ¬ e.2.TouchesRecord cwd place key) ∧
      (w.after cwd (es.map Prod.snd)).record place key = some data := by
  induction es using List.reverseRecOn with
  | nil => exact Or.inl ⟨by simp, rfl⟩
  | append_singleton es e ih =>
    obtain ⟨k, e⟩ := e
    rw [List.map_append, World.after_append]
    by_cases htouch : e.TouchesRecord cwd place key
    · cases e with
      | put db key' data =>
        obtain ⟨hplace, rfl⟩ : resolve cwd db = place ∧ key' = key := htouch
        refine Or.inr ⟨es, k, db, data, [], rfl, hplace, by simp, ?_⟩
        simp [World.apply, hplace]
      | _ => exact htouch.elim
    · have hsame : ((w.after cwd (es.map Prod.snd)).after cwd ([(k, e)].map Prod.snd)).record
          place key = (w.after cwd (es.map Prod.snd)).record place key :=
        World.apply_record_of_not_touches htouch
      rw [hsame]
      rcases ih with ⟨hnone, heq⟩ | ⟨before, k', db, data, after, rfl, hplace, hlater, heq⟩
      · refine Or.inl ⟨fun e' he' => ?_, heq⟩
        rcases List.mem_append.mp he' with hold | hnew
        · exact hnone e' hold
        · obtain rfl := List.mem_singleton.mp hnew
          exact htouch
      · refine Or.inr ⟨before, k', db, data, after ++ [(k, e)], by simp, hplace, fun e' he' => ?_,
          heq⟩
        rcases List.mem_append.mp he' with hold | hnew
        · exact hlater e' hold
        · obtain rfl := List.mem_singleton.mp hnew
          exact htouch

/-! ### All threads -/

/-- Nothing is asked of the moves of a run. -/
theorem allows_true (env : Env) (p : Process) (moves : List Move) :
    (eduserver env).Meets (Allows fun _ _ _ => True) p moves := by
  refine Machine.meets_iff_forall.mpr fun before move after hsplit => ?_
  cases move <;> simp [Allows]

/-- **Records are whole.** Whatever the clients send, however many of them upload at the same
time and whichever calls fail: a record that is in a database when the process has run was there
before, or it is the record some session of that college put last under that key. Right before
this call the session had received a form of that name up to its last line and written its text,
as far as `fclose` did, and the record was built from the lines of this form and of no other. -/
theorem records_whole (env : Env) (cwd : Place) (w : World) (argv : List Bytes)
    (passdb : Option (Bytes → Get)) (moves : List Move) :
    let r := (eduserver env).run (serve argv passdb) moves
    ∀ place key data, (w.after cwd (r.2.map Prod.snd)).record place key = some data →
      w.record place key = some data ∨
      ∃ before k db after s year name lines, r.2 = before ++ (k, .put db key data) :: after ∧
        (∀ e ∈ after, ¬ e.2.TouchesRecord cwd place key) ∧
        r.1.sessions[k]? = some s ∧ place = cwd ++ collegeDb year s.college ∧ key = stem name ∧
        Brought (ofThread k before) (txtdirOf year s.college) name data lines := by
  intro r place key data hdata
  rcases record_of_after cwd place key r.2 w with
    ⟨-, hsame⟩ | ⟨before, k, db, data', after, hsplit, hplace, hlater, hlast⟩
  · exact Or.inl (hsame ▸ hdata)
  · obtain rfl : data' = data := Option.some.inj (hlast.symm.trans hdata)
    have halone := alone_run argv passdb
      ((allows_true env (serve argv passdb) moves).mono fun _ _ h _ => h)
    have hmem : (k, .put db key data') ∈ r.2 := by simp [hsplit]
    obtain ⟨s, hs, -⟩ := halone.exists_of_mem hmem
    have hputs : Puts True s (ofThread k r.2) := by
      refine halone.invariant ?_ (fun s es i _ h => puts_step _ s es _ (Or.inl trivial) h) hs
      rintro s₀ ⟨a, -, rfl⟩
      exact puts_start a
    obtain ⟨year, hall⟩ := hputs.rightful
    have hthread : ofThread k r.2 = ofThread k before ++ .put db key data' :: ofThread k after := by
      simp [hsplit, ofThread]
    obtain ⟨rfl, name, lines, hkey, hbrought⟩ := hall _ _ _ hthread
    refine Or.inr ⟨before, k, _, after, s, year, name, lines, hsplit, hlater, hs, ?_, hkey,
      hbrought⟩
    rw [← hplace, resolve_regdbOf]

theorem records_whole_sample :
    let r := (eduserver sampleEnv).run (serve [] (some samplePassdb)) sampleMoves
    World.empty.record (collegeDb 2005 2) (ascii "M_0001_A_0001_0") = some (ascii "cd\n\x00") ∨
      ∃ before k db after s year name lines,
        r.2 = before ++ (k, .put db (ascii "M_0001_A_0001_0") (ascii "cd\n\x00")) :: after ∧
        (∀ e ∈ after, ¬ e.2.TouchesRecord [] (collegeDb 2005 2) (ascii "M_0001_A_0001_0")) ∧
        r.1.sessions[k]? = some s ∧ collegeDb 2005 2 = [] ++ collegeDb year s.college ∧
        ascii "M_0001_A_0001_0" = stem name ∧
        Brought (ofThread k before) (txtdirOf year s.college) name (ascii "cd\n\x00") lines :=
  records_whole sampleEnv [] World.empty [] (some samplePassdb) sampleMoves (collegeDb 2005 2)
    (ascii "M_0001_A_0001_0") (ascii "cd\n\x00") (by decide +kernel)

/-! ### Photos -/

/-- No move changes whether photos are accepted: the two handlers that would are bound to no
signal. -/
theorem eduserver_acceptimage (env : Env) (p : Process) (move : Move) :
    (eduserver env p move).1.globals.acceptimage = p.globals.acceptimage := by
  unfold eduserver
  split
  · cases move with
    | arrive a =>
      dsimp only
      split <;> rfl
    | turn k t => rfl
    | signal signo loaded =>
      simp only [Process.signal]
      split
      · simp only [Process.reloadPassdb]
        split <;> rfl
      · rfl
      · rfl
      · rfl
  · rfl

/-- **No photos without the option.** In a process that was started without `--acceptimage`, in
every run and whatever signals arrive: no session ever has a photo in hand, each file a session
creates is that of the `FILENAME` line it has just taken as a command, in the directory of its
college and under the name in this line, and all it writes is, from the start of this file, the
text of the lines it has taken since, as far as `fclose` does. -/
theorem photos_refused (env : Env) (argv : List Bytes) (passdb : Option (Bytes → Get))
    (moves : List Move) (hoption : ∀ arg ∈ argv, ¬ ascii "--acceptimage" <+: arg) :
    let r := (eduserver env).run (serve argv passdb) moves
    ∀ k s, r.1.sessions[k]? = some s → s.phase.NoPhoto ∧
      ∃ year, Throughout (FormCall (txtdirOf year s.college)) (ofThread k r.2) := by
  intro r k s hs
  have hstart : (serve argv passdb).globals.acceptimage = false := by
    simpa [serve, strncmp] using hoption
  have hoff : ∀ before, ((eduserver env).run (serve argv passdb) before).1.globals.acceptimage =
      false := by
    intro before
    exact @Machine.run_induction _ _ _ (eduserver env) (fun _ _ => True)
      (fun p _ => p.globals.acceptimage = false)
      (fun p _ move _ h => (eduserver_acceptimage env p move).trans h) _ [] hstart before
      (Machine.meets_true _ _)
  have hallows : (eduserver env).Meets (Allows fun _ _ i => i.1.acceptimage = false)
      (serve argv passdb) moves := by
    refine Machine.meets_iff_forall.mpr fun before move after _ => ?_
    cases move with
    | turn k t => exact fun _ _ => hoff before
    | _ => trivial
  have hputs : Puts False s (ofThread k r.2) := by
    refine (alone_run argv passdb (hallows.mono fun _ _ h _ => h)).invariant ?_
      (fun s es i hi h => puts_step _ s es _ (Or.inr hi) h) hs
    rintro s₀ ⟨a, -, rfl⟩
    exact puts_start a
  obtain ⟨year, hall⟩ := hputs.rightful
  exact ⟨hputs.photo.resolve_left id, year, hall.mono fun _ _ => Rightful.formCall⟩

theorem photos_refused_sample :
    let r := (eduserver sampleEnv).run (serve [ascii "-v"] (some samplePassdb)) sampleMoves
    ∀ k s, r.1.sessions[k]? = some s → s.phase.NoPhoto ∧
      ∃ year, Throughout (FormCall (txtdirOf year s.college)) (ofThread k r.2) :=
  photos_refused sampleEnv [ascii "-v"] (some samplePassdb) sampleMoves (by decide)

end Esif.Server
