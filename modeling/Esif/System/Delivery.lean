import Esif.CS.Interleave
import Esif.System.Course

/-!
# Delivery

A submission from behind the login to its end: the client marks a form as sent only when the
stores of the college hold it, and what it has marked stays there.

## Main definitions

* `Delivers` — the moves of a submission whose calls on the stores go through
* `Delivery` — the invariant: the books of the client, and the course of the form in hand

## Main results

* `Delivery.step` — one move of either side
* `marked_held` — every form that is marked is held by the server
-/

namespace Esif.System

open Esif.CS Esif.Posix Esif.Server
open Esif.Client (Apply Sent applyForms)

/-- The connection holds, the two sides stay in step, and the stores take the forms. -/
def Delivers (e : Errand) (x : Apply × Session) : Client.Turn ⊕ Turn → Prop
  | .inl c => c.Calm ∧ KeepsStep e.opts x.1 c
  | .inr t => t.Connected ∧ ServesStep x.1 x.2 t ∧ Stores e x.2 t

/-- What is marked is held, and the form in hand is on its course. -/
structure Delivery (e : Errand) (w : World) (x : Apply × Session) (es : List (Sent ⊕ Event)) :
    Prop where
  books : e.Books x.1 (w.after e.cwd (rights es))
  course : Course e x.1 x.2 (w.after e.cwd (rights es))
  houses : e.Houses x.2

section Runs

variable {e : Errand} {env : Env} {a : Apply} {s : Session} {w : World} {t : Turn}
  {es : List (Sent ⊕ Event)} {x : Apply × Session} {i : Client.Turn ⊕ Turn}

/-- Time that passes changes nothing. -/
theorem Course.wait (h : Course e a s w) (t : Turn) : Course e a (s.wait t) w := by
  cases h with
  | free place client server => exact .free place client (at_wait server t)
  | photo mode place going => exact .photo (mode.wait t) place going
  | announced hand client server =>
    refine .announced hand client ?_
    cases server with
    | waits none server => exact .waits none (at_wait server t)
    | takes server named text record created =>
      exact .takes (at_wait server t) named text record created
  | sending taken todo arrived rest hand content lines split client server =>
    refine .sending taken todo arrived rest hand content lines split client ?_
    cases server with
    | waits none server => exact .waits none (at_wait server t)
    | takes server named text record created =>
      exact .takes (at_wait server t) named text record created
  | lost arrived rest hand lines client server =>
    exact .lost arrived rest hand lines client
      (server.imp (fun h => ⟨at_wait h.1 t, h.2⟩) (at_wait · t))
  | closing lines hand content body client server =>
    refine .closing lines hand content body client ?_
    cases server with
    | close server named text record created =>
      exact .close (at_wait server t) named text record created
    | insert server named record stored => exact .insert (at_wait server t) named record stored
    | reply server held => exact .reply (at_wait server t) held
  | answered base hand client server content held =>
    exact .answered base hand client (at_wait server t) content held
  | gone bs client tail server =>
    refine .gone bs client tail ?_
    cases server with
    | stopped server => exact .stopped server
    | idle phase unread => exact .idle phase unread
    | waits form phase unread => exact .waits form phase unread
    | taking form phase named unread => exact .taking form phase named unread
    | leaving form phase named unread => exact .leaving form phase named unread
  | dead server quiet => exact .dead server quiet

theorem Stores.wait (h : Stores e s t) : Stores e (s.wait t) t := by
  have hphase : (s.wait t).phase = s.phase := rfl
  unfold Stores at h ⊢
  rw [hphase]
  split at h
  · exact h
  · simpa only [CopyInBounds, regbufCopy_wait] using h
  all_goals exact h

theorem Errand.Houses.wait (h : e.Houses s) (t : Turn) : e.Houses (s.wait t) :=
  ⟨h.serving, h.txtdir, h.regdb⟩

/-- A client that has closed lets the server know. -/
theorem Course.closes (h : Course e a s w) (hclosed : a.place = .closed) :
    Course e a (Session.receive [] true s) w := by
  have hsends : ∀ {rest}, ¬ Sends a rest := by
    intro rest hsends
    cases hsends with
    | body _ _ _ _ client =>
      have hplace := client.place
      simp [hclosed] at hplace
    | reply _ _ client =>
      have hplace := client.place
      simp [hclosed] at hplace
  cases h with
  | free place =>
    rw [hclosed] at place
    cases place
  | photo _ place =>
    rw [hclosed] at place
    cases place
  | announced _ client =>
    have hplace := client.place
    simp [hclosed] at hplace
  | sending _ _ _ _ _ _ _ _ client | lost _ _ _ _ client | closing _ _ _ _ client =>
    exact absurd client hsends
  | answered _ _ client =>
    have hplace := client.place
    simp [hclosed] at hplace
  | gone bs client tail server =>
    exact .gone bs client tail (by simpa using server.receive [] true)
  | dead server quiet => exact .dead server quiet

/-- A server that is done lets the client know. -/
theorem Course.ends (h : Course e a s w) (hdone : s.phase = .done) :
    Course e (a.receive [] true) s w := by
  have hat : ∀ {phase bs}, s.At phase bs → phase ≠ .done → False := by
    intro phase bs hat hne
    exact hne (hat.phase.symm.trans hdone)
  have hnears : ∀ {name taken bs}, ¬ Nears e w s name taken bs := by
    intro name taken bs hnears
    cases hnears with
    | waits _ server => exact hat server nofun
    | takes server => exact hat server nofun
  cases h with
  | free _ _ server => exact (hat server nofun).elim
  | photo _ _ going => exact absurd (Or.inl hdone) going
  | announced _ _ server | sending _ _ _ _ _ _ _ _ _ server => exact absurd server hnears
  | lost _ _ _ _ _ server =>
    rcases server with ⟨server, -⟩ | server
    · exact (hat server nofun).elim
    · exact (hat server nofun).elim
  | closing _ _ _ _ _ server =>
    cases server with
    | close server | insert server | reply server => exact (hat server nofun).elim
  | answered _ _ _ server => exact (hat server nofun).elim
  | gone bs client tail server =>
    exact .gone bs (silent_receive client _ _) tail (server.same rfl)
  | dead server quiet =>
    refine .dead server (Or.inl ?_)
    rcases quiet with hnone | ⟨hfault, -⟩
    · simp [Apply.receive, hnone]
    · rw [hdone] at hfault
      cases hfault

/-- **A move** of either side keeps what is marked in the stores. -/
theorem Delivery.step (hmove : Delivers e x i) (h : Delivery e w x es) :
    Delivery e w (submission e.opts env x i).1 (es ++ (submission e.opts env x i).2) := by
  obtain ⟨a, s⟩ := x
  obtain ⟨hbooks, hcourse, hhouses⟩ := h
  have hhoused : ∀ bs closed, e.Houses (Session.receive bs closed s) := fun bs closed =>
    ⟨hhouses.serving, hhouses.txtdir, hhouses.regdb⟩
  cases i with
  | inl c =>
    obtain ⟨hcalm, hkeeps⟩ := hmove
    simp only [submission, Machine.linked, applyForms]
    cases hact : a.act e.opts c with
    | none =>
      refine ⟨?_, ?_, hhoused _ _⟩
      · simpa using hbooks
      · by_cases hclosed : a.place = .closed
        · simpa [hclosed] using hcourse.closes hclosed
        · simpa [beq_false_of_ne hclosed] using hcourse
    | some r =>
      obtain ⟨a', sent⟩ := r
      obtain ⟨hcourse', hbooks'⟩ := hcourse.client_step hcalm hkeeps hbooks hact
      -- what the client does is none of the server's events
      have hsame : rights (es ++ sent.map Sum.inl) = rights es := by
        rw [rights_append, rights_map_inl, List.append_nil]
      refine ⟨?_, ?_, hhoused _ _⟩
      · rw [Option.getD_some, hsame]
        exact hbooks'
      · rw [Option.getD_some, hsame]
        exact hcourse'
  | inr t =>
    obtain ⟨hcon, hserves, hstores⟩ : t.Connected ∧ ServesStep a (s.wait t) t ∧ Stores e s t :=
      hmove
    -- time has passed since the last step
    have hwait := hcourse.wait t
    have hhoused' : e.Houses (s.wait t) := hhouses.wait t
    simp only [submission, Machine.linked, manageClient]
    cases hact : act env (s.wait t) t with
    | none =>
      refine ⟨?_, ?_, hhoused'⟩
      · simpa [sentBytes] using ⟨hbooks.names, hbooks.rest, hbooks.kept⟩
      · by_cases hdone : (s.wait t).phase = .done
        · simpa [sentBytes, Session.closed, hdone] using hwait.ends hdone
        · have hopen : (s.wait t).closed = false := closed_of_ne_done hdone
          simpa [hopen, sentBytes, apply_receive_nil] using hwait
    | some r =>
      obtain ⟨s', done⟩ := r
      obtain ⟨hcourse', hspares⟩ := hwait.server_step hcon hserves hstores.wait hhoused' hact
      have hworld : w.after e.cwd (rights (es ++ done.map Sum.inr)) =
          (w.after e.cwd (rights es)).after e.cwd done := by
        rw [rights_append, rights_map_inr, World.after_append]
      refine ⟨?_, ?_, hhoused'.step (act_cases hact)⟩
      · rw [Option.getD_some, hworld]
        exact hbooks.server hspares _ _
      · rw [Option.getD_some, hworld]
        exact hcourse'

/-- Behind the login the books are those of the submissions before. -/
theorem Errand.Books.delivery (h : e.Books a w) (hclient : a.At .start [])
    (hserver : s.At .command []) (hhouses : e.Houses s) : Delivery e w (a, s) [] := by
  refine ⟨h, ?_, hhouses⟩
  have hplace := hclient.place
  exact .free (hplace ▸ .start) (hplace ▸ hclient) hserver

/-- At the first submission nothing is marked. -/
theorem delivery_start (hnames : a.names = e.names) (hdisk : a.disk = e.disk)
    (hclient : a.At .start []) (hserver : s.At .command []) (hhouses : e.Houses s) :
    Delivery e w (a, s) [] := by
  have hbooks : e.Books a w := by
    refine ⟨hnames ▸ List.suffix_rfl, fun name _ => Or.inl (by rw [hdisk]), ?_⟩
    intro path hmarked
    rw [hdisk] at hmarked
    exact absurd rfl hmarked
  exact hbooks.delivery hclient hserver hhouses

end Runs

/-- **Marked means held.** In every run of a submission on a connection that holds, in which the
two sides stay in step and the stores take the forms, however the steps of the two sides are
ordered and the stream is cut: a file of the client that has changed is a form of the directory
that was as it still is up to its mark, and the server holds it as it was, its text under its name
and its record under its key. -/
theorem marked_held (e : Errand) (env : Env) (a : Apply) (s : Session) (w : World)
    (hnames : a.names = e.names) (hdisk : a.disk = e.disk) (hclient : a.At .start [])
    (hserver : s.At .command []) (hhouses : e.Houses s) (moves : List (Client.Turn ⊕ Turn))
    (hmoves : (submission e.opts env).Meets (Delivers e) (a, s) moves) :
    let r := (submission e.opts env).run (a, s) moves
    ∀ path, r.1.1.disk path ≠ e.disk path → ∃ name content, path = e.path name ∧
      e.Honours r.1.1.disk (w.after e.cwd (rights r.2)) name content := by
  intro r
  have hdelivery : Delivery e w r.1 r.2 := by
    have hrun := (submission e.opts env).run_induction (fun x es i hi hx => Delivery.step hi hx)
      (delivery_start (w := w) hnames hdisk hclient hserver hhouses) hmoves
    simpa using hrun
  exact hdelivery.books.kept

/-- Two forms of a header only, for the college 0001. -/
def sampleErrand : Errand where
  opts := ⟨sampleDir, true⟩
  names := sampleDirectory.names
  disk := sampleDirectory.disk
  cwd := []
  year := 2005
  college := 1
  nodup := by decide
  name := by
    unfold IsName
    decide

/-- A server in its command loop, with the stores of the college 0001. -/
def sampleHoused : Session :=
  { sampleIdle with txtdir := txtdirOf 2005 1, regdb := regdbOf 2005 1 }

/-- The session takes a photo. -/
def Pictures : Phase → Bool
  | .image _ => true
  | .payload _ _ _ => true
  | _ => false

theorem delivers_serving {e : Errand} {x : Apply × Session} {t : Turn} (hcon : t.Connected)
    (hoff : t.acceptimage = false) (hok : t.ok = true) (hphase : Pictures x.2.phase = false)
    (hroom : CopyInBounds x.2 t) : Delivers e x (.inr t) := by
  refine ⟨hcon, @inStep_serving e.opts x t hoff hok, ?_⟩
  unfold Stores
  cases h : x.2.phase <;> simp_all [Pictures]

theorem marked_held_sample :
    let r := (submission ⟨sampleDir, true⟩ sampleEnv).run (sampleDirectory, sampleHoused) sampleSent
    sampleErrand.Held (World.empty.after [] (rights r.2)) (ascii "20050001A001.txt")
      sampleHeader := by
  intro r
  have hmoves : (submission ⟨sampleDir, true⟩ sampleEnv).Meets (Delivers sampleErrand)
      (sampleDirectory, sampleHoused) sampleSent := by
    have hclient : ({ reads := photoBytes, writes := photoBytes } : Client.Turn).Calm :=
      ⟨calm_photoBytes, calm_photoBytes⟩
    have hserver : ({ reads := photoBytes, writes := photoBytes } : Turn).Connected :=
      ⟨calm_photoBytes, calm_photoBytes⟩
    have hfree : ∀ {x : Apply × Session}, Unbound x.1.place = true →
        (∀ name ∈ x.1.names.head?, OneLine name) →
        Delivers sampleErrand x (.inl { reads := photoBytes, writes := photoBytes }) :=
      fun hplace hnames => ⟨hclient, inStep_unbound hplace hnames⟩
    have hserves : ∀ {x : Apply × Session}, (Pictures x.2.phase = false ∧
        CopyInBounds x.2 { reads := photoBytes, writes := photoBytes }) →
        Delivers sampleErrand x (.inr { reads := photoBytes, writes := photoBytes }) :=
      fun hx => delivers_serving hserver rfl rfl hx.1 hx.2
    have hopens : ∀ {x : Apply × Session} {path : Bytes}, x.1.place = .named path →
        x.1.openFile path { reads := photoBytes, writes := photoBytes } = some sampleHeader →
        Delivers sampleErrand x (.inl { reads := photoBytes, writes := photoBytes }) :=
      fun hplace hfile => ⟨hclient, inStep_opens hplace hfile isForm_sampleHeader rfl⟩
    simp only [sampleSent, Machine.meets_cons, Machine.meets_nil, and_true]
    refine ⟨hfree (by decide +kernel) (by decide +kernel),
      hfree (by decide +kernel) (by decide +kernel), hserves (by decide +kernel), ?_,
      hfree (by decide +kernel) (by decide +kernel), hfree (by decide +kernel) (by decide +kernel),
      hserves (by decide +kernel), hserves (by decide +kernel), hserves (by decide +kernel),
      hserves (by decide +kernel), hserves (by decide +kernel),
      hfree (by decide +kernel) (by decide +kernel), hfree (by decide +kernel) (by decide +kernel),
      hserves (by decide +kernel)⟩
    exact hopens
      (show _ = Client.ApplyPlace.named (sampleDir ++ ascii "20050001A001.txt") by decide +kernel)
      (by decide +kernel)
  obtain ⟨name, content, hpath, hform⟩ := marked_held sampleErrand sampleEnv
    sampleDirectory sampleHoused World.empty rfl rfl ⟨rfl, rfl, rfl⟩ ⟨rfl, rfl, rfl⟩
    ⟨trivial, rfl, rfl⟩ sampleSent hmoves (sampleDir ++ ascii "20050001A001.txt")
    (by decide +kernel)
  obtain rfl : ascii "20050001A001.txt" = name := @Errand.path_injective sampleErrand _ _ hpath
  obtain rfl : sampleHeader = content := Option.some.inj hform.disk
  exact hform.held

end Esif.System
