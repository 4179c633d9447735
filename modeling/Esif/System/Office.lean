import Esif.CS.Threads
import Esif.System.Delivery

/-!
# Many colleges submit

Submissions begin at any time and go on side by side, each between a client of its own and
its thread of the server; all threads work on the same files and databases.

## Main definitions

* `office` — the submissions, as one machine
* `Ready`, `Goes` — how a submission begins, and how it goes on
* `served` — what the server has done for all of them

## Main results

* `Within.step` — a submission keeps to the stores of its college
* `office_held` — what any client has marked is held when all have run
-/

namespace Esif.System

open Esif.CS Esif.Posix Esif.Server
open Esif.Client (Apply Sent)

/-- A submission: what it is for, and its two sides. -/
structure Submission where
  errand : Errand
  sides : Apply × Session

/-- A move at the office. -/
inductive OfficeMove where
  | opens (x : Submission)
  | turn (k : ℕ) (i : Client.Turn ⊕ Turn)

/-- One submission takes a step. -/
def Submission.step (env : Env) : Machine Submission (Client.Turn ⊕ Turn) (Sent ⊕ Event) :=
  fun x i =>
    let r := submission x.errand.opts env x.sides i
    ({ x with sides := r.1 }, r.2)

/-- The submissions side by side. -/
def office (env : Env) : Machine (List Submission) OfficeMove (ℕ × (Sent ⊕ Event)) :=
  fun xs move =>
    match move with
    | .opens x => (xs ++ [x], [])
    | .turn k i => (Submission.step env).thread k i xs

/-- The two sides are behind the login, and nothing is marked. -/
structure Ready (cwd : Place) (x : Submission) : Prop where
  cwd : x.errand.cwd = cwd
  names : x.sides.1.names = x.errand.names
  disk : x.sides.1.disk = x.errand.disk
  client : x.sides.1.At .start []
  server : x.sides.2.At .command []
  houses : x.errand.Houses x.sides.2

/-- The stores take the forms, and the names sent are plain. -/
def Goes (x : Submission) (i : Client.Turn ⊕ Turn) : Prop :=
  Delivers x.errand x.sides i ∧
    match i with
    | .inl _ => True
    | .inr t => NamesMeet PlainName x.sides.2 t

/-- A submission begins as it should, and goes on as it should. -/
def Admits (cwd : Place) (xs : List Submission) : OfficeMove → Prop
  | .opens x => Ready cwd x
  | .turn k i => ∀ x, xs[k]? = some x → Goes x i

/-- What the server has done, and in which thread. -/
def served (es : List (ℕ × (Sent ⊕ Event))) : List (ℕ × Event) :=
  es.filterMap fun e => e.2.getRight?.map (Prod.mk e.1)

section Office

variable {env : Env} {cwd : Place} {w : World} {x : Submission} {i : Client.Turn ⊕ Turn}
  {es : List (Sent ⊕ Event)} {xs : List Submission} {moves : List OfficeMove}

theorem rights_ofThread (k : ℕ) (es : List (ℕ × (Sent ⊕ Event))) :
    rights (ofThread k es) = ofThread k (served es) := by
  simp only [rights, ofThread, served, List.filterMap_filterMap]
  apply congrArg (fun f => List.filterMap f es)
  funext e
  obtain ⟨j, sent | event⟩ := e
  · by_cases hj : j = k <;> simp [hj]
  · by_cases hj : j = k <;> simp [hj]

theorem rights_map_snd (es : List (ℕ × (Sent ⊕ Event))) :
    rights (es.map Prod.snd) = (served es).map Prod.snd := by
  simp only [rights, served, List.filterMap_map, List.map_filterMap]
  apply congrArg (fun f => List.filterMap f es)
  funext e
  obtain ⟨j, sent | event⟩ := e
  · rfl
  · rfl

theorem ofThread_eq_filter (k : ℕ) (es : List (ℕ × Event)) :
    ofThread k es = (es.filter fun e => e.1 = k).map Prod.snd := by
  induction es with
  | nil => rfl
  | cons e es ih =>
    by_cases hj : e.1 = k
    · simpa [ofThread, hj] using ih
    · simpa [ofThread, hj] using ih

theorem mem_rights {event : Event} {es : List (Sent ⊕ Event)} :
    event ∈ rights es ↔ .inr event ∈ es := by
  simp only [rights, List.mem_filterMap]
  constructor
  · rintro ⟨sent | event', hmem, hright⟩
    · cases hright
    · obtain rfl : event' = event := Option.some.inj hright
      exact hmem
  · exact fun hmem => ⟨_, hmem, rfl⟩

theorem mem_served {j : ℕ} {event : Event} {es : List (ℕ × (Sent ⊕ Event))} :
    (j, event) ∈ served es ↔ (j, .inr event) ∈ es := by
  simp only [served, List.mem_filterMap, Option.map_eq_some_iff, Prod.mk.injEq]
  constructor
  · rintro ⟨⟨k, sent | event'⟩, hmem, event'', hright, rfl, rfl⟩
    · cases hright
    · obtain rfl : event' = event'' := Option.some.inj hright
      exact hmem
  · exact fun hmem => ⟨_, hmem, event, rfl, rfl, rfl⟩

/-- What a submission has done lies in the stores of its college. -/
structure Within (cwd : Place) (x : Submission) (es : List (Sent ⊕ Event)) : Prop where
  placed : x.sides.2.Placed PlainName
  houses : x.errand.Houses x.sides.2
  confined : ∀ event ∈ rights es, event.Confined cwd x.errand.year x.errand.college

/-- **A move** of a submission stays in the stores of its college. -/
theorem Within.step (hgoes : Goes x i) (h : Within cwd x es) :
    Within cwd (Submission.step env x i).1 (es ++ (Submission.step env x i).2) := by
  obtain ⟨e, a, s⟩ := x
  obtain ⟨hplaced, hhouses, hconfined⟩ := h
  cases i with
  | inl c =>
    refine ⟨hplaced, ⟨hhouses.serving, hhouses.txtdir, hhouses.regdb⟩, ?_⟩
    simpa [Submission.step, submission, Machine.linked, rights_append, rights_map_inl]
      using hconfined
  | inr t =>
    have hnames : NamesMeet PlainName s t := hgoes.2
    have hhoused : e.Houses (s.wait t) := hhouses.wait t
    simp only [Submission.step, submission, Machine.linked]
    rcases manageClient_cases env s t with heq | hact
    · rw [heq]
      exact ⟨hplaced, hhoused, by simpa using hconfined⟩
    · obtain ⟨hplaced', -, hwithin⟩ := hact.within hhoused.serving hplaced hnames.wait
      refine ⟨hplaced', hhoused.step hact, fun event hmem => ?_⟩
      rw [rights_append, rights_map_inr] at hmem
      rcases List.mem_append.mp hmem with hold | hnew
      · exact hconfined event hold
      · have hinside := hwithin event hnew
        rw [hhoused.txtdir, hhoused.regdb] at hinside
        exact hinside.confined cwd

/-- Every submission is where a run of its own has led it. -/
theorem office_alone (hmoves : (office env).Meets (Admits cwd) [] moves) :
    let r := (office env).run [] moves
    ∃ is, (Submission.step env).Alone (fun _ => Ready cwd) (fun _ => Goes) is r.1 r.2 := by
  refine @Machine.run_induction _ _ _ (office env) (Admits cwd) (fun xs es => ∃ is,
    (Submission.step env).Alone (fun _ => Ready cwd) (fun _ => Goes) is xs es) ?_ [] []
    ⟨[], .nil⟩ moves hmoves
  rintro xs es move hadmits ⟨is, h⟩
  cases move with
  | opens x => exact ⟨is, by simpa [office] using h.start hadmits⟩
  | turn k i => exact ⟨_, h.step hadmits⟩

/-- An event in the stores of one college touches no form of another. -/
theorem confined_apart {event : Event} {year college : ℤ} {e : Errand} {name : Bytes}
    (hconfined : event.Confined e.cwd year college) (hother : college ≠ e.college)
    (hentry : e.Entry name) :
    ¬ event.TouchesFile e.cwd (e.file name) ∧ ∀ key, ¬ event.TouchesRecord e.cwd e.db key := by
  have hinstitute : institute college ≠ institute e.college := fun heq =>
    hother (printInt04_injective (List.append_cancel_left heq))
  constructor
  · rw [Errand.file_eq hentry]
    cases event with
    | openTrunc path | writeAt path offset data =>
      obtain ⟨entry, hplace⟩ := hconfined
      simp [Event.TouchesFile, hplace, collegeDir, hinstitute]
    | _ => exact id
  · intro key
    rw [Errand.db, resolve_regdbOf]
    cases event with
    | put db key' data =>
      have hplace : resolve e.cwd db = e.cwd ++ collegeDb year college := hconfined
      simp [Event.TouchesRecord, hplace, collegeDb, hinstitute]
    | _ => exact id

end Office

/-- **Every mark is honoured.** Whenever submissions begin and however the steps of all clients
and all threads of the server are ordered: a file that a client has changed is a form it has marked
as sent, and the form lies in the stores when all have run, unless another submission is for the
same college. -/
theorem office_held (env : Env) (cwd : Place) (w : World) (moves : List OfficeMove)
    (hmoves : (office env).Meets (Admits cwd) [] moves) :
    let r := (office env).run [] moves
    ∀ (k : ℕ) (x : Submission), r.1[k]? = some x →
      (∀ (j : ℕ) (y : Submission), r.1[j]? = some y → j ≠ k →
        y.errand.college ≠ x.errand.college) →
      ∀ path, x.sides.1.disk path ≠ x.errand.disk path → ∃ name content,
        path = x.errand.path name ∧ x.errand.Honours x.sides.1.disk
          (w.after cwd (rights (r.2.map Prod.snd))) name content := by
  intro r k x hk hapart path hmarked
  obtain ⟨is, halone⟩ := office_alone hmoves
  -- the submission alone: its own books are in order
  have hown : ∀ {j y}, r.1[j]? = some y → y.errand.cwd = cwd ∧
      Delivery y.errand w y.sides (ofThread j r.2) ∧ Within cwd y (ofThread j r.2) := by
    intro j y hy
    let inv : Submission → List (Sent ⊕ Event) → Prop := fun y es =>
      y.errand.cwd = cwd ∧ Delivery y.errand w y.sides es ∧ Within cwd y es
    have hinv : inv y (ofThread j r.2) := by
      refine halone.invariant ?_ ?_ hy
      · intro y hready
        refine ⟨hready.cwd, ?_, ?_, hready.houses, by simp⟩
        · exact delivery_start hready.names hready.disk hready.client hready.server hready.houses
        · intro hfile
          rw [hready.server.phase] at hfile
          exact hfile.elim
      · rintro y es i hgoes ⟨hcwd, hdelivery, hwithin⟩
        exact ⟨hcwd, hdelivery.step hgoes.1, hwithin.step hgoes⟩
    exact hinv
  obtain ⟨hcwd, hdelivery, -⟩ := hown hk
  obtain ⟨name, content, hpath, hentry, hcontent, hmark, hheld⟩ := hdelivery.books.kept path hmarked
  refine ⟨name, content, hpath, hentry, hcontent, hmark, ?_⟩
  -- what touches the form is what its own submission has done
  have hmine : ∀ e ∈ served r.2, (e.2.TouchesFile cwd (x.errand.file name) ∨
      e.2.TouchesRecord cwd x.errand.db (stem name)) → decide (e.1 = k) = true := by
    rintro ⟨j, event⟩ hevent htouch
    obtain ⟨y, hy, hmem⟩ := halone.exists_of_mem (mem_served.mp hevent)
    obtain ⟨hcwd', -, hwithin⟩ := hown hy
    have hconfined := hwithin.confined event (mem_rights.mpr hmem)
    by_contra hne
    have hother := hapart j y hy (by simpa using hne)
    subst hcwd
    obtain ⟨hfile, hrecord⟩ := confined_apart hconfined hother hentry
    exact htouch.elim hfile (hrecord _)
  rw [hcwd, rights_ofThread, ofThread_eq_filter] at hheld
  rw [rights_map_snd]
  refine hheld.congr ?_ ?_
  · rw [← World.after_file_filter _ _ ((served r.2).map Prod.snd),
      ← World.after_file_filter _ _ (List.map _ _)]
    refine congrArg (fun es => (w.after cwd es).file _) (map_snd_filter_congr fun e he htouch => ?_)
    exact hmine e he (Or.inl (of_decide_eq_true htouch))
  · rw [← World.after_record_filter _ _ _ ((served r.2).map Prod.snd),
      ← World.after_record_filter _ _ _ (List.map _ _)]
    refine congrArg (fun es => (w.after cwd es).record _ _)
      (map_snd_filter_congr fun e he htouch => ?_)
    exact hmine e he (Or.inr (of_decide_eq_true htouch))

/-- Two forms of a header only, for a college. -/
def sampleCollege (college : ℤ) : Submission where
  errand := { sampleErrand with college := college }
  sides := (sampleDirectory,
    { sampleIdle with txtdir := txtdirOf 2005 college, regdb := regdbOf 2005 college })

/-- Two colleges begin; the first sends a form to its end, and announces the second. -/
def sampleOffice : List OfficeMove :=
  [.opens (sampleCollege 1), .opens (sampleCollege 2)] ++
    (sampleSent.take 3).flatMap (fun i => [.turn 0 i, .turn 1 i]) ++
      (sampleSent.drop 3).map (.turn 0)

theorem sampleCollege_ready (college : ℤ) : Ready [] (sampleCollege college) :=
  ⟨rfl, rfl, rfl, ⟨rfl, rfl, rfl⟩, ⟨rfl, rfl, rfl⟩, ⟨trivial, rfl, rfl⟩⟩

theorem forall_of_all {k : ℕ} {xs : List Submission} {p : Submission → Bool}
    (h : xs[k]?.all p = true) : ∀ x, xs[k]? = some x → p x = true := by
  intro x hx
  simpa [hx] using h

theorem office_held_sample :
    let r := (office sampleEnv).run [] sampleOffice
    (sampleCollege 1).errand.Held (World.empty.after [] (rights (r.2.map Prod.snd)))
      (ascii "20050001A001.txt") sampleHeader := by
  intro r
  have hmoves : (office sampleEnv).Meets (Admits []) [] sampleOffice := by
    have hclient : ({ reads := photoBytes, writes := photoBytes } : Client.Turn).Calm :=
      ⟨calm_photoBytes, calm_photoBytes⟩
    have hserver : ({ reads := photoBytes, writes := photoBytes } : Turn).Connected :=
      ⟨calm_photoBytes, calm_photoBytes⟩
    have hfree : ∀ {k xs}, xs[k]?.all (fun x => Unbound x.sides.1.place &&
        decide (∀ name ∈ x.sides.1.names.head?, OneLine name)) = true →
        Admits [] xs (.turn k (.inl { reads := photoBytes, writes := photoBytes })) := by
      intro k xs hall x hx
      have hx := forall_of_all hall x hx
      simp only [Bool.and_eq_true, decide_eq_true_eq] at hx
      exact ⟨⟨hclient, inStep_unbound hx.1 hx.2⟩, trivial⟩
    have hserves : ∀ {k xs}, xs[k]?.all (fun x => !Pictures x.sides.2.phase &&
        decide (CopyInBounds x.sides.2 { reads := photoBytes, writes := photoBytes } ∧
          NamesMeet PlainName x.sides.2 { reads := photoBytes, writes := photoBytes })) = true →
        Admits [] xs (.turn k (.inr { reads := photoBytes, writes := photoBytes })) := by
      intro k xs hall x hx
      have hx := forall_of_all hall x hx
      simp only [Bool.and_eq_true, Bool.not_eq_true', decide_eq_true_eq] at hx
      exact ⟨delivers_serving hserver rfl rfl hx.1 hx.2.1, hx.2.2⟩
    have hopens : ∀ {k xs}, xs[k]?.all (fun x =>
        decide (x.sides.1.place = .named (sampleDir ++ ascii "20050001A001.txt")) &&
        decide (x.sides.1.openFile (sampleDir ++ ascii "20050001A001.txt")
          { reads := photoBytes, writes := photoBytes } = some sampleHeader)) = true →
        Admits [] xs (.turn k (.inl { reads := photoBytes, writes := photoBytes })) := by
      intro k xs hall x hx
      have hx := forall_of_all hall x hx
      simp only [Bool.and_eq_true, decide_eq_true_eq] at hx
      exact ⟨⟨hclient, inStep_opens hx.1 hx.2 isForm_sampleHeader rfl⟩, trivial⟩
    simp only [sampleOffice, sampleSent, List.take, List.drop, List.flatMap_cons, List.flatMap_nil,
      List.map, List.cons_append, List.nil_append, Machine.meets_cons, Machine.meets_nil, and_true]
    refine ⟨sampleCollege_ready 1, sampleCollege_ready 2, hfree (by decide +kernel),
      hfree (by decide +kernel), hfree (by decide +kernel), hfree (by decide +kernel),
      hserves (by decide +kernel), hserves (by decide +kernel), hopens (by decide +kernel),
      hfree (by decide +kernel), hfree (by decide +kernel), hserves (by decide +kernel),
      hserves (by decide +kernel), hserves (by decide +kernel), hserves (by decide +kernel),
      hserves (by decide +kernel), hfree (by decide +kernel), hfree (by decide +kernel),
      hserves (by decide +kernel)⟩
  have herrand : r.1[0]?.map Submission.errand = some (sampleCollege 1).errand := rfl
  obtain ⟨x, hx, hsame⟩ := Option.map_eq_some_iff.mp herrand
  have hcolleges : r.1.map (fun x => x.errand.college) = [1, 2] := by decide +kernel
  have hapart : ∀ (j : ℕ) (y : Submission), r.1[j]? = some y → j ≠ 0 →
      y.errand.college ≠ x.errand.college := by
    intro j y hy hj
    have hcollege : ([1, 2] : List ℤ)[j]? = some y.errand.college := by
      rw [← hcolleges, List.getElem?_map, hy, Option.map_some]
    rw [hsame]
    rcases j with - | - | j
    · exact absurd rfl hj
    · have htwo : (2 : ℤ) = y.errand.college := by simpa using hcollege
      rw [← htwo]
      decide
    · simp at hcollege
  have hmarked : x.sides.1.disk (sampleDir ++ ascii "20050001A001.txt") ≠ some sampleHeader := by
    have hdecide := @forall_of_all 0 r.1 (fun x => decide
      (x.sides.1.disk (sampleDir ++ ascii "20050001A001.txt") ≠ some sampleHeader))
      (by decide +kernel) x hx
    simpa using hdecide
  obtain ⟨name, content, hpath, hform⟩ := office_held sampleEnv [] World.empty sampleOffice hmoves
    0 x hx hapart (sampleDir ++ ascii "20050001A001.txt") (by rw [hsame]; exact hmarked)
  rw [hsame] at hpath hform
  obtain rfl : ascii "20050001A001.txt" = name :=
    @Errand.path_injective (sampleCollege 1).errand _ _ hpath
  obtain rfl : sampleHeader = content := Option.some.inj hform.disk
  exact hform.held

end Esif.System
