import Esif.CS.Threads
import Esif.Server.Confinement

/-!
# The server process

`main` accepts connections and starts a thread for each; a thread runs
`manage_client` and nothing else. The threads share the handle of the password
database, which SIGHUP reopens, and the flag for photos. Any thread may take the
next step, a connection or a signal may come at any time. Every session has a
clock of its own; the runs in which the clocks agree are among the runs here.

A session that writes outside an array stops the whole process.

## Main definitions

* `Process`, `Move` — the globals with the threads, and what happens next
* `serve` — the start of `main`
* `eduserver` — one move of the process
* `Connection` — the connection that has started a thread
* `Allows` — a move that meets a condition on what steps

## Main results

* `alone_run` — every session of a run is where a run of its own leads it
* `kept_thread` — every session keeps to the stores of its college
* `colleges_apart` — the stores of a college are what its own sessions made them
-/

namespace Esif.Server

open Esif.CS Esif.Posix

/-! ### The process -/

/-- The variables all threads read. -/
structure Globals where
  passdbp : Option (Bytes → Get)
  acceptimage : Bool

/-- The process serves connections, has ended with a status, was ended by a signal, or has
written outside an array. -/
inductive Status where
  | running
  | exited (status : ℕ)
  | killed (signo : ℕ)
  | fault
  deriving DecidableEq, Repr

/-- The process: its globals and its threads in the order they were started. -/
structure Process where
  globals : Globals
  sessions : List Session
  status : Status

/-- A connection: whether `accept`, `pthread_create` and the calls of `doit` that name the
client succeed, what the client sends, the time and what the stack of the thread holds. -/
structure Arrival where
  accepted : Bool := true
  created : Bool := true
  named : Bool := true
  stream : Bytes
  eof : Bool
  clock : ℤ
  user : Bytes
  tmpname : Bytes

/-- The session of a connection at its start. -/
def Arrival.session (a : Arrival) : Session :=
  Session.init a.stream a.eof a.clock a.user a.tmpname

/-- What happens next: a connection comes in, a thread steps, or a signal arrives; `loaded` is
what `pass_initdb` opens if the signal makes it. -/
inductive Move where
  | arrive (a : Arrival)
  | turn (k : ℕ) (t : Turn)
  | signal (signo : ℕ) (loaded : Option (Bytes → Get))

def EXIT_FAILURE : ℕ := 1

def SIGHUP : ℕ := 1

def SIGINT : ℕ := 2

def SIGKILL : ℕ := 9

def SIGTERM : ℕ := 15

/-- What a signal does to the process. -/
inductive Handler where
  | reloadPassdb
  | handleSignal
  | ignore
  | default
  deriving DecidableEq, Repr

/-- The loop `for (i=1; i<=30; i++)` over the signals. `signal` has no effect on SIGKILL; a
signal that only stops the process does nothing to it. -/
def disposition (signo : ℕ) : Handler :=
  if signo < 1 ∨ 30 < signo then .default
  else if signo = SIGHUP then .reloadPassdb
  else if signo = SIGINT ∨ signo = SIGTERM then .handleSignal
  else if signo = SIGKILL then .default
  else .ignore

/-- `reload_passdb` -/
def Process.reloadPassdb (p : Process) (loaded : Option (Bytes → Get)) : Process :=
  let p := { p with globals := { p.globals with passdbp := loaded } }
  if loaded.isNone then { p with status := .exited EXIT_FAILURE } else p

/-- `handle_signal` -/
def Process.handleSignal (p : Process) (signo : ℕ) : Process :=
  { p with globals := { p.globals with passdbp := none }, status := .exited signo }

/-- A signal arrives. -/
def Process.signal (p : Process) (signo : ℕ) (loaded : Option (Bytes → Get)) : Process :=
  match disposition signo with
  | .reloadPassdb => p.reloadPassdb loaded
  | .handleSignal => p.handleSignal signo
  | .ignore => p
  | .default => { p with status := .killed signo }

/-- `main` up to its loop: the options are read and the password database opened. -/
def serve (argv : List Bytes) (passdb : Option (Bytes → Get)) : Process where
  globals := {
    passdbp := passdb
    acceptimage := argv.any fun arg => strncmp arg (ascii "--acceptimage") }
  sessions := []
  status := if passdb.isNone then .exited 1 else .running

/-- `manage_client` in a thread: the globals are what they are when it steps. -/
def worker (env : Env) : Machine Session (Globals × Turn) Event := fun s i =>
  manageClient { env with passdbp := i.1.passdbp } s { i.2 with acceptimage := i.1.acceptimage }

/-- A thread has written outside an array. -/
def anyFault (sessions : List Session) : Bool := sessions.any fun s => s.phase == .fault

/-- One move of the process. Events are those of the thread that steps. -/
def eduserver (env : Env) : Machine Process Move (ℕ × Event) := fun p move =>
  match p.status with
  | .running =>
    match move with
    -- `doit` closes the connection when it cannot tell who it is from
    | .arrive a =>
      if a.accepted && a.created && a.named then
        ({ p with sessions := p.sessions ++ [a.session] }, [])
      else (p, [])
    | .turn k t =>
      let r := (worker env).thread k (p.globals, t) p.sessions
      ({ p with sessions := r.1, status := if anyFault r.1 then .fault else .running }, r.2)
    | .signal signo loaded => (p.signal signo loaded, [])
  | _ => (p, [])

/-! ### Every session runs as it does alone -/

/-- A move that makes a thread step as `ok` has it, if it does. -/
def Allows (ok : ℕ → Session → Globals × Turn → Prop) (p : Process) : Move → Prop
  | .turn k t => ∀ s ∈ p.sessions[k]?, ok k s (p.globals, t)
  | _ => True

instance {ok : ℕ → Session → Globals × Turn → Prop} [∀ k s i, Decidable (ok k s i)] (p : Process) :
    (move : Move) → Decidable (Allows ok p move)
  | .turn k t => inferInstanceAs (Decidable (∀ s ∈ p.sessions[k]?, ok k s (p.globals, t)))
  | .arrive _ => isTrue trivial
  | .signal _ _ => isTrue trivial

/-- The connection `a` has started thread `k` of the process. -/
def Connection (env : Env) (p : Process) (moves : List Move) (k : ℕ) (a : Arrival) : Prop :=
  ∃ before after, moves = before ++ .arrive a :: after ∧
    ((eduserver env).run p before).1.sessions.length = k ∧
    ((eduserver env).run p before).1.status = .running ∧
    (a.accepted && a.created && a.named) = true

theorem Connection.mem {env : Env} {p : Process} {moves : List Move} {k : ℕ} {a : Arrival}
    (h : Connection env p moves k a) : .arrive a ∈ moves := by
  obtain ⟨before, after, rfl, -⟩ := h
  simp

/-- The step of a thread in a move, with the globals that it reads. -/
def stepOf (p : Process) : Move → List (ℕ × (Globals × Turn))
  | .turn k t => if p.status = .running then Machine.given k (p.globals, t) p.sessions else []
  | _ => []

/-- The steps of the threads in a run. -/
def stepsOf (env : Env) (p : Process) (moves : List Move) : List (ℕ × (Globals × Turn)) :=
  (eduserver env).along stepOf p moves

section Alone

variable {env : Env} {ok : ℕ → Session → Globals × Turn → Prop} {p : Process}
  {es : List (ℕ × Event)} {move : Move} {moves : List Move}

/-- What thread `k` starts as. -/
def Started (env : Env) (p : Process) (moves : List Move) (k : ℕ) (s : Session) : Prop :=
  ∃ a, Connection env p moves k a ∧ s = a.session

theorem signal_sessions (p : Process) (signo : ℕ) (loaded : Option (Bytes → Get)) :
    (p.signal signo loaded).sessions = p.sessions := by
  unfold Process.signal
  split
  · unfold Process.reloadPassdb
    split <;> rfl
  · rfl
  · rfl
  · rfl

/-- Every session of a run is where a run of its own has led it: from the connection that has
started it, by its own steps. -/
theorem alone_run (argv : List Bytes) (passdb : Option (Bytes → Get))
    (hmeets : (eduserver env).Meets (fun p move => p.status = .running → Allows ok p move)
      (serve argv passdb) moves) :
    (worker env).Alone (Started env (serve argv passdb) moves) ok
      (stepsOf env (serve argv passdb) moves)
      ((eduserver env).run (serve argv passdb) moves).1.sessions
      ((eduserver env).run (serve argv passdb) moves).2 := by
  -- a move that starts a thread is the connection of that thread
  let starts : Process → Move → Prop := fun p move => ∀ a, move = .arrive a → p.status = .running →
    (a.accepted && a.created && a.named) = true →
      Connection env (serve argv passdb) moves p.sessions.length a
  have hall : (eduserver env).Meets
      (fun p move => (p.status = .running → Allows ok p move) ∧ starts p move)
      (serve argv passdb) moves := by
    refine Machine.meets_iff_forall.mpr fun before move after hsplit =>
      ⟨Machine.meets_iff_forall.mp hmeets before move after hsplit, ?_⟩
    rintro a rfl hrunning htaken
    exact ⟨before, after, hsplit, rfl, hrunning, htaken⟩
  have step : ∀ (p : Process) (es : List (ℕ × Event)) (is : List (ℕ × (Globals × Turn)))
      (move : Move), (p.status = .running → Allows ok p move) ∧ starts p move →
      (worker env).Alone (Started env (serve argv passdb) moves) ok is p.sessions es →
      (worker env).Alone (Started env (serve argv passdb) moves) ok (is ++ stepOf p move)
        (eduserver env p move).1.sessions (es ++ (eduserver env p move).2) := by
    rintro p es is move ⟨hallows, hstarts⟩ h
    unfold eduserver
    split
    · next hrunning =>
      cases move with
      | arrive a =>
        dsimp only
        split
        · next htaken =>
          simpa [stepOf] using h.start ⟨a, hstarts a rfl hrunning htaken, rfl⟩
        · simpa [stepOf] using h
      | turn k t =>
        rw [stepOf, if_pos hrunning]
        exact h.step fun s hs => hallows hrunning s hs
      | signal signo loaded => simpa [stepOf, signal_sessions] using h
    · next hstopped =>
      have hnone : stepOf p move = [] := by
        cases move with
        | turn k t => exact if_neg hstopped
        | _ => rfl
      simpa [hnone] using h
  have start : (worker env).Alone (Started env (serve argv passdb) moves) ok []
      (serve argv passdb).sessions [] := .nil
  exact Machine.run_induction_along step start hall

end Alone

/-! ### Colleges -/

/-- The names that the session scans in a step are plain. -/
def PlainNames (_ : ℕ) (s : Session) (i : Globals × Turn) : Prop :=
  NamesMeet PlainName s { i.2 with acceptimage := i.1.acceptimage }

instance (k : ℕ) (s : Session) (i : Globals × Turn) : Decidable (PlainNames k s i) :=
  inferInstanceAs (Decidable (NamesMeet PlainName s _))

/-- The number a session was started for, once its stores are open. -/
def Process.college (p : Process) (k : ℕ) : Option ℤ := p.sessions[k]?.map Session.college

section Colleges

variable {env : Env} {cwd : Place} {argv : List Bytes} {passdb : Option (Bytes → Get)}
  {moves : List Move}

/-- A session whose client sends only plain names keeps to the stores of its college. -/
theorem kept_thread {p p' : Process} {is : List (ℕ × (Globals × Turn))} {es : List (ℕ × Event)}
    (h : (worker env).Alone (Started env p' moves) PlainNames is p.sessions es) {k : ℕ}
    {s : Session} (hk : p.sessions[k]? = some s) : Kept cwd s (ofThread k es) := by
  refine h.invariant (fun s₀ hs₀ => ?_) (fun s es i hok hkept => ?_) hk
  · obtain ⟨a, -, rfl⟩ := hs₀
    exact Or.inl ⟨trivial, by simp⟩
  · exact kept_step s es _ hok hkept

/-- What a session does touches no store of another college. -/
theorem Kept.apart {s : Session} {es : List Event} (h : Kept cwd s es) {e : Event} (he : e ∈ es)
    {session college : ℤ} (hother : college ≠ s.college) :
    (∀ rest, ¬ e.TouchesFile cwd (cwd ++ collegeDir session college ++ rest)) ∧
      ∀ key, ¬ e.TouchesRecord cwd (cwd ++ collegeDb session college) key := by
  have hconf : ∃ session, e.Confined cwd session s.college := by
    rcases h with ⟨-, hnone⟩ | ⟨-, session, -, hconf⟩
    · exact ⟨0, Event.confined_of_not_isEffect (hnone e he) cwd _ _⟩
    · exact ⟨session, hconf e he⟩
  obtain ⟨session', hconf⟩ := hconf
  have hname : institute s.college ≠ institute college := fun heq =>
    hother (printInt04_injective (List.append_cancel_left heq)).symm
  constructor
  · intro rest
    cases e with
    | openTrunc path | writeAt path offset data =>
      obtain ⟨entry, hplace⟩ := hconf
      simp [Event.TouchesFile, hplace, collegeDir, hname]
    | _ => exact id
  · intro key
    cases e with
    | put db key' data =>
      have hplace : resolve cwd db = cwd ++ collegeDb session' s.college := hconf
      simp [Event.TouchesRecord, hplace, collegeDb, hname]
    | _ => exact id

/-- **Colleges are kept apart.** However many clients connect, in whatever order they send and
are served, and whenever the password database is reloaded: when they send only plain names,
the files and the records of a college are those its own sessions leave behind, as if nobody
else had connected, and each of these sessions runs as it does alone, from its own connection and
by its own steps. -/
theorem colleges_apart (env : Env) (cwd : Place) (argv : List Bytes)
    (passdb : Option (Bytes → Get)) {moves : List Move}
    (hnames : (eduserver env).Meets (Allows PlainNames) (serve argv passdb) moves) :
    let r := (eduserver env).run (serve argv passdb) moves
    (worker env).Alone (Started env (serve argv passdb) moves) PlainNames
      (stepsOf env (serve argv passdb) moves) r.1.sessions r.2 ∧
    ∀ (w : World) (session college : ℤ),
      let all := r.2.map Prod.snd
      let own := (r.2.filter fun e => r.1.college e.1 = some college).map Prod.snd
      (∀ rest, (w.after cwd all).file (cwd ++ collegeDir session college ++ rest) =
        (w.after cwd own).file (cwd ++ collegeDir session college ++ rest)) ∧
      ∀ key, (w.after cwd all).record (cwd ++ collegeDb session college) key =
        (w.after cwd own).record (cwd ++ collegeDb session college) key := by
  intro r
  have halone := alone_run argv passdb (hnames.mono fun _ _ h _ => h)
  refine ⟨halone, ?_⟩
  intro w session college all own
  -- what touches a store of the college comes from one of its sessions
  have hown : ∀ e ∈ r.2, ((∃ rest, e.2.TouchesFile cwd
        (cwd ++ collegeDir session college ++ rest)) ∨
      ∃ key, e.2.TouchesRecord cwd (cwd ++ collegeDb session college) key) →
      r.1.college e.1 = some college := by
    rintro ⟨k, e⟩ he htouch
    obtain ⟨s, hs, hmem⟩ := halone.exists_of_mem he
    have hkept := @kept_thread env cwd _ _ _ _ _ halone k s hs
    by_contra hne
    have hother : college ≠ s.college := fun heq => hne (by
      simp only [Process.college]
      rw [hs, heq, Option.map_some])
    obtain ⟨hfile, hrecord⟩ := @Kept.apart cwd s _ hkept e hmem session college hother
    rcases htouch with ⟨rest, hrest⟩ | ⟨key, hkey⟩
    · exact hfile rest hrest
    · exact hrecord key hkey
  constructor
  · intro rest
    rw [← World.after_file_filter _ _ all, ← World.after_file_filter _ _ own]
    let touches : Event → Bool := fun e =>
      e.TouchesFile cwd (cwd ++ collegeDir session college ++ rest)
    have hsame : all.filter touches = own.filter touches := map_snd_filter_congr fun e he htouch =>
      decide_eq_true (hown e he (Or.inl ⟨rest, of_decide_eq_true htouch⟩))
    exact congrArg (fun es => (w.after cwd es).file _) hsame
  · intro key
    rw [← World.after_record_filter _ _ _ all, ← World.after_record_filter _ _ _ own]
    let touches : Event → Bool := fun e =>
      e.TouchesRecord cwd (cwd ++ collegeDb session college) key
    have hsame : all.filter touches = own.filter touches := map_snd_filter_congr fun e he htouch =>
      decide_eq_true (hown e he (Or.inr ⟨key, of_decide_eq_true htouch⟩))
    exact congrArg (fun es => (w.after cwd es).record _ key) hsame

end Colleges

/-- A password database with the colleges 0001 and 0002. -/
def samplePassdb : Bytes → Get := fun user =>
  if user = ascii "0001" ∨ user = ascii "0002" then .found samplePassword else .failed (-30990)

/-- A college connects and sends a form of one line. -/
def sampleArrival (user line : String) : Arrival where
  stream := sampleMagic ++ ascii "USER " ++ ascii user ++ ascii "\nPASS " ++ samplePassword.pass ++
    ascii "FILENAME M_0001_A_0001_0.txt\n" ++ ascii line ++ ascii ".\n"
  eof := true
  clock := 1120000000
  user := []
  tmpname := []

/-- Two colleges send at the same time, and the password database is reloaded meanwhile. -/
def sampleMoves : List Move :=
  [.arrive (sampleArrival "0001" "ab\n"), .arrive (sampleArrival "0002" "cd\n")] ++
    (List.replicate 5 [.turn 0 sampleTurn, .turn 1 sampleTurn]).flatten ++
    .signal SIGHUP (some samplePassdb) ::
    (List.replicate 5 [.turn 1 sampleTurn, .turn 0 sampleTurn]).flatten

theorem colleges_apart_sample :
    let r := (eduserver sampleEnv).run (serve [] (some samplePassdb)) sampleMoves
    (worker sampleEnv).Alone (Started sampleEnv (serve [] (some samplePassdb)) sampleMoves)
      PlainNames (stepsOf sampleEnv (serve [] (some samplePassdb)) sampleMoves) r.1.sessions r.2 ∧
    ∀ (w : World) (session college : ℤ),
      let all := r.2.map Prod.snd
      let own := (r.2.filter fun e => r.1.college e.1 = some college).map Prod.snd
      (∀ rest, (w.after [] all).file ([] ++ collegeDir session college ++ rest) =
        (w.after [] own).file ([] ++ collegeDir session college ++ rest)) ∧
      ∀ key, (w.after [] all).record ([] ++ collegeDb session college) key =
        (w.after [] own).record ([] ++ collegeDb session college) key :=
  colleges_apart sampleEnv [] [] (some samplePassdb) (by decide)

end Esif.Server
