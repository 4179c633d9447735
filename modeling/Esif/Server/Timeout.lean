import Esif.Server.Login
import Esif.Server.Serve

/-!
# The exit for a timeout

The command loop tests `errno` behind `readline`, whatever `readline` returned. A call that
succeeds leaves `errno` alone, so the test can find what an earlier call has left there: a read
of a photo that timed out, or a reply about a photo whose result is not looked at.

## Main definitions

* `errnoAfter` — `errno` behind some calls
* `IsCommand` — a line the loop carries out
* `RealTimeout` — the exit is only taken when this call of `readline` timed out
* `Stale` — an old timeout is still in `errno`, and this call does not overwrite it
* `prompt` — no call of the step times out whose result nobody looks at

## Main results

* `readline_marks` — what `readline` leaves in `errno`
* `realTimeout_iff` — one step
* `untimed_run` — where runs of prompt steps can meet a timeout
* `timeout_exit_iff` — every run
-/

namespace Esif.Posix

/-! ### What a call leaves in `errno` -/

/-- `errno` behind some calls: the error of the last one that failed. -/
def errnoAfter (errno : Errno) : List Outcome → Errno
  | [] => errno
  | .upTo _ :: os => errnoAfter errno os
  | .fails e :: os => errnoAfter e os

theorem errnoAfter_append (errno : Errno) (os os' : List Outcome) :
    errnoAfter errno (os ++ os') = errnoAfter (errnoAfter errno os) os' := by
  induction os generalizing errno with
  | nil => rfl
  | cons o os ih =>
    cases o with
    | upTo k => exact ih errno
    | fails e => exact ih e

theorem errnoAfter_of_none {os : List Outcome} (h : ∀ e, .fails e ∉ os) (errno : Errno) :
    errnoAfter errno os = errno := by
  induction os with
  | nil => rfl
  | cons o os ih =>
    cases o with
    | upTo k => exact ih fun e he => h e (List.mem_cons_of_mem _ he)
    | fails e => exact absurd List.mem_cons_self (h e)

/-- Behind calls that were interrupted at worst. -/
theorem errnoAfter_of_eintr {os : List Outcome} (h : ∀ e, .fails e ∈ os → e = .eintr)
    (errno : Errno) : errnoAfter errno os = .eintr ∨ ∀ e, .fails e ∉ os := by
  induction os generalizing errno with
  | nil => exact Or.inr fun e he => absurd he List.not_mem_nil
  | cons o os ih =>
    have htail : ∀ e, .fails e ∈ os → e = .eintr := fun e he => h e (List.mem_cons_of_mem o he)
    cases o with
    | upTo k => exact (ih htail errno).imp_right fun hnone e he => hnone e (by simpa using he)
    | fails e =>
      obtain rfl : e = .eintr := h e List.mem_cons_self
      rcases ih htail .eintr with heintr | hnone
      · exact Or.inl heintr
      · exact Or.inl (errnoAfter_of_none hnone .eintr)

/-- The calls `used` of a function that calls again when it is interrupted, with the `errno` it
leaves: only the last of them can have failed otherwise, and then the function has failed. -/
structure Marks (errno : Errno) (used : List Outcome) (failed : Prop) (errno' : Errno) : Prop where
  errno_eq : errno' = errnoAfter errno used
  last : failed → ∃ before e, e ≠ .eintr ∧ used = before ++ [.fails e]
  eintr : ¬ failed → ∀ e, .fails e ∈ used → e = .eintr

theorem Marks.nil (errno : Errno) : Marks errno [] False errno :=
  ⟨rfl, False.elim, fun _ _ he => absurd he List.not_mem_nil⟩

theorem Marks.congr {errno errno' : Errno} {used : List Outcome} {failed failed' : Prop}
    (h : Marks errno used failed errno') (hiff : failed ↔ failed') :
    Marks errno used failed' errno' :=
  ⟨h.errno_eq, fun hf => h.last (hiff.mpr hf), fun hf => h.eintr fun h' => hf (hiff.mp h')⟩

/-- Calls that did not fail, and those behind them. -/
theorem Marks.append {errno errno' errno'' : Errno} {used used' : List Outcome} {failed : Prop}
    (h : Marks errno used False errno') (h' : Marks errno' used' failed errno'') :
    Marks errno (used ++ used') failed errno'' where
  errno_eq := by rw [errnoAfter_append, ← h.errno_eq, h'.errno_eq]
  last hfailed := by
    obtain ⟨before, e, he, rfl⟩ := h'.last hfailed
    exact ⟨used ++ before, e, he, (List.append_assoc _ _ _).symm⟩
  eintr hok e he := by
    rcases List.mem_append.mp he with hmem | hmem
    · exact h.eintr id e hmem
    · exact h'.eintr hok e hmem

/-- A call that moved bytes. -/
theorem Marks.upTo (errno : Errno) (k : ℕ) : Marks errno [.upTo k] False errno :=
  ⟨rfl, False.elim, fun _ _ he => absurd (List.mem_singleton.mp he) (by simp)⟩

/-- A call that was interrupted. -/
theorem Marks.interrupted (errno : Errno) : Marks errno [.fails .eintr] False .eintr :=
  ⟨rfl, False.elim, fun _ _ he => Outcome.fails.inj (List.mem_singleton.mp he)⟩

/-- A call that failed otherwise. -/
theorem Marks.fails (errno : Errno) {e : Errno} (he : e ≠ .eintr) :
    Marks errno [.fails e] True e :=
  ⟨rfl, fun _ => ⟨[], e, he, rfl⟩, fun h => absurd trivial h⟩

/-- What a function that reads leaves in `errno`, with the calls it made. -/
def MarksReads (net net' : Net) (failed : Prop) : Prop :=
  ∃ used, net.reads = used ++ net'.reads ∧ Marks net.errno used failed net'.errno

theorem Conn.read_data_outcome {c c' : Conn} {n : ℕ} {o : Outcome} {bs : Bytes}
    (h : c.read n o = some (.data bs, c')) : ∃ k, o = .upTo k := by
  cases o with
  | upTo k => exact ⟨k, rfl⟩
  | fails e => simp [Conn.read] at h

theorem refill_marks {conn : Conn} {writes : List Outcome} (reads : List Outcome) :
    ∀ {errno : Errno} {m : MyRead} {tsd' : Rline} {net' : Net},
      refill conn errno writes reads = some (m, tsd', net') →
      MarksReads ⟨conn, errno, reads, writes⟩ net' (m = .error) := by
  induction reads with
  | nil => intro errno m tsd' net' h; simp [refill] at h
  | cons o reads ih =>
    intro errno m tsd' net' h
    unfold refill at h
    split at h
    · cases h
    · next conn' hread =>
      obtain rfl := Conn.read_error hread
      obtain rfl := Conn.read_error_outcome hread
      obtain ⟨used, hused, hmarks⟩ := ih h
      exact ⟨.fails .eintr :: used, congrArg (Outcome.fails .eintr :: ·) hused,
        (Marks.interrupted errno).append hmarks⟩
    · next e conn' he hread =>
      obtain rfl := Conn.read_error_outcome hread
      obtain ⟨rfl, rfl, rfl⟩ : MyRead.error = m ∧ _ = tsd' ∧ _ = net' := by simpa using h
      exact ⟨[.fails e], rfl, (Marks.fails errno he).congr (by simp)⟩
    · next conn' hread =>
      obtain ⟨rfl, rfl, rfl⟩ : MyRead.eof = m ∧ _ = tsd' ∧ _ = net' := by simpa using h
      obtain ⟨k, rfl⟩ := Conn.read_data_outcome hread
      exact ⟨[.upTo k], rfl, (Marks.upTo errno k).congr (by simp)⟩
    · next b bs conn' hread =>
      obtain ⟨rfl, rfl, rfl⟩ : MyRead.byte b = m ∧ _ = tsd' ∧ _ = net' := by simpa using h
      obtain ⟨k, rfl⟩ := Conn.read_data_outcome hread
      exact ⟨[.upTo k], rfl, (Marks.upTo errno k).congr (by simp)⟩

theorem myRead_marks {tsd tsd' : Rline} {net net' : Net} {m : MyRead}
    (h : myRead tsd net = some (m, tsd', net')) : MarksReads net net' (m = .error) := by
  obtain ⟨buf, pos⟩ := tsd
  cases buf with
  | nil => exact refill_marks net.reads h
  | cons b bs =>
    obtain ⟨rfl, rfl, rfl⟩ : MyRead.byte b = m ∧ _ = tsd' ∧ net = net' := by
      simpa [myRead] using h
    exact ⟨[], rfl, (Marks.nil net.errno).congr (by simp)⟩

theorem readlineLoop_marks (room : ℕ) :
    ∀ {stored : Bytes} {tsd : Rline} {net : Net} {r : Readline},
      readlineLoop stored tsd net room = some r → MarksReads net r.net (r.ret = -1) := by
  -- on the room in the array; every byte is one call of `my_read`
  induction room with
  | zero =>
    intro stored tsd net r h
    obtain rfl := Option.some.inj h
    have hret : False ↔ (stored.length + 1 : ℤ) = -1 := iff_of_false id (by omega)
    exact ⟨[], rfl, (Marks.nil net.errno).congr hret⟩
  | succ room ih =>
    intro stored tsd net r h
    unfold readlineLoop at h
    split at h
    · cases h
    · next b tsd' net' hread =>
      obtain ⟨used, hused, hmarks⟩ := myRead_marks hread
      replace hmarks := @Marks.congr _ _ _ _ False hmarks (by simp)
      split_ifs at h
      · obtain rfl := Option.some.inj h
        have hret : False ↔ (stored.length + 1 : ℤ) = -1 := iff_of_false id (by omega)
        exact ⟨used, hused, hmarks.congr hret⟩
      · obtain ⟨used', hused', hrest⟩ := ih h
        exact ⟨used ++ used', by rw [hused, hused', List.append_assoc], hmarks.append hrest⟩
    · next tsd' net' hread =>
      obtain ⟨used, hused, hmarks⟩ := myRead_marks hread
      split_ifs at h
      · obtain rfl := Option.some.inj h
        exact ⟨used, hused, hmarks.congr (by simp)⟩
      · obtain rfl := Option.some.inj h
        have hret : MyRead.eof = MyRead.error ↔ (stored.length + 1 : ℤ) = -1 := by
          simp only [reduceCtorEq, false_iff]
          omega
        exact ⟨used, hused, hmarks.congr hret⟩
    · next tsd' net' hread =>
      obtain rfl := Option.some.inj h
      obtain ⟨used, hused, hmarks⟩ := myRead_marks hread
      exact ⟨used, hused, hmarks.congr (by simp)⟩

/-- `readline` returns -1 when its last `read` failed, and leaves that error in `errno`.
Otherwise no `read` of it failed but by an interruption, and without one `errno` is what it was
before. -/
theorem readline_marks {maxlen : ℕ} {tsd : Rline} {net : Net} {r : Readline}
    (h : readline maxlen tsd net = some r) : MarksReads net r.net (r.ret = -1) :=
  readlineLoop_marks (maxlen - 1) h

/-- What `writen` leaves in `errno`: what was there, or what a call of its own has left, and only
an interruption when it has written all. -/
theorem writenLoop_errno {n : ℕ} {conn : Conn} {reads : List Outcome} (writes : List Outcome) :
    ∀ {sent left : Bytes} {errno : Errno} {w : Writen},
      writenLoop n sent left conn errno reads writes = some w →
      (w.net.errno = errno ∨ .fails w.net.errno ∈ writes) ∧
        (w.ret = -1 ∨ w.net.errno = errno ∨ w.net.errno = .eintr) := by
  induction writes with
  | nil =>
    intro sent left errno w h
    unfold writenLoop at h
    split_ifs at h
    obtain rfl := Option.some.inj h
    exact ⟨Or.inl rfl, Or.inr (Or.inl rfl)⟩
  | cons o writes ih =>
    intro sent left errno w h
    unfold writenLoop at h
    split_ifs at h
    · obtain rfl := Option.some.inj h
      exact ⟨Or.inl rfl, Or.inr (Or.inl rfl)⟩
    · split at h
      · obtain ⟨hmem, hret⟩ := ih h
        refine ⟨Or.inr ?_, hret.imp_right fun heq => Or.inr (heq.elim id id)⟩
        rcases hmem with heq | hmem
        · simp [heq]
        · exact List.mem_cons_of_mem _ hmem
      · obtain rfl := Option.some.inj h
        exact ⟨Or.inr (by simp), Or.inl rfl⟩
      · obtain ⟨hmem, hret⟩ := ih h
        exact ⟨hmem.imp_right (List.mem_cons_of_mem _), hret⟩

/-- What `readn` leaves in `errno` when it has not failed. -/
theorem readnLoop_errno {n : ℕ} {writes : List Outcome} (reads : List Outcome) :
    ∀ {got : Bytes} {conn : Conn} {errno : Errno} {r : Readn},
      readnLoop n got conn errno writes reads = some r →
      r.ret = -1 ∨ r.net.errno = errno ∨ r.net.errno = .eintr := by
  induction reads with
  | nil =>
    intro got conn errno r h
    rw [readnLoop] at h
    split_ifs at h
    obtain rfl := Option.some.inj h
    exact Or.inr (Or.inl rfl)
  | cons o reads ih =>
    intro got conn errno r h
    rw [readnLoop] at h
    split_ifs at h
    · obtain rfl := Option.some.inj h
      exact Or.inr (Or.inl rfl)
    · split at h
      · cases h
      · exact (ih h).imp_right fun heq => Or.inr (heq.elim id id)
      · obtain rfl := Option.some.inj h
        exact Or.inl rfl
      · obtain rfl := Option.some.inj h
        exact Or.inr (Or.inl rfl)
      · exact ih h

end Esif.Posix

namespace Esif.Server

open Esif.CS Esif.Posix

/-! ### The exit -/

/-- The call of `readline` at the head of the command loop. -/
def headRead (s : Session) (t : Turn) : Option Readline :=
  Posix.readline MAXLINE s.tsd ⟨s.conn, s.errno, t.reads, []⟩

/-- The session behind that call. -/
def Session.behind (s : Session) (r : Readline) : Session :=
  { s with
    conn := r.net.conn, errno := r.net.errno, tsd := r.tsd
    buffer := store (if (0 : ℤ) < r.ret then r.stored ++ [nul] else r.stored) s.buffer }

/-- The exit for a timeout is taken: the test of the loop on `errno`. -/
def ExitsTimedOut (s : Session) (t : Turn) (r : Readline) : Prop :=
  s.phase = .command ∧ headRead s t = some r ∧ r.net.errno = .ewouldblock

/-- A line the loop carries out: `QUIT`, or the announcement of a form or a photo. -/
def IsCommand (line : Bytes) : Prop :=
  endsLine line = true ∧ (ascii "QUIT\n" <+: line ∨
    9 ≤ line.length ∧ (ascii "BINARY " <+: line ∨ ascii "FILENAME " <+: line))

/-- The step leaves by the exit for a timeout only when the last `read` of this `readline` timed
out; and it carries out a command that `readline` delivered. -/
structure RealTimeout (env : Env) (s : Session) (t : Turn) : Prop where
  exit : ∀ r, ExitsTimedOut s t r →
    r.ret = -1 ∧ ∃ before, t.reads = before ++ .fails .ewouldblock :: r.net.reads
  executes : ∀ r, s.phase = .command → headRead s t = some r → 0 < r.ret → IsCommand r.stored →
    (act env (s.wait t) t).isSome = true → .command s.linePos r.stored ∈ (manageClient env s t).2

/-- `errno` is that of an old timeout, and no `read` of this `readline` fails. -/
def Stale (s : Session) (t : Turn) : Prop :=
  s.phase = .command ∧ s.errno = .ewouldblock ∧
    ∃ r used, headRead s t = some r ∧ t.reads = used ++ r.net.reads ∧ ∀ e, .fails e ∉ used

/-- The exit is taken without a timeout exactly when an old one is found. -/
theorem exit_iff {s : Session} {t : Turn} :
    (∀ r, ExitsTimedOut s t r →
      r.ret = -1 ∧ ∃ before, t.reads = before ++ .fails .ewouldblock :: r.net.reads) ↔
      ¬ Stale s t := by
  constructor
  · rintro hexit ⟨hphase, herrno, r, used, hread, hused, hnone⟩
    obtain ⟨used', hused', hmarks⟩ := readline_marks hread
    obtain rfl : used = used' := List.append_cancel_right (hused.symm.trans hused')
    have hsame : r.net.errno = .ewouldblock := by
      rw [hmarks.errno_eq, errnoAfter_of_none hnone]
      exact herrno
    obtain ⟨hret, -⟩ := hexit r ⟨hphase, hread, hsame⟩
    obtain ⟨before, e, -, rfl⟩ := hmarks.last hret
    exact hnone e (by simp)
  · rintro hstale r ⟨hphase, hread, herrno⟩
    obtain ⟨used, hused, hmarks⟩ := readline_marks hread
    by_cases hret : r.ret = -1
    · -- the error of the last `read` is the one the test finds
      obtain ⟨before, e, -, rfl⟩ := hmarks.last hret
      have he : r.net.errno = e := by rw [hmarks.errno_eq, errnoAfter_append]; rfl
      obtain rfl : e = .ewouldblock := he.symm.trans herrno
      exact ⟨hret, before, by simpa using hused⟩
    · rcases errnoAfter_of_eintr (hmarks.eintr hret) s.errno with heintr | hnone
      · rw [hmarks.errno_eq] at herrno
        exact absurd (heintr.symm.trans herrno) (by decide)
      · refine absurd ⟨hphase, ?_, r, used, hread, hused, hnone⟩ hstale
        rw [hmarks.errno_eq, errnoAfter_of_none hnone] at herrno
        exact herrno

/-- A command that was delivered is carried out when the exit is not taken. -/
theorem command_executed (env : Env) {s : Session} {t : Turn} {r : Readline}
    (hphase : s.phase = .command) (hread : headRead s t = some r)
    (herrno : r.net.errno ≠ .ewouldblock) (hret : 0 < r.ret) (hcommand : IsCommand r.stored)
    (hacts : (act env (s.wait t) t).isSome = true) :
    .command s.linePos r.stored ∈ (manageClient env s t).2 := by
  have hread' : (s.wait t).readline t.reads = some (r.ret, r.stored, (s.wait t).behind r) :=
    congrArg (Option.map _) hread
  have hline := Session.readline_cases hread'
  obtain ⟨hends, hword⟩ := hcommand
  -- the line ends with its newline, so `ret` is its length
  have hlen : r.ret = r.stored.length := by
    rcases hline.ret with herr | ⟨hzero, -⟩ | ⟨hlen, -⟩
    · omega
    · omega
    · simpa [hends] using hlen
  obtain ⟨⟨s', es⟩, hact⟩ := Option.isSome_iff_exists.mp hacts
  have hevents : (manageClient env s t).2 = es := by rw [manageClient, hact]; rfl
  rw [hevents]
  have hbuffer : ∀ lit : Bytes, nul ∉ lit →
      strncmp ((s.wait t).behind r).buffer lit = lit.isPrefixOf r.stored := fun lit hlit =>
    hline.strncmp_eq hret hlit
  have hstart : (s.wait t).linePos = s.linePos := rfl
  simp only [act, show (s.wait t).phase = .command from hphase, readCommand, Option.bind_eq_bind,
    hread', Option.bind_some, show ((s.wait t).behind r).errno = r.net.errno from rfl, herrno,
    if_false, hbuffer (ascii "QUIT\n") (by decide), hbuffer (ascii "BINARY ") (by decide),
    hbuffer (ascii "FILENAME ") (by decide), hret, if_true, hstart] at hact
  -- the tests of the loop, in their order
  split_ifs at hact with hquit hshort hbinary hform
  · obtain ⟨-, rfl⟩ := Prod.mk.inj (Option.some.inj hact)
    exact List.mem_singleton_self _
  · rcases hword with hq | ⟨hlong, -⟩
    · exact absurd (List.isPrefixOf_iff_prefix.mpr hq) hquit
    · omega
  · obtain ⟨⟨s'', es'⟩, -, heq⟩ := Option.bind_eq_some_iff.mp hact
    obtain ⟨-, rfl⟩ := Prod.mk.inj (Option.some.inj heq)
    exact List.mem_cons_self
  · rcases hword with hq | ⟨-, hb | hf⟩
    · exact absurd (List.isPrefixOf_iff_prefix.mpr hq) hquit
    · exact absurd (List.isPrefixOf_iff_prefix.mpr hb) hbinary
    · rw [List.isPrefixOf_iff_prefix.mpr hf] at hform
      exact absurd hform (by decide)
  · obtain ⟨-, rfl⟩ := Prod.mk.inj (Option.some.inj hact)
    exact List.mem_cons_self

/-- One step. -/
theorem realTimeout_iff (env : Env) (s : Session) (t : Turn) :
    RealTimeout env s t ↔ ¬ Stale s t := by
  constructor
  · intro h
    exact exit_iff.mp h.exit
  · intro hstale
    refine ⟨exit_iff.mpr hstale, fun r hphase hread hret hcommand hacts => ?_⟩
    have herrno : r.net.errno ≠ .ewouldblock := fun herrno => by
      have hexit := (exit_iff.mpr hstale r ⟨hphase, hread, herrno⟩).1
      omega
    exact command_executed env hphase hread herrno hret hcommand hacts

/-! ### Where an old timeout comes from -/

/-- No call of the step times out whose result nobody looks at: the `read`s of a photo, and the
replies about photos. -/
def prompt (s : Session) (t : Turn) : Bool :=
  match s.phase with
  | .payload _ _ _ => t.reads.head? != some (.fails .ewouldblock)
  | .command => !t.writes.contains (.fails .ewouldblock)
  | .imageReply _ => !t.writes.contains (.fails .ewouldblock)
  | _ => true

/-- The session is over, or about to be. -/
def Phase.Leaving : Phase → Prop
  | .abandon true | .done | .fault => True
  | _ => False

/-- A timeout in `errno` is that of a call that has ended the session. -/
def Untimed (s : Session) : Prop := s.errno = .ewouldblock → s.phase.Leaving

theorem untimed_of_ne {s : Session} (h : s.errno ≠ .ewouldblock) : Untimed s :=
  fun herrno => absurd herrno h

theorem untimed_of_leaving {s : Session} (h : s.phase.Leaving) : Untimed s := fun _ => h

section Untimed

variable {env : Env} {s s' m : Session} {t : Turn} {es sent : List Event} {ret : ℤ} {bs : Bytes}
variable {reads writes : List Outcome}

theorem untimed_left (h : (m, sent) = (s', es)) (hleaving : m.phase.Leaving) : Untimed s' := by
  obtain ⟨rfl, -⟩ := Prod.mk.inj h
  exact untimed_of_leaving hleaving

theorem untimed_kept (h : (m, sent) = (s', es)) (herrno : m.errno ≠ .ewouldblock) :
    Untimed s' := by
  obtain ⟨rfl, -⟩ := Prod.mk.inj h
  exact untimed_of_ne herrno

theorem readn_untimed {n : ℕ} {got : Bytes} (herrno : s.errno ≠ .ewouldblock)
    (h : s.readn n reads = some (ret, got, m)) (hret : ¬ ret < n) : m.errno ≠ .ewouldblock := by
  obtain ⟨r, hr, heq⟩ := Option.map_eq_some_iff.mp h
  obtain ⟨rfl, -, rfl⟩ : r.ret = ret ∧ r.got = got ∧ _ = m := by simpa using heq
  rcases readnLoop_errno reads hr with hfailed | hsame | heintr
  · omega
  · exact hsame.trans_ne herrno
  · exact heintr.trans_ne (by decide)

theorem writen_untimed (herrno : s.errno ≠ .ewouldblock)
    (h : s.writen bs writes = some (ret, m, sent))
    (hcall : ret ≠ -1 ∨ .fails .ewouldblock ∉ writes) : m.errno ≠ .ewouldblock := by
  obtain ⟨w, hw, heq⟩ := Option.map_eq_some_iff.mp h
  obtain ⟨rfl, rfl, -⟩ : w.ret = ret ∧ _ = m ∧ _ = sent := by simpa using heq
  obtain ⟨hmem, hret⟩ := writenLoop_errno writes hw
  intro htimed
  change w.net.errno = .ewouldblock at htimed
  rcases hcall with hcall | hcall
  · rcases hret with hfailed | hsame | heintr
    · exact hcall hfailed
    · exact herrno (hsame.symm.trans htimed)
    · exact absurd (heintr.symm.trans htimed) (by decide)
  · rcases hmem with hsame | hmem
    · exact herrno (hsame.symm.trans htimed)
    · exact hcall (htimed ▸ hmem)

theorem refuse_untimed (h : s.refuse bs writes = some (s', es)) : Untimed s' := by
  obtain ⟨errno, sent, rfl, -⟩ := Session.refuse_cases h
  exact untimed_of_leaving trivial

theorem accept_untimed {next : Phase} (herrno : s.errno ≠ .ewouldblock)
    (h : s.accept bs writes next = some (s', es)) : Untimed s' := by
  obtain ⟨⟨ret, m, sent⟩, hw, heq⟩ := Option.map_eq_some_iff.mp h
  dsimp only at heq
  split_ifs at heq with hret
  · exact untimed_left heq trivial
  · obtain ⟨rfl, -⟩ := Prod.mk.inj heq
    have hne : ret ≠ -1 := by
      have hret' : ret = bs.length := not_not.mp hret
      omega
    have hm := writen_untimed herrno hw (Or.inl hne)
    exact untimed_of_ne hm

/-- A call of `readline` that has delivered something. -/
theorem readline_untimed {line : Bytes} (herrno : s.errno ≠ .ewouldblock)
    (h : s.readline reads = some (ret, line, m)) (hret : ret ≠ -1) : m.errno ≠ .ewouldblock := by
  obtain ⟨r, hr, heq⟩ := Option.map_eq_some_iff.mp h
  obtain ⟨rfl, -, rfl⟩ : r.ret = ret ∧ r.stored = line ∧ _ = m := by simpa using heq
  obtain ⟨used, -, hmarks⟩ := readline_marks hr
  change r.net.errno ≠ .ewouldblock
  rw [hmarks.errno_eq]
  rcases errnoAfter_of_eintr (hmarks.eintr hret) s.errno with heintr | hnone
  · exact heintr.trans_ne (by decide)
  · rw [errnoAfter_of_none hnone]
    exact herrno

/-! ### One step -/

theorem readMagic_untimed (herrno : s.errno ≠ .ewouldblock)
    (h : readMagic env s t = some (s', es)) : Untimed s' := by
  obtain ⟨⟨ret, got, m⟩, hread, h⟩ := Option.bind_eq_some_iff.mp h
  dsimp only at h
  split_ifs at h with hshort hmagic
  · exact untimed_left (Option.some.inj h) trivial
  · exact untimed_left (Option.some.inj h) trivial
  · exact accept_untimed (readn_untimed herrno hread hshort) h

theorem checkUser_untimed (herrno : s.errno ≠ .ewouldblock)
    (h : checkUser env s t = some (s', es)) : Untimed s' := by
  unfold checkUser at h
  dsimp only at h
  split_ifs at h
  · exact refuse_untimed h
  · exact refuse_untimed h
  · exact refuse_untimed h
  · exact accept_untimed (by exact herrno) h

theorem readUser_untimed (herrno : s.errno ≠ .ewouldblock)
    (h : readUser env s t = some (s', es)) : Untimed s' := by
  obtain ⟨⟨ret, got, m⟩, hread, h⟩ := Option.bind_eq_some_iff.mp h
  dsimp only at h
  split_ifs at h with hshort hword hfound
  · exact untimed_left (Option.some.inj h) trivial
  · exact untimed_left (Option.some.inj h) trivial
  · exact refuse_untimed h
  · have hm := readn_untimed herrno hread hshort
    exact checkUser_untimed (by exact hm) h

theorem readPass_untimed (herrno : s.errno ≠ .ewouldblock)
    (h : readPass s t = some (s', es)) : Untimed s' := by
  unfold readPass at h
  split_ifs at h
  · exact untimed_left (Option.some.inj h) trivial
  · obtain ⟨⟨ret, got, m⟩, hread, h⟩ := Option.bind_eq_some_iff.mp h
    dsimp only at h
    split_ifs at h with hshort hword hlong hpass
    · exact untimed_left (Option.some.inj h) trivial
    · exact untimed_left (Option.some.inj h) trivial
    · exact untimed_left (Option.some.inj h) trivial
    · exact refuse_untimed h
    · obtain ⟨conn, errno, rfl, -⟩ := Session.readn_cases hread
      exact accept_untimed (readn_untimed herrno hread (by push_cast; exact hshort)) h

theorem openStores_untimed (herrno : s.errno ≠ .ewouldblock)
    (h : openStores env s t = (s', es)) : Untimed s' := by
  unfold openStores at h
  dsimp only at h
  split_ifs at h
  · exact untimed_left h trivial
  · exact untimed_left h trivial
  · exact untimed_kept h herrno

theorem binary_untimed (herrno : s.errno ≠ .ewouldblock)
    (hwrites : .fails .ewouldblock ∉ t.writes) (h : binary s t = some (s', es)) : Untimed s' := by
  unfold binary at h
  split_ifs at h
  · obtain ⟨⟨ret, m, sent⟩, hw, heq⟩ := Option.map_eq_some_iff.mp h
    have hm := writen_untimed herrno hw (Or.inr hwrites)
    exact untimed_kept heq hm
  · obtain ⟨⟨ret, m, sent⟩, hw, heq⟩ := Option.map_eq_some_iff.mp h
    have hm := writen_untimed herrno hw (Or.inr hwrites)
    dsimp only at heq
    split_ifs at heq
    · exact untimed_kept heq hm
    · exact untimed_left heq trivial
    · exact untimed_kept heq hm

theorem filenameLine_untimed (herrno : s.errno ≠ .ewouldblock)
    (h : filenameLine s t = (s', es)) : Untimed s' := by
  unfold filenameLine at h
  dsimp only at h
  split_ifs at h
  · exact untimed_left h trivial
  · exact untimed_left h trivial
  · exact untimed_kept h herrno

theorem readCommand_untimed (hwrites : .fails .ewouldblock ∉ t.writes)
    (h : readCommand s t = some (s', es)) : Untimed s' := by
  obtain ⟨⟨ret, line, m⟩, hread, h⟩ := Option.bind_eq_some_iff.mp h
  dsimp only at h
  split_ifs at h with herrno hquit hpos hshort hbinary hform
  · exact untimed_left (Option.some.inj h) trivial
  · exact untimed_left (Option.some.inj h) trivial
  · exact untimed_left (Option.some.inj h) trivial
  · exact untimed_left (Option.some.inj h) trivial
  · obtain ⟨⟨s'', es'⟩, hbin, heq⟩ := Option.bind_eq_some_iff.mp h
    obtain ⟨rfl, -⟩ := Prod.mk.inj (Option.some.inj heq)
    exact binary_untimed herrno hwrites hbin
  · exact untimed_left (Option.some.inj h) trivial
  · obtain ⟨rfl, -⟩ := Prod.mk.inj (Option.some.inj h)
    exact filenameLine_untimed herrno rfl

theorem openImage_untimed {imgsize : ℕ} (herrno : s.errno ≠ .ewouldblock)
    (h : openImage s t imgsize = (s', es)) : Untimed s' := by
  unfold openImage at h
  split_ifs at h
  · exact untimed_kept h herrno
  · exact untimed_kept h (show Errno.other ≠ .ewouldblock by decide)

theorem readPayload_untimed {nleft i offset : ℕ} (herrno : s.errno ≠ .ewouldblock)
    (hreads : t.reads.head? ≠ some (.fails .ewouldblock))
    (h : readPayload s t nleft i offset = some (s', es)) : Untimed s' := by
  unfold readPayload at h
  by_cases hzero : nleft = 0
  · rw [if_pos hzero] at h
    exact untimed_kept (Option.some.inj h) herrno
  · rw [if_neg hzero] at h
    dsimp only at h
    split at h
    · cases h
    · next o rest hhead =>
      split at h
      · cases h
      · exact untimed_kept (Option.some.inj h) (show Errno.eintr ≠ .ewouldblock by decide)
      · next e conn' _ hread =>
        obtain rfl := Conn.read_error_outcome hread
        obtain ⟨rfl, -⟩ := Prod.mk.inj (Option.some.inj h)
        intro htimed
        obtain rfl : e = .ewouldblock := htimed
        exact absurd (by rw [hhead]; rfl) hreads
      · exact untimed_kept (Option.some.inj h) herrno
      · split_ifs at h
        · exact untimed_kept (Option.some.inj h) herrno
        · refine untimed_kept (Option.some.inj h) ?_
          show s.writeErrno t ≠ .ewouldblock
          rw [Session.writeErrno]
          split_ifs
          · decide
          · exact herrno

theorem replyImage_untimed {code : ℕ} (herrno : s.errno ≠ .ewouldblock)
    (hwrites : .fails .ewouldblock ∉ t.writes) (h : replyImage s t code = some (s', es)) :
    Untimed s' := by
  obtain ⟨⟨ret, m, sent⟩, hw, heq⟩ := Option.map_eq_some_iff.mp h
  have hm := writen_untimed herrno hw (Or.inr hwrites)
  exact untimed_kept heq hm

theorem readBody_untimed (herrno : s.errno ≠ .ewouldblock) (h : readBody s t = some (s', es)) :
    Untimed s' := by
  obtain ⟨⟨ret, line, m⟩, hread, h⟩ := Option.bind_eq_some_iff.mp h
  dsimp only at h
  by_cases hret : ret ≤ 0
  · rw [if_pos hret] at h
    exact untimed_left (Option.some.inj h) trivial
  · have hm : m.errno ≠ .ewouldblock := readline_untimed herrno hread (by omega)
    rw [if_neg hret] at h
    split_ifs at h
    · exact untimed_kept (Option.some.inj h) hm
    · exact untimed_left (Option.some.inj h) trivial
    · exact untimed_kept (Option.some.inj h) (show Errno.other ≠ .ewouldblock by decide)
    · exact untimed_kept (Option.some.inj h) hm
    · exact untimed_left (Option.some.inj h) trivial
    · exact untimed_kept (Option.some.inj h) hm

/-- `fclose` sets `errno` at most to an error of its own. -/
theorem fclose_untimed (herrno : s.errno ≠ .ewouldblock) :
    (fclose s t).1.errno ≠ .ewouldblock := by
  unfold fclose
  dsimp only
  split
  · exact herrno
  · decide

theorem act_untimed (hs : Untimed s) (hprompt : prompt s t = true)
    (h : act env s t = some (s', es)) : Untimed s' := by
  have herrno : ¬ s.phase.Leaving → s.errno ≠ .ewouldblock := fun hnot herrno => hnot (hs herrno)
  have hwrites : (!t.writes.contains (.fails .ewouldblock)) = true →
      .fails .ewouldblock ∉ t.writes := fun hw => by simpa using hw
  unfold act at h
  unfold prompt at hprompt
  split at h <;> rename_i hphase <;> rw [hphase] at hprompt herrno
  · exact readMagic_untimed (herrno id) h
  · exact readUser_untimed (herrno id) h
  · exact readPass_untimed (herrno id) h
  · exact openStores_untimed (herrno id) (Option.some.inj h)
  · exact readCommand_untimed (hwrites hprompt) h
  · exact openImage_untimed (herrno id) (Option.some.inj h)
  · exact readPayload_untimed (herrno id) (by simpa using hprompt) h
  · exact replyImage_untimed (herrno id) (hwrites hprompt) h
  · exact readBody_untimed (herrno id) h
  · exact untimed_kept (Option.some.inj h) (fclose_untimed (herrno id))
  · exact untimed_kept (Option.some.inj h) (herrno id)
  · exact accept_untimed (by exact herrno id) h
  · obtain ⟨rfl, -⟩ := Prod.mk.inj (Option.some.inj h)
    next leave =>
    cases leave with
    | true => exact untimed_of_leaving trivial
    | false => exact untimed_of_ne (fclose_untimed (herrno id))
  · cases h
  · cases h

end Untimed

/-- In a run of prompt steps a timeout in `errno` is that of a call that has ended the session. -/
theorem untimed_run (env : Env) {s : Session} {ts : List Turn} (hs : Untimed s)
    (hprompt : (manageClient env).Meets (fun s t => prompt s t = true) s ts) :
    Untimed ((manageClient env).run s ts).1 := by
  refine @Machine.run_induction _ _ _ _ _ (fun s _ => Untimed s) ?_ _ [] hs _ hprompt
  intro s _ t hok hinv
  unfold manageClient
  cases hact : act env (s.wait t) t with
  | none => exact hinv
  | some r => exact act_untimed (s := s.wait t) hinv hok hact

/-- In every run the exit for a timeout is only taken behind a `readline` that timed out, and every
command that `readline` delivers is carried out, if and only if no step finds an old timeout in
`errno`. From the start of a session on, no step finds one when no `read` of a photo and no
reply about a photo has timed out. -/
theorem timeout_exit_iff (env : Env) (s : Session) (ts : List Turn) :
    ((manageClient env).Meets (RealTimeout env) s ts ↔
      (manageClient env).Meets (fun s t => ¬ Stale s t) s ts) ∧
    ∀ stream eof clock user tmpname, s = Session.init stream eof clock user tmpname →
      (manageClient env).Meets (fun s t => prompt s t = true) s ts →
      (manageClient env).Meets (RealTimeout env) s ts := by
  have hiff : (manageClient env).Meets (RealTimeout env) s ts ↔
      (manageClient env).Meets (fun s t => ¬ Stale s t) s ts := by
    rw [Machine.meets_iff_forall, Machine.meets_iff_forall]
    exact forall₄_congr fun before t after _ => realTimeout_iff env _ t
  refine ⟨hiff, fun stream eof clock user tmpname hinit hprompt => hiff.mpr ?_⟩
  rw [Machine.meets_iff_forall]
  rintro before t after rfl ⟨hphase, herrno, -⟩
  have hstart : Untimed s := by
    rw [hinit]
    exact untimed_of_ne (show Errno.ok ≠ .ewouldblock by decide)
  have hleaving := untimed_run env hstart (Machine.meets_append.mp hprompt).1 herrno
  rw [hphase] at hleaving
  exact hleaving

/-- A college that sends a photo, and its forms behind it. -/
def stalledStream : Bytes :=
  sampleLogin ++ ascii "BINARY 2000 M_0001_A_0001_0.jpg\nFILENAME M_0001_A_0001_0.txt\n"

/-- Image transfer is on. -/
def imageTurn : Turn := { sampleTurn with acceptimage := true }

/-- The steps up to the photo, the first read of which times out, and the reply. -/
def stalledTurns : List Turn :=
  List.replicate 4 sampleTurn ++
    [imageTurn, imageTurn, { imageTurn with reads := [.fails .ewouldblock] }, imageTurn]

def stalledSession : Session :=
  ((manageClient sampleEnv).run (Session.init stalledStream true 1120000000 [] []) stalledTurns).1

theorem timeout_exit_iff_sample :
    (manageClient sampleEnv).Meets (RealTimeout sampleEnv)
      (Session.init (sampleLogin ++ ascii "QUIT\n") true 1120000000 [] [])
      (List.replicate 5 sampleTurn) :=
  (timeout_exit_iff sampleEnv _ (List.replicate 5 sampleTurn)).2 _ true 1120000000 [] [] rfl
    (by decide +kernel)

/-- The client is slow to send its photo and sends a form then: the form is read and not
carried out. -/
theorem timeout_exit_stale_sample :
    (∃ r, stalledSession.phase = .command ∧ headRead stalledSession sampleTurn = some r ∧
      r.ret = 29 ∧ r.stored = ascii "FILENAME M_0001_A_0001_0.txt\n" ∧
      (manageClient sampleEnv stalledSession sampleTurn).1.phase = .done ∧
      (manageClient sampleEnv stalledSession sampleTurn).2 = []) ∧
    ¬ (manageClient sampleEnv).Meets (RealTimeout sampleEnv)
      (Session.init stalledStream true 1120000000 [] []) (stalledTurns ++ [sampleTurn]) := by
  have hread : ∃ r, headRead stalledSession sampleTurn = some r ∧ r.ret = 29 ∧
      r.stored = ascii "FILENAME M_0001_A_0001_0.txt\n" ∧ r.net.errno = .ewouldblock := by
    have hsome : (headRead stalledSession sampleTurn).map
          (fun r => (r.ret, r.stored, r.net.errno)) =
        some (29, ascii "FILENAME M_0001_A_0001_0.txt\n", .ewouldblock) := by decide +kernel
    obtain ⟨r, hr, heq⟩ := Option.map_eq_some_iff.mp hsome
    obtain ⟨hret, hstored, herrno⟩ : r.ret = 29 ∧ r.stored = _ ∧ r.net.errno = _ := by
      simpa only [Prod.mk.injEq] using heq
    exact ⟨r, hr, hret, hstored, herrno⟩
  obtain ⟨r, hr, hret, hstored, herrno⟩ := hread
  have hphase : stalledSession.phase = .command := by decide +kernel
  refine ⟨⟨r, hphase, hr, hret, hstored, by decide +kernel, by decide +kernel⟩, fun hmeets => ?_⟩
  have hlast := (Machine.meets_append.mp hmeets).2.1
  have hfailed := (hlast.exit r ⟨hphase, hr, herrno⟩).1
  omega

end Esif.Server
