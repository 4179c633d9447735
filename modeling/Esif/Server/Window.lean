import Esif.Server.Upload

/-!
# The sending window

The window of a college is looked at once, when its user is looked up. A session
whose login found the window open goes on storing forms for as long as it lasts.

## Main results

* `stored_after_start` — forms are stored by sessions that logged in inside the
  window, and never before it
-/

namespace Esif.Server

open Esif.CS Esif.Posix

/-- **The window at the login.** Whatever file a session writes and whatever
record it inserts, in any step of any run: it belongs to the college whose
record let the session in, that record was enabled and its window was open at the
two looks at the clock in the check of the login, and the step comes after them, so
not before the start of the window. -/
theorem stored_after_start (env : Env) (stream : Bytes) (eof : Bool) {clock : ℤ}
    (hclock : 0 < clock) (user tmpname : Bytes) (before : List Turn) (t : Turn) :
    let s := ((manageClient env).run (Session.init stream eof clock user tmpname) before).1
    let r := manageClient env s t
    ∀ e ∈ r.2, e.IsStore →
      (∃ get, env.passdbp = some get ∧ get r.1.user = .found r.1.passbuf) ∧
      (∃ session, e.UsesStores session (toInt32 (strtol r.1.user))) ∧
      Admits r.1.passbuf r.1.checked.1 r.1.checked.2 ∧
      (clock ≤ r.1.checked.1 ∧ r.1.checked.1 ≤ r.1.checked.2 ∧ r.1.checked.2 ≤ r.1.clock) ∧
      r.1.passbuf.start ≤ r.1.clock := by
  intro s r e he hstore
  have hrun : (manageClient env).run (Session.init stream eof clock user tmpname) (before ++ [t]) =
      (r.1, ((manageClient env).run (Session.init stream eof clock user tmpname) before).2
      ++ r.2) := by
    rw [Machine.run_append]
    simp [r, s]
  have hgate := gate_run env stream eof hclock user tmpname (before ++ [t])
  rw [hrun] at hgate
  have hmem : e ∈ ((manageClient env).run (Session.init stream eof clock user tmpname) before).2 ++
      r.2 := List.mem_append_right _ he
  rcases hgate with ⟨-, hnone⟩ | ⟨hauth, -, session, hin, huses⟩
  · exact absurd hstore.isEffect (hnone e hmem)
  · obtain ⟨hfirst, hbetween, hsecond⟩ := hauth.time
    have hstart := hauth.admits.started
    refine ⟨hauth.found, ⟨session, ?_⟩, hauth.admits, ⟨hfirst, hbetween, hsecond⟩, ?_⟩
    · rw [← hin.college]
      exact huses e hmem hstore.isEffect
    · exact hstart.trans (hbetween.trans hsecond)

/-- The steps of `sampleUpload` up to the end of the form, in 2005. -/
theorem stored_after_start_sample :
    let s := ((manageClient sampleEnv).run (Session.init sampleUpload true 1120000000 [] [])
      (List.replicate 7 sampleTurn)).1
    let r := manageClient sampleEnv s sampleTurn
    ∀ e ∈ r.2, e.IsStore →
      (∃ get, sampleEnv.passdbp = some get ∧ get r.1.user = .found r.1.passbuf) ∧
      (∃ session, e.UsesStores session (toInt32 (strtol r.1.user))) ∧
      Admits r.1.passbuf r.1.checked.1 r.1.checked.2 ∧
      (1120000000 ≤ r.1.checked.1 ∧ r.1.checked.1 ≤ r.1.checked.2 ∧
        r.1.checked.2 ≤ r.1.clock) ∧
      r.1.passbuf.start ≤ r.1.clock :=
  stored_after_start sampleEnv sampleUpload true (by decide) [] [] _ sampleTurn

/-- A session that logs in one second before the end of the window and sends its
form five seconds later has the form written behind the end. -/
theorem stored_after_end_sample :
    let s := ((manageClient sampleEnv).run (Session.init sampleUpload true 1999999999 [] [])
      (List.replicate 4 sampleTurn ++ { sampleTurn with elapsed := 5 } ::
        List.replicate 2 sampleTurn)).1
    let r := manageClient sampleEnv s sampleTurn
    r.1.passbuf.end_ < r.1.clock ∧
      .writeAt (txtdirOf 2033 1 ++ ascii "M_0001_A_0001_0.txt") 0 (ascii "ab\n") ∈ r.2 := by
  decide +kernel

end Esif.Server
