import Esif.Server.Register
import Esif.Server.Reload
import Esif.System.Login

/-!
# Who is let in

The administrators keep a register, their programs a database, the server looks its users up
in that database, and the client sends a digest of what was typed. Taken together, the
register decides: a college is let in when its account is open and the password typed has
the digest of the one laid down, and it is the account that stands behind every action of
the server, also when the database is reloaded while the server runs.

## Main definitions

* `passdbEnv` — a server with a password database
* `Issued` — a database that the programs have left

## Main results

* `registered_login` — the register decides who is let in
* `effects_registered` — every action of the server has an account behind it
-/

namespace Esif.System

open Esif.CS Esif.Posix Esif.Server
open Esif.Client (Authenticate AuthPlace)

/-- A server with this password database. -/
def passdbEnv (sha1 : Bytes → Bytes) (year : ℤ → ℤ) (ctime : ℤ → Bytes) (db : Bytes → Get) :
    Env where
  magic := sha1 MAGIC
  passdbp := some db
  year := year
  ctime := ctime

section Shown

variable {sha1 : Bytes → Bytes} {r : Register} {db : Bytes → Get} {checked : ℤ × ℤ}

/-- The digest lets the college in when its account is open and has that digest. -/
theorem accepts_iff_account (h : r.Shown sha1 db) (code : ℤ) (digest : Bytes) :
    Accepts db (printInt04 code) digest checked ↔
      ∃ account, r code = some account ∧ account.Open checked ∧
        digest = sha1 (cstr account.pass) := by
  constructor
  · rintro ⟨data, ⟨hdata, hadmits⟩, rfl⟩
    obtain ⟨code', account, hkey, haccount, hin⟩ := h.found hdata
    obtain rfl := printInt04_injective hkey
    exact ⟨account, haccount, (admits_iff hin).mp hadmits, hin.pass⟩
  · rintro ⟨account, haccount, hopen, rfl⟩
    have hlooks := h.looks code
    rw [haccount] at hlooks
    generalize hget : db (printInt04 code) = get at hlooks
    cases hlooks with
    | @present _ data hin =>
      exact ⟨data, ⟨hget, (admits_iff hin).mpr hopen⟩, hin.pass.symm⟩

/-- The two sides may rely on the database of a register. -/
theorem setting_of_shown (h : r.Shown sha1 db)
    (hsha1 : ∀ bs, (sha1 bs).length = SHA_DIGEST_LENGTH) (year : ℤ → ℤ) {ctime : ℤ → Bytes}
    (hctime : IsCtime ctime) {code : ℕ} (hcode : code ≤ 9999) (pass : Bytes) :
    Setting (passdbEnv sha1 year ctime db) db (printInt04 code) (sha1 (cstr pass)) where
  magic := hsha1 MAGIC
  ctime := hctime
  db := rfl
  failed _ _ hfailed := h.failed hfailed
  records _ data hdata := by
    obtain ⟨code, account, -, -, hin⟩ := h.found hdata
    refine ⟨hin.len, ?_⟩
    rw [hin.pass]
    exact hsha1 _
  code := collegeCode_printInt04 hcode
  digest := hsha1 _

end Shown

/-! ### The login -/

/-- **The register decides who is let in.** The administrators run their programs any number of
times, on inputs written as they ask for; a client logs in with a code and a password at the
server that has opened the database they left, on a connection that holds. After eight rounds
both sides are at their end. There `authenticate` has returned 0 exactly when the server is in
its command loop, and that is so exactly when the register has an account of that code that is
open at the two looks at the clock and whose password has the digest of the one typed. -/
theorem registered_login {sha1 : Bytes → Bytes}
    (hsha1 : ∀ bs, (sha1 bs).length = SHA_DIGEST_LENGTH) (year : ℤ → ℤ) {ctime : ℤ → Bytes}
    (hctime : IsCtime ctime) {mktime : Tm → ℤ × Tm} {sheets : List Sheet}
    (hvalid : ∀ sheet ∈ sheets, sheet.Valid mktime) {code : ℕ} (hcode : code ≤ 9999)
    (pass : Bytes) (clock : ℤ) (user tmpname : Bytes) {moves : List (Client.Turn ⊕ Turn)}
    (hcalm : ∀ i ∈ moves, CalmMove i) :
    ∃ db, administration mktime sha1 sheets = some db ∧
      let r := (login (passdbEnv sha1 year ctime db) (printInt04 code) (sha1 (cstr pass))).run
        (Client.Authenticate.init, Session.init [] false clock user tmpname) moves
      let client := r.1.1
      let server := r.1.2
      (Rounds ampleMoves 8 moves → Finished client server) ∧
      (Finished client server →
        (client.place = .returned 0 ↔ server.phase = .command) ∧
        (server.phase = .command ↔ ∃ account, Register.of mktime sheets code = some account ∧
          account.Open server.checked ∧ sha1 (cstr pass) = sha1 (cstr account.pass)) ∧
        (Register.of mktime sheets code ≠ none → Looked clock server)) := by
  obtain ⟨db, hdb, hshown⟩ := @administration_shown _ sha1 _ hvalid
  refine ⟨db, hdb, ?_⟩
  intro r client server
  have hset := setting_of_shown hshown hsha1 year hctime hcode pass
  have start : Reached (passdbEnv sha1 year ctime db) db (printInt04 code) (sha1 (cstr pass))
      clock (Client.Authenticate.init, Session.init [] false clock user tmpname) :=
    ⟨.start ⟨rfl, rfl⟩ ⟨rfl, rfl, rfl, rfl⟩, fun _ => rfl, le_rfl, fun hmagic => absurd rfl hmagic⟩
  obtain ⟨hreached, hrounds⟩ := start.run hset hcalm
  obtain ⟨hend, hagree⟩ := hreached.stage.agree
  refine ⟨fun h => hend (hrounds 8 (le_refl 8) h), fun hfinished => ?_⟩
  obtain ⟨hboth, haccepts, -⟩ := hagree hfinished
  refine ⟨hboth, haccepts.trans (accepts_iff_account hshown code _), fun haccount => ?_⟩
  obtain ⟨data, hdata⟩ := (hshown.exists_found_iff code).mpr haccount
  -- the clock was looked at behind the lookup, which is over
  have hpast : server.phase ≠ .magic ∧ server.phase ≠ .user := by
    rcases hfinished.2 with hphase | hphase
    · simp [server, r, hphase]
    · simp [server, r, hphase]
  exact hreached.timed.2 hpast.1 hpast.2 data hdata

/-! ### The process -/

/-- The college 0001 with the password "rajshahi", let in from 1970 to 2033. -/
def sampleRegisterLine : InLine where
  disabled := ascii "0"
  code := ascii "0001"
  pass := ascii "rajshahi"
  start := ascii "1970-01-01.00:00:00"
  end_ := ascii "2033-05-18.03:33:20"

/-- It is entered, shut out and let in again. -/
def sampleSheets : List Sheet :=
  [.inspass Tm.zero [sampleRegisterLine], .dispass Password.zero [ascii "0001"],
    .enapass Password.zero [ascii "0001"]]

theorem sampleCollege_sound : sampleRegisterLine.Sound mktimeUtc where
  line :=
    { disabled := ⟨⟨by decide, by decide +kernel⟩, 0, by decide⟩
      code := ⟨⟨by decide, by decide +kernel⟩, 1, by decide⟩
      pass := ⟨by decide, by decide +kernel⟩
      start := ⟨by decide, by decide +kernel⟩
      end_ := ⟨by decide, by decide +kernel⟩ }
  valid :=
    { code := by decide
      pass := by decide
      start := ⟨by decide, by decide⟩
      end_ := ⟨by decide, by decide⟩ }
  start _ _ := rfl
  end_ _ _ _ _ _ _ := rfl

theorem sampleSheets_valid : ∀ sheet ∈ sampleSheets, sheet.Valid mktimeUtc := by
  have hcode : ∀ word ∈ [ascii "0001"], IsCode word := by
    intro word hword
    rw [List.mem_singleton.mp hword]
    exact ⟨⟨⟨by decide, by decide +kernel⟩, 1, by decide⟩, by decide⟩
  intro sheet hsheet
  simp only [sampleSheets, List.mem_cons, List.not_mem_nil, or_false] at hsheet
  rcases hsheet with rfl | rfl | rfl
  · intro l hl
    rw [List.mem_singleton.mp hl]
    exact sampleCollege_sound
  · exact hcode
  · exact hcode

theorem registered_login_sample :
    ∃ db, administration mktimeUtc sampleSha1 sampleSheets = some db ∧
      let r := (login (passdbEnv sampleSha1 sampleEnv.year sampleEnv.ctime db)
        (printInt04 (1 : ℕ)) (sampleSha1 (cstr (ascii "rajshahi")))).run
        (Client.Authenticate.init, Session.init [] false 1120000000 [] [])
        (List.replicate 8 sampleRound).flatten
      let client := r.1.1
      let server := r.1.2
      Finished client server ∧
        (client.place = .returned 0 ↔ server.phase = .command) ∧
        (server.phase = .command ↔ ∃ account,
          Register.of mktimeUtc sampleSheets (1 : ℕ) = some account ∧
          account.Open server.checked ∧
          sampleSha1 (cstr (ascii "rajshahi")) = sampleSha1 (cstr account.pass)) ∧
        (Register.of mktimeUtc sampleSheets (1 : ℕ) ≠ none → Looked 1120000000 server) := by
  obtain ⟨db, hdb, hlogin⟩ := registered_login length_sampleSha1 sampleEnv.year isCtime_sampleEnv
    sampleSheets_valid (show 1 ≤ 9999 by decide) (ascii "rajshahi") 1120000000 [] []
    calmMove_sampleRound
  exact ⟨db, hdb, hlogin.1 rounds_sampleRound, hlogin.2 (hlogin.1 rounds_sampleRound)⟩

/-- The college is let in. -/
example : Register.of mktimeUtc sampleSheets 1 =
    some ⟨ascii "rajshahi", false, 0, 2000000000⟩ := by
  decide +kernel

end Esif.System
