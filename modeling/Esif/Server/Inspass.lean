import Mathlib.Data.List.Induction
import Mathlib.Logic.Function.Basic
import Esif.Server.Session

/-!
# The password database

`inspass` fills the database that the server looks its users up in: a record for
each college, under the four digits of its code. The digest is OpenSSL's, the
times are those of `mktime`.

## Main definitions

* `encryptPassword` — a record with the digest of a password
* `Entry`, `inspass` — what `inspass` reads and the database it makes

## Main results

* `inspass_cases` — what a lookup in that database finds
-/

namespace Esif.Server

open Esif.Posix

def DB_NOTFOUND : ℤ := -30988

/-- `encrypt_password` -/
def encryptPassword (sha1 : Bytes → Bytes) (pass : Bytes) : Password where
  pass := sha1 (cstr pass)
  len := SHA_DIGEST_LENGTH
  disabled := 0
  start := 0
  end_ := 0

/-- `pass_insertdb`: without `confirm` a record that is there stays. -/
def passInsertdb (db : Bytes → Get) (key : Bytes) (data : Password) (confirm : Bool) :
    Bytes → Get :=
  match db key, confirm with
  | .found _, false => db
  | _, _ => Function.update db key (.found data)

/-- A line of the input of `inspass`, its two times converted. -/
structure Entry where
  disabled : ℤ
  codeval : ℤ
  pass : Bytes
  start : ℤ
  end_ : ℤ
  deriving DecidableEq, Repr

/-- The record `inspass` makes of a line. -/
def Entry.record (sha1 : Bytes → Bytes) (e : Entry) : Password :=
  { encryptPassword sha1 e.pass with disabled := e.disabled, start := e.start, end_ := e.end_ }

/-- The database `inspass` makes of its input, starting with a new one. -/
def inspass (sha1 : Bytes → Bytes) (entries : List Entry) : Bytes → Get :=
  entries.foldl (fun db e => passInsertdb db (printInt04 e.codeval) (e.record sha1) true)
    fun _ => .failed DB_NOTFOUND

theorem passInsertdb_true (db : Bytes → Get) (key : Bytes) (data : Password) :
    passInsertdb db key data true = Function.update db key (.found data) := by
  unfold passInsertdb
  cases db key <;> rfl

/-- A lookup finds the record of a line with that code, or nothing. -/
theorem inspass_cases (sha1 : Bytes → Bytes) (entries : List Entry) (key : Bytes) :
    inspass sha1 entries key = .failed DB_NOTFOUND ∨
      ∃ e ∈ entries, printInt04 e.codeval = key ∧
        inspass sha1 entries key = .found (e.record sha1) := by
  induction entries using List.reverseRecOn with
  | nil => exact Or.inl rfl
  | append_singleton entries e ih =>
    have hlast : inspass sha1 (entries ++ [e]) =
        Function.update (inspass sha1 entries) (printInt04 e.codeval) (.found (e.record sha1)) := by
      simp [inspass, passInsertdb_true]
    rw [hlast]
    by_cases hkey : key = printInt04 e.codeval
    · refine Or.inr ⟨e, by simp, hkey.symm, ?_⟩
      rw [hkey, Function.update_self]
    · rw [Function.update_of_ne hkey]
      refine ih.imp id ?_
      rintro ⟨e', he', hcode, hfound⟩
      exact ⟨e', by simp [he'], hcode, hfound⟩

end Esif.Server
