import Esif.CS.Machine
import Esif.Posix.Time
import Esif.Server.Inspass

/-!
# The administration of the passwords

`inspass`, `delpass`, `dispass` and `enapass` work on one database, each with the codes
it reads into arrays on its stack. `dispass` and `enapass` look each record up into one
buffer and write the buffer back.

## Main definitions

* `inspassEntry` — the times of a line
* `inspassLoop`, `delpass`, `dispass`, `enapass` — the loops over what is read
* `administer` — the programs one after the other
* `RecordsKept` — each record is the last inserted one, with the flag set last

## Main results

* `administer_kept` — the records are kept while all that is read fits and no lookup fails
  with a positive number
* `administer_inspass` — the database of `inspass` alone
-/

namespace Esif.Server

open Esif.Posix Esif.CS

/-- What `DB->get` returns when it fails. -/
abbrev Fault := {ret : ℤ // ret ≠ 0}

/-- `DB->get` on the database, or its failure. -/
def getOr (db : Bytes → Get) (fault : Option Fault) (key : Bytes) : Get :=
  match fault with
  | some ret => .failed ret
  | none => db key

/-- `pass_deletedb` -/
def passDeletedb (db : Bytes → Get) (key : Bytes) : Bytes → Get :=
  Function.update db key (.failed DB_NOTFOUND)

/-- What was done to the record of a code. A `dispass` or `enapass` is applied to a
record it finds. -/
inductive Change where
  | inserted (codestr : Bytes) (record : Password)
  | deleted (codestr : Bytes)
  | flagged (codestr : Bytes) (disabled : ℤ)
  deriving DecidableEq, Repr

def Change.codestr : Change → Bytes
  | inserted codestr _ | deleted codestr | flagged codestr _ => codestr

/-! ### The programs -/

/-- `DATE_FORMAT`, `"%Y-%m-%d.%H:%M:%S"` -/
def DATE_FORMAT : List Directive :=
  [.convert .year, .literal 45, .convert .mon, .literal 45, .convert .mday, .literal 46,
    .convert .hour, .literal 58, .convert .min, .literal 58, .convert .sec]

/-- What `fscanf` reads in `inspass`. -/
structure Fields where
  disabled : ℤ
  codeval : ℤ
  pass : Bytes
  start : Bytes
  end_ : Bytes
  deriving DecidableEq, Repr

/-- The line with its times, and the `struct tm` behind it. The results of `strptime` are
not looked at. -/
def inspassEntry (mktime : Tm → ℤ × Tm) (tm : Tm) (f : Fields) : Entry × Tm :=
  let (_, tm) := strptime DATE_FORMAT f.start tm
  let (start, tm) := mktime tm
  let (_, tm) := strptime DATE_FORMAT f.end_ tm
  let (end_, tm) := mktime tm
  (⟨f.disabled, f.codeval, f.pass, start, end_⟩, tm)

/-- `codestr` has room for four characters. -/
def CodeFits (codeval : ℤ) : Prop := (printInt04 codeval).length < 5

instance : DecidablePred CodeFits := fun _ => inferInstanceAs (Decidable (_ < 5))

/-- `codestr`, `pass`, `start` and `end` have room for what is read. -/
def Fields.Fits (f : Fields) : Prop :=
  CodeFits f.codeval ∧ f.pass.length < 15 ∧ f.start.length < 20 ∧ f.end_.length < 20

instance : DecidablePred Fields.Fits := fun _ => inferInstanceAs (Decidable (_ ∧ _ ∧ _ ∧ _))

section Loops

variable (mktime : Tm → ℤ × Tm) (sha1 : Bytes → Bytes) (printonly : Bool)

/-- The loop of `inspass`, over the database and `tm`. It is lost where an array overruns, as
the others are. -/
def inspassLoop : Machine (Option ((Bytes → Get) × Tm)) Fields Change :=
  Machine.guarded Fields.Fits fun (db, tm) f =>
    if printonly then ((db, tm), [])
    else
      let (e, tm) := inspassEntry mktime tm f
      ((passInsertdb db (printInt04 e.codeval) (e.record sha1) true, tm),
        [.inserted (printInt04 e.codeval) (e.record sha1)])

/-- The loop of `delpass`. -/
def delpass : Machine (Option (Bytes → Get)) ℤ Change :=
  Machine.guarded CodeFits fun db codeval =>
    (passDeletedb db (printInt04 codeval), [.deleted (printInt04 codeval)])

/-- The loop of `dispass` and `enapass`, over the database and the buffer `pwd`. -/
def setDisabled (disabled : ℤ) :
    Machine (Option ((Bytes → Get) × Password)) (ℤ × Option Fault) Change :=
  Machine.guarded (CodeFits ·.1) fun (db, pwd) (codeval, fault) =>
    let codestr := printInt04 codeval
    let (ret, pwd) := passGetdb (getOr db fault) pwd codestr
    -- a positive return goes on with the record of the code before
    if ret < 0 then ((db, pwd), [])
    else
      let pwd := { pwd with disabled := disabled }
      ((passInsertdb db codestr pwd true, pwd),
        if ret = 0 then [.flagged codestr disabled] else [])

def dispass : Machine (Option ((Bytes → Get) × Password)) (ℤ × Option Fault) Change :=
  setDisabled 1

def enapass : Machine (Option ((Bytes → Get) × Password)) (ℤ × Option Fault) Change :=
  setDisabled 0

/-- A program with its input. `tm` and `garbage` are what its stack holds at first; a fault
is a lookup that fails. -/
inductive Program where
  | inspass (printonly : Bool) (tm : Tm) (lines : List Fields)
  | delpass (codes : List ℤ)
  | dispass (garbage : Password) (codes : List (ℤ × Option Fault))
  | enapass (garbage : Password) (codes : List (ℤ × Option Fault))

/-- One program after the other on the database. -/
def administer : Machine (Option (Bytes → Get)) Program Change
  | none, _ => (none, [])
  | some db, .inspass printonly tm lines =>
    let r := (inspassLoop mktime sha1 printonly).run (some (db, tm)) lines
    (r.1.map Prod.fst, r.2)
  | some db, .delpass codes => Server.delpass.run (some db) codes
  | some db, .dispass garbage codes =>
    let r := Server.dispass.run (some (db, garbage)) codes
    (r.1.map Prod.fst, r.2)
  | some db, .enapass garbage codes =>
    let r := Server.enapass.run (some (db, garbage)) codes
    (r.1.map Prod.fst, r.2)

end Loops

/-! ### What is kept -/

/-- A new database. -/
def newDb : Bytes → Get := fun _ => .failed DB_NOTFOUND

/-- The change sets the record of the code or takes it away. -/
def Change.Resets (codestr : Bytes) (c : Change) : Prop :=
  c = .deleted codestr ∨ ∃ record, c = .inserted codestr record

/-- The flag the change sets for the code. -/
def Change.flag? (codestr : Bytes) : Change → Option ℤ
  | flagged codestr' disabled => if codestr' = codestr then some disabled else none
  | _ => none

/-- The flag set last, `disabled` if there is none. -/
def lastFlag (codestr : Bytes) (disabled : ℤ) (changes : List Change) : ℤ :=
  (changes.filterMap (Change.flag? codestr)).getLast?.getD disabled

/-- A record found was inserted and not deleted since. It is the one inserted last, with
the flag set last. -/
def RecordKept (changes : List Change) (codestr : Bytes) (get : Get) : Prop :=
  ∀ data, get = .found data → ∃ before record after,
    changes = before ++ .inserted codestr record :: after ∧
      (∀ c ∈ after, ¬ c.Resets codestr) ∧
      data = { record with disabled := lastFlag codestr record.disabled after }

/-- Every record of the database is the one inserted last, with the flag set last. -/
def RecordsKept (changes : List Change) (db : Bytes → Get) : Prop :=
  ∀ codestr, RecordKept changes codestr (db codestr)

/-- No record is new, and none differs from the one that was there in more than the flag. -/
def OnlyFlags (db db' : Bytes → Get) : Prop :=
  ∀ codestr data', db' codestr = .found data' →
    ∃ data, db codestr = .found data ∧ data' = { data with disabled := data'.disabled }

/-- A code that fits, and a lookup that does not fail with a positive number. -/
structure CodeGood (code : ℤ × Option Fault) : Prop where
  fits : CodeFits code.1
  negative : ∀ ret ∈ code.2, (ret : ℤ) < 0

/-- All that the program reads fits, and none of its lookups fails with a positive number. -/
def Program.Good : Program → Prop
  | .inspass _ _ lines => ∀ f ∈ lines, f.Fits
  | .delpass codes => ∀ codeval ∈ codes, CodeFits codeval
  | .dispass _ codes | .enapass _ codes => ∀ code ∈ codes, CodeGood code

/-- The program only sets flags. -/
def Program.SetsFlags : Program → Prop
  | .inspass _ _ _ | .delpass _ => False
  | .dispass _ _ | .enapass _ _ => True

section Kept

variable {changes : List Change} {codestr : Bytes} {get : Get} {c : Change}

theorem recordKept_failed (ret : ℤ) : RecordKept changes codestr (.failed ret) := by
  intro data hdata
  cases hdata

theorem recordKept_inserted (record : Password) :
    RecordKept (changes ++ [.inserted codestr record]) codestr (.found record) := by
  intro data hdata
  cases hdata
  exact ⟨changes, record, [], rfl, by simp, rfl⟩

/-- A flag goes to the record that is there. -/
theorem RecordKept.flagged {data : Password} (h : RecordKept changes codestr (.found data))
    (disabled : ℤ) :
    RecordKept (changes ++ [.flagged codestr disabled]) codestr
      (.found { data with disabled := disabled }) := by
  intro data' hdata
  cases hdata
  obtain ⟨before, record, after, rfl, hafter, rfl⟩ := h data rfl
  refine ⟨before, record, after ++ [.flagged codestr disabled], by simp, ?_, ?_⟩
  · intro c hc
    rcases List.mem_append.1 hc with hc | hc
    · exact hafter c hc
    · rw [List.mem_singleton.1 hc]
      simp [Change.Resets]
  · simp [lastFlag, Change.flag?]

/-- A change of another code leaves the record as it is. -/
theorem RecordKept.other (h : RecordKept changes codestr get) (hne : c.codestr ≠ codestr) :
    RecordKept (changes ++ [c]) codestr get := by
  intro data hdata
  obtain ⟨before, record, after, rfl, hafter, rfl⟩ := h data hdata
  refine ⟨before, record, after ++ [c], by simp, ?_, ?_⟩
  · intro c' hc
    rcases List.mem_append.1 hc with hc | hc
    · exact hafter c' hc
    · rw [List.mem_singleton.1 hc]
      rintro (rfl | ⟨record', rfl⟩)
      · exact hne rfl
      · exact hne rfl
  · have hflag : Change.flag? codestr c = none := by
      cases c with
      | inserted => rfl
      | deleted => rfl
      | flagged codestr' disabled => exact if_neg hne
    simp [lastFlag, List.filterMap_append, hflag]

theorem RecordsKept.update {db : Bytes → Get} (h : RecordsKept changes db)
    (hat : RecordKept (changes ++ [c]) c.codestr get) :
    RecordsKept (changes ++ [c]) (Function.update db c.codestr get) := by
  intro codestr
  by_cases hcode : codestr = c.codestr
  · rw [hcode, Function.update_self]
    exact hat
  · rw [Function.update_of_ne hcode]
    exact (h codestr).other (Ne.symm hcode)

end Kept

section Steps

variable {mktime : Tm → ℤ × Tm} {sha1 : Bytes → Bytes} {changes : List Change}
  {db : Bytes → Get} {tm : Tm} {pwd : Password} {codeval : ℤ} {fault : Option Fault}
  {disabled : ℤ} {f : Fields}

/-- What is not there is not found, with a negative number. -/
def Absent (db : Bytes → Get) : Prop := ∀ codestr ret, db codestr = .failed ret → ret < 0

theorem absent_update_found {codestr : Bytes} (h : Absent db) (data : Password) :
    Absent (Function.update db codestr (.found data)) := by
  intro codestr' ret hret
  by_cases hcode : codestr' = codestr
  · rw [hcode, Function.update_self] at hret
    cases hret
  · exact h codestr' ret (by rwa [Function.update_of_ne hcode] at hret)

theorem absent_update_failed {codestr : Bytes} (h : Absent db) :
    Absent (Function.update db codestr (.failed DB_NOTFOUND)) := by
  intro codestr' ret hret
  by_cases hcode : codestr' = codestr
  · rw [hcode, Function.update_self] at hret
    cases hret
    decide
  · exact h codestr' ret (by rwa [Function.update_of_ne hcode] at hret)

/-- A line that fits is inserted under its code. -/
theorem inspassLoop_false (hfits : f.Fits) :
    inspassLoop mktime sha1 false (some (db, tm)) f =
      (some (Function.update db (printInt04 f.codeval)
        (.found ((inspassEntry mktime tm f).1.record sha1)), (inspassEntry mktime tm f).2),
        [.inserted (printInt04 f.codeval) ((inspassEntry mktime tm f).1.record sha1)]) := by
  rw [inspassLoop, Machine.guarded_some hfits]
  simp only [passInsertdb_true]
  rfl

theorem inspassLoop_true (hfits : f.Fits) :
    inspassLoop mktime sha1 true (some (db, tm)) f = (some (db, tm), []) := by
  rw [inspassLoop, Machine.guarded_some hfits]
  rfl

theorem delpass_fits (hfits : CodeFits codeval) :
    delpass (some db) codeval =
      (some (Function.update db (printInt04 codeval) (.failed DB_NOTFOUND)),
        [.deleted (printInt04 codeval)]) := Machine.guarded_some hfits db

/-- A code whose lookup does not fail with a positive number has its flag set, or nothing
happens. -/
theorem setDisabled_cases (habsent : Absent db) (hgood : CodeGood (codeval, fault)) :
    setDisabled disabled (some (db, pwd)) (codeval, fault) = (some (db, pwd), []) ∨
      ∃ data, db (printInt04 codeval) = .found data ∧
        setDisabled disabled (some (db, pwd)) (codeval, fault) =
          (some (Function.update db (printInt04 codeval)
              (.found { data with disabled := disabled }), { data with disabled := disabled }),
            [.flagged (printInt04 codeval) disabled]) := by
  rw [setDisabled, @Machine.guarded_some _ _ _ _
    (fun code : ℤ × Option Fault => CodeFits code.1) _ _ hgood.fits]
  cases fault with
  | some ret =>
    left
    simp [passGetdb, getOr, hgood.negative ret rfl]
  | none =>
    cases hget : db (printInt04 codeval) with
    | failed ret =>
      left
      simp [passGetdb, getOr, hget, habsent _ _ hget]
    | found data =>
      refine .inr ⟨data, rfl, ?_⟩
      simp [passGetdb, getOr, hget, passInsertdb_true]

/-- The invariant of the administration. -/
structure Sound (changes : List Change) (db : Bytes → Get) : Prop where
  kept : RecordsKept changes db
  absent : Absent db

theorem inspassLoop_sound (printonly : Bool) (hfits : f.Fits) (h : Sound changes db) :
    ∃ s, (inspassLoop mktime sha1 printonly (some (db, tm)) f).1 = some s ∧
      Sound (changes ++ (inspassLoop mktime sha1 printonly (some (db, tm)) f).2) s.1 := by
  cases printonly with
  | true =>
    rw [inspassLoop_true hfits]
    exact ⟨_, rfl, by simpa using h⟩
  | false =>
    rw [inspassLoop_false hfits]
    exact ⟨_, rfl, h.kept.update (recordKept_inserted _), absent_update_found h.absent _⟩

theorem delpass_sound (hfits : CodeFits codeval) (h : Sound changes db) :
    ∃ db', (delpass (some db) codeval).1 = some db' ∧
      Sound (changes ++ (delpass (some db) codeval).2) db' := by
  rw [delpass_fits hfits]
  exact ⟨_, rfl, h.kept.update (recordKept_failed _), absent_update_failed h.absent⟩

theorem onlyFlags_refl : OnlyFlags db db := by
  intro codestr data hdata
  exact ⟨data, hdata, rfl⟩

theorem OnlyFlags.update {db₀ : Bytes → Get} {codestr : Bytes} {data : Password}
    (h : OnlyFlags db₀ db) (hdata : db codestr = .found data) :
    OnlyFlags db₀ (Function.update db codestr (.found { data with disabled := disabled })) := by
  intro codestr' data' hdata'
  by_cases hcode : codestr' = codestr
  · rw [hcode, Function.update_self] at hdata'
    cases hdata'
    obtain ⟨data₀, hdata₀, heq⟩ := h codestr data hdata
    refine ⟨data₀, hcode ▸ hdata₀, ?_⟩
    rw [heq]
  · rw [Function.update_of_ne hcode] at hdata'
    exact h codestr' data' hdata'

theorem setDisabled_sound {db₀ : Bytes → Get} (hgood : CodeGood (codeval, fault))
    (h : Sound changes db) (honly : OnlyFlags db₀ db) :
    ∃ s, (setDisabled disabled (some (db, pwd)) (codeval, fault)).1 = some s ∧
      Sound (changes ++ (setDisabled disabled (some (db, pwd)) (codeval, fault)).2) s.1 ∧
      OnlyFlags db₀ s.1 := by
  rcases setDisabled_cases h.absent hgood with heq | ⟨data, hdata, heq⟩
  · rw [heq]
    exact ⟨_, rfl, by simpa using h, honly⟩
  · rw [heq]
    have hat : RecordKept changes (printInt04 codeval) (.found data) := hdata ▸ h.kept _
    exact ⟨_, rfl, ⟨h.kept.update (hat.flagged disabled), absent_update_found h.absent _⟩,
      honly.update hdata⟩

/-- A whole `dispass` or `enapass`, started on the database `db`. -/
theorem setDisabled_run (disabled : ℤ) {codes : List (ℤ × Option Fault)}
    (hcodes : ∀ code ∈ codes, CodeGood code) (garbage : Password) (h : Sound changes db) :
    ∃ s, ((setDisabled disabled).run (some (db, garbage)) codes).1 = some s ∧
      Sound (changes ++ ((setDisabled disabled).run (some (db, garbage)) codes).2) s.1 ∧
      OnlyFlags db s.1 :=
  @Machine.run_induction_some _ _ _ _ CodeGood
    (fun s changes => Sound changes s.1 ∧ OnlyFlags db s.1)
    (fun _ _ _ hgood hinv => setDisabled_sound hgood hinv.1 hinv.2) (db, garbage) changes
    ⟨h, onlyFlags_refl⟩ codes hcodes

end Steps

section Programs

variable {mktime : Tm → ℤ × Tm} {sha1 : Bytes → Bytes} {changes : List Change}
  {db : Bytes → Get} {program : Program}

/-- One program. -/
theorem administer_sound (hgood : program.Good) (h : Sound changes db) :
    ∃ db', (administer mktime sha1 (some db) program).1 = some db' ∧
      Sound (changes ++ (administer mktime sha1 (some db) program).2) db' ∧
      (program.SetsFlags → OnlyFlags db db') := by
  cases program with
  | inspass printonly tm lines =>
    obtain ⟨s, hs, hsound⟩ := @Machine.run_induction_some _ _ _ _ Fields.Fits
      (fun s changes => Sound changes s.1)
      (fun _ _ _ hfits => @inspassLoop_sound mktime sha1 _ _ _ _ printonly hfits)
      (db, tm) changes h lines hgood
    exact ⟨s.1, congrArg (Option.map Prod.fst) hs, hsound, False.elim⟩
  | delpass codes =>
    obtain ⟨db', hdb', hsound⟩ := @Machine.run_induction_some _ _ _ _ CodeFits
      (fun db changes => Sound changes db) (fun _ _ _ hfits => delpass_sound hfits)
      db changes h codes hgood
    exact ⟨db', hdb', hsound, False.elim⟩
  | dispass garbage codes =>
    obtain ⟨s, hs, hsound, honly⟩ := setDisabled_run 1 hgood garbage h
    exact ⟨s.1, congrArg (Option.map Prod.fst) hs, hsound, fun _ => honly⟩
  | enapass garbage codes =>
    obtain ⟨s, hs, hsound, honly⟩ := setDisabled_run 0 hgood garbage h
    exact ⟨s.1, congrArg (Option.map Prod.fst) hs, hsound, fun _ => honly⟩

theorem sound_newDb : Sound [] newDb :=
  ⟨fun _ => recordKept_failed _, fun _ _ hret => by cases hret; decide⟩

theorem administer_run_sound {programs : List Program}
    (hgood : ∀ program ∈ programs, program.Good) :
    ∃ db, ((administer mktime sha1).run (some newDb) programs).1 = some db ∧
      Sound ((administer mktime sha1).run (some newDb) programs).2 db := by
  refine @Machine.run_induction_some _ _ _ (administer mktime sha1) Program.Good
    (fun db changes => Sound changes db) ?_ newDb [] sound_newDb programs hgood
  intro db changes program hgood h
  obtain ⟨db', hdb', hsound, -⟩ := administer_sound hgood h
  exact ⟨db', hdb', hsound⟩

/-- The lines with their times, each with the `tm` behind the line before. -/
def inspassEntries (mktime : Tm → ℤ × Tm) : Tm → List Fields → List Entry
  | _, [] => []
  | tm, f :: lines =>
    (inspassEntry mktime tm f).1 :: inspassEntries mktime (inspassEntry mktime tm f).2 lines

/-- On a new database, `inspass` makes the database the server looks its users up in. -/
theorem administer_inspass {lines : List Fields} (hfits : ∀ f ∈ lines, f.Fits) (tm : Tm) :
    (administer mktime sha1 (some newDb) (.inspass false tm lines)).1 =
      some (inspass sha1 (inspassEntries mktime tm lines)) := by
  have hrun : ∀ db, (((inspassLoop mktime sha1 false).run (some (db, tm)) lines).1.map Prod.fst) =
      some ((inspassEntries mktime tm lines).foldl
        (fun db e => passInsertdb db (printInt04 e.codeval) (e.record sha1) true) db) := by
    induction lines generalizing tm with
    | nil => exact fun _ => rfl
    | cons f lines ih =>
      intro db
      rw [Machine.run_cons_fst, inspassLoop, Machine.guarded_some (hfits f (by simp))]
      exact ih (fun f' hf' => hfits f' (by simp [hf'])) _ _
  exact hrun newDb

/-- **The records are kept.** While all that is read fits and no lookup fails with a positive
number, the programs leave each code the record inserted last, with the flag set last, and
`dispass` and `enapass` change nothing but the flags of records that are there. -/
theorem administer_kept {programs : List Program}
    (hgood : ∀ program ∈ programs, program.Good) :
    let run := (administer mktime sha1).run (some newDb)
    ∃ db, (run programs).1 = some db ∧ RecordsKept (run programs).2 db ∧
      ∀ before program after, programs = before ++ program :: after → program.SetsFlags →
        ∃ db₁ db₂, (run before).1 = some db₁ ∧ (run (before ++ [program])).1 = some db₂ ∧
          OnlyFlags db₁ db₂ := by
  intro run
  obtain ⟨db, hdb, hsound⟩ := @administer_run_sound mktime sha1 programs hgood
  refine ⟨db, hdb, hsound.kept, ?_⟩
  rintro before program after rfl hflags
  obtain ⟨db₁, hdb₁, hbefore⟩ := @administer_run_sound mktime sha1 before fun p hp =>
    hgood p (by simp [hp])
  obtain ⟨db₂, hdb₂, -, honly⟩ :=
    @administer_sound mktime sha1 _ _ _ (hgood program (by simp)) hbefore
  refine ⟨db₁, db₂, hdb₁, ?_, honly hflags⟩
  have happend : (run (before ++ [program])).1 =
      (administer mktime sha1 (run before).1 program).1 := by
    simp [run, Machine.run_append]
  rw [happend, hdb₁]
  exact hdb₂

end Programs

/-! ### Two colleges -/

/-- A digest for the samples: the password, filled up. -/
def fillUp (pass : Bytes) : Bytes :=
  (pass ++ List.replicate SHA_DIGEST_LENGTH 0).take SHA_DIGEST_LENGTH

/-- `mktime` in UTC, where there is no daylight saving, for parts in their ranges. -/
def mktimeUtc (tm : Tm) : ℤ × Tm :=
  let y := tm.year + 1900 - (if tm.mon < 2 then 1 else 0)
  let doy := (153 * ((tm.mon + 10) % 12) + 2) / 5 + tm.mday - 1
  -- the years that are counted begin in March
  let days := 365 * y + y / 4 - y / 100 + y / 400 + doy - 719468
  (days * 86400 + tm.hour * 3600 + tm.min * 60 + tm.sec, { tm with isdst := 0 })

def sampleColleges : Program :=
  .inspass false Tm.zero
    [⟨0, 1001, ascii "20051001", ascii "2005-01-01.10:00:00", ascii "2005-12-31.10:00:00"⟩,
      ⟨0, 1002, ascii "20051002", ascii "2006-01-01.10:00:00", ascii "2006-12-31.10:00:00"⟩]

theorem sampleColleges_good : sampleColleges.Good := by
  unfold sampleColleges Program.Good
  decide +kernel

/-- A failed lookup of the second college leaves its record alone. -/
theorem administer_kept_sample :
    let programs := [sampleColleges,
      .dispass Password.zero [(1001, none), (1002, some ⟨-30994, by decide⟩)]]
    let run := (administer mktimeUtc fillUp).run (some newDb)
    ∃ db, (run programs).1 = some db ∧ RecordsKept (run programs).2 db ∧
      ∃ db₁ db₂, (run [sampleColleges]).1 = some db₁ ∧ (run programs).1 = some db₂ ∧
        OnlyFlags db₁ db₂ := by
  intro programs run
  obtain ⟨db, hdb, hkept, honly⟩ := @administer_kept mktimeUtc fillUp programs (by
    intro program hprogram
    rcases List.mem_pair.1 hprogram with rfl | rfl
    · exact sampleColleges_good
    · intro code hcode
      rcases List.mem_pair.1 hcode with rfl | rfl
      · exact ⟨by decide, fun ret hret => by cases hret⟩
      · exact ⟨by decide, fun ret hret => by cases hret; decide⟩)
  exact ⟨db, hdb, hkept, honly [sampleColleges] _ [] rfl trivial⟩

/-- A lookup that fails with the number 5, an input/output error, writes the record of the
college before it: the second college is locked out with the password of the first,
and a college that was never inserted gets a record. -/
theorem administer_copies :
    let programs := [sampleColleges,
      .dispass Password.zero
        [(1001, none), (1002, some ⟨5, by decide⟩), (1003, some ⟨5, by decide⟩)]]
    let r := (administer mktimeUtc fillUp).run (some newDb) programs
    ∃ db, r.1 = some db ∧
      db (ascii "1002") = .found ⟨fillUp (ascii "20051001"), 20, 1, 1104573600, 1136023200⟩ ∧
      db (ascii "1003") = .found ⟨fillUp (ascii "20051001"), 20, 1, 1104573600, 1136023200⟩ ∧
      ¬ RecordsKept r.2 db := by
  intro programs r
  have hsome : r.1.isSome := by decide +kernel
  have hget : r.1.map (· (ascii "1002")) =
      some (.found ⟨fillUp (ascii "20051001"), 20, 1, 1104573600, 1136023200⟩) := by
    decide +kernel
  have hget' : r.1.map (· (ascii "1003")) =
      some (.found ⟨fillUp (ascii "20051001"), 20, 1, 1104573600, 1136023200⟩) := by
    decide +kernel
  obtain ⟨db, hdb⟩ := Option.isSome_iff_exists.mp hsome
  rw [hdb] at hget hget'
  have hfound := Option.some.inj hget'
  refine ⟨db, hdb, Option.some.inj hget, hfound, fun hkept => ?_⟩
  obtain ⟨before, record, after, hsplit, -⟩ := hkept (ascii "1003") _ hfound
  have hnone : ∀ c ∈ r.2, c.codestr ≠ ascii "1003" := by decide +kernel
  exact hnone (.inserted (ascii "1003") record) (by rw [hsplit]; simp) rfl

end Esif.Server
