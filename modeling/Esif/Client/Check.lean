import Esif.Client.Subjects
import Esif.Client.Verify

/-!
# The checks of a form

What the widgets of the entry form let in, and the part of `verify_form` that looks at it
before the file is written, with the messages to the user left out.

## Main definitions

* `Entries.Offered` — the entries hold what their widgets let in
* `Settings` — the options, the session and the files of the syllabus
* `verifyName`, `verifyNumber`, `verifyDate` — the checks of one entry
* `checkEntries` — all checks, in the order of `verify_form`
* `saveForm` — `verify_form`: the file of a form that passes them

## Main results

* `checkEntries_ok` — what is known of the header of a form that passes
* `Entries.Offered.widths` — entries that are offered keep to their widths
-/

namespace Esif.Client

open Esif.Posix

/-! ### The widgets -/

def ACCEPTCHARS : Bytes := ascii "ABCDEFGHIJKLMNOPQRSTUVWXYZ.- "

/-- The items of the list for the gender. -/
def genders : List Bytes := [ascii "Male", ascii "Female"]

/-- The items of the list for the section. -/
def sections : List Bytes :=
  [ascii " ", ascii "A", ascii "B", ascii "C", ascii "D", ascii "E", ascii "F"]

/-- `groupfiles`: the groups with the files of their subject codes. -/
def groupfiles : List (Bytes × Bytes × Bytes) :=
  [(ascii "Science", ascii "sub_sc.txt", ascii "sub_4th_sc.txt"),
    (ascii "Social Science", ascii "sub_so_sc.txt", ascii "sub_4th_so_sc.txt"),
    (ascii "Arts", ascii "sub_arts.txt", ascii "sub_4th_arts.txt"),
    (ascii "Commerce", ascii "sub_com.txt", ascii "sub_4th_com.txt"),
    (ascii "Agriculture", ascii "sub_agri.txt", ascii "sub_4th_agri.txt"),
    (ascii "Home Economics", ascii "sub_home_eco.txt", ascii "sub_4th_home_eco.txt"),
    (ascii "Islamic Studies", ascii "sub_is_st.txt", ascii "sub_4th_is_st.txt"),
    (ascii "Music", ascii "sub_music.txt", ascii "sub_4th_music.txt"),
    (ascii "Business", ascii "sub_busi.txt", ascii "sub_4th_busi.txt")]

/-- The items of the list for the month. -/
def months : List Bytes :=
  [ascii "Jan", ascii "Feb", ascii "Mar", ascii "Apr", ascii "May", ascii "Jun", ascii "Jul",
    ascii "Aug", ascii "Sep", ascii "Oct", ascii "Nov", ascii "Dec"]

/-- The items of the list for the day. -/
def days : List Bytes := (List.range 31).map fun i => (decimal (i + 1)).leftpad 2 48

/-- The items of the lists for the board, which cannot be edited: the one item of the window
for a new form, and the one of the window for a form that was saved. -/
def boards : List Bytes := [ascii "Dhaka", ascii "Rajshahi"]

/-- The items of the list for the board of the examination before. -/
def previousBoards : List Bytes :=
  [ascii "Rajshahi", ascii "Dhaka", ascii "Comilla", ascii "Jessore", ascii "Chittagong",
    ascii "Barisal", ascii "Sylhet", ascii "Madrasa", ascii "Technical", ascii "Others"]

/-- The items of the list for the religion. -/
def religions : List Bytes :=
  [ascii "Islam", ascii "Hindu", ascii "Buddist", ascii "Christian", ascii "Others"]

def toupper (b : UInt8) : UInt8 := if 97 ≤ b ∧ b ≤ 122 then b - 32 else b

/-- `strupper(str)` -/
def strupper (str : Bytes) : Bytes := str.map toupper

/-- `on_combo_entry7_changed`: the most digits of the roll and of the registration of the
examination before. -/
def rollLength (board : Bytes) : ℕ :=
  if board = ascii "Technical" ∨ board = ascii "Others" then 10 else 6

/-- A text in an entry for a name: what `strspn` with `ACCEPTCHARS` leaves of it. -/
def IsNameEntry (text : Bytes) : Prop := text.length ≤ 40 ∧ ∀ b ∈ text, b ∈ ACCEPTCHARS

/-- A text in an entry for a number of `n` digits. -/
def IsNumberEntry (n : ℕ) (text : Bytes) : Prop := text.length ≤ n ∧ ∀ b ∈ text, isdigit b = true

instance : DecidablePred IsNameEntry := fun _ => inferInstanceAs (Decidable (_ ∧ _))

instance (n : ℕ) : DecidablePred (IsNumberEntry n) := fun _ => inferInstanceAs (Decidable (_ ∧ _))

/-- The entries that go into the header hold what their widgets let in. -/
structure Entries.HeadOffered (e : Entries) : Prop where
  studentName : IsNameEntry e.studentName
  group : e.group ∈ groupfiles.map Prod.fst
  classRoll : IsNumberEntry 4 e.classRoll
  totList : IsNumberEntry 4 e.totList
  sec : e.sec ∈ sections
  gender : e.gender ∈ genders

/-- All entries do. The code and the name of the college and the session were looked up and
cannot be edited; the name is in capitals. -/
structure Entries.Offered (e : Entries) : Prop extends e.HeadOffered where
  fatherName : IsNameEntry e.fatherName
  motherName : IsNameEntry e.motherName
  session : IsNumberEntry 4 e.session
  board : e.board ∈ boards
  dayOfBirth : e.dayOfBirth ∈ days
  monthOfBirth : e.monthOfBirth ∈ months
  yearOfBirth : IsNumberEntry 4 e.yearOfBirth
  collegeCode : IsNumberEntry 4 e.collegeCode
  collegeName : IsText e.collegeName ∧ e.collegeName.length ≤ 70
  collegeUpper : strupper e.collegeName = e.collegeName
  previousBoard : e.previousBoard ∈ previousBoards
  previousYear : IsNumberEntry 4 e.previousYear
  previousRoll : IsNumberEntry (rollLength e.previousBoard) e.previousRoll
  previousReg : IsNumberEntry (rollLength e.previousBoard) e.previousReg
  previousSessStart : IsNumberEntry 4 e.previousSessStart
  previousSessEnd : IsNumberEntry 4 e.previousSessEnd
  religion : e.religion ∈ religions
  subs : ∀ i, IsNumberEntry 3 (e.subs i)

/-! ### The checks -/

def E_NO_ERROR : ℕ := 99

def E_NO_ERROR_FAILED : ℕ := 100

def E_STUDENT_NAME : ℕ := 1

def E_FATHERS_NAME : ℕ := 2

def E_MOTHERS_NAME : ℕ := 3

def E_SESSION : ℕ := 4

def E_CLASS_ROLL : ℕ := 5

def E_BIRTH_DATE : ℕ := 6

def E_TOT_LIST : ℕ := 7

def E_COLLEGE_CODE : ℕ := 8

def E_PREVIOUS_YEAR : ℕ := 9

def E_PREVIOUS_ROLL : ℕ := 10

def E_PREVIOUS_REG : ℕ := 11

def E_PREVIOUS_SESS_START : ℕ := 12

def E_PREVIOUS_SESS_END : ℕ := 13

/-- The options of the program, the session of the forms and the lists in the files of the
syllabus; a list is `none` when its file cannot be opened. -/
structure Settings where
  ignoreFaName : Bool
  ignoreMoName : Bool
  ignoreBirthdate : Bool
  ignoreTotlist : Bool
  ignorePrevYear : Bool
  ignorePrevRoll : Bool
  ignorePrevReg : Bool
  ignorePrevSess : Bool
  isSsc : Bool
  allSession : Bytes
  codes : Bytes → Option (List ℤ)
  special : Option (List ℤ)
  pairs : Option PairTable

def isalpha (b : UInt8) : Bool := (65 ≤ b && b ≤ 90) || (97 ≤ b && b ≤ 122)

/-- The loop of `verify_name`, behind `numSpace` blanks. -/
def verifyNameLoop : ℕ → Bytes → Bool
  | _, [] => false
  | numSpace, b :: str =>
    if isalpha b || b == 46 || b == 45 then verifyNameLoop 0 str
    else if isspace b && numSpace < 1 then verifyNameLoop (numSpace + 1) str
    else true

/-- `verify_name(str)`: whether there is something wrong. -/
def verifyName : Bytes → Bool
  | [] => true
  | b :: str => if isalpha b then verifyNameLoop 0 str else true

/-- `verify_number(str)`: whether there is something wrong. -/
def verifyNumber (str : Bytes) : Bool := str.length < 1 || !str.all isdigit

/-- `verify_date(dd, Mon, yyyy)`: whether there is something wrong. -/
def verifyDate (dd : ℤ) (mon : Bytes) (yyyy : ℤ) : Bool :=
  let leap := (yyyy % 4 = 0 ∧ yyyy % 100 ≠ 0) ∨ yyyy % 400 = 0
  if mon = ascii "Feb" then
    if leap ∧ 29 < dd then true else if ¬ leap ∧ 28 < dd then true else false
  else if mon = ascii "Apr" ∧ 30 < dd then true
  else if mon = ascii "Jun" ∧ 30 < dd then true
  else if mon = ascii "Sep" ∧ 30 < dd then true
  else if mon = ascii "Nov" ∧ 30 < dd then true
  else false

/-- The checks of the date of birth: the student is between 10 and 30 years old. -/
def checkBirthdate (st : Settings) (e : Entries) : Option ℕ :=
  let dd := atoi e.dayOfBirth
  let yyyy := atoi e.yearOfBirth
  if e.yearOfBirth.length < 4 || verifyNumber e.yearOfBirth then some E_BIRTH_DATE
  else if verifyDate dd e.monthOfBirth yyyy then some E_BIRTH_DATE
  else if yyyy > atoi st.allSession - 10 ∨ yyyy ≤ atoi st.allSession - 30 then some E_BIRTH_DATE
  else none

/-- The checks of the session of the examination before. -/
def checkPrevSess (st : Settings) (e : Entries) : Option ℕ :=
  let start := atoi e.previousSessStart
  let end_ := atoi e.previousSessEnd
  if e.previousSessStart.length < 4 || verifyNumber e.previousSessStart then
    some E_PREVIOUS_SESS_START
  else if start ≥ atoi st.allSession then some E_PREVIOUS_SESS_START
  else if e.previousSessEnd.length < 4 || verifyNumber e.previousSessEnd then
    some E_PREVIOUS_SESS_END
  else if end_ ≥ atoi st.allSession then some E_PREVIOUS_SESS_END
  else if start ≠ end_ - 1 then some E_PREVIOUS_SESS_START
  else none

/-- The checks of the examination before. -/
def checkPrevious (st : Settings) (e : Entries) : Option ℕ :=
  if !st.ignorePrevYear && (e.previousYear.length < 4 || verifyNumber e.previousYear) then
    some E_PREVIOUS_YEAR
  else if !st.ignorePrevYear && atoi e.previousYear ≥ atoi st.allSession then some E_PREVIOUS_YEAR
  else if !st.ignorePrevRoll && (e.previousRoll.length < 6 || verifyNumber e.previousRoll) then
    some E_PREVIOUS_ROLL
  else if !st.ignorePrevReg && (e.previousReg.length < 6 || verifyNumber e.previousReg) then
    some E_PREVIOUS_REG
  else if st.ignorePrevSess then none
  else checkPrevSess st e

/-- The check of the subject codes, by the files of the group. -/
def checkSubjects (st : Settings) (e : Entries) : Option ℕ := do
  -- behind the last group there are no file names: nothing can be opened
  let (sublist, fourthsublist) := match groupfiles.lookup e.group with
    | some (filename, fourthsubfile) => (st.codes filename, st.codes fourthsubfile)
    | none => (none, none)
  let ret ← verifySubjectCodesByGroup sublist fourthsublist st.special st.pairs (List.ofFn e.subs)
  return if ret ≠ 0 then E_NO_ERROR_FAILED else E_NO_ERROR

/-- The checks of `verify_form` in their order: the error of the first one that fails. -/
def checkEntries (st : Settings) (e : Entries) : Option ℕ :=
  if verifyName e.studentName then some E_STUDENT_NAME
  else if !st.ignoreFaName && verifyName e.fatherName then some E_FATHERS_NAME
  else if !st.ignoreMoName && verifyName e.motherName then some E_MOTHERS_NAME
  else if verifyNumber e.session then some E_SESSION
  else if atoi e.classRoll < 1 || verifyNumber e.classRoll then some E_CLASS_ROLL
  else match if st.ignoreBirthdate then none else checkBirthdate st e with
    | some err => some err
    | none =>
      if !st.ignoreTotlist && (e.totList.length < 1 || verifyNumber e.totList) then some E_TOT_LIST
      else if verifyNumber e.collegeCode then some E_COLLEGE_CODE
      else match if st.isSsc then none else checkPrevious st e with
        | some err => some err
        | none => checkSubjects st e

/-- `verify_form`: the name and the lines of the file, when every check is passed. -/
def saveForm (st : Settings) (infodirname : Bytes) (e : Entries) : Option (Bytes × List Bytes) :=
  if checkEntries st e = some E_NO_ERROR then verifyForm infodirname e else none

section Checks

variable {st : Settings} {e : Entries} {infodirname path : Bytes} {lines : List Bytes}

/-- A check that does not end in the error it reports was passed. -/
theorem passed_of_ne {c : Prop} [Decidable c] {err : ℕ} {rest : Option ℕ}
    (h : (if c then some err else rest) = some E_NO_ERROR) (herr : err ≠ E_NO_ERROR) :
    ¬ c ∧ rest = some E_NO_ERROR := by
  split_ifs at h with hc
  · exact absurd (Option.some.inj h) herr
  · exact ⟨hc, h⟩

/-- A form that passes has a student name that `verify_name` accepts and a roll of at
least 1. -/
theorem checkEntries_ok (h : checkEntries st e = some E_NO_ERROR) :
    verifyName e.studentName = false ∧ 1 ≤ atoi e.classRoll := by
  obtain ⟨hname, h⟩ := passed_of_ne h (by decide)
  obtain ⟨-, h⟩ := passed_of_ne h (by decide)
  obtain ⟨-, h⟩ := passed_of_ne h (by decide)
  obtain ⟨-, h⟩ := passed_of_ne h (by decide)
  obtain ⟨hroll, -⟩ := passed_of_ne h (by decide)
  simp only [Bool.or_eq_true, decide_eq_true_eq, not_or, not_lt] at hroll
  exact ⟨by simpa using hname, hroll.1⟩

theorem saveForm_cases (h : saveForm st infodirname e = some (path, lines)) :
    checkEntries st e = some E_NO_ERROR ∧ verifyForm infodirname e = some (path, lines) := by
  unfold saveForm at h
  split_ifs at h with hcheck
  exact ⟨hcheck, h⟩

end Checks

/-! ### What the widgets let in -/

section Offered

variable {text : Bytes} {n : ℕ} {e : Entries}

theorem IsNameEntry.isText (h : IsNameEntry text) : IsText text := by
  have hchars : ∀ b ∈ ACCEPTCHARS, b ≠ nul ∧ b ≠ newline ∧ b ≠ carriageReturn := by
    decide +kernel
  exact fun b hb => hchars b (h.2 b hb)

theorem IsNumberEntry.isText (h : IsNumberEntry n text) : IsText text :=
  fun b hb => isText_of_isdigit (Or.inl (h.2 b hb))

theorem rollLength_le (board : Bytes) : rollLength board ≤ 10 := by
  unfold rollLength
  split <;> decide

/-- The value of an entry of four digits. -/
theorem atoi_of_isNumberEntry (h : IsNumberEntry 4 text) : 0 ≤ atoi text ∧ atoi text < 10000 := by
  have hbounds := strtol_bounds h.1
  have hnonneg : 0 ≤ strtol text := by
    by_cases hnil : text = []
    · simp [hnil, strtol, digitsVal]
    · rw [strtol_of_digits hnil h.2]
      exact Int.natCast_nonneg _
  rw [atoi, toInt32]
  omega

/-- Entries that are offered keep to their widths. -/
theorem Entries.Offered.widths (he : e.Offered) :
    ∀ p ∈ e.widths, IsText p.1 ∧ p.1.length ≤ p.2 := by
  have hnumber := fun {n text} (h : IsNumberEntry n text) => And.intro h.isText h.1
  have hname := fun {text} (h : IsNameEntry text) => And.intro h.isText h.1
  have hroll := fun {text} (h : IsNumberEntry (rollLength e.previousBoard) text) =>
    And.intro h.isText (h.1.trans (rollLength_le _))
  have hgender : ∀ item ∈ genders, IsText item ∧ item.length ≤ 6 := by decide
  have hsec : ∀ item ∈ sections, IsText item ∧ item.length ≤ 1 := by decide
  have hgroup : ∀ item ∈ groupfiles.map Prod.fst, IsText item ∧ item.length ≤ 15 := by decide
  have hmonth : ∀ item ∈ months, IsText item ∧ item.length ≤ 3 := by decide
  have hday : ∀ item ∈ days, IsText item ∧ item.length ≤ 2 := by decide
  have hboard : ∀ item ∈ boards, IsText item ∧ item.length ≤ 8 := by decide
  have hpboard : ∀ item ∈ previousBoards, IsText item ∧ item.length ≤ 10 := by decide
  have hreligion : ∀ item ∈ religions, IsText item ∧ item.length ≤ 9 := by decide
  simp only [Entries.widths, List.cons_append, List.nil_append, List.forall_mem_cons]
  refine ⟨hname he.studentName, hname he.fatherName, hname he.motherName,
    hgroup _ he.group, hnumber he.session, hboard _ he.board, hnumber he.classRoll,
    hday _ he.dayOfBirth, hmonth _ he.monthOfBirth, hnumber he.yearOfBirth, hnumber he.totList,
    hsec _ he.sec, hnumber he.collegeCode, he.collegeName, hpboard _ he.previousBoard,
    hnumber he.previousYear, hroll he.previousRoll, hroll he.previousReg,
    hnumber he.previousSessStart, hnumber he.previousSessEnd, hgender _ he.gender,
    hreligion _ he.religion, ?_⟩
  intro p hp
  obtain ⟨i, rfl⟩ := List.mem_ofFn.mp hp
  exact hnumber (he.subs i)

end Offered

end Esif.Client
