import Mathlib.Data.List.OfFn
import Esif.Posix.Decimal
import Esif.Client.Form

/-!
# Writing a form

The part of `verify_form` that writes the file, behind the checks of the entries:
its name, its lines and the name of the photo.

## Main definitions

* `Entries` — the texts of the entries of the editor
* `fixInfoPath`, `constructFilename`, `photoPath` — the names
* `formLines` — the lines written
* `verifyForm` — the name of the file and its lines
* `Entries.Fits` — the entries keep to their widths

## Main results

* `verifyForm_lines` — each line is a text with its newline, and keeps to its width
* `photoPath_fits` — the name of the photo fits its line exactly when the extension fits
* `markSent_verifyForm` — the header can be read back
-/

namespace Esif.Client

open Esif.CS Esif.Posix

def ROOTDIR : Bytes := ascii "/home/ayub"

def BOARD : Bytes := ascii "Rajshahi"

def MAXDIRNAME : ℕ := 200

def MAXFILENAME : ℕ := 30

/-- The lines of a form. -/
def TXTLINES : ℕ := 39

/-- The texts of the entries, and the photo that was chosen. -/
structure Entries where
  studentName : Bytes
  fatherName : Bytes
  motherName : Bytes
  group : Bytes
  session : Bytes
  board : Bytes
  classRoll : Bytes
  dayOfBirth : Bytes
  monthOfBirth : Bytes
  yearOfBirth : Bytes
  totList : Bytes
  sec : Bytes
  collegeCode : Bytes
  collegeName : Bytes
  previousBoard : Bytes
  previousYear : Bytes
  previousRoll : Bytes
  previousReg : Bytes
  previousSessStart : Bytes
  previousSessEnd : Bytes
  gender : Bytes
  religion : Bytes
  subs : Fin NUM_TOTAL_SUB → Bytes
  photo : Option Bytes

/-- `atoi` -/
def atoi (s : Bytes) : ℤ := toInt32 (strtol s)

/-- `infodirname` -/
def fixInfoPath (allSession allColcode : Bytes) : Bytes :=
  ROOTDIR ++ ascii "/" ++ BOARD ++ ascii "/" ++ allSession ++ ascii "/" ++ ascii "INSTITUTE_" ++
    allColcode ++ ascii "/"

/-- The letters that stand for the groups. -/
def groupLetters : List (Bytes × Bytes) :=
  [(ascii "Science", ascii "0"), (ascii "Social Science", ascii "1"), (ascii "Arts", ascii "2"),
    (ascii "Commerce", ascii "3"), (ascii "Agriculture", ascii "4"), (ascii "home_eco", ascii "5"),
    (ascii "Islamic Studies", ascii "6"), (ascii "Music", ascii "7"), (ascii "Business", ascii "8")]

/-- `"%s_%04d_%s_%04d_%s.txt"` -/
def constructFilename (gender : Bytes) (roll : ℤ) (sec : Bytes) (totlist : ℤ) (group : Bytes) :
    Bytes :=
  -- a chain of `strcmp`, with `'u'` for an unknown group
  let grp := (groupLetters.lookup group).getD (ascii "u")
  let gen := if gender = ascii "Male" then ascii "M" else ascii "F"
  -- a blank in a file name
  let s := if sec = ascii " " then ascii "_" else sec
  gen ++ ascii "_" ++ printInt04 roll ++ ascii "_" ++ s ++ ascii "_" ++ printInt04 totlist ++
    ascii "_" ++ grp ++ ascii ".txt"

/-- `strrchr(base, '.') + 1`, when there is a dot. -/
def extension (base : Bytes) : Option Bytes :=
  if 46 ∈ base then some (base.reverse.takeWhile (· != 46)).reverse else none

/-- The name of the copy of a photo: that of the form, with the extension of the
photo in the place of its last three letters. -/
def photoPath (fullFilename photoFilename : Bytes) : Option Bytes := do
  let base ← basename photoFilename
  let ext ← extension base
  -- the extension of the photo can be longer than the `txt` it replaces
  return fullFilename.take (fullFilename.length - 3) ++ ext

/-- A line with its label. -/
def labelled (label : String) (text : Bytes) : Bytes := ascii label ++ text ++ [newline]

/-- `"%s-%s-%s"` -/
def Entries.birthdate (e : Entries) : Bytes :=
  e.dayOfBirth ++ ascii "-" ++ e.monthOfBirth ++ ascii "-" ++ e.yearOfBirth

/-- The first line, with the flag unset. -/
def Entries.header (e : Entries) : Header where
  gen := e.gender
  roll := atoi e.classRoll
  sec := e.sec
  tot := atoi e.totList
  group := e.group
  sent := 0

/-- `"SUB_%02d %s\n"` -/
def subjectLine (i : Fin NUM_TOTAL_SUB) (text : Bytes) : Bytes :=
  ascii "SUB_" ++ (decimal (i + 1)).leftpad 2 48 ++ ascii " " ++ text ++ [newline]

/-- The lines between the header and the subjects. -/
def Entries.labelledLines (e : Entries) : List Bytes :=
  [labelled "STUDENTS_NAME " e.studentName,
    labelled "FATHERS_NAME " e.fatherName,
    labelled "MOTHERS_NAME " e.motherName,
    labelled "GROUP " e.group,
    labelled "SESSION " e.session,
    labelled "BOARD " e.board,
    labelled "CLASS_ROLL " (printInt04 (atoi e.classRoll)),
    labelled "BIRTHDATE " e.birthdate,
    labelled "TOT_LIST " (printInt04 (atoi e.totList)),
    labelled "SECTION " e.sec,
    labelled "INSTITUTE_CODE " e.collegeCode,
    labelled "INSTITUTE_NAME " e.collegeName,
    labelled "PREVIOUS_BOARD " e.previousBoard,
    labelled "PREVIOUS_YEAR " e.previousYear,
    labelled "PREVIOUS_ROLL " e.previousRoll,
    labelled "PREVIOUS_REG " e.previousReg,
    labelled "PREVIOUS_SESSION " (e.previousSessStart ++ ascii "-" ++ e.previousSessEnd),
    labelled "GENDER " e.gender,
    labelled "RELIGION " e.religion]

/-- The lines of the form of a student: `HEADPATTERN` ends with an empty one. -/
def formLines (e : Entries) (photo : Bytes) : List Bytes :=
  e.header.print e.studentName :: [newline] :: e.labelledLines ++
    List.ofFn (fun i => subjectLine i (e.subs i)) ++ [labelled "PHOTO " photo]

/-- The name of the file of a form. -/
def Entries.filename (e : Entries) : Bytes :=
  constructFilename e.gender (atoi e.classRoll) e.sec (atoi e.totList) e.group

/-- The file `verify_form` writes: its name and its lines. It stops where an array
overruns, and at a photo whose name has no slash or no dot behind it. -/
def verifyForm (infodirname : Bytes) (e : Entries) : Option (Bytes × List Bytes) :=
  let fullFilename := infodirname ++ e.filename
  if 12 ≤ e.birthdate.length ∨ 2 ≤ e.sec.length ∨ MAXFILENAME ≤ e.filename.length ∨
      MAXDIRNAME + MAXFILENAME ≤ fullFilename.length then none
  else match e.photo with
    | none => some (fullFilename, formLines e [])
    | some photo => do
      let path ← photoPath fullFilename photo
      if MAXDIRNAME + MAXFILENAME ≤ path.length then none
      else return (fullFilename, formLines e path)

/-! ### Entries that fit -/

/-- The widths of the entries; for the lists to choose from, the length of the
longest choice. -/
def Entries.widths (e : Entries) : List (Bytes × ℕ) :=
  [(e.studentName, 40), (e.fatherName, 40), (e.motherName, 40), (e.group, 15), (e.session, 4),
    (e.board, 8), (e.classRoll, 4), (e.dayOfBirth, 2), (e.monthOfBirth, 3), (e.yearOfBirth, 4),
    (e.totList, 4), (e.sec, 1), (e.collegeCode, 4), (e.collegeName, 70), (e.previousBoard, 10),
    (e.previousYear, 4), (e.previousRoll, 10), (e.previousReg, 10), (e.previousSessStart, 4),
    (e.previousSessEnd, 4), (e.gender, 6), (e.religion, 9)] ++ List.ofFn fun i => (e.subs i, 3)

/-- Every entry is a text of its width. The gender, the section and the group are
choices of their lists, which have no colon. -/
structure Entries.Fits (e : Entries) : Prop where
  widths : ∀ p ∈ e.widths, IsText p.1 ∧ p.1.length ≤ p.2
  photo : ∀ photo, e.photo = some photo → IsText photo
  gender : colon ∉ e.gender
  sec : colon ∉ e.sec
  group : colon ∉ e.group

/-- A line of at most `n` bytes as it is written: a text and its newline. It is empty
or too long to be a command of the server. -/
def IsLine (line : Bytes) (n : ℕ) : Prop :=
  ∃ body, line = body ++ [newline] ∧ IsText body ∧ (body = [] ∨ 5 ≤ body.length) ∧ line.length ≤ n

/-- The most bytes that the lines of a form have. -/
def lineWidths : List ℕ :=
  [78, 1, 55, 54, 54, 22, 13, 15, 16, 22, 14, 10, 20, 86, 26, 19, 25, 24, 27, 14, 19] ++
    List.replicate NUM_TOTAL_SUB 11 ++ [119]

section Lines

variable {e : Entries} {label : String} {text text' photo : Bytes} {n k : ℕ}

theorem isText_of_isdigit {b : UInt8} (h : isdigit b = true ∨ b = 45) :
    b ≠ nul ∧ b ≠ newline ∧ b ≠ carriageReturn := by
  refine ⟨?_, ?_, ?_⟩ <;>
    · rintro rfl
      exact absurd h (by decide)

theorem isText_printInt04 (z : ℤ) : IsText (printInt04 z) := fun _ hb =>
  isText_of_isdigit (of_mem_printInt04 hb)

theorem length_printInt04_atoi (h : text.length ≤ 4) : (printInt04 (atoi text)).length = 4 := by
  obtain ⟨hlow, hhigh⟩ := strtol_bounds h
  have hint : atoi text = strtol text := by
    rw [atoi, toInt32]
    omega
  rw [hint, length_printInt04 hlow hhigh]

theorem labelled_isLine (hlabel : IsText (ascii label)) (hcommand : 5 ≤ (ascii label).length)
    (htext : IsText text) (hlen : text.length ≤ k) (hn : (ascii label).length + k < n) :
    IsLine (labelled label text) n := by
  refine ⟨ascii label ++ text, rfl, isText_append.mpr ⟨hlabel, htext⟩, Or.inr ?_, ?_⟩
  · rw [List.length_append]
    omega
  · simp only [labelled, List.length_append, List.length_singleton]
    omega

theorem subjectLine_isLine (i : Fin NUM_TOTAL_SUB) (htext : IsText text) (hlen : text.length ≤ 3) :
    IsLine (subjectLine i text) 11 := by
  have hi : (i : ℕ) + 1 < 10 ^ 2 := by
    have hlt := i.isLt
    unfold NUM_TOTAL_SUB at hlt
    omega
  have hpad : ((decimal (i + 1)).leftpad 2 48).length = 2 := by
    have hdec := length_decimal_le (by decide) hi
    rw [List.length_leftpad]
    omega
  have hword : (ascii "SUB_").length = 4 ∧ (ascii " ").length = 1 := by decide
  have hdigits : IsText ((decimal (i + 1)).leftpad 2 48) := fun b hb =>
    isText_of_isdigit (Or.inl (isdigit_of_mem_leftpad hb))
  refine ⟨ascii "SUB_" ++ (decimal (i + 1)).leftpad 2 48 ++ ascii " " ++ text, rfl, ?_,
    Or.inr ?_, ?_⟩
  · simp only [isText_append]
    exact ⟨⟨⟨by decide, hdigits⟩, by decide⟩, htext⟩
  · simp only [List.length_append]
    omega
  · simp only [subjectLine, List.length_append, List.length_singleton]
    omega

theorem header_isLine (he : e.Fits) : IsLine (e.header.print e.studentName) 78 := by
  have hwidths := he.widths
  simp only [Entries.widths, List.cons_append, List.nil_append, List.forall_mem_cons] at hwidths
  obtain ⟨hname, -, -, hgroup, -, -, hroll, -, -, -, htot, hsec, -, -, -, -, -, -, -, -, hgender,
    -⟩ := hwidths
  have hroll' := length_printInt04_atoi hroll.2
  have htot' := length_printInt04_atoi htot.2
  have hsent : printInt 0 = [48] := rfl
  have hcolon : IsText [colon] := by decide
  have hzero : IsText [48] := by decide
  refine ⟨e.gender ++ [colon] ++ printInt04 (atoi e.classRoll) ++ [colon] ++ e.sec ++ [colon] ++
    printInt04 (atoi e.totList) ++ [colon] ++ e.group ++ [colon] ++ [48] ++ [colon] ++
    e.studentName,
    rfl, ?_, Or.inr ?_, ?_⟩
  · simp only [isText_append]
    simp only [hname.1, hgroup.1, hsec.1, hgender.1, isText_printInt04, hcolon, hzero, and_self]
  · simp only [List.length_append, List.length_singleton]
    omega
  · simp only [Header.print, Entries.header, hsent, List.length_append, List.length_singleton]
    omega

theorem labelledLines_isLine (hwidths : ∀ p ∈ e.widths, IsText p.1 ∧ p.1.length ≤ p.2) :
    List.Forall₂ IsLine e.labelledLines
      [55, 54, 54, 22, 13, 15, 16, 22, 14, 10, 20, 86, 26, 19, 25, 24, 27, 14, 19] := by
  simp only [Entries.widths, List.cons_append, List.nil_append, List.forall_mem_cons] at hwidths
  obtain ⟨hname, hfather, hmother, hgroup, hsession, hboard, hroll, hday, hmonth, hyear, htot, hsec,
    hcode, hcollege, hpboard, hpyear, hproll, hpreg, hstart, hend, hgender, hreligion, -⟩ := hwidths
  have hdash : IsText (ascii "-") := by decide
  have hlen : (ascii "-").length = 1 := by decide
  have hbirth : IsText e.birthdate ∧ e.birthdate.length ≤ 11 := by
    simp only [Entries.birthdate, isText_append, List.length_append, hday.1, hmonth.1, hyear.1,
      hdash, and_self, true_and]
    omega
  have hprev : IsText (e.previousSessStart ++ ascii "-" ++ e.previousSessEnd) ∧
      (e.previousSessStart ++ ascii "-" ++ e.previousSessEnd).length ≤ 9 := by
    simp only [isText_append, List.length_append, hstart.1, hend.1, hdash, and_self, true_and]
    omega
  have hnumber : ∀ {text : Bytes}, text.length ≤ 4 →
      IsText (printInt04 (atoi text)) ∧ (printInt04 (atoi text)).length ≤ 4 := fun h =>
    ⟨isText_printInt04 _, (length_printInt04_atoi h).le⟩
  have hline : ∀ {label : String} {text : Bytes} {k n : ℕ}, IsText text ∧ text.length ≤ k →
      IsText (ascii label) ∧ 5 ≤ (ascii label).length ∧ (ascii label).length + k < n →
      IsLine (labelled label text) n := fun htext hlabel =>
    labelled_isLine hlabel.1 hlabel.2.1 htext.1 htext.2 hlabel.2.2
  refine .cons (hline hname (by decide)) <| .cons (hline hfather (by decide)) <|
    .cons (hline hmother (by decide)) <| .cons (hline hgroup (by decide)) <|
    .cons (hline hsession (by decide)) <| .cons (hline hboard (by decide)) <|
    .cons (hline (hnumber hroll.2) (by decide)) <| .cons (hline hbirth (by decide)) <|
    .cons (hline (hnumber htot.2) (by decide)) <| .cons (hline hsec (by decide)) <|
    .cons (hline hcode (by decide)) <| .cons (hline hcollege (by decide)) <|
    .cons (hline hpboard (by decide)) <| .cons (hline hpyear (by decide)) <|
    .cons (hline hproll (by decide)) <| .cons (hline hpreg (by decide)) <|
    .cons (hline hprev (by decide)) <| .cons (hline hgender (by decide)) <|
    .cons (hline hreligion (by decide)) .nil

/-- The lines keep to their widths, when the name of the photo does. -/
theorem formLines_isLine (he : e.Fits) (hphoto : IsText photo) (hlen : photo.length ≤ 112) :
    List.Forall₂ IsLine (formLines e photo) lineWidths := by
  have hsubs : List.Forall₂ IsLine (List.ofFn fun i => subjectLine i (e.subs i))
      (List.replicate NUM_TOTAL_SUB 11) := by
    rw [← List.ofFn_const, List.forall₂_iff_get]
    refine ⟨by simp, fun i hi _ => ?_⟩
    simp only [List.get_eq_getElem, List.getElem_ofFn]
    obtain ⟨htext, hle⟩ := he.widths (e.subs ⟨i, by simpa using hi⟩, 3) (by simp [Entries.widths])
    exact subjectLine_isLine _ htext hle
  have hlast : IsLine (labelled "PHOTO " photo) 119 :=
    labelled_isLine (by decide) (by decide) hphoto hlen (by decide)
  have hempty : IsLine [newline] 1 := ⟨[], rfl, by decide, Or.inl rfl, le_rfl⟩
  exact List.rel_append (List.rel_append (.cons (header_isLine he) (.cons hempty
    (labelledLines_isLine he.widths))) hsubs) (.cons hlast .nil)

theorem isLine_of_mem {lines : List Bytes} {widths : List ℕ} (h : List.Forall₂ IsLine lines widths)
    {line : Bytes} (hline : line ∈ lines) : ∃ n ∈ widths, IsLine line n := by
  induction h with
  | nil => simp at hline
  | cons hhead _ ih =>
    rcases List.mem_cons.mp hline with rfl | hline
    · exact ⟨_, List.mem_cons_self, hhead⟩
    · obtain ⟨n, hn, htail⟩ := ih hline
      exact ⟨n, List.mem_cons_of_mem _ hn, htail⟩

/-- Lines that keep to their widths have at most the sum of these, and a NUL each. -/
theorem size_le_of_isLine {lines : List Bytes} {widths : List ℕ}
    (h : List.Forall₂ IsLine lines widths) :
    (lines.map fun line => line.length + 1).sum ≤ (widths.map (· + 1)).sum := by
  induction h with
  | nil => simp
  | cons hline _ ih =>
    obtain ⟨body, -, -, -, hlen⟩ := hline
    simp only [List.map_cons, List.sum_cons]
    omega

end Lines

/-! ### The file -/

section File

variable {e : Entries} {infodirname path : Bytes} {lines : List Bytes}
  {session colcode photo name : Bytes}

theorem verifyForm_cases (h : verifyForm infodirname e = some (path, lines)) :
    path = infodirname ++ e.filename ∧ ∃ photo, lines = formLines e photo ∧
      (e.photo = none ∧ photo = [] ∨
        ∃ name, e.photo = some name ∧ photoPath path name = some photo) := by
  unfold verifyForm at h
  dsimp only at h
  split_ifs at h
  cases hphoto : e.photo with
  | none =>
    rw [hphoto] at h
    obtain ⟨rfl, rfl⟩ := Prod.mk.inj (Option.some.inj h)
    exact ⟨rfl, [], rfl, Or.inl ⟨rfl, rfl⟩⟩
  | some name =>
    rw [hphoto] at h
    obtain ⟨photo, hpath, h⟩ := Option.bind_eq_some_iff.mp h
    split_ifs at h
    obtain ⟨rfl, rfl⟩ := Prod.mk.inj (Option.some.inj h)
    exact ⟨rfl, photo, rfl, Or.inr ⟨name, rfl, hpath⟩⟩

/-- The extension of the photo, if there is one, leaves room for the name of its copy
on the last line. -/
def PhotoFits (colcode : Bytes) (e : Entries) : Prop :=
  ∀ name base ext, e.photo = some name → basename name = some base → extension base = some ext →
    colcode.length + e.sec.length + ext.length ≤ 61

theorem length_fixInfoPath (hsession : session.length = 4) :
    (fixInfoPath session colcode).length = 36 + colcode.length := by
  have hroot : ROOTDIR.length = 10 ∧ BOARD.length = 8 := by decide
  have hwords : (ascii "/").length = 1 ∧ (ascii "INSTITUTE_").length = 10 := by decide
  simp only [fixInfoPath, List.length_append]
  omega

theorem isText_fixInfoPath (hsession : IsText session) (hcolcode : IsText colcode) :
    IsText (fixInfoPath session colcode) := by
  have hroot : IsText ROOTDIR ∧ IsText BOARD := by decide
  have hwords : IsText (ascii "/") ∧ IsText (ascii "INSTITUTE_") := by decide
  simp only [fixInfoPath, isText_append, hroot, hwords, hsession, hcolcode, and_self]

/-- The parts of a file name: one letter for the group and the gender, four digits
for either number. -/
theorem constructFilename_parts {roll totlist : ℤ} {gender sec group : Bytes}
    (hroll : (printInt04 roll).length = 4) (htot : (printInt04 totlist).length = 4)
    (hsec : IsText sec) :
    IsText (constructFilename gender roll sec totlist group) ∧
      (constructFilename gender roll sec totlist group).length = 18 + sec.length ∧
      ∃ front, constructFilename gender roll sec totlist group = front ++ ascii ".txt" := by
  have hgroup : ∀ p ∈ groupLetters, IsText p.2 ∧ p.2.length = 1 := by decide
  have hgrp : IsText ((groupLetters.lookup group).getD (ascii "u")) ∧
      ((groupLetters.lookup group).getD (ascii "u")).length = 1 := by
    cases hlookup : groupLetters.lookup group with
    | none => decide
    | some letter =>
      obtain ⟨l₁, l₂, hsplit, -⟩ := List.lookup_eq_some_iff.mp hlookup
      exact hgroup (group, letter) (by simp [hsplit])
  have hgen : IsText (if gender = ascii "Male" then ascii "M" else ascii "F") ∧
      (if gender = ascii "Male" then ascii "M" else ascii "F").length = 1 := by
    split <;> decide
  have hs : IsText (if sec = ascii " " then ascii "_" else sec) ∧
      (if sec = ascii " " then ascii "_" else sec).length = sec.length := by
    split
    · next h => simp only [h]; decide
    · exact ⟨hsec, rfl⟩
  have hwords : IsText (ascii "_") ∧ IsText (ascii ".txt") := by decide
  have hlens : (ascii "_").length = 1 ∧ (ascii ".txt").length = 4 := by decide
  refine ⟨?_, ?_, _, rfl⟩
  · simp only [constructFilename, isText_append, isText_printInt04, hgrp.1, hgen.1, hs.1, hwords,
      and_self]
  · simp only [constructFilename, List.length_append, hgrp.2, hgen.2, hs.2]
    omega

theorem filename_parts (he : e.Fits) :
    IsText e.filename ∧ e.filename.length = 18 + e.sec.length ∧
      ∃ front, e.filename = front ++ ascii ".txt" := by
  have hwidths := he.widths
  simp only [Entries.widths, List.cons_append, List.nil_append, List.forall_mem_cons] at hwidths
  obtain ⟨-, -, -, -, -, -, hroll, -, -, -, htot, hsec, -⟩ := hwidths
  exact constructFilename_parts (length_printInt04_atoi hroll.2) (length_printInt04_atoi htot.2)
    hsec.1

/-- The name of the copy of the photo fits its line exactly when the extension fits. -/
theorem photoPath_fits (he : e.Fits) (hsession : session.length = 4) (hsessionText : IsText session)
    (hcolcode : IsText colcode) (hphoto : e.photo = some name)
    (h : photoPath (fixInfoPath session colcode ++ e.filename) name = some photo) :
    IsText photo ∧ (PhotoFits colcode e ↔ photo.length ≤ 112) := by
  obtain ⟨hfile, hlen, -⟩ := filename_parts he
  have hdir := @length_fixInfoPath session colcode hsession
  obtain ⟨base, hbase, h⟩ := Option.bind_eq_some_iff.mp h
  obtain ⟨ext, hext, h⟩ := Option.bind_eq_some_iff.mp h
  obtain rfl := Option.some.inj h
  have hbaseMem : ∀ b ∈ base, b ∈ name := by
    unfold basename at hbase
    split_ifs at hbase
    obtain rfl := Option.some.inj hbase
    intro b hb
    exact List.mem_reverse.mp ((List.takeWhile_prefix _).subset (List.mem_reverse.mp hb))
  have hextMem : ∀ b ∈ ext, b ∈ base := by
    unfold extension at hext
    split_ifs at hext
    obtain rfl := Option.some.inj hext
    intro b hb
    exact List.mem_reverse.mp ((List.takeWhile_prefix _).subset (List.mem_reverse.mp hb))
  have hfull : IsText (fixInfoPath session colcode ++ e.filename) :=
    isText_append.mpr ⟨isText_fixInfoPath hsessionText hcolcode, hfile⟩
  refine ⟨isText_append.mpr ⟨fun b hb => hfull b (List.mem_of_mem_take hb), fun b hb =>
    he.photo name hphoto b (hbaseMem b (hextMem b hb))⟩, ?_⟩
  have hpath : ((fixInfoPath session colcode ++ e.filename).take
      ((fixInfoPath session colcode ++ e.filename).length - 3) ++ ext).length =
        51 + colcode.length + e.sec.length + ext.length := by
    simp only [List.length_append, List.length_take]
    omega
  rw [hpath]
  constructor
  · intro hfits
    have hle := hfits name base ext hphoto hbase hext
    omega
  · intro hle name' base' ext' hphoto' hbase' hext'
    obtain rfl : name = name' := Option.some.inj (hphoto.symm.trans hphoto')
    obtain rfl : base = base' := Option.some.inj (hbase.symm.trans hbase')
    obtain rfl : ext = ext' := Option.some.inj (hext.symm.trans hext')
    omega

/-- **The lines of a form.** Each is a text with its newline, and keeps to its width. -/
theorem verifyForm_lines (he : e.Fits) (hsession : session.length = 4)
    (hsessionText : IsText session)
    (hcolcode : IsText colcode) (hfits : PhotoFits colcode e)
    (h : verifyForm (fixInfoPath session colcode) e = some (path, lines)) :
    List.Forall₂ IsLine lines lineWidths := by
  obtain ⟨rfl, photo, rfl, ⟨-, rfl⟩ | ⟨name, hname, hpath⟩⟩ := verifyForm_cases h
  · exact formLines_isLine he (by decide) (by decide)
  · obtain ⟨htext, hlen⟩ := photoPath_fits he hsession hsessionText hcolcode hname hpath
    exact formLines_isLine he htext (hlen.mp hfits)

/-! ### The header -/

/-- A field without a colon is scanned whole, unless it is empty. -/
theorem scanField_append {size : ℕ} {field rest : Bytes} (hcolon : colon ∉ field)
    (hsize : field.length < size) : scanField size (field ++ colon :: rest) =
      if field = [] then .error .mismatch else .ok (field, colon :: rest) := by
  have htake : (field ++ colon :: rest).takeWhile (· != colon) = field := by
    rw [List.takeWhile_append_of_pos, List.takeWhile_cons_of_neg (by simp), List.append_nil]
    intro b hb
    simpa using ne_of_mem_of_not_mem hb hcolon
  simp only [scanField, htake, List.drop_left]
  split
  · rfl
  · rw [if_neg (by omega)]

theorem scanNumber_printInt04 {z : ℤ} (hlow : -(2 ^ 31) < z) (hhigh : z < 2 ^ 31) (rest : Bytes) :
    scanNumber (printInt04 z ++ colon :: rest) = .ok (z, colon :: rest) := by
  rw [scanNumber, scanInt_printInt04_append hlow hhigh (by decide)]

theorem scanNumber_zero (rest : Bytes) :
    scanNumber (48 :: colon :: rest) = .ok (0, colon :: rest) := by
  have hscan := scanInt_decimal_append (n := 0) (by decide) (b := colon) (by decide) rest
  have hdec : decimal 0 = [48] := rfl
  rw [hdec, List.singleton_append] at hscan
  rw [scanNumber, hscan]
  rfl

theorem scanColon_cons (rest : Bytes) : scanColon (colon :: rest) = .ok rest := by simp [scanColon]

/-- The header can be scanned: no field overruns its array. -/
theorem scanHeader_header (he : e.Fits) (rest : Bytes) :
    scanHeader (e.header.print e.studentName ++ rest) = .error .mismatch ∨
      scanHeader (e.header.print e.studentName ++ rest) =
        .ok (e.header, colon :: (e.studentName ++ newline :: rest)) := by
  have hwidths := he.widths
  simp only [Entries.widths, List.cons_append, List.nil_append, List.forall_mem_cons] at hwidths
  obtain ⟨-, -, -, hgroup, -, -, hroll, -, -, -, htot, hsec, -, -, -, -, -, -, -, -, hgender, -⟩ :=
    hwidths
  have hshape :
    e.header.print e.studentName ++ rest = e.gender ++ colon :: (printInt04 (atoi e.classRoll) ++
      colon :: (e.sec ++ colon :: (printInt04 (atoi e.totList) ++ colon :: (e.group ++
        colon :: 48 :: colon :: (e.studentName ++ newline :: rest))))) := by
    have hsent : printInt 0 = [48] := rfl
    simp [Header.print, Entries.header, hsent]
  have hatoi : ∀ {text : Bytes}, text.length ≤ 4 → -(2 ^ 31) < atoi text ∧ atoi text < 2 ^ 31 := by
    intro text hlen
    have hbounds := strtol_bounds hlen
    rw [atoi, toInt32]
    omega
  have hrollNumber := scanNumber_printInt04 (hatoi hroll.2).1 (hatoi hroll.2).2
  have htotNumber := scanNumber_printInt04 (hatoi htot.2).1 (hatoi htot.2).2
  rw [hshape, scanHeader]
  have hgenderField := fun rest => @scanField_append 7 _ rest he.gender (by omega)
  have hsecField := fun rest => @scanField_append 2 _ rest he.sec (by omega)
  have hgroupField := fun rest => @scanField_append 20 _ rest he.group (by omega)
  simp only [hgenderField]
  split_ifs with hgenderNil
  · exact Or.inl rfl
  simp only [bind, Except.bind, scanColon_cons, hrollNumber, hsecField]
  split_ifs with hsecNil
  · exact Or.inl rfl
  simp only [scanColon_cons, htotNumber, hgroupField]
  split_ifs with hgroupNil
  · exact Or.inl rfl
  simp only [scanColon_cons, scanNumber_zero]
  exact Or.inr rfl

/-- The flag of a form that was written can be set. -/
theorem markSent_verifyForm (he : e.Fits) (h : verifyForm infodirname e = some (path, lines))
    (garbage : Bytes) : ∃ content, markSent lines.flatten garbage = .ok content := by
  obtain ⟨-, photo, rfl, -⟩ := verifyForm_cases h
  have hwidths := he.widths
  simp only [Entries.widths, List.cons_append, List.nil_append, List.forall_mem_cons] at hwidths
  obtain ⟨hname, -⟩ := hwidths
  obtain ⟨body, hbody, htext, -, hlen⟩ := header_isLine he
  have hwhole : Lines.Whole isNewline (MAXLINE - 1) (e.header.print e.studentName) := by
    rw [hbody]
    refine Lines.whole_line isNewline
      (fun b hb => by simpa [isNewline] using (htext b hb).2.1) rfl ?_
    rw [hbody, List.length_append, List.length_singleton] at hlen
    unfold MAXLINE
    omega
  have hline : cstr (fgets (formLines e photo).flatten).1 = e.header.print e.studentName := by
    have hsplit : (formLines e photo).flatten = e.header.print e.studentName ++
        ([newline] :: e.labelledLines ++ List.ofFn (fun i => subjectLine i (e.subs i)) ++
          [labelled "PHOTO " photo]).flatten := rfl
    have hnul : nul ∉ e.header.print e.studentName := by
      rw [hbody]
      intro hmem
      rcases List.mem_append.mp hmem with hmem | hmem
      · exact (htext nul hmem).1 rfl
      · exact absurd hmem (by decide)
    simp only [fgets, hsplit, hwhole.piece_append]
    exact cstr_eq_self hnul
  have hscanName : scanName (colon :: (e.studentName ++ [newline])) = .error .mismatch ∨
      scanName (colon :: (e.studentName ++ [newline])) = .ok e.studentName := by
    have hscan : scanLine (e.studentName ++ [newline]) = e.studentName := by
      rw [scanLine, List.takeWhile_append_of_pos]
      · simp [newline, carriageReturn]
      · intro b hb
        simpa using ⟨(hname.1 b hb).2.2, (hname.1 b hb).2.1⟩
    simp only [scanName, scanColon_cons, bind, Except.bind, hscan]
    split_ifs with hnil hlong
    · exact Or.inl rfl
    · omega
    · exact Or.inr rfl
  have hheader := scanHeader_header he []
  rw [List.append_nil] at hheader
  simp only [markSent, hline, bind, Except.bind]
  rcases hheader with hheader | hheader
  · exact ⟨_, by rw [hheader]⟩
  · rcases hscanName with hscan | hscan
    · exact ⟨_, by rw [hheader]; simp only [hscan]; rfl⟩
    · exact ⟨_, by rw [hheader]; simp only [hscan]; rfl⟩

end File

end Esif.Client
