import Esif.CS.Columns
import Esif.CS.Pieces
import Esif.Client.Editor
import Esif.Server.Dump

/-!
# The dump of a form

The line that `showdata` prints for the record of a form that `verify_form` saves. Its fields have
a width each, but for the roll and the registration of the examination before, which stand one
behind the other as they are. So the line tells the form but for the place where the first of the
two ends, and for the blanks that the fields and the scans leave out.

## Main definitions

* `recordLines`, `Recorded` — the lines in front of the photo's, and the records of a form
* `frontTexts`, `backTexts` — what is printed on both sides of the two numbers
* `Alike` — what the line tells of two records
* `Agree` — the fields of the records are the same, up to the blanks behind them

## Main results

* `Recorded.showdata_eq` — the line of a record
* `showdata_eq_iff` — when two records have the same line
* `dump_determines_iff` — when they then agree
-/

namespace Esif.System

open Esif.CS Esif.Posix
open Esif.Client (E_NO_ERROR Entries IsLine IsNumberEntry NUM_TOTAL_SUB Settings atoi
  boards checkBirthdate checkEntries checkPrevious colon
  days fixInfoPath formLines genders groupfiles homeEcoEntries homeEcoEntries_offered
  homeEcoEntries_saved homeEcoSettings labelled months previousBoards religions rollLength saveForm
  sections subjectLine unblank unblank_eq_self_iff unblank_length_le)
open Esif.Server (RecordOf ShortString boardCodes codeOf genderCodes groupCodes
  previousBoardCodes recordOf religionCodes scanLabelled sectionCodes showFrom showString showdata
  strings subColumns subLabel)

/-! ### The records of a form -/

/-- The lines of a form in front of the photo's. -/
def recordLines (e : Entries) : List Bytes :=
  e.header.print e.studentName :: [newline] :: e.labelledLines ++
    List.ofFn fun i => subjectLine i (e.subs i)

/-- A record of a form that `verify_form` saves: what a session builds of its lines. -/
structure Recorded (st : Settings) (infodirname : Bytes) (e : Entries) (record : Bytes) : Prop where
  offered : e.Offered
  saved : ∃ path lines, saveForm st infodirname e = some (path, lines) ∧
    RecordOf (Lines.allPieces isNewline (MAXLINE - 1) lines.flatten) record

/-- What is behind the subjects. -/
def photoPart (e : Entries) (record : Bytes) : Bytes :=
  record.drop (recordOf (recordLines e)).length

/-- The columns of the photo's line: it is read as lines of the subjects 18, 19 and so on. -/
def photoColumns (e : Entries) (record : Bytes) : Bytes :=
  subColumns (NUM_TOTAL_SUB + 1) (strings (photoPart e record))

/-- The texts that are printed in front of the two numbers. -/
def frontTexts (e : Entries) : List Bytes :=
  [e.studentName, e.fatherName, e.motherName, e.group, e.session, e.board,
    printInt04 (atoi e.classRoll), e.birthdate, printInt04 (atoi e.totList), e.sec, e.collegeCode,
    e.collegeName, e.previousBoard, e.previousYear]

/-- The texts that are printed behind them. -/
def backTexts (e : Entries) : List Bytes :=
  [e.previousSessStart ++ ascii "-" ++ e.previousSessEnd, e.gender, e.religion] ++ List.ofFn e.subs

/-- A conversion behind a scan, which passes over the blanks in front. -/
def scanned (conv : Bytes → Bytes) (text : Bytes) : Bytes := conv (unblank text)

def frontFields : List (Bytes → Bytes) :=
  [scanned (printLeft 40), scanned (printLeft 40), scanned (printLeft 40),
    scanned (codeOf groupCodes blank), scanned (printLeft 4), scanned (codeOf boardCodes blank),
    scanned (printLeft 4), scanned (printRight 11), scanned (printLeft 4),
    scanned (codeOf sectionCodes 48), scanned (printLeft 4), scanned (printLeft 70),
    scanned (codeOf previousBoardCodes blank), scanned (printLeft 4)]

def backFields : List (Bytes → Bytes) :=
  [scanned (printRight 9), scanned (codeOf genderCodes blank),
    scanned (codeOf religionCodes blank)] ++ List.replicate NUM_TOTAL_SUB (scanned (printLeft 3))

/-- What is printed up to the subjects. -/
def formRow (e : Entries) : Bytes :=
  Columns.row frontFields (frontTexts e) ++ (e.previousRoll ++ e.previousReg) ++
    Columns.row backFields (backTexts e)

section Lines

variable {e : Entries} {st : Settings} {infodirname record body text word : Bytes}
  {label : String} {lines : List Bytes} {n : ℕ} {conv : Bytes → Bytes}

/-- The lines are texts with their newlines, and fit the array. -/
theorem recordLines_isLine (he : e.Offered) :
    ∀ line ∈ recordLines e, ∃ body, line = body ++ [newline] ∧ IsText body ∧
      body.length < MAXLINE - 1 := by
  have hgender : ∀ item ∈ genders, colon ∉ item := by decide
  have hsec : ∀ item ∈ sections, colon ∉ item := by decide
  have hgroup : ∀ item ∈ groupfiles.map Prod.fst, colon ∉ item := by decide
  -- the photo is not in these lines
  have hfits : { e with photo := none }.Fits :=
    ⟨he.widths, fun _ h => (Option.some_ne_none _ h.symm).elim, hgender _ he.gender, hsec _ he.sec,
      hgroup _ he.group⟩
  have hheader : IsLine (e.header.print e.studentName) 78 := by
    have hprinted := Client.header_isLine hfits
    exact hprinted
  have hline : ∀ {line : Bytes} {n : ℕ}, IsLine line n → n ≤ 119 → ∃ body,
      line = body ++ [newline] ∧ IsText body ∧ body.length < MAXLINE - 1 := by
    rintro line n ⟨body, rfl, htext, -, hlen⟩ hn
    refine ⟨body, rfl, htext, ?_⟩
    rw [List.length_append, List.length_singleton] at hlen
    unfold MAXLINE
    omega
  intro line hmem
  rcases List.mem_append.mp hmem with hmem | hmem
  · rcases List.mem_cons.mp hmem with rfl | hmem
    · exact hline hheader (by decide)
    · rcases List.mem_cons.mp hmem with rfl | hmem
      · exact ⟨[], rfl, by decide, by decide⟩
      · obtain ⟨n, hn, hn'⟩ := Client.isLine_of_mem (Client.labelledLines_isLine he.widths) hmem
        exact hline hn' ((by decide : ∀ n ∈ [55, 54, 54, 22, 13, 15, 16, 22, 14, 10, 20, 86, 26, 19,
          25, 24, 27, 14, 19], n ≤ 119) n hn)
  · obtain ⟨i, rfl⟩ := List.mem_ofFn.mp hmem
    exact hline (Client.subjectLine_isLine i (he.subs i).isText (he.subs i).1) (by decide)

/-- Lines that fit are taken one by one. -/
theorem allPieces_flatten (hlines : ∀ line ∈ lines, ∃ body, line = body ++ [newline] ∧
    IsText body ∧ body.length < MAXLINE - 1) (s : Bytes) :
    Lines.allPieces isNewline (MAXLINE - 1) (lines.flatten ++ s) =
      lines ++ Lines.allPieces isNewline (MAXLINE - 1) s := by
  induction lines with
  | nil => rfl
  | cons line lines ih =>
    obtain ⟨⟨body, rfl, htext, hlen⟩, hrest⟩ := List.forall_mem_cons.mp hlines
    have hopen : ∀ b ∈ body, isNewline b = false := fun b hb => by
      simpa [isNewline] using (htext b hb).2.1
    have hsplit : ((body ++ [newline]) :: lines).flatten ++ s =
        body ++ newline :: (lines.flatten ++ s) := by simp
    rw [hsplit, Lines.allPieces_line hopen rfl hlen, ih hrest]
    rfl

/-- The record begins with the lines that are whole. -/
theorem recordOf_prefix {rest : List Bytes} (hlines : ∀ line ∈ lines, endsLine line = true)
    (h : RecordOf (lines ++ rest) record) :
    ∃ tail, record = recordOf lines ++ tail ∧ RecordOf rest tail := by
  induction rest using List.reverseRecOn generalizing record with
  | nil =>
    rw [List.append_nil] at h
    exact ⟨[], by rw [List.append_nil, h.eq_iff.mpr hlines], .nil⟩
  | append_singleton rest line ih =>
    rw [← List.append_assoc] at h
    obtain ⟨before, h', hline, rfl⟩ | ⟨before, past, h', hline, rfl⟩ := h.concat_cases
    · obtain ⟨tail, rfl, htail⟩ := ih h'
      exact ⟨_, List.append_assoc _ _ _, htail.whole hline⟩
    · obtain ⟨tail, rfl, htail⟩ := ih h'
      exact ⟨_, List.append_assoc _ _ _, htail.cut past hline⟩

/-- Behind the subjects stands what is built of the photo's line. -/
theorem Recorded.eq_append (h : Recorded st infodirname e record) :
    record = recordOf (recordLines e) ++ photoPart e record ∧ ∃ photo,
      RecordOf (Lines.allPieces isNewline (MAXLINE - 1) (labelled "PHOTO " photo))
        (photoPart e record) := by
  obtain ⟨path, lines, hsaved, hrecord⟩ := h.saved
  obtain ⟨-, photo, rfl, -⟩ := Client.verifyForm_cases (Client.saveForm_cases hsaved).2
  have hform : (formLines e photo).flatten =
      (recordLines e).flatten ++ labelled "PHOTO " photo := by
    have hlines : formLines e photo = recordLines e ++ [labelled "PHOTO " photo] := rfl
    rw [hlines, List.flatten_append]
    simp
  rw [hform, allPieces_flatten (recordLines_isLine h.offered)] at hrecord
  have hends : ∀ line ∈ recordLines e, endsLine line = true := fun line hline => by
    obtain ⟨body, rfl, -, -⟩ := recordLines_isLine h.offered line hline
    rw [endsLine_concat]
    rfl
  obtain ⟨tail, rfl, htail⟩ := recordOf_prefix hends hrecord
  rw [photoPart, List.drop_left]
  exact ⟨rfl, photo, htail⟩

theorem Recorded.photoPart_eq (h : Recorded st infodirname e record) :
    photoPart e record = recordOf (strings (photoPart e record)) ∧
      ∀ s ∈ strings (photoPart e record), ShortString s := by
  obtain ⟨-, photo, hphoto⟩ := h.eq_append
  obtain ⟨ps, p, hpieces⟩ := @Lines.allPieces_concat _ isNewline (MAXLINE - 2)
    (ascii "PHOTO " ++ photo) newline
  have hsize : MAXLINE - 2 + 1 = MAXLINE - 1 := rfl
  rw [hsize] at hpieces
  have hshort : ∀ line ∈ ps ++ [p ++ [newline]], line.length < MAXLINE := fun line hline =>
    Nat.lt_succ_of_le (Lines.allPieces_bounds _ _ line (hpieces ▸ hline)).2
  rw [labelled, hpieces] at hphoto
  exact hphoto.eq_recordOf_strings (endsLine_concat p newline) hshort

/-- A label, a blank and a text. -/
theorem scanLabelled_line (word : Bytes) (htext : IsText text) (hlen : text.length < MAXLINE) :
    scanLabelled word (word ++ 32 :: (text ++ [newline])) = some (unblank text) := by
  have hprefix : strncmp (word ++ 32 :: (text ++ [newline])) word = true :=
    List.isPrefixOf_iff_prefix.mpr (List.prefix_append _ _)
  have hvalue : scanLine ((32 :: (text ++ [newline])).dropWhile isspace) = unblank text := by
    rw [List.dropWhile_cons_of_pos (by decide)]
    exact Client.scanLine_unblank htext
  have hfits : ¬ MAXLINE ≤ (unblank text).length :=
    Nat.not_le.mpr ((unblank_length_le text).trans_lt hlen)
  simp only [scanLabelled, hprefix, if_true, List.drop_left, hvalue, if_neg hfits]

/-- A case of the `switch`. -/
theorem showString_labelled
    (hcase : ∀ temp, showString n temp = (scanLabelled word temp).map conv)
    (hlabel : ascii label = word ++ [32]) (htext : IsText text ∧ text.length < MAXLINE) :
    showString n (labelled label text) = some (scanned conv text) := by
  have hline : labelled label text = word ++ 32 :: (text ++ [newline]) := by
    simp [labelled, hlabel]
  rw [hcase, hline, scanLabelled_line word htext.1 htext.2]
  rfl

theorem showString_subject (i : Fin NUM_TOTAL_SUB) (htext : IsText text ∧ text.length < MAXLINE) :
    showString (21 + i) (subjectLine i text) = some (scanned (printLeft 3) text) := by
  have hcode : 21 + (i : ℕ) + 1 - 21 = i + 1 := by omega
  have hline : subjectLine i text = subLabel (i + 1) ++ 32 :: (text ++ [newline]) := by
    rw [subjectLine, subLabel, List.append_assoc, List.append_assoc]
    rfl
  rw [Server.showString_default (Nat.le_add_right 21 _), hcode, hline,
    scanLabelled_line _ htext.1 htext.2]
  rfl

/-- The texts of a form fit the array. -/
theorem isText_of_mem (he : e.Offered) :
    ∀ text ∈ frontTexts e ++ [e.previousRoll, e.previousReg] ++ backTexts e,
      IsText text ∧ text.length < MAXLINE := by
  have hwidths := he.widths
  simp only [Entries.widths, List.cons_append, List.nil_append, List.forall_mem_cons] at hwidths
  obtain ⟨hname, hfather, hmother, hgroup, hsession, hboard, hroll, hday, hmonth, hyear, htot, hsec,
    hcode, hcollege, hpboard, hpyear, hproll, hpreg, hstart, hend, hgender, hreligion, -⟩ :=
    hwidths
  have hfits : ∀ {text : Bytes} {n : ℕ}, IsText text ∧ text.length ≤ n → n < 120 →
      IsText text ∧ text.length < MAXLINE := fun h hn => ⟨h.1, h.2.trans_lt hn⟩
  have hdash : IsText (ascii "-") := by decide
  have hlen : (ascii "-").length = 1 := by decide
  have hbirth : IsText e.birthdate ∧ e.birthdate.length ≤ 11 := by
    simp only [Entries.birthdate, isText_append, List.length_append, hday.1, hmonth.1, hyear.1,
      hdash, and_self, true_and]
    omega
  have hprev : IsText (e.previousSessStart ++ ascii "-" ++ e.previousSessEnd) ∧
      (e.previousSessStart ++ ascii "-" ++ e.previousSessEnd).length ≤ 9 := by
    simp only [isText_append, List.length_append, hstart.1, hend.1, hdash, and_self, true_and]
    omega
  have hnumber : ∀ {text : Bytes}, text.length ≤ 4 →
      IsText (printInt04 (atoi text)) ∧ (printInt04 (atoi text)).length ≤ 4 := fun h =>
    ⟨Client.isText_printInt04 _, (Client.length_printInt04_atoi h).le⟩
  simp only [frontTexts, backTexts, List.cons_append, List.nil_append, List.forall_mem_cons]
  refine ⟨hfits hname (by decide), hfits hfather (by decide), hfits hmother (by decide),
    hfits hgroup (by decide), hfits hsession (by decide), hfits hboard (by decide),
    hfits (hnumber hroll.2) (by decide), hfits hbirth (by decide),
    hfits (hnumber htot.2) (by decide), hfits hsec (by decide), hfits hcode (by decide),
    hfits hcollege (by decide), hfits hpboard (by decide), hfits hpyear (by decide),
    hfits hproll (by decide), hfits hpreg (by decide), hfits hprev (by decide),
    hfits hgender (by decide), hfits hreligion (by decide), fun text htext => ?_⟩
  obtain ⟨i, rfl⟩ := List.mem_ofFn.mp htext
  exact hfits ⟨(he.subs i).isText, (he.subs i).1⟩ (by decide)

/-- What the lines in front of the subjects print. -/
theorem showString_labels (he : e.Offered) :
    List.Forall₂ (fun l p => showString l.2 l.1 = some p)
      ((e.header.print e.studentName :: [newline] :: e.labelledLines).zipIdx 0)
      ([] :: [] :: (List.zipWith (fun f s => f s) frontFields (frontTexts e) ++
        [e.previousRoll, e.previousReg] ++
        List.zipWith (fun f s => f s) (backFields.take 3) ((backTexts e).take 3))) := by
  have htexts := isText_of_mem he
  simp only [frontTexts, backTexts, List.cons_append, List.nil_append, List.forall_mem_cons]
    at htexts
  obtain ⟨hname, hfather, hmother, hgroup, hsession, hboard, hroll, hbirth, htot, hsec, hcode,
    hcollege, hpboard, hpyear, hproll, hpreg, hprev, hgender, hreligion, -⟩ := htexts
  have hrollLine : showString 16 (labelled "PREVIOUS_ROLL " e.previousRoll) =
      some e.previousRoll := by
    rw [showString_labelled (fun _ => rfl) rfl hproll]
    exact congrArg some he.previousRoll.unblank_eq
  have hregLine : showString 17 (labelled "PREVIOUS_REG " e.previousReg) =
      some e.previousReg := by
    rw [showString_labelled (fun _ => rfl) rfl hpreg]
    exact congrArg some he.previousReg.unblank_eq
  exact .cons rfl <| .cons rfl <|
    .cons (showString_labelled (fun _ => rfl) rfl hname) <|
    .cons (showString_labelled (fun _ => rfl) rfl hfather) <|
    .cons (showString_labelled (fun _ => rfl) rfl hmother) <|
    .cons (showString_labelled (fun _ => rfl) rfl hgroup) <|
    .cons (showString_labelled (fun _ => rfl) rfl hsession) <|
    .cons (showString_labelled (fun _ => rfl) rfl hboard) <|
    .cons (showString_labelled (fun _ => rfl) rfl hroll) <|
    .cons (showString_labelled (fun _ => rfl) rfl hbirth) <|
    .cons (showString_labelled (fun _ => rfl) rfl htot) <|
    .cons (showString_labelled (fun _ => rfl) rfl hsec) <|
    .cons (showString_labelled (fun _ => rfl) rfl hcode) <|
    .cons (showString_labelled (fun _ => rfl) rfl hcollege) <|
    .cons (showString_labelled (fun _ => rfl) rfl hpboard) <|
    .cons (showString_labelled (fun _ => rfl) rfl hpyear) <|
    .cons hrollLine <| .cons hregLine <|
    .cons (showString_labelled (fun _ => rfl) rfl hprev) <|
    .cons (showString_labelled (fun _ => rfl) rfl hgender) <|
    .cons (showString_labelled (fun _ => rfl) rfl hreligion) .nil

/-- What the lines of the subjects print. -/
theorem showString_subjects (he : e.Offered) :
    List.Forall₂ (fun l p => showString l.2 l.1 = some p)
      ((List.ofFn fun i => subjectLine i (e.subs i)).zipIdx 21)
      (List.zipWith (fun f s => f s) (List.replicate NUM_TOTAL_SUB (scanned (printLeft 3)))
        (List.ofFn e.subs)) := by
  rw [List.forall₂_iff_get]
  refine ⟨by simp, fun i hi _ => ?_⟩
  have hi' : i < NUM_TOTAL_SUB := by simpa using hi
  have htext : IsText (e.subs ⟨i, hi'⟩) ∧ (e.subs ⟨i, hi'⟩).length < MAXLINE :=
    ⟨(he.subs _).isText, (he.subs _).1.trans_lt (by decide)⟩
  simpa using showString_subject ⟨i, hi'⟩ htext

/-- What the lines print, from the first one on. -/
theorem showFrom_recordLines (he : e.Offered) (rest : Bytes) :
    showFrom 0 (recordOf (recordLines e) ++ rest) = (showFrom 38 rest).map (formRow e ++ ·) := by
  have hnul : ∀ line ∈ recordLines e, nul ∉ line := fun line hline hmem => by
    obtain ⟨body, rfl, htext, -⟩ := recordLines_isLine he line hline
    rcases List.mem_append.mp hmem with hmem | hmem
    · exact (htext nul hmem).1 rfl
    · exact absurd hmem (by decide)
  have hlines : (recordLines e).zipIdx 0 =
      (e.header.print e.studentName :: [newline] :: e.labelledLines).zipIdx 0 ++
        (List.ofFn fun i => subjectLine i (e.subs i)).zipIdx 21 := by
    rw [recordLines, List.zipIdx_append]
    rfl
  have hshown : ∃ printed, List.Forall₂ (fun l p => showString l.2 l.1 = some p)
      ((recordLines e).zipIdx 0) printed ∧ printed.flatten = formRow e := by
    rw [hlines]
    exact ⟨_, List.rel_append (showString_labels he) (showString_subjects he),
      by simp [formRow, Columns.row, backFields, backTexts]⟩
  obtain ⟨printed, hshown, hrow⟩ := hshown
  have hcount : (recordLines e).length = 38 := by
    rw [recordLines, List.length_append, List.length_ofFn]
    rfl
  rw [Server.showFrom_recordOf hnul 0 hshown, hcount, Nat.zero_add, hrow]

/-- The line of a record: the row of the form, and what the photo's line comes to. -/
theorem Recorded.showdata_eq (h : Recorded st infodirname e record) :
    showdata record record.length =
      some (formRow e ++ (photoColumns e record ++ [carriageReturn, newline])) := by
  obtain ⟨hphoto, hshort⟩ := h.photoPart_eq
  have hrest : showFrom 38 (photoPart e record) =
      some (photoColumns e record ++ [carriageReturn, newline]) := by
    rw [hphoto]
    exact Server.showFrom_strings hshort (Nat.le_add_left 1 NUM_TOTAL_SUB)
  have hfrom := showFrom_recordLines h.offered (photoPart e record)
  rw [← h.eq_append.1, hrest] at hfrom
  exact hfrom

end Lines

/-! ### Two rows -/

/-- What a field tells of its text. -/
def told (text : Bytes) : Bytes := trimRight (unblank text)

section Rows

variable {s t : Bytes} {n : ℕ} {items : List Bytes} {names : List (Bytes × UInt8)}
  {unknown : UInt8} {e e₁ e₂ : Entries}

open Columns (SameColumn)

theorem sameColumn_left (hs : s.length ≤ n) (ht : t.length ≤ n) :
    SameColumn told (scanned (printLeft n)) s t := by
  have hs' := (unblank_length_le s).trans hs
  have ht' := (unblank_length_le t).trans ht
  exact ⟨(printLeft_length hs').trans (printLeft_length ht').symm, printLeft_eq_iff hs' ht'⟩

/-- A text without blanks comes through scans and fields. -/
theorem unblank_eq_of_solid (hs : ∀ b ∈ s, isspace b = false) :
    unblank s = s ∧ trimRight s = s := by
  constructor
  · exact unblank_eq_self_iff.mpr fun b hb => hs b (List.mem_of_mem_head? hb)
  · refine List.rdropWhile_eq_self_iff.mpr fun hne hlast => ?_
    have hblank : s.getLast hne = blank := by simpa using hlast
    have hspace := hs _ (List.getLast_mem hne)
    rw [hblank] at hspace
    exact absurd hspace (by decide)

theorem sameColumn_right (hs : ∀ b ∈ s, isspace b = false) (ht : ∀ b ∈ t, isspace b = false)
    (hsn : s.length ≤ n) (htn : t.length ≤ n) :
    SameColumn told (scanned (printRight n)) s t := by
  obtain ⟨hs₁, hs₂⟩ := unblank_eq_of_solid hs
  obtain ⟨ht₁, ht₂⟩ := unblank_eq_of_solid ht
  have hhead : ∀ u : Bytes, (∀ b ∈ u, isspace b = false) → ∀ b ∈ u.head?, b ≠ blank := by
    intro u hu b hb heq
    have hspace := hu b (List.mem_of_mem_head? hb)
    rw [heq] at hspace
    exact absurd hspace (by decide)
  constructor
  · rw [scanned, scanned, hs₁, ht₁, printRight_length hsn, printRight_length htn]
  · rw [scanned, scanned, told, told, hs₁, ht₁, hs₂, ht₂]
    exact printRight_eq_iff (hhead s hs) (hhead t ht)

/-- The codes of the items of a list differ. -/
theorem sameColumn_code (hcodes : ∀ a ∈ items, ∀ b ∈ items,
      (scanned (codeOf names unknown) a = scanned (codeOf names unknown) b ↔ told a = told b))
    (hs : s ∈ items) (ht : t ∈ items) :
    SameColumn told (scanned (codeOf names unknown)) s t :=
  ⟨rfl, hcodes s hs t ht⟩

theorem solid_birthdate (he : e.Offered) :
    (∀ b ∈ e.birthdate, isspace b = false) ∧ e.birthdate.length ≤ 11 := by
  have hdays : ∀ item ∈ days, item.length = 2 ∧ ∀ b ∈ item, isspace b = false := by
    decide +kernel
  have hmonths : ∀ item ∈ months, item.length = 3 ∧ ∀ b ∈ item, isspace b = false := by
    decide +kernel
  obtain ⟨hday, hday'⟩ := hdays _ he.dayOfBirth
  obtain ⟨hmonth, hmonth'⟩ := hmonths _ he.monthOfBirth
  have hdash : ∀ b ∈ ascii "-", isspace b = false := by decide +kernel
  have hlen : (ascii "-").length = 1 := by decide
  constructor
  · simp only [Entries.birthdate, List.forall_mem_append]
    exact ⟨⟨⟨⟨hday', hdash⟩, hmonth'⟩, hdash⟩,
      fun b hb => isspace_of_isdigit (he.yearOfBirth.2 b hb)⟩
  · simp only [Entries.birthdate, List.length_append, hday, hmonth, hlen]
    have hyear := he.yearOfBirth.1
    omega

theorem solid_session (he : e.Offered) :
    (∀ b ∈ e.previousSessStart ++ ascii "-" ++ e.previousSessEnd, isspace b = false) ∧
      (e.previousSessStart ++ ascii "-" ++ e.previousSessEnd).length ≤ 9 := by
  have hdash : ∀ b ∈ ascii "-", isspace b = false := by decide +kernel
  have hlen : (ascii "-").length = 1 := by decide
  constructor
  · simp only [List.forall_mem_append]
    exact ⟨⟨fun b hb => isspace_of_isdigit (he.previousSessStart.2 b hb), hdash⟩,
      fun b hb => isspace_of_isdigit (he.previousSessEnd.2 b hb)⟩
  · simp only [List.length_append, hlen]
    have hstart := he.previousSessStart.1
    have hend := he.previousSessEnd.1
    omega

theorem columns_front (h₁ : e₁.Offered) (h₂ : e₂.Offered) :
    Columns told frontFields (frontTexts e₁) (frontTexts e₂) := by
  have hgroups : ∀ a ∈ groupfiles.map Prod.fst, ∀ b ∈ groupfiles.map Prod.fst,
      (scanned (codeOf groupCodes blank) a = scanned (codeOf groupCodes blank) b ↔
        told a = told b) := by decide +kernel
  have hsections : ∀ a ∈ sections, ∀ b ∈ sections,
      (scanned (codeOf sectionCodes 48) a = scanned (codeOf sectionCodes 48) b ↔
        told a = told b) := by decide +kernel
  have hboards : ∀ a ∈ boards, ∀ b ∈ boards,
      (scanned (codeOf boardCodes blank) a = scanned (codeOf boardCodes blank) b ↔
        told a = told b) := by decide +kernel
  have hpboards : ∀ a ∈ previousBoards, ∀ b ∈ previousBoards,
      (scanned (codeOf previousBoardCodes blank) a = scanned (codeOf previousBoardCodes blank) b ↔
        told a = told b) := by decide +kernel
  have hnumber : ∀ {u v : Bytes}, u.length ≤ 4 → v.length ≤ 4 →
      SameColumn told (scanned (printLeft 4)) (printInt04 (atoi u)) (printInt04 (atoi v)) :=
    fun hu hv => sameColumn_left (Client.length_printInt04_atoi hu).le
      (Client.length_printInt04_atoi hv).le
  exact .cons (sameColumn_left h₁.studentName.1 h₂.studentName.1) <|
    .cons (sameColumn_left h₁.fatherName.1 h₂.fatherName.1) <|
    .cons (sameColumn_left h₁.motherName.1 h₂.motherName.1) <|
    .cons (sameColumn_code hgroups h₁.group h₂.group) <|
    .cons (sameColumn_left h₁.session.1 h₂.session.1) <|
    .cons (sameColumn_code hboards h₁.board h₂.board) <|
    .cons (hnumber h₁.classRoll.1 h₂.classRoll.1) <|
    .cons (sameColumn_right (solid_birthdate h₁).1 (solid_birthdate h₂).1 (solid_birthdate h₁).2
      (solid_birthdate h₂).2) <|
    .cons (hnumber h₁.totList.1 h₂.totList.1) <|
    .cons (sameColumn_code hsections h₁.sec h₂.sec) <|
    .cons (sameColumn_left h₁.collegeCode.1 h₂.collegeCode.1) <|
    .cons (sameColumn_left h₁.collegeName.2 h₂.collegeName.2) <|
    .cons (sameColumn_code hpboards h₁.previousBoard h₂.previousBoard) <|
    .cons (sameColumn_left h₁.previousYear.1 h₂.previousYear.1) .nil

theorem columns_back (h₁ : e₁.Offered) (h₂ : e₂.Offered) :
    Columns told backFields (backTexts e₁) (backTexts e₂) := by
  have hgenders : ∀ a ∈ genders, ∀ b ∈ genders,
      (scanned (codeOf genderCodes blank) a = scanned (codeOf genderCodes blank) b ↔
        told a = told b) := by decide +kernel
  have hreligions : ∀ a ∈ religions, ∀ b ∈ religions,
      (scanned (codeOf religionCodes blank) a = scanned (codeOf religionCodes blank) b ↔
        told a = told b) := by decide +kernel
  exact .append (.cons (sameColumn_right (solid_session h₁).1 (solid_session h₂).1
      (solid_session h₁).2 (solid_session h₂).2) <|
    .cons (sameColumn_code hgenders h₁.gender h₂.gender) <|
    .cons (sameColumn_code hreligions h₁.religion h₂.religion) .nil)
    (.ofFn fun i => sameColumn_left (h₁.subs i).1 (h₂.subs i).1)

/-! The session behind the two numbers shows where they end. -/

/-- A field of nine bytes for a session begins with a blank, or with a year and a dash. -/
theorem exists_mark (hstart : IsNumberEntry 4 s) (hend : IsNumberEntry 4 t) :
    ∃ p b q, printRight 9 (s ++ ascii "-" ++ t) = p ++ b :: q ∧ (∀ c ∈ p, isdigit c = true) ∧
      (b = blank ∧ p = [] ∨ b = 45 ∧ p.length = 4) := by
  have htext : s ++ ascii "-" ++ t = s ++ 45 :: t := by simp [ascii]
  by_cases hfull : s.length = 4 ∧ t.length = 4
  · refine ⟨s, 45, t, ?_, hstart.2, Or.inr ⟨rfl, hfull.1⟩⟩
    have hlen : 9 - (s ++ 45 :: t).length = 0 := by
      rw [List.length_append, List.length_cons]
      omega
    rw [htext, printRight, List.leftpad, hlen]
    rfl
  · have hs := hstart.1
    have ht := hend.1
    obtain ⟨k, hk⟩ : ∃ k, 9 - (s ++ 45 :: t).length = k + 1 := by
      refine ⟨9 - (s ++ 45 :: t).length - 1, ?_⟩
      rw [List.length_append, List.length_cons]
      omega
    refine ⟨[], blank, List.replicate k blank ++ (s ++ 45 :: t), ?_, by simp, Or.inl ⟨rfl, rfl⟩⟩
    rw [htext, printRight, List.leftpad, hk, List.replicate_succ]
    rfl

/-- Behind digits the mark of the session cannot be overlooked. -/
theorem digits_eq_of_mark {d d' p p' q q' : Bytes} {b b' : UInt8}
    (hd : ∀ c ∈ d, isdigit c = true) (hd' : ∀ c ∈ d', isdigit c = true)
    (hp : ∀ c ∈ p, isdigit c = true) (hp' : ∀ c ∈ p', isdigit c = true)
    (hb : b = blank ∧ p = [] ∨ b = 45 ∧ p.length = 4)
    (hb' : b' = blank ∧ p' = [] ∨ b' = 45 ∧ p'.length = 4)
    (h : d ++ (p ++ b :: q) = d' ++ (p' ++ b' :: q')) : d = d' := by
  have hstop : ∀ {c : UInt8} {u : Bytes}, (c = blank ∧ u = [] ∨ c = 45 ∧ u.length = 4) →
      isdigit c = false := by
    rintro c u (⟨rfl, -⟩ | ⟨rfl, -⟩)
    · decide
    · decide
  have hsplit : ∀ {u v w : Bytes} {c : UInt8}, (∀ x ∈ u, isdigit x = true) →
      (∀ x ∈ v, isdigit x = true) → isdigit c = false →
      (u ++ (v ++ c :: w)).takeWhile isdigit = u ++ v ∧
        (u ++ (v ++ c :: w)).dropWhile isdigit = c :: w := by
    intro u v w c hu hv hc
    rw [List.takeWhile_append_of_pos hu, List.takeWhile_append_of_pos hv,
      List.dropWhile_append_of_pos hu, List.dropWhile_append_of_pos hv,
      List.takeWhile_cons_of_neg (by simp [hc]), List.dropWhile_cons_of_neg (by simp [hc]),
      List.append_nil]
    exact ⟨rfl, rfl⟩
  obtain ⟨htake, hdrop⟩ := @hsplit d p q b hd hp (hstop hb)
  obtain ⟨htake', hdrop'⟩ := @hsplit d' p' q' b' hd' hp' (hstop hb')
  have hdigits : d ++ p = d' ++ p' := by rw [← htake, h, htake']
  obtain ⟨rfl, -⟩ : b = b' ∧ q = q' := by
    rw [h, hdrop'] at hdrop
    exact List.cons.inj hdrop.symm
  rcases hb with ⟨rfl, rfl⟩ | ⟨rfl, hlen⟩
  · rcases hb' with ⟨-, rfl⟩ | ⟨hb', -⟩
    · simpa using hdigits
    · exact absurd hb' (by decide)
  · rcases hb' with ⟨hb', -⟩ | ⟨-, hlen'⟩
    · exact absurd hb' (by decide)
    · exact (List.append_inj' hdigits (hlen.trans hlen'.symm)).1

/-- Two rows with something behind them are the same exactly when the fields tell the same, the
two numbers are the same digits one behind the other, and what is behind is the same. -/
theorem formRow_append_eq_iff (h₁ : e₁.Offered) (h₂ : e₂.Offered) (r r' : Bytes) :
    formRow e₁ ++ r = formRow e₂ ++ r' ↔
      (frontTexts e₁).map told = (frontTexts e₂).map told ∧
        e₁.previousRoll ++ e₁.previousReg = e₂.previousRoll ++ e₂.previousReg ∧
        (backTexts e₁).map told = (backTexts e₂).map told ∧ r = r' := by
  have hdigits : ∀ {e : Entries}, e.Offered → ∀ b ∈ e.previousRoll ++ e.previousReg,
      isdigit b = true := fun he => List.forall_mem_append.mpr ⟨he.previousRoll.2, he.previousReg.2⟩
  have hback : ∀ {e : Entries}, e.Offered → ∀ r, ∃ p b q,
      Columns.row backFields (backTexts e) ++ r = p ++ b :: q ∧ (∀ c ∈ p, isdigit c = true) ∧
        (b = blank ∧ p = [] ∨ b = 45 ∧ p.length = 4) := by
    intro e he r
    obtain ⟨p, b, q, hfield, hp, hb⟩ := exists_mark he.previousSessStart he.previousSessEnd
    have hscanned : scanned (printRight 9) (e.previousSessStart ++ ascii "-" ++ e.previousSessEnd) =
        p ++ b :: q := by
      rw [scanned, (unblank_eq_of_solid (solid_session he).1).1, hfield]
    refine ⟨p, b, q ++ (Columns.row (backFields.drop 1) ((backTexts e).drop 1) ++ r), ?_, hp, hb⟩
    have hrow : Columns.row backFields (backTexts e) =
        scanned (printRight 9) (e.previousSessStart ++ ascii "-" ++ e.previousSessEnd) ++
          Columns.row (backFields.drop 1) ((backTexts e).drop 1) := rfl
    rw [hrow, hscanned]
    simp
  have hparts : ∀ (e : Entries) r, formRow e ++ r = Columns.row frontFields (frontTexts e) ++
      ((e.previousRoll ++ e.previousReg) ++ (Columns.row backFields (backTexts e) ++ r)) :=
    fun e r => by rw [formRow, List.append_assoc, List.append_assoc]
  rw [hparts, hparts, (columns_front h₁ h₂).row_append_eq_iff]
  refine and_congr_right fun _ => ?_
  rw [← (columns_back h₁ h₂).row_append_eq_iff]
  constructor
  · intro h
    obtain ⟨p, b, q, hrow, hp, hb⟩ := hback h₁ r
    obtain ⟨p', b', q', hrow', hp', hb'⟩ := hback h₂ r'
    have hnumbers : e₁.previousRoll ++ e₁.previousReg = e₂.previousRoll ++ e₂.previousReg := by
      have h' := h
      rw [hrow, hrow'] at h'
      exact digits_eq_of_mark (hdigits h₁) (hdigits h₂) hp hp' hb hb' h'
    rw [hnumbers] at h
    exact ⟨hnumbers, List.append_cancel_left h⟩
  · rintro ⟨hnumbers, hrest⟩
    rw [hnumbers, hrest]

end Rows

/-! ### Two records -/

/-- The texts that are printed. -/
def fields (e : Entries) : List Bytes :=
  frontTexts e ++ [e.previousRoll, e.previousReg] ++ backTexts e

/-- The records agree in what is printed, up to the blanks behind each text. -/
def Agree (e₁ e₂ : Entries) : Prop := (fields e₁).map trimSpace = (fields e₂).map trimSpace

instance (e₁ e₂ : Entries) : Decidable (Agree e₁ e₂) := inferInstanceAs (Decidable (_ = _))

/-- What the line tells of two records: all texts but two are the same, up to the blanks around
them; the roll and the registration of the examination before are the same digits one behind the
other; and the columns of the photo's line are the same. -/
structure Alike (e₁ e₂ : Entries) (r₁ r₂ : Bytes) : Prop where
  front : (frontTexts e₁).map told = (frontTexts e₂).map told
  numbers : e₁.previousRoll ++ e₁.previousReg = e₂.previousRoll ++ e₂.previousReg
  back : (backTexts e₁).map told = (backTexts e₂).map told
  photo : photoColumns e₁ r₁ = photoColumns e₂ r₂

/-- The names that may begin with blanks begin with the same. -/
structure SameIndents (e₁ e₂ : Entries) : Prop where
  father : indent e₁.fatherName = indent e₂.fatherName
  mother : indent e₁.motherName = indent e₂.motherName
  college : indent e₁.collegeName = indent e₂.collegeName

section Records

variable {st₁ st₂ : Settings} {infodirname₁ infodirname₂ r₁ r₂ s t : Bytes} {e e₁ e₂ : Entries}

/-- Two records have the same line exactly when they are alike. -/
theorem showdata_eq_iff (h₁ : Recorded st₁ infodirname₁ e₁ r₁)
    (h₂ : Recorded st₂ infodirname₂ e₂ r₂) :
    (∃ line, showdata r₁ r₁.length = some line ∧ showdata r₂ r₂.length = some line) ↔
      Alike e₁ e₂ r₁ r₂ := by
  have hrow := formRow_append_eq_iff h₁.offered h₂.offered
    (photoColumns e₁ r₁ ++ [carriageReturn, newline])
    (photoColumns e₂ r₂ ++ [carriageReturn, newline])
  rw [h₁.showdata_eq, h₂.showdata_eq]
  constructor
  · rintro ⟨line, hline₁, hline₂⟩
    have hsame := Option.some.inj (hline₁.trans hline₂.symm)
    obtain ⟨hfront, hnumbers, hback, hphoto⟩ := hrow.mp hsame
    exact ⟨hfront, hnumbers, hback, List.append_cancel_right hphoto⟩
  · rintro ⟨hfront, hnumbers, hback, hphoto⟩
    have hsame := hrow.mpr ⟨hfront, hnumbers, hback, by rw [hphoto]⟩
    exact ⟨_, rfl, by rw [hsame]⟩

theorem indent_of_solid (hs : ∀ b ∈ s, isspace b = false) : indent s = [] :=
  indent_eq_nil (unblank_eq_of_solid hs).1

theorem solid_of_isNumberEntry {n : ℕ} (h : IsNumberEntry n s) : ∀ b ∈ s, isspace b = false :=
  fun b hb => isspace_of_isdigit (h.2 b hb)

theorem solid_printInt04 (z : ℤ) : ∀ b ∈ printInt04 z, isspace b = false := by
  intro b hb
  rcases of_mem_printInt04 hb with hb | rfl
  · exact isspace_of_isdigit hb
  · decide

/-- Texts of which the same is told and that are not indented are the same up to the blanks
behind them. -/
theorem trimSpace_eq_of_told (h : told s = told t) (hs : indent s = []) (ht : indent t = []) :
    trimSpace s = trimSpace t := (trimSpace_eq_iff h).mpr (hs.trans ht.symm)

theorem Recorded.indent_studentName (h : Recorded st₁ infodirname₁ e₁ r₁) :
    indent e₁.studentName = [] := by
  obtain ⟨path, lines, hsaved, -⟩ := h.saved
  obtain ⟨hname, -⟩ := Client.checkEntries_ok (Client.saveForm_cases hsaved).1
  cases hcons : e₁.studentName with
  | nil => rfl
  | cons b str =>
    have halpha : Client.isalpha b = true := by
      by_contra hb
      simp [hcons, Client.verifyName, hb] at hname
    have hspace : isspace b = false := by
      simp only [Client.isalpha, isspace, Bool.or_eq_true, Bool.and_eq_true, decide_eq_true_eq,
        Bool.or_eq_false_iff, beq_eq_false_iff_ne, ne_eq, Bool.and_eq_false_iff,
        decide_eq_false_iff_not, UInt8.le_iff_toNat_le, ← UInt8.toNat_inj, UInt8.reduceToNat]
        at halpha ⊢
      omega
    exact indent_eq_nil (List.dropWhile_cons_of_neg (by simp [hspace]))

/-- No text in front of the numbers is indented but for the three names. -/
theorem front_trimSpace_iff (h₁ : Recorded st₁ infodirname₁ e₁ r₁)
    (h₂ : Recorded st₂ infodirname₂ e₂ r₂)
    (htold : (frontTexts e₁).map told = (frontTexts e₂).map told) :
    (frontTexts e₁).map trimSpace = (frontTexts e₂).map trimSpace ↔ SameIndents e₁ e₂ := by
  have hgroups : ∀ item ∈ groupfiles.map Prod.fst, indent item = [] := by decide +kernel
  have hsections : ∀ item ∈ sections, indent item = [] := by decide +kernel
  have hboards : ∀ item ∈ boards, indent item = [] := by decide +kernel
  have hpboards : ∀ item ∈ previousBoards, indent item = [] := by decide +kernel
  have hnumber : ∀ {n : ℕ} {u : Bytes}, IsNumberEntry n u → indent u = [] := fun h =>
    indent_of_solid (solid_of_isNumberEntry h)
  have hprinted : ∀ z : ℤ, indent (printInt04 z) = [] := fun z =>
    indent_of_solid (solid_printInt04 z)
  have ho₁ := h₁.offered
  have ho₂ := h₂.offered
  simp only [frontTexts, List.map_cons, List.map_nil, List.cons.injEq, and_true] at htold ⊢
  obtain ⟨hname, hfather, hmother, hgroup, hsession, hboard, hroll, hbirth, htot, hsec, hcode,
    hcollege, hpboard, hyear⟩ := htold
  constructor
  · rintro ⟨-, hf, hm, -, -, -, -, -, -, -, -, hc, -, -⟩
    exact ⟨(trimSpace_eq_iff hfather).mp hf, (trimSpace_eq_iff hmother).mp hm,
      (trimSpace_eq_iff hcollege).mp hc⟩
  · rintro ⟨hf, hm, hc⟩
    exact ⟨trimSpace_eq_of_told hname h₁.indent_studentName h₂.indent_studentName,
      (trimSpace_eq_iff hfather).mpr hf, (trimSpace_eq_iff hmother).mpr hm,
      trimSpace_eq_of_told hgroup (hgroups _ ho₁.group) (hgroups _ ho₂.group),
      trimSpace_eq_of_told hsession (hnumber ho₁.session) (hnumber ho₂.session),
      trimSpace_eq_of_told hboard (hboards _ ho₁.board) (hboards _ ho₂.board),
      trimSpace_eq_of_told hroll (hprinted _) (hprinted _),
      trimSpace_eq_of_told hbirth (indent_of_solid (solid_birthdate ho₁).1)
        (indent_of_solid (solid_birthdate ho₂).1),
      trimSpace_eq_of_told htot (hprinted _) (hprinted _),
      trimSpace_eq_of_told hsec (hsections _ ho₁.sec) (hsections _ ho₂.sec),
      trimSpace_eq_of_told hcode (hnumber ho₁.collegeCode) (hnumber ho₂.collegeCode),
      (trimSpace_eq_iff hcollege).mpr hc,
      trimSpace_eq_of_told hpboard (hpboards _ ho₁.previousBoard) (hpboards _ ho₂.previousBoard),
      trimSpace_eq_of_told hyear (hnumber ho₁.previousYear) (hnumber ho₂.previousYear)⟩

/-- What is told of a text that is not indented is enough. -/
theorem trimSpace_told (hs : indent s = []) : trimSpace (told s) = trimSpace s := by
  rw [told, trimSpace_trimRight]
  by_cases hblank : Blank s
  · rw [hblank.trimSpace_eq]
    exact (blank_dropWhile_iff.mpr hblank).trimSpace_eq
  · rw [indent, if_neg hblank] at hs
    have hsplit := List.takeWhile_append_dropWhile (p := isspace) (l := s)
    rw [hs, List.nil_append] at hsplit
    rw [unblank, hsplit]

theorem indent_back (he : e.Offered) : ∀ text ∈ backTexts e, indent text = [] := by
  have hgenders : ∀ item ∈ genders, indent item = [] := by decide +kernel
  have hreligions : ∀ item ∈ religions, indent item = [] := by decide +kernel
  refine List.forall_mem_append.mpr ⟨?_, fun text htext => ?_⟩
  · simp only [List.forall_mem_cons]
    exact ⟨indent_of_solid (solid_session he).1, hgenders _ he.gender, hreligions _ he.religion,
      fun _ h => by cases h⟩
  · obtain ⟨i, rfl⟩ := List.mem_ofFn.mp htext
    exact indent_of_solid (solid_of_isNumberEntry (he.subs i))

theorem back_trimSpace (h₁ : e₁.Offered) (h₂ : e₂.Offered)
    (htold : (backTexts e₁).map told = (backTexts e₂).map told) :
    (backTexts e₁).map trimSpace = (backTexts e₂).map trimSpace := by
  have hback : ∀ {e : Entries}, e.Offered →
      (backTexts e).map trimSpace = ((backTexts e).map told).map trimSpace := fun he => by
    rw [List.map_map]
    exact List.map_congr_left fun text htext => (trimSpace_told (indent_back he text htext)).symm
  rw [hback h₁, htold, hback h₂]

/-- Two records that are alike agree exactly when their rolls are equally long and the names
begin with the same blanks. -/
theorem Alike.agree_iff (h₁ : Recorded st₁ infodirname₁ e₁ r₁)
    (h₂ : Recorded st₂ infodirname₂ e₂ r₂) (h : Alike e₁ e₂ r₁ r₂) :
    Agree e₁ e₂ ↔ e₁.previousRoll.length = e₂.previousRoll.length ∧ SameIndents e₁ e₂ := by
  have hdigits : ∀ {n : ℕ} {u : Bytes}, IsNumberEntry n u → trimSpace u = u := fun hu =>
    List.rdropWhile_eq_self_iff.mpr fun hne => by
      simp [solid_of_isNumberEntry hu _ (List.getLast_mem hne)]
  have hnumbers : [e₁.previousRoll, e₁.previousReg].map trimSpace =
        [e₂.previousRoll, e₂.previousReg].map trimSpace ↔
      e₁.previousRoll.length = e₂.previousRoll.length := by
    simp only [List.map_cons, List.map_nil, hdigits h₁.offered.previousRoll,
      hdigits h₁.offered.previousReg, hdigits h₂.offered.previousRoll,
      hdigits h₂.offered.previousReg, List.cons.injEq, and_true]
    constructor
    · exact fun heq => congrArg List.length heq.1
    · exact fun hlen => List.append_inj h.numbers hlen
  have hparts : Agree e₁ e₂ ↔ (frontTexts e₁).map trimSpace = (frontTexts e₂).map trimSpace ∧
      [e₁.previousRoll, e₁.previousReg].map trimSpace =
        [e₂.previousRoll, e₂.previousReg].map trimSpace ∧
      (backTexts e₁).map trimSpace = (backTexts e₂).map trimSpace := by
    simp only [Agree, fields, List.map_append, List.append_assoc]
    constructor
    · intro heq
      obtain ⟨hfront, hrest⟩ := List.append_inj heq (by simp [frontTexts])
      exact ⟨hfront, List.append_inj hrest rfl⟩
    · rintro ⟨hfront, hmiddle, hback⟩
      rw [hfront, hmiddle, hback]
  rw [hparts, front_trimSpace_iff h₁ h₂ h.front, hnumbers]
  constructor
  · exact fun ⟨hindents, hlen, _⟩ => ⟨hlen, hindents⟩
  · exact fun ⟨hlen, hindents⟩ => ⟨hindents, hlen, back_trimSpace h₁.offered h₂.offered h.back⟩

/-- **The line of a record.** Two forms whose records have the same line agree exactly when, if
they are alike, their rolls are equally long and the names begin with the same blanks. -/
theorem dump_determines_iff (h₁ : Recorded st₁ infodirname₁ e₁ r₁)
    (h₂ : Recorded st₂ infodirname₂ e₂ r₂) :
    (∀ line, showdata r₁ r₁.length = some line → showdata r₂ r₂.length = some line →
        Agree e₁ e₂) ↔
      (Alike e₁ e₂ r₁ r₂ → e₁.previousRoll.length = e₂.previousRoll.length ∧
        SameIndents e₁ e₂) := by
  constructor
  · intro h halike
    obtain ⟨line, hline₁, hline₂⟩ := (showdata_eq_iff h₁ h₂).mpr halike
    exact (halike.agree_iff h₁ h₂).mp (h line hline₁ hline₂)
  · intro h line hline₁ hline₂
    have halike := (showdata_eq_iff h₁ h₂).mp ⟨line, hline₁, hline₂⟩
    exact (halike.agree_iff h₁ h₂).mpr (h halike)

/-! Where the widths are checked. -/

/-- A check whose error is not reported was passed. -/
theorem passed_of_none {c : Prop} [Decidable c] {err : ℕ} {rest : Option ℕ}
    (h : (if c then some err else rest) = none) : ¬ c ∧ rest = none := by
  split_ifs at h with hc
  exact ⟨hc, h⟩

/-- The parts of the checks report errors of their own. -/
theorem checkBirthdate_ne (st : Settings) (e : Entries) :
    checkBirthdate st e ≠ some E_NO_ERROR := by
  intro h
  obtain ⟨-, h⟩ := Client.passed_of_ne h (by decide)
  obtain ⟨-, h⟩ := Client.passed_of_ne h (by decide)
  obtain ⟨-, h⟩ := Client.passed_of_ne h (by decide)
  cases h

theorem checkPrevious_ne (st : Settings) (e : Entries) :
    checkPrevious st e ≠ some E_NO_ERROR := by
  intro h
  obtain ⟨-, h⟩ := Client.passed_of_ne h (by decide)
  obtain ⟨-, h⟩ := Client.passed_of_ne h (by decide)
  obtain ⟨-, h⟩ := Client.passed_of_ne h (by decide)
  obtain ⟨-, h⟩ := Client.passed_of_ne h (by decide)
  split_ifs at h
  obtain ⟨-, h⟩ := Client.passed_of_ne h (by decide)
  obtain ⟨-, h⟩ := Client.passed_of_ne h (by decide)
  obtain ⟨-, h⟩ := Client.passed_of_ne h (by decide)
  obtain ⟨-, h⟩ := Client.passed_of_ne h (by decide)
  obtain ⟨-, h⟩ := Client.passed_of_ne h (by decide)
  cases h

/-- A roll that is checked has six digits, unless the board lets it have ten. -/
theorem Recorded.previousRoll_length (h : Recorded st₁ infodirname₁ e₁ r₁)
    (hssc : st₁.isSsc = false) (hignore : st₁.ignorePrevRoll = false)
    (hboard : rollLength e₁.previousBoard = 6) : e₁.previousRoll.length = 6 := by
  obtain ⟨path, lines, hsaved, -⟩ := h.saved
  have hcheck := (Client.saveForm_cases hsaved).1
  unfold checkEntries at hcheck
  obtain ⟨-, hcheck⟩ := Client.passed_of_ne hcheck (by decide)
  obtain ⟨-, hcheck⟩ := Client.passed_of_ne hcheck (by decide)
  obtain ⟨-, hcheck⟩ := Client.passed_of_ne hcheck (by decide)
  obtain ⟨-, hcheck⟩ := Client.passed_of_ne hcheck (by decide)
  obtain ⟨-, hcheck⟩ := Client.passed_of_ne hcheck (by decide)
  have hprevious : checkPrevious st₁ e₁ = none := by
    split at hcheck
    · next err hbirth =>
      obtain rfl := Option.some.inj hcheck
      split_ifs at hbirth
      exact absurd hbirth (checkBirthdate_ne st₁ e₁)
    · obtain ⟨-, hcheck⟩ := Client.passed_of_ne hcheck (by decide)
      obtain ⟨-, hcheck⟩ := Client.passed_of_ne hcheck (by decide)
      rw [hssc, if_neg Bool.false_ne_true] at hcheck
      split at hcheck
      · next err hprevious =>
        obtain rfl := Option.some.inj hcheck
        exact absurd hprevious (checkPrevious_ne st₁ e₁)
      · next hprevious => exact hprevious
  obtain ⟨-, hprevious⟩ := passed_of_none hprevious
  obtain ⟨-, hprevious⟩ := passed_of_none hprevious
  obtain ⟨hroll, -⟩ := passed_of_none hprevious
  have hlen := h.offered.previousRoll.1
  rw [hboard] at hlen
  simp only [hignore, Bool.not_false, Bool.true_and, Bool.or_eq_true, decide_eq_true_eq,
    not_or, not_lt] at hroll
  exact Nat.le_antisymm hlen hroll.1

end Records

/-! ### Two forms with one line -/

section Photo

variable {st : Settings} {infodirname path photo : Bytes} {e : Entries} {lines : List Bytes}

/-- The record of a form whose lines all fit is the record of its lines. -/
theorem recorded_recordOf (he : e.Offered) (h : saveForm st infodirname e = some (path, lines))
    (hlines : ∀ line ∈ lines, ∃ body, line = body ++ [newline] ∧ IsText body ∧
      body.length < MAXLINE - 1) : Recorded st infodirname e (recordOf lines) := by
  have hpieces := allPieces_flatten hlines []
  rw [List.append_nil, Lines.allPieces_nil, List.append_nil] at hpieces
  refine ⟨he, path, lines, h, ?_⟩
  rw [hpieces]
  refine Server.recordOf_recordOf fun line hline => ?_
  obtain ⟨body, rfl, -⟩ := hlines line hline
  rw [endsLine_concat]
  rfl

/-- The line of a photo that fits comes to three blanks. -/
theorem photoColumns_recordOf (hphoto : IsText photo) :
    photoColumns e (recordOf (formLines e photo)) = List.replicate 3 blank := by
  have hform : recordOf (formLines e photo) =
      recordOf (recordLines e) ++ (labelled "PHOTO " photo ++ nul :: []) := by
    have hlines : formLines e photo = recordLines e ++ [labelled "PHOTO " photo] := rfl
    rw [hlines, recordOf, List.map_append, List.flatten_append]
    simp [recordOf]
  have hnul : nul ∉ labelled "PHOTO " photo := fun hmem => by
    rcases List.mem_append.mp hmem with hmem | hmem
    · rcases List.mem_append.mp hmem with hmem | hmem
      · exact absurd hmem (by decide)
      · exact (hphoto nul hmem).1 rfl
    · exact absurd hmem (by decide)
  rw [photoColumns, photoPart, hform, List.drop_left, Server.strings_append_nul hnul]
  rfl

end Photo

/-- A form of the home economics group with an examination before that of the technical board. -/
def technicalEntries (roll reg : Bytes) : Entries :=
  { homeEcoEntries with
    previousBoard := ascii "Technical"
    previousRoll := roll
    previousReg := reg }

def firstForm : Entries := technicalEntries (ascii "1234567") (ascii "123456")

def secondForm : Entries := technicalEntries (ascii "123456") (ascii "7123456")

def sampleInfodir : Bytes := fixInfoPath (ascii "2005") (ascii "0001")

theorem technicalEntries_recorded {roll reg : Bytes} (hroll : IsNumberEntry 10 roll)
    (hreg : IsNumberEntry 10 reg)
    (hcheck : checkEntries homeEcoSettings (technicalEntries roll reg) = some E_NO_ERROR) :
    Recorded homeEcoSettings sampleInfodir (technicalEntries roll reg)
      (recordOf (formLines (technicalEntries roll reg) [])) := by
  have hoffered : (technicalEntries roll reg).Offered :=
    { homeEcoEntries_offered with
      previousBoard := (by decide +kernel : ascii "Technical" ∈ previousBoards)
      previousRoll := hroll
      previousReg := hreg }
  have hsaved : saveForm homeEcoSettings sampleInfodir (technicalEntries roll reg) =
      some (sampleInfodir ++ (technicalEntries roll reg).filename,
        formLines (technicalEntries roll reg) []) := by
    have hfits : ¬ (12 ≤ homeEcoEntries.birthdate.length ∨ 2 ≤ homeEcoEntries.sec.length ∨
        Client.MAXFILENAME ≤ homeEcoEntries.filename.length ∨
        Client.MAXDIRNAME + Client.MAXFILENAME ≤
          (sampleInfodir ++ homeEcoEntries.filename).length) := by decide
    have hfits' : ¬ (12 ≤ (technicalEntries roll reg).birthdate.length ∨
        2 ≤ (technicalEntries roll reg).sec.length ∨
        Client.MAXFILENAME ≤ (technicalEntries roll reg).filename.length ∨
        Client.MAXDIRNAME + Client.MAXFILENAME ≤
          (sampleInfodir ++ (technicalEntries roll reg).filename).length) := hfits
    rw [saveForm, if_pos hcheck]
    unfold Client.verifyForm
    dsimp only
    rw [if_neg hfits']
    rfl
  refine recorded_recordOf hoffered hsaved fun line hline => ?_
  have hlines : formLines (technicalEntries roll reg) [] =
      recordLines (technicalEntries roll reg) ++ [labelled "PHOTO " []] := rfl
  rw [hlines] at hline
  rcases List.mem_append.mp hline with hline | hline
  · exact recordLines_isLine hoffered line hline
  · obtain rfl := List.mem_singleton.mp hline
    exact ⟨ascii "PHOTO ", rfl, by decide, by decide⟩

theorem firstForm_recorded :
    Recorded homeEcoSettings sampleInfodir firstForm (recordOf (formLines firstForm [])) :=
  technicalEntries_recorded (by decide +kernel) (by decide +kernel) (by decide +kernel)

theorem secondForm_recorded :
    Recorded homeEcoSettings sampleInfodir secondForm (recordOf (formLines secondForm [])) :=
  technicalEntries_recorded (by decide +kernel) (by decide +kernel) (by decide +kernel)

/-- A digit of the one number is one of the other: the line is the same. -/
theorem dump_determines_fails_sample :
    ¬ ∀ (st₁ st₂ : Settings) (infodirname₁ infodirname₂ : Bytes) (e₁ e₂ : Entries) (r₁ r₂ : Bytes),
      Recorded st₁ infodirname₁ e₁ r₁ → Recorded st₂ infodirname₂ e₂ r₂ →
        ∀ line, showdata r₁ r₁.length = some line → showdata r₂ r₂.length = some line →
          Agree e₁ e₂ := by
  intro h
  have halike : Alike firstForm secondForm (recordOf (formLines firstForm []))
      (recordOf (formLines secondForm [])) :=
    ⟨rfl, by decide +kernel, rfl,
      (photoColumns_recordOf (by decide)).trans (photoColumns_recordOf (by decide)).symm⟩
  obtain ⟨line, hline₁, hline₂⟩ :=
    (showdata_eq_iff firstForm_recorded secondForm_recorded).mpr halike
  have hagree := h _ _ _ _ _ _ _ _ firstForm_recorded secondForm_recorded line hline₁ hline₂
  have hlen := ((halike.agree_iff firstForm_recorded secondForm_recorded).mp hagree).1
  exact absurd hlen (by decide +kernel)

theorem dump_determines_sample :
    (∀ line, showdata (recordOf (formLines firstForm [])) (recordOf (formLines firstForm [])).length
          = some line →
        showdata (recordOf (formLines secondForm [])) (recordOf (formLines secondForm [])).length
          = some line →
        Agree firstForm secondForm) ↔
      (Alike firstForm secondForm (recordOf (formLines firstForm []))
          (recordOf (formLines secondForm [])) →
        firstForm.previousRoll.length = secondForm.previousRoll.length ∧
          SameIndents firstForm secondForm) :=
  dump_determines_iff firstForm_recorded secondForm_recorded

end Esif.System
