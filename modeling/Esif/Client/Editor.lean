import Esif.Client.Header

/-!
# The edit window

A form that was saved is loaded into the entries of the edit window: its lines are taken apart
by their place, and the text of each goes into an entry whose `changed` handler can rewrite it
and other entries. Saving again prints the same lines, but for what the scans leave out.

## Main definitions

* `EditWindow`, `editWindow` — the window, and the window before a form is loaded
* `loadLine` — one line of a form, with the handlers of its entries
* `loadStudentInfo` — `load_student_info`
* `Entries.Reloads` — the entries come through the scans whole

## Main results

* `loadStudentInfo_saved` — the entries after loading
* `reload_identity_iff` — saving again writes the same file exactly for such entries
-/

namespace Esif.Client

open Esif.CS Esif.Posix

/-! ### The window -/

/-- The codes in the files of the common subjects, of three digits each. -/
structure CommonCodes where
  files : Bytes → List ℕ
  digits : ∀ file, ∀ code ∈ files file, code < 1000

/-- The edit window: its entries, and the most digits of the roll and of the registration of the
examination before. -/
structure EditWindow where
  entries : Entries
  rollLength : ℕ

/-- The window that `edit_student_info` makes: every list shows its first item. -/
def editWindow : EditWindow where
  entries :=
    { studentName := []
      fatherName := []
      motherName := []
      group := ascii "Science"
      session := []
      board := ascii "Rajshahi"
      classRoll := []
      dayOfBirth := ascii "01"
      monthOfBirth := ascii "Jan"
      yearOfBirth := []
      totList := []
      sec := ascii " "
      collegeCode := []
      collegeName := []
      previousBoard := ascii "Rajshahi"
      previousYear := []
      previousRoll := []
      previousReg := []
      previousSessStart := []
      previousSessEnd := []
      gender := ascii "Male"
      religion := ascii "Islam"
      subs := fun _ => []
      photo := none }
  rollLength := 6

/-! ### The handlers -/

/-- The handlers of the names: `strspn` over the text in capitals. -/
def acceptChars (text : Bytes) : Bytes := (strupper text).takeWhile (· ∈ ACCEPTCHARS)

/-- The handlers of the numbers: `strspn` with `ACCEPTNUMBERS`. -/
def acceptNumbers (text : Bytes) : Bytes := text.takeWhile isdigit

/-- `gtk_entry_set_text` on an entry of at most `limit` bytes with a handler that rewrites its
text. A text that is there already changes nothing. -/
def setText (limit : ℕ) (handler : Bytes → Bytes) (old text : Bytes) : Bytes :=
  if text = old then old else handler (text.take limit)

/-- `strncasecmp(name, lit, strlen(lit)) == 0`, for a literal in capitals. -/
def strncasecmp (name : Bytes) (lit : String) : Bool := strncmp (strupper name) (ascii lit)

/-- `update_gender(entry)` -/
def updateGender (name gender : Bytes) : Bytes :=
  if strncasecmp name "MOHAMMAD" then ascii "Male"
  else if strncasecmp name "MD " then ascii "Male"
  else if strncasecmp name "MD." then ascii "Male"
  else if strncasecmp name "MOSAMMAT" then ascii "Female"
  else if strncasecmp name "MST " then ascii "Female"
  else if strncasecmp name "MST." then ascii "Female"
  else gender

/-- `on_entry2_changed` -/
def onEntry2Changed (e : Entries) : Entries :=
  let name := acceptChars e.studentName
  { e with studentName := name, gender := updateGender name e.gender }

/-- The file of the common subjects of all groups. -/
def subCommonAll : Bytes := ascii "sub_common_all.txt"

/-- `subentrymap`: the groups with the files of their common subjects. -/
def subentrymap : List (Bytes × Bytes) :=
  [(ascii "Science", ascii "sub_common_sc.txt"),
    (ascii "Social Science", ascii "sub_common_so_sc.txt"),
    (ascii "Arts", ascii "sub_common_arts.txt"),
    (ascii "Commerce", ascii "sub_common_com.txt"),
    (ascii "Agriculture", ascii "sub_common_agri.txt"),
    (ascii "Home Economics", ascii "sub_common_home_eco.txt"),
    (ascii "Islamic Studies", ascii "sub_common_is_st.txt"),
    (ascii "Music", ascii "sub_common_music.txt"),
    (ascii "Business", ascii "sub_common_busi.txt")]

/-- `on_combo_entry1_changed`: the common subjects of all groups, then those of the group; the
entries behind them are cleared. -/
def onComboEntry1Changed (common : CommonCodes) (e : Entries) : Entries :=
  -- behind the last group stands the file for all
  let codes := common.files subCommonAll ++
    common.files ((subentrymap.lookup e.group).getD subCommonAll)
  { e with subs := fun i => match codes[i]? with
      | some code => (decimal code).leftpad 3 48
      | none => [] }

/-- `on_entry13_changed`: behind a year stands the next one, printed into `sess_next[5]`. -/
def onEntry13Changed (e : Entries) : Option Entries :=
  let start := acceptNumbers e.previousSessStart
  let e := { e with previousSessStart := start }
  if start.length < 4 then some e
  else
    let sessNext := printInt (atoi start + 1)
    if 5 ≤ sessNext.length then none
    else some { e with previousSessEnd := setText 4 acceptNumbers e.previousSessEnd sessNext }

/-! ### The scans -/

/-- `'-'` -/
def dash : UInt8 := 45

/-- `sscanf(buffer, "%s %[^\r\n]", name, value)` into zero-filled `name[20]` and `value[80]`. -/
def scanPair (buffer : Bytes) : Option (Bytes × Bytes) :=
  let s := buffer.dropWhile isspace
  let name := s.takeWhile fun b => !isspace b
  -- the blank of the format skips all blanks in front of the value
  let value := scanLine ((s.drop name.length).dropWhile isspace)
  if 20 ≤ name.length ∨ INFOBUFSIZE ≤ value.length then none else some (name, value)

/-- `%[^…]` for some bytes, into an array of `size` bytes. -/
def scanPart (stop : List UInt8) (size : ℕ) (s : Bytes) : Except ScanError (Bytes × Bytes) :=
  let part := s.takeWhile (· ∉ stop)
  if part = [] then .error .mismatch
  else if size ≤ part.length then .error .overrun
  else .ok (part, s.drop part.length)

/-- A dash of the format. -/
def scanDash : Bytes → Except ScanError Bytes
  | [] => .error .mismatch
  | b :: s => if b = dash then .ok s else .error .mismatch

/-- `sscanf(value, "%[^-]-%[^-]-%[^-]", birthday, birthmon, birthyear)` -/
def scanBirthdate (value : Bytes) : Except ScanError (Bytes × Bytes × Bytes) :=
  orStop ([], [], []) (scanPart [dash] 3 value) fun (day, s) =>
  orStop (day, [], []) (scanDash s) fun s =>
  orStop (day, [], []) (scanPart [dash] 4 s) fun (mon, s) =>
  orStop (day, mon, []) (scanDash s) fun s =>
  orStop (day, mon, []) (scanPart [dash] 5 s) fun (year, _) =>
  .ok (day, mon, year)

/-- `sscanf(value, "%[^\n-]-%[^\n-]", sess_start, sess_end)` -/
def scanSession (value : Bytes) : Except ScanError (Bytes × Bytes) :=
  orStop ([], []) (scanPart [newline, dash] 5 value) fun (start, s) =>
  orStop (start, []) (scanDash s) fun s =>
  orStop (start, []) (scanPart [newline, dash] 5 s) fun (end_, _) =>
  .ok (start, end_)

/-! ### Loading -/

/-- The `switch` of `load_student_info`: the value of line `i`, counted from 1. -/
def loadLine (common : CommonCodes) (i : ℕ) (value : Bytes) (w : EditWindow) : Option EditWindow :=
  let e := w.entries
  match i with
  | 3 => some { w with entries :=
      if value = e.studentName then e
      else onEntry2Changed { e with studentName := value.take 40 } }
  | 4 => some { w with entries :=
      { e with fatherName := setText 40 acceptChars e.fatherName value } }
  | 5 => some { w with entries :=
      { e with motherName := setText 40 acceptChars e.motherName value } }
  | 6 => some { w with entries :=
      if value = e.group then e else onComboEntry1Changed common { e with group := value } }
  | 7 => some { w with entries := { e with session := setText 4 id e.session value } }
  | 8 => some { w with entries := { e with board := value } }
  | 9 => some { w with entries :=
      { e with classRoll := setText 4 acceptNumbers e.classRoll value } }
  -- `birthday[3]`, `birthmon[4]` and `birthyear[5]` can overrun
  | 10 => do
    let (day, mon, year) ← (scanBirthdate value).toOption
    return { w with entries :=
      { e with
        dayOfBirth := setText 2 id e.dayOfBirth day
        monthOfBirth := setText 3 id e.monthOfBirth mon
        yearOfBirth := setText 4 acceptNumbers e.yearOfBirth year } }
  | 11 => some { w with entries := { e with totList := setText 4 acceptNumbers e.totList value } }
  | 12 => some { w with entries :=
      -- the scan skips the blank that stands for no section
      { e with sec := setText 1 id e.sec (if value = [] then ascii " " else value) } }
  | 13 => some { w with entries := { e with collegeCode := setText 4 id e.collegeCode value } }
  | 14 => some { w with entries :=
      { e with collegeName := setText 70 strupper e.collegeName value } }
  | 15 => some
      { entries := { e with previousBoard := value }
        rollLength := if value = e.previousBoard then w.rollLength else rollLength value }
  | 16 => some { w with entries :=
      { e with previousYear := setText 4 acceptNumbers e.previousYear value } }
  | 17 => some { w with entries :=
      { e with previousRoll := setText w.rollLength acceptNumbers e.previousRoll value } }
  | 18 => some { w with entries :=
      { e with previousReg := setText w.rollLength acceptNumbers e.previousReg value } }
  | 19 => do
    let (start, end_) ← (scanSession value).toOption
    -- the handler of the first entry writes into the second, which is set after it
    let e ← if start = e.previousSessStart then some e
      else onEntry13Changed { e with previousSessStart := start.take 4 }
    return { w with entries :=
      { e with previousSessEnd := setText 4 acceptNumbers e.previousSessEnd end_ } }
  | 20 => some { w with entries := { e with gender := value } }
  | 21 => some { w with entries := { e with religion := value } }
  -- the photo is shown and remembered when the line names one
  | 39 => some { w with entries :=
      { e with photo := if value = [] then e.photo else some value } }
  | i => some { w with entries :=
      { e with subs := fun j =>
          if i = j + 22 then setText 3 acceptNumbers (e.subs j) value else e.subs j } }

/-- The loop over the lines, from line `i` on. -/
def loadLines (common : CommonCodes) : ℕ → List Bytes → EditWindow → Option EditWindow
  | _, [], w => some w
  | i, buffer :: lines, w => do
    let (_, value) ← scanPair (cstr buffer)
    let w ← loadLine common i value w
    loadLines common (i + 1) lines w

/-- The lines that `fgets` reads into an array of `size` bytes, at most `n`. -/
def fgetsLines (size : ℕ) : ℕ → Bytes → List Bytes
  | 0, _ => []
  | _ + 1, [] => []
  | n + 1, b :: text =>
    let (line, rest) := fgetsBuf size (b :: text)
    line :: fgetsLines size n rest

/-- `load_student_info(window, filename)`, for a file with this content. The first two lines are
read into `value[80]`, by the size of `buffer`. -/
def loadStudentInfo (common : CommonCodes) (content : Bytes) : Option EditWindow :=
  let (header, content) := fgetsBuf MAXLINE content
  let (empty, content) := fgetsBuf MAXLINE content
  if INFOBUFSIZE ≤ header.length ∨ INFOBUFSIZE ≤ empty.length then none
  else loadLines common 3 (fgetsLines MAXLINE content.length content) editWindow

/-! ### What the scans give back -/

/-- A text without the blanks in front of it. -/
def unblank (text : Bytes) : Bytes := text.dropWhile isspace

/-- A word that `name[20]` takes. -/
def IsLabel (word : Bytes) : Prop :=
  word ≠ [] ∧ word.length < 20 ∧ ∀ b ∈ word, isspace b = false ∧ b ≠ nul

instance (word : Bytes) : Decidable (IsLabel word) := inferInstanceAs (Decidable (_ ∧ _ ∧ _))

/-- A line of a form: a word, a blank and a text. -/
def lineOf (word text : Bytes) : Bytes := word ++ 32 :: (text ++ [newline])

section Scans

variable {word text value : Bytes} {n limit i : ℕ} {handler : Bytes → Bytes}
  {common : CommonCodes} {w w' : EditWindow} {lines : List Bytes}

theorem unblank_eq_self_iff : unblank text = text ↔ ∀ b ∈ text.head?, isspace b = false := by
  cases text with
  | nil => simp [unblank]
  | cons b text =>
    constructor
    · intro h
      by_contra hb
      have hlen := congrArg List.length h
      have hdrop : unblank (b :: text) = text.dropWhile isspace := by
        rw [unblank, List.dropWhile_cons_of_pos (by simpa using hb)]
      have hle := (List.dropWhile_suffix (l := text) isspace).length_le
      rw [hdrop, List.length_cons] at hlen
      omega
    · intro h
      rw [unblank, List.dropWhile_cons_of_neg (by simpa using h)]

theorem unblank_length_le (text : Bytes) : (unblank text).length ≤ text.length :=
  (List.dropWhile_suffix _).length_le

theorem unblank_subset (text : Bytes) : unblank text ⊆ text := (List.dropWhile_suffix _).subset

/-- The blank of a format and the rest of the line, over a text and its newline. -/
theorem scanLine_unblank (htext : IsText text) :
    scanLine (unblank (text ++ [newline])) = unblank text := by
  induction text with
  | nil => rfl
  | cons b text ih =>
    have hrest : IsText text := fun c hc => htext c (List.mem_cons_of_mem _ hc)
    by_cases hb : isspace b = true
    · have hdrop : ∀ rest, unblank (b :: rest) = unblank rest := fun rest => by
        rw [unblank, List.dropWhile_cons_of_pos hb, unblank]
      rw [List.cons_append, hdrop, hdrop, ih hrest]
    · have hkeep : ∀ rest, unblank (b :: rest) = b :: rest := fun rest => by
        rw [unblank, List.dropWhile_cons_of_neg hb]
      rw [List.cons_append, hkeep, hkeep, ← List.cons_append]
      exact scanLine_newline htext

/-- The pattern of `load_student_info` over a word, a blank and a rest. -/
theorem scanPair_word (hword : IsLabel word) (rest : Bytes) :
    scanPair (word ++ 32 :: rest) = if INFOBUFSIZE ≤ (scanLine (unblank rest)).length then none
      else some (word, scanLine (unblank rest)) := by
  obtain ⟨hne, hlen, hplain⟩ := hword
  have hfront : (word ++ 32 :: rest).dropWhile isspace = word ++ 32 :: rest := by
    cases word with
    | nil => exact absurd rfl hne
    | cons b word =>
      have hb := (hplain b List.mem_cons_self).1
      rw [List.cons_append, List.dropWhile_cons_of_neg (by simp [hb])]
  have htake : (word ++ 32 :: rest).takeWhile (fun b => !isspace b) = word := by
    rw [List.takeWhile_append_of_pos fun b hb => by simp [(hplain b hb).1],
      List.takeWhile_cons_of_neg (by decide), List.append_nil]
  have hvalue : (32 :: rest).dropWhile isspace = unblank rest :=
    List.dropWhile_cons_of_pos (by decide)
  simp only [scanPair, hfront, htake, List.drop_left, hvalue]
  split_ifs with hover hlong hlong
  · rfl
  · omega
  · omega
  · rfl

/-- The value of a line loses the blanks in front of it. -/
theorem scanPair_lineOf (hword : IsLabel word) (htext : IsText text) :
    scanPair (lineOf word text) = if INFOBUFSIZE ≤ (unblank text).length then none
      else some (word, unblank text) := by
  rw [lineOf, scanPair_word hword, scanLine_unblank htext]

theorem cstr_lineOf (hword : IsLabel word) (htext : IsText text) :
    cstr (lineOf word text) = lineOf word text := by
  refine cstr_eq_self fun hmem => ?_
  rcases List.mem_append.mp hmem with hmem | hmem
  · exact (hword.2.2 nul hmem).2 rfl
  · rcases List.mem_append.mp (List.mem_cons.mp hmem |>.resolve_left (by decide)) with hmem | hmem
    · exact (htext nul hmem).1 rfl
    · exact absurd hmem (by decide)

/-- One line goes into its entries. -/
theorem loadLines_lineOf (hword : IsLabel word) (htext : IsText text)
    (hlen : text.length < INFOBUFSIZE) :
    loadLines common i (lineOf word text :: lines) w =
      (loadLine common i (unblank text) w).bind (loadLines common (i + 1) lines) := by
  have hshort : ¬ INFOBUFSIZE ≤ (unblank text).length := by
    have hle := unblank_length_le text
    omega
  simp only [loadLines, cstr_lineOf hword htext, scanPair_lineOf hword htext, if_neg hshort,
    bind, Option.bind]

/-- The label of a line is its word and a blank. -/
theorem labelled_eq {label : String} (hlabel : ascii label = word ++ [32]) (text : Bytes) :
    labelled label text = lineOf word text := by
  simp [labelled, lineOf, hlabel]

theorem loadLines_labelled {label : String}
    (hlabel : ascii label = (ascii label).dropLast ++ [32] ∧ IsLabel (ascii label).dropLast)
    (htext : IsText text) (hlen : text.length < INFOBUFSIZE)
    (hload : loadLine common i (unblank text) w = some w') :
    loadLines common i (labelled label text :: lines) w = loadLines common (i + 1) lines w' := by
  rw [labelled_eq hlabel.1, loadLines_lineOf hlabel.2 htext hlen, hload]
  rfl

/-- An entry takes a text that fits it and that its handler leaves. -/
theorem setText_eq (hlen : value.length ≤ limit) (hvalue : handler value = value) (old : Bytes) :
    setText limit handler old value = value := by
  unfold setText
  split_ifs with h
  · exact h.symm
  · rw [List.take_of_length_le hlen, hvalue]

theorem setText_id (hlen : value.length ≤ limit) (old : Bytes) :
    setText limit id old value = value := by
  apply setText_eq hlen
  rfl

theorem strupper_eq_self (h : ∀ b ∈ text, toupper b = b) : strupper text = text :=
  (List.map_congr_left h).trans (List.map_id text)

theorem IsNameEntry.unblank (h : IsNameEntry text) : IsNameEntry (unblank text) :=
  ⟨(unblank_length_le text).trans h.1, fun b hb => h.2 b (unblank_subset text hb)⟩

theorem IsNameEntry.acceptChars (h : IsNameEntry text) : acceptChars text = text := by
  have hupper : ∀ b ∈ ACCEPTCHARS, toupper b = b := by decide +kernel
  rw [Client.acceptChars, strupper_eq_self fun b hb => hupper b (h.2 b hb)]
  exact List.takeWhile_eq_self_iff.mpr fun b hb => by simpa using h.2 b hb

theorem IsNameEntry.setText (h : IsNameEntry text) (old : Bytes) :
    setText 40 Client.acceptChars old text = text :=
  setText_eq h.1 h.acceptChars old

theorem IsNumberEntry.acceptNumbers (h : IsNumberEntry n text) : acceptNumbers text = text :=
  List.takeWhile_eq_self_iff.mpr h.2

theorem IsNumberEntry.setText (h : IsNumberEntry n text) (old : Bytes) :
    setText n Client.acceptNumbers old text = text :=
  setText_eq h.1 h.acceptNumbers old

/-- The digits of a number entry are not blanks. -/
theorem IsNumberEntry.unblank_eq (h : IsNumberEntry n text) : unblank text = text := by
  refine unblank_eq_self_iff.mpr fun b hb => ?_
  exact isspace_of_isdigit (h.2 b (List.mem_of_mem_head? hb))

theorem scanPart_append {stop : List UInt8} {size : ℕ} {part : Bytes} (hpart : part ≠ [])
    (hstop : ∀ b ∈ part, b ∉ stop) (hsize : part.length < size) (b : UInt8) (hb : b ∈ stop)
    (rest : Bytes) : scanPart stop size (part ++ b :: rest) = .ok (part, b :: rest) := by
  have htake : (part ++ b :: rest).takeWhile (· ∉ stop) = part := by
    rw [List.takeWhile_append_of_pos fun c hc => by simpa using hstop c hc,
      List.takeWhile_cons_of_neg (by simpa using hb), List.append_nil]
  simp only [scanPart, htake, List.drop_left]
  rw [if_neg hpart, if_neg (by omega)]

/-- The last part of a value can be empty. -/
theorem scanPart_last {stop : List UInt8} {size : ℕ} {part : Bytes}
    (hstop : ∀ b ∈ part, b ∉ stop) (hsize : part.length < size) :
    scanPart stop size part = if part = [] then .error .mismatch else .ok (part, []) := by
  have htake : part.takeWhile (· ∉ stop) = part :=
    List.takeWhile_eq_self_iff.mpr fun b hb => by simpa using hstop b hb
  simp only [scanPart, htake, List.drop_length]
  split_ifs with hnil hlong
  · rfl
  · omega
  · rfl

theorem scanDash_cons (rest : Bytes) : scanDash (dash :: rest) = .ok rest := by simp [scanDash]

theorem dash_of_isdigit {b : UInt8} (h : isdigit b = true) : b ∉ [newline, dash] := by
  intro hmem
  rcases List.mem_pair.mp hmem with rfl | rfl <;> exact absurd h (by decide)

end Scans

section Offered

variable {e : Entries}

/-- The date of birth comes back, also without a year. -/
theorem Entries.Offered.scanBirthdate (he : e.Offered) :
    scanBirthdate e.birthdate = .ok (e.dayOfBirth, e.monthOfBirth, e.yearOfBirth) := by
  have hdays : ∀ item ∈ days, item ≠ [] ∧ (∀ b ∈ item, b ∉ [dash]) ∧ item.length < 3 := by
    decide +kernel
  have hmonths : ∀ item ∈ months, item ≠ [] ∧ (∀ b ∈ item, b ∉ [dash]) ∧ item.length < 4 := by
    decide +kernel
  obtain ⟨hday, hdayStop, hdayLen⟩ := hdays _ he.dayOfBirth
  obtain ⟨hmonth, hmonthStop, hmonthLen⟩ := hmonths _ he.monthOfBirth
  have hyear : scanPart [dash] 5 e.yearOfBirth =
      if e.yearOfBirth = [] then .error .mismatch else .ok (e.yearOfBirth, []) :=
    scanPart_last (fun b hb hmem => dash_of_isdigit (he.yearOfBirth.2 b hb)
      (List.mem_cons_of_mem _ hmem)) (Nat.lt_succ_of_le he.yearOfBirth.1)
  have hvalue : e.birthdate =
      e.dayOfBirth ++ dash :: (e.monthOfBirth ++ dash :: e.yearOfBirth) := by
    simp [Entries.birthdate, dash, ascii]
  have hscanDay := scanPart_append hday hdayStop hdayLen dash List.mem_cons_self
    (e.monthOfBirth ++ dash :: e.yearOfBirth)
  have hscanMonth := scanPart_append hmonth hmonthStop hmonthLen dash List.mem_cons_self
    e.yearOfBirth
  rw [hvalue, Client.scanBirthdate]
  simp only [hscanDay, hscanMonth, hyear, orStop, scanDash_cons]
  by_cases hnil : e.yearOfBirth = []
  · simp only [hnil, if_true]
  · simp only [if_neg hnil]

/-- The session of the examination before comes back, unless the first year is missing: then the
scan ends at the dash. -/
theorem Entries.Offered.scanSession (he : e.Offered) :
    scanSession (e.previousSessStart ++ ascii "-" ++ e.previousSessEnd) =
      .ok (e.previousSessStart, if e.previousSessStart = [] then [] else e.previousSessEnd) := by
  have hvalue : e.previousSessStart ++ ascii "-" ++ e.previousSessEnd =
      e.previousSessStart ++ dash :: e.previousSessEnd := by
    simp [dash, ascii]
  have hend : scanPart [newline, dash] 5 e.previousSessEnd =
      if e.previousSessEnd = [] then .error .mismatch else .ok (e.previousSessEnd, []) :=
    scanPart_last (fun b hb => dash_of_isdigit (he.previousSessEnd.2 b hb))
      (Nat.lt_succ_of_le he.previousSessEnd.1)
  rw [hvalue, Client.scanSession]
  by_cases hstart : e.previousSessStart = []
  · have hscan : scanPart [newline, dash] 5 (dash :: e.previousSessEnd) = .error .mismatch := by
      simp [scanPart]
    simp only [hstart, List.nil_append, hscan, orStop, if_true]
  · have hscan := scanPart_append hstart
      (fun b hb => dash_of_isdigit (he.previousSessStart.2 b hb))
      (Nat.lt_succ_of_le he.previousSessStart.1) dash (by simp) e.previousSessEnd
    simp only [hscan, hend, orStop, scanDash_cons, if_neg hstart]
    by_cases hnil : e.previousSessEnd = []
    · simp only [hnil, if_true]
    · simp only [if_neg hnil]

/-- What is in the entries after a form of `e` is loaded, with this photo: the numbers as they
were printed, and the texts as they were scanned. -/
def Entries.reloaded (e : Entries) (photo : Option Bytes) : Entries :=
  { e with
    fatherName := unblank e.fatherName
    motherName := unblank e.motherName
    classRoll := printInt04 (atoi e.classRoll)
    totList := printInt04 (atoi e.totList)
    collegeName := unblank e.collegeName
    previousSessEnd := if e.previousSessStart = [] then [] else e.previousSessEnd
    photo := photo }

theorem isNumberEntry_printInt04 {text : Bytes} (h : IsNumberEntry 4 text) :
    IsNumberEntry 4 (printInt04 (atoi text)) := by
  obtain ⟨hnonneg, hlt⟩ := atoi_of_isNumberEntry h
  refine ⟨(length_printInt04_atoi h.1).le, fun b hb => ?_⟩
  rw [printInt04, if_neg (by omega)] at hb
  exact isdigit_of_mem_leftpad hb

theorem atoi_lt_of_length_lt {text : Bytes} (hdigits : ∀ b ∈ text, isdigit b = true)
    (hlen : text.length < 4) : atoi text < 1000 := by
  have hlow := strtol_bounds hlen.le
  have hval : strtol text < 1000 := by
    by_cases hnil : text = []
    · simp [hnil, strtol, digitsVal]
    · have hlt := digitsVal_lt text 0
      have hpow : 10 ^ text.length ≤ 10 ^ 3 := Nat.pow_le_pow_right (by decide) (by omega)
      rw [strtol_of_digits hnil hdigits]
      omega
  rw [atoi, toInt32]
  omega

/-- The handler of the first year overruns its array at the year 9999 only. -/
theorem onEntry13Changed_eq (h : IsNumberEntry 4 e.previousSessStart) :
    onEntry13Changed e = none ∧ atoi e.previousSessStart = 9999 ∨
      (∃ end_, onEntry13Changed e = some { e with previousSessEnd := end_ }) ∧
        atoi e.previousSessStart ≠ 9999 := by
  obtain ⟨hnonneg, hlt⟩ := atoi_of_isNumberEntry h
  simp only [onEntry13Changed, h.acceptNumbers]
  by_cases hshort : e.previousSessStart.length < 4
  · rw [if_pos hshort]
    refine Or.inr ⟨⟨e.previousSessEnd, rfl⟩, ?_⟩
    have hval := atoi_lt_of_length_lt h.2 hshort
    omega
  · rw [if_neg hshort]
    have hnext : printInt (atoi e.previousSessStart + 1) =
        decimal (atoi e.previousSessStart + 1).natAbs := by
      rw [printInt, if_neg (by omega)]
    by_cases hlast : atoi e.previousSessStart = 9999
    · rw [hnext, hlast]
      exact Or.inl ⟨rfl, rfl⟩
    · have hlen : (decimal (atoi e.previousSessStart + 1).natAbs).length ≤ 4 :=
        length_decimal_le (by decide) (by omega)
      rw [hnext, if_neg (by omega)]
      exact Or.inr ⟨⟨_, rfl⟩, hlast⟩

/-- A text that a line gives back as it is. -/
structure Plain (text : Bytes) : Prop where
  isText : IsText text
  short : text.length < INFOBUFSIZE
  unblank_eq : unblank text = text

instance (text : Bytes) : Decidable (Plain text) :=
  decidable_of_iff (IsText text ∧ text.length < INFOBUFSIZE ∧ unblank text = text)
    ⟨fun h => ⟨h.1, h.2.1, h.2.2⟩, fun h => ⟨h.1, h.2, h.3⟩⟩

theorem IsNumberEntry.plain {n : ℕ} {text : Bytes} (h : IsNumberEntry n text) (hn : n ≤ 10) :
    Plain text :=
  ⟨h.isText, lt_of_le_of_lt (h.1.trans hn) (by decide), h.unblank_eq⟩

theorem IsNameEntry.short {text : Bytes} (h : IsNameEntry text) : text.length < INFOBUFSIZE :=
  lt_of_le_of_lt h.1 (by decide)

/-- A line whose handler overruns its array stops everything. -/
theorem loadLines_stopped {label : String} {text : Bytes} {common : CommonCodes} {i : ℕ}
    {w : EditWindow} {lines : List Bytes}
    (hlabel : ascii label = (ascii label).dropLast ++ [32] ∧ IsLabel (ascii label).dropLast)
    (htext : Plain text) (hload : loadLine common i text w = none) :
    loadLines common i (labelled label text :: lines) w = none := by
  rw [labelled_eq hlabel.1, loadLines_lineOf hlabel.2 htext.isText htext.short, htext.unblank_eq,
    hload]
  rfl

/-- A line of a plain text. -/
theorem loadLines_plain {label : String} {text : Bytes} {common : CommonCodes} {i : ℕ}
    {w w' : EditWindow} {lines : List Bytes}
    (hlabel : ascii label = (ascii label).dropLast ++ [32] ∧ IsLabel (ascii label).dropLast)
    (htext : Plain text) (hload : loadLine common i text w = some w') :
    loadLines common i (labelled label text :: lines) w = loadLines common (i + 1) lines w' :=
  loadLines_labelled hlabel htext.isText htext.short (htext.unblank_eq.symm ▸ hload)

/-- A name that `verify_name` accepts begins with a letter. -/
theorem verifyName_plain {text : Bytes} (h : IsNameEntry text) (hverify : verifyName text = false) :
    Plain text := by
  refine ⟨h.isText, h.short, unblank_eq_self_iff.mpr fun b hb => ?_⟩
  cases text with
  | nil => simp at hb
  | cons c text =>
    obtain rfl : c = b := by simpa using hb
    rw [verifyName] at hverify
    split_ifs at hverify with halpha
    simp only [isalpha, isspace, Bool.or_eq_true, Bool.and_eq_true, decide_eq_true_eq,
      Bool.or_eq_false_iff, beq_eq_false_iff_ne, Bool.and_eq_false_iff, decide_eq_false_iff_not,
      UInt8.le_iff_toNat_le, ne_eq, ← UInt8.toNat_inj, UInt8.reduceToNat] at halpha ⊢
    omega

/-- A plain text goes on with any text. -/
theorem Plain.append {text rest : Bytes} (h : Plain text) (hne : text ≠ []) (hrest : IsText rest)
    (hlen : (text ++ rest).length < INFOBUFSIZE) : Plain (text ++ rest) := by
  refine ⟨isText_append.mpr ⟨h.isText, hrest⟩, hlen, unblank_eq_self_iff.mpr fun b hb => ?_⟩
  obtain ⟨c, text, rfl⟩ := List.exists_cons_of_ne_nil hne
  exact unblank_eq_self_iff.mp h.unblank_eq b hb

theorem Entries.Offered.birthdate_plain (he : e.Offered) : Plain e.birthdate := by
  have hday : ∀ item ∈ days, Plain item ∧ item ≠ [] ∧ item.length ≤ 2 := by decide +kernel
  have hmonth : ∀ item ∈ months, IsText item ∧ item.length ≤ 3 := by decide +kernel
  have hdash : IsText (ascii "-") ∧ (ascii "-").length = 1 := by decide
  obtain ⟨hplain, hne, hdayLen⟩ := hday _ he.dayOfBirth
  obtain ⟨hmonthText, hmonthLen⟩ := hmonth _ he.monthOfBirth
  have hyearLen := he.yearOfBirth.1
  rw [Entries.birthdate, List.append_assoc, List.append_assoc, List.append_assoc]
  refine hplain.append hne ?_ ?_
  · simp only [isText_append, hdash.1, hmonthText, he.yearOfBirth.isText, and_self]
  · simp only [List.length_append, INFOBUFSIZE]
    omega

theorem Entries.Offered.prevSess_plain (he : e.Offered) :
    Plain (e.previousSessStart ++ ascii "-" ++ e.previousSessEnd) := by
  have hdash : Plain (ascii "-") := by decide +kernel
  have hlen : (ascii "-" ++ e.previousSessEnd).length ≤ 5 := by
    have hend := he.previousSessEnd.1
    simp only [List.length_append, show (ascii "-").length = 1 from rfl]
    omega
  have hrest : Plain (ascii "-" ++ e.previousSessEnd) :=
    hdash.append (by decide) he.previousSessEnd.isText (lt_of_le_of_lt hlen (by decide))
  rw [List.append_assoc]
  by_cases hnil : e.previousSessStart = []
  · rw [hnil]
    exact hrest
  · refine (he.previousSessStart.plain (by decide)).append hnil hrest.isText ?_
    have hstart := he.previousSessStart.1
    rw [List.length_append, INFOBUFSIZE]
    omega

/-- The line of the session of the examination before. -/
theorem loadLine_prevSess (he : e.Offered) (common : CommonCodes) {w : EditWindow}
    (hw : w.entries.previousSessStart = []) :
    let value := e.previousSessStart ++ ascii "-" ++ e.previousSessEnd
    loadLine common 19 value w = none ∧ atoi e.previousSessStart = 9999 ∨
      loadLine common 19 value w = some { w with entries := { w.entries with
        previousSessStart := e.previousSessStart
        previousSessEnd := if e.previousSessStart = [] then [] else e.previousSessEnd } } ∧
      atoi e.previousSessStart ≠ 9999 := by
  have hset : ∀ old, setText 4 acceptNumbers old
      (if e.previousSessStart = [] then [] else e.previousSessEnd) =
        if e.previousSessStart = [] then [] else e.previousSessEnd := by
    intro old
    split_ifs
    · exact setText_eq (by decide) rfl old
    · exact he.previousSessEnd.setText old
  simp only [loadLine, he.scanSession, Except.toOption, bind, Option.bind, pure, hw,
    List.take_of_length_le he.previousSessStart.1]
  by_cases hnil : e.previousSessStart = []
  · -- nothing changes in the first entry
    rw [if_pos hnil]
    refine Or.inr ⟨?_, by rw [hnil]; decide⟩
    simp only [hset]
    simp only [hnil]
  · rw [if_neg hnil]
    have hchanged := onEntry13Changed_eq
      (e := { w.entries with previousSessStart := e.previousSessStart }) he.previousSessStart
    rcases hchanged with ⟨hover, hlast⟩ | ⟨⟨end_, hnext⟩, hlast⟩
    · exact Or.inl ⟨by rw [hover], hlast⟩
    · -- the year that the handler writes is written over
      refine Or.inr ⟨?_, hlast⟩
      rw [hnext]
      simp only [hset]

theorem Entries.Offered.collegeName_setText (he : e.Offered) (old : Bytes) :
    setText 70 strupper old (unblank e.collegeName) = unblank e.collegeName := by
  refine setText_eq ((unblank_length_le _).trans he.collegeName.2) ?_ old
  have hupper : ∀ b ∈ e.collegeName, toupper b = b :=
    List.map_inj_left.mp (he.collegeUpper.trans (List.map_id _).symm)
  exact strupper_eq_self fun b hb => hupper b (unblank_subset _ hb)

/-- The line of the name, which may change the gender. -/
theorem loadLine_studentName (he : e.Offered) (common : CommonCodes) :
    ∃ gender, loadLine common 3 e.studentName editWindow = some
      ⟨{ editWindow.entries with studentName := e.studentName, gender := gender }, 6⟩ := by
  simp only [loadLine]
  split_ifs with hnil
  · exact ⟨ascii "Male", by rw [hnil]; rfl⟩
  · have haccept : acceptChars (e.studentName.take 40) = e.studentName := by
      rw [List.take_of_length_le he.studentName.1, he.studentName.acceptChars]
    simp only [onEntry2Changed, haccept]
    exact ⟨_, rfl⟩

/-- The line of the group, which changes the subjects only. -/
theorem loadLine_group (e : Entries) (common : CommonCodes) (w : EditWindow) :
    ∃ subs, loadLine common 6 e.group w =
      some { w with entries := { w.entries with group := e.group, subs := subs } } := by
  simp only [loadLine]
  split_ifs with hsame
  · exact ⟨w.entries.subs, by rw [hsame]⟩
  · exact ⟨_, rfl⟩

theorem loadLine_birthdate (he : e.Offered) (common : CommonCodes) (w : EditWindow) :
    loadLine common 10 e.birthdate w = some { w with entries :=
      { w.entries with
        dayOfBirth := e.dayOfBirth
        monthOfBirth := e.monthOfBirth
        yearOfBirth := e.yearOfBirth } } := by
  have hday : ∀ item ∈ days, item.length ≤ 2 := by decide +kernel
  have hmonth : ∀ item ∈ months, item.length ≤ 3 := by decide +kernel
  simp only [loadLine, he.scanBirthdate, Except.toOption, bind, Option.bind, pure,
    he.yearOfBirth.setText, setText_id (hday _ he.dayOfBirth),
    setText_id (hmonth _ he.monthOfBirth)]

/-- The lines between the header and the subjects, from the window without a form. -/
theorem loadLines_labelledLines (he : e.Offered) (hverify : verifyName e.studentName = false)
    (common : CommonCodes) (lines : List Bytes) :
    loadLines common 3 (e.labelledLines ++ lines) editWindow = none ∧
        atoi e.previousSessStart = 9999 ∨
      (∃ subs, loadLines common 3 (e.labelledLines ++ lines) editWindow =
        loadLines common 22 lines
          ⟨{ e.reloaded none with subs := subs }, rollLength e.previousBoard⟩) ∧
        atoi e.previousSessStart ≠ 9999 := by
  have hgroup : ∀ item ∈ groupfiles.map Prod.fst, Plain item := by decide +kernel
  have hsec : ∀ item ∈ sections, IsText item ∧ item.length < INFOBUFSIZE ∧
      setText 1 id editWindow.entries.sec (if unblank item = [] then ascii " " else unblank item) =
        item := by
    decide +kernel
  have hgender : ∀ item ∈ genders, Plain item := by decide +kernel
  have hboard : ∀ item ∈ boards, Plain item := by decide +kernel
  have hpboard : ∀ item ∈ previousBoards, Plain item := by decide +kernel
  have hreligion : ∀ item ∈ religions, Plain item := by decide +kernel
  obtain ⟨hsecText, hsecShort, hsecSet⟩ := hsec _ he.sec
  -- the lines in their order, each with the entries it goes into
  simp only [Entries.labelledLines, List.cons_append, List.nil_append]
  obtain ⟨gender, hname⟩ := loadLine_studentName he common
  rw [loadLines_plain (by decide +kernel) (verifyName_plain he.studentName hverify) hname,
    loadLines_labelled (by decide +kernel) he.fatherName.isText he.fatherName.short rfl,
    loadLines_labelled (by decide +kernel) he.motherName.isText he.motherName.short rfl]
  simp only [he.fatherName.unblank.setText, he.motherName.unblank.setText]
  -- the lines of the subjects come later
  obtain ⟨subs, hgroupLine⟩ := loadLine_group e common
    ⟨{ editWindow.entries with
      studentName := e.studentName
      fatherName := unblank e.fatherName
      motherName := unblank e.motherName
      gender := gender }, 6⟩
  rw [loadLines_plain (by decide +kernel) (hgroup _ he.group) hgroupLine,
    loadLines_plain (by decide +kernel) (he.session.plain (by decide)) rfl,
    loadLines_plain (by decide +kernel) (hboard _ he.board) rfl,
    loadLines_plain (by decide +kernel)
      ((isNumberEntry_printInt04 he.classRoll).plain (by decide)) rfl]
  simp only [setText_id he.session.1, (isNumberEntry_printInt04 he.classRoll).setText]
  rw [loadLines_plain (by decide +kernel) he.birthdate_plain (loadLine_birthdate he common _),
    loadLines_plain (by decide +kernel)
      ((isNumberEntry_printInt04 he.totList).plain (by decide)) rfl,
    loadLines_labelled (by decide +kernel) hsecText hsecShort rfl]
  simp only [(isNumberEntry_printInt04 he.totList).setText, hsecSet]
  rw [loadLines_plain (by decide +kernel) (he.collegeCode.plain (by decide)) rfl,
    loadLines_labelled (by decide +kernel) he.collegeName.1
      (lt_of_le_of_lt he.collegeName.2 (by decide)) rfl,
    loadLines_plain (by decide +kernel) (hpboard _ he.previousBoard) rfl]
  simp only [setText_id he.collegeCode.1, he.collegeName_setText]
  -- the window starts with the board that is first in the list
  have hroll : (if e.previousBoard = editWindow.entries.previousBoard then 6
      else rollLength e.previousBoard) = rollLength e.previousBoard := by
    split_ifs with hsame
    · rw [hsame]
      rfl
    · rfl
  simp only [hroll]
  rw [loadLines_plain (by decide +kernel) (he.previousYear.plain (by decide)) rfl,
    loadLines_plain (by decide +kernel) (he.previousRoll.plain (rollLength_le _)) rfl,
    loadLines_plain (by decide +kernel) (he.previousReg.plain (rollLength_le _)) rfl]
  simp only [he.previousYear.setText, he.previousRoll.setText, he.previousReg.setText]
  rcases loadLine_prevSess he common
    (w := ⟨{ e.reloaded none with
      subs := subs
      gender := gender
      religion := editWindow.entries.religion
      previousSessStart := []
      previousSessEnd := [] }, rollLength e.previousBoard⟩) rfl with ⟨hover, hlast⟩ | ⟨hset, hlast⟩
  · exact Or.inl ⟨loadLines_stopped (by decide +kernel) he.prevSess_plain hover, hlast⟩
  · refine Or.inr ⟨⟨subs, ?_⟩, hlast⟩
    refine (loadLines_plain (by decide +kernel) he.prevSess_plain hset).trans ?_
    rw [loadLines_plain (by decide +kernel) (hgender _ he.gender) rfl,
      loadLines_plain (by decide +kernel) (hreligion _ he.religion) rfl]
    rfl

/-- The label of the line of a subject. -/
def subjectWord (i : Fin NUM_TOTAL_SUB) : Bytes := ascii "SUB_" ++ (decimal (i + 1)).leftpad 2 48

theorem isLabel_subjectWord : ∀ i, IsLabel (subjectWord i) := by decide +kernel

theorem subjectLine_eq (i : Fin NUM_TOTAL_SUB) (text : Bytes) :
    subjectLine i text = lineOf (subjectWord i) text := by
  simp [subjectLine, lineOf, subjectWord, ascii]

/-- The lines behind the religion, without that of the photo. -/
theorem loadLine_default (common : CommonCodes) (w : EditWindow) (value : Bytes) {i : ℕ}
    (hi : 21 < i) (hphoto : i ≠ 39) :
    loadLine common i value w = some { w with entries := { w.entries with
      subs := fun j => if i = j + 22 then setText 3 acceptNumbers (w.entries.subs j) value
        else w.entries.subs j } } := by
  unfold loadLine
  split
  case h_21 => rfl
  all_goals omega

/-- The line of a subject goes into its entry. -/
theorem loadLine_subject (common : CommonCodes) (w : EditWindow) {value : Bytes}
    (i : Fin NUM_TOTAL_SUB) (hvalue : IsNumberEntry 3 value) :
    loadLine common (22 + i) value w = some { w with entries := { w.entries with
      subs := Function.update w.entries.subs i value } } := by
  have hi : (i : ℕ) < 17 := i.isLt
  have hsubs : (fun j : Fin NUM_TOTAL_SUB => if 22 + (i : ℕ) = (j : ℕ) + 22 then
      setText 3 acceptNumbers (w.entries.subs j) value else w.entries.subs j) =
        Function.update w.entries.subs i value := by
    ext1 j
    by_cases hj : j = i
    · subst hj
      rw [if_pos (Nat.add_comm _ _), Function.update_self, hvalue.setText]
    · have hne : (j : ℕ) ≠ i := fun h => hj (Fin.ext h)
      rw [if_neg (by omega), Function.update_of_ne hj]
  rw [loadLine_default common w value (by omega) (by omega), hsubs]

/-- The lines of the subjects. -/
theorem loadLines_subjects (he : e.Offered) (common : CommonCodes) (lines : List Bytes)
    (w : EditWindow) :
    loadLines common 22 (List.ofFn (fun i => subjectLine i (e.subs i)) ++ lines) w =
      loadLines common 39 lines { w with entries := { w.entries with subs := e.subs } } := by
  have hstep : ∀ k ≤ NUM_TOTAL_SUB, ∀ w : EditWindow,
      (∀ j : Fin NUM_TOTAL_SUB, (j : ℕ) < k → w.entries.subs j = e.subs j) →
      loadLines common (22 + k)
          ((List.ofFn (fun i => subjectLine i (e.subs i))).drop k ++ lines) w =
        loadLines common 39 lines { w with entries := { w.entries with subs := e.subs } } := by
    intro k hk
    -- from the last subject down
    induction hm : NUM_TOTAL_SUB - k generalizing k with
    | zero =>
      intro w hw
      obtain rfl : k = NUM_TOTAL_SUB := by omega
      have hsubs : w.entries.subs = e.subs := funext fun j => hw j j.isLt
      rw [List.drop_eq_nil_of_le (by simp), ← hsubs]
      rfl
    | succ m ih =>
      intro w hw
      have hlt : k < NUM_TOTAL_SUB := by omega
      have hplain := (he.subs ⟨k, hlt⟩).plain (by decide)
      rw [List.drop_eq_getElem_cons (by simpa using hlt), List.getElem_ofFn, List.cons_append,
        subjectLine_eq, loadLines_lineOf (isLabel_subjectWord _) hplain.isText hplain.short,
        hplain.unblank_eq]
      have hload := loadLine_subject common w ⟨k, hlt⟩ (he.subs ⟨k, hlt⟩)
      rw [hload]
      refine ih (k + 1) hlt (by omega) _ fun j hj => ?_
      by_cases hjk : j = ⟨k, hlt⟩
      · rw [hjk]
        exact Function.update_self _ _ _
      · have hne : (j : ℕ) ≠ k := fun h => hjk (Fin.ext h)
        exact (Function.update_of_ne hjk _ _).trans (hw j (by omega))
  simpa using hstep 0 (by decide) w (fun j hj => absurd hj (Nat.not_lt_zero _))

end Offered

/-! ### The line of the photo -/

section Photo

variable {common : CommonCodes} {w w' : EditWindow} {rest photo : Bytes} {n i : ℕ}

/-- A byte of a text. -/
def isTextByte (b : UInt8) : Bool := b != nul && b != newline && b != carriageReturn

theorem isText_iff_takeWhile {text : Bytes} : IsText text ↔ text.takeWhile isTextByte = text := by
  rw [List.takeWhile_eq_self_iff]
  simp [IsText, isTextByte, and_assoc]

theorem scanLine_cstr (s : Bytes) : scanLine (cstr s) = s.takeWhile isTextByte := by
  rw [scanLine, cstr, List.takeWhile_takeWhile]
  congr 1
  ext1 b
  simp only [isTextByte, Bool.decide_and, Bool.decide_eq_true]
  cases b != carriageReturn <;> cases b != newline <;> cases b != nul <;> rfl

/-- A line of a file has as much of a text as fits. -/
theorem takeWhile_piece (n : ℕ) (s : Bytes) :
    (Lines.piece isNewline n s).takeWhile isTextByte = (s.takeWhile isTextByte).take n := by
  induction n generalizing s with
  | zero => simp
  | succ n ih =>
    cases s with
    | nil => simp
    | cons b s =>
      rw [Lines.piece_succ_cons]
      by_cases hb : isNewline b = true
      · have hstop : ¬ isTextByte b = true := by
          obtain rfl : b = newline := by simpa [isNewline] using hb
          decide
        rw [if_pos hb, List.takeWhile_cons_of_neg hstop, List.takeWhile_cons_of_neg hstop]
        rfl
      · rw [if_neg hb]
        by_cases htext : isTextByte b = true
        · rw [List.takeWhile_cons_of_pos htext, List.takeWhile_cons_of_pos htext, ih]
          rfl
        · rw [List.takeWhile_cons_of_neg htext, List.takeWhile_cons_of_neg htext]
          rfl

/-- The name of a photo as it is read: up to the first byte that no text has, and as long as the
line. -/
theorem scanPair_photo (rest : Bytes) :
    let value := ((slash :: rest).takeWhile isTextByte).take 113
    scanPair (cstr (Lines.piece isNewline (MAXLINE - 1) (labelled "PHOTO " (slash :: rest)))) =
      if INFOBUFSIZE ≤ value.length then none else some (ascii "PHOTO", value) := by
  have hpiece : cstr (Lines.piece isNewline (MAXLINE - 1) (labelled "PHOTO " (slash :: rest))) =
      ascii "PHOTO" ++ 32 :: cstr (Lines.piece isNewline 113 (slash :: rest ++ [newline])) := rfl
  have hfront : unblank (cstr (Lines.piece isNewline 113 (slash :: rest ++ [newline]))) =
      cstr (Lines.piece isNewline 113 (slash :: rest ++ [newline])) := rfl
  have hlast : (slash :: rest ++ [newline]).takeWhile isTextByte =
      (slash :: rest).takeWhile isTextByte := by
    rw [List.takeWhile_append]
    split_ifs with h
    · have hall : (slash :: rest).takeWhile isTextByte = slash :: rest :=
        (List.takeWhile_prefix _).eq_of_length h
      rw [hall]
      simp [isTextByte]
    · rfl
  rw [hpiece, scanPair_word (by decide +kernel), hfront, scanLine_cstr, takeWhile_piece, hlast]

/-- Behind the line of the photo nothing is set. -/
theorem loadLines_behind (hi : 40 ≤ i) (lines : List Bytes) :
    loadLines common i lines w = none ∨ loadLines common i lines w = some w := by
  induction lines generalizing i with
  | nil => exact Or.inr rfl
  | cons buffer lines ih =>
    simp only [loadLines]
    cases hscan : scanPair (cstr buffer) with
    | none => exact Or.inl rfl
    | some pair =>
      have hsubs : (fun j : Fin NUM_TOTAL_SUB => if i = (j : ℕ) + 22 then
          setText 3 acceptNumbers (w.entries.subs j) pair.2 else w.entries.subs j) =
            w.entries.subs := by
        ext1 j
        have hj : (j : ℕ) < 17 := j.isLt
        rw [if_neg (by omega)]
      have hload : loadLine common i pair.2 w = some w := by
        rw [loadLine_default common w pair.2 (by omega) (by omega), hsubs]
      simp only [bind, Option.bind, hload]
      exact ih (by omega)

/-- The last line of a form, without a photo. -/
theorem loadLines_noPhoto (n : ℕ) :
    loadLines common 39 (fgetsLines MAXLINE (n + 1) (labelled "PHOTO " [])) w = some w := by
  have hlines : fgetsLines MAXLINE (n + 1) (labelled "PHOTO " []) = [labelled "PHOTO " []] := by
    cases n <;> rfl
  have hload : loadLine common 39 (unblank []) w = some w := by
    simp only [loadLine, unblank, List.dropWhile_nil, if_true]
  rw [hlines, loadLines_labelled (by decide +kernel) (by decide) (by decide) hload]
  rfl

/-- The last line of a form. What is loaded is the front of the photo that is a text. -/
theorem loadLines_photo (rest : Bytes) :
    let value := (slash :: rest).takeWhile isTextByte
    let w' : EditWindow := { w with entries := { w.entries with photo := some value } }
    let lines := fgetsLines MAXLINE (n + 1) (labelled "PHOTO " (slash :: rest))
    (INFOBUFSIZE ≤ value.length → loadLines common 39 lines w = none) ∧
      (loadLines common 39 lines w = none ∨ loadLines common 39 lines w = some w') ∧
      (value = slash :: rest → value.length < INFOBUFSIZE →
        loadLines common 39 lines w = some w') := by
  intro value w' lines
  have hne : value ≠ [] := by
    rw [show value = slash :: rest.takeWhile isTextByte from rfl]
    exact List.cons_ne_nil _ _
  have hlines : lines = Lines.piece isNewline (MAXLINE - 1) (labelled "PHOTO " (slash :: rest)) ::
      fgetsLines MAXLINE n ((labelled "PHOTO " (slash :: rest)).drop
        (Lines.piece isNewline (MAXLINE - 1) (labelled "PHOTO " (slash :: rest))).length) := rfl
  have hscan : scanPair (cstr (Lines.piece isNewline (MAXLINE - 1)
      (labelled "PHOTO " (slash :: rest)))) = if INFOBUFSIZE ≤ (value.take 113).length then none
        else some (ascii "PHOTO", value.take 113) := scanPair_photo rest
  have htake : (value.take 113).length = min 113 value.length := List.length_take
  have hsize : INFOBUFSIZE = 80 := rfl
  by_cases hlong : INFOBUFSIZE ≤ value.length
  · have hnone : loadLines common 39 lines w = none := by
      rw [hlines, loadLines, hscan, if_pos (by omega)]
      rfl
    exact ⟨fun _ => hnone, Or.inl hnone, fun _ hshort => absurd hlong (not_le.mpr hshort)⟩
  · have hload : loadLine common 39 value w = some w' := by
      simp only [loadLine, if_neg hne]
      rfl
    have hstep : loadLines common 39 lines w = loadLines common 40 lines.tail w' := by
      have hfits : value.take 113 = value := List.take_of_length_le (by omega)
      rw [hlines, loadLines, hscan, if_neg (by omega), hfits]
      simp only [bind, Option.bind]
      rw [hload]
      rfl
    refine ⟨fun h => absurd h hlong, ?_, fun hwhole _ => ?_⟩
    · rw [hstep]
      exact loadLines_behind le_rfl _
    · have htext : IsText (slash :: rest) := isText_iff_takeWhile.mpr hwhole
      have hline : Lines.Whole isNewline (MAXLINE - 1) (labelled "PHOTO " (slash :: rest)) := by
        refine Lines.whole_line isNewline (fun b hb => ?_) rfl ?_
        · rcases List.mem_append.mp hb with hb | hb
          · have hword : ∀ b ∈ ascii "PHOTO ", isNewline b = false := by decide +kernel
            exact hword b hb
          · simpa [isNewline] using (htext b hb).2.1
        · rw [List.length_append, ← hwhole, show (ascii "PHOTO ").length = 6 from rfl, MAXLINE]
          omega
      have htail : lines.tail = [] := by
        rw [hlines, List.tail_cons, hline.1, List.drop_length]
        cases n <;> rfl
      rw [hstep, htail]
      rfl

theorem loadLines_photo_some {w' : EditWindow} (hhead : photo.head? = some slash)
    (h : loadLines common 39 (fgetsLines MAXLINE (n + 1) (labelled "PHOTO " photo)) w = some w') :
    w' = { w with entries := { w.entries with photo := some (photo.takeWhile isTextByte) } } ∧
      (photo.takeWhile isTextByte).length < INFOBUFSIZE := by
  obtain ⟨rest, rfl⟩ := List.head?_eq_some_iff.mp hhead
  obtain ⟨htoolong, hloaded, -⟩ := @loadLines_photo common w n rest
  constructor
  · rcases hloaded with hnone | hsome
    · rw [hnone] at h
      cases h
    · exact Option.some.inj (h.symm.trans hsome)
  · by_contra hlong
    rw [htoolong (not_lt.mp hlong)] at h
    cases h

theorem loadLines_photo_whole (hhead : photo.head? = some slash) (htext : IsText photo)
    (hshort : photo.length < INFOBUFSIZE) :
    loadLines common 39 (fgetsLines MAXLINE (n + 1) (labelled "PHOTO " photo)) w =
      some { w with entries := { w.entries with photo := some photo } } := by
  obtain ⟨rest, rfl⟩ := List.head?_eq_some_iff.mp hhead
  obtain ⟨-, -, hwhole⟩ := @loadLines_photo common w n rest
  have hvalue := isText_iff_takeWhile.mp htext
  rw [hvalue] at hwhole
  exact hwhole rfl hshort

end Photo

/-! ### Loading a form -/

section Load

variable {e : Entries} {h : Header} {name photo : Bytes} {common : CommonCodes}

/-- Whole lines in front of a file are read one by one. -/
theorem fgetsLines_append {size : ℕ} {lines : List Bytes}
    (hlines : ∀ line ∈ lines, line ≠ [] ∧ Lines.Whole isNewline (size - 1) line) (k : ℕ)
    (rest : Bytes) : ∃ m, fgetsLines size (lines.flatten.length + k) (lines.flatten ++ rest) =
      lines ++ fgetsLines size (m + k) rest := by
  induction lines generalizing k with
  | nil => exact ⟨0, rfl⟩
  | cons line lines ih =>
    obtain ⟨hne, hwhole⟩ := hlines line List.mem_cons_self
    obtain ⟨b, body, rfl⟩ := List.exists_cons_of_ne_nil hne
    obtain ⟨m, hrest⟩ := ih (fun line hline => hlines line (List.mem_cons_of_mem _ hline))
      (body.length + k)
    have hpiece := hwhole.piece_append (lines.flatten ++ rest)
    refine ⟨m + body.length, ?_⟩
    have hfuel : ((b :: body) :: lines).flatten.length + k =
        lines.flatten.length + (body.length + k) + 1 := by
      simp only [List.flatten_cons, List.length_append, List.length_cons]
      omega
    rw [hfuel, List.flatten_cons, List.append_assoc, List.cons_append, fgetsLines, fgetsBuf]
    rw [List.cons_append] at hpiece
    simp only [hpiece]
    rw [← List.cons_append, List.drop_left, hrest, List.cons_append, ← Nat.add_assoc]

theorem IsLine.whole {line : Bytes} {n : ℕ} (hline : IsLine line n) (hn : n < MAXLINE) :
    line ≠ [] ∧ Lines.Whole isNewline (MAXLINE - 1) line := by
  obtain ⟨body, rfl, htext, -, hlen⟩ := hline
  rw [List.length_append, List.length_singleton] at hlen
  refine ⟨by simp, Lines.whole_line isNewline (fun b hb => ?_) rfl (by omega)⟩
  simpa [isNewline] using (htext b hb).2.1

/-- The lines between the header and the photo are whole lines. -/
theorem Entries.Offered.lines_whole (he : e.Offered) :
    ∀ line ∈ e.labelledLines ++ List.ofFn (fun i => subjectLine i (e.subs i)),
      line ≠ [] ∧ Lines.Whole isNewline (MAXLINE - 1) line := by
  intro line hline
  rcases List.mem_append.mp hline with hline | hline
  · obtain ⟨n, hn, hwidth⟩ := isLine_of_mem (labelledLines_isLine he.widths) hline
    have hwidths :
        ∀ n ∈ [55, 54, 54, 22, 13, 15, 16, 22, 14, 10, 20, 86, 26, 19, 25, 24, 27, 14, 19],
          n < MAXLINE := by decide
    exact hwidth.whole (hwidths n hn)
  · obtain ⟨i, rfl⟩ := List.mem_ofFn.mp hline
    exact (subjectLine_isLine i (he.subs i).isText (he.subs i).1).whole (by decide)

/-- The file of a form is read line by line, behind the header. -/
theorem loadStudentInfo_lines (he : e.Offered) (hs : h.Scannable name) (photo : Bytes) :
    ∃ n, loadStudentInfo common (h.print name ++ e.tail photo) =
      loadLines common 3 (e.labelledLines ++ (List.ofFn (fun i => subjectLine i (e.subs i)) ++
        fgetsLines MAXLINE (n + 1) (labelled "PHOTO " photo))) editWindow := by
  have htail : e.tail photo = [newline] ++ ((e.labelledLines ++
      List.ofFn (fun i => subjectLine i (e.subs i))).flatten ++ labelled "PHOTO " photo) := by
    simp [Entries.tail]
  have hempty : fgetsBuf MAXLINE (e.tail photo) = ([newline], (e.labelledLines ++
      List.ofFn (fun i => subjectLine i (e.subs i))).flatten ++ labelled "PHOTO " photo) := by
    rw [htail]
    rfl
  have hshort : ¬ (INFOBUFSIZE ≤ (h.print name).length ∨ INFOBUFSIZE ≤ [newline].length) := by
    have hlen := hs.length_print
    rw [not_or]
    exact ⟨by unfold INFOBUFSIZE; omega, by decide⟩
  obtain ⟨m, hlines⟩ := fgetsLines_append he.lines_whole (labelled "PHOTO " photo).length
    (labelled "PHOTO " photo)
  have hlen : (labelled "PHOTO " photo).length = photo.length + 6 + 1 := by
    simp only [labelled, List.length_append, List.length_singleton,
      show (ascii "PHOTO ").length = 6 from rfl]
    omega
  refine ⟨m + (photo.length + 6), ?_⟩
  rw [loadStudentInfo, hs.fgetsBuf_print (by decide)]
  simp only [hempty]
  rw [if_neg hshort, List.length_append, hlines, hlen, List.append_assoc, ← Nat.add_assoc]

/-- **Loading a form.** The handler of the year 9999 overruns its array; else the entries are
those of the form, up to the scans, and the line of the photo is left. -/
theorem loadStudentInfo_saved (he : e.Offered) (hverify : verifyName e.studentName = false)
    (hs : h.Scannable name) (photo : Bytes) :
    loadStudentInfo common (h.print name ++ e.tail photo) = none ∧
        atoi e.previousSessStart = 9999 ∨
      (∃ n, loadStudentInfo common (h.print name ++ e.tail photo) =
        loadLines common 39 (fgetsLines MAXLINE (n + 1) (labelled "PHOTO " photo))
          ⟨e.reloaded none, rollLength e.previousBoard⟩) ∧
        atoi e.previousSessStart ≠ 9999 := by
  obtain ⟨n, hlines⟩ := @loadStudentInfo_lines e h name common he hs photo
  rw [hlines]
  rcases loadLines_labelledLines he hverify common (List.ofFn (fun i => subjectLine i (e.subs i)) ++
    fgetsLines MAXLINE (n + 1) (labelled "PHOTO " photo)) with hover | ⟨⟨subs, hloaded⟩, hlast⟩
  · exact Or.inl hover
  · refine Or.inr ⟨⟨n, ?_⟩, hlast⟩
    rw [hloaded, loadLines_subjects he]
    rfl

end Load

/-! ### Saving again -/

section Reload

variable {st : Settings} {common : CommonCodes} {e : Entries}
  {session colcode infodirname path : Bytes} {lines : List Bytes} {sent : ℤ}

/-- The entries come through the scans whole. The texts that are checked by an option only do not
begin with a blank, no year ends a session that has none to begin with, no year overruns the
array of its handler, and the extension of the photo, a text, leaves room for the name of its
copy in `value`. -/
structure Entries.Reloads (infodirname : Bytes) (e : Entries) : Prop where
  fatherName : ∀ b ∈ e.fatherName.head?, isspace b = false
  motherName : ∀ b ∈ e.motherName.head?, isspace b = false
  collegeName : ∀ b ∈ e.collegeName.head?, isspace b = false
  prevSess : e.previousSessStart = [] → e.previousSessEnd = []
  sessNext : atoi e.previousSessStart ≠ 9999
  photo : ∀ name base ext, e.photo = some name → basename name = some base →
    extension base = some ext → IsText ext ∧ infodirname.length + 16 + ext.length < INFOBUFSIZE

theorem labelled_inj {label : String} {text text' : Bytes}
    (h : labelled label text = labelled label text') : text = text' := by
  simpa [labelled] using h

theorem Entries.Reloads.reloaded_eq (hr : e.Reloads infodirname) (photo : Option Bytes) :
    e.reloaded photo = { e with
      classRoll := printInt04 (atoi e.classRoll)
      totList := printInt04 (atoi e.totList)
      photo := photo } := by
  have hend : (if e.previousSessStart = [] then [] else e.previousSessEnd) = e.previousSessEnd := by
    split_ifs with hnil
    · exact (hr.prevSess hnil).symm
    · rfl
  rw [Entries.reloaded, unblank_eq_self_iff.mpr hr.fatherName,
    unblank_eq_self_iff.mpr hr.motherName, unblank_eq_self_iff.mpr hr.collegeName, hend]

/-- A number that was printed with four digits has the same value, and only digits. -/
theorem printed_passes {text : Bytes} (h : IsNumberEntry 4 text) :
    atoi (printInt04 (atoi text)) = atoi text ∧ verifyNumber (printInt04 (atoi text)) = false ∧
      (printInt04 (atoi text)).length = 4 := by
  obtain ⟨hnonneg, hlt⟩ := atoi_of_isNumberEntry h
  have hlen := length_printInt04_atoi h.1
  have hdigits := (isNumberEntry_printInt04 h).2
  refine ⟨?_, ?_, hlen⟩
  · rw [atoi, strtol_printInt04, toInt32]
    omega
  · simpa [verifyNumber, hlen] using hdigits

/-- The numbers that were printed pass the checks that the entries passed. -/
theorem checkEntries_reloaded (he : e.Offered) (hr : e.Reloads infodirname) (photo : Option Bytes)
    (h : checkEntries st e = some E_NO_ERROR) :
    checkEntries st (e.reloaded photo) = some E_NO_ERROR := by
  have hreloaded := hr.reloaded_eq photo
  obtain ⟨hroll, hrollDigits, -⟩ := printed_passes he.classRoll
  obtain ⟨-, htotDigits, htotLen⟩ := printed_passes he.totList
  obtain ⟨hname, h⟩ := passed_of_ne h (by decide)
  obtain ⟨hfather, h⟩ := passed_of_ne h (by decide)
  obtain ⟨hmother, h⟩ := passed_of_ne h (by decide)
  obtain ⟨hsession, h⟩ := passed_of_ne h (by decide)
  obtain ⟨hclassRoll, h⟩ := passed_of_ne h (by decide)
  have hclassRoll' : ¬ (atoi (printInt04 (atoi e.classRoll)) < 1 ||
      verifyNumber (printInt04 (atoi e.classRoll))) = true := by
    simp only [Bool.or_eq_true, decide_eq_true_eq, not_or] at hclassRoll
    simp [hroll, hrollDigits, hclassRoll.1]
  have hbirthdate : checkBirthdate st (e.reloaded photo) = checkBirthdate st e := by
    rw [hreloaded]
    rfl
  have hprevious : checkPrevious st (e.reloaded photo) = checkPrevious st e := by
    rw [hreloaded]
    rfl
  have hsubjects : checkSubjects st (e.reloaded photo) = checkSubjects st e := by
    rw [hreloaded]
    rfl
  rw [checkEntries, hbirthdate, hprevious, hsubjects, hreloaded, if_neg hname, if_neg hfather,
    if_neg hmother, if_neg hsession, if_neg hclassRoll']
  cases hdate : if st.ignoreBirthdate then none else checkBirthdate st e with
  | some err =>
    rw [hdate] at h
    exact h
  | none =>
    simp only [hdate] at h
    obtain ⟨-, h⟩ := passed_of_ne h (by decide)
    simpa [htotDigits, htotLen] using h

/-! ### The name of the copy -/

theorem basename_append {front base : Bytes} (hbase : slash ∉ base) :
    basename (front ++ slash :: base) = some base := by
  rw [basename, if_pos (by simp)]
  have htake : (front ++ slash :: base).reverse.takeWhile (· != slash) = base.reverse := by
    rw [List.reverse_append, List.reverse_cons, List.append_assoc,
      List.takeWhile_append_of_pos fun b hb => by
        simpa using ne_of_mem_of_not_mem (List.mem_reverse.mp hb) hbase]
    simp
  rw [htake, List.reverse_reverse]

theorem extension_append {front ext : Bytes} (hext : 46 ∉ ext) :
    extension (front ++ 46 :: ext) = some ext := by
  rw [extension, if_pos (by simp)]
  have htake : (front ++ 46 :: ext).reverse.takeWhile (· != 46) = ext.reverse := by
    rw [List.reverse_append, List.reverse_cons, List.append_assoc,
      List.takeWhile_append_of_pos fun b hb => by
        simpa using ne_of_mem_of_not_mem (List.mem_reverse.mp hb) hext]
    simp
  rw [htake, List.reverse_reverse]

theorem slash_notMem_basename {path base : Bytes} (h : basename path = some base) :
    slash ∉ base := by
  unfold basename at h
  split_ifs at h
  obtain rfl := Option.some.inj h
  intro hmem
  exact absurd (List.mem_takeWhile_imp (List.mem_reverse.mp hmem)) (by simp)

theorem extension_spec {base ext : Bytes} (h : extension base = some ext) :
    46 ∉ ext ∧ ext ⊆ base := by
  unfold extension at h
  split_ifs at h
  obtain rfl := Option.some.inj h
  refine ⟨fun hmem => ?_, fun b hb => ?_⟩
  · exact absurd (List.mem_takeWhile_imp (List.mem_reverse.mp hmem)) (by simp)
  · exact List.mem_reverse.mp ((List.takeWhile_prefix _).subset (List.mem_reverse.mp hb))

/-- The name of a form is a text without a slash, and its extension is `txt`. -/
theorem constructFilename_eq {roll totlist : ℤ} {gender sec group : Bytes}
    (hroll : (printInt04 roll).length = 4) (htot : (printInt04 totlist).length = 4)
    (hsec : sec ∈ sections) :
    ∃ stem, constructFilename gender roll sec totlist group = stem ++ 46 :: ascii "txt" ∧
      IsText stem ∧ slash ∉ stem ∧ stem.length = 15 := by
  have hsecs : ∀ item ∈ sections, IsText item ∧ item.length = 1 := by decide
  have hletters : ∀ p ∈ groupLetters, slash ∉ p.2 := by decide
  have hplain : ∀ item ∈ sections, slash ∉ if item = ascii " " then ascii "_" else item := by decide
  obtain ⟨hsecText, hsecLen⟩ := hsecs _ hsec
  obtain ⟨htext, hlen, -⟩ :=
    @constructFilename_parts roll totlist gender sec group hroll htot hsecText
  have hgroup : slash ∉ (groupLetters.lookup group).getD (ascii "u") := by
    cases hlookup : groupLetters.lookup group with
    | none => decide
    | some letter =>
      obtain ⟨l₁, l₂, hsplit, -⟩ := List.lookup_eq_some_iff.mp hlookup
      exact hletters (group, letter) (by simp [hsplit])
  have hgender : slash ∉ if gender = ascii "Male" then ascii "M" else ascii "F" := by
    split <;> decide
  have hdigits : ∀ z, slash ∉ printInt04 z := by
    intro z hmem
    rcases of_mem_printInt04 hmem with hdigit | hminus
    · exact absurd hdigit (by decide)
    · exact absurd hminus (by decide)
  have hword : slash ∉ ascii "_" := by decide
  have hstem : ∃ stem, constructFilename gender roll sec totlist group = stem ++ ascii ".txt" ∧
      slash ∉ stem := by
    refine ⟨_, rfl, ?_⟩
    simp only [List.mem_append, hgender, hword, hdigits, hplain _ hsec, hgroup, or_self,
      not_false_eq_true]
  obtain ⟨stem, hfile, hslash⟩ := hstem
  rw [hfile] at htext hlen
  rw [List.length_append, hsecLen, show (ascii ".txt").length = 4 from rfl] at hlen
  exact ⟨stem, hfile, (isText_append.mp htext).1, hslash, by omega⟩

/-- The path of a form in front of the three letters that the photo replaces. -/
theorem fullFilename_eq (hsession : IsNumberEntry 4 session) (hcolcode : IsNumberEntry 4 colcode)
    (he : e.HeadOffered) :
    ∃ dir stem, fixInfoPath session colcode ++ e.filename =
        dir ++ slash :: (stem ++ 46 :: ascii "txt") ∧ slash ∉ stem ∧
      IsText (dir ++ slash :: (stem ++ [46])) ∧
      (dir ++ slash :: (stem ++ [46])).head? = some slash ∧
      (dir ++ slash :: (stem ++ [46])).length = (fixInfoPath session colcode).length + 16 := by
  have hname : ∃ stem, e.filename = _ ∧ _ := constructFilename_eq
    (length_printInt04_atoi he.classRoll.1) (length_printInt04_atoi he.totList.1) he.sec
  obtain ⟨stem, hfile, htext, hslash, hlen⟩ := hname
  have hdir : ∃ dir, fixInfoPath session colcode = dir ++ [slash] := ⟨_, rfl⟩
  obtain ⟨dir, hdir⟩ := hdir
  have hdirText := isText_fixInfoPath hsession.isText hcolcode.isText
  have hhead : (fixInfoPath session colcode).head? = some slash := rfl
  rw [hdir] at hdirText hhead
  have hfull : dir ++ [slash] ++ e.filename = dir ++ slash :: (stem ++ 46 :: ascii "txt") := by
    rw [hfile, List.append_assoc, List.singleton_append]
  refine ⟨dir, stem, hdir ▸ hfull, hslash, ?_, ?_, ?_⟩
  · have hdot : IsText [46] := by decide
    rw [← List.singleton_append, ← List.append_assoc]
    exact isText_append.mpr ⟨hdirText, isText_append.mpr ⟨htext, hdot⟩⟩
  · rw [← List.singleton_append, ← List.append_assoc, List.head?_append, hhead]
    rfl
  · rw [hdir]
    simp only [List.length_append, List.length_cons, List.length_nil, hlen]

/-- The name of the copy of a photo. -/
theorem photoPath_eq {dir stem name base ext : Bytes} (hbase : basename name = some base)
    (hext : extension base = some ext) :
    photoPath (dir ++ slash :: (stem ++ 46 :: ascii "txt")) name =
      some (dir ++ slash :: (stem ++ 46 :: ext)) := by
  have hsplit : dir ++ slash :: (stem ++ 46 :: ascii "txt") =
      dir ++ slash :: (stem ++ [46]) ++ ascii "txt" := by simp
  have htake : (dir ++ slash :: (stem ++ 46 :: ascii "txt")).take
      ((dir ++ slash :: (stem ++ 46 :: ascii "txt")).length - 3) =
        dir ++ slash :: (stem ++ [46]) := by
    rw [hsplit, List.length_append, show (ascii "txt").length = 3 from rfl, Nat.add_sub_cancel,
      List.take_left]
  simp only [photoPath, hbase, hext, bind, Option.bind, htake, pure]
  simp

/-- The copy of the copy of a photo has its name. -/
theorem photoPath_copy {dir stem ext : Bytes} (hstem : slash ∉ stem) (hslash : slash ∉ ext)
    (hdot : 46 ∉ ext) :
    photoPath (dir ++ slash :: (stem ++ 46 :: ascii "txt")) (dir ++ slash :: (stem ++ 46 :: ext)) =
      some (dir ++ slash :: (stem ++ 46 :: ext)) := by
  refine photoPath_eq (basename_append ?_) (extension_append hdot)
  rw [List.mem_append, List.mem_cons]
  rintro (h | h | h)
  · exact hstem h
  · exact absurd h (by decide)
  · exact hslash h

/-- Saving what was loaded prints the same lines, when the entries come through the scans. -/
theorem verifyForm_reloaded (he : e.Offered) (hr : e.Reloads infodirname) {photo : Option Bytes}
    (h : verifyForm infodirname e = some (path, lines))
    (hphoto : photo.map (photoPath (infodirname ++ e.filename)) =
      e.photo.map (photoPath (infodirname ++ e.filename))) :
    verifyForm infodirname (e.reloaded photo) = some (path, lines) := by
  have hroll := (printed_passes he.classRoll).1
  have htot := (printed_passes he.totList).1
  have hfile : (e.reloaded photo).filename = e.filename := by
    simp only [Entries.filename, Entries.reloaded, hroll, htot]
  have hlines : ∀ text, formLines (e.reloaded photo) text = formLines e text := by
    intro text
    rw [hr.reloaded_eq]
    simp only [formLines, Entries.header, Entries.labelledLines, hroll, htot]
    rfl
  have hbirth : (e.reloaded photo).birthdate = e.birthdate := rfl
  have hsec : (e.reloaded photo).sec = e.sec := rfl
  unfold verifyForm at h ⊢
  simp only [hfile, hbirth, hsec, hlines] at h ⊢
  split_ifs at h ⊢ with hover
  have hcopied : (e.reloaded photo).photo = photo := rfl
  rw [hcopied]
  cases hname : e.photo with
  | none =>
    rw [hname] at h hphoto
    obtain rfl : photo = none := by simpa using hphoto
    exact h
  | some name =>
    rw [hname] at h hphoto
    obtain ⟨copy, rfl, hcopy⟩ := Option.map_eq_some_iff.mp hphoto
    simp only [hcopy]
    exact h

/-- The lines of what was loaded are those of the form only when the scans left out nothing. -/
theorem formLines_reloaded_inj {photo : Option Bytes} {text text' : Bytes}
    (h : formLines (e.reloaded photo) text' = formLines e text) :
    unblank e.fatherName = e.fatherName ∧ unblank e.motherName = e.motherName ∧
      unblank e.collegeName = e.collegeName ∧
      (e.previousSessStart = [] → e.previousSessEnd = []) ∧ text' = text := by
  have hline : ∀ i : ℕ, (formLines (e.reloaded photo) text')[i]? = (formLines e text)[i]? := by
    intro i
    rw [h]
  have hlast : (formLines (e.reloaded photo) text').getLast? = (formLines e text).getLast? := by
    rw [h]
  refine ⟨labelled_inj (Option.some.inj (hline 3)), labelled_inj (Option.some.inj (hline 4)),
    labelled_inj (Option.some.inj (hline 13)), fun hnil => ?_, ?_⟩
  · have hsess := labelled_inj (Option.some.inj (hline 18))
    have hend := List.append_cancel_left hsess
    simp only [Entries.reloaded, if_pos hnil] at hend
    exact hend.symm
  · simp only [formLines, List.getLast?_append, List.getLast?_singleton, Option.some_or,
      Option.some.injEq] at hlast
    exact labelled_inj hlast

/-- What is known when the file that was loaded is written again. -/
theorem saveForm_reloaded {photo : Option Bytes} {text : Bytes}
    (h : saveForm st infodirname (e.reloaded photo) = some (path, formLines e text)) :
    (∀ b ∈ e.fatherName.head?, isspace b = false) ∧
      (∀ b ∈ e.motherName.head?, isspace b = false) ∧
      (∀ b ∈ e.collegeName.head?, isspace b = false) ∧
      (e.previousSessStart = [] → e.previousSessEnd = []) ∧
      (photo = none ∧ text = [] ∨
        ∃ name, photo = some name ∧ photoPath path name = some text) := by
  obtain ⟨-, hwritten⟩ := saveForm_cases h
  obtain ⟨-, text', hlines, hphoto⟩ := verifyForm_cases hwritten
  obtain ⟨hfather, hmother, hcollege, hprev, rfl⟩ := formLines_reloaded_inj hlines.symm
  exact ⟨unblank_eq_self_iff.mp hfather, unblank_eq_self_iff.mp hmother,
    unblank_eq_self_iff.mp hcollege, hprev, hphoto⟩

/-- The name of the copy of a photo, by the extension of the photo. -/
theorem photoPath_cases (hsession : IsNumberEntry 4 session) (hcolcode : IsNumberEntry 4 colcode)
    (he : e.HeadOffered) {name photo : Bytes}
    (hcopy : photoPath (fixInfoPath session colcode ++ e.filename) name = some photo) :
    ∃ base ext front rest, basename name = some base ∧ extension base = some ext ∧
      photo = front ++ ext ∧ photo = slash :: rest ∧ IsText front ∧
      front.length = (fixInfoPath session colcode).length + 16 ∧
      ∀ part, part <+: ext → photoPath (fixInfoPath session colcode ++ e.filename) (front ++ part) =
        some (front ++ part) := by
  obtain ⟨base, hbase, hrest⟩ := Option.bind_eq_some_iff.mp hcopy
  obtain ⟨ext, hext, -⟩ := Option.bind_eq_some_iff.mp hrest
  obtain ⟨dir, stem, hfull, hstem, htext, hhead, hlen⟩ := fullFilename_eq hsession hcolcode he
  obtain ⟨hdot, hsub⟩ := extension_spec hext
  have hslash : slash ∉ ext := fun hmem => slash_notMem_basename hbase (hsub hmem)
  have happend : ∀ part, dir ++ slash :: (stem ++ 46 :: part) =
      dir ++ slash :: (stem ++ [46]) ++ part := fun part => by simp
  have hphoto : photo = dir ++ slash :: (stem ++ [46]) ++ ext := by
    rw [hfull, photoPath_eq hbase hext, happend] at hcopy
    exact (Option.some.inj hcopy).symm
  obtain ⟨rest, hrest⟩ : ∃ rest, photo = slash :: rest := by
    rw [hphoto, ← List.head?_eq_some_iff, List.head?_append, hhead]
    rfl
  refine ⟨base, ext, _, rest, hbase, hext, hphoto, hrest, htext, hlen, fun part hpart => ?_⟩
  rw [hfull, ← happend]
  exact photoPath_copy hstem (fun hmem => hslash (hpart.subset hmem))
    fun hmem => hdot (hpart.subset hmem)

/-- The front of the name of the copy that is a text. -/
theorem takeWhile_photo {photo front ext : Bytes} (hfront : IsText front)
    (hsplit : photo = front ++ ext) :
    photo.takeWhile isTextByte = front ++ ext.takeWhile isTextByte := by
  rw [hsplit, List.takeWhile_append_of_pos fun b hb => by
    have hb := hfront b hb
    simp [isTextByte, hb.1, hb.2.1, hb.2.2]]

/-- The part of the name of the copy that is a text names its own copy. -/
theorem photoPath_takeWhile (hsession : IsNumberEntry 4 session)
    (hcolcode : IsNumberEntry 4 colcode) (he : e.HeadOffered) {name photo : Bytes}
    (hcopy : photoPath (fixInfoPath session colcode ++ e.filename) name = some photo) :
    photoPath (fixInfoPath session colcode ++ e.filename) (photo.takeWhile isTextByte) =
      some (photo.takeWhile isTextByte) := by
  obtain ⟨-, ext, front, -, -, -, hsplit, -, hfront, -, hagain⟩ :=
    photoPath_cases hsession hcolcode he hcopy
  rw [takeWhile_photo hfront hsplit]
  exact hagain _ (List.takeWhile_prefix isTextByte)

theorem photoPath_head (hsession : IsNumberEntry 4 session) (hcolcode : IsNumberEntry 4 colcode)
    (he : e.HeadOffered) {name photo : Bytes}
    (hcopy : photoPath (fixInfoPath session colcode ++ e.filename) name = some photo) :
    photo.head? = some slash := by
  obtain ⟨-, -, -, rest, -, -, -, rfl, -⟩ := photoPath_cases hsession hcolcode he hcopy
  rfl

/-- The name of the copy fits a line and its array exactly when the extension of the photo is a
text and leaves room for the rest. -/
theorem photo_fits_iff (hsession : IsNumberEntry 4 session) (hcolcode : IsNumberEntry 4 colcode)
    (he : e.HeadOffered) {name photo : Bytes} (hname : e.photo = some name)
    (hcopy : photoPath (fixInfoPath session colcode ++ e.filename) name = some photo) :
    (IsText photo ∧ photo.length < INFOBUFSIZE) ↔
      ∀ name base ext, e.photo = some name → basename name = some base →
        extension base = some ext →
        IsText ext ∧ (fixInfoPath session colcode).length + 16 + ext.length < INFOBUFSIZE := by
  obtain ⟨base, ext, front, -, hbase, hext, hsplit, -, hfront, hlen, -⟩ :=
    photoPath_cases hsession hcolcode he hcopy
  have htext : IsText photo ↔ IsText ext := by
    rw [hsplit, isText_append]
    exact and_iff_right hfront
  have hlength : photo.length = (fixInfoPath session colcode).length + 16 + ext.length := by
    rw [hsplit, List.length_append, hlen]
  rw [htext, hlength]
  constructor
  · intro hfits name' base' ext' hsome hbase' hext'
    obtain rfl : name = name' := Option.some.inj (hname.symm.trans hsome)
    obtain rfl : base = base' := Option.some.inj (hbase.symm.trans hbase')
    obtain rfl : ext = ext' := Option.some.inj (hext.symm.trans hext')
    exact hfits
  · intro hphoto
    exact hphoto name base ext hname hbase hext

/-- The copy of the photo that is loaded is its own copy. -/
theorem loadStudentInfo_photo (hsession : IsNumberEntry 4 session)
    (hcolcode : IsNumberEntry 4 colcode) (he : e.Offered)
    (h : saveForm st (fixInfoPath session colcode) e = some (path, lines)) {w : EditWindow}
    (hload : loadStudentInfo common lines.flatten = some w) {copy : Bytes}
    (hcopy : w.entries.photo = some copy) : photoPath path copy = some copy := by
  obtain ⟨hcheck, hwritten⟩ := saveForm_cases h
  obtain ⟨hverify, -⟩ := checkEntries_ok hcheck
  obtain ⟨hscan, -⟩ := saveForm_scannable he.toHeadOffered h
  obtain ⟨rfl, photo, rfl, hphoto⟩ := verifyForm_cases hwritten
  change loadStudentInfo common (e.header.print e.studentName ++ e.tail photo) = some w at hload
  rcases loadStudentInfo_saved he hverify hscan photo with ⟨hover, -⟩ | ⟨⟨n, hlines⟩, -⟩
  · rw [hover] at hload
    cases hload
  rw [hlines] at hload
  rcases hphoto with ⟨-, rfl⟩ | ⟨name, -, hname⟩
  · rw [loadLines_noPhoto] at hload
    obtain rfl := Option.some.inj hload
    cases hcopy
  · have hhead := photoPath_head hsession hcolcode he.toHeadOffered hname
    obtain ⟨rfl, -⟩ := loadLines_photo_some hhead hload
    obtain rfl : photo.takeWhile isTextByte = copy := Option.some.inj hcopy
    exact photoPath_takeWhile hsession hcolcode he.toHeadOffered hname

/-- **Loading and saving.** For every form that is saved, with its flag set or not: saving what
was loaded writes the same file again, with the flag unset, exactly when the entries come through
the scans whole. -/
theorem reload_identity_iff (hsession : IsNumberEntry 4 session)
    (hcolcode : IsNumberEntry 4 colcode) (he : e.Offered) (hsent : sent = 0 ∨ sent = 1)
    (h : saveForm st (fixInfoPath session colcode) e = some (path, lines)) :
    (∃ w, loadStudentInfo common
        ({ e.header with sent := sent }.print e.studentName ++ lines.tail.flatten) = some w ∧
      saveForm st (fixInfoPath session colcode) w.entries = some (path, lines)) ↔
    e.Reloads (fixInfoPath session colcode) := by
  obtain ⟨hcheck, hwritten⟩ := saveForm_cases h
  obtain ⟨hverify, -⟩ := checkEntries_ok hcheck
  obtain ⟨hs, -⟩ := saveForm_scannable he.toHeadOffered h
  have hscan : { e.header with sent := sent }.Scannable e.studentName :=
    ⟨hs.gen, hs.roll, hs.sec, hs.tot, hs.group, hsent, hs.name⟩
  obtain ⟨hpath, photo, rfl, hphoto⟩ := verifyForm_cases hwritten
  change (∃ w, loadStudentInfo common (_ ++ e.tail photo) = some w ∧ _) ↔ _
  rcases loadStudentInfo_saved he hverify hscan photo with ⟨hover, hlast⟩ | ⟨⟨n, hload⟩, hlast⟩
  · -- the handler overruns its array
    rw [hover]
    constructor
    · rintro ⟨w, hw, -⟩
      cases hw
    · intro hr
      exact absurd hlast hr.sessNext
  rw [hload]
  rcases hphoto with ⟨hname, rfl⟩ | ⟨name, hname, hcopy⟩
  · rw [loadLines_noPhoto]
    constructor
    · rintro ⟨w, hw, hsave⟩
      obtain rfl := Option.some.inj hw
      obtain ⟨hfather, hmother, hcollege, hprev, -⟩ := saveForm_reloaded hsave
      refine ⟨hfather, hmother, hcollege, hprev, hlast, fun name base ext hsome => ?_⟩
      rw [hname] at hsome
      cases hsome
    · intro hr
      refine ⟨_, rfl, ?_⟩
      rw [saveForm, if_pos (checkEntries_reloaded he hr none hcheck)]
      exact verifyForm_reloaded he hr hwritten (by rw [hname])
  · rw [hpath] at hcopy
    have hhead := photoPath_head hsession hcolcode he.toHeadOffered hcopy
    have hfits := photo_fits_iff hsession hcolcode he.toHeadOffered hname hcopy
    -- what is loaded is the part of the copy's name that is a text
    have hpart := photoPath_takeWhile hsession hcolcode he.toHeadOffered hcopy
    constructor
    · rintro ⟨w, hw, hsave⟩
      obtain ⟨rfl, hshort⟩ := loadLines_photo_some hhead hw
      have hsaved : saveForm st (fixInfoPath session colcode)
          (e.reloaded (some (photo.takeWhile isTextByte))) = some (path, formLines e photo) := hsave
      obtain ⟨hfather, hmother, hcollege, hprev, hphoto⟩ := saveForm_reloaded hsaved
      refine ⟨hfather, hmother, hcollege, hprev, hlast, hfits.mp ?_⟩
      rcases hphoto with ⟨hnone, -⟩ | ⟨loaded, hsome, hcopy'⟩
      · cases hnone
      · obtain rfl := Option.some.inj hsome
        rw [hpath, hpart] at hcopy'
        have hkept : photo.takeWhile isTextByte = photo := Option.some.inj hcopy'
        exact ⟨isText_iff_takeWhile.mpr hkept, hkept ▸ hshort⟩
    · intro hr
      obtain ⟨htext, hshort⟩ := hfits.mpr hr.photo
      refine ⟨_, loadLines_photo_whole hhead htext hshort, ?_⟩
      change saveForm st (fixInfoPath session colcode) (e.reloaded (some photo)) = _
      rw [saveForm, if_pos (checkEntries_reloaded he hr (some photo) hcheck)]
      refine verifyForm_reloaded he hr hwritten ?_
      rw [isText_iff_takeWhile.mp htext] at hpart
      rw [hname, Option.map_some, Option.map_some, hpart, hcopy]

end Reload

/-! ### Names that begin with a blank -/

/-- The codes in the files for all groups and for home economics. -/
def sampleCommon : CommonCodes where
  files file := if file = subCommonAll then [101, 102, 107, 108]
    else if file = ascii "sub_common_home_eco.txt" then [273, 274, 298, 299] else []
  digits file code hcode := by
    split_ifs at hcode
    · exact (by decide : ∀ code ∈ [101, 102, 107, 108], code < 1000) code hcode
    · exact (by decide : ∀ code ∈ [273, 274, 298, 299], code < 1000) code hcode
    · cases hcode

theorem homeEcoEntries_offered : homeEcoEntries.Offered where
  toHeadOffered := homeEcoEntries_headOffered
  fatherName := by decide +kernel
  motherName := by decide +kernel
  session := by decide +kernel
  board := by decide +kernel
  dayOfBirth := by decide +kernel
  monthOfBirth := by decide +kernel
  yearOfBirth := by decide +kernel
  collegeCode := by decide +kernel
  collegeName := by decide +kernel
  collegeUpper := by decide +kernel
  previousBoard := by decide +kernel
  previousYear := by decide +kernel
  previousRoll := by decide +kernel
  previousReg := by decide +kernel
  previousSessStart := by decide +kernel
  previousSessEnd := by decide +kernel
  religion := by decide +kernel
  subs := by decide +kernel

theorem sampleSession : IsNumberEntry 4 (ascii "2005") := by decide +kernel

theorem sampleColcode : IsNumberEntry 4 (ascii "0001") := by decide +kernel

theorem reload_identity_iff_sample :
    (∃ w, loadStudentInfo sampleCommon
        ({ homeEcoEntries.header with sent := 1 }.print homeEcoEntries.studentName ++
          (formLines homeEcoEntries []).tail.flatten) = some w ∧
      saveForm homeEcoSettings (fixInfoPath (ascii "2005") (ascii "0001")) w.entries =
        some (fixInfoPath (ascii "2005") (ascii "0001") ++ homeEcoEntries.filename,
          formLines homeEcoEntries [])) ↔
    homeEcoEntries.Reloads (fixInfoPath (ascii "2005") (ascii "0001")) :=
  reload_identity_iff sampleSession sampleColcode homeEcoEntries_offered (Or.inr rfl)
    homeEcoEntries_saved

/-- A form whose father's name is not looked at. -/
def blankSettings : Settings := { homeEcoSettings with ignoreFaName := true }

def blankEntries : Entries := { homeEcoEntries with fatherName := ascii " C" }

/-- The blank in front of the father's name is gone when the form is saved again. -/
theorem reload_drops_blank_sample :
    saveForm blankSettings (fixInfoPath (ascii "2005") (ascii "0001")) blankEntries =
        some (fixInfoPath (ascii "2005") (ascii "0001") ++ blankEntries.filename,
          formLines blankEntries []) ∧
      blankEntries.Offered ∧
      ∀ w, loadStudentInfo sampleCommon (formLines blankEntries []).flatten = some w →
        saveForm blankSettings (fixInfoPath (ascii "2005") (ascii "0001")) w.entries ≠
          some (fixInfoPath (ascii "2005") (ascii "0001") ++ blankEntries.filename,
            formLines blankEntries []) := by
  have hdiffers : (loadStudentInfo sampleCommon (formLines blankEntries []).flatten).bind
      (fun w => saveForm blankSettings (fixInfoPath (ascii "2005") (ascii "0001")) w.entries) ≠
        some (fixInfoPath (ascii "2005") (ascii "0001") ++ blankEntries.filename,
          formLines blankEntries []) := by
    decide +kernel
  have hoffered : blankEntries.Offered :=
    { homeEcoEntries_offered with fatherName := by decide +kernel }
  refine ⟨by decide +kernel, hoffered, fun w hw hsave => hdiffers ?_⟩
  rw [hw]
  exact hsave

end Esif.Client
