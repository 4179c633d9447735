import Esif.Client.Apply
import Esif.Client.Check

/-!
# Reading the header of a form

The first line of a form is printed by `verify_form` and read by the list of the editor, by
the loop over the directory and by the function that sends a form, which prints it again
with the flag set. The three scans are inverse to the one pattern.

## Main definitions

* `fgetsBuf` — a line of a file into an array
* `Data`, `scanInfo`, `editorLoadData` — the list of the editor
* `scanForm` — the scan of `apply_form`
* `Header.Scannable` — a header that every reader can take apart

## Main results

* `scanHeader_print`, `scanInfo_print`, `scanForm_print` — the scans of a printed header
* `markSent_print` — the header is printed again over its own bytes
* `header_round_trip` — all readers give back what was written
* `mark_sent_one_byte` — marking a form changes one byte of its file
-/

namespace Esif.Client

open Esif.CS Esif.Posix

/-- `fgets(buffer, size, fp)`: what it reads and what is left of the file. -/
def fgetsBuf (size : ℕ) (text : Bytes) : Bytes × Bytes :=
  let line := Lines.piece isNewline (size - 1) text
  (line, text.drop line.length)

theorem fgets_eq (text : Bytes) : fgets text = fgetsBuf MAXLINE text := rfl

/-! ### The list of the editor -/

/-- The size of `info_buf` and of `value`. -/
def INFOBUFSIZE : ℕ := 80

/-- A row of the list. -/
structure Data where
  roll : ℤ
  stName : Bytes
  section_ : Bytes
  gender : Bytes
  totList : ℤ
  group : Bytes
  sent : ℤ
  deriving DecidableEq, Repr

/-- A zero-filled row. -/
def Data.zero : Data := ⟨0, [], [], [], 0, [], 0⟩

/-- Go on with what was scanned. A scan that does not match ends with what there is; one
that overruns an array stops everything. -/
def orStop {α β : Type} (info : β) (scan : Except ScanError α) (next : α → Except ScanError β) :
    Except ScanError β :=
  match scan with
  | .ok a => next a
  | .error .mismatch => .ok info
  | .error .overrun => .error .overrun

/-- `":%[^\n]"` into `st_name[41]`. -/
def scanTitle (s : Bytes) : Except ScanError Bytes := do
  let s ← scanColon s
  let name := s.takeWhile (· != newline)
  if name = [] then .error .mismatch
  else if 41 ≤ name.length then .error .overrun
  else return name

/-- `sscanf(info_buf, "%[^:]:%d:%[^:]:%d:%[^:]:%d:%[^\n]", …)` into a zero-filled row. -/
def scanInfo (s : Bytes) : Except ScanError Data :=
  let info := Data.zero
  orStop info (scanField 7 s) fun (gender, s) =>
  let info := { info with gender := gender }
  orStop info (scanColon s) fun s =>
  orStop info (scanNumber s) fun (roll, s) =>
  let info := { info with roll := roll }
  orStop info (scanColon s) fun s =>
  orStop info (scanField 2 s) fun (section_, s) =>
  let info := { info with section_ := section_ }
  orStop info (scanColon s) fun s =>
  orStop info (scanNumber s) fun (totList, s) =>
  let info := { info with totList := totList }
  orStop info (scanColon s) fun s =>
  orStop info (scanField 20 s) fun (group, s) =>
  let info := { info with group := group }
  orStop info (scanColon s) fun s =>
  orStop info (scanNumber s) fun (sent, s) =>
  let info := { info with sent := sent }
  orStop info (scanTitle s) fun stName =>
  .ok { info with stName := stName }

/-- The row of a file, when it has a first line. -/
def loadInfo (content : Bytes) : Except ScanError (Option Data) :=
  if content = [] then .ok none
  else (scanInfo (cstr (fgetsBuf INFOBUFSIZE content).1)).map some

/-- Not a name of the list. -/
def notListed (name : Bytes) : Bool :=
  name.head? == some 46 || name.length != FILENAMELEN || name.drop (name.length - 4) != ascii ".txt"

/-- `editor_load_data(infodir, listp)`, over the entries of the directory. -/
def editorLoadData (infodir : Bytes) (disk : Bytes → Option Bytes) :
    List Bytes → Except ScanError (List Data)
  | [] => .ok []
  | name :: names =>
    if notListed name then editorLoadData infodir disk names
    else match disk (infodir ++ name) with
      | none => editorLoadData infodir disk names
      | some content => do
        let row ← loadInfo content
        let list ← editorLoadData infodir disk names
        return row.toList ++ list

/-! ### The scan of `apply_form` -/

/-- `sscanf(buffer, "%[^:]:%d:%[^:]:%d:%[^:]:%d:%[^\r\n]", …)` -/
def scanForm (s : Bytes) : Except ScanError (Header × Bytes) := do
  let (h, s) ← scanHeader s
  let name ← scanName s
  return (h, name)

/-! ### A header that can be taken apart -/

/-- A header and a name that fit the arrays of every reader: no field is empty or has a
colon, and the numbers have four digits. -/
structure Header.Scannable (h : Header) (name : Bytes) : Prop where
  gen : h.gen ≠ [] ∧ IsText h.gen ∧ colon ∉ h.gen ∧ h.gen.length ≤ 6
  roll : 0 ≤ h.roll ∧ h.roll < 10000
  sec : h.sec ≠ [] ∧ IsText h.sec ∧ colon ∉ h.sec ∧ h.sec.length ≤ 1
  tot : 0 ≤ h.tot ∧ h.tot < 10000
  group : h.group ≠ [] ∧ IsText h.group ∧ colon ∉ h.group ∧ h.group.length ≤ 15
  sent : h.sent = 0 ∨ h.sent = 1
  name : name ≠ [] ∧ IsText name ∧ name.length ≤ 40

/-- The part of a printed header in front of the flag. -/
def Header.front (h : Header) : Bytes :=
  h.gen ++ [colon] ++ printInt04 h.roll ++ [colon] ++ h.sec ++ [colon] ++ printInt04 h.tot ++
    [colon] ++ h.group ++ [colon]

/-- The character of the flag. -/
def flagByte (sent : ℤ) : UInt8 := if sent = 0 then 48 else 49

section Scannable

variable {h : Header} {name rest : Bytes}

theorem Header.Scannable.printInt_sent (hs : h.Scannable name) :
    printInt h.sent = [flagByte h.sent] := by
  rcases hs.sent with hsent | hsent <;>
    · rw [hsent]
      rfl

theorem Header.Scannable.mark (hs : h.Scannable name) :
    { h with sent := 1 }.Scannable name :=
  ⟨hs.gen, hs.roll, hs.sec, hs.tot, hs.group, Or.inr rfl, hs.name⟩

/-- A printed header around the flag. -/
theorem Header.Scannable.print_eq (hs : h.Scannable name) :
    h.print name = h.front ++ flagByte h.sent :: colon :: (name ++ [newline]) := by
  simp [Header.print, Header.front, hs.printInt_sent]

theorem Header.Scannable.length_print (hs : h.Scannable name) : (h.print name).length ≤ 78 := by
  obtain ⟨-, -, -, hgen⟩ := hs.gen
  obtain ⟨-, -, -, hsec⟩ := hs.sec
  obtain ⟨-, -, -, hgroup⟩ := hs.group
  obtain ⟨-, -, hname⟩ := hs.name
  obtain ⟨hroll, hroll'⟩ := hs.roll
  obtain ⟨htot, htot'⟩ := hs.tot
  have hrollLen := length_printInt04 (z := h.roll) (by omega) hroll'
  have htotLen := length_printInt04 (z := h.tot) (by omega) htot'
  simp only [hs.print_eq, Header.front, List.length_append, List.length_cons, List.length_nil]
  omega

/-- A printed header is a line. -/
theorem Header.Scannable.isText_front (hs : h.Scannable name) :
    IsText (h.front ++ flagByte h.sent :: colon :: name) := by
  have hcolon : IsText [colon] := by decide
  have hflag : ∀ sent, IsText (flagByte sent :: [colon]) := by
    intro sent
    unfold flagByte
    split <;> decide
  have hsplit : h.front ++ flagByte h.sent :: colon :: name =
      h.front ++ (flagByte h.sent :: [colon]) ++ name := by simp
  rw [hsplit]
  simp only [Header.front, isText_append, isText_printInt04, hcolon, hs.gen.2.1, hs.sec.2.1,
    hs.group.2.1, hs.name.2.1, hflag, and_self]

/-- `fgets` takes exactly the header from the front of the file, into any array of at least
79 bytes. -/
theorem Header.Scannable.fgetsBuf_print (hs : h.Scannable name) {size : ℕ} (hsize : 79 ≤ size)
    (rest : Bytes) : fgetsBuf size (h.print name ++ rest) = (h.print name, rest) := by
  have hlen := hs.length_print
  have hline : h.print name = h.front ++ flagByte h.sent :: colon :: name ++ [newline] := by
    simp [hs.print_eq]
  have hwhole : Lines.Whole isNewline (size - 1) (h.print name) := by
    rw [hline]
    refine Lines.whole_line isNewline
      (fun b hb => by simpa [isNewline] using (hs.isText_front b hb).2.1) rfl ?_
    rw [hline, List.length_append, List.length_singleton] at hlen
    omega
  simp [fgetsBuf, hwhole.piece_append]

theorem Header.Scannable.cstr_print (hs : h.Scannable name) :
    cstr (h.print name) = h.print name := by
  have hline : h.print name = h.front ++ flagByte h.sent :: colon :: name ++ [newline] := by
    simp [hs.print_eq]
  refine cstr_eq_self fun hmem => ?_
  rw [hline] at hmem
  rcases List.mem_append.mp hmem with hmem | hmem
  · exact (hs.isText_front nul hmem).1 rfl
  · exact absurd hmem (by decide)

/-! ### The scans -/

theorem scanField_colon {size n : ℕ} {field : Bytes}
    (hfield : field ≠ [] ∧ IsText field ∧ colon ∉ field ∧ field.length ≤ n) (hn : n < size)
    (rest : Bytes) : scanField size (field ++ colon :: rest) = .ok (field, colon :: rest) := by
  obtain ⟨hne, -, hcolon, hlen⟩ := hfield
  rw [scanField_append hcolon (hlen.trans_lt hn), if_neg hne]

theorem scanNumber_four {z : ℤ} (hz : 0 ≤ z ∧ z < 10000) (rest : Bytes) :
    scanNumber (printInt04 z ++ colon :: rest) = .ok (z, colon :: rest) := by
  obtain ⟨hlow, hhigh⟩ := hz
  exact scanNumber_printInt04 (by omega) (by omega) rest

theorem scanNumber_flag (hs : h.Scannable name) (rest : Bytes) :
    scanNumber (flagByte h.sent :: colon :: rest) = .ok (h.sent, colon :: rest) := by
  rcases hs.sent with hsent | hsent
  · rw [hsent]
    exact scanNumber_zero rest
  -- a flag that is set is printed as one digit too
  · have hscan := scanInt_decimal_append (n := 1) (by decide) (b := colon) (by decide) rest
    have hdec : decimal 1 = [49] := rfl
    rw [hdec, List.singleton_append] at hscan
    rw [hsent, show flagByte 1 = 49 from rfl, scanNumber, hscan]
    rfl

theorem Header.Scannable.scanField_gen (hs : h.Scannable name) (rest : Bytes) :
    scanField 7 (h.gen ++ colon :: rest) = .ok (h.gen, colon :: rest) :=
  scanField_colon hs.gen (by decide) rest

theorem Header.Scannable.scanField_sec (hs : h.Scannable name) (rest : Bytes) :
    scanField 2 (h.sec ++ colon :: rest) = .ok (h.sec, colon :: rest) :=
  scanField_colon hs.sec (by decide) rest

theorem Header.Scannable.scanField_group (hs : h.Scannable name) (rest : Bytes) :
    scanField 20 (h.group ++ colon :: rest) = .ok (h.group, colon :: rest) :=
  scanField_colon hs.group (by decide) rest

/-- A printed header as the scans come by it. -/
theorem Header.Scannable.print_scan (hs : h.Scannable name) :
    h.print name = h.gen ++ colon :: (printInt04 h.roll ++ colon :: (h.sec ++ colon ::
      (printInt04 h.tot ++ colon :: (h.group ++ colon :: (flagByte h.sent :: colon ::
        (name ++ [newline])))))) := by
  simp [hs.print_eq, Header.front]

/-- The scan of `apply_forms` gives back the header. -/
theorem scanHeader_print (hs : h.Scannable name) :
    scanHeader (h.print name) = .ok (h, colon :: (name ++ [newline])) := by
  rw [hs.print_scan, scanHeader]
  simp only [hs.scanField_gen, hs.scanField_sec, hs.scanField_group, scanNumber_four hs.roll,
    scanNumber_four hs.tot, scanNumber_flag hs, scanColon_cons, bind, Except.bind]
  rfl

theorem scanLine_newline (hname : IsText name) : scanLine (name ++ [newline]) = name := by
  rw [scanLine, List.takeWhile_append_of_pos]
  · simp [newline, carriageReturn]
  · intro b hb
    simpa using ⟨(hname b hb).2.2, (hname b hb).2.1⟩

/-- The scan of `apply_form` gives back the header and the name. -/
theorem scanForm_print (hs : h.Scannable name) :
    scanForm (h.print name) = .ok (h, name) := by
  obtain ⟨hne, htext, hlen⟩ := hs.name
  have hscan : scanName (colon :: (name ++ [newline])) = .ok name := by
    simp only [scanName, scanColon_cons, bind, Except.bind, scanLine_newline htext, if_neg hne]
    rw [if_neg (by omega)]
    rfl
  simp only [scanForm, scanHeader_print hs, bind, Except.bind, hscan]
  rfl

/-- The row of the editor that shows a header. -/
def Header.row (h : Header) (name : Bytes) : Data :=
  ⟨h.roll, name, h.sec, h.gen, h.tot, h.group, h.sent⟩

/-- The scan of the editor gives back the header and the name. -/
theorem scanInfo_print (hs : h.Scannable name) :
    scanInfo (h.print name) = .ok (h.row name) := by
  obtain ⟨hne, htext, hlen⟩ := hs.name
  have hline : (name ++ [newline]).takeWhile (· != newline) = name := by
    rw [List.takeWhile_append_of_pos]
    · simp
    · intro b hb
      simpa using (htext b hb).2.1
  have hscan : scanTitle (colon :: (name ++ [newline])) = .ok name := by
    simp only [scanTitle, scanColon_cons, bind, Except.bind, hline, if_neg hne]
    rw [if_neg (by omega)]
    rfl
  rw [hs.print_scan, scanInfo]
  simp only [hs.scanField_gen, hs.scanField_sec, hs.scanField_group, scanNumber_four hs.roll,
    scanNumber_four hs.tot, scanNumber_flag hs, scanColon_cons, hscan, orStop]
  rfl

theorem loadInfo_print (hs : h.Scannable name) (rest : Bytes) :
    loadInfo (h.print name ++ rest) = .ok (some (h.row name)) := by
  have hne : h.print name ++ rest ≠ [] := by simp [hs.print_eq]
  rw [loadInfo, if_neg hne, hs.fgetsBuf_print (by decide), hs.cstr_print, scanInfo_print hs]
  rfl

/-! ### The flag is set -/

theorem markSent_eq (content garbage : Bytes) : markSent content garbage =
    match scanForm (cstr (fgets content).1) with
    | .ok (h, name) => .ok (writeOver content ({ h with sent := 1 }.print name))
    | .error .mismatch => .ok (writeOver content garbage)
    | .error .overrun => .error .overrun := rfl

/-- The header is printed again over its own bytes, with the flag set. -/
theorem markSent_print (hs : h.Scannable name) (rest garbage : Bytes) :
    markSent (h.print name ++ rest) garbage = .ok ({ h with sent := 1 }.print name ++ rest) := by
  -- only the flag is another, so the header takes the same bytes
  have hlen : ({ h with sent := 1 }.print name).length = (h.print name).length := by
    simp [hs.print_eq, hs.mark.print_eq, Header.front]
  rw [markSent_eq, fgets_eq, hs.fgetsBuf_print (by decide), hs.cstr_print, scanForm_print hs]
  simp [writeOver, hlen]

end Scannable

/-! ### The forms that are saved -/

section Saved

variable {st : Settings} {e : Entries} {infodirname path : Bytes} {lines : List Bytes}

/-- The lines of a form behind the header. -/
def Entries.tail (e : Entries) (photo : Bytes) : Bytes :=
  ([newline] :: e.labelledLines ++ List.ofFn (fun i => subjectLine i (e.subs i)) ++
    [labelled "PHOTO " photo]).flatten

/-- What the readers make of the first line of the file `path` with these lines, which is the
form of `e`: it fits the arrays of 80 bytes it is read into, by their size or by a larger one;
the scans of the editor, of `apply_forms` and of `apply_form` give back what was printed; and the
name of the file is made again from its row in the editor. -/
structure ReadBack (infodirname : Bytes) (e : Entries) (path : Bytes) (lines : List Bytes) :
    Prop where
  fits : (e.header.print e.studentName).length + 1 ≤ INFOBUFSIZE
  bySize : (fgetsBuf INFOBUFSIZE lines.flatten).1 = e.header.print e.studentName
  byLarger : (fgetsBuf MAXLINE lines.flatten).1 = e.header.print e.studentName
  row : loadInfo lines.flatten = .ok (some (e.header.row e.studentName))
  head : scanHeader (cstr (fgets lines.flatten).1) =
    .ok (e.header, colon :: (e.studentName ++ [newline]))
  whole : scanForm (cstr (fgets lines.flatten).1) = .ok (e.header, e.studentName)
  name : path = infodirname ++ let row := e.header.row e.studentName
    constructFilename row.gender row.roll row.section_ row.totList row.group
  listed : ∀ disk names list, disk path = some lines.flatten → e.filename ∈ names →
    editorLoadData infodirname disk names = .ok list → e.header.row e.studentName ∈ list

/-- The header of a form that is saved can be taken apart. -/
theorem saveForm_scannable (he : e.HeadOffered)
    (h : saveForm st infodirname e = some (path, lines)) :
    e.header.Scannable e.studentName ∧ path = infodirname ++ e.filename ∧
      ∃ photo, lines.flatten = e.header.print e.studentName ++ e.tail photo := by
  obtain ⟨hcheck, hwritten⟩ := saveForm_cases h
  obtain ⟨hpath, photo, rfl, -⟩ := verifyForm_cases hwritten
  obtain ⟨hname, -⟩ := checkEntries_ok hcheck
  have hgender : ∀ item ∈ genders, item ≠ [] ∧ IsText item ∧ colon ∉ item ∧ item.length ≤ 6 := by
    decide
  have hsec : ∀ item ∈ sections, item ≠ [] ∧ IsText item ∧ colon ∉ item ∧ item.length ≤ 1 := by
    decide
  have hgroup : ∀ item ∈ groupfiles.map Prod.fst,
      item ≠ [] ∧ IsText item ∧ colon ∉ item ∧ item.length ≤ 15 := by decide
  -- without a name `%[^\r\n]` would not match; `verify_name` does not let it through
  have hnil : e.studentName ≠ [] := by
    intro hnil
    simp [hnil, verifyName] at hname
  refine ⟨⟨hgender _ he.gender, atoi_of_isNumberEntry he.classRoll, hsec _ he.sec,
    atoi_of_isNumberEntry he.totList, hgroup _ he.group, Or.inl rfl,
    hnil, he.studentName.isText, he.studentName.1⟩, hpath, photo, rfl⟩

/-- The editor lists the names of forms. -/
theorem constructFilename_listed {roll totlist : ℤ} {gender sec group : Bytes}
    (hroll : (printInt04 roll).length = 4) (htot : (printInt04 totlist).length = 4)
    (hsec : sec ∈ sections) :
    notListed (constructFilename gender roll sec totlist group) = false := by
  have hsecs : ∀ item ∈ sections, IsText item ∧ item.length = 1 := by decide
  obtain ⟨hsecText, hsecLen⟩ := hsecs _ hsec
  obtain ⟨-, hlen, front, hfront⟩ :=
    @constructFilename_parts roll totlist gender sec group hroll htot hsecText
  replace hlen : (constructFilename gender roll sec totlist group).length = FILENAMELEN :=
    hlen.trans (by rw [hsecLen]; rfl)
  have hhead : (constructFilename gender roll sec totlist group).head? ≠ some 46 := by
    unfold constructFilename
    split <;> simp [ascii]
  have hdrop : (constructFilename gender roll sec totlist group).drop (FILENAMELEN - 4) =
      ascii ".txt" := by
    rw [← hlen, hfront, List.length_append, show (ascii ".txt").length = 4 from rfl,
      Nat.add_sub_cancel, List.drop_left]
  simp [notListed, hlen, hhead, hdrop]

theorem Entries.HeadOffered.listed (he : e.HeadOffered) : notListed e.filename = false :=
  constructFilename_listed (length_printInt04_atoi he.classRoll.1)
    (length_printInt04_atoi he.totList.1) he.sec

/-- A file with a row of its own has that row in the list of the editor. -/
theorem mem_editorLoadData {disk : Bytes → Option Bytes} {name content : Bytes} {row : Data}
    (hlisted : notListed name = false) (hdisk : disk (infodirname ++ name) = some content)
    (hrow : loadInfo content = .ok (some row)) {names : List Bytes} (hname : name ∈ names)
    {list : List Data} (h : editorLoadData infodirname disk names = .ok list) : row ∈ list := by
  induction names generalizing list with
  | nil => simp at hname
  | cons first names ih =>
    rcases List.mem_cons.mp hname with rfl | hname
    · simp only [editorLoadData, hlisted, hdisk, hrow, bind, Except.bind] at h
      cases hrest : editorLoadData infodirname disk names with
      | error err => simp [hrest] at h
      | ok rest =>
        obtain rfl : row :: rest = list := by simpa [hrest, pure, Except.pure] using h
        exact List.mem_cons_self
    · simp only [editorLoadData] at h
      split_ifs at h with hskip
      · exact ih hname h
      · cases hfile : disk (infodirname ++ first) with
        | none =>
          rw [hfile] at h
          exact ih hname h
        | some content' =>
          simp only [hfile, bind, Except.bind] at h
          cases hload : loadInfo content' with
          | error err => simp [hload] at h
          | ok row' =>
            cases hrest : editorLoadData infodirname disk names with
            | error err => simp [hload, hrest] at h
            | ok rest =>
              obtain rfl : row'.toList ++ rest = list := by
                simpa [hload, hrest, pure, Except.pure] using h
              exact List.mem_append_right _ (ih hname hrest)

/-- **The header goes round.** Every reader gives back the header of a form that is saved. -/
theorem header_round_trip (he : e.HeadOffered)
    (h : saveForm st infodirname e = some (path, lines)) : ReadBack infodirname e path lines := by
  obtain ⟨hs, hpath, photo, hcontent⟩ := saveForm_scannable he h
  have hline : cstr (fgets lines.flatten).1 = e.header.print e.studentName := by
    rw [hcontent, fgets_eq, hs.fgetsBuf_print (by decide), hs.cstr_print]
  have hload : loadInfo lines.flatten = .ok (some (e.header.row e.studentName)) :=
    hcontent ▸ loadInfo_print hs _
  refine ⟨?_, ?_, ?_, hload, ?_, ?_, hpath, ?_⟩
  · exact Nat.succ_le_of_lt (Nat.lt_of_le_of_lt hs.length_print (by decide))
  · rw [hcontent, hs.fgetsBuf_print (by decide)]
  · rw [hcontent, hs.fgetsBuf_print (by decide)]
  · rw [hline, scanHeader_print hs]
  · rw [hline, scanForm_print hs]
  · intro disk names list hdisk hname hlist
    rw [hpath] at hdisk
    exact mem_editorLoadData he.listed hdisk hload hname hlist

/-- **Marking a form.** The file of a form that was saved, with the flag set, has the same
bytes but for the flag; setting the flag again changes nothing. -/
theorem mark_sent_one_byte (he : e.HeadOffered)
    (h : saveForm st infodirname e = some (path, lines)) :
    ∃ rest, lines.flatten = e.header.front ++ 48 :: colon :: (e.studentName ++ newline :: rest) ∧
      ∀ garbage,
        markSent lines.flatten garbage =
          .ok (e.header.front ++ 49 :: colon :: (e.studentName ++ newline :: rest)) ∧
        markSent (e.header.front ++ 49 :: colon :: (e.studentName ++ newline :: rest)) garbage =
          .ok (e.header.front ++ 49 :: colon :: (e.studentName ++ newline :: rest)) := by
  obtain ⟨hs, -, photo, hcontent⟩ := saveForm_scannable he h
  have hmarked : ({ e.header with sent := 1 }.print e.studentName ++ e.tail photo) =
      e.header.front ++ 49 :: colon :: (e.studentName ++ newline :: e.tail photo) := by
    rw [hs.mark.print_eq]
    simp [Header.front, flagByte]
  refine ⟨e.tail photo, ?_, fun garbage => ⟨?_, ?_⟩⟩
  · rw [hcontent, hs.print_eq]
    simp [flagByte, Entries.header]
  · rw [hcontent, markSent_print hs, hmarked]
  · rw [← hmarked, markSent_print hs.mark]

end Saved

/-! ### A form of the home economics group -/

/-- The options of the program at its start, for the session 2005. -/
def homeEcoSettings : Settings where
  ignoreFaName := false
  ignoreMoName := false
  ignoreBirthdate := false
  ignoreTotlist := false
  ignorePrevYear := false
  ignorePrevRoll := false
  ignorePrevReg := false
  ignorePrevSess := false
  isSsc := false
  allSession := ascii "2005"
  codes filename :=
    if filename = ascii "sub_home_eco.txt" then some subHomeEco
    else if filename = ascii "sub_4th_home_eco.txt" then some subFourthHomeEco else none
  special := some []
  pairs := some pairsHomeEco

def homeEcoEntries : Entries where
  studentName := ascii "MST. A-B"
  fatherName := ascii "C"
  motherName := ascii "D"
  group := ascii "Home Economics"
  session := ascii "2005"
  board := ascii "Dhaka"
  classRoll := ascii "7"
  dayOfBirth := ascii "01"
  monthOfBirth := ascii "Jan"
  yearOfBirth := ascii "1988"
  totList := ascii "12"
  sec := ascii " "
  collegeCode := ascii "0001"
  collegeName := ascii "COLLEGE"
  previousBoard := ascii "Rajshahi"
  previousYear := ascii "2003"
  previousRoll := ascii "123456"
  previousReg := ascii "123456"
  previousSessStart := ascii "2001"
  previousSessEnd := ascii "2002"
  gender := ascii "Female"
  religion := ascii "Islam"
  subs i := plainForm.getD i []
  photo := none

theorem homeEcoEntries_headOffered : homeEcoEntries.HeadOffered :=
  ⟨by decide +kernel, by decide +kernel, by decide +kernel, by decide +kernel, by decide +kernel,
    by decide +kernel⟩

theorem homeEcoEntries_saved :
    saveForm homeEcoSettings (fixInfoPath (ascii "2005") (ascii "0001")) homeEcoEntries =
      some (fixInfoPath (ascii "2005") (ascii "0001") ++ homeEcoEntries.filename,
        formLines homeEcoEntries []) := by
  have hcheck : checkEntries homeEcoSettings homeEcoEntries = some E_NO_ERROR := by decide
  rw [saveForm, if_pos hcheck, verifyForm]
  rw [if_neg (by decide)]
  rfl

theorem header_round_trip_sample :
    ReadBack (fixInfoPath (ascii "2005") (ascii "0001")) homeEcoEntries
      (fixInfoPath (ascii "2005") (ascii "0001") ++ homeEcoEntries.filename)
      (formLines homeEcoEntries []) :=
  header_round_trip homeEcoEntries_headOffered homeEcoEntries_saved

theorem mark_sent_one_byte_sample :
    ∃ rest, (formLines homeEcoEntries []).flatten =
        homeEcoEntries.header.front ++
          48 :: colon :: (homeEcoEntries.studentName ++ newline :: rest) ∧
      ∀ garbage,
        markSent (formLines homeEcoEntries []).flatten garbage =
          .ok (homeEcoEntries.header.front ++
            49 :: colon :: (homeEcoEntries.studentName ++ newline :: rest)) ∧
        markSent (homeEcoEntries.header.front ++
            49 :: colon :: (homeEcoEntries.studentName ++ newline :: rest)) garbage =
          .ok (homeEcoEntries.header.front ++
            49 :: colon :: (homeEcoEntries.studentName ++ newline :: rest)) :=
  mark_sent_one_byte homeEcoEntries_headOffered homeEcoEntries_saved

end Esif.Client
