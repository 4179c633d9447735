import Esif.Posix.Padding
import Esif.Server.Record

/-!
# The dump of a record

`showdata` walks over a record by `strlen` and prints one line for it: each string is one line of
the form, told by its number, and what stands behind its label goes into a field.

## Main definitions

* `scanLabelled` — what stands behind a label
* `codeOf` — the chains of `strcasecmp`
* `showLine` — the `switch` over the number of the line
* `showdata` — the line of a record
* `showFrom` — what is printed from a line on
* `subColumns` — the columns of the strings from a subject on

## Main results

* `showFrom_cons` — one string
* `showFrom_recordOf` — a record that begins with some lines
* `RecordOf.eq_recordOf_strings` — a record is that of its strings
* `showFrom_strings` — the strings from the subjects on
-/

namespace Esif.Server

open Esif.CS Esif.Posix

/-- `sscanf(temp, "LABEL %[^\r\n]", buf)`, into the cleared `buf`; nothing when it overruns. -/
def scanLabelled (label temp : Bytes) : Option Bytes :=
  let buf :=
    if strncmp temp label then scanLine ((temp.drop label.length).dropWhile isspace) else []
  if MAXLINE ≤ buf.length then none else some buf

def tolower (b : UInt8) : UInt8 := if 65 ≤ b ∧ b ≤ 90 then b + 32 else b

/-- `!strcasecmp(s, lit)` -/
def strcasecmp (s lit : Bytes) : Bool := s.map tolower == lit.map tolower

/-- A chain of `strcasecmp`, with the code of a name that is in none of them. -/
def codeOf (names : List (Bytes × UInt8)) (unknown : UInt8) (buf : Bytes) : Bytes :=
  [((names.find? fun p => strcasecmp buf p.1).map Prod.snd).getD unknown]

def groupCodes : List (Bytes × UInt8) :=
  [(ascii "Science", 48), (ascii "Social Science", 49), (ascii "Arts", 50),
    (ascii "Commerce", 51), (ascii "Agriculture", 52), (ascii "Home Economics", 53),
    (ascii "Islamic Studies", 54), (ascii "Music", 55), (ascii "Business", 56)]

def boardCodes : List (Bytes × UInt8) :=
  [(ascii "Dhaka", 48), (ascii "Comilla", 49), (ascii "Rajshahi", 50), (ascii "Jessore", 51),
    (ascii "Chittagong", 52), (ascii "Barisal", 53), (ascii "Sylhet", 54)]

def sectionCodes : List (Bytes × UInt8) :=
  [(ascii "A", 49), (ascii "B", 50), (ascii "C", 51), (ascii "D", 52), (ascii "E", 53),
    (ascii "F", 54)]

/-- The board of the examination before can be one of three more. -/
def previousBoardCodes : List (Bytes × UInt8) :=
  boardCodes ++ [(ascii "Madrasa", 55), (ascii "Technical", 56), (ascii "Others", 57)]

def genderCodes : List (Bytes × UInt8) := [(ascii "Male", 48), (ascii "Female", 49)]

def religionCodes : List (Bytes × UInt8) :=
  [(ascii "Islam", 48), (ascii "Hindu", 49), (ascii "Buddist", 50), (ascii "Christian", 51),
    (ascii "Others", 52)]

/-- The `switch (line)` of `showdata`: what is printed for the string. -/
def showLine (line code : ℕ) (temp : Bytes) : Option Bytes :=
  match line with
  | 1 => some []
  | 2 => some []
  | 3 => (scanLabelled (ascii "STUDENTS_NAME") temp).map (printLeft 40)
  | 4 => (scanLabelled (ascii "FATHERS_NAME") temp).map (printLeft 40)
  | 5 => (scanLabelled (ascii "MOTHERS_NAME") temp).map (printLeft 40)
  | 6 => (scanLabelled (ascii "GROUP") temp).map (codeOf groupCodes blank)
  | 7 => (scanLabelled (ascii "SESSION") temp).map (printLeft 4)
  | 8 => (scanLabelled (ascii "BOARD") temp).map (codeOf boardCodes blank)
  | 9 => (scanLabelled (ascii "CLASS_ROLL") temp).map (printLeft 4)
  | 10 => (scanLabelled (ascii "BIRTHDATE") temp).map (printRight 11)
  | 11 => (scanLabelled (ascii "TOT_LIST") temp).map (printLeft 4)
  -- no section is the code 0
  | 12 => (scanLabelled (ascii "SECTION") temp).map (codeOf sectionCodes 48)
  | 13 => (scanLabelled (ascii "INSTITUTE_CODE") temp).map (printLeft 4)
  | 14 => (scanLabelled (ascii "INSTITUTE_NAME") temp).map (printLeft 70)
  | 15 => (scanLabelled (ascii "PREVIOUS_BOARD") temp).map (codeOf previousBoardCodes blank)
  | 16 => (scanLabelled (ascii "PREVIOUS_YEAR") temp).map (printLeft 4)
  -- these two have no width
  | 17 => (scanLabelled (ascii "PREVIOUS_ROLL") temp).map id
  | 18 => (scanLabelled (ascii "PREVIOUS_REG") temp).map id
  | 19 => (scanLabelled (ascii "PREVIOUS_SESSION") temp).map (printRight 9)
  | 20 => (scanLabelled (ascii "GENDER") temp).map (codeOf genderCodes blank)
  | 21 => (scanLabelled (ascii "RELIGION") temp).map (codeOf religionCodes blank)
  | _ => (scanLabelled (ascii "SUB_" ++ (decimal code).leftpad 2 48) temp).map (printLeft 3)

/-- The loop of `showdata` at `temp`, with `line` strings and `code` subjects done, and the line
end behind it. -/
def showLoop (len totlen line code : ℕ) (temp : Bytes) : Option Bytes :=
  if totlen < len then
    -- `strlen` would read on behind the record
    if nul ∉ temp then none
    else
      let i := (cstr temp).length + 1
      -- the default case counts
      let code := if line + 1 ≤ 21 then code else code + 1
      (showLine (line + 1) code (cstr temp)).bind fun printed =>
        (showLoop len (totlen + i) (line + 1) code (temp.drop i)).map (printed ++ ·)
  else some [carriageReturn, newline]
termination_by len - totlen

/-- `showdata(data, len)` -/
def showdata (data : Bytes) (len : ℕ) : Option Bytes := showLoop len 0 0 0 data

/-! ### Line by line -/

/-- What is printed for a string behind `line` others. -/
def showString (line : ℕ) (temp : Bytes) : Option Bytes :=
  showLine (line + 1) (line + 1 - 21) temp

/-- What is printed from a place on, behind `line` strings. -/
def showFrom (line : ℕ) (temp : Bytes) : Option Bytes :=
  showLoop temp.length 0 line (line - 21) temp

section Walk

variable {len totlen line code k : ℕ} {temp s : Bytes} {lines printed : List Bytes}

theorem showLoop_stop (h : len ≤ totlen) :
    showLoop len totlen line code temp = some [carriageReturn, newline] := by
  rw [showLoop, if_neg (Nat.not_lt.mpr h)]

/-- Only the bytes that are left count. -/
theorem showLoop_add (k len totlen line code : ℕ) (temp : Bytes) :
    showLoop (k + len) (k + totlen) line code temp = showLoop len totlen line code temp := by
  fun_induction showLoop len totlen line code temp with
  | case1 totlen line code temp hlt hnul =>
    rw [showLoop, if_pos (by omega), if_pos hnul]
  | case2 totlen line code temp hlt hnul i code' ih =>
    have hrest : showLoop (k + len) (k + totlen + i) (line + 1) code' (temp.drop i) =
        showLoop len (totlen + i) (line + 1) code' (temp.drop i) := by
      rw [Nat.add_assoc]
      exact ih
    rw [showLoop, if_pos (by omega), if_neg hnul]
    change ((showLine (line + 1) code' (cstr temp)).bind fun printed =>
      (showLoop (k + len) (k + totlen + i) (line + 1) code' (temp.drop i)).map (printed ++ ·)) = _
    rw [hrest]
  | case3 totlen line code temp hge =>
    rw [showLoop, if_neg (by omega)]

theorem showFrom_nil (line : ℕ) : showFrom line [] = some [carriageReturn, newline] :=
  showLoop_stop (Nat.zero_le 0)

theorem showdata_eq (data : Bytes) : showdata data data.length = showFrom 0 data := rfl

/-- One string, and the rest. -/
theorem showFrom_cons (hs : nul ∉ s) (rest : Bytes) (line : ℕ) :
    showFrom line (s ++ nul :: rest) = (showString line s).bind fun p =>
      (showFrom (line + 1) rest).map (p ++ ·) := by
  have hstring : cstr (s ++ nul :: rest) = s := by rw [cstr_append_nul, cstr_eq_self hs]
  have hdrop : (s ++ nul :: rest).drop (s.length + 1) = rest := by
    rw [← List.drop_drop, List.drop_left]
    rfl
  have hcode : (if line + 1 ≤ 21 then line - 21 else line - 21 + 1) = line + 1 - 21 := by
    split <;> omega
  have hlen : (s ++ nul :: rest).length = s.length + 1 + rest.length := by
    rw [List.length_append, List.length_cons]
    omega
  rw [showFrom, showLoop, if_pos (by omega), if_neg (by simp), hstring]
  simp only [hdrop, hcode, hlen, Nat.zero_add]
  refine congrArg _ ?_
  funext p
  exact congrArg _ (showLoop_add (s.length + 1) rest.length 0 _ _ _)

/-- A record that begins with some lines: what is printed for each, and for the rest. -/
theorem showFrom_recordOf (hlines : ∀ l ∈ lines, nul ∉ l) (line : ℕ)
    (h : List.Forall₂ (fun l p => showString l.2 l.1 = some p) (lines.zipIdx line) printed)
    (rest : Bytes) : showFrom line (recordOf lines ++ rest) =
      (showFrom (line + lines.length) rest).map (printed.flatten ++ ·) := by
  induction lines generalizing line printed with
  | nil =>
    cases h
    simp [recordOf]
  | cons l lines ih =>
    cases h with
    | cons hhead htail =>
      obtain ⟨hl, hlines⟩ := List.forall_mem_cons.mp hlines
      have hrecord : recordOf (l :: lines) ++ rest = l ++ nul :: (recordOf lines ++ rest) := by
        simp [recordOf]
      have hcount : line + (l :: lines).length = line + 1 + lines.length := by
        rw [List.length_cons]
        omega
      rw [hrecord, showFrom_cons hl, hhead, ih hlines (line + 1) htail, hcount]
      simp [Option.map_map, Function.comp_def]

end Walk

/-! ### Behind the subjects -/

/-- A string is short enough for the array behind every label. -/
def ShortString (s : Bytes) : Prop := nul ∉ s ∧ s.length ≤ MAXLINE

section Strings

variable {lines closed : List Bytes} {record rest line : Bytes}

/-- A text with its NUL is the record of its strings. -/
theorem recordOf_strings (u : Bytes) : recordOf (strings (u ++ [nul])) = u ++ [nul] ∧
    ∀ s ∈ strings (u ++ [nul]), nul ∉ s ∧ s.length ≤ u.length := by
  induction u with
  | nil => exact ⟨rfl, by simp [strings]⟩
  | cons b u ih =>
    obtain ⟨hrecord, hstrings⟩ := ih
    rw [List.cons_append, strings]
    by_cases hb : b = nul
    · rw [if_pos hb, hb]
      refine ⟨congrArg (nul :: ·) hrecord, List.forall_mem_cons.mpr ⟨by simp, fun s hs => ?_⟩⟩
      exact ⟨(hstrings s hs).1, (hstrings s hs).2.trans (Nat.le_succ _)⟩
    · rw [if_neg hb]
      cases hall : strings (u ++ [nul]) with
      | nil =>
        rw [hall] at hrecord
        simp [recordOf] at hrecord
      | cons string strs =>
        rw [hall] at hrecord hstrings
        obtain ⟨⟨hnul, hlen⟩, hrest⟩ := List.forall_mem_cons.mp hstrings
        refine ⟨congrArg (b :: ·) hrecord, List.forall_mem_cons.mpr ⟨⟨?_, ?_⟩, fun s hs => ?_⟩⟩
        · exact fun hmem => (List.mem_cons.mp hmem).elim (fun h => hb h.symm) hnul
        · exact Nat.succ_le_succ hlen
        · exact ⟨(hrest s hs).1, (hrest s hs).2.trans (Nat.le_succ _)⟩

/-- One more line behind a record and the byte past a cut. -/
theorem exists_recordOf (hclosed : ∀ s ∈ closed, ShortString s)
    (hrest : rest.length ≤ 1) (hline : line.length < MAXLINE) :
    ∃ closed', recordOf closed ++ rest ++ (line ++ [nul]) = recordOf closed' ∧
      ∀ s ∈ closed', ShortString s := by
  have hlen : (rest ++ line).length ≤ MAXLINE := by
    rw [List.length_append]
    omega
  obtain ⟨hrecord, hstrings⟩ := recordOf_strings (rest ++ line)
  refine ⟨closed ++ strings (rest ++ line ++ [nul]), ?_, List.forall_mem_append.mpr
    ⟨hclosed, fun s hs => ⟨(hstrings s hs).1, (hstrings s hs).2.trans hlen⟩⟩⟩
  have happend : recordOf (closed ++ strings (rest ++ line ++ [nul])) =
      recordOf closed ++ recordOf (strings (rest ++ line ++ [nul])) := by simp [recordOf]
  rw [happend, hrecord]
  simp

/-- A record is strings that are short, and at most one byte behind them. -/
theorem RecordOf.exists_strings (h : RecordOf lines record)
    (hlines : ∀ line ∈ lines, line.length < MAXLINE) :
    ∃ closed rest, record = Server.recordOf closed ++ rest ∧ (∀ s ∈ closed, ShortString s) ∧
      rest.length ≤ 1 := by
  induction h with
  | nil => exact ⟨[], [], rfl, by simp, Nat.zero_le 1⟩
  | @whole lines record line _ _ ih =>
    obtain ⟨hinit, hline⟩ := List.forall_mem_append.mp hlines
    obtain ⟨closed, rest, rfl, hclosed, hrest⟩ := ih hinit
    obtain ⟨closed', heq, hclosed'⟩ :=
      exists_recordOf hclosed hrest (hline line (List.mem_singleton_self line))
    exact ⟨closed', [], by rw [heq, List.append_nil], hclosed', Nat.zero_le 1⟩
  | @cut lines record line past _ _ ih =>
    obtain ⟨hinit, hline⟩ := List.forall_mem_append.mp hlines
    obtain ⟨closed, rest, rfl, hclosed, hrest⟩ := ih hinit
    obtain ⟨closed', heq, hclosed'⟩ :=
      exists_recordOf hclosed hrest (hline line (List.mem_singleton_self line))
    refine ⟨closed', [past], ?_, hclosed', le_rfl⟩
    rw [← heq]
    simp

/-- A record whose last line is whole is the record of its strings. -/
theorem RecordOf.eq_recordOf_strings (h : RecordOf (lines ++ [line]) record)
    (hends : endsLine line = true) (hlines : ∀ l ∈ lines ++ [line], l.length < MAXLINE) :
    record = Server.recordOf (strings record) ∧ ∀ s ∈ strings record, ShortString s := by
  obtain ⟨before, h', -, rfl⟩ | ⟨before, past, -, hcut, -⟩ := h.concat_cases
  · obtain ⟨hinit, hline⟩ := List.forall_mem_append.mp hlines
    obtain ⟨closed, rest, rfl, hclosed, hrest⟩ := h'.exists_strings hinit
    obtain ⟨closed', heq, hclosed'⟩ :=
      exists_recordOf hclosed hrest (hline line (List.mem_singleton_self line))
    have hstrings : strings (Server.recordOf closed') = closed' :=
      strings_recordOf fun s hs => (hclosed' s hs).1
    rw [heq, hstrings]
    exact ⟨rfl, hclosed'⟩
  · rw [hends] at hcut
    cases hcut

end Strings

/-- What stands behind a label, up to the end of the line. -/
def behindLabel (label s : Bytes) : Bytes :=
  if strncmp s label then scanLine ((s.drop label.length).dropWhile isspace) else []

/-- The label of a subject. -/
def subLabel (code : ℕ) : Bytes := ascii "SUB_" ++ (decimal code).leftpad 2 48

/-- The columns of the strings from the subject `code` on: blanks, where the label of the subject
is not in front. -/
def subColumns (code : ℕ) (strs : List Bytes) : Bytes :=
  (strs.zipIdx code).flatMap fun p => printLeft 3 (behindLabel (subLabel p.2) p.1)

section Later

variable {label s : Bytes} {strs : List Bytes} {line code : ℕ}

theorem scanLabelled_of_short (hs : ShortString s) (hlabel : label ≠ []) :
    scanLabelled label s = some (behindLabel label s) := by
  have hlen : ¬ MAXLINE ≤ (behindLabel label s).length := by
    have hpos := List.length_pos_of_ne_nil hlabel
    have hshort := hs.2
    unfold behindLabel
    split
    · next hprefix =>
      have hle : (scanLine ((s.drop label.length).dropWhile isspace)).length ≤
          (s.drop label.length).length :=
        ((List.takeWhile_sublist _).length_le).trans (List.dropWhile_sublist _).length_le
      have hlabel := (List.isPrefixOf_iff_prefix.mp hprefix).length_le
      rw [List.length_drop] at hle
      omega
    · simp [MAXLINE]
  exact if_neg hlen

/-- The default case of the `switch`. -/
theorem showString_default (hline : 21 ≤ line) (temp : Bytes) :
    showString line temp = (scanLabelled (subLabel (line + 1 - 21)) temp).map (printLeft 3) := by
  have hdefault : ∀ line code, 22 ≤ line → showLine line code temp =
      (scanLabelled (subLabel code) temp).map (printLeft 3) := by
    intro line code hline
    unfold showLine
    split
    all_goals first | omega | rfl
  exact hdefault _ _ (Nat.succ_le_succ hline)

/-- What the strings behind the first 20 lines print. -/
theorem showFrom_strings (hstrs : ∀ s ∈ strs, ShortString s) (hcode : 1 ≤ code) :
    showFrom (20 + code) (recordOf strs) =
      some (subColumns code strs ++ [carriageReturn, newline]) := by
  induction strs generalizing code with
  | nil => exact showFrom_nil _
  | cons s strs ih =>
    obtain ⟨hs, hstrs⟩ := List.forall_mem_cons.mp hstrs
    have hrecord : recordOf (s :: strs) = s ++ nul :: recordOf strs := by simp [recordOf]
    have hnumber : 20 + code + 1 - 21 = code := by omega
    have hlabel : subLabel code ≠ [] := by simp [subLabel, ascii]
    rw [hrecord, showFrom_cons hs.1, showString_default (by omega), hnumber,
      scanLabelled_of_short hs hlabel, Nat.add_assoc, ih hstrs (Nat.le_add_left 1 code)]
    simp [subColumns]

end Later

end Esif.Server
