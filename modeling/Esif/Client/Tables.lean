import Esif.CS.Pieces
import Esif.CS.Table
import Esif.Posix.Scan
import Esif.Client.Header
import Esif.Client.Subjects

/-!
# The tables of the configuration files

The files with the names of subjects and of institutions are read with `fscanf`, whose `%d`
passes over line ends and whose `%[` leaves the array alone when there is nothing in front of
the line end. The file with the pairs is read with `fgets` into an array of 60 bytes.

## Main definitions

* `loadNames` — the loop over a file of names
* `createSubHashTable`, `createColHashTable`, `createPairHashTable` — the loaders
* `NamesByLine`, `PairByLine` — the table is that of the lines of the file
* `Regular`, `Undivided` — the files, and the lines of the pair file, for which it is

## Main results

* `loadNames_iff` — the loop, line by line
* `pairTrace_iff` — the buffers of the pair file
* `tables_by_line_iff` — the three loaders
-/

namespace Esif.Client

open Esif.CS Esif.Posix

/-! ### The files of names -/

/-- What `fscanf` finds: the code, the bytes `%[^\r\n]` stores, none when it fails, and what is
left of the file. -/
structure Scanned where
  code : ℤ
  text : Bytes
  rest : Bytes
  deriving DecidableEq

/-- `"%d%[^\r\n]"`, and with `skips` `"%d %[^\r\n]"`. -/
def scanEntry (skips : Bool) (s : Bytes) : Option Scanned :=
  (scanInt s).map fun (code, s) =>
    let s := if skips then s.dropWhile isspace else s
    ⟨code, scanLine s, s.drop (scanLine s).length⟩

/-- What one call of `fscanf` puts into the table, with its result. -/
structure NameEntry where
  items : ℕ
  code : ℤ
  name : Bytes

theorem scanEntry_rest_lt {skips : Bool} {s : Bytes} {e : Scanned}
    (h : scanEntry skips s = some e) : e.rest.length < s.length := by
  obtain ⟨⟨code, r⟩, hscan, rfl⟩ := Option.map_eq_some_iff.mp h
  have hlt := (scanInt_suffix hscan).2
  have hle := (List.dropWhile_suffix (l := r) isspace).length_le
  dsimp only
  rw [List.length_drop]
  split <;> omega

/-- `while (fscanf(fp, …, &code, name) > 0)`, with `name` an array of `size` bytes; nothing when
what `%[` finds does not fit into it. -/
def loadNames (skips : Bool) (size : ℕ) (name s : Bytes) : Option (List NameEntry) :=
  match _h : scanEntry skips s with
  | none => some []
  | some e =>
    if size ≤ e.text.length then none
    -- without a match of `%[` the array keeps what it holds
    else
      let name := if e.text = [] then name else e.text
      (loadNames skips size name e.rest).map
        (⟨if e.text = [] then 1 else 2, e.code, cstr name⟩ :: ·)
termination_by s.length
decreasing_by exact scanEntry_rest_lt _h

/-- What the table has under a code. -/
def NameEntry.pair (e : NameEntry) : ℤ × Bytes := (e.code, e.name)

/-- `subhtable`, `colhtable` -/
abbrev NameTable := ℤ → Option Bytes

/-- A loader of names; nothing when the array is overrun. -/
def createNames (skips : Bool) (size : ℕ) (htable : Option NameTable) (filename : Bytes)
    (disk : Bytes → Option Bytes) : Option (Option NameTable) :=
  match htable with
  | some table => some (some table)
  | none =>
    if filename = [] then some none
    else
      match disk filename with
      | none => some none
      | some file =>
        (loadNames skips size [] file).map fun entries =>
          some (Table.fill (fun _ => none) (entries.map NameEntry.pair))

/-- `create_sub_hash_table(filename)` -/
def createSubHashTable : Option NameTable → Bytes → (Bytes → Option Bytes) →
    Option (Option NameTable) := createNames false 40

/-- `create_col_hash_table(filename)` -/
def createColHashTable : Option NameTable → Bytes → (Bytes → Option Bytes) →
    Option (Option NameTable) := createNames true 71

/-! ### The file of pairs -/

/-- `"%d%d…"`, at most `n` conversions. -/
def scanInts : ℕ → Bytes → List ℤ
  | 0, _ => []
  | n + 1, s =>
    match scanInt s with
    | none => []
    | some (z, rest) => z :: scanInts n rest

/-- The numbers `sscanf` finds in the buffer: the key and nine values at most. -/
def numbers (buffer : Bytes) : List ℤ := scanInts 10 (cstr buffer)

/-- Two numbers or more are a key with its values. -/
def keyed : List ℤ → Option (ℤ × List ℤ)
  | key :: value :: values => some (key, value :: values)
  | _ => none

/-- What a buffer adds to the table. -/
def pairEntry (buffer : Bytes) : Option (ℤ × List ℤ) := keyed (numbers buffer)

/-- The size of `buffer`. -/
def PAIRBUFSIZE : ℕ := 60

/-- The buffers of `while (fgets(buffer, sizeof(buffer), fp))`. -/
def fgetsAll (size : ℕ) (file : Bytes) : List Bytes := Lines.allPieces isNewline (size - 1) file

theorem fgetsAll_eq (size : ℕ) (file : Bytes) : fgetsAll size file =
    if (fgetsBuf size file).1 = [] then []
    else (fgetsBuf size file).1 :: fgetsAll size (fgetsBuf size file).2 := by
  rw [fgetsAll, Lines.allPieces]
  rfl

/-- `create_pair_hash_table(filename)` -/
def createPairHashTable (pairhtable : Option PairTable) (filename : Bytes)
    (disk : Bytes → Option Bytes) : Option PairTable :=
  match pairhtable with
  | some table => some table
  | none =>
    if filename = [] then none
    else
      match disk filename with
      | none => none
      | some file =>
        let entries := (fgetsAll PAIRBUFSIZE file).filterMap pairEntry
        some fun code => (Table.fill (fun _ => none) entries code).getD []

/-- What is added to the table, with the number of the line that is read. -/
def pairTrace (file : Bytes) : List (ℕ × ℤ × List ℤ) :=
  (Lines.numbered isNewline 0 (fgetsAll PAIRBUFSIZE file)).filterMap fun p =>
    (pairEntry p.2).map (p.1, ·)

/-! ### Line by line -/

/-- `'\r'` and `'\n'` end a line of names. -/
def isBreak (b : UInt8) : Bool := b == carriageReturn || b == newline

/-- The lines of a file of names. -/
def nameLines (file : Bytes) : List Bytes := Lines.lines isBreak file

/-- The entry of a line: what the format finds in it, and no name when it finds none. -/
def lineEntry (skips : Bool) (line : Bytes) : Option NameEntry :=
  (scanEntry skips line).map fun e => ⟨if e.text = [] then 1 else 2, e.code, cstr e.text⟩

/-- What `fscanf` reads, but for the name: its result and the code. -/
def NameEntry.head (e : NameEntry) : ℕ × ℤ := (e.items, e.code)

/-- The calls read the lines, one each, and each code has the name that is last in the lines. -/
def SameEntries (entries own : List NameEntry) : Prop :=
  entries.map NameEntry.head = own.map NameEntry.head ∧
    ∀ code, Table.last (entries.map NameEntry.pair) code = Table.last (own.map NameEntry.pair) code

/-- The file of names is read line by line: no name overruns its array, each line with a code is
read by a call of its own, and the table has the name in the last line of each code. -/
def NamesByLine
    (create : Option NameTable → Bytes → (Bytes → Option Bytes) → Option (Option NameTable))
    (skips : Bool) (size : ℕ) (filename : Bytes) (disk : Bytes → Option Bytes) (file : Bytes) :
    Prop :=
  ∃ entries table, loadNames skips size [] file = some entries ∧
    create none filename disk = some (some table) ∧
    entries.map NameEntry.head =
      ((nameLines file).filterMap (lineEntry skips)).map NameEntry.head ∧
    ∀ code, table code =
      Table.last (((nameLines file).filterMap (lineEntry skips)).map NameEntry.pair) code

/-- The file of pairs is read line by line: each line adds its own entry, and the table has the
values in the last line of each code. -/
def PairByLine (filename : Bytes) (disk : Bytes → Option Bytes) (file : Bytes) : Prop :=
  ∃ table, createPairHashTable none filename disk = some table ∧
    pairTrace file = (Lines.lines isNewline file).zipIdx.filterMap (fun l =>
      (pairEntry l.1).map (l.2, ·)) ∧
    ∀ code, table code =
      (Table.last ((Lines.lines isNewline file).filterMap pairEntry) code).getD []

/-! ### Regular files -/

/-- More than blanks, and no code in front. -/
def Malformed (line : Bytes) : Prop := ¬ Blank line ∧ scanInt line = none

/-- The name in the array behind a line. -/
def nameBehind (skips : Bool) (name line : Bytes) : Bytes :=
  match scanEntry skips line with
  | none => name
  | some e => if e.text = [] then name else e.text

/-- The line has this code. -/
def HasCode (code : ℤ) (line : Bytes) : Prop := ∃ rest, scanInt line = some (code, rest)

/-- The loop may read the lines, with `name` in the array. -/
structure Regular (skips : Bool) (size : ℕ) (name : Bytes) (lines : List Bytes) : Prop where
  /-- No code is behind a malformed line. -/
  formed : lines.Pairwise fun line later => Malformed line → scanInt later = none
  /-- Every name fits. -/
  fits : ∀ line ∈ lines, ∀ e, scanEntry skips line = some e → e.text.length < size
  /-- Where the blanks are skipped, a code without a name is in the last line that is not blank. -/
  alone : skips = true → lines.Pairwise fun line later =>
    ∀ e, scanEntry skips line = some e → e.text = [] → Blank later
  /-- The name in front of a code without a name is empty, or the code is there again. -/
  cleared : ∀ before line after, lines = before ++ line :: after →
    ∀ e, scanEntry skips line = some e → e.text = [] →
      cstr (before.foldl (nameBehind skips) name) = [] ∨ ∃ later ∈ after, HasCode e.code later

/-- The buffers of a line: those that begin with two numbers or more are one, with the numbers
that the whole line begins with, where it begins with so many. -/
def Undivided (line : Bytes) : Prop :=
  ((fgetsAll PAIRBUFSIZE line).map numbers).filter (2 ≤ ·.length) =
    [numbers line].filter (2 ≤ ·.length)

/-! ### The loop, line by line -/

section Names

variable {skips : Bool} {size : ℕ} {name s l body r t : Bytes} {ls : List Bytes} {e : Scanned}
  {code : ℤ} {entries own : List NameEntry} {loaded : Option (List NameEntry)}

theorem loadNames_of_none (h : scanEntry skips s = none) :
    loadNames skips size name s = some [] := by
  rw [loadNames]
  split
  · rfl
  · next hsome => simp [h] at hsome

theorem loadNames_of_some (h : scanEntry skips s = some e) :
    loadNames skips size name s =
      if size ≤ e.text.length then none
      else (loadNames skips size (if e.text = [] then name else e.text) e.rest).map
        (⟨if e.text = [] then 1 else 2, e.code, cstr (if e.text = [] then name else e.text)⟩
          :: ·) := by
  rw [loadNames]
  split
  · next hnone => simp [h] at hnone
  · next e' hsome =>
    obtain rfl : e = e' := Option.some.inj (h.symm.trans hsome)
    rfl

theorem scanEntry_blank_append (h : Blank l) (s : Bytes) :
    scanEntry skips (l ++ s) = scanEntry skips s := by
  rw [scanEntry, scanEntry, scanInt_blank_append h]

theorem loadNames_blank_append (h : Blank l) (s : Bytes) :
    loadNames skips size name (l ++ s) = loadNames skips size name s := by
  have hscan := @scanEntry_blank_append skips l h s
  cases hs : scanEntry skips s with
  | none => rw [loadNames_of_none hs, loadNames_of_none (hscan.trans hs)]
  | some e => rw [loadNames_of_some hs, loadNames_of_some (hscan.trans hs)]

theorem scanEntry_of_blank (h : Blank l) : scanEntry skips l = none := by
  rw [scanEntry, h.scanInt_eq]
  rfl

/-- What may follow the bytes of a line: nothing, or its end. -/
def AtBreak (t : Bytes) : Prop := ∀ b ∈ t.head?, isBreak b = true

theorem isspace_of_isBreak {b : UInt8} (h : isBreak b = true) : isspace b = true := by
  rcases Bool.or_eq_true_iff.mp h with h | h
  · rw [eq_of_beq h]
    decide
  · rw [eq_of_beq h]
    decide

theorem isdigit_of_isBreak {b : UInt8} (h : isBreak b = true) : isdigit b = false := by
  rcases Bool.or_eq_true_iff.mp h with h | h
  · rw [eq_of_beq h]
    decide
  · rw [eq_of_beq h]
    decide

theorem AtBreak.scanInt_append (ht : AtBreak t) (h : ¬ Blank body) :
    scanInt (body ++ t) = (scanInt body).map fun (z, left) => (z, left ++ t) := by
  cases t with
  | nil => simp
  | cons b t => exact Posix.scanInt_append h (isdigit_of_isBreak (ht b rfl)) t

theorem AtBreak.take_one (ht : AtBreak t) : AtBreak (t.take 1) := by
  cases t with
  | nil => exact ht
  | cons b t => exact ht

theorem AtBreak.blank_take_one (ht : AtBreak t) : Blank (t.take 1) := by
  cases t with
  | nil => exact fun b hb => by cases hb
  | cons b t =>
    intro c hc
    obtain rfl : c = b := by simpa using hc
    exact isspace_of_isBreak (ht c rfl)

theorem AtBreak.scanLine_append (ht : AtBreak t) (h : ∀ b ∈ r, isBreak b = false) :
    scanLine (r ++ t) = r := by
  have hall : ∀ b ∈ r, (b != carriageReturn && b != newline) = true := fun b hb => by
    have := h b hb
    simp only [isBreak, Bool.or_eq_false_iff] at this
    simp [bne, this]
  rw [scanLine, List.takeWhile_append_of_pos hall]
  cases t with
  | nil => simp
  | cons b t =>
    rw [List.takeWhile_cons_of_neg, List.append_nil]
    have := ht b rfl
    simp only [isBreak, Bool.or_eq_true_iff] at this
    rcases this with h | h
    · simp [eq_of_beq h]
    · simp [eq_of_beq h, newline, carriageReturn]

/-- The bytes of a line behind its code are its name. -/
theorem AtBreak.scanEntry_append (ht : AtBreak t) (hbody : ∀ b ∈ body, isBreak b = false)
    (hblank : ¬ Blank body) (hscan : scanInt body = some (code, r))
    (hname : skips = true → ¬ Blank r) :
    scanEntry skips (body ++ t) =
      some ⟨code, if skips = true then r.dropWhile isspace else r, t⟩ := by
  have hr : ∀ b ∈ r, isBreak b = false := fun b hb => hbody b ((scanInt_suffix hscan).1.mem hb)
  rw [scanEntry, ht.scanInt_append hblank, hscan]
  cases skips with
  | false =>
    simp only [Option.map_some, Bool.false_eq_true, if_false, ht.scanLine_append hr,
      List.drop_left]
  | true =>
    have hdrop : ∀ b ∈ r.dropWhile isspace, isBreak b = false := fun b hb =>
      hr b ((List.dropWhile_suffix isspace).mem hb)
    simp only [Option.map_some, if_true, dropWhile_isspace_append (hname rfl),
      ht.scanLine_append hdrop, List.drop_left]

/-- Without a name in the line, the one in the next line that is not blank is taken. -/
theorem AtBreak.scanEntry_nameless (ht : AtBreak t) (hblank : ¬ Blank body)
    (hscan : scanInt body = some (code, r)) (hname : Blank r) :
    scanEntry true (body ++ t) =
      some ⟨code, scanLine (t.dropWhile isspace),
        (t.dropWhile isspace).drop (scanLine (t.dropWhile isspace)).length⟩ := by
  rw [scanEntry, ht.scanInt_append hblank, hscan]
  simp only [Option.map_some, if_true, hname.dropWhile_append]

theorem scanLine_ne_nil (h : ¬ Blank t) : scanLine (t.dropWhile isspace) ≠ [] := by
  have hne : t.dropWhile isspace ≠ [] := fun hnil => h (List.dropWhile_eq_nil_iff.mp hnil)
  obtain ⟨c, r, hcons⟩ := List.exists_cons_of_ne_nil hne
  have hc : isspace c = false := by
    have := List.head?_dropWhile_not isspace t
    rw [hcons] at this
    simpa using this
  have hcr : c ≠ carriageReturn := fun h => by
    rw [h] at hc
    exact absurd hc (by decide)
  have hnl : c ≠ newline := fun h => by
    rw [h] at hc
    exact absurd hc (by decide)
  rw [hcons, scanLine, List.takeWhile_cons_of_pos (by simp [hcr, hnl])]
  exact List.cons_ne_nil _ _

/-! What is read is compared with the entries of the lines from the front. -/

/-- No overrun, and the entries that are wanted. -/
def Loaded (loaded : Option (List NameEntry)) (own : List NameEntry) : Prop :=
  ∃ entries, loaded = some entries ∧ SameEntries entries own

theorem not_loaded_none : ¬ Loaded none own := fun ⟨_, h, _⟩ => nomatch h

theorem loaded_nil_iff : Loaded (some []) own ↔ own = [] := by
  constructor
  · rintro ⟨entries, h, hsame, -⟩
    obtain rfl := Option.some.inj h
    exact List.map_eq_nil_iff.mp hsame.symm
  · rintro rfl
    exact ⟨[], rfl, rfl, fun _ => rfl⟩

theorem loaded_cons_iff {x y : NameEntry} :
    Loaded (loaded.map (x :: ·)) (y :: own) ↔
      x.head = y.head ∧ (x.name = y.name ∨ x.code ∈ own.map NameEntry.code) ∧
        Loaded loaded own := by
  have hkeys : ∀ es : List NameEntry,
      (es.map NameEntry.pair).map Prod.fst = es.map NameEntry.code := fun es => by
    rw [List.map_map]
    rfl
  have hcodes : ∀ es es' : List NameEntry, es.map NameEntry.head = es'.map NameEntry.head →
      (es.map NameEntry.pair).map Prod.fst = (es'.map NameEntry.pair).map Prod.fst :=
    fun es es' h => by
      have hsnd := congrArg (List.map Prod.snd) h
      rw [List.map_map, List.map_map] at hsnd
      rw [hkeys, hkeys]
      exact hsnd
  have hsame : ∀ es, SameEntries (x :: es) (y :: own) ↔
      x.head = y.head ∧ (x.name = y.name ∨ x.code ∈ own.map NameEntry.code) ∧
        SameEntries es own := fun es => by
    simp only [SameEntries, List.map_cons, List.cons.injEq, and_assoc]
    constructor
    · rintro ⟨hhead, htail, hlast⟩
      have hcode : x.code = y.code := congrArg Prod.snd hhead
      simp only [NameEntry.pair, hcode] at hlast
      obtain ⟨hname, hrest⟩ := (Table.last_congr_cons (hcodes es own htail)).mp hlast
      rw [hkeys] at hname
      exact ⟨hhead, hcode ▸ hname, htail, hrest⟩
    · rintro ⟨hhead, hname, htail, hrest⟩
      have hcode : x.code = y.code := congrArg Prod.snd hhead
      refine ⟨hhead, htail, ?_⟩
      simp only [NameEntry.pair, hcode]
      refine (Table.last_congr_cons (hcodes es own htail)).mpr ⟨?_, hrest⟩
      rw [hkeys]
      exact hcode ▸ hname
  constructor
  · rintro ⟨entries, h, hentries⟩
    obtain ⟨es, rfl, rfl⟩ := Option.map_eq_some_iff.mp h
    obtain ⟨hhead, hname, hrest⟩ := (hsame es).mp hentries
    exact ⟨hhead, hname, es, rfl, hrest⟩
  · rintro ⟨hhead, hname, es, rfl, hrest⟩
    exact ⟨x :: es, rfl, (hsame es).mpr ⟨hhead, hname, hrest⟩⟩

/-! The conditions on the lines, from the front. -/

theorem regular_cons_iff : Regular skips size name (l :: ls) ↔
    (Malformed l → ∀ later ∈ ls, scanInt later = none) ∧
      (∀ e, scanEntry skips l = some e → e.text.length < size ∧
        (e.text = [] → (skips = true → ∀ later ∈ ls, Blank later) ∧
          (cstr name = [] ∨ ∃ later ∈ ls, HasCode e.code later))) ∧
      Regular skips size (nameBehind skips name l) ls := by
  constructor
  · intro h
    obtain ⟨hformed, hformed'⟩ := List.pairwise_cons.mp h.formed
    obtain ⟨hfits, hfits'⟩ := List.forall_mem_cons.mp h.fits
    refine ⟨fun hmal later hlater => hformed later hlater hmal, fun e he => ⟨hfits e he, ?_⟩, ?_⟩
    · intro hnil
      exact ⟨fun hskips later hlater =>
        (List.pairwise_cons.mp (h.alone hskips)).1 later hlater e he hnil,
        h.cleared [] l ls rfl e he hnil⟩
    · exact ⟨hformed', hfits', fun hskips => (List.pairwise_cons.mp (h.alone hskips)).2,
        fun before line after hls => h.cleared (l :: before) line after (by rw [hls]; rfl)⟩
  · rintro ⟨hformed, hline, hrest⟩
    refine ⟨List.pairwise_cons.mpr ⟨fun later hlater hmal => hformed hmal later hlater,
      hrest.formed⟩, List.forall_mem_cons.mpr ⟨fun e he => (hline e he).1, hrest.fits⟩,
      fun hskips => List.pairwise_cons.mpr ⟨fun later hlater e he hnil =>
        ((hline e he).2 hnil).1 hskips later hlater, hrest.alone hskips⟩, ?_⟩
    intro before line after hls e he hnil
    cases before with
    | nil =>
      obtain ⟨rfl, rfl⟩ := List.cons.inj hls
      exact ((hline e he).2 hnil).2
    | cons b before =>
      obtain ⟨rfl, htail⟩ := List.cons.inj hls
      exact hrest.cleared before line after htail e he hnil

/-- Lines without a code are of no consequence. -/
theorem regular_of_codeless (h : ∀ line ∈ ls, scanInt line = none) :
    Regular skips size name ls := by
  have hnone : ∀ line ∈ ls, ∀ e, scanEntry skips line ≠ some e := fun line hline e he => by
    rw [scanEntry, h line hline] at he
    cases he
  refine ⟨?_, fun line hline e he => absurd he (hnone line hline e), fun _ => ?_, ?_⟩
  · exact List.pairwise_of_forall_mem_list fun line _ later hlater _ => h later hlater
  · exact List.pairwise_of_forall_mem_list fun line hline later _ e he =>
      absurd he (hnone line hline e)
  · intro before line after hls e he
    exact absurd he (hnone line (by simp [hls]) e)

theorem filterMap_lineEntry_eq_nil :
    ls.filterMap (lineEntry skips) = [] ↔ ∀ line ∈ ls, scanInt line = none := by
  simp [List.filterMap_eq_nil_iff, lineEntry, scanEntry]

/-- The codes of the entries are those of the lines. -/
theorem mem_codes_iff : code ∈ (ls.filterMap (lineEntry skips)).map NameEntry.code ↔
    ∃ later ∈ ls, HasCode code later := by
  simp only [List.mem_map, List.mem_filterMap]
  constructor
  · rintro ⟨entry, ⟨later, hlater, hentry⟩, rfl⟩
    obtain ⟨e, he, rfl⟩ := Option.map_eq_some_iff.mp hentry
    obtain ⟨⟨z, r⟩, hscan, rfl⟩ := Option.map_eq_some_iff.mp he
    exact ⟨later, hlater, r, hscan⟩
  · rintro ⟨later, hlater, r, hscan⟩
    have hentry : ∃ entry, lineEntry skips later = some entry ∧ entry.code = code := by
      rw [lineEntry, scanEntry, hscan]
      exact ⟨_, rfl, rfl⟩
    obtain ⟨entry, hentry, hcode⟩ := hentry
    exact ⟨entry, ⟨later, hlater, hentry⟩, hcode⟩

/-- A line with a code that is read by a call of its own. -/
theorem loaded_entry_iff {text rest : Bytes} (hwell : ¬ Malformed l)
    (hline : scanEntry skips l = some ⟨code, text, rest⟩)
    (hloop : loadNames skips size name s =
      if size ≤ text.length then none
      else (loadNames skips size (if text = [] then name else text) t).map
        (⟨if text = [] then 1 else 2, code, cstr (if text = [] then name else text)⟩ :: ·))
    (hlater : text = [] → skips = true → ∀ later ∈ ls, Blank later)
    (ih : ∀ name, Loaded (loadNames skips size name t) (ls.filterMap (lineEntry skips)) ↔
      Regular skips size name ls) :
    Loaded (loadNames skips size name s) ((l :: ls).filterMap (lineEntry skips)) ↔
      Regular skips size name (l :: ls) := by
  have hentry : lineEntry skips l = some ⟨if text = [] then 1 else 2, code, cstr text⟩ := by
    rw [lineEntry, hline]
    rfl
  have hbehind : nameBehind skips name l = if text = [] then name else text := by
    rw [nameBehind, hline]
  have honly : ∀ e, scanEntry skips l = some e → e = ⟨code, text, rest⟩ := fun e he =>
    Option.some.inj (he.symm.trans hline)
  rw [regular_cons_iff, hloop, List.filterMap_cons_some hentry, hbehind]
  by_cases hsize : size ≤ text.length
  · rw [if_pos hsize]
    refine iff_of_false not_loaded_none fun h => ?_
    exact absurd (h.2.1 _ hline).1 (Nat.not_lt.mpr hsize)
  · rw [if_neg hsize, loaded_cons_iff, ih, mem_codes_iff]
    have hfits : text.length < size := Nat.lt_of_not_le hsize
    by_cases hnil : text = []
    -- the name of the line is missing
    · subst hnil
      constructor
      · rintro ⟨-, hname, hrest⟩
        refine ⟨fun h => absurd h hwell, fun e he => ?_, hrest⟩
        rw [honly e he]
        exact ⟨hfits, fun _ => ⟨hlater rfl, hname⟩⟩
      · rintro ⟨-, hname, hrest⟩
        exact ⟨rfl, ((hname _ hline).2 rfl).2, hrest⟩
    · rw [if_neg hnil]
      constructor
      · rintro ⟨-, -, hrest⟩
        refine ⟨fun h => absurd h hwell, fun e he => ?_, hrest⟩
        rw [honly e he]
        exact ⟨hfits, fun h => absurd h hnil⟩
      · rintro ⟨-, -, hrest⟩
        exact ⟨rfl, Or.inl (by rw [if_neg hnil]), hrest⟩

/-- A blank line is passed over. -/
theorem loaded_blank_iff (ht : AtBreak t) (hempty : Blank body)
    (ih : ∀ name, Loaded (loadNames skips size name t) (ls.filterMap (lineEntry skips)) ↔
      Regular skips size name ls) :
    Loaded (loadNames skips size name (body ++ t))
        (((body ++ t.take 1) :: ls).filterMap (lineEntry skips)) ↔
      Regular skips size name ((body ++ t.take 1) :: ls) := by
  have hline : Blank (body ++ t.take 1) := fun b hb => by
    rcases List.mem_append.mp hb with hb | hb
    · exact hempty b hb
    · exact ht.blank_take_one b hb
  have hnone : scanEntry skips (body ++ t.take 1) = none := scanEntry_of_blank hline
  have hbehind : nameBehind skips name (body ++ t.take 1) = name := by
    rw [nameBehind, hnone]
  rw [loadNames_blank_append hempty, List.filterMap_cons_none (by rw [lineEntry, hnone]; rfl),
    ih, regular_cons_iff, hbehind]
  constructor
  · exact fun h => ⟨fun hmal => absurd hline hmal.1, fun e he => by simp [hnone] at he, h⟩
  · exact fun h => h.2.2

/-- The loop ends at a line that is not blank and has no code. -/
theorem loaded_codeless_iff (ht : AtBreak t) (hempty : ¬ Blank body) (hcode : scanInt body = none)
    (name : Bytes) :
    Loaded (loadNames skips size name (body ++ t))
        (((body ++ t.take 1) :: ls).filterMap (lineEntry skips)) ↔
      Regular skips size name ((body ++ t.take 1) :: ls) := by
  have hnblank : ¬ Blank (body ++ t.take 1) := fun h =>
    hempty fun b hb => h b (List.mem_append_left _ hb)
  have hline : scanInt (body ++ t.take 1) = none := by
    rw [ht.take_one.scanInt_append hempty, hcode]
    rfl
  have hnone : scanEntry skips (body ++ t.take 1) = none := by rw [scanEntry, hline]; rfl
  have hstop : scanEntry skips (body ++ t) = none := by
    rw [scanEntry, ht.scanInt_append hempty, hcode]
    rfl
  rw [loadNames_of_none hstop, loaded_nil_iff, regular_cons_iff,
    List.filterMap_cons_none (by rw [lineEntry, hnone]; rfl), filterMap_lineEntry_eq_nil]
  constructor
  · exact fun h => ⟨fun _ => h, fun e he => by simp [hnone] at he, regular_of_codeless h⟩
  · exact fun h => h.1 ⟨hnblank, hline⟩

/-- A code without a name in front of a line that is not blank takes that line for its name. -/
theorem not_loaded_of_nameless {rest : Bytes} (ht : AtBreak t) (hempty : ¬ Blank body)
    (hcode : scanInt body = some (code, r)) (hr : Blank r) (hlast : ¬ Blank t)
    (hline : scanEntry true l = some ⟨code, [], rest⟩) :
    ¬ Loaded (loadNames true size name (body ++ t)) ((l :: ls).filterMap (lineEntry true)) := by
  have hread := ht.scanEntry_nameless hempty hcode hr
  have hne := scanLine_ne_nil hlast
  rw [loadNames_of_some hread, List.filterMap_cons_some (by rw [lineEntry, hline]; rfl)]
  split_ifs
  · exact not_loaded_none
  · intro h
    have hitems : 2 = 1 := congrArg Prod.fst (loaded_cons_iff.mp h).1
    cases hitems

/-- One line. -/
theorem loaded_line_iff (hbody : ∀ b ∈ body, isBreak b = false) (ht : AtBreak t)
    (hblank : (∀ later ∈ ls, Blank later) ↔ Blank t)
    (ih : ∀ name, Loaded (loadNames skips size name t) (ls.filterMap (lineEntry skips)) ↔
      Regular skips size name ls) (name : Bytes) :
    Loaded (loadNames skips size name (body ++ t))
        (((body ++ t.take 1) :: ls).filterMap (lineEntry skips)) ↔
      Regular skips size name ((body ++ t.take 1) :: ls) := by
  by_cases hempty : Blank body
  · exact loaded_blank_iff ht hempty ih
  · cases hcode : scanInt body with
    | none => exact loaded_codeless_iff ht hempty hcode name
    | some found =>
      obtain ⟨code, r⟩ := found
      have hwell : ¬ Malformed (body ++ t.take 1) := fun h => by
        have hnone := h.2
        rw [ht.take_one.scanInt_append hempty, hcode] at hnone
        cases hnone
      by_cases hname : skips = true → ¬ Blank r
      · have hread := ht.scanEntry_append hbody hempty hcode hname
        have hline := ht.take_one.scanEntry_append hbody hempty hcode hname
        refine loaded_entry_iff hwell hline (loadNames_of_some hread) (fun hnil hskips => ?_) ih
        rw [if_pos hskips] at hnil
        exact absurd (List.dropWhile_eq_nil_iff.mp hnil) (hname hskips)
      · obtain ⟨hskips, hr⟩ : skips = true ∧ Blank r := by
          by_contra h
          exact hname fun hskips hr => h ⟨hskips, hr⟩
        subst hskips
        have hread := ht.scanEntry_nameless hempty hcode hr
        have hline := ht.take_one.scanEntry_nameless hempty hcode hr
        rw [ht.blank_take_one.dropWhile_eq] at hline
        by_cases hlast : Blank t
        -- nothing more than blanks is left
        · rw [hlast.dropWhile_eq] at hread
          refine loaded_entry_iff hwell hline ?_ (fun _ _ => hblank.mpr hlast) ih
          have hend : ∀ name, loadNames true size name t = loadNames true size name [] :=
            fun name => by
              have hrest := @loadNames_blank_append true size name t hlast []
              rwa [List.append_nil] at hrest
          rw [loadNames_of_some hread, hend]
          rfl
        · refine iff_of_false (not_loaded_of_nameless ht hempty hcode hr hlast hline) fun h => ?_
          have hline' := ((regular_cons_iff.mp h).2.1 _ hline).2 rfl
          exact hlast (hblank.mp (hline'.1 rfl))

theorem blank_lines_iff (s : Bytes) : (∀ line ∈ nameLines s, Blank line) ↔ Blank s := by
  induction s using Lines.line_induction isBreak with
  | part s hpart =>
    by_cases hne : s = []
    · subst hne
      exact iff_of_true (fun _ h => by cases h) fun _ h => by cases h
    · rw [nameLines, Lines.lines_part hpart hne, List.forall_mem_singleton]
  | line body b s hbody hb ih =>
    rw [nameLines, Lines.lines_line hbody hb, List.forall_mem_cons, ← nameLines, ih,
      List.append_cons body b s]
    exact List.forall_mem_append.symm

/-- The loop reads line by line exactly when the lines are regular. -/
theorem loadNames_iff (name s : Bytes) :
    Loaded (loadNames skips size name s) ((nameLines s).filterMap (lineEntry skips)) ↔
      Regular skips size name (nameLines s) := by
  induction s using Lines.line_induction isBreak generalizing name with
  | part s hpart =>
    have hend : ∀ name, loadNames skips size name [] = some [] := fun name =>
      loadNames_of_none rfl
    have hnil : ∀ name, Loaded (loadNames skips size name []) [] ↔ Regular skips size name [] :=
      fun name => by
        rw [hend, loaded_nil_iff]
        exact iff_of_true rfl (regular_of_codeless fun _ h => by cases h)
    by_cases hne : s = []
    · subst hne
      exact hnil name
    · have hlast := @loaded_line_iff skips size s [] [] hpart (fun b hb => by cases hb)
        (iff_of_true (fun _ h => by cases h) fun _ h => by cases h) hnil name
      rw [nameLines, Lines.lines_part hpart hne]
      simpa using hlast
  | line body b s hbody hb ih =>
    have hbreak : AtBreak (b :: s) := fun c hc => Option.some.inj hc ▸ hb
    have hblank : (∀ later ∈ nameLines s, Blank later) ↔ Blank (b :: s) := by
      rw [blank_lines_iff, Blank, Blank, List.forall_mem_cons]
      exact (and_iff_right (isspace_of_isBreak hb)).symm
    have hpass : ∀ name, loadNames skips size name (b :: s) = loadNames skips size name s :=
      fun name => loadNames_blank_append (l := [b]) (fun c hc =>
        List.mem_singleton.mp hc ▸ isspace_of_isBreak hb) s
    have hline := loaded_line_iff hbody hbreak hblank (fun name => by rw [hpass, ih]) name
    rw [nameLines, Lines.lines_line hbody hb]
    exact hline

theorem namesByLine_iff {filename file : Bytes} {disk : Bytes → Option Bytes}
    (hname : filename ≠ []) (hopen : disk filename = some file) :
    NamesByLine (createNames skips size) skips size filename disk file ↔
      Regular skips size [] (nameLines file) := by
  rw [← loadNames_iff]
  have hcreate : createNames skips size none filename disk =
      (loadNames skips size [] file).map fun entries =>
        some (Table.fill (fun _ => none) (entries.map NameEntry.pair)) := by
    simp only [createNames, if_neg hname, hopen]
  have hfill : ∀ (entries : List NameEntry) code,
      Table.fill (fun _ => none) (entries.map NameEntry.pair) code =
        Table.last (entries.map NameEntry.pair) code := fun entries code => by
    rw [Table.fill_eq_last, Option.or_none]
  constructor
  · rintro ⟨entries, table, hload, htable, hhead, hlast⟩
    rw [hcreate, hload] at htable
    obtain rfl := Option.some.inj (Option.some.inj htable)
    exact ⟨entries, hload, hhead, fun code => (hfill entries code).symm.trans (hlast code)⟩
  · rintro ⟨entries, hload, hhead, hlast⟩
    refine ⟨entries, _, hload, by rw [hcreate, hload]; rfl, hhead, fun code => ?_⟩
    exact (hfill entries code).trans (hlast code)

end Names

/-! ### The buffers of the pair file -/

section Pairs

variable {file line : Bytes}

/-- With a number for each element the lists can be told apart. -/
theorem flatMap_tagged_inj {α β : Type} {f g : α → List β} {l : List α} (i : ℕ) :
    ((l.zipIdx i).flatMap fun a => (f a.1).map (a.2, ·)) =
        ((l.zipIdx i).flatMap fun a => (g a.1).map (a.2, ·)) ↔ ∀ a ∈ l, f a = g a := by
  induction l generalizing i with
  | nil => simp
  | cons a l ih =>
    rw [List.forall_mem_cons, ← ih (i + 1), List.zipIdx_cons, List.flatMap_cons,
      List.flatMap_cons]
    constructor
    · intro h
      -- those with the number `i` are of the first element
      have hlater : ∀ h' : α → List β, (((l.zipIdx (i + 1)).flatMap fun a =>
          (h' a.1).map (a.2, ·)).filter fun p => p.1 = i) = [] := fun h' => by
        rw [List.filter_eq_nil_iff]
        intro p hp
        obtain ⟨⟨c, j⟩, hc, hp⟩ := List.mem_flatMap.mp hp
        obtain ⟨b, -, rfl⟩ := List.mem_map.mp hp
        have hle := List.le_snd_of_mem_zipIdx hc
        have hne : j ≠ i := by
          dsimp only at hle
          omega
        simpa using hne
      have hfirst : ∀ bs : List β, (bs.map (i, ·)).filter (fun p => p.1 = i) = bs.map (i, ·) :=
        fun bs => List.filter_eq_self.mpr fun p hp => by
          obtain ⟨b, -, rfl⟩ := List.mem_map.mp hp
          simp
      have hfilter := congrArg (List.filter fun p => decide (p.1 = i)) h
      rw [List.filter_append, List.filter_append, hlater, hlater, List.append_nil,
        List.append_nil, hfirst, hfirst] at hfilter
      have hmap := congrArg (List.map Prod.snd) hfilter
      have heq : f a = g a := by simpa [Function.comp_def] using hmap
      rw [heq] at h
      exact ⟨heq, List.append_cancel_left h⟩
    · rintro ⟨heq, hrest⟩
      rw [heq, hrest]

/-- A key with its values gives back the numbers. -/
theorem map_filterMap_keyed (ns : List (List ℤ)) :
    (ns.filterMap keyed).map (fun e => e.1 :: e.2) = ns.filter (2 ≤ ·.length) := by
  induction ns with
  | nil => rfl
  | cons n ns ih =>
    match n with
    | [] =>
      rw [List.filterMap_cons_none rfl, ih]
      rfl
    | [_] =>
      rw [List.filterMap_cons_none rfl, ih]
      rfl
    | key :: value :: values =>
      have hkeyed : keyed (key :: value :: values) = some (key, value :: values) := rfl
      rw [List.filterMap_cons_some hkeyed, List.map_cons, ih, List.filter_cons_of_pos (by simp)]

theorem filterMap_keyed_inj {ns ms : List (List ℤ)} :
    ns.filterMap keyed = ms.filterMap keyed ↔
      ns.filter (2 ≤ ·.length) = ms.filter (2 ≤ ·.length) := by
  rw [← map_filterMap_keyed, ← map_filterMap_keyed]
  refine (List.map_injective_iff.mpr ?_).eq_iff.symm
  rintro ⟨k, vs⟩ ⟨k', vs'⟩ h
  obtain ⟨rfl, rfl⟩ := List.cons.inj h
  rfl

/-- The buffers of a line add its own entry exactly when it is not divided. -/
theorem undivided_iff : Undivided line ↔
    (fgetsAll PAIRBUFSIZE line).filterMap pairEntry = (pairEntry line).toList := by
  have hbuffers : (fgetsAll PAIRBUFSIZE line).filterMap pairEntry =
      ((fgetsAll PAIRBUFSIZE line).map numbers).filterMap keyed := by
    rw [List.filterMap_map]
    rfl
  have hline : (pairEntry line).toList = [numbers line].filterMap keyed := by
    rw [List.filterMap_cons, pairEntry]
    cases keyed (numbers line) <;> rfl
  rw [hbuffers, hline, filterMap_keyed_inj]
  rfl

/-- A line that fits the buffer is not divided. -/
theorem undivided_of_length_lt (hline : line ∈ Lines.lines isNewline file)
    (hlen : line.length < PAIRBUFSIZE) : Undivided line := by
  rw [Undivided, fgetsAll,
    Lines.allPieces_of_length_le isNewline hline (Nat.le_sub_one_of_lt hlen)]
  rfl

/-- The buffers are those of the lines, in order. -/
theorem pairTrace_eq (file : Bytes) : pairTrace file =
    (Lines.lines isNewline file).zipIdx.flatMap fun l =>
      ((fgetsAll PAIRBUFSIZE l.1).filterMap pairEntry).map (l.2, ·) := by
  have hpieces := Lines.numbered_allPieces isNewline 58 0 file
  rw [pairTrace, fgetsAll]
  refine (congrArg _ hpieces).trans ?_
  rw [List.filterMap_flatMap]
  congr 1
  funext l
  rw [List.filterMap_map, List.map_filterMap]
  rfl

theorem pairTrace_snd (file : Bytes) :
    (pairTrace file).map Prod.snd = (fgetsAll PAIRBUFSIZE file).filterMap pairEntry := by
  have hnumbered : ∀ (ps : List Bytes) i,
      ((Lines.numbered isNewline i ps).filterMap fun p => (pairEntry p.2).map (p.1, ·)).map
        Prod.snd = ps.filterMap pairEntry := by
    intro ps
    induction ps with
    | nil => exact fun i => rfl
    | cons p ps ih =>
      intro i
      rw [Lines.numbered, List.filterMap_cons, List.filterMap_cons]
      cases pairEntry p with
      | none => exact ih _
      | some e => exact congrArg _ (ih _)
  exact hnumbered _ 0

/-- The pair file is read line by line exactly when no line is divided. -/
theorem pairByLine_iff {filename : Bytes} {disk : Bytes → Option Bytes} (hname : filename ≠ [])
    (hopen : disk filename = some file) :
    PairByLine filename disk file ↔ ∀ line ∈ Lines.lines isNewline file, Undivided line := by
  have hown : (Lines.lines isNewline file).zipIdx.filterMap
      (fun l => (pairEntry l.1).map (l.2, ·)) =
        (Lines.lines isNewline file).zipIdx.flatMap fun l =>
          (pairEntry l.1).toList.map (l.2, ·) := by
    rw [List.filterMap_eq_flatMap_toList]
    congr 1
    funext l
    exact Option.toList_map
  have htrace : pairTrace file = (Lines.lines isNewline file).zipIdx.filterMap (fun l =>
      (pairEntry l.1).map (l.2, ·)) ↔ ∀ line ∈ Lines.lines isNewline file, Undivided line := by
    rw [hown, pairTrace_eq]
    refine (flatMap_tagged_inj (f := fun l => (fgetsAll PAIRBUFSIZE l).filterMap pairEntry)
      (g := fun l => (pairEntry l).toList) 0).trans ?_
    simp only [undivided_iff]
  have hcreate : createPairHashTable none filename disk = some fun code =>
      (Table.fill (fun _ => none) ((fgetsAll PAIRBUFSIZE file).filterMap pairEntry)
        code).getD [] := by
    simp only [createPairHashTable, if_neg hname, hopen]
  constructor
  · rintro ⟨table, -, hsame, -⟩
    exact htrace.mp hsame
  · intro h
    have hsame := htrace.mpr h
    have hentries : (fgetsAll PAIRBUFSIZE file).filterMap pairEntry =
        (Lines.lines isNewline file).filterMap pairEntry := by
      rw [← pairTrace_snd, hsame, List.map_filterMap]
      conv_rhs => rw [← List.zipIdx_map_fst 0 (Lines.lines isNewline file), List.filterMap_map]
      congr 1
      funext l
      cases hentry : pairEntry l.1 with
      | none => simp [hentry]
      | some e => simp [hentry]
    refine ⟨_, hcreate, hsame, fun code => ?_⟩
    rw [Table.fill_eq_last, Option.or_none, hentries]

end Pairs

/-! ### The loaders -/

section Loaders

variable (filename : Bytes) (disk : Bytes → Option Bytes) (file : Bytes)

/-- The file of subjects is read line by line. -/
def SubByLine : Prop := NamesByLine createSubHashTable false 40 filename disk file

/-- The file of institutions is read line by line. -/
def ColByLine : Prop := NamesByLine createColHashTable true 71 filename disk file

/-- A file of subjects that is read line by line. -/
def SubRegular : Prop := Regular false 40 [] (nameLines file)

/-- A file of institutions that is read line by line. -/
def ColRegular : Prop := Regular true 71 [] (nameLines file)

/-- A file of pairs that is read line by line. -/
def PairRegular : Prop := ∀ line ∈ Lines.lines isNewline file, Undivided line

end Loaders

/-- The files that are read line by line are the regular ones. -/
theorem tables_by_line_iff {filename file : Bytes} {disk : Bytes → Option Bytes}
    (hname : filename ≠ []) (hopen : disk filename = some file) :
    (SubByLine filename disk file ↔ SubRegular file) ∧
      (ColByLine filename disk file ↔ ColRegular file) ∧
      (PairByLine filename disk file ↔ PairRegular file) :=
  ⟨namesByLine_iff hname hopen, namesByLine_iff hname hopen, pairByLine_iff hname hopen⟩

def SUBCODEFILE : Bytes := ascii "subcode.txt"

/-- The second subject has no name. -/
def sampleSubjects : Bytes := ascii "101 Bangla" ++ newline :: ascii "102" ++ [newline]

/-- The table gives it that of the first. -/
theorem tables_by_line_fails_sample : ¬ ∀ (filename file : Bytes) (disk : Bytes → Option Bytes),
    filename ≠ [] → disk filename = some file →
      SubByLine filename disk file ∧ ColByLine filename disk file ∧
        PairByLine filename disk file := by
  intro h
  have hname : SUBCODEFILE ≠ [] := by decide +kernel
  have hopen : (fun _ : Bytes => some sampleSubjects) SUBCODEFILE = some sampleSubjects := rfl
  have hsub := (h SUBCODEFILE sampleSubjects (fun _ => some sampleSubjects) hname hopen).1
  have hregular : SubRegular sampleSubjects := (namesByLine_iff hname hopen).mp hsub
  have hcleared := hregular.cleared [ascii "101 Bangla" ++ [newline]] (ascii "102" ++ [newline])
    [] (by decide +kernel) ⟨102, [], [newline]⟩ (by decide +kernel) rfl
  rcases hcleared with hnil | ⟨later, hlater, -⟩
  · exact absurd hnil (by decide +kernel)
  · cases hlater

/-- Two lines with two numbers each: two subjects, two institutions or two pairs. -/
def sampleCodes : Bytes := ascii "101 102" ++ newline :: ascii "103 104" ++ [newline]

theorem regular_sampleCodes (skips : Bool) {size : ℕ} (hsize : 4 < size) :
    Regular skips size [] (nameLines sampleCodes) := by
  have hlines : nameLines sampleCodes =
      [ascii "101 102" ++ [newline], ascii "103 104" ++ [newline]] := by decide +kernel
  have hscan : ∀ line ∈ nameLines sampleCodes, (scanEntry skips line).all fun e =>
      decide (e.text ≠ []) && decide (e.text.length ≤ 4) := by
    revert skips
    decide +kernel
  have hnamed : ∀ line ∈ nameLines sampleCodes, ∀ e, scanEntry skips line = some e →
      e.text ≠ [] ∧ e.text.length ≤ 4 := by
    intro line hline e he
    simpa [he] using hscan line hline
  refine ⟨?_, fun line hline e he => (hnamed line hline e he).2.trans_lt hsize, fun _ => ?_,
    fun before line after hsplit e he hnil => ?_⟩
  · rw [hlines]
    exact List.pairwise_pair.mpr fun h => absurd h.2 (by decide +kernel)
  · rw [hlines]
    refine List.pairwise_pair.mpr fun e he hnil => ?_
    exact absurd hnil (hnamed _ (by rw [hlines]; simp) e he).1
  · exact absurd hnil (hnamed line (by rw [hsplit]; simp) e he).1

theorem pairRegular_sampleCodes : PairRegular sampleCodes := by
  have hlines : Lines.lines isNewline sampleCodes =
      [ascii "101 102" ++ [newline], ascii "103 104" ++ [newline]] := by decide +kernel
  have hundivided : Undivided (ascii "101 102" ++ [newline]) ∧
      Undivided (ascii "103 104" ++ [newline]) := by
    unfold Undivided
    decide +kernel
  intro line hline
  rw [hlines, List.mem_pair] at hline
  rcases hline with rfl | rfl
  · exact hundivided.1
  · exact hundivided.2

theorem tables_by_line_sample :
    ((SubByLine SUBCODEFILE (fun _ => some sampleSubjects) sampleSubjects ↔
        SubRegular sampleSubjects) ∧
      (ColByLine SUBCODEFILE (fun _ => some sampleSubjects) sampleSubjects ↔
        ColRegular sampleSubjects) ∧
      (PairByLine SUBCODEFILE (fun _ => some sampleSubjects) sampleSubjects ↔
        PairRegular sampleSubjects)) ∧
      SubByLine SUBCODEFILE (fun _ => some sampleCodes) sampleCodes ∧
      ColByLine SUBCODEFILE (fun _ => some sampleCodes) sampleCodes ∧
      PairByLine SUBCODEFILE (fun _ => some sampleCodes) sampleCodes := by
  obtain ⟨hsub, hcol, hpair⟩ := @tables_by_line_iff SUBCODEFILE sampleCodes
    (fun _ => some sampleCodes) (by decide +kernel) rfl
  exact ⟨tables_by_line_iff (by decide +kernel) rfl,
    hsub.mpr (regular_sampleCodes false (by decide)),
    hcol.mpr (regular_sampleCodes true (by decide)), hpair.mpr pairRegular_sampleCodes⟩

end Esif.Client
