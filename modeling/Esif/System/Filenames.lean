import Mathlib.Data.List.Basic
import Esif.Client.Editor
import Esif.Client.Apply
import Esif.Server.Session

/-!
# The names of forms

A form is known by its file name alone: the editor and `apply_forms` choose files by it, and
the server keeps the form and its record under it. The name is five fields with underscores
between them, of which the two numbers are printed with four digits or more, and the section
may be an underscore itself.

## Main definitions

* `FormKey` — what a form is told apart by

## Main results

* `FormKey.filename_injective` — different keys have different names
* `FormKey.length_filename_iff` — the width of a name
* `filename_identifies` — both, with the places that rely on the width
-/

namespace Esif.System

open Esif.Posix
open Esif.Client (Apply FILENAMELEN MAXFILENAMELEN MINFILENAMELEN constructFilename genders
  groupLetters groupfiles notListed sections)

/-- What a form is told apart by: the items of three lists, and two numbers. -/
@[ext]
structure FormKey where
  gender : Bytes
  roll : ℕ
  sec : Bytes
  totlist : ℕ
  group : Bytes
  gender_mem : gender ∈ genders
  sec_mem : sec ∈ sections
  group_mem : group ∈ groupfiles.map Prod.fst

/-- The name of the file of the form. -/
def FormKey.filename (k : FormKey) : Bytes :=
  constructFilename k.gender k.roll k.sec k.totlist k.group

/-! ### The fields of a name -/

/-- The letter for the gender. -/
def genderLetter (gender : Bytes) : Bytes := if gender = ascii "Male" then ascii "M" else ascii "F"

/-- The letter for the section. -/
def sectionLetter (sec : Bytes) : Bytes := if sec = ascii " " then ascii "_" else sec

/-- The letter for the group. -/
def groupLetter (group : Bytes) : Bytes := (groupLetters.lookup group).getD (ascii "u")

theorem FormKey.filename_eq (k : FormKey) :
    k.filename = genderLetter k.gender ++ (ascii "_" ++ (printInt04 k.roll ++ ascii "_" ++
      (sectionLetter k.sec ++ (ascii "_" ++ (printInt04 k.totlist ++ ascii "_" ++
        (groupLetter k.group ++ ascii ".txt")))))) := by
  simp only [FormKey.filename, constructFilename, genderLetter, sectionLetter, groupLetter,
    List.append_assoc]

theorem length_genderLetter (gender : Bytes) : (genderLetter gender).length = 1 := by
  unfold genderLetter
  split <;> rfl

theorem length_sectionLetter {sec : Bytes} (h : sec ∈ sections) :
    (sectionLetter sec).length = 1 := by
  have hall : ∀ item ∈ sections, (sectionLetter item).length = 1 := by decide
  exact hall sec h

theorem length_groupLetter {group : Bytes} (h : group ∈ groupfiles.map Prod.fst) :
    (groupLetter group).length = 1 := by
  have hall : ∀ item ∈ groupfiles.map Prod.fst, (groupLetter item).length = 1 := by decide +kernel
  exact hall group h

theorem genderLetter_inj {gender gender' : Bytes} (h : gender ∈ genders) (h' : gender' ∈ genders)
    (heq : genderLetter gender = genderLetter gender') : gender = gender' := by
  have hall : ∀ item ∈ genders, ∀ item' ∈ genders,
      genderLetter item = genderLetter item' → item = item' := by decide
  exact hall gender h gender' h' heq

/-- No section is called `_`. -/
theorem sectionLetter_inj {sec sec' : Bytes} (h : sec ∈ sections) (h' : sec' ∈ sections)
    (heq : sectionLetter sec = sectionLetter sec') : sec = sec' := by
  have hall : ∀ item ∈ sections, ∀ item' ∈ sections,
      sectionLetter item = sectionLetter item' → item = item' := by decide +kernel
  exact hall sec h sec' h' heq

/-- Home economics, which the list calls by another name than `construct_filename`, is the only
group that falls through to `u`. -/
theorem groupLetter_inj {group group' : Bytes} (h : group ∈ groupfiles.map Prod.fst)
    (h' : group' ∈ groupfiles.map Prod.fst) (heq : groupLetter group = groupLetter group') :
    group = group' := by
  have hall : ∀ item ∈ groupfiles.map Prod.fst, ∀ item' ∈ groupfiles.map Prod.fst,
      groupLetter item = groupLetter item' → item = item' := by decide +kernel
  exact hall group h group' h' heq

theorem underscore_notMem_printInt04 (z : ℤ) : 95 ∉ printInt04 z := by
  intro hmem
  rcases of_mem_printInt04 hmem with hdigit | hminus
  · exact absurd hdigit (by decide)
  · exact absurd hminus (by decide)

/-- Two texts up to the first separator. -/
theorem append_separator_inj {α : Type*} [DecidableEq α] {a : α} {s s' rest rest' : List α}
    (hs : a ∉ s) (hs' : a ∉ s') (h : s ++ a :: rest = s' ++ a :: rest') :
    s = s' ∧ rest = rest' := by
  have hidx : ∀ {r t : List α}, a ∉ r → (r ++ a :: t).idxOf a = r.length := fun hr => by
    rw [List.idxOf_append_of_notMem hr, List.idxOf_cons_self, Nat.add_zero]
  have hlen : s.length = s'.length := by rw [← hidx hs, h, hidx hs']
  obtain ⟨hfront, htail⟩ := List.append_inj h hlen
  exact ⟨hfront, List.tail_eq_of_cons_eq htail⟩

/-- A printed number ends at the underscore behind it, however wide it is. -/
theorem printInt04_append_inj {z z' : ℤ} {rest rest' : Bytes}
    (h : printInt04 z ++ ascii "_" ++ rest = printInt04 z' ++ ascii "_" ++ rest') :
    z = z' ∧ rest = rest' := by
  have hcons : ∀ (w : ℤ) (s : Bytes), printInt04 w ++ ascii "_" ++ s = printInt04 w ++ 95 :: s :=
    fun w s => List.append_assoc _ _ _
  rw [hcons, hcons] at h
  obtain ⟨hnumber, hrest⟩ := append_separator_inj
    (underscore_notMem_printInt04 z) (underscore_notMem_printInt04 z') h
  exact ⟨printInt04_injective hnumber, hrest⟩

/-- Different keys have different names. -/
theorem FormKey.filename_injective : Function.Injective FormKey.filename := by
  intro k k' h
  rw [k.filename_eq, k'.filename_eq] at h
  obtain ⟨hgender, h⟩ := List.append_inj h
    ((length_genderLetter _).trans (length_genderLetter _).symm)
  obtain ⟨hroll, h⟩ := printInt04_append_inj (List.append_cancel_left h)
  obtain ⟨hsec, h⟩ := List.append_inj h
    ((length_sectionLetter k.sec_mem).trans (length_sectionLetter k'.sec_mem).symm)
  obtain ⟨htot, h⟩ := printInt04_append_inj (List.append_cancel_left h)
  have hgroup := List.append_cancel_right h
  apply FormKey.ext
  · exact genderLetter_inj k.gender_mem k'.gender_mem hgender
  · exact Int.ofNat.inj hroll
  · exact sectionLetter_inj k.sec_mem k'.sec_mem hsec
  · exact Int.ofNat.inj htot
  · exact groupLetter_inj k.group_mem k'.group_mem hgroup

/-! ### The width of a name -/

theorem length_decimal_le_iff {n k : ℕ} (hk : 0 < k) : (decimal n).length ≤ k ↔ n < 10 ^ k := by
  unfold decimal
  split
  · next hzero => simpa [hzero] using Nat.one_le_iff_ne_zero.mpr hk.ne'
  · rw [List.length_map, List.length_reverse]
    exact Nat.digits_length_le_iff (by decide) n

/-- `%04d` of a number that is not negative: four digits, or as many as it has. -/
theorem length_printInt04_natCast (n : ℕ) :
    (printInt04 n).length = max 4 (decimal n).length := by
  have hneg : ¬ (n : ℤ) < 0 := Int.not_lt.mpr (Int.natCast_nonneg n)
  rw [printInt04, if_neg hneg, List.length_leftpad, Int.natAbs_natCast]

/-- Two widths of four digits at least add up to eight only when both numbers have four. -/
theorem FormKey.length_filename (k : FormKey) :
    k.filename.length = 11 + (printInt04 k.roll).length + (printInt04 k.totlist).length := by
  have hwords : (ascii "_").length = 1 ∧ (ascii ".txt").length = 4 := by decide
  simp only [k.filename_eq, List.length_append, length_genderLetter,
    length_sectionLetter k.sec_mem, length_groupLetter k.group_mem, hwords]
  omega

/-- A name has nineteen characters when both numbers have four digits, and more otherwise. -/
theorem FormKey.length_filename_iff (k : FormKey) :
    FILENAMELEN ≤ k.filename.length ∧
      (k.filename.length = FILENAMELEN ↔ k.roll < 10000 ∧ k.totlist < 10000) := by
  have hroll := @length_decimal_le_iff k.roll 4 (by decide)
  have htot := @length_decimal_le_iff k.totlist 4 (by decide)
  rw [k.length_filename, length_printInt04_natCast, length_printInt04_natCast, FILENAMELEN]
  omega

/-! ### The filters -/

theorem FormKey.head_filename (k : FormKey) : k.filename.head? ≠ some 46 := by
  have hall : ∀ item ∈ genders, (genderLetter item).head? ≠ some 46 := by decide
  have hne : genderLetter k.gender ≠ [] := by
    apply List.ne_nil_of_length_pos
    rw [length_genderLetter]
    exact Nat.one_pos
  rw [k.filename_eq, List.head?_append_of_ne_nil _ hne]
  exact hall k.gender k.gender_mem

theorem FormKey.suffix_filename (k : FormKey) :
    k.filename.drop (k.filename.length - 4) = ascii ".txt" := by
  obtain ⟨front, hfront⟩ : ∃ front, k.filename = front ++ ascii ".txt" := ⟨_, rfl⟩
  rw [hfront, List.length_append, show (ascii ".txt").length = 4 from rfl, Nat.add_sub_cancel,
    List.drop_left]

/-- The editor lists exactly the names of nineteen characters. -/
theorem FormKey.notListed_filename_iff (k : FormKey) :
    notListed k.filename = false ↔ k.filename.length = FILENAMELEN := by
  simp [notListed, k.head_filename, k.suffix_filename]

/-- `apply_forms` goes by a range of lengths. -/
theorem FormKey.skipped_filename (k : FormKey) (h : k.filename.length = FILENAMELEN) :
    Apply.skipped k.filename = false := by
  have hrange : ¬ FILENAMELEN < MINFILENAMELEN ∧ ¬ MAXFILENAMELEN < FILENAMELEN := by decide
  have hsuffix := k.suffix_filename
  rw [h] at hsuffix
  simp [Apply.skipped, k.head_filename, h, hrange, hsuffix]

/-- The names of two forms are equal only when all of the gender, the roll, the section, the TOT
number and the group are. A name has nineteen characters exactly when both numbers are below
10000; exactly then the editor lists it and it fits the array of the server, and then
`apply_forms` does not pass it over. -/
theorem filename_identifies (k k' : FormKey) :
    (k.filename = k'.filename → k = k') ∧
      (k.filename.length = FILENAMELEN ↔ k.roll < 10000 ∧ k.totlist < 10000) ∧
      (notListed k.filename = false ↔ k.roll < 10000 ∧ k.totlist < 10000) ∧
      (k.filename.length < Server.MAXFILENAME ↔ k.roll < 10000 ∧ k.totlist < 10000) ∧
      (k.roll < 10000 ∧ k.totlist < 10000 → Apply.skipped k.filename = false) := by
  obtain ⟨hleast, hiff⟩ := k.length_filename_iff
  refine ⟨fun h => FormKey.filename_injective h, hiff, ?_, ?_, ?_⟩
  · rw [k.notListed_filename_iff]
    exact hiff
  · rw [← hiff]
    unfold Server.MAXFILENAME FILENAMELEN at *
    omega
  · intro hsmall
    exact k.skipped_filename (hiff.mpr hsmall)

/-- The form of a boy without a section, and that of a girl of section A. -/
def boyKey : FormKey :=
  ⟨ascii "Male", 7, ascii " ", 12, ascii "Home Economics", by decide, by decide, by decide⟩

def girlKey : FormKey :=
  ⟨ascii "Female", 12345, ascii "A", 9999, ascii "Science", by decide, by decide, by decide⟩

example : boyKey.filename = ascii "M_0007___0012_u.txt" ∧
    girlKey.filename = ascii "F_12345_A_9999_0.txt" := by decide +kernel

theorem filename_identifies_boyKey :
    boyKey.filename ≠ girlKey.filename ∧ boyKey.filename.length = FILENAMELEN ∧
      Apply.skipped boyKey.filename = false := by
  obtain ⟨hinj, hlen, -, -, hskip⟩ := filename_identifies boyKey girlKey
  have hsmall : boyKey.roll < 10000 ∧ boyKey.totlist < 10000 := by decide
  refine ⟨fun h => ?_, hlen.mpr hsmall, hskip hsmall⟩
  have hroll : boyKey.roll = girlKey.roll := by rw [hinj h]
  exact absurd hroll (by decide)

end Esif.System
