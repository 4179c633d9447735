import Mathlib.Data.List.Nodup
import Mathlib.Data.Finset.Card
import Esif.Client.Form

/-!
# The check of the subject codes

`paircheck` and `verify_subject_codes_by_group`, with the lists the files of the
syllabus hold as parameters. The messages to the user are left out.

## Main definitions

* `paircheck` — the pairs of the filled codes
* `EntrySatisfied` — what the format of the pair file says an entry requires
* `verifySubjectCodesByGroup` — the check of all entries against the lists of a group
* `Right` — what the rules say of a form with a number of entries to fill in
* `countedSub` — that number with the special fourth subject and blanks counted in
* `WellCounted` — the forms for which the two numbers say the same

## Main results

* `paircheck_iff` — when `paircheck` does as the format says
* `verify_by_group_iff` — when the check accepts the right forms and no other
-/

namespace Esif.Client

open Esif.Posix

/-! ### Pairs -/

/-- `pairhtable`: the values in the line of a code, empty (`NULL`) without an entry.
No entry has an empty list: a line with a code alone is skipped. -/
abbrev PairTable := ℤ → List ℤ

/-- The loop over the values of a code, until a match is found: 2 stands for a line
whose codes must all be filled, 1 for one where any will do. -/
def matchValues (filled : List ℤ) (matched : ℤ) : List ℤ → Bool
  | [] => false
  | val :: values =>
    if val = 2 then matchValues filled 0 values
    else if val = 1 then matchValues filled matched values
    else if val ∈ filled then
      if 0 ≤ matched then
        -- two of the codes are enough, however many the line has
        if matched + 1 ≠ 2 then matchValues filled (matched + 1) values else true
      else true
    else matchValues filled matched values

/-- The loop over the filled codes, `index` of them done. -/
def paircheckLoop (pairs : PairTable) (filled : List ℤ) (index : ℤ) : List ℤ → ℤ
  | [] => 0
  | val :: rest =>
    if val = 0 then paircheckLoop pairs filled (index + 1) rest
    -- a code without an entry stands alone
    else if pairs val = [] then paircheckLoop pairs filled (index + 1) rest
    else if matchValues filled (-1) (pairs val) then paircheckLoop pairs filled (index + 1) rest
    else index + 1

/-- `paircheck(filled_codes)` -/
def paircheck (pairs : Option PairTable) (filled : List ℤ) : ℤ :=
  match pairs with
  | none => -1
  | some pairs => if filled = [] then -1 else paircheckLoop pairs filled 0 filled

/-- What an entry requires: `002 x1 .. xn` all of its codes, `001 x1 .. xn` and
`x1 .. xn` one of them. -/
def EntrySatisfied (filled values : List ℤ) : Prop :=
  if values.head? = some 2 then ∀ code ∈ values.tail, code ∈ filled
  else if values.head? = some 1 then ∃ code ∈ values.tail, code ∈ filled
  else ∃ code ∈ values, code ∈ filled

instance (filled values : List ℤ) : Decidable (EntrySatisfied filled values) := by
  unfold EntrySatisfied
  infer_instance

/-- A filled code satisfies its entry, if it has one. -/
def Satisfied (pairs : PairTable) (filled : List ℤ) (code : ℤ) : Prop :=
  pairs code ≠ [] → EntrySatisfied filled (pairs code)

instance (pairs : PairTable) (filled : List ℤ) : DecidablePred (Satisfied pairs filled) :=
  fun code => inferInstanceAs (Decidable (pairs code ≠ [] → _))

/-- The position of the first filled code whose entry is not satisfied, counted from
1, or 0. -/
def firstUnsatisfied (pairs : PairTable) (filled : List ℤ) : ℤ :=
  match filled.findIdx? fun code => !decide (Satisfied pairs filled code) with
  | none => 0
  | some i => i + 1

/-- The lists between the 002 marks hold `needed` filled codes in front of the first
mark, or two between a mark and the next one or the end. -/
def PartsMatched (filled : List ℤ) (needed : ℕ) : List (List ℤ) → Prop
  | [] => False
  | first :: later =>
    needed ≤ first.countP (· ∈ filled) ∨ ∃ part ∈ later, 2 ≤ part.countP (· ∈ filled)

/-- The values in which the loop finds its match. -/
def Matched (filled values : List ℤ) : Prop := PartsMatched filled 1 (values.splitOn 2)

section Pairs

variable {pairs : PairTable} {filled values : List ℤ}

/-- How many matches the loop still needs. -/
def needed (matched : ℤ) : ℕ := if matched < 0 then 1 else (2 - matched).toNat

/-- The loop over the values, with `matched` found since the last 002. -/
theorem matchValues_iff (hone : 1 ∉ filled) (values : List ℤ) :
    ∀ {matched : ℤ}, matched = -1 ∨ matched = 0 ∨ matched = 1 →
      (matchValues filled matched values = true ↔
        PartsMatched filled (needed matched) (values.splitOn 2)) := by
  induction values with
  | nil =>
    intro matched hmatched
    refine iff_of_false (by simp [matchValues]) ?_
    rcases hmatched with rfl | rfl | rfl <;> simp [PartsMatched, needed]
  | cons val values ih =>
    intro matched hmatched
    -- a 002 at the head opens a new part, any other value joins the first one
    obtain ⟨first, later, hsplit⟩ : ∃ first later, values.splitOn 2 = first :: later :=
      List.exists_cons_of_ne_nil (List.splitOn_ne_nil 2 values)
    have hcons : (val :: values).splitOn 2 =
        if val = 2 then [] :: first :: later else (val :: first) :: later := by
      rw [List.splitOn_cons_eq_if_modifyHead, hsplit]
      simp
    rw [hcons]
    rw [hsplit] at ih
    unfold matchValues
    split_ifs with htwo hval hmem hmatch hlast
    · -- a 002 starts the count again
      rw [ih (by omega)]
      rcases hmatched with rfl | rfl | rfl <;> simp [PartsMatched, needed]
    · rw [ih hmatched]
      simp [PartsMatched, hval, hone]
    · rw [ih (by omega)]
      rcases hmatched with rfl | rfl | rfl <;> simp_all [PartsMatched, needed]
    · refine iff_of_true rfl ?_
      rcases hmatched with rfl | rfl | rfl <;> simp_all [PartsMatched, needed]
    · refine iff_of_true rfl ?_
      rcases hmatched with rfl | rfl | rfl <;> simp_all [PartsMatched, needed]
    · rw [ih hmatched]
      simp [PartsMatched, hmem]

/-- A list without a 002 is one part. -/
theorem splitOn_two_of_not_mem (htwo : 2 ∉ values) : values.splitOn 2 = [values] :=
  List.splitOn_eq_singleton_of_beq_eq_false (by
    intro code hcode
    simpa using ne_of_mem_of_not_mem hcode htwo)

/-- Without a 002, one filled code is all that is looked for. -/
theorem matched_iff_of_not_mem (htwo : 2 ∉ values) :
    Matched filled values ↔ ∃ code ∈ values, code ∈ filled := by
  simp [Matched, PartsMatched, splitOn_two_of_not_mem htwo]

/-- Behind a 002 the loop is content with two filled codes, however many there are. -/
theorem matched_two_cons_iff (htwo : 2 ∉ values) :
    Matched filled (2 :: values) ↔ 2 ≤ values.countP (· ∈ filled) := by
  rw [Matched, List.splitOn_cons_eq_if_modifyHead, splitOn_two_of_not_mem htwo]
  simp [PartsMatched]

/-- An entry without a 002 is checked as the format says. -/
theorem matched_iff_entrySatisfied (htwo : 2 ∉ values) (hone : 1 ∉ filled) :
    Matched filled values ↔ EntrySatisfied filled values := by
  rw [matched_iff_of_not_mem htwo]
  cases values with
  | nil => simp [EntrySatisfied]
  | cons val values =>
    have hval : val ≠ 2 := fun h => htwo (by simp [h])
    by_cases hmark : val = 1 <;> simp [EntrySatisfied, hval, hmark, hone]

/-- So is a 002 with two codes behind it. -/
theorem matched_pair_iff_entrySatisfied {a b : ℤ} (ha : a ≠ 2) (hb : b ≠ 2) :
    Matched filled [2, a, b] ↔ EntrySatisfied filled [2, a, b] := by
  rw [matched_two_cons_iff (by simp [ha.symm, hb.symm])]
  by_cases hfa : a ∈ filled <;> by_cases hfb : b ∈ filled <;>
    simp [EntrySatisfied, hfa, hfb]

/-- What the loop over the filled codes asks of one of them. -/
def accepts (pairs : PairTable) (filled : List ℤ) (code : ℤ) : Bool :=
  pairs code = [] || matchValues filled (-1) (pairs code)

/-- The loop over the filled codes ends at the first that is not accepted. -/
theorem paircheckLoop_eq (rest : List ℤ) (hrest : 0 ∉ rest) :
    ∀ index, paircheckLoop pairs filled index rest =
      match rest.findIdx? fun code => !accepts pairs filled code with
      | none => 0
      | some i => index + i + 1 := by
  induction rest with
  | nil =>
    intro index
    rfl
  | cons code rest ih =>
    intro index
    obtain ⟨hcode, hrest⟩ : 0 ≠ code ∧ 0 ∉ rest := by simpa using hrest
    have hstep : paircheckLoop pairs filled index (code :: rest) =
        if accepts pairs filled code then paircheckLoop pairs filled (index + 1) rest
        else index + 1 := by
      rw [paircheckLoop, if_neg hcode.symm]
      by_cases hempty : pairs code = [] <;> simp [accepts, hempty]
    rw [hstep, List.findIdx?_cons, ih hrest]
    cases haccepts : accepts pairs filled code with
    | false => simp
    | true =>
      cases rest.findIdx? fun code => !accepts pairs filled code with
      | none => simp
      | some i =>
        simp only [if_true, Bool.not_true, Bool.false_eq_true, if_false, Option.map_some]
        push_cast
        ring

/-- Two searches end at the same place when they agree up to the first hit. -/
theorem findIdx?_eq_findIdx?_iff {α : Type*} {p q : α → Bool} {xs : List α} :
    xs.findIdx? p = xs.findIdx? q ↔
      ∀ before x after, xs = before ++ x :: after → (∀ y ∈ before, q y = false) → p x = q x := by
  induction xs with
  | nil => simp
  | cons a xs ih =>
    rw [List.findIdx?_cons, List.findIdx?_cons]
    constructor
    · intro h before x after heq hbefore
      cases before with
      | nil =>
        obtain ⟨rfl, rfl⟩ := List.cons.inj heq
        cases hp : p a <;> cases hq : q a <;> simp_all
      | cons b before =>
        obtain ⟨rfl, rfl⟩ := List.cons.inj heq
        have hqa : q a = false := hbefore a (by simp)
        have hpa : p a = false := by
          cases hp : p a with
          | false => rfl
          | true => simp [hp, hqa] at h
        refine ih.1 ?_ before x after rfl fun y hy => hbefore y (by simp [hy])
        rw [if_neg (by simp [hpa]), if_neg (by simp [hqa])] at h
        exact Option.map_injective (add_left_injective 1) h
    · intro h
      have hhead : p a = q a := h [] a xs rfl (by simp)
      cases hq : q a with
      | true => simp [hhead, hq]
      | false =>
        have htail : xs.findIdx? p = xs.findIdx? q := by
          refine ih.2 fun before x after heq hbefore => ?_
          refine h (a :: before) x after (by simp [heq]) ?_
          intro y hy
          rcases List.mem_cons.1 hy with rfl | hy
          · exact hq
          · exact hbefore y hy
        simp [hhead, hq, htail]

/-- `paircheck` finds the first filled code whose entry is not satisfied exactly if,
of the filled codes with no unsatisfied one in front, the two matches its loop counts
say the same as the entry. -/
theorem paircheck_iff (hne : filled ≠ []) (hcodes : ∀ code ∈ filled, 100 ≤ code) :
    paircheck (some pairs) filled = firstUnsatisfied pairs filled ↔
      ∀ before code after, filled = before ++ code :: after →
        (∀ code ∈ before, Satisfied pairs filled code) → pairs code ≠ [] →
        (Matched filled (pairs code) ↔ EntrySatisfied filled (pairs code)) := by
  have hzero : 0 ∉ filled := fun h => absurd (hcodes 0 h) (by norm_num)
  have hone : 1 ∉ filled := fun h => absurd (hcodes 1 h) (by norm_num)
  have hloop : paircheck (some pairs) filled = firstUnsatisfied pairs filled ↔
      filled.findIdx? (fun code => !accepts pairs filled code) =
        filled.findIdx? fun code => !decide (Satisfied pairs filled code) := by
    rw [paircheck, if_neg hne, paircheckLoop_eq filled hzero, firstUnsatisfied]
    cases filled.findIdx? fun code => !accepts pairs filled code <;>
      cases filled.findIdx? fun code => !decide (Satisfied pairs filled code) <;>
      simp <;> omega
  rw [hloop, findIdx?_eq_findIdx?_iff]
  refine forall₃_congr fun before code after => imp_congr_right fun heq => ?_
  refine imp_congr (by simp) ?_
  have haccepts : accepts pairs filled code = true ↔
      (pairs code ≠ [] → Matched filled (pairs code)) := by
    rw [Matched, ← show needed (-1) = 1 from rfl, ← matchValues_iff hone _ (.inl rfl)]
    by_cases hempty : pairs code = [] <;> simp [accepts, hempty]
  rw [Bool.not_inj_iff, Bool.eq_iff_iff, haccepts, decide_eq_true_iff, Satisfied]
  tauto

end Pairs

/-- The filled codes are matched against the entry `194 002 192 193`. -/
theorem paircheck_sample :
    let pairs : PairTable := fun code => if code = 194 then [2, 192, 193] else []
    paircheck (some pairs) [194, 192, 193] = firstUnsatisfied pairs [194, 192, 193] := by
  intro pairs
  have h := @paircheck_iff pairs [194, 192, 193] (by decide) (by decide)
  refine h.2 fun before code after _ _ _ => ?_
  by_cases hcode : code = 194
  · simp only [pairs, if_pos hcode]
    exact matched_pair_iff_entrySatisfied (by decide) (by decide)
  · exact absurd (if_neg hcode) ‹pairs code ≠ []›

/-- Of the three codes the entry `100 002 101 102 103` asks for, two will do. -/
theorem paircheck_three_codes :
    let pairs : PairTable := fun code => if code = 100 then [2, 101, 102, 103] else []
    paircheck (some pairs) [100, 101, 102] = 0 ∧
      ¬ EntrySatisfied [100, 101, 102] (pairs 100) ∧
      firstUnsatisfied pairs [100, 101, 102] = 1 := by
  decide

/-! ### The entries of a group -/

def WITH_F_MIN : ℕ := 12

def WITHOUT_F_MIN : ℕ := 10

/-- `(int) strtol(code, NULL, 10)` -/
def codeval (code : Bytes) : ℤ := toInt32 (strtol code)

/-- The codes of a filled list are collected, or an entry is refused (`some none`). The
entries can run out in front of their terminating `NULL`, which `strlen` crashes on. -/
def fillEntries (sublist : List ℤ) : ℕ → List Bytes → List ℤ → Option (Option (List ℤ))
  | 0, _, local_list => some (some local_list)
  | _ + 1, [], _ => none
  | total + 1, code :: codes, local_list =>
    if code.length = 0 then some none
    else if code.length < 3 then some none
    else if codeval code ∉ sublist then some none
    else if codeval code ∉ local_list then
      fillEntries sublist total codes (local_list ++ [codeval code])
    else some none

/-- The number of entries the loops go by: 10 or 12, and one for each special code of
all entries. -/
def totalSub (special : List ℤ) (codes : List Bytes) : ℕ :=
  (if codeval (codes.getD (NUM_TOTAL_SUB - 1) []) = 0 then WITHOUT_F_MIN else WITH_F_MIN) +
    codes.countP (codeval · ∈ special)

/-- `verify_subject_codes_by_group(widget, codes, filename, fourthsubfile)`: 0 if the
entries are accepted. A list is `none` when its file cannot be opened. -/
def verifySubjectCodesByGroup (sublist fourthsublist special : Option (List ℤ))
    (pairs : Option PairTable) (codes : List Bytes) : Option ℤ :=
  match sublist, fourthsublist with
  | some sublist, some fourthsublist =>
    let fourth := codeval (codes.getD (NUM_TOTAL_SUB - 1) [])
    if fourth ≠ 0 ∧ fourth < 100 then some 1
    else if fourth ≠ 0 ∧ fourth ∉ fourthsublist then some 1
    else match special with
      | none => some 1
      | some special =>
        let total_sub := totalSub special codes
        match fillEntries sublist total_sub codes [] with
        | none => none
        | some none => some 1
        | some (some local_list) =>
          if paircheck pairs local_list ≠ 0 then some 1
          else if 12 ≤ total_sub ∧ fourth ∉ local_list then some 1
          -- the entries between the filled ones and the fourth subject must be empty
          else if ((codes.take (NUM_TOTAL_SUB - 1)).drop total_sub).any (0 < ·.length) then some 1
          else some 0
  | _, _ => some 1

/-- The fourth subject, 0 if there is none. -/
def fourth (codes : List Bytes) : ℤ := codeval (codes.getD (NUM_TOTAL_SUB - 1) [])

/-- The number of entries the rules ask for: 10 without and 12 with a fourth subject,
and one for each special code in the first 16 entries. -/
def expectedSub (special : List ℤ) (codes : List Bytes) : ℕ :=
  (if fourth codes = 0 then WITHOUT_F_MIN else WITH_F_MIN) +
    (((codes.take (NUM_TOTAL_SUB - 1)).filter (· ≠ [])).map codeval |>.filter
      (· ∈ special)).toFinset.card

/-- The first `n` entries hold different codes of the group that pass the pair check,
and the other entries in front of the fourth subject are empty. -/
structure Filled (sublist : List ℤ) (pairs : PairTable) (codes : List Bytes) (n : ℕ) : Prop where
  entries : ∀ code ∈ codes.take n, 3 ≤ code.length ∧ codeval code ∈ sublist
  different : ((codes.take n).map codeval).Nodup
  paired : paircheck (some pairs) ((codes.take n).map codeval) = 0
  empty : ∀ code ∈ (codes.take (NUM_TOTAL_SUB - 1)).drop n, code = []

/-- A form with `n` entries to fill in is right. -/
structure Right (sublist fourthsublist : List ℤ) (pairs : PairTable) (codes : List Bytes)
    (n : ℕ) : Prop where
  le : n ≤ NUM_TOTAL_SUB - 1
  filled : Filled sublist pairs codes n
  listed : fourth codes ≠ 0 → fourth codes ∈ fourthsublist
  present : fourth codes ≠ 0 → fourth codes ∈ (codes.take n).map codeval

/-- The number of entries the rules ask for, with one more for a fourth subject that is special
itself, and, where the list of special codes has a 0, one more for each blank entry. -/
def countedSub (special : List ℤ) (codes : List Bytes) : ℕ :=
  expectedSub special codes + (if fourth codes ∈ special then 1 else 0) +
    if 0 ∈ special then (codes.take (NUM_TOTAL_SUB - 1)).countP (· = []) else 0

/-- A fourth subject is no number below 100, and one that is not given is not missed: 12 entries
to fill in are taken for a form with a fourth subject. -/
def FourthFits (codes : List Bytes) (n : ℕ) : Prop :=
  (fourth codes ≠ 0 → 100 ≤ fourth codes) ∧
    (fourth codes = 0 → n < 12 ∨ 0 ∈ (codes.take n).map codeval)

/-- The form is of none of the kinds the check is wrong about. -/
structure WellCounted (sublist fourthsublist special : List ℤ) (pairs : PairTable)
    (codes : List Bytes) : Prop where
  /-- No right form has a special fourth subject, or blanks where 0 is special, unless the fourth
  subject is `000` and stands as one entry more; nor has it a fourth subject that does not fit. -/
  right : Right sublist fourthsublist pairs codes (expectedSub special codes) →
    countedSub special codes = expectedSub special codes ∧
        FourthFits codes (expectedSub special codes) ∨
      countedSub special codes = NUM_TOTAL_SUB ∧ Filled sublist pairs codes NUM_TOTAL_SUB
  /-- The form is not right for a number of entries with these counted in. -/
  miscounted : expectedSub special codes < countedSub special codes →
    countedSub special codes ≤ NUM_TOTAL_SUB - 1 →
    Right sublist fourthsublist pairs codes (countedSub special codes) →
      ¬ FourthFits codes (countedSub special codes)
  /-- Nor does it fill all 17 entries, that of the fourth subject among them. -/
  overfilled : countedSub special codes = NUM_TOTAL_SUB →
    Filled sublist pairs codes NUM_TOTAL_SUB →
    (fourth codes ≠ 0 → 100 ≤ fourth codes ∧ fourth codes ∈ fourthsublist) →
      Right sublist fourthsublist pairs codes (expectedSub special codes)

/-- What the check asks of a form with the counter at `n`. -/
structure Accepted (sublist fourthsublist : List ℤ) (pairs : PairTable) (codes : List Bytes)
    (n : ℕ) : Prop where
  le : n ≤ NUM_TOTAL_SUB
  filled : Filled sublist pairs codes n
  listed : fourth codes ≠ 0 → 100 ≤ fourth codes ∧ fourth codes ∈ fourthsublist
  present : 12 ≤ n → fourth codes ∈ (codes.take n).map codeval

section Group

variable {sublist fourthsublist special : List ℤ} {pairs : PairTable} {codes : List Bytes}

/-- The loop over the entries, with the codes in `local_list` collected. -/
theorem fillEntries_eq_some_iff (total : ℕ) (codes : List Bytes) :
    ∀ {local_list filled : List ℤ}, local_list.Nodup →
      (fillEntries sublist total codes local_list = some (some filled) ↔
        total ≤ codes.length ∧
        (∀ code ∈ codes.take total, 3 ≤ code.length ∧ codeval code ∈ sublist) ∧
        (local_list ++ (codes.take total).map codeval).Nodup ∧
        filled = local_list ++ (codes.take total).map codeval) := by
  induction total generalizing codes with
  | zero =>
    intro local_list filled hnodup
    simp [fillEntries, hnodup, eq_comm]
  | succ total ih =>
    intro local_list filled hnodup
    cases codes with
    | nil => simp [fillEntries]
    | cons code codes =>
      have happend : local_list ++ ((code :: codes).take (total + 1)).map codeval =
          (local_list ++ [codeval code]) ++ (codes.take total).map codeval := by simp
      rw [happend]
      rw [fillEntries]
      -- an empty entry is one of the short ones
      by_cases hshort : code.length < 3
      · refine iff_of_false (by simp [hshort]) ?_
        rintro ⟨-, hcodes, -⟩
        have hcode := hcodes code (by simp)
        omega
      by_cases hlisted : codeval code ∈ sublist
      · rw [if_neg (by omega), if_neg hshort, if_neg (not_not.2 hlisted)]
        by_cases hfresh : codeval code ∈ local_list
        · rw [if_neg (not_not.2 hfresh)]
          refine iff_of_false (by simp) ?_
          rintro ⟨-, -, hdifferent, -⟩
          have hleft := (List.nodup_append.1 (List.nodup_append.1 hdifferent).1).2.2
          exact hleft _ hfresh _ (by simp) rfl
        · rw [if_pos hfresh,
            ih codes (hnodup.append (List.nodup_singleton _) (by simpa using hfresh))]
          have hcode : 3 ≤ code.length ∧ codeval code ∈ sublist := ⟨by omega, hlisted⟩
          simp [hcode]
      · refine iff_of_false (by simp [hlisted]) ?_
        rintro ⟨-, hcodes, -⟩
        exact hlisted (hcodes code (by simp)).2

/-- The check accepts what it asks for. -/
theorem verifySubjectCodesByGroup_eq_zero_iff (hcodes : codes.length = NUM_TOTAL_SUB) :
    verifySubjectCodesByGroup (some sublist) (some fourthsublist) (some special) (some pairs)
        codes = some 0 ↔
      Accepted sublist fourthsublist pairs codes (totalSub special codes) := by
  have hdef : codeval (codes.getD (NUM_TOTAL_SUB - 1) []) = fourth codes := rfl
  have hfill := @fillEntries_eq_some_iff sublist (totalSub special codes) codes []
  simp only [verifySubjectCodesByGroup, hdef]
  constructor
  · intro h
    by_cases hlow : fourth codes ≠ 0 ∧ fourth codes < 100
    · rw [if_pos hlow] at h
      simp at h
    by_cases hlist : fourth codes ≠ 0 ∧ fourth codes ∉ fourthsublist
    · rw [if_neg hlow, if_pos hlist] at h
      simp at h
    rw [if_neg hlow, if_neg hlist] at h
    cases hfilled : fillEntries sublist (totalSub special codes) codes [] with
    | none => simp [hfilled] at h
    | some result =>
      cases result with
      | none => simp [hfilled] at h
      | some local_list =>
        obtain ⟨hle, hentries, hdifferent, rfl⟩ := (hfill List.nodup_nil).1 hfilled
        simp only [hfilled, List.nil_append] at h hdifferent
        by_cases hpaired :
          paircheck (some pairs) ((codes.take (totalSub special codes)).map codeval) = 0
        · by_cases hpresent : 12 ≤ totalSub special codes →
            fourth codes ∈ (codes.take (totalSub special codes)).map codeval
          · rw [if_neg (not_not.2 hpaired), if_neg (by tauto)] at h
            split_ifs at h with hextra
            · simp at h
            refine ⟨hcodes ▸ hle, ⟨hentries, hdifferent, hpaired, by simpa using hextra⟩, ?_,
              hpresent⟩
            intro hgiven
            exact ⟨by omega, by tauto⟩
          · rw [if_neg (not_not.2 hpaired), if_pos (by tauto)] at h
            simp at h
        · rw [if_pos hpaired] at h
          simp at h
  · intro h
    rw [if_neg fun hlow => absurd (h.listed hlow.1).1 (by omega),
      if_neg fun hlist => hlist.2 (h.listed hlist.1).2]
    have hfilled := (hfill List.nodup_nil).2
      ⟨hcodes ▸ h.le, h.filled.entries, by simpa using h.filled.different, rfl⟩
    simp only [hfilled, List.nil_append]
    rw [if_neg (by simpa using h.filled.paired), if_neg fun hlate => hlate.2 (h.present hlate.1),
      if_neg (by simpa using h.filled.empty)]

/-- A form filled with two numbers of entries counts the fourth subject as one. -/
theorem Filled.le_of_lt {m n : ℕ} (hcodes : codes.length = NUM_TOTAL_SUB)
    (hm : Filled sublist pairs codes m) (hn : Filled sublist pairs codes n) (hlt : m < n) :
    NUM_TOTAL_SUB - 1 ≤ m := by
  by_contra hle
  have hm' : m < codes.length := by unfold NUM_TOTAL_SUB at *; omega
  have hempty : codes[m] = [] := by
    refine hm.empty _ (List.mem_iff_getElem.2 ⟨0, ?_, ?_⟩)
    · simp only [List.length_drop, List.length_take]
      omega
    · simp
  have hfull := (hn.entries codes[m] (List.mem_iff_getElem.2 ⟨m, by simp; omega, by simp⟩)).1
  simp [hempty] at hfull

/-- A form that is filled for some number has no code twice. -/
theorem Filled.nodup {n : ℕ} (h : Filled sublist pairs codes n) :
    (((codes.take (NUM_TOTAL_SUB - 1)).filter (· ≠ [])).map codeval).Nodup := by
  refine h.different.sublist (List.Sublist.map codeval ?_)
  rcases Nat.le_total n (NUM_TOTAL_SUB - 1) with hle | hle
  · -- behind the first `n` entries there are blanks only
    have hsplit : codes.take (NUM_TOTAL_SUB - 1) =
        codes.take n ++ (codes.take (NUM_TOTAL_SUB - 1)).drop n := by
      have hall := List.take_append_drop n (codes.take (NUM_TOTAL_SUB - 1))
      rw [List.take_take, min_eq_left hle] at hall
      exact hall.symm
    have hblank : ((codes.take (NUM_TOTAL_SUB - 1)).drop n).filter (· ≠ []) = [] :=
      List.filter_eq_nil_iff.mpr fun code hcode => by simp [h.empty code hcode]
    rw [hsplit, List.filter_append, hblank, List.append_nil]
    exact List.filter_sublist
  · exact List.filter_sublist.trans (List.take_sublist_take_left hle)

theorem take_append_fourth (hcodes : codes.length = NUM_TOTAL_SUB) :
    codes.take (NUM_TOTAL_SUB - 1) ++ [codes.getD (NUM_TOTAL_SUB - 1) []] = codes := by
  have hlt : NUM_TOTAL_SUB - 1 < codes.length := by rw [hcodes]; decide
  have hlast : codes.getD (NUM_TOTAL_SUB - 1) [] = codes[NUM_TOTAL_SUB - 1] := by
    simp [List.getD, hlt]
  rw [hlast, List.take_append_getElem hlt]
  exact List.take_of_length_le hcodes.le

/-- The codes of a list of entries without a code twice: as many as there are different ones, and
the blanks. -/
theorem countP_special (entries : List Bytes)
    (hnodup : ((entries.filter (· ≠ [])).map codeval).Nodup) :
    entries.countP (codeval · ∈ special) =
      (((entries.filter (· ≠ [])).map codeval).filter (· ∈ special)).toFinset.card +
        if 0 ∈ special then entries.countP (· = []) else 0 := by
  have hblank : codeval [] = 0 := by decide
  rw [List.countP_eq_countP_filter_add entries _ (· ≠ []), List.toFinset_card_of_nodup
    (hnodup.filter _), ← List.countP_eq_length_filter, List.countP_map]
  refine congrArg₂ _ rfl ?_
  rw [List.countP_filter]
  split_ifs with hzero
  · refine List.countP_congr fun code _ => ?_
    by_cases hcode : code = [] <;> simp [hcode, hblank, hzero]
  · refine List.countP_eq_zero.mpr fun code _ => ?_
    by_cases hcode : code = [] <;> simp [hcode, hblank, hzero]

/-- Where no code stands twice the counter is at the number with the fourth subject and the blanks
counted in. -/
theorem totalSub_eq_countedSub (hcodes : codes.length = NUM_TOTAL_SUB) {n : ℕ}
    (h : Filled sublist pairs codes n) : totalSub special codes = countedSub special codes := by
  have hcount : codes.countP (codeval · ∈ special) =
      (codes.take (NUM_TOTAL_SUB - 1)).countP (codeval · ∈ special) +
        if fourth codes ∈ special then 1 else 0 := by
    conv_lhs => rw [← take_append_fourth hcodes]
    rw [List.countP_append, List.countP_singleton]
    simp [fourth]
  rw [totalSub, hcount, countP_special _ h.nodup, countedSub, expectedSub, fourth]
  omega

/-- Behind the counter the two ask the same, but for the fourth subject. -/
theorem accepted_iff {n : ℕ} (hle : n ≤ NUM_TOTAL_SUB - 1) (hn : expectedSub special codes ≤ n) :
    Accepted sublist fourthsublist pairs codes n ↔
      Right sublist fourthsublist pairs codes n ∧ FourthFits codes n := by
  have hgiven : fourth codes ≠ 0 → 12 ≤ n := by
    intro hgiven
    rw [expectedSub, if_neg hgiven, WITH_F_MIN] at hn
    omega
  constructor
  · intro h
    refine ⟨⟨hle, h.filled, fun hf => (h.listed hf).2, fun hf => h.present (hgiven hf)⟩,
      fun hf => (h.listed hf).1, fun hf => ?_⟩
    rcases Nat.lt_or_ge n 12 with hlt | hge
    · exact .inl hlt
    · exact .inr (hf ▸ h.present hge)
  · rintro ⟨hright, hlow, hnone⟩
    refine ⟨by omega, hright.filled, fun hf => ⟨hlow hf, hright.listed hf⟩, fun hlate => ?_⟩
    by_cases hf : fourth codes = 0
    · rcases hnone hf with hlt | hzero
      · omega
      · exact hf ▸ hzero
    · exact hright.present hf

/-- A form that fills all entries fills that of the fourth subject. -/
theorem accepted_all_iff (hcodes : codes.length = NUM_TOTAL_SUB) :
    Accepted sublist fourthsublist pairs codes NUM_TOTAL_SUB ↔
      Filled sublist pairs codes NUM_TOTAL_SUB ∧
        (fourth codes ≠ 0 → 100 ≤ fourth codes ∧ fourth codes ∈ fourthsublist) := by
  have hpresent : fourth codes ∈ (codes.take NUM_TOTAL_SUB).map codeval := by
    have hmem : codes.getD (NUM_TOTAL_SUB - 1) [] ∈
        codes.take (NUM_TOTAL_SUB - 1) ++ [codes.getD (NUM_TOTAL_SUB - 1) []] :=
      List.mem_append_right _ (List.mem_singleton_self _)
    rw [take_append_fourth hcodes] at hmem
    rw [List.take_of_length_le hcodes.le]
    exact List.mem_map_of_mem hmem
  exact ⟨fun h => ⟨h.filled, h.listed⟩, fun h => ⟨le_rfl, h.1, h.2, fun _ => hpresent⟩⟩

/-- The check is right about just the forms that are well counted: with `n` for the number of
entries the rules ask for, and one more for a special fourth subject and for each blank where 0 is
special, a right form has `n` entries to fill in and a fourth subject that fits, and no other form
is right for `n` entries or fills all of them. -/
theorem verify_by_group_iff (hcodes : codes.length = NUM_TOTAL_SUB) :
    (verifySubjectCodesByGroup (some sublist) (some fourthsublist) (some special) (some pairs)
          codes = some 0 ↔
        Right sublist fourthsublist pairs codes (expectedSub special codes)) ↔
      WellCounted sublist fourthsublist special pairs codes := by
  rw [verifySubjectCodesByGroup_eq_zero_iff hcodes]
  have hge : expectedSub special codes ≤ countedSub special codes := by
    unfold countedSub
    omega
  constructor
  · intro h
    refine ⟨fun hright => ?_, fun hlt hle hmis hfits => ?_, fun hall hfilled hlisted => ?_⟩
    · have haccepted := h.2 hright
      rw [totalSub_eq_countedSub hcodes hright.filled] at haccepted
      rcases hge.eq_or_lt with heq | hlt
      · rw [← heq] at haccepted ⊢
        exact .inl ⟨rfl, ((accepted_iff hright.le le_rfl).mp haccepted).2⟩
      · -- both numbers are filled: the second is that of all entries
        have hlast := hright.filled.le_of_lt hcodes haccepted.filled hlt
        have hright' := hright.le
        have haccepted' := haccepted.le
        have hall : countedSub special codes = NUM_TOTAL_SUB := by omega
        exact .inr ⟨hall, hall ▸ haccepted.filled⟩
    · have haccepted : Accepted sublist fourthsublist pairs codes (totalSub special codes) := by
        rw [totalSub_eq_countedSub hcodes hmis.filled]
        exact (accepted_iff hle hge).mpr ⟨hmis, hfits⟩
      have hlast := (h.1 haccepted).filled.le_of_lt hcodes hmis.filled hlt
      omega
    · refine h.1 ?_
      rw [totalSub_eq_countedSub hcodes hfilled, hall]
      exact (accepted_all_iff hcodes).mpr ⟨hfilled, hlisted⟩
  · intro h
    constructor
    · intro haccepted
      have hcount := @totalSub_eq_countedSub sublist special pairs codes hcodes _ haccepted.filled
      rw [hcount] at haccepted
      rcases Nat.lt_or_ge (NUM_TOTAL_SUB - 1) (countedSub special codes) with hlast | hle
      · have hall : countedSub special codes = NUM_TOTAL_SUB := by
          have := haccepted.le
          omega
        rw [hall] at haccepted
        obtain ⟨hfilled, hlisted⟩ := (accepted_all_iff hcodes).mp haccepted
        exact h.overfilled hall hfilled hlisted
      · obtain ⟨hright, hfits⟩ := (accepted_iff hle hge).mp haccepted
        rcases hge.eq_or_lt with heq | hlt
        · rwa [heq]
        · exact absurd hfits (h.miscounted hlt hle hright)
    · intro hright
      rw [totalSub_eq_countedSub hcodes hright.filled]
      rcases h.right hright with ⟨heq, hfits⟩ | ⟨hall, hfilled⟩
      · rw [heq]
        exact (accepted_iff hright.le le_rfl).mpr ⟨hright, hfits⟩
      · rw [hall]
        refine (accepted_all_iff hcodes).mpr ⟨hfilled, fun hgiven => ?_⟩
        -- the fourth subject is one of the first 16 entries, and stands behind them once more
        obtain ⟨code, hcode, hval⟩ := List.mem_map.mp (hright.present hgiven)
        have hdifferent := hfilled.different
        rw [List.take_of_length_le hcodes.le, ← take_append_fourth hcodes, List.map_append]
          at hdifferent
        exact absurd hval ((List.nodup_append.mp hdifferent).2.2 _
          (List.mem_map_of_mem (List.take_subset_take_left _ hright.le hcode)) _
          (List.mem_singleton_self _))

end Group

/-! ### The lists of the home economics group -/

def subHomeEco : List ℤ :=
  [101, 102, 107, 108, 109, 110, 111, 112, 123, 124, 192, 193, 194, 197, 198, 199, 200, 203,
    207, 208, 231, 232, 235, 236, 237, 238, 239, 240, 245, 246, 247, 248, 249, 250, 255, 256]

def subFourthHomeEco : List ℤ := [109, 111, 123, 199, 231, 235, 237, 239, 249]

/-- The pairs of the codes filled below. -/
def pairsHomeEco : PairTable := fun code =>
  match code with
  | 194 => [2, 192, 193]
  | 192 | 193 => [194]
  | 199 => [1, 200, 201]
  | 200 | 203 => [199]
  | _ => if code % 2 = 1 then [code + 1] else [code - 1]

/-- A form with ten entries, no special code and no fourth subject. -/
def plainForm : List Bytes :=
  ["101", "102", "107", "108", "109", "110", "111", "112", "123", "124"].map ascii ++
    List.replicate 7 []

theorem verify_by_group_sample :
    verifySubjectCodesByGroup (some subHomeEco) (some subFourthHomeEco) (some [194, 199])
        (some pairsHomeEco) plainForm = some 0 ↔
      Right subHomeEco subFourthHomeEco pairsHomeEco plainForm
        (expectedSub [194, 199] plainForm) := by
  refine (verify_by_group_iff (by decide)).2 ?_
  have hcount : countedSub [194, 199] plainForm = expectedSub [194, 199] plainForm := by decide
  have hexpected : expectedSub [194, 199] plainForm = 10 := by decide
  have hnone : fourth plainForm = 0 := by decide
  refine ⟨fun _ => .inl ⟨hcount, fun hgiven => absurd hnone hgiven, fun _ => .inl ?_⟩,
    fun hlt => ?_, fun hall => ?_⟩
  · omega
  · omega
  · rw [hcount, hexpected] at hall
    exact absurd hall (by decide)

/-- A form with the fourth subject 199, which is special and one of the thirteen
entries to fill in. -/
def specialFourthForm : List Bytes :=
  ["101", "102", "107", "108", "109", "110", "111", "112", "123", "124", "199", "200",
    "203"].map ascii ++ List.replicate 3 [] ++ [ascii "199"]

/-- A form with both special codes, twelve entries to fill in and no fourth subject. -/
def twoSpecialForm : List Bytes :=
  ["101", "102", "107", "108", "109", "110", "194", "192", "193", "199", "200", "203"].map
    ascii ++ List.replicate 5 []

/-- Both forms are right and refused. -/
theorem verify_by_group_refuses :
    (Right subHomeEco subFourthHomeEco pairsHomeEco specialFourthForm
        (expectedSub [194, 199] specialFourthForm) ∧
      verifySubjectCodesByGroup (some subHomeEco) (some subFourthHomeEco) (some [194, 199])
        (some pairsHomeEco) specialFourthForm = some 1) ∧
    Right subHomeEco subFourthHomeEco pairsHomeEco twoSpecialForm
        (expectedSub [194, 199] twoSpecialForm) ∧
      verifySubjectCodesByGroup (some subHomeEco) (some subFourthHomeEco) (some [194, 199])
        (some pairsHomeEco) twoSpecialForm = some 1 := by
  refine ⟨⟨⟨?_, ⟨?_, ?_, ?_, ?_⟩, ?_, ?_⟩, ?_⟩, ⟨?_, ⟨?_, ?_, ?_, ?_⟩, ?_, ?_⟩, ?_⟩
    <;> decide +kernel

end Esif.Client
