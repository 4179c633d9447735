import Esif.Client.Subjects

/-!
# What the check of the subject codes touches

`verify_subject_codes_by_group` counts the entries to fill in up from the special codes
it finds, and goes through that many elements of `codes`, an array of 17 entries and a
`NULL`. The elements it dereferences and the entries it builds names of are listed in
the order of the code.

## Main definitions

* `readCodes` — the list a file of codes holds
* `Touch` — an element dereferenced, or the number of an entry
* `touches` — what the check touches, up to the `NULL` it crashes on

## Main results

* `touches_inside_iff` — when all of it is inside
-/

namespace Esif.Client

open Esif.Posix

/-- `while (fscanf(fp, "%d", &codeval) > 0)`: each turn takes a digit at least, so there
are no more than the bytes of the file. -/
def readCodesLoop : ℕ → Bytes → List ℤ
  | 0, _ => []
  | fuel + 1, text =>
    match scanInt text with
    | none => []
    | some (codeval, rest) => codeval :: readCodesLoop fuel rest

/-- The list that a file of codes holds. -/
def readCodes (text : Bytes) : List ℤ := readCodesLoop text.length text

/-- An element of `codes` that is dereferenced, or the number in a name `"entry%d"`. -/
inductive Touch where
  | code (subidx : ℕ)
  | entry (number : ℤ)
  deriving DecidableEq, Repr

/-- One of the 17 elements in front of the `NULL`, or one of the entries 15 to 31. -/
def Touch.Inside : Touch → Prop
  | .code subidx => subidx < NUM_TOTAL_SUB
  | .entry number => 15 ≤ number ∧ number ≤ 31

instance : DecidablePred Touch.Inside
  | .code subidx => inferInstanceAs (Decidable (subidx < NUM_TOTAL_SUB))
  | .entry number => inferInstanceAs (Decidable (15 ≤ number ∧ number ≤ 31))

/-- The loop over the entries to fill in, `subidx` of them done: the name of the entry is
built where one is refused. -/
def fillTouches (sublist : List ℤ) : ℕ → ℕ → List Bytes → List ℤ → List Touch
  | 0, _, _, _ => []
  -- `strlen(NULL)`
  | _ + 1, subidx, [], _ => [.code subidx]
  | total + 1, subidx, code :: codes, local_list =>
    .code subidx ::
      if code.length = 0 then [.entry (subidx + 15)]
      else if code.length < 3 then [.entry (subidx + 15)]
      else if codeval code ∉ sublist then [.entry (subidx + 15)]
      else if codeval code ∉ local_list then
        fillTouches sublist total (subidx + 1) codes (local_list ++ [codeval code])
      else [.entry (subidx + 15)]

/-- The loop over the entries that must be empty. -/
def extraTouches : ℕ → List Bytes → List Touch
  | _, [] => []
  | subidx, code :: codes =>
    .code subidx ::
      if 0 < code.length then [.entry (subidx + 15)] else extraTouches (subidx + 1) codes

/-- What `verify_subject_codes_by_group` touches. -/
def touches (sublist fourthsublist special : Option (List ℤ)) (pairs : Option PairTable)
    (codes : List Bytes) : List Touch :=
  match sublist, fourthsublist with
  | some sublist, some fourthsublist =>
    .code (NUM_TOTAL_SUB - 1) ::
      if fourth codes ≠ 0 ∧ fourth codes < 100 then [.entry (NUM_TOTAL_SUB - 1 + 15)]
      else if fourth codes ≠ 0 ∧ fourth codes ∉ fourthsublist then
        [.entry (NUM_TOTAL_SUB - 1 + 15)]
      else match special with
        | none => []
        | some special =>
          let total_sub := totalSub special codes
          -- the special codes are counted up to the `NULL`
          (List.range codes.length).map .code ++ fillTouches sublist total_sub 0 codes [] ++
            match fillEntries sublist total_sub codes [] with
            | some (some local_list) =>
              if paircheck pairs local_list < 0 then []
              else if paircheck pairs local_list ≠ 0 then
                [.entry (paircheck pairs local_list + 15 - 1)]
              else if 12 ≤ total_sub ∧ fourth codes ∉ local_list then []
              else extraTouches total_sub ((codes.take (NUM_TOTAL_SUB - 1)).drop total_sub)
            | _ => []
  | _, _ => []

section Touches

variable {sublist fourthsublist special local_list : List ℤ} {pairs : Option PairTable}
  {codes : List Bytes} {total subidx : ℕ}

/-- The loop over the entries runs into the `NULL` exactly when it is to go beyond them and
none of them is refused. -/
theorem fillEntries_eq_none_iff (total : ℕ) (codes : List Bytes) :
    ∀ {local_list : List ℤ}, local_list.Nodup →
      (fillEntries sublist total codes local_list = none ↔
        codes.length < total ∧
        (∀ code ∈ codes, 3 ≤ code.length ∧ codeval code ∈ sublist) ∧
        (local_list ++ codes.map codeval).Nodup) := by
  induction total generalizing codes with
  | zero => simp [fillEntries]
  | succ total ih =>
    intro local_list hnodup
    cases codes with
    | nil => simp [fillEntries, hnodup]
    | cons code codes =>
      have happend : local_list ++ (code :: codes).map codeval =
          (local_list ++ [codeval code]) ++ codes.map codeval := by simp
      rw [happend, fillEntries]
      by_cases hshort : code.length < 3
      · refine iff_of_false (by split_ifs <;> simp) ?_
        rintro ⟨-, hcodes, -⟩
        have hcode := hcodes code (by simp)
        omega
      by_cases hlisted : codeval code ∈ sublist
      · rw [if_neg (by omega), if_neg hshort, if_neg (not_not.2 hlisted)]
        by_cases hfresh : codeval code ∈ local_list
        · rw [if_neg (not_not.2 hfresh)]
          refine iff_of_false (by simp) ?_
          rintro ⟨-, -, hdifferent⟩
          have hleft := (List.nodup_append.1 (List.nodup_append.1 hdifferent).1).2.2
          exact hleft _ hfresh _ (by simp) rfl
        · rw [if_pos hfresh,
            ih codes (hnodup.append (List.nodup_singleton _) (by simpa using hfresh))]
          have hcode : 3 ≤ code.length ∧ codeval code ∈ sublist := ⟨by omega, hlisted⟩
          simp [hcode]
      · refine iff_of_false (by split_ifs <;> simp) ?_
        rintro ⟨-, hcodes, -⟩
        exact hlisted (hcodes code (by simp)).2

/-- The loop over the entries stays inside exactly when it does not run into the `NULL`. -/
theorem fillTouches_inside_iff (total : ℕ) (codes : List Bytes) :
    ∀ {subidx : ℕ} {local_list : List ℤ}, subidx + codes.length = NUM_TOTAL_SUB →
      ((∀ touch ∈ fillTouches sublist total subidx codes local_list, touch.Inside) ↔
        fillEntries sublist total codes local_list ≠ none) := by
  induction total generalizing codes with
  | zero => simp [fillTouches, fillEntries]
  | succ total ih =>
    intro subidx local_list hcount
    cases codes with
    | nil =>
      obtain rfl : subidx = NUM_TOTAL_SUB := by simpa using hcount
      simp [fillTouches, fillEntries, Touch.Inside]
    | cons code codes =>
      rw [List.length_cons] at hcount
      have hsubidx : subidx < NUM_TOTAL_SUB := by omega
      have hcode : (Touch.code subidx).Inside := hsubidx
      have hentry : (Touch.entry (subidx + 15)).Inside := by
        unfold NUM_TOTAL_SUB at hsubidx
        simp only [Touch.Inside]
        omega
      rw [fillTouches, fillEntries]
      have hrest := @ih codes (subidx + 1) (local_list ++ [codeval code]) (by omega)
      split_ifs <;> simp [hcode, hentry, hrest]

theorem extraTouches_inside (codes : List Bytes) :
    ∀ {subidx : ℕ}, subidx + codes.length ≤ NUM_TOTAL_SUB →
      ∀ touch ∈ extraTouches subidx codes, touch.Inside := by
  induction codes with
  | nil => simp [extraTouches]
  | cons code codes ih =>
    intro subidx hcount touch htouch
    rw [List.length_cons] at hcount
    have hsubidx : subidx < NUM_TOTAL_SUB := by omega
    rw [extraTouches] at htouch
    rcases List.mem_cons.mp htouch with rfl | htouch
    · exact hsubidx
    · split_ifs at htouch
      · obtain rfl := List.mem_singleton.mp htouch
        unfold NUM_TOTAL_SUB at hsubidx
        simp only [Touch.Inside]
        omega
      · exact ih (by omega) touch htouch

/-- `paircheck` returns -1, or the number of a filled code at most. -/
theorem paircheck_le (filled : List ℤ) : paircheck pairs filled ≤ filled.length := by
  have hloop : ∀ (table : PairTable) (rest : List ℤ) (index : ℤ), 0 ≤ index →
      paircheckLoop table filled index rest ≤ index + rest.length := by
    intro table rest
    induction rest with
    | nil =>
      intro index hindex
      simpa [paircheckLoop] using hindex
    | cons val rest ih =>
      intro index hindex
      have hnext := ih (index + 1) (by omega)
      rw [paircheckLoop, List.length_cons]
      split_ifs <;> push_cast <;> omega
  unfold paircheck
  split
  · omega
  · split_ifs
    · omega
    · simpa using hloop _ filled 0 le_rfl

/-- The check touches nothing outside exactly when it returns. -/
theorem touches_inside_iff_returns {sublist fourthsublist special : Option (List ℤ)}
    (hcodes : codes.length = NUM_TOTAL_SUB) :
    (∀ touch ∈ touches sublist fourthsublist special pairs codes, touch.Inside) ↔
      verifySubjectCodesByGroup sublist fourthsublist special pairs codes ≠ none := by
  have hdef : codeval (codes.getD (NUM_TOTAL_SUB - 1) []) = fourth codes := rfl
  have hlast : (Touch.code (NUM_TOTAL_SUB - 1)).Inside := by decide
  have hname : (Touch.entry (NUM_TOTAL_SUB - 1 + 15)).Inside := by decide
  cases sublist with
  | none => simp [touches, verifySubjectCodesByGroup]
  | some sublist =>
    cases fourthsublist with
    | none => simp [touches, verifySubjectCodesByGroup]
    | some fourthsublist =>
      simp only [touches, verifySubjectCodesByGroup, hdef, List.forall_mem_cons, hlast, true_and]
      split_ifs with hlow hlist
      · simpa using hname
      · simpa using hname
      · cases special with
        | none => simp
        | some special =>
          have hcount : ∀ touch ∈ (List.range codes.length).map Touch.code, touch.Inside := by
            simp only [List.mem_map, List.mem_range]
            rintro _ ⟨subidx, hsubidx, rfl⟩
            exact hsubidx.trans_eq hcodes
          have hfill := @fillTouches_inside_iff sublist (totalSub special codes) codes 0 []
            (by omega)
          have hfilled := @fillEntries_eq_some_iff sublist (totalSub special codes) codes []
          simp only [List.forall_mem_append, hfill]
          cases hresult : fillEntries sublist (totalSub special codes) codes [] with
          | none => simp
          | some result =>
            cases result with
            | none => simpa using hcount
            | some local_list =>
              obtain ⟨hle, -, -, rfl⟩ := (hfilled List.nodup_nil).1 hresult
              refine iff_of_true ⟨⟨hcount, by simp⟩, ?_⟩ (by dsimp only; split_ifs <;> simp)
              dsimp only
              split_ifs with hunknown hpair
              · simp
              · -- the number of a filled code names one of the entries
                have hindex := @paircheck_le pairs
                  ([] ++ (codes.take (totalSub special codes)).map codeval)
                simp only [List.nil_append, List.length_map, List.length_take] at hindex
                simp only [List.nil_append] at hunknown hpair
                rw [hcodes] at hle hindex
                simp only [List.nil_append, List.mem_singleton, forall_eq, Touch.Inside]
                unfold NUM_TOTAL_SUB at hle hindex
                omega
              · simp
              · rw [hcodes] at hle
                refine extraTouches_inside _ ?_
                simp only [List.length_drop, List.length_take]
                unfold NUM_TOTAL_SUB at hle ⊢
                omega

/-- The check does not return exactly if it comes to its loop over the entries, with a
counter above their number, and the loop refuses none of them. -/
theorem verifySubjectCodesByGroup_eq_none_iff {sublist fourthsublist special : Option (List ℤ)} :
    verifySubjectCodesByGroup sublist fourthsublist special pairs codes = none ↔
      ∃ listed fourths specials, sublist = some listed ∧ fourthsublist = some fourths ∧
        special = some specials ∧
        (fourth codes ≠ 0 → 100 ≤ fourth codes ∧ fourth codes ∈ fourths) ∧
        codes.length < totalSub specials codes ∧
        (∀ code ∈ codes, 3 ≤ code.length ∧ codeval code ∈ listed) ∧
        (codes.map codeval).Nodup := by
  have hdef : codeval (codes.getD (NUM_TOTAL_SUB - 1) []) = fourth codes := rfl
  cases sublist with
  | none => simp [verifySubjectCodesByGroup]
  | some listed =>
    cases fourthsublist with
    | none => simp [verifySubjectCodesByGroup]
    | some fourths =>
      cases special with
      | none =>
        simp only [verifySubjectCodesByGroup]
        refine iff_of_false (by split_ifs <;> simp) (by simp)
      | some specials =>
        have hfill := @fillEntries_eq_none_iff listed (totalSub specials codes) codes []
          List.nodup_nil
        simp only [List.nil_append] at hfill
        simp only [verifySubjectCodesByGroup, hdef, Option.some.injEq]
        constructor
        · intro h
          by_cases hlow : fourth codes ≠ 0 ∧ fourth codes < 100
          · rw [if_pos hlow] at h
            cases h
          by_cases hlist : fourth codes ≠ 0 ∧ fourth codes ∉ fourths
          · rw [if_neg hlow, if_pos hlist] at h
            cases h
          rw [if_neg hlow, if_neg hlist] at h
          have hnone : fillEntries listed (totalSub specials codes) codes [] = none := by
            cases hresult : fillEntries listed (totalSub specials codes) codes [] with
            | none => rfl
            | some result =>
              rw [hresult] at h
              cases result with
              | none => cases h
              | some local_list => dsimp only at h; split_ifs at h
          exact ⟨listed, fourths, specials, rfl, rfl, rfl,
            fun hgiven => ⟨by omega, by tauto⟩, hfill.mp hnone⟩
        · rintro ⟨_, _, _, rfl, rfl, rfl, hfourth, hentries⟩
          rw [if_neg fun hlow => absurd (hfourth hlow.1).1 (by omega),
            if_neg fun hlist => hlist.2 (hfourth hlist.1).2, hfill.mpr hentries]

/-- **The bounds of the subject entries.** The check touches none but the 17 elements and
the 17 entries exactly if, where it comes to its loop over the entries with its three
files read and the fourth subject accepted, the counter is at most 17 or the loop refuses
one of the 17: one shorter than three digits, not in the list of the group or there
twice. -/
theorem touches_inside_iff (group fourthsub specialfile : Option Bytes) (pairs : Option PairTable)
    (hcodes : codes.length = NUM_TOTAL_SUB) :
    (∀ touch ∈ touches (group.map readCodes) (fourthsub.map readCodes)
        (specialfile.map readCodes) pairs codes, touch.Inside) ↔
      ∀ listed fourths specials, group = some listed → fourthsub = some fourths →
        specialfile = some specials →
        (fourth codes ≠ 0 → 100 ≤ fourth codes ∧ fourth codes ∈ readCodes fourths) →
        totalSub (readCodes specials) codes ≤ NUM_TOTAL_SUB ∨
          (∃ code ∈ codes, code.length < 3 ∨ codeval code ∉ readCodes listed) ∨
          ¬ (codes.map codeval).Nodup := by
  rw [touches_inside_iff_returns hcodes, ne_eq, verifySubjectCodesByGroup_eq_none_iff]
  constructor
  · rintro h listed fourths specials rfl rfl rfl hfourth
    by_contra hrefused
    simp only [not_or, not_le, not_exists, not_and, not_lt, not_not] at hrefused
    obtain ⟨hcounter, hentries, hdifferent⟩ := hrefused
    exact h ⟨_, _, _, rfl, rfl, rfl, hfourth, hcodes ▸ hcounter, hentries, hdifferent⟩
  · rintro h ⟨_, _, _, hgroup, hfourthsub, hspecialfile, hfourth, hcounter, hentries, hdifferent⟩
    obtain ⟨listed, rfl, rfl⟩ := Option.map_eq_some_iff.mp hgroup
    obtain ⟨fourths, rfl, rfl⟩ := Option.map_eq_some_iff.mp hfourthsub
    obtain ⟨specials, rfl, rfl⟩ := Option.map_eq_some_iff.mp hspecialfile
    rcases h listed fourths specials rfl rfl rfl hfourth with hle | ⟨code, hmem, hshort | hlisted⟩ |
      hrepeated
    · omega
    · have hlength := (hentries code hmem).1
      omega
    · exact hlisted (hentries code hmem).2
    · exact hrepeated hdifferent

/-- With at most five special codes the check is safe: 17 different entries hold each of
them once at most. -/
theorem touches_inside_of_special (group fourthsub specialfile : Option Bytes)
    (pairs : Option PairTable) (hcodes : codes.length = NUM_TOTAL_SUB)
    (hspecial : ∀ specials, specialfile = some specials → (readCodes specials).length ≤ 5) :
    ∀ touch ∈ touches (group.map readCodes) (fourthsub.map readCodes)
      (specialfile.map readCodes) pairs codes, touch.Inside := by
  rw [touches_inside_iff_returns hcodes, ne_eq, verifySubjectCodesByGroup_eq_none_iff]
  rintro ⟨_, _, _, -, -, hspecialfile, -, hcounter, -, hdifferent⟩
  obtain ⟨specials, hopened, rfl⟩ := Option.map_eq_some_iff.mp hspecialfile
  have hcount : codes.countP (codeval · ∈ readCodes specials) ≤ (readCodes specials).length := by
    have hsubset : (codes.map codeval).filter (· ∈ readCodes specials) ⊆ readCodes specials :=
      fun code hcode => by simpa using (List.mem_filter.mp hcode).2
    have hlength := ((hdifferent.filter _).subperm hsubset).length_le
    rwa [← List.countP_eq_length_filter, List.countP_map] at hlength
  have hfive := hspecial specials hopened
  rw [hcodes, totalSub, WITHOUT_F_MIN, WITH_F_MIN, NUM_TOTAL_SUB] at hcounter
  split_ifs at hcounter <;> omega

end Touches

/-- The codes 101 to 117, in a file and in the entries. -/
def seventeenCodes : List Bytes :=
  ["101", "102", "103", "104", "105", "106", "107", "108", "109", "110", "111", "112", "113",
    "114", "115", "116", "117"].map ascii

def seventeenCodesFile : Bytes := seventeenCodes.flatMap (· ++ [newline])

theorem touches_inside_sample :
    (∀ touch ∈ touches (some (readCodes seventeenCodesFile)) (some (readCodes (ascii "117\n")))
        (some (readCodes (ascii "194\n199"))) none seventeenCodes, touch.Inside) ↔
      ∀ listed fourths specials, some seventeenCodesFile = some listed →
        some (ascii "117\n") = some fourths → some (ascii "194\n199") = some specials →
        (fourth seventeenCodes ≠ 0 →
          100 ≤ fourth seventeenCodes ∧ fourth seventeenCodes ∈ readCodes fourths) →
        totalSub (readCodes specials) seventeenCodes ≤ NUM_TOTAL_SUB ∨
          (∃ code ∈ seventeenCodes, code.length < 3 ∨ codeval code ∉ readCodes listed) ∨
          ¬ (seventeenCodes.map codeval).Nodup :=
  touches_inside_iff (some seventeenCodesFile) (some (ascii "117\n")) (some (ascii "194\n199"))
    none (by decide)

/-- With all of them special, the loop goes on behind the entries. -/
theorem touches_null :
    Touch.code 17 ∈ touches (some (readCodes seventeenCodesFile))
      (some (readCodes (ascii "117\n"))) (some (readCodes seventeenCodesFile)) none
      seventeenCodes ∧ ¬ (Touch.code 17).Inside := by
  decide +kernel

end Esif.Client
