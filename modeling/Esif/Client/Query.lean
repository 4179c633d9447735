import Esif.CS.Machine
import Esif.Client.Editor

/-!
# The query window

The window in which the user gives the session and the code of the institution, before any form
is made. The session entry completes a year of four digits to `nnnn-nnnn`, once; the handlers of
the two entries show and hide the button. What the entries hold is what was typed or pasted:
`acceptSession` lets digits and hyphens through in any order.

## Main definitions

* `Query` — the window
* `sessEntryChanged`, `colEntryChanged` — the handlers, which run again when they change the text
* `query` — the window as a machine over the edits of the user
* `FourDigits` — where the button is shown the session is a year of four digits
* `Shapes` — the edits that keep to it

## Main results

* `sessEntryChanged_eq`, `colEntryChanged_eq` — what an edit comes to
* `fourDigits_edit` — one edit
* `fourDigits_iff` — every run
-/

namespace Esif.Client

open Esif.CS Esif.Posix

def ACCEPTSESSION : Bytes := ascii "0123456789-"

/-- `strspn` with `ACCEPTSESSION`. -/
def acceptSession (text : Bytes) : Bytes := text.takeWhile (· ∈ ACCEPTSESSION)

/-- The most characters of the session entry, `nnnn-nnnn`. -/
def SESSIONLENGTH : ℕ := 9

/-- The most characters of the entry for the code of the institution. -/
def COLCODELENGTH : ℕ := 4

/-- The window: the texts of its entries, the longest session it has seen, whether the code can
be edited and whether the button is shown. `fault` is set when `buf` is overrun. -/
structure Query where
  session : Bytes
  college : Bytes
  prevlen : ℕ
  editable : Bool
  shown : Bool
  fault : Bool
  deriving DecidableEq, Repr

namespace Query

/-- The window as it comes up. -/
def init : Query := ⟨[], [], 0, false, false, false⟩

/-- `gtk_entry_set_text` on the session entry: its handler runs when the text differs. -/
def setSession (changed : Query → Query) (q : Query) (text : Bytes) : Query :=
  if text = q.session then q
  else changed { q with session := text.take SESSIONLENGTH }

/-- `gtk_entry_set_text` on the entry for the code. -/
def setCollege (changed : Query → Query) (q : Query) (text : Bytes) : Query :=
  if text = q.college then q
  else changed { q with college := text.take COLCODELENGTH }

/-- `lookup_college_by_code(text)`, where `known` says which codes the table has. -/
def lookupCollegeByCode (known : ℤ → Bool) (text : Bytes) : Bool := known (atoi text)

/-- `sprintf(buf, "%04d-%04d", i, i+1)` -/
def completion (val : Bytes) : Bytes :=
  printInt04 (atoi val) ++ ascii "-" ++ printInt04 (toInt32 (atoi val + 1))

/-- The size of `buf`. -/
def BUFSIZE : ℕ := 10

/-- `q_sess_entry_changed`; `fuel` bounds how often it runs inside itself. -/
def sessEntryChanged (known : ℤ → Bool) : ℕ → Query → Query
  | 0, q => q
  | fuel + 1, q =>
    let val := acceptSession q.session
    let q := setSession (sessEntryChanged known fuel) q val
    let q := { q with prevlen := max q.prevlen val.length }
    if val.length < 4 then { q with editable := false, shown := false }
    else
      let q :=
        -- only when no longer text was seen before
        if val.length = 4 ∧ q.prevlen ≤ 4 then
          setSession (sessEntryChanged known fuel)
            { q with fault := q.fault || decide (BUFSIZE ≤ (completion val).length) }
            (completion val)
        else q
      -- the button is shown here, and never hidden
      { q with editable := true, shown := q.shown || lookupCollegeByCode known q.college }

/-- `q_col_entry_changed` -/
def colEntryChanged (known : ℤ → Bool) : ℕ → Query → Query
  | 0, q => q
  | fuel + 1, q =>
    let codestr := acceptNumbers q.college
    let q := setCollege (colEntryChanged known fuel) q codestr
    { q with shown := lookupCollegeByCode known codestr }

/-- What `q_okbutton_clicked` copies into `all_session`. -/
def copied (q : Query) : Bytes := acceptNumbers q.session

/-- `q_okbutton_clicked`: the two it sets, as long as `all_session[5]` can hold the second. -/
def okButtonClicked (q : Query) : Option (Bytes × Bytes) :=
  if 5 ≤ q.copied.length then none else some (printInt04 (atoi q.college), q.copied)

end Query

/-- An edit of the user leaves this text in an entry; `known` is the table of institutions then. -/
inductive Edit where
  | session (known : ℤ → Bool) (text : Bytes)
  | college (known : ℤ → Bool) (text : Bytes)

/-- How often a handler runs inside itself at most. -/
def DEPTH : ℕ := 3

/-- The window over the edits of the user. -/
def query : Machine Query Edit Unit := fun q e =>
  match e with
  | .session known text =>
    (Query.sessEntryChanged known DEPTH { q with session := text.take SESSIONLENGTH }, [])
  | .college known text =>
    if q.editable then
      (Query.colEntryChanged known DEPTH { q with college := text.take COLCODELENGTH }, [])
    else (q, [])

/-! ### The completion -/

theorem acceptSession_idem (text : Bytes) :
    acceptSession (acceptSession text) = acceptSession text := by
  simp [acceptSession, List.takeWhile_takeWhile]

theorem acceptSession_eq_self {text : Bytes} (h : ∀ b ∈ text, b ∈ ACCEPTSESSION) :
    acceptSession text = text := by
  rw [acceptSession, List.takeWhile_eq_self_iff]
  simpa using h

theorem length_acceptSession_le (text : Bytes) : (acceptSession text).length ≤ text.length :=
  (List.takeWhile_prefix _).length_le

theorem mem_acceptsession {b : UInt8} (h : isdigit b = true ∨ b = 45) : b ∈ ACCEPTSESSION := by
  rcases h with hdigit | rfl
  · simp only [isdigit, Bool.and_eq_true, decide_eq_true_eq, UInt8.le_iff_toNat_le,
      UInt8.reduceToNat] at hdigit
    have hall : ∀ n, 48 ≤ n → n ≤ 57 → UInt8.ofNat n ∈ ACCEPTSESSION := by
      intro n hlow hhigh
      interval_cases n <;> decide
    have hb := hall b.toNat hdigit.1 hdigit.2
    rwa [UInt8.ofNat_toNat] at hb
  · decide

namespace Query

/-- The value of a text of four bytes. -/
theorem atoi_bounds {val : Bytes} (h : val.length ≤ 4) :
    atoi val = strtol val ∧ -1000 < atoi val ∧ atoi val < 10000 := by
  obtain ⟨hlow, hhigh⟩ := strtol_bounds h
  have heq : atoi val = strtol val := by
    rw [atoi, toInt32]
    omega
  rw [heq]
  exact ⟨rfl, hlow, hhigh⟩

/-- A year is printed in four bytes, and so is the next, but for the last. -/
theorem length_completion {val : Bytes} (h : val.length ≤ 4) :
    (completion val).length = if atoi val = 9999 then 10 else 9 := by
  obtain ⟨-, hlow, hhigh⟩ := atoi_bounds h
  have hnext : toInt32 (atoi val + 1) = atoi val + 1 := by
    rw [toInt32]
    omega
  have hyear := length_printInt04 hlow hhigh
  have hword : (ascii "-").length = 1 := by decide
  rw [completion, hnext, List.length_append, List.length_append, hyear, hword]
  split
  · next hlast =>
    rw [hlast]
    decide +kernel
  · next hlast =>
    rw [length_printInt04 (by omega) (by omega)]

theorem acceptSession_completion (val : Bytes) (n : ℕ) :
    acceptSession ((completion val).take n) = (completion val).take n := by
  apply acceptSession_eq_self
  intro b hb
  have hb := List.mem_of_mem_take hb
  simp only [completion, List.mem_append] at hb
  rcases hb with (hb | hb) | hb
  · exact mem_acceptsession (of_mem_printInt04 hb)
  · obtain rfl : b = 45 := by simpa [ascii] using hb
    exact mem_acceptsession (Or.inr rfl)
  · exact mem_acceptsession (of_mem_printInt04 hb)

/-- The digits in front of a completed text: the year, unless it is negative. -/
theorem acceptNumbers_completion {val : Bytes} (h : val.length ≤ 4) :
    (acceptNumbers ((completion val).take SESSIONLENGTH)).length = 4 ↔ 0 ≤ atoi val := by
  obtain ⟨-, hlow, hhigh⟩ := atoi_bounds h
  have hyear := length_printInt04 hlow hhigh
  have hsplit : ∃ rest,
      (completion val).take SESSIONLENGTH = printInt04 (atoi val) ++ 45 :: rest := by
    refine ⟨(printInt04 (toInt32 (atoi val + 1))).take 4, ?_⟩
    have hfront : printInt04 (atoi val) ++ ascii "-" = printInt04 (atoi val) ++ [45] := rfl
    rw [completion, hfront, List.take_append,
      List.take_of_length_le (by simp [hyear, SESSIONLENGTH]), List.append_assoc,
      List.length_append, hyear]
    rfl
  obtain ⟨rest, hrest⟩ := hsplit
  rw [hrest, acceptNumbers]
  constructor
  · intro hlen
    by_contra hneg
    have hminus : ∃ ds, printInt04 (atoi val) = 45 :: ds := by
      unfold printInt04
      rw [if_pos (by omega)]
      exact ⟨_, rfl⟩
    obtain ⟨ds, hds⟩ := hminus
    rw [hds, List.cons_append, List.takeWhile_cons_of_neg (by decide)] at hlen
    cases hlen
  · intro hpos
    have hdigits : ∀ b ∈ printInt04 (atoi val), isdigit b = true := by
      unfold printInt04
      rw [if_neg (by omega)]
      exact fun b => isdigit_of_mem_leftpad
    rw [List.takeWhile_append_of_pos hdigits, List.takeWhile_cons_of_neg (by decide),
      List.append_nil, hyear]

/-! ### What an edit comes to -/

/-- Four characters, and no longer text before: the year is completed. -/
def Completes (q : Query) (val : Bytes) : Prop := val.length = 4 ∧ q.prevlen ≤ 4

instance (q : Query) (val : Bytes) : Decidable (q.Completes val) :=
  inferInstanceAs (Decidable (_ ∧ _))

/-- The window behind `q_sess_entry_changed`. -/
def settled (known : ℤ → Bool) (q : Query) : Query :=
  let val := acceptSession q.session
  let shown := q.shown || lookupCollegeByCode known q.college
  if val.length < 4 then
    { q with
      session := val, prevlen := max q.prevlen val.length, editable := false, shown := false }
  else if q.Completes val then
    { q with
      session := (completion val).take SESSIONLENGTH, prevlen := SESSIONLENGTH, editable := true
      shown := shown, fault := q.fault || decide (BUFSIZE ≤ (completion val).length) }
  else
    { q with
      session := val, prevlen := max q.prevlen val.length, editable := true, shown := shown }

theorem setSession_self (changed : Query → Query) (q : Query) :
    setSession changed q q.session = q := if_pos rfl

/-- A text that is let through and not completed. -/
theorem sessEntryChanged_plain (known : ℤ → Bool) (fuel : ℕ) {q : Query}
    (hval : acceptSession q.session = q.session) (hplain : ¬ q.Completes q.session) :
    sessEntryChanged known (fuel + 1) q = settled known q := by
  have hno : ¬ (q.session.length = 4 ∧ max q.prevlen q.session.length ≤ 4) := fun h =>
    hplain ⟨h.1, le_trans (le_max_left _ _) h.2⟩
  simp only [sessEntryChanged, settled, hval, setSession_self, if_neg hplain, if_neg hno]

/-- A text that is let through. -/
theorem sessEntryChanged_accepted (known : ℤ → Bool) (fuel : ℕ) {q : Query}
    (hval : acceptSession q.session = q.session) :
    sessEntryChanged known (fuel + 2) q = settled known q := by
  by_cases hcompletes : q.Completes q.session
  · obtain ⟨hlen, hprev⟩ := hcompletes
    have hmax : max q.prevlen q.session.length = 4 := by rw [hlen, Nat.max_eq_right hprev]
    have hcompletion : SESSIONLENGTH ≤ (completion q.session).length := by
      rw [length_completion hlen.le]
      unfold SESSIONLENGTH
      split <;> decide
    have htake : ((completion q.session).take SESSIONLENGTH).length = SESSIONLENGTH := by
      rw [List.length_take, Nat.min_eq_left hcompletion]
    have hne : completion q.session ≠ q.session := by
      intro heq
      rw [heq, hlen] at hcompletion
      exact absurd hcompletion (by decide)
    -- the run inside: nine characters that are let through
    have inner := sessEntryChanged_plain known fuel
      (q := { q with
        session := (completion q.session).take SESSIONLENGTH, prevlen := 4
        fault := q.fault || decide (BUFSIZE ≤ (completion q.session).length) })
      (acceptSession_completion _ _) fun h => by
        have h9 := htake.symm.trans h.1
        exact absurd h9 (by decide)
    have hset : setSession (sessEntryChanged known (fuel + 1))
        { q with
          prevlen := 4, fault := q.fault || decide (BUFSIZE ≤ (completion q.session).length) }
        (completion q.session) =
          { q with
            session := (completion q.session).take SESSIONLENGTH, prevlen := SESSIONLENGTH
            editable := true, shown := q.shown || lookupCollegeByCode known q.college
            fault := q.fault || decide (BUFSIZE ≤ (completion q.session).length) } := by
      rw [setSession, if_neg hne, inner, settled]
      simp only [acceptSession_completion, htake]
      rw [if_neg (by decide), if_neg fun h => absurd h.1 (by simp only [htake]; decide)]
      rfl
    have hcond : q.session.length = 4 ∧ 4 ≤ 4 := ⟨hlen, le_rfl⟩
    rw [sessEntryChanged, settled]
    simp only [hval, setSession_self, hmax]
    rw [if_pos hcond, hset, if_neg (by omega), if_neg (by omega), if_pos ⟨hlen, hprev⟩]
    simp only [Bool.or_assoc, Bool.or_self]
  · exact sessEntryChanged_plain known (fuel + 1) hval hcompletes

/-- The handler comes to an end, and to this. -/
theorem sessEntryChanged_eq (known : ℤ → Bool) (fuel : ℕ) {q : Query}
    (hlen : q.session.length ≤ SESSIONLENGTH) :
    sessEntryChanged known (fuel + 3) q = settled known q := by
  by_cases hval : acceptSession q.session = q.session
  · exact sessEntryChanged_accepted known (fuel + 1) hval
  · have htake : (acceptSession q.session).take SESSIONLENGTH = acceptSession q.session :=
      List.take_of_length_le ((length_acceptSession_le _).trans hlen)
    have inner := sessEntryChanged_accepted known fuel
      (q := { q with session := acceptSession q.session }) (acceptSession_idem _)
    have hset : setSession (sessEntryChanged known (fuel + 2)) q (acceptSession q.session) =
        settled known { q with session := acceptSession q.session } := by
      rw [setSession, if_neg hval, htake, inner]
    rw [sessEntryChanged, hset]
    -- the run inside has left nothing to do
    have hcompletes : ∀ s, Completes { q with session := s } (acceptSession q.session) ↔
        q.Completes (acceptSession q.session) := fun s => Iff.rfl
    unfold settled
    simp only [acceptSession_idem, hcompletes]
    by_cases hshort : (acceptSession q.session).length < 4
    · simp only [if_pos hshort, Nat.max_assoc, Nat.max_self]
    · by_cases hdone : q.Completes (acceptSession q.session)
      · have hno : ¬ ((acceptSession q.session).length = 4 ∧ SESSIONLENGTH ≤ 4) := fun h =>
          absurd h.2 (by decide)
        have hmax : max SESSIONLENGTH (acceptSession q.session).length = SESSIONLENGTH := by
          rw [hdone.1]
          decide
        simp only [if_neg hshort, if_pos hdone, if_neg hno, hmax, Bool.or_assoc, Bool.or_self]
      · have hno : ¬ ((acceptSession q.session).length = 4 ∧
            max q.prevlen (acceptSession q.session).length ≤ 4) := fun h =>
          hdone ⟨h.1, (le_max_left _ _).trans h.2⟩
        simp only [if_neg hshort, if_neg hdone, if_neg hno, Nat.max_assoc, Nat.max_self,
          Bool.or_assoc, Bool.or_self]

theorem acceptNumbers_idem (text : Bytes) :
    acceptNumbers (acceptNumbers text) = acceptNumbers text := by
  simp [acceptNumbers, List.takeWhile_takeWhile]

theorem setCollege_self (changed : Query → Query) (q : Query) :
    setCollege changed q q.college = q := if_pos rfl

/-- A code that is let through. -/
theorem colEntryChanged_accepted (known : ℤ → Bool) (fuel : ℕ) {q : Query}
    (hval : acceptNumbers q.college = q.college) :
    colEntryChanged known (fuel + 1) q =
      { q with shown := lookupCollegeByCode known q.college } := by
  simp only [colEntryChanged, hval, setCollege_self]

/-- The handler of the code comes to an end, and to this. -/
theorem colEntryChanged_eq (known : ℤ → Bool) (fuel : ℕ) {q : Query}
    (hlen : q.college.length ≤ COLCODELENGTH) :
    colEntryChanged known (fuel + 2) q =
      { q with
        college := acceptNumbers q.college
        shown := lookupCollegeByCode known (acceptNumbers q.college) } := by
  by_cases hval : acceptNumbers q.college = q.college
  · rw [colEntryChanged_accepted known (fuel + 1) hval, hval]
  · have htake : (acceptNumbers q.college).take COLCODELENGTH = acceptNumbers q.college :=
      List.take_of_length_le (((List.takeWhile_prefix _).length_le).trans hlen)
    have inner := colEntryChanged_accepted known fuel
      (q := { q with college := acceptNumbers q.college }) (acceptNumbers_idem _)
    rw [colEntryChanged]
    simp only [setCollege, if_neg hval, htake, inner]

end Query

theorem query_session (q : Query) (known : ℤ → Bool) (text : Bytes) :
    (query q (.session known text)).1 =
      Query.settled known { q with session := text.take SESSIONLENGTH } :=
  Query.sessEntryChanged_eq known 0 (by simp only [List.length_take]; exact min_le_left _ _)

theorem query_college (q : Query) (known : ℤ → Bool) (text : Bytes)
    (heditable : q.editable = true) :
    (query q (.college known text)).1 =
      { q with
        college := acceptNumbers (text.take COLCODELENGTH)
        shown := Query.lookupCollegeByCode known (acceptNumbers (text.take COLCODELENGTH)) } := by
  rw [query]
  simp only [heditable, if_true]
  exact Query.colEntryChanged_eq known 1 (by simp only [List.length_take]; exact min_le_left _ _)

/-! ### The session is a year -/

/-- Nothing is overrun, and where the button is shown it copies four digits. -/
structure Query.FourDigits (q : Query) : Prop where
  fault : q.fault = false
  shown : q.shown = true → q.copied.length = 4

/-- The button then stays inside `all_session`. -/
theorem Query.FourDigits.okButtonClicked {q : Query} (h : q.FourDigits) (hshown : q.shown = true) :
    q.okButtonClicked = some (printInt04 (atoi q.college), q.copied) := by
  rw [Query.okButtonClicked, if_neg (by rw [h.shown hshown]; decide)]

/-- The edit keeps to it. A session is cut to fewer than four characters; or it is completed, and
its value is a year below 9999; or it is not completed and four digits stand in front of its
first hyphen or its end; or the button stays hidden. A code is one that the table does not have,
or four digits stand in front of the session. -/
def Query.Shapes (q : Query) : Edit → Prop
  | .session known text =>
    let val := acceptSession (text.take SESSIONLENGTH)
    val.length < 4 ∨
      (if q.Completes val then
        atoi val ≠ 9999 ∧ (0 ≤ atoi val ∨ (q.shown || lookupCollegeByCode known q.college) = false)
      else
        (acceptNumbers val).length = 4 ∨
          (q.shown || lookupCollegeByCode known q.college) = false)
  | .college known text =>
    q.editable = true →
      lookupCollegeByCode known (acceptNumbers (text.take COLCODELENGTH)) = true →
      (acceptNumbers q.session).length = 4

/-- An edit of the session. -/
theorem Query.fourDigits_session {q : Query} (h : q.FourDigits) (known : ℤ → Bool)
    (text : Bytes) :
    (query q (.session known text)).1.FourDigits ↔ q.Shapes (.session known text) := by
  have hcompletes : ∀ s, Completes { q with session := s } = q.Completes := fun s => rfl
  rw [query_session, Shapes, settled]
  simp only [hcompletes]
  generalize acceptSession (text.take SESSIONLENGTH) = val
  by_cases hshort : val.length < 4
  · simp only [hshort, true_or, if_true, iff_true]
    exact ⟨h.fault, fun hshown => by cases hshown⟩
  · simp only [hshort, false_or, if_false]
    by_cases hdone : q.Completes val
    · have hlen : val.length ≤ 4 := hdone.1.le
      have hfits : decide (BUFSIZE ≤ (completion val).length) = false ↔ atoi val ≠ 9999 := by
        rw [length_completion hlen]
        unfold BUFSIZE
        split <;> simp [*]
      simp only [if_pos hdone]
      constructor
      · rintro ⟨hfault, hshown⟩
        refine ⟨hfits.mp (Bool.or_eq_false_iff.mp hfault).2, ?_⟩
        cases hbutton : q.shown || lookupCollegeByCode known q.college with
        | false => exact Or.inr rfl
        | true => exact Or.inl ((acceptNumbers_completion hlen).mp (hshown hbutton))
      · rintro ⟨hlast, hyear⟩
        refine ⟨Bool.or_eq_false_iff.mpr ⟨h.fault, hfits.mpr hlast⟩, fun hbutton => ?_⟩
        rcases hyear with hyear | hhidden
        · exact (acceptNumbers_completion hlen).mpr hyear
        · exact absurd (hbutton.symm.trans hhidden) (by decide)
    · simp only [if_neg hdone]
      constructor
      · rintro ⟨-, hshown⟩
        cases hbutton : q.shown || lookupCollegeByCode known q.college with
        | false => exact Or.inr rfl
        | true => exact Or.inl (hshown hbutton)
      · rintro hshape
        refine ⟨h.fault, fun hbutton => ?_⟩
        rcases hshape with hdigits | hhidden
        · exact hdigits
        · exact absurd (hbutton.symm.trans hhidden) (by decide)

/-- An edit of the college. -/
theorem Query.fourDigits_college {q : Query} (h : q.FourDigits) (known : ℤ → Bool)
    (text : Bytes) :
    (query q (.college known text)).1.FourDigits ↔ q.Shapes (.college known text) := by
  cases heditable : q.editable with
  | false =>
    have hsame : (query q (.college known text)).1 = q := by simp [query, heditable]
    simp [hsame, h, Shapes, heditable]
  | true =>
    rw [query_college q known text heditable, Shapes]
    simp only [heditable, true_implies]
    constructor
    · intro hnext
      exact hnext.shown
    · intro hshape
      exact ⟨h.fault, hshape⟩

/-- One edit. -/
theorem Query.fourDigits_edit {q : Query} (h : q.FourDigits) (e : Edit) :
    (query q e).1.FourDigits ↔ q.Shapes e := by
  cases e with
  | session known text => exact Query.fourDigits_session h known text
  | college known text => exact Query.fourDigits_college h known text

theorem fourDigits_init : Query.init.FourDigits := ⟨rfl, fun hshown => by cases hshown⟩

/-- A text that leads nowhere else, whatever the window has seen: cut to less than four
characters, or with exactly four digits in front, but for the year 9999 alone. -/
def Edit.Plain : Edit → Prop
  | .session _ text =>
    let val := acceptSession (text.take SESSIONLENGTH)
    val.length < 4 ∨ (acceptNumbers val).length = 4 ∧ (val.length = 4 → atoi val ≠ 9999)
  | .college _ _ => True

instance : (e : Edit) → Decidable e.Plain
  | .session _ _ => inferInstanceAs (Decidable (_ ∨ _))
  | .college _ _ => isTrue trivial

/-- Where the code can be edited, the session is a year. -/
structure Query.Dated (q : Query) : Prop where
  fourDigits : q.FourDigits
  editable : q.editable = true → q.copied.length = 4

/-- Four characters that are all digits are no negative number. -/
theorem atoi_nonneg {val : Bytes} (hlen : val.length = 4)
    (hdigits : (acceptNumbers val).length = 4) :
    0 ≤ atoi val := by
  have hself : acceptNumbers val = val :=
    (List.takeWhile_prefix _).eq_of_length (hdigits.trans hlen.symm)
  have hall : ∀ b ∈ val, isdigit b = true := List.takeWhile_eq_self_iff.mp hself
  have hne : val ≠ [] := List.ne_nil_of_length_pos (by omega)
  rw [(Query.atoi_bounds hlen.le).1, strtol_of_digits hne hall]
  exact Int.natCast_nonneg _

/-- Such an edit keeps to it. -/
theorem Query.shapes_of_plain {q : Query} (h : q.Dated) {e : Edit} (hplain : e.Plain) :
    q.Shapes e := by
  cases e with
  | session known text =>
    rcases hplain with hshort | ⟨hdigits, hlast⟩
    · exact Or.inl hshort
    · refine Or.inr ?_
      by_cases hdone : q.Completes (acceptSession (text.take SESSIONLENGTH))
      · rw [if_pos hdone]
        exact ⟨hlast hdone.1, Or.inl (atoi_nonneg hdone.1 hdigits)⟩
      · rw [if_neg hdone]
        exact Or.inl hdigits
  | college known text => exact fun heditable _ => h.editable heditable

theorem Query.dated_edit {q : Query} (h : q.Dated) {e : Edit} (hplain : e.Plain) :
    (query q e).1.Dated := by
  refine ⟨(fourDigits_edit h.fourDigits e).mpr (shapes_of_plain h hplain), fun heditable => ?_⟩
  cases e with
  | session known text =>
    have hcompletes : ∀ s, Completes { q with session := s } = q.Completes := fun s => rfl
    rw [query_session, settled] at heditable ⊢
    simp only [hcompletes] at heditable ⊢
    rcases hplain with hshort | ⟨hdigits, -⟩
    · rw [if_pos hshort] at heditable
      cases heditable
    · have hlong : ¬ (acceptSession (text.take SESSIONLENGTH)).length < 4 := by
        have hle := (List.takeWhile_prefix isdigit
          (l := acceptSession (text.take SESSIONLENGTH))).length_le
        rw [acceptNumbers] at hdigits
        omega
      rw [if_neg hlong]
      by_cases hdone : q.Completes (acceptSession (text.take SESSIONLENGTH))
      · rw [if_pos hdone]
        exact (acceptNumbers_completion hdone.1.le).mpr (atoi_nonneg hdone.1 hdigits)
      · rw [if_neg hdone]
        exact hdigits
  | college known text =>
    cases hold : q.editable with
    | false =>
      have hsame : (query q (.college known text)).1 = q := by simp [query, hold]
      rw [hsame] at heditable
      exact absurd (hold.symm.trans heditable) (by decide)
    | true =>
      rw [query_college q known text hold]
      exact h.editable hold

/-- In every run of the window, over any edits and any tables of institutions, nothing is overrun
and a shown button copies four digits into `all_session`, if and only if every edit keeps to it.
Texts that have exactly four digits in front, and are not the year 9999 alone, or are cut to less
than four characters, always do. -/
theorem fourDigits_iff (es : List Edit) :
    (query.Meets (fun q e => (query q e).1.FourDigits) .init es ↔
      query.Meets Query.Shapes .init es) ∧
    ((∀ e ∈ es, e.Plain) → query.Meets (fun q e => (query q e).1.FourDigits) .init es) := by
  constructor
  · exact @Machine.meets_congr _ _ _ _ _ _ Query.FourDigits
      (fun q e h => Query.fourDigits_edit h e)
      (fun q e h hshapes => (Query.fourDigits_edit h e).mpr hshapes) _ fourDigits_init _
  · intro hplain
    rw [Machine.meets_iff_forall]
    rintro before e after rfl
    have hmeets := @Machine.meets_of_forall _ _ _ query Edit.Plain .init before
      fun e he => hplain e (by simp [he])
    have hdated : (query.run .init before).1.Dated :=
      @Machine.run_induction _ _ _ _ _ (fun q _ => q.Dated)
        (fun q _ e hok h => Query.dated_edit h hok) _ []
        ⟨fourDigits_init, fun heditable => by cases heditable⟩ _ hmeets
    exact (Query.dated_edit hdated (hplain e (by simp))).fourDigits

/-- The table has the institution 1 only. -/
def sampleKnown (code : ℤ) : Bool := code = 1

theorem fourDigits_sample :
    query.Meets (fun q e => (query q e).1.FourDigits) .init
      [.session sampleKnown (ascii "2005"), .college sampleKnown (ascii "0001"),
        .session sampleKnown (ascii "2006-07")] :=
  (fourDigits_iff _).2 (by decide)

/-- A hyphen in front, and a digit taken out of a completed session. -/
theorem fourDigits_fails_sample :
    (query.run .init [.session sampleKnown (ascii "-123"),
        .college sampleKnown (ascii "0001")]).1 =
      ⟨ascii "-123--122", ascii "0001", 9, true, true, false⟩ ∧
    (query.run .init [.session sampleKnown (ascii "2005"), .college sampleKnown (ascii "0001"),
        .session sampleKnown (ascii "205-2006")]).1 =
      ⟨ascii "205-2006", ascii "0001", 9, true, true, false⟩ ∧
    ¬ query.Meets (fun q e => (query q e).1.FourDigits) .init
      [.session sampleKnown (ascii "-123"), .college sampleKnown (ascii "0001")] := by
  refine ⟨by decide +kernel, by decide +kernel, fun hmeets => ?_⟩
  have hlen := hmeets.2.1.shown (by decide +kernel)
  exact absurd hlen (by decide +kernel)

end Esif.Client
