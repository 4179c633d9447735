import Esif.Server.Fields

/-!
# The input of `inspass`

`inspass` converts the last two of five words with `strptime` and `mktime`, both in one
`struct tm` that nothing sets before the first line and nothing clears between two dates.

## Main definitions

* `inspassWhile` — `main` of `inspass`
* `InStep` — a text behind which a call of `fscanf` begins with a line
* `OwnLine` — what a line stores depends on the line alone

## Main results

* `inspassWhile_lines` — the lines are read one by one
* `inspassWhile_own` — the database of lines that depend on themselves alone
* `own_line_iff` — the lines that do, behind any text
-/

namespace Esif.Server

open Esif.CS Esif.Posix

/-! ### The program -/

section Main

variable (mktime : Tm → ℤ × Tm) (sha1 : Bytes → Bytes) (printonly : Bool)

/-- `main` of `inspass`, from the `while` on: the database and `tm` behind it, lost where an
array overruns, and what was stored. -/
def inspassWhile (s : Option ((Bytes → Get) × Tm)) (input : Bytes) :
    Option ((Bytes → Get) × Tm) × List Change :=
  match _h : scanFields input with
  | .error .mismatch => (s, [])
  | .error .overrun => (none, [])
  | .ok (f, rest) =>
    let r := inspassLoop mktime sha1 printonly s f
    let r' := inspassWhile r.1 rest
    (r'.1, r.2 ++ r'.2)
  termination_by input.length
  decreasing_by exact scanFields_length ‹_›

end Main

/-- What the last call of `fscanf`, which fails, finds. There is none where an array overruns. -/
def remaining (input : Bytes) : Option Bytes :=
  match _h : scanFields input with
  | .error .mismatch => some input
  | .error .overrun => none
  | .ok (f, rest) => if f.Fits then remaining rest else none
  termination_by input.length
  decreasing_by exact scanFields_length ‹_›

/-! ### Lines -/

section Lines

variable {mktime : Tm → ℤ × Tm} {sha1 : Bytes → Bytes} {printonly : Bool} {l : InLine} {tm : Tm}
  {db : Bytes → Get} {s : Option ((Bytes → Get) × Tm)} {input before left rest t : Bytes}
  {b : UInt8} {f : Fields}

theorem inspassWhile_eq (input : Bytes) :
    inspassWhile mktime sha1 printonly s input =
      match scanFields input with
      | .error .mismatch => (s, [])
      | .error .overrun => (none, [])
      | .ok (f, rest) =>
        let r := inspassLoop mktime sha1 printonly s f
        let r' := inspassWhile mktime sha1 printonly r.1 rest
        (r'.1, r.2 ++ r'.2) := by
  rw [inspassWhile]
  split <;> simp_all

theorem remaining_eq (input : Bytes) :
    remaining input =
      match scanFields input with
      | .error .mismatch => some input
      | .error .overrun => none
      | .ok (f, rest) => if f.Fits then remaining rest else none := by
  rw [remaining]
  split <;> simp_all

/-- A program that is lost stays so. -/
theorem inspassWhile_none (input : Bytes) :
    inspassWhile mktime sha1 printonly none input = (none, []) := by
  induction hn : input.length using Nat.strong_induction_on generalizing input with
  | _ n ih =>
    rw [inspassWhile_eq]
    split
    · rfl
    · rfl
    · next f rest hscan =>
      have hlost : inspassLoop mktime sha1 printonly none f = (none, []) := rfl
      simp only [hlost, ih rest.length (hn ▸ scanFields_length hscan) rest rfl]
      rfl

theorem inspassWhile_newline (rest : Bytes) :
    inspassWhile mktime sha1 printonly s (newline :: rest) =
      inspassWhile mktime sha1 printonly s rest := by
  have hscan : scanFields (newline :: rest) = scanFields rest := rfl
  rw [inspassWhile_eq, inspassWhile_eq rest, hscan]

theorem inspassLoop_of_not_fits (hfits : ¬ f.Fits) :
    inspassLoop mktime sha1 printonly s f = (none, []) := Machine.guarded_of_not hfits s

/-- A line at the beginning of a call. -/
theorem inspassWhile_line (hl : l.IsLine) (rest : Bytes) :
    inspassWhile mktime sha1 printonly s (l.text ++ rest) =
      ((inspassWhile mktime sha1 printonly (inspassLoop mktime sha1 printonly s l.fields).1 rest).1,
        (inspassLoop mktime sha1 printonly s l.fields).2 ++
          (inspassWhile mktime sha1 printonly
            (inspassLoop mktime sha1 printonly s l.fields).1 rest).2) := by
  rw [inspassWhile_eq, scanFields_line hl]
  -- the line is read, or an array overruns in `fscanf`
  by_cases hsize : l.pass.length < 15 ∧ l.start.length < 20 ∧ l.end_.length < 20
  · rw [if_pos hsize]
    simp only [inspassWhile_newline]
  · rw [if_neg hsize, inspassLoop_of_not_fits fun hfits => hsize hfits.2, inspassWhile_none]
    rfl

/-- The input is read line by line. -/
theorem inspassWhile_lines {lines : List InLine} (hlines : ∀ l ∈ lines, l.IsLine) :
    inspassWhile mktime sha1 printonly s (lines.flatMap InLine.text) =
      (inspassLoop mktime sha1 printonly).run s (lines.map InLine.fields) := by
  induction lines generalizing s with
  | nil =>
    rw [inspassWhile_eq]
    rfl
  | cons l lines ih =>
    rw [List.flatMap_cons, inspassWhile_line (hlines l (by simp)),
      ih fun l' hl' => hlines l' (by simp [hl'])]
    rfl

/-! ### Texts in front of a line -/

/-- The calls of `fscanf` are complete at the end of the text: the next one begins with what
follows. -/
structure InStep (before : Bytes) : Prop where
  start : LineStart before
  blank : ∃ left, remaining before = some left ∧ Blank left

/-- `main` stops in the text: no call of `fscanf` reads what follows. -/
def Ended (before : Bytes) : Prop := ∃ left, remaining before = some left ∧ noNumber left = true

theorem inStep_nil : InStep [] := by
  refine ⟨Or.inl rfl, [], ?_, by simp [Blank]⟩
  rw [remaining_eq]
  rfl

/-- Behind a text that ends a line `main` goes on with what the text leaves. -/
theorem remaining_append (h : remaining before = some left) (hstart : LineStart before) :
    LineStart left ∧ ∀ s t, inspassWhile mktime sha1 printonly s (before ++ t) =
      ((inspassWhile mktime sha1 printonly
          (inspassWhile mktime sha1 printonly s before).1 (left ++ t)).1,
        (inspassWhile mktime sha1 printonly s before).2 ++
          (inspassWhile mktime sha1 printonly
            (inspassWhile mktime sha1 printonly s before).1 (left ++ t)).2) := by
  induction hn : before.length using Nat.strong_induction_on generalizing before with
  | _ n ih =>
    rw [remaining_eq] at h
    split at h
    · next hscan =>
      obtain rfl := Option.some.inj h
      refine ⟨hstart, fun s t => ?_⟩
      rw [inspassWhile_eq before, hscan]
      rfl
    · cases h
    · next f rest hscan =>
      split_ifs at h with hfits
      rcases hstart with rfl | ⟨r, rfl⟩
      · cases hscan
      -- one call more, which is the same with a text behind
      · obtain ⟨rest', rfl, happend⟩ := scanFields_append (by decide) hscan
        obtain ⟨hleft, hrest⟩ := ih _ (hn ▸ scanFields_length hscan) h (Or.inr ⟨rest', rfl⟩) rfl
        refine ⟨hleft, fun s t => ?_⟩
        have htext : r ++ [newline] ++ t = r ++ newline :: t := by simp
        have htext' : rest' ++ newline :: t = rest' ++ [newline] ++ t := by simp
        rw [htext, inspassWhile_eq (r ++ newline :: t), happend, inspassWhile_eq (r ++ [newline]),
          hscan]
        dsimp only
        rw [htext', hrest]
        simp only [List.append_assoc]

/-- `main` gets through an input exactly where no array overruns. -/
theorem inspassWhile_isSome (input : Bytes) (db : Bytes → Get) (tm : Tm) :
    (inspassWhile mktime sha1 printonly (some (db, tm)) input).1.isSome =
      (remaining input).isSome := by
  induction hn : input.length using Nat.strong_induction_on generalizing input db tm with
  | _ n ih =>
    rw [inspassWhile_eq, remaining_eq]
    split
    · rfl
    · rfl
    · next f rest hscan =>
      have hlength := hn ▸ scanFields_length hscan
      dsimp only
      split_ifs with hfits
      · rw [inspassLoop, Machine.guarded_some hfits]
        exact ih rest.length hlength rest _ _ rfl
      · rw [inspassLoop_of_not_fits hfits, inspassWhile_none]
        rfl

/-- With `--print` nothing is stored. -/
theorem inspassWhile_print (h : (remaining input).isSome) :
    inspassWhile mktime sha1 true (some (db, tm)) input = (some (db, tm), []) := by
  induction hn : input.length using Nat.strong_induction_on generalizing input with
  | _ n ih =>
    rw [remaining_eq] at h
    rw [inspassWhile_eq]
    split
    · rfl
    · next hscan =>
      rw [hscan] at h
      cases h
    · next f rest hscan =>
      rw [hscan] at h
      dsimp only at h ⊢
      split_ifs at h with hfits
      · rw [inspassLoop_true hfits, ih rest.length (hn ▸ scanFields_length hscan) h rfl]
        rfl
      · cases h

/-- What follows a text at which `main` stops is not looked at. -/
theorem Ended.inspassWhile_append (h : Ended before) (hstart : LineStart before)
    (s : Option ((Bytes → Get) × Tm)) (t : Bytes) :
    inspassWhile mktime sha1 printonly s (before ++ t) =
      inspassWhile mktime sha1 printonly s before := by
  obtain ⟨left, hleft, hnone⟩ := h
  obtain ⟨hstart', happend⟩ := @remaining_append mktime sha1 printonly _ _ hleft hstart
  rw [happend, inspassWhile_eq (left ++ t), scanFields_noNumber hnone hstart']
  simp

/-- Behind a text in step a line is at the beginning of a call. -/
theorem InStep.inspassWhile_append (h : InStep before) (s : Option ((Bytes → Get) × Tm))
    (t : Bytes) :
    inspassWhile mktime sha1 printonly s (before ++ t) =
      ((inspassWhile mktime sha1 printonly (inspassWhile mktime sha1 printonly s before).1 t).1,
        (inspassWhile mktime sha1 printonly s before).2 ++
          (inspassWhile mktime sha1 printonly
            (inspassWhile mktime sha1 printonly s before).1 t).2) := by
  obtain ⟨left, hleft, hblank⟩ := h.blank
  have hskip : scanFields (left ++ t) = scanFields t := by
    simp only [scanFields, steady_scanNumber.blank left t hblank]
  have hsame : ∀ s, inspassWhile mktime sha1 printonly s (left ++ t) =
      inspassWhile mktime sha1 printonly s t := by
    intro s
    rw [inspassWhile_eq, inspassWhile_eq t, hskip]
  obtain ⟨-, happend⟩ := @remaining_append mktime sha1 printonly _ _ hleft h.start
  rw [happend, hsame]

end Lines

/-! ### Dates -/

/-- A text that `strptime` matches. -/
def IsDate (word : Bytes) : Prop := (strptime DATE_FORMAT word Tm.zero).1 = true

instance (word : Bytes) : Decidable (IsDate word) := inferInstanceAs (Decidable (_ = _))

/-- The time of a date, with this `tm_isdst`. -/
def dateTm (word : Bytes) (isdst : ℤ) : Tm :=
  { (strptime DATE_FORMAT word Tm.zero).2 with isdst := isdst }

/-- Of an earlier time a date leaves `tm_isdst` only. -/
theorem strptime_date {word : Bytes} (h : IsDate word) (tm : Tm) :
    (strptime DATE_FORMAT word tm).2 = dateTm word tm.isdst := by
  refine Tm.ext_get (fun c => ?_) (strptime_isdst DATE_FORMAT word tm)
  have hmem : Directive.convert c ∈ DATE_FORMAT := by cases c <;> decide
  have hget := @strptime_get Tm.zero tm DATE_FORMAT word c h (Or.inl hmem)
  rw [← hget]
  cases c <;> rfl

/-! ### Lines that depend on themselves alone -/

/-- A line whose code, password and dates are as the format says. The code is the number that is
written, not what an `int` makes of it. -/
structure InLine.Valid (l : InLine) : Prop where
  code : 0 ≤ strtol l.code ∧ strtol l.code < 10000
  pass : l.pass.length < 15
  start : l.start.length < 20 ∧ IsDate l.start
  end_ : l.end_.length < 20 ∧ IsDate l.end_

/-- The line with its times. -/
def InLine.entry (l : InLine) (start end_ : ℤ) : Entry :=
  ⟨toInt32 (strtol l.disabled), toInt32 (strtol l.code), l.pass, start, end_⟩

section Own

variable (mktime : Tm → ℤ × Tm) (sha1 : Bytes → Bytes) (printonly : Bool)

/-- What a line can do: what is stored, and the database before and behind it. -/
abbrev Effect := List Change → (Bytes → Get) → (Bytes → Get) → Prop

/-- Nothing is stored. -/
def StoresNothing : Effect := fun changes db db' => changes = [] ∧ db' = db

/-- The record of the line is stored under its code, with these times. -/
def InLine.Stores (l : InLine) (start end_ : ℤ) : Effect := fun changes db db' =>
  let codestr := printInt04 (strtol l.code)
  let record := (l.entry start end_).record sha1
  changes = [.inserted codestr record] ∧ db' = Function.update db codestr (.found record)

/-- Whatever the database and `tm` are at first, `main` gets through a text and then through
the line, and what it does with the line is such an effect. -/
def InLine.Does (l : InLine) (before : Bytes) (P : Effect) : Prop :=
  ∀ tm db, ∃ s s' changes changes',
    inspassWhile mktime sha1 printonly (some (db, tm)) before = (some s, changes) ∧
    inspassWhile mktime sha1 printonly (some (db, tm)) (before ++ l.text) =
      (some s', changes ++ changes') ∧
    P changes' s.1 s'.1

/-- What a line stores behind a text is a matter of the line: nothing, or its record, and each of
its two times is that of every valid line with the same date in its place, behind this text and
behind every text in step. -/
def OwnLine (before : Bytes) (l : InLine) : Prop :=
  l.Does mktime sha1 printonly before StoresNothing ∨
    l.Valid ∧ ∃ start end_, l.Does mktime sha1 printonly before (l.Stores sha1 start end_) ∧
      ∀ before', before' = before ∨ InStep before' → ∀ l' : InLine, l'.IsLine → l'.Valid →
        (l'.start = l.start → l'.Does mktime sha1 printonly before' fun changes db db' =>
          ∃ e, l'.Stores sha1 start e changes db db') ∧
        (l'.end_ = l.end_ → l'.Does mktime sha1 printonly before' fun changes db db' =>
          ∃ s, l'.Stores sha1 s end_ changes db db')

/-- `mktime` gives the date the same time with any `tm_isdst`. -/
def StartFixed (word : Bytes) : Prop :=
  ∀ i j, (mktime (dateTm word i)).1 = (mktime (dateTm word j)).1

/-- A date that can stand in a line. -/
def IsDateWord (word : Bytes) : Prop := IsWord word ∧ word.length < 20 ∧ IsDate word

/-- `mktime` gives the date the same time with any `tm_isdst` that it leaves behind a date. -/
def EndFixed (word : Bytes) : Prop :=
  ∀ v v', IsDateWord v → IsDateWord v' → ∀ i j,
    (mktime (dateTm word (mktime (dateTm v i)).2.isdst)).1 =
      (mktime (dateTm word (mktime (dateTm v' j)).2.isdst)).1

variable {mktime sha1 printonly} {l : InLine} {tm : Tm} {db : Bytes → Get} {before left : Bytes}
  {P : Effect} {c : ℤ}

theorem toInt32_code {z : ℤ} (h : 0 ≤ z ∧ z < 10000) : toInt32 z = z := by
  rw [toInt32]
  omega

theorem InLine.Valid.fits (hv : l.Valid) : l.Fits := by
  refine ⟨?_, hv.pass, hv.start.1, hv.end_.1⟩
  rw [InLine.fields, CodeFits, toInt32_code hv.code,
    length_printInt04 (by linarith [hv.code.1]) hv.code.2]
  decide

/-- The times of a valid line: the end is converted with the `tm_isdst` behind the start. -/
theorem inspassEntry_valid (hv : l.Valid) (tm : Tm) :
    (inspassEntry mktime tm l.fields).1 =
      l.entry (mktime (dateTm l.start tm.isdst)).1
        (mktime (dateTm l.end_ (mktime (dateTm l.start tm.isdst)).2.isdst)).1 := by
  simp only [inspassEntry, InLine.fields, strptime_date hv.start.2, strptime_date hv.end_.2]
  rfl

/-! #### In step -/

/-- Behind a text in step, all that is left of the text is the database and `tm`. -/
theorem InStep.does (hfront : InStep before) (hl : l.IsLine)
    (h : ∀ tm db, ∃ s, (inspassLoop mktime sha1 printonly (some (db, tm)) l.fields).1 = some s ∧
      P (inspassLoop mktime sha1 printonly (some (db, tm)) l.fields).2 db s.1) :
    l.Does mktime sha1 printonly before P := by
  intro tm db
  have hsome : (inspassWhile mktime sha1 printonly (some (db, tm)) before).1.isSome := by
    obtain ⟨left, hleft, -⟩ := hfront.blank
    rw [inspassWhile_isSome, hleft]
    rfl
  obtain ⟨⟨db₁, tm₁⟩, hs⟩ := Option.isSome_iff_exists.mp hsome
  obtain ⟨s', hs', hP⟩ := h tm₁ db₁
  refine ⟨(db₁, tm₁), s', _, _, Prod.ext hs rfl, ?_, hP⟩
  have hline := @inspassWhile_line mktime sha1 printonly _ (some (db₁, tm₁)) hl []
  rw [List.append_nil, hs', inspassWhile_eq []] at hline
  rw [hfront.inspassWhile_append, hs, hline]
  simp [scanFields, Client.scanNumber, scanInt, bind, Except.bind]

/-- At the beginning of the input the database and `tm` can be any. -/
theorem InLine.Does.nil (h : l.Does mktime sha1 printonly [] P) (hl : l.IsLine) (tm : Tm)
    (db : Bytes → Get) :
    ∃ s, (inspassLoop mktime sha1 printonly (some (db, tm)) l.fields).1 = some s ∧
      P (inspassLoop mktime sha1 printonly (some (db, tm)) l.fields).2 db s.1 := by
  obtain ⟨s, s', changes, changes', hbefore, hline, hP⟩ := h tm db
  have hnil : ∀ s, inspassWhile mktime sha1 printonly s [] = (s, []) := by
    intro s
    rw [inspassWhile_eq]
    rfl
  rw [hnil] at hbefore
  obtain ⟨hs, rfl⟩ := Prod.mk.inj hbefore
  obtain rfl := Option.some.inj hs
  have htext := @inspassWhile_line mktime sha1 printonly _ (some (db, tm)) hl []
  rw [List.append_nil, hnil, List.append_nil] at htext
  rw [List.nil_append, htext] at hline
  obtain ⟨hstate, hchanges⟩ := Prod.mk.inj hline
  exact ⟨s', hstate, hchanges ▸ hP⟩

/-- What a valid line stores, with its times. -/
theorem stores_valid (hv : l.Valid) (tm : Tm) (db : Bytes → Get) :
    ∃ s, (inspassLoop mktime sha1 false (some (db, tm)) l.fields).1 = some s ∧
      l.Stores sha1 (mktime (dateTm l.start tm.isdst)).1
        (mktime (dateTm l.end_ (mktime (dateTm l.start tm.isdst)).2.isdst)).1
        (inspassLoop mktime sha1 false (some (db, tm)) l.fields).2 db s.1 := by
  have hcode : l.fields.codeval = strtol l.code := toInt32_code hv.code
  rw [inspassLoop_false hv.fits, inspassEntry_valid hv, hcode]
  exact ⟨_, rfl, rfl, rfl⟩

/-- A valid line does what follows from the times that it stores. -/
theorem InLine.Valid.does (hv : l.Valid) (hl : l.IsLine) (hfront : InStep before)
    (h : ∀ (tm : Tm) changes db db', l.Stores sha1 (mktime (dateTm l.start tm.isdst)).1
      (mktime (dateTm l.end_ (mktime (dateTm l.start tm.isdst)).2.isdst)).1 changes db db' →
      P changes db db') :
    l.Does mktime sha1 false before P :=
  hfront.does hl fun tm db => (stores_valid hv tm db).imp fun _ hs => ⟨hs.1, h tm _ _ _ hs.2⟩

/-- The times of a valid line at the beginning of the input. -/
theorem InLine.Stores.times {db' : Bytes → Get} {start end_ : ℤ} (hv : l.Valid)
    (h : l.Stores sha1 start end_ (inspassLoop mktime sha1 false (some (db, tm)) l.fields).2
      db db') :
    (mktime (dateTm l.start tm.isdst)).1 = start ∧
      (mktime (dateTm l.end_ (mktime (dateTm l.start tm.isdst)).2.isdst)).1 = end_ := by
  obtain ⟨-, -, hstored, -⟩ := @stores_valid mktime sha1 l hv tm db
  rw [hstored] at h
  obtain ⟨-, hrecord⟩ := Change.inserted.inj (List.singleton_inj.mp h.1)
  exact ⟨congrArg Password.start hrecord, congrArg Password.end_ hrecord⟩

/-- A line whose times are its own is one that nothing `tm` held moves. -/
theorem fixed_of_does {start end_ : ℤ} (hl : l.IsLine) (hv : l.Valid)
    (h : ∀ l' : InLine, l'.IsLine → l'.Valid →
      (l'.start = l.start → l'.Does mktime sha1 false [] fun changes db db' =>
        ∃ e, l'.Stores sha1 start e changes db db') ∧
      (l'.end_ = l.end_ → l'.Does mktime sha1 false [] fun changes db db' =>
        ∃ s, l'.Stores sha1 s end_ changes db db')) :
    StartFixed mktime l.start ∧ EndFixed mktime l.end_ := by
  refine ⟨fun i j => ?_, ?_⟩
  · -- `tm_isdst` can be anything before the first line
    have hstart : ∀ i, (mktime (dateTm l.start i)).1 = start := by
      intro i
      obtain ⟨_, -, e, hstores⟩ := ((h l hl hv).1 rfl).nil hl { Tm.zero with isdst := i } newDb
      exact (hstores.times hv).1
    exact (hstart i).trans (hstart j).symm
  · -- the line with another date in front of its end
    have hend : ∀ v, IsDateWord v → ∀ i,
        (mktime (dateTm l.end_ (mktime (dateTm v i)).2.isdst)).1 = end_ := by
      rintro v ⟨hword, hdate⟩ i
      have hl' : { l with start := v }.IsLine := { hl with start := hword }
      have hv' : { l with start := v }.Valid := { hv with start := hdate }
      obtain ⟨_, -, s, hstores⟩ := ((h _ hl' hv').2 rfl).nil hl' { Tm.zero with isdst := i } newDb
      exact (hstores.times hv').2
    intro v v' hv hv' i j
    exact (hend v hv i).trans (hend v' hv' j).symm

/-- The times of a valid line whose dates do not look at what is left of others are its own. -/
theorem ownLine_of_fixed (hfront : InStep before) (hl : l.IsLine) (hv : l.Valid)
    (hstart : StartFixed mktime l.start) (hend : EndFixed mktime l.end_) :
    OwnLine mktime sha1 false before l := by
  have hdate : IsDateWord l.start := ⟨hl.start, hv.start⟩
  refine Or.inr ⟨hv, (mktime (dateTm l.start 0)).1,
    (mktime (dateTm l.end_ (mktime (dateTm l.start 0)).2.isdst)).1, ?_, ?_⟩
  · refine hv.does hl hfront fun tm changes db db' hstores => ?_
    rwa [hstart tm.isdst 0, hend _ _ hdate hdate tm.isdst 0] at hstores
  · intro before' hbefore' l' hl' hv'
    have hfront' : InStep before' := hbefore'.elim (fun heq => heq ▸ hfront) id
    refine ⟨fun hsame => ?_, fun hsame => ?_⟩
    · refine hv'.does hl' hfront' fun tm changes db db' hstores => ?_
      rw [hsame, hstart tm.isdst 0] at hstores
      exact ⟨_, hstores⟩
    · refine hv'.does hl' hfront' fun tm changes db db' hstores => ?_
      rw [hsame, hend _ _ ⟨hl'.start, hv'.start⟩ hdate tm.isdst 0] at hstores
      exact ⟨_, hstores⟩

/-! #### Out of step -/

/-- The call behind what a text leaves stores a record under the code that it reads. -/
theorem InLine.Does.inserted (h : l.Does mktime sha1 false before P)
    (hleft : remaining before = some left) (hstart : LineStart before)
    (hcode : TakesCode (left ++ l.text) c) :
    ∃ record changes db db', P (.inserted (printInt04 c) record :: changes) db db' := by
  obtain ⟨⟨db, tm⟩, s', changes, changes', hbefore, hline, hP⟩ := h Tm.zero newDb
  obtain ⟨-, happend⟩ := @remaining_append mktime sha1 false _ _ hleft hstart
  rw [happend, hbefore, inspassWhile_eq] at hline
  obtain ⟨hstate, hchanges⟩ := Prod.mk.inj hline
  have hchanges := List.append_cancel_left hchanges
  rcases hcode with hoverrun | ⟨f, rest, hscan, rfl⟩
  · rw [hoverrun] at hstate
    cases hstate
  · rw [hscan] at hstate hchanges
    by_cases hfits : f.Fits
    · dsimp only at hchanges
      rw [inspassLoop_false hfits] at hchanges
      exact ⟨_, _, _, _, hchanges ▸ hP⟩
    · dsimp only at hstate
      rw [inspassLoop_of_not_fits hfits, inspassWhile_none] at hstate
      cases hstate

/-- `main` gets through the text that a line does something behind. -/
theorem InLine.Does.remaining (h : l.Does mktime sha1 printonly before P) :
    (remaining before).isSome ∧ (remaining (before ++ l.text)).isSome := by
  obtain ⟨s, s', changes, changes', hbefore, hline, -⟩ := h Tm.zero newDb
  rw [← @inspassWhile_isSome mktime sha1 printonly before newDb Tm.zero,
    ← @inspassWhile_isSome mktime sha1 printonly (before ++ l.text) newDb Tm.zero, hbefore, hline]
  exact ⟨rfl, rfl⟩

theorem OwnLine.remaining (h : OwnLine mktime sha1 printonly before l) :
    (remaining before).isSome ∧ (remaining (before ++ l.text)).isSome := by
  rcases h with hnothing | ⟨-, start, end_, hstores, -⟩
  · exact hnothing.remaining
  · exact hstores.remaining

/-- Where `main` goes on with a line, the call that reads it stores something. -/
theorem takesCode_line (hl : l.IsLine) (hstart : LineStart left)
    (hnumber : noNumber left = false) : ∃ c, TakesCode (left ++ l.text) c := by
  by_cases hblank : Blank left
  · refine ⟨l.fields.codeval, ?_⟩
    have hskip : scanFields (left ++ l.text) = scanFields l.text := by
      simp only [scanFields, steady_scanNumber.blank left l.text hblank]
    have hline := scanFields_line hl []
    rw [List.append_nil] at hline
    unfold TakesCode
    rw [hskip, hline]
    split_ifs
    · exact Or.inr ⟨_, _, rfl, rfl⟩
    · exact Or.inl rfl
  · rcases takesCode_cut hstart hblank hnumber with ⟨c, hcode⟩ | hcode
    · exact ⟨c, hcode l hl⟩
    · exact ⟨_, hcode l hl⟩

/-- Behind a call that is begun, the lines with the same date cannot all be stored under their
own codes. -/
theorem not_forall_does (hl : l.IsLine) (hv : l.Valid) (hleft : remaining before = some left)
    (hstart : LineStart before) (hstart' : LineStart left) (hblank : ¬ Blank left)
    (hnumber : noNumber left = false) {start : ℤ} :
    ¬ ∀ l' : InLine, l'.IsLine → l'.Valid → l'.start = l.start →
      l'.Does mktime sha1 false before fun changes db db' =>
        ∃ e, l'.Stores sha1 start e changes db db' := by
  intro h
  -- the line with the numbers 0 and 1, and with 0 and 2
  have hcode : ∀ code : Bytes, IsInt code → 0 ≤ strtol code ∧ strtol code < 10000 → ∀ c,
      TakesCode (left ++ { l with disabled := ascii "0", code := code }.text) c →
      c = strtol code := by
    intro code hint hrange c htakes
    have hzero : IsInt (ascii "0") := ⟨⟨by decide, by decide +kernel⟩, 0, by decide⟩
    have hdoes := h { l with disabled := ascii "0", code := code }
      { hl with disabled := hzero, code := hint } { hv with code := hrange } rfl
    obtain ⟨record, changes, db, db', e, hstores, -⟩ := hdoes.inserted hleft hstart htakes
    exact printInt04_injective (Change.inserted.inj (List.cons.inj hstores).1).1
  have hone : IsInt (ascii "1") := ⟨⟨by decide, by decide +kernel⟩, 1, by decide⟩
  have htwo : IsInt (ascii "2") := ⟨⟨by decide, by decide +kernel⟩, 2, by decide⟩
  have hzero : IsInt (ascii "0") := ⟨⟨by decide, by decide +kernel⟩, 0, by decide⟩
  rcases takesCode_cut hstart' hblank hnumber with ⟨c, hcut⟩ | hcut
  · have hc := hcode _ hone (by decide) c (hcut _ { hl with disabled := hzero, code := hone })
    have hc' := hcode _ htwo (by decide) c (hcut _ { hl with disabled := hzero, code := htwo })
    exact absurd (hc.symm.trans hc') (by decide)
  · have hc := hcode _ hone (by decide) _ (hcut _ { hl with disabled := hzero, code := hone })
    have hne : toInt32 (strtol (ascii "0")) ≠ strtol (ascii "1") := by decide
    exact hne hc

/-! #### Both -/

/-- A line that stores what is its own without `--print`. -/
theorem OwnLine.cases (h : OwnLine mktime sha1 false before l) (hl : l.IsLine)
    (hstart : LineStart before) :
    Ended before ∨
      InStep before ∧ l.Valid ∧ StartFixed mktime l.start ∧ EndFixed mktime l.end_ := by
  have hsome := h.remaining.1
  obtain ⟨left, hleft⟩ := Option.isSome_iff_exists.mp hsome
  by_cases hnumber : noNumber left = true
  · exact Or.inl ⟨left, hleft, hnumber⟩
  rw [Bool.not_eq_true] at hnumber
  obtain ⟨hstart', -⟩ := @remaining_append mktime sha1 false _ _ hleft hstart
  rcases h with hnothing | ⟨hv, start, end_, -, hsame⟩
  -- something is stored
  · obtain ⟨c, hcode⟩ := takesCode_line hl hstart' hnumber
    obtain ⟨_, _, _, _, hnil, -⟩ := hnothing.inserted hleft hstart hcode
    cases hnil
  · have hblank : Blank left := by
      by_contra hblank
      exact not_forall_does hl hv hleft hstart hstart' hblank hnumber fun l' hl' hv' =>
        (hsame before (Or.inl rfl) l' hl' hv').1
    exact Or.inr ⟨⟨hstart, left, hleft, hblank⟩, hv,
      fixed_of_does hl hv fun l' hl' hv' => hsame [] (Or.inr inStep_nil) l' hl' hv'⟩

/-- Behind the end of `main` a line stores nothing. -/
theorem Ended.does (h : Ended before) (hstart : LineStart before) :
    l.Does mktime sha1 printonly before StoresNothing := by
  intro tm db
  have hsome : (inspassWhile mktime sha1 printonly (some (db, tm)) before).1.isSome := by
    obtain ⟨left, hleft, -⟩ := h
    rw [inspassWhile_isSome, hleft]
    rfl
  obtain ⟨s, hs⟩ := Option.isSome_iff_exists.mp hsome
  refine ⟨s, s, _, [], Prod.ext hs rfl, ?_, rfl, rfl⟩
  rw [h.inspassWhile_append hstart, List.append_nil]
  exact Prod.ext hs rfl

/-- With `--print` a line stores nothing. -/
theorem does_printed (h : (remaining before).isSome) (h' : (remaining (before ++ l.text)).isSome) :
    l.Does mktime sha1 true before StoresNothing := fun tm db =>
  ⟨(db, tm), (db, tm), [], [], inspassWhile_print h, inspassWhile_print h', rfl, rfl⟩

/-- **The lines of `inspass`.** Behind a text, a line stores what is its own exactly when `main`
does not come to it, or prints only and no array overruns, or a call of `fscanf` begins with it,
it is valid, and `mktime` gives its dates their times without regard to what is left of the dates
before. -/
theorem own_line_iff (hl : l.IsLine) (hstart : LineStart before) :
    OwnLine mktime sha1 printonly before l ↔
      Ended before ∨
      (printonly = true ∧ (remaining before).isSome ∧ (remaining (before ++ l.text)).isSome) ∨
      (printonly = false ∧ InStep before ∧ l.Valid ∧ StartFixed mktime l.start ∧
        EndFixed mktime l.end_) := by
  constructor
  · intro hown
    cases printonly with
    | true => exact Or.inr (Or.inl ⟨rfl, hown.remaining⟩)
    | false => exact (hown.cases hl hstart).imp_right fun h => Or.inr ⟨rfl, h⟩
  · rintro (hended | ⟨rfl, h, h'⟩ | ⟨rfl, hfront, hv, hfixed, hfixed'⟩)
    · exact Or.inl (hended.does hstart)
    · exact Or.inl (does_printed h h')
    · exact ownLine_of_fixed hfront hl hv hfixed hfixed'

/-! #### Whole inputs -/

/-- The entry of a valid line, by itself. -/
def InLine.ownEntry (mktime : Tm → ℤ × Tm) (l : InLine) : Entry :=
  l.entry (mktime (dateTm l.start 0)).1
    (mktime (dateTm l.end_ (mktime (dateTm l.start 0)).2.isdst)).1

/-- A line that `inspass` reads as it is meant, wherever it stands in step. -/
structure InLine.Sound (mktime : Tm → ℤ × Tm) (l : InLine) : Prop where
  line : l.IsLine
  valid : l.Valid
  start : StartFixed mktime l.start
  end_ : EndFixed mktime l.end_

/-- Such a line is stored with its own times, whatever `tm` held. -/
theorem InLine.Sound.stored (h : l.Sound mktime) (tm : Tm) (db : Bytes → Get) :
    inspassLoop mktime sha1 false (some (db, tm)) l.fields =
      (some (Function.update db (printInt04 (strtol l.code))
          (.found ((l.ownEntry mktime).record sha1)), (inspassEntry mktime tm l.fields).2),
        [.inserted (printInt04 (strtol l.code)) ((l.ownEntry mktime).record sha1)]) := by
  have hdate : IsDateWord l.start := ⟨h.line.start, h.valid.start⟩
  have hcode : l.fields.codeval = strtol l.code := toInt32_code h.valid.code
  rw [inspassLoop_false h.valid.fits, inspassEntry_valid h.valid, h.start tm.isdst 0,
    h.end_ _ _ hdate hdate tm.isdst 0, hcode]
  rfl

/-- An input of such lines makes the database of their entries, whatever `tm` held at first. -/
theorem inspassWhile_own {lines : List InLine} (hlines : ∀ l ∈ lines, l.Sound mktime) (tm : Tm) :
    (inspassWhile mktime sha1 false (some (newDb, tm)) (lines.flatMap InLine.text)).1.map
      Prod.fst = some (inspass sha1 (lines.map (InLine.ownEntry mktime))) := by
  rw [inspassWhile_lines fun l hl => (hlines l hl).line, inspass]
  change _ = some ((lines.map (InLine.ownEntry mktime)).foldl _ newDb)
  generalize newDb = db
  induction lines generalizing tm db with
  | nil => rfl
  | cons l lines ih =>
    have hcode : (l.ownEntry mktime).codeval = strtol l.code :=
      toInt32_code (hlines l (by simp)).valid.code
    rw [List.map_cons, Machine.run_cons_fst, (hlines l (by simp)).stored, List.map_cons,
      List.foldl_cons, passInsertdb_true, hcode]
    exact ih (fun l' hl' => hlines l' (by simp [hl'])) _ _

end Own

/-! ### A date that is none -/

def sampleLine : InLine where
  disabled := ascii "0"
  code := ascii "1234"
  pass := ascii "abc"
  start := ascii "2005-01-01.10:00:00"
  end_ := ascii "2005-12-31.10:00:00"

/-- A line without a start. -/
def lateLine : InLine := { sampleLine with start := ascii "later" }

theorem sampleLine_isLine : sampleLine.IsLine where
  disabled := ⟨⟨by decide, by decide +kernel⟩, 0, by decide⟩
  code := ⟨⟨by decide, by decide +kernel⟩, 1234, by decide⟩
  pass := ⟨by decide, by decide +kernel⟩
  start := ⟨by decide, by decide +kernel⟩
  end_ := ⟨by decide, by decide +kernel⟩

theorem lateLine_isLine : lateLine.IsLine :=
  { sampleLine_isLine with start := ⟨by decide, by decide +kernel⟩ }

/-- A line without an end. -/
def fourWords : Bytes := ascii "0 1234 abc 2005-01-01.10:00:00\n"

theorem lineStart_text (l : InLine) : LineStart l.text :=
  Or.inr ⟨l.disabled ++ 32 :: (l.code ++ 32 :: (l.pass ++ 32 :: (l.start ++ 32 :: l.end_))),
    by simp [InLine.text]⟩

example : (mktimeUtc (dateTm (ascii "2005-12-31.10:00:00") 0)).1 = 1136023200 := by decide

theorem own_line_iff_sample :
    OwnLine mktimeUtc fillUp false sampleLine.text sampleLine ↔
      Ended sampleLine.text ∨
      (false = true ∧ (remaining sampleLine.text).isSome ∧
        (remaining (sampleLine.text ++ sampleLine.text)).isSome) ∨
      (false = false ∧ InStep sampleLine.text ∧ sampleLine.Valid ∧
        StartFixed mktimeUtc sampleLine.start ∧ EndFixed mktimeUtc sampleLine.end_) :=
  own_line_iff sampleLine_isLine (lineStart_text sampleLine)

/-- A line without a start is stored, with the time that `tm` held before, and a valid line behind
one without an end under the code of that one. -/
theorem own_line_fails_sample :
    (lateLine.IsLine ∧ ¬ OwnLine mktimeUtc fillUp false [] lateLine) ∧
      sampleLine.IsLine ∧ LineStart fourWords ∧
        ¬ OwnLine mktimeUtc fillUp false fourWords sampleLine := by
  have hfour : LineStart fourWords :=
    Or.inr ⟨ascii "0 1234 abc 2005-01-01.10:00:00", by decide +kernel⟩
  refine ⟨⟨lateLine_isLine, fun hown => ?_⟩, sampleLine_isLine, hfour, fun hown => ?_⟩
  · rcases hown.cases lateLine_isLine (Or.inl rfl) with ⟨left, hleft, hnumber⟩ | ⟨-, hv, -⟩
    · have hnil : remaining [] = some [] := by
        rw [remaining_eq]
        rfl
      rw [hnil] at hleft
      obtain rfl := Option.some.inj hleft
      exact absurd hnumber (by decide)
    · exact absurd hv.start.2 (by decide)
  -- the call is begun: it finds no fifth word
  · have hscan : scanFields fourWords = .error .mismatch := by decide +kernel
    have hremaining : remaining fourWords = some fourWords := by rw [remaining_eq, hscan]
    rcases hown.cases sampleLine_isLine hfour with ⟨left, hleft, hnumber⟩ | ⟨hfront, -⟩
    · rw [hremaining] at hleft
      obtain rfl := Option.some.inj hleft
      exact absurd hnumber (by decide +kernel)
    · obtain ⟨left, hleft, hblank⟩ := hfront.blank
      rw [hremaining] at hleft
      obtain rfl := Option.some.inj hleft
      exact absurd hblank (by decide +kernel)

end Esif.Server
