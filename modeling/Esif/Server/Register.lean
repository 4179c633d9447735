import Esif.Posix.Scan
import Esif.Server.Step
import Esif.Server.Times

/-!
# The register of the colleges

What the four programs of the administrator are for: they keep a register that lays
down, for each code, the password of the college, its window and whether it is shut out.
The database of `inspass`, `delpass`, `dispass` and `enapass` shows this register, whatever
the programs find on their stacks and however often they are run.

## Main definitions

* `Account`, `Register`, `Deed` — the register and what is done to it
* `codesWhile`, `Command.run` — the programs over the bytes of their inputs
* `Sheet` — an input that is written as the programs ask for it
* `Register.Shown` — the database shows the register
* `Account.Open` — the account lets its college in at the two looks at the clock

## Main results

* `Sheet.shown` — a program does to the database what its input does to the register
* `administration_shown` — any number of programs
* `Register.Shown.found` — a record that is found is that of an account
* `genpass_register` — the register that `genpass` is for
-/

namespace Esif.Server

open Esif.CS Esif.Posix

/-! ### The register -/

/-- What is laid down for a college. -/
structure Account where
  pass : Bytes
  disabled : Bool
  start : ℤ
  end_ : ℤ
  deriving DecidableEq, Repr

/-- What is laid down for each code. -/
abbrev Register := ℤ → Option Account

/-- What an administrator does to the register. -/
inductive Deed where
  | grant (code : ℤ) (account : Account)
  | revoke (code : ℤ)
  | suspend (code : ℤ) (disabled : Bool)

/-- An account can only be shut out or let in again while there is one. -/
def Register.after (r : Register) : Deed → Register
  | .grant code account => Function.update r code (some account)
  | .revoke code => Function.update r code none
  | .suspend code disabled =>
    Function.update r code ((r code).map fun account => { account with disabled := disabled })

/-- The register behind the deeds, in their order. -/
def Register.afterAll (r : Register) (deeds : List Deed) : Register :=
  deeds.foldl Register.after r

/-- A register with nothing in it. -/
def Register.new : Register := fun _ => none

/-! ### The programs -/

/-- `while (fscanf(stdin, "%d", &codeval) == 1)`, the loop of `delpass`, `dispass` and `enapass`. -/
def codesWhile {σ : Type} (m : Machine (Option σ) ℤ Change) (s : Option σ) (input : Bytes) :
    Option σ :=
  match _h : scanInt input with
  | none => s
  | some (codeval, rest) => codesWhile m (m s codeval).1 rest
  termination_by input.length
  decreasing_by exact (scanInt_suffix _h).2

/-- A program with its input. `tm` and `garbage` are what its stack holds at first. -/
inductive Command where
  | inspass (tm : Tm) (input : Bytes)
  | delpass (input : Bytes)
  | dispass (garbage : Password) (input : Bytes)
  | enapass (garbage : Password) (input : Bytes)

section Programs

variable (mktime : Tm → ℤ × Tm) (sha1 : Bytes → Bytes)

/-- `main` of each program, on the database. No lookup fails but of what is not there. -/
def Command.run (db : Bytes → Get) : Command → Option (Bytes → Get)
  | .inspass tm input => (inspassWhile mktime sha1 false (some (db, tm)) input).1.map Prod.fst
  | .delpass input => codesWhile Server.delpass (some db) input
  | .dispass garbage input =>
    (codesWhile (fun s codeval => Server.dispass s (codeval, none)) (some (db, garbage)) input).map
      Prod.fst
  | .enapass garbage input =>
    (codesWhile (fun s codeval => Server.enapass s (codeval, none)) (some (db, garbage)) input).map
      Prod.fst

/-- The account of a line. The server takes the number 1 for shut out, and no other. -/
def InLine.account (l : InLine) : Account where
  pass := l.pass
  disabled := decide ((l.ownEntry mktime).disabled = 1)
  start := (l.ownEntry mktime).start
  end_ := (l.ownEntry mktime).end_

end Programs

/-- A code as an administrator writes it. -/
structure IsCode (word : Bytes) : Prop where
  int : IsInt word
  range : 0 ≤ strtol word ∧ strtol word < 10000

/-- A program with the lines of its input. -/
inductive Sheet where
  | inspass (tm : Tm) (lines : List InLine)
  | delpass (codes : List Bytes)
  | dispass (garbage : Password) (codes : List Bytes)
  | enapass (garbage : Password) (codes : List Bytes)

/-- Each code on a line of its own. -/
def codesText (codes : List Bytes) : Bytes := codes.flatMap (· ++ [newline])

def Sheet.command : Sheet → Command
  | .inspass tm lines => .inspass tm (lines.flatMap InLine.text)
  | .delpass codes => .delpass (codesText codes)
  | .dispass garbage codes => .dispass garbage (codesText codes)
  | .enapass garbage codes => .enapass garbage (codesText codes)

/-- The input is written as the program asks for it. -/
def Sheet.Valid (mktime : Tm → ℤ × Tm) : Sheet → Prop
  | .inspass _ lines => ∀ l ∈ lines, l.Sound mktime
  | .delpass codes | .dispass _ codes | .enapass _ codes => ∀ word ∈ codes, IsCode word

/-- What the input does to the register. -/
def Sheet.deeds (mktime : Tm → ℤ × Tm) : Sheet → List Deed
  | .inspass _ lines => lines.map fun l => .grant (strtol l.code) (l.account mktime)
  | .delpass codes => codes.map fun word => .revoke (strtol word)
  | .dispass _ codes => codes.map fun word => .suspend (strtol word) true
  | .enapass _ codes => codes.map fun word => .suspend (strtol word) false

/-- The register behind the inputs of any number of programs. -/
def Register.of (mktime : Tm → ℤ × Tm) (sheets : List Sheet) : Register :=
  Register.new.afterAll (sheets.flatMap (Sheet.deeds mktime))

/-- The database behind any number of programs, from a new one on. -/
def administration (mktime : Tm → ℤ × Tm) (sha1 : Bytes → Bytes) (sheets : List Sheet) :
    Option (Bytes → Get) :=
  sheets.foldlM (fun db sheet => sheet.command.run mktime sha1 db) newDb

/-! ### The database shows the register -/

section Shown

variable (sha1 : Bytes → Bytes)

/-- The record is that of the account. -/
structure Account.IsIn (account : Account) (data : Password) : Prop where
  pass : data.pass = sha1 (cstr account.pass)
  len : data.len = SHA_DIGEST_LENGTH
  disabled : data.disabled = 1 ↔ account.disabled = true
  start : data.start = account.start
  end_ : data.end_ = account.end_

/-- What a lookup gives where the account is laid down. -/
inductive Looks : Option Account → Get → Prop
  | absent : Looks none (.failed DB_NOTFOUND)
  | present {account : Account} {data : Password} (h : account.IsIn sha1 data) :
    Looks (some account) (.found data)

/-- Each account is found under the digits of its code, and nothing else is. -/
structure Register.Shown (r : Register) (db : Bytes → Get) : Prop where
  looks : ∀ code, Looks sha1 (r code) (db (printInt04 code))
  range : ∀ code, r code ≠ none → 0 ≤ code ∧ code < 10000
  other : ∀ key, (∀ code, key ≠ printInt04 code) → db key = .failed DB_NOTFOUND

variable {sha1} {r : Register} {db : Bytes → Get} {code : ℤ} {l : InLine}

theorem Register.shown_new : Register.new.Shown sha1 newDb where
  looks _ := .absent
  range _ hsome := absurd rfl hsome
  other _ _ := rfl

/-- One code is set in both. -/
theorem Register.Shown.update (h : r.Shown sha1 db) {account : Option Account} {get : Get}
    (hlooks : Looks sha1 account get) (hrange : account ≠ none → 0 ≤ code ∧ code < 10000) :
    Register.Shown sha1 (Function.update r code account)
      (Function.update db (printInt04 code) get) where
  looks code' := by
    by_cases hcode : code' = code
    · subst hcode
      rwa [Function.update_self, Function.update_self]
    · rw [Function.update_of_ne hcode, Function.update_of_ne fun heq => hcode
        (printInt04_injective heq)]
      exact h.looks code'
  range code' hsome := by
    by_cases hcode : code' = code
    · subst hcode
      exact hrange (by rwa [Function.update_self] at hsome)
    · exact h.range code' (by rwa [Function.update_of_ne hcode] at hsome)
  other key hkey := by
    rw [Function.update_of_ne (hkey code)]
    exact h.other key hkey

/-- The record of a line is that of its account. -/
theorem InLine.account_isIn (mktime : Tm → ℤ × Tm) (l : InLine) :
    (l.account mktime).IsIn sha1 ((l.ownEntry mktime).record sha1) where
  pass := rfl
  len := rfl
  disabled := by simp [InLine.account, Entry.record]
  start := rfl
  end_ := rfl

theorem Account.IsIn.suspend {account : Account} {data : Password} (h : account.IsIn sha1 data)
    {disabled : ℤ} {flag : Bool} (hflag : disabled = 1 ↔ flag = true) :
    Account.IsIn sha1 { account with disabled := flag } { data with disabled := disabled } :=
  { h with disabled := hflag }

/-! ### One line -/

/-- A line of `inspass` lays down its account. -/
theorem Register.Shown.inspassLoop {mktime : Tm → ℤ × Tm} (h : r.Shown sha1 db)
    (hl : l.Sound mktime) (tm : Tm) :
    ∃ s, (inspassLoop mktime sha1 false (some (db, tm)) l.fields).1 = some s ∧
      (r.after (.grant (strtol l.code) (l.account mktime))).Shown sha1 s.1 := by
  rw [hl.stored]
  exact ⟨_, rfl, h.update (.present (l.account_isIn mktime)) fun _ => hl.valid.code⟩

theorem codeFits (hcode : 0 ≤ code ∧ code < 10000) : CodeFits code := by
  rw [CodeFits, length_printInt04 (by linarith [hcode.1]) hcode.2]
  decide

/-- A code of `delpass` is struck out. -/
theorem Register.Shown.delpass (h : r.Shown sha1 db) (hcode : 0 ≤ code ∧ code < 10000) :
    ∃ db', (Server.delpass (some db) code).1 = some db' ∧
      (r.after (.revoke code)).Shown sha1 db' := by
  rw [delpass_fits (codeFits hcode)]
  exact ⟨_, rfl, h.update .absent fun hsome => absurd rfl hsome⟩

/-- A code of `dispass` or `enapass` has its flag set, if it is there. -/
theorem Register.Shown.setDisabled (h : r.Shown sha1 db) {disabled : ℤ} {flag : Bool}
    (hflag : disabled = 1 ↔ flag = true) (pwd : Password) (hcode : 0 ≤ code ∧ code < 10000) :
    ∃ s, (Server.setDisabled disabled (some (db, pwd)) (code, none)).1 = some s ∧
      (r.after (.suspend code flag)).Shown sha1 s.1 := by
  have hfits := codeFits hcode
  have hlooks := h.looks code
  have hafter : r.after (.suspend code flag) = Function.update r code
      ((r code).map fun account => { account with disabled := flag }) := rfl
  generalize hget : db (printInt04 code) = get at hlooks
  generalize haccount : r code = account at hlooks hafter
  rw [hafter]
  cases hlooks with
  | absent =>
    -- it is passed over
    have hnone : Server.setDisabled disabled (some (db, pwd)) (code, none) =
        (some (db, pwd), []) := by
      simp [Server.setDisabled, Machine.guarded, hfits, passGetdb, getOr, hget, DB_NOTFOUND]
    rw [hnone, Option.map_none, ← haccount, Function.update_eq_self]
    exact ⟨_, rfl, h⟩
  | @present account data hin =>
    have hset : (Server.setDisabled disabled (some (db, pwd)) (code, none)).1 =
        some (Function.update db (printInt04 code) (.found { data with disabled := disabled }),
          { data with disabled := disabled }) := by
      simp [Server.setDisabled, Machine.guarded, hfits, passGetdb, getOr, hget, passInsertdb_true]
    rw [hset]
    exact ⟨_, rfl, h.update (.present (hin.suspend hflag)) fun _ => hcode⟩

end Shown

/-! ### Whole inputs -/

section Inputs

variable {σ : Type} {m : Machine (Option σ) ℤ Change} {s : Option σ} {codes : List Bytes}
  {word : Bytes}

theorem codesWhile_eq (input : Bytes) :
    codesWhile m s input =
      match scanInt input with
      | none => s
      | some (codeval, rest) => codesWhile m (m s codeval).1 rest := by
  rw [codesWhile]
  split <;> simp_all

theorem codesWhile_newline (rest : Bytes) :
    codesWhile m s (newline :: rest) = codesWhile m s rest := by
  have hscan : scanInt (newline :: rest) = scanInt rest := rfl
  rw [codesWhile_eq, codesWhile_eq rest, hscan]

theorem codesWhile_line (hword : IsCode word) (rest : Bytes) :
    codesWhile m s (word ++ newline :: rest) = codesWhile m (m s (strtol word)).1 rest := by
  rw [codesWhile_eq, hword.int.scanInt_append (by decide), toInt32_code hword.range]
  exact codesWhile_newline rest

/-- The codes are taken one after the other. -/
theorem codesWhile_codes (hcodes : ∀ word ∈ codes, IsCode word) :
    codesWhile m s (codesText codes) = (m.run s (codes.map strtol)).1 := by
  induction codes generalizing s with
  | nil =>
    rw [codesWhile_eq]
    rfl
  | cons word codes ih =>
    have htext : codesText (word :: codes) = word ++ newline :: codesText codes := by
      simp [codesText]
    rw [htext, codesWhile_line (hcodes word (by simp))]
    exact ih fun word' hword' => hcodes word' (by simp [hword'])

variable {ι : Type} {mktime : Tm → ℤ × Tm} {sha1 : Bytes → Bytes} {r : Register} {db : Bytes → Get}

/-- What each input of a loop does to the register, all of them do. -/
theorem Register.Shown.run {m : Machine (Option σ) ι Change} {ok : ι → Prop}
    (view : σ → Bytes → Get) (deed : ι → Deed)
    (step : ∀ {r : Register} {s : σ} {i : ι}, ok i → r.Shown sha1 (view s) →
      ∃ s', (m (some s) i).1 = some s' ∧ (r.after (deed i)).Shown sha1 (view s'))
    {s : σ} (h : r.Shown sha1 (view s)) {is : List ι} (his : ∀ i ∈ is, ok i) :
    ∃ s', (m.run (some s) is).1 = some s' ∧
      (r.afterAll (is.map deed)).Shown sha1 (view s') := by
  induction is generalizing r s with
  | nil => exact ⟨s, rfl, h⟩
  | cons i is ih =>
    obtain ⟨s', hs', hshown⟩ := step (his i (by simp)) h
    rw [Machine.run_cons_fst, hs']
    exact ih hshown fun i' hi' => his i' (by simp [hi'])

/-- An input of `inspass`. -/
theorem Register.Shown.inspass (h : r.Shown sha1 db) {lines : List InLine}
    (hlines : ∀ l ∈ lines, l.Sound mktime) (tm : Tm) :
    ∃ s, ((Server.inspassLoop mktime sha1 false).run (some (db, tm))
        (lines.map InLine.fields)).1 = some s ∧
      (r.afterAll (lines.map fun l => .grant (strtol l.code) (l.account mktime))).Shown
        sha1 s.1 := by
  induction lines generalizing r db tm with
  | nil => exact ⟨(db, tm), rfl, h⟩
  | cons l lines ih =>
    obtain ⟨s, hline, hshown⟩ := h.inspassLoop (hlines l (by simp)) tm
    rw [List.map_cons, Machine.run_cons_fst, hline]
    exact ih hshown (fun l' hl' => hlines l' (by simp [hl'])) s.2

/-- A code that is in its range. -/
def InRange (code : ℤ) : Prop := 0 ≤ code ∧ code < 10000

theorem inRange_codes (hcodes : ∀ word ∈ codes, IsCode word) :
    ∀ code ∈ codes.map strtol, InRange code := by
  intro code hcode
  obtain ⟨word, hword, rfl⟩ := List.mem_map.mp hcode
  exact (hcodes word hword).range

/-- An input of `dispass` or `enapass`. -/
theorem Register.Shown.flags (h : r.Shown sha1 db) (disabled : ℤ) (flag : Bool)
    (hflag : disabled = 1 ↔ flag = true) (garbage : Password)
    (hcodes : ∀ word ∈ codes, IsCode word) :
    ∃ s, codesWhile (fun s codeval => Server.setDisabled disabled s (codeval, none))
        (some (db, garbage)) (codesText codes) = some s ∧
      (r.afterAll (codes.map fun word => .suspend (strtol word) flag)).Shown sha1 s.1 := by
  have step : ∀ {r : Register} {s : (Bytes → Get) × Password} {code : ℤ}, InRange code →
      r.Shown sha1 s.1 → ∃ s', (Server.setDisabled disabled (some s) (code, none)).1 = some s' ∧
        (r.after (.suspend code flag)).Shown sha1 s'.1 :=
    fun hcode h => h.setDisabled hflag _ hcode
  rw [codesWhile_codes hcodes]
  obtain ⟨s, hs, hshown⟩ := Register.Shown.run
    (m := fun s codeval => Server.setDisabled disabled s (codeval, none)) Prod.fst
    (.suspend · flag) step (s := (db, garbage)) h (inRange_codes hcodes)
  exact ⟨s, hs, by simpa [Function.comp_def] using hshown⟩

/-- A program gets through an input written as it asks for, and what it makes of the database
shows what the input makes of the register. -/
theorem Sheet.shown {sheet : Sheet} (hvalid : sheet.Valid mktime) (h : r.Shown sha1 db) :
    ∃ db', sheet.command.run mktime sha1 db = some db' ∧
      (r.afterAll (sheet.deeds mktime)).Shown sha1 db' := by
  cases sheet with
  | inspass tm lines =>
    obtain ⟨s, hs, hshown⟩ := h.inspass hvalid tm
    refine ⟨s.1, ?_, hshown⟩
    rw [command, Command.run, inspassWhile_lines fun l hl => (hvalid l hl).line, hs]
    rfl
  | delpass codes =>
    have step : ∀ {r : Register} {db : Bytes → Get} {code : ℤ}, InRange code → r.Shown sha1 db →
        ∃ db', (Server.delpass (some db) code).1 = some db' ∧
          (r.after (.revoke code)).Shown sha1 db' := fun hcode h => h.delpass hcode
    obtain ⟨db', hdb', hshown⟩ := Register.Shown.run id .revoke step h (inRange_codes hvalid)
    refine ⟨db', (codesWhile_codes hvalid).trans hdb', ?_⟩
    simpa [deeds, Function.comp_def] using hshown
  | dispass garbage codes =>
    obtain ⟨s, hs, hshown⟩ := h.flags 1 true (by decide) garbage hvalid
    exact ⟨s.1, congrArg (Option.map Prod.fst) hs, hshown⟩
  | enapass garbage codes =>
    obtain ⟨s, hs, hshown⟩ := h.flags 0 false (by decide) garbage hvalid
    exact ⟨s.1, congrArg (Option.map Prod.fst) hs, hshown⟩

/-- Any number of programs, one after the other. -/
theorem administration_shown {sheets : List Sheet}
    (hvalid : ∀ sheet ∈ sheets, sheet.Valid mktime) :
    ∃ db, administration mktime sha1 sheets = some db ∧
      (Register.of mktime sheets).Shown sha1 db := by
  have hrun : ∀ {r : Register} {db : Bytes → Get}, r.Shown sha1 db →
      ∃ db', sheets.foldlM (fun db sheet => sheet.command.run mktime sha1 db) db = some db' ∧
        (r.afterAll (sheets.flatMap (Sheet.deeds mktime))).Shown sha1 db' := by
    intro r db h
    induction sheets generalizing r db with
    | nil => exact ⟨db, rfl, h⟩
    | cons sheet sheets ih =>
      obtain ⟨db', hsheet, hshown⟩ := Sheet.shown (hvalid sheet (by simp)) h
      obtain ⟨db'', hrest, hshown'⟩ := ih (fun sheet' hmem => hvalid sheet' (by simp [hmem])) hshown
      refine ⟨db'', ?_, ?_⟩
      · rw [List.foldlM_cons, hsheet]
        exact hrest
      · rw [List.flatMap_cons, Register.afterAll, List.foldl_append]
        exact hshown'
  exact hrun Register.shown_new

end Inputs

/-! ### What the server finds -/

/-- The college is not shut out, and its window is open at both looks at the clock. -/
structure Account.Open (account : Account) (checked : ℤ × ℤ) : Prop where
  enabled : account.disabled = false
  started : account.start ≤ checked.1
  open_ : checked.2 ≤ account.end_

section Found

variable {sha1 : Bytes → Bytes} {r : Register} {db : Bytes → Get} {account : Account}
  {data : Password} {checked : ℤ × ℤ}

/-- The server admits a record when the account is open. -/
theorem admits_iff (h : account.IsIn sha1 data) :
    Admits data checked.1 checked.2 ↔ account.Open checked := by
  have hflag : data.disabled ≠ 1 ↔ account.disabled = false := by
    rw [ne_eq, h.disabled, Bool.not_eq_true]
  constructor
  · rintro ⟨henabled, hstart, hopen⟩
    exact ⟨hflag.mp henabled, h.start ▸ hstart, h.end_ ▸ hopen⟩
  · rintro ⟨henabled, hstart, hopen⟩
    exact ⟨hflag.mpr henabled, h.start.symm ▸ hstart, h.end_.symm ▸ hopen⟩

/-- A record that is found is that of an account. -/
theorem Register.Shown.found (h : r.Shown sha1 db) {key : Bytes} (hdata : db key = .found data) :
    ∃ code account, key = printInt04 code ∧ r code = some account ∧ account.IsIn sha1 data := by
  by_cases hkey : ∃ code, key = printInt04 code
  · obtain ⟨code, rfl⟩ := hkey
    have hlooks := h.looks code
    rw [hdata] at hlooks
    generalize haccount : r code = account? at hlooks
    cases hlooks with
    | @present account _ hin => exact ⟨code, account, rfl, haccount, hin⟩
  · rw [not_exists] at hkey
    rw [h.other key hkey] at hdata
    cases hdata

/-- What is not found is not there. -/
theorem Register.Shown.failed (h : r.Shown sha1 db) {key : Bytes} {ret : ℤ}
    (hfailed : db key = .failed ret) : ret < 0 := by
  have habsent : DB_NOTFOUND < 0 := by decide
  by_cases hkey : ∃ code, key = printInt04 code
  · obtain ⟨code, rfl⟩ := hkey
    have hlooks := h.looks code
    rw [hfailed] at hlooks
    generalize r code = account? at hlooks
    cases hlooks with
    | absent => exact habsent
  · rw [not_exists] at hkey
    rw [h.other key hkey] at hfailed
    cases hfailed
    exact habsent

/-- A record is there exactly where an account is. -/
theorem Register.Shown.exists_found_iff (h : r.Shown sha1 db) (code : ℤ) :
    (∃ data, db (printInt04 code) = .found data) ↔ r code ≠ none := by
  have hlooks := h.looks code
  generalize db (printInt04 code) = get at hlooks
  generalize r code = account? at hlooks
  cases hlooks with
  | absent => simp
  | present hin => simp

end Found

/-! ### The first register -/

/-- A line that `genpass` prints: `"%d %s %s %s-03-12.18:31:01 %s-04-15.18:31:01\n"`. -/
def genpassLine (i : ℕ) : InLine where
  disabled := printInt 0
  code := printInt04 (1000 + i)
  pass := printInt04 2005 ++ printInt04 (1000 + i)
  start := printInt04 2005 ++ ascii "-03-12.18:31:01"
  end_ := printInt04 2005 ++ ascii "-04-15.18:31:01"

def genpassLines : List InLine := (List.range 8000).map genpassLine

/-- `main` of `genpass`: what it prints. -/
def genpass : Bytes := genpassLines.flatMap InLine.text

section Genpass

variable {mktime : Tm → ℤ × Tm} {word : Bytes}

theorem isInt_of_isdigit (hne : word ≠ []) (hdigits : ∀ b ∈ word, isdigit b = true) :
    IsInt word := by
  have hsolid : ∀ b ∈ word, isspace b = false := fun b hb => isspace_of_isdigit (hdigits b hb)
  obtain ⟨b, rest, rfl⟩ := List.exists_cons_of_ne_nil hne
  have hb := hdigits b List.mem_cons_self
  have hdrop : (b :: rest).dropWhile isspace = b :: rest :=
    List.dropWhile_cons_of_neg (by simp [hsolid b List.mem_cons_self])
  refine ⟨⟨hne, hsolid⟩, toInt32 (digitsVal 0 (b :: rest)), ?_⟩
  have htake : (b :: rest).takeWhile isdigit = b :: rest := List.takeWhile_eq_self_iff.mpr hdigits
  have hrest : (b :: rest).dropWhile isdigit = [] := List.dropWhile_eq_nil_iff.mpr hdigits
  unfold scanInt
  rw [hdrop]
  split
  · next heq =>
    obtain ⟨rfl, -⟩ := List.cons.inj heq
    exact absurd hb (by decide)
  · next heq =>
    obtain ⟨rfl, -⟩ := List.cons.inj heq
    exact absurd hb (by decide)
  · rw [htake, hrest]
    rfl

theorem isInt_printInt04_natCast (n : ℕ) : IsInt (printInt04 n) :=
  isInt_of_isdigit (printInt04_ne_nil n) fun b hb => by
    have hprint : printInt04 n = (decimal n).leftpad 4 48 := by simp [printInt04]
    rw [hprint] at hb
    exact isdigit_of_mem_leftpad hb

/-- `inspass` takes each line of `genpass`, in a time zone that fixes the two dates. -/
theorem genpassLine_sound {i : ℕ} (hi : i < 8000)
    (hstart : StartFixed mktime (genpassLine i).start)
    (hend : EndFixed mktime (genpassLine i).end_) : (genpassLine i).Sound mktime := by
  have hzero : IsInt (printInt 0) :=
    ⟨⟨by decide +kernel, by decide +kernel⟩, 0, by decide +kernel⟩
  have hcode : IsInt (printInt04 (1000 + i)) := by
    simpa using isInt_printInt04_natCast (1000 + i)
  have hlength : (printInt04 (1000 + i)).length = 4 :=
    length_printInt04 (by linarith) (by linarith)
  have hfrom : IsDateWord (printInt04 2005 ++ ascii "-03-12.18:31:01") :=
    ⟨⟨by decide +kernel, by decide +kernel⟩, by decide +kernel, by decide +kernel⟩
  have hto : IsDateWord (printInt04 2005 ++ ascii "-04-15.18:31:01") :=
    ⟨⟨by decide +kernel, by decide +kernel⟩, by decide +kernel, by decide +kernel⟩
  refine ⟨⟨hzero, hcode, ?_, hfrom.1, hto.1⟩, ⟨?_, ?_, hfrom.2, hto.2⟩, hstart, hend⟩
  · refine ⟨by simp [genpassLine, printInt04_ne_nil], fun b hb => ?_⟩
    rcases List.mem_append.mp hb with hb | hb
    · exact (isInt_printInt04_natCast 2005).1.2 b hb
    · exact hcode.1.2 b hb
  · simp only [genpassLine, strtol_printInt04]
    omega
  · have hsession : (printInt04 2005).length = 4 := by decide +kernel
    rw [genpassLine, List.length_append, hsession, hlength]
    decide

/-- The colleges from 1000 on have their accounts, and no other code has one. -/
theorem genpass_register (tm : Tm) (code : ℤ) :
    Register.of mktime [.inspass tm genpassLines] code =
      if 1000 ≤ code ∧ code < 9000 then
        some ((genpassLine (code - 1000).toNat).account mktime)
      else none := by
  have hprefixes : ∀ n : ℕ, Register.new.afterAll (((List.range n).map genpassLine).map fun l =>
      .grant (strtol l.code) (l.account mktime)) code =
        if 1000 ≤ code ∧ code < 1000 + n then
          some ((genpassLine (code - 1000).toNat).account mktime)
        else none := by
    intro n
    induction n with
    | zero => simp [Register.afterAll, Register.new]
    | succ n ih =>
      unfold Register.afterAll at ih ⊢
      rw [List.range_succ, List.map_append, List.map_append, List.foldl_append]
      change Function.update _ (strtol (printInt04 (1000 + n))) _ code = _
      rw [strtol_printInt04]
      by_cases hcode : code = 1000 + n
      · subst hcode
        rw [Function.update_self, if_pos (by omega)]
        simp
      · rw [Function.update_of_ne hcode, ih]
        by_cases hin : 1000 ≤ code ∧ code < 1000 + n
        · rw [if_pos hin, if_pos (by omega)]
        · rw [if_neg hin, if_neg (by omega)]
  simpa [Register.of, Sheet.deeds, genpassLines] using hprefixes 8000

end Genpass

end Esif.Server
