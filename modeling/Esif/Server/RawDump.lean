import Esif.Server.Record

/-!
# The raw dump of a record

`show_raw_data` walks over a record by `strlen` and hands each string to `printf` as its
format. Over the record of a form that came in whole lines the walk ends where the record
does; the lines come out as they went in when none of them has a per cent sign.

## Main definitions

* `printf` — what a format that is given no arguments prints
* `showRawData` — what is printed, and how far the walk has come
* `FormPut` — a run that has come to the call that stores a form

## Main results

* `showRawData_recordOf_iff` — when the dump of a record is its lines
* `raw_dump_iff` — the same of every form that a session stores
-/

namespace Esif.Server

open Esif.CS Esif.Posix

/-- `'%'` -/
def percent : UInt8 := 37

/-- `printf(format)`. Behind a per cent sign `%%` is the only conversion that takes no
argument: with any other, or at the end of the format, nothing can be said. -/
def printf : Bytes → Option Bytes
  | [] => some []
  | [b] => if b = percent then none else some [b]
  | b :: c :: format =>
    if b = percent then
      if c = percent then (printf format).map (percent :: ·) else none
    else (printf (c :: format)).map (b :: ·)

/-- The loop of `show_raw_data`, at `temp`. A turn is at least one byte of the record, so
`len` turns will do. -/
def showRawLoop (len : ℕ) : ℕ → ℕ → Bytes → Option (Bytes × ℕ)
  | turns, totlen, temp =>
    if totlen < len then
      match turns with
      | 0 => none
      | turns + 1 =>
        -- `strlen` would read on behind the record
        if nul ∉ temp then none
        else do
          let i := (cstr temp).length + 1
          let printed ← printf (cstr temp)
          let (rest, totlen) ← showRawLoop len turns (totlen + i) (temp.drop i)
          return (printed ++ rest, totlen)
    else some ([], totlen)

/-- `show_raw_data(data, len)`: what it prints, and `totlen` at its end. -/
def showRawData (data : Bytes) (len : ℕ) : Option (Bytes × ℕ) := showRawLoop len len 0 data

/-! ### Records of lines -/

/-- `printf` never prints more than its format, and the same number of bytes only without a
per cent sign. -/
theorem printf_length (format : Bytes) : ∀ {printed : Bytes}, printf format = some printed →
    printed.length ≤ format.length ∧ (printed.length = format.length → percent ∉ format) := by
  induction format using printf.induct with
  | case1 => simp [printf]
  | case2 => simp [printf]
  | case3 b hb =>
    intro printed h
    obtain rfl : [b] = printed := by simpa [printf, hb] using h
    exact ⟨le_rfl, fun _ => by simpa using Ne.symm hb⟩
  | case4 format ih =>
    intro printed h
    obtain ⟨rest, hrest, rfl⟩ : ∃ rest, printf format = some rest ∧ percent :: rest = printed := by
      simpa [printf] using h
    have hle := (ih hrest).1
    simp only [List.length_cons]
    exact ⟨by omega, fun heq => by omega⟩
  | case5 c format hc => simp [printf, hc]
  | case6 b c format hb ih =>
    intro printed h
    obtain ⟨rest, hrest, rfl⟩ :
        ∃ rest, printf (c :: format) = some rest ∧ b :: rest = printed := by
      simpa [printf, hb] using h
    obtain ⟨hle, hsame⟩ := ih hrest
    simp only [List.length_cons] at hle hsame ⊢
    refine ⟨by omega, fun heq => ?_⟩
    have htail := hsame (by omega)
    simpa [Ne.symm hb] using htail

/-- Without a per cent sign a format is printed as it is. -/
theorem printf_eq_self (format : Bytes) (h : percent ∉ format) : printf format = some format := by
  induction format using printf.induct with
  | case1 => rfl
  | case2 => simp at h
  | case3 b hb => simp [printf, hb]
  | case4 => simp at h
  | case5 => simp at h
  | case6 b c format hb ih =>
    have htail : percent ∉ c :: format := fun hmem => h (List.mem_cons_of_mem _ hmem)
    simp [printf, hb, ih htail]

section Walk

variable {lines : List Bytes} {printed : Bytes} {len totlen final turns : ℕ}

/-- One turn of the walk over a record takes one line. -/
theorem showRawLoop_cons {line : Bytes} (hline : nul ∉ line) (hlen : totlen < len) :
    showRawLoop len (turns + 1) totlen (recordOf (line :: lines)) = do
      let printed ← printf line
      let (rest, final) ← showRawLoop len turns (totlen + (line.length + 1)) (recordOf lines)
      return (printed ++ rest, final) := by
  have hrecord : recordOf (line :: lines) = line ++ nul :: recordOf lines := by simp [recordOf]
  have hstring : cstr (line ++ nul :: recordOf lines) = line := by
    rw [cstr_append_nul, cstr_eq_self hline]
  have hrest : (line ++ nul :: recordOf lines).drop (line.length + 1) = recordOf lines := by
    rw [List.drop_append]
    simp
  rw [showRawLoop, if_pos hlen, hrecord, if_neg (by simp), hstring]
  simp only [hrest]

/-- The walk over a record ends at its end, when `printf` gets through all lines, and prints
what these print. -/
theorem showRawLoop_recordOf (lines : List Bytes) :
    ∀ {turns totlen : ℕ}, (∀ line ∈ lines, nul ∉ line) → lines.length ≤ turns →
      showRawLoop (totlen + (recordOf lines).length) turns totlen (recordOf lines) =
        (lines.mapM printf).map fun printed => (printed.flatten, totlen + (recordOf lines).length)
    := by
  induction lines with
  | nil =>
    intro turns totlen _ _
    rw [showRawLoop.eq_def]
    simp [recordOf]
  | cons line lines ih =>
    intro turns totlen hlines hturns
    rw [List.length_cons] at hturns
    obtain ⟨turns, rfl⟩ : ∃ k, turns = k + 1 := ⟨turns - 1, by omega⟩
    have hline : nul ∉ line := hlines line (by simp)
    have hlength : (recordOf (line :: lines)).length =
        line.length + 1 + (recordOf lines).length := by
      simp [recordOf]
      omega
    have hrest := @ih turns (totlen + (line.length + 1)) (fun l hl => hlines l (by simp [hl]))
      (by omega)
    -- one line off the record, and `totlen` moves by its length and its NUL
    rw [showRawLoop_cons hline (by omega), hlength, ← Nat.add_assoc, hrest]
    cases hprinted : printf line with
    | none => simp [hprinted]
    | some printed => cases hall : lines.mapM printf <;> simp [hprinted, hall]

/-- Lines that `printf` gets through print as many bytes as they have at most, and as many
only without a per cent sign. -/
theorem length_flatten_mapM_printf {lines : List Bytes} : ∀ {printed : List Bytes},
    lines.mapM printf = some printed → printed.flatten.length ≤ lines.flatten.length ∧
      (printed.flatten.length = lines.flatten.length → ∀ line ∈ lines, percent ∉ line) := by
  induction lines with
  | nil => simp
  | cons line lines ih =>
    intro printed h
    obtain ⟨first, hfirst, rest, hrest, rfl⟩ :
        ∃ first, printf line = some first ∧ ∃ rest, lines.mapM printf = some rest ∧
          first :: rest = printed := by simpa [List.mapM_cons, Option.bind_eq_some_iff] using h
    obtain ⟨hle, hsame⟩ := printf_length line hfirst
    obtain ⟨hle', hsame'⟩ := ih hrest
    simp only [List.flatten_cons, List.length_append]
    refine ⟨by omega, fun heq l hl => ?_⟩
    rcases List.mem_cons.mp hl with rfl | hl
    · exact hsame (by omega)
    · exact hsame' (by omega) l hl

theorem mapM_printf_eq_self (h : ∀ line ∈ lines, percent ∉ line) :
    lines.mapM printf = some lines := by
  induction lines with
  | nil => rfl
  | cons line lines ih =>
    have hrest := ih fun l hl => h l (by simp [hl])
    simp [List.mapM_cons, printf_eq_self line (h line (by simp)), hrest]

/-- The walk comes to the end of the record of some lines and prints them exactly when none
of them has a per cent sign. -/
theorem showRawData_recordOf_iff (hlines : ∀ line ∈ lines, nul ∉ line) :
    showRawData (recordOf lines) (recordOf lines).length =
        some (lines.flatten, (recordOf lines).length) ↔
      ∀ line ∈ lines, percent ∉ line := by
  -- every line has its NUL, so the bytes of the record are turns enough
  have hturns : lines.length ≤ (recordOf lines).length := by
    clear hlines
    induction lines with
    | nil => simp
    | cons line lines ih =>
      simp only [recordOf, List.map_cons, List.flatten_cons, List.length_append,
        List.length_cons, List.length_nil] at ih ⊢
      omega
  have hwalk := @showRawLoop_recordOf lines (recordOf lines).length 0 hlines hturns
  rw [Nat.zero_add] at hwalk
  rw [showRawData, hwalk]
  constructor
  · intro h
    obtain ⟨printed, hprinted, heq⟩ := Option.map_eq_some_iff.mp h
    exact (length_flatten_mapM_printf hprinted).2 (congrArg (fun r => r.1.length) heq)
  · intro h
    rw [mapM_printf_eq_self h]
    rfl

end Walk

/-! ### Stored forms -/

/-- The run `ts` has come to the call of `DB->put` for a form of `lines`: `before` leads to
the end of the form, where `fclose` is called in turn `c`. -/
structure FormPut (env : Env) (s₀ : Session) (ts before : List Turn) (c : Turn)
    (lines : List Bytes) : Prop where
  split : ts = before ++ [c]
  close : ((manageClient env).run s₀ before).1.phase = .close
  received : ∃ es₀ marked start stop, lines = marked.map Prod.snd ∧
    ((manageClient env).run s₀ before).2 =
      es₀ ++ .openTrunc ((manageClient env).run s₀ before).1.filename ::
        (marks marked ++ [.bodyLine start (ascii ".\n"), .bodyEnd stop])
  collected : Collected lines ((manageClient env).run s₀ before).1

/-- A record that is put is the record of the lines of a form. -/
theorem formPut_of_put {env : Env} {s₀ : Session} (hmagic : s₀.phase = .magic) {ts : List Turn}
    {t : Turn} {db key data : Bytes}
    (hput : .put db key data ∈ (manageClient env ((manageClient env).run s₀ ts).1 t).2) :
    ∃ before c lines, FormPut env s₀ ts before c lines ∧ RecordOf lines data := by
  have hacted : ((manageClient env).run s₀ ts).1.phase = .insert ∧
      data = ((manageClient env).run s₀ ts).1.regbuf := by
    rcases manageClient_cases env ((manageClient env).run s₀ ts).1 t with heq | hact
    · simp [heq] at hput
    · exact hact.put hput
  obtain ⟨hinsert, rfl⟩ := hacted
  obtain ⟨before, c, rfl, hclose⟩ := exists_close_of_insert (by simp [hmagic]) hinsert
  obtain ⟨es₀, marked, start, stop, hbefore, hcoll⟩ := received_of_close hmagic hclose
  refine ⟨before, c, marked.map Prod.snd, ⟨rfl, hclose,
    ⟨es₀, marked, start, stop, rfl, hbefore⟩, hcoll⟩, ?_⟩
  rw [Machine.run_append]
  simpa [manageClient_of_close hclose, closeForm, fclose, Session.wait] using hcoll.record

/-- **The raw dump.** Of every form that a session stores from lines without a NUL that end
with their newlines, the dump walks over just the record, and prints the lines exactly
when none of them has a per cent sign. -/
theorem raw_dump_iff (env : Env) (stream : Bytes) (eof : Bool) (clock : ℤ) (user tmpname : Bytes)
    (ts : List Turn) (t : Turn) (db key data : Bytes) :
    let s₀ := Session.init stream eof clock user tmpname
    .put db key data ∈ (manageClient env ((manageClient env).run s₀ ts).1 t).2 →
    ∃ before c lines, FormPut env s₀ ts before c lines ∧
      ((∀ line ∈ lines, nul ∉ line ∧ endsLine line = true) →
        (showRawData data data.length = some (lines.flatten, data.length) ↔
          ∀ line ∈ lines, percent ∉ line)) := by
  intro s₀ hput
  obtain ⟨before, c, lines, hform, hrecord⟩ := @formPut_of_put env s₀ rfl ts t db key data hput
  refine ⟨before, c, lines, hform, fun hlines => ?_⟩
  rw [hrecord.eq_iff.mpr fun line hline => (hlines line hline).2]
  exact showRawData_recordOf_iff fun line hline => (hlines line hline).1

theorem raw_dump_iff_sample :
    let s₀ := Session.init sampleUpload true 1120000000 [] []
    let s := ((manageClient sampleEnv).run s₀ (List.replicate 8 sampleTurn)).1
    ∃ before c lines, FormPut sampleEnv s₀ (List.replicate 8 sampleTurn) before c lines ∧
      ((∀ line ∈ lines, nul ∉ line ∧ endsLine line = true) →
        (showRawData s.regbuf s.regbuf.length = some (lines.flatten, s.regbuf.length) ↔
          ∀ line ∈ lines, percent ∉ line)) := by
  intro s₀ s
  exact raw_dump_iff sampleEnv sampleUpload true 1120000000 [] [] (List.replicate 8 sampleTurn)
    sampleTurn s.regdb s.regkey s.regbuf (by decide)

/-- A form with two per cent signs in its line. -/
def samplePercent : Bytes :=
  sampleLogin ++ ascii "FILENAME M_0001_A_0001_0.txt\n100%% \n.\n"

/-- It is stored from one line that fits, and its dump lacks one of them. -/
theorem raw_dump_sample :
    let s₀ := Session.init samplePercent true 1120000000 [] []
    let s := ((manageClient sampleEnv).run s₀ (List.replicate 8 sampleTurn)).1
    .put s.regdb s.regkey s.regbuf ∈ (manageClient sampleEnv s sampleTurn).2 ∧
      s.stfile = ascii "100%% \n" ∧ s.regbuf = recordOf [ascii "100%% \n"] ∧
      showRawData s.regbuf s.regbuf.length = some (ascii "100% \n", s.regbuf.length) := by
  decide +kernel

end Esif.Server
