import Esif.Server.Confinement

/-!
# The names in the command lines

A `FILENAME` or `BINARY` line carries a name, which goes through a scan without a width into
`tmpname[20]`, behind the directory of the college into `filename[220]` and, for a form, less
its last four bytes into `regkey[20]`. The photo command clears `tmpname` first, the form
command does not.

## Main definitions

* `filenameOf`, `imageNameOf`, `stem` — the names in the two lines, the key of a form
* `Executes` — a step carries out a command line
* `ActsOnName` — it acts on the name in that line and on no other
* `NameFits` — the name is neither too long nor, for a form, too short
* `Visit`, `Visit.Accepts` — sessions, and the names of the forms they take

## Main results

* `actsOnName_iff` — one command acts on its name exactly when the name fits
* `command_names_iff` — the same of all commands of any sessions, with the record keys
-/

namespace Esif.Server

open Esif.CS Esif.Posix

/-- The size of `filename`. -/
def MAXPATHNAME : ℕ := 220

/-- The name in a `FILENAME` line. -/
def filenameOf (line : Bytes) : Bytes := scanLine (cstr (line.drop 9))

/-- The name in a `BINARY` line. -/
def imageNameOf (line : Bytes) : Bytes := (scanBinary (cstr (line.drop 7))).2

/-- A name without its last four bytes. -/
def stem (name : Bytes) : Bytes := name.take (name.length - 4)

/-- The step carries out `line`, read by `readline`, as a command of the loop. -/
def Executes (env : Env) (s : Session) (t : Turn) (line : Bytes) : Prop :=
  s.phase = .command ∧ ∃ start, .command start line ∈ (manageClient env s t).2

/-- The step that carries out `line` stays in its arrays. A form is opened, if at all, under
the directory of the college and the name in this line, and its key is that name without its
last four bytes; a photo that is not refused is opened, if at all, under that directory and
the name in this line. -/
def ActsOnName (env : Env) (s : Session) (t : Turn) (line : Bytes) : Prop :=
  let r := manageClient env s t
  (∃ session, s.txtdir = txtdirOf session s.college) ∧ r.1.phase ≠ .fault ∧
  (ascii "FILENAME " <+: line →
    r.1.filename = s.txtdir ++ filenameOf line ∧ r.1.filename.length < MAXPATHNAME ∧
      r.1.regkey = stem (filenameOf line) ∧
      ∀ path, .openTrunc path ∈ r.2 → path = s.txtdir ++ filenameOf line) ∧
  (ascii "BINARY " <+: line → ∀ imgsize, r.1.phase = .image imgsize →
    r.1.filename = s.txtdir ++ imageNameOf line ∧ r.1.filename.length < MAXPATHNAME ∧
      ∀ t' path, .openTrunc path ∈ (manageClient env r.1 t').2 →
        path = s.txtdir ++ imageNameOf line)

/-- The name in the line fits `tmpname`, and the name of a form has four bytes to cut off. -/
def NameFits (t : Turn) (line : Bytes) : Prop :=
  (ascii "FILENAME " <+: line →
    4 ≤ (filenameOf line).length ∧ (filenameOf line).length < MAXFILENAME) ∧
  (ascii "BINARY " <+: line → t.acceptimage = true → (imageNameOf line).length < MAXFILENAME)

instance (t : Turn) (line : Bytes) : Decidable (NameFits t line) :=
  inferInstanceAs (Decidable (_ ∧ _))

/-! ### The directory of the college -/

/-- `getyear` returns an `int`. -/
def YearsFit (env : Env) : Prop := ∀ clock, -(2 ^ 31) ≤ env.year clock ∧ env.year clock < 2 ^ 31

theorem toInt32_bounds (z : ℤ) : -(2 ^ 31) ≤ toInt32 z ∧ toInt32 z < 2 ^ 31 := by
  rw [toInt32]
  omega

/-- An `int` is printed in at most eleven bytes. -/
theorem length_printInt04_le {z : ℤ} (hlow : -(2 ^ 31) ≤ z) (hhigh : z < 2 ^ 31) :
    (printInt04 z).length ≤ 11 := by
  have hdec := length_decimal_le (n := z.natAbs) (k := 10) (by decide) (by omega)
  unfold printInt04
  split
  · rw [List.length_cons, List.length_leftpad]
    omega
  · rw [List.length_leftpad]
    omega

theorem length_txtdirOf_le {session college : ℤ} (hs : -(2 ^ 31) ≤ session ∧ session < 2 ^ 31)
    (hc : -(2 ^ 31) ≤ college ∧ college < 2 ^ 31) : (txtdirOf session college).length ≤ 60 := by
  have hyear := length_printInt04_le hs.1 hs.2
  have hnumber := length_printInt04_le hc.1 hc.2
  have hroot : TXTROOT3.length = 25 := by decide
  have hword : (ascii "INSTITUTE_").length = 10 := by decide
  have hslash : (ascii "/").length = 1 := by decide
  simp only [txtdirOf, yearDir, institute, List.length_append]
  omega

/-- While the stores are open `txtdir` is the directory of the college in a year, and short. -/
def Housed (s : Session) : Prop :=
  ¬ s.phase.Outside → (∃ session, s.txtdir = txtdirOf session s.college) ∧ s.txtdir.length ≤ 60

/-- Only the setup leads to the stores. -/
theorem Phase.Next.setup_of_outside {p q : Phase} (h : p.Next q) (hp : p.Outside)
    (hq : ¬ q.Outside) : p = .setup := by
  cases p with
  | setup => rfl
  | magic | user | pass =>
    rcases h with rfl | rfl | rfl <;> exact absurd trivial hq
  | done | fault => exact h.elim
  | _ => exact hp.elim

theorem Phase.serving_of_not_outside {p : Phase} (h : ¬ p.Outside) : p.Serving := by
  cases p <;> first | trivial | exact absurd trivial h

section Steps

variable {env : Env} {s s' : Session} {t : Turn} {es : List Event} {line : Bytes}

theorem Acted.housed (hyears : YearsFit env) (hs : Housed s) (h : Acted env s t s' es) :
    Housed s' := by
  intro hout'
  -- outside the stores only the setup leads in, and it makes `txtdir`; inside nothing changes it
  by_cases hout : s.phase.Outside
  · have hsetup := h.next.setup_of_outside hout hout'
    cases h with
    | setup _ hstep =>
      obtain ⟨buffer, phase, -, rfl, -⟩ := openStores_cases hstep
      exact ⟨⟨_, rfl⟩, length_txtdirOf_le (hyears _) (toInt32_bounds _)⟩
    | magic hphase | user hphase | pass hphase | command hphase | image hphase | payload hphase
    | imageReply hphase | body hphase | close hphase | insert hphase | reply hphase
    | abandon hphase => simp [hphase] at hsetup
  · have hk := h.keeps (Phase.serving_of_not_outside hout)
    rw [hk.txtdir, hk.college]
    exact hs hout

theorem housed_step (hyears : YearsFit env) (s : Session) (t : Turn) (hs : Housed s) :
    Housed (manageClient env s t).1 := by
  have hwaited : Housed (s.wait t) := hs
  rcases manageClient_cases env s t with heq | hact
  · rw [heq]
    exact hwaited
  · exact hact.housed hyears hwaited

/-! ### One command -/

theorem not_mem_filenameLine {m : Session} {start : ℕ} :
    Event.command start line ∉ (filenameLine m t).2 := by
  simp only [filenameLine]
  split_ifs <;> simp

theorem not_mem_binary {m : Session} {start : ℕ} (h : binary m t = some (s', es)) :
    Event.command start line ∉ es := by
  simp only [binary] at h
  split_ifs at h with hoff
  · obtain ⟨⟨ret, m', sent⟩, hw, heq⟩ := Option.map_eq_some_iff.mp h
    obtain ⟨errno, sent, -, rfl, -⟩ := Session.writen_cases hw
    obtain ⟨-, rfl⟩ : _ ∧ _ = es := by simpa using heq
    simp
  · obtain ⟨⟨ret, m', sent⟩, hw, heq⟩ := Option.map_eq_some_iff.mp h
    obtain ⟨errno, sent, -, rfl, -⟩ := Session.writen_cases hw
    dsimp only at heq
    split_ifs at heq <;> obtain ⟨-, rfl⟩ := Prod.mk.inj heq <;> simp

/-- The command loop behind the read, for a line it carries out. -/
theorem readCommand_cases {start : ℕ} (h : readCommand s t = some (s', es))
    (hmem : .command start line ∈ es) :
    ∃ ret m, s.readline t.reads = some (ret, line, m) ∧ 0 < ret ∧
      (ascii "FILENAME " <+: line ∧ s' = (filenameLine m t).1 ∧
          es = .command s.linePos line :: (filenameLine m t).2 ∨
        ascii "BINARY " <+: line ∧ (∃ es', binary m t = some (s', es') ∧
          es = .command s.linePos line :: es') ∨
        ascii "QUIT\n" <+: line ∧ s'.phase = .done) := by
  simp only [readCommand, Option.bind_eq_bind, Option.bind_eq_some_iff] at h
  obtain ⟨⟨ret, line', m⟩, hread, h⟩ := h
  have hline := Session.readline_cases hread
  dsimp only at h
  split_ifs at h with herrno hquit hpos hshort hbinary hform
  · obtain ⟨rfl, rfl⟩ := Option.some.inj h
    simp at hmem
  · obtain ⟨rfl, rfl⟩ := Option.some.inj h
    obtain ⟨-, rfl⟩ : _ ∧ line = line' := by simpa using hmem
    rw [hline.strncmp_eq hpos (by decide)] at hquit
    exact ⟨ret, m, hread, hpos, Or.inr (Or.inr ⟨List.isPrefixOf_iff_prefix.mp hquit, rfl⟩)⟩
  · obtain ⟨rfl, rfl⟩ := Option.some.inj h
    simp at hmem
  · obtain ⟨rfl, rfl⟩ := Option.some.inj h
    simp at hmem
  · obtain ⟨⟨s'', es'⟩, hbin, heq⟩ := Option.bind_eq_some_iff.mp h
    obtain ⟨rfl, rfl⟩ : s'' = s' ∧ _ = es := by simpa using heq
    obtain ⟨-, rfl⟩ : _ ∧ line = line' := by simpa [not_mem_binary hbin] using hmem
    rw [hline.strncmp_eq (by omega) (by decide)] at hbinary
    exact ⟨ret, m, hread, by omega, Or.inr (Or.inl ⟨List.isPrefixOf_iff_prefix.mp hbinary,
      ⟨es', hbin, rfl⟩⟩)⟩
  · obtain ⟨rfl, rfl⟩ := Option.some.inj h
    simp at hmem
  · obtain ⟨rfl, rfl⟩ := Prod.mk.inj (Option.some.inj h)
    obtain ⟨-, rfl⟩ : _ ∧ line = line' := by simpa [not_mem_filenameLine] using hmem
    rw [hline.strncmp_eq (by omega) (by decide)] at hform
    exact ⟨ret, m, hread, by omega, Or.inl ⟨by simpa using hform, rfl, rfl⟩⟩

theorem not_photo_of_form (h : ascii "FILENAME " <+: line) : ¬ ascii "BINARY " <+: line :=
  fun hphoto => not_form_of_photo hphoto h

/-- A command line that is carried out was read by `readline`, and what follows is what
`filenameLine` or `binary` does, or the end. -/
theorem Executes.cases (h : Executes env s t line) :
    ∃ m, Keeps (s.wait t) m ∧
      (∀ n, n ≤ line.length → cstr (m.buffer.drop n) = cstr (line.drop n)) ∧
      (ascii "FILENAME " <+: line ∧ manageClient env s t =
          ((filenameLine m t).1, .command s.linePos line :: (filenameLine m t).2) ∨
        ascii "BINARY " <+: line ∧ (∃ s' es, binary m t = some (s', es) ∧
          manageClient env s t = (s', .command s.linePos line :: es)) ∨
        ascii "QUIT\n" <+: line ∧ (manageClient env s t).1.phase = .done) := by
  obtain ⟨hphase, start, hmem⟩ := h
  have hact : act env (s.wait t) t = readCommand (s.wait t) t := by simp [act, Session.wait, hphase]
  unfold manageClient at hmem ⊢
  rw [hact] at hmem ⊢
  cases hstep : readCommand (s.wait t) t with
  | none => simp [hstep] at hmem
  | some r =>
    rw [hstep] at hmem
    obtain ⟨ret, m, hread, hpos, hcases⟩ := readCommand_cases hstep hmem
    have hline := Session.readline_cases hread
    refine ⟨m, hline.keeps, fun n hn => hline.cstr_drop hpos hn, ?_⟩
    rcases hcases with ⟨hword, h1, h2⟩ | ⟨hword, ⟨es', hbin, h2⟩⟩ | ⟨hword, hdone⟩
    · exact Or.inl ⟨hword, Prod.ext h1 h2⟩
    · exact Or.inr (Or.inl ⟨hword, _, es', hbin, Prod.ext rfl h2⟩)
    · exact Or.inr (Or.inr ⟨hword, hdone⟩)

/-- The file of a photo is opened in the step behind the reply, if at all. -/
theorem openTrunc_of_image {imgsize : ℕ} (hphase : s.phase = .image imgsize) {path : Bytes}
    (h : .openTrunc path ∈ (manageClient env s t).2) : path = s.filename := by
  have hact : act env (s.wait t) t = some (openImage (s.wait t) t imgsize) := by
    simp [act, Session.wait, hphase]
  rw [manageClient, hact, Option.getD_some, openImage] at h
  split_ifs at h
  · obtain rfl : path = (s.wait t).filename := by simpa using h
    rfl
  · simp at h

/-- What a form command leaves behind, when the name it goes by has a length that fits. -/
theorem filenameLine_fits {m : Session} {name : Bytes}
    (hname : scanFilename (cstr (m.buffer.drop 9)) m.tmpname = name) (hlow : 4 ≤ name.length)
    (hhigh : name.length < MAXFILENAME) :
    (filenameLine m t).1.phase ≠ .fault ∧ (filenameLine m t).1.filename = m.txtdir ++ name ∧
      (filenameLine m t).1.regkey = stem name ∧
      ∀ path, .openTrunc path ∈ (filenameLine m t).2 → path = m.txtdir ++ name := by
  -- the key is the name without its last four bytes, so there have to be four
  have hfit : ¬ (MAXFILENAME ≤ name.length ∨ name.length < 4) := by omega
  simp only [filenameLine, hname, if_neg hfit]
  split_ifs <;> simp [stem]

theorem filenameLine_fault {m : Session} {name : Bytes}
    (hname : scanFilename (cstr (m.buffer.drop 9)) m.tmpname = name)
    (hfit : MAXFILENAME ≤ name.length ∨ name.length < 4) :
    (filenameLine m t).1.phase = .fault := by
  simp only [filenameLine, hname, if_pos hfit]

/-- A form command: an empty name leaves the old one, which is not the name in the line. -/
theorem actsOnName_form (hexec : Executes env s t line) (hs : Housed s)
    (hword : ascii "FILENAME " <+: line) :
    ActsOnName env s t line ↔
      4 ≤ (filenameOf line).length ∧ (filenameOf line).length < MAXFILENAME := by
  obtain ⟨hdir, hshort⟩ := hs (by simp [hexec.1, Phase.Outside])
  obtain ⟨m, hk, hargs, ⟨-, heq⟩ | ⟨hphoto, -⟩ | ⟨hquit, -⟩⟩ := hexec.cases
  · have htxtdir : m.txtdir = s.txtdir := hk.txtdir
    have hscan : scanFilename (cstr (m.buffer.drop 9)) m.tmpname =
        if filenameOf line = [] then m.tmpname else filenameOf line := by
      rw [hargs 9 hword.length_le]
      rfl
    simp only [ActsOnName, heq, forall_const, hword, not_photo_of_form hword, false_imp_iff,
      and_true]
    constructor
    · rintro ⟨-, hfault, hfile, -⟩
      by_cases hfit : MAXFILENAME ≤ (scanFilename (cstr (m.buffer.drop 9)) m.tmpname).length ∨
          (scanFilename (cstr (m.buffer.drop 9)) m.tmpname).length < 4
      · exact absurd (filenameLine_fault rfl hfit) hfault
      · -- the name it went by is the name in the line, so that name is not empty
        have hgot := (filenameLine_fits (t := t) (m := m) rfl (by omega) (by omega)).2.1
        rw [hfile, htxtdir] at hgot
        rw [List.append_cancel_left hgot]
        omega
    -- a name that is there is not the one of the command before
    · rintro ⟨hlow, hhigh⟩
      have hne : filenameOf line ≠ [] := by
        rintro h
        simp [h] at hlow
      rw [if_neg hne] at hscan
      obtain ⟨hfault, hfile, hkey, hopen⟩ := filenameLine_fits (t := t) hscan hlow hhigh
      rw [htxtdir] at hfile hopen
      refine ⟨hdir, hfault, hfile, ?_, hkey, fun path hpath => hopen path (by simpa using hpath)⟩
      rw [hfile, List.length_append]
      simp only [MAXFILENAME, MAXPATHNAME] at hhigh ⊢
      omega
  · exact absurd hword (not_form_of_photo hphoto)
  · exact absurd (List.prefix_of_prefix_length_le hquit hword (by decide)) (by decide)

/-- What a photo command leaves behind. -/
theorem binary_cases {m : Session} (h : binary m t = some (s', es)) :
    let name := (scanBinary (cstr (m.buffer.drop 7))).2
    (s'.phase = .fault ↔ t.acceptimage = true ∧ MAXFILENAME ≤ name.length) ∧
      ∀ imgsize, s'.phase = .image imgsize →
        s'.filename = m.txtdir ++ name ∧ name.length < MAXFILENAME := by
  intro name
  simp only [binary] at h
  split_ifs at h with hoff
  · obtain ⟨⟨ret, m', sent⟩, hw, heq⟩ := Option.map_eq_some_iff.mp h
    obtain ⟨rfl, rfl⟩ : _ = s' ∧ _ = es := by simpa using heq
    have hfalse : t.acceptimage = false := by simpa using hoff
    simp [hfalse]
  · obtain ⟨⟨ret, m', sent⟩, hw, heq⟩ := Option.map_eq_some_iff.mp h
    obtain ⟨errno, sent, rfl, rfl, -⟩ := Session.writen_cases hw
    have hon : t.acceptimage = true := by simpa using hoff
    dsimp only at heq
    split_ifs at heq with hname hfit
    · obtain ⟨rfl, -⟩ := Prod.mk.inj heq
      simp [name, hname, MAXFILENAME]
    · obtain ⟨rfl, -⟩ := Prod.mk.inj heq
      simp [hon, name, hfit]
    · obtain ⟨rfl, -⟩ := Prod.mk.inj heq
      exact ⟨by simp [name, hfit], fun imgsize _ => ⟨rfl, Nat.lt_of_not_le hfit⟩⟩

/-- A photo command: an empty name is refused, one that is too long runs over `tmpname`. -/
theorem actsOnName_photo (hexec : Executes env s t line) (hs : Housed s)
    (hword : ascii "BINARY " <+: line) :
    ActsOnName env s t line ↔
      (t.acceptimage = true → (imageNameOf line).length < MAXFILENAME) := by
  obtain ⟨hdir, hshort⟩ := hs (by simp [hexec.1, Phase.Outside])
  obtain ⟨m, hk, hargs, ⟨hform, -⟩ | ⟨-, s', es, hbin, heq⟩ | ⟨hquit, -⟩⟩ := hexec.cases
  · exact absurd hform (not_form_of_photo hword)
  · have htxtdir : m.txtdir = s.txtdir := hk.txtdir
    have hname : (scanBinary (cstr (m.buffer.drop 7))).2 = imageNameOf line := by
      rw [hargs 7 hword.length_le]
      rfl
    obtain ⟨hfault, himage⟩ := binary_cases hbin
    rw [hname] at hfault himage
    rw [htxtdir] at himage
    -- the file is opened one step later, so both steps have a part in it
    simp only [ActsOnName, heq, hword, not_form_of_photo hword, false_imp_iff, true_and,
      forall_const]
    constructor
    · rintro ⟨-, hok, -⟩ hon
      by_contra hlong
      exact hok (hfault.mpr ⟨hon, by omega⟩)
    · intro hfits
      refine ⟨hdir, fun h => ?_, fun imgsize hphase => ?_⟩
      · obtain ⟨hon, hlong⟩ := hfault.mp h
        have hlen := hfits hon
        omega
      · obtain ⟨hfile, hlen⟩ := himage imgsize hphase
        refine ⟨hfile, ?_, fun t' path hopen => ?_⟩
        · rw [hfile, List.length_append]
          simp only [MAXFILENAME, MAXPATHNAME] at hlen ⊢
          omega
        · rw [openTrunc_of_image hphase hopen, hfile]
  · exact absurd (List.prefix_of_prefix_length_le hquit hword (by decide)) (by decide)

/-- **One command.** A command acts on exactly the name in its line when that name fits. -/
theorem actsOnName_iff (hexec : Executes env s t line) (hs : Housed s) :
    ActsOnName env s t line ↔ NameFits t line := by
  by_cases hform : ascii "FILENAME " <+: line
  · simp [actsOnName_form hexec hs hform, NameFits, hform, not_photo_of_form hform]
  · by_cases hphoto : ascii "BINARY " <+: line
    · simp [actsOnName_photo hexec hs hphoto, NameFits, hform, hphoto]
    · -- the line is `QUIT`
      obtain ⟨m, -, -, ⟨hform', -⟩ | ⟨hphoto', -⟩ | ⟨-, hdone⟩⟩ := hexec.cases
      · exact absurd hform' hform
      · exact absurd hphoto' hphoto
      · have hdir := (hs (by simp [hexec.1, Phase.Outside])).1
        simp [ActsOnName, NameFits, hform, hphoto, hdone, hdir]

end Steps

/-! ### All commands -/

/-- A session with its inputs: what the client sends, what the stack holds at first, and what
the environment does. -/
structure Visit where
  stream : Bytes
  eof : Bool
  clock : ℤ
  user : Bytes
  tmpname : Bytes
  turns : List Turn

/-- The session of a visit at its start. -/
def Visit.start (v : Visit) : Session := Session.init v.stream v.eof v.clock v.user v.tmpname

/-- Every command of the visit meets a condition. -/
def Visit.Commands (env : Env) (P : Session → Turn → Bytes → Prop) (v : Visit) : Prop :=
  (manageClient env).Meets (fun s t => ∀ line, Executes env s t line → P s t line) v.start v.turns

/-- The visit brings a form under `name`, whose file can be opened, and `key` is the key its
record will get. -/
def Visit.Accepts (env : Env) (v : Visit) (name key : Bytes) : Prop :=
  ∃ before t after line, v.turns = before ++ t :: after ∧
    Executes env ((manageClient env).run v.start before).1 t line ∧
    ascii "FILENAME " <+: line ∧ t.ok = true ∧ name = filenameOf line ∧
    key = (manageClient env ((manageClient env).run v.start before).1 t).1.regkey

section Runs

variable {env : Env} {v : Visit}

theorem housed_run (hyears : YearsFit env) (v : Visit) (before : List Turn) :
    Housed ((manageClient env).run v.start before).1 := by
  have start : Housed v.start := fun h => absurd trivial h
  have step : ∀ (s : Session) (_ : List Event) (t : Turn), True → Housed s →
      Housed (manageClient env s t).1 := fun s _ t _ hs => housed_step hyears s t hs
  have always : (manageClient env).Meets (fun _ _ => True) v.start before :=
    Machine.meets_true _ _
  exact @Machine.run_induction _ _ _ _ _ (fun s _ => Housed s) step _ [] start _ always

/-- Every command of a visit acts on its name exactly when every name fits. -/
theorem commands_actsOnName_iff (hyears : YearsFit env) (v : Visit) :
    v.Commands env (ActsOnName env) ↔ v.Commands env (fun _ => NameFits) := by
  -- command by command: each is given in a state that is housed
  simp only [Visit.Commands, Machine.meets_iff_forall]
  refine forall₄_congr fun before t after _ => forall₂_congr fun line hexec => ?_
  exact actsOnName_iff hexec (housed_run hyears v before)

/-- The key of a form is its name without the last four bytes. -/
theorem key_eq_stem (hacts : v.Commands env (ActsOnName env)) {name key : Bytes}
    (h : v.Accepts env name key) : key = stem name := by
  obtain ⟨before, t, after, line, hturns, hexec, hword, -, rfl, rfl⟩ := h
  have hact := Machine.meets_iff_forall.mp hacts before t after hturns line hexec
  exact (hact.2.2.1 hword).2.2.1

/-- **Commands act on their names.** Of any sessions, on any streams: every command acts on
exactly the name in its line and two accepted names with one record key are the same, if and
only if every name fits and no two accepted names differ in their last four bytes only. -/
theorem command_names_iff (hyears : YearsFit env) (visits : Set Visit) :
    ((∀ v ∈ visits, v.Commands env (ActsOnName env)) ∧
      ∀ v ∈ visits, ∀ v' ∈ visits, ∀ name name' key, v.Accepts env name key →
        v'.Accepts env name' key → name = name') ↔
    ((∀ v ∈ visits, v.Commands env fun _ => NameFits) ∧
      ∀ v ∈ visits, ∀ v' ∈ visits, ∀ name name' key key', v.Accepts env name key →
        v'.Accepts env name' key' → stem name = stem name' → name = name') := by
  -- once every command acts on its name, a key is the stem of its name
  rw [← forall₂_congr fun v (_ : v ∈ visits) => commands_actsOnName_iff hyears v]
  refine and_congr_right fun hacts => ⟨?_, ?_⟩
  · intro hkeys v hv v' hv' name name' key key' hname hname' hstem
    obtain rfl : key = key' := by
      rw [key_eq_stem (hacts v hv) hname, key_eq_stem (hacts v' hv') hname', hstem]
    exact hkeys v hv v' hv' name name' key hname hname'
  · intro hstems v hv v' hv' name name' key hname hname'
    refine hstems v hv v' hv' name name' key key hname hname' ?_
    rw [← key_eq_stem (hacts v hv) hname, ← key_eq_stem (hacts v' hv') hname']

end Runs

/-! ### A name that is not there -/

/-- The server of the samples in the year of their clock. -/
def yearEnv : Env := { sampleEnv with year := fun _ => 2005 }

theorem yearEnv_fits : YearsFit yearEnv := fun _ => by
  change -(2 ^ 31) ≤ (2005 : ℤ) ∧ (2005 : ℤ) < 2 ^ 31
  decide

/-- A client that logs in, sends `forms` and leaves. -/
def formVisit (forms : Bytes) : Visit where
  stream := sampleLogin ++ forms
  eof := true
  clock := 1120000000
  user := []
  tmpname := []
  turns := List.replicate 10 sampleTurn

theorem command_names_iff_sample :
    let visits : Set Visit := {formVisit (ascii "FILENAME M_0001_A_0001_0.txt\n.\n")}
    ((∀ v ∈ visits, v.Commands yearEnv (ActsOnName yearEnv)) ∧
      ∀ v ∈ visits, ∀ v' ∈ visits, ∀ name name' key, v.Accepts yearEnv name key →
        v'.Accepts yearEnv name' key → name = name') ↔
    ((∀ v ∈ visits, v.Commands yearEnv fun _ => NameFits) ∧
      ∀ v ∈ visits, ∀ v' ∈ visits, ∀ name name' key key', v.Accepts yearEnv name key →
        v'.Accepts yearEnv name' key' → stem name = stem name' → name = name') :=
  command_names_iff yearEnv_fits _

/-- Behind a form, a `FILENAME` line without a name opens the file of that form again; and
names with different suffixes have the same key. -/
theorem command_names_reused_sample :
    (¬ (formVisit (ascii "FILENAME M_0001_A_0001_0.txt\n.\nFILENAME \n")).Commands yearEnv
        (ActsOnName yearEnv)) ∧
      ∃ name name' key, name ≠ name' ∧
        (formVisit (ascii "FILENAME M_0001_A_0001_0.txt\n.\n")).Accepts yearEnv name key ∧
        (formVisit (ascii "FILENAME M_0001_A_0001_0.jpg\n.\n")).Accepts yearEnv name' key := by
  constructor
  · intro h
    have hacts := Machine.meets_iff_forall.mp h (List.replicate 9 sampleTurn) sampleTurn []
      (by decide) (ascii "FILENAME \n")
      ⟨by decide, (sampleLogin ++ ascii "FILENAME M_0001_A_0001_0.txt\n.\n").length, by decide⟩
    exact absurd (hacts.2.2.1 (by decide)).1 (by decide)
  · refine ⟨ascii "M_0001_A_0001_0.txt", ascii "M_0001_A_0001_0.jpg", ascii "M_0001_A_0001_0",
      by decide, ?_, ?_⟩
    · exact ⟨List.replicate 4 sampleTurn, sampleTurn, List.replicate 5 sampleTurn,
        ascii "FILENAME M_0001_A_0001_0.txt\n", by decide,
        ⟨by decide, sampleLogin.length, by decide⟩, by decide, rfl, by decide, by decide⟩
    · exact ⟨List.replicate 4 sampleTurn, sampleTurn, List.replicate 5 sampleTurn,
        ascii "FILENAME M_0001_A_0001_0.jpg\n", by decide,
        ⟨by decide, sampleLogin.length, by decide⟩, by decide, rfl, by decide, by decide⟩

end Esif.Server
