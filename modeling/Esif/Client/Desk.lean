import Esif.CS.Machine
import Esif.CS.Records
import Esif.Client.Editor

/-!
# The directory of the forms

The windows that save forms share a directory. The entry window saves a form under the name
made of five of its entries; an edit window loads a form and saves its entries the same way,
without knowing which file they came from. The photo that was chosen stays with its window.

## Main definitions

* `Desk` — the files and the windows
* `Saving.verify` — `verify_form`, with the files it writes
* `desk` — the moves of the user
* `IsForm` — the files that the editor lists
* `FormsKept` — each save enters one form or replaces the one that was opened
* `OwnPhoto` — a form is saved with a photo chosen for it

## Main results

* `forms_kept_iff` — the forms are kept exactly when no save takes another name that is there
* `own_photo_iff` — the photo is the form's own exactly when one is chosen for each form
-/

namespace Esif.Client

open Esif.CS Esif.Posix

/-! ### The moves -/

/-- An edit window: the file it was loaded from, which the program does not keep, and its
photo. -/
structure Editing where
  opened : Bytes
  photo : Option Bytes

/-- The files, the photo of the entry window and the edit windows. -/
structure Desk where
  disk : Bytes → Option Bytes
  photo : Option Bytes
  windows : List Editing

/-- The entries when a form is saved, and what the two files are opened with. The photo of the
entries is that of the window. -/
structure Saving where
  entries : Entries
  opens : Bool
  creates : Bool

inductive DeskMove where
  | choose (filename : Option Bytes)
  | save (s : Saving)
  | edit (row : Data)
  | chooseEdit (i : ℕ) (filename : Option Bytes)
  | saveEdit (i : ℕ) (s : Saving)
  | close (i : ℕ)
  | delete (row : Data) (renames : Bool)

inductive DeskEvent where
  | chose (photo : Bytes)
  | entered (path text : Bytes)
  | edited (opened path text : Bytes)
  | removed (path : Bytes)

/-- `add_photo`: the photo that was chosen. The dialog can be cancelled, and a file that is no
jpg is not taken; a name of less than three letters is read in front of its array. -/
def addPhoto : Option Bytes → Option (Option Bytes)
  | none => some none
  | some filename =>
    if filename.length < 3 then none
    else if strupper (filename.drop (filename.length - 3)) = ascii "JPG" then some (some filename)
    else some none

/-- `copy_photo(src, dest)` -/
def copyPhoto (disk : Bytes → Option Bytes) (src dest : Bytes) (creates : Bool) :
    Bytes → Option Bytes :=
  if src = dest then disk
  else match disk src with
    | none => disk
    | some data => if creates then Function.update disk dest (some data) else disk

/-- `rename(src, dest)` of a file that is there. -/
def renameFile (disk : Bytes → Option Bytes) (src dest : Bytes) : Bytes → Option Bytes :=
  Function.update (Function.update disk src none) dest (disk src)

/-- The files after a form is written to `path`, with the copy of its photo. -/
def writeFiles (disk : Bytes → Option Bytes) (path text : Bytes) (photo : Option Bytes)
    (creates : Bool) : Bytes → Option Bytes :=
  -- `fopen` with "w" truncates what was there
  let disk := Function.update disk path (some text)
  match photo, photo.bind (photoPath path) with
  | some src, some dest => copyPhoto disk src dest creates
  | _, _ => disk

section Desk

variable (st : Settings) (infodirname : Bytes) (common : CommonCodes)

/-- `verify_form` with this photo: the files, and the form if it is saved. -/
def Saving.verify (s : Saving) (photo : Option Bytes) (disk : Bytes → Option Bytes) :
    Option ((Bytes → Option Bytes) × Option (Bytes × Bytes)) :=
  match checkEntries st s.entries with
  | none => none
  | some err =>
    if err ≠ E_NO_ERROR ∨ s.opens = false then some (disk, none)
    else do
      let (path, lines) ← verifyForm infodirname { s.entries with photo := photo }
      return (writeFiles disk path lines.flatten photo s.creates, some (path, lines.flatten))

/-- The path of the form of a row, when it fits its arrays. -/
def rowPath (row : Data) : Option Bytes :=
  let filename := constructFilename row.gender row.roll row.section_ row.totList row.group
  if MAXFILENAME ≤ filename.length ∨
      MAXDIRNAME + MAXFILENAME ≤ (infodirname ++ filename).length then none
  else some (infodirname ++ filename)

/-- The path of a form in `recycled/`. -/
def recycle (row : Data) : Bytes :=
  infodirname ++ ascii "recycled/" ++
    constructFilename row.gender row.roll row.section_ row.totList row.group

/-- The user at the windows. Where an array overruns, everything stops. -/
def desk : Machine (Option Desk) DeskMove DeskEvent
  | none, _ => (none, [])
  | some d, .choose filename =>
    match addPhoto filename with
    | none => (none, [])
    | some none => (some d, [])
    | some (some photo) => (some { d with photo := some photo }, [.chose photo])
  | some d, .save s =>
    match s.verify st infodirname d.photo d.disk with
    | none => (none, [])
    | some (disk, none) => (some { d with disk := disk }, [])
    -- the picture is taken out of its frame, the photo stays
    | some (disk, some (path, text)) => (some { d with disk := disk }, [.entered path text])
  | some d, .edit row =>
    match rowPath infodirname row with
    | none => (none, [])
    | some path =>
      -- without its file the window opens empty
      match d.disk path with
      | none => (some { d with windows := d.windows ++ [⟨path, none⟩] }, [])
      | some content =>
        match loadStudentInfo common content with
        | none => (none, [])
        | some w => (some { d with windows := d.windows ++ [⟨path, w.entries.photo⟩] }, [])
  | some d, .chooseEdit i filename =>
    match d.windows[i]?, addPhoto filename with
    | none, _ => (some d, [])
    | some _, none => (none, [])
    | some _, some none => (some d, [])
    | some w, some (some photo) =>
      (some { d with windows := d.windows.set i { w with photo := some photo } }, [])
  | some d, .saveEdit i s =>
    match d.windows[i]? with
    | none => (some d, [])
    -- `verify_form` is not told what the window was loaded from
    | some w =>
      match s.verify st infodirname w.photo d.disk with
      | none => (none, [])
      | some (disk, none) => (some { d with disk := disk }, [])
      | some (disk, some (path, text)) =>
        (some { d with disk := disk, windows := d.windows.eraseIdx i },
          [.edited w.opened path text])
  | some d, .close i => (some { d with windows := d.windows.eraseIdx i }, [])
  | some d, .delete row renames =>
    match rowPath infodirname row with
    | none => (none, [])
    | some path =>
      -- `rename` into `recycled/`, over what is there
      if MAXDIRNAME + MAXFILENAME ≤ (recycle infodirname row).length then (none, [])
      else if renames = false ∨ d.disk path = none then (some d, [])
      else
        (some { d with disk := renameFile d.disk path (recycle infodirname row) }, [.removed path])

/-- A file that the editor lists. -/
def IsForm (path : Bytes) : Prop :=
  ∃ name, path = infodirname ++ name ∧ slash ∉ name ∧ notListed name = false

/-- The save gets through: every check is passed and the file is opened. -/
def Saving.Succeeds (s : Saving) (photo : Option Bytes) : Prop :=
  checkEntries st s.entries = some E_NO_ERROR ∧ s.opens = true ∧
    (verifyForm infodirname { s.entries with photo := photo }).isSome

end Desk

/-! ### What a move can do -/

/-- A name that ends in `jpg`. -/
def IsJpg (photo : Bytes) : Prop :=
  3 ≤ photo.length ∧ strupper (photo.drop (photo.length - 3)) = ascii "JPG"

section Step

variable {st : Settings} {infodirname : Bytes} {common : CommonCodes} {d d' : Desk}
  {move : DeskMove} {s : Saving} {photo : Option Bytes} {disk disk' : Bytes → Option Bytes}
  {saved : Option (Bytes × Bytes)}

theorem Saving.verify_cases (h : s.verify st infodirname photo disk = some (disk', saved)) :
    (disk' = disk ∧ saved = none ∧ ¬ s.Succeeds st infodirname photo) ∨
      ∃ path lines, s.Succeeds st infodirname photo ∧
        saveForm st infodirname { s.entries with photo := photo } = some (path, lines) ∧
        saved = some (path, lines.flatten) ∧
        disk' = writeFiles disk path lines.flatten photo s.creates := by
  unfold Saving.verify at h
  cases hcheck : checkEntries st s.entries with
  | none => simp [hcheck] at h
  | some err =>
    simp only [hcheck] at h
    split_ifs at h with hfails
    · obtain ⟨rfl, rfl⟩ := Prod.mk.inj (Option.some.inj h)
      refine Or.inl ⟨rfl, rfl, fun hs => ?_⟩
      rcases hfails with herr | hopens
      · exact herr (Option.some.inj (hcheck.symm.trans hs.1))
      · exact absurd (hopens.symm.trans hs.2.1) (by decide)
    · obtain ⟨⟨path, lines⟩, hwritten, h⟩ := Option.bind_eq_some_iff.mp h
      obtain ⟨rfl, rfl⟩ := Prod.mk.inj (Option.some.inj h)
      rw [not_or, not_not] at hfails
      obtain ⟨rfl, hopens⟩ := hfails
      refine Or.inr ⟨path, lines, ⟨hcheck, by simpa using hopens, by rw [hwritten]; rfl⟩, ?_, rfl,
        rfl⟩
      have hsame : checkEntries st { s.entries with photo := photo } = some E_NO_ERROR := hcheck
      rw [saveForm, if_pos hsame, hwritten]

/-- A save that does not succeed changes no file. -/
theorem Saving.verify_none (h : s.verify st infodirname photo disk = some (disk', none)) :
    disk' = disk ∧ ¬ s.Succeeds st infodirname photo := by
  rcases Saving.verify_cases h with ⟨hdisk, -, hfails⟩ | ⟨path, lines, -, -, hnone, -⟩
  · exact ⟨hdisk, hfails⟩
  · cases hnone

/-- A save that reports a form has written it. -/
theorem Saving.verify_some {path text : Bytes}
    (h : s.verify st infodirname photo disk = some (disk', some (path, text))) :
    ∃ lines, s.Succeeds st infodirname photo ∧
      saveForm st infodirname { s.entries with photo := photo } = some (path, lines) ∧
      text = lines.flatten ∧ disk' = writeFiles disk path lines.flatten photo s.creates := by
  rcases Saving.verify_cases h with ⟨-, hsome, -⟩ | ⟨path', lines, hs, hsaved, hsome, hdisk⟩
  · cases hsome
  · obtain ⟨rfl, rfl⟩ := Prod.mk.inj (Option.some.inj hsome)
    exact ⟨lines, hs, hsaved, rfl, hdisk⟩

theorem addPhoto_some {filename : Option Bytes} {chosen : Bytes}
    (h : addPhoto filename = some (some chosen)) : filename = some chosen ∧ IsJpg chosen := by
  unfold addPhoto at h
  split at h
  · cases h
  · split_ifs at h with hshort hjpg
    · obtain rfl := Option.some.inj (Option.some.inj h)
      exact ⟨rfl, not_lt.mp hshort, hjpg⟩
    · cases h

/-- What a move does, when it does not stop everything. -/
inductive DeskStep (st : Settings) (infodirname : Bytes) (common : CommonCodes) (d : Desk) :
    DeskMove → Desk → List DeskEvent → Prop
  | chose {photo : Bytes} (hjpg : IsJpg photo) :
      DeskStep st infodirname common d (.choose (some photo)) { d with photo := some photo }
        [.chose photo]
  | entered {s : Saving} {path : Bytes} {lines : List Bytes}
      (hs : s.Succeeds st infodirname d.photo)
      (hsaved : saveForm st infodirname { s.entries with photo := d.photo } = some (path, lines)) :
      DeskStep st infodirname common d (.save s)
        { d with disk := writeFiles d.disk path lines.flatten d.photo s.creates }
        [.entered path lines.flatten]
  | edited {i : ℕ} {s : Saving} {w : Editing} {path : Bytes} {lines : List Bytes}
      (hw : d.windows[i]? = some w) (hs : s.Succeeds st infodirname w.photo)
      (hsaved : saveForm st infodirname { s.entries with photo := w.photo } = some (path, lines)) :
      DeskStep st infodirname common d (.saveEdit i s)
        { d with
          disk := writeFiles d.disk path lines.flatten w.photo s.creates
          windows := d.windows.eraseIdx i }
        [.edited w.opened path lines.flatten]
  | removed {row : Data} {path : Bytes} (hpath : rowPath infodirname row = some path)
      (hthere : d.disk path ≠ none) :
      DeskStep st infodirname common d (.delete row true)
        { d with disk := renameFile d.disk path (recycle infodirname row) }
        [.removed path]
  | opened {row : Data} {path : Bytes} {photo : Option Bytes}
      (hpath : rowPath infodirname row = some path)
      (hphoto : ∀ copy, photo = some copy → ∃ content w, d.disk path = some content ∧
        loadStudentInfo common content = some w ∧ w.entries.photo = some copy) :
      DeskStep st infodirname common d (.edit row)
        { d with windows := d.windows ++ [⟨path, photo⟩] } []
  | quiet {move : DeskMove} {windows : List Editing}
      (hwindows : ∀ w ∈ windows, ∃ v ∈ d.windows, w.opened = v.opened ∧
        (w.photo = v.photo ∨ ∃ photo, w.photo = some photo ∧ IsJpg photo))
      (hsave : ∀ s, move = .save s → ¬ s.Succeeds st infodirname d.photo)
      (hsaveEdit : ∀ i s w, move = .saveEdit i s → d.windows[i]? = some w →
        ¬ s.Succeeds st infodirname w.photo) :
      DeskStep st infodirname common d move { d with windows := windows } []

/-- A move that leaves the windows and saves nothing. -/
theorem DeskStep.still
    (hsave : ∀ s, move = .save s → ¬ s.Succeeds st infodirname d.photo)
    (hsaveEdit : ∀ i s w, move = .saveEdit i s → d.windows[i]? = some w →
      ¬ s.Succeeds st infodirname w.photo) :
    DeskStep st infodirname common d move d [] :=
  @DeskStep.quiet st infodirname common d move d.windows (fun w hw => ⟨w, hw, rfl, Or.inl rfl⟩)
    hsave hsaveEdit

/-- A photo for the entry window. -/
theorem choose_step {filename : Option Bytes}
    (h : (desk st infodirname common (some d) (.choose filename)).1 = some d') :
    DeskStep st infodirname common d (.choose filename) d'
      (desk st infodirname common (some d) (.choose filename)).2 := by
  simp only [desk] at h ⊢
  rcases hadd : addPhoto filename with _ | _ | chosen
  · simp [hadd] at h
  · simp only [hadd] at h ⊢
    obtain rfl := Option.some.inj h
    exact .still (by simp) (by simp)
  · simp only [hadd] at h ⊢
    obtain ⟨rfl, hjpg⟩ := addPhoto_some hadd
    obtain rfl := Option.some.inj h
    exact .chose hjpg

/-- A save from the entry window. -/
theorem save_step {s : Saving}
    (h : (desk st infodirname common (some d) (.save s)).1 = some d') :
    DeskStep st infodirname common d (.save s) d'
      (desk st infodirname common (some d) (.save s)).2 := by
  simp only [desk] at h ⊢
  rcases hverify : s.verify st infodirname d.photo d.disk with _ | ⟨disk, _ | ⟨path, text⟩⟩
  · simp [hverify] at h
  · simp only [hverify] at h ⊢
    obtain rfl := Option.some.inj h
    obtain ⟨rfl, hfails⟩ := Saving.verify_none hverify
    refine .still ?_ (by simp)
    rintro s' hs
    obtain rfl := DeskMove.save.inj hs
    exact hfails
  · simp only [hverify] at h ⊢
    obtain rfl := Option.some.inj h
    obtain ⟨lines, hs, hsaved, rfl, rfl⟩ := Saving.verify_some hverify
    exact .entered hs hsaved

/-- An edit window is opened. -/
theorem edit_step {row : Data}
    (h : (desk st infodirname common (some d) (.edit row)).1 = some d') :
    DeskStep st infodirname common d (.edit row) d'
      (desk st infodirname common (some d) (.edit row)).2 := by
  simp only [desk] at h ⊢
  cases hpath : rowPath infodirname row with
  | none => simp [hpath] at h
  | some path =>
    simp only [hpath] at h ⊢
    cases hdisk : d.disk path with
    | none =>
      simp only [hdisk] at h ⊢
      obtain rfl := Option.some.inj h
      exact .opened hpath fun copy hcopy => by cases hcopy
    | some content =>
      cases hload : loadStudentInfo common content with
      | none => simp [hdisk, hload] at h
      | some w =>
        simp only [hdisk, hload] at h ⊢
        obtain rfl := Option.some.inj h
        exact .opened hpath fun copy hcopy => ⟨content, w, hdisk, hload, hcopy⟩

/-- A photo for an edit window. -/
theorem chooseEdit_step {i : ℕ} {filename : Option Bytes}
    (h : (desk st infodirname common (some d) (.chooseEdit i filename)).1 = some d') :
    DeskStep st infodirname common d (.chooseEdit i filename) d'
      (desk st infodirname common (some d) (.chooseEdit i filename)).2 := by
  simp only [desk] at h ⊢
  cases hw : d.windows[i]? with
  | none =>
    simp only [hw] at h ⊢
    obtain rfl := Option.some.inj h
    exact .still (by simp) (by simp)
  | some w =>
    rcases hadd : addPhoto filename with _ | _ | chosen
    · simp [hw, hadd] at h
    · simp only [hw, hadd] at h ⊢
      obtain rfl := Option.some.inj h
      exact .still (by simp) (by simp)
    · simp only [hw, hadd] at h ⊢
      obtain ⟨rfl, hjpg⟩ := addPhoto_some hadd
      obtain rfl := Option.some.inj h
      refine .quiet (fun v hv => ?_) (by simp) (by simp)
      rcases List.mem_or_eq_of_mem_set hv with hv | rfl
      · exact ⟨v, hv, rfl, Or.inl rfl⟩
      · exact ⟨w, List.mem_of_getElem? hw, rfl, Or.inr ⟨chosen, rfl, hjpg⟩⟩

/-- A save from an edit window. -/
theorem saveEdit_step {i : ℕ} {s : Saving}
    (h : (desk st infodirname common (some d) (.saveEdit i s)).1 = some d') :
    DeskStep st infodirname common d (.saveEdit i s) d'
      (desk st infodirname common (some d) (.saveEdit i s)).2 := by
  simp only [desk] at h ⊢
  cases hw : d.windows[i]? with
  | none =>
    simp only [hw] at h ⊢
    obtain rfl := Option.some.inj h
    refine .still (by simp) ?_
    rintro j s' w hs hw'
    obtain ⟨rfl, rfl⟩ := DeskMove.saveEdit.inj hs
    rw [hw] at hw'
    cases hw'
  | some w =>
    rcases hverify : s.verify st infodirname w.photo d.disk with _ | ⟨disk, _ | ⟨path, text⟩⟩
    · simp [hw, hverify] at h
    · simp only [hw, hverify] at h ⊢
      obtain rfl := Option.some.inj h
      obtain ⟨rfl, hfails⟩ := Saving.verify_none hverify
      refine .still (by simp) ?_
      rintro j s' w' hs hw'
      obtain ⟨rfl, rfl⟩ := DeskMove.saveEdit.inj hs
      obtain rfl := Option.some.inj (hw.symm.trans hw')
      exact hfails
    · simp only [hw, hverify] at h ⊢
      obtain rfl := Option.some.inj h
      obtain ⟨lines, hs, hsaved, rfl, rfl⟩ := Saving.verify_some hverify
      exact .edited hw hs hsaved

/-- A form is deleted. -/
theorem delete_step {row : Data} {renames : Bool}
    (h : (desk st infodirname common (some d) (.delete row renames)).1 = some d') :
    DeskStep st infodirname common d (.delete row renames) d'
      (desk st infodirname common (some d) (.delete row renames)).2 := by
  simp only [desk] at h ⊢
  cases hpath : rowPath infodirname row with
  | none => simp [hpath] at h
  | some path =>
    simp only [hpath] at h ⊢
    split_ifs at h ⊢ with hlong hfails
    · obtain rfl := Option.some.inj h
      exact .still (by simp) (by simp)
    · rw [not_or] at hfails
      obtain rfl : renames = true := by simpa using hfails.1
      obtain rfl := Option.some.inj h
      exact .removed hpath hfails.2

/-- Each move does one of these things, unless it stops everything. -/
theorem desk_step (h : (desk st infodirname common (some d) move).1 = some d') :
    DeskStep st infodirname common d move d' (desk st infodirname common (some d) move).2 := by
  cases move with
  | choose filename => exact choose_step h
  | save s => exact save_step h
  | edit row => exact edit_step h
  | chooseEdit i filename => exact chooseEdit_step h
  | saveEdit i s => exact saveEdit_step h
  | close i =>
    obtain rfl := Option.some.inj h
    exact .quiet (fun w hw => ⟨w, List.mem_of_mem_eraseIdx hw, rfl, Or.inl rfl⟩) (by simp) (by simp)
  | delete row renames => exact delete_step h

end Step

/-! ### Forms and copies of photos -/

section Copies

variable {infodirname path name base ext copy src : Bytes} {disk : Bytes → Option Bytes}
  {photo : Option Bytes} {text : Bytes} {creates : Bool}

theorem IsForm.getLast (h : IsForm infodirname path) : path.getLast? = some 116 := by
  obtain ⟨name, rfl, -, hlisted⟩ := h
  have hext : name.drop (name.length - 4) = ascii ".txt" := by
    simp only [notListed, Bool.or_eq_false_iff, bne_eq_false_iff_eq] at hlisted
    exact hlisted.2
  rw [← List.take_append_drop (name.length - 4) name, hext, ← List.append_assoc,
    List.getLast?_append]
  rfl

/-- The last letter of a jpg is not that of a form, and it is in no separator. -/
theorem IsJpg.getLast (h : IsJpg src) :
    ∃ b, src.getLast? = some b ∧ b ≠ 116 ∧ b ≠ slash ∧ b ≠ 46 := by
  obtain ⟨hlen, hjpg⟩ := h
  have hlast := congrArg List.getLast? hjpg
  rw [strupper, List.getLast?_map] at hlast
  obtain ⟨b, hb, hupper⟩ := Option.map_eq_some_iff.mp hlast
  have hdrop : src.getLast? = some b := by
    rw [← List.take_append_drop (src.length - 3) src, List.getLast?_append, hb]
    rfl
  -- a `g` or a `G`
  refine ⟨b, hdrop, ?_, ?_, ?_⟩ <;> rintro rfl <;> exact absurd hupper (by decide)

theorem IsJpg.not_isForm (hjpg : IsJpg src) : ¬ IsForm infodirname src := by
  intro hform
  obtain ⟨b, hlast, hne, -⟩ := hjpg.getLast
  exact hne (Option.some.inj (hlast.symm.trans hform.getLast))

/-- The copy of a photo has its last letter. -/
theorem photoPath_getLast (h : photoPath path src = some copy) {b : UInt8}
    (hlast : src.getLast? = some b) (hslash : b ≠ slash) (hdot : b ≠ 46) :
    copy.getLast? = some b := by
  obtain ⟨base, hbase, h⟩ := Option.bind_eq_some_iff.mp h
  obtain ⟨ext, hext, h⟩ := Option.bind_eq_some_iff.mp h
  obtain rfl := Option.some.inj h
  -- the part behind the last slash, and of it the part behind the last dot
  have hbaseLast : base.getLast? = some b := by
    unfold basename at hbase
    split_ifs at hbase
    obtain rfl := Option.some.inj hbase
    rw [List.getLast?_reverse, List.head?_takeWhile, List.head?_reverse, hlast]
    simp [hslash]
  have hextLast : ext.getLast? = some b := by
    unfold extension at hext
    split_ifs at hext
    obtain rfl := Option.some.inj hext
    rw [List.getLast?_reverse, List.head?_takeWhile, List.head?_reverse, hbaseLast]
    simp [hdot]
  rw [List.getLast?_append, hextLast]
  rfl

/-- The copy of a jpg is no form. -/
theorem IsJpg.copy_not_isForm (hjpg : IsJpg src) (h : photoPath path src = some copy) :
    ¬ IsForm infodirname copy := by
  intro hform
  obtain ⟨b, hlast, hne, hslash, hdot⟩ := hjpg.getLast
  have hcopy := photoPath_getLast h hlast hslash hdot
  exact hne (Option.some.inj (hcopy.symm.trans hform.getLast))

/-- Only the destination changes. -/
theorem copyPhoto_of_ne {dest p : Bytes} (hne : src ≠ dest → p ≠ dest) :
    copyPhoto disk src dest creates p = disk p := by
  unfold copyPhoto
  by_cases hsame : src = dest
  · rw [if_pos hsame]
  · rw [if_neg hsame]
    cases disk src with
    | none => rfl
    | some data =>
      cases creates with
      | false => rfl
      | true => exact Function.update_of_ne (hne hsame) _ _

/-- A photo whose copy leaves the forms alone: a jpg, or its own copy. -/
def Harmless (path : Bytes) (photo : Option Bytes) : Prop :=
  ∀ src, photo = some src → IsJpg src ∨ photoPath path src = some src

/-- Of the forms, only the one that is written changes. -/
theorem writeFiles_form (hphoto : Harmless path photo) {p : Bytes} (hp : IsForm infodirname p) :
    writeFiles disk path text photo creates p = Function.update disk path (some text) p := by
  unfold writeFiles
  cases photo with
  | none => rfl
  | some src =>
    cases hcopy : photoPath path src with
    | none => simp [hcopy]
    | some dest =>
      simp only [Option.bind_some, hcopy]
      refine copyPhoto_of_ne fun hother => ?_
      rintro rfl
      rcases hphoto src rfl with hjpg | hown
      · exact hjpg.copy_not_isForm hcopy hp
      · exact hother (Option.some.inj (hown.symm.trans hcopy))

end Copies

/-! ### What the user can do -/

/-- The rows of the list are those of forms. -/
structure Data.Offered (row : Data) : Prop where
  roll : 0 ≤ row.roll ∧ row.roll < 10000
  totList : 0 ≤ row.totList ∧ row.totList < 10000
  section_ : row.section_ ∈ sections

/-- The entries hold what the widgets let in, and a row is chosen from the list. -/
def DeskMove.Offered : DeskMove → Prop
  | .save s => s.entries.Offered
  | .saveEdit _ s => s.entries.Offered
  | .edit row => row.Offered
  | .delete row _ => row.Offered
  | _ => True

theorem Entries.Offered.withPhoto {e : Entries} (he : e.Offered) (photo : Option Bytes) :
    { e with photo := photo }.Offered :=
  { he with }

section Paths

variable {st : Settings} {infodirname path : Bytes} {row : Data} {e : Entries} {s : Saving}
  {photo : Option Bytes} {lines : List Bytes} {disk : Bytes → Option Bytes}

theorem isForm_constructFilename {roll totlist : ℤ} {gender sec group : Bytes}
    (hroll : (printInt04 roll).length = 4) (htot : (printInt04 totlist).length = 4)
    (hsec : sec ∈ sections) :
    IsForm infodirname (infodirname ++ constructFilename gender roll sec totlist group) := by
  refine ⟨_, rfl, ?_, constructFilename_listed hroll htot hsec⟩
  obtain ⟨stem, hname, -, hstem, -⟩ :=
    @constructFilename_eq roll totlist gender sec group hroll htot hsec
  rw [hname, List.mem_append, not_or]
  exact ⟨hstem, by decide⟩

theorem Entries.Offered.isForm (he : e.Offered) : IsForm infodirname (infodirname ++ e.filename) :=
  isForm_constructFilename (length_printInt04_atoi he.classRoll.1)
    (length_printInt04_atoi he.totList.1) he.sec

theorem Data.Offered.isForm (hrow : row.Offered) (h : rowPath infodirname row = some path) :
    IsForm infodirname path := by
  unfold rowPath at h
  dsimp only at h
  split_ifs at h
  obtain rfl := Option.some.inj h
  obtain ⟨hroll, htot, hsec⟩ := hrow
  exact isForm_constructFilename (length_printInt04 (by omega) hroll.2)
    (length_printInt04 (by omega) htot.2) hsec

/-- A form that is deleted goes to another directory. -/
theorem recycle_not_isForm : ¬ IsForm infodirname (recycle infodirname row) := by
  rintro ⟨name, hname, hslash, -⟩
  rw [recycle, List.append_assoc] at hname
  refine hslash ?_
  rw [← List.append_cancel_left hname]
  exact List.mem_append_left _ (by decide)

theorem renameFile_form {p : Bytes} (hp : IsForm infodirname p) :
    renameFile disk path (recycle infodirname row) p = Function.update disk path none p := by
  unfold renameFile
  rw [Function.update_of_ne]
  rintro rfl
  exact recycle_not_isForm hp

theorem of_update_none {p content : Bytes} (h : Function.update disk path none p = some content) :
    disk p = some content := by
  by_cases hsame : p = path
  · rw [hsame, Function.update_self] at h
    cases h
  · rwa [Function.update_of_ne hsame] at h

theorem saveForm_path (h : saveForm st infodirname { e with photo := photo } = some (path, lines)) :
    path = infodirname ++ e.filename := by
  obtain ⟨-, hwritten⟩ := saveForm_cases h
  exact (verifyForm_cases hwritten).1

/-- A save that gets through writes its files. -/
theorem Saving.Succeeds.verify (hs : s.Succeeds st infodirname photo) :
    ∃ lines, s.verify st infodirname photo disk =
        some (writeFiles disk (infodirname ++ s.entries.filename) lines.flatten photo s.creates,
          some (infodirname ++ s.entries.filename, lines.flatten)) ∧
      saveForm st infodirname { s.entries with photo := photo } =
        some (infodirname ++ s.entries.filename, lines) := by
  obtain ⟨hcheck, hopens, hwritten⟩ := hs
  obtain ⟨⟨path, lines⟩, hwritten⟩ := Option.isSome_iff_exists.mp hwritten
  have hsame : checkEntries st { s.entries with photo := photo } = some E_NO_ERROR := hcheck
  have hsaved : saveForm st infodirname { s.entries with photo := photo } = some (path, lines) := by
    rw [saveForm, if_pos hsame, hwritten]
  obtain rfl := saveForm_path hsaved
  refine ⟨lines, ?_, hsaved⟩
  simp [Saving.verify, hcheck, hopens, hwritten]

/-- A file that is there stays there. -/
theorem writeFiles_ne_none {text : Bytes} {creates : Bool} {p : Bytes} (hp : disk p ≠ none) :
    writeFiles disk path text photo creates p ≠ none := by
  have hwritten : Function.update disk path (some text) p ≠ none := by
    by_cases hsame : p = path
    · rw [hsame, Function.update_self]
      exact Option.some_ne_none _
    · rwa [Function.update_of_ne hsame]
  unfold writeFiles
  cases photo with
  | none => exact hwritten
  | some src =>
    cases hcopy : photoPath path src with
    | none => simpa [hcopy] using hwritten
    | some dest =>
      simp only [Option.bind_some, hcopy]
      unfold copyPhoto
      by_cases hsame : src = dest
      · rwa [if_pos hsame]
      · rw [if_neg hsame]
        cases Function.update disk path (some text) src with
        | none => exact hwritten
        | some data =>
          cases creates with
          | false => exact hwritten
          | true =>
            by_cases hdest : p = dest
            · simp [hdest]
            · simpa [Function.update_of_ne hdest] using hwritten

end Paths

/-! ### The forms that are kept -/

/-- What an event does to the forms. -/
def DeskEvent.change : DeskEvent → Option (Records.Change Bytes Bytes)
  | .chose _ => none
  | .entered path text => some (.entered path text)
  | .edited opened path text => some (.replaced opened path text)
  | .removed path => some (.removed path)

/-- The forms of the students that were entered and not deleted, each as it was saved last. -/
def students (events : List DeskEvent) : List (Bytes × Bytes) :=
  (events.filterMap DeskEvent.change).foldl Records.Change.apply []

section Forms

variable (st : Settings) (infodirname : Bytes) (common : CommonCodes)

/-- A move changes the forms as its event says: a save of the entry window adds one, a save of an
edit window replaces the one that was opened, and nothing else touches them. -/
def StepKept : Option Desk → DeskMove → Prop
  | none, _ => True
  | some d, move => ∀ d', (desk st infodirname common (some d) move).1 = some d' →
      (∀ c ∈ (desk st infodirname common (some d) move).2.filterMap DeskEvent.change,
        Records.Effect (IsForm infodirname) d.disk d'.disk c) ∧
      ((desk st infodirname common (some d) move).2.filterMap DeskEvent.change = [] →
        ∀ path, IsForm infodirname path → d'.disk path = d.disk path)

/-- Over a run each move does so, and the directory holds one form for each student. -/
def FormsKept (s : Option Desk) (moves : List DeskMove) : Prop :=
  (desk st infodirname common).Meets (StepKept st infodirname common) s moves ∧
    ∀ before after d, moves = before ++ after →
      ((desk st infodirname common).run s before).1 = some d →
      Records.Holds (IsForm infodirname) d.disk
        (students ((desk st infodirname common).run s before).2)

/-- The name a form is saved under is free, or that of the form that was opened and is still
there. -/
def KeysFree : Option Desk → DeskMove → Prop
  | some d, .save s => s.Succeeds st infodirname d.photo →
      d.disk (infodirname ++ s.entries.filename) = none
  | some d, .saveEdit i s => ∀ w, d.windows[i]? = some w → s.Succeeds st infodirname w.photo →
      infodirname ++ s.entries.filename = w.opened ∧ d.disk w.opened ≠ none
  | _, _ => True

/-- The photos that the windows know do no harm. -/
structure Desk.Tame (d : Desk) : Prop where
  photo : ∀ src, d.photo = some src → IsJpg src
  opened : ∀ w ∈ d.windows, IsForm infodirname w.opened
  windows : ∀ w ∈ d.windows, Harmless w.opened w.photo
  forms : ∀ path, IsForm infodirname path → ∀ content w copy, d.disk path = some content →
    loadStudentInfo common content = some w → w.entries.photo = some copy →
    photoPath path copy = some copy

end Forms

section Kept

variable {st : Settings} {common : CommonCodes} {session colcode infodirname : Bytes} {d d' : Desk}
  {move : DeskMove} {moves : List DeskMove} {events : List DeskEvent} {s : Saving}
  {photo : Option Bytes} {path : Bytes} {lines : List Bytes}

theorem students_append (events events' : List DeskEvent) :
    students (events ++ events') =
      (events'.filterMap DeskEvent.change).foldl Records.Change.apply (students events) := by
  rw [students, List.filterMap_append, List.foldl_append]
  rfl

theorem Desk.Tame.harmless (ht : d.Tame infodirname common) (path : Bytes) :
    Harmless path d.photo :=
  fun src hsrc => Or.inl (ht.photo src hsrc)

/-- A save keeps what the forms know of their photos. -/
theorem forms_writeFiles (hsession : IsNumberEntry 4 session) (hcolcode : IsNumberEntry 4 colcode)
    (ht : d.Tame (fixInfoPath session colcode) common) (he : s.entries.Offered)
    (hharmless : Harmless path photo)
    (hsaved : saveForm st (fixInfoPath session colcode) { s.entries with photo := photo } =
      some (path, lines)) :
    ∀ p, IsForm (fixInfoPath session colcode) p → ∀ content w copy,
      writeFiles d.disk path lines.flatten photo s.creates p = some content →
      loadStudentInfo common content = some w → w.entries.photo = some copy →
      photoPath p copy = some copy := by
  intro p hp content w copy hcontent hload hcopy
  rw [writeFiles_form hharmless hp] at hcontent
  -- the form that was written, or another one
  by_cases hsame : p = path
  · subst hsame
    rw [Function.update_self] at hcontent
    obtain rfl := Option.some.inj hcontent
    exact loadStudentInfo_photo hsession hcolcode (he.withPhoto photo) hsaved hload hcopy
  · rw [Function.update_of_ne hsame] at hcontent
    exact ht.forms p hp content w copy hcontent hload hcopy

/-- What a save of an edit window writes when its name is that of the form that was opened. -/
theorem KeysFree.opened {i : ℕ} {w : Editing}
    (hfree : KeysFree st infodirname (some d) (.saveEdit i s)) (hw : d.windows[i]? = some w)
    (hs : s.Succeeds st infodirname w.photo)
    (hsaved : saveForm st infodirname { s.entries with photo := w.photo } = some (path, lines)) :
    path = w.opened ∧ d.disk path ≠ none := by
  obtain ⟨hsame, hthere⟩ := hfree w hw hs
  obtain rfl : path = w.opened := (saveForm_path hsaved).trans hsame
  exact ⟨rfl, hthere⟩

theorem tame_step (hsession : IsNumberEntry 4 session) (hcolcode : IsNumberEntry 4 colcode)
    (ht : d.Tame (fixInfoPath session colcode) common) (hoffered : move.Offered)
    (hfree : KeysFree st (fixInfoPath session colcode) (some d) move)
    (h : (desk st (fixInfoPath session colcode) common (some d) move).1 = some d') :
    d'.Tame (fixInfoPath session colcode) common := by
  have hstep := desk_step h
  generalize (desk st (fixInfoPath session colcode) common (some d) move).2 = events at hstep
  cases hstep with
  | chose hjpg =>
    refine ⟨fun src hsrc => ?_, ht.opened, ht.windows, ht.forms⟩
    obtain rfl := Option.some.inj hsrc
    exact hjpg
  | entered hs hsaved =>
    exact ⟨ht.photo, ht.opened, ht.windows,
      forms_writeFiles hsession hcolcode ht hoffered (ht.harmless _) hsaved⟩
  | edited hw hs hsaved =>
    -- the window saves its own form, and so copies its photo where it belongs
    obtain ⟨rfl, -⟩ := hfree.opened hw hs hsaved
    have hharmless := ht.windows _ (List.mem_of_getElem? hw)
    exact ⟨ht.photo, fun v hv => ht.opened v (List.mem_of_mem_eraseIdx hv),
      fun v hv => ht.windows v (List.mem_of_mem_eraseIdx hv),
      forms_writeFiles hsession hcolcode ht hoffered hharmless hsaved⟩
  | removed hpath hthere =>
    refine ⟨ht.photo, ht.opened, ht.windows, fun p hp content w copy hcontent => ?_⟩
    change renameFile _ _ _ p = some content at hcontent
    rw [renameFile_form hp] at hcontent
    exact ht.forms p hp content w copy (of_update_none hcontent)
  | opened hpath hphoto =>
    refine ⟨ht.photo, fun v hv => ?_, fun v hv => ?_, ht.forms⟩
    · rcases List.mem_append.mp hv with hv | hv
      · exact ht.opened v hv
      · obtain rfl := List.mem_singleton.mp hv
        exact hoffered.isForm hpath
    · rcases List.mem_append.mp hv with hv | hv
      · exact ht.windows v hv
      · obtain rfl := List.mem_singleton.mp hv
        intro copy hcopy
        obtain ⟨content, w, hcontent, hload, hcopy⟩ := hphoto copy hcopy
        exact Or.inr (ht.forms _ (hoffered.isForm hpath) content w copy hcontent hload hcopy)
  | quiet hwindows hsave hsaveEdit =>
    refine ⟨ht.photo, fun w hw => ?_, fun w hw src hsrc => ?_, ht.forms⟩
    · obtain ⟨v, hv, hopened, -⟩ := hwindows w hw
      exact hopened ▸ ht.opened v hv
    · obtain ⟨v, hv, hopened, hphoto | ⟨photo, hphoto, hjpg⟩⟩ := hwindows w hw
      · rw [hopened]
        exact ht.windows v hv src (hphoto ▸ hsrc)
      · obtain rfl := Option.some.inj (hphoto.symm.trans hsrc)
        exact Or.inl hjpg

theorem writeFiles_self {disk : Bytes → Option Bytes} {text : Bytes} {creates : Bool}
    (hharmless : Harmless path photo) (hpath : IsForm infodirname path) :
    writeFiles disk path text photo creates path = some text := by
  rw [writeFiles_form hharmless hpath, Function.update_self]

theorem writeFiles_other {disk : Bytes → Option Bytes} {text p : Bytes} {creates : Bool}
    (hharmless : Harmless path photo) (hp : IsForm infodirname p) (hne : p ≠ path) :
    writeFiles disk path text photo creates p = disk p := by
  rw [writeFiles_form hharmless hp, Function.update_of_ne hne]

/-- One change with its effect. -/
theorem kept_singleton {table table' : Bytes → Option Bytes} {c : Records.Change Bytes Bytes}
    (heffect : Records.Effect (IsForm infodirname) table table' c) :
    (∀ c' ∈ [c], Records.Effect (IsForm infodirname) table table' c') ∧
      ([c] = [] → ∀ path, IsForm infodirname path → table' path = table path) := by
  constructor
  · intro c' hc'
    obtain rfl := List.mem_singleton.mp hc'
    exact heffect
  · intro hnil
    cases hnil

/-- Free keys are enough. -/
theorem stepKept_of_keysFree (ht : d.Tame infodirname common) (hoffered : move.Offered)
    (hfree : KeysFree st infodirname (some d) move) :
    StepKept st infodirname common (some d) move := by
  intro d' h
  have hstep := desk_step h
  generalize (desk st infodirname common (some d) move).2 = events at hstep ⊢
  cases hstep with
  | chose hjpg => simp [DeskEvent.change]
  | entered hs hsaved =>
    obtain rfl := saveForm_path hsaved
    have hpath := @Entries.Offered.isForm infodirname _ hoffered
    exact kept_singleton ⟨hpath, hfree hs, writeFiles_self (ht.harmless _) hpath,
      fun p hp hne => writeFiles_other (ht.harmless _) hp hne⟩
  | edited hw hs hsaved =>
    obtain ⟨rfl, hthere⟩ := hfree.opened hw hs hsaved
    have hmem := List.mem_of_getElem? hw
    have hopened := ht.opened _ hmem
    exact kept_singleton ⟨⟨hopened, hopened⟩, hthere, writeFiles_self (ht.windows _ hmem) hopened,
      fun hne => absurd rfl hne, fun p hp hne _ => writeFiles_other (ht.windows _ hmem) hp hne⟩
  | removed hpath hthere =>
    refine kept_singleton ⟨?_, fun p hp hne => ?_⟩
    · exact (renameFile_form (hoffered.isForm hpath)).trans (Function.update_self _ _ _)
    · exact (renameFile_form hp).trans (Function.update_of_ne hne _ _)
  | opened hpath hphoto => simp
  | quiet hwindows hsave hsaveEdit => simp

/-- A save over another form, or under another name than that of the form that was opened, loses
a form or leaves one behind. -/
theorem keysFree_of_stepKept (h : StepKept st infodirname common (some d) move) :
    KeysFree st infodirname (some d) move := by
  cases move with
  | save s =>
    intro hs
    obtain ⟨lines, hverify, -⟩ := @Saving.Succeeds.verify _ _ _ _ d.disk hs
    obtain ⟨hchanges, -⟩ := h _ (by simp only [desk, hverify]; rfl)
    obtain ⟨-, hfree, -⟩ := hchanges (.entered (infodirname ++ s.entries.filename) lines.flatten)
      (by simp [desk, hverify, DeskEvent.change])
    exact hfree
  | saveEdit i s =>
    intro w hw hs
    obtain ⟨lines, hverify, -⟩ := @Saving.Succeeds.verify _ _ _ _ d.disk hs
    obtain ⟨hchanges, -⟩ := h _ (by simp only [desk, hw, hverify]; rfl)
    obtain ⟨-, hthere, -, hmoved, -⟩ := hchanges
      (.replaced w.opened (infodirname ++ s.entries.filename) lines.flatten)
      (by simp [desk, hw, hverify, DeskEvent.change])
    refine ⟨?_, hthere⟩
    by_contra hother
    -- nothing takes the old file away
    exact writeFiles_ne_none hthere (hmoved hother).2
  | _ => trivial

/-- A move that keeps the forms goes on holding the forms of the students. -/
theorem holds_step (hkept : StepKept st infodirname common (some d) move)
    (hholds : Records.Holds (IsForm infodirname) d.disk (students events))
    (h : (desk st infodirname common (some d) move).1 = some d') :
    Records.Holds (IsForm infodirname) d'.disk
      (students (events ++ (desk st infodirname common (some d) move).2)) := by
  obtain ⟨hchanges, hsame⟩ := hkept d' h
  -- a move has one event at most
  have hone : (desk st infodirname common (some d) move).2.filterMap DeskEvent.change = [] ∨
      ∃ c, (desk st infodirname common (some d) move).2.filterMap DeskEvent.change = [c] := by
    have hstep := desk_step h
    generalize (desk st infodirname common (some d) move).2 = events' at hstep ⊢
    cases hstep <;> simp [DeskEvent.change]
  rw [students_append]
  rcases hone with hnone | ⟨c, hc⟩
  · rw [hnone]
    exact hholds.congr (hsame hnone)
  · rw [hc]
    exact hholds.apply (hchanges c (by rw [hc]; exact List.mem_singleton_self c))

/-- Over a run on free keys the photos stay harmless, and the forms are those of the students. -/
theorem kept_run (hsession : IsNumberEntry 4 session) (hcolcode : IsNumberEntry 4 colcode)
    (ht : d.Tame (fixInfoPath session colcode) common)
    (hholds : Records.Holds (IsForm (fixInfoPath session colcode)) d.disk [])
    (hmeets : (desk st (fixInfoPath session colcode) common).Meets
      (fun s move => KeysFree st (fixInfoPath session colcode) s move ∧ move.Offered)
      (some d) moves)
    (h : ((desk st (fixInfoPath session colcode) common).run (some d) moves).1 = some d') :
    d'.Tame (fixInfoPath session colcode) common ∧
      Records.Holds (IsForm (fixInfoPath session colcode)) d'.disk
        (students ((desk st (fixInfoPath session colcode) common).run (some d) moves).2) := by
  -- the invariant carries the events, since the students are made of them
  let inv (s : Option Desk) (events : List DeskEvent) : Prop := ∀ d, s = some d →
    d.Tame (fixInfoPath session colcode) common ∧
      Records.Holds (IsForm (fixInfoPath session colcode)) d.disk (students events)
  have hstart : inv (some d) [] := by
    rintro _ ⟨⟩
    exact ⟨ht, hholds⟩
  have hstep : ∀ s events move,
      KeysFree st (fixInfoPath session colcode) s move ∧ move.Offered → inv s events →
      inv (desk st (fixInfoPath session colcode) common s move).1
        (events ++ (desk st (fixInfoPath session colcode) common s move).2) := by
    rintro s events move ⟨hfree, hoffered⟩ hinv d' h
    cases s with
    | none => cases h
    | some d =>
      obtain ⟨ht, hholds⟩ := hinv d rfl
      exact ⟨tame_step hsession hcolcode ht hoffered hfree h,
        holds_step (stepKept_of_keysFree ht hoffered hfree) hholds h⟩
  exact Machine.run_induction hstep hstart hmeets d' h

/-- **The directory.** Over every run of the windows that starts without forms: each save adds
its own form or replaces the one that was opened, and the directory holds one form for each
student, exactly when a new form always has a free name and a form that was opened keeps its
name and is still there. -/
theorem forms_kept_iff (hsession : IsNumberEntry 4 session) (hcolcode : IsNumberEntry 4 colcode)
    (hempty : ∀ path, IsForm (fixInfoPath session colcode) path → d.disk path = none)
    (hphoto : d.photo = none) (hwindows : d.windows = []) (hmoves : ∀ move ∈ moves, move.Offered) :
    FormsKept st (fixInfoPath session colcode) common (some d) moves ↔
      (desk st (fixInfoPath session colcode) common).Meets
        (KeysFree st (fixInfoPath session colcode)) (some d) moves := by
  have htame : d.Tame (fixInfoPath session colcode) common :=
    ⟨by simp [hphoto], by simp [hwindows], by simp [hwindows],
      fun path hpath content w copy hcontent => by simp [hempty path hpath] at hcontent⟩
  constructor
  · rintro ⟨hkept, -⟩
    rw [Machine.meets_iff_forall] at hkept ⊢
    intro before move after hsplit
    have hstep := hkept before move after hsplit
    generalize ((desk st (fixInfoPath session colcode) common).run (some d) before).1 = s at hstep ⊢
    cases s with
    | none => trivial
    | some d => exact keysFree_of_stepKept hstep
  · intro hfree
    -- the run lemma needs both conditions at every step
    have hmeets : (desk st (fixInfoPath session colcode) common).Meets
        (fun s move => KeysFree st (fixInfoPath session colcode) s move ∧ move.Offered)
        (some d) moves := by
      rw [Machine.meets_iff_forall] at hfree ⊢
      intro before move after hsplit
      exact ⟨hfree before move after hsplit, hmoves move (by simp [hsplit])⟩
    have hholds := Records.holds_nil hempty
    refine ⟨?_, fun before after d' hsplit h => ?_⟩
    · rw [Machine.meets_iff_forall]
      intro before move after hsplit
      rw [hsplit, Machine.meets_append] at hmeets
      obtain ⟨hbefore, ⟨hfree, hoffered⟩, -⟩ := hmeets
      cases hd : ((desk st (fixInfoPath session colcode) common).run (some d) before).1 with
      | none => trivial
      | some d' =>
        rw [hd] at hfree
        have ht := (kept_run hsession hcolcode htame hholds hbefore hd).1
        exact stepKept_of_keysFree ht hoffered hfree
    · rw [hsplit, Machine.meets_append] at hmeets
      exact (kept_run hsession hcolcode htame hholds hmeets.1 h).2

end Kept

/-! ### Two students under one name -/

/-- The windows before anything is saved. -/
def emptyDesk : Desk := ⟨fun _ => none, none, []⟩

/-- Another student with the class roll, the group and the total list number of the first. -/
def sisterEntries : Entries := { homeEcoEntries with studentName := ascii "MST. EVA" }

def firstSave : Saving := ⟨homeEcoEntries, true, true⟩

def secondSave : Saving := ⟨sisterEntries, true, true⟩

theorem sisterEntries_offered : sisterEntries.Offered :=
  { homeEcoEntries_offered with studentName := by decide +kernel }

def chosenPhoto : Bytes := ascii "/tmp/eva.jpg"

/-- Both saves get through, with the photo or without. -/
theorem saves_succeed : ∀ photo ∈ [none, some chosenPhoto],
    firstSave.Succeeds homeEcoSettings (fixInfoPath (ascii "2005") (ascii "0001")) photo ∧
      secondSave.Succeeds homeEcoSettings (fixInfoPath (ascii "2005") (ascii "0001")) photo := by
  unfold Saving.Succeeds
  decide +kernel

theorem saves_offered : ∀ move ∈ [DeskMove.save firstSave, .save secondSave], move.Offered := by
  rintro move (_ | ⟨_, _ | ⟨_, ⟨⟩⟩⟩)
  · exact homeEcoEntries_offered
  · exact sisterEntries_offered

theorem forms_kept_iff_sample :
    FormsKept homeEcoSettings (fixInfoPath (ascii "2005") (ascii "0001")) sampleCommon
        (some emptyDesk) [.save firstSave, .save secondSave] ↔
      (desk homeEcoSettings (fixInfoPath (ascii "2005") (ascii "0001")) sampleCommon).Meets
        (KeysFree homeEcoSettings (fixInfoPath (ascii "2005") (ascii "0001"))) (some emptyDesk)
        [.save firstSave, .save secondSave] :=
  forms_kept_iff sampleSession sampleColcode (fun _ _ => rfl) rfl rfl saves_offered

/-- The second form takes the place of the first. -/
theorem forms_kept_fails_sample :
    (∀ move ∈ [DeskMove.save firstSave, .save secondSave], move.Offered) ∧
      ¬ FormsKept homeEcoSettings (fixInfoPath (ascii "2005") (ascii "0001")) sampleCommon
        (some emptyDesk) [.save firstSave, .save secondSave] := by
  refine ⟨saves_offered, fun h => ?_⟩
  obtain ⟨hfirst, hsecond⟩ := saves_succeed none (by simp)
  obtain ⟨lines, hverify, -⟩ := @Saving.Succeeds.verify _ _ _ _ emptyDesk.disk hfirst
  have hdesk : (desk homeEcoSettings (fixInfoPath (ascii "2005") (ascii "0001")) sampleCommon
      (some emptyDesk) (.save firstSave)).1 = some { emptyDesk with
        disk := writeFiles emptyDesk.disk
          (fixInfoPath (ascii "2005") (ascii "0001") ++ homeEcoEntries.filename) lines.flatten
          none true } := by
    simp only [desk, emptyDesk] at hverify ⊢
    rw [hverify]
    rfl
  obtain ⟨⟨-, hkept, -⟩, -⟩ := h
  rw [hdesk] at hkept
  -- the two names are one
  have hname : secondSave.entries.filename = homeEcoEntries.filename := by
    simp only [secondSave, sisterEntries, Entries.filename]
  have hfree := keysFree_of_stepKept hkept hsecond
  rw [hname] at hfree
  simp [writeFiles] at hfree


/-! ### The photo of a form -/

/-- The photos chosen in the entry window. -/
def choices : List DeskEvent → List Bytes
  | [] => []
  | .chose photo :: events => photo :: choices events
  | _ :: events => choices events

/-- The photos chosen there since a form was last entered, behind those that were chosen
before. -/
def choicesSince (chosen : List Bytes) : List DeskEvent → List Bytes
  | [] => chosen
  | .chose photo :: events => choicesSince (chosen ++ [photo]) events
  | .entered _ _ :: events => choicesSince [] events
  | _ :: events => choicesSince chosen events

section OwnPhoto

variable (st : Settings) (infodirname : Bytes) (common : CommonCodes)

/-- The form has a photo chosen since the save before, and the copy of it; or it has none when
none was chosen since, and no image is copied. -/
structure OwnPhoto (disk disk' : Bytes → Option Bytes) (e : Entries) (since : List Bytes) :
    Prop where
  chosen : since ≠ [] → ∃ photo ∈ since, ∃ copy,
    photoPath (infodirname ++ e.filename) photo = some copy ∧
      disk' (infodirname ++ e.filename) = some (formLines e copy).flatten ∧
      (disk' copy = disk copy ∨ disk' copy = disk photo) ∧
      ∀ p, p ≠ infodirname ++ e.filename → p ≠ copy → disk' p = disk p
  blank : since = [] → disk' (infodirname ++ e.filename) = some (formLines e []).flatten ∧
    ∀ p, p ≠ infodirname ++ e.filename → disk' p = disk p

/-- Each save of the entry window in a run meets a condition on what happened before it. -/
def EachSave (d : Desk) (moves : List DeskMove)
    (ok : List DeskEvent → Desk → Saving → Prop) : Prop :=
  ∀ before s after d', moves = before ++ .save s :: after →
    ((desk st infodirname common).run (some d) before).1 = some d' →
    s.Succeeds st infodirname d'.photo →
    ok ((desk st infodirname common).run (some d) before).2 d' s

/-- Every form that is entered is saved with its own photo. -/
def PhotosOwn (d : Desk) (moves : List DeskMove) : Prop :=
  EachSave st infodirname common d moves fun events d' s =>
    ∃ d'', (desk st infodirname common (some d') (.save s)).1 = some d'' ∧
      OwnPhoto infodirname d'.disk d''.disk s.entries (choicesSince [] events)

/-- A photo is chosen for every form, once one was chosen. -/
def PhotosChosen (d : Desk) (moves : List DeskMove) : Prop :=
  EachSave st infodirname common d moves fun events _ _ =>
    choices events = [] ∨ choicesSince [] events ≠ []

/-- What the entry window knows of the photos chosen. -/
structure Remembers (events : List DeskEvent) (d : Desk) : Prop where
  last : d.photo = (choices events).getLast?
  jpg : ∀ photo ∈ choices events, IsJpg photo

end OwnPhoto

section Photos

variable {st : Settings} {common : CommonCodes} {session colcode infodirname : Bytes} {d d' : Desk}
  {move : DeskMove} {moves : List DeskMove} {events : List DeskEvent} {s : Saving}

theorem choices_append (events events' : List DeskEvent) :
    choices (events ++ events') = choices events ++ choices events' := by
  induction events with
  | nil => rfl
  | cons ev events ih => cases ev <;> simp [choices, ih]

/-- The photos chosen since are the last of those that were chosen. -/
theorem choicesSince_suffix (chosen : List Bytes) (events : List DeskEvent) :
    choicesSince chosen events <:+ chosen ++ choices events := by
  induction events generalizing chosen with
  | nil => simp [choicesSince, choices]
  | cons ev events ih =>
    cases ev with
    | chose photo => simpa [choicesSince, choices] using ih (chosen ++ [photo])
    | entered path text =>
      exact (ih []).trans (List.suffix_append chosen _)
    | edited opened path text => exact ih chosen
    | removed path => exact ih chosen

/-- No move of the windows forgets the photo. -/
theorem remembers_step (hr : Remembers events d)
    (h : (desk st infodirname common (some d) move).1 = some d') :
    Remembers (events ++ (desk st infodirname common (some d) move).2) d' := by
  have hstep := desk_step h
  generalize (desk st infodirname common (some d) move).2 = events' at hstep ⊢
  have hsame : ∀ {disk : Bytes → Option Bytes} {windows : List Editing} {events' : List DeskEvent},
      choices events' = [] → Remembers (events ++ events') ⟨disk, d.photo, windows⟩ := by
    intro disk windows events' hnone
    refine ⟨?_, ?_⟩ <;> rw [choices_append, hnone, List.append_nil]
    · exact hr.last
    · exact hr.jpg
  cases hstep with
  | chose hjpg =>
    refine ⟨?_, ?_⟩ <;> rw [choices_append]
    · simp [choices]
    · intro photo hmem
      rcases List.mem_append.mp hmem with hmem | hmem
      · exact hr.jpg photo hmem
      · obtain rfl := List.mem_singleton.mp hmem
        exact hjpg
  | entered hs hsaved => exact hsame rfl
  | edited hw hs hsaved => exact hsame rfl
  | removed hpath hthere => exact hsame rfl
  | opened hpath hphoto => exact hsame rfl
  | quiet hwindows hsave hsaveEdit => exact hsame rfl

theorem remembers_run (hphoto : d.photo = none)
    (h : ((desk st infodirname common).run (some d) moves).1 = some d') :
    Remembers ((desk st infodirname common).run (some d) moves).2 d' := by
  let inv (s : Option Desk) (events : List DeskEvent) : Prop := ∀ d, s = some d → Remembers events d
  have hstart : inv (some d) [] := by
    rintro _ ⟨⟩
    exact ⟨hphoto, by simp [choices]⟩
  have hstep : ∀ s events move, True → inv s events →
      inv (desk st infodirname common s move).1
        (events ++ (desk st infodirname common s move).2) := by
    rintro s events move - hinv d' h
    cases s with
    | none => cases h
    | some d => exact remembers_step (hinv d rfl) h
  exact Machine.run_induction hstep hstart (Machine.meets_true _ _) d' h

/-- What the copy of a photo holds. -/
theorem copyPhoto_dest (disk : Bytes → Option Bytes) (src dest : Bytes) (creates : Bool) :
    copyPhoto disk src dest creates dest = disk dest ∨
      copyPhoto disk src dest creates dest = disk src := by
  unfold copyPhoto
  by_cases hsame : src = dest
  · rw [if_pos hsame]
    exact Or.inl rfl
  · rw [if_neg hsame]
    cases hsrc : disk src with
    | none => exact Or.inl rfl
    | some data =>
      cases creates with
      | false => exact Or.inl rfl
      | true => exact Or.inr (Function.update_self _ _ _)

/-- The files of a form with a photo: the form, and the copy. -/
theorem writeFiles_photo {disk : Bytes → Option Bytes} {path text photo copy : Bytes}
    {creates : Bool} (hjpg : IsJpg photo) (hpath : IsForm infodirname path)
    (hcopy : photoPath path photo = some copy) :
    (writeFiles disk path text (some photo) creates copy = disk copy ∨
        writeFiles disk path text (some photo) creates copy = disk photo) ∧
      ∀ p, p ≠ path → p ≠ copy → writeFiles disk path text (some photo) creates p = disk p := by
  -- a copy is a jpg and a form is none, so the three files are different
  have hne : copy ≠ path := by
    rintro rfl
    exact hjpg.copy_not_isForm hcopy hpath
  have hsrc : photo ≠ path := by
    rintro rfl
    exact hjpg.not_isForm hpath
  simp only [writeFiles, Option.bind_some, hcopy]
  refine ⟨?_, fun p hp hcopy => ?_⟩
  · have hdest := copyPhoto_dest (Function.update disk path (some text)) photo copy creates
    rwa [Function.update_of_ne hne, Function.update_of_ne hsrc] at hdest
  · rw [copyPhoto_of_ne fun _ => hcopy, Function.update_of_ne hp]

/-- The last line of a form tells its photo. -/
theorem formLines_flatten_inj {e : Entries} {text text' : Bytes}
    (h : (formLines e text).flatten = (formLines e text').flatten) : text = text' := by
  simp only [formLines, List.flatten_append, List.flatten_cons, List.flatten_nil,
    List.append_nil] at h
  exact labelled_inj (List.append_cancel_left h)

/-- One save: the photo is the form's own when it is a new one, or when there never was one. -/
theorem ownPhoto_save_iff (hsession : IsNumberEntry 4 session) (hcolcode : IsNumberEntry 4 colcode)
    (he : s.entries.Offered) (hr : Remembers events d)
    (hs : s.Succeeds st (fixInfoPath session colcode) d.photo) :
    (∃ d', (desk st (fixInfoPath session colcode) common (some d) (.save s)).1 = some d' ∧
        OwnPhoto (fixInfoPath session colcode) d.disk d'.disk s.entries
          (choicesSince [] events)) ↔
      (choices events = [] ∨ choicesSince [] events ≠ []) := by
  have hsuffix := choicesSince_suffix [] events
  rw [List.nil_append] at hsuffix
  have hpath : IsForm (fixInfoPath session colcode)
      (fixInfoPath session colcode ++ s.entries.filename) := he.isForm
  obtain ⟨lines, hverify, hsaved⟩ := @Saving.Succeeds.verify _ _ _ _ d.disk hs
  have hdesk : (desk st (fixInfoPath session colcode) common (some d) (.save s)).1 =
      some { d with
        disk := writeFiles d.disk (fixInfoPath session colcode ++ s.entries.filename)
          lines.flatten d.photo s.creates } := by
    simp only [desk, hverify]
  rw [hdesk]
  simp only [Option.some.injEq, exists_eq_left']
  obtain ⟨-, hwritten⟩ := saveForm_cases hsaved
  obtain ⟨-, text, rfl, hphoto⟩ := verifyForm_cases hwritten
  change d.photo = none ∧ text = [] ∨ ∃ name, d.photo = some name ∧ _ at hphoto
  rcases hphoto with ⟨hnone, rfl⟩ | ⟨photo, hsome, hcopy⟩
  · -- no photo was ever chosen
    have hnil : choices events = [] := List.getLast?_eq_none_iff.mp (hr.last.symm.trans hnone)
    have hsince : choicesSince [] events = [] := List.suffix_nil.mp (hnil ▸ hsuffix)
    refine iff_of_true ⟨fun hne => absurd hsince hne, fun _ => ?_⟩ (Or.inl hnil)
    rw [hnone]
    exact ⟨Function.update_self _ _ _, fun p hp => Function.update_of_ne hp _ _⟩
  · have hlast : (choices events).getLast? = some photo := hr.last.symm.trans hsome
    have hjpg : IsJpg photo := hr.jpg photo (List.mem_of_getLast? hlast)
    have hne : choices events ≠ [] := fun hnil => by simp [hnil] at hlast
    have hform : writeFiles d.disk (fixInfoPath session colcode ++ s.entries.filename)
        (formLines { s.entries with photo := d.photo } text).flatten d.photo s.creates
        (fixInfoPath session colcode ++ s.entries.filename) =
        some (formLines s.entries text).flatten := by
      refine writeFiles_self (fun src hsrc => Or.inl ?_) hpath
      exact Option.some.inj (hsome.symm.trans hsrc) ▸ hjpg
    constructor
    · intro hown
      refine Or.inr fun hsince => ?_
      -- the photo of the form before is written
      have hblank := hform.symm.trans (hown.blank hsince).1
      obtain rfl := formLines_flatten_inj (Option.some.inj hblank)
      obtain ⟨-, -, -, rest, -, -, -, hslash, -⟩ :=
        photoPath_cases hsession hcolcode he.toHeadOffered hcopy
      cases hslash
    · rintro (hnil | hsince)
      · exact absurd hnil hne
      · refine ⟨fun _ => ?_, fun hnil => absurd hnil hsince⟩
        obtain ⟨front, hfront⟩ := hsuffix
        have hmem : photo ∈ choicesSince [] events := by
          rw [← hfront, List.getLast?_append] at hlast
          rw [List.getLast?_eq_some_getLast hsince, Option.some_or] at hlast
          exact Option.some.inj hlast ▸ List.getLast_mem hsince
        obtain ⟨himage, hrest⟩ := @writeFiles_photo _ d.disk _
          (formLines { s.entries with photo := d.photo } text).flatten _ _ s.creates hjpg hpath
          hcopy
        rw [← hsome] at himage hrest
        exact ⟨photo, hmem, text, hcopy, hform, himage, hrest⟩

/-- **The photo of a form.** Over every run of the windows that starts without a photo: every
form of the entry window is saved with a photo chosen since the form before, or without one,
exactly when a photo is chosen for every form once one was chosen. -/
theorem own_photo_iff (hsession : IsNumberEntry 4 session) (hcolcode : IsNumberEntry 4 colcode)
    (hphoto : d.photo = none) (hmoves : ∀ move ∈ moves, move.Offered) :
    PhotosOwn st (fixInfoPath session colcode) common d moves ↔
      PhotosChosen st (fixInfoPath session colcode) common d moves := by
  have heach : ∀ before s after d', moves = before ++ .save s :: after →
      ((desk st (fixInfoPath session colcode) common).run (some d) before).1 = some d' →
      s.Succeeds st (fixInfoPath session colcode) d'.photo →
      ((∃ d'', (desk st (fixInfoPath session colcode) common (some d') (.save s)).1 = some d'' ∧
          OwnPhoto (fixInfoPath session colcode) d'.disk d''.disk s.entries (choicesSince []
            ((desk st (fixInfoPath session colcode) common).run (some d) before).2)) ↔
        (choices ((desk st (fixInfoPath session colcode) common).run (some d) before).2 = [] ∨
          choicesSince [] ((desk st (fixInfoPath session colcode) common).run (some d) before).2 ≠
            [])) :=
    fun before s after d' hsplit hrun hs =>
      @ownPhoto_save_iff st common session colcode d' _ s hsession hcolcode
        (hmoves (.save s) (by simp [hsplit])) (remembers_run hphoto hrun) hs
  constructor
  · intro hown before s after d' hsplit hrun hs
    exact (heach before s after d' hsplit hrun hs).mp (hown before s after d' hsplit hrun hs)
  · intro hchosen before s after d' hsplit hrun hs
    exact (heach before s after d' hsplit hrun hs).mpr (hchosen before s after d' hsplit hrun hs)

end Photos

/-! ### The photo of the student before -/

/-- A photo is chosen for the first student and none for the second. -/
def onePhoto : List DeskMove := [.choose (some chosenPhoto), .save firstSave, .save secondSave]

theorem onePhoto_offered : ∀ move ∈ onePhoto, move.Offered := by
  intro move hmove
  rcases List.mem_cons.mp hmove with rfl | hsave
  · trivial
  · exact saves_offered move hsave

theorem own_photo_iff_sample :
    PhotosOwn homeEcoSettings (fixInfoPath (ascii "2005") (ascii "0001")) sampleCommon emptyDesk
        onePhoto ↔
      PhotosChosen homeEcoSettings (fixInfoPath (ascii "2005") (ascii "0001")) sampleCommon
        emptyDesk onePhoto :=
  own_photo_iff sampleSession sampleColcode rfl onePhoto_offered

theorem own_photo_fails_sample :
    (∀ move ∈ onePhoto, move.Offered) ∧
      ¬ PhotosOwn homeEcoSettings (fixInfoPath (ascii "2005") (ascii "0001")) sampleCommon
        emptyDesk onePhoto := by
  refine ⟨onePhoto_offered, fun h => ?_⟩
  obtain ⟨hfirst, hsecond⟩ := saves_succeed (some chosenPhoto) (by simp)
  have hchosen : desk homeEcoSettings (fixInfoPath (ascii "2005") (ascii "0001")) sampleCommon
      (some emptyDesk) (.choose (some chosenPhoto)) =
        (some { emptyDesk with photo := some chosenPhoto }, [.chose chosenPhoto]) := by
    have hadd : addPhoto (some chosenPhoto) = some (some chosenPhoto) := by decide +kernel
    simp only [desk, hadd]
  obtain ⟨lines, hverify, -⟩ := @Saving.Succeeds.verify _ _ _ _ emptyDesk.disk hfirst
  have hentered : ∃ disk path text, desk homeEcoSettings
      (fixInfoPath (ascii "2005") (ascii "0001")) sampleCommon
      (some { emptyDesk with photo := some chosenPhoto }) (.save firstSave) =
        (some ⟨disk, some chosenPhoto, []⟩, [.entered path text]) :=
    ⟨_, _, _, by simp only [desk, hverify]; rfl⟩
  obtain ⟨disk, path, text, hentered⟩ := hentered
  have hrun : (desk homeEcoSettings (fixInfoPath (ascii "2005") (ascii "0001"))
      sampleCommon).run (some emptyDesk) [.choose (some chosenPhoto), .save firstSave] =
        (some ⟨disk, some chosenPhoto, []⟩, [.chose chosenPhoto, .entered path text]) := by
    simp only [Machine.run, hchosen, hentered]
    rfl
  have hown := h [.choose (some chosenPhoto), .save firstSave] secondSave [] _ rfl
    (congrArg Prod.fst hrun) hsecond
  have hremembers := @remembers_run homeEcoSettings sampleCommon
    (fixInfoPath (ascii "2005") (ascii "0001")) emptyDesk _ _ rfl (congrArg Prod.fst hrun)
  have hchosen := (ownPhoto_save_iff sampleSession sampleColcode sisterEntries_offered
    hremembers hsecond).mp hown
  rw [hrun] at hchosen
  -- nothing was chosen for the second student
  simp [choices, choicesSince] at hchosen

end Esif.Client
