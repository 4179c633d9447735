import Esif.Server.Upload

/-!
# The record of a form

The body loop copies each line of a form into `regbuf` with `memcpy`, on the
strength of what `readline` returned. The copies stay in their bounds exactly as long
as the lines of every form end with their newlines and are not too many; the record
is the form exactly when the lines end with their newlines and hold no NUL, and it is
read back as the form when there are as many of them as `reg_getdb` expects.

## Main definitions

* `regbufCopy` — the `memcpy` of a step
* `manageClientOn` — the program where nothing stops it at the end of `regbuf`
* `RecordBounds` — all copies stay inside both arrays, and `regbufsize` with them
* `formsOf`, `FormFits` — the lines of the forms of a run, and forms there is room for
* `strings`, `regGetdb` — what the readers of a record find in it
* `CopiesAgree` — both stores hold the same form

## Main results

* `record_bounds` — the copies of a run stay in bounds exactly when every form fits
* `copies_agree_iff` — when the two copies of an acknowledged form agree
-/

namespace Esif.Server

open Esif.CS Esif.Posix

/-! ### The bounds of the copies -/

/-- The `memcpy` of a step of the body loop, when it comes to one: the offset in
`regbuf` it copies to, and the number of bytes. -/
def regbufCopy (s : Session) (t : Turn) : Option (ℕ × ℕ) :=
  match s.phase with
  | .body => do
    let (ret, _, m) ← s.readline t.reads
    if ret ≤ 0 ∨ strncmp m.buffer (ascii ".\n") ∨ strncmp m.buffer (ascii "QUIT\n") ∨ !t.ok ∨
        MAXINFOSIZE ≤ m.regbuf.length then none
    else some (m.regbuf.length, ret.toNat + 1)
  | _ => none

/-- The copy of a step stays inside the `MAXINFOSIZE` bytes of `regbuf` and the
`MAXLINE` bytes of `buffer`. -/
def CopyInBounds (s : Session) (t : Turn) : Prop :=
  ∀ offset size, regbufCopy s t = some (offset, size) →
    offset + size ≤ MAXINFOSIZE ∧ size ≤ MAXLINE

instance (s : Session) (t : Turn) : Decidable (CopyInBounds s t) :=
  match h : regbufCopy s t with
  | none => isTrue (by simp [CopyInBounds, h])
  | some (offset, size) =>
    decidable_of_iff (offset + size ≤ MAXINFOSIZE ∧ size ≤ MAXLINE) (by simp [CopyInBounds, h])

/-- A step of the body loop that copies wherever the code does: a copy that has no room is made
all the same, into the memory behind `regbuf`, and `regbufsize` grows by it. -/
def copyLine (s : Session) (t : Turn) : Option (Session × List Event) :=
  match regbufCopy s t with
  | none => readBody s t
  | some (_, size) =>
    (s.readline t.reads).map fun (_, line, m) =>
      ({ m with
          stfile := m.stfile ++ cstr m.buffer
          regbuf := m.regbuf ++ (m.buffer ++ [t.past]).take size },
        [.bodyLine s.linePos line])

/-- `manage_client` where nothing stops a copy at the end of `regbuf`: `regbuf` holds all
`regbufsize` bytes, those that were copied past its end among them. -/
def manageClientOn (env : Env) : Machine Session Turn Event := fun s t =>
  (if s.phase = .body then copyLine (s.wait t) t else act env (s.wait t) t).getD (s.wait t, [])

/-- `regbufsize`, while it is in use: between the `FILENAME` line and the call of
`reg_insertdb`. -/
def RegbufBound (s : Session) : Prop :=
  s.phase = .body ∨ s.phase = .close ∨ s.phase = .insert → s.regbuf.length ≤ MAXINFOSIZE

/-- Every copy of a run stays inside its arrays, `regbufsize` never exceeds `MAXINFOSIZE`, and
neither does the size passed to `reg_insertdb`. -/
structure RecordBounds (env : Env) (s₀ : Session) (ts : List Turn) : Prop where
  copies : ∀ before t after, ts = before ++ t :: after →
    CopyInBounds ((manageClientOn env).run s₀ before).1 t
  regbufsize : ∀ before after, ts = before ++ after →
    RegbufBound ((manageClientOn env).run s₀ before).1
  inserted : ∀ db key data, .put db key data ∈ ((manageClientOn env).run s₀ ts).2 →
    data.length ≤ MAXINFOSIZE

/-! ### The lines of the forms -/

/-- The lines taken up into each form, the newest form in front. The line a form ends with is
not taken up. -/
def takeUp (forms : List (List Bytes)) : Event → List (List Bytes)
  | .openTrunc _ => [] :: forms
  | .bodyLine _ line =>
    match forms with
    | [] => []
    | form :: rest => (form ++ [line]) :: rest
  | .bodyEnd _ =>
    match forms with
    | [] => []
    | form :: rest => form.dropLast :: rest
  | _ => forms

/-- The lines of the forms received in a run. -/
def formsOf (es : List Event) : List (List Bytes) := es.foldl takeUp []

/-- The bytes that are copied for a line: its NUL is one of them, and behind a line
without a newline there is one more. -/
def copiedSize (line : Bytes) : ℕ := line.length + if endsLine line then 1 else 2

/-- The bytes that are copied for the lines of a form. -/
def formSize (form : List Bytes) : ℕ := (form.map copiedSize).sum

/-- Every line of the form ends with its newline within 119 bytes, or has less than 119 bytes and
is the last of the stream, and the lines with a NUL each are `MAXINFOSIZE` bytes at most. -/
def FormFits (form : List Bytes) : Prop :=
  (∀ line ∈ form, copiedSize line ≤ MAXLINE) ∧ formSize form ≤ MAXINFOSIZE

instance : DecidablePred FormFits := fun _ => inferInstanceAs (Decidable (_ ∧ _))

@[simp] theorem formSize_nil : formSize [] = 0 := rfl

@[simp] theorem formSize_concat (form : List Bytes) (line : Bytes) :
    formSize (form ++ [line]) = formSize form + copiedSize line := by
  simp [formSize]

theorem formFits_concat_iff {form : List Bytes} {line : Bytes} :
    FormFits (form ++ [line]) ↔
      FormFits form ∧ formSize form + copiedSize line ≤ MAXINFOSIZE ∧
        copiedSize line ≤ MAXLINE := by
  constructor
  · rintro ⟨hlines, hsize⟩
    obtain ⟨hform, hline⟩ := List.forall_mem_append.mp hlines
    rw [formSize_concat] at hsize
    exact ⟨⟨hform, by omega⟩, hsize, hline line (List.mem_singleton_self line)⟩
  · rintro ⟨⟨hform, -⟩, hsize, hline⟩
    refine ⟨List.forall_mem_append.mpr ⟨hform, fun l hl => ?_⟩, by rwa [formSize_concat]⟩
    rwa [List.mem_singleton.mp hl]

@[simp] theorem formsOf_concat (es : List Event) (e : Event) :
    formsOf (es ++ [e]) = takeUp (formsOf es) e := by
  simp [formsOf]

/-- The event is a mark of the body loop. -/
def Event.IsBodyMark : Event → Prop
  | .bodyLine _ _ => True
  | .bodyEnd _ => True
  | _ => False

/-- Outside the body loop no line is taken up. -/
theorem formsOf_append_of_quiet (es : List Event) {new : List Event}
    (h : ∀ e ∈ new, ¬ e.IsBodyMark) :
    ∃ n, formsOf (es ++ new) = List.replicate n [] ++ formsOf es := by
  induction new using List.reverseRecOn with
  | nil => exact ⟨0, by simp⟩
  | append_singleton new e ih =>
    obtain ⟨hnew, he⟩ := List.forall_mem_append.mp h
    obtain ⟨n, hn⟩ := ih hnew
    have hquiet := he e (List.mem_singleton_self e)
    rw [← List.append_assoc, formsOf_concat, hn]
    cases e with
    | openTrunc path => exact ⟨n + 1, rfl⟩
    | bodyLine | bodyEnd => exact absurd trivial hquiet
    | _ => exact ⟨n, rfl⟩

section Bounds

variable {env : Env} {s s' m : Session} {t : Turn} {es : List Event} {ret : ℤ} {line : Bytes}

/-- The size copied, as the line has it. -/
theorem Session.LineRead.copiedSize (h : s.LineRead ret line m) (hret : 0 < ret) :
    ret.toNat + 1 = copiedSize line := by
  rcases h.ret with herr | ⟨hzero, -⟩ | ⟨heq, -⟩
  · omega
  · omega
  · rw [Server.copiedSize]
    split at heq <;> simp_all

/-- As many bytes are copied as `memcpy` is told. -/
theorem Session.LineRead.length_copied (h : s.LineRead ret line m) (hret : 0 < ret)
    (past : UInt8) :
    ((m.buffer ++ [past]).take (ret.toNat + 1)).length = ret.toNat + 1 := by
  rw [h.copiedSize hret, h.buffer_eq hret, Server.copiedSize]
  simp
  split <;> omega


theorem regbufCopy_wait : regbufCopy (s.wait t) t = regbufCopy s t := by
  have hphase : (s.wait t).phase = s.phase := rfl
  unfold regbufCopy
  rw [hphase, readline_wait]
  cases s.readline t.reads <;> rfl

/-- The `memcpy` behind a line that was read. -/
theorem regbufCopy_of_readline (hphase : s.phase = .body)
    (hread : s.readline t.reads = some (ret, line, m)) :
    regbufCopy s t = if ret ≤ 0 ∨ strncmp m.buffer (ascii ".\n") ∨
      strncmp m.buffer (ascii "QUIT\n") ∨ !t.ok ∨ MAXINFOSIZE ≤ s.regbuf.length then none
      else some (s.regbuf.length, copiedSize line) := by
  have hline := Session.readline_cases hread
  have hregbuf : m.regbuf = s.regbuf := by rw [hline.keep]
  simp only [regbufCopy, hphase, hread, Option.bind_eq_bind, Option.bind_some, hregbuf]
  split_ifs with hexit
  · rfl
  · rw [hline.copiedSize (by omega)]

/-- A step of the loop either copies a line, or leaves the loop, with a last line or without. -/
inductive CopyStep (s : Session) (t : Turn) : Session → List Event → Prop
  | copied {line : Bytes} {m : Session} {bs : Bytes}
      (hcopy : regbufCopy s t = some (s.regbuf.length, bs.length))
      (hsize : bs.length = copiedSize line) (hphase : m.phase = .body)
      (hregbuf : m.regbuf = s.regbuf ++ bs) :
      CopyStep s t m [.bodyLine s.linePos line]
  | left {m : Session} {es : List Event} (hnone : regbufCopy s t = none) (hphase : m.phase ≠ .body)
      (hregbuf : m.regbuf = s.regbuf)
      (hes : es = [] ∨ ∃ line stop, es = [.bodyLine s.linePos line, .bodyEnd stop]) :
      CopyStep s t m es

theorem copyLine_step (hphase : s.phase = .body) (h : copyLine s t = some (s', es)) :
    CopyStep s t s' es := by
  cases hread : s.readline t.reads with
  | none => simp [copyLine, regbufCopy, readBody, hphase, hread] at h
  | some r =>
    obtain ⟨ret, line, m⟩ := r
    have hline := Session.readline_cases hread
    have hregbuf : m.regbuf = s.regbuf := by rw [hline.keep]
    have hcopy := regbufCopy_of_readline hphase hread
    unfold copyLine at h
    split_ifs at hcopy with hexit
    · -- the five ways to leave the loop in front of `memcpy`
      simp only [hcopy, readBody, hread, Option.bind_eq_bind, Option.bind_some] at h
      rw [← hregbuf] at hexit
      split_ifs at h with hret hdot hquit hok hfull hfit
      · obtain ⟨rfl, rfl⟩ := Option.some.inj h
        exact .left hcopy (by simp) hregbuf (Or.inl rfl)
      · obtain ⟨rfl, rfl⟩ := Option.some.inj h
        exact .left hcopy (by simp) hregbuf (Or.inr ⟨line, m.linePos, rfl⟩)
      · obtain ⟨rfl, rfl⟩ := Option.some.inj h
        exact .left hcopy (by simp) hregbuf (Or.inr ⟨line, m.linePos, rfl⟩)
      · obtain ⟨rfl, rfl⟩ := Option.some.inj h
        exact .left hcopy (by simp) hregbuf (Or.inr ⟨line, m.linePos, rfl⟩)
      · obtain ⟨rfl, rfl⟩ := Option.some.inj h
        exact .left hcopy (by simp) hregbuf (Or.inr ⟨line, m.linePos, rfl⟩)
      all_goals simp [hret, hdot, hquit, hok, hfull] at hexit
    -- the copy: the line, its NUL and, behind a cut line, one byte more
    · have hret : 0 < ret := by
        by_contra hle
        exact hexit (Or.inl (by omega))
      simp only [hcopy, hread, Option.map_some] at h
      obtain ⟨rfl, rfl⟩ := Option.some.inj h
      have hlen := hline.length_copied hret t.past
      rw [hline.copiedSize hret] at hlen
      refine .copied (by rw [hcopy, hlen]) hlen ?_ (by rw [hregbuf])
      rw [hline.keep]
      exact hphase

/-- Where the copy stays in bounds the step is that of the body loop. -/
theorem copyLine_eq (hphase : s.phase = .body) (hbounds : CopyInBounds s t) :
    copyLine s t = readBody s t := by
  unfold copyLine
  split
  · rfl
  · next offset size hcopy =>
    have hfits := (hbounds offset size hcopy).1
    cases hread : s.readline t.reads with
    | none => simp [readBody, hread]
    | some r =>
      obtain ⟨ret, line, m⟩ := r
      have hline := Session.readline_cases hread
      have hregbuf : m.regbuf = s.regbuf := by rw [hline.keep]
      rw [regbufCopy_of_readline hphase hread] at hcopy
      split_ifs at hcopy with hexit
      obtain ⟨rfl, rfl⟩ := Prod.mk.inj (Option.some.inj hcopy)
      obtain ⟨hret, hdot, hquit, hok, hroom⟩ :
          0 < ret ∧ ¬ strncmp m.buffer (ascii ".\n") ∧ ¬ strncmp m.buffer (ascii "QUIT\n") ∧
            t.ok = true ∧ s.regbuf.length < MAXINFOSIZE := by simpa using hexit
      have hlen := hline.length_copied hret t.past
      rw [hline.copiedSize hret] at hlen
      simp only [readBody, hread, Option.bind_eq_bind, Option.bind_some, Option.map_some]
      rw [if_neg (by omega), if_neg hdot, if_neg hquit, if_neg (by simp [hok]),
        if_neg (by rw [hregbuf]; omega), hline.copiedSize hret,
        if_neg (by rw [hregbuf, hlen]; omega)]

/-! ### Runs -/

/-- A step outside the body loop makes no mark of it, and puts `regbuf` at one place. -/
theorem Acted.outside (hbody : s.phase ≠ .body) (h : Acted env s t s' es) :
    ∀ e ∈ es, ¬ e.IsBodyMark ∧
      ∀ db key data, e = .put db key data → s.phase = .insert ∧ data = s.regbuf := by
  have hreply : ∀ {es : List Event}, (∀ e ∈ es, e.IsReply) → ∀ e ∈ es, ¬ e.IsBodyMark ∧
      ∀ db key data, e = .put db key data → s.phase = .insert ∧ data = s.regbuf := by
    intro es hes e he
    obtain ⟨sent, rfl⟩ := hes e he
    simp [Event.IsBodyMark]
  cases h with
  | magic _ hstep =>
    rcases readMagic_cases hstep with href | ⟨conn, errno, buffer, -, -, -, rfl⟩
    · exact hreply href.2
    · simp [Event.IsBodyMark]
  | user _ hstep =>
    rcases readUser_cases hstep with
      href | ⟨line, passbuf, conn, errno, buffer, -, -, -, -, -, -, rfl⟩
    · exact hreply href.2
    · simp [Event.IsBodyMark]
  | pass _ hstep =>
    rcases readPass_cases hstep with href | ⟨conn, errno, buffer, -, -, -, rfl⟩
    · exact hreply href.2
    · simp [Event.IsBodyMark]
  | setup _ hstep =>
    obtain ⟨buffer, phase, -, -, rfl | rfl⟩ := openStores_cases hstep
    · simp [Event.IsBodyMark]
    · simp [Event.IsBodyMark]
  | command _ hstep =>
    cases hstep with
    | leave _ hes => rcases hes with rfl | ⟨-, rfl⟩ <;> simp [Event.IsBodyMark]
    | refused | unnamed | overlong | image | misnamed | closed | form => simp [Event.IsBodyMark]
  | body hphase => exact absurd hphase hbody
  | payload _ hstep => cases hstep <;> simp [Event.IsBodyMark]
  | image _ hstep =>
    rcases openImage_cases hstep with ⟨-, -, rfl⟩ | ⟨-, -, rfl⟩ <;> simp [Event.IsBodyMark]
  | imageReply _ hstep =>
    obtain ⟨errno, sent, -, rfl⟩ := replyImage_cases hstep
    simp [Event.IsBodyMark]
  | close _ hstep =>
    obtain ⟨errno, -, rfl⟩ := closeForm_cases hstep
    simp [Event.IsBodyMark]
  -- the only call of `reg_insertdb`
  | insert hphase hstep =>
    obtain ⟨-, ⟨-, rfl⟩ | ⟨-, rfl⟩⟩ := insertForm_cases hstep
    · simp [Event.IsBodyMark, hphase]
    · simp
  | reply _ hstep =>
    obtain ⟨errno, buffer, ⟨sent, -, rfl⟩ | ⟨-, rfl⟩⟩ := replyForm_cases hstep <;>
      simp [Event.IsBodyMark]
  | abandon _ hstep =>
    obtain ⟨errno, -, rfl⟩ := abandonForm_cases hstep
    simp [Event.IsBodyMark]

/-- A record is put at one place, and it is `regbuf`. -/
theorem Acted.put (h : Acted env s t s' es) {db key data : Bytes} (hput : .put db key data ∈ es) :
    s.phase = .insert ∧ data = s.regbuf := by
  by_cases hbody : s.phase = .body
  · cases h with
    | body _ hstep => cases hstep <;> simp at hput
    | magic hphase | user hphase | pass hphase | setup hphase | command hphase | image hphase
    | payload hphase | imageReply hphase | close hphase | insert hphase | reply hphase
    | abandon hphase => simp [hbody] at hphase
  · exact (h.outside hbody _ hput).2 db key data rfl

/-- While `regbufsize` is in use, it is the size of the newest form. -/
def Filling (s : Session) (es : List Event) : Prop :=
  s.phase = .body ∨ s.phase = .close ∨ s.phase = .insert →
    ∃ form rest, formsOf es = form :: rest ∧ s.regbuf.length = formSize form

/-- Every form fits, and so does every record put. -/
def AllFit (es : List Event) : Prop := ∀ form ∈ formsOf es, FormFits form

theorem allFit_append_of_quiet (es : List Event) {new : List Event}
    (h : ∀ e ∈ new, ¬ e.IsBodyMark) : AllFit (es ++ new) ↔ AllFit es := by
  obtain ⟨n, hn⟩ := formsOf_append_of_quiet es h
  have hnil : FormFits [] := by decide
  simp only [AllFit, hn, List.forall_mem_append]
  exact and_iff_right fun form hform => (List.eq_of_mem_replicate hform) ▸ hnil

theorem CopyInBounds.of_none (h : regbufCopy s t = none) : CopyInBounds s t := by
  intro offset size hcopy
  rw [h] at hcopy
  cases hcopy

theorem regbufCopy_of_ne (hbody : s.phase ≠ .body) : regbufCopy s t = none := by
  unfold regbufCopy
  split
  · next hphase => exact absurd hphase hbody
  · rfl

/-- A loop that waits for its line copies nothing. -/
theorem regbufCopy_of_wait (h : copyLine s t = none) : regbufCopy s t = none := by
  cases hcopy : regbufCopy s t with
  | none => rfl
  | some copy =>
    have hread : s.readline t.reads = none := by simpa [copyLine, hcopy] using h
    unfold regbufCopy at hcopy
    split at hcopy
    · simp [hread] at hcopy
    · cases hcopy

/-- A step waits, is one of the loop over the lines, or is one of `manage_client`. -/
theorem manageClientOn_cases (env : Env) (s : Session) (t : Turn) :
    (manageClientOn env s t = (s.wait t, []) ∧ regbufCopy s t = none) ∨
      (s.phase = .body ∧
        CopyStep (s.wait t) t (manageClientOn env s t).1 (manageClientOn env s t).2) ∨
      (s.wait t).phase ≠ .body ∧
        Acted env (s.wait t) t (manageClientOn env s t).1 (manageClientOn env s t).2 := by
  unfold manageClientOn
  by_cases hbody : s.phase = .body
  · rw [if_pos hbody]
    cases h : copyLine (s.wait t) t with
    | none => exact Or.inl ⟨rfl, regbufCopy_wait.symm.trans (regbufCopy_of_wait h)⟩
    | some r => exact Or.inr (Or.inl ⟨hbody, copyLine_step hbody h⟩)
  · rw [if_neg hbody]
    cases h : act env (s.wait t) t with
    | none => exact Or.inl ⟨rfl, regbufCopy_of_ne hbody⟩
    | some r => exact Or.inr (Or.inr ⟨hbody, act_cases h⟩)

/-- What a step outside the loop leaves in use of `regbuf` is that of the newest form. -/
theorem Filling.outside {new : List Event} (hfill : Filling s es) (hbody : s.phase ≠ .body)
    (h : Acted env s t s' new) : Filling s' (es ++ new) := by
  intro hphase'
  have hnext := h.next
  rcases hphase' with hphase' | hphase' | hphase'
  · obtain hphase := (Phase.next_body (hphase' ▸ hnext)).resolve_right hbody
    -- the file of a form is opened: no line is taken up yet
    cases h with
    | command _ hstep =>
      cases hstep with
      | @form ret line => exact ⟨[], formsOf (es ++ [.command s.linePos line]), by simp [formsOf,
          takeUp], rfl⟩
      | leave | refused | unnamed | overlong | image | misnamed | closed =>
        simp_all [Session.finish]
    | _ => simp_all
  · exact absurd (Phase.next_close (hphase' ▸ hnext)) hbody
  · have hphase := Phase.next_insert (hphase' ▸ hnext)
    obtain ⟨form, rest, hforms, hsize⟩ := hfill (Or.inr (Or.inl hphase))
    cases h with
    | close _ hstep =>
      obtain ⟨errno, rfl, rfl⟩ := closeForm_cases hstep
      exact ⟨form, rest, by rw [formsOf_concat, hforms]; rfl, hsize⟩
    | _ => simp_all

/-- One step fits what it copies to the form, or the form does not fit behind it. -/
theorem filling_step (env : Env) {s : Session} (t : Turn) {es : List Event} (h : Filling s es) :
    Filling (manageClientOn env s t).1 (es ++ (manageClientOn env s t).2) ∧
      (AllFit (es ++ (manageClientOn env s t).2) ↔ AllFit es ∧ CopyInBounds s t) := by
  have hwait : Filling (s.wait t) es := h
  rcases manageClientOn_cases env s t with ⟨heq, hnone⟩ | ⟨hbody, hstep⟩ | ⟨hbody, hact⟩
  · rw [heq, List.append_nil]
    exact ⟨hwait, (and_iff_left (.of_none hnone)).symm⟩
  · obtain ⟨form, rest, hforms, hsize⟩ := hwait (Or.inl hbody)
    generalize manageClientOn env s t = r at hstep ⊢
    obtain ⟨s', new⟩ := r
    cases hstep with
    | @copied line _ bs hcopy hlen hphase hregbuf =>
      rw [regbufCopy_wait] at hcopy
      have hnew :
          formsOf (es ++ [.bodyLine (s.wait t).linePos line]) = (form ++ [line]) :: rest := by
        rw [formsOf_concat, hforms]
        rfl
      refine ⟨fun _ => ⟨form ++ [line], rest, hnew, ?_⟩, ?_⟩
      · rw [hregbuf, List.length_append, hsize, hlen, formSize_concat]
      · have hbounds : CopyInBounds s t ↔
            formSize form + copiedSize line ≤ MAXINFOSIZE ∧ copiedSize line ≤ MAXLINE := by
          simp only [CopyInBounds, hcopy, Option.some.injEq, Prod.mk.injEq, and_imp]
          rw [← hlen, ← hsize]
          exact ⟨fun h => h _ _ rfl rfl, by rintro h _ _ rfl rfl; exact h⟩
        simp only [AllFit, hnew, hforms, List.forall_mem_cons, formFits_concat_iff, hbounds]
        tauto
    | left hnone hphase hregbuf hes =>
      rw [regbufCopy_wait] at hnone
      -- the last line is taken back
      have hnew : formsOf (es ++ new) = formsOf es := by
        rcases hes with rfl | ⟨line, stop, rfl⟩
        · rw [List.append_nil]
        · rw [List.append_cons, formsOf_concat, formsOf_concat, hforms]
          simp [takeUp]
      refine ⟨fun _ => ⟨form, rest, hnew.trans hforms, by rw [hregbuf, hsize]⟩, ?_⟩
      rw [AllFit, hnew]
      exact (and_iff_left (.of_none hnone)).symm
  · exact ⟨hwait.outside hbody hact,
      (allFit_append_of_quiet es fun e he => (hact.outside hbody e he).1).trans
        (and_iff_left (.of_none (regbufCopy_of_ne hbody))).symm⟩

theorem filling_init (stream : Bytes) (eof : Bool) (clock : ℤ) (user tmpname : Bytes) :
    Filling (Session.init stream eof clock user tmpname) [] := by
  simp [Filling, Session.init]

/-- The forms of a run fit when all copies of it do. -/
theorem filling_run (env : Env) {s₀ : Session} (h : Filling s₀ []) (ts : List Turn) :
    Filling ((manageClientOn env).run s₀ ts).1 ((manageClientOn env).run s₀ ts).2 ∧
      (AllFit ((manageClientOn env).run s₀ ts).2 ↔
        (manageClientOn env).Meets CopyInBounds s₀ ts) := by
  induction ts using List.reverseRecOn with
  | nil => exact ⟨h, by simp [AllFit, formsOf]⟩
  | append_singleton ts t ih =>
    obtain ⟨hfill, hfits⟩ := ih
    obtain ⟨hfill', hfits'⟩ := filling_step env t hfill
    rw [Machine.run_append, Machine.meets_append]
    simp only [Machine.run_cons_fst, Machine.run_nil, Machine.run_cons_snd, List.append_nil,
      Machine.meets_cons, Machine.meets_nil, and_true]
    exact ⟨hfill', hfits'.trans (and_congr_left' hfits)⟩

theorem Filling.regbufBound (hfill : Filling s es) (hfits : AllFit es) : RegbufBound s := by
  intro hphase
  obtain ⟨form, rest, hforms, hsize⟩ := hfill hphase
  rw [hsize]
  exact (hfits form (by rw [hforms]; exact List.mem_cons_self)).2

/-- What a step inserts is `regbuf`. -/
theorem inserted_step (hbound : RegbufBound s) {db key data : Bytes}
    (h : .put db key data ∈ (manageClientOn env s t).2) : data.length ≤ MAXINFOSIZE := by
  rcases manageClientOn_cases env s t with ⟨heq, -⟩ | ⟨-, hstep⟩ | ⟨hbody, hact⟩
  · simp [heq] at h
  · generalize (manageClientOn env s t).2 = new at h hstep
    cases hstep with
    | copied => simp at h
    | left _ _ _ hes => rcases hes with rfl | ⟨line, stop, rfl⟩ <;> simp at h
  · obtain ⟨hphase, rfl⟩ := (hact.outside hbody _ h).2 db key data rfl
    exact hbound (Or.inr (Or.inr hphase))

theorem inserted_run (env : Env) {s₀ : Session} (h : Filling s₀ []) {ts : List Turn}
    (hmeets : (manageClientOn env).Meets CopyInBounds s₀ ts) :
    ∀ db key data, .put db key data ∈ ((manageClientOn env).run s₀ ts).2 →
      data.length ≤ MAXINFOSIZE := by
  induction ts using List.reverseRecOn with
  | nil => simp
  | append_singleton ts t ih =>
    obtain ⟨hbefore, -⟩ := Machine.meets_append.mp hmeets
    obtain ⟨hfill, hfits⟩ := filling_run env h ts
    intro db key data hmem
    rw [Machine.run_append_snd] at hmem
    rcases List.mem_append.mp hmem with hmem | hmem
    · exact ih hbefore db key data hmem
    · exact inserted_step (hfill.regbufBound (hfits.mpr hbefore)) (by simpa using hmem)

/-- While the copies stay in bounds the two programs are one. -/
theorem manageClientOn_eq (env : Env) (hbounds : CopyInBounds s t) :
    manageClientOn env s t = manageClient env s t := by
  unfold manageClientOn manageClient
  by_cases hbody : s.phase = .body
  · have hwait : CopyInBounds (s.wait t) t := by rwa [CopyInBounds, regbufCopy_wait]
    have hphase : (s.wait t).phase = .body := hbody
    have hact : act env (s.wait t) t = readBody (s.wait t) t := by simp only [act, hphase]
    rw [if_pos hbody, copyLine_eq hphase hwait, hact]
  · rw [if_neg hbody]

theorem manageClientOn_run (env : Env) {s₀ : Session} {ts : List Turn}
    (hmeets : (manageClientOn env).Meets CopyInBounds s₀ ts) :
    (manageClientOn env).run s₀ ts = (manageClient env).run s₀ ts := by
  induction ts generalizing s₀ with
  | nil => rfl
  | cons t ts ih =>
    obtain ⟨hbounds, hrest⟩ := hmeets
    have hstep := manageClientOn_eq env hbounds
    have hrun := ih hrest
    rw [Machine.run, Machine.run, hrun, hstep]

/-- **The bounds of the record.** In every run of a session every copy into `regbuf` stays
inside its bytes and reads only those of `buffer`, `regbufsize` never exceeds `MAXINFOSIZE` and
neither does the size of a record put, exactly when every form received fits: each of its lines
ends with its newline within 119 bytes, or has less than 119 bytes at the end of the stream, and
the lines with their NULs add up to at most 1024 bytes. -/
theorem record_bounds (env : Env) (stream : Bytes) (eof : Bool) (clock : ℤ) (user tmpname : Bytes)
    (ts : List Turn) :
    let s₀ := Session.init stream eof clock user tmpname
    (RecordBounds env s₀ ts ↔
      ∀ form ∈ formsOf ((manageClientOn env).run s₀ ts).2, FormFits form) ∧
    (RecordBounds env s₀ ts → (manageClientOn env).run s₀ ts = (manageClient env).run s₀ ts) := by
  intro s₀
  have hstart := filling_init stream eof clock user tmpname
  have hmeets : RecordBounds env s₀ ts → (manageClientOn env).Meets CopyInBounds s₀ ts :=
    fun h => Machine.meets_iff_forall.mpr h.copies
  refine ⟨⟨fun h => ?_, fun hfits => ?_⟩, fun h => manageClientOn_run env (hmeets h)⟩
  · exact (filling_run env hstart ts).2.mpr (hmeets h)
  · have hall := (filling_run env hstart ts).2.mp hfits
    refine ⟨Machine.meets_iff_forall.mp hall, ?_, inserted_run env hstart hall⟩
    rintro before after rfl
    obtain ⟨hfill, hbefore⟩ := filling_run env hstart before
    exact hfill.regbufBound (hbefore.mpr (Machine.meets_append.mp hall).1)

/-- A form with a line of 119 bytes that goes on. -/
def sampleOverlong : Bytes :=
  sampleLogin ++ ascii "FILENAME M_0001_A_0001_0.txt\n" ++ List.replicate 125 97 ++ [newline] ++
    ascii ".\n"

/-- A form of nine lines of 119 bytes. -/
def sampleLong : Bytes :=
  sampleLogin ++ ascii "FILENAME M_0001_A_0001_0.txt\n" ++
    (List.replicate 9 (List.replicate 118 97 ++ [newline])).flatten ++ ascii ".\n"

/-- `memcpy` reads the byte behind `buffer`; and the last of nine lines is copied past the end of
`regbuf`, and a record of 1080 bytes inserted. -/
theorem record_bounds_sample :
    ¬ RecordBounds sampleEnv (Session.init sampleOverlong true 1120000000 [] [])
        (List.replicate 6 sampleTurn) ∧
      ¬ RecordBounds sampleEnv (Session.init sampleLong true 1120000000 [] [])
        (List.replicate 17 sampleTurn) ∧
      (((manageClientOn sampleEnv).run (Session.init sampleLong true 1120000000 [] [])
        (List.replicate 17 sampleTurn)).2.filterMap fun
          | .put _ _ data => some data.length
          | _ => none) = [1080] := by
  refine ⟨fun h => ?_, fun h => ?_, by decide +kernel⟩
  · have hsize := h.copies (List.replicate 5 sampleTurn) sampleTurn [] rfl 0 121
      (by decide +kernel)
    exact absurd hsize.2 (by decide)
  · have hsize := h.copies (List.replicate 13 sampleTurn) sampleTurn
      (List.replicate 3 sampleTurn) rfl 960 120 (by decide +kernel)
    exact absurd hsize.1 (by decide)

end Bounds

/-! ### The two copies of a form -/

/-- The strings that `showdata` walks over in a record: one up to each NUL. -/
def strings : Bytes → List Bytes
  | [] => []
  | b :: bs =>
    if b = nul then [] :: strings bs
    else match strings bs with
      | [] => [[b]]
      | string :: rest => (b :: string) :: rest

/-- The lines of a form, as `reg_getdb` has it. -/
def TXTLINES : ℕ := 39

/-- The loop of `reg_getdb`: `n` strings are copied, whatever the record holds. Behind its last NUL
`strlen` leaves the record, and nothing is known of what it finds. -/
def getStrings : ℕ → Bytes → Option (List Bytes)
  | 0, _ => some []
  | n + 1, temp =>
    match temp.dropWhile (· ≠ nul) with
    | [] => none
    | _ :: rest => (getStrings n rest).map (cstr temp :: ·)

/-- `reg_getdb`: what `buf` holds for a record. -/
def regGetdb (record : Bytes) : Option (List Bytes) := getStrings TXTLINES record

/-- The record of some lines: each with one NUL behind it. -/
def recordOf (lines : List Bytes) : Bytes := (lines.map (· ++ [nul])).flatten

theorem strings_append_nul {line : Bytes} (hline : nul ∉ line) (rest : Bytes) :
    strings (line ++ nul :: rest) = line :: strings rest := by
  induction line with
  | nil => simp [strings]
  | cons b line ih =>
    obtain ⟨hb, hline⟩ : nul ≠ b ∧ nul ∉ line := by simpa using hline
    simp [strings, Ne.symm hb, ih hline]

/-- A record of lines without a NUL is split into these lines. -/
theorem strings_recordOf {lines : List Bytes} (h : ∀ line ∈ lines, nul ∉ line) :
    strings (recordOf lines) = lines := by
  induction lines with
  | nil => rfl
  | cons line lines ih =>
    have hrest := ih fun l hl => h l (by simp [hl])
    have hhead := strings_append_nul (h line (by simp)) (recordOf lines)
    simp only [recordOf, List.map_cons, List.flatten_cons, List.append_assoc,
      List.singleton_append] at hhead hrest ⊢
    rw [hhead, hrest]

theorem getStrings_recordOf {lines : List Bytes} (h : ∀ line ∈ lines, nul ∉ line) (n : ℕ) :
    getStrings n (recordOf lines) = if n ≤ lines.length then some (lines.take n) else none := by
  induction lines generalizing n with
  | nil =>
    cases n with
    | zero => rfl
    | succ n => simp [getStrings, recordOf]
  | cons line lines ih =>
    cases n with
    | zero => rfl
    | succ n =>
      obtain ⟨hline, hlines⟩ := List.forall_mem_cons.mp h
      have hhead : recordOf (line :: lines) = line ++ nul :: recordOf lines := by
        simp [recordOf]
      have hall : ∀ b ∈ line, decide (b ≠ nul) = true := fun b hb =>
        decide_eq_true fun heq => hline (heq ▸ hb)
      have hdrop : (line ++ nul :: recordOf lines).dropWhile (· ≠ nul) =
          nul :: recordOf lines := by
        rw [List.dropWhile_append_of_pos hall, List.dropWhile_cons_of_neg (by simp)]
      rw [getStrings, hhead, hdrop]
      simp only [ih hlines n, cstr_append_nul, cstr_eq_self hline, List.length_cons,
        Nat.add_le_add_iff_right, List.take_succ_cons]
      split_ifs <;> rfl

/-- `reg_getdb` finds the lines of a form when there are as many as it expects. -/
theorem regGetdb_recordOf_iff {lines : List Bytes} (h : ∀ line ∈ lines, nul ∉ line) :
    regGetdb (recordOf lines) = some lines ↔ lines.length = TXTLINES := by
  rw [regGetdb, getStrings_recordOf h]
  constructor
  · intro heq
    split_ifs at heq with hle
    have hlen := congrArg List.length (Option.some.inj heq)
    rw [List.length_take] at hlen
    omega
  · intro heq
    rw [if_pos heq.ge, ← heq, List.take_length]

@[simp] theorem recordOf_concat_length (lines : List Bytes) (line : Bytes) :
    (recordOf (lines ++ [line])).length = (recordOf lines).length + (line.length + 1) := by
  simp [recordOf]

/-- What the body loop builds is at least as long as the record of the lines, and as
long only when no line was cut. -/
theorem RecordOf.length_le {lines : List Bytes} {record : Bytes} (h : RecordOf lines record) :
    (recordOf lines).length ≤ record.length ∧
      (record.length = (recordOf lines).length → ∀ line ∈ lines, endsLine line = true) := by
  induction h with
  | nil => simp [recordOf]
  | whole _ hline ih =>
    obtain ⟨hle, hends⟩ := ih
    simp only [recordOf_concat_length, List.length_append, List.length_singleton]
    refine ⟨by omega, fun heq l hl => ?_⟩
    rcases List.mem_append.mp hl with hl | hl
    · exact hends (by omega) l hl
    · obtain rfl := List.mem_singleton.mp hl
      exact hline
  | cut past _ hline ih =>
    obtain ⟨hle, -⟩ := ih
    simp only [recordOf_concat_length, List.length_append, List.length_cons, List.length_nil]
    exact ⟨by omega, fun heq => by omega⟩

/-- The body loop builds the record of the lines exactly when no line was cut. -/
theorem RecordOf.eq_iff {lines : List Bytes} {record : Bytes} (h : RecordOf lines record) :
    record = Server.recordOf lines ↔ ∀ line ∈ lines, endsLine line = true := by
  refine ⟨fun heq => h.length_le.2 (by rw [heq]), fun hends => ?_⟩
  induction h with
  | nil => rfl
  | @whole lines record line _ hline ih =>
    rw [ih fun l hl => hends l (by simp [hl])]
    simp [Server.recordOf]
  | @cut lines record line past _ hline => simp [hends line (by simp)] at hline

/-- Lines that are whole build their record. -/
theorem recordOf_recordOf {lines : List Bytes} (h : ∀ line ∈ lines, endsLine line = true) :
    RecordOf lines (recordOf lines) := by
  induction lines using List.reverseRecOn with
  | nil => exact .nil
  | append_singleton lines line ih =>
    obtain ⟨hinit, hline⟩ := List.forall_mem_append.mp h
    have hrecord : recordOf (lines ++ [line]) = recordOf lines ++ (line ++ [nul]) := by
      simp [recordOf]
    rw [hrecord]
    exact (ih hinit).whole (hline line (List.mem_singleton_self line))

/-- Both stores hold the form of `lines`: the text file their concatenation, the
database a record in which `showdata` and `reg_getdb` find just these lines. -/
structure CopiesAgree (cwd : Place) (w : World) (s : Session) (lines : List Bytes) : Prop where
  text : w.file (resolve cwd s.filename) = some lines.flatten
  record : w.record (resolve cwd s.regdb) s.regkey = some (recordOf lines)
  split : strings (recordOf lines) = lines
  got : regGetdb (recordOf lines) = some lines

/-- **The two copies.** In every run of a session that acknowledges a form of
`lines`: both stores hold these lines, and the record is split into just them,
exactly when there are 39 lines, none holds a NUL, `fclose` got all of the text
written and `DB->put` stored a record of lines that all end with their newlines, or
failed where the record of the lines was. -/
theorem copies_agree_iff (env : Env) (cwd : Place) (w : World) (stream : Bytes) (eof : Bool)
    (clock : ℤ) (user tmpname : Bytes) (ts : List Turn) (r : Turn) :
    let s₀ := Session.init stream eof clock user tmpname
    let acked := (manageClient env).run s₀ ts
    acked.1.phase = .reply → .send (ebuf SUCCESS) ∈ (manageClient env acked.1 r).2 →
    ∃ before c p lines, FormReplied env s₀ ts before c p lines ∧
      let received := (manageClient env).run s₀ before
      let s := received.1
      (CopiesAgree cwd (w.after cwd (acked.2 ++ (manageClient env acked.1 r).2)) s lines ↔
        lines.length = TXTLINES ∧
        ((c.ok = true ∨ (textOf lines).length ≤ c.kept) ∧ ∀ line ∈ lines, nul ∉ line) ∧
        (p.ok = true ∧ (∀ line ∈ lines, endsLine line = true) ∨
          p.ok = false ∧ (w.after cwd received.2).record (resolve cwd s.regdb) s.regkey =
            some (recordOf lines))) := by
  intro s₀ acked hreply hack
  obtain ⟨before, c, p, lines, hreplied⟩ := @formReplied_of_reply env s₀ rfl ts hreply
  refine ⟨before, c, p, lines, hreplied, ?_⟩
  obtain ⟨es₀, marked, start, stop, rfl, hbefore⟩ := hreplied.received
  have hquiet : ∀ e ∈ (manageClient env acked.1 r).2, e.IsReply := manageClient_of_reply hreply
  obtain ⟨hfile, hrecord⟩ :=
    @world_of_acked cwd w _ _ _ _ _ _ _ _ _ _ hreplied.since hbefore hquiet
  -- the record built is the record of the lines when every line ends with its newline
  have hbuilt := hreplied.collected.record.eq_iff
  intro received s
  constructor
  · rintro ⟨htext, hput, -, hgot⟩
    rw [hfile] at htext
    rw [hrecord] at hput
    have hwritten := (flushed_eq_flatten_iff _ c).mp (Option.some.inj htext)
    refine ⟨(regGetdb_recordOf_iff hwritten.2).mp hgot, hwritten, ?_⟩
    cases hok : p.ok with
    | true => exact Or.inl ⟨rfl, hbuilt.mp (by simpa [hok] using hput)⟩
    -- `DB->put` failed: the record is the one that was there
    | false => exact Or.inr ⟨rfl, by simpa [hok] using hput⟩
  · rintro ⟨hlen, hwritten, hput⟩
    refine ⟨?_, ?_, strings_recordOf hwritten.2, (regGetdb_recordOf_iff hwritten.2).mpr hlen⟩
    · rw [hfile, (flushed_eq_flatten_iff _ c).mpr hwritten]
    · rw [hrecord]
      rcases hput with ⟨hok, hends⟩ | ⟨hok, hbefore⟩
      · rw [hok, if_pos rfl, hbuilt.mpr hends]
      · rw [hok, if_neg (by decide), hbefore]

/-- A college sends one form of 39 lines. -/
def sampleForm : Bytes :=
  sampleLogin ++ ascii "FILENAME M_0001_A_0001_0.txt\n" ++
    (List.replicate 39 (ascii "ab\n")).flatten ++ ascii ".\n"

theorem copies_agree_iff_sample :
    let s₀ := Session.init sampleForm true 1120000000 [] []
    let acked := (manageClient sampleEnv).run s₀ (List.replicate 47 sampleTurn)
    ∃ before c p lines, FormReplied sampleEnv s₀ (List.replicate 47 sampleTurn) before c p lines ∧
      let received := (manageClient sampleEnv).run s₀ before
      let s := received.1
      (CopiesAgree []
      (World.empty.after [] (acked.2 ++ (manageClient sampleEnv acked.1 sampleTurn).2))
          s lines ↔
        lines.length = TXTLINES ∧
        ((c.ok = true ∨ (textOf lines).length ≤ c.kept) ∧ ∀ line ∈ lines, nul ∉ line) ∧
        (p.ok = true ∧ (∀ line ∈ lines, endsLine line = true) ∨
          p.ok = false ∧ (World.empty.after [] received.2).record (resolve [] s.regdb) s.regkey =
            some (recordOf lines))) :=
  copies_agree_iff sampleEnv [] World.empty sampleForm true 1120000000 [] [] _ sampleTurn
    (by decide +kernel) (by decide +kernel)

/-- A form with a NUL in its line: the text file holds a part of the line, the record
is split in two. -/
def sampleNul : Bytes :=
  sampleLogin ++ ascii "FILENAME M_0001_A_0001_0.txt\n" ++ [97, nul, 98, newline] ++ ascii ".\n"

theorem copies_disagree_sample :
    let s₀ := Session.init sampleNul true 1120000000 [] []
    let acked := (manageClient sampleEnv).run s₀ (List.replicate 9 sampleTurn)
    let w := World.empty.after [] (acked.2 ++ (manageClient sampleEnv acked.1 sampleTurn).2)
    acked.1.phase = .reply ∧
      .send (ebuf SUCCESS) ∈ (manageClient sampleEnv acked.1 sampleTurn).2 ∧
      w.file (resolve [] acked.1.filename) = some [97] ∧
      (w.record (resolve [] acked.1.regdb) acked.1.regkey).map strings =
        some [[97], [98, newline]] := by
  decide +kernel

end Esif.Server
