import Esif.Client.Process

/-!
# What a step of `apply_forms` changes in the directory

The flag of a form is set in one place, behind the reply `500`.

## Main definitions

* `ApplyPlace.form` — the form in hand

## Main results

* `act_keeps` — elsewhere the files stay as they are
* `readFormReply_marks` — what is set behind a reply
* `act_waiting` — without a reply nothing is set
* `Silent.sends` — a silent client sends at most `QUIT`
-/

namespace Esif.Client

open Esif.CS Esif.Posix

/-- The path of the form that `apply_form` has in hand. -/
def ApplyPlace.form : ApplyPlace → Option Bytes
  | .named path => some path
  | .body path _ _ => some path
  | .reply path _ => some path
  | _ => none

/-- The client is about to read the reply to a form. -/
def ApplyPlace.IsReply (place : ApplyPlace) : Prop := ∃ path photo, place = .reply path photo

namespace Apply

section Steps

variable {opts : Options} {a a' : Apply} {t : Turn} {sent : List Sent} {path photo : Bytes}

theorem send_keeps {bs : Bytes} {label : Bytes → Sent} {writes : List Outcome}
    {written failed : ApplyPlace} (h : a.send bs label writes written failed = some (a', sent)) :
    a'.disk = a.disk ∧ a'.names = a.names ∧ (a'.place = written ∨ a'.place = failed) := by
  obtain ⟨⟨full, got, wire⟩, -, heq⟩ := Option.map_eq_some_iff.mp h
  obtain ⟨rfl, rfl⟩ := Prod.mk.inj heq
  refine ⟨rfl, rfl, ?_⟩
  cases full with
  | true => exact Or.inl rfl
  | false => exact Or.inr rfl

theorem sendLine_keeps {content : Bytes}
    (h : a.sendLine opts path content photo t = some (a', sent)) :
    a'.disk = a.disk ∧ a'.names = a.names ∧ ∀ form, a'.place.form = some form → form = path := by
  have hsend : ∀ {bs written}, a.send bs .data t.writes written .next = some (a', sent) →
      (∀ form, written.form = some form → form = path) →
      a'.disk = a.disk ∧ a'.names = a.names ∧ ∀ form, a'.place.form = some form → form = path := by
    intro bs written h hform
    obtain ⟨hdisk, hnames, hplace⟩ := send_keeps h
    refine ⟨hdisk, hnames, ?_⟩
    rcases hplace with hplace | hplace
    · rw [hplace]
      exact hform
    · simp [hplace, ApplyPlace.form]
  unfold sendLine at h
  split_ifs at h
  · exact hsend h (by simp [ApplyPlace.form])
  · obtain ⟨-, rfl | ⟨-, rfl⟩⟩ := afterForm_cases (Option.some.inj h)
    · exact ⟨rfl, rfl, by simp [ApplyPlace.form]⟩
    · exact ⟨rfl, rfl, by simp [ApplyPlace.form]⟩
  · exact hsend h (by simp [ApplyPlace.form])

/-- Away from a reply, a step changes no file, and takes names off the directory. -/
theorem act_keeps (hplace : ¬ a.place.IsReply) (h : a.act opts t = some (a', sent)) :
    a'.disk = a.disk ∧ a'.names <:+ a.names := by
  have hgoto : ∀ {place}, a.goto place = (a', sent) → a'.disk = a.disk ∧ a'.names <:+ a.names := by
    intro place h
    obtain ⟨rfl, -⟩ := Prod.mk.inj h
    exact ⟨rfl, List.suffix_rfl⟩
  cases hat : a.place with
  | start =>
    simp only [act, hat] at h
    exact hgoto (Option.some.inj h)
  | next =>
    simp only [act, hat] at h
    -- an entry is skipped, or announced
    rcases nextFile_cases h with ⟨-, -, -, -, -, hdisk, hnames⟩ |
      ⟨name, names, content, flag, hnames, -, -, -, hsend⟩
    · exact ⟨hdisk, hnames⟩
    · obtain ⟨hdisk, hsame, -⟩ := send_keeps hsend
      refine ⟨hdisk, ?_⟩
      rw [hsame, hnames]
      exact List.suffix_cons name names
  | named path =>
    simp only [act, hat, openForm, Option.some.injEq] at h
    split_ifs at h
    · exact hgoto h
    · split at h
      · obtain ⟨rfl, -⟩ := Prod.mk.inj h
        exact ⟨rfl, List.suffix_rfl⟩
      · obtain ⟨rfl, -⟩ := Prod.mk.inj h
        exact ⟨rfl, List.suffix_rfl⟩
  | body path content photo =>
    simp only [act, hat] at h
    obtain ⟨hdisk, hnames, -⟩ := sendLine_keeps h
    exact ⟨hdisk, hnames ▸ List.suffix_rfl⟩
  | reply path photo => exact absurd ⟨path, photo, hat⟩ hplace
  | photo path =>
    simp only [act, hat, openPhoto] at h
    split at h
    · exact hgoto (Option.some.inj h)
    · split at h
      · exact hgoto (Option.some.inj h)
      · obtain ⟨hdisk, hnames, -⟩ := send_keeps h
        exact ⟨hdisk, hnames ▸ List.suffix_rfl⟩
  | photoReply data =>
    simp only [act, hat] at h
    obtain ⟨-, wire, place, rfl⟩ := readPhotoReply_cases h
    exact ⟨rfl, List.suffix_rfl⟩
  | payload data =>
    simp only [act, hat, sendBlock] at h
    split_ifs at h
    · exact hgoto (Option.some.inj h)
    · split at h
      · cases h
      · obtain ⟨rfl, -⟩ := Prod.mk.inj (Option.some.inj h)
        exact ⟨rfl, List.suffix_rfl⟩
      · obtain ⟨rfl, -⟩ := Prod.mk.inj (Option.some.inj h)
        exact ⟨rfl, List.suffix_rfl⟩
  | photoResult =>
    simp only [act, hat] at h
    obtain ⟨⟨ret, line, wire⟩, -, heq⟩ := Option.map_eq_some_iff.mp h
    obtain ⟨rfl, -⟩ := Prod.mk.inj heq
    exact ⟨rfl, List.suffix_rfl⟩
  | quit =>
    simp only [act, hat] at h
    obtain ⟨hdisk, hnames, -⟩ := send_keeps h
    exact ⟨hdisk, hnames ▸ List.suffix_rfl⟩
  | closed => simp [act, hat] at h
  | fault => simp [act, hat] at h

theorem mark_eq_or_update (h : a.mark path t = .ok a') :
    a' = a ∨ ∃ content content', a.disk path = some content ∧
      markSent content t.garbage = .ok content' ∧
      a' = { a with disk := Function.update a.disk path (some content') } := by
  unfold mark at h
  split at h
  · exact Or.inl (Except.ok.inj h).symm
  · next content hopen =>
    have hdisk : a.disk path = some content := by
      simp only [openFile] at hopen
      split_ifs at hopen
      exact hopen
    cases hmark : markSent content t.garbage with
    | error e => simp [hmark, bind, Except.bind] at h
    | ok content' =>
      right
      exact ⟨content, content', hdisk, hmark,
        by simpa [hmark, bind, Except.bind, pure, Except.pure] using h.symm⟩

/-- The reply is read, and the flag is set behind `500` only. -/
theorem readFormReply_marks (h : a.readFormReply opts path photo t = some (a', sent)) :
    ∃ ret line wire, a.wire.readline RBUFSIZE t.reads = some (ret, line, wire) ∧
      a'.wire = wire ∧ a'.names = a.names ∧
      (a'.disk = a.disk ∨ ascii "500\n" <+: line ∧
        ∃ content content', a.disk path = some content ∧
          markSent content t.garbage = .ok content' ∧
          a'.disk = Function.update a.disk path (some content')) := by
  simp only [readFormReply, Option.bind_eq_bind, Option.bind_eq_some_iff] at h
  obtain ⟨⟨ret, line, wire⟩, hread, h⟩ := h
  refine ⟨ret, line, wire, hread, ?_⟩
  have hafter : ∀ {b : Apply}, b.afterForm opts photo = (a', sent) →
      a'.wire = b.wire ∧ a'.names = b.names ∧ a'.disk = b.disk := by
    intro b h
    obtain ⟨-, rfl | ⟨-, rfl⟩⟩ := afterForm_cases h
    · exact ⟨rfl, rfl, rfl⟩
    · exact ⟨rfl, rfl, rfl⟩
  dsimp only at h
  split_ifs at h with hret hword
  · obtain ⟨rfl, -⟩ := Prod.mk.inj (Option.some.inj h)
    exact ⟨rfl, rfl, Or.inl rfl⟩
  · split at h
    · obtain ⟨rfl, -⟩ := Prod.mk.inj (Option.some.inj h)
      exact ⟨rfl, rfl, Or.inl rfl⟩
    · next marked hmark =>
      obtain ⟨hwire, hnames, hdisk⟩ := hafter (Option.some.inj h)
      have hreply : ascii "500\n" <+: line := List.isPrefixOf_iff_prefix.mp hword
      rcases mark_eq_or_update hmark with rfl | ⟨content, content', hcontent, hset, rfl⟩
      · exact ⟨hwire, hnames, Or.inl hdisk⟩
      · exact ⟨hwire, hnames, Or.inr ⟨hreply, content, content', hcontent, hset, hdisk⟩⟩
  · obtain ⟨hwire, hnames, hdisk⟩ := hafter (Option.some.inj h)
    exact ⟨hwire, hnames, Or.inl hdisk⟩

/-- With no reply at hand nothing is marked, and none comes to hand. -/
theorem act_waiting (hpending : a.wire.pending = []) (h : a.act opts t = some (a', sent)) :
    a'.disk = a.disk ∧ a'.names <:+ a.names ∧ a'.wire.pending = [] := by
  have hnone : a'.wire.pending = [] := by
    obtain ⟨line, hline⟩ := act_takes h
    rw [hpending] at hline
    exact (List.append_eq_nil_iff.mp hline).2
  by_cases hplace : a.place.IsReply
  · obtain ⟨path, photo, hat⟩ := hplace
    simp only [act, hat] at h
    obtain ⟨ret, line, wire, hread, -, hnames, hdisk⟩ := readFormReply_marks h
    have htook := Wire.readline_takes (by decide) hread
    rw [hpending] at htook
    obtain rfl : line = [] := (List.append_eq_nil_iff.mp htook).1
    refine ⟨hdisk.resolve_right fun hmarked => ?_, hnames ▸ List.suffix_rfl, hnone⟩
    exact absurd hmarked.1 (by decide)
  · obtain ⟨hdisk, hnames⟩ := act_keeps hplace h
    exact ⟨hdisk, hnames, hnone⟩

/-- A silent client is not about to read a reply. -/
theorem Silent.not_isReply (h : Silent opts a) : ¬ a.place.IsReply := by
  rintro ⟨path, photo, hat⟩
  cases h with
  | leaving place => simp [hat] at place
  | through place => simp [hat] at place
  | cancelling place => simp [hat] at place

/-- A silent client sends nothing, or `QUIT` when it closes. -/
theorem Silent.sends (hcalm : t.Calm) (h : Silent opts a) (hact : a.act opts t = some (a', sent)) :
    (sent = [] ∧ a'.place ≠ .closed) ∨
      sent = [.data (ascii "QUIT\n")] ∧ a.place ≠ .closed ∧ a'.place = .closed := by
  cases h with
  | leaving place =>
    rcases place with hplace | hplace | hplace
    · simp only [act, hplace] at hact
      obtain ⟨-, hclosed, -, rfl⟩ := send_calm hcalm hact
      exact Or.inr ⟨rfl, by simp [hplace], hclosed⟩
    · simp [act, hplace] at hact
    · simp [act, hplace] at hact
  | through place allSent =>
    simp only [act, place] at hact
    rcases nextFile_cases hact with ⟨rfl, hplace, -⟩ |
      ⟨name, names, content, flag, hnames, hskip, hdisk, hsent, -⟩
    · refine Or.inl ⟨rfl, ?_⟩
      rcases hplace with hplace | hplace | hplace
      · simp [hplace]
      · simp [hplace, place]
      · simp [hplace]
    · rcases allSent name (by simp [hnames]) with hskip' | hall
      · simp [hskip] at hskip'
      · exact absurd (hall content hdisk) hsent
  | cancelling place left cancelled =>
    simp only [act, place, sendLine, if_neg left, cancelled, if_true, Option.some.injEq] at hact
    obtain ⟨rfl, rfl | ⟨-, rfl⟩⟩ := afterForm_cases hact
    · exact Or.inl ⟨rfl, by simp⟩
    · exact Or.inl ⟨rfl, by simp⟩

end Steps

end Apply

end Esif.Client
