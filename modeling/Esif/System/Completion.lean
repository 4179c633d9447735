import Esif.System.Standing

/-!
# A submission comes to its end

On a connection that holds, where no call fails and the user does not cancel, a submission
sends every form of the directory that is not marked, and the photos of these forms, and closes.

## Main results

* `Working.client_step`, `Working.server_step` — one step of either side
* `Working.step` — one move of the submission
* `submission_completes` — the submission ends, and every form is marked and held
-/

namespace Esif.System

open Esif.CS Esif.Posix Esif.Server
open Esif.Client (Apply FILENAMELEN Gathers Marks Options Sent applyForms basename formErr
  photoOf photoReturn)
open Esif.Client.Apply (IsSent WritesBlock binaryLine skipped)

section Steps

variable {e : Errand} {on : Bool} {env : Env} {f : Form} {p : Photo} {a a' : Apply}
  {s s' : Session} {w : World} {t : Turn} {c : Client.Turn} {es : List Event} {sent : List Sent}

/-! ### A step of the client -/

/-- The client goes on, and neither the directory nor its files change. -/
theorem Working.goes (h : Working e on a s w) (hdisk : a'.disk = a.disk)
    (hnames : a'.names = a.names) (hcancelled : a'.cancelled = a.cancelled)
    (hform : ∀ path, a.place.form = some path → a'.place.form = some path)
    (hphoto : on = true → a.place.OfPhoto → a'.place.OfPhoto ∨
      ∀ f, e.Due f → f.name :: a.names <:+ e.names → e.Pictured f w) (bs : Bytes)
    (closed : Bool) (hstage : Standing e on a' (Session.receive bs closed s) w) :
    Working e on a' (Session.receive bs closed s) w where
  names := hnames ▸ h.names
  going := hcancelled.trans h.going
  rest name hname := by
    rw [hdisk]
    exact h.rest name (hnames ▸ hname)
  kept path hpath := by
    rw [hdisk]
    exact h.kept path hpath
  settled f hdue := by
    rw [hnames]
    refine (h.settled f hdue).imp_right fun hcase => hcase.imp (hform f.path) fun hsettled => ?_
    refine ⟨?_, hsettled.holding⟩
    rw [hdisk]
    exact hsettled.marked
  pictured hon f hdue := by
    rcases h.pictured hon f hdue with hawaits | hpictured
    · rcases hawaits with hmem | hhand | ⟨hplace, hlast⟩
      · exact Or.inl (Or.inl (hnames ▸ hmem))
      · exact Or.inl (Or.inr (Or.inl (hform f.path hhand)))
      · rcases hphoto hon hplace with hplace' | hall
        · exact Or.inl (Or.inr (Or.inr ⟨hplace', hnames ▸ hlast⟩))
        · exact Or.inr (hall f hdue hlast)
    · exact Or.inr hpictured
  houses := ⟨h.houses.serving, h.houses.txtdir, h.houses.regdb⟩
  untimed := h.untimed
  stage := hstage

/-- The client takes an entry off the directory: a form that is due is in hand then. -/
theorem Working.takes {name : Bytes} (h : Working e on a s w)
    (hnames : a.names = name :: a'.names) (hdisk : a'.disk = a.disk)
    (hcancelled : a'.cancelled = a.cancelled) (hplace : a.place = .next)
    (hform : ∀ f, e.Due f → f.name = name → a'.place.form = some f.path) (bs : Bytes)
    (closed : Bool) (hstage : Standing e on a' (Session.receive bs closed s) w) :
    Working e on a' (Session.receive bs closed s) w where
  names := by
    have hsuffix : a'.names <:+ a.names := hnames ▸ List.suffix_cons name a'.names
    exact hsuffix.trans h.names
  going := hcancelled.trans h.going
  rest other hother := by
    rw [hdisk]
    exact h.rest other (by simp [hnames, hother])
  kept path hpath := by
    rw [hdisk]
    exact h.kept path hpath
  settled f hdue := by
    rcases h.settled f hdue with hmem | hhand | hsettled
    · rw [hnames] at hmem
      rcases List.mem_cons.mp hmem with hname | hmem
      · exact Or.inr (Or.inl (hform f hdue hname))
      · exact Or.inl hmem
    · simp [hplace, Client.ApplyPlace.form] at hhand
    · refine Or.inr (Or.inr ⟨?_, hsettled.holding⟩)
      rw [hdisk]
      exact hsettled.marked
  pictured hon f hdue := by
    rcases h.pictured hon f hdue with hawaits | hpictured
    · rcases hawaits with hmem | hhand | ⟨hphoto, -⟩
      · rw [hnames] at hmem
        rcases List.mem_cons.mp hmem with hname | hmem
        · exact Or.inl (Or.inr (Or.inl (hform f hdue hname)))
        · exact Or.inl (Or.inl hmem)
      · simp [hplace, Client.ApplyPlace.form] at hhand
      · simp [hplace, Client.ApplyPlace.OfPhoto] at hphoto
    · exact Or.inr hpictured
  houses := ⟨h.houses.serving, h.houses.txtdir, h.houses.regdb⟩
  untimed := h.untimed
  stage := hstage

/-- The file of an entry still to come is as it was. -/
theorem Working.opens {name : Bytes} (h : Working e on a s w) (hok : c.ok = true)
    (hmem : name ∈ a.names) : a.openFile (e.opts.infodirname ++ name) c = e.disk (e.path name) := by
  rw [Apply.openFile, if_pos hok]
  exact h.rest name hmem

theorem Errand.le_weight (e : Errand) (name : Bytes) : 20 ≤ e.weight name := by
  unfold Errand.weight
  omega

section Next

variable (h : Working e on a s w) (client : a.At .next []) (server : s.At .command [])
  (hact : a.nextFile e.opts c = some (a', sent))

include h client server hact

/-- Behind the last entry the client goes on to `QUIT`. -/
theorem Working.quit_step (hnames : a.names = []) :
    let s' := Session.receive (sent.flatMap Sent.bytes) (a'.place == .closed) s
    Working e on a' s' w ∧ e.left (a', s') < e.left (a, s) := by
  intro s'
  rw [Apply.nextFile_end hnames] at hact
  obtain ⟨hpast, hplace, rfl⟩ := past_goto (Option.some.inj hact)
  constructor
  · apply h.goes hpast.disk hpast.names hpast.cancelled
    · simp [client.place, Client.ApplyPlace.form]
    · simp [client.place, Client.ApplyPlace.OfPhoto]
    · exact .leaving (hpast.names.trans hnames) ((client.pending ▸ hpast).at client hplace)
        (at_quiet server (by simp [hplace]))
  · have hleft : e.placeLeft a s = 4 := by simp [Errand.placeLeft, client.place]
    have hleft' : e.placeLeft a' s' = 3 := by simp [Errand.placeLeft, hplace]
    simp only [Errand.left, hpast.names]
    omega

/-- The client announces a form that is due. -/
theorem Working.announce_step {names : List Bytes} (hcalm : c.Calm) (hok : c.ok = true)
    (hdue : e.Due f) (hnames : a.names = f.name :: names) :
    let s' := Session.receive (sent.flatMap Sent.bytes) (a'.place == .closed) s
    Working e on a' s' w ∧ e.left (a', s') < e.left (a, s) := by
  intro s'
  have hmem : f.name ∈ a.names := by simp [hnames]
  obtain ⟨marked, hmarks⟩ := hdue.marks
  have hopen : a.openFile (e.opts.infodirname ++ f.name) c = some f.lines.flatten := by
    rw [h.opens hok hmem, ← hdue.path, hdue.disk]
  have hpath : e.opts.infodirname ++ f.name = f.path := hdue.path.symm
  rw [Apply.nextFile_due hnames hdue.entry.form hopen hmarks.unsent, hpath] at hact
  obtain ⟨hpast, hplace, -, rfl⟩ := Apply.send_calm hcalm hact
  have hform : a'.place.form = some f.path := by simp [hplace, Client.ApplyPlace.form]
  have hdisk : a'.disk f.path = some f.lines.flatten := by
    rw [hpast.disk, ← hdue.disk, hdue.path]
    exact h.rest f.name hmem
  have hserver : s'.At .command (Apply.filenameLine f.name) := by
    simpa [s', Sent.bytes] using at_sent server (by simp [hplace]) (Apply.filenameLine f.name)
  have hnames' : a.names = f.name :: a'.names := hnames.trans (by rw [hpast.names])
  constructor
  · apply h.takes hnames' hpast.disk hpast.cancelled client.place
    · intro g hg hname
      rw [hform, (hdue.same hg hname).1]
    · refine .sending f hdue ?_ (by simp [hplace, Gathers]) ?_
      · have hsuffix : a.names <:+ e.names := h.names
        rwa [hnames'] at hsuffix
      -- the announcement is on its way
      refine .opening [] (f.lines ++ [dot]) rfl (.named rfl ⟨hplace, ?_, ?_⟩) ⟨hdisk, ?_⟩ rfl
        ?_ ?_ ?_ rfl ?_
      · exact hpast.pending.trans client.pending
      · exact hpast.eof.trans client.eof
      · exact hpast.cancelled.trans h.going
      · simpa [s'] using hserver
      · exact congrArg (· ++ f.name) h.houses.txtdir
      · exact h.houses.regdb
      · exact fun herrno => absurd (h.untimed herrno) (by simp [server.phase, Phase.Leaving])
  · have hsize : size e.disk (e.path f.name) = f.lines.flatten.length := by
      rw [← hdue.path, size_eq hdue.disk]
    have hleft : e.placeLeft a s = 4 := by simp [Errand.placeLeft, client.place]
    have hleft' : e.placeLeft a' s' ≤ 14 + 2 * photoSize e.disk (e.path f.name) +
        (f.lines.flatten.length + 3 + (f.lines.flatten.length + 5)) := by
      rw [placeLeft_of_form hform, size_eq hdue.disk, hplace, hdue.path]
      simp only [sendLeft, takeLeft, hserver.phase]
      split_ifs <;> omega
    have hthis : a'.names = names := hpast.names
    simp only [Errand.left, hnames, hthis, hleft, List.map_cons, List.sum_cons, s',
      Errand.weight, hsize] at hleft' ⊢
    omega

/-- The client passes over an entry that is not due. -/
theorem Working.skip_step {name : Bytes} {names : List Bytes} (htidy : e.Tidy) (hok : c.ok = true)
    (hdue : ¬ ∃ f, e.Due f ∧ f.name = name) (hnames : a.names = name :: names) :
    let s' := Session.receive (sent.flatMap Sent.bytes) (a'.place == .closed) s
    Working e on a' s' w ∧ e.left (a', s') < e.left (a, s) := by
  intro s'
  have hmem : name ∈ a.names := by simp [hnames]
  have hskip : skipped name = true ∨ a.openFile (e.opts.infodirname ++ name) c = none ∨
      ∃ content, a.openFile (e.opts.infodirname ++ name) c = some content ∧ IsSent content := by
    rw [h.opens hok hmem]
    by_cases hskipped : skipped name = true
    · exact Or.inl hskipped
    · cases hdisk : e.disk (e.path name) with
      | none => exact Or.inr (Or.inl rfl)
      | some content =>
        have hentry : e.Entry name := ⟨h.names.subset hmem, by simpa using hskipped⟩
        have hsent := (htidy name hentry content hdisk).resolve_right hdue
        exact Or.inr (Or.inr ⟨content, rfl, hsent⟩)
  obtain ⟨buffer, flag, heq⟩ := Apply.nextFile_skip hnames hskip
  rw [heq] at hact
  obtain ⟨ha, rfl⟩ := Prod.mk.inj (Option.some.inj hact)
  have hplace : a'.place = .next := (congrArg Apply.place ha).symm.trans client.place
  have hnames' : names = a'.names := congrArg Apply.names ha
  have hwire : a'.wire = a.wire := (congrArg Apply.wire ha).symm
  constructor
  · apply h.takes (hnames' ▸ hnames) (congrArg Apply.disk ha).symm
      (congrArg Apply.cancelled ha).symm client.place
    · exact fun f hf hname => absurd ⟨f, hf, hname⟩ hdue
    · refine .looking (Or.inr hplace) ⟨rfl, ?_, ?_⟩ (at_quiet server (by simp [hplace]))
      · rw [hwire, client.pending]
      · rw [hwire, client.eof]
  · have hweight := e.le_weight name
    have hleft : e.placeLeft a s = 4 := by simp [Errand.placeLeft, client.place]
    have hleft' : e.placeLeft a' s' = 4 := by simp [Errand.placeLeft, hplace]
    simp only [Errand.left, hnames, hnames', List.map_cons, List.sum_cons]
    omega

/-- The client turns to the next entry. -/
theorem Working.next_step (htidy : e.Tidy) (hcalm : c.Calm) (hok : c.ok = true) :
    let s' := Session.receive (sent.flatMap Sent.bytes) (a'.place == .closed) s
    Working e on a' s' w ∧ e.left (a', s') < e.left (a, s) := by
  cases hnames : a.names with
  | nil => exact h.quit_step client server hact hnames
  | cons name names =>
    by_cases hdue : ∃ f, e.Due f ∧ f.name = name
    · obtain ⟨f, hdue, rfl⟩ := hdue
      exact h.announce_step client server hact hcalm hok hdue hnames
    · exact h.skip_step client server hact htidy hok hdue hnames

end Next

/-- The client sends the form, up to its reply. -/
theorem Working.form_step (hcalm : c.Calm) (hok : c.ok = true) (hcancel : c.cancel = false)
    (h : Working e on a s w) (hdue : e.Due f) (hnames : f.name :: a.names <:+ e.names)
    (hphoto : Gathers f.lines a.place) (hstage : FormStage f e.cwd
      (txtdirOf e.year e.college ++ f.name) (regdbOf e.year e.college) (stem f.name) ⟨a, none⟩ s w)
    (hreply : ¬ a.place.IsReply) (hact : a.act e.opts c = some (a', sent)) :
    let s' := Session.receive (sent.flatMap Sent.bytes) (a'.place == .closed) s
    Working e on a' s' w ∧ e.left (a', s') < e.left (a, s) := by
  intro s'
  obtain ⟨hform, hattends⟩ := hstage.hand
  have herr : formErr e.opts a c = none := by
    cases hstage with
    | opening _ _ _ client attends | reading _ _ _ _ _ _ client attends =>
      obtain ⟨-, -, -, -, -, -, herr, -⟩ := client.step hcalm hok hcancel attends hact
      exact herr
    | closing client | inserting client | replying client => simp [client.act_none hcalm] at hact
    | replied photo client => exact absurd ⟨f.path, photo, client.place⟩ hreply
    | finished _ returned => cases returned
  obtain ⟨hstage', hclient, hserver⟩ := hstage.client_step hcalm hok hcancel rfl hact
  simp only [herr] at hstage' hclient
  obtain ⟨hform', hattends'⟩ := hstage'.hand
  have hsame : a'.names = a.names := Apply.act_form_names hform hact
  have hopen : (a'.place == .closed) = false := by
    apply beq_false_of_ne
    intro hplace
    simp [hplace, Client.ApplyPlace.form] at hform'
  have hs : s' = Session.receive (sent.flatMap Sent.bytes) false s := by simp [s', hopen]
  rw [hs]
  constructor
  · apply h.goes (Apply.act_keeps hreply hact).1 hsame (hattends'.going.trans h.going.symm)
    · rw [hform, hform']
      exact fun _ heq => heq
    · intro _ hphoto
      exact absurd hphoto (not_ofPhoto_of_form hform)
    · refine .sending f hdue (hsame ▸ hnames) ?_ hstage'
      refine Apply.gathers_step hcalm h.going hcancel (fun line hline => ?_) ?_ hform hphoto hact
        hreply
      · exact ⟨(f.line line hline).whole, (f.line line hline).ne_nil, (f.line line hline).nul⟩
      · rw [Apply.openFile, if_pos hok, hattends.disk]
  · simp only [Errand.left, hsame, hstage.placeLeft_eq hdue, hstage'.placeLeft_eq hdue, formLeft]
    omega

/-- The client reads the reply: the form is marked, and settled. -/
theorem Working.reply_step (hcalm : c.Calm) (hok : c.ok = true)
    (h : Working e on a s w) (hdue : e.Due f) (hnames : f.name :: a.names <:+ e.names)
    (hphoto : Gathers f.lines a.place) (hstage : FormStage f e.cwd
      (txtdirOf e.year e.college ++ f.name) (regdbOf e.year e.college) (stem f.name) ⟨a, none⟩ s w)
    (hreply : a.place.IsReply) (hact : a.act e.opts c = some (a', sent)) :
    let s' := Session.receive (sent.flatMap Sent.bytes) (a'.place == .closed) s
    Working e on a' s' w ∧ e.left (a', s') < e.left (a, s) := by
  intro s'
  obtain ⟨hform, hattends⟩ := hstage.hand
  obtain ⟨⟨photo, client⟩, server, hholding⟩ := hstage.answered hcalm hreply hact
  obtain ⟨marked, hmarks⟩ := hdue.marks
  have hopen : a.openFile f.path c = some f.lines.flatten := by
    rw [Apply.openFile, if_pos hok, hattends.disk]
  obtain ⟨hpending, heof, hdisk, hsame, hcancelled, rfl, hplace⟩ :=
    Apply.readFormReply_sets hcalm hopen hmarks reply_success (by decide)
      (by rwa [List.append_nil]) hact
  rw [client.place] at hphoto
  obtain rfl : photo = photoOf f.lines := hphoto
  have hserver : s'.At .command [] := by
    apply at_quiet server
    rcases hplace with ⟨hplace, -⟩ | ⟨-, hplace⟩
    · simp [hplace]
    · simp [hplace]
  have hfresh : f.name ∉ a.names := (List.nodup_cons.mp (hnames.sublist.nodup e.nodup)).1
  have hlast : f.name :: a'.names <:+ e.names := hsame ▸ hnames
  -- another form that is due lies elsewhere
  have hne : ∀ g, e.Due g → g.name ≠ f.name → g.path ≠ f.path := by
    intro g hg hname heq
    rw [hg.path, hdue.path] at heq
    exact hname (Errand.path_injective heq)
  constructor
  · refine ⟨hsame ▸ h.names, hcancelled.trans h.going, fun name hname => ?_, fun path hpath => ?_,
      fun g hg => ?_, fun hon g hg => ?_, ⟨h.houses.serving, h.houses.txtdir, h.houses.regdb⟩,
      h.untimed, ?_⟩
    · have hname : name ∈ a.names := hsame ▸ hname
      have hne : e.path name ≠ f.path := by
        rw [hdue.path]
        intro heq
        exact hfresh (Errand.path_injective heq ▸ hname)
      rw [hdisk, Function.update_of_ne hne]
      exact h.rest name hname
    · rw [hdisk, Function.update_of_ne (hpath f hdue).symm]
      exact h.kept path hpath
    · by_cases hname : g.name = f.name
      -- a due form of the same name is this one
      · obtain ⟨hpath, hlines⟩ := hdue.same hg hname
        refine Or.inr (Or.inr ⟨⟨marked, ?_, ?_⟩, ?_, ?_⟩)
        · rw [hlines]
          exact hmarks
        · rw [hdisk, hpath, Function.update_self]
        · rw [hlines, hname]
          exact hholding.text
        · rw [hlines, hname]
          exact hholding.record
      · rcases h.settled g hg with hmem | hhand | hsettled
        · exact Or.inl (hsame ▸ hmem)
        · exact absurd (Option.some.inj (hhand.symm.trans hform)) (hne g hg hname)
        · refine Or.inr (Or.inr ⟨?_, hsettled.holding⟩)
          rw [hdisk, Function.update_of_ne (hne g hg hname)]
          exact hsettled.marked
    · by_cases hname : g.name = f.name
      · rcases hplace with ⟨-, hnone⟩ | ⟨-, hplace⟩
        · refine Or.inr fun p hp => absurd ⟨hp.encloses.on, ?_⟩ hnone
          rw [← (hdue.same hg hname).2]
          exact hp.encloses.long
        · refine Or.inl (Or.inr (Or.inr ⟨?_, hname ▸ hlast⟩))
          simp [hplace, Client.ApplyPlace.OfPhoto]
      · rcases h.pictured hon g hg with (hmem | hhand | ⟨hphoto, -⟩) | hpictured
        · exact Or.inl (Or.inl (hsame ▸ hmem))
        · exact absurd (Option.some.inj (hhand.symm.trans hform)) (hne g hg hname)
        · exact absurd hphoto (not_ofPhoto_of_form hform)
        · exact Or.inr hpictured
    · rcases hplace with ⟨hplace, -⟩ | ⟨⟨hon, hlong⟩, hplace⟩
      · exact .looking (Or.inr hplace) ⟨rfl, hpending, heof⟩ hserver
      · exact .offering f hdue hlast ⟨hon, hlong⟩ ⟨hplace, hpending, heof⟩ hserver
  · have hleft : 14 + 2 * size e.disk (photoOf f.lines) < e.placeLeft a s := by
      rw [placeLeft_of_form hform, client.place, hdue.photoSize_eq]
      simp only [sendLeft]
      omega
    have hleft' : e.placeLeft a' s' ≤ 13 + 2 * size e.disk (photoOf f.lines) := by
      rcases hplace with ⟨hplace, -⟩ | ⟨-, hplace⟩
      · simp only [Errand.placeLeft, hplace]
        omega
      · simp only [Errand.placeLeft, hplace]
        omega
    simp only [Errand.left, hsame]
    omega

/-- The client offers the photo, when there is one. -/
theorem Working.offer_step (hpictures : e.Pictures on) (hcalm : c.Calm) (hok : c.ok = true)
    (h : Working e on a s w) (hdue : e.Due f) (hnames : f.name :: a.names <:+ e.names)
    (hencloses : e.Encloses f) (client : a.At (.photo (photoOf f.lines)) [])
    (server : s.At .command []) (hact : a.openPhoto (photoOf f.lines) c = some (a', sent)) :
    let s' := Session.receive (sent.flatMap Sent.bytes) (a'.place == .closed) s
    Working e on a' s' w ∧ e.left (a', s') < e.left (a, s) := by
  intro s'
  have hleft : e.placeLeft a s = 13 + 2 * size e.disk (photoOf f.lines) := by
    simp only [Errand.placeLeft, client.place]
    omega
  have hopen : a.openFile (photoOf f.lines) c = e.disk (photoOf f.lines) := by
    -- no form that was marked is the photo
    rw [Apply.openFile, if_pos hok]
    refine h.kept _ fun g hg => ?_
    rw [hg.path]
    exact (hpictures.apart f hdue hencloses g.name hg.entry).symm
  have htext : OneLine (photoOf f.lines) :=
    oneLine_photoOf fun line hline => (f.line line hline).nul
  cases hdata : e.disk (photoOf f.lines) with
  | none =>
    simp only [Apply.openPhoto, hopen, hdata] at hact
    obtain ⟨hpast, hplace, rfl⟩ := past_goto (Option.some.inj hact)
    constructor
    · apply h.goes hpast.disk hpast.names hpast.cancelled
      · simp [client.place, Client.ApplyPlace.form]
      · -- there is no photo of the form
        refine fun _ _ => Or.inr fun g hg hlast q hq => ?_
        have hpath := hq.path.trans
          (congrArg photoOf (hdue.same hg (eq_of_suffixes hlast hnames)).2)
        have hdisk := hq.disk
        rw [hpath, hdata] at hdisk
        cases hdisk
      · exact .looking (Or.inr hplace) ((client.pending ▸ hpast).at client rfl)
          (at_quiet server (by simp [hplace]))
    · have hleft' : e.placeLeft a' s' = 4 := by simp [Errand.placeLeft, hplace]
      simp only [Errand.left, hpast.names]
      omega
  | some data =>
    have hphoto : ∀ p, e.Depicts f p →
        p.data = data ∧ basename (photoOf f.lines) = some p.base := by
      intro p hp
      have hdisk := hp.disk
      rw [hp.path, hdata] at hdisk
      exact ⟨(Option.some.inj hdisk).symm, hp.path ▸ p.named⟩
    -- either kind of server is promised a photo with a name
    obtain ⟨base, hbase⟩ : ∃ base, basename (photoOf f.lines) = some base := by
      cases hon : on with
      | false =>
        obtain ⟨base, hbase, -⟩ := hpictures.offered hon f hdue hencloses data hdata
        exact ⟨base, hbase⟩
      | true =>
        obtain ⟨p, hp⟩ := hpictures.taken hon f hdue hencloses data hdata
        exact ⟨_, (hphoto p hp).2⟩
    obtain ⟨hpast, hplace, -, rfl⟩ :=
      Apply.openPhoto_calm hcalm (hopen.trans hdata) hbase hact
    have hclient : a'.At (.photoReply data) [] := (client.pending ▸ hpast).at client hplace
    have hserver : s'.At .command (binaryLine data.length base) := by
      simpa [s', Sent.bytes] using at_sent server (by simp [hplace]) (binaryLine data.length base)
    have hstanding : Standing e on a' s' w := by
      cases hon : on with
      -- this server will refuse the offer
      | false =>
        obtain ⟨base', hbase', hfits⟩ := hpictures.offered hon f hdue hencloses data hdata
        obtain rfl : base = base' := Option.some.inj (hbase.symm.trans hbase')
        exact .offered rfl (htext.basename hbase) hfits hclient hserver
      | true =>
        obtain ⟨p, hp⟩ := hpictures.taken hon f hdue hencloses data hdata
        obtain ⟨rfl, hnamed⟩ := hphoto p hp
        obtain rfl : p.base = base := Option.some.inj (hnamed.symm.trans hbase)
        refine .picturing f p rfl hdue (hpast.names ▸ hnames) hp (.asked hclient rfl hserver ?_ ?_)
        · exact congrArg (· ++ p.base) h.houses.txtdir
        · exact fun herrno => absurd (h.untimed herrno) (by simp [server.phase, Phase.Leaving])
    constructor
    · apply h.goes hpast.disk hpast.names hpast.cancelled
      · simp [client.place, Client.ApplyPlace.form]
      · exact fun _ _ => Or.inl (by simp [hplace, Client.ApplyPlace.OfPhoto])
      · exact hstanding
    · have hne : unread s'.tsd s'.conn ≠ [] := by
        rw [hserver.unread]
        simp [binaryLine]
      have hleft' : e.placeLeft a' s' = 5 + (data.length + 3 + (data.length + 4)) := by
        simp only [Errand.placeLeft, hplace, pictureLeft, hserver.phase]
        rw [if_neg hne]
      have hsame : a'.names = a.names := hpast.names
      rw [size_eq hdata] at hleft
      simp only [Errand.left, hsame]
      omega

/-- The client sends the photo, and reads the result. -/
theorem Working.photo_step (hcalm : c.Calm) (hok : c.ok = true)
    (hwrites : ∀ data, a.place = .payload data → data ≠ [] → WritesBlock data c)
    (h : Working e on a s w) (taken : on = true) (hdue : e.Due f)
    (hnames : f.name :: a.names <:+ e.names) (hdepicts : e.Depicts f p)
    (hstage : PhotoStage p (txtdirOf e.year e.college ++ p.base) (e.file p.base) ⟨a, none⟩ s w)
    (hact : a.act e.opts c = some (a', sent)) :
    let s' := Session.receive (sent.flatMap Sent.bytes) (a'.place == .closed) s
    Working e on a' s' w ∧ e.left (a', s') < e.left (a, s) := by
  intro s'
  have hplace := hstage.ofPhoto
  obtain ⟨hdisk, hsame, hcancelled⟩ := Apply.act_photo_keeps hplace hact
  obtain ⟨hstage', hclient, hserver⟩ := hstage.client_step hcalm hok hwrites rfl hact
  have hleft := hstage.placeLeft_eq hdepicts
  have hform : ∀ path, a.place.form = some path → a'.place.form = some path := by
    intro path hpath
    exact absurd hplace (not_ofPhoto_of_form hpath)
  -- `send_photo` goes on, or returns to the directory
  cases hreturn : photoReturn e.opts a c with
  | none =>
    simp only [hreturn] at hstage' hclient
    have hopen : (a'.place == .closed) = false := by
      apply beq_false_of_ne
      intro hclosed
      have hphoto := hstage'.ofPhoto
      simp [hclosed, Client.ApplyPlace.OfPhoto] at hphoto
    have hs : s' = Session.receive (sent.flatMap Sent.bytes) false s := by simp [s', hopen]
    rw [hs]
    constructor
    · apply h.goes hdisk hsame hcancelled hform
      · exact fun _ _ => Or.inl hstage'.ofPhoto
      · exact .picturing f p taken hdue (hsame ▸ hnames) hdepicts hstage'
    · simp only [Errand.left, hsame, hleft, hstage'.placeLeft_eq hdepicts, photoLeft]
      simp only [hreturn] at hserver
      omega
  | some ret =>
    simp only [hreturn] at hstage'
    cases hstage' with
    | finished client returned phase holds written =>
      have hnext : a'.place = .next := client.place
      have hopen : (a'.place == .closed) = false := beq_false_of_ne (by simp [hnext])
      have hs : s' = Session.receive (sent.flatMap Sent.bytes) false s := by simp [s', hopen]
      rw [hs]
      constructor
      · apply h.goes hdisk hsame hcancelled hform
        · -- the photo of this form lies beside it
          refine fun _ _ => Or.inr fun g hg hlast q hq => ?_
          have hpath := hq.path.trans
            (congrArg photoOf (hdue.same hg (eq_of_suffixes hlast hnames)).2)
          obtain ⟨hbase, hdata⟩ := hdepicts.same hq (hdepicts.path.trans hpath.symm)
          rw [← hbase, ← hdata]
          exact written
        · exact .looking (Or.inr hnext) (hnext ▸ client) (at_of_holds phase holds)
      · have hleft' : e.placeLeft a' (Session.receive (sent.flatMap Sent.bytes) false s) = 4 := by
          simp [Errand.placeLeft, hnext]
        simp only [Errand.left, hsame, hleft, hleft']
        omega
    | asking _ _ running | asked _ running | opening _ _ _ _ running
    | receiving _ _ _ _ _ _ _ running | replying _ running | replied _ running => cases running

/-- **A step of the client.** -/
theorem Working.client_step (htidy : e.Tidy) (hpictures : e.Pictures on)
    (hmove : SubmitMove on (a, s) (.inl c)) (h : Working e on a s w)
    (hact : a.act e.opts c = some (a', sent)) :
    let s' := Session.receive (sent.flatMap Sent.bytes) (a'.place == .closed) s
    Working e on a' s' w ∧ e.left (a', s') < e.left (a, s) := by
  intro s'
  obtain ⟨hcalm, hok, hcancel, hwrites⟩ := hmove
  cases h.stage with
  | looking place client server =>
    rcases place with hplace | hplace
    · simp only [Apply.act, hplace, h.going, hok, Bool.not_true, Bool.or_self, Bool.false_eq_true,
        if_false, Option.some.injEq] at hact
      obtain ⟨hpast, hnext, rfl⟩ := past_goto hact
      constructor
      · apply h.goes hpast.disk hpast.names hpast.cancelled
        · simp [hplace, Client.ApplyPlace.form]
        · simp [hplace, Client.ApplyPlace.OfPhoto]
        · exact .looking (Or.inr hnext) ((client.pending ▸ hpast).at client rfl)
            (at_quiet server (by simp [hnext]))
      · have hleft' : e.placeLeft a' s' = 4 := by simp [Errand.placeLeft, hnext]
        have hleft : e.placeLeft a s = 5 := by simp [Errand.placeLeft, hplace]
        simp only [Errand.left, hpast.names]
        omega
    · simp only [Apply.act, hplace] at hact
      exact h.next_step (hplace ▸ client) server hact htidy hcalm hok
  | sending f due names photo stage =>
    by_cases hreply : a.place.IsReply
    · exact h.reply_step hcalm hok due names photo stage hreply hact
    · exact h.form_step hcalm hok hcancel due names photo stage hreply hact
  | offering f due names encloses client server =>
    simp only [Apply.act, client.place] at hact
    exact h.offer_step hpictures hcalm hok due names encloses client server hact
  | picturing f p taken due names depicts stage =>
    exact h.photo_step hcalm hok hwrites taken due names depicts stage hact
  | offered off text fits client server =>
    simp [Apply.act, client.place, Apply.readPhotoReply, Apply.readline_waits hcalm client] at hact
  -- the reply is `E_IMG_NOSUPPORT`: the client goes on without the photo
  | refused off client server =>
    have hplace := client.place
    simp only [Apply.act, hplace] at hact
    have hreply : Apply.Reply E_IMG_NOSUPPORT (ebuf E_IMG_NOSUPPORT) :=
      @reply_ebuf E_IMG_NOSUPPORT (by decide) (by decide)
    obtain ⟨hpast, hnext, -, rfl⟩ := Apply.readPhotoReply_refused hcalm (by decide) hreply
      (by rw [client.pending, List.append_nil]) hact
    constructor
    · apply h.goes hpast.disk hpast.names hpast.cancelled
      · simp [hplace, Client.ApplyPlace.form]
      · simp [off]
      · refine .looking (Or.inr hnext) (hpast.at client rfl) (at_quiet server (by simp [hnext]))
    · have hleft : 4 < e.placeLeft a s := by
        simp only [Errand.placeLeft, hplace]
        omega
      have hleft' : e.placeLeft a' s' = 4 := by simp [Errand.placeLeft, hnext]
      simp only [Errand.left, hpast.names]
      omega
  | leaving names client server =>
    simp only [Apply.act, client.place] at hact
    obtain ⟨hpast, hclosed, -, rfl⟩ := Apply.send_calm hcalm hact
    constructor
    · apply h.goes hpast.disk hpast.names hpast.cancelled
      · simp [client.place, Client.ApplyPlace.form]
      · simp [client.place, Client.ApplyPlace.OfPhoto]
      -- `QUIT` is what the server will read
      · refine .closing (hpast.names.trans names) hclosed server.phase ?_
        rw [unread_receive, server.unread]
        simp [Sent.bytes]
    · have hleft : e.placeLeft a s = 3 := by simp [Errand.placeLeft, client.place]
      have hleft' : e.placeLeft a' s' ≤ 2 := by
        simp only [Errand.placeLeft, hclosed]
        split_ifs <;> omega
      simp only [Errand.left, hpast.names]
      omega
  | closing _ place | ended _ place => simp [Apply.act, place] at hact

/-- With a photo to open, it is that of a form that is due. -/
theorem Working.opens_photo {path : Bytes} (h : Working e on a s w)
    (hplace : a.place = .photo path) :
    ∃ f, e.Due f ∧ e.Encloses f ∧ path = photoOf f.lines := by
  have hother : ∀ {place}, a.place = place → place ≠ .photo path →
      ∃ f, e.Due f ∧ e.Encloses f ∧ path = photoOf f.lines := by
    rintro place rfl hne
    exact absurd hplace hne
  have hsame : ∀ {path'}, a.place = .photo path' → path = path' := by
    intro path' hplace'
    exact Client.ApplyPlace.photo.inj (hplace.symm.trans hplace')
  -- only two stages have the client in front of a photo
  cases h.stage with
  | offering f due names encloses client => exact ⟨f, due, encloses, hsame client.place⟩
  | picturing f p taken due names depicts stage =>
    have hclient : ∀ {rest extra}, Sending p a rest extra →
        ∃ f, e.Due f ∧ e.Encloses f ∧ path = photoOf f.lines := by
      intro rest extra hclient
      cases hclient with
      | welcome _ client | blocks client | sent _ client => exact hother client.place (by simp)
    cases stage with
    | asking client =>
      have hpath := hsame client.place
      exact ⟨f, due, depicts.encloses, hpath.trans depicts.path⟩
    | asked client =>
      have hat : a.place = _ := client.place
      exact hother hat (by simp)
    | opening _ _ _ client | receiving _ _ _ _ _ _ client | replying client | replied client =>
      exact hclient client
    | finished _ returned => cases returned
  | looking place =>
    rcases place with hat | hat
    · exact hother hat (by simp)
    · exact hother hat (by simp)
  | sending f due names photo stage =>
    have hform := stage.hand.1
    simp [hplace, Client.ApplyPlace.form] at hform
  | offered _ _ _ client | refused _ client | leaving _ client =>
    exact hother client.place (by simp)
  | closing _ place | ended _ place => exact hother place (by simp)

/-- **What the client announces** is due. -/
theorem Working.announces {start : ℕ} {line : Bytes} (htidy : e.Tidy) (hpictures : e.Pictures on)
    (hcalm : c.Calm) (h : Working e on a s w) (hact : a.act e.opts c = some (a', sent))
    (hmem : .command start line ∈ sent) : ∃ f, e.Due f ∧ e.Announces f line := by
  rcases Apply.act_commands hact hmem with ⟨-, hnext⟩ | ⟨path, hplace, hphoto⟩
  · rcases Apply.nextFile_cases hnext with ⟨rfl, -⟩ |
      ⟨name, names, content, flag, hnames, hskip, hcontent, hunsent, hsend⟩
    · simp at hmem
    · obtain ⟨-, -, -, rfl⟩ := Apply.send_calm hcalm hsend
      obtain ⟨-, rfl⟩ : start = a.pos ∧ line = Apply.filenameLine name := by simpa using hmem
      have hname : name ∈ a.names := by simp [hnames]
      have hdisk : e.disk (e.path name) = some content := (h.rest name hname).symm.trans hcontent
      rcases htidy name ⟨h.names.subset hname, hskip⟩ content hdisk with hsent | ⟨f, hdue, rfl⟩
      · exact absurd hsent hunsent
      · exact ⟨f, hdue, Or.inl rfl⟩
  · obtain ⟨f, hdue, hencloses, rfl⟩ := h.opens_photo hplace
    have hkept : a.disk (photoOf f.lines) = e.disk (photoOf f.lines) := by
      refine h.kept _ fun g hg => ?_
      rw [hg.path]
      exact (hpictures.apart f hdue hencloses g.name hg.entry).symm
    unfold Apply.openPhoto at hphoto
    split at hphoto
    · obtain ⟨-, rfl⟩ := Prod.mk.inj (Option.some.inj hphoto)
      simp at hmem
    · next data hopen =>
      split at hphoto
      · obtain ⟨-, rfl⟩ := Prod.mk.inj (Option.some.inj hphoto)
        simp at hmem
      · next base hbase =>
        obtain ⟨-, -, -, rfl⟩ := Apply.send_calm hcalm hphoto
        obtain ⟨-, rfl⟩ : start = a.pos ∧ line = binaryLine data.length base := by simpa using hmem
        simp only [Apply.openFile] at hopen
        split_ifs at hopen
        exact ⟨f, hdue, Or.inr ⟨hencloses, data, base, hkept.symm.trans hopen, hbase, rfl⟩⟩

/-! ### A step of the server -/

/-- What is settled stays so. -/
theorem Errand.Settled.keep (h : e.Settled f a.disk w) (hdue : e.Due f) (hspares : e.Spares a es)
    (bs : Bytes) (closed : Bool) : e.Settled f (a.receive bs closed).disk (w.after e.cwd es) := by
  obtain ⟨⟨marked, hmarks, hdisk⟩, hholding⟩ := h
  have hmarked : a.disk (e.path f.name) ≠ e.disk (e.path f.name) := by
    rw [← hdue.path, hdisk, hdue.disk]
    exact fun heq => hmarks.ne (Option.some.inj heq)
  have htouch := fun event hmem => hspares event hmem f.name hdue.entry hmarked
  refine ⟨⟨marked, hmarks, hdisk⟩, ?_, ?_⟩
  · rw [World.after_file_of_forall fun event hmem => (htouch event hmem).1]
    exact hholding.text
  · rw [World.after_record_of_forall fun event hmem => (htouch event hmem).2]
    exact hholding.record

/-- The photo of a form stays as long as its file is not touched. -/
theorem Errand.Pictured.keep (h : e.Pictured f w) (hfree : ∀ p, e.Depicts f p → ∀ event ∈ es,
    ¬ event.TouchesFile e.cwd (e.file p.base)) : e.Pictured f (w.after e.cwd es) := by
  intro p hp
  rw [World.after_file_of_forall (hfree p hp)]
  exact h p hp

/-- The server goes on, and spares what is marked. -/
theorem Working.serves (h : Working e on a s w) (hcalm : t.Calm)
    (hact : act env s t = some (s', es)) (hspares : e.Spares a es)
    (hpictured : on = true → ∀ f, e.Due f → e.Pictured f w →
      e.Awaits a f ∨ e.Pictured f (w.after e.cwd es)) (bs : Bytes) (closed : Bool)
    (hstage : Standing e on (a.receive bs closed) s' (w.after e.cwd es)) :
    Working e on (a.receive bs closed) s' (w.after e.cwd es) where
  names := h.names
  going := h.going
  rest := h.rest
  kept := h.kept
  settled f hdue := (h.settled f hdue).imp_right fun hcase =>
    hcase.imp_right fun hsettled => hsettled.keep hdue hspares bs closed
  pictured hon f hdue := (h.pictured hon f hdue).elim Or.inl (hpictured hon f hdue)
  houses := h.houses.step (act_cases hact)
  untimed := act_untimed h.untimed (prompt_of_calm hcalm s) hact
  stage := hstage

/-- What a step of the server does for a submission: all that is done is done to due forms and
their photos, and the submission is nearer to its end, unless the photo in hand is not read because
the call is interrupted. -/
structure Working.Served (e : Errand) (on : Bool) (a : Apply) (s s' : Session) (w : World)
    (t : Turn) (es : List Event) : Prop where
  working : Working e on (a.receive (sentBytes es) s'.closed) s' (w.after e.cwd es)
  serves : ∀ event ∈ es, event.IsEffect → ∃ f, e.Due f ∧ e.Serves on f event
  falls : e.left (a.receive (sentBytes es) s'.closed, s') < e.left (a, s) ∨
    e.left (a.receive (sentBytes es) s'.closed, s') = e.left (a, s) ∧
      (∀ k, t.reads.head? ≠ some (.upTo k)) ∧
      (HasStep a → HasStep (a.receive (sentBytes es) s'.closed)) ∧
      (SessionReady s → SessionReady s')

section Served

variable (h : Working e on a s w) (hcalm : t.Calm) (hact : act env s t = some (s', es))

include h hcalm hact

/-- The server acts on nothing. -/
theorem Working.served_of_quiet (hquiet : ∀ event ∈ es, ¬ event.IsEffect)
    (hstage : Standing e on (a.receive (sentBytes es) s'.closed) s' (w.after e.cwd es))
    (hfall : e.placeLeft (a.receive (sentBytes es) s'.closed) s' < e.placeLeft a s) :
    Served e on a s s' w t es where
  working := h.serves hcalm hact (.of_not_isEffect hquiet)
    (fun _ f _ hpictured => Or.inr (by rwa [after_of_not_isEffect hquiet])) _ _ hstage
  serves event hmem heffect := absurd heffect (hquiet event hmem)
  falls := Or.inl (Nat.add_lt_add_left hfall _)

/-- The server takes the form, up to its reply. -/
theorem Working.form_served (due : e.Due f) (names : f.name :: a.names <:+ e.names)
    (photo : Gathers f.lines a.place)
    (stage : FormStage f e.cwd (txtdirOf e.year e.college ++ f.name) (regdbOf e.year e.college)
      (stem f.name) ⟨a, none⟩ s w) :
    Served e on a s s' w t es := by
  obtain ⟨hstage, hdone, hclient, hserver⟩ := stage.server_step hcalm hact
  have hopen : s'.closed = false := closed_of_ne_done hdone
  have hconcerns := stage.concerns hcalm h.houses due hact
  have hunmarked : a.disk (e.path f.name) = e.disk (e.path f.name) := by
    rw [← due.path, stage.hand.2.disk, due.disk]
  refine ⟨?_, fun event hmem _ => ⟨f, due, Or.inl (hconcerns event hmem)⟩, Or.inl ?_⟩
  · apply h.serves hcalm hact (.of_concerns due.entry hunmarked hconcerns)
    · -- a photo lies over no form
      refine fun _ g _ hpictured => Or.inr (hpictured.keep fun q hq event hmem htouch => ?_)
      exact hq.apart f.name due.entry ((hconcerns event hmem).1 _ htouch)
    · rw [hopen]
      exact .sending f due names photo hstage
  · rw [hopen]
    simp only [Errand.left, hstage.placeLeft_eq due, stage.placeLeft_eq due, formLeft]
    have hsame : (a.receive (sentBytes es) false).names = a.names := rfl
    have hclient' : formClientLeft f ⟨a.receive (sentBytes es) false, none⟩ =
        formClientLeft f ⟨a, none⟩ := hclient
    rw [hsame, hclient']
    omega

/-- The server takes the photo, up to its result. -/
theorem Working.photo_served (hpictures : e.Pictures on) (hon : t.acceptimage = on)
    (taken : on = true) (due : e.Due f) (names : f.name :: a.names <:+ e.names)
    (depicts : e.Depicts f p)
    (stage : PhotoStage p (txtdirOf e.year e.college ++ p.base) (e.file p.base) ⟨a, none⟩ s w) :
    Served e on a s s' w t es := by
  obtain ⟨hstage, hdone, hclient, hfall⟩ := stage.server_step hcalm (hon.trans taken) rfl hact
  have hopen : s'.closed = false := closed_of_ne_done hdone
  have hportrays := stage.portrays hcalm depicts rfl hact
  have htouch : ∀ event ∈ es, ∀ place, event.TouchesFile e.cwd place →
      place = e.file p.base := by
    intro event hmem place htouch
    obtain ⟨q, hq, hfile, -⟩ := hportrays event hmem
    rw [(depicts.same hq (depicts.path.trans hq.path.symm)).1]
    exact hfile place htouch
  have hspares : e.Spares a es := by
    intro event hmem name hentry _
    obtain ⟨-, -, -, hrecord⟩ := hportrays event hmem
    refine ⟨fun htouching => ?_, hrecord _ _⟩
    exact depicts.apart name hentry (htouch event hmem _ htouching).symm
  have hstage' : PhotoStage p (txtdirOf e.year e.college ++ p.base) (e.file p.base)
      ⟨a.receive (sentBytes es) false, none⟩ s' (w.after e.cwd es) := hstage
  refine ⟨?_, fun event hmem _ => ⟨f, due, Or.inr ⟨taken, hportrays event hmem⟩⟩, ?_⟩
  · apply h.serves hcalm hact hspares
    · intro hon g hg hpictured
      by_cases hname : g.name = f.name
      -- the photo in hand is still to come; any other lies elsewhere
      · exact Or.inl (Or.inr (Or.inr ⟨stage.ofPhoto, hname ▸ names⟩))
      · refine Or.inr (hpictured.keep fun q hq event hmem htouching => hname ?_)
        exact hpictures.own hon g f q p hg due hq depicts (htouch event hmem _ htouching)
    · rw [hopen]
      exact .picturing f p taken due names depicts hstage'
  · have hsame : (a.receive (sentBytes es) false).names = a.names := rfl
    have hclient' : photoClientLeft p ⟨a.receive (sentBytes es) false, none⟩ =
        photoClientLeft p ⟨a, none⟩ := hclient
    have hserver' : photoServerLeft p ⟨a.receive (sentBytes es) false, none⟩ s' =
        photoServerLeft p (Call.receive (sentBytes es) ⟨a, none⟩) s' := rfl
    rw [hopen]
    simp only [Errand.left, hsame, hstage'.placeLeft_eq depicts, stage.placeLeft_eq depicts,
      photoLeft, hclient', hserver']
    rcases hfall with hlt | ⟨heq, hhead, hready⟩
    · exact Or.inl (by omega)
    · refine Or.inr ⟨by omega, hhead, fun hstep => hasStep_receive hstep _ _, fun hready' => ?_⟩
      exact hstage'.ready_iff.mpr (hready (stage.ready_iff.mp hready'))

/-- A server that takes no photos refuses the offer. -/
theorem Working.offer_served {data base : Bytes} (hon : t.acceptimage = on) (off : on = false)
    (text : OneLine base) (fits : (binaryLine data.length base).length < MAXLINE)
    (client : a.At (.photoReply data) [])
    (server : s.At .command (binaryLine data.length base)) : Served e on a s s' w t es := by
  have hlen : 9 ≤ (binaryLine data.length base).length := by
    have hword : (ascii "BINARY ").length = 7 := by decide
    have hblank : (ascii " ").length = 1 := by decide
    simp only [binaryLine, List.length_append, hword, hblank, List.length_singleton]
    omega
  have herrno : s.errno ≠ .ewouldblock := fun herrno =>
    absurd (h.untimed herrno) (by simp [server.phase, Phase.Leaving])
  have hread : readCommand s t = some (s', es) := by simpa only [act, server.phase] using hact
  obtain ⟨hphase, hpast, hsent, hquiet⟩ := readCommand_refuses hcalm.connected
    (by rw [server.unread, List.append_nil]) (whole_binary text fits)
    (by simp [binaryLine]) hlen herrno (hon.trans off) hread
  have hopen : s'.closed = false := by simp [Session.closed, hphase]
  apply h.served_of_quiet hcalm hact hquiet
  · rw [hsent, hopen]
    exact .refused off (client.receive _) ⟨hphase, hpast.unread, hpast.eof.trans server.eof⟩
  · have hne : unread s.tsd s.conn ≠ [] := by
      rw [server.unread]
      simp [binaryLine]
    have hleft : e.placeLeft a s = 5 + (data.length + 3 + (data.length + 4)) := by
      simp only [Errand.placeLeft, client.place, pictureLeft, server.phase]
      rw [if_neg hne]
    have hplace : (a.receive (sentBytes es) s'.closed).place = .photoReply data := client.place
    have hleft' : e.placeLeft (a.receive (sentBytes es) s'.closed) s' =
        5 + (data.length + 3 + 0) := by
      simp only [Errand.placeLeft, hplace, pictureLeft, hphase, hpast.unread, if_true]
    omega

/-- The server reads `QUIT`. -/
theorem Working.quit_served (names : a.names = []) (place : a.place = .closed)
    (phase : s.phase = .command) (hunread : unread s.tsd s.conn = ascii "QUIT\n") :
    Served e on a s s' w t es := by
  have hread : readCommand s t = some (s', es) := by simpa only [act, phase] using hact
  obtain ⟨hdone, hsent, hquiet⟩ := readCommand_quits hcalm.connected hunread hread
  apply h.served_of_quiet hcalm hact hquiet
  · exact .ended names place hdone
  · have hplace : (a.receive (sentBytes es) s'.closed).place = .closed := place
    simp [Errand.placeLeft, place, phase, hplace, hdone]

/-- **A step of the server.** -/
theorem Working.server_step (hpictures : e.Pictures on) (hon : t.acceptimage = on) :
    Served e on a s s' w t es := by
  have hidle : ¬ s.At .command [] := by
    intro server
    simp [act, server.phase, readCommand_nil hcalm.connected server] at hact
  cases h.stage with
  | looking _ _ server | offering _ _ _ _ _ server | refused _ _ server | leaving _ _ server =>
    exact absurd server hidle
  | sending f due names photo stage => exact h.form_served hcalm hact due names photo stage
  | picturing f p taken due names depicts stage =>
    exact h.photo_served hcalm hact hpictures hon taken due names depicts stage
  | offered off text fits client server =>
    exact h.offer_served hcalm hact hon off text fits client server
  | closing names place phase unread => exact h.quit_served hcalm hact names place phase unread
  | ended names place phase => simp [act_stopped (Or.inl phase)] at hact

end Served

/-! ### Time that passes -/

theorem Working.wait (h : Working e on a s w) (t : Turn) : Working e on a (s.wait t) w := by
  refine ⟨h.names, h.going, h.rest, h.kept, h.settled, h.pictured, ?_, h.untimed, ?_⟩
  · exact ⟨h.houses.serving, h.houses.txtdir, h.houses.regdb⟩
  · cases h.stage with
    | looking place client server => exact .looking place client (at_wait server t)
    | sending f due names photo stage => exact .sending f due names photo (stage.wait t)
    | offering f due names encloses client server =>
      exact .offering f due names encloses client (at_wait server t)
    | picturing f p taken due names depicts stage =>
      exact .picturing f p taken due names depicts (stage.wait t)
    | offered off text fits client server =>
      exact .offered off text fits client (at_wait server t)
    | refused off client server => exact .refused off client (at_wait server t)
    | leaving names client server => exact .leaving names client (at_wait server t)
    | closing names place phase unread => exact .closing names place phase unread
    | ended names place phase => exact .ended names place phase

/-- The server is done only when the client has closed. -/
theorem Working.closed_of_done (h : Working e on a s w) (hdone : s.phase = .done) :
    a.names = [] ∧ a.place = .closed := by
  cases h.stage with
  | looking _ _ server | offering _ _ _ _ _ server | offered _ _ _ _ server | refused _ _ server
  | leaving _ _ server =>
    have hphase := server.phase
    simp [hdone] at hphase
  | sending f due names photo stage =>
    have hopen := stage.serving
    simp [Session.closed, hdone] at hopen
  | picturing f p taken due names depicts stage =>
    have hopen := stage.serving
    simp [Session.closed, hdone] at hopen
  | closing _ _ phase => simp [hdone] at phase
  | ended names place => exact ⟨names, place⟩

/-- The client sees the end of the stream when the server is done. -/
theorem Working.ends (h : Working e on a s w) : Working e on (a.receive [] s.closed) s w := by
  cases hclosed : s.closed with
  | false => rwa [apply_receive_nil]
  | true =>
    have hdone : s.phase = .done := by simpa [Session.closed] using hclosed
    obtain ⟨hnames, hplace⟩ := h.closed_of_done hdone
    refine ⟨h.names, h.going, h.rest, h.kept, fun f hdue => ?_, h.pictured, h.houses, h.untimed,
      .ended hnames hplace hdone⟩
    exact (h.settled f hdue).imp_right fun hcase => hcase.imp_right fun hsettled =>
      ⟨hsettled.marked, hsettled.holding⟩

/-- The client closes behind its last entry. -/
theorem Standing.names_of_closed (h : Standing e on a s w) (hclosed : a.place = .closed) :
    a.names = [] := by
  cases h with
  | closing names | ended names => exact names
  | looking place =>
    rcases place with hplace | hplace
    · simp [hclosed] at hplace
    · simp [hclosed] at hplace
  | sending f due names photo stage =>
    have hform := stage.hand.1
    simp [hclosed, Client.ApplyPlace.form] at hform
  | picturing f p taken due names depicts stage =>
    have hphoto := stage.ofPhoto
    simp [hclosed, Client.ApplyPlace.OfPhoto] at hphoto
  | offering _ _ _ _ client | offered _ _ _ client | refused _ client | leaving _ client =>
    have hplace := client.place
    simp [hclosed] at hplace

/-- The server sees the end of the stream when the client has closed. -/
theorem Working.closes (h : Working e on a s w) :
    Working e on a (Session.receive [] (a.place == .closed) s) w := by
  by_cases hclosed : a.place = .closed
  · apply h.goes rfl rfl rfl (fun _ heq => heq)
    · simp [hclosed, Client.ApplyPlace.OfPhoto]
    · have hnames := h.stage.names_of_closed hclosed
      cases h.stage with
      | closing names place phase unread =>
        exact .closing names place phase (by rw [unread_receive, unread, List.append_nil])
      | ended names place phase => exact .ended names place phase
      | looking place =>
        rcases place with hplace | hplace
        · simp [hclosed] at hplace
        · simp [hclosed] at hplace
      | sending f due names photo stage =>
        have hform := stage.hand.1
        simp [hclosed, Client.ApplyPlace.form] at hform
      | picturing f p taken due names depicts stage =>
        have hphoto := stage.ofPhoto
        simp [hclosed, Client.ApplyPlace.OfPhoto] at hphoto
      | offering _ _ _ _ client | offered _ _ _ client | refused _ client | leaving _ client =>
        have hplace := client.place
        simp [hclosed] at hplace
  · have hsame : Session.receive [] (a.place == .closed) s = s := by
      rw [beq_false_of_ne hclosed]
      simp [Session.receive]
    rwa [hsame]

/-! ### Progress -/

/-- With a form in hand the client has something to do as in the transfer of the form. -/
theorem hasStep_iff {path : Bytes} (h : a.place.form = some path) : HasStep a ↔ SubmitReady a := by
  cases hplace : a.place with
  | named path' | body path' content photo | reply path' photo =>
    simp [HasStep, SubmitReady, hplace]
  | _ => simp [hplace, Client.ApplyPlace.form] at h

/-- With a photo in hand the client has something to do as in the transfer of the photo. -/
theorem hasStep_photo_iff (h : a.place.OfPhoto) : HasStep a ↔ ApplyReady a := by
  cases hplace : a.place with
  | photo path | photoReply data | payload data | photoResult =>
    simp [HasStep, ApplyReady, hplace]
  | _ => simp [hplace, Client.ApplyPlace.OfPhoto] at h

/-- A client that has something to do moves, when its calls may. -/
theorem Working.client_moves (hpictures : e.Pictures on) (hmove : SubmitMove on (a, s) (.inl c))
    (h : Working e on a s w) (hample : c.Ample) (hstep : HasStep a) :
    ∃ r, a.act e.opts c = some r := by
  obtain ⟨hcalm, hok, -, hwrites⟩ := hmove
  cases h.stage with
  | looking place client server =>
    rcases place with hplace | hplace
    · exact ⟨_, by rw [Apply.act, hplace]⟩
    · simp only [Apply.act, hplace]
      exact Apply.nextFile_some hample
  | sending f due names photo stage =>
    exact stage.client_moves e.opts hample rfl ((hasStep_iff stage.hand.1).mp hstep)
  | picturing f p taken due names depicts stage =>
    exact stage.client_moves e.opts hample hok hwrites rfl
      ((hasStep_photo_iff stage.ofPhoto).mp hstep)
  | offering f due names encloses client server =>
    simp only [Apply.act, client.place, Apply.openPhoto]
    cases hopen : a.openFile (photoOf f.lines) c with
    | none => exact ⟨_, rfl⟩
    | some data =>
      have hdata : e.disk (photoOf f.lines) = some data := by
        have hkept := h.kept (photoOf f.lines) fun g hg => by
          rw [hg.path]
          exact (hpictures.apart f due encloses g.name hg.entry).symm
        rw [← hkept]
        simpa [Apply.openFile, hok] using hopen
      -- the line of the offer goes out in one write
      cases hon : on with
      | false =>
        obtain ⟨base, hbase, hlen⟩ := hpictures.offered hon f due encloses data hdata
        simp only [hbase]
        exact Apply.send_some hample hlen.le
      | true =>
        obtain ⟨p, hp⟩ := hpictures.taken hon f due encloses data hdata
        have hdisk := hp.disk
        rw [hp.path, hdata] at hdisk
        obtain rfl : data = p.data := Option.some.inj hdisk
        obtain ⟨body, hline, -, hlen⟩ := binaryLine_body p.fits p.name
        simp only [hp.path ▸ p.named]
        refine Apply.send_some hample ?_
        rw [hline, List.length_append, List.length_singleton]
        omega
  | offered off text fits client server => simp [HasStep, client.place, client.pending] at hstep
  | refused off client server =>
    have hreply : Apply.Reply E_IMG_NOSUPPORT (ebuf E_IMG_NOSUPPORT) :=
      @reply_ebuf E_IMG_NOSUPPORT (by decide) (by decide)
    obtain ⟨⟨ret, line, wire⟩, hread⟩ := Apply.readline_reply_some (a := a) hample hreply
      (by rw [client.pending, List.append_nil])
    simp only [Apply.act, client.place, Apply.readPhotoReply, hread, Option.bind_eq_bind,
      Option.bind_some]
    split_ifs
    all_goals exact ⟨_, rfl⟩
  | leaving names client server =>
    simp only [Apply.act, client.place]
    exact Apply.send_some hample (by decide)
  | closing _ place | ended _ place => simp [HasStep, place] at hstep

/-- A server that has something to do moves, when its calls may. -/
theorem Working.server_moves {k : ℕ} (h : Working e on a s w) (hample : t.Ample)
    (hhead : t.reads.head? = some (.upTo k)) (hready : SessionReady s) :
    ∃ r, act env s t = some r := by
  have hidle : ¬ s.At .command [] := by
    intro server
    simp [SessionReady, FormReady, server.unread, server.phase] at hready
  cases h.stage with
  | looking _ _ server | offering _ _ _ _ _ server | refused _ _ server | leaving _ _ server =>
    exact absurd server hidle
  | sending f due names photo stage =>
    exact stage.server_moves env hample (stage.ready_iff.mp hready)
  | picturing f p taken due names depicts stage =>
    exact stage.server_moves env hample hhead (stage.ready_iff.mp hready)
  | @offered data base off text fits client server =>
    simp only [act, server.phase]
    refine @readCommand_some s t []
      (ascii "BINARY " ++ printInt (toInt32 data.length) ++ ascii " " ++ base) hample ?_ ?_
    · rw [server.unread, binaryLine]
    · rw [binaryLine, List.length_append, List.length_singleton] at fits
      omega
  | closing names place phase unread =>
    simp only [act, phase]
    exact @readCommand_some s t [] (ascii "QUIT") hample unread (by decide)
  | ended names place phase => exact absurd phase hready.1

/-- Short of the end a side has something to do. -/
theorem Working.ready (h : Working e on a s w) (hleft : 0 < e.left (a, s)) :
    HasStep a ∨ SessionReady s := by
  cases h.stage with
  | looking place =>
    rcases place with hplace | hplace
    · exact Or.inl (by simp [HasStep, hplace])
    · exact Or.inl (by simp [HasStep, hplace])
  | sending f due names photo stage =>
    have hpos : 0 < formLeft f (⟨a, none⟩, s, w) := by
      rw [Nat.pos_iff_ne_zero]
      exact fun hzero => stage.over.1 hzero rfl
    rcases stage.ready hpos with ⟨-, hready⟩ | hready
    · exact Or.inl ((hasStep_iff stage.hand.1).mpr hready)
    · exact Or.inr (stage.ready_iff.mpr hready)
  | picturing f p taken due names depicts stage =>
    have hpos : 0 < photoLeft p (⟨a, none⟩, s, w) := by
      rw [Nat.pos_iff_ne_zero]
      exact fun hzero => stage.over.1 hzero rfl
    rcases stage.ready hpos with ⟨-, hready⟩ | hready
    · exact Or.inl ((hasStep_photo_iff stage.ofPhoto).mpr hready)
    · exact Or.inr (stage.ready_iff.mpr hready)
  | offering _ _ _ _ client | leaving _ client => exact Or.inl (by simp [HasStep, client.place])
  | offered off text fits client server =>
    refine Or.inr ⟨by simp [server.phase], Or.inl (Or.inl ?_)⟩
    rw [server.unread]
    simp [binaryLine]
  | refused off client server =>
    exact Or.inl (by simp [HasStep, client.place, client.pending, ebuf])
  | closing names place phase unread =>
    refine Or.inr ⟨by simp [phase], Or.inl (Or.inl ?_)⟩
    rw [unread]
    decide
  | ended names place phase =>
    simp [Errand.left, names, Errand.placeLeft, place, phase] at hleft

end Steps

/-! ### Runs -/

section Runs

variable {e : Errand} {on : Bool} {env : Env} {x : Apply × Session} {w : World}
  {i : Client.Turn ⊕ Turn}

/-- **One move** keeps the invariant, announces due forms and their photos and acts on them; it
takes the submission on, or does nothing and could not help. -/
theorem Working.step (htidy : e.Tidy) (hpictures : e.Pictures on) (hmove : SubmitMove on x i)
    (h : Working e on x.1 x.2 w) :
    let r := submission e.opts env x i
    Working e on r.1.1 r.1.2 (w.after e.cwd (rights r.2)) ∧
      (∀ start line, .command start line ∈ lefts r.2 → ∃ f, e.Due f ∧ e.Announces f line) ∧
      (∀ event ∈ rights r.2, event.IsEffect → ∃ f, e.Due f ∧ e.Serves on f event) ∧
      (e.left r.1 < e.left x ∨
        e.left r.1 = e.left x ∧ ¬ SubmitHelps x i ∧ ∀ j, SubmitHelps x j → SubmitHelps r.1 j) := by
  intro r
  obtain ⟨a, s⟩ := x
  cases i with
  | inl c =>
    cases hact : a.act e.opts c with
    | none =>
      have hr : r = ((a, Session.receive [] (a.place == .closed) s), []) := by
        simp [r, submission, Machine.linked, applyForms, hact]
      have hunread : ∀ closed, unread (Session.receive [] closed s).tsd
          (Session.receive [] closed s).conn = unread s.tsd s.conn := by
        intro closed
        rw [unread_receive, List.append_nil]
      rw [hr]
      -- the client waits: nothing is lower, and no move that would help is lost
      refine ⟨h.closes, by simp, by simp, Or.inr ⟨?_, ?_, ?_⟩⟩
      · simp only [Errand.left, Errand.placeLeft, takeLeft, pictureLeft, hunread]
        rfl
      · rintro ⟨hample, hstep⟩
        obtain ⟨r', hr'⟩ := h.client_moves hpictures hmove hample hstep
        simp [hact] at hr'
      · rintro (c' | t) hhelps
        · exact hhelps
        · refine ⟨hhelps.1, hhelps.2.1, ?_⟩
          unfold SessionReady FormReady
          rw [hunread]
          exact hhelps.2.2
    | some r' =>
      obtain ⟨a', sent⟩ := r'
      have hr : r = ((a', Session.receive (sent.flatMap Sent.bytes) (a'.place == .closed) s),
          sent.map Sum.inl) := by
        simp [r, submission, Machine.linked, applyForms, hact]
      obtain ⟨hworking, hlt⟩ := h.client_step htidy hpictures hmove hact
      rw [hr, rights_map_inl, lefts_map_inl]
      exact ⟨hworking, fun start line hmem => h.announces htidy hpictures hmove.1 hact hmem,
        by simp, Or.inl hlt⟩
  | inr t =>
    obtain ⟨hcalm, hon⟩ := hmove
    cases hact : act env (s.wait t) t with
    | none =>
      have hr : r = ((a.receive [] (s.wait t).closed, s.wait t), []) := by
        simp [r, submission, Machine.linked, manageClient, hact, sentBytes]
      rw [hr]
      -- the server waits
      refine ⟨(h.wait t).ends, by simp, by simp, Or.inr ⟨rfl, ?_, ?_⟩⟩
      · rintro ⟨hample, ⟨k, hhead⟩, hready⟩
        obtain ⟨r', hr'⟩ :=
          @Working.server_moves e on env a (s.wait t) w t k (h.wait t) hample hhead hready
        simp [hact] at hr'
      · rintro (c | t') hhelps
        · exact ⟨hhelps.1, hasStep_receive hhelps.2 _ _⟩
        · exact hhelps
    | some r' =>
      obtain ⟨s', es⟩ := r'
      have hr : r = ((a.receive (sentBytes es) s'.closed, s'), es.map Sum.inr) := by
        simp [r, submission, Machine.linked, manageClient, hact]
      have hserved := (h.wait t).server_step hcalm hact hpictures hon
      rw [hr, rights_map_inr, lefts_map_inr]
      refine ⟨hserved.working, by simp, hserved.serves, hserved.falls.imp id ?_⟩
      rintro ⟨heq, hhead, hstep, hready⟩
      refine ⟨heq, ?_, ?_⟩
      · rintro ⟨-, ⟨k, hk⟩, -⟩
        exact hhead k hk
      · rintro (c | t') hhelps
        · exact ⟨hhelps.1, hstep hhelps.2⟩
        · exact ⟨hhelps.1, hhelps.2.1, hready hhelps.2.2⟩

/-- With no step left both sides are at their end. -/
theorem Working.over (h : Working e on x.1 x.2 w) (hleft : e.left x = 0) :
    x.1.place = .closed ∧ x.2.phase = .done := by
  have hplace : e.placeLeft x.1 x.2 = 0 := (Nat.add_eq_zero_iff.mp hleft).2
  cases h.stage with
  | ended names place phase => exact ⟨place, phase⟩
  | looking place =>
    rcases place with hat | hat
    · simp [Errand.placeLeft, hat] at hplace
    · simp [Errand.placeLeft, hat] at hplace
  | sending f due names photo stage =>
    rw [stage.placeLeft_eq due] at hplace
    omega
  | picturing f p taken due names depicts stage =>
    rw [stage.placeLeft_eq depicts] at hplace
    omega
  | offering _ _ _ _ client | leaving _ client =>
    simp [Errand.placeLeft, client.place] at hplace
  | offered _ _ _ client | refused _ client =>
    simp only [Errand.placeLeft, client.place] at hplace
    omega
  | closing names place phase => simp [Errand.placeLeft, place, phase] at hplace

end Runs

/-- **A submission comes to its end.** On a connection that holds, where no call fails, the user
does not cancel and the client writes the blocks of a photo whole, however the steps of the two
sides are ordered and the stream is cut: enough rounds bring both sides to their end, and a
submission that has closed has marked every form that was due, and both stores hold them; a
server that takes photos holds theirs, too: each photo whose path has `FILENAMELEN` bytes or more,
unless photos are ignored. No other file of the client is changed, nothing else is announced, and
no other file or record of the server is touched. -/
theorem submission_completes (e : Errand) (on : Bool) (env : Env) (a : Apply) (s : Session)
    (w : World) (htidy : e.Tidy) (hpictures : e.Pictures on) (hnames : a.names = e.names)
    (hdisk : a.disk = e.disk) (hgoing : a.cancelled = false) (hclient : a.At .start [])
    (hserver : s.At .command []) (hhouses : e.Houses s) (herrno : s.errno ≠ .ewouldblock)
    (moves : List (Client.Turn ⊕ Turn))
    (hmoves : (submission e.opts env).Meets (SubmitMove on) (a, s) moves) :
    let r := (submission e.opts env).run (a, s) moves
    (Rounds photoMoves e.rounds moves → r.1.1.place = .closed ∧ r.1.2.phase = .done) ∧
    (r.1.1.place = .closed → ∀ f, e.Due f → e.Settled f r.1.1.disk (w.after e.cwd (rights r.2)) ∧
      (on = true → e.Pictured f (w.after e.cwd (rights r.2)))) ∧
    (∀ path, (∀ f, e.Due f → f.path ≠ path) → r.1.1.disk path = e.disk path) ∧
    (∀ start line, .command start line ∈ lefts r.2 → ∃ f, e.Due f ∧ e.Announces f line) ∧
    ∀ event ∈ rights r.2, event.IsEffect → ∃ f, e.Due f ∧ e.Serves on f event := by
  intro r
  have start : Working e on a s w := by
    refine ⟨hnames ▸ List.suffix_rfl, hgoing, fun name _ => by rw [hdisk], fun path _ => by
      rw [hdisk], fun f hdue => ?_, fun _ f hdue => ?_, hhouses, untimed_of_ne herrno,
      .looking (Or.inl hclient.place) (hclient.place ▸ hclient) hserver⟩
    · exact Or.inl (hnames ▸ hdue.entry.mem)
    · exact Or.inl (Or.inl (hnames ▸ hdue.entry.mem))
  -- the stores follow the events of the run
  let inv : Apply × Session → List (Sent ⊕ Event) → Prop := fun x es =>
    Working e on x.1 x.2 (w.after e.cwd (rights es)) ∧
      (∀ start line, .command start line ∈ lefts es → ∃ f, e.Due f ∧ e.Announces f line) ∧
      ∀ event ∈ rights es, event.IsEffect → ∃ f, e.Due f ∧ e.Serves on f event
  have step : ∀ x es i, SubmitMove on x i → inv x es →
      inv (submission e.opts env x i).1 (es ++ (submission e.opts env x i).2) := by
    rintro x es i hi ⟨hx, hsaid, hold⟩
    obtain ⟨hworking, hcommands, hnew, -⟩ := @Working.step e on env x _ i htidy hpictures hi hx
    refine ⟨by rwa [rights_append, World.after_append], fun start line hmem => ?_,
      fun event hmem => ?_⟩
    · rw [lefts_append] at hmem
      exact (List.mem_append.mp hmem).elim (hsaid start line) (hcommands start line)
    · rw [rights_append] at hmem
      exact (List.mem_append.mp hmem).elim (hold event) (hnew event)
  have hrun : inv r.1 ([] ++ r.2) :=
    (submission e.opts env).run_induction step ⟨start, by simp⟩ hmoves
  rw [List.nil_append] at hrun
  obtain ⟨hend, hannounces, hserves⟩ := hrun
  refine ⟨fun hrounds => ?_, fun hclosed f hdue => ⟨?_, fun hon => ?_⟩, hend.kept, hannounces,
    hserves⟩
  · have hadvances : (submission e.opts env).Advances (fun x => ∃ w, Working e on x.1 x.2 w)
        (SubmitMove on) e.left SubmitHelps := by
      rintro x i ⟨w, hx⟩ hi
      obtain ⟨hworking, -, -, hfall⟩ := Working.step htidy hpictures hi hx
      exact ⟨⟨_, hworking⟩, hfall⟩
    have available : ∀ x : Apply × Session, (∃ w, Working e on x.1 x.2 w) → 0 < e.left x →
        ∃ kind ∈ photoMoves, ∀ i, kind i → SubmitHelps x i := by
      rintro x ⟨w, hx⟩ hpos
      rcases hx.ready hpos with hstep | hready
      · refine ⟨_, List.mem_cons_self, ?_⟩
        rintro i ⟨c, rfl, hample⟩
        exact ⟨hample, hstep⟩
      · refine ⟨_, List.mem_cons_of_mem _ List.mem_cons_self, ?_⟩
        rintro i ⟨t, k, rfl, hample, hhead⟩
        exact ⟨hample, ⟨k, hhead⟩, hready⟩
    have hleft : e.left (a, s) ≤ e.rounds := by
      simp [Errand.left, Errand.rounds, hnames, Errand.placeLeft, hclient.place]
    exact hend.over ((hadvances.run available ⟨w, start⟩ hmoves).2 _ hleft hrounds)
  · rcases hend.settled f hdue with hmem | hhand | hsettled
    · rw [hend.stage.names_of_closed hclosed] at hmem
      exact absurd hmem List.not_mem_nil
    · rw [hclosed] at hhand
      cases hhand
    · exact hsettled
  · rcases hend.pictured hon f hdue with (hmem | hhand | ⟨hphoto, -⟩) | hpictured
    · rw [hend.stage.names_of_closed hclosed] at hmem
      exact absurd hmem List.not_mem_nil
    · rw [hclosed] at hhand
      cases hhand
    · rw [hclosed] at hphoto
      exact absurd hphoto id
    · exact hpictured

/-- The header of a student's form. -/
def sampleHead : Client.Header := ⟨ascii "Male", 1, ascii "A", 1, ascii "Science", 0⟩

/-- The lines of a form with a photo. -/
def sampleLines : List Bytes :=
  [sampleHead.print (ascii "A"), ascii "PHOTO /home/ayub/M_0002.jpg\n"]

/-- A photo that is larger than the buffer of the server. -/
def sampleScan : Photo where
  path := ascii "/home/ayub/M_0002.jpg"
  base := ascii "M_0002.jpg"
  data := List.replicate 2000 255
  named := by decide
  name := ⟨by decide, by decide, _, _, rfl, by decide⟩
  fits := by
    rw [List.length_replicate]
    decide
  size := by
    rw [List.length_replicate]
    exact Or.inr (by decide)

/-- A directory with a form that is marked, and one that is not, with its photo. -/
def sampleMailing : Errand where
  opts := ⟨sampleDir, false⟩
  names := [ascii "20050001A001.txt", ascii "20050001A002.txt"]
  disk path :=
    if path = sampleDir ++ ascii "20050001A001.txt" then
      some ({ sampleHead with sent := 1 }.print (ascii "A"))
    else if path = sampleDir ++ ascii "20050001A002.txt" then some sampleLines.flatten
    else if path = sampleScan.path then some sampleScan.data
    else none
  cwd := []
  year := 2005
  college := 1
  nodup := by decide
  name := by
    unfold IsName
    decide

theorem scannable_sampleHead : sampleHead.Scannable (ascii "A") :=
  ⟨by decide, by decide, by decide, by decide, by decide, Or.inl rfl, by decide⟩

theorem formLine_sampleLines : ∀ line ∈ sampleLines, FormLine line := by
  intro line hline
  simp only [sampleLines, List.mem_cons, List.not_mem_nil, or_false] at hline
  rcases hline with rfl | rfl
  · exact ⟨⟨ascii "Male:0001:A:0001:Science:0:A", by decide, by decide⟩, by decide, by decide,
      by decide, by decide⟩
  · exact ⟨⟨ascii "PHOTO /home/ayub/M_0002.jpg", by decide, by decide⟩, by decide, by decide,
      by decide, by decide⟩

theorem marks_sampleLines : ∃ marked, Marks sampleLines.flatten marked :=
  ⟨_, sampleHead, ascii "A", ascii "PHOTO /home/ayub/M_0002.jpg\n", scannable_sampleHead, rfl,
    by decide +kernel, rfl⟩

/-- The form that is not marked. -/
def sampleLetter : Form where
  path := sampleDir ++ ascii "20050001A002.txt"
  name := ascii "20050001A002.txt"
  lines := sampleLines
  suffix := by decide
  fits := by decide
  text := by decide
  line := formLine_sampleLines
  room := by decide
  mark garbage := by
    obtain ⟨marked, hmarks⟩ := marks_sampleLines
    exact ⟨marked, hmarks.markSent garbage⟩

theorem due_sampleLetter : sampleMailing.Due sampleLetter where
  entry := ⟨by decide, by decide⟩
  path := rfl
  disk := by decide +kernel
  marks := marks_sampleLines

/-- The other form is marked. -/
theorem isSent_sampleMailing {content : Bytes}
    (h : sampleMailing.disk (sampleMailing.path (ascii "20050001A001.txt")) = some content) :
    IsSent content := by
  have hmarks : Marks (sampleHead.print (ascii "A"))
      ({ sampleHead with sent := 1 }.print (ascii "A")) :=
    ⟨sampleHead, ascii "A", [], scannable_sampleHead, rfl, by simp, by simp⟩
  have hdisk : sampleMailing.disk (sampleMailing.path (ascii "20050001A001.txt")) =
      some ({ sampleHead with sent := 1 }.print (ascii "A")) := by decide +kernel
  rw [hdisk] at h
  exact Option.some.inj h ▸ hmarks.isSent

theorem names_sampleMailing {name : Bytes} (h : name ∈ sampleMailing.names) :
    name = ascii "20050001A001.txt" ∨ name = ascii "20050001A002.txt" := by
  simpa [sampleMailing] using h

theorem tidy_sampleMailing : sampleMailing.Tidy := by
  intro name hentry content hcontent
  rcases names_sampleMailing hentry.mem with rfl | rfl
  · exact Or.inl (isSent_sampleMailing hcontent)
  · exact Or.inr ⟨sampleLetter, due_sampleLetter, rfl⟩

/-- One form is due. -/
theorem eq_of_due_sampleMailing {f : Form} (h : sampleMailing.Due f) :
    f.name = sampleLetter.name ∧ f.lines = sampleLetter.lines := by
  rcases names_sampleMailing h.entry.mem with hname | hname
  · obtain ⟨marked, hmarks⟩ := h.marks
    have hdisk := h.disk
    rw [h.path, hname] at hdisk
    exact absurd (isSent_sampleMailing hdisk) hmarks.not_isSent
  · exact ⟨hname, (due_sampleLetter.same h hname).2⟩

theorem photoOf_sampleLetter : photoOf sampleLetter.lines = sampleScan.path := by
  decide +kernel

theorem depicts_sampleScan {f : Form} (h : sampleMailing.Due f) :
    sampleMailing.Depicts f sampleScan where
  encloses := ⟨rfl, by rw [(eq_of_due_sampleMailing h).2, photoOf_sampleLetter]; decide⟩
  path := by rw [(eq_of_due_sampleMailing h).2, photoOf_sampleLetter]
  disk := by decide +kernel
  apart name hentry := by
    rcases names_sampleMailing hentry.mem with rfl | rfl
    · decide +kernel
    · decide +kernel

theorem pictures_sampleMailing : sampleMailing.Pictures true where
  apart f hdue _ name hentry := by
    rw [(eq_of_due_sampleMailing hdue).2, photoOf_sampleLetter]
    rcases names_sampleMailing hentry.mem with rfl | rfl
    · decide
    · decide
  offered hoff := by cases hoff
  taken _ f hdue _ _ _ := ⟨sampleScan, depicts_sampleScan hdue⟩
  own _ f g _ _ hf hg _ _ _ := by
    rw [(eq_of_due_sampleMailing hf).1, (eq_of_due_sampleMailing hg).1]

/-- The client of the directory, behind its login. -/
def sampleMailer : Apply :=
  { sampleDirectory with names := sampleMailing.names, disk := sampleMailing.disk }

theorem meets_submitRound {opts : Options} {env : Env} (x : Apply × Session) (n : ℕ) :
    (submission opts env).Meets (SubmitMove true) x (List.replicate n photoRound).flatten := by
  refine (submission opts env).meets_iff_forall.mpr fun before i after hsplit => ?_
  have hi : i ∈ (List.replicate n photoRound).flatten := by simp [hsplit]
  obtain ⟨round, hround, hi⟩ := List.mem_flatten.mp hi
  rw [List.eq_of_mem_replicate hround] at hi
  simp only [photoRound, List.mem_cons, List.not_mem_nil, or_false] at hi
  rcases hi with rfl | rfl
  · exact ⟨⟨calm_photoBytes, calm_photoBytes⟩, rfl, rfl,
      fun data _ _ => writesBlock_photoBytes data rfl⟩
  · exact ⟨⟨calm_photoBytes, calm_photoBytes, rfl, rfl⟩, rfl⟩

theorem submission_completes_sample :
    let r := (submission sampleMailing.opts sampleEnv).run (sampleMailer, sampleHoused)
      (List.replicate sampleMailing.rounds photoRound).flatten
    let w := World.empty.after sampleMailing.cwd (rights r.2)
    (r.1.1.place = .closed ∧ r.1.2.phase = .done) ∧
      sampleMailing.Settled sampleLetter r.1.1.disk w ∧
      w.file (sampleMailing.file sampleScan.base) = some sampleScan.data := by
  obtain ⟨n, hn⟩ : ∃ n, sampleMailing.rounds = n := ⟨_, rfl⟩
  obtain ⟨hend, hsettled, -⟩ := submission_completes sampleMailing true sampleEnv sampleMailer
    sampleHoused World.empty tidy_sampleMailing pictures_sampleMailing rfl rfl rfl ⟨rfl, rfl, rfl⟩
    ⟨rfl, rfl, rfl⟩ ⟨trivial, rfl, rfl⟩ (by decide) (List.replicate n photoRound).flatten
    (meets_submitRound _ n)
  rw [hn] at hend ⊢
  have hclosed := hend (rounds_photoRound n)
  obtain ⟨hletter, hphoto⟩ := hsettled hclosed.1 sampleLetter due_sampleLetter
  exact ⟨hclosed, hletter, hphoto rfl sampleScan (depicts_sampleScan due_sampleLetter)⟩

end Esif.System
