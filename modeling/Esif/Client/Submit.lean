import Esif.Client.Apply

/-!
# Sending forms on a connection that holds

What the client does at each place of `apply_forms` when its calls return and the replies
it waits for have arrived.

## Main definitions

* `Apply.At` — the client is at a place, with bytes waiting
* `photoReturn` — what `send_photo` returns
* `formErr` — the `err` of `apply_form`

## Main results

* `Apply.openPhoto_calm`, `Apply.readPhotoReply_calm`, `Apply.sendBlock_whole`,
  `Apply.readPhotoResult_calm` — a photo
* `Apply.openForm_calm`, `Apply.sendLine_line`, `Apply.sendLine_dot`, `Apply.readFormReply_calm` —
  a form
-/

namespace Esif.Client

open Esif.CS Esif.Posix

/-- What `send_photo` returns, in the step it returns in. -/
def photoReturn (opts : Options) (a : Apply) (t : Turn) : Option ℤ :=
  match a.act opts t with
  | none => none
  | some (a', _) =>
    if a'.place ≠ .next then none
    else match a.place, a.wire.readline RBUFSIZE t.reads with
      | .photoResult, some (ret, line, _) =>
        if ret < 4 then some 1
        else if Authenticate.errval line = SUCCESS then some 0
        else some 1
      | _, _ => some 1

/-- The `err` of `apply_form`, in the step that settles it: the photo is sent behind it. -/
def formErr (opts : Options) (a : Apply) (t : Turn) : Option ℤ :=
  match a.act opts t with
  | none => none
  | some (a', _) =>
    match a.place, a'.place with
    | .named _, .body _ _ _ => none
    | .named _, _ => some 1
    | .body _ _ _, .body _ _ _ => none
    | .body _ _ _, .reply _ _ => none
    | .body _ content _, _ => some (if content = [] ∨ a.cancelled then 1 else 3)
    | .reply path _, _ =>
      match a.wire.readline RBUFSIZE t.reads with
      | none => none
      | some (ret, line, _) =>
        if ret = 4 ∧ strncmp line (ascii "500\n") ∧
          (a.openFile path t).isSome then some 0 else some 1
    | _, _ => none

namespace Apply

/-- The client is at a place on an open connection, and `bs` has arrived. -/
structure At (a : Apply) (place : ApplyPlace) (bs : Bytes) : Prop where
  place : a.place = place
  pending : a.wire.pending = bs
  eof : a.wire.conn.eof = false

/-- `a'` is `a` behind calls on its wire that took the bytes in front of `rest`. -/
structure Past (a : Apply) (rest : Bytes) (a' : Apply) : Prop where
  pending : a'.wire.pending = rest
  eof : a'.wire.conn.eof = a.wire.conn.eof
  disk : a'.disk = a.disk
  names : a'.names = a.names
  cancelled : a'.cancelled = a.cancelled

section Steps

variable {opts : Options} {a a' : Apply} {t : Turn} {sent : List Sent} {place place' : ApplyPlace}
  {bs rest line path data base : Bytes} {code : ℤ}

theorem At.receive (h : a.At place bs) (bs' : Bytes) : (a.receive bs' false).At place (bs ++ bs') :=
  ⟨h.place, by simp [Apply.receive, h.pending], by simp [Apply.receive, h.eof]⟩

theorem Past.at (h : a.Past rest a') (hat : a.At place bs) (hplace : a'.place = place') :
    a'.At place' rest :=
  ⟨hplace, h.pending, h.eof.trans hat.eof⟩

/-- An array is written whole. -/
theorem send_calm {label : Bytes → Sent} {written failed : ApplyPlace} (hcalm : t.Calm)
    (h : a.send bs label t.writes written failed = some (a', sent)) :
    a.Past a.wire.pending a' ∧ a'.place = written ∧ a'.pos = a.pos + bs.length ∧
      sent = [label bs] := by
  obtain ⟨⟨full, got, wire⟩, hwrite, heq⟩ := Option.map_eq_some_iff.mp h
  obtain ⟨rfl, rfl, hconn, htsd⟩ := Wire.writen_calm hcalm.writes hwrite
  obtain ⟨rfl, rfl⟩ : _ = a' ∧ _ = sent := by simpa using heq
  refine ⟨⟨?_, ?_, rfl, rfl, rfl⟩, rfl, rfl, rfl⟩
  · simp only [Wire.pending, hconn, htsd]
  · simp only [hconn]

theorem send_some {label : Bytes → Sent} {written failed : ApplyPlace} (hample : t.Ample)
    (hlen : bs.length ≤ MAXLINE) : ∃ r, a.send bs label t.writes written failed = some r := by
  obtain ⟨r, hr⟩ := Wire.writen_some (w := a.wire) hample.calm.writes (hlen.trans hample.writes)
  exact ⟨_, by rw [send, hr]; rfl⟩

/-! ### Replies -/

/-- A reply that fits the array the replies are read into. -/
structure Reply (code : ℤ) (line : Bytes) : Prop where
  reply : ReplyLine code line
  fits : line.length < RBUFSIZE

theorem readline_reply {ret : ℤ} {got : Bytes} {wire : Wire} (hcalm : t.Calm)
    (hreply : Reply code line) (hpending : a.wire.pending = line ++ rest)
    (h : a.wire.readline RBUFSIZE t.reads = some (ret, got, wire)) :
    ret = line.length ∧ got = line ∧ ({ a with wire := wire } : Apply).wire.pending = rest ∧
      wire.conn.eof = a.wire.conn.eof := by
  obtain ⟨⟨⟨body, rfl, hbody⟩, hleast, -, -⟩, hfits⟩ := hreply
  have hwhole : Lines.Whole isNewline (RBUFSIZE - 1) (body ++ [newline]) := by
    refine Lines.whole_line isNewline (fun b hb => ?_) rfl ?_
    · simpa [isNewline] using ne_of_mem_of_not_mem hb hbody
    · simp only [List.length_append, List.length_singleton] at hfits
      omega
  obtain ⟨hret, hgot, hrest, heof⟩ := Wire.readline_calm hcalm.reads hpending hwhole (by simp) h
  exact ⟨by simpa [isNewline] using hret, hgot, hrest, heof⟩

theorem readline_reply_some (hample : t.Ample) (hreply : Reply code line)
    (hpending : a.wire.pending = line ++ rest) :
    ∃ r, a.wire.readline RBUFSIZE t.reads = some r := by
  obtain ⟨⟨⟨body, rfl, -⟩, -, -, -⟩, hfits⟩ := hreply
  have hmax : RBUFSIZE < MAXLINE := by decide
  have hmoves := hample.reads
  simp only [List.length_append, List.length_singleton] at hfits
  refine @Wire.readline_some a.wire t.reads RBUFSIZE rest body hample.calm.reads ?_ (by omega)
    (by omega)
  rw [hpending, List.append_assoc]
  rfl

/-- Without a reply the client waits. -/
theorem readline_waits (hcalm : t.Calm) (hat : a.At place []) :
    a.wire.readline RBUFSIZE t.reads = none :=
  Wire.readline_nil (by decide) hcalm.reads hat.eof hat.pending

/-! ### Photos -/

theorem openPhoto_calm (hcalm : t.Calm) (hfile : a.openFile path t = some data)
    (hbase : basename path = some base) (h : a.openPhoto path t = some (a', sent)) :
    a.Past a.wire.pending a' ∧ a'.place = .photoReply data ∧
      a'.pos = a.pos + (binaryLine data.length base).length ∧
      sent = [.command a.pos (binaryLine data.length base)] := by
  simp only [openPhoto, hfile, hbase] at h
  exact send_calm hcalm h

/-- The photo is welcome. -/
theorem readPhotoReply_calm (hcalm : t.Calm) (hreply : Reply SUCCESS line)
    (hpending : a.wire.pending = line ++ rest) (h : a.readPhotoReply data t = some (a', sent)) :
    a.Past rest a' ∧ a'.place = .payload data ∧ a'.pos = a.pos ∧ sent = [] := by
  simp only [readPhotoReply, Option.bind_eq_bind, Option.bind_eq_some_iff] at h
  obtain ⟨⟨ret, got, wire⟩, hread, h⟩ := h
  obtain ⟨rfl, rfl, hrest, heof⟩ := readline_reply hcalm hreply hpending hread
  have hleast := hreply.reply.least
  dsimp only at h
  rw [if_neg (by omega), if_pos hreply.reply.errval] at h
  obtain ⟨rfl, rfl⟩ := Prod.mk.inj (Option.some.inj h)
  exact ⟨⟨hrest, heof, rfl, rfl, rfl⟩, rfl, rfl, rfl⟩

/-- The photo is refused. -/
theorem readPhotoReply_refused (hcalm : t.Calm) (hcode : code ≠ SUCCESS) (hreply : Reply code line)
    (hpending : a.wire.pending = line ++ rest) (h : a.readPhotoReply data t = some (a', sent)) :
    a.Past rest a' ∧ a'.place = .next ∧ a'.pos = a.pos ∧ sent = [] := by
  simp only [readPhotoReply, Option.bind_eq_bind, Option.bind_eq_some_iff] at h
  obtain ⟨⟨ret, got, wire⟩, hread, h⟩ := h
  obtain ⟨rfl, rfl, hrest, heof⟩ := readline_reply hcalm hreply hpending hread
  have hleast := hreply.reply.least
  dsimp only at h
  rw [if_neg (by omega), if_neg (by rw [hreply.reply.errval]; exact hcode)] at h
  obtain ⟨rfl, rfl⟩ := Prod.mk.inj (Option.some.inj h)
  exact ⟨⟨hrest, heof, rfl, rfl, rfl⟩, rfl, rfl, rfl⟩

/-- The `write` of a block writes all of it. -/
def WritesBlock (data : Bytes) (t : Turn) : Prop :=
  ∀ o ∈ t.writes.head?, ∃ k, o = .upTo k ∧ (data.take ERRORMSGSIZE).length ≤ max k 1

theorem sendBlock_whole (hwrites : WritesBlock data t) (hdata : data ≠ [])
    (h : a.sendBlock data t = some (a', sent)) :
    a.Past a.wire.pending a' ∧ a'.place = .payload (data.drop ERRORMSGSIZE) ∧
      a'.pos = a.pos + (data.take ERRORMSGSIZE).length ∧
      sent = [.data (data.take ERRORMSGSIZE)] := by
  rw [sendBlock, if_neg hdata] at h
  cases hw : t.writes with
  | nil => simp [hw] at h
  | cons o writes =>
    obtain ⟨k, rfl, hk⟩ := hwrites o (by simp [hw])
    rw [hw] at h
    dsimp only at h
    rw [List.take_of_length_le hk] at h
    obtain ⟨rfl, rfl⟩ := Prod.mk.inj (Option.some.inj h)
    exact ⟨⟨rfl, rfl, rfl, rfl, rfl⟩, rfl, rfl, rfl⟩

/-- Whatever `write` does, the client goes on behind the block. -/
theorem sendBlock_calm (h : a.sendBlock data t = some (a', sent)) :
    a'.wire.pending = a.wire.pending ∧ a'.wire.conn.eof = a.wire.conn.eof ∧
      (∀ start line, .command start line ∉ sent) ∧
      ∃ rest, (a'.place = .payload rest ∨ a'.place = .photoResult ∧ rest = []) ∧
        (sent.flatMap Sent.bytes).length + rest.length ≤ data.length := by
  unfold sendBlock at h
  split_ifs at h with hdata
  · obtain ⟨rfl, rfl⟩ := Prod.mk.inj (Option.some.inj h)
    exact ⟨rfl, rfl, by simp, [], Or.inr ⟨rfl, rfl⟩, by simp⟩
  · split at h
    · cases h
    · obtain ⟨rfl, rfl⟩ := Prod.mk.inj (Option.some.inj h)
      exact ⟨rfl, rfl, by simp, [], Or.inr ⟨rfl, rfl⟩, by simp⟩
    · next k _ _ =>
      obtain ⟨rfl, rfl⟩ := Prod.mk.inj (Option.some.inj h)
      refine ⟨rfl, rfl, by simp, data.drop ERRORMSGSIZE, Or.inl rfl, ?_⟩
      have hsplit := congrArg List.length (List.take_append_drop ERRORMSGSIZE data)
      rw [List.length_append] at hsplit
      simp only [List.flatMap_cons, Sent.bytes, List.flatMap_nil, List.append_nil]
      have hle : ((data.take ERRORMSGSIZE).take (max k 1)).length ≤
          (data.take ERRORMSGSIZE).length :=
        List.length_take_le' _ _
      omega

theorem sendBlock_nil (h : a.sendBlock [] t = some (a', sent)) :
    a.Past a.wire.pending a' ∧ a'.place = .photoResult ∧ a'.pos = a.pos ∧ sent = [] := by
  obtain ⟨rfl, rfl⟩ := Prod.mk.inj (Option.some.inj h)
  exact ⟨⟨rfl, rfl, rfl, rfl, rfl⟩, rfl, rfl, rfl⟩

theorem sendBlock_some (hwrites : WritesBlock data t) (hample : t.Ample) :
    ∃ r, a.sendBlock data t = some r := by
  unfold sendBlock
  split_ifs
  · exact ⟨_, rfl⟩
  · cases hw : t.writes with
    | nil =>
      have hmoves := hample.writes
      simp [hw, moves, MAXLINE] at hmoves
    | cons o writes =>
      obtain ⟨k, rfl, -⟩ := hwrites o (by simp [hw])
      exact ⟨_, rfl⟩

/-- The reply to the photo is read, whatever it is. -/
theorem readPhotoResult_reply (hcalm : t.Calm) (hreply : Reply code line)
    (hat : a.At .photoResult (line ++ rest)) (h : a.act opts t = some (a', sent)) :
    a.Past rest a' ∧ a'.place = .next ∧ a'.pos = a.pos ∧ sent = [] := by
  have hact : a.act opts t = a.readPhotoResult t := by simp [act, hat.place]
  obtain ⟨⟨ret, got, wire⟩, hread, heq⟩ := Option.map_eq_some_iff.mp (hact ▸ h)
  obtain ⟨-, -, hrest, heof⟩ := readline_reply hcalm hreply hat.pending hread
  obtain ⟨rfl, rfl⟩ := Prod.mk.inj heq
  exact ⟨⟨hrest, heof, rfl, rfl, rfl⟩, rfl, rfl, rfl⟩

/-- The photo has been taken. -/
theorem readPhotoResult_calm (hcalm : t.Calm) (hreply : Reply SUCCESS line)
    (hat : a.At .photoResult (line ++ rest)) (h : a.act opts t = some (a', sent)) :
    a.Past rest a' ∧ a'.place = .next ∧ a'.pos = a.pos ∧ sent = [] ∧
      photoReturn opts a t = some 0 := by
  obtain ⟨hpast, hplace, hpos, hsent⟩ := readPhotoResult_reply hcalm hreply hat h
  refine ⟨hpast, hplace, hpos, hsent, ?_⟩
  have hact : a.act opts t = a.readPhotoResult t := by simp [act, hat.place]
  obtain ⟨⟨ret, got, wire⟩, hread, -⟩ := Option.map_eq_some_iff.mp (hact ▸ h)
  obtain ⟨rfl, rfl, -⟩ := readline_reply hcalm hreply hat.pending hread
  have hleast := hreply.reply.least
  simp only [photoReturn, h, hat.place, hread]
  rw [if_neg (by simp [hplace]), if_neg (by omega), if_pos hreply.reply.errval]

/-! ### Forms -/

variable {content photo : Bytes}

/-- The form is opened, when the user does not cancel. -/
theorem openForm_calm (hcancelled : a.cancelled = false) (hcancel : t.cancel = false)
    (hfile : a.openFile path t = some content) (h : a.openForm path t = (a', sent)) :
    a.Past a.wire.pending a' ∧ a'.place = .body path content [] ∧ a'.pos = a.pos ∧ sent = [] := by
  have hsame : ({ a with cancelled := t.cancel } : Apply).openFile path t = some content := hfile
  simp only [openForm, hcancelled, Bool.false_eq_true, if_false, hsame] at h
  obtain ⟨rfl, rfl⟩ := Prod.mk.inj h
  exact ⟨⟨rfl, rfl, rfl, rfl, hcancel.trans hcancelled.symm⟩, rfl, rfl, rfl⟩

/-- A line of the file is sent. -/
theorem sendLine_line (hcalm : t.Calm) (hcancelled : a.cancelled = false)
    (hwhole : Lines.Whole isNewline (MAXLINE - 1) line) (hne : line ≠ []) (hnul : nul ∉ line)
    (h : a.sendLine opts path (line ++ rest) photo t = some (a', sent)) :
    a.Past a.wire.pending a' ∧ a'.place = .body path rest (scanPhoto line photo) ∧
      a'.pos = a.pos + line.length ∧ sent = [.data line] := by
  have hline : fgets (line ++ rest) = (line, rest) := by
    simp only [fgets, hwhole.piece_append, List.drop_left]
  rw [sendLine, if_neg (by simp [hne]), if_neg (by simp [hcancelled]), hline] at h
  simp only [cstr_eq_self hnul] at h
  exact send_calm hcalm h

/-- The line that ends the form is sent. -/
theorem sendLine_dot (hcalm : t.Calm) (h : a.sendLine opts path [] photo t = some (a', sent)) :
    a.Past a.wire.pending a' ∧ a'.place = .reply path photo ∧ a'.pos = a.pos + 2 ∧
      sent = [.data (ascii ".\n")] := by
  rw [sendLine, if_pos rfl] at h
  exact send_calm hcalm h

theorem sendLine_some (hample : t.Ample) : ∃ r, a.sendLine opts path content photo t = some r := by
  unfold sendLine
  split_ifs
  · exact send_some hample (by decide)
  · exact ⟨_, rfl⟩
  · refine send_some hample ?_
    have hpiece := Lines.piece_length_le isNewline (MAXLINE - 1) content
    have hcstr := (List.takeWhile_prefix (· != nul) (l := (fgets content).1)).length_le
    exact (hcstr.trans hpiece).trans (by decide)

/-- The reply to the form is read, and its flag is set. -/
theorem readFormReply_calm (hcalm : t.Calm) (hfile : ∃ content, a.openFile path t = some content ∧
      ∃ content', markSent content t.garbage = .ok content')
    (hreply : Reply SUCCESS line) (hline : line = ascii "500\n")
    (hat : a.At (.reply path photo) (line ++ rest)) (h : a.act opts t = some (a', sent)) :
    a'.wire.pending = rest ∧ a'.wire.conn.eof = false ∧ a'.pos = a.pos ∧ sent = [] ∧
      formErr opts a t = some 0 := by
  obtain ⟨content, hcontent, content', hmark⟩ := hfile
  have hact : a.act opts t = a.readFormReply opts path photo t := by simp [act, hat.place]
  rw [hact] at h
  have hread := h
  simp only [readFormReply, Option.bind_eq_bind, Option.bind_eq_some_iff] at hread
  obtain ⟨⟨ret, got, wire⟩, hread, hnext⟩ := hread
  obtain ⟨rfl, rfl, hrest, heof⟩ := readline_reply hcalm hreply hat.pending hread
  have hlen : (got.length : ℤ) = 4 := by rw [hline]; rfl
  have hword : strncmp got (ascii "500\n") = true := by rw [hline]; decide
  -- the file is there and its first line can be marked, so the mark is set
  have hmarked : ({ a with wire := wire } : Apply).mark path t =
      .ok { a with wire := wire, disk := Function.update a.disk path (some content') } := by
    have hsame : ({ a with wire := wire } : Apply).openFile path t = some content := hcontent
    simp only [mark, hsame, hmark]
    rfl
  dsimp only at hnext
  rw [if_neg (by simp [hlen]), if_pos hword, hmarked] at hnext
  have herr : formErr opts a t = some 0 := by
    simp only [formErr, hact, h, hat.place, hread]
    rw [if_pos ⟨hlen, hword, by simp [hcontent]⟩]
  -- whether a photo follows or not, nothing more is sent in this step
  have hafter := Option.some.inj hnext
  unfold afterForm at hafter
  split_ifs at hafter
  · obtain ⟨rfl, rfl⟩ := Prod.mk.inj hafter
    exact ⟨hrest, heof.trans hat.eof, rfl, rfl, herr⟩
  · obtain ⟨rfl, rfl⟩ := Prod.mk.inj hafter
    exact ⟨hrest, heof.trans hat.eof, rfl, rfl, herr⟩

theorem readFormReply_some (hample : t.Ample) (hreply : Reply code line)
    (hat : a.At (.reply path photo) (line ++ rest)) : ∃ r, a.act opts t = some r := by
  obtain ⟨⟨ret, got, wire⟩, hread⟩ := readline_reply_some hample hreply hat.pending
  simp only [act, hat.place, readFormReply, hread, Option.bind_eq_bind, Option.bind_some]
  split_ifs
  · exact ⟨_, rfl⟩
  · split <;> exact ⟨_, rfl⟩
  · exact ⟨_, rfl⟩

end Steps

end Apply

end Esif.Client
