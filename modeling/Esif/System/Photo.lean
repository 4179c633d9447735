import Esif.System.Exchange

/-!
# The exchange of a photo

`send_photo` at the command loop of `manage_client`, on a connection that holds.

## Main definitions

* `Photo` — a photo the server can take
* `PhotoStage` — where the two sides are, and what lies between them
* `PhotoMove` — a move on a connection that holds, of a client that writes its blocks
  whole

## Main results

* `PhotoStage.client_step`, `PhotoStage.server_step` — one step of either side
* `PhotoStage.run` — enough rounds bring the exchange to its end
* `photo_exchange` — the photo arrives, when every block is written whole
-/

namespace Esif.System

open Esif.CS Esif.Posix Esif.Server
open Esif.Client (Apply Options Sent photoReturn basename ERRORMSGSIZE)
open Esif.Client.Apply (Reply WritesBlock binaryLine)

/-! ### The command line of a photo -/

/-- A name the server keeps: it fits, it is one line and does not begin with a blank. -/
structure PhotoName (base : Bytes) : Prop where
  fits : base.length < MAXFILENAME
  bytes : IsText base
  head : ∃ b rest, base = b :: rest ∧ isspace b = false

section Line

variable {base : Bytes} {size : ℕ}

theorem binaryLine_eq (hsize : size < 2 ^ 31) :
    binaryLine size base = ascii "BINARY " ++ (decimal size ++ 32 :: (base ++ [newline])) := by
  have hint : toInt32 size = size := by
    rw [toInt32]
    omega
  have hprint : printInt (size : ℤ) = decimal size := by
    simp [printInt]
  have hblank : ascii " " = [32] := by decide
  rw [binaryLine, hint, hprint, hblank]
  simp

/-- The command fits the array of the server. -/
theorem binaryLine_body (hsize : size < 2 ^ 31) (hname : PhotoName base) :
    ∃ body, binaryLine size base = body ++ [newline] ∧ newline ∉ body ∧
    body.length < MAXLINE - 1 := by
  refine ⟨ascii "BINARY " ++ decimal size ++ 32 :: base, ?_, fun hmem => ?_, ?_⟩
  · rw [binaryLine_eq hsize]
    simp
  · simp only [List.mem_append, List.mem_cons] at hmem
    rcases hmem with (hword | hdigit) | hblank | hbase
    · exact absurd hword (by decide)
    · exact absurd (isdigit_of_mem_decimal hdigit) (by decide)
    · exact absurd hblank (by decide)
    · exact (hname.bytes newline hbase).2.1 rfl
  · have hdec : (decimal size).length ≤ 10 := length_decimal_le (by decide) (by omega)
    have hbase := hname.fits
    have hword : (ascii "BINARY ").length = 7 := by decide
    simp only [List.length_append, List.length_cons, hword]
    unfold MAXFILENAME at hbase
    unfold MAXLINE
    omega

theorem whole_binaryLine (hsize : size < 2 ^ 31) (hname : PhotoName base) :
    Lines.Whole isNewline (MAXLINE - 1) (binaryLine size base) := by
  obtain ⟨body, hline, hbody, hlen⟩ := binaryLine_body hsize hname
  rw [hline]
  refine Lines.whole_line isNewline (fun b hb => ?_) rfl hlen
  simpa [isNewline] using ne_of_mem_of_not_mem hb hbody

/-- The server reads back the size, and what stands behind it up to the end of the line. -/
theorem scanBinary_size (hsize : size < 2 ^ 31) (hbase : nul ∉ base) :
    scanBinary (cstr ((binaryLine size base).drop 7)) =
      (size, scanLine ((32 :: (base ++ [newline])).dropWhile isspace)) := by
  have hdrop : (binaryLine size base).drop 7 = decimal size ++ 32 :: (base ++ [newline]) := by
    rw [binaryLine_eq hsize]
    rfl
  have hcstr : cstr (decimal size ++ 32 :: (base ++ [newline])) =
      decimal size ++ 32 :: (base ++ [newline]) := by
    refine cstr_eq_self fun hmem => ?_
    simp only [List.mem_append, List.mem_cons] at hmem
    rcases hmem with hdigit | hblank | hmem | hend
    · exact absurd (isdigit_of_mem_decimal hdigit) (by decide)
    · exact absurd hblank (by decide)
    · exact hbase hmem
    · exact absurd hend (by decide)
  rw [hdrop, hcstr, scanBinary, scanInt_decimal_append hsize (by decide)]
  simp only [Prod.mk.injEq, and_true]
  omega

/-- The server reads back the size and the name. -/
theorem scanBinary_binaryLine (hsize : size < 2 ^ 31) (hname : PhotoName base) :
    scanBinary (cstr ((binaryLine size base).drop 7)) = (size, base) := by
  obtain ⟨b, rest, rfl, hb⟩ := hname.head
  have hline : scanLine ((32 :: (b :: rest ++ [newline])).dropWhile isspace) = b :: rest := by
    rw [List.dropWhile_cons_of_pos (by decide), List.cons_append,
      List.dropWhile_cons_of_neg (by simp [hb]), ← List.cons_append, scanLine,
      List.takeWhile_append_of_pos]
    · simp [carriageReturn, newline]
    · intro e he
      have hne := hname.bytes e he
      simp [hne.2.1, hne.2.2]
  rw [scanBinary_size hsize fun hmem => (hname.bytes nul hmem).1 rfl, hline]

end Line

/-! ### The stages of the exchange -/

/-- A photo that `accept_binary` gets right, under a name that fits. -/
structure Photo where
  path : Bytes
  base : Bytes
  data : Bytes
  named : basename path = some base
  name : PhotoName base
  fits : data.length < 2 ^ 31
  size : data = [] ∨ MAXINFOSIZE < data.length

/-- The client is behind its command line: it has still to send `rest`, and behind the
welcome `extra` has arrived. -/
inductive Sending (p : Photo) (a : Apply) (rest extra : Bytes) : Prop
  | welcome (whole : rest = p.data) (client : a.At (.photoReply p.data) (ebuf SUCCESS ++ extra))
  | blocks (client : a.At (.payload rest) extra)
  | sent (none : rest = []) (client : a.At .photoResult extra)

/-- Where the two sides are and what lies between them. `filename` is the server's name
of the photo, `file` the file it names. -/
inductive PhotoStage (p : Photo) (filename : Bytes) (file : Place) (q : Machine.Call Apply ℤ)
    (s : Session) (w : World) : Prop
  | asking (client : q.state.At (.photo p.path) []) (disk : q.state.disk p.path = some p.data)
      (running : q.ret = none) (server : s.At .command []) (named : s.txtdir ++ p.base = filename)
      (errno : s.errno ≠ .ewouldblock)
  | asked (client : q.state.At (.photoReply p.data) []) (running : q.ret = none)
      (server : s.At .command (binaryLine p.data.length p.base))
      (named : s.txtdir ++ p.base = filename) (errno : s.errno ≠ .ewouldblock)
  | opening (arrived rest : Bytes) (split : p.data = arrived ++ rest)
      (client : Sending p q.state rest []) (running : q.ret = none)
      (phase : s.phase = .image p.data.length) (holds : s.Holds arrived)
      (named : s.filename = filename)
  | receiving (got arrived rest : Bytes) (nleft i : ℕ) (split : p.data = got ++ (arrived ++ rest))
      (client : Sending p q.state rest []) (running : q.ret = none)
      (phase : s.phase = .payload nleft i got.length) (holds : s.Holds arrived)
      (left : nleft = arrived.length + rest.length)
      (block : nleft = 0 ∨ MAXINFOSIZE < nleft ∨ i = MAXINFOSIZE) (named : s.filename = filename)
      (written : w.file file = some got)
  | replying (client : Sending p q.state [] []) (running : q.ret = none)
      (phase : s.phase = .imageReply SUCCESS) (holds : s.Holds [])
      (written : w.file file = some p.data)
  | replied (client : Sending p q.state [] (ebuf SUCCESS)) (running : q.ret = none)
      (phase : s.phase = .command) (holds : s.Holds []) (written : w.file file = some p.data)
  | finished (client : q.state.At .next []) (returned : q.ret = some 0)
      (phase : s.phase = .command) (holds : s.Holds []) (written : w.file file = some p.data)

/-- The steps the client has left to take. -/
def photoClientLeft (p : Photo) (q : Machine.Call Apply ℤ) : ℕ :=
  match q.state.place with
  | .photo _ => p.data.length + 4
  | .photoReply data => data.length + 3
  | .payload rest => rest.length + 2
  | .photoResult => 1
  | _ => 0

/-- The steps the server has left to take. -/
def photoServerLeft (p : Photo) (q : Machine.Call Apply ℤ) (s : Session) : ℕ :=
  match s.phase with
  | .command =>
    if q.state.place = .photo p.path ∨ unread s.tsd s.conn ≠ [] then p.data.length + 4 else 0
  | .image size => size + 3
  | .payload nleft _ _ => nleft + 2
  | .imageReply _ => 1
  | _ => 0

/-- The client has something to do: a photo to open or to send, or a reply to read. -/
def ApplyReady (a : Apply) : Prop :=
  (∃ path, a.place = .photo path) ∨ (∃ data, a.place = .payload data) ∨ a.wire.pending ≠ []

/-- The server has something to do: bytes to read, or a step that reads nothing. -/
def PhotoReady (s : Session) : Prop :=
  unread s.tsd s.conn ≠ [] ∨
    s.phase ≠ .command ∧ ∀ nleft i offset, s.phase = .payload nleft i offset → nleft = 0

section Steps

variable {p : Photo} {filename : Bytes} {file : Place} {opts : Options} {env : Env} {cwd : Place}
  {q : Machine.Call Apply ℤ} {a a' : Apply} {s s' : Session} {w : World} {t : Turn}
  {c : Client.Turn} {es : List Event} {sent : List Sent} {rest extra bs : Bytes}

theorem Sending.receive (h : Sending p a rest extra) (bs : Bytes) :
    Sending p (a.receive bs false) rest (extra ++ bs) := by
  cases h with
  | welcome whole client =>
    refine .welcome whole ?_
    have hat := client.receive bs
    rwa [List.append_assoc] at hat
  | blocks client => exact .blocks (client.receive bs)
  | sent none client => exact .sent none (client.receive bs)

theorem Sending.not_photo (h : Sending p a rest extra) (path : Bytes) : a.place ≠ .photo path := by
  cases h with
  | welcome _ client => simp [client.place]
  | blocks client => simp [client.place]
  | sent _ client => simp [client.place]

/-- A step of the client while it sends the photo. -/
theorem Sending.step (hcalm : c.Calm)
    (hwrites : ∀ data, a.place = .payload data → data ≠ [] → WritesBlock data c)
    (h : Sending p a rest extra) (hact : a.act opts c = some (a', sent)) :
    (∃ rest', Sending p a' rest' extra ∧ rest = sent.flatMap Sent.bytes ++ rest' ∧
        photoReturn opts a c = none ∧ (∀ path, a'.place ≠ .photo path) ∧
        ∀ ret ret', photoClientLeft p ⟨a', ret'⟩ < photoClientLeft p ⟨a, ret⟩) ∨
      rest = [] ∧ a.At .photoResult extra := by
  have hreturn : ∀ {place}, a'.place = place → place ≠ .next → photoReturn opts a c = none := by
    rintro place rfl hplace
    simp [photoReturn, hact, hplace]
  cases h with
  | welcome whole client =>
    simp only [Apply.act, client.place] at hact
    obtain ⟨hpast, hplace, -, rfl⟩ :=
      Apply.readPhotoReply_calm hcalm reply_success client.pending hact
    refine .inl ⟨p.data, .blocks (hpast.at client hplace), by simp [whole],
      hreturn hplace (by simp),
      by simp [hplace], fun ret ret' => ?_⟩
    simp [photoClientLeft, client.place, hplace]
  | blocks client =>
    simp only [Apply.act, client.place] at hact
    by_cases hrest : rest = []
    · subst hrest
      obtain ⟨hpast, hplace, -, rfl⟩ := Apply.sendBlock_nil hact
      refine .inl ⟨[], .sent rfl ((client.pending ▸ hpast).at client hplace), rfl,
        hreturn hplace (by simp), by simp [hplace], fun ret ret' => ?_⟩
      simp [photoClientLeft, client.place, hplace]
    · obtain ⟨hpast, hplace, -, rfl⟩ :=
        Apply.sendBlock_whole (hwrites rest client.place hrest) hrest hact
      refine .inl ⟨rest.drop ERRORMSGSIZE, .blocks ((client.pending ▸ hpast).at client hplace), ?_,
        hreturn hplace (by simp), by simp [hplace], fun ret ret' => ?_⟩
      · simp [Sent.bytes]
      · have hpos := List.length_pos_iff.mpr hrest
        simp only [photoClientLeft, client.place, hplace, List.length_drop, ERRORMSGSIZE]
        omega
  | sent none client => exact .inr ⟨none, client⟩

/-- **A step of the client** takes the exchange on. -/
theorem PhotoStage.client_step (hcalm : c.Calm) (hok : c.ok = true)
    (hwrites : ∀ data, q.state.place = .payload data → data ≠ [] → WritesBlock data c)
    (h : PhotoStage p filename file q s w) (hret : q.ret = none)
    (hact : q.state.act opts c = some (a', sent)) :
    let q' : Machine.Call Apply ℤ := ⟨a', photoReturn opts q.state c⟩
    let s' := Session.receive (sent.flatMap Sent.bytes) false s
    PhotoStage p filename file q' s' w ∧ photoClientLeft p q' < photoClientLeft p q ∧
      photoServerLeft p q' s' = photoServerLeft p q s := by
  intro q' s'
  -- behind its last block the client moves only when the result is there
  have hwaits : ∀ {extra}, q.state.At .photoResult extra → extra ≠ [] := by
    rintro extra hat rfl
    simp [Apply.act, hat.place, Apply.readPhotoResult, Apply.readline_waits hcalm hat] at hact
  have hleft : ∀ {phase}, s.phase = phase → phase ≠ .command →
      photoServerLeft p q' s' = photoServerLeft p q s := by
    rintro phase rfl hphase
    have hsame : s'.phase = s.phase := rfl
    -- bytes that arrive count for the server only before its first command
    unfold photoServerLeft
    rw [hsame]
    split <;> first | rfl | contradiction
  cases h with
  | asking client disk running server named errno =>
    have hopen : q.state.openFile p.path c = some p.data := by simp [Apply.openFile, hok, disk]
    have hact' := hact
    simp only [Apply.act, client.place] at hact
    obtain ⟨hpast, hplace, -, rfl⟩ := Apply.openPhoto_calm hcalm hopen p.named hact
    have hreturn : photoReturn opts q.state c = none := by
      simp [photoReturn, hact', hplace]
    have hserver := at_receive server (binaryLine p.data.length p.base)
    refine ⟨.asked ((client.pending ▸ hpast).at client hplace) hreturn ?_ named errno, ?_, ?_⟩
    · simpa [s', Sent.bytes] using hserver
    · simp [photoClientLeft, q', hplace, client.place]
    · have hphase : s'.phase = .command := server.phase
      have hunread : unread s'.tsd s'.conn ≠ [] := by
        have hline := hserver.unread
        simp only [List.nil_append] at hline
        simp only [s', List.flatMap_cons, Sent.bytes, List.flatMap_nil, List.append_nil, hline]
        rw [binaryLine_eq p.fits]
        simp [ascii]
      simp only [photoServerLeft, hphase, server.phase]
      rw [if_pos (Or.inr hunread), if_pos (Or.inl client.place)]
  | asked client running server named errno =>
    simp [Apply.act, client.place, Apply.readPhotoReply, Apply.readline_waits hcalm client] at hact
  | opening arrived rest split client running phase holds named =>
    rcases client.step hcalm hwrites hact with ⟨rest', hrest', hsplit, hreturn, -, hlt⟩ | ⟨-, hat⟩
    · refine ⟨.opening (arrived ++ sent.flatMap Sent.bytes) rest' ?_ hrest' hreturn phase
        (holds_receive holds _) named, hlt _ _, hleft phase (by simp)⟩
      rw [split, hsplit, List.append_assoc]
    · exact absurd rfl (hwaits hat)
  | receiving got arrived rest nleft i split client running phase holds left block named written =>
    rcases client.step hcalm hwrites hact with ⟨rest', hrest', hsplit, hreturn, -, hlt⟩ | ⟨-, hat⟩
    · refine ⟨.receiving got (arrived ++ sent.flatMap Sent.bytes) rest' nleft i ?_ hrest' hreturn
        phase (holds_receive holds _) ?_ block named written, hlt _ _, hleft phase (by simp)⟩
      · rw [split, hsplit]
        simp only [List.append_assoc]
      · rw [left, hsplit]
        simp only [List.length_append]
        omega
    · exact absurd rfl (hwaits hat)
  | replying client running phase holds written =>
    rcases client.step hcalm hwrites hact with ⟨rest', hrest', hsplit, hreturn, -, hlt⟩ | ⟨-, hat⟩
    · obtain ⟨hnone, rfl⟩ := List.append_eq_nil_iff.mp hsplit.symm
      refine ⟨.replying hrest' hreturn phase ?_ written, hlt _ _, hleft phase (by simp)⟩
      simpa [s', hnone] using holds_receive holds []
    · exact absurd rfl (hwaits hat)
  | replied client running phase holds written =>
    have hunread : unread s.tsd s.conn = [] := (at_of_holds phase holds).unread
    have hphase : s'.phase = .command := phase
    rcases client.step hcalm hwrites hact with ⟨rest', hrest', hsplit, hreturn, hplace, hlt⟩ |
      ⟨-, hat⟩
    · obtain ⟨hnone, rfl⟩ := List.append_eq_nil_iff.mp hsplit.symm
      have hsame : s' = s := by simp [s', hnone]
      refine ⟨.replied hrest' hreturn phase (by rwa [hsame]) written, hlt _ _, ?_⟩
      rw [hsame]
      simp [photoServerLeft, phase, hunread, q', hplace, client.not_photo]
    · have hpending : q.state.At .photoResult (ebuf SUCCESS ++ []) := by rwa [List.append_nil]
      obtain ⟨hpast, hplace, -, rfl, hreturn⟩ :=
        Apply.readPhotoResult_calm hcalm reply_success hpending hact
      have hsame : s' = s := by simp [s']
      refine ⟨.finished (hpast.at hat hplace) hreturn phase (by rwa [hsame]) written, ?_, ?_⟩
      · simp [photoClientLeft, q', hplace, hat.place]
      · rw [hsame]
        simp [photoServerLeft, phase, hunread, q', hplace, hat.place]
  | finished client returned phase holds written =>
    simp [hret] at returned

/-- Time that passes does not change the stage. -/
theorem PhotoStage.wait (h : PhotoStage p filename file q s w) (t : Turn) :
    PhotoStage p filename file q (s.wait t) w := by
  cases h with
  | asking client disk running server named errno =>
    exact .asking client disk running (at_wait server t) named errno
  | asked client running server named errno =>
    exact .asked client running (at_wait server t) named errno
  | opening arrived rest split client running phase holds named =>
    exact .opening arrived rest split client running phase (holds_wait holds t) named
  | receiving got arrived rest nleft i split client running phase holds left block named written =>
    exact .receiving got arrived rest nleft i split client running phase (holds_wait holds t) left
      block named written
  | replying client running phase holds written =>
    exact .replying client running phase (holds_wait holds t) written
  | replied client running phase holds written =>
    exact .replied client running phase (holds_wait holds t) written
  | finished client returned phase holds written =>
    exact .finished client returned phase (holds_wait holds t) written

/-- The server takes the command, and welcomes the photo. -/
theorem PhotoStage.command_step (hcalm : t.Calm) (hon : t.acceptimage = true)
    (client : q.state.At (.photoReply p.data) []) (running : q.ret = none)
    (server : s.At .command (binaryLine p.data.length p.base))
    (named : s.txtdir ++ p.base = filename) (errno : s.errno ≠ .ewouldblock)
    (hact : readCommand s t = some (s', es)) :
    let q' := Call.receive (sentBytes es) q
    PhotoStage p filename file q' s' (w.after cwd es) ∧ s'.phase ≠ .done ∧
      photoServerLeft p q' s' < photoServerLeft p q s := by
  intro q'
  -- the `BINARY` line is read back as it was printed
  obtain ⟨b, rest, hb, -⟩ := p.name.head
  have hlen : 9 ≤ (binaryLine p.data.length p.base).length := by
    rw [binaryLine_eq p.fits]
    have hdec := List.length_pos_iff.mpr (decimal_ne_nil p.data.length)
    have hword : (ascii "BINARY ").length = 7 := by decide
    simp only [List.length_append, List.length_cons, hword]
    omega
  have hne : binaryLine p.data.length p.base ≠ [] := by
    rw [binaryLine_eq p.fits]
    simp [ascii]
  have hunread : unread s.tsd s.conn = binaryLine p.data.length p.base ++ [] := by
    rw [server.unread, List.append_nil]
  obtain ⟨hphase, hfilename, hpast, hsent, hworld⟩ :=
    readCommand_image hcalm.connected hunread (whole_binaryLine p.fits p.name) hne errno hlen
      (by rw [binaryLine_eq p.fits]; exact List.prefix_append _ _) hon
      (scanBinary_binaryLine p.fits p.name) (by simp [hb]) p.name.fits hact
  refine ⟨?_, by simp [hphase], ?_⟩
  · rw [hworld]
    refine .opening [] p.data rfl (.welcome rfl ?_) running hphase
      (holds_of_past server.eof hpast) (hfilename.trans named)
    simpa [q', Call.receive, hsent] using client.receive (ebuf SUCCESS)
  · have hunread : unread s.tsd s.conn ≠ [] := by rwa [server.unread]
    simp [photoServerLeft, hphase, server.phase, hunread]

/-- The server takes a block of the photo, or is interrupted, or has all of it. -/
theorem PhotoStage.payload_step {got arrived : Bytes} {nleft i : ℕ} (hcalm : t.Calm)
    (hfile : resolve cwd filename = file) (split : p.data = got ++ (arrived ++ rest))
    (client : Sending p q.state rest []) (running : q.ret = none)
    (phase : s.phase = .payload nleft i got.length) (holds : s.Holds arrived)
    (left : nleft = arrived.length + rest.length)
    (block : nleft = 0 ∨ MAXINFOSIZE < nleft ∨ i = MAXINFOSIZE) (named : s.filename = filename)
    (written : w.file file = some got)
    (hact : readPayload s t nleft i got.length = some (s', es)) :
    let q' := Call.receive (sentBytes es) q
    PhotoStage p filename file q' s' (w.after cwd es) ∧ s'.phase ≠ .done ∧
      (photoServerLeft p q' s' < photoServerLeft p q s ∨
        photoServerLeft p q' s' = photoServerLeft p q s ∧
          (∀ k, t.reads.head? ≠ some (.upTo k)) ∧ (PhotoReady s → PhotoReady s')) := by
  intro q'
  -- the counter never wraps: `nleft` is what is still to come
  have hlt : nleft < 2 ^ 64 := by
    have hfits := p.fits
    rw [split] at hfits
    simp only [List.length_append] at hfits
    omega
  obtain ⟨hfilename, ⟨hzero, hphase, hholds, rfl⟩ | ⟨hleft, hhead, hphase, hholds, rfl⟩ |
    ⟨bs, later, hbs, harrived, hholds, hphase, rfl⟩⟩ :=
    readPayload_holds hcalm holds (by omega) hlt block hact
  · obtain ⟨rfl, rfl⟩ : arrived = [] ∧ rest = [] :=
      ⟨List.eq_nil_of_length_eq_zero (by omega), List.eq_nil_of_length_eq_zero (by omega)⟩
    have hgot : p.data = got := by simpa using split
    refine ⟨.replying ?_ running hphase hholds (by rw [hgot]; exact written), by simp [hphase],
      .inl ?_⟩
    · simpa [q', Call.receive, sentBytes] using client.receive []
    · simp [photoServerLeft, phase, hphase]
  · refine ⟨.receiving got arrived rest nleft MAXINFOSIZE split ?_ running hphase hholds left
      (.inr (.inr rfl)) (hfilename.trans named) written, by simp [hphase],
      .inr ⟨by simp [photoServerLeft, phase, hphase], hhead, fun hready => ?_⟩⟩
    · simpa [q', Call.receive, sentBytes] using client.receive []
    · rcases hready with hunread | ⟨-, hnone⟩
      · rw [(at_of_holds phase holds).unread] at hunread
        exact .inl (by rwa [(at_of_holds hphase hholds).unread])
      · exact absurd (hnone _ _ _ phase) hleft
  · have hpos := List.length_pos_iff.mpr hbs
    have hlen : arrived.length = bs.length + later.length := by rw [harrived, List.length_append]
    refine ⟨.receiving (got ++ bs) later rest (nleft - bs.length) MAXINFOSIZE ?_ ?_ running ?_
      hholds ?_ (.inr (.inr rfl)) (hfilename.trans named) ?_, by simp [hphase], .inl ?_⟩
    · rw [split, harrived]
      simp only [List.append_assoc]
    · simpa [q', Call.receive, sentBytes] using client.receive []
    · rw [hphase, List.length_append]
    · omega
    · simp [World.after, World.apply, named, hfile, written, overwrite]
    · simp only [photoServerLeft, phase, hphase]
      omega

/-- **A step of the server** takes the exchange on, unless its `read` is interrupted. -/
theorem PhotoStage.server_step (hcalm : t.Calm) (hon : t.acceptimage = true)
    (hfile : resolve cwd filename = file) (h : PhotoStage p filename file q s w)
    (hact : act env s t = some (s', es)) :
    let q' := Call.receive (sentBytes es) q
    PhotoStage p filename file q' s' (w.after cwd es) ∧ s'.phase ≠ .done ∧
      photoClientLeft p q' = photoClientLeft p q ∧
      (photoServerLeft p q' s' < photoServerLeft p q s ∨
        photoServerLeft p q' s' = photoServerLeft p q s ∧
          (∀ k, t.reads.head? ≠ some (.upTo k)) ∧ (PhotoReady s → PhotoReady s')) := by
  intro q'
  have hclient : photoClientLeft p q' = photoClientLeft p q := rfl
  cases h with
  | asking client disk running server named errno =>
    simp [act, server.phase, readCommand_nil hcalm.connected server] at hact
  | asked client running server named errno =>
    simp only [act, server.phase] at hact
    obtain ⟨hstage, hdone, hlt⟩ :=
      PhotoStage.command_step hcalm hon client running server named errno hact
    exact ⟨hstage, hdone, hclient, .inl hlt⟩
  | opening arrived rest split client running phase holds named =>
    simp only [act, phase, Option.some.injEq] at hact
    simp only [openImage, hcalm.ok, if_true] at hact
    obtain ⟨rfl, rfl⟩ := Prod.mk.inj hact
    refine ⟨.receiving [] arrived rest p.data.length 0 (by simpa using split) ?_ running rfl
      ⟨holds.inq, holds.eof, holds.buf⟩ (by rw [split, List.length_append]) ?_ named ?_, by simp,
      hclient, .inl ?_⟩
    · simpa [q', Call.receive, sentBytes] using client.receive []
    · exact p.size.imp (fun h => by simp [h]) .inl
    · simp [World.after, World.apply, named, hfile]
    · simp [photoServerLeft, phase]
  | receiving got arrived rest nleft i split client running phase holds left block named written =>
    simp only [act, phase] at hact
    obtain ⟨hstage, hdone, hfall⟩ := PhotoStage.payload_step hcalm hfile split client running phase
      holds left block named written hact
    exact ⟨hstage, hdone, hclient, hfall⟩
  | replying client running phase holds written =>
    simp only [act, phase] at hact
    obtain ⟨hphase, hconn, htsd, hsent⟩ := replyImage_calm hcalm.connected hact
    have hholds : s'.Holds [] :=
      ⟨by rw [hconn, holds.inq], by rw [hconn, holds.eof], by rw [htsd, holds.buf]⟩
    have hworld : w.after cwd es = w := by
      obtain ⟨errno, sent, rfl, rfl⟩ := replyImage_cases hact
      rfl
    refine ⟨.replied ?_ running hphase hholds (by rw [hworld]; exact written), by simp [hphase],
      hclient, .inl ?_⟩
    · simpa [q', Call.receive, hsent] using client.receive (ebuf SUCCESS)
    · have hunread : unread s'.tsd s'.conn = [] := (at_of_holds hphase hholds).unread
      simp [photoServerLeft, phase, hphase, hunread, q', Call.receive, Apply.receive,
        client.not_photo]
  | replied client running phase holds written =>
    simp [act, phase, readCommand_nil hcalm.connected (at_of_holds phase holds)] at hact
  | finished client returned phase holds written =>
    simp [act, phase, readCommand_nil hcalm.connected (at_of_holds phase holds)] at hact

/-! ### Progress -/

/-- A client that sends the photo and is ready moves, when its calls may. -/
theorem Sending.moves (hample : c.Ample)
    (hwrites : ∀ data, a.place = .payload data → data ≠ [] → WritesBlock data c)
    (h : Sending p a rest extra) (hextra : extra = [] ∨ extra = ebuf SUCCESS)
    (hready : ApplyReady a) :
    ∃ r, a.act opts c = some r := by
  cases h with
  | welcome whole client =>
    obtain ⟨r, hr⟩ := Apply.readline_reply_some hample reply_success client.pending
    simp only [Apply.act, client.place, Apply.readPhotoReply, hr, Option.bind_eq_bind,
      Option.bind_some]
    split_ifs
    · exact ⟨_, rfl⟩
    · exact ⟨_, rfl⟩
    · exact ⟨_, rfl⟩
  | blocks client =>
    simp only [Apply.act, client.place]
    by_cases hrest : rest = []
    · exact ⟨_, by rw [hrest, Apply.sendBlock, if_pos rfl]⟩
    · exact Apply.sendBlock_some (hwrites rest client.place hrest) hample
  | sent none client =>
    rcases hextra with rfl | rfl
    · simp [ApplyReady, client.place, client.pending] at hready
    · have hpending : a.wire.pending = ebuf SUCCESS ++ [] := by rw [client.pending, List.append_nil]
      obtain ⟨r, hr⟩ := Apply.readline_reply_some hample reply_success hpending
      exact ⟨_, by rw [Apply.act, client.place]; simp only [Apply.readPhotoResult, hr]; rfl⟩

/-- A client that is ready moves, when its calls may. -/
theorem PhotoStage.client_moves (opts : Options) (hample : c.Ample) (hok : c.ok = true)
    (hwrites : ∀ data, q.state.place = .payload data → data ≠ [] → WritesBlock data c)
    (h : PhotoStage p filename file q s w) (hret : q.ret = none) (hready : ApplyReady q.state) :
    ∃ r, q.state.act opts c = some r := by
  cases h with
  | asking client disk running server named errno =>
    have hopen : q.state.openFile p.path c = some p.data := by simp [Apply.openFile, hok, disk]
    obtain ⟨body, hline, -, hlen⟩ := binaryLine_body p.fits p.name
    simp only [Apply.act, client.place, Apply.openPhoto, hopen, p.named]
    refine Apply.send_some hample ?_
    rw [hline, List.length_append, List.length_singleton]
    omega
  | asked client running server named errno =>
    simp [ApplyReady, client.place, client.pending] at hready
  | opening arrived rest split client running phase holds named =>
    exact client.moves hample hwrites (.inl rfl) hready
  | receiving got arrived rest nleft i split client running phase holds left block named written =>
    exact client.moves hample hwrites (.inl rfl) hready
  | replying client running phase holds written =>
    exact client.moves hample hwrites (.inl rfl) hready
  | replied client running phase holds written =>
    exact client.moves hample hwrites (.inr rfl) hready
  | finished client returned phase holds written => simp [hret] at returned

/-- A server that is ready moves, when its calls may. -/
theorem PhotoStage.server_moves (env : Env) {k : ℕ} (hample : t.Ample)
    (hhead : t.reads.head? = some (.upTo k))
    (h : PhotoStage p filename file q s w) (hready : PhotoReady s) : ∃ r, act env s t = some r := by
  cases h with
  | asking client disk running server named errno =>
    simp [PhotoReady, server.unread, server.phase] at hready
  | asked client running server named errno =>
    obtain ⟨body, hline, -, hlen⟩ := binaryLine_body p.fits p.name
    have hunread : unread s.tsd s.conn = body ++ newline :: [] := server.unread.trans hline
    simp only [act, server.phase]
    exact readCommand_some hample hunread hlen
  | opening arrived rest split client running phase holds named =>
    simp only [act, phase]
    exact ⟨_, rfl⟩
  | receiving got arrived rest nleft i split client running phase holds left block named written =>
    simp only [act, phase]
    refine readPayload_some hhead (hready.symm.imp (fun h => h.2 _ _ _ phase) fun h => ?_)
    rwa [unread, holds.buf, List.nil_append] at h
  | replying client running phase holds written =>
    simp only [act, phase]
    exact replyImage_some hample (by decide)
  | replied client running phase holds written =>
    simp [PhotoReady, (at_of_holds phase holds).unread, phase] at hready
  | finished client returned phase holds written =>
    simp [PhotoReady, (at_of_holds phase holds).unread, phase] at hready

/-- A client with bytes to send or a reply before it is ready. -/
theorem Sending.ready (h : Sending p a rest extra) (hleft : rest ≠ [] ∨ extra ≠ []) :
    ApplyReady a := by
  cases h with
  | welcome whole client =>
    refine .inr (.inr ?_)
    rw [client.pending]
    simp [ebuf]
  | blocks client => exact .inr (.inl ⟨rest, client.place⟩)
  | sent none client =>
    exact .inr (.inr (by rw [client.pending]; exact hleft.resolve_left (by simp [none])))

/-- Short of the end a side is ready. -/
theorem PhotoStage.ready (h : PhotoStage p filename file q s w)
    (hleft : 0 < photoClientLeft p q + photoServerLeft p q s) :
    q.ret = none ∧ ApplyReady q.state ∨ PhotoReady s := by
  cases h with
  | asking client disk running server named errno => exact .inl ⟨running, .inl ⟨_, client.place⟩⟩
  | asked client running server named errno =>
    refine .inr (.inl ?_)
    rw [server.unread, binaryLine_eq p.fits]
    simp [ascii]
  | opening arrived rest split client running phase holds named =>
    exact .inr (.inr (by simp [phase]))
  | receiving got arrived rest nleft i split client running phase holds left block named written =>
    by_cases hnone : nleft = 0
    · exact .inr (.inr (by simp [phase, hnone]))
    · by_cases harrived : arrived = []
      · refine .inl ⟨running, client.ready (.inl ?_)⟩
        rintro rfl
        simp [left, harrived] at hnone
      · exact .inr (.inl (by rwa [(at_of_holds phase holds).unread]))
  | replying client running phase holds written => exact .inr (.inr (by simp [phase]))
  | replied client running phase holds written =>
    exact .inl ⟨running, client.ready (.inr (by simp [ebuf]))⟩
  | finished client returned phase holds written =>
    simp [photoClientLeft, photoServerLeft, client.place, phase,
      (at_of_holds phase holds).unread] at hleft

end Steps

/-! ### Runs -/

/-- A move on a connection that holds, of a client that writes its blocks whole, or of a
server that takes photos. -/
def PhotoMove (x : Exchange) : Client.Turn ⊕ Turn → Prop
  | .inl c => c.Calm ∧ c.ok = true ∧
      ∀ data, x.1.state.place = .payload data → data ≠ [] → WritesBlock data c
  | .inr t => t.Calm ∧ t.acceptimage = true

/-- The moves that a round holds: one of each side, in which a whole line can be moved. -/
def photoMoves : List (Client.Turn ⊕ Turn → Prop) :=
  [fun i => ∃ c, i = .inl c ∧ c.Ample,
    fun i => ∃ t k, i = .inr t ∧ t.Ample ∧ t.reads.head? = some (.upTo k)]

/-- The steps both sides have left to take. -/
def photoLeft (p : Photo) (x : Exchange) : ℕ := photoClientLeft p x.1 + photoServerLeft p x.1 x.2.1

/-- The side that moves has something to do, and its calls may do it. -/
def PhotoHelps (x : Exchange) : Client.Turn ⊕ Turn → Prop
  | .inl c => c.Ample ∧ x.1.ret = none ∧ ApplyReady x.1.state
  | .inr t => t.Ample ∧ (∃ k, t.reads.head? = some (.upTo k)) ∧ PhotoReady x.2.1

section Runs

variable {p : Photo} {filename : Bytes} {file : Place} {opts : Options} {env : Env} {cwd : Place}
  {x : Exchange} {i : Client.Turn ⊕ Turn}

theorem ApplyReady.receive {a : Apply} (h : ApplyReady a) (bs : Bytes) :
    ApplyReady (a.receive bs false) := by
  rcases h with hphoto | hpayload | hpending
  · exact .inl hphoto
  · exact .inr (.inl hpayload)
  · refine .inr (.inr ?_)
    simpa [Apply.receive] using fun hnil => absurd hnil hpending

theorem PhotoStage.serving {q : Machine.Call Apply ℤ} {s : Session} {w : World}
    (h : PhotoStage p filename file q s w) : s.closed = false := by
  cases h with
  | asking _ _ _ server | asked _ _ server => simp [Session.closed, server.phase]
  | opening _ _ _ _ _ phase | receiving _ _ _ _ _ _ _ _ phase | replying _ _ phase
  | replied _ _ phase | finished _ _ phase => simp [Session.closed, phase]

/-- The exchange of a photo, step by step. -/
theorem photo_carries (hfile : resolve cwd filename = file) :
    Carries (photoReturn opts) opts env cwd (fun x => PhotoStage p filename file x.1 x.2.1 x.2.2)
      PhotoMove PhotoHelps (photoLeft p) where
  serving h := h.serving
  wait t h := by
    refine ⟨h.wait t, rfl, fun i hi => ?_, fun i hi => ?_⟩
    · cases i <;> exact hi
    · cases i <;> exact hi
  running hhelps := hhelps.2.1
  client_waits := by
    rintro a s w c h ⟨-, hok, hwrites⟩ hact
    refine ⟨by simp [photoReturn, hact], ?_⟩
    rintro ⟨hample, -, hready⟩
    obtain ⟨r, hr⟩ := h.client_moves opts hample hok hwrites rfl hready
    simp [hact] at hr
  client_acts := by
    rintro a a' s w c sent h ⟨hcalm, hok, hwrites⟩ hact
    obtain ⟨hstage, hclient, hserver⟩ := h.client_step hcalm hok hwrites rfl hact
    exact ⟨hstage, Nat.add_lt_add_of_lt_of_le hclient hserver.le⟩
  server_waits := by
    rintro q s w t h - hact ⟨hample, ⟨k, hk⟩, hready⟩
    obtain ⟨r, hr⟩ := h.server_moves env hample hk hready
    simp [hact] at hr
  server_acts := by
    rintro q s s' w t es h ⟨hcalm, hon⟩ hact
    obtain ⟨hstage, hdone, hclient, hfall⟩ := h.server_step hcalm hon hfile hact
    refine ⟨hstage, hdone, hfall.imp (fun hlt => Nat.add_lt_add_of_le_of_lt hclient.le hlt) ?_⟩
    rintro ⟨heq, hhead, hready⟩
    refine ⟨congrArg₂ (· + ·) hclient heq, ?_, ?_⟩
    · rintro ⟨-, ⟨k, hk⟩, -⟩
      exact hhead k hk
    · rintro (c | t') hj
      · exact ⟨hj.1, hj.2.1, hj.2.2.receive _⟩
      · exact ⟨hj.1, hj.2.1, hready hj.2.2⟩

/-- Enough rounds bring the exchange to its end. -/
theorem PhotoStage.run (hfile : resolve cwd filename = file)
    (h : PhotoStage p filename file x.1 x.2.1 x.2.2) {moves : List (Client.Turn ⊕ Turn)}
    (hmoves : (exchange (photoReturn opts) opts env cwd).Meets PhotoMove x moves) :
    let x' := ((exchange (photoReturn opts) opts env cwd).run x moves).1
    PhotoStage p filename file x'.1 x'.2.1 x'.2.2 ∧
      ∀ n, photoLeft p x ≤ n → Rounds photoMoves n moves → photoLeft p x' = 0 := by
  have available : ∀ x : Exchange, PhotoStage p filename file x.1 x.2.1 x.2.2 → 0 < photoLeft p x →
      ∃ kind ∈ photoMoves, ∀ i, kind i → PhotoHelps x i := by
    intro x hx hpos
    rcases hx.ready hpos with ⟨hret, hready⟩ | hready
    · refine ⟨_, List.mem_cons_self, ?_⟩
      rintro i ⟨c, rfl, hample⟩
      exact ⟨hample, hret, hready⟩
    · refine ⟨_, List.mem_cons_of_mem _ List.mem_cons_self, ?_⟩
      rintro i ⟨t, k, rfl, hample, hk⟩
      exact ⟨hample, ⟨k, hk⟩, hready⟩
  exact (photo_carries hfile).advances.run available h hmoves

/-- With no step left the exchange is over. -/
theorem PhotoStage.over {q : Machine.Call Apply ℤ} {s : Session} {w : World}
    (h : PhotoStage p filename file q s w) : (photoLeft p (q, s, w) = 0 → q.ret ≠ none) ∧
      ∀ ret, q.ret = some ret → ret = 0 ∧ q.state.place = .next ∧ s.phase = .command ∧
        w.file file = some p.data ∧ q.state.wire.pending = [] ∧ unread s.tsd s.conn = [] := by
  have hsending : ∀ {rest extra}, Sending p q.state rest extra → photoClientLeft p q ≠ 0 := by
    intro rest extra hsending
    cases hsending with
    | welcome _ client | blocks client | sent _ client => simp [photoClientLeft, client.place]
  have hgoes : q.ret = none → photoClientLeft p q ≠ 0 →
      (photoLeft p (q, s, w) = 0 → q.ret ≠ none) ∧ ∀ ret, q.ret = some ret → ret = 0 ∧
        q.state.place = .next ∧ s.phase = .command ∧ w.file file = some p.data ∧
        q.state.wire.pending = [] ∧ unread s.tsd s.conn = [] := by
    intro hret hleft
    refine ⟨fun hzero => absurd (Nat.add_eq_zero_iff.mp hzero).1 hleft, fun ret hsome => ?_⟩
    simp [hret] at hsome
  cases h with
  | asking client _ running | asked client running =>
    exact hgoes running (by simp [photoClientLeft, client.place])
  | opening _ _ _ client running | receiving _ _ _ _ _ _ client running
  | replying client running | replied client running => exact hgoes running (hsending client)
  | finished client returned phase holds written =>
    refine ⟨fun _ => by simp [returned], fun ret hret => ?_⟩
    obtain rfl : (0 : ℤ) = ret := Option.some.inj (returned.symm.trans hret)
    exact ⟨rfl, client.place, phase, written, client.pending, (at_of_holds phase holds).unread⟩

end Runs

/-- **Photo exchange.** A client about to send a photo, and a server in its command loop
that takes photos, moving in any order on a connection that holds, with any chunks: when
the photo is empty or larger than a whole buffer of the server, and the client's `write`
takes every block whole, then enough rounds let `send_photo` return; and where it has
returned, it has returned 0, the file of the server is the photo, both sides are in
command mode and no byte is unread. -/
theorem photo_exchange (opts : Options) (env : Env) (cwd : Place) (p : Photo) (a : Apply)
    (s : Session) (w : World) (hclient : a.At (.photo p.path) [])
    (hdisk : a.disk p.path = some p.data)
    (hserver : s.At .command []) (herrno : s.errno ≠ .ewouldblock)
    (moves : List (Client.Turn ⊕ Turn))
    (hmoves : (exchange (photoReturn opts) opts env cwd).Meets PhotoMove (⟨a, none⟩, s, w) moves) :
    let x := ((exchange (photoReturn opts) opts env cwd).run (⟨a, none⟩, s, w) moves).1
    (Rounds photoMoves (2 * (p.data.length + 4)) moves → x.1.ret ≠ none) ∧
    ∀ ret, x.1.ret = some ret → ret = 0 ∧ x.1.state.place = .next ∧ x.2.1.phase = .command ∧
      x.2.2.file (resolve cwd (s.txtdir ++ p.base)) = some p.data ∧
      x.1.state.wire.pending = [] ∧ unread x.2.1.tsd x.2.1.conn = [] := by
  have start : PhotoStage p (s.txtdir ++ p.base) (resolve cwd (s.txtdir ++ p.base)) ⟨a, none⟩ s w :=
    .asking hclient hdisk rfl hserver rfl herrno
  have hleft : photoLeft p (⟨a, none⟩, s, w) ≤ 2 * (p.data.length + 4) := by
    simp only [photoLeft, photoClientLeft, photoServerLeft, hclient.place, hserver.phase]
    split_ifs <;> omega
  obtain ⟨hstage, hrounds⟩ := @PhotoStage.run _ _ _ opts env cwd (⟨a, none⟩, s, w) rfl
    start _ hmoves
  obtain ⟨hover, hend⟩ := hstage.over
  exact ⟨fun h => hover (hrounds _ hleft h), hend⟩

/-- A client about to send the photo. -/
def sampleSender (data : Bytes) : Apply where
  place := .photo (ascii "/info/M_0001_A_0001_0.jpg")
  wire := { conn := { inq := [], eof := false } }
  pos := 0
  cancelled := false
  names := []
  disk := fun _ => some data
  buffer := []
  sent := 0

/-- A server in its command loop. -/
def sampleServing : Session :=
  { Session.init [] false 1120000000 [] [] with phase := .command, txtdir := ascii "/txt/" }

/-- Calls that move a whole buffer. -/
def photoBytes : List Outcome := List.replicate MAXLINE (.upTo MAXINFOSIZE)

def photoRound : List (Client.Turn ⊕ Turn) :=
  [.inl { reads := photoBytes, writes := photoBytes },
    .inr { reads := photoBytes, writes := photoBytes, acceptimage := true }]

theorem calm_photoBytes : Posix.Calm photoBytes := fun o ho => by
  rw [List.eq_of_mem_replicate ho]
  trivial

theorem moves_photoBytes : MAXLINE ≤ moves photoBytes := (moves_replicate _ _).ge

theorem writesBlock_photoBytes (data : Bytes) {c : Client.Turn} (hc : c.writes = photoBytes) :
    WritesBlock data c := by
  intro o ho
  rw [hc] at ho
  refine ⟨MAXINFOSIZE, List.eq_of_mem_replicate (List.mem_of_head? ho), ?_⟩
  rw [List.length_take]
  have hle : min ERRORMSGSIZE data.length ≤ ERRORMSGSIZE := min_le_left _ _
  exact hle.trans (by decide)

theorem meets_photoRound {m : Machine Exchange (Client.Turn ⊕ Turn) (Sent ⊕ Event)} (x : Exchange)
    (n : ℕ) : m.Meets PhotoMove x (List.replicate n photoRound).flatten := by
  refine Machine.meets_iff_forall.mpr fun before i after hsplit => ?_
  have hi : i ∈ (List.replicate n photoRound).flatten := by simp [hsplit]
  obtain ⟨round, hround, hi⟩ := List.mem_flatten.mp hi
  rw [List.eq_of_mem_replicate hround] at hi
  simp only [photoRound, List.mem_cons, List.not_mem_nil, or_false] at hi
  rcases hi with rfl | rfl
  · exact ⟨⟨calm_photoBytes, calm_photoBytes⟩, rfl, fun data _ _ => writesBlock_photoBytes data rfl⟩
  · exact ⟨⟨calm_photoBytes, calm_photoBytes, rfl, rfl⟩, rfl⟩

theorem rounds_photoRound (n : ℕ) : Rounds photoMoves n (List.replicate n photoRound).flatten := by
  refine rounds_replicate (fun kind hkind => ?_) n
  simp only [photoMoves, List.mem_cons, List.not_mem_nil, or_false] at hkind
  rcases hkind with rfl | rfl
  · exact ⟨_, List.mem_cons_self, _, rfl, ⟨calm_photoBytes, calm_photoBytes⟩, moves_photoBytes,
      moves_photoBytes⟩
  · exact ⟨_, List.mem_cons_of_mem _ List.mem_cons_self, _, MAXINFOSIZE, rfl,
      ⟨⟨calm_photoBytes, calm_photoBytes, rfl, rfl⟩, moves_photoBytes, moves_photoBytes⟩, rfl⟩

/-- A photo one byte larger than the buffer of the server. -/
def sampleLarge : Photo where
  path := ascii "/info/M_0001_A_0001_0.jpg"
  base := ascii "M_0001_A_0001_0.jpg"
  data := List.replicate 1025 7
  named := by decide
  name := ⟨by decide, by decide, _, _, rfl, by decide⟩
  fits := by
    rw [List.length_replicate]
    decide
  size := by
    rw [List.length_replicate]
    exact .inr (by decide)

/-- The exchange of a photo from its start. -/
def samplePhotoRun (data : Bytes) (moves : List (Client.Turn ⊕ Turn)) : Exchange :=
  ((exchange (photoReturn ⟨[], false⟩) ⟨[], false⟩ sampleEnv []).run
    (⟨sampleSender data, none⟩, sampleServing, World.empty) moves).1

theorem photo_exchange_sample :
    let x := samplePhotoRun sampleLarge.data
      (List.replicate (2 * (sampleLarge.data.length + 4)) photoRound).flatten
    x.1.ret ≠ none ∧ ∀ ret, x.1.ret = some ret →
      ret = 0 ∧ x.1.state.place = .next ∧ x.2.1.phase = .command ∧
        x.2.2.file (resolve [] (sampleServing.txtdir ++ sampleLarge.base)) = some sampleLarge.data ∧
        x.1.state.wire.pending = [] ∧ unread x.2.1.tsd x.2.1.conn = [] := by
  obtain ⟨n, hn⟩ : ∃ n, 2 * (sampleLarge.data.length + 4) = n := ⟨_, rfl⟩
  obtain ⟨hreturns, hend⟩ := photo_exchange ⟨[], false⟩ sampleEnv [] sampleLarge
    (sampleSender sampleLarge.data) sampleServing World.empty ⟨rfl, rfl, rfl⟩ rfl ⟨rfl, rfl, rfl⟩
    (by decide) (List.replicate n photoRound).flatten (meets_photoRound _ n)
  rw [hn] at hreturns ⊢
  exact ⟨hreturns (rounds_photoRound n), hend⟩

/-- A photo of one byte is refused: the server asks for no byte at all. A photo of 1025
bytes of whose first block only one byte is written leaves both sides waiting. -/
theorem photo_exchange_fails_sample :
    let small := samplePhotoRun [7] (List.replicate 6 photoRound).flatten
    let short := samplePhotoRun sampleLarge.data ((List.replicate 2 photoRound).flatten ++
      .inl { reads := photoBytes, writes := [.upTo 1] } :: (List.replicate 3 photoRound).flatten)
    (small.1.ret = some 1 ∧
      small.2.2.file (resolve [] (ascii "/txt/M_0001_A_0001_0.jpg")) = some [] ∧
      unread small.2.1.tsd small.2.1.conn = [7]) ∧
    short.1.ret = none ∧ short.1.state.place = .photoResult ∧ short.1.state.wire.pending = [] ∧
      short.2.1.phase = .payload 599 MAXINFOSIZE 426 ∧
      unread short.2.1.tsd short.2.1.conn = [] := by
  decide +kernel

end Esif.System
