import Mathlib.Data.List.Induction
import Esif.Server.Step

/-!
# Receiving a photo

`accept_binary` by itself: it opens the file, moves what it reads from the
connection into it, and returns. It keeps the size of its reads once less than a
whole buffer is left, so a read at the end may take bytes that lie behind the
photo, and the unsigned counter of the bytes left wraps.

## Main definitions

* `acceptBinary` — one turn of `accept_binary`
* `Exact` — it takes and writes no byte behind the photo, and returns 0 only for
  the whole of it
* `TakesWithin` — a read returns no more than is left
* `taken` — the bytes that some reads return in all
* `ChunksFit` — no read goes across the end of the photo

## Main results

* `takesWithin_iff_chunksFit` — where the reads return no more than is left
* `acceptBinary_exact_iff` — `accept_binary` is exact in just the runs whose reads fit
-/

namespace Esif.Server

open Esif.CS Esif.Posix

/-- `accept_binary`, one turn of its loop at a time; it stays where it has returned. -/
def acceptBinary : Machine Session Turn Event := fun s t =>
  match s.phase with
  | .image size => openImage s t size
  | .payload nleft i offset => (readPayload s t nleft i offset).getD (s, [])
  | _ => (s, [])

/-- The bytes written by a part of a run. -/
def written (es : List Event) : Bytes :=
  es.flatMap fun
    | .writeAt _ _ data => data
    | _ => []

/-- What `accept_binary` should have done, called in `s` for `size` bytes: the
counter is what is left, no byte behind the photo is taken or written, and 0 is
returned only when the photo has been written. -/
structure Exact (size : ℕ) (s : Session) (r : Session × List Event) : Prop where
  within : r.1.conn.pos ≤ s.conn.pos + size
  later : r.1.conn.inq = s.conn.inq.drop (r.1.conn.pos - s.conn.pos)
  writes : (written r.2).length ≤ size
  counter : ∀ nleft i offset, r.1.phase = .payload nleft i offset →
    nleft + (r.1.conn.pos - s.conn.pos) = size
  returned : r.1.phase = .imageReply SUCCESS →
    written r.2 = s.conn.inq.take size ∧ (written r.2).length = size

/-- The number of bytes a `read` returns that may return `k`. -/
def readSize (s : Session) (nleft i k : ℕ) : ℕ :=
  min (blockSize nleft i) (min (max k 1) s.conn.inq.length)

/-- A read returns no more than is left; and while a multiple of 2³² is left, the
stream does not end and no write fails. -/
def TakesWithin (s : Session) (t : Turn) : Prop :=
  ∀ nleft i offset k, s.phase = .payload nleft i offset → nleft ≠ 0 →
    t.reads.head? = some (.upTo k) → readSize s nleft i k ≤ nleft ∧
      (nleft % 2 ^ 32 = 0 →
        (s.conn.inq = [] → s.conn.eof = false) ∧ (s.conn.inq ≠ [] → t.ok = true))

/-- The turn has a `read` that returns, unless it has to wait. -/
def Turn.readsBytes (t : Turn) : Bool :=
  match t.reads with
  | .upTo _ :: _ => true
  | _ => false

/-- The bytes the `read` of a turn returns, as far as they are there: at most a whole buffer. -/
def Turn.chunk (t : Turn) : ℕ :=
  match t.reads with
  | .upTo k :: _ => min MAXINFOSIZE (max k 1)
  | _ => 0

/-- The bytes that the reads of some turns return in all, when `n` bytes are there. -/
def taken (n : ℕ) (ts : List Turn) : ℕ := min n (ts.map Turn.chunk).sum

/-- Neither call of the turn ends the loop: the `read` is interrupted at worst, and the `write`
behind it succeeds. -/
def Turn.goesOn (t : Turn) : Bool :=
  match t.reads with
  | [] => true
  | .fails e :: _ => e = .eintr
  | .upTo _ :: _ => t.ok

/-- The `read` of the turn `t` does not go across the end of the photo; and when the bytes in front
of it leave a multiple of 2³², the stream does not end and the `write` does not fail. -/
structure ChunkFits (size : ℕ) (c : Conn) (before : List Turn) (t : Turn) : Prop where
  within : taken c.inq.length (before ++ [t]) ≤ size
  result : (size - taken c.inq.length before) % 2 ^ 32 = 0 →
    (taken c.inq.length before = c.inq.length → c.eof = false) ∧
      (taken c.inq.length before < c.inq.length → t.ok = true)

/-- Every read that the loop comes to before it has the photo fits. A photo of one buffer or less is
not read at all. -/
def ReadsFit (size : ℕ) (c : Conn) (ts : List Turn) : Prop :=
  ∀ before t, before ++ [t] <+: ts → (∀ b ∈ before, b.goesOn = true) → t.readsBytes = true →
    MAXINFOSIZE < size → taken c.inq.length before < size → ChunkFits size c before t

/-- The first turn opens the file, the others fit: a condition on the size, the stream and what the
calls return. -/
def ChunksFit (size : ℕ) (c : Conn) : List Turn → Prop
  | [] => True
  | o :: ts => o.ok = true → ReadsFit size c ts

section

variable {env : Env} {s s' : Session} {t : Turn} {es : List Event} {nleft i offset k size : ℕ}

/-- `manage_client` runs `accept_binary`. -/
theorem manageClient_eq_acceptBinary
    (h : (∃ size, s.phase = .image size) ∨ ∃ nleft i offset, s.phase = .payload nleft i offset) :
    manageClient env s t = acceptBinary (s.wait t) t := by
  have hphase : (s.wait t).phase = s.phase := rfl
  rcases h with ⟨size, h⟩ | ⟨nleft, i, offset, h⟩
  · simp [manageClient, acceptBinary, act, hphase, h]
  · simp [manageClient, acceptBinary, act, hphase, h]

/-- What one `read` returns. -/
theorem read_upTo_eq (c : Conn) (n k : ℕ) :
    c.read n (.upTo k) =
      if n ≠ 0 ∧ c.inq = [] ∧ c.eof = false then none
      else
        let bs := c.inq.take (min n (max k 1))
        some (.data bs, { c with inq := c.inq.drop bs.length, pos := c.pos + bs.length }) := by
  unfold Conn.read
  by_cases hn : n = 0
  · simp [hn]
  · by_cases hinq : c.inq = []
    · cases heof : c.eof with
      | false => simp [hn, hinq]
      | true =>
        simp [hn, hinq]
        rw [← heof, ← hinq]
    · simp [hn, hinq]

/-- A turn whose `read` fails. -/
theorem readPayload_fails {e : Errno} (hleft : nleft ≠ 0)
    (hhead : t.reads.head? = some (.fails e)) :
    ∃ phase, readPayload s t nleft i offset = some ({ s with errno := e, phase := phase }, []) ∧
      (e = .eintr ∧ phase = .payload nleft (blockSize nleft i) offset ∨
        e ≠ .eintr ∧ phase = .imageReply E_ERROR) := by
  obtain ⟨rest, hreads⟩ := List.head?_eq_some_iff.mp hhead
  cases e with
  | eintr => exact ⟨_, by simp [readPayload, hleft, hreads, Conn.read], Or.inl ⟨rfl, rfl⟩⟩
  | ok | ewouldblock | other =>
    exact ⟨_, by simp [readPayload, hleft, hreads, Conn.read], Or.inr ⟨by decide, rfl⟩⟩

/-- A turn whose `read` returns bytes, or the end of the stream. -/
theorem readPayload_upTo (hleft : nleft ≠ 0) (hhead : t.reads.head? = some (.upTo k))
    (hgoes : ¬ (blockSize nleft i ≠ 0 ∧ s.conn.inq = [] ∧ s.conn.eof = false)) :
    let m := readSize s nleft i k
    let bs := s.conn.inq.take m
    ∃ s' es, readPayload s t nleft i offset = some (s', es) ∧ s.conn.Took bs s'.conn ∧
      (m = 0 ∧ s'.phase = .imageReply (imageResult nleft) ∧ es = [] ∨
        m ≠ 0 ∧ t.ok = true ∧
          s'.phase = .payload ((nleft + (2 ^ 64 - m)) % 2 ^ 64) (blockSize nleft i) (offset + m) ∧
          es = [.writeAt s.filename offset bs] ∨
        m ≠ 0 ∧ t.ok = false ∧ s'.phase = .imageReply (imageResult nleft) ∧
          es = [.writeAt s.filename offset (bs.take t.kept)]) := by
  intro m bs
  obtain ⟨rest, hreads⟩ := List.head?_eq_some_iff.mp hhead
  have hbs : s.conn.inq.take (min (blockSize nleft i) (max k 1)) = bs := by
    rw [List.take_eq_take_min]
    simp only [bs, m, readSize, min_assoc]
  have hlen : bs.length = m := by
    simp only [bs, List.length_take, m, readSize]
    omega
  obtain ⟨conn, htook, hread⟩ : ∃ conn, s.conn.Took bs conn ∧
      s.conn.read (blockSize nleft i) (.upTo k) = some (.data bs, conn) := by
    refine ⟨{ s.conn with inq := s.conn.inq.drop m, pos := s.conn.pos + m },
      ⟨List.take_append_drop m _, rfl, by rw [hlen]⟩, ?_⟩
    rw [read_upTo_eq, if_neg hgoes, hbs, ← hlen]
  -- a `read` of no bytes is taken for the end of the stream
  by_cases hm : m = 0
  · rw [List.eq_nil_of_length_eq_zero (hlen.trans hm)] at htook hread ⊢
    obtain rfl := htook.eq_of_nil
    refine ⟨{ s with phase := .imageReply (imageResult nleft) }, [], ?_, htook,
      Or.inl ⟨hm, rfl, rfl⟩⟩
    simp only [readPayload, if_neg hleft, hreads, hread]
  · obtain ⟨b, tail, hcons⟩ : ∃ b tail, bs = b :: tail := by
      refine List.exists_cons_of_ne_nil fun hnil => hm ?_
      rw [← hlen, hnil, List.length_nil]
    rw [hcons] at hlen htook hread ⊢
    cases hok : t.ok with
    -- the counter wraps where the block is longer than what is left
    | true =>
      refine ⟨{ s with
          conn := conn
          phase := .payload ((nleft + (2 ^ 64 - m)) % 2 ^ 64) (blockSize nleft i) (offset + m) },
        _, ?_, htook, Or.inr (Or.inl ⟨hm, rfl, rfl, rfl⟩)⟩
      simp only [readPayload, if_neg hleft, hreads, hread, hok, if_true, hlen]
    | false =>
      refine ⟨{ s with
          conn := conn, errno := s.writeErrno t, phase := .imageReply (imageResult nleft) },
        _, ?_, htook, Or.inr (Or.inr ⟨hm, rfl, rfl, rfl⟩)⟩
      simp only [readPayload, if_neg hleft, hreads, hread, hok, Bool.false_eq_true, if_false,
        Session.writeErrno]

theorem blockSize_le {nleft i : ℕ} (hi : i ≤ MAXINFOSIZE) : blockSize nleft i ≤ MAXINFOSIZE := by
  unfold blockSize
  split
  · exact le_rfl
  · exact hi

theorem written_append (es es' : List Event) : written (es ++ es') = written es ++ written es' := by
  simp [written]

@[simp] theorem written_nil : written [] = [] := rfl

@[simp] theorem written_openTrunc (path : Bytes) : written [.openTrunc path] = [] := rfl

@[simp] theorem written_writeAt (path : Bytes) (offset : ℕ) (data : Bytes) :
    written [.writeAt path offset data] = data := by simp [written]

/-- Where `accept_binary` is, called in `s` for `size` bytes: before it opens its file,
in its loop with `bs` taken and written, or behind its return. -/
inductive Accepting (size : ℕ) (s : Session) (r : Session × List Event) : Prop
  | opening (phase : r.1.phase = .image size) (conn : r.1.conn = s.conn) (none : r.2 = [])
  | looping (nleft i offset : ℕ) (bs : Bytes) (phase : r.1.phase = .payload nleft i offset)
      (took : s.conn.Took bs r.1.conn) (left : nleft + bs.length = size) (block : i ≤ MAXINFOSIZE)
      (wrote : written r.2 = bs)
  | returned (code : ℕ) (bs : Bytes) (phase : r.1.phase = .imageReply code)
      (took : s.conn.Took bs r.1.conn) (within : bs.length ≤ size)
      (wrote : (written r.2).length ≤ bs.length)
      (whole : code = SUCCESS → written r.2 = bs ∧ bs.length = size)

variable {r : Session × List Event}

theorem Accepting.exact (h : Accepting size s r) : Exact size s r := by
  have htook : ∀ {bs}, s.conn.Took bs r.1.conn →
      r.1.conn.pos = s.conn.pos + bs.length ∧ r.1.conn.inq = s.conn.inq.drop bs.length ∧
        bs = s.conn.inq.take bs.length := by
    intro bs htook
    refine ⟨htook.pos, ?_, ?_⟩
    · rw [← htook.stream, List.drop_left' rfl]
    · rw [← htook.stream, List.take_left' rfl]
  cases h with
  | opening phase conn none =>
    refine ⟨by rw [conn]; omega, by simp [conn], by simp [none], ?_, ?_⟩
    · intro nleft i offset hphase
      simp [phase] at hphase
    · intro hphase
      simp [phase] at hphase
  | looping nleft i offset bs phase took left block wrote =>
    obtain ⟨hpos, hinq, hbs⟩ := htook took
    have hdiff : r.1.conn.pos - s.conn.pos = bs.length := by omega
    refine ⟨by omega, by rw [hdiff, hinq], by rw [wrote]; omega, ?_, ?_⟩
    · intro nleft' i' offset' hphase
      obtain ⟨rfl, -, -⟩ : nleft = nleft' ∧ i = i' ∧ offset = offset' := by
        simpa [phase] using hphase
      omega
    · intro hphase
      simp [phase] at hphase
  | returned code bs phase took within wrote whole =>
    obtain ⟨hpos, hinq, hbs⟩ := htook took
    have hdiff : r.1.conn.pos - s.conn.pos = bs.length := by omega
    refine ⟨by omega, by rw [hdiff, hinq], by omega, ?_, ?_⟩
    · intro nleft i offset hphase
      simp [phase] at hphase
    · intro hphase
      obtain ⟨hwrote, hlen⟩ := whole (by simpa [phase] using hphase)
      rw [hwrote, ← hlen]
      exact ⟨hbs, rfl⟩

theorem imageResult_eq_success_iff : imageResult nleft = SUCCESS ↔ nleft % 2 ^ 32 = 0 := by
  unfold imageResult
  split
  · next h => exact iff_of_true rfl h
  · next h => exact iff_of_false (by decide) h

theorem takesWithin_iff (hphase : s.phase = .payload nleft i offset) (hleft : nleft ≠ 0)
    (hhead : t.reads.head? = some (.upTo k)) :
    TakesWithin s t ↔ readSize s nleft i k ≤ nleft ∧ (nleft % 2 ^ 32 = 0 →
      (s.conn.inq = [] → s.conn.eof = false) ∧ (s.conn.inq ≠ [] → t.ok = true)) := by
  refine ⟨fun h => h nleft i offset k hphase hleft hhead, fun h => ?_⟩
  intro nleft' i' offset' k' hphase' _ hhead'
  obtain ⟨rfl, rfl, rfl⟩ : nleft = nleft' ∧ i = i' ∧ offset = offset' := by
    simpa [hphase] using hphase'
  obtain rfl : k = k' := by simpa [hhead] using hhead'
  exact h

theorem takesWithin_of_not_upTo (h : ∀ k, t.reads.head? ≠ some (.upTo k)) : TakesWithin s t :=
  fun _ _ _ k _ _ hhead => absurd hhead (h k)

theorem acceptBinary_eq {next : Session × List Event} (hphase : s.phase = .payload nleft i offset)
    (h : readPayload s t nleft i offset = some next) : acceptBinary s t = next := by
  simp [acceptBinary, hphase, h]

theorem acceptBinary_none (hphase : s.phase = .payload nleft i offset)
    (h : readPayload s t nleft i offset = none) : acceptBinary s t = (s, []) := by
  simp [acceptBinary, hphase, h]

/-- A turn of the loop that reads: where it leads when the read is within what is
left, and what an exact one has read. -/
theorem Accepting.read (hphase : r.1.phase = .payload nleft i offset) {bs : Bytes}
    (htook : s.conn.Took bs r.1.conn) (hleft : nleft + bs.length = size)
    (hsize : size < 2 ^ 64) (hblock : i ≤ MAXINFOSIZE) (hwrote : written r.2 = bs) (hne : nleft ≠ 0)
    (hhead : t.reads.head? = some (.upTo k))
    (hgoes : ¬ (blockSize nleft i ≠ 0 ∧ r.1.conn.inq = [] ∧ r.1.conn.eof = false)) :
    let next := acceptBinary r.1 t
    (TakesWithin r.1 t → Accepting size s (next.1, r.2 ++ next.2)) ∧
      (Exact size s (next.1, r.2 ++ next.2) → TakesWithin r.1 t) := by
  obtain ⟨s', es, hread, htook', hcases⟩ := @readPayload_upTo r.1 t nleft i offset k hne hhead hgoes
  have hblock' := @blockSize_le nleft i hblock
  have hmax : MAXINFOSIZE = 1024 := rfl
  have hm : readSize r.1 nleft i k ≤ blockSize nleft i := min_le_left _ _
  have hlen : (r.1.conn.inq.take (readSize r.1 nleft i k)).length = readSize r.1 nleft i k := by
    rw [List.length_take]
    simp only [readSize]
    omega
  have hinq : readSize r.1 nleft i k ≠ 0 → r.1.conn.inq ≠ [] := by
    intro hpos hnil
    simp [readSize, hnil] at hpos
  have htaken := htook.trans htook'
  have hpos := htaken.pos
  simp only [List.length_append, hlen] at hpos
  rw [acceptBinary_eq hphase hread]
  rcases hcases with ⟨hzero, hphase', rfl⟩ | ⟨hpos0, hok, hphase', rfl⟩ | ⟨hpos0, hok, hphase', rfl⟩
  · -- nothing is read: the stream has ended, or nothing was asked for
    rw [takesWithin_iff hphase hne hhead]
    rw [hzero, List.take_zero] at htaken
    rw [List.append_nil] at htaken
    constructor
    · rintro ⟨-, hmany⟩
      refine .returned _ bs hphase' htaken (by omega) (by simp [hwrote]) fun hcode => ?_
      have hmod := imageResult_eq_success_iff.mp hcode
      -- `SUCCESS` with bytes left: a multiple of `2 ^ 32`, so a whole buffer was asked for
      have hbig : blockSize nleft i = MAXINFOSIZE := if_pos (by omega)
      have hnil : r.1.conn.inq = [] := by
        by_contra hne'
        have hlength := List.length_pos_iff.mpr hne'
        simp only [readSize, hbig] at hzero
        omega
      exact absurd ⟨by rw [hbig]; decide, hnil, (hmany hmod).1 hnil⟩ hgoes
    · intro hexact
      refine ⟨by omega, fun hmod => ?_⟩
      have hret := hexact.returned (by rw [hphase', imageResult_eq_success_iff.mpr hmod])
      simp only [List.append_nil, hwrote] at hret
      omega
  · -- a block is read and written
    rw [takesWithin_iff hphase hne hhead]
    constructor
    · rintro ⟨hle, -⟩
      have hmod : (nleft + (2 ^ 64 - readSize r.1 nleft i k)) % 2 ^ 64 =
          nleft - readSize r.1 nleft i k := by omega
      refine .looping _ _ _ _ (hphase'.trans (by rw [hmod])) htaken ?_ hblock' ?_
      · simp only [List.length_append, hlen]
        omega
      · simp [written_append, hwrote]
    · intro hexact
      have hcounter := hexact.counter _ _ _ hphase'
      simp only at hcounter
      exact ⟨by omega, fun _ => ⟨fun hnil => absurd hnil (hinq hpos0), fun _ => hok⟩⟩
  · -- a block is read and not written
    rw [takesWithin_iff hphase hne hhead]
    have hshort : (written (r.2 ++ [.writeAt r.1.filename offset
        ((r.1.conn.inq.take (readSize r.1 nleft i k)).take t.kept)])).length ≤
          bs.length + readSize r.1 nleft i k := by
      rw [written_append, written_writeAt, hwrote, List.length_append, List.length_take, hlen]
      omega
    constructor
    · rintro ⟨hle, hmany⟩
      refine .returned _ _ hphase' htaken ?_ ?_ fun hcode => ?_
      · simp only [List.length_append, hlen]
        omega
      · simp only [List.length_append, hlen] at hshort ⊢
        exact hshort
      · have hwrites := (hmany (imageResult_eq_success_iff.mp hcode)).2 (hinq hpos0)
        simp [hok] at hwrites
    · intro hexact
      have hwithin := hexact.within
      simp only at hwithin
      refine ⟨by omega, fun hmod => ?_⟩
      have hret := hexact.returned (by rw [hphase', imageResult_eq_success_iff.mpr hmod])
      have hwhole := hret.2
      simp only at hwhole
      omega

/-- A turn of the loop: where it leads, and what it has read. -/
theorem Accepting.turn (hsize : size < 2 ^ 64) (hphase : r.1.phase = .payload nleft i offset)
    {bs : Bytes} (htook : s.conn.Took bs r.1.conn) (hleft : nleft + bs.length = size)
    (hblock : i ≤ MAXINFOSIZE) (hwrote : written r.2 = bs) :
    let next := acceptBinary r.1 t
    (TakesWithin r.1 t → Accepting size s (next.1, r.2 ++ next.2)) ∧
      (Exact size s (next.1, r.2 ++ next.2) → TakesWithin r.1 t) := by
  have stay : acceptBinary r.1 t = (r.1, []) →
      Accepting size s ((acceptBinary r.1 t).1, r.2 ++ (acceptBinary r.1 t).2) := by
    intro heq
    rw [heq]
    exact .looping nleft i offset bs hphase htook hleft hblock (by simpa using hwrote)
  -- the photo is there: the loop is left without a `read`
  by_cases hzero : nleft = 0
  · have hread : readPayload r.1 t nleft i offset =
        some ({ r.1 with phase := .imageReply SUCCESS }, []) := if_pos hzero
    rw [acceptBinary_eq hphase hread]
    refine ⟨fun _ => .returned SUCCESS bs rfl htook (by omega) (by simp [hwrote])
      fun _ => ⟨by simpa using hwrote, by omega⟩, fun _ => ?_⟩
    intro nleft' i' offset' k hphase' hne
    obtain ⟨rfl, -, -⟩ : nleft = nleft' ∧ i = i' ∧ offset = offset' := by
      simpa [hphase] using hphase'
    exact absurd hzero hne
  cases hhead : t.reads.head? with
  | none =>
    have hread : readPayload r.1 t nleft i offset = none := by
      simp [readPayload, hzero, List.head?_eq_none_iff.mp hhead]
    exact ⟨fun _ => stay (acceptBinary_none hphase hread),
      fun _ => takesWithin_of_not_upTo (by simp [hhead])⟩
  | some o =>
    cases o with
    | fails e =>
      obtain ⟨phase, hread, hphase'⟩ := @readPayload_fails r.1 t nleft i offset e hzero hhead
      refine ⟨fun _ => ?_, fun _ => takesWithin_of_not_upTo (by simp [hhead])⟩
      rw [acceptBinary_eq hphase hread]
      -- an interruption is retried, any other error ends the loop
      rcases hphase' with ⟨-, rfl⟩ | ⟨-, rfl⟩
      · exact .looping nleft _ offset bs rfl htook hleft (blockSize_le hblock)
          (by simpa using hwrote)
      · exact .returned E_ERROR bs rfl htook (by omega) (by simp [hwrote])
          fun hcode => absurd hcode (by decide)
    | upTo k =>
      by_cases hgoes : blockSize nleft i ≠ 0 ∧ r.1.conn.inq = [] ∧ r.1.conn.eof = false
      · have hread : readPayload r.1 t nleft i offset = none := by
          obtain ⟨rest, hreads⟩ := List.head?_eq_some_iff.mp hhead
          simp only [readPayload, if_neg hzero, hreads, read_upTo_eq, if_pos hgoes]
        refine ⟨fun _ => stay (acceptBinary_none hphase hread), fun _ => ?_⟩
        rw [takesWithin_iff hphase hzero hhead]
        exact ⟨by simp [readSize, hgoes.2.1], fun _ => ⟨fun _ => hgoes.2.2,
          fun hne => absurd hgoes.2.1 hne⟩⟩
      · exact Accepting.read hphase htook hleft hsize hblock hwrote hzero hhead hgoes

/-! ### Whole runs -/

/-- One turn of `accept_binary`, wherever it is. -/
theorem Accepting.step (hsize : size < 2 ^ 64) (h : Accepting size s r) :
    let next := acceptBinary r.1 t
    (TakesWithin r.1 t → Accepting size s (next.1, r.2 ++ next.2)) ∧
      (Exact size s (next.1, r.2 ++ next.2) → TakesWithin r.1 t) := by
  cases h with
  | opening phase conn none =>
    refine ⟨fun _ => ?_, fun _ nleft i offset k hphase => by simp [phase] at hphase⟩
    rw [none, List.nil_append]
    simp only [acceptBinary, phase]
    obtain ⟨s', es, heq⟩ : ∃ s' es, openImage r.1 t size = (s', es) := ⟨_, _, rfl⟩
    rw [heq]
    rcases openImage_cases heq with ⟨-, rfl, rfl⟩ | ⟨-, rfl, rfl⟩
    · exact .looping size 0 0 [] rfl (conn ▸ .refl _) (by simp) (by decide) (by simp)
    · exact .returned E_ERROR [] rfl (conn ▸ .refl _) (by simp) (by simp)
        fun hcode => absurd hcode (by decide)
  | looping nleft i offset bs phase took left block wrote =>
    exact Accepting.turn hsize phase took left block wrote
  | returned code bs phase took within wrote whole =>
    have hstay : acceptBinary r.1 t = (r.1, []) := by simp [acceptBinary, phase]
    refine ⟨fun _ => ?_, fun _ nleft i offset k hphase => by simp [phase] at hphase⟩
    rw [hstay]
    exact .returned code bs phase took within (by simpa using wrote) (by simpa using whole)

/-- The turns that `accept_binary` still needs, at most. -/
def turnsLeft (s : Session) : ℕ :=
  match s.phase with
  | .image _ => s.conn.inq.length + 2
  | .payload _ _ _ => s.conn.inq.length + 1
  | _ => 0

theorem turnsLeft_payload (hphase : s.phase = .payload nleft i offset) :
    turnsLeft s = s.conn.inq.length + 1 := by simp [turnsLeft, hphase]

theorem turnsLeft_reply {code : ℕ} (hphase : s.phase = .imageReply code) : turnsLeft s = 0 := by
  simp [turnsLeft, hphase]

/-- A turn whose `read` returns uses one of them up, when the bytes of the photo are
there or the stream has ended. -/
theorem Accepting.turnsLeft_le (h : Accepting size s r)
    (hthere : s.conn.eof = true ∨ size ≤ s.conn.inq.length) :
    turnsLeft (acceptBinary r.1 t).1 ≤ turnsLeft r.1 - (if t.readsBytes then 1 else 0) := by
  cases h with
  | opening phase conn none =>
    simp only [acceptBinary, phase]
    obtain ⟨s', es, heq⟩ : ∃ s' es, openImage r.1 t size = (s', es) := ⟨_, _, rfl⟩
    rw [heq]
    rcases openImage_cases heq with ⟨-, rfl, -⟩ | ⟨-, rfl, -⟩
    · simp only [turnsLeft, phase]
      split <;> omega
    · simp [turnsLeft]
  | returned code bs phase =>
    have hstay : acceptBinary r.1 t = (r.1, []) := by simp [acceptBinary, phase]
    simp [hstay, turnsLeft_reply phase]
  | looping nleft i offset bs phase took left block wrote =>
    by_cases hzero : nleft = 0
    · have hread : readPayload r.1 t nleft i offset =
          some ({ r.1 with phase := .imageReply SUCCESS }, []) := if_pos hzero
      rw [acceptBinary_eq phase hread]
      simp [turnsLeft]
    cases hhead : t.reads.head? with
    | none =>
      have hnil := List.head?_eq_none_iff.mp hhead
      have hread : readPayload r.1 t nleft i offset = none := by simp [readPayload, hzero, hnil]
      rw [acceptBinary_none phase hread]
      simp [Turn.readsBytes, hnil]
    | some o =>
      obtain ⟨rest, hreads⟩ := List.head?_eq_some_iff.mp hhead
      cases o with
      | fails e =>
        obtain ⟨phase', hread, hphase'⟩ := @readPayload_fails r.1 t nleft i offset e hzero hhead
        rw [acceptBinary_eq phase hread]
        rcases hphase' with ⟨-, rfl⟩ | ⟨-, rfl⟩
        · simp [turnsLeft, phase, Turn.readsBytes, hreads]
        · simp [turnsLeft]
      | upTo k =>
        -- `read` does not block: the stream has ended, or bytes of the photo are there
        have hgoes : ¬ (blockSize nleft i ≠ 0 ∧ r.1.conn.inq = [] ∧ r.1.conn.eof = false) := by
          rintro ⟨-, hnil, hopen⟩
          have hstream := congrArg List.length took.stream
          simp only [List.length_append, hnil, List.length_nil] at hstream
          rcases hthere with heof | hlen
          · rw [took.eof, heof] at hopen
            exact absurd hopen (by decide)
          · omega
        obtain ⟨s', es, hread, htook', hcases⟩ :=
          @readPayload_upTo r.1 t nleft i offset k hzero hhead hgoes
        rw [acceptBinary_eq phase hread, turnsLeft_payload phase]
        rcases hcases with ⟨-, hphase', -⟩ | ⟨hpos, -, hphase', -⟩ | ⟨-, -, hphase', -⟩
        · rw [turnsLeft_reply hphase']
          omega
        · have hstream := congrArg List.length htook'.stream
          simp only [List.length_append, List.length_take] at hstream
          have hle : readSize r.1 nleft i k ≤ r.1.conn.inq.length :=
            (min_le_right _ _).trans (min_le_right _ _)
          rw [turnsLeft_payload hphase']
          split <;> omega
        · rw [turnsLeft_reply hphase']
          omega

/-- A run whose reads are exact. -/
theorem accepting_run (hsize : size < 2 ^ 64) (hphase : s.phase = .image size) {ts : List Turn}
    (h : acceptBinary.Meets TakesWithin s ts) : Accepting size s (acceptBinary.run s ts) := by
  have step : ∀ s' es t, TakesWithin s' t → Accepting size s (s', es) →
      Accepting size s ((acceptBinary s' t).1, es ++ (acceptBinary s' t).2) :=
    fun s' es t htakes haccepting => (haccepting.step hsize).1 htakes
  simpa using @Machine.run_induction _ _ _ _ _ (fun s' es => Accepting size s (s', es)) step
    _ _ (.opening hphase rfl rfl) _ h

theorem turnsLeft_run (hsize : size < 2 ^ 64) (hphase : s.phase = .image size)
    (hthere : s.conn.eof = true ∨ size ≤ s.conn.inq.length) {ts : List Turn}
    (h : acceptBinary.Meets TakesWithin s ts) :
    turnsLeft (acceptBinary.run s ts).1 ≤ turnsLeft s - ts.countP Turn.readsBytes := by
  induction ts using List.reverseRecOn with
  | nil => simp
  | append_singleton ts t ih =>
    obtain ⟨hmeets, -⟩ := Machine.meets_append.mp h
    have hturn := (accepting_run hsize hphase hmeets).turnsLeft_le (t := t) hthere
    have hbefore := ih hmeets
    rw [Machine.run_append, List.countP_append]
    simp only [Machine.run_cons_fst, Machine.run_nil, List.countP_singleton]
    omega

/-! ### The chunks of a stream -/

section Chunks

variable {c : Conn} {before : List Turn}

theorem taken_concat (n : ℕ) (before : List Turn) (t : Turn) :
    taken n (before ++ [t]) = min n (taken n before + t.chunk) := by
  simp only [taken, List.map_append, List.map_cons, List.map_nil, List.sum_append, List.sum_cons,
    List.sum_nil]
  omega

theorem taken_le (n : ℕ) (before : List Turn) : taken n before ≤ n := min_le_left _ _

theorem readsFit_concat (size : ℕ) (c : Conn) (ts : List Turn) (t : Turn) :
    ReadsFit size c (ts ++ [t]) ↔ ReadsFit size c ts ∧
      ((∀ b ∈ ts, b.goesOn = true) → t.readsBytes = true → MAXINFOSIZE < size →
        taken c.inq.length ts < size → ChunkFits size c ts t) := by
  constructor
  · intro h
    exact ⟨fun before u hpre => h before u (hpre.trans (List.prefix_append _ _)),
      h ts t List.prefix_rfl⟩
  · rintro ⟨hts, hlast⟩ before u hpre
    rcases List.prefix_concat_iff.mp hpre with heq | hpre'
    · obtain ⟨rfl, hu⟩ := List.append_inj' heq rfl
      obtain rfl := List.singleton_inj.mp hu
      exact hlast
    · exact hts before u hpre'

/-- Behind these turns the loop reads no more: one of them has ended it, it has the photo, or the
stream has come to its end where what is left does not pass for 0. -/
def ReadsOver (size : ℕ) (c : Conn) (before : List Turn) : Prop :=
  (∃ b ∈ before, b.goesOn = false) ∨ size ≤ taken c.inq.length before ∨
    taken c.inq.length before = c.inq.length ∧
      (size - taken c.inq.length before) % 2 ^ 32 ≠ 0

/-- The session has left the loop, or waits in it for ever. -/
def LoopOver (s : Session) : Prop :=
  (∃ code, s.phase = .imageReply code) ∨
    (∃ nleft i offset, s.phase = .payload nleft i offset) ∧ s.conn.inq = [] ∧ s.conn.eof = false

/-- Where the loop is behind some turns that fit, called for more than a buffer: it has taken the
bytes of these turns, or reads no more. -/
inductive Stage (size : ℕ) (c : Conn) (before : List Turn) (s : Session) : Prop
  | looping (nleft i offset : ℕ) (phase : s.phase = .payload nleft i offset)
      (left : nleft + taken c.inq.length before = size)
      (block : blockSize nleft i = MAXINFOSIZE) (goes : ∀ b ∈ before, b.goesOn = true)
      (inq : s.conn.inq.length + taken c.inq.length before = c.inq.length)
      (eof : s.conn.eof = c.eof)
  | beyond (loop : LoopOver s) (reads : ReadsOver size c before)

theorem ReadsOver.concat (h : ReadsOver size c before) (t : Turn) :
    ReadsOver size c (before ++ [t]) := by
  have hconcat := taken_concat c.inq.length before t
  have hle := taken_le c.inq.length before
  rcases h with ⟨b, hb, hstops⟩ | hphoto | ⟨hend, hmod⟩
  · exact Or.inl ⟨b, List.mem_append_left _ hb, hstops⟩
  · exact Or.inr (Or.inl (by omega))
  · have hsame : taken c.inq.length (before ++ [t]) = taken c.inq.length before := by omega
    exact Or.inr (Or.inr (by rw [hsame]; exact ⟨hend, hmod⟩))

theorem ReadsOver.of_stops (h : t.goesOn = false) : ReadsOver size c (before ++ [t]) :=
  Or.inl ⟨t, List.mem_append_right _ (List.mem_singleton_self t), h⟩

/-- Where the loop reads no more, nothing is asked of the next turn. -/
theorem ReadsOver.chunkFits (h : ReadsOver size c before) (t : Turn)
    (hgoes : ∀ b ∈ before, b.goesOn = true) (hless : taken c.inq.length before < size) :
    ChunkFits size c before t := by
  rcases h with ⟨b, hb, hstops⟩ | hphoto | ⟨hend, hmod⟩
  · rw [hgoes b hb] at hstops
    cases hstops
  · omega
  · have hconcat := taken_concat c.inq.length before t
    exact ⟨by omega, fun hzero => absurd hzero hmod⟩

theorem LoopOver.takesWithin (h : LoopOver s) (t : Turn) : TakesWithin s t := by
  intro nleft i offset k hphase _ _
  rcases h with ⟨code, hreply⟩ | ⟨-, hnil, hopen⟩
  · simp [hreply] at hphase
  · exact ⟨by simp [readSize, hnil], fun _ => ⟨fun _ => hopen, fun hne => absurd hnil hne⟩⟩

theorem LoopOver.step (h : LoopOver s) (t : Turn) : LoopOver (acceptBinary s t).1 := by
  rcases h with ⟨code, hreply⟩ | ⟨⟨nleft, i, offset, hphase⟩, hnil, hopen⟩
  · exact Or.inl ⟨code, by simp [acceptBinary, hreply]⟩
  · cases hread : readPayload s t nleft i offset with
    | none =>
      rw [acceptBinary_none hphase hread]
      exact Or.inr ⟨⟨nleft, i, offset, hphase⟩, hnil, hopen⟩
    | some next =>
      rw [acceptBinary_eq hphase hread]
      obtain ⟨s', es⟩ := next
      cases readPayload_step hread with
      | finished | error | eof | short => exact Or.inl ⟨_, rfl⟩
      | interrupted => exact Or.inr ⟨⟨_, _, _, rfl⟩, hnil, hopen⟩
      | chunk _ htook hne =>
        have hstream := htook.stream
        rw [hnil] at hstream
        exact absurd (List.append_eq_nil_iff.mp hstream).1 hne

/-- A `read` that asks for a whole buffer returns its chunk, as far as it is there. -/
theorem readSize_add_taken (hblock : blockSize nleft i = MAXINFOSIZE)
    (hinq : s.conn.inq.length + taken c.inq.length before = c.inq.length)
    (hchunk : t.chunk = min MAXINFOSIZE (max k 1)) :
    readSize s nleft i k + taken c.inq.length before = taken c.inq.length (before ++ [t]) := by
  rw [taken_concat, hchunk, readSize, hblock]
  omega

theorem Turn.chunk_of_head (h : t.reads.head? = some (.upTo k)) :
    t.chunk = min MAXINFOSIZE (max k 1) ∧ t.readsBytes = true ∧ t.goesOn = t.ok := by
  obtain ⟨rest, hreads⟩ := List.head?_eq_some_iff.mp h
  simp [Turn.chunk, Turn.readsBytes, Turn.goesOn, hreads]

/-- The turn of the loop that comes to a read: it stays within the photo when its chunk fits. -/
theorem Stage.takesWithin_iff (hleft : nleft + taken c.inq.length before = size)
    (hblock : blockSize nleft i = MAXINFOSIZE)
    (hinq : s.conn.inq.length + taken c.inq.length before = c.inq.length)
    (heof : s.conn.eof = c.eof) (hphase : s.phase = .payload nleft i offset) (hne : nleft ≠ 0)
    (hhead : t.reads.head? = some (.upTo k)) :
    TakesWithin s t ↔ ChunkFits size c before t := by
  have hread := readSize_add_taken hblock hinq (Turn.chunk_of_head hhead).1
  have hempty : s.conn.inq = [] ↔ taken c.inq.length before = c.inq.length := by
    rw [← List.length_eq_zero_iff]
    omega
  have hsome : s.conn.inq ≠ [] ↔ taken c.inq.length before < c.inq.length := by
    rw [ne_eq, hempty]
    have := taken_le c.inq.length before
    omega
  have hsize : size - taken c.inq.length before = nleft := by omega
  rw [Server.takesWithin_iff hphase hne hhead, hempty, hsome, heof]
  constructor
  · rintro ⟨hle, hresult⟩
    exact ⟨by omega, by rwa [hsize]⟩
  · rintro ⟨hle, hresult⟩
    exact ⟨by omega, by rwa [hsize] at hresult⟩

/-- A turn whose `read` returns, in the loop: where it leads when it stays within the photo. -/
theorem Stage.read (hbig : MAXINFOSIZE < size) (hsize : size < 2 ^ 64)
    (hphase : s.phase = .payload nleft i offset) (hleft : nleft + taken c.inq.length before = size)
    (hblock : blockSize nleft i = MAXINFOSIZE) (hgoes : ∀ b ∈ before, b.goesOn = true)
    (hinq : s.conn.inq.length + taken c.inq.length before = c.inq.length)
    (heof : s.conn.eof = c.eof) (hne : nleft ≠ 0) (hhead : t.reads.head? = some (.upTo k))
    (hwithin : TakesWithin s t) : Stage size c (before ++ [t]) (acceptBinary s t).1 := by
  obtain ⟨hchunk, -, hgoesOn⟩ := Turn.chunk_of_head hhead
  have hread := readSize_add_taken hblock hinq hchunk
  obtain ⟨hle, hresult⟩ := (Server.takesWithin_iff hphase hne hhead).mp hwithin
  have hgoes' : t.ok = true → ∀ b ∈ before ++ [t], b.goesOn = true := fun hok =>
    List.forall_mem_append.mpr ⟨hgoes, List.forall_mem_singleton.mpr (hgoesOn.trans hok)⟩
  have hstops : t.ok = false → ReadsOver size c (before ++ [t]) := fun hok =>
    .of_stops (hgoesOn.trans hok)
  have hmax : MAXINFOSIZE = 1024 := rfl
  by_cases hwait : blockSize nleft i ≠ 0 ∧ s.conn.inq = [] ∧ s.conn.eof = false
  · -- nothing is there: the turn waits
    obtain ⟨rest, hreads⟩ := List.head?_eq_some_iff.mp hhead
    have hnone : readPayload s t nleft i offset = none := by
      simp only [readPayload, if_neg hne, hreads, read_upTo_eq, if_pos hwait]
    have hzero : readSize s nleft i k = 0 := by simp [readSize, hwait.2.1]
    rw [acceptBinary_none hphase hnone]
    dsimp only
    cases hok : t.ok with
    | true =>
      exact .looping nleft i offset hphase (by omega) hblock (hgoes' hok) (by omega) heof
    | false => exact .beyond (Or.inr ⟨⟨nleft, i, offset, hphase⟩, hwait.2⟩) (hstops hok)
  · obtain ⟨s', es, heq, htook, hcases⟩ := @readPayload_upTo s t nleft i offset k hne hhead hwait
    rw [acceptBinary_eq hphase heq]
    dsimp only
    have hlen := congrArg List.length htook.stream
    rw [List.length_append, List.length_take] at hlen
    have hmin : readSize s nleft i k ≤ s.conn.inq.length :=
      (min_le_right _ _).trans (min_le_right _ _)
    rcases hcases with ⟨hzero, hphase', -⟩ | ⟨-, hok, hphase', -⟩ | ⟨-, hok, hphase', -⟩
    · -- the end of the stream
      have hnil : s.conn.inq = [] := by
        rw [← List.length_eq_zero_iff]
        simp only [readSize, hblock] at hzero
        omega
      refine .beyond (Or.inl ⟨_, hphase'⟩) (Or.inr (Or.inr ⟨?_, fun hmod => ?_⟩))
      · rw [hnil, List.length_nil] at hinq
        omega
      · have hsame : size - taken c.inq.length (before ++ [t]) = nleft := by omega
        rw [hsame] at hmod
        exact hwait ⟨by omega, hnil, (hresult hmod).1 hnil⟩
    -- within the photo the counter does not wrap
    · have hmod : (nleft + (2 ^ 64 - readSize s nleft i k)) % 2 ^ 64 =
          nleft - readSize s nleft i k := by omega
      refine .looping _ _ _ hphase' (by rw [hmod]; omega) ?_ (hgoes' hok) (by omega)
        (htook.eof.trans heof)
      rw [blockSize, hblock, ite_self]
    · exact .beyond (Or.inl ⟨_, hphase'⟩) (hstops hok)

/-- What the loop asks of the turn behind it, and where the turn leads when it fits. -/
theorem Stage.step (hbig : MAXINFOSIZE < size) (hsize : size < 2 ^ 64)
    (h : Stage size c before s) (t : Turn) :
    (TakesWithin s t ↔ ((∀ b ∈ before, b.goesOn = true) → t.readsBytes = true →
        MAXINFOSIZE < size → taken c.inq.length before < size → ChunkFits size c before t)) ∧
      (TakesWithin s t → Stage size c (before ++ [t]) (acceptBinary s t).1) := by
  cases h with
  | beyond loop reads =>
    exact ⟨iff_of_true (loop.takesWithin t) fun hgoes _ _ hless => reads.chunkFits t hgoes hless,
      fun _ => .beyond (loop.step t) (reads.concat t)⟩
  | looping nleft i offset phase left block goes inq eof =>
    have hconcat := taken_concat c.inq.length before t
    have hgoes : t.goesOn = true → ∀ b ∈ before ++ [t], b.goesOn = true := fun ht =>
      List.forall_mem_append.mpr ⟨goes, List.forall_mem_singleton.mpr ht⟩
    -- the counter is what the reads before have not taken
    by_cases hzero : nleft = 0
    · have hread : readPayload s t nleft i offset =
          some ({ s with phase := .imageReply SUCCESS }, []) := if_pos hzero
      rw [acceptBinary_eq phase hread]
      refine ⟨iff_of_true ?_ fun _ _ _ hless => by omega, fun _ => .beyond (Or.inl ⟨SUCCESS, rfl⟩)
        (Or.inr (Or.inl ?_))⟩
      · intro nleft' i' offset' k hphase' hne
        obtain ⟨rfl, -, -⟩ : nleft = nleft' ∧ i = i' ∧ offset = offset' := by
          simpa [phase] using hphase'
        exact absurd hzero hne
      · have := taken_le c.inq.length before
        omega
    cases hhead : t.reads.head? with
    -- no `read` at all: the turn waits, and nothing is taken
    | none =>
      have hnil := List.head?_eq_none_iff.mp hhead
      have hread : readPayload s t nleft i offset = none := by simp [readPayload, hzero, hnil]
      have hchunk : t.chunk = 0 := by simp [Turn.chunk, hnil]
      have hsame : taken c.inq.length (before ++ [t]) = taken c.inq.length before := by
        have := taken_le c.inq.length before
        omega
      rw [acceptBinary_none phase hread]
      dsimp only
      refine ⟨iff_of_true (takesWithin_of_not_upTo (by simp [hhead])) fun _ hbytes => ?_,
        fun _ => .looping nleft i offset phase (by omega) block (hgoes ?_) (by omega) eof⟩
      · simp [Turn.readsBytes, hnil] at hbytes
      · simp [Turn.goesOn, hnil]
    | some o =>
      obtain ⟨rest, hreads⟩ := List.head?_eq_some_iff.mp hhead
      cases o with
      | upTo k =>
        obtain ⟨-, hbytes, -⟩ := Turn.chunk_of_head hhead
        refine ⟨?_, Stage.read hbig hsize phase left block goes inq eof hzero hhead⟩
        rw [Stage.takesWithin_iff left block inq eof phase hzero hhead]
        exact ⟨fun hfits _ _ _ _ => hfits, fun hfits => hfits goes hbytes hbig (by omega)⟩
      | fails e =>
        obtain ⟨phase', hread, hphase'⟩ := @readPayload_fails s t nleft i offset e hzero hhead
        have hchunk : t.chunk = 0 := by simp [Turn.chunk, hreads]
        have hsame : taken c.inq.length (before ++ [t]) = taken c.inq.length before := by
          have := taken_le c.inq.length before
          omega
        rw [acceptBinary_eq phase hread]
        refine ⟨iff_of_true (takesWithin_of_not_upTo (by simp [hhead])) fun _ hbytes => ?_,
          fun _ => ?_⟩
        · simp [Turn.readsBytes, hreads] at hbytes
        -- only an interruption goes on
        · rcases hphase' with ⟨rfl, rfl⟩ | ⟨he, rfl⟩
          · refine .looping nleft _ offset rfl (by omega) ?_ (hgoes ?_) (by dsimp only; omega) eof
            · rw [blockSize, block, ite_self]
            · simp [Turn.goesOn, hreads]
          · exact .beyond (Or.inl ⟨E_ERROR, rfl⟩) (.of_stops (by simp [Turn.goesOn, hreads, he]))

theorem Stage.run (hbig : MAXINFOSIZE < size) (hsize : size < 2 ^ 64) (h : Stage size c [] s)
    (ts : List Turn) :
    (acceptBinary.Meets TakesWithin s ts ↔ ReadsFit size c ts) ∧
      (acceptBinary.Meets TakesWithin s ts → Stage size c ts (acceptBinary.run s ts).1) := by
  induction ts using List.reverseRecOn with
  | nil => exact ⟨iff_of_true trivial fun before t hpre => by simp at hpre, fun _ => h⟩
  | append_singleton ts t ih =>
    obtain ⟨hiff, hstage⟩ := ih
    rw [Machine.meets_append, Machine.meets_cons, readsFit_concat, Machine.run_append, ← hiff]
    refine ⟨and_congr_right fun hmeets => ?_, fun hmeets => ?_⟩
    · rw [← ((hstage hmeets).step hbig hsize t).1]
      exact and_iff_left trivial
    · exact ((hstage hmeets.1).step hbig hsize t).2 hmeets.2.1

/-! ### All sizes -/

theorem LoopOver.meets (h : LoopOver s) (ts : List Turn) : acceptBinary.Meets TakesWithin s ts := by
  induction ts generalizing s with
  | nil => trivial
  | cons t ts ih => exact ⟨h.takesWithin t, ih (h.step t)⟩

/-- Of a photo of one buffer or less no byte is asked for. -/
theorem meets_of_small (hsmall : size ≤ MAXINFOSIZE) (hphase : s.phase = .payload size 0 offset)
    (ts : List Turn) : acceptBinary.Meets TakesWithin s ts := by
  have hmax : MAXINFOSIZE = 1024 := rfl
  have hblock : blockSize size 0 = 0 := if_neg (by omega)
  induction ts generalizing s offset with
  | nil => trivial
  | cons t ts ih =>
    refine ⟨?_, ?_⟩
    · intro nleft i offset' k hphase' hne _
      obtain ⟨rfl, rfl, -⟩ : size = nleft ∧ 0 = i ∧ offset = offset' := by
        simpa [hphase] using hphase'
      exact ⟨by simp [readSize, hblock], fun hmod => by omega⟩
    · cases hread : readPayload s t size 0 offset with
      | none =>
        rw [acceptBinary_none hphase hread]
        exact ih hphase
      | some next =>
        rw [acceptBinary_eq hphase hread]
        obtain ⟨s', es⟩ := next
        cases readPayload_step hread with
        | finished | error | eof | short => exact LoopOver.meets (Or.inl ⟨_, rfl⟩) ts
        | interrupted => exact ih (by rw [hblock])
        | chunk _ _ hne hlen =>
          rw [hblock] at hlen
          exact absurd (List.eq_nil_of_length_eq_zero (by omega)) hne

/-- The reads of `accept_binary` return no more than is left when the chunks of the stream fit. -/
theorem takesWithin_iff_chunksFit (hsize : size < 2 ^ 64) (hphase : s.phase = .image size)
    (ts : List Turn) : acceptBinary.Meets TakesWithin s ts ↔ ChunksFit size s.conn ts := by
  cases ts with
  | nil => exact iff_of_true trivial trivial
  | cons o ts =>
    have hopen : TakesWithin s o := fun nleft i offset k hphase' => by simp [hphase] at hphase'
    rw [Machine.meets_cons, and_iff_right hopen]
    simp only [acceptBinary, hphase]
    obtain ⟨s', es, heq⟩ : ∃ s' es, openImage s o size = (s', es) := ⟨_, _, rfl⟩
    rw [heq, ChunksFit]
    rcases openImage_cases heq with ⟨hok, rfl, rfl⟩ | ⟨hok, rfl, rfl⟩
    · rw [imp_iff_right hok]
      by_cases hbig : MAXINFOSIZE < size
      · have hstart : Stage size s.conn [] { s with phase := .payload size 0 0 } :=
          .looping size 0 0 rfl (by simp [taken]) (if_pos hbig) (by simp) (by simp [taken]) rfl
        exact (hstart.run hbig hsize ts).1
      · exact iff_of_true (meets_of_small (by omega) rfl ts)
          fun before t _ _ _ hbig' => absurd hbig' hbig
    · refine iff_of_true (LoopOver.meets (Or.inl ⟨E_ERROR, rfl⟩) ts) fun hok' => ?_
      simp [hok] at hok'

end Chunks

/-- **Receiving a photo.** `accept_binary` called for `size` bytes, on any stream and with
any outcome of its calls: it takes and writes no byte behind the photo, its counter
does not wrap and it returns 0 only for the whole photo, in all of a run, exactly when
the chunks that the stream comes in fit: no chunk of a photo longer than a buffer goes
across its end (and, while a multiple of 2³² is left, the stream does not end and no
write fails). Then it returns, too, once there were enough `read`s and the photo is
there or the stream has ended. -/
theorem acceptBinary_exact_iff {size : ℕ} (hsize : size < 2 ^ 64) {s : Session}
    (hphase : s.phase = .image size) (ts : List Turn) :
    ((∀ before after, ts = before ++ after → Exact size s (acceptBinary.run s before)) ↔
      ChunksFit size s.conn ts) ∧
    (ChunksFit size s.conn ts → s.conn.eof = true ∨ size ≤ s.conn.inq.length →
      s.conn.inq.length + 2 ≤ ts.countP Turn.readsBytes →
      ∃ code, (acceptBinary.run s ts).1.phase = .imageReply code) := by
  rw [← takesWithin_iff_chunksFit hsize hphase]
  refine ⟨⟨fun h => ?_, ?_⟩, fun h hthere hturns => ?_⟩
  · induction ts using List.reverseRecOn with
    | nil => trivial
    | append_singleton ts t ih =>
      have hmeets := ih fun before after hsplit => h before (after ++ [t]) (by simp [hsplit])
      have hexact := h (ts ++ [t]) [] (by simp)
      rw [Machine.run_append] at hexact
      have hnext := ((accepting_run hsize hphase hmeets).step (t := t) hsize).2
      exact Machine.meets_append.mpr ⟨hmeets, hnext (by simpa using hexact), trivial⟩
  · rintro h before after rfl
    exact (accepting_run hsize hphase (Machine.meets_append.mp h).1).exact
  · have hleft := turnsLeft_run hsize hphase hthere h
    have hzero : turnsLeft (acceptBinary.run s ts).1 = 0 := by
      have hstart : turnsLeft s = s.conn.inq.length + 2 := by simp [turnsLeft, hphase]
      omega
    cases accepting_run hsize hphase h with
    | opening phase => simp [turnsLeft, phase] at hzero
    | looping nleft i offset bs phase => simp [turnsLeft, phase] at hzero
    | returned code bs phase => exact ⟨code, phase⟩

end

/-- A turn whose `read` returns a whole block. -/
def sampleRead : Turn where
  reads := [.upTo MAXINFOSIZE]

/-- A photo of 1500 bytes with `QUIT` behind it. -/
def samplePhoto : Session :=
  { Session.init (List.replicate 1500 255 ++ ascii "QUIT\n") false 0 [] [] with
    phase := .image 1500 }

theorem acceptBinary_exact_iff_sample :
    (∀ before after, [sampleRead, sampleRead] = before ++ after →
      Exact 1500 samplePhoto (acceptBinary.run samplePhoto before)) ↔
      ChunksFit 1500 samplePhoto.conn [sampleRead, sampleRead] :=
  (acceptBinary_exact_iff (by decide) rfl _).1

/-- The second block takes the next command, and the counter wraps. -/
theorem acceptBinary_wraps_sample :
    ¬ Exact 1500 samplePhoto
      (acceptBinary.run samplePhoto [sampleRead, sampleRead, sampleRead]) := by
  intro h
  have hcounter := h.counter (2 ^ 64 - 5) 1024 1505 (by decide +kernel)
  have hpos : (acceptBinary.run samplePhoto [sampleRead, sampleRead, sampleRead]).1.conn.pos =
      1505 := by decide +kernel
  rw [hpos] at hcounter
  exact absurd hcounter (by decide)

end Esif.Server
