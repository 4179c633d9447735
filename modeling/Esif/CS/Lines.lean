import Mathlib.Data.List.Basic

/-!
# Reading a stream line by line

A stream of symbols some of which end a line. A bounded reader takes one piece
at a time: up to and including the first line end, and never more than its
bound. A piece is settled when no later symbol can extend it.

## Main definitions

* `Lines.piece` — the next piece of a stream
* `Lines.Settled` — a piece that more input would not extend
* `Lines.stopAfter`, `Lines.firstStop` — where the first line with a given
  property ends
* `Lines.lineEnd` — where the line at a position ends

## Main results

* `Lines.piece_append_of_settled` — a settled piece does not depend on what
  follows it
* `Lines.piece_eq_of_word` — a piece goes no further than a line end
* `Lines.piece_line` — a whole line within the bound is read as one piece
* `Lines.stopAfter_line`, `Lines.stopAfter_piece` — the end of the first such
  line, one line or one piece at a time
-/

namespace Esif.CS.Lines

variable {α : Type*} (isEnd : α → Bool)

/-- The next piece of a stream: up to and including the first line end, at most
`bound` symbols. -/
def piece : ℕ → List α → List α
  | 0, _ => []
  | _ + 1, [] => []
  | n + 1, a :: s => if isEnd a then [a] else a :: piece n s

@[simp] theorem piece_zero (s : List α) : piece isEnd 0 s = [] := rfl

@[simp] theorem piece_nil (n : ℕ) : piece isEnd n [] = [] := by cases n <;> rfl

theorem piece_succ_cons (n : ℕ) (a : α) (s : List α) :
    piece isEnd (n + 1) (a :: s) = if isEnd a then [a] else a :: piece isEnd n s := rfl

theorem piece_length_le (n : ℕ) (s : List α) : (piece isEnd n s).length ≤ n := by
  induction n generalizing s with
  | zero => simp
  | succ n ih =>
    cases s with
    | nil => simp
    | cons a s =>
      rw [piece_succ_cons]
      split
      · simp
      · simpa using ih s

/-- A piece is the front of its stream. -/
theorem piece_append_drop (n : ℕ) (s : List α) :
    piece isEnd n s ++ s.drop (piece isEnd n s).length = s := by
  induction n generalizing s with
  | zero => simp
  | succ n ih =>
    cases s with
    | nil => simp
    | cons a s =>
      rw [piece_succ_cons]
      split
      · simp
      · simpa using ih s

/-- A piece that more input would not extend: it fills the bound or ends a
line. -/
def Settled (n : ℕ) (l : List α) : Prop := l.length = n ∨ ∃ a, l.getLast? = some a ∧ isEnd a

variable {isEnd} in
theorem Settled.cons {n : ℕ} {l : List α} (h : Settled isEnd n l) (a : α) :
    Settled isEnd (n + 1) (a :: l) := by
  rcases h with hfull | ⟨b, hb, hend⟩
  · exact Or.inl (by simpa using hfull)
  · exact Or.inr ⟨b, by simp [List.getLast?_cons, hb], hend⟩

/-- A settled piece does not depend on what follows it in the stream. -/
theorem piece_append_of_settled {n : ℕ} {s : List α} (h : Settled isEnd n (piece isEnd n s))
    (t : List α) : piece isEnd n (s ++ t) = piece isEnd n s := by
  induction n generalizing s with
  | zero => simp
  | succ n ih =>
    cases s with
    | nil => simp [Settled] at h
    | cons a s =>
      rw [List.cons_append, piece_succ_cons, piece_succ_cons]
      rw [piece_succ_cons] at h
      by_cases ha : isEnd a
      · simp [ha]
      · simp only [ha, Bool.false_eq_true, if_false] at h ⊢
        congr 1
        refine ih ?_
        rcases h with hfull | ⟨b, hb, hend⟩
        · exact Or.inl (by simpa using hfull)
        · refine Or.inr ⟨b, ?_, hend⟩
          rw [List.getLast?_cons] at hb
          cases hl : (piece isEnd n s).getLast? with
          | none =>
            rw [hl] at hb
            obtain rfl : a = b := by simpa using hb
            exact absurd hend ha
          | some c => simpa [hl] using hb

/-- A line end is the last symbol of its piece. -/
theorem piece_eq_of_word {n : ℕ} {s l : List α} {e : α} (he : isEnd e = true)
    (h : l ++ [e] <+: piece isEnd n s) : piece isEnd n s = l ++ [e] := by
  induction n generalizing s l with
  | zero => simp at h
  | succ n ih =>
    cases s with
    | nil => simp at h
    | cons a s =>
      rw [piece_succ_cons] at h ⊢
      by_cases ha : isEnd a
      · simp only [ha, if_true] at h ⊢
        exact (h.eq_of_length_le (by simp)).symm
      · simp only [ha, Bool.false_eq_true, if_false] at h ⊢
        cases l with
        | nil =>
          obtain ⟨rfl, -⟩ := List.cons_prefix_cons.mp h
          exact absurd he ha
        | cons b l =>
          obtain ⟨rfl, htail⟩ := List.cons_prefix_cons.mp h
          simpa using ih htail

/-- A line that fits the bound is read whole. -/
theorem piece_line {n : ℕ} {body : List α} (hbody : ∀ a ∈ body, isEnd a = false) {e : α}
    (he : isEnd e = true) (hlen : body.length < n) (s : List α) :
    piece isEnd n (body ++ e :: s) = body ++ [e] := by
  induction body generalizing n with
  | nil =>
    obtain ⟨n, rfl⟩ := Nat.exists_eq_succ_of_ne_zero (Nat.ne_of_gt hlen)
    simp [piece_succ_cons, he]
  | cons a body ih =>
    obtain ⟨n, rfl⟩ := Nat.exists_eq_succ_of_ne_zero (Nat.ne_of_gt (Nat.zero_lt_of_lt hlen))
    have ha : isEnd a = false := hbody a (by simp)
    have inner := ih (fun b hb => hbody b (by simp [hb])) (n := n) (by simpa using hlen)
    simp [piece_succ_cons, ha, inner]

/-- A piece ends at its first line end, at the bound, or with the stream. -/
theorem piece_ends (n : ℕ) (s : List α) :
    (∃ body e, piece isEnd n s = body ++ [e] ∧ (∀ a ∈ body, isEnd a = false) ∧ isEnd e = true) ∨
      (∀ a ∈ piece isEnd n s, isEnd a = false) ∧
        ((piece isEnd n s).length = n ∨ piece isEnd n s = s) := by
  induction n generalizing s with
  | zero => simp
  | succ n ih =>
    cases s with
    | nil => simp
    | cons a s =>
      rw [piece_succ_cons]
      by_cases ha : isEnd a
      · exact Or.inl ⟨[], a, by simp [ha], by simp, ha⟩
      · simp only [ha, Bool.false_eq_true, if_false]
        have hcons : ∀ {l : List α}, (∀ b ∈ l, isEnd b = false) → ∀ b ∈ a :: l, isEnd b = false :=
          fun hl => List.forall_mem_cons.mpr ⟨by simpa using ha, hl⟩
        rcases ih s with ⟨body, e, hpiece, hbody, he⟩ | ⟨hpart, hlen⟩
        · exact Or.inl ⟨a :: body, e, by simp [hpiece], hcons hbody, he⟩
        · refine Or.inr ⟨hcons hpart, hlen.imp (fun hfull => ?_) fun hall => by rw [hall]⟩
          simp [hfull]

/-- The piece ends a line exactly when there is a line end within the bound. -/
theorem exists_isEnd_piece_iff (n : ℕ) (s : List α) :
    (∃ a, (piece isEnd n s).getLast? = some a ∧ isEnd a = true) ↔
      ∃ a ∈ s.take n, isEnd a = true := by
  -- without a line end the piece is all that the bound allows
  rcases piece_ends isEnd n s with ⟨body, e, hpiece, hbody, he⟩ | ⟨hpart, hlen⟩
  · have hprefix : piece isEnd n s <+: s.take n :=
      List.prefix_take_iff.mpr ⟨⟨_, piece_append_drop isEnd n s⟩, piece_length_le isEnd n s⟩
    refine iff_of_true ⟨e, by simp [hpiece], he⟩ ⟨e, hprefix.subset (by simp [hpiece]), he⟩
  · have htake : s.take n = piece isEnd n s := by
      have hsplit := piece_append_drop isEnd n s
      rcases hlen with hfull | hall
      · have hleft := @List.take_left' _ _ (s.drop (piece isEnd n s).length) n hfull
        rwa [hsplit] at hleft
      · rw [hall]
        exact List.take_of_length_le (hall ▸ piece_length_le isEnd n s)
    rw [htake]
    refine iff_of_false ?_ ?_
    · rintro ⟨a, ha, hend⟩
      simp [hpart a (List.mem_of_getLast? ha)] at hend
    · rintro ⟨a, ha, hend⟩
      simp [hpart a ha] at hend

/-- The pieces a bounded reader takes one after the other, one for each bound. -/
def pieces : List ℕ → List α → List (List α)
  | [], _ => []
  | n :: ns, s => piece isEnd n s :: pieces ns (s.drop (piece isEnd n s).length)

/-- The list is one piece, which nothing behind it would extend. -/
def Whole (n : ℕ) (l : List α) : Prop := piece isEnd n l = l ∧ Settled isEnd n l

variable {isEnd} in
theorem Whole.piece_append {n : ℕ} {l : List α} (h : Whole isEnd n l) (rest : List α) :
    piece isEnd n (l ++ rest) = l := by
  have hset : Settled isEnd n (piece isEnd n l) := by rw [h.1]; exact h.2
  rw [piece_append_of_settled isEnd hset, h.1]

variable {isEnd} in
/-- A stream has one way to be cut in whole pieces. -/
theorem eq_of_flatten_eq {n : ℕ} {ls ls' : List (List α)}
    (h : ∀ l ∈ ls, Whole isEnd n l ∧ l ≠ []) (h' : ∀ l ∈ ls', Whole isEnd n l ∧ l ≠ [])
    (heq : ls.flatten = ls'.flatten) : ls = ls' := by
  induction ls generalizing ls' with
  | nil =>
    cases ls' with
    | nil => rfl
    | cons l' ls' => simp [(h' l' List.mem_cons_self).2] at heq
  | cons l ls ih =>
    cases ls' with
    | nil => simp [(h l List.mem_cons_self).2] at heq
    | cons l' ls' =>
      rw [List.flatten_cons, List.flatten_cons] at heq
      -- either head is the first piece of the same stream
      have hpiece := (h l List.mem_cons_self).1.piece_append ls.flatten
      rw [heq, (h' l' List.mem_cons_self).1.piece_append] at hpiece
      subst hpiece
      rw [ih (fun k hk => h k (List.mem_cons_of_mem _ hk))
        (fun k hk => h' k (List.mem_cons_of_mem _ hk)) (List.append_cancel_left heq)]

/-- A line that fits the bound is whole. -/
theorem whole_line {n : ℕ} {body : List α} (hbody : ∀ a ∈ body, isEnd a = false) {e : α}
    (he : isEnd e = true) (hlen : body.length < n) : Whole isEnd n (body ++ [e]) :=
  ⟨piece_line isEnd hbody he hlen [], Or.inr ⟨e, by simp, he⟩⟩

/-! ### The end of the first line with a given property -/

section StopAfter

variable (stop : List α → Bool)

/-- The number of symbols up to and including the end of the first complete
line that satisfies `stop`, where `seen` is the part of the current line read
already. -/
def stopAfter (seen : List α) : List α → Option ℕ
  | [] => none
  | a :: s =>
    if isEnd a then
      if stop (seen ++ [a]) then some 1 else (stopAfter [] s).map (· + 1)
    else (stopAfter (seen ++ [a]) s).map (· + 1)

/-- Symbols inside a line only move the count. -/
theorem stopAfter_inside {part : List α} (hpart : ∀ a ∈ part, isEnd a = false)
    (seen s : List α) :
    stopAfter isEnd stop seen (part ++ s) =
      (stopAfter isEnd stop (seen ++ part) s).map (· + part.length) := by
  induction part generalizing seen with
  | nil => simp
  | cons a part ih =>
    have ha : isEnd a = false := hpart a (by simp)
    have inner := ih (fun b hb => hpart b (by simp [hb])) (seen ++ [a])
    simp [stopAfter, ha, inner, Option.map_map, Function.comp_def, Nat.add_assoc]

/-- One whole line: the count stops at it or goes on behind it. -/
theorem stopAfter_line {body : List α} (hbody : ∀ a ∈ body, isEnd a = false) {e : α}
    (he : isEnd e = true) (seen s : List α) :
    stopAfter isEnd stop seen (body ++ e :: s) =
      if stop (seen ++ body ++ [e]) then some (body.length + 1)
      else (stopAfter isEnd stop [] s).map (· + (body.length + 1)) := by
  rw [stopAfter_inside isEnd stop hbody]
  by_cases hs : stop (seen ++ body ++ [e])
  · simp only [stopAfter, he, hs, if_true, Option.map_some, Nat.add_comm]
  · simp only [stopAfter, he, hs, if_true, Bool.false_eq_true, if_false, Option.map_map,
      Function.comp_def, Nat.add_assoc, Nat.add_comm 1]

/-- A line that cannot satisfy `stop` any more is skipped. -/
theorem stopAfter_skip {seen : List α} (hseen : ∀ part, stop (seen ++ part) = false)
    (s : List α) :
    stopAfter isEnd stop seen s =
      (stopAfter isEnd stop [] (s.drop ((s.takeWhile (!isEnd ·)).length + 1))).map
        (· + ((s.takeWhile (!isEnd ·)).length + 1)) := by
  induction s generalizing seen with
  | nil => rfl
  | cons a s ih =>
    by_cases ha : isEnd a
    · simp [stopAfter, ha, hseen [a]]
    · have inner := @ih (seen ++ [a]) (fun part => by simpa using hseen ([a] ++ part))
      simp [stopAfter, ha, inner, Option.map_map, Function.comp_def, Nat.add_assoc]

/-- A piece is a part of a line, or ends one. -/
theorem piece_shape (n : ℕ) (s : List α) :
    (∀ a ∈ piece isEnd n s, isEnd a = false) ∨
      ∃ body e, piece isEnd n s = body ++ [e] ∧ (∀ a ∈ body, isEnd a = false) ∧ isEnd e = true :=
  (piece_ends isEnd n s).symm.imp_left And.left

/-- A piece that satisfies `stop` and ends a line read from its start is the end
of the first such line. -/
theorem stopAfter_of_stop {n : ℕ} {s : List α} (hstop : stop (piece isEnd n s) = true)
    (hends : ∃ a ∈ piece isEnd n s, isEnd a = true) :
    stopAfter isEnd stop [] s = some (piece isEnd n s).length := by
  rcases piece_shape isEnd n s with hpart | ⟨body, e, hpiece, hbody, he⟩
  · obtain ⟨a, ha, hend⟩ := hends
    simp [hpart a ha] at hend
  · have hs : s = body ++ e :: s.drop (body.length + 1) := by
      have happ := piece_append_drop isEnd n s
      rw [hpiece] at happ
      simpa using happ.symm
    rw [hpiece] at hstop ⊢
    rw [hs, stopAfter_line isEnd stop hbody he]
    simp [hstop]

/-- Reading a piece that does not satisfy `stop` only moves the count, when the
lines that satisfy it are shorter than a piece. -/
theorem stopAfter_piece {n : ℕ} {s rest seen : List α} (hs : piece isEnd n s ++ rest = s)
    (hshort : ∀ l part, l.length = n → stop (l ++ part) = false)
    (hseen : seen = [] ∨ ∀ part, stop (seen ++ part) = false)
    (hstop : stop (piece isEnd n s) = false)
    (hsettled : Settled isEnd n (piece isEnd n s) ∨ rest = []) :
    ∃ seen', stopAfter isEnd stop seen s =
        (stopAfter isEnd stop seen' rest).map (· + (piece isEnd n s).length) ∧
      ((∃ a, (piece isEnd n s).getLast? = some a ∧ isEnd a = true) → seen' = []) ∧
      (seen' = [] ∨ ∀ part, stop (seen' ++ part) = false) := by
  rcases piece_shape isEnd n s with hpart | ⟨body, e, hpiece, hbody, he⟩
  -- the piece stays inside a line
  · have hopen : ¬ ∃ a, (piece isEnd n s).getLast? = some a ∧ isEnd a = true := by
      rintro ⟨a, ha, hend⟩
      simp [hpart a (List.mem_of_getLast? ha)] at hend
    have hcount := stopAfter_inside isEnd stop hpart seen rest
    rw [hs] at hcount
    by_cases hrest : rest = []
    · refine ⟨[], ?_, fun _ => rfl, Or.inl rfl⟩
      rw [hcount, hrest]
      rfl
    · refine ⟨seen ++ piece isEnd n s, hcount, fun h => absurd h hopen, Or.inr fun part => ?_⟩
      rcases hseen with rfl | hseen
      · have hfull : (piece isEnd n s).length = n := by
          rcases hsettled with (hfull | hends) | hnil
          · exact hfull
          · exact absurd hends hopen
          · exact absurd hnil hrest
        simpa using hshort _ part hfull
      · simpa using hseen (piece isEnd n s ++ part)
  -- the piece ends a line
  · have hline : stop (seen ++ body ++ [e]) = false := by
      rcases hseen with rfl | hseen
      · simpa [hpiece] using hstop
      · simpa using hseen (body ++ [e])
    refine ⟨[], ?_, fun _ => rfl, Or.inl rfl⟩
    have hcount := stopAfter_line isEnd stop hbody he seen rest
    have hsplit : s = body ++ e :: rest := by simpa [hpiece] using hs.symm
    rw [hline, ← hsplit] at hcount
    simpa [hpiece] using hcount

end StopAfter

/-! ### Positions in a stream -/

/-- A line begins at this position. -/
def AtStart (s : List α) (p : ℕ) : Prop := ∃ a, (s.take p).getLast? = some a ∧ isEnd a = true

instance (s : List α) (p : ℕ) : Decidable (AtStart isEnd s p) :=
  decidable_of_iff ((s.take p).getLast?.any isEnd = true) (by simp [AtStart, Option.any_eq_true])

/-- The end of the line that reaches up to this position: the position itself
when a line begins there. -/
def lineEnd (s : List α) (p : ℕ) : ℕ :=
  if AtStart isEnd s p then p else p + ((s.drop p).takeWhile (!isEnd ·)).length + 1

/-- Where the first complete line that satisfies `stop` ends, from a position
on. -/
def firstStop (stop : List α → Bool) (s : List α) (p : ℕ) : Option ℕ :=
  (stopAfter isEnd stop [] (s.drop p)).map (· + p)

theorem le_lineEnd (s : List α) (p : ℕ) : p ≤ lineEnd isEnd s p := by
  unfold lineEnd
  split <;> omega

/-- Behind a part of a stream a line begins when that part ends one. -/
theorem atStart_add {s line rest : List α} {p : ℕ} (hs : s.drop p = line ++ rest)
    (hne : line ≠ []) :
    AtStart isEnd s (p + line.length) ↔ ∃ a, line.getLast? = some a ∧ isEnd a = true := by
  have htake : s.take (p + line.length) = s.take p ++ line := by
    rw [List.take_add, hs, List.take_left']
    rfl
  rw [AtStart, htake, List.getLast?_append_of_ne_nil _ hne]

/-- Behind the front of a line that cannot satisfy `stop`, the count goes on at
the end of that line. -/
theorem firstStop_lineEnd (stop : List α → Bool) {s seen : List α} {p : ℕ}
    (hstart : AtStart isEnd s p → seen = [])
    (hseen : ¬ AtStart isEnd s p → ∀ part, stop (seen ++ part) = false) :
    firstStop isEnd stop s (lineEnd isEnd s p) =
      (stopAfter isEnd stop seen (s.drop p)).map (· + p) := by
  by_cases hp : AtStart isEnd s p
  · simp [firstStop, lineEnd, hp, hstart hp]
  · rw [stopAfter_skip isEnd stop (hseen hp)]
    simp [firstStop, lineEnd, hp, Option.map_map, Function.comp_def, List.drop_drop, Nat.add_comm,
      Nat.add_left_comm]

end Esif.CS.Lines
