import Mathlib.Data.List.Flatten
import Esif.CS.Lines

/-!
# The lines of a stream and its pieces

A bounded reader that takes a stream piece by piece never takes from two lines at once: its
pieces are those of the first line, then those of the second, and so on.

## Main definitions

* `Lines.lines` — the lines of a stream, each with its end
* `Lines.allPieces` — the pieces a bounded reader takes until nothing is left
* `Lines.numbered` — pieces with the number of their line

## Main results

* `Lines.line_induction` — induction on a stream, line by line
* `Lines.numbered_allPieces` — the pieces of a stream are those of its lines, in order
* `Lines.allPieces_of_length_le` — a line within the bound is one piece
-/

namespace Esif.CS.Lines

variable {α : Type*} (isEnd : α → Bool)

/-- The lines of a stream, each with its end. -/
def lines : List α → List (List α)
  | [] => []
  | a :: s =>
    if isEnd a then [a] :: lines s
    else
      match lines s with
      | [] => [[a]]
      | l :: ls => (a :: l) :: ls

theorem length_piece_pos {n : ℕ} {s : List α} (h : piece isEnd n s ≠ []) :
    (s.drop (piece isEnd n s).length).length < s.length := by
  have hpos := List.length_pos_of_ne_nil h
  have hsplit := congrArg List.length (piece_append_drop isEnd n s)
  rw [List.length_append] at hsplit
  omega

/-- The pieces a bounded reader takes until nothing is left. -/
def allPieces (n : ℕ) (s : List α) : List (List α) :=
  if _h : piece isEnd n s = [] then []
  else piece isEnd n s :: allPieces n (s.drop (piece isEnd n s).length)
termination_by s.length
decreasing_by exact length_piece_pos isEnd _h

/-- Pieces with the number of their line, `i` for the first. -/
def numbered (i : ℕ) : List (List α) → List (ℕ × List α)
  | [] => []
  | p :: ps => (i, p) :: numbered (if p.getLast?.any isEnd then i + 1 else i) ps

/-- A stream is a part of a line, or a line with its end and a stream. -/
theorem exists_line (s : List α) :
    (∀ a ∈ s, isEnd a = false) ∨
      ∃ body e rest, s = body ++ e :: rest ∧ (∀ a ∈ body, isEnd a = false) ∧ isEnd e = true := by
  induction s with
  | nil => exact Or.inl (by simp)
  | cons a s ih =>
    cases ha : isEnd a with
    | true => exact Or.inr ⟨[], a, s, rfl, by simp, ha⟩
    | false =>
      rcases ih with hpart | ⟨body, e, rest, rfl, hbody, he⟩
      · exact Or.inl (List.forall_mem_cons.mpr ⟨ha, hpart⟩)
      · exact Or.inr ⟨a :: body, e, rest, rfl, List.forall_mem_cons.mpr ⟨ha, hbody⟩, he⟩

/-- Induction on a stream, line by line. -/
@[elab_as_elim]
theorem line_induction {motive : List α → Prop}
    (part : ∀ s, (∀ a ∈ s, isEnd a = false) → motive s)
    (line : ∀ body e s, (∀ a ∈ body, isEnd a = false) → isEnd e = true → motive s →
      motive (body ++ e :: s)) (s : List α) : motive s := by
  induction hlen : s.length using Nat.strongRecOn generalizing s with
  | _ n ih =>
    rcases exists_line isEnd s with hpart | ⟨body, e, rest, rfl, hbody, he⟩
    · exact part s hpart
    · refine line body e rest hbody he (ih rest.length ?_ rest rfl)
      rw [← hlen, List.length_append, List.length_cons]
      omega

section Split

variable {isEnd} {body : List α} {e : α}

theorem lines_part (hbody : ∀ a ∈ body, isEnd a = false) (hne : body ≠ []) :
    lines isEnd body = [body] := by
  induction body with
  | nil => exact absurd rfl hne
  | cons a body ih =>
    have ha : isEnd a = false := hbody a (by simp)
    cases body with
    | nil => simp [lines, ha]
    | cons b body =>
      have inner := ih (fun c hc => hbody c (by simp [hc])) (by simp)
      rw [lines, inner]
      simp [ha]

theorem lines_line (hbody : ∀ a ∈ body, isEnd a = false) (he : isEnd e = true) (s : List α) :
    lines isEnd (body ++ e :: s) = (body ++ [e]) :: lines isEnd s := by
  induction body with
  | nil => simp [lines, he]
  | cons a body ih =>
    have ha : isEnd a = false := hbody a (by simp)
    have inner := ih fun c hc => hbody c (by simp [hc])
    rw [List.cons_append, lines, inner]
    simp [ha]

/-- Inside a line a piece has all that the bound allows. -/
theorem piece_inside (hbody : ∀ a ∈ body, isEnd a = false) {n : ℕ} (hlen : n ≤ body.length)
    (s : List α) : piece isEnd n (body ++ s) = body.take n := by
  induction body generalizing n with
  | nil =>
    obtain rfl : n = 0 := by simpa using hlen
    rfl
  | cons a body ih =>
    cases n with
    | zero => rfl
    | succ n =>
      have inner := ih (fun b hb => hbody b (by simp [hb])) (n := n) (by simpa using hlen)
      rw [List.cons_append, piece_succ_cons, hbody a (by simp), inner]
      rfl

theorem piece_part (hbody : ∀ a ∈ body, isEnd a = false) (n : ℕ) :
    piece isEnd n body = body.take n := by
  induction body generalizing n with
  | nil => simp
  | cons a body ih =>
    cases n with
    | zero => rfl
    | succ n =>
      rw [piece_succ_cons, hbody a (by simp), ih (fun b hb => hbody b (by simp [hb]))]
      rfl

theorem allPieces_nil (n : ℕ) : allPieces isEnd n ([] : List α) = [] := by
  rw [allPieces]
  simp

/-- A line that fits the bound is the first piece. -/
theorem allPieces_line (hbody : ∀ a ∈ body, isEnd a = false) (he : isEnd e = true) {n : ℕ}
    (hlen : body.length < n) (s : List α) :
    allPieces isEnd n (body ++ e :: s) = (body ++ [e]) :: allPieces isEnd n s := by
  have hdrop : (body ++ e :: s).drop (body ++ [e]).length = s := by simp
  rw [allPieces, piece_line isEnd hbody he hlen, dif_neg (by simp), hdrop]

/-- The pieces are within the bound, and none is empty. -/
theorem allPieces_bounds (n : ℕ) (s : List α) :
    ∀ p ∈ allPieces isEnd n s, p ≠ [] ∧ p.length ≤ n := by
  fun_induction allPieces isEnd n s with
  | case1 s hnil => exact fun p hp => absurd hp List.not_mem_nil
  | case2 s hne ih => exact List.forall_mem_cons.mpr ⟨⟨hne, piece_length_le isEnd n s⟩, ih⟩

/-- Whole pieces are taken one by one. -/
theorem allPieces_of_whole {n : ℕ} {ls : List (List α)} (h : ∀ l ∈ ls, Whole isEnd n l ∧ l ≠ []) :
    allPieces isEnd n ls.flatten = ls := by
  induction ls with
  | nil => exact allPieces_nil n
  | cons l ls ih =>
    obtain ⟨⟨hwhole, hne⟩, hrest⟩ := List.forall_mem_cons.mp h
    have hpiece := hwhole.piece_append ls.flatten
    rw [List.flatten_cons, allPieces, hpiece, dif_neg hne, List.drop_left, ih hrest]

theorem flatten_allPieces (n : ℕ) (s : List α) : (allPieces isEnd (n + 1) s).flatten = s := by
  fun_induction allPieces isEnd (n + 1) s with
  | case1 s hnil =>
    cases s with
    | nil => rfl
    | cons a s =>
      rw [piece_succ_cons] at hnil
      split at hnil
      · cases hnil
      · cases hnil
  | case2 s hne ih => rw [List.flatten_cons, ih, piece_append_drop]

/-- The last piece ends with the last element. -/
theorem allPieces_concat (n : ℕ) (s : List α) (e : α) :
    ∃ ps p, allPieces isEnd (n + 1) (s ++ [e]) = ps ++ [p ++ [e]] := by
  have hflat := @flatten_allPieces _ isEnd n (s ++ [e])
  have hbounds := @allPieces_bounds _ isEnd (n + 1) (s ++ [e])
  generalize allPieces isEnd (n + 1) (s ++ [e]) = all at hflat hbounds
  rcases all.eq_nil_or_concat with rfl | ⟨ps, q, rfl⟩
  · simp at hflat
  · obtain ⟨p, b, rfl⟩ := q.eq_nil_or_concat.resolve_left (hbounds q (by simp)).1
    have hlast : ps.flatten ++ p ++ [b] = s ++ [e] := by simpa using hflat
    obtain ⟨-, hb⟩ := List.append_inj' hlast rfl
    rw [List.singleton_inj.mp hb, List.concat_eq_append, List.concat_eq_append]
    exact ⟨ps, p, rfl⟩

/-- A part of a line that has no end is taken up to the bound. -/
theorem numbered_allPieces_part (n i : ℕ) (hbody : ∀ a ∈ body, isEnd a = false) :
    numbered isEnd i (allPieces isEnd n body) = (allPieces isEnd n body).map (i, ·) := by
  induction hlen : body.length using Nat.strongRecOn generalizing body with
  | _ m ih =>
    rw [allPieces]
    split
    · rfl
    · next hne =>
      have hdrop := length_piece_pos isEnd hne
      have hopen : (piece isEnd n body).getLast?.any isEnd = false := by
        rw [piece_part hbody]
        cases hlast : (body.take n).getLast? with
        | none => rfl
        | some a => exact hbody a (List.mem_of_mem_take (List.mem_of_getLast? hlast))
      rw [numbered, hopen, List.map_cons]
      refine congrArg _ (ih _ (hlen ▸ hdrop) ?_ rfl)
      exact fun a ha => hbody a (List.mem_of_mem_drop ha)

/-- The pieces of a line, and then those of the rest. -/
theorem numbered_allPieces_line (n i : ℕ) (hbody : ∀ a ∈ body, isEnd a = false)
    (he : isEnd e = true) (s : List α) :
    numbered isEnd i (allPieces isEnd (n + 1) (body ++ e :: s)) =
      (allPieces isEnd (n + 1) (body ++ [e])).map (i, ·) ++
        numbered isEnd (i + 1) (allPieces isEnd (n + 1) s) := by
  induction hlen : body.length using Nat.strongRecOn generalizing body with
  | _ m ih =>
    by_cases hfit : body.length < n + 1
    -- the line is taken whole
    · have hends : (body ++ [e]).getLast?.any isEnd = true := by simp [he]
      rw [allPieces_line hbody he hfit, allPieces_line hbody he hfit, allPieces_nil, numbered,
        hends]
      rfl
    -- the bound cuts it
    · have hcut : n + 1 ≤ body.length := Nat.le_of_not_lt hfit
      have hpiece : ∀ t, piece isEnd (n + 1) (body ++ e :: t) = body.take (n + 1) := fun t =>
        piece_inside hbody hcut (e :: t)
      have htake : (body.take (n + 1)).length = n + 1 := List.length_take_of_le hcut
      have hne : body.take (n + 1) ≠ [] := List.ne_nil_of_length_pos (by omega)
      have hdrop : ∀ t, (body ++ e :: t).drop (body.take (n + 1)).length =
          body.drop (n + 1) ++ e :: t := fun t => by
        rw [htake, List.drop_append_of_le_length hcut]
      have hopen : (body.take (n + 1)).getLast?.any isEnd = false := by
        cases hlast : (body.take (n + 1)).getLast? with
        | none => rfl
        | some a => exact hbody a (List.mem_of_mem_take (List.mem_of_getLast? hlast))
      have inner := ih (body.drop (n + 1)).length (by rw [List.length_drop]; omega)
        (fun a ha => hbody a (List.mem_of_mem_drop ha)) rfl
      have hsplit : ∀ t, allPieces isEnd (n + 1) (body ++ e :: t) =
          body.take (n + 1) :: allPieces isEnd (n + 1) (body.drop (n + 1) ++ e :: t) :=
        fun t => by rw [allPieces, hpiece, dif_neg hne, hdrop]
      rw [hsplit, hsplit, numbered, hopen, List.map_cons, List.cons_append]
      exact congrArg _ inner

end Split

/-- The pieces of a stream are those of its lines, in order. -/
theorem numbered_allPieces (n i : ℕ) (s : List α) :
    numbered isEnd i (allPieces isEnd (n + 1) s) =
      ((lines isEnd s).zipIdx i).flatMap fun l =>
        (allPieces isEnd (n + 1) l.1).map (l.2, ·) := by
  induction s using line_induction isEnd generalizing i with
  | part s hpart =>
    by_cases hne : s = []
    · subst hne
      rw [allPieces_nil]
      rfl
    · rw [numbered_allPieces_part _ _ hpart, lines_part hpart hne]
      simp
  | line body e s hbody he ih =>
    rw [numbered_allPieces_line n i hbody he, lines_line hbody he, ih (i + 1)]
    simp

/-- A line within the bound is one piece. -/
theorem allPieces_of_length_le {n : ℕ} {s l : List α} (hl : l ∈ lines isEnd s)
    (hlen : l.length ≤ n) : allPieces isEnd n l = [l] := by
  induction s using line_induction isEnd with
  | part s hpart =>
    by_cases hne : s = []
    · subst hne
      cases hl
    · rw [lines_part hpart hne, List.mem_singleton] at hl
      subst hl
      have hpiece : piece isEnd n l = l := by
        rw [piece_part hpart, List.take_of_length_le hlen]
      rw [allPieces, hpiece, dif_neg hne, List.drop_length, allPieces_nil]
  | line body e s hbody he ih =>
    rw [lines_line hbody he, List.mem_cons] at hl
    rcases hl with rfl | hl
    · rw [List.length_append, List.length_singleton] at hlen
      rw [allPieces_line hbody he (Nat.lt_of_succ_le hlen), allPieces_nil]
    · exact ih hl

end Esif.CS.Lines
