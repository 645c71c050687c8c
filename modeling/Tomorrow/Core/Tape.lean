/-
A text screen as a tape: the cells before the cursor in reading order, each with what has been drawn in it. All cells at
and after the cursor are blank, so the tape is the whole screen.

Drawing a character appends a cell, a newline appends blank cells up to the next row, a backspace drops the last cell,
and a screen that is full starts again with an empty tape.

`Ends t vis`: the tape ends in vis, one character to a cell, as far as the tape reaches back. Drawing extends vis
(`Ends.puts`), a backspace takes one character off it (`Ends.back`), and a screen that was cleared in between ends in any
vis. `Ends.drop` reads the last cells off.
-/
import Mathlib.Data.List.Basic

namespace Tomorrow.Core

/-! ## Tapes -/

abbrev Tape (α : Type) := List (List α)

/-- what is done to a screen -/
inductive TapeOp (α : Type) where
  | put (a : α)
  | newline
  | back
  | clear

section

variable {α : Type}

/-- a screen of `rows` rows of `cols` cells -/
def Tape.step (cols rows : ℕ) (t : Tape α) : TapeOp α → Tape α
  | .put a => if cols * rows ≤ t.length + 1 then [] else t ++ [[a]]
  | .newline =>
    if cols * rows ≤ (t.length / cols + 1) * cols then []
    else t ++ List.replicate ((t.length / cols + 1) * cols - t.length) []
  | .back => t.dropLast
  | .clear => []

def Tape.steps (cols rows : ℕ) (t : Tape α) (ops : List (TapeOp α)) : Tape α := ops.foldl (Tape.step cols rows) t

theorem Tape.steps_append (cols rows : ℕ) (t : Tape α) (a b : List (TapeOp α)) :
    Tape.steps cols rows t (a ++ b) = Tape.steps cols rows (Tape.steps cols rows t a) b := List.foldl_append

/-- at and after the cursor all is blank -/
theorem Tape.getD_beyond (t : Tape α) {i : ℕ} (h : t.length ≤ i) : t.getD i [] = [] := by
  rw [List.getD_eq_getElem?_getD, List.getElem?_eq_none h]
  rfl

theorem Tape.getD_before (t : Tape α) {i : ℕ} (h : i < t.length) : t.getD i [] = t[i] := by
  rw [List.getD_eq_getElem?_getD, List.getElem?_eq_getElem h]
  rfl

theorem Tape.getD_snoc (t : Tape α) (x : List α) (i : ℕ) :
    (t ++ [x]).getD i [] = if i = t.length then x else t.getD i [] := by
  simp only [List.getD_eq_getElem?_getD, List.getElem?_append]
  split_ifs with h1 h2 h2
  · omega
  · rfl
  · simp [h2]
  · rw [List.getElem?_eq_none (by rw [List.length_singleton]; omega), List.getElem?_eq_none (by omega)]

theorem Tape.getD_blanks (t : Tape α) (n i : ℕ) : (t ++ List.replicate n []).getD i [] = t.getD i [] := by
  simp only [List.getD_eq_getElem?_getD, List.getElem?_append, List.getElem?_replicate]
  split_ifs with h1 h2
  · rfl
  · rw [List.getElem?_eq_none (by omega)]; rfl
  · rw [List.getElem?_eq_none (by omega)]

theorem Tape.getD_dropLast (t : Tape α) (i : ℕ) :
    t.dropLast.getD i [] = if i + 1 = t.length then [] else t.getD i [] := by
  simp only [List.getD_eq_getElem?_getD, List.getElem?_dropLast]
  split_ifs with h1 h2 h2
  · omega
  · rfl
  · rfl
  · rw [List.getElem?_eq_none (by omega)]

/-! ## How a tape ends -/

/-- the tape ends in vis, or in a part of vis when it is all the tape holds -/
def Ends (t : Tape α) (vis : List α) : Prop :=
  ∃ pre suf, t = pre ++ suf.map (fun a => [a]) ∧ suf <:+ vis ∧ (suf = vis ∨ pre = [])

theorem Ends.nil (t : Tape α) : Ends t [] := ⟨t, [], by simp, List.suffix_rfl, Or.inl rfl⟩

theorem Ends.empty (vis : List α) : Ends [] vis := ⟨[], [], rfl, List.nil_suffix, Or.inr rfl⟩

theorem Ends.put {t : Tape α} {vis : List α} (h : Ends t vis) (cols rows : ℕ) (a : α) :
    Ends (t.step cols rows (.put a)) (vis ++ [a]) := by
  simp only [Tape.step]
  split_ifs
  · exact Ends.empty _
  · obtain ⟨pre, suf, rfl, hsuf, hall⟩ := h
    refine ⟨pre, suf ++ [a], by simp, ?_, ?_⟩
    · obtain ⟨rest, rfl⟩ := hsuf
      exact ⟨rest, by simp⟩
    · rcases hall with rfl | hpre
      · exact Or.inl rfl
      · exact Or.inr hpre

theorem Ends.puts {t : Tape α} {vis : List α} (h : Ends t vis) (cols rows : ℕ) (as : List α) :
    Ends (t.steps cols rows (as.map .put)) (vis ++ as) := by
  induction as generalizing t vis with
  | nil => simpa [Tape.steps] using h
  | cons a as ih =>
    have := ih (h.put cols rows a)
    rw [List.append_assoc] at this
    exact this

theorem Ends.back {t : Tape α} {vis : List α} {a : α} (h : Ends t (vis ++ [a])) : Ends t.dropLast vis := by
  obtain ⟨pre, suf, rfl, hsuf, hall⟩ := h
  rcases List.eq_nil_or_concat' suf with rfl | ⟨suf', x, rfl⟩
  · -- nothing of vis is on the tape, so the tape is empty
    obtain rfl : pre = [] := hall.resolve_left (by simp)
    exact Ends.empty vis
  · obtain ⟨rest, hrest⟩ := hsuf
    rw [← List.append_assoc] at hrest
    obtain ⟨hvis, -⟩ := List.append_inj' hrest rfl
    refine ⟨pre, suf', by simp [← List.append_assoc], ⟨rest, hvis⟩, ?_⟩
    rcases hall with hall | hpre
    · exact Or.inl (List.append_inj' hall rfl).1
    · exact Or.inr hpre

/-- the last cells of the tape, read off vis -/
theorem Ends.drop {t : Tape α} {vis : List α} (h : Ends t vis) :
    t.drop (t.length - min t.length vis.length) =
      (vis.drop (vis.length - min t.length vis.length)).map fun a => [a] := by
  obtain ⟨pre, suf, rfl, ⟨rest, rfl⟩, hall⟩ := h
  have hk : min (pre ++ suf.map fun a => [a]).length (rest ++ suf).length = suf.length := by
    simp only [List.length_append, List.length_map]
    rcases hall with hall | rfl
    · have := congrArg List.length hall
      simp only [List.length_append] at this
      omega
    · simp
  rw [hk, List.length_append, List.length_append, List.length_map, Nat.add_sub_cancel, Nat.add_sub_cancel,
    List.drop_left, List.drop_left]

end

end Tomorrow.Core
