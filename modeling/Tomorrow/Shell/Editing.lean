/-
Backspace as the inverse of typing (`Console::write_byte`, `Console::backspace`).

`write_byte` goes to the next row when the next column would begin at or behind the right border; `backspace` goes back to
column `width / 8 - 1`. When the border cuts a column the two disagree by one: the cut column is written and never blanked.
Within a row, and on screens of whole columns, n backspaces take back n bytes (`inverts_of_fits`); across the end of a row
of a cut screen they do not (`cut_cell_kept`).

Result: `backspace_inverts_iff`.
-/
import Tomorrow.Shell.LineDiscipline

namespace Tomorrow.Shell

open Tomorrow.Core Tomorrow.Files

/-! ## Cells drawn and blanked -/

/-- the console after `clear` -/
def Console.cleared (g : Geometry) : Console := ⟨g, fun _ _ => [], 0, 0⟩

/-- the cells in which the bytes are drawn, in order -/
def Console.drawn (c : Console) : Bytes → List (ℕ × ℕ)
  | [] => []
  | b :: bs => (c.cx, c.cy) :: (c.writeByte b).drawn bs

/-- the byte drawn at the cursor ends its row -/
def Console.EndsRow (c : Console) : Prop := c.geo.width ≤ (c.cx + 1) * glyphW

instance instDecidableEndsRow (c : Console) : Decidable c.EndsRow := inferInstanceAs (Decidable (_ ≤ _))

/-- writing the bytes, none of them a newline, reaches no `clear` -/
def Console.NoClear (c : Console) : Bytes → Prop
  | [] => True
  | b :: bs => (if c.EndsRow then c.cy + 1 else c.cy) < c.geo.height / glyphH ∧ (c.writeByte b).NoClear bs

/-- n backspaces after the bytes: the cursor is back, the cells drawn are blanked and no others, the rest is as before -/
structure Console.Inverts (c : Console) (bs : Bytes) : Prop where
  cx : ((c.writeBytes bs).erase bs.length).cx = c.cx
  cy : ((c.writeBytes bs).erase bs.length).cy = c.cy
  erased : ∀ p, p ∈ (c.writeBytes bs).erased bs.length ↔ p ∈ c.drawn bs
  cells : ∀ x y, ((c.writeBytes bs).erase bs.length).cells x y = if (x, y) ∈ c.drawn bs then [] else c.cells x y

/-! ## One byte -/

section

variable {c d : Console} {b : UInt8} {bs : Bytes}

theorem wrapRow_of_lt (h : c.cy < c.geo.height / glyphH) : c.wrapRow = c := if_neg (not_le.2 h)

/-- a byte that is no newline and reaches no clear -/
theorem writeByte_drawn (hb : b ≠ 0x0A) (h : (if c.EndsRow then c.cy + 1 else c.cy) < c.geo.height / glyphH) :
    (c.writeByte b).cx = (if c.EndsRow then 0 else c.cx + 1) ∧
      (c.writeByte b).cy = (if c.EndsRow then c.cy + 1 else c.cy) ∧ (c.writeByte b).cells = (c.drawChar b).cells := by
  by_cases hend : c.EndsRow
  · rw [if_pos hend] at h
    have hw : c.geo.width ≤ (c.cx + 1) * glyphW := hend
    rw [Console.writeByte, if_neg hb, if_pos hw, wrapRow_of_lt h, if_pos hend, if_pos hend]
    exact ⟨rfl, rfl, rfl⟩
  · rw [if_neg hend] at h
    have hw : ¬ c.geo.width ≤ (c.cx + 1) * glyphW := hend
    have hstay := wrapRow_of_lt (show ({ c.drawChar b with cx := c.cx + 1 } : Console).cy < c.geo.height / glyphH from h)
    rw [Console.writeByte, if_neg hb, if_neg hw, hstay, if_neg hend, if_neg hend]
    exact ⟨rfl, rfl, rfl⟩

theorem writeByte_geo (c : Console) (b : UInt8) : (c.writeByte b).geo = c.geo := by
  unfold Console.writeByte Console.wrapRow
  split_ifs <;> rfl

theorem apply_geo (c : Console) (o : ConsoleOp) : (c.apply o).geo = c.geo := by
  cases o with
  | writeByte b => exact writeByte_geo c b
  | backspace => exact backspace_geo c
  | clear => rfl

/-- the cursor stays in a column that begins left of the border -/
theorem apply_cx (h : c.cx * glyphW < c.geo.width) (o : ConsoleOp) : (c.apply o).cx * glyphW < (c.apply o).geo.width := by
  have hw := c.geo.width_ge
  rw [apply_geo]
  cases o with
  | writeByte b =>
    simp only [Console.apply, Console.writeByte, Console.wrapRow, Console.clear]
    split_ifs <;> simp only [Nat.zero_mul] <;> omega
  | backspace =>
    simp only [Console.apply, Console.backspace, Console.blank]
    split_ifs <;> simp only [glyphW] at * <;> omega
  | clear => simp only [Console.apply, Console.clear, Nat.zero_mul]; omega

theorem applyAll_cx (h : c.cx * glyphW < c.geo.width) (ops : List ConsoleOp) :
    (c.applyAll ops).cx * glyphW < (c.applyAll ops).geo.width ∧ (c.applyAll ops).geo = c.geo := by
  induction ops generalizing c with
  | nil => exact ⟨h, rfl⟩
  | cons o ops ih =>
    obtain ⟨hcx, hgeo⟩ := ih (apply_cx h o)
    exact ⟨hcx, hgeo.trans (apply_geo c o)⟩

/-- **Step lemma.** A backspace from where the byte has left the cursor goes back to the byte's cell, on a screen of whole
columns or inside a row. -/
theorem backspace_after (hcx : c.cx * glyphW < c.geo.width) (hb : b ≠ 0x0A)
    (hrow : (if c.EndsRow then c.cy + 1 else c.cy) < c.geo.height / glyphH) (hfit : c.geo.width % 8 = 0 ∨ ¬ c.EndsRow)
    (hgeo : d.geo = c.geo) (hdx : d.cx = (c.writeByte b).cx) (hdy : d.cy = (c.writeByte b).cy) :
    ¬ (d.cx = 0 ∧ d.cy = 0) ∧ d.backspace.cx = c.cx ∧ d.backspace.cy = c.cy := by
  obtain ⟨hx, hy, -⟩ := writeByte_drawn hb hrow
  rw [hx] at hdx
  rw [hy] at hdy
  unfold Console.backspace Console.blank
  by_cases hend : c.EndsRow
  · rw [if_pos hend] at hdx hdy
    have hmod := hfit.resolve_right (not_not.2 hend)
    have hlast : c.geo.width / glyphW - 1 = c.cx := by unfold Console.EndsRow glyphW at *; omega
    simp [hdx, hdy, hgeo, hlast]
  · rw [if_neg hend] at hdx hdy
    simp [hdx, hdy]

/-! ## Lists of bytes -/

theorem writeBytes_cons (c : Console) (b : UInt8) (bs : Bytes) :
    c.writeBytes (b :: bs) = (c.writeByte b).writeBytes bs := rfl

theorem writeBytes_geo (c : Console) (bs : Bytes) : (c.writeBytes bs).geo = c.geo := by
  induction bs generalizing c with
  | nil => rfl
  | cons b bs ih => exact (ih _).trans (writeByte_geo c b)

theorem erase_succ (c : Console) (n : ℕ) : c.erase (n + 1) = (c.erase n).backspace := Function.iterate_succ_apply' _ _ _

theorem erase_geo (c : Console) (n : ℕ) : (c.erase n).geo = c.geo := by
  induction n with
  | zero => rfl
  | succ n ih => rw [erase_succ, backspace_geo, ih]

/-- one more backspace, away from the corner, erases one more cell -/
theorem erased_succ (c : Console) (n : ℕ) (h : ¬ ((c.erase n).cx = 0 ∧ (c.erase n).cy = 0)) :
    c.erased (n + 1) = c.erased n ++ [((c.erase n).backspace.cx, (c.erase n).backspace.cy)] := by
  induction n generalizing c with
  | zero =>
    have h' : ¬ (c.cx = 0 ∧ c.cy = 0) := h
    simp only [Console.erased, if_neg h', List.nil_append]
    rfl
  | succ n ih =>
    have hne : ¬ (c.cx = 0 ∧ c.cy = 0) := by
      -- from the corner there is no way out
      intro h0
      have hback : c.backspace = c := by rw [Console.backspace, if_pos h0]
      exact h (by rw [Console.erase, Function.iterate_fixed hback]; exact h0)
    have hcons : ∀ m, c.erased (m + 1) = (c.backspace.cx, c.backspace.cy) :: c.backspace.erased m := fun m => if_neg hne
    rw [hcons (n + 1), hcons n, List.cons_append]
    exact congrArg _ (ih c.backspace h)

/-- the bytes stay in their row, or the screen has whole columns -/
def Console.Fits (c : Console) (n : ℕ) : Prop := c.geo.width % 8 = 0 ∨ (c.cx + n) * glyphW < c.geo.width

/-- **On whole columns or inside a row** the backspaces take the bytes back. -/
theorem inverts_of_fits (hcx : c.cx * glyphW < c.geo.width) (hbs : ∀ b ∈ bs, b ≠ 0x0A) (hclear : c.NoClear bs)
    (hfit : c.Fits bs.length) : c.Inverts bs := by
  induction bs generalizing c with
  | nil => exact ⟨rfl, rfl, fun p => Iff.rfl, fun x y => rfl⟩
  | cons b bs ih =>
    obtain ⟨hrow, hclear⟩ := hclear
    have hb := hbs b List.mem_cons_self
    obtain ⟨hx, -, hdraw⟩ := writeByte_drawn hb hrow
    have hgeo := writeByte_geo c b
    have hstay : c.geo.width % 8 = 0 ∨ ¬ c.EndsRow := by
      refine hfit.imp_right fun h => not_le.2 (lt_of_le_of_lt ?_ h)
      exact Nat.mul_le_mul_right _ (by simp only [List.length_cons]; omega)
    have hfit' : (c.writeByte b).Fits bs.length := by
      unfold Console.Fits at hfit ⊢
      rw [hgeo]
      rcases hstay with hmod | hend
      · exact Or.inl hmod
      · rw [hx, if_neg hend]
        refine hfit.imp_right fun h => ?_
        rw [List.length_cons, Nat.add_comm bs.length 1, ← Nat.add_assoc] at h
        exact h
    have h : (c.writeByte b).Inverts bs :=
      ih (apply_cx hcx (.writeByte b)) (fun b' h' => hbs b' (List.mem_cons_of_mem b h')) hclear hfit'
    -- the last backspace starts where byte b left the cursor
    have hd : (((c.writeByte b).writeBytes bs).erase bs.length).geo = c.geo := by
      rw [erase_geo, writeBytes_geo, hgeo]
    obtain ⟨hne, hbx, hby⟩ := backspace_after hcx hb hrow hstay hd h.cx h.cy
    refine ⟨?_, ?_, fun p => ?_, fun x y => ?_⟩
    · rw [List.length_cons, erase_succ]
      exact hbx
    · rw [List.length_cons, erase_succ]
      exact hby
    · rw [List.length_cons, writeBytes_cons, erased_succ _ _ hne, hbx, hby, List.mem_append, h.erased, Console.drawn,
        List.mem_singleton, List.mem_cons, or_comm]
    · rw [List.length_cons, writeBytes_cons, erase_succ, backspace_cells _ hne, hbx, hby, h.cells, hdraw]
      simp only [Console.drawn, List.mem_cons, Prod.mk.injEq, Console.drawChar]
      by_cases hxy : x = c.cx ∧ y = c.cy
      · simp [hxy]
      · simp [hxy]

/-- a list of bytes that reaches the end of the row of a cut screen draws in the cut column -/
theorem cut_cell_drawn (hcx : c.cx * glyphW < c.geo.width) (hmod : c.geo.width % 8 ≠ 0) (hbs : ∀ b ∈ bs, b ≠ 0x0A)
    (hclear : c.NoClear bs) (hlong : c.geo.width ≤ (c.cx + bs.length) * glyphW) :
    ∃ y, (c.geo.width / glyphW, y) ∈ c.drawn bs := by
  induction bs generalizing c with
  | nil => exact absurd hlong (not_le.2 hcx)
  | cons b bs ih =>
    obtain ⟨hrow, hclear⟩ := hclear
    by_cases hend : c.EndsRow
    · refine ⟨c.cy, List.mem_cons.2 (Or.inl (Prod.ext ?_ rfl))⟩
      show c.geo.width / glyphW = c.cx
      unfold Console.EndsRow glyphW at *
      omega
    · obtain ⟨hx, -, -⟩ := writeByte_drawn (hbs b List.mem_cons_self) hrow
      rw [if_neg hend] at hx
      have hgeo := writeByte_geo c b
      obtain ⟨y, hy⟩ := @ih (c.writeByte b) (apply_cx hcx (.writeByte b)) (by rw [hgeo]; exact hmod)
        (fun b' h' => hbs b' (List.mem_cons_of_mem b h')) hclear
        (by rw [hgeo, hx, Nat.add_assoc, Nat.add_comm 1]; exact hlong)
      rw [hgeo] at hy
      exact ⟨y, List.mem_cons_of_mem _ hy⟩

/-- no backspace blanks the cut column -/
theorem cut_cell_kept (hcx : c.cx * glyphW < c.geo.width) (n : ℕ) :
    ∀ p ∈ c.erased n, p.1 < c.geo.width / glyphW := by
  induction n generalizing c with
  | zero => simp [Console.erased]
  | succ n ih =>
    have hw := c.geo.width_ge
    have hnext := @ih c.backspace (apply_cx hcx .backspace)
    rw [backspace_geo] at hnext
    unfold Console.erased
    split_ifs with h0
    · simp
    · refine List.forall_mem_cons.2 ⟨?_, hnext⟩
      show c.backspace.cx < c.geo.width / glyphW
      unfold Console.backspace Console.blank
      rw [if_neg h0]
      unfold glyphW at *
      split_ifs <;> simp only <;> omega

/-- **Backspace inverts typing.** For every screen, every state that `write_byte`, `backspace` and `clear` reach from the
cleared screen and every list of bytes without a newline that triggers no clear: as many backspaces bring the cursor back
and blank exactly the cells drawn, iff the width is a multiple of 8 or the bytes do not reach the end of their row. -/
theorem backspace_inverts_iff {g : Geometry} {ops : List ConsoleOp} {bs : Bytes} (hbs : ∀ b ∈ bs, b ≠ 0x0A)
    (hclear : ((Console.cleared g).applyAll ops).NoClear bs) :
    ((Console.cleared g).applyAll ops).Inverts bs ↔
      g.width % 8 = 0 ∨ (((Console.cleared g).applyAll ops).cx + bs.length) * glyphW < g.width := by
  have hw := g.width_ge
  have hstart : (Console.cleared g).cx * glyphW < (Console.cleared g).geo.width := by
    show 0 * glyphW < g.width
    omega
  obtain ⟨hcx, hgeo⟩ := applyAll_cx hstart ops
  have hgeo : ((Console.cleared g).applyAll ops).geo = g := hgeo
  refine ⟨fun h => ?_, fun h => inverts_of_fits hcx hbs hclear (by unfold Console.Fits; rw [hgeo]; exact h)⟩
  by_contra hno
  push Not at hno
  obtain ⟨y, hy⟩ := cut_cell_drawn hcx (by rw [hgeo]; exact hno.1) hbs hclear (by rw [hgeo]; exact hno.2)
  have hcx' : (((Console.cleared g).applyAll ops).writeBytes bs).cx * glyphW <
      (((Console.cleared g).applyAll ops).writeBytes bs).geo.width := by
    rw [← applyAll_bytes]
    exact (applyAll_cx hcx (bytesOps bs)).1
  have hlt := cut_cell_kept hcx' bs.length _ ((h.erased _).2 hy)
  rw [writeBytes_geo] at hlt
  exact lt_irrefl _ hlt

end

/-- four columns: eight bytes over the end of a row -/
theorem backspace_inverts_iff_demo :
    ((Console.cleared ⟨32, 48, by decide⟩).applyAll [.writeByte 0x41]).Inverts (List.replicate 8 0x42) := by
  have hclear : ((Console.cleared ⟨32, 48, by decide⟩).applyAll [.writeByte 0x41]).NoClear (List.replicate 8 0x42) :=
    ⟨by decide, by decide, by decide, by decide, by decide, by decide, by decide, by decide, trivial⟩
  exact (backspace_inverts_iff (by decide +kernel) hclear).2 (Or.inl (by decide))

/-- a screen 12 pixels wide and two rows high -/
def cutGeometry : Geometry := ⟨12, 32, by decide⟩

/-- two bytes fill its first row, the second in the cut column; two backspaces bring the cursor back to the first cell and
leave the second byte on the screen -/
theorem cut_column_not_inverted : (Console.cleared cutGeometry).NoClear [0x41, 0x42] ∧
    (((Console.cleared cutGeometry).writeBytes [0x41, 0x42]).erase 2).cells 1 0 = [0x42] ∧
    ¬ (Console.cleared cutGeometry).Inverts [0x41, 0x42] := by
  have hkept : (((Console.cleared cutGeometry).writeBytes [0x41, 0x42]).erase 2).cells 1 0 = [0x42] := by decide
  refine ⟨⟨by decide, by decide, trivial⟩, hkept, fun h => ?_⟩
  have hcell := h.cells 1 0
  rw [show [0x41, (0x42 : UInt8)].length = 2 from rfl, hkept] at hcell
  exact absurd hcell (by decide)

end Tomorrow.Shell
