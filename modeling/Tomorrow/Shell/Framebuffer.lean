/-
The console pixel by pixel (`console.rs`, `draw_char`): which words of the framebuffer its operations write.

All coordinates are u32 and every operation on them is checked. A write is logged with its index, and a pixel of a glyph
also with its column. The cell-level console of `Shell/Console` is the same console seen through its text cells: an
operation moves both cursors alike and writes only pixels of the cell it draws or blanks (`Fb.Step`).

`write_byte` starts a new row when the next column would begin at or behind the right border, so a width that is no
multiple of 8 leaves a last column that is cut by the border, and glyphs are drawn in it whole.

Result: `framebuffer_bounds`.
-/
import Tomorrow.Shell.Editing
import Tomorrow.Shell.Font

namespace Tomorrow.Shell

open Tomorrow.Core

/-! ## Model -/

/-- a u32 result of an addition or a multiplication -/
def u32 (n : ℕ) : Except Panic ℕ := if n < 2 ^ 32 then .ok n else .error .overflow

theorem u32_eq {n : ℕ} (h : n < 2 ^ 32) : u32 n = .ok n := if_pos h

/-- one word of the framebuffer written -/
structure Write where
  index : ℕ
  color : ℕ
  /-- the column of a pixel of a glyph -/
  column : Option ℕ
deriving DecidableEq

/-- `Console`, with the writes through `fb` logged -/
structure Fb where
  pitch : ℕ
  width : ℕ
  height : ℕ
  cx : ℕ
  cy : ℕ
deriving DecidableEq

def Fb.stride (f : Fb) : ℕ := f.pitch / 4

/-- the store for pixel p of a cell whose corner is (x, y) -/
def putPixel (x y stride color : ℕ) (isGlyph : Bool) (p : ℕ × ℕ) : Except Panic Write :=
  u32 (x + p.2) >>= fun px =>
  u32 (y + p.1) >>= fun py =>
  u32 (py * stride) >>= fun line =>
  u32 (line + px) >>= fun index => .ok ⟨index, color, if isGlyph then some px else none⟩

def drawChar (ch : UInt8) (x y fg pitch : ℕ) : Except Panic (List Write) :=
  (litPixels ch).mapM (putPixel x y (pitch / 4) fg true)

def Fb.clear (f : Fb) : Except Panic (Fb × List Write) :=
  u32 (f.stride * f.height) >>= fun pixels =>
  .ok ({ f with cx := 0, cy := 0 }, (List.range pixels).map fun i => ⟨i, 0x000000, none⟩)

/-- the end of `write_byte`: clear when the cursor has left the last row -/
def Fb.wrapRow (f : Fb) (ws : List Write) : Except Panic (Fb × List Write) :=
  if f.height / glyphH ≤ f.cy then f.clear >>= fun r => .ok (r.1, ws ++ r.2) else .ok (f, ws)

def Fb.writeByte (f : Fb) (b : UInt8) : Except Panic (Fb × List Write) :=
  if b = 0x0A then u32 (f.cy + 1) >>= fun cy => Fb.wrapRow { f with cx := 0, cy := cy } []
  else
    u32 (f.cx * glyphW) >>= fun x =>
    u32 (f.cy * glyphH) >>= fun y =>
    drawChar b x y 0xFFFFFF f.pitch >>= fun ws =>
    u32 (f.cx + 1) >>= fun cx =>
    u32 (cx * glyphW) >>= fun right =>
    if f.width ≤ right then u32 (f.cy + 1) >>= fun cy => Fb.wrapRow { f with cx := 0, cy := cy } ws
    else Fb.wrapRow { f with cx := cx } ws

/-- fill the cell under the cursor -/
def Fb.blank (f : Fb) : Except Panic (Fb × List Write) :=
  u32 (f.cx * glyphW) >>= fun x =>
  u32 (f.cy * glyphH) >>= fun y =>
  cellPixels.mapM (putPixel x y f.stride 0x000000 false) >>= fun ws => .ok (f, ws)

def Fb.backspace (f : Fb) : Except Panic (Fb × List Write) :=
  if f.cx = 0 ∧ f.cy = 0 then .ok (f, [])
  else if 0 < f.cx then Fb.blank { f with cx := f.cx - 1 }
  else ckSub (f.width / glyphW) 1 >>= fun cx => Fb.blank { f with cy := f.cy - 1, cx := cx }

def Fb.apply (f : Fb) : ConsoleOp → Except Panic (Fb × List Write)
  | .writeByte b => f.writeByte b
  | .backspace => f.backspace
  | .clear => f.clear

def Fb.applyAll (f : Fb) : List ConsoleOp → Except Panic (Fb × List Write)
  | [] => .ok (f, [])
  | o :: ops => f.apply o >>= fun r => r.1.applyAll ops >>= fun r' => .ok (r'.1, r.2 ++ r'.2)

/-! ## Bounds -/

/-- the framebuffers a boot loader may hand over: room for one cell, whole words in a line of at least the width -/
structure Fb.Regular (f : Fb) : Prop where
  width_ge : 8 ≤ f.width
  height_ge : 16 ≤ f.height
  pitch_mod : f.pitch % 4 = 0
  pitch_ge : 4 * f.width ≤ f.pitch
  size_lt : f.pitch * f.height < 2 ^ 32

/-- the cursor is on the screen, in a column that begins before the right border -/
structure Fb.OnScreen (f : Fb) : Prop where
  cx : f.cx * 8 < f.width
  cy : f.cy < f.height / 16

/-- the write is inside the framebuffer, and on the screen if it is a pixel of a glyph -/
def Write.InBounds (f : Fb) (w : Write) : Prop := w.index < f.stride * f.height ∧ ∀ px, w.column = some px → px < f.width

/-- the pixel writes of a cell -/
def cellWrites (x y stride color : ℕ) (isGlyph : Bool) (ps : List (ℕ × ℕ)) : List Write :=
  ps.map fun p => ⟨(y + p.1) * stride + (x + p.2), color, if isGlyph then some (x + p.2) else none⟩

theorem mapM_ok {α β : Type} {f : α → Except Panic β} {g : α → β} {l : List α} (h : ∀ a ∈ l, f a = .ok (g a)) :
    l.mapM f = .ok (l.map g) := by
  induction l with
  | nil => rfl
  | cons a l ih =>
    rw [List.mapM_cons, h a List.mem_cons_self, ok_bind, ih fun b hb => h b (List.mem_cons_of_mem a hb)]
    rfl

section

variable {f : Fb}

/-- the numbers in play are far below 2^32 -/
theorem Fb.Regular.small (hf : f.Regular) : f.width ≤ f.stride ∧ 16 * f.stride ≤ f.stride * f.height ∧
    f.stride * f.height < 2 ^ 30 ∧ f.height < 2 ^ 30 := by
  obtain ⟨hw, hh, hp, hge, hlt⟩ := hf
  have hstride : f.pitch = 4 * f.stride := by unfold Fb.stride; omega
  have h1 : f.width ≤ f.stride := by omega
  have h2 : 16 * f.stride ≤ f.stride * f.height := by rw [Nat.mul_comm]; exact Nat.mul_le_mul_left _ hh
  have h3 : f.stride * f.height < 2 ^ 30 := by
    rw [hstride, Nat.mul_assoc] at hlt
    omega
  have h4 : f.height ≤ f.stride * f.height := Nat.le_mul_of_pos_left _ (by omega)
  exact ⟨h1, h2, h3, by omega⟩

/-- no arithmetic overflows for a cell on the screen -/
theorem Fb.Regular.pixels (hf : f.Regular) {cx cy : ℕ} (hcx : cx * 8 < f.width) (hcy : cy < f.height / 16) (color : ℕ)
    (isGlyph : Bool) {ps : List (ℕ × ℕ)} (hps : ∀ p ∈ ps, p ∈ cellPixels) :
    ps.mapM (putPixel (cx * glyphW) (cy * glyphH) f.stride color isGlyph) =
      .ok (cellWrites (cx * 8) (cy * 16) f.stride color isGlyph ps) := by
  obtain ⟨h1, h2, h3, h4⟩ := hf.small
  refine mapM_ok fun p hp => ?_
  obtain ⟨hrow, hcol⟩ := mem_cellPixels.1 (hps p hp)
  have hy : cy * 16 + p.1 < f.height := by omega
  have hline : (cy * 16 + p.1) * f.stride ≤ f.stride * f.height := by
    rw [Nat.mul_comm f.stride]
    exact Nat.mul_le_mul_right _ hy.le
  simp only [putPixel, glyphW, glyphH, u32_eq (show cx * 8 + p.2 < 2 ^ 32 by omega),
    u32_eq (show cy * 16 + p.1 < 2 ^ 32 by omega), u32_eq (show (cy * 16 + p.1) * f.stride < 2 ^ 32 by omega),
    u32_eq (show (cy * 16 + p.1) * f.stride + (cx * 8 + p.2) < 2 ^ 32 by omega), ok_bind]

/-- a pixel of a cell on the screen is inside the framebuffer when its column is on the screen -/
theorem Fb.Regular.index_lt (hf : f.Regular) {cy row px : ℕ} (hcy : cy < f.height / 16) (hrow : row < 16)
    (hpx : px < f.width) : (cy * 16 + row) * f.stride + px < f.stride * f.height := by
  obtain ⟨h1, -⟩ := hf.small
  calc (cy * 16 + row) * f.stride + px < (cy * 16 + row + 1) * f.stride := by rw [Nat.succ_mul]; omega
    _ ≤ f.height * f.stride := Nat.mul_le_mul_right _ (by omega)
    _ = f.stride * f.height := Nat.mul_comm _ _

/-- every set pixel of the byte would be left of the right border -/
def Fb.GlyphFits (f : Fb) (b : UInt8) : Prop := ∀ p ∈ litPixels b, f.cx * 8 + p.2 < f.width

theorem glyph_inBounds_iff (hf : f.Regular) (hs : f.OnScreen) (b : UInt8) :
    (∀ w ∈ cellWrites (f.cx * 8) (f.cy * 16) f.stride 0xFFFFFF true (litPixels b), w.InBounds f) ↔ f.GlyphFits b := by
  simp only [cellWrites, List.forall_mem_map, Write.InBounds, if_true, Option.some.injEq, forall_eq', Fb.GlyphFits]
  refine forall₂_congr fun p hp => ⟨fun h => h.2, fun h => ⟨?_, h⟩⟩
  exact hf.index_lt hs.cy (mem_litPixels.1 hp).1.1 h

/-- a cell that ends left of the border is blanked inside the framebuffer -/
theorem blank_inBounds (hf : f.Regular) {cx cy : ℕ} (hcx : cx * 8 + 8 ≤ f.width) (hcy : cy < f.height / 16) :
    ∀ w ∈ cellWrites (cx * 8) (cy * 16) f.stride 0x000000 false cellPixels, w.InBounds f := by
  simp only [cellWrites, List.forall_mem_map]
  intro p hp
  obtain ⟨hrow, hcol⟩ := mem_cellPixels.1 hp
  exact ⟨hf.index_lt hcy hrow (by omega), fun px h => by simp at h⟩

/-! ## Steps -/

/-- the same framebuffer, with the cursor elsewhere -/
structure Fb.SameScreen (f f' : Fb) : Prop where
  pitch : f'.pitch = f.pitch
  width : f'.width = f.width
  height : f'.height = f.height

theorem Fb.SameScreen.regular {f' : Fb} (h : f.SameScreen f') (hf : f.Regular) : f'.Regular := by
  obtain ⟨hp, hw, hh⟩ := h
  exact ⟨hw ▸ hf.width_ge, hh ▸ hf.height_ge, hp ▸ hf.pitch_mod, by rw [hp, hw]; exact hf.pitch_ge,
    by rw [hp, hh]; exact hf.size_lt⟩

/-- the cursor has no part in it -/
theorem Fb.Regular.moved (hf : f.Regular) (cx cy : ℕ) : Fb.Regular { f with cx := cx, cy := cy } :=
  Fb.SameScreen.regular (f := f) ⟨rfl, rfl, rfl⟩ hf

theorem Fb.SameScreen.inBounds {f' : Fb} (h : f.SameScreen f') (w : Write) : w.InBounds f' ↔ w.InBounds f := by
  simp only [Write.InBounds, Fb.stride, h.pitch, h.width, h.height]

/-- the cell-level console with the same screen and cursor -/
structure Fb.Tracks (f : Fb) (c : Console) : Prop where
  width : c.geo.width = f.width
  height : c.geo.height = f.height
  cx : c.cx = f.cx
  cy : c.cy = f.cy

/-- what an operation does to the console: the cursor of the cell-level console, and these writes -/
structure Fb.Step (f : Fb) (c' : Console) (f' : Fb) : Prop where
  same : f.SameScreen f'
  onScreen : f'.OnScreen
  tracks : f'.Tracks c'

theorem Fb.clear_spec {c : Console} (hf : f.Regular) (ht : f.Tracks c) :
    ∃ f' ws, f.clear = .ok (f', ws) ∧ f.Step c.clear f' ∧ ∀ w ∈ ws, w.InBounds f := by
  obtain ⟨h1, h2, h3, h4⟩ := hf.small
  have hw := hf.width_ge
  have hh := hf.height_ge
  refine ⟨{ f with cx := 0, cy := 0 }, _, by rw [Fb.clear, u32_eq (by omega), ok_bind],
    ⟨⟨rfl, rfl, rfl⟩, ⟨?_, ?_⟩, ⟨ht.width, ht.height, rfl, rfl⟩⟩, ?_⟩
  · show 0 * 8 < f.width
    omega
  · show 0 < f.height / 16
    omega
  · simp [Write.InBounds]

/-- the end of `write_byte`, with the cursor moved to a column on the screen -/
theorem Fb.wrapRow_spec {c : Console} (hf : f.Regular) {cx cy : ℕ} (hcx : cx * 8 < f.width)
    (ht : Fb.Tracks { f with cx := cx, cy := cy } c) (ws : List Write) :
    ∃ f' ws', Fb.wrapRow { f with cx := cx, cy := cy } ws = .ok (f', ws ++ ws') ∧ f.Step c.wrapRow f' ∧
      ∀ w ∈ ws', w.InBounds f := by
  unfold Fb.wrapRow Console.wrapRow
  rw [ht.height, ht.cy]
  split_ifs with hrow
  · obtain ⟨f', ws', hc, hstep, hin⟩ := Fb.clear_spec (hf.moved cx cy) ht
    exact ⟨f', ws', by rw [hc, ok_bind], ⟨⟨hstep.same.pitch, hstep.same.width, hstep.same.height⟩, hstep.onScreen,
      hstep.tracks⟩, hin⟩
  · exact ⟨{ f with cx := cx, cy := cy }, [], by simp, ⟨⟨rfl, rfl, rfl⟩, ⟨hcx, not_le.1 hrow⟩, ht⟩, by simp⟩

/-- the condition on an operation in a state: a byte that is drawn has no pixel at or behind the right border -/
def Fb.Fits (f : Fb) : ConsoleOp → Prop
  | .writeByte b => b = 0x0A ∨ f.GlyphFits b
  | _ => True

theorem Fb.writeByte_spec {c : Console} (hf : f.Regular) (hs : f.OnScreen) (ht : f.Tracks c) (b : UInt8) :
    ∃ f' ws, f.writeByte b = .ok (f', ws) ∧ f.Step (c.writeByte b) f' ∧
      ((∀ w ∈ ws, w.InBounds f) ↔ b = 0x0A ∨ f.GlyphFits b) := by
  obtain ⟨h1, h2, h3, h4⟩ := hf.small
  have hw := hf.width_ge
  have hcx := hs.cx
  have hcy := hs.cy
  have hnewRow : Fb.Tracks { f with cx := 0, cy := f.cy + 1 } { c with cx := 0, cy := c.cy + 1 } :=
    ⟨ht.width, ht.height, rfl, by rw [ht.cy]⟩
  unfold Fb.writeByte Console.writeByte
  by_cases hb : b = 0x0A
  · rw [if_pos hb, if_pos hb, u32_eq (by omega), ok_bind]
    obtain ⟨f', ws', heq, hstep, hin⟩ := Fb.wrapRow_spec hf (by omega) hnewRow []
    exact ⟨f', ws', heq, hstep, iff_of_true hin (Or.inl hb)⟩
  · have hdraw : drawChar b (f.cx * glyphW) (f.cy * glyphH) 0xFFFFFF f.pitch =
        .ok (cellWrites (f.cx * 8) (f.cy * 16) f.stride 0xFFFFFF true (litPixels b)) :=
      hf.pixels hcx hcy _ _ fun p hp => (List.mem_filter.1 hp).1
    have hbounds : ∀ ws' : List Write, (∀ w ∈ ws', w.InBounds f) →
        ((∀ w ∈ cellWrites (f.cx * 8) (f.cy * 16) f.stride 0xFFFFFF true (litPixels b) ++ ws', w.InBounds f) ↔
          b = 0x0A ∨ f.GlyphFits b) := by
      intro ws' hin
      rw [or_iff_right hb, ← glyph_inBounds_iff hf hs b]
      simp only [List.forall_mem_append, and_iff_left hin]
    have hx : f.cx * glyphW < 2 ^ 32 := by unfold glyphW; omega
    have hy : f.cy * glyphH < 2 ^ 32 := by unfold glyphH; omega
    have hright : (f.cx + 1) * glyphW < 2 ^ 32 := by unfold glyphW; omega
    rw [if_neg hb, if_neg hb, u32_eq hx, ok_bind, u32_eq hy, ok_bind, hdraw, ok_bind, u32_eq (by omega), ok_bind,
      u32_eq hright, ok_bind, ht.width, ht.cx]
    split_ifs with hend
    · rw [u32_eq (by omega), ok_bind]
      obtain ⟨f', ws', heq, hstep, hin⟩ := @Fb.wrapRow_spec f { c.drawChar b with cx := 0, cy := c.cy + 1 } hf 0 (f.cy + 1)
        (by omega) ⟨ht.width, ht.height, rfl, by rw [ht.cy]⟩
        (cellWrites (f.cx * 8) (f.cy * 16) f.stride 0xFFFFFF true (litPixels b))
      exact ⟨f', _, heq, hstep, hbounds ws' hin⟩
    · obtain ⟨f', ws', heq, hstep, hin⟩ := @Fb.wrapRow_spec f { c.drawChar b with cx := f.cx + 1 } hf (f.cx + 1) f.cy
        (not_le.1 hend) ⟨ht.width, ht.height, rfl, ht.cy⟩
        (cellWrites (f.cx * 8) (f.cy * 16) f.stride 0xFFFFFF true (litPixels b))
      exact ⟨f', _, heq, hstep, hbounds ws' hin⟩

theorem Fb.blank_spec {c : Console} (hf : f.Regular) {cx cy : ℕ} (hcx : cx * 8 + 8 ≤ f.width) (hcy : cy < f.height / 16)
    (ht : Fb.Tracks { f with cx := cx, cy := cy } c) :
    ∃ f' ws, Fb.blank { f with cx := cx, cy := cy } = .ok (f', ws) ∧ f.Step c.blank f' ∧ ∀ w ∈ ws, w.InBounds f := by
  obtain ⟨h1, h2, h3, h4⟩ := hf.small
  have hx : cx * glyphW < 2 ^ 32 := by unfold glyphW; omega
  have hy : cy * glyphH < 2 ^ 32 := by unfold glyphH; omega
  have hpix := hf.pixels (show cx * 8 < f.width by omega) hcy 0x000000 false fun p hp => hp
  refine ⟨{ f with cx := cx, cy := cy }, _, ?_,
    ⟨⟨rfl, rfl, rfl⟩, ⟨?_, hcy⟩, ⟨ht.width, ht.height, ht.cx, ht.cy⟩⟩, blank_inBounds hf hcx hcy⟩
  · have hstride : Fb.stride { f with cx := cx, cy := cy } = f.stride := rfl
    rw [Fb.blank, u32_eq hx, ok_bind, u32_eq hy, ok_bind, hstride, hpix, ok_bind]
  · show cx * 8 < f.width
    omega

theorem Fb.backspace_spec {c : Console} (hf : f.Regular) (hs : f.OnScreen) (ht : f.Tracks c) :
    ∃ f' ws, f.backspace = .ok (f', ws) ∧ f.Step c.backspace f' ∧ ∀ w ∈ ws, w.InBounds f := by
  have hw := hf.width_ge
  have hcx := hs.cx
  have hcy := hs.cy
  unfold Fb.backspace Console.backspace
  rw [ht.cx, ht.cy]
  split_ifs with h0 hpos
  · exact ⟨f, [], rfl, ⟨⟨rfl, rfl, rfl⟩, hs, ht⟩, by simp⟩
  · exact Fb.blank_spec hf (by omega) hcy ⟨ht.width, ht.height, rfl, rfl⟩
  · rw [ckSub_eq (by unfold glyphW; omega), ok_bind]
    exact Fb.blank_spec hf (by unfold glyphW; omega) (by omega) ⟨ht.width, ht.height, by rw [ht.width], rfl⟩

/-- **Step lemma.** On a regular framebuffer nothing panics, the cursor stays on the screen and with that of the cell-level
console, and the writes are in bounds iff the operation fits. -/
theorem Fb.apply_spec {c : Console} (hf : f.Regular) (hs : f.OnScreen) (ht : f.Tracks c) (o : ConsoleOp) :
    ∃ f' ws, f.apply o = .ok (f', ws) ∧ f.Step (c.apply o) f' ∧ ((∀ w ∈ ws, w.InBounds f) ↔ f.Fits o) := by
  cases o with
  | writeByte b => exact Fb.writeByte_spec hf hs ht b
  | backspace =>
    obtain ⟨f', ws, heq, hstep, hin⟩ := Fb.backspace_spec hf hs ht
    exact ⟨f', ws, heq, hstep, iff_of_true hin trivial⟩
  | clear =>
    obtain ⟨f', ws, heq, hstep, hin⟩ := Fb.clear_spec hf ht
    exact ⟨f', ws, heq, hstep, iff_of_true hin trivial⟩

/-! ## Runs -/

/-- every operation of a run fits in the state it is applied in -/
def Fb.FitsAll (f : Fb) : List ConsoleOp → Prop
  | [] => True
  | o :: ops => f.Fits o ∧ ∀ f' ws, f.apply o = .ok (f', ws) → f'.FitsAll ops

/-- **Run lemma.** -/
theorem Fb.applyAll_spec {c : Console} (hf : f.Regular) (hs : f.OnScreen) (ht : f.Tracks c) (ops : List ConsoleOp) :
    ∃ f' ws, f.applyAll ops = .ok (f', ws) ∧ f.Step (c.applyAll ops) f' ∧
      ((∀ w ∈ ws, w.InBounds f) ↔ f.FitsAll ops) := by
  induction ops generalizing f c with
  | nil => exact ⟨f, [], rfl, ⟨⟨rfl, rfl, rfl⟩, hs, ht⟩, by simp [Fb.FitsAll]⟩
  | cons o ops ih =>
    obtain ⟨f₁, ws₁, h₁, hstep₁, hfit₁⟩ := Fb.apply_spec hf hs ht o
    obtain ⟨f₂, ws₂, h₂, hstep₂, hfit₂⟩ := ih (hstep₁.same.regular hf) hstep₁.onScreen hstep₁.tracks
    have hsame := hstep₁.same
    have hsame' := hstep₂.same
    refine ⟨f₂, ws₁ ++ ws₂, by rw [Fb.applyAll, h₁, ok_bind, h₂, ok_bind],
      ⟨⟨hsame'.pitch.trans hsame.pitch, hsame'.width.trans hsame.width, hsame'.height.trans hsame.height⟩,
        hstep₂.onScreen, hstep₂.tracks⟩, ?_⟩
    have hnext : (∀ g ws, f.apply o = .ok (g, ws) → g.FitsAll ops) ↔ f₁.FitsAll ops := by
      refine ⟨fun h => h f₁ ws₁ h₁, fun h g ws hg => ?_⟩
      rw [h₁] at hg
      cases hg
      exact h
    rw [List.forall_mem_append, hfit₁, Fb.FitsAll, hnext, ← hfit₂]
    simp only [hsame.inBounds]

/-- whole columns: everything fits -/
theorem Fb.fitsAll_of_mod {c : Console} (hf : f.Regular) (hs : f.OnScreen) (ht : f.Tracks c) (hmod : f.width % 8 = 0)
    (ops : List ConsoleOp) : f.FitsAll ops := by
  induction ops generalizing f c with
  | nil => trivial
  | cons o ops ih =>
    obtain ⟨f₁, ws₁, h₁, hstep₁, -⟩ := Fb.apply_spec hf hs ht o
    refine ⟨?_, fun g ws hg => ?_⟩
    · cases o with
      | writeByte b =>
        refine Or.inr fun p hp => ?_
        have hcol := (mem_litPixels.1 hp).1.2
        have := hs.cx
        omega
      | backspace => trivial
      | clear => trivial
    · rw [h₁] at hg
      cases hg
      exact ih (hstep₁.same.regular hf) hstep₁.onScreen hstep₁.tracks (by rw [hstep₁.same.width]; exact hmod)

theorem Fb.fitsAll_append {f' : Fb} {ws : List Write} {ops ops' : List ConsoleOp} (h : f.FitsAll (ops ++ ops'))
    (hr : f.applyAll ops = .ok (f', ws)) : f'.FitsAll ops' := by
  induction ops generalizing f ws with
  | nil =>
    cases hr
    exact h
  | cons o ops ih =>
    obtain ⟨r, hr₁, hr⟩ := bind_ok.1 hr
    obtain ⟨r', hr₂, hr⟩ := bind_ok.1 hr
    cases hr
    exact ih (h.2 r.1 r.2 hr₁) hr₂

end

/-- writing in a row moves the cursor on -/
theorem writes_cx {c : Console} {b : UInt8} (hb : b ≠ 0x0A) (hrow : c.cy < c.geo.height / glyphH) {k : ℕ}
    (hk : (c.cx + k) * glyphW < c.geo.width) : (c.applyAll (List.replicate k (.writeByte b))).cx = c.cx + k := by
  induction k generalizing c with
  | zero => rfl
  | succ k ih =>
    have hin : ¬ c.EndsRow := not_le.2 (lt_of_le_of_lt (Nat.mul_le_mul_right _ (by omega)) hk)
    obtain ⟨hx, hy, -⟩ := writeByte_drawn hb (show (if c.EndsRow then c.cy + 1 else c.cy) < _ by rw [if_neg hin]; exact hrow)
    rw [if_neg hin] at hx hy
    have hgeo := writeByte_geo c b
    have hnext := @ih (c.writeByte b) (by rw [hy, hgeo]; exact hrow)
      (by rw [hx, hgeo, Nat.add_assoc, Nat.add_comm 1]; exact hk)
    rw [List.replicate_succ, applyAll_cons]
    exact hnext.trans (by rw [hx, Nat.add_assoc, Nat.add_comm 1])

/-- **Framebuffer bounds.** For every framebuffer of this kind and every run of `write_byte`, `backspace` and `clear` from
the cleared state: nothing panics, and all writes are inside the framebuffer with the pixels of glyphs on the screen, iff no
byte is drawn in the column that the right border cuts with a pixel behind the border. All runs are so iff the width is a
multiple of 8. -/
theorem framebuffer_bounds {f : Fb} (hf : f.Regular) (hcx : f.cx = 0) (hcy : f.cy = 0) :
    (∀ ops, (∃ f' ws, f.applyAll ops = .ok (f', ws) ∧ ∀ w ∈ ws, w.InBounds f) ↔ f.FitsAll ops) ∧
      ((∀ ops, ∃ f' ws, f.applyAll ops = .ok (f', ws) ∧ ∀ w ∈ ws, w.InBounds f) ↔ f.width % 8 = 0) := by
  have hw := hf.width_ge
  have hh := hf.height_ge
  have hs : f.OnScreen := ⟨by omega, by omega⟩
  obtain ⟨c, ht⟩ : ∃ c, f.Tracks c := ⟨⟨⟨f.width, f.height, hw⟩, fun _ _ => [], f.cx, f.cy⟩, ⟨rfl, rfl, rfl, rfl⟩⟩
  have hruns : ∀ ops, (∃ f' ws, f.applyAll ops = .ok (f', ws) ∧ ∀ w ∈ ws, w.InBounds f) ↔ f.FitsAll ops := by
    intro ops
    obtain ⟨f', ws, hr, -, hfit⟩ := Fb.applyAll_spec hf hs ht ops
    rw [← hfit]
    refine ⟨?_, fun h => ⟨f', ws, hr, h⟩⟩
    rintro ⟨f₂, ws₂, hr₂, h⟩
    rw [hr] at hr₂
    cases hr₂
    exact h
  refine ⟨hruns, ?_⟩
  simp only [hruns]
  refine ⟨fun hall => ?_, fun hmod ops => Fb.fitsAll_of_mod hf hs ht hmod ops⟩
  by_contra hmod
  -- spaces up to the cut column, then a full block
  obtain ⟨f', ws, hr, hstep, -⟩ := Fb.applyAll_spec hf hs ht (List.replicate (f.width / 8) (.writeByte 0x20))
  have hroom : (c.cx + f.width / 8) * glyphW < c.geo.width := by
    rw [ht.cx, ht.width, hcx, glyphW]
    omega
  have hrow : c.cy < c.geo.height / glyphH := by
    rw [ht.cy, ht.height]
    exact hs.cy
  have hcol : f'.cx = f.width / 8 := by
    rw [← hstep.tracks.cx, writes_cx (by decide) hrow hroom, ht.cx, hcx, Nat.zero_add]
  obtain ⟨hfit, -⟩ := Fb.fitsAll_append (hall (List.replicate (f.width / 8) (.writeByte 0x20) ++ [.writeByte 0xDB])) hr
  have hblock := hfit.resolve_left (by decide) (0, 7) (mem_litPixels.2 ⟨by decide, by decide +kernel⟩)
  rw [hcol, hstep.same.width] at hblock
  omega

/-- 80 x 25 characters -/
theorem framebuffer_bounds_vga : ∃ f : Fb, f.Regular ∧ ∀ ops, ∃ f' ws, f.applyAll ops = .ok (f', ws) ∧
    ∀ w ∈ ws, w.InBounds f :=
  ⟨⟨2560, 640, 400, 0, 0⟩, ⟨by decide, by decide, by decide, by decide, by decide⟩,
    (framebuffer_bounds ⟨by decide, by decide, by decide, by decide, by decide⟩ rfl rfl).2.2 (by decide)⟩

/-- a screen 9 pixels wide and one row high -/
def cutScreen : Fb := ⟨36, 9, 16, 0, 0⟩

/-- its second byte has a pixel in column 15, and one behind the end of the framebuffer -/
theorem cut_column_overruns : cutScreen.Regular ∧ ∃ f' ws,
    cutScreen.applyAll [.writeByte 0x20, .writeByte 0xDB] = .ok (f', ws) ∧ (∃ w ∈ ws, w.column = some 15) ∧
      (∃ w ∈ ws, cutScreen.stride * cutScreen.height ≤ w.index) ∧ ¬ ∀ w ∈ ws, w.InBounds cutScreen := by
  refine ⟨⟨by decide, by decide, by decide, by decide, by decide⟩, ?_⟩
  have hrun : (cutScreen.applyAll [.writeByte 0x20, .writeByte 0xDB]).toOption.any (fun r =>
      (r.2.any fun w => decide (w.column = some 15)) &&
        r.2.any fun w => decide (cutScreen.stride * cutScreen.height ≤ w.index)) = true := by decide +kernel
  cases hr : cutScreen.applyAll [.writeByte 0x20, .writeByte 0xDB] with
  | error e => simp [hr, Except.toOption] at hrun
  | ok r =>
    simp only [hr, Except.toOption, Option.any_some, Bool.and_eq_true, List.any_eq_true, decide_eq_true_eq] at hrun
    obtain ⟨hcol, w, hw, hle⟩ := hrun
    exact ⟨r.1, r.2, rfl, hcol, ⟨w, hw, hle⟩, fun h => absurd (h w hw).1 (not_lt.2 hle)⟩

end Tomorrow.Shell
