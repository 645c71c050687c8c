/-
The input line at the cursor (`shell.rs`): `on_char`, `program_output` and what they leave on the screen.

Typing echoes each byte at the cursor, and program output erases the prompt and the typed line with one backspace for
each of their bytes, prints, and draws them again. The count of backspaces comes from the line, the cursor from whatever
the console did before: rows wrap, backspaces go back over the end of a row, and a screen that is full is cleared, in the
middle of typing, of program output or of redrawing the prompt.

A console that is used through `write_byte`, `backspace` and `clear` is a tape (`Shows`), so it is enough to follow how
the tape ends. Each cell also carries a ghost mark: whether program output has drawn in it since it was last blanked.

Result: `line_discipline`, for every sequence of keys and program output after `shell::init`.
-/
import Tomorrow.Core.Tape
import Tomorrow.Shell.Console

namespace Tomorrow.Shell

open Tomorrow.Core Tomorrow.Files

/-! ## Model -/

/-- what is done to the console -/
inductive ConsoleOp where
  | writeByte (b : UInt8)
  | backspace
  | clear

def Console.apply (c : Console) : ConsoleOp → Console
  | .writeByte b => c.writeByte b
  | .backspace => c.backspace
  | .clear => c.clear

def Console.applyAll (c : Console) (ops : List ConsoleOp) : Console := ops.foldl Console.apply c

/-- `on_char`; out is what the command prints when the byte is Enter -/
def Screen.onChar (s : Screen) (ch : UInt8) (out : List ConsoleOp) : Screen :=
  if s.ready = false then s
  else if ch = 0x0A then
    { s with console := ((s.console.writeByte 0x0A).applyAll out).writeStr prompt, line := [], line_le := Nat.zero_le _ }
  else if ch = 0x08 then
    if 0 < s.line.length then
      { s with console := s.console.backspace, line := s.line.dropLast,
               line_le := by have := s.line_le; rw [List.length_dropLast]; omega }
    else s
  else if h : s.line.length < bufLen then
    { s with console := s.console.writeByte ch, line := s.line ++ [ch],
             line_le := by rw [List.length_append, List.length_singleton]; omega }
  else s

inductive ShellOp where
  | char (ch : UInt8) (out : List ConsoleOp)
  | output (bs : Bytes)

def Screen.step (s : Screen) : ShellOp → Screen
  | .char ch out => s.onChar ch out
  | .output bs => s.programOutput bs

/-- the line as it is meant to be: ordinary bytes are appended while there is room, backspace removes the last one, Enter
clears it, program output leaves it -/
def typedStep (line : Bytes) : ShellOp → Bytes
  | .char ch _ =>
    if ch = 0x0A then [] else if ch = 0x08 then line.dropLast else if line.length < 128 then line ++ [ch] else line
  | .output _ => line

def typed (ops : List ShellOp) : Bytes := ops.foldl typedStep []

/-- columns of the screen -/
def Geometry.cols (g : Geometry) : ℕ := g.width / glyphW

def Geometry.rows (g : Geometry) : ℕ := g.height / glyphH

/-- the cursor as a number of cells -/
def Console.pos (c : Console) : ℕ := c.cy * c.geo.cols + c.cx

/-- cell i in reading order -/
def Console.cellAt (c : Console) (i : ℕ) : Bytes := c.cells (i % c.geo.cols) (i / c.geo.cols)

/-- what the user sees of the line: the prompt and the typed bytes -/
def Screen.vis (s : Screen) : Bytes := str prompt ++ s.line

/-- the cells that n backspaces erase -/
def Console.erased (c : Console) : ℕ → List (ℕ × ℕ)
  | 0 => []
  | n + 1 => if c.cx = 0 ∧ c.cy = 0 then [] else (c.backspace.cx, c.backspace.cy) :: c.backspace.erased n

/-! ## Marks -/

/-- whether program output has drawn in the cell of a column and a row since it was last blanked -/
abbrev Marks := ℕ → ℕ → Bool

/-- the marks after an operation that takes c to c', done by program output if o: a blank cell has no mark, a cell that
was drawn in gets the mark of who drew -/
def remark (o : Bool) (c c' : Console) (m : Marks) : Marks := fun x y =>
  if c'.cells x y = [] then false else if c'.cells x y = c.cells x y then m x y else o || m x y

def markStep (r : Console × Marks) (o : Bool × ConsoleOp) : Console × Marks :=
  (r.1.apply o.2, remark o.1 r.1 (r.1.apply o.2) r.2)

/-- operations of one origin -/
def tagged (o : Bool) (ops : List ConsoleOp) : List (Bool × ConsoleOp) := ops.map fun p => (o, p)

def bytesOps (bs : Bytes) : List ConsoleOp := bs.map .writeByte

/-- the console operations of an event, with their origin -/
def Screen.ops (s : Screen) : ShellOp → List (Bool × ConsoleOp)
  | .char ch out =>
    if s.ready = false then []
    else if ch = 0x0A then tagged false (.writeByte 0x0A :: (out ++ bytesOps (str prompt)))
    else if ch = 0x08 then if 0 < s.line.length then tagged false [.backspace] else []
    else if s.line.length < bufLen then tagged false [.writeByte ch] else []
  | .output bs =>
    if s.ready then tagged false (List.replicate s.vis.length .backspace) ++ tagged true (bytesOps bs) ++
      tagged false (bytesOps s.vis)
    else tagged true (bytesOps bs)

/-- one event, with the marks carried along -/
def markedStep (r : Screen × Marks) (o : ShellOp) : Screen × Marks :=
  (r.1.step o, ((r.1.ops o).foldl markStep (r.1.console, r.2)).2)

theorem foldl_markStep (c : Console) (m : Marks) (ops : List (Bool × ConsoleOp)) :
    (ops.foldl markStep (c, m)).1 = c.applyAll (ops.map Prod.snd) := by
  induction ops generalizing c m with
  | nil => rfl
  | cons o ops ih => exact ih _ _

theorem map_snd_tagged (o : Bool) (ops : List ConsoleOp) : (tagged o ops).map Prod.snd = ops := by
  simp [tagged, Function.comp_def]

theorem applyAll_bytes (c : Console) (bs : Bytes) : c.applyAll (bytesOps bs) = c.writeBytes bs := List.foldl_map

theorem applyAll_append (c : Console) (a b : List ConsoleOp) : c.applyAll (a ++ b) = (c.applyAll a).applyAll b :=
  List.foldl_append

theorem applyAll_backspaces (c : Console) (n : ℕ) : c.applyAll (List.replicate n .backspace) = c.erase n := by
  induction n generalizing c with
  | zero => rfl
  | succ n ih => exact ih _

theorem applyAll_cons (c : Console) (o : ConsoleOp) (ops : List ConsoleOp) :
    c.applyAll (o :: ops) = (c.apply o).applyAll ops := rfl

/-- an event does exactly these operations -/
theorem step_console (s : Screen) (o : ShellOp) : (s.step o).console = s.console.applyAll ((s.ops o).map Prod.snd) := by
  cases o with
  | char ch out =>
    simp only [Screen.step, Screen.onChar, Screen.ops]
    split_ifs
    · rfl
    · simp only [map_snd_tagged, applyAll_cons, applyAll_append, applyAll_bytes, Console.apply, Console.writeStr]
    · simp only [map_snd_tagged, applyAll_cons, Console.apply]
      rfl
    · rfl
    · simp only [map_snd_tagged, applyAll_cons, Console.apply]
      rfl
    · rfl
  | output bs =>
    simp only [Screen.step, Screen.programOutput, Screen.ops]
    split_ifs
    · simp only [List.map_append, map_snd_tagged, applyAll_append, applyAll_backspaces, applyAll_bytes, Screen.vis,
        List.length_append, Console.writeStr, Console.writeBytes, List.foldl_append]
    · simp only [map_snd_tagged, applyAll_bytes, Screen.write]

/-! ## The console is a tape -/

/-- the console, with its marks, shows the tape -/
structure Shows (g : Geometry) (c : Console) (m : Marks) (t : Tape (UInt8 × Bool)) : Prop where
  geo : c.geo = g
  cx_lt : c.cx < g.cols
  pos : c.cy * g.cols + c.cx = t.length
  fits : t.length < g.cols * g.rows
  cells : ∀ x y, x < g.cols → c.cells x y = (t.getD (y * g.cols + x) []).map Prod.fst
  marks : ∀ x y, x < g.cols → m x y = (t.getD (y * g.cols + x) []).any Prod.snd

def tapeOp (o : Bool × ConsoleOp) : TapeOp (UInt8 × Bool) :=
  match o.2 with
  | .writeByte b => if b = 0x0A then .newline else .put (b, o.1)
  | .backspace => .back
  | .clear => .clear

/-- the geometries of the result: whole columns and at least one row -/
structure Geometry.Usable (g : Geometry) : Prop where
  width_mod : g.width % glyphW = 0
  height_ge : 16 ≤ g.height

section

variable {g : Geometry} {c c' : Console} {m : Marks} {t : Tape (UInt8 × Bool)}

theorem Geometry.cols_pos (g : Geometry) : 0 < g.cols := by
  have := g.width_ge
  unfold Geometry.cols glyphW
  omega

theorem Geometry.Usable.rows_pos (hg : g.Usable) : 0 < g.rows := by
  have := hg.height_ge
  unfold Geometry.rows glyphH
  omega

theorem Geometry.Usable.width_eq (hg : g.Usable) : g.width = g.cols * glyphW := by
  have := hg.width_mod
  unfold Geometry.cols glyphW at *
  omega

theorem index_div {n x : ℕ} (hx : x < n) (y : ℕ) : (y * n + x) / n = y := by
  rw [Nat.add_comm, Nat.add_mul_div_right _ _ (Nat.zero_lt_of_lt hx), Nat.div_eq_of_lt hx, Nat.zero_add]

theorem index_mod {n x : ℕ} (hx : x < n) (y : ℕ) : (y * n + x) % n = x := by
  rw [Nat.add_comm, Nat.add_mul_mod_self_right, Nat.mod_eq_of_lt hx]

/-- a cell is given by its number -/
theorem cell_index {n x y x' y' : ℕ} (hx : x < n) (hx' : x' < n) : y * n + x = y' * n + x' ↔ x = x' ∧ y = y' := by
  constructor
  · intro h
    constructor
    · rw [← index_mod hx y, h, index_mod hx']
    · rw [← index_div hx y, h, index_div hx']
  · rintro ⟨rfl, rfl⟩
    rfl

theorem wrapRow_eq (c : Console) : c.wrapRow = if c.geo.rows ≤ c.cy then c.clear else c := rfl

/-- the marks follow the tape: the cell keeps its contents, is blanked, or is drawn in -/
theorem remark_eq {o : Bool} {x y : ℕ} {l l' : List (UInt8 × Bool)} (hc : c.cells x y = l.map Prod.fst)
    (hm : m x y = l.any Prod.snd) (hc' : c'.cells x y = l'.map Prod.fst) (h : l' = l ∨ l' = [] ∨ ∃ b, l' = l ++ [(b, o)]) :
    remark o c c' m x y = l'.any Prod.snd := by
  unfold remark
  rw [hc', hc, hm]
  rcases h with rfl | rfl | ⟨b, rfl⟩
  · cases l' with
    | nil => rfl
    | cons a l' => simp
  · rfl
  · rw [if_neg (by simp), if_neg (by simp), List.any_append, Bool.or_comm]
    simp

/-- the end of `write_byte`: a cursor below the last row clears the screen -/
theorem Shows.wrap (hg : g.Usable) {o : Bool} {c₁ : Console} {t₁ : Tape (UInt8 × Bool)} (h : Shows g c m t)
    (hgeo : c₁.geo = g) (hcx : c₁.cx < g.cols) (hpos : c₁.cy * g.cols + c₁.cx = t₁.length)
    (hcells : ∀ x y, x < g.cols → c₁.cells x y = (t₁.getD (y * g.cols + x) []).map Prod.fst)
    (hold : ∀ i, t₁.getD i [] = t.getD i [] ∨ t₁.getD i [] = [] ∨ ∃ b, t₁.getD i [] = t.getD i [] ++ [(b, o)]) :
    Shows g c₁.wrapRow (remark o c c₁.wrapRow m) (if g.cols * g.rows ≤ t₁.length then [] else t₁) := by
  have hrow : g.rows ≤ c₁.cy ↔ g.cols * g.rows ≤ t₁.length := by
    rw [← hpos]
    constructor
    · intro hle
      have := Nat.mul_le_mul_left g.cols hle
      rw [Nat.mul_comm g.cols c₁.cy] at this
      omega
    · intro hle
      by_contra hlt
      have := Nat.mul_le_mul_left g.cols (Nat.succ_le_of_lt (not_le.1 hlt))
      rw [Nat.mul_succ, Nat.mul_comm g.cols c₁.cy] at this
      omega
  rw [wrapRow_eq, hgeo]
  by_cases hfull : g.rows ≤ c₁.cy
  · rw [if_pos (hrow.1 hfull), if_pos hfull]
    refine ⟨hgeo, g.cols_pos, by simp [Console.clear], Nat.mul_pos g.cols_pos hg.rows_pos, fun x y _ => rfl, ?_⟩
    intro x y hx
    exact remark_eq (h.cells x y hx) (h.marks x y hx) rfl (Or.inr (Or.inl rfl))
  · have hlt : ¬ g.cols * g.rows ≤ t₁.length := fun hle => hfull (hrow.2 hle)
    rw [if_neg hlt, if_neg hfull]
    exact ⟨hgeo, hcx, hpos, not_le.1 hlt, hcells, fun x y hx =>
      remark_eq (h.cells x y hx) (h.marks x y hx) (hcells x y hx) (hold _)⟩

theorem Shows.put (hg : g.Usable) (h : Shows g c m t) (o : Bool) {b : UInt8} (hb : b ≠ 0x0A) :
    Shows g (c.writeByte b) (remark o c (c.writeByte b) m) (t.step g.cols g.rows (.put (b, o))) := by
  have hlast : ∀ i, (t ++ [[(b, o)]]).getD i [] = t.getD i [] ∨ (t ++ [[(b, o)]]).getD i [] = [] ∨
      ∃ b', (t ++ [[(b, o)]]).getD i [] = t.getD i [] ++ [(b', o)] := by
    intro i
    rw [Tape.getD_snoc]
    split_ifs with hi
    · exact Or.inr (Or.inr ⟨b, by rw [hi, Tape.getD_beyond t (le_refl _)]; rfl⟩)
    · exact Or.inl rfl
  have hcells : ∀ x y, x < g.cols → (c.drawChar b).cells x y =
      ((t ++ [[(b, o)]]).getD (y * g.cols + x) []).map Prod.fst := by
    intro x y hx
    rw [Tape.getD_snoc, ← h.pos]
    simp only [Console.drawChar, cell_index hx h.cx_lt, h.cells x y hx]
    split_ifs with hxy
    · -- the cell at the cursor was blank
      rw [hxy.1, hxy.2, Tape.getD_beyond t (ge_of_eq h.pos)]
      rfl
    · rfl
  simp only [Tape.step, Console.writeByte, if_neg hb]
  rw [show t.length + 1 = (t ++ [[(b, o)]]).length by simp]
  by_cases hend : c.geo.width ≤ (c.cx + 1) * glyphW
  · have hcx : c.cx + 1 = g.cols := by
      rw [h.geo, hg.width_eq] at hend
      have := Nat.le_of_mul_le_mul_right hend (by decide)
      have := h.cx_lt
      omega
    rw [if_pos hend]
    refine Shows.wrap hg h h.geo g.cols_pos ?_ hcells hlast
    have := h.pos
    rw [List.length_append, List.length_singleton, ← this]
    simp only [Nat.add_mul, Nat.one_mul, Nat.add_zero]
    omega
  · have hcx : c.cx + 1 < g.cols := by
      rw [h.geo, hg.width_eq] at hend
      exact Nat.lt_of_mul_lt_mul_right (not_le.1 hend)
    rw [if_neg hend]
    refine Shows.wrap hg h h.geo hcx ?_ hcells hlast
    rw [List.length_append, List.length_singleton, ← h.pos]
    rfl

theorem Shows.newline (hg : g.Usable) (h : Shows g c m t) (o : Bool) :
    Shows g (c.writeByte 0x0A) (remark o c (c.writeByte 0x0A) m) (t.step g.cols g.rows .newline) := by
  have hrow : t.length / g.cols = c.cy := by
    rw [← h.pos, index_div h.cx_lt]
  generalize hn : (t.length / g.cols + 1) * g.cols = n at *
  have hlen : (t ++ List.replicate (n - t.length) []).length = n := by
    have hpos := h.pos
    have hcx := h.cx_lt
    rw [hrow, Nat.add_mul, Nat.one_mul] at hn
    rw [List.length_append, List.length_replicate]
    omega
  have hstep : t.step g.cols g.rows .newline = if g.cols * g.rows ≤ (t ++ List.replicate (n - t.length) []).length then []
      else t ++ List.replicate (n - t.length) [] := by
    simp only [Tape.step, hn, hlen]
  rw [hstep]
  refine Shows.wrap hg h ?_ ?_ ?_ ?_ ?_
  · exact h.geo
  · exact g.cols_pos
  · rw [hlen, ← hn, hrow]
    rfl
  · intro x y hx
    rw [Tape.getD_blanks]
    exact h.cells x y hx
  · intro i
    rw [Tape.getD_blanks]
    exact Or.inl rfl

theorem Shows.clear (hg : g.Usable) (h : Shows g c m t) (o : Bool) : Shows g c.clear (remark o c c.clear m) [] :=
  ⟨h.geo, g.cols_pos, by simp [Console.clear], Nat.mul_pos g.cols_pos hg.rows_pos, fun x y _ => rfl, fun x y hx =>
    remark_eq (h.cells x y hx) (h.marks x y hx) rfl (Or.inr (Or.inl rfl))⟩

/-- a backspace steps onto the last cell of the tape -/
theorem backspace_pos (h : Shows g c m t) (hne : ¬ (c.cx = 0 ∧ c.cy = 0)) :
    c.backspace.cx < g.cols ∧ c.backspace.cy * g.cols + c.backspace.cx + 1 = t.length := by
  have hpos := h.pos
  have hcx := h.cx_lt
  unfold Console.backspace
  rw [if_neg hne]
  by_cases h0 : 0 < c.cx
  · rw [if_pos h0]
    simp only [Console.blank]
    omega
  · rw [if_neg h0]
    obtain ⟨y, hy⟩ : ∃ y, c.cy = y + 1 := ⟨c.cy - 1, by omega⟩
    have hcols : c.geo.width / glyphW = g.cols := by rw [h.geo]; rfl
    have := g.cols_pos
    simp only [Console.blank, hcols]
    rw [hy, Nat.add_mul, Nat.one_mul] at hpos
    rw [hy, Nat.add_sub_cancel]
    omega

theorem backspace_cells (c : Console) (hne : ¬ (c.cx = 0 ∧ c.cy = 0)) (x y : ℕ) :
    c.backspace.cells x y = if x = c.backspace.cx ∧ y = c.backspace.cy then [] else c.cells x y := by
  unfold Console.backspace
  rw [if_neg hne]
  by_cases h0 : 0 < c.cx
  · rw [if_pos h0]; rfl
  · rw [if_neg h0]; rfl

theorem backspace_geo (c : Console) : c.backspace.geo = c.geo := by
  unfold Console.backspace
  split_ifs <;> rfl

theorem Shows.back (h : Shows g c m t) (o : Bool) : Shows g c.backspace (remark o c c.backspace m) t.dropLast := by
  have hblank : ∀ i, t.dropLast.getD i [] = t.getD i [] ∨ t.dropLast.getD i [] = [] ∨
      ∃ b, t.dropLast.getD i [] = t.getD i [] ++ [(b, o)] := by
    intro i
    rw [Tape.getD_dropLast]
    split_ifs
    · exact Or.inr (Or.inl rfl)
    · exact Or.inl rfl
  have hcells : ∀ x y, x < g.cols → c.backspace.cells x y = (t.dropLast.getD (y * g.cols + x) []).map Prod.fst := by
    intro x y hx
    by_cases hne : c.cx = 0 ∧ c.cy = 0
    · have ht : t = [] := List.length_eq_zero_iff.1 (by rw [← h.pos, hne.1, hne.2]; simp)
      rw [Console.backspace, if_pos hne, h.cells x y hx, ht]
      rfl
    · obtain ⟨hcx, hlast⟩ := backspace_pos h hne
      rw [backspace_cells c hne, Tape.getD_dropLast, ← hlast, h.cells x y hx]
      simp only [Nat.add_right_cancel_iff, cell_index hx hcx]
      split_ifs <;> rfl
  refine ⟨by rw [backspace_geo, h.geo], ?_, ?_, ?_, hcells, fun x y hx =>
    remark_eq (h.cells x y hx) (h.marks x y hx) (hcells x y hx) (hblank _)⟩
  · by_cases hne : c.cx = 0 ∧ c.cy = 0
    · rw [Console.backspace, if_pos hne]; exact h.cx_lt
    · exact (backspace_pos h hne).1
  · rw [List.length_dropLast]
    by_cases hne : c.cx = 0 ∧ c.cy = 0
    · rw [Console.backspace, if_pos hne, ← h.pos, hne.1, hne.2]; simp
    · have := (backspace_pos h hne).2
      omega
  · have := h.fits
    rw [List.length_dropLast]
    omega

/-- **Step.** Every operation of the console is an operation of the tape. -/
theorem Shows.step (hg : g.Usable) (h : Shows g c m t) (o : Bool × ConsoleOp) :
    Shows g (markStep (c, m) o).1 (markStep (c, m) o).2 (t.step g.cols g.rows (tapeOp o)) := by
  obtain ⟨o, p⟩ := o
  cases p with
  | writeByte b =>
    by_cases hb : b = 0x0A
    · subst hb
      exact h.newline hg o
    · rw [show tapeOp (o, .writeByte b) = .put (b, o) from if_neg hb]
      exact h.put hg o hb
  | backspace => exact h.back o
  | clear => exact h.clear hg o

theorem Shows.steps (hg : g.Usable) (ops : List (Bool × ConsoleOp)) (h : Shows g c m t) :
    Shows g (ops.foldl markStep (c, m)).1 (ops.foldl markStep (c, m)).2 (t.steps g.cols g.rows (ops.map tapeOp)) := by
  induction ops generalizing c m t with
  | nil => exact h
  | cons o ops ih => exact ih (h.step hg o)

end

/-! ## The line on the tape -/

/-- bytes drawn by the shell -/
def ink (bs : Bytes) : List (UInt8 × Bool) := bs.map fun b => (b, false)

/-- the shell is up, and the tape ends in the prompt and the line, drawn by the shell -/
structure LineInv (g : Geometry) (s : Screen) (m : Marks) (t : Tape (UInt8 × Bool)) : Prop where
  ready : s.ready = true
  no_newline : 0x0A ∉ s.line
  tape : Shows g s.console m t
  ends : Ends t (ink s.vis)

/-- bytes other than newline are drawn one to a cell -/
theorem map_tapeOp_bytes (o : Bool) {bs : Bytes} (h : 0x0A ∉ bs) :
    (tagged o (bytesOps bs)).map tapeOp = (bs.map fun b => (b, o)).map .put := by
  simp only [tagged, bytesOps, List.map_map]
  refine List.map_congr_left fun b hb => ?_
  have : b ≠ 0x0A := fun he => h (he ▸ hb)
  simp [tapeOp, this]

theorem prompt_no_newline : 0x0A ∉ str prompt := by decide

section

variable {g : Geometry} {s : Screen} {m : Marks} {t : Tape (UInt8 × Bool)}

/-- the code keeps the line as it is meant to be -/
theorem step_line (hr : s.ready = true) (o : ShellOp) : (s.step o).line = typedStep s.line o := by
  cases o with
  | char ch out =>
    simp only [Screen.step, Screen.onChar, typedStep, hr, bufLen, Bool.true_eq_false, if_false]
    split_ifs with h1 h2 h3 h4
    · rfl
    · rfl
    · rw [List.length_eq_zero_iff.1 (Nat.eq_zero_of_not_pos h3)]
      rfl
    · rfl
    · rfl
  | output bs =>
    simp only [Screen.step, Screen.programOutput, typedStep, hr, if_true]

theorem step_ready (hr : s.ready = true) (o : ShellOp) : (s.step o).ready = true := by
  cases o with
  | char ch out =>
    simp only [Screen.step, Screen.onChar]
    split_ifs <;> exact hr
  | output bs =>
    simp only [Screen.step, Screen.programOutput]
    split_ifs
    exact hr

theorem typedStep_no_newline {line : Bytes} (h : 0x0A ∉ line) (o : ShellOp) : 0x0A ∉ typedStep line o := by
  cases o with
  | char ch out =>
    simp only [typedStep]
    split_ifs with h1 h2 h3
    · exact List.not_mem_nil
    · exact fun hm => h (List.dropLast_subset _ hm)
    · simp only [List.mem_append, List.mem_singleton, not_or]
      exact ⟨h, fun he => h1 he.symm⟩
    · exact h
  | output bs => exact h

/-- whatever is on the tape, drawing the prompt and a line makes it end in them -/
theorem ends_redraw (t : Tape (UInt8 × Bool)) (cols rows : ℕ) {bs : Bytes} (h : 0x0A ∉ bs) :
    Ends (t.steps cols rows ((tagged false (bytesOps bs)).map tapeOp)) (ink bs) := by
  rw [map_tapeOp_bytes false h]
  exact (Ends.nil t).puts cols rows (ink bs)

/-- an event leaves the tape ending in the prompt and the new line -/
theorem LineInv.ends_step (h : LineInv g s m t) (o : ShellOp) :
    Ends (t.steps g.cols g.rows ((s.ops o).map tapeOp)) (ink (str prompt ++ typedStep s.line o)) := by
  have hvis : 0x0A ∉ s.vis := by
    rw [Screen.vis, List.mem_append, not_or]
    exact ⟨prompt_no_newline, h.no_newline⟩
  have hends := h.ends
  cases o with
  | char ch out =>
    simp only [Screen.ops, typedStep, h.ready, Bool.true_eq_false, if_false]
    by_cases h1 : ch = 0x0A
    · -- Enter: the command's output, then the prompt
      rw [if_pos h1, if_pos h1, List.append_nil, ← List.cons_append, tagged, List.map_append, List.map_append,
        Tape.steps_append]
      exact ends_redraw _ _ _ prompt_no_newline
    · rw [if_neg h1, if_neg h1]
      by_cases h2 : ch = 0x08
      · rw [if_pos h2, if_pos h2]
        rcases List.eq_nil_or_concat' s.line with hnil | ⟨line, b, hline⟩
        · rw [hnil]
          rw [Screen.vis, hnil] at hends
          exact hends
        · rw [Screen.vis, hline, ← List.append_assoc, ink, List.map_append] at hends
          rw [hline, if_pos (by simp), List.dropLast_concat]
          exact hends.back
      · rw [if_neg h2, if_neg h2]
        by_cases h3 : s.line.length < 128
        · have hput : (tagged false [.writeByte ch]).map tapeOp = [.put (ch, false)] := by simp [tagged, tapeOp, h1]
          rw [if_pos (show s.line.length < bufLen from h3), if_pos h3, ← List.append_assoc, ink, List.map_append, hput]
          exact hends.put g.cols g.rows (ch, false)
        · rw [if_neg (show ¬ s.line.length < bufLen from h3), if_neg h3]
          exact hends
  | output bs =>
    simp only [Screen.ops, typedStep, h.ready, if_true]
    rw [List.map_append, Tape.steps_append]
    exact ends_redraw _ _ _ hvis

/-- **Step.** -/
theorem LineInv.step (hg : g.Usable) (h : LineInv g s m t) (o : ShellOp) :
    ∃ t', LineInv g (markedStep (s, m) o).1 (markedStep (s, m) o).2 t' := by
  have hline := step_line h.ready o
  have htape := h.tape.steps hg (s.ops o)
  rw [foldl_markStep, ← step_console] at htape
  refine ⟨_, step_ready h.ready o, ?_, htape, ?_⟩
  · show 0x0A ∉ (s.step o).line
    rw [hline]
    exact typedStep_no_newline h.no_newline o
  · show Ends _ (ink (str prompt ++ (s.step o).line))
    rw [hline]
    exact h.ends_step o

/-- **Run.** -/
theorem LineInv.run (hg : g.Usable) (ops : List ShellOp) {r : Screen × Marks} (h : LineInv g r.1 r.2 t) :
    ∃ t', LineInv g (ops.foldl markedStep r).1 (ops.foldl markedStep r).2 t' := by
  induction ops generalizing r t with
  | nil => exact ⟨t, h⟩
  | cons o ops ih =>
    obtain ⟨t', h'⟩ := h.step hg o
    exact ih h'

end

/-! ## What the screen shows -/

/-- the cells erased are the last ones of the tape -/
theorem erased_index {g : Geometry} {c : Console} {m : Marks} {t : Tape (UInt8 × Bool)} (n : ℕ) (h : Shows g c m t)
    {p : ℕ × ℕ} (hp : p ∈ c.erased n) :
    p.1 < g.cols ∧ t.length - n ≤ p.2 * g.cols + p.1 ∧ p.2 * g.cols + p.1 < t.length := by
  induction n generalizing c m t with
  | zero => exact absurd hp List.not_mem_nil
  | succ n ih =>
    unfold Console.erased at hp
    split_ifs at hp with hne
    · exact absurd hp List.not_mem_nil
    · obtain ⟨hcx, hlast⟩ := backspace_pos h hne
      rcases List.mem_cons.1 hp with rfl | hp
      · dsimp only
        exact ⟨hcx, by omega, by omega⟩
      · obtain ⟨h1, h2, h3⟩ := ih (h.back false) hp
        rw [List.length_dropLast] at h2 h3
        exact ⟨h1, by omega, by omega⟩

/-- what is seen of the line in a state with its marks: with k the bytes of the prompt and the line that fit before the
cursor, the last k cells before the cursor show the last k of these bytes, one to a cell; the cells at and after the
cursor are blank; and every cell that program output would erase shows a byte of the prompt or the line and has not been
drawn in by program output -/
structure LineShown (s : Screen) (m : Marks) : Prop where
  shown : (List.range' (s.console.pos - min s.console.pos s.vis.length) (min s.console.pos s.vis.length)).map
    s.console.cellAt = (s.vis.drop (s.vis.length - min s.console.pos s.vis.length)).map fun b => [b]
  blank : ∀ x y, x < s.console.geo.cols → s.console.pos ≤ y * s.console.geo.cols + x → s.console.cells x y = []
  erased : ∀ p ∈ s.console.erased s.vis.length, (∃ b ∈ s.vis, s.console.cells p.1 p.2 = [b]) ∧ m p.1 p.2 = false

theorem LineInv.shown {g : Geometry} {s : Screen} {m : Marks} {t : Tape (UInt8 × Bool)} (h : LineInv g s m t) :
    LineShown s m := by
  have hgeo := h.tape.geo
  have hpos : s.console.pos = t.length := by rw [Console.pos, hgeo, h.tape.pos]
  have hlen : (ink s.vis).length = s.vis.length := List.length_map _
  have hdrop := h.ends.drop
  rw [hlen] at hdrop
  refine ⟨?_, ?_, ?_⟩
  · rw [hpos]
    have hcell : ∀ i, s.console.cellAt i = (t.getD i []).map Prod.fst := by
      intro i
      have hi := h.tape.cells (i % g.cols) (i / g.cols) (Nat.mod_lt _ g.cols_pos)
      rw [Nat.mul_comm, Nat.div_add_mod] at hi
      rw [Console.cellAt, hgeo, hi]
    have hread : (List.range' (t.length - min t.length s.vis.length) (min t.length s.vis.length)).map s.console.cellAt =
        (t.drop (t.length - min t.length s.vis.length)).map (List.map Prod.fst) := by
      apply List.ext_getElem
      · simp only [List.length_map, List.length_range', List.length_drop]
        omega
      · intro i h1 h2
        simp only [List.length_map, List.length_range'] at h1
        rw [List.getElem_map, List.getElem_map, List.getElem_range', List.getElem_drop, hcell, Nat.one_mul,
          Tape.getD_before t (by omega)]
    rw [hread, hdrop, List.map_map, ink, ← List.map_drop, List.map_map]
    rfl
  · intro x y hx hle
    rw [hgeo] at hx hle
    rw [h.tape.cells x y hx, Tape.getD_beyond t (by omega)]
    rfl
  · intro p hp
    obtain ⟨hx, hlow, hhigh⟩ := erased_index _ h.tape hp
    have hmem : t.getD (p.2 * g.cols + p.1) [] ∈ t.drop (t.length - min t.length s.vis.length) := by
      rw [Tape.getD_before t hhigh, List.mem_drop_iff_getElem]
      exact ⟨p.2 * g.cols + p.1 - (t.length - min t.length s.vis.length), by omega, by congr 1; omega⟩
    rw [hdrop] at hmem
    obtain ⟨a, ha, he⟩ := List.mem_map.1 hmem
    obtain ⟨b, hb, rfl⟩ := List.mem_map.1 (List.mem_of_mem_drop ha)
    rw [h.tape.cells p.1 p.2 hx, h.tape.marks p.1 p.2 hx, ← he]
    exact ⟨⟨b, hb, rfl⟩, rfl⟩

/-! ## From `shell::init` on -/

def banner : String := "\nType 'help' for a list of commands.\n"

def initOps : List (Bool × ConsoleOp) := tagged false (bytesOps (str banner)) ++ tagged false (bytesOps (str prompt))

/-- `shell::init`, with the marks carried along -/
def markedInit (r : Screen × Marks) : Screen × Marks := (r.1.init, (initOps.foldl markStep (r.1.console, r.2)).2)

theorem init_console (s : Screen) : s.init.console = s.console.applyAll (initOps.map Prod.snd) := by
  simp only [initOps, List.map_append, map_snd_tagged, applyAll_append, applyAll_bytes, Screen.init, Console.writeStr,
    banner]

theorem LineInv.init {g : Geometry} (hg : g.Usable) {s : Screen} {m : Marks} {t : Tape (UInt8 × Bool)}
    (h : Shows g s.console m t) : ∃ t', LineInv g (markedInit (s, m)).1 (markedInit (s, m)).2 t' := by
  have htape := h.steps hg initOps
  rw [foldl_markStep, ← init_console] at htape
  have hvis : s.init.vis = str prompt := by simp only [Screen.vis, Screen.init, List.append_nil]
  have hends : Ends (t.steps g.cols g.rows (initOps.map tapeOp)) (ink s.init.vis) := by
    rw [hvis, initOps, List.map_append, Tape.steps_append]
    exact ends_redraw _ _ _ prompt_no_newline
  simp only [markedInit]
  exact ⟨_, rfl, List.not_mem_nil, htape, hends⟩

/-- the marks do not influence the shell -/
theorem foldl_markedStep (r : Screen × Marks) (ops : List ShellOp) :
    (ops.foldl markedStep r).1 = ops.foldl Screen.step r.1 := by
  induction ops generalizing r with
  | nil => rfl
  | cons o ops ih => exact ih _

theorem run_line {s : Screen} (hr : s.ready = true) (ops : List ShellOp) :
    (ops.foldl Screen.step s).line = ops.foldl typedStep s.line := by
  induction ops generalizing s with
  | nil => rfl
  | cons o ops ih =>
    rw [List.foldl_cons, List.foldl_cons, ih (step_ready hr o), step_line hr o]

/-- **Line discipline.** Take a console of any usable geometry that was cleared and then used through `write_byte`,
`backspace` and `clear`, start the shell, and let any keys come, with any output of the commands, and any program output.
Then the line is seen as `LineShown` says; the line is the typed one; and program output does not change it. -/
theorem line_discipline (c₀ : Console) (used : List (Bool × ConsoleOp)) (s₀ : Screen) (m₀ : Marks) (ops : List ShellOp)
    (s : Screen) (m : Marks) (hg : c₀.geo.Usable)
    (hused : used.foldl markStep (c₀.clear, fun _ _ => false) = (s₀.console, m₀))
    (hrun : ops.foldl markedStep (markedInit (s₀, m₀)) = (s, m)) :
    s = ops.foldl Screen.step s₀.init ∧ LineShown s m ∧ s.line = typed ops ∧
      ∀ bs, (s.programOutput bs).line = s.line := by
  have hclear : Shows c₀.geo c₀.clear (fun _ _ => false) [] :=
    ⟨rfl, c₀.geo.cols_pos, by simp [Console.clear], Nat.mul_pos c₀.geo.cols_pos hg.rows_pos, fun _ _ _ => rfl,
      fun _ _ _ => rfl⟩
  have hstart := hclear.steps hg used
  rw [hused] at hstart
  obtain ⟨t, hinit⟩ := LineInv.init hg hstart
  obtain ⟨t', hinv⟩ := hinit.run hg ops
  have hs : (s, m).1 = ops.foldl Screen.step s₀.init := by rw [← hrun, foldl_markedStep, markedInit]
  rw [hrun] at hinv
  dsimp only at hs hinv
  refine ⟨hs, hinv.shown, ?_, fun bs => step_line hinv.ready (.output bs)⟩
  rw [hs]
  exact run_line rfl ops

/-- a screen of two rows of eight cells, which the prompt fills up to the last cell: one key clears it -/
def demoConsole : Console := ⟨⟨64, 32, by decide⟩, fun _ _ => [], 0, 0⟩

/-- two keys, program output, a backspace and Enter with some output -/
def demoKeys : List ShellOp :=
  [.char 0x6C [], .char 0x73 [], .output (str "hi\n"), .char 0x08 [], .char 0x0A [.writeByte 0x78, .clear], .char 0x61 []]

theorem line_discipline_demo : ∃ s m, demoKeys.foldl markedStep (markedInit (⟨demoConsole.clear, [], false, by decide⟩,
    fun _ _ => false)) = (s, m) ∧ LineShown s m ∧ s.line = [0x61] := by
  obtain ⟨-, hshown, hline, -⟩ := line_discipline demoConsole [] ⟨demoConsole.clear, [], false, by decide⟩
    (fun _ _ => false) demoKeys _ _ ⟨by decide, by decide⟩ rfl Prod.mk.eta.symm
  exact ⟨_, _, Prod.mk.eta.symm, hshown, hline.trans (by decide)⟩

end Tomorrow.Shell
