/-
The framebuffer console (`console.rs`) and the part of the shell that owns the input line (`shell.rs`).

The screen is a grid of text cells of 8 x 16 pixels. `draw_char` sets the pixels of a glyph and clears none, so a cell
holds the bytes drawn over one another since it was last blanked; a blank cell is the empty list. `backspace` blanks the
cell it steps onto, `clear` blanks the screen. The geometry comes from the boot loader: at least one column is what
`width / GLYPH_W - 1` needs.

`programOutput` erases the prompt and the typed line, prints, and draws them again; before `shell::init` it only prints.
-/
import Tomorrow.Files.Ramfs

namespace Tomorrow.Shell

open Tomorrow.Core Tomorrow.Files

/-- the bytes of a string literal -/
def str (s : String) : Bytes := s.toUTF8.data.toList

/-! ## Console -/

def glyphW : ℕ := 8

def glyphH : ℕ := 16

structure Geometry where
  width : ℕ
  height : ℕ
  width_ge : 8 ≤ width

structure Console where
  geo : Geometry
  /-- the bytes drawn in the cell of a column and a row since it was last blanked -/
  cells : ℕ → ℕ → Bytes
  cx : ℕ
  cy : ℕ

def Console.clear (c : Console) : Console := { c with cells := fun _ _ => [], cx := 0, cy := 0 }

/-- `draw_char` at the cursor -/
def Console.drawChar (c : Console) (b : UInt8) : Console :=
  { c with cells := fun x y => if x = c.cx ∧ y = c.cy then c.cells x y ++ [b] else c.cells x y }

/-- the screen is cleared when the cursor leaves the last row -/
def Console.wrapRow (c : Console) : Console := if c.geo.height / glyphH ≤ c.cy then c.clear else c

def Console.writeByte (c : Console) (b : UInt8) : Console :=
  if b = 0x0A then Console.wrapRow { c with cx := 0, cy := c.cy + 1 }
  else if c.geo.width ≤ (c.cx + 1) * glyphW then Console.wrapRow { c.drawChar b with cx := 0, cy := c.cy + 1 }
  else Console.wrapRow { c.drawChar b with cx := c.cx + 1 }

/-- `write_str`, `write_bytes` -/
def Console.writeBytes (c : Console) (bs : Bytes) : Console := bs.foldl Console.writeByte c

def Console.writeStr (c : Console) (s : String) : Console := c.writeBytes (str s)

/-- fill the cell under the cursor with the background -/
def Console.blank (c : Console) : Console :=
  { c with cells := fun x y => if x = c.cx ∧ y = c.cy then [] else c.cells x y }

def Console.backspace (c : Console) : Console :=
  if c.cx = 0 ∧ c.cy = 0 then c
  else if 0 < c.cx then Console.blank { c with cx := c.cx - 1 }
  else Console.blank { c with cy := c.cy - 1, cx := c.geo.width / glyphW - 1 }

def hexDigit (nibble : ℕ) : UInt8 := UInt8.ofNat (if nibble < 10 then 0x30 + nibble else 0x61 + (nibble - 10))

def Console.writeHex (c : Console) (val : ℕ) : Console :=
  c.writeBytes ((List.range 16).reverse.map fun i => hexDigit ((val >>> (i * 4)) &&& 0xF))

/-- the digit loop of `write_dec`: what it stores in the k bytes of `buf` that are left, lowest digit first -/
def decLoop : ℕ → ℕ → Except Panic Bytes
  | 0, n => if n = 0 then .ok [] else .error .bounds
  | k + 1, n => if n = 0 then .ok [] else decLoop k (n / 10) >>= fun ds => .ok (UInt8.ofNat (0x30 + n % 10) :: ds)

def Console.writeDec (c : Console) (val : ℕ) : Except Panic Console :=
  if val = 0 then .ok (c.writeByte 0x30) else decLoop 20 val >>= fun buf => .ok (c.writeBytes buf.reverse)

/-! ## The input line -/

def prompt : String := "User@Tomorrow> "

def bufLen : ℕ := 128

/-- `CONSOLE`, `LINE[..LEN]` and `READY` -/
structure Screen where
  console : Console
  line : Bytes
  ready : Bool
  line_le : line.length ≤ bufLen

def Screen.write (s : Screen) (bs : Bytes) : Screen := { s with console := s.console.writeBytes bs }

/-- the console after n backspaces -/
def Console.erase (c : Console) (n : ℕ) : Console := Console.backspace^[n] c

/-- `program_output`: interrupts are off, so nothing comes between the erasing and the redrawing -/
def Screen.programOutput (s : Screen) (bs : Bytes) : Screen :=
  if s.ready then
    { s with console := (((s.console.erase ((str prompt).length + s.line.length)).writeBytes bs).writeStr prompt).writeBytes
                          s.line }
  else s.write bs

/-- `shell::init` -/
def Screen.init (s : Screen) : Screen :=
  { console := (s.console.writeStr "\nType 'help' for a list of commands.\n").writeStr prompt, line := [], ready := true,
    line_le := by simp [bufLen] }

/-! ## Arguments of commands -/

def isBlank (c : UInt8) : Bool := c == 0x20 || c == 0x09

def trim (s : Bytes) : Bytes := ((s.dropWhile isBlank).reverse.dropWhile isBlank).reverse

/-- the first word and the trimmed rest -/
def splitFirstWord (s : Bytes) : Bytes × Bytes :=
  match s.findIdx? (· == 0x20) with
  | some i => (s.take i, trim (s.drop (i + 1)))
  | none => (s, [])

def isAsciiDigit (c : UInt8) : Bool := 0x30 ≤ c && c ≤ 0x39

/-- `n.checked_mul(10)?.checked_add((c - b'0') as u64)?` for a digit c -/
def pushDigit (n : ℕ) (c : UInt8) : Option ℕ :=
  if isAsciiDigit c then (checkedMul n 10).bind fun m => checkedAdd m (c.toNat - 0x30) else none

def parseDecLoop (n : ℕ) : Bytes → Option ℕ
  | [] => some n
  | c :: s => (pushDigit n c).bind fun m => parseDecLoop m s

def parseDec (s : Bytes) : Option ℕ := if s = [] then none else parseDecLoop 0 s

example : splitFirstWord (str "hello.txt  some text ") = (str "hello.txt", str "some text") := by decide

end Tomorrow.Shell
