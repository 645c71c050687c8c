/-
Small assembly programs that call an operating system, independent of any particular one.

A program is a list of items, instructions and data, and a position in it is the index of an item; `place` gives the address
of an item in memory. Registers hold 64-bit words. `Thread.next` is a move that touches registers only. Instructions on
memory and system calls are not moves of the thread alone: they are left to whoever has the memory. The names of the
registers are a parameter, with the two that `div` uses.
-/
import Mathlib.Tactic

namespace Tomorrow.Core

variable {ρ : Type} [DecidableEq ρ]

/-- an item of a program; positions are indices of items -/
inductive Item (ρ : Type) where
  /-- `mov d, v` -/
  | mov (d : ρ) (v : ℕ)
  | movReg (d s : ρ)
  /-- `mov d, rsp` -/
  | movRsp (d : ρ)
  /-- `lea d, [rip + label]` -/
  | lea (d : ρ) (pos : ℕ)
  /-- `lea d, [rsp + off]` -/
  | leaRsp (d : ρ) (off : ℕ)
  /-- `xor d, d` -/
  | xor (d : ρ)
  | subRsp (v : ℕ)
  | addRsp (v : ℕ)
  | dec (d : ρ)
  | neg (d : ρ)
  | sub (d s : ρ)
  /-- `div s`: the dividend is in hi and lo, the quotient goes to lo, the remainder to hi -/
  | div (lo hi s : ρ)
  /-- `add d, v` on the low byte -/
  | addLow (d : ρ) (v : ℕ)
  /-- `test s, s` -/
  | test (s : ρ)
  | jmp (pos : ℕ)
  | jz (pos : ℕ)
  | jnz (pos : ℕ)
  | js (pos : ℕ)
  | jns (pos : ℕ)
  /-- `mov byte ptr [base], v` -/
  | storeByte (base : ρ) (v : UInt8)
  /-- `mov [base], s` on the low byte of s -/
  | storeLow (base s : ρ)
  | call (pos : ℕ)
  | ret
  | syscall
  | data (bs : List UInt8)

/-- sums of 64-bit words; kept folded, so that moves can be evaluated on variables -/
@[irreducible] def wadd (a b : ℕ) : ℕ := (b + a) % 2 ^ 64

/-- differences of 64-bit words -/
@[irreducible] def wsub (a b : ℕ) : ℕ := (2 ^ 64 - b + a) % 2 ^ 64

theorem wadd_eq {a b : ℕ} (h : a + b < 2 ^ 64) : wadd a b = a + b := by
  unfold wadd
  rw [Nat.add_comm b, Nat.mod_eq_of_lt h]

theorem wsub_eq {a b : ℕ} (h : b ≤ a) (ha : a < 2 ^ 64) : wsub a b = a - b := by
  unfold wsub
  omega

abbrev Code (ρ : Type) := List (Item ρ)

structure Thread (ρ : Type) where
  gpr : ρ → ℕ
  rsp : ℕ
  pc : ℕ
  /-- the last result: its being 0 and its top bit are the flags -/
  last : ℕ

namespace Thread

def set (t : Thread ρ) (r : ρ) (v : ℕ) : Thread ρ := { t with gpr := Function.update t.gpr r v }

/-- the flags of a 64-bit result -/
def flags (t : Thread ρ) (v : ℕ) : Thread ρ := { t with last := v }

def skip (t : Thread ρ) : Thread ρ := { t with pc := t.pc + 1 }

def goto (t : Thread ρ) (pos : ℕ) : Thread ρ := { t with pc := pos }

/-- a result in a register, with its flags -/
def result (t : Thread ρ) (d : ρ) (v : ℕ) : Thread ρ := ((t.set d v).flags v).skip

/-- a jump on a condition -/
def branch (t : Thread ρ) (c : Prop) [Decidable c] (pos : ℕ) : Thread ρ := if c then t.goto pos else t.skip

omit [DecidableEq ρ] in
theorem branch_taken {t : Thread ρ} {c : Prop} [Decidable c] {pos : ℕ} (h : c) : t.branch c pos = t.goto pos := if_pos h

omit [DecidableEq ρ] in
theorem branch_skipped {t : Thread ρ} {c : Prop} [Decidable c] {pos : ℕ} (h : ¬ c) : t.branch c pos = t.skip := if_neg h

/-- the sign flag -/
def Negative (t : Thread ρ) : Prop := 2 ^ 63 ≤ t.last

instance (t : Thread ρ) : Decidable t.Negative := inferInstanceAs (Decidable (2 ^ 63 ≤ t.last))

/-- the item at the program counter as a move of the thread alone -/
def move (place : ℕ → ℕ) (t : Thread ρ) : Item ρ → Option (Thread ρ)
  | .mov d v => some (t.set d v).skip
  | .movReg d s => some (t.set d (t.gpr s)).skip
  | .movRsp d => some (t.set d t.rsp).skip
  | .lea d pos => some (t.set d (place pos)).skip
  | .leaRsp d off => some (t.set d (wadd t.rsp off)).skip
  | .xor d => some (t.result d 0)
  | .subRsp v => some (flags { t with rsp := wsub t.rsp v } (wsub t.rsp v)).skip
  | .addRsp v => some (flags { t with rsp := wadd t.rsp v } (wadd t.rsp v)).skip
  | .dec d => some (t.result d (wsub (t.gpr d) 1))
  | .neg d => some (t.result d (wsub 0 (t.gpr d)))
  | .sub d s => some (t.result d (wsub (t.gpr d) (t.gpr s)))
  | .div lo hi s =>
    -- a quotient of more than 64 bits is a fault
    if t.gpr s ≤ t.gpr hi then none
    else
      let n := t.gpr hi * 2 ^ 64 + t.gpr lo
      some ((t.set lo (n / t.gpr s)).set hi (n % t.gpr s)).skip
  | .addLow d v =>
    let low := (t.gpr d + v) % 256
    -- the sign of a byte is bit 7
    some ((t.set d (t.gpr d / 256 * 256 + low)).flags (low * 2 ^ 56)).skip
  | .test s => some (t.flags (t.gpr s)).skip
  | .jmp pos => some (t.goto pos)
  | .jz pos => some (t.branch (t.last = 0) pos)
  | .jnz pos => some (t.branch (t.last ≠ 0) pos)
  | .js pos => some (t.branch t.Negative pos)
  | .jns pos => some (t.branch (¬ t.Negative) pos)
  | .storeByte _ _ => none
  | .storeLow _ _ => none
  | .call _ => none
  | .ret => none
  | .syscall => none
  | .data _ => none

section Jumps

variable {place : ℕ → ℕ} {gpr : ρ → ℕ} {rsp pc last pos : ℕ}

theorem move_jz (h : last = 0) : move place ⟨gpr, rsp, pc, last⟩ (.jz pos) = some ⟨gpr, rsp, pos, last⟩ :=
  congrArg some (branch_taken h)

theorem move_jz_not (h : last ≠ 0) : move place ⟨gpr, rsp, pc, last⟩ (.jz pos) = some ⟨gpr, rsp, pc + 1, last⟩ :=
  congrArg some (branch_skipped h)

theorem move_jnz (h : last ≠ 0) : move place ⟨gpr, rsp, pc, last⟩ (.jnz pos) = some ⟨gpr, rsp, pos, last⟩ :=
  congrArg some (branch_taken h)

theorem move_jnz_not (h : last = 0) : move place ⟨gpr, rsp, pc, last⟩ (.jnz pos) = some ⟨gpr, rsp, pc + 1, last⟩ :=
  congrArg some (branch_skipped (not_not.2 h))

theorem move_js (h : 2 ^ 63 ≤ last) : move place ⟨gpr, rsp, pc, last⟩ (.js pos) = some ⟨gpr, rsp, pos, last⟩ :=
  congrArg some (branch_taken h)

theorem move_js_not (h : last < 2 ^ 63) : move place ⟨gpr, rsp, pc, last⟩ (.js pos) = some ⟨gpr, rsp, pc + 1, last⟩ :=
  congrArg some (branch_skipped (Nat.not_le_of_lt h))

theorem move_jns (h : last < 2 ^ 63) : move place ⟨gpr, rsp, pc, last⟩ (.jns pos) = some ⟨gpr, rsp, pos, last⟩ :=
  congrArg some (branch_taken (Nat.not_le_of_lt h))

theorem move_jns_not (h : 2 ^ 63 ≤ last) : move place ⟨gpr, rsp, pc, last⟩ (.jns pos) = some ⟨gpr, rsp, pc + 1, last⟩ :=
  congrArg some (branch_skipped (not_not.2 h))

end Jumps

/-- a division of one word leaves no fault -/
theorem move_div {place : ℕ → ℕ} {gpr : ρ → ℕ} {rsp pc last v : ℕ} {lo hi s : ρ} (hhi : gpr hi = 0) (hs : gpr s = v)
    (hv : 0 < v) : move place ⟨gpr, rsp, pc, last⟩ (.div lo hi s) =
      some ⟨Function.update (Function.update gpr lo (gpr lo / v)) hi (gpr lo % v), rsp, pc + 1, last⟩ := by
  simp only [move, hhi, hs, if_neg (Nat.not_le_of_lt hv), Nat.zero_mul, Nat.zero_add]
  rfl

/-- a move on registers; none at an item that needs memory or the kernel, and behind the program -/
def next (code : Code ρ) (place : ℕ → ℕ) (t : Thread ρ) : Option (Thread ρ) := code[t.pc]?.bind (t.move place)

end Thread

end Tomorrow.Core
