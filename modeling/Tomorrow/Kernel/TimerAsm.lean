/-
The timer interrupt as code: `timer_handler_asm` (`timer.s`) around `timer_do_switch`.

On a tick in ring 3 the CPU takes the stack pointer from `TSS.rsp0` and pushes ss, rsp, rflags, cs and rip. The handler
pushes the fifteen general registers, calls `timer_do_switch` with a pointer to them, and then either pops them again and
returns, or takes the pointer to a `Context` that the call returned, builds a return frame on the kernel stack named there
and loads every register from the record. Three layouts have to agree: the order of the pushes, `SavedRegs` with the
return frame at +120, and the offsets into the `repr(C)` record `Context`.

Kernel memory is one flat memory of words: the contexts of the process table are in the higher half, the stacks below.
`timer_asm` says what the code does: the frame that `timer_do_switch` sees are the registers at the tick, and the CPU goes
on with these registers, or with those of the context that was returned.
-/
import Tomorrow.Core.Asm
import Tomorrow.Kernel.ProcessTable

namespace Tomorrow

open Tomorrow.Core Files Sched Shell Vmm

/-! ## Registers and layouts -/

inductive Reg where
  | rax
  | rbx
  | rcx
  | rdx
  | rbp
  | rsi
  | rdi
  | r8
  | r9
  | r10
  | r11
  | r12
  | r13
  | r14
  | r15
deriving DecidableEq

/-- the registers of a program in ring 3 -/
structure Cpu where
  gpr : Reg → ℕ
  rip : ℕ
  cs : ℕ
  rflags : ℕ
  rsp : ℕ
  ss : ℕ

/-- the registers as `timer_do_switch` is to see them -/
def Cpu.frame (c : Cpu) : TrapFrame where
  rax := c.gpr .rax
  rbx := c.gpr .rbx
  rcx := c.gpr .rcx
  rdx := c.gpr .rdx
  rbp := c.gpr .rbp
  rsi := c.gpr .rsi
  rdi := c.gpr .rdi
  r8 := c.gpr .r8
  r9 := c.gpr .r9
  r10 := c.gpr .r10
  r11 := c.gpr .r11
  r12 := c.gpr .r12
  r13 := c.gpr .r13
  r14 := c.gpr .r14
  r15 := c.gpr .r15
  rip := c.rip
  cs := c.cs
  rflags := c.rflags
  rsp := c.rsp
  ss := c.ss

/-- the general registers of a context -/
def Sched.Context.gpr (c : Context) : Reg → ℕ
  | .rax => c.rax
  | .rbx => c.rbx
  | .rcx => c.rcx
  | .rdx => c.rdx
  | .rbp => c.rbp
  | .rsi => c.rsi
  | .rdi => c.rdi
  | .r8 => c.r8
  | .r9 => c.r9
  | .r10 => c.r10
  | .r11 => c.r11
  | .r12 => c.r12
  | .r13 => c.r13
  | .r14 => c.r14
  | .r15 => c.r15

/-- the registers of a program that goes on from a context -/
def Cpu.ofContext (c : Context) : Cpu := ⟨c.gpr, c.rip, c.cs, c.rflags, c.rsp, c.ss⟩

/-- the words of a `repr(C)` context, in order -/
def Sched.Context.words (c : Context) : List ℕ :=
  [c.rax, c.rbx, c.rcx, c.rdx, c.rsi, c.rdi, c.rbp, c.rsp, c.r8, c.r9, c.r10, c.r11, c.r12, c.r13, c.r14, c.r15, c.rip,
    c.rflags, c.cs, c.ss, c.cr3, c.kernelStack]

/-- `*regs` as a `SavedRegs`, and the return frame at +120 -/
def frameAt (mem : ℕ → ℕ) (regs : ℕ) : TrapFrame where
  rax := mem regs
  rbx := mem (regs + 8)
  rcx := mem (regs + 16)
  rdx := mem (regs + 24)
  rbp := mem (regs + 32)
  rsi := mem (regs + 40)
  rdi := mem (regs + 48)
  r8 := mem (regs + 56)
  r9 := mem (regs + 64)
  r10 := mem (regs + 72)
  r11 := mem (regs + 80)
  r12 := mem (regs + 88)
  r13 := mem (regs + 96)
  r14 := mem (regs + 104)
  r15 := mem (regs + 112)
  rip := mem (regs + 120)
  cs := mem (regs + 128)
  rflags := mem (regs + 136)
  rsp := mem (regs + 144)
  ss := mem (regs + 152)

/-- where the contexts of the process table lie: in the image, which is linked to the higher half, and apart -/
structure TableLayout where
  addr : Fin 64 → ℕ
  high : ∀ i, kernelVirt ≤ addr i
  apart : ∀ i j, i ≠ j → addr i + 176 ≤ addr j ∨ addr j + 176 ≤ addr i

/-- the word at an address inside a context of the table -/
def tableWord (L : TableLayout) (s : Scheduler) (a : ℕ) : ℕ :=
  match (List.finRange 64).find? fun i => L.addr i ≤ a ∧ a < L.addr i + 176 with
  | some i =>
    match s.processes i with
    | some p => p.context.words.getD ((a - L.addr i) / 8) 0
    | none => 0
  | none => 0

/-- kernel memory: the table above, stacks below -/
def memView (L : TableLayout) (s : Scheduler) (stack : ℕ → ℕ) : ℕ → ℕ :=
  fun a => if kernelVirt ≤ a then tableWord L s a else stack a

/-! ## `timer_handler_asm` -/

structure Machine where
  cpu : Cpu
  stack : ℕ → ℕ
  k : Kernel

/-- entry from ring 3: the stack of the TSS, aligned, with the return frame on it -/
def Machine.enter (m : Machine) : AsmState Reg :=
  AsmState.pushList ⟨m.cpu.gpr, m.k.rsp0 / 16 * 16, m.stack⟩ [m.cpu.ss, m.cpu.rsp, m.cpu.rflags, m.cpu.cs, m.cpu.rip]

def saveCode : List (Instr Reg) :=
  [.push .r15, .push .r14, .push .r13, .push .r12, .push .r11, .push .r10, .push .r9, .push .r8, .push .rdi, .push .rsi,
    .push .rbp, .push .rdx, .push .rcx, .push .rbx, .push .rax, .movRsp .rdi]

/-- the path for a context in rax -/
def switchCode : List (Instr Reg) :=
  [.mov .rbx .rax, .loadRsp .rbx 0xA8,
    .load .rax .rbx 0x98, .push .rax, .load .rax .rbx 0x38, .push .rax, .load .rax .rbx 0x88, .push .rax,
    .load .rax .rbx 0x90, .push .rax, .load .rax .rbx 0x80, .push .rax,
    .load .rax .rbx 0x00, .load .rcx .rbx 0x10, .load .rdx .rbx 0x18, .load .rsi .rbx 0x20, .load .rdi .rbx 0x28,
    .load .rbp .rbx 0x30, .load .r8 .rbx 0x40, .load .r9 .rbx 0x48, .load .r10 .rbx 0x50, .load .r11 .rbx 0x58,
    .load .r12 .rbx 0x60, .load .r13 .rbx 0x68, .load .r14 .rbx 0x70, .load .r15 .rbx 0x78, .load .rbx .rbx 0x08]

/-- the path `.restore` up to the test -/
def restoreCode : List (Instr Reg) :=
  [.pop .rax, .pop .rbx, .pop .rcx, .pop .rdx, .pop .rbp, .pop .rsi, .pop .rdi, .pop .r8, .pop .r9, .pop .r10, .pop .r11,
    .pop .r12, .pop .r13, .pop .r14, .pop .r15]

/-- `test WORD PTR [rsp + 8], 3`, and `or WORD PTR [rsp + 32], 3` when the return is to ring 3 -/
def fixSs (s : AsmState Reg) : AsmState Reg :=
  if s.mem (s.rsp + 8) &&& 3 = 0 then s
  else { s with mem := Function.update s.mem (s.rsp + 32) (s.mem (s.rsp + 32) ||| 3) }

def iretq (s : AsmState Reg) : Cpu :=
  ⟨s.gpr, s.mem s.rsp, s.mem (s.rsp + 8), s.mem (s.rsp + 16), s.mem (s.rsp + 24), s.mem (s.rsp + 32)⟩

/-- what a call leaves behind in the registers it may change and below the stack pointer -/
structure Clobber where
  gpr : Reg → ℕ
  stack : ℕ → ℕ

/-- the registers that a called function preserves -/
def calleeSaved (r : Reg) : Bool :=
  decide (r = .rbx ∨ r = .rbp ∨ r = .r12 ∨ r = .r13 ∨ r = .r14 ∨ r = .r15)

/-- the state after `call timer_do_switch`, with the result in rax -/
def afterCall (L : TableLayout) (s : Scheduler) (c : Clobber) (h : AsmState Reg) (result : ℕ) : AsmState Reg where
  gpr := fun r => if r = .rax then result else if calleeSaved r then h.gpr r else c.gpr r
  rsp := h.rsp
  mem := memView L s fun a => if a < h.rsp then c.stack a else h.mem a

def timerHandlerAsm (L : TableLayout) (m : Machine) (c : Clobber) : Except Panic Machine :=
  let h := exec saveCode m.enter
  timerDoSwitch m.k (frameAt h.mem (h.gpr .rdi)) >>= fun r =>
    let result := if r.2.isSome then L.addr r.1.sched.current else 0
    let h := afterCall L r.1.sched c h result
    let h := if h.gpr .rax = 0 then fixSs (exec restoreCode h) else exec switchCode h
    .ok ⟨iretq h, h.mem, r.1⟩

/-! ## What the handler saves -/

/-- the words on the stack after the pushes, from the stack pointer up -/
def Cpu.saved (c : Cpu) : List ℕ :=
  [c.gpr .rax, c.gpr .rbx, c.gpr .rcx, c.gpr .rdx, c.gpr .rbp, c.gpr .rsi, c.gpr .rdi, c.gpr .r8, c.gpr .r9, c.gpr .r10,
    c.gpr .r11, c.gpr .r12, c.gpr .r13, c.gpr .r14, c.gpr .r15, c.rip, c.cs, c.rflags, c.rsp, c.ss]

/-- the top of the stack on entry -/
def Machine.top (m : Machine) : ℕ := m.k.rsp0 / 16 * 16

theorem saved_length (c : Cpu) : c.saved.length = 20 := rfl

/-- the stack after the pushes of the CPU and of the handler -/
def Machine.savedStack (m : Machine) : AsmState Reg :=
  AsmState.pushList ⟨m.cpu.gpr, m.top, m.stack⟩ m.cpu.saved.reverse

theorem save_eq (m : Machine) : exec saveCode m.enter = m.savedStack.set .rdi m.savedStack.rsp := rfl

theorem save_rsp (m : Machine) : (exec saveCode m.enter).rsp = m.top - 160 := by
  rw [save_eq, set_rsp, Machine.savedStack, pushList_rsp, List.length_reverse, saved_length]

theorem save_rdi (m : Machine) : (exec saveCode m.enter).gpr .rdi = m.top - 160 := by
  rw [← save_rsp m, save_eq, set_gpr_self, set_rsp]

theorem save_mem {m : Machine} (htop : 160 ≤ m.top) {j v : ℕ} (hj : m.cpu.saved[j]? = some v) :
    (exec saveCode m.enter).mem (m.top - 160 + 8 * j) = v := by
  have hlt : j < 20 := saved_length m.cpu ▸ (List.getElem?_eq_some_iff.1 hj).1
  have hrev : m.cpu.saved.reverse[19 - j]? = some v := by
    rw [List.getElem?_reverse (by rw [saved_length]; omega), saved_length, show 20 - 1 - (19 - j) = j by omega]
    exact hj
  have hmem := pushList_mem (⟨m.cpu.gpr, m.top, m.stack⟩ : AsmState Reg) m.cpu.saved.reverse
    (by rw [List.length_reverse, saved_length]; exact htop) hrev
  rw [save_eq, set_mem, Machine.savedStack, show m.top - 160 + 8 * j = m.top - 8 * (19 - j + 1) by omega]
  exact hmem

/-- the pushes and `SavedRegs` agree: `timer_do_switch` sees the registers at the tick -/
theorem save_frame {m : Machine} (htop : 160 ≤ m.top) :
    frameAt (exec saveCode m.enter).mem ((exec saveCode m.enter).gpr .rdi) = m.cpu.frame := by
  rw [save_rdi]
  have h : ∀ j v, m.cpu.saved[j]? = some v → (exec saveCode m.enter).mem (m.top - 160 + 8 * j) = v :=
    fun j v hj => save_mem htop hj
  generalize (exec saveCode m.enter).mem = mem at h ⊢
  generalize m.top - 160 = regs at h ⊢
  simp only [frameAt, Cpu.frame, TrapFrame.mk.injEq]
  exact ⟨h 0 _ rfl, h 1 _ rfl, h 2 _ rfl, h 3 _ rfl, h 4 _ rfl, h 5 _ rfl, h 6 _ rfl, h 7 _ rfl, h 8 _ rfl, h 9 _ rfl,
    h 10 _ rfl, h 11 _ rfl, h 12 _ rfl, h 13 _ rfl, h 14 _ rfl, h 15 _ rfl, h 16 _ rfl, h 17 _ rfl, h 18 _ rfl,
    h 19 _ rfl⟩

/-! ## The two ways back -/

/-- the words that `iretq` takes from the stack, from the stack pointer up -/
def Cpu.iretFrame (c : Cpu) : List ℕ := [c.rip, c.cs, c.rflags, c.rsp, c.ss]

theorem iretq_eq {c : Cpu} {s : AsmState Reg} (hgpr : s.gpr = c.gpr)
    (h : ∀ j v, c.iretFrame[j]? = some v → s.mem (s.rsp + 8 * j) = v) : iretq s = c := by
  have hrip : s.mem s.rsp = c.rip := h 0 _ rfl
  have hcs : s.mem (s.rsp + 8) = c.cs := h 1 _ rfl
  have hrflags : s.mem (s.rsp + 16) = c.rflags := h 2 _ rfl
  have hrsp : s.mem (s.rsp + 24) = c.rsp := h 3 _ rfl
  have hss : s.mem (s.rsp + 32) = c.ss := h 4 _ rfl
  simp only [iretq, hgpr, hrip, hcs, hrflags, hrsp, hss]

/-- the registers with the ss that a return to ring 3 forces -/
def Cpu.forced (c : Cpu) : Cpu := { c with ss := if c.cs &&& 3 = 0 then c.ss else c.ss ||| 3 }

theorem fixSs_cpu {c : Cpu} {s : AsmState Reg} (hgpr : s.gpr = c.gpr)
    (h : ∀ j v, c.iretFrame[j]? = some v → s.mem (s.rsp + 8 * j) = v) : iretq (fixSs s) = c.forced := by
  have hcs : s.mem (s.rsp + 8) = c.cs := h 1 _ rfl
  have hss : s.mem (s.rsp + 32) = c.ss := h 4 _ rfl
  unfold fixSs Cpu.forced
  by_cases hrpl : c.cs &&& 3 = 0
  · rw [hcs, if_pos hrpl, if_pos hrpl]
    exact iretq_eq hgpr h
  · rw [hcs, if_neg hrpl, if_neg hrpl]
    refine iretq_eq hgpr ?_
    intro j v hj
    have hlt : j < 5 := (List.getElem?_eq_some_iff.1 hj).1
    dsimp only
    by_cases h4 : j = 4
    · subst h4
      cases hj
      rw [Function.update_self, hss]
    · rw [Function.update_of_ne (by omega)]
      refine h j v (Eq.trans ?_ hj)
      -- the two frames differ in the last word only
      interval_cases j <;> first | rfl | exact absurd rfl h4

def gprs : List Reg :=
  [.rax, .rbx, .rcx, .rdx, .rbp, .rsi, .rdi, .r8, .r9, .r10, .r11, .r12, .r13, .r14, .r15]

theorem saved_eq (c : Cpu) : c.saved = gprs.map c.gpr ++ c.iretFrame := rfl

/-- the pops give back what the pushes saved -/
theorem restore_cpu {c : Cpu} {s : AsmState Reg} (h : ∀ j v, c.saved[j]? = some v → s.mem (s.rsp + 8 * j) = v) :
    iretq (fixSs (exec restoreCode s)) = c.forced := by
  obtain ⟨hrsp, hmem, -, hgpr⟩ := exec_pop gprs (by decide) s
  have hcode : restoreCode = gprs.map .pop := rfl
  have hlen : (gprs.map c.gpr).length = 15 := rfl
  rw [← hcode] at hrsp hmem hgpr
  refine fixSs_cpu ?_ ?_
  · funext r
    obtain ⟨j, hj⟩ := List.mem_iff_getElem?.1 (show r ∈ gprs by cases r <;> decide)
    have hlt : j < gprs.length := (List.getElem?_eq_some_iff.1 hj).1
    rw [hgpr j r hj]
    refine h j _ ?_
    rw [saved_eq, List.getElem?_append_left (by rw [List.length_map]; exact hlt), List.getElem?_map, hj]
    rfl
  · -- the return frame stands above the fifteen registers
    intro j v hj
    rw [hmem, hrsp, show s.rsp + 8 * gprs.length + 8 * j = s.rsp + 8 * (15 + j) by simp [gprs]; omega]
    refine h (15 + j) v ?_
    rw [saved_eq, List.getElem?_append_right (by omega), hlen, Nat.add_sub_cancel_left]
    exact hj

/-- rbx is the address of a context -/
def AtContext (c : Context) (s : AsmState Reg) : Prop := ∀ j v, c.words[j]? = some v → s.mem (s.gpr .rbx + 8 * j) = v

/-- the offsets of ss, rsp, rflags, cs and rip -/
def frameOffsets : List ℕ := [0x98, 0x38, 0x88, 0x90, 0x80]

/-- the offsets of the general registers other than rbx -/
def regOffsets : List (Reg × ℕ) :=
  [(.rax, 0x00), (.rcx, 0x10), (.rdx, 0x18), (.rsi, 0x20), (.rdi, 0x28), (.rbp, 0x30), (.r8, 0x40), (.r9, 0x48),
    (.r10, 0x50), (.r11, 0x58), (.r12, 0x60), (.r13, 0x68), (.r14, 0x70), (.r15, 0x78)]

/-- the code: take the stack of the context, copy the return frame, load the registers, rbx last -/
theorem switchCode_eq : switchCode = [.mov .rbx .rax, .loadRsp .rbx 0xA8] ++ (pushWords .rax .rbx frameOffsets ++
    (loadWords .rbx regOffsets ++ [.load .rbx .rbx 0x08])) := rfl

/-- the offsets in the code and the order of the fields agree -/
theorem regOffsets_words (c : Context) {d : Reg × ℕ} (hd : d ∈ regOffsets) :
    ∃ j, d.2 = 8 * j ∧ c.words[j]? = some (c.gpr d.1) := by
  unfold regOffsets at hd
  fin_cases hd
  · exact ⟨0, rfl, rfl⟩
  · exact ⟨2, rfl, rfl⟩
  · exact ⟨3, rfl, rfl⟩
  · exact ⟨4, rfl, rfl⟩
  · exact ⟨5, rfl, rfl⟩
  · exact ⟨6, rfl, rfl⟩
  · exact ⟨8, rfl, rfl⟩
  · exact ⟨9, rfl, rfl⟩
  · exact ⟨10, rfl, rfl⟩
  · exact ⟨11, rfl, rfl⟩
  · exact ⟨12, rfl, rfl⟩
  · exact ⟨13, rfl, rfl⟩
  · exact ⟨14, rfl, rfl⟩
  · exact ⟨15, rfl, rfl⟩

theorem switch_stack {c : Context} {s : AsmState Reg} (h : ∀ j v, c.words[j]? = some v → s.mem (s.gpr .rax + 8 * j) = v) :
    ∃ u, exec [.mov .rbx .rax, .loadRsp .rbx 0xA8] s = u ∧ AtContext c u ∧ u.gpr .rbx = s.gpr .rax ∧
      u.rsp = c.kernelStack := by
  have hrbx : (s.set .rbx (s.gpr .rax)).gpr .rbx = s.gpr .rax := set_gpr_self _ _ _
  refine ⟨⟨(s.set .rbx (s.gpr .rax)).gpr, s.mem (s.gpr .rax + 0xA8), s.mem⟩, ?_, ?_, hrbx, h 21 _ rfl⟩
  · simp [exec, Instr.exec]
  · intro j v hj
    dsimp only
    rw [hrbx]
    exact h j v hj

/-- the return frame on the kernel stack; the context above it is not touched -/
theorem switch_frame {c : Context} {u : AsmState Reg} (h : AtContext c u) (hlow : 40 ≤ u.rsp) (habove : u.rsp ≤ u.gpr .rbx) :
    ∃ v, exec (pushWords .rax .rbx frameOffsets) u = v ∧ AtContext c v ∧
      ∀ j x, (Cpu.ofContext c).iretFrame[j]? = some x → v.mem (v.rsp + 8 * j) = x := by
  obtain ⟨hkeep, hrsp, hmem⟩ := @exec_pushWords _ _ Reg.rax .rbx (by decide) frameOffsets u hlow habove
  refine ⟨_, rfl, ?_⟩
  generalize exec (pushWords Reg.rax .rbx frameOffsets) u = v at hkeep hrsp hmem
  have hpush : frameOffsets.map (fun o => u.mem (u.gpr .rbx + o)) = (Cpu.ofContext c).iretFrame.reverse := by
    simp only [frameOffsets, List.map_cons, List.map_nil]
    rw [h 19 _ rfl, h 7 _ rfl, h 17 _ rfl, h 18 _ rfl, h 16 _ rfl]
    rfl
  rw [hpush] at hmem
  have hlen : frameOffsets.length = 5 := rfl
  have hroom : 8 * (Cpu.ofContext c).iretFrame.reverse.length ≤ u.rsp := hlow
  constructor
  · intro j x hj
    rw [hmem, hkeep .rbx (by decide), pushList_mem_of_le _ _ hroom (by omega)]
    exact h j x hj
  · intro j x hj
    have hlt : j < 5 := (List.getElem?_eq_some_iff.1 hj).1
    rw [hmem, hrsp, hlen, show u.rsp - 8 * 5 + 8 * j = u.rsp - 8 * (4 - j + 1) by omega]
    refine pushList_mem u _ hroom ?_
    rw [List.getElem?_reverse (by show 4 - j < 5; omega), show (Cpu.ofContext c).iretFrame.length = 5 from rfl,
      show 5 - 1 - (4 - j) = j by omega]
    exact hj

/-- every register comes from its own field -/
theorem switch_regs {c : Context} {v : AsmState Reg} (h : AtContext c v) :
    ∃ w, exec (loadWords .rbx regOffsets ++ [.load .rbx .rbx 0x08]) v = w ∧ w.gpr = c.gpr ∧ w.rsp = v.rsp ∧ w.mem = v.mem := by
  obtain ⟨hrsp, hmem, hkeep, hload⟩ := @exec_loadWords _ _ Reg.rbx regOffsets (by decide) (by decide) v
  refine ⟨_, exec_append _ _ _, ?_⟩
  generalize exec (loadWords Reg.rbx regOffsets) v = w at hrsp hmem hkeep hload
  have hlast : exec [Instr.load Reg.rbx Reg.rbx 0x08] w = w.set .rbx c.rbx := by
    show w.set .rbx (w.mem (w.gpr .rbx + 8 * 1)) = _
    rw [hmem, hkeep .rbx (by decide), h 1 _ rfl]
  rw [hlast]
  refine ⟨?_, hrsp, hmem⟩
  funext r
  by_cases hr : r = .rbx
  · subst hr
    exact set_gpr_self _ _ _
  · obtain ⟨o, ho⟩ : ∃ o, (r, o) ∈ regOffsets := by
      cases r <;> simp [regOffsets] at hr ⊢
    obtain ⟨j, rfl, hj⟩ := regOffsets_words c ho
    rw [set_gpr_of_ne _ hr, hload _ ho]
    exact h j _ hj

theorem switch_cpu {c : Context} {s : AsmState Reg} (h : ∀ j v, c.words[j]? = some v → s.mem (s.gpr .rax + 8 * j) = v)
    (hlow : 40 ≤ c.kernelStack) (habove : c.kernelStack ≤ s.gpr .rax) : iretq (exec switchCode s) = Cpu.ofContext c := by
  obtain ⟨u, hu, hcu, hrbx, hrsp⟩ := switch_stack h
  obtain ⟨v, hv, hcv, hframe⟩ := switch_frame hcu (by omega) (by omega)
  obtain ⟨w, hw, hgpr, hwrsp, hwmem⟩ := switch_regs hcv
  rw [switchCode_eq, exec_append, hu, exec_append, hv, hw]
  refine iretq_eq hgpr ?_
  intro j x hj
  rw [hwmem, hwrsp]
  exact hframe j x hj

/-! ## A tick -/

/-- word j of the context in slot i -/
theorem memView_context {L : TableLayout} {s : Scheduler} {stack : ℕ → ℕ} {i : Fin 64} {p : Process}
    (hp : s.processes i = some p) {j v : ℕ} (hj : p.context.words[j]? = some v) :
    memView L s stack (L.addr i + 8 * j) = v := by
  have hlt : j < 22 := (List.getElem?_eq_some_iff.1 hj).1
  have hhigh := L.high i
  have hfind : (List.finRange 64).find? (fun n => L.addr n ≤ L.addr i + 8 * j ∧ L.addr i + 8 * j < L.addr n + 176) =
      some i := by
    cases hf : (List.finRange 64).find? fun n => L.addr n ≤ L.addr i + 8 * j ∧ L.addr i + 8 * j < L.addr n + 176 with
    | none =>
      have := List.find?_eq_none.1 hf i (List.mem_finRange i)
      simp only [decide_eq_true_eq] at this
      omega
    | some n =>
      have hn := List.find?_some hf
      simp only [decide_eq_true_eq] at hn
      by_cases hne : n = i
      · rw [hne]
      · rcases L.apart n i hne with h | h <;> omega
  unfold memView tableWord
  rw [if_pos (by omega), hfind]
  simp only [hp]
  rw [Nat.add_sub_cancel_left, Nat.mul_div_cancel_left j (by decide), List.getD_eq_getElem?_getD, hj]
  rfl

/-- the stack that the tick and a switch use lies below the higher half, and there is room on it -/
structure StacksLow (k : Kernel) : Prop where
  rsp0 : 176 ≤ k.rsp0 ∧ k.rsp0 ≤ kernelVirt
  contexts : ∀ i p, k.sched.processes i = some p → 40 ≤ p.context.kernelStack ∧ p.context.kernelStack ≤ kernelVirt

/-- after the call the words at the stack pointer and above are still there -/
theorem afterCall_mem (L : TableLayout) (s : Scheduler) (c : Clobber) {h : AsmState Reg} (x : ℕ) {a : ℕ} (ha : h.rsp ≤ a)
    (hlow : a < kernelVirt) : (afterCall L s c h x).mem a = h.mem a := by
  unfold afterCall memView
  dsimp only
  rw [if_neg (by omega), if_neg (by omega)]

/-- the table is as the call left it -/
theorem afterCall_context {L : TableLayout} {s : Scheduler} (c : Clobber) (h : AsmState Reg) (x : ℕ) {i : Fin 64}
    {p : Process} (hp : s.processes i = some p) {j v : ℕ} (hj : p.context.words[j]? = some v) :
    (afterCall L s c h x).mem (L.addr i + 8 * j) = v := by
  unfold afterCall
  dsimp only
  exact memView_context hp hj

theorem afterCall_saved (L : TableLayout) {m : Machine} (htop : 160 ≤ m.top) (hlow : m.top ≤ kernelVirt) (s : Scheduler)
    (c : Clobber) (x j v : ℕ) (hj : m.cpu.saved[j]? = some v) :
    (afterCall L s c (exec saveCode m.enter) x).mem ((afterCall L s c (exec saveCode m.enter) x).rsp + 8 * j) = v := by
  have hlt : j < 20 := saved_length m.cpu ▸ (List.getElem?_eq_some_iff.1 hj).1
  have hrsp := save_rsp m
  have hmem := save_mem htop hj
  generalize exec saveCode m.enter = h at hrsp hmem
  rw [show (afterCall L s c h x).rsp = h.rsp from rfl, afterCall_mem L s c x (by omega) (by omega), hrsp]
  exact hmem

/-- **The handler.** `timer_do_switch` gets the registers at the tick; the CPU goes on with them, up to the forced bits of
ss, or with the registers of the context returned. -/
theorem timer_asm {L : TableLayout} {m m' : Machine} {c : Clobber} (hlow : StacksLow m.k)
    (h : timerHandlerAsm L m c = .ok m') :
    ∃ r, timerDoSwitch m.k m.cpu.frame = .ok r ∧ m'.k = r.1 ∧
      m'.cpu = match r.2 with
        | none => m.cpu.forced
        | some ctx => Cpu.ofContext ctx := by
  obtain ⟨h1, h2⟩ := hlow.rsp0
  have htop : 160 ≤ m.top ∧ m.top ≤ kernelVirt := by unfold Machine.top; omega
  unfold timerHandlerAsm at h
  obtain ⟨r, hr, h⟩ := bind_ok.1 h
  rw [save_frame htop.1] at hr
  refine ⟨r, hr, ?_⟩
  cases hctx : r.2 with
  | none =>
    rw [hctx] at h
    simp only [Option.isSome_none, Bool.false_eq_true, if_false] at h
    have hsaved := afterCall_saved L htop.1 htop.2 r.1.sched c 0
    generalize hs : afterCall L r.1.sched c (exec saveCode m.enter) 0 = s at h hsaved
    have hrax : s.gpr .rax = 0 := by rw [← hs]; rfl
    rw [if_pos hrax] at h
    obtain rfl := (Except.ok.inj h).symm
    exact ⟨rfl, restore_cpu hsaved⟩
  | some ctx =>
    obtain ⟨i, q, hi, hq, rfl⟩ : ∃ i q, i ≠ m.k.sched.current ∧ (m.k.sched.saveCurrent m.cpu.frame).processes i = some q ∧
        r = ({ m.k.ticked with
          sched := { m.k.sched.saveCurrent m.cpu.frame with current := i }, rsp0 := q.kernelStack }, some q.context) := by
      rcases timer_cases hr with rfl | rfl | ⟨i, q, hi, hq, -, rfl⟩
      · cases hctx
      · cases hctx
      · exact ⟨i, q, hi, hq, rfl⟩
    obtain rfl : q.context = ctx := Option.some.inj hctx
    have hhigh := L.high i
    obtain ⟨hks, hks'⟩ := hlow.contexts i q ((saveCurrent_of_ne m.cpu.frame hi).symm.trans hq)
    simp only [Option.isSome_some, if_true] at h
    generalize hs : afterCall L { m.k.sched.saveCurrent m.cpu.frame with current := i } c (exec saveCode m.enter) (L.addr i) =
      s at h
    have hrax : s.gpr .rax = L.addr i := by rw [← hs]; rfl
    have hne : s.gpr .rax ≠ 0 := by
      rw [hrax]
      have : 0 < kernelVirt := by decide
      omega
    rw [if_neg hne] at h
    obtain rfl := (Except.ok.inj h).symm
    refine ⟨rfl, switch_cpu (fun j v hj => ?_) hks (by rw [hrax]; omega)⟩
    rw [hrax, ← hs]
    exact afterCall_context c _ (L.addr i) hq hj

end Tomorrow
