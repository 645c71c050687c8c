/-
A system call as code: `syscall_entry` (`syscall_entry.s`) around `syscall_handler`.

`syscall` leaves the stack pointer alone and puts rip and rflags into rcx and r11. The entry code parks the user's stack
pointer in a static, takes the kernel stack from another one, pushes the three words of the way back and the six registers
that a C function keeps, and moves the arguments from the Linux registers to those of a C call. On the way back it pops
what it pushed, the stack pointer last, and `sysretq` takes rip and rflags from rcx and r11. The kernel stacks of the
processes play no part: all calls share one stack page, and interrupts are off meanwhile.

`syscall_asm` says what a call does on the way in and on the way back. The handler starts 72 bytes below the top of that
page, with the number and the five arguments in the registers of a C call (`Enters`). The program goes on behind the
`syscall` with its own stack pointer, flags and callee-saved registers, and the result in rax. The other registers are
whatever the handler left (`returnRegs`).
-/
import Tomorrow.Kernel.TimerAsm

namespace Tomorrow

open Tomorrow.Core Files Sched Shell Vmm

/-! ## The code -/

/-- the two statics of the entry code, in the image, and the top of the kernel stack page -/
structure EntryStatics where
  userRspTmp : ℕ
  kernelRsp : ℕ
  top : ℕ
  apart : userRspTmp + 8 ≤ kernelRsp ∨ kernelRsp + 8 ≤ userRspTmp
  high : top ≤ userRspTmp ∧ top ≤ kernelRsp
  room : 72 ≤ top

/-- the `syscall` instruction, up to the segments: rcx and r11 take rip and rflags -/
def Cpu.syscall (c : Cpu) (mem : ℕ → ℕ) : AsmState Reg :=
  AsmState.set (AsmState.set ⟨c.gpr, c.rsp, mem⟩ .rcx c.rip) .r11 c.rflags

/-- `mov [rip + user_rsp_tmp], rsp; mov rsp, [rip + SYSCALL_KERNEL_RSP]; push qword ptr [rip + user_rsp_tmp]` -/
def switchStack (e : EntryStatics) (s : AsmState Reg) : AsmState Reg :=
  let mem := Function.update s.mem e.userRspTmp s.rsp
  AsmState.push ⟨s.gpr, mem e.kernelRsp, mem⟩ (mem e.userRspTmp)

/-- the pushes and the moves of the arguments -/
def entryCode : List (Instr Reg) :=
  [.push .r11, .push .rcx, .push .rbx, .push .rbp, .push .r12, .push .r13, .push .r14, .push .r15,
    .mov .r9 .r8, .mov .r8 .r10, .mov .rcx .rdx, .mov .rdx .rsi, .mov .rsi .rdi, .mov .rdi .rax]

/-- the pops up to the stack pointer -/
def exitCode : List (Instr Reg) :=
  [.pop .r15, .pop .r14, .pop .r13, .pop .r12, .pop .rbp, .pop .rbx, .pop .rcx, .pop .r11]

/-- `pop rsp; sysretq`: flags 16 and 17 are cleared, the segments come from `STAR` -/
def sysretq (s : AsmState Reg) : Cpu where
  gpr := s.gpr
  rip := s.gpr .rcx
  cs := 0x23
  rflags := (s.gpr .r11 &&& 0x3C7FD7) ||| 2
  rsp := s.mem s.rsp
  ss := 0x1B

/-- the state after `call syscall_handler`: rax is the result, and the stack above the call is as it was -/
def afterHandler (e : EntryStatics) (c : Clobber) (h : AsmState Reg) (result : ℕ) : AsmState Reg where
  gpr := fun r => if r = .rax then result else if calleeSaved r then h.gpr r else c.gpr r
  rsp := h.rsp
  mem := fun a => if h.rsp ≤ a ∧ a < e.top then h.mem a else c.stack a

/-- registers and memory at `call syscall_handler` -/
def callState (e : EntryStatics) (m : Machine) : AsmState Reg := exec entryCode (switchStack e (m.cpu.syscall m.stack))

/-- one system call of the running program; none when the handler does not come back to it -/
def syscallEntry (e : EntryStatics) (m : Machine) (c : Clobber) (regs : Context) : Option Machine :=
  let h := callState e m
  match syscallHandler m.k (h.gpr .rdi) (h.gpr .rsi) (h.gpr .rdx) (h.gpr .rcx) regs with
  | .returns result k =>
    let h := exec exitCode (afterHandler e c h result)
    some ⟨sysretq h, h.mem, k⟩
  | .exits _ => none
  | .switches _ => none
  | .panics _ => none

/-- the registers a program finds after a call: the result, those a C function keeps, and for the rest anything -/
def returnRegs (gpr : Reg → ℕ) (result : ℕ) (others : Reg → ℕ) : Reg → ℕ :=
  fun r => if r = .rax then result else if calleeSaved r then gpr r else others r

/-! ## The way in -/

/-- the words of the way back, from the stack pointer up -/
def Cpu.callFrame (c : Cpu) : List ℕ :=
  [c.gpr .r15, c.gpr .r14, c.gpr .r13, c.gpr .r12, c.gpr .rbp, c.gpr .rbx, c.rip, c.rflags, c.rsp]

/-- how the handler is called: the stack page of all calls with the way back on it, the number and the arguments in the
order of `syscall_handler`, and the registers it has to keep as the program left them -/
structure Enters (e : EntryStatics) (m : Machine) (h : AsmState Reg) : Prop where
  rsp : h.rsp = e.top - 72
  frame : ∀ j v, m.cpu.callFrame[j]? = some v → h.mem (e.top - 72 + 8 * j) = v
  above : ∀ a, e.top ≤ a → a ≠ e.userRspTmp → h.mem a = m.stack a
  nr : h.gpr .rdi = m.cpu.gpr .rax
  arg1 : h.gpr .rsi = m.cpu.gpr .rdi
  arg2 : h.gpr .rdx = m.cpu.gpr .rsi
  arg3 : h.gpr .rcx = m.cpu.gpr .rdx
  arg4 : h.gpr .r8 = m.cpu.gpr .r10
  arg5 : h.gpr .r9 = m.cpu.gpr .r8
  saved : ∀ r, calleeSaved r = true → h.gpr r = m.cpu.gpr r

section

variable {e : EntryStatics} {m : Machine}

theorem switchStack_eq (hk : m.stack e.kernelRsp = e.top) :
    switchStack e (m.cpu.syscall m.stack) =
      AsmState.push ⟨(m.cpu.syscall m.stack).gpr, e.top, Function.update m.stack e.userRspTmp m.cpu.rsp⟩ m.cpu.rsp := by
  have hne : e.kernelRsp ≠ e.userRspTmp := by
    have := e.apart
    omega
  have hload : Function.update m.stack e.userRspTmp m.cpu.rsp e.kernelRsp = e.top := by
    rw [Function.update_of_ne hne, hk]
  have hself : Function.update m.stack e.userRspTmp m.cpu.rsp e.userRspTmp = m.cpu.rsp := Function.update_self _ _ _
  unfold switchStack
  show AsmState.push ⟨_, Function.update m.stack e.userRspTmp m.cpu.rsp e.kernelRsp, _⟩
    (Function.update m.stack e.userRspTmp m.cpu.rsp e.userRspTmp) = _
  rw [hload, hself]
  rfl

/-- the way in -/
theorem entry_spec (hk : m.stack e.kernelRsp = e.top) : Enters e m (callState e m) := by
  let s : AsmState Reg := ⟨(m.cpu.syscall m.stack).gpr, e.top, Function.update m.stack e.userRspTmp m.cpu.rsp⟩
  have hroom := e.room
  have hstate : callState e m = exec entryCode (s.push m.cpu.rsp) := by rw [callState, switchStack_eq hk]
  have hmem : (callState e m).mem = (s.pushList m.cpu.callFrame.reverse).mem := by rw [hstate]; rfl
  have hrsp : (callState e m).rsp = (s.pushList m.cpu.callFrame.reverse).rsp := by rw [hstate]; rfl
  have hgpr : (callState e m).gpr = (exec entryCode (s.push m.cpu.rsp)).gpr := by rw [hstate]
  refine ⟨?_, fun j v hj => ?_, fun a ha hne => ?_, ?_, ?_, ?_, ?_, ?_, ?_, fun r hr => ?_⟩
  · rw [hrsp, pushList_rsp]
    rfl
  · have hlt : j < 9 := (List.getElem?_eq_some_iff.1 hj).1
    have hrev : m.cpu.callFrame.reverse[8 - j]? = some v := by
      rw [List.getElem?_reverse (by show 8 - j < 9; omega), show m.cpu.callFrame.length = 9 from rfl,
        show 9 - 1 - (8 - j) = j by omega]
      exact hj
    have := pushList_mem s m.cpu.callFrame.reverse hroom hrev
    rw [hmem, show e.top - 72 + 8 * j = s.rsp - 8 * (8 - j + 1) by show _ = e.top - _; omega]
    exact this
  · rw [hmem, pushList_mem_of_le s m.cpu.callFrame.reverse hroom ha]
    exact Function.update_of_ne hne _ _
  all_goals rw [hgpr]
  · rfl
  · rfl
  · rfl
  · rfl
  · rfl
  · rfl
  · cases r <;> first | rfl | cases hr

/-! ## The way out -/

/-- the pops and `sysretq` give back what the way in saved -/
theorem exit_spec {c : Cpu} {s : AsmState Reg} (h : ∀ j v, c.callFrame[j]? = some v → s.mem (s.rsp + 8 * j) = v) :
    sysretq (exec exitCode s) =
      ⟨fun r => if r = .rcx then c.rip else if r = .r11 then c.rflags else if calleeSaved r then c.gpr r else s.gpr r,
        c.rip, 0x23, (c.rflags &&& 0x3C7FD7) ||| 2, c.rsp, 0x1B⟩ := by
  obtain ⟨hrsp, hmem, hkeep, hpop⟩ := exec_pop ([.r15, .r14, .r13, .r12, .rbp, .rbx, .rcx, .r11] : List Reg) (by decide) s
  have hcode : exitCode = ([.r15, .r14, .r13, .r12, .rbp, .rbx, .rcx, .r11] : List Reg).map .pop := rfl
  rw [← hcode] at hrsp hmem hkeep hpop
  have hreg : ∀ j r v, ([.r15, .r14, .r13, .r12, .rbp, .rbx, .rcx, .r11] : List Reg)[j]? = some r →
      c.callFrame[j]? = some v → (exec exitCode s).gpr r = v := fun j r v hj hv => (hpop j r hj).trans (h j v hv)
  have hrcx := hreg 6 .rcx _ rfl rfl
  have hr11 := hreg 7 .r11 _ rfl rfl
  have htop : (exec exitCode s).mem (exec exitCode s).rsp = c.rsp := by
    rw [hmem, hrsp]
    exact h 8 _ rfl
  unfold sysretq
  rw [hrcx, hr11, htop]
  congr 1
  funext r
  cases r with
  | rcx => exact hrcx
  | r11 => exact hr11
  | r15 => exact hreg 0 .r15 _ rfl rfl
  | r14 => exact hreg 1 .r14 _ rfl rfl
  | r13 => exact hreg 2 .r13 _ rfl rfl
  | r12 => exact hreg 3 .r12 _ rfl rfl
  | rbp => exact hreg 4 .rbp _ rfl rfl
  | rbx => exact hreg 5 .rbx _ rfl rfl
  | rax => exact hkeep .rax (by decide)
  | rdx => exact hkeep .rdx (by decide)
  | rsi => exact hkeep .rsi (by decide)
  | rdi => exact hkeep .rdi (by decide)
  | r8 => exact hkeep .r8 (by decide)
  | r9 => exact hkeep .r9 (by decide)
  | r10 => exact hkeep .r10 (by decide)

end

/-! ## A call -/

/-- what `syscall_entry` leaves in the registers that a C function may change: rcx and r11 are those of `sysretq` -/
def Cpu.clobbered (cpu : Cpu) (c : Clobber) : Reg → ℕ :=
  fun r => if r = .rcx then cpu.rip else if r = .r11 then cpu.rflags else c.gpr r

/-- **A system call.** For any program state, kernel state and behaviour of the handler within the C calling convention:
the handler is called on the one stack page of all calls, with the number and the five arguments in order. If it returns,
the program goes on at its rip with its stack pointer, its flags as `sysretq` loads them, ring 3 segments, the result in
rax, and rbx, rbp, r12 to r15 as they were, and the next call finds the stack page if the handler left the static alone. If
it does not return, neither does the call. -/
theorem syscall_asm (e : EntryStatics) (m : Machine) (c : Clobber) (regs : Context) (hk : m.stack e.kernelRsp = e.top) :
    Enters e m (callState e m) ∧
      (∀ result k, syscallHandler m.k (m.cpu.gpr .rax) (m.cpu.gpr .rdi) (m.cpu.gpr .rsi) (m.cpu.gpr .rdx) regs =
        .returns result k →
      ∃ stack, syscallEntry e m c regs = some ⟨⟨returnRegs m.cpu.gpr result (m.cpu.clobbered c), m.cpu.rip, 0x23,
        (m.cpu.rflags &&& 0x3C7FD7) ||| 2, m.cpu.rsp, 0x1B⟩, stack, k⟩ ∧
          (c.stack e.kernelRsp = e.top → stack e.kernelRsp = e.top)) ∧
      ((∀ result k, syscallHandler m.k (m.cpu.gpr .rax) (m.cpu.gpr .rdi) (m.cpu.gpr .rsi) (m.cpu.gpr .rdx) regs ≠
        .returns result k) → syscallEntry e m c regs = none) := by
  have henter := entry_spec hk
  refine ⟨henter, ?_⟩
  unfold syscallEntry
  generalize callState e m = h at henter
  dsimp only
  rw [henter.nr, henter.arg1, henter.arg2, henter.arg3]
  constructor
  · intro result k hcall
    rw [hcall]
    have hroom := e.room
    have hrsp := henter.rsp
    have hframe : ∀ j v, m.cpu.callFrame[j]? = some v →
        (afterHandler e c h result).mem ((afterHandler e c h result).rsp + 8 * j) = v := by
      intro j v hj
      have hlt : j < 9 := (List.getElem?_eq_some_iff.1 hj).1
      have hin : h.rsp ≤ h.rsp + 8 * j ∧ h.rsp + 8 * j < e.top := by omega
      show (if h.rsp ≤ h.rsp + 8 * j ∧ h.rsp + 8 * j < e.top then h.mem (h.rsp + 8 * j) else _) = v
      rw [if_pos hin, hrsp]
      exact henter.frame j v hj
    refine ⟨(exec exitCode (afterHandler e c h result)).mem, ?_, fun hstatic => ?_⟩
    · dsimp only
      rw [exit_spec hframe]
      congr 3
      funext r
      cases r <;> rfl
    · have hout : ¬ (h.rsp ≤ e.kernelRsp ∧ e.kernelRsp < e.top) := by
        have := e.high
        omega
      show (if h.rsp ≤ e.kernelRsp ∧ e.kernelRsp < e.top then _ else c.stack e.kernelRsp) = _
      rw [if_neg hout, hstatic]
  · intro hno
    cases hcall : syscallHandler m.k (m.cpu.gpr .rax) (m.cpu.gpr .rdi) (m.cpu.gpr .rsi) (m.cpu.gpr .rdx) regs with
    | returns result k => exact absurd hcall (hno result k)
    | exits k => rfl
    | switches k => rfl
    | panics p => rfl

/-- statics in the image, a stack page at 3 MB -/
def demoStatics : EntryStatics where
  userRspTmp := kernelVirt + 0x1000
  kernelRsp := kernelVirt + 0x1008
  top := 0x301000
  apart := by decide
  high := by decide
  room := by decide

/-- a program that makes call number 7, which does not exist, with five different arguments -/
def demoCaller : Machine where
  cpu :=
    { gpr := fun
        | .rax => 7
        | .rdi => 11
        | .rsi => 12
        | .rdx => 13
        | .r10 => 14
        | .r8 => 15
        | _ => 9
      rip := 0x400002, cs := 0x23, rflags := 0x10202, rsp := 0x10000003FC0, ss := 0x1B }
  stack := fun a => if a = kernelVirt + 0x1008 then 0x301000 else 0
  k := demoKernel

/-- the fifth argument is found, the resume flag is dropped, and the same stack page serves the next call -/
theorem syscall_asm_demo :
    (callState demoStatics demoCaller).rsp = 0x300FB8 ∧ (callState demoStatics demoCaller).gpr .r9 = 15 ∧
    ∃ stack, syscallEntry demoStatics demoCaller ⟨fun _ => 3, demoCaller.stack⟩
        ⟨0, 0, 0, 0, 0, 0, 0, 0, 0, 0, 0, 0, 0, 0, 0, 0, 0, 0, 0, 0, 0, 0⟩ =
      some ⟨⟨returnRegs demoCaller.cpu.gpr (2 ^ 64 - 38) (demoCaller.cpu.clobbered ⟨fun _ => 3, demoCaller.stack⟩),
        0x400002, 0x23, 0x202, 0x10000003FC0, 0x1B⟩, stack, demoKernel⟩ ∧ stack demoStatics.kernelRsp = 0x301000 := by
  obtain ⟨henter, hreturn, -⟩ := syscall_asm demoStatics demoCaller ⟨fun _ => 3, demoCaller.stack⟩
    ⟨0, 0, 0, 0, 0, 0, 0, 0, 0, 0, 0, 0, 0, 0, 0, 0, 0, 0, 0, 0, 0, 0⟩ (by decide)
  obtain ⟨stack, hcall, hnext⟩ := hreturn _ _ rfl
  exact ⟨henter.rsp, henter.arg5, stack, hcall, hnext (by decide)⟩

end Tomorrow
