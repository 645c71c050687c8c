/-
The programs that `spawn` starts (`process_f`, `process_w`, `process_x`, `process_r` in `main.rs`), as clients of the kernel.

A program is its assembly code over the registers of a thread. Its moves on registers are its own; a system call runs
`syscall_handler` on the kernel state and comes back with the registers that `syscall_entry` gives back
(`Kernel.SyscallAsm`); stores, calls and returns work on the user memory that all processes share. Where the assembler
placed the items of a program is a parameter (`place`).

Others are arbitrary events of the kernel (`step`): calls and stores of other processes, shell commands, ticks, allocations.
`Spares` is what a program has to rely on, as the kernel does not give it: all processes share one page table, so nothing
but their good will keeps other programs from writing its pages, and `kill` may remove it. What an event may do to a
descriptor table is a result here (`Owns.spared`).

The output of a program is kept beside the kernel state, as the console only shows it; `stdoutOf_screen` says that it is
what the console is given. The call lemmas (`call_open`, `call_read`, `call_write`, `call_print`, `call_close`,
`call_exit`) say what a program finds after each call, in terms of its own process only.
-/
import Tomorrow.Core.Interleave
import Tomorrow.Core.Intrusive
import Tomorrow.Core.UserAsm
import Tomorrow.Kernel.Grants
import Tomorrow.Kernel.Lifecycle
import Tomorrow.Kernel.Reads
import Tomorrow.Kernel.SyscallAsm
import Tomorrow.Kernel.UserMappings
import Tomorrow.Kernel.Writes

namespace Tomorrow

open Tomorrow.Core Files Sched Shell Vmm

/-! ## Programs -/

def processF : Code Reg :=
  [.mov .rax 2, .lea .rdi 28, .mov .rsi 9, .xor .rdx, .syscall, .movReg .r12 .rax, .subRsp 64,
    -- 7, label 3
    .mov .rax 0, .movReg .rdi .r12, .movRsp .rsi, .mov .rdx 16, .syscall, .test .rax, .jz 21, .js 21,
    -- 15
    .movReg .rdx .rax, .mov .rax 1, .mov .rdi 1, .movRsp .rsi, .syscall, .jmp 7,
    -- 21, label 4
    .mov .rax 3, .movReg .rdi .r12, .syscall, .mov .rax 60, .xor .rdi, .syscall, .jmp 27,
    -- 28, label 1
    .data (str "hello.txt")]

def processW : Code Reg :=
  [.mov .rax 2, .lea .rdi 23, .mov .rsi 9, .mov .rdx 1, .syscall, .movReg .r12 .rax,
    .mov .rax 1, .movReg .rdi .r12, .lea .rsi 24, .mov .rdx 3, .syscall,
    -- 11
    .mov .rax 1, .movReg .rdi .r12, .lea .rsi 25, .mov .rdx 20, .syscall,
    -- 16
    .mov .rax 3, .movReg .rdi .r12, .syscall, .mov .rax 60, .xor .rdi, .syscall, .jmp 22,
    -- 23, labels 1, 2 and 5
    .data (str "hello.txt"), .data (str "XYZ"), .data (str "0123456789abcdefghij")]

def processR : Code Reg :=
  [.mov .rax 2, .lea .rdi 51, .mov .rsi 9, .xor .rdx, .syscall, .test .rax, .js 47, .movReg .r12 .rax,
    .mov .rax 1, .mov .rdi 1, .lea .rsi 52, .mov .rdx 14, .syscall,
    -- 13, label 3
    .mov .rax 2, .lea .rdi 51, .mov .rsi 9, .xor .rdx, .syscall, .test .rax, .js 24,
    .movReg .rdi .rax, .mov .rax 3, .syscall, .jmp 13,
    -- 24, label 5
    .mov .rax 1, .mov .rdi 1, .lea .rsi 53, .mov .rdx 18, .syscall, .subRsp 64,
    -- 30, label 7
    .mov .rax 0, .movReg .rdi .r12, .movRsp .rsi, .mov .rdx 16, .syscall, .test .rax, .jz 44, .js 44,
    .movReg .rdx .rax, .mov .rax 1, .mov .rdi 1, .movRsp .rsi, .syscall, .jmp 30,
    -- 44, label 8
    .mov .rax 3, .movReg .rdi .r12, .syscall,
    -- 47, label 4
    .mov .rax 60, .xor .rdi, .syscall, .jmp 50,
    -- 51, labels 1, 2 and 6
    .data (str "hello.txt"), .data (str "opened, rm me\n"), .data (str "deleted, reading:\n")]

def processX : Code Reg :=
  [.mov .rax 2, .lea .rdi 81, .mov .rsi 9, .mov .rdx 1, .syscall, .lea .r13 84, .call 38,
    -- 7
    .mov .rax 2, .lea .rdi 81, .mov .rsi 9, .xor .rdx, .syscall, .movReg .r12 .rax, .test .rax, .js 21,
    .mov .rax 1, .movReg .rdi .r12, .lea .rsi 83, .mov .rdx 3, .syscall, .jmp 22,
    -- 21, labels 5 and 6
    .xor .rax, .lea .r13 85, .call 38,
    -- 24
    .mov .rax 3, .movReg .rdi .r12, .syscall,
    .mov .rax 2, .lea .rdi 82, .mov .rsi 10, .xor .rdx, .syscall, .lea .r13 86, .call 38,
    -- 34
    .mov .rax 60, .xor .rdi, .syscall, .jmp 37,
    -- 38, label 9: report
    .movReg .r14 .rax, .mov .rax 1, .mov .rdi 1, .movReg .rsi .r13, .mov .rdx 3, .syscall,
    -- 44
    .test .r14, .js 49, .lea .rsi 88, .mov .rdx 5, .jmp 51,
    -- 49, labels 7 and 8
    .lea .rsi 87, .mov .rdx 3, .mov .rax 1, .mov .rdi 1, .syscall,
    -- 54
    .subRsp 32, .leaRsp .rsi 32, .dec .rsi, .storeByte .rsi 10,
    -- 58
    .movReg .rax .r14, .test .rax, .jns 62, .neg .rax,
    -- 62, labels 15 and 16
    .mov .rcx 10, .xor .rdx, .div .rax .rdx .rcx, .addLow .rdx 48, .dec .rsi, .storeLow .rsi .rdx,
    -- 68
    .test .rax, .jnz 63, .test .r14, .jns 74, .dec .rsi, .storeByte .rsi 45,
    -- 74, label 17
    .leaRsp .rdx 32, .sub .rdx .rsi, .mov .rax 1, .mov .rdi 1, .syscall, .addRsp 32, .ret,
    -- 81, labels 1, 2, 3, 11, 12, 13, 20 and 21
    .data (str "hello.txt"), .data (str "readme.txt"), .data (str "XYZ"), .data (str "x1 "), .data (str "x2 "),
    .data (str "x3 "), .data (str "ok "), .data (str "FAIL ")]

/-! ## A program on the kernel -/

/-- the state that a program shares with others, and what it has printed -/
structure Sys where
  kernel : Kernel
  out : Bytes

/-- what a call leaves open: the registers that it may change, and those inside `yield_now` -/
structure Choice where
  others : Reg → ℕ
  regs : Context

deriving instance Inhabited for Context

deriving instance Inhabited for Choice

/-- the bytes that a call hands to the console -/
def stdoutOf (k : Kernel) (nr fd buf len : ℕ) : Bytes :=
  match k.currentProcess with
  | some p =>
    if nr = sysWriteNr ∧ syscallAllowed k nr = true ∧ fd < p.fds.length ∧ userRangeOk p buf len = true ∧ (fd = 1 ∨ fd = 2) then
      k.userBytes buf len
    else []
  | none => []

/-- a system call; after `exit` the thread stands behind its program. No program here yields. -/
def callKernel (code : Code Reg) (c : Choice) (t : Thread Reg) (s : Sys) : Option (Thread Reg × Sys) :=
  match syscallHandler s.kernel (t.gpr .rax) (t.gpr .rdi) (t.gpr .rsi) (t.gpr .rdx) c.regs with
  | .returns v k =>
    some ({ t with gpr := returnRegs t.gpr v c.others, pc := t.pc + 1 },
      ⟨k, s.out ++ stdoutOf s.kernel (t.gpr .rax) (t.gpr .rdi) (t.gpr .rsi) (t.gpr .rdx)⟩)
  | .exits k => some (t.goto code.length, ⟨k, s.out⟩)
  | .switches _ => none
  | .panics _ => none

def Sys.setMem (s : Sys) (m : ℕ → UInt8) : Sys := { s with kernel := { s.kernel with umem := m } }

/-- an item that needs memory or the kernel -/
def userAct (code : Code Reg) (place : ℕ → ℕ) (c : Choice) (t : Thread Reg) (s : Sys) : Option (Thread Reg × Sys) :=
  match code[t.pc]? with
  | some .syscall => callKernel code c t s
  | some (.storeByte base v) => some (t.skip, s.setMem (Function.update s.kernel.umem (t.gpr base) v))
  | some (.storeLow base r) => some (t.skip, s.setMem (Function.update s.kernel.umem (t.gpr base) (UInt8.ofNat (t.gpr r))))
  | some (.call pos) =>
    some ({ t with rsp := wsub t.rsp 8, pc := pos }, s.setMem (storeWord s.kernel.umem (wsub t.rsp 8) (place (t.pc + 1))))
  | some .ret =>
    ((List.range code.length).find? fun j => place j = loadWord s.kernel.umem t.rsp).map fun j =>
      ({ t with rsp := wadd t.rsp 8, pc := j }, s)
  | _ => none

/-- the program as the process in slot i -/
def program (code : Code Reg) (place : ℕ → ℕ) (i : Fin 64) : Client (Thread Reg) Sys Choice where
  next := Thread.next code place
  act := userAct code place
  turn := fun s => s.kernel.sched.current = i
  done := fun t => code.length ≤ t.pc
  next_done := fun t h => by rw [Thread.next, List.getElem?_eq_none h]; rfl
  act_done := fun t h c s => by rw [userAct, List.getElem?_eq_none h]

section

variable {code : Code Reg} {place : ℕ → ℕ} {i : Fin 64} {c : Choice} {t : Thread Reg} {s : Sys} {k k' : Kernel}

theorem alone_succ (place : ℕ → ℕ) (i : Fin 64) {u : Thread Reg} {item : Item Reg} (h : code[t.pc]? = some item)
    (hm : t.move place item = some u) (m : ℕ) :
    (program code place i).alone (m + 1) t = (program code place i).alone m u := by
  have hnext : (program code place i).next t = some u := by
    show Thread.next code place t = some u
    rw [Thread.next, h]
    exact hm
  rw [Client.alone, hnext]
  rfl

/-- `test rax, rax; jz pos; js pos` at a program counter -/
structure Tests (code : Code Reg) (pc pos : ℕ) : Prop where
  test : code[pc]? = some (.test .rax)
  jz : code[pc + 1]? = some (.jz pos)
  js : code[pc + 2]? = some (.js pos)

section Tests

variable (place : ℕ → ℕ) (i : Fin 64) {gpr : Reg → ℕ} (rsp last : ℕ) {pc pos : ℕ} (ht : Tests code pc pos)

include ht

/-- the test of a result: zero -/
theorem test_zero (h : gpr .rax = 0) :
    (program code place i).alone 2 ⟨gpr, rsp, pc, last⟩ = some ⟨gpr, rsp, pos, gpr .rax⟩ := by
  have htest := alone_succ place i (t := ⟨gpr, rsp, pc, last⟩) ht.test rfl 1
  exact htest.trans (alone_succ place i (t := ⟨gpr, rsp, pc + 1, gpr .rax⟩) ht.jz (Thread.move_jz h) 0)

theorem test_not_zero (h : gpr .rax ≠ 0) (m : ℕ) : (program code place i).alone (m + 2) ⟨gpr, rsp, pc, last⟩ =
    (program code place i).alone m ⟨gpr, rsp, pc + 2, gpr .rax⟩ := by
  have htest := alone_succ place i (t := ⟨gpr, rsp, pc, last⟩) ht.test rfl (m + 1)
  exact htest.trans (alone_succ place i (t := ⟨gpr, rsp, pc + 1, gpr .rax⟩) ht.jz (Thread.move_jz_not h) m)

/-- the test of a result: an error -/
theorem test_error (h : 2 ^ 63 ≤ gpr .rax) :
    (program code place i).alone 3 ⟨gpr, rsp, pc, last⟩ = some ⟨gpr, rsp, pos, gpr .rax⟩ := by
  have h0 : gpr .rax ≠ 0 := by omega
  exact (test_not_zero place i rsp last ht h0 1).trans
    (alone_succ place i (t := ⟨gpr, rsp, pc + 2, gpr .rax⟩) ht.js (Thread.move_js h) 0)

/-- the test of a result: a positive number -/
theorem test_positive (h0 : gpr .rax ≠ 0) (h : gpr .rax < 2 ^ 63) :
    (program code place i).alone 3 ⟨gpr, rsp, pc, last⟩ = some ⟨gpr, rsp, pc + 3, gpr .rax⟩ :=
  (test_not_zero place i rsp last ht h0 1).trans
    (alone_succ place i (t := ⟨gpr, rsp, pc + 2, gpr .rax⟩) ht.js (Thread.move_js_not h) 0)

end Tests

/-- `test rax, rax; js pos` at a program counter -/
structure SignTest (code : Code Reg) (pc pos : ℕ) : Prop where
  test : code[pc]? = some (.test .rax)
  js : code[pc + 1]? = some (.js pos)

section SignTest

variable (place : ℕ → ℕ) (i : Fin 64) {gpr : Reg → ℕ} (rsp last : ℕ) {pc pos : ℕ} (ht : SignTest code pc pos)

include ht

theorem sign_error (h : 2 ^ 63 ≤ gpr .rax) :
    (program code place i).alone 2 ⟨gpr, rsp, pc, last⟩ = some ⟨gpr, rsp, pos, gpr .rax⟩ :=
  (alone_succ place i (t := ⟨gpr, rsp, pc, last⟩) ht.test rfl 1).trans
    (alone_succ place i (t := ⟨gpr, rsp, pc + 1, gpr .rax⟩) ht.js (Thread.move_js h) 0)

theorem sign_ok (h : gpr .rax < 2 ^ 63) :
    (program code place i).alone 2 ⟨gpr, rsp, pc, last⟩ = some ⟨gpr, rsp, pc + 2, gpr .rax⟩ :=
  (alone_succ place i (t := ⟨gpr, rsp, pc, last⟩) ht.test rfl 1).trans
    (alone_succ place i (t := ⟨gpr, rsp, pc + 1, gpr .rax⟩) ht.js (Thread.move_js_not h) 0)

end SignTest

/-- a block ends at an item that is not a move -/
theorem block_of {A : ℤ → Thread Reg → Sys → Prop} {n : ℤ} {t₀ : Thread Reg} {m : ℕ} {item : Item Reg}
    (halone : (program code place i).alone m t₀ = some t) (hitem : code[t.pc]? = some item) (hmove : t.move place item = none)
    (hact : ∀ s, A n t₀ s → s.kernel.sched.current = i → ∀ c, ∃ t' s' n',
      (program code place i).act c t s = some (t', s') ∧ A n' t' s' ∧ n' + m + 1 ≤ n) :
    (program code place i).Block A n t₀ := by
  refine ⟨m, t, halone, ?_, Nat.not_le_of_lt (List.getElem?_eq_some_iff.1 hitem).1, hact⟩
  show Thread.next code place t = none
  rw [Thread.next, hitem]
  exact hmove

/-- the registers of a call at the program counter -/
structure Calls (code : Code Reg) (t : Thread Reg) (nr a1 a2 a3 : ℕ) : Prop where
  item : code[t.pc]? = some .syscall
  rax : t.gpr .rax = nr
  rdi : t.gpr .rdi = a1
  rsi : t.gpr .rsi = a2
  rdx : t.gpr .rdx = a3

theorem act_returns {nr a1 a2 a3 v : ℕ} (ht : Calls code t nr a1 a2 a3)
    (h : syscallHandler s.kernel nr a1 a2 a3 c.regs = .returns v k) :
    (program code place i).act c t s = some ({ t with gpr := returnRegs t.gpr v c.others, pc := t.pc + 1 },
      ⟨k, s.out ++ stdoutOf s.kernel nr a1 a2 a3⟩) := by
  simp only [program, userAct, ht.item, callKernel, ht.rax, ht.rdi, ht.rsi, ht.rdx, h]

theorem act_exits {nr a1 a2 a3 : ℕ} (ht : Calls code t nr a1 a2 a3)
    (h : syscallHandler s.kernel nr a1 a2 a3 c.regs = .exits k) :
    (program code place i).act c t s = some (t.goto code.length, ⟨k, s.out⟩) := by
  simp only [program, userAct, ht.item, callKernel, ht.rax, ht.rdi, ht.rsi, ht.rdx, h]

theorem act_storeByte {base : Reg} {v : UInt8} (h : code[t.pc]? = some (.storeByte base v)) :
    (program code place i).act c t s = some (t.skip, s.setMem (Function.update s.kernel.umem (t.gpr base) v)) := by
  simp only [program, userAct, h]

theorem act_storeLow {base r : Reg} (h : code[t.pc]? = some (.storeLow base r)) :
    (program code place i).act c t s =
      some (t.skip, s.setMem (Function.update s.kernel.umem (t.gpr base) (UInt8.ofNat (t.gpr r)))) := by
  simp only [program, userAct, h]

theorem act_call {pos : ℕ} (h : code[t.pc]? = some (.call pos)) :
    (program code place i).act c t s = some ({ t with rsp := wsub t.rsp 8, pc := pos },
      s.setMem (storeWord s.kernel.umem (wsub t.rsp 8) (place (t.pc + 1)))) := by
  simp only [program, userAct, h]

/-- a return to the item whose address is on the stack -/
theorem act_ret {back : ℕ} (h : code[t.pc]? = some .ret) (hback : back < code.length)
    (hplace : ∀ j < back, place j < place back) (hword : loadWord s.kernel.umem t.rsp = place back) :
    (program code place i).act c t s = some ({ t with rsp := wadd t.rsp 8, pc := back }, s) := by
  have hfind : ((List.range code.length).find? fun j => place j = loadWord s.kernel.umem t.rsp) = some back := by
    rw [List.find?_range_eq_some]
    refine ⟨decide_eq_true hword.symm, List.mem_range.2 hback, fun j hj => ?_⟩
    have := hplace j hj
    simp only [hword, Bool.not_eq_true', decide_eq_false_iff_not]
    omega
  simp only [program, userAct, h, hfind, Option.map_some]

/-- a block that ends in a call -/
theorem block_call {A : ℤ → Thread Reg → Sys → Prop} {n : ℤ} {t₀ : Thread Reg} {m nr a1 a2 a3 : ℕ}
    (halone : (program code place i).alone m t₀ = some t) (ht : Calls code t nr a1 a2 a3)
    (hact : ∀ s, A n t₀ s → s.kernel.sched.current = i → ∀ c, ∃ t' s' n',
      (program code place i).act c t s = some (t', s') ∧ A n' t' s' ∧ n' + m + 1 ≤ n) :
    (program code place i).Block A n t₀ := block_of halone ht.item rfl hact

theorem stdoutOf_of_ne {nr : ℕ} (hnr : nr ≠ 1) (fd buf len : ℕ) : stdoutOf k nr fd buf len = [] := by
  unfold stdoutOf
  split
  · exact if_neg fun h => hnr h.1
  · rfl

/-- **Output.** What a call adds to the output is what the console is given; if it is given nothing, that is nothing. -/
theorem stdoutOf_screen {nr fd buf len v : ℕ} {regs : Context} (h : syscallHandler k nr fd buf len regs = .returns v k') :
    k'.screen = k.screen.programOutput (stdoutOf k nr fd buf len) ∨
      k'.screen = k.screen ∧ stdoutOf k nr fd buf len = [] := by
  by_cases hnr : nr = sysWriteNr
  · subst hnr
    rw [syscallHandler_write] at h
    by_cases hallowed : syscallAllowed k sysWriteNr = false
    · rw [if_pos hallowed] at h
      cases h
      refine Or.inr ⟨rfl, ?_⟩
      unfold stdoutOf
      split
      · exact if_neg fun hc => by rw [hallowed] at hc; cases hc.2.1
      · rfl
    · rw [if_neg hallowed] at h
      unfold sysWrite at h
      unfold stdoutOf
      cases hp : k.currentProcess with
      | none =>
        rw [hp] at h
        cases h
        exact Or.inr ⟨rfl, rfl⟩
      | some p =>
        rw [hp] at h
        dsimp only at h ⊢
        split_ifs at h with hlen hrange hstd
        · cases h
          exact Or.inr ⟨rfl, if_neg fun hc => Nat.not_lt_of_le hlen hc.2.2.1⟩
        · cases h
          exact Or.inr ⟨rfl, if_neg fun hc => by rw [hc.2.2.2.1] at hrange; cases hrange⟩
        · cases h
          rw [if_pos ⟨rfl, Bool.eq_true_of_not_eq_false hallowed, Nat.lt_of_not_le hlen,
            Bool.eq_true_of_not_eq_false hrange, hstd⟩]
          exact Or.inl rfl
        · refine Or.inr ⟨?_, if_neg fun hc => hstd hc.2.2.2.2⟩
          cases hf : p.fds.getD fd none with
          | none =>
            rw [hf] at h
            cases h
            rfl
          | some f =>
            rw [hf] at h
            dsimp only at h
            split_ifs at h with hperm
            · cases h
              rfl
            · cases hw : writeAt (k.fs.data f.inode) f.offset (k.userBytes buf len) with
              | none =>
                rw [hw] at h
                cases h
                rfl
              | some r =>
                rw [hw] at h
                cases h
                rfl
  · refine Or.inr ⟨?_, stdoutOf_of_ne hnr fd buf len⟩
    have heff := syscall_effect k fd buf len regs nr
    rw [h] at heff
    generalize hout : Outcome.returns v k' = o at heff
    cases heff with
    | stdout p hp hrange => exact absurd rfl hnr
    | write p f data stop hp hrange hfd hperm hw => exact absurd rfl hnr
    | error nr e he he' => cases hout; rfl
    | opened p need inode fd' fds hp => cases hout; rfl
    | read p f hp hrange hfd hperm => cases hout; rfl
    | closed p f hp hfd => cases hout; rfl
    | exited p hp => cases hout
    | stayed => cases hout; rfl
    | switched p q j hp => cases hout

end

/-! ## Others -/

/-- an event made by a process -/
def Op.byProcess : Op → Bool
  | .syscall _ _ _ _ _ => true
  | .store _ _ => true
  | _ => false

/-- the event is not one of the process in slot i, leaves it in the table, and does not write its pages -/
structure Spares (i : Fin 64) (k : Kernel) (o : Op) (k' : Kernel) : Prop where
  notOwn : k.sched.current = i → o.byProcess = false
  stays : k'.sched.processes i ≠ none
  pages : ∀ p, k.sched.processes i = some p → ∀ r ∈ p.userRegions, ∀ a, r.1 ≤ a → a < r.2 → k'.umem a = k.umem a

/-- an event of others that spares the process and keeps something of the kernel state -/
def Others (b : Boot) (i : Fin 64) (keeps : Kernel → Kernel → Prop) (s s' : Sys) : Prop :=
  s'.out = s.out ∧ ∃ o, step b s.kernel o = .ok s'.kernel ∧ Spares i s.kernel o s'.kernel ∧ keeps s.kernel s'.kernel

/-- slot i holds the process p, up to its state and saved context -/
def Owns (i : Fin 64) (p : Process) (k : Kernel) : Prop := ∃ q, k.sched.processes i = some q ∧ SameFiles p q

section

variable {b : Boot} {i : Fin 64} {p : Process} {k k' : Kernel}

theorem SameFiles.trans {p q r : Process} (h : SameFiles p q) (h' : SameFiles q r) : SameFiles p r :=
  ⟨h'.pid.trans h.pid, h'.mask.trans h.mask, h'.regions.trans h.regions, h'.fds.trans h.fds, h'.grants.trans h.grants⟩

theorem Owns.of_sched (h : Owns i p k) (he : k'.sched = k.sched) : Owns i p k' := by
  obtain ⟨q, hq, hs⟩ := h
  exact ⟨q, he ▸ hq, hs⟩

theorem Owns.of_setFds (h : Owns i p k) (hi : k.sched.current ≠ i) {k₁ : Kernel} (he : k₁.sched = k.sched) {q : Process}
    {fds : List (Option OpenFile)} : Owns i p (k₁.setFds q fds) := by
  obtain ⟨r, hr, hs⟩ := h
  refine ⟨r, ?_, hs⟩
  rw [Kernel.setFds, he, Scheduler.put_of_ne _ _ (Ne.symm hi)]
  exact hr

/-- **What others cannot do.** No event that spares a process changes its descriptors, grants, regions or mask. -/
theorem Owns.spared {o : Op} (h : Owns i p k) (he : step b k o = .ok k') (hs : Spares i k o k') : Owns i p k' := by
  obtain ⟨q, hq, hpq⟩ := h
  have hself : Owns i p k := ⟨q, hq, hpq⟩
  have hcur : o.byProcess = true → k.sched.current ≠ i := by
    intro ho hi
    rw [hs.notOwn hi] at ho
    cases ho
  cases file_step he with
  | kept o k' hfs hk hu =>
    rcases hk i with hnone | ⟨r, r', hr, hr', hrr⟩
    · exact absurd hnone hs.stays
    · rw [hq] at hr
      cases hr
      exact ⟨r', hr', hpq.trans hrr⟩
  | spawned o k' j r n hfs hu hj hsched hr =>
    have hne : i ≠ j := by
      rintro rfl
      rw [hq] at hj
      cases hj
    refine ⟨q, ?_, hpq⟩
    rw [hsched]
    exact (Scheduler.put_of_ne _ _ hne).trans hq
  | shellWrite args k' hfs hsched hu ha => exact hself.of_sched hsched
  | shellCreate args k' hfs hsched hu => exact hself.of_sched hsched
  | shellRm args k' hfs hsched hu => exact hself.of_sched hsched
  | write a1 a2 a3 regs r f data stop hr hfd hperm hw => exact hself.of_setFds (hcur rfl) rfl
  | opened a1 a2 a3 regs r need inode fd fds hr hneed hgrant hlookup hinst hret => exact hself.of_setFds (hcur rfl) rfl
  | read a1 a2 a3 regs r f hr hfd hperm => exact hself.of_setFds (hcur rfl) rfl
  | closed a1 a2 a3 regs r f hr hfd => exact hself.of_setFds (hcur rfl) rfl

theorem userRangeOk_congr {q : Process} (h : q.userRegions = p.userRegions) (ptr len : ℕ) :
    userRangeOk q ptr len = userRangeOk p ptr len := by
  unfold userRangeOk
  rw [h]

/-- a range that the kernel accepts lies in one region -/
theorem userRangeOk_region {ptr len : ℕ} (h : userRangeOk p ptr len = true) :
    ∃ r ∈ p.userRegions, r.1 ≤ ptr ∧ ptr + len ≤ r.2 := by
  unfold userRangeOk checkedAdd at h
  split_ifs at h
  obtain ⟨r, hr, hb⟩ := List.any_eq_true.1 h
  rw [Bool.and_eq_true, decide_eq_true_eq, decide_eq_true_eq] at hb
  exact ⟨r, hr, hb⟩

theorem userBytes_congr {k k' : Kernel} {ptr len : ℕ} (h : ∀ a, ptr ≤ a → a < ptr + len → k'.umem a = k.umem a) :
    k'.userBytes ptr len = k.userBytes ptr len := by
  refine List.map_congr_left fun j hj => ?_
  rw [List.mem_range] at hj
  exact h (ptr + j) (by omega) (by omega)

/-- the memory of the process stays as it is while others run -/
theorem Owns.memory {o : Op} (h : Owns i p k) (hs : Spares i k o k') {ptr len : ℕ} (hr : userRangeOk p ptr len = true)
    (a : ℕ) (hlo : ptr ≤ a) (hhi : a < ptr + len) : k'.umem a = k.umem a := by
  obtain ⟨q, hq, hpq⟩ := h
  obtain ⟨r, hmem, hlo', hhi'⟩ := userRangeOk_region hr
  exact hs.pages q hq r (hpq.regions ▸ hmem) a (by omega) (by omega)

theorem Owns.bytes {o : Op} (h : Owns i p k) (hs : Spares i k o k') {ptr len : ℕ} (hr : userRangeOk p ptr len = true) :
    k'.userBytes ptr len = k.userBytes ptr len := userBytes_congr (h.memory hs hr)

end

/-! ## What `spawn` gives a program -/

/-- a new process with its two code pages, its stack page, no open files and the grants of its program -/
structure Spawned (prog : Program) (p : Process) : Prop where
  mask : p.syscallMask = syscallMask
  fds : p.fds = [none, none, none]
  grants : p.grants = prog.grants
  regions : HasRegions p
  userStack : p.userStack = stackVirt p.pid + 4096
  stackFits : stackVirt p.pid + 4096 < 2 ^ 64
  codeFits : codeVirt p.pid + codePages * pageSize < 2 ^ 64

/-- the ends of the stack and of the code are addresses -/
theorem processNew_fits {pml4 pid mask entry : ℕ} {ph ph' : Phys} {grants : List Grant} {p : Process}
    (h : processNew pml4 ph pid mask entry grants = .ok (p, ph')) :
    stackVirt pid + 4096 < 2 ^ 64 ∧ codeVirt pid + codePages * pageSize < 2 ^ 64 := by
  unfold processNew at h
  obtain ⟨stack, -, h⟩ := bind_ok.1 h
  obtain ⟨ustack, -, h⟩ := bind_ok.1 h
  obtain ⟨usv, husv, h⟩ := bind_ok.1 h
  obtain ⟨off, -, h⟩ := bind_ok.1 h
  obtain ⟨ucv, hucv, h⟩ := bind_ok.1 h
  obtain ⟨s₁, -, h⟩ := bind_ok.1 h
  obtain ⟨s₂, -, h⟩ := bind_ok.1 h
  obtain ⟨stackEnd, hstack, h⟩ := bind_ok.1 h
  obtain ⟨codeEnd, hcode, -⟩ := bind_ok.1 h
  rw [← userStackVirt_eq husv, ← userCodeVirt_eq hucv]
  exact ⟨(ckAdd_ok.1 hstack).1, (ckAdd_ok.1 hcode).1⟩

theorem processNew_spawned {pml4 pid entry : ℕ} {ph ph' : Phys} {prog : Program} {p : Process}
    (h : processNew pml4 ph pid syscallMask entry prog.grants = .ok (p, ph')) : Spawned prog p := by
  have hregions := processNew_regions h
  obtain ⟨hstack, hcode⟩ := processNew_fits h
  obtain ⟨stack, m₁, ustack, m₂, usv, off, ucv, s₁, -, -, husv, -, hucv, -, -, rfl⟩ := processNew_cases h
  refine ⟨rfl, rfl, rfl, hregions, ?_, hstack, hcode⟩
  show usv + 4096 = stackVirt pid + 4096
  rw [userStackVirt_eq husv]

section

variable {prog : Program} {p : Process} (h : Spawned prog p) {a len : ℕ}

include h

theorem Spawned.code_ok (hlo : codeVirt p.pid ≤ a) (hhi : a + len ≤ codeVirt p.pid + codePages * pageSize) :
    userRangeOk p a len = true := by
  have hfits := h.codeFits
  unfold userRangeOk checkedAdd
  rw [if_pos (by omega), h.regions]
  simp [hlo, hhi]

theorem Spawned.stack_ok (hlo : stackVirt p.pid ≤ a) (hhi : a + len ≤ p.userStack) : userRangeOk p a len = true := by
  have hfits := h.stackFits
  have htop := h.userStack
  unfold userRangeOk checkedAdd
  rw [if_pos (by omega), h.regions]
  simp [hlo, pageSize, show a + len ≤ stackVirt p.pid + 4096 by omega]

/-- the stack ends below the code -/
theorem Spawned.stack_below (hlo : codeVirt p.pid ≤ a) : p.userStack ≤ a := by
  have htop := h.userStack
  unfold stackVirt codeVirt codePages pageSize at *
  omega

end

/-! ## Calls -/

section Calls

variable {i : Fin 64} {p : Process} {k : Kernel} (ho : Owns i p k) (hc : k.sched.current = i)
  (hm : p.syscallMask = syscallMask) (regs : Context)

include hc

/-- the process is still in its slot with the new descriptors -/
theorem Owns.setFds {q : Process} (hs : SameFiles p q) (k₁ : Kernel) (he : k₁.sched = k.sched)
    (fds : List (Option OpenFile)) : Owns i { p with fds := fds } (k₁.setFds q fds) := by
  refine ⟨{ q with fds := fds }, ?_, ⟨hs.pid, hs.mask, hs.regions, rfl, hs.grants⟩⟩
  show (k₁.sched.put k₁.sched.current (some { q with fds := fds })).processes i = _
  rw [he, hc, Scheduler.put_self]

include ho

/-- the process that makes the call is p -/
theorem Owns.current : ∃ q, k.currentProcess = some q ∧ SameFiles p q := by
  obtain ⟨q, hq, hs⟩ := ho
  exact ⟨q, by rw [Kernel.currentProcess, hc]; exact hq, hs⟩

include hm

theorem Owns.allowed {nr : ℕ} (hnr : nr < 64) (hbit : (syscallMask >>> nr) &&& 1 ≠ 0) : syscallAllowed k nr = true := by
  obtain ⟨q, hq, hs⟩ := ho.current hc
  simp only [syscallAllowed, hq, hs.mask, hm, Bool.and_eq_true, decide_eq_true_eq]
  exact ⟨hnr, hbit⟩

/-- open for reading or writing, of a file that exists and is granted -/
theorem call_open {path len flags inode fd : ℕ} {need : UInt8} {fds : List (Option OpenFile)}
    (hneed : neededPerms flags = some need) (hlen : 0 < len ∧ len ≤ maxPath) (hr : userRangeOk p path len = true)
    (hg : p.granted (k.userBytes path len) &&& need = need) (hl : k.fs.lookup (k.userBytes path len) = some inode)
    (hi : installFd p.fds ⟨need, inode, 0⟩ = some (fd, fds)) :
    ∃ k', syscallHandler k 2 path len flags regs = .returns fd k' ∧ Owns i { p with fds := fds } k' ∧ k'.umem = k.umem ∧
      k'.fs = k.fs := by
  obtain ⟨q, hq, hs⟩ := ho.current hc
  have hgrant : q.granted (k.userBytes path len) &&& need = need := by
    rw [Process.granted, hs.grants]
    exact hg
  have hcall : sysOpen k path len flags = (fd, k.setFds q fds) := by
    unfold sysOpen
    simp only [hq, hneed, if_neg (show ¬ len = 0 by omega), if_neg (Nat.not_lt_of_le hlen.2),
      userRangeOk_congr hs.regions, hr, Bool.true_eq_false, if_false, hl, hs.fds, hi]
    rw [if_neg (not_not.2 hgrant)]
  refine ⟨k.setFds q fds, ?_, Owns.setFds hc hs k rfl fds, rfl, rfl⟩
  have := syscallHandler_open k path len flags regs
  rw [ho.allowed hc hm (by decide) (by decide), if_neg (by decide), hcall] at this
  exact this

/-- a read through an open descriptor -/
theorem call_read {fd buf len : ℕ} {f : OpenFile} {bs : Bytes} (hf : p.fds[fd]? = some (some f))
    (hperm : f.perms &&& permRead ≠ 0) (hr : userRangeOk p buf len = true)
    (hbs : readAt (k.fs.data f.inode) f.offset len = bs) :
    ∃ k', syscallHandler k 0 fd buf len regs = .returns bs.length k' ∧
      Owns i { p with fds := p.fds.set fd (some { f with offset := f.offset + bs.length }) } k' ∧
      k'.umem = putBytes k.umem buf bs ∧ k'.fs = k.fs := by
  obtain ⟨q, hq, hs⟩ := ho.current hc
  have hcall := sysRead_eq hq (hs.fds ▸ hf) hperm ((userRangeOk_congr hs.regions buf len).trans hr)
  rw [hbs, hs.fds] at hcall
  refine ⟨Kernel.setFds { k with umem := putBytes k.umem buf bs } q _, ?_, Owns.setFds hc hs _ rfl _, rfl, rfl⟩
  have := syscallHandler_read k fd buf len regs
  rw [ho.allowed hc hm (by decide) (by decide), if_neg (by decide), hcall] at this
  exact this

/-- a write to the console -/
theorem call_print {buf len : ℕ} (h1 : 1 < p.fds.length) (hr : userRangeOk p buf len = true) :
    ∃ k', syscallHandler k 1 1 buf len regs = .returns len k' ∧ Owns i p k' ∧ k'.umem = k.umem ∧ k'.fs = k.fs ∧
      stdoutOf k 1 1 buf len = k.userBytes buf len := by
  obtain ⟨q, hq, hs⟩ := ho.current hc
  have hal := ho.allowed hc hm (show sysWriteNr < 64 by decide) (by decide)
  have hlt : ¬ q.fds.length ≤ 1 := by rw [hs.fds]; omega
  have hok : userRangeOk q buf len = true := (userRangeOk_congr hs.regions buf len).trans hr
  have hcall : sysWrite k 1 buf len = (len, { k with screen := k.screen.programOutput (k.userBytes buf len) }) := by
    unfold sysWrite
    simp only [hq, if_neg hlt, hok, Bool.true_eq_false, if_false]
    rfl
  refine ⟨{ k with screen := k.screen.programOutput (k.userBytes buf len) }, ?_, ho.of_sched rfl, rfl, rfl, ?_⟩
  · have := syscallHandler_write k 1 buf len regs
    rw [hal, if_neg (by decide), hcall] at this
    exact this
  · unfold stdoutOf
    rw [hq]
    exact if_pos ⟨rfl, hal, Nat.lt_of_not_le hlt, hok, Or.inl rfl⟩

/-- a write through an open descriptor, within the size limit -/
theorem call_write {fd buf len stop : ℕ} {f : OpenFile} {data : Bytes} (h3 : 3 ≤ fd) (hf : p.fds[fd]? = some (some f))
    (hperm : f.perms &&& permWrite ≠ 0) (hr : userRangeOk p buf len = true)
    (hw : writeAt (k.fs.data f.inode) f.offset (k.userBytes buf len) = some (data, stop)) :
    ∃ k', syscallHandler k 1 fd buf len regs = .returns len k' ∧
      Owns i { p with fds := p.fds.set fd (some { f with offset := stop }) } k' ∧ k'.umem = k.umem ∧
      k'.fs = (k.setData f.inode data).fs ∧ stdoutOf k 1 fd buf len = [] := by
  obtain ⟨q, hq, hs⟩ := ho.current hc
  have hcall := sysWrite_eq hq (hs.fds ▸ hf) h3 hperm ((userRangeOk_congr hs.regions buf len).trans hr)
  rw [hw, hs.fds] at hcall
  refine ⟨(k.setData f.inode data).setFds q _, ?_, Owns.setFds hc hs _ rfl _, rfl, rfl, ?_⟩
  · have := syscallHandler_write k fd buf len regs
    rw [ho.allowed hc hm (by decide) (by decide), if_neg (by decide), hcall] at this
    exact this
  · unfold stdoutOf
    rw [hq]
    exact if_neg (by omega)

/-- a descriptor behind the end of the table -/
theorem call_bad_fd {fd : ℕ} (hfd : p.fds.length ≤ fd) (buf len : ℕ) :
    syscallHandler k 0 fd buf len regs = .returns (err EBADF) k ∧
      syscallHandler k 3 fd buf len regs = .returns (err EBADF) k := by
  obtain ⟨q, hq, hs⟩ := ho.current hc
  have hread : sysRead k fd buf len = (err EBADF, k) := by simp only [sysRead, hq, hs.fds, if_pos hfd]
  have hclose : sysClose k fd = (err EBADF, k) := by simp only [sysClose, hq, hs.fds, if_pos hfd]
  have h0 := syscallHandler_read k fd buf len regs
  have h3 := syscallHandler_close k fd buf len regs
  rw [ho.allowed hc hm (by decide) (by decide), if_neg (by decide)] at h0 h3
  rw [hread] at h0
  rw [hclose] at h3
  exact ⟨h0, h3⟩

theorem call_write_bad_fd {fd : ℕ} (hfd : p.fds.length ≤ fd) (buf len : ℕ) :
    syscallHandler k 1 fd buf len regs = .returns (err EBADF) k ∧ stdoutOf k 1 fd buf len = [] := by
  obtain ⟨q, hq, hs⟩ := ho.current hc
  have hwrite : sysWrite k fd buf len = (err EBADF, k) := by simp only [sysWrite, hq, hs.fds, if_pos hfd]
  constructor
  · have := syscallHandler_write k fd buf len regs
    rw [ho.allowed hc hm (by decide) (by decide), if_neg (by decide), hwrite] at this
    exact this
  · unfold stdoutOf
    rw [hq]
    exact if_neg fun h => absurd h.2.2.1 (by rw [hs.fds]; omega)

/-- open of a name that is granted and does not exist -/
theorem call_open_missing {path len flags : ℕ} {need : UInt8} (hneed : neededPerms flags = some need)
    (hlen : 0 < len ∧ len ≤ maxPath) (hr : userRangeOk p path len = true)
    (hg : p.granted (k.userBytes path len) &&& need = need) (hl : k.fs.lookup (k.userBytes path len) = none) :
    syscallHandler k 2 path len flags regs = .returns (err ENOENT) k := by
  obtain ⟨q, hq, hs⟩ := ho.current hc
  have hgrant : q.granted (k.userBytes path len) &&& need = need := by
    rw [Process.granted, hs.grants]
    exact hg
  have hcall : sysOpen k path len flags = (err ENOENT, k) := by
    unfold sysOpen
    simp only [hq, hneed, if_neg (show ¬ len = 0 by omega), if_neg (Nat.not_lt_of_le hlen.2),
      userRangeOk_congr hs.regions, hr, Bool.true_eq_false, if_false, hl]
    rw [if_neg (not_not.2 hgrant)]
  have := syscallHandler_open k path len flags regs
  rw [ho.allowed hc hm (by decide) (by decide), if_neg (by decide), hcall] at this
  exact this

/-- open of a name without the grant for it, whether the file exists or not -/
theorem call_open_denied {path len flags : ℕ} {need : UInt8} (hneed : neededPerms flags = some need)
    (hlen : 0 < len ∧ len ≤ maxPath) (hr : userRangeOk p path len = true)
    (hg : p.granted (k.userBytes path len) &&& need ≠ need) :
    syscallHandler k 2 path len flags regs = .returns (err EACCES) k := by
  obtain ⟨q, hq, hs⟩ := ho.current hc
  have hgrant : q.granted (k.userBytes path len) &&& need ≠ need := by
    rw [Process.granted, hs.grants]
    exact hg
  have hcall : sysOpen k path len flags = (err EACCES, k) := by
    unfold sysOpen
    simp only [hq, hneed, if_neg (show ¬ len = 0 by omega), if_neg (Nat.not_lt_of_le hlen.2),
      userRangeOk_congr hs.regions, hr, Bool.true_eq_false, if_false]
    rw [if_pos hgrant]
  have := syscallHandler_open k path len flags regs
  rw [ho.allowed hc hm (by decide) (by decide), if_neg (by decide), hcall] at this
  exact this

/-- a write through a descriptor that was opened for reading -/
theorem call_write_denied {fd buf len : ℕ} {f : OpenFile} (h3 : 3 ≤ fd) (hf : p.fds[fd]? = some (some f))
    (hperm : f.perms &&& permWrite = 0) (hr : userRangeOk p buf len = true) :
    syscallHandler k 1 fd buf len regs = .returns (err EBADF) k ∧ stdoutOf k 1 fd buf len = [] := by
  obtain ⟨q, hq, hs⟩ := ho.current hc
  have hlt : ¬ p.fds.length ≤ fd := Nat.not_le_of_lt (List.getElem?_eq_some_iff.1 hf).1
  have hget : p.fds.getD fd none = some f := by rw [List.getD_eq_getElem?_getD, hf]; rfl
  have hwrite : sysWrite k fd buf len = (err EBADF, k) := by
    simp only [sysWrite, hq, hs.fds, if_neg hlt, userRangeOk_congr hs.regions, hr, hget, if_pos hperm, Bool.true_eq_false,
      if_false, if_neg (show ¬ (fd = 1 ∨ fd = 2) by omega)]
  constructor
  · have := syscallHandler_write k fd buf len regs
    rw [ho.allowed hc hm (by decide) (by decide), if_neg (by decide), hwrite] at this
    exact this
  · unfold stdoutOf
    rw [hq]
    exact if_neg (by omega)

theorem call_close {fd : ℕ} {f : OpenFile} (hf : p.fds[fd]? = some (some f)) (x y : ℕ) :
    ∃ k', syscallHandler k 3 fd x y regs = .returns 0 k' ∧ Owns i { p with fds := p.fds.set fd none } k' ∧
      k'.umem = k.umem ∧ k'.fs = k.fs := by
  obtain ⟨q, hq, hs⟩ := ho.current hc
  have hlt : ¬ p.fds.length ≤ fd := Nat.not_le_of_lt (List.getElem?_eq_some_iff.1 hf).1
  have hget : p.fds.getD fd none = some f := by rw [List.getD_eq_getElem?_getD, hf]; rfl
  have hcall : sysClose k fd = (0, k.setFds q (p.fds.set fd none)) := by
    simp only [sysClose, hq, hs.fds, if_neg hlt, hget, Option.isNone_some, Bool.false_eq_true, if_false]
  refine ⟨k.setFds q _, ?_, Owns.setFds hc hs k rfl _, rfl, rfl⟩
  have := syscallHandler_close k fd x y regs
  rw [ho.allowed hc hm (by decide) (by decide), if_neg (by decide), hcall] at this
  exact this

/-- `exit` does not come back; the descriptors stay with the dead process -/
theorem call_exit (x y z : ℕ) :
    ∃ k', syscallHandler k 60 x y z regs = .exits k' ∧ Owns i p k' ∧ k'.umem = k.umem ∧ k'.fs = k.fs := by
  obtain ⟨q, hq, hs⟩ := ho.current hc
  have hal := ho.allowed hc hm (show sysExitNr < 64 by decide) (by decide)
  have hcall : sysExit k = { k with sched := k.sched.put k.sched.current (some { q with state := .dead }) } := by
    simp only [sysExit, hq]
  refine ⟨{ k with sched := k.sched.put k.sched.current (some { q with state := .dead }) }, ?_,
    ⟨{ q with state := .dead }, ?_, ⟨hs.pid, hs.mask, hs.regions, hs.fds, hs.grants⟩⟩, rfl, rfl⟩
  · show (if syscallAllowed k sysExitNr = false then _ else Outcome.exits (sysExit k)) = _
    rw [hal, if_neg (by decide), hcall]
  · show (k.sched.put k.sched.current (some { q with state := .dead })).processes i = _
    rw [hc, Scheduler.put_self]

end Calls

/-! ## Points of a program -/

/-- the data of a program lies in the code pages of its process -/
def DataPlaced (code : Code Reg) (place : ℕ → ℕ) (p : Process) : Prop :=
  ∀ pos bs, code[pos]? = some (.data bs) →
    codeVirt p.pid ≤ place pos ∧ place pos + bs.length ≤ codeVirt p.pid + codePages * pageSize

/-- the data of a program is in memory -/
def DataLoaded (code : Code Reg) (place : ℕ → ℕ) (k : Kernel) : Prop :=
  ∀ pos bs, code[pos]? = some (.data bs) → k.userBytes (place pos) bs.length = bs

/-- a program in the process that `spawn` made for it -/
structure Setup (prog : Program) (code : Code Reg) (place : ℕ → ℕ) (p : Process) : Prop extends Spawned prog p where
  placed : DataPlaced code place p

/-- what is known where a call is over: the moves left, the stack pointer, the descriptors of the process, the output, the
data, and something of the files -/
structure Point (code : Code Reg) (place : ℕ → ℕ) (i : Fin 64) (p : Process) (files : Ramfs → Prop) (left : ℤ) (rsp : ℕ)
    (fds : List (Option OpenFile)) (out : Bytes) (n : ℤ) (t : Thread Reg) (s : Sys) : Prop where
  left : n = left
  rsp : t.rsp = rsp
  own : Owns i { p with fds := fds } s.kernel
  out : s.out = out
  loaded : DataLoaded code place s.kernel
  files : files s.kernel.fs

/-- the errors of `err` are negative -/
theorem err_negative {e : ℕ} (h1 : 1 ≤ e) (h2 : e ≤ 38) : 2 ^ 63 ≤ err e := by
  rw [err_eq h1 h2]
  omega

theorem quiet_out {out : Bytes} {nr : ℕ} (hnr : nr ≠ 1) (k : Kernel) (fd buf len : ℕ) {o : Bytes} (h : o = out) :
    o ++ stdoutOf k nr fd buf len = out := by
  rw [stdoutOf_of_ne hnr, List.append_nil, h]

section Points

variable {prog : Program} {code : Code Reg} {place : ℕ → ℕ} {i : Fin 64} {p : Process} {files : Ramfs → Prop} {left n : ℤ}
  {rsp : ℕ} {fds : List (Option OpenFile)} {out : Bytes} {t : Thread Reg} {s : Sys} (hset : Setup prog code place p)

include hset

theorem Setup.data_ok {pos : ℕ} {bs : Bytes} (hd : code[pos]? = some (.data bs)) : userRangeOk p (place pos) bs.length = true :=
  hset.code_ok (hset.placed pos bs hd).1 (hset.placed pos bs hd).2

theorem Setup.stack_room : 4096 ≤ p.userStack ∧ p.userStack < 2 ^ 64 := by
  have htop := hset.userStack
  have hfits := hset.stackFits
  omega

/-- the upper half of the stack page is the program's -/
theorem Setup.below_top (m : ℕ) {len len' : ℕ} (hle : len' ≤ len) (hm : len ≤ m ∧ m ≤ 4096) :
    userRangeOk p (p.userStack - m) len' = true := by
  have htop := hset.userStack
  exact hset.stack_ok (by omega) (by omega)

/-- an error number is no descriptor -/
theorem Setup.no_fd (e : ℕ) (h1 : 1 ≤ e) (h2 : e ≤ 38) : p.fds.length ≤ err e := by
  have := err_negative h1 h2
  have hlen : p.fds.length = 3 := by rw [hset.fds]; rfl
  omega

/-- others keep a point if they keep what it says of the files -/
theorem Point.others {b : Boot} {keeps : Kernel → Kernel → Prop} {s' : Sys}
    (h : Point code place i p files left rsp fds out n t s) (hkeeps : keeps s.kernel s'.kernel → files s'.kernel.fs)
    (he : Others b i keeps s s') : Point code place i p files left rsp fds out n t s' := by
  obtain ⟨hout, o, hstep, hspares, hkept⟩ := he
  refine ⟨h.left, h.rsp, h.own.spared hstep hspares, hout.trans h.out, fun pos bs hd => ?_, hkeeps hkept⟩
  rw [h.own.bytes hspares (hset.data_ok hd)]
  exact h.loaded pos bs hd

/-- the point behind a call that writes nothing above the stack -/
theorem Point.after {left' : ℤ} {rsp' : ℕ} {fds' : List (Option OpenFile)} {out' o : Bytes} {t' : Thread Reg} {k : Kernel}
    {files' : Ramfs → Prop} (h : Point code place i p files left rsp fds out n t s) (hrsp : t'.rsp = rsp')
    (hown : Owns i { p with fds := fds' } k) (hmem : ∀ a, p.userStack ≤ a → k.umem a = s.kernel.umem a)
    (hfiles : files' k.fs) (hout : o = out') : Point code place i p files' left' rsp' fds' out' left' t' ⟨k, o⟩ := by
  refine ⟨rfl, hrsp, hown, hout, fun pos bs hd => ?_, hfiles⟩
  have hbelow := hset.stack_below (hset.placed pos bs hd).1
  rw [userBytes_congr fun a ha _ => hmem a (hbelow.trans ha)]
  exact h.loaded pos bs hd

end Points

/-! ## Examples -/

/-- 32 bytes for an item, in the code pages of pid 3 -/
def demoPlace (pos : ℕ) : ℕ := codeVirt 3 + 0x10 + 32 * pos

/-- the data of a program in memory -/
def demoMem (code : Code Reg) (a : ℕ) : UInt8 :=
  match code[(a - demoPlace 0) / 32]? with
  | some (.data bs) => bs.getD ((a - demoPlace 0) % 32) 0
  | _ => 0

/-- pid 3 of the example image -/
def demoClient (prog : Program) : Process :=
  newProcess 3 syscallMask (demoBoot.entry prog) 0x200000 0x201000 (stackVirt 3) (codeVirt 3) demoBoot.pml4 prog.grants

/-- another process, which has no rights to files -/
def demoOther : Process :=
  newProcess 1 syscallMask (demoBoot.entry .a) 0x202000 0x203000 (stackVirt 1) (codeVirt 1) demoBoot.pml4 []

/-- two processes, the first one about to run with the data of its program in memory; the next tick switches -/
def demoUser (code : Code Reg) (prog : Program) : Kernel :=
  { demoKernel with
    sched := (Scheduler.empty.put 0 (some (demoClient prog))).put 1 (some demoOther), ticks := 4, schedulerReady := true,
    umem := demoMem code }

theorem demoUser_owns (code : Code Reg) (prog : Program) : Owns 0 (demoClient prog) (demoUser code prog) :=
  ⟨demoClient prog, rfl, ⟨rfl, rfl, rfl, rfl, rfl⟩⟩

theorem demo_new (prog : Program) : ∃ ph, processNew demoBoot.pml4 demoKernel.phys 3 syscallMask (demoBoot.entry prog)
    prog.grants = .ok (demoClient prog, ph) := by
  have hok : endsWith (fun r : Process × Phys => decide (r.1 = demoClient prog))
      (processNew demoBoot.pml4 demoKernel.phys 3 syscallMask (demoBoot.entry prog) prog.grants) = true := by
    cases prog <;> decide +kernel
  obtain ⟨⟨p, ph⟩, hnew, hp⟩ := endsWith_iff.1 hok
  exact ⟨ph, of_decide_eq_true hp ▸ hnew⟩

/-- the data of a program fits its 32 bytes, and the program the pages -/
def demoFits (code : Code Reg) : Bool :=
  decide (code.length ≤ 200) && code.all fun
    | .data bs => decide (bs.length ≤ 32)
    | _ => true

section

variable {code : Code Reg} (h : demoFits code = true) {pos : ℕ} {bs : Bytes} (prog : Program)

include h

theorem demoFits_data (hd : code[pos]? = some (.data bs)) : pos < 200 ∧ bs.length ≤ 32 := by
  unfold demoFits at h
  rw [Bool.and_eq_true, decide_eq_true_eq] at h
  have hpos := (List.getElem?_eq_some_iff.1 hd).1
  exact ⟨by omega, of_decide_eq_true (List.all_eq_true.1 h.2 _ (List.mem_of_getElem? hd))⟩

theorem demo_loaded : DataLoaded code demoPlace (demoUser code prog) := by
  intro pos bs hd
  obtain ⟨-, hlen⟩ := demoFits_data h hd
  refine List.ext_getElem (by simp [Kernel.userBytes]) fun j hj hj' => ?_
  have hdiv : (demoPlace pos + j - demoPlace 0) / 32 = pos := by unfold demoPlace; omega
  have hmod : (demoPlace pos + j - demoPlace 0) % 32 = j := by unfold demoPlace; omega
  simp [Kernel.userBytes, demoUser, demoMem, hdiv, hmod, hd, hj']

theorem demo_placed : DataPlaced code demoPlace (demoClient prog) := by
  intro pos bs hd
  obtain ⟨hpos, hbs⟩ := demoFits_data h hd
  show codeVirt 3 ≤ _ ∧ _ ≤ codeVirt 3 + _
  unfold demoPlace codePages pageSize
  omega

end

/-- the event writes no page of the process; reads of other processes are not used here -/
def Op.misses (p : Process) : Op → Bool
  | .store addr _ => p.userRegions.all fun r => decide (addr.toNat < r.1 ∨ r.2 ≤ addr.toNat)
  | .syscall nr _ _ _ _ => decide (nr ≠ 0)
  | _ => true

/-- an event of others, if it spares the process and keeps what it has to -/
def otherEvent (b : Boot) (i : Fin 64) (keeps : Kernel → Kernel → Prop) [DecidableRel keeps] (o : Op) (s : Sys) :
    Option Sys :=
  match s.kernel.sched.processes i, step b s.kernel o with
  | some p, .ok k =>
    if (s.kernel.sched.current = i → o.byProcess = false) ∧ (k.sched.processes i).isSome ∧ o.misses p ∧ keeps s.kernel k then
      some ⟨k, s.out⟩
    else none
  | _, _ => none

theorem otherEvent_others {b : Boot} {i : Fin 64} {keeps : Kernel → Kernel → Prop} [DecidableRel keeps] (o : Op) (s s' : Sys)
    (h : otherEvent b i keeps o s = some s') : Others b i keeps s s' := by
  unfold otherEvent at h
  split at h
  · rename_i p k hp hstep
    split_ifs at h with hc
    cases h
    obtain ⟨hown, hstays, hmiss, hkeeps⟩ := hc
    refine ⟨rfl, o, hstep, ⟨hown, Option.isSome_iff_ne_none.1 hstays, fun q hq r hr a hlo hhi => ?_⟩, hkeeps⟩
    rw [hp] at hq
    cases hq
    rcases fileStep_umem (file_step hstep) with hu | ⟨addr, v, rfl⟩ | ⟨a1, a2, a3, regs, rfl⟩
    · rw [hu]
    · cases hstep
      have hout := of_decide_eq_true (List.all_eq_true.1 hmiss r hr)
      exact Function.update_of_ne (by omega) _ _
    · cases hmiss
  · cases h

section

variable (code : Code Reg) (place : ℕ → ℕ) (i : Fin 64)

instance program_turn : DecidablePred (program code place i).turn := fun s =>
  inferInstanceAs (Decidable (s.kernel.sched.current = i))

end

/-- a turn of the other process: it stores a letter, prints it and yields -/
def demoTurn : List (ℕ ⊕ Op) :=
  [.inr (.timer demoFrame), .inr (.store 0x10000001000 0x42), .inr (.syscall 1 1 0x10000001000 1 default),
    .inr (.syscall 24 0 0 0 default)]

/-- a run to the end of the program, found by evaluation -/
theorem demo_run (code : Code Reg) (prog : Program) (keeps : Kernel → Kernel → Prop) [DecidableRel keeps]
    (turns : List (ℕ ⊕ Op))
    (h : ((program code demoPlace 0).replay (otherEvent demoBoot 0 keeps) default turns 0
      ⟨fun _ => 0, (demoClient prog).userStack, 0, 0⟩ ⟨demoUser code prog, []⟩).any
        (fun r => decide (code.length ≤ r.2.1.pc)) = true) :
    ∃ n t s, (program code demoPlace 0).Run (Others demoBoot 0 keeps) ⟨fun _ => 0, (demoClient prog).userStack, 0, 0⟩
      ⟨demoUser code prog, []⟩ n t s ∧ code.length ≤ t.pc := by
  obtain ⟨⟨n, t, s⟩, hrun, hend⟩ := (Option.any_eq_true _ _).1 h
  exact ⟨n, t, s, Client.Run.start.replay otherEvent_others hrun, of_decide_eq_true hend⟩

end Tomorrow
