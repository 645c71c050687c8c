/-
The kernel as one machine: its state, boot, and the operations that create, kill and switch processes (`main.rs`,
`process.rs`, `shell.rs`).

State: the process table with `NEXT_PID`, `TSS.rsp0` and `TICKS`; the file system; the console and the input line; the
page tables and the page allocator; user memory by virtual address. Addresses and registers are natural numbers below
2^64. Heap allocation is taken to succeed, user memory is kept apart from the kernel's own, and the fields `domain` and
`token` of a process, which nothing reads, are left out.

`Process::new` maps the code of a program at two pages of every process that runs it, and both can be written: the same
physical pages under several virtual addresses. User memory is by virtual address here, so a write to the code pages of one
process is not seen at those of another: what is said of a program in user memory is about code that is not written under
any of its addresses.

Boot (`Start`, `boot`): after the drivers have taken their pages, two processes are made and added, the scheduler and the
shell become ready and the first process is started with its kernel stack in the TSS.
-/
import Tomorrow.Memory.Vmm
import Tomorrow.Process.Scheduler
import Tomorrow.Shell.Console

namespace Tomorrow

open Tomorrow.Core Files Sched Shell Vmm

/-! ## The image -/

def kernelVirt : ℕ := 0xFFFF800000000000

/-- `CODE_PAGES` -/
def codePages : ℕ := 2

/-- the demo programs, functions of the kernel -/
inductive Program where
  | a
  | b
  | f
  | w
  | x
  | r
deriving DecidableEq

/-- the loaded image: the five boot tables at `pml4` and the code of the programs lie inside it -/
structure Boot extends Pmm.Image where
  pml4 : ℕ
  /-- the higher-half address of each program -/
  entry : Program → ℕ
  pml4_aligned : pml4 % 4096 = 0
  tables_in : kernelStart ≤ pml4 ∧ pml4 + 5 * 4096 ≤ kernelEnd
  /-- `boot.s` stores the addresses of the tables as 32-bit words -/
  low : kernelEnd < 2 ^ 32
  entry_high : ∀ p, kernelVirt ≤ entry p
  code_in : ∀ p, kernelStart ≤ (entry p - kernelVirt) / 4096 * 4096 ∧
    (entry p - kernelVirt) / 4096 * 4096 + codePages * 4096 ≤ kernelEnd

/-- entry i of boot table n (`pml4`, `pdpt0`, `pdpt1`, `pdpt_high`, `pd_kernel`), as `boot.s` fills it -/
def Boot.table (b : Boot) : ℕ → ℕ → ℕ
  | 0, i => if i = 0 then b.pml4 + 0x1000 ||| 3 else if i = 1 then b.pml4 + 0x2000 ||| 3
            else if i = 256 then b.pml4 + 0x3000 ||| 3 else 0
  | 1, i => i * 0x40000000 + 0x83
  | 2, i => 0x8000000000 + i * 0x40000000 + 0x83
  | 3, i => if i = 0 then b.pml4 + 0x4000 ||| 3 else 0
  | _, i => if i = 0 then 0x83 else 0

/-! ## State -/

structure Kernel where
  sched : Scheduler
  nextPid : ℕ
  /-- `TSS.rsp0` -/
  rsp0 : ℕ
  ticks : ℕ
  schedulerReady : Bool
  gdt3Last : ℕ
  fs : Ramfs
  screen : Screen
  /-- user memory by virtual address -/
  umem : ℕ → UInt8
  phys : Phys
  /-- the pages that boot and the drivers have taken from the allocator and keep -/
  handedOut : List ℕ

def Kernel.currentProcess (k : Kernel) : Option Process := k.sched.processes k.sched.current

/-- output of the shell's own commands -/
def Kernel.print (k : Kernel) (bs : Bytes) : Kernel := { k with screen := k.screen.write bs }

/-- a message that ends in a decimal number and a newline -/
def Kernel.printDec (k : Kernel) (msg : String) (n : ℕ) : Except Panic Kernel :=
  (k.screen.console.writeStr msg).writeDec n >>= fun c =>
    .ok { k with screen := { k.screen with console := c.writeByte 0x0A } }

/-! ## Creating a process -/

def sysReadNr : ℕ := 0

def sysWriteNr : ℕ := 1

def sysOpenNr : ℕ := 2

def sysCloseNr : ℕ := 3

def sysYieldNr : ℕ := 24

def sysExitNr : ℕ := 60

/-- `SYSCALL_MASK` -/
def syscallMask : ℕ :=
  1 <<< sysReadNr ||| 1 <<< sysWriteNr ||| 1 <<< sysOpenNr ||| 1 <<< sysCloseNr ||| 1 <<< sysYieldNr ||| 1 <<< sysExitNr

def userStackVirt (pid : ℕ) : Except Panic ℕ := ckMul pid 0x1000 >>= fun x => ckAdd 0x0000010000000000 x

def userCodeVirt (pid : ℕ) : Except Panic ℕ :=
  ckMul pid codePages >>= fun x => ckMul x pageSize >>= fun y => ckAdd 0x0000020000000000 y

/-- `for i in 0..CODE_PAGES`: map the code pages one after another -/
def mapCode (pml4 virt fnPhys : ℕ) (s : Phys) : Except Panic Phys :=
  (List.range codePages).foldlM
    (fun s i => Vmm.map pml4 s (virt + i * pageSize) (fnPhys + i * pageSize) (pageWritable ||| pageUser)) s

theorem mapCode_cases {pml4 virt fnPhys : ℕ} {s s' : Phys} (h : mapCode pml4 virt fnPhys s = .ok s') :
    ∃ s₁, Vmm.map pml4 s virt fnPhys (pageWritable ||| pageUser) = .ok s₁ ∧
      Vmm.map pml4 s₁ (virt + 4096) (fnPhys + 4096) (pageWritable ||| pageUser) = .ok s' := by
  unfold mapCode at h
  rw [show List.range codePages = [0, 1] from rfl, foldlM_cons_ok] at h
  obtain ⟨s₁, h₁, h⟩ := h
  obtain ⟨s₂, h₂, h⟩ := foldlM_cons_ok.1 h
  cases h
  exact ⟨s₁, by simpa using h₁, by simpa [pageSize] using h₂⟩

/-- the record built at the end of `Process::new`, with cr3 the physical address of the tables -/
def newProcess (pid mask entry stack userStackPhys usv ucv cr3 : ℕ) (grants : List Grant) : Process :=
  let stackTop := andNot (stack + 4096) 0xF
  { pid := pid, syscallMask := mask, state := .running, kernelStack := stackTop, userStack := usv + 4096,
    kernelStackPhys := stack, userRegions := [(ucv, ucv + codePages * pageSize), (usv, usv + pageSize)],
    userStackPhys := userStackPhys,
    context := { rax := 0, rbx := 0, rcx := 0, rdx := 0, rsi := 0, rdi := 0, rbp := 0, r8 := 0, r9 := 0, r10 := 0,
                 r11 := 0, r12 := 0, r13 := 0, r14 := 0, r15 := 0, rip := ucv + (entry &&& 0xFFF), rflags := 0x202,
                 cs := 0x23, ss := 0x1B, rsp := usv + 4096, cr3 := cr3, kernelStack := stackTop },
    fds := [none, none, none], grants := grants }

/-- `Process::new` -/
def processNew (pml4 : ℕ) (s : Phys) (pid mask entry : ℕ) (grants : List Grant) : Except Panic (Process × Phys) :=
  Pmm.alloc s.pmm >>= fun stack =>
  Pmm.alloc stack.2 >>= fun userStack =>
  let s := Phys.store ⟨s.mem, userStack.2⟩ (andNot (stack.1 + 4096) 0xF - 8) entry
  userStackVirt pid >>= fun usv =>
  ckSub entry kernelVirt >>= fun off =>
  userCodeVirt pid >>= fun ucv =>
  Vmm.map pml4 s usv userStack.1 (pageWritable ||| pageUser) >>= fun s =>
  mapCode pml4 ucv (andNot off 0xFFF) s >>= fun s =>
  ckAdd usv 4096 >>= fun _ =>
  ckAdd ucv (codePages * pageSize) >>= fun _ =>
  .ok (newProcess pid mask entry stack.1 userStack.1 usv ucv pml4 grants, s)

/-- the steps of a creation that succeeds -/
theorem processNew_cases {pml4 pid mask entry : ℕ} {s : Phys} {grants : List Grant} {p : Process} {s' : Phys}
    (h : processNew pml4 s pid mask entry grants = .ok (p, s')) :
    ∃ stack m₁ ustack m₂ usv off ucv s₁, Pmm.alloc s.pmm = .ok (stack, m₁) ∧ Pmm.alloc m₁ = .ok (ustack, m₂) ∧
      userStackVirt pid = .ok usv ∧ ckSub entry kernelVirt = .ok off ∧ userCodeVirt pid = .ok ucv ∧
      Vmm.map pml4 (Phys.store ⟨s.mem, m₂⟩ (andNot (stack + 4096) 0xF - 8) entry) usv ustack (pageWritable ||| pageUser) =
        .ok s₁ ∧
      mapCode pml4 ucv (andNot off 0xFFF) s₁ = .ok s' ∧
      p = newProcess pid mask entry stack ustack usv ucv pml4 grants := by
  unfold processNew at h
  obtain ⟨⟨stack, m₁⟩, h₁, h⟩ := bind_ok.1 h
  obtain ⟨⟨ustack, m₂⟩, h₂, h⟩ := bind_ok.1 h
  obtain ⟨usv, h₃, h⟩ := bind_ok.1 h
  obtain ⟨off, h₄, h⟩ := bind_ok.1 h
  obtain ⟨ucv, h₅, h⟩ := bind_ok.1 h
  obtain ⟨s₁, h₆, h⟩ := bind_ok.1 h
  obtain ⟨s₂, h₇, h⟩ := bind_ok.1 h
  obtain ⟨-, -, h⟩ := bind_ok.1 h
  obtain ⟨-, -, h⟩ := bind_ok.1 h
  cases h
  exact ⟨stack, m₁, ustack, m₂, usv, off, ucv, s₁, h₁, h₂, h₃, h₄, h₅, h₆, h₇, rfl⟩

/-- the program named by the argument of `spawn` -/
def programOf (args : Bytes) : Option Program :=
  if args = [0x61] then some .a else if args = [0x62] then some .b else if args = [0x66] then some .f
  else if args = [0x77] then some .w else if args = [0x78] then some .x else if args = [0x72] then some .r else none

def Program.grants : Program → List Grant
  | .a => []
  | .b => []
  | .f => [⟨str "hello.txt", permRead⟩]
  | .w => [⟨str "hello.txt", permWrite⟩]
  | .x => [⟨str "hello.txt", permRead⟩]
  | .r => [⟨str "hello.txt", permRead⟩]

def cmdSpawn (b : Boot) (k : Kernel) (args : Bytes) : Except Panic Kernel :=
  match programOf args with
  | none => .ok (k.print (str "usage: spawn <a|b|f|w|x|r>\n"))
  | some prog =>
    if 64 ≤ k.sched.count then .ok (k.print (str "scheduler full\n"))
    else
      -- `next_pid`
      let pid := k.nextPid
      ckAdd pid 1 >>= fun next =>
      processNew b.pml4 k.phys pid syscallMask (b.entry prog) prog.grants >>= fun r =>
      k.sched.addProcess r.1 >>= fun sched =>
      Kernel.printDec { k with sched := sched, phys := r.2, nextPid := next } "spawned pid " pid

/-! ## Killing a process -/

/-- the first slot that holds the pid -/
def Sched.Scheduler.findPid (s : Scheduler) (pid : ℕ) : Option (Fin 64 × Process) :=
  (List.finRange 64).findSome? fun i =>
    match s.processes i with
    | some p => if p.pid = pid then some (i, p) else none
    | none => none

/-- mark p, found in slot i, dead and empty the dead slots -/
def killAndReap (b : Boot) (k : Kernel) (i : Fin 64) (p : Process) : Except Panic Kernel :=
  reap b.toImage (k.sched.put i (some { p with state := .dead })) k.phys.pmm >>= fun r =>
    .ok { k with sched := r.1, phys := { k.phys with pmm := r.2 } }

def cmdKill (b : Boot) (k : Kernel) (args : Bytes) : Except Panic Kernel :=
  match parseDec args with
  | none => .ok (k.print (str "usage: kill <pid>\n"))
  | some pid =>
    match k.sched.findPid pid with
    | none => .ok (k.print (str "no such pid\n"))
    | some (i, p) =>
      if p.state = .dead then .ok (k.print (str "already dead\n"))
      else killAndReap b k i p >>= fun k => k.printDec "killed pid " pid

/-! ## The timer -/

/-- what the CPU and `timer_handler_asm` push: the fifteen general registers (`SavedRegs`) below the iretq frame -/
structure TrapFrame where
  rax : ℕ
  rbx : ℕ
  rcx : ℕ
  rdx : ℕ
  rbp : ℕ
  rsi : ℕ
  rdi : ℕ
  r8 : ℕ
  r9 : ℕ
  r10 : ℕ
  r11 : ℕ
  r12 : ℕ
  r13 : ℕ
  r14 : ℕ
  r15 : ℕ
  rip : ℕ
  cs : ℕ
  rflags : ℕ
  rsp : ℕ
  ss : ℕ
deriving DecidableEq

/-- copy the frame into the context of a process; cr3 and the kernel stack stay -/
def saveFrame (c : Context) (f : TrapFrame) : Context :=
  { c with rax := f.rax, rbx := f.rbx, rcx := f.rcx, rdx := f.rdx, rbp := f.rbp, rsi := f.rsi, rdi := f.rdi, r8 := f.r8,
           r9 := f.r9, r10 := f.r10, r11 := f.r11, r12 := f.r12, r13 := f.r13, r14 := f.r14, r15 := f.r15, rip := f.rip,
           cs := f.cs, rflags := f.rflags, rsp := f.rsp, ss := f.ss }

/-- the user-data descriptor of the GDT; nothing in the model writes the GDT -/
def gdtUserData : ℕ := 0x00CFF2000000FFFF

/-- the watch on the descriptor: print it when it has changed since the last tick -/
def Kernel.watchGdt (k : Kernel) : Kernel :=
  if gdtUserData = k.gdt3Last then k
  else
    let c := ((((k.screen.console.writeStr "GDT3=").writeHex gdtUserData).writeStr " t=").writeHex k.ticks).writeStr "\n"
    { k with gdt3Last := gdtUserData, screen := { k.screen with console := c } }

/-- save the registers of the current process -/
def Sched.Scheduler.saveCurrent (s : Scheduler) (f : TrapFrame) : Scheduler :=
  match s.processes s.current with
  | some p => s.put s.current (some { p with context := saveFrame p.context f })
  | none => s

/-- make slot i current, with the kernel stack of its process in the TSS; the result is its context -/
def Kernel.switchTo (k : Kernel) (i : Fin 64) : Except Panic (Kernel × Context) :=
  match k.sched.processes i with
  | some p => .ok ({ k with sched := { k.sched with current := i }, rsp0 := p.kernelStack }, p.context)
  | none => .error (.expect "called `Option::unwrap()` on a `None` value")

/-- the end of `timer_do_switch`, reached on every fifth tick: save, look for the next process, switch -/
def Kernel.reschedule (k : Kernel) (f : TrapFrame) : Except Panic (Kernel × Option Context) :=
  match (k.sched.saveCurrent f).nextRunning with
  | some i => Kernel.switchTo { k with sched := k.sched.saveCurrent f } i >>= fun r => .ok (r.1, some r.2)
  | none => .ok ({ k with sched := k.sched.saveCurrent f }, none)

/-- `timer_do_switch`; the context is that of the process to switch to, none for the null pointer. Keys that `poll_hid`
delivers at this tick act as shell commands before it. -/
def timerDoSwitch (k : Kernel) (f : TrapFrame) : Except Panic (Kernel × Option Context) :=
  ckAdd k.ticks 1 >>= fun ticks =>
    let k := Kernel.watchGdt { k with ticks := ticks }
    if k.schedulerReady = false ∨ ticks % 5 ≠ 0 then .ok (k, none) else k.reschedule f

/-! ## Boot -/

/-- the kernel before the first process is made: an empty table, the boot tables in memory, the first megabyte and the
image reserved, the pages taken so far marked used, every file with an inode of its own -/
structure Start (b : Boot) (k : Kernel) : Prop where
  sched : k.sched = Scheduler.empty
  nextPid : k.nextPid = 3
  tables : ∀ n i, n < 5 → i < 512 → k.phys.mem (b.pml4 + n * 4096 + 8 * i) = b.table n i
  reserved : Pmm.Reserved b.toImage k.phys.pmm
  handedOut : ∀ a ∈ k.handedOut, Pmm.Frame b.toImage a ∧ bit k.phys.pmm (a / 4096) = true
  files : k.fs.WellFormed

/-- the scheduler part of `kernel_main` and `start_first_process_ring3` -/
def boot (b : Boot) (k : Kernel) : Except Panic Kernel :=
  processNew b.pml4 k.phys 1 syscallMask (b.entry .a) [] >>= fun a =>
  processNew b.pml4 a.2 2 syscallMask (b.entry .b) [] >>= fun r =>
  k.sched.addProcess a.1 >>= fun sched =>
  sched.addProcess r.1 >>= fun sched =>
  let screen := (k.screen.write (str "Scheduler ok\n")).init
  match sched.processes 0 with
  | some p => .ok { k with sched := sched, phys := r.2, schedulerReady := true, screen := screen, rsp0 := p.kernelStack }
  | none => .error (.expect "called `Option::unwrap()` on a `None` value")

end Tomorrow
