/-
Runs of the kernel: system calls, stores of user programs, shell commands, timer ticks and page allocations of drivers, in
any order (`shell.rs`, `syscall.rs`, `main.rs`).

`step` is one such event. A system call is made by the process in the current slot, whatever its state: a process that
was killed while it runs goes on until the timer switches away, and so may, in the model, one that called `exit`. Shell
commands and ticks come from interrupts, which are off during a call, so calls are single steps.

`step_onFiles` says what a shell command on files can change, `timer_spec` what a tick can do.
-/
import Tomorrow.Kernel.Syscall

namespace Tomorrow

open Tomorrow.Core Files Sched Shell Vmm

/-! ## Shell commands on files -/

def cmdWrite (k : Kernel) (args : Bytes) : Kernel :=
  if args = [] then k.print (str "usage: write <file> <text>\n")
  else
    let w := splitFirstWord args
    let r := k.fs.write w.1 w.2
    Kernel.print { k with fs := r.2 } (str (if r.1 then "written to file\n" else "file not found\n"))

def cmdCreate (k : Kernel) (args : Bytes) : Kernel :=
  if args = [] then k.print (str "usage: touch <name file>\n")
  else
    let r := k.fs.create (splitFirstWord args).1
    Kernel.print { k with fs := r.2 } (str (if r.1 then "file created\n" else "file not created\n"))

def cmdRm (k : Kernel) (args : Bytes) : Kernel :=
  if args = [] then k.print (str "usage: rm <name file>\n")
  else
    let r := k.fs.delete (splitFirstWord args).1
    Kernel.print { k with fs := r.2 } (str (if r.1 then "file deleted\n" else "the file was not deleted\n"))

theorem cmdWrite_eq (k : Kernel) (args : Bytes) : ∃ fs s, cmdWrite k args = { k with fs := fs, screen := s } := by
  unfold cmdWrite
  split_ifs
  · exact ⟨k.fs, _, rfl⟩
  · exact ⟨_, _, rfl⟩

theorem cmdCreate_eq (k : Kernel) (args : Bytes) : ∃ fs s, cmdCreate k args = { k with fs := fs, screen := s } := by
  unfold cmdCreate
  split_ifs
  · exact ⟨k.fs, _, rfl⟩
  · exact ⟨_, _, rfl⟩

theorem cmdRm_eq (k : Kernel) (args : Bytes) : ∃ fs s, cmdRm k args = { k with fs := fs, screen := s } := by
  unfold cmdRm
  split_ifs
  · exact ⟨k.fs, _, rfl⟩
  · exact ⟨_, _, rfl⟩

/-- a page for a driver -/
def allocPage (k : Kernel) : Except Panic Kernel :=
  Pmm.alloc k.phys.pmm >>= fun r =>
    .ok { k with phys := { k.phys with pmm := r.2 }, handedOut := r.1 :: k.handedOut }

/-! ## Events -/

inductive Op where
  /-- a system call of the current process; regs are its registers inside `yield_now` -/
  | syscall (nr arg1 arg2 arg3 : UInt64) (regs : Context)
  /-- a store of a user program -/
  | store (addr : UInt64) (b : UInt8)
  | spawn (args : Bytes)
  | kill (args : Bytes)
  | write (args : Bytes)
  | create (args : Bytes)
  | rm (args : Bytes)
  | timer (f : TrapFrame)
  | allocPage

/-- the state in which the machine goes on -/
def Outcome.next : Outcome → Except Panic Kernel
  | .returns _ k => .ok k
  | .exits k => .ok k
  | .switches k => .ok k
  | .panics e => .error e

def step (b : Boot) (k : Kernel) : Op → Except Panic Kernel
  | .syscall nr a1 a2 a3 regs => (syscallHandler k nr.toNat a1.toNat a2.toNat a3.toNat regs).next
  | .store addr v => .ok { k with umem := Function.update k.umem addr.toNat v }
  | .spawn args => cmdSpawn b k args
  | .kill args => cmdKill b k args
  | .write args => .ok (cmdWrite k args)
  | .create args => .ok (cmdCreate k args)
  | .rm args => .ok (cmdRm k args)
  | .timer f => timerDoSwitch k f >>= fun r => .ok r.1
  | .allocPage => allocPage k

/-- a shell command on files -/
def Op.onFiles : Op → Bool
  | .write _ => true
  | .create _ => true
  | .rm _ => true
  | _ => false

/-- the commands on files change the file system and the console only -/
theorem step_onFiles {b : Boot} {k k' : Kernel} {o : Op} (ho : o.onFiles = true) (he : step b k o = .ok k') :
    ∃ fs s, k' = { k with fs := fs, screen := s } := by
  cases o with
  | write args => cases he; exact cmdWrite_eq k args
  | create args => cases he; exact cmdCreate_eq k args
  | rm args => cases he; exact cmdRm_eq k args
  | syscall => cases ho
  | store => cases ho
  | spawn => cases ho
  | kill => cases ho
  | timer => cases ho
  | allocPage => cases ho

/-- every event of the run meets P in the state it happens in -/
def Along (b : Boot) (P : Kernel → Op → Prop) : Kernel → List Op → Prop
  | _, [] => True
  | k, o :: ops => P k o ∧ ∀ k', step b k o = .ok k' → Along b P k' ops

theorem Along.mono {b : Boot} {P Q : Kernel → Op → Prop} (hPQ : ∀ k o, P k o → Q k o) {k : Kernel} {ops : List Op}
    (h : Along b P k ops) : Along b Q k ops := by
  induction ops generalizing k with
  | nil => trivial
  | cons o ops ih => exact ⟨hPQ k o h.1, fun k' he => ih (h.2 k' he)⟩

/-- **Invariant rule along a run.** What every event that meets P preserves holds at the end of a run of such events. -/
theorem run_along {b : Boot} {P : Kernel → Op → Prop} {I : Kernel → Prop}
    (hstep : ∀ k o k', I k → P k o → step b k o = .ok k' → I k') {k k' : Kernel} {ops : List Op} (hk : I k)
    (ha : Along b P k ops) (hr : run (step b) k ops = .ok k') : I k' := by
  induction ops generalizing k with
  | nil => cases hr; exact hk
  | cons o ops ih =>
    obtain ⟨u, hu, hr⟩ := bind_ok.1 hr
    exact ih (hstep k o u hk ha.1 hu) (ha.2 u hu) hr

/-- the states of a run from the state a boot leaves -/
def Reachable (b : Boot) (k : Kernel) : Prop :=
  ∃ k₀ k₁ ops, Start b k₀ ∧ boot b k₀ = .ok k₁ ∧ run (step b) k₁ ops = .ok k

/-- a small machine: an image of half a megabyte at 1 MB with the boot tables in its second page -/
def demoBoot : Boot where
  kernelStart := 0x100000
  kernelEnd := 0x180000
  ordered := Pmm.smallImage.ordered
  fits := Pmm.smallImage.fits
  pml4 := 0x101000
  entry := fun _ => kernelVirt + 0x110010
  pml4_aligned := by decide
  tables_in := by decide
  low := by decide
  entry_high := fun _ => by decide
  code_in := fun _ => by decide

/-- it starts with 512 free pages at 2 MB and one file -/
def demoKernel : Kernel where
  sched := Scheduler.empty
  nextPid := 3
  rsp0 := 0
  ticks := 0
  schedulerReady := false
  gdt3Last := 0
  fs := ⟨[⟨str "hello.txt", 0⟩], fun _ => str "hello", 1⟩
  screen := ⟨⟨⟨640, 480, by decide⟩, fun _ _ => [], 0, 0⟩, [], false, by decide⟩
  umem := fun _ => 0
  phys := ⟨fun a => if 0x101000 ≤ a ∧ a < 0x106000 then
      demoBoot.table ((a - 0x101000) / 4096) ((a - 0x101000) % 4096 / 8) else 0,
    fun w => if 8 ≤ w ∧ w < 16 then 0#64 else BitVec.allOnes 64⟩
  handedOut := []

theorem demoStart : Start demoBoot demoKernel where
  sched := rfl
  nextPid := rfl
  tables := by
    intro n i hn hi
    have hpml4 : demoBoot.pml4 = 0x101000 := rfl
    show (if 0x101000 ≤ demoBoot.pml4 + n * 4096 + 8 * i ∧ demoBoot.pml4 + n * 4096 + 8 * i < 0x106000 then _ else 0) = _
    rw [if_pos (by omega), show demoBoot.pml4 + n * 4096 + 8 * i - 0x101000 = n * 4096 + 8 * i by omega,
      show (n * 4096 + 8 * i) / 4096 = n by omega, show (n * 4096 + 8 * i) % 4096 / 8 = i by omega]
  reserved := by
    intro p hp hk
    have hlow : p < 384 := by
      rcases hk with hk | ⟨-, hk⟩
      · omega
      · rw [Pmm.Image.pageEnd_eq] at hk
        change p * 4096 < (0x180000 + 0xFFF) / 4096 * 4096 at hk
        omega
    show (if 8 ≤ p / 64 ∧ p / 64 < 16 then 0#64 else BitVec.allOnes 64).getLsbD (p % 64) = true
    rw [if_neg (by omega), BitVec.getLsbD_allOnes]
    exact decide_eq_true (by omega)
  handedOut := fun a ha => absurd ha List.not_mem_nil
  files := by
    refine ⟨fun e he => ?_, by decide⟩
    rw [List.mem_singleton.1 he]
    exact Nat.zero_lt_one

/-- the computation ended without a panic -/
def succeeds (x : Except Panic Kernel) : Bool :=
  match x with
  | .ok _ => true
  | .error _ => false

theorem succeeds_iff {x : Except Panic Kernel} : succeeds x = true ↔ ∃ k, x = .ok k := by
  cases x with
  | error e => simp [succeeds]
  | ok k => simp [succeeds]

/-- the computation ends with a value that has this property -/
def endsWith {α : Type} (P : α → Bool) (x : Except Panic α) : Bool :=
  match x with
  | .ok a => P a
  | .error _ => false

theorem endsWith_iff {α : Type} {P : α → Bool} {x : Except Panic α} :
    endsWith P x = true ↔ ∃ a, x = .ok a ∧ P a = true := by
  cases x with
  | error e => simp [endsWith]
  | ok a => simp [endsWith]

/-! ## What a tick does -/

/-- the part of the state that every tick changes -/
def Kernel.ticked (k : Kernel) : Kernel := Kernel.watchGdt { k with ticks := k.ticks + 1 }

/-- counting and the watch on the GDT touch the tick count, the console and the last value seen only -/
theorem Kernel.ticked_eq (k : Kernel) : ∃ g s, k.ticked = { k with ticks := k.ticks + 1, gdt3Last := g, screen := s } := by
  unfold Kernel.ticked Kernel.watchGdt
  split_ifs
  · exact ⟨k.gdt3Last, k.screen, rfl⟩
  · exact ⟨_, _, rfl⟩

/-- the registers of the current process are stored in its slot and nothing else changes -/
theorem saveCurrent_cases (s : Scheduler) (f : TrapFrame) :
    (∃ p, s.processes s.current = some p ∧
      s.saveCurrent f = s.put s.current (some { p with context := saveFrame p.context f })) ∨
    (s.processes s.current = none ∧ s.saveCurrent f = s) := by
  unfold Scheduler.saveCurrent
  cases hp : s.processes s.current with
  | none => exact Or.inr ⟨rfl, rfl⟩
  | some p => exact Or.inl ⟨p, rfl, rfl⟩

theorem saveCurrent_current (s : Scheduler) (f : TrapFrame) : (s.saveCurrent f).current = s.current := by
  rcases saveCurrent_cases s f with ⟨p, -, e⟩ | ⟨-, e⟩ <;> rw [e]
  rfl

theorem saveCurrent_of_ne {s : Scheduler} (f : TrapFrame) {i : Fin 64} (hi : i ≠ s.current) :
    (s.saveCurrent f).processes i = s.processes i := by
  rcases saveCurrent_cases s f with ⟨p, -, e⟩ | ⟨-, e⟩
  · rw [e, Scheduler.put_of_ne _ _ hi]
  · rw [e]

/-- the tick reschedules: the scheduler is ready and the new count is a multiple of five -/
def Kernel.Due (k : Kernel) : Prop := k.schedulerReady = true ∧ (k.ticks + 1) % 5 = 0

/-- **A tick.** It only counts; or it is due and saves the registers of the current process, and when there is another
running process it switches to the next one, whose context it returns. -/
theorem timer_spec {k : Kernel} {f : TrapFrame} {r : Kernel × Option Context} (h : timerDoSwitch k f = .ok r) :
    (¬ k.Due ∧ r = (k.ticked, none)) ∨
      (k.Due ∧ (k.sched.saveCurrent f).nextRunning = none ∧ r = ({ k.ticked with sched := k.sched.saveCurrent f }, none)) ∨
      ∃ i q, k.Due ∧ (k.sched.saveCurrent f).nextRunning = some i ∧ (k.sched.saveCurrent f).processes i = some q ∧
        q.state = .running ∧
        r = ({ k.ticked with sched := { k.sched.saveCurrent f with current := i }, rsp0 := q.kernelStack },
          some q.context) := by
  unfold timerDoSwitch at h
  obtain ⟨t, ht, h⟩ := bind_ok.1 h
  obtain ⟨-, rfl⟩ := ckAdd_ok.1 ht
  obtain ⟨g, s, e⟩ := k.ticked_eq
  have hsched : k.ticked.sched = k.sched := by rw [e]
  have hready : k.ticked.schedulerReady = k.schedulerReady := by rw [e]
  dsimp only at h
  change (if k.ticked.schedulerReady = false ∨ (k.ticks + 1) % 5 ≠ 0 then .ok (k.ticked, none)
    else k.ticked.reschedule f) = .ok r at h
  rw [hready] at h
  split_ifs at h with hc
  · cases h
    refine Or.inl ⟨fun hdue => ?_, rfl⟩
    rcases hc with hc | hc
    · rw [hdue.1] at hc
      cases hc
    · exact hc hdue.2
  have hdue : k.Due := by
    rw [not_or, Bool.not_eq_false, not_not] at hc
    exact hc
  unfold Kernel.reschedule at h
  rw [hsched] at h
  cases hn : (k.sched.saveCurrent f).nextRunning with
  | none =>
    rw [hn] at h
    cases h
    exact Or.inr (Or.inl ⟨hdue, rfl, rfl⟩)
  | some i =>
    rw [hn] at h
    obtain ⟨u, hu, h⟩ := bind_ok.1 h
    cases h
    obtain ⟨q, hq, hrun⟩ := Scheduler.nextRunning_spec hn
    simp only [Kernel.switchTo, hq] at hu
    cases hu
    exact Or.inr (Or.inr ⟨i, q, hdue, rfl, hq, hrun, rfl⟩)

/-- what a tick can do, whether it is due or not -/
theorem timer_cases {k : Kernel} {f : TrapFrame} {r : Kernel × Option Context} (h : timerDoSwitch k f = .ok r) :
    r = (k.ticked, none) ∨ r = ({ k.ticked with sched := k.sched.saveCurrent f }, none) ∨
      ∃ i q, i ≠ k.sched.current ∧ (k.sched.saveCurrent f).processes i = some q ∧ q.state = .running ∧
        r = ({ k.ticked with sched := { k.sched.saveCurrent f with current := i }, rsp0 := q.kernelStack },
          some q.context) := by
  rcases timer_spec h with ⟨-, hr⟩ | ⟨-, -, hr⟩ | ⟨i, q, -, hn, hq, hrun, hr⟩
  · exact Or.inl hr
  · exact Or.inr (Or.inl hr)
  · exact Or.inr (Or.inr ⟨i, q, saveCurrent_current k.sched f ▸ Scheduler.nextRunning_ne_current hn, hq, hrun, hr⟩)

end Tomorrow
