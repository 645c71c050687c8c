/-
How processes end: `kill`, `exit`, and what the timer does about dead processes, over whole runs.

A process dies in two ways. `kill` of a process that is not current marks it and reaps it in the same command. `exit`, and
`kill` of the current process, only mark it: its kernel stack is in use, and its slot waits for a reap. `next_running`
passes over dead processes, but it looks for another one only: when there is none, the timer returns the null pointer
and the dead process keeps the CPU. The switch itself does not reap.

`LifeStep` says once what an event does to the states of processes and to the CPU; the invariants `Killed` and
`Gone`, and that no slot is dead, are read off it. Results:
- `killed_stops_iff`: a killed process is off the CPU from a scheduling tick on exactly when, at that tick, it is not
  current or another process is running;
- `dead_slots_iff`: after a switch of the timer no other slot is dead exactly when none was dead before it, and none is in
  a run in which nothing exits or is killed while it is current.
-/
import Tomorrow.Kernel.ProcessTable

namespace Tomorrow

open Tomorrow.Core Files Sched Shell Vmm

/-! ## One event -/

/-- the event marks the current process dead and leaves it in its slot -/
def LeavesDead (k : Kernel) : Op → Prop
  | .syscall nr _ _ _ _ => nr.toNat = sysExitNr
  | .kill args => ∃ p, k.currentProcess = some p ∧ parseDec args = some p.pid
  | _ => False

/-- the process and its part of user memory -/
structure SameLayout (p q : Process) : Prop where
  pid : q.pid = p.pid
  regions : q.userRegions = p.userRegions

/-- q, in slot j after an event: the process that was there, in the same state or marked dead, or a new one -/
inductive LifeSlot (b : Boot) (k : Kernel) (o : Op) (j : Fin 64) (q : Process) : Prop where
  | same (p : Process) (hp : k.sched.processes j = some p) (hid : SameLayout p q) (hs : q.state = p.state)
  | died (p : Process) (hp : k.sched.processes j = some p) (hid : SameLayout p q) (hs : q.state = .dead)
      (hl : LeavesDead k o)
  | new (prog : Program) (ph : Phys)
      (hnew : processNew b.pml4 k.phys k.nextPid syscallMask (b.entry prog) prog.grants = .ok (q, ph))

/-- what an event does to the states of processes and to the CPU -/
structure LifeStep (b : Boot) (k : Kernel) (o : Op) (k' : Kernel) : Prop where
  slot : ∀ j q, k'.sched.processes j = some q → LifeSlot b k o j q
  /-- the CPU goes to a running process only -/
  cpu : k'.sched.current = k.sched.current ∨ ∃ q, k'.currentProcess = some q ∧ q.state = .running
  nextPid : k.nextPid ≤ k'.nextPid
  ready : k'.schedulerReady = k.schedulerReady

theorem processNew_alive {pml4 pid mask entry : ℕ} {s s' : Phys} {grants : List Grant} {p : Process}
    (h : processNew pml4 s pid mask entry grants = .ok (p, s')) : p.pid = pid ∧ p.state = .running := by
  obtain ⟨stack, m₁, ustack, m₂, usv, off, ucv, s₁, -, -, -, -, -, -, -, rfl⟩ := processNew_cases h
  exact ⟨rfl, rfl⟩

section

variable {b : Boot} {k k' : Kernel} {o : Op} {i j : Fin 64} {p q r : Process}

theorem LifeSlot.refl (hq : k.sched.processes j = some q) : LifeSlot b k o j q := .same q hq ⟨rfl, rfl⟩ rfl

/-- one process changed, but not its state -/
theorem LifeSlot.put (hp : k.sched.processes i = some p) (hq : (k.sched.put i (some r)).processes j = some q)
    (hid : SameLayout p r) (hs : r.state = p.state) : LifeSlot b k o j q := by
  rcases Scheduler.put_eq_some hq with ⟨rfl, hr⟩ | ⟨-, hq⟩
  · cases hr
    exact .same p hp hid hs
  · exact .refl hq

/-- the table and the CPU are as they were -/
theorem LifeStep.kept (hs : k'.sched = k.sched) (hn : k'.nextPid = k.nextPid) (hr : k'.schedulerReady = k.schedulerReady) :
    LifeStep b k o k' where
  slot := fun j q hq => .refl (by rw [← hs]; exact hq)
  cpu := Or.inl (by rw [hs])
  nextPid := hn.ge
  ready := hr

/-- one process changed, but not its state, and the CPU is where it was -/
theorem LifeStep.put (hp : k.sched.processes i = some p) (hsched : k'.sched = k.sched.put i (some r))
    (hid : SameLayout p r) (hs : r.state = p.state) (hn : k'.nextPid = k.nextPid)
    (hr : k'.schedulerReady = k.schedulerReady) : LifeStep b k o k' where
  slot := fun j q hq => .put hp (by rw [← hsched]; exact hq) hid hs
  cpu := Or.inl (by rw [hsched]; rfl)
  nextPid := hn.ge
  ready := hr

theorem syscall_life {nr a1 a2 a3 : UInt64} {regs : Context}
    (he : (syscallHandler k nr.toNat a1.toNat a2.toNat a3.toNat regs).next = .ok k') :
    LifeStep b k (.syscall nr a1 a2 a3 regs) k' := by
  have heff := syscall_effect k a1.toNat a2.toNat a3.toNat regs nr.toNat
  generalize hnr : nr.toNat = n at heff he
  generalize syscallHandler k n a1.toNat a2.toNat a3.toNat regs = out at heff he
  cases heff with
  | error nr e => cases he; exact .kept rfl rfl rfl
  | stdout p hp hr => cases he; exact .kept rfl rfl rfl
  | write p f data stop hp hr hfd hperm hw => cases he; exact .put hp rfl ⟨rfl, rfl⟩ rfl rfl rfl
  | opened p need inode fd fds hp => cases he; exact .put hp rfl ⟨rfl, rfl⟩ rfl rfl rfl
  | read p f hp hr hfd hperm => cases he; exact .put hp rfl ⟨rfl, rfl⟩ rfl rfl rfl
  | closed p f hp hfd => cases he; exact .put hp rfl ⟨rfl, rfl⟩ rfl rfl rfl
  | exited p hp =>
    cases he
    refine ⟨fun j q hq => ?_, Or.inl rfl, le_refl _, rfl⟩
    rcases Scheduler.put_eq_some hq with ⟨rfl, hr⟩ | ⟨-, hq⟩
    · cases hr
      exact .died p hp ⟨rfl, rfl⟩ rfl hnr
    · exact .refl hq
  | stayed => cases he; exact .kept rfl rfl rfl
  | switched p q i hp hi hq hrun =>
    cases he
    refine ⟨fun j r hr => .put hp hr ⟨rfl, rfl⟩ rfl, Or.inr ⟨q, ?_, hrun⟩, le_refl _, rfl⟩
    rw [← hq]
    exact Scheduler.put_of_ne _ _ hi

theorem timer_life {f : TrapFrame} {r : Kernel × Option Context} (hr : timerDoSwitch k f = .ok r) :
    LifeStep b k (.timer f) r.1 := by
  obtain ⟨g, s, e⟩ := k.ticked_eq
  have hsave : ∀ {j q}, (k.sched.saveCurrent f).processes j = some q → LifeSlot b k (.timer f) j q := by
    intro j q hq
    rcases saveCurrent_cases k.sched f with ⟨p, hp, e⟩ | ⟨-, e⟩
    · rw [e] at hq
      exact .put hp hq ⟨rfl, rfl⟩ rfl
    · rw [e] at hq
      exact .refl hq
  rcases timer_cases hr with rfl | rfl | ⟨i, q, hi, hq, hrun, rfl⟩
  · rw [e]
    exact .kept rfl rfl rfl
  · rw [e]
    exact ⟨fun j q hq => hsave hq, Or.inl (saveCurrent_current _ f), le_refl _, rfl⟩
  · rw [e]
    exact ⟨fun j q hq => hsave hq, Or.inr ⟨q, hq, hrun⟩, le_refl _, rfl⟩

theorem spawn_life {args : Bytes} (he : cmdSpawn b k args = .ok k') : LifeStep b k (.spawn args) k' := by
  rcases spawn_cases he with ⟨s, rfl⟩ | ⟨prog, p, ph, sched, screen, -, hnew, hadd, rfl⟩
  · exact .kept rfl rfl rfl
  · refine ⟨fun j q hq => ?_, Or.inl (addProcess_current hadd), Nat.le_succ _, rfl⟩
    rcases Scheduler.addProcess_slot hadd hq with rfl | hq
    · exact .new prog ph hnew
    · exact .refl hq

/-- a kill leaves a dead process in its slot only when it is the current one -/
theorem kill_life {args : Bytes} (he : cmdKill b k args = .ok k') : LifeStep b k (.kill args) k' := by
  rcases kill_cases he with ⟨s, rfl⟩ | ⟨i, p, r, screen, hp, ⟨hargs, -⟩, hr, rfl⟩
  · exact .kept rfl rfl rfl
  · refine ⟨fun j q hq => ?_, Or.inl (reap_current hr), le_refl _, rfl⟩
    rcases reap_processes hr j with ⟨-, -, hnone⟩ | ⟨hnot, hsame⟩
    · exact absurd (hnone.symm.trans hq) (by simp)
    · have hdead := hsame.symm.trans hq
      rcases Scheduler.put_eq_some hdead with ⟨rfl, hq⟩ | ⟨-, hq⟩
      · cases hq
        refine .died p hp ⟨rfl, rfl⟩ rfl ⟨p, ?_, hargs⟩
        by_contra hcur
        refine hnot (List.mem_finRange j) _ ⟨fun hc => hcur ?_, hdead, rfl⟩
        have hc : j = k.sched.current := hc
        unfold Kernel.currentProcess
        rw [← hc]
        exact hp
      · exact .refl hq

/-- **Inversion.** -/
theorem step_life (he : step b k o = .ok k') : LifeStep b k o k' := by
  cases o with
  | syscall nr a1 a2 a3 regs => exact syscall_life he
  | store addr v => cases he; exact .kept rfl rfl rfl
  | spawn args => exact spawn_life he
  | kill args => exact kill_life he
  | write args | create args | rm args =>
    obtain ⟨fs, s, rfl⟩ := step_onFiles rfl he
    exact .kept rfl rfl rfl
  | timer f =>
    obtain ⟨r, hr, he⟩ := bind_ok.1 he
    cases he
    exact timer_life hr
  | allocPage =>
    obtain ⟨r, -, he⟩ := bind_ok.1 he
    cases he
    exact .kept rfl rfl rfl

end

/-! ## Killed processes -/

/-- the pid was given out, and whatever process has it is dead -/
structure Killed (pid : ℕ) (k : Kernel) : Prop where
  given : pid < k.nextPid
  dead : ∀ i p, k.sched.processes i = some p → p.pid = pid → p.state = .dead

/-- the process on the CPU has this pid -/
def OnCpu (pid : ℕ) (k : Kernel) : Prop := ∃ p, k.currentProcess = some p ∧ p.pid = pid

/-- killed, and off the CPU -/
structure Gone (pid : ℕ) (k : Kernel) : Prop where
  killed : Killed pid k
  off : ¬ OnCpu pid k

section

variable {b : Boot} {k k' : Kernel} {o : Op} {pid : ℕ}

theorem Killed.step (h : Killed pid k) (hl : LifeStep b k o k') : Killed pid k' where
  given := lt_of_lt_of_le h.given hl.nextPid
  dead := by
    intro j q hq hpid
    cases hl.slot j q hq with
    | same p hp hid hs => rw [hs]; exact h.dead j p hp (hid.pid.symm.trans hpid)
    | died p hp hid hs hl => exact hs
    | new prog ph hnew => exact absurd ((processNew_alive hnew).1.symm.trans hpid) h.given.ne'

/-- a process that is off the CPU stays off it: the CPU goes to running processes only -/
theorem Gone.step (h : Gone pid k) (hl : LifeStep b k o k') : Gone pid k' where
  killed := h.killed.step hl
  off := by
    rintro ⟨q, hq, hpid⟩
    rcases hl.cpu with hcur | ⟨r, hr, hrun⟩
    · unfold Kernel.currentProcess at hq
      rw [hcur] at hq
      cases hl.slot _ q hq with
      | same p hp hid hs => exact h.off ⟨p, hp, hid.pid.symm.trans hpid⟩
      | died p hp hid hs hl => exact h.off ⟨p, hp, hid.pid.symm.trans hpid⟩
      | new prog ph hnew => exact absurd ((processNew_alive hnew).1.symm.trans hpid) h.killed.given.ne'
    · rw [hr] at hq
      cases hq
      have hdead := (h.killed.step hl).dead _ q hr hpid
      rw [hrun] at hdead
      cases hdead

theorem run_killed {ops : List Op} (h : Killed pid k) (hr : run (step b) k ops = .ok k') : Killed pid k' :=
  run_invariant (fun _ _ _ hI he => hI.step (step_life he)) h hr

theorem run_gone {ops : List Op} (h : Gone pid k) (hr : run (step b) k ops = .ok k') : Gone pid k' :=
  run_invariant (fun _ _ _ hI he => hI.step (step_life he)) h hr

/-- `cmd_kill` finds the pid alive and reports it killed -/
def KillReports (b : Boot) (k : Kernel) (args : Bytes) (pid : ℕ) (k' : Kernel) : Prop :=
  parseDec args = some pid ∧ (∃ i p, k.sched.findPid pid = some (i, p) ∧ p.state ≠ .dead) ∧ cmdKill b k args = .ok k'

theorem killReports_killed {args : Bytes} (h : TableInv b k) (hk : KillReports b k args pid k') : Killed pid k' := by
  obtain ⟨hargs, ⟨i, p, hfind, hlive⟩, he⟩ := hk
  obtain ⟨hp, hpid⟩ := findPid_spec hfind
  unfold cmdKill at he
  rw [hargs] at he
  dsimp only at he
  rw [hfind] at he
  dsimp only at he
  rw [if_neg hlive] at he
  obtain ⟨u, hu, he⟩ := bind_ok.1 he
  obtain ⟨r, hr, hu⟩ := bind_ok.1 hu
  cases hu
  obtain ⟨screen, rfl⟩ := printDec_eq he
  refine ⟨hpid ▸ h.slots.pid_lt i p hp, ?_⟩
  intro j q hq hq'
  rcases reap_processes hr j with ⟨-, -, hnone⟩ | ⟨-, hsame⟩
  · exact absurd (hnone.symm.trans hq) (by simp)
  · rcases Scheduler.put_eq_some (hsame.symm.trans hq) with ⟨rfl, hq⟩ | ⟨hj, hq⟩
    · cases hq
      rfl
    · -- pids are distinct, so no other slot has it
      exact absurd (h.slots.pid_inj j i q p hq hp (hq'.trans hpid.symm)) hj

/-! ## The scheduling tick -/

theorem reachable_ready (h : Reachable b k) : k.schedulerReady = true := by
  obtain ⟨k₀, k₁, ops, -, hb, hr⟩ := h
  obtain ⟨p₁, ph₁, p₂, ph₂, s₁, s₂, p, screen, -, -, -, -, -, rfl⟩ := boot_cases hb
  exact @run_invariant _ _ _ (step b) (fun k => k.schedulerReady = true)
    (fun _ _ _ hI he => (step_life he).ready.trans hI) _ _ _ rfl hr

/-- some slot other than the current one holds a running process -/
def OtherRunning (k : Kernel) : Prop :=
  ∃ j q, j ≠ k.sched.current ∧ k.sched.processes j = some q ∧ q.state = .running

/-- the process on the CPU is the same one after its registers were saved -/
theorem onCpu_saveCurrent {f : TrapFrame} (hs : k'.sched = k.sched.saveCurrent f) : OnCpu pid k' ↔ OnCpu pid k := by
  unfold OnCpu Kernel.currentProcess
  rw [hs]
  rcases saveCurrent_cases k.sched f with ⟨p, hp, e⟩ | ⟨-, e⟩
  · rw [e, Scheduler.put_current, Scheduler.put_self, hp]
    simp
  · rw [e]

/-- a scheduling tick leaves the CPU to its process when no other process is running, and gives it to one that is
running otherwise -/
theorem tick_cases {f : TrapFrame} (hdue : k.Due) (he : step b k (.timer f) = .ok k') :
    (¬ OtherRunning k ∧ k'.sched = k.sched.saveCurrent f) ∨
      (OtherRunning k ∧ ∃ q, k'.currentProcess = some q ∧ q.state = .running) := by
  obtain ⟨r, hr, he⟩ := bind_ok.1 he
  cases he
  rcases timer_spec hr with ⟨hnot, -⟩ | ⟨-, hn, rfl⟩ | ⟨i, q, -, hn, hq, hrun, rfl⟩
  · exact absurd hdue hnot
  · refine Or.inl ⟨?_, rfl⟩
    rintro ⟨j, q, hj, hq, hrun⟩
    have hidle := Scheduler.nextRunning_eq_none.1 hn j (by rw [saveCurrent_current]; exact hj)
    rw [Bool.eq_false_iff] at hidle
    apply hidle
    rw [Scheduler.isRunning_iff, saveCurrent_of_ne f hj]
    exact ⟨q, hq, hrun⟩
  · have hi : i ≠ k.sched.current := by
      rw [← saveCurrent_current k.sched f]
      exact Scheduler.nextRunning_ne_current hn
    refine Or.inr ⟨⟨i, q, hi, ?_, hrun⟩, q, hq, hrun⟩
    rw [← saveCurrent_of_ne f hi]
    exact hq

/-- **Killed processes.** After `kill` has reported a pid killed, and whatever happens up to a scheduling tick, the process
is on the CPU in no state from this tick on if and only if at the tick it is not current or some other process is
running. -/
theorem killed_stops_iff (b : Boot) (k k₁ k₂ k₃ : Kernel) (args : Bytes) (pid : ℕ) (ops : List Op) (f : TrapFrame)
    (h : Reachable b k) (hk : KillReports b k args pid k₁) (hr : run (step b) k₁ ops = .ok k₂)
    (ht : (k₂.ticks + 1) % 5 = 0) (he : step b k₂ (.timer f) = .ok k₃) :
    (∀ later k₄, run (step b) k₃ later = .ok k₄ → ¬ OnCpu pid k₄) ↔ ¬ OnCpu pid k₂ ∨ OtherRunning k₂ := by
  have hkilled : Killed pid k₂ := run_killed (killReports_killed (reachable_table h) hk) hr
  have hready : k₂.schedulerReady = true := by
    have hk₁ : k₁.schedulerReady = true := (kill_life hk.2.2).ready.trans (reachable_ready h)
    exact @run_invariant _ _ _ (step b) (fun k => k.schedulerReady = true)
      (fun _ _ _ hI he => (step_life he).ready.trans hI) _ _ _ hk₁ hr
  have htick := tick_cases ⟨hready, ht⟩ he
  constructor
  · intro hall
    rcases htick with ⟨-, hs⟩ | ⟨hother, -⟩
    · refine Or.inl fun hon => ?_
      exact hall [] k₃ rfl ((onCpu_saveCurrent hs).2 hon)
    · exact Or.inr hother
  · intro hcond later k₄ hlater
    have hkilled₃ : Killed pid k₃ := hkilled.step (step_life he)
    have hoff : ¬ OnCpu pid k₃ := by
      rcases htick with ⟨hnone, hs⟩ | ⟨-, q, hq, hrun⟩
      · rw [onCpu_saveCurrent hs]
        exact hcond.resolve_right hnone
      · rintro ⟨p, hp, hpid⟩
        rw [hq] at hp
        cases hp
        rw [hkilled₃.dead _ q hq hpid] at hrun
        cases hrun
    exact (run_gone ⟨hkilled₃, hoff⟩ hlater).off

end

def demoFrame : TrapFrame := ⟨0, 0, 0, 0, 0, 0, 0, 0, 0, 0, 0, 0, 0, 0, 0, 0, 0x23, 0, 0, 0x1B⟩

def demoTicks (n : ℕ) : List Op := List.replicate n (.timer demoFrame)

/-- boot, some events, `kill 1`, four ticks and the one that schedules: the states before and after the kill and before
and after the last tick -/
def demoKill (pre : List Op) : Except Panic ((Kernel × Kernel) × Kernel × Kernel) :=
  boot demoBoot demoKernel >>= fun kb => run (step demoBoot) kb pre >>= fun k =>
  cmdKill demoBoot k [0x31] >>= fun k₁ => run (step demoBoot) k₁ (demoTicks 4) >>= fun k₂ =>
  step demoBoot k₂ (.timer demoFrame) >>= fun k₃ => .ok ((k, k₁), k₂, k₃)

theorem demoKill_ok {pre : List Op} {k k₁ k₂ k₃ : Kernel} (h : demoKill pre = .ok ((k, k₁), k₂, k₃)) :
    Reachable demoBoot k ∧ cmdKill demoBoot k [0x31] = .ok k₁ ∧ run (step demoBoot) k₁ (demoTicks 4) = .ok k₂ ∧
      step demoBoot k₂ (.timer demoFrame) = .ok k₃ := by
  obtain ⟨kb, hb, h⟩ := bind_ok.1 h
  obtain ⟨u, hu, h⟩ := bind_ok.1 h
  obtain ⟨u₁, hu₁, h⟩ := bind_ok.1 h
  obtain ⟨u₂, hu₂, h⟩ := bind_ok.1 h
  obtain ⟨u₃, hu₃, h⟩ := bind_ok.1 h
  cases h
  exact ⟨⟨demoKernel, kb, pre, demoStart, hb, hu⟩, hu₁, hu₂, hu₃⟩

/-- the slot of the pid holds a process that is not dead -/
def aliveIn (pid : ℕ) (k : Kernel) : Bool := (k.sched.findPid pid).any fun r => r.2.state ≠ .dead

theorem aliveIn_iff {pid : ℕ} {k : Kernel} :
    aliveIn pid k = true ↔ ∃ i p, k.sched.findPid pid = some (i, p) ∧ p.state ≠ .dead := by
  unfold aliveIn
  cases k.sched.findPid pid with
  | none => simp
  | some r =>
    obtain ⟨i, p⟩ := r
    simp

def onCpu (pid : ℕ) (k : Kernel) : Bool := k.currentProcess.any fun p => p.pid = pid

theorem onCpu_iff {pid : ℕ} {k : Kernel} : onCpu pid k = true ↔ OnCpu pid k := by
  unfold onCpu OnCpu
  cases k.currentProcess with
  | none => simp
  | some p => simp

/-- the first process, killed while it runs, leaves the CPU to the second one for good -/
theorem killed_stops_iff_demo : ∃ k k₁ k₂ k₃, Reachable demoBoot k ∧ KillReports demoBoot k [0x31] 1 k₁ ∧
    run (step demoBoot) k₁ (demoTicks 4) = .ok k₂ ∧ step demoBoot k₂ (.timer demoFrame) = .ok k₃ ∧ OnCpu 1 k₂ ∧
    ∀ later k₄, run (step demoBoot) k₃ later = .ok k₄ → ¬ OnCpu 1 k₄ := by
  obtain ⟨⟨⟨k, k₁⟩, k₂, k₃⟩, hrun, hP⟩ := endsWith_iff.1 (show endsWith (fun r => aliveIn 1 r.1.1 &&
    decide ((r.2.1.ticks + 1) % 5 = 0) && onCpu 1 r.2.1 && r.2.1.sched.isRunning 1 &&
    decide ((1 : Fin 64) ≠ r.2.1.sched.current)) (demoKill []) = true by decide +kernel)
  simp only [Bool.and_eq_true, decide_eq_true_eq] at hP
  obtain ⟨⟨⟨⟨halive, ht⟩, hon⟩, hother⟩, hne⟩ := hP
  obtain ⟨hreach, hk, hr, he⟩ := demoKill_ok hrun
  obtain ⟨q, hq, hrunning⟩ := Scheduler.isRunning_iff.1 hother
  have hreports : KillReports demoBoot k [0x31] 1 k₁ := ⟨by decide, aliveIn_iff.1 halive, hk⟩
  exact ⟨k, k₁, k₂, k₃, hreach, hreports, hr, he, onCpu_iff.1 hon,
    (killed_stops_iff demoBoot k k₁ k₂ k₃ [0x31] 1 _ demoFrame hreach hreports hr ht he).2
      (Or.inr ⟨1, q, hne, hq, hrunning⟩)⟩

/-- with the second process killed first, the first one is killed and keeps the CPU through the scheduling tick -/
theorem killed_keeps_cpu : ∃ k k₁ k₂ k₃, Reachable demoBoot k ∧ KillReports demoBoot k [0x31] 1 k₁ ∧
    run (step demoBoot) k₁ (demoTicks 4) = .ok k₂ ∧ (k₂.ticks + 1) % 5 = 0 ∧
    step demoBoot k₂ (.timer demoFrame) = .ok k₃ ∧ OnCpu 1 k₃ := by
  obtain ⟨⟨⟨k, k₁⟩, k₂, k₃⟩, hrun, hP⟩ := endsWith_iff.1 (show endsWith (fun r => aliveIn 1 r.1.1 &&
    decide ((r.2.1.ticks + 1) % 5 = 0) && onCpu 1 r.2.2) (demoKill [.kill [0x32]]) = true by decide +kernel)
  simp only [Bool.and_eq_true, decide_eq_true_eq] at hP
  obtain ⟨⟨halive, ht⟩, hon⟩ := hP
  obtain ⟨hreach, hk, hr, he⟩ := demoKill_ok hrun
  exact ⟨k, k₁, k₂, k₃, hreach, ⟨by decide, aliveIn_iff.1 halive, hk⟩, hr, ht, he, onCpu_iff.1 hon⟩

/-! ## Dead slots -/

/-- slot i holds a dead process -/
def DeadAt (k : Kernel) (i : Fin 64) : Prop := ∃ p, k.sched.processes i = some p ∧ p.state = .dead

section

variable {b : Boot} {k k' : Kernel} {o : Op}

/-- only the two events that mark the current process leave a dead one -/
theorem LifeStep.noDead (hl : LifeStep b k o k') (h : ∀ i, ¬ DeadAt k i) (ho : ¬ LeavesDead k o) : ∀ i, ¬ DeadAt k' i := by
  rintro i ⟨q, hq, hdead⟩
  cases hl.slot i q hq with
  | same p hp hid hs => exact h i ⟨p, hp, hs.symm.trans hdead⟩
  | died p hp hid hs hl => exact ho hl
  | new prog ph hnew => rw [(processNew_alive hnew).2] at hdead; cases hdead

theorem boot_noDead {k₀ : Kernel} (hs : Start b k₀) (hb : boot b k₀ = .ok k) : ∀ i, ¬ DeadAt k i := by
  obtain ⟨p₁, ph₁, p₂, ph₂, s₁, s₂, p, screen, h₁, h₂, h₃, h₄, -, rfl⟩ := boot_cases hb
  rintro i ⟨q, hq, hdead⟩
  rcases Scheduler.addProcess_slot h₄ hq with rfl | hq
  · rw [(processNew_alive h₂).2] at hdead
    cases hdead
  · rcases Scheduler.addProcess_slot h₃ hq with rfl | hq
    · rw [(processNew_alive h₁).2] at hdead
      cases hdead
    · rw [hs.sched] at hq
      cases hq

/-- a switch of the timer changes the state of no process -/
theorem switch_dead {f : TrapFrame} (he : step b k (.timer f) = .ok k') (hsw : k'.sched.current ≠ k.sched.current) :
    (∀ i, i ≠ k'.sched.current → ¬ DeadAt k' i) ↔ ∀ i, ¬ DeadAt k i := by
  have hlife := step_life he
  constructor
  · intro h i hd
    obtain ⟨r, hr, he⟩ := bind_ok.1 he
    cases he
    obtain ⟨g, s, e⟩ := k.ticked_eq
    rcases timer_cases hr with rfl | rfl | ⟨j, q, hj, hq, hrun, rfl⟩
    · rw [e] at hsw
      exact hsw rfl
    · exact hsw (saveCurrent_current k.sched f)
    · obtain ⟨p, hp, hdead⟩ := hd
      -- the dead process is in the slot it was in, and that is not the slot of the running one
      have hslot : ∃ p', (k.sched.saveCurrent f).processes i = some p' ∧ p'.state = .dead := by
        by_cases hi : i = k.sched.current
        · subst hi
          rcases saveCurrent_cases k.sched f with ⟨p', hp', e'⟩ | ⟨hnone, -⟩
          · rw [hp'] at hp
            cases hp
            rw [e', Scheduler.put_self]
            exact ⟨_, rfl, hdead⟩
          · rw [hnone] at hp
            cases hp
        · rw [saveCurrent_of_ne f hi]
          exact ⟨p, hp, hdead⟩
      obtain ⟨p', hp', hdead'⟩ := hslot
      refine h i ?_ ⟨p', hp', hdead'⟩
      rintro rfl
      rw [show (k.sched.saveCurrent f).processes i = some q from hq] at hp'
      cases hp'
      rw [hrun] at hdead'
      cases hdead'
  · intro h i _
    exact hlife.noDead h (fun hf => hf) i

/-- **Dead slots.** In every state of a run from boot, a switch of the timer leaves no dead process in another slot if and
only if there was none in the table before it. In a run in which no process exits and none is killed while it is
current there never is one, and `spawn` finds the table full only when each of the 64 slots holds a live process. -/
theorem dead_slots_iff (b : Boot) (k₀ k₁ k : Kernel) (ops : List Op) (hs : Start b k₀) (hb : boot b k₀ = .ok k₁)
    (hr : run (step b) k₁ ops = .ok k) :
    (∀ f k', step b k (.timer f) = .ok k' → k'.sched.current ≠ k.sched.current →
      ((∀ i, i ≠ k'.sched.current → ¬ DeadAt k' i) ↔ ∀ i, ¬ DeadAt k i)) ∧
    (Along b (fun k o => ¬ LeavesDead k o) k₁ ops → (∀ i, ¬ DeadAt k i) ∧
      (64 ≤ k.sched.count → ∀ i, ∃ p, k.sched.processes i = some p ∧ p.state ≠ .dead)) := by
  refine ⟨fun f k' he hsw => switch_dead he hsw, fun ha => ?_⟩
  have hnone : ∀ i, ¬ DeadAt k i :=
    @run_along b _ (fun k => ∀ i, ¬ DeadAt k i) (fun k o k' hI ho he => (step_life he).noDead hI ho) k₁ k ops
      (boot_noDead hs hb) ha hr
  refine ⟨hnone, fun hfull i => ?_⟩
  have htable := (reachable_table ⟨k₀, k₁, ops, hs, hb, hr⟩).slots
  have hall : k.sched.occupied = Finset.univ := by
    apply Finset.eq_univ_of_card
    rw [← htable.count, Fintype.card_fin]
    exact le_antisymm (htable.count ▸ k.sched.occupied_le) hfull
  have hi : i ∈ k.sched.occupied := hall ▸ Finset.mem_univ i
  obtain ⟨p, hp⟩ := Option.isSome_iff_exists.1 (Scheduler.mem_occupied.1 hi)
  exact ⟨p, hp, fun hdead => hnone i ⟨p, hp, hdead⟩⟩

end

/-- boot, some events, and the scheduling tick: the states after the boot and before and after the tick -/
def demoSwitch (ops : List Op) : Except Panic (Kernel × Kernel × Kernel) :=
  boot demoBoot demoKernel >>= fun k₁ => run (step demoBoot) k₁ ops >>= fun k =>
  step demoBoot k (.timer demoFrame) >>= fun k' => .ok (k₁, k, k')

theorem demoSwitch_ok {ops : List Op} {k₁ k k' : Kernel} (h : demoSwitch ops = .ok (k₁, k, k')) :
    boot demoBoot demoKernel = .ok k₁ ∧ run (step demoBoot) k₁ ops = .ok k ∧
      step demoBoot k (.timer demoFrame) = .ok k' := by
  obtain ⟨u₁, hb, h⟩ := bind_ok.1 h
  obtain ⟨u, hu, h⟩ := bind_ok.1 h
  obtain ⟨u', hu', h⟩ := bind_ok.1 h
  cases h
  exact ⟨hb, hu, hu'⟩

theorem along_ticks (b : Boot) (k : Kernel) (n : ℕ) : Along b (fun k o => ¬ LeavesDead k o) k (demoTicks n) := by
  induction n generalizing k with
  | zero => trivial
  | succ n ih => exact ⟨fun hf => hf, fun k' _ => ih k'⟩

theorem dead_slots_iff_demo : ∃ k₁ k k', boot demoBoot demoKernel = .ok k₁ ∧
    run (step demoBoot) k₁ (demoTicks 4) = .ok k ∧ step demoBoot k (.timer demoFrame) = .ok k' ∧
    k'.sched.current ≠ k.sched.current ∧ ∀ i, i ≠ k'.sched.current → ¬ DeadAt k' i := by
  obtain ⟨⟨k₁, k, k'⟩, hrun, hP⟩ := endsWith_iff.1 (show endsWith (fun r => decide (r.2.2.sched.current ≠
    r.2.1.sched.current)) (demoSwitch (demoTicks 4)) = true by decide +kernel)
  have hsw : k'.sched.current ≠ k.sched.current := of_decide_eq_true hP
  obtain ⟨hb, hr, he⟩ := demoSwitch_ok hrun
  obtain ⟨hiff, halong⟩ := dead_slots_iff demoBoot demoKernel k₁ k _ demoStart hb hr
  exact ⟨k₁, k, k', hb, hr, he, hsw, (hiff demoFrame k' he hsw).2 (halong (along_ticks demoBoot k₁ 4)).1⟩

def demoContext : Context := ⟨0, 0, 0, 0, 0, 0, 0, 0, 0, 0, 0, 0, 0, 0, 0, 0, 0, 0, 0, 0, 0, 0⟩

/-- the first process calls exit; the timer switches to the second one and the dead process is still in its slot, with
its stack page marked used -/
theorem exit_slot_kept : ∃ k₁ k k' p, boot demoBoot demoKernel = .ok k₁ ∧
    run (step demoBoot) k₁ (.syscall 60 0 0 0 demoContext :: demoTicks 4) = .ok k ∧
    step demoBoot k (.timer demoFrame) = .ok k' ∧ k.sched.current = 0 ∧ k'.sched.current = 1 ∧
    k'.sched.processes 0 = some p ∧ p.state = .dead ∧ bit k'.phys.pmm (p.userStackPhys / 4096) = true := by
  obtain ⟨⟨k₁, k, k'⟩, hrun, hP⟩ := endsWith_iff.1 (show endsWith (fun r => decide (r.2.1.sched.current = 0) &&
    decide (r.2.2.sched.current = 1) && (r.2.2.sched.processes 0).any fun p => decide (p.state = .dead) &&
      bit r.2.2.phys.pmm (p.userStackPhys / 4096))
    (demoSwitch (.syscall 60 0 0 0 demoContext :: demoTicks 4)) = true by decide +kernel)
  simp only [Bool.and_eq_true, decide_eq_true_eq, Option.any_eq_true] at hP
  obtain ⟨⟨hcur, hcur'⟩, p, hp, hdead, hbit⟩ := hP
  obtain ⟨hb, hr, he⟩ := demoSwitch_ok hrun
  exact ⟨k₁, k, k', p, hb, hr, he, hcur, hcur', hp, hdead, hbit⟩

end Tomorrow
