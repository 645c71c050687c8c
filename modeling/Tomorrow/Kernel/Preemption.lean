/-
Preemption is transparent: runs of user programs, the kernel and timer ticks on one CPU.

A program in ring 3 may change its registers in any way, and the kernel may take any step for it or for the shell; ticks
come at any point. Between two ticks the process that runs does not change, as long as no process yields. Every other
process in the table waits: with the registers it had when a tick last took the CPU from it (`Waiting.preempted`), or
with the context that `Process::new` built for it (`Waiting.fresh`). `waiting` follows this through every event of a run;
`preemption_transparent` reads it at the tick that resumes the process.
-/
import Tomorrow.Core.History
import Tomorrow.Kernel.FileStep
import Tomorrow.Kernel.UserMappings
import Tomorrow.Kernel.TimerAsm

namespace Tomorrow

open Tomorrow.Core Files Sched Shell Vmm

/-! ## Events -/

inductive Event where
  /-- the program that runs changes its registers -/
  | user (c : Cpu)
  /-- a step of the kernel, with the registers and the stack it leaves behind -/
  | kernel (o : Op) (c : Cpu) (stack : ℕ → ℕ)
  | tick (c : Clobber)

def mstep (b : Boot) (L : TableLayout) (m : Machine) : Event → Except Panic Machine
  | .user c => .ok { m with cpu := c }
  | .kernel o c stack => step b m.k o >>= fun k => .ok ⟨c, stack, k⟩
  | .tick c => timerHandlerAsm L m c

/-- the event goes back to the process that was running -/
def Op.Returns : Op → Prop
  | .timer _ => False
  | .syscall nr _ _ _ _ => nr.toNat ≠ sysYieldNr
  | _ => True

/-- programs stay in ring 3, and nothing but a tick switches -/
def Event.Allowed : Event → Prop
  | .user c => c.cs &&& 3 = 3
  | .kernel o c _ => o.Returns ∧ c.cs &&& 3 = 3
  | .tick _ => True

/-- the process with this pid has the CPU -/
def Machine.Runs (pid : ℕ) (m : Machine) : Prop := ∃ p, m.k.currentProcess = some p ∧ p.pid = pid

/-! ## Steps of the kernel -/

/-- q in slot j after an event: the process that was there, with the registers saved for it, or a new one -/
inductive SlotStep (b : Boot) (k : Kernel) (j : Fin 64) (q : Process) : Prop where
  | same (p : Process) (hp : k.sched.processes j = some p) (hid : SameIdentity p q) (hc : q.context = p.context)
  | new (prog : Program) (ph : Phys)
      (hnew : processNew b.pml4 k.phys k.nextPid syscallMask (b.entry prog) prog.grants = .ok (q, ph))

section

variable {b : Boot} {k k' : Kernel} {i j : Fin 64} {p q r : Process}

theorem SlotStep.refl (hq : k.sched.processes j = some q) : SlotStep b k j q := .same q hq ⟨rfl, rfl, rfl, rfl⟩ rfl

/-- one process changed, in its files or its state -/
theorem SlotStep.put (hp : k.sched.processes i = some p) (hq : (k.sched.put i (some r)).processes j = some q)
    (hid : SameIdentity p r) (hc : r.context = p.context) : SlotStep b k j q := by
  rcases Scheduler.put_eq_some hq with ⟨rfl, hr⟩ | ⟨-, hq⟩
  · cases hr
    exact .same p hp hid hc
  · exact .refl hq

theorem slot_syscall {nr a1 a2 a3 : ℕ} {regs : Context} (hnr : nr ≠ sysYieldNr)
    (he : (syscallHandler k nr a1 a2 a3 regs).next = .ok k') :
    k'.sched.current = k.sched.current ∧ ∀ j q, k'.sched.processes j = some q → SlotStep b k j q := by
  have heff := syscall_effect k a1 a2 a3 regs nr
  generalize syscallHandler k nr a1 a2 a3 regs = o at heff he
  cases heff with
  | error nr e => cases he; exact ⟨rfl, fun j q hq => .refl hq⟩
  | stdout p hp hr => cases he; exact ⟨rfl, fun j q hq => .refl hq⟩
  | write p f data stop hp hr hfd hperm hw =>
    cases he
    exact ⟨rfl, fun j q hq => .put hp hq ⟨rfl, rfl, rfl, rfl⟩ rfl⟩
  | opened p need inode fd fds hp => cases he; exact ⟨rfl, fun j q hq => .put hp hq ⟨rfl, rfl, rfl, rfl⟩ rfl⟩
  | read p f hp hr hfd hperm => cases he; exact ⟨rfl, fun j q hq => .put hp hq ⟨rfl, rfl, rfl, rfl⟩ rfl⟩
  | closed p f hp hfd => cases he; exact ⟨rfl, fun j q hq => .put hp hq ⟨rfl, rfl, rfl, rfl⟩ rfl⟩
  | exited p hp => cases he; exact ⟨rfl, fun j q hq => .put hp hq ⟨rfl, rfl, rfl, rfl⟩ rfl⟩
  | stayed => exact absurd rfl hnr
  | switched p q i hp hi hq hrun => exact absurd rfl hnr

theorem slot_spawn {args : Bytes} (he : cmdSpawn b k args = .ok k') :
    k'.sched.current = k.sched.current ∧ ∀ j q, k'.sched.processes j = some q → SlotStep b k j q := by
  rcases spawn_cases he with ⟨s, rfl⟩ | ⟨prog, p, ph, sched, screen, -, hnew, hadd, rfl⟩
  · exact ⟨rfl, fun j q hq => .refl hq⟩
  · refine ⟨addProcess_current hadd, fun j q hq => ?_⟩
    rcases Scheduler.addProcess_slot hadd hq with rfl | hq
    · exact .new prog ph hnew
    · exact .refl hq

theorem slot_kill {args : Bytes} (he : cmdKill b k args = .ok k') :
    k'.sched.current = k.sched.current ∧ ∀ j q, k'.sched.processes j = some q → SlotStep b k j q := by
  rcases kill_cases he with ⟨s, rfl⟩ | ⟨i, p, r, screen, hp, -, hr, rfl⟩
  · exact ⟨rfl, fun j q hq => .refl hq⟩
  · refine ⟨reap_current hr, fun j q hq => ?_⟩
    rcases reap_processes hr j with ⟨-, -, hnone⟩ | ⟨-, hsame⟩
    · exact absurd (hnone.symm.trans hq) (by simp)
    · exact .put hp (hsame.symm.trans hq) ⟨rfl, rfl, rfl, rfl⟩ rfl

/-- an event other than a switch leaves the CPU with its process and the saved registers as they are -/
theorem slot_step {o : Op} (ho : o.Returns) (he : step b k o = .ok k') :
    k'.sched.current = k.sched.current ∧ ∀ j q, k'.sched.processes j = some q → SlotStep b k j q := by
  cases o with
  | syscall nr a1 a2 a3 regs => exact slot_syscall ho he
  | store addr v => cases he; exact ⟨rfl, fun j q hq => .refl hq⟩
  | spawn args => exact slot_spawn he
  | kill args => exact slot_kill he
  | write args | create args | rm args =>
    obtain ⟨fs, s, rfl⟩ := step_onFiles rfl he
    exact ⟨rfl, fun j q hq => .refl hq⟩
  | timer f => exact ho.elim
  | allocPage =>
    obtain ⟨r, -, he⟩ := bind_ok.1 he
    cases he
    exact ⟨rfl, fun j q hq => .refl hq⟩

end

/-! ## Ticks -/

/-- the two kinds of tick: the process keeps the CPU, or it goes to the process in slot i -/
inductive TickStep (m m' : Machine) : Prop where
  | stays (hs : m'.k.sched = m.k.sched ∨ m'.k.sched = m.k.sched.saveCurrent m.cpu.frame) (hcpu : m'.cpu = m.cpu.forced)
  | switches (i : Fin 64) (q : Process) (hi : i ≠ m.k.sched.current) (hq : m.k.sched.processes i = some q)
      (hs : m'.k.sched = { m.k.sched.saveCurrent m.cpu.frame with current := i }) (hcpu : m'.cpu = Cpu.ofContext q.context)

theorem tick_step {L : TableLayout} {m m' : Machine} {c : Clobber} (hlow : StacksLow m.k)
    (h : timerHandlerAsm L m c = .ok m') : TickStep m m' ∧ ∃ r, timerDoSwitch m.k m.cpu.frame = .ok r ∧ m'.k = r.1 := by
  obtain ⟨r, hr, hk, hcpu⟩ := timer_asm hlow h
  obtain ⟨g, s, e⟩ := m.k.ticked_eq
  refine ⟨?_, r, hr, hk⟩
  rcases timer_cases hr with rfl | rfl | ⟨i, q, hi, hq, -, rfl⟩
  · exact .stays (Or.inl (by rw [hk, e])) hcpu
  · exact .stays (Or.inr (by rw [hk])) hcpu
  · exact .switches i q hi ((saveCurrent_of_ne _ hi).symm.trans hq) (by rw [hk]) hcpu

/-- the registers saved at a tick are those of the program -/
theorem ofContext_saveFrame (c : Context) (u : Cpu) : Cpu.ofContext (saveFrame c u.frame) = u := by
  have hgpr : (saveFrame c u.frame).gpr = u.gpr := by
    funext r
    cases r <;> rfl
  unfold Cpu.ofContext
  rw [hgpr]
  rfl

/-! ## The machine -/

/-- the kernel stack of a process is its page, its context names it and returns to ring 3 -/
structure Resumable (p : Process) : Prop where
  top : p.kernelStack = p.kernelStackPhys + 4096
  context : p.context.kernelStack = p.kernelStack
  ring3 : p.context.cs &&& 3 = 3

structure MachineInv (b : Boot) (m : Machine) : Prop where
  table : TableInv b m.k
  processes : AllProcesses Resumable m.k.sched
  ring3 : m.cpu.cs &&& 3 = 3

section

variable {b : Boot} {L : TableLayout} {m m' : Machine} {p q : Process}

theorem Resumable.saved (h : Resumable p) {u : Cpu} (hu : u.cs &&& 3 = 3) :
    Resumable { p with context := saveFrame p.context u.frame } := ⟨h.top, h.context, hu⟩

theorem processNew_resumable {pid mask entry : ℕ} {ph ph' : Phys} {grants : List Grant}
    (hr : Pmm.Reserved b.toImage ph.pmm) (h : processNew b.pml4 ph pid mask entry grants = .ok (p, ph')) :
    Resumable p := by
  obtain ⟨-, htop, -⟩ := processNew_spec hr h
  obtain ⟨stack, m₁, ustack, m₂, usv, off, ucv, s₁, -, -, -, -, -, -, -, rfl⟩ := processNew_cases h
  exact ⟨htop, rfl, (by decide : 0x23 &&& 3 = 3)⟩

theorem SlotStep.resumable {k : Kernel} {j : Fin 64} (h : SlotStep b k j q) (ht : TableInv b k)
    (hall : AllProcesses Resumable k.sched) : Resumable q := by
  cases h with
  | same p hp hid hc =>
    obtain ⟨h1, h2, h3⟩ := hall j p hp
    exact ⟨by rw [hid.kernelStack, hid.kernelStackPhys, h1], by rw [hc, hid.kernelStack, h2], by rw [hc, h3]⟩
  | new prog ph hnew => exact processNew_resumable ht.slots.reserved hnew

theorem saveCurrent_resumable (h : MachineInv b m) : AllProcesses Resumable (m.k.sched.saveCurrent m.cpu.frame) := by
  rcases saveCurrent_cases m.k.sched m.cpu.frame with ⟨p, hp, e⟩ | ⟨-, e⟩
  · rw [e]
    exact h.processes.put ((h.processes _ p hp).saved h.ring3)
  · rw [e]
    exact h.processes

/-- the stacks are pages of the allocator, far below the higher half -/
theorem MachineInv.low (h : MachineInv b m) : StacksLow m.k := by
  have hlow : ∀ i p, m.k.sched.processes i = some p → 4096 ≤ p.kernelStack ∧ p.kernelStack ≤ kernelVirt := by
    intro i p hp
    have hlt := (h.table.slots.pages.frames i p hp).1.lt
    rw [(h.processes i p hp).top]
    unfold kernelVirt
    omega
  obtain ⟨p, hp, hrsp⟩ := h.table.current
  constructor
  · have := hlow _ p hp
    rw [hrsp]
    omega
  · intro i p hp
    have := hlow i p hp
    rw [(h.processes i p hp).context]
    omega

theorem mstep_inv {e : Event} (h : MachineInv b m) (ha : e.Allowed) (he : mstep b L m e = .ok m') : MachineInv b m' := by
  cases e with
  | user c => cases he; exact ⟨h.table, h.processes, ha⟩
  | kernel o c stack =>
    obtain ⟨k, hk, he⟩ := bind_ok.1 he
    cases he
    exact ⟨step_table h.table hk, fun j q hq => ((slot_step ha.1 hk).2 j q hq).resumable h.table h.processes, ha.2⟩
  | tick c =>
    obtain ⟨hstep, r, hr, hk⟩ := tick_step h.low he
    have htable : TableInv b m'.k := by rw [hk]; exact h.table.timer hr
    have hsaved := saveCurrent_resumable h
    cases hstep with
    | stays hs hcpu =>
      refine ⟨htable, ?_, ?_⟩
      · rcases hs with hs | hs
        · rw [hs]; exact h.processes
        · rw [hs]; exact hsaved
      · rw [hcpu]; exact h.ring3
    | switches i q hi hq hs hcpu =>
      refine ⟨htable, ?_, ?_⟩
      · rw [hs]; exact hsaved
      · rw [hcpu]; exact (h.processes i q hq).ring3

theorem mstep_nextPid {e : Event} (h : MachineInv b m) (he : mstep b L m e = .ok m') : m.k.nextPid ≤ m'.k.nextPid := by
  cases e with
  | user c => cases he; exact le_refl _
  | kernel o c stack =>
    obtain ⟨k, hk, he⟩ := bind_ok.1 he
    cases he
    exact step_nextPid hk
  | tick c =>
    obtain ⟨-, r, hr, hk⟩ := tick_step h.low he
    rw [hk]
    exact (timer_kept hr).2.2.2.ge

/-- a process in another slot does not run -/
theorem MachineInv.not_runs (h : MachineInv b m) {j : Fin 64} (hj : j ≠ m.k.sched.current)
    (hq : m.k.sched.processes j = some q) : ¬ m.Runs q.pid := by
  rintro ⟨p, hp, hpid⟩
  exact hj (h.table.slots.pid_inj j _ q p hq hp hpid.symm)

end

/-! ## The processes that wait -/

/-- the context that `Process::new` builds for this pid -/
def Built (b : Boot) (pid : ℕ) (c : Context) : Prop :=
  ∃ ph prog grants p ph', processNew b.pml4 ph pid syscallMask (b.entry prog) grants = .ok (p, ph') ∧ p.context = c

/-- the registers saved for a process that does not run, after the events es -/
inductive Waiting (b : Boot) (L : TableLayout) (m₀ : Machine) (es : List Event) (q : Process) : Prop where
  /-- it ran last in state u, and a tick came -/
  | preempted (t : ℕ) (u : Machine) (c : Clobber) (hlast : LastAt (mstep b L) m₀ es (Machine.Runs q.pid) t u)
      (htick : es[t]? = some (.tick c)) (hsaved : Cpu.ofContext q.context = u.cpu)
  | fresh (hnever : NeverAt (mstep b L) m₀ es (Machine.Runs q.pid)) (hnew : Built b q.pid q.context)

/-- the state after a run, with its past -/
structure Trace (b : Boot) (L : TableLayout) (m₀ : Machine) (es : List Event) (m : Machine) : Prop where
  inv : MachineInv b m
  pids : ∀ t u pid, At (mstep b L) m₀ es t u → u.Runs pid → pid < m.k.nextPid
  waiting : ∀ j q, j ≠ m.k.sched.current → m.k.sched.processes j = some q → Waiting b L m₀ es q

section

variable {b : Boot} {L : TableLayout} {m₀ m m' : Machine} {es : List Event} {e : Event} {p q : Process}

theorem Waiting.keep (h : Waiting b L m₀ es p) (hr : run (mstep b L) m₀ es = .ok m) (he : mstep b L m e = .ok m')
    (hpid : q.pid = p.pid) (hctx : q.context = p.context) (hnot : ¬ m'.Runs q.pid) : Waiting b L m₀ (es ++ [e]) q := by
  rw [hpid] at hnot
  cases h with
  | preempted t u c hlast htick hsaved =>
    refine .preempted t u c (hpid ▸ hlast.keep hr he hnot) ?_ (by rw [hctx]; exact hsaved)
    rw [List.getElem?_append_left (List.getElem?_eq_some_iff.1 htick).1]
    exact htick
  | fresh hnever hnew => exact .fresh (hpid ▸ hnever.keep hr he hnot) (by rw [hpid, hctx]; exact hnew)

/-- the process that a tick takes the CPU from -/
theorem waiting_preempted {c : Clobber} (hr : run (mstep b L) m₀ es = .ok m) (he : mstep b L m (.tick c) = .ok m')
    (hp : m.k.currentProcess = some p) (hnot : ¬ m'.Runs p.pid) :
    Waiting b L m₀ (es ++ [.tick c]) { p with context := saveFrame p.context m.cpu.frame } := by
  have hlast : LastAt (mstep b L) m₀ es (Machine.Runs p.pid) es.length m := LastAt.now hr ⟨p, hp, rfl⟩
  exact .preempted es.length m c (hlast.keep hr he hnot) (by simp) (ofContext_saveFrame _ _)

theorem waiting_new {k : Kernel} {o : Op} {c : Cpu} {stack : ℕ → ℕ} (h : Trace b L m₀ es m)
    (hr : run (mstep b L) m₀ es = .ok m) (hk : step b m.k o = .ok k) (hnot : ¬ Machine.Runs q.pid ⟨c, stack, k⟩)
    {prog : Program} {ph : Phys}
    (hnew : processNew b.pml4 m.k.phys m.k.nextPid syscallMask (b.entry prog) prog.grants = .ok (q, ph)) :
    Waiting b L m₀ (es ++ [.kernel o c stack]) q := by
  have hpid : q.pid = m.k.nextPid := (processNew_spec h.inv.table.slots.reserved hnew).1
  have hnever : NeverAt (mstep b L) m₀ es (Machine.Runs q.pid) := fun t u hat hruns =>
    absurd (h.pids t u _ hat hruns) (by rw [hpid]; exact lt_irrefl _)
  have he : mstep b L m (.kernel o c stack) = .ok ⟨c, stack, k⟩ := bind_ok.2 ⟨k, hk, rfl⟩
  exact .fresh (hnever.keep hr he hnot) ⟨_, prog, _, q, ph, hpid ▸ hnew, rfl⟩

/-- after a tick, the slot that had the CPU holds the saved registers and every other slot is as before -/
theorem waiting_tick {c : Clobber} {j : Fin 64} (h : Trace b L m₀ es m) (hr : run (mstep b L) m₀ es = .ok m)
    (he : mstep b L m (.tick c) = .ok m') (hj : j ≠ m'.k.sched.current) (hq : m'.k.sched.processes j = some q)
    (hnot : ¬ m'.Runs q.pid) : Waiting b L m₀ (es ++ [.tick c]) q := by
  obtain ⟨p, hp, -⟩ := h.inv.table.current
  have hother : ∀ {s : Scheduler}, (s = m.k.sched ∨ s = m.k.sched.saveCurrent m.cpu.frame) → j ≠ m.k.sched.current →
      s.processes j = some q → Waiting b L m₀ (es ++ [.tick c]) q := by
    intro s hs hj hq
    refine (h.waiting j q hj ?_).keep hr he rfl rfl hnot
    rcases hs with rfl | rfl
    · exact hq
    · rw [← saveCurrent_of_ne m.cpu.frame hj]; exact hq
  have hsaved := saveCurrent_cases m.k.sched m.cpu.frame
  cases (tick_step h.inv.low he).1 with
  | stays hs hcpu =>
    have hcur : m'.k.sched.current = m.k.sched.current := by
      rcases hs with hs | hs
      · rw [hs]
      · rcases hsaved with ⟨r, -, e⟩ | ⟨-, e⟩
        · rw [hs, e]; rfl
        · rw [hs, e]
    exact hother hs (hcur ▸ hj) hq
  | switches i r hi hr' hs hcpu =>
    rw [hs] at hq hj
    by_cases hjc : j = m.k.sched.current
    · subst hjc
      rcases hsaved with ⟨p', hp', e⟩ | ⟨hnone, -⟩
      · cases (hp.symm.trans hp')
        rw [e] at hq
        dsimp only at hq
        rw [Scheduler.put_self] at hq
        cases hq
        exact waiting_preempted hr he hp hnot
      · exact absurd (hnone.symm.trans hp) (by simp)
    · exact hother (Or.inr rfl) hjc hq

/-- one event -/
theorem Trace.snoc (h : Trace b L m₀ es m) (hr : run (mstep b L) m₀ es = .ok m) (ha : e.Allowed)
    (he : mstep b L m e = .ok m') : Trace b L m₀ (es ++ [e]) m' := by
  have hinv := mstep_inv h.inv ha he
  refine ⟨hinv, ?_, ?_⟩
  · intro t u pid hat hruns
    rcases (at_snoc hr he).1 hat with hat | ⟨-, rfl⟩
    · exact lt_of_lt_of_le (h.pids t u pid hat hruns) (mstep_nextPid h.inv he)
    · obtain ⟨p, hp, rfl⟩ := hruns
      exact hinv.table.slots.pid_lt _ p hp
  · intro j q hj hq
    have hnot := hinv.not_runs hj hq
    cases e with
    | user c =>
      cases he
      exact (h.waiting j q hj hq).keep hr rfl rfl rfl hnot
    | kernel o c stack =>
      obtain ⟨k, hk, hm⟩ := bind_ok.1 he
      cases hm
      obtain ⟨hcur, hslots⟩ := slot_step ha.1 hk
      cases hslots j q hq with
      | same p hp hid hc => exact (h.waiting j p (hcur ▸ hj) hp).keep hr he hid.pid hc hnot
      | new prog ph hnew => exact waiting_new h hr hk hnot hnew
    | tick c => exact waiting_tick h hr he hj hq hnot

end

/-! ## Runs from the first process -/

/-- the end of boot: a return to ring 3 with whatever the general registers hold; the kernel stack is in the TSS -/
def startFirstProcessRing3 (k : Kernel) (gpr : Reg → ℕ) (stack : ℕ → ℕ) : Except Panic Machine :=
  match k.sched.processes 0 with
  | some p => .ok ⟨⟨gpr, p.context.rip, 0x23, 0x202, p.userStack, 0x1B⟩, stack, k⟩
  | none => .error (.expect "called `Option::unwrap()` on a `None` value")

theorem startFirst_cases {k : Kernel} {gpr : Reg → ℕ} {stack : ℕ → ℕ} {m : Machine}
    (h : startFirstProcessRing3 k gpr stack = .ok m) : m.k = k ∧ m.cpu.cs = 0x23 := by
  unfold startFirstProcessRing3 at h
  cases hp : k.sched.processes 0 with
  | none => rw [hp] at h; cases h
  | some p => rw [hp] at h; cases h; exact ⟨rfl, rfl⟩

section

variable {b : Boot} {L : TableLayout} {k₀ k₁ : Kernel} {gpr : Reg → ℕ} {stack : ℕ → ℕ} {m₀ m m' : Machine} {es : List Event}

/-- the two processes of boot -/
theorem boot_built (hs : Start b k₀) (hb : boot b k₀ = .ok k₁) :
    AllProcesses (fun p => Resumable p ∧ Built b p.pid p.context) k₁.sched := by
  obtain ⟨p₁, ph₁, p₂, ph₂, s₁, s₂, p, screen, h₁, h₂, h₃, h₄, -, rfl⟩ := boot_cases hb
  obtain ⟨hpid₁, -, -, -, -, hmono⟩ := processNew_spec hs.reserved h₁
  have hr₁ : Pmm.Reserved b.toImage ph₁.pmm := fun q hq hk => hmono q (hs.reserved q hq hk)
  have hpid₂ := (processNew_spec hr₁ h₂).1
  have h0 : AllProcesses (fun p => Resumable p ∧ Built b p.pid p.context) k₀.sched := by
    rw [hs.sched]
    intro i p hp
    cases hp
  refine addProcess_fresh (addProcess_fresh h0 ⟨processNew_resumable hs.reserved h₁, ?_⟩ h₃)
    ⟨processNew_resumable hr₁ h₂, ?_⟩ h₄
  · exact ⟨_, .a, [], p₁, ph₁, hpid₁ ▸ h₁, rfl⟩
  · exact ⟨_, .b, [], p₂, ph₂, hpid₂ ▸ h₂, rfl⟩

theorem start_trace (hs : Start b k₀) (hb : boot b k₀ = .ok k₁) (h0 : startFirstProcessRing3 k₁ gpr stack = .ok m₀) :
    Trace b L m₀ [] m₀ := by
  obtain ⟨hk, hcs⟩ := startFirst_cases h0
  have hinv : MachineInv b m₀ := by
    refine ⟨hk ▸ boot_table hs hb, ?_, by rw [hcs]; decide⟩
    rw [hk]
    exact fun i p hp => (boot_built hs hb i p hp).1
  refine ⟨hinv, fun t u pid hat hruns => ?_, fun j q hj hq => .fresh (fun t u hat => ?_) ?_⟩
  · obtain ⟨-, rfl⟩ := at_nil hat
    obtain ⟨p, hp, rfl⟩ := hruns
    exact hinv.table.slots.pid_lt _ p hp
  · obtain ⟨-, rfl⟩ := at_nil hat
    exact hinv.not_runs hj hq
  · rw [hk] at hq
    exact (boot_built hs hb j q hq).2

theorem run_trace (hs : Start b k₀) (hb : boot b k₀ = .ok k₁) (h0 : startFirstProcessRing3 k₁ gpr stack = .ok m₀)
    (hal : ∀ e ∈ es, e.Allowed) (hr : run (mstep b L) m₀ es = .ok m) : Trace b L m₀ es m := by
  induction es using List.reverseRecOn generalizing m with
  | nil => cases hr; exact start_trace hs hb h0
  | append_singleton es e ih =>
    obtain ⟨u, hu, he⟩ := run_snoc_ok.1 hr
    exact (ih (fun e he => hal e (List.mem_append_left _ he)) hu).snoc hu (hal e (by simp)) he

end

/-- **Preemption is transparent.** In every run from boot in which no process yields, a tick finds the CPU in ring 3, and
the process that has it afterwards
- has all its registers, with the RPL bits of ss forced, when it had the CPU before the tick;
- else has exactly the registers of the state in which it ran last, and it was a tick that came then;
- or, when it never ran, those of the context that `Process::new` built. -/
theorem preemption_transparent (b : Boot) (L : TableLayout) (k₀ k₁ : Kernel) (gpr : Reg → ℕ) (stack : ℕ → ℕ)
    (m₀ m m' : Machine) (es : List Event) (c : Clobber) (hs : Start b k₀) (hb : boot b k₀ = .ok k₁)
    (h0 : startFirstProcessRing3 k₁ gpr stack = .ok m₀) (hal : ∀ e ∈ es, e.Allowed)
    (hr : run (mstep b L) m₀ es = .ok m) (ht : mstep b L m (.tick c) = .ok m') (pid : ℕ) (hpid : m'.Runs pid) :
    m.cpu.cs &&& 3 = 3 ∧
      (m.Runs pid → m'.cpu = { m.cpu with ss := m.cpu.ss ||| 3 }) ∧
      (∀ t u, t < es.length → LastAt (mstep b L) m₀ es (Machine.Runs pid) t u →
        (∃ d, es[t]? = some (.tick d)) ∧ m'.cpu = u.cpu) ∧
      (NeverAt (mstep b L) m₀ es (Machine.Runs pid) →
        ∃ ph prog grants p ph', processNew b.pml4 ph pid syscallMask (b.entry prog) grants = .ok (p, ph') ∧
          m'.cpu = Cpu.ofContext p.context) := by
  have htrace := run_trace hs hb h0 hal hr
  have hinv := htrace.inv
  refine ⟨hinv.ring3, ?_⟩
  cases (tick_step hinv.low ht).1 with
  | stays hsched hcpu =>
    have hruns : m.Runs pid := by
      obtain ⟨p, hp, rfl⟩ := hpid
      unfold Kernel.currentProcess at hp
      rcases hsched with hsched | hsched
      · exact ⟨p, by rw [hsched] at hp; exact hp, rfl⟩
      · rcases saveCurrent_cases m.k.sched m.cpu.frame with ⟨q, hq, e⟩ | ⟨-, e⟩
        · rw [hsched, e, Scheduler.put_current, Scheduler.put_self] at hp
          cases hp
          exact ⟨q, hq, rfl⟩
        · exact ⟨p, by rw [hsched, e] at hp; exact hp, rfl⟩
    refine ⟨fun _ => ?_, fun t u htlt hlast => ?_, fun hnever => ?_⟩
    · rw [hcpu, Cpu.forced, hinv.ring3]
      rfl
    · exact absurd hruns (hlast.after _ m htlt (at_end hr))
    · exact absurd hruns (hnever _ m (at_end hr))
  | switches i q hi hq hsched hcpu =>
    obtain rfl : q.pid = pid := by
      obtain ⟨p, hp, rfl⟩ := hpid
      unfold Kernel.currentProcess at hp
      rw [hsched] at hp
      rw [← saveCurrent_of_ne m.cpu.frame hi] at hq
      rw [Option.some.inj (hp.symm.trans hq)]
    refine ⟨fun hruns => absurd hruns (hinv.not_runs hi hq), fun t u _ hlast => ?_, fun hnever => ?_⟩
    · cases htrace.waiting i q hi hq with
      | preempted t' u' d hlast' htick hsaved =>
        obtain ⟨rfl, rfl⟩ := hlast'.unique hlast
        exact ⟨⟨d, htick⟩, by rw [hcpu, hsaved]⟩
      | fresh hnever hnew => exact absurd hlast.holds (hnever t u hlast.here)
    · cases htrace.waiting i q hi hq with
      | preempted t' u' d hlast htick hsaved => exact absurd hlast.holds (hnever t' u' hlast.here)
      | fresh hnever hnew =>
        obtain ⟨ph, prog, grants, p, ph', hp, hctx⟩ := hnew
        exact ⟨ph, prog, grants, p, ph', hp, by rw [hcpu, hctx]⟩

/-! ## A run with two switches -/

/-- the contexts at a distance of 256 bytes in the image of `demoBoot` -/
def demoLayout : TableLayout where
  addr := fun i => kernelVirt + 0x120000 + 256 * i
  high := fun i => by omega
  apart := fun i j h => by
    have : i.val ≠ j.val := fun e => h (Fin.ext e)
    omega

def demoTick : Clobber := ⟨fun _ => 0, fun _ => 0⟩

/-- registers that all hold n -/
def demoCpu (n : ℕ) : Cpu := ⟨fun _ => n, n, 0x23, 0x202, n, 0x1B⟩

/-- process 1 computes, the fifth tick switches to process 2, process 2 computes and the next ticks come -/
def demoEvents : List Event :=
  [.user (demoCpu 7), .tick demoTick, .tick demoTick, .tick demoTick, .tick demoTick, .tick demoTick, .user (demoCpu 9),
    .tick demoTick, .tick demoTick, .tick demoTick, .tick demoTick]

/-- the pid that has the CPU in the end, 0 after a panic -/
def runningPid (x : Except Panic Machine) : ℕ :=
  match x with
  | .ok m =>
    match m.k.currentProcess with
    | some p => p.pid
    | none => 0
  | .error _ => 0

theorem runningPid_iff {x : Except Panic Machine} {pid : ℕ} (hpid : pid ≠ 0) :
    runningPid x = pid ↔ ∃ m, x = .ok m ∧ m.Runs pid := by
  unfold runningPid Machine.Runs
  cases x with
  | error e => simp [hpid.symm]
  | ok m =>
    cases hp : m.k.currentProcess with
    | none => simp [hp, hpid.symm]
    | some p => simp [hp]

/-- the first n events from boot -/
def demoRun (n : ℕ) : Except Panic Machine :=
  boot demoBoot demoKernel >>= fun k => startFirstProcessRing3 k (fun _ => 0) (fun _ => 0) >>= fun m =>
    run (mstep demoBoot demoLayout) m (demoEvents.take n)

theorem demoRun_eq {k : Kernel} {m : Machine} (hk : boot demoBoot demoKernel = .ok k)
    (hm : startFirstProcessRing3 k (fun _ => 0) (fun _ => 0) = .ok m) (n : ℕ) :
    demoRun n = run (mstep demoBoot demoLayout) m (demoEvents.take n) := by
  unfold demoRun
  rw [hk, ok_bind, hm, ok_bind]

/-- the tenth tick gives process 1 the registers it had at the fifth -/
theorem preemption_transparent_demo : ∃ k₁ m₀ u m m', boot demoBoot demoKernel = .ok k₁ ∧
    startFirstProcessRing3 k₁ (fun _ => 0) (fun _ => 0) = .ok m₀ ∧
    run (mstep demoBoot demoLayout) m₀ (demoEvents.take 5) = .ok u ∧
    run (mstep demoBoot demoLayout) m₀ demoEvents = .ok m ∧ mstep demoBoot demoLayout m (.tick demoTick) = .ok m' ∧
    m'.Runs 1 ∧ m'.cpu = u.cpu := by
  have hfive : runningPid (demoRun 5) = 1 := by decide +kernel
  have hafter : ∀ n < 12, 5 < n → runningPid (demoRun n) ≠ 1 := by decide +kernel
  have hlast : runningPid (demoRun 11 >>= fun m => mstep demoBoot demoLayout m (.tick demoTick)) = 1 := by decide +kernel
  obtain ⟨u, hu, hruns⟩ := (runningPid_iff (by decide)).1 hfive
  obtain ⟨m', hm', hruns'⟩ := (runningPid_iff (by decide)).1 hlast
  obtain ⟨m, hm, ht⟩ := bind_ok.1 hm'
  obtain ⟨k₁, h₁, h⟩ := bind_ok.1 hu
  obtain ⟨m₀, h₀, -⟩ := bind_ok.1 h
  rw [demoRun_eq h₁ h₀] at hu hm
  rw [show demoEvents.take 11 = demoEvents from rfl] at hm
  have hlastAt : LastAt (mstep demoBoot demoLayout) m₀ demoEvents (Machine.Runs 1) 5 u := by
    refine ⟨⟨by decide, hu⟩, hruns, fun n w hn hat hw => ?_⟩
    refine hafter n (Nat.lt_succ_of_le hat.1) hn ((runningPid_iff (by decide)).2 ⟨w, ?_, hw⟩)
    rw [demoRun_eq h₁ h₀]
    exact hat.2
  have hal : ∀ e ∈ demoEvents, e.Allowed := by
    unfold demoEvents
    simp [Event.Allowed, demoCpu]
  exact ⟨k₁, m₀, u, m, m', h₁, h₀, hu, hm, ht, hruns',
    ((preemption_transparent demoBoot demoLayout demoKernel k₁ _ _ m₀ m m' demoEvents demoTick demoStart h₁ h₀ hal hm ht 1
      hruns').2.2.1 5 u (by decide) hlastAt).2⟩

end Tomorrow
