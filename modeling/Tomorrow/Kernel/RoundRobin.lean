/-
Which process runs next (`Scheduler::next_running`), over whole runs of switches.

`next_running` is round robin over the 64 slots (`Core/RoundRobin`). Between two switches anything may happen to the other
slots: processes are spawned, killed and reaped. A process that stays running meanwhile waits at most 63 switches, and while
the set of running processes does not change they take the CPU in turn.

`step_switch`: every event of the kernel, a timer tick or a call of yield included, either leaves the current slot alone
or switches to the slot that `next_running` finds in the table as it was before the event.

Result: `round_robin`.
-/
import Tomorrow.Kernel.Grants
import Tomorrow.Kernel.Preemption

namespace Tomorrow

open Tomorrow.Core Sched

/-- saving registers changes no state of a process -/
theorem saveCurrent_isRunning (s : Scheduler) (f : TrapFrame) (i : Fin 64) :
    (s.saveCurrent f).isRunning i = s.isRunning i := by
  rcases saveCurrent_cases s f with ⟨p, hp, e⟩ | ⟨-, e⟩
  · by_cases hi : i = s.current
    · subst hi
      simp [e, Scheduler.isRunning, hp]
    · simp [e, Scheduler.isRunning, Scheduler.put_of_ne _ _ hi]
  · rw [e]

theorem saveCurrent_nextRunning (s : Scheduler) (f : TrapFrame) : (s.saveCurrent f).nextRunning = s.nextRunning := by
  rw [Scheduler.nextRunning_eq, Scheduler.nextRunning_eq, saveCurrent_current,
    funext (saveCurrent_isRunning s f)]

theorem yield_switch {k k' : Kernel} {a b c : ℕ} {regs : Context}
    (he : (syscallHandler k sysYieldNr a b c regs).next = .ok k') :
    k'.sched.current = k.sched.current ∨ k.sched.nextRunning = some k'.sched.current := by
  change (if syscallAllowed k sysYieldNr = false then Outcome.returns (err EPERM) k else yieldNow k regs).next = .ok k' at he
  split_ifs at he with hal
  · cases he
    exact Or.inl rfl
  · unfold yieldNow at he
    cases hn : k.sched.nextRunning with
    | none =>
      rw [hn] at he
      cases he
      exact Or.inl rfl
    | some i =>
      obtain ⟨p, hp⟩ := process_of_allowed k hal
      obtain ⟨q, hq, -⟩ := Scheduler.nextRunning_spec hn
      have hi := Scheduler.nextRunning_ne_current hn
      simp only [hn, hp, Kernel.switchTo, Scheduler.put_of_ne _ _ hi, hq] at he
      cases he
      exact Or.inr rfl

/-- **Step lemma.** Every switch of the kernel is one to the slot `next_running` finds. -/
theorem step_switch {b : Boot} {k k' : Kernel} {o : Op} (he : step b k o = .ok k') :
    k'.sched.current = k.sched.current ∨ k.sched.nextRunning = some k'.sched.current := by
  by_cases ho : o.Returns
  · exact Or.inl (slot_step ho he).1
  cases o with
  | syscall nr a1 a2 a3 regs =>
    obtain hnr : nr.toNat = sysYieldNr := not_not.1 ho
    simp only [step, hnr] at he
    exact yield_switch he
  | timer f =>
    obtain ⟨r, hr, he⟩ := bind_ok.1 he
    cases he
    rcases timer_spec hr with ⟨-, rfl⟩ | ⟨-, -, rfl⟩ | ⟨i, q, -, hn, -, -, rfl⟩
    · obtain ⟨g, s, e⟩ := k.ticked_eq
      exact Or.inl (by rw [e])
    · exact Or.inl (saveCurrent_current _ _)
    · exact Or.inr (by rw [← saveCurrent_nextRunning _ f, hn])
  | _ => exact absurd trivial ho

/-- m switches in a row; between them anything may happen to the table, but the current slot is the one switched to -/
def Switches (s : ℕ → Scheduler) (m : ℕ) : Prop := ∀ t, t < m → (s t).nextRunning = some (s (t + 1)).current

/-- **Round robin.** `next_running` finds the running slot other than the current one at the smallest cyclic distance behind
it, and none iff there is none. Over any run of switches, whatever happens to the other slots meanwhile, a slot that stays
running is selected by the next switch or comes closer, and so is selected within 63 switches. While the set R of running
slots does not change, and the current one is among them, any |R| switches in a row select each slot of R exactly once.
Every event of the kernel keeps the current slot or is such a switch. -/
theorem round_robin :
    (∀ (s : Scheduler) (i : Fin 64), s.nextRunning = some i ↔
      i ≠ s.current ∧ (∃ p, s.processes i = some p ∧ p.state = .running) ∧
        ∀ j, j ≠ s.current → (∃ p, s.processes j = some p ∧ p.state = .running) →
          cyclicDistance s.current i ≤ cyclicDistance s.current j) ∧
    (∀ s : Scheduler, s.nextRunning = none ↔ ¬ ∃ j, j ≠ s.current ∧ ∃ p, s.processes j = some p ∧ p.state = .running) ∧
    (∀ (s : ℕ → Scheduler) (m : ℕ) (j : Fin 64), Switches s m → (∀ t, t < m → (s t).isRunning j = true) →
      (s 0).current ≠ j →
      (∀ t, t < m → (s t).current ≠ j → (s (t + 1)).current = j ∨
        cyclicDistance (s (t + 1)).current j < cyclicDistance (s t).current j) ∧
      (63 ≤ m → ∃ t, 0 < t ∧ t ≤ 63 ∧ (s t).current = j)) ∧
    (∀ (s : ℕ → Scheduler) (m : ℕ) (R : Finset (Fin 64)), Switches s m →
      (∀ t, t < m → ∀ i, (s t).isRunning i = true ↔ i ∈ R) → (s 0).current ∈ R → 2 ≤ R.card →
      ∀ t, t + R.card ≤ m → ∀ j, j ∈ R → ∃! i, i < R.card ∧ (s (t + i + 1)).current = j) ∧
    ∀ (b : Boot) (k k' : Kernel) (o : Op), step b k o = .ok k' →
      k'.sched.current = k.sched.current ∨ k.sched.nextRunning = some k'.sched.current := by
  refine ⟨fun s i => ?_, fun s => ?_, fun s m j hsw hj hne => ⟨fun t ht hcur => ?_, fun hm => ?_⟩,
    fun s m R hsw hR h0 h2 t ht j hj => ?_, fun b k k' o he => step_switch he⟩
  · simp only [← Scheduler.isRunning_iff]
    exact nextAfter_eq_some
  · simp only [← Scheduler.isRunning_iff, not_exists, not_and, Bool.not_eq_true]
    exact Scheduler.nextRunning_eq_none
  · exact nextAfter_closer (hsw t ht) (hj t ht) hcur
  · have hlt := cyclicDistance_lt (s 0).current j
    obtain ⟨t, hpos, hle, ht⟩ := chosen_within (fun t => (s t).current) (fun t => (s t).isRunning) hsw hj hne (by omega)
    exact ⟨t, hpos, by omega, ht⟩
  · refine lap (fun t => (s t).current) (fun t ht => ?_) h0 h2 ht hj
    rw [← hsw t ht, Scheduler.nextRunning_eq]
    congr 1
    funext i
    rw [Bool.eq_iff_iff, decide_eq_true_eq, hR t ht i]

/-- processes in slots 0 and 1, with the first current at even times and the second at odd ones -/
def demoTurns (t : ℕ) : Scheduler :=
  ⟨fun i => if i = 0 ∨ i = 1 then some demoProcess else none, if t % 2 = 0 then 0 else 1, 2⟩

theorem demoTurns_running (t : ℕ) (i : Fin 64) : (demoTurns t).isRunning i = true ↔ i ∈ ({0, 1} : Finset (Fin 64)) := by
  by_cases h : i = 0 ∨ i = 1 <;> simp [demoTurns, Scheduler.isRunning, h, demoProcess]

theorem demoTurns_switches : Switches demoTurns 63 := by
  intro t _
  have hnext : ∀ t, (demoTurns t).nextRunning = some (if t % 2 = 0 then 1 else 0) := by
    intro t
    rcases Nat.mod_two_eq_zero_or_one t with h | h
    · simp only [demoTurns, h]
      decide +kernel
    · simp only [demoTurns, h]
      decide +kernel
  rw [hnext]
  rcases Nat.mod_two_eq_zero_or_one t with h | h <;> simp [demoTurns, h, Nat.add_mod]

theorem round_robin_demo : (∃ t, 0 < t ∧ t ≤ 63 ∧ (demoTurns t).current = 1) ∧
    ∃! i, i < ({0, 1} : Finset (Fin 64)).card ∧ (demoTurns (5 + i + 1)).current = 0 :=
  ⟨(round_robin.2.2.1 demoTurns 63 1 demoTurns_switches (fun t _ => (demoTurns_running t 1).2 (by decide)) (by decide)).2
      le_rfl,
    round_robin.2.2.2.1 demoTurns 63 {0, 1} demoTurns_switches (fun t _ => demoTurns_running t) (by decide) (by decide) 5
      (by decide) 0 (by decide)⟩

end Tomorrow
