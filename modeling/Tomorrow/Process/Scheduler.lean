/-
Processes and the process table (`process.rs`, `scheduler.rs`).

The table has 64 slots, an index of the slot that runs and a count. `add_process` fills the first empty slot,
`next_running` scans round robin from the slot after the current one, `reap` empties the slots of dead processes other
than the current one and gives their two stack pages back to the page allocator.

Results, one specification per operation:
- `addProcess_spec`, `addProcess_ok`: one empty slot is filled; it fails only when every slot is taken;
- `nextRunning_spec`: the slot found holds a running process;
- `reapSlot_cases`, `reap_processes`: which slots are emptied; `reap_bit`: exactly their stack pages are freed.
-/
import Tomorrow.Core.RoundRobin
import Tomorrow.Memory.Pmm
import Tomorrow.Files.Ramfs

namespace Tomorrow.Sched

open Tomorrow.Core Tomorrow.Files

/-! ## Processes -/

def permRead : UInt8 := 1

def permWrite : UInt8 := 2

structure Grant where
  name : Bytes
  perms : UInt8
deriving DecidableEq

inductive ProcessState where
  | running
  | blocked
  | dead
deriving DecidableEq

/-- the saved registers, in the order of the `repr(C)` structure -/
structure Context where
  rax : ℕ
  rbx : ℕ
  rcx : ℕ
  rdx : ℕ
  rsi : ℕ
  rdi : ℕ
  rbp : ℕ
  rsp : ℕ
  r8 : ℕ
  r9 : ℕ
  r10 : ℕ
  r11 : ℕ
  r12 : ℕ
  r13 : ℕ
  r14 : ℕ
  r15 : ℕ
  rip : ℕ
  rflags : ℕ
  cs : ℕ
  ss : ℕ
  cr3 : ℕ
  kernelStack : ℕ
deriving DecidableEq

/-- an entry of a descriptor table; the inode is a reference -/
structure OpenFile where
  perms : UInt8
  inode : ℕ
  offset : ℕ
deriving DecidableEq

structure Process where
  pid : ℕ
  syscallMask : ℕ
  state : ProcessState
  kernelStack : ℕ
  userStack : ℕ
  userRegions : List (ℕ × ℕ)
  kernelStackPhys : ℕ
  userStackPhys : ℕ
  context : Context
  fds : List (Option OpenFile)
  grants : List Grant
deriving DecidableEq

/-! ## The table -/

/-- slot numbers are numerals of `Fin 64` -/
instance neZeroSlots : NeZero 64 := ⟨by decide⟩

structure Scheduler where
  processes : Fin 64 → Option Process
  current : Fin 64
  count : ℕ

/-- `SCHEDULER` at start -/
def Scheduler.empty : Scheduler := ⟨fun _ => none, 0, 0⟩

/-- store into a slot -/
def Scheduler.put (s : Scheduler) (i : Fin 64) (o : Option Process) : Scheduler :=
  { s with processes := Function.update s.processes i o }

/-- change the count -/
def Scheduler.recount (s : Scheduler) (n : ℕ) : Scheduler := { s with count := n }

@[simp] theorem Scheduler.put_self (s : Scheduler) (i : Fin 64) (o : Option Process) : (s.put i o).processes i = o := by
  simp [Scheduler.put]

theorem Scheduler.put_of_ne (s : Scheduler) {i j : Fin 64} (o : Option Process) (h : j ≠ i) :
    (s.put i o).processes j = s.processes j := by simp [Scheduler.put, h]

/-- who is in a slot after a store: the process stored, or in another slot the one that was there -/
theorem Scheduler.put_eq_some {s : Scheduler} {i j : Fin 64} {o : Option Process} {q : Process}
    (h : (s.put i o).processes j = some q) : (j = i ∧ o = some q) ∨ (j ≠ i ∧ s.processes j = some q) := by
  by_cases hj : j = i
  · subst hj
    rw [Scheduler.put_self] at h
    exact Or.inl ⟨rfl, h⟩
  · rw [Scheduler.put_of_ne _ _ hj] at h
    exact Or.inr ⟨hj, h⟩

@[simp] theorem Scheduler.put_current (s : Scheduler) (i : Fin 64) (o : Option Process) :
    (s.put i o).current = s.current := rfl

@[simp] theorem Scheduler.put_count (s : Scheduler) (i : Fin 64) (o : Option Process) :
    (s.put i o).count = s.count := rfl

@[simp] theorem Scheduler.recount_processes (s : Scheduler) (n : ℕ) : (s.recount n).processes = s.processes := rfl

@[simp] theorem Scheduler.recount_current (s : Scheduler) (n : ℕ) : (s.recount n).current = s.current := rfl

@[simp] theorem Scheduler.recount_count (s : Scheduler) (n : ℕ) : (s.recount n).count = n := rfl

def Scheduler.addProcess (s : Scheduler) (p : Process) : Except Panic Scheduler :=
  match (List.finRange 64).find? fun i => (s.processes i).isNone with
  | some i => .ok ((s.put i (some p)).recount (s.count + 1))
  | none => .error (.explicit "scheduler: too many processes")

def Scheduler.isRunning (s : Scheduler) (i : Fin 64) : Bool :=
  match s.processes i with
  | some p => p.state = .running
  | none => false

/-- the slots in the order `next_running` looks at them: `(current + i) % 64` for i = 1 .. 63 -/
def Scheduler.scanOrder (s : Scheduler) : List (Fin 64) := (List.range' 1 63).map fun i => s.current + Fin.ofNat 64 i

def Scheduler.nextRunning (s : Scheduler) : Option (Fin 64) := s.scanOrder.find? s.isRunning

/-- the body of the loop of `reap` -/
def reapSlot (k : Pmm.Image) (st : Scheduler × Words) (i : Fin 64) : Except Panic (Scheduler × Words) :=
  if i = st.1.current then .ok st
  else
    match st.1.processes i with
    | some p =>
      if p.state = .dead then
        ckSub st.1.count 1 >>= fun count =>
          .ok ((st.1.put i none).recount count, Pmm.free k (Pmm.free k st.2 p.kernelStackPhys) p.userStackPhys)
      else .ok st
    | none => .ok st

def reap (k : Pmm.Image) (s : Scheduler) (m : Words) : Except Panic (Scheduler × Words) :=
  (List.finRange 64).foldlM (reapSlot k) (s, m)

/-! ## One call -/

/-- the occupied slots -/
def Scheduler.occupied (s : Scheduler) : Finset (Fin 64) := Finset.univ.filter fun i => (s.processes i).isSome

@[simp] theorem Scheduler.mem_occupied {s : Scheduler} {i : Fin 64} : i ∈ s.occupied ↔ (s.processes i).isSome := by
  simp [Scheduler.occupied]

theorem Scheduler.occupied_le (s : Scheduler) : s.occupied.card ≤ 64 := by
  simpa using Finset.card_le_univ s.occupied

theorem Scheduler.addProcess_spec {s s' : Scheduler} {p : Process} (h : s.addProcess p = .ok s') :
    ∃ i, s.processes i = none ∧ s' = (s.put i (some p)).recount (s.count + 1) := by
  unfold Scheduler.addProcess at h
  cases hf : (List.finRange 64).find? fun i => (s.processes i).isNone with
  | none => rw [hf] at h; cases h
  | some i =>
    rw [hf] at h
    cases h
    have hi := List.find?_some hf
    exact ⟨i, by simpa using hi, rfl⟩

/-- after `add_process` a slot holds the new process or the one it held before -/
theorem Scheduler.addProcess_slot {s s' : Scheduler} {p q : Process} {j : Fin 64} (h : s.addProcess p = .ok s')
    (hq : s'.processes j = some q) : q = p ∨ s.processes j = some q := by
  obtain ⟨i, -, rfl⟩ := Scheduler.addProcess_spec h
  rw [Scheduler.recount_processes] at hq
  rcases Scheduler.put_eq_some hq with ⟨-, hp⟩ | ⟨-, hq⟩
  · exact Or.inl (Option.some.inj hp).symm
  · exact Or.inr hq

/-- a table with an empty slot takes the process -/
theorem Scheduler.addProcess_ok {s : Scheduler} (p : Process) (h : s.occupied.card < 64) :
    ∃ s', s.addProcess p = .ok s' := by
  unfold Scheduler.addProcess
  cases hf : (List.finRange 64).find? fun i => (s.processes i).isNone with
  | some i => exact ⟨_, rfl⟩
  | none =>
    exfalso
    rw [List.find?_eq_none] at hf
    have hall : s.occupied = Finset.univ := by
      ext i
      have := hf i (List.mem_finRange i)
      cases hi : s.processes i with
      | none => rw [hi] at this; simp at this
      | some q => simp [hi]
    rw [hall, Finset.card_univ, Fintype.card_fin] at h
    omega

theorem Scheduler.isRunning_iff {s : Scheduler} {i : Fin 64} :
    s.isRunning i = true ↔ ∃ p, s.processes i = some p ∧ p.state = .running := by
  unfold Scheduler.isRunning
  cases s.processes i with
  | none => simp
  | some p => simp

theorem Scheduler.nextRunning_spec {s : Scheduler} {i : Fin 64} (h : s.nextRunning = some i) :
    ∃ p, s.processes i = some p ∧ p.state = .running :=
  Scheduler.isRunning_iff.1 (List.find?_some h)

/-- `next_running` is round robin over the 64 slots -/
theorem Scheduler.nextRunning_eq (s : Scheduler) : s.nextRunning = nextAfter s.isRunning s.current := rfl

theorem Scheduler.nextRunning_eq_none {s : Scheduler} :
    s.nextRunning = none ↔ ∀ j, j ≠ s.current → s.isRunning j = false := nextAfter_eq_none

theorem Scheduler.nextRunning_ne_current {s : Scheduler} {i : Fin 64} (h : s.nextRunning = some i) : i ≠ s.current :=
  nextAfter_ne h

/-! ## Reaping -/

/-- slot i holds the dead process p and is not the current slot -/
def Scheduler.Reapable (s : Scheduler) (i : Fin 64) (p : Process) : Prop :=
  i ≠ s.current ∧ s.processes i = some p ∧ p.state = .dead

theorem reapSlot_cases {k : Pmm.Image} {st st' : Scheduler × Words} {i : Fin 64} (h : reapSlot k st i = .ok st') :
    ((∀ p, ¬ st.1.Reapable i p) ∧ st' = st) ∨
      ∃ p, st.1.Reapable i p ∧ 1 ≤ st.1.count ∧
        st' = ((st.1.put i none).recount (st.1.count - 1),
          Pmm.free k (Pmm.free k st.2 p.kernelStackPhys) p.userStackPhys) := by
  unfold reapSlot at h
  split_ifs at h with hc
  · cases h; exact Or.inl ⟨fun p hp => hp.1 hc, rfl⟩
  cases hp : st.1.processes i with
  | none =>
    rw [hp] at h
    cases h
    refine Or.inl ⟨fun p hr => ?_, rfl⟩
    have := hr.2.1
    rw [hp] at this
    cases this
  | some p =>
    rw [hp] at h
    dsimp only at h
    split_ifs at h with hd
    · obtain ⟨c, hcount, h⟩ := bind_ok.1 h
      obtain ⟨hle, rfl⟩ := ckSub_ok.1 hcount
      cases h
      exact Or.inr ⟨p, ⟨hc, hp, hd⟩, hle, rfl⟩
    · cases h
      refine Or.inl ⟨fun q hq => ?_, rfl⟩
      have : q = p := by have h2 := hq.2.1; rw [hp] at h2; exact (Option.some.inj h2).symm
      exact hd (this ▸ hq.2.2)

theorem foldlM_cons_ok {ε σ α : Type} {f : σ → α → Except ε σ} {s t : σ} {a : α} {l : List α} :
    (a :: l).foldlM f s = .ok t ↔ ∃ u, f s a = .ok u ∧ l.foldlM f u = .ok t := by
  rw [List.foldlM_cons, bind_ok]

/-- what every slot of the loop preserves holds after it -/
theorem reap_invariant {k : Pmm.Image} {I : Scheduler × Words → Prop}
    (hstep : ∀ st i st', I st → reapSlot k st i = .ok st' → I st') {l : List (Fin 64)} {st st' : Scheduler × Words}
    (hI : I st) (h : l.foldlM (reapSlot k) st = .ok st') : I st' := by
  induction l generalizing st with
  | nil => cases h; exact hI
  | cons i l ih =>
    obtain ⟨u, hu, h⟩ := foldlM_cons_ok.1 h
    exact ih (hstep st i u hI hu) h

theorem reap_current {k : Pmm.Image} {l : List (Fin 64)} {st st' : Scheduler × Words}
    (h : l.foldlM (reapSlot k) st = .ok st') : st'.1.current = st.1.current := by
  refine @reap_invariant k (fun u => u.1.current = st.1.current) (fun u i u' hu hstep => ?_) l st st' rfl h
  rcases reapSlot_cases hstep with ⟨-, rfl⟩ | ⟨p, -, -, rfl⟩
  · exact hu
  · exact hu

/-- the slots of the list that hold a reapable process are emptied and no other slot changes -/
theorem reap_processes {k : Pmm.Image} {l : List (Fin 64)} {st st' : Scheduler × Words}
    (h : l.foldlM (reapSlot k) st = .ok st') (i : Fin 64) :
    (i ∈ l ∧ (∃ p, st.1.Reapable i p) ∧ st'.1.processes i = none) ∨
      ((i ∈ l → ∀ p, ¬ st.1.Reapable i p) ∧ st'.1.processes i = st.1.processes i) := by
  induction l generalizing st with
  | nil => cases h; exact Or.inr ⟨fun hi => absurd hi (by simp), rfl⟩
  | cons j l ih =>
    obtain ⟨u, hu, hrest⟩ := foldlM_cons_ok.1 h
    rcases reapSlot_cases hu with ⟨hnot, rfl⟩ | ⟨p, hp, -, rfl⟩
    · rcases ih hrest with ⟨hi, hr, he⟩ | ⟨hi, he⟩
      · exact Or.inl ⟨List.mem_cons_of_mem j hi, hr, he⟩
      · refine Or.inr ⟨fun hmem => ?_, he⟩
        rcases List.mem_cons.1 hmem with rfl | hmem
        · exact hnot
        · exact hi hmem
    · by_cases hij : i = j
      · subst hij
        -- emptied here, and an empty slot stays empty
        refine Or.inl ⟨List.mem_cons_self, ⟨p, hp⟩, ?_⟩
        rcases ih hrest with ⟨-, -, he⟩ | ⟨-, he⟩
        · exact he
        · rw [he]; exact st.1.put_self i none
      · have hsame : (st.1.put j none).processes i = st.1.processes i := st.1.put_of_ne none hij
        rcases ih hrest with ⟨hi, ⟨q, h1, h2, h3⟩, he⟩ | ⟨hi, he⟩
        · exact Or.inl ⟨List.mem_cons_of_mem j hi, ⟨q, h1, hsame ▸ h2, h3⟩, he⟩
        · refine Or.inr ⟨fun hmem q hq => ?_, he.trans hsame⟩
          rcases List.mem_cons.1 hmem with rfl | hmem
          · exact hij rfl
          · exact hi hmem q ⟨hq.1, hsame.trans hq.2.1, hq.2.2⟩

/-- the stacks of a process are pages of the allocator -/
def Process.Frames (k : Pmm.Image) (p : Process) : Prop := Pmm.Frame k p.kernelStackPhys ∧ Pmm.Frame k p.userStackPhys

/-- page q is one of the two stack pages of p -/
def Process.Owns (p : Process) (q : ℕ) : Prop := q = p.kernelStackPhys / 4096 ∨ q = p.userStackPhys / 4096

/-- what is left to reap once a slot has been emptied -/
theorem Scheduler.reapable_emptied {s : Scheduler} {i j : Fin 64} {c : ℕ} {p : Process} :
    ((s.put j none).recount c).Reapable i p ↔ i ≠ j ∧ s.Reapable i p := by
  by_cases hij : i = j
  · subst hij
    refine iff_of_false ?_ fun h => h.1 rfl
    rintro ⟨-, h2, -⟩
    simp at h2
  · rw [and_iff_right hij]
    unfold Scheduler.Reapable
    rw [Scheduler.recount_processes, s.put_of_ne none hij]
    rfl

/-- the bits cleared are those of the stack pages of the slots emptied -/
theorem reap_bit {k : Pmm.Image} {l : List (Fin 64)} {st st' : Scheduler × Words}
    (hframes : ∀ i p, st.1.Reapable i p → p.Frames k) (h : l.foldlM (reapSlot k) st = .ok st') (q : ℕ) :
    bit st'.2 q = true ↔ bit st.2 q = true ∧ ∀ i ∈ l, ∀ p, st.1.Reapable i p → ¬ p.Owns q := by
  induction l generalizing st with
  | nil => cases h; simp
  | cons j l ih =>
    obtain ⟨u, hu, hrest⟩ := foldlM_cons_ok.1 h
    rcases reapSlot_cases hu with ⟨hnot, rfl⟩ | ⟨p, hp, -, rfl⟩
    · rw [ih hframes hrest]
      refine and_congr_right fun _ => ⟨fun hl i hi r hr => ?_, fun hl i hi => hl i (List.mem_cons_of_mem j hi)⟩
      rcases List.mem_cons.1 hi with rfl | hi
      · exact absurd hr (hnot r)
      · exact hl i hi r hr
    · have hframes' : ∀ i r, ((st.1.put j none).recount (st.1.count - 1)).Reapable i r → r.Frames k :=
        fun i r hr => hframes i r (Scheduler.reapable_emptied.1 hr).2
      rw [ih hframes' hrest, Pmm.bit_free_frame _ (hframes j p hp).2, Pmm.bit_free_frame _ (hframes j p hp).1]
      simp only [Bool.and_eq_true, decide_eq_true_eq]
      constructor
      · rintro ⟨⟨hq2, hq1, hb⟩, hl⟩
        refine ⟨hb, fun i hi r hr => ?_⟩
        by_cases hij : i = j
        · subst hij
          obtain rfl : r = p := Option.some.inj (hr.2.1.symm.trans hp.2.1)
          rintro (h1 | h2)
          · exact hq1 h1
          · exact hq2 h2
        · exact hl i ((List.mem_cons.1 hi).resolve_left hij) r (Scheduler.reapable_emptied.2 ⟨hij, hr⟩)
      · rintro ⟨hb, hl⟩
        have hown := hl j List.mem_cons_self p hp
        refine ⟨⟨fun h2 => hown (Or.inr h2), fun h1 => hown (Or.inl h1), hb⟩, fun i hi r hr => ?_⟩
        exact hl i (List.mem_cons_of_mem j hi) r (Scheduler.reapable_emptied.1 hr).2

end Tomorrow.Sched
