/-
The process table over whole runs: slots, count, current process, kernel stack of the TSS, pids and stack pages.

Five operations in different files (`cmd_spawn`, `cmd_kill` with its reap, `sys_exit`, `yield_now`, the timer) each update
a part of this. `TableInv` couples the table with the page allocator: the stack pages of all processes are pairwise
different pages that are marked used. Most steps change only the state, the registers or the descriptors of one process
(`SameIdentity`, `TableInv.put`); the others are creation (`processNew_spec`, `TableInv.add`), the switch
(`TableInv.switch`) and reaping (`TableInv.reap`).

Result: `process_table`, in every state that a run from boot reaches.
-/
import Tomorrow.Kernel.Run
import Tomorrow.Shell.Decimal

namespace Tomorrow

open Tomorrow.Core Files Sched Shell Vmm

/-! ## The invariant -/

/-- the stack pages in the table: pages of the allocator, marked used, no two the same -/
structure StackPages (b : Boot) (s : Scheduler) (m : Words) : Prop where
  frames : ∀ i p, s.processes i = some p → p.Frames b.toImage
  used : ∀ i p q, s.processes i = some p → p.Owns q → bit m q = true
  kernel_inj : ∀ i j p q, s.processes i = some p → s.processes j = some q → p.kernelStackPhys = q.kernelStackPhys → i = j
  user_inj : ∀ i j p q, s.processes i = some p → s.processes j = some q → p.userStackPhys = q.userStackPhys → i = j
  apart : ∀ i j p q, s.processes i = some p → s.processes j = some q → p.kernelStackPhys ≠ q.userStackPhys

/-- the slots: their number, their pids, all below the next one, and their stack pages -/
structure Slots (b : Boot) (s : Scheduler) (m : Words) (nextPid : ℕ) : Prop where
  count : s.count = s.occupied.card
  pid_lt : ∀ i p, s.processes i = some p → p.pid < nextPid
  pid_inj : ∀ i j p q, s.processes i = some p → s.processes j = some q → p.pid = q.pid → i = j
  pages : StackPages b s m
  reserved : Pmm.Reserved b.toImage m

/-- the slots, with the current one occupied and its kernel stack in the TSS -/
structure TableInv (b : Boot) (k : Kernel) : Prop where
  slots : Slots b k.sched k.phys.pmm k.nextPid
  current : ∃ p, k.currentProcess = some p ∧ k.rsp0 = p.kernelStack

/-- the fields of a process that never change -/
structure SameIdentity (p q : Process) : Prop where
  pid : q.pid = p.pid
  kernelStack : q.kernelStack = p.kernelStack
  kernelStackPhys : q.kernelStackPhys = p.kernelStackPhys
  userStackPhys : q.userStackPhys = p.userStackPhys

theorem SameIdentity.owns {p q : Process} (h : SameIdentity p q) {x : ℕ} : q.Owns x ↔ p.Owns x := by
  unfold Process.Owns
  rw [h.kernelStackPhys, h.userStackPhys]

/-- a page is a stack of one slot only -/
theorem StackPages.owns_inj {b : Boot} {s : Scheduler} {m : Words} (h : StackPages b s m) {i j : Fin 64} {p q : Process}
    (hp : s.processes i = some p) (hq : s.processes j = some q) {x : ℕ} (hx : p.Owns x) (hx' : q.Owns x) : i = j := by
  obtain ⟨hp1, hp2⟩ := h.frames i p hp
  obtain ⟨hq1, hq2⟩ := h.frames j q hq
  rcases hx with rfl | rfl <;> rcases hx' with he | he
  · exact h.kernel_inj i j p q hp hq (hp1.page_inj hq1 he)
  · exact absurd (hp1.page_inj hq2 he) (h.apart i j p q hp hq)
  · exact absurd (hp2.page_inj hq1 he).symm (h.apart j i q p hq hp)
  · exact h.user_inj i j p q hp hq (hp2.page_inj hq2 he)

/-! ## Updates of one process -/

theorem put_cases {s : Scheduler} {i j : Fin 64} {p q r : Process} (hp : s.processes i = some p)
    (hid : SameIdentity p q) (hr : (s.put i (some q)).processes j = some r) :
    ∃ r', s.processes j = some r' ∧ SameIdentity r' r := by
  rcases Scheduler.put_eq_some hr with ⟨rfl, hq⟩ | ⟨-, hr⟩
  · cases hq
    exact ⟨p, hp, hid⟩
  · exact ⟨r, hr, rfl, rfl, rfl, rfl⟩

theorem put_occupied {s : Scheduler} {i : Fin 64} {p q : Process} (hp : s.processes i = some p) :
    (s.put i (some q)).occupied = s.occupied := by
  ext j
  rw [Scheduler.mem_occupied, Scheduler.mem_occupied]
  by_cases hj : j = i
  · subst hj; simp [hp]
  · rw [Scheduler.put_of_ne _ _ hj]

theorem StackPages.put {b : Boot} {s : Scheduler} {m : Words} (h : StackPages b s m) {i : Fin 64} {p q : Process}
    (hp : s.processes i = some p) (hid : SameIdentity p q) : StackPages b (s.put i (some q)) m where
  frames := by
    intro j r hr
    obtain ⟨r', hr', e⟩ := put_cases hp hid hr
    have := h.frames j r' hr'
    unfold Process.Frames at this ⊢
    rw [e.kernelStackPhys, e.userStackPhys]
    exact this
  used := by
    intro j r x hr hx
    obtain ⟨r', hr', e⟩ := put_cases hp hid hr
    exact h.used j r' x hr' (e.owns.1 hx)
  kernel_inj := by
    intro j l r t hr ht he
    obtain ⟨r', hr', e⟩ := put_cases hp hid hr
    obtain ⟨t', ht', e'⟩ := put_cases hp hid ht
    exact h.kernel_inj j l r' t' hr' ht' (by rw [← e.kernelStackPhys, ← e'.kernelStackPhys]; exact he)
  user_inj := by
    intro j l r t hr ht he
    obtain ⟨r', hr', e⟩ := put_cases hp hid hr
    obtain ⟨t', ht', e'⟩ := put_cases hp hid ht
    exact h.user_inj j l r' t' hr' ht' (by rw [← e.userStackPhys, ← e'.userStackPhys]; exact he)
  apart := by
    intro j l r t hr ht
    obtain ⟨r', hr', e⟩ := put_cases hp hid hr
    obtain ⟨t', ht', e'⟩ := put_cases hp hid ht
    rw [e.kernelStackPhys, e'.userStackPhys]
    exact h.apart j l r' t' hr' ht'

/-- changing what is not part of the identity of one process -/
theorem Slots.put {b : Boot} {s : Scheduler} {m : Words} {n : ℕ} (h : Slots b s m n) {i : Fin 64} {p q : Process}
    (hp : s.processes i = some p) (hid : SameIdentity p q) : Slots b (s.put i (some q)) m n where
  count := by
    rw [put_occupied hp]
    exact h.count
  pid_lt := by
    intro j r hr
    obtain ⟨r', hr', e⟩ := put_cases hp hid hr
    rw [e.pid]
    exact h.pid_lt j r' hr'
  pid_inj := by
    intro j l r t hr ht he
    obtain ⟨r', hr', e⟩ := put_cases hp hid hr
    obtain ⟨t', ht', e'⟩ := put_cases hp hid ht
    exact h.pid_inj j l r' t' hr' ht' (by rw [← e.pid, ← e'.pid]; exact he)
  pages := h.pages.put hp hid
  reserved := h.reserved

theorem TableInv.put {b : Boot} {k : Kernel} (h : TableInv b k) {i : Fin 64} {p q : Process}
    (hp : k.sched.processes i = some p) (hid : SameIdentity p q) :
    TableInv b { k with sched := k.sched.put i (some q) } where
  slots := h.slots.put hp hid
  current := by
    obtain ⟨r, hr, hrsp⟩ := h.current
    show ∃ r, (k.sched.put i (some q)).processes k.sched.current = some r ∧ k.rsp0 = r.kernelStack
    by_cases hc : k.sched.current = i
    · have hpr : p = r := by
        unfold Kernel.currentProcess at hr
        rw [hc, hp] at hr
        exact Option.some.inj hr
      rw [hc, Scheduler.put_self]
      exact ⟨q, rfl, by rw [hrsp, ← hpr, hid.kernelStack]⟩
    · rw [Scheduler.put_of_ne _ _ hc]
      exact ⟨r, hr, hrsp⟩

/-- making another slot current -/
theorem TableInv.switch {b : Boot} {k : Kernel} (h : TableInv b k) {i : Fin 64} {p : Process}
    (hp : k.sched.processes i = some p) :
    TableInv b { k with sched := { k.sched with current := i }, rsp0 := p.kernelStack } where
  slots := ⟨h.slots.count, h.slots.pid_lt, h.slots.pid_inj, ⟨h.slots.pages.frames, h.slots.pages.used,
    h.slots.pages.kernel_inj, h.slots.pages.user_inj, h.slots.pages.apart⟩, h.slots.reserved⟩
  current := ⟨p, hp, rfl⟩

/-- the invariant reads the table, the next pid, rsp0 and the bitmap only -/
theorem TableInv.congr {b : Boot} {k k' : Kernel} (h : TableInv b k) (hs : k'.sched = k.sched)
    (hn : k'.nextPid = k.nextPid) (hr : k'.rsp0 = k.rsp0) (hm : k'.phys.pmm = k.phys.pmm) : TableInv b k' := by
  refine ⟨?_, ?_⟩
  · rw [hs, hn, hm]; exact h.slots
  · unfold Kernel.currentProcess; rw [hs, hr]; exact h.current

theorem TableInv.setFds {b : Boot} {k : Kernel} (h : TableInv b k) {p : Process} (hp : k.currentProcess = some p)
    (fds : List (Option OpenFile)) : TableInv b (k.setFds p fds) :=
  h.put hp ⟨rfl, rfl, rfl, rfl⟩

theorem TableInv.syscall {b : Boot} {k k' : Kernel} (h : TableInv b k) {nr a1 a2 a3 : ℕ} {regs : Context}
    (he : (syscallHandler k nr a1 a2 a3 regs).next = .ok k') : TableInv b k' := by
  have heff := syscall_effect k a1 a2 a3 regs nr
  generalize syscallHandler k nr a1 a2 a3 regs = o at heff he
  cases heff with
  | error nr e => cases he; exact h
  | stdout p hp hr => cases he; exact h.congr rfl rfl rfl rfl
  | write p f data stop hp hr hfd hperm hw =>
    cases he
    have h' : TableInv b (k.setData f.inode data) := h.congr rfl rfl rfl rfl
    exact h'.setFds hp _
  | opened p need inode fd fds hp => cases he; exact h.setFds hp fds
  | read p f hp hr hfd hperm =>
    cases he
    have h' : TableInv b { k with umem := putBytes k.umem a2 (readAt (k.fs.data f.inode) f.offset a3) } :=
      h.congr rfl rfl rfl rfl
    exact h'.setFds hp _
  | closed p f hp hfd => cases he; exact h.setFds hp _
  | exited p hp => cases he; exact h.put hp ⟨rfl, rfl, rfl, rfl⟩
  | stayed => cases he; exact h
  | switched p q i hp hi hq hrun =>
    cases he
    have h' := h.put (q := { p with context := switchContext p.context regs }) hp ⟨rfl, rfl, rfl, rfl⟩
    exact h'.switch (i := i) (p := q) (by rw [Scheduler.put_of_ne _ _ hi]; exact hq)

theorem TableInv.saveCurrent {b : Boot} {k : Kernel} (h : TableInv b k) (f : TrapFrame) :
    TableInv b { k with sched := k.sched.saveCurrent f } := by
  rcases saveCurrent_cases k.sched f with ⟨p, hp, e⟩ | ⟨-, e⟩
  · rw [e]; exact h.put hp ⟨rfl, rfl, rfl, rfl⟩
  · rw [e]; exact h

theorem TableInv.timer {b : Boot} {k : Kernel} (h : TableInv b k) {f : TrapFrame} {r : Kernel × Option Context}
    (hr : timerDoSwitch k f = .ok r) : TableInv b r.1 := by
  obtain ⟨g, s, e⟩ := k.ticked_eq
  have ht : TableInv b k.ticked := by rw [e]; exact h.congr rfl rfl rfl rfl
  have hsched : k.ticked.sched = k.sched := by rw [e]
  have hsave : TableInv b { k.ticked with sched := k.sched.saveCurrent f } := by
    rw [← hsched]; exact ht.saveCurrent f
  rcases timer_cases hr with rfl | rfl | ⟨i, q, -, hq, -, rfl⟩
  · exact ht
  · exact hsave
  · exact hsave.switch hq

/-! ## Creation -/

theorem ensureTable_used {s s' : Phys} {a u : ℕ} (h : ensureTable s a u = .ok s') {q : ℕ} (hb : bit s.pmm q = true) :
    bit s'.pmm q = true := by
  unfold ensureTable at h
  split_ifs at h
  · obtain ⟨⟨t, s₁⟩, ha, h⟩ := bind_ok.1 h
    cases h
    unfold allocTable at ha
    obtain ⟨r, hr, ha⟩ := bind_ok.1 ha
    split_ifs at ha
    cases ha
    obtain ⟨p, -, -, -, hm, -⟩ := Pmm.alloc_spec hr
    show bit r.2 q = true
    rw [hm, bit_setBit, hb, Bool.or_true]
  · cases h; exact hb
  · cases h; exact hb

theorem descend_used {s s' : Phys} {a u : ℕ} {next : Phys → Except Panic Phys} {q : ℕ}
    (hnext : ∀ t, bit t.pmm q = true → next t = .ok s' → bit s'.pmm q = true) (h : descend s a u next = .ok s')
    (hb : bit s.pmm q = true) : bit s'.pmm q = true := by
  unfold descend at h
  split_ifs at h
  · cases h; exact hb
  · cases h; exact hb
  · obtain ⟨t, ht, h⟩ := bind_ok.1 h
    exact hnext t (ensureTable_used ht hb) h

/-- mapping frees no page -/
theorem map_used {pml4 virt phys flags : ℕ} {s s' : Phys} (h : Vmm.map pml4 s virt phys flags = .ok s') {q : ℕ}
    (hb : bit s.pmm q = true) : bit s'.pmm q = true := by
  unfold Vmm.map at h
  obtain ⟨t, ht, h⟩ := bind_ok.1 h
  refine descend_used (fun t₂ hb₂ h₂ => ?_) h (ensureTable_used ht hb)
  refine descend_used (fun t₃ hb₃ h₃ => ?_) h₂ hb₂
  cases h₃
  exact hb₃

theorem mapCode_used {pml4 virt fnPhys : ℕ} {s s' : Phys} (h : mapCode pml4 virt fnPhys s = .ok s') {q : ℕ}
    (hb : bit s.pmm q = true) : bit s'.pmm q = true := by
  obtain ⟨u, h₁, h₂⟩ := mapCode_cases h
  exact map_used h₂ (map_used h₁ hb)

/-- the two stack pages of a new process were free, are used, and no page was freed -/
theorem processNew_spec {b : Boot} {pml4 pid mask entry : ℕ} {s s' : Phys} {grants : List Grant} {p : Process}
    (hr : Pmm.Reserved b.toImage s.pmm) (h : processNew pml4 s pid mask entry grants = .ok (p, s')) :
    p.pid = pid ∧ p.kernelStack = p.kernelStackPhys + 4096 ∧ p.Frames b.toImage ∧
      p.kernelStackPhys ≠ p.userStackPhys ∧ (∀ q, p.Owns q → bit s.pmm q = false ∧ bit s'.pmm q = true) ∧
      ∀ q, bit s.pmm q = true → bit s'.pmm q = true := by
  obtain ⟨stack, m₁, ustack, m₂, usv, off, ucv, s₁, h₁, h₂, -, -, -, hs₁, hs₂, rfl⟩ := processNew_cases h
  obtain ⟨hf₁, hb₁, hm₁⟩ := Pmm.alloc_frame hr h₁
  have hr₁ : Pmm.Reserved b.toImage m₁ := fun p hp hk => by rw [hm₁, hr p hp hk, Bool.or_true]
  obtain ⟨hf₂, hb₂, hm₂⟩ := Pmm.alloc_frame hr₁ h₂
  have hne : stack / 4096 ≠ ustack / 4096 := by
    intro he
    rw [hm₁, he] at hb₂
    simp at hb₂
  have hmono : ∀ q, bit m₂ q = true → bit s'.pmm q = true := fun q hq => mapCode_used hs₂ (map_used hs₁ hq)
  refine ⟨rfl, ?_, ⟨hf₁, hf₂⟩, ?_, ?_, ?_⟩
  · exact hf₁.andNot_end
  · intro he
    exact hne (by rw [show stack = ustack from he])
  · rintro q (hq | hq)
    · replace hq : q = stack / 4096 := hq
      subst hq
      exact ⟨hb₁, hmono _ (by rw [hm₂, hm₁]; simp)⟩
    · replace hq : q = ustack / 4096 := hq
      subst hq
      rw [hm₁, Bool.or_eq_false_iff] at hb₂
      exact ⟨hb₂.2, hmono _ (by rw [hm₂]; simp)⟩
  · intro q hq
    exact hmono q (by rw [hm₂, hm₁, hq]; simp)

/-- a field that tells the old processes apart, and the new one from them, tells all apart -/
theorem put_inj {α : Type} {f : Process → α} {s : Scheduler} {i : Fin 64} {p : Process}
    (hold : ∀ j l r t, s.processes j = some r → s.processes l = some t → f r = f t → j = l)
    (hnew : ∀ j r, s.processes j = some r → f r ≠ f p) {j l : Fin 64} {r t : Process}
    (hr : (s.put i (some p)).processes j = some r) (ht : (s.put i (some p)).processes l = some t) (he : f r = f t) :
    j = l := by
  rcases Scheduler.put_eq_some hr with ⟨rfl, hp⟩ | ⟨-, hr₀⟩
  · cases hp
    rcases Scheduler.put_eq_some ht with ⟨rfl, -⟩ | ⟨-, ht₀⟩
    · rfl
    · exact absurd he.symm (hnew l t ht₀)
  · rcases Scheduler.put_eq_some ht with ⟨rfl, hp⟩ | ⟨-, ht₀⟩
    · cases hp
      exact absurd he (hnew j r hr₀)
    · exact hold j l r t hr₀ ht₀ he

/-- the pages of a process that were free when it came -/
theorem StackPages.putNew {b : Boot} {s : Scheduler} {m m' : Words} {i : Fin 64} {p : Process} (h : StackPages b s m)
    (hf : p.Frames b.toImage) (hne : p.kernelStackPhys ≠ p.userStackPhys)
    (hown : ∀ q, p.Owns q → bit m q = false ∧ bit m' q = true) (hmono : ∀ q, bit m q = true → bit m' q = true) :
    StackPages b (s.put i (some p)) m' := by
  -- the pages of old processes are used
  have hfresh : ∀ {j r} {x : ℕ}, s.processes j = some r → p.Owns x → ¬ r.Owns x := fun hr hx hx' => by
    have := h.used _ _ _ hr hx'
    rw [(hown _ hx).1] at this
    cases this
  refine ⟨fun j r hr => ?_, fun j r x hr hx => ?_, fun j l r t hr ht he => ?_, fun j l r t hr ht he => ?_,
    fun j l r t hr ht he => ?_⟩
  · rcases Scheduler.put_eq_some hr with ⟨-, hp⟩ | ⟨-, hr⟩
    · cases hp
      exact hf
    · exact h.frames j r hr
  · rcases Scheduler.put_eq_some hr with ⟨-, hp⟩ | ⟨-, hr⟩
    · cases hp
      exact (hown x hx).2
    · exact hmono x (h.used j r x hr hx)
  · exact put_inj h.kernel_inj (fun _ _ hr he => hfresh hr (Or.inl rfl) (Or.inl (by rw [he]))) hr ht he
  · exact put_inj h.user_inj (fun _ _ hr he => hfresh hr (Or.inr rfl) (Or.inr (by rw [he]))) hr ht he
  · rcases Scheduler.put_eq_some hr with ⟨-, hp⟩ | ⟨-, hr₀⟩
    · cases hp
      rcases Scheduler.put_eq_some ht with ⟨-, hp⟩ | ⟨-, ht₀⟩
      · cases hp
        exact hne he
      · exact hfresh ht₀ (x := p.kernelStackPhys / 4096) (Or.inl rfl) (Or.inr (by rw [he]))
    · rcases Scheduler.put_eq_some ht with ⟨-, hp⟩ | ⟨-, ht₀⟩
      · cases hp
        exact hfresh hr₀ (x := p.userStackPhys / 4096) (Or.inr rfl) (Or.inl (by rw [he]))
      · exact h.apart j l r t hr₀ ht₀ he

/-- adding a process with a fresh pid and fresh stack pages -/
theorem Slots.add {b : Boot} {s s' : Scheduler} {m m' : Words} {n : ℕ} {p : Process} (h : Slots b s m n)
    (hadd : s.addProcess p = .ok s') (hpid : p.pid = n) (hf : p.Frames b.toImage)
    (hne : p.kernelStackPhys ≠ p.userStackPhys) (hown : ∀ q, p.Owns q → bit m q = false ∧ bit m' q = true)
    (hmono : ∀ q, bit m q = true → bit m' q = true) : Slots b s' m' (n + 1) := by
  obtain ⟨i, hi, rfl⟩ := Scheduler.addProcess_spec hadd
  have hpages : StackPages b (s.put i (some p)) m' := h.pages.putNew hf hne hown hmono
  refine ⟨?_, fun j r hr => ?_, fun j l r t hr ht he => ?_, { hpages with }, fun x hx hk => hmono x (h.reserved x hx hk)⟩
  · have hocc : ((s.put i (some p)).recount (s.count + 1)).occupied = insert i s.occupied := by
      ext j
      rw [Scheduler.mem_occupied, Finset.mem_insert, Scheduler.mem_occupied, Scheduler.recount_processes]
      by_cases hj : j = i
      · subst hj; simp
      · rw [Scheduler.put_of_ne _ _ hj]; simp [hj]
    rw [hocc, Finset.card_insert_of_notMem (by simp [hi]), ← h.count]
    rfl
  · rcases Scheduler.put_eq_some hr with ⟨-, hp⟩ | ⟨-, hr⟩
    · cases hp
      omega
    · exact Nat.lt_succ_of_lt (h.pid_lt j r hr)
  · refine put_inj h.pid_inj (fun j r hr he => ?_) hr ht he
    exact absurd (h.pid_lt j r hr) (by omega)

theorem Slots.new {b : Boot} {s s' : Scheduler} {m : Words} {ph ph' : Phys} {n mask entry pml4 : ℕ} {grants : List Grant}
    {p : Process} (h : Slots b s m n) (hm : m = ph.pmm) (hnew : processNew pml4 ph n mask entry grants = .ok (p, ph'))
    (hadd : s.addProcess p = .ok s') : Slots b s' ph'.pmm (n + 1) := by
  subst hm
  obtain ⟨hpid, -, hf, hne, hown, hmono⟩ := processNew_spec h.reserved hnew
  exact h.add hadd hpid hf hne hown hmono

theorem printDec_eq {k k' : Kernel} {msg : String} {n : ℕ} (h : k.printDec msg n = .ok k') :
    ∃ s, k' = { k with screen := s } := by
  obtain ⟨c, -, h⟩ := bind_ok.1 h
  cases h
  exact ⟨_, rfl⟩

/-- a spawn prints a message only, or adds a new process with the next pid to a table that is not full -/
theorem spawn_cases {b : Boot} {k k' : Kernel} {args : Bytes} (h : cmdSpawn b k args = .ok k') :
    (∃ s, k' = { k with screen := s }) ∨
      ∃ prog p ph sched screen, k.sched.count < 64 ∧
        processNew b.pml4 k.phys k.nextPid syscallMask (b.entry prog) prog.grants = .ok (p, ph) ∧
        k.sched.addProcess p = .ok sched ∧
        k' = { k with sched := sched, phys := ph, nextPid := k.nextPid + 1, screen := screen } := by
  unfold cmdSpawn at h
  cases hprog : programOf args with
  | none => rw [hprog] at h; cases h; exact Or.inl ⟨_, rfl⟩
  | some prog =>
    rw [hprog] at h
    dsimp only at h
    split_ifs at h with hc
    · cases h; exact Or.inl ⟨_, rfl⟩
    obtain ⟨next, hnext, h⟩ := bind_ok.1 h
    obtain ⟨-, rfl⟩ := ckAdd_ok.1 hnext
    obtain ⟨⟨p, ph⟩, hnew, h⟩ := bind_ok.1 h
    obtain ⟨sched, hadd, h⟩ := bind_ok.1 h
    obtain ⟨screen, rfl⟩ := printDec_eq h
    exact Or.inr ⟨prog, p, ph, sched, screen, by omega, hnew, hadd, rfl⟩

/-- the current process stays where it is when another slot is filled -/
theorem add_current {s s' : Scheduler} {p q : Process} (hadd : s.addProcess p = .ok s')
    (hq : s.processes s.current = some q) : s'.processes s'.current = some q := by
  obtain ⟨i, hi, rfl⟩ := Scheduler.addProcess_spec hadd
  have hne : s.current ≠ i := fun he => by rw [he, hi] at hq; cases hq
  rw [Scheduler.recount_processes, Scheduler.recount_current, Scheduler.put_current, Scheduler.put_of_ne _ _ hne]
  exact hq

theorem TableInv.spawn {b : Boot} {k k' : Kernel} (h : TableInv b k) {args : Bytes} (he : cmdSpawn b k args = .ok k') :
    TableInv b k' := by
  rcases spawn_cases he with ⟨s, rfl⟩ | ⟨prog, p, ph, sched, screen, -, hnew, hadd, rfl⟩
  · exact h.congr rfl rfl rfl rfl
  · obtain ⟨q, hq, hrsp⟩ := h.current
    exact ⟨h.slots.new rfl hnew hadd, q, add_current hadd hq, hrsp⟩

/-! ## Reaping -/

theorem Slots.reapSlot {b : Boot} {n : ℕ} {st st' : Scheduler × Words} {i : Fin 64} (h : Slots b st.1 st.2 n)
    (hr : Sched.reapSlot b.toImage st i = .ok st') : Slots b st'.1 st'.2 n := by
  rcases reapSlot_cases hr with ⟨-, rfl⟩ | ⟨p, ⟨-, hp, -⟩, hcount, rfl⟩
  · exact h
  have hf := h.pages.frames i p hp
  have hold : ∀ {j r}, ((st.1.put i none).recount (st.1.count - 1)).processes j = some r →
      j ≠ i ∧ st.1.processes j = some r := by
    intro j r hr
    rcases Scheduler.put_eq_some hr with ⟨-, hnone⟩ | hold
    · cases hnone
    · exact hold
  have hbit : ∀ q, bit (Pmm.free b.toImage (Pmm.free b.toImage st.2 p.kernelStackPhys) p.userStackPhys) q =
      (decide (q ≠ p.userStackPhys / 4096) && (decide (q ≠ p.kernelStackPhys / 4096) && bit st.2 q)) := by
    intro q
    rw [Pmm.bit_free_frame _ hf.2, Pmm.bit_free_frame _ hf.1]
  refine ⟨?_, fun j r hr => h.pid_lt j r (hold hr).2, fun j l r t hr ht => h.pid_inj j l r t (hold hr).2 (hold ht).2,
    ⟨fun j r hr => h.pages.frames j r (hold hr).2, ?_, fun j l r t hr ht => h.pages.kernel_inj j l r t (hold hr).2
      (hold ht).2, fun j l r t hr ht => h.pages.user_inj j l r t (hold hr).2 (hold ht).2,
      fun j l r t hr ht => h.pages.apart j l r t (hold hr).2 (hold ht).2⟩, ?_⟩
  · have hocc : ((st.1.put i none).recount (st.1.count - 1)).occupied = st.1.occupied.erase i := by
      ext j
      rw [Scheduler.mem_occupied, Finset.mem_erase, Scheduler.mem_occupied, Scheduler.recount_processes]
      by_cases hj : j = i
      · subst hj; simp
      · rw [Scheduler.put_of_ne _ _ hj]; simp [hj]
    have hmem : i ∈ st.1.occupied := by simp [hp]
    rw [hocc, Finset.card_erase_of_mem hmem, ← h.count]
    rfl
  · intro j r x hr hx
    obtain ⟨hj, hr⟩ := hold hr
    -- the pages freed are those of slot i
    have hown : ¬ p.Owns x := fun ho => hj (h.pages.owns_inj hr hp hx ho)
    rw [hbit, h.pages.used j r x hr hx, Bool.and_true, Bool.and_eq_true, decide_eq_true_eq, decide_eq_true_eq]
    exact ⟨fun he => hown (Or.inr he), fun he => hown (Or.inl he)⟩
  · intro x hx hk
    rw [hbit, h.reserved x hx hk, Bool.and_true, Bool.and_eq_true, decide_eq_true_eq, decide_eq_true_eq]
    exact ⟨fun he => hf.2.unprotected (he ▸ hk), fun he => hf.1.unprotected (he ▸ hk)⟩

theorem Slots.reap {b : Boot} {n : ℕ} {s : Scheduler} {m : Words} {r : Scheduler × Words} (h : Slots b s m n)
    (hr : Sched.reap b.toImage s m = .ok r) : Slots b r.1 r.2 n :=
  @reap_invariant b.toImage (fun u => Slots b u.1 u.2 n) (fun _ _ _ hI hs => hI.reapSlot hs) _ (s, m) r h hr

theorem findPid_spec {s : Scheduler} {pid : ℕ} {i : Fin 64} {p : Process} (h : s.findPid pid = some (i, p)) :
    s.processes i = some p ∧ p.pid = pid := by
  obtain ⟨j, -, hj⟩ := List.exists_of_findSome?_eq_some h
  cases hp : s.processes j with
  | none => simp [hp] at hj
  | some q =>
    simp only [hp] at hj
    split_ifs at hj with hq
    cases hj
    exact ⟨hp, hq⟩

/-- a kill prints a message only, or marks the process dead and reaps -/
theorem kill_cases {b : Boot} {k k' : Kernel} {args : Bytes} (h : cmdKill b k args = .ok k') :
    (∃ s, k' = { k with screen := s }) ∨
      ∃ i p r screen, k.sched.processes i = some p ∧ (parseDec args = some p.pid ∧ p.state ≠ .dead) ∧
        Sched.reap b.toImage (k.sched.put i (some { p with state := .dead })) k.phys.pmm = .ok r ∧
        k' = { k with sched := r.1, phys := { k.phys with pmm := r.2 }, screen := screen } := by
  unfold cmdKill at h
  cases hpid : parseDec args with
  | none => rw [hpid] at h; cases h; exact Or.inl ⟨_, rfl⟩
  | some pid =>
    rw [hpid] at h
    dsimp only at h
    cases hfind : k.sched.findPid pid with
    | none => rw [hfind] at h; cases h; exact Or.inl ⟨_, rfl⟩
    | some r =>
      obtain ⟨i, p⟩ := r
      rw [hfind] at h
      dsimp only at h
      split_ifs at h with hlive
      · cases h; exact Or.inl ⟨_, rfl⟩
      obtain ⟨u, hu, h⟩ := bind_ok.1 h
      unfold killAndReap at hu
      obtain ⟨r, hr, hu⟩ := bind_ok.1 hu
      cases hu
      obtain ⟨screen, rfl⟩ := printDec_eq h
      obtain ⟨hp, rfl⟩ := findPid_spec hfind
      exact Or.inr ⟨i, p, r, screen, hp, ⟨rfl, hlive⟩, hr, rfl⟩

/-- the current process survives a reap, with the same kernel stack -/
theorem reap_currentProcess {b : Boot} {s : Scheduler} {m : Words} {r : Scheduler × Words}
    (hr : Sched.reap b.toImage s m = .ok r) : r.1.processes r.1.current = s.processes s.current := by
  have hc : r.1.current = s.current := reap_current hr
  rw [hc]
  rcases reap_processes hr s.current with ⟨-, ⟨p, hp⟩, -⟩ | ⟨-, he⟩
  · exact absurd rfl hp.1
  · exact he

theorem TableInv.kill {b : Boot} {k k' : Kernel} (h : TableInv b k) {args : Bytes} (he : cmdKill b k args = .ok k') :
    TableInv b k' := by
  rcases kill_cases he with ⟨s, rfl⟩ | ⟨i, p, r, screen, hp, -, hr, rfl⟩
  · exact h.congr rfl rfl rfl rfl
  · have hdead := h.put (q := { p with state := .dead }) hp ⟨rfl, rfl, rfl, rfl⟩
    obtain ⟨q, hq, hrsp⟩ := hdead.current
    exact ⟨hdead.slots.reap hr, q, (reap_currentProcess hr).trans hq, hrsp⟩

/-! ## Runs -/

theorem TableInv.allocPage {b : Boot} {k k' : Kernel} (h : TableInv b k) (he : Tomorrow.allocPage k = .ok k') :
    TableInv b k' := by
  obtain ⟨⟨a, m⟩, ha, he⟩ := bind_ok.1 he
  cases he
  obtain ⟨-, -, hm⟩ := Pmm.alloc_frame h.slots.reserved ha
  have hmono : ∀ q, bit k.phys.pmm q = true → bit m q = true := fun q hq => by rw [hm, hq, Bool.or_true]
  have hs := h.slots
  exact ⟨⟨hs.count, hs.pid_lt, hs.pid_inj, ⟨hs.pages.frames, fun i p q hp hq => hmono q (hs.pages.used i p q hp hq),
    hs.pages.kernel_inj, hs.pages.user_inj, hs.pages.apart⟩, fun p hp hk => hmono p (hs.reserved p hp hk)⟩, h.current⟩

/-- one event keeps the invariant -/
theorem step_table {b : Boot} {k k' : Kernel} {o : Op} (h : TableInv b k) (he : step b k o = .ok k') :
    TableInv b k' := by
  cases o with
  | syscall nr a1 a2 a3 regs => exact h.syscall he
  | store addr v => cases he; exact h.congr rfl rfl rfl rfl
  | spawn args => exact h.spawn he
  | kill args => exact h.kill he
  | write args | create args | rm args =>
    obtain ⟨fs, s, rfl⟩ := step_onFiles rfl he
    exact h.congr rfl rfl rfl rfl
  | timer f =>
    obtain ⟨r, hr, he⟩ := bind_ok.1 he
    cases he
    exact h.timer hr
  | allocPage => exact h.allocPage he

/-- what boot does, step by step -/
theorem boot_cases {b : Boot} {k k' : Kernel} (h : boot b k = .ok k') :
    ∃ p₁ ph₁ p₂ ph₂ s₁ s₂ p screen, processNew b.pml4 k.phys 1 syscallMask (b.entry .a) [] = .ok (p₁, ph₁) ∧
      processNew b.pml4 ph₁ 2 syscallMask (b.entry .b) [] = .ok (p₂, ph₂) ∧ k.sched.addProcess p₁ = .ok s₁ ∧
      s₁.addProcess p₂ = .ok s₂ ∧ s₂.processes 0 = some p ∧
      k' = { k with sched := s₂, phys := ph₂, schedulerReady := true, screen := screen, rsp0 := p.kernelStack } := by
  unfold boot at h
  obtain ⟨⟨p₁, ph₁⟩, h₁, h⟩ := bind_ok.1 h
  obtain ⟨⟨p₂, ph₂⟩, h₂, h⟩ := bind_ok.1 h
  obtain ⟨s₁, h₃, h⟩ := bind_ok.1 h
  obtain ⟨s₂, h₄, h⟩ := bind_ok.1 h
  cases hp : s₂.processes 0 with
  | none => simp [hp] at h
  | some p =>
    simp only [hp] at h
    cases h
    exact ⟨p₁, ph₁, p₂, ph₂, s₁, s₂, p, _, h₁, h₂, h₃, h₄, hp, rfl⟩

theorem addProcess_current {s s' : Scheduler} {p : Process} (h : s.addProcess p = .ok s') : s'.current = s.current := by
  obtain ⟨i, -, rfl⟩ := Scheduler.addProcess_spec h
  rfl

theorem start_slots {b : Boot} {k : Kernel} (hs : Start b k) : Slots b k.sched k.phys.pmm 1 := by
  rw [hs.sched]
  refine ⟨by simp [Scheduler.empty, Scheduler.occupied], fun i p hp => ?_, fun i j p q hp => ?_,
    ⟨fun i p hp => ?_, fun i p q hp => ?_, fun i j p q hp => ?_, fun i j p q hp => ?_, fun i j p q hp => ?_⟩,
    hs.reserved⟩ <;> cases hp

theorem boot_table {b : Boot} {k k' : Kernel} (hs : Start b k) (h : boot b k = .ok k') : TableInv b k' := by
  obtain ⟨p₁, ph₁, p₂, ph₂, s₁, s₂, p, screen, h₁, h₂, h₃, h₄, hp, rfl⟩ := boot_cases h
  have hslots : Slots b s₂ ph₂.pmm 3 := ((start_slots hs).new rfl h₁ h₃).new rfl h₂ h₄
  have hcur : s₂.current = 0 := by
    rw [addProcess_current h₄, addProcess_current h₃, hs.sched]
    rfl
  refine ⟨?_, p, ?_, rfl⟩
  · show Slots b s₂ ph₂.pmm k.nextPid
    rw [hs.nextPid]
    exact hslots
  · show s₂.processes s₂.current = some p
    rw [hcur]
    exact hp

/-- the invariant in every state of a run from boot -/
theorem reachable_table {b : Boot} {k : Kernel} (h : Reachable b k) : TableInv b k := by
  obtain ⟨k₀, k₁, ops, hs, hb, hr⟩ := h
  exact run_invariant (fun _ _ _ hI he => step_table hI he) (boot_table hs hb) hr

/-! ## Panics of a spawn -/

/-- a panic other than that of `add_process` -/
def NotFull (e : Panic) : Prop := e ≠ .explicit "scheduler: too many processes"

theorem notFull_overflow : NotFull .overflow := by unfold NotFull; decide

theorem alloc_fails (m : Words) : Fails NotFull (Pmm.alloc m) := by
  intro e h
  unfold Pmm.alloc at h
  split at h
  · cases h
  · cases h; unfold NotFull; decide

theorem ensureTable_fails (s : Phys) (a u : ℕ) : Fails NotFull (ensureTable s a u) := by
  unfold ensureTable
  split_ifs
  · refine Fails.bind ?_ fun r _ => Fails.ok _
    unfold allocTable
    refine (alloc_fails s.pmm).bind fun r _ => ?_
    split_ifs
    · intro e h; cases h; unfold NotFull; decide
    · exact Fails.ok _
  · exact Fails.ok _
  · exact Fails.ok _

theorem descend_fails {s : Phys} {a u : ℕ} {next : Phys → Except Panic Phys} (hnext : ∀ t, Fails NotFull (next t)) :
    Fails NotFull (descend s a u next) := by
  unfold descend
  split_ifs
  · exact Fails.ok _
  · exact Fails.ok _
  · exact (ensureTable_fails s a u).bind fun t _ => hnext t

theorem map_fails (pml4 : ℕ) (s : Phys) (virt phys flags : ℕ) : Fails NotFull (Vmm.map pml4 s virt phys flags) :=
  (ensureTable_fails _ _ _).bind fun _ _ => descend_fails fun _ => descend_fails fun _ => Fails.ok _

theorem mapCode_fails (pml4 virt fnPhys : ℕ) (s : Phys) : Fails NotFull (mapCode pml4 virt fnPhys s) := by
  unfold mapCode
  generalize List.range codePages = l
  induction l generalizing s with
  | nil => exact Fails.ok s
  | cons i l ih =>
    rw [List.foldlM_cons]
    exact (map_fails _ _ _ _ _).bind fun t _ => ih t

theorem processNew_fails (pml4 : ℕ) (s : Phys) (pid mask entry : ℕ) (grants : List Grant) :
    Fails NotFull (processNew pml4 s pid mask entry grants) := by
  have hov := notFull_overflow
  unfold processNew userStackVirt userCodeVirt
  refine (alloc_fails _).bind fun stack _ => (alloc_fails _).bind fun ustack _ => ?_
  refine ((ckMul_fails hov _ _).bind fun x _ => ckAdd_fails hov _ _).bind fun usv _ => ?_
  refine (ckSub_fails hov _ _).bind fun off _ => ?_
  refine ((ckMul_fails hov _ _).bind fun x _ => (ckMul_fails hov _ _).bind fun y _ => ckAdd_fails hov _ _).bind
    fun ucv _ => ?_
  refine (map_fails _ _ _ _ _).bind fun s₁ _ => (mapCode_fails _ _ _ _).bind fun s₂ _ => ?_
  exact (ckAdd_fails hov _ _).bind fun _ _ => (ckAdd_fails hov _ _).bind fun _ _ => Fails.ok _

theorem printDec_fails (k : Kernel) (msg : String) {n : ℕ} (hn : n < 2 ^ 64) : Fails NotFull (k.printDec msg n) := by
  unfold Kernel.printDec
  rw [Console.writeDec_eq _ hn, ok_bind]
  exact Fails.ok _

/-- the count is below 64, so there is an empty slot -/
theorem spawn_fails {b : Boot} {k : Kernel} (h : TableInv b k) (args : Bytes) : Fails NotFull (cmdSpawn b k args) := by
  unfold cmdSpawn
  cases programOf args with
  | none => exact Fails.ok _
  | some prog =>
    dsimp only
    split_ifs with hc
    · exact Fails.ok _
    refine (ckAdd_fails notFull_overflow _ _).bind fun next hnext => (processNew_fails _ _ _ _ _ _).bind fun r _ => ?_
    obtain ⟨s', hs'⟩ := Scheduler.addProcess_ok (s := k.sched) r.1 (by rw [← h.slots.count]; omega)
    rw [hs', ok_bind]
    exact printDec_fails _ _ (by have := (ckAdd_ok.1 hnext).1; omega)

/-! ## The table over whole runs -/

/-- a kill frees exactly the stack pages of the processes it removes from the table -/
theorem kill_bit {b : Boot} {k k' : Kernel} (h : TableInv b k) {args : Bytes} (he : cmdKill b k args = .ok k') (q : ℕ) :
    bit k'.phys.pmm q = true ↔
      bit k.phys.pmm q = true ∧
        ∀ i p, k.sched.processes i = some p → k'.sched.processes i = none → ¬ p.Owns q := by
  rcases kill_cases he with ⟨s, rfl⟩ | ⟨i, p, r, screen, hp, -, hr, rfl⟩
  · exact ⟨fun hb => ⟨hb, fun i p hp hn => by rw [show k.sched.processes i = none from hn] at hp; cases hp⟩, fun hb => hb.1⟩
  · have hdead := h.put (q := { p with state := .dead }) hp ⟨rfl, rfl, rfl, rfl⟩
    have hbit := @reap_bit b.toImage _ (k.sched.put i (some { p with state := .dead }), k.phys.pmm) r
      (fun j t ht => hdead.slots.pages.frames j t ht.2.1) hr q
    rw [show bit r.2 q = bit (r.1, r.2).2 q from rfl, hbit]
    refine and_congr_right fun _ => ⟨fun hall j t ht hnone => ?_, fun hall j _ t ht => ?_⟩
    · -- an emptied slot held a reapable process
      rcases reap_processes hr j with ⟨hj, ⟨t', ht'⟩, -⟩ | ⟨-, he'⟩
      · obtain ⟨t'', ht'', e⟩ := put_cases hp (q := { p with state := .dead }) ⟨rfl, rfl, rfl, rfl⟩ ht'.2.1
        rw [ht] at ht''
        cases ht''
        exact fun ho => hall j hj t' ht' (e.owns.2 ho)
      · rw [show r.1.processes j = none from hnone] at he'
        by_cases hj : j = i
        · subst hj; rw [Scheduler.put_self] at he'; cases he'
        · rw [Scheduler.put_of_ne _ _ hj, ht] at he'; cases he'
    · obtain ⟨t', ht', e⟩ := put_cases hp (q := { p with state := .dead }) ⟨rfl, rfl, rfl, rfl⟩ ht.2.1
      have hnone : r.1.processes j = none := by
        rcases reap_processes hr j with ⟨-, -, he'⟩ | ⟨hnot, -⟩
        · exact he'
        · exact absurd ht (hnot (List.mem_finRange j) t)
      exact fun ho => hall j t' ht' hnone (e.owns.1 ho)

/-- **Process table.** In every state that a run of events from boot reaches: the count is the number of occupied slots
and at most 64; the current slot is occupied and its kernel stack is in the TSS; pids are distinct and below the next
one; the stack pages of all slots are distinct pages marked used; a kill frees exactly the two stack pages of each slot
it empties; a spawn does not panic in `add_process`, and in a full table it changes the console only. -/
theorem process_table (b : Boot) (k : Kernel) (h : Reachable b k) :
    k.sched.count = k.sched.occupied.card ∧ k.sched.count ≤ 64 ∧
    (∃ p, k.sched.processes k.sched.current = some p ∧ k.rsp0 = p.kernelStack) ∧
    (∀ i p, k.sched.processes i = some p → p.pid < k.nextPid) ∧
    (∀ i j p q, k.sched.processes i = some p → k.sched.processes j = some q → i ≠ j → p.pid ≠ q.pid) ∧
    (∀ i p, k.sched.processes i = some p → p.kernelStackPhys ≠ p.userStackPhys ∧
      bit k.phys.pmm (p.kernelStackPhys / 4096) = true ∧ bit k.phys.pmm (p.userStackPhys / 4096) = true) ∧
    (∀ i j p q, k.sched.processes i = some p → k.sched.processes j = some q → i ≠ j → ∀ x, p.Owns x → ¬ q.Owns x) ∧
    (∀ args k', cmdKill b k args = .ok k' → ∀ x, bit k'.phys.pmm x = true ↔ bit k.phys.pmm x = true ∧
      ∀ i p, k.sched.processes i = some p → k'.sched.processes i = none → ¬ p.Owns x) ∧
    (∀ args, cmdSpawn b k args ≠ .error (.explicit "scheduler: too many processes")) ∧
    ∀ args prog, programOf args = some prog → 64 ≤ k.sched.count →
      ∃ k', cmdSpawn b k args = .ok k' ∧ k' = k.print (str "scheduler full\n") ∧ k'.sched = k.sched ∧
        k'.phys = k.phys ∧ k'.nextPid = k.nextPid := by
  have hinv := reachable_table h
  have hs := hinv.slots
  refine ⟨hs.count, hs.count ▸ k.sched.occupied_le, hinv.current, hs.pid_lt, fun i j p q hp hq hij he =>
    hij (hs.pid_inj i j p q hp hq he), fun i p hp => ⟨hs.pages.apart i i p p hp hp,
      hs.pages.used i p _ hp (Or.inl rfl), hs.pages.used i p _ hp (Or.inr rfl)⟩,
    fun i j p q hp hq hij x hx hx' => hij (hs.pages.owns_inj hp hq hx hx'), fun args k' he => kill_bit hinv he,
    fun args he => spawn_fails hinv args _ he rfl, fun args prog hprog hfull => ?_⟩
  refine ⟨_, ?_, rfl, rfl, rfl, rfl⟩
  unfold cmdSpawn
  rw [hprog]
  exact if_pos hfull

/-- the small machine boots; killing process 2 then frees its stack pages -/
theorem process_table_demo : ∃ k₁ k, boot demoBoot demoKernel = .ok k₁ ∧ run (step demoBoot) k₁ [.kill [0x32]] = .ok k ∧
    k.sched.count = k.sched.occupied.card := by
  obtain ⟨k₁, h₁⟩ := succeeds_iff.1 (show succeeds (boot demoBoot demoKernel) = true by decide +kernel)
  obtain ⟨k, h⟩ := succeeds_iff.1 (show succeeds (boot demoBoot demoKernel >>= fun k₁ =>
    run (step demoBoot) k₁ [.kill [0x32]]) = true by decide +kernel)
  rw [h₁, ok_bind] at h
  exact ⟨k₁, k, h₁, h, (process_table demoBoot k ⟨demoKernel, k₁, _, demoStart, h₁, h⟩).1⟩

end Tomorrow
