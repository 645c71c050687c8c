/-
Grants over whole runs: where the open files of a process come from, and who may read and change the bytes of an inode.

`sys_open` checks the grant of a name once; afterwards only the bits in the descriptor are looked at, while descriptors
are closed and used again and names are deleted and bound to other inodes. `FdStep` says where an open file in the state
after an event was before it: in the same descriptor, or nowhere, and then the event is the open. From it the trace form
`run_opened`: every open file goes back to an open in the run, at which the name was bound to its inode and granted with
its rights, and since then the descriptor has stayed open on that inode. `grant_safety` adds what reads and writes need.
-/
import Tomorrow.Kernel.FileStep

namespace Tomorrow

open Tomorrow.Core Files Sched Shell Vmm

/-! ## Rights -/

/-- the first grant for the name has every bit of perms -/
def Sched.Process.Granted (p : Process) (name : Bytes) (perms : UInt8) : Prop :=
  ∃ g, p.grants.find? (fun g => g.name = name) = some g ∧ g.perms &&& perms = perms

theorem neededPerms_ne_zero {flags : ℕ} {need : UInt8} (h : neededPerms flags = some need) : need ≠ 0 := by
  unfold neededPerms at h
  split_ifs at h
  · cases h; decide
  · cases h; decide
  · cases h; decide

theorem granted_iff {p : Process} {name : Bytes} {perms : UInt8} (h0 : perms ≠ 0) :
    p.granted name &&& perms = perms ↔ p.Granted name perms := by
  unfold Process.granted Process.Granted
  cases hf : p.grants.find? fun g => g.name = name with
  | none =>
    simp only [Option.map_none, Option.getD_none, reduceCtorEq, false_and, exists_false, iff_false]
    rw [UInt8.zero_and]
    exact Ne.symm h0
  | some g => simp

/-- a right that the descriptor has is one that the grant has -/
theorem Sched.Process.Granted.bit {p : Process} {name : Bytes} {perms m : UInt8} (h : p.Granted name perms)
    (hm : perms &&& m = m) : p.Granted name m := by
  obtain ⟨g, hg, he⟩ := h
  refine ⟨g, hg, ?_⟩
  calc g.perms &&& m = g.perms &&& (perms &&& m) := by rw [hm]
    _ = (g.perms &&& perms) &&& m := (UInt8.and_assoc _ _ _).symm
    _ = m := by rw [he, hm]

/-- a test for one bit that does not give 0 finds the bit -/
theorem and_two_pow_of_ne_zero {x m : UInt8} {j : ℕ} (hm : m.toNat = 2 ^ j) (h : x &&& m ≠ 0) : x &&& m = m := by
  have hx : (x &&& m).toNat = (x.toNat.testBit j).toNat * 2 ^ j := by rw [UInt8.toNat_and, hm, Nat.and_two_pow]
  cases hb : x.toNat.testBit j with
  | false =>
    rw [hb] at hx
    refine absurd (UInt8.toNat_inj.1 ?_) h
    simpa using hx
  | true =>
    rw [hb] at hx
    exact UInt8.toNat_inj.1 (by rw [hx, hm]; simp)

theorem permRead_of_ne_zero {x : UInt8} (h : x &&& permRead ≠ 0) : x &&& permRead = permRead :=
  and_two_pow_of_ne_zero (j := 0) rfl h

theorem permWrite_of_ne_zero {x : UInt8} (h : x &&& permWrite ≠ 0) : x &&& permWrite = permWrite :=
  and_two_pow_of_ne_zero (j := 1) rfl h

/-! ## Where an open file was before an event -/

/-- the event is a shell write that replaces the bytes of inode I through a name bound to it -/
def ShellWrites (k : Kernel) (o : Op) (k' : Kernel) (I : ℕ) : Prop :=
  ∃ args, o = .write args ∧ args ≠ [] ∧ k.fs.lookup (splitFirstWord args).1 = some I ∧
    k'.fs.data I = (splitFirstWord args).2

/-- the event is a `sys_write` of p, the current process, through its open file f -/
def CallWrites (k : Kernel) (o : Op) (k' : Kernel) (p : Process) (fd : ℕ) (f : OpenFile) : Prop :=
  ∃ a1 a2 a3 regs, o = .syscall 1 a1 a2 a3 regs ∧ k.currentProcess = some p ∧ a1.toNat = fd ∧
    p.fds[fd]? = some (some f) ∧ f.perms &&& permWrite ≠ 0 ∧
    ∃ stop, writeAt (k.fs.data f.inode) f.offset (k.userBytes a2.toNat a3.toNat) = some (k'.fs.data f.inode, stop)

/-- the event is an open by the process p in slot i under this name that returned fd, with f the file now open there -/
structure Opens (k : Kernel) (o : Op) (k' : Kernel) (i : Fin 64) (p : Process) (fd : ℕ) (f : OpenFile) (name : Bytes) :
    Prop where
  current : k.sched.current = i
  caller : k.currentProcess = some p
  call : ∃ a1 a2 a3 regs, o = .syscall 2 a1 a2 a3 regs ∧ name = k.userBytes a1.toNat a2.toNat ∧
    syscallHandler k sysOpenNr a1.toNat a2.toNat a3.toNat regs = .returns fd k'
  bound : k.fs.lookup name = some f.inode
  granted : p.Granted name f.perms
  start : f.offset = 0
  free : ∀ g, p.fds[fd]? ≠ some (some g)

/-- where the file f', open in descriptor fd of the process q in slot i after the event, was before it -/
inductive FdStep (k : Kernel) (o : Op) (k' : Kernel) (i : Fin 64) (q : Process) (fd : ℕ) (f' : OpenFile) : Prop where
  | kept (p : Process) (hp : k.sched.processes i = some p) (hpid : q.pid = p.pid) (hg : q.grants = p.grants)
      (hf : p.fds[fd]? = some (some f'))
  /-- a read through the descriptor has moved its offset -/
  | read (a1 a2 a3 : UInt64) (regs : Context) (p : Process) (f : OpenFile) (off : ℕ)
      (ho : o = .syscall 0 a1 a2 a3 regs) (hi : k.sched.current = i) (hfd : a1.toNat = fd)
      (hp : k.sched.processes i = some p) (hpid : q.pid = p.pid) (hg : q.grants = p.grants)
      (hf : p.fds[fd]? = some (some f)) (he : f' = { f with offset := off })
  /-- a write through the descriptor has moved its offset -/
  | wrote (p : Process) (f : OpenFile) (off : ℕ) (hw : CallWrites k o k' p fd f) (hp : k.sched.processes i = some p)
      (hpid : q.pid = p.pid) (hg : q.grants = p.grants) (hf : p.fds[fd]? = some (some f))
      (he : f' = { f with offset := off })
  | opened (p : Process) (name : Bytes) (hpid : q.pid = p.pid) (hg : q.grants = p.grants)
      (h : Opens k o k' i p fd f' name)

/-- what a change of the descriptor table of the current process leaves to look at -/
theorem setFds_cases {s : Scheduler} {p q : Process} {i : Fin 64} {fds : List (Option OpenFile)}
    (hq : (s.put s.current (some { p with fds := fds })).processes i = some q) :
    (i = s.current ∧ q = { p with fds := fds }) ∨ (i ≠ s.current ∧ s.processes i = some q) := by
  rcases Scheduler.put_eq_some hq with ⟨rfl, hr⟩ | hold
  · exact Or.inl ⟨rfl, (Option.some.inj hr).symm⟩
  · exact Or.inr hold

theorem set_get {fds : List (Option OpenFile)} {j fd : ℕ} {o : Option OpenFile} {f : OpenFile}
    (h : (fds.set j o)[fd]? = some (some f)) : (fd = j ∧ o = some f) ∨ (fd ≠ j ∧ fds[fd]? = some (some f)) := by
  by_cases hj : j = fd
  · subst hj
    rw [List.getElem?_set_self'] at h
    cases hl : fds[j]? with
    | none => rw [hl] at h; cases h
    | some x => rw [hl] at h; exact Or.inl ⟨rfl, Option.some.inj h⟩
  · rw [List.getElem?_set_ne hj] at h
    exact Or.inr ⟨Ne.symm hj, h⟩

theorem fd_step {k k' : Kernel} {o : Op} (he : FileStep k o k') {i : Fin 64} {q : Process} {fd : ℕ} {f' : OpenFile}
    (hq : k'.sched.processes i = some q) (hf : q.fds[fd]? = some (some f')) : FdStep k o k' i q fd f' := by
  -- the current process replaced one descriptor, or the slot is another one
  have hset : ∀ {p : Process} {j : ℕ} {x : Option OpenFile}, k.currentProcess = some p →
      (k.sched.put k.sched.current (some { p with fds := p.fds.set j x })).processes i = some q →
      (fd = j → x = some f' → k.sched.current = i → q.pid = p.pid → q.grants = p.grants → FdStep k o k' i q fd f') →
      FdStep k o k' i q fd f' := by
    intro p j x hp hput hnew
    rcases setFds_cases hput with ⟨rfl, rfl⟩ | ⟨-, hold⟩
    · rcases set_get hf with ⟨rfl, hx⟩ | ⟨-, hold⟩
      · exact hnew rfl hx rfl rfl rfl
      · exact .kept p hp rfl rfl hold
    · exact .kept q hold rfl rfl hf
  cases he with
  | kept o k' hfs hk hu =>
    rcases hk i with hn | ⟨p, q', hp, hq', e⟩
    · rw [hn] at hq; cases hq
    · rw [hq'] at hq
      cases hq
      exact .kept p hp e.pid e.grants (e.fds ▸ hf)
  | spawned o k' j p n hfs hu hj hs hp =>
    rw [hs, Scheduler.recount_processes] at hq
    rcases Scheduler.put_eq_some hq with ⟨-, hr⟩ | ⟨-, hq⟩
    · -- a new process has no open files
      obtain rfl := Option.some.inj hr
      exact absurd hf (hp.closed fd f')
    · exact .kept q hq rfl rfl hf
  | shellWrite args k' hfs hs hu ha => rw [hs] at hq; exact .kept q hq rfl rfl hf
  | shellCreate args k' hfs hs hu => rw [hs] at hq; exact .kept q hq rfl rfl hf
  | shellRm args k' hfs hs hu => rw [hs] at hq; exact .kept q hq rfl rfl hf
  | write a1 a2 a3 regs p f data stop hp hfd hperm hw =>
    refine hset hp hq fun hj hx hi hpid hg => ?_
    subst hj
    refine .wrote p f stop ⟨a1, a2, a3, regs, rfl, hp, rfl, hfd, hperm, stop, ?_⟩ (hi ▸ hp) hpid hg hfd
      (Option.some.inj hx).symm
    rw [hw]
    simp [Kernel.setFds, Kernel.setData]
  | opened a1 a2 a3 regs p need inode fd' fds hp hneed hgrant hlookup hinst hret =>
    rcases setFds_cases hq with ⟨rfl, rfl⟩ | ⟨-, hold⟩
    · rcases installFd_get hinst hf with ⟨rfl, rfl⟩ | ⟨-, hold⟩
      · have hgranted := (granted_iff (neededPerms_ne_zero hneed)).1 hgrant
        exact .opened p _ rfl rfl ⟨rfl, hp, ⟨a1, a2, a3, regs, rfl, rfl, hret⟩, hlookup, hgranted, rfl,
          fun g => installFd_free hinst⟩
      · exact .kept p hp rfl rfl hold
    · exact .kept q hold rfl rfl hf
  | read a1 a2 a3 regs p f hp hfd hperm =>
    refine hset hp hq fun hj hx hi hpid hg => ?_
    exact .read a1 a2 a3 regs p f _ rfl hi hj.symm (hi ▸ hp) hpid hg (hj ▸ hfd)
      (Option.some.inj hx).symm
  | closed a1 a2 a3 regs p f hp hfd =>
    exact hset hp hq fun _ hx => by cases hx

/-! ## Runs -/

section

variable (b : Boot) (k₁ : Kernel)

/-- after the first t events the process with this pid in slot i has fd open on the inode and with the rights of f -/
def OpenSince (ops : List Op) (t : ℕ) (i : Fin 64) (pid fd : ℕ) (f : OpenFile) : Prop :=
  ∃ u p g, run (step b) k₁ (ops.take t) = .ok u ∧ u.sched.processes i = some p ∧ p.pid = pid ∧
    p.fds[fd]? = some (some g) ∧ g.inode = f.inode ∧ g.perms = f.perms

/-- event t of the run opened, under this name, the file f that the process p in slot i has in descriptor fd at the end of
the run, and fd has stayed open on it since -/
def OpenedBy (ops : List Op) (t : ℕ) (i : Fin 64) (p : Process) (fd : ℕ) (f : OpenFile) (name : Bytes) : Prop :=
  (∃ u o u' q f₀, run (step b) k₁ (ops.take t) = .ok u ∧ ops[t]? = some o ∧ Opens u o u' i q fd f₀ name ∧
    f₀.inode = f.inode ∧ f₀.perms = f.perms ∧ q.pid = p.pid ∧ q.grants = p.grants) ∧
  ∀ s, t < s → s ≤ ops.length → OpenSince b k₁ ops s i p.pid fd f

/-- every process is as `Process::new` makes it, with any grants, and every file has an inode of its own -/
structure Fresh (k : Kernel) : Prop where
  processes : AllProcesses FreshFiles k.sched
  files : k.fs.WellFormed

variable {b k₁}

theorem OpenSince.snoc {ops : List Op} {t : ℕ} {i : Fin 64} {pid fd : ℕ} {f : OpenFile} (o : Op)
    (h : OpenSince b k₁ ops t i pid fd f) (ht : t ≤ ops.length) : OpenSince b k₁ (ops ++ [o]) t i pid fd f := by
  unfold OpenSince
  rw [List.take_append_of_le_length ht]
  exact h

/-- the open of a file stays its open as long as the file stays in its descriptor -/
theorem OpenedBy.snoc {ops : List Op} {t : ℕ} {i : Fin 64} {p q : Process} {fd : ℕ} {f g : OpenFile} {name : Bytes}
    (h : OpenedBy b k₁ ops t i p fd f name) {o : Op} {k : Kernel} (hr : run (step b) k₁ (ops ++ [o]) = .ok k)
    (hq : k.sched.processes i = some q) (hpid : q.pid = p.pid) (hg : q.grants = p.grants)
    (hf : q.fds[fd]? = some (some g)) (hinode : g.inode = f.inode) (hperms : g.perms = f.perms) :
    OpenedBy b k₁ (ops ++ [o]) t i q fd g name := by
  obtain ⟨⟨u, o', u', r, f₀, hu, hot, hopen, h1, h2, h3, h4⟩, hsince⟩ := h
  have ht : t < ops.length := (List.getElem?_eq_some_iff.1 hot).1
  refine ⟨⟨u, o', u', r, f₀, ?_, ?_, hopen, h1.trans hinode.symm, h2.trans hperms.symm, h3.trans hpid.symm,
    h4.trans hg.symm⟩, fun s hs hlen => ?_⟩
  · rw [List.take_append_of_le_length ht.le]; exact hu
  · rw [List.getElem?_append_left ht]; exact hot
  · by_cases hle : s ≤ ops.length
    · have := (hsince s hs hle).snoc o hle
      rw [hpid]
      unfold OpenSince at this ⊢
      rw [hinode, hperms]
      exact this
    · refine ⟨k, q, g, ?_, hq, rfl, hf, rfl, rfl⟩
      rw [List.take_of_length_le (by simp at hlen ⊢; omega)]
      exact hr

/-- **Provenance (trace form).** Every open file goes back to an open in the run, at which its name was bound to its inode
and granted with its rights. -/
theorem run_opened {ops : List Op} {k : Kernel} (h0 : Fresh k₁) (hr : run (step b) k₁ ops = .ok k) {i : Fin 64}
    {p : Process} {fd : ℕ} {f : OpenFile} (hp : k.sched.processes i = some p) (hf : p.fds[fd]? = some (some f)) :
    ∃ t name, OpenedBy b k₁ ops t i p fd f name := by
  induction ops using List.reverseRecOn generalizing k p f with
  | nil =>
    cases hr
    exact absurd hf ((h0.processes i p hp).closed fd f)
  | append_singleton ops o ih =>
    obtain ⟨u, hu, he⟩ := run_snoc_ok.1 hr
    cases fd_step (file_step he) hp hf with
    | kept p₀ hp₀ hpid hg hf₀ =>
      obtain ⟨t, name, h⟩ := ih hu hp₀ hf₀
      exact ⟨t, name, h.snoc hr hp hpid hg hf rfl rfl⟩
    | read a1 a2 a3 regs p₀ f₀ off ho hi hfd hp₀ hpid hg hf₀ hoff =>
      obtain ⟨t, name, h⟩ := ih hu hp₀ hf₀
      exact ⟨t, name, h.snoc hr hp hpid hg hf (by rw [hoff]) (by rw [hoff])⟩
    | wrote p₀ f₀ off hw hp₀ hpid hg hf₀ hoff =>
      obtain ⟨t, name, h⟩ := ih hu hp₀ hf₀
      exact ⟨t, name, h.snoc hr hp hpid hg hf (by rw [hoff]) (by rw [hoff])⟩
    | opened p₀ name hpid hg hopen =>
      refine ⟨ops.length, name, ⟨u, o, k, p₀, f, ?_, by simp, hopen, rfl, rfl, hpid.symm, hg.symm⟩, fun s hs hlen => ?_⟩
      · rw [List.take_left]; exact hu
      · refine ⟨k, p, f, ?_, hp, rfl, hf, rfl, rfl⟩
        rw [List.take_of_length_le (by simp at hlen ⊢; omega)]
        exact hr

/-- the rights of an open file are granted to its process for the name it was opened by -/
theorem OpenedBy.granted {ops : List Op} {t : ℕ} {i : Fin 64} {p : Process} {fd : ℕ} {f : OpenFile} {name : Bytes}
    (h : OpenedBy b k₁ ops t i p fd f name) : p.Granted name f.perms := by
  obtain ⟨⟨u, o, u', q, f₀, -, -, hopen, -, hperms, -, hg⟩, -⟩ := h
  obtain ⟨g, hfind, hbits⟩ := hopen.granted
  exact ⟨g, hg ▸ hfind, hperms ▸ hbits⟩

/-! ## Inodes -/

/-- directory entries and open files refer to inodes that exist -/
structure InodesOk (k : Kernel) : Prop where
  files : k.fs.WellFormed
  opened : ∀ (i : Fin 64) (p : Process) (fd : ℕ) (f : OpenFile), k.sched.processes i = some p →
    p.fds[fd]? = some (some f) → f.inode < k.fs.fresh

/-- directory and inode numbers: an event leaves them alone or is one of the shell's three commands -/
theorem fileStep_root {k k' : Kernel} {o : Op} (he : FileStep k o k') :
    (k'.fs.root = k.fs.root ∧ k'.fs.fresh = k.fs.fresh) ∨ (∃ name, k'.fs = (k.fs.create name).2) ∨
      ∃ name, k'.fs = (k.fs.delete name).2 := by
  cases he with
  | kept o k' hfs hk hu => rw [hfs]; exact Or.inl ⟨rfl, rfl⟩
  | spawned o k' j p n hfs hu hj hs hp => rw [hfs]; exact Or.inl ⟨rfl, rfl⟩
  | shellWrite args k' hfs hs hu ha =>
    rw [hfs]
    exact Or.inl ⟨Ramfs.write_root _ _ _, Ramfs.write_fresh _ _ _⟩
  | shellCreate args k' hfs hs hu => exact Or.inr (Or.inl ⟨_, hfs⟩)
  | shellRm args k' hfs hs hu => exact Or.inr (Or.inr ⟨_, hfs⟩)
  | write a1 a2 a3 regs p f data stop hp hfd hperm hw => exact Or.inl ⟨rfl, rfl⟩
  | opened a1 a2 a3 regs p need inode fd' fds hp hneed hgrant hlookup hinst hret => exact Or.inl ⟨rfl, rfl⟩
  | read a1 a2 a3 regs p f hp hfd hperm => exact Or.inl ⟨rfl, rfl⟩
  | closed a1 a2 a3 regs p f hp hfd => exact Or.inl ⟨rfl, rfl⟩

theorem fileStep_fresh {k k' : Kernel} {o : Op} (he : FileStep k o k') : k.fs.fresh ≤ k'.fs.fresh := by
  rcases fileStep_root he with ⟨-, h⟩ | ⟨name, h⟩ | ⟨name, h⟩
  · exact h.ge
  · rw [h]; exact Ramfs.create_fresh _ _
  · rw [h, Ramfs.delete_fresh]

theorem fileStep_wellFormed {k k' : Kernel} {o : Op} (hw : k.fs.WellFormed) (he : FileStep k o k') : k'.fs.WellFormed := by
  rcases fileStep_root he with ⟨h1, h2⟩ | ⟨name, h⟩ | ⟨name, h⟩
  · refine ⟨?_, ?_⟩
    · rw [h1, h2]; exact hw.created
    · rw [h1]; exact hw.distinct
  · rw [h]; exact Ramfs.create_wellFormed hw _
  · rw [h]; exact Ramfs.delete_wellFormed hw _

theorem fileStep_inodesOk {k k' : Kernel} {o : Op} (h : InodesOk k) (he : FileStep k o k') : InodesOk k' := by
  refine ⟨fileStep_wellFormed h.files he, fun i p fd f hp hf => ?_⟩
  have hle := fileStep_fresh he
  cases fd_step he hp hf with
  | kept p₀ hp₀ hpid hg hf₀ => exact (h.opened i p₀ fd f hp₀ hf₀).trans_le hle
  | read a1 a2 a3 regs p₀ f₀ off ho hi hfd hp₀ hpid hg hf₀ hoff =>
    rw [hoff]
    exact (h.opened i p₀ fd f₀ hp₀ hf₀).trans_le hle
  | wrote p₀ f₀ off hw hp₀ hpid hg hf₀ hoff =>
    rw [hoff]
    exact (h.opened i p₀ fd f₀ hp₀ hf₀).trans_le hle
  | opened p₀ name hpid hg hopen => exact (Ramfs.lookup_lt h.files hopen.bound).trans_le hle

theorem run_processOk {ops : List Op} {k : Kernel} (h0 : Fresh k₁) (hr : run (step b) k₁ ops = .ok k) :
    AllProcesses ProcessOk k.sched := by
  have h1 : AllProcesses ProcessOk k₁.sched := fun i p hp => (h0.processes i p hp).ok
  exact run_invariant (I := fun k => AllProcesses ProcessOk k.sched) (fun _ _ _ hI he => fileStep_ok hI (file_step he)) h1 hr

theorem run_inodesOk {ops : List Op} {k : Kernel} (h0 : Fresh k₁) (hr : run (step b) k₁ ops = .ok k) : InodesOk k := by
  have h1 : InodesOk k₁ := ⟨h0.files, fun i p fd f hp hf => absurd hf ((h0.processes i p hp).closed fd f)⟩
  exact run_invariant (fun _ _ _ hI he => fileStep_inodesOk hI (file_step he)) h1 hr

end

/-! ## Reads and writes -/

/-- a read fails with the state unchanged, or it goes through a descriptor with the right to read -/
theorem sysRead_cases {k k' : Kernel} {a1 a2 a3 r : ℕ} {regs : Context}
    (h : syscallHandler k sysReadNr a1 a2 a3 regs = .returns r k') :
    (∃ e, 1 ≤ e ∧ e ≤ 38 ∧ r = err e ∧ k' = k) ∨
      ∃ p f, k.currentProcess = some p ∧ userRangeOk p a2 a3 = true ∧ p.fds[a1]? = some (some f) ∧
        f.perms &&& permRead ≠ 0 ∧ r = (readAt (k.fs.data f.inode) f.offset a3).length ∧
        k' = Kernel.setFds { k with umem := putBytes k.umem a2 (readAt (k.fs.data f.inode) f.offset a3) } p
          (p.fds.set a1 (some { f with offset := f.offset + r })) := by
  have heff := syscall_effect k a1 a2 a3 regs sysReadNr
  generalize hn : sysReadNr = nr at heff
  rw [hn] at h
  generalize ho : syscallHandler k nr a1 a2 a3 regs = o at heff
  rw [ho] at h
  cases heff with
  | error nr e he he' => cases h; exact Or.inl ⟨e, he, he', rfl, rfl⟩
  | read p f hp hr hfd hperm => cases h; exact Or.inr ⟨p, f, hp, hr, hfd, hperm, rfl, rfl⟩
  | stdout p hp hr => cases hn
  | write p f data stop hp hr => cases hn
  | opened p need inode fd fds hp hneed hr hgrant hlookup hinst => cases hn
  | closed p f hp hfd => cases hn
  | exited p hp => cases hn
  | stayed => cases hn
  | switched p q i hp hi hq hrun => cases hn

/-- user memory changes by stores and reads only -/
theorem fileStep_umem {k k' : Kernel} {o : Op} (he : FileStep k o k') :
    k'.umem = k.umem ∨ (∃ a v, o = .store a v) ∨ ∃ a1 a2 a3 regs, o = .syscall 0 a1 a2 a3 regs := by
  cases he with
  | kept o k' hfs hk hu => exact hu.imp_right Or.inl
  | spawned o k' j p n hfs hu hj hs hp => exact Or.inl hu
  | shellWrite args k' hfs hs hu ha => exact Or.inl hu
  | shellCreate args k' hfs hs hu => exact Or.inl hu
  | shellRm args k' hfs hs hu => exact Or.inl hu
  | write a1 a2 a3 regs p f data stop hp hfd hperm hw => exact Or.inl rfl
  | opened a1 a2 a3 regs p need inode fd' fds hp hneed hgrant hlookup hinst hret => exact Or.inl rfl
  | read a1 a2 a3 regs p f hp hfd hperm => exact Or.inr (Or.inr ⟨a1, a2, a3, regs, rfl⟩)
  | closed a1 a2 a3 regs p f hp hfd => exact Or.inl rfl

/-- the bytes of an inode that exists change by writes only -/
theorem fileStep_data {k k' : Kernel} {o : Op} (he : FileStep k o k') {I : ℕ} (hI : I < k.fs.fresh) :
    k'.fs.data I = k.fs.data I ∨ ShellWrites k o k' I ∨ ∃ p fd f, CallWrites k o k' p fd f ∧ f.inode = I := by
  cases he with
  | kept o k' hfs hk hu => rw [hfs]; exact Or.inl rfl
  | spawned o k' j p n hfs hu hj hs hp => rw [hfs]; exact Or.inl rfl
  | shellWrite args k' hfs hs hu ha =>
    by_cases hl : k.fs.lookup (splitFirstWord args).1 = some I
    · refine Or.inr (Or.inl ⟨args, rfl, ha, hl, ?_⟩)
      rw [hfs, Ramfs.write, hl]
      exact Function.update_self _ _ _
    · rw [hfs]; exact Or.inl (Ramfs.write_data _ _ _ hl)
  | shellCreate args k' hfs hs hu => rw [hfs]; exact Or.inl (Ramfs.create_data _ _ hI)
  | shellRm args k' hfs hs hu => rw [hfs, Ramfs.delete_data]; exact Or.inl rfl
  | write a1 a2 a3 regs p f data stop hp hfd hperm hw =>
    by_cases hf : f.inode = I
    · refine Or.inr (Or.inr ⟨p, _, f, ⟨a1, a2, a3, regs, rfl, hp, rfl, hfd, hperm, stop, ?_⟩, hf⟩)
      rw [hw]
      simp [Kernel.setFds, Kernel.setData]
    · exact Or.inl (Function.update_of_ne (Ne.symm hf) _ _)
  | opened a1 a2 a3 regs p need inode fd' fds hp hneed hgrant hlookup hinst hret => exact Or.inl rfl
  | read a1 a2 a3 regs p f hp hfd hperm => exact Or.inl rfl
  | closed a1 a2 a3 regs p f hp hfd => exact Or.inl rfl

/-- **Grant safety.** For every run from a state without open files, any interleaving of processes and shell: every open
file was opened by a name that was then bound to its inode and that the process has a grant for, with every bit of its
rights; a read delivers bytes only through a file opened by a name with `PERM_READ`, and only reads deliver; the bytes of
an inode change only by a shell write on a name bound to it at that time or by a process with `PERM_WRITE` for the name it
opened the inode by. -/
theorem grant_safety (b : Boot) (k₁ k : Kernel) (ops : List Op) (h0 : Fresh k₁) (hr : run (step b) k₁ ops = .ok k) :
    (∀ (i : Fin 64) (p : Process) (fd : ℕ) (f : OpenFile), k.sched.processes i = some p → p.fds[fd]? = some (some f) →
      f.inode < k.fs.fresh ∧ ∃ t name, OpenedBy b k₁ ops t i p fd f name ∧ p.Granted name f.perms) ∧
    (∀ a1 a2 a3 regs r k', syscallHandler k sysReadNr a1 a2 a3 regs = .returns r k' →
      (∃ e, 1 ≤ e ∧ e ≤ 38 ∧ r = err e ∧ k' = k) ∨
      ∃ p f t name, k.currentProcess = some p ∧ p.fds[a1]? = some (some f) ∧
        OpenedBy b k₁ ops t k.sched.current p a1 f name ∧ p.Granted name permRead ∧
        r = (readAt (k.fs.data f.inode) f.offset a3).length ∧
        k'.umem = putBytes k.umem a2 (readAt (k.fs.data f.inode) f.offset a3)) ∧
    (∀ o k', step b k o = .ok k' →
      (k'.umem = k.umem ∨ (∃ a v, o = .store a v) ∨ ∃ a1 a2 a3 regs, o = .syscall 0 a1 a2 a3 regs) ∧
      ∀ I < k.fs.fresh, k'.fs.data I = k.fs.data I ∨ ShellWrites k o k' I ∨
        ∃ p fd f t name, CallWrites k o k' p fd f ∧ f.inode = I ∧ OpenedBy b k₁ ops t k.sched.current p fd f name ∧
          p.Granted name permWrite) := by
  refine ⟨fun i p fd f hp hf => ?_, fun a1 a2 a3 regs r k' hcall => ?_, fun o k' he => ⟨?_, fun I hI => ?_⟩⟩
  · obtain ⟨t, name, h⟩ := run_opened h0 hr hp hf
    exact ⟨(run_inodesOk h0 hr).opened i p fd f hp hf, t, name, h, h.granted⟩
  · rcases sysRead_cases hcall with herr | ⟨p, f, hp, -, hf, hperm, hlen, rfl⟩
    · exact Or.inl herr
    · obtain ⟨t, name, h⟩ := run_opened h0 hr hp hf
      exact Or.inr ⟨p, f, t, name, hp, hf, h, h.granted.bit (permRead_of_ne_zero hperm), hlen, rfl⟩
  · exact fileStep_umem (file_step he)
  · rcases fileStep_data (file_step he) hI with hsame | hshell | ⟨p, fd, f, hw, hinode⟩
    · exact Or.inl hsame
    · exact Or.inr (Or.inl hshell)
    · obtain ⟨a1, a2, a3, regs, -, hp, -, hf, hperm, -⟩ := id hw
      obtain ⟨t, name, h⟩ := run_opened h0 hr hp hf
      exact Or.inr (Or.inr ⟨p, fd, f, t, name, hw, hinode, h, h.granted.bit (permWrite_of_ne_zero hperm)⟩)

/-- a process with one page of memory and a grant to read and write hello.txt -/
def demoProcess : Process where
  pid := 3
  syscallMask := syscallMask
  state := .running
  kernelStack := 0
  userStack := 0
  userRegions := [(0x1000, 0x2000)]
  kernelStackPhys := 0
  userStackPhys := 0
  context := ⟨0, 0, 0, 0, 0, 0, 0, 0, 0, 0, 0, 0, 0, 0, 0, 0, 0, 0, 0, 0, 0, 0⟩
  fds := [none, none, none]
  grants := [⟨str "hello.txt", permRead ||| permWrite⟩]

/-- it runs in slot 0, with the name of the file in its memory -/
def demoFiles : Kernel :=
  { demoKernel with
    sched := (Scheduler.empty.put 0 (some demoProcess)).recount 1
    umem := putBytes (fun _ => 0) 0x1000 (str "hello.txt") }

theorem demoFresh : Fresh demoFiles where
  processes := by
    intro i p hp
    by_cases hi : i = 0
    · subst hi
      obtain rfl : demoProcess = p := by simpa [demoFiles] using hp
      exact ⟨rfl, by decide⟩
    · rw [show demoFiles.sched.processes i = none from Scheduler.put_of_ne _ _ hi] at hp
      cases hp
  files := demoStart.files

/-- the file in a descriptor of slot 0 -/
def fileAt (x : Except Panic Kernel) (fd : ℕ) : Option OpenFile :=
  match x with
  | .ok k => (k.sched.processes 0).bind fun p => p.fds.getD fd none
  | .error _ => none

theorem fileAt_some {x : Except Panic Kernel} {fd : ℕ} {f : OpenFile} (h : fileAt x fd = some f) :
    ∃ k p, x = .ok k ∧ k.sched.processes 0 = some p ∧ p.fds[fd]? = some (some f) := by
  cases x with
  | error e => cases h
  | ok k =>
    obtain ⟨p, hp, hf⟩ := Option.bind_eq_some_iff.1 h
    exact ⟨k, p, rfl, hp, getD_eq_some hf⟩

/-- open for reading, rm, create, read four bytes -/
def demoOps : List Op :=
  [.syscall 2 0x1000 9 0 demoProcess.context, .rm (str "hello.txt"), .create (str "hello.txt"),
    .syscall 0 3 0x1100 4 demoProcess.context]

/-- after these events the file in descriptor 3 is still inode 0, under its old grant -/
theorem grant_safety_demo : ∃ k p t name, run (step demoBoot) demoFiles demoOps = .ok k ∧
    p.fds[3]? = some (some ⟨permRead, 0, 4⟩) ∧
    OpenedBy demoBoot demoFiles demoOps t 0 p 3 ⟨permRead, 0, 4⟩ name ∧ p.Granted name permRead := by
  obtain ⟨k, p, hr, hp, hf⟩ := fileAt_some
    (show fileAt (run (step demoBoot) demoFiles demoOps) 3 = some ⟨permRead, 0, 4⟩ by decide +kernel)
  obtain ⟨-, t, name, h, hg⟩ := (grant_safety demoBoot demoFiles k demoOps demoFresh hr).1 0 p 3 _ hp hf
  exact ⟨k, p, t, name, hr, hf, h, hg⟩

end Tomorrow
