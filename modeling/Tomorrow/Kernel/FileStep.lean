/-
What one event does to files: directory, inodes, descriptor tables and user memory.

`FileStep` classifies the events of `step`. Most leave the file system alone and keep the descriptors of every process
that stays in the table (`KeptFiles`); a spawn adds a process without open files; three shell commands change the file
system; four system calls of the current process open, read, write and close. `file_step` says that these are all. The
results on grants, on reads and on descriptors are derived from it.

`ProcessOk` holds of every process in every reachable state: three to sixteen descriptors, two regions of at most two
pages. From it `syscall_atomic`: a system call returns an error and changes nothing, or a value below 2^63.
-/
import Tomorrow.Kernel.ProcessTable

namespace Tomorrow

open Tomorrow.Core Files Sched Shell Vmm

/-! ## Classification -/

/-- the fields of a process that only system calls on files change, and those that never change -/
structure SameFiles (p q : Process) : Prop where
  pid : q.pid = p.pid
  mask : q.syscallMask = p.syscallMask
  regions : q.userRegions = p.userRegions
  fds : q.fds = p.fds
  grants : q.grants = p.grants

/-- every slot keeps its process with its files, or becomes or stays empty -/
def KeptFiles (s s' : Scheduler) : Prop :=
  ∀ i, s'.processes i = none ∨ ∃ p q, s.processes i = some p ∧ s'.processes i = some q ∧ SameFiles p q

theorem SameFiles.refl (p : Process) : SameFiles p p := ⟨rfl, rfl, rfl, rfl, rfl⟩

theorem KeptFiles.refl (s : Scheduler) : KeptFiles s s := by
  intro i
  cases hp : s.processes i with
  | none => exact Or.inl rfl
  | some p => exact Or.inr ⟨p, p, rfl, rfl, SameFiles.refl p⟩

theorem KeptFiles.put {s : Scheduler} {i : Fin 64} {p q : Process} (hp : s.processes i = some p) (h : SameFiles p q) :
    KeptFiles s (s.put i (some q)) := by
  intro j
  by_cases hj : j = i
  · subst hj
    exact Or.inr ⟨p, q, hp, s.put_self j (some q), h⟩
  · rw [Scheduler.put_of_ne _ _ hj]
    exact KeptFiles.refl s j

/-- a process as `Process::new` makes it, as far as files are concerned -/
structure FreshFiles (p : Process) : Prop where
  fds : p.fds = [none, none, none]
  regions : ∀ r ∈ p.userRegions, r.2 ≤ r.1 + 8192

theorem FreshFiles.closed {p : Process} (h : FreshFiles p) (fd : ℕ) (f : OpenFile) : p.fds[fd]? ≠ some (some f) := by
  rw [h.fds]
  rcases fd with _ | _ | _ | fd <;> simp

/-- the effects of an event on files -/
inductive FileStep (k : Kernel) : Op → Kernel → Prop where
  | kept (o : Op) (k' : Kernel) (hfs : k'.fs = k.fs) (hk : KeptFiles k.sched k'.sched)
      (hu : k'.umem = k.umem ∨ ∃ a v, o = .store a v) : FileStep k o k'
  | spawned (o : Op) (k' : Kernel) (i : Fin 64) (p : Process) (n : ℕ) (hfs : k'.fs = k.fs) (hu : k'.umem = k.umem)
      (hi : k.sched.processes i = none) (hs : k'.sched = (k.sched.put i (some p)).recount n) (hp : FreshFiles p) :
      FileStep k o k'
  | shellWrite (args : Bytes) (k' : Kernel) (hfs : k'.fs = (k.fs.write (splitFirstWord args).1 (splitFirstWord args).2).2)
      (hs : k'.sched = k.sched) (hu : k'.umem = k.umem) (ha : args ≠ []) : FileStep k (.write args) k'
  | shellCreate (args : Bytes) (k' : Kernel) (hfs : k'.fs = (k.fs.create (splitFirstWord args).1).2)
      (hs : k'.sched = k.sched) (hu : k'.umem = k.umem) : FileStep k (.create args) k'
  | shellRm (args : Bytes) (k' : Kernel) (hfs : k'.fs = (k.fs.delete (splitFirstWord args).1).2)
      (hs : k'.sched = k.sched) (hu : k'.umem = k.umem) : FileStep k (.rm args) k'
  | write (a1 a2 a3 : UInt64) (regs : Context) (p : Process) (f : OpenFile) (data : Bytes) (stop : ℕ)
      (hp : k.currentProcess = some p) (hfd : p.fds[a1.toNat]? = some (some f)) (hperm : f.perms &&& permWrite ≠ 0)
      (hw : writeAt (k.fs.data f.inode) f.offset (k.userBytes a2.toNat a3.toNat) = some (data, stop)) :
      FileStep k (.syscall 1 a1 a2 a3 regs)
        ((k.setData f.inode data).setFds p (p.fds.set a1.toNat (some { f with offset := stop })))
  | opened (a1 a2 a3 : UInt64) (regs : Context) (p : Process) (need : UInt8) (inode fd : ℕ)
      (fds : List (Option OpenFile)) (hp : k.currentProcess = some p) (hneed : neededPerms a3.toNat = some need)
      (hgrant : p.granted (k.userBytes a1.toNat a2.toNat) &&& need = need)
      (hlookup : k.fs.lookup (k.userBytes a1.toNat a2.toNat) = some inode)
      (hinst : installFd p.fds ⟨need, inode, 0⟩ = some (fd, fds))
      (hret : syscallHandler k sysOpenNr a1.toNat a2.toNat a3.toNat regs = .returns fd (k.setFds p fds)) :
      FileStep k (.syscall 2 a1 a2 a3 regs) (k.setFds p fds)
  | read (a1 a2 a3 : UInt64) (regs : Context) (p : Process) (f : OpenFile) (hp : k.currentProcess = some p)
      (hfd : p.fds[a1.toNat]? = some (some f)) (hperm : f.perms &&& permRead ≠ 0) :
      FileStep k (.syscall 0 a1 a2 a3 regs)
        (Kernel.setFds { k with
          umem := putBytes k.umem a2.toNat (readAt (k.fs.data f.inode) f.offset a3.toNat) } p
          (p.fds.set a1.toNat
            (some { f with offset := f.offset + (readAt (k.fs.data f.inode) f.offset a3.toNat).length })))
  | closed (a1 a2 a3 : UInt64) (regs : Context) (p : Process) (f : OpenFile) (hp : k.currentProcess = some p)
      (hfd : p.fds[a1.toNat]? = some (some f)) :
      FileStep k (.syscall 3 a1 a2 a3 regs) (k.setFds p (p.fds.set a1.toNat none))

theorem syscall_fileStep {k k' : Kernel} {nr a1 a2 a3 : UInt64} {regs : Context}
    (he : (syscallHandler k nr.toNat a1.toNat a2.toNat a3.toNat regs).next = .ok k') :
    FileStep k (.syscall nr a1 a2 a3 regs) k' := by
  have heff := syscall_effect k a1.toNat a2.toNat a3.toNat regs nr.toNat
  have hnr : ∀ c : UInt64, nr.toNat = c.toNat → nr = c := fun c h => UInt64.toNat_inj.1 h
  generalize ho : syscallHandler k nr.toNat a1.toNat a2.toNat a3.toNat regs = o at heff he
  generalize hn : nr.toNat = n at heff ho
  cases heff with
  | error nr e => cases he; exact .kept _ _ rfl (KeptFiles.refl _) (Or.inl rfl)
  | stdout p hp hr => cases he; exact .kept _ _ rfl (KeptFiles.refl _) (Or.inl rfl)
  | write p f data stop hp hr hfd hperm hw =>
    cases he
    obtain rfl := hnr 1 hn
    exact .write a1 a2 a3 regs p f data stop hp hfd hperm hw
  | opened p need inode fd fds hp hneed hr hgrant hlookup hinst =>
    cases he
    obtain rfl := hnr 2 hn
    exact .opened a1 a2 a3 regs p need inode fd fds hp hneed hgrant hlookup hinst ho
  | read p f hp hr hfd hperm =>
    cases he
    obtain rfl := hnr 0 hn
    exact .read a1 a2 a3 regs p f hp hfd hperm
  | closed p f hp hfd =>
    cases he
    obtain rfl := hnr 3 hn
    exact .closed a1 a2 a3 regs p f hp hfd
  | exited p hp => cases he; exact .kept _ _ rfl (KeptFiles.put hp ⟨rfl, rfl, rfl, rfl, rfl⟩) (Or.inl rfl)
  | stayed => cases he; exact .kept _ _ rfl (KeptFiles.refl _) (Or.inl rfl)
  | switched p q i hp hi hq hrun =>
    cases he
    exact .kept _ _ rfl (KeptFiles.put (s := k.sched) hp ⟨rfl, rfl, rfl, rfl, rfl⟩) (Or.inl rfl)

theorem timer_fileStep {k : Kernel} {f : TrapFrame} {r : Kernel × Option Context} (hr : timerDoSwitch k f = .ok r) :
    FileStep k (.timer f) r.1 := by
  obtain ⟨g, s, e⟩ := k.ticked_eq
  have hsave : KeptFiles k.sched (k.sched.saveCurrent f) := by
    rcases saveCurrent_cases k.sched f with ⟨p, hp, e⟩ | ⟨-, e⟩
    · rw [e]; exact KeptFiles.put hp ⟨rfl, rfl, rfl, rfl, rfl⟩
    · rw [e]; exact KeptFiles.refl _
  rcases timer_cases hr with rfl | rfl | ⟨i, q, -, -, -, rfl⟩
  · rw [e]; exact .kept _ _ rfl (KeptFiles.refl _) (Or.inl rfl)
  · rw [e]; exact .kept _ _ rfl hsave (Or.inl rfl)
  · rw [e]; exact .kept _ _ rfl hsave (Or.inl rfl)

theorem processNew_fresh {pml4 pid mask entry : ℕ} {s s' : Phys} {grants : List Grant} {p : Process}
    (h : processNew pml4 s pid mask entry grants = .ok (p, s')) : FreshFiles p := by
  obtain ⟨stack, m₁, ustack, m₂, usv, off, ucv, s₁, -, -, -, -, -, -, -, rfl⟩ := processNew_cases h
  refine ⟨rfl, fun r hr => ?_⟩
  rcases List.mem_cons.1 hr with rfl | hr
  · simp [codePages, pageSize]
  · rw [List.mem_singleton.1 hr]
    simp [pageSize]

/-- **Classification.** What an event does to files is one of the cases of `FileStep`. -/
theorem file_step {b : Boot} {k k' : Kernel} {o : Op} (he : step b k o = .ok k') : FileStep k o k' := by
  cases o with
  | syscall nr a1 a2 a3 regs => exact syscall_fileStep he
  | store addr v => cases he; exact .kept _ _ rfl (KeptFiles.refl _) (Or.inr ⟨addr, v, rfl⟩)
  | spawn args =>
    rcases spawn_cases he with ⟨s, rfl⟩ | ⟨prog, p, ph, sched, screen, -, hnew, hadd, rfl⟩
    · exact .kept _ _ rfl (KeptFiles.refl _) (Or.inl rfl)
    · obtain ⟨i, hi, rfl⟩ := Scheduler.addProcess_spec hadd
      exact .spawned _ _ i p _ rfl rfl hi rfl (processNew_fresh hnew)
  | kill args =>
    rcases kill_cases he with ⟨s, rfl⟩ | ⟨i, p, r, screen, hp, -, hr, rfl⟩
    · exact .kept _ _ rfl (KeptFiles.refl _) (Or.inl rfl)
    · refine .kept _ _ rfl (fun j => ?_) (Or.inl rfl)
      rcases reap_processes hr j with ⟨-, -, he'⟩ | ⟨-, he'⟩
      · exact Or.inl he'
      · have hput := KeptFiles.put (q := { p with state := .dead }) hp ⟨rfl, rfl, rfl, rfl, rfl⟩ j
        rw [← he'] at hput
        exact hput
  | write args =>
    cases he
    unfold cmdWrite
    split_ifs with ha
    · exact .kept _ _ rfl (KeptFiles.refl _) (Or.inl rfl)
    · exact .shellWrite args _ rfl rfl rfl ha
  | create args =>
    cases he
    unfold cmdCreate
    split_ifs
    · exact .kept _ _ rfl (KeptFiles.refl _) (Or.inl rfl)
    · exact .shellCreate args _ rfl rfl rfl
  | rm args =>
    cases he
    unfold cmdRm
    split_ifs
    · exact .kept _ _ rfl (KeptFiles.refl _) (Or.inl rfl)
    · exact .shellRm args _ rfl rfl rfl
  | timer f =>
    obtain ⟨r, hr, he⟩ := bind_ok.1 he
    cases he
    exact timer_fileStep hr
  | allocPage =>
    obtain ⟨r, -, he⟩ := bind_ok.1 he
    cases he
    exact .kept _ _ rfl (KeptFiles.refl _) (Or.inl rfl)

/-! ## Descriptor tables -/

/-- where a new file goes: an empty slot from 3 on, or the end of a table that is not full -/
theorem installFd_spec {fds fds' : List (Option OpenFile)} {f : OpenFile} {fd : ℕ}
    (h : installFd fds f = some (fd, fds')) :
    (firstFileFd ≤ fd ∧ fd < fds.length ∧ fds' = fds.set fd (some f)) ∨
      (fds.length < maxFds ∧ fd = fds.length ∧ fds' = fds ++ [some f]) := by
  unfold installFd at h
  cases hfree : freeFd fds with
  | some i =>
    rw [hfree] at h
    cases h
    have hmem := List.mem_of_find?_eq_some hfree
    rw [List.mem_range'_1] at hmem
    exact Or.inl ⟨hmem.1, by omega, rfl⟩
  | none =>
    rw [hfree] at h
    dsimp only at h
    split_ifs at h with hmax
    cases h
    exact Or.inr ⟨by omega, rfl, rfl⟩

/-- the slot of the new file holds it, and every other slot that holds a file held it before -/
theorem installFd_get {fds fds' : List (Option OpenFile)} {f g : OpenFile} {fd j : ℕ}
    (h : installFd fds f = some (fd, fds')) (hj : fds'[j]? = some (some g)) :
    (j = fd ∧ g = f) ∨ (j ≠ fd ∧ fds[j]? = some (some g)) := by
  rcases installFd_spec h with ⟨-, hlt, rfl⟩ | ⟨-, rfl, rfl⟩
  · by_cases hje : fd = j
    · subst hje
      rw [List.getElem?_set_self hlt] at hj
      exact Or.inl ⟨rfl, (Option.some.inj (Option.some.inj hj)).symm⟩
    · rw [List.getElem?_set_ne hje] at hj
      exact Or.inr ⟨Ne.symm hje, hj⟩
  · rcases Nat.lt_trichotomy j fds.length with hlt | rfl | hgt
    · rw [List.getElem?_append_left hlt] at hj
      exact Or.inr ⟨by omega, hj⟩
    · rw [List.getElem?_append_right (le_refl _), Nat.sub_self] at hj
      exact Or.inl ⟨rfl, (Option.some.inj (Option.some.inj hj)).symm⟩
    · rw [List.getElem?_eq_none (by simp; omega)] at hj
      cases hj

/-- a new file never goes where a file is open -/
theorem installFd_free {fds fds' : List (Option OpenFile)} {f g : OpenFile} {fd : ℕ}
    (h : installFd fds f = some (fd, fds')) : fds[fd]? ≠ some (some g) := by
  unfold installFd at h
  cases hfree : freeFd fds with
  | some i =>
    rw [hfree] at h
    cases h
    have hnone := List.find?_some hfree
    rw [List.getD_eq_getElem?_getD] at hnone
    intro hg
    rw [hg] at hnone
    cases hnone
  | none =>
    rw [hfree] at h
    dsimp only at h
    split_ifs at h
    cases h
    rw [List.getElem?_eq_none (le_refl _)]
    exact Option.some_ne_none _ |>.symm

structure ProcessOk (p : Process) : Prop where
  fds_ge : firstFileFd ≤ p.fds.length
  fds_le : p.fds.length ≤ maxFds
  regions : ∀ r ∈ p.userRegions, r.2 ≤ r.1 + 8192

theorem FreshFiles.ok {p : Process} (h : FreshFiles p) : ProcessOk p := by
  refine ⟨?_, ?_, h.regions⟩ <;> rw [h.fds] <;> decide

theorem ProcessOk.sameFiles {p q : Process} (h : ProcessOk p) (e : SameFiles p q) : ProcessOk q := by
  refine ⟨?_, ?_, ?_⟩
  · rw [e.fds]; exact h.fds_ge
  · rw [e.fds]; exact h.fds_le
  · rw [e.regions]; exact h.regions

theorem ProcessOk.setFds {p : Process} (h : ProcessOk p) {fds : List (Option OpenFile)} (h1 : firstFileFd ≤ fds.length)
    (h2 : fds.length ≤ maxFds) : ProcessOk { p with fds := fds } := ⟨h1, h2, h.regions⟩

/-- a property of all processes in the table -/
def AllProcesses (P : Process → Prop) (s : Scheduler) : Prop := ∀ i p, s.processes i = some p → P p

theorem AllProcesses.put {P : Process → Prop} {s : Scheduler} (h : AllProcesses P s) {i : Fin 64} {q : Process}
    (hq : P q) : AllProcesses P (s.put i (some q)) := by
  intro j p hp
  rcases Scheduler.put_eq_some hp with ⟨-, hr⟩ | ⟨-, hp⟩
  · exact Option.some.inj hr ▸ hq
  · exact h j p hp

theorem AllProcesses.kept {P : Process → Prop} {s s' : Scheduler} (h : AllProcesses P s) (hk : KeptFiles s s')
    (hP : ∀ p q, SameFiles p q → P p → P q) : AllProcesses P s' := by
  intro i q hq
  rcases hk i with hn | ⟨p, q', hp, hq', e⟩
  · rw [hn] at hq; cases hq
  · rw [hq'] at hq
    cases hq
    exact hP p _ e (h i p hp)

theorem fileStep_ok {k k' : Kernel} {o : Op} (h : AllProcesses ProcessOk k.sched) (he : FileStep k o k') :
    AllProcesses ProcessOk k'.sched := by
  -- the four calls that touch descriptors replace the table of the current process
  have hset : ∀ {p : Process} {fds : List (Option OpenFile)}, k.currentProcess = some p →
      (fds.length = p.fds.length ∨ p.fds.length < maxFds ∧ fds.length = p.fds.length + 1) →
      AllProcesses ProcessOk (k.sched.put k.sched.current (some { p with fds := fds })) := by
    intro p fds hp hlen
    have hok := h _ p hp
    have h1 := hok.fds_ge
    have h2 := hok.fds_le
    exact h.put (hok.setFds (by omega) (by omega))
  cases he with
  | kept o k' hfs hk hu => exact h.kept hk fun _ _ e hp => hp.sameFiles e
  | spawned o k' i p n hfs hu hi hs hp => rw [hs]; exact h.put hp.ok
  | shellWrite args k' hfs hs hu ha => rw [hs]; exact h
  | shellCreate args k' hfs hs hu => rw [hs]; exact h
  | shellRm args k' hfs hs hu => rw [hs]; exact h
  | write a1 a2 a3 regs p f data stop hp hfd hperm hw => exact hset hp (Or.inl (List.length_set))
  | opened a1 a2 a3 regs p need inode fd fds hp hneed hgrant hlookup hinst hret =>
    refine hset hp ?_
    rcases installFd_spec hinst with ⟨-, -, rfl⟩ | ⟨hlt, -, rfl⟩
    · exact Or.inl List.length_set
    · exact Or.inr ⟨hlt, by simp⟩
  | read a1 a2 a3 regs p f hp hfd hperm => exact hset hp (Or.inl (List.length_set))
  | closed a1 a2 a3 regs p f hp hfd => exact hset hp (Or.inl (List.length_set))

theorem addProcess_fresh {s s' : Scheduler} {p : Process} {P : Process → Prop} (h : AllProcesses P s) (hp : P p)
    (hadd : s.addProcess p = .ok s') : AllProcesses P s' := by
  obtain ⟨i, -, rfl⟩ := Scheduler.addProcess_spec hadd
  exact h.put hp

/-- the processes that boot makes have no open files -/
theorem boot_fresh {b : Boot} {k k' : Kernel} (hs : Start b k) (hb : boot b k = .ok k') :
    AllProcesses FreshFiles k'.sched := by
  obtain ⟨p₁, ph₁, p₂, ph₂, s₁, s₂, p, screen, h₁, h₂, h₃, h₄, -, rfl⟩ := boot_cases hb
  have h0 : AllProcesses FreshFiles k.sched := by
    intro i p hp
    rw [hs.sched] at hp
    cases hp
  exact addProcess_fresh (addProcess_fresh h0 (processNew_fresh h₁) h₃) (processNew_fresh h₂) h₄

theorem reachable_ok {b : Boot} {k : Kernel} (h : Reachable b k) : AllProcesses ProcessOk k.sched := by
  obtain ⟨k₀, k₁, ops, hs, hb, hr⟩ := h
  have h1 : AllProcesses ProcessOk k₁.sched := fun i p hp => (boot_fresh hs hb i p hp).ok
  exact run_invariant (I := fun k => AllProcesses ProcessOk k.sched) (fun _ _ _ hI he => fileStep_ok hI (file_step he)) h1 hr

/-! ## Results and errors -/

theorem err_eq {e : ℕ} (h1 : 1 ≤ e) (h2 : e ≤ 38) : err e = 2 ^ 64 - e := by
  unfold err
  exact Nat.mod_eq_of_lt (by omega)

/-- a checked range is no longer than a region -/
theorem userRangeOk_len {p : Process} (hp : ProcessOk p) {ptr len : ℕ} (h : userRangeOk p ptr len = true) : len ≤ 8192 := by
  unfold userRangeOk checkedAdd at h
  by_cases hlt : ptr + len < 2 ^ 64
  · rw [if_pos hlt] at h
    obtain ⟨r, hr, hin⟩ := List.any_eq_true.1 h
    simp only [Bool.and_eq_true, decide_eq_true_eq] at hin
    have := hp.regions r hr
    omega
  · rw [if_neg hlt] at h
    cases h

/-- the call is not one that leaves the handler: `exit` or `yield` with the bit set in the mask -/
def Returning (k : Kernel) (nr : ℕ) : Prop := (nr = sysExitNr ∨ nr = sysYieldNr) → syscallAllowed k nr = false

/-- **Results and error atomicity.** In every reachable state, for every number and arguments: the handler returns; its
value is an error code and the whole state is as before, or it is below 2^63, at most the length for read and write, and
a descriptor from 3 to 15 for open. A call whose bit is not set in the caller's mask changes nothing. -/
theorem syscall_atomic (b : Boot) (k : Kernel) (h : Reachable b k) (nr a1 a2 a3 : UInt64) (regs : Context) :
    (Returning k nr.toNat → ∃ r k', syscallHandler k nr.toNat a1.toNat a2.toNat a3.toNat regs = .returns r k' ∧
      ((2 ^ 64 - 4095 ≤ r ∧ r ≤ 2 ^ 64 - 1 ∧ k' = k) ∨
        (r < 2 ^ 63 ∧ (nr.toNat = sysReadNr ∨ nr.toNat = sysWriteNr → r ≤ a3.toNat) ∧
          (nr.toNat = sysOpenNr → 3 ≤ r ∧ r ≤ 15)))) ∧
    ((∀ p, k.currentProcess = some p → ¬ (nr.toNat < 64 ∧ (p.syscallMask >>> nr.toNat) &&& 1 ≠ 0)) →
      ∃ r, syscallHandler k nr.toNat a1.toNat a2.toNat a3.toNat regs = .returns r k ∧ 2 ^ 64 - 4095 ≤ r) := by
  refine ⟨fun hret => ?_, fun hmask => ?_⟩
  · have hok := reachable_ok h
    have heff := syscall_effect k a1.toNat a2.toNat a3.toNat regs nr.toNat
    generalize ho : syscallHandler k nr.toNat a1.toNat a2.toNat a3.toNat regs = o at heff
    generalize hn : nr.toNat = n at heff hret ho
    cases heff with
    | error nr e he he' =>
      exact ⟨_, _, rfl, Or.inl ⟨by rw [err_eq he he']; omega, by rw [err_eq he he']; omega, rfl⟩⟩
    | stdout p hp hr =>
      have := userRangeOk_len (hok _ p hp) hr
      exact ⟨_, _, rfl, Or.inr ⟨by omega, fun _ => le_refl _, fun h => by cases h⟩⟩
    | write p f data stop hp hr =>
      have := userRangeOk_len (hok _ p hp) hr
      exact ⟨_, _, rfl, Or.inr ⟨by omega, fun _ => le_refl _, fun h => by cases h⟩⟩
    | opened p need inode fd fds hp hneed hr hgrant hlookup hinst =>
      have h1 := (hok _ p hp).fds_ge
      have h2 := (hok _ p hp).fds_le
      simp only [firstFileFd, maxFds] at h1 h2
      have hfd : 3 ≤ fd ∧ fd ≤ 15 := by
        rcases installFd_spec hinst with ⟨h3, h4, -⟩ | ⟨h3, rfl, -⟩
        · simp only [firstFileFd] at h3; omega
        · simp only [maxFds] at h3; omega
      refine ⟨_, _, rfl, Or.inr ⟨by omega, fun h => ?_, fun _ => hfd⟩⟩
      rcases h with h | h <;> cases h
    | read p f hp hr hfd hperm =>
      have hlen := userRangeOk_len (hok _ p hp) hr
      have hrd := readAt_length (k.fs.data f.inode) f.offset a3.toNat
      exact ⟨_, _, rfl, Or.inr ⟨by omega, fun _ => by omega, fun h => by cases h⟩⟩
    | closed p f hp hfd =>
      refine ⟨_, _, rfl, Or.inr ⟨by omega, fun h => ?_, fun h => by cases h⟩⟩
      rcases h with h | h <;> cases h
    | exited p hp =>
      -- the handler only gets to `exit` when the mask allows it
      have hal := hret (Or.inl rfl)
      simp [syscallHandler, hal, syscallExists] at ho
    | stayed =>
      have hal := hret (Or.inr rfl)
      simp only [syscallHandler, hal, syscallExists] at ho
      have h0 : err EPERM = 0 := by simpa using ho
      exact absurd h0 (by decide)
    | switched p q i hp hi hq hrun =>
      have hal := hret (Or.inr rfl)
      simp [syscallHandler, hal, syscallExists] at ho
  · have hal : syscallAllowed k nr.toNat = false := by
      unfold syscallAllowed
      cases hp : k.currentProcess with
      | none => rfl
      | some p =>
        have := hmask p hp
        rw [← Bool.not_eq_true, Bool.and_eq_true, decide_eq_true_eq, decide_eq_true_eq]
        exact this
    unfold syscallHandler
    by_cases hex : syscallExists nr.toNat = false
    · rw [if_pos hex]
      exact ⟨_, rfl, by decide⟩
    · rw [if_neg hex, if_pos hal]
      exact ⟨_, rfl, by decide⟩

/-- after boot every call with number 2 returns, and its state is that before or its result a descriptor -/
theorem syscall_atomic_demo : ∃ k₁, boot demoBoot demoKernel = .ok k₁ ∧ ∀ a1 a2 a3 : UInt64, ∀ regs, ∃ r k',
    syscallHandler k₁ 2 a1.toNat a2.toNat a3.toNat regs = .returns r k' ∧ (k' = k₁ ∨ 3 ≤ r ∧ r ≤ 15) := by
  obtain ⟨k₁, h₁⟩ := succeeds_iff.1 (show succeeds (boot demoBoot demoKernel) = true by decide +kernel)
  refine ⟨k₁, h₁, fun a1 a2 a3 regs => ?_⟩
  have hret : Returning k₁ (2 : UInt64).toNat := by rintro (h | h) <;> cases h
  obtain ⟨r, k', he, hr⟩ :=
    (syscall_atomic demoBoot k₁ ⟨demoKernel, k₁, [], demoStart, h₁, rfl⟩ 2 a1 a2 a3 regs).1 hret
  rcases hr with ⟨-, -, hk⟩ | ⟨-, -, hopen⟩
  · exact ⟨r, k', he, Or.inl hk⟩
  · exact ⟨r, k', he, Or.inr (hopen rfl)⟩

end Tomorrow
