/-
Reads through an open file while names are deleted and created again and other descriptors are used.

A descriptor holds a reference to an inode and an offset; a name is only looked at by open. `sysRead_ok` says what one
read does. `delivered_step` is the step lemma: as long as nothing writes the inode and the descriptor stays open, the
bytes of the inode stay and the offset moves by what reads through this descriptor delivered. `run_reads` is the run
lemma: these bytes, one read after another, are a contiguous slice of the inode. An inode whose name was deleted is never
bound to a name again (`run_unbound`), so later writes by name do not reach it.
-/
import Tomorrow.Kernel.Grants

namespace Tomorrow

open Tomorrow.Core Files Sched Shell Vmm

/-! ## One read -/

theorem putBytes_eq (m : ℕ → UInt8) (ptr : ℕ) (bs : Bytes) (a : ℕ) :
    putBytes m ptr bs a = if ptr ≤ a ∧ a < ptr + bs.length then bs.getD (a - ptr) 0 else m a := by
  unfold putBytes
  by_cases h1 : ptr ≤ a
  · by_cases h2 : a < ptr + bs.length
    · rw [if_pos h1, if_pos ⟨h1, h2⟩, List.getD_eq_getElem _ _ (by omega), List.getD_eq_getElem _ _ (by omega)]
    · rw [if_pos h1, if_neg (fun h => h2 h.2), List.getD_eq_default _ _ (by omega)]
  · rw [if_neg h1, if_neg (fun h => h1 h.1)]

/-- what was stored is what the process finds there -/
theorem userBytes_putBytes {k : Kernel} {m : ℕ → UInt8} {ptr : ℕ} {bs : Bytes} (h : k.umem = putBytes m ptr bs) :
    k.userBytes ptr bs.length = bs := by
  refine List.ext_getElem (by simp [Kernel.userBytes]) fun n h1 h2 => ?_
  simp only [Kernel.userBytes, List.getElem_map, List.getElem_range]
  rw [h, putBytes_eq, if_pos ⟨by omega, by omega⟩, Nat.add_sub_cancel_left, List.getD_eq_getElem _ _ h2]

theorem sysRead_returns (k : Kernel) (fd buf len : ℕ) (regs : Context) :
    ∃ r k', syscallHandler k sysReadNr fd buf len regs = .returns r k' := by
  rw [syscallHandler_read]
  split_ifs
  · exact ⟨_, _, rfl⟩
  · exact ⟨_, _, rfl⟩

theorem sysRead_eq {k : Kernel} {p : Process} {f : OpenFile} {fd buf len : ℕ} (hp : k.currentProcess = some p)
    (hf : p.fds[fd]? = some (some f)) (hread : f.perms &&& permRead ≠ 0) (hr : userRangeOk p buf len = true) :
    sysRead k fd buf len = ((readAt (k.fs.data f.inode) f.offset len).length,
      Kernel.setFds { k with umem := putBytes k.umem buf (readAt (k.fs.data f.inode) f.offset len) } p
        (p.fds.set fd (some { f with offset := f.offset + (readAt (k.fs.data f.inode) f.offset len).length }))) := by
  have hlt : fd < p.fds.length := (List.getElem?_eq_some_iff.1 hf).1
  have hget : p.fds.getD fd none = some f := by rw [List.getD_eq_getElem?_getD, hf]; rfl
  simp only [sysRead, hp, if_neg (Nat.not_le_of_lt hlt), hr, hget, if_neg hread, Bool.true_eq_false, if_false]

/-- the length, the bytes stored and the offset after a read -/
theorem sysRead_ok {k : Kernel} {p : Process} {f : OpenFile} {fd buf len : ℕ} (regs : Context)
    (hp : k.currentProcess = some p) (hal : syscallAllowed k sysReadNr = true) (hf : p.fds[fd]? = some (some f))
    (hread : f.perms &&& permRead ≠ 0) (hr : userRangeOk p buf len = true) :
    ∃ r k', syscallHandler k sysReadNr fd buf len regs = .returns r k' ∧
      r = min len ((k.fs.data f.inode).length - f.offset) ∧
      (∀ a, k'.umem a = if buf ≤ a ∧ a < buf + r then (k.fs.data f.inode).getD (f.offset + (a - buf)) 0 else k.umem a) ∧
      k' = { k with
        umem := k'.umem
        sched := k.sched.put k.sched.current
          (some { p with fds := p.fds.set fd (some { f with offset := f.offset + r }) }) } := by
  have hcall : syscallHandler k sysReadNr fd buf len regs = returned (sysRead k fd buf len) := by
    rw [syscallHandler_read, if_neg (by simp [hal])]
  refine ⟨_, _, by rw [hcall, sysRead_eq hp hf hread hr]; rfl, readAt_length _ _ _, fun a => ?_, rfl⟩
  show putBytes k.umem buf (readAt (k.fs.data f.inode) f.offset len) a = _
  rw [putBytes_eq]
  by_cases ha : buf ≤ a ∧ a < buf + (readAt (k.fs.data f.inode) f.offset len).length
  · rw [if_pos ha, if_pos ha]
    have hlen := readAt_length (k.fs.data f.inode) f.offset len
    rw [List.getD_eq_getElem _ _ (by omega), List.getD_eq_getElem _ _ (by omega)]
    simp only [readAt_eq, List.getElem_take, List.getElem_drop]
  · rw [if_neg ha, if_neg ha]

/-! ## What reads deliver in a run -/

/-- the event is a read through descriptor fd of the process in slot i -/
def ReadsFd (i : Fin 64) (fd : ℕ) (k : Kernel) (o : Op) : Prop :=
  ∃ a1 a2 a3 regs, o = .syscall 0 a1 a2 a3 regs ∧ k.sched.current = i ∧ a1.toNat = fd

/-- the bytes that the process finds in its buffer after the event, when this is a read through fd that did not fail -/
def delivered (i : Fin 64) (fd : ℕ) (k : Kernel) : Op → Bytes
  | .syscall nr a1 a2 a3 regs =>
    if nr = 0 ∧ k.sched.current = i ∧ a1.toNat = fd then
      match syscallHandler k sysReadNr a1.toNat a2.toNat a3.toNat regs with
      | .returns r k' => if 2 ^ 64 - 4095 ≤ r then [] else k'.userBytes a2.toNat r
      | _ => []
    else []
  | _ => []

/-- the bytes of all reads through fd in a run, in order -/
def reads (b : Boot) (i : Fin 64) (fd : ℕ) : Kernel → List Op → Bytes
  | _, [] => []
  | k, o :: ops =>
    delivered i fd k o ++
      match step b k o with
      | .ok k' => reads b i fd k' ops
      | .error _ => []

theorem delivered_of_not {i : Fin 64} {fd : ℕ} {k : Kernel} {o : Op} (h : ¬ ReadsFd i fd k o) : delivered i fd k o = [] := by
  cases o with
  | syscall nr a1 a2 a3 regs =>
    refine if_neg ?_
    rintro ⟨rfl, hi, hfd⟩
    exact h ⟨a1, a2, a3, regs, rfl, hi, hfd⟩
  | _ => rfl

theorem delivered_read {fd : ℕ} {k k' : Kernel} {a1 a2 a3 : UInt64} {regs : Context} {r : ℕ} (hfd : a1.toNat = fd)
    (h : syscallHandler k sysReadNr a1.toNat a2.toNat a3.toNat regs = .returns r k') :
    delivered k.sched.current fd k (.syscall 0 a1 a2 a3 regs) =
      if 2 ^ 64 - 4095 ≤ r then [] else k'.userBytes a2.toNat r := by
  simp only [delivered, hfd, and_self, if_true]
  rw [← hfd, h]

/-- the process in slot i has fd open on f -/
def HasFile (k : Kernel) (i : Fin 64) (fd : ℕ) (f : OpenFile) : Prop :=
  ∃ p, k.sched.processes i = some p ∧ p.fds[fd]? = some (some f)

/-- the event writes inode I, by name or through a descriptor -/
def Written (k : Kernel) (o : Op) (k' : Kernel) (I : ℕ) : Prop :=
  ShellWrites k o k' I ∨ ∃ p fd f, CallWrites k o k' p fd f ∧ f.inode = I

theorem HasFile.unique {k : Kernel} {i : Fin 64} {fd : ℕ} {f g : OpenFile} (hf : HasFile k i fd f)
    (hg : HasFile k i fd g) : g = f := by
  obtain ⟨p, hp, hf⟩ := hf
  obtain ⟨q, hq, hg⟩ := hg
  rw [hp] at hq
  cases hq
  rw [hf] at hg
  exact (Option.some.inj (Option.some.inj hg)).symm

/-- an event that does not read through fd and does not write the inode leaves an open file as it is -/
theorem hasFile_other {b : Boot} {k k' : Kernel} {o : Op} (he : step b k o = .ok k') {i : Fin 64} {fd : ℕ}
    {f g : OpenFile} (hf : HasFile k i fd f) (hw : ¬ Written k o k' f.inode) (hn : ¬ ReadsFd i fd k o)
    (hg : HasFile k' i fd g) : g = f := by
  obtain ⟨q, hq, hgq⟩ := hg
  cases fd_step (file_step he) hq hgq with
  | kept p hp hpid hgr hgp => exact hf.unique ⟨p, hp, hgp⟩
  | read a1 a2 a3 regs p f₀ off ho hi hfd hp hpid hgr hf₀ hoff => exact absurd ⟨a1, a2, a3, regs, ho, hi, hfd⟩ hn
  | wrote p f₀ off hcall hp hpid hgr hf₀ hoff =>
    have he' : f₀ = f := hf.unique ⟨p, hp, hf₀⟩
    exact absurd (Or.inr ⟨p, fd, f₀, hcall, by rw [he']⟩) hw
  | opened p name hpid hgr hopen =>
    -- a new file goes into a free descriptor
    obtain ⟨p', hp', hf⟩ := hf
    have hcur := hopen.caller
    rw [Kernel.currentProcess, hopen.current, hp'] at hcur
    cases hcur
    exact absurd hf (hopen.free f)

/-- **Step lemma.** While nothing writes the inode and the descriptor stays open, the bytes of the inode stay, what the
event delivered are the next bytes from the offset on, and the offset moves by their number. -/
theorem delivered_step {b : Boot} {k k' : Kernel} {o : Op} (hok : AllProcesses ProcessOk k.sched) (hin : InodesOk k)
    (he : step b k o = .ok k') {i : Fin 64} {fd : ℕ} {f : OpenFile} (hf : HasFile k i fd f)
    (hw : ¬ Written k o k' f.inode) (hopen : ∃ g, HasFile k' i fd g) :
    HasFile k' i fd { f with offset := f.offset + (delivered i fd k o).length } ∧
      k'.fs.data f.inode = k.fs.data f.inode ∧
      delivered i fd k o = ((k.fs.data f.inode).drop f.offset).take (delivered i fd k o).length := by
  have hdata : k'.fs.data f.inode = k.fs.data f.inode := by
    obtain ⟨p, hp, hfp⟩ := hf
    rcases fileStep_data (file_step he) (hin.opened i p fd f hp hfp) with h | h | h
    · exact h
    · exact absurd (Or.inl h) hw
    · exact absurd (Or.inr h) hw
  by_cases hn : ReadsFd i fd k o
  · obtain ⟨a1, a2, a3, regs, rfl, rfl, rfl⟩ := hn
    obtain ⟨r, k₂, hcall⟩ := sysRead_returns k a1.toNat a2.toNat a3.toNat regs
    have hk : k' = k₂ := by
      change (syscallHandler k sysReadNr a1.toNat a2.toNat a3.toNat regs).next = .ok k' at he
      rw [hcall] at he
      exact (Except.ok.inj he).symm
    subst hk
    rw [delivered_read rfl hcall]
    rcases sysRead_cases hcall with ⟨e, h1, h2, hre, rfl⟩ | ⟨p, g, hp, hr, hg, hperm, hlen, hk⟩
    · rw [if_pos (by rw [hre, err_eq h1 h2]; omega)]
      exact ⟨hf, rfl, rfl⟩
    · obtain rfl : g = f := hf.unique ⟨p, hp, hg⟩
      have hbuf := userRangeOk_len (hok _ p hp) hr
      have hmin := readAt_length (k.fs.data g.inode) g.offset a3.toNat
      have hbytes : k'.userBytes a2.toNat r = readAt (k.fs.data g.inode) g.offset a3.toNat := by
        rw [hlen]
        exact userBytes_putBytes (m := k.umem) (by rw [hk]; rfl)
      rw [if_neg (by omega), hbytes, ← hlen]
      refine ⟨⟨{ p with fds := p.fds.set a1.toNat (some { g with offset := g.offset + r }) }, ?_, ?_⟩, hdata, ?_⟩
      · rw [hk]
        exact Scheduler.put_self _ _ _
      · exact List.getElem?_set_self (List.getElem?_eq_some_iff.1 hg).1
      · rw [readAt_eq] at hlen ⊢
        rw [hlen, List.length_take, ← List.take_take, List.take_length]
  · obtain ⟨g, hg⟩ := hopen
    obtain rfl := hasFile_other he hf hw hn hg
    rw [delivered_of_not hn]
    exact ⟨hg, hdata, rfl⟩

/-! ## Stretches of a run -/

section

variable (b : Boot)

/-- the event does not write inode I, and the process in slot i has fd open after it -/
def Quiet (i : Fin 64) (fd I : ℕ) (k : Kernel) (o : Op) : Prop :=
  ∀ k', step b k o = .ok k' → ¬ Written k o k' I ∧ ∃ g, HasFile k' i fd g

variable {b}

/-- **Run lemma.** In a stretch in which the inode is not written and the descriptor stays open, the bytes of its reads are
one contiguous slice of the inode, from the offset on. -/
theorem run_reads {k k' : Kernel} {ops : List Op} (hok : AllProcesses ProcessOk k.sched) (hin : InodesOk k)
    (hr : run (step b) k ops = .ok k') {i : Fin 64} {fd : ℕ} {f : OpenFile} (hf : HasFile k i fd f)
    (hq : Along b (Quiet b i fd f.inode) k ops) :
    HasFile k' i fd { f with offset := f.offset + (reads b i fd k ops).length } ∧
      k'.fs.data f.inode = k.fs.data f.inode ∧
      reads b i fd k ops = ((k.fs.data f.inode).drop f.offset).take (reads b i fd k ops).length := by
  induction ops generalizing k f with
  | nil =>
    cases hr
    exact ⟨hf, rfl, rfl⟩
  | cons o ops ih =>
    obtain ⟨u, he, hr⟩ := bind_ok.1 hr
    obtain ⟨hw, hopen⟩ := hq.1 u he
    obtain ⟨hfu, hdata, hslice⟩ := delivered_step hok hin he hf hw hopen
    obtain ⟨hf', hdata', hslice'⟩ :=
      ih (fileStep_ok hok (file_step he)) (fileStep_inodesOk hin (file_step he)) hr hfu (hq.2 u he)
    have hreads : reads b i fd k (o :: ops) = delivered i fd k o ++ reads b i fd u ops := by
      simp only [reads, he]
    rw [hreads, List.length_append]
    refine ⟨by rw [← Nat.add_assoc]; exact hf', hdata'.trans hdata, ?_⟩
    rw [List.take_add, List.drop_drop, ← hslice, ← hdata]
    exact congrArg _ hslice'

/-- an inode that no name is bound to stays unbound -/
theorem run_unbound {k k' : Kernel} {ops : List Op} (hr : run (step b) k ops = .ok k') {I : ℕ} (hI : I < k.fs.fresh)
    (hn : I ∉ k.fs.root.map DirEntry.inode) : I < k'.fs.fresh ∧ I ∉ k'.fs.root.map DirEntry.inode := by
  refine run_invariant (I := fun u => I < u.fs.fresh ∧ I ∉ u.fs.root.map DirEntry.inode) ?_ ⟨hI, hn⟩ hr
  rintro u o u' ⟨hlt, hnot⟩ he
  refine ⟨hlt.trans_le (fileStep_fresh (file_step he)), ?_⟩
  rcases fileStep_root (file_step he) with ⟨h, -⟩ | ⟨name, h⟩ | ⟨name, h⟩
  · rw [h]; exact hnot
  · rw [h]; exact Ramfs.create_notMem hlt hnot name
  · rw [h]; exact Ramfs.delete_notMem_of_notMem hnot name

end

/-! ## Events that do not change what a descriptor reads next -/

/-- a shell command on files, a tick, or a read through another descriptor -/
inductive Elsewhere (i : Fin 64) (fd : ℕ) (k : Kernel) : Op → Prop where
  | rm (args : Bytes) : Elsewhere i fd k (.rm args)
  | create (args : Bytes) : Elsewhere i fd k (.create args)
  | write (args : Bytes) : Elsewhere i fd k (.write args)
  | timer (t : TrapFrame) : Elsewhere i fd k (.timer t)
  | read (a1 a2 a3 : UInt64) (regs : Context) (h : ¬ (k.sched.current = i ∧ a1.toNat = fd)) :
      Elsewhere i fd k (.syscall 0 a1 a2 a3 regs)

/-- such an event, and when it is a shell write then not of a name bound to I -/
def Harmless (i : Fin 64) (fd I : ℕ) (k : Kernel) (o : Op) : Prop :=
  Elsewhere i fd k o ∧ ∀ args, o = .write args → k.fs.lookup (splitFirstWord args).1 ≠ some I

theorem HasFile.of_sched {k k' : Kernel} {i : Fin 64} {fd : ℕ} {f : OpenFile} (h : HasFile k i fd f)
    (e : k'.sched.processes i = k.sched.processes i) : HasFile k' i fd f := by
  obtain ⟨p, hp, hf⟩ := h
  exact ⟨p, e.trans hp, hf⟩

theorem hasFile_timer {k : Kernel} {t : TrapFrame} {r : Kernel × Option Context} (hr : timerDoSwitch k t = .ok r)
    {i : Fin 64} {fd : ℕ} {f : OpenFile} (h : HasFile k i fd f) : HasFile r.1 i fd f := by
  have hticked : k.ticked.sched = k.sched := by
    obtain ⟨g, s, e⟩ := k.ticked_eq
    rw [e]
  -- saving the registers changes the context of the current process only
  have hsave : ∃ p, (k.sched.saveCurrent t).processes i = some p ∧ p.fds[fd]? = some (some f) := by
    obtain ⟨p, hp, hf⟩ := h
    rcases saveCurrent_cases k.sched t with ⟨q, hq, e⟩ | ⟨-, e⟩
    · rw [e]
      by_cases hi : i = k.sched.current
      · subst hi
        rw [hp] at hq
        cases hq
        exact ⟨_, Scheduler.put_self _ _ _, hf⟩
      · exact ⟨p, by rw [Scheduler.put_of_ne _ _ hi]; exact hp, hf⟩
    · rw [e]; exact ⟨p, hp, hf⟩
  rcases timer_cases hr with rfl | rfl | ⟨j, q, -, -, -, rfl⟩
  · exact h.of_sched (by rw [hticked])
  · exact hsave
  · exact hsave

theorem hasFile_read {k k' : Kernel} {a1 a2 a3 r : ℕ} {regs : Context}
    (hcall : syscallHandler k sysReadNr a1 a2 a3 regs = .returns r k') {i : Fin 64} {fd : ℕ} {f : OpenFile}
    (hn : ¬ (k.sched.current = i ∧ a1 = fd)) (h : HasFile k i fd f) : HasFile k' i fd f := by
  rcases sysRead_cases hcall with ⟨e, -, -, -, rfl⟩ | ⟨p, g, hp, -, -, -, -, rfl⟩
  · exact h
  · by_cases hi : i = k.sched.current
    · subst hi
      obtain ⟨p', hp', hf⟩ := h
      obtain rfl : p' = p := Option.some.inj (hp'.symm.trans hp)
      exact ⟨_, Scheduler.put_self _ _ _, (List.getElem?_set_ne fun h => hn ⟨rfl, h⟩).trans hf⟩
    · exact h.of_sched (Scheduler.put_of_ne _ _ hi)

theorem Harmless.quiet {b : Boot} {i : Fin 64} {fd : ℕ} {f : OpenFile} {k k' : Kernel} {o : Op}
    (h : Harmless i fd f.inode k o) (he : step b k o = .ok k') (hf : HasFile k i fd f) :
    ¬ Written k o k' f.inode ∧ HasFile k' i fd f := by
  obtain ⟨ho, hwrite⟩ := h
  refine ⟨?_, ?_⟩
  · rintro (⟨args, hargs, -, hl, -⟩ | ⟨p, fd', g, ⟨a1, a2, a3, regs, hcall, -⟩, -⟩)
    · exact hwrite args hargs hl
    · rw [hcall] at ho
      cases ho
  · cases ho with
    | rm args | create args | write args =>
      obtain ⟨fs, s, rfl⟩ := step_onFiles rfl he
      exact hf.of_sched rfl
    | timer t =>
      obtain ⟨r, hr, he⟩ := bind_ok.1 he
      cases he
      exact hasFile_timer hr hf
    | read a1 a2 a3 regs hn =>
      obtain ⟨r, k₂, hcall⟩ := sysRead_returns k a1.toNat a2.toNat a3.toNat regs
      change (syscallHandler k sysReadNr a1.toNat a2.toNat a3.toNat regs).next = .ok k' at he
      rw [hcall] at he
      cases he
      exact hasFile_read hcall hn hf

theorem run_harmless {b : Boot} {k k' : Kernel} {ops : List Op} (hin : InodesOk k) (hr : run (step b) k ops = .ok k')
    {i : Fin 64} {fd : ℕ} {f : OpenFile} (hf : HasFile k i fd f) (h : Along b (Harmless i fd f.inode) k ops) :
    HasFile k' i fd f ∧ k'.fs.data f.inode = k.fs.data f.inode := by
  induction ops generalizing k with
  | nil => cases hr; exact ⟨hf, rfl⟩
  | cons o ops ih =>
    obtain ⟨u, he, hr⟩ := bind_ok.1 hr
    obtain ⟨hw, hfu⟩ := h.1.quiet he hf
    obtain ⟨hf', hdata'⟩ := ih (fileStep_inodesOk hin (file_step he)) hr hfu (h.2 u he)
    refine ⟨hf', hdata'.trans ?_⟩
    obtain ⟨p, hp, hfp⟩ := hf
    rcases fileStep_data (file_step he) (hin.opened i p fd f hp hfp) with hsame | hshell | hcall
    · exact hsame
    · exact absurd (Or.inl hshell) hw
    · exact absurd (Or.inr hcall) hw

/-- while no name is bound to the inode, writes by name do not reach it either -/
theorem along_unbound {b : Boot} {k : Kernel} {ops : List Op} {i : Fin 64} {fd I : ℕ}
    (h : Along b (Elsewhere i fd) k ops) (hI : I < k.fs.fresh) (hn : I ∉ k.fs.root.map DirEntry.inode) :
    Along b (Harmless i fd I) k ops := by
  induction ops generalizing k with
  | nil => trivial
  | cons o ops ih =>
    refine ⟨⟨h.1, fun args _ => Ramfs.lookup_ne_of_notMem hn _⟩, fun k' he => ?_⟩
    have hone : run (step b) k [o] = .ok k' := by simp [run, he]
    obtain ⟨hI', hn'⟩ := run_unbound hone hI hn
    exact ih (h.2 k' he) hI' hn'

theorem rm_unbound {b : Boot} {k k' : Kernel} {args : Bytes} {I : ℕ} (hw : k.fs.WellFormed) (ha : args ≠ [])
    (hl : k.fs.lookup (splitFirstWord args).1 = some I) (he : step b k (.rm args) = .ok k') :
    I < k'.fs.fresh ∧ I ∉ k'.fs.root.map DirEntry.inode := by
  have hfs : k'.fs = (k.fs.delete (splitFirstWord args).1).2 := by
    cases he
    unfold cmdRm
    rw [if_neg ha]
    rfl
  rw [hfs, Ramfs.delete_fresh]
  exact ⟨Ramfs.lookup_lt hw hl, Ramfs.delete_notMem hw hl⟩

/-- after `rm` of the name bound to the inode, nothing the shell does to files reaches it -/
theorem along_rm {b : Boot} {k : Kernel} {args : Bytes} {ops : List Op} {i : Fin 64} {fd I : ℕ} (hw : k.fs.WellFormed)
    (ha : args ≠ []) (hl : k.fs.lookup (splitFirstWord args).1 = some I) (h : Along b (Elsewhere i fd) k (.rm args :: ops)) :
    Along b (Harmless i fd I) k (.rm args :: ops) := by
  refine ⟨⟨h.1, fun _ hargs => by cases hargs⟩, fun k' he => ?_⟩
  obtain ⟨hlt, hnot⟩ := rm_unbound hw ha hl he
  exact along_unbound (h.2 k' he) hlt hnot

/-- **Open-file read semantics.** For every run from a fresh state and every file f that a process p in slot i has open with
the right to read: f goes back to an open of a name then bound to f.inode (I), and
1. a read with a valid buffer returns min len (|I| - offset), stores exactly these bytes of I, moves this offset by their
   number and changes nothing else;
2. no sequence of shell commands on files, ticks and reads through other descriptors changes what fd reads next, as long
   as shell writes go to names not bound to I, which is so for all names once the name of I was deleted: then no name is
   bound to I in any later state;
3. in every stretch in which I is not written and fd stays open, the bytes of its reads are one contiguous slice of I. -/
theorem read_semantics (b : Boot) (k₁ k : Kernel) (ops : List Op) (h0 : Fresh k₁) (hr : run (step b) k₁ ops = .ok k)
    (i : Fin 64) (p : Process) (fd : ℕ) (f : OpenFile) (hp : k.sched.processes i = some p)
    (hf : p.fds[fd]? = some (some f)) (hread : f.perms &&& permRead ≠ 0) :
    (∃ t name, OpenedBy b k₁ ops t i p fd f name) ∧
    (∀ buf len regs, k.sched.current = i → syscallAllowed k sysReadNr = true → userRangeOk p buf len = true →
      ∃ r k', syscallHandler k sysReadNr fd buf len regs = .returns r k' ∧
        r = min len ((k.fs.data f.inode).length - f.offset) ∧
        (∀ a, k'.umem a =
          if buf ≤ a ∧ a < buf + r then (k.fs.data f.inode).getD (f.offset + (a - buf)) 0 else k.umem a) ∧
        k' = { k with
          umem := k'.umem
          sched := k.sched.put i (some { p with fds := p.fds.set fd (some { f with offset := f.offset + r }) }) }) ∧
    (∀ ops' k', run (step b) k ops' = .ok k' →
      (Along b (Harmless i fd f.inode) k ops' ∨
        ∃ args rest, ops' = .rm args :: rest ∧ args ≠ [] ∧ k.fs.lookup (splitFirstWord args).1 = some f.inode ∧
          Along b (Elsewhere i fd) k ops') →
      HasFile k' i fd f ∧ k'.fs.data f.inode = k.fs.data f.inode) ∧
    (∀ args rest k', args ≠ [] → k.fs.lookup (splitFirstWord args).1 = some f.inode →
      run (step b) k (.rm args :: rest) = .ok k' → ∀ name, k'.fs.lookup name ≠ some f.inode) ∧
    (∀ ops' k', run (step b) k ops' = .ok k' → Along b (Quiet b i fd f.inode) k ops' →
      HasFile k' i fd { f with offset := f.offset + (reads b i fd k ops').length } ∧
      reads b i fd k ops' = ((k.fs.data f.inode).drop f.offset).take (reads b i fd k ops').length) := by
  have hin := run_inodesOk h0 hr
  have hfile : HasFile k i fd f := ⟨p, hp, hf⟩
  refine ⟨run_opened h0 hr hp hf, fun buf len regs hi hal hrange => ?_, fun ops' k' hr' h => ?_,
    fun args rest k' ha hl hr' name => ?_, fun ops' k' hr' h => ?_⟩
  · subst hi
    exact sysRead_ok regs hp hal hf hread hrange
  · rcases h with h | ⟨args, rest, rfl, ha, hl, h⟩
    · exact run_harmless hin hr' hfile h
    · exact run_harmless hin hr' hfile (along_rm hin.files ha hl h)
  · obtain ⟨u, he, hrest⟩ := bind_ok.1 hr'
    obtain ⟨hlt, hnot⟩ := rm_unbound hin.files ha hl he
    exact Ramfs.lookup_ne_of_notMem (run_unbound hrest hlt hnot).2 name
  · obtain ⟨hf', -, hslice⟩ := run_reads (run_processOk h0 hr) hin hr' hfile h
    exact ⟨hf', hslice⟩

/-- a file opened for reading, then its name deleted and created again: the descriptor still reads the old inode -/
theorem read_semantics_demo : ∃ k k', run (step demoBoot) demoFiles (demoOps.take 1) = .ok k ∧
    run (step demoBoot) k [.rm (str "hello.txt"), .create (str "hello.txt")] = .ok k' ∧
    HasFile k' 0 3 ⟨permRead, 0, 0⟩ ∧ k'.fs.data 0 = k.fs.data 0 := by
  obtain ⟨k, p, hr, hp, hf⟩ := fileAt_some
    (show fileAt (run (step demoBoot) demoFiles (demoOps.take 1)) 3 = some ⟨permRead, 0, 0⟩ by decide +kernel)
  have h := (read_semantics demoBoot demoFiles k _ demoFresh hr 0 p 3 _ hp hf (by decide)).2.2.1
  obtain ⟨hfile, hdata⟩ := h [.rm (str "hello.txt"), .create (str "hello.txt")] _ rfl
    (Or.inl ⟨⟨.rm _, fun _ h => by cases h⟩, fun _ _ => ⟨⟨.create _, fun _ h => by cases h⟩, fun _ _ => trivial⟩⟩)
  exact ⟨k, _, hr, rfl, hfile, hdata⟩

end Tomorrow
