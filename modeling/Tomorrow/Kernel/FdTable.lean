/-
The descriptor table of a process (`process.rs`, `syscall.rs`).

`Process::new` gives a table of three empty slots, which stay empty: 0, 1 and 2 are not files. `sys_open` takes the first
empty slot from 3 on or lets the table grow up to 16 slots; `sys_close` empties a slot; reads and writes move an offset.
Each of the four calls takes its descriptor unchecked from a register and does its own checks.

`TableOk` holds of the table of every process in every state of a run. `installFd_least` says where a new file goes.

Result: `fd_table`, over every run from processes as `Process::new` makes them: the shape of every table, what an open, a
close and a second close do, and that a read, a write or a close reaches an open slot only, which goes back to an open of
the same process that has not been closed since.
-/
import Tomorrow.Kernel.Grants

namespace Tomorrow

open Tomorrow.Core Files Sched Shell Vmm

/-! ## Tables -/

/-- a file is open in slot j -/
def IsOpen (fds : List (Option OpenFile)) (j : ℕ) : Prop := ∃ f, fds[j]? = some (some f)

/-- three to sixteen slots, the first three empty -/
structure TableOk (fds : List (Option OpenFile)) : Prop where
  ge : firstFileFd ≤ fds.length
  le : fds.length ≤ maxFds
  std : ∀ j < firstFileFd, fds[j]? = some none

/-- the table fds' is fds with slot j replaced -/
def OnlySlot (fds : List (Option OpenFile)) (j : ℕ) (x : Option OpenFile) (fds' : List (Option OpenFile)) : Prop :=
  fds'[j]? = some x ∧ ∀ i ≠ j, fds'[i]? = fds[i]?

theorem isOpen_iff_getD {fds : List (Option OpenFile)} {j : ℕ} : IsOpen fds j ↔ (fds.getD j none).isSome = true := by
  rw [Option.isSome_iff_exists]
  constructor
  · rintro ⟨f, hf⟩
    exact ⟨f, by rw [List.getD_eq_getElem?_getD, hf]; rfl⟩
  · rintro ⟨f, hf⟩
    exact ⟨f, getD_eq_some hf⟩

theorem IsOpen.lt {fds : List (Option OpenFile)} {j : ℕ} (h : IsOpen fds j) : j < fds.length := by
  obtain ⟨f, hf⟩ := h
  exact (List.getElem?_eq_some_iff.1 hf).1

theorem TableOk.first_le {fds : List (Option OpenFile)} {j : ℕ} (h : TableOk fds) (ho : IsOpen fds j) :
    firstFileFd ≤ j := by
  by_contra hlt
  obtain ⟨f, hf⟩ := ho
  rw [h.std j (by omega)] at hf
  cases hf

theorem onlySlot_set {fds : List (Option OpenFile)} {j : ℕ} (hj : j < fds.length) (x : Option OpenFile) :
    OnlySlot fds j x (fds.set j x) :=
  ⟨List.getElem?_set_self hj, fun _ hi => List.getElem?_set_ne (Ne.symm hi)⟩

theorem TableOk.set {fds : List (Option OpenFile)} {j : ℕ} (h : TableOk fds) (ho : IsOpen fds j) (x : Option OpenFile) :
    TableOk (fds.set j x) := by
  refine ⟨by rw [List.length_set]; exact h.ge, by rw [List.length_set]; exact h.le, fun i hi => ?_⟩
  have := h.first_le ho
  rw [List.getElem?_set_ne (by omega)]
  exact h.std i hi

/-- **Where a new file goes**: the lowest slot from 3 on that is not open; no other slot changes -/
theorem installFd_least {fds fds' : List (Option OpenFile)} {f : OpenFile} {fd : ℕ} (hok : TableOk fds)
    (h : installFd fds f = some (fd, fds')) :
    firstFileFd ≤ fd ∧ ¬ IsOpen fds fd ∧ (∀ j, firstFileFd ≤ j → j < fd → IsOpen fds j) ∧ OnlySlot fds fd (some f) fds' := by
  have hfree : ¬ IsOpen fds fd := fun ⟨g, hg⟩ => installFd_free h hg
  have hge := hok.ge
  unfold installFd at h
  cases hfd : freeFd fds with
  | some i =>
    rw [hfd] at h
    cases h
    obtain ⟨-, hmem, hbelow⟩ := List.find?_range'_eq_some.1 hfd
    rw [List.mem_range'_1] at hmem
    refine ⟨hmem.1, hfree, fun j h3 hj => ?_, onlySlot_set (by omega) _⟩
    have := hbelow j h3 hj
    rw [isOpen_iff_getD]
    simpa using this
  | none =>
    rw [hfd] at h
    dsimp only at h
    split_ifs at h with hmax
    cases h
    refine ⟨hge, hfree, fun j h3 hj => ?_, by simp, fun i hi => ?_⟩
    · have := List.find?_range'_eq_none.1 hfd j h3 (by omega)
      rw [isOpen_iff_getD]
      simpa using this
    · rcases Nat.lt_or_ge i fds.length with hlt | hge'
      · rw [List.getElem?_append_left hlt]
      · rw [List.getElem?_eq_none (by simp; omega), List.getElem?_eq_none hge']

/-- the table is full: every slot from 3 on is open -/
theorem installFd_full {fds : List (Option OpenFile)} {f : OpenFile} (h : installFd fds f = none) {j : ℕ}
    (h3 : firstFileFd ≤ j) (hj : j < maxFds) : IsOpen fds j := by
  unfold installFd at h
  cases hfd : freeFd fds with
  | some i => rw [hfd] at h; cases h
  | none =>
    rw [hfd] at h
    dsimp only at h
    split_ifs at h with hmax
    have := List.find?_range'_eq_none.1 hfd j h3 (by omega)
    rw [isOpen_iff_getD]
    simpa using this

theorem TableOk.install {fds fds' : List (Option OpenFile)} {f : OpenFile} {fd : ℕ} (hok : TableOk fds)
    (h : installFd fds f = some (fd, fds')) : TableOk fds' := by
  obtain ⟨h3, -, -, -, hother⟩ := installFd_least hok h
  have hge := hok.ge
  have hle := hok.le
  have hstd : ∀ j < firstFileFd, fds'[j]? = some none := fun j hj => by rw [hother j (by omega), hok.std j hj]
  rcases installFd_spec h with ⟨-, -, rfl⟩ | ⟨hlt, -, rfl⟩
  · exact ⟨by simpa using hge, by simpa using hle, hstd⟩
  · exact ⟨by simp; omega, by simp; omega, hstd⟩

/-! ## Runs -/

theorem fileStep_table {k k' : Kernel} {o : Op} (h : AllProcesses (fun p => TableOk p.fds) k.sched)
    (he : FileStep k o k') : AllProcesses (fun p => TableOk p.fds) k'.sched := by
  cases he with
  | kept o k' hfs hk hu => exact h.kept hk fun p q e hp => by rw [e.fds]; exact hp
  | spawned o k' i p n hfs hu hi hs hp =>
    rw [hs]
    refine h.put ?_
    rw [hp.fds]
    exact ⟨by decide, by decide, by decide⟩
  | shellWrite args k' hfs hs hu ha => rw [hs]; exact h
  | shellCreate args k' hfs hs hu => rw [hs]; exact h
  | shellRm args k' hfs hs hu => rw [hs]; exact h
  | write a1 a2 a3 regs p f data stop hp hfd hperm hw => exact h.put ((h _ p hp).set ⟨f, hfd⟩ _)
  | opened a1 a2 a3 regs p need inode fd fds hp hneed hgrant hlookup hinst hret =>
    exact h.put ((h _ p hp).install hinst)
  | read a1 a2 a3 regs p f hp hfd hperm => exact h.put ((h _ p hp).set ⟨f, hfd⟩ _)
  | closed a1 a2 a3 regs p f hp hfd => exact h.put ((h _ p hp).set ⟨f, hfd⟩ _)

theorem run_table {b : Boot} {k₁ k : Kernel} {ops : List Op} (h0 : Fresh k₁) (hr : run (step b) k₁ ops = .ok k) :
    AllProcesses (fun p => TableOk p.fds) k.sched := by
  have h1 : AllProcesses (fun p => TableOk p.fds) k₁.sched := by
    intro i p hp
    simp only [(h0.processes i p hp).fds]
    exact ⟨by decide, by decide, by decide⟩
  exact run_invariant (I := fun k => AllProcesses (fun p => TableOk p.fds) k.sched)
    (fun _ _ _ hI he => fileStep_table hI (file_step he)) h1 hr

/-! ## Calls -/

/-- the call returns an error and changes nothing -/
def Refused (k : Kernel) (o : Outcome) : Prop := ∃ e, 1 ≤ e ∧ e ≤ 38 ∧ o = .returns (err e) k

/-- what an open of p in state k does: it is refused, with EMFILE only when the slots 3 to 15 are all open; or it returns
the lowest slot from 3 on that is not open and fills it with a file at offset 0 -/
def OpenLaw (k : Kernel) (p : Process) (o : Outcome) : Prop :=
  (Refused k o ∧ (o = .returns (err EMFILE) k → ∀ j, 3 ≤ j → j ≤ 15 → IsOpen p.fds j)) ∨
    ∃ fd f fds, o = .returns fd (k.setFds p fds) ∧ 3 ≤ fd ∧ fd ≤ 15 ∧ ¬ IsOpen p.fds fd ∧
      (∀ j, 3 ≤ j → j < fd → IsOpen p.fds j) ∧ f.offset = 0 ∧ OnlySlot p.fds fd (some f) fds

/-- what a close of slot fd of p in state k does: it is refused, or returns 0, the slot was open and is emptied -/
def CloseLaw (k : Kernel) (p : Process) (fd : ℕ) (o : Outcome) : Prop :=
  Refused k o ∨ (IsOpen p.fds fd ∧ ∃ fds, o = .returns 0 (k.setFds p fds) ∧ OnlySlot p.fds fd none fds)

theorem err_inj {e e' : ℕ} (h1 : 1 ≤ e) (h38 : e ≤ 38) (h1' : 1 ≤ e') (h38' : e' ≤ 38) (h : err e = err e') :
    e = e' := by
  unfold err at h
  omega

section

variable {k : Kernel} {p : Process} (a b c : ℕ) (regs : Context)

theorem OpenLaw.refused {e : ℕ} (h1 : 1 ≤ e) (h38 : e ≤ 38) (hne : e ≠ EMFILE) : OpenLaw k p (.returns (err e) k) := by
  refine Or.inl ⟨⟨e, h1, h38, rfl⟩, fun h => ?_⟩
  injection h with h
  exact absurd (err_inj h1 h38 (by decide) (by decide) h) hne

/-- **Open.** Every error exit but the last is another error; at the last the table decides. -/
theorem open_law (hp : k.currentProcess = some p) (hok : TableOk p.fds) :
    OpenLaw k p (syscallHandler k sysOpenNr a b c regs) := by
  rw [syscallHandler_open]
  split_ifs with hal
  · exact OpenLaw.refused (by decide) (by decide) (by decide)
  unfold sysOpen
  rw [hp]
  dsimp only
  cases neededPerms c with
  | none => exact OpenLaw.refused (by decide) (by decide) (by decide)
  | some need =>
    dsimp only
    split_ifs with h0 hmax hr hg
    · exact OpenLaw.refused (by decide) (by decide) (by decide)
    · exact OpenLaw.refused (by decide) (by decide) (by decide)
    · exact OpenLaw.refused (by decide) (by decide) (by decide)
    · exact OpenLaw.refused (by decide) (by decide) (by decide)
    cases k.fs.lookup (k.userBytes a b) with
    | none => exact OpenLaw.refused (by decide) (by decide) (by decide)
    | some inode =>
      dsimp only
      cases hi : installFd p.fds ⟨need, inode, 0⟩ with
      | none =>
        refine Or.inl ⟨⟨EMFILE, by decide, by decide, rfl⟩, fun _ j h3 hj => ?_⟩
        exact installFd_full hi h3 (Nat.lt_succ_of_le hj)
      | some r =>
        obtain ⟨h3, hfree, hbelow, hslot⟩ := installFd_least hok hi
        have hlt : r.1 < r.2.length := IsOpen.lt ⟨_, hslot.1⟩
        have hle := (hok.install hi).le
        unfold maxFds at hle
        exact Or.inr ⟨r.1, _, r.2, rfl, h3, by omega, hfree, hbelow, rfl, hslot⟩

/-- **Close** of a slot that is open empties it. -/
theorem close_law (hp : k.currentProcess = some p) : CloseLaw k p a (syscallHandler k sysCloseNr a b c regs) := by
  rw [syscallHandler_close]
  split_ifs with hal
  · exact Or.inl ⟨EPERM, by decide, by decide, rfl⟩
  unfold sysClose
  rw [hp]
  dsimp only
  split_ifs with hlen hnone
  · exact Or.inl ⟨EBADF, by decide, by decide, rfl⟩
  · exact Or.inl ⟨EBADF, by decide, by decide, rfl⟩
  · have ho : IsOpen p.fds a := isOpen_iff_getD.2 (by simpa [Option.isSome_iff_ne_none] using hnone)
    exact Or.inr ⟨ho, _, rfl, onlySlot_set ho.lt none⟩

/-- a close of a slot that is not open, by a process that may call close, returns EBADF -/
theorem close_closed (hp : k.currentProcess = some p) (hal : syscallAllowed k sysCloseNr = true) (ho : ¬ IsOpen p.fds a) :
    syscallHandler k sysCloseNr a b c regs = .returns (err EBADF) k := by
  rw [syscallHandler_close, if_neg (by simp [hal]), sysClose, hp]
  dsimp only
  split_ifs with hlen hnone
  · rfl
  · rfl
  · exact absurd (isOpen_iff_getD.2 (by simpa [Option.isSome_iff_ne_none] using hnone)) ho

theorem getD_eq_none_of_closed {fds : List (Option OpenFile)} {j : ℕ} (ho : ¬ IsOpen fds j) : fds.getD j none = none := by
  rw [isOpen_iff_getD, Option.isSome_iff_ne_none, not_not] at ho
  exact ho

/-- a read of a slot that is not open is refused -/
theorem read_closed (hp : k.currentProcess = some p) (ho : ¬ IsOpen p.fds a) :
    Refused k (syscallHandler k sysReadNr a b c regs) := by
  rw [syscallHandler_read]
  split_ifs with hal
  · exact ⟨EPERM, by decide, by decide, rfl⟩
  simp only [sysRead, hp, getD_eq_none_of_closed ho]
  split_ifs with hlen hr
  · exact ⟨EBADF, by decide, by decide, rfl⟩
  · exact ⟨EFAULT, by decide, by decide, rfl⟩
  · exact ⟨EBADF, by decide, by decide, rfl⟩

/-- a write to a slot that is not open is refused or is output to the screen -/
theorem write_closed (hp : k.currentProcess = some p) (ho : ¬ IsOpen p.fds a) :
    Refused k (syscallHandler k sysWriteNr a b c regs) ∨
      ((a = 1 ∨ a = 2) ∧ ∃ screen, syscallHandler k sysWriteNr a b c regs = .returns c { k with screen := screen }) := by
  rw [syscallHandler_write]
  split_ifs with hal
  · exact Or.inl ⟨EPERM, by decide, by decide, rfl⟩
  simp only [sysWrite, hp, getD_eq_none_of_closed ho]
  split_ifs with hlen hr hstd
  · exact Or.inl ⟨EBADF, by decide, by decide, rfl⟩
  · exact Or.inl ⟨EFAULT, by decide, by decide, rfl⟩
  · exact Or.inr ⟨hstd, _, rfl⟩
  · exact Or.inl ⟨EBADF, by decide, by decide, rfl⟩

/-- after a close that succeeds, closing the slot again returns EBADF -/
theorem close_twice (hp : k.currentProcess = some p) {k' : Kernel}
    (h : syscallHandler k sysCloseNr a b c regs = .returns 0 k') (b' c' : ℕ) (regs' : Context) :
    syscallHandler k' sysCloseNr a b' c' regs' = .returns (err EBADF) k' := by
  rcases close_law a b c regs hp with ⟨e, h1, h38, he⟩ | ⟨-, fds, he, hslot⟩
  · rw [h] at he
    injection he with he
    unfold err at he
    omega
  · rw [h] at he
    injection he with _ he
    subst he
    have hp' : (k.setFds p fds).currentProcess = some { p with fds := fds } := Scheduler.put_self _ _ _
    have hal : syscallAllowed k sysCloseNr = true := by
      by_contra hal
      rw [syscallHandler_close, if_pos (Bool.eq_false_of_not_eq_true hal)] at h
      injection h with h
      exact absurd h (by decide)
    have hal' : syscallAllowed (k.setFds p fds) sysCloseNr = true := by
      simpa only [syscallAllowed, hp, hp'] using hal
    refine close_closed a b' c' regs' hp' hal' ?_
    rintro ⟨f, hf⟩
    rw [show ({ p with fds := fds } : Process).fds = fds from rfl, hslot.1] at hf
    cases hf

end

/-- **Descriptor table.** In every state of every run from processes as `Process::new` makes them:
- every table has 3 to 16 slots, and 0, 1 and 2 are empty;
- an open is refused, with EMFILE only when 3 to 15 are all open, or returns the lowest slot from 3 on that is not open
  and fills exactly it, at offset 0;
- a close is refused or empties exactly its slot, which was open; a second close fails;
- on a slot that is not open, read and close are refused, and write too unless it goes to the screen; a slot that is open
  goes back to an open of the process in the run that returned it, and has stayed open since. -/
theorem fd_table (b : Boot) (k₁ k : Kernel) (ops : List Op) (h0 : Fresh k₁) (hr : run (step b) k₁ ops = .ok k) :
    (∀ i p, k.sched.processes i = some p → 3 ≤ p.fds.length ∧ p.fds.length ≤ 16 ∧ ∀ j < 3, p.fds[j]? = some none) ∧
    ∀ p, k.currentProcess = some p → ∀ (a1 a2 a3 : UInt64) (regs : Context),
      OpenLaw k p (syscallHandler k sysOpenNr a1.toNat a2.toNat a3.toNat regs) ∧
      CloseLaw k p a1.toNat (syscallHandler k sysCloseNr a1.toNat a2.toNat a3.toNat regs) ∧
      (∀ k', syscallHandler k sysCloseNr a1.toNat a2.toNat a3.toNat regs = .returns 0 k' →
        ∀ (b2 b3 : UInt64) regs', syscallHandler k' sysCloseNr a1.toNat b2.toNat b3.toNat regs' = .returns (err EBADF) k') ∧
      (¬ IsOpen p.fds a1.toNat →
        Refused k (syscallHandler k sysReadNr a1.toNat a2.toNat a3.toNat regs) ∧
        Refused k (syscallHandler k sysCloseNr a1.toNat a2.toNat a3.toNat regs) ∧
        (Refused k (syscallHandler k sysWriteNr a1.toNat a2.toNat a3.toNat regs) ∨
          ((a1.toNat = 1 ∨ a1.toNat = 2) ∧ ∃ screen, syscallHandler k sysWriteNr a1.toNat a2.toNat a3.toNat regs =
            .returns a3.toNat { k with screen := screen }))) ∧
      ∀ f, p.fds[a1.toNat]? = some (some f) → ∃ t name, OpenedBy b k₁ ops t k.sched.current p a1.toNat f name := by
  have htable := run_table h0 hr
  refine ⟨fun i p hp => ?_, fun p hp a1 a2 a3 regs =>
    ⟨?_, ?_, fun k' h b2 b3 regs' => ?_, fun ho => ⟨?_, ?_, ?_⟩, fun f hf => ?_⟩⟩
  · obtain ⟨hge, hle, hstd⟩ := htable i p hp
    exact ⟨hge, hle, hstd⟩
  · exact open_law _ _ _ regs hp (htable _ p hp)
  · exact close_law _ _ _ regs hp
  · exact close_twice _ _ _ regs hp h _ _ regs'
  · exact read_closed _ _ _ regs hp ho
  · exact (close_law _ _ _ regs hp).resolve_right fun h => ho h.1
  · exact write_closed _ _ _ regs hp ho
  · exact run_opened h0 hr hp hf

/-- open for reading: descriptor 3, opened by event 0 of the run -/
theorem fd_table_demo : ∃ k p t name, run (step demoBoot) demoFiles [.syscall 2 0x1000 9 0 demoProcess.context] = .ok k ∧
    k.currentProcess = some p ∧ p.fds.length ≤ 16 ∧
    OpenedBy demoBoot demoFiles [.syscall 2 0x1000 9 0 demoProcess.context] t k.sched.current p 3 ⟨permRead, 0, 0⟩ name := by
  obtain ⟨k, p, hr, hp, hf⟩ := fileAt_some
    (show fileAt (run (step demoBoot) demoFiles [.syscall 2 0x1000 9 0 demoProcess.context]) 3 =
      some ⟨permRead, 0, 0⟩ by decide +kernel)
  obtain ⟨k', hr', hcur⟩ := endsWith_iff.1
    (show endsWith (fun k => decide (k.sched.current = 0))
      (run (step demoBoot) demoFiles [.syscall 2 0x1000 9 0 demoProcess.context]) = true by decide +kernel)
  rw [hr] at hr'
  cases hr'
  have hp' : k.currentProcess = some p := by
    rw [Kernel.currentProcess, of_decide_eq_true hcur]
    exact hp
  have h := fd_table demoBoot demoFiles k _ demoFresh hr
  obtain ⟨t, name, ht⟩ := (h.2 p hp' 3 0 0 demoProcess.context).2.2.2.2 _ hf
  exact ⟨k, p, t, name, hr, hp', (h.1 0 p hp).2.1, ht⟩

end Tomorrow
