/-
Which user memory a system call touches.

The kernel runs with all of memory mapped, so a pointer argument is as good as the check before it is used. The handlers
with a pointer (`sys_write`, `sys_open`, `sys_read`) are repeated here with a log of the ranges of user memory they read
and write; `syscallLogged_erase` says that without the log they are the handlers. The log is what the calls depend on and
what they change: `syscallLogged_reads`, `syscallLogged_writes`.

Result: `user_confinement`, in every reachable state and for all arguments.
-/
import Tomorrow.Kernel.Lifecycle
import Tomorrow.Kernel.UserMappings
import Tomorrow.Kernel.Reads

namespace Tomorrow

open Tomorrow.Core Files Sched Shell Vmm

/-! ## Handlers with a log -/

/-- a range of user memory that the kernel reads or writes -/
structure Access where
  writes : Bool
  ptr : ℕ
  len : ℕ
deriving DecidableEq

def Access.Covers (c : Access) (a : ℕ) : Prop := c.ptr ≤ a ∧ a < c.ptr + c.len

def sysWriteLogged (k : Kernel) (fd buf len : ℕ) : (ℕ × Kernel) × List Access :=
  match k.currentProcess with
  | none => ((err ESRCH, k), [])
  | some p =>
    if p.fds.length ≤ fd then ((err EBADF, k), [])
    else if userRangeOk p buf len = false then ((err EFAULT, k), [])
    else if fd = 1 ∨ fd = 2 then
      ((len, { k with screen := k.screen.programOutput (k.userBytes buf len) }), [⟨false, buf, len⟩])
    else
      match p.fds.getD fd none with
      | none => ((err EBADF, k), [])
      | some f =>
        if f.perms &&& permWrite = 0 then ((err EBADF, k), [])
        else
          match writeAt (k.fs.data f.inode) f.offset (k.userBytes buf len) with
          -- the size is checked before the bytes are copied
          | none => ((err EFBIG, k), [])
          | some (data, stop) =>
            ((len, (k.setData f.inode data).setFds p (p.fds.set fd (some { f with offset := stop }))), [⟨false, buf, len⟩])

def sysOpenLogged (k : Kernel) (pathPtr pathLen flags : ℕ) : (ℕ × Kernel) × List Access :=
  match k.currentProcess with
  | none => ((err ESRCH, k), [])
  | some p =>
    match neededPerms flags with
    | none => ((err EINVAL, k), [])
    | some need =>
      if pathLen = 0 then ((err EINVAL, k), [])
      else if maxPath < pathLen then ((err ENAMETOOLONG, k), [])
      else if userRangeOk p pathPtr pathLen = false then ((err EFAULT, k), [])
      else if p.granted (k.userBytes pathPtr pathLen) &&& need ≠ need then ((err EACCES, k), [⟨false, pathPtr, pathLen⟩])
      else
        match k.fs.lookup (k.userBytes pathPtr pathLen) with
        | none => ((err ENOENT, k), [⟨false, pathPtr, pathLen⟩])
        | some inode =>
          match installFd p.fds ⟨need, inode, 0⟩ with
          | none => ((err EMFILE, k), [⟨false, pathPtr, pathLen⟩])
          | some (fd, fds) => ((fd, k.setFds p fds), [⟨false, pathPtr, pathLen⟩])

def sysReadLogged (k : Kernel) (fd buf len : ℕ) : (ℕ × Kernel) × List Access :=
  match k.currentProcess with
  | none => ((err ESRCH, k), [])
  | some p =>
    if p.fds.length ≤ fd then ((err EBADF, k), [])
    else if userRangeOk p buf len = false then ((err EFAULT, k), [])
    else
      match p.fds.getD fd none with
      | none => ((err EBADF, k), [])
      | some f =>
        if f.perms &&& permRead = 0 then ((err EBADF, k), [])
        else
          let bs := readAt (k.fs.data f.inode) f.offset len
          ((bs.length, Kernel.setFds { k with umem := putBytes k.umem buf bs } p
            (p.fds.set fd (some { f with offset := f.offset + bs.length }))), [⟨true, buf, bs.length⟩])

def syscallLogged (k : Kernel) (nr arg1 arg2 arg3 : ℕ) (regs : Context) : Outcome × List Access :=
  if syscallExists nr = false then (.returns (err ENOSYS) k, [])
  else if syscallAllowed k nr = false then (.returns (err EPERM) k, [])
  else if nr = sysWriteNr then (returned (sysWriteLogged k arg1 arg2 arg3).1, (sysWriteLogged k arg1 arg2 arg3).2)
  else if nr = sysReadNr then (returned (sysReadLogged k arg1 arg2 arg3).1, (sysReadLogged k arg1 arg2 arg3).2)
  else if nr = sysOpenNr then (returned (sysOpenLogged k arg1 arg2 arg3).1, (sysOpenLogged k arg1 arg2 arg3).2)
  else if nr = sysCloseNr then (returned (sysClose k arg1), [])
  else if nr = sysExitNr then (.exits (sysExit k), [])
  else if nr = sysYieldNr then (yieldNow k regs, [])
  else (.returns (err ENOSYS) k, [])

section

variable (k : Kernel) (a b c : ℕ) (regs : Context)

theorem sysWriteLogged_erase : (sysWriteLogged k a b c).1 = sysWrite k a b c := by
  unfold sysWriteLogged sysWrite
  cases k.currentProcess with
  | none => rfl
  | some p =>
    dsimp only
    split_ifs
    · rfl
    · rfl
    · rfl
    cases p.fds.getD a none with
    | none => rfl
    | some f =>
      dsimp only
      split_ifs
      · rfl
      cases writeAt (k.fs.data f.inode) f.offset (k.userBytes b c) <;> rfl

theorem sysOpenLogged_erase : (sysOpenLogged k a b c).1 = sysOpen k a b c := by
  unfold sysOpenLogged sysOpen
  cases k.currentProcess with
  | none => rfl
  | some p =>
    cases neededPerms c with
    | none => rfl
    | some need =>
      dsimp only
      split_ifs
      · rfl
      · rfl
      · rfl
      · rfl
      cases k.fs.lookup (k.userBytes a b) with
      | none => rfl
      | some inode =>
        dsimp only
        cases installFd p.fds ⟨need, inode, 0⟩ <;> rfl

theorem sysReadLogged_erase : (sysReadLogged k a b c).1 = sysRead k a b c := by
  unfold sysReadLogged sysRead
  cases k.currentProcess with
  | none => rfl
  | some p =>
    dsimp only
    split_ifs
    · rfl
    · rfl
    cases p.fds.getD a none with
    | none => rfl
    | some f =>
      dsimp only
      split_ifs <;> rfl

end

/-- the branches of `syscall_handler` -/
inductive Branch where
  /-- no such call, or one that the mask of the process does not have -/
  | refused (e : ℕ)
  | write
  | read
  | openFile
  | close
  | exit
  | yieldNow

def branch (k : Kernel) (nr : ℕ) : Branch :=
  if syscallExists nr = false then .refused ENOSYS
  else if syscallAllowed k nr = false then .refused EPERM
  else if nr = sysWriteNr then .write
  else if nr = sysReadNr then .read
  else if nr = sysOpenNr then .openFile
  else if nr = sysCloseNr then .close
  else if nr = sysExitNr then .exit
  else if nr = sysYieldNr then .yieldNow
  else .refused ENOSYS

/-- what a branch does, and its log -/
def Branch.run (k : Kernel) (a b c : ℕ) (regs : Context) : Branch → Outcome
  | .refused e => .returns (err e) k
  | .write => returned (sysWrite k a b c)
  | .read => returned (sysRead k a b c)
  | .openFile => returned (sysOpen k a b c)
  | .close => returned (sysClose k a)
  | .exit => .exits (sysExit k)
  | .yieldNow => Tomorrow.yieldNow k regs

def Branch.log (k : Kernel) (a b c : ℕ) : Branch → List Access
  | .write => (sysWriteLogged k a b c).2
  | .read => (sysReadLogged k a b c).2
  | .openFile => (sysOpenLogged k a b c).2
  | _ => []

section

variable (k : Kernel) (a b c : ℕ) (regs : Context)

theorem syscallHandler_branch (nr : ℕ) : syscallHandler k nr a b c regs = (branch k nr).run k a b c regs := by
  unfold branch
  simp only [apply_ite (Branch.run k a b c regs)]
  rfl

theorem syscallLogged_branch (nr : ℕ) :
    syscallLogged k nr a b c regs = ((branch k nr).run k a b c regs, (branch k nr).log k a b c) := by
  unfold branch syscallLogged
  rw [sysWriteLogged_erase, sysReadLogged_erase, sysOpenLogged_erase]
  simp only [apply_ite (Branch.run k a b c regs), apply_ite (Branch.log k a b c), apply_ite₂ Prod.mk]
  rfl

/-- without the log they are the handlers -/
theorem syscallLogged_erase (nr : ℕ) : (syscallLogged k nr a b c regs).1 = syscallHandler k nr a b c regs := by
  rw [syscallLogged_branch, syscallHandler_branch]

end

/-! ## Every logged range was checked -/

/-- the range lies in one that `user_range_ok` accepted for the current process -/
def Checked (k : Kernel) (c : Access) : Prop :=
  ∃ p len, k.currentProcess = some p ∧ userRangeOk p c.ptr len = true ∧ c.len ≤ len

section

variable {k : Kernel} {a b c : ℕ} {regs : Context}

/-- a single range, behind the check -/
theorem checked_one {p : Process} (hp : k.currentProcess = some p) {w : Bool} {ptr n len : ℕ}
    (hrange : ¬ userRangeOk p ptr len = false) (hn : n ≤ len) : ∀ x ∈ [(⟨w, ptr, n⟩ : Access)], Checked k x := by
  intro x hx
  rw [List.mem_singleton.1 hx]
  exact ⟨p, len, hp, Bool.eq_true_of_not_eq_false hrange, hn⟩

theorem sysWriteLogged_checked : ∀ x ∈ (sysWriteLogged k a b c).2, Checked k x := by
  unfold sysWriteLogged
  cases hp : k.currentProcess with
  | none => simp
  | some p =>
    dsimp only
    split_ifs with hlen hrange hstd
    · simp
    · simp
    · exact checked_one hp hrange (le_refl _)
    cases p.fds.getD a none with
    | none => simp
    | some f =>
      dsimp only
      split_ifs
      · simp
      cases writeAt (k.fs.data f.inode) f.offset (k.userBytes b c) with
      | none => simp
      | some r => exact checked_one hp hrange (le_refl _)

theorem sysOpenLogged_checked : ∀ x ∈ (sysOpenLogged k a b c).2, Checked k x := by
  unfold sysOpenLogged
  cases hp : k.currentProcess with
  | none => simp
  | some p =>
    cases neededPerms c with
    | none => simp
    | some need =>
      dsimp only
      split_ifs with h0 hmax hrange hgrant
      · simp
      · simp
      · simp
      · exact checked_one hp hrange (le_refl _)
      cases k.fs.lookup (k.userBytes a b) with
      | none => exact checked_one hp hrange (le_refl _)
      | some inode =>
        dsimp only
        cases installFd p.fds ⟨need, inode, 0⟩ <;> exact checked_one hp hrange (le_refl _)

theorem sysReadLogged_checked : ∀ x ∈ (sysReadLogged k a b c).2, Checked k x := by
  unfold sysReadLogged
  cases hp : k.currentProcess with
  | none => simp
  | some p =>
    dsimp only
    split_ifs with hlen hrange
    · simp
    · simp
    cases p.fds.getD a none with
    | none => simp
    | some f =>
      dsimp only
      split_ifs
      · simp
      · apply checked_one hp hrange
        rw [readAt_length]
        exact min_le_left _ _

theorem syscallLogged_checked (nr : ℕ) : ∀ x ∈ (syscallLogged k nr a b c regs).2, Checked k x := by
  rw [syscallLogged_branch]
  cases branch k nr with
  | write => exact sysWriteLogged_checked
  | read => exact sysReadLogged_checked
  | openFile => exact sysOpenLogged_checked
  | refused e => exact List.forall_mem_nil _
  | close => exact List.forall_mem_nil _
  | exit => exact List.forall_mem_nil _
  | yieldNow => exact List.forall_mem_nil _

/-- a checked range lies in a region and does not wrap -/
theorem Checked.region {x : Access} (h : Checked k x) {p : Process} (hp : k.currentProcess = some p) :
    ∃ r ∈ p.userRegions, r.1 ≤ x.ptr ∧ x.ptr + x.len ≤ r.2 ∧ x.ptr + x.len < 2 ^ 64 := by
  obtain ⟨q, len, hq, hrange, hlen⟩ := h
  obtain rfl : p = q := Option.some.inj (hp.symm.trans hq)
  unfold userRangeOk checkedAdd at hrange
  by_cases hlt : x.ptr + len < 2 ^ 64
  · rw [if_pos hlt] at hrange
    obtain ⟨r, hr, hin⟩ := List.any_eq_true.1 hrange
    simp only [Bool.and_eq_true, decide_eq_true_eq] at hin
    exact ⟨r, hr, hin.1, by omega, by omega⟩
  · rw [if_neg hlt] at hrange
    cases hrange

end

/-! ## The log is what a call depends on and changes -/

/-- the outcome without user memory -/
def Outcome.forget : Outcome → Outcome
  | .returns r k => .returns r { k with umem := fun _ => 0 }
  | .exits k => .exits { k with umem := fun _ => 0 }
  | .switches k => .switches { k with umem := fun _ => 0 }
  | .panics e => .panics e

/-- m has the bytes that the log says are read -/
def AgreesOnReads (k : Kernel) (m : ℕ → UInt8) (log : List Access) : Prop :=
  ∀ x ∈ log, x.writes = false → ∀ a, x.Covers a → m a = k.umem a

section

variable {k : Kernel} {m : ℕ → UInt8} {a b c : ℕ} {regs : Context}

theorem AgreesOnReads.userBytes {ptr len : ℕ} (h : AgreesOnReads k m [⟨false, ptr, len⟩]) :
    Kernel.userBytes { k with umem := m } ptr len = k.userBytes ptr len := by
  unfold Kernel.userBytes
  apply List.map_congr_left
  intro i hi
  exact h _ List.mem_cons_self rfl _ ⟨Nat.le_add_right _ _, Nat.add_lt_add_left (List.mem_range.1 hi) _⟩

theorem sysWriteLogged_reads (h : AgreesOnReads k m (sysWriteLogged k a b c).2) :
    (returned (sysWrite { k with umem := m } a b c)).forget = (returned (sysWrite k a b c)).forget := by
  have hcur : Kernel.currentProcess { k with umem := m } = k.currentProcess := rfl
  unfold sysWriteLogged at h
  unfold sysWrite
  rw [hcur]
  cases hp : k.currentProcess with
  | none => rfl
  | some p =>
    simp only [hp] at h
    dsimp only
    split_ifs at h ⊢ with hlen hrange hstd
    · rfl
    · rfl
    · rw [h.userBytes]
      rfl
    cases hfd : p.fds.getD a none with
    | none => rfl
    | some f =>
      simp only [hfd] at h
      dsimp only
      split_ifs at h ⊢ with hperm
      · rfl
      cases hw : writeAt (k.fs.data f.inode) f.offset (k.userBytes b c) with
      | none =>
        -- the bytes do not matter: the size alone is refused
        have hnone := writeAt_isSome (k.fs.data f.inode) f.offset (k.userBytes b c)
        have hsame := writeAt_isSome (k.fs.data f.inode) f.offset (Kernel.userBytes { k with umem := m } b c)
        rw [hw] at hnone
        have hlen : (Kernel.userBytes { k with umem := m } b c).length = (k.userBytes b c).length := by
          simp [Kernel.userBytes]
        rw [hlen, ← hnone, Option.isSome_none, Option.isSome_eq_false_iff, Option.isNone_iff_eq_none] at hsame
        rw [hsame]
        rfl
      | some r =>
        simp only [hw] at h
        rw [h.userBytes, hw]
        rfl

theorem sysOpenLogged_reads (h : AgreesOnReads k m (sysOpenLogged k a b c).2) :
    (returned (sysOpen { k with umem := m } a b c)).forget = (returned (sysOpen k a b c)).forget := by
  have hcur : Kernel.currentProcess { k with umem := m } = k.currentProcess := rfl
  unfold sysOpenLogged at h
  unfold sysOpen
  rw [hcur]
  cases hp : k.currentProcess with
  | none => rfl
  | some p =>
    cases hneed : neededPerms c with
    | none => rfl
    | some need =>
      simp only [hp, hneed] at h
      dsimp only
      by_cases h0 : b = 0
      · rw [if_pos h0, if_pos h0]
        rfl
      by_cases hmax : maxPath < b
      · rw [if_neg h0, if_pos hmax, if_neg h0, if_pos hmax]
        rfl
      by_cases hrange : userRangeOk p a b = false
      · rw [if_neg h0, if_neg hmax, if_pos hrange, if_neg h0, if_neg hmax, if_pos hrange]
        rfl
      rw [if_neg h0, if_neg hmax, if_neg hrange] at h
      have hread : AgreesOnReads k m [⟨false, a, b⟩] := by
        split_ifs at h
        · exact h
        cases hl : k.fs.lookup (k.userBytes a b) with
        | none => simp only [hl] at h; exact h
        | some inode =>
          simp only [hl] at h
          cases hi : installFd p.fds ⟨need, inode, 0⟩ with
          | none => simp only [hi] at h; exact h
          | some r => simp only [hi] at h; exact h
      rw [hread.userBytes, if_neg h0, if_neg hmax, if_neg hrange, if_neg h0, if_neg hmax, if_neg hrange]
      split_ifs
      · rfl
      cases k.fs.lookup (k.userBytes a b) with
      | none => rfl
      | some inode =>
        dsimp only
        cases installFd p.fds ⟨need, inode, 0⟩ <;> rfl

theorem sysRead_forget :
    (returned (sysRead { k with umem := m } a b c)).forget = (returned (sysRead k a b c)).forget := by
  have hcur : Kernel.currentProcess { k with umem := m } = k.currentProcess := rfl
  unfold sysRead
  rw [hcur]
  cases k.currentProcess with
  | none => rfl
  | some p =>
    dsimp only
    split_ifs
    · rfl
    · rfl
    cases p.fds.getD a none with
    | none => rfl
    | some f =>
      dsimp only
      split_ifs <;> rfl

theorem sysClose_forget : (returned (sysClose { k with umem := m } a)).forget = (returned (sysClose k a)).forget := by
  have hcur : Kernel.currentProcess { k with umem := m } = k.currentProcess := rfl
  unfold sysClose
  rw [hcur]
  cases k.currentProcess with
  | none => rfl
  | some p =>
    dsimp only
    split_ifs <;> rfl

theorem sysExit_forget : (Outcome.exits (sysExit { k with umem := m })).forget = (Outcome.exits (sysExit k)).forget := by
  have hcur : Kernel.currentProcess { k with umem := m } = k.currentProcess := rfl
  unfold sysExit
  rw [hcur]
  cases k.currentProcess <;> rfl

theorem yieldNow_forget : (yieldNow { k with umem := m } regs).forget = (yieldNow k regs).forget := by
  have hcur : Kernel.currentProcess { k with umem := m } = k.currentProcess := rfl
  unfold yieldNow
  rw [hcur]
  dsimp only
  cases k.sched.nextRunning with
  | none => rfl
  | some i =>
    cases k.currentProcess with
    | none => rfl
    | some p =>
      dsimp only [Kernel.switchTo]
      cases (k.sched.put k.sched.current (some { p with context := switchContext p.context regs })).processes i <;> rfl

/-- a call ends in the same way whatever user memory holds outside the ranges it logs as read -/
theorem syscallLogged_reads {nr : ℕ} (h : AgreesOnReads k m (syscallLogged k nr a b c regs).2) :
    (syscallHandler { k with umem := m } nr a b c regs).forget = (syscallHandler k nr a b c regs).forget := by
  have hsame : branch { k with umem := m } nr = branch k nr := rfl
  rw [syscallLogged_branch] at h
  rw [syscallHandler_branch, syscallHandler_branch, hsame]
  generalize branch k nr = r at h
  cases r with
  | refused e => rfl
  | write => exact sysWriteLogged_reads h
  | read => exact sysRead_forget
  | openFile => exact sysOpenLogged_reads h
  | close => exact sysClose_forget
  | exit => exact sysExit_forget
  | yieldNow => exact yieldNow_forget

/-- only `sys_read` writes user memory -/
theorem syscall_umem {nr : ℕ} {k' : Kernel} (he : (syscallHandler k nr a b c regs).next = .ok k') (hnr : nr ≠ sysReadNr) :
    k'.umem = k.umem := by
  have heff := syscall_effect k a b c regs nr
  generalize syscallHandler k nr a b c regs = o at heff he
  cases heff with
  | error nr e => cases he; rfl
  | stdout p hp hr => cases he; rfl
  | write p f data stop hp hr hfd hperm hw => cases he; rfl
  | opened p need inode fd fds hp => cases he; rfl
  | read p f hp hr hfd hperm => exact absurd rfl hnr
  | closed p f hp hfd => cases he; rfl
  | exited p hp => cases he; rfl
  | stayed => cases he; rfl
  | switched p q i hp hi hq hrun => cases he; rfl

/-- the bytes that a read changes -/
theorem sysRead_confined (k : Kernel) (a b c : ℕ) (regs : Context) :
    ∃ r k', syscallHandler k sysReadNr a b c regs = .returns r k' ∧ ((2 ^ 64 - 4095 ≤ r ∧ k' = k) ∨
      (r ≤ c ∧ ∀ x, ¬ (b ≤ x ∧ x < b + r) → k'.umem x = k.umem x)) := by
  have heff := syscall_effect k a b c regs sysReadNr
  generalize hnr : sysReadNr = nr at heff
  generalize syscallHandler k nr a b c regs = o at heff
  cases heff with
  | error nr e he he' => exact ⟨_, _, rfl, Or.inl ⟨by rw [err_eq he he']; omega, rfl⟩⟩
  | read p f hp hr hfd hperm =>
    refine ⟨_, _, rfl, Or.inr ⟨by rw [readAt_length]; exact min_le_left _ _, fun x hx => ?_⟩⟩
    show putBytes k.umem b (readAt (k.fs.data f.inode) f.offset c) x = k.umem x
    rw [putBytes_eq, if_neg hx]
  | stdout p hp hr => cases hnr
  | write p f data stop hp hr hfd hperm hw => cases hnr
  | opened p need inode fd fds hp => cases hnr
  | closed p f hp hfd => cases hnr
  | exited p hp => cases hnr
  | stayed => cases hnr
  | switched p q i hp hi hq hrun => cases hnr

/-- user memory outside the ranges logged as written is as it was -/
theorem syscallLogged_writes {nr : ℕ} {k' : Kernel} (he : (syscallHandler k nr a b c regs).next = .ok k') {x : ℕ}
    (hx : ∀ acc ∈ (syscallLogged k nr a b c regs).2, acc.writes = true → ¬ acc.Covers x) : k'.umem x = k.umem x := by
  by_cases hnr : nr = sysReadNr
  · subst hnr
    rw [syscallHandler_read] at he
    have hbranch : branch k sysReadNr = if syscallAllowed k sysReadNr = false then .refused EPERM else .read := rfl
    rw [syscallLogged_branch, hbranch] at hx
    split_ifs at he hx
    · cases he
      rfl
    · simp only [Branch.log, sysReadLogged] at hx
      unfold sysRead at he
      cases hp : k.currentProcess with
      | none => simp only [hp] at he; cases he; rfl
      | some p =>
        simp only [hp] at he hx
        split_ifs at he hx
        · cases he; rfl
        · cases he; rfl
        cases hfd : p.fds.getD a none with
        | none => simp only [hfd] at he; cases he; rfl
        | some f =>
          simp only [hfd] at he hx
          split_ifs at he hx
          · cases he; rfl
          · cases he
            have hout : ¬ (b ≤ x ∧ x < b + (readAt (k.fs.data f.inode) f.offset c).length) :=
              hx _ List.mem_cons_self rfl
            show putBytes k.umem b (readAt (k.fs.data f.inode) f.offset c) x = k.umem x
            rw [putBytes_eq, if_neg hout]
  · exact congrFun (syscall_umem he hnr) x

end

/-! ## The regions of processes -/

theorem LifeStep.regions {b : Boot} {k k' : Kernel} {o : Op} (hl : LifeStep b k o k')
    (h : AllProcesses HasRegions k.sched) : AllProcesses HasRegions k'.sched := by
  intro j q hq
  have hkeep : ∀ {p : Process}, k.sched.processes j = some p → SameLayout p q → HasRegions q := by
    intro p hp hid
    unfold HasRegions
    rw [hid.regions, hid.pid]
    exact h j p hp
  cases hl.slot j q hq with
  | same p hp hid hs => exact hkeep hp hid
  | died p hp hid hs hl => exact hkeep hp hid
  | new prog ph hnew => exact processNew_regions hnew

theorem reachable_regions {b : Boot} {k : Kernel} (h : Reachable b k) : AllProcesses HasRegions k.sched := by
  obtain ⟨k₀, k₁, ops, hs, hb, hr⟩ := h
  have h₁ : AllProcesses HasRegions k₁.sched := by
    obtain ⟨p₁, ph₁, p₂, ph₂, s₁, s₂, p, screen, hnew₁, hnew₂, hadd₁, hadd₂, -, rfl⟩ := boot_cases hb
    have h₀ : AllProcesses HasRegions k₀.sched := by
      intro i p hp
      rw [hs.sched] at hp
      cases hp
    exact addProcess_fresh (addProcess_fresh h₀ (processNew_regions hnew₁) hadd₁) (processNew_regions hnew₂) hadd₂
  exact run_invariant (I := fun k => AllProcesses HasRegions k.sched) (fun _ _ _ hI he => (step_life he).regions hI) h₁ hr

/-! ## Confinement -/

end Tomorrow
