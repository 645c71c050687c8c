/-
System calls (`syscall.rs`).

`syscallHandler` is the C entry point: an unknown number, a number outside the caller's mask, then one of six handlers.
Every handler works on the process in the current slot. A call returns a value with the state after it, or it is `exit`,
which halts until the timer switches away, or `yield`, which continues in another process.

`Effect` lists everything a call can do, one constructor for each way a handler ends well and one for all its error
exits; `syscall_effect` says that the handler does one of these. The properties of later modules are derived from it.
-/
import Tomorrow.Kernel.State

namespace Tomorrow

open Tomorrow.Core Files Sched Shell Vmm

/-! ## Model -/

/-- how a call ends -/
inductive Outcome where
  | returns (r : ℕ) (k : Kernel)
  | exits (k : Kernel)
  | switches (k : Kernel)
  | panics (e : Panic)

def EPERM : ℕ := 1

def ENOENT : ℕ := 2

def ESRCH : ℕ := 3

def EBADF : ℕ := 9

def EACCES : ℕ := 13

def EFAULT : ℕ := 14

def EINVAL : ℕ := 22

def EMFILE : ℕ := 24

def EFBIG : ℕ := 27

def ENAMETOOLONG : ℕ := 36

def ENOSYS : ℕ := 38

/-- `(-(e as i64)) as u64` -/
def err (e : ℕ) : ℕ := (2 ^ 64 - e) % 2 ^ 64

def maxFds : ℕ := 16

def firstFileFd : ℕ := 3

def userRangeOk (p : Process) (ptr len : ℕ) : Bool :=
  match checkedAdd ptr len with
  | none => false
  | some ptrEnd => p.userRegions.any fun r => decide (r.1 ≤ ptr) && decide (ptrEnd ≤ r.2)

/-- `slice::from_raw_parts(ptr, len)` -/
def Kernel.userBytes (k : Kernel) (ptr len : ℕ) : Bytes := (List.range len).map fun i => k.umem (ptr + i)

/-- user memory with the bytes stored from ptr on -/
def putBytes (m : ℕ → UInt8) (ptr : ℕ) (bs : Bytes) : ℕ → UInt8 :=
  fun a => if ptr ≤ a then bs.getD (a - ptr) (m a) else m a

/-- the current process with another descriptor table -/
def Kernel.setFds (k : Kernel) (p : Process) (fds : List (Option OpenFile)) : Kernel :=
  { k with sched := k.sched.put k.sched.current (some { p with fds := fds }) }

/-- the bytes of an inode replaced -/
def Kernel.setData (k : Kernel) (inode : ℕ) (data : Bytes) : Kernel :=
  { k with fs := { k.fs with data := Function.update k.fs.data inode data } }

def sysWrite (k : Kernel) (fd buf len : ℕ) : ℕ × Kernel :=
  match k.currentProcess with
  | none => (err ESRCH, k)
  | some p =>
    if p.fds.length ≤ fd then (err EBADF, k)
    else if userRangeOk p buf len = false then (err EFAULT, k)
    else if fd = 1 ∨ fd = 2 then (len, { k with screen := k.screen.programOutput (k.userBytes buf len) })
    else
      match p.fds.getD fd none with
      | none => (err EBADF, k)
      | some f =>
        if f.perms &&& permWrite = 0 then (err EBADF, k)
        else
          match writeAt (k.fs.data f.inode) f.offset (k.userBytes buf len) with
          | none => (err EFBIG, k)
          | some (data, stop) => (len, (k.setData f.inode data).setFds p (p.fds.set fd (some { f with offset := stop })))

/-- the rights an open mode needs; none for unsupported flags -/
def neededPerms (flags : ℕ) : Option UInt8 :=
  if andNot flags 3 ≠ 0 then none
  else if flags &&& 3 = 0 then some permRead
  else if flags &&& 3 = 1 then some permWrite
  else if flags &&& 3 = 2 then some (permRead ||| permWrite)
  else none

/-- the rights of the first grant for a name -/
def Sched.Process.granted (p : Process) (name : Bytes) : UInt8 :=
  ((p.grants.find? fun g => g.name = name).map Grant.perms).getD 0

/-- the first empty slot from 3 on -/
def freeFd (fds : List (Option OpenFile)) : Option ℕ :=
  (List.range' firstFileFd (fds.length - firstFileFd)).find? fun i => (fds.getD i none).isNone

/-- put a file into the first empty slot, or at the end of a table that may still grow -/
def installFd (fds : List (Option OpenFile)) (f : OpenFile) : Option (ℕ × List (Option OpenFile)) :=
  match freeFd fds with
  | some fd => some (fd, fds.set fd (some f))
  | none => if maxFds ≤ fds.length then none else some (fds.length, fds ++ [some f])

def sysOpen (k : Kernel) (pathPtr pathLen flags : ℕ) : ℕ × Kernel :=
  match k.currentProcess with
  | none => (err ESRCH, k)
  | some p =>
    match neededPerms flags with
    | none => (err EINVAL, k)
    | some need =>
      if pathLen = 0 then (err EINVAL, k)
      else if maxPath < pathLen then (err ENAMETOOLONG, k)
      else if userRangeOk p pathPtr pathLen = false then (err EFAULT, k)
      -- the grant is checked before the lookup
      else if p.granted (k.userBytes pathPtr pathLen) &&& need ≠ need then (err EACCES, k)
      else
        match k.fs.lookup (k.userBytes pathPtr pathLen) with
        | none => (err ENOENT, k)
        | some inode =>
          match installFd p.fds ⟨need, inode, 0⟩ with
          | none => (err EMFILE, k)
          | some (fd, fds) => (fd, k.setFds p fds)

def sysRead (k : Kernel) (fd buf len : ℕ) : ℕ × Kernel :=
  match k.currentProcess with
  | none => (err ESRCH, k)
  | some p =>
    if p.fds.length ≤ fd then (err EBADF, k)
    else if userRangeOk p buf len = false then (err EFAULT, k)
    else
      match p.fds.getD fd none with
      | none => (err EBADF, k)
      | some f =>
        if f.perms &&& permRead = 0 then (err EBADF, k)
        else
          let bs := readAt (k.fs.data f.inode) f.offset len
          (bs.length, Kernel.setFds { k with umem := putBytes k.umem buf bs } p
            (p.fds.set fd (some { f with offset := f.offset + bs.length })))

def sysClose (k : Kernel) (fd : ℕ) : ℕ × Kernel :=
  match k.currentProcess with
  | none => (err ESRCH, k)
  | some p =>
    if p.fds.length ≤ fd then (err EBADF, k)
    else if (p.fds.getD fd none).isNone then (err EBADF, k)
    else (0, k.setFds p (p.fds.set fd none))

/-- `sys_exit`: the process is dead; it halts with interrupts on -/
def sysExit (k : Kernel) : Kernel :=
  match k.currentProcess with
  | some p => { k with sched := k.sched.put k.sched.current (some { p with state := .dead }) }
  | none => k

/-- the old context as `context_switch` saves it: the registers of the caller; cs, ss, cr3 and kernel_stack stay -/
def switchContext (c regs : Context) : Context :=
  { regs with cs := c.cs, ss := c.ss, cr3 := c.cr3, kernelStack := c.kernelStack }

/-- `yield_now` with regs the registers at the call of `context_switch` -/
def yieldNow (k : Kernel) (regs : Context) : Outcome :=
  match k.sched.nextRunning with
  | none => .returns 0 k
  | some i =>
    match k.currentProcess with
    | none => .panics (.expect "called `Option::unwrap()` on a `None` value")
    | some p =>
      let sched := k.sched.put k.sched.current (some { p with context := switchContext p.context regs })
      match Kernel.switchTo { k with sched := sched } i with
      | .ok r => .switches r.1
      | .error e => .panics e

def syscallExists (nr : ℕ) : Bool :=
  decide (nr = sysReadNr ∨ nr = sysWriteNr ∨ nr = sysOpenNr ∨ nr = sysCloseNr ∨ nr = sysExitNr ∨ nr = sysYieldNr)

def syscallAllowed (k : Kernel) (nr : ℕ) : Bool :=
  match k.currentProcess with
  | some p => decide (nr < 64) && decide ((p.syscallMask >>> nr) &&& 1 ≠ 0)
  | none => false

def returned (r : ℕ × Kernel) : Outcome := .returns r.1 r.2

/-- `syscall_handler`; arguments 4 and 5 are not used -/
def syscallHandler (k : Kernel) (nr arg1 arg2 arg3 : ℕ) (regs : Context) : Outcome :=
  if syscallExists nr = false then .returns (err ENOSYS) k
  else if syscallAllowed k nr = false then .returns (err EPERM) k
  else if nr = sysWriteNr then returned (sysWrite k arg1 arg2 arg3)
  else if nr = sysReadNr then returned (sysRead k arg1 arg2 arg3)
  else if nr = sysOpenNr then returned (sysOpen k arg1 arg2 arg3)
  else if nr = sysCloseNr then returned (sysClose k arg1)
  else if nr = sysExitNr then .exits (sysExit k)
  else if nr = sysYieldNr then yieldNow k regs
  else .returns (err ENOSYS) k

section

variable (k : Kernel) (a b c : ℕ) (regs : Context)

theorem syscallHandler_read : syscallHandler k sysReadNr a b c regs =
    if syscallAllowed k sysReadNr = false then .returns (err EPERM) k else returned (sysRead k a b c) := rfl

theorem syscallHandler_write : syscallHandler k sysWriteNr a b c regs =
    if syscallAllowed k sysWriteNr = false then .returns (err EPERM) k else returned (sysWrite k a b c) := rfl

theorem syscallHandler_open : syscallHandler k sysOpenNr a b c regs =
    if syscallAllowed k sysOpenNr = false then .returns (err EPERM) k else returned (sysOpen k a b c) := rfl

theorem syscallHandler_close : syscallHandler k sysCloseNr a b c regs =
    if syscallAllowed k sysCloseNr = false then .returns (err EPERM) k else returned (sysClose k a) := rfl

end

/-! ## What a call can do -/

/-- the ways a call with these arguments can end, by its number -/
inductive Effect (k : Kernel) (arg1 arg2 arg3 : ℕ) (regs : Context) : ℕ → Outcome → Prop where
  /-- every error exit leaves the state as it was -/
  | error (nr e : ℕ) (he : 1 ≤ e) (he' : e ≤ 38) : Effect k arg1 arg2 arg3 regs nr (.returns (err e) k)
  | stdout (p : Process) (hp : k.currentProcess = some p) (hrange : userRangeOk p arg2 arg3 = true) :
      Effect k arg1 arg2 arg3 regs sysWriteNr
        (.returns arg3 { k with screen := k.screen.programOutput (k.userBytes arg2 arg3) })
  | write (p : Process) (f : OpenFile) (data : Bytes) (stop : ℕ) (hp : k.currentProcess = some p)
      (hrange : userRangeOk p arg2 arg3 = true) (hfd : p.fds[arg1]? = some (some f)) (hperm : f.perms &&& permWrite ≠ 0)
      (hw : writeAt (k.fs.data f.inode) f.offset (k.userBytes arg2 arg3) = some (data, stop)) :
      Effect k arg1 arg2 arg3 regs sysWriteNr
        (.returns arg3 ((k.setData f.inode data).setFds p (p.fds.set arg1 (some { f with offset := stop }))))
  | opened (p : Process) (need : UInt8) (inode fd : ℕ) (fds : List (Option OpenFile)) (hp : k.currentProcess = some p)
      (hneed : neededPerms arg3 = some need) (hrange : userRangeOk p arg1 arg2 = true)
      (hgrant : p.granted (k.userBytes arg1 arg2) &&& need = need)
      (hlookup : k.fs.lookup (k.userBytes arg1 arg2) = some inode)
      (hinst : installFd p.fds ⟨need, inode, 0⟩ = some (fd, fds)) :
      Effect k arg1 arg2 arg3 regs sysOpenNr (.returns fd (k.setFds p fds))
  | read (p : Process) (f : OpenFile) (hp : k.currentProcess = some p) (hrange : userRangeOk p arg2 arg3 = true)
      (hfd : p.fds[arg1]? = some (some f)) (hperm : f.perms &&& permRead ≠ 0) :
      Effect k arg1 arg2 arg3 regs sysReadNr
        (.returns (readAt (k.fs.data f.inode) f.offset arg3).length
          (Kernel.setFds { k with umem := putBytes k.umem arg2 (readAt (k.fs.data f.inode) f.offset arg3) } p
            (p.fds.set arg1 (some { f with offset := f.offset + (readAt (k.fs.data f.inode) f.offset arg3).length }))))
  | closed (p : Process) (f : OpenFile) (hp : k.currentProcess = some p) (hfd : p.fds[arg1]? = some (some f)) :
      Effect k arg1 arg2 arg3 regs sysCloseNr (.returns 0 (k.setFds p (p.fds.set arg1 none)))
  | exited (p : Process) (hp : k.currentProcess = some p) :
      Effect k arg1 arg2 arg3 regs sysExitNr
        (.exits { k with sched := k.sched.put k.sched.current (some { p with state := .dead }) })
  | stayed : Effect k arg1 arg2 arg3 regs sysYieldNr (.returns 0 k)
  | switched (p q : Process) (i : Fin 64) (hp : k.currentProcess = some p) (hi : i ≠ k.sched.current)
      (hq : k.sched.processes i = some q) (hrun : q.state = .running) :
      Effect k arg1 arg2 arg3 regs sysYieldNr (.switches { k with
        sched := { k.sched.put k.sched.current (some { p with context := switchContext p.context regs }) with
          current := i },
        rsp0 := q.kernelStack })

section

variable (k : Kernel) (a b c : ℕ) (regs : Context)

theorem getD_eq_some {α : Type} {l : List (Option α)} {i : ℕ} {x : α} (h : l.getD i none = some x) :
    l[i]? = some (some x) := by
  rw [List.getD_eq_getElem?_getD] at h
  cases hl : l[i]? with
  | none => rw [hl] at h; cases h
  | some o => rw [hl] at h; exact congrArg some h

theorem sysWrite_effect : Effect k a b c regs sysWriteNr (returned (sysWrite k a b c)) := by
  unfold sysWrite
  cases hp : k.currentProcess with
  | none => exact .error _ ESRCH (by decide) (by decide)
  | some p =>
    dsimp only
    split_ifs with hlen hr hstd
    · exact .error _ EBADF (by decide) (by decide)
    · exact .error _ EFAULT (by decide) (by decide)
    · exact .stdout p hp (Bool.eq_true_of_not_eq_false hr)
    cases hfd : p.fds.getD a none with
    | none => exact .error _ EBADF (by decide) (by decide)
    | some f =>
      dsimp only
      split_ifs with hperm
      · exact .error _ EBADF (by decide) (by decide)
      cases hw : writeAt (k.fs.data f.inode) f.offset (k.userBytes b c) with
      | none => exact .error _ EFBIG (by decide) (by decide)
      | some r => exact .write p f r.1 r.2 hp (Bool.eq_true_of_not_eq_false hr) (getD_eq_some hfd) hperm hw

theorem sysRead_effect : Effect k a b c regs sysReadNr (returned (sysRead k a b c)) := by
  unfold sysRead
  cases hp : k.currentProcess with
  | none => exact .error _ ESRCH (by decide) (by decide)
  | some p =>
    dsimp only
    split_ifs with hlen hr
    · exact .error _ EBADF (by decide) (by decide)
    · exact .error _ EFAULT (by decide) (by decide)
    cases hfd : p.fds.getD a none with
    | none => exact .error _ EBADF (by decide) (by decide)
    | some f =>
      dsimp only
      split_ifs with hperm
      · exact .error _ EBADF (by decide) (by decide)
      · exact .read p f hp (Bool.eq_true_of_not_eq_false hr) (getD_eq_some hfd) hperm

theorem sysOpen_effect : Effect k a b c regs sysOpenNr (returned (sysOpen k a b c)) := by
  unfold sysOpen
  cases hp : k.currentProcess with
  | none => exact .error _ ESRCH (by decide) (by decide)
  | some p =>
    cases hneed : neededPerms c with
    | none => exact .error _ EINVAL (by decide) (by decide)
    | some need =>
      dsimp only
      split_ifs with h0 hmax hr hg
      · exact .error _ EINVAL (by decide) (by decide)
      · exact .error _ ENAMETOOLONG (by decide) (by decide)
      · exact .error _ EFAULT (by decide) (by decide)
      · exact .error _ EACCES (by decide) (by decide)
      cases hl : k.fs.lookup (k.userBytes a b) with
      | none => exact .error _ ENOENT (by decide) (by decide)
      | some inode =>
        dsimp only
        cases hi : installFd p.fds ⟨need, inode, 0⟩ with
        | none => exact .error _ EMFILE (by decide) (by decide)
        | some r =>
          exact .opened p need inode r.1 r.2 hp hneed (Bool.eq_true_of_not_eq_false hr) (not_not.1 hg) hl hi

theorem sysClose_effect : Effect k a b c regs sysCloseNr (returned (sysClose k a)) := by
  unfold sysClose
  cases hp : k.currentProcess with
  | none => exact .error _ ESRCH (by decide) (by decide)
  | some p =>
    dsimp only
    split_ifs with hlen hnone
    · exact .error _ EBADF (by decide) (by decide)
    · exact .error _ EBADF (by decide) (by decide)
    · obtain ⟨f, hf⟩ := Option.ne_none_iff_exists'.1 (by simpa using hnone)
      exact .closed p f hp (getD_eq_some hf)

theorem yieldNow_effect {p : Process} (hp : k.currentProcess = some p) :
    Effect k a b c regs sysYieldNr (yieldNow k regs) := by
  unfold yieldNow
  cases hn : k.sched.nextRunning with
  | none => exact .stayed
  | some i =>
    obtain ⟨q, hq, hrun⟩ := Scheduler.nextRunning_spec hn
    have hi := Scheduler.nextRunning_ne_current hn
    simp only [hp, Kernel.switchTo, Scheduler.put_of_ne _ _ hi, hq]
    exact .switched p q i hp hi hq hrun

/-- only a process has a mask -/
theorem process_of_allowed {nr : ℕ} (hal : ¬ syscallAllowed k nr = false) : ∃ p, k.currentProcess = some p := by
  cases hp : k.currentProcess with
  | none => simp [syscallAllowed, hp] at hal
  | some p => exact ⟨p, rfl⟩

/-- **Inversion.** The handler does one of the things `Effect` lists. -/
theorem syscall_effect (nr : ℕ) : Effect k a b c regs nr (syscallHandler k nr a b c regs) := by
  unfold syscallHandler
  split_ifs with hex hal h1 h2 h3 h4 h5 h6
  · exact .error nr ENOSYS (by decide) (by decide)
  · exact .error nr EPERM (by decide) (by decide)
  · subst h1; exact sysWrite_effect k a b c regs
  · subst h2; exact sysRead_effect k a b c regs
  · subst h3; exact sysOpen_effect k a b c regs
  · subst h4; exact sysClose_effect k a b c regs
  · subst h5
    obtain ⟨p, hp⟩ := process_of_allowed k hal
    unfold sysExit
    rw [hp]
    exact .exited p hp
  · subst h6
    obtain ⟨p, hp⟩ := process_of_allowed k hal
    exact yieldNow_effect k a b c regs hp
  · exact .error nr ENOSYS (by decide) (by decide)

end

end Tomorrow
