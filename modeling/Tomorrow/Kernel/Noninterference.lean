/-
Noninterference of files without a grant: two runs of one process over two file systems.

The two file systems agree on what the grants of the process let it see: for a name with a nonzero grant whether it
exists, and for a name with `PERM_READ` its bytes (`Agree`). `Sim` relates the states of the two runs: the same memory,
file systems that still agree, and descriptor tables that are alike: both empty, or open with the same rights and offset
under one name with these rights granted. Each of the four calls keeps `Sim` and returns the same value (`sysOpen_same`,
`sysRead_same`, `sysWrite_same`, `sysClose_same`); `noninterference` is the result for all sequences of calls.
-/
import Tomorrow.Kernel.Grants

namespace Tomorrow

open Tomorrow.Core Files Sched Shell Vmm

/-! ## Two file systems and two descriptor tables -/

/-- two file systems that differ only in what p has no right to see -/
structure Agree (p : Process) (fs fs' : Ramfs) : Prop where
  existence : ∀ name, p.granted name ≠ 0 → (fs.lookup name).isSome = (fs'.lookup name).isSome
  contents : ∀ name i j, p.granted name &&& permRead ≠ 0 → fs.lookup name = some i → fs'.lookup name = some j →
    fs.data i = fs'.data j

/-- one inode per entry -/
def Files.Ramfs.Distinct (fs : Ramfs) : Prop := (fs.root.map DirEntry.inode).Nodup

instance (fs : Ramfs) : Decidable fs.Distinct := inferInstanceAs (Decidable (List.Nodup _))

theorem Files.Ramfs.Distinct.name_eq {fs : Ramfs} (h : fs.Distinct) {m n : Bytes} {i : ℕ} (hm : fs.lookup m = some i)
    (hn : fs.lookup n = some i) : m = n := by
  have he := List.inj_on_of_nodup_map h (Ramfs.lookup_mem hm) (Ramfs.lookup_mem hn) rfl
  exact congrArg DirEntry.name he

inductive FdAlike (p : Process) (fs fs' : Ramfs) : Option OpenFile → Option OpenFile → Prop where
  | closed : FdAlike p fs fs' none none
  | opened (f g : OpenFile) (name : Bytes) (hperms : g.perms = f.perms) (hoff : g.offset = f.offset)
      (hgrant : p.Granted name f.perms) (hl : fs.lookup name = some f.inode) (hl' : fs'.lookup name = some g.inode) :
      FdAlike p fs fs' (some f) (some g)

structure FdsAlike (p : Process) (fs fs' : Ramfs) (l l' : List (Option OpenFile)) : Prop where
  length : l'.length = l.length
  alike : ∀ i, FdAlike p fs fs' (l.getD i none) (l'.getD i none)

theorem getD_set {l : List (Option OpenFile)} {i j : ℕ} {x : Option OpenFile} :
    (l.set i x).getD j none = if i = j ∧ i < l.length then x else l.getD j none := by
  rw [List.getD_eq_getElem?_getD, List.getElem?_set, List.getD_eq_getElem?_getD]
  by_cases hij : i = j
  · subst hij
    by_cases hlt : i < l.length
    · simp [hlt]
    · simp [hlt]
  · simp [hij]

theorem getD_snoc {l : List (Option OpenFile)} {j : ℕ} {x : Option OpenFile} :
    (l ++ [x]).getD j none = if j = l.length then x else l.getD j none := by
  rcases Nat.lt_trichotomy j l.length with h | h | h
  · rw [if_neg h.ne, List.getD_append _ _ _ _ h]
  · subst h; simp
  · rw [if_neg h.ne', List.getD_eq_default _ _ (by simp; omega), List.getD_eq_default _ _ h.le]

section

variable {p : Process} {fs fs' : Ramfs} {l l' : List (Option OpenFile)}

theorem FdsAlike.set (h : FdsAlike p fs fs' l l') (i : ℕ) {x y : Option OpenFile} (hxy : FdAlike p fs fs' x y) :
    FdsAlike p fs fs' (l.set i x) (l'.set i y) := by
  refine ⟨by simp [h.length], fun j => ?_⟩
  rw [getD_set, getD_set, h.length]
  split_ifs
  · exact hxy
  · exact h.alike j

theorem FdsAlike.snoc (h : FdsAlike p fs fs' l l') {x y : Option OpenFile} (hxy : FdAlike p fs fs' x y) :
    FdsAlike p fs fs' (l ++ [x]) (l' ++ [y]) := by
  refine ⟨by simp [h.length], fun j => ?_⟩
  rw [getD_snoc, getD_snoc, h.length]
  split_ifs
  · exact hxy
  · exact h.alike j

/-- descriptors are compared by names, so only the directories matter -/
theorem FdsAlike.of_root {gs gs' : Ramfs} (h : FdsAlike p fs fs' l l') (e : gs.root = fs.root) (e' : gs'.root = fs'.root) :
    FdsAlike p gs gs' l l' := by
  refine ⟨h.length, fun i => ?_⟩
  have hi := h.alike i
  generalize l.getD i none = x at hi ⊢
  generalize l'.getD i none = y at hi ⊢
  cases hi with
  | closed => exact .closed
  | opened f g name hperms hoff hgrant hl hl' =>
    refine .opened f g name hperms hoff hgrant ?_ ?_
    · rw [Ramfs.lookup, e]; exact hl
    · rw [Ramfs.lookup, e']; exact hl'

theorem FdAlike.isNone {x y : Option OpenFile} (h : FdAlike p fs fs' x y) : y.isNone = x.isNone := by cases h <;> rfl

/-- which descriptor is free depends on which are open -/
theorem FdsAlike.freeFd (h : FdsAlike p fs fs' l l') : freeFd l' = freeFd l := by
  unfold Tomorrow.freeFd
  rw [h.length]
  congr 1
  funext i
  exact (h.alike i).isNone

theorem FdsAlike.install (h : FdsAlike p fs fs' l l') {f g : OpenFile} (hfg : FdAlike p fs fs' (some f) (some g)) :
    (installFd l f = none ∧ installFd l' g = none) ∨
      ∃ fd m m', installFd l f = some (fd, m) ∧ installFd l' g = some (fd, m') ∧ FdsAlike p fs fs' m m' := by
  unfold installFd
  rw [h.freeFd, h.length]
  cases Tomorrow.freeFd l with
  | some i => exact Or.inr ⟨i, _, _, rfl, rfl, h.set i hfg⟩
  | none =>
    dsimp only
    split_ifs
    · exact Or.inl ⟨rfl, rfl⟩
    · exact Or.inr ⟨l.length, _, _, rfl, rfl, h.snoc hfg⟩

end

/-! ## The simulation -/

/-- two states in which p, up to its descriptors, is the current process and sees the same -/
structure SimFds (p : Process) (l l' : List (Option OpenFile)) (k k' : Kernel) : Prop where
  left : k.currentProcess = some { p with fds := l }
  right : k'.currentProcess = some { p with fds := l' }
  umem : k'.umem = k.umem
  agree : Agree p k.fs k'.fs
  distinct : k.fs.Distinct
  distinct' : k'.fs.Distinct
  fds : FdsAlike p k.fs k'.fs l l'

def Sim (p : Process) (k k' : Kernel) : Prop := ∃ l l', SimFds p l l' k k'

/-- the two runs give the same answer and stay related -/
def Same (p : Process) (x y : ℕ × Kernel) : Prop := y.1 = x.1 ∧ Sim p x.2 y.2

section

variable {p : Process} {l l' : List (Option OpenFile)} {k k' : Kernel}

theorem SimFds.userBytes (h : SimFds p l l' k k') (ptr len : ℕ) : k'.userBytes ptr len = k.userBytes ptr len := by
  unfold Kernel.userBytes
  rw [h.umem]

/-- an answer without a change of state -/
theorem SimFds.same (h : SimFds p l l' k k') (r : ℕ) : Same p (r, k) (r, k') := ⟨rfl, l, l', h⟩

/-- a check that both runs fail or both pass -/
theorem SimFds.guard (h : SimFds p l l' k k') {c : Prop} [Decidable c] (r : ℕ) {x x' : ℕ × Kernel}
    (hx : ¬ c → Same p x x') : Same p (if c then (r, k) else x) (if c then (r, k') else x') := by
  split_ifs with hc
  · exact h.same r
  · exact hx hc

/-- the two checks that `sys_read` and `sys_write` begin with -/
theorem SimFds.checked (h : SimFds p l l' k k') (fd buf len : ℕ) {r r' : ℕ} {x x' : ℕ × Kernel} (hx : Same p x x') :
    Same p (if l.length ≤ fd then (r, k) else if userRangeOk p buf len = false then (r', k) else x)
      (if l'.length ≤ fd then (r, k') else if userRangeOk p buf len = false then (r', k') else x') := by
  rw [h.fds.length]
  exact h.guard r fun _ => h.guard r' fun _ => hx

/-- both descriptor tables replaced by tables that are alike -/
theorem SimFds.setFds (h : SimFds p l l' k k') {m m' : List (Option OpenFile)} (hm : FdsAlike p k.fs k'.fs m m') :
    SimFds p m m' (k.setFds { p with fds := l } m) (k'.setFds { p with fds := l' } m') where
  left := Scheduler.put_self _ _ _
  right := Scheduler.put_self _ _ _
  umem := h.umem
  agree := h.agree
  distinct := h.distinct
  distinct' := h.distinct'
  fds := hm

theorem granted_ne_zero {name : Bytes} {need : UInt8} (h0 : need ≠ 0) (h : p.granted name &&& need = need) :
    p.granted name ≠ 0 := by
  intro hz
  rw [hz, UInt8.zero_and] at h
  exact h0 h.symm

theorem sysOpen_same (h : SimFds p l l' k k') (ptr len flags : ℕ) :
    Same p (sysOpen k ptr len flags) (sysOpen k' ptr len flags) := by
  unfold sysOpen
  rw [h.left, h.right, h.userBytes]
  dsimp only
  cases hneed : neededPerms flags with
  | none => exact h.same _
  | some need =>
    dsimp only
    change Same p
      (if len = 0 then _ else if maxPath < len then _ else if userRangeOk p ptr len = false then _
        else if p.granted (k.userBytes ptr len) &&& need ≠ need then _ else _)
      (if len = 0 then _ else if maxPath < len then _ else if userRangeOk p ptr len = false then _
        else if p.granted (k.userBytes ptr len) &&& need ≠ need then _ else _)
    refine h.guard _ fun _ => h.guard _ fun _ => h.guard _ fun _ => h.guard _ fun hg => ?_
    -- only now the directory is looked at, and the two agree on granted names
    have hnz := neededPerms_ne_zero hneed
    have hex := h.agree.existence (k.userBytes ptr len) (granted_ne_zero hnz (not_not.1 hg))
    cases hl : k.fs.lookup (k.userBytes ptr len) with
    | none =>
      rw [hl] at hex
      rw [Option.isSome_eq_false_iff.1 hex.symm |> Option.isNone_iff_eq_none.1]
      exact h.same _
    | some i =>
      rw [hl] at hex
      obtain ⟨j, hl'⟩ := Option.isSome_iff_exists.1 hex.symm
      rw [hl']
      have halike : FdAlike p k.fs k'.fs (some ⟨need, i, 0⟩) (some ⟨need, j, 0⟩) :=
        .opened _ _ _ rfl rfl ((granted_iff hnz).1 (not_not.1 hg)) hl hl'
      rcases h.fds.install halike with ⟨h1, h2⟩ | ⟨fd, m, m', h1, h2, hm⟩
      · dsimp only
        rw [h1, h2]
        exact h.same _
      · dsimp only
        rw [h1, h2]
        exact ⟨rfl, m, m', h.setFds hm⟩

theorem sysClose_same (h : SimFds p l l' k k') (fd : ℕ) : Same p (sysClose k fd) (sysClose k' fd) := by
  unfold sysClose
  rw [h.left, h.right]
  dsimp only
  rw [h.fds.length, (h.fds.alike fd).isNone]
  split_ifs
  · exact h.same _
  · exact h.same _
  · exact ⟨rfl, _, _, h.setFds (h.fds.set fd .closed)⟩

/-- a file open for reading has the same bytes in both -/
theorem SimFds.data_eq (h : SimFds p l l' k k') {f g : OpenFile} {name : Bytes} (hgrant : p.Granted name f.perms)
    (hl : k.fs.lookup name = some f.inode) (hl' : k'.fs.lookup name = some g.inode) (hread : f.perms &&& permRead ≠ 0) :
    k.fs.data f.inode = k'.fs.data g.inode := by
  have hr := (granted_iff (by decide)).2 (hgrant.bit (permRead_of_ne_zero hread))
  exact h.agree.contents name _ _ (by rw [hr]; decide) hl hl'

theorem sysRead_same (h : SimFds p l l' k k') (fd buf len : ℕ) : Same p (sysRead k fd buf len) (sysRead k' fd buf len) := by
  unfold sysRead
  rw [h.left, h.right]
  refine h.checked fd buf len ?_
  have halike := h.fds.alike fd
  generalize l.getD fd none = x at halike
  generalize l'.getD fd none = y at halike
  cases halike with
  | closed => exact h.same _
  | opened f g name hperms hoff hgrant hl hl' =>
    dsimp only
    rw [hperms]
    refine h.guard _ fun hread => ?_
    rw [hoff, ← h.data_eq hgrant hl hl' hread]
    have hmem : SimFds p l l' { k with umem := putBytes k.umem buf (readAt (k.fs.data f.inode) f.offset len) }
        { k' with umem := putBytes k'.umem buf (readAt (k.fs.data f.inode) f.offset len) } :=
      ⟨h.left, h.right, by rw [h.umem], h.agree, h.distinct, h.distinct', h.fds⟩
    exact ⟨rfl, _, _, hmem.setFds (h.fds.set fd (.opened _ _ name rfl rfl hgrant hl hl'))⟩

/-- a write through files opened by one name keeps what p may see: another name has another inode -/
theorem SimFds.setData (h : SimFds p l l' k k') {f g : OpenFile} {name d d' : Bytes}
    (hl : k.fs.lookup name = some f.inode) (hl' : k'.fs.lookup name = some g.inode)
    (hd : p.granted name &&& permRead ≠ 0 → d = d') : SimFds p l l' (k.setData f.inode d) (k'.setData g.inode d') := by
  refine ⟨h.left, h.right, h.umem, ⟨h.agree.existence, fun m i j hm hi hj => ?_⟩, h.distinct, h.distinct',
    h.fds.of_root rfl rfl⟩
  change k.fs.lookup m = some i at hi
  change k'.fs.lookup m = some j at hj
  show Function.update k.fs.data f.inode d i = Function.update k'.fs.data g.inode d' j
  by_cases hn : m = name
  · subst hn
    obtain rfl : f.inode = i := Option.some.inj (hl.symm.trans hi)
    obtain rfl : g.inode = j := Option.some.inj (hl'.symm.trans hj)
    rw [Function.update_self, Function.update_self]
    exact hd hm
  · have hne : i ≠ f.inode := fun he => hn (h.distinct.name_eq hi (he ▸ hl))
    have hne' : j ≠ g.inode := fun he => hn (h.distinct'.name_eq hj (he ▸ hl'))
    rw [Function.update_of_ne hne, Function.update_of_ne hne']
    exact h.agree.contents m i j hm hi hj

theorem sysWrite_same (h : SimFds p l l' k k') (fd buf len : ℕ) :
    Same p (sysWrite k fd buf len) (sysWrite k' fd buf len) := by
  unfold sysWrite
  rw [h.left, h.right, h.userBytes]
  refine h.checked fd buf len ?_
  by_cases hstd : fd = 1 ∨ fd = 2
  · rw [if_pos hstd, if_pos hstd]
    exact ⟨rfl, l, l', h.left, h.right, h.umem, h.agree, h.distinct, h.distinct', h.fds⟩
  rw [if_neg hstd, if_neg hstd]
  have halike := h.fds.alike fd
  generalize l.getD fd none = x at halike
  generalize l'.getD fd none = y at halike
  cases halike with
  | closed => exact h.same _
  | opened f g name hperms hoff hgrant hl hl' =>
    dsimp only
    rw [hperms, hoff]
    refine h.guard _ fun _ => ?_
    -- whether a write is accepted depends on offset and length only
    have hsome : (writeAt (k'.fs.data g.inode) f.offset (k.userBytes buf len)).isSome =
        (writeAt (k.fs.data f.inode) f.offset (k.userBytes buf len)).isSome := by
      rw [writeAt_isSome, writeAt_isSome]
    cases hw : writeAt (k.fs.data f.inode) f.offset (k.userBytes buf len) with
    | none =>
      rw [hw] at hsome
      rw [Option.isNone_iff_eq_none.1 (Option.isSome_eq_false_iff.1 hsome)]
      exact h.same _
    | some r =>
      rw [hw] at hsome
      obtain ⟨r', hw'⟩ := Option.isSome_iff_exists.1 hsome
      rw [hw']
      have hend : r'.2 = r.2 := (writeAt_end hw').trans (writeAt_end hw).symm
      have hd : p.granted name &&& permRead ≠ 0 → r.1 = r'.1 := by
        intro hread
        rw [h.agree.contents name _ _ hread hl hl', hw'] at hw
        rw [Option.some.inj hw]
      dsimp only
      rw [hend]
      have hfds := h.fds.set fd (.opened { f with offset := r.2 } ⟨f.perms, g.inode, r.2⟩ name rfl rfl hgrant hl hl')
      exact ⟨rfl, _, _, (h.setData hl hl' hd).setFds (hfds.of_root rfl rfl)⟩

end

/-! ## Sequences of calls -/

/-- a call of open, read, write or close -/
structure FileCall where
  nr : ℕ
  arg1 : UInt64
  arg2 : UInt64
  arg3 : UInt64
  regs : Context
  file : nr = sysOpenNr ∨ nr = sysReadNr ∨ nr = sysWriteNr ∨ nr = sysCloseNr

/-- what a process does on its own: file calls and stores to its memory -/
inductive Action where
  | call (c : FileCall)
  | store (addr : UInt64) (b : UInt8)

def Action.isCall : Action → Bool
  | .call _ => true
  | .store _ _ => false

def FileCall.perform (k : Kernel) (c : FileCall) : Outcome :=
  syscallHandler k c.nr c.arg1.toNat c.arg2.toNat c.arg3.toNat c.regs

/-- the return values of the calls, in order, and the state after the sequence -/
def answers : Kernel → List Action → List ℕ × Kernel
  | k, [] => ([], k)
  | k, .store addr b :: as => answers { k with umem := Function.update k.umem addr.toNat b } as
  | k, .call c :: as =>
    match c.perform k with
    | .returns r k' => (r :: (answers k' as).1, (answers k' as).2)
    | _ => ([], k)

theorem allowed_same {p : Process} {l l' : List (Option OpenFile)} {k k' : Kernel} (h : SimFds p l l' k k') (nr : ℕ) :
    syscallAllowed k' nr = syscallAllowed k nr := by
  unfold syscallAllowed
  rw [h.left, h.right]

/-- **Step lemma.** Each call returns in both runs, with the same value, and keeps the simulation. -/
theorem perform_same {p : Process} {k k' : Kernel} (h : Sim p k k') (c : FileCall) :
    ∃ r u u', c.perform k = .returns r u ∧ c.perform k' = .returns r u' ∧ Sim p u u' := by
  obtain ⟨l, l', h⟩ := h
  -- the mask decides first, the same way in both runs
  have hmask : ∀ {x y : ℕ × Kernel}, Same p x y → ∃ r u u',
      (if syscallAllowed k c.nr = false then .returns (err EPERM) k else returned x) = .returns r u ∧
      (if syscallAllowed k' c.nr = false then .returns (err EPERM) k' else returned y) = .returns r u' ∧ Sim p u u' := by
    intro x y hxy
    rw [allowed_same h]
    by_cases hal : syscallAllowed k c.nr = false
    · rw [if_pos hal, if_pos hal]
      exact ⟨_, _, _, rfl, rfl, l, l', h⟩
    · rw [if_neg hal, if_neg hal, returned, returned, hxy.1]
      exact ⟨_, _, _, rfl, rfl, hxy.2⟩
  unfold FileCall.perform
  obtain ⟨nr, a1, a2, a3, regs, hfile⟩ := c
  rcases hfile with rfl | rfl | rfl | rfl
  · rw [syscallHandler_open, syscallHandler_open]
    exact hmask (sysOpen_same h _ _ _)
  · rw [syscallHandler_read, syscallHandler_read]
    exact hmask (sysRead_same h _ _ _)
  · rw [syscallHandler_write, syscallHandler_write]
    exact hmask (sysWrite_same h _ _ _)
  · rw [syscallHandler_close, syscallHandler_close]
    exact hmask (sysClose_same h _)

theorem answers_same {p : Process} {k k' : Kernel} (h : Sim p k k') (as : List Action) :
    (answers k as).1.length = as.countP Action.isCall ∧ (answers k as).1 = (answers k' as).1 ∧
      Sim p (answers k as).2 (answers k' as).2 := by
  induction as generalizing k k' with
  | nil => exact ⟨rfl, rfl, h⟩
  | cons a as ih =>
    cases a with
    | store addr b =>
      obtain ⟨l, l', h⟩ := h
      exact ih ⟨l, l', h.left, h.right, by rw [h.umem], h.agree, h.distinct, h.distinct', h.fds⟩
    | call c =>
      obtain ⟨r, u, u', hu, hu', hsim⟩ := perform_same h c
      obtain ⟨h0, h1, h2⟩ := ih hsim
      simp only [answers, hu, hu']
      refine ⟨?_, by rw [h1], h2⟩
      rw [List.length_cons, h0, List.countP_cons_of_pos rfl]

/-- **Noninterference.** Two file systems with one inode per entry that agree on the existence of the names p has a grant
for and on the contents of those it may read: the same calls of p, from the same memory and without open files, are all
answered, with the same values, and leave the same memory. -/
theorem noninterference (p : Process) (k k' : Kernel) (hp : k.currentProcess = some p) (hp' : k'.currentProcess = some p)
    (hclosed : ∀ (fd : ℕ) (f : OpenFile), p.fds[fd]? ≠ some (some f)) (hmem : k'.umem = k.umem)
    (hd : k.fs.Distinct) (hd' : k'.fs.Distinct) (hagree : Agree p k.fs k'.fs) (as : List Action) :
    (answers k as).1.length = as.countP Action.isCall ∧ (answers k as).1 = (answers k' as).1 ∧
      (answers k as).2.umem = (answers k' as).2.umem := by
  have hfds : FdsAlike p k.fs k'.fs p.fds p.fds := by
    refine ⟨rfl, fun i => ?_⟩
    cases hi : p.fds.getD i none with
    | none => exact .closed
    | some f => exact absurd (getD_eq_some hi) (hclosed i f)
  obtain ⟨h0, h1, l, l', h2⟩ := answers_same ⟨p.fds, p.fds, hp, hp', hmem, hagree, hd, hd', hfds⟩ as
  exact ⟨h0, h1, h2.umem.symm⟩

/-- a second file system with another file that the process has no grant for -/
def demoSecret : Kernel :=
  { demoFiles with fs := ⟨[⟨str "hello.txt", 0⟩, ⟨str "secret", 1⟩], Function.update (fun _ => str "hello") 1 (str "42"), 2⟩ }

theorem demoAgree : Agree demoProcess demoFiles.fs demoSecret.fs := by
  have hname : ∀ name, demoProcess.granted name ≠ 0 → name = str "hello.txt" := by
    intro name h
    by_contra hne
    refine h ?_
    have : ¬ str "hello.txt" = name := fun e => hne e.symm
    simp [Process.granted, demoProcess, this]
  refine ⟨fun name h => ?_, fun name i j h hi hj => ?_⟩
  · rw [hname name h]; decide
  · have h0 : demoProcess.granted name ≠ 0 := fun h' => h (by rw [h', UInt8.zero_and])
    rw [hname name h0] at hi hj
    obtain rfl : i = 0 := by
      have : some i = some 0 := hi.symm.trans (by decide)
      exact Option.some.inj this
    obtain rfl : j = 0 := by
      have : some j = some 0 := hj.symm.trans (by decide)
      exact Option.some.inj this
    rfl

/-- whatever the process does, it cannot tell the two apart -/
theorem noninterference_demo : demoFiles.fs.lookup (str "secret") = none ∧ demoSecret.fs.lookup (str "secret") = some 1 ∧
    ∀ as, (answers demoFiles as).1 = (answers demoSecret as).1 ∧
      (answers demoFiles as).2.umem = (answers demoSecret as).2.umem := by
  refine ⟨by decide, by decide, fun as => ?_⟩
  exact (noninterference demoProcess demoFiles demoSecret (by simp [Kernel.currentProcess, demoFiles, Scheduler.empty])
    (by simp [Kernel.currentProcess, demoSecret, demoFiles, Scheduler.empty])
    (by rintro (_ | _ | _ | fd) f h <;> cases h) rfl (by decide) (by decide) demoAgree as).2

end Tomorrow
