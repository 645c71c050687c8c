/-
`process_r` reads a file that has been removed.

The program opens "hello.txt", says so, and opens the name again and again until that fails: it waits for somebody to
remove the file. Then it reads the file through the descriptor that it still has, and exits. Meanwhile others may do what
they like with the name, as often as they like: remove it, make a new file of that name, write that one, remove it again.

What the program asks of others is `Patient`: until the file is open, its name and its bytes stay, and from then on the
open file is not written. A later file of that name is none of its concern, also while the program has it open for a
moment to see that the name is there. `process_r_reads_removed`: in every interleaving with such events that spare the
process, the output is at any time a prefix of the two lines followed by the file as it was at the start, at the end it is
all of that, no descriptor stays open, and the program is never stuck. How long it waits is up to others.
-/
import Tomorrow.Kernel.ReadProgram

namespace Tomorrow

open Tomorrow.Core Files Sched Shell Vmm

/-! ## Cut points -/

/-- labels 2 and 6 of `process_r` -/
def openedLine : Bytes := str "opened, rm me\n"

def deletedLine : Bytes := str "deleted, reading:\n"

/-- what the program prints; nothing if there is no file -/
def removedOutput (file : Option ℕ) (content : Bytes) : Bytes :=
  if file = none then [] else openedLine ++ deletedLine ++ content

/-- until the file is open, others leave the name and the bytes of its file alone; afterwards they do not write the file
that is open at descriptor 3, whatever has the name by then -/
structure Patient (i : Fin 64) (k k' : Kernel) : Prop where
  name : ∀ q, k.sched.processes i = some q → q.fds = [none, none, none] →
    k'.fs.lookup helloName = k.fs.lookup helloName ∧ ∀ I, k.fs.lookup helloName = some I → k'.fs.data I = k.fs.data I
  opened : ∀ q f, k.sched.processes i = some q → q.fds[3]? = some (some f) → k'.fs.data f.inode = k.fs.data f.inode

instance Patient.decidable (i : Fin 64) : DecidableRel (Patient i) := fun k k' =>
  decidable_of_iff (∀ q ∈ k.sched.processes i,
      (q.fds = [none, none, none] → k'.fs.lookup helloName = k.fs.lookup helloName ∧
        ∀ I ∈ k.fs.lookup helloName, k'.fs.data I = k.fs.data I) ∧
      ∀ f ∈ (q.fds[3]?).join, k'.fs.data f.inode = k.fs.data f.inode)
    ⟨fun h => ⟨fun q hq => (h q hq).1, fun q f hq hf => (h q hq).2 f (by rw [hf]; rfl)⟩,
      fun h q hq => ⟨h.name q hq, fun f hf => h.opened q f hq (Option.join_eq_some_iff.1 hf)⟩⟩

section

variable (place : ℕ → ℕ) (i : Fin 64) (p : Process) (file : Option ℕ) (content : Bytes)

/-- the bytes of an inode, whatever its name -/
def InodeHolds (content : Bytes) (I : ℕ) (fs : Ramfs) : Prop := fs.data I = content

/-- the file is open at its start, and the table may have one more, empty, place -/
structure StillOpen (I : ℕ) (spare : List (Option OpenFile)) (out : Bytes) (n : ℤ) (t : Thread Reg) (s : Sys) : Prop where
  table : spare = [] ∨ spare = [none]
  r12 : t.gpr .r12 = 3
  point : Point processR place i p (InodeHolds content I) n p.userStack (openFds ⟨permRead, I, 0⟩ ++ spare) out n t s

/-- the assertion at a program counter; it does not say how many moves are left -/
def RAt (n : ℤ) (t : Thread Reg) (s : Sys) : Prop :=
  match t.pc with
  | 0 => Point processR place i p (FileIs helloName file content) n p.userStack p.fds [] n t s
  | 5 =>
    (∃ I, file = some I ∧ t.gpr .rax = 3 ∧
      Point processR place i p (InodeHolds content I) n p.userStack (openFds ⟨permRead, I, 0⟩ ++ []) [] n t s) ∨
    (file = none ∧ t.gpr .rax = err ENOENT ∧
      Point processR place i p (FileIs helloName file content) n p.userStack p.fds [] n t s)
  | 13 => ∃ I spare, file = some I ∧ StillOpen place i p content I spare openedLine n t s
  | 18 =>
    (∃ I J, file = some I ∧ t.gpr .rax = 4 ∧ t.gpr .r12 = 3 ∧ Point processR place i p (InodeHolds content I) n p.userStack
      (openFds ⟨permRead, I, 0⟩ ++ [some ⟨permRead, J, 0⟩]) openedLine n t s) ∨
    ∃ I spare, file = some I ∧ t.gpr .rax = err ENOENT ∧ StillOpen place i p content I spare openedLine n t s
  | 23 => ∃ I spare, file = some I ∧ StillOpen place i p content I spare openedLine n t s
  | 29 => ∃ I spare, file = some I ∧ StillOpen place i p content I spare (openedLine ++ deletedLine) n t s
  | 35 =>
    ∃ I spare off, file = some I ∧ (spare = [] ∨ spare = [none]) ∧
      PieceRead processR place i p (InodeHolds content I) I content (openedLine ++ deletedLine) spare off n n t s
  | 43 =>
    ∃ I spare off, file = some I ∧ (spare = [] ∨ spare = [none]) ∧
      PiecePrinted processR place i p (InodeHolds content I) I content (openedLine ++ deletedLine) spare off n n t s
  | 47 =>
    ∃ fds, (∀ f, some f ∉ fds) ∧
      Point processR place i p (fun _ => True) n (p.userStack - 64) fds (removedOutput file content) n t s
  | 54 =>
    ∃ rsp fds, (∀ f, some f ∉ fds) ∧
      Point processR place i p (fun _ => True) n rsp fds (removedOutput file content) n t s
  | _ => False

end

section

variable {place : ℕ → ℕ} {i : Fin 64} {p : Process} {file : Option ℕ} {content : Bytes}

/-- a file that the program has open keeps its bytes -/
theorem Patient.holds {k k' : Kernel} {I off : ℕ} {spare : List (Option OpenFile)} (h : Patient i k k')
    (hown : Owns i { p with fds := openFds ⟨permRead, I, off⟩ ++ spare } k) (hk : InodeHolds content I k.fs) :
    InodeHolds content I k'.fs := by
  obtain ⟨q, hq, hs⟩ := hown
  have hthree : q.fds[3]? = some (some ⟨permRead, I, off⟩) := by
    rw [hs.fds]
    rfl
  exact (h.opened q _ hq hthree).trans hk

section Blocks

variable (hset : Setup .r processR place p)

include hset

/-- before the file is open, its name stays -/
theorem Patient.fileIs {k k' : Kernel} (h : Patient i k k') (hown : Owns i { p with fds := p.fds } k)
    (hk : FileIs helloName file content k.fs) : FileIs helloName file content k'.fs := by
  obtain ⟨q, hq, hs⟩ := hown
  have hfds : q.fds = p.fds := hs.fds
  obtain ⟨hname, hbytes⟩ := h.name q hq (hfds.trans hset.fds)
  refine ⟨hname.trans hk.1, fun I hI => ?_⟩
  rw [hbytes I (hk.1.trans hI)]
  exact hk.2 I hI

theorem StillOpen.others {b : Boot} {n : ℤ} {t : Thread Reg} {s s' : Sys} {I : ℕ} {spare : List (Option OpenFile)} {out : Bytes}
    (h : StillOpen place i p content I spare out n t s) (he : Others b i (Patient i) s s') :
    StillOpen place i p content I spare out n t s' :=
  ⟨h.table, h.r12, h.point.others hset (fun hk => hk.holds h.point.own h.point.files) he⟩

theorem RAt.others {b : Boot} {n : ℤ} {t : Thread Reg} {s s' : Sys} (h : RAt place i p file content n t s)
    (he : Others b i (Patient i) s s') : RAt place i p file content n t s' := by
  unfold RAt at h ⊢
  split at h
  · exact h.others hset (fun hk => hk.fileIs hset h.own h.files) he
  · rcases h with ⟨I, hI, hrax, h⟩ | ⟨hI, hrax, h⟩
    · exact Or.inl ⟨I, hI, hrax, h.others hset (fun hk => hk.holds h.own h.files) he⟩
    · exact Or.inr ⟨hI, hrax, h.others hset (fun hk => hk.fileIs hset h.own h.files) he⟩
  · obtain ⟨I, spare, hI, h⟩ := h
    exact ⟨I, spare, hI, h.others hset he⟩
  · rcases h with ⟨I, J, hI, hrax, h12, h⟩ | ⟨I, spare, hI, hrax, h⟩
    · exact Or.inl ⟨I, J, hI, hrax, h12, h.others hset (fun hk => hk.holds h.own h.files) he⟩
    · exact Or.inr ⟨I, spare, hI, hrax, h.others hset he⟩
  · obtain ⟨I, spare, hI, h⟩ := h
    exact ⟨I, spare, hI, h.others hset he⟩
  · obtain ⟨I, spare, hI, h⟩ := h
    exact ⟨I, spare, hI, h.others hset he⟩
  · obtain ⟨I, spare, off, hI, hspare, h⟩ := h
    exact ⟨I, spare, off, hI, hspare, h.others hset (fun hk => hk.holds h.point.own h.point.files) he⟩
  · obtain ⟨I, spare, off, hI, hspare, h⟩ := h
    exact ⟨I, spare, off, hI, hspare, h.le, h.r12,
      h.point.others hset (fun hk => hk.holds h.point.own h.point.files) he⟩
  · obtain ⟨fds, hfds, h⟩ := h
    exact ⟨fds, hfds, h.others hset (fun _ => trivial) he⟩
  · obtain ⟨rsp, fds, hfds, h⟩ := h
    exact ⟨rsp, fds, hfds, h.others hset (fun _ => trivial) he⟩
  · exact h

/-! ## Blocks -/

/-- print a line of the program -/
theorem print_line (line : Bytes) (n' : ℤ) {I pos len : ℕ} {out : Bytes} {spare : List (Option OpenFile)} {n : ℤ}
    {t₀ t : Thread Reg} {s : Sys}
    (h : Point processR place i p (InodeHolds content I) n p.userStack (openFds ⟨permRead, I, 0⟩ ++ spare) out n t₀ s)
    (hspare : spare = [] ∨ spare = [none]) (hline : processR[pos]? = some (.data line)) (hlen : line.length = len)
    (hturn : s.kernel.sched.current = i) (c : Choice) (hrsp : t.rsp = t₀.rsp) (h12 : t.gpr .r12 = 3)
    (ht : Calls processR t 1 1 (place pos) len) :
    ∃ t' s', (program processR place i).act c t s = some (t', s') ∧ t'.pc = t.pc + 1 ∧
      StillOpen place i p content I spare (out ++ line) n' t' s' := by
  subst hlen
  have htwo : 1 < (openFds ⟨permRead, I, 0⟩ ++ spare).length := by simp [openFds]
  obtain ⟨k, hcall, hown, hmem, hfs, hout⟩ := call_print h.own hturn hset.mask c.regs htwo (hset.data_ok hline)
  refine ⟨_, _, act_returns ht hcall, rfl, hspare, h12, ?_⟩
  refine h.after hset (hrsp.trans h.rsp) hown (fun a _ => by rw [hmem]) (hfs ▸ h.files) ?_
  rw [hout, h.loaded pos line hline, h.out]

variable (n : ℤ) (gpr : Reg → ℕ) (rsp last : ℕ)

theorem Setup.name_ok (k : Kernel) (hl : DataLoaded processR place k) : k.userBytes (place 51) 9 = helloName ∧
    userRangeOk p (place 51) 9 = true ∧ p.granted (k.userBytes (place 51) 9) &&& permRead = permRead := by
  have hname : k.userBytes (place 51) 9 = helloName := hl 51 helloName rfl
  refine ⟨hname, hset.data_ok (show processR[51]? = some (.data helloName) from rfl), ?_⟩
  rw [hname, Process.granted, hset.grants]
  decide

/-- open -/
theorem rblock_start : (program processR place i).Block (RAt place i p file content) n ⟨gpr, rsp, 0, last⟩ := by
  obtain ⟨t, halone, hpc, hrsp, ht⟩ : ∃ t, (program processR place i).alone 4 ⟨gpr, rsp, 0, last⟩ = some t ∧ t.pc = 4 ∧
      t.rsp = rsp ∧ Calls processR t 2 (place 51) 9 0 := ⟨_, rfl, rfl, rfl, ⟨rfl, rfl, rfl, rfl, rfl⟩⟩
  refine block_call halone ht fun s h hturn c => ?_
  replace h : Point processR place i p (FileIs helloName file content) n p.userStack p.fds [] n ⟨gpr, rsp, 0, last⟩ s := h
  obtain ⟨hname, hrange, hgrant⟩ := hset.name_ok s.kernel h.loaded
  have hlook : s.kernel.fs.lookup (s.kernel.userBytes (place 51) 9) = file := by rw [hname]; exact h.files.1
  obtain ⟨gpr', rsp', pc, last'⟩ := t
  subst hpc hrsp
  cases file with
  | some I =>
    have hinst : installFd p.fds ⟨permRead, I, 0⟩ = some (3, openFds ⟨permRead, I, 0⟩) := by
      rw [hset.fds]
      rfl
    obtain ⟨k, hcall, hown, hmem, hfs⟩ := call_open h.own hturn hset.mask c.regs (show neededPerms 0 = _ by decide)
      (by decide) hrange hgrant hlook hinst
    refine ⟨_, _, n - 5, act_returns ht hcall, Or.inl ⟨I, rfl, rfl, ?_⟩, by omega⟩
    refine h.after hset h.rsp hown (fun a _ => by rw [hmem]) ?_ ?_
    · rw [hfs]
      exact h.files.2 I rfl
    · exact quiet_out (by decide) _ _ _ _ h.out
  | none =>
    have hcall := call_open_missing h.own hturn hset.mask c.regs (show neededPerms 0 = _ by decide) (by decide) hrange hgrant
      hlook
    refine ⟨_, _, n - 5, act_returns ht hcall, Or.inr ⟨rfl, rfl, ?_⟩, by omega⟩
    refine h.after hset h.rsp h.own (fun a _ => rfl) h.files ?_
    exact quiet_out (by decide) _ _ _ _ h.out

omit hset in
theorem rsign_open : SignTest processR 5 47 := ⟨rfl, rfl⟩

omit hset in
theorem rsign_again : SignTest processR 18 24 := ⟨rfl, rfl⟩

/-- say that the file is open -/
theorem rblock_opened (hlt : gpr .rax < 2 ^ 63) :
    (program processR place i).Block (RAt place i p file content) n ⟨gpr, rsp, 5, last⟩ := by
  have htest := sign_ok place i rsp last rsign_open hlt
  obtain ⟨t, halone, hpc, hrsp, h12, ht⟩ : ∃ t, (program processR place i).alone 5 ⟨gpr, rsp, 7, gpr .rax⟩ = some t ∧
      t.pc = 12 ∧ t.rsp = rsp ∧ t.gpr .r12 = gpr .rax ∧ Calls processR t 1 1 (place 52) 14 :=
    ⟨_, rfl, rfl, rfl, rfl, ⟨rfl, rfl, rfl, rfl, rfl⟩⟩
  refine block_call ((Client.alone_add htest).trans halone) ht fun s h hturn c => ?_
  rcases h with ⟨I, hI, hrax, h⟩ | ⟨-, hrax, -⟩
  · obtain ⟨⟨gpr', rsp', pc, last'⟩, s', hact, hpc', h'⟩ := print_line hset openedLine (n - 8) h
      (Or.inl rfl) rfl rfl hturn c hrsp (h12.trans hrax) ht
    rw [hpc] at hpc'
    subst hpc'
    exact ⟨_, s', _, hact, ⟨I, [], hI, h'⟩, by omega⟩
  · have := err_negative (show 1 ≤ ENOENT by decide) (by decide)
    exact absurd (show gpr .rax = err ENOENT from hrax) (by omega)

/-- exit when there is no file -/
theorem rblock_missing (h : 2 ^ 63 ≤ gpr .rax) :
    (program processR place i).Block (RAt place i p file content) n ⟨gpr, rsp, 5, last⟩ := by
  have htest := sign_error place i rsp last rsign_open h
  obtain ⟨t, halone, hrsp, ht⟩ : ∃ t, (program processR place i).alone 2 ⟨gpr, rsp, 47, gpr .rax⟩ = some t ∧
      t.rsp = rsp ∧ Calls processR t 60 0 (gpr .rsi) (gpr .rdx) := ⟨_, rfl, rfl, ⟨rfl, rfl, rfl, rfl, rfl⟩⟩
  refine block_call ((Client.alone_add htest).trans halone) ht fun s h' hturn c => ?_
  rcases h' with ⟨I, -, hrax, -⟩ | ⟨hI, -, h'⟩
  · have hrax : gpr .rax = 3 := hrax
    omega
  · obtain ⟨k, hcall, hown, hmem, hfs⟩ := call_exit h'.own hturn hset.mask c.regs 0 (gpr .rsi) (gpr .rdx)
    have hact : (program processR place i).act c t s = _ := act_exits ht hcall
    obtain ⟨gpr', rsp', pc, last'⟩ := t
    refine ⟨_, _, n - 5, hact, ⟨rsp', p.fds, by rw [hset.fds]; simp, ?_⟩, by omega⟩
    refine h'.after hset rfl hown (fun a _ => by rw [hmem]) trivial (h'.out.trans ?_)
    rw [removedOutput, if_pos hI]

/-- open again -/
theorem open_again {I : ℕ} {spare : List (Option OpenFile)} {t₀ t : Thread Reg} {s : Sys} (hI : file = some I)
    (h : StillOpen place i p content I spare openedLine n t₀ s) (hturn : s.kernel.sched.current = i) (c : Choice)
    (hpc : t.pc = 17) (hrsp : t.rsp = t₀.rsp) (h12 : t.gpr .r12 = t₀.gpr .r12) (ht : Calls processR t 2 (place 51) 9 0) (n' : ℤ) :
    ∃ t' s', (program processR place i).act c t s = some (t', s') ∧ RAt place i p file content n' t' s' := by
  obtain ⟨hname, hrange, hgrant⟩ := hset.name_ok s.kernel h.point.loaded
  have hrsp' := hrsp.trans h.point.rsp
  have h12' := h12.trans h.r12
  obtain ⟨gpr', rsp', pc, last'⟩ := t
  subst hpc
  cases hlook : s.kernel.fs.lookup (s.kernel.userBytes (place 51) 9) with
  | some J =>
    have hinst : installFd (openFds ⟨permRead, I, 0⟩ ++ spare) ⟨permRead, J, 0⟩ =
        some (4, openFds ⟨permRead, I, 0⟩ ++ [some ⟨permRead, J, 0⟩]) := by
      rcases h.table with rfl | rfl
      · rfl
      · rfl
    obtain ⟨k, hcall, hown, hmem, hfs⟩ := call_open h.point.own hturn hset.mask c.regs (show neededPerms 0 = _ by decide)
      (by decide) hrange hgrant hlook hinst
    refine ⟨_, _, act_returns ht hcall, Or.inl ⟨I, J, hI, rfl, h12', ?_⟩⟩
    refine h.point.after hset hrsp' hown (fun a _ => by rw [hmem]) (hfs ▸ h.point.files) ?_
    exact quiet_out (by decide) _ _ _ _ h.point.out
  | none =>
    have hcall := call_open_missing h.point.own hturn hset.mask c.regs (show neededPerms 0 = _ by decide) (by decide) hrange
      hgrant hlook
    refine ⟨_, _, act_returns ht hcall, Or.inr ⟨I, spare, hI, rfl, h.table, h12', ?_⟩⟩
    refine h.point.after hset hrsp' h.point.own (fun a _ => rfl) h.point.files ?_
    exact quiet_out (by decide) _ _ _ _ h.point.out

theorem rblock_wait : (program processR place i).Block (RAt place i p file content) n ⟨gpr, rsp, 13, last⟩ := by
  obtain ⟨t, halone, hpc, hrsp, h12, ht⟩ : ∃ t, (program processR place i).alone 4 ⟨gpr, rsp, 13, last⟩ = some t ∧ t.pc = 17 ∧
      t.rsp = rsp ∧ t.gpr .r12 = gpr .r12 ∧ Calls processR t 2 (place 51) 9 0 :=
    ⟨_, rfl, rfl, rfl, rfl, ⟨rfl, rfl, rfl, rfl, rfl⟩⟩
  refine block_call halone ht fun s h hturn c => ?_
  obtain ⟨I, spare, hI, h⟩ := h
  obtain ⟨t', s', hact, h'⟩ := open_again hset n hI h hturn c hpc hrsp h12 ht (n - 5)
  exact ⟨t', s', _, hact, h', by omega⟩

theorem rblock_wait_again : (program processR place i).Block (RAt place i p file content) n ⟨gpr, rsp, 23, last⟩ := by
  obtain ⟨t, halone, hpc, hrsp, h12, ht⟩ : ∃ t, (program processR place i).alone 5 ⟨gpr, rsp, 23, last⟩ = some t ∧ t.pc = 17 ∧
      t.rsp = rsp ∧ t.gpr .r12 = gpr .r12 ∧ Calls processR t 2 (place 51) 9 0 :=
    ⟨_, rfl, rfl, rfl, rfl, ⟨rfl, rfl, rfl, rfl, rfl⟩⟩
  refine block_call halone ht fun s h hturn c => ?_
  obtain ⟨I, spare, hI, h⟩ := h
  obtain ⟨t', s', hact, h'⟩ := open_again hset n hI h hturn c hpc hrsp h12 ht (n - 6)
  exact ⟨t', s', _, hact, h', by omega⟩

/-- the name is still there: close the second descriptor -/
theorem rblock_still_there (hlt : gpr .rax < 2 ^ 63) :
    (program processR place i).Block (RAt place i p file content) n ⟨gpr, rsp, 18, last⟩ := by
  have htest := sign_ok place i rsp last rsign_again hlt
  obtain ⟨t, halone, hpc, hrsp, h12, ht⟩ : ∃ t, (program processR place i).alone 2 ⟨gpr, rsp, 20, gpr .rax⟩ = some t ∧
      t.pc = 22 ∧ t.rsp = rsp ∧ t.gpr .r12 = gpr .r12 ∧ Calls processR t 3 (gpr .rax) (gpr .rsi) (gpr .rdx) :=
    ⟨_, rfl, rfl, rfl, rfl, ⟨rfl, rfl, rfl, rfl, rfl⟩⟩
  refine block_call ((Client.alone_add htest).trans halone) ht fun s h hturn c => ?_
  rcases h with ⟨I, J, hI, hrax, hr12, h⟩ | ⟨I, spare, -, hrax, -⟩
  · rw [show gpr .rax = 4 from hrax] at ht
    have hfd : (openFds ⟨permRead, I, 0⟩ ++ [some ⟨permRead, J, 0⟩])[4]? = some (some ⟨permRead, J, 0⟩) := rfl
    obtain ⟨k, hcall, hown, hmem, hfs⟩ := call_close h.own hturn hset.mask c.regs hfd (gpr .rsi) (gpr .rdx)
    have hact : (program processR place i).act c t s = _ := act_returns ht hcall
    obtain ⟨gpr', rsp', pc, last'⟩ := t
    subst hpc
    refine ⟨_, _, n - 5, hact, ⟨I, [none], hI, Or.inr rfl, h12.trans hr12, ?_⟩, by omega⟩
    refine h.after hset (hrsp.trans h.rsp) hown (fun a _ => by rw [hmem]) (hfs ▸ h.files) ?_
    exact quiet_out (by decide) _ _ _ _ h.out
  · have := err_negative (show 1 ≤ ENOENT by decide) (by decide)
    exact absurd (show gpr .rax = err ENOENT from hrax) (by omega)

/-- the name is gone: say so -/
theorem rblock_gone (h : 2 ^ 63 ≤ gpr .rax) :
    (program processR place i).Block (RAt place i p file content) n ⟨gpr, rsp, 18, last⟩ := by
  have htest := sign_error place i rsp last rsign_again h
  obtain ⟨t, halone, hpc, hrsp, h12, ht⟩ : ∃ t, (program processR place i).alone 4 ⟨gpr, rsp, 24, gpr .rax⟩ = some t ∧
      t.pc = 28 ∧ t.rsp = rsp ∧ t.gpr .r12 = gpr .r12 ∧ Calls processR t 1 1 (place 53) 18 :=
    ⟨_, rfl, rfl, rfl, rfl, ⟨rfl, rfl, rfl, rfl, rfl⟩⟩
  refine block_call ((Client.alone_add htest).trans halone) ht fun s h' hturn c => ?_
  rcases h' with ⟨I, J, -, hrax, -⟩ | ⟨I, spare, hI, hrax, h'⟩
  · have hrax : gpr .rax = 4 := hrax
    omega
  · obtain ⟨⟨gpr', rsp', pc, last'⟩, s', hact, hpc', h''⟩ := print_line hset deletedLine (n - 7) h'.point h'.table
      rfl rfl hturn c hrsp (h12.trans h'.r12) ht
    rw [hpc] at hpc'
    subst hpc'
    exact ⟨_, s', _, hact, ⟨I, spare, hI, h''⟩, by omega⟩

/-- read, the first time -/
theorem rblock_reading : (program processR place i).Block (RAt place i p file content) n ⟨gpr, rsp, 29, last⟩ := by
  obtain ⟨t, halone, hpc, hrsp, h12, ht⟩ : ∃ t, (program processR place i).alone 5 ⟨gpr, rsp, 29, last⟩ = some t ∧ t.pc = 34 ∧
      t.rsp = wsub rsp 64 ∧ t.gpr .r12 = gpr .r12 ∧ Calls processR t 0 (t.gpr .r12) t.rsp 16 :=
    ⟨_, rfl, rfl, rfl, rfl, ⟨rfl, rfl, rfl, rfl, rfl⟩⟩
  have hroom := hset.stack_room
  refine block_call halone ht fun s h hturn c => ?_
  obtain ⟨I, spare, hI, h⟩ := h
  have hsub : wsub rsp 64 = p.userStack - 64 := by
    rw [show rsp = p.userStack from h.point.rsp]
    exact wsub_eq (by omega) hroom.2
  have hout : s.out = (openedLine ++ deletedLine) ++ content.take 0 := by
    rw [h.point.out, List.take_zero, List.append_nil]
  have hpoint : PiecePrinted processR place i p (InodeHolds content I) I content (openedLine ++ deletedLine) spare 0 n n t s :=
    ⟨Nat.zero_le _, h12.trans h.r12, rfl, hrsp.trans hsub, h.point.own, hout, h.point.loaded, h.point.files⟩
  obtain ⟨⟨gpr', rsp', pc, last'⟩, s', hact, hpc', h'⟩ := read_piece hset (n - 6) hpoint (fun _ hf => hf) hturn c rfl rfl ht
  rw [hpc] at hpc'
  subst hpc'
  exact ⟨_, s', _, hact, ⟨I, spare, 0, hI, h.table, h'⟩, by omega⟩

/-- read again -/
theorem rblock_printed : (program processR place i).Block (RAt place i p file content) n ⟨gpr, rsp, 43, last⟩ := by
  obtain ⟨t, halone, hpc, hrsp, h12, ht⟩ : ∃ t, (program processR place i).alone 5 ⟨gpr, rsp, 43, last⟩ = some t ∧ t.pc = 34 ∧
      t.rsp = rsp ∧ t.gpr .r12 = gpr .r12 ∧ Calls processR t 0 (gpr .r12) rsp 16 :=
    ⟨_, rfl, rfl, rfl, rfl, ⟨rfl, rfl, rfl, rfl, rfl⟩⟩
  refine block_call halone ht fun s h hturn c => ?_
  obtain ⟨I, spare, off, hI, hspare, h⟩ := h
  obtain ⟨⟨gpr', rsp', pc, last'⟩, s', hact, hpc', h'⟩ := read_piece hset (n - 6) h (fun _ hf => hf) hturn c hrsp h12 ht
  rw [hpc] at hpc'
  subst hpc'
  exact ⟨_, s', _, hact, ⟨I, spare, off, hI, hspare, h'⟩, by omega⟩

omit hset in
theorem rtests : Tests processR 35 44 := ⟨rfl, rfl, rfl⟩

/-- print a piece -/
theorem rblock_piece (h0 : gpr .rax ≠ 0) (hlt : gpr .rax < 2 ^ 63) :
    (program processR place i).Block (RAt place i p file content) n ⟨gpr, rsp, 35, last⟩ := by
  have htest := test_positive place i rsp last rtests h0 hlt
  obtain ⟨t, halone, hpc, hrsp, h12, ht⟩ : ∃ t, (program processR place i).alone 4 ⟨gpr, rsp, 38, gpr .rax⟩ = some t ∧
      t.pc = 42 ∧ t.rsp = rsp ∧ t.gpr .r12 = gpr .r12 ∧ Calls processR t 1 1 rsp (gpr .rax) :=
    ⟨_, rfl, rfl, rfl, rfl, ⟨rfl, rfl, rfl, rfl, rfl⟩⟩
  refine block_call ((Client.alone_add htest).trans halone) ht fun s h hturn c => ?_
  obtain ⟨I, spare, off, hI, hspare, h⟩ := h
  obtain ⟨⟨gpr', rsp', pc, last'⟩, s', hact, hpc', h'⟩ := print_piece hset (n - 8) h hturn c hrsp h12 ht
  rw [hpc] at hpc'
  subst hpc'
  exact ⟨_, s', _, hact, ⟨I, spare, _, hI, hspare, h'⟩, by omega⟩

/-- nothing was read: close -/
theorem rblock_empty (h0 : gpr .rax = 0) :
    (program processR place i).Block (RAt place i p file content) n ⟨gpr, rsp, 35, last⟩ := by
  have htest := test_zero place i rsp last rtests h0
  obtain ⟨t, halone, hpc, hrsp, ht⟩ : ∃ t, (program processR place i).alone 2 ⟨gpr, rsp, 44, gpr .rax⟩ = some t ∧
      t.pc = 46 ∧ t.rsp = rsp ∧ Calls processR t 3 (gpr .r12) (gpr .rsi) (gpr .rdx) :=
    ⟨_, rfl, rfl, rfl, ⟨rfl, rfl, rfl, rfl, rfl⟩⟩
  refine block_call ((Client.alone_add htest).trans halone) ht fun s h hturn c => ?_
  obtain ⟨I, spare, off, hI, hspare, h⟩ := h
  rw [show gpr .r12 = 3 from h.r12] at ht
  have hfd : (openFds ⟨permRead, I, off + (readAt content off 16).length⟩ ++ spare)[3]? = some (some ⟨permRead, I, _⟩) := rfl
  obtain ⟨k, hcall, hown, hmem, hfs⟩ := call_close h.point.own hturn hset.mask c.regs hfd (gpr .rsi) (gpr .rdx)
  have hact : (program processR place i).act c t s = _ := act_returns ht hcall
  obtain ⟨gpr', rsp', pc, last'⟩ := t
  subst hpc
  refine ⟨_, _, n - 5, hact, ⟨[none, none, none, none] ++ spare, ?_, ?_⟩, by omega⟩
  · rcases hspare with rfl | rfl
    · simp
    · simp
  · refine h.point.after hset (hrsp.trans h.point.rsp) hown (fun a _ => by rw [hmem]) trivial ?_
    refine quiet_out (by decide) _ _ _ _ (h.point.out.trans ?_)
    rw [h.all_printed h0, removedOutput, if_neg (by rw [hI]; exact Option.some_ne_none I)]

/-- exit -/
theorem rblock_closed : (program processR place i).Block (RAt place i p file content) n ⟨gpr, rsp, 47, last⟩ := by
  obtain ⟨t, halone, hrsp, ht⟩ : ∃ t, (program processR place i).alone 2 ⟨gpr, rsp, 47, last⟩ = some t ∧
      t.rsp = rsp ∧ Calls processR t 60 0 (gpr .rsi) (gpr .rdx) := ⟨_, rfl, rfl, ⟨rfl, rfl, rfl, rfl, rfl⟩⟩
  refine block_call halone ht fun s h hturn c => ?_
  obtain ⟨fds, hfds, h⟩ := h
  obtain ⟨k, hcall, hown, hmem, hfs⟩ := call_exit h.own hturn hset.mask c.regs 0 (gpr .rsi) (gpr .rdx)
  have hact : (program processR place i).act c t s = _ := act_exits ht hcall
  obtain ⟨gpr', rsp', pc, last'⟩ := t
  refine ⟨_, _, n - 3, hact, ⟨rsp', fds, hfds, ?_⟩, by omega⟩
  exact h.after hset rfl hown (fun a _ => by rw [hmem]) trivial h.out

/-- every cut point but the last starts a block -/
theorem rblocks {n : ℤ} {t : Thread Reg} {s : Sys} (h : RAt place i p file content n t s) :
    (program processR place i).done t ∨ (program processR place i).Block (RAt place i p file content) n t := by
  obtain ⟨gpr, rsp, pc, last⟩ := t
  have hpc : pc = 0 ∨ pc = 5 ∨ pc = 13 ∨ pc = 18 ∨ pc = 23 ∨ pc = 29 ∨ pc = 35 ∨ pc = 43 ∨ pc = 47 ∨ pc = 54 := by
    unfold RAt at h
    split at h <;> simp_all
  rcases hpc with rfl | rfl | rfl | rfl | rfl | rfl | rfl | rfl | rfl | rfl
  · exact Or.inr (rblock_start hset n gpr rsp last)
  · rcases Nat.lt_or_ge (gpr .rax) (2 ^ 63) with hlt | hge
    · exact Or.inr (rblock_opened hset n gpr rsp last hlt)
    · exact Or.inr (rblock_missing hset n gpr rsp last hge)
  · exact Or.inr (rblock_wait hset n gpr rsp last)
  · rcases Nat.lt_or_ge (gpr .rax) (2 ^ 63) with hlt | hge
    · exact Or.inr (rblock_still_there hset n gpr rsp last hlt)
    · exact Or.inr (rblock_gone hset n gpr rsp last hge)
  · exact Or.inr (rblock_wait_again hset n gpr rsp last)
  · exact Or.inr (rblock_reading hset n gpr rsp last)
  · have hlt : gpr .rax < 2 ^ 63 := by
      obtain ⟨I, spare, off, -, -, h⟩ := h
      have hlen := piece_length_le content off
      have hrax : gpr .rax = (readAt content off 16).length := h.rax
      omega
    rcases Nat.eq_zero_or_pos (gpr .rax) with h0 | h0
    · exact Or.inr (rblock_empty hset n gpr rsp last h0)
    · exact Or.inr (rblock_piece hset n gpr rsp last h0.ne' hlt)
  · exact Or.inr (rblock_printed hset n gpr rsp last)
  · exact Or.inr (rblock_closed hset n gpr rsp last)
  · exact Or.inl (Nat.le_refl _)

end Blocks

/-! ## Runs -/

theorem RAt.out_prefix {n : ℤ} {t : Thread Reg} {s : Sys} (h : RAt place i p file content n t s) :
    s.out <+: removedOutput file content := by
  have whole : ∀ {I : ℕ}, file = some I → removedOutput file content = openedLine ++ deletedLine ++ content := by
    intro I hI
    rw [removedOutput, if_neg (by rw [hI]; exact Option.some_ne_none I)]
  have opened : ∀ {I : ℕ}, file = some I → s.out = openedLine → s.out <+: removedOutput file content := by
    intro I hI hout
    rw [hout, whole hI, List.append_assoc]
    exact List.prefix_append _ _
  have piece : ∀ {I off : ℕ}, file = some I → s.out = openedLine ++ deletedLine ++ content.take off →
      s.out <+: removedOutput file content := by
    intro I off hI hout
    rw [hout, whole hI]
    exact (List.prefix_append_right_inj _).2 (List.take_prefix off content)
  unfold RAt at h
  split at h
  · exact h.out ▸ List.nil_prefix
  · rcases h with ⟨I, -, -, h⟩ | ⟨-, -, h⟩
    · exact h.out ▸ List.nil_prefix
    · exact h.out ▸ List.nil_prefix
  · obtain ⟨I, spare, hI, h⟩ := h
    exact opened hI h.point.out
  · rcases h with ⟨I, J, hI, -, -, h⟩ | ⟨I, spare, hI, -, h⟩
    · exact opened hI h.out
    · exact opened hI h.point.out
  · obtain ⟨I, spare, hI, h⟩ := h
    exact opened hI h.point.out
  · obtain ⟨I, spare, hI, h⟩ := h
    rw [h.point.out, whole hI]
    exact List.prefix_append _ _
  · obtain ⟨I, spare, off, hI, -, h⟩ := h
    exact piece hI h.point.out
  · obtain ⟨I, spare, off, hI, -, h⟩ := h
    exact piece hI h.point.out
  · obtain ⟨fds, -, h⟩ := h
    exact h.out ▸ List.prefix_rfl
  · obtain ⟨rsp, fds, -, h⟩ := h
    exact h.out ▸ List.prefix_rfl
  · exact h.elim

theorem RAt.at_end {n : ℤ} {t : Thread Reg} {s : Sys} (h : RAt place i p file content n t s)
    (hpc : processR.length ≤ t.pc) :
    s.out = removedOutput file content ∧ ∃ q, s.kernel.sched.processes i = some q ∧ ∀ f, some f ∉ q.fds := by
  replace hpc : 54 ≤ t.pc := hpc
  unfold RAt at h
  split at h
  · omega
  · omega
  · omega
  · omega
  · omega
  · omega
  · omega
  · omega
  · omega
  · obtain ⟨rsp, fds, hfds, h⟩ := h
    obtain ⟨q, hq, hs⟩ := h.own
    have hq' : q.fds = fds := hs.fds
    exact ⟨h.out, q, hq, hq' ▸ hfds⟩
  · exact h.elim

end

end Tomorrow
