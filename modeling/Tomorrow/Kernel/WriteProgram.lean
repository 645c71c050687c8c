/-
`process_w` overwrites the start of a file, whatever else runs.

The program opens "hello.txt" for writing, writes "XYZ" and then twenty more characters through the same descriptor, closes
it and exits. The two writes are separate calls: in between others run, and the offset that carries the program from the
first to the second is in the descriptor table of the kernel.

`process_w_writes`: in every interleaving with events that spare the process and leave the file alone, the file is at any
time the old one under some of the text, at the end under all 23 bytes of it, longer if it was shorter. A file that does not
exist is not made. The program makes at most 22 moves, prints nothing and leaves no descriptor open.
-/
import Tomorrow.Kernel.ReadProgram

namespace Tomorrow

open Tomorrow.Core Files Sched Shell Vmm

/-! ## Cut points -/

section

variable (place : ℕ → ℕ) (i : Fin 64) (p : Process) (file : Option ℕ) (content : Bytes)

/-- a point at which the text w stands over the start of the file -/
def WPoint (w : Bytes) (left : ℤ) (fds : List (Option OpenFile)) :=
  Point processW place i p (FileIs helloName file (w ++ content.drop w.length)) left p.userStack fds []

/-- the descriptor in a register: the open file behind the text, or the error of `open` -/
def Holding (w : Bytes) (left : ℤ) (r : Reg) (n : ℤ) (t : Thread Reg) (s : Sys) : Prop :=
  (∃ I, file = some I ∧ t.gpr r = 3 ∧ WPoint place i p file content w left (openFds ⟨permWrite, I, w.length⟩) n t s) ∨
  (file = none ∧ t.gpr r = err ENOENT ∧ WPoint place i p file content w left p.fds n t s)

/-- the two texts of `process_w`, labels 2 and 5 -/
def wText₁ : Bytes := str "XYZ"

def wText₂ : Bytes := str "0123456789abcdefghij"

/-- the assertion at a program counter -/
def WAt (n : ℤ) (t : Thread Reg) (s : Sys) : Prop :=
  match t.pc with
  | 0 => WPoint place i p file content [] 22 p.fds n t s
  | 5 => Holding place i p file content [] 17 .rax n t s
  | 11 => Holding place i p file content wText₁ 11 .r12 n t s
  | 16 => Holding place i p file content (wText₁ ++ wText₂) 6 .r12 n t s
  | 19 => ∃ fds, (∀ f, some f ∉ fds) ∧ WPoint place i p file content (wText₁ ++ wText₂) 3 fds n t s
  | 26 => ∃ fds, (∀ f, some f ∉ fds) ∧ WPoint place i p file content (wText₁ ++ wText₂) 0 fds n t s
  | _ => False

end

section

variable {place : ℕ → ℕ} {i : Fin 64} {p : Process} {file : Option ℕ} {content : Bytes}

section Blocks

variable (hset : Setup .w processW place p)

include hset

theorem WAt.others {b : Boot} {n : ℤ} {t : Thread Reg} {s s' : Sys} (h : WAt place i p file content n t s)
    (he : Others b i (KeepsFile helloName) s s') : WAt place i p file content n t s' := by
  have keep : ∀ {w : Bytes} {left : ℤ} {fds : List (Option OpenFile)}, WPoint place i p file content w left fds n t s →
      WPoint place i p file content w left fds n t s' := fun h => Point.others hset h h.files.kept he
  have hold : ∀ {w : Bytes} {left : ℤ} {r : Reg}, Holding place i p file content w left r n t s →
      Holding place i p file content w left r n t s' := by
    rintro w left r (⟨I, hI, hr, h⟩ | ⟨hI, hr, h⟩)
    · exact Or.inl ⟨I, hI, hr, keep h⟩
    · exact Or.inr ⟨hI, hr, keep h⟩
  unfold WAt at h ⊢
  split at h
  · exact keep h
  · exact hold h
  · exact hold h
  · exact hold h
  · obtain ⟨fds, hfds, h⟩ := h
    exact ⟨fds, hfds, keep h⟩
  · obtain ⟨fds, hfds, h⟩ := h
    exact ⟨fds, hfds, keep h⟩
  · exact h

/-! ## Blocks -/

/-- a write of the next piece of text, from the data at a position -/
theorem write_piece (src : Bytes) (left' : ℤ) {w : Bytes} {left n : ℤ} {r : Reg} {fd pos len : ℕ} {t₀ t : Thread Reg} {s : Sys}
    (h : Holding place i p file content w left r n t₀ s) (hfd : t₀.gpr r = fd) (hsrc : processW[pos]? = some (.data src))
    (hlen : src.length = len) (hfits : w.length + src.length ≤ maxFileSize) (hturn : s.kernel.sched.current = i) (c : Choice)
    (hrsp : t.rsp = t₀.rsp) (h12 : t.gpr .r12 = fd) (ht : Calls processW t 1 fd (place pos) len) :
    ∃ t' s', (program processW place i).act c t s = some (t', s') ∧ t'.pc = t.pc + 1 ∧
      Holding place i p file content (w ++ src) left' .r12 left' t' s' := by
  subst hlen
  rcases h with ⟨I, hI, hr, h⟩ | ⟨hI, hr, h⟩
  · obtain rfl : fd = 3 := hfd.symm.trans hr
    have hopen : (openFds ⟨permWrite, I, w.length⟩)[3]? = some (some ⟨permWrite, I, w.length⟩) := rfl
    have hw : writeAt (s.kernel.fs.data I) w.length (s.kernel.userBytes (place pos) src.length) =
        some ((w ++ src) ++ content.drop (w ++ src).length, (w ++ src).length) := by
      rw [h.files.2 I hI, h.loaded pos src hsrc, writeAt_next w content src hfits]
    obtain ⟨k, hcall, hown, hmem, hfs, hout⟩ := call_write h.own hturn hset.mask c.regs (le_refl 3) hopen
      (show permWrite &&& permWrite ≠ 0 by decide) (hset.data_ok hsrc) hw
    refine ⟨_, _, act_returns ht hcall, rfl, Or.inl ⟨I, hI, h12, ?_⟩⟩
    refine Point.after hset h (hrsp.trans h.rsp) hown (fun a _ => by rw [hmem]) ?_ ?_
    · rw [hfs]
      refine ⟨h.files.1, fun J hJ => ?_⟩
      obtain rfl : I = J := Option.some.inj (hI.symm.trans hJ)
      exact Function.update_self _ _ _
    · rw [hout, List.append_nil, h.out]
  · obtain rfl : fd = err ENOENT := hfd.symm.trans hr
    have hcall := call_write_bad_fd h.own hturn hset.mask c.regs (hset.no_fd ENOENT (by decide) (by decide))
      (place pos) src.length
    refine ⟨_, _, act_returns ht hcall.1, rfl, Or.inr ⟨hI, h12, ?_⟩⟩
    refine Point.after hset h (hrsp.trans h.rsp) h.own (fun a _ => rfl) ⟨h.files.1, fun J hJ => ?_⟩ ?_
    · rw [hI] at hJ
      cases hJ
    · rw [hcall.2, List.append_nil, h.out]

variable (n : ℤ) (gpr : Reg → ℕ) (rsp last : ℕ)

/-- open -/
theorem wblock_start : (program processW place i).Block (WAt place i p file content) n ⟨gpr, rsp, 0, last⟩ := by
  obtain ⟨t, halone, hpc, hrsp, ht⟩ : ∃ t, (program processW place i).alone 4 ⟨gpr, rsp, 0, last⟩ = some t ∧ t.pc = 4 ∧
      t.rsp = rsp ∧ Calls processW t 2 (place 23) 9 1 := ⟨_, rfl, rfl, rfl, ⟨rfl, rfl, rfl, rfl, rfl⟩⟩
  refine block_call halone ht fun s h hturn c => ?_
  replace h : WPoint place i p file content [] 22 p.fds n ⟨gpr, rsp, 0, last⟩ s := h
  have hname : s.kernel.userBytes (place 23) 9 = helloName := h.loaded 23 helloName rfl
  have hlen : 0 < 9 ∧ 9 ≤ maxPath := by decide
  have hneed : neededPerms 1 = some permWrite := by decide
  have hrange : userRangeOk p (place 23) 9 = true := hset.data_ok (show processW[23]? = some (.data helloName) from rfl)
  have hgrant : p.granted (s.kernel.userBytes (place 23) 9) &&& permWrite = permWrite := by
    rw [hname, Process.granted, hset.grants]
    decide
  have hlook : s.kernel.fs.lookup (s.kernel.userBytes (place 23) 9) = file := by rw [hname]; exact h.files.1
  obtain ⟨gpr', rsp', pc, last'⟩ := t
  subst hpc hrsp
  cases file with
  | some I =>
    have hinst : installFd p.fds ⟨permWrite, I, 0⟩ = some (3, openFds ⟨permWrite, I, 0⟩) := by
      rw [hset.fds]
      rfl
    obtain ⟨k, hcall, hown, hmem, hfs⟩ := call_open h.own hturn hset.mask c.regs hneed hlen hrange hgrant hlook hinst
    refine ⟨_, _, 17, act_returns ht hcall, Or.inl ⟨I, rfl, rfl, ?_⟩, by rw [h.left]; omega⟩
    refine Point.after hset h h.rsp hown (fun a _ => by rw [hmem]) (hfs ▸ h.files) ?_
    exact quiet_out (by decide) _ _ _ _ h.out
  | none =>
    have hcall := call_open_missing h.own hturn hset.mask c.regs hneed hlen hrange hgrant hlook
    refine ⟨_, _, 17, act_returns ht hcall, Or.inr ⟨rfl, rfl, ?_⟩, by rw [h.left]; omega⟩
    refine Point.after hset h h.rsp h.own (fun a _ => rfl) h.files ?_
    exact quiet_out (by decide) _ _ _ _ h.out

omit hset in
theorem Holding.left_eq {w : Bytes} {left : ℤ} {r : Reg} {t : Thread Reg} {s : Sys}
    (h : Holding place i p file content w left r n t s) : n = left := by
  rcases h with ⟨I, -, -, h⟩ | ⟨-, -, h⟩
  · exact h.left
  · exact h.left

/-- the first write -/
theorem wblock_opened : (program processW place i).Block (WAt place i p file content) n ⟨gpr, rsp, 5, last⟩ := by
  obtain ⟨t, halone, hpc, hrsp, h12, ht⟩ : ∃ t, (program processW place i).alone 5 ⟨gpr, rsp, 5, last⟩ = some t ∧
      t.pc = 10 ∧ t.rsp = rsp ∧ t.gpr .r12 = gpr .rax ∧ Calls processW t 1 (gpr .rax) (place 24) 3 :=
    ⟨_, rfl, rfl, rfl, rfl, ⟨rfl, rfl, rfl, rfl, rfl⟩⟩
  refine block_call halone ht fun s h hturn c => ?_
  replace h : Holding place i p file content [] 17 .rax n ⟨gpr, rsp, 5, last⟩ s := h
  obtain ⟨⟨gpr', rsp', pc, last'⟩, s', hact, hpc', h'⟩ := write_piece hset wText₁ 11 h rfl rfl rfl
    (by decide) hturn c hrsp h12 ht
  rw [hpc] at hpc'
  subst hpc'
  exact ⟨_, s', 11, hact, h', by rw [h.left_eq]; omega⟩

/-- the second write, at the offset that the first one left -/
theorem wblock_written : (program processW place i).Block (WAt place i p file content) n ⟨gpr, rsp, 11, last⟩ := by
  obtain ⟨t, halone, hpc, hrsp, h12, ht⟩ : ∃ t, (program processW place i).alone 4 ⟨gpr, rsp, 11, last⟩ = some t ∧
      t.pc = 15 ∧ t.rsp = rsp ∧ t.gpr .r12 = gpr .r12 ∧ Calls processW t 1 (gpr .r12) (place 25) 20 :=
    ⟨_, rfl, rfl, rfl, rfl, ⟨rfl, rfl, rfl, rfl, rfl⟩⟩
  refine block_call halone ht fun s h hturn c => ?_
  replace h : Holding place i p file content wText₁ 11 .r12 n ⟨gpr, rsp, 11, last⟩ s := h
  obtain ⟨⟨gpr', rsp', pc, last'⟩, s', hact, hpc', h'⟩ := write_piece hset wText₂ 6 h rfl rfl rfl
    (by decide) hturn c hrsp h12 ht
  rw [hpc] at hpc'
  subst hpc'
  exact ⟨_, s', 6, hact, h', by rw [h.left_eq]; omega⟩

/-- close -/
theorem wblock_done : (program processW place i).Block (WAt place i p file content) n ⟨gpr, rsp, 16, last⟩ := by
  obtain ⟨t, halone, hpc, hrsp, ht⟩ : ∃ t, (program processW place i).alone 2 ⟨gpr, rsp, 16, last⟩ = some t ∧
      t.pc = 18 ∧ t.rsp = rsp ∧ Calls processW t 3 (gpr .r12) (gpr .rsi) (gpr .rdx) :=
    ⟨_, rfl, rfl, rfl, ⟨rfl, rfl, rfl, rfl, rfl⟩⟩
  refine block_call halone ht fun s h hturn c => ?_
  replace h : Holding place i p file content (wText₁ ++ wText₂) 6 .r12 n ⟨gpr, rsp, 16, last⟩ s := h
  rcases h with ⟨I, hI, hr12, h⟩ | ⟨hI, hr12, h⟩
  · rw [show gpr .r12 = 3 from hr12] at ht
    have hfd : (openFds ⟨permWrite, I, (wText₁ ++ wText₂).length⟩)[3]? = some (some ⟨permWrite, I, _⟩) := rfl
    obtain ⟨k, hcall, hown, hmem, hfs⟩ := call_close h.own hturn hset.mask c.regs hfd (gpr .rsi) (gpr .rdx)
    have hact : (program processW place i).act c t s = _ := act_returns ht hcall
    obtain ⟨gpr', rsp', pc, last'⟩ := t
    subst hpc
    refine ⟨_, _, 3, hact, ⟨[none, none, none, none], by simp, ?_⟩, by rw [h.left]; omega⟩
    refine Point.after hset h (hrsp.trans h.rsp) hown (fun a _ => by rw [hmem]) (hfs ▸ h.files) ?_
    exact quiet_out (by decide) _ _ _ _ h.out
  · rw [show gpr .r12 = err ENOENT from hr12] at ht
    have hcall := (call_bad_fd h.own hturn hset.mask c.regs (hset.no_fd ENOENT (by decide) (by decide)) (gpr .rsi)
      (gpr .rdx)).2
    have hact : (program processW place i).act c t s = _ := act_returns ht hcall
    obtain ⟨gpr', rsp', pc, last'⟩ := t
    subst hpc
    refine ⟨_, _, 3, hact, ⟨p.fds, by rw [hset.fds]; simp, ?_⟩, by rw [h.left]; omega⟩
    refine Point.after hset h (hrsp.trans h.rsp) h.own (fun a _ => rfl) h.files ?_
    exact quiet_out (by decide) _ _ _ _ h.out

/-- exit -/
theorem wblock_closed : (program processW place i).Block (WAt place i p file content) n ⟨gpr, rsp, 19, last⟩ := by
  obtain ⟨t, halone, hrsp, ht⟩ : ∃ t, (program processW place i).alone 2 ⟨gpr, rsp, 19, last⟩ = some t ∧
      t.rsp = rsp ∧ Calls processW t 60 0 (gpr .rsi) (gpr .rdx) :=
    ⟨_, rfl, rfl, ⟨rfl, rfl, rfl, rfl, rfl⟩⟩
  refine block_call halone ht fun s h hturn c => ?_
  obtain ⟨fds, hfds, h⟩ := h
  obtain ⟨k, hcall, hown, hmem, hfs⟩ := call_exit h.own hturn hset.mask c.regs 0 (gpr .rsi) (gpr .rdx)
  have hact : (program processW place i).act c t s = _ := act_exits ht hcall
  obtain ⟨gpr', rsp', pc, last'⟩ := t
  refine ⟨_, _, 0, hact, ⟨fds, hfds, ?_⟩, by rw [h.left]; omega⟩
  exact Point.after hset h (hrsp.trans h.rsp) hown (fun a _ => by rw [hmem]) (hfs ▸ h.files) h.out

/-- every cut point but the last starts a block -/
theorem wblocks {n : ℤ} {t : Thread Reg} {s : Sys} (h : WAt place i p file content n t s) :
    (program processW place i).done t ∨ (program processW place i).Block (WAt place i p file content) n t := by
  obtain ⟨gpr, rsp, pc, last⟩ := t
  have hpc : pc = 0 ∨ pc = 5 ∨ pc = 11 ∨ pc = 16 ∨ pc = 19 ∨ pc = 26 := by
    unfold WAt at h
    split at h <;> simp_all
  rcases hpc with rfl | rfl | rfl | rfl | rfl | rfl
  · exact Or.inr (wblock_start hset n gpr rsp last)
  · exact Or.inr (wblock_opened hset n gpr rsp last)
  · exact Or.inr (wblock_written hset n gpr rsp last)
  · exact Or.inr (wblock_done hset n gpr rsp last)
  · exact Or.inr (wblock_closed hset n gpr rsp last)
  · exact Or.inl (Nat.le_refl _)

end Blocks

/-! ## Runs -/

/-- at every cut point a text stands over the start of the file: a part of it that the writes so far make -/
theorem WAt.text {n : ℤ} {t : Thread Reg} {s : Sys} (h : WAt place i p file content n t s) :
    0 ≤ n ∧ s.out = [] ∧ ∃ w, (w = [] ∨ w = wText₁ ∨ w = wText₁ ++ wText₂) ∧
      FileIs helloName file (w ++ content.drop w.length) s.kernel.fs := by
  have point : ∀ {w : Bytes} {left : ℤ} {fds : List (Option OpenFile)}, 0 ≤ left →
      (w = [] ∨ w = wText₁ ∨ w = wText₁ ++ wText₂) → WPoint place i p file content w left fds n t s →
      0 ≤ n ∧ s.out = [] ∧ ∃ w, (w = [] ∨ w = wText₁ ∨ w = wText₁ ++ wText₂) ∧
        FileIs helloName file (w ++ content.drop w.length) s.kernel.fs :=
    fun hleft hw h => ⟨h.left ▸ hleft, h.out, _, hw, h.files⟩
  have hold : ∀ {w : Bytes} {left : ℤ} {r : Reg}, 0 ≤ left → (w = [] ∨ w = wText₁ ∨ w = wText₁ ++ wText₂) →
      Holding place i p file content w left r n t s → 0 ≤ n ∧ s.out = [] ∧ ∃ w,
        (w = [] ∨ w = wText₁ ∨ w = wText₁ ++ wText₂) ∧ FileIs helloName file (w ++ content.drop w.length) s.kernel.fs := by
    rintro w left r hleft hw (⟨I, -, -, h⟩ | ⟨-, -, h⟩)
    · exact point hleft hw h
    · exact point hleft hw h
  unfold WAt at h
  split at h
  · exact point (by decide) (Or.inl rfl) h
  · exact hold (by decide) (Or.inl rfl) h
  · exact hold (by decide) (Or.inr (Or.inl rfl)) h
  · exact hold (by decide) (Or.inr (Or.inr rfl)) h
  · obtain ⟨fds, -, h⟩ := h
    exact point (by decide) (Or.inr (Or.inr rfl)) h
  · obtain ⟨fds, -, h⟩ := h
    exact point (by decide) (Or.inr (Or.inr rfl)) h
  · exact h.elim

theorem WAt.at_end {n : ℤ} {t : Thread Reg} {s : Sys} (h : WAt place i p file content n t s)
    (hpc : processW.length ≤ t.pc) :
    FileIs helloName file (wText₁ ++ wText₂ ++ content.drop 23) s.kernel.fs ∧
      ∃ q, s.kernel.sched.processes i = some q ∧ ∀ f, some f ∉ q.fds := by
  replace hpc : 26 ≤ t.pc := hpc
  unfold WAt at h
  split at h
  · omega
  · omega
  · omega
  · omega
  · omega
  · obtain ⟨fds, hfds, h⟩ := h
    obtain ⟨q, hq, hs⟩ := h.own
    have hq' : q.fds = fds := hs.fds
    exact ⟨h.files, q, hq, hq' ▸ hfds⟩
  · exact h.elim

end

end Tomorrow
