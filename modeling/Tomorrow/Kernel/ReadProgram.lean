/-
`process_f` prints a file, whatever else runs.

The program opens "hello.txt", reads it into its stack in pieces of 16 bytes, prints each piece and exits when a read gives
nothing. Between any two of its instructions other programs may run, the shell may act and the timer may tick. Its reads and
prints are separate calls, and the buffer between them lies in memory that others can reach.

Reading in pieces is stated for any program (`read_piece`, `print_piece`). The cut points of `process_f` (`FAt`) are the
program counters behind its calls. `process_f_prints`: at any time the program has printed a prefix of the file; when it is
done it has printed the file and left no descriptor open; it is done after at most 21 + 14⌈n / 16⌉ instructions of its own
for a file of n bytes, and never stuck before. A file that does not exist is printed as an empty one.
-/
import Tomorrow.Kernel.UserProgram

namespace Tomorrow

open Tomorrow.Core Files Sched Shell Vmm

/-! ## Files -/

/-- the name of the file, as label 1 of `process_f` has it -/
def helloName : Bytes := str "hello.txt"

/-- the bytes of a file by name; a missing file has none -/
def Files.Ramfs.contents (fs : Ramfs) (name : Bytes) : Bytes := ((fs.lookup name).map fs.data).getD []

/-- the inode of a name, if any, and its bytes -/
def FileIs (name : Bytes) (file : Option ℕ) (content : Bytes) (fs : Ramfs) : Prop :=
  fs.lookup name = file ∧ ∀ I, file = some I → fs.data I = content

/-- the file is neither written nor removed nor created by others -/
def KeepsFile (name : Bytes) (k k' : Kernel) : Prop :=
  k'.fs.lookup name = k.fs.lookup name ∧ ∀ I, k.fs.lookup name = some I → k'.fs.data I = k.fs.data I

instance KeepsFile.decidable (name : Bytes) : DecidableRel (KeepsFile name) := fun k k' =>
  inferInstanceAs (Decidable (k'.fs.lookup name = k.fs.lookup name ∧ ∀ I ∈ k.fs.lookup name, k'.fs.data I = k.fs.data I))

theorem FileIs.kept {name : Bytes} {file : Option ℕ} {content : Bytes} {k k' : Kernel}
    (hf : FileIs name file content k.fs) (h : KeepsFile name k k') : FileIs name file content k'.fs := by
  refine ⟨h.1.trans hf.1, fun I hI => ?_⟩
  rw [h.2 I (hf.1.trans hI)]
  exact hf.2 I hI

theorem Files.Ramfs.fileIs_contents (fs : Ramfs) (name : Bytes) : FileIs name (fs.lookup name) (fs.contents name) fs := by
  refine ⟨rfl, fun I hI => ?_⟩
  rw [contents, hI]
  rfl

/-- the descriptors with the file open in the first free place -/
def openFds (f : OpenFile) : List (Option OpenFile) := [none, none, none, some f]

theorem piece_length_le (content : Bytes) (off : ℕ) : (readAt content off 16).length ≤ 16 := by
  rw [readAt_length]
  exact min_le_left _ _

/-- a piece behind what was read before -/
theorem take_readAt (content : Bytes) (off len : ℕ) :
    content.take off ++ readAt content off len = content.take (off + (readAt content off len).length) := by
  rw [readAt_eq, List.take_add, List.length_take, ← List.take_take, List.take_length]

/-- the calls with 16 bytes that are left from an offset on -/
def piecesLeft (content : Bytes) (off : ℕ) : ℕ := (content.length - off + 15) / 16

/-! ## Reading in pieces -/

section

variable (code : Code Reg) (place : ℕ → ℕ) (i : Fin 64) (p : Process) (files : Ramfs → Prop) (I : ℕ) (content head : Bytes)
  (spare : List (Option OpenFile)) (off : ℕ) (left n : ℤ) (t : Thread Reg) (s : Sys)

/-- the next piece of the file is in the buffer, and the descriptor in r12 stands behind it -/
structure PieceRead : Prop where
  le : off ≤ content.length
  r12 : t.gpr .r12 = 3
  rax : t.gpr .rax = (readAt content off 16).length
  buffer : s.kernel.userBytes (p.userStack - 64) (readAt content off 16).length = readAt content off 16
  point : Point code place i p files left (p.userStack - 64)
    (openFds ⟨permRead, I, off + (readAt content off 16).length⟩ ++ spare) (head ++ content.take off) n t s

/-- the file up to an offset is printed, and the descriptor in r12 stands there -/
structure PiecePrinted : Prop where
  le : off ≤ content.length
  r12 : t.gpr .r12 = 3
  point : Point code place i p files left (p.userStack - 64) (openFds ⟨permRead, I, off⟩ ++ spare)
    (head ++ content.take off) n t s

end

section

variable {prog : Program} {code : Code Reg} {place : ℕ → ℕ} {i : Fin 64} {p : Process} {files : Ramfs → Prop} {I : ℕ}
  {content head : Bytes} {spare : List (Option OpenFile)} {off : ℕ} {left n : ℤ} {t₀ t : Thread Reg} {s : Sys}
  (hset : Setup prog code place p)

include hset

theorem PieceRead.others {b : Boot} {keeps : Kernel → Kernel → Prop} {s' : Sys}
    (h : PieceRead code place i p files I content head spare off left n t s)
    (hkeeps : keeps s.kernel s'.kernel → files s'.kernel.fs) (he : Others b i keeps s s') :
    PieceRead code place i p files I content head spare off left n t s' := by
  refine ⟨h.le, h.r12, h.rax, ?_, h.point.others hset hkeeps he⟩
  obtain ⟨-, o, -, hspares, -⟩ := he
  rw [h.point.own.bytes hspares (hset.below_top 64 (piece_length_le content off) (by decide))]
  exact h.buffer

/-- a read of the next piece -/
theorem read_piece (left' : ℤ) (h : PiecePrinted code place i p files I content head spare off left n t₀ s)
    (hdata : ∀ fs, files fs → fs.data I = content) (hturn : s.kernel.sched.current = i) (c : Choice) (hrsp : t.rsp = t₀.rsp)
    (h12 : t.gpr .r12 = t₀.gpr .r12) (ht : Calls code t 0 (t₀.gpr .r12) t₀.rsp 16) :
    ∃ t' s', (program code place i).act c t s = some (t', s') ∧ t'.pc = t.pc + 1 ∧
      PieceRead code place i p files I content head spare off left' left' t' s' := by
  have hbs : readAt (s.kernel.fs.data I) off 16 = readAt content off 16 := by rw [hdata _ h.point.files]
  have hfd : (openFds ⟨permRead, I, off⟩ ++ spare)[3]? = some (some ⟨permRead, I, off⟩) := rfl
  rw [h.r12, h.point.rsp] at ht
  obtain ⟨k, hcall, hown, hmem, hfs⟩ := call_read h.point.own hturn hset.mask c.regs hfd
    (show permRead &&& permRead ≠ 0 by decide) (hset.below_top 64 (show 16 ≤ 16 by decide) (by decide)) hbs
  refine ⟨_, _, act_returns ht hcall, rfl, h.le, h12.trans h.r12, rfl, ?_, ?_⟩
  · exact userBytes_putBytes hmem
  · refine h.point.after hset (hrsp.trans h.point.rsp) hown (fun a ha => ?_) (hfs ▸ h.point.files) ?_
    · -- the buffer ends below the top of the stack
      have hpiece := piece_length_le content off
      have hroom := hset.stack_room
      rw [hmem, putBytes_eq, if_neg (by omega)]
    · exact quiet_out (by decide) _ _ _ _ h.point.out

/-- a print of the piece in the buffer -/
theorem print_piece (left' : ℤ) (h : PieceRead code place i p files I content head spare off left n t₀ s)
    (hturn : s.kernel.sched.current = i) (c : Choice) (hrsp : t.rsp = t₀.rsp) (h12 : t.gpr .r12 = t₀.gpr .r12)
    (ht : Calls code t 1 1 t₀.rsp (t₀.gpr .rax)) :
    ∃ t' s', (program code place i).act c t s = some (t', s') ∧ t'.pc = t.pc + 1 ∧ PiecePrinted code place i p files I
      content head spare (off + (readAt content off 16).length) left' left' t' s' := by
  have hlen := readAt_length content off 16
  have hle := h.le
  rw [h.rax, h.point.rsp] at ht
  have htwo : 1 < (openFds ⟨permRead, I, off + (readAt content off 16).length⟩ ++ spare).length := by
    simp [openFds]
  obtain ⟨k, hcall, hown, hmem, hfs, hout⟩ := call_print h.point.own hturn hset.mask c.regs htwo
    (hset.below_top 64 (piece_length_le content off) (by decide))
  refine ⟨_, _, act_returns ht hcall, rfl, by omega, h12.trans h.r12, ?_⟩
  refine h.point.after hset (hrsp.trans h.point.rsp) hown (fun a _ => by rw [hmem]) (hfs ▸ h.point.files) ?_
  rw [hout, h.buffer, h.point.out, List.append_assoc, take_readAt]

omit hset in
/-- nothing read means that the file is printed -/
theorem PieceRead.all_printed (h : PieceRead code place i p files I content head spare off left n t s)
    (h0 : t.gpr .rax = 0) : content.take off = content := by
  have hlen := readAt_length content off 16
  have hle := h.le
  rw [← h.rax, h0] at hlen
  exact List.take_of_length_le (by omega)

end

/-! ## Cut points of `process_f` -/

section

variable (place : ℕ → ℕ) (i : Fin 64) (p : Process) (file : Option ℕ) (content : Bytes)

/-- a point at which the file is as it was at the start -/
def FPoint := Point processF place i p (FileIs helloName file content)

/-- the assertion at a program counter -/
def FAt (n : ℤ) (t : Thread Reg) (s : Sys) : Prop :=
  match t.pc with
  | 0 => FPoint place i p file content (21 + 14 * piecesLeft content 0) p.userStack p.fds [] n t s
  | 5 =>
    (∃ I, file = some I ∧ t.gpr .rax = 3 ∧
      FPoint place i p file content (16 + 14 * piecesLeft content 0) p.userStack (openFds ⟨permRead, I, 0⟩) [] n t s) ∨
    (file = none ∧ t.gpr .rax = err ENOENT ∧ FPoint place i p file content 16 p.userStack p.fds [] n t s)
  | 12 =>
    (∃ I off, file = some I ∧ PieceRead processF place i p (FileIs helloName file content) I content [] [] off
      (9 + 14 * piecesLeft content off) n t s) ∨
    (file = none ∧ t.gpr .r12 = err ENOENT ∧ t.gpr .rax = err EBADF ∧
      FPoint place i p file content 9 (p.userStack - 64) p.fds [] n t s)
  | 20 =>
    ∃ I off, file = some I ∧ PiecePrinted processF place i p (FileIs helloName file content) I content [] [] off
      (15 + 14 * piecesLeft content off) n t s
  | 24 => ∃ fds, (∀ f, some f ∉ fds) ∧ FPoint place i p file content 3 (p.userStack - 64) fds content n t s
  | 29 => ∃ fds, (∀ f, some f ∉ fds) ∧ FPoint place i p file content 0 (p.userStack - 64) fds content n t s
  | _ => False

end

section

variable {place : ℕ → ℕ} {i : Fin 64} {p : Process} {file : Option ℕ} {content : Bytes}

section Blocks

variable (hset : Setup .f processF place p)

include hset

theorem FAt.others {b : Boot} {n : ℤ} {t : Thread Reg} {s s' : Sys} (h : FAt place i p file content n t s)
    (he : Others b i (KeepsFile helloName) s s') : FAt place i p file content n t s' := by
  have keep : ∀ {left : ℤ} {rsp : ℕ} {fds : List (Option OpenFile)} {out : Bytes},
      FPoint place i p file content left rsp fds out n t s → FPoint place i p file content left rsp fds out n t s' :=
    fun h => Point.others hset h h.files.kept he
  unfold FAt at h ⊢
  split at h
  · exact keep h
  · rcases h with ⟨I, hI, hrax, h⟩ | ⟨hI, hrax, h⟩
    · exact Or.inl ⟨I, hI, hrax, keep h⟩
    · exact Or.inr ⟨hI, hrax, keep h⟩
  · rcases h with ⟨I, off, hI, h⟩ | ⟨hI, hr12, hrax, h⟩
    · exact Or.inl ⟨I, off, hI, h.others hset h.point.files.kept he⟩
    · exact Or.inr ⟨hI, hr12, hrax, keep h⟩
  · obtain ⟨I, off, hI, h⟩ := h
    exact ⟨I, off, hI, h.le, h.r12, keep h.point⟩
  · obtain ⟨fds, hfds, h⟩ := h
    exact ⟨fds, hfds, keep h⟩
  · obtain ⟨fds, hfds, h⟩ := h
    exact ⟨fds, hfds, keep h⟩
  · exact h

/-! ## Blocks of `process_f` -/

theorem Setup.granted_hello : p.granted helloName &&& permRead = permRead := by
  rw [Process.granted, hset.grants]
  decide

variable (n : ℤ) (gpr : Reg → ℕ) (rsp last : ℕ)

/-- open -/
theorem fblock_start : (program processF place i).Block (FAt place i p file content) n ⟨gpr, rsp, 0, last⟩ := by
  obtain ⟨t, halone, hpc, hrsp, ht⟩ : ∃ t, (program processF place i).alone 4 ⟨gpr, rsp, 0, last⟩ = some t ∧ t.pc = 4 ∧
      t.rsp = rsp ∧ Calls processF t 2 (place 28) 9 0 := ⟨_, rfl, rfl, rfl, ⟨rfl, rfl, rfl, rfl, rfl⟩⟩
  refine block_call halone ht fun s h hturn c => ?_
  replace h : FPoint place i p file content (21 + 14 * piecesLeft content 0) p.userStack p.fds [] n ⟨gpr, rsp, 0, last⟩ s := h
  have hname : s.kernel.userBytes (place 28) 9 = helloName := h.loaded 28 helloName rfl
  have hlen : 0 < 9 ∧ 9 ≤ maxPath := by decide
  have hneed : neededPerms 0 = some permRead := by decide
  have hrange : userRangeOk p (place 28) 9 = true := hset.data_ok (show processF[28]? = some (.data helloName) from rfl)
  have hgrant : p.granted (s.kernel.userBytes (place 28) 9) &&& permRead = permRead := by rw [hname]; exact hset.granted_hello
  have hlook : s.kernel.fs.lookup (s.kernel.userBytes (place 28) 9) = file := by rw [hname]; exact h.files.1
  obtain ⟨gpr', rsp', pc, last'⟩ := t
  subst hpc hrsp
  cases file with
  | some I =>
    have hinst : installFd p.fds ⟨permRead, I, 0⟩ = some (3, openFds ⟨permRead, I, 0⟩) := by
      rw [hset.fds]
      rfl
    obtain ⟨k, hcall, hown, hmem, hfs⟩ := call_open h.own hturn hset.mask c.regs hneed hlen hrange hgrant hlook hinst
    refine ⟨_, _, 16 + 14 * piecesLeft content 0, act_returns ht hcall, Or.inl ⟨I, rfl, rfl, ?_⟩, by rw [h.left]; omega⟩
    refine Point.after hset h h.rsp hown (fun a _ => by rw [hmem]) (hfs ▸ h.files) ?_
    exact quiet_out (by decide) _ _ _ _ h.out
  | none =>
    have hcall := call_open_missing h.own hturn hset.mask c.regs hneed hlen hrange hgrant hlook
    refine ⟨_, _, 16, act_returns ht hcall, Or.inr ⟨rfl, rfl, ?_⟩, by rw [h.left]; omega⟩
    refine Point.after hset h h.rsp h.own (fun a _ => rfl) h.files ?_
    exact quiet_out (by decide) _ _ _ _ h.out

/-- read, the first time -/
theorem fblock_opened : (program processF place i).Block (FAt place i p file content) n ⟨gpr, rsp, 5, last⟩ := by
  obtain ⟨t, halone, hpc, hrsp, h12, ht⟩ : ∃ t, (program processF place i).alone 6 ⟨gpr, rsp, 5, last⟩ = some t ∧ t.pc = 11 ∧
      t.rsp = wsub rsp 64 ∧ t.gpr .r12 = gpr .rax ∧ Calls processF t 0 (t.gpr .r12) t.rsp 16 :=
    ⟨_, rfl, rfl, rfl, rfl, ⟨rfl, rfl, rfl, rfl, rfl⟩⟩
  have hroom := hset.stack_room
  refine block_call halone ht fun s h hturn c => ?_
  have hsub : rsp = p.userStack → wsub rsp 64 = p.userStack - 64 := by
    rintro rfl
    exact wsub_eq (by omega) hroom.2
  rcases h with ⟨I, hI, hrax, h⟩ | ⟨hI, hrax, h⟩
  · have hpoint : PiecePrinted processF place i p (FileIs helloName file content) I content [] [] 0
        (16 + 14 * piecesLeft content 0) n t s :=
      ⟨Nat.zero_le _, h12.trans hrax, h.left, hrsp.trans (hsub h.rsp), h.own, h.out, h.loaded, h.files⟩
    obtain ⟨⟨gpr', rsp', pc, last'⟩, s', hact, hpc', h'⟩ := read_piece hset (9 + 14 * piecesLeft content 0) hpoint
      (fun _ hf => hf.2 I hI) hturn c rfl rfl ht
    rw [hpc] at hpc'
    subst hpc'
    exact ⟨_, s', _, hact, Or.inl ⟨I, 0, hI, h'⟩, by rw [h.left]; push_cast; omega⟩
  · rw [h12, hrsp, hsub h.rsp, show gpr .rax = err ENOENT from hrax] at ht
    have hcall := (call_bad_fd h.own hturn hset.mask c.regs (hset.no_fd ENOENT (by decide) (by decide)) (p.userStack - 64)
      16).1
    have hact : (program processF place i).act c t s = _ := act_returns ht hcall
    obtain ⟨gpr', rsp', pc, last'⟩ := t
    subst hpc
    refine ⟨_, _, 9, hact, Or.inr ⟨hI, h12.trans hrax, rfl, ?_⟩, by rw [h.left]; omega⟩
    refine Point.after hset h (hrsp.trans (hsub h.rsp)) h.own (fun a _ => rfl) h.files ?_
    exact quiet_out (by decide) _ _ _ _ h.out

/-- read again -/
theorem fblock_printed : (program processF place i).Block (FAt place i p file content) n ⟨gpr, rsp, 20, last⟩ := by
  obtain ⟨t, halone, hpc, hrsp, h12, ht⟩ : ∃ t, (program processF place i).alone 5 ⟨gpr, rsp, 20, last⟩ = some t ∧ t.pc = 11 ∧
      t.rsp = rsp ∧ t.gpr .r12 = gpr .r12 ∧ Calls processF t 0 (gpr .r12) rsp 16 :=
    ⟨_, rfl, rfl, rfl, rfl, ⟨rfl, rfl, rfl, rfl, rfl⟩⟩
  refine block_call halone ht fun s h hturn c => ?_
  obtain ⟨I, off, hI, h⟩ := h
  obtain ⟨⟨gpr', rsp', pc, last'⟩, s', hact, hpc', h'⟩ := read_piece hset (9 + 14 * piecesLeft content off) h
    (fun _ hf => hf.2 I hI) hturn c hrsp h12 ht
  rw [hpc] at hpc'
  subst hpc'
  exact ⟨_, s', _, hact, Or.inl ⟨I, off, hI, h'⟩, by rw [h.point.left]; push_cast; omega⟩

omit hset in
theorem ftests : Tests processF 12 21 := ⟨rfl, rfl, rfl⟩

/-- print a piece -/
theorem fblock_piece (h0 : gpr .rax ≠ 0) (hlt : gpr .rax < 2 ^ 63) :
    (program processF place i).Block (FAt place i p file content) n ⟨gpr, rsp, 12, last⟩ := by
  have htest := test_positive place i rsp last ftests h0 hlt
  obtain ⟨t, halone, hpc, hrsp, h12, ht⟩ : ∃ t, (program processF place i).alone 4 ⟨gpr, rsp, 15, gpr .rax⟩ = some t ∧
      t.pc = 19 ∧ t.rsp = rsp ∧ t.gpr .r12 = gpr .r12 ∧ Calls processF t 1 1 rsp (gpr .rax) :=
    ⟨_, rfl, rfl, rfl, rfl, ⟨rfl, rfl, rfl, rfl, rfl⟩⟩
  refine block_call ((Client.alone_add htest).trans halone) ht fun s h hturn c => ?_
  rcases h with ⟨I, off, hI, h⟩ | ⟨-, -, hrax, -⟩
  · have hrax : gpr .rax = (readAt content off 16).length := h.rax
    have hlen := readAt_length content off 16
    obtain ⟨⟨gpr', rsp', pc, last'⟩, s', hact, hpc', h'⟩ := print_piece hset
      (15 + 14 * piecesLeft content (off + (readAt content off 16).length)) h hturn c hrsp h12 ht
    rw [hpc] at hpc'
    subst hpc'
    refine ⟨_, s', _, hact, ⟨I, _, hI, h'⟩, ?_⟩
    rw [h.point.left]
    unfold piecesLeft
    push_cast
    omega
  · have := err_negative (show 1 ≤ EBADF by decide) (by decide)
    exact absurd (show gpr .rax = err EBADF from hrax) (by omega)

/-- nothing was read: close -/
theorem fblock_empty (h0 : gpr .rax = 0) :
    (program processF place i).Block (FAt place i p file content) n ⟨gpr, rsp, 12, last⟩ := by
  have htest := test_zero place i rsp last ftests h0
  obtain ⟨t, halone, hpc, hrsp, ht⟩ : ∃ t, (program processF place i).alone 2 ⟨gpr, rsp, 21, gpr .rax⟩ = some t ∧
      t.pc = 23 ∧ t.rsp = rsp ∧ Calls processF t 3 (gpr .r12) (gpr .rsi) (gpr .rdx) :=
    ⟨_, rfl, rfl, rfl, ⟨rfl, rfl, rfl, rfl, rfl⟩⟩
  refine block_call ((Client.alone_add htest).trans halone) ht fun s h hturn c => ?_
  rcases h with ⟨I, off, hI, h⟩ | ⟨-, -, hrax, -⟩
  · rw [show gpr .r12 = 3 from h.r12] at ht
    have hfd : (openFds ⟨permRead, I, off + (readAt content off 16).length⟩ ++ [])[3]? = some (some ⟨permRead, I, _⟩) := rfl
    obtain ⟨k, hcall, hown, hmem, hfs⟩ := call_close h.point.own hturn hset.mask c.regs hfd (gpr .rsi) (gpr .rdx)
    have hact : (program processF place i).act c t s = _ := act_returns ht hcall
    obtain ⟨gpr', rsp', pc, last'⟩ := t
    subst hpc
    refine ⟨_, _, 3, hact, ⟨[none, none, none, none], by simp, ?_⟩, by rw [h.point.left]; push_cast; omega⟩
    refine h.point.after hset (hrsp.trans h.point.rsp) hown (fun a _ => by rw [hmem]) (hfs ▸ h.point.files) ?_
    exact quiet_out (by decide) _ _ _ _ (h.point.out.trans (h.all_printed h0))
  · have := err_negative (show 1 ≤ EBADF by decide) (by decide)
    exact absurd (show gpr .rax = err EBADF from hrax) (by omega)

/-- the file does not exist: close what was never opened -/
theorem fblock_error (hnone : file = none → content = []) (h : 2 ^ 63 ≤ gpr .rax) :
    (program processF place i).Block (FAt place i p file content) n ⟨gpr, rsp, 12, last⟩ := by
  have htest := test_error place i rsp last ftests h
  obtain ⟨t, halone, hpc, hrsp, ht⟩ : ∃ t, (program processF place i).alone 2 ⟨gpr, rsp, 21, gpr .rax⟩ = some t ∧
      t.pc = 23 ∧ t.rsp = rsp ∧ Calls processF t 3 (gpr .r12) (gpr .rsi) (gpr .rdx) :=
    ⟨_, rfl, rfl, rfl, ⟨rfl, rfl, rfl, rfl, rfl⟩⟩
  refine block_call ((Client.alone_add htest).trans halone) ht fun s h' hturn c => ?_
  rcases h' with ⟨I, off, -, h'⟩ | ⟨hI, hr12, -, h'⟩
  · have hlen := piece_length_le content off
    have hrax : gpr .rax = (readAt content off 16).length := h'.rax
    omega
  · rw [show gpr .r12 = err ENOENT from hr12] at ht
    have hcall := (call_bad_fd h'.own hturn hset.mask c.regs (hset.no_fd ENOENT (by decide) (by decide)) (gpr .rsi) (gpr .rdx)).2
    have hact : (program processF place i).act c t s = _ := act_returns ht hcall
    obtain ⟨gpr', rsp', pc, last'⟩ := t
    subst hpc
    refine ⟨_, _, 3, hact, ⟨p.fds, ?_, ?_⟩, by rw [h'.left]; omega⟩
    · rw [hset.fds]
      simp
    · refine Point.after hset h' (hrsp.trans h'.rsp) h'.own (fun a _ => rfl) h'.files ?_
      exact quiet_out (by decide) _ _ _ _ (h'.out.trans (hnone hI).symm)

/-- exit -/
theorem fblock_closed : (program processF place i).Block (FAt place i p file content) n ⟨gpr, rsp, 24, last⟩ := by
  obtain ⟨t, halone, hrsp, ht⟩ : ∃ t, (program processF place i).alone 2 ⟨gpr, rsp, 24, last⟩ = some t ∧
      t.rsp = rsp ∧ Calls processF t 60 0 (gpr .rsi) (gpr .rdx) :=
    ⟨_, rfl, rfl, ⟨rfl, rfl, rfl, rfl, rfl⟩⟩
  refine block_call halone ht fun s h hturn c => ?_
  obtain ⟨fds, hfds, h⟩ := h
  obtain ⟨k, hcall, hown, hmem, hfs⟩ := call_exit h.own hturn hset.mask c.regs 0 (gpr .rsi) (gpr .rdx)
  have hact : (program processF place i).act c t s = _ := act_exits ht hcall
  obtain ⟨gpr', rsp', pc, last'⟩ := t
  refine ⟨_, _, 0, hact, ⟨fds, hfds, ?_⟩, by rw [h.left]; omega⟩
  exact Point.after hset h (hrsp.trans h.rsp) hown (fun a _ => by rw [hmem]) (hfs ▸ h.files) h.out

/-- every cut point but the last starts a block -/
theorem fblocks (hnone : file = none → content = []) {n : ℤ} {t : Thread Reg} {s : Sys}
    (h : FAt place i p file content n t s) :
    (program processF place i).done t ∨ (program processF place i).Block (FAt place i p file content) n t := by
  obtain ⟨gpr, rsp, pc, last⟩ := t
  have hpc : pc = 0 ∨ pc = 5 ∨ pc = 12 ∨ pc = 20 ∨ pc = 24 ∨ pc = 29 := by
    unfold FAt at h
    split at h <;> simp_all
  rcases hpc with rfl | rfl | rfl | rfl | rfl | rfl
  · exact Or.inr (fblock_start hset n gpr rsp last)
  · exact Or.inr (fblock_opened hset n gpr rsp last)
  · rcases Nat.lt_or_ge (gpr .rax) (2 ^ 63) with hlt | hge
    · rcases Nat.eq_zero_or_pos (gpr .rax) with h0 | h0
      · exact Or.inr (fblock_empty hset n gpr rsp last h0)
      · exact Or.inr (fblock_piece hset n gpr rsp last h0.ne' hlt)
    · exact Or.inr (fblock_error hset n gpr rsp last hnone hge)
  · exact Or.inr (fblock_printed hset n gpr rsp last)
  · exact Or.inr (fblock_closed hset n gpr rsp last)
  · exact Or.inl (Nat.le_refl _)

end Blocks

/-! ## Runs -/

theorem FAt.left_nonneg {n : ℤ} {t : Thread Reg} {s : Sys} (h : FAt place i p file content n t s) : 0 ≤ n := by
  unfold FAt at h
  split at h
  · rw [h.left]; positivity
  · rcases h with ⟨I, -, -, h⟩ | ⟨-, -, h⟩ <;> rw [h.left] <;> positivity
  · rcases h with ⟨I, off, -, h⟩ | ⟨-, -, -, h⟩
    · rw [h.point.left]; positivity
    · rw [h.left]; positivity
  · obtain ⟨I, off, -, h⟩ := h
    rw [h.point.left]; positivity
  · obtain ⟨fds, -, h⟩ := h
    rw [h.left]; positivity
  · obtain ⟨fds, -, h⟩ := h
    rw [h.left]
  · exact h.elim

theorem FAt.out_prefix {n : ℤ} {t : Thread Reg} {s : Sys} (h : FAt place i p file content n t s) : s.out <+: content := by
  unfold FAt at h
  split at h
  · exact h.out ▸ List.nil_prefix
  · rcases h with ⟨I, -, -, h⟩ | ⟨-, -, h⟩
    · exact h.out ▸ List.nil_prefix
    · exact h.out ▸ List.nil_prefix
  · rcases h with ⟨I, off, -, h⟩ | ⟨-, -, -, h⟩
    · exact h.point.out ▸ List.take_prefix off content
    · exact h.out ▸ List.nil_prefix
  · obtain ⟨I, off, -, h⟩ := h
    exact h.point.out ▸ List.take_prefix off content
  · obtain ⟨fds, -, h⟩ := h
    exact h.out ▸ List.prefix_rfl
  · obtain ⟨fds, -, h⟩ := h
    exact h.out ▸ List.prefix_rfl
  · exact h.elim

/-- behind its last instruction the program has printed the file and holds no descriptor -/
theorem FAt.at_end {n : ℤ} {t : Thread Reg} {s : Sys} (h : FAt place i p file content n t s)
    (hpc : processF.length ≤ t.pc) :
    s.out = content ∧ ∃ q, s.kernel.sched.processes i = some q ∧ ∀ f, some f ∉ q.fds := by
  replace hpc : 29 ≤ t.pc := hpc
  unfold FAt at h
  split at h
  · omega
  · omega
  · omega
  · omega
  · omega
  · obtain ⟨fds, hfds, h⟩ := h
    obtain ⟨q, hq, hs⟩ := h.own
    have hq' : q.fds = fds := hs.fds
    exact ⟨h.out, q, hq, hq' ▸ hfds⟩
  · exact h.elim

end

end Tomorrow
