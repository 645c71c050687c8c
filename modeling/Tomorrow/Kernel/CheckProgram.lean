/-
`process_x` checks that the kernel refuses what its grants do not allow, and prints what it got.

Three calls should fail: opening "hello.txt" for writing, writing through a descriptor opened for reading, and opening
"readme.txt". After each one the program calls its routine `report`, which prints a label, "ok" for a negative result and
"FAIL" for any other, and the result as a signed decimal number. The routine is called through the stack, keeps its digits
in a buffer on the stack, and fills the buffer from its end by repeated division.

- `ReportAt`: the cut points inside `report`, for any caller (`Job`) and any 64-bit result.
- `process_x_reports`: in every interleaving with events that spare the process and leave the name "hello.txt" as it is,
  the program prints a prefix of the three lines of `checkOutput`, at the end all of them; it makes at most 173 moves, is
  never stuck and leaves no descriptor open.
-/
import Tomorrow.Kernel.ReadProgram
import Tomorrow.Shell.Decimal

namespace Tomorrow

open Tomorrow.Core Files Sched Shell Vmm

/-! ## Numbers in decimal -/

/-- the digits that a loop still has to write; none for 0 -/
def pendingDigits (q : ℕ) : Bytes := ((Nat.digits 10 q).map digitByte).reverse

theorem pendingDigits_step {q : ℕ} (h : q ≠ 0) : pendingDigits q = pendingDigits (q / 10) ++ [digitByte (q % 10)] := by
  unfold pendingDigits
  rw [Nat.digits_def' (by decide) (Nat.pos_of_ne_zero h), List.map_cons, List.reverse_cons]

theorem decimal_eq_pending (n : ℕ) : decimal n = pendingDigits (n / 10) ++ [digitByte (n % 10)] := by
  unfold decimal
  split_ifs with h
  · subst h
    decide
  · exact pendingDigits_step h

theorem decimal_length_le {n : ℕ} (h : n ≤ 2 ^ 63) : (decimal n).length ≤ 19 := by
  unfold decimal
  split_ifs with h0
  · decide
  · rw [List.length_reverse, List.length_map, Nat.digits_length_le_iff (by decide)]
    omega

/-- the absolute value of a 64-bit word -/
def magnitude (v : ℕ) : ℕ := if v < 2 ^ 63 then v else 2 ^ 64 - v

/-- a 64-bit word as a signed decimal number -/
def signedDecimal (v : ℕ) : Bytes := if v < 2 ^ 63 then decimal v else 0x2D :: decimal (2 ^ 64 - v)

/-- labels 20 and 21 -/
def verdict (v : ℕ) : Bytes := if v < 2 ^ 63 then str "FAIL " else str "ok "

theorem magnitude_le {v : ℕ} (h : v < 2 ^ 64) : magnitude v ≤ 2 ^ 63 := by
  unfold magnitude
  split_ifs <;> omega

/-! ## The routine -/

/-- a call of `report`: where it goes back to, the label, the result to print, and what holds around it -/
structure Job where
  back : ℕ
  label : ℕ
  tag : Bytes
  value : ℕ
  out : Bytes
  fds : List (Option OpenFile)
  r12 : ℕ
  /-- the moves left behind the call -/
  left : ℤ

/-- the line that a call prints -/
def Job.line (job : Job) : Bytes := job.tag ++ verdict job.value ++ (signedDecimal job.value ++ [0x0A])

/-- the digits behind the last one -/
def Job.digits (job : Job) : ℕ := (Nat.digits 10 (magnitude job.value / 10)).length

/-- the moves of a call -/
def Job.cost (job : Job) : ℤ := 41 + 7 * job.digits

/-- what a call of `report` relies on -/
structure Job.Ok (job : Job) : Prop where
  back : job.back < processX.length
  tag : processX[job.label]? = some (.data job.tag)
  three : job.tag.length = 3
  value : job.value < 2 ^ 64
  fds : 1 < job.fds.length

/-- the items of a program are in the code pages of its process, in order -/
structure CodePlaced (code : Code Reg) (place : ℕ → ℕ) (p : Process) : Prop where
  inPages : ∀ j < code.length, codeVirt p.pid ≤ place j ∧ place j < codeVirt p.pid + codePages * pageSize
  ordered : ∀ j j', j < j' → j' < code.length → place j < place j'

section

variable (place : ℕ → ℕ) (i : Fin 64) (p : Process) (file : Option ℕ) (job : Job)

/-- the name keeps its inode -/
def NameIs (file : Option ℕ) (fs : Ramfs) : Prop := fs.lookup helloName = file

/-- inside `report`: the return address is on the stack -/
structure InReport (rsp : ℕ) (out : Bytes) (left n : ℤ) (t : Thread Reg) (s : Sys) : Prop where
  r12 : t.gpr .r12 = job.r12
  word : loadWord s.kernel.umem (p.userStack - 8) = place job.back
  point : Point processX place i p (NameIs file) left rsp job.fds out n t s

/-- the text T stands at the end of the buffer, and rsi at its start -/
structure Buffered (T : Bytes) (left n : ℤ) (t : Thread Reg) (s : Sys) : Prop where
  r14 : t.gpr .r14 = job.value
  rsi : t.gpr .rsi = p.userStack - 8 - T.length
  short : T.length ≤ 31
  buffer : s.kernel.userBytes (p.userStack - 8 - T.length) T.length = T
  inside : InReport place i p file job (p.userStack - 40) (job.out ++ job.tag ++ verdict job.value) left n t s

/-- the cut points of `report` -/
def ReportAt (n : ℤ) (t : Thread Reg) (s : Sys) : Prop :=
  match t.pc with
  | 38 => t.gpr .rax = job.value ∧ t.gpr .r13 = place job.label ∧
      InReport place i p file job (p.userStack - 8) job.out (job.left + job.cost) n t s
  | 44 => t.gpr .r14 = job.value ∧
      InReport place i p file job (p.userStack - 8) (job.out ++ job.tag) (job.left + job.cost - 6) n t s
  | 54 => t.gpr .r14 = job.value ∧
      InReport place i p file job (p.userStack - 8) (job.out ++ job.tag ++ verdict job.value) (job.left + job.cost - 14) n t s
  | 58 => Buffered place i p file job [0x0A] (job.left + job.cost - 18) n t s
  | 68 =>
    ∃ q T, t.gpr .rax = q ∧ t.gpr .rcx = 10 ∧ pendingDigits q ++ T = decimal (magnitude job.value) ++ [0x0A] ∧
      Buffered place i p file job T (job.left + 13 + 7 * (Nat.digits 10 q).length) n t s
  | 74 => Buffered place i p file job (signedDecimal job.value ++ [0x0A]) (job.left + 7) n t s
  | 79 => InReport place i p file job (p.userStack - 40) (job.out ++ job.line) (job.left + 2) n t s
  | _ => False

/-- behind the call -/
structure Returned (n : ℤ) (t : Thread Reg) (s : Sys) : Prop where
  r12 : t.gpr .r12 = job.r12
  point : Point processX place i p (NameIs file) job.left p.userStack job.fds (job.out ++ job.line) n t s

end

section Report

variable {place : ℕ → ℕ} {i : Fin 64} {p : Process} {file : Option ℕ} {job : Job} (hset : Setup .x processX place p)

include hset

/-! ### Others -/

theorem InReport.others {b : Boot} {keeps : Kernel → Kernel → Prop} {rsp : ℕ} {out : Bytes} {left n : ℤ} {t : Thread Reg}
    {s s' : Sys} (h : InReport place i p file job rsp out left n t s)
    (hkeeps : keeps s.kernel s'.kernel → NameIs file s'.kernel.fs) (he : Others b i keeps s s') :
    InReport place i p file job rsp out left n t s' := by
  refine ⟨h.r12, ?_, h.point.others hset hkeeps he⟩
  obtain ⟨-, o, -, hspares, -⟩ := he
  have hmem := h.point.own.memory hspares (hset.below_top 8 (le_refl 8) (by decide))
  rw [loadWord_congr hmem]
  exact h.word

theorem Buffered.others {b : Boot} {keeps : Kernel → Kernel → Prop} {T : Bytes} {left n : ℤ} {t : Thread Reg}
    {s s' : Sys} (h : Buffered place i p file job T left n t s)
    (hkeeps : keeps s.kernel s'.kernel → NameIs file s'.kernel.fs) (he : Others b i keeps s s') :
    Buffered place i p file job T left n t s' := by
  refine ⟨h.r14, h.rsi, h.short, ?_, h.inside.others hset hkeeps he⟩
  obtain ⟨-, o, -, hspares, -⟩ := he
  have hshort := h.short
  have hok : userRangeOk p (p.userStack - (8 + T.length)) T.length = true :=
    hset.below_top (8 + T.length) (le_refl _) (by omega)
  rw [Nat.sub_add_eq] at hok
  rw [h.inside.point.own.bytes hspares hok]
  exact h.buffer

theorem ReportAt.others {b : Boot} {keeps : Kernel → Kernel → Prop} {n : ℤ} {t : Thread Reg} {s s' : Sys}
    (h : ReportAt place i p file job n t s) (hkeeps : keeps s.kernel s'.kernel → NameIs file s'.kernel.fs)
    (he : Others b i keeps s s') : ReportAt place i p file job n t s' := by
  unfold ReportAt at h ⊢
  split at h
  · exact ⟨h.1, h.2.1, h.2.2.others hset hkeeps he⟩
  · exact ⟨h.1, h.2.others hset hkeeps he⟩
  · exact ⟨h.1, h.2.others hset hkeeps he⟩
  · exact h.others hset hkeeps he
  · obtain ⟨q, T, hq, hrcx, hT, h⟩ := h
    exact ⟨q, T, hq, hrcx, hT, h.others hset hkeeps he⟩
  · exact h.others hset hkeeps he
  · exact InReport.others hset h hkeeps he
  · exact h

omit hset in
theorem ReportAt.name {n : ℤ} {t : Thread Reg} {s : Sys} (h : ReportAt place i p file job n t s) :
    NameIs file s.kernel.fs := by
  unfold ReportAt at h
  split at h
  · exact h.2.2.point.files
  · exact h.2.point.files
  · exact h.2.point.files
  · exact h.inside.point.files
  · obtain ⟨q, T, -, -, -, h⟩ := h
    exact h.inside.point.files
  · exact h.inside.point.files
  · exact h.point.files
  · exact h.elim

/-! ### Steps -/

/-- a print inside the routine -/
theorem InReport.print {rsp buf len : ℕ} {out text : Bytes} {left n : ℤ} (left' : ℤ) {t₀ t : Thread Reg} {s : Sys}
    (h : InReport place i p file job rsp out left n t₀ s) (hjob : job.Ok) (hok : userRangeOk p buf len = true)
    (htext : s.kernel.userBytes buf len = text) (hturn : s.kernel.sched.current = i) (c : Choice) (hrsp : t.rsp = t₀.rsp)
    (h12 : t.gpr .r12 = t₀.gpr .r12) (ht : Calls processX t 1 1 buf len) :
    ∃ t' s', (program processX place i).act c t s = some (t', s') ∧ t'.pc = t.pc + 1 ∧ t'.gpr .r14 = t.gpr .r14 ∧
      InReport place i p file job rsp (out ++ text) left' left' t' s' := by
  obtain ⟨k, hcall, hown, hmem, hfs, hout⟩ := call_print h.point.own hturn hset.mask c.regs hjob.fds hok
  refine ⟨_, _, act_returns ht hcall, rfl, rfl, h12.trans h.r12, ?_, ?_⟩
  · rw [hmem]
    exact h.word
  · refine h.point.after hset (hrsp.trans h.point.rsp) hown (fun a _ => by rw [hmem]) (hfs ▸ h.point.files) ?_
    rw [hout, htext, h.point.out]

omit hset in
theorem userBytes_update {k : Kernel} {a len : ℕ} {v : UInt8} :
    Kernel.userBytes { k with umem := Function.update k.umem a v } a (len + 1) = v :: k.userBytes (a + 1) len := by
  unfold Kernel.userBytes
  rw [List.range_succ_eq_map, List.map_cons, List.map_map]
  refine congrArg₂ List.cons (Function.update_self a v k.umem) (List.map_congr_left fun j _ => ?_)
  show Function.update k.umem a v (a + (j + 1)) = k.umem (a + 1 + j)
  rw [Function.update_of_ne (by omega), show a + 1 + j = a + (j + 1) by omega]

/-- a byte in front of the text -/
theorem Buffered.push {T : Bytes} {left n : ℤ} (left' : ℤ) (v : UInt8) {t₀ t : Thread Reg} {s : Sys}
    (h : Buffered place i p file job T left n t₀ s) (hlen : T.length < 31) (hrsp : t.rsp = t₀.rsp)
    (h12 : t.gpr .r12 = t₀.gpr .r12) (h14 : t.gpr .r14 = t₀.gpr .r14) (hrsi : t.gpr .rsi = wsub (t₀.gpr .rsi) 1) :
    Buffered place i p file job (v :: T) left' left' t.skip (s.setMem (Function.update s.kernel.umem (t.gpr .rsi) v)) := by
  have hroom := hset.stack_room
  have haddr : t.gpr .rsi = p.userStack - 8 - (v :: T).length := by
    rw [hrsi, h.rsi, wsub_eq (by omega) (by omega), List.length_cons]
    omega
  have hcons : (v :: T).length = T.length + 1 := rfl
  refine ⟨h14.trans h.r14, haddr, by omega, ?_, h12.trans h.inside.r12, ?_, ?_⟩
  · rw [haddr]
    show Kernel.userBytes { s.kernel with umem := _ } (p.userStack - 8 - (v :: T).length) (T.length + 1) = v :: T
    rw [userBytes_update, hcons, show p.userStack - 8 - (T.length + 1) + 1 = p.userStack - 8 - T.length by omega, h.buffer]
  · show loadWord (Function.update s.kernel.umem (t.gpr .rsi) v) (p.userStack - 8) = _
    rw [loadWord_congr fun x hx _ => Function.update_of_ne (by omega) v s.kernel.umem]
    exact h.inside.word
  · refine h.inside.point.after hset (hrsp.trans h.inside.point.rsp) (h.inside.point.own.of_sched rfl) (fun a ha => ?_)
      h.inside.point.files h.inside.point.out
    show Function.update s.kernel.umem (t.gpr .rsi) v a = s.kernel.umem a
    have hne : a ≠ t.gpr .rsi := by omega
    exact Function.update_of_ne hne v s.kernel.umem

/-! ### Blocks -/

/-- an assertion A of a whole program covers the calls of `report` in J: inside of the routine and behind the call -/
structure Covers (place : ℕ → ℕ) (i : Fin 64) (p : Process) (file : Option ℕ) (J : Job → Prop)
    (A : ℤ → Thread Reg → Sys → Prop) : Prop where
  ok : ∀ job, J job → job.Ok
  cut : ∀ n t s, t.pc ∈ [38, 44, 54, 58, 68, 74, 79] → A n t s → ∃ job, J job ∧ ReportAt place i p file job n t s
  inside : ∀ job, J job → ∀ n t s, ReportAt place i p file job n t s → A n t s
  back : ∀ job, J job → ∀ n t s, t.pc = job.back → Returned place i p file job n t s → A n t s

section

variable {A : ℤ → Thread Reg → Sys → Prop} {J : Job → Prop} (hA : Covers place i p file J A) (n : ℤ) (gpr : Reg → ℕ)
  (rsp last : ℕ)

include hA

/-- the label -/
theorem report_label :
    (program processX place i).Block A n ⟨gpr, rsp, 38, last⟩ := by
  obtain ⟨t, halone, hpc, hrsp, h12, h14, ht⟩ : ∃ t, (program processX place i).alone 5 ⟨gpr, rsp, 38, last⟩ = some t ∧
      t.pc = 43 ∧ t.rsp = rsp ∧ t.gpr .r12 = gpr .r12 ∧ t.gpr .r14 = gpr .rax ∧ Calls processX t 1 1 (gpr .r13) 3 :=
    ⟨_, rfl, rfl, rfl, rfl, rfl, ⟨rfl, rfl, rfl, rfl, rfl⟩⟩
  refine block_call halone ht fun s h hturn c => ?_
  obtain ⟨job, hJ, hrax, hr13, h⟩ := hA.cut _ _ _ (by simp) h
  have hjob := hA.ok job hJ
  rw [show gpr .r13 = place job.label from hr13] at ht
  have htag := hset.data_ok hjob.tag
  have htext := h.point.loaded _ _ hjob.tag
  rw [hjob.three] at htag htext
  obtain ⟨⟨gpr', rsp', pc, last'⟩, s', hact, hpc', h14', h'⟩ := h.print hset (job.left + job.cost - 6) hjob htag htext hturn c
    hrsp h12 ht
  rw [hpc] at hpc'
  subst hpc'
  exact ⟨_, s', _, hact, hA.inside job hJ _ _ _ ⟨h14'.trans (h14.trans hrax), h'⟩, by rw [h.point.left]; omega⟩

/-- the verdict, on either branch -/
theorem report_text {m pos : ℕ} {text : Bytes} {t : Thread Reg}
    (halone : (program processX place i).alone m ⟨gpr, rsp, 44, last⟩ = some t) (hm : m ≤ 7) (hpc : t.pc = 53)
    (hrsp : t.rsp = rsp) (h12 : t.gpr .r12 = gpr .r12) (h14 : t.gpr .r14 = gpr .r14)
    (hdata : processX[pos]? = some (.data text)) (ht : Calls processX t 1 1 (place pos) text.length)
    (hv : text = verdict (gpr .r14)) :
    (program processX place i).Block A n ⟨gpr, rsp, 44, last⟩ := by
  refine block_call halone ht fun s h hturn c => ?_
  obtain ⟨job, hJ, hr14, h⟩ := hA.cut _ _ _ (by simp) h
  have hjob := hA.ok job hJ
  obtain ⟨⟨gpr', rsp', pc, last'⟩, s', hact, hpc', h14', h'⟩ := h.print hset (job.left + job.cost - 14) hjob
    (hset.data_ok hdata) (h.point.loaded pos text hdata) hturn c hrsp h12 ht
  rw [hpc] at hpc'
  subst hpc'
  rw [hv, show gpr .r14 = job.value from hr14] at h'
  exact ⟨_, s', _, hact, hA.inside job hJ _ _ _ ⟨h14'.trans (h14.trans hr14), h'⟩, by rw [h.point.left]; omega⟩

theorem report_verdict :
    (program processX place i).Block A n ⟨gpr, rsp, 44, last⟩ := by
  have htest : ∀ m, (program processX place i).alone (m + 1) ⟨gpr, rsp, 44, last⟩ =
      (program processX place i).alone m ⟨gpr, rsp, 45, gpr .r14⟩ := alone_succ place i rfl rfl
  rcases Nat.lt_or_ge (gpr .r14) (2 ^ 63) with hlt | hge
  · have hjs : ∀ m, (program processX place i).alone (m + 1) ⟨gpr, rsp, 45, gpr .r14⟩ =
        (program processX place i).alone m ⟨gpr, rsp, 46, gpr .r14⟩ := alone_succ place i rfl (Thread.move_js_not hlt)
    obtain ⟨t, halone, hpc, hrsp, h12, h14, ht⟩ : ∃ t, (program processX place i).alone 5 ⟨gpr, rsp, 46, gpr .r14⟩ = some t ∧
        t.pc = 53 ∧ t.rsp = rsp ∧ t.gpr .r12 = gpr .r12 ∧ t.gpr .r14 = gpr .r14 ∧ Calls processX t 1 1 (place 88) 5 :=
      ⟨_, rfl, rfl, rfl, rfl, rfl, ⟨rfl, rfl, rfl, rfl, rfl⟩⟩
    exact report_text hset hA n gpr rsp last ((htest 6).trans ((hjs 5).trans halone)) (le_refl 7) hpc hrsp h12 h14
      (show processX[88]? = some (.data (str "FAIL ")) from rfl) ht (by rw [verdict, if_pos hlt])
  · have hjs : ∀ m, (program processX place i).alone (m + 1) ⟨gpr, rsp, 45, gpr .r14⟩ =
        (program processX place i).alone m ⟨gpr, rsp, 49, gpr .r14⟩ := alone_succ place i rfl (Thread.move_js hge)
    obtain ⟨t, halone, hpc, hrsp, h12, h14, ht⟩ : ∃ t, (program processX place i).alone 4 ⟨gpr, rsp, 49, gpr .r14⟩ = some t ∧
        t.pc = 53 ∧ t.rsp = rsp ∧ t.gpr .r12 = gpr .r12 ∧ t.gpr .r14 = gpr .r14 ∧ Calls processX t 1 1 (place 87) 3 :=
      ⟨_, rfl, rfl, rfl, rfl, rfl, ⟨rfl, rfl, rfl, rfl, rfl⟩⟩
    exact report_text hset hA n gpr rsp last ((htest 5).trans ((hjs 4).trans halone)) (by decide) hpc hrsp h12 h14
      (show processX[87]? = some (.data (str "ok ")) from rfl) ht (by rw [verdict, if_neg (Nat.not_lt_of_le hge)])

/-- the newline -/
theorem report_newline :
    (program processX place i).Block A n ⟨gpr, rsp, 54, last⟩ := by
  have hroom := hset.stack_room
  -- the thread before `dec rsi`, and at the store
  obtain ⟨t₀, hpc₀, hrsp₀, h12₀, h14₀, hrsi₀, t, halone, hpc, hrsp, h12, h14, hrsi, hitem⟩ : ∃ t₀ : Thread Reg, t₀.pc = 56 ∧
      t₀.rsp = wsub rsp 32 ∧ t₀.gpr .r12 = gpr .r12 ∧ t₀.gpr .r14 = gpr .r14 ∧ t₀.gpr .rsi = wadd (wsub rsp 32) 32 ∧ ∃ t,
      (program processX place i).alone 3 ⟨gpr, rsp, 54, last⟩ = some t ∧ t.pc = 57 ∧ t.rsp = t₀.rsp ∧
      t.gpr .r12 = t₀.gpr .r12 ∧ t.gpr .r14 = t₀.gpr .r14 ∧ t.gpr .rsi = wsub (t₀.gpr .rsi) 1 ∧
      processX[t.pc]? = some (.storeByte .rsi 0x0A) :=
    ⟨⟨Function.update gpr .rsi (wadd (wsub rsp 32) 32), wsub rsp 32, 56, 0⟩, rfl, rfl, rfl, rfl, rfl, _, rfl, rfl, rfl, rfl,
      rfl, rfl, rfl⟩
  refine block_of halone hitem rfl fun s h _ c => ?_
  obtain ⟨job, hJ, hr14, h⟩ := hA.cut _ _ _ (by simp) h
  have hrsp' : rsp = p.userStack - 8 := h.point.rsp
  have hsub : wsub rsp 32 = p.userStack - 40 := by
    rw [hrsp', wsub_eq (by omega) (by omega)]
    omega
  have hempty : Buffered place i p file job [] (job.left + job.cost - 14) n t₀ s := by
    refine ⟨h14₀.trans hr14, ?_, by decide, rfl, h12₀.trans h.r12, h.word, h.point.left, hrsp₀.trans hsub, h.point.own,
      h.point.out, h.point.loaded, h.point.files⟩
    rw [hrsi₀, hsub, wadd_eq (by omega), List.length_nil]
    omega
  have hfull := hempty.push hset (job.left + job.cost - 18) 0x0A (by decide) hrsp h12 h14 hrsi
  have hact : (program processX place i).act c t s = _ := act_storeByte hitem
  obtain ⟨gpr', rsp', pc, last'⟩ := t
  subst hpc
  exact ⟨_, _, _, hact, hA.inside job hJ _ _ _ hfull, by rw [h.point.left]; omega⟩

omit hset hA in
/-- one pass of the loop up to its store: the quotient in rax, the digit in rdx -/
theorem digit_moves (place : ℕ → ℕ) (i : Fin 64) (h10 : gpr .rcx = 10) :
    ∃ t, (program processX place i).alone 4 ⟨gpr, rsp, 63, last⟩ = some t ∧ t.pc = 67 ∧ t.rsp = rsp ∧
      t.gpr .r12 = gpr .r12 ∧ t.gpr .r14 = gpr .r14 ∧ t.gpr .rcx = 10 ∧ t.gpr .rax = gpr .rax / 10 ∧
      t.gpr .rsi = wsub (gpr .rsi) 1 ∧ UInt8.ofNat (t.gpr .rdx) = digitByte (gpr .rax % 10) := by
  have hxor : ∀ m, (program processX place i).alone (m + 1) ⟨gpr, rsp, 63, last⟩ =
      (program processX place i).alone m ⟨Function.update gpr .rdx 0, rsp, 64, 0⟩ := alone_succ place i rfl rfl
  have hdiv : ∀ m, (program processX place i).alone (m + 1) ⟨Function.update gpr .rdx 0, rsp, 64, 0⟩ =
      (program processX place i).alone m ⟨Function.update (Function.update (Function.update gpr .rdx 0) .rax (gpr .rax / 10))
        .rdx (gpr .rax % 10), rsp, 65, 0⟩ := alone_succ place i rfl (Thread.move_div rfl h10 (by decide))
  refine ⟨_, (hxor 3).trans ((hdiv 2).trans rfl), rfl, rfl, rfl, rfl, h10, rfl, rfl, ?_⟩
  show UInt8.ofNat (gpr .rax % 10 / 256 * 256 + (gpr .rax % 10 + 48) % 256) = UInt8.ofNat (0x30 + gpr .rax % 10)
  congr 1
  omega

omit hA in
/-- the store of a digit -/
theorem Buffered.push_digit {q : ℕ} {T : Bytes} {left : ℤ} {t₀ t : Thread Reg} {s : Sys} {c : Choice}
    (h : Buffered place i p file job T left n t₀ s) (hlen : T.length < 31) (hpc : t.pc = 67) (hrsp : t.rsp = t₀.rsp)
    (h12 : t.gpr .r12 = t₀.gpr .r12) (h14 : t.gpr .r14 = t₀.gpr .r14) (hrcx : t.gpr .rcx = 10) (hrax : t.gpr .rax = q / 10)
    (hrsi : t.gpr .rsi = wsub (t₀.gpr .rsi) 1) (hrdx : UInt8.ofNat (t.gpr .rdx) = digitByte (q % 10))
    (hT : pendingDigits (q / 10) ++ digitByte (q % 10) :: T = decimal (magnitude job.value) ++ [0x0A]) :
    ∃ t' s', (program processX place i).act c t s = some (t', s') ∧
      ReportAt place i p file job (job.left + 13 + 7 * (Nat.digits 10 (q / 10)).length) t' s' := by
  have hitem : processX[t.pc]? = some (.storeLow .rsi .rdx) := by rw [hpc]; rfl
  have hpush := h.push hset (job.left + 13 + 7 * (Nat.digits 10 (q / 10)).length) (digitByte (q % 10)) hlen hrsp h12 h14 hrsi
  have hact : (program processX place i).act c t s = _ := act_storeLow hitem
  rw [hrdx] at hact
  obtain ⟨gpr', rsp', pc, last'⟩ := t
  subst hpc
  exact ⟨_, _, hact, q / 10, _, hrax, hrcx, hT, hpush⟩

omit hset hA in
/-- `mov rax, r14; test rax, rax; jns; neg rax; mov rcx, 10`: the absolute value -/
theorem magnitude_moves (place : ℕ → ℕ) (i : Fin 64) : ∃ m gpr' last', m ≤ 5 ∧
    (∀ m', (program processX place i).alone (m + m') ⟨gpr, rsp, 58, last⟩ =
      (program processX place i).alone m' ⟨gpr', rsp, 63, last'⟩) ∧
    gpr' .rax = magnitude (gpr .r14) ∧ gpr' .rcx = 10 ∧ gpr' .r12 = gpr .r12 ∧ gpr' .r14 = gpr .r14 ∧
    gpr' .rsi = gpr .rsi := by
  have hmov : ∀ m, (program processX place i).alone (m + 2) ⟨gpr, rsp, 58, last⟩ =
      (program processX place i).alone m ⟨Function.update gpr .rax (gpr .r14), rsp, 60, gpr .r14⟩ := fun m =>
    (alone_succ place i rfl rfl (m + 1)).trans (alone_succ place i rfl rfl m)
  rcases Nat.lt_or_ge (gpr .r14) (2 ^ 63) with hlt | hge
  · have hjns : ∀ m, (program processX place i).alone (m + 2) ⟨Function.update gpr .rax (gpr .r14), rsp, 60, gpr .r14⟩ =
        (program processX place i).alone m ⟨Function.update (Function.update gpr .rax (gpr .r14)) .rcx 10, rsp, 63,
          gpr .r14⟩ := fun m =>
      (alone_succ place i rfl (Thread.move_jns hlt) (m + 1)).trans (alone_succ place i rfl rfl m)
    refine ⟨4, Function.update (Function.update gpr .rax (gpr .r14)) .rcx 10, gpr .r14, by decide, fun m => ?_, ?_, rfl, rfl, rfl,
      rfl⟩
    · rw [Nat.add_comm 4 m]
      exact (hmov (m + 2)).trans (hjns m)
    · rw [magnitude, if_pos hlt]
      rfl
  · have hjns : ∀ m, (program processX place i).alone (m + 3) ⟨Function.update gpr .rax (gpr .r14), rsp, 60, gpr .r14⟩ =
        (program processX place i).alone m ⟨Function.update (Function.update (Function.update gpr .rax (gpr .r14)) .rax
          (wsub 0 (gpr .r14))) .rcx 10, rsp, 63, wsub 0 (gpr .r14)⟩ := fun m =>
      (alone_succ place i rfl (Thread.move_jns_not hge) (m + 2)).trans
        ((alone_succ place i rfl rfl (m + 1)).trans (alone_succ place i rfl rfl m))
    refine ⟨5, Function.update (Function.update (Function.update gpr .rax (gpr .r14)) .rax (wsub 0 (gpr .r14))) .rcx 10,
      wsub 0 (gpr .r14), le_refl 5, fun m => ?_, ?_, rfl, rfl, rfl, rfl⟩
    · rw [Nat.add_comm 5 m]
      exact (hmov (m + 3)).trans (hjns m)
    · rw [magnitude, if_neg (Nat.not_lt_of_le hge)]
      show wsub 0 (gpr .r14) = 2 ^ 64 - gpr .r14
      unfold wsub
      omega

/-- the last digit, which is written even for 0 -/
theorem report_first_digit :
    (program processX place i).Block A n ⟨gpr, rsp, 58, last⟩ := by
  obtain ⟨m, gpr₁, last₁, hm, hmag, hrax₁, hrcx₁, h12₁, h14₁, hrsi₁⟩ := magnitude_moves gpr rsp last place i
  obtain ⟨t, halone, hpc, hrsp, h12, h14, hrcx, hrax, hrsi, hrdx⟩ := digit_moves gpr₁ rsp last₁ place i hrcx₁
  have hitem : processX[t.pc]? = some (.storeLow .rsi .rdx) := by rw [hpc]; rfl
  refine block_of ((hmag 4).trans halone) hitem rfl fun s h _ c => ?_
  obtain ⟨job, hJ, h⟩ := hA.cut _ _ _ (by simp) h
  replace h : Buffered place i p file job [0x0A] (job.left + job.cost - 18) n ⟨gpr, rsp, 58, last⟩ s := h
  have hvalue : gpr .r14 = job.value := h.r14
  rw [hrax₁, hvalue] at hrax hrdx
  obtain ⟨t', s', hact, h'⟩ := h.push_digit hset n (c := c) (by decide) hpc hrsp (h12.trans h12₁) (h14.trans h14₁) hrcx hrax
    (by rw [hrsi, hrsi₁]) hrdx (by rw [decimal_eq_pending (magnitude job.value), List.append_assoc]; rfl)
  refine ⟨t', s', _, hact, hA.inside job hJ _ _ _ h', ?_⟩
  rw [h.inside.point.left, Job.cost, Job.digits]
  push_cast
  omega

omit hset hA in
/-- what is written and what is pending are the number and the newline -/
theorem text_short {q : ℕ} {T : Bytes} (hv : job.value < 2 ^ 64)
    (hT : pendingDigits q ++ T = decimal (magnitude job.value) ++ [0x0A]) :
    (Nat.digits 10 q).length + T.length ≤ 20 := by
  have hlen := congrArg List.length hT
  have hdec := decimal_length_le (magnitude_le hv)
  simp only [List.length_append, pendingDigits, List.length_reverse, List.length_map, List.length_cons,
    List.length_nil] at hlen
  omega

/-- the next digit -/
theorem report_digit (hq : gpr .rax ≠ 0) (h10 : gpr .rcx = 10) :
    (program processX place i).Block A n ⟨gpr, rsp, 68, last⟩ := by
  have htest : ∀ m, (program processX place i).alone (m + 2) ⟨gpr, rsp, 68, last⟩ =
      (program processX place i).alone m ⟨gpr, rsp, 63, gpr .rax⟩ := fun m =>
    (alone_succ place i rfl rfl (m + 1)).trans (alone_succ place i rfl (Thread.move_jnz hq) m)
  obtain ⟨t, halone, hpc, hrsp, h12, h14, hrcx, hrax, hrsi, hrdx⟩ := digit_moves gpr rsp (gpr .rax) place i h10
  have hitem : processX[t.pc]? = some (.storeLow .rsi .rdx) := by rw [hpc]; rfl
  refine block_of ((htest 4).trans halone) hitem rfl fun s h _ c => ?_
  obtain ⟨job, hJ, q, T, hqr, -, hT, h⟩ := hA.cut _ _ _ (by simp) h
  replace hqr : gpr .rax = q := hqr
  have hjob := hA.ok job hJ
  subst hqr
  have hshort := text_short hjob.value hT
  have hdigits : (Nat.digits 10 (gpr .rax)).length = (Nat.digits 10 (gpr .rax / 10)).length + 1 := by
    rw [Nat.digits_def' (by decide) (Nat.pos_of_ne_zero hq), List.length_cons]
  obtain ⟨t', s', hact, h'⟩ := h.push_digit hset n (c := c) (by omega) hpc hrsp h12 h14 hrcx hrax hrsi hrdx
    (by rw [← hT, pendingDigits_step hq, List.append_assoc]; rfl)
  refine ⟨t', s', _, hact, hA.inside job hJ _ _ _ h', ?_⟩
  rw [h.inside.point.left, hdigits]
  push_cast
  omega

/-- the end of the loop for a negative number: the sign -/
theorem report_sign (hq : gpr .rax = 0) (hneg : 2 ^ 63 ≤ gpr .r14) :
    (program processX place i).Block A n ⟨gpr, rsp, 68, last⟩ := by
  have htest : ∀ m, (program processX place i).alone (m + 4) ⟨gpr, rsp, 68, last⟩ =
      (program processX place i).alone m ⟨gpr, rsp, 72, gpr .r14⟩ := fun m =>
    (alone_succ place i rfl rfl (m + 3)).trans <| (alone_succ place i rfl (Thread.move_jnz_not hq) (m + 2)).trans <|
      (alone_succ place i rfl rfl (m + 1)).trans (alone_succ place i rfl (Thread.move_jns_not hneg) m)
  obtain ⟨t, halone, hpc, hrsp, h12, h14, hrsi, hitem⟩ : ∃ t, (program processX place i).alone 1 ⟨gpr, rsp, 72, gpr .r14⟩ =
      some t ∧ t.pc = 73 ∧ t.rsp = rsp ∧ t.gpr .r12 = gpr .r12 ∧ t.gpr .r14 = gpr .r14 ∧ t.gpr .rsi = wsub (gpr .rsi) 1 ∧
      processX[t.pc]? = some (.storeByte .rsi 0x2D) := ⟨_, rfl, rfl, rfl, rfl, rfl, rfl, rfl⟩
  refine block_of ((htest 1).trans halone) hitem rfl fun s h _ c => ?_
  obtain ⟨job, hJ, q, T, hqr, -, hT, h⟩ := hA.cut _ _ _ (by simp) h
  replace hqr : gpr .rax = q := hqr
  have hjob := hA.ok job hJ
  obtain rfl : q = 0 := hqr.symm.trans hq
  have hshort := text_short hjob.value hT
  have hneg' : ¬ job.value < 2 ^ 63 := by
    have : gpr .r14 = job.value := h.r14
    omega
  have hsigned : 0x2D :: T = signedDecimal job.value ++ [0x0A] := by
    rw [signedDecimal, if_neg hneg', List.cons_append]
    rw [magnitude, if_neg hneg'] at hT
    exact congrArg (List.cons 0x2D) hT
  have hpush := h.push hset (job.left + 7) 0x2D (by omega) hrsp h12 h14 hrsi
  rw [hsigned] at hpush
  have hact : (program processX place i).act c t s = _ := act_storeByte hitem
  obtain ⟨gpr', rsp', pc, last'⟩ := t
  subst hpc
  refine ⟨_, _, _, hact, hA.inside job hJ _ _ _ hpush, ?_⟩
  rw [h.inside.point.left]
  simp only [Nat.digits_zero, List.length_nil]
  push_cast
  omega

omit hA in
/-- the print of the number -/
theorem Buffered.print {left : ℤ} {t₀ t : Thread Reg} {s : Sys} {c : Choice}
    (h : Buffered place i p file job (signedDecimal job.value ++ [0x0A]) left n t₀ s) (hjob : job.Ok) (hturn : s.kernel.sched.current = i)
    (hpc : t.pc = 78) (hrsp : t.rsp = t₀.rsp) (h12 : t.gpr .r12 = t₀.gpr .r12)
    (ht : Calls processX t 1 1 (t₀.gpr .rsi) (wsub (wadd t₀.rsp 32) (t₀.gpr .rsi))) :
    ∃ t' s', (program processX place i).act c t s = some (t', s') ∧ ReportAt place i p file job (job.left + 2) t' s' := by
  have hroom := hset.stack_room
  have hshort := h.short
  have hend : wadd t₀.rsp 32 = p.userStack - 8 := by
    rw [h.inside.point.rsp, wadd_eq (by omega)]
    omega
  have hlen : wsub (p.userStack - 8) (p.userStack - 8 - (signedDecimal job.value ++ [0x0A]).length) =
      (signedDecimal job.value ++ [0x0A]).length := by
    rw [wsub_eq (by omega) (by omega)]
    omega
  rw [hend, h.rsi, hlen] at ht
  have hok : userRangeOk p (p.userStack - (8 + (signedDecimal job.value ++ [0x0A]).length))
      (signedDecimal job.value ++ [0x0A]).length = true := hset.below_top _ (le_refl _) (by omega)
  rw [Nat.sub_add_eq] at hok
  obtain ⟨⟨gpr', rsp', pc, last'⟩, s', hact, hpc', -, h'⟩ := h.inside.print hset (job.left + 2) hjob hok h.buffer hturn c hrsp
    h12 ht
  rw [hpc] at hpc'
  subst hpc'
  have hline : job.out ++ job.tag ++ verdict job.value ++ (signedDecimal job.value ++ [0x0A]) = job.out ++ job.line := by
    simp only [Job.line, List.append_assoc]
  rw [hline] at h'
  exact ⟨_, s', hact, h'⟩

/-- the end of the loop for a number that is not negative -/
theorem report_unsigned (hq : gpr .rax = 0) (hpos : gpr .r14 < 2 ^ 63) :
    (program processX place i).Block A n ⟨gpr, rsp, 68, last⟩ := by
  have htest : ∀ m, (program processX place i).alone (m + 4) ⟨gpr, rsp, 68, last⟩ =
      (program processX place i).alone m ⟨gpr, rsp, 74, gpr .r14⟩ := fun m =>
    (alone_succ place i rfl rfl (m + 3)).trans <| (alone_succ place i rfl (Thread.move_jnz_not hq) (m + 2)).trans <|
      (alone_succ place i rfl rfl (m + 1)).trans (alone_succ place i rfl (Thread.move_jns hpos) m)
  obtain ⟨t, halone, hpc, hrsp, h12, ht⟩ : ∃ t, (program processX place i).alone 4 ⟨gpr, rsp, 74, gpr .r14⟩ = some t ∧
      t.pc = 78 ∧ t.rsp = rsp ∧ t.gpr .r12 = gpr .r12 ∧
      Calls processX t 1 1 (gpr .rsi) (wsub (wadd rsp 32) (gpr .rsi)) :=
    ⟨_, rfl, rfl, rfl, rfl, ⟨rfl, rfl, rfl, rfl, rfl⟩⟩
  refine block_call ((htest 4).trans halone) ht fun s h hturn c => ?_
  obtain ⟨job, hJ, q, T, hqr, -, hT, h⟩ := hA.cut _ _ _ (by simp) h
  replace hqr : gpr .rax = q := hqr
  have hjob := hA.ok job hJ
  obtain rfl : q = 0 := hqr.symm.trans hq
  have hpos' : job.value < 2 ^ 63 := by
    have : gpr .r14 = job.value := h.r14
    omega
  obtain rfl : T = signedDecimal job.value ++ [0x0A] := by
    rw [signedDecimal, if_pos hpos']
    rw [magnitude, if_pos hpos'] at hT
    exact hT
  obtain ⟨t', s', hact, h'⟩ := h.print hset n (c := c) hjob hturn hpc hrsp h12 ht
  refine ⟨t', s', _, hact, hA.inside job hJ _ _ _ h', ?_⟩
  rw [h.inside.point.left]
  simp only [Nat.digits_zero, List.length_nil]
  push_cast
  omega

theorem report_signed :
    (program processX place i).Block A n ⟨gpr, rsp, 74, last⟩ := by
  obtain ⟨t, halone, hpc, hrsp, h12, ht⟩ : ∃ t, (program processX place i).alone 4 ⟨gpr, rsp, 74, last⟩ = some t ∧
      t.pc = 78 ∧ t.rsp = rsp ∧ t.gpr .r12 = gpr .r12 ∧
      Calls processX t 1 1 (gpr .rsi) (wsub (wadd rsp 32) (gpr .rsi)) :=
    ⟨_, rfl, rfl, rfl, rfl, ⟨rfl, rfl, rfl, rfl, rfl⟩⟩
  refine block_call halone ht fun s h hturn c => ?_
  obtain ⟨job, hJ, h⟩ := hA.cut _ _ _ (by simp) h
  have hjob := hA.ok job hJ
  replace h : Buffered place i p file job (signedDecimal job.value ++ [0x0A]) (job.left + 7) n ⟨gpr, rsp, 74, last⟩ s := h
  obtain ⟨t', s', hact, h'⟩ := h.print hset n (c := c) hjob hturn hpc hrsp h12 ht
  refine ⟨t', s', _, hact, hA.inside job hJ _ _ _ h', ?_⟩
  rw [h.inside.point.left]
  push_cast
  omega

/-- the return -/
theorem report_return (hplaced : CodePlaced processX place p) :
    (program processX place i).Block A n ⟨gpr, rsp, 79, last⟩ := by
  have hroom := hset.stack_room
  obtain ⟨t, halone, hrsp, h12, hitem⟩ : ∃ t, (program processX place i).alone 1 ⟨gpr, rsp, 79, last⟩ = some t ∧
      t.rsp = wadd rsp 32 ∧ t.gpr .r12 = gpr .r12 ∧ processX[t.pc]? = some .ret := ⟨_, rfl, rfl, rfl, rfl⟩
  refine block_of halone hitem rfl fun s h _ c => ?_
  obtain ⟨job, hJ, h⟩ := hA.cut _ _ _ (by simp) h
  have hjob := hA.ok job hJ
  replace h : InReport place i p file job (p.userStack - 40) (job.out ++ job.line) (job.left + 2) n ⟨gpr, rsp, 79, last⟩ s := h
  have hrsp' : t.rsp = p.userStack - 8 := by
    rw [hrsp, show rsp = p.userStack - 40 from h.point.rsp, wadd_eq (by omega)]
    omega
  have hact : (program processX place i).act c t s = _ :=
    act_ret hitem hjob.back (fun j hj => hplaced.ordered j job.back hj hjob.back) (hrsp' ▸ h.word)
  refine ⟨_, _, job.left, hact, hA.back job hJ _ _ _ rfl ⟨h12.trans h.r12, ?_⟩, by rw [h.point.left]; push_cast; omega⟩
  refine h.point.after hset ?_ h.point.own (fun a _ => rfl) h.point.files h.point.out
  show wadd t.rsp 8 = p.userStack
  rw [hrsp', wadd_eq (by omega)]
  omega

/-- the blocks of the routine: each leads to the next cut point, the last one behind the call -/
theorem report_blocks (hplaced : CodePlaced processX place p) {t : Thread Reg} {s : Sys}
    (hpc : t.pc ∈ [38, 44, 54, 58, 68, 74, 79]) (h : A n t s) : (program processX place i).Block A n t := by
  obtain ⟨gpr, rsp, pc, last⟩ := t
  have hpc' : pc = 38 ∨ pc = 44 ∨ pc = 54 ∨ pc = 58 ∨ pc = 68 ∨ pc = 74 ∨ pc = 79 := by simpa using hpc
  obtain ⟨job, -, h⟩ := hA.cut _ _ _ hpc h
  rcases hpc' with rfl | rfl | rfl | rfl | rfl | rfl | rfl
  · exact report_label hset hA n gpr rsp last
  · exact report_verdict hset hA n gpr rsp last
  · exact report_newline hset hA n gpr rsp last
  · exact report_first_digit hset hA n gpr rsp last
  · obtain ⟨q, T, -, hrcx, -, -⟩ := h
    rcases Nat.eq_zero_or_pos (gpr .rax) with hq | hq
    · rcases Nat.lt_or_ge (gpr .r14) (2 ^ 63) with hlt | hge
      · exact report_unsigned hset hA n gpr rsp last hq hlt
      · exact report_sign hset hA n gpr rsp last hq hge
    · exact report_digit hset hA n gpr rsp last hq.ne' hrcx
  · exact report_signed hset hA n gpr rsp last
  · exact report_return hset hA n gpr rsp last hplaced

end

end Report

/-! ## The program -/

section

variable (p : Process) (file : Option ℕ)

/-- the result of the open for reading, and the tables behind it and behind the close -/
def xFd : ℕ := if file = none then err ENOENT else 3

def xFds : List (Option OpenFile) := file.elim p.fds fun I => openFds ⟨permRead, I, 0⟩

def xClosed : List (Option OpenFile) := file.elim p.fds fun _ => [none, none, none, none]

/-- the three calls of `report`; r12 is unset at the first one, and of no interest at the third -/
def firstJob (r12 : ℕ) : Job := ⟨7, 84, str "x1 ", err EACCES, [], p.fds, r12, 118⟩

def secondJob : Job :=
  ⟨24, 85, str "x2 ", if file = none then 0 else err EBADF, str "x1 ok -13\n", xFds p file, xFd file, 61⟩

/-- what the first two calls print -/
def firstLines : Bytes := str "x1 ok -13\n" ++ if file = none then str "x2 FAIL 0\n" else str "x2 ok -9\n"

def thirdJob (r12 : ℕ) : Job := ⟨34, 86, str "x3 ", err EACCES, firstLines file, xClosed p file, r12, 3⟩

/-- what the program prints -/
def checkOutput : Bytes := firstLines file ++ str "x3 ok -13\n"

def IsJob (job : Job) : Prop := (∃ r, job = firstJob p r) ∨ job = secondJob p file ∨ ∃ r, job = thirdJob p file r

variable (place : ℕ → ℕ) (i : Fin 64)

/-- a point outside of the routine -/
def XPoint (left : ℤ) (fds : List (Option OpenFile)) (out : Bytes) :=
  Point processX place i p (NameIs file) left p.userStack fds out

/-- the assertion at a program counter -/
def XAt (n : ℤ) (t : Thread Reg) (s : Sys) : Prop :=
  match t.pc with
  | 0 => XPoint p file place i 173 p.fds [] n t s
  | 5 => t.gpr .rax = err EACCES ∧ XPoint p file place i 168 p.fds [] n t s
  | 7 => ∃ r, Returned place i p file (firstJob p r) n t s
  | 12 => t.gpr .rax = xFd file ∧ XPoint p file place i 113 (xFds p file) (str "x1 ok -13\n") n t s
  | 20 => file ≠ none ∧ t.gpr .rax = err EBADF ∧ t.gpr .r12 = 3 ∧
      XPoint p file place i 105 (xFds p file) (str "x1 ok -13\n") n t s
  | 24 => Returned place i p file (secondJob p file) n t s
  | 27 => XPoint p file place i 58 (xClosed p file) (firstLines file) n t s
  | 32 => t.gpr .rax = err EACCES ∧ XPoint p file place i 53 (xClosed p file) (firstLines file) n t s
  | 34 => ∃ r, Returned place i p file (thirdJob p file r) n t s
  | 89 => XPoint p file place i 0 (xClosed p file) (checkOutput file) n t s
  | _ => ∃ job, IsJob p file job ∧ ReportAt place i p file job n t s

end

section Lines

variable {p : Process} {file : Option ℕ}

theorem decimal_13 : decimal 13 = str "13" := by
  rw [decimal_eq_pending]
  decide

theorem decimal_9 : decimal 9 = str "9" := by
  rw [decimal_eq_pending]
  decide

/-- a line about an error -/
theorem error_line (job : Job) (e : ℕ) (h1 : 1 ≤ e) (h2 : e ≤ 38) (hv : job.value = err e) :
    job.line = job.tag ++ str "ok " ++ (0x2D :: decimal e ++ [0x0A]) ∧ magnitude job.value = e := by
  have hneg : ¬ job.value < 2 ^ 63 := by
    rw [hv]
    exact Nat.not_lt_of_le (err_negative h1 h2)
  have hsub : 2 ^ 64 - job.value = e := by
    rw [hv, err_eq h1 h2]
    omega
  rw [Job.line, verdict, signedDecimal, magnitude, if_neg hneg, if_neg hneg, if_neg hneg, hsub]
  exact ⟨rfl, rfl⟩

theorem firstJob_line (r : ℕ) : (firstJob p r).line = str "x1 ok -13\n" ∧ (firstJob p r).cost = 48 := by
  obtain ⟨hline, hmag⟩ := error_line (firstJob p r) EACCES (by decide) (by decide) rfl
  constructor
  · rw [hline, show EACCES = 13 from rfl, decimal_13]
    rfl
  · rw [Job.cost, Job.digits, hmag]
    decide

theorem thirdJob_line (r : ℕ) : (thirdJob p file r).line = str "x3 ok -13\n" ∧ (thirdJob p file r).cost = 48 := by
  obtain ⟨hline, hmag⟩ := error_line (thirdJob p file r) EACCES (by decide) (by decide) rfl
  constructor
  · rw [hline, show EACCES = 13 from rfl, decimal_13]
    rfl
  · rw [Job.cost, Job.digits, hmag]
    decide

theorem secondJob_line : str "x1 ok -13\n" ++ (secondJob p file).line = firstLines file ∧ (secondJob p file).cost = 41 := by
  cases file with
  | none =>
    constructor
    · rfl
    · rw [Job.cost, Job.digits, show magnitude (secondJob p none).value = 0 from rfl]
      decide
  | some I =>
    obtain ⟨hline, hmag⟩ := error_line (secondJob p (some I)) EBADF (by decide) (by decide) rfl
    constructor
    · rw [hline, show EBADF = 9 from rfl, decimal_9]
      rfl
    · rw [Job.cost, Job.digits, hmag]
      decide

end Lines

/-! ## Blocks of the program -/

section

variable {place : ℕ → ℕ} {i : Fin 64} {p : Process} {file : Option ℕ} (hset : Setup .x processX place p)

theorem ReportAt.pc_mem {n : ℤ} {t : Thread Reg} {s : Sys} {job : Job} (h : ReportAt place i p file job n t s) :
    t.pc ∈ [38, 44, 54, 58, 68, 74, 79] := by
  unfold ReportAt at h
  split at h <;> simp_all

theorem XAt.report {n : ℤ} {t : Thread Reg} {s : Sys} {job : Job} (hjob : IsJob p file job)
    (h : ReportAt place i p file job n t s) : XAt p file place i n t s := by
  have hpc : t.pc = 38 ∨ t.pc = 44 ∨ t.pc = 54 ∨ t.pc = 58 ∨ t.pc = 68 ∨ t.pc = 74 ∨ t.pc = 79 := by
    simpa using h.pc_mem
  unfold XAt
  split
  · omega
  · omega
  · omega
  · omega
  · omega
  · omega
  · omega
  · omega
  · omega
  · omega
  · exact ⟨job, hjob, h⟩

theorem XAt.returned {n : ℤ} {t : Thread Reg} {s : Sys} {job : Job} (hjob : IsJob p file job) (hpc : t.pc = job.back)
    (h : Returned place i p file job n t s) : XAt p file place i n t s := by
  obtain ⟨gpr, rsp, pc, last⟩ := t
  rcases hjob with ⟨r, rfl⟩ | rfl | ⟨r, rfl⟩
  · obtain rfl : pc = 7 := hpc
    exact ⟨r, h⟩
  · obtain rfl : pc = 24 := hpc
    exact h
  · obtain rfl : pc = 34 := hpc
    exact ⟨r, h⟩

include hset

theorem IsJob.ok {job : Job} (h : IsJob p file job) : job.Ok := by
  have herr : ∀ e, 1 ≤ e → err e < 2 ^ 64 := fun e _ => Nat.mod_lt _ (by decide)
  have hfds : 1 < p.fds.length := by rw [hset.fds]; decide
  rcases h with ⟨r, rfl⟩ | rfl | ⟨r, rfl⟩
  · exact ⟨show 7 < 89 by decide, rfl, rfl, herr _ (by decide), hfds⟩
  · refine ⟨show 24 < 89 by decide, rfl, rfl, ?_, ?_⟩
    · show (if file = none then 0 else err EBADF) < 2 ^ 64
      split_ifs
      · decide
      · exact herr _ (by decide)
    · show 1 < (xFds p file).length
      cases file with
      | none => exact hfds
      | some I => exact show 1 < 4 by decide
  · refine ⟨show 34 < 89 by decide, rfl, rfl, herr _ (by decide), ?_⟩
    show 1 < (xClosed p file).length
    cases file with
    | none => exact hfds
    | some I => exact show 1 < 4 by decide

theorem xCovers : Covers place i p file (IsJob p file) (XAt p file place i) where
  ok := fun _ hjob => hjob.ok hset
  cut := fun n t s hpc h => by
    have hpc' : t.pc = 38 ∨ t.pc = 44 ∨ t.pc = 54 ∨ t.pc = 58 ∨ t.pc = 68 ∨ t.pc = 74 ∨ t.pc = 79 := by simpa using hpc
    unfold XAt at h
    split at h
    · omega
    · omega
    · omega
    · omega
    · omega
    · omega
    · omega
    · omega
    · omega
    · omega
    · exact h
  inside := fun _ hjob _ _ _ h => XAt.report hjob h
  back := fun _ hjob _ _ _ hpc h => XAt.returned hjob hpc h

/-- the call of the routine -/
theorem enter_report (job : Job) (hjob : IsJob p file job) (hplaced : CodePlaced processX place p) {left n : ℤ}
    {t₀ t : Thread Reg} {s : Sys} {c : Choice} (h : XPoint p file place i left job.fds job.out n t₀ s)
    (hitem : processX[t.pc]? = some (.call 38)) (hback : t.pc + 1 = job.back) (hrsp : t.rsp = t₀.rsp)
    (hrax : t.gpr .rax = job.value) (h13 : t.gpr .r13 = place job.label) (h12 : t.gpr .r12 = job.r12) :
    ∃ t' s', (program processX place i).act c t s = some (t', s') ∧ XAt p file place i (job.left + job.cost) t' s' := by
  have hroom := hset.stack_room
  have hfits := hset.codeFits
  have hplace := hplaced.inPages job.back (hjob.ok hset).back
  have hrsp' : wsub t.rsp 8 = p.userStack - 8 := by rw [hrsp, h.rsp, wsub_eq (by omega) hroom.2]
  have hact : (program processX place i).act c t s = _ := act_call hitem
  rw [hback, hrsp'] at hact
  refine ⟨_, _, hact, XAt.report hjob ⟨hrax, h13, h12, ?_, ?_⟩⟩
  · exact loadWord_storeWord _ (by omega)
  · refine Point.after hset h rfl (h.own.of_sched rfl) (fun a ha => ?_) h.files h.out
    exact storeWord_of_outside (by omega)

section Blocks

variable (hplaced : CodePlaced processX place p) (n : ℤ) (gpr : Reg → ℕ) (rsp last : ℕ)

theorem Setup.hello_ok (k : Kernel) (hl : DataLoaded processX place k) : k.userBytes (place 81) 9 = helloName ∧
    userRangeOk p (place 81) 9 = true ∧ p.granted (k.userBytes (place 81) 9) = permRead := by
  have hname : k.userBytes (place 81) 9 = helloName := hl 81 helloName rfl
  refine ⟨hname, hset.data_ok (show processX[81]? = some (.data helloName) from rfl), ?_⟩
  rw [hname, Process.granted, hset.grants]
  decide

/-- open for writing, without the grant -/
theorem xblock_start : (program processX place i).Block (XAt p file place i) n ⟨gpr, rsp, 0, last⟩ := by
  obtain ⟨t, halone, hpc, hrsp, ht⟩ : ∃ t, (program processX place i).alone 4 ⟨gpr, rsp, 0, last⟩ = some t ∧ t.pc = 4 ∧
      t.rsp = rsp ∧ Calls processX t 2 (place 81) 9 1 := ⟨_, rfl, rfl, rfl, ⟨rfl, rfl, rfl, rfl, rfl⟩⟩
  refine block_call halone ht fun s h hturn c => ?_
  replace h : XPoint p file place i 173 p.fds [] n ⟨gpr, rsp, 0, last⟩ s := h
  obtain ⟨hname, hrange, hgrant⟩ := hset.hello_ok s.kernel h.loaded
  have hcall := call_open_denied h.own hturn hset.mask c.regs (show neededPerms 1 = some permWrite by decide) (by decide)
    hrange (show p.granted _ &&& permWrite ≠ permWrite by rw [hgrant]; decide)
  have hact : (program processX place i).act c t s = _ := act_returns ht hcall
  obtain ⟨gpr', rsp', pc, last'⟩ := t
  subst hpc
  refine ⟨_, _, 168, hact, ⟨rfl, ?_⟩, by rw [h.left]; omega⟩
  refine Point.after hset h (hrsp.trans h.rsp) h.own (fun a _ => rfl) h.files ?_
  exact quiet_out (by decide) _ _ _ _ h.out

include hplaced

theorem xblock_first : (program processX place i).Block (XAt p file place i) n ⟨gpr, rsp, 5, last⟩ := by
  obtain ⟨t, halone, hpc, hrsp, hrax, h13, hitem⟩ : ∃ t, (program processX place i).alone 1 ⟨gpr, rsp, 5, last⟩ = some t ∧
      t.pc = 6 ∧ t.rsp = rsp ∧ t.gpr .rax = gpr .rax ∧ t.gpr .r13 = place 84 ∧ processX[t.pc]? = some (.call 38) :=
    ⟨_, rfl, rfl, rfl, rfl, rfl, rfl⟩
  refine block_of halone hitem rfl fun s h _ c => ?_
  obtain ⟨hrax', h⟩ := h
  obtain ⟨t', s', hact, h'⟩ := enter_report hset (firstJob p (t.gpr .r12)) (c := c) (Or.inl ⟨_, rfl⟩) hplaced h hitem
    (by rw [hpc]; rfl) hrsp (hrax.trans hrax') h13 rfl
  rw [(firstJob_line _).2] at h'
  exact ⟨t', s', _, hact, h', by rw [h.left]; exact (by decide : (118 : ℤ) + 48 + (1 : ℕ) + 1 ≤ 168)⟩

omit hplaced in
/-- open for reading -/
theorem xblock_again : (program processX place i).Block (XAt p file place i) n ⟨gpr, rsp, 7, last⟩ := by
  obtain ⟨t, halone, hpc, hrsp, ht⟩ : ∃ t, (program processX place i).alone 4 ⟨gpr, rsp, 7, last⟩ = some t ∧ t.pc = 11 ∧
      t.rsp = rsp ∧ Calls processX t 2 (place 81) 9 0 := ⟨_, rfl, rfl, rfl, ⟨rfl, rfl, rfl, rfl, rfl⟩⟩
  refine block_call halone ht fun s h hturn c => ?_
  obtain ⟨r, -, h⟩ := h
  rw [show (firstJob p r).out = [] from rfl, List.nil_append, (firstJob_line r).1] at h
  obtain ⟨hname, hrange, hgrant⟩ := hset.hello_ok s.kernel h.loaded
  have hgrant' : p.granted (s.kernel.userBytes (place 81) 9) &&& permRead = permRead := by
    rw [hgrant]
    decide
  have hlook : s.kernel.fs.lookup (s.kernel.userBytes (place 81) 9) = file := by rw [hname]; exact h.files
  obtain ⟨gpr', rsp', pc, last'⟩ := t
  subst hpc
  cases file with
  | some I =>
    have hinst : installFd p.fds ⟨permRead, I, 0⟩ = some (3, openFds ⟨permRead, I, 0⟩) := by
      rw [hset.fds]
      rfl
    obtain ⟨k, hcall, hown, hmem, hfs⟩ := call_open h.own hturn hset.mask c.regs (show neededPerms 0 = _ by decide)
      (by decide) hrange hgrant' hlook hinst
    refine ⟨_, _, 113, act_returns ht hcall, ⟨rfl, ?_⟩, by rw [h.left]; exact (by decide : (113 : ℤ) + (4 : ℕ) + 1 ≤ 118)⟩
    refine h.after hset (hrsp.trans h.rsp) hown (fun a _ => by rw [hmem]) (hfs ▸ h.files) ?_
    exact quiet_out (by decide) _ _ _ _ h.out
  | none =>
    have hcall := call_open_missing h.own hturn hset.mask c.regs (show neededPerms 0 = _ by decide) (by decide) hrange hgrant'
      hlook
    refine ⟨_, _, 113, act_returns ht hcall, ⟨rfl, ?_⟩, by rw [h.left]; exact (by decide : (113 : ℤ) + (4 : ℕ) + 1 ≤ 118)⟩
    refine h.after hset (hrsp.trans h.rsp) h.own (fun a _ => rfl) h.files ?_
    exact quiet_out (by decide) _ _ _ _ h.out

omit hplaced in
/-- write through the descriptor -/
theorem xblock_opened {I : ℕ} (hfile : file = some I) (hrax : gpr .rax = 3) :
    (program processX place i).Block (XAt p file place i) n ⟨gpr, rsp, 12, last⟩ := by
  have hlt : gpr .rax < 2 ^ 63 := by rw [hrax]; decide
  have htest : ∀ m, (program processX place i).alone (m + 3) ⟨gpr, rsp, 12, last⟩ =
      (program processX place i).alone m ⟨Function.update gpr .r12 (gpr .rax), rsp, 15, gpr .rax⟩ := fun m =>
    (alone_succ place i rfl rfl (m + 2)).trans <| (alone_succ place i rfl rfl (m + 1)).trans
      (alone_succ place i rfl (Thread.move_js_not hlt) m)
  obtain ⟨t, halone, hpc, hrsp, h12, ht⟩ : ∃ t, (program processX place i).alone 4
      ⟨Function.update gpr .r12 (gpr .rax), rsp, 15, gpr .rax⟩ = some t ∧ t.pc = 19 ∧ t.rsp = rsp ∧
      t.gpr .r12 = gpr .rax ∧ Calls processX t 1 (gpr .rax) (place 83) 3 :=
    ⟨_, rfl, rfl, rfl, rfl, ⟨rfl, rfl, rfl, rfl, rfl⟩⟩
  refine block_call ((htest 4).trans halone) ht fun s h hturn c => ?_
  obtain ⟨-, h⟩ := h
  subst hfile
  rw [hrax] at ht
  have hopen : (xFds p (some I))[3]? = some (some ⟨permRead, I, 0⟩) := rfl
  obtain ⟨hcall, hout⟩ := call_write_denied h.own hturn hset.mask c.regs (le_refl 3) hopen
    (show permRead &&& permWrite = 0 by decide) (hset.data_ok (show processX[83]? = some (.data (str "XYZ")) from rfl))
  have hact : (program processX place i).act c t s = _ := act_returns ht hcall
  obtain ⟨gpr', rsp', pc, last'⟩ := t
  subst hpc
  refine ⟨_, _, 105, hact, ⟨Option.some_ne_none I, rfl, h12.trans hrax, ?_⟩, by rw [h.left]; omega⟩
  refine Point.after hset h (hrsp.trans h.rsp) h.own (fun a _ => rfl) h.files ?_
  rw [show stdoutOf s.kernel 1 3 (place 83) 3 = [] from hout, List.append_nil, h.out]

/-- the second report, after the write -/
theorem xblock_refused : (program processX place i).Block (XAt p file place i) n ⟨gpr, rsp, 20, last⟩ := by
  obtain ⟨t, halone, hpc, hrsp, hrax, h12, h13, hitem⟩ : ∃ t, (program processX place i).alone 2 ⟨gpr, rsp, 20, last⟩ =
      some t ∧ t.pc = 23 ∧ t.rsp = rsp ∧ t.gpr .rax = gpr .rax ∧ t.gpr .r12 = gpr .r12 ∧ t.gpr .r13 = place 85 ∧
      processX[t.pc]? = some (.call 38) := ⟨_, rfl, rfl, rfl, rfl, rfl, rfl, rfl⟩
  refine block_of halone hitem rfl fun s h _ c => ?_
  obtain ⟨hfile, hrax', hr12, h⟩ := h
  have hvalue : (secondJob p file).value = err EBADF := if_neg hfile
  have hfd : (secondJob p file).r12 = 3 := if_neg hfile
  obtain ⟨t', s', hact, h'⟩ := enter_report hset (secondJob p file) (c := c) (Or.inr (Or.inl rfl)) hplaced h hitem
    (by rw [hpc]; rfl) hrsp (hrax.trans (hrax'.trans hvalue.symm)) h13 (h12.trans (hr12.trans hfd.symm))
  rw [secondJob_line.2] at h'
  exact ⟨t', s', _, hact, h', by rw [h.left]; exact (by decide : (61 : ℤ) + 41 + (2 : ℕ) + 1 ≤ 105)⟩

/-- the second report when there is no file -/
theorem xblock_missing (hfile : file = none) (hrax : 2 ^ 63 ≤ gpr .rax) :
    (program processX place i).Block (XAt p file place i) n ⟨gpr, rsp, 12, last⟩ := by
  have htest : ∀ m, (program processX place i).alone (m + 3) ⟨gpr, rsp, 12, last⟩ =
      (program processX place i).alone m ⟨Function.update gpr .r12 (gpr .rax), rsp, 21, gpr .rax⟩ := fun m =>
    (alone_succ place i rfl rfl (m + 2)).trans <| (alone_succ place i rfl rfl (m + 1)).trans
      (alone_succ place i rfl (Thread.move_js hrax) m)
  obtain ⟨t, halone, hpc, hrsp, hrax₀, h12, h13, hitem⟩ : ∃ t, (program processX place i).alone 2
      ⟨Function.update gpr .r12 (gpr .rax), rsp, 21, gpr .rax⟩ = some t ∧ t.pc = 23 ∧ t.rsp = rsp ∧ t.gpr .rax = 0 ∧
      t.gpr .r12 = gpr .rax ∧ t.gpr .r13 = place 85 ∧ processX[t.pc]? = some (.call 38) :=
    ⟨_, rfl, rfl, rfl, rfl, rfl, rfl, rfl⟩
  refine block_of ((htest 2).trans halone) hitem rfl fun s h _ c => ?_
  obtain ⟨hrax', h⟩ := h
  have hvalue : (secondJob p file).value = 0 := if_pos hfile
  obtain ⟨t', s', hact, h'⟩ := enter_report hset (secondJob p file) (c := c) (Or.inr (Or.inl rfl)) hplaced h hitem
    (by rw [hpc]; rfl) hrsp (hrax₀.trans hvalue.symm) h13 (h12.trans hrax')
  rw [secondJob_line.2] at h'
  exact ⟨t', s', _, hact, h', by rw [h.left]; exact (by decide : (61 : ℤ) + 41 + (5 : ℕ) + 1 ≤ 113)⟩

omit hplaced in
/-- close -/
theorem xblock_close : (program processX place i).Block (XAt p file place i) n ⟨gpr, rsp, 24, last⟩ := by
  obtain ⟨t, halone, hpc, hrsp, ht⟩ : ∃ t, (program processX place i).alone 2 ⟨gpr, rsp, 24, last⟩ = some t ∧ t.pc = 26 ∧
      t.rsp = rsp ∧ Calls processX t 3 (gpr .r12) (gpr .rsi) (gpr .rdx) := ⟨_, rfl, rfl, rfl, ⟨rfl, rfl, rfl, rfl, rfl⟩⟩
  refine block_call halone ht fun s h hturn c => ?_
  obtain ⟨hr12, h⟩ : Returned place i p file (secondJob p file) n ⟨gpr, rsp, 24, last⟩ s := h
  rw [show (secondJob p file).out = str "x1 ok -13\n" from rfl, secondJob_line.1] at h
  rw [show gpr .r12 = xFd file from hr12] at ht
  cases file with
  | some I =>
    have hfd : (xFds p (some I))[3]? = some (some ⟨permRead, I, 0⟩) := rfl
    obtain ⟨k, hcall, hown, hmem, hfs⟩ := call_close h.own hturn hset.mask c.regs hfd (gpr .rsi) (gpr .rdx)
    have hact : (program processX place i).act c t s = _ := act_returns ht hcall
    obtain ⟨gpr', rsp', pc, last'⟩ := t
    subst hpc
    refine ⟨_, _, 58, hact, ?_, by rw [h.left]; exact (by decide : (58 : ℤ) + (2 : ℕ) + 1 ≤ 61)⟩
    refine Point.after hset h (hrsp.trans h.rsp) hown (fun a _ => by rw [hmem]) (hfs ▸ h.files) ?_
    exact quiet_out (by decide) _ _ _ _ h.out
  | none =>
    have hcall := (call_bad_fd h.own hturn hset.mask c.regs (hset.no_fd ENOENT (by decide) (by decide)) (gpr .rsi)
      (gpr .rdx)).2
    have hact : (program processX place i).act c t s = _ := act_returns ht hcall
    obtain ⟨gpr', rsp', pc, last'⟩ := t
    subst hpc
    refine ⟨_, _, 58, hact, ?_, by rw [h.left]; exact (by decide : (58 : ℤ) + (2 : ℕ) + 1 ≤ 61)⟩
    refine Point.after hset h (hrsp.trans h.rsp) h.own (fun a _ => rfl) h.files ?_
    exact quiet_out (by decide) _ _ _ _ h.out

omit hplaced in
/-- open a file without any grant -/
theorem xblock_readme : (program processX place i).Block (XAt p file place i) n ⟨gpr, rsp, 27, last⟩ := by
  obtain ⟨t, halone, hpc, hrsp, ht⟩ : ∃ t, (program processX place i).alone 4 ⟨gpr, rsp, 27, last⟩ = some t ∧ t.pc = 31 ∧
      t.rsp = rsp ∧ Calls processX t 2 (place 82) 10 0 := ⟨_, rfl, rfl, rfl, ⟨rfl, rfl, rfl, rfl, rfl⟩⟩
  refine block_call halone ht fun s h hturn c => ?_
  replace h : XPoint p file place i 58 (xClosed p file) (firstLines file) n ⟨gpr, rsp, 27, last⟩ s := h
  have hname : s.kernel.userBytes (place 82) 10 = str "readme.txt" := h.loaded 82 (str "readme.txt") rfl
  have hrange : userRangeOk p (place 82) 10 = true :=
    hset.data_ok (show processX[82]? = some (.data (str "readme.txt")) from rfl)
  have hgrant : p.granted (s.kernel.userBytes (place 82) 10) &&& permRead ≠ permRead := by
    rw [hname, Process.granted, hset.grants]
    decide
  have hcall := call_open_denied h.own hturn hset.mask c.regs (show neededPerms 0 = some permRead by decide) (by decide)
    hrange hgrant
  have hact : (program processX place i).act c t s = _ := act_returns ht hcall
  obtain ⟨gpr', rsp', pc, last'⟩ := t
  subst hpc
  refine ⟨_, _, 53, hact, ⟨rfl, ?_⟩, by rw [h.left]; omega⟩
  refine Point.after hset h (hrsp.trans h.rsp) h.own (fun a _ => rfl) h.files ?_
  exact quiet_out (by decide) _ _ _ _ h.out

theorem xblock_third : (program processX place i).Block (XAt p file place i) n ⟨gpr, rsp, 32, last⟩ := by
  obtain ⟨t, halone, hpc, hrsp, hrax, h13, hitem⟩ : ∃ t, (program processX place i).alone 1 ⟨gpr, rsp, 32, last⟩ = some t ∧
      t.pc = 33 ∧ t.rsp = rsp ∧ t.gpr .rax = gpr .rax ∧ t.gpr .r13 = place 86 ∧ processX[t.pc]? = some (.call 38) :=
    ⟨_, rfl, rfl, rfl, rfl, rfl, rfl⟩
  refine block_of halone hitem rfl fun s h _ c => ?_
  obtain ⟨hrax', h⟩ := h
  obtain ⟨t', s', hact, h'⟩ := enter_report hset (thirdJob p file (t.gpr .r12)) (c := c) (Or.inr (Or.inr ⟨_, rfl⟩)) hplaced h
    hitem (by rw [hpc]; rfl) hrsp (hrax.trans hrax') h13 rfl
  rw [(thirdJob_line _).2] at h'
  exact ⟨t', s', _, hact, h', by rw [h.left]; exact (by decide : (3 : ℤ) + 48 + (1 : ℕ) + 1 ≤ 53)⟩

omit hplaced in
/-- exit -/
theorem xblock_exit : (program processX place i).Block (XAt p file place i) n ⟨gpr, rsp, 34, last⟩ := by
  obtain ⟨t, halone, hrsp, ht⟩ : ∃ t, (program processX place i).alone 2 ⟨gpr, rsp, 34, last⟩ = some t ∧
      t.rsp = rsp ∧ Calls processX t 60 0 (gpr .rsi) (gpr .rdx) := ⟨_, rfl, rfl, ⟨rfl, rfl, rfl, rfl, rfl⟩⟩
  refine block_call halone ht fun s h hturn c => ?_
  obtain ⟨r, -, h⟩ := h
  rw [show (thirdJob p file r).out = firstLines file from rfl, (thirdJob_line r).1] at h
  obtain ⟨k, hcall, hown, hmem, hfs⟩ := call_exit h.own hturn hset.mask c.regs 0 (gpr .rsi) (gpr .rdx)
  have hact : (program processX place i).act c t s = _ := act_exits ht hcall
  obtain ⟨gpr', rsp', pc, last'⟩ := t
  refine ⟨_, _, 0, hact, ?_, by rw [h.left]; exact (by decide : (0 : ℤ) + (2 : ℕ) + 1 ≤ 3)⟩
  exact Point.after hset h (hrsp.trans h.rsp) hown (fun a _ => by rw [hmem]) (hfs ▸ h.files) h.out

omit hplaced in
theorem XAt.others {b : Boot} {n : ℤ} {t : Thread Reg} {s s' : Sys} (h : XAt p file place i n t s)
    (he : Others b i (fun k k' => k'.fs.lookup helloName = k.fs.lookup helloName) s s') : XAt p file place i n t s' := by
  have keep : ∀ {left : ℤ} {fds : List (Option OpenFile)} {out : Bytes}, XPoint p file place i left fds out n t s →
      XPoint p file place i left fds out n t s' :=
    fun h => Point.others hset h (fun hk => hk.trans h.files) he
  unfold XAt at h ⊢
  split at h
  · exact keep h
  · exact ⟨h.1, keep h.2⟩
  · obtain ⟨r, h12, h⟩ := h
    exact ⟨r, h12, keep h⟩
  · exact ⟨h.1, keep h.2⟩
  · exact ⟨h.1, h.2.1, h.2.2.1, keep h.2.2.2⟩
  · exact ⟨h.r12, keep h.point⟩
  · exact keep h
  · exact ⟨h.1, keep h.2⟩
  · obtain ⟨r, h12, h⟩ := h
    exact ⟨r, h12, keep h⟩
  · exact keep h
  · obtain ⟨job, hjob, h⟩ := h
    exact ⟨job, hjob, h.others hset (fun hk => hk.trans h.name) he⟩

/-- every cut point but the last starts a block -/
theorem xblocks {n : ℤ} {t : Thread Reg} {s : Sys} (h : XAt p file place i n t s) :
    (program processX place i).done t ∨ (program processX place i).Block (XAt p file place i) n t := by
  have h₀ := h
  obtain ⟨gpr, rsp, pc, last⟩ := t
  unfold XAt at h
  split at h
  case h_1 hpc =>
    obtain rfl : pc = 0 := hpc
    exact Or.inr (xblock_start hset n gpr rsp last)
  case h_2 hpc =>
    obtain rfl : pc = 5 := hpc
    exact Or.inr (xblock_first hset hplaced n gpr rsp last)
  case h_3 hpc =>
    obtain rfl : pc = 7 := hpc
    exact Or.inr (xblock_again hset n gpr rsp last)
  case h_4 hpc =>
    obtain rfl : pc = 12 := hpc
    obtain ⟨hrax, -⟩ := h
    cases hfile : file with
    | some I => exact Or.inr (hfile ▸ xblock_opened hset n gpr rsp last hfile (hrax.trans (if_neg (by rw [hfile]; simp))))
    | none =>
      have hneg := err_negative (show 1 ≤ ENOENT by decide) (by decide)
      rw [← show gpr .rax = err ENOENT from hrax.trans (if_pos hfile)] at hneg
      exact Or.inr (hfile ▸ xblock_missing hset hplaced n gpr rsp last hfile hneg)
  case h_5 hpc =>
    obtain rfl : pc = 20 := hpc
    exact Or.inr (xblock_refused hset hplaced n gpr rsp last)
  case h_6 hpc =>
    obtain rfl : pc = 24 := hpc
    exact Or.inr (xblock_close hset n gpr rsp last)
  case h_7 hpc =>
    obtain rfl : pc = 27 := hpc
    exact Or.inr (xblock_readme hset n gpr rsp last)
  case h_8 hpc =>
    obtain rfl : pc = 32 := hpc
    exact Or.inr (xblock_third hset hplaced n gpr rsp last)
  case h_9 hpc =>
    obtain rfl : pc = 34 := hpc
    exact Or.inr (xblock_exit hset n gpr rsp last)
  case h_10 hpc =>
    obtain rfl : pc = 89 := hpc
    exact Or.inl (Nat.le_refl _)
  case h_11 =>
    obtain ⟨job, -, h⟩ := h
    exact Or.inr (report_blocks hset (xCovers hset) n hplaced h.pc_mem h₀)

end Blocks

/-! ## Runs -/

omit hset in
/-- inside of the routine, a part of the line is printed -/
theorem ReportAt.printed {n : ℤ} {t : Thread Reg} {s : Sys} {job : Job} (h : ReportAt place i p file job n t s)
    (hleft : 0 ≤ job.left) : 0 ≤ n ∧ s.out <+: job.out ++ job.line := by
  have hcost : 41 ≤ job.cost := by
    unfold Job.cost
    omega
  have htag : job.out ++ job.tag <+: job.out ++ job.line := by
    rw [Job.line, List.append_assoc, List.prefix_append_right_inj]
    exact List.prefix_append _ _
  have hverdict : job.out ++ job.tag ++ verdict job.value <+: job.out ++ job.line := by
    rw [Job.line, List.append_assoc, List.prefix_append_right_inj]
    exact List.prefix_append _ _
  unfold ReportAt at h
  split at h
  · obtain ⟨-, -, h⟩ := h
    exact ⟨by rw [h.point.left]; omega, h.point.out ▸ List.prefix_append _ _⟩
  · exact ⟨by rw [h.2.point.left]; omega, h.2.point.out ▸ htag⟩
  · exact ⟨by rw [h.2.point.left]; omega, h.2.point.out ▸ hverdict⟩
  · exact ⟨by rw [h.inside.point.left]; omega, h.inside.point.out ▸ hverdict⟩
  · obtain ⟨q, T, -, -, -, h⟩ := h
    exact ⟨by rw [h.inside.point.left]; positivity, h.inside.point.out ▸ hverdict⟩
  · exact ⟨by rw [h.inside.point.left]; omega, h.inside.point.out ▸ hverdict⟩
  · exact ⟨by rw [h.point.left]; omega, h.point.out ▸ List.prefix_rfl⟩
  · exact h.elim

omit hset in
/-- a line of a call in its place -/
theorem IsJob.printed {job : Job} (h : IsJob p file job) : 0 ≤ job.left ∧ job.out ++ job.line <+: checkOutput file := by
  have hfirst : str "x1 ok -13\n" <+: checkOutput file := by
    rw [checkOutput, firstLines, List.append_assoc]
    exact List.prefix_append _ _
  rcases h with ⟨r, rfl⟩ | rfl | ⟨r, rfl⟩
  · refine ⟨show (0 : ℤ) ≤ 118 by decide, ?_⟩
    rw [(firstJob_line r).1]
    exact hfirst
  · refine ⟨show (0 : ℤ) ≤ 61 by decide, ?_⟩
    rw [show (secondJob p file).out = str "x1 ok -13\n" from rfl, secondJob_line.1]
    exact List.prefix_append _ _
  · refine ⟨show (0 : ℤ) ≤ 3 by decide, ?_⟩
    rw [show (thirdJob p file r).out = firstLines file from rfl, (thirdJob_line r).1]
    exact List.prefix_rfl

omit hset in
theorem XAt.printed {n : ℤ} {t : Thread Reg} {s : Sys} (h : XAt p file place i n t s) :
    0 ≤ n ∧ s.out <+: checkOutput file := by
  have hlines : firstLines file <+: checkOutput file := List.prefix_append _ _
  have hfirst : str "x1 ok -13\n" <+: checkOutput file := (List.prefix_append _ _).trans hlines
  have point : ∀ {left : ℤ} {fds : List (Option OpenFile)} {out : Bytes}, 0 ≤ left → out <+: checkOutput file →
      XPoint p file place i left fds out n t s → 0 ≤ n ∧ s.out <+: checkOutput file :=
    fun hleft hout h => ⟨h.left ▸ hleft, h.out ▸ hout⟩
  have returned : ∀ {job : Job}, IsJob p file job → Returned place i p file job n t s →
      0 ≤ n ∧ s.out <+: checkOutput file := fun hjob h => point hjob.printed.1 hjob.printed.2 h.point
  unfold XAt at h
  split at h
  · exact point (by decide) List.nil_prefix h
  · exact point (by decide) List.nil_prefix h.2
  · obtain ⟨r, h⟩ := h
    exact returned (Or.inl ⟨r, rfl⟩) h
  · exact point (by decide) hfirst h.2
  · exact point (by decide) hfirst h.2.2.2
  · exact returned (Or.inr (Or.inl rfl)) h
  · exact point (by decide) hlines h
  · exact point (by decide) hlines h.2
  · obtain ⟨r, h⟩ := h
    exact returned (Or.inr (Or.inr ⟨r, rfl⟩)) h
  · exact point (by decide) List.prefix_rfl h
  · obtain ⟨job, hjob, h⟩ := h
    obtain ⟨hn, hout⟩ := h.printed hjob.printed.1
    exact ⟨hn, hout.trans hjob.printed.2⟩

theorem XAt.at_end {n : ℤ} {t : Thread Reg} {s : Sys} (h : XAt p file place i n t s) (hpc : processX.length ≤ t.pc) :
    s.out = checkOutput file ∧ ∃ q, s.kernel.sched.processes i = some q ∧ ∀ f, some f ∉ q.fds := by
  replace hpc : 89 ≤ t.pc := hpc
  unfold XAt at h
  split at h
  · omega
  · omega
  · omega
  · omega
  · omega
  · omega
  · omega
  · omega
  · omega
  · obtain ⟨q, hq, hs⟩ := h.own
    refine ⟨h.out, q, hq, ?_⟩
    rw [show q.fds = xClosed p file from hs.fds]
    cases file with
    | some I => simp [xClosed]
    | none => simp [xClosed, hset.fds]
  · obtain ⟨job, -, h⟩ := h
    have hmem := h.pc_mem
    simp only [List.mem_cons, List.not_mem_nil, or_false] at hmem
    omega

end

end Tomorrow
