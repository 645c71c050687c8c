/-
Writes through one descriptor, one after another (`sys_write`, `Inode::write_at`).

A write is accepted when it ends at most at `MAX_FILE_SIZE`; then its bytes replace those of the inode from the offset on,
the inode grows if it has to, and the offset moves to the end of the write. Otherwise the call returns EFBIG and nothing
changes. So while no one else writes the inode, its contents after any number of accepted and rejected writes through a
new descriptor are the accepted buffers, and behind them what is left of the old contents.

`writeLog` lists the calls of a run through a descriptor, with the bytes each found in its buffer and its result.
`write_step` is the step lemma for such a call, `hasFile_other` and `fileStep_data` the ones for every other event, and
`run_writes` the run lemma.

The offset stays in the descriptor while the shell may shorten the file, so a write of no bytes can start behind the end:
`write_at` then fills the file up to the offset (`sysWrite_empty`).

Results: `sequential_writes`, `empty_write_iff`.
-/
import Tomorrow.Kernel.Reads
import Tomorrow.Kernel.FdTable

namespace Tomorrow

open Tomorrow.Core Files Sched Shell Vmm

/-! ## One write -/

theorem userBytes_length (k : Kernel) (ptr len : ℕ) : (k.userBytes ptr len).length = len := by
  simp [Kernel.userBytes]

theorem sysWrite_eq {k : Kernel} {p : Process} {f : OpenFile} {fd buf len : ℕ} (hp : k.currentProcess = some p)
    (hf : p.fds[fd]? = some (some f)) (h3 : 3 ≤ fd) (hwrite : f.perms &&& permWrite ≠ 0)
    (hr : userRangeOk p buf len = true) :
    sysWrite k fd buf len = (writeAt (k.fs.data f.inode) f.offset (k.userBytes buf len)).elim (err EFBIG, k) fun r =>
      (len, (k.setData f.inode r.1).setFds p (p.fds.set fd (some { f with offset := r.2 }))) := by
  have hlt : fd < p.fds.length := (List.getElem?_eq_some_iff.1 hf).1
  have hget : p.fds.getD fd none = some f := by rw [List.getD_eq_getElem?_getD, hf]; rfl
  have hstd : ¬ (fd = 1 ∨ fd = 2) := by omega
  simp only [sysWrite, hp, if_neg (Nat.not_le_of_lt hlt), hr, hget, if_neg hwrite, if_neg hstd, Bool.true_eq_false,
    if_false]
  cases writeAt (k.fs.data f.inode) f.offset (k.userBytes buf len) with
  | none => rfl
  | some r => rfl

/-- **Step lemma for a write** through an open file: accepted up to the limit, otherwise refused without effect -/
theorem write_step {k : Kernel} {fd : ℕ} {f : OpenFile} (hf : HasFile k k.sched.current fd f) (h3 : 3 ≤ fd)
    (hwrite : f.perms &&& permWrite ≠ 0) (hal : syscallAllowed k sysWriteNr = true) {buf len : ℕ}
    (hr : ∀ p, k.currentProcess = some p → userRangeOk p buf len = true) (regs : Context) :
    (f.offset + len ≤ maxFileSize → ∃ d k', writeAt (k.fs.data f.inode) f.offset (k.userBytes buf len) =
        some (d, f.offset + len) ∧ syscallHandler k sysWriteNr fd buf len regs = .returns len k' ∧
        HasFile k' k.sched.current fd { f with offset := f.offset + len } ∧ k'.fs.data f.inode = d) ∧
      (maxFileSize < f.offset + len → syscallHandler k sysWriteNr fd buf len regs = .returns (err EFBIG) k) := by
  obtain ⟨p, hp, hfp⟩ := hf
  have hcall : syscallHandler k sysWriteNr fd buf len regs = returned (sysWrite k fd buf len) := by
    rw [syscallHandler_write, if_neg (by simp [hal])]
  have hlen := userBytes_length k buf len
  constructor
  · intro hfit
    have hfit' : f.offset + (k.userBytes buf len).length ≤ maxFileSize := by rw [hlen]; exact hfit
    obtain ⟨d, hd, -⟩ := writeAt_spec (k.fs.data f.inode) hfit'
    rw [hlen] at hd
    refine ⟨d, _, hd, by rw [hcall, sysWrite_eq hp hfp h3 hwrite (hr p hp), hd]; rfl,
      ⟨_, Scheduler.put_self _ _ _, ?_⟩, Function.update_self _ _ _⟩
    exact List.getElem?_set_self (List.getElem?_eq_some_iff.1 hfp).1
  · intro hbig
    have hbig' : maxFileSize < f.offset + (k.userBytes buf len).length := by rw [hlen]; exact hbig
    rw [hcall, sysWrite_eq hp hfp h3 hwrite (hr p hp), writeAt_none hbig']
    rfl

/-- the buffer of a process is at most two pages long, so its length is no error code -/
theorem efbig_ne_len {p : Process} (hp : ProcessOk p) {buf len : ℕ} (hr : userRangeOk p buf len = true) :
    err EFBIG ≠ len := by
  have := userRangeOk_len hp hr
  rw [err_eq (by decide) (by decide)]
  unfold EFBIG
  omega

/-! ## Runs -/

/-- the event is a write through descriptor fd of the process in slot i -/
def WritesFd (i : Fin 64) (fd : ℕ) (k : Kernel) (o : Op) : Prop :=
  ∃ a1 a2 a3 regs, o = .syscall 1 a1 a2 a3 regs ∧ k.sched.current = i ∧ a1.toNat = fd

/-- the bytes in the buffer of such a write and its result -/
def writeCall (i : Fin 64) (fd : ℕ) (k : Kernel) : Op → List (Bytes × ℕ)
  | .syscall nr a1 a2 a3 regs =>
    if nr = 1 ∧ k.sched.current = i ∧ a1.toNat = fd then
      match syscallHandler k sysWriteNr a1.toNat a2.toNat a3.toNat regs with
      | .returns r _ => [(k.userBytes a2.toNat a3.toNat, r)]
      | _ => []
    else []
  | _ => []

/-- the writes through fd in a run, in order -/
def writeLog (b : Boot) (i : Fin 64) (fd : ℕ) : Kernel → List Op → List (Bytes × ℕ)
  | _, [] => []
  | k, o :: ops =>
    writeCall i fd k o ++
      match step b k o with
      | .ok k' => writeLog b i fd k' ops
      | .error _ => []

/-- the buffers of the writes that returned their length, one after another -/
def accepted (log : List (Bytes × ℕ)) : Bytes := (log.filter fun e => e.2 = e.1.length).flatMap Prod.fst

theorem accepted_append (l l' : List (Bytes × ℕ)) : accepted (l ++ l') = accepted l ++ accepted l' := by
  simp [accepted]

theorem writeCall_of_not {i : Fin 64} {fd : ℕ} {k : Kernel} {o : Op} (h : ¬ WritesFd i fd k o) :
    writeCall i fd k o = [] := by
  cases o with
  | syscall nr a1 a2 a3 regs =>
    refine if_neg ?_
    rintro ⟨rfl, hi, hfd⟩
    exact h ⟨a1, a2, a3, regs, rfl, hi, hfd⟩
  | _ => rfl

theorem writeCall_write {k k' : Kernel} {a1 a2 a3 : UInt64} {regs : Context} {r : ℕ}
    (h : syscallHandler k sysWriteNr a1.toNat a2.toNat a3.toNat regs = .returns r k') :
    writeCall k.sched.current a1.toNat k (.syscall 1 a1 a2 a3 regs) = [(k.userBytes a2.toNat a3.toNat, r)] := by
  simp only [writeCall, and_self, if_true, h]

section

variable (b : Boot)

/-- the only events that touch the descriptor or the inode I are writes through fd with a buffer the process may use -/
inductive SoleWriter (i : Fin 64) (fd I : ℕ) (k : Kernel) : Op → Prop where
  | write (a1 a2 a3 : UInt64) (regs : Context) (hi : k.sched.current = i) (hfd : a1.toNat = fd)
      (hal : syscallAllowed k sysWriteNr = true)
      (hr : ∀ p, k.currentProcess = some p → userRangeOk p a2.toNat a3.toNat = true) :
      SoleWriter i fd I k (.syscall 1 a1 a2 a3 regs)
  | other (o : Op) (hw : ¬ WritesFd i fd k o) (hr : ¬ ReadsFd i fd k o)
      (h : ∀ k', step b k o = .ok k' → ¬ Written k o k' I ∧ ∃ g, HasFile k' i fd g) : SoleWriter i fd I k o

variable {b}

/-- what the condition says about a write through fd -/
theorem SoleWriter.allowed {i : Fin 64} {fd I : ℕ} {k : Kernel} {a1 a2 a3 : UInt64} {regs : Context}
    (h : SoleWriter b i fd I k (.syscall 1 a1 a2 a3 regs)) (hi : k.sched.current = i) (hfd : a1.toNat = fd) :
    syscallAllowed k sysWriteNr = true ∧ ∀ p, k.currentProcess = some p → userRangeOk p a2.toNat a3.toNat = true := by
  cases h with
  | write _ _ _ _ _ _ hal hr => exact ⟨hal, hr⟩
  | other _ hw => exact absurd ⟨a1, a2, a3, regs, rfl, hi, hfd⟩ hw

/-- the contents and the offset after the buffers w were accepted, from contents c -/
structure After (k : Kernel) (i : Fin 64) (fd : ℕ) (f : OpenFile) (c w : Bytes) : Prop where
  file : HasFile k i fd { f with offset := w.length }
  data : k.fs.data f.inode = w ++ c.drop w.length

/-- **Step lemma.** -/
theorem After.step {k k' : Kernel} {o : Op} {i : Fin 64} {fd : ℕ} {f : OpenFile} {c w : Bytes}
    (hok : AllProcesses ProcessOk k.sched) (hin : InodesOk k) (h3 : 3 ≤ fd) (hwrite : f.perms &&& permWrite ≠ 0)
    (h : After k i fd f c w) (ho : SoleWriter b i fd f.inode k o) (he : step b k o = .ok k') :
    After k' i fd f c (w ++ accepted (writeCall i fd k o)) := by
  cases ho with
  | write a1 a2 a3 regs hi hfd hal hr =>
    subst hi hfd
    obtain ⟨hacc, hrej⟩ := write_step h.file h3 hwrite hal hr regs
    change (syscallHandler k sysWriteNr a1.toNat a2.toNat a3.toNat regs).next = .ok k' at he
    have hlen := userBytes_length k a2.toNat a3.toNat
    rcases Nat.lt_or_ge maxFileSize (w.length + a3.toNat) with hbig | hfit
    · have hcall := hrej hbig
      rw [hcall] at he
      cases he
      obtain ⟨p, hp, -⟩ := h.file
      have hne : ¬ err EFBIG = (k.userBytes a2.toNat a3.toNat).length := by
        rw [hlen]
        exact efbig_ne_len (hok _ p hp) (hr p hp)
      rw [writeCall_write hcall]
      simpa [accepted, hne] using h
    · obtain ⟨d, u, hd, hcall, hfile, hdata⟩ := hacc hfit
      rw [hcall] at he
      cases he
      have hnext := writeAt_next w c (k.userBytes a2.toNat a3.toNat) (by rw [hlen]; exact hfit)
      rw [h.data, hnext] at hd
      obtain ⟨rfl, -⟩ := Prod.mk.inj (Option.some.inj hd)
      have hacc' : accepted (writeCall k.sched.current a1.toNat k (.syscall 1 a1 a2 a3 regs)) =
          k.userBytes a2.toNat a3.toNat := by
        rw [writeCall_write hcall]
        simp [accepted, hlen]
      rw [hacc']
      refine ⟨?_, hdata⟩
      rw [List.length_append, hlen]
      exact hfile
  | other o hw hr hq =>
    obtain ⟨hnot, g, hg⟩ := hq k' he
    rw [writeCall_of_not hw]
    obtain rfl := hasFile_other he h.file hnot hr hg
    obtain ⟨p, hp, hfp⟩ := h.file
    refine ⟨by simpa [accepted] using hg, ?_⟩
    rcases fileStep_data (file_step he) (hin.opened i p fd _ hp hfp) with hd | hd | hd
    · simpa [accepted] using hd.trans h.data
    · exact absurd (Or.inl hd) hnot
    · exact absurd (Or.inr hd) hnot

/-- **Run lemma.** -/
theorem run_writes {k k' : Kernel} {ops : List Op} {i : Fin 64} {fd : ℕ} {f : OpenFile} {c w : Bytes}
    (hok : AllProcesses ProcessOk k.sched) (hin : InodesOk k) (h3 : 3 ≤ fd) (hwrite : f.perms &&& permWrite ≠ 0)
    (h : After k i fd f c w) (ha : Along b (SoleWriter b i fd f.inode) k ops) (hr : run (step b) k ops = .ok k') :
    After k' i fd f c (w ++ accepted (writeLog b i fd k ops)) := by
  induction ops generalizing k w with
  | nil =>
    cases hr
    simpa [writeLog, accepted] using h
  | cons o ops ih =>
    obtain ⟨u, he, hr⟩ := bind_ok.1 hr
    have hu := h.step hok hin h3 hwrite ha.1 he
    have hfin := ih (fileStep_ok hok (file_step he)) (fileStep_inodesOk hin (file_step he)) hu (ha.2 u he) hr
    simp only [writeLog, he]
    rw [accepted_append, ← List.append_assoc]
    exact hfin

theorem Along.take {P : Kernel → Op → Prop} {k : Kernel} {ops : List Op} (h : Along b P k ops) (j : ℕ) :
    Along b P k (ops.take j) := by
  induction ops generalizing k j with
  | nil => simpa using h
  | cons o ops ih =>
    cases j with
    | zero => trivial
    | succ j => exact ⟨h.1, fun k' he => ih (h.2 k' he) j⟩

/-- the event at position j meets P in the state before it -/
theorem Along.at {P : Kernel → Op → Prop} {k u : Kernel} {ops : List Op} (h : Along b P k ops) {j : ℕ} {o : Op}
    (hu : run (step b) k (ops.take j) = .ok u) (ho : ops[j]? = some o) : P u o := by
  induction ops generalizing k j with
  | nil => cases ho
  | cons o' ops ih =>
    cases j with
    | zero =>
      cases hu
      cases ho
      exact h.1
    | succ j =>
      obtain ⟨v, hv, hu⟩ := bind_ok.1 hu
      exact ih (h.2 v hv) hu ho

end

/-- writes at arbitrary offsets, one after another; a rejected one changes nothing -/
def writeAll (c : Bytes) (ws : List (ℕ × Bytes)) : Bytes :=
  ws.foldl (fun c w => ((writeAt c w.1 w.2).map Prod.fst).getD c) c

theorem writeAll_length_le (c : Bytes) (ws : List (ℕ × Bytes)) : (writeAll c ws).length ≤ max c.length maxFileSize := by
  induction ws generalizing c with
  | nil => exact le_max_left _ _
  | cons w ws ih =>
    refine (ih _).trans (max_le ?_ (le_max_right _ _))
    dsimp only
    cases hw : writeAt c w.1 w.2 with
    | none => exact le_max_left c.length maxFileSize
    | some r => exact writeAt_length_le (e := r.2) hw

/-- **Sequential writes.** In every run from processes as `Process::new` makes them, from a state in which fd is open for
writing at offset 0, on, as long as the only events on the descriptor and its inode are writes through it with valid user
ranges: each write finds the offset at the number of bytes accepted so far, returns its length iff it ends at most at
`MAX_FILE_SIZE`, and otherwise returns EFBIG with the state as it was; at the end the inode holds the accepted buffers w
and behind them its old contents c without their first |w| bytes, and the offset is |w|. A write at any offset leaves the
bytes one expects, and no sequence of writes makes a file longer than it was or than `MAX_FILE_SIZE`. -/
theorem sequential_writes :
    (∀ (b : Boot) (k₁ k k' : Kernel) (ops₀ ops : List Op) (i : Fin 64) (fd : ℕ) (f : OpenFile), Fresh k₁ →
      run (step b) k₁ ops₀ = .ok k → HasFile k i fd f → f.perms &&& permWrite ≠ 0 → f.offset = 0 →
      Along b (SoleWriter b i fd f.inode) k ops → run (step b) k ops = .ok k' →
      (∀ j u a1 a2 a3 regs, run (step b) k (ops.take j) = .ok u → ops[j]? = some (.syscall 1 a1 a2 a3 regs) →
        u.sched.current = i → a1.toNat = fd →
        ∃ o, o = (accepted (writeLog b i fd k (ops.take j))).length ∧ HasFile u i fd { f with offset := o } ∧
          ((∃ u', syscallHandler u sysWriteNr fd a2.toNat a3.toNat regs = .returns a3.toNat u') ↔
            o + a3.toNat ≤ maxFileSize) ∧
          (maxFileSize < o + a3.toNat →
            syscallHandler u sysWriteNr fd a2.toNat a3.toNat regs = .returns (err EFBIG) u)) ∧
      ∃ w, w = accepted (writeLog b i fd k ops) ∧ k'.fs.data f.inode = w ++ (k.fs.data f.inode).drop w.length ∧
        HasFile k' i fd { f with offset := w.length }) ∧
    (∀ (old s : Bytes) (o : ℕ), o + s.length ≤ maxFileSize → ∃ d, writeAt old o s = some (d, o + s.length) ∧
      d.length = max old.length (o + s.length) ∧ (∀ j, o ≤ j → j < o + s.length → d[j]? = s[j - o]?) ∧
      (∀ j, old.length ≤ j → j < o → d[j]? = some 0) ∧
      ∀ j, j < old.length → j < o ∨ o + s.length ≤ j → d[j]? = old[j]?) ∧
    ∀ (c : Bytes) (ws : List (ℕ × Bytes)), (writeAll c ws).length ≤ max c.length maxFileSize := by
  refine ⟨fun b k₁ k k' ops₀ ops i fd f h0 hr₀ hf hwrite hstart ha hr => ?_, fun c s o h => writeAt_spec c h,
    writeAll_length_le⟩
  have hok := run_processOk h0 hr₀
  have hin := run_inodesOk h0 hr₀
  have h3 : 3 ≤ fd := by
    obtain ⟨p, hp, hfp⟩ := hf
    exact (run_table h0 hr₀ i p hp).first_le ⟨f, hfp⟩
  have hafter : After k i fd f (k.fs.data f.inode) [] := ⟨by rw [List.length_nil, ← hstart]; exact hf, rfl⟩
  refine ⟨fun j u a1 a2 a3 regs hu hj hi hfd => ?_, ?_⟩
  · have hu' := run_writes hok hin h3 hwrite hafter (ha.take j) hu
    rw [List.nil_append] at hu'
    refine ⟨_, rfl, hu'.file, ?_⟩
    obtain ⟨hal, hrange⟩ := (ha.at hu hj).allowed hi hfd
    subst hi
    obtain ⟨hacc, hrej⟩ := write_step hu'.file h3 hwrite hal hrange regs
    refine ⟨⟨fun ⟨u', hcall⟩ => ?_, fun hfit => ?_⟩, hrej⟩
    · by_contra hbig
      rw [hrej (Nat.lt_of_not_le hbig)] at hcall
      injection hcall with hlen
      obtain ⟨p, hp, -⟩ := hu'.file
      have hoku := run_invariant (I := fun k => AllProcesses ProcessOk k.sched)
        (fun _ _ _ hI he => fileStep_ok hI (file_step he)) hok hu
      exact efbig_ne_len (hoku _ p hp) (hrange p hp) hlen
    · obtain ⟨d, u', -, hcall, -⟩ := hacc hfit
      exact ⟨u', hcall⟩
  · have hk' := run_writes hok hin h3 hwrite hafter ha hr
    rw [List.nil_append] at hk'
    exact ⟨_, rfl, hk'.data, hk'.file⟩

/-- every event is a write through fd with a buffer the process may use -/
def onlyWrites (b : Boot) (i : Fin 64) (fd : ℕ) : Kernel → List Op → Bool
  | _, [] => true
  | k, .syscall nr a1 a2 a3 regs :: ops =>
    decide (nr = 1 ∧ k.sched.current = i ∧ a1.toNat = fd) && syscallAllowed k sysWriteNr &&
      (k.currentProcess.all fun p => userRangeOk p a2.toNat a3.toNat) &&
        match step b k (.syscall nr a1 a2 a3 regs) with
        | .ok k' => onlyWrites b i fd k' ops
        | .error _ => true
  | _, _ => false

theorem onlyWrites_along {b : Boot} {i : Fin 64} {fd I : ℕ} {k : Kernel} {ops : List Op} (h : onlyWrites b i fd k ops = true) :
    Along b (SoleWriter b i fd I) k ops := by
  induction ops generalizing k with
  | nil => trivial
  | cons o ops ih =>
    cases o with
    | syscall nr a1 a2 a3 regs =>
      simp only [onlyWrites, Bool.and_eq_true, decide_eq_true_eq] at h
      obtain ⟨⟨⟨⟨rfl, hi, hfd⟩, hal⟩, hrange⟩, hrest⟩ := h
      refine ⟨.write a1 a2 a3 regs hi hfd hal fun p hp => ?_, fun k' he => ?_⟩
      · rw [hp] at hrange
        exact hrange
      · rw [he] at hrest
        exact ih hrest
    | _ => cases h

/-- open for writing, write the page 16 times, which fills the file, and then one byte more -/
def demoWrites : List Op :=
  .syscall 2 0x1000 9 1 demoProcess.context :: List.replicate 16 (.syscall 1 3 0x1000 0x1000 demoProcess.context) ++
    [.syscall 1 3 0x1000 1 demoProcess.context]

/-- the 16 pages are accepted, the last byte is refused, and the file is full -/
theorem sequential_writes_demo : ∃ k u k', run (step demoBoot) demoFiles (demoWrites.take 1) = .ok k ∧
    run (step demoBoot) k ((demoWrites.drop 1).take 16) = .ok u ∧ run (step demoBoot) k (demoWrites.drop 1) = .ok k' ∧
    syscallHandler u sysWriteNr 3 0x1000 1 demoProcess.context = .returns (err EFBIG) u ∧
    k'.fs.data 0 = accepted (writeLog demoBoot 0 3 k (demoWrites.drop 1)) ++ (k.fs.data 0).drop 65536 ∧
    HasFile k' 0 3 ⟨permWrite, 0, 65536⟩ := by
  obtain ⟨k, p, hr, hp, hf⟩ := fileAt_some
    (show fileAt (run (step demoBoot) demoFiles (demoWrites.take 1)) 3 = some ⟨permWrite, 0, 0⟩ by decide +kernel)
  obtain ⟨k₂, hr₂, hk⟩ := endsWith_iff.1
    (show endsWith (fun k => onlyWrites demoBoot 0 3 k (demoWrites.drop 1) && endsWith (fun u =>
        decide (u.sched.current = 0 ∧ fileAt (.ok u) 3 = some ⟨permWrite, 0, 65536⟩ ∧
          fileAt (run (step demoBoot) u (demoWrites.drop 17)) 3 = some ⟨permWrite, 0, 65536⟩))
        (run (step demoBoot) k ((demoWrites.drop 1).take 16)))
      (run (step demoBoot) demoFiles (demoWrites.take 1)) = true by decide +kernel)
  rw [hr] at hr₂
  cases hr₂
  rw [Bool.and_eq_true] at hk
  obtain ⟨u, hu, hfull⟩ := endsWith_iff.1 hk.2
  obtain ⟨hcur, hfile, hend⟩ := of_decide_eq_true hfull
  obtain ⟨v, q, hv, hq, hfq⟩ := fileAt_some hfile
  cases hv
  obtain ⟨k', q', hlast, hq', hfq'⟩ := fileAt_some hend
  have hk' : run (step demoBoot) k (demoWrites.drop 1) = .ok k' := by
    rw [show demoWrites.drop 1 = (demoWrites.drop 1).take 16 ++ demoWrites.drop 17 from rfl, run_append, hu]
    exact hlast
  obtain ⟨hwrites, w, hw, hdata, hopen⟩ := sequential_writes.1 demoBoot demoFiles k k' (demoWrites.take 1)
    (demoWrites.drop 1) 0 3 ⟨permWrite, 0, 0⟩ demoFresh hr ⟨p, hp, hf⟩ (by decide) rfl (onlyWrites_along hk.1) hk'
  obtain ⟨o, -, ho, -, hrefused⟩ := hwrites 16 u 3 0x1000 1 demoProcess.context hu rfl hcur rfl
  have hoff : 65536 = o := congrArg OpenFile.offset (ho.unique ⟨q, hq, hfq⟩)
  have hlen : 65536 = w.length := congrArg OpenFile.offset (hopen.unique ⟨q', hq', hfq'⟩)
  subst hoff
  rw [← hlen] at hdata hopen
  exact ⟨k, u, k', hr, hu, hk', hrefused (by decide), hw ▸ hdata, hopen⟩

/-! ## Empty writes -/

/-- no file has other contents and no descriptor another file or offset -/
structure Untouched (k k' : Kernel) : Prop where
  data : ∀ n, k'.fs.data n = k.fs.data n
  file : ∀ i fd f, HasFile k' i fd f ↔ HasFile k i fd f

theorem Untouched.refl (k : Kernel) : Untouched k k := ⟨fun _ => rfl, fun _ _ _ => Iff.rfl⟩

/-- a write of no bytes resizes the file and leaves every descriptor as it was -/
theorem sysWrite_empty {k : Kernel} {p : Process} {f : OpenFile} {fd buf : ℕ} (hp : k.currentProcess = some p)
    (hf : p.fds[fd]? = some (some f)) (h3 : 3 ≤ fd) (hwrite : f.perms &&& permWrite ≠ 0)
    (hr : userRangeOk p buf 0 = true) (hle : f.offset ≤ maxFileSize) :
    (sysWrite k fd buf 0).2 = k.setData f.inode (resize (k.fs.data f.inode) f.offset) := by
  obtain ⟨hlt, hget⟩ := List.getElem?_eq_some_iff.1 hf
  have hsame : p.fds.set fd (some f) = p.fds := by rw [← hget, List.set_getElem_self]
  have hput : k.sched.put k.sched.current (some p) = k.sched := by
    simp [Scheduler.put, ← show k.sched.processes k.sched.current = some p from hp]
  rw [sysWrite_eq hp hf h3 hwrite hr, show k.userBytes buf 0 = [] from rfl, writeAt_nil _ hle]
  simp [Kernel.setFds, Kernel.setData, hsame, hput]

/-- **Empty writes.** In every state a run reaches from processes as `Process::new` makes them, and for every file that the
current process has open for writing: a write of no bytes with a valid buffer changes no contents and no offset iff the
offset is not behind the end of the file, or is behind `MAX_FILE_SIZE`, where the write is refused. -/
theorem empty_write_iff {b : Boot} {k₁ k : Kernel} {ops : List Op} {p : Process} {fd : ℕ} {f : OpenFile} {buf : ℕ}
    (h0 : Fresh k₁) (hr : run (step b) k₁ ops = .ok k) (hp : k.currentProcess = some p)
    (hf : p.fds[fd]? = some (some f)) (hwrite : f.perms &&& permWrite ≠ 0) (hbuf : userRangeOk p buf 0 = true) :
    Untouched k (sysWrite k fd buf 0).2 ↔ f.offset ≤ (k.fs.data f.inode).length ∨ maxFileSize < f.offset := by
  have h3 : 3 ≤ fd := (run_table h0 hr _ p hp).first_le ⟨f, hf⟩
  rcases Nat.lt_or_ge maxFileSize f.offset with hbig | hle
  · have hnone : writeAt (k.fs.data f.inode) f.offset (k.userBytes buf 0) = none :=
      writeAt_none (hbig.trans_le (Nat.le_add_right _ _))
    rw [sysWrite_eq hp hf h3 hwrite hbuf, hnone]
    exact iff_of_true (Untouched.refl k) (Or.inr hbig)
  · rw [sysWrite_empty hp hf h3 hwrite hbuf hle, or_iff_left (Nat.not_lt_of_le hle), ← resize_eq_self]
    refine ⟨fun h => ?_, fun h => ?_⟩
    · simpa [Kernel.setData] using h.data f.inode
    · simpa [Kernel.setData, h] using Untouched.refl k

/-- open for writing, write four bytes, then the shell replaces the contents by one byte -/
def demoShortened : List Op :=
  [.syscall 2 0x1000 9 1 demoProcess.context, .syscall 1 3 0x1005 4 demoProcess.context, .write (str "hello.txt x")]

/-- a run of the demo kernel that ends with descriptor 3 open in the current process -/
theorem demo_open (ops : List Op) {f : OpenFile} {P : Kernel → Bool}
    (hf : fileAt (run (step demoBoot) demoFiles ops) 3 = some f)
    (h : endsWith (fun k => decide (k.sched.current = 0) && ((k.sched.processes 0).all fun p => userRangeOk p 0x1000 0) &&
      P k) (run (step demoBoot) demoFiles ops) = true) :
    ∃ k p, run (step demoBoot) demoFiles ops = .ok k ∧ k.currentProcess = some p ∧ p.fds[3]? = some (some f) ∧
      userRangeOk p 0x1000 0 = true ∧ P k = true := by
  obtain ⟨k, p, hr, hp, hfp⟩ := fileAt_some hf
  obtain ⟨k₂, hr₂, hk⟩ := endsWith_iff.1 h
  rw [hr] at hr₂
  cases hr₂
  simp only [Bool.and_eq_true, decide_eq_true_eq, hp, Option.all_some] at hk
  obtain ⟨⟨hcur, hbuf⟩, hP⟩ := hk
  exact ⟨k, p, hr, by rw [Kernel.currentProcess, hcur, hp], hfp, hbuf, hP⟩

theorem empty_write_iff_demo : ∃ k p, run (step demoBoot) demoFiles (demoShortened.take 2) = .ok k ∧
    k.currentProcess = some p ∧ p.fds[3]? = some (some ⟨permWrite, 0, 4⟩) ∧ Untouched k (sysWrite k 3 0x1000 0).2 := by
  obtain ⟨k, p, hr, hp, hf, hbuf, hlen⟩ := demo_open (demoShortened.take 2) (f := ⟨permWrite, 0, 4⟩)
    (P := fun k => decide (4 ≤ (k.fs.data 0).length)) (by decide +kernel) (by decide +kernel)
  exact ⟨k, p, hr, hp, hf,
    (empty_write_iff demoFresh hr hp hf (by decide) hbuf).2 (Or.inl (of_decide_eq_true hlen))⟩

/-- after the shell has shortened the file to one byte, an empty write makes it four bytes long -/
theorem empty_write_grows : Fresh demoFiles ∧ ∃ k p, run (step demoBoot) demoFiles demoShortened = .ok k ∧
    k.currentProcess = some p ∧ p.fds[3]? = some (some ⟨permWrite, 0, 4⟩) ∧ userRangeOk p 0x1000 0 = true ∧
    k.fs.data 0 = str "x" ∧ (sysWrite k 3 0x1000 0).2.fs.data 0 = str "x" ++ [0, 0, 0] ∧
    ¬ Untouched k (sysWrite k 3 0x1000 0).2 := by
  obtain ⟨k, p, hr, hp, hf, hbuf, hdata⟩ := demo_open demoShortened (f := ⟨permWrite, 0, 4⟩)
    (P := fun k => decide (k.fs.data 0 = str "x") &&
      decide ((sysWrite k 3 0x1000 0).2.fs.data 0 = str "x" ++ [0, 0, 0])) (by decide +kernel) (by decide +kernel)
  simp only [Bool.and_eq_true, decide_eq_true_eq] at hdata
  obtain ⟨hold, hnew⟩ := hdata
  refine ⟨demoFresh, k, p, hr, hp, hf, hbuf, hold, hnew, fun h => ?_⟩
  have hsame := h.data 0
  rw [hnew, hold] at hsame
  exact absurd hsame (by decide)

end Tomorrow
