/-
The address space that `Process::new` lays out: for each pid one stack page and two code pages in the page tables that
all processes share.

`newStep` is one call of `Process::new`; a run of it collects the processes made. `Layout` says which pages are mapped so
far (M), that the tables above them are writable, and that nothing below the root entries of `boot.s` has changed. One
call of `map` adds one page and keeps the others (`Layout.map`), so a new process adds its three (`Layout.new`), and
pids below 2^28 never collide.

Result: `process_layout`.
-/
import Tomorrow.Memory.Walk
import Tomorrow.Kernel.UserMappings

namespace Tomorrow

open Tomorrow.Core Files Sched Vmm

/-! ## Model -/

/-- the arguments of `Process::new` -/
structure NewArgs where
  pid : ℕ
  mask : ℕ
  entry : UInt64
  grants : List Grant

/-- one more process; the first component lists those made so far -/
def newStep (pml4 : ℕ) (st : List (NewArgs × Process) × Phys) (a : NewArgs) :
    Except Panic (List (NewArgs × Process) × Phys) :=
  processNew pml4 st.2 a.pid a.mask a.entry.toNat a.grants >>= fun r => .ok (st.1 ++ [(a, r.1)], r.2)

/-- the physical page of the entry function -/
def NewArgs.codePhys (a : NewArgs) : ℕ := (a.entry.toNat - kernelVirt) / 4096 * 4096

/-- the stack page and the code pages of a process translate to its own stack and to the pages of its entry function,
open to ring 3 and writable -/
structure Placed (mem : Mem) (pml4 : ℕ) (a : NewArgs) (p : Process) : Prop where
  pid : p.pid = a.pid
  regions : HasRegions p
  stack : walk mem pml4 (stackVirt p.pid) = some ⟨p.userStackPhys, true, true⟩
  code : ∀ i < codePages, walk mem pml4 (codeVirt p.pid + i * pageSize) = some ⟨a.codePhys + i * pageSize, true, true⟩

def RegionsDisjoint (p q : Process) : Prop :=
  ∀ r ∈ p.userRegions, ∀ t ∈ q.userRegions, ∀ a, r.1 ≤ a ∧ a < r.2 → ¬ (t.1 ≤ a ∧ a < t.2)

/-! ## The invariant -/

/-- the pages of M are mapped, and below the root entries of `boot.s` memory is as in s₀ -/
structure Layout (b : Boot) (s₀ : Phys) (M : List (ℕ × ℕ)) (T : ℕ → Option (List ℕ)) (s : Phys) : Prop where
  tree : Tree b.pml4 bootRoots T s
  reserved : Pmm.Reserved b.toImage s.pmm
  writable : UpperWritable T s
  le : ∀ t π, bootPaths b t = some π → T t = some π
  boot : ∀ t π i j, bootPaths b t = some π → i < 512 → (π ++ [i]).head? = some j → j ∈ bootRoots →
    s.mem (t + 8 * i) = s₀.mem (t + 8 * i)
  own : ∀ x ∈ M, userLeaf s.mem b.pml4 (path x.1) = some (x.2 ||| 7)
  pages : ∀ x ∈ M, (x.1 % 4096 = 0 ∧ x.1 < 2 ^ 47) ∧ x.2 % 4096 = 0 ∧ x.2 < 2 ^ 52

section

variable {b : Boot} {s₀ s s' : Phys} {M M' : List (ℕ × ℕ)} {T : ℕ → Option (List ℕ)}

theorem Layout.mono (h : Layout b s₀ M T s) (hM : ∀ x ∈ M', x ∈ M) : Layout b s₀ M' T s :=
  ⟨h.tree, h.reserved, h.writable, h.le, h.boot, fun x hx => h.own x (hM x hx), fun x hx => h.pages x (hM x hx)⟩

/-- the boot tables are writable -/
theorem boot_writable (hs : BootTables b s) : UpperWritable (bootPaths b) s := by
  intro t π i hT _ hi hp
  rcases boot_entry hs hT hi hp with ⟨u, hu, -, -, he⟩ | ⟨-, he⟩
  · rw [he]
    exact (link_bits hu).2
  · exact (large_bits he).2.2

theorem boot_layout (hs : BootTables b s) : Layout b s [] (bootPaths b) s where
  tree := boot_tree hs
  reserved := hs.reserved
  writable := boot_writable hs
  le := fun _ _ h => h
  boot := fun _ _ _ _ _ _ _ _ => rfl
  own := fun _ hx => absurd hx List.not_mem_nil
  pages := fun _ hx => absurd hx List.not_mem_nil

/-- a change outside the tables -/
theorem Layout.frame (h : Layout b s₀ M T s)
    (hmem : ∀ t i, T t ≠ none → i < 512 → s'.mem (t + 8 * i) = s.mem (t + 8 * i))
    (hbits : ∀ q, bit s.pmm q = true → bit s'.pmm q = true) : Layout b s₀ M T s' := by
  refine ⟨h.tree.frame hmem fun t ht => hbits _ (h.tree.used t ht), fun q hq hk => hbits q (h.reserved q hq hk), ?_, h.le,
    ?_, fun x hx => userLeaf_frame h.tree hmem (h.own x hx), h.pages⟩
  · intro t π i hT hlen hi hp
    rw [hmem t i (isTable hT) hi] at hp ⊢
    exact h.writable t π i hT hlen hi hp
  · intro t π i j hT hi hhead hj
    rw [hmem t i (isTable (h.le t π hT)) hi]
    exact h.boot t π i j hT hi hhead hj

/-- **One page more.** A user mapping outside the boot roots at a page that is not mapped yet adds that page. -/
theorem Layout.map (h : Layout b s₀ M T s) {virt a : ℕ}
    (hmap : Vmm.map b.pml4 s virt a (pageWritable ||| pageUser) = .ok s') (hlow : 0x10000000000 ≤ virt)
    (hv : virt % 4096 = 0 ∧ virt < 2 ^ 47) (ha : a % 4096 = 0 ∧ a < 2 ^ 52) (hfresh : ∀ x ∈ M, x.1 ≠ virt) :
    ∃ T', Layout b s₀ ((virt, a) :: M) T' s' := by
  have hroot := pml4Idx_clear hlow hv.2
  obtain ⟨T', hrew, hleaf⟩ := map_rewrites h.tree h.reserved (fun _ => clear_of_root h.tree hroot) hmap
  refine ⟨T', hrew.tree, hrew.reserved, h.writable.rewrites hrew rfl, fun t π hT => hrew.le t π (h.le t π hT), ?_, ?_, ?_⟩
  · intro t π i j hT hi hhead hj
    rw [hrew.elsewhere (h.le t π hT) hi hhead fun he => hroot (he ▸ hj)]
    exact h.boot t π i j hT hi hhead hj
  · intro x hx
    rcases List.mem_cons.1 hx with rfl | hx
    · rw [← leafFlags]
      exact hleaf (by decide)
    · refine userLeaf_grows h.tree hrew.grows rfl h.tree.root_path rfl (path_lt _) (fun hpath => ?_) (h.own x hx)
      obtain ⟨hx1, -⟩ := h.pages x hx
      have := path_inj (v := x.1) (w := virt) (by omega) (by omega) hpath
      exact hfresh x hx (by omega)
  · intro x hx
    rcases List.mem_cons.1 hx with rfl | hx
    · exact ⟨hv, ha⟩
    · exact h.pages x hx

end

/-! ## A new process -/

/-- the pages of a process, with what they translate to -/
def pagesOf (a : NewArgs) (p : Process) : List (ℕ × ℕ) :=
  (stackVirt a.pid, p.userStackPhys) :: (List.range codePages).map fun i =>
    (codeVirt a.pid + i * pageSize, a.codePhys + i * pageSize)

theorem mem_pagesOf {a : NewArgs} {p : Process} {x : ℕ × ℕ} : x ∈ pagesOf a p ↔ x = (stackVirt a.pid, p.userStackPhys) ∨
    x = (codeVirt a.pid, a.codePhys) ∨ x = (codeVirt a.pid + 4096, a.codePhys + 4096) := by
  simp [pagesOf, codePages, pageSize, List.range_succ]

/-- processes with different pids below 2^28 have different pages -/
theorem pagesOf_ne {a c : NewArgs} {p q : Process} (hne : a.pid ≠ c.pid) (ha : a.pid < 2 ^ 28) (hc : c.pid < 2 ^ 28)
    {x y : ℕ × ℕ} (hx : x ∈ pagesOf a p) (hy : y ∈ pagesOf c q) : x.1 ≠ y.1 := by
  rw [mem_pagesOf] at hx hy
  rcases hx with rfl | rfl | rfl <;> rcases hy with rfl | rfl | rfl <;>
    simp only [stackVirt, codeVirt, codePages, pageSize] <;> omega

theorem NewArgs.codePhys_eq (a : NewArgs) {off : ℕ} (h : ckSub a.entry.toNat kernelVirt = .ok off) :
    andNot off 0xFFF = a.codePhys ∧ a.codePhys % 4096 = 0 ∧ a.codePhys < 2 ^ 47 := by
  have hlt := a.entry.toNat_lt
  obtain ⟨hle, he⟩ := ckSub_ok.1 h
  unfold kernelVirt at hle he
  rw [Pmm.andNot_page (by omega), NewArgs.codePhys, kernelVirt, he]
  omega

section

variable {b : Boot} {s₀ s s' : Phys} {M : List (ℕ × ℕ)} {T : ℕ → Option (List ℕ)}

/-- **A new process** adds its three pages. -/
theorem Layout.new (h : Layout b s₀ M T s) {a : NewArgs} {p : Process}
    (hnew : processNew b.pml4 s a.pid a.mask a.entry.toNat a.grants = .ok (p, s')) (hpid : a.pid < 2 ^ 28)
    (hfresh : ∀ x ∈ M, ∀ y ∈ pagesOf a p, x.1 ≠ y.1) :
    ∃ T', Layout b s₀ (pagesOf a p ++ M) T' s' := by
  obtain ⟨stack, m₁, ustack, m₂, usv, off, ucv, s₁, h₁, h₂, husv, hoff, hucv, hmap₁, hmap₂, rfl⟩ := processNew_cases hnew
  obtain ⟨hf, -, hbits, hmem⟩ := newStacks_frame h.tree h.reserved h₁ h₂ a.entry.toNat
  rw [userStackVirt_eq husv] at hmap₁
  rw [userCodeVirt_eq hucv] at hmap₂
  obtain ⟨hfn, hfn0, hfnlt⟩ := a.codePhys_eq hoff
  rw [hfn] at hmap₂
  obtain ⟨s₂, hmap₂, hmap₃⟩ := mapCode_cases hmap₂
  have hmem₁ : (stackVirt a.pid, ustack) ∈ pagesOf a (newProcess a.pid a.mask a.entry.toNat stack ustack usv ucv b.pml4
    a.grants) := mem_pagesOf.2 (Or.inl rfl)
  have hlt := hf.lt
  have base : Layout b s₀ M T (Phys.store ⟨s.mem, m₂⟩ (andNot (stack + 4096) 0xF - 8) a.entry.toNat) :=
    h.frame hmem fun q hq => (hbits q).2 (Or.inr hq)
  obtain ⟨T₁, l₁⟩ := base.map hmap₁ (by unfold stackVirt; omega) (by unfold stackVirt; omega) ⟨hf.aligned, by omega⟩
    fun x hx => hfresh x hx _ hmem₁
  obtain ⟨T₂, l₂⟩ := l₁.map hmap₂ (by unfold codeVirt; omega) (by unfold codeVirt codePages pageSize; omega)
    ⟨hfn0, by omega⟩ (by
      intro x hx
      rcases List.mem_cons.1 hx with rfl | hx
      · simp only [stackVirt, codeVirt, codePages, pageSize]; omega
      · exact hfresh x hx (codeVirt a.pid, a.codePhys) (mem_pagesOf.2 (Or.inr (Or.inl rfl))))
  obtain ⟨T₃, l₃⟩ := l₂.map hmap₃ (by unfold codeVirt; omega) (by unfold codeVirt codePages pageSize; omega)
    ⟨by omega, by omega⟩ (by
      intro x hx
      rcases List.mem_cons.1 hx with rfl | hx
      · simp
      · rcases List.mem_cons.1 hx with rfl | hx
        · simp only [stackVirt, codeVirt, codePages, pageSize]; omega
        · exact hfresh x hx (codeVirt a.pid + 4096, a.codePhys + 4096) (mem_pagesOf.2 (Or.inr (Or.inr rfl))))
  refine ⟨T₃, l₃.mono fun x hx => ?_⟩
  rcases List.mem_append.1 hx with hx | hx
  · rcases mem_pagesOf.1 hx with rfl | rfl | rfl <;> simp [newProcess]
  · exact List.mem_cons_of_mem _ (List.mem_cons_of_mem _ (List.mem_cons_of_mem _ hx))

/-- a page of M translates to its own page -/
theorem Layout.walk (h : Layout b s₀ M T s) {x : ℕ × ℕ} (hx : x ∈ M) :
    Vmm.walk s.mem b.pml4 x.1 = some ⟨x.2, true, true⟩ := by
  obtain ⟨hv, ha⟩ := h.pages x hx
  exact walk_of_userLeaf h.tree h.writable ha.1 ha.2 hv.1 (Or.inl hv.2) (h.own x hx)

/-- addresses below the root entries of `boot.s` translate as before -/
theorem Layout.walk_boot (h : Layout b s₀ M T s) (hs : BootTables b s₀) {v : ℕ} (hv : pml4Idx v ∈ bootRoots) :
    Vmm.walk s.mem b.pml4 v = Vmm.walk s₀.mem b.pml4 v := by
  refine walk_congr (boot_tree hs) fun t π i hT hi hpre => h.boot t π i (pml4Idx v) hT hi ?_ hv
  obtain ⟨rest, hrest⟩ := hpre
  cases π with
  | nil => rw [show i = pml4Idx v from (List.cons.inj hrest).1]; rfl
  | cons x π => rw [show x = pml4Idx v from (List.cons.inj hrest).1]; rfl

/-! ## Runs -/

/-- the pages of all processes made so far are mapped -/
theorem run_layout (hs : BootTables b s₀) (args : List NewArgs) (hpid : ∀ a ∈ args, a.pid < 2 ^ 28)
    (hd : (args.map NewArgs.pid).Nodup) {done : List (NewArgs × Process)}
    (hrun : run (newStep b.pml4) ([], s₀) args = .ok (done, s)) :
    done.map Prod.fst = args ∧ (∀ x ∈ done, HasRegions x.2 ∧ x.2.pid = x.1.pid) ∧
      ∃ T, Layout b s₀ (done.flatMap fun x => pagesOf x.1 x.2) T s := by
  induction args using List.reverseRecOn generalizing done s with
  | nil =>
    cases hrun
    exact ⟨rfl, fun x hx => absurd hx List.not_mem_nil, _, boot_layout hs⟩
  | append_singleton args a ih =>
    obtain ⟨⟨done₁, s₁⟩, hrun₁, hstep⟩ := run_snoc_ok.1 hrun
    obtain ⟨⟨p, s₂⟩, hnew, hend⟩ := bind_ok.1 hstep
    cases hend
    rw [List.map_append, List.nodup_append] at hd
    obtain ⟨hmap, hold, T, hl⟩ := ih (fun c hc => hpid c (List.mem_append_left _ hc)) hd.1 hrun₁
    have ha : a.pid < 2 ^ 28 := hpid a (by simp)
    have hfresh : ∀ x ∈ done₁.flatMap fun x => pagesOf x.1 x.2, ∀ y ∈ pagesOf a p, x.1 ≠ y.1 := by
      intro x hx y hy
      obtain ⟨c, hc, hxc⟩ := List.mem_flatMap.1 hx
      have hmem : c.1 ∈ args := by rw [← hmap]; exact List.mem_map_of_mem hc
      refine pagesOf_ne ?_ (hpid _ (List.mem_append_left _ hmem)) ha hxc hy
      exact hd.2.2 c.1.pid (List.mem_map_of_mem hmem) a.pid (by simp)
    obtain ⟨T', hl'⟩ := hl.new hnew ha hfresh
    refine ⟨by rw [List.map_append, hmap]; rfl, ?_, T', hl'.mono fun x hx => ?_⟩
    · intro x hx
      rcases List.mem_append.1 hx with hx | hx
      · exact hold x hx
      · rw [List.mem_singleton.1 hx]
        obtain ⟨_, _, _, _, _, _, _, _, _, _, _, _, _, _, _, rfl⟩ := processNew_cases hnew
        exact ⟨processNew_regions hnew, rfl⟩
    · rw [List.flatMap_append, List.mem_append] at hx
      rcases hx with hx | hx
      · exact List.mem_append_right _ hx
      · exact List.mem_append_left _ (by simpa using hx)

end

/-- **Address-space layout.** After any calls of `Process::new` on the boot tables with distinct pids below 2^28: the
stack page of every process translates to its own stack and its code pages to the pages of its entry function, open to
ring 3 and writable; the regions of different processes are disjoint; and below the root entries of `boot.s` every
address translates as before. -/
theorem process_layout (b : Boot) (s s' : Phys) (args : List NewArgs) (done : List (NewArgs × Process))
    (hs : BootTables b s) (hpid : ∀ a ∈ args, a.pid < 2 ^ 28) (hd : (args.map NewArgs.pid).Nodup)
    (hrun : run (newStep b.pml4) ([], s) args = .ok (done, s')) :
    done.map Prod.fst = args ∧ (∀ x ∈ done, Placed s'.mem b.pml4 x.1 x.2) ∧
      done.Pairwise (fun x y => RegionsDisjoint x.2 y.2) ∧
      ∀ v, pml4Idx v ∈ bootRoots → walk s'.mem b.pml4 v = walk s.mem b.pml4 v := by
  obtain ⟨hmap, hall, T, hl⟩ := run_layout hs args hpid hd hrun
  have hmem : ∀ x ∈ done, x.1.pid < 2 ^ 28 := fun x hx => hpid _ (by rw [← hmap]; exact List.mem_map_of_mem hx)
  refine ⟨hmap, fun x hx => ?_, ?_, fun v hv => hl.walk_boot hs hv⟩
  · have hpage : ∀ y ∈ pagesOf x.1 x.2, walk s'.mem b.pml4 y.1 = some ⟨y.2, true, true⟩ := fun y hy =>
      hl.walk (List.mem_flatMap.2 ⟨x, hx, hy⟩)
    obtain ⟨hreg, he⟩ := hall x hx
    refine ⟨he, hreg, ?_, fun i hi => ?_⟩
    · rw [he]
      exact hpage _ List.mem_cons_self
    · rw [he]
      exact hpage _ (List.mem_cons_of_mem _ (List.mem_map.2 ⟨i, List.mem_range.2 hi, rfl⟩))
  · rw [← hmap, List.map_map] at hd
    refine (List.pairwise_map.1 hd).imp_of_mem fun {x y} hx hy hne r hr t ht c hc => ?_
    obtain ⟨hx1, hx2⟩ := hall x hx
    obtain ⟨hy1, hy2⟩ := hall y hy
    exact regions_disjoint hx1 hy1 (by rw [hx2, hy2]; exact hne) (by rw [hx2]; exact hmem x hx)
      (by rw [hy2]; exact hmem y hy) hr ht hc

/-- two processes whose stacks lie in different page tables, the higher pid first -/
def demoNew : List NewArgs := [⟨512, 0, 0xFFFF800000110010, []⟩, ⟨3, 0, 0xFFFF800000112FF0, []⟩]

theorem process_layout_demo : ∃ done s', run (newStep demoBoot.pml4) ([], demoKernel.phys) demoNew = .ok (done, s') ∧
    done.map Prod.fst = demoNew ∧ ∀ x ∈ done, Placed s'.mem demoBoot.pml4 x.1 x.2 := by
  have hcheck : (run (newStep demoBoot.pml4) ([], demoKernel.phys) demoNew).isOk = true := by decide +kernel
  cases hrun : run (newStep demoBoot.pml4) ([], demoKernel.phys) demoNew with
  | error e => rw [hrun] at hcheck; cases hcheck
  | ok r =>
    obtain ⟨hmap, hplaced, -⟩ := process_layout demoBoot demoKernel.phys r.2 demoNew r.1 demoStart.bootTables
      (by simp [demoNew]) (by simp [demoNew]) hrun
    exact ⟨r.1, r.2, rfl, hmap, hplaced⟩

end Tomorrow
