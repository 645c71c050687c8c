/-
Which physical pages ring 3 can reach: the shared page tables, the page allocator and the process table over whole runs.

`Process::new` maps the stack of a process at an address that depends on its pid and two pages of kernel code next to it.
Nothing ever unmaps: `reap` frees the stack pages of a dead process and leaves its leaf in the tables. Pids are not used
again, so the leaf of a live process is never overwritten by that of another one.

`Maps` ties the tree of tables to the table of processes, with H the processes that have existed so far: every leaf is a
page of the kernel image or the stack of a process of H at the address of its pid; the stack of a process in the table is
mapped by its own leaf; tables, stacks and driver pages are different pages.

Results:
- `KernelMaps.limit`: pids never leave the lower half of the address space, since the page tables of the stacks, which
  are never given back, would not fit into memory;
- `user_mappings`: in every state of a run a page that ring 3 reaches is kernel code or the stack of a process that is or
  was in the table; and the stack of a process in the table is mapped to its own page, which is used and has no other
  owner;
- `stale_mapping`: after a kill the leaf of the dead process still leads to a page that is free.
-/
import Tomorrow.Kernel.ProcessTable

namespace Tomorrow

open Tomorrow.Core Files Sched Shell Vmm

/-! ## The addresses of a process -/

/-- `user_stack_virt` -/
def stackVirt (pid : ℕ) : ℕ := 0x0000010000000000 + pid * 0x1000

/-- `user_code_virt` -/
def codeVirt (pid : ℕ) : ℕ := 0x0000020000000000 + pid * codePages * pageSize

/-- pids below this bound keep stacks and code below 2^47, clear of the boot mappings -/
def pidLimit : ℕ := 2 ^ 34 - 2 ^ 28

theorem userStackVirt_eq {pid v : ℕ} (h : userStackVirt pid = .ok v) : v = stackVirt pid := by
  obtain ⟨x, hx, h⟩ := bind_ok.1 h
  obtain ⟨-, rfl⟩ := ckMul_ok.1 hx
  exact (ckAdd_ok.1 h).2

theorem userCodeVirt_eq {pid v : ℕ} (h : userCodeVirt pid = .ok v) : v = codeVirt pid := by
  obtain ⟨x, hx, h⟩ := bind_ok.1 h
  obtain ⟨y, hy, h⟩ := bind_ok.1 h
  obtain ⟨-, rfl⟩ := ckMul_ok.1 hx
  obtain ⟨-, rfl⟩ := ckMul_ok.1 hy
  exact (ckAdd_ok.1 h).2

/-- the root entries below which `boot.s` puts large pages -/
def bootRoots : List ℕ := [0, 1, 256]

theorem pml4Idx_clear {v : ℕ} (h1 : 0x10000000000 ≤ v) (h2 : v < 2 ^ 47) : pml4Idx v ∉ bootRoots := by
  rw [(List.cons.inj (path_eq v)).1]
  simp only [bootRoots, List.mem_cons, List.not_mem_nil, or_false, not_or]
  omega

theorem stackVirt_lt {pid : ℕ} (h : pid < pidLimit) : stackVirt pid < 2 ^ 47 := by
  simp only [pidLimit, stackVirt] at *
  omega

/-- two code pages and one stack page, placed by the pid -/
def HasRegions (p : Process) : Prop :=
  p.userRegions = [(codeVirt p.pid, codeVirt p.pid + codePages * pageSize), (stackVirt p.pid, stackVirt p.pid + pageSize)]

theorem processNew_regions {pml4 pid mask entry : ℕ} {s s' : Phys} {grants : List Grant} {p : Process}
    (h : processNew pml4 s pid mask entry grants = .ok (p, s')) : HasRegions p := by
  obtain ⟨stack, m₁, ustack, m₂, usv, off, ucv, s₁, -, -, husv, -, hucv, -, -, rfl⟩ := processNew_cases h
  unfold HasRegions newProcess
  rw [userStackVirt_eq husv, userCodeVirt_eq hucv]

/-- with pids below 2^28 the stacks end where the code begins, and the regions of two processes do not meet -/
theorem regions_disjoint {p q : Process} (hp : HasRegions p) (hq : HasRegions q) (hne : p.pid ≠ q.pid)
    (hp28 : p.pid < 2 ^ 28) (hq28 : q.pid < 2 ^ 28) {r t : ℕ × ℕ} (hr : r ∈ p.userRegions) (ht : t ∈ q.userRegions)
    {a : ℕ} (ha : r.1 ≤ a ∧ a < r.2) : ¬ (t.1 ≤ a ∧ a < t.2) := by
  rw [hp] at hr
  rw [hq] at ht
  simp only [List.mem_cons, List.not_mem_nil, or_false, codeVirt, stackVirt, codePages, pageSize] at hr ht
  rcases hr with rfl | rfl <;> rcases ht with rfl | rfl <;> dsimp only at ha ⊢ <;> omega

/-! ## The invariant -/

/-- a page-aligned address inside the kernel image -/
def InImage (b : Boot) (a : ℕ) : Prop := a % 4096 = 0 ∧ b.kernelStart ≤ a ∧ a + 4096 ≤ b.kernelEnd

/-- what a leaf may be: kernel code, or the stack of a process of H at the address of its pid -/
def LeafOk (b : Boot) (H : ℕ → ℕ → Prop) (π : List ℕ) (e : ℕ) : Prop :=
  (∃ a, InImage b a ∧ e = a ||| 7) ∨ ∃ pid a, H pid a ∧ Pmm.Frame b.toImage a ∧ π = path (stackVirt pid) ∧ e = a ||| 7

/-- the tree of tables T with the leaves allowed by H; the processes of `live` are mapped by their own leaves; the pages
of `owned`, which stacks and drivers hold, are used and no tables -/
structure Maps (b : Boot) (H : ℕ → ℕ → Prop) (T : ℕ → Option (List ℕ)) (ph : Phys) (live : ℕ → ℕ → Prop)
    (owned : ℕ → Prop) : Prop where
  tree : Tree b.pml4 bootRoots T ph
  reserved : Pmm.Reserved b.toImage ph.pmm
  leaves : ∀ t π i, T t = some π → π.length = 3 → i < 512 → ph.mem (t + 8 * i) &&& pagePresent ≠ 0 →
    LeafOk b H (π ++ [i]) (ph.mem (t + 8 * i))
  own : ∀ pid a, live pid a → userLeaf ph.mem b.pml4 (path (stackVirt pid)) = some (a ||| 7)
  apart : ∀ t, T t ≠ none → ¬ owned (t / 4096)
  used : ∀ q, owned q → bit ph.pmm q = true

theorem LeafOk.mono {b : Boot} {H H' : ℕ → ℕ → Prop} (hH : ∀ pid a, H pid a → H' pid a) {π : List ℕ} {e : ℕ}
    (h : LeafOk b H π e) : LeafOk b H' π e := by
  rcases h with h | ⟨pid, a, ha, h⟩
  · exact Or.inl h
  · exact Or.inr ⟨pid, a, hH pid a ha, h⟩

section

variable {b : Boot} {H H' : ℕ → ℕ → Prop} {T : ℕ → Option (List ℕ)} {ph ph' : Phys} {live live' : ℕ → ℕ → Prop}
  {owned owned' : ℕ → Prop}

/-- a change of memory outside the tables and of the allocator that keeps the tables and the owned pages used -/
theorem Maps.frame (h : Maps b H T ph live owned) (hH : ∀ pid a, H pid a → H' pid a)
    (hlive : ∀ pid a, live' pid a → live pid a)
    (hmem : ∀ t i, T t ≠ none → i < 512 → ph'.mem (t + 8 * i) = ph.mem (t + 8 * i))
    (hres : Pmm.Reserved b.toImage ph'.pmm) (htables : ∀ t, T t ≠ none → bit ph'.pmm (t / 4096) = true)
    (hused : ∀ q, owned' q → bit ph'.pmm q = true) (hapart : ∀ t, T t ≠ none → ¬ owned' (t / 4096)) :
    Maps b H' T ph' live' owned' := by
  refine ⟨h.tree.frame hmem htables, hres, ?_, ?_, hapart, hused⟩
  · intro t π i ht hlen hi hp
    rw [hmem t i (isTable ht) hi] at hp ⊢
    exact (h.leaves t π i ht hlen hi hp).mono hH
  · intro pid a hl
    exact userLeaf_frame h.tree hmem (h.own pid a (hlive pid a hl))

/-- a call of `map` for a leaf that H allows, at a page where no live process has its stack -/
theorem Maps.map (h : Maps b H T ph live owned) {virt a : ℕ}
    (hmap : Vmm.map b.pml4 ph virt a (pageWritable ||| pageUser) = .ok ph') (hL : pml4Idx virt ∉ bootRoots)
    (hleaf : LeafOk b H (path virt) (a ||| 7)) (hlive : ∀ pid x, live pid x → path (stackVirt pid) ≠ path virt) :
    ∃ T', Maps b H T' ph' live owned ∧ userLeaf ph'.mem b.pml4 (path virt) = some (a ||| 7) := by
  obtain ⟨T', ext, hnew⟩ := map_extends h.tree h.reserved (by decide) hL hmap
  rw [leafFlags] at ext hnew
  refine ⟨T', ⟨ext.tree, ext.reserved, ?_, ?_, ?_, ?_⟩, hnew⟩
  · intro t π i ht hlen hi hp
    rcases ext.leaf t π i ht hlen hi with ⟨ht', he⟩ | habs | ⟨hpath, he⟩
    · rw [he] at hp ⊢
      exact h.leaves t π i ht' hlen hi hp
    · exact absurd habs hp
    · rw [hpath, he]
      exact hleaf
  · intro pid x hl
    exact userLeaf_grows h.tree ext.grows rfl h.tree.root_path rfl (path_lt _) (hlive pid x hl) (h.own pid x hl)
  · intro t ht howned
    by_cases hT : T t = none
    · have := ext.fresh t hT ht
      rw [h.used _ howned] at this
      cases this
    · exact h.apart t hT howned
  · intro q hq
    exact (ext.used q).2 (Or.inl (h.used q hq))

/-- the code pages lie in the image, so they may be mapped anywhere -/
theorem Maps.mapCode (h : Maps b H T ph live owned) {virt fnPhys : ℕ} (hmap : mapCode b.pml4 virt fnPhys ph = .ok ph')
    (hlow : 0x10000000000 ≤ virt) (hhigh : virt + 4096 < 2 ^ 47) (himg : InImage b fnPhys ∧ InImage b (fnPhys + 4096))
    (hlive : ∀ pid x, live pid x → stackVirt pid < virt / 4096 * 4096) : ∃ T', Maps b H T' ph' live owned := by
  obtain ⟨ph₁, hmap₁, hmap₂⟩ := mapCode_cases hmap
  -- a stack below the code has another path
  have hpath : ∀ w, virt ≤ w → w < 2 ^ 47 → ∀ pid x, live pid x → path (stackVirt pid) ≠ path w := by
    intro w hw hlt pid x hl he
    have h1 := hlive pid x hl
    have h2 := path_inj (v := stackVirt pid) (w := w) (by omega) (by omega) he
    omega
  obtain ⟨T₁, m₁, -⟩ := h.map hmap₁ (pml4Idx_clear hlow (by omega)) (Or.inl ⟨_, himg.1, rfl⟩)
    (hpath virt (le_refl _) (by omega))
  obtain ⟨T₂, m₂, -⟩ := m₁.map hmap₂ (pml4Idx_clear (by omega) hhigh) (Or.inl ⟨_, himg.2, rfl⟩)
    (hpath (virt + 4096) (by omega) hhigh)
  exact ⟨T₂, m₂⟩

theorem code_inImage (b : Boot) (prog : Program) {off : ℕ} (h : ckSub (b.entry prog) kernelVirt = .ok off) :
    InImage b (andNot off 0xFFF) ∧ InImage b (andNot off 0xFFF + 4096) := by
  have hoff := (ckSub_ok.1 h).2
  have hin := b.code_in prog
  have hlow := b.low
  simp only [codePages] at hin
  rw [← hoff] at hin
  rw [Pmm.andNot_page (by omega)]
  unfold InImage
  omega

/-- taking the two stacks of a process and storing its entry point on the kernel stack leaves the tables alone -/
theorem newStacks_frame {root : ℕ} {L : List ℕ} (ht : Tree root L T ph) (hr : Pmm.Reserved b.toImage ph.pmm)
    {stack ustack : ℕ} {m₁ m₂ : Words} (h₁ : Pmm.alloc ph.pmm = .ok (stack, m₁)) (h₂ : Pmm.alloc m₁ = .ok (ustack, m₂))
    (entry : ℕ) :
    Pmm.Frame b.toImage ustack ∧ (bit ph.pmm (stack / 4096) = false ∧ bit ph.pmm (ustack / 4096) = false) ∧
      (∀ q, bit m₂ q = true ↔ (q = stack / 4096 ∨ q = ustack / 4096) ∨ bit ph.pmm q = true) ∧
      ∀ t i, T t ≠ none → i < 512 →
        (Phys.store ⟨ph.mem, m₂⟩ (andNot (stack + 4096) 0xF - 8) entry).mem (t + 8 * i) = ph.mem (t + 8 * i) := by
  obtain ⟨hf₁, hb₁, hm₁⟩ := Pmm.alloc_frame hr h₁
  have hr₁ : Pmm.Reserved b.toImage m₁ := fun x hx hk => by rw [hm₁, hr x hx hk, Bool.or_true]
  obtain ⟨hf₂, hb₂, hm₂⟩ := Pmm.alloc_frame hr₁ h₂
  rw [hm₁, Bool.or_eq_false_iff] at hb₂
  refine ⟨hf₂, ⟨hb₁, hb₂.2⟩, fun q => ?_, fun t i hT hi => ?_⟩
  · rw [hm₂, hm₁]
    simp only [Bool.or_eq_true, decide_eq_true_eq]
    tauto
  · -- the page taken was free, so it is no table
    have hne : t / 4096 ≠ stack / 4096 := fun he => by
      have := ht.used t hT
      rw [he, hb₁] at this
      cases this
    have := ht.aligned t hT
    have := hf₁.aligned
    rw [hf₁.andNot_end, store_of_ne _ (by omega)]

/-- **A new process.** Its stack is mapped at the address of its pid, its pages belong to no table, and every mapping that
was there stays. -/
theorem Maps.new (h : Maps b H T ph live owned) {n mask : ℕ} {prog : Program} {grants : List Grant} {p : Process}
    (hnew : processNew b.pml4 ph n mask (b.entry prog) grants = .ok (p, ph')) (hn : n < pidLimit)
    (hlive : ∀ pid a, live pid a → pid < n) (hH : ∀ pid a, H pid a → H' pid a) (hp : H' p.pid p.userStackPhys) :
    ∃ T', Maps b H' T' ph' (fun pid a => live pid a ∨ (pid = p.pid ∧ a = p.userStackPhys))
      (fun q => owned q ∨ p.Owns q) := by
  obtain ⟨stack, m₁, ustack, m₂, usv, off, ucv, ph₁, h₁, h₂, husv, hoff, hucv, hmap₁, hmap₂, rfl⟩ :=
    processNew_cases hnew
  obtain ⟨hf₂, hfree, hbits, hmem⟩ := newStacks_frame h.tree h.reserved h₁ h₂ (b.entry prog)
  rw [userStackVirt_eq husv] at hmap₁ hnew ⊢
  rw [userCodeVirt_eq hucv] at hmap₂ hnew ⊢
  have hmono : ∀ q, bit ph.pmm q = true → bit m₂ q = true := fun q hq => (hbits q).2 (Or.inr hq)
  have hbase : Maps b H' T (Phys.store ⟨ph.mem, m₂⟩ (andNot (stack + 4096) 0xF - 8) (b.entry prog)) live
      (fun q => owned q ∨ (q = stack / 4096 ∨ q = ustack / 4096)) := by
    refine h.frame hH (fun _ _ hl => hl) hmem (fun x hx hk => hmono x (h.reserved x hx hk))
      (fun t ht => hmono _ (h.tree.used t ht)) ?_ ?_
    · rintro q (hq | hq)
      · exact hmono q (h.used q hq)
      · exact (hbits q).2 (Or.inl hq)
    · rintro t ht (hq | hq | hq)
      · exact h.apart t ht hq
      · have := h.tree.used t ht
        rw [hq, hfree.1] at this
        cases this
      · have := h.tree.used t ht
        rw [hq, hfree.2] at this
        cases this
  obtain ⟨T₁, hm, hleaf⟩ := hbase.map hmap₁ (pml4Idx_clear (by simp only [stackVirt]; omega) (stackVirt_lt hn))
    (Or.inr ⟨n, ustack, hp, hf₂, rfl, rfl⟩) (by
      intro pid x hl he
      have hpid := hlive pid x hl
      have h1 := stackVirt_lt (lt_trans hpid hn)
      have h2 := stackVirt_lt hn
      have := path_inj (v := stackVirt pid) (w := stackVirt n) (by omega) (by omega) he
      simp only [stackVirt] at this
      omega)
  have hadd : Maps b H' T₁ ph₁ (fun pid a => live pid a ∨ (pid = n ∧ a = ustack))
      (fun q => owned q ∨ (q = stack / 4096 ∨ q = ustack / 4096)) := by
    refine ⟨hm.tree, hm.reserved, hm.leaves, ?_, hm.apart, hm.used⟩
    rintro pid a (hl | ⟨rfl, rfl⟩)
    · exact hm.own pid a hl
    · exact hleaf
  exact hadd.mapCode hmap₂ (by simp only [codeVirt]; omega)
    (by simp only [codeVirt, codePages, pageSize, pidLimit] at *; omega) (code_inImage b prog hoff) (by
      intro pid x hl
      have hpid : pid ≤ n := by
        rcases hl with hl | ⟨rfl, -⟩
        · exact le_of_lt (hlive pid x hl)
        · exact le_refl pid
      simp only [stackVirt, codeVirt, codePages, pageSize]
      omega)

end

/-- what ring 3 reaches is a leaf of the tree -/
theorem userLeaf_mem {b : Boot} {T : ℕ → Option (List ℕ)} {ph : Phys} (h : Tree b.pml4 bootRoots T ph) {is π : List ℕ}
    {t e : ℕ} (ht : T t = some π) (hlen : π.length + is.length = 4) (his : ∀ i ∈ is, i < 512)
    (hl : userLeaf ph.mem t is = some e) :
    ∃ t' π' i, T t' = some π' ∧ π'.length = 3 ∧ i < 512 ∧ π' ++ [i] = π ++ is ∧ ph.mem (t' + 8 * i) = e ∧
      e &&& pagePresent ≠ 0 := by
  induction is generalizing t π with
  | nil => cases hl
  | cons i is ih =>
    have hi := his i List.mem_cons_self
    cases is with
    | nil =>
      unfold userLeaf at hl
      split_ifs at hl with hp
      cases hl
      exact ⟨t, π, i, ht, by simpa using hlen, hi, rfl, rfl, hp.1⟩
    | cons j is =>
      unfold userLeaf at hl
      split_ifs at hl with hp
      simp only [List.length_cons] at hlen
      obtain ⟨t', π', i', h1, h2, h3, h4, h5⟩ := ih (h.child t π i ht (by omega) hi hp.1 hp.2.2)
        (by simp only [List.length_append, List.length_cons, List.length_nil]; omega)
        (fun x hx => his x (List.mem_cons_of_mem i hx)) hl
      exact ⟨t', π', i', h1, h2, h3, by rw [h4, List.append_assoc]; rfl, h5⟩

/-! ## The kernel -/

/-- the processes of s' are processes of s, up to what may change in a process -/
def Kept (s s' : Scheduler) : Prop := ∀ i p, s'.processes i = some p → ∃ p₀, s.processes i = some p₀ ∧ SameIdentity p₀ p

/-- a process with this pid and user stack is in the table -/
def Live (s : Scheduler) (pid a : ℕ) : Prop := ∃ i p, s.processes i = some p ∧ p.pid = pid ∧ p.userStackPhys = a

/-- page q is a stack of a process in the table -/
def StackPage (s : Scheduler) (q : ℕ) : Prop := ∃ i p, s.processes i = some p ∧ p.Owns q

/-- the processes of `live` are those made so far, one for each pid below n, and those in the table are among them -/
structure Born (live : ℕ → ℕ → Prop) (s : Scheduler) (n : ℕ) : Prop where
  table : ∀ pid a, Live s pid a → live pid a
  all : ∀ pid, 1 ≤ pid → pid < n → ∃ a, live pid a
  lt : ∀ pid a, live pid a → pid < n

/-- the leaf of every process ever made is still there -/
structure KernelMaps (b : Boot) (H : ℕ → ℕ → Prop) (n : ℕ) (k : Kernel) : Prop where
  maps : ∃ T live, Maps b H T k.phys live (fun q => StackPage k.sched q ∨ ∃ a ∈ k.handedOut, q = a / 4096) ∧
    Born live k.sched n
  drivers : ∀ a ∈ k.handedOut, ¬ StackPage k.sched (a / 4096)

theorem Kept.refl (s : Scheduler) : Kept s s := fun _ p hp => ⟨p, hp, rfl, rfl, rfl, rfl⟩

theorem Kept.put {s : Scheduler} {i : Fin 64} {p q : Process} (hp : s.processes i = some p) (hid : SameIdentity p q) :
    Kept s (s.put i (some q)) := fun _ _ hr => put_cases hp hid hr

theorem Kept.live {s s' : Scheduler} (h : Kept s s') {pid a : ℕ} (hl : Live s' pid a) : Live s pid a := by
  obtain ⟨i, p, hp, h1, h2⟩ := hl
  obtain ⟨p₀, hp₀, e⟩ := h i p hp
  exact ⟨i, p₀, hp₀, e.pid.symm.trans h1, e.userStackPhys.symm.trans h2⟩

theorem Kept.stackPage {s s' : Scheduler} (h : Kept s s') {q : ℕ} (hq : StackPage s' q) : StackPage s q := by
  obtain ⟨i, p, hp, ho⟩ := hq
  obtain ⟨p₀, hp₀, e⟩ := h i p hp
  exact ⟨i, p₀, hp₀, e.owns.1 ho⟩

section

variable {b : Boot} {H : ℕ → ℕ → Prop} {n : ℕ} {k k' : Kernel}

/-- **Pids stay small.** Stacks lie 512 to a table, tables are never given back, and there are 2^21 pages. -/
theorem KernelMaps.limit (h : KernelMaps b H n k) : n < pidLimit := by
  obtain ⟨T, live, hm, hborn⟩ := h.maps
  by_contra hn
  simp only [pidLimit, not_lt] at hn
  -- the table that holds the leaf of pid 512 (q + 1)
  have htable : ∀ q < 2 ^ 21 + 1, ∃ t π i, T t = some π ∧ path (stackVirt (512 * (q + 1))) = π ++ [i] := by
    intro q hq
    obtain ⟨a, ha⟩ := hborn.all (512 * (q + 1)) (by omega) (by omega)
    obtain ⟨t, π, i, ht, -, -, hpath, -⟩ :=
      userLeaf_mem hm.tree hm.tree.root_path rfl (path_lt _) (hm.own _ a ha)
    exact ⟨t, π, i, ht, hpath.symm⟩
  choose! t π i ht hpath using htable
  have hcard : (Finset.range (2 ^ 21)).card < (Finset.range (2 ^ 21 + 1)).card := by
    rw [Finset.card_range, Finset.card_range]
    exact Nat.lt_succ_self _
  have hne : ∀ q < 2 ^ 21 + 1, T (t q) ≠ none := fun q hq => isTable (ht q hq)
  obtain ⟨q, hq, r, hr, hqr, he⟩ := Finset.exists_ne_map_eq_of_card_lt_of_maps_to (f := fun q => t q / 4096) hcard
    (fun q hq => by
      have := hm.tree.lt _ (hne q (Finset.mem_range.1 hq))
      exact Finset.mem_range.2 (show t q / 4096 < 2 ^ 21 by omega))
  rw [Finset.mem_range] at hq hr
  have hsame : t q = t r := by
    have h1 := hm.tree.aligned _ (hne q hq)
    have h2 := hm.tree.aligned _ (hne r hr)
    omega
  have hπ : π q = π r := Option.some.inj ((ht q hq).symm.trans (hsame ▸ ht r hr))
  have hlow : ∀ q < 2 ^ 21 + 1, stackVirt (512 * (q + 1)) < 2 ^ 48 := by
    intro q hq
    simp only [stackVirt]
    omega
  have := path_table_inj (hlow q hq) (hlow r hr) (hpath q hq) (hπ ▸ hpath r hr)
  simp only [stackVirt] at this
  omega

/-- a step that creates no process, leaves memory and the driver pages alone, and frees only stack pages of processes
that have left the table -/
theorem KernelMaps.kept (h : KernelMaps b H n k) (ht : TableInv b k') (hk : Kept k.sched k'.sched)
    (hmem : k'.phys.mem = k.phys.mem) (hdrv : k'.handedOut = k.handedOut)
    (hbit : ∀ q, ¬ StackPage k.sched q → bit k.phys.pmm q = true → bit k'.phys.pmm q = true) : KernelMaps b H n k' := by
  obtain ⟨T, live, hm, hborn⟩ := h.maps
  refine ⟨⟨T, live, hm.frame (fun _ _ hh => hh) (fun _ _ hl => hl) (fun t i _ _ => by rw [hmem]) ht.slots.reserved
    (fun t htt => hbit _ (fun hs => hm.apart t htt (Or.inl hs)) (hm.tree.used t htt)) ?_ ?_,
    fun pid a hl => hborn.table pid a (hk.live hl), hborn.all, hborn.lt⟩, ?_⟩
  · rintro q (⟨i, p, hp, ho⟩ | ⟨a, ha, rfl⟩)
    · exact ht.slots.pages.used i p q hp ho
    · rw [hdrv] at ha
      exact hbit _ (h.drivers a ha) (hm.used _ (Or.inr ⟨a, ha, rfl⟩))
  · rintro t htt (hs | ⟨a, ha, he⟩)
    · exact hm.apart t htt (Or.inl (hk.stackPage hs))
    · rw [hdrv] at ha
      exact hm.apart t htt (Or.inr ⟨a, ha, he⟩)
  · intro a ha hs
    rw [hdrv] at ha
    exact h.drivers a ha (hk.stackPage hs)

/-- what a system call leaves alone -/
theorem syscall_kept {nr a1 a2 a3 : ℕ} {regs : Context} (he : (syscallHandler k nr a1 a2 a3 regs).next = .ok k') :
    Kept k.sched k'.sched ∧ k'.phys = k.phys ∧ k'.handedOut = k.handedOut ∧ k'.nextPid = k.nextPid := by
  have heff := syscall_effect k a1 a2 a3 regs nr
  generalize syscallHandler k nr a1 a2 a3 regs = o at heff he
  cases heff with
  | error nr e => cases he; exact ⟨Kept.refl _, rfl, rfl, rfl⟩
  | stdout p hp hr => cases he; exact ⟨Kept.refl _, rfl, rfl, rfl⟩
  | write p f data stop hp hr hfd hperm hw => cases he; exact ⟨Kept.put hp ⟨rfl, rfl, rfl, rfl⟩, rfl, rfl, rfl⟩
  | opened p need inode fd fds hp => cases he; exact ⟨Kept.put hp ⟨rfl, rfl, rfl, rfl⟩, rfl, rfl, rfl⟩
  | read p f hp hr hfd hperm => cases he; exact ⟨Kept.put hp ⟨rfl, rfl, rfl, rfl⟩, rfl, rfl, rfl⟩
  | closed p f hp hfd => cases he; exact ⟨Kept.put hp ⟨rfl, rfl, rfl, rfl⟩, rfl, rfl, rfl⟩
  | exited p hp => cases he; exact ⟨Kept.put hp ⟨rfl, rfl, rfl, rfl⟩, rfl, rfl, rfl⟩
  | stayed => cases he; exact ⟨Kept.refl _, rfl, rfl, rfl⟩
  | switched p q i hp hi hq hrun => cases he; exact ⟨Kept.put (s := k.sched) hp ⟨rfl, rfl, rfl, rfl⟩, rfl, rfl, rfl⟩

theorem timer_kept {f : TrapFrame} {r : Kernel × Option Context} (hr : timerDoSwitch k f = .ok r) :
    Kept k.sched r.1.sched ∧ r.1.phys = k.phys ∧ r.1.handedOut = k.handedOut ∧ r.1.nextPid = k.nextPid := by
  obtain ⟨g, s, e⟩ := k.ticked_eq
  have hsave : Kept k.sched (k.sched.saveCurrent f) := by
    rcases saveCurrent_cases k.sched f with ⟨p, hp, e⟩ | ⟨-, e⟩
    · rw [e]; exact Kept.put hp ⟨rfl, rfl, rfl, rfl⟩
    · rw [e]; exact Kept.refl _
  rcases timer_cases hr with rfl | rfl | ⟨i, q, -, -, -, rfl⟩
  · rw [e]; exact ⟨Kept.refl _, rfl, rfl, rfl⟩
  · rw [e]; exact ⟨hsave, rfl, rfl, rfl⟩
  · rw [e]; exact ⟨hsave, rfl, rfl, rfl⟩

/-- a new process in the table -/
theorem KernelMaps.new {s' : Scheduler} {ph' : Phys} {mask : ℕ} {prog : Program} {grants : List Grant} {p : Process}
    (h : KernelMaps b H n k) (hs : Slots b k.sched k.phys.pmm n)
    (hnew : processNew b.pml4 k.phys n mask (b.entry prog) grants = .ok (p, ph')) (hadd : k.sched.addProcess p = .ok s')
    (hp : H p.pid p.userStackPhys) : KernelMaps b H (n + 1) { k with sched := s', phys := ph' } := by
  obtain ⟨T, live, hm, hborn⟩ := h.maps
  obtain ⟨hpid, -, -, -, hown, hmono⟩ := processNew_spec hs.reserved hnew
  obtain ⟨T', hm'⟩ := hm.new hnew h.limit hborn.lt (fun _ _ hh => hh) hp
  have hstack : ∀ q, StackPage s' q → StackPage k.sched q ∨ p.Owns q := by
    rintro q ⟨j, r, hr, ho⟩
    rcases Scheduler.addProcess_slot hadd hr with rfl | hr
    · exact Or.inr ho
    · exact Or.inl ⟨j, r, hr, ho⟩
  have howned : ∀ q, (StackPage s' q ∨ ∃ a ∈ k.handedOut, q = a / 4096) →
      (StackPage k.sched q ∨ ∃ a ∈ k.handedOut, q = a / 4096) ∨ p.Owns q := by
    rintro q (hq | hq)
    · exact (hstack q hq).imp Or.inl id
    · exact Or.inl (Or.inr hq)
  refine ⟨⟨T', _, hm'.frame (fun _ _ hh => hh) (fun _ _ hl => hl) (fun _ _ _ _ => rfl) hm'.reserved hm'.tree.used
    (fun q hq => hm'.used q (howned q hq)) (fun t ht hq => hm'.apart t ht (howned _ hq)), ?_, ?_, ?_⟩, ?_⟩
  · rintro pid a ⟨j, r, hr, h1, h2⟩
    rcases Scheduler.addProcess_slot hadd hr with rfl | hr
    · exact Or.inr ⟨h1.symm, h2.symm⟩
    · exact Or.inl (hborn.table pid a ⟨j, r, hr, h1, h2⟩)
  · intro pid h1 hlt
    rcases Nat.lt_or_eq_of_le (Nat.le_of_lt_succ hlt) with hlt | rfl
    · exact (hborn.all pid h1 hlt).imp fun a ha => Or.inl ha
    · exact ⟨p.userStackPhys, Or.inr ⟨hpid.symm, rfl⟩⟩
  · rintro pid a (hl | ⟨rfl, -⟩)
    · exact Nat.lt_succ_of_lt (hborn.lt pid a hl)
    · rw [hpid]; exact Nat.lt_succ_self n
  · intro a ha hq
    rcases hstack _ hq with hq | hq
    · exact h.drivers a ha hq
    · have := (hown _ hq).1
      rw [hm.used _ (Or.inr ⟨a, ha, rfl⟩)] at this
      cases this

/-- a page for a driver: none of the tables or stacks had it -/
theorem KernelMaps.alloc {a : ℕ} {m : Words} (h : KernelMaps b H n k) (ha : Pmm.alloc k.phys.pmm = .ok (a, m)) :
    KernelMaps b H n { k with phys := { k.phys with pmm := m }, handedOut := a :: k.handedOut } := by
  obtain ⟨T, live, hm, hborn⟩ := h.maps
  obtain ⟨hf, hb, hbits⟩ := Pmm.alloc_frame hm.reserved ha
  have hmono : ∀ q, bit k.phys.pmm q = true → bit m q = true := fun q hq => by rw [hbits, hq, Bool.or_true]
  refine ⟨⟨T, live, hm.frame (fun _ _ hh => hh) (fun _ _ hl => hl) (fun _ _ _ _ => rfl)
    (fun x hx hk => hmono x (hm.reserved x hx hk)) (fun t htt => hmono _ (hm.tree.used t htt)) ?_ ?_,
    hborn.table, hborn.all, hborn.lt⟩, ?_⟩
  · rintro q (hq | ⟨x, hx, rfl⟩)
    · exact hmono q (hm.used q (Or.inl hq))
    · rcases List.mem_cons.1 hx with rfl | hx
      · show bit m (x / 4096) = true
        rw [hbits]; simp
      · exact hmono _ (hm.used _ (Or.inr ⟨x, hx, rfl⟩))
  · rintro t htt (hq | ⟨x, hx, hxe⟩)
    · exact hm.apart t htt (Or.inl hq)
    · rcases List.mem_cons.1 hx with rfl | hx
      · have := hm.tree.used t htt
        rw [hxe, hb] at this
        cases this
      · exact hm.apart t htt (Or.inr ⟨x, hx, hxe⟩)
  · intro x hx hq
    rcases List.mem_cons.1 hx with rfl | hx
    · have := hm.used _ (Or.inl hq)
      rw [hb] at this
      cases this
    · exact h.drivers x hx hq

/-- one event keeps the invariant; H holds of all processes in the table after it -/
theorem step_maps {o : Op} (ht : TableInv b k) (h : KernelMaps b H k.nextPid k) (he : step b k o = .ok k')
    (hH : ∀ i p, k'.sched.processes i = some p → H p.pid p.userStackPhys) : KernelMaps b H k'.nextPid k' := by
  have ht' : TableInv b k' := step_table ht he
  -- steps that leave the physical memory alone
  have hquiet : Kept k.sched k'.sched → k'.phys = k.phys → k'.handedOut = k.handedOut → k'.nextPid = k.nextPid →
      KernelMaps b H k'.nextPid k' := by
    intro hk hph hdrv hpid
    rw [hpid]
    exact h.kept ht' hk (by rw [hph]) hdrv (fun q _ hq => by rw [hph]; exact hq)
  cases o with
  | syscall nr a1 a2 a3 regs =>
    obtain ⟨hk, hph, hdrv, hpid⟩ := syscall_kept he
    exact hquiet hk hph hdrv hpid
  | store addr v => cases he; exact hquiet (Kept.refl _) rfl rfl rfl
  | spawn args =>
    rcases spawn_cases he with ⟨s, rfl⟩ | ⟨prog, p, ph, sched, screen, -, hnew, hadd, rfl⟩
    · exact hquiet (Kept.refl _) rfl rfl rfl
    · obtain ⟨i, -, e⟩ := Scheduler.addProcess_spec hadd
      have hp : H p.pid p.userStackPhys := hH i p (by rw [show sched = _ from e]; simp)
      have hm := h.new ht.slots hnew hadd hp
      exact ⟨hm.maps, hm.drivers⟩
  | kill args =>
    have hbit := kill_bit ht he
    rcases kill_cases he with ⟨s, rfl⟩ | ⟨i, p, r, screen, hp, -, hr, rfl⟩
    · exact hquiet (Kept.refl _) rfl rfl rfl
    · refine h.kept ht' ?_ rfl rfl (fun q hq hb => (hbit q).2 ⟨hb, fun j t htj _ ho => hq ⟨j, t, htj, ho⟩⟩)
      intro j t htj
      rcases reap_processes hr j with ⟨-, -, he'⟩ | ⟨-, he'⟩
      · rw [show r.1.processes j = some t from htj] at he'; cases he'
      · rw [show r.1.processes j = some t from htj] at he'
        exact put_cases hp (q := { p with state := .dead }) ⟨rfl, rfl, rfl, rfl⟩ he'.symm
  | write args | create args | rm args =>
    obtain ⟨fs, s, rfl⟩ := step_onFiles rfl he
    exact hquiet (Kept.refl _) rfl rfl rfl
  | timer f =>
    obtain ⟨r, hr, he⟩ := bind_ok.1 he
    cases he
    obtain ⟨hk, hph, hdrv, hpid⟩ := timer_kept hr
    exact hquiet hk hph hdrv hpid
  | allocPage =>
    obtain ⟨⟨a, m⟩, ha, he⟩ := bind_ok.1 he
    cases he
    exact h.alloc ha

/-! ## Boot -/

/-- memory and allocator as `boot.s` and `pmm::init` leave them: the five boot tables, the image and the first megabyte
reserved -/
structure BootTables (b : Boot) (s : Phys) : Prop where
  tables : ∀ n i, n < 5 → i < 512 → s.mem (b.pml4 + n * 4096 + 8 * i) = b.table n i
  reserved : Pmm.Reserved b.toImage s.pmm

theorem Start.bootTables {b : Boot} {k : Kernel} (hs : Start b k) : BootTables b k.phys := ⟨hs.tables, hs.reserved⟩

/-- the paths of the five boot tables -/
def bootPaths (b : Boot) (t : ℕ) : Option (List ℕ) :=
  if t = b.pml4 then some [] else if t = b.pml4 + 0x1000 then some [0] else if t = b.pml4 + 0x2000 then some [1]
  else if t = b.pml4 + 0x3000 then some [256] else if t = b.pml4 + 0x4000 then some [256, 0] else none

theorem bootPaths_cases {b : Boot} {t : ℕ} {π : List ℕ} (h : bootPaths b t = some π) :
    ∃ n < 5, t = b.pml4 + n * 4096 ∧
      ((n = 0 ∧ π = []) ∨ (n = 1 ∧ π = [0]) ∨ (n = 2 ∧ π = [1]) ∨ (n = 3 ∧ π = [256]) ∨ (n = 4 ∧ π = [256, 0])) := by
  unfold bootPaths at h
  split_ifs at h with h0 h1 h2 h3 h4 <;> cases h
  · exact ⟨0, by omega, by omega, Or.inl ⟨rfl, rfl⟩⟩
  · exact ⟨1, by omega, by omega, Or.inr (Or.inl ⟨rfl, rfl⟩)⟩
  · exact ⟨2, by omega, by omega, Or.inr (Or.inr (Or.inl ⟨rfl, rfl⟩))⟩
  · exact ⟨3, by omega, by omega, Or.inr (Or.inr (Or.inr (Or.inl ⟨rfl, rfl⟩)))⟩
  · exact ⟨4, by omega, by omega, Or.inr (Or.inr (Or.inr (Or.inr ⟨rfl, rfl⟩)))⟩

/-- the boot tables are pages of the image -/
theorem bootPage_protected (b : Boot) {n : ℕ} (hn : n < 5) :
    (b.pml4 + n * 4096) / 4096 < 2 ^ 21 ∧ Pmm.Protected b.toImage ((b.pml4 + n * 4096) / 4096) := by
  have h1 := b.pml4_aligned
  have h2 := b.tables_in
  have h3 := b.low
  refine ⟨by omega, Or.inr ?_⟩
  rw [Pmm.Image.pageStart_eq, Pmm.Image.pageEnd_eq]
  omega

/-- the paths of the large pages of `boot.s` -/
def BootLarge (p : List ℕ) : Prop := (∃ i, p = [0, i] ∨ p = [1, i]) ∨ p = [256, 0, 0]

/-- the flag bits of an entry that links a table -/
theorem link_bits {u : ℕ} (hu : u % 4096 = 0) : (u ||| 3) &&& ps = 0 ∧ (u ||| 3) &&& pageWritable ≠ 0 := by
  rw [Ne, ps_eq_zero, writable_eq_zero, testBit_page_or hu (by omega), testBit_page_or hu (by omega)]
  decide

/-- the flag bits of a large page -/
theorem large_bits {x : ℕ} (hx : x % 256 = 0x83) :
    x &&& ps ≠ 0 ∧ x &&& pageUser = 0 ∧ x &&& pageWritable ≠ 0 := by
  rw [Ne, ps_eq_zero, user_eq_zero, Ne, writable_eq_zero]
  simp only [Nat.testBit_eq_decide_div_mod_eq, decide_eq_false_iff_not]
  omega

/-- **Boot entries.** A present entry of a boot table links another of them, or it is a large page. -/
theorem boot_entry {b : Boot} {s : Phys} (hs : BootTables b s) {t i : ℕ} {π : List ℕ} (hT : bootPaths b t = some π)
    (hi : i < 512) (hp : s.mem (t + 8 * i) &&& pagePresent ≠ 0) :
    (∃ u, u % 4096 = 0 ∧ u < 2 ^ 52 ∧ bootPaths b u = some (π ++ [i]) ∧ s.mem (t + 8 * i) = u ||| 3) ∨
      (BootLarge (π ++ [i]) ∧ s.mem (t + 8 * i) % 256 = 0x83) := by
  have hal := b.pml4_aligned
  have hin := b.tables_in
  have hlow := b.low
  obtain ⟨n, hn, rfl, hcase⟩ := bootPaths_cases hT
  rw [hs.tables n i hn hi] at hp ⊢
  rcases hcase with ⟨rfl, rfl⟩ | ⟨rfl, rfl⟩ | ⟨rfl, rfl⟩ | ⟨rfl, rfl⟩ | ⟨rfl, rfl⟩
  · -- the root has three links
    simp only [Boot.table] at hp ⊢
    split_ifs at hp ⊢ with h0 h1 h256
    · exact Or.inl ⟨_, by omega, by omega, by simp [bootPaths, h0], rfl⟩
    · exact Or.inl ⟨_, by omega, by omega, by simp [bootPaths, h1], rfl⟩
    · exact Or.inl ⟨_, by omega, by omega, by simp [bootPaths, h256], rfl⟩
    · exact absurd (Nat.zero_and _) hp
  · exact Or.inr ⟨Or.inl ⟨i, Or.inl rfl⟩, by simp only [Boot.table]; omega⟩
  · exact Or.inr ⟨Or.inl ⟨i, Or.inr rfl⟩, by simp only [Boot.table]; omega⟩
  · simp only [Boot.table] at hp ⊢
    split_ifs at hp ⊢ with h0
    · exact Or.inl ⟨_, by omega, by omega, by simp [bootPaths, h0], rfl⟩
    · exact absurd (Nat.zero_and _) hp
  · simp only [Boot.table] at hp ⊢
    split_ifs at hp ⊢ with h0
    · exact Or.inr ⟨Or.inr (by rw [h0]; rfl), rfl⟩
    · exact absurd (Nat.zero_and _) hp

theorem boot_tree {b : Boot} {s : Phys} (hs : BootTables b s) : Tree b.pml4 bootRoots (bootPaths b) s := by
  have hal := b.pml4_aligned
  have hin := b.tables_in
  have hlow := b.low
  have hdom : ∀ t, bootPaths b t ≠ none → ∃ n < 5, t = b.pml4 + n * 4096 := by
    intro t ht
    obtain ⟨π, hπ⟩ := Option.ne_none_iff_exists'.1 ht
    obtain ⟨n, hn, he, -⟩ := bootPaths_cases hπ
    exact ⟨n, hn, he⟩
  refine ⟨by simp [bootPaths], ?_, ?_, ?_, ?_, ?_⟩
  · intro t ht
    obtain ⟨n, hn, rfl⟩ := hdom t ht
    omega
  · intro t ht
    obtain ⟨n, hn, rfl⟩ := hdom t ht
    omega
  · intro t ht
    obtain ⟨n, hn, rfl⟩ := hdom t ht
    obtain ⟨h1, h2⟩ := bootPage_protected b hn
    exact hs.reserved _ h1 h2
  · intro t π i ht hlen hi hp hps
    rcases boot_entry hs ht hi hp with ⟨u, hu, hlt, hpath, he⟩ | ⟨-, he⟩
    · rw [he, entryToTable_or hu hlt (by omega)]
      exact hpath
    · exact absurd hps (large_bits he).1
  · intro t π i ht hlen hi hp hps
    rcases boot_entry hs ht hi hp with ⟨u, hu, -, -, he⟩ | ⟨hlarge, -⟩
    · rw [he] at hps
      exact absurd (link_bits hu).1 hps
    · -- a large page lies below an entry of the root
      obtain ⟨n, -, -, ⟨-, rfl⟩ | ⟨-, rfl⟩ | ⟨-, rfl⟩ | ⟨-, rfl⟩ | ⟨-, rfl⟩⟩ := bootPaths_cases ht
      · simp [BootLarge] at hlarge
      · exact ⟨0, by simp [bootRoots], rfl⟩
      · exact ⟨1, by simp [bootRoots], rfl⟩
      · exact ⟨256, by simp [bootRoots], rfl⟩
      · exact ⟨256, by simp [bootRoots], rfl⟩

theorem start_maps (hs : Start b k) : KernelMaps b H 1 k := by
  have hnone : ∀ i p, k.sched.processes i ≠ some p := by
    intro i p hp
    rw [hs.sched] at hp
    cases hp
  refine ⟨⟨bootPaths b, fun _ _ => False, ⟨boot_tree hs.bootTables, hs.reserved, ?_, fun _ _ hl => hl.elim, ?_, ?_⟩, ?_, ?_,
    fun _ _ hl => hl.elim⟩, ?_⟩
  · intro t π i ht hlen hi
    obtain ⟨n, -, -, ⟨-, rfl⟩ | ⟨-, rfl⟩ | ⟨-, rfl⟩ | ⟨-, rfl⟩ | ⟨-, rfl⟩⟩ := bootPaths_cases ht <;> simp at hlen
  · rintro t ht (⟨i, p, hp, -⟩ | ⟨a, ha, he⟩)
    · exact hnone i p hp
    · obtain ⟨π, hπ⟩ := Option.ne_none_iff_exists'.1 ht
      obtain ⟨n, hn, rfl, -⟩ := bootPaths_cases hπ
      exact (hs.handedOut a ha).1.unprotected (he ▸ (bootPage_protected b hn).2)
  · rintro q (⟨i, p, hp, -⟩ | ⟨a, ha, rfl⟩)
    · exact absurd hp (hnone i p)
    · exact (hs.handedOut a ha).2
  · rintro pid a ⟨i, p, hp, -⟩
    exact absurd hp (hnone i p)
  · intro pid h1 h2
    omega
  · rintro a - ⟨i, p, hp, -⟩
    exact hnone i p hp

theorem boot_maps (hs : Start b k) (hb : boot b k = .ok k')
    (hH : ∀ i p, k'.sched.processes i = some p → H p.pid p.userStackPhys) : KernelMaps b H k'.nextPid k' := by
  obtain ⟨p₁, ph₁, p₂, ph₂, s₁, s₂, p, screen, h₁, h₂, h₃, h₄, -, rfl⟩ := boot_cases hb
  obtain ⟨i₁, hi₁, e₁⟩ := Scheduler.addProcess_spec h₃
  obtain ⟨i₂, hi₂, e₂⟩ := Scheduler.addProcess_spec h₄
  have hat₁ : s₁.processes i₁ = some p₁ := by rw [e₁]; simp
  have hat₂ : s₂.processes i₂ = some p₂ := by rw [e₂]; simp
  have hne : i₁ ≠ i₂ := fun he => by rw [he, hi₂] at hat₁; cases hat₁
  have hat₁' : s₂.processes i₁ = some p₁ := by
    rw [e₂, Scheduler.recount_processes, Scheduler.put_of_ne _ _ hne]
    exact hat₁
  have hs₀ := start_slots hs
  have hm₁ := (start_maps hs).new hs₀ h₁ h₃ (hH i₁ p₁ hat₁')
  have hm₂ := hm₁.new (hs₀.new rfl h₁ h₃) h₂ h₄ (hH i₂ p₂ hat₂)
  show KernelMaps b H k.nextPid _
  rw [hs.nextPid]
  exact ⟨hm₂.maps, hm₂.drivers⟩

/-! ## Runs -/

theorem step_nextPid {o : Op} (he : step b k o = .ok k') : k.nextPid ≤ k'.nextPid := by
  cases o with
  | syscall nr a1 a2 a3 regs => exact (syscall_kept he).2.2.2.ge
  | store addr v => cases he; exact le_refl _
  | spawn args =>
    rcases spawn_cases he with ⟨s, rfl⟩ | ⟨prog, p, ph, sched, screen, -, -, -, rfl⟩
    · exact le_refl _
    · exact Nat.le_succ _
  | kill args => rcases kill_cases he with ⟨s, rfl⟩ | ⟨i, p, r, screen, -, -, -, rfl⟩ <;> exact le_refl _
  | write args | create args | rm args =>
    obtain ⟨fs, s, rfl⟩ := step_onFiles rfl he
    exact le_refl _
  | timer f =>
    obtain ⟨r, hr, he⟩ := bind_ok.1 he
    cases he
    exact (timer_kept hr).2.2.2.ge
  | allocPage =>
    obtain ⟨r, -, he⟩ := bind_ok.1 he
    cases he
    exact le_refl _

/-- a process with this pid and user stack is in the table at some point of the run -/
def Created (b : Boot) (k₁ : Kernel) (ops : List Op) (pid a : ℕ) : Prop :=
  ∃ j u, run (step b) k₁ (ops.take j) = .ok u ∧ Live u.sched pid a

/-- the invariant at every point of a run -/
theorem run_maps {k₀ k₁ : Kernel} (hs : Start b k₀) (hb : boot b k₀ = .ok k₁) (ops : List Op) (j : ℕ) {u : Kernel}
    (hu : run (step b) k₁ (ops.take j) = .ok u) : TableInv b u ∧ KernelMaps b (Created b k₁ ops) u.nextPid u := by
  induction j generalizing u with
  | zero =>
    cases hu
    exact ⟨boot_table hs hb, boot_maps hs hb fun i p hp => ⟨0, k₁, rfl, i, p, hp, rfl, rfl⟩⟩
  | succ j ih =>
    by_cases hj : j < ops.length
    · have hu' := hu
      rw [List.take_succ_eq_append_getElem hj, run_snoc_ok] at hu'
      obtain ⟨w, hw, hstep⟩ := hu'
      obtain ⟨htw, hmw⟩ := ih hw
      exact ⟨step_table htw hstep, step_maps htw hmw hstep fun i p hp => ⟨j + 1, u, hu, i, p, hp, rfl, rfl⟩⟩
    · rw [List.take_of_length_le (by omega)] at hu
      rw [List.take_of_length_le (by omega)] at ih
      exact ih hu

end

/-- the tables that the walk of a path goes through -/
def tablesOn (mem : Mem) : ℕ → List ℕ → List ℕ
  | _, [] => []
  | t, [_] => [t]
  | t, i :: j :: is =>
    t :: if mem (t + 8 * i) &&& pagePresent ≠ 0 ∧ mem (t + 8 * i) &&& ps = 0 then
      tablesOn mem (entryToTable (mem (t + 8 * i))) (j :: is) else []

theorem tablesOn_mem {b : Boot} {T : ℕ → Option (List ℕ)} {ph : Phys} (h : Tree b.pml4 bootRoots T ph) {is π : List ℕ}
    {t : ℕ} (ht : T t = some π) (hlen : π.length + is.length ≤ 4) (his : ∀ i ∈ is, i < 512) :
    ∀ u ∈ tablesOn ph.mem t is, T u ≠ none := by
  induction is generalizing t π with
  | nil => exact fun u hu => absurd hu List.not_mem_nil
  | cons i is ih =>
    cases is with
    | nil =>
      intro u hu
      rw [List.mem_singleton.1 hu]
      exact isTable ht
    | cons j is =>
      intro u hu
      unfold tablesOn at hu
      rcases List.mem_cons.1 hu with rfl | hu
      · exact isTable ht
      · split_ifs at hu with hp
        · simp only [List.length_cons] at hlen
          refine ih (h.child t π i ht (by omega) (his i List.mem_cons_self) hp.1 hp.2) ?_
            (fun x hx => his x (List.mem_cons_of_mem i hx)) u hu
          simp only [List.length_append, List.length_cons, List.length_nil]
          omega
        · exact absurd hu List.not_mem_nil

/-- **User mappings.** At the end of every run from boot:
- a page that ring 3 reaches translates to a page of the kernel image, which is used, or to the user stack of a process
  that is or was in the table, and then it is the page at the address of that process's pid;
- for a process still in the table the page at the address of its pid is reached and translates to its own user stack;
  that page is used, and it is no other stack, no page table on the walk of any address, and no driver page.
So only the leaves of processes that were reaped can lead to a page that is free or has another owner. -/
theorem user_mappings (b : Boot) (k₀ k₁ k : Kernel) (ops : List Op) (hs : Start b k₀) (hb : boot b k₀ = .ok k₁)
    (hr : run (step b) k₁ ops = .ok k) :
    (∀ v e, userLeaf k.phys.mem b.pml4 (path v) = some e →
      (InImage b (entryToTable e) ∧ bit k.phys.pmm (entryToTable e / 4096) = true) ∨
      ∃ j u i p, run (step b) k₁ (ops.take j) = .ok u ∧ u.sched.processes i = some p ∧
        path v = path (stackVirt p.pid) ∧ entryToTable e = p.userStackPhys) ∧
    ∀ i p, k.sched.processes i = some p →
      (∃ e, userLeaf k.phys.mem b.pml4 (path (stackVirt p.pid)) = some e ∧ entryToTable e = p.userStackPhys) ∧
      bit k.phys.pmm (p.userStackPhys / 4096) = true ∧ p.kernelStackPhys ≠ p.userStackPhys ∧
      (∀ j q, k.sched.processes j = some q → j ≠ i → ¬ q.Owns (p.userStackPhys / 4096)) ∧
      (∀ v, ∀ t ∈ tablesOn k.phys.mem b.pml4 (path v), t / 4096 ≠ p.userStackPhys / 4096) ∧
      ∀ a ∈ k.handedOut, a / 4096 ≠ p.userStackPhys / 4096 := by
  obtain ⟨ht, hm⟩ := run_maps hs hb ops ops.length (by rw [List.take_length]; exact hr)
  obtain ⟨T, live, hT, hborn⟩ := hm.maps
  have hpages := ht.slots.pages
  have hframe : ∀ {a}, Pmm.Frame b.toImage a → entryToTable (a ||| 7) = a := fun hf =>
    entryToTable_or hf.aligned (by have := hf.lt; omega) (by omega)
  refine ⟨fun v e he => ?_, fun i p hp => ?_⟩
  · obtain ⟨t, π, i, htπ, hlen, hi, hpath, hcell, hpres⟩ := userLeaf_mem hT.tree hT.tree.root_path rfl (path_lt v) he
    rw [← hcell] at hpres
    rcases hT.leaves t π i htπ hlen hi hpres with ⟨a, ha, hea⟩ | ⟨pid, a, hc, hf, hpv, hea⟩
    · rw [hcell] at hea
      have hlow := b.low
      have hin := ha
      obtain ⟨h1, h2, h3⟩ := ha
      rw [hea, entryToTable_or h1 (by omega) (by omega)]
      refine Or.inl ⟨hin, ht.slots.reserved _ (by omega) (Or.inr ?_)⟩
      rw [Pmm.Image.pageStart_eq, Pmm.Image.pageEnd_eq]
      omega
    · obtain ⟨j, u, hu, i', p, hp, rfl, rfl⟩ := hc
      refine Or.inr ⟨j, u, i', p, hu, hp, ?_, ?_⟩
      · rw [← hpv, hpath]; rfl
      · rw [← hcell, hea, hframe hf]
  · have howned : StackPage k.sched (p.userStackPhys / 4096) := ⟨i, p, hp, Or.inr rfl⟩
    refine ⟨⟨_, hT.own _ _ (hborn.table _ _ ⟨i, p, hp, rfl, rfl⟩), hframe (hpages.frames i p hp).2⟩,
      hpages.used i p _ hp (Or.inr rfl), hpages.apart i i p p hp hp, fun j q hq hji ho => ?_, fun v t htv he => ?_,
      fun a ha he => ?_⟩
    · exact hji (hpages.owns_inj hq hp ho (Or.inr rfl))
    · exact hT.apart t (tablesOn_mem hT.tree hT.tree.root_path (by rfl) (path_lt v) t htv) (Or.inl (he ▸ howned))
    · exact hm.drivers a ha (he ▸ howned)

/-- the machine has booted and process 2 was killed: its stack page is free and still mapped for ring 3 -/
theorem stale_mapping : ∃ k₁ k e, boot demoBoot demoKernel = .ok k₁ ∧ run (step demoBoot) k₁ [.kill [0x32]] = .ok k ∧
    userLeaf k.phys.mem demoBoot.pml4 (path (stackVirt 2)) = some e ∧ bit k.phys.pmm (entryToTable e / 4096) = false ∧
    ∀ i p, k.sched.processes i = some p → p.userStackPhys ≠ entryToTable e := by
  obtain ⟨k, hk, hP⟩ := endsWith_iff.1 (show endsWith (fun k =>
    (userLeaf k.phys.mem demoBoot.pml4 (path (stackVirt 2))).any fun e => !bit k.phys.pmm (entryToTable e / 4096) &&
      (List.finRange 64).all fun i => (k.sched.processes i).all fun p => decide (p.userStackPhys ≠ entryToTable e))
    (boot demoBoot demoKernel >>= fun k₁ => run (step demoBoot) k₁ [.kill [0x32]]) = true by decide +kernel)
  obtain ⟨k₁, h₁, hrun⟩ := bind_ok.1 hk
  obtain ⟨e, hleaf, he⟩ := (Option.any_eq_true _ _).1 hP
  rw [Bool.and_eq_true, Bool.not_eq_true'] at he
  refine ⟨k₁, k, e, h₁, hrun, hleaf, he.1, fun i p hp => ?_⟩
  have hall := List.all_eq_true.1 he.2 i (List.mem_finRange i)
  rw [hp, Option.all_some] at hall
  exact of_decide_eq_true hall

/-- the same run, seen through the theorem: process 1 keeps its stack -/
theorem user_mappings_demo : ∃ k₁ k p, boot demoBoot demoKernel = .ok k₁ ∧ run (step demoBoot) k₁ [.kill [0x32]] = .ok k ∧
    k.sched.processes k.sched.current = some p ∧ bit k.phys.pmm (p.userStackPhys / 4096) = true := by
  obtain ⟨k, hk⟩ := succeeds_iff.1 (show succeeds (boot demoBoot demoKernel >>= fun k₁ =>
    run (step demoBoot) k₁ [.kill [0x32]]) = true by decide +kernel)
  obtain ⟨k₁, h₁, hrun⟩ := bind_ok.1 hk
  obtain ⟨p, hp, -⟩ := (reachable_table ⟨demoKernel, k₁, _, demoStart, h₁, hrun⟩).current
  exact ⟨k₁, k, p, h₁, hrun, hp, ((user_mappings demoBoot demoKernel k₁ k _ demoStart h₁ hrun).2 _ p hp).2.1⟩

end Tomorrow
