/-
Which addresses ring 3 may access after any calls of `map` (`vmm.rs`) on the boot tables.

`map` gives the USER bit to every entry it passes, and where the walk meets a large page of `boot.s` it gives it to that
page and returns. So a call for one page of the first terabyte, or of the first 2 MB of the higher half, opens a whole
large page. A call for an address that is not canonical maps the page with the same four indices.

Results:
- `user_access`: as long as no call with USER is of these two kinds, an address is accessible only if its page was the
  virt of a call with USER;
- `map_opens_large_page`: one call for page 0 opens page 1.
-/
import Tomorrow.Memory.Walk
import Tomorrow.Kernel.UserMappings

namespace Tomorrow

open Tomorrow.Core Vmm

/-! ## Calls -/

/-- the arguments of `map` -/
structure MapCall where
  virt : ℕ
  phys : ℕ
  flags : ℕ
deriving DecidableEq

/-- the flags contain `PAGE_USER` -/
def MapCall.User (c : MapCall) : Prop := c.flags &&& pageUser ≠ 0

def MapCall.Aligned (c : MapCall) : Prop := c.virt % 4096 = 0 ∧ c.phys % 4096 = 0

instance (c : MapCall) : Decidable c.User := inferInstanceAs (Decidable (_ ≠ _))

instance (c : MapCall) : Decidable c.Aligned := inferInstanceAs (Decidable (_ ∧ _))

def mapStep (pml4 : ℕ) (s : Phys) (c : MapCall) : Except Panic Phys := Vmm.map pml4 s c.virt c.phys c.flags

/-- the addresses that `boot.s` maps by large pages: the first terabyte and the first 2 MB of the higher half -/
def BootMapped (v : ℕ) : Prop := v < 2 ^ 40 ∨ (kernelVirt ≤ v ∧ v < kernelVirt + 2 ^ 21)

instance (v : ℕ) : Decidable (BootMapped v) := inferInstanceAs (Decidable (_ ∨ _))

/-! ## Large pages -/

/-- the walk of an address that `boot.s` does not map by large pages does not meet them -/
theorem not_bootLarge {v : ℕ} {p : List ℕ} (hv : Canonical v) (hb : ¬ BootMapped v) (hp : p <+: path v) : ¬ BootLarge p := by
  rw [path_eq] at hp
  unfold Canonical at hv
  unfold BootMapped kernelVirt at hb
  rintro (⟨i, rfl | rfl⟩ | rfl) <;> obtain ⟨rest, hrest⟩ := hp <;>
    simp only [List.cons_append, List.nil_append, List.cons.injEq] at hrest <;> omega

/-- the large pages of the boot tables are where `BootLarge` says, without the USER bit -/
theorem boot_large {b : Boot} {s : Phys} (hs : BootTables b s) {t i : ℕ} {π : List ℕ} (hT : bootPaths b t = some π)
    (hi : i < 512) (hp : s.mem (t + 8 * i) &&& pagePresent ≠ 0) (hps : s.mem (t + 8 * i) &&& ps ≠ 0) :
    BootLarge (π ++ [i]) ∧ s.mem (t + 8 * i) &&& pageUser = 0 := by
  rcases boot_entry hs hT hi hp with ⟨u, hu, -, -, he⟩ | ⟨hlarge, he⟩
  · rw [he] at hps
    exact absurd (link_bits hu).1 hps
  · exact ⟨hlarge, (large_bits he).2.1⟩

/-! ## The invariant -/

/-- the large pages are those of `boot.s`, closed to ring 3, and the leaves open to ring 3 are at paths of S -/
structure OpenOnly (b : Boot) (S : List ℕ → Prop) (T : ℕ → Option (List ℕ)) (s : Phys) : Prop where
  tree : Tree b.pml4 bootRoots T s
  reserved : Pmm.Reserved b.toImage s.pmm
  large : ∀ t π i, T t = some π → π.length < 3 → i < 512 → s.mem (t + 8 * i) &&& pagePresent ≠ 0 →
    s.mem (t + 8 * i) &&& ps ≠ 0 → BootLarge (π ++ [i]) ∧ s.mem (t + 8 * i) &&& pageUser = 0
  leaves : ∀ t π i, T t = some π → π.length = 3 → i < 512 → s.mem (t + 8 * i) &&& pagePresent ≠ 0 →
    s.mem (t + 8 * i) &&& pageUser ≠ 0 → S (π ++ [i])

section

variable {b : Boot} {S : List ℕ → Prop} {T : ℕ → Option (List ℕ)} {s s' : Phys}

theorem boot_openOnly (hs : BootTables b s) : OpenOnly b S (bootPaths b) s where
  tree := boot_tree hs
  reserved := hs.reserved
  large := fun _ _ _ hT _ hi hp hps => boot_large hs hT hi hp hps
  leaves := by
    intro t π i hT hlen
    obtain ⟨n, -, -, ⟨-, rfl⟩ | ⟨-, rfl⟩ | ⟨-, rfl⟩ | ⟨-, rfl⟩ | ⟨-, rfl⟩⟩ := bootPaths_cases hT <;> simp at hlen

/-- what ring 3 may access lies at a path of S -/
theorem OpenOnly.sound (h : OpenOnly b S T s) {v : ℕ} (hv : userAccessible s.mem b.pml4 v = true) : S (path v) := by
  obtain ⟨-, es, hes, huser⟩ := userAccessible_iff.1 hv
  obtain ⟨t, π, i, hT, hi, hpre, hmem, hp, hlen | ⟨hlen, hps⟩⟩ :=
    entries_last h.tree h.tree.root_path rfl (path_lt v) hes
  · have hpath : π ++ [i] = path v := hpre.eq_of_length (by simp [hlen, path])
    rw [← hpath]
    exact h.leaves t π i hT hlen hi hp (huser _ hmem)
  · exact absurd (h.large t π i hT hlen hi hp hps).2 (huser _ hmem)

/-- **Step.** A call adds at most its own page, and only if its flags contain USER. -/
theorem OpenOnly.map (h : OpenOnly b S T s) {c : MapCall} (hal : c.Aligned)
    (hc : c.User → Canonical c.virt ∧ ¬ BootMapped c.virt) (hmap : mapStep b.pml4 s c = .ok s') :
    ∃ T', OpenOnly b (fun p => S p ∨ (c.User ∧ p = path c.virt)) T' s' := by
  have hclear : c.User → Clear T s (path c.virt) := by
    intro hu t π i hT hπ hi hpre hp
    by_contra hps
    exact not_bootLarge (hc hu).1 (hc hu).2 hpre (h.large t π i hT hπ hi hp hps).1
  obtain ⟨T', hrew, -⟩ := map_rewrites h.tree h.reserved hclear hmap
  refine ⟨T', hrew.tree, hrew.reserved, ?_, ?_⟩
  · intro t π i hT hπ hi hp hps
    obtain ⟨hold, he⟩ := hrew.large_old rfl hT hπ hi hp hps
    rw [he] at hp hps ⊢
    exact h.large t π i hold hπ hi hp hps
  · intro t π i hT hlen hi hp hu
    rcases hrew.leaf t π i hT hlen hi with ⟨hold, he⟩ | habs | ⟨hpath, he⟩
    · rw [he] at hp hu
      exact Or.inl (h.leaves t π i hold hlen hi hp hu)
    · exact absurd habs hp
    · -- the bit of the leaf stored is that of the flags
      refine Or.inr ⟨fun h0 => hu ?_, hpath⟩
      rw [he, user_eq_zero, Nat.or_assoc, testBit_page_or hal.2 (by omega), Nat.testBit_or, user_eq_zero.1 h0]
      decide

/-- **Run.** The paths that are open are those of the calls with USER. -/
theorem OpenOnly.run (calls : List MapCall) (h : OpenOnly b S T s) (hal : ∀ c ∈ calls, c.Aligned)
    (hc : ∀ c ∈ calls, c.User → Canonical c.virt ∧ ¬ BootMapped c.virt) (hrun : run (mapStep b.pml4) s calls = .ok s') :
    ∃ T', OpenOnly b (fun p => S p ∨ ∃ c ∈ calls, c.User ∧ p = path c.virt) T' s' := by
  induction calls generalizing S T s with
  | nil =>
    cases hrun
    exact ⟨T, h.tree, h.reserved, h.large, fun t π i hT hlen hi hp hu => Or.inl (h.leaves t π i hT hlen hi hp hu)⟩
  | cons c calls ih =>
    obtain ⟨s₁, h₁, hrun⟩ := bind_ok.1 hrun
    obtain ⟨T₁, open₁⟩ := h.map (hal c List.mem_cons_self) (hc c List.mem_cons_self) h₁
    obtain ⟨T', ho⟩ := ih open₁ (fun d hd => hal d (List.mem_cons_of_mem c hd))
      (fun d hd => hc d (List.mem_cons_of_mem c hd)) hrun
    refine ⟨T', ho.tree, ho.reserved, ho.large, fun t π i hT hlen hi hp hu => ?_⟩
    rcases ho.leaves t π i hT hlen hi hp hu with (hS | hself) | ⟨d, hd, hdu⟩
    · exact Or.inl hS
    · exact Or.inr ⟨c, List.mem_cons_self, hself⟩
    · exact Or.inr ⟨d, List.mem_cons_of_mem c hd, hdu⟩

end

/-- **User access.** After any calls of `map` on the boot tables, as long as the calls with USER are for canonical
addresses that `boot.s` has not mapped by large pages: an address is accessible only if its page was the virt of a call
with USER. -/
theorem user_access (b : Boot) (s s' : Phys) (calls : List MapCall) (hs : BootTables b s) (hal : ∀ c ∈ calls, c.Aligned)
    (hc : ∀ c ∈ calls, c.User → Canonical c.virt ∧ ¬ BootMapped c.virt) (hrun : run (mapStep b.pml4) s calls = .ok s')
    (v : ℕ) (hv : userAccessible s'.mem b.pml4 v = true) : ∃ c ∈ calls, c.User ∧ c.virt = v / 4096 * 4096 := by
  obtain ⟨T', ho⟩ := @OpenOnly.run b (fun _ => False) (bootPaths b) s s' calls (boot_openOnly hs) hal hc hrun
  rcases ho.sound hv with hfalse | ⟨c, hmem, hu, hpath⟩
  · exact hfalse.elim
  · refine ⟨c, hmem, hu, ?_⟩
    have hpage := (userAccessible_iff.1 hv).1.path_inj (hc c hmem hu).1 hpath
    have hali := (hal c hmem).1
    omega

/-- a user page, a kernel page next to it, a kernel mapping that meets a large page, and one above the kernel's 2 MB -/
def demoCalls : List MapCall :=
  [⟨0x10000001000, 0x200000, 6⟩, ⟨0x10000002000, 0x201000, 2⟩, ⟨0x1000, 0x5000, 2⟩, ⟨0xFFFF800000200000, 0x300000, 2⟩]

theorem user_access_demo : ∃ s', run (mapStep demoBoot.pml4) demoKernel.phys demoCalls = .ok s' ∧
    userAccessible s'.mem demoBoot.pml4 0x10000001234 = true ∧
    ∃ c ∈ demoCalls, c.User ∧ c.virt = 0x10000001234 / 4096 * 4096 := by
  obtain ⟨s', hrun, hopen⟩ := endsWith_iff.1 (show endsWith (fun s' => userAccessible s'.mem demoBoot.pml4 0x10000001234)
    (run (mapStep demoBoot.pml4) demoKernel.phys demoCalls) = true by decide +kernel)
  exact ⟨s', hrun, hopen, user_access demoBoot demoKernel.phys s' demoCalls demoStart.bootTables (by decide) (by decide)
    hrun _ hopen⟩

/-- a user mapping of page 0 gives the USER bit to the first gigabyte -/
theorem map_opens_large_page : ∃ s', BootTables demoBoot demoKernel.phys ∧ MapCall.Aligned ⟨0, 0x200000, 6⟩ ∧
    run (mapStep demoBoot.pml4) demoKernel.phys [⟨0, 0x200000, 6⟩] = .ok s' ∧
    userAccessible s'.mem demoBoot.pml4 0x1000 = true ∧
    ¬ ∃ c ∈ [(⟨0, 0x200000, 6⟩ : MapCall)], c.User ∧ c.virt = 0x1000 / 4096 * 4096 := by
  obtain ⟨s', hrun, hopen⟩ := endsWith_iff.1 (show endsWith (fun s' => userAccessible s'.mem demoBoot.pml4 0x1000)
    (run (mapStep demoBoot.pml4) demoKernel.phys [⟨0, 0x200000, 6⟩]) = true by decide +kernel)
  exact ⟨s', demoStart.bootTables, by decide, hrun, hopen, by decide⟩

end Tomorrow
