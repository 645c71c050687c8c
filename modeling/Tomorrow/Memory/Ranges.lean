/-
Ranges of physical pages (`pmm.rs`): those that `init` frees from the memory map and those that `alloc_pages` takes.

`init` steps through a usable entry from its raw base address while `mark_free` rounds each address down to a page. The
pages it frees in an entry are therefore consecutive from the page of the base on, and all of them lie inside the entry
except the first one when the base is not a page boundary: that page starts below the entry. Whether such a page stays
free in the end depends on the other entries and on the two reservation passes, which act on the same bits.

`alloc_pages` does not search for a range: it allocates the lowest free page n times and asserts that the results follow
each other.

Results:
- `initLoop_ok`, `init_free`: `init` returns, and which pages are free then;
- `only_usable_free`: exactly when every free page is usable RAM outside the first megabyte and the kernel image;
- `allocPagesLoop_iff`, `contiguous_alloc`: exactly when `allocPages` returns, and what it does to every bit.
-/
import Tomorrow.Memory.Pmm

namespace Tomorrow.Pmm

open Tomorrow.Core

/-! ## The pages an entry frees -/

/-- the address `init` starts from in an entry -/
def MbMemoryEntry.first (e : MbMemoryEntry) : ℕ := if e.baseAddr = 0 then 4096 else e.baseAddr

/-- the walk through e clears the bit of page p: p is at or above the page of the first address, and the address the
walk has there, which keeps the offset of the first address inside its page, leaves room for a page -/
def Frees (e : MbMemoryEntry) (p : ℕ) : Prop :=
  e.typ = 1 ∧ e.first / 4096 ≤ p ∧ p * 4096 + e.first % 4096 + 4096 ≤ e.baseAddr + e.length

/-- the whole page p lies in the usable entry e -/
def Usable (e : MbMemoryEntry) (p : ℕ) : Prop :=
  e.typ = 1 ∧ e.baseAddr ≤ p * 4096 ∧ (p + 1) * 4096 ≤ e.baseAddr + e.length

theorem bit_allUsed (q : ℕ) : bit allUsed q = true := by
  simp only [bit, allUsed, BitVec.getLsbD_allOnes, decide_eq_true_eq]
  omega

theorem bit_freeLoop {e : MbMemoryEntry} (hsum : e.baseAddr + e.length < 2 ^ 64 - 4096) {addr : ℕ}
    (haddr : addr < 2 ^ 64 - 4096) (m : Words) :
    ∃ m', freeLoop e addr m = .ok m' ∧ ∀ q < 2 ^ 21, bit m' q = false ↔
      bit m q = false ∨ (addr / 4096 ≤ q ∧ q * 4096 + addr % 4096 + 4096 ≤ e.baseAddr + e.length) := by
  have hlim : e.baseAddr + e.length < 2 ^ 64 := by omega
  induction addr, m using freeLoop.induct e with
  | case1 addr m h hle ih =>
    have hnext := nextPage_eq addr
    obtain ⟨m', hm', hbit⟩ := ih (by omega)
    refine ⟨m', by rw [freeLoop_step m hlim hle, hm'], fun q hq => ?_⟩
    rw [hbit q hq, bit_markFree m addr q hq, hnext]
    simp only [ne_eq, decide_not, Bool.and_eq_false_iff, Bool.not_eq_eq_eq_not, Bool.not_false, decide_eq_true_eq]
    -- the first page of the range is the one freed here
    constructor
    · rintro ((rfl | hb) | hin)
      · right; omega
      · exact Or.inl hb
      · right; omega
    · rintro (hb | hin)
      · exact Or.inl (Or.inr hb)
      · by_cases hqa : q = addr / 4096
        · exact Or.inl (Or.inl hqa)
        · right; omega
  | case2 addr m h hle =>
    have hnext := nextPage_eq addr
    refine ⟨m, freeLoop_done m hlim h.1 (by omega), fun q _ => ?_⟩
    constructor
    · exact Or.inl
    · rintro (hb | hin)
      · exact hb
      · omega
  | case3 addr m h =>
    have hnext := nextPage_eq addr
    exact absurd ⟨by omega, hlim⟩ h

theorem freeEntry_ok {e : MbMemoryEntry} (hsum : e.baseAddr + e.length < 2 ^ 64 - 4096) (m : Words) :
    ∃ m', freeEntry e m = .ok m' ∧ ∀ q < 2 ^ 21, bit m' q = false ↔ bit m q = false ∨ Frees e q := by
  by_cases ht : e.typ = 1
  · have hfirst : e.first < 2 ^ 64 - 4096 := by
      unfold MbMemoryEntry.first
      split_ifs <;> omega
    obtain ⟨m', hm', hbit⟩ := bit_freeLoop hsum hfirst m
    refine ⟨m', ?_, fun q hq => ?_⟩
    · rw [freeEntry, if_pos ht]
      exact hm'
    · simp [hbit q hq, Frees, ht]
  · refine ⟨m, ?_, fun q _ => ?_⟩
    · rw [freeEntry, if_neg ht]
    · simp [Frees, ht]

/-- only the page of an unaligned base is freed without lying in the entry -/
theorem usable_or_base {e : MbMemoryEntry} {p : ℕ} (h : Frees e p) :
    Usable e p ∨ (e.typ = 1 ∧ e.baseAddr % 4096 ≠ 0 ∧ 4096 ≤ e.length ∧ p = e.baseAddr / 4096) := by
  obtain ⟨ht, hlo, hhi⟩ := h
  by_cases h0 : e.baseAddr = 0
  · have hup : (p + 1) * 4096 ≤ e.baseAddr + e.length := by omega
    exact Or.inl ⟨ht, h0 ▸ Nat.zero_le _, hup⟩
  · rw [MbMemoryEntry.first, if_neg h0] at hlo hhi
    by_cases hal : e.baseAddr ≤ p * 4096
    · have hup : (p + 1) * 4096 ≤ e.baseAddr + e.length := by omega
      exact Or.inl ⟨ht, hal, hup⟩
    · have hp : p = e.baseAddr / 4096 := by omega
      exact Or.inr ⟨ht, by omega, by omega, hp⟩

theorem frees_base {e : MbMemoryEntry} (ht : e.typ = 1) (hb : e.baseAddr % 4096 ≠ 0) (hl : 4096 ≤ e.length) :
    Frees e (e.baseAddr / 4096) := by
  have h0 : e.baseAddr ≠ 0 := fun h => hb (by rw [h])
  refine ⟨ht, ?_, ?_⟩ <;> rw [MbMemoryEntry.first, if_neg h0]
  omega

/-! ## The map -/

theorem initLoop_ok {entryAt : ℕ → MbMemoryEntry} {len size : ℕ} (hlen : len < 2 ^ 32) (hsize : 0 < size) (n : ℕ)
    {off : ℕ} (hoff : off + n * size = len)
    (hsum : ∀ i < n, (entryAt (off + i * size)).baseAddr + (entryAt (off + i * size)).length < 2 ^ 64 - 4096)
    (m : Words) :
    ∃ m', (∀ fuel > n, initLoop entryAt len size fuel off m = some (.ok m')) ∧
      ∀ q < 2 ^ 21, bit m' q = false ↔ bit m q = false ∨ ∃ i < n, Frees (entryAt (off + i * size)) q := by
  induction n generalizing off m with
  | zero =>
    refine ⟨m, fun fuel hfuel => ?_, by simp⟩
    obtain ⟨fuel, rfl⟩ := Nat.exists_eq_succ_of_ne_zero (show fuel ≠ 0 by omega)
    rw [initLoop, if_neg (by omega)]
  | succ n ih =>
    rw [Nat.succ_mul] at hoff
    have hshift : ∀ i, off + size + i * size = off + (i + 1) * size := fun i => by rw [Nat.succ_mul]; omega
    obtain ⟨m1, hm1, hbit1⟩ := freeEntry_ok (by simpa using hsum 0 (by omega)) m
    obtain ⟨m2, hm2, hbit2⟩ := ih (by omega : off + size + n * size = len)
      (fun i hi => by rw [hshift]; exact hsum (i + 1) (by omega)) m1
    refine ⟨m2, fun fuel hfuel => ?_, fun q hq => ?_⟩
    · obtain ⟨fuel, rfl⟩ := Nat.exists_eq_succ_of_ne_zero (show fuel ≠ 0 by omega)
      rw [initLoop, if_pos (by omega)]
      simp only [hm1]
      rw [if_pos (by omega), hm2 fuel (by omega)]
    · -- the entry at off, then those behind it
      rw [hbit2 q hq, hbit1 q hq, or_assoc]
      refine or_congr_right ⟨?_, ?_⟩
      · rintro (h | ⟨i, hi, h⟩)
        · exact ⟨0, by omega, by simpa using h⟩
        · exact ⟨i + 1, by omega, by rw [← hshift]; exact h⟩
      · rintro ⟨i, hi, h⟩
        cases i with
        | zero => exact Or.inl (by simpa using h)
        | succ i => exact Or.inr ⟨i, by omega, by rw [hshift]; exact h⟩

/-- a memory map as multiboot2 gives it: `entry_size` is at least 24 and divides the length of the entries, and no entry
reaches the last page of the address space -/
structure MemoryMap where
  entryAt : ℕ → MbMemoryEntry
  mmapSize : ℕ
  entrySize : ℕ
  header : 16 ≤ mmapSize
  u32 : mmapSize < 2 ^ 32
  entry : 24 ≤ entrySize
  whole : entrySize ∣ mmapSize - 16
  sums : ∀ i, i * entrySize < mmapSize - 16 →
    (entryAt (i * entrySize)).baseAddr + (entryAt (i * entrySize)).length < 2 ^ 64 - 4096

/-- e is one of the entries of the map -/
def MemoryMap.Has (mm : MemoryMap) (e : MbMemoryEntry) : Prop :=
  ∃ i, i * mm.entrySize < mm.mmapSize - 16 ∧ mm.entryAt (i * mm.entrySize) = e

/-- **What init leaves free.** With enough fuel `init` returns, and exactly the pages that some entry frees and that are
not protected are free. -/
theorem init_free (k : Image) (mm : MemoryMap) :
    ∃ m, (∃ F, ∀ fuel ≥ F, init k mm.entryAt mm.mmapSize mm.entrySize fuel = some (.ok m)) ∧
      ∀ p, Free m p ↔ p < 2 ^ 21 ∧ ¬ Protected k p ∧ ∃ e, mm.Has e ∧ Frees e p := by
  obtain ⟨n, hn⟩ := mm.whole
  rw [Nat.mul_comm] at hn
  have hpos : 0 < mm.entrySize := lt_of_lt_of_le (by decide) mm.entry
  have h32 := mm.u32
  have hidx : ∀ i, i * mm.entrySize < mm.mmapSize - 16 ↔ i < n := fun i => by
    rw [hn, Nat.mul_lt_mul_right hpos]
  have hoff : 0 + n * mm.entrySize = mm.mmapSize - 16 := by omega
  obtain ⟨m, hm, hbit⟩ := initLoop_ok (by omega) hpos n hoff
    (fun i hi => by simpa using mm.sums i ((hidx i).2 hi)) allUsed
  refine ⟨markRange k.pageStart k.pageEnd (markRange 0 0x100000 m), ⟨n + 1, fun fuel hfuel => ?_⟩, fun p => ?_⟩
  · have := mm.header
    rw [init, if_neg (by omega), hm fuel hfuel]
    rfl
  · refine and_congr_right fun hp => ?_
    have hs : k.pageStart % 4096 = 0 := by rw [k.pageStart_eq]; omega
    have hfreed : bit m p = false ↔ ∃ e, mm.Has e ∧ Frees e p := by
      rw [hbit p hp]
      constructor
      · rintro (h | ⟨i, hi, h⟩)
        · rw [bit_allUsed] at h
          cases h
        · exact ⟨_, ⟨i, (hidx i).2 hi, rfl⟩, by simpa using h⟩
      · rintro ⟨_, ⟨i, hi, rfl⟩, h⟩
        exact Or.inr ⟨i, (hidx i).1 hi, by simpa using h⟩
    rw [← Bool.not_eq_true, bit_markRange _ _ _ hs p hp, bit_markRange _ _ _ (by omega) p hp, or_assoc, not_or,
      Bool.not_eq_true, hfreed, and_comm]
    simp only [Nat.zero_le, true_and, Protected]

/-- a page outside the protected ones lies above the first megabyte and outside the kernel image -/
theorem outside_of_not_protected {k : Image} {p : ℕ} (h : ¬ Protected k p) :
    0x100000 ≤ p * 4096 ∧ ((p + 1) * 4096 ≤ k.kernelStart ∨ k.kernelEnd ≤ p * 4096) := by
  unfold Protected at h
  rw [k.pageStart_eq, k.pageEnd_eq] at h
  omega

/-- every page that is free in m is usable RAM of a single entry, above the first megabyte and outside the image -/
def OnlyUsableFree (k : Image) (mm : MemoryMap) (m : Words) : Prop :=
  ∀ p, Free m p → (∃ e, mm.Has e ∧ Usable e p) ∧ 0x100000 ≤ p * 4096 ∧
    ((p + 1) * 4096 ≤ k.kernelStart ∨ k.kernelEnd ≤ p * 4096)

/-- **Only usable RAM becomes free**, exactly when for every usable entry of at least a page whose base is not a page
boundary, the page of the base is beyond the bitmap, protected, or contained in some usable entry. -/
theorem only_usable_free (k : Image) (mm : MemoryMap) :
    ∃ m, (∃ F, ∀ fuel ≥ F, init k mm.entryAt mm.mmapSize mm.entrySize fuel = some (.ok m)) ∧
      (OnlyUsableFree k mm m ↔
        ∀ e, mm.Has e → e.typ = 1 → e.baseAddr % 4096 ≠ 0 → 4096 ≤ e.length →
          2 ^ 21 ≤ e.baseAddr / 4096 ∨ Protected k (e.baseAddr / 4096) ∨
            ∃ e', mm.Has e' ∧ Usable e' (e.baseAddr / 4096)) := by
  obtain ⟨m, hm, hfree⟩ := init_free k mm
  refine ⟨m, hm, ?_⟩
  constructor
  · intro h e he ht hb hl
    by_contra hne
    push Not at hne
    obtain ⟨hlt, hk, hno⟩ := hne
    have hp : Free m (e.baseAddr / 4096) := (hfree _).2 ⟨hlt, hk, e, he, frees_base ht hb hl⟩
    obtain ⟨e', he', hu⟩ := (h _ hp).1
    exact hno e' he' hu
  · intro h p hp
    obtain ⟨hlt, hk, e, he, hf⟩ := (hfree p).1 hp
    refine ⟨?_, outside_of_not_protected hk⟩
    rcases usable_or_base hf with hu | ⟨ht, hb, hl, rfl⟩
    · exact ⟨e, he, hu⟩
    · rcases h e he ht hb hl with hbig | hprot | hin
      · exact absurd hlt (by omega)
      · exact absurd hprot hk
      · exact hin

/-- a map of one usable page-sized entry that starts in the middle of a page -/
def oddEntry : MbMemoryEntry := ⟨0x200800, 0x1000, 1⟩

def oddMap : MemoryMap where
  entryAt := fun _ => oddEntry
  mmapSize := 40
  entrySize := 24
  header := by decide
  u32 := by decide
  entry := by decide
  whole := by decide
  sums := fun _ _ => by decide

/-- page 0x200 becomes free although its first half lies in no entry -/
theorem unaligned_base_freed :
    ∃ m F, (∀ fuel ≥ F, init smallImage oddMap.entryAt oddMap.mmapSize oddMap.entrySize fuel = some (.ok m)) ∧
      Free m 0x200 ∧ ¬ OnlyUsableFree smallImage oddMap m := by
  obtain ⟨m, ⟨F, hm⟩, hfree⟩ := init_free smallImage oddMap
  have hk : ¬ Protected smallImage 0x200 := by
    rw [Protected, Image.pageStart_eq, Image.pageEnd_eq]
    simp [smallImage]
  have hf : Frees oddEntry 0x200 := frees_base rfl (by decide) (by decide)
  have hp : Free m 0x200 := (hfree 0x200).2 ⟨by decide, hk, oddEntry, ⟨0, by decide, rfl⟩, hf⟩
  refine ⟨m, F, hm, hp, fun h => ?_⟩
  obtain ⟨e, ⟨i, -, rfl⟩, -, hlo, -⟩ := (h 0x200 hp).1
  have hlo' : oddEntry.baseAddr ≤ 0x200 * 4096 := hlo
  exact absurd hlo' (by decide)

/-! ## Contiguous allocation -/

/-- `for i in 1..n`: k more pages, the first of them at index i -/
def allocPagesLoop (first : ℕ) : ℕ → ℕ → Words → Except Panic Words
  | 0, _, m => .ok m
  | k + 1, i, m => do
    let (next, m1) ← alloc m
    let off ← ckMul i 4096
    let expected ← ckAdd first off
    ckAssert (next = expected)
    allocPagesLoop first k (i + 1) m1

def allocPages (m : Words) (n : ℕ) : Except Panic (ℕ × Words) := do
  let (first, m1) ← alloc m
  let m2 ← allocPagesLoop first (n - 1) 1 m1
  .ok (first, m2)

/-- P is the set of the n lowest-numbered free pages -/
structure Lowest (m : Words) (n : ℕ) (P : Finset ℕ) : Prop where
  free : ∀ p ∈ P, Free m p
  card : P.card = n
  below : ∀ q, Free m q → q ∉ P → ∀ p ∈ P, p < q

/-- the pages m' has taken from m: those of [p, p + n), all free before -/
structure Taken (m : Words) (p n : ℕ) (m' : Words) : Prop where
  free : ∀ q, p ≤ q → q < p + n → Free m q
  bits : ∀ q, bit m' q = (decide (p ≤ q ∧ q < p + n) || bit m q)
  count : freePages m' + n = freePages m

theorem Taken.zero (m : Words) (p : ℕ) : Taken m p 0 m :=
  ⟨fun q h1 h2 => by omega, fun q => by simp, Nat.add_zero _⟩

/-- one page more in front -/
theorem Taken.cons {m m' : Words} {p n : ℕ} (hp : Free m p) (h : Taken (setBit m p) (p + 1) n m')
    (hcount : freePages (setBit m p) + 1 = freePages m) : Taken m p (n + 1) m' := by
  refine ⟨fun q h1 h2 => ?_, fun q => ?_, by have := h.count; omega⟩
  · by_cases hq : q = p
    · exact hq ▸ hp
    · have hb := (h.free q (by omega) (by omega)).2
      rw [bit_setBit] at hb
      exact ⟨(h.free q (by omega) (by omega)).1, (Bool.or_eq_false_iff.1 hb).2⟩
  · rw [h.bits q, bit_setBit, ← Bool.or_assoc]
    congr 1
    by_cases hq : q = p
    · subst hq
      simp
    · simp only [hq, decide_false, Bool.or_false]
      exact decide_eq_decide.2 (by omega)

/-- `alloc` on a page that is free and has only used pages below it -/
theorem alloc_lowest {m : Words} {p : ℕ} (hp : Free m p) (hlow : ∀ q < p, bit m q = true) :
    alloc m = .ok (p * 4096, setBit m p) ∧ freePages (setBit m p) + 1 = freePages m := by
  cases h : alloc m with
  | error e => exact absurd hp (alloc_panics h p)
  | ok r =>
    obtain ⟨addr, m'⟩ := r
    obtain ⟨p', ha, hfree, hlow', hm, hcount⟩ := alloc_spec h
    have heq : p' = p := by
      rcases lt_trichotomy p' p with hlt | heq | hlt
      · exact absurd (hlow p' hlt) (by simp [hfree.2])
      · exact heq
      · exact absurd (hlow' p hlt) (by simp [hp.2])
    subst heq
    exact ⟨by rw [ha, hm], hm ▸ hcount⟩

/-- one round: the assertion holds exactly when the next page is free -/
theorem allocPagesLoop_succ {p k i : ℕ} {m : Words} (hlow : ∀ q < p + i, bit m q = true) (m' : Words) :
    allocPagesLoop (p * 4096) (k + 1) i m = .ok m' ↔
      Free m (p + i) ∧ allocPagesLoop (p * 4096) k (i + 1) (setBit m (p + i)) = .ok m' := by
  constructor
  · intro h
    obtain ⟨⟨next, m1⟩, ha, h⟩ := bind_ok.1 h
    obtain ⟨off, hoff, h⟩ := bind_ok.1 h
    obtain ⟨expected, hexp, h⟩ := bind_ok.1 h
    obtain ⟨hnext, hrest⟩ := ckAssert_bind_ok.1 h
    obtain ⟨p', rfl, hfree, -, rfl, -⟩ := alloc_spec ha
    rw [(ckMul_ok.1 hoff).2] at hexp
    rw [(ckAdd_ok.1 hexp).2] at hnext
    have heq : p' = p + i := by omega
    subst heq
    exact ⟨hfree, hrest⟩
  · rintro ⟨hfree, h⟩
    have hlt := hfree.1
    rw [allocPagesLoop, (alloc_lowest hfree hlow).1, ok_bind]
    simp only [ckMul_ok.2 ⟨show i * 4096 < 2 ^ 64 by omega, rfl⟩, ok_bind,
      ckAdd_eq (show p * 4096 + i * 4096 < 2 ^ 64 by omega)]
    rw [ckAssert_eq (Nat.add_mul p i 4096), ok_bind, h]

/-- **The loop.** Where every page below p + i is used, it takes the next k pages if they are all free, and fails
otherwise. -/
theorem allocPagesLoop_iff (p k : ℕ) {i : ℕ} {m : Words} (hlow : ∀ q < p + i, bit m q = true) :
    ((∃ m', allocPagesLoop (p * 4096) k i m = .ok m') ↔ ∀ q, p + i ≤ q → q < p + i + k → Free m q) ∧
      ∀ m', allocPagesLoop (p * 4096) k i m = .ok m' → Taken m (p + i) k m' := by
  induction k generalizing i m with
  | zero =>
    refine ⟨⟨fun _ q h1 h2 => by omega, fun _ => ⟨m, rfl⟩⟩, fun m' h => ?_⟩
    cases h
    exact Taken.zero m _
  | succ k ih =>
    have hlow' : ∀ q < p + (i + 1), bit (setBit m (p + i)) q = true := fun q hq => by
      rw [bit_setBit]
      by_cases hqi : q = p + i
      · simp [hqi]
      · simp [hlow q (by omega)]
    obtain ⟨hiff, htaken⟩ := ih hlow'
    have hrun : ∀ m', allocPagesLoop (p * 4096) (k + 1) i m = .ok m' → Taken m (p + i) (k + 1) m' := by
      intro m' h
      obtain ⟨hfree, hrest⟩ := (allocPagesLoop_succ hlow m').1 h
      exact Taken.cons hfree (htaken m' hrest) (alloc_lowest hfree hlow).2
    refine ⟨⟨fun ⟨m', h⟩ => (hrun m' h).free, fun hall => ?_⟩, hrun⟩
    have hfree := hall (p + i) le_rfl (by omega)
    obtain ⟨m', hm'⟩ := hiff.2 fun q h1 h2 => by
      obtain ⟨hq, hb⟩ := hall q (by omega) (by omega)
      exact ⟨hq, by simp [hb]; omega⟩
    exact ⟨m', (allocPagesLoop_succ hlow m').2 ⟨hfree, hm'⟩⟩

/-- after the first page every page up to it is used -/
theorem used_after_first {m : Words} {p : ℕ} (hlow : ∀ q < p, bit m q = true) :
    ∀ q < p + 1, bit (setBit m p) q = true := by
  intro q hq
  by_cases hqp : q = p
  · simp [hqp]
  · simp [hlow q (by omega)]

theorem allocPages_taken {m m' : Words} {n addr : ℕ} (hn : 1 ≤ n) (h : allocPages m n = .ok (addr, m')) :
    ∃ p, addr = p * 4096 ∧ (∀ q < p, bit m q = true) ∧ Taken m p n m' := by
  obtain ⟨⟨first, m1⟩, ha, h⟩ := bind_ok.1 h
  obtain ⟨m2, hloop, h⟩ := bind_ok.1 h
  cases h
  obtain ⟨p, rfl, hfree, hlow, rfl, hcount⟩ := alloc_spec ha
  have hrest := (allocPagesLoop_iff p (n - 1) (used_after_first hlow)).2 m' hloop
  have htaken := Taken.cons hfree hrest hcount
  rw [Nat.sub_add_cancel hn] at htaken
  exact ⟨p, rfl, hlow, htaken⟩

theorem allocPages_of_free {m : Words} {n p : ℕ} (hn : 1 ≤ n) (hlow : ∀ q < p, bit m q = true)
    (hfree : ∀ q, p ≤ q → q < p + n → Free m q) : ∃ m', allocPages m n = .ok (p * 4096, m') := by
  have hp := hfree p le_rfl (by omega)
  obtain ⟨m', hm'⟩ := (allocPagesLoop_iff p (n - 1) (used_after_first hlow)).1.2 fun q h1 h2 => by
    obtain ⟨hq, hb⟩ := hfree q (by omega) (by omega)
    exact ⟨hq, by simp [hb]; omega⟩
  refine ⟨m', ?_⟩
  simp only [allocPages, (alloc_lowest hp hlow).1, ok_bind, hm']

/-- the n lowest free pages are consecutive from p on exactly when those are free and no page below p is -/
theorem lowest_Ico_iff {m : Words} {n p : ℕ} (hn : 1 ≤ n) :
    Lowest m n (Finset.Ico p (p + n)) ↔
      (∀ q, p ≤ q → q < p + n → Free m q) ∧ ∀ q < p, bit m q = true := by
  constructor
  · intro h
    have hfree : ∀ q, p ≤ q → q < p + n → Free m q := fun q h1 h2 => h.free q (Finset.mem_Ico.2 ⟨h1, h2⟩)
    have hp := hfree p le_rfl (by omega)
    refine ⟨hfree, fun q hq => ?_⟩
    by_contra hb
    have hlt := h.below q ⟨by have := hp.1; omega, Bool.eq_false_of_not_eq_true hb⟩
      (fun hmem => by have := (Finset.mem_Ico.1 hmem).1; omega) p (Finset.mem_Ico.2 ⟨le_rfl, by omega⟩)
    omega
  · rintro ⟨hfree, hlow⟩
    refine ⟨fun q hq => ?_, by simp, fun q hq hnot p' hp' => ?_⟩
    · obtain ⟨h1, h2⟩ := Finset.mem_Ico.1 hq
      exact hfree q h1 h2
    · have hge : p ≤ q := by
        by_contra hlt
        exact absurd (hlow q (by omega)) (by simp [hq.2])
      have := (Finset.mem_Ico.1 hp').2
      have := mt Finset.mem_Ico.2 hnot
      omega

/-- **Contiguous allocation.** For every bitmap and n ≥ 1, `allocPages` returns iff at least n pages are free and the n
lowest-numbered free pages are consecutive. It then returns the address of the first of them; all n were free before and
are used after, no other bit changes, and n fewer pages are free. -/
theorem contiguous_alloc (m : Words) (n : ℕ) (hn : 1 ≤ n) :
    ((∃ r, allocPages m n = .ok r) ↔ n ≤ freePages m ∧ ∃ p, Lowest m n (Finset.Ico p (p + n))) ∧
      ∀ addr m', allocPages m n = .ok (addr, m') → ∃ p, addr = p * 4096 ∧ Lowest m n (Finset.Ico p (p + n)) ∧
        (∀ q, p ≤ q → q < p + n → Free m q ∧ bit m' q = true) ∧
        (∀ q, ¬ (p ≤ q ∧ q < p + n) → bit m' q = bit m q) ∧ freePages m' + n = freePages m := by
  have hret : ∀ addr m', allocPages m n = .ok (addr, m') →
      ∃ p, addr = p * 4096 ∧ Lowest m n (Finset.Ico p (p + n)) ∧ Taken m p n m' := by
    intro addr m' h
    obtain ⟨p, haddr, hlow, ht⟩ := allocPages_taken hn h
    exact ⟨p, haddr, (lowest_Ico_iff hn).2 ⟨ht.free, hlow⟩, ht⟩
  refine ⟨⟨?_, ?_⟩, fun addr m' h => ?_⟩
  · rintro ⟨⟨addr, m'⟩, h⟩
    obtain ⟨p, -, hlowest, ht⟩ := hret addr m' h
    exact ⟨by have := ht.count; omega, p, hlowest⟩
  · rintro ⟨-, p, h⟩
    obtain ⟨hfree, hlow⟩ := (lowest_Ico_iff hn).1 h
    obtain ⟨m', hm'⟩ := allocPages_of_free hn hlow hfree
    exact ⟨_, hm'⟩
  · obtain ⟨p, haddr, hlowest, ht⟩ := hret addr m' h
    refine ⟨p, haddr, hlowest, fun q h1 h2 => ⟨ht.free q h1 h2, ?_⟩, fun q hq => ?_, ht.count⟩
    · simp [ht.bits q, h1, h2]
    · rw [ht.bits q, decide_eq_false hq, Bool.false_or]

/-- a bitmap whose only free pages are 63 and 64, on both sides of a word boundary -/
def acrossWords : Words := clearBit (clearBit allUsed 63) 64

theorem contiguous_alloc_across_words : ∃ r, allocPages acrossWords 2 = .ok r := by
  have hbit : ∀ q < 2 ^ 21, bit acrossWords q = false ↔ q = 63 ∨ q = 64 := by
    intro q hq
    simp [acrossWords, bit_allUsed]
    omega
  have hlowest : Lowest acrossWords 2 (Finset.Ico 63 (63 + 2)) := by
    refine (lowest_Ico_iff (by decide)).2 ⟨fun q h1 h2 => ⟨by omega, (hbit q (by omega)).2 (by omega)⟩, ?_⟩
    intro q hq
    by_contra hb
    have := (hbit q (by omega)).1 (Bool.eq_false_of_not_eq_true hb)
    omega
  have hcount : 2 ≤ freePages acrossWords := by
    have hsub : Finset.Ico 63 (63 + 2) ⊆ clear 32768 acrossWords := by
      intro q hq
      obtain ⟨hlt, hb⟩ := hlowest.free q hq
      exact mem_clear.2 ⟨by omega, hb⟩
    rw [freePages_eq]
    simpa using Finset.card_le_card hsub
  exact (contiguous_alloc acrossWords 2 (by decide)).1.2 ⟨hcount, 63, hlowest⟩

end Tomorrow.Pmm
