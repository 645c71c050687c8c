/-
The physical page allocator (`pmm.rs`): one bit per 4 KB page over 8 GB, 1 = used.

`init` starts from an all-ones bitmap, clears the pages of every type-1 entry of the multiboot2 memory map, then sets
the pages of the first megabyte and of the kernel image again. `reserve` sets the pages of the boot module. `alloc` takes
the lowest clear bit; `free` rounds its address down, refuses the first megabyte and the kernel image, and clears one
bit. The memory map is a function from byte offsets to entries, so overlapping and overrunning entries are included; the
walk may fail to end (`entry_size` 0), hence the fuel of `initLoop`: `init` returns when some fuel is enough.

Results:
- `alloc_spec`: the lowest free page, one page fewer free; `alloc_panics`: it fails only when no page is free;
- `free_cases`: `free` changes at most the bit of its own page and never that of a protected page;
- `used_until_freed`: along every trace a used page stays used until `free` is called with an address inside it;
- `page_ownership`: what this gives for every allocation of every trace after `init` and `reserve`.
-/
import Tomorrow.Core.Checked
import Tomorrow.Core.Bitmap

namespace Tomorrow.Pmm

open Tomorrow.Core

/-! ## Model -/

/-- the linker's `_kernel_start` and `_kernel_end`: physical addresses of the kernel image -/
structure Image where
  kernelStart : ℕ
  kernelEnd : ℕ
  ordered : kernelStart ≤ kernelEnd
  fits : kernelEnd + 0xFFF < 2 ^ 64

/-- the image rounded out to pages -/
def Image.pageStart (k : Image) : ℕ := andNot k.kernelStart 0xFFF

def Image.pageEnd (k : Image) : ℕ := andNot (k.kernelEnd + 0xFFF) 0xFFF

/-- `MbMemoryEntry` of the multiboot2 memory map; its reserved word is not read -/
structure MbMemoryEntry where
  baseAddr : ℕ
  length : ℕ
  typ : ℕ

/-- the initial `BITMAP`: every page used -/
def allUsed : Words := fun _ => BitVec.allOnes 64

def markFree (m : Words) (addr : ℕ) : Words :=
  if 32768 ≤ addr / 4096 / 64 then m else clearBit m (addr / 4096)

def markUsed (m : Words) (addr : ℕ) : Words :=
  if 32768 ≤ addr / 4096 / 64 then m else setBit m (addr / 4096)

/-- `addr += 4096`; irreducible, as unifying an address with it would count to 4096 -/
@[irreducible] def nextPage (addr : ℕ) : ℕ := addr + 4096

theorem nextPage_eq (addr : ℕ) : nextPage addr = addr + 4096 := by unfold nextPage; rfl

/-- `while addr + 4096 <= base + length`: free the whole pages of an entry -/
def freeLoop (e : MbMemoryEntry) (addr : ℕ) (m : Words) : Except Panic Words :=
  if nextPage addr < 2 ^ 64 ∧ e.baseAddr + e.length < 2 ^ 64 then
    if nextPage addr ≤ e.baseAddr + e.length then freeLoop e (nextPage addr) (markFree m addr) else .ok m
  else .error .overflow
termination_by e.baseAddr + e.length - addr
decreasing_by unfold nextPage at *; omega

def freeEntry (e : MbMemoryEntry) (m : Words) : Except Panic Words :=
  if e.typ = 1 then freeLoop e (if e.baseAddr = 0 then 4096 else e.baseAddr) m else .ok m

/-- the walk over the map; `none` while it is still running when the fuel is used up -/
def initLoop (entryAt : ℕ → MbMemoryEntry) (entriesLen entrySize : ℕ) : ℕ → ℕ → Words → Option (Except Panic Words)
  | 0, _, _ => none
  | fuel + 1, offset, m =>
    if offset < entriesLen then
      match freeEntry (entryAt offset) m with
      | .error e => some (.error e)
      | .ok m' =>
        if offset + entrySize < 2 ^ 32 then initLoop entryAt entriesLen entrySize fuel (offset + entrySize) m'
        else some (.error .overflow)
    else some (.ok m)

/-- `while addr < stop { mark_used(addr); addr += 4096 }`; stop is a page boundary, so addr cannot overflow -/
def markRange (addr stop : ℕ) (m : Words) : Words :=
  if addr < stop then markRange (nextPage addr) stop (markUsed m addr) else m
termination_by stop - addr
decreasing_by unfold nextPage; omega

def init (k : Image) (entryAt : ℕ → MbMemoryEntry) (mmapSize entrySize fuel : ℕ) : Option (Except Panic Words) :=
  if mmapSize < 16 then some (.error .overflow)
  else (initLoop entryAt (mmapSize - 16) entrySize fuel 0 allUsed).map fun r =>
    r.map fun m => markRange k.pageStart k.pageEnd (markRange 0 0x100000 m)

def reserve (start stop : ℕ) (m : Words) : Except Panic Words :=
  if stop + 0xFFF < 2 ^ 64 then .ok (markRange (andNot start 0xFFF) (andNot (stop + 0xFFF) 0xFFF) m)
  else .error .overflow

def alloc (m : Words) : Except Panic (ℕ × Words) :=
  match firstZero m 32768 0 with
  | some page => .ok (page * 4096, markUsed m (page * 4096))
  | none => .error (.explicit "PMM: out of memory")

def free (k : Image) (m : Words) (addr : ℕ) : Words :=
  let addr := andNot addr 0xFFF
  if addr < 0x100000 ∨ (k.pageStart ≤ addr ∧ addr < k.pageEnd) then m
  else
    let page := addr / 4096
    if 32768 ≤ page / 64 then m
    else if m (page / 64) &&& (1#64 <<< (page % 64)) = 0#64 then m
    else markFree m addr

def freePages (m : Words) : ℕ := ∑ i ∈ Finset.range 32768, countZeros (m i)

/-! ## Pages -/

/-- page p is one of the 2^21 pages of the bitmap and its bit is clear -/
def Free (m : Words) (p : ℕ) : Prop := p < 2 ^ 21 ∧ bit m p = false

/-- the pages `free` refuses: the first megabyte and the kernel image -/
def Protected (k : Image) (p : ℕ) : Prop :=
  p * 4096 < 0x100000 ∨ (k.pageStart ≤ p * 4096 ∧ p * 4096 < k.pageEnd)

theorem andNot_page {a : ℕ} (h : a < 2 ^ 64) : andNot a 0xFFF = a / 4096 * 4096 := by
  simpa using andNot_two_pow (x := a) (k := 12) h (by omega)

theorem Image.pageStart_eq (k : Image) : k.pageStart = k.kernelStart / 4096 * 4096 :=
  andNot_page (by have := k.ordered; have := k.fits; omega)

theorem Image.pageEnd_eq (k : Image) : k.pageEnd = (k.kernelEnd + 0xFFF) / 4096 * 4096 := andNot_page k.fits

theorem bit_markUsed (m : Words) (a q : ℕ) (hq : q < 2 ^ 21) :
    bit (markUsed m a) q = (decide (q = a / 4096) || bit m q) := by
  unfold markUsed
  split_ifs with h
  · have : q ≠ a / 4096 := by omega
    simp [this]
  · exact bit_setBit _ _ _

theorem bit_markFree (m : Words) (a q : ℕ) (hq : q < 2 ^ 21) :
    bit (markFree m a) q = (decide (q ≠ a / 4096) && bit m q) := by
  unfold markFree
  split_ifs with h
  · have : q ≠ a / 4096 := by omega
    simp [this]
  · exact bit_clearBit _ _ _

theorem bit_markRange (a stop : ℕ) (m : Words) (ha : a % 4096 = 0) (q : ℕ) (hq : q < 2 ^ 21) :
    bit (markRange a stop m) q = true ↔ bit m q = true ∨ (a ≤ q * 4096 ∧ q * 4096 < stop) := by
  induction a, m using markRange.induct stop with
  | case1 a m h ih =>
    rw [markRange, if_pos h, ih (by rw [nextPage_eq]; omega), bit_markUsed m a q hq]
    simp only [nextPage_eq, Bool.or_eq_true, decide_eq_true_eq]
    constructor
    · rintro ((rfl | hb) | h')
      · right; omega
      · exact Or.inl hb
      · right; omega
    · rintro (hb | h')
      · exact Or.inl (Or.inr hb)
      · by_cases hqa : q = a / 4096
        · exact Or.inl (Or.inl hqa)
        · right; omega
  | case2 a m h =>
    rw [markRange, if_neg h]
    constructor
    · exact Or.inl
    · rintro (hb | h')
      · exact hb
      · omega

theorem freePages_eq (m : Words) : freePages m = (clear 32768 m).card := (card_clear 32768 m).symm

/-! ## One call -/

/-- **alloc** returns the lowest free page, marks it used and nothing else, and lowers the free count by one -/
theorem alloc_spec {m m' : Words} {addr : ℕ} (h : alloc m = .ok (addr, m')) :
    ∃ p, addr = p * 4096 ∧ Free m p ∧ (∀ q < p, bit m q = true) ∧ m' = setBit m p ∧
      freePages m' + 1 = freePages m := by
  unfold alloc at h
  cases hz : firstZero m 32768 0 with
  | none => rw [hz] at h; cases h
  | some p =>
    rw [hz] at h
    obtain ⟨hlt, hb, hlow⟩ := firstZero_some hz
    cases h
    have hm : markUsed m (p * 4096) = setBit m p := by
      rw [markUsed, Nat.mul_div_cancel p (by omega), if_neg (by omega)]
    refine ⟨p, rfl, ⟨by omega, hb⟩, fun q hq => hlow q (by omega) hq, hm, ?_⟩
    have hmem : p ∈ clear 32768 m := mem_clear.2 ⟨by omega, hb⟩
    rw [hm, freePages_eq, freePages_eq, clear_setBit, Finset.card_erase_add_one hmem]

/-- it panics only when no page is free -/
theorem alloc_panics {m : Words} {e : Panic} (h : alloc m = .error e) : ∀ p, ¬ Free m p := by
  unfold alloc at h
  cases hz : firstZero m 32768 0 with
  | some p => rw [hz] at h; cases h
  | none =>
    intro p ⟨hp, hb⟩
    have := firstZero_none hz p (by omega) (by omega)
    rw [hb] at this
    cases this

/-- **free** leaves the bitmap alone or clears the bit of its own page, which was set and is not protected -/
theorem free_cases (k : Image) (m : Words) {a : ℕ} (ha : a < 2 ^ 64) :
    free k m a = m ∨
      (free k m a = clearBit m (a / 4096) ∧ a / 4096 < 2 ^ 21 ∧ bit m (a / 4096) = true ∧ ¬ Protected k (a / 4096)) := by
  unfold free
  rw [andNot_page ha]
  simp only [Nat.mul_div_cancel _ (show 0 < 4096 by omega)]
  split_ifs with h1 h2 h3
  · exact Or.inl rfl
  · exact Or.inl rfl
  · exact Or.inl rfl
  · right
    rw [and_one_shl_eq_zero (Nat.mod_lt _ (by omega))] at h3
    refine ⟨?_, by omega, Bool.eq_true_of_not_eq_false h3, h1⟩
    rw [markFree, Nat.mul_div_cancel _ (show 0 < 4096 by omega), if_neg h2]

/-- a used, unprotected page of the bitmap is freed -/
theorem free_eq_clearBit (k : Image) (m : Words) {a : ℕ} (ha : a < 2 ^ 64) (hp : a / 4096 < 2 ^ 21)
    (hb : bit m (a / 4096) = true) (hk : ¬ Protected k (a / 4096)) : free k m a = clearBit m (a / 4096) := by
  unfold free
  rw [andNot_page ha]
  simp only [Nat.mul_div_cancel _ (show 0 < 4096 by omega)]
  have h3 : ¬ m (a / 4096 / 64) &&& (1#64 <<< (a / 4096 % 64)) = 0#64 := by
    rw [and_one_shl_eq_zero (Nat.mod_lt _ (by omega))]
    exact fun h => by rw [bit, h] at hb; cases hb
  unfold Protected at hk
  rw [if_neg hk, if_neg (by omega), if_neg h3, markFree, Nat.mul_div_cancel _ (show 0 < 4096 by omega),
    if_neg (by omega)]

/-- a page that `alloc` may return and `free` takes back, by its address -/
structure Frame (k : Image) (a : ℕ) : Prop where
  aligned : a % 4096 = 0
  lt : a / 4096 < 2 ^ 21
  unprotected : ¬ Protected k (a / 4096)

theorem Frame.lt_u64 {k : Image} {a : ℕ} (h : Frame k a) : a < 2 ^ 64 := by
  have := h.lt
  omega

/-- the page number of a frame determines its address -/
theorem Frame.page_inj {k : Image} {a c : ℕ} (h : Frame k a) (h' : Frame k c) (he : a / 4096 = c / 4096) : a = c := by
  have := h.aligned
  have := h'.aligned
  omega

/-- the end of a frame needs no alignment to 16 bytes -/
theorem Frame.andNot_end {k : Image} {a : ℕ} (h : Frame k a) : andNot (a + 4096) 0xF = a + 4096 := by
  have := h.lt
  have := h.aligned
  have hmask := andNot_two_pow (x := a + 4096) (k := 4) (by omega) (by omega)
  simp only [Nat.reducePow, Nat.reduceSub] at hmask
  rw [hmask]
  omega

/-- freeing a frame clears its bit and no other -/
theorem bit_free_frame {k : Image} (m : Words) {a : ℕ} (h : Frame k a) (q : ℕ) :
    bit (free k m a) q = (decide (q ≠ a / 4096) && bit m q) := by
  by_cases hb : bit m (a / 4096) = true
  · rw [free_eq_clearBit k m h.lt_u64 h.lt hb h.unprotected, bit_clearBit]
  · rcases free_cases k m h.lt_u64 with hf | ⟨-, -, hb', -⟩
    · rw [hf]
      by_cases hq : q = a / 4096
      · subst hq
        simpa using hb
      · simp [hq]
    · exact absurd hb' hb

theorem freePages_free (k : Image) (m : Words) {a : ℕ} (ha : a < 2 ^ 64) :
    freePages (free k m a) = freePages m ∨ freePages (free k m a) = freePages m + 1 := by
  rcases free_cases k m ha with h | ⟨h, hlt, hb, -⟩
  · exact Or.inl (by rw [h])
  · right
    have hnot : a / 4096 ∉ clear 32768 m := fun hmem => by
      rw [(mem_clear.1 hmem).2] at hb; cases hb
    rw [h, freePages_eq, freePages_eq, clear_clearBit (by omega), Finset.card_insert_of_notMem hnot]

/-! ## Traces -/

inductive Op where
  | alloc
  | free (addr : UInt64)
deriving DecidableEq

def step (k : Image) (m : Words) : Op → Except Panic Words
  | .alloc => alloc m >>= fun r => .ok r.2
  | .free a => .ok (free k m a.toNat)

/-- the operation calls `free` with an address inside page p -/
def Op.FreesPage (o : Op) (p : ℕ) : Prop := ∃ a : UInt64, o = .free a ∧ a.toNat / 4096 = p

theorem step_used {k : Image} {m m' : Words} {o : Op} {p : ℕ} (h : step k m o = .ok m') (hb : bit m p = true) :
    bit m' p = true ∨ (o.FreesPage p ∧ ¬ Protected k p) := by
  cases o with
  | alloc =>
    obtain ⟨⟨addr, m1⟩, h1, h2⟩ := bind_ok.1 h
    obtain ⟨q, -, -, -, rfl, -⟩ := alloc_spec h1
    cases h2
    left
    simp [hb]
  | free a =>
    simp only [step, Except.ok.injEq] at h
    subst h
    rcases free_cases k m a.toNat_lt with h | ⟨h, -, -, hk⟩
    · rw [h]; exact Or.inl hb
    · by_cases hp : p = a.toNat / 4096
      · subst hp; exact Or.inr ⟨⟨a, rfl, rfl⟩, hk⟩
      · left; rw [h, bit_clearBit]; simp [hp, hb]

/-- **Used until freed.** Along every trace, a used page is still used at the end or some operation of the trace called
`free` inside it; a protected page is used at the end in any case. -/
theorem used_until_freed {k : Image} {m m' : Words} {ops : List Op} {p : ℕ} (h : run (step k) m ops = .ok m')
    (hb : bit m p = true) : bit m' p = true ∨ ((∃ o ∈ ops, o.FreesPage p) ∧ ¬ Protected k p) := by
  induction ops generalizing m with
  | nil => cases h; exact Or.inl hb
  | cons o ops ih =>
    obtain ⟨u, hu, ht⟩ := bind_ok.1 h
    rcases step_used hu hb with hb' | ⟨hf, hk⟩
    · rcases ih ht hb' with h' | ⟨⟨o', ho', hf⟩, hk⟩
      · exact Or.inl h'
      · exact Or.inr ⟨⟨o', List.mem_cons_of_mem o ho', hf⟩, hk⟩
    · exact Or.inr ⟨⟨o, List.mem_cons_self, hf⟩, hk⟩

/-- every protected page is used: what `init` sets up and no `free` undoes -/
def Reserved (k : Image) (m : Words) : Prop := ∀ p, p < 2 ^ 21 → Protected k p → bit m p = true

/-- what `alloc` gives when the protected pages are used -/
theorem alloc_frame {k : Image} {m m' : Words} {a : ℕ} (hr : Reserved k m) (h : alloc m = .ok (a, m')) :
    Frame k a ∧ bit m (a / 4096) = false ∧ ∀ q, bit m' q = (decide (q = a / 4096) || bit m q) := by
  obtain ⟨p, rfl, hfree, -, rfl, -⟩ := alloc_spec h
  rw [Nat.mul_div_cancel p (by omega)]
  refine ⟨⟨by omega, ?_, ?_⟩, hfree.2, fun q => bit_setBit m p q⟩
  · rw [Nat.mul_div_cancel p (by omega)]; exact hfree.1
  · rw [Nat.mul_div_cancel p (by omega)]
    intro hp
    have := hr p hfree.1 hp
    rw [hfree.2] at this
    cases this

/-- after `init` every protected page is used -/
theorem init_protected {k : Image} {entryAt : ℕ → MbMemoryEntry} {mmapSize entrySize fuel : ℕ} {m : Words}
    (h : init k entryAt mmapSize entrySize fuel = some (.ok m)) : Reserved k m := by
  intro p hp hk
  unfold init at h
  split_ifs at h with hsize
  · cases h
  obtain ⟨r, -, hr⟩ := Option.map_eq_some_iff.1 h
  cases r with
  | error e => cases hr
  | ok m0 =>
    cases hr
    have hs : k.pageStart % 4096 = 0 := by rw [k.pageStart_eq]; omega
    rw [bit_markRange _ _ _ hs p hp, bit_markRange _ _ _ (by omega) p hp]
    rcases hk with hk | hk
    · exact Or.inl (Or.inr ⟨by omega, hk⟩)
    · exact Or.inr hk

/-- the pages of [start, stop) rounded out -/
def InPages (start stop p : ℕ) : Prop := start / 4096 ≤ p ∧ p < (stop + 0xFFF) / 4096

/-- `reserve` marks the pages of its range used and frees none -/
theorem reserve_used {start stop : ℕ} {m m' : Words} (hs : start < 2 ^ 64) (h : reserve start stop m = .ok m')
    {p : ℕ} (hp : p < 2 ^ 21) : bit m' p = true ↔ bit m p = true ∨ InPages start stop p := by
  unfold reserve at h
  split_ifs at h with hov
  cases h
  rw [andNot_page hs, andNot_page hov, bit_markRange _ _ _ (by omega) p hp]
  refine or_congr_right ?_
  unfold InPages
  omega

/-- **Physical page ownership.** After `init` on any memory map on which it returns and `reserve` of the module, in the
state m reached by any trace of `alloc` and `free` (arbitrary addresses):
- an `alloc` returns the lowest free page, lowers `free_pages` by one, and returns neither a page of the first megabyte
  nor of the kernel image; a page of the module only if the trace called `free` inside it; a page that an earlier
  `alloc` returned only if `free` was called inside it since; and it fails only when no page is free;
- a `free` changes no bit but that of its own page and raises `free_pages` by one or zero. -/
theorem page_ownership (k : Image) (entryAt : ℕ → MbMemoryEntry) (mmapSize entrySize fuel : ℕ) (m0 m1 m : Words)
    (modStart modEnd : UInt64) (ops : List Op)
    (hinit : init k entryAt mmapSize entrySize fuel = some (.ok m0))
    (hres : reserve modStart.toNat modEnd.toNat m0 = .ok m1) (hrun : run (step k) m1 ops = .ok m) :
    (∀ addr m', alloc m = .ok (addr, m') →
      (∃ p, addr = p * 4096 ∧ Free m p ∧ ∀ q, Free m q → p ≤ q) ∧ freePages m' + 1 = freePages m ∧
      0x100000 ≤ addr ∧ ¬ InPages k.kernelStart k.kernelEnd (addr / 4096) ∧
      (InPages modStart.toNat modEnd.toNat (addr / 4096) → ∃ o ∈ ops, o.FreesPage (addr / 4096)) ∧
      ∀ i u u', run (step k) m1 (ops.take i) = .ok u → ops[i]? = some .alloc → alloc u = .ok (addr, u') →
        ∃ o ∈ ops.drop (i + 1), o.FreesPage (addr / 4096)) ∧
    (∀ e, alloc m = .error e → ∀ p, ¬ Free m p) ∧
    ∀ a : UInt64, (∀ p, p ≠ a.toNat / 4096 → bit (free k m a.toNat) p = bit m p) ∧
      (freePages (free k m a.toNat) = freePages m ∨ freePages (free k m a.toNat) = freePages m + 1) := by
  refine ⟨fun addr m' h => ?_, fun e h => alloc_panics h, fun a => ⟨fun p hp => ?_, freePages_free k m a.toNat_lt⟩⟩
  · obtain ⟨p, rfl, hfree, hlow, rfl, hcount⟩ := alloc_spec h
    have hclear : ¬ bit m p = true := by rw [hfree.2]; exact Bool.false_ne_true
    rw [Nat.mul_div_cancel p (by omega)]
    -- a page used at the start of the trace is free now only if it was freed and is not protected
    have hstart : bit m1 p = true → (∃ o ∈ ops, o.FreesPage p) ∧ ¬ Protected k p := fun hb =>
      (used_until_freed hrun hb).resolve_left hclear
    have hprot : ¬ Protected k p := by
      intro hk
      have h0 := init_protected hinit p hfree.1 hk
      exact (hstart ((reserve_used modStart.toNat_lt hres hfree.1).2 (Or.inl h0))).2 hk
    refine ⟨⟨p, rfl, hfree, fun q hq => ?_⟩, hcount, ?_, ?_, ?_, ?_⟩
    · by_contra hlt
      have := hlow q (by omega)
      rw [hq.2] at this
      cases this
    · by_contra hlt
      exact hprot (Or.inl (by omega))
    · intro hin
      refine hprot (Or.inr ?_)
      rw [k.pageStart_eq, k.pageEnd_eq]
      unfold InPages at hin
      omega
    · intro hmod
      exact (hstart ((reserve_used modStart.toNat_lt hres hfree.1).2 (Or.inr hmod))).1
    · intro i u u' hu hi hau
      -- the state right after the earlier allocation, where the page is used
      obtain ⟨q, hq, -, -, rfl, -⟩ := alloc_spec hau
      have hqp : q = p := by omega
      obtain ⟨v, hv, hrest⟩ := run_take_ok hrun (i + 1)
      have hv' : v = setBit u q := by
        rw [List.take_add_one, hi, Option.toList_some, run_snoc_ok] at hv
        obtain ⟨w, hw, hstep⟩ := hv
        rw [hu] at hw
        cases hw
        simp only [step, hau, ok_bind] at hstep
        cases hstep
        rfl
      have hused : bit v p = true := by rw [hv', bit_setBit, hqp]; simp
      exact ((used_until_freed hrest hused).resolve_left hclear).1
  · rcases free_cases k m a.toNat_lt with h | ⟨h, -⟩
    · rw [h]
    · rw [h, bit_clearBit]; simp [hp]

/-- a kernel image of half a megabyte at 1 MB -/
def smallImage : Image := ⟨0x100000, 0x180000, by decide, by decide⟩

/-- two pages of usable memory at 2 MB -/
def twoPages : MbMemoryEntry := ⟨0x200000, 0x2000, 1⟩

theorem freeLoop_step {e : MbMemoryEntry} {addr : ℕ} (m : Words) (hlim : e.baseAddr + e.length < 2 ^ 64)
    (h : nextPage addr ≤ e.baseAddr + e.length) : freeLoop e addr m = freeLoop e (nextPage addr) (markFree m addr) := by
  rw [freeLoop, if_pos ⟨lt_of_le_of_lt h hlim, hlim⟩, if_pos h]

theorem freeLoop_done {e : MbMemoryEntry} {addr : ℕ} (m : Words) (hlim : e.baseAddr + e.length < 2 ^ 64)
    (haddr : nextPage addr < 2 ^ 64) (h : e.baseAddr + e.length < nextPage addr) : freeLoop e addr m = .ok m := by
  rw [freeLoop, if_pos ⟨haddr, hlim⟩, if_neg (by omega)]

theorem freeLoop_twoPages (m : Words) :
    freeLoop twoPages 0x200000 m = .ok (markFree (markFree m 0x200000) 0x201000) := by
  have h1 : nextPage 0x200000 = 0x201000 := nextPage_eq _
  have h2 : nextPage 0x201000 = 0x202000 := nextPage_eq _
  have h3 : nextPage 0x202000 = 0x203000 := nextPage_eq _
  have hlim : twoPages.baseAddr + twoPages.length = 0x202000 := by simp [twoPages]
  rw [freeLoop_step m (by omega) (by omega), h1, freeLoop_step _ (by omega) (by omega), h2,
    freeLoop_done _ (by omega) (by omega) (by omega)]

/-- a one-entry map with a module in its first page, which is then freed: no page below 1 MB is returned -/
theorem page_ownership_two_pages :
    ∃ m0 m1, init smallImage (fun _ => twoPages) 40 24 2 = some (.ok m0) ∧ reserve 0x200000 0x200800 m0 = .ok m1 ∧
      ∀ addr m', alloc (free smallImage m1 0x200000) = .ok (addr, m') → 0x100000 ≤ addr := by
  have hentry : freeEntry twoPages allUsed = .ok (markFree (markFree allUsed 0x200000) 0x201000) := by
    simp only [freeEntry, twoPages, if_true, Nat.reduceEqDiff, if_false]
    exact freeLoop_twoPages allUsed
  have hinit : init smallImage (fun _ => twoPages) 40 24 2 = some (.ok (markRange smallImage.pageStart
      smallImage.pageEnd (markRange 0 0x100000 (markFree (markFree allUsed 0x200000) 0x201000)))) := by
    simp [init, initLoop, hentry, Except.map]
  refine ⟨_, _, hinit, if_pos (by decide), fun addr m' ha => ?_⟩
  have h := page_ownership smallImage (fun _ => twoPages) 40 24 2 _ _ _ 0x200000 0x200800 [.free 0x200000] hinit
    (if_pos (by decide)) rfl
  exact (h.1 addr m' ha).2.2.1

end Tomorrow.Pmm
