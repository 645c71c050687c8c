/-
The kernel heap (`heap.rs`): a first-fit free list behind the global allocator, and the tiling of its region.

A free block stores its own header (`FreeNode`: size and next), so the list of free blocks is all the allocator knows.
`alloc` takes the first block that can hold the request and returns the gaps before and after the allocation to the
list; `dealloc` recomputes the size from the layout and inserts the block at the head. Blocks are never merged. All
address arithmetic is checked (`Except Panic`): an overflow, a failed assertion of `addFreeRegion` or a failed `expect`
of `sizeAlign` ends the run. The null pointer is `none`; the region the kernel hands over starts above the first
megabyte, so no block starts at address 0.

Clients are arbitrary traces of `alloc` and `dealloc` in which a `dealloc` names a live pointer with its own layout
(`Legal`). The client's record of live pointers (`live`) is not read by the allocator.

Results:
- `allocFromRegion_spec`, `findRegion_spec`: the one address tried in a block is the lowest that can be used;
- `alloc_first`, `alloc_spec`: what one request does to the list and to the addresses it holds;
- `step_ok`: a legal operation never panics and keeps the invariant;
- `heap_tiling`: over every legal trace, free and live blocks tile the region exactly.
-/
import Tomorrow.Core.Checked
import Tomorrow.Core.Tiling

namespace Tomorrow.Heap

open Tomorrow.Core

/-! ## Layouts -/

/-- `core::alloc::Layout`: the alignment is a power of two and the size, rounded up to it, is at most `isize::MAX` -/
structure Layout where
  size : ℕ
  align : ℕ
  pow2 : align.isPowerOfTwo
  fits : size + align ≤ 2 ^ 63
deriving DecidableEq

/-- `Layout::from_size_align` -/
def Layout.fromSizeAlign (size align : ℕ) : Option Layout :=
  if h : align.isPowerOfTwo ∧ size + align ≤ 2 ^ 63 then some ⟨size, align, h.1, h.2⟩ else none

/-- the smallest multiple of a that is not below n -/
def roundUp (n a : ℕ) : ℕ := (n + (a - 1)) / a * a

theorem le_roundUp {n a : ℕ} (ha : 0 < a) : n ≤ roundUp n a := by
  have h := Nat.div_add_mod (n + (a - 1)) a
  have hlt := Nat.mod_lt (n + (a - 1)) ha
  rw [roundUp, Nat.mul_comm]
  omega

theorem roundUp_mod (n a : ℕ) : roundUp n a % a = 0 := Nat.mul_mod_left _ _

theorem roundUp_le {n a m : ℕ} (ha : 0 < a) (hm : a ∣ m) (h : n ≤ m) : roundUp n a ≤ m := by
  obtain ⟨q, rfl⟩ := hm
  have : (n + (a - 1)) / a < q + 1 := by
    rw [Nat.div_lt_iff_lt_mul ha, Nat.add_mul, Nat.one_mul, Nat.mul_comm q a]
    omega
  rw [roundUp, Nat.mul_comm a q]
  exact Nat.mul_le_mul_right a (by omega)

theorem roundUp_of_dvd {n a : ℕ} (ha : 0 < a) (h : n % a = 0) : roundUp n a = n :=
  le_antisymm (roundUp_le ha (Nat.dvd_of_mod_eq_zero h) le_rfl) (le_roundUp ha)

/-- two different multiples of a are at least a apart -/
theorem add_le_of_multiples {a c y : ℕ} (hc : c % a = 0) (hy : y % a = 0) (h : c < y) : c + a ≤ y := by
  have hdvd : a ∣ y - c := Nat.dvd_sub (Nat.dvd_of_mod_eq_zero hy) (Nat.dvd_of_mod_eq_zero hc)
  have := Nat.le_of_dvd (by omega) hdvd
  omega

theorem pow2_pos {a : ℕ} (h : a.isPowerOfTwo) : 0 < a := by
  obtain ⟨k, rfl⟩ := h; exact Nat.two_pow_pos k

theorem pow2_dvd {a b : ℕ} (ha : a.isPowerOfTwo) (hb : b.isPowerOfTwo) (h : a ≤ b) : a ∣ b := by
  obtain ⟨i, rfl⟩ := ha
  obtain ⟨j, rfl⟩ := hb
  exact Nat.pow_dvd_pow 2 ((Nat.pow_le_pow_iff_right (by omega)).1 h)

/-- `Layout::align_to` -/
def Layout.alignTo (l : Layout) (a : ℕ) : Option Layout := Layout.fromSizeAlign l.size (max l.align a)

/-- `Layout::pad_to_align` -/
def Layout.padToAlign (l : Layout) : Layout where
  size := roundUp l.size l.align
  align := l.align
  pow2 := l.pow2
  fits := by
    have h63 : l.align ∣ 2 ^ 63 := pow2_dvd l.pow2 ⟨63, rfl⟩ (by have := l.fits; omega)
    have hdvd : l.align ∣ 2 ^ 63 - l.align := Nat.dvd_sub h63 (dvd_refl _)
    have := roundUp_le (pow2_pos l.pow2) hdvd (by have := l.fits; omega : l.size ≤ 2 ^ 63 - l.align)
    have := l.fits
    omega

/-! ## The free list -/

/-- `mem::size_of::<FreeNode>()` -/
abbrev nodeSize : ℕ := 16

/-- `mem::align_of::<FreeNode>()` -/
abbrev nodeAlign : ℕ := 8

/-- a free block; its header lies at its start -/
abbrev FreeNode := Block

/-- the free blocks in list order -/
abbrev FreeList := List FreeNode

def endAddr (r : FreeNode) : Except Panic ℕ := ckAdd r.start r.size

def alignUp (addr align : ℕ) : Except Panic ℕ :=
  if align ≤ 1 then .ok addr
  else do
    let a ← ckAdd addr align
    let a ← ckSub a 1
    .ok (andNot a (align - 1))

def addFreeRegion (fl : FreeList) (addr size : ℕ) : Except Panic FreeList := do
  let a ← alignUp addr nodeAlign
  ckAssert (a = addr)
  ckAssert (nodeSize ≤ size)
  .ok (⟨addr, size⟩ :: fl)

/-- `FreeList::init` -/
def initList (addr size : ℕ) : Except Panic FreeList := addFreeRegion [] addr size

/-- the only address `alloc_from_region` tries in a block: the first multiple of the alignment, or, when the gap before
it could not hold a header, the first one that leaves a large enough gap -/
def candidate (region : FreeNode) (align : ℕ) : Except Panic ℕ := do
  let a ← alignUp region.start align
  let front ← ckSub a region.start
  if 0 < front ∧ front < nodeSize then do
    let b ← ckAdd region.start nodeSize
    alignUp b align
  else .ok a

/-- the address at which the request fits into the block, if it does -/
def allocFromRegion (region : FreeNode) (size align : ℕ) : Except Panic (Option ℕ) := do
  let allocStart ← candidate region align
  match checkedAdd allocStart size with
  | none => .ok none
  | some allocEnd => do
    let regionEnd ← endAddr region
    if regionEnd < allocEnd then .ok none
    else do
      let excess ← ckSub regionEnd allocEnd
      if 0 < excess ∧ excess < nodeSize then .ok none else .ok (some allocStart)

/-- first fit: the block taken, the address inside it and the list without the block -/
def findRegion (size align : ℕ) : FreeList → Except Panic (Option (FreeNode × ℕ × FreeList))
  | [] => .ok none
  | region :: rest => do
    match ← allocFromRegion region size align with
    | some allocStart => .ok (some (region, allocStart, rest))
    | none =>
      match ← findRegion size align rest with
      | some (r, a, rest') => .ok (some (r, a, region :: rest'))
      | none => .ok none

/-- give a gap of `alloc` back to the list, if there is one -/
def addGap (fl : FreeList) (addr size : ℕ) : Except Panic FreeList :=
  if 0 < size then addFreeRegion fl addr size else .ok fl

def alloc (fl : FreeList) (size align : ℕ) : Except Panic (Option ℕ × FreeList) := do
  match ← findRegion size align fl with
  | none => .ok (none, fl)
  | some (region, allocStart, rest) => do
    let regionEnd ← endAddr region
    let allocEnd ← ckAdd allocStart size
    let front ← ckSub allocStart region.start
    let fl1 ← addGap rest region.start front
    let excess ← ckSub regionEnd allocEnd
    let fl2 ← addGap fl1 allocEnd excess
    .ok (some allocStart, fl2)

def dealloc (fl : FreeList) (ptr size : ℕ) : Except Panic FreeList := addFreeRegion fl ptr size

def sizeAlign (l : Layout) : Except Panic (ℕ × ℕ) :=
  match l.alignTo nodeAlign with
  | none => .error (.expect "align_to failed")
  | some l' => .ok (max l'.padToAlign.size nodeSize, l'.padToAlign.align)

/-- `GlobalAlloc::alloc` -/
def globalAlloc (fl : FreeList) (l : Layout) : Except Panic (Option ℕ × FreeList) := do
  let (size, align) ← sizeAlign l
  alloc fl size align

/-- `GlobalAlloc::dealloc` -/
def globalDealloc (fl : FreeList) (ptr : ℕ) (l : Layout) : Except Panic FreeList := do
  let (size, _) ← sizeAlign l
  dealloc fl ptr size

/-! ## Clients -/

/-- a live pointer and the layout it was allocated with -/
structure Live where
  ptr : ℕ
  layout : Layout
deriving DecidableEq

structure St where
  free : FreeList
  live : List Live

inductive Op where
  | alloc (l : Layout)
  | dealloc (ptr : ℕ) (l : Layout)

def step (s : St) : Op → Except Panic St
  | .alloc l => do
    let (p, fl) ← globalAlloc s.free l
    match p with
    | none => .ok { s with free := fl }
    | some a => .ok ⟨fl, ⟨a, l⟩ :: s.live⟩
  | .dealloc ptr l => do
    let fl ← globalDealloc s.free ptr l
    .ok ⟨fl, s.live.erase ⟨ptr, l⟩⟩

/-- a valid layout whose size, rounded up to max(align, 8), is at most `isize::MAX`; a `dealloc` of a live pointer
with the layout it was allocated with -/
def legal (s : St) : Op → Prop
  | .alloc l => roundUp l.size (max l.align nodeAlign) ≤ 2 ^ 63 - 1
  | .dealloc ptr l => ⟨ptr, l⟩ ∈ s.live

instance (s : St) : (o : Op) → Decidable (legal s o)
  | .alloc l => inferInstanceAs (Decidable (roundUp l.size (max l.align nodeAlign) ≤ 2 ^ 63 - 1))
  | .dealloc ptr l => inferInstanceAs (Decidable ((⟨ptr, l⟩ : Live) ∈ s.live))

/-- every operation of the trace is legal in the state it is run in -/
def Legal (s : St) : List Op → Prop
  | [] => True
  | o :: ops => legal s o ∧ ∀ t, step s o = .ok t → Legal t ops

/-- the size `size_align` gives the block of a layout -/
def blockSize (l : Layout) : ℕ :=
  match sizeAlign l with
  | .ok (size, _) => size
  | .error _ => 0

def Live.block (p : Live) : Block := ⟨p.ptr, blockSize p.layout⟩

/-- what holds of the heap over [lo, hi) in every reachable state -/
structure Inv (lo hi : ℕ) (s : St) : Prop where
  tiles : Tiles lo hi (s.free ++ s.live.map Live.block)
  free : ∀ b ∈ s.free, b.start % 8 = 0 ∧ b.size % 8 = 0 ∧ 16 ≤ b.size
  live : ∀ p ∈ s.live, p.ptr % p.layout.align = 0 ∧ p.layout.size ≤ blockSize p.layout
  /-- `size_align` succeeds on the layout of every live pointer, and the pointer can hold a header -/
  normal : ∀ p ∈ s.live, p.ptr % 8 = 0 ∧ ∃ n a, sizeAlign p.layout = .ok (n, a)

/-! ## What one request does -/

theorem alignUp_eq {addr align : ℕ} (hp : align.isPowerOfTwo) (h : addr + align < 2 ^ 64) :
    alignUp addr align = .ok (roundUp addr align) := by
  have hpos := pow2_pos hp
  unfold alignUp
  split_ifs with h1
  · have : align = 1 := by omega
    simp [this, roundUp]
  · obtain ⟨k, rfl⟩ := hp
    have hk : k ≤ 64 := by
      by_contra hk
      have : 2 ^ 64 ≤ 2 ^ k := Nat.pow_le_pow_right (by omega) (by omega)
      omega
    rw [ckAdd_eq h, ok_bind, ckSub_eq (by omega), ok_bind, andNot_two_pow (by omega) hk, roundUp,
      Nat.add_sub_assoc hpos]

/-- a free block of a heap below 8 GB -/
def FreeOk (b : FreeNode) : Prop := b.start % 8 = 0 ∧ b.size % 8 = 0 ∧ 16 ≤ b.size ∧ b.start + b.size ≤ 2 ^ 33

/-- a request as `size_align` normalises it -/
structure Request (size align : ℕ) : Prop where
  size8 : size % 8 = 0
  size16 : 16 ≤ size
  pow2 : align.isPowerOfTwo
  align8 : 8 ∣ align
  alignMax : align ≤ 2 ^ 63

theorem sizeAlign_ok {l : Layout} {n a : ℕ} (h : sizeAlign l = .ok (n, a)) :
    Request n a ∧ l.size ≤ n ∧ l.align ∣ a := by
  unfold sizeAlign Layout.alignTo Layout.fromSizeAlign at h
  split_ifs at h with hv
  · simp only [Except.ok.injEq, Prod.mk.injEq] at h
    obtain ⟨rfl, rfl⟩ := h
    have h8 : nodeAlign ∣ max l.align nodeAlign := pow2_dvd ⟨3, rfl⟩ hv.1 (le_max_right _ _)
    have hpos := pow2_pos hv.1
    have hpad : 8 ∣ roundUp l.size (max l.align nodeAlign) :=
      h8.trans (Nat.dvd_of_mod_eq_zero (roundUp_mod _ _))
    have hle := le_roundUp (n := l.size) hpos
    simp only [Layout.padToAlign]
    refine ⟨⟨?_, le_max_right _ _, hv.1, h8, ?_⟩, le_trans hle (le_max_left _ _), pow2_dvd l.pow2 hv.1 (le_max_left _ _)⟩
    · exact Nat.mod_eq_zero_of_dvd (by
        rcases max_choice (roundUp l.size (max l.align nodeAlign)) nodeSize with hm | hm <;> rw [hm]
        exacts [hpad, ⟨2, rfl⟩])
    · have := hv.2; omega

theorem pow2_max_nodeAlign (l : Layout) : (max l.align nodeAlign).isPowerOfTwo := by
  rcases max_choice l.align nodeAlign with hm | hm <;> rw [hm]
  · exact l.pow2
  · exact ⟨3, rfl⟩

/-- `size_align` succeeds exactly when the layout is still valid with its alignment raised to 8 -/
theorem sizeAlign_isOk (l : Layout) :
    (∃ n a, sizeAlign l = .ok (n, a)) ↔ l.size + max l.align nodeAlign ≤ 2 ^ 63 := by
  unfold sizeAlign Layout.alignTo Layout.fromSizeAlign
  constructor
  · rintro ⟨n, a, h⟩
    split_ifs at h with hv
    · exact hv.2
  · intro h
    rw [dif_pos ⟨pow2_max_nodeAlign l, h⟩]
    exact ⟨_, _, rfl⟩

/-- `size_align` succeeds when the size, rounded up to max(align, 8), is at most `isize::MAX` -/
theorem sizeAlign_of_fits (l : Layout) (h : roundUp l.size (max l.align nodeAlign) ≤ 2 ^ 63 - 1) :
    ∃ n a, sizeAlign l = .ok (n, a) := by
  have hpow := pow2_max_nodeAlign l
  have hle := le_roundUp (n := l.size) (pow2_pos hpow)
  -- 2^63 is a multiple of the alignment, so a rounded size below 2^63 leaves room for one more alignment
  have hmax : max l.align nodeAlign ≤ 2 ^ 63 := max_le (by have := l.fits; omega) (by decide)
  have h63 : 2 ^ 63 % max l.align nodeAlign = 0 := Nat.mod_eq_zero_of_dvd (pow2_dvd hpow ⟨63, rfl⟩ hmax)
  have := add_le_of_multiples (roundUp_mod l.size (max l.align nodeAlign)) h63 (by omega)
  exact (sizeAlign_isOk l).2 (by omega)

/-- a request placed at a inside r: aligned, inside the block, and each gap is empty or can hold a header -/
structure Placed (r : FreeNode) (size align a : ℕ) : Prop where
  aligned : a % align = 0
  lower : r.start ≤ a
  upper : a + size ≤ r.start + r.size
  front : a = r.start ∨ r.start + 16 ≤ a
  tail : a + size = r.start + r.size ∨ a + size + 16 ≤ r.start + r.size

theorem addFreeRegion_eq {fl : FreeList} {addr size : ℕ} (h8 : addr % 8 = 0) (h16 : 16 ≤ size)
    (hmax : addr + 8 < 2 ^ 64) : addFreeRegion fl addr size = .ok (⟨addr, size⟩ :: fl) := by
  have hround : roundUp addr nodeAlign = addr := by simp only [roundUp, nodeAlign]; omega
  rw [addFreeRegion, alignUp_eq ⟨3, rfl⟩ hmax, ok_bind, hround, ckAssert_eq rfl, ok_bind, ckAssert_eq h16, ok_bind]

/-- what `alloc` puts back for a gap: nothing when it is empty -/
def gap (addr size : ℕ) : FreeList := if 0 < size then [⟨addr, size⟩] else []

theorem cover_gap (x addr size : ℕ) : cover x (gap addr size) = cover x [⟨addr, size⟩] := by
  unfold gap
  split_ifs with h
  · rfl
  · rw [Nat.eq_zero_of_not_pos h, cover_empty, cover_nil]

theorem gap_ok {addr size : ℕ} (h8 : addr % 8 = 0) (hs8 : size % 8 = 0) (h16 : size = 0 ∨ 16 ≤ size)
    (hmax : addr + size ≤ 2 ^ 33) : ∀ b ∈ gap addr size, FreeOk b := by
  intro b hb
  unfold gap at hb
  split_ifs at hb with h0
  · rw [List.mem_singleton] at hb
    subst hb
    exact ⟨h8, hs8, h16.resolve_left h0.ne', hmax⟩
  · cases hb

theorem addGap_eq {fl : FreeList} {addr size : ℕ} (h8 : addr % 8 = 0) (h16 : size = 0 ∨ 16 ≤ size)
    (hmax : addr + size ≤ 2 ^ 33) : addGap fl addr size = .ok (gap addr size ++ fl) := by
  unfold addGap gap
  split_ifs with h0
  · exact addFreeRegion_eq h8 (h16.resolve_left h0.ne') (by omega)
  · rfl

/-- the candidate is aligned and leaves no small gap before it; any other such address of the block is at least a
header behind it, so moving on never cures a tail that is too small -/
theorem candidate_spec {r : FreeNode} {size align : ℕ} (hr : FreeOk r) (hq : Request size align) :
    ∃ a, candidate r align = .ok a ∧ a % align = 0 ∧ r.start ≤ a ∧ (a = r.start ∨ r.start + 16 ≤ a) ∧
      ∀ y, y % align = 0 → y = r.start ∨ r.start + 16 ≤ y → y = a ∨ a + 16 ≤ y := by
  obtain ⟨h8, -, -, hmax⟩ := hr
  have hpos := pow2_pos hq.pow2
  have hA := hq.alignMax
  have hle := le_roundUp (n := r.start) hpos
  have h8dvd := hq.align8
  -- with alignment 8 the block's own start is the candidate
  have hstart : align = 8 → roundUp r.start align = r.start := fun h => roundUp_of_dvd hpos (h ▸ h8)
  -- another multiple of the alignment behind the candidate
  have hnext : ∀ c y, c % align = 0 → y % align = 0 → c ≤ y → 16 ≤ align → y = c ∨ c + 16 ≤ y := by
    intro c y hc hy hcy h16
    rcases hcy.eq_or_lt with h | h
    · exact Or.inl h.symm
    · have := add_le_of_multiples hc hy h
      exact Or.inr (by omega)
  rw [candidate, alignUp_eq hq.pow2 (by omega), ok_bind, ckSub_eq hle, ok_bind]
  split_ifs with hf
  · have hle' := le_roundUp (n := r.start + 16) hpos
    have hne : align ≠ 8 := fun h => by rw [hstart h] at hf; omega
    refine ⟨roundUp (r.start + 16) align, ?_, roundUp_mod _ _, by omega, Or.inr hle', fun y hy hfy => ?_⟩
    · rw [ckAdd_eq (by simp only [nodeSize]; omega), ok_bind, alignUp_eq hq.pow2 (by simp only [nodeSize]; omega)]
    · have hfy' : r.start + 16 ≤ y := by
        refine hfy.resolve_left fun h => ?_
        rw [roundUp_of_dvd hpos (h ▸ hy)] at hf
        omega
      exact hnext _ y (roundUp_mod _ _) hy (roundUp_le hpos (Nat.dvd_of_mod_eq_zero hy) hfy') (by omega)
  · refine ⟨_, rfl, roundUp_mod _ _, hle, by simp only [nodeSize] at hf; omega, fun y hy hfy => ?_⟩
    by_cases hal : align = 8
    · rw [hstart hal]
      exact hfy
    · exact hnext _ y (roundUp_mod _ _) hy (roundUp_le hpos (Nat.dvd_of_mod_eq_zero hy) (by omega)) (by omega)

/-- a block is refused only if the request can be placed nowhere in it, and otherwise the lowest place is taken -/
theorem allocFromRegion_spec {r : FreeNode} {size align : ℕ} (hr : FreeOk r) (hq : Request size align) :
    ∃ res, allocFromRegion r size align = .ok res ∧ (res = none → ∀ y, ¬ Placed r size align y) ∧
      ∀ a, res = some a → Placed r size align a ∧ ∀ y, Placed r size align y → a ≤ y := by
  obtain ⟨a, ha, hal, hlo, hfront, hleast⟩ := candidate_spec hr hq
  obtain ⟨h8, hs8, h16, hmax⟩ := hr
  have hbehind : ∀ y, Placed r size align y → y = a ∨ a + 16 ≤ y := fun y hy => hleast y hy.aligned hy.front
  rw [allocFromRegion, ha, ok_bind]
  unfold checkedAdd
  split_ifs with hov
  · simp only [endAddr, ckAdd_eq (show r.start + r.size < 2 ^ 64 by omega), ok_bind]
    split_ifs with hend
    · refine ⟨none, rfl, fun _ y hy => ?_, fun _ h => by cases h⟩
      have := hbehind y hy
      have := hy.upper
      omega
    · rw [ckSub_eq (by omega), ok_bind]
      split_ifs with hex
      · refine ⟨none, rfl, fun _ y hy => ?_, fun _ h => by cases h⟩
        -- the tail is 8 bytes: too small here, and gone 16 bytes further on
        have := hbehind y hy
        have := hy.upper
        have := hy.tail
        simp only [nodeSize] at hex
        omega
      · refine ⟨some a, rfl, fun h => (by cases h), fun b hb => ?_⟩
        cases hb
        simp only [nodeSize] at hex
        refine ⟨⟨hal, hlo, by omega, hfront, by omega⟩, fun y hy => ?_⟩
        have := hbehind y hy
        omega
  · refine ⟨none, rfl, fun _ y hy => ?_, fun _ h => by cases h⟩
    have := hbehind y hy
    have := hy.upper
    omega

/-- the search stops at the first block that can hold the request -/
structure FirstFit (fl : FreeList) (size align : ℕ) (r : FreeNode) (a : ℕ) (rest : FreeList) : Prop where
  split : ∃ pre post, fl = pre ++ r :: post ∧ rest = pre ++ post ∧ ∀ q ∈ pre, ∀ y, ¬ Placed q size align y
  placed : Placed r size align a
  least : ∀ y, Placed r size align y → a ≤ y

theorem FirstFit.perm {fl rest : FreeList} {size align a : ℕ} {r : FreeNode} (h : FirstFit fl size align r a rest) :
    (r :: rest).Perm fl := by
  obtain ⟨pre, post, rfl, rfl, -⟩ := h.split
  exact List.perm_middle.symm

theorem findRegion_spec {fl : FreeList} {size align : ℕ} (hfl : ∀ b ∈ fl, FreeOk b) (hq : Request size align) :
    ∃ res, findRegion size align fl = .ok res ∧ (res = none → ∀ r ∈ fl, ∀ y, ¬ Placed r size align y) ∧
      ∀ r a rest, res = some (r, a, rest) → FirstFit fl size align r a rest := by
  induction fl with
  | nil => exact ⟨none, rfl, by simp, fun _ _ _ h => by cases h⟩
  | cons b fl ih =>
    obtain ⟨res, hres, hno, hpl⟩ := allocFromRegion_spec (hfl b List.mem_cons_self) hq
    obtain ⟨res', hres', hno', hpl'⟩ := ih fun c hc => hfl c (List.mem_cons_of_mem b hc)
    rw [findRegion, hres, ok_bind]
    cases res with
    | some a =>
      refine ⟨_, rfl, fun h => (by cases h), fun r a' rest h => ?_⟩
      cases h
      exact ⟨⟨[], fl, rfl, rfl, by simp⟩, (hpl a rfl).1, (hpl a rfl).2⟩
    | none =>
      simp only [hres', ok_bind]
      rcases res' with _ | ⟨r, a, rest⟩
      · exact ⟨none, rfl, fun _ => List.forall_mem_cons.2 ⟨hno rfl, hno' rfl⟩, fun _ _ _ h => by cases h⟩
      · refine ⟨_, rfl, fun h => (by cases h), fun r' a' rest' h => ?_⟩
        cases h
        obtain ⟨⟨pre, post, rfl, rfl, hpre⟩, hp, hl⟩ := hpl' r a rest rfl
        exact ⟨⟨b :: pre, post, rfl, rfl, List.forall_mem_cons.2 ⟨hno rfl, hpre⟩⟩, hp, hl⟩

/-- the list after an allocation at a in r: the two gaps, tail first, before the rest -/
def afterAlloc (r : FreeNode) (a size : ℕ) (rest : FreeList) : FreeList :=
  gap (a + size) (r.start + r.size - (a + size)) ++ (gap r.start (a - r.start) ++ rest)

/-- a request that finds no place leaves the list as it is -/
theorem alloc_none {fl : FreeList} {size align : ℕ} (h : findRegion size align fl = .ok none) :
    alloc fl size align = .ok (none, fl) := by
  rw [alloc, h, ok_bind]

theorem alloc_some {fl rest : FreeList} {size align a : ℕ} {r : FreeNode}
    (h : findRegion size align fl = .ok (some (r, a, rest))) (hr : FreeOk r) (hq : Request size align)
    (hp : Placed r size align a) : alloc fl size align = .ok (some a, afterAlloc r a size rest) := by
  obtain ⟨h8, hs8, h16, hmax⟩ := hr
  obtain ⟨hal, hlo, hup, hfront, htail⟩ := hp
  have ha8 : a % 8 = 0 := Nat.mod_eq_zero_of_dvd (hq.align8.trans (Nat.dvd_of_mod_eq_zero hal))
  have hs := hq.size8
  rw [alloc, h, ok_bind]
  simp only [endAddr, ckAdd_eq (show r.start + r.size < 2 ^ 64 by omega), ok_bind,
    ckAdd_eq (show a + size < 2 ^ 64 by omega), ckSub_eq hlo, ckSub_eq hup]
  rw [addGap_eq h8 (by omega) (by omega), ok_bind, addGap_eq (by omega) (by omega) (by omega), ok_bind, afterAlloc]

/-- **One request**, exactly: it never panics, fails only where nothing fits, and otherwise takes the lowest place of
the first block that has one -/
theorem alloc_first {fl : FreeList} {size align : ℕ} (hfl : ∀ b ∈ fl, FreeOk b) (hq : Request size align) :
    (alloc fl size align = .ok (none, fl) ∧ ∀ r ∈ fl, ∀ y, ¬ Placed r size align y) ∨
      ∃ r a rest, alloc fl size align = .ok (some a, afterAlloc r a size rest) ∧ FirstFit fl size align r a rest := by
  obtain ⟨res, hres, hno, hsp⟩ := findRegion_spec hfl hq
  rcases res with _ | ⟨r, a, rest⟩
  · exact Or.inl ⟨alloc_none hres, hno rfl⟩
  · have hff := hsp r a rest rfl
    exact Or.inr ⟨r, a, rest, alloc_some hres (hfl r (hff.perm.subset List.mem_cons_self)) hq hff.placed, hff⟩

theorem afterAlloc_ok {fl rest : FreeList} {size align a : ℕ} {r : FreeNode} (hfl : ∀ b ∈ fl, FreeOk b)
    (hq : Request size align) (h : FirstFit fl size align r a rest) : ∀ b ∈ afterAlloc r a size rest, FreeOk b := by
  obtain ⟨h8, hs8, h16, hmax⟩ := hfl r (h.perm.subset List.mem_cons_self)
  obtain ⟨hal, hlo, hup, hfront, htail⟩ := h.placed
  have ha8 : a % 8 = 0 := Nat.mod_eq_zero_of_dvd (hq.align8.trans (Nat.dvd_of_mod_eq_zero hal))
  have hs := hq.size8
  intro b hb
  rcases List.mem_append.1 hb with hb | hb
  · exact gap_ok (by omega) (by omega) (by omega) (by omega) b hb
  · rcases List.mem_append.1 hb with hb | hb
    · exact gap_ok h8 (by omega) (by omega) (by omega) b hb
    · exact hfl b (h.perm.subset (List.mem_cons_of_mem r hb))

/-- the free list after the allocation and the new block hold the same addresses as the old list -/
theorem cover_afterAlloc {fl rest : FreeList} {size align a : ℕ} {r : FreeNode} (h : FirstFit fl size align r a rest)
    (x : ℕ) : cover x (afterAlloc r a size rest) + cover x [⟨a, size⟩] = cover x fl := by
  obtain ⟨hal, hlo, hup, hfront, htail⟩ := h.placed
  -- the block is cut at the start and at the end of the allocation
  have hc1 := cover_cut x hlo (show a ≤ r.start + r.size by omega)
  have hc2 := cover_cut x (show a ≤ a + size by omega) hup
  simp only [Nat.add_sub_cancel_left] at hc1 hc2
  rw [← cover_perm h.perm x, afterAlloc, cover_append, cover_append, cover_gap, cover_gap]
  change _ = cover x [r] at hc1
  simp only [cover_cons, cover_nil] at hc1 hc2 ⊢
  omega

/-- **One request.** It never panics. On failure the list is unchanged; on success the free list and the new block
hold the same addresses as the old list, and every block of the new list can hold a header. -/
theorem alloc_spec {fl : FreeList} {size align : ℕ} (hfl : ∀ b ∈ fl, FreeOk b) (hq : Request size align) :
    ∃ p fl', alloc fl size align = .ok (p, fl') ∧ (∀ b ∈ fl', FreeOk b) ∧ (p = none → fl' = fl) ∧
      ∀ a, p = some a → a % align = 0 ∧ ∀ x, cover x fl' + cover x [⟨a, size⟩] = cover x fl := by
  rcases alloc_first hfl hq with ⟨h, -⟩ | ⟨r, a, rest, h, hff⟩
  · exact ⟨none, fl, h, hfl, fun _ => rfl, fun _ h => by cases h⟩
  · refine ⟨some a, _, h, afterAlloc_ok hfl hq hff, fun h => (by cases h), fun b hb => ?_⟩
    cases hb
    exact ⟨hff.placed.aligned, cover_afterAlloc hff⟩

/-! ## Legal traces -/

theorem freeOk_of_inv {lo hi : ℕ} {s : St} (h : Inv lo hi s) (hmax : hi ≤ 2 ^ 33) : ∀ b ∈ s.free, FreeOk b := by
  intro b hb
  obtain ⟨h8, hs8, h16⟩ := h.free b hb
  have := (h.tiles.bounds (List.mem_append_left _ hb) (by omega)).2
  exact ⟨h8, hs8, h16, by omega⟩

/-- in an invariant state every live block lies in the region -/
theorem live_bounds {lo hi : ℕ} {s : St} (h : Inv lo hi s) {p : Live} (hp : p ∈ s.live) :
    lo ≤ p.ptr ∧ p.ptr + blockSize p.layout ≤ hi := by
  obtain ⟨n, a, hna⟩ := (h.normal p hp).2
  have hsize : blockSize p.layout = n := by rw [blockSize, hna]
  have hpos : 0 < p.block.size := by
    show 0 < blockSize p.layout
    have := (sizeAlign_ok hna).1.size16
    omega
  exact h.tiles.bounds (List.mem_append_right _ (List.mem_map_of_mem hp)) hpos

theorem step_alloc_ok {lo hi : ℕ} (hmax : hi ≤ 2 ^ 33) {s : St} (h : Inv lo hi s) {l : Layout} (ho : legal s (.alloc l)) :
    ∃ t, step s (.alloc l) = .ok t ∧ Inv lo hi t := by
  obtain ⟨n, a, hna⟩ := sizeAlign_of_fits l ho
  obtain ⟨hq, hsize, halign⟩ := sizeAlign_ok hna
  obtain ⟨p, fl', hp, hok, hnone, hsome⟩ := alloc_spec (freeOk_of_inv h hmax) hq
  have hfl : ∀ b ∈ fl', b.start % 8 = 0 ∧ b.size % 8 = 0 ∧ 16 ≤ b.size :=
    fun b hb => ⟨(hok b hb).1, (hok b hb).2.1, (hok b hb).2.2.1⟩
  simp only [step, globalAlloc, hna, ok_bind, hp]
  cases p with
  | none =>
    rw [hnone rfl]
    exact ⟨_, rfl, h⟩
  | some ptr =>
    obtain ⟨hmod, hcov⟩ := hsome ptr rfl
    have hbs : blockSize l = n := by rw [blockSize, hna]
    refine ⟨_, rfl, ?_, hfl, ?_, ?_⟩
    · rw [tiles_iff_cover]
      intro x
      have hx := tiles_iff_cover.1 h.tiles x
      have := hcov x
      simp only [cover_append, List.map_cons, cover_cons, Live.block, hbs, cover_nil] at this hx ⊢
      omega
    · refine List.forall_mem_cons.2 ⟨⟨?_, hbs ▸ hsize⟩, h.live⟩
      exact Nat.mod_eq_zero_of_dvd (halign.trans (Nat.dvd_of_mod_eq_zero hmod))
    · refine List.forall_mem_cons.2 ⟨⟨?_, n, a, hna⟩, h.normal⟩
      exact Nat.mod_eq_zero_of_dvd (hq.align8.trans (Nat.dvd_of_mod_eq_zero hmod))

theorem step_dealloc_ok {lo hi : ℕ} (hmax : hi ≤ 2 ^ 33) {s : St} (h : Inv lo hi s) {ptr : ℕ} {l : Layout}
    (hmem : (⟨ptr, l⟩ : Live) ∈ s.live) : ∃ t, step s (.dealloc ptr l) = .ok t ∧ Inv lo hi t := by
  obtain ⟨h8, n, a, hna⟩ := h.normal _ hmem
  obtain ⟨hq, -, -⟩ := sizeAlign_ok hna
  have hbs : blockSize l = n := by rw [blockSize, hna]
  have hb : ptr + n ≤ hi := hbs ▸ (live_bounds h hmem).2
  have h16 := hq.size16
  simp only [step, globalDealloc, hna, ok_bind, dealloc]
  rw [addFreeRegion_eq h8 h16 (show ptr + 8 < 2 ^ 64 by omega), ok_bind]
  refine ⟨_, rfl, ?_, ?_, fun p hp => h.live p (List.mem_of_mem_erase hp),
    fun p hp => h.normal p (List.mem_of_mem_erase hp)⟩
  · rw [tiles_iff_cover]
    intro x
    have hx := tiles_iff_cover.1 h.tiles x
    -- the block moves from the live list to the head of the free list
    have hperm := cover_perm ((List.perm_cons_erase hmem).map Live.block) x
    simp only [cover_append, List.map_cons, cover_cons, Live.block, hbs] at hperm hx ⊢
    rw [hperm] at hx
    omega
  · exact List.forall_mem_cons.2 ⟨⟨h8, hq.size8, hq.size16⟩, h.free⟩

/-- **One legal operation** neither panics nor breaks the invariant -/
theorem step_ok {lo hi : ℕ} (hmax : hi ≤ 2 ^ 33) {s : St} {o : Op} (h : Inv lo hi s) (ho : legal s o) :
    ∃ t, step s o = .ok t ∧ Inv lo hi t := by
  cases o with
  | alloc l => exact step_alloc_ok hmax h ho
  | dealloc ptr l => exact step_dealloc_ok hmax h ho

theorem run_ok {lo hi : ℕ} (hmax : hi ≤ 2 ^ 33) {s : St} {ops : List Op} (h : Inv lo hi s) (hl : Legal s ops) :
    ∃ t, run step s ops = .ok t ∧ Inv lo hi t := by
  induction ops generalizing s with
  | nil => exact ⟨s, rfl, h⟩
  | cons o ops ih =>
    obtain ⟨u, hu, hinv⟩ := step_ok hmax h hl.1
    obtain ⟨t, ht, hinv'⟩ := ih hinv (hl.2 u hu)
    exact ⟨t, by rw [run, hu, ok_bind, ht], hinv'⟩

theorem init_ok {S N : ℕ} (hS : S % 4096 = 0) (hN : N % 4096 = 0) (hpos : 0 < N) (hmax : S + N ≤ 2 ^ 33) :
    ∃ fl, initList S N = .ok fl ∧ Inv S (S + N) ⟨fl, []⟩ := by
  refine ⟨[⟨S, N⟩], addFreeRegion_eq (by omega) (by omega) (by omega), ?_, ?_, by simp, by simp⟩
  · simpa using tiles_single (Nat.le_add_right S N)
  · intro b hb
    rw [List.mem_singleton] at hb
    subst hb
    exact ⟨show S % 8 = 0 by omega, show N % 8 = 0 by omega, show 16 ≤ N by omega⟩

/-- **Heap tiling.** A heap over a nonempty page-aligned region [S, S + N) below 8 GB, run through any legal trace of
`alloc` and `dealloc`, never panics (no assertion fires, no addition or subtraction overflows), and in the state reached
the free and the live blocks tile the region exactly; free blocks are 8-aligned with a size that is a multiple of 8 and
at least 16; live pointers are aligned as their layout asks and their blocks are large enough for it. -/
theorem heap_tiling (S N : ℕ) (hS : S % 4096 = 0) (hN : N % 4096 = 0) (hpos : 0 < N) (hmax : S + N ≤ 8 * 2 ^ 30) :
    ∃ fl, initList S N = .ok fl ∧ ∀ ops, Legal ⟨fl, []⟩ ops →
      ∃ s, run step ⟨fl, []⟩ ops = .ok s ∧ Tiles S (S + N) (s.free ++ s.live.map Live.block) ∧
        (∀ b ∈ s.free, b.start % 8 = 0 ∧ b.size % 8 = 0 ∧ 16 ≤ b.size) ∧
        ∀ p ∈ s.live, p.ptr % p.layout.align = 0 ∧ p.layout.size ≤ p.block.size := by
  have h33 : S + N ≤ 2 ^ 33 := by omega
  obtain ⟨fl, hfl, hinv⟩ := init_ok hS hN hpos h33
  refine ⟨fl, hfl, fun ops hl => ?_⟩
  obtain ⟨s, hs, hs'⟩ := run_ok h33 hinv hl
  exact ⟨s, hs, hs'.tiles, hs'.free, hs'.live⟩

/-- the page that `self_test` asks for: 64 bytes at a page boundary -/
def pageLayout : Layout := ⟨64, 4096, ⟨12, rfl⟩, by decide⟩

/-- one megabyte at 1 MB, as the kernel starts it: allocating the page and giving it back leaves a tiling -/
theorem heap_tiling_one_page :
    ∃ fl, initList 0x100000 0x100000 = .ok fl ∧
      ∃ s, run step ⟨fl, []⟩ [.alloc pageLayout, .dealloc 0x100000 pageLayout] = .ok s ∧
        Tiles 0x100000 0x200000 (s.free ++ s.live.map Live.block) := by
  obtain ⟨fl, hfl, h⟩ := heap_tiling 0x100000 0x100000 (by decide) (by decide) (by decide) (by decide)
  have hfl' : fl = [⟨0x100000, 0x100000⟩] := by cases hfl; rfl
  subst hfl'
  obtain ⟨s, hs, ht, -⟩ := h [.alloc pageLayout, .dealloc 0x100000 pageLayout] (by
    refine ⟨by decide, fun t ht => ⟨?_, fun _ _ => trivial⟩⟩
    cases ht
    decide)
  exact ⟨_, rfl, s, hs, ht⟩

end Tomorrow.Heap
