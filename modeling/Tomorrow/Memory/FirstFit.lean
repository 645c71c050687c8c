/-
What a client of the kernel heap (`heap.rs`) can rely on, in every heap a legal trace reaches.

First fit tries one address in each block. Blocks and requests are multiples of 8, so the address it tries is the lowest
one whose front gap is empty or can hold a header, and any other is at least 16 bytes behind it: a tail that is too
small there would be negative here. A request is therefore refused only when it can be placed nowhere.

Freed blocks are never merged. They go to the head of the list, so blocks freed in reverse order lie there in the order
in which they were allocated, each of exactly the size its layout asks for, and the next round takes them back one by
one without a gap.

`kmallocAligned` validates the pair (size, align) and then asks `size_align`, whose `expect` fails on a layout that is
valid with its own alignment and not with alignment 8.

Results:
- `first_fit_complete`: null iff nothing fits; otherwise the lowest place of the first block that has one;
- `lifo_reuse`: any number of rounds of freeing in reverse and allocating again gives the same pointers;
- `kmalloc_total`: exactly when `kmallocAligned` returns.
-/
import Tomorrow.Memory.Heap

namespace Tomorrow.Heap

open Tomorrow.Core

/-! ## Reachable heaps -/

/-- a legal trace reaches s over a nonempty page-aligned region [S, S + N) above address 0 and below 8 GB -/
structure Reachable (S N : ℕ) (s : St) : Prop where
  start : 0 < S ∧ S % 4096 = 0
  size : 0 < N ∧ N % 4096 = 0
  bound : S + N ≤ 8 * 2 ^ 30
  trace : ∃ fl ops, initList S N = .ok fl ∧ Legal ⟨fl, []⟩ ops ∧ run step ⟨fl, []⟩ ops = .ok s

section Reachable

variable {S N : ℕ} {s : St}

theorem Reachable.inv (h : Reachable S N s) : Inv S (S + N) s := by
  have h33 : S + N ≤ 2 ^ 33 := h.bound
  obtain ⟨fl, ops, hfl, hl, hrun⟩ := h.trace
  obtain ⟨fl', hfl', hinv⟩ := init_ok h.start.2 h.size.2 h.size.1 h33
  rw [hfl] at hfl'
  cases hfl'
  obtain ⟨t, ht, hinv'⟩ := run_ok h33 hinv hl
  rw [hrun] at ht
  cases ht
  exact hinv'

theorem Reachable.freeOk (h : Reachable S N s) : ∀ b ∈ s.free, FreeOk b := freeOk_of_inv h.inv h.bound

end Reachable

/-- a heap of the size the kernel gives it: one megabyte, here at 1 MB -/
def bootHeap : St := ⟨[⟨0x100000, 0x100000⟩], []⟩

theorem bootHeap_reachable : Reachable 0x100000 0x100000 bootHeap :=
  ⟨by decide, by decide, by decide, [⟨0x100000, 0x100000⟩], [], rfl, trivial, rfl⟩

/-! ## First fit -/

/-- **First-fit completeness.** In every reachable heap and for every request `size_align` produces, `alloc` returns.
It returns null iff no free block can hold the request at an aligned address with both gaps empty or at least 16 bytes,
and then the list is unchanged. Otherwise it takes the lowest such address of the first block in list order that has
one; the list loses that block and gains its nonempty gaps. -/
theorem first_fit_complete {S N : ℕ} {s : St} (h : Reachable S N s) {l : Layout} {size align : ℕ}
    (hl : sizeAlign l = .ok (size, align)) :
    ∃ p fl, alloc s.free size align = .ok (p, fl) ∧
      (p = none ↔ ∀ r ∈ s.free, ∀ y, ¬ Placed r size align y) ∧
      (p = none → fl = s.free) ∧
      ∀ a, p = some a → ∃ pre r post, s.free = pre ++ r :: post ∧
        (∀ q ∈ pre, ∀ y, ¬ Placed q size align y) ∧
        Placed r size align a ∧ (∀ y, Placed r size align y → a ≤ y) ∧
        fl = gap (a + size) (r.start + r.size - (a + size)) ++ (gap r.start (a - r.start) ++ (pre ++ post)) := by
  obtain ⟨hq, -, -⟩ := sizeAlign_ok hl
  rcases alloc_first h.freeOk hq with ⟨halloc, hno⟩ | ⟨r, a, rest, halloc, hff⟩
  · exact ⟨none, s.free, halloc, by simpa using hno, fun _ => rfl, fun _ h => by cases h⟩
  · have hr : r ∈ s.free := hff.perm.subset List.mem_cons_self
    obtain ⟨⟨pre, post, hs, rfl, hpre⟩, hp, hleast⟩ := hff
    refine ⟨some a, _, halloc, ?_, fun h => (by cases h), fun b hb => ?_⟩
    · simp only [reduceCtorEq, false_iff, not_forall, not_not]
      exact ⟨r, hr, a, hp⟩
    · cases hb
      exact ⟨pre, r, post, hs, hpre, hp, hleast, rfl⟩

theorem eight_isPowerOfTwo : (8 : ℕ).isPowerOfTwo := ⟨3, rfl⟩

/-- a layout of 64 bytes, and one of just over two pages -/
def lineLayout : Layout := ⟨64, 8, eight_isPowerOfTwo, by decide⟩

def twoPagesLayout : Layout := ⟨0x2030, 8, eight_isPowerOfTwo, by decide⟩

/-- three blocks are taken, and the first two are freed, the smaller one last -/
def fragmenting : List Op :=
  [.alloc lineLayout, .alloc twoPagesLayout, .alloc lineLayout, .dealloc 0x100040 twoPagesLayout, .dealloc 0x100000 lineLayout]

def fragmented : St :=
  ⟨[⟨0x100000, 0x40⟩, ⟨0x100040, 0x2030⟩, ⟨0x1020B0, 0xFDF50⟩], [⟨0x102070, lineLayout⟩]⟩

theorem fragmented_reachable : Reachable 0x100000 0x100000 fragmented := by
  refine ⟨by decide, by decide, by decide, [⟨0x100000, 0x100000⟩], fragmenting, rfl, ?_, rfl⟩
  refine ⟨by decide, fun t ht => ⟨?_, fun u hu => ⟨?_, fun v hv => ⟨?_, fun w hw => ⟨?_, fun _ _ => trivial⟩⟩⟩⟩⟩
  · cases ht
    decide
  · cases ht
    cases hu
    decide
  · cases ht
    cases hu
    cases hv
    decide
  · cases ht
    cases hu
    cases hv
    cases hw
    decide

/-- a page in the fragmented heap: the first block is too small, the second one has room at its first page boundary, and
both its gaps go to the front of the list -/
theorem first_fit_complete_fragmented : sizeAlign pageLayout = .ok (4096, 4096) ∧
    alloc fragmented.free 4096 4096 =
      .ok (some 0x101000, [⟨0x102000, 0x70⟩, ⟨0x100040, 0xFC0⟩, ⟨0x100000, 0x40⟩, ⟨0x1020B0, 0xFDF50⟩]) ∧
    (∀ y, ¬ Placed ⟨0x100000, 0x40⟩ 4096 4096 y) ∧ ∀ y, Placed ⟨0x100040, 0x2030⟩ 4096 4096 y → 0x101000 ≤ y := by
  have hl : sizeAlign pageLayout = .ok (4096, 4096) := rfl
  have halloc : alloc fragmented.free 4096 4096 =
    .ok (some 0x101000, [⟨0x102000, 0x70⟩, ⟨0x100040, 0xFC0⟩, ⟨0x100000, 0x40⟩, ⟨0x1020B0, 0xFDF50⟩]) := rfl
  obtain ⟨p, fl, h, -, -, hfirst⟩ := first_fit_complete fragmented_reachable hl
  rw [halloc] at h
  cases h
  obtain ⟨pre, r, post, hsplit, hpre, hplaced, hleast, -⟩ := hfirst _ rfl
  -- the block that the request came from is the second one
  have hlower := hplaced.lower
  have hupper := hplaced.upper
  rcases pre with _ | ⟨x, _ | ⟨y, pre⟩⟩
  · obtain ⟨rfl, -⟩ := List.cons.inj hsplit
    exact absurd hupper (by decide)
  · obtain ⟨rfl, htail⟩ := List.cons.inj hsplit
    obtain ⟨rfl, -⟩ := List.cons.inj htail
    exact ⟨hl, halloc, hpre _ List.mem_cons_self, hleast⟩
  · obtain ⟨-, htail⟩ := List.cons.inj hsplit
    obtain ⟨-, htail⟩ := List.cons.inj htail
    have hlast : r = ⟨0x1020B0, 0xFDF50⟩ := by
      cases pre with
      | nil => exact (List.cons.inj htail).1.symm
      | cons z pre =>
        have hlen := congrArg List.length htail
        simp at hlen
    subst hlast
    exact absurd hlower (by decide)

/-! ## Reuse -/

/-- allocate the layouts in order; `none` as soon as a request returns null -/
def allocAll (fl : FreeList) : List Layout → Except Panic (Option (List ℕ × FreeList))
  | [] => .ok (some ([], fl))
  | l :: ls => do
    match ← globalAlloc fl l with
    | (none, _) => .ok none
    | (some p, fl1) =>
      match ← allocAll fl1 ls with
      | none => .ok none
      | some (ps, fl2) => .ok (some (p :: ps, fl2))

/-- free the pointers with their layouts, the last one first -/
def freeAll (fl : FreeList) (ps : List (ℕ × Layout)) : Except Panic FreeList :=
  run (fun fl q => globalDealloc fl q.1 q.2) fl ps.reverse

/-- k rounds of freeing the pointers and allocating the layouts again -/
def rounds (ls : List Layout) : ℕ → List ℕ → FreeList → Except Panic (Option (List ℕ × FreeList))
  | 0, ps, fl => .ok (some (ps, fl))
  | k + 1, ps, fl => do
    let fl1 ← freeAll fl (ps.zip ls)
    match ← allocAll fl1 ls with
    | none => .ok none
    | some (ps', fl2) => rounds ls k ps' fl2

/-- a pointer that `alloc` has given for the layout: its block can become a free block and is aligned for the request -/
def Granted (p : ℕ) (l : Layout) : Prop :=
  ∃ size align, sizeAlign l = .ok (size, align) ∧ FreeOk ⟨p, size⟩ ∧ p % align = 0

theorem Granted.sizeAlign {p : ℕ} {l : Layout} (h : Granted p l) :
    ∃ align, sizeAlign l = .ok (blockSize l, align) ∧ FreeOk ⟨p, blockSize l⟩ ∧ p % align = 0 := by
  obtain ⟨size, align, hl, hok, hal⟩ := h
  have hb : blockSize l = size := by rw [blockSize, hl]
  exact ⟨align, hb ▸ hl, hb ▸ hok, hal⟩

theorem globalAlloc_granted {fl fl' : FreeList} {l : Layout} {p : ℕ} (hfl : ∀ b ∈ fl, FreeOk b)
    (h : globalAlloc fl l = .ok (some p, fl')) : Granted p l ∧ ∀ b ∈ fl', FreeOk b := by
  obtain ⟨⟨size, align⟩, hl, halloc⟩ := bind_ok.1 h
  simp only at halloc
  obtain ⟨hq, -, -⟩ := sizeAlign_ok hl
  rcases alloc_first hfl hq with ⟨hnone, -⟩ | ⟨r, a, rest, hsome, hff⟩
  · rw [hnone] at halloc
    cases halloc
  · rw [hsome] at halloc
    cases halloc
    have hr := hfl r (hff.perm.subset List.mem_cons_self)
    have hp := hff.placed
    have h8 : p % 8 = 0 := Nat.mod_eq_zero_of_dvd (hq.align8.trans (Nat.dvd_of_mod_eq_zero hp.aligned))
    exact ⟨⟨size, align, hl, ⟨h8, hq.size8, hq.size16, le_trans hp.upper hr.2.2.2⟩, hp.aligned⟩,
      afterAlloc_ok hfl hq hff⟩

theorem allocAll_granted {fl fl' : FreeList} {ls : List Layout} {ps : List ℕ} (hfl : ∀ b ∈ fl, FreeOk b)
    (h : allocAll fl ls = .ok (some (ps, fl'))) : List.Forall₂ Granted ps ls ∧ ∀ b ∈ fl', FreeOk b := by
  induction ls generalizing fl ps with
  | nil =>
    cases h
    exact ⟨.nil, hfl⟩
  | cons l ls ih =>
    obtain ⟨⟨p, fl1⟩, hp, h⟩ := bind_ok.1 h
    cases p with
    | none => cases h
    | some p =>
      obtain ⟨res, hres, h⟩ := bind_ok.1 h
      obtain ⟨hg, hfl1⟩ := globalAlloc_granted hfl hp
      rcases res with _ | ⟨ps', fl2⟩
      · cases h
      · cases h
        obtain ⟨hgs, hfl2⟩ := ih hfl1 hres
        exact ⟨.cons hg hgs, hfl2⟩

/-- freeing in reverse puts the blocks at the head of the list in the order of their allocation -/
theorem freeAll_eq {ps : List ℕ} {ls : List Layout} (h : List.Forall₂ Granted ps ls) (fl : FreeList) :
    freeAll fl (ps.zip ls) = .ok ((ps.zip ls).map (fun q => ⟨q.1, blockSize q.2⟩) ++ fl) := by
  induction h with
  | nil => rfl
  | @cons p l ps ls hg hgs ih =>
    obtain ⟨align, hl, ⟨h8, -, h16, hmax⟩, -⟩ := hg.sizeAlign
    have hdealloc : ∀ fl', globalDealloc fl' p l = .ok (⟨p, blockSize l⟩ :: fl') := by
      intro fl'
      rw [globalDealloc, hl, ok_bind]
      exact addFreeRegion_eq h8 h16 (by simp only at hmax; omega)
    rw [freeAll] at ih
    rw [freeAll, List.zip_cons_cons, List.reverse_cons, run_append, ih, ok_bind]
    simp only [run, hdealloc, ok_bind, List.map_cons, List.cons_append]

/-- a block at the head of the list that is exactly the request is taken as a whole -/
theorem globalAlloc_head {p : ℕ} {l : Layout} (h : Granted p l) {fl : FreeList} (hfl : ∀ b ∈ fl, FreeOk b) :
    globalAlloc (⟨p, blockSize l⟩ :: fl) l = .ok (some p, fl) := by
  obtain ⟨align, hl, hok, hal⟩ := h.sizeAlign
  obtain ⟨hq, -, -⟩ := sizeAlign_ok hl
  have hplaced : Placed ⟨p, blockSize l⟩ (blockSize l) align p := ⟨hal, le_rfl, le_rfl, Or.inl rfl, Or.inl rfl⟩
  rw [globalAlloc, hl, ok_bind]
  rcases alloc_first (List.forall_mem_cons.2 ⟨hok, hfl⟩) hq with ⟨-, hno⟩ | ⟨r, a, rest, hsome, hff⟩
  · exact absurd hplaced (hno _ List.mem_cons_self p)
  · obtain ⟨⟨pre, post, hsplit, rfl, hpre⟩, hp, hleast⟩ := hff
    -- nothing stands before the head, which can hold the request
    cases pre with
    | cons q pre =>
      cases hsplit
      exact absurd hplaced (hpre _ List.mem_cons_self p)
    | nil =>
      cases hsplit
      have ha : a = p := le_antisymm (hleast p hplaced) hp.lower
      subst ha
      simp [hsome, afterAlloc, gap]

theorem granted_blocks_ok {ps : List ℕ} {ls : List Layout} (h : List.Forall₂ Granted ps ls) {fl : FreeList}
    (hfl : ∀ b ∈ fl, FreeOk b) : ∀ b ∈ (ps.zip ls).map (fun q => ⟨q.1, blockSize q.2⟩) ++ fl, FreeOk b := by
  induction h with
  | nil => exact hfl
  | @cons p l ps ls hg hgs ih =>
    obtain ⟨-, -, hok, -⟩ := hg.sizeAlign
    exact List.forall_mem_cons.2 ⟨hok, ih⟩

theorem allocAll_head {ps : List ℕ} {ls : List Layout} (h : List.Forall₂ Granted ps ls) {fl : FreeList}
    (hfl : ∀ b ∈ fl, FreeOk b) :
    allocAll ((ps.zip ls).map (fun q => ⟨q.1, blockSize q.2⟩) ++ fl) ls = .ok (some (ps, fl)) := by
  induction h with
  | nil => rfl
  | @cons p l ps ls hg hgs ih =>
    have hrest := granted_blocks_ok hgs hfl
    simp only [List.zip_cons_cons, List.map_cons, List.cons_append, allocAll, globalAlloc_head hg hrest, ok_bind, ih]

theorem rounds_eq {ls : List Layout} {ps : List ℕ} {fl fl' : FreeList} (hfree : freeAll fl (ps.zip ls) = .ok fl')
    (halloc : allocAll fl' ls = .ok (some (ps, fl))) (k : ℕ) : rounds ls k ps fl = .ok (some (ps, fl)) := by
  induction k with
  | zero => rfl
  | succ k ih => simp only [rounds, hfree, halloc, ok_bind, ih]

/-- **Reuse after LIFO free.** In every reachable heap, if a list of layouts is allocated in order without a null, then
freeing the pointers in reverse and allocating the layouts again gives the same pointers and the same free list; so does
any number of such rounds. -/
theorem lifo_reuse {S N : ℕ} {s : St} (h : Reachable S N s) {ls : List Layout} {ps : List ℕ} {fl : FreeList}
    (hall : allocAll s.free ls = .ok (some (ps, fl))) :
    (∃ fl', freeAll fl (ps.zip ls) = .ok fl' ∧ allocAll fl' ls = .ok (some (ps, fl))) ∧
      ∀ k, rounds ls k ps fl = .ok (some (ps, fl)) := by
  obtain ⟨hg, hfl⟩ := allocAll_granted h.freeOk hall
  have hfree := freeAll_eq hg fl
  have halloc := allocAll_head hg hfl
  exact ⟨⟨_, hfree, halloc⟩, rounds_eq hfree halloc⟩

/-- a byte, a page and a byte again: the second byte comes from the gap before the page -/
theorem lifo_reuse_mixed :
    let byte : Layout := ⟨1, 1, ⟨0, rfl⟩, by decide⟩
    let ls := [byte, pageLayout, byte]
    ∃ ps fl, allocAll bootHeap.free ls = .ok (some (ps, fl)) ∧ ∀ k, rounds ls k ps fl = .ok (some (ps, fl)) :=
  ⟨_, _, rfl, (lifo_reuse bootHeap_reachable rfl).2⟩

/-! ## The total interface -/

def kmallocAligned (fl : FreeList) (size align : ℕ) : Except Panic (Option ℕ × FreeList) :=
  match Layout.fromSizeAlign size align with
  | some l => globalAlloc fl l
  | none => .ok (none, fl)

/-- (size, align) is a valid layout and some free block can hold it as `size_align` normalises it -/
def Fits (fl : FreeList) (size align : ℕ) : Prop :=
  ∃ l n a, Layout.fromSizeAlign size align = some l ∧ sizeAlign l = .ok (n, a) ∧ ∃ r ∈ fl, ∃ y, Placed r n a y

/-- what a caller of `kmalloc_aligned` expects of the heap over [S, S + N): it returns, with null and the list as it was
or with an aligned block of at least size bytes inside the heap and apart from every live block; and with null where
the pair is no layout or nothing fits -/
def Answers (S N : ℕ) (s : St) (size align : ℕ) : Prop :=
  ∃ p fl, kmallocAligned s.free size align = .ok (p, fl) ∧ (p = none → fl = s.free) ∧
    (∀ x, p = some x → x % align = 0 ∧
      ∃ n, size ≤ n ∧ S ≤ x ∧ x + n ≤ S + N ∧ ∀ q ∈ s.live, Block.Apart ⟨x, n⟩ q.block) ∧
    (Layout.fromSizeAlign size align = none ∨ ¬ Fits s.free size align → p = none)

theorem fromSizeAlign_some {size align : ℕ} {l : Layout} (h : Layout.fromSizeAlign size align = some l) :
    l.size = size ∧ l.align = align := by
  unfold Layout.fromSizeAlign at h
  split_ifs at h
  cases h
  exact ⟨rfl, rfl⟩

/-- an allocated block is cut out of the free blocks, so it lies in the heap and meets no live block -/
theorem granted_apart {lo hi : ℕ} {s : St} (h : Inv lo hi s) {r : FreeNode} (hr : r ∈ s.free) {size align a : ℕ}
    (hp : Placed r size align a) (hpos : 0 < size) :
    lo ≤ a ∧ a + size ≤ hi ∧ ∀ q ∈ s.live, Block.Apart ⟨a, size⟩ q.block := by
  have hlo := hp.lower
  have hup := hp.upper
  have hb := h.tiles.bounds (List.mem_append_left _ hr) (by omega)
  refine ⟨by omega, by omega, fun q hq x hx => ?_⟩
  have hap := List.pairwise_append.1 h.tiles.apart
  refine hap.2.2 r hr q.block (List.mem_map_of_mem hq) x ⟨?_, hx.2⟩
  have hx1 : a ≤ x ∧ x < a + size := hx.1
  exact ⟨by omega, by omega⟩

theorem globalAlloc_answers {S N : ℕ} {s : St} (h : Reachable S N s) {size align n a : ℕ} {l : Layout}
    (hl : Layout.fromSizeAlign size align = some l) (hna : sizeAlign l = .ok (n, a)) : Answers S N s size align := by
  obtain ⟨rfl, rfl⟩ := fromSizeAlign_some hl
  obtain ⟨hq, hsize, halign⟩ := sizeAlign_ok hna
  have heq : kmallocAligned s.free l.size l.align = alloc s.free n a := by
    simp only [kmallocAligned, hl, globalAlloc, hna, ok_bind]
  rcases alloc_first h.freeOk hq with ⟨halloc, -⟩ | ⟨r, x, rest, halloc, hff⟩
  · exact ⟨none, s.free, heq.trans halloc, fun _ => rfl, fun _ h => (by cases h), fun _ => rfl⟩
  · have hr : r ∈ s.free := hff.perm.subset List.mem_cons_self
    refine ⟨some x, _, heq.trans halloc, fun h => (by cases h), fun y hy => ?_, fun hno => ?_⟩
    · cases hy
      have h16 := hq.size16
      obtain ⟨hlo, hhi, hap⟩ := granted_apart h.inv hr hff.placed (by omega)
      have hmod : x % l.align = 0 :=
        Nat.mod_eq_zero_of_dvd (halign.trans (Nat.dvd_of_mod_eq_zero hff.placed.aligned))
      exact ⟨hmod, n, hsize, hlo, hhi, hap⟩
    · rcases hno with hno | hno
      · rw [hl] at hno
        cases hno
      · exact absurd ⟨l, n, a, hl, hna, r, hr, x, hff.placed⟩ hno

/-- **Total interface.** In every reachable heap `kmallocAligned` answers as its callers expect exactly on the pairs
other than the valid layouts of alignment below 8 whose size is above 2^63 - 8. On those the `expect` of `size_align`
fails. -/
theorem kmalloc_total {S N : ℕ} {s : St} (h : Reachable S N s) (size align : ℕ) :
    Answers S N s size align ↔
      ¬ (align.isPowerOfTwo ∧ align < 8 ∧ size + align ≤ 2 ^ 63 ∧ 2 ^ 63 < size + 8) := by
  constructor
  · rintro ⟨p, fl, hk, -⟩ ⟨hpow, h8, hval, hbig⟩
    have hl : Layout.fromSizeAlign size align = some ⟨size, align, hpow, hval⟩ := dif_pos ⟨hpow, hval⟩
    simp only [kmallocAligned, hl, globalAlloc] at hk
    obtain ⟨⟨n, a⟩, hna, -⟩ := bind_ok.1 hk
    have hle : size + max align nodeAlign ≤ 2 ^ 63 := (sizeAlign_isOk _).1 ⟨n, a, hna⟩
    have : 8 ≤ max align nodeAlign := le_max_right _ _
    omega
  · intro hne
    cases hl : Layout.fromSizeAlign size align with
    | none =>
      refine ⟨none, s.free, ?_, fun _ => rfl, fun _ h => (by cases h), fun _ => rfl⟩
      simp only [kmallocAligned, hl]
    | some l =>
      have hpow := l.pow2
      have hfits := l.fits
      obtain ⟨hs, ha⟩ := fromSizeAlign_some hl
      rw [ha] at hpow
      have hle : l.size + max l.align nodeAlign ≤ 2 ^ 63 := by
        by_contra hbig
        rcases lt_or_ge l.align 8 with h8 | h8
        · rw [max_eq_right h8.le] at hbig
          exact hne ⟨hpow, ha ▸ h8, by omega, by omega⟩
        · rw [max_eq_left h8] at hbig
          exact hbig hfits
      obtain ⟨n, a, hna⟩ := (sizeAlign_isOk l).2 hle
      exact globalAlloc_answers h hl hna

theorem kmalloc_total_page : Answers 0x100000 0x100000 bootHeap 64 4096 :=
  (kmalloc_total bootHeap_reachable 64 4096).2 (by omega)

/-- `isize::MAX` bytes with alignment 1 are a valid layout on which the allocator panics instead of returning null -/
theorem kmalloc_panics :
    Reachable 0x100000 0x100000 bootHeap ∧
      kmallocAligned bootHeap.free (2 ^ 63 - 1) 1 = .error (.expect "align_to failed") ∧
      ¬ Answers 0x100000 0x100000 bootHeap (2 ^ 63 - 1) 1 := by
  have hk : kmallocAligned bootHeap.free (2 ^ 63 - 1) 1 = .error (.expect "align_to failed") := by decide +kernel
  refine ⟨bootHeap_reachable, hk, ?_⟩
  rintro ⟨p, fl, h, -⟩
  rw [hk] at h
  cases h

end Tomorrow.Heap
