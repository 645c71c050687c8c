/-
The kernel heap as it lies in memory: the free list of `heap.rs` is threaded through the free blocks themselves.

`Memory.Heap` models the free list as a list. In the program it is a chain of `FreeNode`s (size and next) that are written
into the first 16 bytes of the free blocks, next to the data of whoever owns the live ones. `find_region` walks the chain
with a cursor to a `next` pointer, in the static head or in a node, and cuts a block out by overwriting that pointer;
`add_free_region` writes a node and makes it the head. Nothing but the blocks being apart keeps a client's bytes out of
the chain and the nodes out of a client's block.

Clients are traces of `alloc`, `dealloc` and single-byte stores into the bytes of a live pointer. The walk is a loop with
a bound on its passes: `Except (Option Panic)`, where `none` says that the bound was too small.

Results:
- `heap_memory_refines`: the allocator in memory returns the pointers of the list model, for every legal trace, and the chain
  is its free list at every moment; no walk takes more passes than the region has room for nodes;
- `live_bytes_kept`: a live block holds exactly what its owner stored last, whatever others allocate, free and store.
-/
import Tomorrow.Core.Intrusive
import Tomorrow.Core.Loops
import Tomorrow.Memory.FirstFit

namespace Tomorrow.Heap

open Tomorrow.Core

/-! ## The chain of nodes -/

/-- `FreeList` with the memory it points into: `head.next`, null as 0, and the bytes -/
structure Threaded where
  head : ℕ
  mem : ℕ → UInt8

namespace Threaded

/-- the `next` pointer of the node at an address, or of the dummy head -/
def next (h : Threaded) : Option ℕ → ℕ
  | none => h.head
  | some a => loadWord h.mem (a + 8)

def setNext (h : Threaded) : Option ℕ → ℕ → Threaded
  | none, v => { h with head := v }
  | some a, v => { h with mem := storeWord h.mem (a + 8) v }

/-- the node at an address, as the block it heads -/
def node (h : Threaded) (a : ℕ) : FreeNode := ⟨a, loadWord h.mem a⟩

def addFreeRegion (h : Threaded) (addr size : ℕ) : Except Panic Threaded := do
  let a ← alignUp addr nodeAlign
  ckAssert (a = addr)
  ckAssert (nodeSize ≤ size)
  .ok ⟨addr, storeWord (storeWord h.mem addr size) (addr + 8) h.head⟩

/-- `FreeList::init` -/
def init (h : Threaded) (addr size : ℕ) : Except Panic Threaded := h.addFreeRegion addr size

/-- the three writes that cut the node at a out of the chain, behind the cursor -/
def unlink (h : Threaded) (current : Option ℕ) (a : ℕ) : Threaded :=
  let next := h.next (some a)
  ((h.setNext (some a) 0).setNext current 0).setNext current next

/-- one pass of `find_region` at a cursor -/
def findBody (h : Threaded) (size align : ℕ) (current : Option ℕ) :
    Option ℕ ⊕ Except Panic (Option (ℕ × ℕ × Threaded)) :=
  let region := h.next current
  if region = 0 then .inr (.ok none)
  else
    match allocFromRegion (h.node region) size align with
    | .error e => .inr (.error e)
    | .ok (some allocStart) => .inr (.ok (some (region, allocStart, h.unlink current region)))
    | .ok none => .inl (some region)

def findRegion (fuel : ℕ) (h : Threaded) (size align : ℕ) : Option (Except Panic (Option (ℕ × ℕ × Threaded))) :=
  loop (h.findBody size align) fuel none

def addGap (h : Threaded) (addr size : ℕ) : Except Panic Threaded :=
  if 0 < size then h.addFreeRegion addr size else .ok h

/-- `alloc` after the search -/
def split (h : Threaded) (size : ℕ) : Option (ℕ × ℕ × Threaded) → Except Panic (Option ℕ × Threaded)
  | none => .ok (none, h)
  | some (region, allocStart, h) => do
    let regionEnd ← endAddr (h.node region)
    let allocEnd ← ckAdd allocStart size
    let front ← ckSub allocStart region
    let h ← h.addGap region front
    let excess ← ckSub regionEnd allocEnd
    let h ← h.addGap allocEnd excess
    .ok (some allocStart, h)

def alloc (fuel : ℕ) (h : Threaded) (size align : ℕ) : Option (Except Panic (Option ℕ × Threaded)) :=
  (h.findRegion fuel size align).map fun found => found >>= h.split size

def dealloc (h : Threaded) (ptr size : ℕ) : Except Panic Threaded := h.addFreeRegion ptr size

end Threaded

/-! ## The cursor -/

/-- the cursor behind a prefix of the list -/
def cursor (pre : FreeList) : Option ℕ := pre.getLast?.map Block.start

/-- the chain of h is the list fl -/
def Threaded.Holds (h : Threaded) (fl : FreeList) : Prop := Seg h.mem h.head fl 0

/-- the blocks of a free list: apart, aligned, below 8 GB, and each has room for its node -/
structure Chained (fl : FreeList) : Prop where
  apart : fl.Pairwise Block.Apart
  ok : ∀ b ∈ fl, FreeOk b

theorem Chained.room {fl : FreeList} (h : Chained fl) : ∀ b ∈ fl, 16 ≤ b.size := fun b hb => (h.ok b hb).2.2.1

theorem Chained.sublist {fl fl' : FreeList} (h : Chained fl) (hs : fl'.Sublist fl) : Chained fl' :=
  ⟨h.apart.sublist hs, fun b hb => h.ok b (hs.subset hb)⟩

theorem headers_apart {b c : FreeNode} (hb : 16 ≤ b.size) (hc : 16 ≤ c.size) (h : b.Apart c) (x : ℕ) (hx : b.Header x) :
    ¬ c.Header x := by
  intro hx'
  unfold Block.Header at hx hx'
  exact h x ⟨⟨hx.1, by omega⟩, ⟨hx'.1, by omega⟩⟩

theorem next_cursor {h : Threaded} {pre : FreeList} {q : ℕ} (hseg : Seg h.mem h.head pre q) : h.next (cursor pre) = q := by
  rcases List.eq_nil_or_concat pre with rfl | ⟨pre, c, rfl⟩
  · exact hseg
  · rw [List.concat_eq_append] at hseg ⊢
    rw [cursor, List.getLast?_concat]
    exact (seg_snoc.1 hseg).2.2.2

theorem setNext_next {h : Threaded} (slot : Option ℕ) (v w : ℕ) : (h.setNext slot v).setNext slot w = h.setNext slot w := by
  cases slot with
  | none => rfl
  | some a =>
    simp only [Threaded.setNext, Threaded.mk.injEq, true_and]
    funext x
    unfold storeWord
    split_ifs <;> rfl

theorem setNext_mem {h : Threaded} {pre : FreeList} {v x : ℕ} (hx : ∀ b ∈ pre, ¬ b.Header x) :
    (h.setNext (cursor pre) v).mem x = h.mem x := by
  rcases List.eq_nil_or_concat pre with rfl | ⟨pre, c, rfl⟩
  · rfl
  · rw [List.concat_eq_append] at hx ⊢
    rw [cursor, List.getLast?_concat]
    have := hx c (by simp)
    unfold Block.Header at this
    exact storeWord_of_outside (by omega)

/-- the pointer behind a prefix, made to point to another chain, joins the two -/
theorem setNext_holds {h : Threaded} {pre post : FreeList} {q n : ℕ} (hpre : Seg h.mem h.head pre q)
    (hpost : Seg h.mem n post 0) (hn : n < 2 ^ 64) (hch : Chained (pre ++ post)) :
    (h.setNext (cursor pre) n).Holds (pre ++ post) := by
  rcases List.eq_nil_or_concat pre with rfl | ⟨pre, c, rfl⟩
  · exact hpost
  · rw [List.concat_eq_append] at *
    obtain ⟨hap, -, hcross⟩ := List.pairwise_append.1 hch.apart
    have hc16 : 16 ≤ c.size := hch.room c (by simp)
    have hin : ∀ b ∈ pre, ∀ x, b.Header x → ¬ c.Header x := by
      intro b hb x
      exact headers_apart (hch.room b (by simp [hb])) hc16 ((List.pairwise_append.1 hap).2.2 b hb c (by simp)) x
    have hcurs : cursor (pre ++ [c]) = some c.start := by simp [cursor]
    rw [hcurs]
    refine seg_append.2 ⟨n, hpre.redirect hn hin, hpost.frame fun b hb x hx => ?_⟩
    have hcx : ¬ c.Header x := fun hcx =>
      headers_apart hc16 (hch.room b (by simp [hb])) (hcross c (by simp) b hb) x hcx hx
    unfold Block.Header at hcx
    exact storeWord_of_outside (by omega)

/-- the node of a block shares no byte with the nodes of the others -/
theorem Chained.others (pre : FreeList) {post : FreeList} {r : FreeNode} (h : Chained (pre ++ r :: post)) :
    ∀ b ∈ pre ++ post, ∀ x, b.Header x → ¬ r.Header x := by
  have hr16 : 16 ≤ r.size := h.room r (by simp)
  obtain ⟨-, hap, hcross⟩ := List.pairwise_append.1 h.apart
  intro b hb x hx
  rcases List.mem_append.1 hb with hb | hb
  · exact headers_apart (h.room b (List.mem_append_left _ hb)) hr16 (hcross b hb r List.mem_cons_self) x hx
  · intro hrx
    exact headers_apart hr16 (h.room b (by simp [hb])) ((List.pairwise_cons.1 hap).1 b hb) x hrx hx

theorem clearNext_mem {h : Threaded} {r : FreeNode} {v x : ℕ} (hx : ¬ r.Header x) :
    (h.setNext (some r.start) v).mem x = h.mem x := by
  unfold Block.Header at hx
  exact storeWord_of_outside (by omega)

/-- **Cutting out** a block leaves the chain without it, the block's size in place, and every byte outside the nodes -/
theorem unlink_spec {h : Threaded} {pre post : FreeList} {r : FreeNode} (hseg : h.Holds (pre ++ r :: post))
    (hch : Chained (pre ++ r :: post)) :
    (h.unlink (cursor pre) r.start).Holds (pre ++ post) ∧ (h.unlink (cursor pre) r.start).node r.start = r ∧
      ∀ x, (∀ b ∈ pre ++ r :: post, ¬ b.Header x) → (h.unlink (cursor pre) r.start).mem x = h.mem x := by
  obtain ⟨q, hpre, rfl, h0, hsize, hpost⟩ := seg_append.1 hseg
  have hothers := Chained.others pre hch
  have hcut : h.unlink (cursor pre) r.start =
      (h.setNext (some r.start) 0).setNext (cursor pre) (h.next (some r.start)) := setNext_next _ _ _
  have hlt : h.next (some r.start) < 2 ^ 64 := loadWord_lt _ _
  -- the node that is cut out: its pointer is cleared, which no other node sees
  have hclear : ∀ x, ¬ r.Header x → (h.setNext (some r.start) 0).mem x = h.mem x := fun x => clearNext_mem
  have hpre' : Seg (h.setNext (some r.start) 0).mem (h.setNext (some r.start) 0).head pre r.start :=
    hpre.frame fun b hb x hx => hclear x (hothers b (List.mem_append_left _ hb) x hx)
  have hpost' : Seg (h.setNext (some r.start) 0).mem (h.next (some r.start)) post 0 :=
    hpost.frame fun b hb x hx => hclear x (hothers b (List.mem_append_right _ hb) x hx)
  have hnode : loadWord (h.setNext (some r.start) 0).mem r.start = r.size :=
    (loadWord_storeWord_apart _ (by omega)).trans hsize
  rw [hcut]
  generalize h.setNext (some r.start) 0 = h1 at *
  generalize h.next (some r.start) = n at *
  have hsub : (pre ++ post).Sublist (pre ++ r :: post) := List.Sublist.append_left (List.sublist_cons_self r post) pre
  refine ⟨setNext_holds hpre' hpost' hlt (hch.sublist hsub), ?_, fun x hx => ?_⟩
  · have hkeep : loadWord (h1.setNext (cursor pre) n).mem r.start = loadWord h1.mem r.start := by
      refine loadWord_congr fun x hx hx' => setNext_mem fun b hb hbx => ?_
      exact hothers b (List.mem_append_left _ hb) x hbx ⟨hx, by omega⟩
    rw [Threaded.node, hkeep, hnode]
  · rw [setNext_mem fun b hb => hx b (by simp [hb])]
    exact hclear x (hx r (by simp))

/-! ## The search and the split -/

/-- bytes outside the nodes of the list are the same in both -/
def SameOutside (fl : FreeList) (h h' : Threaded) : Prop := ∀ x, (∀ b ∈ fl, ¬ b.Header x) → h'.mem x = h.mem x

/-- what the search in memory finds, when the search in the list found `res` behind the prefix `pre` -/
def Found (h : Threaded) (fl pre : FreeList) : Option (FreeNode × ℕ × FreeList) → Option (ℕ × ℕ × Threaded) → Prop
  | none, found => found = none
  | some (r, a, rest), found =>
    ∃ h', found = some (r.start, a, h') ∧ h'.Holds (pre ++ rest) ∧ h'.node r.start = r ∧ SameOutside fl h h'

/-- the walk behind a prefix that has been passed over follows the search in the rest of the list -/
theorem find_walk {h : Threaded} {size align : ℕ} (pre : FreeList) {post : FreeList}
    {res : Option (FreeNode × ℕ × FreeList)} {fuel : ℕ}
    (hseg : h.Holds (pre ++ post)) (hch : Chained (pre ++ post)) (hres : findRegion size align post = .ok res)
    (hfuel : post.length < fuel) :
    ∃ found, loop (h.findBody size align) fuel (cursor pre) = some (.ok found) ∧ Found h (pre ++ post) pre res found := by
  induction post generalizing pre res fuel with
  | nil =>
    cases hres
    obtain ⟨fuel, rfl⟩ : ∃ n, fuel = n + 1 := ⟨fuel - 1, by omega⟩
    have hnext : h.next (cursor pre) = 0 := next_cursor (by rw [List.append_nil] at hseg; exact hseg)
    exact ⟨none, loop_leave (by rw [Threaded.findBody, hnext, if_pos rfl]), rfl⟩
  | cons r post ih =>
    obtain ⟨q, hpre, hq, h0, hsize, hpost⟩ := seg_append.1 hseg
    have hnext : h.next (cursor pre) = r.start := (next_cursor hpre).trans hq
    have hnode : h.node r.start = r := by rw [Threaded.node, ← hq, hsize, hq]
    obtain ⟨fuel, rfl⟩ : ∃ n, fuel = n + 1 := ⟨fuel - 1, by omega⟩
    have hbody : h.findBody size align (cursor pre) = match allocFromRegion r size align with
        | .error e => .inr (.error e)
        | .ok (some allocStart) => .inr (.ok (some (r.start, allocStart, h.unlink (cursor pre) r.start)))
        | .ok none => .inl (some r.start) := by
      simp only [Threaded.findBody, hnext, hnode, if_neg (hq ▸ h0)]
    rw [Heap.findRegion, bind_ok] at hres
    obtain ⟨tried, htried, hres⟩ := hres
    rw [htried] at hbody
    cases tried with
    | some a =>
      cases hres
      obtain ⟨h1, h2, h3⟩ := unlink_spec hseg hch
      exact ⟨_, loop_leave hbody, _, rfl, h1, h2, h3⟩
    | none =>
      obtain ⟨res', hres', heq⟩ := bind_ok.1 hres
      have hsplit : pre ++ r :: post = (pre ++ [r]) ++ post := by simp
      rw [hsplit] at hseg hch ⊢
      rw [List.length_cons] at hfuel
      obtain ⟨found, hloop, hfound⟩ := ih (pre ++ [r]) hseg hch hres' (by omega : post.length < fuel)
      have hcurs : cursor (pre ++ [r]) = some r.start := by simp [cursor]
      rw [loop_next hbody, ← hcurs]
      refine ⟨found, hloop, ?_⟩
      rcases res' with _ | ⟨r', a, rest⟩
      · cases heq
        exact hfound
      · cases heq
        obtain ⟨h', rfl, hholds, hnode', hout⟩ := hfound
        exact ⟨h', rfl, by simpa using hholds, hnode', hout⟩

theorem Threaded.Holds.head_lt {h : Threaded} {fl : FreeList} (hseg : h.Holds fl) (hok : ∀ b ∈ fl, FreeOk b) :
    h.head < 2 ^ 64 := by
  cases fl with
  | nil => exact lt_of_eq_of_lt hseg (by norm_num)
  | cons b fl =>
    obtain ⟨-, -, -, hmax⟩ := hok b List.mem_cons_self
    have : h.head = b.start := hseg.1
    omega

/-- giving a block to the list writes its node and nothing else -/
theorem addFreeRegion_spec {h : Threaded} {fl : FreeList} {b : FreeNode} (hseg : h.Holds fl) (hch : Chained (b :: fl))
    (h0 : b.start ≠ 0) :
    ∃ h', h.addFreeRegion b.start b.size = .ok h' ∧ h'.Holds (b :: fl) ∧ SameOutside [b] h h' := by
  obtain ⟨h8, -, h16, hmax⟩ := hch.ok b List.mem_cons_self
  have hround : roundUp b.start nodeAlign = b.start := by simp only [roundUp, nodeAlign]; omega
  have h64 : b.start + nodeAlign < 2 ^ 64 := by simp only [nodeAlign]; omega
  have hhead := hseg.head_lt fun c hc => hch.ok c (List.mem_cons_of_mem b hc)
  refine ⟨⟨b.start, storeWord (storeWord h.mem b.start b.size) (b.start + 8) h.head⟩, ?_, ?_, fun x hx => ?_⟩
  · rw [Threaded.addFreeRegion, alignUp_eq ⟨3, rfl⟩ h64, ok_bind, hround, ckAssert_eq rfl,
      ok_bind, ckAssert_eq h16, ok_bind]
  · exact Seg.push hseg h0 (by omega) hhead fun c hc => Chained.others [] hch c hc
  · have := hx b List.mem_cons_self
    unfold Block.Header at this
    show storeWord (storeWord h.mem b.start b.size) (b.start + 8) h.head x = h.mem x
    rw [storeWord_of_outside (by omega), storeWord_of_outside (by omega)]

/-- giving back a gap, which may be empty -/
theorem addGap_spec {h : Threaded} {fl : FreeList} {addr size : ℕ} (hseg : h.Holds fl)
    (hch : Chained (gap addr size ++ fl)) (h0 : addr ≠ 0) :
    ∃ h', h.addGap addr size = .ok h' ∧ h'.Holds (gap addr size ++ fl) ∧ SameOutside (gap addr size) h h' := by
  unfold Threaded.addGap
  unfold gap at hch ⊢
  split_ifs at hch ⊢ with hpos
  · exact addFreeRegion_spec (b := ⟨addr, size⟩) hseg hch h0
  · exact ⟨h, rfl, hseg, fun _ _ => rfl⟩

theorem chained_afterAlloc {fl rest : FreeList} {size align a : ℕ} {r : FreeNode} (hch : Chained fl)
    (hq : Request size align) (hff : FirstFit fl size align r a rest) : Chained (afterAlloc r a size rest) := by
  refine ⟨(pairwise_apart_iff _).2 fun x => ?_, afterAlloc_ok hch.ok hq hff⟩
  have := (pairwise_apart_iff fl).1 hch.apart x
  have := cover_afterAlloc hff x
  omega

/-- a gap of the block that was taken starts inside it -/
theorem gap_inside {r : FreeNode} {addr size : ℕ} (hlo : r.start ≤ addr) (hhi : addr + size ≤ r.start + r.size)
    (h16 : size = 0 ∨ 16 ≤ size) : ∀ b ∈ gap addr size, ∀ x, b.Header x → r.Has x := by
  intro b hb x hx
  unfold gap at hb
  split_ifs at hb with hpos
  · rw [List.mem_singleton] at hb
    subst hb
    have := h16.resolve_left hpos.ne'
    simp only [Block.Header] at hx
    exact ⟨by omega, by omega⟩
  · cases hb

/-- **One request in memory**: the result and the list of the list model, and writes inside free blocks only -/
theorem alloc_threaded {h : Threaded} {fl : FreeList} {size align fuel : ℕ} (hseg : h.Holds fl) (hch : Chained fl)
    (hq : Request size align) (h0 : ∀ b ∈ fl, b.start ≠ 0) (hfuel : fl.length < fuel) :
    ∃ p fl' h', Heap.alloc fl size align = .ok (p, fl') ∧ h.alloc fuel size align = some (.ok (p, h')) ∧ h'.Holds fl' ∧
      ∀ x, (∀ b ∈ fl, ¬ b.Has x) → h'.mem x = h.mem x := by
  obtain ⟨res, hres, -, hsome⟩ := findRegion_spec hch.ok hq
  obtain ⟨found, hloop, hfound⟩ := find_walk [] hseg hch hres hfuel
  have hfind : h.findRegion fuel size align = some (.ok found) := hloop
  rw [Threaded.alloc, hfind, Option.map_some, ok_bind]
  rcases res with _ | ⟨r, a, rest⟩
  · cases hfound
    exact ⟨none, fl, h, alloc_none hres, rfl, hseg, fun _ _ => rfl⟩
  · obtain ⟨h1, rfl, hholds, hnode, hout⟩ := hfound
    have hff := hsome r a rest rfl
    have hr : r ∈ fl := hff.perm.subset List.mem_cons_self
    obtain ⟨h8, hs8, h16, hmax⟩ := hch.ok r hr
    obtain ⟨hal, hlo, hup, hfront, htail⟩ := hff.placed
    have hr0 := h0 r hr
    have hchain := chained_afterAlloc hch hq hff
    have hchain1 : Chained (gap r.start (a - r.start) ++ rest) := hchain.sublist (List.sublist_append_right _ _)
    obtain ⟨h2, hadd2, hholds2, hout2⟩ := addGap_spec hholds hchain1 hr0
    obtain ⟨h3, hadd3, hholds3, hout3⟩ := addGap_spec hholds2 hchain (by omega)
    refine ⟨some a, _, h3, alloc_some hres (hch.ok r hr) hq hff.placed, ?_, hholds3, fun x hx => ?_⟩
    · simp only [Threaded.split, hnode, endAddr, ckAdd_eq (show r.start + r.size < 2 ^ 64 by omega), ok_bind,
        ckAdd_eq (show a + size < 2 ^ 64 by omega), ckSub_eq hlo, ckSub_eq hup, hadd2, hadd3]
    · have hrx : ¬ r.Has x := hx r hr
      rw [hout3 x fun b hb hbx => hrx (gap_inside (by omega) (by omega) (by omega) b hb x hbx),
        hout2 x fun b hb hbx => hrx (gap_inside (by omega) (by omega) (by omega) b hb x hbx)]
      refine hout x fun b hb hbx => hx b hb ?_
      have := hch.room b hb
      exact ⟨hbx.1, by unfold Block.Header at hbx; omega⟩

/-! ## Clients -/

/-- the memory and the client's record of its live pointers -/
structure MemSt where
  heap : Threaded
  live : List Live

inductive MemOp where
  | alloc (l : Layout)
  | dealloc (ptr : ℕ) (l : Layout)
  /-- the client writes one byte -/
  | store (a : ℕ) (v : UInt8)

/-- the request to the allocator, if it is one -/
def MemOp.request : MemOp → Option Op
  | .alloc l => some (.alloc l)
  | .dealloc ptr l => some (.dealloc ptr l)
  | .store _ _ => none

def MemSt.put (t : MemSt) (a : ℕ) (v : UInt8) : MemSt := { t with heap.mem := Function.update t.heap.mem a v }

/-- what a computation with a bound on its passes ends in; `none` says that the bound was too small -/
def bounded {α : Type} : Option (Except Panic α) → Except (Option Panic) α
  | none => .error none
  | some (.error e) => .error (some e)
  | some (.ok a) => .ok a

def stepMem (fuel : ℕ) (t : MemSt) : MemOp → Except (Option Panic) MemSt
  | .alloc l => do
    let (size, align) ← bounded (some (sizeAlign l))
    let (p, h) ← bounded (t.heap.alloc fuel size align)
    match p with
    | none => .ok { t with heap := h }
    | some a => .ok ⟨h, ⟨a, l⟩ :: t.live⟩
  | .dealloc ptr l => do
    let (size, _) ← bounded (some (sizeAlign l))
    let h ← bounded (some (t.heap.dealloc ptr size))
    .ok ⟨h, t.live.erase ⟨ptr, l⟩⟩
  | .store a v => .ok (t.put a v)

/-- the requests of `Heap.legal`; a store goes into the bytes of a live pointer -/
def legalMem (t : MemSt) : MemOp → Prop
  | .alloc l => roundUp l.size (max l.align nodeAlign) ≤ 2 ^ 63 - 1
  | .dealloc ptr l => ⟨ptr, l⟩ ∈ t.live
  | .store a _ => ∃ p ∈ t.live, p.ptr ≤ a ∧ a < p.ptr + p.layout.size

instance (t : MemSt) : (o : MemOp) → Decidable (legalMem t o)
  | .alloc l => inferInstanceAs (Decidable (roundUp l.size (max l.align nodeAlign) ≤ 2 ^ 63 - 1))
  | .dealloc ptr l => inferInstanceAs (Decidable ((⟨ptr, l⟩ : Live) ∈ t.live))
  | .store a _ => inferInstanceAs (Decidable (∃ p ∈ t.live, p.ptr ≤ a ∧ a < p.ptr + p.layout.size))

def LegalMem (fuel : ℕ) (t : MemSt) : List MemOp → Prop
  | [] => True
  | o :: ops => legalMem t o ∧ ∀ u, stepMem fuel t o = .ok u → LegalMem fuel u ops

/-- the memory state t implements the list state s -/
structure Implements (t : MemSt) (s : St) : Prop where
  live : t.live = s.live
  chain : t.heap.Holds s.free

/-- the bytes one operation may write -/
def Touches (s : St) : MemOp → ℕ → Prop
  | .alloc _, x => ∃ b ∈ s.free, b.Has x
  | .dealloc ptr l, x => (Live.block ⟨ptr, l⟩).Has x
  | .store a _, x => x = a

theorem chained_of_inv {lo hi : ℕ} {s : St} (h : Inv lo hi s) (hmax : hi ≤ 2 ^ 33) : Chained s.free :=
  ⟨(List.pairwise_append.1 h.tiles.apart).1, freeOk_of_inv h hmax⟩

theorem free_pos {lo hi : ℕ} {s : St} (h : Inv lo hi s) (hlo : 0 < lo) : ∀ b ∈ s.free, b.start ≠ 0 := by
  intro b hb
  obtain ⟨-, -, h16⟩ := h.free b hb
  have := (h.tiles.bounds (List.mem_append_left _ hb) (by omega)).1
  omega

/-- there are not more free blocks than nodes fit into the region -/
theorem free_length {lo hi : ℕ} {s : St} (h : Inv lo hi s) : s.free.length ≤ (hi - lo) / 16 := by
  have hroom : ∀ b ∈ s.free ++ s.live.map Live.block, 16 ≤ b.size := by
    intro b hb
    rcases List.mem_append.1 hb with hb | hb
    · exact (h.free b hb).2.2
    · obtain ⟨p, hp, rfl⟩ := List.mem_map.1 hb
      obtain ⟨n, a, hna⟩ := (h.normal p hp).2
      have := (sizeAlign_ok hna).1.size16
      rwa [Live.block, blockSize, hna]
  have := h.tiles.length_mul_le (by norm_num) hroom
  rw [List.length_append] at this
  omega

/-- **One operation.** It does to the chain what the list model does to the list, and writes only where it may. -/
theorem step_implements {lo hi fuel : ℕ} (hlo : 0 < lo) (hmax : hi ≤ 2 ^ 33) (hfuel : (hi - lo) / 16 < fuel) {s : St}
    {t : MemSt} {o : MemOp} (hinv : Inv lo hi s) (himp : Implements t s) (ho : legalMem t o) :
    ∃ t' s', stepMem fuel t o = .ok t' ∧ run step s o.request.toList = .ok s' ∧ Implements t' s' ∧ Inv lo hi s' ∧
      ∀ x, ¬ Touches s o x → t'.heap.mem x = t.heap.mem x := by
  have hch := chained_of_inv hinv hmax
  have hlen := free_length hinv
  cases o with
  | alloc l =>
    obtain ⟨n, a, hna⟩ := sizeAlign_of_fits l ho
    obtain ⟨hq, -, -⟩ := sizeAlign_ok hna
    obtain ⟨p, fl, h', hlist, hmem, hholds, hout⟩ := alloc_threaded himp.chain hch hq (free_pos hinv hlo)
      (show s.free.length < fuel by omega)
    obtain ⟨s', hs', hinv'⟩ := step_alloc_ok hmax hinv ho
    have hrun : run step s [.alloc l] = .ok s' := by rw [run, hs']; rfl
    simp only [step, globalAlloc, hna, ok_bind, hlist] at hs'
    simp only [stepMem, hna, bounded, hmem, ok_bind]
    cases p with
    | none =>
      cases hs'
      exact ⟨_, _, rfl, hrun, ⟨himp.live, hholds⟩, hinv', fun x hx => hout x fun b hb hbx => hx ⟨b, hb, hbx⟩⟩
    | some ptr =>
      cases hs'
      exact ⟨_, _, rfl, hrun, ⟨congrArg _ himp.live, hholds⟩, hinv', fun x hx => hout x fun b hb hbx => hx ⟨b, hb, hbx⟩⟩
  | dealloc ptr l =>
    have hmem : (⟨ptr, l⟩ : Live) ∈ s.live := himp.live ▸ ho
    obtain ⟨s', hs', hinv'⟩ := step_dealloc_ok hmax hinv hmem
    obtain ⟨h8, n, a, hna⟩ := hinv.normal _ hmem
    have hrun : run step s [.dealloc ptr l] = .ok s' := by rw [run, hs']; rfl
    have hfree : s' = ⟨⟨ptr, n⟩ :: s.free, s.live.erase ⟨ptr, l⟩⟩ := by
      have hbs : blockSize l = n := by rw [blockSize, hna]
      have hb : ptr + n ≤ hi := hbs ▸ (live_bounds hinv hmem).2
      have h16 := (sizeAlign_ok hna).1.size16
      simp only [step, globalDealloc, hna, ok_bind, Heap.dealloc] at hs'
      rw [addFreeRegion_eq h8 h16 (show ptr + 8 < 2 ^ 64 by omega), ok_bind] at hs'
      exact (Except.ok.inj hs').symm
    have hpos := free_pos hinv' hlo ⟨ptr, n⟩ (by simp [hfree])
    have hchain : Chained (⟨ptr, n⟩ :: s.free) := by
      have := chained_of_inv hinv' hmax
      rwa [hfree] at this
    obtain ⟨h', hadd, hholds, hout⟩ := addFreeRegion_spec himp.chain hchain hpos
    refine ⟨⟨h', t.live.erase ⟨ptr, l⟩⟩, s', ?_, hrun, ?_, hinv', fun x hx => hout x fun b hb hbx => hx ?_⟩
    · simp only [stepMem, hna, bounded, ok_bind, Threaded.dealloc, hadd]
    · rw [hfree]
      exact ⟨congrArg (List.erase · _) himp.live, hholds⟩
    · rw [List.mem_singleton] at hb
      subst hb
      have := (sizeAlign_ok hna).1.size16
      simp only [Touches, Live.block, blockSize, hna, Block.Has]
      simp only [Block.Header] at hbx
      omega
  | store a v =>
    obtain ⟨p, hp, hpa, hap⟩ := ho
    rw [himp.live] at hp
    refine ⟨_, s, rfl, rfl, ⟨himp.live, ?_⟩, hinv, fun x hx => Function.update_of_ne hx _ _⟩
    refine Seg.frame himp.chain fun b hb x hx => Function.update_of_ne ?_ _ _
    -- the byte belongs to a live block, the node to a free one
    rintro rfl
    have hap' := (List.pairwise_append.1 hinv.tiles.apart).2.2 b hb p.block (List.mem_map_of_mem hp)
    have hsize := (hinv.live p hp).2
    have hroom := hch.room b hb
    unfold Block.Header at hx
    exact hap' x ⟨⟨hx.1, by omega⟩, ⟨hpa, show x < p.ptr + blockSize p.layout by omega⟩⟩

/-! ## Runs -/

theorem legalMem_append {fuel : ℕ} {t : MemSt} {a b : List MemOp} :
    LegalMem fuel t (a ++ b) ↔ LegalMem fuel t a ∧ ∀ u, run (stepMem fuel) t a = .ok u → LegalMem fuel u b := by
  induction a generalizing t with
  | nil => exact ⟨fun h => ⟨trivial, fun u hu => by cases hu; exact h⟩, fun h => h.2 t rfl⟩
  | cons o a ih =>
    simp only [List.cons_append, LegalMem, ih, run, bind_ok]
    constructor
    · rintro ⟨ho, h⟩
      refine ⟨⟨ho, fun u hu => (h u hu).1⟩, ?_⟩
      rintro u ⟨v, hv, hu⟩
      exact (h v hv).2 u hu
    · rintro ⟨⟨ho, h⟩, h'⟩
      exact ⟨ho, fun u hu => ⟨h u hu, fun w hw => h' w ⟨u, hu, hw⟩⟩⟩

section Run

variable {lo hi fuel : ℕ}

theorem run_implements (hlo : 0 < lo) (hmax : hi ≤ 2 ^ 33) (hfuel : (hi - lo) / 16 < fuel) {s : St} {t : MemSt}
    {ops : List MemOp} (hinv : Inv lo hi s) (himp : Implements t s) (hl : LegalMem fuel t ops) :
    ∃ t' s', run (stepMem fuel) t ops = .ok t' ∧ run step s (ops.filterMap MemOp.request) = .ok s' ∧ Implements t' s' ∧
      Inv lo hi s' := by
  induction ops generalizing s t with
  | nil => exact ⟨t, s, rfl, rfl, himp, hinv⟩
  | cons o ops ih =>
    obtain ⟨u, v, hu, hv, himp', hinv', -⟩ := step_implements hlo hmax hfuel hinv himp hl.1
    obtain ⟨t', s', ht', hs', h1, h2⟩ := ih hinv' himp' (hl.2 u hu)
    have hreq : (o :: ops).filterMap MemOp.request = o.request.toList ++ ops.filterMap MemOp.request := by
      cases h : o.request <;> simp [h]
    exact ⟨t', s', by rw [run, hu, ok_bind, ht'], by rw [hreq, run_append, hv, ok_bind, hs'], h1, h2⟩

/-- what a byte holds after a trace in which only its owner writes it -/
def lastStore (x : ℕ) (v : UInt8) : MemOp → UInt8
  | .store a w => if a = x then w else v
  | _ => v

/-- a byte of a live block that is not freed by the step is changed by the owner's stores only -/
theorem step_byte (hlo : 0 < lo) (hmax : hi ≤ 2 ^ 33) (hfuel : (hi - lo) / 16 < fuel) {s : St} {t t' : MemSt} {o : MemOp}
    (hinv : Inv lo hi s) (himp : Implements t s) (ho : legalMem t o) {p : Live} (hp : p ∈ t.live)
    (hkeep : o ≠ .dealloc p.ptr p.layout) (ht' : stepMem fuel t o = .ok t') {x : ℕ} (hx : p.block.Has x) :
    p ∈ t'.live ∧ t'.heap.mem x = lastStore x (t.heap.mem x) o := by
  obtain ⟨u, s', hu, -, -, -, hout⟩ := step_implements hlo hmax hfuel hinv himp ho
  rw [ht'] at hu
  cases hu
  have hp' : p ∈ s.live := himp.live ▸ hp
  have hap := hinv.tiles.apart
  obtain ⟨-, hlive, hcross⟩ := List.pairwise_append.1 hap
  cases o with
  | alloc l =>
    constructor
    · simp only [stepMem, bind_ok] at ht'
      obtain ⟨⟨n, a⟩, -, ⟨q, h⟩, -, ht'⟩ := ht'
      cases q with
      | none => cases ht'; exact hp
      | some q => cases ht'; exact List.mem_cons_of_mem _ hp
    · exact hout x fun ⟨b, hb, hbx⟩ => hcross b hb p.block (List.mem_map_of_mem hp') x ⟨hbx, hx⟩
  | dealloc ptr l =>
    have hne : p ≠ ⟨ptr, l⟩ := by
      rintro rfl
      exact hkeep rfl
    constructor
    · simp only [stepMem, bind_ok] at ht'
      obtain ⟨⟨n, a⟩, -, h, -, ht'⟩ := ht'
      cases ht'
      exact (List.mem_erase_of_ne hne).2 hp
    · refine hout x fun hqx => ?_
      -- two live blocks that share an address are one
      have hq : (⟨ptr, l⟩ : Live) ∈ s.live := himp.live ▸ ho
      have : Std.Symm fun a b : Live => a.block.Apart b.block := ⟨fun a b h y hy => h y hy.symm⟩
      exact (List.pairwise_map.1 hlive).forall hp' hq hne x ⟨hx, hqx⟩
  | store a v =>
    refine ⟨by cases ht'; exact hp, ?_⟩
    cases ht'
    simp only [lastStore, MemSt.put]
    split_ifs with hax
    · rw [hax, Function.update_self]
    · exact Function.update_of_ne (Ne.symm hax) _ _

theorem run_byte (hlo : 0 < lo) (hmax : hi ≤ 2 ^ 33) (hfuel : (hi - lo) / 16 < fuel) {s : St} {t t' : MemSt}
    {ops : List MemOp} (hinv : Inv lo hi s) (himp : Implements t s) (hl : LegalMem fuel t ops) {p : Live} (hp : p ∈ t.live)
    (hkeep : .dealloc p.ptr p.layout ∉ ops) (ht' : run (stepMem fuel) t ops = .ok t') {x : ℕ} (hx : p.block.Has x) :
    p ∈ t'.live ∧ t'.heap.mem x = ops.foldl (lastStore x) (t.heap.mem x) := by
  induction ops generalizing s t with
  | nil => cases ht'; exact ⟨hp, rfl⟩
  | cons o ops ih =>
    rw [List.mem_cons, not_or] at hkeep
    obtain ⟨u, s', hu, -, himp', hinv', -⟩ := step_implements hlo hmax hfuel hinv himp hl.1
    obtain ⟨hp', hbyte⟩ := step_byte hlo hmax hfuel hinv himp hl.1 hp (Ne.symm hkeep.1) hu hx
    rw [run, hu, ok_bind] at ht'
    rw [List.foldl_cons, ← hbyte]
    exact ih hinv' himp' (hl.2 u hu) hp' hkeep.2 ht'

/-- no byte outside the region is written -/
theorem run_outside (hlo : 0 < lo) (hmax : hi ≤ 2 ^ 33) (hfuel : (hi - lo) / 16 < fuel) {s : St} {t t' : MemSt}
    {ops : List MemOp} (hinv : Inv lo hi s) (himp : Implements t s) (hl : LegalMem fuel t ops)
    (ht' : run (stepMem fuel) t ops = .ok t') {x : ℕ} (hx : x < lo ∨ hi ≤ x) : t'.heap.mem x = t.heap.mem x := by
  induction ops generalizing s t with
  | nil => cases ht'; rfl
  | cons o ops ih =>
    obtain ⟨u, s', hu, -, himp', hinv', hout⟩ := step_implements hlo hmax hfuel hinv himp hl.1
    rw [run, hu, ok_bind] at ht'
    rw [ih hinv' himp' (hl.2 u hu) ht']
    have hno : ∀ b ∈ s.free ++ s.live.map Live.block, ¬ b.Has x := by
      intro b hb hbx
      have := (hinv.tiles.exact x).2 ⟨b, hb, hbx⟩
      omega
    refine hout x fun htouch => ?_
    cases o with
    | alloc l =>
      obtain ⟨b, hb, hbx⟩ := htouch
      exact hno b (List.mem_append_left _ hb) hbx
    | dealloc ptr l =>
      have hq : (⟨ptr, l⟩ : Live) ∈ s.live := himp.live ▸ hl.1
      exact hno _ (List.mem_append_right _ (List.mem_map_of_mem hq)) htouch
    | store a v =>
      obtain ⟨p, hp, hpa, hap⟩ := hl.1
      rw [himp.live] at hp
      have hsize := (hinv.live p hp).2
      cases htouch
      exact hno p.block (List.mem_append_right _ (List.mem_map_of_mem hp))
        ⟨hpa, show x < p.ptr + blockSize p.layout by omega⟩

end Run

/-! ## The heap from its start -/

theorem init_implements {S N : ℕ} (hS : 0 < S ∧ S % 4096 = 0) (hN : 0 < N ∧ N % 4096 = 0) (hmax : S + N ≤ 2 ^ 33)
    (mem : ℕ → UInt8) :
    ∃ h fl, Threaded.init ⟨0, mem⟩ S N = .ok h ∧ initList S N = .ok fl ∧ Inv S (S + N) ⟨fl, []⟩ ∧
      Implements ⟨h, []⟩ ⟨fl, []⟩ ∧ ∀ x, x < S ∨ S + N ≤ x → h.mem x = mem x := by
  obtain ⟨fl, hfl, hinv⟩ := init_ok hS.2 hN.2 hN.1 hmax
  have hlist : fl = [⟨S, N⟩] := by
    rw [initList, Heap.addFreeRegion_eq (by omega) (by omega) (by omega)] at hfl
    exact (Except.ok.inj hfl).symm
  have hch : Chained [⟨S, N⟩] := hlist ▸ chained_of_inv hinv hmax
  obtain ⟨h, hadd, hholds, hout⟩ := addFreeRegion_spec (show Threaded.Holds ⟨0, mem⟩ [] from rfl) hch (show S ≠ 0 by omega)
  refine ⟨h, fl, hadd, hfl, hinv, ⟨rfl, hlist ▸ hholds⟩, fun x hx => hout x fun b hb hbx => ?_⟩
  rw [List.mem_singleton] at hb
  subst hb
  simp only [Block.Header] at hbx
  omega

/-- **The heap in memory is the heap.** On any memory, over a nonempty page-aligned region [S, S + N) above address 0 and
below 8 GB: any legal trace of `alloc`, `dealloc` and stores into live blocks runs to its end, with walks of at most
N / 16 + 1 passes; the live pointers are those of the list model on the requests of the trace; the chain of nodes is its
free list, in order; no byte outside the region has changed. -/
theorem heap_memory_refines (S N fuel : ℕ) (mem : ℕ → UInt8) (hS : 0 < S ∧ S % 4096 = 0) (hN : 0 < N ∧ N % 4096 = 0)
    (hmax : S + N ≤ 8 * 2 ^ 30) (hfuel : N / 16 < fuel) :
    ∃ h fl, Threaded.init ⟨0, mem⟩ S N = .ok h ∧ initList S N = .ok fl ∧ ∀ ops, LegalMem fuel ⟨h, []⟩ ops →
      ∃ t s, run (stepMem fuel) ⟨h, []⟩ ops = .ok t ∧ run step ⟨fl, []⟩ (ops.filterMap MemOp.request) = .ok s ∧
        t.live = s.live ∧ t.heap.Holds s.free ∧ ∀ x, x < S ∨ S + N ≤ x → t.heap.mem x = mem x := by
  have h33 : S + N ≤ 2 ^ 33 := by omega
  obtain ⟨h, fl, hh, hfl, hinv, himp, hmem⟩ := init_implements hS hN h33 mem
  refine ⟨h, fl, hh, hfl, fun ops hl => ?_⟩
  have hf : (S + N - S) / 16 < fuel := by rwa [Nat.add_sub_cancel_left]
  obtain ⟨t, s, ht, hs, himp', -⟩ := run_implements hS.1 h33 hf hinv himp hl
  exact ⟨t, s, ht, hs, himp'.live, himp'.chain, fun x hx => (run_outside hS.1 h33 hf hinv himp hl ht hx).trans (hmem x hx)⟩

/-- a `Box<u64>` -/
def wordLayout : Layout := ⟨8, 8, eight_isPowerOfTwo, by decide⟩

/-- a page at 1 MB, 64 bytes taken from it, one of them written, and the block given back -/
theorem heap_memory_refines_one_page :
    ∃ h fl, Threaded.init ⟨0, fun _ => 0xAA⟩ 0x100000 0x1000 = .ok h ∧ initList 0x100000 0x1000 = .ok fl ∧
      ∃ t s, run (stepMem 257) ⟨h, []⟩ [.alloc pageLayout, .store 0x100003 7, .dealloc 0x100000 pageLayout] = .ok t ∧
        run step ⟨fl, []⟩ [.alloc pageLayout, .dealloc 0x100000 pageLayout] = .ok s ∧ t.heap.Holds s.free := by
  obtain ⟨h, fl, hh, hfl, hrun⟩ := heap_memory_refines 0x100000 0x1000 257 (fun _ => 0xAA) (by decide) (by decide)
    (by decide) (by decide)
  refine ⟨h, fl, hh, hfl, ?_⟩
  cases hh
  obtain ⟨t, s, ht, hs, -, hchain, -⟩ := hrun [.alloc pageLayout, .store 0x100003 7, .dealloc 0x100000 pageLayout] (by
    refine ⟨by decide, fun t ht => ⟨?_, fun u hu => ⟨?_, fun _ _ => trivial⟩⟩⟩
    · cases ht
      decide
    · cases ht
      cases hu
      decide)
  exact ⟨t, s, ht, hs, hchain⟩

/-- **Data integrity.** After any legal trace, a live pointer p that the rest of the trace does not free stays live, and
each byte of it holds what the rest last stored there, or what it held before. -/
theorem live_bytes_kept (S N fuel : ℕ) (mem : ℕ → UInt8) (hS : 0 < S ∧ S % 4096 = 0) (hN : 0 < N ∧ N % 4096 = 0)
    (hmax : S + N ≤ 8 * 2 ^ 30) (hfuel : N / 16 < fuel) (h : Threaded) (hh : Threaded.init ⟨0, mem⟩ S N = .ok h)
    (before after : List MemOp) (hl : LegalMem fuel ⟨h, []⟩ (before ++ after)) (t : MemSt)
    (ht : run (stepMem fuel) ⟨h, []⟩ before = .ok t) (p : Live) (hp : p ∈ t.live)
    (hkeep : .dealloc p.ptr p.layout ∉ after) :
    ∃ t', run (stepMem fuel) t after = .ok t' ∧ p ∈ t'.live ∧
      ∀ x, p.ptr ≤ x → x < p.ptr + p.layout.size → t'.heap.mem x = after.foldl (lastStore x) (t.heap.mem x) := by
  have h33 : S + N ≤ 2 ^ 33 := by omega
  have hf : (S + N - S) / 16 < fuel := by rwa [Nat.add_sub_cancel_left]
  obtain ⟨h', fl, hh', hfl, hinv, himp, -⟩ := init_implements hS hN h33 mem
  rw [hh] at hh'
  cases hh'
  obtain ⟨hl1, hl2⟩ := legalMem_append.1 hl
  obtain ⟨u, s, hu, -, himp', hinv'⟩ := run_implements hS.1 h33 hf hinv himp hl1
  rw [ht] at hu
  cases hu
  obtain ⟨t', s', ht', -, -, -⟩ := run_implements hS.1 h33 hf hinv' himp' (hl2 t ht)
  have hlive := hinv'.live p (himp'.live ▸ hp)
  have hbyte : ∀ {x}, p.block.Has x → _ := fun hx =>
    run_byte hS.1 h33 hf hinv' himp' (hl2 t ht) hp hkeep ht' hx
  obtain ⟨n, a, hna⟩ := (hinv'.normal p (himp'.live ▸ hp)).2
  have h16 := (sizeAlign_ok hna).1.size16
  have hn : blockSize p.layout = n := by rw [blockSize, hna]
  have hfirst : p.block.Has p.ptr := ⟨le_rfl, show p.ptr < p.ptr + blockSize p.layout by omega⟩
  refine ⟨t', ht', (hbyte hfirst).1, fun x hx hx' => (hbyte (x := x) ⟨hx, ?_⟩).2⟩
  show x < p.ptr + blockSize p.layout
  omega

/-- on the page at 1 MB: a byte that was stored is still there after another block was taken and written -/
theorem live_bytes_kept_one_page :
    ∃ h t, Threaded.init ⟨0, fun _ => 0xAA⟩ 0x100000 0x1000 = .ok h ∧
      run (stepMem 257) ⟨h, []⟩ [.alloc wordLayout] = .ok t ∧
      ∃ t', run (stepMem 257) t [.store 0x100003 7, .alloc wordLayout, .store 0x100010 9] = .ok t' ∧
        t'.heap.mem 0x100003 = 7 := by
  refine ⟨_, _, rfl, rfl, ?_⟩
  obtain ⟨t', ht', -, hbytes⟩ := live_bytes_kept 0x100000 0x1000 257 (fun _ => 0xAA) (by decide) (by decide) (by decide)
    (by decide) _ rfl [.alloc wordLayout] [.store 0x100003 7, .alloc wordLayout, .store 0x100010 9] (by
      refine ⟨by decide, fun t ht => ⟨?_, fun u hu => ⟨?_, fun v hv => ⟨?_, fun _ _ => trivial⟩⟩⟩⟩
      · cases ht
        decide
      · cases ht
        cases hu
        decide
      · cases ht
        cases hu
        cases hv
        decide) _ rfl ⟨0x100000, wordLayout⟩ (by decide) (by simp)
  exact ⟨t', ht', hbytes 0x100003 (by decide) (by decide)⟩

end Tomorrow.Heap
