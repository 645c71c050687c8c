/-
Singly linked lists that are threaded through the blocks they list, in a flat memory of bytes.

Words are eight bytes, lowest first. The first word of a block is its size, the second the address of the next block, and 0
ends the list. `Seg m p l q` says that following the second words from p meets the blocks of l and then q; a whole list is
a segment that ends in 0. Rules:
- `Seg.frame`: only the first two words of the listed blocks matter;
- `seg_append`, `seg_snoc`: segments compose, and the last block holds the pointer to what follows;
- `Seg.push`: writing the two words of a new block in front;
- `Seg.redirect`: overwriting the pointer of the last block of a segment.
-/
import Tomorrow.Core.Tiling

namespace Tomorrow.Core

/-! ## Words in bytes -/

/-- the word at a, lowest byte first -/
def loadWord (m : ℕ → UInt8) (a : ℕ) : ℕ := Nat.ofDigits 256 ((List.range 8).map fun i => (m (a + i)).toNat)

/-- write the low 64 bits of v at a -/
def storeWord (m : ℕ → UInt8) (a v : ℕ) : ℕ → UInt8 :=
  fun x => if a ≤ x ∧ x < a + 8 then UInt8.ofNat (v / 256 ^ (x - a)) else m x

theorem loadWord_congr {m m' : ℕ → UInt8} {a : ℕ} (h : ∀ x, a ≤ x → x < a + 8 → m' x = m x) :
    loadWord m' a = loadWord m a := by
  unfold loadWord
  congr 1
  refine List.map_congr_left fun i hi => ?_
  rw [List.mem_range] at hi
  rw [h (a + i) (by omega) (by omega)]

theorem loadWord_lt (m : ℕ → UInt8) (a : ℕ) : loadWord m a < 2 ^ 64 := by
  have h := Nat.ofDigits_lt_base_pow_length (b := 256) (l := (List.range 8).map fun i => (m (a + i)).toNat) (by norm_num)
    fun x hx => by
      obtain ⟨i, -, rfl⟩ := List.mem_map.1 hx
      exact (m (a + i)).toNat_lt
  simpa [loadWord] using h

theorem storeWord_of_outside {m : ℕ → UInt8} {a v x : ℕ} (h : x < a ∨ a + 8 ≤ x) : storeWord m a v x = m x :=
  if_neg (by omega)

theorem loadWord_storeWord (m : ℕ → UInt8) {a v : ℕ} (hv : v < 2 ^ 64) : loadWord (storeWord m a v) a = v := by
  have hbyte : ∀ i, i < 8 → (storeWord m a v (a + i)).toNat = v / 256 ^ i % 256 := by
    intro i hi
    rw [storeWord, if_pos (by omega), Nat.add_sub_cancel_left]
    exact UInt8.toNat_ofNat'
  have hdigits : (List.range 8).map (fun i => (storeWord m a v (a + i)).toNat) =
      (List.range 8).map fun i => v / 256 ^ i % 256 := by
    refine List.map_congr_left fun i hi => hbyte i (List.mem_range.1 hi)
  rw [loadWord, hdigits]
  simp only [List.range_succ, List.range_zero, List.nil_append, List.cons_append, List.map_cons, List.map_nil,
    Nat.ofDigits_cons, Nat.ofDigits_nil]
  omega

theorem loadWord_storeWord_apart (m : ℕ → UInt8) {a b v : ℕ} (h : b + 8 ≤ a ∨ a + 8 ≤ b) :
    loadWord (storeWord m a v) b = loadWord m b :=
  loadWord_congr fun _ _ _ => storeWord_of_outside (by omega)

/-! ## Segments -/

/-- following the pointers from p meets the blocks of l and then q -/
def Seg (m : ℕ → UInt8) : ℕ → List Block → ℕ → Prop
  | p, [], q => p = q
  | p, b :: l, q => p = b.start ∧ p ≠ 0 ∧ loadWord m p = b.size ∧ Seg m (loadWord m (p + 8)) l q

/-- x lies in the first two words of b -/
def Block.Header (b : Block) (x : ℕ) : Prop := b.start ≤ x ∧ x < b.start + 16

variable {m m' : ℕ → UInt8} {p q r : ℕ} {l l' : List Block} {b : Block}

theorem seg_cons :
    Seg m p (b :: l) q ↔ p = b.start ∧ p ≠ 0 ∧ loadWord m p = b.size ∧ Seg m (loadWord m (p + 8)) l q := Iff.rfl

/-- **Frame.** A segment is kept by every write outside the headers of its blocks. -/
theorem Seg.frame (h : Seg m p l q) (hm : ∀ b ∈ l, ∀ x, b.Header x → m' x = m x) : Seg m' p l q := by
  induction l generalizing p with
  | nil => exact h
  | cons b l ih =>
    obtain ⟨rfl, h0, hsize, hrest⟩ := h
    have hb := hm b List.mem_cons_self
    have h1 : loadWord m' b.start = loadWord m b.start :=
      loadWord_congr fun x hx hx' => hb x ⟨hx, by omega⟩
    have h2 : loadWord m' (b.start + 8) = loadWord m (b.start + 8) :=
      loadWord_congr fun x hx hx' => hb x ⟨by omega, by omega⟩
    refine ⟨rfl, h0, h1.trans hsize, ?_⟩
    rw [h2]
    exact ih hrest fun c hc => hm c (List.mem_cons_of_mem b hc)

theorem seg_append : Seg m p (l ++ l') q ↔ ∃ r, Seg m p l r ∧ Seg m r l' q := by
  induction l generalizing p with
  | nil => exact ⟨fun h => ⟨p, rfl, h⟩, fun ⟨_, hr, h⟩ => hr ▸ h⟩
  | cons b l ih =>
    simp only [List.cons_append, seg_cons, ih]
    constructor
    · rintro ⟨h1, h2, h3, r, h4, h5⟩
      exact ⟨r, ⟨h1, h2, h3, h4⟩, h5⟩
    · rintro ⟨r, ⟨h1, h2, h3, h4⟩, h5⟩
      exact ⟨h1, h2, h3, r, h4, h5⟩

theorem seg_snoc :
    Seg m p (l ++ [b]) q ↔ Seg m p l b.start ∧ b.start ≠ 0 ∧ loadWord m b.start = b.size ∧ loadWord m (b.start + 8) = q := by
  rw [seg_append]
  constructor
  · rintro ⟨r, h1, h2, h3, h4, h5⟩
    subst h2
    exact ⟨h1, h3, h4, h5⟩
  · rintro ⟨h1, h2, h3, h4⟩
    exact ⟨b.start, h1, rfl, h2, h3, h4⟩

/-- **Insertion.** The two words of a new block, written in front of a segment. -/
theorem Seg.push (h : Seg m p l q) (h0 : b.start ≠ 0) (hsize : b.size < 2 ^ 64) (hp : p < 2 ^ 64)
    (hapart : ∀ c ∈ l, ∀ x, c.Header x → ¬ b.Header x) :
    Seg (storeWord (storeWord m b.start b.size) (b.start + 8) p) b.start (b :: l) q := by
  refine ⟨rfl, h0, ?_, ?_⟩
  · rw [loadWord_storeWord_apart _ (by omega), loadWord_storeWord _ hsize]
  · rw [loadWord_storeWord _ hp]
    refine h.frame fun c hc x hx => ?_
    have := hapart c hc x hx
    unfold Block.Header at this
    rw [storeWord_of_outside (by omega), storeWord_of_outside (by omega)]

/-- **Redirection.** The last block of a segment is made to point elsewhere. -/
theorem Seg.redirect (h : Seg m p (l ++ [b]) q) (hr : r < 2 ^ 64) (hapart : ∀ c ∈ l, ∀ x, c.Header x → ¬ b.Header x) :
    Seg (storeWord m (b.start + 8) r) p (l ++ [b]) r := by
  obtain ⟨h1, h2, h3, -⟩ := seg_snoc.1 h
  refine seg_snoc.2 ⟨h1.frame fun c hc x hx => ?_, h2, ?_, loadWord_storeWord _ hr⟩
  · have := hapart c hc x hx
    unfold Block.Header at this
    exact storeWord_of_outside (by omega)
  · rw [loadWord_storeWord_apart _ (by omega), h3]

end Tomorrow.Core
