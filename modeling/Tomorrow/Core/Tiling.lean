/-
Blocks of addresses and tilings of an interval by a list of blocks, for any block-structured memory.

A list of blocks tiles [lo, hi) when no two of them share an address and together they hold exactly the addresses of
[lo, hi). Both facts are one count: `cover x l` is the number of blocks of l that hold x, and l tiles [lo, hi) iff the
count is 1 inside and 0 outside (`tiles_iff_cover`). Counts add over lists and do not see their order, so cutting a
block (`cover_cut`), moving it between lists and permuting a list are single rewrites.
-/
import Mathlib.Tactic

namespace Tomorrow.Core

/-- the addresses [start, start + size) -/
@[ext] structure Block where
  start : ℕ
  size : ℕ
deriving DecidableEq, Repr

/-- address x lies in b -/
def Block.Has (b : Block) (x : ℕ) : Prop := b.start ≤ x ∧ x < b.start + b.size

instance (b : Block) (x : ℕ) : Decidable (b.Has x) := by unfold Block.Has; infer_instance

/-- b and c share no address -/
def Block.Apart (b c : Block) : Prop := ∀ x, ¬ (b.Has x ∧ c.Has x)

/-- l is a partition of [lo, hi) into blocks -/
structure Tiles (lo hi : ℕ) (l : List Block) : Prop where
  apart : l.Pairwise Block.Apart
  exact : ∀ x, (lo ≤ x ∧ x < hi) ↔ ∃ b ∈ l, b.Has x

/-- how many blocks of l hold x -/
def cover (x : ℕ) (l : List Block) : ℕ := l.countP fun b => b.Has x

@[simp] theorem cover_nil (x : ℕ) : cover x [] = 0 := rfl

theorem cover_cons (x : ℕ) (b : Block) (l : List Block) : cover x (b :: l) = cover x l + if b.Has x then 1 else 0 := by
  simp [cover, List.countP_cons]

@[simp] theorem cover_append (x : ℕ) (l m : List Block) : cover x (l ++ m) = cover x l + cover x m := by
  simp [cover]

theorem cover_perm {l m : List Block} (h : l.Perm m) (x : ℕ) : cover x l = cover x m := h.countP_eq _

theorem cover_pos {x : ℕ} {l : List Block} : 0 < cover x l ↔ ∃ b ∈ l, b.Has x := by
  simp [cover, List.countP_pos_iff]

theorem pairwise_apart_iff (l : List Block) : l.Pairwise Block.Apart ↔ ∀ x, cover x l ≤ 1 := by
  induction l with
  | nil => simp
  | cons b l ih =>
    simp only [List.pairwise_cons, ih, cover_cons]
    constructor
    · rintro ⟨hb, hl⟩ x
      split_ifs with hx
      · have h0 : cover x l = 0 := by
          by_contra h
          obtain ⟨c, hc, hcx⟩ := cover_pos.1 (Nat.pos_of_ne_zero h)
          exact hb c hc x ⟨hx, hcx⟩
        omega
      · have := hl x; omega
    · intro h
      refine ⟨fun c hc x hx => ?_, fun x => by have := h x; omega⟩
      have hpos : 0 < cover x l := cover_pos.2 ⟨c, hc, hx.2⟩
      have := h x
      rw [if_pos hx.1] at this
      omega

/-- **A tiling is a count.** l tiles [lo, hi) iff every address is held once inside and never outside. -/
theorem tiles_iff_cover {lo hi : ℕ} {l : List Block} :
    Tiles lo hi l ↔ ∀ x, cover x l = if lo ≤ x ∧ x < hi then 1 else 0 := by
  constructor
  · rintro ⟨hap, hex⟩ x
    have h1 := (pairwise_apart_iff l).1 hap x
    split_ifs with hx
    · have := cover_pos.2 ((hex x).1 hx); omega
    · by_contra h
      exact hx ((hex x).2 (cover_pos.1 (Nat.pos_of_ne_zero h)))
  · intro h
    refine ⟨(pairwise_apart_iff l).2 fun x => ?_, fun x => ?_⟩
    · rw [h x]; split_ifs <;> omega
    · rw [← cover_pos, h x]; split_ifs with hx <;> simp [hx]

theorem Tiles.bounds {lo hi : ℕ} {l : List Block} (h : Tiles lo hi l) {b : Block} (hb : b ∈ l) (hpos : 0 < b.size) :
    lo ≤ b.start ∧ b.start + b.size ≤ hi := by
  have h1 := (h.exact b.start).2 ⟨b, hb, le_rfl, by omega⟩
  have h2 := (h.exact (b.start + b.size - 1)).2 ⟨b, hb, by omega, by omega⟩
  omega

theorem tiles_single {lo hi : ℕ} (h : lo ≤ hi) : Tiles lo hi [⟨lo, hi - lo⟩] := by
  rw [tiles_iff_cover]
  intro x
  simp only [cover_cons, cover_nil, Block.Has, Nat.add_sub_cancel' h, zero_add]

/-- an empty block holds nothing -/
theorem cover_empty (x a : ℕ) : cover x [⟨a, 0⟩] = 0 := by
  simp [cover_cons, Block.Has]

/-- cutting a block in two keeps every count -/
theorem cover_cut (x : ℕ) {s m e : ℕ} (h1 : s ≤ m) (h2 : m ≤ e) :
    cover x [⟨s, m - s⟩, ⟨m, e - m⟩] = cover x [⟨s, e - s⟩] := by
  simp only [cover_cons, cover_nil, Block.Has, Nat.add_sub_cancel' h1, Nat.add_sub_cancel' h2,
    Nat.add_sub_cancel' (h1.trans h2)]
  split_ifs <;> omega

/-- counted by address, the blocks of a list inside [lo, hi) have as many addresses as their sizes add up to -/
theorem sum_cover {lo hi : ℕ} {l : List Block} (h : ∀ b ∈ l, lo ≤ b.start ∧ b.start + b.size ≤ hi) :
    ∑ x ∈ Finset.Ico lo hi, cover x l = (l.map Block.size).sum := by
  induction l with
  | nil => simp
  | cons b l ih =>
    obtain ⟨hlo, hhi⟩ := h b List.mem_cons_self
    have hfilter : (Finset.Ico lo hi).filter b.Has = Finset.Ico b.start (b.start + b.size) := by
      ext x
      simp only [Finset.mem_filter, Finset.mem_Ico, Block.Has]
      omega
    simp only [cover_cons, Finset.sum_add_distrib, ih fun c hc => h c (List.mem_cons_of_mem b hc)]
    rw [← Finset.card_filter, hfilter, Nat.card_Ico, List.map_cons, List.sum_cons]
    omega

/-- blocks of at least n > 0 addresses each: not more of them than fit -/
theorem Tiles.length_mul_le {lo hi n : ℕ} {l : List Block} (h : Tiles lo hi l) (hn : 0 < n) (hsize : ∀ b ∈ l, n ≤ b.size) :
    l.length * n ≤ hi - lo := by
  have hbounds : ∀ b ∈ l, lo ≤ b.start ∧ b.start + b.size ≤ hi :=
    fun b hb => h.bounds hb (lt_of_lt_of_le hn (hsize b hb))
  have hone : ∑ x ∈ Finset.Ico lo hi, cover x l = hi - lo := by
    rw [Finset.sum_congr rfl fun x hx => (tiles_iff_cover.1 h x).trans (if_pos (Finset.mem_Ico.1 hx))]
    simp
  rw [← hone, sum_cover hbounds, ← smul_eq_mul, ← List.length_map (f := Block.size)]
  refine List.card_nsmul_le_sum _ _ fun x hx => ?_
  obtain ⟨b, hb, rfl⟩ := List.mem_map.1 hx
  exact hsize b hb

end Tomorrow.Core
