/-
Bit arrays stored as 64-bit words, for any allocator that keeps one bit per unit.

Bit p lives in word p / 64 at position p % 64. The word operations a program uses (set and clear one bit, count the zero
bits of a word, scan for the first word that is not all ones and take its lowest zero bit) are given the meaning they
have for the whole array:
- `bit_setBit`, `bit_clearBit`: one bit changes and no other;
- `card_clear`: the zero bits counted word by word are the clear positions of the array; setting and clearing a bit
  remove and insert one position (`clear_setBit`, `clear_clearBit`);
- `firstZero_some`, `firstZero_none`: the scan finds the lowest clear position, and fails only when there is none.
-/
import Mathlib.Tactic

namespace Tomorrow.Core

/-- an array of 64-bit words -/
abbrev Words := ℕ → BitVec 64

/-- bit p of the array -/
def bit (m : Words) (p : ℕ) : Bool := (m (p / 64)).getLsbD (p % 64)

/-- `m[p / 64] |= 1 << (p % 64)` -/
def setBit (m : Words) (p : ℕ) : Words := Function.update m (p / 64) (m (p / 64) ||| (1#64 <<< (p % 64)))

/-- `m[p / 64] &= !(1 << (p % 64))` -/
def clearBit (m : Words) (p : ℕ) : Words := Function.update m (p / 64) (m (p / 64) &&& ~~~(1#64 <<< (p % 64)))

theorem getLsbD_one_shl {i j : ℕ} (hj : j < 64) : (1#64 <<< i).getLsbD j = decide (j = i) := by
  rw [BitVec.getLsbD_shiftLeft, BitVec.getLsbD_one]
  by_cases h : j = i
  · simp [h, show i < 64 by omega]
  · by_cases hlt : j < i
    · simp [hlt, show j ≠ i by omega]
    · simp [show j - i ≠ 0 by omega, h]

/-- `w & (1 << i) == 0` -/
theorem and_one_shl_eq_zero {w : BitVec 64} {i : ℕ} (hi : i < 64) :
    w &&& (1#64 <<< i) = 0#64 ↔ w.getLsbD i = false := by
  constructor
  · intro h
    have hb := congrArg (BitVec.getLsbD · i) h
    simpa [getLsbD_one_shl hi] using hb
  · intro h
    apply BitVec.eq_of_getLsbD_eq
    intro j hj
    rw [BitVec.getLsbD_and, getLsbD_one_shl hj, BitVec.getLsbD_zero]
    by_cases hij : j = i
    · simp [hij, h]
    · simp [hij]

@[simp] theorem bit_setBit (m : Words) (p q : ℕ) : bit (setBit m p) q = (decide (q = p) || bit m q) := by
  unfold bit setBit
  by_cases hw : q / 64 = p / 64
  · rw [hw, Function.update_self, BitVec.getLsbD_or, getLsbD_one_shl (Nat.mod_lt q (by omega)), Bool.or_comm]
    congr 1
    exact decide_eq_decide.2 (by omega)
  · have hne : q ≠ p := fun h => hw (by rw [h])
    simp [Function.update_of_ne hw, hne]

@[simp] theorem bit_clearBit (m : Words) (p q : ℕ) : bit (clearBit m p) q = (decide (q ≠ p) && bit m q) := by
  unfold bit clearBit
  have h64 := Nat.mod_lt q (show 64 > 0 by omega)
  by_cases hw : q / 64 = p / 64
  · rw [hw, Function.update_self, BitVec.getLsbD_and, BitVec.getLsbD_not, getLsbD_one_shl h64, Bool.and_comm]
    congr 1
    by_cases h : q % 64 = p % 64
    · simp [show q = p by omega]
    · simp [h, h64, show q ≠ p by omega]
  · have hne : q ≠ p := fun h => hw (by rw [h])
    simp [Function.update_of_ne hw, hne]

/-! ## Counting -/

/-- the number of zero bits of a word -/
def countZeros (w : BitVec 64) : ℕ := ((Finset.range 64).filter fun i => w.getLsbD i = false).card

/-- the clear positions below 64 n -/
def clear (n : ℕ) (m : Words) : Finset ℕ := (Finset.range (64 * n)).filter fun p => bit m p = false

@[simp] theorem mem_clear {n p : ℕ} {m : Words} : p ∈ clear n m ↔ p < 64 * n ∧ bit m p = false := by
  simp [clear]

theorem card_clear_sum (n : ℕ) (m : Words) :
    (clear n m).card = ∑ p ∈ Finset.range (64 * n), if bit m p = false then 1 else 0 := by
  rw [clear, Finset.card_filter]

/-- **Counting by words.** The zero bits of n words, summed, are the clear positions below 64 n. -/
theorem card_clear (n : ℕ) (m : Words) : (clear n m).card = ∑ i ∈ Finset.range n, countZeros (m i) := by
  induction n with
  | zero => rw [card_clear_sum, Nat.mul_zero, Finset.sum_range_zero, Finset.sum_range_zero]
  | succ n ih =>
    have hword : ∀ i ∈ Finset.range 64, (if bit m (64 * n + i) = false then 1 else 0) =
        if (m n).getLsbD i = false then 1 else 0 := by
      intro i hi
      have hi' := Finset.mem_range.1 hi
      rw [bit, show (64 * n + i) / 64 = n by omega, show (64 * n + i) % 64 = i by omega]
    rw [Finset.sum_range_succ, ← ih, card_clear_sum, Nat.mul_succ, Finset.sum_range_add, ← card_clear_sum,
      Finset.sum_congr rfl hword, countZeros, Finset.card_filter]

theorem clear_setBit {n p : ℕ} {m : Words} : clear n (setBit m p) = (clear n m).erase p := by
  ext q
  simp only [mem_clear, bit_setBit, Finset.mem_erase, Bool.or_eq_false_iff, decide_eq_false_iff_not]
  tauto

theorem clear_clearBit {n p : ℕ} {m : Words} (hp : p < 64 * n) : clear n (clearBit m p) = insert p (clear n m) := by
  ext q
  simp only [mem_clear, bit_clearBit, Finset.mem_insert, Bool.and_eq_false_iff, decide_eq_false_iff_not, not_not]
  constructor
  · rintro ⟨hq, rfl | hb⟩
    · exact Or.inl rfl
    · exact Or.inr ⟨hq, hb⟩
  · rintro (rfl | ⟨hq, hb⟩)
    · exact ⟨hp, Or.inl rfl⟩
    · exact ⟨hq, Or.inr hb⟩

/-! ## The lowest clear bit -/

/-- the number of ones below the lowest zero bit -/
def trailingOnes (w : BitVec 64) : ℕ := (List.range 64).findIdx fun i => !w.getLsbD i

theorem trailingOnes_spec {w : BitVec 64} (h : w ≠ BitVec.allOnes 64) :
    trailingOnes w < 64 ∧ w.getLsbD (trailingOnes w) = false ∧ ∀ i < trailingOnes w, w.getLsbD i = true := by
  obtain ⟨i, hi, hw⟩ : ∃ i < 64, w.getLsbD i = false := by
    by_contra hall
    push Not at hall
    refine h (BitVec.eq_of_getLsbD_eq fun i hi => ?_)
    rw [BitVec.getLsbD_allOnes, decide_eq_true hi]
    exact Bool.eq_true_of_not_eq_false (hall i hi)
  have hlt : trailingOnes w < (List.range 64).length :=
    List.findIdx_lt_length_of_exists ⟨i, List.mem_range.2 hi, by simp [hw]⟩
  refine ⟨by simpa using hlt, ?_, fun j hj => ?_⟩
  · have hget : (List.range 64)[trailingOnes w] = trailingOnes w := List.getElem_range hlt
    have hfalse : (!w.getLsbD (List.range 64)[trailingOnes w]) = true :=
      @List.findIdx_getElem _ (fun i => !w.getLsbD i) (List.range 64) hlt
    rw [hget] at hfalse
    simpa using hfalse
  · simpa using List.not_of_lt_findIdx hj

/-- scan the words from index i on, at most n of them, for the lowest clear bit -/
def firstZero (m : Words) : ℕ → ℕ → Option ℕ
  | 0, _ => none
  | n + 1, i => if m i ≠ BitVec.allOnes 64 then some (i * 64 + trailingOnes (m i)) else firstZero m n (i + 1)

theorem bit_of_allOnes {m : Words} {i p : ℕ} (h : m i = BitVec.allOnes 64) (h1 : i * 64 ≤ p) (h2 : p < (i + 1) * 64) :
    bit m p = true := by
  have hi : p / 64 = i := by omega
  rw [bit, hi, h, BitVec.getLsbD_allOnes]
  simp only [decide_eq_true_eq]
  omega

theorem firstZero_some {m : Words} {n i p : ℕ} (h : firstZero m n i = some p) :
    p < (i + n) * 64 ∧ bit m p = false ∧ ∀ q, i * 64 ≤ q → q < p → bit m q = true := by
  induction n generalizing i with
  | zero => cases h
  | succ n ih =>
    unfold firstZero at h
    split_ifs at h with hw
    · obtain ⟨h1, h2, h3⟩ := trailingOnes_spec hw
      cases h
      refine ⟨by omega, ?_, fun q hq hlt => ?_⟩
      · rw [bit, show (i * 64 + trailingOnes (m i)) / 64 = i by omega,
          show (i * 64 + trailingOnes (m i)) % 64 = trailingOnes (m i) by omega]
        exact h2
      · rw [bit, show q / 64 = i by omega]
        exact h3 _ (by omega)
    · obtain ⟨h1, h2, h3⟩ := ih h
      refine ⟨by omega, h2, fun q hq hlt => ?_⟩
      by_cases hqi : q < (i + 1) * 64
      · exact bit_of_allOnes (not_not.1 hw) hq hqi
      · exact h3 q (by omega) hlt

theorem firstZero_none {m : Words} {n i : ℕ} (h : firstZero m n i = none) :
    ∀ q, i * 64 ≤ q → q < (i + n) * 64 → bit m q = true := by
  induction n generalizing i with
  | zero => intro q h1 h2; omega
  | succ n ih =>
    unfold firstZero at h
    split_ifs at h with hw
    intro q h1 h2
    by_cases hqi : q < (i + 1) * 64
    · exact bit_of_allOnes (not_not.1 hw) h1 hqi
    · exact ih h q (by omega) (by omega)

end Tomorrow.Core
