/-
Rings whose cells carry a phase bit, independent of any particular device.

A producer writes entry number n into cell n % N of a ring of N cells, with a phase that is the same for a whole lap and
flips from lap to lap. A consumer that knows the number of its next entry compares phases to see whether the cell holds
that entry. `Holds` says what the cells contain after some entries were posted:
- `Holds.push`: posting one more entry;
- `Holds.next`: when an entry is outstanding and no more than N are, its cell holds it, with the phase of its lap;
- `Holds.stale`: when no entry is outstanding, the phase in the cell is not that of the lap.
-/
import Mathlib.Tactic

namespace Tomorrow.Core

variable {α : Type} {N : ℕ} {phase : α → Bool}

/-- the phase of the lap of entry n: set on the first lap, then alternating -/
def lapPhase (N n : ℕ) : Bool := decide (n / N % 2 = 0)

theorem lapPhase_add (hN : 0 < N) (n : ℕ) : lapPhase N (n + N) = !lapPhase N n := by
  unfold lapPhase
  rw [Nat.add_div_right n hN]
  by_cases h : n / N % 2 = 0
  · rw [decide_eq_true h, decide_eq_false (by omega)]; rfl
  · rw [decide_eq_false h, decide_eq_true (by omega)]; rfl

/-- the cells after these entries were posted: the last N are there, each with the phase of its lap, and a cell not
written yet has the phase of no entry -/
structure Holds (N : ℕ) (phase : α → Bool) (cells : ℕ → α) (posted : List α) : Prop where
  recent : ∀ n x, posted[n]? = some x → posted.length ≤ n + N → cells (n % N) = x
  phases : ∀ n x, posted[n]? = some x → phase x = lapPhase N n
  unused : ∀ i, i < N → posted.length ≤ i → phase (cells i) = false

theorem Holds.empty {cells : ℕ → α} (h : ∀ i, i < N → phase (cells i) = false) : Holds N phase cells [] where
  recent := fun n x hx => by simp at hx
  phases := fun n x hx => by simp at hx
  unused := fun i hi _ => h i hi

/-- an entry of a list with one more at its end is an old one or the new one -/
theorem getElem?_snoc {l : List α} {x y : α} {n : ℕ} (h : (l ++ [x])[n]? = some y) :
    (n < l.length ∧ l[n]? = some y) ∨ (n = l.length ∧ y = x) := by
  rcases Nat.lt_trichotomy n l.length with hlt | rfl | hgt
  · rw [List.getElem?_append_left hlt] at h
    exact Or.inl ⟨hlt, h⟩
  · rw [List.getElem?_concat_length] at h
    exact Or.inr ⟨rfl, (Option.some.inj h).symm⟩
  · rw [List.getElem?_eq_none (by simp; omega)] at h
    cases h

/-- two entries less than a lap apart are in different cells -/
theorem mod_ne_of_lt {m n : ℕ} (h1 : m < n) (h2 : n < m + N) : m % N ≠ n % N := by
  intro he
  have hdvd : N ∣ n - m := Nat.dvd_of_mod_eq_zero (Nat.sub_mod_eq_zero_of_mod_eq he.symm)
  exact absurd (Nat.le_of_dvd (by omega) hdvd) (by omega)

theorem Holds.push {cells : ℕ → α} {posted : List α} (h : Holds N phase cells posted) {x : α}
    (hx : phase x = lapPhase N posted.length) :
    Holds N phase (Function.update cells (posted.length % N) x) (posted ++ [x]) where
  recent := by
    intro n y hy hlen
    rw [List.length_append, List.length_singleton] at hlen
    rcases getElem?_snoc hy with ⟨hlt, hy⟩ | ⟨rfl, rfl⟩
    · rw [Function.update_of_ne (mod_ne_of_lt hlt (by omega))]
      exact h.recent n y hy (by omega)
    · exact Function.update_self ..
  phases := by
    intro n y hy
    rcases getElem?_snoc hy with ⟨-, hy⟩ | ⟨rfl, rfl⟩
    · exact h.phases n y hy
    · exact hx
  unused := by
    intro i hi hlen
    rw [List.length_append, List.length_singleton] at hlen
    rw [Function.update_of_ne]
    · exact h.unused i hi (by omega)
    · rw [Nat.mod_eq_of_lt (by omega)]; omega

/-- a write beyond the cells of the ring -/
theorem Holds.update_of_le {cells : ℕ → α} {posted : List α} (h : Holds N phase cells posted) (hN : 0 < N) {i : ℕ}
    (hi : N ≤ i) (y : α) : Holds N phase (Function.update cells i y) posted where
  recent := by
    intro n x hx hlen
    have := Nat.mod_lt n hN
    rw [Function.update_of_ne (by omega)]
    exact h.recent n x hx hlen
  phases := h.phases
  unused := by
    intro j hj hlen
    rw [Function.update_of_ne (by omega)]
    exact h.unused j hj hlen

theorem Holds.next {cells : ℕ → α} {posted : List α} (h : Holds N phase cells posted) {c : ℕ} (hc : c < posted.length)
    (hlen : posted.length ≤ c + N) : posted[c]? = some (cells (c % N)) ∧ phase (cells (c % N)) = lapPhase N c := by
  obtain ⟨x, hx⟩ : ∃ x, posted[c]? = some x := ⟨_, List.getElem?_eq_getElem hc⟩
  have hcell := h.recent c x hx hlen
  exact ⟨by rw [hcell]; exact hx, by rw [hcell]; exact h.phases c x hx⟩

theorem Holds.stale {cells : ℕ → α} {posted : List α} (h : Holds N phase cells posted) (hN : 0 < N) :
    phase (cells (posted.length % N)) ≠ lapPhase N posted.length := by
  by_cases hlt : posted.length < N
  · rw [h.unused _ (Nat.mod_lt _ hN) (by rw [Nat.mod_eq_of_lt hlt]), lapPhase, Nat.div_eq_of_lt hlt]
    decide
  · -- the cell holds the entry of the lap before
    obtain ⟨m, hm⟩ : ∃ m, posted.length = m + N := ⟨posted.length - N, by omega⟩
    obtain ⟨hx, hphase⟩ := h.next (c := m) (by omega) (by omega)
    rw [hm, Nat.add_mod_right, hphase, lapPhase_add hN]
    cases lapPhase N m <;> decide

end Tomorrow.Core
