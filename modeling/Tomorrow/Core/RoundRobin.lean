/-
Round robin over n slots, independent of any particular scheduler.

`nextAfter` looks at the slots behind the current one, in cyclic order, and takes the first that is ready.
- `nextAfter_eq_some`: it is the ready slot at the smallest cyclic distance;
- `nextAfter_closer`: a slot that is ready is chosen, or comes closer, whatever the other slots do;
- `chosen_within`: so it is chosen within n - 1 choices;
- `lap`: over a fixed set of ready slots the choices go round: a lap meets each of them once.

For the lap, choosing the next slot is a permutation of the ready slots (`nextAfter_inj`) and one cycle on them
(`exists_cycle`), because by the bound on the wait every slot is reached from every other.
-/
import Mathlib.Tactic
import Mathlib.GroupTheory.Perm.Cycle.Basic

namespace Tomorrow.Core

variable {n : ℕ}

/-- the number of steps forward from a to b, round the end -/
def cyclicDistance (a b : Fin n) : ℕ := (b - a).val

/-- the first ready slot behind a -/
def nextAfter [NeZero n] (ready : Fin n → Bool) (a : Fin n) : Option (Fin n) :=
  ((List.range' 1 (n - 1)).map fun i => a + Fin.ofNat n i).find? ready

section Distance

variable (a b j : Fin n)

theorem cyclicDistance_eq : cyclicDistance a b = if a.val ≤ b.val then b.val - a.val else n + b.val - a.val := by
  unfold cyclicDistance
  split_ifs with h
  · exact Fin.sub_val_of_le h
  · exact Fin.coe_sub_iff_lt.2 (not_le.1 h)

theorem cyclicDistance_lt : cyclicDistance a b < n := (b - a).isLt

/-- there and back is once round -/
theorem cyclicDistance_swap {a b : Fin n} (h : a ≠ b) : cyclicDistance a b + cyclicDistance b a = n := by
  have ha := a.isLt
  have hb := b.isLt
  have hne := Fin.val_ne_of_ne h
  simp only [cyclicDistance_eq]
  split_ifs <;> omega

/-- a slot on the way to j splits the distance -/
theorem cyclicDistance_split (h : cyclicDistance a b ≤ cyclicDistance a j) :
    cyclicDistance a j = cyclicDistance a b + cyclicDistance b j := by
  have ha := a.isLt
  have hb := b.isLt
  have hj := j.isLt
  simp only [cyclicDistance_eq] at h ⊢
  split_ifs at h ⊢ <;> omega

variable [NeZero n]

theorem cyclicDistance_eq_zero : cyclicDistance a b = 0 ↔ a = b := by
  rw [cyclicDistance, Fin.val_eq_zero_iff, sub_eq_zero, eq_comm]

theorem cyclicDistance_pos {a b : Fin n} (h : b ≠ a) : 0 < cyclicDistance a b :=
  Nat.pos_of_ne_zero fun h0 => h ((cyclicDistance_eq_zero a b).1 h0).symm

theorem add_cyclicDistance : a + Fin.ofNat n (cyclicDistance a b) = b := by
  simp [cyclicDistance]

theorem cyclicDistance_add {i : ℕ} (h : i < n) : cyclicDistance a (a + Fin.ofNat n i) = i := by
  simp [cyclicDistance, Nat.mod_eq_of_lt h]

end Distance

/-! ## One choice -/

section Choice

variable [NeZero n] {ready : Fin n → Bool} {a b j : Fin n}

/-- **None.** No slot but the current one is ready. -/
theorem nextAfter_eq_none : nextAfter ready a = none ↔ ∀ j, j ≠ a → ready j = false := by
  simp only [nextAfter, List.find?_eq_none, List.mem_map, List.mem_range'_1, Bool.not_eq_true]
  constructor
  · intro h j hj
    have hpos := cyclicDistance_pos hj
    have hlt := cyclicDistance_lt a j
    exact h j ⟨cyclicDistance a j, by omega, add_cyclicDistance a j⟩
  · rintro h j ⟨i, hi, rfl⟩
    apply h
    intro he
    have hd := cyclicDistance_add a (show i < n by omega)
    rw [he, (cyclicDistance_eq_zero a a).2 rfl] at hd
    omega

/-- **Some.** The ready slot at the smallest distance behind the current one. -/
theorem nextAfter_eq_some : nextAfter ready a = some b ↔
    b ≠ a ∧ ready b = true ∧ ∀ j, j ≠ a → ready j = true → cyclicDistance a b ≤ cyclicDistance a j := by
  simp only [nextAfter, List.find?_eq_some_iff_getElem, List.length_map, List.length_range', List.getElem_map,
    List.getElem_range', Bool.not_eq_true']
  constructor
  · rintro ⟨hb, i, hi, rfl, hlow⟩
    have hd := cyclicDistance_add a (show 1 + 1 * i < n by omega)
    refine ⟨fun he => ?_, hb, fun j hj hr => ?_⟩
    · rw [he, (cyclicDistance_eq_zero a a).2 rfl] at hd
      omega
    · rw [hd]
      by_contra hlt
      have hpos := cyclicDistance_pos hj
      have hfalse := hlow (cyclicDistance a j - 1) (by omega)
      rw [show 1 + 1 * (cyclicDistance a j - 1) = cyclicDistance a j by omega, add_cyclicDistance, hr] at hfalse
      cases hfalse
  · rintro ⟨hne, hb, hmin⟩
    have hpos := cyclicDistance_pos hne
    have hlt := cyclicDistance_lt a b
    refine ⟨hb, cyclicDistance a b - 1, by omega, ?_, fun i hi => ?_⟩
    · rw [show 1 + 1 * (cyclicDistance a b - 1) = cyclicDistance a b by omega, add_cyclicDistance]
    · by_contra hr
      have hd := cyclicDistance_add a (show 1 + 1 * i < n by omega)
      have := hmin (a + Fin.ofNat n (1 + 1 * i)) (fun he => by
        rw [he, (cyclicDistance_eq_zero a a).2 rfl] at hd
        omega) (by simpa using hr)
      omega

theorem nextAfter_ne (h : nextAfter ready a = some b) : b ≠ a := (nextAfter_eq_some.1 h).1

/-- **Step lemma for the wait.** A ready slot is chosen or comes closer. -/
theorem nextAfter_closer (h : nextAfter ready a = some b) (hr : ready j = true) (hj : a ≠ j) :
    b = j ∨ cyclicDistance b j < cyclicDistance a j := by
  obtain ⟨hne, -, hmin⟩ := nextAfter_eq_some.1 h
  have hsplit := cyclicDistance_split a b j (hmin j hj.symm hr)
  have hpos := cyclicDistance_pos hne
  exact Or.inr (by omega)

/-- two slots with one successor are the same -/
theorem nextAfter_inj (ha : nextAfter ready a = some j) (hb : nextAfter ready b = some j) (hra : ready a = true)
    (hrb : ready b = true) : a = b := by
  by_contra hne
  have h1 := cyclicDistance_split a j b ((nextAfter_eq_some.1 ha).2.2 b (Ne.symm hne) hrb)
  have h2 := cyclicDistance_split b j a ((nextAfter_eq_some.1 hb).2.2 a hne hra)
  -- from a by way of j to b and from b by way of j to a: the circle would be walked twice
  have hab := cyclicDistance_swap hne
  have haj := cyclicDistance_swap (nextAfter_ne ha).symm
  have hbj := cyclicDistance_swap (nextAfter_ne hb).symm
  have hn := a.isLt
  omega

end Choice

/-! ## Runs of choices -/

section Runs

variable [NeZero n] (cur : ℕ → Fin n) {m : ℕ} {j : Fin n}

/-- **Bounded wait.** A slot that stays ready is chosen within as many choices as it is away, whatever is ready
beside it. -/
theorem chosen_within (ready : ℕ → Fin n → Bool) (h : ∀ t, t < m → nextAfter (ready t) (cur t) = some (cur (t + 1)))
    (hr : ∀ t, t < m → ready t j = true) (hne : cur 0 ≠ j) (hm : cyclicDistance (cur 0) j ≤ m) :
    ∃ t, 0 < t ∧ t ≤ cyclicDistance (cur 0) j ∧ cur t = j := by
  by_contra hno
  push Not at hno
  have hfar : ∀ t, t ≤ cyclicDistance (cur 0) j → cur t ≠ j ∧ cyclicDistance (cur t) j + t ≤ cyclicDistance (cur 0) j := by
    intro t
    induction t with
    | zero => exact fun _ => ⟨hne, le_rfl⟩
    | succ t ih =>
      intro ht
      obtain ⟨hnt, hd⟩ := ih (by omega)
      have hns := hno (t + 1) (Nat.succ_pos t) ht
      have hcloser := (nextAfter_closer (h t (by omega)) (hr t (by omega)) hnt).resolve_left hns
      exact ⟨hns, by omega⟩
  obtain ⟨hend, hd⟩ := hfar _ le_rfl
  exact hend ((cyclicDistance_eq_zero _ j).1 (by omega))

/-- choosing the next slot is a permutation of the ready slots, and one cycle: every slot is reached from every other -/
theorem exists_cycle {R : Finset (Fin n)} (h2 : 2 ≤ R.card) :
    ∃ σ : Equiv.Perm R, (∀ a : R, nextAfter (fun i => decide (i ∈ R)) a.1 = some (σ a).1) ∧
      σ.IsCycleOn (Finset.univ : Finset R) := by
  have hnext : ∀ a : R, ∃ b : R, nextAfter (fun i => decide (i ∈ R)) a.1 = some b.1 := by
    intro a
    obtain ⟨b, hb, hba⟩ := R.exists_mem_ne h2 a.1
    cases hn : nextAfter (fun i => decide (i ∈ R)) a.1 with
    | none => simpa [hb] using nextAfter_eq_none.1 hn b hba
    | some d => exact ⟨⟨d, by simpa using (nextAfter_eq_some.1 hn).2.1⟩, rfl⟩
  choose f hf using hnext
  have hinj : Function.Injective f := fun a b hab =>
    Subtype.ext (nextAfter_inj (hf a) (by rw [hab]; exact hf b) (by simp) (by simp))
  let σ : Equiv.Perm R := Equiv.ofBijective f (Finite.injective_iff_bijective.1 hinj)
  have hσ : ∀ a : R, nextAfter (fun i => decide (i ∈ R)) a.1 = some (σ a).1 := hf
  refine ⟨σ, hσ, by simpa using σ.bijective, fun a _ b _ => ?_⟩
  by_cases hab : a = b
  · rw [hab]
  · obtain ⟨i, -, -, hi⟩ := chosen_within (fun i => ((σ ^ i) a).1) (fun _ i => decide (i ∈ R)) (j := b.1) (m := n)
      (fun i _ => by rw [pow_succ']; exact hσ _) (by simp)
      (fun he => hab (Subtype.ext he)) (cyclicDistance_lt _ _).le
    exact ⟨i, Subtype.ext (by simpa using hi)⟩

/-- **Lap.** Over a fixed set R of ready slots with the current one in it, |R| choices in a row meet each of R once. -/
theorem lap {R : Finset (Fin n)} (h : ∀ t, t < m → nextAfter (fun i => decide (i ∈ R)) (cur t) = some (cur (t + 1)))
    (h0 : cur 0 ∈ R) (h2 : 2 ≤ R.card) {t : ℕ} (ht : t + R.card ≤ m) (hj : j ∈ R) :
    ∃! i, i < R.card ∧ cur (t + i + 1) = j := by
  obtain ⟨σ, hσ, hcycle⟩ := exists_cycle h2
  have hcur : ∀ i, i ≤ m → cur i = ((σ ^ i) ⟨cur 0, h0⟩).1 := by
    intro i
    induction i with
    | zero => exact fun _ => rfl
    | succ i ih =>
      intro hi
      have hstep := h i (by omega)
      rw [ih (by omega), hσ] at hstep
      rw [pow_succ']
      exact (Option.some.inj hstep).symm
  have hcard : (Finset.univ : Finset R).card = R.card := by simp
  have hadd : ∀ i, i < R.card → cur (t + i + 1) = ((σ ^ i) ((σ ^ (t + 1)) ⟨cur 0, h0⟩)).1 := by
    intro i hi
    rw [hcur _ (by omega), ← Equiv.Perm.mul_apply, ← pow_add]
    congr 3
    omega
  obtain ⟨i, hi, he⟩ := hcycle.exists_pow_eq (Finset.mem_univ ((σ ^ (t + 1)) ⟨cur 0, h0⟩)) (Finset.mem_univ ⟨j, hj⟩)
  rw [hcard] at hi
  refine ⟨i, ⟨hi, by rw [hadd i hi, he]⟩, ?_⟩
  rintro i' ⟨hi', he'⟩
  rw [hadd i' hi'] at he'
  have hmod := (hcycle.pow_apply_eq_pow_apply (Finset.mem_univ _)).1 ((Subtype.ext he').trans he.symm)
  rw [hcard] at hmod
  exact hmod.eq_of_lt_of_lt hi' hi

end Runs

end Tomorrow.Core
