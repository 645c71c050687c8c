/-
Loops that may run forever, independent of any particular program.

`loop` runs a body until it leaves with a value, and is cut off after a number of passes; it terminates (`Terminates`) when
some number is enough. Rules:
- `Terminates.of_measure`: a measure that every pass makes smaller;
- `not_terminates`: an invariant under which no pass leaves;
- `loop_inv`: the pass that leaves does so in a state the invariant holds in.

The second half is about walks over records that carry their own length, such as tables of firmware or descriptors of a
device: `Chain` lists the positions that following the lengths meets, and a walk whose positions are bounded ends iff no
record on its chain has length zero (`walk_terminates_iff`).
-/
import Mathlib.Tactic

namespace Tomorrow.Core

variable {σ α : Type}

/-! ## Loops -/

/-- passes of the body until it leaves, at most `fuel` of them -/
def loop (body : σ → σ ⊕ α) : ℕ → σ → Option α
  | 0, _ => none
  | fuel + 1, s =>
    match body s with
    | .inl s' => loop body fuel s'
    | .inr a => some a

section

variable {body : σ → σ ⊕ α} {s s' : σ} {a : α} {fuel : ℕ}

theorem loop_next (h : body s = .inl s') : loop body (fuel + 1) s = loop body fuel s' := by rw [loop, h]

theorem loop_leave (h : body s = .inr a) : loop body (fuel + 1) s = some a := by rw [loop, h]

/-- more passes than needed change nothing -/
theorem loop_mono {fuel' : ℕ} (hle : fuel ≤ fuel') (h : loop body fuel s = some a) : loop body fuel' s = some a := by
  induction fuel generalizing s fuel' with
  | zero => cases h
  | succ fuel ih =>
    obtain ⟨n, rfl⟩ : ∃ n, fuel' = n + 1 := ⟨fuel' - 1, by omega⟩
    cases hb : body s with
    | inl t =>
      rw [loop_next hb] at h ⊢
      exact ih (by omega) h
    | inr b =>
      rw [loop_leave hb] at h ⊢
      exact h

theorem loop_unique {fuel' : ℕ} {b : α} (ha : loop body fuel s = some a) (hb : loop body fuel' s = some b) : a = b :=
  Option.some.inj ((loop_mono (le_max_left fuel fuel') ha).symm.trans (loop_mono (le_max_right fuel fuel') hb))

/-- some number of passes is enough -/
def Terminates (body : σ → σ ⊕ α) (s : σ) : Prop := ∃ fuel a, loop body fuel s = some a

theorem terminates_of_leave (h : body s = .inr a) : Terminates body s := ⟨1, a, loop_leave h⟩

theorem terminates_next (h : body s = .inl s') : Terminates body s ↔ Terminates body s' := by
  constructor
  · rintro ⟨fuel, a, ha⟩
    cases fuel with
    | zero => cases ha
    | succ fuel => exact ⟨fuel, a, (loop_next h).symm.trans ha⟩
  · rintro ⟨fuel, a, ha⟩
    exact ⟨fuel + 1, a, (loop_next h).trans ha⟩

/-- what is done with the value has no part in it -/
theorem terminates_map {β : Type} (f : α → β) : (∃ fuel b, (loop body fuel s).map f = some b) ↔ Terminates body s := by
  simp only [Option.map_eq_some_iff, Terminates]
  exact ⟨fun ⟨fuel, _, a, ha, _⟩ => ⟨fuel, a, ha⟩, fun ⟨fuel, a, ha⟩ => ⟨fuel, f a, a, ha, rfl⟩⟩

/-- **Termination.** Every pass under the invariant makes the measure smaller. -/
theorem Terminates.of_measure (I : σ → Prop) (μ : σ → ℕ)
    (hstep : ∀ s s', I s → body s = .inl s' → I s' ∧ μ s' < μ s) (hs : I s) : Terminates body s := by
  induction hn : μ s using Nat.strong_induction_on generalizing s with
  | h n ih =>
    cases hb : body s with
    | inl t =>
      obtain ⟨ht, hlt⟩ := hstep s t hs hb
      exact (terminates_next hb).2 (ih (μ t) (hn ▸ hlt) ht rfl)
    | inr a => exact terminates_of_leave hb

/-- **Divergence.** Under the invariant every pass goes on. -/
theorem not_terminates (I : σ → Prop) (hstep : ∀ s, I s → ∃ s', body s = .inl s' ∧ I s') (hs : I s) :
    ¬ Terminates body s := by
  rintro ⟨fuel, a, ha⟩
  induction fuel generalizing s with
  | zero => cases ha
  | succ fuel ih =>
    obtain ⟨t, hb, ht⟩ := hstep s hs
    exact ih ht ((loop_next hb).symm.trans ha)

/-- **Invariant.** The loop leaves in a state the invariant holds in. -/
theorem loop_inv (I : σ → Prop) (hstep : ∀ s s', I s → body s = .inl s' → I s') (hs : I s)
    (h : loop body fuel s = some a) : ∃ t, I t ∧ body t = .inr a := by
  induction fuel generalizing s with
  | zero => cases h
  | succ fuel ih =>
    cases hb : body s with
    | inl t => exact ih (hstep s t hs hb) ((loop_next hb).symm.trans h)
    | inr b =>
      rw [loop_leave hb] at h
      exact ⟨s, hs, hb.trans (congrArg Sum.inr (Option.some.inj h))⟩

end

/-! ## Walks by length -/

/-- the positions met from the start on by following the lengths, up to one where the walk stops -/
inductive Chain (stop : ℕ → Prop) (stride : ℕ → ℕ) (start : ℕ) : ℕ → Prop where
  | start : Chain stop stride start start
  | next (o : ℕ) (h : Chain stop stride start o) (hgo : ¬ stop o) : Chain stop stride start (o + stride o)

theorem Chain.eq_of_stop {stop : ℕ → Prop} {stride : ℕ → ℕ} {start o : ℕ} (h : Chain stop stride start o)
    (hs : stop start) : o = start := by
  induction h with
  | start => rfl
  | next o _ hgo ih => exact absurd (ih ▸ hs) hgo

/-- a list of positions that the lengths do not leave has the whole chain -/
theorem Chain.mem {stop : ℕ → Prop} {stride : ℕ → ℕ} {start o : ℕ} {ps : List ℕ} (h : Chain stop stride start o)
    (hstart : start ∈ ps) (hnext : ∀ p ∈ ps, stop p ∨ p + stride p ∈ ps) : o ∈ ps := by
  induction h with
  | start => exact hstart
  | next o _ hgo ih => exact (hnext o ih).resolve_left hgo

section

variable {stop : ℕ → Prop} {stride : ℕ → ℕ} {start a b : ℕ}

theorem Chain.start_le (ha : Chain stop stride start a) : start ≤ a := by
  induction ha with
  | start => exact le_refl start
  | next o _ _ ih => omega

/-- the records on a chain do not overlap: whatever comes after one comes after its end -/
theorem Chain.next_le (ha : Chain stop stride start a) (hb : Chain stop stride start b)
    (hstride : ∀ o, ¬ stop o → 0 < stride o) (hlt : a < b) : a + stride a ≤ b := by
  induction b using Nat.strong_induction_on generalizing a with
  | h b ih =>
    cases hb with
    | start => exact absurd ha.start_le (not_le.2 hlt)
    | next o ho hgo =>
      have hpos := hstride o hgo
      rcases lt_trichotomy a o with h | rfl | h
      · have hstep := ih o (by omega) ha ho h
        omega
      · exact le_refl _
      · have hback := ih a hlt ho ha h
        omega

/-- a chain goes no further than a stop on it -/
theorem Chain.le_of_stop (ha : Chain stop stride start a) (hs : stop a) (hb : Chain stop stride start b)
    (hstride : ∀ o, ¬ stop o → 0 < stride o) : b ≤ a := by
  induction hb with
  | start => exact ha.start_le
  | next o ho hgo ih =>
    have hne : o ≠ a := fun h => hgo (h ▸ hs)
    exact ho.next_le ha hstride (by omega)

end

section

variable {body : σ → σ ⊕ α} {pos : σ → ℕ} {stop : ℕ → Prop} {stride : ℕ → ℕ} {s : σ}

/-- the loop comes by every position of its chain -/
theorem Chain.reached (hgo : ∀ s, ¬ stop (pos s) → ∃ s', body s = .inl s' ∧ pos s' = pos s + stride (pos s)) {o : ℕ}
    (h : Chain stop stride (pos s) o) : ∃ t, pos t = o ∧ (Terminates body s ↔ Terminates body t) := by
  induction h with
  | start => exact ⟨s, rfl, Iff.rfl⟩
  | next o _ hns ih =>
    obtain ⟨t, rfl, hiff⟩ := ih
    obtain ⟨t', hb, hpos⟩ := hgo t hns
    exact ⟨t', hpos, hiff.trans (terminates_next hb)⟩

/-- **Walks.** A loop that leaves at a stop, and otherwise moves its position forward by the length found there, ends iff no
record on its chain has length zero, provided the positions at which it goes on are bounded. -/
theorem walk_terminates_iff (stride : ℕ → ℕ) (hstop : ∀ s, stop (pos s) → ∃ a, body s = .inr a)
    (hgo : ∀ s, ¬ stop (pos s) → ∃ s', body s = .inl s' ∧ pos s' = pos s + stride (pos s)) {bound : ℕ}
    (hbound : ∀ o, ¬ stop o → o < bound) :
    Terminates body s ↔ ∀ o, Chain stop stride (pos s) o → ¬ stop o → stride o ≠ 0 := by
  constructor
  · intro hends o ho hns hzero
    obtain ⟨t, rfl, hiff⟩ := ho.reached hgo
    refine not_terminates (fun u => pos u = pos t) (fun u hu => ?_) rfl (hiff.1 hends)
    obtain ⟨u', hb, hpos⟩ := hgo u (hu ▸ hns)
    exact ⟨u', hb, by rw [hpos, hu, hzero, Nat.add_zero]⟩
  · intro h
    refine Terminates.of_measure (fun t => Chain stop stride (pos s) (pos t)) (fun t => bound - pos t) ?_ .start
    intro t t' ht hb
    have hns : ¬ stop (pos t) := fun hs => by
      obtain ⟨a, ha⟩ := hstop t hs
      rw [hb] at ha
      cases ha
    obtain ⟨u, hu, hpos⟩ := hgo t hns
    rw [hb] at hu
    cases hu
    have hlt := hbound (pos t) hns
    have hne := h (pos t) ht hns
    rw [hpos]
    exact ⟨.next _ ht hns, by omega⟩

end

end Tomorrow.Core
