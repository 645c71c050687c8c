/-
The past of a run: which states it went through, and when a property last held.

`At` are the states of a run by the number of events before them, `LastAt` is the last of them with a property and
`NeverAt` says there is none. Both are followed event by event:
- `LastAt.keep`, `NeverAt.keep`: an event after which the property does not hold changes neither;
- `LastAt.now`: a state with the property is the last one; after the next event it stays the last one if the property
  is lost (`LastAt.keep`);
- `LastAt.unique`: there is one last time.
-/
import Tomorrow.Core.Checked

namespace Tomorrow.Core

variable {σ ο ε : Type} {step : σ → ο → Except ε σ} {s u v w : σ} {ops : List ο} {o : ο} {t n : ℕ} {P : σ → Prop}

/-- u is the state after the first t events -/
def At (step : σ → ο → Except ε σ) (s : σ) (ops : List ο) (t : ℕ) (u : σ) : Prop :=
  t ≤ ops.length ∧ run step s (ops.take t) = .ok u

/-- P held last after the first t events, in state u -/
structure LastAt (step : σ → ο → Except ε σ) (s : σ) (ops : List ο) (P : σ → Prop) (t : ℕ) (u : σ) : Prop where
  here : At step s ops t u
  holds : P u
  after : ∀ n w, t < n → At step s ops n w → ¬ P w

/-- P has held in no state of the run -/
def NeverAt (step : σ → ο → Except ε σ) (s : σ) (ops : List ο) (P : σ → Prop) : Prop :=
  ∀ t u, At step s ops t u → ¬ P u

theorem at_end (h : run step s ops = .ok u) : At step s ops ops.length u :=
  ⟨le_refl _, by rw [List.take_length]; exact h⟩

theorem at_nil (h : At step s [] t u) : t = 0 ∧ u = s := by
  obtain ⟨hle, hr⟩ := h
  obtain rfl : t = 0 := Nat.le_zero.1 hle
  exact ⟨rfl, (Except.ok.inj hr).symm⟩

theorem At.unique (h : At step s ops t u) (h' : At step s ops t w) : u = w :=
  Except.ok.inj (h.2.symm.trans h'.2)

/-- the states of a longer run are those of the shorter one and the last one -/
theorem at_snoc (hu : run step s ops = .ok u) (hv : step u o = .ok v) :
    At step s (ops ++ [o]) n w ↔ At step s ops n w ∨ (n = ops.length + 1 ∧ w = v) := by
  unfold At
  have hlast : run step s (ops ++ [o]) = .ok v := run_snoc_ok.2 ⟨u, hu, hv⟩
  constructor
  · rintro ⟨hle, hr⟩
    rw [List.length_append, List.length_singleton] at hle
    rcases Nat.lt_or_eq_of_le hle with hlt | rfl
    · rw [List.take_append_of_le_length (Nat.le_of_lt_succ hlt)] at hr
      exact Or.inl ⟨Nat.le_of_lt_succ hlt, hr⟩
    · rw [List.take_of_length_le (by simp), hlast] at hr
      exact Or.inr ⟨rfl, (Except.ok.inj hr).symm⟩
  · rintro (⟨hle, hr⟩ | ⟨rfl, rfl⟩)
    · rw [List.take_append_of_le_length hle]
      exact ⟨by rw [List.length_append]; omega, hr⟩
    · rw [List.take_of_length_le (by simp)]
      exact ⟨by simp, hlast⟩

theorem LastAt.now (hu : run step s ops = .ok u) (h : P u) : LastAt step s ops P ops.length u where
  here := at_end hu
  holds := h
  after := fun _ _ hlt hat => absurd hat.1 (not_le.2 hlt)

theorem LastAt.keep (h : LastAt step s ops P t w) (hu : run step s ops = .ok u) (hv : step u o = .ok v) (hP : ¬ P v) :
    LastAt step s (ops ++ [o]) P t w where
  here := (at_snoc hu hv).2 (Or.inl h.here)
  holds := h.holds
  after := by
    intro n x hlt hat
    rcases (at_snoc hu hv).1 hat with hat | ⟨-, rfl⟩
    · exact h.after n x hlt hat
    · exact hP

theorem NeverAt.keep (h : NeverAt step s ops P) (hu : run step s ops = .ok u) (hv : step u o = .ok v) (hP : ¬ P v) :
    NeverAt step s (ops ++ [o]) P := by
  intro n x hat
  rcases (at_snoc hu hv).1 hat with hat | ⟨-, rfl⟩
  · exact h n x hat
  · exact hP

theorem LastAt.unique (h : LastAt step s ops P t u) (h' : LastAt step s ops P n w) : t = n ∧ u = w := by
  have htn : t = n := by
    rcases Nat.lt_trichotomy t n with hlt | he | hlt
    · exact absurd h'.holds (h.after n w hlt h'.here)
    · exact he
    · exact absurd h.holds (h'.after t u hlt h.here)
  subst htn
  exact ⟨rfl, h.here.unique h'.here⟩

end Tomorrow.Core
