/-
Checked machine arithmetic and fallible runs, independent of any particular program.

A debug build of a Rust program panics on `usize`/`u64` overflow, on an index out of bounds, on a failed `assert!` or
`expect` and on an explicit `panic!`. Values are natural numbers below 2^64 and every arithmetic operation that may leave
this range is a computation in `Except Panic`:
- `ckAdd`, `ckSub`, `ckMul`: the overflow-checked operators; `checkedAdd`, `checkedMul` are the methods that return an
  `Option`;
- `andNot`: `x & !m` on 64-bit words; `andNot_two_pow` says that masking off the low k bits rounds down to 2^k;
- `Fails`: which panics a computation can end in, with its rule for sequencing;
- `run`: a trace of operations through a fallible step function. A panic ends the run.
- `run_invariant`: what every successful step preserves holds in every state a run reaches.
-/
import Mathlib.Tactic

namespace Tomorrow.Core

/-! ## Panics -/

/-- why a Rust program stops -/
inductive Panic where
  | overflow
  | bounds
  | assertion
  | expect (msg : String)
  | explicit (msg : String)
deriving DecidableEq, Repr

theorem bind_ok {ε α β : Type} {x : Except ε α} {f : α → Except ε β} {b : β} :
    (x >>= f) = .ok b ↔ ∃ a, x = .ok a ∧ f a = .ok b := by
  cases x with
  | error e => simp [bind, Except.bind]
  | ok a => simp [bind, Except.bind]

@[simp] theorem ok_bind {ε α β : Type} (a : α) (f : α → Except ε β) : ((.ok a : Except ε α) >>= f) = f a := rfl

@[simp] theorem error_bind {ε α β : Type} (e : ε) (f : α → Except ε β) :
    ((.error e : Except ε α) >>= f) = .error e := rfl

@[simp] theorem pure_eq_ok {ε α : Type} (a : α) : (pure a : Except ε α) = .ok a := rfl

/-- every panic of the computation satisfies P -/
def Fails {α : Type} (P : Panic → Prop) (x : Except Panic α) : Prop := ∀ e, x = .error e → P e

theorem Fails.ok {α : Type} {P : Panic → Prop} (a : α) : Fails P (.ok a : Except Panic α) := fun _ h => by cases h

theorem Fails.bind {α β : Type} {P : Panic → Prop} {x : Except Panic α} {f : α → Except Panic β} (hx : Fails P x)
    (hf : ∀ a, x = .ok a → Fails P (f a)) : Fails P (x >>= f) := by
  intro e h
  cases x with
  | error e' => exact hx e (by rw [error_bind] at h; rw [Except.error.inj h])
  | ok a => exact hf a rfl e h

/-! ## 64-bit words -/

/-- `a + b`, panicking on overflow -/
def ckAdd (a b : ℕ) : Except Panic ℕ := if a + b < 2 ^ 64 then .ok (a + b) else .error .overflow

/-- `a - b`, panicking on underflow -/
def ckSub (a b : ℕ) : Except Panic ℕ := if b ≤ a then .ok (a - b) else .error .overflow

/-- `a * b`, panicking on overflow -/
def ckMul (a b : ℕ) : Except Panic ℕ := if a * b < 2 ^ 64 then .ok (a * b) else .error .overflow

/-- `a.checked_add(b)` -/
def checkedAdd (a b : ℕ) : Option ℕ := if a + b < 2 ^ 64 then some (a + b) else none

/-- `a.checked_mul(b)` -/
def checkedMul (a b : ℕ) : Option ℕ := if a * b < 2 ^ 64 then some (a * b) else none

/-- `assert!(p)` -/
def ckAssert (p : Prop) [Decidable p] : Except Panic Unit := if p then .ok () else .error .assertion

theorem ckAdd_eq {a b : ℕ} (h : a + b < 2 ^ 64) : ckAdd a b = .ok (a + b) := if_pos h

theorem ckSub_eq {a b : ℕ} (h : b ≤ a) : ckSub a b = .ok (a - b) := if_pos h

theorem ckAssert_eq {p : Prop} [Decidable p] (h : p) : ckAssert p = .ok () := if_pos h

/-- what follows an assertion runs exactly when it holds -/
theorem ckAssert_bind_ok {α : Type} {p : Prop} [Decidable p] {f : Unit → Except Panic α} {r : α} :
    (ckAssert p >>= f) = .ok r ↔ p ∧ f () = .ok r := by
  unfold ckAssert
  split_ifs with h <;> simp [h]

theorem ckAdd_fails {P : Panic → Prop} (h : P .overflow) (a b : ℕ) : Fails P (ckAdd a b) := by
  intro e he
  unfold ckAdd at he
  split at he <;> cases he
  exact h

theorem ckSub_fails {P : Panic → Prop} (h : P .overflow) (a b : ℕ) : Fails P (ckSub a b) := by
  intro e he
  unfold ckSub at he
  split at he <;> cases he
  exact h

theorem ckMul_fails {P : Panic → Prop} (h : P .overflow) (a b : ℕ) : Fails P (ckMul a b) := by
  intro e he
  unfold ckMul at he
  split at he <;> cases he
  exact h

theorem ckAdd_ok {a b c : ℕ} : ckAdd a b = .ok c ↔ a + b < 2 ^ 64 ∧ c = a + b := by
  unfold ckAdd
  split_ifs with h
  · exact ⟨fun e => ⟨h, (Except.ok.inj e).symm⟩, fun e => by rw [e.2]⟩
  · exact ⟨fun e => (by cases e), fun e => absurd e.1 h⟩

theorem ckSub_ok {a b c : ℕ} : ckSub a b = .ok c ↔ b ≤ a ∧ c = a - b := by
  unfold ckSub; split_ifs with h <;> simp [h, eq_comm]

theorem ckMul_ok {a b c : ℕ} : ckMul a b = .ok c ↔ a * b < 2 ^ 64 ∧ c = a * b := by
  unfold ckMul
  split_ifs with h
  · exact ⟨fun e => ⟨h, (Except.ok.inj e).symm⟩, fun e => by rw [e.2]⟩
  · exact ⟨fun e => (by cases e), fun e => absurd e.1 h⟩

/-- `x & !m` on 64-bit words -/
def andNot (x m : ℕ) : ℕ := x &&& (2 ^ 64 - 1 - m)

/-- masking off the low k bits rounds down to a multiple of 2^k -/
theorem andNot_two_pow {x k : ℕ} (hx : x < 2 ^ 64) (hk : k ≤ 64) :
    andNot x (2 ^ k - 1) = x / 2 ^ k * 2 ^ k := by
  have hle : 2 ^ k ≤ 2 ^ 64 := Nat.pow_le_pow_right (by omega) hk
  have hpos : 0 < 2 ^ k := Nat.two_pow_pos k
  apply Nat.eq_of_testBit_eq
  intro i
  have hm : 2 ^ 64 - 1 - (2 ^ k - 1) = 2 ^ 64 - ((2 ^ k - 1) + 1) := by
    rw [Nat.sub_sub, Nat.add_comm 1]
  rw [andNot, Nat.testBit_and, hm, Nat.testBit_two_pow_sub_succ (by omega), Nat.testBit_two_pow_sub_one,
    Nat.testBit_mul_two_pow, Nat.testBit_div_two_pow]
  by_cases hik : k ≤ i
  · by_cases hi : i < 64
    · simp [hik, hi]
    · have hlt : x < 2 ^ i := lt_of_lt_of_le hx (Nat.pow_le_pow_right (by omega) (by omega))
      simp [Nat.sub_add_cancel hik, Nat.testBit_lt_two_pow hlt]
  · simp [hik]
    omega

/-! ## Runs -/

section Run

variable {σ ο ε : Type}

/-- a trace of operations through a fallible step function -/
def run (step : σ → ο → Except ε σ) : σ → List ο → Except ε σ
  | s, [] => .ok s
  | s, o :: ops => step s o >>= fun t => run step t ops

theorem run_append (step : σ → ο → Except ε σ) (s : σ) (a b : List ο) :
    run step s (a ++ b) = run step s a >>= fun t => run step t b := by
  induction a generalizing s with
  | nil => rfl
  | cons o a ih =>
    simp only [List.cons_append, run]
    cases h : step s o with
    | error e => rfl
    | ok t => exact ih t

theorem run_snoc_ok {step : σ → ο → Except ε σ} {s t : σ} {l : List ο} {o : ο} :
    run step s (l ++ [o]) = .ok t ↔ ∃ u, run step s l = .ok u ∧ step u o = .ok t := by
  rw [run_append, bind_ok]
  refine exists_congr fun u => and_congr_right fun _ => ?_
  simp only [run, bind_ok]
  exact ⟨fun ⟨a, h1, h2⟩ => by rw [h1]; exact h2, fun h => ⟨t, h, rfl⟩⟩

/-- the states a run passes through: every prefix of a successful run is successful -/
theorem run_take_ok {step : σ → ο → Except ε σ} {s t : σ} {ops : List ο} (h : run step s ops = .ok t) (j : ℕ) :
    ∃ u, run step s (ops.take j) = .ok u ∧ run step u (ops.drop j) = .ok t := by
  rw [← List.take_append_drop j ops, run_append, bind_ok] at h
  exact h

/-- **Invariant rule.** What every successful step preserves holds in every state a run reaches. -/
theorem run_invariant {step : σ → ο → Except ε σ} {I : σ → Prop}
    (hstep : ∀ s o t, I s → step s o = .ok t → I t) {s t : σ} {ops : List ο} (hs : I s)
    (h : run step s ops = .ok t) : I t := by
  induction ops generalizing s with
  | nil => simp only [run, Except.ok.injEq] at h; exact h ▸ hs
  | cons o ops ih =>
    obtain ⟨u, hu, ht⟩ := bind_ok.1 h
    exact ih (hstep s o u hs hu) ht

end Run

end Tomorrow.Core
