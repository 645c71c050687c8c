/-
A sequential program among others that share its state, independent of any particular program.

Most moves of a program touch only its own state (`next`); now and then it acts on the shared one (`act`), where the other
side may leave part of the result open (γ). It moves only while it has its turn. In a run the steps of others come in
between, anywhere; the index of `Run` counts the program's own moves.

The rule is Floyd's, with cut points at the start of the code between two actions. An assertion A n s k at a cut point says
what is known of both states and, by n, how many moves are left at most. If others keep A, and from every cut point the
code leads to an action after which A holds again with a smaller n (`Block`), then:
- `Run.plan`: every state of every run is part of the way from a cut point at which A holds now;
- `Run.bounded`: the program makes at most the n moves it started with, if no n is negative;
- `Run.progress`: it is done, or it can move when it has its turn;
- `Run.finished`: when it is done, A holds.
A program that may go on for ever has assertions that ignore n.

`replay` evaluates a run that is given as a list of own moves and steps of others (`Run.replay`).
-/
import Mathlib.Tactic

namespace Tomorrow.Core

structure Client (σ κ γ : Type) where
  /-- a move that touches the program's own state only; none at an action or at the end -/
  next : σ → Option σ
  /-- the action of a program state on the shared state -/
  act : γ → σ → κ → Option (σ × κ)
  turn : κ → Prop
  done : σ → Prop
  next_done : ∀ s, done s → next s = none
  act_done : ∀ s, done s → ∀ c k, act c s k = none

namespace Client

variable {σ κ γ : Type} (C : Client σ κ γ)

/-- n moves without an action -/
def alone : ℕ → σ → Option σ
  | 0, s => some s
  | n + 1, s => (C.next s).bind (alone n)

/-- runs from (s₀, k₀), with steps of others anywhere -/
inductive Run (env : κ → κ → Prop) (s₀ : σ) (k₀ : κ) : ℕ → σ → κ → Prop where
  | start : Run env s₀ k₀ 0 s₀ k₀
  | alone {n : ℕ} {s s' : σ} {k : κ} (h : Run env s₀ k₀ n s k) (ht : C.turn k) (hs : C.next s = some s') :
      Run env s₀ k₀ (n + 1) s' k
  | act {n : ℕ} {s s' : σ} {k k' : κ} (c : γ) (h : Run env s₀ k₀ n s k) (ht : C.turn k) (hs : C.next s = none)
      (ha : C.act c s k = some (s', k')) : Run env s₀ k₀ (n + 1) s' k'
  | others {n : ℕ} {s : σ} {k k' : κ} (h : Run env s₀ k₀ n s k) (he : env k k') : Run env s₀ k₀ n s k'

/-- from the cut point s, m moves lead to an action, and the action to a cut point -/
def Block (A : ℤ → σ → κ → Prop) (n : ℤ) (s : σ) : Prop :=
  ∃ m t, C.alone m s = some t ∧ C.next t = none ∧ ¬ C.done t ∧ ∀ k, A n s k → C.turn k → ∀ c,
    ∃ s' k' n', C.act c t k = some (s', k') ∧ A n' s' k' ∧ n' + m + 1 ≤ n

variable {C}

theorem alone_add {m n : ℕ} {s t : σ} (h : C.alone m s = some t) : C.alone (m + n) s = C.alone n t := by
  induction m generalizing s with
  | zero =>
    cases h
    rw [Nat.zero_add]
  | succ m ih =>
    rw [alone, Option.bind_eq_some_iff] at h
    obtain ⟨u, hu, h⟩ := h
    rw [Nat.add_right_comm, alone, hu]
    exact ih h

/-- a program is somewhere on the way to the next action: it can go on alone, or it is there -/
theorem alone_cases {m j : ℕ} {s s' t : σ} (hm : C.alone m s = some t) (ht : C.next t = none)
    (hj : C.alone j s = some s') : (C.next s' = none ∧ j = m ∧ s' = t) ∨ ∃ u, C.next s' = some u ∧ j < m := by
  rcases Nat.lt_trichotomy j m with hlt | heq | hgt
  · obtain ⟨d, rfl⟩ : ∃ d, m = j + (d + 1) := ⟨m - j - 1, by omega⟩
    rw [alone_add hj, alone, Option.bind_eq_some_iff] at hm
    obtain ⟨u, hu, -⟩ := hm
    exact Or.inr ⟨u, hu, hlt⟩
  · subst heq
    rw [hm] at hj
    cases hj
    exact Or.inl ⟨ht, rfl, rfl⟩
  · obtain ⟨d, rfl⟩ : ∃ d, j = m + (d + 1) := ⟨j - m - 1, by omega⟩
    rw [alone_add hm, alone, ht] at hj
    cases hj

theorem alone_done {j : ℕ} {s s' : σ} (hs : C.done s) (hj : C.alone j s = some s') : j = 0 ∧ s = s' := by
  cases j with
  | zero =>
    cases hj
    exact ⟨rfl, rfl⟩
  | succ j =>
    rw [alone, C.next_done s hs] at hj
    cases hj

section Rule

variable {A : ℤ → σ → κ → Prop} {env : κ → κ → Prop} {s₀ : σ} {k₀ : κ}

/-- the state is part of the way from a cut point at which A holds; a program that has left the cut point had its turn -/
def OnWay (C : Client σ κ γ) (A : ℤ → σ → κ → Prop) (N : ℤ) (c : ℕ) (s : σ) (k : κ) : Prop :=
  ∃ n s₁ j, A n s₁ k ∧ C.alone j s₁ = some s ∧ c + n ≤ N + j ∧ (j = 0 ∨ ∃ k', A n s₁ k' ∧ C.turn k')

/-- **The rule.** Others keep A, and every block leads from A to A. -/
theorem Run.plan (hstable : ∀ n s k k', A n s k → env k k' → A n s k')
    (hblock : ∀ n s k, A n s k → C.done s ∨ C.Block A n s) {N : ℤ} (h0 : A N s₀ k₀) {c : ℕ} {s : σ} {k : κ}
    (hr : C.Run env s₀ k₀ c s k) : OnWay C A N c s k := by
  induction hr with
  | start => exact ⟨N, s₀, 0, h0, rfl, by simp, Or.inl rfl⟩
  | @alone c s s' k h ht hs ih =>
    obtain ⟨n, s₁, j, hA, hj, hle, -⟩ := ih
    refine ⟨n, s₁, j + 1, hA, ?_, by push_cast; omega, Or.inr ⟨k, hA, ht⟩⟩
    rw [alone_add hj, Client.alone, hs]
    rfl
  | @act c s s' k k' e h ht hs ha ih =>
    obtain ⟨n, s₁, j, hA, hj, hle, -⟩ := ih
    rcases hblock n s₁ k hA with hdone | ⟨m, t, hm, hnext, -, hact⟩
    · obtain ⟨-, rfl⟩ := alone_done hdone hj
      rw [C.act_done _ hdone] at ha
      cases ha
    · rcases alone_cases hm hnext hj with ⟨-, rfl, rfl⟩ | ⟨u, hu, -⟩
      · obtain ⟨s'', k'', n', ha', hA', hn'⟩ := hact k hA ht e
        rw [ha] at ha'
        cases ha'
        exact ⟨n', _, 0, hA', rfl, by push_cast; omega, Or.inl rfl⟩
      · rw [hs] at hu
        cases hu
  | @others c s k k' h he ih =>
    obtain ⟨n, s₁, j, hA, hj, hle, hturn⟩ := ih
    exact ⟨n, s₁, j, hstable n s₁ k k' hA he, hj, hle, hturn⟩

/-- **Termination.** If the count of moves left is never negative, the program makes at most N moves. -/
theorem Run.bounded [Inhabited γ] (hstable : ∀ n s k k', A n s k → env k k' → A n s k')
    (hblock : ∀ n s k, A n s k → C.done s ∨ C.Block A n s) (hpos : ∀ n s k, A n s k → 0 ≤ n) {N : ℤ} (h0 : A N s₀ k₀)
    {c : ℕ} {s : σ} {k : κ} (hr : C.Run env s₀ k₀ c s k) : (c : ℤ) ≤ N := by
  obtain ⟨n, s₁, j, hA, hj, hle, hturn⟩ := hr.plan hstable hblock h0
  have hn := hpos n s₁ k hA
  rcases hturn with rfl | ⟨k', hA', ht⟩
  · push_cast at hle
    omega
  · rcases hblock n s₁ k' hA' with hdone | ⟨m, t, hm, hnext, -, hact⟩
    · obtain ⟨rfl, -⟩ := alone_done hdone hj
      push_cast at hle
      omega
    · obtain ⟨s'', k'', n', -, hA'', hn'⟩ := hact k' hA' ht default
      have := hpos n' s'' k'' hA''
      rcases alone_cases hm hnext hj with ⟨-, rfl, -⟩ | ⟨u, -, hlt⟩ <;> omega

/-- **Progress.** A program that has its turn is done or can move. -/
theorem Run.progress (hstable : ∀ n s k k', A n s k → env k k' → A n s k')
    (hblock : ∀ n s k, A n s k → C.done s ∨ C.Block A n s) {N : ℤ} (h0 : A N s₀ k₀) {c : ℕ} {s : σ} {k : κ}
    (hr : C.Run env s₀ k₀ c s k) (ht : C.turn k) (e : γ) :
    C.done s ∨ (∃ s', C.next s = some s') ∨ ∃ s' k', C.next s = none ∧ C.act e s k = some (s', k') := by
  obtain ⟨n, s₁, j, hA, hj, -, -⟩ := hr.plan hstable hblock h0
  rcases hblock n s₁ k hA with hdone | ⟨m, t, hm, hnext, -, hact⟩
  · obtain ⟨-, rfl⟩ := alone_done hdone hj
    exact Or.inl hdone
  · rcases alone_cases hm hnext hj with ⟨hs, rfl, rfl⟩ | ⟨u, hu, -⟩
    · obtain ⟨s', k', n', ha, -, -⟩ := hact k hA ht e
      exact Or.inr (Or.inr ⟨s', k', hs, ha⟩)
    · exact Or.inr (Or.inl ⟨u, hu⟩)

/-- **The end.** A program that is done is at a cut point. -/
theorem Run.finished (hstable : ∀ n s k k', A n s k → env k k' → A n s k')
    (hblock : ∀ n s k, A n s k → C.done s ∨ C.Block A n s) {N : ℤ} (h0 : A N s₀ k₀) {c : ℕ} {s : σ} {k : κ}
    (hr : C.Run env s₀ k₀ c s k) (hs : C.done s) : ∃ n, A n s k := by
  obtain ⟨n, s₁, j, hA, hj, -, -⟩ := hr.plan hstable hblock h0
  rcases hblock n s₁ k hA with hdone | ⟨m, t, hm, hnext, hnot, -⟩
  · obtain ⟨-, rfl⟩ := alone_done hdone hj
    exact ⟨n, hA⟩
  · rcases alone_cases hm hnext hj with ⟨-, -, rfl⟩ | ⟨u, hu, -⟩
    · exact absurd hs hnot
    · rw [C.next_done s hs] at hu
      cases hu

end Rule

/-! ## Runs by evaluation -/

section Replay

variable (C) [DecidablePred C.turn] {ε : Type} {env : κ → κ → Prop} {s₀ : σ} {k₀ : κ}

/-- n moves in a row, with one choice for all actions; none where the program cannot move -/
def moves (c : γ) : ℕ → σ → κ → Option (σ × κ)
  | 0, s, k => some (s, k)
  | n + 1, s, k =>
    if C.turn k then
      match C.next s with
      | some s' => moves c n s' k
      | none => (C.act c s k).bind fun r => moves c n r.1 r.2
    else none

/-- own moves, so many in a row, and steps of others -/
def replay (other : ε → κ → Option κ) (c : γ) : List (ℕ ⊕ ε) → ℕ → σ → κ → Option (ℕ × σ × κ)
  | [], n, s, k => some (n, s, k)
  | .inl m :: l, n, s, k => (C.moves c m s k).bind fun r => replay other c l (n + m) r.1 r.2
  | .inr e :: l, n, s, k => (other e k).bind fun k' => replay other c l n s k'

variable {C}

theorem Run.moves {c : γ} {n m : ℕ} {s s' : σ} {k k' : κ} (hr : C.Run env s₀ k₀ n s k)
    (h : C.moves c m s k = some (s', k')) : C.Run env s₀ k₀ (n + m) s' k' := by
  induction m generalizing n s k with
  | zero =>
    cases h
    exact hr
  | succ m ih =>
    rw [Client.moves] at h
    split_ifs at h with ht
    rw [Nat.add_comm m, ← Nat.add_assoc]
    cases hs : C.next s with
    | some u =>
      rw [hs] at h
      exact ih (hr.alone ht hs) h
    | none =>
      rw [hs] at h
      obtain ⟨r, ha, h⟩ := Option.bind_eq_some_iff.1 h
      exact ih (hr.act c ht hs ha) h

theorem Run.replay {other : ε → κ → Option κ} (hother : ∀ e k k', other e k = some k' → env k k') {c : γ}
    {l : List (ℕ ⊕ ε)} {n n' : ℕ} {s s' : σ} {k k' : κ} (hr : C.Run env s₀ k₀ n s k)
    (h : C.replay other c l n s k = some (n', s', k')) : C.Run env s₀ k₀ n' s' k' := by
  induction l generalizing n s k with
  | nil =>
    cases h
    exact hr
  | cons x l ih =>
    cases x with
    | inl m =>
      obtain ⟨r, hm, h⟩ := Option.bind_eq_some_iff.1 h
      exact ih (hr.moves hm) h
    | inr e =>
      obtain ⟨u, hu, h⟩ := Option.bind_eq_some_iff.1 h
      exact ih (hr.others (hother e k u hu)) h

end Replay

end Client

end Tomorrow.Core
