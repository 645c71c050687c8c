/-
Programs that are watched: ghost events beside the events of the program, for any types of both.

`act` is a program whose events are its own, `observe` a ghost event. `erase` forgets the ghost events, so that a watched
program whose erasure is the original one says something about the original: value and state are the same.

- `triple_act`: a triple for a part that is not watched;
- `seen_bind` and the rules beside it: how many ghost events of a kind there are;
- `does_bind` and the rules beside it: what a program does in terms of its log, when it returns and when it stops.
-/
import Tomorrow.Core.Logged

namespace Tomorrow.Core

variable {ε γ σ α β : Type}

/-! ## The monad laws -/

namespace Logged

theorem ext {x y : Logged ε α} (hlog : x.log = y.log) (hvalue : x.value = y.value) : x = y := by
  cases x
  cases y
  rw [Logged.mk.injEq]
  exact ⟨hlog, hvalue⟩

theorem map_id (x : Logged ε α) : id <$> x = x := by
  cases hx : x.value with
  | none =>
    obtain ⟨hlog, hvalue⟩ := bind_of_none hx fun a => (pure (id a) : Logged ε α)
    exact ext hlog (hvalue.trans hx.symm)
  | some a =>
    obtain ⟨hlog, hvalue⟩ := bind_of_some hx fun a => (pure (id a) : Logged ε α)
    exact ext (hlog.trans (List.append_nil _)) (hvalue.trans hx.symm)

theorem assoc {δ : Type} (x : Logged ε α) (f : α → Logged ε β) (g : β → Logged ε δ) :
    x >>= f >>= g = x >>= fun a => f a >>= g := by
  cases hx : x.value with
  | none =>
    obtain ⟨hlog, hvalue⟩ := bind_of_none hx f
    obtain ⟨hlog', hvalue'⟩ := bind_of_none hx fun a => f a >>= g
    exact ext ((bind_of_none hvalue g).1.trans (hlog.trans hlog'.symm)) ((bind_of_none hvalue g).2.trans hvalue'.symm)
  | some a =>
    obtain ⟨hlog, hvalue⟩ := bind_of_some hx f
    obtain ⟨hlog', hvalue'⟩ := bind_of_some hx fun a => f a >>= g
    cases hf : (f a).value with
    | none =>
      obtain ⟨hl, hv⟩ := bind_of_none (hvalue.trans hf) g
      obtain ⟨hl', hv'⟩ := bind_of_none hf g
      refine ext ?_ ?_
      · rw [hl, hlog, hlog', hl']
      · rw [hv, hvalue', hv']
    | some b =>
      obtain ⟨hl, hv⟩ := bind_of_some (hvalue.trans hf) g
      obtain ⟨hl', hv'⟩ := bind_of_some hf g
      refine ext ?_ ?_
      · rw [hl, hlog, hlog', hl', List.append_assoc]
      · rw [hv, hvalue', hv']

instance instLawfulMonad : LawfulMonad (Logged ε) := LawfulMonad.mk' (Logged ε) map_id (fun _ _ => rfl) assoc

end Logged

/-! ## Ghost events -/

/-- the ghost events of a log -/
def ghosts (l : List (ε ⊕ γ)) : List γ := l.filterMap Sum.getRight?

@[simp] theorem ghosts_append (l l' : List (ε ⊕ γ)) : ghosts (l ++ l') = ghosts l ++ ghosts l' := List.filterMap_append

@[simp] theorem ghosts_map_inl (l : List ε) : ghosts (l.map Sum.inl : List (ε ⊕ γ)) = [] := by
  simp [ghosts, List.filterMap_map]

@[simp] theorem ghosts_inr (g : γ) : ghosts [(.inr g : ε ⊕ γ)] = [g] := rfl

/-- a program that is not watched -/
def act (x : StateT σ (Logged ε) α) : StateT σ (Logged (ε ⊕ γ)) α := fun s => ⟨(x s).log.map Sum.inl, (x s).value⟩

def observe (g : γ) : StateT σ (Logged (ε ⊕ γ)) Unit := emit (.inr g)

/-- the program without the ghost events -/
def erase (x : StateT σ (Logged (ε ⊕ γ)) α) : StateT σ (Logged ε) α :=
  fun s => ⟨(x s).log.filterMap Sum.getLeft?, (x s).value⟩

section

variable {x : StateT σ (Logged (ε ⊕ γ)) α} {f : α → StateT σ (Logged (ε ⊕ γ)) β}

@[simp] theorem erase_pure (a : α) : erase (pure a : StateT σ (Logged (ε ⊕ γ)) α) = pure a := rfl

@[simp] theorem erase_act (x : StateT σ (Logged ε) α) : erase (act x : StateT σ (Logged (ε ⊕ γ)) α) = x := by
  funext s
  refine Logged.ext ?_ rfl
  have hleft : Sum.getLeft? ∘ (Sum.inl : ε → ε ⊕ γ) = some := rfl
  rw [erase, act, List.filterMap_map, hleft, List.filterMap_some]

@[simp] theorem erase_observe (g : γ) : erase (observe g : StateT σ (Logged (ε ⊕ γ)) Unit) = pure () := rfl

@[simp] theorem erase_bind : erase (x >>= f) = erase x >>= fun a => erase (f a) := by
  funext s
  cases hx : (x s).value with
  | none =>
    obtain ⟨hlog, hvalue⟩ := then_of_none hx f
    obtain ⟨hlog', hvalue'⟩ := then_of_none (x := erase x) hx fun a => erase (f a)
    refine Logged.ext ?_ (hvalue.trans hvalue'.symm)
    rw [hlog', erase, hlog]
    rfl
  | some r =>
    obtain ⟨hlog, hvalue⟩ := then_of_some hx f
    obtain ⟨hlog', hvalue'⟩ := then_of_some (x := erase x) hx fun a => erase (f a)
    refine Logged.ext ?_ (hvalue.trans hvalue'.symm)
    rw [hlog', erase, hlog, List.filterMap_append]
    rfl

@[simp] theorem erase_ite {p : Prop} [Decidable p] {y : StateT σ (Logged (ε ⊕ γ)) α} :
    erase (if p then x else y) = if p then erase x else erase y := by
  split_ifs <;> rfl

@[simp] theorem erase_anyRange {f : ℕ → α → StateT σ (Logged (ε ⊕ γ)) (Bool × α)} (i n : ℕ) (a : α) :
    erase (anyRange f i n a) = anyRange (fun j b => erase (f j b)) i n a := by
  induction n generalizing i a with
  | zero => rfl
  | succ n ih => simp [anyRange, ih]

/-- a part that is not watched -/
theorem triple_act {ok : List (ε ⊕ γ) → ε ⊕ γ → Prop} {P : List (ε ⊕ γ) → σ → Prop} {Q : α → List (ε ⊕ γ) → σ → Prop}
    {x : StateT σ (Logged ε) α} (hok : ∀ h e, ok h (.inl e))
    (hx : ∀ h s a s', P h s → (x s).value = some (a, s') → Q a (h ++ (x s).log.map Sum.inl) s') :
    Triple ok P (act x) Q := by
  intro h s hs
  refine ⟨allowed_of_forall fun e he h' _ => ?_, fun a s' ha => hx h s a s' hs ha⟩
  obtain ⟨e', -, rfl⟩ := List.mem_map.1 he
  exact hok h' e'

/-! ## Counting -/

/-- in every run there are at most n ghost events of kind p -/
def Seen (p : γ → Bool) (n : ℕ) (x : StateT σ (Logged (ε ⊕ γ)) α) : Prop := ∀ s, (ghosts (x s).log).countP p ≤ n

variable {p : γ → Bool} {n m : ℕ}

theorem seen_mono (hx : Seen p n x) (hle : n ≤ m) : Seen p m x := fun s => Nat.le_trans (hx s) hle

theorem seen_pure (a : α) : Seen p n (pure a : StateT σ (Logged (ε ⊕ γ)) α) := fun _ => Nat.zero_le n

theorem seen_act (x : StateT σ (Logged ε) α) : Seen p 0 (act x) := fun s => by simp [act]

theorem seen_observe (g : γ) : Seen p 1 (observe g : StateT σ (Logged (ε ⊕ γ)) Unit) :=
  fun _ => List.countP_le_length

theorem yields_act {F : α → Prop} {x : StateT σ (Logged ε) α} (hx : Yields F x) :
    Yields F (act x : StateT σ (Logged (ε ⊕ γ)) α) := hx

theorem seen_bind {F : α → Prop} (hx : Seen p n x) (hF : Yields F x) (hf : ∀ a, F a → Seen p m (f a)) :
    Seen p (n + m) (x >>= f) := by
  intro s
  cases hr : (x s).value with
  | none =>
    rw [(then_of_none hr f).1]
    exact Nat.le_trans (hx s) (Nat.le_add_right n m)
  | some r =>
    rw [(then_of_some hr f).1, ghosts_append, List.countP_append]
    exact Nat.add_le_add (hx s) (hf r.1 (hF s r.1 r.2 hr) r.2)

theorem seen_ite {c : Prop} [Decidable c] {y : StateT σ (Logged (ε ⊕ γ)) α} (hx : Seen p n x) (hy : Seen p n y) :
    Seen p n (if c then x else y) := by
  split_ifs
  · exact hx
  · exact hy

theorem seen_anyRange {f : ℕ → α → StateT σ (Logged (ε ⊕ γ)) (Bool × α)} (hf : ∀ j a, Seen p n (f j a)) (i k : ℕ) (a : α) :
    Seen p (k * n) (anyRange f i k a) := by
  induction k generalizing i a with
  | zero => exact seen_pure false
  | succ k ih =>
    rw [Nat.succ_mul, Nat.add_comm]
    exact seen_bind (hf i a) (yields_true _) fun r _ => seen_ite (seen_pure true) (ih (i + 1) r.2)

end

/-! ## What a program does -/

/-- where it returns, states and log are related by R; where it stops, by B -/
structure Does (R : σ → List ε → σ → Prop) (B : σ → List ε → Prop) (x : StateT σ (Logged ε) α) : Prop where
  returns : ∀ s a s', (x s).value = some (a, s') → R s (x s).log s'
  stops : ∀ s, (x s).value = none → B s (x s).log

/-- the relations go together step after step -/
structure Composes (R : σ → List ε → σ → Prop) (B : σ → List ε → Prop) : Prop where
  refl : ∀ s, R s [] s
  trans : ∀ s l s' l' s'', R s l s' → R s' l' s'' → R s (l ++ l') s''
  stop : ∀ s l s' l', R s l s' → B s' l' → B s (l ++ l')

section

variable {R : σ → List ε → σ → Prop} {B : σ → List ε → Prop} {x y : StateT σ (Logged ε) α} {f : α → StateT σ (Logged ε) β}

theorem does_pure (hc : Composes R B) (a : α) : Does R B (pure a) := by
  refine ⟨fun s b s' hb => ?_, fun s hs => nomatch hs⟩
  cases hb
  exact hc.refl s

theorem does_bind (hc : Composes R B) (hx : Does R B x) (hf : ∀ a, Does R B (f a)) : Does R B (x >>= f) := by
  constructor
  · intro s b s'' hs
    cases hr : (x s).value with
    | none =>
      rw [(then_of_none hr f).2] at hs
      cases hs
    | some r =>
      obtain ⟨hlog, hvalue⟩ := then_of_some hr f
      rw [hvalue] at hs
      rw [hlog]
      exact hc.trans s _ r.2 _ s'' (hx.returns s r.1 r.2 hr) ((hf r.1).returns r.2 b s'' hs)
  · intro s hs
    cases hr : (x s).value with
    | none =>
      rw [(then_of_none hr f).1]
      exact hx.stops s hr
    | some r =>
      obtain ⟨hlog, hvalue⟩ := then_of_some hr f
      rw [hvalue] at hs
      rw [hlog]
      exact hc.stop s _ r.2 _ (hx.returns s r.1 r.2 hr) ((hf r.1).stops r.2 hs)

theorem does_ite {c : Prop} [Decidable c] (hx : Does R B x) (hy : Does R B y) : Does R B (if c then x else y) := by
  split_ifs
  · exact hx
  · exact hy

theorem does_get {f : σ → StateT σ (Logged ε) β} (hf : ∀ s, Does R B (f s)) : Does R B (get >>= f) :=
  ⟨fun s a s' hs => (hf s).returns s a s' hs, fun s hs => (hf s).stops s hs⟩

theorem does_forRange (hc : Composes R B) {f : ℕ → α → StateT σ (Logged ε) α} (hf : ∀ j a, Does R B (f j a)) (i n : ℕ)
    (a : α) : Does R B (forRange f i n a) := by
  induction n generalizing i a with
  | zero => exact does_pure hc a
  | succ n ih => exact does_bind hc (hf i a) fun b => ih (i + 1) b

theorem does_anyRange (hc : Composes R B) {f : ℕ → α → StateT σ (Logged ε) (Bool × α)} (hf : ∀ j a, Does R B (f j a))
    (i n : ℕ) (a : α) : Does R B (anyRange f i n a) := by
  induction n generalizing i a with
  | zero => exact does_pure hc false
  | succ n ih => exact does_bind hc (hf i a) fun r => does_ite (does_pure hc true) (ih (i + 1) r.2)

end

end Tomorrow.Core
