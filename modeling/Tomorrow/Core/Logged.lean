/-
Computations that leave a log, for any type of events, and rules for what their logs and results are.

`Logged` is a computation that has caused some events and either returned or stopped (a panic, or a loop cut off by its
fuel). There are two ways to speak about one:
- `Safe`: it returns a value and every event has a property; it splits over `>>=` as an equivalence (`safe_bind`,
  `safe_bind_of`);
- `Triple`, for computations with a state: every event is allowed by the events before it, whether or not the computation
  returns, with a precondition and a postcondition on the history and the state.
-/
import Mathlib.Data.List.Basic

namespace Tomorrow.Core

/-! ## The monad -/

/-- the events caused so far, and the value returned, if any -/
structure Logged (ε α : Type) where
  log : List ε
  value : Option α

variable {ε σ α β : Type}

namespace Logged

/-- one event -/
def note (e : ε) (a : α) : Logged ε α := ⟨[e], some a⟩

/-- no return -/
def stop : Logged ε α := ⟨[], none⟩

def ofOption (v : Option α) : Logged ε α := ⟨[], v⟩

def bind (x : Logged ε α) (f : α → Logged ε β) : Logged ε β :=
  match x.value with
  | none => ⟨x.log, none⟩
  | some a => ⟨x.log ++ (f a).log, (f a).value⟩

instance instMonad : Monad (Logged ε) where
  pure a := ⟨[], some a⟩
  bind := bind

@[simp] theorem pure_log (a : α) : (pure a : Logged ε α).log = [] := rfl

theorem bind_of_some {x : Logged ε α} {a : α} (h : x.value = some a) (f : α → Logged ε β) :
    (x >>= f).log = x.log ++ (f a).log ∧ (x >>= f).value = (f a).value := by
  have hx : x >>= f = bind x f := rfl
  rw [hx, bind, h]
  exact ⟨rfl, rfl⟩

theorem bind_of_none {x : Logged ε α} (h : x.value = none) (f : α → Logged ε β) :
    (x >>= f).log = x.log ∧ (x >>= f).value = none := by
  have hx : x >>= f = bind x f := rfl
  rw [hx, bind, h]
  exact ⟨rfl, rfl⟩

/-- it returns a, and every event has the property -/
structure Safe (P : ε → Prop) (x : Logged ε α) (a : α) : Prop where
  value : x.value = some a
  log : ∀ e ∈ x.log, P e

variable {P : ε → Prop}

/-- what a computation returns does not depend on what is asked of its events -/
theorem Safe.forall_iff {P Q : ε → Prop} {x : Logged ε α} {a : α} (h : Safe Q x a) : (∀ e ∈ x.log, P e) ↔ Safe P x a :=
  ⟨fun hlog => ⟨h.value, hlog⟩, fun hsafe => hsafe.log⟩

/-- a computation that is known to return -/
theorem safe_of_value {P : ε → Prop} {x : Logged ε α} {a b : α} (h : x.value = some a) :
    Safe P x b ↔ (∀ e ∈ x.log, P e) ∧ a = b :=
  ⟨fun hs => ⟨hs.log, Option.some.inj (h.symm.trans hs.value)⟩, fun ⟨hl, he⟩ => ⟨he ▸ h, hl⟩⟩

theorem safe_pure {a b : α} : Safe P (pure a) b ↔ a = b :=
  ⟨fun h => Option.some.inj h.value, fun h => ⟨congrArg some h, by simp⟩⟩

theorem safe_note {e : ε} {a b : α} : Safe P (note e a) b ↔ P e ∧ a = b :=
  ⟨fun h => ⟨h.log e (List.mem_singleton.2 rfl), Option.some.inj h.value⟩,
    fun ⟨he, hb⟩ => ⟨congrArg some hb, fun _ h => List.mem_singleton.1 h ▸ he⟩⟩

theorem safe_ofOption {v : Option α} {b : α} : Safe P (ofOption v) b ↔ v = some b :=
  ⟨fun h => h.value, fun h => ⟨h, fun _ he => absurd he List.not_mem_nil⟩⟩

theorem not_safe_stop {a : α} : ¬ Safe P (stop : Logged ε α) a := fun h => nomatch h.value

theorem safe_bind {x : Logged ε α} {f : α → Logged ε β} {b : β} :
    Safe P (x >>= f) b ↔ ∃ a, Safe P x a ∧ Safe P (f a) b := by
  cases hx : x.value with
  | none =>
    have hn := (bind_of_none hx f).2
    constructor
    · intro h
      rw [h.value] at hn
      cases hn
    · rintro ⟨a, h, -⟩
      rw [h.value] at hx
      cases hx
  | some a =>
    obtain ⟨hlog, hval⟩ := bind_of_some hx f
    constructor
    · intro h
      refine ⟨a, ⟨hx, fun e he => h.log e ?_⟩, hval.symm.trans h.value, fun e he => h.log e ?_⟩
      · rw [hlog]
        exact List.mem_append_left _ he
      · rw [hlog]
        exact List.mem_append_right _ he
    · rintro ⟨a', h, h'⟩
      obtain rfl : a = a' := Option.some.inj (hx.symm.trans h.value)
      refine ⟨hval.trans h'.value, fun e he => ?_⟩
      rw [hlog] at he
      rcases List.mem_append.1 he with he | he
      · exact h.log e he
      · exact h'.log e he

/-- what follows a computation that returns v, with its events safe iff C -/
theorem safe_bind_of {C : Prop} {v : α} {x : Logged ε α} {f : α → Logged ε β} {b : β}
    (hx : ∀ a, Safe P x a ↔ C ∧ v = a) : Safe P (x >>= f) b ↔ C ∧ Safe P (f v) b := by
  rw [safe_bind]
  constructor
  · rintro ⟨a, ha, hf⟩
    obtain ⟨hC, rfl⟩ := (hx a).1 ha
    exact ⟨hC, hf⟩
  · rintro ⟨hC, hf⟩
    exact ⟨v, (hx v).2 ⟨hC, rfl⟩, hf⟩

theorem safe_bind_ofOption {v : Option α} {f : α → Logged ε β} {b : β} :
    Safe P (ofOption v >>= f) b ↔ ∃ a, v = some a ∧ Safe P (f a) b := by
  simp only [safe_bind, safe_ofOption]

end Logged

/-! ## Computations with a state -/

/-- every event of a log is allowed by the history before it -/
def Allowed (ok : List ε → ε → Prop) : List ε → List ε → Prop
  | _, [] => True
  | h, e :: l => ok h e ∧ Allowed ok (h ++ [e]) l

theorem allowed_append {ok : List ε → ε → Prop} {h l l' : List ε} :
    Allowed ok h (l ++ l') ↔ Allowed ok h l ∧ Allowed ok (h ++ l) l' := by
  induction l generalizing h with
  | nil => simp [Allowed]
  | cons e l ih =>
    rw [List.cons_append, Allowed, Allowed, ih, List.append_assoc, List.singleton_append]
    exact and_assoc.symm

/-- what is allowed whatever happened before holds of every event -/
theorem allowed_forall {p : ε → Prop} {h l : List ε} (hl : Allowed (fun _ => p) h l) : ∀ e ∈ l, p e := by
  induction l generalizing h with
  | nil => simp
  | cons e l ih => exact List.forall_mem_cons.2 ⟨hl.1, ih hl.2⟩

/-- events that are allowed whatever happened before -/
theorem allowed_of_forall {ok : List ε → ε → Prop} {h l : List ε} (hl : ∀ e ∈ l, ∀ h', h <+: h' → ok h' e) :
    Allowed ok h l := by
  induction l generalizing h with
  | nil => trivial
  | cons e l ih =>
    refine ⟨hl e List.mem_cons_self h (List.prefix_refl h), ih fun e' he' h' hh' => ?_⟩
    exact hl e' (List.mem_cons_of_mem e he') h' ((List.prefix_append h [e]).trans hh')

theorem allowed_true (h l : List ε) : Allowed (fun _ _ => True) h l := allowed_of_forall fun _ _ _ _ => trivial

/-- one event in a computation with a state -/
def emit (e : ε) : StateT σ (Logged ε) Unit := fun s => .note e ((), s)

/-- a computation that does not use the state -/
def lift (x : Logged ε α) : StateT σ (Logged ε) α := fun s => x >>= fun a => pure (a, s)

def whenever (c : Prop) [Decidable c] (x : StateT σ (Logged ε) Unit) : StateT σ (Logged ε) Unit := if c then x else pure ()

/-- `for` over n numbers from i, with a variable that the body changes -/
def forRange (f : ℕ → α → StateT σ (Logged ε) α) : ℕ → ℕ → α → StateT σ (Logged ε) α
  | _, 0, a => pure a
  | i, n + 1, a => f i a >>= forRange f (i + 1) n

/-- the same for a body that may end the loop with the answer true -/
def anyRange (f : ℕ → α → StateT σ (Logged ε) (Bool × α)) : ℕ → ℕ → α → StateT σ (Logged ε) Bool
  | _, 0, _ => pure false
  | i, n + 1, a => f i a >>= fun r => if r.1 then pure true else anyRange f (i + 1) n r.2

/-- the first part returns: the second one goes on from its state -/
theorem then_of_some {x : StateT σ (Logged ε) α} {s : σ} {r : α × σ} (h : (x s).value = some r)
    (f : α → StateT σ (Logged ε) β) :
    ((x >>= f) s).log = (x s).log ++ (f r.1 r.2).log ∧ ((x >>= f) s).value = (f r.1 r.2).value :=
  Logged.bind_of_some h fun r => f r.1 r.2

/-- the first part does not return -/
theorem then_of_none {x : StateT σ (Logged ε) α} {s : σ} (h : (x s).value = none) (f : α → StateT σ (Logged ε) β) :
    ((x >>= f) s).log = (x s).log ∧ ((x >>= f) s).value = none := Logged.bind_of_none h fun r => f r.1 r.2

theorem lift_of_some {y : Logged ε α} {a : α} (h : y.value = some a) (s : σ) :
    (lift y s).log = y.log ∧ (lift y s).value = some (a, s) := by
  obtain ⟨hlog, hvalue⟩ := Logged.bind_of_some h fun a => (pure (a, s) : Logged ε (α × σ))
  exact ⟨hlog.trans (List.append_nil y.log), hvalue⟩

theorem lift_of_none {y : Logged ε α} (h : y.value = none) (s : σ) : (lift y s).log = y.log ∧ (lift y s).value = none :=
  Logged.bind_of_none h _

/-- from a history and a state with P, every event is allowed, and where the computation returns, Q holds -/
def Triple (ok : List ε → ε → Prop) (P : List ε → σ → Prop) (x : StateT σ (Logged ε) α) (Q : α → List ε → σ → Prop) :
    Prop :=
  ∀ h s, P h s → Allowed ok h (x s).log ∧ ∀ a s', (x s).value = some (a, s') → Q a (h ++ (x s).log) s'

section

variable {ok : List ε → ε → Prop} {P P' : List ε → σ → Prop} {Q Q' : α → List ε → σ → Prop} {R : β → List ε → σ → Prop}
  {x : StateT σ (Logged ε) α} {f : α → StateT σ (Logged ε) β}

theorem triple_conseq (hx : Triple ok P x Q) (hP : ∀ h s, P' h s → P h s) (hQ : ∀ a h s, Q a h s → Q' a h s) :
    Triple ok P' x Q' := by
  intro h s hs
  obtain ⟨hlog, hval⟩ := hx h s (hP h s hs)
  exact ⟨hlog, fun a s' ha => hQ a _ s' (hval a s' ha)⟩

theorem triple_pure (a : α) (hP : ∀ h s, P h s → Q a h s) : Triple ok P (pure a) Q := by
  intro h s hs
  refine ⟨trivial, fun b s' hb => ?_⟩
  cases hb
  rw [show (pure a : StateT σ (Logged ε) α) s = pure (a, s) from rfl, Logged.pure_log, List.append_nil]
  exact hP h s hs

theorem triple_bind (hx : Triple ok P x Q) (hf : ∀ a, Triple ok (Q a) (f a) R) : Triple ok P (x >>= f) R := by
  intro h s hs
  obtain ⟨hlog, hval⟩ := hx h s hs
  cases hr : (x s).value with
  | none =>
    obtain ⟨h1, h2⟩ := then_of_none hr f
    rw [h1, h2]
    exact ⟨hlog, fun b s' hb => nomatch hb⟩
  | some r =>
    obtain ⟨h1, h2⟩ := then_of_some hr f
    obtain ⟨hlog', hval'⟩ := hf r.1 _ r.2 (hval r.1 r.2 hr)
    rw [h1, h2]
    refine ⟨allowed_append.2 ⟨hlog, hlog'⟩, fun b s' hb => ?_⟩
    rw [← List.append_assoc]
    exact hval' b s' hb

/-- a fact in the precondition that is not about history and state -/
theorem triple_fact {p : Prop} (hx : p → Triple ok P x Q) : Triple ok (fun h s => P h s ∧ p) x Q :=
  fun h s hs => hx hs.2 h s hs.1

theorem triple_emit {Q : Unit → List ε → σ → Prop} (e : ε) (hok : ∀ h s, P h s → ok h e)
    (hQ : ∀ h s, P h s → Q () (h ++ [e]) s) : Triple ok P (emit e) Q := by
  intro h s hs
  refine ⟨⟨hok h s hs, trivial⟩, fun a s' ha => ?_⟩
  cases ha
  exact hQ h s hs

/-- the state is read: what follows may use it -/
theorem triple_get {f : σ → StateT σ (Logged ε) β} (hf : ∀ a, Triple ok (fun h s => s = a ∧ P h s) (f a) R) :
    Triple ok P (get >>= f) R := by
  intro h s hs
  have hb : (get >>= f) s = f s s := rfl
  rw [hb]
  exact hf s h s ⟨rfl, hs⟩

theorem triple_modify {Q : PUnit → List ε → σ → Prop} (g : σ → σ) (hP : ∀ h s, P h s → Q ⟨⟩ h (g s)) :
    Triple ok P (modify g) Q := by
  intro h s hs
  refine ⟨trivial, fun b s' hb => ?_⟩
  cases hb
  have hl : ((modify g : StateT σ (Logged ε) PUnit) s).log = [] := rfl
  rw [hl, List.append_nil]
  exact hP h s hs

theorem triple_lift {y : Logged ε α} (hlog : ∀ h s, P h s → Allowed ok h y.log)
    (hval : ∀ h s a, P h s → y.value = some a → Q a (h ++ y.log) s) : Triple ok P (lift y) Q := by
  intro h s hs
  cases hr : y.value with
  | none =>
    obtain ⟨h1, h2⟩ := lift_of_none hr s
    rw [h1, h2]
    exact ⟨hlog h s hs, fun b s' hb => nomatch hb⟩
  | some a =>
    obtain ⟨h1, h2⟩ := lift_of_some hr s
    rw [h1, h2]
    refine ⟨hlog h s hs, fun b s' hb => ?_⟩
    obtain ⟨rfl, rfl⟩ := Prod.mk.inj (Option.some.inj hb)
    exact hval h s a hs hr

theorem triple_ite {c : Prop} [Decidable c] {y : StateT σ (Logged ε) α} (hx : c → Triple ok P x Q)
    (hy : ¬ c → Triple ok P y Q) : Triple ok P (if c then x else y) Q := by
  split_ifs with hc
  · exact hx hc
  · exact hy hc

theorem triple_whenever {c : Prop} [Decidable c] {y : StateT σ (Logged ε) Unit} {Q : Unit → List ε → σ → Prop}
    (hy : c → Triple ok P y Q) (hP : ∀ h s, P h s → Q () h s) : Triple ok P (whenever c y) Q :=
  triple_ite hy fun _ => triple_pure () hP

/-- the loop rule: the invariant may speak of the number that comes next -/
theorem triple_forRange {I : ℕ → α → List ε → σ → Prop} {f : ℕ → α → StateT σ (Logged ε) α} (i n : ℕ) (a : α)
    (hf : ∀ j, i ≤ j → j < i + n → ∀ a, Triple ok (I j a) (f j a) (I (j + 1))) :
    Triple ok (I i a) (forRange f i n a) (I (i + n)) := by
  induction n generalizing i a with
  | zero => exact triple_pure a fun _ _ hs => hs
  | succ n ih =>
    apply triple_bind (hf i (Nat.le_refl i) (by omega) a)
    intro b
    have hrest := ih (i + 1) b fun j h1 h2 => hf j (by omega) (by omega)
    rw [show i + 1 + n = i + (n + 1) by omega] at hrest
    exact hrest

/-- the search rule: I between two rounds, J of the answer at the end -/
theorem triple_search {I : α → List ε → σ → Prop} {J : Bool → List ε → σ → Prop}
    {f : ℕ → α → StateT σ (Logged ε) (Bool × α)} (i n : ℕ) (a : α)
    (hf : ∀ j, i ≤ j → j < i + n → ∀ a, Triple ok (I a) (f j a) (fun r h s => if r.1 then J true h s else I r.2 h s))
    (hJ : ∀ a h s, I a h s → J false h s) : Triple ok (I a) (anyRange f i n a) J := by
  induction n generalizing i a with
  | zero => exact triple_pure false (hJ a)
  | succ n ih =>
    apply triple_bind (hf i (Nat.le_refl i) (by omega) a)
    intro r
    apply triple_ite
    · intro hr
      exact triple_pure true fun h s hs => by rwa [if_pos hr] at hs
    · intro hr
      have hrest := ih (i + 1) r.2 fun j h1 h2 => hf j (by omega) (by omega)
      exact triple_conseq hrest (fun h s hs => by rwa [if_neg hr] at hs) fun _ _ _ hs => hs

theorem triple_anyRange {I : α → List ε → σ → Prop} {J : List ε → σ → Prop} {f : ℕ → α → StateT σ (Logged ε) (Bool × α)}
    (hf : ∀ j a, Triple ok (I a) (f j a) (fun r => I r.2)) (hJ : ∀ a h s, I a h s → J h s) (i n : ℕ) (a : α) :
    Triple ok (I a) (anyRange f i n a) (fun _ => J) := by
  refine triple_search i n a (fun j _ _ b => triple_conseq (hf j b) (fun _ _ hs => hs) fun r h s hs => ?_) hJ
  split_ifs
  · exact hJ r.2 h s hs
  · exact hs

/-- an allowed log is allowed up to where the first part returned, and from there on -/
theorem allowed_bind {h : List ε} {s : σ} (hlog : Allowed ok h ((x >>= f) s).log) {a : α} {s' : σ}
    (hx : (x s).value = some (a, s')) : Allowed ok (h ++ (x s).log) (f a s').log := by
  rw [(then_of_some hx f).1] at hlog
  exact (allowed_append.1 hlog).2

theorem allowed_modify {h : List ε} {s : σ} {g : σ → σ} {f : PUnit → StateT σ (Logged ε) β}
    (hlog : Allowed ok h ((modify g >>= f) s).log) : Allowed ok h (f ⟨⟩ (g s)).log := hlog

theorem allowed_first {h : List ε} {s : σ} (hlog : Allowed ok h ((x >>= f) s).log) : Allowed ok h (x s).log := by
  cases hx : (x s).value with
  | none => rwa [(then_of_none hx f).1] at hlog
  | some r =>
    rw [(then_of_some hx f).1] at hlog
    exact (allowed_append.1 hlog).1

/-- from a state with I it returns, to a state with I -/
def Total (I : σ → Prop) (x : StateT σ (Logged ε) α) : Prop := ∀ s, I s → ∃ a s', (x s).value = some (a, s') ∧ I s'

theorem total_pure {I : σ → Prop} (a : α) : Total (ε := ε) I (pure a) := fun s hs => ⟨a, s, rfl, hs⟩

theorem total_bind {I : σ → Prop} (hx : Total I x) (hf : ∀ a, Total I (f a)) : Total I (x >>= f) := by
  intro s hs
  obtain ⟨a, s', hv, hs'⟩ := hx s hs
  obtain ⟨b, s'', hv', hs''⟩ := hf a s' hs'
  refine ⟨b, s'', ?_, hs''⟩
  rw [← hv']
  exact (then_of_some hv f).2

/-- what is returned has the property -/
def Yields (F : α → Prop) (x : StateT σ (Logged ε) α) : Prop := ∀ s a s', (x s).value = some (a, s') → F a

theorem yields_true (x : StateT σ (Logged ε) α) : Yields (fun _ => True) x := fun _ _ _ _ => trivial

theorem yields_pure {F : α → Prop} {a : α} (ha : F a) : Yields F (pure a : StateT σ (Logged ε) α) := by
  intro s b s' hb
  cases hb
  exact ha

theorem yields_bind {F : α → Prop} {G : β → Prop} (hx : Yields F x) (hf : ∀ a, F a → Yields G (f a)) :
    Yields G (x >>= f) := by
  intro s b s' hb
  cases hr : (x s).value with
  | none =>
    rw [(then_of_none hr f).2] at hb
    cases hb
  | some r =>
    rw [(then_of_some hr f).2] at hb
    exact hf r.1 (hx s r.1 r.2 hr) r.2 b s' hb

theorem yields_ite {F : α → Prop} {c : Prop} [Decidable c] {y : StateT σ (Logged ε) α} (hx : Yields F x)
    (hy : Yields F y) : Yields F (if c then x else y) := by
  split_ifs
  · exact hx
  · exact hy

theorem yields_forRange {F : α → Prop} {f : ℕ → α → StateT σ (Logged ε) α} (hf : ∀ j a, F a → Yields F (f j a)) {i n : ℕ}
    {a : α} (ha : F a) : Yields F (forRange f i n a) := by
  induction n generalizing i a with
  | zero => exact yields_pure ha
  | succ n ih => exact yields_bind (hf i a ha) fun b hb => ih hb

theorem total_ite {I : σ → Prop} {c : Prop} [Decidable c] {y : StateT σ (Logged ε) α} (hx : Total I x) (hy : Total I y) :
    Total I (if c then x else y) := by
  split_ifs
  · exact hx
  · exact hy

end

end Tomorrow.Core
