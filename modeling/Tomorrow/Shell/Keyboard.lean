/-
The PS/2 keyboard interrupt (`keyboard.rs`) against an arbitrary controller.

The ports are two streams: what the n-th read of 0x64 and of 0x60 returns. The handler empties the output buffer while OBF
is set, decodes the bytes and passes ASCII on to the shell; after 256 bytes it gives up decoding and drains the buffer until
OBF is clear. The decoder of `pc_keyboard` and `on_char` are parameters: total functions, so they always return.

The guard bounds the first loop (`irqBody_ends`) and not the second, which goes on as long as OBF stays set
(`drain_ends_iff`).

Result: `keyboard_irq_ends_iff`.
-/
import Tomorrow.Core.Loops

namespace Tomorrow.Keyboard

open Tomorrow.Core

/-! ## Model -/

/-- `DecodedKey`; the code of a raw key is not looked at -/
inductive DecodedKey where
  | unicode (ch : Char)
  | rawKey

/-- what the handler calls: a decoder with states κ and key events ε, and the shell with states σ -/
structure Callees (κ ε σ : Type) where
  addByte : κ → UInt8 → Except Unit (Option ε) × κ
  processKeyevent : κ → ε → Option DecodedKey × κ
  onChar : σ → UInt8 → σ

/-- `KEYBOARD`, the shell, the guard, how often each port has been read and how many EOIs have been written -/
structure Irq (κ σ : Type) where
  keyboard : Option κ
  shell : σ
  guard : ℕ
  statusReads : ℕ
  dataReads : ℕ
  eois : ℕ

section

variable {κ σ : Type}

/-- after a read of port 0x64 -/
def Irq.polled (q : Irq κ σ) : Irq κ σ := { q with statusReads := q.statusReads + 1 }

/-- after a read of port 0x60 -/
def Irq.taken (q : Irq κ σ) : Irq κ σ := { q with dataReads := q.dataReads + 1 }

def Irq.counted (q : Irq κ σ) : Irq κ σ := { q with guard := q.guard + 1 }

def Irq.eoi (q : Irq κ σ) : Irq κ σ := { q with eois := q.eois + 1 }

end

section

variable {κ ε σ : Type} (status data : ℕ → UInt8) (env : Callees κ ε σ)

/-- OBF in the n-th value of port 0x64 -/
def Obf (n : ℕ) : Prop := status n &&& 1 ≠ 0

instance instDecidableObf (n : ℕ) : Decidable (Obf status n) := inferInstanceAs (Decidable (_ ≠ _))

/-- a key goes to the shell when it is ASCII -/
def Irq.key (q : Irq κ σ) : Option DecodedKey → Irq κ σ
  | some (.unicode ch) => if ch.val < 128 then { q with shell := env.onChar q.shell ch.toUInt8 } else q
  | _ => q

/-- decode one byte -/
def Irq.scancode (q : Irq κ σ) (b : UInt8) : Irq κ σ :=
  match q.keyboard with
  | none => q
  | some kb =>
    match env.addByte kb b with
    | (.ok (some event), kb) =>
      Irq.key env { q with keyboard := some (env.processKeyevent kb event).2 } (env.processKeyevent kb event).1
    | (_, kb) => { q with keyboard := some kb }

/-- how the first loop is left -/
inductive Left (κ σ : Type) where
  | empty (q : Irq κ σ)
  | guarded (q : Irq κ σ)

/-- one pass of `while inb(0x64) & 1 != 0` -/
def irqBody (q : Irq κ σ) : Irq κ σ ⊕ Left κ σ :=
  if Obf status q.statusReads then
    if 256 < q.guard + 1 then .inr (.guarded q.polled.counted)
    else .inl (Irq.scancode env q.polled.counted.taken (data q.dataReads))
  else .inr (.empty q.polled)

/-- one pass of the drain -/
def drainBody (q : Irq κ σ) : Irq κ σ ⊕ Irq κ σ :=
  if Obf status q.statusReads then .inl q.polled.taken else .inr q.polled

/-- after the drain the first loop breaks; none while a loop is still running after `fuel` passes -/
def keyboardIrqHandler (fuel : ℕ) (q : Irq κ σ) : Option (Irq κ σ) :=
  match loop (irqBody status data env) fuel { q with guard := 0 } with
  | none => none
  | some (.empty q) => some q.eoi
  | some (.guarded q) => (loop (drainBody status) fuel q).map Irq.eoi

end

/-! ## Termination -/

section

variable {κ ε σ : Type} {status data : ℕ → UInt8} {env : Callees κ ε σ} {q q' : Irq κ σ}

/-- decoding reads no port and does not touch the guard -/
theorem scancode_frame (env : Callees κ ε σ) (q : Irq κ σ) (b : UInt8) : (Irq.scancode env q b).guard = q.guard ∧
    (Irq.scancode env q b).statusReads = q.statusReads ∧ (Irq.scancode env q b).eois = q.eois := by
  unfold Irq.scancode
  split
  · exact ⟨rfl, rfl, rfl⟩
  · split
    · unfold Irq.key
      split
      · split <;> exact ⟨rfl, rfl, rfl⟩
      · exact ⟨rfl, rfl, rfl⟩
    · exact ⟨rfl, rfl, rfl⟩

theorem irqBody_next (h : irqBody status data env q = .inl q') : Obf status q.statusReads ∧ q.guard < 256 ∧
    q'.guard = q.guard + 1 ∧ q'.statusReads = q.statusReads + 1 ∧ q'.eois = q.eois := by
  unfold irqBody at h
  split_ifs at h with hobf hguard
  cases h
  obtain ⟨hg, hs, he⟩ := scancode_frame env q.polled.counted.taken (data q.dataReads)
  exact ⟨hobf, by omega, hg, hs, he⟩

/-- the guard ends the first loop, whatever the controller does -/
theorem irqBody_ends (status data : ℕ → UInt8) (env : Callees κ ε σ) (q : Irq κ σ) :
    Terminates (irqBody status data env) q := by
  refine Terminates.of_measure (fun _ => True) (fun q => 256 - q.guard) (fun s s' _ h => ⟨trivial, ?_⟩) trivial
  obtain ⟨-, hlt, hg, -⟩ := irqBody_next h
  omega

/-- the drain ends only when OBF goes to 0 -/
theorem drain_ends_iff : Terminates (drainBody status) q ↔ ∃ n, q.statusReads ≤ n ∧ ¬ Obf status n := by
  constructor
  · intro hends
    by_contra hno
    push Not at hno
    refine not_terminates (fun u => q.statusReads ≤ u.statusReads) (fun u hu => ?_) le_rfl hends
    exact ⟨_, if_pos (hno _ hu), Nat.le_succ_of_le hu⟩
  · rintro ⟨n, hle, hn⟩
    refine Terminates.of_measure (fun u => u.statusReads ≤ n) (fun u => n - u.statusReads) (fun u u' hu h => ?_) hle
    unfold drainBody at h
    split_ifs at h with hobf
    cases h
    have hne : u.statusReads ≠ n := fun he => hn (he ▸ hobf)
    show u.statusReads + 1 ≤ n ∧ n - (u.statusReads + 1) < n - u.statusReads
    omega

/-- when the first loop is left, OBF is clear at the last read, or was set at every read so far -/
theorem irqBody_left {fuel : ℕ} {r : Left κ σ} (h : loop (irqBody status data env) fuel q = some r)
    (hobf : ∀ n, n < q.statusReads → Obf status n) :
    (∃ u, r = .empty u ∧ u.eois = q.eois ∧ ∃ n, ¬ Obf status n) ∨
      ∃ u, r = .guarded u ∧ u.eois = q.eois ∧ ∀ n, n < u.statusReads → Obf status n := by
  obtain ⟨t, ⟨heoi, hall⟩, ht⟩ := loop_inv (fun t => t.eois = q.eois ∧ ∀ n, n < t.statusReads → Obf status n)
    (fun t t' hI hb => by
      obtain ⟨hset, -, -, hs, he⟩ := irqBody_next hb
      refine ⟨he.trans hI.1, fun n hn => ?_⟩
      rcases Nat.lt_succ_iff_lt_or_eq.1 (hs ▸ hn) with hlt | rfl
      · exact hI.2 n hlt
      · exact hset) ⟨rfl, hobf⟩ h
  unfold irqBody at ht
  split_ifs at ht with hset hguard
  · cases ht
    refine Or.inr ⟨_, rfl, heoi, fun n hn => ?_⟩
    rcases Nat.lt_succ_iff_lt_or_eq.1 hn with hlt | rfl
    · exact hall n hlt
    · exact hset
  · cases ht
    exact Or.inl ⟨_, rfl, heoi, t.statusReads, hset⟩

theorem drain_eois {fuel : ℕ} {u : Irq κ σ} (h : loop (drainBody status) fuel q = some u) : u.eois = q.eois := by
  obtain ⟨t, ht, hb⟩ := loop_inv (fun t => t.eois = q.eois) (fun t t' hI hb => by
    unfold drainBody at hb
    split_ifs at hb
    cases hb
    exact hI) rfl h
  unfold drainBody at hb
  split_ifs at hb
  cases hb
  exact ht

/-- **Keyboard interrupt.** Whatever the ports return, and for every decoder and shell: the handler returns, with one EOI
written, iff OBF is clear at some read of port 0x64. -/
theorem keyboard_irq_ends_iff (status data : ℕ → UInt8) (env : Callees κ ε σ) (keyboard : Option κ) (shell : σ) :
    (∃ fuel q, keyboardIrqHandler status data env fuel ⟨keyboard, shell, 0, 0, 0, 0⟩ = some q ∧ q.eois = 1) ↔
      ∃ n, ¬ Obf status n := by
  obtain ⟨fuel₁, r, hr⟩ := irqBody_ends status data env ⟨keyboard, shell, 0, 0, 0, 0⟩
  rcases irqBody_left hr (fun n hn => absurd hn (Nat.not_lt_zero n)) with ⟨u, rfl, heoi, hn⟩ | ⟨u, rfl, heoi, hall⟩
  · refine iff_of_true ⟨fuel₁, u.eoi, ?_, by rw [Irq.eoi, heoi]⟩ hn
    rw [keyboardIrqHandler, hr]
  -- the guard has tripped: what is left is the drain
  have hdrain : (∃ n, ¬ Obf status n) ↔ Terminates (drainBody status) u := by
    rw [drain_ends_iff]
    refine ⟨fun ⟨n, hn⟩ => ⟨n, ?_, hn⟩, fun ⟨n, _, hn⟩ => ⟨n, hn⟩⟩
    exact Nat.le_of_not_lt fun hlt => hn (hall n hlt)
  rw [hdrain]
  constructor
  · rintro ⟨fuel, q, hq, -⟩
    unfold keyboardIrqHandler at hq
    cases hloop : loop (irqBody status data env) fuel ⟨keyboard, shell, 0, 0, 0, 0⟩ with
    | none => simp [hloop] at hq
    | some r =>
      obtain rfl := loop_unique hloop hr
      simp only [hloop, Option.map_eq_some_iff] at hq
      obtain ⟨v, hv, -⟩ := hq
      exact ⟨fuel, v, hv⟩
  · rintro ⟨fuel, v, hv⟩
    refine ⟨max fuel fuel₁, v.eoi, ?_, by rw [Irq.eoi, drain_eois hv, heoi]⟩
    rw [keyboardIrqHandler, loop_mono (le_max_right fuel fuel₁) hr]
    simp only [loop_mono (le_max_left fuel fuel₁) hv, Option.map_some]

end

/-- a decoder that rejects the byte 0, which is no code of scan code set 1 -/
def quiet : Callees Unit Unit Unit := ⟨fun _ _ => (.error (), ()), fun _ _ => (none, ()), fun _ _ => ()⟩

/-- with OBF stuck at 1 the handler does not return -/
theorem stuck_obf_hangs :
    ¬ ∃ fuel q, keyboardIrqHandler (fun _ => 1) (fun _ => 0) quiet fuel ⟨some (), (), 0, 0, 0, 0⟩ = some q := by
  rintro ⟨fuel, q, hq⟩
  unfold keyboardIrqHandler at hq
  split at hq
  · cases hq
  · next u hu =>
    rcases irqBody_left hu (fun n hn => absurd hn (Nat.not_lt_zero n)) with ⟨v, -, -, n, hn⟩ | ⟨v, hv, -⟩
    · exact hn (show (1 : UInt8) &&& 1 ≠ 0 by decide)
    · cases hv
  · next u hu =>
    obtain ⟨v, hv, -⟩ := Option.map_eq_some_iff.1 hq
    obtain ⟨n, -, hn⟩ := drain_ends_iff.1 ⟨fuel, v, hv⟩
    exact hn (show (1 : UInt8) &&& 1 ≠ 0 by decide)

end Tomorrow.Keyboard
