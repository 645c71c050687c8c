/-
Command and transfer rings of the USB controller (`xhci.rs`): the driver as producer, a conforming controller as consumer.

A ring is a page of 32 TRBs; the last is a Link back to the start. The driver writes at its enqueue index with its cycle
bit and flips the bit when it wraps; the controller takes the TRB at its dequeue index when the cycle bits agree, and
flips its own at the Link. Three pieces of code wrap: `post_command` and `queue_hid_transfer` as soon as index 31 is
reached, `tr_reserve` only when the next transfer does not fit, after filling the rest with no-ops.

`Sys` adds to a ring the controller and two logs: the TRBs posted, fillers included, and those taken. Results, for every
interleaving with at most 31 TRBs outstanding:
- `RingInv`, `produce_inv`: the cells hold the last 31 TRBs posted, index 31 the Link with the phase of the last lap;
- `TakenInv`, `consume_inv`: what was taken is a prefix of what was posted;
- `ring_protocol`: the protocol, with progress except where `ring_full_stall` shows that there is none.
-/
import Tomorrow.Core.PhaseRing

namespace Tomorrow.Usb

open Tomorrow.Core

/-! ## TRBs -/

structure Trb where
  param : UInt64
  status : UInt32
  control : UInt32
deriving DecidableEq

def trbEnableSlot : UInt32 := (9 : UInt32) <<< 10

def trbAddressDevice : UInt32 := (11 : UInt32) <<< 10

def trbConfigureEp : UInt32 := (12 : UInt32) <<< 10

def trbEvaluateContext : UInt32 := (13 : UInt32) <<< 10

def trbLink : UInt32 := (6 : UInt32) <<< 10

def trbSetup : UInt32 := (2 : UInt32) <<< 10

def trbData : UInt32 := (3 : UInt32) <<< 10

def trbStatus : UInt32 := (4 : UInt32) <<< 10

def trbNormal : UInt32 := (1 : UInt32) <<< 10

def trbNoop : UInt32 := (8 : UInt32) <<< 10

/-- the cycle bit -/
def Trb.cycle (t : Trb) : UInt32 := t.control &&& 1

/-- the type field, bits 10 to 15, is that of a Link -/
def Trb.isLink (t : Trb) : Bool := t.control &&& 0xFC00 = trbLink

/-! ## The producer -/

/-- a ring with the enqueue index and the producer cycle state -/
structure Ring where
  base : UInt64
  /-- TRB i, at base + 16 i -/
  trbs : ℕ → Trb
  enq : ℕ
  pcs : UInt32

/-- a zeroed page with the Link at index 31, as `setup_device` and the other initialisations leave it -/
def Ring.new (base : UInt64) : Ring :=
  ⟨base, Function.update (fun _ => ⟨0, 0, 0⟩) 31 ⟨base, 0, trbLink ||| (1 : UInt32) <<< 1 ||| 1⟩, 0, 1⟩

def Ring.store (r : Ring) (i : ℕ) (t : Trb) : Ring := { r with trbs := Function.update r.trbs i t }

def Ring.advance (r : Ring) (n : ℕ) : Ring := { r with enq := r.enq + n }

/-- the Link gets the cycle of the lap that ends; back to index 0 with the other cycle -/
def Ring.wrap (r : Ring) : Ring :=
  { r with trbs := Function.update r.trbs 31
             ⟨(r.trbs 31).param, (r.trbs 31).status, trbLink ||| (1 : UInt32) <<< 1 ||| r.pcs⟩
           enq := 0
           pcs := r.pcs ^^^ 1 }

/-- one TRB at the enqueue index -/
def Ring.push (r : Ring) (t : Trb) : Ring := (r.store r.enq t).advance 1

def postCommand (r : Ring) (param : UInt64) (status control : UInt32) : Ring :=
  let r := r.push ⟨param, status, control ||| r.pcs⟩
  if r.enq = 31 then r.wrap else r

def noop (pcs : UInt32) : Trb := ⟨0, 0, trbNoop ||| pcs⟩

/-- `while *tr_enq < 31`, n times -/
def fill : ℕ → Ring → Ring
  | 0, r => r
  | n + 1, r => fill n (r.push (noop r.pcs))

def trReserve (r : Ring) (n : ℕ) : Ring := if r.enq + n ≤ 31 then r else (fill (31 - r.enq) r).wrap

def ctrlIn (r : Ring) (setupParam buf : UInt64) (len : UInt16) : Ring :=
  let r := trReserve r 3
  (((r.store r.enq ⟨setupParam, 8, trbSetup ||| (1 : UInt32) <<< 6 ||| (3 : UInt32) <<< 16 ||| r.pcs⟩).store (r.enq + 1)
    ⟨buf, len.toUInt32, trbData ||| (1 : UInt32) <<< 16 ||| r.pcs⟩).store (r.enq + 2)
    ⟨0, 0, trbStatus ||| (1 : UInt32) <<< 5 ||| r.pcs⟩).advance 3

def ctrlOutNodata (r : Ring) (setupParam : UInt64) : Ring :=
  let r := trReserve r 2
  ((r.store r.enq ⟨setupParam, 8, trbSetup ||| (1 : UInt32) <<< 6 ||| r.pcs⟩).store (r.enq + 1)
    ⟨0, 0, trbStatus ||| (1 : UInt32) <<< 16 ||| (1 : UInt32) <<< 5 ||| r.pcs⟩).advance 2

def queueHidTransfer (r : Ring) (hidBuf : UInt64) : Ring :=
  let r := r.push ⟨hidBuf, 8, trbNormal ||| (1 : UInt32) <<< 5 ||| r.pcs⟩
  if 31 ≤ r.enq then r.wrap else r

/-! ## Requests -/

/-- the commands that the driver posts -/
inductive Command where
  | enableSlot
  | addressDevice (inputCtx : UInt64) (slotId : UInt32)
  | configureEp (inputCtx : UInt64) (slotId : UInt32)
  | evaluateContext (inputCtx : UInt64) (slotId : UInt32)

def Command.param : Command → UInt64
  | .enableSlot => 0
  | .addressDevice c _ => c
  | .configureEp c _ => c
  | .evaluateContext c _ => c

def Command.control : Command → UInt32
  | .enableSlot => trbEnableSlot
  | .addressDevice _ s => trbAddressDevice ||| s <<< 24
  | .configureEp _ s => trbConfigureEp ||| s <<< 24
  | .evaluateContext _ s => trbEvaluateContext ||| s <<< 24

/-- the three kinds of ring -/
inductive Kind where
  | command
  | control
  | hid
deriving DecidableEq

inductive Request where
  | command (c : Command)
  | ctrlIn (setupParam buf : UInt64) (len : UInt16)
  | ctrlOutNodata (setupParam : UInt64)
  | hid (hidBuf : UInt64)

/-- the ring that the request goes to -/
def Request.kind : Request → Kind
  | .command _ => .command
  | .ctrlIn _ _ _ => .control
  | .ctrlOutNodata _ => .control
  | .hid _ => .hid

def produce (r : Ring) : Request → Ring
  | .command c => postCommand r c.param 0 c.control
  | .ctrlIn s buf len => ctrlIn r s buf len
  | .ctrlOutNodata s => ctrlOutNodata r s
  | .hid buf => queueHidTransfer r buf

/-- the TRBs of a request, with the cycle bit given -/
def Request.trbs (pcs : UInt32) : Request → List Trb
  | .command c => [⟨c.param, 0, c.control ||| pcs⟩]
  | .ctrlIn s buf len =>
    [⟨s, 8, trbSetup ||| (1 : UInt32) <<< 6 ||| (3 : UInt32) <<< 16 ||| pcs⟩,
      ⟨buf, len.toUInt32, trbData ||| (1 : UInt32) <<< 16 ||| pcs⟩,
      ⟨0, 0, trbStatus ||| (1 : UInt32) <<< 5 ||| pcs⟩]
  | .ctrlOutNodata s =>
    [⟨s, 8, trbSetup ||| (1 : UInt32) <<< 6 ||| pcs⟩,
      ⟨0, 0, trbStatus ||| (1 : UInt32) <<< 16 ||| (1 : UInt32) <<< 5 ||| pcs⟩]
  | .hid buf => [⟨buf, 8, trbNormal ||| (1 : UInt32) <<< 5 ||| pcs⟩]

/-- the TRBs that a request adds to the ring: its own, after no-ops up to the Link when they do not fit -/
def posting (r : Ring) (q : Request) : List Trb :=
  if r.enq + (q.trbs r.pcs).length ≤ 31 then q.trbs r.pcs
  else List.replicate (31 - r.enq) (noop r.pcs) ++ q.trbs (r.pcs ^^^ 1)

/-! ## The system -/

/-- a ring, the dequeue index and cycle state of the controller, and the TRBs posted and taken so far -/
structure Sys where
  ring : Ring
  deq : ℕ
  ccs : UInt32
  posted : List Trb
  taken : List Trb

def Sys.start (base : UInt64) : Sys := ⟨Ring.new base, 0, 1, [], []⟩

/-- one step of the controller: nothing when the cycle bits differ -/
def consume (s : Sys) : Sys :=
  if (s.ring.trbs s.deq).cycle ≠ s.ccs then s
  else if (s.ring.trbs s.deq).isLink then { s with deq := 0, ccs := s.ccs ^^^ 1 }
  else { s with deq := s.deq + 1, taken := s.taken ++ [s.ring.trbs s.deq] }

inductive Op where
  | produce (q : Request)
  | consume

def step (s : Sys) : Op → Sys
  | .produce q => { s with ring := produce s.ring q, posted := s.posted ++ posting s.ring q }
  | .consume => consume s

def run (s : Sys) (ops : List Op) : Sys := ops.foldl step s

/-- posted and not yet taken -/
def Sys.outstanding (s : Sys) : ℕ := s.posted.length - s.taken.length

/-- all requests go to one ring of this kind, and no more than n TRBs are ever outstanding -/
structure Bounded (κ : Kind) (n : ℕ) (s : Sys) (ops : List Op) : Prop where
  kind : ∀ q, Op.produce q ∈ ops → q.kind = κ
  bound : ∀ j, (run s (ops.take j)).outstanding ≤ n

/-! ## Cycle bits and types -/

def phaseBit (b : Bool) : UInt32 := if b then 1 else 0

/-- the cycle bit as a phase -/
def Trb.phase (t : Trb) : Bool := t.cycle = 1

/-- the phase of lap w -/
def lap (w : ℕ) : Bool := decide (w % 2 = 0)

theorem lap_succ (w : ℕ) : lap (w + 1) = !lap w := by
  unfold lap
  by_cases h : w % 2 = 0
  · rw [decide_eq_true h, decide_eq_false (by omega)]; rfl
  · rw [decide_eq_false h, decide_eq_true (by omega)]; rfl

theorem phaseBit_xor (b : Bool) : phaseBit b ^^^ 1 = phaseBit (!b) := by cases b <;> decide

theorem cycle_cases (t : Trb) : t.cycle = 0 ∨ t.cycle = 1 := by
  have h : t.cycle.toNat = t.control.toNat % 2 := by rw [Trb.cycle, UInt32.toNat_and]; exact Nat.and_one_is_mod _
  rcases Nat.mod_two_eq_zero_or_one t.control.toNat with h0 | h1
  · exact Or.inl (UInt32.toNat_inj.1 (by rw [h, h0]; rfl))
  · exact Or.inr (UInt32.toNat_inj.1 (by rw [h, h1]; rfl))

theorem cycle_eq_phaseBit (t : Trb) (b : Bool) : t.cycle = phaseBit b ↔ t.phase = b := by
  unfold Trb.phase
  rcases cycle_cases t with h | h <;> rw [h] <;> cases b <;> decide

/-- a TRB of the driver's own: its cycle bit is the one it was given, and it is not a Link -/
structure Plain (b : Bool) (t : Trb) : Prop where
  phase : t.phase = b
  link : t.isLink = false

/-- the slot number in the top byte touches neither the cycle bit nor the type -/
theorem or_shl_and (c s : UInt32) {m : UInt32} (hm : m.toNat < 2 ^ 24) : (c ||| s <<< 24) &&& m = c &&& m := by
  refine UInt32.toNat_inj.1 (Nat.eq_of_testBit_eq fun i => ?_)
  by_cases hi : i < 24
  · have hs : ((s <<< 24).toNat).testBit i = false := by
      rw [UInt32.toNat_shiftLeft, Nat.testBit_mod_two_pow, show (24 : UInt32).toNat % 32 = 24 from rfl,
        Nat.testBit_shiftLeft]
      simp [Nat.not_le_of_lt hi]
    simp only [UInt32.toNat_and, UInt32.toNat_or, Nat.testBit_and, Nat.testBit_or, hs, Bool.or_false]
  · have hb : m.toNat.testBit i = false :=
      Nat.testBit_lt_two_pow (hm.trans_le (Nat.pow_le_pow_right (by decide) (by omega)))
    simp only [UInt32.toNat_and, Nat.testBit_and, hb, Bool.and_false]

/-- whether a TRB is plain depends on its control word only -/
theorem plain_of_control {b : Bool} {p : UInt64} {st c : UInt32} (h1 : c &&& 1 = phaseBit b)
    (h2 : c &&& 0xFC00 ≠ trbLink) : Plain b ⟨p, st, c⟩ :=
  ⟨(cycle_eq_phaseBit _ b).1 h1, decide_eq_false h2⟩

theorem plain_slot {b : Bool} {c : UInt32} (s : UInt32) {p : UInt64} {st : UInt32}
    (h1 : (c ||| phaseBit b) &&& 1 = phaseBit b) (h2 : (c ||| phaseBit b) &&& 0xFC00 ≠ trbLink) :
    Plain b ⟨p, st, c ||| s <<< 24 ||| phaseBit b⟩ := by
  have hor : c ||| s <<< 24 ||| phaseBit b = c ||| phaseBit b ||| s <<< 24 := by
    rw [UInt32.or_assoc, UInt32.or_comm (s <<< 24), ← UInt32.or_assoc]
  rw [hor]
  refine plain_of_control ?_ ?_
  · rw [or_shl_and _ _ (by decide)]; exact h1
  · rw [or_shl_and _ _ (by decide)]; exact h2

theorem noop_plain (b : Bool) : Plain b (noop (phaseBit b)) := by
  cases b <;> exact plain_of_control (by decide) (by decide)

theorem command_plain (c : Command) (b : Bool) : Plain b ⟨c.param, 0, c.control ||| phaseBit b⟩ := by
  cases c with
  | enableSlot => cases b <;> exact plain_of_control (by decide) (by decide)
  | addressDevice x s => cases b <;> exact plain_slot s (by decide) (by decide)
  | configureEp x s => cases b <;> exact plain_slot s (by decide) (by decide)
  | evaluateContext x s => cases b <;> exact plain_slot s (by decide) (by decide)

theorem request_plain (q : Request) (b : Bool) : ∀ t ∈ q.trbs (phaseBit b), Plain b t := by
  cases q with
  | command c =>
    intro t ht
    rw [List.mem_singleton.1 ht]
    exact command_plain c b
  | ctrlIn s buf len =>
    intro t ht
    simp only [Request.trbs, List.mem_cons, List.not_mem_nil, or_false] at ht
    rcases ht with rfl | rfl | rfl <;> cases b <;> exact plain_of_control (by decide) (by decide)
  | ctrlOutNodata s =>
    intro t ht
    simp only [Request.trbs, List.mem_cons, List.not_mem_nil, or_false] at ht
    rcases ht with rfl | rfl <;> cases b <;> exact plain_of_control (by decide) (by decide)
  | hid buf =>
    intro t ht
    rw [List.mem_singleton.1 ht]
    cases b <;> exact plain_of_control (by decide) (by decide)

/-! ## Several TRBs one after another -/

def Ring.pushes (r : Ring) (ts : List Trb) : Ring := ts.foldl Ring.push r

@[simp] theorem push_enq (r : Ring) (t : Trb) : (r.push t).enq = r.enq + 1 := rfl

@[simp] theorem push_pcs (r : Ring) (t : Trb) : (r.push t).pcs = r.pcs := rfl

theorem pushes_enq (r : Ring) (ts : List Trb) : (r.pushes ts).enq = r.enq + ts.length := by
  induction ts generalizing r with
  | nil => rfl
  | cons t ts ih =>
    show ((r.push t).pushes ts).enq = _
    rw [ih, push_enq, List.length_cons]
    omega

theorem pushes_pcs (r : Ring) (ts : List Trb) : (r.pushes ts).pcs = r.pcs := by
  induction ts generalizing r with
  | nil => rfl
  | cons t ts ih => exact ih (r.push t)

theorem pushes_trbs_of_lt (r : Ring) (ts : List Trb) {i : ℕ} (hi : i < r.enq) : (r.pushes ts).trbs i = r.trbs i := by
  induction ts generalizing r with
  | nil => rfl
  | cons t ts ih =>
    show ((r.push t).pushes ts).trbs i = _
    rw [ih (r.push t) (by rw [push_enq]; omega)]
    exact Function.update_of_ne hi.ne _ _

/-- the TRBs stand at consecutive indices from the enqueue index on -/
theorem pushes_get (r : Ring) (ts : List Trb) {j : ℕ} {t : Trb} (hj : ts[j]? = some t) :
    (r.pushes ts).trbs (r.enq + j) = t := by
  induction ts generalizing r j with
  | nil => cases hj
  | cons x ts ih =>
    show ((r.push x).pushes ts).trbs (r.enq + j) = t
    cases j with
    | zero =>
      rw [pushes_trbs_of_lt _ _ (by rw [push_enq]; omega)]
      rw [← Option.some.inj hj]
      exact Function.update_self _ _ _
    | succ j =>
      have := ih (r.push x) hj
      rw [push_enq] at this
      rw [show r.enq + (j + 1) = r.enq + 1 + j by omega]
      exact this

theorem fill_eq (n : ℕ) (r : Ring) : fill n r = r.pushes (List.replicate n (noop r.pcs)) := by
  induction n generalizing r with
  | zero => rfl
  | succ n ih =>
    show fill n (r.push (noop r.pcs)) = (r.push (noop r.pcs)).pushes (List.replicate n (noop r.pcs))
    rw [ih, push_pcs]

/-- a control transfer: reserve, then its TRBs one after another -/
theorem produce_control {r : Ring} {q : Request} (hq : q.kind = .control) : produce r q =
    (trReserve r (q.trbs r.pcs).length).pushes (q.trbs (trReserve r (q.trbs r.pcs).length).pcs) := by
  cases q with
  | command c => cases hq
  | ctrlIn s buf len => rfl
  | ctrlOutNodata s => rfl
  | hid buf => cases hq

/-- a command or a report: one TRB, and the wrap when it was the last before the Link -/
theorem produce_single {r : Ring} {q : Request} (hq : q.kind ≠ .control) (hr : r.enq ≤ 30) :
    ∃ t, q.trbs r.pcs = [t] ∧ produce r q = if r.enq = 30 then (r.push t).wrap else r.push t := by
  cases q with
  | command c => exact ⟨_, rfl, if_congr (by rw [push_enq]; omega) rfl rfl⟩
  | ctrlIn s buf len => exact absurd rfl hq
  | ctrlOutNodata s => exact absurd rfl hq
  | hid buf => exact ⟨_, rfl, if_congr (by rw [push_enq]; omega) rfl rfl⟩

theorem trbs_length_pos (q : Request) (c : UInt32) : 1 ≤ (q.trbs c).length := by cases q <;> simp [Request.trbs]

theorem trbs_length (q : Request) (c d : UInt32) : (q.trbs c).length = (q.trbs d).length := by cases q <;> rfl

theorem trbs_length_le (q : Request) (c : UInt32) : (q.trbs c).length ≤ 3 := by cases q <;> simp [Request.trbs]

/-! ## The producer's invariant -/

/-- the ring after these TRBs were posted, in lap w -/
structure RingInv (base : UInt64) (r : Ring) (posted : List Trb) (w : ℕ) : Prop where
  length : posted.length = 31 * w + r.enq
  enq_le : r.enq ≤ 31
  pcs : r.pcs = phaseBit (lap w)
  holds : Holds 31 Trb.phase r.trbs posted
  /-- the Link has the phase of the last lap that ended; before the first one ends, that of the first -/
  link : r.trbs 31 = ⟨base, 0, trbLink ||| (1 : UInt32) <<< 1 ||| phaseBit (lap (w - 1))⟩
  plain : ∀ t ∈ posted, t.isLink = false

theorem new_inv (base : UInt64) : RingInv base (Ring.new base) [] 0 where
  length := rfl
  enq_le := Nat.zero_le 31
  pcs := rfl
  holds := Holds.empty fun i hi => by
    have hcell : (Ring.new base).trbs i = ⟨0, 0, 0⟩ := by simp [Ring.new, hi.ne]
    rw [hcell]
    decide
  link := rfl
  plain := fun t ht => by cases ht

theorem lapPhase_eq (w e : ℕ) (he : e < 31) : lapPhase 31 (31 * w + e) = lap w := by
  unfold lapPhase lap
  rw [show (31 * w + e) / 31 = w by omega]

theorem RingInv.push {base : UInt64} {r : Ring} {posted : List Trb} {w : ℕ} (h : RingInv base r posted w)
    (hr : r.enq < 31) {t : Trb} (ht : Plain (lap w) t) : RingInv base (r.push t) (posted ++ [t]) w where
  length := by rw [List.length_append, h.length, push_enq, List.length_singleton]; omega
  enq_le := by rw [push_enq]; omega
  pcs := h.pcs
  holds := by
    have hmod : posted.length % 31 = r.enq := by rw [h.length]; omega
    have hpush := h.holds.push (x := t) (by rw [ht.phase, h.length, lapPhase_eq w r.enq hr])
    rw [hmod] at hpush
    exact hpush
  link := by
    show Function.update r.trbs r.enq t 31 = _
    rw [Function.update_of_ne (by omega)]
    exact h.link
  plain := by
    intro x hx
    rcases List.mem_append.1 hx with hx | hx
    · exact h.plain x hx
    · rw [List.mem_singleton.1 hx]; exact ht.link

theorem RingInv.pushes {base : UInt64} {r : Ring} {posted : List Trb} {w : ℕ} (h : RingInv base r posted w) (ts : List Trb)
    (hr : r.enq + ts.length ≤ 31) (hts : ∀ t ∈ ts, Plain (lap w) t) : RingInv base (r.pushes ts) (posted ++ ts) w := by
  induction ts generalizing r posted with
  | nil => rw [List.append_nil]; exact h
  | cons t ts ih =>
    rw [List.length_cons] at hr
    have hpush := h.push (by omega) (hts t List.mem_cons_self)
    rw [show posted ++ t :: ts = posted ++ [t] ++ ts by simp]
    exact ih hpush (by rw [push_enq]; omega) fun x hx => hts x (List.mem_cons_of_mem t hx)

/-- the wrap starts the next lap -/
theorem RingInv.wrap {base : UInt64} {r : Ring} {posted : List Trb} {w : ℕ} (h : RingInv base r posted w) (hr : r.enq = 31) :
    RingInv base r.wrap posted (w + 1) where
  length := by rw [h.length, hr]; show _ = 31 * (w + 1) + 0; omega
  enq_le := Nat.zero_le 31
  pcs := by
    show r.pcs ^^^ 1 = _
    rw [h.pcs, phaseBit_xor, lap_succ]
  holds := h.holds.update_of_le (by decide) (le_refl 31) _
  link := by
    simp only [Ring.wrap, Function.update_self, h.link, h.pcs, Nat.add_sub_cancel]
  plain := h.plain

/-- what the enqueue index can be between requests: rings that wrap at once never stop before the Link, and a control
ring never stops right after a wrap -/
structure KindInv (κ : Kind) (r : Ring) (w : ℕ) : Prop where
  eager : κ ≠ .control → r.enq ≤ 30
  lazily : κ = .control → w = 0 ∨ 1 ≤ r.enq

theorem plain_trbs {base : UInt64} {r : Ring} {posted : List Trb} {w : ℕ} (h : RingInv base r posted w) (q : Request) :
    ∀ t ∈ q.trbs r.pcs, Plain (lap w) t := by
  rw [h.pcs]
  exact request_plain q (lap w)

/-- `tr_reserve` makes room for n TRBs before the Link and posts no-ops only -/
theorem trReserve_inv {base : UInt64} {r : Ring} {posted : List Trb} {w n : ℕ} (h : RingInv base r posted w) (hn : n ≤ 31) :
    ∃ w', RingInv base (trReserve r n) (posted ++ if r.enq + n ≤ 31 then [] else List.replicate (31 - r.enq) (noop r.pcs)) w' ∧
      (trReserve r n).pcs = (if r.enq + n ≤ 31 then r.pcs else r.pcs ^^^ 1) ∧ (trReserve r n).enq + n ≤ 31 := by
  unfold trReserve
  by_cases hfit : r.enq + n ≤ 31
  · rw [if_pos hfit, if_pos hfit, if_pos hfit, List.append_nil]
    exact ⟨w, h, rfl, hfit⟩
  · rw [if_neg hfit, if_neg hfit, if_neg hfit, fill_eq]
    have hle := h.enq_le
    have hpush := h.pushes (List.replicate (31 - r.enq) (noop r.pcs)) (by rw [List.length_replicate]; omega) (by
      intro t ht
      rw [List.eq_of_mem_replicate ht, h.pcs]
      exact noop_plain (lap w))
    have henq : (r.pushes (List.replicate (31 - r.enq) (noop r.pcs))).enq = 31 := by
      rw [pushes_enq, List.length_replicate]; omega
    refine ⟨w + 1, hpush.wrap henq, ?_, ?_⟩
    · show (r.pushes _).pcs ^^^ 1 = _
      rw [pushes_pcs]
    · show 0 + n ≤ 31
      omega

/-- **Step lemma of the producer.** -/
theorem produce_inv {base : UInt64} {r : Ring} {posted : List Trb} {w : ℕ} {κ : Kind} {q : Request}
    (h : RingInv base r posted w) (hk : KindInv κ r w) (hq : q.kind = κ) :
    ∃ w', RingInv base (produce r q) (posted ++ posting r q) w' ∧ KindInv κ (produce r q) w' := by
  by_cases hc : κ = .control
  · have hlen := trbs_length_le q r.pcs
    obtain ⟨w', hres, hpcs, hfit⟩ := trReserve_inv h (n := (q.trbs r.pcs).length) (by omega)
    have hlen' := trbs_length q (trReserve r (q.trbs r.pcs).length).pcs r.pcs
    rw [produce_control (hq.trans hc)]
    refine ⟨w', ?_, fun hne => absurd hc hne, fun _ => Or.inr ?_⟩
    · have hpush := hres.pushes _ (by rw [hlen']; exact hfit) (plain_trbs hres q)
      have hposting : posting r q = (if r.enq + (q.trbs r.pcs).length ≤ 31 then []
          else List.replicate (31 - r.enq) (noop r.pcs)) ++ q.trbs (trReserve r (q.trbs r.pcs).length).pcs := by
        rw [hpcs]
        unfold posting
        split_ifs
        · rfl
        · rfl
      rw [hposting, ← List.append_assoc]
      exact hpush
    · rw [pushes_enq]
      have := trbs_length_pos q (trReserve r (q.trbs r.pcs).length).pcs
      omega
  · have hle := hk.eager hc
    obtain ⟨t, hts, hprod⟩ := produce_single (r := r) (q := q) (by rw [hq]; exact hc) hle
    have hposting : posting r q = [t] := by
      unfold posting
      rw [hts, if_pos (by rw [List.length_singleton]; omega)]
    have hpush := h.push (t := t) (by omega) (plain_trbs h q t (by rw [hts]; exact List.mem_singleton_self t))
    rw [hposting, hprod]
    by_cases h30 : r.enq = 30
    · rw [if_pos h30]
      exact ⟨w + 1, hpush.wrap (by rw [push_enq, h30]), fun _ => Nat.zero_le 30, fun h' => absurd h' hc⟩
    · rw [if_neg h30]
      exact ⟨w, hpush, fun _ => by rw [push_enq]; omega, fun h' => absurd h' hc⟩

/-- the TRBs of one request stand at consecutive indices before the Link -/
theorem produce_consecutive {base : UInt64} {r : Ring} {posted : List Trb} {w : ℕ} {κ : Kind} {q : Request}
    (h : RingInv base r posted w) (hk : KindInv κ r w) (hq : q.kind = κ) :
    ∃ e c, e + (q.trbs c).length ≤ 31 ∧ (∃ fillers, posting r q = fillers ++ q.trbs c) ∧
      ∀ j t, (q.trbs c)[j]? = some t → (produce r q).trbs (e + j) = t := by
  by_cases hc : κ = .control
  · have hlen := trbs_length_le q r.pcs
    obtain ⟨w', hres, hpcs, hfit⟩ := trReserve_inv h (n := (q.trbs r.pcs).length) (by omega)
    rw [produce_control (hq.trans hc)]
    have hlen' := trbs_length q (trReserve r (q.trbs r.pcs).length).pcs r.pcs
    refine ⟨_, _, by rw [hlen']; exact hfit, ?_, fun j t hj => pushes_get _ _ hj⟩
    rw [hpcs]
    unfold posting
    split_ifs
    · exact ⟨[], rfl⟩
    · exact ⟨_, rfl⟩
  · have hle := hk.eager hc
    obtain ⟨t, hts, hprod⟩ := produce_single (r := r) (q := q) (by rw [hq]; exact hc) hle
    refine ⟨r.enq, r.pcs, by rw [hts, List.length_singleton]; omega, ⟨[], ?_⟩, fun j x hj => ?_⟩
    · unfold posting
      rw [hts, if_pos (by rw [List.length_singleton]; omega)]
      rfl
    · rw [hts] at hj
      have hget := pushes_get r [t] hj
      have hlt : r.enq + j < 31 := by
        have := (List.getElem?_eq_some_iff.1 hj).1
        rw [List.length_singleton] at this
        omega
      rw [hprod]
      split_ifs
      · have hwrap : (r.push t).wrap.trbs (r.enq + j) = (r.push t).trbs (r.enq + j) := Function.update_of_ne hlt.ne _ _
        rw [hwrap]
        exact hget
      · exact hget

/-! ## The consumer -/

/-- what was taken is the beginning of what was posted, and the controller is in lap v -/
structure TakenInv (s : Sys) (v : ℕ) : Prop where
  length : s.taken.length = 31 * v + s.deq
  deq_le : s.deq ≤ 31
  ccs : s.ccs = phaseBit (lap v)
  taken : s.taken <+: s.posted

section

variable {base : UInt64} {s : Sys} {w v : ℕ}

/-- an outstanding TRB is the next one taken -/
theorem consume_take (hr : RingInv base s.ring s.posted w) (ht : TakenInv s v) (hdeq : s.deq < 31)
    (hlt : s.taken.length < s.posted.length) (hb : s.posted.length ≤ s.taken.length + 31) :
    ∃ t, s.posted[s.taken.length]? = some t ∧ consume s = { s with deq := s.deq + 1, taken := s.taken ++ [t] } := by
  have hmod : s.taken.length % 31 = s.deq := by rw [ht.length]; omega
  obtain ⟨hget, hphase⟩ := hr.holds.next hlt hb
  rw [hmod] at hget hphase
  rw [ht.length, lapPhase_eq v s.deq hdeq] at hphase
  refine ⟨_, hget, ?_⟩
  have hcycle : (s.ring.trbs s.deq).cycle = s.ccs := by rw [ht.ccs]; exact (cycle_eq_phaseBit _ _).2 hphase
  have hlink := hr.plain _ (List.mem_of_getElem? hget)
  unfold consume
  rw [if_neg (not_not.2 hcycle), hlink]
  rfl

/-- with nothing outstanding the cell holds a TRB of the lap before, or none, and is left alone -/
theorem consume_wait (hr : RingInv base s.ring s.posted w) (ht : TakenInv s v) (hdeq : s.deq < 31)
    (heq : s.taken.length = s.posted.length) : consume s = s := by
  have hmod : s.posted.length % 31 = s.deq := by rw [← heq, ht.length]; omega
  have hstale := hr.holds.stale (by decide)
  rw [hmod, ← heq, ht.length, lapPhase_eq v s.deq hdeq] at hstale
  unfold consume
  rw [if_pos]
  rw [ht.ccs]
  exact fun h => hstale ((cycle_eq_phaseBit _ _).1 h)

theorem link_cycle (base : UInt64) (b : Bool) :
    Trb.cycle ⟨base, 0, trbLink ||| (1 : UInt32) <<< 1 ||| phaseBit b⟩ = phaseBit b ∧
      Trb.isLink ⟨base, 0, trbLink ||| (1 : UInt32) <<< 1 ||| phaseBit b⟩ = true := by
  have h : ∀ b, (trbLink ||| (1 : UInt32) <<< 1 ||| phaseBit b) &&& 1 = phaseBit b ∧
      (trbLink ||| (1 : UInt32) <<< 1 ||| phaseBit b) &&& 0xFC00 = trbLink := by decide
  exact ⟨(h b).1, decide_eq_true (h b).2⟩

theorem phaseBit_inj {a b : Bool} (h : phaseBit a = phaseBit b) : a = b := by
  revert h
  cases a <;> cases b <;> decide

/-- on the Link the controller goes on when the Link has the phase of its lap, and waits otherwise -/
theorem consume_link (hr : RingInv base s.ring s.posted w) (ht : TakenInv s v) (hdeq : s.deq = 31) :
    consume s = if lap (w - 1) = lap v then { s with deq := 0, ccs := phaseBit (lap (v + 1)) } else s := by
  obtain ⟨hcycle, hlink⟩ := link_cycle base (lap (w - 1))
  rw [← hr.link] at hcycle hlink
  unfold consume
  rw [hdeq, hcycle, hlink, ht.ccs]
  by_cases h : lap (w - 1) = lap v
  · rw [if_neg (not_not.2 (congrArg phaseBit h)), if_pos h, phaseBit_xor, lap_succ]
    rfl
  · rw [if_pos (fun he => h (phaseBit_inj he)), if_neg h]

theorem snoc_of_getElem {l m : List Trb} {t : Trb} (h : l <+: m) (ht : m[l.length]? = some t) : l ++ [t] <+: m := by
  obtain ⟨r, rfl⟩ := h
  rw [List.getElem?_append_right (le_refl _), Nat.sub_self] at ht
  cases r with
  | nil => cases ht
  | cons x r =>
    cases ht
    exact ⟨r, by simp⟩

/-- **Step lemma of the consumer.** -/
theorem consume_inv (hr : RingInv base s.ring s.posted w) (ht : TakenInv s v)
    (hb : s.posted.length ≤ s.taken.length + 31) : ∃ v', TakenInv (consume s) v' := by
  have hle := ht.taken.length_le
  by_cases hdeq : s.deq < 31
  · by_cases hlt : s.taken.length < s.posted.length
    · obtain ⟨t, hget, he⟩ := consume_take hr ht hdeq hlt hb
      rw [he]
      refine ⟨v, ?_, hdeq, ht.ccs, snoc_of_getElem ht.taken hget⟩
      rw [List.length_append, ht.length, List.length_singleton]
      rfl
    · rw [consume_wait hr ht hdeq (by omega)]
      exact ⟨v, ht⟩
  · have hdeq : s.deq = 31 := by have := ht.deq_le; omega
    rw [consume_link hr ht hdeq]
    by_cases h : lap (w - 1) = lap v
    · rw [if_pos h]
      refine ⟨v + 1, ?_, Nat.zero_le 31, rfl, ht.taken⟩
      show s.taken.length = 31 * (v + 1) + 0
      rw [ht.length, hdeq]
      omega
    · rw [if_neg h]
      exact ⟨v, ht⟩

/-- the situation in which the controller waits on a Link that already has the phase of the next lap -/
def Full (κ : Kind) (s : Sys) : Prop := κ ≠ .control ∧ s.deq = 31 ∧ s.outstanding = 31

/-- **Progress.** An outstanding TRB is taken within two steps of the controller, unless the ring is full and the
controller stands on the Link. -/
theorem consume_progress {κ : Kind} (hr : RingInv base s.ring s.posted w) (hk : KindInv κ s.ring w) (ht : TakenInv s v)
    (hlt : s.taken.length < s.posted.length) (hb : s.posted.length ≤ s.taken.length + 31) (hfull : ¬ Full κ s) :
    ∃ n t, n ≤ 2 ∧ s.posted[s.taken.length]? = some t ∧ (consume^[n] s).taken = s.taken ++ [t] := by
  by_cases hdeq : s.deq < 31
  · obtain ⟨t, hget, he⟩ := consume_take hr ht hdeq hlt hb
    exact ⟨1, t, by decide, hget, by rw [Function.iterate_one, he]⟩
  · have hdeq : s.deq = 31 := by have := ht.deq_le; omega
    -- the producer is in the lap after that of the controller, so the Link has the phase of the controller's lap
    have hw : w = v + 1 := by
      have h1 := hr.length
      have h2 := ht.length
      have h3 := hr.enq_le
      by_cases hc : κ = .control
      · have := hk.lazily hc
        omega
      · have := hk.eager hc
        have hne : s.posted.length ≠ s.taken.length + 31 := by
          intro he
          exact hfull ⟨hc, hdeq, by unfold Sys.outstanding; omega⟩
        omega
    have hlink := consume_link hr ht hdeq
    rw [hw, Nat.add_sub_cancel, if_pos rfl] at hlink
    have ht' : TakenInv (consume s) (v + 1) := by
      rw [hlink]
      refine ⟨?_, Nat.zero_le 31, rfl, ht.taken⟩
      show s.taken.length = 31 * (v + 1) + 0
      rw [ht.length, hdeq]
      omega
    have hr' : RingInv base (consume s).ring (consume s).posted w := by rw [hlink]; exact hr
    obtain ⟨t, hget, he⟩ := consume_take hr' ht' (by rw [hlink]; exact Nat.zero_lt_succ 30)
      (by rw [hlink]; exact hlt) (by rw [hlink]; exact hb)
    refine ⟨2, t, le_refl 2, ?_, ?_⟩
    · rw [hlink] at hget; exact hget
    · show (consume (consume s)).taken = _
      rw [he, hlink]

end

/-! ## Runs -/

/-- the requests of a run, in order -/
def requests (ops : List Op) : List Request :=
  ops.filterMap fun o =>
    match o with
    | .produce q => some q
    | .consume => none

/-- the TRBs posted are those of the requests, in order, with no-ops between transfers of a control ring only -/
inductive Framed (κ : Kind) : List Request → List Trb → Prop where
  | nil : Framed κ [] []
  | snoc (qs : List Request) (ts : List Trb) (q : Request) (n : ℕ) (c d : UInt32) (h : Framed κ qs ts)
      (hn : n = 0 ∨ κ = .control) : Framed κ (qs ++ [q]) (ts ++ (List.replicate n (noop c) ++ q.trbs d))

structure SysInv (κ : Kind) (base : UInt64) (qs : List Request) (s : Sys) : Prop where
  ring : ∃ w, RingInv base s.ring s.posted w ∧ KindInv κ s.ring w
  taken : ∃ v, TakenInv s v
  framed : Framed κ qs s.posted

theorem posting_framed {κ : Kind} {qs : List Request} {s : Sys} {q : Request} (h : Framed κ qs s.posted)
    (hk : κ ≠ .control → s.ring.enq ≤ 30) (hq : q.kind = κ) : Framed κ (qs ++ [q]) (s.posted ++ posting s.ring q) := by
  unfold posting
  by_cases hfit : s.ring.enq + (q.trbs s.ring.pcs).length ≤ 31
  · rw [if_pos hfit]
    exact .snoc qs s.posted q 0 0 s.ring.pcs h (Or.inl rfl)
  · rw [if_neg hfit]
    refine .snoc qs s.posted q _ _ _ h (Or.inr ?_)
    by_contra hc
    obtain ⟨t, hts, -⟩ := produce_single (r := s.ring) (q := q) (by rw [hq]; exact hc) (hk hc)
    have := hk hc
    rw [hts, List.length_singleton] at hfit
    omega

theorem run_snoc (s : Sys) (ops : List Op) (o : Op) : run s (ops ++ [o]) = step (run s ops) o := by
  simp [run, List.foldl_append]

theorem run_append (s : Sys) (a b : List Op) : run s (a ++ b) = run (run s a) b := by
  simp [run, List.foldl_append]

theorem Bounded.of_append {κ : Kind} {n : ℕ} {s : Sys} {a b : List Op} (h : Bounded κ n s (a ++ b)) : Bounded κ n s a where
  kind := fun q hq => h.kind q (List.mem_append_left _ hq)
  bound := by
    intro j
    by_cases hj : j ≤ a.length
    · have := h.bound j
      rw [List.take_append_of_le_length hj] at this
      exact this
    · have := h.bound a.length
      rw [List.take_left] at this
      rw [List.take_of_length_le (by omega)]
      exact this

/-- **Run lemma.** -/
theorem run_inv {κ : Kind} {base : UInt64} {ops : List Op} (h : Bounded κ 31 (Sys.start base) ops) :
    SysInv κ base (requests ops) (run (Sys.start base) ops) := by
  induction ops using List.reverseRecOn with
  | nil =>
    exact ⟨⟨0, new_inv base, fun _ => Nat.zero_le 30, fun _ => Or.inl rfl⟩,
      ⟨0, rfl, Nat.zero_le 31, rfl, List.prefix_refl []⟩, .nil⟩
  | append_singleton ops o ih =>
    have hinv := ih h.of_append
    have hb : (run (Sys.start base) ops).posted.length ≤ (run (Sys.start base) ops).taken.length + 31 := by
      have := h.of_append.bound ops.length
      rw [List.take_length, Sys.outstanding] at this
      omega
    obtain ⟨w, hr, hk⟩ := hinv.ring
    obtain ⟨v, ht⟩ := hinv.taken
    rw [run_snoc]
    cases o with
    | produce q =>
      have hq := h.kind q (by simp)
      obtain ⟨w', hr', hk'⟩ := produce_inv hr hk hq
      have hreq : requests (ops ++ [.produce q]) = requests ops ++ [q] := by simp [requests]
      rw [hreq]
      exact ⟨⟨w', hr', hk'⟩, ⟨v, ht.length, ht.deq_le, ht.ccs, ht.taken.trans (List.prefix_append _ _)⟩,
        posting_framed hinv.framed hk.eager hq⟩
    | consume =>
      have hreq : requests (ops ++ [.consume]) = requests ops := by simp [requests]
      rw [hreq]
      have hsame : (consume (run (Sys.start base) ops)).ring = (run (Sys.start base) ops).ring ∧
          (consume (run (Sys.start base) ops)).posted = (run (Sys.start base) ops).posted := by
        unfold consume
        split_ifs <;> exact ⟨rfl, rfl⟩
      refine ⟨⟨w, ?_, ?_⟩, consume_inv hr ht hb, ?_⟩
      · show RingInv base (consume _).ring (consume _).posted w
        rw [hsame.1, hsame.2]; exact hr
      · show KindInv κ (consume _).ring w
        rw [hsame.1]; exact hk
      · show Framed κ _ (consume _).posted
        rw [hsame.2]; exact hinv.framed

/-- **Ring protocol.** For each kind of ring and every interleaving of requests and controller steps with at most 31 TRBs
outstanding: the TRBs taken are a prefix of those posted, so they are taken in order, each once, and none of an earlier
lap; those posted are the TRBs of the requests with no-ops between transfers only; index 31 holds the Link to the base of
the ring with the toggle bit; the TRBs of a request stand at consecutive indices before it; and an outstanding TRB is
taken within two steps of the controller, unless the ring is one that wraps at once, 31 TRBs are outstanding and the
controller stands on the Link. -/
theorem ring_protocol (κ : Kind) (base : UInt64) (ops : List Op) (h : Bounded κ 31 (Sys.start base) ops) :
    (run (Sys.start base) ops).taken <+: (run (Sys.start base) ops).posted ∧
    Framed κ (requests ops) (run (Sys.start base) ops).posted ∧
    (∃ b, (run (Sys.start base) ops).ring.trbs 31 = ⟨base, 0, trbLink ||| (1 : UInt32) <<< 1 ||| phaseBit b⟩) ∧
    (∀ q, q.kind = κ → ∃ e c, e + (q.trbs c).length ≤ 31 ∧
      (∃ fillers, posting (run (Sys.start base) ops).ring q = fillers ++ q.trbs c) ∧
      ∀ j t, (q.trbs c)[j]? = some t → (produce (run (Sys.start base) ops).ring q).trbs (e + j) = t) ∧
    ((run (Sys.start base) ops).taken.length < (run (Sys.start base) ops).posted.length →
      ¬ Full κ (run (Sys.start base) ops) →
      ∃ n t, n ≤ 2 ∧ (run (Sys.start base) ops).posted[(run (Sys.start base) ops).taken.length]? = some t ∧
        (consume^[n] (run (Sys.start base) ops)).taken = (run (Sys.start base) ops).taken ++ [t]) := by
  have hinv := run_inv h
  obtain ⟨w, hr, hk⟩ := hinv.ring
  obtain ⟨v, ht⟩ := hinv.taken
  refine ⟨ht.taken, hinv.framed, ⟨_, hr.link⟩, fun q hq => produce_consecutive hr hk hq, fun hlt hfull => ?_⟩
  have hb := h.bound ops.length
  rw [List.take_length, Sys.outstanding] at hb
  exact consume_progress hr hk ht hlt (by omega) hfull

/-- no state of the run has more than n TRBs outstanding -/
def within (n : ℕ) : Sys → List Op → Bool
  | s, [] => s.outstanding ≤ n
  | s, o :: ops => decide (s.outstanding ≤ n) && within n (step s o) ops

theorem within_bound {n : ℕ} {s : Sys} {ops : List Op} (h : within n s ops = true) (j : ℕ) :
    (run s (ops.take j)).outstanding ≤ n := by
  induction ops generalizing s j with
  | nil =>
    rw [List.take_nil]
    exact of_decide_eq_true h
  | cons o ops ih =>
    obtain ⟨h0, hrest⟩ := Bool.and_eq_true_iff.1 h
    cases j with
    | zero => exact of_decide_eq_true h0
    | succ j => exact ih hrest j

/-- eleven control reads, each taken at once: the eleventh does not fit before the Link and follows a no-op -/
def demoOps : List Op := (List.replicate 11 [.produce (.ctrlIn 0x80 0x5000 8), .consume, .consume, .consume]).flatten

theorem demoBounded : Bounded .control 31 (Sys.start 0x1000) demoOps where
  kind := by
    intro q hq
    obtain ⟨l, hl, hq⟩ := List.mem_flatten.1 hq
    rw [List.eq_of_mem_replicate hl] at hq
    simp only [List.mem_cons, reduceCtorEq, List.not_mem_nil, or_self, or_false, Op.produce.injEq] at hq
    rw [hq]
    rfl
  bound := within_bound (by decide +kernel)

theorem ring_protocol_demo : (run (Sys.start 0x1000) demoOps).taken <+: (run (Sys.start 0x1000) demoOps).posted ∧
    (run (Sys.start 0x1000) demoOps).posted.length = 34 :=
  ⟨(ring_protocol .control 0x1000 demoOps demoBounded).1, by decide +kernel⟩

/-- a controller that waits with n TRBs outstanding waits for ever when no more than n may be -/
theorem run_stalled {n : ℕ} {s : Sys} {ops : List Op} (hs : consume s = s) (hn : s.outstanding = n)
    (hle : s.taken.length ≤ s.posted.length) (hb : ∀ j, (run s (ops.take j)).outstanding ≤ n) : run s ops = s := by
  induction ops with
  | nil => rfl
  | cons o ops ih =>
    cases o with
    | produce q =>
      have hone := hb 1
      have hpos : 1 ≤ (posting s.ring q).length := by
        have hc := trbs_length_pos q s.ring.pcs
        have hd := trbs_length_pos q (s.ring.pcs ^^^ 1)
        unfold posting
        split_ifs
        · exact hc
        · rw [List.length_append]; omega
      change (s.posted ++ posting s.ring q).length - s.taken.length ≤ n at hone
      unfold Sys.outstanding at hn
      rw [List.length_append] at hone
      omega
    | consume =>
      have hstep : run s (.consume :: ops) = run s ops := congrArg (fun u => run u ops) hs
      rw [hstep]
      refine ih fun j => ?_
      have := hb (j + 1)
      rw [List.take_succ_cons] at this
      rw [show run s (ops.take j) = run s (.consume :: ops.take j) from (congrArg (fun u => run u (ops.take j)) hs).symm]
      exact this

/-- 31 reports posted and taken, then 31 more while the controller has not passed the Link -/
def fullOps : List Op :=
  List.replicate 31 (.produce (.hid 0x5000)) ++ List.replicate 31 .consume ++ List.replicate 31 (.produce (.hid 0x5000))

/-- **A full ring stalls.** With never more than 31 TRBs outstanding the controller comes to stand on a Link that was
given the phase of the next lap: 31 TRBs are posted, and in no continuation within the bound is any of them taken. -/
theorem ring_full_stall : Bounded .hid 31 (Sys.start 0x1000) fullOps ∧ (run (Sys.start 0x1000) fullOps).outstanding = 31 ∧
    ∀ ops, Bounded .hid 31 (Sys.start 0x1000) (fullOps ++ ops) →
      (run (Sys.start 0x1000) (fullOps ++ ops)).taken = (run (Sys.start 0x1000) fullOps).taken := by
  have hout : (run (Sys.start 0x1000) fullOps).outstanding = 31 := by decide +kernel
  refine ⟨⟨fun q hq => ?_, within_bound (by decide +kernel)⟩, hout, fun ops h => ?_⟩
  · have hq' : q = .hid 0x5000 := by
      rcases List.mem_append.1 hq with hq | hq
      · rcases List.mem_append.1 hq with hq | hq
        · exact Op.produce.inj (List.eq_of_mem_replicate hq)
        · cases List.eq_of_mem_replicate hq
      · exact Op.produce.inj (List.eq_of_mem_replicate hq)
    rw [hq']
    rfl
  · have hwait : consume (run (Sys.start 0x1000) fullOps) = run (Sys.start 0x1000) fullOps := by
      unfold consume
      rw [if_pos (by decide +kernel)]
    rw [run_append, run_stalled hwait hout (by decide +kernel)]
    intro j
    have := h.bound (fullOps.length + j)
    rw [List.take_length_add_append, run_append] at this
    exact this

end Tomorrow.Usb
