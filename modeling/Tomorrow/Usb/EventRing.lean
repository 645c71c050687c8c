/-
The event ring of the USB controller (`xhci.rs`): the controller as producer, `consume_event` as consumer.

The ring is a page of 256 TRBs without a Link. The controller writes events at consecutive entries with its own cycle bit
and flips it at each wrap; it never overwrites an event that was not consumed. The driver takes the entry at `EVT_DEQ`
when its cycle bit is `EVT_CCS`, flips that bit at its own wrap, and tells the controller its position in ERDP.

`EvtSys` adds to the ring the controller and two logs, the events written and those returned. Results, for every
interleaving:
- `EvtInv`, `run_evtInv`: the cells hold the last 256 events, both sides know the phase of their lap;
- `event_ring`: `consume_event` returns the oldest event not returned yet, and none exactly when there is none.
-/
import Tomorrow.Usb.Ring

namespace Tomorrow.Usb

open Tomorrow.Core

/-! ## The consumer -/

def evtRingSize : ℕ := 256

/-- the ring with `EVT_DEQ` and `EVT_CCS`, and the last value written to ERDP -/
structure EventRing where
  base : UInt64
  /-- TRB i, at base + 16 i -/
  trbs : ℕ → Trb
  deq : ℕ
  ccs : UInt32
  erdp : UInt64

/-- ERDP for an index: the address of the entry with the busy bit, which the write clears -/
def erdpAt (base : UInt64) (deq : ℕ) : UInt64 :=
  (base + UInt64.ofNat deq * (16 : UInt64)) ||| ((1 : UInt64) <<< 3)

/-- a zeroed page, as `init` leaves it -/
def EventRing.new (base : UInt64) : EventRing := ⟨base, fun _ => ⟨0, 0, 0⟩, 0, 1, base ||| ((1 : UInt64) <<< 3)⟩

/-- type, completion code and slot of an event -/
def Trb.event (t : Trb) : UInt32 × UInt32 × UInt32 := (t.control >>> 10 &&& 0x3F, t.status >>> 24 &&& 0xFF, t.control >>> 24)

def EventRing.next (r : EventRing) : EventRing :=
  if r.deq + 1 = evtRingSize then { r with deq := 0, ccs := r.ccs ^^^ 1 } else { r with deq := r.deq + 1 }

def consumeEvent (r : EventRing) : Option (UInt32 × UInt32 × UInt32) × EventRing :=
  if (r.trbs r.deq).control &&& 1 ≠ r.ccs then (none, r)
  else (some (r.trbs r.deq).event, { r.next with erdp := erdpAt r.base r.next.deq })

/-! ## The system -/

/-- the ring, the index and cycle bit of the controller, and the events written and returned so far -/
structure EvtSys where
  ring : EventRing
  enq : ℕ
  pcs : UInt32
  written : List Trb
  returned : List (UInt32 × UInt32 × UInt32)

def EvtSys.start (base : UInt64) : EvtSys := ⟨EventRing.new base, 0, 1, [], []⟩

/-- the event with the cycle bit given -/
def Trb.withCycle (t : Trb) (c : UInt32) : Trb := { t with control := t.control &&& 0xFFFFFFFE ||| c }

/-- the controller writes an event, unless all 256 entries hold events that were not consumed -/
def postEvent (s : EvtSys) (e : Trb) : EvtSys :=
  if s.written.length < s.returned.length + evtRingSize then
    { ring := { s.ring with trbs := Function.update s.ring.trbs s.enq (e.withCycle s.pcs) }
      enq := if s.enq + 1 = evtRingSize then 0 else s.enq + 1
      pcs := if s.enq + 1 = evtRingSize then s.pcs ^^^ 1 else s.pcs
      written := s.written ++ [e]
      returned := s.returned }
  else s

inductive EvtOp where
  | post (e : Trb)
  | consume

def EvtSys.step (s : EvtSys) : EvtOp → EvtSys
  | .post e => postEvent s e
  | .consume => { s with ring := (consumeEvent s.ring).2, returned := s.returned ++ (consumeEvent s.ring).1.toList }

def EvtSys.run (s : EvtSys) (ops : List EvtOp) : EvtSys := ops.foldl EvtSys.step s

/-! ## Bits -/

theorem withCycle_control (t : Trb) (b : Bool) :
    (t.withCycle (phaseBit b)).control.toNat = 2 ^ 1 * (t.control.toNat / 2 ^ 1) + b.toNat := by
  have hmask : t.control.toNat &&& 0xFFFFFFFE = 2 ^ 1 * (t.control.toNat / 2 ^ 1) := by
    have hlt : t.control.toNat < 2 ^ 32 := t.control.toNat_lt
    refine Nat.eq_of_testBit_eq fun i => ?_
    rw [show 0xFFFFFFFE = 2 ^ 32 - (1 + 1) from rfl, Nat.testBit_and, Nat.testBit_two_pow_sub_succ (by decide),
      Nat.testBit_two_pow_mul, Nat.testBit_div_two_pow]
    by_cases hi : i < 32
    · by_cases h1 : 1 ≤ i
      · have hone : Nat.testBit 1 i = false := Nat.testBit_lt_two_pow (Nat.one_lt_two_pow (by omega))
        simp [hi, h1, hone]
      · simp [show i = 0 by omega]
    · have hb : t.control.toNat.testBit i = false :=
        Nat.testBit_lt_two_pow (hlt.trans_le (Nat.pow_le_pow_right (by decide) (by omega)))
      simp [hb, Nat.sub_add_cancel (show 1 ≤ i by omega)]
  have hbit : (phaseBit b).toNat = b.toNat := by cases b <;> rfl
  show (t.control &&& 0xFFFFFFFE ||| phaseBit b).toNat = _
  rw [UInt32.toNat_or, UInt32.toNat_and, show (0xFFFFFFFE : UInt32).toNat = 0xFFFFFFFE from rfl, hmask, hbit]
  exact (Nat.two_pow_add_eq_or_of_lt (i := 1) (by cases b <;> decide) _).symm

theorem withCycle_phase (t : Trb) (b : Bool) : (t.withCycle (phaseBit b)).phase = b := by
  rw [← cycle_eq_phaseBit]
  refine UInt32.toNat_inj.1 ?_
  rw [Trb.cycle, UInt32.toNat_and, withCycle_control]
  show _ &&& 1 = _
  rw [Nat.and_one_is_mod]
  cases b <;> simp [phaseBit]

/-- the cycle bit is not part of what the driver reads -/
theorem withCycle_event (t : Trb) (b : Bool) : (t.withCycle (phaseBit b)).event = t.event := by
  have hdiv : ∀ {n : UInt32}, 1 ≤ n.toNat % 32 → (t.withCycle (phaseBit b)).control >>> n = t.control >>> n := by
    intro n hn
    refine UInt32.toNat_inj.1 ?_
    rw [UInt32.toNat_shiftRight, UInt32.toNat_shiftRight, withCycle_control]
    obtain ⟨m, hm⟩ : ∃ m, n.toNat % 32 = 1 + m := ⟨n.toNat % 32 - 1, by omega⟩
    rw [hm, Nat.shiftRight_add, Nat.shiftRight_add, Nat.shiftRight_one, Nat.shiftRight_one]
    congr 1
    cases b
    · simp
    · simp; omega
  unfold Trb.event
  rw [hdiv (by decide), hdiv (by decide)]
  rfl

/-- the address in ERDP is that of the entry -/
theorem erdpAt_toNat {base : UInt64} (hbase : base.toNat % 4096 = 0) {deq : ℕ} (hd : deq < 256) :
    (erdpAt base deq).toNat = base.toNat + 16 * deq + 8 := by
  have hlt := base.toNat_lt
  unfold erdpAt
  have hsum : (base + UInt64.ofNat deq * 16).toNat = 2 ^ 4 * (base.toNat / 16 + deq) := by
    rw [UInt64.toNat_add, UInt64.toNat_mul, UInt64.toNat_ofNat']
    show (base.toNat + deq % 2 ^ 64 * 16 % 2 ^ 64) % 2 ^ 64 = _
    omega
  rw [UInt64.toNat_or, hsum, show ((1 : UInt64) <<< 3).toNat = 8 from rfl,
    ← Nat.two_pow_add_eq_or_of_lt (by decide)]
  omega
/-! ## The invariant -/

/-- index and cycle bit of a side that has gone through n events -/
structure AtEntry (n idx : ℕ) (cycle : UInt32) : Prop where
  idx : idx = n % evtRingSize
  cycle : cycle = phaseBit (lapPhase evtRingSize n)

/-- both sides advance in the same way -/
theorem AtEntry.succ {n idx : ℕ} {cycle : UInt32} (h : AtEntry n idx cycle) :
    AtEntry (n + 1) (if idx + 1 = evtRingSize then 0 else idx + 1)
      (if idx + 1 = evtRingSize then cycle ^^^ 1 else cycle) := by
  have hidx := h.idx
  unfold evtRingSize at *
  split_ifs with hw
  · refine ⟨by unfold evtRingSize; omega, ?_⟩
    rw [h.cycle, phaseBit_xor]
    unfold evtRingSize lapPhase
    rw [show (n + 1) / 256 = n / 256 + 1 by omega]
    by_cases hp : n / 256 % 2 = 0
    · rw [decide_eq_true hp, decide_eq_false (by omega)]
      rfl
    · rw [decide_eq_false hp, decide_eq_true (by omega)]
      rfl
  · refine ⟨by unfold evtRingSize; omega, ?_⟩
    rw [h.cycle]
    unfold evtRingSize lapPhase
    rw [show (n + 1) / 256 = n / 256 by omega]

structure EvtInv (base : UInt64) (s : EvtSys) : Prop where
  page : s.ring.base = base
  /-- the cells hold the events written, with the cycle bits of their laps -/
  holds : ∃ cells, cells.map Trb.event = s.written.map Trb.event ∧ Holds evtRingSize Trb.phase s.ring.trbs cells
  producer : AtEntry s.written.length s.enq s.pcs
  consumer : AtEntry s.returned.length s.ring.deq s.ring.ccs
  le : s.returned.length ≤ s.written.length
  full : s.written.length ≤ s.returned.length + evtRingSize
  returned : s.returned = (s.written.take s.returned.length).map Trb.event
  erdp : s.ring.erdp = erdpAt base s.ring.deq

theorem atEntry_zero : AtEntry 0 0 1 := ⟨by decide, by decide⟩

theorem start_evtInv (base : UInt64) : EvtInv base (EvtSys.start base) where
  page := rfl
  holds := by
    have hzero : Trb.phase ⟨0, 0, 0⟩ = false := by decide
    exact ⟨[], rfl, Holds.empty fun i _ => hzero⟩
  producer := atEntry_zero
  consumer := atEntry_zero
  le := le_refl _
  full := Nat.zero_le _
  returned := rfl
  erdp := by simp [EvtSys.start, EventRing.new, erdpAt]

/-- what the driver sees at its index -/
theorem consumeEvent_cases {base : UInt64} {s : EvtSys} (h : EvtInv base s) :
    (s.returned.length = s.written.length ∧ consumeEvent s.ring = (none, s.ring)) ∨
      ∃ e, s.written[s.returned.length]? = some e ∧
        consumeEvent s.ring = (some e.event, { s.ring.next with erdp := erdpAt base s.ring.next.deq }) := by
  obtain ⟨cells, hev, hholds⟩ := h.holds
  have hlen : cells.length = s.written.length := by simpa using congrArg List.length hev
  have hbit : (s.ring.trbs s.ring.deq).control &&& 1 = s.ring.ccs ↔
      (s.ring.trbs (s.returned.length % evtRingSize)).phase = lapPhase evtRingSize s.returned.length := by
    rw [h.consumer.cycle, ← cycle_eq_phaseBit, ← h.consumer.idx]
    rfl
  unfold consumeEvent
  rcases Nat.lt_or_eq_of_le h.le with hlt | heq
  · have hfull := h.full
    obtain ⟨hget, hphase⟩ := hholds.next (c := s.returned.length) (by omega) (by omega)
    obtain ⟨e, he⟩ : ∃ e, s.written[s.returned.length]? = some e := ⟨_, List.getElem?_eq_getElem hlt⟩
    refine Or.inr ⟨e, he, ?_⟩
    have hsame : (s.ring.trbs (s.returned.length % evtRingSize)).event = e.event := by
      have := congrArg (fun l => l[s.returned.length]?) hev
      simpa [hget, he] using this
    rw [if_neg (not_not.2 (hbit.2 hphase)), h.consumer.idx, hsame, h.page]
  · have hstale := hholds.stale (by decide)
    rw [hlen, ← heq] at hstale
    exact Or.inl ⟨heq, if_pos fun hc => hstale (hbit.1 hc)⟩

theorem post_evtInv {base : UInt64} {s : EvtSys} (h : EvtInv base s) (e : Trb) : EvtInv base (postEvent s e) := by
  unfold postEvent
  by_cases hroom : s.written.length < s.returned.length + evtRingSize
  · rw [if_pos hroom]
    obtain ⟨cells, hev, hholds⟩ := h.holds
    have hlen : cells.length = s.written.length := by simpa using congrArg List.length hev
    refine ⟨h.page, ?_, ?_, h.consumer, ?_, ?_, ?_, h.erdp⟩
    · refine ⟨cells ++ [e.withCycle s.pcs], ?_, ?_⟩
      · rw [h.producer.cycle, List.map_append, List.map_append, hev, List.map_singleton, withCycle_event,
          List.map_singleton]
      · have hpush := hholds.push (x := e.withCycle s.pcs) (by rw [h.producer.cycle, withCycle_phase, hlen])
        rw [hlen, ← h.producer.idx] at hpush
        exact hpush
    · rw [List.length_append, List.length_singleton]
      exact h.producer.succ
    · rw [List.length_append]
      exact h.le.trans (Nat.le_add_right _ _)
    · rw [List.length_append, List.length_singleton]
      exact hroom
    · rw [List.take_append_of_le_length h.le]
      exact h.returned
  · rw [if_neg hroom]
    exact h

theorem consume_evtInv {base : UInt64} {s : EvtSys} (h : EvtInv base s) : EvtInv base (s.step .consume) := by
  unfold EvtSys.step
  rcases consumeEvent_cases h with ⟨-, hc⟩ | ⟨e, he, hc⟩
  · rw [hc]
    simpa using h
  · rw [hc]
    have hlt : s.returned.length < s.written.length := (List.getElem?_eq_some_iff.1 he).1
    have hnext := h.consumer.succ
    have htrbs : s.ring.next.trbs = s.ring.trbs := by unfold EventRing.next; split_ifs <;> rfl
    have hbase : s.ring.next.base = s.ring.base := by unfold EventRing.next; split_ifs <;> rfl
    have hentry : AtEntry (s.returned.length + 1) s.ring.next.deq s.ring.next.ccs := by
      unfold EventRing.next
      split_ifs at hnext ⊢
      · exact hnext
      · exact hnext
    refine ⟨hbase.trans h.page, ?_, h.producer, ?_, ?_, ?_, ?_, rfl⟩
    · obtain ⟨cells, hev, hholds⟩ := h.holds
      refine ⟨cells, hev, ?_⟩
      dsimp only
      rw [htrbs]
      exact hholds
    · simpa using hentry
    · simpa using hlt
    · have := h.full
      simp only [Option.toList_some, List.length_append, List.length_singleton]
      omega
    · simp only [Option.toList_some, List.length_append, List.length_singleton]
      rw [List.take_add_one, he, List.map_append, ← h.returned]
      rfl

theorem run_evtInv {base : UInt64} {s : EvtSys} (h : EvtInv base s) (ops : List EvtOp) : EvtInv base (s.run ops) := by
  induction ops generalizing s with
  | nil => exact h
  | cons o ops ih =>
    cases o with
    | post e => exact ih (post_evtInv h e)
    | consume => exact ih (consume_evtInv h)

/-- **Event ring.** For every interleaving of controller writes and calls of `consume_event`: a call returns none exactly
when every event written was returned, and otherwise the type, code and slot of the oldest one that was not; the events
returned are those written, in order and each once; `EVT_DEQ` is an index of the ring, and ERDP holds the address of the
entry at this index, inside the page. -/
theorem event_ring (base : UInt64) (hbase : base.toNat % 4096 = 0) (ops : List EvtOp) (s : EvtSys)
    (hs : (EvtSys.start base).run ops = s) :
    (consumeEvent s.ring).1 = (s.written[s.returned.length]?).map Trb.event ∧
    ((consumeEvent s.ring).1 = none ↔ s.returned.length = s.written.length) ∧
    s.returned = (s.written.take s.returned.length).map Trb.event ∧
    s.ring.deq < 256 ∧ s.ring.deq = s.returned.length % 256 ∧
    s.ring.erdp.toNat = base.toNat + 16 * s.ring.deq + 8 ∧ base.toNat + 16 * s.ring.deq + 16 ≤ base.toNat + 4096 := by
  have h := run_evtInv (start_evtInv base) ops
  rw [hs] at h
  have hidx := h.consumer.idx
  have hlt : s.ring.deq < 256 := by rw [hidx]; exact Nat.mod_lt _ (by decide)
  have hcall : (consumeEvent s.ring).1 = (s.written[s.returned.length]?).map Trb.event ∧
      ((consumeEvent s.ring).1 = none ↔ s.returned.length = s.written.length) := by
    rcases consumeEvent_cases h with ⟨heq, hc⟩ | ⟨e, he, hc⟩
    · rw [hc, heq, List.getElem?_eq_none (le_refl _)]
      simp
    · rw [hc, he]
      have := (List.getElem?_eq_some_iff.1 he).1
      exact ⟨rfl, by simp; omega⟩
  exact ⟨hcall.1, hcall.2, h.returned, hlt, hidx, by rw [h.erdp]; exact erdpAt_toNat hbase hlt, by omega⟩

/-- a lap of port changes, each consumed at once; then a command completion in the last entry, consumed behind another event
that the controller has written to the first entry -/
def demoEvents : List EvtOp :=
  (List.replicate 255 [EvtOp.post ⟨0, 0x01000000, 0x00008800⟩, .consume]).flatten ++
    [.post ⟨0, 0x0D000000, 0x06008400⟩, .post ⟨0, 0x01000000, 0x02008800⟩, .consume]

/-- both sides have wrapped: the next event is at index 0, with the other cycle bit -/
theorem event_ring_demo : ∃ s, (EvtSys.start 0x1000).run demoEvents = s ∧ s.returned.length = 256 ∧ s.ring.ccs = 0 ∧
    (consumeEvent s.ring).1 = some (34, 1, 2) ∧ s.ring.deq = 0 := by
  have hrun : ((EvtSys.start 0x1000).run demoEvents).returned.length = 256 ∧
      ((EvtSys.start 0x1000).run demoEvents).ring.ccs = 0 ∧
      ((EvtSys.start 0x1000).run demoEvents).written[256]? = some ⟨0, 0x01000000, 0x02008800⟩ := by decide +kernel
  obtain ⟨hlen, hccs, hlast⟩ := hrun
  obtain ⟨hcall, -, -, -, hdeq, -⟩ := event_ring 0x1000 (by decide) demoEvents _ rfl
  rw [hlen] at hcall hdeq
  rw [hlast] at hcall
  exact ⟨_, rfl, hlen, hccs, hcall, hdeq⟩

end Tomorrow.Usb
