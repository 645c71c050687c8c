/-
Requests and their completions (`xhci.rs`): `wait_event`, `drain_events`, `recover_cmd_ring` and the code that a caller
gets back.

A request (a command, or a control transfer) is posted to its own ring, and `wait_event` polls the event ring for an
event of the type of the request, throws the others away, and gives up after 10,000,000 polls with 0xFF. It does not look
at which TRB the event belongs to. The controller writes events whenever it likes, the completion of a request perhaps
only after the wait for it has ended.

`Driver` adds to the event ring a ghost record: the request each event completes, the kinds of the requests made, and for
each answer the number of the event that was returned. `Act` has the requests and everything else that touches the event
ring. What the requests write into their own rings plays no part here.

Results, for every sequence of requests and every order and delay of events:
- `completion_attribution`: a code is 0xFF, or of the request itself, or of an earlier request of its kind, and that only
  after a request of its kind has timed out;
- `late_completion`: a control transfer gets the code of the one before it.
-/
import Tomorrow.Usb.EventRing

namespace Tomorrow.Usb

open Tomorrow.Core

/-! ## Model -/

inductive ReqKind where
  | command
  | transfer
deriving DecidableEq

/-- `EVT_CMD_COMPL`, `EVT_TRANSFER` -/
def ReqKind.event : ReqKind → UInt32
  | .command => 33
  | .transfer => 32

theorem ReqKind.event_inj {k k' : ReqKind} (h : k.event = k'.event) : k = k' := by
  revert h
  cases k <;> cases k' <;> decide

/-- an event with the number of the request it completes, if any -/
structure Event where
  trb : Trb
  owner : Option ℕ

structure Driver where
  sys : EvtSys
  /-- the owners of the events written -/
  owners : List (Option ℕ)
  /-- the kinds of the requests made -/
  kinds : List ReqKind
  /-- the code returned to each request and the number of the event it came from, none after a timeout -/
  answers : List (UInt32 × Option ℕ)

def Driver.start (base : UInt64) : Driver := ⟨EvtSys.start base, [], [], []⟩

def Driver.write (d : Driver) (e : Event) : Driver :=
  if d.sys.written.length < d.sys.returned.length + evtRingSize then
    { d with sys := postEvent d.sys e.trb, owners := d.owners ++ [e.owner] }
  else d

/-- a request has at most one completion event, of its own type and not before it was made; other events are of other
types -/
def Driver.allowed (d : Driver) (e : Event) : Bool :=
  match e.owner with
  | none => decide (e.trb.event.1 ≠ ReqKind.command.event ∧ e.trb.event.1 ≠ ReqKind.transfer.event)
  | some j => decide (some j ∉ d.owners ∧ (d.kinds[j]?).map ReqKind.event = some e.trb.event.1)

/-- the controller writes an event -/
def Driver.post (d : Driver) (e : Event) : Driver := if d.allowed e then d.write e else d

def Driver.posts (d : Driver) (es : List Event) : Driver := es.foldl Driver.post d

def Driver.consume (d : Driver) : Driver := { d with sys := d.sys.step .consume }

/-- the loop of `wait_event` with n polls left; the events of `arrive n` are written before the poll. None is the
timeout, otherwise code and slot. -/
def waitLoop (expected : UInt32) (arrive : ℕ → List Event) : ℕ → Driver → Option (UInt32 × UInt32) × Driver
  | 0, d => (none, d)
  | n + 1, d =>
    match (consumeEvent (d.posts (arrive n)).sys.ring).1 with
    | some (typ, code, slot) =>
      if typ = expected then (some (code, slot), (d.posts (arrive n)).consume)
      else waitLoop expected arrive n (d.posts (arrive n)).consume
    | none => waitLoop expected arrive n (d.posts (arrive n)).consume

/-- the budget of `wait_event` -/
def waitPolls : ℕ := 10000000

/-- a request is posted and waited for: `post_command` and `wait_event`, `ctrl_in`, `ctrl_out_nodata` -/
def Driver.request (d : Driver) (k : ReqKind) (arrive : ℕ → List Event) : Driver :=
  let r := waitLoop k.event arrive waitPolls { d with kinds := d.kinds ++ [k] }
  match r.1 with
  | none => { r.2 with answers := r.2.answers ++ [(0xFF, none)] }
  | some (code, _) => { r.2 with answers := r.2.answers ++ [(code, some (r.2.sys.returned.length - 1))] }

/-- `drain_events`: consume until there is no event, with batches of events written before the first polls -/
def drainEvents (d : Driver) : List (List Event) → Driver
  | [] => Driver.consume^[d.sys.written.length - d.sys.returned.length] d
  | es :: rest =>
    if (consumeEvent (d.posts es).sys.ring).1 = none then d.posts es else drainEvents (d.posts es).consume rest

/-- the part of `recover_cmd_ring` that sees events: the controller reports that the ring has stopped, then all events
are drained -/
def recoverCmdRing (d : Driver) (stopped : Trb) (batches : List (List Event)) : Driver :=
  drainEvents (d.write ⟨stopped, none⟩) batches

inductive Act where
  | request (k : ReqKind) (arrive : ℕ → List Event)
  | drain (batches : List (List Event))
  | recover (stopped : Trb) (batches : List (List Event))
  /-- an event between two calls -/
  | post (e : Event)
  /-- a single call of `consume_event`, as in `init` and `poll_hid` -/
  | consume

def Driver.act (d : Driver) : Act → Driver
  | .request k arrive => d.request k arrive
  | .drain batches => drainEvents d batches
  | .recover stopped batches => recoverCmdRing d stopped batches
  | .post e => d.post e
  | .consume => d.consume

def Driver.run (d : Driver) (acts : List Act) : Driver := acts.foldl Driver.act d

/-! ## The events -/

/-- the ring works, every event has its owner, a request owns at most one event, of its own type -/
structure Record (base : UInt64) (d : Driver) : Prop where
  ring : EvtInv base d.sys
  owners_len : d.owners.length = d.sys.written.length
  once : ∀ i i' j : ℕ, d.owners[i]? = some (some j) → d.owners[i']? = some (some j) → i = i'
  typed : ∀ (i j : ℕ) e, d.owners[i]? = some (some j) → d.sys.written[i]? = some e →
    (d.kinds[j]?).map ReqKind.event = some e.event.1

/-- the completions that are still in the ring belong to requests -/
def PendingOwned (d : Driver) : Prop :=
  ∀ (i : ℕ) e, d.sys.returned.length ≤ i → d.sys.written[i]? = some e → ∀ k : ReqKind, e.event.1 = k.event →
    ∃ j, d.owners[i]? = some (some j)

/-- events were written or consumed, nothing else -/
structure Later (d d' : Driver) : Prop where
  kinds : d'.kinds = d.kinds
  answers : d'.answers = d.answers
  owners : d.owners <+: d'.owners
  written : d.sys.written <+: d'.sys.written
  returned : d.sys.returned.length ≤ d'.sys.returned.length

theorem Later.refl (d : Driver) : Later d d := ⟨rfl, rfl, List.prefix_rfl, List.prefix_rfl, le_refl _⟩

theorem Later.trans {d d' d'' : Driver} (h : Later d d') (h' : Later d' d'') : Later d d'' :=
  ⟨h'.kinds.trans h.kinds, h'.answers.trans h.answers, h.owners.trans h'.owners, h.written.trans h'.written,
    h.returned.trans h'.returned⟩

theorem getElem?_mono {α : Type} {l l' : List α} (h : l <+: l') {i : ℕ} {x : α} (hx : l[i]? = some x) :
    l'[i]? = some x := by
  obtain ⟨rest, rfl⟩ := h
  rw [List.getElem?_append_left (List.getElem?_eq_some_iff.1 hx).1]
  exact hx

section

variable {base : UInt64} {d d' : Driver}

theorem start_record (base : UInt64) : Record base (Driver.start base) where
  ring := start_evtInv base
  owners_len := rfl
  once := fun i i' j hi => by simp [Driver.start] at hi
  typed := fun i j e hi => by simp [Driver.start] at hi

theorem write_cases (d : Driver) (e : Event) :
    d.write e = d ∨ ((d.write e).sys = postEvent d.sys e.trb ∧ (d.write e).owners = d.owners ++ [e.owner] ∧
      (d.write e).kinds = d.kinds ∧ (d.write e).answers = d.answers ∧ (d.write e).sys.written = d.sys.written ++ [e.trb] ∧
      (d.write e).sys.returned = d.sys.returned) := by
  unfold Driver.write
  by_cases hroom : d.sys.written.length < d.sys.returned.length + evtRingSize
  · rw [if_pos hroom]
    right
    simp only [postEvent, if_pos hroom, and_self]
  · rw [if_neg hroom]
    exact Or.inl rfl

theorem write_later (d : Driver) (e : Event) : Later d (d.write e) := by
  rcases write_cases d e with h | ⟨-, ho, hk, ha, hw, hr⟩
  · rw [h]
    exact Later.refl d
  · exact ⟨hk, ha, ho ▸ List.prefix_append _ _, hw ▸ List.prefix_append _ _, by rw [hr]⟩

theorem Record.write (h : Record base d) (e : Event)
    (he : ∀ j, e.owner = some j → some j ∉ d.owners ∧ (d.kinds[j]?).map ReqKind.event = some e.trb.event.1) :
    Record base (d.write e) := by
  rcases write_cases d e with hd | ⟨hs, ho, hk, -, hw, -⟩
  · rw [hd]
    exact h
  refine ⟨hs ▸ post_evtInv h.ring e.trb, ?_, ?_, ?_⟩
  · rw [ho, hw, List.length_append, List.length_append, h.owners_len]
    rfl
  · intro i i' j hi hi'
    rw [ho] at hi hi'
    rcases getElem?_snoc hi with ⟨-, hi⟩ | ⟨hi, hj⟩ <;> rcases getElem?_snoc hi' with ⟨-, hi'⟩ | ⟨hi', hj'⟩
    · exact h.once i i' j hi hi'
    · exact absurd (List.mem_of_getElem? hi) (he j hj'.symm).1
    · exact absurd (List.mem_of_getElem? hi') (he j hj.symm).1
    · exact hi.trans hi'.symm
  · intro i j t hi ht
    rw [ho] at hi
    rw [hw] at ht
    rw [hk]
    rcases getElem?_snoc hi with ⟨hlt, hi⟩ | ⟨rfl, hj⟩
    · rw [List.getElem?_append_left (by rw [← h.owners_len]; exact hlt)] at ht
      exact h.typed i j t hi ht
    · rw [h.owners_len, List.getElem?_concat_length] at ht
      cases ht
      exact (he j hj.symm).2

theorem PendingOwned.write (h : Record base d) (hp : PendingOwned d) {e : Event}
    (he : ∀ k : ReqKind, e.trb.event.1 = k.event → ∃ j, e.owner = some j) : PendingOwned (d.write e) := by
  rcases write_cases d e with hd | ⟨-, ho, -, -, hw, hr⟩
  · rw [hd]
    exact hp
  intro i t hi ht k hk
  rw [hr] at hi
  rw [hw] at ht
  rw [ho]
  rcases getElem?_snoc ht with ⟨hlt, ht⟩ | ⟨rfl, rfl⟩
  · rw [List.getElem?_append_left (by rw [h.owners_len]; exact hlt)]
    exact hp i t hi ht k hk
  · obtain ⟨j, hj⟩ := he k hk
    exact ⟨j, by rw [← h.owners_len, List.getElem?_concat_length, hj]⟩

theorem post_spec (h : Record base d) (e : Event) :
    Record base (d.post e) ∧ Later d (d.post e) ∧ (PendingOwned d → PendingOwned (d.post e)) := by
  unfold Driver.post
  by_cases ha : d.allowed e = true
  · rw [if_pos ha]
    unfold Driver.allowed at ha
    refine ⟨h.write e ?_, write_later d e, fun hp => hp.write h ?_⟩
    · intro j hj
      simpa [hj] using ha
    · intro k hk
      cases ho : e.owner with
      | none =>
        simp only [ho, decide_eq_true_eq] at ha
        cases k with
        | command => exact absurd hk ha.1
        | transfer => exact absurd hk ha.2
      | some j => exact ⟨j, rfl⟩
  · rw [if_neg ha]
    exact ⟨h, Later.refl d, id⟩

theorem posts_spec (es : List Event) (h : Record base d) :
    Record base (d.posts es) ∧ Later d (d.posts es) ∧ (PendingOwned d → PendingOwned (d.posts es)) := by
  induction es generalizing d with
  | nil => exact ⟨h, Later.refl d, id⟩
  | cons e es ih =>
    obtain ⟨h1, l1, p1⟩ := post_spec h e
    obtain ⟨h2, l2, p2⟩ := ih h1
    exact ⟨h2, l1.trans l2, fun hp => p2 (p1 hp)⟩

/-- `consume_event` returns none and nothing is pending, or the next event -/
theorem consume_cases (h : Record base d) :
    ((consumeEvent d.sys.ring).1 = none ∧ d.sys.returned.length = d.sys.written.length ∧
      d.consume.sys.returned = d.sys.returned) ∨
    ∃ e, d.sys.written[d.sys.returned.length]? = some e ∧ (consumeEvent d.sys.ring).1 = some e.event ∧
      d.consume.sys.returned = d.sys.returned ++ [e.event] := by
  rcases consumeEvent_cases h.ring with ⟨heq, hc⟩ | ⟨e, he, hc⟩
  · refine Or.inl ⟨by rw [hc], heq, ?_⟩
    simp [Driver.consume, EvtSys.step, hc]
  · refine Or.inr ⟨e, he, by rw [hc], ?_⟩
    simp [Driver.consume, EvtSys.step, hc]

theorem consume_spec (h : Record base d) :
    Record base d.consume ∧ Later d d.consume ∧ (PendingOwned d → PendingOwned d.consume) := by
  have hle : d.sys.returned.length ≤ d.consume.sys.returned.length := by
    rcases consume_cases h with ⟨-, -, hr⟩ | ⟨e, -, -, hr⟩
    · rw [hr]
    · rw [hr, List.length_append]
      exact Nat.le_add_right _ _
  refine ⟨⟨consume_evtInv h.ring, h.owners_len, h.once, h.typed⟩, ⟨rfl, rfl, List.prefix_rfl, List.prefix_rfl, hle⟩, ?_⟩
  intro hp i e hi he k hk
  exact hp i e (hle.trans hi) he k hk

end

/-! ## Draining and waiting -/

section

variable {base : UInt64} {d d' : Driver}

/-- consuming as often as there are events empties the ring -/
theorem consume_all (n : ℕ) (h : Record base d) (hn : d.sys.written.length - d.sys.returned.length = n) :
    Record base (Driver.consume^[n] d) ∧ Later d (Driver.consume^[n] d) ∧
      (Driver.consume^[n] d).sys.returned.length = (Driver.consume^[n] d).sys.written.length := by
  induction n generalizing d with
  | zero =>
    have := h.ring.le
    exact ⟨h, Later.refl d, show d.sys.returned.length = d.sys.written.length by omega⟩
  | succ n ih =>
    obtain ⟨h1, l1, -⟩ := consume_spec h
    have hlen : d.consume.sys.written.length - d.consume.sys.returned.length = n := by
      rcases consume_cases h with ⟨-, heq, -⟩ | ⟨e, -, -, hr⟩
      · omega
      · rw [hr, List.length_append, List.length_singleton]
        show d.sys.written.length - _ = n
        omega
    obtain ⟨h2, l2, he⟩ := ih h1 hlen
    rw [Function.iterate_succ_apply]
    exact ⟨h2, l1.trans l2, he⟩

theorem drain_spec (batches : List (List Event)) (h : Record base d) :
    Record base (drainEvents d batches) ∧ Later d (drainEvents d batches) ∧
      (drainEvents d batches).sys.returned.length = (drainEvents d batches).sys.written.length := by
  induction batches generalizing d with
  | nil => exact consume_all _ h rfl
  | cons es rest ih =>
    obtain ⟨h1, l1, -⟩ := posts_spec es h
    unfold drainEvents
    by_cases hnone : (consumeEvent (d.posts es).sys.ring).1 = none
    · rw [if_pos hnone]
      refine ⟨h1, l1, ?_⟩
      rcases consume_cases h1 with ⟨-, heq, -⟩ | ⟨e, -, hsome, -⟩
      · exact heq
      · rw [hnone] at hsome
        cases hsome
    · rw [if_neg hnone]
      obtain ⟨h2, l2, -⟩ := consume_spec h1
      obtain ⟨h3, l3, heq⟩ := ih h2
      exact ⟨h3, (l1.trans l2).trans l3, heq⟩

/-- after a drain nothing is pending -/
theorem pendingOwned_of_empty (h : d.sys.returned.length = d.sys.written.length) : PendingOwned d := by
  intro i e hi he
  have := (List.getElem?_eq_some_iff.1 he).1
  omega

/-- event i was consumed last, after state d; it is of the type of k and completes request j -/
structure Found (d d' : Driver) (k : ReqKind) (code slot : UInt32) (i j : ℕ) (e : Trb) : Prop where
  last : d'.sys.returned.length = i + 1
  late : d.sys.returned.length ≤ i
  written : d'.sys.written[i]? = some e
  event : e.event = (k.event, code, slot)
  owner : d'.owners[i]? = some (some j)

/-- a wait only writes and consumes events, and returns the last one it consumed -/
theorem wait_spec {k : ReqKind} {arrive : ℕ → List Event} {r : Option (UInt32 × UInt32)} (n : ℕ)
    (h : Record base d) (hp : PendingOwned d) (hw : waitLoop k.event arrive n d = (r, d')) :
    Record base d' ∧ Later d d' ∧ PendingOwned d' ∧
      ∀ code slot, r = some (code, slot) → ∃ i j e, Found d d' k code slot i j e := by
  induction n generalizing d with
  | zero =>
    cases hw
    exact ⟨h, Later.refl _, hp, fun _ _ hr => by cases hr⟩
  | succ n ih =>
    obtain ⟨h1, l1, p1⟩ := posts_spec (arrive n) h
    obtain ⟨h2, l2, p2⟩ := consume_spec h1
    have l12 := l1.trans l2
    -- the loop goes on after an event of another type, or none
    have hgo : waitLoop k.event arrive n (d.posts (arrive n)).consume = (r, d') →
        Record base d' ∧ Later d d' ∧ PendingOwned d' ∧
          ∀ code slot, r = some (code, slot) → ∃ i j e, Found d d' k code slot i j e := by
      intro hrest
      obtain ⟨h3, l3, p3, hfound⟩ := ih h2 (p2 (p1 hp)) hrest
      refine ⟨h3, l12.trans l3, p3, fun code slot hr => ?_⟩
      obtain ⟨i, j, e, hf⟩ := hfound code slot hr
      exact ⟨i, j, e, hf.last, l12.returned.trans hf.late, hf.written, hf.event, hf.owner⟩
    unfold waitLoop at hw
    rcases consume_cases h1 with ⟨hnone, -, -⟩ | ⟨e, he, hsome, hret⟩
    · rw [hnone] at hw
      exact hgo hw
    · rw [hsome] at hw
      obtain ⟨typ, code', slot', hev⟩ : ∃ typ code' slot', e.event = (typ, code', slot') := ⟨_, _, _, rfl⟩
      simp only [hev] at hw
      by_cases htyp : typ = k.event
      · rw [if_pos htyp] at hw
        cases hw
        refine ⟨h2, l12, p2 (p1 hp), fun code slot hr => ?_⟩
        cases hr
        -- the event was pending, so it completes a request
        obtain ⟨j, hj⟩ := p1 hp _ e (le_refl _) he k (by rw [hev, htyp])
        refine ⟨(d.posts (arrive n)).sys.returned.length, j, e, ?_, l1.returned, he, by rw [hev, htyp], hj⟩
        rw [hret, List.length_append, List.length_singleton]
      · rw [if_neg htyp] at hw
        exact hgo hw

end

/-! ## Answers -/

/-- the completion event of request j was consumed -/
def Consumed (d : Driver) (j : ℕ) : Prop := ∃ i < d.sys.returned.length, d.owners[i]? = some (some j)

/-- a request of kind k, not after request j, has timed out -/
def TimedOut (d : Driver) (k : ReqKind) (j : ℕ) : Prop :=
  ∃ r ≤ j, d.kinds[r]? = some k ∧ d.answers[r]? = some (0xFF, none)

/-- what the code c returned to request j is: 0xFF after a timeout; otherwise that of event i, an event of the type
expected, which completes request j itself or an earlier request of the same kind, and then one of that kind, not after
this earlier one, has timed out -/
def Answered (d : Driver) (j : ℕ) (c : UInt32) : Option ℕ → Prop
  | none => c = 0xFF
  | some i => i < d.sys.returned.length ∧ ∃ k e j', d.kinds[j]? = some k ∧ d.sys.written[i]? = some e ∧
      e.event.1 = k.event ∧ e.event.2.1 = c ∧ d.owners[i]? = some (some j') ∧ d.kinds[j']? = some k ∧
      (j' = j ∨ (j' < j ∧ TimedOut d k j'))

/-- between two acts -/
structure Ledger (base : UInt64) (d : Driver) : Prop extends Record base d where
  pending : PendingOwned d
  len : d.answers.length = d.kinds.length
  /-- a request whose completion was not consumed has timed out, or one before it has -/
  settled : ∀ (j : ℕ) k, d.kinds[j]? = some k → Consumed d j ∨ TimedOut d k j
  answered : ∀ (j : ℕ) c o, d.answers[j]? = some (c, o) → Answered d j c o
  /-- no event is returned twice -/
  unique : ∀ (j₁ j₂ : ℕ) c₁ c₂ i, d.answers[j₁]? = some (c₁, some i) → d.answers[j₂]? = some (c₂, some i) → j₁ = j₂

theorem start_ledger (base : UInt64) : Ledger base (Driver.start base) where
  toRecord := start_record base
  pending := fun i e _ he => by simp [Driver.start, EvtSys.start] at he
  len := rfl
  settled := fun j k hj => by simp [Driver.start] at hj
  answered := fun j c o hj => by simp [Driver.start] at hj
  unique := fun j₁ j₂ c₁ c₂ i hj => by simp [Driver.start] at hj

section

variable {base : UInt64} {d d' : Driver}

theorem Consumed.later {j : ℕ} (h : Consumed d j) (hl : Later d d') : Consumed d' j := by
  obtain ⟨i, hi, ho⟩ := h
  exact ⟨i, hi.trans_le hl.returned, getElem?_mono hl.owners ho⟩

/-- what was answered stays so while requests and answers are added -/
theorem Answered.grow {j : ℕ} {c : UInt32} {o : Option ℕ} (h : Answered d j c o) (hk : d.kinds <+: d'.kinds)
    (ha : d.answers <+: d'.answers) (ho : d.owners <+: d'.owners) (hw : d.sys.written <+: d'.sys.written)
    (hr : d.sys.returned.length ≤ d'.sys.returned.length) : Answered d' j c o := by
  cases o with
  | none => exact h
  | some i =>
    obtain ⟨hi, k, e, j', h1, h2, h3, h4, h5, h6, h7⟩ := h
    refine ⟨hi.trans_le hr, k, e, j', getElem?_mono hk h1, getElem?_mono hw h2, h3, h4, getElem?_mono ho h5,
      getElem?_mono hk h6, ?_⟩
    rcases h7 with rfl | ⟨hlt, r, hrj, hrk, hra⟩
    · exact Or.inl rfl
    · exact Or.inr ⟨hlt, r, hrj, getElem?_mono hk hrk, getElem?_mono ha hra⟩

/-- events alone change no answer -/
theorem Ledger.later (h : Ledger base d) (hrec : Record base d') (hl : Later d d') (hp : PendingOwned d') :
    Ledger base d' where
  toRecord := hrec
  pending := hp
  len := by rw [hl.answers, hl.kinds, h.len]
  settled := by
    intro j k hj
    rw [hl.kinds] at hj
    rcases h.settled j k hj with hc | ⟨r, hrj, hrk, hra⟩
    · exact Or.inl (hc.later hl)
    · exact Or.inr ⟨r, hrj, by rw [hl.kinds]; exact hrk, by rw [hl.answers]; exact hra⟩
  answered := by
    intro j c o hj
    rw [hl.answers] at hj
    exact (h.answered j c o hj).grow (hl.kinds ▸ List.prefix_rfl) (hl.answers ▸ List.prefix_rfl) hl.owners hl.written
      hl.returned
  unique := by
    rw [hl.answers]
    exact h.unique

/-- the request is noted before the wait -/
theorem Record.asked (h : Record base d) (k : ReqKind) : Record base { d with kinds := d.kinds ++ [k] } where
  ring := h.ring
  owners_len := h.owners_len
  once := h.once
  typed := by
    intro i j e hi he
    have ht := h.typed i j e hi he
    obtain ⟨k', hk', hev⟩ := Option.map_eq_some_iff.1 ht
    show ((d.kinds ++ [k])[j]?).map ReqKind.event = _
    rw [getElem?_mono (List.prefix_append d.kinds [k]) hk', Option.map_some, hev]

/-- the last request and its answer are added -/
theorem Ledger.answer (h : Ledger base d) {k : ReqKind} {c : UInt32} {o : Option ℕ} (hrec : Record base d')
    (hp : PendingOwned d') (hl : Later { d with kinds := d.kinds ++ [k] } d')
    (hset : Consumed d' d.kinds.length ∨ TimedOut { d' with answers := d'.answers ++ [(c, o)] } k d.kinds.length)
    (hans : Answered { d' with answers := d'.answers ++ [(c, o)] } d.kinds.length c o)
    (hnew : ∀ i, o = some i → d.sys.returned.length ≤ i) : Ledger base { d' with answers := d'.answers ++ [(c, o)] } := by
  have hkinds : d'.kinds = d.kinds ++ [k] := hl.kinds
  have hanswers : d'.answers = d.answers := hl.answers
  have hk : d.kinds <+: d'.kinds := hkinds ▸ List.prefix_append _ _
  have ha : d.answers <+: d'.answers ++ [(c, o)] := hanswers ▸ List.prefix_append _ _
  -- an answer is an old one or the new one
  have hsplit : ∀ {j : ℕ} {x}, (d'.answers ++ [(c, o)])[j]? = some x →
      d.answers[j]? = some x ∨ (j = d.kinds.length ∧ x = (c, o)) := by
    intro j x hj
    rw [hanswers] at hj
    rcases getElem?_snoc hj with ⟨-, hj⟩ | ⟨rfl, rfl⟩
    · exact Or.inl hj
    · exact Or.inr ⟨h.len, rfl⟩
  have hbelow : ∀ {j : ℕ} {c' i}, d.answers[j]? = some (c', some i) → i < d.sys.returned.length :=
    fun hj => (h.answered _ _ _ hj).1
  refine ⟨⟨hrec.ring, hrec.owners_len, hrec.once, hrec.typed⟩, hp, ?_, ?_, ?_, ?_⟩
  · show (d'.answers ++ [(c, o)]).length = d'.kinds.length
    rw [hanswers, hkinds, List.length_append, List.length_append, h.len]
    rfl
  · intro j k' hj
    replace hj : (d.kinds ++ [k])[j]? = some k' := hkinds ▸ hj
    rcases getElem?_snoc hj with ⟨-, hj⟩ | ⟨rfl, rfl⟩
    · rcases h.settled j k' hj with ⟨i, hi, ho⟩ | ⟨r, hrj, hrk, hra⟩
      · exact Or.inl ⟨i, hi.trans_le hl.returned, getElem?_mono hl.owners ho⟩
      · exact Or.inr ⟨r, hrj, getElem?_mono hk hrk, getElem?_mono ha hra⟩
    · exact hset
  · intro j c' o' hj
    rcases hsplit hj with hj | ⟨rfl, he⟩
    · exact (h.answered j c' o' hj).grow hk ha hl.owners hl.written hl.returned
    · cases he
      exact hans
  · intro j₁ j₂ c₁ c₂ i h₁ h₂
    rcases hsplit h₁ with p₁ | ⟨hj₁, e₁⟩ <;> rcases hsplit h₂ with p₂ | ⟨hj₂, e₂⟩
    · exact h.unique j₁ j₂ c₁ c₂ i p₁ p₂
    · exact absurd (hnew i (Prod.mk.inj e₂).2.symm) (not_le.2 (hbelow p₁))
    · exact absurd (hnew i (Prod.mk.inj e₁).2.symm) (not_le.2 (hbelow p₂))
    · rw [hj₁, hj₂]

/-- an older request whose completion was still to come when the last one was asked has timed out, or one before it has -/
theorem Ledger.owner_timedOut (h : Ledger base d) {k k' : ReqKind} (hrec : Record base d')
    (hl : Later { d with kinds := d.kinds ++ [k] } d') {i j : ℕ} (hlt : j < d.kinds.length)
    (hj : d'.kinds[j]? = some k') (ho : d'.owners[i]? = some (some j)) (hlate : d.sys.returned.length ≤ i)
    (x : UInt32 × Option ℕ) : TimedOut { d' with answers := d'.answers ++ [x] } k' j := by
  have hkinds : d'.kinds = d.kinds ++ [k] := hl.kinds
  have hanswers : d'.answers = d.answers := hl.answers
  have hjk : d.kinds[j]? = some k' := by
    rw [hkinds, List.getElem?_append_left hlt] at hj
    exact hj
  rcases h.settled j k' hjk with ⟨i', hi', ho'⟩ | ⟨r, hrj, hrk, hra⟩
  · -- its completion would have been consumed twice
    have hsame := hrec.once i i' j ho (getElem?_mono hl.owners ho')
    omega
  · refine ⟨r, hrj, hkinds ▸ getElem?_mono (List.prefix_append _ _) hrk, ?_⟩
    show (d'.answers ++ [x])[r]? = _
    rw [hanswers]
    exact getElem?_mono (List.prefix_append _ _) hra

/-- **A request.** Its answer is a timeout, its own completion, or an older one that was still to come. -/
theorem Ledger.request (h : Ledger base d) (k : ReqKind) (arrive : ℕ → List Event) :
    Ledger base (d.request k arrive) := by
  have hasked := h.toRecord.asked k
  have hpend : PendingOwned { d with kinds := d.kinds ++ [k] } := h.pending
  unfold Driver.request
  obtain ⟨r, d', hw⟩ : ∃ r d', waitLoop k.event arrive waitPolls { d with kinds := d.kinds ++ [k] } = (r, d') := ⟨_, _, rfl⟩
  obtain ⟨hrec, hl, hp, hfound⟩ := wait_spec waitPolls hasked hpend hw
  have hkinds : d'.kinds = d.kinds ++ [k] := hl.kinds
  have hanswers : d'.answers = d.answers := hl.answers
  have hself : d'.kinds[d.kinds.length]? = some k := by rw [hkinds, List.getElem?_concat_length]
  rw [hw]
  cases r with
  | none =>
    refine h.answer hrec hp hl (Or.inr ⟨d.kinds.length, le_refl _, hself, ?_⟩) rfl (fun i hi => by cases hi)
    show (d'.answers ++ [((0xFF : UInt32), none)])[d.kinds.length]? = _
    rw [hanswers, ← h.len, List.getElem?_concat_length]
  | some x =>
    obtain ⟨code, slot⟩ := x
    obtain ⟨i, j, e, hf⟩ := hfound code slot rfl
    have hidx : d'.sys.returned.length - 1 = i := by rw [hf.last, Nat.add_sub_cancel]
    have hconsumed : Consumed d' j := ⟨i, by rw [hf.last]; exact Nat.lt_succ_self i, hf.owner⟩
    -- its owner is of kind k, and was asked before the wait ended
    obtain ⟨k', hk', hkev⟩ := Option.map_eq_some_iff.1 (hrec.typed i j e hf.owner hf.written)
    obtain rfl : k' = k := ReqKind.event_inj (by rw [hkev, hf.event])
    have hjle : j ≤ d.kinds.length := by
      have := (List.getElem?_eq_some_iff.1 hk').1
      rw [hkinds, List.length_append, List.length_singleton] at this
      omega
    have hcase : j = d.kinds.length ∨ (j < d.kinds.length ∧
        TimedOut { d' with answers := d'.answers ++ [(code, some i)] } k' j) := by
      rcases Nat.lt_or_eq_of_le hjle with hlt | heq
      · exact Or.inr ⟨hlt, h.owner_timedOut hrec hl hlt hk' hf.owner hf.late _⟩
      · exact Or.inl heq
    dsimp only
    rw [hidx]
    refine h.answer hrec hp hl ?_ ?_ (fun i' hi' => by cases hi'; exact hf.late)
    · rcases hcase with rfl | ⟨hlt, r, hrj, hr⟩
      · exact Or.inl hconsumed
      · exact Or.inr ⟨r, hrj.trans hjle, hr⟩
    · exact ⟨by show i < d'.sys.returned.length; rw [hf.last]; exact Nat.lt_succ_self i, k', e, j, hself, hf.written,
        by rw [hf.event], by rw [hf.event], hf.owner, hk', hcase⟩

end

/-! ## Runs -/

/-- **Step.** -/
theorem Ledger.act {base : UInt64} {d : Driver} (h : Ledger base d) (a : Act) : Ledger base (d.act a) := by
  cases a with
  | request k arrive => exact h.request k arrive
  | drain batches =>
    obtain ⟨hrec, hl, hempty⟩ := drain_spec batches h.toRecord
    exact h.later hrec hl (pendingOwned_of_empty hempty)
  | recover stopped batches =>
    have hw : Record base (d.write ⟨stopped, none⟩) := h.toRecord.write _ fun j hj => by cases hj
    obtain ⟨hrec, hl, hempty⟩ := drain_spec batches hw
    exact h.later hrec ((write_later d _).trans hl) (pendingOwned_of_empty hempty)
  | post e =>
    obtain ⟨hrec, hl, hp⟩ := post_spec h.toRecord e
    exact h.later hrec hl (hp h.pending)
  | consume =>
    obtain ⟨hrec, hl, hp⟩ := consume_spec h.toRecord
    exact h.later hrec hl (hp h.pending)

/-- **Run.** -/
theorem Ledger.run {base : UInt64} (acts : List Act) {d : Driver} (h : Ledger base d) : Ledger base (d.run acts) := by
  induction acts generalizing d with
  | nil => exact h
  | cons a acts ih => exact ih (h.act a)

/-- **Completion attribution.** For every sequence of requests and drains and every order and delay of events, in which a
request has at most one completion event: the code returned to a request is 0xFF, or that of its own completion, or that
of an earlier request of the same kind, and the last only if a request of that kind, not after the earlier one, has timed
out. No event is returned to two requests; and a request before which, and at which, none of its kind has timed out gets
its own code. -/
theorem completion_attribution (base : UInt64) (acts : List Act) (d : Driver) (hd : (Driver.start base).run acts = d) :
    (∀ (j : ℕ) c o, d.answers[j]? = some (c, o) → Answered d j c o) ∧
    (∀ i i' j : ℕ, d.owners[i]? = some (some j) → d.owners[i']? = some (some j) → i = i') ∧
    (∀ (j₁ j₂ : ℕ) c₁ c₂ i, d.answers[j₁]? = some (c₁, some i) → d.answers[j₂]? = some (c₂, some i) → j₁ = j₂) ∧
    ∀ (j : ℕ) k c i, d.kinds[j]? = some k → d.answers[j]? = some (c, some i) → ¬ TimedOut d k j →
      d.owners[i]? = some (some j) := by
  have h := (start_ledger base).run acts
  rw [hd] at h
  refine ⟨h.answered, h.once, h.unique, fun j k c i hk ha hno => ?_⟩
  obtain ⟨-, k', e, j', hk', -, -, -, ho, -, hj⟩ := h.answered j c (some i) ha
  obtain rfl : k' = k := Option.some.inj (hk'.symm.trans hk)
  rcases hj with rfl | ⟨hlt, r, hr, htime⟩
  · exact ho
  · exact absurd ⟨r, hr.trans (le_of_lt hlt), htime⟩ hno

/-! ## A late completion -/

theorem consume_idle {d : Driver} (h : consumeEvent d.sys.ring = (none, d.sys.ring)) : d.consume = d := by
  simp [Driver.consume, EvtSys.step, h]

/-- a request that the controller does not answer in time -/
theorem request_idle {d : Driver} (k : ReqKind) (h : consumeEvent d.sys.ring = (none, d.sys.ring)) :
    d.request k (fun _ => []) = { d with kinds := d.kinds ++ [k], answers := d.answers ++ [(0xFF, none)] } := by
  have hidle : ∀ n (d : Driver), consumeEvent d.sys.ring = (none, d.sys.ring) →
      waitLoop k.event (fun _ => []) n d = (none, d) := by
    intro n
    induction n with
    | zero => exact fun _ _ => rfl
    | succ n ih =>
      intro d hd
      simp only [waitLoop, Driver.posts, List.foldl_nil, hd]
      rw [consume_idle hd]
      exact ih d hd
  simp only [Driver.request, hidle waitPolls { d with kinds := d.kinds ++ [k] } h]

/-- a request that finds an event of its type in the ring -/
theorem request_hit {d : Driver} (k : ReqKind) {code slot : UInt32}
    (h : (consumeEvent d.sys.ring).1 = some (k.event, code, slot)) :
    d.request k (fun _ => []) = { d.consume with
      kinds := d.kinds ++ [k], answers := d.answers ++ [(code, some (d.consume.sys.returned.length - 1))] } := by
  have hfirst : ∀ n (d : Driver), (consumeEvent d.sys.ring).1 = some (k.event, code, slot) →
      waitLoop k.event (fun _ => []) (n + 1) d = (some (code, slot), d.consume) := by
    intro n d hd
    simp only [waitLoop, Driver.posts, List.foldl_nil, hd, if_true]
  have hwait : waitLoop k.event (fun _ => []) waitPolls { d with kinds := d.kinds ++ [k] } = (some (code, slot), _) :=
    hfirst 9999999 _ h
  simp only [Driver.request, hwait]
  rfl

/-- two control transfers: the first times out and completes with code 4 afterwards, the second completes with 1 -/
def lateActs : List Act :=
  [.request .transfer fun _ => [], .post ⟨⟨0, 0x04000000, 0x00008000⟩, some 0⟩, .request .transfer fun _ => [],
    .post ⟨⟨0, 0x01000000, 0x00008000⟩, some 1⟩]

/-- the ring after the first of them and its late completion -/
def lateDriver : Driver :=
  Driver.post ⟨EvtSys.start 0x1000, [], [.transfer], [(0xFF, none)]⟩ ⟨⟨0, 0x04000000, 0x00008000⟩, some 0⟩

theorem lateActs_run : (Driver.start 0x1000).run lateActs = Driver.post { lateDriver.consume with
    kinds := lateDriver.kinds ++ [.transfer]
    answers := lateDriver.answers ++ [(4, some (lateDriver.consume.sys.returned.length - 1))] }
    ⟨⟨0, 0x01000000, 0x00008000⟩, some 1⟩ := by
  have hfirst : (Driver.start 0x1000).request .transfer (fun _ => []) =
      ⟨EvtSys.start 0x1000, [], [.transfer], [(0xFF, none)]⟩ := request_idle .transfer rfl
  have hevent : (consumeEvent lateDriver.sys.ring).1 = some (ReqKind.transfer.event, 4, 0) := by decide +kernel
  simp only [Driver.run, lateActs, List.foldl_cons, List.foldl_nil, Driver.act, hfirst]
  rw [← request_hit .transfer hevent]
  rfl

/-- the second transfer gets code 4, the completion of the first; its own completion has code 1 -/
theorem late_completion : ∃ d, (Driver.start 0x1000).run lateActs = d ∧ d.answers[1]? = some (4, some 0) ∧
    (4 : UInt32) ≠ 0xFF ∧ d.owners = [some 0, some 1] ∧ d.sys.written.map (fun e => e.event.2.1) = [4, 1] := by
  refine ⟨_, lateActs_run, ?_⟩
  decide +kernel

/-- the theorem on the same run: the code belongs to transfer 0, which has timed out -/
theorem completion_attribution_demo : ∃ d, (Driver.start 0x1000).run lateActs = d ∧
    d.answers[1]? = some (4, some 0) ∧ Answered d 1 4 (some 0) := by
  have hanswer : ((Driver.start 0x1000).run lateActs).answers[1]? = some (4, some 0) := by
    rw [lateActs_run]
    decide +kernel
  exact ⟨_, rfl, hanswer, (completion_attribution 0x1000 lateActs _ rfl).1 1 4 (some 0) hanswer⟩

end Tomorrow.Usb
