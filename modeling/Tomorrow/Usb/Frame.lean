/-
What the functions of the USB driver leave alone, and why one of them may not return.

`Moves` relates the states before and after a part of the driver to its log: the pages it has taken are gone from the
allocator, and what `view` sees of the keyboard's statics is as before. `CutOff` is the log of a part that does not return:
the allocator has run out of pages, or a loop over events was cut off by its fuel.

Every function of the enumeration is `Calm`: it moves so where it returns, and is cut off where it does not.
-/
import Tomorrow.Core.Ghost
import Tomorrow.Usb.Pages

namespace Tomorrow.Usb.Dma

open Tomorrow.Core

/-! ## Moves -/

/-- the `HID_*` statics -/
structure HidState where
  slot : UInt32
  ring : Ring
  buf : UInt64
  epAddr : UInt8
  ready : Bool

def State.hidState (st : State) : HidState := ⟨st.hidSlot, st.hid, st.hidBuf, st.hidEpAddr, st.hidReady⟩

/-- what a running keyboard keeps: its endpoint -/
def endpointView (hid : HidState) : UInt8 × Bool := (hid.epAddr, hid.ready)

def Access.isPage : Access → Bool
  | .page _ _ => true
  | _ => false

/-- how many pages were taken from the allocator -/
def pagesTaken (l : List Access) : ℕ := l.countP Access.isPage

structure Moves {κ : Type} (view : HidState → κ) (st : State) (l : List Access) (st' : State) : Prop where
  fuel : st'.fuel = st.fuel
  rtBase : st'.rtBase = st.rtBase
  ctxSize : st'.ctxSize = st.ctxSize
  pages : Pmm.freePages st'.pmm + pagesTaken l = Pmm.freePages st.pmm
  hid : view st'.hidState = view st.hidState

/-- all free pages were taken, or the last events are as many steps on the event ring as the fuel allows -/
def CutOff (st : State) (l : List Access) : Prop :=
  pagesTaken l = Pmm.freePages st.pmm ∨
    ∃ l₁ l₂, l = l₁ ++ l₂ ∧ l₂.length = st.fuel ∧ ∀ e ∈ l₂, ∃ v, e = .mmio (st.rtBase + 0x20 + 0x18) v

def Calm {α : Type} {κ : Type} (view : HidState → κ) (x : Drv α) : Prop := Does (Moves view) CutOff x

section

variable {α β : Type} {κ : Type} {view : HidState → κ}

theorem pagesTaken_append (l l' : List Access) : pagesTaken (l ++ l') = pagesTaken l + pagesTaken l' := List.countP_append

/-- no page was taken, and only other fields have changed -/
theorem Moves.same {st st' : State} {l : List Access} (hl : pagesTaken l = 0) (hfuel : st'.fuel = st.fuel)
    (hrt : st'.rtBase = st.rtBase) (hctx : st'.ctxSize = st.ctxSize) (hpmm : st'.pmm = st.pmm)
    (hhid : view st'.hidState = view st.hidState) : Moves view st l st' :=
  ⟨hfuel, hrt, hctx, by rw [hpmm, hl, Nat.add_zero], hhid⟩

theorem composes_moves : Composes (Moves view) CutOff where
  refl := fun st => Moves.same rfl rfl rfl rfl rfl rfl
  trans := fun st l st' l' st'' h h' => by
    refine ⟨h'.fuel.trans h.fuel, h'.rtBase.trans h.rtBase, h'.ctxSize.trans h.ctxSize, ?_, h'.hid.trans h.hid⟩
    rw [pagesTaken_append, ← h.pages, ← h'.pages]
    omega
  stop := fun st l st' l' h h' => by
    rcases h' with hpages | ⟨l₁, l₂, rfl, hlen, hmmio⟩
    · left
      rw [pagesTaken_append, hpages, ← h.pages]
      omega
    · right
      exact ⟨l ++ l₁, l₂, (List.append_assoc l l₁ l₂).symm, hlen.trans h.fuel, h.rtBase ▸ hmmio⟩

theorem calm_pure (a : α) : Calm view (pure a) := does_pure composes_moves a

theorem calm_bind {x : Drv α} {f : α → Drv β} (hx : Calm view x) (hf : ∀ a, Calm view (f a)) : Calm view (x >>= f) :=
  does_bind composes_moves hx hf

theorem Calm.weaken {x : Drv α} (hx : Calm view x) : Calm (fun _ => ()) x :=
  ⟨fun st a st' ha => { hx.returns st a st' ha with hid := rfl }, hx.stops⟩

theorem calm_ite {c : Prop} [Decidable c] {x y : Drv α} (hx : Calm view x) (hy : Calm view y) :
    Calm view (if c then x else y) := does_ite hx hy

theorem calm_whenever {c : Prop} [Decidable c] {x : Drv Unit} (hx : Calm view x) : Calm view (whenever c x) :=
  calm_ite hx (calm_pure ())

theorem calm_get {f : State → Drv β} (hf : ∀ st, Calm view (f st)) : Calm view (get >>= f) := does_get hf

/-- it does what some calm program does there -/
theorem calm_pointwise {x : Drv α} (hx : ∀ st, ∃ y, Calm view y ∧ x st = y st) : Calm view x := by
  constructor
  · intro st a st' ha
    obtain ⟨y, hy, heq⟩ := hx st
    rw [heq] at ha ⊢
    exact hy.returns st a st' ha
  · intro st hs
    obtain ⟨y, hy, heq⟩ := hx st
    rw [heq] at hs ⊢
    exact hy.stops st hs

theorem calm_forRange {f : ℕ → α → Drv α} (hf : ∀ j a, Calm view (f j a)) (i n : ℕ) (a : α) :
    Calm view (forRange f i n a) := does_forRange composes_moves hf i n a

/-! ## Primitives -/

theorem calm_modify {g : State → State} (hg : ∀ st, Moves view st [] (g st)) : Calm view (modify g) := by
  refine ⟨fun st a st' ha => ?_, fun st hs => nomatch hs⟩
  cases ha
  exact hg st

theorem calm_emit {e : Access} (he : e.isPage = false) : Calm view (emit e) := by
  refine ⟨fun st a st' ha => ?_, fun st hs => nomatch hs⟩
  cases ha
  exact Moves.same (by simp [emit, Logged.note, pagesTaken, he]) rfl rfl rfl rfl rfl

theorem calm_w64 (addr v : UInt64) : Calm view (w64 addr v) := calm_emit rfl

theorem calm_w32 (addr : UInt64) (v : UInt32) : Calm view (w32 addr v) := calm_emit rfl

theorem calm_put32 (s : Area) (base : UInt64) (off : ℕ) (v : UInt32) : Calm view (put32 s base off v) := calm_emit rfl

theorem calm_put64 (s : Area) (base : UInt64) (off : ℕ) (v : UInt64) : Calm view (put64 s base off v) := calm_emit rfl

theorem calm_reads {x : Drv α} (hx : Reads x) : Calm view x := by
  refine ⟨fun st a st' ha => ?_, fun st hs => ?_⟩
  · obtain ⟨b, n, hrun⟩ := hx st
    rw [hrun] at ha ⊢
    cases ha
    exact Moves.same rfl rfl rfl rfl rfl rfl
  · obtain ⟨b, n, hrun⟩ := hx st
    rw [hrun] at hs
    cases hs

theorem calm_hardware : Calm view hardware := calm_reads reads_hardware

theorem calm_readPage : Calm view readPage := calm_reads reads_page

theorem calm_read8 : Calm view read8 := calm_bind calm_hardware fun _ => calm_pure _

theorem calm_read16 : Calm view read16 := calm_bind calm_hardware fun _ => calm_pure _

theorem calm_read32 : Calm view read32 := calm_bind calm_hardware fun _ => calm_pure _

theorem calm_r32 (addr : UInt64) : Calm view (r32 addr) := calm_read32

theorem calm_allocPage (s : Area) : Calm view (allocPage s) := by
  constructor
  · intro st p st' hp
    unfold allocPage at hp ⊢
    cases ha : Pmm.alloc st.pmm with
    | error e =>
      rw [ha] at hp
      cases hp
    | ok r =>
      rw [ha] at hp
      obtain ⟨rfl, rfl⟩ := Prod.mk.inj (Option.some.inj hp)
      obtain ⟨-, -, -, -, -, hfree⟩ := Pmm.alloc_spec ha
      exact ⟨rfl, rfl, rfl, hfree, rfl⟩
  · intro st hs
    unfold allocPage at hs ⊢
    cases ha : Pmm.alloc st.pmm with
    | ok r =>
      rw [ha] at hs
      cases hs
    | error e =>
      left
      by_contra hne
      obtain ⟨r, hr, -⟩ := alloc_free (m := st.pmm) (Nat.pos_of_ne_zero fun h0 => hne h0.symm)
      rw [ha] at hr
      cases hr

theorem calm_spin (addr : UInt64) (cond : UInt32 → Bool) (n : ℕ) : Calm view (spin addr cond n) := by
  induction n with
  | zero => exact calm_bind (calm_r32 addr) fun _ => calm_pure ()
  | succ n ih => exact calm_bind (calm_r32 addr) fun _ => calm_ite ih (calm_pure ())

/-! ## Events -/

theorem calm_consumeEvent : Calm view consumeEvent := by
  refine calm_get fun st => calm_bind calm_read32 fun control => calm_ite (calm_pure none) ?_
  refine calm_bind calm_read32 fun status => calm_bind (calm_modify ?_) fun _ => ?_
  · exact fun st' => Moves.same rfl rfl rfl rfl rfl rfl
  · exact calm_bind (calm_w64 _ _) fun _ => calm_pure _

/-- it returns, and an event that is taken off the ring moves the dequeue pointer -/
theorem consumeEvent_log (st : State) : ∃ e st', (consumeEvent st).value = some (e, st') ∧
    (e.isSome = true → ∃ v, (consumeEvent st).log = [.mmio (st.rtBase + 0x20 + 0x18) v]) := by
  let control := (st.input st.reads).toUInt32
  let evt := { st.evt.next with erdp := erdpAt st.evt.base st.evt.next.deq }
  have hrun : consumeEvent st = (if control &&& 1 ≠ st.evt.ccs then pure none else read32 >>= fun status => do
      modify fun st => { st with evt := evt }
      w64 (st.rtBase + 0x20 + 0x18) evt.erdp
      pure (some (Trb.event ⟨0, status, control⟩)) : Drv _) { st with reads := st.reads + 1 } := rfl
  rw [hrun]
  split_ifs with hc
  · exact ⟨_, _, rfl, fun h => nomatch h⟩
  · exact ⟨_, _, rfl, fun _ => ⟨_, rfl⟩⟩

theorem calm_waitLoop (expected : UInt32) (n : ℕ) : Calm view (waitLoop expected n) := by
  induction n with
  | zero => exact calm_pure _
  | succ n ih =>
    refine calm_bind calm_consumeEvent fun e => ?_
    cases e with
    | none => exact ih
    | some e => exact calm_ite (calm_pure _) ih

theorem calm_waitEvent (expected : UInt32) : Calm view (waitEvent expected) := calm_waitLoop expected _

/-- a loop that takes events off the ring until there is none, with n steps left -/
theorem eventLoop_does {κ : Type} (view : HidState → κ) {ι : Type} {f : ℕ → ι → Drv β} (hzero : ∀ i, f 0 i = lift .stop)
    (hsucc : ∀ n i, ∃ k, f (n + 1) i = consumeEvent >>= k ∧ (∃ b, k none = pure b) ∧ ∀ e, ∃ i', k (some e) = f n i')
    (n : ℕ) (i : ι) (st : State) :
    (∀ b st', (f n i st).value = some (b, st') → Moves view st (f n i st).log st') ∧
      ((f n i st).value = none → (f n i st).log.length = n ∧
        ∀ e ∈ (f n i st).log, ∃ v, e = .mmio (st.rtBase + 0x20 + 0x18) v) := by
  induction n generalizing i st with
  | zero =>
    rw [hzero]
    exact ⟨fun _ _ hb => (nomatch hb), fun _ => ⟨rfl, fun _ he => (nomatch he)⟩⟩
  | succ n ih =>
    obtain ⟨k, hk, ⟨b₀, hnone⟩, hsome⟩ := hsucc n i
    obtain ⟨e, st₁, hvalue, hlog⟩ := consumeEvent_log st
    have hmove : Moves view st (consumeEvent st).log st₁ := calm_consumeEvent.returns st e st₁ hvalue
    obtain ⟨hlog', hvalue'⟩ := then_of_some hvalue k
    rw [hk, hlog', hvalue']
    cases e with
    | none =>
      rw [hnone]
      refine ⟨fun b st' hb => ?_, fun hs => nomatch hs⟩
      cases hb
      exact composes_moves.trans _ _ _ _ _ hmove (composes_moves.refl _)
    | some e =>
      obtain ⟨i', hi⟩ := hsome e
      obtain ⟨hret, hstop⟩ := ih i' st₁
      obtain ⟨v, hv⟩ := hlog rfl
      rw [hi]
      refine ⟨fun b st' hb => composes_moves.trans _ _ _ _ _ hmove (hret b st' hb), fun hs => ?_⟩
      obtain ⟨hlen, hmmio⟩ := hstop hs
      rw [hv, List.singleton_append, List.length_cons, hlen]
      refine ⟨rfl, List.forall_mem_cons.2 ⟨⟨v, rfl⟩, ?_⟩⟩
      rw [← hmove.rtBase]
      exact hmmio

/-- with the fuel of the state such a loop is cut off only at the end of it -/
theorem calm_eventLoop {ι : Type} {f : ℕ → ι → Drv β} (hzero : ∀ i, f 0 i = lift .stop)
    (hsucc : ∀ n i, ∃ k, f (n + 1) i = consumeEvent >>= k ∧ (∃ b, k none = pure b) ∧ ∀ e, ∃ i', k (some e) = f n i')
    (i : ι) : Calm view (get >>= fun st => f st.fuel i) := by
  refine ⟨fun st b st' hb => (eventLoop_does view hzero hsucc st.fuel i st).1 b st' hb, fun st hs => Or.inr ?_⟩
  obtain ⟨hlen, hmmio⟩ := (eventLoop_does view hzero hsucc st.fuel i st).2 hs
  exact ⟨[], _, rfl, hlen, hmmio⟩

theorem calm_drainEvents : Calm view drainEvents :=
  calm_eventLoop (f := fun n (_ : Unit) => drainLoop n) (fun _ => rfl)
    (fun _ _ => ⟨_, rfl, ⟨(), rfl⟩, fun _ => ⟨(), rfl⟩⟩) ()

theorem calm_pollLoop : Calm view (get >>= fun st => pollLoop st.fuel false) :=
  calm_eventLoop (f := pollLoop) (fun _ => rfl)
    (fun _ gotTransfer => ⟨_, rfl, ⟨gotTransfer, rfl⟩, fun e => ⟨gotTransfer || e.1 = evtTransfer, rfl⟩⟩) false

/-! ## Rings -/

/-- it returns, and takes no page -/
structure Writes (y : Logged Access α) : Prop where
  returns : ∃ a, y.value = some a
  pages : pagesTaken y.log = 0

theorem writes_pure (a : α) : Writes (pure a) := ⟨⟨a, rfl⟩, rfl⟩

theorem writes_bind {y : Logged Access α} {f : α → Logged Access β} (hy : Writes y) (hf : ∀ a, Writes (f a)) :
    Writes (y >>= f) := by
  obtain ⟨a, ha⟩ := hy.returns
  obtain ⟨b, hb⟩ := (hf a).returns
  obtain ⟨hlog, hvalue⟩ := Logged.bind_of_some ha f
  refine ⟨⟨b, hvalue.trans hb⟩, ?_⟩
  rw [hlog, pagesTaken_append, hy.pages, (hf a).pages]

theorem writes_ite {c : Prop} [Decidable c] {x y : Logged Access α} (hx : Writes x) (hy : Writes y) :
    Writes (if c then x else y) := by
  split_ifs
  · exact hx
  · exact hy

theorem calm_lift {y : Logged Access α} (hy : Writes y) : Calm view (lift y) := by
  obtain ⟨a, ha⟩ := hy.returns
  refine ⟨fun st b st' hb => ?_, fun st hs => ?_⟩
  · obtain ⟨hlog, hvalue⟩ := lift_of_some ha st
    rw [hvalue] at hb
    rw [hlog]
    obtain ⟨-, rfl⟩ := Prod.mk.inj (Option.some.inj hb)
    exact Moves.same hy.pages rfl rfl rfl rfl rfl
  · rw [(lift_of_some ha st).2] at hs
    cases hs

theorem writes_storeTrb (s : Area) (r : Ring) (i : ℕ) (t : Trb) : Writes (storeTrb s r i t) := ⟨⟨_, rfl⟩, rfl⟩

theorem writes_wrapLink (s : Area) (r : Ring) : Writes (wrapLink s r) := ⟨⟨_, rfl⟩, rfl⟩

theorem writes_pushTrb (s : Area) (r : Ring) (t : Trb) : Writes (pushTrb s r t) :=
  writes_bind (writes_storeTrb s r _ t) fun _ => writes_pure _

theorem writes_postCommandW (r : Ring) (param : UInt64) (status control : UInt32) :
    Writes (postCommandW r param status control) :=
  writes_bind (writes_pushTrb _ r _) fun r => writes_ite (writes_wrapLink _ r) (writes_pure r)

theorem writes_fillW (n : ℕ) (r : Ring) : Writes (fillW n r) := by
  induction n generalizing r with
  | zero => exact writes_pure r
  | succ n ih => exact writes_bind (writes_pushTrb _ r _) ih

theorem writes_trReserveW (r : Ring) (n : ℕ) : Writes (trReserveW r n) :=
  writes_ite (writes_pure r) (writes_bind (writes_fillW _ r) (writes_wrapLink _))

theorem writes_ctrlInW (r : Ring) (setupParam buf : UInt64) (len : UInt16) : Writes (ctrlInW r setupParam buf len) := by
  refine writes_bind (writes_trReserveW r 3) fun r => writes_bind (writes_storeTrb _ r _ _) fun r₁ => ?_
  exact writes_bind (writes_storeTrb _ r₁ _ _) fun r₂ => writes_bind (writes_storeTrb _ r₂ _ _) fun _ => writes_pure _

theorem writes_ctrlOutNodataW (r : Ring) (setupParam : UInt64) : Writes (ctrlOutNodataW r setupParam) := by
  refine writes_bind (writes_trReserveW r 2) fun r => writes_bind (writes_storeTrb _ r _ _) fun r₁ => ?_
  exact writes_bind (writes_storeTrb _ r₁ _ _) fun _ => writes_pure _

theorem writes_queueHidTransferW (r : Ring) (hidBuf : UInt64) : Writes (queueHidTransferW r hidBuf) :=
  writes_bind (writes_pushTrb _ r _) fun r => writes_ite (writes_wrapLink _ r) (writes_pure r)

theorem calm_newRing (s : Area) : Calm view (newRing s) := by
  refine calm_bind (calm_allocPage s) fun ring => ?_
  exact calm_bind (calm_put64 _ _ _ _) fun _ => calm_bind (calm_put32 _ _ _ _) fun _ => calm_pure _

theorem calm_postCommand (param : UInt64) (status control : UInt32) : Calm view (postCommand param status control) := by
  refine calm_get fun st => calm_bind (calm_lift (writes_postCommandW _ _ _ _)) fun r => ?_
  refine calm_bind (calm_modify fun st => ?_) fun _ => calm_w32 _ _
  exact Moves.same rfl rfl rfl rfl rfl rfl

theorem calm_recoverCmdRing : Calm view recoverCmdRing := by
  refine calm_get fun st => calm_bind (calm_r32 _) fun crcr => calm_bind (calm_w32 _ _) fun _ => ?_
  refine calm_bind (calm_spin _ _ _) fun _ => calm_bind calm_drainEvents fun _ => calm_bind (calm_emit rfl) fun _ => ?_
  refine calm_bind (calm_put64 _ _ _ _) fun _ => calm_bind (calm_put32 _ _ _ _) fun _ => ?_
  refine calm_bind (calm_put32 _ _ _ _) fun _ => calm_bind (calm_modify fun st => ?_) fun _ => calm_w64 _ _
  exact Moves.same rfl rfl rfl rfl rfl rfl

theorem calm_ctrlIn (slotId : UInt32) (r : Ring) (setupParam buf : UInt64) (len : UInt16) :
    Calm view (ctrlIn slotId r setupParam buf len) := by
  refine calm_get fun st => calm_bind (calm_lift (writes_ctrlInW _ _ _ _)) fun r => ?_
  exact calm_bind (calm_w32 _ _) fun _ => calm_bind (calm_waitEvent _) fun _ => calm_pure _

theorem calm_ctrlOutNodata (slotId : UInt32) (r : Ring) (setupParam : UInt64) :
    Calm view (ctrlOutNodata slotId r setupParam) := by
  refine calm_get fun st => calm_bind (calm_lift (writes_ctrlOutNodataW _ _)) fun r => ?_
  exact calm_bind (calm_w32 _ _) fun _ => calm_bind (calm_waitEvent _) fun _ => calm_pure _

/-- the ring of the keyboard is one of its statics -/
theorem calm_queueHidTransfer (epIdx : ℕ) : Calm endpointView (queueHidTransfer epIdx) := by
  refine calm_get fun st => calm_bind (calm_lift (writes_queueHidTransferW _ _)) fun r => ?_
  refine calm_bind (calm_modify fun st => ?_) fun _ => calm_w32 _ _
  exact Moves.same rfl rfl rfl rfl rfl rfl

theorem calm_pollHid : Calm endpointView pollHid := by
  refine calm_pointwise fun st => ?_
  refine ⟨whenever (st.hidReady = true) (get >>= (fun st : State => pollLoop st.fuel false) >>= fun gotTransfer =>
    whenever (gotTransfer = true) (queueHidTransfer (epIndex st.hidEpAddr))), ?_, ?_⟩
  · exact calm_whenever (calm_bind calm_pollLoop fun _ => calm_whenever (calm_queueHidTransfer _))
  · have hrun : pollHid st = whenever (st.hidReady = true) (pollLoop st.fuel false >>= fun gotTransfer =>
      whenever (gotTransfer = true) (queueHidTransfer (epIndex st.hidEpAddr))) st := rfl
    rw [hrun, whenever, whenever]
    split_ifs <;> rfl

theorem calm_ticks : Calm endpointView ticks :=
  calm_bind calm_hardware fun n => calm_forRange (fun _ _ => calm_pollHid) 0 n.toNat ()

/-! ## Contexts and hubs -/

theorem calm_getDeviceDescriptor (slotId : UInt32) (r : Ring) : Calm view (getDeviceDescriptor slotId r) := by
  refine calm_bind (calm_allocPage _) fun buf => calm_bind (calm_ctrlIn _ _ _ _ _) fun res => ?_
  exact calm_ite (calm_bind calm_read8 fun _ => calm_pure _) (calm_pure _)

theorem calm_setConfiguration (slotId : UInt32) (r : Ring) (configValue : UInt8) :
    Calm view (setConfiguration slotId r configValue) := calm_ctrlOutNodata _ _ _

theorem calm_setProtocol (slotId : UInt32) (r : Ring) : Calm view (setProtocol slotId r) := calm_ctrlOutNodata _ _ _

theorem calm_copySlot (inputCtx : UInt64) (ctxSize : ℕ) : Calm view (copySlot inputCtx ctxSize) :=
  calm_forRange (fun _ _ => calm_bind calm_read32 fun _ => calm_bind (calm_put32 _ _ _ _) fun _ => calm_pure _) 0 8 []

theorem calm_setupDevice (routeString rootPort speed ttHubSlot ttPort : UInt32) :
    Calm view (setupDevice routeString rootPort speed ttHubSlot ttPort) := by
  refine calm_bind calm_drainEvents fun _ => calm_bind (calm_postCommand _ _ _) fun _ => ?_
  refine calm_bind (calm_waitEvent _) fun enabled => calm_ite ?_ ?_
  · exact calm_bind (calm_whenever calm_recoverCmdRing) fun _ => calm_pure none
  refine calm_get fun st => calm_bind (calm_allocPage _) fun inputCtx => ?_
  refine calm_bind (calm_put32 _ _ _ _) fun _ => calm_bind (calm_put32 _ _ _ _) fun _ => ?_
  refine calm_bind (calm_put32 _ _ _ _) fun _ => calm_bind (calm_put32 _ _ _ _) fun _ => ?_
  refine calm_bind (calm_newRing _) fun trRing => ?_
  refine calm_bind (calm_put32 _ _ _ _) fun _ => calm_bind (calm_put64 _ _ _ _) fun _ => ?_
  refine calm_bind (calm_allocPage _) fun outCtx => calm_bind (calm_put64 _ _ _ _) fun _ => ?_
  refine calm_bind (calm_postCommand _ _ _) fun _ => calm_bind (calm_waitEvent _) fun addressed => ?_
  exact calm_ite (calm_bind (calm_whenever calm_recoverCmdRing) fun _ => calm_pure none) (calm_pure _)

theorem calm_evaluateEp0MaxPacket (slotId maxPkt : UInt32) : Calm view (evaluateEp0MaxPacket slotId maxPkt) := by
  refine calm_get fun st => calm_bind (calm_allocPage _) fun inputCtx => ?_
  refine calm_bind (calm_put32 _ _ _ _) fun _ => calm_bind (calm_put32 _ _ _ _) fun _ => ?_
  exact calm_bind (calm_postCommand _ _ _) fun _ => calm_bind (calm_waitEvent _) fun _ => calm_pure _

theorem calm_fixEp0 (d : Dev) (speed : UInt32) : Calm view (fixEp0 d speed) := by
  refine calm_ite ?_ (calm_pure d)
  refine calm_bind (calm_allocPage _) fun buf => calm_bind (calm_ctrlIn _ _ _ _ _) fun r => calm_ite ?_ (calm_pure _)
  refine calm_bind calm_read8 fun mps0 => calm_bind (calm_whenever ?_) fun _ => calm_pure _
  exact calm_bind (calm_evaluateEp0MaxPacket _ _) fun _ => calm_pure ()

theorem calm_configureHubSlot (slotId nbrPorts ttt : UInt32) : Calm view (configureHubSlot slotId nbrPorts ttt) := by
  refine calm_get fun st => calm_bind (calm_allocPage _) fun inputCtx => calm_bind (calm_put32 _ _ _ _) fun _ => ?_
  refine calm_bind (calm_copySlot _ _) fun slot => calm_bind (calm_put32 _ _ _ _) fun _ => ?_
  refine calm_bind (calm_put32 _ _ _ _) fun _ => calm_bind (calm_put32 _ _ _ _) fun _ => ?_
  refine calm_bind (calm_postCommand _ _ _) fun _ => calm_bind (calm_waitEvent _) fun e => ?_
  exact calm_ite (calm_bind (calm_whenever calm_recoverCmdRing) fun _ => calm_pure false) (calm_pure true)

theorem calm_hubSetPortFeature (d : Dev) (feature : UInt16) (port : ℕ) : Calm view (hubSetPortFeature d feature port) :=
  calm_bind (calm_ctrlOutNodata _ _ _) fun _ => calm_pure _

theorem calm_hubClearPortFeature (d : Dev) (feature : UInt16) (port : ℕ) :
    Calm view (hubClearPortFeature d feature port) := calm_bind (calm_ctrlOutNodata _ _ _) fun _ => calm_pure _

theorem calm_hubGetPortStatus (d : Dev) (buf : UInt64) (port : ℕ) : Calm view (hubGetPortStatus d buf port) := by
  refine calm_bind (calm_ctrlIn _ _ _ _ _) fun r => ?_
  exact calm_ite (calm_bind calm_read32 fun _ => calm_pure _) (calm_pure _)

theorem calm_resetLoop (statBuf : UInt64) (port n : ℕ) (d : Dev) : Calm view (resetLoop statBuf port n d) := by
  induction n generalizing d with
  | zero => exact calm_bind (calm_hubGetPortStatus _ _ _) fun _ => calm_pure _
  | succ n ih => exact calm_bind (calm_hubGetPortStatus _ _ _) fun r => calm_ite (calm_pure _) (ih _)

end

end Tomorrow.Usb.Dma
