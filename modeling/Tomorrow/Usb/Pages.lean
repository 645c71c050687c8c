/-
The driver's writes into the structures that it shares with the USB controller, against the pages those structures have.

`InPage` asks of a write that its structure was given a page before and that it lies inside. The invariant `Inv` says that
the statics point to such pages and that the enqueue indices stay before the Link; `es` lists the pages that the code at
hand knows of. Every function of the driver keeps it (`Keeps`), whatever the hardware answers, so all its writes are in
their pages, with one exception: the array of scratchpad pointers is one page, and the loop of `init` that fills it goes
up to what the controller asks for, 1023 at most.

Result: `driver_writes_in_page`.
-/
import Tomorrow.Usb.Driver

namespace Tomorrow.Usb.Dma

open Tomorrow.Core

/-! ## The rings -/

/-- a write into the page at base, for structure s -/
def InRing (s : Area) (base : UInt64) (e : Access) : Prop := ∃ off len v, e = .write s base off len v ∧ off + len ≤ 4096

section

open Logged

variable {s : Area} {base : UInt64} {r : Ring}

theorem storeTrb_safe (hb : r.base = base) {i : ℕ} (hi : i ≤ 31) (t : Trb) :
    Safe (InRing s base) (storeTrb s r i t) (r.store i t) := by
  subst hb
  refine ⟨rfl, fun e he => ?_⟩
  simp only [storeTrb, List.mem_cons, List.not_mem_nil, or_false] at he
  rcases he with rfl | rfl | rfl
  · exact ⟨_, _, _, rfl, by omega⟩
  · exact ⟨_, _, _, rfl, by omega⟩
  · exact ⟨_, _, _, rfl, by omega⟩

theorem wrapLink_safe (hb : r.base = base) : Safe (InRing s base) (wrapLink s r) r.wrap := by
  subst hb
  refine ⟨rfl, fun e he => ?_⟩
  rw [List.mem_singleton.1 he]
  exact ⟨_, _, _, rfl, by omega⟩

theorem pushTrb_safe (hb : r.base = base) (hr : r.enq ≤ 31) (t : Trb) :
    Safe (InRing s base) (pushTrb s r t) (r.push t) :=
  safe_bind.2 ⟨_, storeTrb_safe hb hr t, safe_pure.2 rfl⟩

/-- one TRB, and the wrap where the test c finds the Link reached -/
theorem push_wrap_safe (hb : r.base = base) (hr : r.enq ≤ 30) {c : ℕ → Prop} [DecidablePred c]
    (hc : ∀ n, ¬ c n → n ≤ 31 → n ≤ 30) (t : Trb) :
    Safe (InRing s base) (pushTrb s r t >>= fun r => if c r.enq then wrapLink s r else pure r)
        (if c (r.push t).enq then (r.push t).wrap else r.push t) ∧
      (if c (r.push t).enq then (r.push t).wrap else r.push t).base = base ∧
      (if c (r.push t).enq then (r.push t).wrap else r.push t).enq ≤ 30 := by
  have hpush := pushTrb_safe (s := s) hb (by omega) t
  have hlast : (r.push t).enq ≤ 31 := by
    rw [push_enq]
    omega
  rw [safe_bind]
  split_ifs with h
  · exact ⟨⟨_, hpush, by rw [if_pos h]; exact wrapLink_safe hb⟩, hb, Nat.zero_le 30⟩
  · exact ⟨⟨_, hpush, by rw [if_neg h]; exact safe_pure.2 rfl⟩, hb, hc _ h hlast⟩

theorem postCommandW_safe (hb : r.base = base) (hr : r.enq ≤ 30) (param : UInt64) (status control : UInt32) :
    Safe (InRing .commandRing base) (postCommandW r param status control) (Usb.postCommand r param status control) ∧
      (Usb.postCommand r param status control).base = base ∧ (Usb.postCommand r param status control).enq ≤ 30 :=
  push_wrap_safe hb hr (c := fun n => n = 31) (fun n hn hle => by omega) _

theorem queueHidTransferW_safe (hb : r.base = base) (hr : r.enq ≤ 30) (buf : UInt64) :
    Safe (InRing .transferRing base) (queueHidTransferW r buf) (Usb.queueHidTransfer r buf) ∧
      (Usb.queueHidTransfer r buf).base = base ∧ (Usb.queueHidTransfer r buf).enq ≤ 30 :=
  push_wrap_safe hb hr (c := fun n => 31 ≤ n) (fun n hn hle => by omega) _

theorem fillW_safe {n : ℕ} (hb : r.base = base) (hr : r.enq + n ≤ 32) :
    Safe (InRing .transferRing base) (fillW n r) (fill n r) ∧ (fill n r).base = base := by
  induction n generalizing r with
  | zero => exact ⟨safe_pure.2 rfl, hb⟩
  | succ n ih =>
    obtain ⟨hrest, hbase⟩ := ih (r := r.push (noop r.pcs)) hb (by rw [push_enq]; omega)
    exact ⟨safe_bind.2 ⟨_, pushTrb_safe hb (by omega) _, hrest⟩, hbase⟩

/-- `tr_reserve` makes room for n TRBs before the Link -/
theorem trReserveW_safe (hb : r.base = base) (hr : r.enq ≤ 31) {n : ℕ} (hn : n ≤ 31) :
    Safe (InRing .transferRing base) (trReserveW r n) (trReserve r n) ∧ (trReserve r n).base = base ∧
      (trReserve r n).enq + n ≤ 31 := by
  unfold trReserveW trReserve
  split_ifs with hfit
  · exact ⟨safe_pure.2 rfl, hb, hfit⟩
  · obtain ⟨hfill, hbase⟩ := fillW_safe hb (show r.enq + (31 - r.enq) ≤ 32 by omega)
    refine ⟨safe_bind.2 ⟨_, hfill, wrapLink_safe hbase⟩, hbase, ?_⟩
    show 0 + n ≤ 31
    omega

theorem ctrlInW_safe (hb : r.base = base) (hr : r.enq ≤ 31) (setupParam buf : UInt64) (len : UInt16) :
    Safe (InRing .transferRing base) (ctrlInW r setupParam buf len) (Usb.ctrlIn r setupParam buf len) ∧
      (Usb.ctrlIn r setupParam buf len).base = base ∧ (Usb.ctrlIn r setupParam buf len).enq ≤ 31 := by
  obtain ⟨hres, hbase, henq⟩ := trReserveW_safe hb hr (show 3 ≤ 31 by omega)
  refine ⟨safe_bind.2 ⟨_, hres, safe_bind.2 ⟨_, storeTrb_safe ?_ ?_ _, safe_bind.2 ⟨_, storeTrb_safe ?_ ?_ _,
    safe_bind.2 ⟨_, storeTrb_safe ?_ ?_ _, safe_pure.2 rfl⟩⟩⟩⟩, hbase, henq⟩
  · exact hbase
  · omega
  · exact hbase
  · omega
  · exact hbase
  · exact Nat.le_of_succ_le henq

theorem ctrlOutNodataW_safe (hb : r.base = base) (hr : r.enq ≤ 31) (setupParam : UInt64) :
    Safe (InRing .transferRing base) (ctrlOutNodataW r setupParam) (Usb.ctrlOutNodata r setupParam) ∧
      (Usb.ctrlOutNodata r setupParam).base = base ∧ (Usb.ctrlOutNodata r setupParam).enq ≤ 31 := by
  obtain ⟨hres, hbase, henq⟩ := trReserveW_safe hb hr (show 2 ≤ 31 by omega)
  refine ⟨safe_bind.2 ⟨_, hres, safe_bind.2 ⟨_, storeTrb_safe ?_ ?_ _,
    safe_bind.2 ⟨_, storeTrb_safe ?_ ?_ _, safe_pure.2 rfl⟩⟩⟩, hbase, henq⟩
  · exact hbase
  · omega
  · exact hbase
  · exact Nat.le_of_succ_le henq

end

/-! ## The invariant -/

/-- a write goes to a page that was returned for its structure, and stays in it -/
def InPage (h : List Access) : Access → Prop
  | .write s base off len _ => .page s base ∈ h ∧ off + len ≤ 4096
  | _ => True

/-- after `init` has set up the rings: the statics point to pages of theirs; es are pages known besides, and with b the
keyboard is ready -/
structure Inv (es : List Access) (b : Bool) (h : List Access) (st : State) : Prop where
  known : ∀ e ∈ es, e ∈ h
  ctxSize : st.ctxSize ≤ 64
  cmd : .page .commandRing st.cmd.base ∈ h
  cmdEnq : st.cmd.enq ≤ 30
  dcbaa : .page .dcbaa st.dcbaa ∈ h
  hid : st.hidReady = true → .page .transferRing st.hid.base ∈ h ∧ st.hid.enq ≤ 30
  ready : b = true → st.hidReady = true

section

variable {α β : Type} {es : List Access} {b : Bool} {h l : List Access} {st : State}

theorem Inv.later (hi : Inv es b h st) (l : List Access) : Inv es b (h ++ l) st where
  known := fun e he => List.mem_append_left l (hi.known e he)
  ctxSize := hi.ctxSize
  cmd := List.mem_append_left l hi.cmd
  cmdEnq := hi.cmdEnq
  dcbaa := List.mem_append_left l hi.dcbaa
  hid := fun hr => ⟨List.mem_append_left l (hi.hid hr).1, (hi.hid hr).2⟩
  ready := hi.ready

theorem Inv.also (hi : Inv es b h st) {e : Access} (he : e ∈ h) : Inv (e :: es) b h st :=
  { hi with known := List.forall_mem_cons.2 ⟨he, hi.known⟩ }

theorem Inv.mono {es' : List Access} (hi : Inv es' b h st) (hsub : ∀ e ∈ es, e ∈ es') : Inv es b h st :=
  { hi with known := fun e he => hi.known e (hsub e he) }

theorem Inv.of_ready (hi : Inv es true h st) : Inv es b h st := { hi with ready := fun _ => hi.ready rfl }

/-- a property of history and state that more events and more reads of the hardware do not touch -/
structure Stable (P : List Access → State → Prop) : Prop where
  later : ∀ h st l, P h st → P (h ++ l) st
  reads : ∀ h st n, P h st → P h { st with reads := n }

theorem stable_inv (es : List Access) (b : Bool) : Stable (Inv es b) :=
  ⟨fun _ _ l hi => hi.later l, fun _ _ _ hi => { hi with }⟩

/-- nothing happens but reads of the hardware and writes to registers, and it returns -/
structure Quiet (x : Drv α) : Prop where
  triple : ∀ P, Stable P → Triple InPage P x (fun _ => P)
  total : Total (fun _ => True) x

/-- whatever pages are known, the events are in order and the invariant holds again -/
def Keeps (x : Drv α) : Prop := ∀ es b, Triple InPage (Inv es b) x (fun _ => Inv es b)

theorem Quiet.keeps {x : Drv α} (hx : Quiet x) : Keeps x := fun es b => hx.triple _ (stable_inv es b)

theorem quiet_pure (a : α) : Quiet (pure a) := ⟨fun _ _ => triple_pure a fun _ _ hi => hi, total_pure a⟩

theorem quiet_bind {x : Drv α} {f : α → Drv β} (hx : Quiet x) (hf : ∀ a, Quiet (f a)) : Quiet (x >>= f) :=
  ⟨fun P hP => triple_bind (hx.triple P hP) fun a => (hf a).triple P hP, total_bind hx.total fun a => (hf a).total⟩

theorem quiet_ite {c : Prop} [Decidable c] {x y : Drv α} (hx : Quiet x) (hy : Quiet y) : Quiet (if c then x else y) :=
  ⟨fun P hP => triple_ite (fun _ => hx.triple P hP) (fun _ => hy.triple P hP), total_ite hx.total hy.total⟩

theorem quiet_w64 (addr v : UInt64) : Quiet (w64 addr v) :=
  ⟨fun _ hP => triple_emit _ (fun _ _ _ => trivial) fun h st hi => hP.later h st _ hi, fun st _ => ⟨(), st, rfl, trivial⟩⟩

theorem quiet_w32 (addr : UInt64) (v : UInt32) : Quiet (w32 addr v) := quiet_w64 addr _

/-- nothing happens but reads of the hardware -/
def Reads (x : Drv α) : Prop := ∀ st, ∃ a n, x st = pure (a, { st with reads := n })

theorem reads_hardware : Reads hardware := fun _ => ⟨_, _, rfl⟩

theorem reads_page : Reads readPage := fun _ => ⟨_, _, rfl⟩

theorem Reads.quiet {x : Drv α} (hx : Reads x) : Quiet x := by
  refine ⟨fun P hP h st hi => ?_, fun st _ => ?_⟩
  · obtain ⟨a, n, hrun⟩ := hx st
    rw [hrun]
    refine ⟨trivial, fun b st' hb => ?_⟩
    cases hb
    exact hP.later h _ [] (hP.reads h st n hi)
  · obtain ⟨a, n, hrun⟩ := hx st
    exact ⟨a, _, by rw [hrun]; rfl, trivial⟩

theorem quiet_hardware : Quiet hardware := reads_hardware.quiet

theorem quiet_read8 : Quiet read8 := quiet_bind quiet_hardware fun _ => quiet_pure _

theorem quiet_read16 : Quiet read16 := quiet_bind quiet_hardware fun _ => quiet_pure _

theorem quiet_read32 : Quiet read32 := quiet_bind quiet_hardware fun _ => quiet_pure _

theorem quiet_r32 (addr : UInt64) : Quiet (r32 addr) := quiet_read32

theorem quiet_readPage : Quiet readPage := reads_page.quiet

theorem quiet_spin (addr : UInt64) (cond : UInt32 → Bool) (n : ℕ) : Quiet (spin addr cond n) := by
  induction n with
  | zero => exact quiet_bind (quiet_r32 addr) fun _ => quiet_pure ()
  | succ n ih => exact quiet_bind (quiet_r32 addr) fun _ => quiet_ite ih (quiet_pure ())

theorem keeps_pure (a : α) : Keeps (pure a) := (quiet_pure a).keeps

theorem keeps_bind {x : Drv α} {f : α → Drv β} (hx : Keeps x) (hf : ∀ a, Keeps (f a)) : Keeps (x >>= f) :=
  fun es b => triple_bind (hx es b) fun a => hf a es b

theorem keeps_ite {c : Prop} [Decidable c] {x y : Drv α} (hx : Keeps x) (hy : Keeps y) : Keeps (if c then x else y) :=
  fun es b => triple_ite (fun _ => hx es b) (fun _ => hy es b)

theorem keeps_whenever {c : Prop} [Decidable c] {x : Drv Unit} (hx : Keeps x) : Keeps (whenever c x) :=
  keeps_ite hx (keeps_pure ())

/-- a change of the state that the invariant does not see -/
theorem keeps_modify {g : State → State} (hg : ∀ es b h st, Inv es b h st → Inv es b h (g st)) : Keeps (modify g) :=
  fun es b => triple_modify g fun h st hi => hg es b h st hi

theorem keeps_ofOption (v : Option α) : Keeps (lift (.ofOption v)) :=
  fun _ _ => triple_lift (fun _ _ _ => trivial) fun _ _ _ hi _ => hi.later []

theorem keeps_stop : Keeps (lift (.stop : Logged Access α)) :=
  fun _ _ => triple_lift (fun _ _ _ => trivial) fun _ _ _ _ hv => nomatch hv

theorem keeps_get {f : State → Drv β} (hf : ∀ st, Keeps (f st)) : Keeps (get >>= f) := by
  intro es b
  apply triple_get
  intro st
  exact triple_conseq (hf st es b) (fun _ _ hs => hs.2) fun _ _ _ hi => hi

/-- a page is returned and zeroed; the bitmap had one free page more -/
theorem allocPage_spec {P : List Access → State → Prop} (s : Area) :
    Triple InPage P (allocPage s) (fun p h st => ∃ h' m, h = h' ++ [.page s p, .write s p 0 4096 0] ∧
      P h' { st with pmm := m } ∧ Pmm.freePages st.pmm + 1 = Pmm.freePages m) := by
  intro h st hi
  unfold allocPage
  cases ha : Pmm.alloc st.pmm with
  | error e => exact ⟨trivial, fun p st' hp => nomatch hp⟩
  | ok r =>
    refine ⟨⟨trivial, ⟨by simp, le_refl _⟩, trivial⟩, fun p st' hp => ?_⟩
    obtain ⟨rfl, rfl⟩ := Prod.mk.inj (Option.some.inj hp)
    obtain ⟨-, -, -, -, -, hfree⟩ := Pmm.alloc_spec ha
    exact ⟨h, st.pmm, rfl, hi, hfree⟩

/-- a page is known from then on -/
theorem triple_allocPage (s : Area) : Triple InPage (Inv es b) (allocPage s) (fun p => Inv (.page s p :: es) b) := by
  apply triple_conseq (allocPage_spec s) fun _ _ hi => hi
  rintro p h st ⟨h', m, rfl, hi, -⟩
  have hi' : Inv es b h' st := { hi with }
  exact (hi'.later _).also (by simp)

theorem keeps_alloc (s : Area) : Keeps (allocPage s) :=
  fun _ _ => triple_conseq (triple_allocPage s) (fun _ _ hi => hi) fun _ _ _ hi => hi.mono (by simp +contextual)

/-- a write into a page that was returned before -/
theorem put_stable {P : List Access → State → Prop} (hP : Stable P) {s : Area} {base : UInt64} {off len : ℕ} {v : UInt64}
    (hp : ∀ h st, P h st → .page s base ∈ h) (hoff : off + len ≤ 4096) :
    Triple InPage P (emit (.write s base off len v)) (fun _ => P) :=
  triple_emit _ (fun h st hi => ⟨hp h st hi, hoff⟩) fun h st hi => hP.later h st _ hi

theorem triple_put {s : Area} {base : UInt64} {off len : ℕ} {v : UInt64} (hp : .page s base ∈ es)
    (hoff : off + len ≤ 4096) : Triple InPage (Inv es b) (emit (.write s base off len v)) (fun _ => Inv es b) :=
  put_stable (stable_inv es b) (fun _ _ hi => hi.known _ hp) hoff

/-- the writes of a ring operation -/
theorem triple_ring {s : Area} {base : UInt64} {y : Logged Access Ring} {r : Ring} (hp : .page s base ∈ es)
    (hy : Logged.Safe (InRing s base) y r) : Triple InPage (Inv es b) (lift y) (fun a h st => Inv es b h st ∧ a = r) := by
  refine triple_lift (fun h st hi => allowed_of_forall fun e he h' hh' => ?_) fun h st a hi ha => ⟨hi.later _, ?_⟩
  · obtain ⟨off, len, v, rfl, hoff⟩ := hy.log e he
    exact ⟨hh'.subset (hi.known _ hp), hoff⟩
  · exact Option.some.inj (ha.symm.trans hy.value)

/-! ## One step after another -/

variable {R : β → List Access → State → Prop}

theorem Keeps.andThen {x : Drv α} {f : α → Drv β} (hx : Keeps x) (hf : ∀ a, Triple InPage (Inv es b) (f a) R) :
    Triple InPage (Inv es b) (x >>= f) R := triple_bind (hx es b) hf

theorem alloc_then {s : Area} {f : UInt64 → Drv β} (hf : ∀ p, Triple InPage (Inv (.page s p :: es) b) (f p) R) :
    Triple InPage (Inv es b) (allocPage s >>= f) R := triple_bind (triple_allocPage s) hf

theorem put32_then {s : Area} {base : UInt64} {off : ℕ} {v : UInt32} {f : Unit → Drv β} (hp : .page s base ∈ es)
    (hoff : off + 4 ≤ 4096) (hf : ∀ u, Triple InPage (Inv es b) (f u) R) :
    Triple InPage (Inv es b) (put32 s base off v >>= f) R := triple_bind (triple_put hp hoff) hf

theorem put64_then {s : Area} {base : UInt64} {off : ℕ} {v : UInt64} {f : Unit → Drv β} (hp : .page s base ∈ es)
    (hoff : off + 8 ≤ 4096) (hf : ∀ u, Triple InPage (Inv es b) (f u) R) :
    Triple InPage (Inv es b) (put64 s base off v >>= f) R := triple_bind (triple_put hp hoff) hf

/-- the statics are read -/
theorem statics_then {f : State → Drv β} (hf : ∀ st, st.ctxSize ≤ 64 → st.cmd.enq ≤ 30 →
      Triple InPage (Inv (.page .dcbaa st.dcbaa :: .page .commandRing st.cmd.base :: es) b) (f st) R) :
    Triple InPage (Inv es b) (get >>= f) R := by
  apply triple_get
  rintro st h s ⟨rfl, hi⟩
  exact hf s hi.ctxSize hi.cmdEnq h s ((hi.also hi.cmd).also hi.dcbaa)

/-- a ring operation -/
theorem ring_then {s : Area} {base : UInt64} {y : Logged Access Ring} {r : Ring} {f : Ring → Drv β} (hp : .page s base ∈ es)
    (hy : Logged.Safe (InRing s base) y r) (hf : Triple InPage (Inv es b) (f r) R) :
    Triple InPage (Inv es b) (lift y >>= f) R := by
  apply triple_bind (triple_ring hp hy)
  intro a
  apply triple_fact
  rintro rfl
  exact hf

/-- the end of a function: what is known of its result, and only the pages that its caller knows -/
theorem pure_known {es' : List Access} (a : α) (hsub : ∀ e ∈ es, e ∈ es') :
    Triple InPage (Inv es' b) (pure a) (fun _ => Inv es b) := triple_pure a fun _ _ hi => hi.mono hsub

theorem pure_fact {a : α} {q : α → Prop} (hq : q a) :
    Triple InPage (Inv es b) (pure a) (fun a h st => Inv es b h st ∧ q a) := triple_pure a fun _ _ hi => ⟨hi, hq⟩

/-! ## Events and commands -/

/-- the invariant, and a fact about the result that the rest may use -/
theorem fact_then {x : Drv α} {f : α → Drv β} {q : α → Prop}
    (hx : Triple InPage (Inv es b) x (fun a h st => Inv es b h st ∧ q a))
    (hf : ∀ a, q a → Triple InPage (Inv es b) (f a) R) : Triple InPage (Inv es b) (x >>= f) R :=
  triple_bind hx fun a => triple_fact (hf a)

theorem slot_le (control : UInt32) : (control >>> 24).toNat ≤ 255 := by
  have hlt := control.toNat_lt
  rw [UInt32.toNat_shiftRight, show (24 : UInt32).toNat % 32 = 24 from rfl, Nat.shiftRight_eq_div_pow]
  omega

/-- the slot of an event is a byte -/
theorem consumeEvent_slot :
    Triple InPage (Inv es b) consumeEvent (fun e h st => Inv es b h st ∧ ∀ x ∈ e, x.2.2.toNat ≤ 255) := by
  apply statics_then
  intro st _ _
  apply quiet_read32.keeps.andThen
  intro control
  apply triple_ite
  · exact fun _ => triple_pure none fun h s hi => ⟨hi.mono (by simp +contextual), fun x hx => nomatch hx⟩
  · intro _
    apply quiet_read32.keeps.andThen
    intro status
    refine (keeps_modify ?_).andThen fun _ => (quiet_w64 _ _).keeps.andThen ?_
    · exact fun es b h s hi => { hi with }
    refine fun _ => triple_pure _ fun h s hi => ⟨hi.mono (by simp +contextual), fun x hx => ?_⟩
    rw [← Option.some.inj hx]
    exact slot_le control

theorem keeps_consumeEvent : Keeps consumeEvent :=
  fun _ _ => triple_conseq consumeEvent_slot (fun _ _ hi => hi) fun _ _ _ hi => hi.1

theorem waitLoop_slot (expected : UInt32) (n : ℕ) :
    Triple InPage (Inv es b) (waitLoop expected n) (fun a h st => Inv es b h st ∧ a.2.toNat ≤ 255) := by
  induction n with
  | zero => exact triple_pure _ fun h s hi => ⟨hi, by decide⟩
  | succ n ih =>
    apply fact_then consumeEvent_slot
    intro e he
    cases e with
    | none => exact ih
    | some e =>
      apply triple_ite
      · exact fun _ => triple_pure _ fun h s hi => ⟨hi, he e rfl⟩
      · exact fun _ => ih

theorem waitEvent_slot (expected : UInt32) :
    Triple InPage (Inv es b) (waitEvent expected) (fun a h st => Inv es b h st ∧ a.2.toNat ≤ 255) :=
  waitLoop_slot expected 10000000

theorem keeps_waitEvent (expected : UInt32) : Keeps (waitEvent expected) :=
  fun _ _ => triple_conseq (waitEvent_slot expected) (fun _ _ hi => hi) fun _ _ _ hi => hi.1

theorem keeps_drainLoop (n : ℕ) : Keeps (drainLoop n) := by
  induction n with
  | zero => exact keeps_stop
  | succ n ih => exact keeps_bind keeps_consumeEvent fun e => keeps_ite ih (keeps_pure ())

theorem keeps_drainEvents : Keeps drainEvents := keeps_get fun st => keeps_drainLoop st.fuel

theorem keeps_postCommand (param : UInt64) (status control : UInt32) : Keeps (postCommand param status control) := by
  intro es b
  apply statics_then
  intro st _ henq
  obtain ⟨hsafe, hbase, henq'⟩ := postCommandW_safe rfl henq param status control
  apply ring_then (by simp) hsafe
  apply triple_bind (Q := fun _ => Inv es b)
  · refine triple_modify _ fun h s hi => { hi.mono (by simp +contextual) with cmd := ?_, cmdEnq := henq' }
    rw [hbase]
    exact hi.known _ (by simp)
  · exact fun _ => (quiet_w32 _ _).keeps es b

theorem keeps_recoverCmdRing : Keeps recoverCmdRing := by
  intro es b
  apply statics_then
  intro st _ _
  apply (quiet_r32 _).keeps.andThen
  intro crcr
  apply (quiet_w32 _ _).keeps.andThen
  intro _
  apply (quiet_spin _ _ _).keeps.andThen
  intro _
  apply keeps_drainEvents.andThen
  intro _
  apply triple_bind (triple_put (by simp) (by omega))
  intro _
  apply put64_then (by simp) (by omega)
  intro _
  apply put32_then (by simp) (by omega)
  intro _
  apply put32_then (by simp) (by omega)
  intro _
  apply triple_bind (Q := fun _ => Inv es b)
  · exact triple_modify _ fun h s hi =>
      { hi.mono (by simp +contextual) with cmd := hi.known _ (by simp [Ring.new]), cmdEnq := Nat.zero_le 30 }
  · exact fun _ => (quiet_w64 _ _).keeps es b

/-! ## Control transfers -/

/-- a ring of an endpoint 0 in the page at base -/
structure RingAt (base : UInt64) (r : Ring) : Prop where
  base : r.base = base
  enq : r.enq ≤ 31

variable {base : UInt64} {r : Ring}

/-- a control transfer: the TRBs are written, the doorbell is rung and the event awaited -/
theorem transfer_ring {y : Logged Access Ring} (hp : .page .transferRing base ∈ es)
    (hy : Logged.Safe (InRing .transferRing base) y r) (hr : RingAt base r) (slotId : UInt32) :
    Triple InPage (Inv es b) (get >>= fun st => lift y >>= fun r => w32 (st.dbBase + slotId.toUInt64 * 4) 1 >>= fun _ =>
      waitEvent evtTransfer >>= fun e => pure (e.1, r)) (fun a h st => Inv es b h st ∧ RingAt base a.2) := by
  apply statics_then
  intro st _ _
  apply ring_then (by simp [hp]) hy
  apply (quiet_w32 _ _).keeps.andThen
  intro _
  apply (keeps_waitEvent _).andThen
  intro e
  exact triple_pure _ fun h s hi => ⟨hi.mono (by simp +contextual), hr⟩

theorem ctrlIn_ring (hp : .page .transferRing base ∈ es) (hr : RingAt base r) (slotId : UInt32) (setupParam buf : UInt64)
    (len : UInt16) :
    Triple InPage (Inv es b) (ctrlIn slotId r setupParam buf len) (fun a h st => Inv es b h st ∧ RingAt base a.2) := by
  obtain ⟨hsafe, hbase, henq⟩ := ctrlInW_safe hr.base hr.enq setupParam buf len
  exact transfer_ring hp hsafe ⟨hbase, henq⟩ slotId

theorem ctrlOutNodata_ring (hp : .page .transferRing base ∈ es) (hr : RingAt base r) (slotId : UInt32)
    (setupParam : UInt64) :
    Triple InPage (Inv es b) (ctrlOutNodata slotId r setupParam) (fun a h st => Inv es b h st ∧ RingAt base a.2) := by
  obtain ⟨hsafe, hbase, henq⟩ := ctrlOutNodataW_safe hr.base hr.enq setupParam
  exact transfer_ring hp hsafe ⟨hbase, henq⟩ slotId

theorem getDeviceDescriptor_ring (hp : .page .transferRing base ∈ es) (hr : RingAt base r) (slotId : UInt32) :
    Triple InPage (Inv es b) (getDeviceDescriptor slotId r) (fun a h st => Inv es b h st ∧ RingAt base a.2) := by
  apply (keeps_alloc _).andThen
  intro buf
  apply fact_then (ctrlIn_ring hp hr slotId _ buf 18)
  intro res hres
  apply triple_ite
  · intro _
    apply quiet_read8.keeps.andThen
    intro cls
    exact pure_fact hres
  · exact fun _ => pure_fact hres

theorem getConfigDescriptor_ring (hp : .page .transferRing base ∈ es) (hr : RingAt base r) (slotId : UInt32) :
    Triple InPage (Inv es b) (getConfigDescriptor slotId r) (fun a h st => Inv es b h st ∧ RingAt base a.2) := by
  apply (keeps_alloc _).andThen
  intro buf
  apply fact_then (ctrlIn_ring hp hr slotId _ buf 512)
  intro res hres
  apply triple_ite
  · intro _
    apply quiet_readPage.keeps.andThen
    intro page
    apply (keeps_ofOption _).andThen
    intro c
    exact pure_fact hres
  · exact fun _ => pure_fact hres

/-! ## `poll_hid` -/

theorem queueHidTransfer_ready (epIdx : ℕ) :
    Triple InPage (Inv es true) (queueHidTransfer epIdx) (fun _ => Inv es true) := by
  apply triple_get
  rintro st h s ⟨rfl, hi⟩
  obtain ⟨hpage, henq⟩ := hi.hid (hi.ready rfl)
  obtain ⟨hsafe, hbase, henq'⟩ := queueHidTransferW_safe rfl henq s.hidBuf
  refine (ring_then (R := fun _ => Inv es true) (by simp) hsafe ?_ :
    Triple InPage (Inv (.page .transferRing s.hid.base :: es) true) _ _) h s (hi.also hpage)
  apply triple_bind (Q := fun _ => Inv es true)
  · refine triple_modify _ fun h s' hi => { hi.mono (by simp +contextual) with hid := fun _ => ⟨?_, henq'⟩ }
    rw [hbase]
    exact hi.known _ (by simp)
  · exact fun _ => (quiet_w32 _ _).keeps es true

theorem keeps_pollLoop (n : ℕ) (gotTransfer : Bool) : Keeps (pollLoop n gotTransfer) := by
  induction n generalizing gotTransfer with
  | zero => exact keeps_stop
  | succ n ih =>
    refine keeps_bind keeps_consumeEvent fun e => ?_
    cases e with
    | none => exact keeps_pure _
    | some e => exact ih _

theorem keeps_pollHid : Keeps pollHid := by
  intro es b
  apply triple_get
  intro st
  apply triple_whenever
  · intro hready
    -- the guard has been passed, so the ring is there
    have hpoll : Triple InPage (Inv es true) (pollLoop st.fuel false >>= fun gotTransfer =>
        whenever (gotTransfer = true) (queueHidTransfer (epIndex st.hidEpAddr))) (fun _ => Inv es true) := by
      apply (keeps_pollLoop _ _).andThen
      intro gotTransfer
      exact triple_whenever (fun _ => queueHidTransfer_ready _) fun _ _ hi => hi
    refine triple_conseq hpoll ?_ fun _ _ _ hi => hi.of_ready
    rintro h s ⟨rfl, hi⟩
    exact { hi with ready := fun _ => hready }
  · exact fun h s hs => hs.2

theorem keeps_polls (n : ℕ) : Keeps (forRange (fun _ _ => pollHid) 0 n ()) :=
  fun es b => triple_forRange (I := fun _ _ => Inv es b) 0 n () fun _ _ _ _ => keeps_pollHid es b

theorem keeps_ticks : Keeps ticks := keeps_bind quiet_hardware.keeps fun n => keeps_polls n.toNat

/-! ## Contexts -/

theorem epIndex_le (epAddr : UInt8) : epIndex epAddr ≤ 31 := by
  have hlow : (epAddr &&& 0xF).toNat ≤ 15 := by
    rw [UInt8.toNat_and]
    exact Nat.and_le_right
  unfold epIndex
  split_ifs
  · omega
  · omega

/-- the page of a new ring is known from then on -/
theorem newRing_then {s : Area} {f : Ring → Drv β}
    (hf : ∀ p, Triple InPage (Inv (.page s p :: es) b) (f (Ring.new p)) R) :
    Triple InPage (Inv es b) (newRing s >>= f) R := by
  apply triple_bind (Q := fun r h st => Inv (.page s r.base :: es) b h st ∧ r = Ring.new r.base)
  · apply alloc_then
    intro ring
    apply put64_then (by simp) (by omega)
    intro _
    apply put32_then (by simp) (by omega)
    exact fun _ => triple_pure _ fun h st hi => ⟨hi, rfl⟩
  · intro r
    apply triple_fact
    intro hr
    have hnext := hf r.base
    rw [← hr] at hnext
    exact hnext

theorem copySlot_keeps {inputCtx : UInt64} {ctxSize : ℕ} (hp : .page .inputContext inputCtx ∈ es) (hc : ctxSize ≤ 64) :
    Triple InPage (Inv es b) (copySlot inputCtx ctxSize) (fun _ => Inv es b) := by
  apply triple_forRange (I := fun _ _ => Inv es b)
  intro j _ hj ws
  apply quiet_read32.keeps.andThen
  intro w
  apply put32_then hp (by omega)
  exact fun _ => triple_pure _ fun h s hi => hi

/-- the command failed: the ring may be recovered -/
theorem failed_then {f : Unit → Drv β} (code : UInt32) (hf : ∀ u, Triple InPage (Inv es b) (f u) R) :
    Triple InPage (Inv es b) (whenever (code = 0xFF) recoverCmdRing >>= f) R :=
  (keeps_whenever keeps_recoverCmdRing).andThen hf

/-- a keyboard that is ready has a ring -/
theorem configureHidEndpoint_ready (slotId : UInt32) (epAddr : UInt8) (maxPacket : UInt16) (interval : UInt8)
    (speed : UInt32) :
    Triple InPage (Inv es b) (configureHidEndpoint slotId epAddr maxPacket interval speed)
      (fun idx h st => Inv es (b || decide (idx ≠ 0)) h st) := by
  have hidx := epIndex_le epAddr
  apply statics_then
  intro st hctx _
  apply alloc_then
  intro inputCtx
  apply put32_then (by simp) (by omega)
  intro _
  apply triple_bind (copySlot_keeps (by simp) hctx)
  intro slot
  apply put32_then (by simp) (by omega)
  intro _
  apply newRing_then
  intro trRing
  have hep : st.ctxSize * (epIndex epAddr + 1) ≤ 64 * 32 := Nat.mul_le_mul hctx (by omega)
  apply put32_then (by simp) (by omega)
  intro _
  apply put32_then (by simp) (by omega)
  intro _
  apply put64_then (by simp) (by omega)
  intro _
  apply put32_then (by simp) (by omega)
  intro _
  apply (keeps_postCommand _ _ _).andThen
  intro _
  apply (keeps_waitEvent _).andThen
  intro e
  apply triple_ite
  · intro _
    apply failed_then
    intro _
    refine triple_pure 0 fun h s hi => ?_
    rw [decide_eq_false (not_not.2 rfl), Bool.or_false]
    exact hi.mono (by simp +contextual)
  · intro _
    apply (keeps_alloc _).andThen
    intro hidBuf
    apply triple_bind (Q := fun _ => Inv es true)
    · exact triple_modify _ fun h s hi => { hi.mono (by simp +contextual) with
        hid := fun _ => ⟨hi.known _ (by simp [Ring.new]), Nat.zero_le 30⟩
        ready := fun _ => rfl }
    · intro _
      apply keeps_ticks.andThen
      exact fun _ => triple_pure _ fun h s hi => hi.of_ready

theorem keeps_evaluateEp0MaxPacket (slotId maxPkt : UInt32) : Keeps (evaluateEp0MaxPacket slotId maxPkt) := by
  intro es b
  apply statics_then
  intro st hctx _
  apply alloc_then
  intro inputCtx
  apply put32_then (by simp) (by omega)
  intro _
  apply put32_then (by simp) (by omega)
  intro _
  apply (keeps_postCommand _ _ _).andThen
  intro _
  apply (keeps_waitEvent _).andThen
  intro e
  exact pure_known _ (by simp +contextual)

theorem keeps_configureHubSlot (slotId nbrPorts ttt : UInt32) : Keeps (configureHubSlot slotId nbrPorts ttt) := by
  intro es b
  apply statics_then
  intro st hctx _
  apply alloc_then
  intro inputCtx
  apply put32_then (by simp) (by omega)
  intro _
  apply triple_bind (copySlot_keeps (by simp) hctx)
  intro slot
  apply put32_then (by simp) (by omega)
  intro _
  apply put32_then (by simp) (by omega)
  intro _
  apply put32_then (by simp) (by omega)
  intro _
  apply (keeps_postCommand _ _ _).andThen
  intro _
  apply (keeps_waitEvent _).andThen
  intro e
  apply triple_ite
  · intro _
    apply failed_then
    exact fun _ => pure_known _ (by simp +contextual)
  · exact fun _ => pure_known _ (by simp +contextual)

/-- what is known after `setup_device` -/
def Found (es : List Access) (b : Bool) : Option Dev → List Access → State → Prop
  | none => Inv es b
  | some d => fun h st => Inv (.page .transferRing d.ring.base :: es) b h st ∧ d.ring.enq ≤ 31

theorem setupDevice_found (routeString rootPort speed ttHubSlot ttPort : UInt32) :
    Triple InPage (Inv es b) (setupDevice routeString rootPort speed ttHubSlot ttPort) (Found es b) := by
  apply keeps_drainEvents.andThen
  intro _
  apply (keeps_postCommand _ _ _).andThen
  intro _
  apply fact_then (waitEvent_slot _)
  intro enabled hslot
  apply triple_ite
  · intro _
    apply failed_then
    exact fun _ => triple_pure none fun h s hi => hi
  · intro _
    apply statics_then
    intro st hctx _
    apply alloc_then
    intro inputCtx
    apply put32_then (by simp) (by omega)
    intro _
    apply put32_then (by simp) (by omega)
    intro _
    apply put32_then (by simp) (by omega)
    intro _
    apply put32_then (by simp) (by omega)
    intro _
    apply newRing_then
    intro trRing
    apply put32_then (by simp) (by omega)
    intro _
    apply put64_then (by simp) (by omega)
    intro _
    apply (keeps_alloc _).andThen
    intro outCtx
    apply put64_then (by simp) (by omega)
    intro _
    apply (keeps_postCommand _ _ _).andThen
    intro _
    apply (keeps_waitEvent _).andThen
    intro addressed
    apply triple_ite
    · intro _
      apply failed_then
      exact fun _ => triple_pure none fun h s hi => hi.mono (by simp +contextual)
    · refine fun _ => triple_pure _ fun h s hi => ⟨hi.mono ?_, Nat.zero_le 31⟩
      simp +contextual [Ring.new]

/-! ## The keyboard -/

theorem keeps_startHid {d : Dev} (hp : .page .transferRing base ∈ es) (hd : RingAt base d.ring) (c : Config)
    (speed : UInt32) : Triple InPage (Inv es b) (startHid d c speed) (fun _ => Inv es b) := by
  apply fact_then (ctrlOutNodata_ring hp hd d.slotId _)
  intro res hres
  apply triple_ite
  · intro _
    apply fact_then (ctrlOutNodata_ring hp hres d.slotId _)
    intro _ _
    apply triple_bind (configureHidEndpoint_ready _ _ _ _ _)
    intro epIdx
    by_cases h0 : epIdx = 0
    · rw [if_pos h0, decide_eq_false (not_not.2 h0), Bool.or_false]
      exact triple_pure _ fun h s hi => hi
    · rw [if_neg h0, decide_eq_true h0, Bool.or_true]
      apply triple_bind (queueHidTransfer_ready epIdx)
      exact fun _ => triple_pure _ fun h s hi => hi.of_ready
  · exact fun _ => triple_pure _ fun h s hi => hi

theorem fixEp0_ring {d : Dev} (hp : .page .transferRing base ∈ es) (hd : RingAt base d.ring) (speed : UInt32) :
    Triple InPage (Inv es b) (fixEp0 d speed) (fun a h st => Inv es b h st ∧ RingAt base a.ring) := by
  apply triple_ite
  · intro _
    apply (keeps_alloc _).andThen
    intro buf
    apply fact_then (ctrlIn_ring hp hd d.slotId _ buf 8)
    intro res hres
    apply triple_ite
    · intro _
      apply quiet_read8.keeps.andThen
      intro mps0
      apply (keeps_whenever (keeps_bind (keeps_evaluateEp0MaxPacket _ _) fun _ => keeps_pure ())).andThen
      exact fun _ => pure_fact hres
    · exact fun _ => pure_fact hres
  · exact fun _ => pure_fact hd

/-! ## Hubs -/

theorem hubSetPortFeature_ring {d : Dev} (hp : .page .transferRing base ∈ es) (hd : RingAt base d.ring) (feature : UInt16)
    (port : ℕ) :
    Triple InPage (Inv es b) (hubSetPortFeature d feature port) (fun a h st => Inv es b h st ∧ RingAt base a.ring) := by
  apply fact_then (ctrlOutNodata_ring hp hd d.slotId _)
  exact fun res hres => pure_fact hres

theorem hubClearPortFeature_ring {d : Dev} (hp : .page .transferRing base ∈ es) (hd : RingAt base d.ring)
    (feature : UInt16) (port : ℕ) :
    Triple InPage (Inv es b) (hubClearPortFeature d feature port) (fun a h st => Inv es b h st ∧ RingAt base a.ring) := by
  apply fact_then (ctrlOutNodata_ring hp hd d.slotId _)
  exact fun res hres => pure_fact hres

theorem hubGetPortStatus_ring {d : Dev} (hp : .page .transferRing base ∈ es) (hd : RingAt base d.ring) (buf : UInt64)
    (port : ℕ) :
    Triple InPage (Inv es b) (hubGetPortStatus d buf port) (fun a h st => Inv es b h st ∧ RingAt base a.2.ring) := by
  apply fact_then (ctrlIn_ring hp hd d.slotId _ buf 4)
  intro res hres
  apply triple_ite
  · intro _
    apply quiet_read32.keeps.andThen
    exact fun _ => pure_fact hres
  · exact fun _ => pure_fact hres

theorem resetLoop_ring {d : Dev} (hp : .page .transferRing base ∈ es) (hd : RingAt base d.ring) (buf : UInt64)
    (port n : ℕ) :
    Triple InPage (Inv es b) (resetLoop buf port n d) (fun a h st => Inv es b h st ∧ RingAt base a.ring) := by
  induction n generalizing d with
  | zero =>
    apply fact_then (hubGetPortStatus_ring hp hd buf port)
    exact fun res hres => pure_fact hres
  | succ n ih =>
    apply fact_then (hubGetPortStatus_ring hp hd buf port)
    intro res hres
    apply triple_ite
    · exact fun _ => pure_fact hres
    · exact fun _ => ih hres

theorem hubPort_ring {child : UInt32 → UInt32 → UInt32 → UInt32 → Drv Bool} (hchild : ∀ x y z w, Keeps (child x y z w))
    (hp : .page .transferRing base ∈ es) (statBuf : UInt64) (routeString hubSpeed ttHubSlot ttPort : UInt32) (depth p : ℕ)
    {d : Dev} (hd : RingAt base d.ring) :
    Triple InPage (Inv es b) (hubPort child statBuf routeString hubSpeed ttHubSlot ttPort depth p d)
      (fun a h st => Inv es b h st ∧ RingAt base a.2.ring) := by
  apply fact_then (hubClearPortFeature_ring hp hd 16 p)
  intro d hd
  apply fact_then (hubGetPortStatus_ring hp hd statBuf p)
  intro res hres
  apply triple_ite
  · exact fun _ => pure_fact hres
  · intro _
    apply fact_then (hubSetPortFeature_ring hp hres 4 p)
    intro d hd
    apply fact_then (resetLoop_ring hp hd statBuf p 19)
    intro d hd
    apply fact_then (hubClearPortFeature_ring hp hd 20 p)
    intro d hd
    apply fact_then (hubGetPortStatus_ring hp hd statBuf p)
    intro res hres
    apply (hchild _ _ _ _).andThen
    exact fun _ => pure_fact hres

theorem keeps_enumerateHub {child : UInt32 → UInt32 → UInt32 → UInt32 → Drv Bool}
    (hchild : ∀ x y z w, Keeps (child x y z w)) (hp : .page .transferRing base ∈ es) {d : Dev} (hd : RingAt base d.ring)
    (cfg : UInt8) (routeString hubSpeed ttHubSlot ttPort : UInt32) (depth : ℕ) :
    Triple InPage (Inv es b) (enumerateHub child d cfg routeString hubSpeed ttHubSlot ttPort depth)
      (fun _ => Inv es b) := by
  have hfail : Triple InPage (Inv es b) (pure false : Drv Bool) (fun _ => Inv es b) := triple_pure _ fun h s hi => hi
  apply fact_then (ctrlOutNodata_ring hp hd d.slotId _)
  intro res hres
  refine triple_ite (fun _ => ?_) fun _ => hfail
  apply (keeps_alloc _).andThen
  intro buf
  apply fact_then (ctrlIn_ring hp hres d.slotId _ buf 8)
  intro res hres
  refine triple_ite (fun _ => ?_) fun _ => hfail
  apply quiet_read8.keeps.andThen
  intro nbrPorts
  apply quiet_read16.keeps.andThen
  intro characteristics
  apply (keeps_configureHubSlot _ _ _).andThen
  intro ok
  refine triple_ite (fun _ => ?_) fun _ => hfail
  apply (keeps_alloc _).andThen
  intro statBuf
  -- the two loops over the ports pass the ring on
  have hpower : Triple InPage (fun h st => Inv es b h st ∧ RingAt base (⟨d.slotId, res.2⟩ : Dev).ring)
      (forRange (fun p d => hubSetPortFeature d 8 p) 1 nbrPorts.toNat ⟨d.slotId, res.2⟩)
      (fun d h st => Inv es b h st ∧ RingAt base d.ring) :=
    triple_forRange (I := fun _ (d : Dev) h st => Inv es b h st ∧ RingAt base d.ring) 1 nbrPorts.toNat ⟨d.slotId, res.2⟩
      fun p _ _ d => triple_fact fun hd => hubSetPortFeature_ring hp hd 8 p
  apply triple_bind (triple_conseq hpower (fun _ _ hi => ⟨hi, hres⟩) fun _ _ _ hi => hi)
  intro d
  exact triple_anyRange (I := fun (d : Dev) h st => Inv es b h st ∧ RingAt base d.ring) (J := Inv es b)
    (fun p d => triple_fact fun hd => hubPort_ring hchild hp statBuf routeString hubSpeed ttHubSlot ttPort depth p hd)
    (fun _ _ _ hi => hi.1) 1 nbrPorts.toNat d

theorem keeps_enumerateWith {hub : Dev → UInt8 → Drv Bool}
    (hhub : ∀ es b base d cfg, .page .transferRing base ∈ es → RingAt base d.ring →
      Triple InPage (Inv es b) (hub d cfg) (fun _ => Inv es b))
    (routeString rootPort speed ttHubSlot ttPort : UInt32) :
    Keeps (enumerateWith hub routeString rootPort speed ttHubSlot ttPort) := by
  intro es b
  apply triple_bind (setupDevice_found _ _ _ _ _)
  intro dev
  cases dev with
  | none => exact triple_pure _ fun h s hi => hi
  | some d =>
    apply triple_fact
    intro henq
    have hp : Access.page .transferRing d.ring.base ∈ Access.page .transferRing d.ring.base :: es := by simp
    have hweak : ∀ {x : Drv Bool}, Triple InPage (Inv (.page .transferRing d.ring.base :: es) b) x
        (fun _ => Inv (.page .transferRing d.ring.base :: es) b) →
        Triple InPage (Inv (.page .transferRing d.ring.base :: es) b) x (fun _ => Inv es b) :=
      fun hx => triple_conseq hx (fun _ _ hi => hi) fun _ _ _ hi => hi.mono (by simp +contextual)
    apply fact_then (fixEp0_ring hp ⟨rfl, henq⟩ speed)
    intro d' hd'
    apply fact_then (getDeviceDescriptor_ring hp hd' d'.slotId)
    intro cls hcls
    apply fact_then (getConfigDescriptor_ring hp hcls d'.slotId)
    intro cfg hcfg
    apply triple_ite
    · exact fun _ => hweak (keeps_startHid (d := ⟨d'.slotId, cfg.2⟩) hp hcfg cfg.1 speed)
    · intro _
      apply triple_ite
      · exact fun _ => hweak (hhub _ b _ ⟨d'.slotId, cfg.2⟩ _ hp hcfg)
      · exact fun _ => hweak (triple_pure _ fun h s hi => hi)

/-- a device and everything behind it: induction on the tiers of hubs below -/
theorem keeps_enumerateDevice (rootPort : UInt32) (tiers : ℕ) (routeString speed ttHubSlot ttPort : UInt32) :
    Keeps (enumerateDevice rootPort tiers routeString speed ttHubSlot ttPort) := by
  induction tiers generalizing routeString speed ttHubSlot ttPort with
  | zero => exact keeps_enumerateWith (fun _ _ _ _ _ _ _ => triple_pure _ fun h s hi => hi) _ _ _ _ _
  | succ tiers ih =>
    exact keeps_enumerateWith (fun _ _ _ _ _ hp hd => keeps_enumerateHub ih hp hd _ _ _ _ _ _) _ _ _ _ _

/-! ## `init` -/

theorem keeps_skipPortEvents (n : ℕ) : Keeps (skipPortEvents n) := by
  induction n with
  | zero => exact keeps_pure ()
  | succ n ih =>
    refine keeps_bind keeps_consumeEvent fun e => ?_
    cases e with
    | none => exact keeps_pure ()
    | some e => exact keeps_ite (keeps_pure ()) ih

theorem keeps_rootPort (opBase : UInt64) (port : ℕ) : Keeps (rootPort opBase port ()) := by
  refine keeps_bind keeps_ticks fun _ => keeps_bind (quiet_r32 _).keeps fun sc => keeps_ite (keeps_pure _) ?_
  refine keeps_bind (quiet_r32 _).keeps fun sc => keeps_bind (quiet_w32 _ _).keeps fun _ => ?_
  refine keeps_bind (quiet_spin _ _ _).keeps fun _ => keeps_bind (quiet_r32 _).keeps fun sc => keeps_ite (keeps_pure _) ?_
  refine keeps_bind (quiet_r32 _).keeps fun sc => keeps_bind (quiet_w32 _ _).keeps fun _ => ?_
  refine keeps_bind (quiet_r32 _).keeps fun sc => ?_
  exact keeps_bind (keeps_enumerateDevice _ _ _ _ _ _) fun found => keeps_pure _

theorem keeps_initPorts (cap : Caps) : Keeps (initPorts cap) := by
  refine keeps_get fun st => keeps_bind ?_ fun _ => keeps_bind (keeps_skipPortEvents 64) fun _ => keeps_bind ?_ fun _ =>
    keeps_pure ()
  · exact fun es b => triple_forRange (I := fun _ _ => Inv es b) 0 _ () fun port _ _ _ =>
      keeps_bind (quiet_r32 _).keeps (fun sc => (quiet_w32 _ _).keeps) es b
  · exact fun es b => triple_anyRange (I := fun _ => Inv es b) (J := Inv es b) (fun port _ => keeps_rootPort _ port es b)
      (fun _ _ _ hi => hi) 0 _ ()

/-- while `init` sets the statics: es are the pages known, with d the device context array is among them, no keyboard is
ready; k pages were taken, and where the scratchpad array is too small for the controller there were fewer than 515 -/
structure Booting (cap : Caps) (k : ℕ) (d : Bool) (es : List Access) (h : List Access) (st : State) : Prop where
  known : ∀ e ∈ es, e ∈ h
  ctxSize : st.ctxSize ≤ 64
  ready : st.hidReady = false
  dcbaa : d = true → .page .dcbaa st.dcbaa ∈ h
  room : maxScratch cap ≤ 512 ∨ Pmm.freePages st.pmm + k < 515

variable {cap : Caps} {k : ℕ} {d : Bool}

theorem stable_booting : Stable (Booting cap k d es) where
  later := fun _ _ l hi => { hi with
    known := fun e he => List.mem_append_left l (hi.known e he)
    dcbaa := fun hd => List.mem_append_left l (hi.dcbaa hd) }
  reads := fun _ _ _ hi => { hi with }

theorem quiet_resetController (opBase : UInt64) (cap : Caps) : Quiet (resetController opBase cap) := by
  refine quiet_bind (quiet_r32 _) fun sts => quiet_bind (quiet_ite ?_ (quiet_pure ())) fun _ => ?_
  · exact quiet_bind (quiet_r32 _) fun cmd => quiet_bind (quiet_w32 _ _) fun _ => quiet_spin _ _ _
  · refine quiet_bind (quiet_r32 _) fun cmd => quiet_bind (quiet_w32 _ _) fun _ => ?_
    refine quiet_bind (quiet_spin _ _ _) fun _ => quiet_bind (quiet_spin _ _ _) fun _ => ?_
    exact quiet_bind (quiet_r32 _) fun config => quiet_w32 _ _

theorem allocPage_booting (s : Area) :
    Triple InPage (Booting cap k d es) (allocPage s) (fun p => Booting cap (k + 1) d (.page s p :: es)) := by
  apply triple_conseq (allocPage_spec s) fun _ _ hi => hi
  rintro p h st ⟨h', m, rfl, hi, hfree⟩
  have hl := stable_booting.later h' _ [.page s p, .write s p 0 4096 0] hi
  refine { hl with known := List.forall_mem_cons.2 ⟨by simp, hl.known⟩, room := hi.room.imp id fun hroom => ?_ }
  change Pmm.freePages m + k < 515 at hroom
  omega

theorem put_booting {s : Area} {p : UInt64} {off len : ℕ} {v : UInt64} (hp : .page s p ∈ es) (hoff : off + len ≤ 4096) :
    Triple InPage (Booting cap k d es) (emit (.write s p off len v)) (fun _ => Booting cap k d es) :=
  put_stable stable_booting (fun _ _ hi => hi.known _ hp) hoff

/-- the loop over the scratchpad buffers stays in the array, or runs out of pages before it leaves it -/
theorem scratchStep_booting {arr : UInt64} {i : ℕ} (hp : .page .scratchArray arr ∈ es) (hi : i < maxScratch cap) :
    Triple InPage (Booting cap (2 + i) d es) (scratchStep arr i ()) (fun _ => Booting cap (2 + (i + 1)) d es) := by
  apply triple_bind (allocPage_booting .scratchBuffer)
  rintro buf h st hb
  have hoff : i * 8 + 8 ≤ 4096 := by
    rcases hb.room with hle | hlt
    · omega
    · omega
  exact triple_conseq (put_booting (List.mem_cons_of_mem _ hp) hoff) (fun _ _ hi => hi)
    (fun _ _ _ hi => { hi with known := fun e he => hi.known e (List.mem_cons_of_mem _ he) }) h st hb

theorem initDcbaa_booting :
    Triple InPage (Booting cap 0 false []) (initDcbaa cap) (fun _ h st => ∃ k, Booting cap k true [] h st) := by
  apply triple_bind (allocPage_booting .dcbaa)
  intro dcbaa
  apply triple_bind (Q := fun _ => Booting cap 1 true [.page .dcbaa dcbaa])
  · exact triple_modify _ fun h st hi => { hi with dcbaa := fun _ => hi.known _ (by simp) }
  intro _
  apply triple_whenever
  · intro _
    apply triple_bind (allocPage_booting .scratchArray)
    intro arr
    apply triple_bind (triple_forRange
      (I := fun i _ => Booting cap (2 + i) true [.page .scratchArray arr, .page .dcbaa dcbaa]) 0 (maxScratch cap) ()
      fun i _ hi _ => scratchStep_booting (by simp) (by omega))
    intro _
    refine triple_conseq (put_booting (by simp) (by omega)) (fun _ _ hi => hi) fun _ _ _ hi => ?_
    exact ⟨_, { hi with known := by simp }⟩
  · exact fun h st hi => ⟨1, { hi with known := by simp }⟩

/-- the statics point to their pages from then on -/
theorem initRings_inv : Triple InPage (Booting cap k true []) initRings (fun _ => Inv [] false) := by
  apply triple_get
  intro st
  apply triple_bind (Q := fun _ => Booting cap k true [])
  · exact triple_conseq ((quiet_w64 _ _).triple _ stable_booting) (fun _ _ hs => hs.2) fun _ _ _ hi => hi
  intro _
  apply triple_bind (allocPage_booting .commandRing)
  intro cmdRing
  apply triple_bind (put_booting (by simp) (by omega))
  intro _
  apply triple_bind (put_booting (by simp) (by omega))
  intro _
  apply triple_bind (put_booting (by simp) (by omega))
  intro _
  apply triple_bind (Q := fun _ => Inv [] false)
  · refine triple_modify _ fun h s hi => ⟨by simp, hi.ctxSize, hi.known _ (by simp [Ring.new]), Nat.zero_le 30,
      hi.dcbaa rfl, fun hr => ?_, fun hr => nomatch hr⟩
    rw [hi.ready] at hr
    cases hr
  intro _
  apply (quiet_w64 _ _).keeps.andThen
  intro _
  apply (keeps_alloc _).andThen
  intro evtRing
  refine (keeps_modify ?_).andThen fun _ => ?_
  · exact fun es b h s hi => { hi with }
  apply alloc_then
  intro erst
  apply put64_then (by simp) (by omega)
  intro _
  apply put64_then (by simp) (by omega)
  intro _
  refine triple_conseq (Quiet.keeps ?_ [.page .erst erst] false) (fun _ _ hi => hi) fun _ _ _ hi => hi.mono (by simp)
  refine quiet_bind (quiet_w32 _ _) fun _ => quiet_bind (quiet_w64 _ _) fun _ => quiet_bind (quiet_w64 _ _) fun _ => ?_
  exact quiet_bind (quiet_r32 _) fun cmd => quiet_bind (quiet_w32 _ _) fun _ => quiet_spin _ _ _

theorem session_in_page (bar0 : UInt64) (polls : ℕ) :
    Triple InPage (fun _ st => st.hidReady = false ∧ (maxScratch cap ≤ 512 ∨ Pmm.freePages st.pmm < 515))
      (session bar0 cap polls) (fun _ => Inv [] false) := by
  apply triple_bind (Q := fun _ => Inv [] false)
  · apply triple_bind (Q := fun _ => Booting cap 0 false [])
    · refine triple_modify _ fun h st hs => ⟨by simp, ?_, hs.1, fun hd => Bool.noConfusion hd, ?_⟩
      · show (if cap.hccParams1 >>> 2 &&& 1 = 1 then 64 else 32) ≤ 64
        split_ifs <;> omega
      · have hpmm : (setBases bar0 cap st).pmm = st.pmm := rfl
        rw [hpmm, Nat.add_zero]
        exact hs.2
    intro _
    apply triple_bind ((quiet_resetController _ cap).triple _ stable_booting)
    intro _
    apply triple_bind initDcbaa_booting
    intro _
    apply triple_bind (Q := fun _ => Inv [] false)
    · rintro h st ⟨k, hb⟩
      exact initRings_inv h st hb
    · exact fun _ => keeps_initPorts cap [] false
  · exact fun _ => keeps_polls polls [] false

/-! ## The scratchpad array -/

/-- a free page can be had -/
theorem alloc_free {m : Words} (hfree : 0 < Pmm.freePages m) :
    ∃ r, Pmm.alloc m = .ok r ∧ Pmm.freePages r.2 + 1 = Pmm.freePages m := by
  cases ha : Pmm.alloc m with
  | ok r =>
    obtain ⟨-, -, -, -, -, hcount⟩ := Pmm.alloc_spec ha
    exact ⟨r, rfl, hcount⟩
  | error e =>
    rw [Pmm.freePages_eq, Finset.card_pos] at hfree
    obtain ⟨p, hp⟩ := hfree
    obtain ⟨hlt, hbit⟩ := mem_clear.1 hp
    exact absurd ⟨by omega, hbit⟩ (Pmm.alloc_panics ha p)

theorem allocPage_free (s : Area) (st : State) (hfree : 0 < Pmm.freePages st.pmm) :
    ∃ p st', (allocPage s st).value = some (p, st') ∧ Pmm.freePages st'.pmm + 1 = Pmm.freePages st.pmm := by
  obtain ⟨r, hr, hcount⟩ := alloc_free hfree
  refine ⟨UInt64.ofNat r.1, { st with pmm := r.2 }, ?_, hcount⟩
  rw [allocPage, hr]

/-- with enough pages the loop comes to the entry behind the array: induction on the rounds left -/
theorem scratch_overflow {arr : UInt64} {i n : ℕ} (hi : i ≤ 512) (hn : 512 < i + n)
    (hfree : 513 ≤ Pmm.freePages st.pmm + i) :
    ¬ Allowed InPage h (forRange (scratchStep arr) i n () st).log := by
  induction n generalizing i h st with
  | zero => omega
  | succ n ih =>
    intro hlog
    obtain ⟨buf, st', hbuf, hcount⟩ := allocPage_free .scratchBuffer st (by omega)
    have hput := allowed_bind (allowed_first hlog) hbuf
    have hoff : i * 8 + 8 ≤ 4096 := hput.1.2
    have hstep : (scratchStep arr i () st).value = some ((), st') := (then_of_some hbuf _).2
    exact ih (by omega) (by omega) (by omega) (allowed_bind hlog hstep)

theorem initDcbaa_overflow (hs : 512 < maxScratch cap) (hfree : 515 ≤ Pmm.freePages st.pmm) :
    ¬ Allowed InPage h (initDcbaa cap st).log := by
  intro hlog
  obtain ⟨dcbaa, st1, h1, hcount1⟩ := allocPage_free .dcbaa st (by omega)
  have hlog1 := allowed_modify (allowed_bind hlog h1)
  rw [whenever, if_pos (by omega)] at hlog1
  obtain ⟨arr, st2, h2, hcount2⟩ := allocPage_free .scratchArray { st1 with dcbaa := dcbaa } (by
    show 0 < Pmm.freePages st1.pmm
    omega)
  change Pmm.freePages st2.pmm + 1 = Pmm.freePages st1.pmm at hcount2
  exact scratch_overflow (Nat.zero_le _) (by omega) (by omega) (allowed_first (allowed_bind hlog1 h2))

/-- a controller that asks for more than 512 buffers gets them written past the array -/
theorem session_overflow (st : State) (bar0 : UInt64) (polls : ℕ) (hs : 512 < maxScratch cap)
    (hfree : 515 ≤ Pmm.freePages st.pmm) :
    ¬ Allowed InPage h (session bar0 cap polls st).log := by
  intro hlog
  have hinit := allowed_modify (allowed_first hlog)
  obtain ⟨u, st', hreset, -⟩ := (quiet_resetController (bar0 + (cap.capLength &&& 0xFF).toUInt64) cap).total
    (setBases bar0 cap st) trivial
  have hpmm : st'.pmm = st.pmm :=
    ((quiet_resetController _ cap).triple (fun _ s => s.pmm = st.pmm) ⟨fun _ _ _ hs => hs, fun _ _ _ hs => hs⟩ []
      (setBases bar0 cap st) rfl).2 u st' hreset
  exact initDcbaa_overflow hs (hpmm ▸ hfree) (allowed_first (allowed_bind hinit hreset))

end

/-- **Driver writes stay in their pages, but for the scratchpad array.** From boot, whatever the capability registers, the
registers, events, descriptors and contexts that are read, the free pages, and however often `poll_hid` is called: each
write into a structure shared with the controller lies in a page that `alloc_page` returned for it before, if and only if
the controller asks for at most 512 scratchpad buffers, or there are too few free pages to get to the 513th. -/
theorem driver_writes_in_page (bar0 : UInt64) (cap : Caps) (polls : ℕ) (pmm : Words) (input : ℕ → UInt64) (fuel : ℕ) :
    Allowed InPage [] (session bar0 cap polls (State.boot pmm input fuel)).log ↔
      maxScratch cap ≤ 512 ∨ Pmm.freePages pmm < 515 := by
  constructor
  · intro hlog
    by_contra hno
    rw [not_or, not_le, not_lt] at hno
    exact session_overflow (State.boot pmm input fuel) bar0 polls hno.1 hno.2 hlog
  · intro hcond
    exact (session_in_page bar0 polls [] (State.boot pmm input fuel) ⟨rfl, hcond⟩).1

/-- a controller that asks for 1023 scratchpad buffers -/
def manyScratch : Caps := ⟨0x20, 0x04000820, 0xFBE00000, 0, 0x2000, 0x1000⟩

/-- the pages from 2 MB on are free -/
def upperFree : Words := fun i => if i < 8 then BitVec.allOnes 64 else 0

theorem upperFree_pages : 515 ≤ Pmm.freePages upperFree := by
  have hsub : Finset.Ico 512 1027 ⊆ clear 32768 upperFree := by
    intro p hp
    obtain ⟨h1, h2⟩ := Finset.mem_Ico.1 hp
    have hword : ¬ p / 64 < 8 := by omega
    exact mem_clear.2 ⟨by omega, by simp [bit, upperFree, hword]⟩
  rw [Pmm.freePages_eq]
  calc 515 = (Finset.Ico 512 1027).card := by rw [Nat.card_Ico]
    _ ≤ (clear 32768 upperFree).card := Finset.card_le_card hsub

theorem scratchpad_overflow :
    ¬ Allowed InPage [] (session 0xFEB00000 manyScratch 0 (State.boot upperFree (fun _ => 0) 0)).log :=
  session_overflow (State.boot upperFree (fun _ => 0) 0) 0xFEB00000 0 (by decide) upperFree_pages

end Tomorrow.Usb.Dma
