/-
The statics of the USB keyboard (`HID_READY`, `HID_SLOT`, `HID_EP_ADDR` and the rest) across an enumeration.

`configure_hid_endpoint` sets them when Configure Endpoint is completed, and reports success by the index of the endpoint,
with 0 for failure. A keyboard whose configuration descriptor lists no interrupt IN endpoint has address 0 and so index 0:
the statics are set, and the caller takes it for a failure. `Note.Sound` excludes this completion, and it is the only way:
- an enumeration that answers false has left the statics alone if all completions were sound, and, when no keyboard was
  ready before, only then;
- one that answers true has set them to an interrupt IN endpoint that is listed under an interface of class 3.

Results: `hid_state_spec`, `half_set_keyboard`.
-/
import Tomorrow.Usb.Enumeration

namespace Tomorrow.Usb.Dma

open Tomorrow.Core

/-- Configure Endpoint is completed only for a page that lists an interrupt IN endpoint -/
def Note.Sound : Note → Prop
  | .setup _ => True
  | .endpoint page code => code = 1 → ∃ o, page.Listed o ∧ page.IsInterruptIn o

/-- after the ghost events gs, from statics that were hid: unchanged while all were sound, ready once one was not -/
structure Settled (hid : HidState) (gs : List Note) (st : State) : Prop where
  unchanged : (∀ g ∈ gs, g.Sound) → st.hidState = hid
  halfSet : hid.ready = false → ¬ (∀ g ∈ gs, g.Sound) → st.hidReady = true

/-- the last ghost event is the completion of Configure Endpoint for the endpoint that the statics name -/
structure KeyboardReady (gs : List Note) (st : State) : Prop where
  ready : st.hidReady = true
  endpoint : ∃ before page o, gs = before ++ [.endpoint page 1] ∧ page.Listed o ∧ page.IsInterruptIn o ∧
    page.LastClass o 3 ∧ st.hidEpAddr = page (o + 2)

section

variable {hid : HidState} {gs : List Note} {st st' : State} {α : Type}

theorem Settled.same (h : Settled hid gs st) (heq : st'.hidState = st.hidState) : Settled hid gs st' := by
  refine ⟨fun hs => heq.trans (h.unchanged hs), fun hr hs => ?_⟩
  have hready : st'.hidReady = st.hidReady := congrArg HidState.ready heq
  exact hready.trans (h.halfSet hr hs)

theorem Settled.sound (h : Settled hid gs st) {g : Note} (hg : g.Sound) : Settled hid (gs ++ [g]) st := by
  have hiff : (∀ g' ∈ gs ++ [g], g'.Sound) ↔ ∀ g' ∈ gs, g'.Sound := by
    rw [List.forall_mem_append, List.forall_mem_singleton]
    exact ⟨And.left, fun h => ⟨h, hg⟩⟩
  exact ⟨fun hs => h.unchanged (hiff.1 hs), fun hr hs => h.halfSet hr fun hs' => hs (hiff.2 hs')⟩

/-- a completion that is not sound, and after it the keyboard is ready -/
theorem settled_unsound {g : Note} (hg : ¬ g.Sound) (hready : st.hidReady = true) : Settled hid (gs ++ [g]) st :=
  ⟨fun hs => absurd (hs g (by simp)) hg, fun _ _ => hready⟩

/-! ## The end of a keyboard's setup -/

theorem calm_triple {κ : Type} {view : HidState → κ} {x : Drv α} (hx : Calm view x) (k : κ) :
    Triple (fun _ _ => True) (fun _ st => view st.hidState = k) x (fun _ _ st => view st.hidState = k) := by
  intro h st hst
  exact ⟨allowed_true _ _, fun a st' ha => (hx.returns st a st' ha).hid.trans hst⟩

variable {d : Dev} {c : Config} {cmd : UInt32 × Ring}

/-- the command was not completed: nothing is set -/
theorem finishHid_of_ne (hcode : cmd.1 ≠ 1) {b : Bool} (hb : (finishHid d c cmd st).value = some (b, st')) :
    b = false ∧ st'.hidState = st.hidState := by
  have hrun : finishHid d c cmd = whenever (cmd.1 = 0xFF) recoverCmdRing >>= fun _ => pure false := by
    simp [finishHid, finishEndpoint, hcode]
  rw [hrun] at hb
  have hcalm : Calm id (whenever (cmd.1 = 0xFF) recoverCmdRing >>= fun _ => pure false) :=
    calm_bind (calm_whenever calm_recoverCmdRing) fun _ => calm_pure false
  have hfalse : Yields (fun b => b = false) (whenever (cmd.1 = 0xFF) recoverCmdRing >>= fun _ => (pure false : Drv Bool)) :=
    yields_bind (yields_true _) fun _ _ => yields_pure rfl
  exact ⟨hfalse st b st' hb, (hcalm.returns st b st' hb).hid⟩

/-- the command was completed: the keyboard is ready with the address it was given, and the answer is about the index -/
theorem finishHid_of_one (hcode : cmd.1 = 1) {b : Bool} (hb : (finishHid d c cmd st).value = some (b, st')) :
    st'.hidReady = true ∧ st'.hidEpAddr = c.epAddr ∧ (b = true ↔ epIndex c.epAddr ≠ 0) := by
  have hrun : finishHid d c cmd = allocPage .buffer >>= fun hidBuf => modify (fun st =>
      { st with hidSlot := d.slotId, hid := cmd.2, hidEpAddr := c.epAddr, hidBuf := hidBuf, hidReady := true }) >>= fun _ =>
      ticks >>= fun _ => if epIndex c.epAddr = 0 then pure false else queueHidTransfer (epIndex c.epAddr) >>= fun _ =>
        pure true := by
    simp [finishHid, finishEndpoint, hcode, bind_assoc]
  have htriple : Triple (fun _ _ => True) (fun _ _ => True) (finishHid d c cmd) (fun b _ st =>
      endpointView st.hidState = (c.epAddr, true) ∧ (b = true ↔ epIndex c.epAddr ≠ 0)) := by
    rw [hrun]
    apply triple_bind (Q := fun _ _ _ => True)
    · exact fun h s _ => ⟨allowed_true _ _, fun _ _ _ => trivial⟩
    intro hidBuf
    apply triple_bind (Q := fun _ _ st => endpointView st.hidState = (c.epAddr, true))
    · exact triple_modify _ fun _ _ _ => rfl
    intro _
    apply triple_bind (calm_triple calm_ticks _)
    intro _
    apply triple_ite
    · exact fun h0 => triple_pure false fun _ _ hs => ⟨hs, by simp [h0]⟩
    · intro h0
      apply triple_bind (calm_triple (calm_queueHidTransfer _) _)
      exact fun _ => triple_pure true fun _ _ hs => ⟨hs, by simp [h0]⟩
  obtain ⟨hview, hiff⟩ := (htriple [] st trivial).2 b st' hb
  obtain ⟨haddr, hready⟩ := Prod.mk.inj hview
  exact ⟨hready, haddr, hiff⟩

/-- an endpoint address that counts as IN has an index -/
theorem epIndex_ne_zero {epAddr : UInt8} (h : epAddr &&& 0x80 ≠ 0) : epIndex epAddr ≠ 0 := by
  rw [epIndex, if_pos h]
  omega

/-! ## The enumeration -/

/-- the answer true means a ready keyboard, the answer false that the statics are settled -/
def Outcome (hid : HidState) (b : Bool) (gs : List Note) (st : State) : Prop :=
  if b then KeyboardReady gs st else Settled hid gs st

/-- the end of a keyboard's setup, after the completion was noted -/
theorem finishHid_outcome {page : Page} (hclass : (configOf page).ifaceClass = 3) (hs : Settled hid gs st) {b : Bool}
    (hb : (finishHid d (configOf page) cmd st).value = some (b, st')) :
    Outcome hid b (gs ++ [.endpoint page cmd.1]) st' := by
  by_cases hcode : cmd.1 = 1
  · obtain ⟨hready, haddr, hiff⟩ := finishHid_of_one hcode hb
    rcases (configOf_spec page).2.endpoint with ⟨o, hep⟩ | hno
    · -- an interrupt IN endpoint has an index, so the answer is true
      have hindex : epIndex (configOf page).epAddr ≠ 0 := epIndex_ne_zero (hep.epAddr ▸ hep.interruptIn.2.2)
      rw [Outcome, if_pos (hiff.2 hindex), hcode]
      exact ⟨hready, gs, page, o, rfl, hep.listed, hep.interruptIn, hclass ▸ hep.ifaceClass, haddr.trans hep.epAddr⟩
    · -- without one the address is 0, the index is 0 and the answer is false
      have hindex : epIndex (configOf page).epAddr = 0 := by
        rw [hno.epAddr]
        rfl
      have hsound : ¬ Note.Sound (.endpoint page cmd.1) := fun h => by
        obtain ⟨o, hlisted, hin⟩ := h hcode
        exact hno.none o hlisted hin
      rw [Outcome, if_neg fun h => hiff.1 h hindex]
      exact settled_unsound hsound hready
  · obtain ⟨rfl, hsame⟩ := finishHid_of_ne hcode hb
    exact (hs.same hsame).sound fun h => absurd h hcode

/-- from settled statics on, with any ghost events before -/
def Settles (hid : HidState) (x : Watched Bool) : Prop :=
  Triple (fun _ _ => True) (fun h st => Settled hid (ghosts h) st) x (fun b h st => Outcome hid b (ghosts h) st)

theorem settles_false : Settles hid (pure false) := triple_pure false fun _ _ hs => hs

theorem settled_act {x : Drv α} (hx : Calm id x) :
    Triple (fun _ _ => True) (fun h st => Settled hid (ghosts h) st) (act x)
      (fun _ h st => Settled hid (ghosts h) st) := by
  refine triple_act (fun _ _ => trivial) fun h st a st' hs ha => ?_
  rw [ghosts_append, ghosts_map_inl, List.append_nil]
  exact hs.same (hx.returns st a st' ha).hid

theorem settles_ite {p : Prop} [Decidable p] {x y : Watched Bool} (hx : p → Settles hid x) (hy : Settles hid y) :
    Settles hid (if p then x else y) := triple_ite hx fun _ => hy

theorem settles_watchHid {page : Page} (hclass : (configOf page).ifaceClass = 3) (d : Dev) (speed : UInt32) :
    Settles hid (watchHid page d (configOf page) speed) := by
  apply triple_bind (settled_act (calm_hidCommand _ _ _))
  intro cmd
  cases cmd with
  | none => exact settles_false
  | some cmd =>
    apply triple_bind (Q := fun _ h st => ∃ gs, ghosts h = gs ++ [.endpoint page cmd.1] ∧ Settled hid gs st)
    · exact triple_emit _ (fun _ _ _ => trivial) fun h st hs => ⟨ghosts h, by simp, hs⟩
    intro _
    refine triple_act (fun _ _ => trivial) fun h st b st' hs hb => ?_
    obtain ⟨gs, hgs, hs⟩ := hs
    rw [ghosts_append, ghosts_map_inl, List.append_nil, hgs]
    exact finishHid_outcome hclass hs hb

theorem settles_watchWith {hub : Dev → UInt8 → Watched Bool} (hhub : ∀ d cfg, Settles hid (hub d cfg)) (v : Setup) :
    Settles hid (watchWith hub v) := by
  apply triple_bind (Q := fun _ h st => Settled hid (ghosts h) st)
  · refine triple_emit _ (fun _ _ _ => trivial) fun h st hs => ?_
    rw [ghosts_append, ghosts_inr]
    exact hs.sound trivial
  intro _
  apply triple_bind (settled_act (calm_identify _ _ _ _ _))
  intro dev
  cases dev with
  | none => exact settles_false
  | some dev =>
    exact settles_ite (fun hclass => settles_watchHid hclass _ _) (settles_ite (fun _ => hhub _ _) settles_false)

theorem settles_watchHub {child : Setup → Watched Bool} (hchild : ∀ w, Settles hid (child w)) (v : Setup) (d : Dev)
    (cfg : UInt8) : Settles hid (watchHub child v d cfg) := by
  apply triple_bind (settled_act (calm_openHub d cfg))
  intro hub
  cases hub with
  | none => exact settles_false
  | some hub =>
    refine triple_search (I := fun _ h st => Settled hid (ghosts h) st) (J := fun b h st => Outcome hid b (ghosts h) st)
      1 hub.2.1 hub.2.2 (fun p _ _ d' => ?_) fun _ _ _ hs => hs
    apply triple_bind (settled_act (calm_openPort hub.1 p d'))
    intro dev
    obtain ⟨o, d''⟩ := dev
    cases o with
    | none => exact triple_pure _ fun _ _ hs => hs
    | some o =>
      apply triple_bind (hchild _)
      intro found
      refine triple_pure _ fun h st hs => ?_
      cases found with
      | false => exact hs
      | true => exact hs

theorem settles_watchDevice (tiers : ℕ) (v : Setup) : Settles hid (watchDevice tiers v) := by
  induction tiers generalizing v with
  | zero => exact settles_watchWith (fun _ _ => settles_false) v
  | succ tiers ih => exact settles_watchWith (settles_watchHub ih v) v

end

/-- **HID state.** Whatever the controller completes and whatever the devices describe, a call of `enumerate_device`
- that answers false has left the `HID_*` statics as they were if every Configure Endpoint that was completed was for a
  configuration descriptor with an interrupt IN endpoint; if no keyboard was ready before, only then;
- that answers true has set `HID_READY`, with `HID_EP_ADDR` an interrupt IN endpoint that the configuration descriptor of
  the keyboard, the last one to be set up, lists under an interface of class 3. -/
theorem hid_state_spec (tiers : ℕ) (v : Setup) (hdepth : v.path.length + tiers = maxHubDepth) (st : State) :
    erase (watchDevice tiers v) = enumerateDevice v.rootPort tiers v.routeString v.speed v.ttHubSlot v.ttPort ∧
      (∀ st', (enumerateDevice v.rootPort tiers v.routeString v.speed v.ttHubSlot v.ttPort st).value = some (false, st') →
        ((∀ g ∈ ghosts (watchDevice tiers v st).log, g.Sound) → st'.hidState = st.hidState) ∧
        (st.hidReady = false →
          (st'.hidState = st.hidState ↔ ∀ g ∈ ghosts (watchDevice tiers v st).log, g.Sound))) ∧
      ∀ st', (enumerateDevice v.rootPort tiers v.routeString v.speed v.ttHubSlot v.ttPort st).value = some (true, st') →
        KeyboardReady (ghosts (watchDevice tiers v st).log) st' := by
  have herase := erase_watchDevice tiers v hdepth
  have hstart : Settled st.hidState [] st := ⟨fun _ => rfl, fun _ hs => absurd (fun g hg => nomatch hg) hs⟩
  have hrun := (settles_watchDevice tiers v [] st hstart).2
  refine ⟨herase, fun st' hfalse => ?_, fun st' htrue => ?_⟩
  · rw [← herase] at hfalse
    have hsettled : Settled st.hidState (ghosts (watchDevice tiers v st).log) st' := hrun false st' hfalse
    refine ⟨hsettled.unchanged, fun hready => ⟨fun hsame => ?_, hsettled.unchanged⟩⟩
    by_contra hunsound
    have hset := hsettled.halfSet hready hunsound
    have hunset : st'.hidReady = st.hidReady := congrArg HidState.ready hsame
    rw [hset, hready] at hunset
    cases hunset
  · rw [← herase] at htrue
    exact hrun true st' htrue

/-- the control fields of a command completion and of a transfer event for slot 1, in the first round of the event ring -/
def cmdEvent : UInt64 := 0x01008401

def transferEvent : UInt64 := 0x01008001

/-- the status field with the code of success -/
def success : UInt64 := 0x01000000

/-- the answers of a controller with a high-speed device in slot 1 that completes everything and has this configuration
descriptor -/
def plugged (config : List UInt64) (n : ℕ) : UInt64 :=
  if n < 10 then
    [0, cmdEvent, success, cmdEvent, success, transferEvent, success, 0, transferEvent, success].getD n 0
  else if n < 4106 then config.getD (n - 10) 0
  else [transferEvent, success, transferEvent, success, 0, 0, 0, 0, 0, 0, 0, 0, cmdEvent, success].getD (n - 4106) 0

/-- configuration, interface, HID and endpoint descriptor of a boot keyboard -/
def bootKeyboard : List UInt64 :=
  [9, 2, 34, 0, 1, 1, 0, 0xA0, 50, 9, 4, 0, 0, 1, 3, 1, 1, 0, 9, 0x21, 0x11, 1, 0, 1, 0x22, 65, 0, 7, 5, 0x81, 3, 8, 0, 10]

theorem hid_state_spec_keyboard : (Setup.root 1 3).path.length + maxHubDepth = maxHubDepth ∧
    ∃ st', (enumerateDevice 1 maxHubDepth 0 3 0 0 (State.boot upperFree (plugged bootKeyboard) 1)).value = some (true, st') ∧
      KeyboardReady (ghosts (watchDevice maxHubDepth (.root 1 3) (State.boot upperFree (plugged bootKeyboard) 1)).log)
        st' := by
  have hrun : ((enumerateDevice 1 maxHubDepth 0 3 0 0 (State.boot upperFree (plugged bootKeyboard) 1)).value.map
      Prod.fst) = some true := by decide +kernel
  obtain ⟨⟨b, st'⟩, hvalue, hb⟩ := Option.map_eq_some_iff.1 hrun
  obtain rfl : b = true := hb
  exact ⟨rfl, st', hvalue, (hid_state_spec maxHubDepth (.root 1 3) rfl _).2.2 st' hvalue⟩

/-- an interface of class 3 without endpoints -/
def bareKeyboard : List UInt64 := [9, 2, 18, 0, 1, 1, 0, 0x80, 50, 9, 4, 0, 0, 0, 3, 1, 1, 0]

/-- the enumeration of such a device answers false, and the keyboard is ready: the timer polls it from then on -/
theorem half_set_keyboard : (State.boot upperFree (plugged bareKeyboard) 1).hidReady = false ∧
    ∃ st', (enumerateDevice 1 maxHubDepth 0 3 0 0 (State.boot upperFree (plugged bareKeyboard) 1)).value =
      some (false, st') ∧ st'.hidReady = true := by
  have hrun : ((enumerateDevice 1 maxHubDepth 0 3 0 0 (State.boot upperFree (plugged bareKeyboard) 1)).value.map
      fun r => (r.1, r.2.hidReady)) = some (false, true) := by decide +kernel
  obtain ⟨⟨b, st'⟩, hvalue, hb⟩ := Option.map_eq_some_iff.1 hrun
  obtain ⟨rfl, hready⟩ := Prod.mk.inj hb
  exact ⟨rfl, st', hvalue, hready⟩

end Tomorrow.Usb.Dma
