/-
The enumeration of the devices below a root port (`enumerate_device`, `enumerate_hub`), watched.

`watchDevice` is the enumeration of `Usb/Driver` with ghost events: every call of `setup_device` together with the hubs and
ports on the way to the device, and every completion of Configure Endpoint for a keyboard together with the page its
configuration descriptor was read from. Its functions are put together from parts of the driver that are not watched.

- `erase_watchDevice`: without the ghost events it is the enumeration of the driver;
- `calm_watchDevice`: it returns, or runs out of pages, or is cut off in a loop over events.
-/
import Tomorrow.Usb.Frame

namespace Tomorrow.Usb.Dma

open Tomorrow.Core

/-! ## The parts of the enumeration -/

/-- the page with the configuration descriptor; after an error it is as `alloc_page` has left it -/
def configPage (slotId : UInt32) (r : Ring) : Drv (Page × Ring) := do
  let buf ← allocPage .buffer
  let res ← ctrlIn slotId r 0x0200000002000680 buf 512
  if isGood res.1 then do
    let page ← readPage
    pure (page, res.2)
  else pure (fun _ => 0, res.2)

/-- what the loop of `get_config_descriptor` finds in a page -/
def configOf (page : Page) : Config := (parseConfig page 513).value.getD ⟨0, 0, 0, 0, 0⟩

/-- `enumerate_device` up to the configuration descriptor: the device, its class and the page -/
def identify (routeString rootPort speed ttHubSlot ttPort : UInt32) : Drv (Option (Dev × UInt8 × Page)) := do
  let dev ← setupDevice routeString rootPort speed ttHubSlot ttPort
  match dev with
  | none => pure none
  | some d => do
    let d ← fixEp0 d speed
    let cls ← getDeviceDescriptor d.slotId d.ring
    let cfg ← configPage d.slotId cls.2
    pure (some (⟨d.slotId, cfg.2⟩, cls.1, cfg.1))

/-- `configure_hid_endpoint` up to the completion of its command: the code, and the ring of the endpoint -/
def endpointCommand (slotId : UInt32) (epAddr : UInt8) (maxPacket : UInt16) (interval : UInt8) (speed : UInt32) :
    Drv (UInt32 × Ring) := do
  let st ← get
  let epIdx := epIndex epAddr
  let inputCtx ← allocPage .inputContext
  put32 .inputContext inputCtx 4 ((1 : UInt32) <<< UInt32.ofNat epIdx ||| 1)
  let slot ← copySlot inputCtx st.ctxSize
  put32 .inputContext inputCtx st.ctxSize
    (slot.headD 0 &&& ~~~((0x1F : UInt32) <<< 27) ||| UInt32.ofNat epIdx <<< 27)
  let trRing ← newRing .transferRing
  let epCtx := st.ctxSize * (epIdx + 1)
  put32 .inputContext inputCtx epCtx (UInt32.ofNat (xhciInterval speed interval) <<< 16)
  put32 .inputContext inputCtx (epCtx + 4) (maxPacket.toUInt32 <<< 16 ||| (7 : UInt32) <<< 3 ||| (3 : UInt32) <<< 1)
  put64 .inputContext inputCtx (epCtx + 8) (trRing.base ||| 1)
  put32 .inputContext inputCtx (epCtx + 16) maxPacket.toUInt32
  postCommand inputCtx 0 (trbConfigureEp ||| slotId <<< 24)
  let e ← waitEvent evtCmdCompl
  pure (e.1, trRing)

/-- `configure_hid_endpoint` from there on -/
def finishEndpoint (slotId : UInt32) (epAddr : UInt8) (cmd : UInt32 × Ring) : Drv ℕ :=
  if cmd.1 ≠ 1 then do
    whenever (cmd.1 = 0xFF) recoverCmdRing
    pure 0
  else do
    let hidBuf ← allocPage .buffer
    modify fun st =>
      { st with hidSlot := slotId, hid := cmd.2, hidEpAddr := epAddr, hidBuf := hidBuf, hidReady := true }
    ticks
    pure (epIndex epAddr)

/-- a keyboard up to the completion of Configure Endpoint, which is not sent when `set_configuration` fails -/
def hidCommand (d : Dev) (c : Config) (speed : UInt32) : Drv (Option (UInt32 × Ring)) := do
  let r ← setConfiguration d.slotId d.ring c.configValue
  if isGood r.1 then do
    let _ ← setProtocol d.slotId r.2
    let cmd ← endpointCommand d.slotId c.epAddr c.maxPacket c.interval speed
    pure (some cmd)
  else pure none

/-- a keyboard from there on -/
def finishHid (d : Dev) (c : Config) (cmd : UInt32 × Ring) : Drv Bool := do
  let epIdx ← finishEndpoint d.slotId c.epAddr cmd
  if epIdx = 0 then pure false
  else do
    queueHidTransfer epIdx
    pure true

/-- `enumerate_hub` up to the loop over the ports: the buffer, the number of ports and the hub -/
def openHub (d : Dev) (cfg : UInt8) : Drv (Option (UInt64 × ℕ × Dev)) := do
  let r ← setConfiguration d.slotId d.ring cfg
  if isGood r.1 then do
    let buf ← allocPage .buffer
    let r ← ctrlIn d.slotId r.2 0x00080000290006A0 buf 8
    if isGood r.1 then do
      let nbrPorts ← read8
      let characteristics ← read16
      let ok ← configureHubSlot d.slotId nbrPorts.toUInt32 (characteristics.toUInt32 >>> 5 &&& 0x3)
      if ok then do
        let statBuf ← allocPage .buffer
        let d ← forRange (fun p d => hubSetPortFeature d 8 p) 1 nbrPorts.toNat ⟨d.slotId, r.2⟩
        pure (some (statBuf, nbrPorts.toNat, d))
      else pure none
    else pure none
  else pure none

/-- a port of a hub up to the speed of the device there -/
def openPort (statBuf : UInt64) (p : ℕ) (d : Dev) : Drv (Option (UInt32 × UInt32) × Dev) := do
  let d ← hubClearPortFeature d 16 p
  let r ← hubGetPortStatus d statBuf p
  if r.1 &&& 1 = 0 then pure (none, r.2)
  else do
    let d ← hubSetPortFeature r.2 4 p
    let d ← resetLoop statBuf p 19 d
    let d ← hubClearPortFeature d 20 p
    let r ← hubGetPortStatus d statBuf p
    pure (some (childSpeed r.1, d.slotId), r.2)

/-! ## The enumeration, watched -/

/-- a hub on the way to a device, and the port of it that is taken -/
structure Hop where
  slotId : UInt32
  speed : UInt32
  port : ℕ

/-- a call of `setup_device` for the device at the end of a path -/
structure Setup where
  path : List Hop
  routeString : UInt32
  rootPort : UInt32
  speed : UInt32
  ttHubSlot : UInt32
  ttPort : UInt32

/-- the device at a root port -/
def Setup.root (rootPort speed : UInt32) : Setup := ⟨[], 0, rootPort, speed, 0, 0⟩

inductive Note where
  | setup (v : Setup)
  /-- Configure Endpoint for the keyboard with this configuration descriptor was completed with this code -/
  | endpoint (page : Page) (code : UInt32)

abbrev Watched (α : Type) := StateT State (Logged (Access ⊕ Note)) α

def watchHid (page : Page) (d : Dev) (c : Config) (speed : UInt32) : Watched Bool := do
  let cmd ← act (hidCommand d c speed)
  match cmd with
  | none => pure false
  | some cmd => do
    observe (.endpoint page cmd.1)
    act (finishHid d c cmd)

def watchWith (hub : Dev → UInt8 → Watched Bool) (v : Setup) : Watched Bool := do
  observe (.setup v)
  let dev ← act (identify v.routeString v.rootPort v.speed v.ttHubSlot v.ttPort)
  match dev with
  | none => pure false
  | some (d, cls, page) =>
    if (configOf page).ifaceClass = 3 then watchHid page d (configOf page) v.speed
    else if cls = 9 ∨ (configOf page).ifaceClass = 9 then hub d (configOf page).configValue
    else pure false

/-- the device at port p of the hub that was set up as v in slot slotId; dev.slot_id, of which the translator is taken, is
the slot that the loop over the ports has -/
def Setup.child (v : Setup) (slotId : UInt32) (p : ℕ) (speed slot : UInt32) : Setup where
  path := v.path ++ [⟨slotId, v.speed, p⟩]
  routeString := v.routeString ||| UInt32.ofNat (min p 15) <<< UInt32.ofNat (4 * v.path.length)
  rootPort := v.rootPort
  speed := speed
  ttHubSlot := (childTt speed v.speed slot v.ttHubSlot v.ttPort p).1
  ttPort := (childTt speed v.speed slot v.ttHubSlot v.ttPort p).2

def watchPort (child : Setup → Watched Bool) (v : Setup) (slotId : UInt32) (statBuf : UInt64) (p : ℕ) (d : Dev) :
    Watched (Bool × Dev) := do
  let dev ← act (openPort statBuf p d)
  match dev.1 with
  | none => pure (false, dev.2)
  | some (speed, slot) => do
    let found ← child (v.child slotId p speed slot)
    pure (found, dev.2)

def watchHub (child : Setup → Watched Bool) (v : Setup) (d : Dev) (cfg : UInt8) : Watched Bool := do
  let hub ← act (openHub d cfg)
  match hub with
  | none => pure false
  | some (statBuf, nbrPorts, d') => anyRange (watchPort child v d.slotId statBuf) 1 nbrPorts d'

def watchDevice : ℕ → Setup → Watched Bool
  | 0, v => watchWith (fun _ _ => pure false) v
  | tiers + 1, v => watchWith (watchHub (watchDevice tiers) v) v

/-! ## Erasure -/

theorem configOf_spec (page : Page) :
    (parseConfig page 513).value = some (configOf page) ∧ page.Describes (configOf page) := by
  obtain ⟨c, hd, hsafe⟩ := parseConfig_spec page
  have hv := (hsafe 513 (le_refl 513)).value
  rw [configOf, hv]
  exact ⟨rfl, hd⟩

theorem configOf_zero : configOf (fun _ => 0) = ⟨0, 0, 0, 0, 0⟩ := rfl

theorem getConfigDescriptor_eq (slotId : UInt32) (r : Ring) :
    getConfigDescriptor slotId r = configPage slotId r >>= fun q => pure (configOf q.1, q.2) := by
  rw [getConfigDescriptor, configPage, bind_assoc]
  refine bind_congr fun buf => ?_
  rw [bind_assoc]
  refine bind_congr fun res => ?_
  split_ifs with hgood
  · rw [bind_assoc]
    refine bind_congr fun page => ?_
    rw [(configOf_spec page).1, pure_bind]
    rfl
  · rw [pure_bind, configOf_zero]

theorem configureHidEndpoint_eq (slotId : UInt32) (epAddr : UInt8) (maxPacket : UInt16) (interval : UInt8) (speed : UInt32) :
    configureHidEndpoint slotId epAddr maxPacket interval speed =
      endpointCommand slotId epAddr maxPacket interval speed >>= finishEndpoint slotId epAddr := by
  simp [configureHidEndpoint, endpointCommand, finishEndpoint, bind_assoc]

theorem erase_watchHid (page : Page) (d : Dev) (c : Config) (speed : UInt32) :
    erase (watchHid page d c speed) = startHid d c speed := by
  rw [watchHid, erase_bind, erase_act, hidCommand, startHid, bind_assoc]
  refine bind_congr fun r => ?_
  split_ifs with hgood
  · simp [configureHidEndpoint_eq, finishHid, bind_assoc]
  · rfl

theorem erase_watchWith (hub : Dev → UInt8 → Watched Bool) (v : Setup) :
    erase (watchWith hub v) =
      enumerateWith (fun d cfg => erase (hub d cfg)) v.routeString v.rootPort v.speed v.ttHubSlot v.ttPort := by
  rw [watchWith, erase_bind, erase_observe, pure_bind, erase_bind, erase_act, identify, enumerateWith, bind_assoc]
  refine bind_congr fun dev => ?_
  cases dev with
  | none => rfl
  | some d =>
    simp [getConfigDescriptor_eq, erase_watchHid, bind_assoc]

section

variable {child : Setup → Watched Bool} {run : UInt32 → UInt32 → UInt32 → UInt32 → Drv Bool} {v : Setup}

/-- what the watched child does beside its ghost events depends on its arguments only -/
theorem erase_watchPort (hchild : ∀ w : Setup, w.rootPort = v.rootPort → w.path.length = v.path.length + 1 →
      erase (child w) = run w.routeString w.speed w.ttHubSlot w.ttPort) (slotId : UInt32) (statBuf : UInt64) (p : ℕ)
    (d : Dev) :
    erase (watchPort child v slotId statBuf p d) =
      hubPort run statBuf v.routeString v.speed v.ttHubSlot v.ttPort v.path.length p d := by
  rw [watchPort, erase_bind, erase_act, openPort, hubPort, bind_assoc]
  refine bind_congr fun d => ?_
  rw [bind_assoc]
  refine bind_congr fun r => ?_
  split_ifs with hconnected
  · rfl
  · simp only [bind_assoc, pure_bind]
    refine bind_congr fun d => bind_congr fun d => bind_congr fun d => bind_congr fun r => ?_
    rw [erase_bind, hchild (v.child slotId p (childSpeed r.1) d.slotId) rfl (by simp [Setup.child])]
    rfl

theorem erase_watchHub (hchild : ∀ w : Setup, w.rootPort = v.rootPort → w.path.length = v.path.length + 1 →
      erase (child w) = run w.routeString w.speed w.ttHubSlot w.ttPort) (d : Dev) (cfg : UInt8) :
    erase (watchHub child v d cfg) =
      enumerateHub run d cfg v.routeString v.speed v.ttHubSlot v.ttPort v.path.length := by
  rw [watchHub, erase_bind, erase_act, openHub, enumerateHub, bind_assoc]
  refine bind_congr fun r => ?_
  split_ifs with hset
  · rw [bind_assoc]
    refine bind_congr fun buf => ?_
    rw [bind_assoc]
    refine bind_congr fun r => ?_
    split_ifs with hdesc
    · simp only [bind_assoc]
      refine bind_congr fun nbrPorts => bind_congr fun characteristics => bind_congr fun ok => ?_
      split_ifs with hok
      · simp [bind_assoc, erase_watchPort hchild]
      · rfl
    · rfl
  · rfl

end

/-- **Erasure.** Without the ghost events the watched enumeration is that of the driver. -/
theorem erase_watchDevice (tiers : ℕ) (v : Setup) (hv : v.path.length + tiers = maxHubDepth) :
    erase (watchDevice tiers v) =
      enumerateDevice v.rootPort tiers v.routeString v.speed v.ttHubSlot v.ttPort := by
  induction tiers generalizing v with
  | zero => exact erase_watchWith _ v
  | succ tiers ih =>
    have hdepth : maxHubDepth - (tiers + 1) = v.path.length := by omega
    rw [watchDevice, erase_watchWith, enumerateDevice, hdepth]
    congr
    funext d cfg
    apply erase_watchHub
    intro w hroot hlen
    rw [ih w (by omega), hroot]

/-! ## The end of the enumeration -/

section

variable {κ : Type} {view : HidState → κ}

theorem calm_configPage (slotId : UInt32) (r : Ring) : Calm view (configPage slotId r) := by
  refine calm_bind (calm_allocPage _) fun buf => calm_bind (calm_ctrlIn _ _ _ _ _) fun res => ?_
  exact calm_ite (calm_bind calm_readPage fun _ => calm_pure _) (calm_pure _)

theorem calm_identify (routeString rootPort speed ttHubSlot ttPort : UInt32) :
    Calm view (identify routeString rootPort speed ttHubSlot ttPort) := by
  refine calm_bind (calm_setupDevice _ _ _ _ _) fun dev => ?_
  cases dev with
  | none => exact calm_pure none
  | some d =>
    refine calm_bind (calm_fixEp0 d speed) fun d => calm_bind (calm_getDeviceDescriptor _ _) fun cls => ?_
    exact calm_bind (calm_configPage _ _) fun _ => calm_pure _

theorem calm_endpointCommand (slotId : UInt32) (epAddr : UInt8) (maxPacket : UInt16) (interval : UInt8) (speed : UInt32) :
    Calm view (endpointCommand slotId epAddr maxPacket interval speed) := by
  refine calm_get fun st => calm_bind (calm_allocPage _) fun inputCtx => calm_bind (calm_put32 _ _ _ _) fun _ => ?_
  refine calm_bind (calm_copySlot _ _) fun slot => calm_bind (calm_put32 _ _ _ _) fun _ => ?_
  refine calm_bind (calm_newRing _) fun trRing => calm_bind (calm_put32 _ _ _ _) fun _ => ?_
  refine calm_bind (calm_put32 _ _ _ _) fun _ => calm_bind (calm_put64 _ _ _ _) fun _ => ?_
  refine calm_bind (calm_put32 _ _ _ _) fun _ => calm_bind (calm_postCommand _ _ _) fun _ => ?_
  exact calm_bind (calm_waitEvent _) fun _ => calm_pure _

theorem calm_hidCommand (d : Dev) (c : Config) (speed : UInt32) : Calm view (hidCommand d c speed) := by
  refine calm_bind (calm_setConfiguration _ _ _) fun r => calm_ite ?_ (calm_pure none)
  refine calm_bind (calm_setProtocol _ _) fun _ => calm_bind (calm_endpointCommand _ _ _ _ _) fun _ => calm_pure _

/-- a command that was not completed leaves the statics of the keyboard alone -/
theorem calm_finishEndpoint_of_ne (slotId : UInt32) (epAddr : UInt8) {cmd : UInt32 × Ring} (hcode : cmd.1 ≠ 1) :
    Calm view (finishEndpoint slotId epAddr cmd) := by
  rw [finishEndpoint, if_pos hcode]
  exact calm_bind (calm_whenever calm_recoverCmdRing) fun _ => calm_pure 0

theorem calm_finishEndpoint (slotId : UInt32) (epAddr : UInt8) (cmd : UInt32 × Ring) :
    Calm (fun _ => ()) (finishEndpoint slotId epAddr cmd) := by
  by_cases hcode : cmd.1 = 1
  · rw [finishEndpoint, if_neg (not_not.2 hcode)]
    refine calm_bind (calm_allocPage _) fun hidBuf => calm_bind (calm_modify fun st => ?_) fun _ => ?_
    · exact Moves.same rfl rfl rfl rfl rfl rfl
    · exact calm_bind calm_ticks.weaken fun _ => calm_pure _
  · exact calm_finishEndpoint_of_ne slotId epAddr hcode

theorem calm_openHub (d : Dev) (cfg : UInt8) : Calm view (openHub d cfg) := by
  refine calm_bind (calm_setConfiguration _ _ _) fun r => calm_ite ?_ (calm_pure none)
  refine calm_bind (calm_allocPage _) fun buf => calm_bind (calm_ctrlIn _ _ _ _ _) fun r => calm_ite ?_ (calm_pure none)
  refine calm_bind calm_read8 fun nbrPorts => calm_bind calm_read16 fun characteristics => ?_
  refine calm_bind (calm_configureHubSlot _ _ _) fun ok => calm_ite ?_ (calm_pure none)
  refine calm_bind (calm_allocPage _) fun statBuf => calm_bind ?_ fun _ => calm_pure _
  exact calm_forRange (fun p d => calm_hubSetPortFeature d 8 p) _ _ _

theorem calm_openPort (statBuf : UInt64) (p : ℕ) (d : Dev) : Calm view (openPort statBuf p d) := by
  refine calm_bind (calm_hubClearPortFeature _ _ _) fun d => calm_bind (calm_hubGetPortStatus _ _ _) fun r => ?_
  refine calm_ite (calm_pure _) (calm_bind (calm_hubSetPortFeature _ _ _) fun d => ?_)
  refine calm_bind (calm_resetLoop _ _ _ _) fun d => calm_bind (calm_hubClearPortFeature _ _ _) fun d => ?_
  exact calm_bind (calm_hubGetPortStatus _ _ _) fun _ => calm_pure _

end

theorem calm_finishHid (d : Dev) (c : Config) (cmd : UInt32 × Ring) : Calm (fun _ => ()) (finishHid d c cmd) := by
  refine calm_bind (calm_finishEndpoint _ _ cmd) fun epIdx => calm_ite (calm_pure false) ?_
  exact calm_bind (calm_queueHidTransfer _).weaken fun _ => calm_pure true

theorem calm_watchHid (page : Page) (d : Dev) (c : Config) (speed : UInt32) :
    Calm (fun _ => ()) (erase (watchHid page d c speed)) := by
  rw [watchHid, erase_bind, erase_act]
  refine calm_bind (calm_hidCommand d c speed) fun cmd => ?_
  cases cmd with
  | none => exact calm_pure false
  | some cmd => simpa using calm_finishHid d c cmd

theorem calm_watchWith {hub : Dev → UInt8 → Watched Bool} (hhub : ∀ d cfg, Calm (fun _ => ()) (erase (hub d cfg)))
    (v : Setup) : Calm (fun _ => ()) (erase (watchWith hub v)) := by
  rw [watchWith, erase_bind, erase_observe, pure_bind, erase_bind, erase_act]
  refine calm_bind (calm_identify _ _ _ _ _) fun dev => ?_
  cases dev with
  | none => exact calm_pure false
  | some dev =>
    simp only [erase_ite]
    exact calm_ite (calm_watchHid _ _ _ _) (calm_ite (hhub _ _) (calm_pure false))

theorem calm_watchHub {child : Setup → Watched Bool} (hchild : ∀ w, Calm (fun _ => ()) (erase (child w))) (v : Setup)
    (d : Dev) (cfg : UInt8) : Calm (fun _ => ()) (erase (watchHub child v d cfg)) := by
  rw [watchHub, erase_bind, erase_act]
  refine calm_bind (calm_openHub d cfg) fun hub => ?_
  cases hub with
  | none => exact calm_pure false
  | some hub =>
    simp only [erase_anyRange]
    refine does_anyRange composes_moves (fun p d' => ?_) _ _ _
    rw [watchPort, erase_bind, erase_act]
    refine calm_bind (calm_openPort _ _ _) fun dev => ?_
    obtain ⟨o, d''⟩ := dev
    cases o with
    | none => exact calm_pure _
    | some o =>
      simp only [erase_bind, erase_pure]
      exact calm_bind (hchild _) fun _ => calm_pure _

theorem calm_watchDevice (tiers : ℕ) (v : Setup) : Calm (fun _ => ()) (erase (watchDevice tiers v)) := by
  induction tiers generalizing v with
  | zero => exact calm_watchWith (fun _ _ => calm_pure false) v
  | succ tiers ih => exact calm_watchWith (calm_watchHub ih v) v

end Tomorrow.Usb.Dma
