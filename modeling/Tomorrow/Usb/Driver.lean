/-
The driver of the USB controller (`xhci.rs`) as a program: `init`, the enumeration of the devices behind root ports and
hubs, and `poll_hid`.

The program logs what it does to memory: the pages it takes from the allocator, each for one structure that it shares with
the controller, every write into such a structure, and the writes to registers. What it reads of the hardware (registers
other than the capability registers, events, descriptors, output contexts) is a stream of arbitrary values. The rings are
those of `Usb.Ring`; `postCommandW_safe` and the lemmas beside it say that what is written here is the change there.
Messages, delays and the characters that `poll_hid` gives to the shell are left out.

`drain_events` and the loop of `poll_hid` go on while there are events, so they have a fuel of their own (`State.fuel`): a
run that exceeds it is cut off and its log is the beginning of the real one.

`init` runs with interrupts on, so that the timer calls `poll_hid` once `HID_READY` is set, also when it was set for a
keyboard whose endpoint index is 0 and the enumeration goes on. These calls (`ticks`) stand where `HID_READY` is set and
before every root port: between the ports of one hub there are none, so that what `enumerate_device` does to the statics is
what it does itself.
-/
import Tomorrow.Core.Logged
import Tomorrow.Memory.Pmm
import Tomorrow.Usb.Descriptor
import Tomorrow.Usb.EventRing

namespace Tomorrow.Usb.Dma

open Tomorrow.Core

/-! ## State and primitives -/

/-- the structures in memory that driver and controller share -/
inductive Area where
  | dcbaa
  | scratchArray
  | scratchBuffer
  | commandRing
  | eventRing
  | erst
  | inputContext
  | outputContext
  | transferRing
  | buffer
deriving DecidableEq

inductive Access where
  /-- `alloc_page` returned this page for the structure -/
  | page (s : Area) (base : UInt64)
  /-- a write of len bytes at base + off, base being the address that the driver has for the structure -/
  | write (s : Area) (base : UInt64) (off len : ℕ) (value : UInt64)
  /-- a write to a register of the controller -/
  | mmio (addr value : UInt64)
deriving DecidableEq

/-- the capability registers -/
structure Caps where
  capLength : UInt32
  hcsParams1 : UInt32
  hcsParams2 : UInt32
  hccParams1 : UInt32
  dbOff : UInt32
  rtsOff : UInt32

/-- the statics of `xhci.rs`, the page allocator and the hardware -/
structure State where
  pmm : Words
  /-- the values read from the hardware, in this order -/
  input : ℕ → UInt64
  reads : ℕ
  /-- how many events one call takes off the ring before the run is cut off -/
  fuel : ℕ
  /-- `CMD_RING`, `CMD_ENQ`, `CMD_PCS` -/
  cmd : Ring
  /-- `EVT_RING`, `EVT_DEQ`, `EVT_CCS` -/
  evt : EventRing
  rtBase : UInt64
  dbBase : UInt64
  dcbaa : UInt64
  opBase : UInt64
  ctxSize : ℕ
  hidSlot : UInt32
  /-- `HID_TR_RING`, `HID_TR_ENQ`, `HID_TR_PCS` -/
  hid : Ring
  hidBuf : UInt64
  hidEpAddr : UInt8
  hidReady : Bool

def noTrb : Trb := ⟨0, 0, 0⟩

/-- the statics before `init` -/
def State.boot (pmm : Words) (input : ℕ → UInt64) (fuel : ℕ) : State where
  pmm := pmm
  input := input
  reads := 0
  fuel := fuel
  cmd := ⟨0, fun _ => noTrb, 0, 1⟩
  evt := ⟨0, fun _ => noTrb, 0, 1, 0⟩
  rtBase := 0
  dbBase := 0
  dcbaa := 0
  opBase := 0
  ctxSize := 32
  hidSlot := 0
  hid := ⟨0, fun _ => noTrb, 0, 1⟩
  hidBuf := 0
  hidEpAddr := 0
  hidReady := false

abbrev Drv (α : Type) := StateT State (Logged Access) α

/-- the next value from the hardware -/
def hardware : Drv UInt64 := fun s => pure (s.input s.reads, { s with reads := s.reads + 1 })

/-- a byte, a word, a doubleword of a buffer, a context or an event -/
def read8 : Drv UInt8 := hardware >>= fun v => pure v.toUInt8

def read16 : Drv UInt16 := hardware >>= fun v => pure v.toUInt16

def read32 : Drv UInt32 := hardware >>= fun v => pure v.toUInt32

/-- a register -/
def r32 (_addr : UInt64) : Drv UInt32 := read32

def w32 (addr : UInt64) (v : UInt32) : Drv Unit := emit (.mmio addr v.toUInt64)

def w64 (addr v : UInt64) : Drv Unit := emit (.mmio addr v)

/-- writes into a structure -/
def put32 (s : Area) (base : UInt64) (off : ℕ) (v : UInt32) : Drv Unit := emit (.write s base off 4 v.toUInt64)

def put64 (s : Area) (base : UInt64) (off : ℕ) (v : UInt64) : Drv Unit := emit (.write s base off 8 v)

/-- a page for a structure, zeroed; without a free page `pmm::alloc` panics -/
def allocPage (s : Area) : Drv UInt64 := fun st =>
  match Pmm.alloc st.pmm with
  | .error _ => .stop
  | .ok r =>
    ⟨[.page s (UInt64.ofNat r.1), .write s (UInt64.ofNat r.1) 0 4096 0], some (UInt64.ofNat r.1, { st with pmm := r.2 })⟩

/-- `while cond(r32(addr)) && t > 0`, with t = n at the start -/
def spin (addr : UInt64) (cond : UInt32 → Bool) : ℕ → Drv Unit
  | 0 => r32 addr >>= fun _ => pure ()
  | n + 1 => r32 addr >>= fun v => if cond v then spin addr cond n else pure ()

/-! ## Event ring -/

def consumeEvent : Drv (Option (UInt32 × UInt32 × UInt32)) := do
  let st ← get
  let control ← read32
  if control &&& 1 ≠ st.evt.ccs then pure none
  else do
    let status ← read32
    let evt := { st.evt.next with erdp := erdpAt st.evt.base st.evt.next.deq }
    modify fun st => { st with evt := evt }
    w64 (st.rtBase + 0x20 + 0x18) evt.erdp
    pure (some (Trb.event ⟨0, status, control⟩))

/-- the loop of `wait_event` with n polls left -/
def waitLoop (expected : UInt32) : ℕ → Drv (UInt32 × UInt32)
  | 0 => pure (0xFF, 0)
  | n + 1 => consumeEvent >>= fun e =>
    match e with
    | some (typ, code, slot) => if typ = expected then pure (code, slot) else waitLoop expected n
    | none => waitLoop expected n

def waitEvent (expected : UInt32) : Drv (UInt32 × UInt32) := waitLoop expected 10000000

def evtTransfer : UInt32 := 32

def evtCmdCompl : UInt32 := 33

def evtPortChange : UInt32 := 34

def drainLoop : ℕ → Drv Unit
  | 0 => lift .stop
  | n + 1 => consumeEvent >>= fun e => if e.isSome then drainLoop n else pure ()

def drainEvents : Drv Unit := get >>= fun st => drainLoop st.fuel

/-! ## Rings -/

/-- the three fields of TRB i -/
def storeTrb (s : Area) (r : Ring) (i : ℕ) (t : Trb) : Logged Access Ring :=
  ⟨[.write s r.base (16 * i) 8 t.param, .write s r.base (16 * i + 8) 4 t.status.toUInt64,
    .write s r.base (16 * i + 12) 4 t.control.toUInt64], some (r.store i t)⟩

/-- the control field of the Link, then back to index 0 -/
def wrapLink (s : Area) (r : Ring) : Logged Access Ring :=
  ⟨[.write s r.base (16 * 31 + 12) 4 (trbLink ||| (1 : UInt32) <<< 1 ||| r.pcs).toUInt64], some r.wrap⟩

def pushTrb (s : Area) (r : Ring) (t : Trb) : Logged Access Ring := storeTrb s r r.enq t >>= fun r => pure (r.advance 1)

def postCommandW (r : Ring) (param : UInt64) (status control : UInt32) : Logged Access Ring :=
  pushTrb .commandRing r ⟨param, status, control ||| r.pcs⟩ >>= fun r =>
    if r.enq = 31 then wrapLink .commandRing r else pure r

/-- `while *tr_enq < 31`, n times -/
def fillW : ℕ → Ring → Logged Access Ring
  | 0, r => pure r
  | n + 1, r => pushTrb .transferRing r (noop r.pcs) >>= fillW n

def trReserveW (r : Ring) (n : ℕ) : Logged Access Ring :=
  if r.enq + n ≤ 31 then pure r else fillW (31 - r.enq) r >>= wrapLink .transferRing

def ctrlInW (r : Ring) (setupParam buf : UInt64) (len : UInt16) : Logged Access Ring := do
  let r ← trReserveW r 3
  let r₁ ← storeTrb .transferRing r r.enq
    ⟨setupParam, 8, trbSetup ||| (1 : UInt32) <<< 6 ||| (3 : UInt32) <<< 16 ||| r.pcs⟩
  let r₂ ← storeTrb .transferRing r₁ (r.enq + 1) ⟨buf, len.toUInt32, trbData ||| (1 : UInt32) <<< 16 ||| r.pcs⟩
  let r₃ ← storeTrb .transferRing r₂ (r.enq + 2) ⟨0, 0, trbStatus ||| (1 : UInt32) <<< 5 ||| r.pcs⟩
  pure (r₃.advance 3)

def ctrlOutNodataW (r : Ring) (setupParam : UInt64) : Logged Access Ring := do
  let r ← trReserveW r 2
  let r₁ ← storeTrb .transferRing r r.enq ⟨setupParam, 8, trbSetup ||| (1 : UInt32) <<< 6 ||| r.pcs⟩
  let r₂ ← storeTrb .transferRing r₁ (r.enq + 1)
    ⟨0, 0, trbStatus ||| (1 : UInt32) <<< 16 ||| (1 : UInt32) <<< 5 ||| r.pcs⟩
  pure (r₂.advance 2)

def queueHidTransferW (r : Ring) (hidBuf : UInt64) : Logged Access Ring :=
  pushTrb .transferRing r ⟨hidBuf, 8, trbNormal ||| (1 : UInt32) <<< 5 ||| r.pcs⟩ >>= fun r =>
    if 31 ≤ r.enq then wrapLink .transferRing r else pure r

/-- a new ring: a zeroed page with the Link -/
def newRing (s : Area) : Drv Ring := do
  let ring ← allocPage s
  put64 s ring (16 * 31) ring
  put32 s ring (16 * 31 + 12) (trbLink ||| (1 : UInt32) <<< 1 ||| 1)
  pure (Ring.new ring)

def postCommand (param : UInt64) (status control : UInt32) : Drv Unit := do
  let st ← get
  let r ← lift (postCommandW st.cmd param status control)
  modify fun st => { st with cmd := r }
  w32 st.dbBase 0

def recoverCmdRing : Drv Unit := do
  let st ← get
  let crcr ← r32 (st.opBase + 0x18)
  w32 (st.opBase + 0x18) (crcr &&& ~~~(0xF : UInt32) ||| (1 : UInt32) <<< 2)
  spin (st.opBase + 0x18) (fun v => v &&& 0x8 ≠ 0) 5000000
  drainEvents
  emit (.write .commandRing st.cmd.base 0 4096 0)
  put64 .commandRing st.cmd.base (16 * 31) st.cmd.base
  put32 .commandRing st.cmd.base (16 * 31 + 8) 0
  put32 .commandRing st.cmd.base (16 * 31 + 12) (trbLink ||| (1 : UInt32) <<< 1 ||| 1)
  modify fun s => { s with cmd := Ring.new st.cmd.base }
  w64 (st.opBase + 0x18) (st.cmd.base ||| 1)

def ctrlIn (slotId : UInt32) (r : Ring) (setupParam buf : UInt64) (len : UInt16) : Drv (UInt32 × Ring) := do
  let st ← get
  let r ← lift (ctrlInW r setupParam buf len)
  w32 (st.dbBase + slotId.toUInt64 * 4) 1
  let e ← waitEvent evtTransfer
  pure (e.1, r)

def ctrlOutNodata (slotId : UInt32) (r : Ring) (setupParam : UInt64) : Drv (UInt32 × Ring) := do
  let st ← get
  let r ← lift (ctrlOutNodataW r setupParam)
  w32 (st.dbBase + slotId.toUInt64 * 4) 1
  let e ← waitEvent evtTransfer
  pure (e.1, r)

def queueHidTransfer (epIdx : ℕ) : Drv Unit := do
  let st ← get
  let r ← lift (queueHidTransferW st.hid st.hidBuf)
  modify fun st => { st with hid := r }
  w32 (st.dbBase + st.hidSlot.toUInt64 * 4) (UInt32.ofNat epIdx)

/-! ## Descriptors -/

/-- the codes of success and of a short packet -/
def isGood (code : UInt32) : Bool := code = 1 || code = 13

/-- the class of the device, 0xFF after an error -/
def getDeviceDescriptor (slotId : UInt32) (r : Ring) : Drv (UInt8 × Ring) := do
  let buf ← allocPage .buffer
  let res ← ctrlIn slotId r 0x0012000001000680 buf 18
  if isGood res.1 then do
    let cls ← read8
    pure (cls, res.2)
  else pure (0xFF, res.2)

/-- the page the device has sent -/
def readPage : Drv Page := fun s =>
  pure (fun i => (s.input (s.reads + i)).toUInt8, { s with reads := s.reads + 4096 })

/-- 513 passes are enough for every page (`parseConfig_spec`) -/
def getConfigDescriptor (slotId : UInt32) (r : Ring) : Drv (Config × Ring) := do
  let buf ← allocPage .buffer
  let res ← ctrlIn slotId r 0x0200000002000680 buf 512
  if isGood res.1 then do
    let page ← readPage
    let c ← lift (.ofOption (parseConfig page 513).value)
    pure (c, res.2)
  else pure (⟨0, 0, 0, 0, 0⟩, res.2)

def setConfiguration (slotId : UInt32) (r : Ring) (configValue : UInt8) : Drv (UInt32 × Ring) :=
  ctrlOutNodata slotId r (configValue.toUInt64 <<< 16 ||| (9 : UInt64) <<< 8)

def setProtocol (slotId : UInt32) (r : Ring) : Drv (UInt32 × Ring) :=
  ctrlOutNodata slotId r ((0x0B : UInt64) <<< 8 ||| 0x21)

/-! ## Endpoints -/

/-- the index of an endpoint: twice its number, one more for IN -/
def epIndex (epAddr : UInt8) : ℕ := (epAddr &&& 0xF).toNat * 2 + (if epAddr &&& 0x80 ≠ 0 then 1 else 0)

/-- `while iv > 1`, at most n times -/
def logLoop : ℕ → ℕ → ℕ → ℕ
  | 0, _, log => log
  | n + 1, iv, log => if 1 < iv then logLoop n (iv / 2) (log + 1) else log

/-- the Interval field of an endpoint context -/
def xhciInterval (speed : UInt32) (interval : UInt8) : ℕ :=
  if speed = 3 ∨ speed = 4 then min (max interval.toNat 1 - 1) 15 else min (logLoop 8 (max interval.toNat 1) 0 + 3) 15

/-! ## `poll_hid` -/

/-- the loop of `poll_hid`: all events, and whether there was one of a transfer -/
def pollLoop : ℕ → Bool → Drv Bool
  | 0, _ => lift .stop
  | n + 1, gotTransfer => consumeEvent >>= fun e =>
    match e with
    | some (typ, _, _) => pollLoop n (gotTransfer || typ = evtTransfer)
    | none => pure gotTransfer

def pollHid : Drv Unit := do
  let st ← get
  whenever (st.hidReady = true) (do
    let gotTransfer ← pollLoop st.fuel false
    whenever (gotTransfer = true) (queueHidTransfer (epIndex st.hidEpAddr)))

/-- interrupts are on: the timer calls `poll_hid` any number of times -/
def ticks : Drv Unit := hardware >>= fun n => forRange (fun _ _ => pollHid) 0 n.toNat ()

/-! ## Contexts -/

/-- the eight doublewords of a slot context, copied from the output context -/
def copySlot (inputCtx : UInt64) (ctxSize : ℕ) : Drv (List UInt32) :=
  forRange (fun i ws => do
    let w ← read32
    put32 .inputContext inputCtx (ctxSize + 4 * i) w
    pure (ws ++ [w])) 0 8 []

/-- the index of the endpoint, 0 after an error -/
def configureHidEndpoint (slotId : UInt32) (epAddr : UInt8) (maxPacket : UInt16) (interval : UInt8) (speed : UInt32) :
    Drv ℕ := do
  let st ← get
  let epIdx := epIndex epAddr
  let inputCtx ← allocPage .inputContext
  put32 .inputContext inputCtx 4 ((1 : UInt32) <<< UInt32.ofNat epIdx ||| 1)
  let slot ← copySlot inputCtx st.ctxSize
  put32 .inputContext inputCtx st.ctxSize
    (slot.headD 0 &&& ~~~((0x1F : UInt32) <<< 27) ||| UInt32.ofNat epIdx <<< 27)
  let trRing ← newRing .transferRing
  let epCtx := st.ctxSize * (epIdx + 1)
  put32 .inputContext inputCtx epCtx (UInt32.ofNat (xhciInterval speed interval) <<< 16)
  put32 .inputContext inputCtx (epCtx + 4) (maxPacket.toUInt32 <<< 16 ||| (7 : UInt32) <<< 3 ||| (3 : UInt32) <<< 1)
  put64 .inputContext inputCtx (epCtx + 8) (trRing.base ||| 1)
  put32 .inputContext inputCtx (epCtx + 16) maxPacket.toUInt32
  postCommand inputCtx 0 (trbConfigureEp ||| slotId <<< 24)
  let e ← waitEvent evtCmdCompl
  if e.1 ≠ 1 then do
    whenever (e.1 = 0xFF) recoverCmdRing
    pure 0
  else do
    let hidBuf ← allocPage .buffer
    modify fun st =>
      { st with hidSlot := slotId, hid := trRing, hidEpAddr := epAddr, hidBuf := hidBuf, hidReady := true }
    -- the timer polls from here on, also when the index is 0 and the caller goes on to the next device
    ticks
    pure epIdx

/-- a device: its slot and the ring of its endpoint 0 -/
structure Dev where
  slotId : UInt32
  ring : Ring

def ep0MaxPacket (speed : UInt32) : UInt32 := if speed = 3 then 64 else if speed = 4 then 512 else 8

def setupDevice (routeString rootPort speed ttHubSlot ttPort : UInt32) : Drv (Option Dev) := do
  drainEvents
  postCommand 0 0 trbEnableSlot
  let enabled ← waitEvent evtCmdCompl
  if enabled.1 ≠ 1 then do
    whenever (enabled.1 = 0xFF) recoverCmdRing
    pure none
  else do
    let slotId := enabled.2
    let st ← get
    let inputCtx ← allocPage .inputContext
    put32 .inputContext inputCtx 4 3
    put32 .inputContext inputCtx st.ctxSize (routeString &&& (0xFFFFF : UInt32) ||| speed <<< 20 ||| (1 : UInt32) <<< 27)
    put32 .inputContext inputCtx (st.ctxSize + 4) (rootPort <<< 16)
    put32 .inputContext inputCtx (st.ctxSize + 8) (ttHubSlot &&& (0xFF : UInt32) ||| (ttPort &&& 0xFF) <<< 8)
    let trRing ← newRing .transferRing
    put32 .inputContext inputCtx (st.ctxSize * 2 + 4)
      (ep0MaxPacket speed <<< 16 ||| (4 : UInt32) <<< 3 ||| (3 : UInt32) <<< 1)
    put64 .inputContext inputCtx (st.ctxSize * 2 + 8) (trRing.base ||| 1)
    let outCtx ← allocPage .outputContext
    put64 .dcbaa st.dcbaa (slotId.toNat * 8) outCtx
    postCommand inputCtx 0 (trbAddressDevice ||| slotId <<< 24)
    let addressed ← waitEvent evtCmdCompl
    if addressed.1 ≠ 1 then do
      whenever (addressed.1 = 0xFF) recoverCmdRing
      pure none
    else pure (some ⟨slotId, trRing⟩)

def evaluateEp0MaxPacket (slotId maxPkt : UInt32) : Drv UInt32 := do
  let st ← get
  let inputCtx ← allocPage .inputContext
  put32 .inputContext inputCtx 4 ((1 : UInt32) <<< 1)
  put32 .inputContext inputCtx (st.ctxSize * 2 + 4) (maxPkt <<< 16)
  postCommand inputCtx 0 (trbEvaluateContext ||| slotId <<< 24)
  let e ← waitEvent evtCmdCompl
  pure e.1

def configureHubSlot (slotId nbrPorts ttt : UInt32) : Drv Bool := do
  let st ← get
  let inputCtx ← allocPage .inputContext
  put32 .inputContext inputCtx 4 1
  let slot ← copySlot inputCtx st.ctxSize
  put32 .inputContext inputCtx st.ctxSize (slot.getD 0 0 ||| (1 : UInt32) <<< 26)
  put32 .inputContext inputCtx (st.ctxSize + 4) (slot.getD 1 0 &&& (0x00FFFFFF : UInt32) ||| nbrPorts <<< 24)
  put32 .inputContext inputCtx (st.ctxSize + 8)
    (slot.getD 2 0 &&& ~~~((0x3 : UInt32) <<< 16) ||| (ttt &&& 0x3) <<< 16)
  postCommand inputCtx 0 (trbConfigureEp ||| slotId <<< 24)
  let e ← waitEvent evtCmdCompl
  if e.1 ≠ 1 then do
    whenever (e.1 = 0xFF) recoverCmdRing
    pure false
  else pure true

/-! ## Hubs -/

def hubSetPortFeature (d : Dev) (feature : UInt16) (port : ℕ) : Drv Dev := do
  let r ← ctrlOutNodata d.slotId d.ring
    (UInt64.ofNat port <<< 32 ||| feature.toUInt64 <<< 16 ||| (0x03 : UInt64) <<< 8 ||| 0x23)
  pure ⟨d.slotId, r.2⟩

def hubClearPortFeature (d : Dev) (feature : UInt16) (port : ℕ) : Drv Dev := do
  let r ← ctrlOutNodata d.slotId d.ring
    (UInt64.ofNat port <<< 32 ||| feature.toUInt64 <<< 16 ||| (0x01 : UInt64) <<< 8 ||| 0x23)
  pure ⟨d.slotId, r.2⟩

def hubGetPortStatus (d : Dev) (buf : UInt64) (port : ℕ) : Drv (UInt32 × Dev) := do
  let r ← ctrlIn d.slotId d.ring ((4 : UInt64) <<< 48 ||| UInt64.ofNat port <<< 32 ||| 0xA3) buf 4
  if isGood r.1 then do
    let st ← read32
    pure (st, ⟨d.slotId, r.2⟩)
  else pure (0, ⟨d.slotId, r.2⟩)

/-- the loop that waits for a port reset, with t = n + 1 at the start -/
def resetLoop (statBuf : UInt64) (port : ℕ) : ℕ → Dev → Drv Dev
  | 0, d => do
    let r ← hubGetPortStatus d statBuf port
    pure r.2
  | n + 1, d => do
    let r ← hubGetPortStatus d statBuf port
    if r.1 &&& (1 : UInt32) <<< 4 = 0 ∧ r.1 &&& (1 : UInt32) <<< 1 ≠ 0 then pure r.2 else resetLoop statBuf port n r.2

/-- the speed of the device at a hub port -/
def childSpeed (st : UInt32) : UInt32 :=
  if st &&& (1 : UInt32) <<< 9 ≠ 0 then 2 else if st &&& (1 : UInt32) <<< 10 ≠ 0 then 3 else 1

/-- the translator of the device at port p: none for high speed, a high-speed hub itself, or that of the hub -/
def childTt (speed hubSpeed slotId parentTtHubSlot parentTtPort : UInt32) (p : ℕ) : UInt32 × UInt32 :=
  if speed = 3 then (0, 0) else if hubSpeed = 3 then (slotId, UInt32.ofNat p) else (parentTtHubSlot, parentTtPort)

/-- one port of a hub; `child` enumerates a device with this route string, speed and translator -/
def hubPort (child : UInt32 → UInt32 → UInt32 → UInt32 → Drv Bool) (statBuf : UInt64) (routeString hubSpeed
    parentTtHubSlot parentTtPort : UInt32) (depth p : ℕ) (d : Dev) : Drv (Bool × Dev) := do
  let d ← hubClearPortFeature d 16 p
  let r ← hubGetPortStatus d statBuf p
  if r.1 &&& 1 = 0 then pure (false, r.2)
  else do
    let d ← hubSetPortFeature r.2 4 p
    let d ← resetLoop statBuf p 19 d
    let d ← hubClearPortFeature d 20 p
    let r ← hubGetPortStatus d statBuf p
    let speed := childSpeed r.1
    let tt := childTt speed hubSpeed d.slotId parentTtHubSlot parentTtPort p
    let found ← child (routeString ||| UInt32.ofNat (min p 15) <<< UInt32.ofNat (4 * depth)) speed tt.1 tt.2
    pure (found, r.2)

def enumerateHub (child : UInt32 → UInt32 → UInt32 → UInt32 → Drv Bool) (d : Dev) (cfg : UInt8)
    (routeString hubSpeed parentTtHubSlot parentTtPort : UInt32) (depth : ℕ) : Drv Bool := do
  let r ← setConfiguration d.slotId d.ring cfg
  if isGood r.1 then do
    let buf ← allocPage .buffer
    let r ← ctrlIn d.slotId r.2 0x00080000290006A0 buf 8
    if isGood r.1 then do
      let nbrPorts ← read8
      let characteristics ← read16
      let ok ← configureHubSlot d.slotId nbrPorts.toUInt32 (characteristics.toUInt32 >>> 5 &&& 0x3)
      if ok then do
        let statBuf ← allocPage .buffer
        let d ← forRange (fun p d => hubSetPortFeature d 8 p) 1 nbrPorts.toNat ⟨d.slotId, r.2⟩
        anyRange (hubPort child statBuf routeString hubSpeed parentTtHubSlot parentTtPort depth) 1 nbrPorts.toNat d
      else pure false
    else pure false
  else pure false

/-- deeper hubs are not entered -/
def maxHubDepth : ℕ := 4

/-- a full-speed device is asked for the packet size of its endpoint 0 -/
def fixEp0 (d : Dev) (speed : UInt32) : Drv Dev :=
  if speed = 1 then do
    let buf ← allocPage .buffer
    let r ← ctrlIn d.slotId d.ring 0x0008000001000680 buf 8
    if isGood r.1 then do
      let mps0 ← read8
      whenever (mps0.toUInt32 ≠ 0 ∧ mps0.toUInt32 ≠ ep0MaxPacket speed)
        (evaluateEp0MaxPacket d.slotId mps0.toUInt32 >>= fun _ => pure ())
      pure ⟨d.slotId, r.2⟩
    else pure ⟨d.slotId, r.2⟩
  else pure d

/-! ## Enumeration -/

def startHid (d : Dev) (c : Config) (speed : UInt32) : Drv Bool := do
  let r ← setConfiguration d.slotId d.ring c.configValue
  if isGood r.1 then do
    let _ ← setProtocol d.slotId r.2
    let epIdx ← configureHidEndpoint d.slotId c.epAddr c.maxPacket c.interval speed
    if epIdx = 0 then pure false
    else do
      queueHidTransfer epIdx
      pure true
  else pure false

/-- `enumerate_device`, with what is done when the device is a hub -/
def enumerateWith (hub : Dev → UInt8 → Drv Bool) (routeString rootPort speed ttHubSlot ttPort : UInt32) : Drv Bool := do
  let dev ← setupDevice routeString rootPort speed ttHubSlot ttPort
  match dev with
  | none => pure false
  | some d => do
    let d ← fixEp0 d speed
    let cls ← getDeviceDescriptor d.slotId d.ring
    let cfg ← getConfigDescriptor d.slotId cls.2
    if cfg.1.ifaceClass = 3 then startHid ⟨d.slotId, cfg.2⟩ cfg.1 speed
    else if cls.1 = 9 ∨ cfg.1.ifaceClass = 9 then hub ⟨d.slotId, cfg.2⟩ cfg.1.configValue
    else pure false

/-- `enumerate_device` and `enumerate_hub` call each other; hubs are entered that many tiers deep -/
def enumerateDevice (rootPort : UInt32) : ℕ → UInt32 → UInt32 → UInt32 → UInt32 → Drv Bool
  | 0, routeString, speed, ttHubSlot, ttPort =>
    enumerateWith (fun _ _ => pure false) routeString rootPort speed ttHubSlot ttPort
  | tiers + 1, routeString, speed, ttHubSlot, ttPort =>
    enumerateWith (fun d cfg => enumerateHub (enumerateDevice rootPort tiers) d cfg routeString speed ttHubSlot ttPort
      (maxHubDepth - (tiers + 1))) routeString rootPort speed ttHubSlot ttPort

/-! ## `init` -/

/-- the number of scratchpad buffers the controller asks for -/
def maxScratch (cap : Caps) : ℕ :=
  ((cap.hcsParams2 >>> 21 &&& 0x1F) <<< 5 ||| (cap.hcsParams2 >>> 27 &&& 0x1F)).toNat

def maxPorts (cap : Caps) : ℕ := (cap.hcsParams1 >>> 24 &&& 0xFF).toNat

/-- where the registers are, and the size of a context -/
def setBases (bar0 : UInt64) (cap : Caps) (st : State) : State :=
  { st with ctxSize := if cap.hccParams1 >>> 2 &&& 1 = 1 then 64 else 32
            rtBase := bar0 + cap.rtsOff.toUInt64
            dbBase := bar0 + cap.dbOff.toUInt64
            opBase := bar0 + (cap.capLength &&& 0xFF).toUInt64 }

/-- halt and reset of the controller, and the number of slots -/
def resetController (opBase : UInt64) (cap : Caps) : Drv Unit := do
  let sts ← r32 (opBase + 4)
  whenever (sts &&& 1 = 0) (do
    let cmd ← r32 opBase
    w32 opBase (cmd &&& ~~~(1 : UInt32))
    spin (opBase + 4) (fun v => v &&& 1 = 0) 1000000)
  let cmd ← r32 opBase
  w32 opBase (cmd ||| (1 : UInt32) <<< 1)
  spin opBase (fun v => v &&& (1 : UInt32) <<< 1 ≠ 0) 5000000
  spin (opBase + 4) (fun v => v &&& (1 : UInt32) <<< 11 ≠ 0) 5000000
  let config ← r32 (opBase + 0x38)
  w32 (opBase + 0x38) (config &&& ~~~(0xFF : UInt32) ||| cap.hcsParams1 &&& 0xFF)

/-- one scratchpad buffer and its place in the array -/
def scratchStep (scratchArr : UInt64) (i : ℕ) (_ : Unit) : Drv Unit := do
  let buf ← allocPage .scratchBuffer
  put64 .scratchArray scratchArr (i * 8) buf

/-- the device context array and the scratchpad buffers -/
def initDcbaa (cap : Caps) : Drv Unit := do
  let dcbaa ← allocPage .dcbaa
  modify fun st => { st with dcbaa := dcbaa }
  whenever (0 < maxScratch cap) (do
    let scratchArr ← allocPage .scratchArray
    forRange (scratchStep scratchArr) 0 (maxScratch cap) ()
    put64 .dcbaa dcbaa 0 scratchArr)

/-- the rings and the start of the controller -/
def initRings : Drv Unit := do
  let st ← get
  w64 (st.opBase + 0x30) st.dcbaa
  let cmdRing ← allocPage .commandRing
  put64 .commandRing cmdRing (16 * 31) cmdRing
  put32 .commandRing cmdRing (16 * 31 + 8) 0
  put32 .commandRing cmdRing (16 * 31 + 12) (trbLink ||| (1 : UInt32) <<< 1 ||| 1)
  modify fun st => { st with cmd := Ring.new cmdRing }
  w64 (st.opBase + 0x18) (cmdRing ||| 1)
  let evtRing ← allocPage .eventRing
  modify fun st => { st with evt := EventRing.new evtRing }
  let erst ← allocPage .erst
  put64 .erst erst 0 evtRing
  put64 .erst erst 8 (UInt64.ofNat evtRingSize)
  w32 (st.rtBase + 0x20 + 0x08) 1
  w64 (st.rtBase + 0x20 + 0x10) erst
  w64 (st.rtBase + 0x20 + 0x18) (evtRing ||| (1 : UInt64) <<< 3)
  let cmd ← r32 st.opBase
  w32 st.opBase (cmd ||| 1)
  spin (st.opBase + 4) (fun v => v &&& 1 ≠ 0) 1000000

def portsc (opBase : UInt64) (port : ℕ) : UInt64 := opBase + 0x400 + UInt64.ofNat port * 0x10

/-- at most n events about ports -/
def skipPortEvents : ℕ → Drv Unit
  | 0 => pure ()
  | n + 1 => consumeEvent >>= fun e =>
    match e with
    | some (typ, _, _) => if typ ≠ evtPortChange then pure () else skipPortEvents n
    | none => pure ()

/-- one root port: reset it and enumerate the device; a device at an earlier port may have set `HID_READY` -/
def rootPort (opBase : UInt64) (port : ℕ) (_ : Unit) : Drv (Bool × Unit) := do
  ticks
  let sc ← r32 (portsc opBase port)
  if sc &&& 1 = 0 then pure (false, ())
  else do
    let sc ← r32 (portsc opBase port)
    w32 (portsc opBase port) (sc &&& ~~~(0x00FFF1FE : UInt32) ||| (1 : UInt32) <<< 4)
    spin (portsc opBase port) (fun v => v &&& (1 : UInt32) <<< 4 ≠ 0) 2000000
    let sc ← r32 (portsc opBase port)
    if sc &&& 2 = 0 then pure (false, ())
    else do
      let sc ← r32 (portsc opBase port)
      w32 (portsc opBase port) (sc &&& ~~~(0x00FFF1FE : UInt32) ||| 0x00FE0000)
      let sc ← r32 (portsc opBase port)
      let found ← enumerateDevice (UInt32.ofNat (port + 1)) maxHubDepth 0 (sc >>> 10 &&& 0xF) 0 0
      pure (found, ())

/-- power for the ports, then one after another until a keyboard is found -/
def initPorts (cap : Caps) : Drv Unit := do
  let st ← get
  forRange (fun port _ => do
    let sc ← r32 (portsc st.opBase port)
    w32 (portsc st.opBase port) (sc ||| (1 : UInt32) <<< 9)) 0 (maxPorts cap) ()
  skipPortEvents 64
  let _ ← anyRange (rootPort st.opBase) 0 (maxPorts cap) ()
  pure ()

def init (bar0 : UInt64) (cap : Caps) : Drv Unit := do
  modify (setBases bar0 cap)
  resetController (bar0 + (cap.capLength &&& 0xFF).toUInt64) cap
  initDcbaa cap
  initRings
  initPorts cap

/-- the driver from boot on: `init`, then any number of calls of `poll_hid` -/
def session (bar0 : UInt64) (cap : Caps) (polls : ℕ) : Drv Unit :=
  init bar0 cap >>= forRange (fun _ _ => pollHid) 0 polls

end Tomorrow.Usb.Dma
