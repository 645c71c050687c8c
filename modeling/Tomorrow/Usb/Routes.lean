/-
Route strings and transaction translators (`enumerate_device`, `enumerate_hub`, `setup_device` of `xhci.rs`).

A device is reached through a chain of hubs. `Setup.Routed` says what its route string and its translator are, in terms of
the chain: nibble i of the route string is the port taken at hub i, 15 at most, and the translator is the nearest high-speed
hub. It holds at a root port and is handed on from a hub to the device at each of its ports (`child_routed`), so it holds of
every device that is set up, to whatever depth and whatever the devices answer. `setup_device` writes them into doublewords
0 to 2 of the slot context before it gives the context to the controller (`setupDevice_given`), and the 20 bits of the
route string there are all of it (`Setup.Routed.route_fits`).

Result: `route_and_translator`.
-/
import Tomorrow.Usb.Enumeration

namespace Tomorrow.Usb.Dma

open Tomorrow.Core

/-! ## Hubs keep their slot -/

section

variable {slotId : UInt32} {d : Dev}

theorem hubSetPortFeature_slot (hd : d.slotId = slotId) (feature : UInt16) (p : ℕ) :
    Yields (fun d' => d'.slotId = slotId) (hubSetPortFeature d feature p) :=
  yields_bind (yields_true _) fun _ _ => yields_pure hd

theorem hubClearPortFeature_slot (hd : d.slotId = slotId) (feature : UInt16) (p : ℕ) :
    Yields (fun d' => d'.slotId = slotId) (hubClearPortFeature d feature p) :=
  yields_bind (yields_true _) fun _ _ => yields_pure hd

theorem hubGetPortStatus_slot (hd : d.slotId = slotId) (buf : UInt64) (p : ℕ) :
    Yields (fun r => r.2.slotId = slotId) (hubGetPortStatus d buf p) :=
  yields_bind (yields_true _) fun _ _ =>
    yields_ite (yields_bind (yields_true _) fun _ _ => yields_pure hd) (yields_pure hd)

theorem resetLoop_slot (hd : d.slotId = slotId) (statBuf : UInt64) (p n : ℕ) :
    Yields (fun d' => d'.slotId = slotId) (resetLoop statBuf p n d) := by
  induction n generalizing d with
  | zero => exact yields_bind (hubGetPortStatus_slot hd statBuf p) fun r hr => yields_pure hr
  | succ n ih => exact yields_bind (hubGetPortStatus_slot hd statBuf p) fun r hr => yields_ite (yields_pure hr) (ih hr)

/-- at most 255 ports, and the slot it was given -/
theorem openHub_yields (hd : d.slotId = slotId) (cfg : UInt8) :
    Yields (fun hub => ∀ b ∈ hub, b.2.1 ≤ 255 ∧ b.2.2.slotId = slotId) (openHub d cfg) := by
  have hnone : Yields (fun hub => ∀ b ∈ hub, b.2.1 ≤ 255 ∧ b.2.2.slotId = slotId)
      (pure none : Drv (Option (UInt64 × ℕ × Dev))) := yields_pure (by simp)
  refine yields_bind (yields_true _) fun r _ => yields_ite (yields_bind (yields_true _) fun buf _ => ?_) hnone
  refine yields_bind (yields_true _) fun r _ => yields_ite (yields_bind (yields_true _) fun nbrPorts _ => ?_) hnone
  refine yields_bind (yields_true _) fun characteristics _ => yields_bind (yields_true _) fun ok _ => yields_ite ?_ hnone
  refine yields_bind (yields_true _) fun statBuf _ => yields_bind (F := fun d' => d'.slotId = slotId) ?_ fun d' hd' => ?_
  · exact yields_forRange (fun p d' hd' => hubSetPortFeature_slot hd' 8 p) hd
  · have hports := nbrPorts.toNat_lt
    refine yields_pure fun b hb => ?_
    obtain rfl := Option.some.inj hb
    exact ⟨Nat.le_of_lt_succ hports, hd'⟩

/-- the slot of the hub is the one that the translator is made of -/
theorem openPort_yields (hd : d.slotId = slotId) (statBuf : UInt64) (p : ℕ) :
    Yields (fun r => r.2.slotId = slotId ∧ ∀ o ∈ r.1, o.2 = slotId) (openPort statBuf p d) := by
  refine yields_bind (hubClearPortFeature_slot hd 16 p) fun d₁ hd₁ => ?_
  refine yields_bind (hubGetPortStatus_slot hd₁ statBuf p) fun r hr => yields_ite (yields_pure ⟨hr, by simp⟩) ?_
  refine yields_bind (hubSetPortFeature_slot hr 4 p) fun d₂ hd₂ => ?_
  refine yields_bind (resetLoop_slot hd₂ statBuf p 19) fun d₃ hd₃ => ?_
  refine yields_bind (hubClearPortFeature_slot hd₃ 20 p) fun d₄ hd₄ => ?_
  exact yields_bind (hubGetPortStatus_slot hd₄ statBuf p) fun r' hr' => yields_pure ⟨hr', by simp [hd₄]⟩

end

/-! ## How many devices -/

def Note.setup? : Note → Option Setup
  | .setup v => some v
  | .endpoint _ _ => none

def Note.isSetup (g : Note) : Bool := g.setup?.isSome

/-- the devices of a full tree, 255 to a hub -/
def fullTree : ℕ → ℕ
  | 0 => 1
  | tiers + 1 => 1 + 255 * fullTree tiers

theorem seen_watchHid (page : Page) (d : Dev) (c : Config) (speed : UInt32) :
    Seen Note.isSetup 0 (watchHid page d c speed) := by
  refine seen_bind (m := 0) (seen_act _) (yields_true _) fun cmd _ => ?_
  cases cmd with
  | none => exact seen_pure false
  | some cmd =>
    have hnote : Seen Note.isSetup 0 (observe (.endpoint page cmd.1) : Watched Unit) := fun _ => Nat.le_refl 0
    exact seen_bind hnote (yields_true _) fun _ _ => seen_act _

theorem seen_watchWith {hub : Dev → UInt8 → Watched Bool} {n : ℕ} (hhub : ∀ d cfg, Seen Note.isSetup n (hub d cfg))
    (v : Setup) : Seen Note.isSetup (1 + n) (watchWith hub v) := by
  refine seen_bind (seen_observe _) (yields_true _) fun _ _ => ?_
  rw [← Nat.zero_add n]
  refine seen_bind (seen_act _) (yields_true _) fun dev _ => ?_
  cases dev with
  | none => exact seen_pure false
  | some dev => exact seen_ite (seen_mono (seen_watchHid _ _ _ _) (Nat.zero_le n)) (seen_ite (hhub _ _) (seen_pure false))

theorem seen_watchHub {child : Setup → Watched Bool} {n : ℕ} (hchild : ∀ w, Seen Note.isSetup n (child w)) (v : Setup)
    (d : Dev) (cfg : UInt8) : Seen Note.isSetup (255 * n) (watchHub child v d cfg) := by
  rw [← Nat.zero_add (255 * n)]
  refine seen_bind (seen_act _) (yields_act (openHub_yields rfl cfg)) fun hub hhub => ?_
  cases hub with
  | none => exact seen_pure false
  | some hub =>
    refine seen_mono (seen_anyRange (fun p d' => ?_) 1 hub.2.1 hub.2.2) (Nat.mul_le_mul_right n (hhub hub rfl).1)
    rw [← Nat.zero_add n]
    refine seen_bind (seen_act _) (yields_true _) fun dev _ => ?_
    obtain ⟨o, d''⟩ := dev
    cases o with
    | none => exact seen_pure _
    | some o => exact seen_bind (m := 0) (hchild _) (yields_true _) fun _ _ => seen_pure _

theorem seen_watchDevice (tiers : ℕ) (v : Setup) : Seen Note.isSetup (fullTree tiers) (watchDevice tiers v) := by
  induction tiers generalizing v with
  | zero => exact seen_watchWith (n := 0) (fun _ _ => seen_pure false) v
  | succ tiers ih => exact seen_watchWith (seen_watchHub ih v) v

/-! ## Route strings -/

/-- four bits of a route string -/
def nibble (route : UInt32) (i : ℕ) : ℕ := (route.toNat >>> (4 * i)) % 16

theorem shift_nibble {m : ℕ} (hm : m < 16) (k i : ℕ) : ((m <<< (4 * k)) >>> (4 * i)) % 16 = if i = k then m else 0 := by
  rw [Nat.shiftLeft_eq, Nat.shiftRight_eq_div_pow]
  rcases lt_trichotomy i k with h | rfl | h
  · obtain ⟨j, rfl⟩ := Nat.exists_eq_add_of_lt h
    have hsplit : m * 2 ^ (4 * (i + j + 1)) = 2 ^ (4 * i) * (16 * (m * 2 ^ (4 * j))) := by
      rw [show 4 * (i + j + 1) = 4 * i + 4 * j + 4 by omega, pow_add, pow_add]
      ring
    rw [hsplit, Nat.mul_div_cancel_left _ (by positivity), Nat.mul_mod_right, if_neg (by omega)]
  · rw [Nat.mul_div_cancel _ (by positivity), if_pos rfl, Nat.mod_eq_of_lt hm]
  · obtain ⟨j, rfl⟩ := Nat.exists_eq_add_of_lt h
    have hpow : m * 2 ^ (4 * k) < 2 ^ (4 * (k + j + 1)) := by
      calc m * 2 ^ (4 * k) < 2 ^ 4 * 2 ^ (4 * k) := Nat.mul_lt_mul_of_pos_right hm (by positivity)
        _ = 2 ^ (4 * k + 4) := by rw [pow_add, mul_comm]
        _ ≤ 2 ^ (4 * (k + j + 1)) := Nat.pow_le_pow_right (by omega) (by omega)
    rw [Nat.div_eq_of_lt hpow, if_neg (by omega)]

/-- a port is put into one nibble and leaves the others alone -/
theorem nibble_or (route : UInt32) {m k : ℕ} (hm : m < 16) (hk : k < 4) (i : ℕ) :
    nibble (route ||| UInt32.ofNat m <<< UInt32.ofNat (4 * k)) i = nibble route i ||| if i = k then m else 0 := by
  have hval : (UInt32.ofNat m <<< UInt32.ofNat (4 * k)).toNat = m <<< (4 * k) := by
    have hpow : 2 ^ (4 * k) ≤ 2 ^ 12 := Nat.pow_le_pow_right (by omega) (by omega)
    have hlt : m <<< (4 * k) < 2 ^ 32 := by
      rw [Nat.shiftLeft_eq]
      calc m * 2 ^ (4 * k) ≤ 15 * 2 ^ 12 := Nat.mul_le_mul (by omega) hpow
        _ < 2 ^ 32 := by norm_num
    rw [UInt32.toNat_shiftLeft, UInt32.toNat_ofNat_of_lt' (show m < 2 ^ 32 by omega),
      UInt32.toNat_ofNat_of_lt' (show 4 * k < 2 ^ 32 by omega), Nat.mod_eq_of_lt (show 4 * k < 32 by omega),
      Nat.mod_eq_of_lt hlt]
  rw [nibble, UInt32.toNat_or, hval, Nat.shiftRight_or_distrib, show 16 = 2 ^ 4 from rfl, Nat.or_mod_two_pow,
    show 2 ^ 4 = 16 from rfl, shift_nibble hm]
  rfl

/-- a device is set up as its path says: the ports in the nibbles of the route string, and as translator the nearest
high-speed hub with the port towards the device, unless the device is high-speed itself or there is no such hub -/
structure Setup.Routed (v : Setup) : Prop where
  depth : v.path.length ≤ 4
  ports : ∀ h ∈ v.path, 1 ≤ h.port ∧ h.port ≤ 255
  route : ∀ i, nibble v.routeString i = (v.path[i]?.map fun h => min h.port 15).getD 0
  noTranslator : v.speed = 3 ∨ (∀ h ∈ v.path, h.speed ≠ 3) → v.ttHubSlot = 0 ∧ v.ttPort = 0
  translator : v.speed ≠ 3 → ∀ above h below, v.path = above ++ h :: below → h.speed = 3 → (∀ h' ∈ below, h'.speed ≠ 3) →
    v.ttHubSlot = h.slotId ∧ v.ttPort = UInt32.ofNat h.port

theorem root_routed (rootPort speed : UInt32) : (Setup.root rootPort speed).Routed where
  depth := Nat.zero_le 4
  ports := by simp [Setup.root]
  route := by simp [Setup.root, nibble]
  noTranslator := fun _ => ⟨rfl, rfl⟩
  translator := by simp [Setup.root]

theorem child_routed {v : Setup} (hv : v.Routed) (hlen : v.path.length < 4) (slotId : UInt32) {p : ℕ} (hp : 1 ≤ p)
    (hp' : p ≤ 255) (speed : UInt32) : (v.child slotId p speed slotId).Routed where
  depth := by simpa [Setup.child] using hlen
  ports := by
    intro h hmem
    rcases List.mem_append.1 hmem with hmem | hmem
    · exact hv.ports h hmem
    · obtain rfl := List.mem_singleton.1 hmem
      exact ⟨hp, hp'⟩
  route := by
    intro i
    rw [Setup.child, nibble_or _ (show min p 15 < 16 by omega) hlen, hv.route]
    rcases lt_trichotomy i v.path.length with h | rfl | h
    · rw [List.getElem?_append_left h, if_neg h.ne, Nat.or_zero]
    · simp
    · rw [List.getElem?_eq_none h.le, List.getElem?_eq_none (by simpa using h), if_neg h.ne']
      rfl
  noTranslator := by
    intro hno
    by_cases hspeed : speed = 3
    · simp [Setup.child, childTt, hspeed]
    · have hpath : ∀ h ∈ v.path ++ [⟨slotId, v.speed, p⟩], h.speed ≠ 3 := hno.resolve_left hspeed
      have hhub : v.speed ≠ 3 := hpath ⟨slotId, v.speed, p⟩ (by simp)
      obtain ⟨hslot, hport⟩ := hv.noTranslator (Or.inr fun h hmem => hpath h (List.mem_append_left _ hmem))
      simp [Setup.child, childTt, hspeed, hhub, hslot, hport]
  translator := by
    intro hspeed above h below hpath hh hbelow
    have hspeed' : speed ≠ 3 := hspeed
    have hpath' : v.path ++ [⟨slotId, v.speed, p⟩] = above ++ h :: below := hpath
    -- the hub is the last one of the path, or one above it
    rcases List.eq_nil_or_concat below with rfl | ⟨rest, last, rfl⟩
    · obtain ⟨-, hlast⟩ := List.append_inj' hpath' rfl
      obtain rfl : ⟨slotId, v.speed, p⟩ = h := List.singleton_inj.1 hlast
      have hhub : v.speed = 3 := hh
      simp [Setup.child, childTt, hspeed', hhub]
    · rw [List.concat_eq_append, ← List.cons_append, ← List.append_assoc] at hpath'
      obtain ⟨hfront, hlast⟩ := List.append_inj' hpath' rfl
      obtain rfl : ⟨slotId, v.speed, p⟩ = last := List.singleton_inj.1 hlast
      have hhub : v.speed ≠ 3 := hbelow ⟨slotId, v.speed, p⟩ (by simp)
      have hrest : ∀ h' ∈ rest, h'.speed ≠ 3 := fun h' hmem => hbelow h' (by simp [hmem])
      obtain ⟨hslot, hport⟩ := hv.translator hhub above h rest hfront hh hrest
      simp [Setup.child, childTt, hspeed', hhub, hslot, hport]

/-- devices on different ways, all ports at most 15, have different route strings -/
theorem Setup.Routed.ports_inj {v w : Setup} (hv : v.Routed) (hw : w.Routed) (hv15 : ∀ h ∈ v.path, h.port ≤ 15)
    (hw15 : ∀ h ∈ w.path, h.port ≤ 15) (heq : v.routeString = w.routeString) :
    v.path.map Hop.port = w.path.map Hop.port := by
  refine List.ext_getElem? fun i => ?_
  have hi := (hv.route i).symm.trans ((congrArg (nibble · i) heq).trans (hw.route i))
  rw [List.getElem?_map, List.getElem?_map]
  cases hvi : v.path[i]? with
  | none =>
    cases hwi : w.path[i]? with
    | none => rfl
    | some h =>
      have hport := hw.ports h (List.mem_of_getElem? hwi)
      have hmin : 0 = min h.port 15 := by simpa [hvi, hwi] using hi
      omega
  | some h =>
    have hport := hv.ports h (List.mem_of_getElem? hvi)
    have h15 := hv15 h (List.mem_of_getElem? hvi)
    cases hwi : w.path[i]? with
    | none =>
      have hmin : min h.port 15 = 0 := by simpa [hvi, hwi] using hi
      omega
    | some h' =>
      have h15' := hw15 h' (List.mem_of_getElem? hwi)
      have hmin : min h.port 15 = min h'.port 15 := by simpa [hvi, hwi] using hi
      have hsame : h.port = h'.port := by omega
      simp [hsame]

/-! ## Every device -/

/-- every device that is set up is set up as its path says -/
def InRoute (rootPort : UInt32) (e : Access ⊕ Note) : Prop :=
  ∀ v, e = .inr (.setup v) → v.rootPort = rootPort ∧ v.Routed

/-- the enumeration of a device sets up nothing else -/
def KeepsRoute (rootPort : UInt32) {α : Type} (x : Watched α) : Prop :=
  Triple (fun _ => InRoute rootPort) (fun _ _ => True) x (fun _ _ _ => True)

section

variable {rootPort : UInt32} {α β : Type}

theorem keepsRoute_pure (a : α) : KeepsRoute rootPort (pure a) := triple_pure a fun _ _ _ => trivial

theorem keepsRoute_act (x : Drv α) : KeepsRoute rootPort (act x) :=
  triple_act (fun _ _ _ hv => nomatch hv) fun _ _ _ _ _ _ => trivial

theorem keepsRoute_observe {g : Note} (hg : InRoute rootPort (.inr g)) : KeepsRoute rootPort (observe g) :=
  triple_emit _ (fun _ _ _ => hg) fun _ _ _ => trivial

theorem keepsRoute_bind {x : Watched α} {f : α → Watched β} {F : α → Prop} (hx : KeepsRoute rootPort x) (hF : Yields F x)
    (hf : ∀ a, F a → KeepsRoute rootPort (f a)) : KeepsRoute rootPort (x >>= f) := by
  apply triple_bind (Q := fun a _ _ => F a)
  · exact fun h s hs => ⟨(hx h s hs).1, fun a s' ha => hF s a s' ha⟩
  · exact fun a h s ha => hf a ha h s trivial

theorem keepsRoute_ite {c : Prop} [Decidable c] {x y : Watched α} (hx : KeepsRoute rootPort x)
    (hy : KeepsRoute rootPort y) : KeepsRoute rootPort (if c then x else y) := triple_ite (fun _ => hx) fun _ => hy

theorem keepsRoute_watchHid (page : Page) (d : Dev) (c : Config) (speed : UInt32) :
    KeepsRoute rootPort (watchHid page d c speed) := by
  refine keepsRoute_bind (keepsRoute_act _) (yields_true _) fun cmd _ => ?_
  cases cmd with
  | none => exact keepsRoute_pure false
  | some cmd =>
    exact keepsRoute_bind (keepsRoute_observe fun v hv => nomatch hv) (yields_true _) fun _ _ => keepsRoute_act _

theorem keepsRoute_watchWith {hub : Dev → UInt8 → Watched Bool} {v : Setup} (hv : v.Routed)
    (hhub : ∀ d cfg, KeepsRoute v.rootPort (hub d cfg)) : KeepsRoute v.rootPort (watchWith hub v) := by
  have hsetup : InRoute v.rootPort (.inr (.setup v)) := by
    intro w hw
    cases hw
    exact ⟨rfl, hv⟩
  refine keepsRoute_bind (keepsRoute_observe hsetup) (yields_true _) fun _ _ => ?_
  refine keepsRoute_bind (keepsRoute_act _) (yields_true _) fun dev _ => ?_
  cases dev with
  | none => exact keepsRoute_pure false
  | some dev => exact keepsRoute_ite (keepsRoute_watchHid _ _ _ _) (keepsRoute_ite (hhub _ _) (keepsRoute_pure false))

section

variable {child : Setup → Watched Bool} {v : Setup} {slotId : UInt32} {d : Dev}

/-- the device at a port is set up as the path with this port says -/
theorem keepsRoute_watchPort (hv : v.Routed) (hlen : v.path.length < 4)
    (hchild : ∀ w : Setup, w.Routed → w.rootPort = v.rootPort → w.path.length = v.path.length + 1 →
      KeepsRoute v.rootPort (child w)) (hd : d.slotId = slotId) (statBuf : UInt64) {p : ℕ} (hp : 1 ≤ p) (hp' : p ≤ 255) :
    KeepsRoute v.rootPort (watchPort child v slotId statBuf p d) := by
  refine keepsRoute_bind (keepsRoute_act _) (yields_act (openPort_yields hd statBuf p)) fun dev hdev => ?_
  obtain ⟨o, d'⟩ := dev
  cases o with
  | none => exact keepsRoute_pure _
  | some o =>
    obtain ⟨speed, slot⟩ := o
    obtain rfl : slot = slotId := hdev.2 (speed, slot) rfl
    have hcall := hchild (v.child slot p speed slot) (child_routed hv hlen slot hp hp' speed) rfl (by simp [Setup.child])
    exact keepsRoute_bind hcall (yields_true _) fun _ _ => keepsRoute_pure _

theorem watchPort_slot (hd : d.slotId = slotId) (statBuf : UInt64) (p : ℕ) :
    Yields (fun r => r.2.slotId = slotId) (watchPort child v slotId statBuf p d) := by
  refine yields_bind (yields_act (openPort_yields hd statBuf p)) fun dev hdev => ?_
  obtain ⟨o, d'⟩ := dev
  cases o with
  | none => exact yields_pure hdev.1
  | some o => exact yields_bind (yields_true _) fun _ _ => yields_pure hdev.1

/-- the loop over the ports goes on with the slot of the hub -/
theorem keepsRoute_watchHub (hv : v.Routed) (hlen : v.path.length < 4)
    (hchild : ∀ w : Setup, w.Routed → w.rootPort = v.rootPort → w.path.length = v.path.length + 1 →
      KeepsRoute v.rootPort (child w)) (d : Dev) (cfg : UInt8) : KeepsRoute v.rootPort (watchHub child v d cfg) := by
  refine keepsRoute_bind (keepsRoute_act _) (yields_act (openHub_yields rfl cfg)) fun hub hhub => ?_
  cases hub with
  | none => exact keepsRoute_pure false
  | some hub =>
    obtain ⟨hports, hslot⟩ := hhub hub rfl
    refine triple_conseq (triple_search (I := fun d' _ _ => d'.slotId = d.slotId) (J := fun _ _ _ => True) 1 hub.2.1
      hub.2.2 (fun p hp hp' d' h s hd' => ?_) fun _ _ _ _ => trivial) (fun _ _ _ => hslot) fun _ _ _ _ => trivial
    refine ⟨(keepsRoute_watchPort hv hlen hchild hd' hub.1 hp (by omega) h s trivial).1, fun r s' hr => ?_⟩
    show if r.1 = true then True else r.2.slotId = d.slotId
    split_ifs
    exact watchPort_slot hd' hub.1 p s r s' hr

end

theorem keepsRoute_watchDevice (tiers : ℕ) {v : Setup} (hv : v.Routed) (hlen : v.path.length + tiers = 4) :
    KeepsRoute v.rootPort (watchDevice tiers v) := by
  induction tiers generalizing v with
  | zero => exact keepsRoute_watchWith hv fun _ _ => keepsRoute_pure false
  | succ tiers ih =>
    refine keepsRoute_watchWith hv (keepsRoute_watchHub hv (by omega) fun w hw hroot hdepth => ?_)
    rw [← hroot]
    exact ih hw (by omega)

end

/-! ## The slot context -/

/-- doublewords 0 to 2 of a device's slot context, in the input context at base -/
def Setup.slotContext (v : Setup) (base : UInt64) (ctxSize : ℕ) : List Access :=
  [.write .inputContext base ctxSize 4
      (v.routeString &&& (0xFFFFF : UInt32) ||| v.speed <<< 20 ||| (1 : UInt32) <<< 27).toUInt64,
    .write .inputContext base (ctxSize + 4) 4 (v.rootPort <<< 16).toUInt64,
    .write .inputContext base (ctxSize + 8) 4
      (v.ttHubSlot &&& (0xFF : UInt32) ||| (v.ttPort &&& 0xFF) <<< 8).toUInt64]

/-- the mask leaves the whole route string -/
theorem Setup.Routed.route_fits {v : Setup} (hv : v.Routed) : v.routeString &&& 0xFFFFF = v.routeString := by
  have hzero : ∀ i, 4 ≤ i → nibble v.routeString i = 0 := fun i hi => by
    rw [hv.route, List.getElem?_eq_none (hv.depth.trans hi)]
    rfl
  have h4 := hzero 4 (by omega)
  have h5 := hzero 5 (by omega)
  have h6 := hzero 6 (by omega)
  have h7 := hzero 7 (by omega)
  simp only [nibble, Nat.shiftRight_eq_div_pow] at h4 h5 h6 h7
  have hlt := v.routeString.toNat_lt
  apply UInt32.toNat_inj.1
  rw [UInt32.toNat_and, show (0xFFFFF : UInt32).toNat = 2 ^ 20 - 1 from rfl, Nat.and_two_pow_sub_one_eq_mod]
  omega

/-- an event that leaves the slot context as it is -/
def LeavesSlot (base : UInt64) (ctxSize : ℕ) (e : Access) : Prop :=
  ∀ off len value, e = .write .inputContext base off len value → ctxSize + 12 ≤ off

section

variable {base : UInt64} {ctxSize : ℕ} {α : Type}

def Leaves (base : UInt64) (ctxSize : ℕ) (x : Drv α) : Prop :=
  Triple (fun _ => LeavesSlot base ctxSize) (fun _ _ => True) x (fun _ _ _ => True)

theorem leaves_emit {e : Access} (he : LeavesSlot base ctxSize e) : Leaves base ctxSize (emit e) :=
  triple_emit e (fun _ _ _ => he) fun _ _ _ => trivial

theorem leaves_allocPage {s : Area} (hs : s ≠ .inputContext) : Leaves base ctxSize (allocPage s) := by
  intro h st _
  unfold allocPage
  cases Pmm.alloc st.pmm with
  | error e => exact ⟨trivial, fun _ _ _ => trivial⟩
  | ok r =>
    refine ⟨⟨fun _ _ _ he => (nomatch he), fun _ _ _ he => ?_, trivial⟩, fun _ _ _ => trivial⟩
    exact absurd (Access.write.inj he).1 hs

theorem leaves_newRing {s : Area} (hs : s ≠ .inputContext) : Leaves base ctxSize (newRing s) := by
  have hwrite : ∀ {b off len value}, LeavesSlot base ctxSize (.write s b off len value) :=
    fun _ _ _ he => absurd (Access.write.inj he).1 hs
  refine triple_bind (leaves_allocPage hs) fun ring => triple_bind (leaves_emit hwrite) fun _ => ?_
  exact triple_bind (leaves_emit hwrite) fun _ => triple_pure _ fun _ _ _ => trivial

/-- the TRB that `post_command` writes comes first, and the Link may follow -/
theorem postCommandW_log (r : Ring) (param : UInt64) (status control : UInt32) :
    ∃ l, (postCommandW r param status control).log = .write .commandRing r.base (16 * r.enq) 8 param :: l := by
  have hpush : (pushTrb .commandRing r ⟨param, status, control ||| r.pcs⟩).value =
      some ((r.store r.enq ⟨param, status, control ||| r.pcs⟩).advance 1) := rfl
  obtain ⟨hlog, -⟩ := Logged.bind_of_some hpush fun r => if r.enq = 31 then wrapLink .commandRing r else pure r
  rw [postCommandW, hlog]
  exact ⟨_, rfl⟩

/-- the slot context of an input context is written, and nothing has changed it since -/
def Filled (v : Setup) (base : UInt64) (ctxSize : ℕ) (h : List Access) : Prop :=
  ∃ before after, h = before ++ v.slotContext base ctxSize ++ after ∧ .page .inputContext base ∈ before ∧
    ∀ e ∈ after, LeavesSlot base ctxSize e

/-- a command was given with such an input context -/
def Given (v : Setup) (ctxSize : ℕ) (h : List Access) : Prop :=
  ∃ base h₁ h₂ ring off, h = h₁ ++ .write .commandRing ring off 8 base :: h₂ ∧ Filled v base ctxSize h₁

variable {v : Setup}

theorem Filled.append {h l : List Access} (hf : Filled v base ctxSize h) (hl : ∀ e ∈ l, LeavesSlot base ctxSize e) :
    Filled v base ctxSize (h ++ l) := by
  obtain ⟨before, after, rfl, hpage, hafter⟩ := hf
  refine ⟨before, after ++ l, List.append_assoc _ after l, hpage, fun e he => ?_⟩
  rcases List.mem_append.1 he with he | he
  · exact hafter e he
  · exact hl e he

theorem Given.append {h : List Access} (hg : Given v ctxSize h) (l : List Access) : Given v ctxSize (h ++ l) := by
  obtain ⟨base, h₁, h₂, ring, off, rfl, hf⟩ := hg
  exact ⟨base, h₁, h₂ ++ l, ring, off, by simp, hf⟩

/-- the command with the input context of a device -/
theorem given_postCommand (status control : UInt32) :
    Triple (fun _ _ => True) (fun h _ => Filled v base ctxSize h) (postCommand base status control)
      (fun _ h _ => Given v ctxSize h) := by
  apply triple_get
  intro st
  apply triple_bind (Q := fun _ h _ => Given v ctxSize h)
  · refine triple_lift (fun _ _ _ => allowed_true _ _) fun h s r hs _ => ?_
    obtain ⟨l, hl⟩ := postCommandW_log st.cmd base status control
    rw [hl]
    exact ⟨base, h, l, _, _, rfl, hs.2⟩
  intro r
  apply triple_bind (Q := fun _ h _ => Given v ctxSize h)
  · exact triple_modify _ fun _ _ hg => hg
  · exact fun _ => triple_emit _ (fun _ _ _ => trivial) fun _ _ hg => hg.append _

theorem filled_leaves {x : Drv α} (hx : Leaves base ctxSize x) :
    Triple (fun _ _ => True) (fun h _ => Filled v base ctxSize h) x (fun _ h _ => Filled v base ctxSize h) := by
  refine fun h st hf => ⟨allowed_true _ _, fun _ _ _ => hf.append ?_⟩
  exact allowed_forall (hx h st trivial).1

theorem given_keeps (x : Drv α) :
    Triple (fun _ _ => True) (fun h _ => Given v ctxSize h) x (fun _ h _ => Given v ctxSize h) :=
  fun _ _ hg => ⟨allowed_true _ _, fun _ _ _ => hg.append _⟩

theorem ctxSize_keeps {x : Drv α} (hx : Calm id x) :
    Triple (fun _ _ => True) (fun _ st => st.ctxSize = ctxSize) x (fun _ _ st => st.ctxSize = ctxSize) :=
  fun _ st hst => ⟨allowed_true _ _, fun a st' ha => (hx.returns st a st' ha).ctxSize.trans hst⟩

/-- one write, and what was before it -/
theorem written_then {P : List Access → State → Prop} {R : α → List Access → State → Prop} {e : Access} {f : Unit → Drv α}
    (hf : Triple (fun _ _ => True) (fun h s => ∃ h', h = h' ++ [e] ∧ P h' s) (f ()) R) :
    Triple (fun _ _ => True) P (emit e >>= f) R :=
  triple_bind (triple_emit e (fun _ _ _ => trivial) fun h _ hs => ⟨h, rfl, hs⟩) fun _ => hf

/-- where `setup_device` returns a device, its arguments are in the slot context that Address Device was given -/
theorem setupDevice_given (hctx : 8 ≤ ctxSize) :
    Triple (fun _ _ => True) (fun _ st => st.ctxSize = ctxSize)
      (setupDevice v.routeString v.rootPort v.speed v.ttHubSlot v.ttPort)
      (fun dev h _ => dev.isSome = true → Given v ctxSize h) := by
  have hnone : ∀ {P : List Access → State → Prop} (x : Drv Unit),
      Triple (fun _ _ => True) P (x >>= fun _ => (pure none : Drv (Option Dev)))
        (fun dev h _ => dev.isSome = true → Given v ctxSize h) := fun {P} x => by
    apply triple_bind (Q := fun _ _ _ => True)
    · exact fun _ _ _ => ⟨allowed_true _ _, fun _ _ _ => trivial⟩
    · exact fun _ => triple_pure none fun _ _ _ hs => nomatch hs
  apply triple_bind (ctxSize_keeps calm_drainEvents)
  intro _
  apply triple_bind (ctxSize_keeps (calm_postCommand _ _ _))
  intro _
  apply triple_bind (ctxSize_keeps (calm_waitEvent _))
  intro enabled
  refine triple_ite (fun _ => hnone _) fun _ => ?_
  apply triple_get
  intro st
  refine triple_conseq (triple_fact (P := fun _ _ => True) fun hst => ?_) (fun _ _ hs => ⟨trivial, hs.1 ▸ hs.2⟩)
    fun _ _ _ hq => hq
  subst hst
  apply triple_bind (Q := fun base h _ => .page .inputContext base ∈ h)
  · intro h s _
    have hspec := (allocPage_spec (P := fun _ _ => True) .inputContext h s trivial).2
    refine ⟨allowed_true _ _, fun base s' hbase => ?_⟩
    obtain ⟨h', m, heq, -, -⟩ := hspec base s' hbase
    simp [heq]
  intro base
  apply written_then
  apply written_then
  apply written_then
  apply written_then
  -- the slot context is there; the rest of the input context lies behind it
  apply triple_bind (Q := fun _ h _ => Filled v base st.ctxSize h)
  · refine triple_conseq (filled_leaves (leaves_newRing (by simp))) ?_ fun _ _ _ hf => hf
    rintro h s ⟨_, rfl, _, rfl, _, rfl, h', rfl, hmem⟩
    refine ⟨h' ++ [.write .inputContext base 4 4 3], [], ?_, List.mem_append_left _ hmem, by simp⟩
    simp [Setup.slotContext]
  intro trRing
  apply triple_bind (filled_leaves (leaves_emit (by rintro _ _ _ ⟨⟩; omega)))
  intro _
  apply triple_bind (filled_leaves (leaves_emit (by rintro _ _ _ ⟨⟩; omega)))
  intro _
  apply triple_bind (filled_leaves (leaves_allocPage (by simp)))
  intro outCtx
  apply triple_bind (filled_leaves (leaves_emit (by rintro _ _ _ ⟨⟩)))
  intro _
  apply triple_bind (given_postCommand _ _)
  intro _
  apply triple_bind (given_keeps _)
  intro addressed
  refine triple_ite (fun _ => hnone _) fun _ => ?_
  exact triple_pure _ fun _ _ hg _ => hg

end

/-! ## The enumeration -/

/-- the devices that are set up in the enumeration of a root port, in this order -/
def setups (rootPort speed : UInt32) (st : State) : List Setup :=
  (ghosts (watchDevice maxHubDepth (.root rootPort speed) st).log).filterMap Note.setup?

theorem setups_routed {rootPort speed : UInt32} {st : State} {v : Setup} (hv : v ∈ setups rootPort speed st) :
    v.rootPort = rootPort ∧ v.Routed := by
  obtain ⟨g, hg, hsetup⟩ := List.mem_filterMap.1 hv
  obtain ⟨e, he, hright⟩ := List.mem_filterMap.1 hg
  have hrun := (keepsRoute_watchDevice maxHubDepth (root_routed rootPort speed) rfl [] st trivial).1
  refine (allowed_forall hrun e he) v ?_
  cases g with
  | setup w =>
    cases hsetup
    cases e with
    | inl a => cases hright
    | inr g => rw [Option.some.inj hright]
  | endpoint page code => cases hsetup

/-- **Route string and translator.** Whatever the devices below a root port are, and whatever they and the controller
answer:
- the enumeration returns, unless the allocator runs out of pages or a loop over events is cut off, and it sets up at most
  1 + 255 + 255² + 255³ + 255⁴ devices;
- every device it sets up lies behind at most four hubs, with the ports towards it in the nibbles of its route string, and
  its translator is the nearest high-speed hub, or none;
- devices on different ways with ports up to 15 have different route strings. -/
theorem route_and_translator (rootPort speed : UInt32) (st : State) :
    erase (watchDevice maxHubDepth (.root rootPort speed)) = enumerateDevice rootPort maxHubDepth 0 speed 0 0 ∧
      ((∃ r, (enumerateDevice rootPort maxHubDepth 0 speed 0 0 st).value = some r) ∨
        CutOff st (enumerateDevice rootPort maxHubDepth 0 speed 0 0 st).log) ∧
      (setups rootPort speed st).length ≤ 1 + 255 + 255 ^ 2 + 255 ^ 3 + 255 ^ 4 ∧
      (∀ v ∈ setups rootPort speed st, v.rootPort = rootPort ∧ v.Routed) ∧
      ∀ v ∈ setups rootPort speed st, ∀ w ∈ setups rootPort speed st, (∀ h ∈ v.path, h.port ≤ 15) →
        (∀ h ∈ w.path, h.port ≤ 15) → v.path.map Hop.port ≠ w.path.map Hop.port → v.routeString ≠ w.routeString := by
  have herase : erase (watchDevice maxHubDepth (.root rootPort speed)) = enumerateDevice rootPort maxHubDepth 0 speed 0 0 :=
    erase_watchDevice maxHubDepth (.root rootPort speed) rfl
  refine ⟨herase, ?_, ?_, fun v => setups_routed, fun v hv w hw hv15 hw15 hne heq => ?_⟩
  · rw [← herase]
    cases hvalue : (erase (watchDevice maxHubDepth (.root rootPort speed)) st).value with
    | none => exact Or.inr ((calm_watchDevice maxHubDepth (.root rootPort speed)).stops st hvalue)
    | some r => exact Or.inl ⟨r, rfl⟩
  · rw [setups, List.length_filterMap_eq_countP]
    exact seen_watchDevice maxHubDepth (.root rootPort speed) st
  · exact hne ((setups_routed hv).2.ports_inj (setups_routed hw).2 hv15 hw15 heq)

end Tomorrow.Usb.Dma
