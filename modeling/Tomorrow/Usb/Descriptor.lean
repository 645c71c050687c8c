/-
The configuration descriptor of a USB device (`get_config_descriptor` of `xhci.rs`).

What the device sends is one page of arbitrary bytes. The loop walks over the descriptors in it by their length bytes,
remembers the class of the last interface and leaves at the first interrupt IN endpoint. Its reads are logged by their
offset, and it is cut off when its fuel is used up.

`Describes` says what is to be found in a page, in terms of the chain of descriptors alone.

Result: `config_descriptor_spec`.
-/
import Tomorrow.Core.Logged
import Tomorrow.Core.Loops

namespace Tomorrow.Usb.Dma

open Tomorrow.Core

/-! ## The loop -/

/-- what is taken from a configuration descriptor -/
structure Config where
  configValue : UInt8
  epAddr : UInt8
  interval : UInt8
  maxPacket : UInt16
  ifaceClass : UInt8

/-- the bytes of the buffer -/
abbrev Page := ℕ → UInt8

/-- two bytes of the buffer, little-endian -/
def Page.word (page : Page) (off : ℕ) : UInt16 := (page off).toUInt16 ||| (page (off + 1)).toUInt16 <<< 8

def byteAt (page : Page) (off : ℕ) : Logged ℕ UInt8 := .note off (page off)

def wordAt (page : Page) (off : ℕ) : Logged ℕ UInt16 := ⟨[off, off + 1], some (page.word off)⟩

/-- `while offset < parse_len`, at most that many times -/
def descriptorLoop (page : Page) (parseLen : ℕ) : ℕ → ℕ → Config → Logged ℕ Config
  | 0, _, _ => .stop
  | fuel + 1, offset, c =>
    if parseLen ≤ offset then pure c
    else do
      let len ← byteAt page offset
      if len = 0 then pure c
      else do
        let kind ← byteAt page (offset + 1)
        if kind = 4 then do
          let cls ← byteAt page (offset + 5)
          descriptorLoop page parseLen fuel (offset + len.toNat) { c with ifaceClass := cls }
        else if kind = 5 then do
          let addr ← byteAt page (offset + 2)
          let attrs ← byteAt page (offset + 3)
          let mp ← wordAt page (offset + 4)
          let iv ← byteAt page (offset + 6)
          if attrs &&& 3 = 3 ∧ addr &&& 0x80 ≠ 0 then pure { c with epAddr := addr, maxPacket := mp, interval := iv }
          else descriptorLoop page parseLen fuel (offset + len.toNat) c
        else descriptorLoop page parseLen fuel (offset + len.toNat) c

/-- `get_config_descriptor` from where the device has answered -/
def parseConfig (page : Page) (fuel : ℕ) : Logged ℕ Config := do
  let totalLen ← wordAt page 2
  let configValue ← byteAt page 5
  descriptorLoop page (if 512 < totalLen then 512 else totalLen.toNat) fuel 0 ⟨configValue, 0, 0, 0, 0⟩

/-! ## What a page describes -/

section

variable (page : Page)

/-- min(wTotalLength, 512) -/
def Page.parseLen : ℕ := min (page.word 2).toNat 512

/-- the walk is over: the end of the descriptors, or a length of 0 -/
def Page.Ended (o : ℕ) : Prop := page.parseLen ≤ o ∨ page o = 0

/-- the offsets that are met by following the length bytes -/
def Page.Met (o : ℕ) : Prop := Chain page.Ended (fun o => (page o).toNat) 0 o

/-- there is a descriptor of the chain at o -/
def Page.Listed (o : ℕ) : Prop := page.Met o ∧ ¬ page.Ended o

def Page.IsInterface (o : ℕ) : Prop := page (o + 1) = 4

def Page.IsInterruptIn (o : ℕ) : Prop := page (o + 1) = 5 ∧ page (o + 3) &&& 3 = 3 ∧ page (o + 2) &&& 0x80 ≠ 0

/-- cls is the class of the last interface listed before an offset, 0 without one -/
def Page.LastClass (bound : ℕ) (cls : UInt8) : Prop :=
  (∃ o, page.Listed o ∧ o < bound ∧ page.IsInterface o ∧ cls = page (o + 5) ∧
    ∀ o', page.Listed o' → o < o' → o' < bound → ¬ page.IsInterface o') ∨
  (cls = 0 ∧ ∀ o, page.Listed o → o < bound → ¬ page.IsInterface o)

/-- the first interrupt IN endpoint, and the last interface before it -/
structure Page.Endpoint (o : ℕ) (c : Config) : Prop where
  listed : page.Listed o
  interruptIn : page.IsInterruptIn o
  first : ∀ o', page.Listed o' → o' < o → ¬ page.IsInterruptIn o'
  epAddr : c.epAddr = page (o + 2)
  maxPacket : c.maxPacket = page.word (o + 4)
  interval : c.interval = page (o + 6)
  ifaceClass : page.LastClass o c.ifaceClass

/-- no interrupt IN endpoint, and the last of all interfaces -/
structure Page.NoEndpoint (c : Config) : Prop where
  none : ∀ o, page.Listed o → ¬ page.IsInterruptIn o
  epAddr : c.epAddr = 0
  maxPacket : c.maxPacket = 0
  interval : c.interval = 0
  ifaceClass : page.LastClass page.parseLen c.ifaceClass

/-- what c says is what the page says -/
structure Page.Describes (c : Config) : Prop where
  configValue : c.configValue = page 5
  endpoint : (∃ o, page.Endpoint o c) ∨ page.NoEndpoint c

end

/-! ## The walk -/

section

open Logged

variable {page : Page} {P : ℕ → Prop} {β : Type} {b : β} {o : ℕ} {c : Config}

@[simp] theorem safe_byteAt {off : ℕ} {f : UInt8 → Logged ℕ β} :
    Safe P (byteAt page off >>= f) b ↔ P off ∧ Safe P (f (page off)) b := by
  exact safe_bind_of fun _ => safe_note

@[simp] theorem safe_wordAt {off : ℕ} {f : UInt16 → Logged ℕ β} :
    Safe P (wordAt page off >>= f) b ↔ (P off ∧ P (off + 1)) ∧ Safe P (f (page.word off)) b := by
  have hlog : (∀ e ∈ (wordAt page off).log, P e) ↔ P off ∧ P (off + 1) := by simp [wordAt]
  rw [← hlog]
  exact safe_bind_of fun _ => safe_of_value rfl

theorem Page.length_pos (o : ℕ) (h : ¬ page.Ended o) : 0 < (page o).toNat := by
  have hne : page o ≠ 0 := (not_or.1 h).2
  have hne' : (page o).toNat ≠ 0 := fun h0 => hne (UInt8.toNat_inj.1 h0)
  omega

theorem Page.Listed.lt {o : ℕ} (h : page.Listed o) : o < page.parseLen := not_le.1 (not_or.1 h.2).1

/-- what is listed before the next descriptor is this one or was listed before it -/
theorem Page.Listed.le_of_lt_next {o' : ℕ} (h' : page.Listed o') (hm : page.Met o)
    (hlt : o' < o + (page o).toNat) : o' ≤ o := by
  by_contra hgt
  have hnext := Chain.next_le hm h'.1 Page.length_pos (not_le.1 hgt)
  omega

/-- the loop at offset o, without an endpoint so far -/
structure Page.Walked (page : Page) (o : ℕ) (c : Config) : Prop where
  met : page.Met o
  none : ∀ o', page.Listed o' → o' < o → ¬ page.IsInterruptIn o'
  configValue : c.configValue = page 5
  epAddr : c.epAddr = 0
  maxPacket : c.maxPacket = 0
  interval : c.interval = 0
  ifaceClass : page.LastClass o c.ifaceClass

theorem Page.walked_start : page.Walked 0 ⟨page 5, 0, 0, 0, 0⟩ :=
  ⟨.start, by simp, rfl, rfl, rfl, rfl, Or.inr (by simp)⟩

/-- past an interface -/
theorem Page.LastClass.interface (hl : page.Listed o) (hi : page.IsInterface o) :
    page.LastClass (o + (page o).toNat) (page (o + 5)) := by
  have hpos := Page.length_pos o hl.2
  refine Or.inl ⟨o, hl, by omega, hi, rfl, fun o' h' hlt hnext => ?_⟩
  exact absurd (h'.le_of_lt_next hl.1 hnext) (not_le.2 hlt)

/-- past another descriptor -/
theorem Page.LastClass.other {cls : UInt8} (h : page.LastClass o cls) (hl : page.Listed o) (hi : ¬ page.IsInterface o) :
    page.LastClass (o + (page o).toNat) cls := by
  have hsame : ∀ o', page.Listed o' → o' < o + (page o).toNat → page.IsInterface o' → o' < o := by
    intro o' h' hnext hi'
    refine lt_of_le_of_ne (h'.le_of_lt_next hl.1 hnext) fun heq => hi (heq ▸ hi')
  rcases h with ⟨o₁, hl₁, hlt, hi₁, hcls, hlast⟩ | ⟨hcls, hnone⟩
  · exact Or.inl ⟨o₁, hl₁, by omega, hi₁, hcls, fun o' h' hgt hnext hi' => hlast o' h' hgt (hsame o' h' hnext hi') hi'⟩
  · exact Or.inr ⟨hcls, fun o' h' hnext hi' => hnone o' h' (hsame o' h' hnext hi') hi'⟩

/-- past a descriptor that is not an interrupt IN endpoint -/
theorem Page.Walked.next (hw : page.Walked o c) (hl : page.Listed o) (he : ¬ page.IsInterruptIn o) {cls : UInt8}
    (hcls : page.LastClass (o + (page o).toNat) cls) :
    page.Walked (o + (page o).toNat) { c with ifaceClass := cls } := by
  refine ⟨.next o hw.met hl.2, fun o' h' hnext he' => ?_, hw.configValue, hw.epAddr, hw.maxPacket, hw.interval, hcls⟩
  rcases (h'.le_of_lt_next hl.1 hnext).lt_or_eq with hlt | rfl
  · exact hw.none o' h' hlt he'
  · exact he he'

/-- the end of the chain -/
theorem Page.Walked.ended (hw : page.Walked o c) (he : page.Ended o) : page.Describes c := by
  have hbefore : ∀ o', page.Listed o' → o' < o := by
    intro o' h'
    refine lt_of_le_of_ne (Chain.le_of_stop hw.met he h'.1 Page.length_pos) ?_
    rintro rfl
    exact h'.2 he
  refine ⟨hw.configValue, Or.inr ⟨fun o' h' => hw.none o' h' (hbefore o' h'), hw.epAddr, hw.maxPacket, hw.interval, ?_⟩⟩
  rcases hw.ifaceClass with ⟨o₁, hl₁, -, hi₁, hcls, hlast⟩ | ⟨hcls, hnone⟩
  · exact Or.inl ⟨o₁, hl₁, hl₁.lt, hi₁, hcls, fun o' h' hgt _ => hlast o' h' hgt (hbefore o' h')⟩
  · exact Or.inr ⟨hcls, fun o' h' _ => hnone o' h' (hbefore o' h')⟩

/-- an interrupt IN endpoint -/
theorem Page.Walked.found (hw : page.Walked o c) (hl : page.Listed o) (he : page.IsInterruptIn o) :
    page.Describes { c with epAddr := page (o + 2), maxPacket := page.word (o + 4), interval := page (o + 6) } :=
  ⟨hw.configValue, Or.inl ⟨o, hl, he, hw.none, rfl, rfl, rfl, hw.ifaceClass⟩⟩

theorem Page.parseLen_le (page : Page) : page.parseLen ≤ 512 := Nat.min_le_right _ 512

/-- one pass: the loop leaves with what the page describes, or goes on to the next descriptor -/
theorem descriptorLoop_pass (hw : page.Walked o c) :
    (∃ c', page.Describes c' ∧ ∀ fuel, Safe (· < 4096) (descriptorLoop page page.parseLen (fuel + 1) o c) c') ∨
    (page.Listed o ∧ ∃ c', page.Walked (o + (page o).toNat) c' ∧ ∀ fuel b,
      Safe (· < 4096) (descriptorLoop page page.parseLen fuel (o + (page o).toNat) c') b →
        Safe (· < 4096) (descriptorLoop page page.parseLen (fuel + 1) o c) b) := by
  have hle := page.parseLen_le
  by_cases hlen : page.parseLen ≤ o
  · exact Or.inl ⟨c, hw.ended (Or.inl hlen), fun fuel => by simp [descriptorLoop, hlen, safe_pure]⟩
  have ho : o < 512 := by omega
  by_cases hzero : page o = 0
  · refine Or.inl ⟨c, hw.ended (Or.inr hzero), fun fuel => ?_⟩
    rw [descriptorLoop, if_neg hlen, safe_byteAt, if_pos hzero]
    exact ⟨by omega, safe_pure.2 rfl⟩
  have hl : page.Listed o := ⟨hw.met, not_or.2 ⟨hlen, hzero⟩⟩
  by_cases h4 : page (o + 1) = 4
  · have he : ¬ page.IsInterruptIn o := fun ⟨h5, _⟩ => by simp [h4] at h5
    refine Or.inr ⟨hl, _, hw.next hl he (.interface hl h4), fun fuel b hb => ?_⟩
    rw [descriptorLoop, if_neg hlen, safe_byteAt, if_neg hzero, safe_byteAt, if_pos h4, safe_byteAt]
    exact ⟨by omega, by omega, by omega, hb⟩
  · have hrest := hw.ifaceClass.other hl h4
    by_cases h5 : page (o + 1) = 5
    · by_cases hep : page (o + 3) &&& 3 = 3 ∧ page (o + 2) &&& 0x80 ≠ 0
      · refine Or.inl ⟨_, hw.found hl ⟨h5, hep⟩, fun fuel => ?_⟩
        rw [descriptorLoop, if_neg hlen, safe_byteAt, if_neg hzero, safe_byteAt, if_neg h4, if_pos h5, safe_byteAt,
          safe_byteAt, safe_wordAt, safe_byteAt, if_pos hep]
        exact ⟨by omega, by omega, by omega, by omega, by omega, by omega, safe_pure.2 rfl⟩
      · refine Or.inr ⟨hl, _, hw.next hl (fun he => hep he.2) hrest, fun fuel b hb => ?_⟩
        rw [descriptorLoop, if_neg hlen, safe_byteAt, if_neg hzero, safe_byteAt, if_neg h4, if_pos h5, safe_byteAt,
          safe_byteAt, safe_wordAt, safe_byteAt, if_neg hep]
        exact ⟨by omega, by omega, by omega, by omega, by omega, by omega, hb⟩
    · refine Or.inr ⟨hl, _, hw.next hl (fun he => h5 he.1) hrest, fun fuel b hb => ?_⟩
      rw [descriptorLoop, if_neg hlen, safe_byteAt, if_neg hzero, safe_byteAt, if_neg h4, if_neg h5]
      exact ⟨by omega, by omega, hb⟩

theorem descriptorLoop_spec {n : ℕ} (hw : page.Walked o c) (hn : page.parseLen ≤ o + n) :
    ∃ c', page.Describes c' ∧
      ∀ fuel, n < fuel → Safe (· < 4096) (descriptorLoop page page.parseLen fuel o c) c' := by
  -- every descriptor has at least one byte, so the distance to the end gets smaller
  induction n using Nat.strong_induction_on generalizing o c with
  | h n ih =>
    rcases descriptorLoop_pass hw with ⟨c', hd, hleave⟩ | ⟨hl, c', hw', hgo⟩
    · refine ⟨c', hd, fun fuel hfuel => ?_⟩
      obtain ⟨k, rfl⟩ := Nat.exists_eq_add_of_lt hfuel
      exact hleave (n + k)
    · have hpos := Page.length_pos o hl.2
      have hlt := hl.lt
      obtain ⟨c'', hd, hrest⟩ := ih (n - 1) (by omega) hw' (by omega)
      refine ⟨c'', hd, fun fuel hfuel => ?_⟩
      obtain ⟨k, rfl⟩ := Nat.exists_eq_add_of_lt hfuel
      exact hgo (n + k) c'' (hrest (n + k) (by omega))

theorem Page.parseLen_eq (page : Page) :
    (if 512 < page.word 2 then 512 else (page.word 2).toNat) = page.parseLen := by
  have hlt : 512 < page.word 2 ↔ 512 < (page.word 2).toNat := UInt16.lt_iff_toNat_lt
  rw [Page.parseLen]
  split_ifs with h
  · exact (Nat.min_eq_right (hlt.1 h).le).symm
  · exact (Nat.min_eq_left (not_lt.1 fun hn => h (hlt.2 hn))).symm

/-- 513 passes are enough, and they find what the page describes -/
theorem parseConfig_spec (page : Page) : ∃ c, page.Describes c ∧
    ∀ fuel, 513 ≤ fuel → Safe (· < 4096) (parseConfig page fuel) c := by
  obtain ⟨c, hd, hloop⟩ := descriptorLoop_spec page.walked_start (show page.parseLen ≤ 0 + 512 by simp [page.parseLen_le])
  refine ⟨c, hd, fun fuel hfuel => ?_⟩
  rw [parseConfig, safe_wordAt, safe_byteAt, page.parseLen_eq]
  exact ⟨⟨by omega, by omega⟩, by omega, hloop fuel (by omega)⟩

end

/-- **Configuration descriptor.** Whatever bytes the device has sent, the loop ends, within 513 passes, and reads only inside
the page. Where an interrupt IN endpoint is listed, the first one is returned, with the class of the last interface before
it; otherwise the fields of the endpoint are 0 and the class is that of the last interface. The class is 0 without one. -/
theorem config_descriptor_spec (page : Page) :
    ∃ c, (∀ fuel, 513 ≤ fuel → Logged.Safe (· < 4096) (parseConfig page fuel) c) ∧ c.configValue = page 5 ∧
      ((∃ o, page.Endpoint o c) ∨ page.NoEndpoint c) := by
  obtain ⟨c, hd, hsafe⟩ := parseConfig_spec page
  exact ⟨c, hsafe, hd.configValue, hd.endpoint⟩

end Tomorrow.Usb.Dma
