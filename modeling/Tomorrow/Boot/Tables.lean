/-
The walks over firmware tables at boot (`kernel_main`, `pmm::init`, `parse_madt`).

Each of the three loops moves on by a length it reads from the table: the size of a multiboot2 tag rounded up to 8, the
entry size of the memory map, the length byte of a MADT entry. Memory is an arbitrary function from addresses to bytes and
the loops may run forever. They are walks in the sense of `Core/Loops`, so each ends, with a value or a panic, iff no
record it comes by has length zero.

The text that `parse_madt` prints is part of its result; on a regular framebuffer printing it always returns
(`Fb.applyAll_spec`).

Result: `table_walks_end_iff`.
-/
import Tomorrow.Core.Loops
import Tomorrow.Memory.Ranges
import Tomorrow.Shell.Framebuffer

namespace Tomorrow.Boot

open Tomorrow.Core Tomorrow.Files Tomorrow.Shell Tomorrow.Pmm

/-! ## Reading memory -/

/-- a little-endian number of n bytes -/
def readLe (mem : ℕ → UInt8) (addr : ℕ) : ℕ → ℕ
  | 0 => 0
  | n + 1 => (mem addr).toNat + 256 * readLe mem (addr + 1) n

def readU32 (mem : ℕ → UInt8) (addr : ℕ) : ℕ := readLe mem addr 4

def readU64 (mem : ℕ → UInt8) (addr : ℕ) : ℕ := readLe mem addr 8

/-! ## Multiboot2 tags -/

/-- the variables of `kernel_main` that the walk fills, and `CONSOLE` with the address of its framebuffer -/
structure BootInfo where
  xsdtAddr : ℕ
  mmapAddr : ℕ
  mmapSize : ℕ
  mmapEntrySize : ℕ
  modStart : ℕ
  modEnd : ℕ
  console : Option (ℕ × Fb)

def BootInfo.empty : BootInfo := ⟨0, 0, 0, 0, 0, 0, none⟩

section

variable (mem : ℕ → UInt8)

def tagTyp (p : ℕ) : ℕ := readU32 mem p

def tagSize (p : ℕ) : ℕ := readU32 mem (p + 4)

/-- `(tag.size as usize + 7) & !7` -/
def tagAligned (p : ℕ) : ℕ := andNot (tagSize mem p + 7) 7

/-- the console of a framebuffer tag, cleared and with the first lines on it -/
def openConsole (p : ℕ) : Except Panic (ℕ × Fb) :=
  Fb.clear ⟨readU32 mem (p + 16), readU32 mem (p + 20), readU32 mem (p + 24), 0, 0⟩ >>= fun r =>
  r.1.applyAll (bytesOps (str "Tomorrow OS\nIDT ok\nPIC off\n")) >>= fun r' => .ok (readU64 mem (p + 8), r'.1)

/-- the match on the type of the tag -/
def readTag (p : ℕ) (info : BootInfo) : Except Panic BootInfo :=
  if tagTyp mem p = 3 then .ok { info with modStart := readU32 mem (p + 8), modEnd := readU32 mem (p + 12) }
  else if tagTyp mem p = 6 then
    .ok { info with mmapAddr := p, mmapSize := tagSize mem p, mmapEntrySize := readU32 mem (p + 8) }
  else if tagTyp mem p = 8 then openConsole mem p >>= fun console => .ok { info with console := some console }
  else if tagTyp mem p = 15 then .ok { info with xsdtAddr := readU64 mem (p + 32) }
  else .ok info

/-- one pass of the loop; the pointer must not leave the address space -/
def tagBody (s : ℕ × BootInfo) : (ℕ × BootInfo) ⊕ Except Panic BootInfo :=
  if tagTyp mem s.1 = 0 then .inr (.ok s.2)
  else
    match readTag mem s.1 s.2 with
    | .error e => .inr (.error e)
    | .ok info =>
      if s.1 + tagAligned mem s.1 < 2 ^ 64 then .inl (s.1 + tagAligned mem s.1, info) else .inr (.error .overflow)

/-- the tag walk of `kernel_main` -/
def tagWalk (bootInfo fuel : ℕ) : Option (Except Panic BootInfo) :=
  if bootInfo + 8 < 2 ^ 64 then loop (tagBody mem) fuel (bootInfo + 8, BootInfo.empty) else some (.error .overflow)

end

/-! ## MADT -/

/-- what `parse_madt` finds and prints -/
structure MadtInfo where
  ioapicBase : ℕ
  timerGsi : UInt8
  printed : Bytes

def hexText (val : ℕ) : Bytes := (List.range 16).reverse.map fun i => hexDigit ((val >>> (i * 4)) &&& 0xF)

def MadtInfo.print (info : MadtInfo) (text : Bytes) : MadtInfo := { info with printed := info.printed ++ text }

section

variable (mem : ℕ → UInt8)

/-- the match on the type of the entry -/
def readMadtEntry (entry : ℕ) (info : MadtInfo) : MadtInfo :=
  if mem entry = 0 then
    info.print (str "CPU apic_id=" ++ hexText (mem (entry + 3)).toNat ++ str " flags=" ++
      hexText (readU32 mem (entry + 4)) ++ str "\n")
  else if mem entry = 1 then
    MadtInfo.print { info with
      ioapicBase := if readU32 mem (entry + 8) = 0 then readU32 mem (entry + 4) else info.ioapicBase }
      (str "IO APIC id=" ++ hexText (mem (entry + 2)).toNat ++ str " addr=" ++ hexText (readU32 mem (entry + 4)) ++ str "\n")
  else if mem entry = 2 then
    { info with timerGsi := if mem (entry + 3) = 0 then UInt8.ofNat (readU32 mem (entry + 4)) else info.timerGsi }
  else info

def madtLength (addr : ℕ) : ℕ := readU32 mem (addr + 4)

/-- the length byte of the entry at an offset -/
def madtEntryLength (addr offset : ℕ) : ℕ := (mem (addr + offset + 1)).toNat

/-- one pass of `while offset < length` -/
def madtBody (addr : ℕ) (s : ℕ × MadtInfo) : (ℕ × MadtInfo) ⊕ Except Panic MadtInfo :=
  if s.1 < madtLength mem addr then
    if addr + s.1 < 2 ^ 64 then .inl (s.1 + madtEntryLength mem addr s.1, readMadtEntry mem (addr + s.1) s.2)
    else .inr (.error .overflow)
  else .inr (.ok s.2)

/-- the local APIC address and what was found, from the values IOAPIC_BASE and TIMER_GSI had -/
def parseMadt (addr ioapicBase : ℕ) (timerGsi : UInt8) (fuel : ℕ) : Option (Except Panic (ℕ × MadtInfo)) :=
  if addr + 36 < 2 ^ 64 then
    (loop (madtBody mem addr) fuel (44, ⟨ioapicBase, timerGsi,
      str "Local APIC: " ++ hexText (readU32 mem (addr + 36)) ++ str "\n"⟩)).map fun r =>
        r.map fun info => (readU32 mem (addr + 36), info)
  else some (.error .overflow)

end

/-! ## Walks -/

section

variable {mem : ℕ → UInt8}

theorem readLe_lt (mem : ℕ → UInt8) (addr n : ℕ) : readLe mem addr n < 256 ^ n := by
  induction n generalizing addr with
  | zero => simp [readLe]
  | succ n ih =>
    have hb := (mem addr).toNat_lt
    have hrest := ih (addr + 1)
    rw [readLe, Nat.pow_succ]
    omega

theorem tagAligned_eq_zero {p : ℕ} : tagAligned mem p = 0 ↔ tagSize mem p = 0 := by
  have hlt : tagSize mem p < 256 ^ 4 := readLe_lt mem (p + 4) 4
  rw [tagAligned, show (7 : ℕ) = 2 ^ 3 - 1 from rfl, andNot_two_pow (by omega) (by decide)]
  omega

/-- the tags at which the walk is over: the end tag, a framebuffer whose console panics, the end of the address space -/
def TagStop (mem : ℕ → UInt8) (p : ℕ) : Prop :=
  tagTyp mem p = 0 ∨ (tagTyp mem p = 8 ∧ ∃ e, openConsole mem p = .error e) ∨ 2 ^ 64 ≤ p + tagAligned mem p

theorem readTag_cases (p : ℕ) (info : BootInfo) :
    (tagTyp mem p = 8 ∧ ∃ e, openConsole mem p = .error e ∧ readTag mem p info = .error e) ∨
      ¬ (tagTyp mem p = 8 ∧ ∃ e, openConsole mem p = .error e) ∧ ∃ info', readTag mem p info = .ok info' := by
  unfold readTag
  split_ifs with h3 h6 h8 h15
  · exact Or.inr ⟨by simp [h3], _, rfl⟩
  · exact Or.inr ⟨by simp [h6], _, rfl⟩
  · cases openConsole mem p with
    | error e => exact Or.inl ⟨h8, e, rfl, rfl⟩
    | ok console => exact Or.inr ⟨by simp, _, rfl⟩
  · exact Or.inr ⟨by simp [h8], _, rfl⟩
  · exact Or.inr ⟨by simp [h8], _, rfl⟩

theorem tagBody_stop {s : ℕ × BootInfo} (h : TagStop mem s.1) : ∃ a, tagBody mem s = .inr a := by
  unfold tagBody
  by_cases h0 : tagTyp mem s.1 = 0
  · exact ⟨_, if_pos h0⟩
  · rw [if_neg h0]
    rcases readTag_cases s.1 s.2 with ⟨-, e, -, hread⟩ | ⟨hno, info, hread⟩
    · exact ⟨.error e, by rw [hread]⟩
    · have hend : ¬ s.1 + tagAligned mem s.1 < 2 ^ 64 := not_lt.2 ((h.resolve_left h0).resolve_left hno)
      exact ⟨.error .overflow, by simp only [hread, if_neg hend]⟩

theorem tagBody_next {s : ℕ × BootInfo} (h : ¬ TagStop mem s.1) :
    ∃ s', tagBody mem s = .inl s' ∧ s'.1 = s.1 + tagAligned mem s.1 := by
  obtain ⟨h0, h⟩ := not_or.1 h
  obtain ⟨hconsole, hend⟩ := not_or.1 h
  rcases readTag_cases s.1 s.2 with ⟨h8, e, he, -⟩ | ⟨-, info, hread⟩
  · exact absurd ⟨h8, e, he⟩ hconsole
  · refine ⟨(s.1 + tagAligned mem s.1, info), ?_, rfl⟩
    rw [tagBody, if_neg h0]
    simp only [hread, if_pos (not_le.1 hend)]

/-- **Tags.** The walk ends iff no tag it comes by has size 0. -/
theorem tagWalk_ends_iff (mem : ℕ → UInt8) (bootInfo : ℕ) : (∃ fuel r, tagWalk mem bootInfo fuel = some r) ↔
    ∀ p, Chain (TagStop mem) (tagAligned mem) (bootInfo + 8) p → ¬ TagStop mem p → tagSize mem p ≠ 0 := by
  have hbound : ∀ p, ¬ TagStop mem p → p < 2 ^ 64 := fun p h => by
    have hend := (not_or.1 (not_or.1 h).2).2
    omega
  have hwalk := walk_terminates_iff (s := (bootInfo + 8, BootInfo.empty)) _ (fun _ => tagBody_stop) (fun _ => tagBody_next)
    hbound
  simp only [ne_eq, tagAligned_eq_zero] at hwalk
  unfold tagWalk
  split_ifs with hstart
  · exact hwalk
  · refine iff_of_true ⟨0, _, rfl⟩ fun p hp hns => ?_
    have hstop : TagStop mem (bootInfo + 8) := Or.inr (Or.inr ((not_lt.1 hstart).trans (Nat.le_add_right _ _)))
    exact absurd (hp.eq_of_stop hstop ▸ hstop) hns

/-- the offsets at which the walk is over: behind the table, or outside the address space -/
def MadtStop (mem : ℕ → UInt8) (addr offset : ℕ) : Prop := madtLength mem addr ≤ offset ∨ 2 ^ 64 ≤ addr + offset

/-- **MADT.** The walk ends iff no entry it comes by has length 0. -/
theorem parseMadt_ends_iff (mem : ℕ → UInt8) (addr ioapicBase : ℕ) (timerGsi : UInt8) :
    (∃ fuel r, parseMadt mem addr ioapicBase timerGsi fuel = some r) ↔
      ∀ o, Chain (MadtStop mem addr) (madtEntryLength mem addr) 44 o → ¬ MadtStop mem addr o →
        madtEntryLength mem addr o ≠ 0 := by
  have hstop : ∀ s : ℕ × MadtInfo, MadtStop mem addr s.1 → ∃ a, madtBody mem addr s = .inr a := by
    intro s h
    unfold madtBody
    split_ifs with hlt hin
    · rcases h with h | h <;> omega
    · exact ⟨_, rfl⟩
    · exact ⟨_, rfl⟩
  have hgo : ∀ s : ℕ × MadtInfo, ¬ MadtStop mem addr s.1 →
      ∃ s', madtBody mem addr s = .inl s' ∧ s'.1 = s.1 + madtEntryLength mem addr s.1 := by
    intro s h
    obtain ⟨hlt, hin⟩ := not_or.1 h
    exact ⟨_, by rw [madtBody, if_pos (not_le.1 hlt), if_pos (not_le.1 hin)], rfl⟩
  have hbound : ∀ o, ¬ MadtStop mem addr o → o < madtLength mem addr := fun o h => not_le.1 (not_or.1 h).1
  unfold parseMadt
  split_ifs with hstart
  · rw [terminates_map]
    exact walk_terminates_iff _ hstop hgo hbound
  · refine iff_of_true ⟨0, _, rfl⟩ fun o ho hns => ?_
    have hend : MadtStop mem addr 44 := Or.inr (by omega)
    exact absurd (ho.eq_of_stop hend ▸ hend) hns

end

/-! ## The memory map -/

/-- the loop over the pages of an entry runs into the end of the address space -/
def Overflows (e : MbMemoryEntry) : Prop :=
  e.typ = 1 ∧ (2 ^ 64 ≤ e.baseAddr + e.length ∨
    ∃ j, (j = 0 ∨ e.first + 4096 * j ≤ e.baseAddr + e.length) ∧ 2 ^ 64 ≤ e.first + 4096 * (j + 1))

/-- the pages behind the first one -/
theorem pages_shift {addr lim : ℕ} (h : addr + 4096 ≤ lim) (hlim : lim < 2 ^ 64) :
    (∃ j, (j = 0 ∨ addr + 4096 + 4096 * j ≤ lim) ∧ 2 ^ 64 ≤ addr + 4096 + 4096 * (j + 1)) ↔
      ∃ j, (j = 0 ∨ addr + 4096 * j ≤ lim) ∧ 2 ^ 64 ≤ addr + 4096 * (j + 1) := by
  constructor
  · rintro ⟨j, hj, hend⟩
    refine ⟨j + 1, Or.inr ?_, ?_⟩
    · rcases hj with rfl | hj
      · exact h
      · linarith
    · linarith
  · rintro ⟨j, hj, hend⟩
    obtain ⟨i, rfl⟩ : ∃ i, j = i + 1 := ⟨j - 1, by rcases hj with rfl | hj <;> omega⟩
    exact ⟨i, Or.inr (by linarith [hj.resolve_left (Nat.succ_ne_zero i)]), by linarith⟩

theorem freeLoop_error_iff {e : MbMemoryEntry} (addr : ℕ) (m : Words) : (∃ x, freeLoop e addr m = .error x) ↔
    2 ^ 64 ≤ e.baseAddr + e.length ∨
      ∃ j, (j = 0 ∨ addr + 4096 * j ≤ e.baseAddr + e.length) ∧ 2 ^ 64 ≤ addr + 4096 * (j + 1) := by
  induction addr, m using freeLoop.induct e with
  | case1 addr m h hle ih =>
    rw [freeLoop_step m h.2 hle, ih, nextPage_eq]
    rw [nextPage_eq] at hle
    exact or_congr Iff.rfl (pages_shift hle h.2)
  | case2 addr m h hgt =>
    rw [freeLoop_done m h.2 h.1 (not_le.1 hgt)]
    rw [nextPage_eq] at h hgt
    refine iff_of_false (by simp) ?_
    rintro (hend | ⟨j, rfl | hj, hend⟩)
    · omega
    · omega
    · obtain rfl | hpos := Nat.eq_zero_or_pos j <;> omega
  | case3 addr m h =>
    rw [freeLoop, if_neg h]
    rw [nextPage_eq] at h
    refine iff_of_true ⟨_, rfl⟩ ?_
    by_cases hlim : e.baseAddr + e.length < 2 ^ 64
    · exact Or.inr ⟨0, Or.inl rfl, by omega⟩
    · exact Or.inl (not_lt.1 hlim)

theorem freeEntry_error_iff (e : MbMemoryEntry) (m : Words) : (∃ x, freeEntry e m = .error x) ↔ Overflows e := by
  unfold freeEntry Overflows
  by_cases ht : e.typ = 1
  · rw [if_pos ht, and_iff_right ht]
    exact freeLoop_error_iff e.first m
  · rw [if_neg ht]
    exact iff_of_false (by simp) fun h => ht h.1

/-- one pass of the loop of `pmm::init` -/
def initBody (entryAt : ℕ → MbMemoryEntry) (entriesLen entrySize : ℕ) (s : ℕ × Words) : (ℕ × Words) ⊕ Except Panic Words :=
  if s.1 < entriesLen then
    match freeEntry (entryAt s.1) s.2 with
    | .error e => .inr (.error e)
    | .ok m => if s.1 + entrySize < 2 ^ 32 then .inl (s.1 + entrySize, m) else .inr (.error .overflow)
  else .inr (.ok s.2)

section

variable {entryAt : ℕ → MbMemoryEntry} {entriesLen entrySize : ℕ}

theorem initLoop_eq (fuel offset : ℕ) (m : Words) :
    initLoop entryAt entriesLen entrySize fuel offset m = loop (initBody entryAt entriesLen entrySize) fuel (offset, m) := by
  induction fuel generalizing offset m with
  | zero => rfl
  | succ fuel ih =>
    rw [initLoop, loop, initBody]
    by_cases hlt : offset < entriesLen
    · rw [if_pos hlt, if_pos hlt]
      cases freeEntry (entryAt offset) m with
      | error e => rfl
      | ok m' =>
        by_cases hfit : offset + entrySize < 2 ^ 32
        · simp only [if_pos hfit]
          exact ih _ _
        · simp only [if_neg hfit]
    · rw [if_neg hlt, if_neg hlt]

/-- the offsets at which the walk is over: behind the map, at an entry that overflows, or where the offset itself does -/
def MapStop (entryAt : ℕ → MbMemoryEntry) (entriesLen entrySize offset : ℕ) : Prop :=
  entriesLen ≤ offset ∨ Overflows (entryAt offset) ∨ 2 ^ 32 ≤ offset + entrySize

theorem initBody_stop {s : ℕ × Words} (h : MapStop entryAt entriesLen entrySize s.1) :
    ∃ a, initBody entryAt entriesLen entrySize s = .inr a := by
  unfold initBody
  by_cases hlt : s.1 < entriesLen
  · rw [if_pos hlt]
    cases hfree : freeEntry (entryAt s.1) s.2 with
    | error e => exact ⟨_, rfl⟩
    | ok m =>
      have hno : ¬ Overflows (entryAt s.1) := by
        rw [← freeEntry_error_iff _ s.2, hfree]
        simp
      have hend := (h.resolve_left (not_le.2 hlt)).resolve_left hno
      exact ⟨_, if_neg (not_lt.2 hend)⟩
  · exact ⟨_, if_neg hlt⟩

theorem initBody_next {s : ℕ × Words} (h : ¬ MapStop entryAt entriesLen entrySize s.1) :
    ∃ s', initBody entryAt entriesLen entrySize s = .inl s' ∧ s'.1 = s.1 + entrySize := by
  obtain ⟨hlt, h⟩ := not_or.1 h
  obtain ⟨hno, hend⟩ := not_or.1 h
  cases hfree : freeEntry (entryAt s.1) s.2 with
  | error e => exact absurd ((freeEntry_error_iff _ s.2).1 ⟨e, hfree⟩) hno
  | ok m =>
    refine ⟨(s.1 + entrySize, m), ?_, rfl⟩
    rw [initBody, if_pos (not_le.1 hlt), hfree]
    exact if_pos (not_le.1 hend)

end

/-- **Memory map.** `pmm::init` returns or panics iff the entries have a size, or there are none, or the first one makes it
panic. -/
theorem init_ends_iff (k : Image) (entryAt : ℕ → MbMemoryEntry) {mmapSize : ℕ} (entrySize : ℕ) (h16 : 16 ≤ mmapSize) :
    (∃ fuel r, Pmm.init k entryAt mmapSize entrySize fuel = some r) ↔
      entrySize ≠ 0 ∨ mmapSize = 16 ∨ Overflows (entryAt 0) := by
  unfold Pmm.init
  simp only [if_neg (not_lt.2 h16), initLoop_eq]
  rw [terminates_map, walk_terminates_iff (fun _ => entrySize) (fun _ => initBody_stop) (fun _ => initBody_next)
    (fun o h => not_le.1 (not_or.1 h).1)]
  constructor
  · intro h
    by_contra hno
    obtain ⟨h0, hno⟩ := not_or.1 hno
    obtain ⟨hsize, hover⟩ := not_or.1 hno
    refine absurd (h 0 .start ?_) h0
    rintro (hend | hend | hend)
    · omega
    · exact hover hend
    · omega
  · rintro h o ho hns hzero
    have hstop : MapStop entryAt (mmapSize - 16) entrySize 0 :=
      (h.resolve_left (not_not.2 hzero)).imp (fun h => by omega) Or.inl
    exact hns (ho.eq_of_stop hstop ▸ hstop)

/-- **Table walks.** For every content of memory and of the memory map, each of the three walks ends iff no record that it
comes by has length zero: the tags from the boot information on, up to the end tag; the entries of the memory map, which
all have the one size that its header names; the entries of the MADT from offset 44 on, up to its length. A walk also ends
when it panics, on a framebuffer too large for the console or at the end of the address space. -/
theorem table_walks_end_iff (mem : ℕ → UInt8) (bootInfo : ℕ) (k : Image) (entryAt : ℕ → MbMemoryEntry)
    (mmapSize entrySize : ℕ) (h16 : 16 ≤ mmapSize) (addr ioapicBase : ℕ) (timerGsi : UInt8) :
    ((∃ fuel r, tagWalk mem bootInfo fuel = some r) ↔
      ∀ p, Chain (TagStop mem) (tagAligned mem) (bootInfo + 8) p → ¬ TagStop mem p → tagSize mem p ≠ 0) ∧
    ((∃ fuel r, Pmm.init k entryAt mmapSize entrySize fuel = some r) ↔
      entrySize ≠ 0 ∨ mmapSize = 16 ∨ Overflows (entryAt 0)) ∧
    ((∃ fuel r, parseMadt mem addr ioapicBase timerGsi fuel = some r) ↔
      ∀ o, Chain (MadtStop mem addr) (madtEntryLength mem addr) 44 o → ¬ MadtStop mem addr o →
        madtEntryLength mem addr o ≠ 0) :=
  ⟨tagWalk_ends_iff mem bootInfo, init_ends_iff k entryAt entrySize h16, parseMadt_ends_iff mem addr ioapicBase timerGsi⟩

/-- boot information: a command line, a module, a memory map of two entries, and the end tag -/
def demoTags : List UInt8 :=
  [112, 0, 0, 0, 0, 0, 0, 0,
    1, 0, 0, 0, 11, 0, 0, 0, 0x61, 0x62, 0, 0, 0, 0, 0, 0,
    3, 0, 0, 0, 16, 0, 0, 0, 0, 0, 0x30, 0, 0, 8, 0x30, 0,
    6, 0, 0, 0, 64, 0, 0, 0, 24, 0, 0, 0, 0, 0, 0, 0,
    0, 0, 0x20, 0, 0, 0, 0, 0, 0, 0x20, 0, 0, 0, 0, 0, 0, 1, 0, 0, 0, 0, 0, 0, 0,
    0, 0, 0x40, 0, 0, 0, 0, 0, 0, 0x10, 0, 0, 0, 0, 0, 0, 2, 0, 0, 0, 0, 0, 0, 0,
    0, 0, 0, 0, 8, 0, 0, 0]

/-- the entries of a MADT of 74 bytes: a processor, an IO APIC and the line of the timer -/
def demoMadt : List UInt8 :=
  [0, 8, 0, 0, 1, 0, 0, 0, 1, 12, 4, 0, 0, 0, 0xC0, 0xFE, 0, 0, 0, 0, 2, 10, 0, 0, 2, 0, 0, 0, 0, 0]

/-- the tags are at 64 KB, the MADT at 128 KB -/
def demoTables (addr : ℕ) : UInt8 :=
  if addr < 0x20000 then demoTags.getD (addr - 0x10000) 0
  else if addr = 0x20004 then 74
  else if addr < 0x2002C then 0
  else demoMadt.getD (addr - 0x2002C) 0

/-- the entries of the memory map, as they lie behind its header -/
def demoEntry (offset : ℕ) : MbMemoryEntry :=
  ⟨readU64 demoTables (0x10038 + offset), readU64 demoTables (0x10040 + offset), readU32 demoTables (0x10048 + offset)⟩

/-- four tags, two entries of the map and three of the MADT -/
theorem table_walks_end_iff_demo : (∃ fuel r, tagWalk demoTables 0x10000 fuel = some r) ∧
    (∃ fuel r, Pmm.init smallImage demoEntry 64 24 fuel = some r) ∧
    ∃ fuel r, parseMadt demoTables 0x20000 0 0 fuel = some r := by
  obtain ⟨htags, hmap, hmadt⟩ := table_walks_end_iff demoTables 0x10000 smallImage demoEntry 64 24 (by decide) 0x20000 0 0
  refine ⟨htags.2 fun p hp hns => ?_, hmap.2 (Or.inl (by decide)), hmadt.2 fun o ho hns => ?_⟩
  · have hnext : ∀ p ∈ [0x10008, 0x10018, 0x10028, 0x10068], tagTyp demoTables p = 0 ∨
        p + tagAligned demoTables p ∈ [0x10008, 0x10018, 0x10028, 0x10068] := by decide +kernel
    have hmem := hp.mem (by decide) fun p hp => (hnext p hp).imp_left Or.inl
    have hsize : ∀ p ∈ [0x10008, 0x10018, 0x10028, 0x10068], tagSize demoTables p ≠ 0 := by decide +kernel
    exact hsize p hmem
  · have hnext : ∀ o ∈ [44, 52, 64, 74], madtLength demoTables 0x20000 ≤ o ∨
        o + madtEntryLength demoTables 0x20000 o ∈ [44, 52, 64, 74] := by decide +kernel
    have hmem := ho.mem (by decide) fun o ho => (hnext o ho).imp_left Or.inl
    have hlen : ∀ o ∈ [44, 52, 64, 74], madtLength demoTables 0x20000 ≤ o ∨ madtEntryLength demoTables 0x20000 o ≠ 0 := by
      decide +kernel
    exact (hlen o hmem).resolve_left fun hend => hns (Or.inl hend)

/-- boot information at 64 KB with a tag of type 1 and size 0, and the end tag behind its eight bytes -/
def zeroSizeTag (addr : ℕ) : UInt8 := if addr = 0x10008 then 1 else 0

/-- a MADT at 128 KB of 52 bytes, all entries zero -/
def zeroMadt (addr : ℕ) : UInt8 := if addr = 0x20004 then 52 else 0

/-- none of the three walks gets past a record of length 0 -/
theorem zero_lengths_hang :
    (tagTyp zeroSizeTag 0x10010 = 0 ∧ ¬ ∃ fuel r, tagWalk zeroSizeTag 0x10000 fuel = some r) ∧
    (¬ ∃ fuel r, Pmm.init smallImage (fun _ => ⟨0x200000, 0x2000, 2⟩) 40 0 fuel = some r) ∧
    ¬ ∃ fuel r, parseMadt zeroMadt 0x20000 0 0 fuel = some r := by
  refine ⟨⟨by decide, fun h => ?_⟩, fun h => ?_, fun h => ?_⟩
  · refine (tagWalk_ends_iff zeroSizeTag 0x10000).1 h 0x10008 .start ?_ (by decide)
    rintro (hend | ⟨h8, -⟩ | hend)
    · exact absurd hend (by decide)
    · exact absurd h8 (by decide)
    · exact absurd hend (by decide)
  · rcases (init_ends_iff _ _ _ (by decide)).1 h with h | h | h
    · exact h rfl
    · exact absurd h (by decide)
    · exact absurd h.1 (by decide)
  · refine (parseMadt_ends_iff zeroMadt 0x20000 0 0).1 h 44 .start ?_ (by decide)
    rintro (hend | hend) <;> exact absurd hend (by decide)

end Tomorrow.Boot
