/-
The search for `\_S5` in the DSDT (`parse_s5` and `read_aml_byte` of `main.rs`).

The DSDT is a byte string of the firmware with its own length in the header. `parse_s5` slides a window of four bytes over
it, and where the window shows `_S5_` with a PackageOp behind it, it takes the two sleep types out of the package. The
bytes it reads are logged by their offset in the table.

The guard of the scan, `i + 5 < len`, is enough for the window, the PackageOp and the lead byte of PkgLength. The elements
begin two to five bytes behind the lead byte and have one or two bytes each: nothing checks them against the length.
- `safe_scan_miss`, `safe_scan_skip`: the scan as far as the first match stays in the table;
- `safe_scan_hit`: from there on it reads the lead byte and the two elements;
- `parseS5_returns`: it always returns, and never reads more than eight bytes behind the table.

Result: `aml_scan_in_table_iff`.
-/
import Tomorrow.Core.Logged
import Tomorrow.Boot.Tables

namespace Tomorrow.Boot

open Tomorrow.Core Tomorrow.Files Tomorrow.Shell

/-! ## The scan -/

section

variable (mem : ℕ → UInt8) (dsdt : ℕ)

/-- `*base.add(o)`; the pointer must not leave the address space -/
def amlByte (o : ℕ) : Logged ℕ UInt8 := if dsdt + o < 2 ^ 64 then .note o (mem (dsdt + o)) else .stop

/-- the length field, at offsets 4 to 7 -/
def readLen : Logged ℕ ℕ := do
  let a ← amlByte mem dsdt 4
  let b ← amlByte mem dsdt 5
  let c ← amlByte mem dsdt 6
  let d ← amlByte mem dsdt 7
  pure (a.toNat + 256 * (b.toNat + 256 * (c.toNat + 256 * d.toNat)))

/-- `from_raw_parts(base.add(i), 4)`, all of it read by the comparison -/
def readWindow (i : ℕ) : Logged ℕ Bytes := do
  let a ← amlByte mem dsdt i
  let b ← amlByte mem dsdt (i + 1)
  let c ← amlByte mem dsdt (i + 2)
  let d ← amlByte mem dsdt (i + 3)
  pure [a, b, c, d]

/-- `read_aml_byte`: the value and the moved cursor -/
def readAmlByte (p : ℕ) : Logged ℕ (UInt8 × ℕ) := do
  let op ← amlByte mem dsdt p
  if op = 0x00 then pure (0, p + 1)
  else if op = 0x01 then pure (1, p + 1)
  else if op = 0x0A then do
    let v ← amlByte mem dsdt (p + 1)
    pure (v, p + 2)
  else pure (op, p + 1)

/-- from behind the PackageOp on: PkgLength, NumElements, the first two elements -/
def readPackage (p : ℕ) : Logged ℕ (UInt8 × UInt8) := do
  let lead ← amlByte mem dsdt p
  let a ← readAmlByte mem dsdt (p + (1 + (lead >>> 6).toNat) + 1)
  let b ← readAmlByte mem dsdt a.2
  pure (a.1 &&& 7, b.1 &&& 7)

/-- `while i + 5 < len`, of which len - 5 - i passes are left -/
def scanS5 : ℕ → ℕ → Logged ℕ (Option (UInt8 × UInt8))
  | 0, _ => pure none
  | n + 1, i => do
    let win ← readWindow mem dsdt i
    if win = str "_S5_" then do
      let op ← amlByte mem dsdt (i + 4)
      if op ≠ 0x12 then scanS5 n (i + 1)
      else do
        let r ← readPackage mem dsdt (i + 5)
        pure (some r)
    else scanS5 n (i + 1)

def parseS5 : Logged ℕ (Option (UInt8 × UInt8)) :=
  if dsdt = 0 then pure none
  else do
    let len ← readLen mem dsdt
    scanS5 mem dsdt (len - 5) 0

/-! ## What is in the table -/

def tableLen : ℕ := readU32 mem (dsdt + 4)

def window (i : ℕ) : Bytes :=
  [mem (dsdt + i), mem (dsdt + (i + 1)), mem (dsdt + (i + 2)), mem (dsdt + (i + 3))]

/-- `_S5_` with a PackageOp behind it, where the scan gets to see it -/
def S5At (i : ℕ) : Prop :=
  i + 5 < tableLen mem dsdt ∧ window mem dsdt i = str "_S5_" ∧ mem (dsdt + (i + 4)) = 0x12

instance (i : ℕ) : Decidable (S5At mem dsdt i) := inferInstanceAs (Decidable (_ ∧ _))

structure FirstS5 (i : ℕ) : Prop where
  found : S5At mem dsdt i
  first : ∀ j < i, ¬ S5At mem dsdt j

/-- the bytes an element takes: two behind a BytePrefix, else one -/
def elementSize (p : ℕ) : ℕ := if mem (dsdt + p) = 0x0A then 2 else 1

def elementValue (p : ℕ) : UInt8 := if mem (dsdt + p) = 0x0A then mem (dsdt + (p + 1)) else mem (dsdt + p)

/-- the offset of the first element of the package of an `_S5_` at i, behind PkgLength and NumElements -/
def firstElement (i : ℕ) : ℕ := i + 5 + (1 + (mem (dsdt + (i + 5)) >>> 6).toNat) + 1

def secondElement (i : ℕ) : ℕ := firstElement mem dsdt i + elementSize mem dsdt (firstElement mem dsdt i)

/-- the offset behind the second element -/
def elementsEnd (i : ℕ) : ℕ := secondElement mem dsdt i + elementSize mem dsdt (secondElement mem dsdt i)

def sleepTypes (i : ℕ) : UInt8 × UInt8 :=
  (elementValue mem dsdt (firstElement mem dsdt i) &&& 7, elementValue mem dsdt (secondElement mem dsdt i) &&& 7)

end

/-! ## What is read -/

section

open Logged

variable {mem : ℕ → UInt8} {dsdt : ℕ} {P : ℕ → Prop} {β : Type} {b : β}

theorem safe_amlByte {o : ℕ} (h : dsdt + o < 2 ^ 64) {f : UInt8 → Logged ℕ β} :
    Safe P (amlByte mem dsdt o >>= f) b ↔ P o ∧ Safe P (f (mem (dsdt + o))) b := by
  rw [amlByte, if_pos h]
  exact safe_bind_of fun _ => safe_note

theorem safe_readLen (h : dsdt + 7 < 2 ^ 64) {r : ℕ} :
    Safe P (readLen mem dsdt) r ↔ (P 4 ∧ P 5 ∧ P 6 ∧ P 7) ∧ tableLen mem dsdt = r := by
  have hlen : tableLen mem dsdt = (mem (dsdt + 4)).toNat + 256 * ((mem (dsdt + 5)).toNat +
      256 * ((mem (dsdt + 6)).toNat + 256 * (mem (dsdt + 7)).toNat)) := rfl
  unfold readLen
  rw [safe_amlByte (by omega), safe_amlByte (by omega), safe_amlByte (by omega), safe_amlByte h, safe_pure, hlen]
  simp only [and_assoc]

theorem safe_readWindow {i : ℕ} (h : dsdt + (i + 3) < 2 ^ 64) {r : Bytes} :
    Safe P (readWindow mem dsdt i) r ↔ (P i ∧ P (i + 1) ∧ P (i + 2) ∧ P (i + 3)) ∧ window mem dsdt i = r := by
  unfold readWindow
  rw [safe_amlByte (by omega), safe_amlByte (by omega), safe_amlByte (by omega), safe_amlByte h, safe_pure, window]
  simp only [and_assoc]

theorem elementSize_bounds (mem : ℕ → UInt8) (dsdt p : ℕ) : 1 ≤ elementSize mem dsdt p ∧ elementSize mem dsdt p ≤ 2 := by
  unfold elementSize
  split_ifs <;> decide

/-- the opcodes of zero and one are their values -/
theorem safe_readAmlByte {p : ℕ} (h : dsdt + (p + 1) < 2 ^ 64) {r : UInt8 × ℕ} :
    Safe P (readAmlByte mem dsdt p) r ↔
      (∀ o, p ≤ o → o < p + elementSize mem dsdt p → P o) ∧ (elementValue mem dsdt p, p + elementSize mem dsdt p) = r := by
  have hone : (∀ o, p ≤ o → o < p + 1 → P o) ↔ P p :=
    ⟨fun ho => ho p (le_refl p) (by omega), fun hp o h1 h2 => (show o = p by omega) ▸ hp⟩
  have htwo : (∀ o, p ≤ o → o < p + 2 → P o) ↔ P p ∧ P (p + 1) := by
    refine ⟨fun ho => ⟨ho p (le_refl p) (by omega), ho (p + 1) (by omega) (by omega)⟩, fun hp o h1 h2 => ?_⟩
    obtain rfl | rfl : o = p ∨ o = p + 1 := by omega
    · exact hp.1
    · exact hp.2
  unfold readAmlByte elementSize elementValue
  rw [safe_amlByte (by omega)]
  by_cases hten : mem (dsdt + p) = 0x0A
  · simp only [hten, if_true]
    rw [if_neg (by decide), if_neg (by decide), safe_amlByte h, safe_pure, htwo, and_assoc]
  · rw [if_neg hten, if_neg hten, if_neg hten, hone]
    split_ifs with h0 h1
    · rw [safe_pure, h0]
    · rw [safe_pure, h1]
    · rw [safe_pure]

theorem tableLen_lt (mem : ℕ → UInt8) (dsdt : ℕ) : tableLen mem dsdt < 2 ^ 32 := readLe_lt mem (dsdt + 4) 4

/-- where the elements may stand: PkgLength has up to three bytes behind its lead byte, an element one or two -/
theorem element_bounds (mem : ℕ → UInt8) (dsdt i : ℕ) :
    i + 7 ≤ firstElement mem dsdt i ∧ firstElement mem dsdt i < secondElement mem dsdt i ∧
      secondElement mem dsdt i ≤ i + 12 ∧ secondElement mem dsdt i < elementsEnd mem dsdt i ∧
      elementsEnd mem dsdt i ≤ secondElement mem dsdt i + 2 := by
  have hlead := (mem (dsdt + (i + 5))).toNat_lt
  have hshift : (mem (dsdt + (i + 5)) >>> 6).toNat = (mem (dsdt + (i + 5))).toNat / 2 ^ 6 := by
    rw [UInt8.toNat_shiftRight, Nat.shiftRight_eq_div_pow]
    rfl
  have hfirst : firstElement mem dsdt i = i + 5 + (1 + (mem (dsdt + (i + 5))).toNat / 2 ^ 6) + 1 := by
    rw [firstElement, hshift]
  obtain ⟨h1, h2⟩ := elementSize_bounds mem dsdt (firstElement mem dsdt i)
  obtain ⟨h3, h4⟩ := elementSize_bounds mem dsdt (secondElement mem dsdt i)
  have hsecond : secondElement mem dsdt i = firstElement mem dsdt i + elementSize mem dsdt (firstElement mem dsdt i) := rfl
  have hend : elementsEnd mem dsdt i = secondElement mem dsdt i + elementSize mem dsdt (secondElement mem dsdt i) := rfl
  omega

theorem safe_readPackage {i : ℕ} (h : dsdt + (i + 13) < 2 ^ 64) {r : UInt8 × UInt8} :
    Safe P (readPackage mem dsdt (i + 5)) r ↔
      (P (i + 5) ∧ ∀ o, firstElement mem dsdt i ≤ o → o < elementsEnd mem dsdt i → P o) ∧ sleepTypes mem dsdt i = r := by
  obtain ⟨h1, h2, h3, h4, h5⟩ := element_bounds mem dsdt i
  unfold readPackage
  rw [safe_amlByte (by omega), ← firstElement, safe_bind_of fun _ => safe_readAmlByte (by omega), ← secondElement,
    safe_bind_of fun _ => safe_readAmlByte (by omega), ← elementsEnd, safe_pure, sleepTypes]
  have hsplit : (∀ o, firstElement mem dsdt i ≤ o → o < elementsEnd mem dsdt i → P o) ↔
      (∀ o, firstElement mem dsdt i ≤ o → o < secondElement mem dsdt i → P o) ∧
        ∀ o, secondElement mem dsdt i ≤ o → o < elementsEnd mem dsdt i → P o := by
    constructor
    · exact fun ho => ⟨fun o ha hb => ho o ha (by omega), fun o ha hb => ho o (by omega) hb⟩
    · rintro ⟨hl, hr⟩ o ha hb
      rcases lt_or_ge o (secondElement mem dsdt i) with hlt | hge
      · exact hl o ha hlt
      · exact hr o hge hb
  rw [hsplit]
  simp only [and_assoc]

/-! ## The run -/

variable {n i : ℕ} {r : Option (UInt8 × UInt8)}

/-- where a pass is made, the window is inside the table -/
theorem safe_window (hd : dsdt < 2 ^ 32) (hP : ∀ o < tableLen mem dsdt, P o) (hi : i + 5 < tableLen mem dsdt)
    {f : Bytes → Logged ℕ β} : Safe P (readWindow mem dsdt i >>= f) b ↔ Safe P (f (window mem dsdt i)) b := by
  have hlen := tableLen_lt mem dsdt
  rw [safe_bind_of fun _ => safe_readWindow (by omega)]
  exact and_iff_right ⟨hP i (by omega), hP (i + 1) (by omega), hP (i + 2) (by omega), hP (i + 3) (by omega)⟩

/-- one pass at which there is no match -/
theorem safe_scan_miss (hd : dsdt < 2 ^ 32) (hP : ∀ o < tableLen mem dsdt, P o) (hi : i + 5 < tableLen mem dsdt)
    (hno : ¬ S5At mem dsdt i) : Safe P (scanS5 mem dsdt (n + 1) i) r ↔ Safe P (scanS5 mem dsdt n (i + 1)) r := by
  have hlen := tableLen_lt mem dsdt
  rw [scanS5, safe_window hd hP hi]
  split_ifs with hs5
  · -- a false match: the name without a package
    have hop : mem (dsdt + (i + 4)) ≠ 0x12 := fun hop => hno ⟨hi, hs5, hop⟩
    rw [safe_amlByte (by omega), and_iff_right (hP (i + 4) (by omega)), if_pos hop]
  · exact Iff.rfl

/-- any number of passes without a match -/
theorem safe_scan_skip (hd : dsdt < 2 ^ 32) (hP : ∀ o < tableLen mem dsdt, P o) (i d : ℕ)
    (hi : i + d + 5 ≤ tableLen mem dsdt) (hno : ∀ j, i ≤ j → j < i + d → ¬ S5At mem dsdt j) :
    Safe P (scanS5 mem dsdt (d + n) i) r ↔ Safe P (scanS5 mem dsdt n (i + d)) r := by
  induction d generalizing i with
  | zero => rw [Nat.zero_add, Nat.add_zero]
  | succ d ih =>
    have hrest := ih (i + 1) (by omega) fun j h1 h2 => hno j (by omega) (by omega)
    rw [Nat.succ_add, safe_scan_miss hd hP (by omega) (hno i (le_refl i) (by omega)), hrest, Nat.add_right_comm]
    exact Iff.rfl

/-- the pass at the match -/
theorem safe_scan_hit (hd : dsdt < 2 ^ 32) (hP : ∀ o < tableLen mem dsdt, P o) (hi : S5At mem dsdt i) :
    Safe P (scanS5 mem dsdt (n + 1) i) r ↔
      (∀ o, firstElement mem dsdt i ≤ o → o < elementsEnd mem dsdt i → P o) ∧ some (sleepTypes mem dsdt i) = r := by
  have hlen := tableLen_lt mem dsdt
  obtain ⟨hlt, hs5, hop⟩ := hi
  rw [scanS5, safe_window hd hP hlt, if_pos hs5, safe_amlByte (by omega), and_iff_right (hP (i + 4) (by omega)),
    if_neg (not_not.2 hop), safe_bind_of fun _ => safe_readPackage (by omega), and_iff_right (hP (i + 5) hlt), safe_pure]

theorem safe_parseS5_first (h0 : dsdt ≠ 0) (hd : dsdt < 2 ^ 32) (hP : ∀ o < tableLen mem dsdt, P o)
    (hfield : P 4 ∧ P 5 ∧ P 6 ∧ P 7) (hi : FirstS5 mem dsdt i) : Safe P (parseS5 mem dsdt) r ↔
      (∀ o, firstElement mem dsdt i ≤ o → o < elementsEnd mem dsdt i → P o) ∧ some (sleepTypes mem dsdt i) = r := by
  have hlt := hi.found.1
  have hpasses : tableLen mem dsdt - 5 = i + (tableLen mem dsdt - 5 - i - 1 + 1) := by omega
  rw [parseS5, if_neg h0, safe_bind_of fun _ => safe_readLen (by omega), and_iff_right hfield, hpasses,
    safe_scan_skip hd hP 0 i (by omega) fun j _ hj => hi.first j (by omega), Nat.zero_add, safe_scan_hit hd hP hi.found]

theorem safe_parseS5_none (h0 : dsdt ≠ 0) (hd : dsdt < 2 ^ 32) (hP : ∀ o < tableLen mem dsdt, P o)
    (hfield : P 4 ∧ P 5 ∧ P 6 ∧ P 7) (hno : ∀ j, ¬ S5At mem dsdt j) : Safe P (parseS5 mem dsdt) none := by
  rw [parseS5, if_neg h0, safe_bind_of fun _ => safe_readLen (by omega), and_iff_right hfield]
  by_cases hshort : tableLen mem dsdt < 5
  · rw [show tableLen mem dsdt - 5 = 0 by omega]
    exact safe_pure.2 rfl
  · exact (safe_scan_skip (n := 0) hd hP 0 (tableLen mem dsdt - 5) (by omega) fun j _ _ => hno j).2 (safe_pure.2 rfl)

theorem FirstS5.unique {j : ℕ} (hi : FirstS5 mem dsdt i) (hj : FirstS5 mem dsdt j) : i = j := by
  rcases lt_trichotomy i j with h | h | h
  · exact absurd hi.found (hj.first i h)
  · exact h
  · exact absurd hj.found (hi.first j h)

theorem exists_firstS5 (h : ∃ i, S5At mem dsdt i) : ∃ i, FirstS5 mem dsdt i :=
  ⟨Nat.find h, Nat.find_spec h, fun _ => Nat.find_min h⟩

/-- it returns in any case, and does not read further than eight bytes behind the table -/
theorem parseS5_returns (mem : ℕ → UInt8) (hd : dsdt < 2 ^ 32) :
    ∃ r, Safe (fun o => o < tableLen mem dsdt + 8) (parseS5 mem dsdt) r := by
  have hfield : 4 < tableLen mem dsdt + 8 ∧ 5 < tableLen mem dsdt + 8 ∧ 6 < tableLen mem dsdt + 8 ∧
      7 < tableLen mem dsdt + 8 := by omega
  by_cases h0 : dsdt = 0
  · exact ⟨none, by rw [parseS5, if_pos h0, safe_pure]⟩
  · by_cases hm : ∃ i, S5At mem dsdt i
    · obtain ⟨i, hi⟩ := exists_firstS5 hm
      obtain ⟨-, -, h3, -, h5⟩ := element_bounds mem dsdt i
      have hlt := hi.found.1
      refine ⟨some (sleepTypes mem dsdt i), (safe_parseS5_first h0 hd (fun o ho => by omega) hfield hi).2 ⟨?_, rfl⟩⟩
      intro o _ ho
      omega
    · exact ⟨none, safe_parseS5_none h0 hd (fun o ho => by omega) hfield (not_exists.1 hm)⟩

/-- the elements of a match are in the table iff they end there: they stand behind the length field -/
theorem elements_in_table_iff : (∀ o, firstElement mem dsdt i ≤ o → o < elementsEnd mem dsdt i →
      o < tableLen mem dsdt ∨ 4 ≤ o ∧ o < 8) ↔ elementsEnd mem dsdt i ≤ tableLen mem dsdt := by
  obtain ⟨h1, h2, -, h4, -⟩ := element_bounds mem dsdt i
  constructor
  · intro h
    have hlast := h (elementsEnd mem dsdt i - 1) (by omega) (by omega)
    omega
  · intro h o _ ho
    exact Or.inl (by omega)

end

/-- **AML scan.** For every content of memory and every address that the FADT can name, `parse_s5` reads only bytes of the
table, and those of the length field, iff there is no table, or the package of the first `_S5_` with a PackageOp has its
first two elements inside the table. -/
theorem aml_scan_in_table_iff (mem : ℕ → UInt8) (dsdt : ℕ) (hd : dsdt < 2 ^ 32) :
    (∀ o ∈ (parseS5 mem dsdt).log, o < tableLen mem dsdt ∨ 4 ≤ o ∧ o < 8) ↔
      dsdt = 0 ∨ ∀ i, FirstS5 mem dsdt i → elementsEnd mem dsdt i ≤ tableLen mem dsdt := by
  by_cases h0 : dsdt = 0
  · refine iff_of_true (fun o ho => ?_) (Or.inl h0)
    rw [parseS5, if_pos h0] at ho
    exact absurd ho List.not_mem_nil
  · rw [or_iff_right h0]
    by_cases hm : ∃ i, S5At mem dsdt i
    · obtain ⟨i, hi⟩ := exists_firstS5 hm
      have hret : Logged.Safe (fun _ => True) (parseS5 mem dsdt) (some (sleepTypes mem dsdt i)) :=
        (safe_parseS5_first h0 hd (fun _ _ => trivial) ⟨trivial, trivial, trivial, trivial⟩ hi).2
          ⟨fun _ _ _ => trivial, rfl⟩
      rw [hret.forall_iff, safe_parseS5_first h0 hd (fun o ho => Or.inl ho) (by omega) hi, elements_in_table_iff,
        and_iff_left rfl]
      exact ⟨fun h j hj => hi.unique hj ▸ h, fun h => h i hi⟩
    · have hsafe := safe_parseS5_none h0 hd (P := fun o => o < tableLen mem dsdt ∨ 4 ≤ o ∧ o < 8) (fun o ho => Or.inl ho)
        (by omega) (not_exists.1 hm)
      exact iff_of_true hsafe.log fun i hi => absurd ⟨i, hi.found⟩ hm

/-- a DSDT at 0x1000 with nothing but `Name(_S5, Package(4){5, 5, 0, 0})` in it, which takes 52 bytes -/
def sleepTable (len : UInt8) (addr : ℕ) : UInt8 :=
  if addr < 0x1000 then 0
  else (str "DSDT" ++ [len, 0, 0, 0] ++ List.replicate 28 0 ++ [0x08] ++ str "_S5_" ++
    [0x12, 0x0A, 4, 0x0A, 5, 0x0A, 5, 0x0A, 0, 0x0A, 0]).getD (addr - 0x1000) 0

/-- the whole table -/
theorem aml_scan_in_table_iff_sleep : (parseS5 (sleepTable 52) 0x1000).value = some (some (5, 5)) ∧
    ∀ o ∈ (parseS5 (sleepTable 52) 0x1000).log, o < tableLen (sleepTable 52) 0x1000 ∨ 4 ≤ o ∧ o < 8 := by
  have hfirst : FirstS5 (sleepTable 52) 0x1000 37 := ⟨by decide, by decide⟩
  refine ⟨by decide, (aml_scan_in_table_iff _ _ (by decide)).2 (Or.inr fun i hi => ?_)⟩
  obtain rfl := hfirst.unique hi
  decide

/-- a length that ends the table behind PkgLength: the elements are read all the same -/
theorem cut_package_read : tableLen (sleepTable 43) 0x1000 = 43 ∧
    ¬ ∀ o ∈ (parseS5 (sleepTable 43) 0x1000).log, o < tableLen (sleepTable 43) 0x1000 ∨ 4 ≤ o ∧ o < 8 := by
  refine ⟨by decide, fun h => ?_⟩
  exact absurd (h 44 (by decide)) (by decide)

end Tomorrow.Boot
