/-
From HID reports to characters (`poll_hid`, `hid_keycode_to_char`).

A boot keyboard reports the set of keys that are down, in any order and filled up with zeros, or six roll-over codes while
more than six are down. `poll_hid` compares each report with the one before and takes a key that was not in it for a new
press. A `Frame` is one moment of a keyboard that follows this protocol: the keys that are down and the report it sends.

A key makes a call at a report iff the report lists it and the report before does not (`presses_fresh`,
`fresh_of_presses`). So a key held through a roll-over report counts as pressed again (`twice_of_held`), and in no other way
does a held key make a second call (`rollOver_between`).

Result: `one_char_per_press_iff`.
-/
import Mathlib.Tactic

namespace Tomorrow.Usb.Keys

/-! ## Model -/

/-- usage id, character, character with shift -/
def hidTable : List (UInt8 × UInt8 × UInt8) := [
  (0x04, 0x61, 0x41), (0x05, 0x62, 0x42), (0x06, 0x63, 0x43), (0x07, 0x64, 0x44), (0x08, 0x65, 0x45),
  (0x09, 0x66, 0x46), (0x0A, 0x67, 0x47), (0x0B, 0x68, 0x48), (0x0C, 0x69, 0x49), (0x0D, 0x6A, 0x4A),
  (0x0E, 0x6B, 0x4B), (0x0F, 0x6C, 0x4C), (0x10, 0x6D, 0x4D), (0x11, 0x6E, 0x4E), (0x12, 0x6F, 0x4F),
  (0x13, 0x70, 0x50), (0x14, 0x71, 0x51), (0x15, 0x72, 0x52), (0x16, 0x73, 0x53), (0x17, 0x74, 0x54),
  (0x18, 0x75, 0x55), (0x19, 0x76, 0x56), (0x1A, 0x77, 0x57), (0x1B, 0x78, 0x58), (0x1C, 0x79, 0x59),
  (0x1D, 0x7A, 0x5A), (0x1E, 0x31, 0x21), (0x1F, 0x32, 0x40), (0x20, 0x33, 0x23), (0x21, 0x34, 0x24),
  (0x22, 0x35, 0x25), (0x23, 0x36, 0x5E), (0x24, 0x37, 0x26), (0x25, 0x38, 0x2A), (0x26, 0x39, 0x28),
  (0x27, 0x30, 0x29), (0x28, 0x0A, 0x0A), (0x2A, 0x08, 0x08), (0x2C, 0x20, 0x20), (0x2D, 0x2D, 0x5F),
  (0x2E, 0x3D, 0x2B), (0x2F, 0x5B, 0x7B), (0x30, 0x5D, 0x7D), (0x33, 0x3B, 0x3A), (0x34, 0x27, 0x22),
  (0x35, 0x60, 0x7E), (0x36, 0x2C, 0x3C), (0x37, 0x2E, 0x3E), (0x38, 0x2F, 0x3F)]

def hidKeycodeToChar (code : UInt8) (shift : Bool) : Option UInt8 :=
  (hidTable.find? fun e => e.1 = code).map fun e => if shift then e.2.2 else e.2.1

/-- the eight bytes of a report without the reserved one -/
structure Report where
  modifier : UInt8
  keys : List UInt8
  keys_length : keys.length = 6

/-- left or right shift -/
def Report.shift (r : Report) : Bool := decide (r.modifier &&& 0x22 ≠ 0)

/-- the calls of `on_char` for one report, each with the key code that causes it; prev is `HID_PREV` -/
def reportCalls (prev : List UInt8) (r : Report) : List (UInt8 × UInt8) :=
  r.keys.filterMap fun keycode =>
    if keycode = 0 then none
    else if prev.contains keycode then none
    else (hidKeycodeToChar keycode r.shift).map fun ch => (keycode, ch)

/-- one report: the calls, and the new `HID_PREV` -/
def pollReport (prev : List UInt8) (r : Report) : List (UInt8 × UInt8) × List UInt8 := (reportCalls prev r, r.keys)

/-- `HID_PREV` before report t -/
def hidPrev (reports : ℕ → Report) : ℕ → List UInt8
  | 0 => List.replicate 6 0
  | t + 1 => (pollReport (hidPrev reports t) (reports t)).2

/-- the calls made for report t -/
def hidCalls (reports : ℕ → Report) (t : ℕ) : List (UInt8 × UInt8) := (pollReport (hidPrev reports t) (reports t)).1

/-! ## Keyboards -/

/-- the keys that are down and what a boot keyboard reports of them; the codes below 4 name no key -/
structure Frame where
  pressed : Finset UInt8
  report : Report
  codes : ∀ k ∈ pressed, 4 ≤ k
  listed : pressed.card ≤ 6 → (report.keys.filter (· ≠ 0)).Nodup ∧ ∀ k, k ≠ 0 → (k ∈ report.keys ↔ k ∈ pressed)
  rollOver : 6 < pressed.card → report.keys = List.replicate 6 1

/-- how many calls key k causes at report t -/
def presses (h : ℕ → Frame) (k : UInt8) (t : ℕ) : ℕ :=
  (hidCalls (fun t => (h t).report) t).countP fun e => e.1 = k

def InTable (k : UInt8) : Prop := ∃ e ∈ hidTable, e.1 = k

instance instDecidableInTable (k : UInt8) : Decidable (InTable k) :=
  decidable_of_iff (hidTable.any (fun e => e.1 == k) = true) (by simp [InTable])

/-- a key that stays down makes at most one call; a key of the table that a report lists, and that was not down at the
report before, makes exactly one there -/
structure OneCharPerPress (h : ℕ → Frame) : Prop where
  once : ∀ k a b, (∀ t, a ≤ t → t ≤ b → k ∈ (h t).pressed) → ∑ t ∈ Finset.Icc a b, presses h k t ≤ 1
  new : ∀ k t, InTable k → k ∈ (h t).report.keys → (t = 0 ∨ k ∉ (h (t - 1)).pressed) → presses h k t = 1

/-- a key of the table is down from a moment of at most six keys to a later one, and in between more than six are down -/
def HeldThroughRollOver (h : ℕ → Frame) : Prop :=
  ∃ k t₁ t₂ t₃, InTable k ∧ t₁ < t₂ ∧ t₂ < t₃ ∧ (∀ t, t₁ ≤ t → t ≤ t₃ → k ∈ (h t).pressed) ∧
    (h t₁).pressed.card ≤ 6 ∧ 6 < (h t₂).pressed.card ∧ (h t₃).pressed.card ≤ 6

/-! ## Which reports make a call -/

section

variable {h : ℕ → Frame} {k : UInt8} {t : ℕ}

/-- the table decides whether a key has a character, whatever shift is -/
theorem hidKeycodeToChar_isSome (shift : Bool) : (hidKeycodeToChar k shift).isSome = true ↔ InTable k := by
  simp [hidKeycodeToChar, InTable, List.find?_isSome]

theorem InTable.code (hk : InTable k) : 4 ≤ k := by
  obtain ⟨e, he, rfl⟩ := hk
  have hall : hidTable.all (fun e => decide (4 ≤ e.1)) = true := by decide
  exact of_decide_eq_true (List.all_eq_true.1 hall e he)

/-- report t lists the key -/
def Lists (h : ℕ → Frame) (k : UInt8) (t : ℕ) : Prop := k ∈ (h t).report.keys

/-- a key is listed iff it is down and no more than six are -/
theorem lists_iff (hk : 4 ≤ k) : Lists h k t ↔ k ∈ (h t).pressed ∧ (h t).pressed.card ≤ 6 := by
  have hne : k ≠ 0 := by rintro rfl; exact absurd hk (by decide)
  by_cases hcard : (h t).pressed.card ≤ 6
  · rw [and_iff_left hcard]
    exact ((h t).listed hcard).2 k hne
  · refine iff_of_false (fun hl => ?_) fun hp => hcard hp.2
    rw [Lists, (h t).rollOver (not_le.1 hcard)] at hl
    rw [(List.mem_replicate.1 hl).2] at hk
    exact absurd hk (by decide)

/-- `HID_PREV` holds the keys of the report before -/
theorem mem_hidPrev (hk : 4 ≤ k) : k ∈ hidPrev (fun t => (h t).report) t ↔ t ≠ 0 ∧ Lists h k (t - 1) := by
  cases t with
  | zero =>
    refine iff_of_false (fun hm => ?_) fun hm => hm.1 rfl
    rw [(List.mem_replicate.1 hm).2] at hk
    exact absurd hk (by decide)
  | succ t => simp [hidPrev, pollReport, Lists]

/-- a report has a key in one slot only -/
theorem count_keys (hk : 4 ≤ k) (hl : Lists h k t) : (h t).report.keys.count k = 1 := by
  have hne : k ≠ 0 := by rintro rfl; exact absurd hk (by decide)
  have hnodup := ((h t).listed ((lists_iff hk).1 hl).2).1
  rw [← List.count_filter (p := fun k => decide (k ≠ 0)) (by simpa using hne)]
  exact List.count_eq_one_of_mem hnodup (List.mem_filter.2 ⟨hl, by simpa using hne⟩)

/-- the report makes a call for the key -/
def Fresh (h : ℕ → Frame) (k : UInt8) (t : ℕ) : Prop := InTable k ∧ Lists h k t ∧ (t = 0 ∨ ¬ Lists h k (t - 1))

/-- whether a slot with code a makes a call for key k -/
theorem slot_call (hk : 4 ≤ k) (prev : List UInt8) (shift : Bool) (a : UInt8) :
    ((if a = 0 then none else if prev.contains a then none
      else (hidKeycodeToChar a shift).map fun ch => (a, ch)).map fun e => decide (e.1 = k)).getD false =
        (decide (InTable k ∧ k ∉ prev) && a == k) := by
  by_cases hak : a = k
  · subst hak
    have hne : a ≠ 0 := by rintro rfl; exact absurd hk (by decide)
    have htab := @hidKeycodeToChar_isSome a shift
    cases hch : hidKeycodeToChar a shift with
    | none => simp [hne, ← htab, hch]
    | some ch => by_cases hp : a ∈ prev <;> simp [hne, ← htab, hch, hp]
  · rw [beq_false_of_ne hak, Bool.and_false]
    split_ifs
    · rfl
    · rfl
    · cases hidKeycodeToChar a shift <;> simp [hak]

theorem presses_eq_count (hk : 4 ≤ k) : presses h k t =
    if InTable k ∧ k ∉ hidPrev (fun t => (h t).report) t then (h t).report.keys.count k else 0 := by
  unfold presses hidCalls pollReport reportCalls
  simp only [List.countP_filterMap, slot_call hk]
  split_ifs with hc
  · simp [hc, List.count]
  · simp [hc]

/-- **Calls.** A key makes one call at a report that is fresh for it, and none at another. -/
theorem presses_fresh (hk : 4 ≤ k) (hf : Fresh h k t) : presses h k t = 1 := by
  obtain ⟨htab, hl, hprev⟩ := hf
  have hnot : k ∉ hidPrev (fun t => (h t).report) t := by
    rw [mem_hidPrev hk]
    exact fun hm => hprev.elim hm.1 (· hm.2)
  rw [presses_eq_count hk, if_pos ⟨htab, hnot⟩, count_keys hk hl]

theorem fresh_of_presses (hk : 4 ≤ k) (hp : presses h k t ≠ 0) : Fresh h k t := by
  rw [presses_eq_count hk] at hp
  split_ifs at hp with hc
  · rw [mem_hidPrev hk, not_and'] at hc
    refine ⟨hc.1, List.count_pos_iff.1 (Nat.pos_of_ne_zero hp), ?_⟩
    by_cases hl : Lists h k (t - 1)
    · exact Or.inl (not_not.1 (hc.2 hl))
    · exact Or.inr hl
  · exact absurd rfl hp

/-! ## Held keys -/

/-- two calls for a key that stays down have a roll-over between them -/
theorem rollOver_between (hk : 4 ≤ k) {t t' : ℕ} (hf : Fresh h k t) (hf' : Fresh h k t') (hlt : t < t')
    (hheld : ∀ u, t ≤ u → u ≤ t' → k ∈ (h u).pressed) : HeldThroughRollOver h := by
  have hgap : ¬ Lists h k (t' - 1) := hf'.2.2.resolve_left (by omega)
  have hne : t ≠ t' - 1 := fun he => hgap (he ▸ hf.2.1)
  refine ⟨k, t, t' - 1, t', hf.1, by omega, by omega, hheld, ((lists_iff hk).1 hf.2.1).2, ?_,
    ((lists_iff hk).1 hf'.2.1).2⟩
  by_contra hcard
  exact hgap ((lists_iff hk).2 ⟨hheld _ (by omega) (by omega), not_lt.1 hcard⟩)

theorem once_of_not_held (hno : ¬ HeldThroughRollOver h) {a b : ℕ} (hheld : ∀ t, a ≤ t → t ≤ b → k ∈ (h t).pressed) :
    ∑ t ∈ Finset.Icc a b, presses h k t ≤ 1 := by
  by_cases hsome : ∃ t ∈ Finset.Icc a b, presses h k t ≠ 0
  · obtain ⟨t, ht, hp⟩ := hsome
    obtain ⟨hat, htb⟩ := Finset.mem_Icc.1 ht
    have hk := (h t).codes k (hheld t hat htb)
    have hf := fresh_of_presses hk hp
    rw [Finset.sum_eq_single_of_mem t ht fun u hu hne => ?_, presses_fresh hk hf]
    obtain ⟨hau, hub⟩ := Finset.mem_Icc.1 hu
    by_contra hpu
    have hfu := fresh_of_presses hk hpu
    rcases Nat.lt_or_gt_of_ne hne with hlt | hlt
    · exact hno (rollOver_between hk hfu hf hlt fun v hv hv' => hheld v (by omega) (by omega))
    · exact hno (rollOver_between hk hf hfu hlt fun v hv hv' => hheld v (by omega) (by omega))
  · push Not at hsome
    rw [Finset.sum_eq_zero hsome]
    exact Nat.zero_le 1

/-- a press has a start -/
theorem press_start (hp : k ∈ (h t).pressed) :
    ∃ a, a ≤ t ∧ (∀ u, a ≤ u → u ≤ t → k ∈ (h u).pressed) ∧ (a = 0 ∨ k ∉ (h (a - 1)).pressed) := by
  induction t with
  | zero => exact ⟨0, le_rfl, fun u _ hu => by rwa [Nat.le_zero.1 hu], Or.inl rfl⟩
  | succ t ih =>
    by_cases hprev : k ∈ (h t).pressed
    · obtain ⟨a, hat, hdown, hbefore⟩ := ih hprev
      refine ⟨a, by omega, fun u hau hu => ?_, hbefore⟩
      rcases Nat.eq_or_lt_of_le hu with rfl | hlt
      · exact hp
      · exact hdown u hau (by omega)
    · refine ⟨t + 1, le_rfl, fun u hau hu => ?_, Or.inr hprev⟩
      rwa [show u = t + 1 by omega]

/-- the first report from a on that lists the key makes a call, when the one before a does not list it -/
theorem exists_fresh (hk : InTable k) {a : ℕ} (hat : a ≤ t) (hl : Lists h k t) (hbefore : a = 0 ∨ ¬ Lists h k (a - 1)) :
    ∃ u, a ≤ u ∧ u ≤ t ∧ Fresh h k u := by
  induction t, hat using Nat.le_induction with
  | base => exact ⟨a, le_rfl, le_rfl, hk, hl, hbefore⟩
  | succ t hat ih =>
    by_cases hprev : Lists h k t
    · obtain ⟨u, hau, hut, hf⟩ := ih hprev
      exact ⟨u, hau, by omega, hf⟩
    · exact ⟨t + 1, by omega, le_rfl, hk, hl, Or.inr hprev⟩

/-- a key that is held through a roll-over makes two calls between the start of its press and the report that lists it
again -/
theorem twice_of_held (hheld : HeldThroughRollOver h) : ∃ k a b, (∀ t, a ≤ t → t ≤ b → k ∈ (h t).pressed) ∧
    2 ≤ ∑ t ∈ Finset.Icc a b, presses h k t := by
  obtain ⟨k, t₁, t₂, t₃, htab, h12, h23, hdown, hcard₁, hcard₂, hcard₃⟩ := hheld
  have hk := htab.code
  have hlist₁ : Lists h k t₁ := (lists_iff hk).2 ⟨hdown t₁ le_rfl (by omega), hcard₁⟩
  have hlist₃ : Lists h k t₃ := (lists_iff hk).2 ⟨hdown t₃ (by omega) le_rfl, hcard₃⟩
  obtain ⟨a, hat₁, hpress, hbefore⟩ := press_start (hdown t₁ le_rfl (by omega))
  obtain ⟨u, hau, hu, hfresh⟩ := exists_fresh htab hat₁ hlist₁
    (hbefore.imp_right fun hp hl => hp ((lists_iff hk).1 hl).1)
  -- and again behind the roll-over
  obtain ⟨v, hv, hvt, hfresh'⟩ := exists_fresh htab (show t₂ + 1 ≤ t₃ by omega) hlist₃
    (Or.inr fun hl => absurd ((lists_iff hk).1 hl).2 (not_le.2 hcard₂))
  refine ⟨k, a, t₃, fun t hat ht => ?_, ?_⟩
  · rcases Nat.le_total t t₁ with hle | hle
    · exact hpress t hat hle
    · exact hdown t hle ht
  calc 2 = presses h k u + presses h k v := by rw [presses_fresh hk hfresh, presses_fresh hk hfresh']
    _ = ∑ t ∈ {u, v}, presses h k t := (Finset.sum_pair (by omega)).symm
    _ ≤ ∑ t ∈ Finset.Icc a t₃, presses h k t := by
      refine Finset.sum_le_sum_of_subset fun t ht => ?_
      rcases Finset.mem_insert.1 ht with rfl | ht
      · exact Finset.mem_Icc.2 ⟨hau, by omega⟩
      · rw [Finset.mem_singleton.1 ht]
        exact Finset.mem_Icc.2 ⟨by omega, hvt⟩

theorem new_press (hk : InTable k) (hl : Lists h k t) (hprev : t = 0 ∨ k ∉ (h (t - 1)).pressed) : presses h k t = 1 :=
  presses_fresh hk.code ⟨hk, hl, hprev.imp_right fun hp hl => hp ((lists_iff hk.code).1 hl).1⟩

end

/-- **One character for a key press.** For every history of a boot keyboard, each report handled on its own: a key that stays
down makes at most one call of `on_char` and a newly listed key of the table exactly one, iff no key of the table is held
from a report that lists it through a roll-over to a later report that lists it. -/
theorem one_char_per_press_iff (h : ℕ → Frame) : OneCharPerPress h ↔ ¬ HeldThroughRollOver h := by
  constructor
  · intro hone hheld
    obtain ⟨k, a, b, hdown, htwo⟩ := twice_of_held hheld
    have hle := hone.once k a b hdown
    omega
  · intro hno
    exact ⟨fun k a b hdown => once_of_not_held hno hdown, fun k t hk hl hprev => new_press hk hl hprev⟩

/-- the keys A to F -/
def sixKeys : List UInt8 := [0x04, 0x05, 0x06, 0x07, 0x08, 0x09]

def sixDown : Frame where
  pressed := sixKeys.toFinset
  report := ⟨0, sixKeys, rfl⟩
  codes := by decide +kernel
  listed := fun _ => ⟨by decide, fun k _ => List.mem_toFinset.symm⟩
  rollOver := fun h => absurd h (by decide)

/-- G as well -/
def sevenDown : Frame where
  pressed := (0x0A :: sixKeys).toFinset
  report := ⟨0, List.replicate 6 1, rfl⟩
  codes := by decide +kernel
  listed := fun h => absurd h (by decide)
  rollOver := fun _ => rfl

/-- six keys are held while a seventh goes down and up again -/
def seventhKey (t : ℕ) : Frame := if t = 1 then sevenDown else sixDown

/-- every one of the six prints a second time -/
theorem rollOver_repeats :
    (∀ k ∈ sixKeys, presses seventhKey k 0 = 1 ∧ presses seventhKey k 1 = 0 ∧ presses seventhKey k 2 = 1) ∧
      ¬ OneCharPerPress seventhKey := by
  have hcalls : ∀ k ∈ sixKeys, presses seventhKey k 0 = 1 ∧ presses seventhKey k 1 = 0 ∧ presses seventhKey k 2 = 1 := by
    decide +kernel
  refine ⟨hcalls, fun hone => ?_⟩
  have hdown : ∀ t, 0 ≤ t → t ≤ 2 → (0x04 : UInt8) ∈ (seventhKey t).pressed := by decide +kernel
  have hle := hone.once 0x04 0 2 hdown
  have hsum : ∑ t ∈ Finset.Icc 0 2, presses seventhKey 0x04 t = 2 := by decide +kernel
  omega

end Tomorrow.Usb.Keys
