/-
`map` as an update of one page of the address space (`vmm.rs`), over an arbitrary heap of tables.

`reach` is the walk from the PML4: it stands at a table, has ended at an entry (a leaf, or a large page at the PDPT or
PD), or has met an entry that is not present. A path is a list of indices from the last one back to the root's, so its
length is the level. Nothing is assumed of the tables but that no page is referred to by two entries and the PML4 by
none; this is the same as saying that every table lies at one path (`separate_iff`). So the cells of different paths are
different, and a call of `map` is a sequence of changes to single cells:
- `reach_setUser`, `reach_setLeaf`: an upper entry gains the USER bit, or the leaf is stored;
- `reach_new`: a zeroed page outside the heap is put behind an entry that was not present.
None of them changes the end of any other walk (`reach_frame`); `Walked` says this of the levels passed so far.

A recursive slot, a PML4 entry that refers to the PML4, has every table referred to once; there the upper entries are
leaves of other addresses, which `map` then changes (`recursive_slot`).

Result: `map_pointwise`.
-/
import Tomorrow.Memory.Ranges
import Tomorrow.Memory.Vmm

namespace Tomorrow.Vmm

open Tomorrow.Core

/-! ## Walks -/

/-- where a walk stands -/
inductive Stop where
  | table (t : ℕ)
  | leaf (e : ℕ)
  | absent
deriving DecidableEq

/-- one index further, at a level counted from the PML4 -/
def Stop.next (mem : Mem) (level i : ℕ) : Stop → Stop
  | .table t =>
    if mem (t + 8 * i) &&& pagePresent = 0 then .absent
    else if 3 ≤ level ∨ (0 < level ∧ mem (t + 8 * i) &&& ps ≠ 0) then .leaf (mem (t + 8 * i))
    else .table (entryToTable (mem (t + 8 * i)))
  | .leaf e => .leaf e
  | .absent => .absent

/-- the walk along a path, given from its last index back to that of the PML4 -/
def reach (mem : Mem) (root : ℕ) : List ℕ → Stop
  | [] => .table root
  | i :: ρ => (reach mem root ρ).next mem ρ.length i

/-- the indices of a path are those of a table -/
def Bounded (ρ : List ℕ) : Prop := ∀ i ∈ ρ, i < 512

/-- t is one of the tables of the heap -/
def IsTable (mem : Mem) (root t : ℕ) : Prop := ∃ ρ, Bounded ρ ∧ reach mem root ρ = .table t

/-- entry i of the table t refers to the table x -/
def Refers (mem : Mem) (root t i x : ℕ) : Prop :=
  ∃ ρ, Bounded ρ ∧ reach mem root ρ = .table t ∧ i < 512 ∧ reach mem root (i :: ρ) = .table x

/-- each table page is referred to by at most one entry -/
def SingleRef (mem : Mem) (root : ℕ) : Prop :=
  ∀ t i t' i' x, Refers mem root t i x → Refers mem root t' i' x → t = t' ∧ i = i'

/-- no entry refers to the PML4 -/
def RootUnreferenced (mem : Mem) (root : ℕ) : Prop := ∀ t i, ¬ Refers mem root t i root

/-- every table lies at one path -/
def Separate (mem : Mem) (root : ℕ) : Prop :=
  ∀ ρ σ t, Bounded ρ → Bounded σ → reach mem root ρ = .table t → reach mem root σ = .table t → ρ = σ

section

variable {mem mem' : Mem} {root t x i j : ℕ} {ρ σ : List ℕ}

theorem Bounded.cons (hi : i < 512) (h : Bounded ρ) : Bounded (i :: ρ) := List.forall_mem_cons.2 ⟨hi, h⟩

theorem Bounded.of_cons (h : Bounded (i :: ρ)) : i < 512 ∧ Bounded ρ := List.forall_mem_cons.1 h

theorem bounded_nil : Bounded [] := by simp [Bounded]

/-- what a walk to a table has passed -/
theorem reach_table (h : reach mem root (i :: ρ) = .table x) :
    ∃ t, reach mem root ρ = .table t ∧ ρ.length < 3 ∧ mem (t + 8 * i) &&& pagePresent ≠ 0 ∧
      x = entryToTable (mem (t + 8 * i)) := by
  rw [reach] at h
  cases hρ : reach mem root ρ with
  | leaf e => rw [hρ] at h; cases h
  | absent => rw [hρ] at h; cases h
  | table t =>
    rw [hρ, Stop.next] at h
    split_ifs at h with hp hl
    rw [not_or, not_le] at hl
    exact ⟨t, rfl, hl.1, hp, (Stop.table.inj h).symm⟩

theorem entryToTable_mod (e : ℕ) : entryToTable e % 4096 = 0 := by
  have h : entryToTable e % 2 ^ 12 = e % 2 ^ 12 &&& 0x000FFFFFFFFFF000 % 2 ^ 12 := Nat.and_mod_two_pow
  simpa using h

/-- tables are pages -/
theorem reach_aligned (hroot : root % 4096 = 0) (h : reach mem root ρ = .table t) : t % 4096 = 0 := by
  cases ρ with
  | nil =>
    cases h
    exact hroot
  | cons i ρ =>
    obtain ⟨_, -, -, -, rfl⟩ := reach_table h
    exact entryToTable_mod _

/-- one path to each table is the same as one reference to each table and none to the PML4 -/
theorem separate_iff : Separate mem root ↔ SingleRef mem root ∧ RootUnreferenced mem root := by
  constructor
  · intro hsep
    constructor
    · rintro t i t' i' x ⟨ρ, hρ, ht, hi, hx⟩ ⟨σ, hσ, ht', hi', hx'⟩
      have heq := hsep (i :: ρ) (i' :: σ) x (hρ.cons hi) (hσ.cons hi') hx hx'
      obtain ⟨rfl, rfl⟩ := List.cons.inj heq
      exact ⟨Stop.table.inj (ht.symm.trans ht'), rfl⟩
    · rintro t i ⟨ρ, hρ, -, hi, hx⟩
      exact absurd (hsep (i :: ρ) [] root (hρ.cons hi) bounded_nil hx rfl) (List.cons_ne_nil i ρ)
  · rintro ⟨hone, hnone⟩ ρ
    have hroot : ∀ {i ρ t}, Bounded (i :: ρ) → reach mem root (i :: ρ) = .table t → root ≠ t := by
      rintro i ρ t hρ h rfl
      obtain ⟨t, ht, -⟩ := reach_table h
      exact hnone t i ⟨ρ, hρ.of_cons.2, ht, hρ.of_cons.1, h⟩
    induction ρ with
    | nil =>
      intro σ t _ hσ h h'
      cases σ with
      | nil => rfl
      | cons j σ => exact absurd (Stop.table.inj h) (hroot hσ h')
    | cons i ρ ih =>
      intro σ x hρ hσ h h'
      cases σ with
      | nil => exact absurd (Stop.table.inj h') (hroot hρ h)
      | cons j σ =>
        obtain ⟨hi, hbρ⟩ := hρ.of_cons
        obtain ⟨hj, hbσ⟩ := hσ.of_cons
        obtain ⟨t, ht, -⟩ := reach_table h
        obtain ⟨t', ht', -⟩ := reach_table h'
        obtain ⟨rfl, rfl⟩ := hone t i t' j x ⟨ρ, hbρ, ht, hi, h⟩ ⟨σ, hbσ, ht', hj, h'⟩
        rw [ih σ t hbρ hbσ ht ht']

/-! ## Changes to single cells -/

theorem next_congr {level : ℕ} (h : mem' (t + 8 * i) = mem (t + 8 * i)) :
    (Stop.table t).next mem' level i = (Stop.table t).next mem level i := by
  simp only [Stop.next, h]

/-- cells of different paths are different -/
theorem cell_eq (hsep : Separate mem root) (hroot : root % 4096 = 0) (hρ : Bounded (i :: ρ)) (hσ : Bounded (j :: σ))
    (h : reach mem root ρ = .table t) (h' : reach mem root σ = .table x) (he : x + 8 * j = t + 8 * i) : j :: σ = i :: ρ := by
  obtain ⟨hi, hρ⟩ := hρ.of_cons
  obtain ⟨hj, hσ⟩ := hσ.of_cons
  have ht := reach_aligned hroot h
  have hx := reach_aligned hroot h'
  have heq : x = t := by omega
  subst heq
  rw [hsep σ ρ x hσ hρ h' h, show j = i by omega]

/-- the tables' cells other than entry i of t are the same in mem' -/
def SameBut (mem mem' : Mem) (root t i : ℕ) : Prop :=
  ∀ x j, IsTable mem root x → j < 512 → x + 8 * j ≠ t + 8 * i → mem' (x + 8 * j) = mem (x + 8 * j)

/-- a walk changes only by way of the cell that does: the induction is on the walk, from the PML4 on -/
theorem reach_frame (hsep : Separate mem root) (hroot : root % 4096 = 0) (hρ : Bounded (i :: ρ))
    (h : reach mem root ρ = .table t) (hsame : SameBut mem mem' root t i) (hσ : Bounded σ)
    (hend : i :: ρ <:+ σ → reach mem' root (i :: ρ) = reach mem root (i :: ρ)) : reach mem' root σ = reach mem root σ := by
  induction σ with
  | nil => rfl
  | cons j σ ih =>
    have hbefore : reach mem' root σ = reach mem root σ :=
      ih hσ.of_cons.2 fun hs => hend (hs.trans (List.suffix_cons j σ))
    by_cases heq : j :: σ = i :: ρ
    · rw [heq]
      exact hend (heq ▸ List.suffix_rfl)
    · rw [reach, reach, hbefore]
      cases hx : reach mem root σ with
      | leaf e => rfl
      | absent => rfl
      | table x =>
        apply next_congr
        apply hsame x j ⟨σ, hσ.of_cons.2, hx⟩ hσ.of_cons.1
        exact fun he => heq (cell_eq hsep hroot hρ hσ h hx he)

/-- a walk that has met an absent entry goes no further -/
theorem reach_absent (h : reach mem root ρ = .absent) (τ : List ℕ) : reach mem root (τ ++ ρ) = .absent := by
  induction τ with
  | nil => exact h
  | cons j τ ih => rw [List.cons_append, reach, ih]; rfl

/-- an empty table behind entry i of t, where nothing was: only the walk that ends there changes -/
theorem reach_new (hsep : Separate mem root) (hroot : root % 4096 = 0) (hρ : Bounded (i :: ρ))
    (h : reach mem root ρ = .table t) (habs : reach mem root (i :: ρ) = .absent) (hsame : SameBut mem mem' root t i)
    (hnew : reach mem' root (i :: ρ) = .table x) (hzero : ∀ j < 512, mem' (x + 8 * j) = 0) (hσ : Bounded σ)
    (hne : σ ≠ i :: ρ) : reach mem' root σ = reach mem root σ := by
  by_cases hs : i :: ρ <:+ σ
  · obtain ⟨τ, rfl⟩ := hs
    rcases List.eq_nil_or_concat τ with rfl | ⟨τ, j, rfl⟩
    · exact absurd rfl hne
    · -- the walk passes the new table, whose entries are absent
      have hj : j < 512 := hσ j (by simp)
      have hempty : reach mem' root (j :: i :: ρ) = .absent := by
        rw [reach, hnew, Stop.next, hzero j hj]
        rfl
      rw [reach_absent habs, List.concat_append, reach_absent hempty]
  · exact reach_frame hsep hroot hρ h hsame hσ fun hs' => absurd hs' hs

/-- the heap with one more table -/
theorem Separate.new (hsep : Separate mem root) (hfresh : ¬ IsTable mem root x)
    (hnew : reach mem' root (i :: ρ) = .table x)
    (hkeep : ∀ σ, Bounded σ → σ ≠ i :: ρ → reach mem' root σ = reach mem root σ) : Separate mem' root := by
  have hfirst : ∀ σ, Bounded σ → reach mem' root σ = .table x → σ = i :: ρ := by
    intro σ hσ h
    by_contra hne
    rw [hkeep σ hσ hne] at h
    exact hfresh ⟨σ, hσ, h⟩
  intro σ τ y hσ hτ h h'
  by_cases hy : y = x
  · subst hy
    rw [hfirst σ hσ h, hfirst τ hτ h']
  · have hother : ∀ {σ}, reach mem' root σ = .table y → σ ≠ i :: ρ := by
      rintro σ h rfl
      exact hy (Stop.table.inj (h.symm.trans hnew))
    rw [hkeep σ hσ (hother h)] at h
    rw [hkeep τ hτ (hother h')] at h'
    exact hsep σ τ y hσ hτ h h'

theorem Separate.congr (hsep : Separate mem root)
    (hkeep : ∀ σ t, Bounded σ → reach mem' root σ = .table t → reach mem root σ = .table t) : Separate mem' root :=
  fun σ τ y hσ hτ h h' => hsep σ τ y hσ hτ (hkeep σ y hσ h) (hkeep τ y hτ h')

theorem reach_eq_absent (h : reach mem root ρ = .table t) :
    reach mem root (i :: ρ) = .absent ↔ mem (t + 8 * i) &&& pagePresent = 0 := by
  rw [reach, h, Stop.next]
  split_ifs with hp <;> simp [hp]

/-- an entry of an upper table that ends no walk is no large page -/
theorem small_of_not_leaf (h : reach mem root ρ = .table t) (hleaf : ∀ e, reach mem root (i :: ρ) ≠ .leaf e)
    (hp : mem (t + 8 * i) &&& pagePresent ≠ 0) : ¬ (3 ≤ ρ.length ∨ (0 < ρ.length ∧ mem (t + 8 * i) &&& ps ≠ 0)) := by
  intro hl
  apply hleaf (mem (t + 8 * i))
  rw [reach, h, Stop.next, if_neg hp, if_pos hl]

theorem reach_eq_table (h : reach mem root ρ = .table t) (hp : mem (t + 8 * i) &&& pagePresent ≠ 0)
    (hl : ¬ (3 ≤ ρ.length ∨ (0 < ρ.length ∧ mem (t + 8 * i) &&& ps ≠ 0))) :
    reach mem root (i :: ρ) = .table (entryToTable (mem (t + 8 * i))) := by
  rw [reach, h, Stop.next, if_neg hp, if_neg hl]

/-- the walk up to the cell that changes -/
theorem reach_before (hsep : Separate mem root) (hroot : root % 4096 = 0) (hρ : Bounded (i :: ρ))
    (h : reach mem root ρ = .table t) (hsame : SameBut mem mem' root t i) : reach mem' root ρ = .table t := by
  rw [← h]
  apply reach_frame hsep hroot hρ h hsame hρ.of_cons.2
  intro hs
  have := hs.length_le
  simp at this

theorem sameBut_store (s : Phys) (root t i v : ℕ) : SameBut s.mem (s.store (t + 8 * i) v).mem root t i :=
  fun _ _ _ _ hne => store_of_ne v hne

/-- the USER bit of an upper entry changes no walk -/
theorem reach_setUser {s : Phys} (hsep : Separate s.mem root) (hroot : root % 4096 = 0) (hρ : Bounded (i :: ρ))
    (h : reach s.mem root ρ = .table t) (hp : s.mem (t + 8 * i) &&& pagePresent ≠ 0)
    (hl : ¬ (3 ≤ ρ.length ∨ (0 < ρ.length ∧ s.mem (t + 8 * i) &&& ps ≠ 0))) (hσ : Bounded σ) :
    reach (s.store (t + 8 * i) (s.mem (t + 8 * i) ||| pageUser)).mem root σ = reach s.mem root σ := by
  have hsame := sameBut_store s root t i (s.mem (t + 8 * i) ||| pageUser)
  apply reach_frame hsep hroot hρ h hsame hσ
  intro _
  rw [reach_eq_table h hp hl, reach_eq_table (reach_before hsep hroot hρ h hsame)]
  · rw [store_self, entryToTable_or_user]
  · rw [store_self, Ne, or_user_present]
    exact hp
  · rw [store_self, Ne, or_user_ps]
    exact hl

/-! ## One level of the walk -/

/-- n pages that `alloc` hands out one after another, none of them in H -/
def Supply (H : ℕ → Prop) : ℕ → Words → Prop
  | 0, _ => True
  | n + 1, m => ∃ a m', Pmm.alloc m = .ok (a, m') ∧ a ≠ 0 ∧ ¬ H a ∧ Supply H n m'

/-- what is still to come is not the page that was just taken -/
theorem Supply.taken {H K : ℕ → Prop} {n a : ℕ} {m : Words} (h : Supply H n m) (ha : bit m (a / 4096) = true)
    (hK : ∀ y, K y → H y ∨ y = a) : Supply K n m := by
  induction n generalizing m with
  | zero => trivial
  | succ n ih =>
    obtain ⟨b, m', hb, h0, hH, h⟩ := h
    obtain ⟨p, hp, hfree, -, hm, -⟩ := Pmm.alloc_spec hb
    refine ⟨b, m', hb, h0, ?_, ih h ?_⟩
    · intro hKb
      rcases hK b hKb with h | rfl
      · exact hH h
      · rw [hp, Nat.mul_div_cancel p (by omega), hfree.2] at ha
        cases ha
    · simp [hm, ha]

theorem Supply.mono {H K : ℕ → Prop} {n : ℕ} {m : Words} (h : Supply H n m) (hK : ∀ y, K y → H y) : Supply K n m := by
  induction n generalizing m with
  | zero => trivial
  | succ n ih =>
    obtain ⟨b, m', hb, h0, hH, h⟩ := h
    exact ⟨b, m', hb, h0, fun hKb => hH (hK b hKb), ih h⟩

/-- the tables a walk along ρ has to create -/
def cost (mem : Mem) (root : ℕ) (ρ : List ℕ) : ℕ := if reach mem root ρ = .absent then 1 else 0

/-- after entry i of the table t, at path ρ, was made to refer to a table -/
structure Opened (root : ℕ) (s : Phys) (t i : ℕ) (ρ : List ℕ) (userBit : ℕ) (s' : Phys) : Prop where
  sep : Separate s'.mem root
  here : reach s'.mem root (i :: ρ) = .table (entryToTable (s'.mem (t + 8 * i)))
  keep : ∀ σ, Bounded σ → σ ≠ i :: ρ → reach s'.mem root σ = reach s.mem root σ
  present : s'.mem (t + 8 * i) &&& pagePresent ≠ 0
  user : userBit ≠ 0 → s'.mem (t + 8 * i) &&& pageUser ≠ 0
  cells : SameBut s.mem s'.mem root t i
  supply : ∀ n, Supply (IsTable s.mem root) (cost s.mem root (i :: ρ) + n) s.pmm → Supply (IsTable s'.mem root) n s'.pmm

variable {s : Phys} {userBit : ℕ}

/-- an entry that refers to a table -/
theorem opened_present (hsep : Separate s.mem root) (hroot : root % 4096 = 0) (hρ : Bounded (i :: ρ))
    (h : reach s.mem root ρ = .table t) (hp : s.mem (t + 8 * i) &&& pagePresent ≠ 0)
    (hl : ¬ (3 ≤ ρ.length ∨ (0 < ρ.length ∧ s.mem (t + 8 * i) &&& ps ≠ 0))) :
    ∃ s', ensureTable s (t + 8 * i) userBit = .ok s' ∧ Opened root s t i ρ userBit s' := by
  have hcost : cost s.mem root (i :: ρ) = 0 := if_neg fun habs => hp ((reach_eq_absent h).1 habs)
  by_cases hu : userBit = 0
  · refine ⟨s, by rw [ensureTable, if_neg hp, if_neg (not_not.2 hu)], hsep, reach_eq_table h hp hl, fun _ _ _ => rfl, hp,
      fun hne => absurd hu hne, fun _ _ _ _ _ => rfl, fun n hn => ?_⟩
    rwa [hcost, Nat.zero_add] at hn
  · have hwalk := fun {σ} => reach_setUser (σ := σ) hsep hroot hρ h hp hl
    have hstored := store_self (s := s) (t + 8 * i) (s.mem (t + 8 * i) ||| pageUser)
    refine ⟨s.store (t + 8 * i) (s.mem (t + 8 * i) ||| pageUser), by rw [ensureTable, if_neg hp, if_pos hu], ?_, ?_,
      fun σ hσ _ => hwalk hσ, ?_, ?_, sameBut_store s root t i _, fun n hn => ?_⟩
    · exact hsep.congr fun σ y hσ hy => (hwalk hσ).symm.trans hy
    · rw [hwalk hρ, hstored, entryToTable_or_user]
      exact reach_eq_table h hp hl
    · rw [hstored, Ne, or_user_present]
      exact hp
    · rw [hstored]
      exact fun _ => or_user_user _
    · rw [hcost, Nat.zero_add] at hn
      apply hn.mono
      rintro y ⟨σ, hσ, hy⟩
      exact ⟨σ, hσ, (hwalk hσ).symm.trans hy⟩

/-- the cells after a page x outside the heap was zeroed and an entry stored in cell t + 8 i -/
theorem zeroPage_cells (hroot : root % 4096 = 0) (h : reach s.mem root ρ = .table t) (hρ : Bounded ρ) (hi : i < 512)
    (hx : x % 4096 = 0) (hfresh : ¬ IsTable s.mem root x) (v : ℕ) :
    SameBut s.mem ((s.zeroPage x).store (t + 8 * i) v).mem root t i ∧
      ∀ j < 512, ((s.zeroPage x).store (t + 8 * i) v).mem (x + 8 * j) = 0 := by
  have hout : ∀ {y j}, IsTable s.mem root y → j < 512 → ¬ (x ≤ y + 8 * j ∧ y + 8 * j < x + 4096) := by
    rintro y j ⟨σ, hσ, hy⟩ hj hin
    have hal := reach_aligned hroot hy
    have heq : y = x := by omega
    exact hfresh (heq ▸ ⟨σ, hσ, hy⟩)
  constructor
  · intro y j hy hj hne
    rw [store_of_ne v hne]
    exact if_neg (hout hy hj)
  · intro j hj
    have hcell := hout ⟨ρ, hρ, h⟩ hi
    rw [store_of_ne v (by omega)]
    exact if_pos ⟨by omega, by omega⟩

/-- the entry that refers to a new table at x -/
theorem newEntry (hx : x % 4096 = 0) (hlt : x < 2 ^ 52) (hu : userBit = 0 ∨ userBit = pageUser) :
    entryToTable (x ||| (3 ||| userBit)) = x ∧ (x ||| (3 ||| userBit)) &&& pagePresent ≠ 0 ∧
      (x ||| (3 ||| userBit)) &&& ps = 0 ∧ (userBit ≠ 0 → (x ||| (3 ||| userBit)) &&& pageUser ≠ 0) := by
  have hbit : ∀ {j}, j < 12 → (x ||| (3 ||| userBit)).testBit j = (3 ||| userBit).testBit j := testBit_page_or hx
  simp only [ne_eq, present_eq_zero, ps_eq_zero, user_eq_zero, hbit (show 0 < 12 by omega),
    hbit (show 7 < 12 by omega), hbit (show 2 < 12 by omega)]
  rcases hu with rfl | rfl
  · exact ⟨entryToTable_or hx hlt (by decide), by decide⟩
  · exact ⟨entryToTable_or hx hlt (by decide), by decide⟩

/-- a new table behind an entry that is not present -/
theorem opened_absent (hsep : Separate s.mem root) (hroot : root % 4096 = 0) (hρ : Bounded (i :: ρ)) (hlen : ρ.length < 3)
    (h : reach s.mem root ρ = .table t) (hp : s.mem (t + 8 * i) &&& pagePresent = 0)
    (hu : userBit = 0 ∨ userBit = pageUser) (hs : Supply (IsTable s.mem root) 1 s.pmm) :
    ∃ s', ensureTable s (t + 8 * i) userBit = .ok s' ∧ Opened root s t i ρ userBit s' := by
  have habs : reach s.mem root (i :: ρ) = .absent := (reach_eq_absent h).2 hp
  obtain ⟨hi, hbρ⟩ := hρ.of_cons
  obtain ⟨x, m', hx, hx0, hfresh, -⟩ := hs
  obtain ⟨p, hxp, hfree, -, hm, -⟩ := Pmm.alloc_spec hx
  have hxal : x % 4096 = 0 := by omega
  have hxlt : x < 2 ^ 52 := by have := hfree.1; omega
  obtain ⟨htbl, hpres, hsmall, huser⟩ := newEntry hxal hxlt hu
  obtain ⟨hcells, hzero⟩ := zeroPage_cells (s := { s with pmm := m' }) hroot h hbρ hi hxal hfresh (x ||| (3 ||| userBit))
  -- the state after the two writes
  obtain ⟨s', hs'⟩ : ∃ s', s' = (Phys.zeroPage { s with pmm := m' } x).store (t + 8 * i) (x ||| (3 ||| userBit)) := ⟨_, rfl⟩
  rw [← hs'] at hcells hzero
  have hv : s'.mem (t + 8 * i) = x ||| (3 ||| userBit) := by rw [hs', store_self]
  have hhere : reach s'.mem root (i :: ρ) = .table x := by
    rw [reach_eq_table (reach_before hsep hroot hρ h hcells), hv, htbl]
    · rw [hv]
      exact hpres
    · rw [hv, hsmall]
      omega
  have hkeep : ∀ σ, Bounded σ → σ ≠ i :: ρ → reach s'.mem root σ = reach s.mem root σ :=
    fun σ hσ hne => reach_new hsep hroot hρ h habs hcells hhere hzero hσ hne
  refine ⟨s', ?_, hsep.new hfresh hhere hkeep, by rw [hv, htbl, hhere], hkeep, by rw [hv]; exact hpres,
    by rw [hv]; exact huser, hcells, ?_⟩
  · rw [ensureTable, if_pos hp, allocTable, hx, ok_bind, if_neg hx0, ok_bind, tableFlags, hs']
  · intro n hn
    rw [cost, if_pos habs, Nat.add_comm] at hn
    obtain ⟨y, m'', hy, -, -, hn⟩ := hn
    obtain ⟨rfl, rfl⟩ := Prod.mk.inj (Except.ok.inj (hx.symm.trans hy))
    have hpmm : s'.pmm = m' := by rw [hs']; rfl
    rw [hpmm]
    apply hn.taken (a := x)
    · rw [hxp, Nat.mul_div_cancel p (by omega), hm]
      simp
    · rintro y ⟨σ, hσ, hy⟩
      by_cases hne : σ = i :: ρ
      · subst hne
        exact Or.inr (Stop.table.inj (hy.symm.trans hhere))
      · rw [hkeep σ hσ hne] at hy
        exact Or.inl ⟨σ, hσ, hy⟩

/-- one level of `map`: the entry refers to a table, and no other walk ends elsewhere -/
theorem ensure_step {n : ℕ} (hsep : Separate s.mem root) (hroot : root % 4096 = 0) (hρ : Bounded (i :: ρ))
    (hlen : ρ.length < 3) (h : reach s.mem root ρ = .table t) (hleaf : ∀ e, reach s.mem root (i :: ρ) ≠ .leaf e)
    (hu : userBit = 0 ∨ userBit = pageUser) (hs : Supply (IsTable s.mem root) (cost s.mem root (i :: ρ) + n) s.pmm) :
    ∃ s', ensureTable s (t + 8 * i) userBit = .ok s' ∧ Opened root s t i ρ userBit s' := by
  by_cases hp : s.mem (t + 8 * i) &&& pagePresent = 0
  · rw [cost, if_pos ((reach_eq_absent h).2 hp), Nat.add_comm] at hs
    obtain ⟨x, m', hx, hx0, hfresh, -⟩ := hs
    exact opened_absent hsep hroot hρ hlen h hp hu ⟨x, m', hx, hx0, hfresh, trivial⟩
  · exact opened_present hsep hroot hρ h hp (small_of_not_leaf h hleaf hp)

/-- the same where `map` looks for a large page first -/
theorem descend_eq (h : reach s.mem root ρ = .table t) (hρ : 0 < ρ.length)
    (hleaf : ∀ e, reach s.mem root (i :: ρ) ≠ .leaf e) (f : Phys → Except Panic Phys) :
    descend s (t + 8 * i) userBit f = ensureTable s (t + 8 * i) userBit >>= f := by
  rw [descend, if_neg]
  rintro ⟨hp, hps⟩
  exact small_of_not_leaf h hleaf hp (Or.inr ⟨hρ, hps⟩)

/-- the leaf is stored: no other page is affected -/
theorem reach_setLeaf (hsep : Separate s.mem root) (hroot : root % 4096 = 0) (hρ : Bounded (i :: ρ)) (hlen : ρ.length = 3)
    (h : reach s.mem root ρ = .table t) {v : ℕ} (hv : v &&& pagePresent ≠ 0) :
    reach (s.store (t + 8 * i) v).mem root (i :: ρ) = .leaf v ∧
      ∀ σ, Bounded σ → σ.length ≤ 4 → σ ≠ i :: ρ → reach (s.store (t + 8 * i) v).mem root σ = reach s.mem root σ := by
  have hsame := sameBut_store s root t i v
  constructor
  · rw [reach, reach_before hsep hroot hρ h hsame, Stop.next, store_self, if_neg hv, if_pos (Or.inl hlen.ge)]
  · intro σ hσ hle hne
    apply reach_frame hsep hroot hρ h hsame hσ
    intro hs
    refine absurd (hs.eq_of_length_le ?_).symm hne
    rw [List.length_cons, hlen]
    exact hle

/-- the entry at the end of a path is present, with the USER bit where it is asked for -/
def Ready (mem : Mem) (root userBit : ℕ) : List ℕ → Prop
  | [] => True
  | i :: ρ => ∃ t, reach mem root ρ = .table t ∧ mem (t + 8 * i) &&& pagePresent ≠ 0 ∧
      (userBit ≠ 0 → mem (t + 8 * i) &&& pageUser ≠ 0)

/-- a change below leaves the entries that were passed before -/
theorem Ready.frame (hsep : Separate mem root) (hroot : root % 4096 = 0) (hρ : Bounded (i :: ρ))
    (h : reach mem root ρ = .table t) (hsame : SameBut mem mem' root t i) (hσ : Bounded (j :: σ))
    (hlen : σ.length < ρ.length) (hpass : Ready mem root userBit (j :: σ)) : Ready mem' root userBit (j :: σ) := by
  obtain ⟨x, hx, hp, hu⟩ := hpass
  have hne : j :: σ ≠ i :: ρ := by
    intro heq
    rw [(List.cons.inj heq).2] at hlen
    exact lt_irrefl _ hlen
  have hcell : mem' (x + 8 * j) = mem (x + 8 * j) :=
    hsame x j ⟨σ, hσ.of_cons.2, hx⟩ hσ.of_cons.1 fun he => hne (cell_eq hsep hroot hρ hσ h hx he)
  refine ⟨x, ?_, by rwa [hcell], by rwa [hcell]⟩
  rw [← hx]
  apply reach_frame hsep hroot hρ h hsame hσ.of_cons.2
  intro hs
  have hle := hs.length_le
  rw [List.length_cons] at hle
  omega

/-- the walk of `map` from s has come along ρ to the table t: longer walks end where they did, the entries behind are set,
and there are pages for n more tables -/
structure Walked (root : ℕ) (s : Phys) (userBit : ℕ) (ρ : List ℕ) (t n : ℕ) (s' : Phys) : Prop where
  sep : Separate s'.mem root
  here : reach s'.mem root ρ = .table t
  keep : ∀ σ, Bounded σ → ρ.length < σ.length → reach s'.mem root σ = reach s.mem root σ
  ready : ∀ j σ, j :: σ <:+ ρ → Ready s'.mem root userBit (j :: σ)
  supply : Supply (IsTable s'.mem root) n s'.pmm

theorem walked_root {n : ℕ} (hsep : Separate s.mem root) (hs : Supply (IsTable s.mem root) n s.pmm) :
    Walked root s userBit [] root n s :=
  ⟨hsep, rfl, fun _ _ _ => rfl, fun j σ h => absurd h.length_le (by simp), hs⟩

/-- one level further down -/
theorem Walked.next {n : ℕ} {s' : Phys} (hw : Walked root s userBit ρ t (cost s.mem root (i :: ρ) + n) s')
    (hroot : root % 4096 = 0) (hρ : Bounded (i :: ρ)) (hlen : ρ.length < 3)
    (hleaf : ∀ e, reach s.mem root (i :: ρ) ≠ .leaf e) (hu : userBit = 0 ∨ userBit = pageUser) :
    ∃ s'', ensureTable s' (t + 8 * i) userBit = .ok s'' ∧
      Walked root s userBit (i :: ρ) (entryToTable (s''.mem (t + 8 * i))) n s'' := by
  have hkeep := hw.keep (i :: ρ) hρ (Nat.lt_succ_self _)
  have hcost : cost s.mem root (i :: ρ) = cost s'.mem root (i :: ρ) := by rw [cost, cost, hkeep]
  have hs := hw.supply
  rw [hcost] at hs
  obtain ⟨s'', he, ho⟩ := ensure_step hw.sep hroot hρ hlen hw.here (by rwa [hkeep]) hu hs
  refine ⟨s'', he, ho.sep, ho.here, ?_, ?_, ho.supply n hs⟩
  · intro σ hσ hlt
    rw [List.length_cons] at hlt
    rw [ho.keep σ hσ (fun h => by rw [h] at hlt; simp at hlt), hw.keep σ hσ (by omega)]
  · intro j σ hs
    rcases List.suffix_cons_iff.1 hs with heq | hs
    · obtain ⟨rfl, rfl⟩ := List.cons.inj heq
      exact ⟨t, reach_before hw.sep hroot hρ hw.here ho.cells, ho.present, ho.user⟩
    · have hσ : Bounded (j :: σ) := fun k hk => hρ.of_cons.2 k (hs.subset hk)
      exact (hw.ready j σ hs).frame hw.sep hroot hρ hw.here ho.cells hσ hs.length_le

end

/-! ## The update -/

/-- the paths of the three upper entries of an address -/
def upper (virt : ℕ) : List (List ℕ) :=
  [[pml4Idx virt], [pdptIdx virt, pml4Idx virt], [pdIdx virt, pdptIdx virt, pml4Idx virt]]

/-- the tables that `map` has to create for an address -/
def missing (mem : Mem) (root virt : ℕ) : ℕ := ((upper virt).map (cost mem root)).sum

/-- bits 47..12 of an address are the path -/
theorem path_eq_iff {v w : ℕ} : path v = path w ↔ v / 2 ^ 12 % 2 ^ 36 = w / 2 ^ 12 % 2 ^ 36 := by
  simp only [path_eq, List.cons.injEq, and_true]
  omega

theorem path_bounded (w : ℕ) : Bounded (path w).reverse := fun i hi => path_lt w i (List.mem_reverse.1 hi)

theorem userBit_cases (flags : ℕ) : flags &&& pageUser = 0 ∨ flags &&& pageUser = pageUser := by
  rw [show pageUser = 2 ^ 2 from rfl, Nat.and_two_pow]
  cases flags.testBit 2 <;> simp

/-- a leaf is present -/
theorem leaf_present (phys flags : ℕ) : (phys ||| flags ||| pagePresent) &&& pagePresent ≠ 0 := by
  rw [Ne, present_eq_zero, Nat.testBit_or]
  simp [pagePresent]

/-- the three levels above the leaf -/
theorem map_walked {root virt : ℕ} {s : Phys} (phys flags : ℕ) (hroot : root % 4096 = 0) (hsep : Separate s.mem root)
    (hsmall : ∀ ρ ∈ upper virt, ∀ e, reach s.mem root ρ ≠ .leaf e)
    (hsupply : Supply (IsTable s.mem root) (missing s.mem root virt) s.pmm) :
    ∃ t s', Walked root s (flags &&& pageUser) [pdIdx virt, pdptIdx virt, pml4Idx virt] t 0 s' ∧
      map root s virt phys flags = .ok (s'.store (t + 8 * ptIdx virt) (phys ||| flags ||| pagePresent)) := by
  have hu := userBit_cases flags
  have hB : Bounded [pdIdx virt, pdptIdx virt, pml4Idx virt] := (path_bounded virt).of_cons.2
  have hl := fun ρ hρ => hsmall ρ hρ
  simp only [upper, List.mem_cons, List.not_mem_nil, or_false, forall_eq_or_imp, forall_eq] at hl
  obtain ⟨s1, e1, w1⟩ := (walked_root hsep hsupply).next hroot hB.of_cons.2.of_cons.2 (by simp) hl.1 hu
  obtain ⟨s2, e2, w2⟩ := w1.next hroot hB.of_cons.2 (by simp) hl.2.1 hu
  obtain ⟨s3, e3, w3⟩ := w2.next hroot hB (by simp) hl.2.2 hu
  refine ⟨_, s3, w3, ?_⟩
  have hl2 : ∀ e, reach s1.mem root [pdptIdx virt, pml4Idx virt] ≠ .leaf e := by
    rw [w1.keep _ hB.of_cons.2 (by simp)]
    exact hl.2.1
  have hl3 : ∀ e, reach s2.mem root [pdIdx virt, pdptIdx virt, pml4Idx virt] ≠ .leaf e := by
    rw [w2.keep _ hB (by simp)]
    exact hl.2.2
  simp only [map, e1, ok_bind]
  rw [descend_eq w1.here (by simp) hl2, e2, ok_bind, descend_eq w2.here (by simp) hl3, e3, ok_bind]

/-- **`map` is an update of one page.** On any heap of tables with one reference to each and none to the PML4, a call
whose walk meets no large page and whose new tables come from outside the heap puts the leaf at the end of the walk of
its address, behind present entries (with the USER bit if the flags have it), and leaves every other walk and the
shape of the heap as they were. -/
theorem map_pointwise {root virt phys flags : ℕ} {s : Phys} (hroot : root % 4096 = 0) (hone : SingleRef s.mem root)
    (hnone : RootUnreferenced s.mem root) (hsmall : ∀ ρ ∈ upper virt, ∀ e, reach s.mem root ρ ≠ .leaf e)
    (hsupply : Supply (IsTable s.mem root) (missing s.mem root virt) s.pmm) :
    ∃ s', map root s virt phys flags = .ok s' ∧
      reach s'.mem root (path virt).reverse = .leaf (phys ||| flags ||| pagePresent) ∧
      (∀ ρ ∈ upper virt, Ready s'.mem root (flags &&& pageUser) ρ) ∧
      (∀ w, w / 2 ^ 12 % 2 ^ 36 ≠ virt / 2 ^ 12 % 2 ^ 36 →
        reach s'.mem root (path w).reverse = reach s.mem root (path w).reverse) ∧
      SingleRef s'.mem root ∧ RootUnreferenced s'.mem root := by
  have hsep := separate_iff.2 ⟨hone, hnone⟩
  obtain ⟨t, s', hw, he⟩ := map_walked phys flags hroot hsep hsmall hsupply
  have hB : Bounded (ptIdx virt :: [pdIdx virt, pdptIdx virt, pml4Idx virt]) := path_bounded virt
  have hsame := sameBut_store s' root t (ptIdx virt) (phys ||| flags ||| pagePresent)
  obtain ⟨hleaf, hkeep⟩ := reach_setLeaf hw.sep hroot hB rfl hw.here (leaf_present phys flags)
  refine ⟨_, he, hleaf, ?_, ?_, separate_iff.1 ?_⟩
  · have hready := fun j σ (hs : j :: σ <:+ [pdIdx virt, pdptIdx virt, pml4Idx virt]) =>
      (hw.ready j σ hs).frame hw.sep hroot hB hw.here hsame (fun k hk => hB.of_cons.2 k (hs.subset hk)) hs.length_le
    simp only [upper, List.mem_cons, List.not_mem_nil, or_false, forall_eq_or_imp, forall_eq]
    exact ⟨hready _ _ (List.suffix_append [_, _] [_]), hready _ _ (List.suffix_append [_] [_, _]),
      hready _ _ List.suffix_rfl⟩
  · intro w hne
    have hother : (path w).reverse ≠ (path virt).reverse :=
      fun h => hne (path_eq_iff.1 (List.reverse_injective h))
    rw [hkeep _ (path_bounded w) (by simp [path]) hother, hw.keep _ (path_bounded w) (by simp [path])]
  · -- a longer path reaches no table
    apply hw.sep.congr
    intro σ y hσ hy
    by_cases hσlen : σ.length ≤ 4
    · rwa [← hkeep σ hσ hσlen]
      intro h
      rw [h] at hy
      exact Stop.noConfusion (hy.symm.trans hleaf)
    · cases σ with
      | nil => simp at hσlen
      | cons j σ =>
        obtain ⟨-, -, hlt, -⟩ := reach_table hy
        rw [List.length_cons] at hσlen
        omega

/-- a bitmap with the pages 2, 3 and 4 free -/
def threePages : Words := fun i => if i = 0 then ~~~0x1C#64 else BitVec.allOnes 64

theorem threePages_supply {H : ℕ → Prop} (h : ∀ x, H x → x = 0x1000) : Supply H 3 threePages := by
  have hfree : ∀ x, x ≠ 0x1000 → ¬ H x := fun x hx hH => hx (h x hH)
  have h2 := (Pmm.alloc_lowest (m := threePages) (p := 2) ⟨by decide, by decide⟩ (by decide)).1
  have h3 := (Pmm.alloc_lowest (m := setBit threePages 2) (p := 3) ⟨by decide, by decide⟩ (by decide)).1
  have h4 := (Pmm.alloc_lowest (m := setBit (setBit threePages 2) 3) (p := 4) ⟨by decide, by decide⟩ (by decide)).1
  exact ⟨_, _, h2, by decide, hfree _ (by decide), _, _, h3, by decide, hfree _ (by decide), _, _, h4, by decide,
    hfree _ (by decide), trivial⟩

/-- tables for one page: 0x400000 is at 0x5000 -/
def onePageMapped : Mem := fun a =>
  if a = 0x1000 then 0x2007 else if a = 0x2000 then 0x3007 else if a = 0x3010 then 0x4007
  else if a = 0x4000 then 0x5007 else 0

/-- there are no other tables -/
theorem onePageMapped_reach {ρ : List ℕ} {x : ℕ} (hρ : Bounded ρ) (h : reach onePageMapped 0x1000 ρ = .table x) :
    (ρ = [] ∧ x = 0x1000) ∨ (ρ = [0] ∧ x = 0x2000) ∨ (ρ = [0, 0] ∧ x = 0x3000) ∨ (ρ = [2, 0, 0] ∧ x = 0x4000) := by
  induction ρ generalizing x with
  | nil => exact Or.inl ⟨rfl, (Stop.table.inj h).symm⟩
  | cons i ρ ih =>
    obtain ⟨t, ht, hlen, hp, rfl⟩ := reach_table h
    obtain ⟨hi, hρ⟩ := hρ.of_cons
    have hentry : onePageMapped (t + 8 * i) ≠ 0 := fun h0 => hp (by rw [h0, Nat.zero_and])
    unfold onePageMapped at hentry
    rcases ih hρ ht with ⟨rfl, rfl⟩ | ⟨rfl, rfl⟩ | ⟨rfl, rfl⟩ | ⟨rfl, rfl⟩
    · obtain rfl : i = 0 := by split_ifs at hentry <;> omega
      exact Or.inr (Or.inl ⟨rfl, by decide⟩)
    · obtain rfl : i = 0 := by split_ifs at hentry <;> omega
      exact Or.inr (Or.inr (Or.inl ⟨rfl, by decide⟩))
    · obtain rfl : i = 2 := by split_ifs at hentry <;> omega
      exact Or.inr (Or.inr (Or.inr ⟨rfl, by decide⟩))
    · exact absurd hlen (by decide)

/-- these tables, and two free pages -/
def onePage : Phys := ⟨onePageMapped, fun i => if i = 0 then ~~~0x300#64 else BitVec.allOnes 64⟩

theorem onePage_supply : Supply (IsTable onePage.mem 0x1000) (missing onePage.mem 0x1000 0x40000000) onePage.pmm := by
  have hfresh : ∀ x, 0x5000 ≤ x → ¬ IsTable onePage.mem 0x1000 x := by
    rintro x hlow ⟨ρ, hρ, hx⟩
    rcases onePageMapped_reach hρ hx with ⟨-, rfl⟩ | ⟨-, rfl⟩ | ⟨-, rfl⟩ | ⟨-, rfl⟩ <;> omega
  have h8 := (Pmm.alloc_lowest (m := onePage.pmm) (p := 8) ⟨by decide, by decide⟩ (by decide)).1
  have h9 := (Pmm.alloc_lowest (m := setBit onePage.pmm 8) (p := 9) ⟨by decide, by decide⟩ (by decide)).1
  rw [show missing onePage.mem 0x1000 0x40000000 = 2 by decide]
  exact ⟨_, _, h8, by decide, hfresh _ (by decide), _, _, h9, by decide, hfresh _ (by decide), trivial⟩

/-- a second page, in another directory, needs two more tables; the first page and every other walk stay -/
theorem map_pointwise_mapped : ∃ s', map 0x1000 onePage 0x40000000 0x6000 7 = .ok s' ∧
    reach s'.mem 0x1000 (path 0x40000000).reverse = .leaf 0x6007 ∧
    reach s'.mem 0x1000 (path 0x400000).reverse = .leaf 0x5007 ∧
    ∀ w, w / 2 ^ 12 % 2 ^ 36 ≠ 0x40000000 / 2 ^ 12 % 2 ^ 36 →
      reach s'.mem 0x1000 (path w).reverse = reach onePage.mem 0x1000 (path w).reverse := by
  have hone : SingleRef onePage.mem 0x1000 := by
    rintro t i t' i' x ⟨ρ, hρ, ht, hi, hx⟩ ⟨σ, hσ, ht', hi', hx'⟩
    have hpath : i :: ρ = i' :: σ := by
      rcases onePageMapped_reach (hρ.cons hi) hx with ⟨h, rfl⟩ | ⟨h, rfl⟩ | ⟨h, rfl⟩ | ⟨h, rfl⟩ <;>
        rcases onePageMapped_reach (hσ.cons hi') hx' with ⟨h', hx⟩ | ⟨h', hx⟩ | ⟨h', hx⟩ | ⟨h', hx⟩ <;>
        first | omega | rw [h, h']
    obtain ⟨rfl, rfl⟩ := List.cons.inj hpath
    exact ⟨Stop.table.inj (ht.symm.trans ht'), rfl⟩
  have hroot : RootUnreferenced onePage.mem 0x1000 := by
    rintro t i ⟨ρ, hρ, ht, hi, hx⟩
    rcases onePageMapped_reach (hρ.cons hi) hx with ⟨h, -⟩ | ⟨-, h⟩ | ⟨-, h⟩ | ⟨-, h⟩ <;> cases h
  have hsmall : ∀ ρ ∈ upper 0x40000000, ∀ e, reach onePage.mem 0x1000 ρ ≠ .leaf e := by
    have habs : ∀ ρ ∈ upper 0x40000000,
        reach onePage.mem 0x1000 ρ = .absent ∨ reach onePage.mem 0x1000 ρ = .table 0x2000 := by
      decide
    intro ρ hρ e h
    rcases habs ρ hρ with h' | h' <;> exact Stop.noConfusion (h.symm.trans h')
  obtain ⟨s', he, hleaf, -, hkeep, -⟩ := @map_pointwise 0x1000 0x40000000 0x6000 7 onePage rfl hone hroot hsmall
    onePage_supply
  refine ⟨s', he, hleaf, ?_, hkeep⟩
  rw [hkeep 0x400000 (by decide)]
  decide

/-- a PML4 whose last entry refers to itself -/
def selfMapped : Mem := Function.update (fun _ => 0) (0x1000 + 8 * 511) 0x1003

theorem selfMapped_reach {ρ : List ℕ} {x : ℕ} (h : reach selfMapped 0x1000 ρ = .table x) :
    x = 0x1000 ∧ ∀ i ∈ ρ, i = 511 := by
  induction ρ generalizing x with
  | nil => exact ⟨(Stop.table.inj h).symm, by simp⟩
  | cons i ρ ih =>
    obtain ⟨t, ht, -, hp, rfl⟩ := reach_table h
    obtain ⟨rfl, hρ⟩ := ih ht
    have hi : i = 511 := by
      by_contra hne
      apply hp
      rw [selfMapped, Function.update_of_ne (by omega), Nat.zero_and]
    subst hi
    exact ⟨by rw [selfMapped, Function.update_self]; rfl, by simpa using hρ⟩

/-- with a recursive slot each table is referred to once, and a call for address 0 puts a leaf, the new PML4 entry, where
the walk of another page found nothing -/
theorem recursive_slot :
    SingleRef selfMapped 0x1000 ∧ (∀ ρ ∈ upper 0, ∀ e, reach selfMapped 0x1000 ρ ≠ .leaf e) ∧
      Supply (IsTable selfMapped 0x1000) (missing selfMapped 0x1000 0) threePages ∧
      ∃ s', map 0x1000 ⟨selfMapped, threePages⟩ 0 0x5000 3 = .ok s' ∧
        reach selfMapped 0x1000 (path 0xFFFFFFE00000).reverse = .absent ∧
        reach s'.mem 0x1000 (path 0xFFFFFFE00000).reverse = .leaf 0x2003 := by
  have habs : ∀ ρ ∈ upper 0, reach selfMapped 0x1000 ρ = .absent := by decide
  refine ⟨?_, fun ρ hρ e h => Stop.noConfusion ((habs ρ hρ).symm.trans h), ?_, ?_⟩
  · rintro t i t' i' x ⟨ρ, -, ht, -, hx⟩ ⟨σ, -, ht', -, hx'⟩
    have h := (selfMapped_reach hx).2 i (by simp)
    have h' := (selfMapped_reach hx').2 i' (by simp)
    exact ⟨(selfMapped_reach ht).1.trans (selfMapped_reach ht').1.symm, h.trans h'.symm⟩
  · exact threePages_supply fun x ⟨ρ, _, hx⟩ => (selfMapped_reach hx).1
  · have hwalk : (map 0x1000 ⟨selfMapped, threePages⟩ 0 0x5000 3).toOption.elim .absent
        (fun s' => reach s'.mem 0x1000 (path 0xFFFFFFE00000).reverse) = .leaf 0x2003 := by decide +kernel
    cases h : map 0x1000 ⟨selfMapped, threePages⟩ 0 0x5000 3 with
    | error e => rw [h] at hwalk; cases hwalk
    | ok s' => exact ⟨s', rfl, by decide, by rwa [h] at hwalk⟩

end Tomorrow.Vmm
