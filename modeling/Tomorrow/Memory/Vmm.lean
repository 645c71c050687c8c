/-
The four-level page tables (`vmm.rs`).

Physical memory is a function from addresses to quadwords; a table at t has its entry i at t + 8 i. `map` walks down from
the PML4, allocates the tables that are missing, gives the USER bit to the entries it passes, stops at a large page, and
stores the leaf. All processes share one PML4, so every mapping ever made lives in the same tree.

The tree is described by a function T from table pages to the list of indices that lead to them (`Tree`): a present entry
i of the table at path π refers to the table at path π ++ [i]. What a call of `map` does to the tree is `Extends`: tables
are only added, upper entries only gain the USER bit, and one leaf changes. `Rewrites` adds what happens to every single
entry (`Cell`).

Results:
- `map_rewrites`: a call with any flags changes entries as `Cell` allows; a user mapping that stays clear of large pages
  is reached by ring 3, with the leaf stored;
- `map_extends`: the same for a user mapping below a root entry without large pages;
- `userLeaf_grows`: no other page that ring 3 could reach is affected.
-/
import Mathlib.Data.Nat.Bitwise
import Tomorrow.Memory.Pmm

namespace Tomorrow.Vmm

open Tomorrow.Core

/-! ## Model -/

/-- quadwords of physical memory by address -/
abbrev Mem := ℕ → ℕ

structure Phys where
  mem : Mem
  pmm : Words

def pagePresent : ℕ := 1

def pageWritable : ℕ := 2

def pageUser : ℕ := 4

/-- a large page at the PDPT or PD level -/
def ps : ℕ := 128

def pageSize : ℕ := 4096

def Phys.store (s : Phys) (a v : ℕ) : Phys := { s with mem := Function.update s.mem a v }

/-- `write_bytes(phys, 0, 4096)` -/
def Phys.zeroPage (s : Phys) (t : ℕ) : Phys := { s with mem := fun a => if t ≤ a ∧ a < t + 4096 then 0 else s.mem a }

def allocTable (s : Phys) : Except Panic (ℕ × Phys) :=
  Pmm.alloc s.pmm >>= fun r =>
    if r.1 = 0 then .error (.explicit "VMM: out of memory") else .ok (r.1, Phys.zeroPage { s with pmm := r.2 } r.1)

def entryToTable (entry : ℕ) : ℕ := entry &&& 0x000FFFFFFFFFF000

def pml4Idx (virt : ℕ) : ℕ := (virt >>> 39) &&& 0x1FF

def pdptIdx (virt : ℕ) : ℕ := (virt >>> 30) &&& 0x1FF

def pdIdx (virt : ℕ) : ℕ := (virt >>> 21) &&& 0x1FF

def ptIdx (virt : ℕ) : ℕ := (virt >>> 12) &&& 0x1FF

/-- make the entry at address a refer to a table -/
def ensureTable (s : Phys) (a userBit : ℕ) : Except Panic Phys :=
  if s.mem a &&& pagePresent = 0 then
    allocTable s >>= fun r => .ok (r.2.store a (r.1 ||| pagePresent ||| pageWritable ||| userBit))
  else if userBit ≠ 0 then .ok (s.store a (s.mem a ||| pageUser))
  else .ok s

/-- the same at a level where the entry may be a large page, which ends the walk -/
def descend (s : Phys) (a userBit : ℕ) (next : Phys → Except Panic Phys) : Except Panic Phys :=
  if s.mem a &&& pagePresent ≠ 0 ∧ s.mem a &&& ps ≠ 0 then
    .ok (if userBit ≠ 0 then s.store a (s.mem a ||| pageUser) else s)
  else ensureTable s a userBit >>= next

/-- `PageTable::map` on the table at pml4 -/
def map (pml4 : ℕ) (s : Phys) (virt phys flags : ℕ) : Except Panic Phys :=
  let userBit := flags &&& pageUser
  let pml4Entry := pml4 + 8 * pml4Idx virt
  ensureTable s pml4Entry userBit >>= fun s =>
    let pdptEntry := entryToTable (s.mem pml4Entry) + 8 * pdptIdx virt
    descend s pdptEntry userBit fun s =>
      let pdEntry := entryToTable (s.mem pdptEntry) + 8 * pdIdx virt
      descend s pdEntry userBit fun s =>
        .ok (s.store (entryToTable (s.mem pdEntry) + 8 * ptIdx virt) (phys ||| flags ||| pagePresent))

/-- the four indices of an address -/
def path (virt : ℕ) : List ℕ := [pml4Idx virt, pdptIdx virt, pdIdx virt, ptIdx virt]

/-- the 4 KB leaf that ring 3 reaches from the table at t along a list of indices: every entry on the way present, with
the USER bit and not a large page -/
def userLeaf (mem : Mem) : ℕ → List ℕ → Option ℕ
  | _, [] => none
  | t, [i] =>
    if mem (t + 8 * i) &&& pagePresent ≠ 0 ∧ mem (t + 8 * i) &&& pageUser ≠ 0 then some (mem (t + 8 * i)) else none
  | t, i :: j :: is =>
    if mem (t + 8 * i) &&& pagePresent ≠ 0 ∧ mem (t + 8 * i) &&& pageUser ≠ 0 ∧ mem (t + 8 * i) &&& ps = 0 then
      userLeaf mem (entryToTable (mem (t + 8 * i))) (j :: is)
    else none

/-! ## Bits of an entry -/

theorem and_pow_eq_zero (e k : ℕ) : e &&& 2 ^ k = 0 ↔ e.testBit k = false := by
  rw [Nat.and_two_pow]
  cases e.testBit k <;> simp

theorem present_eq_zero {e : ℕ} : e &&& pagePresent = 0 ↔ e.testBit 0 = false := and_pow_eq_zero e 0

theorem writable_eq_zero {e : ℕ} : e &&& pageWritable = 0 ↔ e.testBit 1 = false := and_pow_eq_zero e 1

theorem user_eq_zero {e : ℕ} : e &&& pageUser = 0 ↔ e.testBit 2 = false := and_pow_eq_zero e 2

theorem ps_eq_zero {e : ℕ} : e &&& ps = 0 ↔ e.testBit 7 = false := and_pow_eq_zero e 7

theorem testBit_addrMask (i : ℕ) : (0x000FFFFFFFFFF000 : ℕ).testBit i = (decide (12 ≤ i) && decide (i < 52)) := by
  have : (0x000FFFFFFFFFF000 : ℕ) = (2 ^ 40 - 1) * 2 ^ 12 := by norm_num
  rw [this, Nat.testBit_mul_two_pow, Nat.testBit_two_pow_sub_one]
  by_cases h : 12 ≤ i
  · simp only [h, decide_true, Bool.true_and]
    exact decide_eq_decide.2 (by omega)
  · simp [h]

theorem testBit_pageUser (i : ℕ) : pageUser.testBit i = decide (i = 2) := by
  rw [show pageUser = 2 ^ 2 from rfl, Nat.testBit_two_pow]
  exact decide_eq_decide.2 eq_comm

/-- the address part of an entry built from a page and low flag bits -/
theorem entryToTable_or {t f : ℕ} (ht : t % 4096 = 0) (hlt : t < 2 ^ 52) (hf : f < 4096) : entryToTable (t ||| f) = t := by
  apply Nat.eq_of_testBit_eq
  intro i
  rw [entryToTable, Nat.testBit_and, Nat.testBit_or, testBit_addrMask]
  by_cases h12 : 12 ≤ i
  · have hfi : f.testBit i = false :=
      Nat.testBit_lt_two_pow (lt_of_lt_of_le (show f < 2 ^ 12 from hf) (Nat.pow_le_pow_right (by omega) h12))
    by_cases h52 : i < 52
    · simp [h12, h52, hfi]
    · have hti : t.testBit i = false :=
        Nat.testBit_lt_two_pow (lt_of_lt_of_le hlt (Nat.pow_le_pow_right (by omega) (by omega)))
      simp [h52, hti]
  · have hti : t.testBit i = false := by
      have : t = t / 2 ^ 12 * 2 ^ 12 := by omega
      rw [this, Nat.testBit_mul_two_pow]
      simp [h12]
    simp [h12, hti]

theorem entryToTable_or_user (e : ℕ) : entryToTable (e ||| pageUser) = entryToTable e := by
  apply Nat.eq_of_testBit_eq
  intro i
  rw [entryToTable, entryToTable, Nat.testBit_and, Nat.testBit_and, Nat.testBit_or, testBit_addrMask, testBit_pageUser]
  by_cases h : i = 2
  · subst h; simp
  · simp [h]

/-- the flags of a fresh table entry -/
theorem tableFlags {t u : ℕ} : t ||| pagePresent ||| pageWritable ||| u = t ||| (3 ||| u) := by
  rw [Nat.or_assoc, Nat.or_assoc, ← Nat.or_assoc pagePresent]
  rfl

/-- the flags of a leaf for ring 3 -/
theorem leafFlags (a : ℕ) : a ||| (pageWritable ||| pageUser) ||| pagePresent = a ||| 7 := by
  rw [Nat.or_assoc]
  rfl

theorem index_lt (x : ℕ) : x &&& 0x1FF < 512 := lt_of_le_of_lt Nat.and_le_right (by omega)

theorem path_lt (virt : ℕ) : ∀ i ∈ path virt, i < 512 := by
  intro i hi
  simp only [path, List.mem_cons, List.not_mem_nil, or_false] at hi
  rcases hi with rfl | rfl | rfl | rfl <;> exact index_lt _

/-- the four indices as digits -/
theorem path_eq (v : ℕ) : path v = [v / 2 ^ 39 % 512, v / 2 ^ 30 % 512, v / 2 ^ 21 % 512, v / 2 ^ 12 % 512] := by
  have h9 : ∀ x : ℕ, x &&& 0x1FF = x % 512 := fun x => Nat.and_two_pow_sub_one_eq_mod x 9
  simp only [path, pml4Idx, pdptIdx, pdIdx, ptIdx, h9, Nat.shiftRight_eq_div_pow]

/-- two addresses have the same path when they lie in the same page of the 48-bit address space -/
theorem path_inj {v w : ℕ} (hv : v < 2 ^ 48) (hw : w < 2 ^ 48) (h : path v = path w) : v / 4096 = w / 4096 := by
  simp only [path_eq, List.cons.injEq, and_true] at h
  omega

/-- two addresses whose paths end in the same table lie in the same 2 MB -/
theorem path_table_inj {v w i j : ℕ} {π : List ℕ} (hv : v < 2 ^ 48) (hw : w < 2 ^ 48) (h : path v = π ++ [i])
    (h' : path w = π ++ [j]) : v / 2 ^ 21 = w / 2 ^ 21 := by
  have he : (path v).dropLast = (path w).dropLast := by rw [h, h', List.dropLast_concat, List.dropLast_concat]
  simp only [path_eq, List.dropLast_cons_cons, List.dropLast_singleton, List.cons.injEq, and_true] at he
  omega

/-! ## The tree of tables -/

/-- the tables of a page-table tree: T gives the path of indices that leads to each table page. Large pages occur only
below the root entries of L. -/
structure Tree (root : ℕ) (L : List ℕ) (T : ℕ → Option (List ℕ)) (s : Phys) : Prop where
  root_path : T root = some []
  aligned : ∀ t, T t ≠ none → t % 4096 = 0
  lt : ∀ t, T t ≠ none → t < 2 ^ 33
  used : ∀ t, T t ≠ none → bit s.pmm (t / 4096) = true
  child : ∀ t π i, T t = some π → π.length < 3 → i < 512 → s.mem (t + 8 * i) &&& pagePresent ≠ 0 →
    s.mem (t + 8 * i) &&& ps = 0 → T (entryToTable (s.mem (t + 8 * i))) = some (π ++ [i])
  large : ∀ t π i, T t = some π → π.length < 3 → i < 512 → s.mem (t + 8 * i) &&& pagePresent ≠ 0 →
    s.mem (t + 8 * i) &&& ps ≠ 0 → ∃ j ∈ L, π.head? = some j

/-- between two states of a tree with tables T: upper entries only gain the USER bit or become present, leaves stay,
except for the leaf at the target path -/
def Grows (T : ℕ → Option (List ℕ)) (m m' : Mem) (target : List ℕ) : Prop :=
  ∀ t π i, T t = some π → i < 512 →
    m' (t + 8 * i) = m (t + 8 * i) ∨
    (π.length < 3 ∧ (m (t + 8 * i) &&& pagePresent = 0 ∨ m' (t + 8 * i) = m (t + 8 * i) ||| pageUser)) ∨
    π ++ [i] = target

/-- what a part of `map` does to the tree: the tables of T' that are not in T were free pages, a leaf of T' is a leaf of
T, or empty, or the value v at the target path -/
structure Extends (k : Pmm.Image) (root : ℕ) (L : List ℕ) (target : List ℕ) (v : ℕ) (T : ℕ → Option (List ℕ)) (s : Phys)
    (T' : ℕ → Option (List ℕ)) (s' : Phys) : Prop where
  tree : Tree root L T' s'
  reserved : Pmm.Reserved k s'.pmm
  le : ∀ t π, T t = some π → T' t = some π
  grows : Grows T s.mem s'.mem target
  leaf : ∀ t π i, T' t = some π → π.length = 3 → i < 512 →
    (T t = some π ∧ s'.mem (t + 8 * i) = s.mem (t + 8 * i)) ∨ s'.mem (t + 8 * i) &&& pagePresent = 0 ∨
      (π ++ [i] = target ∧ s'.mem (t + 8 * i) = v)
  used : ∀ q, bit s'.pmm q = true ↔ bit s.pmm q = true ∨ ∃ t, T t = none ∧ T' t ≠ none ∧ t / 4096 = q
  fresh : ∀ t, T t = none → T' t ≠ none → bit s.pmm (t / 4096) = false

theorem or_user_present {e : ℕ} : (e ||| pageUser) &&& pagePresent = 0 ↔ e &&& pagePresent = 0 := by
  rw [present_eq_zero, present_eq_zero, Nat.testBit_or, testBit_pageUser]
  simp

theorem or_user_ps {e : ℕ} : (e ||| pageUser) &&& ps = 0 ↔ e &&& ps = 0 := by
  rw [ps_eq_zero, ps_eq_zero, Nat.testBit_or, testBit_pageUser]
  simp

theorem or_user_user (e : ℕ) : (e ||| pageUser) &&& pageUser ≠ 0 := by
  rw [Ne, user_eq_zero, Nat.testBit_or, testBit_pageUser]
  simp

theorem or_user_or_user (e : ℕ) : e ||| pageUser ||| pageUser = e ||| pageUser := by
  rw [Nat.or_assoc, Nat.or_self]

section

variable {k : Pmm.Image} {root : ℕ} {L : List ℕ} {target : List ℕ} {v : ℕ} {T T' T'' : ℕ → Option (List ℕ)}
  {s s' s'' : Phys}

theorem isTable {t : ℕ} {π : List ℕ} (h : T t = some π) : T t ≠ none := Option.ne_none_iff_exists'.2 ⟨π, h⟩

theorem used_self (q : ℕ) : bit s.pmm q = true ↔ bit s.pmm q = true ∨ ∃ t, T t = none ∧ T t ≠ none ∧ t / 4096 = q :=
  ⟨Or.inl, fun h => h.elim id fun ⟨_, h1, h2, _⟩ => absurd h1 h2⟩

theorem Extends.refl (ht : Tree root L T s) (hr : Pmm.Reserved k s.pmm) : Extends k root L target v T s T s where
  tree := ht
  reserved := hr
  le := fun _ _ h => h
  grows := fun _ _ _ _ _ => Or.inl rfl
  leaf := fun _ _ _ h _ _ => Or.inl ⟨h, rfl⟩
  used := used_self
  fresh := fun _ h1 h2 => absurd h1 h2

theorem Extends.ne_none (h : Extends k root L target v T s T' s') {t : ℕ} (ht : T t ≠ none) : T' t ≠ none := by
  obtain ⟨π, hπ⟩ := Option.ne_none_iff_exists'.1 ht
  exact isTable (h.le t π hπ)

theorem Grows.trans {m m' m'' : Mem} (h1 : Grows T m m' target) (h2 : Grows T' m' m'' target)
    (hle : ∀ t π, T t = some π → T' t = some π) : Grows T m m'' target := by
  intro t π i ht hi
  rcases h1 t π i ht hi with e1 | ⟨hlen, e1⟩ | e1
  · rcases h2 t π i (hle t π ht) hi with e2 | ⟨hlen, e2⟩ | e2
    · exact Or.inl (e2.trans e1)
    · rw [e1] at e2
      exact Or.inr (Or.inl ⟨hlen, e2⟩)
    · exact Or.inr (Or.inr e2)
  · rcases h2 t π i (hle t π ht) hi with e2 | ⟨-, e2⟩ | e2
    · rw [e2]
      exact Or.inr (Or.inl ⟨hlen, e1⟩)
    · rcases e1 with e1 | e1
      · exact Or.inr (Or.inl ⟨hlen, Or.inl e1⟩)
      · rw [e1] at e2
        rcases e2 with e2 | e2
        · exact Or.inr (Or.inl ⟨hlen, Or.inl (or_user_present.1 e2)⟩)
        · exact Or.inr (Or.inl ⟨hlen, Or.inr (e2.trans (or_user_or_user _))⟩)
    · exact Or.inr (Or.inr e2)
  · exact Or.inr (Or.inr e1)

theorem Extends.trans (h1 : Extends k root L target v T s T' s') (h2 : Extends k root L target v T' s' T'' s'') :
    Extends k root L target v T s T'' s'' where
  tree := h2.tree
  reserved := h2.reserved
  le := fun t π ht => h2.le t π (h1.le t π ht)
  grows := h1.grows.trans h2.grows h1.le
  leaf := by
    intro t π i ht hlen hi
    rcases h2.leaf t π i ht hlen hi with ⟨ht', e2⟩ | e2 | e2
    · rw [e2]
      exact h1.leaf t π i ht' hlen hi
    · exact Or.inr (Or.inl e2)
    · exact Or.inr (Or.inr e2)
  used := by
    intro q
    rw [h2.used, h1.used]
    constructor
    · rintro ((hb | ⟨t, h, h', hq⟩) | ⟨t, h, h', hq⟩)
      · exact Or.inl hb
      · exact Or.inr ⟨t, h, h2.ne_none h', hq⟩
      · refine Or.inr ⟨t, ?_, h', hq⟩
        by_contra hT
        exact h1.ne_none hT h
    · rintro (hb | ⟨t, h, h', hq⟩)
      · exact Or.inl (Or.inl hb)
      · by_cases hT' : T' t = none
        · exact Or.inr ⟨t, hT', h', hq⟩
        · exact Or.inl (Or.inr ⟨t, h, hT', hq⟩)
  fresh := by
    intro t h h'
    by_cases hT' : T' t = none
    · have hb := h2.fresh t hT' h'
      by_contra hb'
      have := (h1.used (t / 4096)).2 (Or.inl (by simpa using hb'))
      rw [hb] at this
      cases this
    · exact h1.fresh t h hT'

/-- cells of different tables or indices are different -/
theorem cell_inj (ht : Tree root L T s) {t t' i i' : ℕ} (h : T t ≠ none) (h' : T t' ≠ none) (hi : i < 512) (hi' : i' < 512)
    (he : t + 8 * i = t' + 8 * i') : t = t' ∧ i = i' := by
  have := ht.aligned t h
  have := ht.aligned t' h'
  omega

theorem store_self (a x : ℕ) : (s.store a x).mem a = x := by simp [Phys.store]

theorem store_of_ne {a b : ℕ} (x : ℕ) (h : b ≠ a) : (s.store a x).mem b = s.mem b := by
  simp [Phys.store, h]

/-- a store into a cell of the tree leaves the other cells alone -/
theorem store_cell (ht : Tree root L T s) {t t' i i' : ℕ} (x : ℕ) (h : T t ≠ none) (h' : T t' ≠ none) (hi : i < 512)
    (hi' : i' < 512) : (t' = t ∧ i' = i) ∨ (s.store (t + 8 * i) x).mem (t' + 8 * i') = s.mem (t' + 8 * i') := by
  by_cases he : t' + 8 * i' = t + 8 * i
  · exact Or.inl (cell_inj ht h' h hi' hi he)
  · exact Or.inr (store_of_ne x he)

/-- setting the USER bit of an upper entry -/
theorem extends_setUser (ht : Tree root L T s) (hr : Pmm.Reserved k s.pmm) {t i : ℕ} {π : List ℕ} (hT : T t = some π)
    (hπ : π.length < 3) (hi : i < 512) :
    Extends k root L target v T s T (s.store (t + 8 * i) (s.mem (t + 8 * i) ||| pageUser)) := by
  have hcell := fun {t' π' i'} (h' : T t' = some π') (hi' : i' < 512) =>
    store_cell ht (s.mem (t + 8 * i) ||| pageUser) (isTable hT) (isTable h') hi hi'
  refine ⟨⟨ht.root_path, ht.aligned, ht.lt, ht.used, ?_, ?_⟩, hr, fun _ _ h => h, ?_, ?_, used_self,
    fun _ h1 h2 => absurd h1 h2⟩
  · intro t' π' i' h' hlen hi' hp hps
    rcases hcell h' hi' with ⟨rfl, rfl⟩ | he
    · rw [store_self] at hp hps ⊢
      rw [entryToTable_or_user]
      exact ht.child t' π' i' h' hlen hi' (fun h => hp (or_user_present.2 h)) (or_user_ps.1 hps)
    · rw [he] at hp hps ⊢
      exact ht.child t' π' i' h' hlen hi' hp hps
  · intro t' π' i' h' hlen hi' hp hps
    rcases hcell h' hi' with ⟨rfl, rfl⟩ | he
    · rw [store_self] at hp hps
      exact ht.large t' π' i' h' hlen hi' (fun h => hp (or_user_present.2 h)) (fun h => hps (or_user_ps.2 h))
    · rw [he] at hp hps
      exact ht.large t' π' i' h' hlen hi' hp hps
  · intro t' π' i' h' hi'
    rcases hcell h' hi' with ⟨rfl, rfl⟩ | he
    · rw [hT] at h'
      cases h'
      exact Or.inr (Or.inl ⟨hπ, Or.inr (store_self _ _)⟩)
    · exact Or.inl he
  · intro t' π' i' h' hlen hi'
    rcases hcell h' hi' with ⟨rfl, rfl⟩ | he
    · rw [hT] at h'
      cases h'
      omega
    · exact Or.inl ⟨h', he⟩

/-- storing the leaf -/
theorem extends_setLeaf (ht : Tree root L T s) (hr : Pmm.Reserved k s.pmm) {t i : ℕ} {π : List ℕ} (hT : T t = some π)
    (hπ : π.length = 3) (hi : i < 512) : Extends k root L (π ++ [i]) v T s T (s.store (t + 8 * i) v) := by
  have hcell := fun {t' π' i'} (h' : T t' = some π') (hi' : i' < 512) => store_cell ht v (isTable hT) (isTable h') hi hi'
  -- the cell is below the levels that refer to tables
  have hupper : ∀ {t' π' i'}, T t' = some π' → π'.length < 3 → i' < 512 →
      (s.store (t + 8 * i) v).mem (t' + 8 * i') = s.mem (t' + 8 * i') := by
    intro t' π' i' h' hlen hi'
    rcases hcell h' hi' with ⟨rfl, rfl⟩ | he
    · rw [hT] at h'
      cases h'
      omega
    · exact he
  refine ⟨⟨ht.root_path, ht.aligned, ht.lt, ht.used, ?_, ?_⟩, hr, fun _ _ h => h, ?_, ?_, used_self,
    fun _ h1 h2 => absurd h1 h2⟩
  · intro t' π' i' h' hlen hi' hp hps
    rw [hupper h' hlen hi'] at hp hps ⊢
    exact ht.child t' π' i' h' hlen hi' hp hps
  · intro t' π' i' h' hlen hi' hp hps
    rw [hupper h' hlen hi'] at hp hps
    exact ht.large t' π' i' h' hlen hi' hp hps
  · intro t' π' i' h' hi'
    rcases hcell h' hi' with ⟨rfl, rfl⟩ | he
    · rw [hT] at h'
      cases h'
      exact Or.inr (Or.inr rfl)
    · exact Or.inl he
  · intro t' π' i' h' hlen hi'
    rcases hcell h' hi' with ⟨rfl, rfl⟩ | he
    · rw [hT] at h'
      cases h'
      exact Or.inr (Or.inr ⟨rfl, store_self _ _⟩)
    · exact Or.inl ⟨h', he⟩

/-- the page a table is allocated in belongs to no table of the tree -/
theorem allocTable_spec {t : ℕ} (ht : Tree root L T s) (hr : Pmm.Reserved k s.pmm) (h : allocTable s = .ok (t, s')) :
    Pmm.Frame k t ∧ T t = none ∧ bit s.pmm (t / 4096) = false ∧
      (∀ q, bit s'.pmm q = (decide (q = t / 4096) || bit s.pmm q)) ∧
      ∀ a, s'.mem a = if t ≤ a ∧ a < t + 4096 then 0 else s.mem a := by
  unfold allocTable at h
  obtain ⟨⟨a, m⟩, ha, h⟩ := bind_ok.1 h
  split_ifs at h with h0
  cases h
  obtain ⟨hf, hb, hbits⟩ := Pmm.alloc_frame hr ha
  refine ⟨hf, ?_, hb, hbits, fun _ => rfl⟩
  by_contra hT
  have := ht.used _ hT
  rw [hb] at this
  cases this

/-- the cells after a new table is stored in entry i of t: the others are as before, those of the new table are 0 -/
theorem newTable_cells (ht : Tree root L T s) (hr : Pmm.Reserved k s.pmm) {t t₁ i : ℕ} {π : List ℕ} {s₁ : Phys}
    (hT : T t = some π) (hi : i < 512) (h : allocTable s = .ok (t₁, s₁)) (x : ℕ) :
    (∀ t' π' i', T t' = some π' → i' < 512 → (t' = t ∧ i' = i) ∨
      (s₁.store (t + 8 * i) x).mem (t' + 8 * i') = s.mem (t' + 8 * i')) ∧
    ∀ i' < 512, (s₁.store (t + 8 * i) x).mem (t₁ + 8 * i') = 0 := by
  obtain ⟨hframe, hnone, -, -, hmem⟩ := allocTable_spec ht hr h
  have halign := hframe.aligned
  have hnew : ∀ {t' π'}, T t' = some π' → t' ≠ t₁ := fun h' heq => by rw [heq, hnone] at h'; cases h'
  constructor
  · intro t' π' i' h' hi'
    by_cases he : t' + 8 * i' = t + 8 * i
    · exact Or.inl (cell_inj ht (isTable h') (isTable hT) hi' hi he)
    · right
      have := ht.aligned t' (isTable h')
      have := hnew h'
      rw [store_of_ne _ he, hmem, if_neg (by omega)]
  · intro i' hi'
    have := ht.aligned t (isTable hT)
    have := hnew hT
    rw [store_of_ne _ (by omega), hmem, if_pos (by omega)]

theorem update_some {t₁ t' : ℕ} {π π' : List ℕ} (h : Function.update T t₁ (some π) t' = some π') :
    (t' = t₁ ∧ π' = π) ∨ T t' = some π' := by
  by_cases he : t' = t₁
  · subst he
    rw [Function.update_self] at h
    exact Or.inl ⟨rfl, (Option.some.inj h).symm⟩
  · rw [Function.update_of_ne he] at h
    exact Or.inr h

theorem update_ne_none {t₁ t' : ℕ} {π : List ℕ} (h : Function.update T t₁ (some π) t' ≠ none) : t' = t₁ ∨ T t' ≠ none := by
  obtain ⟨π', hπ'⟩ := Option.ne_none_iff_exists'.1 h
  rcases update_some hπ' with ⟨rfl, -⟩ | hold
  · exact Or.inl rfl
  · exact Or.inr (isTable hold)

/-- the flag bits of an entry that refers to the page t -/
theorem testBit_page_or {t f j : ℕ} (ht : t % 4096 = 0) (hj : j < 12) : (t ||| f).testBit j = f.testBit j := by
  rw [Nat.testBit_or, show t = t / 2 ^ 12 * 2 ^ 12 by omega, Nat.testBit_mul_two_pow]
  simp [show ¬ 12 ≤ j by omega]

theorem update_le {t₁ t' : ℕ} {π π' : List ℕ} (hnone : T t₁ = none) (h : T t' = some π') :
    Function.update T t₁ (some π) t' = some π' := by
  rw [Function.update_of_ne (fun heq => by rw [heq, hnone] at h; cases h), h]

/-- the entries of the tree with the new table: that of the new table itself, those in it, and those that were there -/
theorem newTable_entry (ht : Tree root L T s) (hr : Pmm.Reserved k s.pmm) {t t₁ i x : ℕ} {π : List ℕ} {s₁ : Phys}
    (hT : T t = some π) (hi : i < 512) (h : allocTable s = .ok (t₁, s₁)) {t' i' : ℕ} {π' : List ℕ}
    (h' : Function.update T t₁ (some (π ++ [i])) t' = some π') (hi' : i' < 512) :
    (s₁.store (t + 8 * i) x).mem (t' + 8 * i') = 0 ∨
      (π' = π ∧ i' = i ∧ (s₁.store (t + 8 * i) x).mem (t' + 8 * i') = x) ∨
      (T t' = some π' ∧ (s₁.store (t + 8 * i) x).mem (t' + 8 * i') = s.mem (t' + 8 * i')) := by
  obtain ⟨hcell, hzero⟩ := newTable_cells ht hr hT hi h x
  rcases update_some h' with ⟨rfl, -⟩ | hold
  · exact Or.inl (hzero i' hi')
  · rcases hcell t' π' i' hold hi' with ⟨rfl, rfl⟩ | he
    · exact Or.inr (Or.inl ⟨Option.some.inj (hold.symm.trans hT), rfl, store_self _ _⟩)
    · exact Or.inr (Or.inr ⟨hold, he⟩)

/-- the tables with a fresh one behind an entry are a tree again -/
theorem tree_newTable (ht : Tree root L T s) (hr : Pmm.Reserved k s.pmm) {t t₁ i f : ℕ} {π : List ℕ} {s₁ : Phys}
    (hT : T t = some π) (hi : i < 512) (h : allocTable s = .ok (t₁, s₁)) (hf : f < 128) :
    Tree root L (Function.update T t₁ (some (π ++ [i]))) (s₁.store (t + 8 * i) (t₁ ||| f)) := by
  obtain ⟨hframe, hnone, -, hbits, -⟩ := allocTable_spec ht hr h
  have hlt := hframe.lt
  have hused : ∀ q, q = t₁ / 4096 ∨ bit s.pmm q = true → bit s₁.pmm q = true := by
    intro q hq
    rw [hbits]
    simpa using hq
  refine ⟨update_le hnone ht.root_path, fun t' h' => ?_, fun t' h' => ?_, fun t' h' => ?_,
    fun t' π' i' h' hlen hi' hp hps => ?_, fun t' π' i' h' hlen hi' hp hps => ?_⟩
  · rcases update_ne_none h' with rfl | h'
    · exact hframe.aligned
    · exact ht.aligned t' h'
  · rcases update_ne_none h' with rfl | h'
    · omega
    · exact ht.lt t' h'
  · rcases update_ne_none h' with rfl | h'
    · exact hused _ (Or.inl rfl)
    · exact hused _ (Or.inr (ht.used t' h'))
  · rcases newTable_entry (x := t₁ ||| f) ht hr hT hi h h' hi' with he | ⟨rfl, rfl, he⟩ | ⟨hold, he⟩
    · rw [he] at hp
      simp at hp
    · rw [he, entryToTable_or hframe.aligned (by omega) (by omega), Function.update_self]
    · rw [he] at hp hps ⊢
      exact update_le hnone (ht.child t' π' i' hold hlen hi' hp hps)
  · rcases newTable_entry (x := t₁ ||| f) ht hr hT hi h h' hi' with he | ⟨rfl, rfl, he⟩ | ⟨hold, he⟩
    · rw [he] at hp
      simp at hp
    · -- the new entry is no large page: its flags are below bit 7
      rw [he, Ne, ps_eq_zero, testBit_page_or hframe.aligned (by omega),
        Nat.testBit_lt_two_pow (show f < 2 ^ 7 from hf)] at hps
      exact absurd rfl hps
    · rw [he] at hp hps
      exact ht.large t' π' i' hold hlen hi' hp hps

/-- a fresh table behind an entry that was not present -/
theorem extends_newTable (ht : Tree root L T s) (hr : Pmm.Reserved k s.pmm) {t t₁ i f : ℕ} {π : List ℕ} {s₁ : Phys}
    (hT : T t = some π) (hπ : π.length < 3) (hi : i < 512) (habs : s.mem (t + 8 * i) &&& pagePresent = 0)
    (h : allocTable s = .ok (t₁, s₁)) (hf : f < 128) :
    Extends k root L target v T s (Function.update T t₁ (some (π ++ [i]))) (s₁.store (t + 8 * i) (t₁ ||| f)) := by
  obtain ⟨-, hnone, hfree, hbits, -⟩ := allocTable_spec ht hr h
  have hused : ∀ q, bit s₁.pmm q = true ↔ q = t₁ / 4096 ∨ bit s.pmm q = true := by
    intro q
    rw [hbits]
    simp
  -- a table that T does not have is the new one
  have hnew : ∀ t', T t' = none → Function.update T t₁ (some (π ++ [i])) t' ≠ none → t' = t₁ := by
    intro t' h1 h2
    exact (update_ne_none h2).resolve_right fun hT' => hT' h1
  refine ⟨tree_newTable ht hr hT hi h hf, fun p hp hk => (hused p).2 (Or.inr (hr p hp hk)),
    fun _ _ => update_le hnone, fun t' π' i' h' hi' => ?_, fun t' π' i' h' hlen hi' => ?_, fun q => ?_,
    fun t' h1 h2 => ?_⟩
  · rcases (newTable_cells ht hr hT hi h (t₁ ||| f)).1 t' π' i' h' hi' with ⟨rfl, rfl⟩ | he
    · rw [hT] at h'
      cases h'
      exact Or.inr (Or.inl ⟨hπ, Or.inl habs⟩)
    · exact Or.inl he
  · rcases newTable_entry (x := t₁ ||| f) ht hr hT hi h h' hi' with he | ⟨rfl, rfl, -⟩ | hold
    · rw [he]
      exact Or.inr (Or.inl (Nat.zero_and _))
    · omega
    · exact Or.inl hold
  · rw [show (s₁.store (t + 8 * i) (t₁ ||| f)).pmm = s₁.pmm from rfl, hused]
    constructor
    · rintro (rfl | hb)
      · exact Or.inr ⟨t₁, hnone, by rw [Function.update_self]; exact Option.some_ne_none _, rfl⟩
      · exact Or.inl hb
    · rintro (hb | ⟨t', h1, h2, rfl⟩)
      · exact Or.inr hb
      · exact Or.inl (by rw [hnew t' h1 h2])
  · rw [hnew t' h1 h2]
    exact hfree

/-! ## Cell by cell -/

/-- what a call may do to the entry at path p: nothing; on the way to the target a missing table is filled in or, for a
user mapping, a present entry that is no large page gains the USER bit; at the target the leaf is stored -/
inductive Cell (u : ℕ) (target : List ℕ) (v : ℕ) (p : List ℕ) : ℕ → ℕ → Prop
  | kept (e : ℕ) : Cell u target v p e e
  | table {o e : ℕ} (hp : p <+: target) (hlen : p.length < 4) (habs : o &&& pagePresent = 0)
      (hpres : e &&& pagePresent ≠ 0) (hw : e &&& pageWritable ≠ 0) (hs : e &&& ps = 0) : Cell u target v p o e
  | user {e : ℕ} (hu : u ≠ 0) (hp : p <+: target) (hlen : p.length < 4) (hpres : e &&& pagePresent ≠ 0)
      (hs : e &&& ps = 0) : Cell u target v p e (e ||| pageUser)
  | leaf {e : ℕ} (hp : p = target) : Cell u target v p e v

/-- the entry of a table of the tree; those of a table that is still to come count as 0 -/
def cellOf (T : ℕ → Option (List ℕ)) (s : Phys) (t i : ℕ) : ℕ := if T t = none then 0 else s.mem (t + 8 * i)

/-- `Extends` with the change of every single entry -/
structure Rewrites (k : Pmm.Image) (root : ℕ) (L : List ℕ) (u : ℕ) (target : List ℕ) (v : ℕ) (T : ℕ → Option (List ℕ))
    (s : Phys) (T' : ℕ → Option (List ℕ)) (s' : Phys) : Prop extends Extends k root L target v T s T' s' where
  cells : ∀ t π i, T' t = some π → i < 512 → Cell u target v (π ++ [i]) (cellOf T s t i) (s'.mem (t + 8 * i))

/-- no large page on the way to the target -/
def Clear (T : ℕ → Option (List ℕ)) (s : Phys) (target : List ℕ) : Prop :=
  ∀ t π i, T t = some π → π.length < 3 → i < 512 → π ++ [i] <+: target → s.mem (t + 8 * i) &&& pagePresent ≠ 0 →
    s.mem (t + 8 * i) &&& ps = 0

section

variable {u : ℕ}

theorem cellOf_some {t i : ℕ} {π : List ℕ} (h : T t = some π) : cellOf T s t i = s.mem (t + 8 * i) := by
  rw [cellOf, if_neg (isTable h)]

theorem or_user_writable {e : ℕ} : (e ||| pageUser) &&& pageWritable = 0 ↔ e &&& pageWritable = 0 := by
  rw [writable_eq_zero, writable_eq_zero, Nat.testBit_or, testBit_pageUser]
  simp

theorem Cell.trans (htarget : target.length = 4) {p : List ℕ} {a b c : ℕ} (h1 : Cell u target v p a b)
    (h2 : Cell u target v p b c) : Cell u target v p a c := by
  cases h1 with
  | kept => exact h2
  | table hp hlen habs hpres hw hs =>
    cases h2 with
    | kept => exact .table hp hlen habs hpres hw hs
    | table _ _ habs' => exact absurd habs' hpres
    | user =>
      exact .table hp hlen habs (fun h0 => hpres (or_user_present.1 h0)) (fun h0 => hw (or_user_writable.1 h0))
        (or_user_ps.2 hs)
    | leaf hp' => exact .leaf hp'
  | user hu hp hlen hpres hs =>
    cases h2 with
    | kept => exact .user hu hp hlen hpres hs
    | table _ _ habs' => exact absurd (or_user_present.1 habs') hpres
    | user =>
      rw [or_user_or_user]
      exact .user hu hp hlen hpres hs
    | leaf hp' => exact .leaf hp'
  | leaf hp =>
    cases h2 with
    | kept => exact .leaf hp
    | table _ hlen => rw [hp] at hlen; omega
    | user _ _ hlen => rw [hp] at hlen; omega
    | leaf hp' => exact .leaf hp'

theorem Rewrites.refl (ht : Tree root L T s) (hr : Pmm.Reserved k s.pmm) : Rewrites k root L u target v T s T s where
  toExtends := Extends.refl ht hr
  cells := fun t π i h _ => by rw [cellOf_some h]; exact .kept _

theorem Rewrites.trans (htarget : target.length = 4) (h1 : Rewrites k root L u target v T s T' s')
    (h2 : Rewrites k root L u target v T' s' T'' s'') : Rewrites k root L u target v T s T'' s'' where
  toExtends := h1.toExtends.trans h2.toExtends
  cells := by
    intro t π i ht hi
    have hc := h2.cells t π i ht hi
    cases hT' : T' t with
    | none =>
      -- a table that the second part added was not there before the first
      have hT : T t = none := by
        by_contra hT
        exact h1.ne_none hT hT'
      rw [cellOf, if_pos hT'] at hc
      rw [cellOf, if_pos hT]
      exact hc
    | some π' =>
      obtain rfl : π' = π := Option.some.inj ((h2.le t π' hT').symm.trans ht)
      rw [cellOf_some hT'] at hc
      exact (h1.cells t π' i hT' hi).trans htarget hc

/-- a store into an entry of the tree -/
theorem rewrites_store {x t i : ℕ} {π : List ℕ} (ht : Tree root L T s) (hT : T t = some π) (hi : i < 512)
    (hext : Extends k root L target v T s T (s.store (t + 8 * i) x))
    (hc : Cell u target v (π ++ [i]) (s.mem (t + 8 * i)) x) :
    Rewrites k root L u target v T s T (s.store (t + 8 * i) x) where
  toExtends := hext
  cells := by
    intro t' π' i' h' hi'
    rw [cellOf_some h']
    rcases store_cell ht x (isTable hT) (isTable h') hi hi' with ⟨rfl, rfl⟩ | he
    · rw [hT] at h'
      cases h'
      rw [store_self]
      exact hc
    · rw [he]
      exact .kept _

theorem rewrites_newTable (ht : Tree root L T s) (hr : Pmm.Reserved k s.pmm) {t t₁ i f : ℕ} {π : List ℕ} {s₁ : Phys}
    (hT : T t = some π) (hπ : π.length < 3) (hi : i < 512) (hpre : π ++ [i] <+: target)
    (habs : s.mem (t + 8 * i) &&& pagePresent = 0) (h : allocTable s = .ok (t₁, s₁)) (hf : f < 128)
    (hf0 : f.testBit 0 = true) (hf1 : f.testBit 1 = true) :
    Rewrites k root L u target v T s (Function.update T t₁ (some (π ++ [i]))) (s₁.store (t + 8 * i) (t₁ ||| f)) where
  toExtends := extends_newTable ht hr hT hπ hi habs h hf
  cells := by
    obtain ⟨hframe, hnone, -⟩ := allocTable_spec ht hr h
    obtain ⟨hcell, hzero⟩ := newTable_cells ht hr hT hi h (t₁ ||| f)
    intro t' π' i' h' hi'
    rcases update_some h' with ⟨rfl, -⟩ | hold
    · rw [hzero i' hi', cellOf, if_pos hnone]
      exact .kept 0
    · rw [cellOf_some hold]
      rcases hcell t' π' i' hold hi' with ⟨rfl, rfl⟩ | he
      · rw [hT] at hold
        cases hold
        rw [store_self]
        refine .table hpre (by simp only [List.length_append, List.length_singleton]; omega) habs ?_ ?_ ?_
        · rw [Ne, present_eq_zero, testBit_page_or hframe.aligned (by omega), hf0]; simp
        · rw [Ne, writable_eq_zero, testBit_page_or hframe.aligned (by omega), hf1]; simp
        · rw [ps_eq_zero, testBit_page_or hframe.aligned (by omega), Nat.testBit_lt_two_pow (show f < 2 ^ 7 from hf)]
      · rw [he]
        exact .kept _

/-- an entry that is a large page after the call was one before -/
theorem Rewrites.large_old (h : Rewrites k root L u target v T s T' s') (htarget : target.length = 4) {t i : ℕ} {π : List ℕ}
    (hT : T' t = some π) (hπ : π.length < 3) (hi : i < 512) (hpres : s'.mem (t + 8 * i) &&& pagePresent ≠ 0)
    (hps : s'.mem (t + 8 * i) &&& ps ≠ 0) : T t = some π ∧ s'.mem (t + 8 * i) = s.mem (t + 8 * i) := by
  have hc := h.cells t π i hT hi
  have hkept : cellOf T s t i = s'.mem (t + 8 * i) := by
    generalize s'.mem (t + 8 * i) = e, cellOf T s t i = o at hc hps ⊢
    cases hc with
    | kept => rfl
    | table _ _ _ _ _ hs => exact absurd hs hps
    | user _ _ _ _ hs => exact absurd (or_user_ps.2 hs) hps
    | leaf hp =>
      rw [← hp] at htarget
      simp only [List.length_append, List.length_singleton] at htarget
      omega
  cases hold : T t with
  | none =>
    rw [cellOf, if_pos hold] at hkept
    rw [← hkept] at hpres
    exact absurd (Nat.zero_and _) hpres
  | some π' =>
    rw [cellOf_some hold] at hkept
    exact ⟨(h.le t π' hold).symm.trans hT, hkept.symm⟩

theorem Rewrites.clear (h : Rewrites k root L u target v T s T' s') (htarget : target.length = 4) (hc : Clear T s target) :
    Clear T' s' target := by
  intro t π i hT hπ hi hpre hpres
  by_contra hps
  obtain ⟨hold, he⟩ := h.large_old htarget hT hπ hi hpres hps
  rw [he] at hpres hps
  exact hps (hc t π i hold hπ hi hpre hpres)

end

/-! ## One call of `map` -/

/-- an upper entry of the tree that ring 3 can pass: present, USER and not a large page -/
structure Passable (e : ℕ) : Prop where
  present : e &&& pagePresent ≠ 0
  user : e &&& pageUser ≠ 0
  small : e &&& ps = 0

/-- the walk of ring 3 goes on through an entry it may pass -/
theorem Passable.userLeaf {m : Mem} {t i : ℕ} (h : Passable (m (t + 8 * i))) (j : ℕ) (is : List ℕ) :
    Vmm.userLeaf m t (i :: j :: is) = Vmm.userLeaf m (entryToTable (m (t + 8 * i))) (j :: is) :=
  if_pos ⟨h.present, h.user, h.small⟩

/-- a leaf that is mapped for ring 3 is present and open to it -/
theorem leaf_open {phys flags : ℕ} (hu : flags &&& pageUser ≠ 0) :
    (phys ||| flags ||| pagePresent) &&& pagePresent ≠ 0 ∧ (phys ||| flags ||| pagePresent) &&& pageUser ≠ 0 := by
  refine ⟨fun h0 => ?_, fun h0 => ?_⟩
  · rw [present_eq_zero, Nat.testBit_or] at h0
    simp [pagePresent] at h0
  · have hf : flags.testBit 2 = true := by
      by_contra hf
      exact hu (user_eq_zero.2 (Bool.eq_false_of_not_eq_true hf))
    rw [user_eq_zero, Nat.testBit_or, Nat.testBit_or, hf] at h0
    simp at h0

/-- an upper entry that is present stays so and refers to the same table -/
theorem Grows.entry {m m' : Mem} (h : Grows T m m' target) (htarget : target.length = 4) {t i : ℕ} {π : List ℕ}
    (hT : T t = some π) (hπ : π.length < 3) (hi : i < 512) (hp : Passable (m (t + 8 * i))) :
    Passable (m' (t + 8 * i)) ∧ entryToTable (m' (t + 8 * i)) = entryToTable (m (t + 8 * i)) := by
  rcases h t π i hT hi with he | ⟨-, habs | he⟩ | he
  · rw [he]; exact ⟨hp, rfl⟩
  · exact absurd habs hp.present
  · rw [he]
    exact ⟨⟨fun h0 => hp.present (or_user_present.1 h0), or_user_user _, or_user_ps.2 hp.small⟩, entryToTable_or_user _⟩
  · rw [← he] at htarget
    simp only [List.length_append, List.length_singleton] at htarget
    omega

/-- **Frame.** A page reached by ring 3 is still reached, with the same leaf, after a change at another path. -/
theorem userLeaf_grows (ht : Tree root L T s) {m' : Mem} (hg : Grows T s.mem m' target) (htarget : target.length = 4)
    {is : List ℕ} {t e : ℕ} {π : List ℕ} (hT : T t = some π) (hlen : π.length + is.length = 4) (his : ∀ i ∈ is, i < 512)
    (hne : π ++ is ≠ target) (h : userLeaf s.mem t is = some e) : userLeaf m' t is = some e := by
  induction is generalizing t π with
  | nil => cases h
  | cons i is ih =>
    have hi : i < 512 := his i List.mem_cons_self
    cases is with
    | nil =>
      -- the leaf itself
      simp only [List.length_singleton] at hlen
      unfold userLeaf at h ⊢
      rcases hg t π i hT hi with he | ⟨hlt, -⟩ | he
      · rw [he]; exact h
      · omega
      · exact absurd he hne
    | cons j is =>
      simp only [List.length_cons] at hlen
      unfold userLeaf at h ⊢
      split_ifs at h with hp
      obtain ⟨hp', htbl⟩ := hg.entry htarget hT (by omega) hi ⟨hp.1, hp.2.1, hp.2.2⟩
      rw [if_pos ⟨hp'.present, hp'.user, hp'.small⟩, htbl]
      refine ih (ht.child t π i hT (by omega) hi hp.1 hp.2.2) ?_ (fun x hx => his x (List.mem_cons_of_mem i hx)) ?_ h
      · simp only [List.length_append, List.length_cons, List.length_nil]; omega
      · rw [List.append_assoc]; exact hne

/-- a change outside the tables -/
theorem Tree.frame (ht : Tree root L T s) (hmem : ∀ t i, T t ≠ none → i < 512 → s'.mem (t + 8 * i) = s.mem (t + 8 * i))
    (hused : ∀ t, T t ≠ none → bit s'.pmm (t / 4096) = true) : Tree root L T s' := by
  refine ⟨ht.root_path, ht.aligned, ht.lt, hused, ?_, ?_⟩
  · intro t π i hT hlen hi hp hps
    rw [hmem t i (isTable hT) hi] at hp hps ⊢
    exact ht.child t π i hT hlen hi hp hps
  · intro t π i hT hlen hi hp hps
    rw [hmem t i (isTable hT) hi] at hp hps
    exact ht.large t π i hT hlen hi hp hps

theorem userLeaf_frame (ht : Tree root L T s) {m' : Mem}
    (hmem : ∀ t i, T t ≠ none → i < 512 → m' (t + 8 * i) = s.mem (t + 8 * i)) {w e : ℕ}
    (h : userLeaf s.mem root (path w) = some e) : userLeaf m' root (path w) = some e := by
  -- every cell of the tree keeps its value, so nothing changes at any path
  have hg : Grows T s.mem m' [512, 0, 0, 0] := fun t π i hT hi =>
    Or.inl (hmem t i (isTable hT) hi)
  refine userLeaf_grows ht hg rfl ht.root_path rfl (path_lt w) ?_ h
  intro he
  have := path_lt w 512 (by rw [show path w = [512, 0, 0, 0] from he]; simp)
  omega

theorem ensureTable_rewrites (ht : Tree root L T s) (hr : Pmm.Reserved k s.pmm) {t i u : ℕ} {π : List ℕ}
    (hT : T t = some π) (hπ : π.length < 3) (hi : i < 512) (hpre : π ++ [i] <+: target) (hu : u = 0 ∨ u = pageUser)
    (hsmall : s.mem (t + 8 * i) &&& pagePresent ≠ 0 → s.mem (t + 8 * i) &&& ps = 0)
    (h : ensureTable s (t + 8 * i) u = .ok s') :
    ∃ T', Rewrites k root L u target v T s T' s' ∧ T' (entryToTable (s'.mem (t + 8 * i))) = some (π ++ [i]) ∧
      (u ≠ 0 → Passable (s'.mem (t + 8 * i))) := by
  unfold ensureTable at h
  split_ifs at h with habs hu0
  · obtain ⟨⟨t₁, s₁⟩, ha, h⟩ := bind_ok.1 h
    cases h
    simp only [tableFlags]
    have hframe := (allocTable_spec ht hr ha).1
    have hlt : 3 ||| u < 128 := by rcases hu with rfl | rfl <;> decide
    have hbit : (3 ||| u).testBit 0 = true ∧ (3 ||| u).testBit 1 = true := by rcases hu with rfl | rfl <;> decide
    refine ⟨_, rewrites_newTable ht hr hT hπ hi hpre habs ha hlt hbit.1 hbit.2, ?_, fun hu0 => ?_⟩
    · rw [store_self, entryToTable_or hframe.aligned (by have := hframe.lt; omega) (by omega), Function.update_self]
    · obtain rfl := hu.resolve_left hu0
      rw [store_self]
      refine ⟨fun h0 => ?_, fun h0 => ?_, ?_⟩
      · rw [present_eq_zero, testBit_page_or hframe.aligned (by omega)] at h0; revert h0; decide
      · rw [user_eq_zero, testBit_page_or hframe.aligned (by omega)] at h0; revert h0; decide
      · rw [ps_eq_zero, testBit_page_or hframe.aligned (by omega)]; decide
  · cases h
    have hs := hsmall habs
    have hlen : (π ++ [i]).length < 4 := by simp only [List.length_append, List.length_singleton]; omega
    refine ⟨T, rewrites_store ht hT hi (extends_setUser ht hr hT hπ hi) (.user hu0 hpre hlen habs hs), ?_, fun _ => ?_⟩
    · rw [store_self, entryToTable_or_user]
      exact ht.child t π i hT hπ hi habs hs
    · rw [store_self]
      exact ⟨fun h0 => habs (or_user_present.1 h0), or_user_user _, or_user_ps.2 hs⟩
  · cases h
    exact ⟨T, Rewrites.refl ht hr, ht.child t π i hT hπ hi habs (hsmall habs), fun hu1 => absurd hu1 hu0⟩

/-- a level with large pages: a mapping without USER may end here; otherwise the walk goes on -/
theorem descend_rewrites (ht : Tree root L T s) (hr : Pmm.Reserved k s.pmm) {t i u : ℕ} {π : List ℕ} (hT : T t = some π)
    (hπ : π.length < 3) (hi : i < 512) (hpre : π ++ [i] <+: target) (hu : u = 0 ∨ u = pageUser)
    (hclear : u ≠ 0 → Clear T s target) {next : Phys → Except Panic Phys} (h : descend s (t + 8 * i) u next = .ok s') :
    (u = 0 ∧ s' = s) ∨ ∃ s₁ T₁, Rewrites k root L u target v T s T₁ s₁ ∧
      T₁ (entryToTable (s₁.mem (t + 8 * i))) = some (π ++ [i]) ∧ (u ≠ 0 → Passable (s₁.mem (t + 8 * i))) ∧
      next s₁ = .ok s' := by
  unfold descend at h
  by_cases hlarge : s.mem (t + 8 * i) &&& pagePresent ≠ 0 ∧ s.mem (t + 8 * i) &&& ps ≠ 0
  · have hu0 : u = 0 := by
      by_contra hu0
      exact hlarge.2 (hclear hu0 t π i hT hπ hi hpre hlarge.1)
    rw [if_pos hlarge, if_neg (not_not.2 hu0)] at h
    cases h
    exact Or.inl ⟨hu0, rfl⟩
  · rw [if_neg hlarge] at h
    obtain ⟨s₁, h₁, h⟩ := bind_ok.1 h
    have hsmall : s.mem (t + 8 * i) &&& pagePresent ≠ 0 → s.mem (t + 8 * i) &&& ps = 0 := fun hp => by
      by_contra hps
      exact hlarge ⟨hp, hps⟩
    obtain ⟨T₁, hrew, htbl, hpass⟩ := ensureTable_rewrites ht hr hT hπ hi hpre hu hsmall h₁
    exact Or.inr ⟨s₁, T₁, hrew, htbl, hpass, h⟩

/-- **One call of `map`,** for any flags: missing tables are added, the leaf is stored, and every entry changes only as
`Cell` allows. A user mapping must stay clear of large pages, and then ring 3 reaches the page. -/
theorem map_rewrites (ht : Tree root L T s) (hr : Pmm.Reserved k s.pmm) {virt phys flags : ℕ}
    (hclear : flags &&& pageUser ≠ 0 → Clear T s (path virt)) (h : map root s virt phys flags = .ok s') :
    ∃ T', Rewrites k root L (flags &&& pageUser) (path virt) (phys ||| flags ||| pagePresent) T s T' s' ∧
      (flags &&& pageUser ≠ 0 → userLeaf s'.mem root (path virt) = some (phys ||| flags ||| pagePresent)) := by
  have hlen : (path virt).length = 4 := rfl
  have hi4 : pml4Idx virt < 512 := index_lt _
  have hi3 : pdptIdx virt < 512 := index_lt _
  have hi2 : pdIdx virt < 512 := index_lt _
  have hi1 : ptIdx virt < 512 := index_lt _
  have hu : flags &&& pageUser = 0 ∨ flags &&& pageUser = pageUser := by
    rw [show pageUser = 2 ^ 2 from rfl, Nat.and_two_pow]
    cases flags.testBit 2 <;> simp
  simp only [map] at h
  set u := flags &&& pageUser with hudef
  set leaf := phys ||| flags ||| pagePresent with hleaf
  obtain ⟨s₁, h₁, h⟩ := bind_ok.1 h
  have hsmall : s.mem (root + 8 * pml4Idx virt) &&& pagePresent ≠ 0 → s.mem (root + 8 * pml4Idx virt) &&& ps = 0 := by
    intro hp
    by_contra hps
    obtain ⟨j, -, hhead⟩ := ht.large root [] _ ht.root_path (by simp) hi4 hp hps
    cases hhead
  obtain ⟨T₁, rew₁, tbl₁, pass₁⟩ : ∃ T', Rewrites k root L u (path virt) leaf T s T' s₁ ∧ _ :=
    ensureTable_rewrites ht hr ht.root_path (by simp) hi4 ⟨[pdptIdx virt, pdIdx virt, ptIdx virt], rfl⟩ hu hsmall h₁
  rcases descend_rewrites (v := leaf) rew₁.tree rew₁.reserved tbl₁ (by simp) hi3 ⟨[pdIdx virt, ptIdx virt], rfl⟩ hu
    (fun hu0 => rew₁.clear hlen (hclear hu0)) h with ⟨hu0, rfl⟩ | ⟨s₂, T₂, rew₂, tbl₂, pass₂, h⟩
  · exact ⟨T₁, rew₁, fun hu1 => absurd hu0 hu1⟩
  have rew₁₂ := rew₁.trans hlen rew₂
  rcases descend_rewrites (v := leaf) rew₂.tree rew₂.reserved tbl₂ (by simp) hi2 ⟨[ptIdx virt], rfl⟩ hu
    (fun hu0 => rew₁₂.clear hlen (hclear hu0)) h with ⟨hu0, rfl⟩ | ⟨s₃, T₃, rew₃, tbl₃, pass₃, h⟩
  · exact ⟨T₂, rew₁₂, fun hu1 => absurd hu0 hu1⟩
  obtain rfl := Except.ok.inj h
  have hpath : [] ++ [pml4Idx virt] ++ [pdptIdx virt] ++ [pdIdx virt] ++ [ptIdx virt] = path virt := rfl
  have ext₄ := extends_setLeaf (v := leaf) rew₃.tree rew₃.reserved tbl₃ (by simp) hi1
  rw [hpath] at ext₄
  have rew₄ : Rewrites k root L u (path virt) leaf _ _ _ _ := rewrites_store rew₃.tree tbl₃ hi1 ext₄ (.leaf hpath)
  refine ⟨T₃, (rew₁₂.trans hlen rew₃).trans hlen rew₄, fun hu0 => ?_⟩
  -- the entries passed keep their tables through the later steps
  obtain ⟨p1, e1⟩ := ((rew₂.trans hlen rew₃).trans hlen rew₄).grows.entry hlen (rew₁.le _ _ ht.root_path) (by simp) hi4
    (pass₁ hu0)
  obtain ⟨p2, e2⟩ := (rew₃.trans hlen rew₄).grows.entry hlen (rew₂.le _ _ tbl₁) (by simp) hi3 (pass₂ hu0)
  obtain ⟨p3, e3⟩ := rew₄.grows.entry hlen (rew₃.le _ _ tbl₂) (by simp) hi2 (pass₃ hu0)
  unfold path
  rw [p1.userLeaf, e1, p2.userLeaf, e2, p3.userLeaf, e3, userLeaf, store_self, if_pos (leaf_open hu0)]

/-- below a root entry of which no large pages are known the way is clear -/
theorem clear_of_root (ht : Tree root L T s) {virt : ℕ} (hL : pml4Idx virt ∉ L) : Clear T s (path virt) := by
  intro t π i hT hπ hi hpre hp
  by_contra hps
  obtain ⟨j, hj, hhead⟩ := ht.large t π i hT hπ hi hp hps
  cases π with
  | nil => cases hhead
  | cons x π =>
    obtain ⟨rest, hrest⟩ := hpre
    have hx : x = pml4Idx virt := (List.cons.inj hrest).1
    exact hL (hx ▸ Option.some.inj hhead ▸ hj)

/-- **`map` extends the tree by one leaf.** For a user mapping below a root entry without large pages: the tables that
are missing are added, the leaf of the page is stored and ring 3 reaches it. -/
theorem map_extends (ht : Tree root L T s) (hr : Pmm.Reserved k s.pmm) {virt phys flags : ℕ}
    (huser : flags &&& pageUser = pageUser) (hL : pml4Idx virt ∉ L) (h : map root s virt phys flags = .ok s') :
    ∃ T', Extends k root L (path virt) (phys ||| flags ||| pagePresent) T s T' s' ∧
      userLeaf s'.mem root (path virt) = some (phys ||| flags ||| pagePresent) := by
  obtain ⟨T', hrew, hleaf⟩ := map_rewrites ht hr (fun _ => clear_of_root ht hL) h
  exact ⟨T', hrew.toExtends, hleaf (by rw [huser]; decide)⟩

end

end Tomorrow.Vmm
