/-
How the CPU walks the page tables of `vmm.rs` and `boot.s`.

`entries` are the entries read for an address, from the PML4 down; a present entry with bit 7 ends the walk at the PDPT
(1 GB) or the PD (2 MB). `walk` is the translation they give: the physical address, and the USER and WRITABLE bits,
which count only if every entry has them. `userLeaf` is the same walk without large pages.

Over a tree of tables:
- `entries_last`: a walk ends in an entry of the tree, a leaf or a large page;
- `entries_congr`: it depends only on the entries on its way;
- `entries_of_userLeaf`: a page that `userLeaf` reaches is walked through four entries, and through writable ones if the
  upper entries of the tree are writable.
-/
import Tomorrow.Memory.Vmm

namespace Tomorrow.Vmm

open Tomorrow.Core

/-! ## Model -/

/-- the entries read on the walk; a root entry has no large page, its bit 7 is reserved -/
def entries (mem : Mem) : ℕ → List ℕ → Option (List ℕ)
  | _, [] => none
  | t, [i] => if mem (t + 8 * i) &&& pagePresent = 0 then none else some [mem (t + 8 * i)]
  | t, i :: j :: is =>
    if mem (t + 8 * i) &&& pagePresent = 0 then none
    else if mem (t + 8 * i) &&& ps ≠ 0 then if is.length = 2 then none else some [mem (t + 8 * i)]
    else (entries mem (entryToTable (mem (t + 8 * i))) (j :: is)).map (mem (t + 8 * i) :: ·)

structure Translation where
  phys : ℕ
  user : Bool
  writable : Bool
deriving DecidableEq

/-- the translation given by the entries read: n entries leave a page of 2^(12 + 9 (4 - n)) bytes -/
def translation (v : ℕ) (es : List ℕ) : Translation where
  phys := entryToTable (es.getLast?.getD 0) / 2 ^ (12 + 9 * (4 - es.length)) * 2 ^ (12 + 9 * (4 - es.length)) +
    v % 2 ^ (12 + 9 * (4 - es.length))
  user := es.all fun e => decide (e &&& pageUser ≠ 0)
  writable := es.all fun e => decide (e &&& pageWritable ≠ 0)

/-- bits 48 to 63 repeat bit 47; the CPU refuses other addresses -/
def Canonical (v : ℕ) : Prop := v < 2 ^ 47 ∨ (2 ^ 64 - 2 ^ 47 ≤ v ∧ v < 2 ^ 64)

instance (v : ℕ) : Decidable (Canonical v) := inferInstanceAs (Decidable (_ ∨ _))

def walk (mem : Mem) (pml4 v : ℕ) : Option Translation :=
  if Canonical v then (entries mem pml4 (path v)).map (translation v) else none

/-- ring 3 may read the address -/
def userAccessible (mem : Mem) (pml4 v : ℕ) : Bool := (walk mem pml4 v).any (·.user)

/-- canonical addresses with the same path lie in the same page -/
theorem Canonical.path_inj {v w : ℕ} (hv : Canonical v) (hw : Canonical w) (h : path v = path w) : v / 4096 = w / 4096 := by
  simp only [path_eq, List.cons.injEq, and_true] at h
  unfold Canonical at hv hw
  omega

theorem userAccessible_iff {mem : Mem} {pml4 v : ℕ} : userAccessible mem pml4 v = true ↔
    Canonical v ∧ ∃ es, entries mem pml4 (path v) = some es ∧ ∀ e ∈ es, e &&& pageUser ≠ 0 := by
  unfold userAccessible walk
  by_cases hv : Canonical v
  · rw [if_pos hv]
    cases entries mem pml4 (path v) with
    | none => simp
    | some es => simp [translation, hv]
  · simp [hv]

/-! ## Walks over a tree -/

/-- the present entries above the leaves are writable -/
def UpperWritable (T : ℕ → Option (List ℕ)) (s : Phys) : Prop :=
  ∀ t π i, T t = some π → π.length < 3 → i < 512 → s.mem (t + 8 * i) &&& pagePresent ≠ 0 →
    s.mem (t + 8 * i) &&& pageWritable ≠ 0

section

variable {root : ℕ} {L : List ℕ} {T : ℕ → Option (List ℕ)} {s : Phys} {m' : Mem} {is π es : List ℕ} {t e : ℕ}

/-- the last entry read belongs to the tree and is a leaf or a large page -/
theorem entries_last (ht : Tree root L T s) (hT : T t = some π) (hlen : π.length + is.length = 4) (his : ∀ i ∈ is, i < 512)
    (h : entries s.mem t is = some es) :
    ∃ t' π' i, T t' = some π' ∧ i < 512 ∧ π' ++ [i] <+: π ++ is ∧ s.mem (t' + 8 * i) ∈ es ∧
      s.mem (t' + 8 * i) &&& pagePresent ≠ 0 ∧ (π'.length = 3 ∨ (π'.length < 3 ∧ s.mem (t' + 8 * i) &&& ps ≠ 0)) := by
  induction is generalizing t π es with
  | nil => cases h
  | cons i is ih =>
    have hi : i < 512 := his i List.mem_cons_self
    cases is with
    | nil =>
      unfold entries at h
      split_ifs at h with hp
      cases h
      exact ⟨t, π, i, hT, hi, List.prefix_rfl, by simp, hp, Or.inl (by simpa using hlen)⟩
    | cons j is =>
      simp only [List.length_cons] at hlen
      unfold entries at h
      by_cases hp : s.mem (t + 8 * i) &&& pagePresent = 0
      · rw [if_pos hp] at h
        cases h
      · rw [if_neg hp] at h
        by_cases hps : s.mem (t + 8 * i) &&& ps ≠ 0
        · rw [if_pos hps] at h
          split_ifs at h
          cases h
          exact ⟨t, π, i, hT, hi, ⟨j :: is, by simp⟩, by simp, hp, Or.inr ⟨by omega, hps⟩⟩
        · rw [if_neg hps] at h
          obtain ⟨es', hes', rfl⟩ := Option.map_eq_some_iff.1 h
          obtain ⟨t', π', i', h1, h2, h3, h4, h5⟩ := ih (ht.child t π i hT (by omega) hi hp (not_not.1 hps))
            (by simp only [List.length_append, List.length_cons, List.length_nil]; omega)
            (fun x hx => his x (List.mem_cons_of_mem i hx)) hes'
          rw [List.append_assoc] at h3
          exact ⟨t', π', i', h1, h2, h3, List.mem_cons_of_mem _ h4, h5⟩

/-- a walk sees only the entries on its way -/
theorem entries_congr (ht : Tree root L T s) (hT : T t = some π) (hlen : π.length + is.length ≤ 4) (his : ∀ i ∈ is, i < 512)
    (hsame : ∀ t' π' i, T t' = some π' → i < 512 → π' ++ [i] <+: π ++ is → m' (t' + 8 * i) = s.mem (t' + 8 * i)) :
    entries m' t is = entries s.mem t is := by
  induction is generalizing t π with
  | nil => rfl
  | cons i is ih =>
    have hi : i < 512 := his i List.mem_cons_self
    have he := hsame t π i hT hi ⟨is, by simp⟩
    cases is with
    | nil => simp only [entries, he]
    | cons j is =>
      simp only [List.length_cons] at hlen
      unfold entries
      rw [he]
      by_cases hp : s.mem (t + 8 * i) &&& pagePresent = 0
      · rw [if_pos hp, if_pos hp]
      · rw [if_neg hp, if_neg hp]
        by_cases hps : s.mem (t + 8 * i) &&& ps ≠ 0
        · rw [if_pos hps, if_pos hps]
        · rw [if_neg hps, if_neg hps, ih (ht.child t π i hT (by omega) hi hp (not_not.1 hps))
            (by simp only [List.length_append, List.length_cons, List.length_nil]; omega)
            (fun x hx => his x (List.mem_cons_of_mem i hx))
            (fun t' π' i' h1 h2 h3 => hsame t' π' i' h1 h2 (by rw [List.append_assoc] at h3; exact h3))]

theorem walk_congr (ht : Tree root L T s) {v : ℕ}
    (hsame : ∀ t π i, T t = some π → i < 512 → π ++ [i] <+: path v → m' (t + 8 * i) = s.mem (t + 8 * i)) :
    walk m' root v = walk s.mem root v := by
  unfold walk
  rw [entries_congr ht ht.root_path (by rfl) (path_lt v) hsame]

/-- the walk to a page that ring 3 reaches through 4 KB tables -/
theorem entries_of_userLeaf (ht : Tree root L T s) (hw : UpperWritable T s) (hT : T t = some π)
    (hlen : π.length + is.length = 4) (his : ∀ i ∈ is, i < 512)
    (hleaf : userLeaf s.mem t is = some e) (he : e &&& pageWritable ≠ 0) :
    ∃ es, entries s.mem t is = some es ∧ es.length = is.length ∧ es.getLast? = some e ∧
      ∀ x ∈ es, x &&& pageUser ≠ 0 ∧ x &&& pageWritable ≠ 0 := by
  induction is generalizing t π with
  | nil => cases hleaf
  | cons i is ih =>
    have hi : i < 512 := his i List.mem_cons_self
    cases is with
    | nil =>
      unfold userLeaf at hleaf
      split_ifs at hleaf with hp
      cases hleaf
      exact ⟨[s.mem (t + 8 * i)], by rw [entries, if_neg hp.1], rfl, rfl, by simpa using ⟨hp.2, he⟩⟩
    | cons j is =>
      simp only [List.length_cons] at hlen
      unfold userLeaf at hleaf
      split_ifs at hleaf with hp
      obtain ⟨es, hes, hl, hlast, hall⟩ := ih (ht.child t π i hT (by omega) hi hp.1 hp.2.2)
        (by simp only [List.length_append, List.length_cons, List.length_nil]; omega)
        (fun x hx => his x (List.mem_cons_of_mem i hx)) hleaf
      refine ⟨s.mem (t + 8 * i) :: es, ?_, by rw [List.length_cons, hl]; rfl, ?_, ?_⟩
      · rw [entries, if_neg hp.1, if_neg (not_not.2 hp.2.2), hes]
        rfl
      · rw [List.getLast?_cons, hlast]
        rfl
      · intro x hx
        rcases List.mem_cons.1 hx with rfl | hx
        · exact ⟨hp.2.1, hw t π i hT (by omega) hi hp.1⟩
        · exact hall x hx

/-- the translation of such a page: the page of the leaf, open to ring 3 and writable -/
theorem walk_of_userLeaf (ht : Tree root L T s) (hw : UpperWritable T s) {v a : ℕ} (ha : a % 4096 = 0) (hlt : a < 2 ^ 52)
    (hv : v % 4096 = 0) (hc : Canonical v) (hleaf : userLeaf s.mem root (path v) = some (a ||| 7)) :
    walk s.mem root v = some ⟨a, true, true⟩ := by
  have hwrite : (a ||| 7) &&& pageWritable ≠ 0 := by
    rw [Ne, writable_eq_zero, testBit_page_or ha (by omega)]
    decide
  obtain ⟨es, hes, hlen, hlast, hall⟩ := entries_of_userLeaf ht hw ht.root_path rfl (path_lt v) hleaf hwrite
  have hlen4 : es.length = 4 := hlen
  have hpage : entryToTable (a ||| 7) = a := entryToTable_or ha hlt (by omega)
  have hphys : a / 2 ^ 12 * 2 ^ 12 + v % 2 ^ 12 = a := by omega
  simp only [walk, if_pos hc, hes, Option.map_some, translation, hlen4, hlast, Option.getD_some, hpage, Nat.sub_self,
    Nat.mul_zero, Nat.add_zero, hphys, Option.some.injEq, Translation.mk.injEq, List.all_eq_true,
    decide_eq_true_eq, true_and]
  exact ⟨fun x hx => (hall x hx).1, fun x hx => (hall x hx).2⟩

/-- the entries above the leaves stay writable -/
theorem UpperWritable.rewrites {target : List ℕ} {k : Pmm.Image} {u v : ℕ} {T' : ℕ → Option (List ℕ)} {s' : Phys}
    (h : UpperWritable T s) (hrew : Rewrites k root L u target v T s T' s') (htarget : target.length = 4) :
    UpperWritable T' s' := by
  intro t π i hT hlen hi hp
  have hc := hrew.cells t π i hT hi
  -- an entry of T that was present was writable; those of new tables were 0
  have hold : cellOf T s t i &&& pagePresent ≠ 0 → cellOf T s t i &&& pageWritable ≠ 0 := by
    intro hp'
    cases hTt : T t with
    | none =>
      rw [cellOf, if_pos hTt] at hp'
      exact absurd (Nat.zero_and _) hp'
    | some π' =>
      obtain rfl : π' = π := Option.some.inj ((hrew.le t π' hTt).symm.trans hT)
      rw [cellOf_some hTt] at hp' ⊢
      exact h t π' i hTt hlen hi hp'
  generalize s'.mem (t + 8 * i) = e, cellOf T s t i = o at hc hp hold ⊢
  cases hc with
  | kept => exact hold hp
  | table _ _ _ _ hw => exact hw
  | user _ _ _ hpres => exact fun h0 => hold hpres (or_user_writable.1 h0)
  | leaf hp' =>
    rw [← hp'] at htarget
    simp only [List.length_append, List.length_singleton] at htarget
    omega

/-- an entry below another root entry is not touched -/
theorem Rewrites.elsewhere {k : Pmm.Image} {u v virt i j : ℕ} {T' : ℕ → Option (List ℕ)} {s' : Phys}
    (hrew : Rewrites k root L u (path virt) v T s T' s') (hT : T t = some π) (hi : i < 512)
    (hhead : (π ++ [i]).head? = some j) (hj : j ≠ pml4Idx virt) : s'.mem (t + 8 * i) = s.mem (t + 8 * i) := by
  have hpre : ¬ π ++ [i] <+: path virt := by
    rintro ⟨rest, hrest⟩
    cases π with
    | nil =>
      cases hhead
      exact hj (List.cons.inj hrest).1
    | cons x π =>
      cases hhead
      exact hj (List.cons.inj hrest).1
  have hc := hrew.cells t π i (hrew.le t π hT) hi
  rw [cellOf_some hT] at hc
  generalize s'.mem (t + 8 * i) = e, s.mem (t + 8 * i) = o at hc ⊢
  cases hc with
  | kept => rfl
  | table hp => exact absurd hp hpre
  | user _ hp => exact absurd hp hpre
  | leaf hp => exact absurd (hp ▸ List.prefix_rfl) hpre

end

end Tomorrow.Vmm
