/-
Straight-line assembly on general registers, a stack pointer and a flat memory of 8-byte words.

Instructions push and pop registers, copy them, and load words at an offset from a register. The names of the registers
are a parameter. Results on the blocks that save and restore code is made of:
- `pushList_mem`: a block of pushes leaves the registers in memory, the last one lowest;
- `exec_pop`: a block of pops loads registers from consecutive words;
- `exec_pushWords`, `exec_loadWords`: copying words of a record to the stack and to registers.
-/
import Mathlib.Tactic

namespace Tomorrow.Core

variable {ρ : Type} [DecidableEq ρ]

/-! ## Instructions -/

structure AsmState (ρ : Type) where
  gpr : ρ → ℕ
  rsp : ℕ
  mem : ℕ → ℕ

inductive Instr (ρ : Type) where
  | push (r : ρ)
  | pop (r : ρ)
  | mov (d s : ρ)
  /-- `mov d, rsp` -/
  | movRsp (d : ρ)
  /-- `mov d, [base + off]` -/
  | load (d base : ρ) (off : ℕ)
  /-- `mov rsp, [base + off]` -/
  | loadRsp (base : ρ) (off : ℕ)

def AsmState.push (s : AsmState ρ) (v : ℕ) : AsmState ρ :=
  { s with rsp := s.rsp - 8, mem := Function.update s.mem (s.rsp - 8) v }

def AsmState.set (s : AsmState ρ) (r : ρ) (v : ℕ) : AsmState ρ := { s with gpr := Function.update s.gpr r v }

@[simp] theorem set_rsp (s : AsmState ρ) (r : ρ) (v : ℕ) : (s.set r v).rsp = s.rsp := rfl

@[simp] theorem set_mem (s : AsmState ρ) (r : ρ) (v : ℕ) : (s.set r v).mem = s.mem := rfl

@[simp] theorem set_gpr_self (s : AsmState ρ) (r : ρ) (v : ℕ) : (s.set r v).gpr r = v := by
  simp [AsmState.set]

theorem set_gpr_of_ne (s : AsmState ρ) {r q : ρ} (h : q ≠ r) (v : ℕ) : (s.set r v).gpr q = s.gpr q := by
  simp [AsmState.set, h]

def Instr.exec (s : AsmState ρ) : Instr ρ → AsmState ρ
  | .push r => s.push (s.gpr r)
  | .pop r => { s with gpr := Function.update s.gpr r (s.mem s.rsp), rsp := s.rsp + 8 }
  | .mov d r => s.set d (s.gpr r)
  | .movRsp d => s.set d s.rsp
  | .load d base off => s.set d (s.mem (s.gpr base + off))
  | .loadRsp base off => { s with rsp := s.mem (s.gpr base + off) }

def exec (is : List (Instr ρ)) (s : AsmState ρ) : AsmState ρ := is.foldl Instr.exec s

theorem exec_append (is js : List (Instr ρ)) (s : AsmState ρ) : exec (is ++ js) s = exec js (exec is s) :=
  List.foldl_append

theorem exec_cons (i : Instr ρ) (is : List (Instr ρ)) (s : AsmState ρ) : exec (i :: is) s = exec is (i.exec s) := rfl

/-! ## Pushes -/

/-- push values one after another -/
def AsmState.pushList (s : AsmState ρ) (vs : List ℕ) : AsmState ρ := vs.foldl AsmState.push s

section

omit [DecidableEq ρ]

theorem pushList_cons (s : AsmState ρ) (v : ℕ) (vs : List ℕ) : s.pushList (v :: vs) = (s.push v).pushList vs := rfl

theorem pushList_rsp (s : AsmState ρ) (vs : List ℕ) : (s.pushList vs).rsp = s.rsp - 8 * vs.length := by
  induction vs generalizing s with
  | nil => rfl
  | cons v vs ih =>
    rw [pushList_cons, ih, List.length_cons]
    show s.rsp - 8 - 8 * vs.length = _
    omega

/-- pushes change memory below the stack pointer only -/
theorem pushList_mem_of_le (s : AsmState ρ) (vs : List ℕ) {a : ℕ} (hvs : 8 * vs.length ≤ s.rsp) (ha : s.rsp ≤ a) :
    (s.pushList vs).mem a = s.mem a := by
  induction vs generalizing s with
  | nil => rfl
  | cons v vs ih =>
    rw [List.length_cons] at hvs
    have hrsp : (s.push v).rsp = s.rsp - 8 := rfl
    rw [pushList_cons, ih (s.push v) (by omega) (by omega)]
    exact Function.update_of_ne (by omega) _ _

theorem pushList_mem_congr {s t : AsmState ρ} (hrsp : t.rsp = s.rsp) (hmem : t.mem = s.mem) (vs : List ℕ) :
    (t.pushList vs).mem = (s.pushList vs).mem := by
  induction vs generalizing s t with
  | nil => exact hmem
  | cons v vs ih =>
    refine ih (s := s.push v) (t := t.push v) ?_ ?_
    · show t.rsp - 8 = s.rsp - 8
      rw [hrsp]
    · show Function.update t.mem (t.rsp - 8) v = Function.update s.mem (s.rsp - 8) v
      rw [hrsp, hmem]

/-- value j is the j-th word below the old stack pointer -/
theorem pushList_mem (s : AsmState ρ) (vs : List ℕ) (hvs : 8 * vs.length ≤ s.rsp) {j v : ℕ} (hj : vs[j]? = some v) :
    (s.pushList vs).mem (s.rsp - 8 * (j + 1)) = v := by
  induction vs generalizing s j with
  | nil => cases hj
  | cons x vs ih =>
    rw [List.length_cons] at hvs
    have hrsp : (s.push x).rsp = s.rsp - 8 := rfl
    cases j with
    | zero =>
      rw [pushList_cons, pushList_mem_of_le _ _ (by omega) (by omega)]
      rw [← Option.some.inj hj]
      exact Function.update_self _ _ _
    | succ j =>
      have := ih (s.push x) (by omega) hj
      rw [pushList_cons]
      rw [show s.rsp - 8 * (j + 1 + 1) = (s.push x).rsp - 8 * (j + 1) by omega]
      exact this

end

/-! ## Pops -/

/-- a block of pops loads its registers from the words at the stack pointer and leaves memory alone -/
theorem exec_pop (rs : List ρ) (hrs : rs.Nodup) (s : AsmState ρ) :
    (exec (rs.map .pop) s).rsp = s.rsp + 8 * rs.length ∧ (exec (rs.map .pop) s).mem = s.mem ∧
      (∀ r, r ∉ rs → (exec (rs.map .pop) s).gpr r = s.gpr r) ∧
      ∀ j r, rs[j]? = some r → (exec (rs.map .pop) s).gpr r = s.mem (s.rsp + 8 * j) := by
  induction rs generalizing s with
  | nil => exact ⟨rfl, rfl, fun r _ => rfl, fun j r hj => by cases hj⟩
  | cons x rs ih =>
    obtain ⟨hx, hrs⟩ := List.nodup_cons.1 hrs
    obtain ⟨h1, h2, h3, h4⟩ := ih hrs ((Instr.pop x).exec s)
    rw [List.map_cons, exec_cons]
    refine ⟨?_, h2, fun r hr => ?_, fun j r hj => ?_⟩
    · rw [h1, List.length_cons]
      show s.rsp + 8 + _ = _
      omega
    · rw [h3 r fun h => hr (List.mem_cons_of_mem x h)]
      have hne : r ≠ x := by
        rintro rfl
        exact hr List.mem_cons_self
      exact Function.update_of_ne hne _ _
    · cases j with
      | zero =>
        cases hj
        rw [h3 _ hx]
        exact Function.update_self _ _ _
      | succ j =>
        rw [h4 j r hj]
        show s.mem (s.rsp + 8 + 8 * j) = _
        rw [show s.rsp + 8 + 8 * j = s.rsp + 8 * (j + 1) by omega]

/-! ## Loads from a record -/

/-- the words at these offsets from base, pushed through register t -/
def pushWords (t base : ρ) (offs : List ℕ) : List (Instr ρ) := offs.flatMap fun o => [.load t base o, .push t]

/-- copying words of a record above the stack -/
theorem exec_pushWords {t base : ρ} (ht : t ≠ base) (offs : List ℕ) (s : AsmState ρ) (hoffs : 8 * offs.length ≤ s.rsp)
    (hbase : s.rsp ≤ s.gpr base) :
    (∀ r, r ≠ t → (exec (pushWords t base offs) s).gpr r = s.gpr r) ∧
      (exec (pushWords t base offs) s).rsp = s.rsp - 8 * offs.length ∧
      (exec (pushWords t base offs) s).mem = (s.pushList (offs.map fun o => s.mem (s.gpr base + o))).mem := by
  induction offs generalizing s with
  | nil => exact ⟨fun r _ => rfl, rfl, rfl⟩
  | cons o offs ih =>
    rw [List.length_cons] at hoffs
    have hstep : exec (pushWords t base (o :: offs)) s =
        exec (pushWords t base offs) ((s.push (s.mem (s.gpr base + o))).set t (s.mem (s.gpr base + o))) := by
      show exec (pushWords t base offs) ((Instr.push t).exec ((Instr.load t base o).exec s)) = _
      congr 1
      simp [Instr.exec, AsmState.set, AsmState.push]
    generalize hu : (s.push (s.mem (s.gpr base + o))).set t (s.mem (s.gpr base + o)) = u at hstep
    have hursp : u.rsp = s.rsp - 8 := by rw [← hu]; rfl
    have hubase : u.gpr base = s.gpr base := by
      rw [← hu]
      exact Function.update_of_ne (Ne.symm ht) _ _
    have humem : u.mem = (s.push (s.mem (s.gpr base + o))).mem := by rw [← hu]; rfl
    -- the record lies above the stack, so the pushes do not change it
    have hwords : ∀ x, u.mem (u.gpr base + x) = s.mem (s.gpr base + x) := by
      intro x
      rw [hubase, humem]
      exact Function.update_of_ne (by omega) _ _
    obtain ⟨h1, h2, h3⟩ := ih u (by omega) (by omega)
    rw [hstep]
    refine ⟨fun r hr => ?_, ?_, ?_⟩
    · rw [h1 r hr, ← hu]
      exact Function.update_of_ne hr _ _
    · rw [h2, hursp, List.length_cons]
      omega
    · rw [h3, List.map_cons, pushList_cons]
      simp only [hwords]
      exact pushList_mem_congr hursp humem _

/-- registers loaded from words of one record -/
def loadWords (base : ρ) (ds : List (ρ × ℕ)) : List (Instr ρ) := ds.map fun d => .load d.1 base d.2

theorem exec_loadWords {base : ρ} (ds : List (ρ × ℕ)) (hds : (ds.map Prod.fst).Nodup) (hbase : base ∉ ds.map Prod.fst)
    (s : AsmState ρ) :
    (exec (loadWords base ds) s).rsp = s.rsp ∧ (exec (loadWords base ds) s).mem = s.mem ∧
      (∀ r, r ∉ ds.map Prod.fst → (exec (loadWords base ds) s).gpr r = s.gpr r) ∧
      ∀ d ∈ ds, (exec (loadWords base ds) s).gpr d.1 = s.mem (s.gpr base + d.2) := by
  induction ds generalizing s with
  | nil => exact ⟨rfl, rfl, fun r _ => rfl, fun d hd => by cases hd⟩
  | cons x ds ih =>
    rw [List.map_cons] at hds hbase
    obtain ⟨hx, hds⟩ := List.nodup_cons.1 hds
    rw [List.mem_cons, not_or] at hbase
    obtain ⟨h1, h2, h3, h4⟩ := ih hds hbase.2 ((Instr.load x.1 base x.2).exec s)
    show (exec (loadWords base ds) _).rsp = _ ∧ (exec (loadWords base ds) _).mem = _ ∧ _
    refine ⟨h1, h2, fun r hr => ?_, fun d hd => ?_⟩
    · rw [List.map_cons, List.mem_cons, not_or] at hr
      exact (h3 r hr.2).trans (Function.update_of_ne hr.1 _ _)
    · rcases List.mem_cons.1 hd with rfl | hd
      · exact (h3 d.1 hx).trans (Function.update_self _ _ _)
      · have hkeep : ((Instr.load x.1 base x.2).exec s).gpr base = s.gpr base := Function.update_of_ne hbase.1 _ _
        have := h4 d hd
        rw [hkeep] at this
        exact this

end Tomorrow.Core
