/-
Which memory `ramfs::init` reads.

`init` is given again as a computation that logs the address of every byte it reads (`initSteps`), with the kernel heap as
a parameter: an allocation that fails is a panic. Without the log, and with a heap that always has room, it is
`Ramfs.init` (`initSteps_value`). The archive decides alone where the loop goes and where it ends: `MOD_END` is never
looked at.

`Ended` says of the bytes of a module that the chain of headers comes to a zero byte inside them. A header with another
one inside the module behind it lies inside with its contents, so this is all that is needed, and without it the loop
leaves the module (`init_in_module`). Both ends of a module are below 2 ^ 32 and a record is shorter than 2 ^ 37, so no
address wraps before that.
-/
import Tomorrow.Core.Logged
import Tomorrow.Files.Initrd

namespace Tomorrow.Files

open Tomorrow.Core

/-! ## `init` with a log of its reads -/

/-- what `init` asks the heap for -/
inductive Request where
  /-- the owned string of `from_utf8_lossy` -/
  | name (bytes : Bytes)
  /-- `Vec::with_capacity` -/
  | contents (size : ℕ)
  /-- `Arc::new` and the new place in `ROOT` -/
  | entry

def readByte (mem : ℕ → UInt8) (a : ℕ) : Logged ℕ UInt8 := .note a (mem a)

/-- the loop over the name; the limit is tested after the byte is read -/
def nameLoop (mem : ℕ → UInt8) (a : ℕ) : ℕ → Logged ℕ Bytes
  | 0 => readByte mem a >>= fun _ => pure []
  | n + 1 => readByte mem a >>= fun c =>
    if c = 0 then pure [] else nameLoop mem (a + 1) n >>= fun cs => pure (c :: cs)

/-- the loop of `parse_octal` -/
def octalLoop (mem : ℕ → UInt8) (a : ℕ) : ℕ → ℕ → Logged ℕ ℕ
  | 0, result => pure result
  | n + 1, result => readByte mem a >>= fun c =>
    if c < 0x30 ∨ 0x37 < c then pure result else octalLoop mem (a + 1) n (result * 8 + (c - 0x30).toNat)

/-- `extend_from_slice` of the contents -/
def readSlice (mem : ℕ → UInt8) (a len : ℕ) : Logged ℕ Bytes := ⟨List.range' a len, some (slice mem a len)⟩

section

variable {η : Type} (alloc : η → Request → Option η) (mem : ℕ → UInt8) (base : ℕ)

/-- the loop over the headers, with a heap h -/
def initSteps : ℕ → η → Ramfs → ℕ → Logged ℕ Ramfs
  | 0, _, _, _ => .stop
  | n + 1, h, fs, off => do
    let name0 ← readByte mem (base + off)
    if name0 = 0 then pure fs
    else do
      let name ← nameLoop mem (base + off) 100
      let h ← .ofOption (alloc h (.name (fromUtf8Lossy name)))
      let size ← octalLoop mem (base + (off + 124)) 12 0
      let h ← .ofOption (alloc h (.contents size))
      let data ← readSlice mem (base + off + 512) size
      let h ← .ofOption (alloc h .entry)
      initSteps n h (fs.push (fromUtf8Lossy name) data) (off + 512 + andNot (size + 511) 511)

/-- the allocations for one file -/
def allocFile (h : η) (name : Bytes) (size : ℕ) : Option η :=
  (alloc h (.name name)).bind fun h => (alloc h (.contents size)).bind fun h => alloc h .entry

end

/-! ## The condition on the module -/

/-- the name in the header at the front of some bytes -/
def headerName (bs : Bytes) : Bytes := fromUtf8Lossy (readName (fun i => bs.getD i 0) 0 100)

/-- the size in it -/
def headerSize (bs : Bytes) : ℕ := parseOctal (fun i => bs.getD i 0) 0 124 12

/-- from a header to the next -/
def recordLength (size : ℕ) : ℕ := 512 + andNot (size + 511) 511

/-- the chain of headers at the front of these bytes comes to a zero byte in the place of a name, and a heap h has room
for the files before it -/
inductive Ended {η : Type} (alloc : η → Request → Option η) : η → Bytes → Prop where
  | zero (h : η) (bs : Bytes) : Ended alloc h (0 :: bs)
  | file {h h' : η} {c : UInt8} {bs : Bytes} (hc : c ≠ 0)
      (ha : allocFile alloc h (headerName (c :: bs)) (headerSize (c :: bs)) = some h')
      (hrest : Ended alloc h' ((c :: bs).drop (recordLength (headerSize (c :: bs))))) : Ended alloc h (c :: bs)

theorem Ended.ne_nil {η : Type} {alloc : η → Request → Option η} {h : η} {bs : Bytes} (he : Ended alloc h bs) :
    bs ≠ [] := by
  cases he with
  | zero => exact List.cons_ne_nil _ _
  | file => exact List.cons_ne_nil _ _

/-- a header that is the last block of the bytes has no end mark behind it -/
theorem not_ended_block {η : Type} {alloc : η → Request → Option η} {h : η} {bs : Bytes} (hc : bs.head? ≠ some 0)
    (hlen : bs.length ≤ 512) : ¬ Ended alloc h bs := by
  intro he
  cases he with
  | zero h bs => exact hc rfl
  | file _ _ hrest =>
    apply hrest.ne_nil
    rw [List.drop_eq_nil_iff, recordLength]
    omega

/-! ## The reads of a header -/

section

variable {mem mem' : ℕ → UInt8} {a a' : ℕ}

theorem readByte_bind {α : Type} (mem : ℕ → UInt8) (a : ℕ) (f : UInt8 → Logged ℕ α) :
    (readByte mem a >>= f).log = a :: (f (mem a)).log ∧ (readByte mem a >>= f).value = (f (mem a)).value :=
  Logged.bind_of_some rfl f

/-- the name loop returns the name and reads at most the byte behind the field -/
theorem nameLoop_spec (mem : ℕ → UInt8) (a n : ℕ) :
    (nameLoop mem a n).value = some (readName mem a n) ∧ ∀ e ∈ (nameLoop mem a n).log, a ≤ e ∧ e ≤ a + n := by
  induction n generalizing a with
  | zero =>
    obtain ⟨hlog, hval⟩ := readByte_bind mem a fun _ => (pure [] : Logged ℕ Bytes)
    refine ⟨hval, fun e he => ?_⟩
    rw [nameLoop, hlog] at he
    rw [List.mem_singleton.1 he]
    omega
  | succ n ih =>
    rw [nameLoop, readName]
    obtain ⟨hlog, hval⟩ := readByte_bind mem a fun c =>
      if c = 0 then pure [] else nameLoop mem (a + 1) n >>= fun cs => pure (c :: cs)
    rw [hlog, hval]
    by_cases h0 : mem a = 0
    · rw [if_pos h0, if_pos h0]
      refine ⟨rfl, fun e he => ?_⟩
      rw [List.mem_singleton.1 he]
      omega
    · rw [if_neg h0, if_neg h0]
      obtain ⟨hrest, hreads⟩ := ih (a + 1)
      obtain ⟨hlog', hval'⟩ := Logged.bind_of_some hrest fun cs => (pure (mem a :: cs) : Logged ℕ Bytes)
      refine ⟨hval', fun e he => ?_⟩
      rw [hlog', Logged.pure_log, List.append_nil] at he
      rcases List.mem_cons.1 he with rfl | he
      · omega
      · have := hreads e he
        omega

/-- `parse_octal` reads no more than its field -/
theorem octalLoop_spec (mem : ℕ → UInt8) (a n r : ℕ) :
    (octalLoop mem a n r).value = some (parseOctalLoop mem a n r) ∧ ∀ e ∈ (octalLoop mem a n r).log, a ≤ e ∧ e < a + n := by
  induction n generalizing a r with
  | zero => exact ⟨rfl, fun e he => absurd he List.not_mem_nil⟩
  | succ n ih =>
    rw [octalLoop, parseOctalLoop]
    obtain ⟨hlog, hval⟩ := readByte_bind mem a fun c =>
      if c < 0x30 ∨ 0x37 < c then pure r else octalLoop mem (a + 1) n (r * 8 + (c - 0x30).toNat)
    rw [hlog, hval]
    by_cases hd : mem a < 0x30 ∨ 0x37 < mem a
    · rw [if_pos hd, if_pos hd]
      refine ⟨rfl, fun e he => ?_⟩
      rw [List.mem_singleton.1 he]
      omega
    · rw [if_neg hd, if_neg hd]
      obtain ⟨hrest, hreads⟩ := ih (a + 1) (r * 8 + (mem a - 0x30).toNat)
      refine ⟨hrest, fun e he => ?_⟩
      rcases List.mem_cons.1 he with rfl | he
      · omega
      · have := hreads e he
        omega

theorem readName_congr (n : ℕ) (h : ∀ i < n, mem' (a' + i) = mem (a + i)) : readName mem' a' n = readName mem a n := by
  induction n generalizing a a' with
  | zero => rfl
  | succ n ih =>
    have h0 : mem' a' = mem a := h 0 (Nat.zero_lt_succ n)
    have hrest : readName mem' (a' + 1) n = readName mem (a + 1) n := by
      apply ih
      intro i hi
      rw [Nat.add_assoc, Nat.add_assoc, Nat.add_comm 1]
      exact h (i + 1) (Nat.succ_lt_succ hi)
    rw [readName, readName, h0, hrest]

theorem parseOctalLoop_congr (n r : ℕ) (h : ∀ i < n, mem' (a' + i) = mem (a + i)) :
    parseOctalLoop mem' a' n r = parseOctalLoop mem a n r := by
  induction n generalizing a a' r with
  | zero => rfl
  | succ n ih =>
    have h0 : mem' a' = mem a := h 0 (Nat.zero_lt_succ n)
    have hrest : ∀ r, parseOctalLoop mem' (a' + 1) n r = parseOctalLoop mem (a + 1) n r := by
      intro r
      apply ih
      intro i hi
      rw [Nat.add_assoc, Nat.add_assoc, Nat.add_comm 1]
      exact h (i + 1) (Nat.succ_lt_succ hi)
    rw [parseOctalLoop, parseOctalLoop, h0, hrest]

/-- n octal digits make no more than 8 ^ n -/
theorem parseOctalLoop_lt (mem : ℕ → UInt8) (a n r : ℕ) : parseOctalLoop mem a n r < (r + 1) * 8 ^ n := by
  induction n generalizing a r with
  | zero =>
    rw [parseOctalLoop, Nat.pow_zero, Nat.mul_one]
    exact Nat.lt_succ_self r
  | succ n ih =>
    rw [parseOctalLoop, Nat.pow_succ]
    split_ifs with hd
    · exact lt_of_lt_of_le (Nat.lt_succ_self r) (Nat.le_mul_of_pos_right _ (by positivity))
    · have hdigit : (mem a - 0x30).toNat ≤ 7 := by
        rw [not_or, UInt8.not_lt, UInt8.not_lt, UInt8.le_iff_toNat_le, UInt8.le_iff_toNat_le] at hd
        rw [UInt8.toNat_sub_of_le _ _ (UInt8.le_iff_toNat_le.2 hd.1)]
        have h7 : (0x37 : UInt8).toNat = 55 := rfl
        have h0 : (0x30 : UInt8).toNat = 48 := rfl
        omega
      calc parseOctalLoop mem (a + 1) n (r * 8 + (mem a - 0x30).toNat)
          < (r * 8 + (mem a - 0x30).toNat + 1) * 8 ^ n := ih _ _
        _ ≤ ((r + 1) * 8) * 8 ^ n := Nat.mul_le_mul_right _ (by omega)
        _ = (r + 1) * (8 ^ n * 8) := by rw [Nat.mul_assoc, Nat.mul_comm 8]

/-- the contents lie before the next header -/
theorem size_lt_recordLength (bs : ℕ → UInt8) (b : ℕ) :
    512 + parseOctalLoop bs b 12 0 ≤ recordLength (parseOctalLoop bs b 12 0) := by
  have hlt := parseOctalLoop_lt bs b 12 0
  have hround := andNot_two_pow (k := 9) (x := parseOctalLoop bs b 12 0 + 511) (by omega) (by omega)
  simp only [Nat.reducePow, Nat.reduceSub] at hround
  rw [recordLength, hround]
  omega

/-! ## The bytes of the module -/

/-- the bytes from an address to the end of the module -/
def rest (mem : ℕ → UInt8) (modEnd a : ℕ) : Bytes := slice mem a (modEnd - a)

theorem rest_nil {modEnd : ℕ} (h : modEnd ≤ a) : rest mem modEnd a = [] := by
  rw [rest, Nat.sub_eq_zero_of_le h]
  rfl

theorem rest_cons {modEnd : ℕ} (h : a < modEnd) : rest mem modEnd a = mem a :: rest mem modEnd (a + 1) := by
  have hlen : modEnd - a = modEnd - (a + 1) + 1 := by omega
  rw [rest, rest, hlen, slice, List.range_succ_eq_map, List.map_cons, List.map_map, slice]
  congr 1
  apply List.map_congr_left
  intro i _
  rw [Function.comp_apply, Nat.succ_eq_add_one, Nat.add_assoc, Nat.add_comm 1]

theorem rest_drop {modEnd : ℕ} (k : ℕ) : (rest mem modEnd a).drop k = rest mem modEnd (a + k) := by
  induction k generalizing a with
  | zero => rfl
  | succ k ih =>
    by_cases h : a < modEnd
    · rw [rest_cons h, List.drop_succ_cons, ih, Nat.add_assoc, Nat.add_comm 1]
    · rw [rest_nil (Nat.le_of_not_lt h), rest_nil (by omega), List.drop_nil]

theorem rest_getD {modEnd i : ℕ} (h : a + i < modEnd) : (rest mem modEnd a).getD i 0 = mem (a + i) := by
  have hi : i < modEnd - a := by omega
  simp [rest, slice, List.getD_eq_getElem?_getD, hi]

/-- a header inside the module is read from its bytes -/
theorem header_eq (mem : ℕ → UInt8) (a modEnd : ℕ) (h : a + 136 ≤ modEnd) :
    headerName (rest mem modEnd a) = fromUtf8Lossy (readName mem a 100) ∧
      headerSize (rest mem modEnd a) = parseOctalLoop mem (a + 124) 12 0 := by
  constructor
  · rw [headerName, readName_congr 100 fun i hi => ?_]
    rw [Nat.zero_add]
    exact rest_getD (by omega)
  · rw [headerSize, parseOctal, parseOctalLoop_congr 12 0 fun i hi => ?_]
    rw [Nat.zero_add, rest_getD (by omega), Nat.add_assoc]

end

/-! ## The loop over the headers -/

section

open Logged

variable {η : Type} {alloc : η → Request → Option η} {mem : ℕ → UInt8} {base off n modEnd : ℕ} {h : η} {fs r : Ramfs}
  {P : ℕ → Prop}

theorem initSteps_zero (h0 : mem (base + off) = 0) :
    Safe P (initSteps alloc mem base (n + 1) h fs off) r ↔ P (base + off) ∧ fs = r := by
  rw [initSteps, readByte, safe_bind_of fun _ => safe_note, if_pos h0, safe_pure]

/-- one round of the loop: the reads of a header and its contents, then the next header -/
theorem initSteps_file (h0 : mem (base + off) ≠ 0) :
    Safe P (initSteps alloc mem base (n + 1) h fs off) r ↔
      P (base + off) ∧ (∀ e ∈ (nameLoop mem (base + off) 100).log, P e) ∧
      (∀ e ∈ (octalLoop mem (base + (off + 124)) 12 0).log, P e) ∧
      (∀ e ∈ List.range' (base + off + 512) (parseOctal mem base (off + 124) 12), P e) ∧
      ∃ h', allocFile alloc h (fromUtf8Lossy (readName mem (base + off) 100)) (parseOctal mem base (off + 124) 12) = some h' ∧
        Safe P (initSteps alloc mem base n h' (fs.push (fromUtf8Lossy (readName mem (base + off) 100))
          (slice mem (base + off + 512) (parseOctal mem base (off + 124) 12)))
          (off + 512 + andNot (parseOctal mem base (off + 124) 12 + 511) 511)) r := by
  have hname := fun b => safe_of_value (P := P) (b := b) (nameLoop_spec mem (base + off) 100).1
  have hoct := fun b => safe_of_value (P := P) (b := b) (octalLoop_spec mem (base + (off + 124)) 12 0).1
  have hslice := fun k b => safe_of_value (P := P) (b := b) (x := readSlice mem (base + off + 512) k) rfl
  rw [initSteps, readByte, safe_bind_of fun _ => safe_note, if_neg h0, safe_bind_of hname]
  simp only [safe_bind_ofOption, safe_bind_of hoct, safe_bind_of (hslice _)]
  constructor
  · rintro ⟨hP, hnreads, h1, hh1, hsreads, h2, hh2, hdreads, h3, hh3, hr⟩
    refine ⟨hP, hnreads, hsreads, hdreads, h3, ?_, hr⟩
    rw [allocFile, hh1, Option.bind_some, parseOctal, hh2, Option.bind_some]
    exact hh3
  · rintro ⟨hP, hnreads, hsreads, hdreads, h3, halloc, hr⟩
    obtain ⟨h1, hh1, halloc⟩ := Option.bind_eq_some_iff.1 halloc
    obtain ⟨h2, hh2, hh3⟩ := Option.bind_eq_some_iff.1 halloc
    exact ⟨hP, hnreads, h1, hh1, hsreads, h2, hh2, hdreads, h3, hh3, hr⟩

/-- without the log, and with a heap that always has room, this is `Ramfs.init` -/
theorem initSteps_value (n : ℕ) (fs : Ramfs) (off : ℕ) :
    (initSteps (fun h _ => some h) mem base n () fs off).value = Ramfs.initLoop mem base n fs off := by
  have htrue : ∀ {x : Logged ℕ Ramfs} {r}, x.value = some r ↔ Safe (fun _ => True) x r :=
    ⟨fun h => ⟨h, fun _ _ => trivial⟩, fun h => h.value⟩
  induction n generalizing fs off with
  | zero => rfl
  | succ n ih =>
    apply Option.ext
    intro r
    by_cases h0 : mem (base + off) = 0
    · rw [htrue, initSteps_zero h0, Ramfs.initLoop, if_pos h0]
      simp
    · rw [htrue, initSteps_file h0, Ramfs.initLoop, if_neg h0, ← ih, htrue]
      constructor
      · rintro ⟨-, -, -, -, _, -, hr⟩
        exact hr
      · intro hr
        exact ⟨trivial, by simp, by simp, by simp, (), rfl, hr⟩

theorem rest_ne_nil {a : ℕ} (hne : rest mem modEnd a ≠ []) : a < modEnd := by
  by_contra hge
  exact hne (rest_nil (Nat.le_of_not_lt hge))

theorem next_header (a k : ℕ) (ho : a = base + off) : base + (off + 512 + andNot (k + 511) 511) = a + recordLength k := by
  rw [recordLength, ho]
  omega

/-- a run that returns and stays inside was led by the bytes of the module to their end mark: induction on the rounds -/
theorem ended_of_safe (hs : Safe (fun e => base ≤ e ∧ e < modEnd) (initSteps alloc mem base n h fs off) r) :
    Ended alloc h (rest mem modEnd (base + off)) := by
  induction n generalizing h fs off with
  | zero => exact absurd hs not_safe_stop
  | succ n ih =>
    by_cases h0 : mem (base + off) = 0
    · obtain ⟨⟨-, hlt⟩, -⟩ := (initSteps_zero h0).1 hs
      rw [rest_cons hlt, h0]
      exact .zero h _
    · obtain ⟨⟨-, hlt⟩, -, -, -, h', halloc, hs⟩ := (initSteps_file h0).1 hs
      have hrest := ih hs
      rw [next_header (base + off) _ rfl] at hrest
      have hnext := rest_ne_nil hrest.ne_nil
      have hsize := size_lt_recordLength mem (base + (off + 124))
      rw [parseOctal] at halloc hrest hnext
      obtain ⟨hname, hoct⟩ := header_eq mem (base + off) modEnd (by omega)
      rw [rest_cons hlt]
      refine @Ended.file _ _ _ h' _ _ h0 ?_ ?_
      · rw [← rest_cons hlt, hname, hoct, Nat.add_assoc]
        exact halloc
      · rw [← rest_cons hlt, hoct, rest_drop, Nat.add_assoc base off 124]
        exact hrest

/-- with the end mark inside, every header before it lies inside with its contents: induction on the chain -/
theorem safe_of_ended {bs : Bytes} (he : Ended alloc h bs) (fs : Ramfs) (off : ℕ)
    (hbs : rest mem modEnd (base + off) = bs) :
    ∃ n r, Safe (fun e => base ≤ e ∧ e < modEnd) (initSteps alloc mem base n h fs off) r := by
  induction he generalizing fs off with
  | zero h bs =>
    have hlt : base + off < modEnd := rest_ne_nil (by rw [hbs]; exact List.cons_ne_nil _ _)
    rw [rest_cons hlt] at hbs
    exact ⟨1, fs, (initSteps_zero (List.cons.inj hbs).1).2 ⟨⟨Nat.le_add_right _ _, hlt⟩, rfl⟩⟩
  | @file h h' c bs hc ha hrest ih =>
    have hlt : base + off < modEnd := rest_ne_nil (by rw [hbs]; exact List.cons_ne_nil _ _)
    have hhead : mem (base + off) = c := by
      rw [rest_cons hlt] at hbs
      exact (List.cons.inj hbs).1
    have hnext := hrest.ne_nil
    rw [← hbs, rest_drop] at hnext
    have hnext := rest_ne_nil hnext
    have hheader : base + off + 136 ≤ modEnd := by
      rw [recordLength] at hnext
      omega
    obtain ⟨hname, hoct⟩ := header_eq mem (base + off) modEnd hheader
    rw [← hbs, hname, hoct] at ha
    rw [hoct] at hnext
    obtain ⟨n, r, hs⟩ := ih
      (fs.push (fromUtf8Lossy (readName mem (base + off) 100))
        (slice mem (base + off + 512) (parseOctal mem base (off + 124) 12)))
      (off + 512 + andNot (parseOctal mem base (off + 124) 12 + 511) 511) (by
        rw [next_header (base + off) _ rfl, ← hbs, rest_drop, hoct, Nat.add_assoc base off 124]
        rfl)
    have hsize := size_lt_recordLength mem (base + off + 124)
    refine ⟨n + 1, r, (initSteps_file (by rw [hhead]; exact hc)).2 ⟨⟨Nat.le_add_right _ _, hlt⟩, ?_, ?_, ?_, h', ?_, hs⟩⟩
    · intro e he
      have := (nameLoop_spec _ _ 100).2 e he
      omega
    · intro e he
      have := (octalLoop_spec _ _ 12 0).2 e he
      omega
    · intro e he
      rw [parseOctal, ← Nat.add_assoc] at he
      have := List.mem_range'_1.1 he
      omega
    · rw [parseOctal, ← Nat.add_assoc]
      exact ha

/-- **Initrd parsing stays in the module exactly when the module ends itself.** Whatever memory holds: `init` returns, with
every address it reads in the module, if and only if the chain of headers in the bytes of the module comes to a zero byte
in the place of a name and the heap has room for the files before it. -/
theorem init_in_module {η : Type} (alloc : η → Request → Option η) (h : η) (mem : ℕ → UInt8) (modStart modEnd : ℕ) :
    (∃ fuel fs, Safe (fun a => modStart ≤ a ∧ a < modEnd) (initSteps alloc mem modStart fuel h Ramfs.empty 0) fs) ↔
      Ended alloc h (slice mem modStart (modEnd - modStart)) := by
  constructor
  · rintro ⟨fuel, fs, hs⟩
    exact ended_of_safe hs
  · intro he
    exact safe_of_ended he Ramfs.empty 0 rfl

end

/-- a module of one header, for an empty file a, without an end mark: the zero byte that ends the loop is behind it -/
theorem module_without_end :
    ¬ ∃ fuel fs, Logged.Safe (fun a => 0x200000 ≤ a ∧ a < 0x200200)
      (initSteps (fun h _ => some h) (fun a => if a = 0x200000 then 0x61 else 0) 0x200000 fuel () Ramfs.empty 0) fs := by
  rintro ⟨fuel, fs, hs⟩
  refine not_ended_block ?_ ?_ (ended_of_safe hs)
  · rw [rest_cons (by decide)]
    decide
  · simp [rest, slice]

end Tomorrow.Files
