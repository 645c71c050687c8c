/-
The initial files: `ramfs::init` reads a USTAR archive from the memory of the boot module.

A header is a block of 512 bytes with the name at 0 and the size in octal at 124; the contents follow, padded to a
multiple of 512, and a zero byte in the place of a name ends the archive. `init` has no bound of its own, so its loop
takes fuel, and a result with enough fuel is its result.

Results:
- `fromUtf8Lossy_valid`: valid UTF-8 is stored as it is;
- `parseOctal_field`, `readName_field`: the two fields of a header are read back;
- `initrd_round_trip`: reading the encoding of a list of files gives the list.
-/
import Tomorrow.Files.Ramfs

namespace Tomorrow.Files

open Tomorrow.Core

/-! ## `init` -/

/-- the bytes of the name field at a: up to n of them, to the first NUL -/
def readName (mem : ℕ → UInt8) (a : ℕ) : ℕ → Bytes
  | 0 => []
  | n + 1 => if mem a = 0 then [] else mem a :: readName mem (a + 1) n

/-- the loop of `parse_octal` over n bytes at a, with the result so far -/
def parseOctalLoop (mem : ℕ → UInt8) (a : ℕ) : ℕ → ℕ → ℕ
  | 0, result => result
  | n + 1, result =>
    if mem a < 0x30 ∨ 0x37 < mem a then result
    else parseOctalLoop mem (a + 1) n (result * 8 + (mem a - 0x30).toNat)

def parseOctal (mem : ℕ → UInt8) (base off len : ℕ) : ℕ := parseOctalLoop mem (base + off) len 0

/-- `slice::from_raw_parts` -/
def slice (mem : ℕ → UInt8) (a len : ℕ) : Bytes := (List.range len).map fun i => mem (a + i)

/-- `ROOT.push` of an entry with an inode of its own -/
def Ramfs.push (fs : Ramfs) (name data : Bytes) : Ramfs where
  root := fs.root ++ [⟨name, fs.fresh⟩]
  data := Function.update fs.data fs.fresh data
  fresh := fs.fresh + 1

/-- `ROOT` before `init` -/
def Ramfs.empty : Ramfs := ⟨[], fun _ => [], 0⟩

/-- the loop over the headers; none when the fuel is used up -/
def Ramfs.initLoop (mem : ℕ → UInt8) (base : ℕ) : ℕ → Ramfs → ℕ → Option Ramfs
  | 0, _, _ => none
  | n + 1, fs, off =>
    if mem (base + off) = 0 then some fs
    else
      let name := fromUtf8Lossy (readName mem (base + off) 100)
      let size := parseOctal mem base (off + 124) 12
      initLoop mem base n (fs.push name (slice mem (base + off + 512) size)) (off + 512 + andNot (size + 511) 511)

def Ramfs.init (mem : ℕ → UInt8) (base fuel : ℕ) : Option Ramfs := Ramfs.initLoop mem base fuel Ramfs.empty 0

/-- names and contents in directory order -/
def Ramfs.files (fs : Ramfs) : List (Bytes × Bytes) := fs.root.map fun e => (e.name, fs.data e.inode)

/-! ## Valid UTF-8 -/

/-- the encoding of a list of characters -/
def ValidUtf8 (n : Bytes) : Prop := ∃ cs : List Char, n = cs.flatMap String.utf8EncodeChar

theorem isCont_tail : ∀ x < 64, isCont (UInt8.ofNat (x + 0x80)) = true := by decide

theorem second3_valid : ∀ x < 16, ∀ y < 64, (x = 0 → 32 ≤ y) → (x = 13 → y < 32) →
    second3 (UInt8.ofNat (x + 0xE0)) (UInt8.ofNat (y + 0x80)) = true := by decide

theorem second4_valid : ∀ x < 5, ∀ y < 64, (x = 0 → 16 ≤ y) → (x = 4 → y < 16) →
    second4 (UInt8.ofNat (x + 0xF0)) (UInt8.ofNat (y + 0x80)) = true := by decide

/-- the first byte of an encoding of two, three or four bytes -/
theorem lead2 : ∀ x < 32, 2 ≤ x → ¬ UInt8.ofNat (x + 0xC0) < 0x80 ∧ 0xC2 ≤ UInt8.ofNat (x + 0xC0) ∧
    UInt8.ofNat (x + 0xC0) ≤ 0xDF := by decide

theorem lead3 : ∀ x < 16, ¬ UInt8.ofNat (x + 0xE0) < 0x80 ∧ ¬ (0xC2 ≤ UInt8.ofNat (x + 0xE0) ∧
    UInt8.ofNat (x + 0xE0) ≤ 0xDF) ∧ 0xE0 ≤ UInt8.ofNat (x + 0xE0) ∧ UInt8.ofNat (x + 0xE0) ≤ 0xEF := by decide

theorem lead4 : ∀ x < 5, ¬ UInt8.ofNat (x + 0xF0) < 0x80 ∧ ¬ (0xC2 ≤ UInt8.ofNat (x + 0xF0) ∧
    UInt8.ofNat (x + 0xF0) ≤ 0xDF) ∧ ¬ (0xE0 ≤ UInt8.ofNat (x + 0xF0) ∧ UInt8.ofNat (x + 0xF0) ≤ 0xEF) ∧
    0xF0 ≤ UInt8.ofNat (x + 0xF0) ∧ UInt8.ofNat (x + 0xF0) ≤ 0xF4 := by decide

section

variable {a b c d : UInt8} (s : Bytes)

theorem fromUtf8Lossy_one (h : a < 0x80) : fromUtf8Lossy (a :: s) = a :: fromUtf8Lossy s := by
  rw [fromUtf8Lossy.eq_def]
  dsimp only
  rw [if_pos h]

theorem fromUtf8Lossy_two (h : ¬ a < 0x80) (h2 : 0xC2 ≤ a ∧ a ≤ 0xDF) (hb : isCont b = true) :
    fromUtf8Lossy (a :: b :: s) = a :: b :: fromUtf8Lossy s := by
  rw [fromUtf8Lossy.eq_def]
  dsimp only
  rw [if_neg h, if_pos h2]
  simp only [hb, if_true]

theorem fromUtf8Lossy_three (h : ¬ a < 0x80) (h2 : ¬ (0xC2 ≤ a ∧ a ≤ 0xDF)) (h3 : 0xE0 ≤ a ∧ a ≤ 0xEF)
    (hb : second3 a b = true) (hc : isCont c = true) :
    fromUtf8Lossy (a :: b :: c :: s) = a :: b :: c :: fromUtf8Lossy s := by
  rw [fromUtf8Lossy.eq_def]
  dsimp only
  rw [if_neg h, if_neg h2, if_pos h3]
  simp only [hb, hc, if_true]

theorem fromUtf8Lossy_four (h : ¬ a < 0x80) (h2 : ¬ (0xC2 ≤ a ∧ a ≤ 0xDF)) (h3 : ¬ (0xE0 ≤ a ∧ a ≤ 0xEF))
    (h4 : 0xF0 ≤ a ∧ a ≤ 0xF4) (hb : second4 a b = true) (hc : isCont c = true) (hd : isCont d = true) :
    fromUtf8Lossy (a :: b :: c :: d :: s) = a :: b :: c :: d :: fromUtf8Lossy s := by
  rw [fromUtf8Lossy.eq_def]
  dsimp only
  rw [if_neg h, if_neg h2, if_neg h3, if_pos h4]
  simp only [hb, hc, hd, if_true]

end

/-- the encoding of a character is copied -/
theorem fromUtf8Lossy_char (c : Char) (s : Bytes) :
    fromUtf8Lossy (String.utf8EncodeChar c ++ s) = String.utf8EncodeChar c ++ fromUtf8Lossy s := by
  have hvalid : c.val.toNat < 0xD800 ∨ (0xDFFF < c.val.toNat ∧ c.val.toNat < 0x110000) := c.valid
  unfold String.utf8EncodeChar
  generalize c.val.toNat = v at hvalid
  dsimp only
  split_ifs with h1 h2 h3
  · have hlt : UInt8.ofNat v < 0x80 := by
      rw [UInt8.lt_iff_toNat_lt, UInt8.toNat_ofNat']
      show v % 256 < 128
      omega
    exact fromUtf8Lossy_one s hlt
  · obtain ⟨l1, l2, l3⟩ := lead2 (v / 64 % 32) (by omega) (by omega)
    have c1 := isCont_tail (v % 64) (by omega)
    exact fromUtf8Lossy_two s l1 ⟨l2, l3⟩ c1
  · obtain ⟨l1, l2, l3, l4⟩ := lead3 (v / 4096 % 16) (by omega)
    have c1 := second3_valid (v / 4096 % 16) (by omega) (v / 64 % 64) (by omega) (by omega) (by omega)
    have c2 := isCont_tail (v % 64) (by omega)
    exact fromUtf8Lossy_three s l1 l2 ⟨l3, l4⟩ c1 c2
  · have hx : v / 262144 % 8 < 5 := by omega
    obtain ⟨l1, l2, l3, l4, l5⟩ := lead4 (v / 262144 % 8) hx
    have c1 := second4_valid (v / 262144 % 8) hx (v / 4096 % 64) (by omega) (by omega) (by omega)
    have c2 := isCont_tail (v / 64 % 64) (by omega)
    have c3 := isCont_tail (v % 64) (by omega)
    exact fromUtf8Lossy_four s l1 l2 l3 ⟨l4, l5⟩ c1 c2 c3

theorem fromUtf8Lossy_valid {n : Bytes} (h : ValidUtf8 n) : fromUtf8Lossy n = n := by
  obtain ⟨cs, rfl⟩ := h
  induction cs with
  | nil => rfl
  | cons c cs ih => rw [List.flatMap_cons, fromUtf8Lossy_char, ih]

/-! ## Archives -/

/-- the k octal digits of n, highest first -/
def octDigits : ℕ → ℕ → List ℕ
  | 0, _ => []
  | k + 1, n => octDigits k (n / 8) ++ [n % 8]

/-- a number in a field: k octal digits, then NULs or spaces -/
structure IsOctal (field : Bytes) (size : ℕ) (k : ℕ) (ts : Bytes) : Prop where
  lt : size < 8 ^ k
  field : field = (octDigits k size).map (fun d => UInt8.ofNat (0x30 + d)) ++ ts
  stop : ∀ t ∈ ts, t = 0 ∨ t = 0x20

/-- a header with this name and size; nothing is said about the other fields -/
structure IsHeader (h name : Bytes) (size : ℕ) : Prop where
  length : h.length = 512
  /-- the name ends at a NUL or with the field -/
  name : ∃ rest, h.take 100 = name ++ rest ∧ ∀ b ∈ rest.head?, b = 0
  size : ∃ k ts, IsOctal ((h.drop 124).take 12) size k ts

/-- how many bytes of padding follow contents of this length -/
def padding (len : ℕ) : ℕ := (len + 511) / 512 * 512 - len

/-- the bytes encode the files: header, contents and padding of each, then at least one zero block -/
inductive Archive : List (Bytes × Bytes) → Bytes → Prop where
  | nil (rest : Bytes) : Archive [] (List.replicate 512 0 ++ rest)
  | cons {h name data pad rest : Bytes} {files : List (Bytes × Bytes)} (hh : IsHeader h name data.length)
      (hpad : pad.length = padding data.length) (ha : Archive files rest) :
      Archive ((name, data) :: files) (h ++ (data ++ (pad ++ rest)))

/-- memory holds these bytes at a -/
def BytesAt (mem : ℕ → UInt8) (a : ℕ) (bs : Bytes) : Prop := ∀ i b, bs[i]? = some b → mem (a + i) = b

section

variable {mem : ℕ → UInt8} {a : ℕ} {x y : Bytes}

theorem BytesAt.left (h : BytesAt mem a (x ++ y)) : BytesAt mem a x := by
  intro i b hi
  exact h i b (by rw [List.getElem?_append_left (List.getElem?_eq_some_iff.1 hi).1, hi])

theorem BytesAt.right (h : BytesAt mem a (x ++ y)) : BytesAt mem (a + x.length) y := by
  intro i b hi
  rw [Nat.add_assoc]
  exact h (x.length + i) b (by rw [List.getElem?_append_right (Nat.le_add_right _ _), Nat.add_sub_cancel_left, hi])

theorem BytesAt.head {b : UInt8} (h : BytesAt mem a (b :: x)) : mem a = b := h 0 b rfl

theorem BytesAt.tail {b : UInt8} (h : BytesAt mem a (b :: x)) : BytesAt mem (a + 1) x := by
  intro i c hi
  rw [Nat.add_assoc, Nat.add_comm 1]
  exact h (i + 1) c hi

theorem BytesAt.take (h : BytesAt mem a x) (n : ℕ) : BytesAt mem a (x.take n) := by
  rw [← List.take_append_drop n x] at h
  exact h.left

theorem BytesAt.drop (h : BytesAt mem a x) {n : ℕ} (hn : n ≤ x.length) : BytesAt mem (a + n) (x.drop n) := by
  rw [← List.take_append_drop n x] at h
  have := h.right
  rw [List.length_take, Nat.min_eq_left hn] at this
  exact this

theorem slice_eq (h : BytesAt mem a x) : slice mem a x.length = x := by
  unfold slice
  apply List.ext_getElem?
  intro i
  rw [List.getElem?_map]
  by_cases hi : i < x.length
  · rw [List.getElem?_range hi, List.getElem?_eq_getElem hi]
    exact congrArg some (h i _ (List.getElem?_eq_getElem hi))
  · rw [List.getElem?_eq_none (by simpa using hi), List.getElem?_eq_none (by simpa using hi)]
    rfl

/-- a name without NUL is read up to the end of the field or to the NUL after it -/
theorem readName_field {name rest : Bytes} (h : BytesAt mem a (name ++ rest)) (h0 : ∀ b ∈ name, b ≠ 0)
    (hrest : ∀ b ∈ rest.head?, b = 0) : readName mem a (name.length + rest.length) = name := by
  induction name generalizing a with
  | nil =>
    cases rest with
    | nil => rfl
    | cons c rest =>
      have hc : mem a = 0 := by rw [h.head, hrest c rfl]
      rw [List.length_nil, Nat.zero_add]
      exact if_pos hc
  | cons b name ih =>
    have hb : mem a = b := h.head
    rw [List.length_cons, Nat.add_right_comm, readName, hb, if_neg (h0 b List.mem_cons_self),
      ih h.tail fun c hc => h0 c (List.mem_cons_of_mem b hc)]

/-- octal digits are read and the loop goes on after them -/
theorem parseOctalLoop_digits {ds : List ℕ} (hd : ∀ d ∈ ds, d < 8)
    (h : BytesAt mem a (ds.map fun d => UInt8.ofNat (0x30 + d))) (n r : ℕ) :
    parseOctalLoop mem a (ds.length + n) r = parseOctalLoop mem (a + ds.length) n (ds.foldl (fun r d => r * 8 + d) r) := by
  induction ds generalizing a r with
  | nil => rw [List.length_nil, Nat.zero_add]; rfl
  | cons d ds ih =>
    have hdigit : ∀ d < 8, ¬ (UInt8.ofNat (0x30 + d) < 0x30 ∨ 0x37 < UInt8.ofNat (0x30 + d)) ∧
        (UInt8.ofNat (0x30 + d) - 0x30).toNat = d := by decide
    obtain ⟨hrange, hvalue⟩ := hdigit d (hd d List.mem_cons_self)
    have hb : mem a = UInt8.ofNat (0x30 + d) := h.head
    rw [List.length_cons, Nat.add_right_comm, parseOctalLoop, hb, if_neg hrange, hvalue,
      ih (fun x hx => hd x (List.mem_cons_of_mem d hx)) h.tail, List.foldl_cons, Nat.add_right_comm, Nat.add_assoc]

theorem octDigits_lt {k n : ℕ} : ∀ d ∈ octDigits k n, d < 8 := by
  induction k generalizing n with
  | zero => intro d hd; cases hd
  | succ k ih =>
    intro d hd
    rcases List.mem_append.1 hd with hd | hd
    · exact ih d hd
    · rw [List.mem_singleton.1 hd]
      omega

theorem octDigits_length (k n : ℕ) : (octDigits k n).length = k := by
  induction k generalizing n with
  | zero => rfl
  | succ k ih => rw [octDigits, List.length_append, ih]; rfl

theorem octDigits_foldl {k n : ℕ} (hn : n < 8 ^ k) (r : ℕ) :
    (octDigits k n).foldl (fun r d => r * 8 + d) r = r * 8 ^ k + n := by
  induction k generalizing n with
  | zero =>
    rw [Nat.pow_zero, Nat.lt_one_iff] at hn
    rw [hn, Nat.pow_zero, Nat.mul_one]
    rfl
  | succ k ih =>
    rw [Nat.pow_succ] at hn
    rw [octDigits, List.foldl_append, ih (by omega), List.foldl_cons, List.foldl_nil, Nat.pow_succ, Nat.add_mul,
      Nat.mul_assoc, Nat.add_assoc, Nat.div_add_mod']

/-- a number is read back -/
theorem parseOctal_field {base off size k : ℕ} {field ts : Bytes} (hf : IsOctal field size k ts)
    (h : BytesAt mem (base + off) field) : parseOctal mem base off field.length = size := by
  have hb := h
  rw [hf.field] at hb
  have hloop := parseOctalLoop_digits octDigits_lt hb.left ts.length 0
  rw [octDigits_length, octDigits_foldl hf.lt, Nat.zero_mul, Nat.zero_add] at hloop
  unfold parseOctal
  rw [hf.field, List.length_append, List.length_map, octDigits_length, hloop]
  cases ts with
  | nil => rfl
  | cons t ts =>
    have hend : mem (base + off + k) = t := by
      have := hb.right
      rw [List.length_map, octDigits_length] at this
      exact this.head
    have hstop : mem (base + off + k) < 0x30 ∨ 0x37 < mem (base + off + k) := by
      rw [hend]
      rcases hf.stop t List.mem_cons_self with rfl | rfl <;> decide
    exact if_pos hstop

end

/-! ## Reading an archive -/

theorem Ramfs.push_wellFormed {fs : Ramfs} (hw : fs.WellFormed) (name data : Bytes) :
    (fs.push name data).WellFormed := by
  obtain ⟨hlt, hnodup⟩ := hw.snoc name
  exact ⟨hlt, hnodup⟩

theorem Ramfs.push_files {fs : Ramfs} (hw : fs.WellFormed) (name data : Bytes) :
    (fs.push name data).files = fs.files ++ [(name, data)] := by
  unfold Ramfs.push Ramfs.files
  dsimp only
  rw [List.map_append, List.map_singleton, Function.update_self]
  congr 1
  apply List.map_congr_left
  intro e he
  rw [Function.update_of_ne (hw.created e he).ne]

theorem Ramfs.pushAll {fs : Ramfs} (hw : fs.WellFormed) (files : List (Bytes × Bytes)) :
    (files.foldl (fun fs f => fs.push f.1 f.2) fs).WellFormed ∧
      (files.foldl (fun fs f => fs.push f.1 f.2) fs).files = fs.files ++ files := by
  induction files generalizing fs with
  | nil => exact ⟨hw, (List.append_nil _).symm⟩
  | cons f files ih =>
    obtain ⟨hw', hfiles⟩ := ih (Ramfs.push_wellFormed hw f.1 f.2)
    refine ⟨hw', ?_⟩
    rw [List.foldl_cons, hfiles, Ramfs.push_files hw, List.append_assoc]
    rfl

/-- a name that fits in a header -/
structure FieldName (name : Bytes) : Prop where
  pos : 1 ≤ name.length
  le : name.length ≤ 100
  noNul : ∀ b ∈ name, b ≠ 0

/-- one header: the loop stores the file and goes on at the next header -/
theorem initLoop_file {mem : ℕ → UInt8} {base off n : ℕ} {fs : Ramfs} {h name data rest : Bytes}
    (hn : FieldName name) (hh : IsHeader h name data.length) (hmem : BytesAt mem (base + off) (h ++ (data ++ rest))) :
    Ramfs.initLoop mem base (n + 1) fs off =
      Ramfs.initLoop mem base n (fs.push (fromUtf8Lossy name) data) (off + (512 + data.length + padding data.length)) := by
  have hheader := hmem.left
  have hdata : BytesAt mem (base + off + 512) data := by
    have := hmem.right.left
    rw [hh.length] at this
    exact this
  obtain ⟨tail, hfield, htail⟩ := hh.name
  have hname : BytesAt mem (base + off) (name ++ tail) := by
    rw [← hfield]
    exact hheader.take 100
  have hread : readName mem (base + off) 100 = name := by
    have hlen := congrArg List.length hfield
    rw [List.length_take, hh.length, List.length_append] at hlen
    have := readName_field hname hn.noNul htail
    rw [← hlen] at this
    exact this
  have hfirst : mem (base + off) ≠ 0 := by
    obtain ⟨b, bs, rfl⟩ := List.exists_cons_of_length_pos hn.pos
    rw [hname.head]
    exact hn.noNul b List.mem_cons_self
  obtain ⟨k, ts, hoct⟩ := hh.size
  have hlen : ((h.drop 124).take 12).length = 12 := by rw [List.length_take, List.length_drop, hh.length]; rfl
  have hsize : parseOctal mem base (off + 124) 12 = data.length := by
    rw [← hlen]
    refine parseOctal_field hoct ?_
    rw [← Nat.add_assoc]
    exact (hheader.drop (by rw [hh.length]; omega)).take 12
  have hlt : data.length < 8 ^ 12 := by
    have hk := congrArg List.length hoct.field
    rw [hlen, List.length_append, List.length_map, octDigits_length] at hk
    exact lt_of_lt_of_le hoct.lt (Nat.pow_le_pow_right (by decide) (by omega))
  have hround : andNot (data.length + 511) 511 = data.length + padding data.length := by
    have := andNot_two_pow (k := 9) (x := data.length + 511) (by omega) (by omega)
    simp only [Nat.reducePow, Nat.reduceSub] at this
    rw [this, padding]
    omega
  rw [Ramfs.initLoop, if_neg hfirst]
  simp only [hread, hsize, slice_eq hdata, hround]
  rw [show off + 512 + (data.length + padding data.length) = off + (512 + data.length + padding data.length) by omega]

/-- the loop over the headers of an archive -/
theorem initLoop_archive {mem : ℕ → UInt8} {base : ℕ} {files : List (Bytes × Bytes)} {bs : Bytes}
    (ha : Archive files bs) (hf : ∀ f ∈ files, FieldName f.1) {n off : ℕ} (hn : files.length < n) (fs : Ramfs)
    (hmem : BytesAt mem (base + off) bs) :
    Ramfs.initLoop mem base n fs off = some (files.foldl (fun fs f => fs.push (fromUtf8Lossy f.1) f.2) fs) := by
  induction ha generalizing n off fs with
  | nil rest =>
    obtain ⟨n, rfl⟩ := Nat.exists_eq_succ_of_ne_zero (Nat.ne_of_gt hn)
    exact if_pos (hmem.left).head
  | @cons h name data pad rest files hh hpad ha ih =>
    obtain ⟨n, rfl⟩ := Nat.exists_eq_succ_of_ne_zero (Nat.ne_of_gt (Nat.zero_lt_of_lt hn))
    rw [List.length_cons] at hn
    rw [initLoop_file (hf _ List.mem_cons_self) hh hmem]
    refine ih (fun f hm => hf f (List.mem_cons_of_mem _ hm)) (Nat.lt_of_succ_lt_succ hn) _ ?_
    have := hmem.right.right.right
    rw [hh.length, hpad] at this
    rw [show base + (off + (512 + data.length + padding data.length)) =
      base + off + 512 + data.length + padding data.length by omega]
    exact this

/-- `init` stores the files of the archive, with their names made UTF-8, in this order -/
theorem init_archive {mem : ℕ → UInt8} {base : ℕ} {files : List (Bytes × Bytes)} {bs : Bytes}
    (hf : ∀ f ∈ files, FieldName f.1) (ha : Archive files bs) (hmem : BytesAt mem base bs) {fuel : ℕ}
    (hfuel : files.length < fuel) :
    ∃ fs, Ramfs.init mem base fuel = some fs ∧ fs.WellFormed ∧
      fs.files = files.map fun f => (fromUtf8Lossy f.1, f.2) := by
  have hempty : Ramfs.empty.WellFormed := ⟨fun e he => absurd he List.not_mem_nil, List.nodup_nil⟩
  obtain ⟨hw, hfiles⟩ := Ramfs.pushAll hempty (files.map fun f => (fromUtf8Lossy f.1, f.2))
  rw [List.foldl_map] at hw hfiles
  exact ⟨_, initLoop_archive ha hf hfuel Ramfs.empty hmem, hw, hfiles⟩

/-- **Initrd round trip.** `init` on an archive of files with names of 1 to 100 bytes of UTF-8 without NUL ends, whatever
the other fields of the headers and whatever follows the archive, and the directory holds these names with these
contents in this order. -/
theorem initrd_round_trip (mem : ℕ → UInt8) (base : ℕ) (files : List (Bytes × Bytes)) (bs : Bytes)
    (hf : ∀ f ∈ files, FieldName f.1) (hv : ∀ f ∈ files, ValidUtf8 f.1) (ha : Archive files bs)
    (hmem : BytesAt mem base bs) (fuel : ℕ) (hfuel : files.length < fuel) :
    (Ramfs.init mem base fuel).map Ramfs.files = some files := by
  obtain ⟨fs, hinit, -, hfiles⟩ := init_archive hf ha hmem hfuel
  have hsame : files.map (fun f => (fromUtf8Lossy f.1, f.2)) = files.map id := by
    apply List.map_congr_left
    intro f hm
    rw [fromUtf8Lossy_valid (hv f hm), id]
  rw [hinit, Option.map_some, hfiles, hsame, List.map_id]

/-! ## An encoder -/

/-- a header with name and size in their fields and zeros in the others -/
def tarHeader (name : Bytes) (size : ℕ) : Bytes :=
  name ++ (List.replicate (124 - name.length) 0 ++ ((octDigits 11 size).map (fun d => UInt8.ofNat (0x30 + d)) ++
    (0x20 :: List.replicate 376 0)))

/-- the members one after another, and a zero block -/
def tarArchive (files : List (Bytes × Bytes)) : Bytes :=
  files.foldr (fun f rest => tarHeader f.1 f.2.length ++ (f.2 ++ (List.replicate (padding f.2.length) 0 ++ rest)))
    (List.replicate 512 0)

theorem tarHeader_isHeader {name : Bytes} (hname : name.length ≤ 100) {size : ℕ} (hsize : size < 8 ^ 11) :
    IsHeader (tarHeader name size) name size where
  length := by
    simp only [tarHeader, List.length_append, List.length_replicate, List.length_map, octDigits_length, List.length_cons]
    omega
  name := by
    refine ⟨List.replicate (100 - name.length) 0, ?_, fun b hb => ?_⟩
    · rw [tarHeader, List.take_append, List.take_of_length_le hname, List.take_append_of_le_length (by simp; omega),
        List.take_replicate, Nat.min_eq_left (by omega)]
    · exact List.eq_of_mem_replicate (List.mem_of_mem_head? hb)
  size := by
    refine ⟨11, [0x20], hsize, ?_, by simp⟩
    have hdigits : ((octDigits 11 size).map fun d => UInt8.ofNat (0x30 + d)).length = 11 := by simp [octDigits_length]
    have hfront : (name ++ List.replicate (124 - name.length) 0).length = 124 := by
      simp
      omega
    rw [tarHeader, ← List.append_assoc, List.drop_left' hfront, List.take_append, hdigits,
      List.take_of_length_le (by omega)]
    rfl

theorem tarArchive_archive {files : List (Bytes × Bytes)} (hname : ∀ f ∈ files, f.1.length ≤ 100)
    (hsize : ∀ f ∈ files, f.2.length < 8 ^ 11) : Archive files (tarArchive files) := by
  induction files with
  | nil =>
    have hnil := Archive.nil []
    rw [List.append_nil] at hnil
    exact hnil
  | cons f files ih =>
    obtain ⟨hf, hname⟩ := List.forall_mem_cons.1 hname
    obtain ⟨hd, hsize⟩ := List.forall_mem_cons.1 hsize
    exact .cons (tarHeader_isHeader hf hd) List.length_replicate (ih hname hsize)

theorem bytesAt_getD (bs : Bytes) : BytesAt (fun i => bs.getD i 0) 0 bs := by
  intro i b hi
  simp only [Nat.zero_add, List.getD_eq_getElem?_getD, hi, Option.getD_some]

/-- a name that fills its field, with a whole block of contents, and a short one -/
def demoMembers : List (Bytes × Bytes) :=
  [(List.replicate 100 0x61, List.replicate 512 0x78), ([0x62], [0x68, 0x69])]

theorem initrd_round_trip_demo :
    (Ramfs.init (fun i => (tarArchive demoMembers).getD i 0) 0 3).map Ramfs.files = some demoMembers := by
  have hfill : FieldName (List.replicate 100 0x61) :=
    ⟨by simp, by simp, fun b hb => (List.eq_of_mem_replicate hb).trans_ne (by decide)⟩
  have hnames : ∀ f ∈ demoMembers, FieldName f.1 := by
    simp only [demoMembers, List.forall_mem_cons, List.not_mem_nil, false_implies, implies_true, and_true]
    exact ⟨hfill, by simp, by simp, by simp⟩
  have hlong : ∀ n, List.replicate n (0x61 : UInt8) = (List.replicate n 'a').flatMap String.utf8EncodeChar := by
    intro n
    induction n with
    | zero => rfl
    | succ n ih => exact congrArg (List.cons 0x61) ih
  have hutf8 : ∀ f ∈ demoMembers, ValidUtf8 f.1 := by
    simp only [demoMembers, List.forall_mem_cons, List.not_mem_nil, false_implies, implies_true, and_true]
    exact ⟨⟨_, hlong 100⟩, ⟨['b'], by decide⟩⟩
  exact initrd_round_trip _ 0 demoMembers _ hnames hutf8
    (tarArchive_archive (fun f hf => (hnames f hf).le) (by decide +kernel)) (bytesAt_getD _) 3 (by decide)

end Tomorrow.Files
