/-
The in-memory file system (`ramfs.rs`): a flat directory of names over reference-counted inodes.

`ROOT` is a list of entries, each a name and a shared reference to an inode; the bytes of a file belong to the inode. A
reference is an inode number. `Arc::new` takes the next unused number, so an inode never shares its number with another
one, alive or dropped. Names are byte strings: the stored name of a created file is the lossy UTF-8 reading of the name
given, the lookup compares raw bytes.

Results, one per operation, in the form the clients use: `readAt_length`, `writeAt_end`, `writeAt_spec` (what a write at
any offset leaves), `lookup_mem`, `create_data`, `delete_data`, `write_data` (which bytes change), `create_fresh` (numbers
are never reused).
-/
import Tomorrow.Core.Checked

namespace Tomorrow.Files

abbrev Bytes := List UInt8

def maxPath : ℕ := 100

def maxFileSize : ℕ := 64 * 1024

/-! ## `String::from_utf8_lossy` -/

/-- a UTF-8 continuation byte -/
def isCont (b : UInt8) : Bool := b &&& 0xC0 == 0x80

/-- the second byte admitted after the first byte of a three-byte sequence -/
def second3 (a b : UInt8) : Bool :=
  (a == 0xE0 && 0xA0 ≤ b && b ≤ 0xBF) || (0xE1 ≤ a && a ≤ 0xEC && isCont b) ||
    (a == 0xED && 0x80 ≤ b && b ≤ 0x9F) || (0xEE ≤ a && a ≤ 0xEF && isCont b)

/-- the second byte admitted after the first byte of a four-byte sequence -/
def second4 (a b : UInt8) : Bool :=
  (a == 0xF0 && 0x90 ≤ b && b ≤ 0xBF) || (0xF1 ≤ a && a ≤ 0xF3 && isCont b) || (a == 0xF4 && 0x80 ≤ b && b ≤ 0x8F)

/-- U+FFFD in UTF-8 -/
def replacement : Bytes := [0xEF, 0xBF, 0xBD]

/-- copy well-formed sequences, replace each maximal prefix of an ill-formed one -/
def fromUtf8Lossy : Bytes → Bytes
  | [] => []
  | a :: s =>
    if a < 0x80 then a :: fromUtf8Lossy s
    else if 0xC2 ≤ a ∧ a ≤ 0xDF then
      match s with
      | b :: t => if isCont b then a :: b :: fromUtf8Lossy t else replacement ++ fromUtf8Lossy (b :: t)
      | [] => replacement
    else if 0xE0 ≤ a ∧ a ≤ 0xEF then
      match s with
      | b :: t =>
        if second3 a b then
          match t with
          | c :: u => if isCont c then a :: b :: c :: fromUtf8Lossy u else replacement ++ fromUtf8Lossy (c :: u)
          | [] => replacement
        else replacement ++ fromUtf8Lossy (b :: t)
      | [] => replacement
    else if 0xF0 ≤ a ∧ a ≤ 0xF4 then
      match s with
      | b :: t =>
        if second4 a b then
          match t with
          | c :: u =>
            if isCont c then
              match u with
              | d :: v =>
                if isCont d then a :: b :: c :: d :: fromUtf8Lossy v else replacement ++ fromUtf8Lossy (d :: v)
              | [] => replacement
            else replacement ++ fromUtf8Lossy (c :: u)
          | [] => replacement
        else replacement ++ fromUtf8Lossy (b :: t)
      | [] => replacement
    else replacement ++ fromUtf8Lossy s

example : fromUtf8Lossy [0x68, 0xD1, 0x8F, 0xFF, 0xE2, 0x82] = [0x68, 0xD1, 0x8F, 0xEF, 0xBF, 0xBD, 0xEF, 0xBF, 0xBD] := by
  decide

/-! ## Inodes -/

/-- `data.resize(n, 0)` for a longer n -/
def resize (data : Bytes) (n : ℕ) : Bytes := data ++ List.replicate (n - data.length) 0

/-- `Inode::write_at`: the new contents and the end of the write; `none` leaves the inode as it was -/
def writeAt (data : Bytes) (offset : ℕ) (src : Bytes) : Option (Bytes × ℕ) :=
  match Core.checkedAdd offset src.length with
  | none => none
  | some stop =>
    if maxFileSize < stop then none
    else
      let data := if data.length < stop then resize data stop else data
      some (data.take offset ++ src ++ data.drop stop, stop)

/-- `Inode::read_at`: the bytes copied to the start of a destination of length len -/
def readAt (data : Bytes) (offset len : ℕ) : Bytes :=
  if data.length ≤ offset then [] else (data.drop offset).take (min len (data.length - offset))

theorem readAt_eq (data : Bytes) (offset len : ℕ) : readAt data offset len = (data.drop offset).take len := by
  unfold readAt
  split_ifs with h
  · rw [List.drop_eq_nil_of_le h, List.take_nil]
  · rw [← List.length_drop, ← List.take_take, List.take_length]

theorem readAt_length (data : Bytes) (offset len : ℕ) :
    (readAt data offset len).length = min len (data.length - offset) := by
  rw [readAt_eq, List.length_take, List.length_drop]

/-- whether a write is accepted depends on the offset and the length only, and it ends at their sum -/
theorem writeAt_isSome (data : Bytes) (offset : ℕ) (src : Bytes) :
    (writeAt data offset src).isSome = decide (offset + src.length ≤ maxFileSize) := by
  by_cases h : offset + src.length < 2 ^ 64
  · rw [writeAt, Core.checkedAdd, if_pos h]
    by_cases hm : maxFileSize < offset + src.length
    · simp [hm, Nat.not_le_of_lt hm]
    · simp [hm, Nat.le_of_not_lt hm]
  · have hm : ¬ offset + src.length ≤ maxFileSize := by unfold maxFileSize; omega
    rw [writeAt, Core.checkedAdd, if_neg h]
    simp [hm]

theorem writeAt_end {data d : Bytes} {offset e : ℕ} {src : Bytes} (h : writeAt data offset src = some (d, e)) :
    e = offset + src.length := by
  by_cases ho : offset + src.length < 2 ^ 64
  · rw [writeAt, Core.checkedAdd, if_pos ho] at h
    simp only at h
    split_ifs at h <;> exact (Prod.mk.inj (Option.some.inj h)).2.symm
  · rw [writeAt, Core.checkedAdd, if_neg ho] at h
    cases h

theorem resize_length (data : Bytes) (n : ℕ) : (resize data n).length = max data.length n := by
  simp only [resize, List.length_append, List.length_replicate]
  omega

theorem resize_of_le {data : Bytes} {n : ℕ} (h : n ≤ data.length) : resize data n = data := by
  simp [resize, Nat.sub_eq_zero_of_le h]

theorem resize_eq_self {data : Bytes} {n : ℕ} : resize data n = data ↔ n ≤ data.length := by
  refine ⟨fun h => ?_, resize_of_le⟩
  have hlen := resize_length data n
  rw [h] at hlen
  omega

/-- an accepted write, whether it overwrites, straddles the end or leaves a hole before it -/
theorem writeAt_eq {data : Bytes} {offset : ℕ} {src : Bytes} (h : offset + src.length ≤ maxFileSize) :
    writeAt data offset src = some ((resize data (offset + src.length)).take offset ++ src ++
      (resize data (offset + src.length)).drop (offset + src.length), offset + src.length) := by
  have h64 : offset + src.length < 2 ^ 64 := lt_of_le_of_lt h (by decide)
  rw [writeAt, Core.checkedAdd, if_pos h64]
  dsimp only
  rw [if_neg (Nat.not_lt_of_le h)]
  split_ifs with hlt
  · rfl
  · rw [resize_of_le (Nat.le_of_not_lt hlt)]

/-- `write_at` with no bytes still makes the file reach up to the offset -/
theorem writeAt_nil (data : Bytes) {offset : ℕ} (h : offset ≤ maxFileSize) :
    writeAt data offset [] = some (resize data offset, offset) := by
  rw [writeAt_eq (by simpa using h)]
  simp

theorem writeAt_none {data : Bytes} {offset : ℕ} {src : Bytes} (h : maxFileSize < offset + src.length) :
    writeAt data offset src = none := by
  have := writeAt_isSome data offset src
  rw [decide_eq_false (Nat.not_le_of_lt h)] at this
  simpa using this

/-- **One write at any offset.** The file grows to the end of the write if it was shorter; the write's bytes are there,
a hole before them is zero, and every other byte is as before. -/
theorem writeAt_spec (data : Bytes) {offset : ℕ} {src : Bytes} (h : offset + src.length ≤ maxFileSize) :
    ∃ d, writeAt data offset src = some (d, offset + src.length) ∧ d.length = max data.length (offset + src.length) ∧
      (∀ j, offset ≤ j → j < offset + src.length → d[j]? = src[j - offset]?) ∧
      (∀ j, data.length ≤ j → j < offset → d[j]? = some 0) ∧
      ∀ j, j < data.length → j < offset ∨ offset + src.length ≤ j → d[j]? = data[j]? := by
  have hres := resize_length data (offset + src.length)
  have htake : ((resize data (offset + src.length)).take offset).length = offset := by
    rw [List.length_take, hres]
    omega
  have hlen : ((resize data (offset + src.length)).take offset ++ src).length = offset + src.length := by
    rw [List.length_append, htake]
  refine ⟨_, writeAt_eq h, ?_, fun j h1 h2 => ?_, fun j h1 h2 => ?_, fun j hj hout => ?_⟩
  · rw [List.length_append, hlen, List.length_drop, hres]
    omega
  · rw [List.getElem?_append_left (by omega), List.getElem?_append_right (by omega), htake]
  · rw [List.getElem?_append_left (by omega), List.getElem?_append_left (by omega), List.getElem?_take_of_lt h2, resize,
      List.getElem?_append_right h1, List.getElem?_replicate_of_lt (by omega)]
  · have hold : (resize data (offset + src.length))[j]? = data[j]? := by rw [resize, List.getElem?_append_left hj]
    rcases hout with h2 | h2
    · rw [List.getElem?_append_left (by omega), List.getElem?_append_left (by omega), List.getElem?_take_of_lt h2, hold]
    · rw [List.getElem?_append_right (by omega), List.getElem?_drop, hlen, Nat.add_sub_cancel' h2, hold]

/-- a write right behind what was written before: w has replaced the start of c, then w and src have -/
theorem writeAt_next (w c src : Bytes) (h : w.length + src.length ≤ maxFileSize) :
    writeAt (w ++ c.drop w.length) w.length src =
      some ((w ++ src) ++ c.drop (w ++ src).length, (w ++ src).length) := by
  have hdrop : (resize (w ++ c.drop w.length) (w.length + src.length)).drop (w.length + src.length) =
      c.drop (w.length + src.length) := by
    rw [resize, List.append_assoc, List.drop_length_add_append, List.drop_append, List.drop_drop]
    -- the zeros that the file grew by lie under the write
    simp
    omega
  have htake : (resize (w ++ c.drop w.length) (w.length + src.length)).take w.length = w := by
    rw [resize, List.append_assoc, List.take_left]
  rw [writeAt_eq h, hdrop, htake, List.length_append]

/-- a write never makes a file longer than it was or than the limit -/
theorem writeAt_length_le {data d : Bytes} {offset e : ℕ} {src : Bytes} (h : writeAt data offset src = some (d, e)) :
    d.length ≤ max data.length maxFileSize := by
  by_cases hle : offset + src.length ≤ maxFileSize
  · obtain ⟨d', hd', hlen, -⟩ := writeAt_spec data hle
    rw [hd'] at h
    cases h
    rw [hlen]
    exact max_le_max (le_refl _) hle
  · rw [writeAt_none (Nat.lt_of_not_le hle)] at h
    cases h

/-! ## The directory -/

structure DirEntry where
  name : Bytes
  inode : ℕ
deriving DecidableEq

structure Ramfs where
  /-- `ROOT` -/
  root : List DirEntry
  /-- the bytes of each inode -/
  data : ℕ → Bytes
  /-- the number the next `Arc::new` takes -/
  fresh : ℕ

def Ramfs.lookup (fs : Ramfs) (name : Bytes) : Option ℕ := (fs.root.find? fun e => e.name = name).map DirEntry.inode

/-- `write`: replace the contents of the named file -/
def Ramfs.write (fs : Ramfs) (name data : Bytes) : Bool × Ramfs :=
  match fs.lookup name with
  | some inode => (true, { fs with data := Function.update fs.data inode data })
  | none => (false, fs)

def Ramfs.create (fs : Ramfs) (name : Bytes) : Bool × Ramfs :=
  if fs.root.any fun e => e.name = name then (false, fs)
  else (true, { root := fs.root ++ [⟨fromUtf8Lossy name, fs.fresh⟩], data := Function.update fs.data fs.fresh [],
                fresh := fs.fresh + 1 })

def Ramfs.delete (fs : Ramfs) (name : Bytes) : Bool × Ramfs :=
  match fs.root.findIdx? fun e => e.name = name with
  | some i => (true, { fs with root := fs.root.eraseIdx i })
  | none => (false, fs)

/-- `list`: names and sizes in directory order -/
def Ramfs.list (fs : Ramfs) : List (Bytes × ℕ) := fs.root.map fun e => (e.name, (fs.data e.inode).length)

/-- every directory entry refers to an inode that was created, and no two to the same one -/
structure Ramfs.WellFormed (fs : Ramfs) : Prop where
  created : ∀ e ∈ fs.root, e.inode < fs.fresh
  distinct : (fs.root.map DirEntry.inode).Nodup

theorem Ramfs.lookup_mem {fs : Ramfs} {name : Bytes} {i : ℕ} (h : fs.lookup name = some i) : ⟨name, i⟩ ∈ fs.root := by
  unfold Ramfs.lookup at h
  obtain ⟨e, he, rfl⟩ := Option.map_eq_some_iff.1 h
  have hn : e.name = name := by simpa using List.find?_some he
  subst hn
  exact List.mem_of_find?_eq_some he

theorem Ramfs.lookup_lt {fs : Ramfs} (hw : fs.WellFormed) {name : Bytes} {i : ℕ} (h : fs.lookup name = some i) :
    i < fs.fresh :=
  hw.created _ (lookup_mem h)

/-- creating a file changes the bytes of no inode that exists -/
theorem Ramfs.create_data (fs : Ramfs) (name : Bytes) {i : ℕ} (hi : i < fs.fresh) :
    (fs.create name).2.data i = fs.data i := by
  unfold Ramfs.create
  split_ifs
  · rfl
  · exact Function.update_of_ne (by omega) _ _

theorem Ramfs.create_fresh (fs : Ramfs) (name : Bytes) : fs.fresh ≤ (fs.create name).2.fresh := by
  unfold Ramfs.create; split_ifs <;> simp

/-- deleting a file changes the bytes of no inode -/
theorem Ramfs.delete_data (fs : Ramfs) (name : Bytes) : (fs.delete name).2.data = fs.data := by
  unfold Ramfs.delete; split <;> rfl

theorem Ramfs.delete_fresh (fs : Ramfs) (name : Bytes) : (fs.delete name).2.fresh = fs.fresh := by
  unfold Ramfs.delete; split <;> rfl

/-- writing a file by name changes only the inode bound to that name -/
theorem Ramfs.write_data (fs : Ramfs) (name data : Bytes) {i : ℕ} (hi : fs.lookup name ≠ some i) :
    (fs.write name data).2.data i = fs.data i := by
  unfold Ramfs.write
  split
  · rename_i j hj
    exact Function.update_of_ne (fun h => hi (by rw [hj, h])) _ _
  · rfl

theorem Ramfs.write_root (fs : Ramfs) (name data : Bytes) : (fs.write name data).2.root = fs.root := by
  unfold Ramfs.write; split <;> rfl

theorem Ramfs.write_fresh (fs : Ramfs) (name data : Bytes) : (fs.write name data).2.fresh = fs.fresh := by
  unfold Ramfs.write; split <;> rfl

/-- the new number is above all numbers in the directory -/
theorem Ramfs.WellFormed.snoc {fs : Ramfs} (hw : fs.WellFormed) (name : Bytes) :
    (∀ e ∈ fs.root ++ [DirEntry.mk name fs.fresh], e.inode < fs.fresh + 1) ∧
      ((fs.root ++ [DirEntry.mk name fs.fresh]).map DirEntry.inode).Nodup := by
  constructor
  · intro e he
    rcases List.mem_append.1 he with he | he
    · exact Nat.lt_succ_of_lt (hw.created e he)
    · rw [List.mem_singleton.1 he]
      exact Nat.lt_succ_self _
  · rw [List.map_append, List.nodup_append]
    refine ⟨hw.distinct, by simp, fun i hi j hj => ?_⟩
    obtain ⟨e, he, rfl⟩ := List.mem_map.1 hi
    rw [List.map_singleton, List.mem_singleton] at hj
    rw [hj]
    exact (hw.created e he).ne

theorem Ramfs.create_wellFormed {fs : Ramfs} (hw : fs.WellFormed) (name : Bytes) : (fs.create name).2.WellFormed := by
  unfold Ramfs.create
  split_ifs
  · exact hw
  · obtain ⟨hlt, hnodup⟩ := hw.snoc (fromUtf8Lossy name)
    exact ⟨hlt, hnodup⟩

theorem Ramfs.delete_wellFormed {fs : Ramfs} (hw : fs.WellFormed) (name : Bytes) : (fs.delete name).2.WellFormed := by
  unfold Ramfs.delete
  split
  · rename_i i hi
    have hsub := List.eraseIdx_sublist fs.root i
    exact ⟨fun e he => hw.created e (hsub.subset he), (hsub.map DirEntry.inode).nodup hw.distinct⟩
  · exact hw

theorem Ramfs.lookup_ne_of_notMem {fs : Ramfs} {i : ℕ} (h : i ∉ fs.root.map DirEntry.inode) (name : Bytes) :
    fs.lookup name ≠ some i := fun hl => h (List.mem_map.2 ⟨_, lookup_mem hl, rfl⟩)

/-- deleting takes out the entry the lookup finds -/
theorem Ramfs.delete_some {fs : Ramfs} {name : Bytes} {i : ℕ} (h : fs.lookup name = some i) :
    ∃ l r, fs.root = l ++ ⟨name, i⟩ :: r ∧ fs.delete name = (true, { fs with root := l ++ r }) := by
  obtain ⟨⟨m, j⟩, he, rfl⟩ := Option.map_eq_some_iff.1 h
  obtain ⟨hn, l, r, hroot, hl⟩ := List.find?_eq_some_iff_append.1 he
  have hm : m = name := by simpa using hn
  subst hm
  have hidx : fs.root.findIdx? (fun e => e.name = m) = some l.length := by
    rw [hroot, List.findIdx?_append, List.findIdx?_eq_none_iff.2 (by simpa using hl), List.findIdx?_cons]
    simp
  refine ⟨l, r, hroot, ?_⟩
  unfold Ramfs.delete
  rw [hidx]
  simp only [hroot, List.eraseIdx_append_of_length_le (le_refl _), Nat.sub_self, List.eraseIdx_cons_zero]

/-- deleting a name takes its inode out of the directory -/
theorem Ramfs.delete_notMem {fs : Ramfs} (hw : fs.WellFormed) {name : Bytes} {i : ℕ} (h : fs.lookup name = some i) :
    i ∉ (fs.delete name).2.root.map DirEntry.inode := by
  obtain ⟨l, r, hroot, hdel⟩ := delete_some h
  have hnodup := hw.distinct
  rw [hroot, List.map_append, List.map_cons] at hnodup
  rw [hdel]
  dsimp only
  rw [List.map_append]
  exact (List.nodup_cons.1 (List.nodup_middle.1 hnodup)).1

/-- an inode that exists and is in no directory entry never gets into one -/
theorem Ramfs.create_notMem {fs : Ramfs} {i : ℕ} (hi : i < fs.fresh) (h : i ∉ fs.root.map DirEntry.inode) (name : Bytes) :
    i ∉ (fs.create name).2.root.map DirEntry.inode := by
  unfold Ramfs.create
  split_ifs
  · exact h
  · rw [List.map_append, List.mem_append, not_or]
    refine ⟨h, ?_⟩
    rw [List.map_singleton, List.mem_singleton]
    dsimp only
    omega

theorem Ramfs.delete_notMem_of_notMem {fs : Ramfs} {i : ℕ} (h : i ∉ fs.root.map DirEntry.inode) (name : Bytes) :
    i ∉ (fs.delete name).2.root.map DirEntry.inode := by
  unfold Ramfs.delete
  split
  · exact fun hm => h (((List.eraseIdx_sublist _ _).map DirEntry.inode).subset hm)
  · exact h

end Tomorrow.Files
