/-
The directory as a finite map: names to inodes, through `init` and any sequence of `create`, `delete`, `write`, `lookup`.

`create` looks for the raw bytes of the name it is given and stores their lossy reading; `init` stores a name for every
member without looking. A run therefore keeps the laws of a map exactly when the members' names are read as distinct
names and every created name is its own reading, that is, valid UTF-8.

Results:
- `fromUtf8Lossy_idem`: a stored name is its own reading;
- `lookup_create`, `lookup_delete`: the map after an operation, at every name;
- `directory_laws_iff`: the runs along which the directory is a map;
- `create_twice`: a name that is not UTF-8 can be created again and again, and an archive may hold a name twice.
-/
import Tomorrow.Files.Initrd

namespace Tomorrow.Files

/-! ## Stored names -/

theorem fromUtf8Lossy_replacement (s : Bytes) : fromUtf8Lossy (replacement ++ s) = replacement ++ fromUtf8Lossy s :=
  fromUtf8Lossy_three s (by decide) (by decide) (by decide) (by decide) (by decide)

theorem fromUtf8Lossy_idem (n : Bytes) : fromUtf8Lossy (fromUtf8Lossy n) = fromUtf8Lossy n := by
  have hr : fromUtf8Lossy replacement = replacement := by decide
  -- in every branch the bytes put out are a whole sequence, so they are copied
  fun_induction fromUtf8Lossy n with
  | case1 => rfl
  | _ =>
    simp_all [fromUtf8Lossy_replacement, fromUtf8Lossy_one, fromUtf8Lossy_two, fromUtf8Lossy_three, fromUtf8Lossy_four]

/-! ## The map after an operation -/

def Ramfs.names (fs : Ramfs) : List Bytes := fs.root.map DirEntry.name

theorem Ramfs.lookup_eq_none {fs : Ramfs} {n : Bytes} : fs.lookup n = none ↔ n ∉ fs.names := by
  unfold Ramfs.lookup Ramfs.names
  simp

theorem Ramfs.create_taken {fs : Ramfs} {n : Bytes} (h : n ∈ fs.names) : fs.create n = (false, fs) := by
  unfold Ramfs.create
  have hany : fs.root.any (fun e => e.name = n) = true := by simpa [Ramfs.names] using h
  rw [if_pos hany]

theorem Ramfs.create_free {fs : Ramfs} {n : Bytes} (h : n ∉ fs.names) :
    fs.create n = (true, fs.push (fromUtf8Lossy n) []) := by
  unfold Ramfs.create
  have hany : ¬ fs.root.any (fun e => e.name = n) = true := by simpa [Ramfs.names] using h
  rw [if_neg hany]
  rfl

theorem Ramfs.names_push (fs : Ramfs) (n data : Bytes) : (fs.push n data).names = fs.names ++ [n] := by
  unfold Ramfs.names Ramfs.push
  simp

/-- a new entry is found under its name when no earlier one has it, and changes no other lookup -/
theorem Ramfs.lookup_push (fs : Ramfs) (n data m : Bytes) :
    (fs.push n data).lookup m = (fs.lookup m).or (if n = m then some fs.fresh else none) := by
  unfold Ramfs.lookup Ramfs.push
  rw [List.find?_append, Option.map_or, List.find?_singleton]
  split_ifs <;> simp_all

/-- `create` of a name that is its own reading binds it to a new inode and changes no other binding -/
theorem Ramfs.lookup_create {fs : Ramfs} {n : Bytes} (hn : fromUtf8Lossy n = n) (h : n ∉ fs.names) (m : Bytes) :
    (fs.create n).2.lookup m = if m = n then some fs.fresh else fs.lookup m := by
  rw [create_free h, hn, lookup_push]
  split_ifs with h1 h2 h3
  · rw [h2, lookup_eq_none.2 h, Option.none_or]
  · exact absurd h1.symm h2
  · exact absurd h3.symm h1
  · rw [Option.or_none]

/-- `delete` unbinds the name and changes no other binding -/
theorem Ramfs.lookup_delete {fs : Ramfs} (hd : fs.names.Nodup) {n : Bytes} (h : n ∈ fs.names) (m : Bytes) :
    (fs.delete n).2.lookup m = if m = n then none else fs.lookup m := by
  obtain ⟨i, hi⟩ := Option.ne_none_iff_exists'.1 fun hnone => lookup_eq_none.1 hnone h
  obtain ⟨l, r, hroot, hdel⟩ := delete_some hi
  rw [hdel]
  split_ifs with hm
  · -- the entry was the only one of this name
    rw [hm]
    apply lookup_eq_none.2
    unfold Ramfs.names at hd ⊢
    rw [hroot, List.map_append, List.map_cons] at hd
    rw [List.map_append]
    exact (List.nodup_cons.1 (List.nodup_middle.1 hd)).1
  · unfold Ramfs.lookup
    rw [hroot, List.find?_append, List.find?_append, List.find?_cons_of_neg (by simpa using Ne.symm hm)]

theorem Ramfs.delete_free {fs : Ramfs} {n : Bytes} (h : n ∉ fs.names) : fs.delete n = (false, fs) := by
  unfold Ramfs.delete
  have hidx : fs.root.findIdx? (fun e => e.name = n) = none := by
    rw [List.findIdx?_eq_none_iff]
    simpa [Ramfs.names] using h
  rw [hidx]

theorem Ramfs.delete_names_sublist (fs : Ramfs) (n : Bytes) : (fs.delete n).2.names.Sublist fs.names := by
  unfold Ramfs.delete
  split
  · exact (List.eraseIdx_sublist _ _).map DirEntry.name
  · exact List.Sublist.refl _

theorem Ramfs.lookup_write (fs : Ramfs) (n data m : Bytes) : (fs.write n data).2.lookup m = fs.lookup m := by
  unfold Ramfs.lookup
  rw [write_root]

/-! ## The laws of a map along a run -/

inductive DirOp where
  | create (n : Bytes)
  | delete (n : Bytes)
  | write (n data : Bytes)
  | lookup (n : Bytes)
deriving DecidableEq

def DirOp.name : DirOp → Bytes
  | .create n => n
  | .delete n => n
  | .write n _ => n
  | .lookup n => n

def Ramfs.apply (fs : Ramfs) : DirOp → Ramfs
  | .create n => (fs.create n).2
  | .delete n => (fs.delete n).2
  | .write n data => (fs.write n data).2
  | .lookup _ => fs

/-- the bindings of all names but n, and their contents, are as they were -/
def SameExcept (n : Bytes) (fs fs' : Ramfs) : Prop :=
  ∀ m, m ≠ n → fs'.lookup m = fs.lookup m ∧ ∀ i, fs.lookup m = some i → fs'.data i = fs.data i

/-- what a map answers, and what it binds afterwards -/
def Answers (fs : Ramfs) : DirOp → Prop
  | .create n => ((fs.create n).1 = true ↔ fs.lookup n = none) ∧ (fs.lookup n = none →
      ∃ i, fs.fresh ≤ i ∧ (fs.create n).2.lookup n = some i ∧ (fs.create n).2.data i = [] ∧
        ((fs.create n).2.create n).1 = false)
  | .delete n => ((fs.delete n).1 = true ↔ fs.lookup n ≠ none) ∧ (fs.lookup n ≠ none → (fs.delete n).2.lookup n = none)
  | .write _ _ => True
  | .lookup _ => True

/-- names are distinct in every state of the run, and every operation of it is one of a map -/
def Lawful : Ramfs → List DirOp → Prop
  | fs, [] => fs.names.Nodup
  | fs, op :: ops => fs.names.Nodup ∧ Answers fs op ∧ SameExcept op.name fs (fs.apply op) ∧ Lawful (fs.apply op) ops

/-- what holds of the directory: inodes of its own for every entry, and names that are their own reading -/
structure DirOk (fs : Ramfs) : Prop where
  wf : fs.WellFormed
  utf8 : ∀ n ∈ fs.names, fromUtf8Lossy n = n

theorem apply_dirOk {fs : Ramfs} (h : DirOk fs) (op : DirOp) : DirOk (fs.apply op) := by
  cases op with
  | create n =>
    refine ⟨Ramfs.create_wellFormed h.wf n, ?_⟩
    by_cases hn : n ∈ fs.names
    · simpa [Ramfs.apply, Ramfs.create_taken hn] using h.utf8
    · intro m hm
      rw [Ramfs.apply, Ramfs.create_free hn, Ramfs.names_push] at hm
      rcases List.mem_append.1 hm with hm | hm
      · exact h.utf8 m hm
      · rw [List.mem_singleton.1 hm, fromUtf8Lossy_idem]
  | delete n =>
    refine ⟨Ramfs.delete_wellFormed h.wf n, ?_⟩
    intro m hm
    exact h.utf8 m ((Ramfs.delete_names_sublist fs n).subset hm)
  | write n data =>
    have hroot := Ramfs.write_root fs n data
    constructor
    · constructor
      · rw [Ramfs.apply, hroot, Ramfs.write_fresh]
        exact h.wf.created
      · rw [Ramfs.apply, hroot]
        exact h.wf.distinct
    · rw [Ramfs.apply, Ramfs.names, hroot]
      exact h.utf8
  | lookup n => exact h

/-- a name that is not its own reading is free, and stays free when it is created -/
theorem create_answers_utf8 {fs : Ramfs} (h : DirOk fs) {n : Bytes} (ha : Answers fs (.create n)) :
    fromUtf8Lossy n = n := by
  by_cases hn : n ∈ fs.names
  · exact h.utf8 n hn
  · obtain ⟨i, -, hi, -⟩ := ha.2 (Ramfs.lookup_eq_none.2 hn)
    rw [Ramfs.create_free hn, Ramfs.lookup_push, Ramfs.lookup_eq_none.2 hn, Option.none_or] at hi
    by_contra hne
    rw [if_neg hne] at hi
    cases hi

theorem create_lawful {fs : Ramfs} (h : DirOk fs) (hd : fs.names.Nodup) {n : Bytes} (hn : fromUtf8Lossy n = n) :
    (fs.create n).2.names.Nodup ∧ Answers fs (.create n) ∧ SameExcept n fs (fs.create n).2 := by
  by_cases hm : n ∈ fs.names
  · have hsome : fs.lookup n ≠ none := fun hnone => Ramfs.lookup_eq_none.1 hnone hm
    rw [Answers, Ramfs.create_taken hm]
    exact ⟨hd, ⟨by simp [hsome], fun hnone => absurd hnone hsome⟩, fun m _ => ⟨rfl, fun _ _ => rfl⟩⟩
  · have hlook := Ramfs.lookup_create hn hm
    have hself : (fs.create n).2.lookup n = some fs.fresh := by rw [hlook, if_pos rfl]
    have htaken : n ∈ (fs.create n).2.names := by
      by_contra hnot
      rw [Ramfs.lookup_eq_none.2 hnot] at hself
      cases hself
    refine ⟨?_, ⟨?_, ?_⟩, ?_⟩
    · rw [Ramfs.create_free hm, Ramfs.names_push, hn]
      exact List.nodup_append.2 ⟨hd, List.nodup_singleton n, by simpa using fun a ha => ne_of_mem_of_not_mem ha hm⟩
    · simp [Ramfs.create_free hm, Ramfs.lookup_eq_none.2 hm]
    · intro _
      refine ⟨fs.fresh, le_refl _, hself, ?_, by rw [Ramfs.create_taken htaken]⟩
      rw [Ramfs.create_free hm]
      exact Function.update_self _ _ _
    · intro m hne
      rw [hlook, if_neg hne]
      exact ⟨rfl, fun i hi => Ramfs.create_data fs n (Ramfs.lookup_lt h.wf hi)⟩

theorem delete_lawful {fs : Ramfs} (hd : fs.names.Nodup) (n : Bytes) :
    (fs.delete n).2.names.Nodup ∧ Answers fs (.delete n) ∧ SameExcept n fs (fs.delete n).2 := by
  refine ⟨(Ramfs.delete_names_sublist fs n).nodup hd, ?_⟩
  by_cases hm : n ∈ fs.names
  · have hlook := Ramfs.lookup_delete hd hm
    obtain ⟨i, hi⟩ := Option.ne_none_iff_exists'.1 fun hnone => Ramfs.lookup_eq_none.1 hnone hm
    obtain ⟨l, r, hroot, hdel⟩ := Ramfs.delete_some hi
    refine ⟨⟨by simp [hdel, hi], fun _ => by rw [hlook, if_pos rfl]⟩, ?_⟩
    intro m hne
    rw [hlook, if_neg hne, Ramfs.delete_data]
    exact ⟨rfl, fun _ _ => rfl⟩
  · rw [Answers, Ramfs.delete_free hm, Ramfs.lookup_eq_none.2 hm]
    exact ⟨by simp, fun m _ => ⟨rfl, fun _ _ => rfl⟩⟩

/-- two names of a well-formed directory with distinct names share no inode -/
theorem lookup_inj {fs : Ramfs} (hw : fs.WellFormed) {n m : Bytes} {i : ℕ} (hn : fs.lookup n = some i)
    (hm : fs.lookup m = some i) : n = m := by
  have := List.inj_on_of_nodup_map hw.distinct (Ramfs.lookup_mem hn) (Ramfs.lookup_mem hm) rfl
  exact congrArg DirEntry.name this

theorem write_sameExcept {fs : Ramfs} (hw : fs.WellFormed) (n data : Bytes) : SameExcept n fs (fs.write n data).2 := by
  intro m hne
  refine ⟨Ramfs.lookup_write fs n data m, fun i hi => Ramfs.write_data fs n data ?_⟩
  intro hn
  exact hne (lookup_inj hw hi hn)

/-- one operation, on a directory with distinct names -/
theorem apply_lawful {fs : Ramfs} (h : DirOk fs) (hd : fs.names.Nodup) {op : DirOp}
    (hop : ∀ n, op = .create n → fromUtf8Lossy n = n) :
    (fs.apply op).names.Nodup ∧ Answers fs op ∧ SameExcept op.name fs (fs.apply op) := by
  cases op with
  | create n => exact create_lawful h hd (hop n rfl)
  | delete n => exact delete_lawful hd n
  | write n data =>
    refine ⟨?_, trivial, write_sameExcept h.wf n data⟩
    rw [Ramfs.apply, Ramfs.names, Ramfs.write_root]
    exact hd
  | lookup n => exact ⟨hd, trivial, fun m _ => ⟨rfl, fun _ _ => rfl⟩⟩

theorem lawful_iff {fs : Ramfs} (h : DirOk fs) (ops : List DirOp) :
    Lawful fs ops ↔ fs.names.Nodup ∧ ∀ n, .create n ∈ ops → fromUtf8Lossy n = n := by
  induction ops generalizing fs with
  | nil => simp [Lawful]
  | cons op ops ih =>
    rw [Lawful, ih (apply_dirOk h op)]
    constructor
    · rintro ⟨hd, ha, -, -, hrest⟩
      refine ⟨hd, fun n hn => ?_⟩
      rcases List.mem_cons.1 hn with rfl | hn
      · exact create_answers_utf8 h ha
      · exact hrest n hn
    · rintro ⟨hd, hops⟩
      obtain ⟨hd', ha, hf⟩ := apply_lawful h hd fun n hn => hops n (hn ▸ List.mem_cons_self)
      exact ⟨hd, ha, hf, hd', fun n hn => hops n (List.mem_cons_of_mem op hn)⟩

/-- **Directory is a map.** After `init` on an archive and along any run of operations, the directory is a finite map from
names to files if and only if the names of the members are read as pairwise distinct names and every created name is
valid UTF-8. -/
theorem directory_laws_iff (mem : ℕ → UInt8) (base : ℕ) (files : List (Bytes × Bytes)) (bs : Bytes)
    (hf : ∀ f ∈ files, FieldName f.1) (ha : Archive files bs) (hmem : BytesAt mem base bs) (fuel : ℕ)
    (hfuel : files.length < fuel) (ops : List DirOp) :
    ∃ fs, Ramfs.init mem base fuel = some fs ∧
      (Lawful fs ops ↔ (files.map fun f => fromUtf8Lossy f.1).Nodup ∧ ∀ n, .create n ∈ ops → fromUtf8Lossy n = n) := by
  obtain ⟨fs, hinit, hw, hfiles⟩ := init_archive hf ha hmem hfuel
  have hnames : fs.names = files.map fun f => fromUtf8Lossy f.1 := by
    have := congrArg (List.map Prod.fst) hfiles
    simpa [Ramfs.files, Ramfs.names, Function.comp_def] using this
  refine ⟨fs, hinit, ?_⟩
  rw [← hnames]
  apply lawful_iff ⟨hw, ?_⟩ ops
  intro n hn
  rw [hnames] at hn
  obtain ⟨f, -, rfl⟩ := List.mem_map.1 hn
  exact fromUtf8Lossy_idem f.1

theorem directory_laws_iff_demo :
    ∃ fs, Ramfs.init (fun _ => 0) 0 1 = some fs ∧
      Lawful fs [.create [0x61], .create [0x61], .write [0x61] [0x62], .delete [0x61]] := by
  have hnil : Archive [] (List.replicate 512 0 ++ []) := .nil []
  have hmem : BytesAt (fun _ => 0) 0 (List.replicate 512 0 ++ []) := by
    intro i b hi
    rw [List.append_nil] at hi
    exact (List.eq_of_mem_replicate (List.mem_of_getElem? hi)).symm
  obtain ⟨fs, hinit, hiff⟩ := directory_laws_iff (fun _ => 0) 0 [] _ (by simp) hnil hmem 1 (by decide)
    [.create [0x61], .create [0x61], .write [0x61] [0x62], .delete [0x61]]
  refine ⟨fs, hinit, hiff.2 ⟨by simp, fun n hn => ?_⟩⟩
  have hn : n = [0x61] := by simpa using hn
  rw [hn]
  decide

/-- an archive with two members of one name -/
def twins : Bytes := tarArchive [([0x61], [0x68, 0x69]), ([0x61], [0x68, 0x6F])]

/-- a byte that is not UTF-8 is created twice, and never found; two members of one name are two entries, and the second is
still there when the first is deleted -/
theorem create_twice :
    Ramfs.init (fun _ => 0) 0 1 = some Ramfs.empty ∧ Ramfs.empty.lookup [0xFF] = none ∧
      (Ramfs.empty.create [0xFF]).1 = true ∧ (Ramfs.empty.create [0xFF]).2.lookup [0xFF] = none ∧
      ((Ramfs.empty.create [0xFF]).2.create [0xFF]).1 = true ∧
      ¬ Lawful Ramfs.empty [.create [0xFF], .create [0xFF]] ∧
      ∃ fs, Ramfs.init (fun i => twins.getD i 0) 0 3 = some fs ∧ fs.names = [[0x61], [0x61]] ∧
        (fs.delete [0x61]).1 = true ∧ (fs.delete [0x61]).2.lookup [0x61] ≠ none ∧ ¬ Lawful fs [.delete [0x61]] := by
  refine ⟨rfl, by decide, by decide, by decide, by decide, ?_, ?_⟩
  · rintro ⟨-, -, -, -, -, -, hnodup⟩
    exact absurd hnodup (by unfold Lawful; decide)
  · have hinit : (Ramfs.init (fun i => twins.getD i 0) 0 3).any (fun fs => decide (fs.names = [[0x61], [0x61]] ∧
        (fs.delete [0x61]).1 = true ∧ (fs.delete [0x61]).2.lookup [0x61] ≠ none)) = true := by decide +kernel
    obtain ⟨fs, hfs, hall⟩ := (Option.any_eq_true _ _).1 hinit
    obtain ⟨hnames, hdel, hstill⟩ := of_decide_eq_true hall
    refine ⟨fs, hfs, hnames, hdel, hstill, ?_⟩
    rintro ⟨hnodup, -⟩
    rw [hnames] at hnodup
    exact absurd hnodup (by decide)

end Tomorrow.Files
