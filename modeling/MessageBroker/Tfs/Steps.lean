import MessageBroker.Tfs.HandleUpdates

/-!
# What each operation does

For a well-formed file system every operation is one of a few updates, or leaves
the tables as they are. The inductive predicates of this file list the cases with
the conditions under which they occur; later proofs only look at these cases and
never at the code of an operation.
-/

namespace MessageBroker.Tfs

open Bytes Table Transition

namespace Fs

variable {fs fs' : Fs} {h i j k b : Nat} {name : CString} {r : Int}

/-! ### The directory functions -/

theorem Root.dataBlockGet (hr : fs.Root) : fs.dataBlockGet 0 = .ok 0 := by
  have hv : fs.validBlockNumber 0 := ⟨le_refl _, by exact_mod_cast hr.block_valid⟩
  simp [Fs.dataBlockGet, hv]

theorem Root.inodeGet (hr : fs.Root) : fs.inodeGet rootDirInum = .ok 0 := by
  have hv : fs.validInumber 0 := ⟨le_refl _, by exact_mod_cast hr.inode_valid⟩
  simp [Fs.inodeGet, rootDirInum, hv]

/-- The entry that the loop of `find_in_dir` stops at. -/
def foundEntry (fs : Fs) (block : Nat) (subName : CString) : Option Nat :=
  firstIndex (fun i => fs.dInumber block i != -1 &&
    strncmpEq fs.fsData (dirEntry block i) subName.bytes maxFileName) fs.maxDirEntries

/-- A lookup in the root directory gives the number of the entry that it stops at. -/
theorem Root.findInDir (hr : fs.Root) (name : CString) :
    fs.findInDir 0 name = .ok (match fs.foundEntry 0 name with
      | some i => fs.dInumber 0 i
      | none => -1) := by
  simp only [Fs.findInDir, hr.inode, ne_eq, not_true_eq_false, if_false, hr.dataBlockGet, ok_bind]
  show (match fs.foundEntry 0 name with
    | some i => _
    | none => _) = _
  cases fs.foundEntry 0 name with
  | some i => rfl
  | none => rfl

/-- The search stops at an entry in use that has the name. -/
theorem WellFormed.entryAt_of_found (wf : fs.WellFormed) (hf : fs.foundEntry 0 name = some i) :
    ∃ k, fs.EntryAt i name k := by
  obtain ⟨hp, hi, _⟩ := firstIndex_eq_some.mp hf
  simp only [Bool.and_eq_true, bne_iff_ne] at hp
  obtain ⟨name', k, he⟩ := wf.directory.named i hi hp.1
  have hname : name = name' := (strncmpEq_iff he.holds he.short name).mp hp.2
  subst hname
  exact ⟨k, he⟩

/-- A lookup finds the entry of the name, and fails only if there is none. -/
theorem WellFormed.findInDir (wf : fs.WellFormed) (name : CString) :
    (∃ i k, fs.EntryAt i name k ∧ fs.findInDir 0 name = .ok k) ∨
      (∀ {i k}, ¬ fs.EntryAt i name k) ∧ fs.findInDir 0 name = .ok (-1) := by
  have hfind := wf.root.findInDir name
  cases hf : fs.foundEntry 0 name with
  | some i =>
    obtain ⟨k, he⟩ := wf.entryAt_of_found hf
    rw [hf] at hfind
    exact Or.inl ⟨i, k, he, hfind.trans (congrArg Except.ok he.inumber)⟩
  | none =>
    rw [hf] at hfind
    refine Or.inr ⟨?_, hfind⟩
    intro i k he
    have hnone := firstIndex_eq_none.mp hf i he.index
    have hmatch := (strncmpEq_iff he.holds he.short name).mpr rfl
    have hne := he.inumber_ne
    simp [hmatch, hne] at hnone

/-- Clearing by name clears the entry that a lookup of the name finds, although
it also looks at entries that are not in use. -/
theorem WellFormed.clearDirEntry (wf : fs.WellFormed) (he : fs.EntryAt i name k)
    (hp : fs'.fsParams = fs.fsParams) (hm : fs'.fsData = fs.fsData)
    (h0 : fs'.inodeTable 0 = fs.inodeTable 0) :
    fs'.clearDirEntry 0 name = .ok (0, { fs' with fsData := clearEntry fs.fsData i }) := by
  have hget : fs'.dataBlockGet 0 = .ok 0 := by
    have hv : fs'.validBlockNumber 0 := by
      refine ⟨le_refl _, ?_⟩
      rw [dataBlocks, hp]
      exact_mod_cast wf.root.block_valid
    simp [Fs.dataBlockGet, hv]
  have hmax : fs'.maxDirEntries = fs.maxDirEntries := by rw [maxDirEntries, blockSize, hp]; rfl
  have hfirst : firstIndex (fun i => strcmpEq fs.fsData (dirEntry 0 i) name.bytes)
      fs.maxDirEntries = some i := by
    refine firstIndex_eq_some.mpr ⟨he.holds, he.index, ?_⟩
    intro j hj
    rw [← Bool.not_eq_true]
    intro hcmp
    by_cases hfree : fs.dInumber 0 j = -1
    · -- a free entry before one in use holds the empty name
      have hempty := wf.directory.cleared hj he.index he.inumber_ne hfree
      have hname := (strcmpEq_iff hempty name).mp hcmp
      have := he.nonempty
      rw [hname] at this
      exact absurd this (lt_irrefl 0)
    · obtain ⟨name', k', he'⟩ := wf.directory.named j (hj.trans he.index) hfree
      have hname := (strcmpEq_iff he'.holds name).mp hcmp
      subst hname
      exact absurd (wf.directory.name_inj he' he) hj.ne
  simp [Fs.clearDirEntry, h0, wf.root.inode, hget, hm, hmax, hfirst, clearEntry]

/-! ### The open file table -/

/-- The outcomes of `add_to_open_file_table`. -/
inductive AddsHandle (fs : Fs) (k offset : Nat) : Int → Fs → Prop
  | full : (∀ h < fs.maxOpenFiles, fs.freeOpenFileEntries h = .taken) →
      AddsHandle fs k offset (-1) fs
  | slot (h : Nat) : h < fs.maxOpenFiles → fs.freeOpenFileEntries h = .free →
      (∀ h' < h, fs.freeOpenFileEntries h' = .taken) →
      AddsHandle fs k offset h (fs.opened h k offset)

theorem not_free {s : AllocationState} : (s == .free) = false ↔ s = .taken := by
  cases s <;> simp

theorem not_taken {s : AllocationState} : s ≠ .taken ↔ s = .free := by
  cases s <;> simp

theorem addToOpenFileTable_cases (fs : Fs) (k offset : Nat) :
    AddsHandle fs k offset (fs.addToOpenFileTable k offset).1
      (fs.addToOpenFileTable k offset).2 := by
  cases hf : firstIndex (fun i => fs.freeOpenFileEntries i == .free) fs.maxOpenFiles with
  | none =>
    simp only [addToOpenFileTable, hf]
    exact .full fun h hh => not_free.mp (firstIndex_eq_none.mp hf h hh)
  | some h =>
    obtain ⟨hfree, hlt, hlow⟩ := firstIndex_eq_some.mp hf
    simp only [addToOpenFileTable, hf]
    exact .slot h hlt (by simpa using hfree) fun h' hh => not_free.mp (hlow h' hh)

theorem WellFormed.addsHandle {offset : Nat} (wf : fs.WellFormed) (hk : fs.IsFile k)
    (ha : AddsHandle fs k offset r fs') : fs'.WellFormed := by
  cases ha with
  | full _ => exact wf
  | slot h _ _ _ => exact wf.opened hk

/-- A handle designates an entry of the open file table, or none. -/
theorem WellFormed.getOpenFileEntry (wf : fs.WellFormed) (fhandle : Int) :
    (∃ h k, fhandle = (h : Nat) ∧ fs.OpenOn h k ∧ fs.getOpenFileEntry fhandle = some h) ∨
      (∀ {h k : Nat}, fhandle = h → ¬ fs.OpenOn h k) ∧ fs.getOpenFileEntry fhandle = none := by
  by_cases hv : fs.validFileHandle fhandle
  · obtain ⟨h, rfl⟩ : ∃ h : Nat, fhandle = h := ⟨fhandle.toNat, by have := hv.1; omega⟩
    have hlt : h < fs.maxOpenFiles := by exact_mod_cast hv.2
    by_cases ht : fs.freeOpenFileEntries h = .taken
    · obtain ⟨k, hk⟩ := wf.handles.inode h hlt ht
      exact Or.inl ⟨h, k, rfl, hk, by simp [Fs.getOpenFileEntry, hv, ht]⟩
    · refine Or.inr ⟨?_, by simp [Fs.getOpenFileEntry, hv, ht]⟩
      intro h' k hh ho
      obtain rfl : h = h' := by exact_mod_cast hh
      exact ht ho.taken
  · refine Or.inr ⟨?_, by simp [Fs.getOpenFileEntry, hv]⟩
    rintro h k rfl ho
    exact hv ⟨by omega, by exact_mod_cast ho.valid⟩

theorem Handles.inodeGet (hh : fs.Handles) (ho : fs.OpenOn h k) :
    fs.inodeGet (fs.openFileTable h).ofInumber = .ok k := by
  have hv : fs.validInumber (k : Int) := by
    have := (hh.valid ho).2
    exact ⟨by omega, by exact_mod_cast this⟩
  rw [ho.inumber, Fs.inodeGet, if_pos hv]
  simp

/-! ### Opening -/

/-- The state in which an existing file is opened. -/
def afterTrunc (fs : Fs) (mode : FileMode) (k : Nat) : Fs :=
  if mode.trunc then fs.truncated k else fs

theorem afterTrunc_of_not {mode : FileMode} (ht : mode.trunc = false) :
    fs.afterTrunc mode k = fs :=
  if_neg (by simp [ht])

/-- The initial offset of a handle on an existing file. -/
def startOffset (fs : Fs) (mode : FileMode) (k : Nat) : Nat :=
  if mode.append then (fs.inodeTable k).iSize else 0

/-- The outcomes of `tfs_open`. -/
inductive Opens (fs : Fs) (name : Option CString) (mode : FileMode) : Int → Fs → Prop
  | invalid : validPathname name = false → Opens fs name mode (-1) fs
  | existing {n : CString} {i k : Nat} {r : Int} {fs' : Fs} : name = some n →
      validPathname name = true → fs.EntryAt i n.tail k →
      AddsHandle (fs.afterTrunc mode k) k ((fs.afterTrunc mode k).startOffset mode k) r fs' →
      Opens fs name mode r fs'
  | absent {n : CString} : name = some n → validPathname name = true →
      (∀ {i k}, ¬ fs.EntryAt i n.tail k) → mode.creat = false → Opens fs name mode (-1) fs
  | noInode {n : CString} : name = some n → validPathname name = true →
      (∀ {i k}, ¬ fs.EntryAt i n.tail k) → mode.creat = true →
      (∀ k < fs.inodeTableSize, fs.freeinodeTs k = .taken) → Opens fs name mode (-1) fs
  | noEntry {n : CString} (k : Nat) : name = some n → validPathname name = true →
      (∀ {i k}, ¬ fs.EntryAt i n.tail k) → mode.creat = true →
      k < fs.inodeTableSize → fs.freeinodeTs k = .free →
      (maxFileName ≤ n.tail.length ∨ ∀ i < fs.maxDirEntries, fs.dInumber 0 i ≠ -1) →
      Opens fs name mode (-1) (fs.resetInode k)
  | created {n : CString} {r : Int} {fs' : Fs} (k i : Nat) : name = some n →
      validPathname name = true → mode.creat = true → fs.CanCreate k i n.tail →
      AddsHandle (fs.createdFile k i n.tail) k 0 r fs' → Opens fs name mode r fs'

theorem tail_nonempty {n : CString} (hv : validPathname (some n) = true) :
    0 < n.tail.length := by
  simp only [validPathname, Bool.and_eq_true, decide_eq_true_eq] at hv
  rw [CString.length_tail]
  omega

/-- The state between `inode_create` and `add_dir_entry`. -/
def withInode (fs : Fs) (k : Nat) : Fs :=
  { fs with
    freeinodeTs := Function.update fs.freeinodeTs k .taken
    inodeTable := Function.update fs.inodeTable k ⟨.file, 0, -1⟩ }

theorem inodeCreate_file (fs : Fs) :
    (∃ k, fs.inodeAlloc.1 = some k ∧ k < fs.inodeTableSize ∧ fs.freeinodeTs k = .free ∧
        fs.inodeCreate .file = .ok (some k, fs.withInode k)) ∨
      (∀ k < fs.inodeTableSize, fs.freeinodeTs k = .taken) ∧
        fs.inodeCreate .file = .ok (none, fs) := by
  cases hf : firstIndex (fun i => fs.freeinodeTs i == .free) fs.inodeTableSize with
  | some k =>
    obtain ⟨hfree, hlt, _⟩ := firstIndex_eq_some.mp hf
    refine Or.inl ⟨k, by rw [inodeAlloc, hf], hlt, by simpa using hfree, ?_⟩
    simp [inodeCreate, inodeAlloc, hf]
    rfl
  | none =>
    refine Or.inr ⟨fun k hk => not_free.mp (firstIndex_eq_none.mp hf k hk), ?_⟩
    simp [inodeCreate, inodeAlloc, hf]

/-- Deleting the inode that was just created undoes all but its contents. -/
theorem inodeDelete_withInode (hlt : k < fs.inodeTableSize) (hfree : fs.freeinodeTs k = .free) :
    (fs.withInode k).inodeDelete k = .ok (fs.resetInode k) := by
  have hv : (fs.withInode k).validInumber (k : Int) :=
    ⟨by omega, by exact_mod_cast hlt⟩
  have hback : Function.update fs.freeinodeTs k .free = fs.freeinodeTs := by
    rw [← hfree, Function.update_eq_self]
  have ht : (fs.withInode k).freeinodeTs (k : Int).toNat = .taken := by simp [withInode]
  have hsize : ((fs.withInode k).inodeTable (k : Int).toNat).iSize = 0 := by simp [withInode]
  rw [inodeDelete, if_neg (not_not_intro hv), if_neg (not_not_intro ht), hsize]
  simp [withInode, resetInode, hback]

theorem addDirEntry_withInode (hr : fs.Root) (hk : 0 ≠ k) (hn : 0 < name.length) :
    (∃ i, name.length < maxFileName ∧ i < fs.maxDirEntries ∧ fs.dInumber 0 i = -1 ∧
        (∀ j < i, fs.dInumber 0 j ≠ -1) ∧
        (fs.withInode k).addDirEntry 0 name k = .ok (0, fs.createdFile k i name)) ∨
      (maxFileName ≤ name.length ∨ ∀ i < fs.maxDirEntries, fs.dInumber 0 i ≠ -1) ∧
        (fs.withInode k).addDirEntry 0 name k = .ok (-1, fs.withInode k) := by
  have h0 : (fs.withInode k).inodeTable 0 = fs.inodeTable 0 := Function.update_of_ne hk _ _
  have hget : (fs.withInode k).dataBlockGet 0 = .ok 0 := hr.dataBlockGet
  -- the name is too long, or the entry goes to the first free place, if there is one
  by_cases hlong : maxFileName ≤ name.length
  · refine Or.inr ⟨Or.inl hlong, ?_⟩
    rw [addDirEntry, if_pos (Or.inr (by simp only [maxFileName] at *; omega))]
  · have hshort : ¬ (name.length = 0 ∨ maxFileName - 1 < name.length) := by
      simp only [maxFileName] at *
      omega
    cases hf : firstIndex (fun i => fs.dInumber 0 i == -1) fs.maxDirEntries with
    | some i =>
      obtain ⟨hfree, hi, hlow⟩ := firstIndex_eq_some.mp hf
      refine Or.inl ⟨i, by omega, hi, by simpa using hfree, ?_, ?_⟩
      · intro j hj
        simpa using hlow j hj
      · have hf' : firstIndex (fun i => (fs.withInode k).dInumber 0 i == -1)
            (fs.withInode k).maxDirEntries = some i := hf
        simp only [addDirEntry, if_neg hshort, h0, hr.inode, ne_eq, not_true_eq_false,
          if_false, hget, ok_bind, hf']
        rfl
    | none =>
      have hall : ∀ i < fs.maxDirEntries, fs.dInumber 0 i ≠ -1 := fun i hi => by
        simpa using firstIndex_eq_none.mp hf i hi
      refine Or.inr ⟨Or.inr hall, ?_⟩
      have hf' : firstIndex (fun i => (fs.withInode k).dInumber 0 i == -1)
          (fs.withInode k).maxDirEntries = none := hf
      simp only [addDirEntry, if_neg hshort, h0, hr.inode, ne_eq, not_true_eq_false,
        if_false, hget, ok_bind, hf']

/-- The outcomes of the branch of `tfs_open` that creates a file, with the inode that
`inode_alloc` picks. -/
inductive Creates (fs : Fs) (n : CString) : Int → Fs → Prop
  | noInode : (∀ k < fs.inodeTableSize, fs.freeinodeTs k = .taken) → Creates fs n (-1) fs
  | noEntry (k : Nat) : fs.inodeAlloc.1 = some k → k < fs.inodeTableSize →
      fs.freeinodeTs k = .free →
      (maxFileName ≤ n.tail.length ∨ ∀ i < fs.maxDirEntries, fs.dInumber 0 i ≠ -1) →
      Creates fs n (-1) (fs.resetInode k)
  | created {r : Int} {fs' : Fs} (k i : Nat) : fs.inodeAlloc.1 = some k →
      fs.CanCreate k i n.tail → AddsHandle (fs.createdFile k i n.tail) k 0 r fs' →
      Creates fs n r fs'

theorem WellFormed.tfsOpen_creates {n : CString} {mode : FileMode} (wf : fs.WellFormed)
    (hv : validPathname (some n) = true) (hne : ∀ {i k}, ¬ fs.EntryAt i n.tail k)
    (hc : mode.creat = true) :
    ∃ r fs', fs.tfsOpen (some n) mode = .ok (r, fs') ∧ Creates fs n r fs' := by
  have hfind : fs.findInDir 0 n.tail = .ok (-1) := by
    rcases wf.findInDir n.tail with ⟨i, k, he, _⟩ | ⟨_, hfind⟩
    · exact absurd he hne
    · exact hfind
  -- `inode_create` takes an inode, and `add_dir_entry` an entry of the directory
  rcases inodeCreate_file fs with ⟨k, halloc, hlt, hfree, hcreate⟩ | ⟨hfull, hcreate⟩
  · have hk0 : 0 ≠ k := by
      rintro rfl
      rw [wf.root.inode_taken] at hfree
      cases hfree
    rcases addDirEntry_withInode wf.root hk0 (tail_nonempty hv) with
      ⟨i, hshort, hi, hfreei, hlow, hadd⟩ | ⟨hno, hadd⟩
    · have hcan : fs.CanCreate k i n.tail :=
        ⟨hlt, hfree, hi, hfreei, hlow, tail_nonempty hv, hshort, hne⟩
      refine ⟨_, _, ?_, .created k i halloc hcan (addToOpenFileTable_cases _ _ _)⟩
      simp [Fs.tfsOpen, hv, wf.root.inodeGet, tfsLookup, hfind, hc, hcreate, hadd]
    · refine ⟨_, _, ?_, .noEntry k halloc hlt hfree hno⟩
      simp [Fs.tfsOpen, hv, wf.root.inodeGet, tfsLookup, hfind, hc, hcreate, hadd,
        inodeDelete_withInode hlt hfree]
  · refine ⟨_, _, ?_, .noInode hfull⟩
    simp [Fs.tfsOpen, hv, wf.root.inodeGet, tfsLookup, hfind, hc, hcreate]

theorem Creates.opens {n : CString} {mode : FileMode} (hc : Creates fs n r fs')
    (hv : validPathname (some n) = true) (hne : ∀ {i k}, ¬ fs.EntryAt i n.tail k)
    (hcreat : mode.creat = true) : Opens fs (some n) mode r fs' := by
  cases hc with
  | noInode hfull => exact .noInode rfl hv hne hcreat hfull
  | noEntry k _ hlt hfree hno => exact .noEntry k rfl hv hne hcreat hlt hfree hno
  | created k i _ hcan ha => exact .created k i rfl hv hcreat hcan ha

/-- `tfs_open` never faults, and does one of the listed things. -/
theorem WellFormed.tfsOpen (wf : fs.WellFormed) (name : Option CString) (mode : FileMode) :
    ∃ r fs', fs.tfsOpen name mode = .ok (r, fs') ∧ Opens fs name mode r fs' := by
  cases name with
  | none => exact ⟨-1, fs, rfl, .invalid rfl⟩
  | some n =>
    by_cases hv : validPathname (some n) = true
    · rcases wf.findInDir n.tail with ⟨i, k, he, hfind⟩ | ⟨hne, hfind⟩
      · -- the file exists
        have hk := wf.directory.isFile he
        have hget : fs.inodeGet (k : Int) = .ok k := by
          have hvi : fs.validInumber (k : Int) := ⟨by omega, by exact_mod_cast hk.valid⟩
          simp [inodeGet, hvi]
        refine ⟨_, _, ?_, .existing rfl hv he (addToOpenFileTable_cases _ _ _)⟩
        cases ht : mode.trunc with
        | true =>
          have htrunc := truncate_eq wf.files hk
          simp [Fs.tfsOpen, hv, wf.root.inodeGet, tfsLookup, hfind, hget, ht, htrunc, afterTrunc,
            startOffset]
        | false =>
          simp [Fs.tfsOpen, hv, wf.root.inodeGet, tfsLookup, hfind, hget, ht, afterTrunc,
            startOffset]
      · cases hc : mode.creat with
        | false =>
          refine ⟨_, _, ?_, .absent rfl hv hne hc⟩
          simp [Fs.tfsOpen, hv, wf.root.inodeGet, tfsLookup, hfind, hc]
        | true =>
          obtain ⟨r, fs', heq, hcreates⟩ := wf.tfsOpen_creates hv hne hc
          exact ⟨r, fs', heq, hcreates.opens hv hne hc⟩
    · have hv' : validPathname (some n) = false := by simpa using hv
      exact ⟨-1, fs, by simp [Fs.tfsOpen, hv'], .invalid hv'⟩

end Fs

end MessageBroker.Tfs
