import MessageBroker.Tfs.Runs

/-!
# The structural invariant

What holds of the tables in every reachable state, stated on the tables alone: the
root directory and the inodes in use describe each other, and the files own
disjoint blocks in use. Handles may be stale: nothing here depends on them.
-/

namespace MessageBroker.Tfs

open Bytes Table Transition

namespace Fs

/-- A directory entry in use. -/
def Live (fs : Fs) (i : Nat) : Prop := i < fs.maxDirEntries ∧ fs.dInumber 0 i ≠ -1

/-- The bytes of entry `i` are a terminated name. -/
def EntryName (fs : Fs) (i : Nat) (name : CString) : Prop :=
  name.length < maxFileName ∧ HoldsString fs.fsData (dirEntry 0 i) name

/-- An inode in use. -/
def Taken (fs : Fs) (k : Nat) : Prop := k < fs.inodeTableSize ∧ fs.freeinodeTs k = .taken

/-- A data block in use. -/
def TakenBlock (fs : Fs) (block : Int) : Prop :=
  fs.validBlockNumber block ∧ fs.freeBlocks block.toNat = .taken

/-- The structural invariant. -/
structure Structural (fs : Fs) : Prop where
  root : fs.Taken 0 ∧ (fs.inodeTable 0).iNodeType = .directory ∧ (fs.inodeTable 0).iDataBlock = 0
  entry_name : ∀ {i}, fs.Live i → ∃ name, 0 < name.length ∧ fs.EntryName i name
  entry_inode : ∀ {i}, fs.Live i → ∃ k : Nat, fs.dInumber 0 i = k ∧ k ≠ 0 ∧ fs.Taken k ∧
    (fs.inodeTable k).iNodeType = .file
  name_distinct : ∀ {i j name}, fs.Live i → fs.Live j → fs.EntryName i name →
    fs.EntryName j name → i = j
  inumber_distinct : ∀ {i j}, fs.Live i → fs.Live j → fs.dInumber 0 i = fs.dInumber 0 j → i = j
  named_once : ∀ {k}, fs.Taken k → k ≠ 0 → ∃! i, fs.Live i ∧ fs.dInumber 0 i = k
  size_le : ∀ {k}, fs.Taken k → (fs.inodeTable k).iSize ≤ fs.blockSize
  block_taken : ∀ {k}, fs.Taken k → 0 < (fs.inodeTable k).iSize →
    fs.TakenBlock (fs.inodeTable k).iDataBlock
  block_distinct : ∀ {k k'}, fs.Taken k → fs.Taken k' → 0 < (fs.inodeTable k).iSize →
    0 < (fs.inodeTable k').iSize →
    (fs.inodeTable k).iDataBlock = (fs.inodeTable k').iDataBlock → k = k'

/-- Deleting this inode frees an inode in use, and a block in use if it has one. -/
def DeletesTaken (fs : Fs) (inumber : Int) : Prop :=
  fs.validInumber inumber ∧ fs.Taken inumber.toNat ∧
    (0 < (fs.inodeTable inumber.toNat).iSize →
      fs.TakenBlock (fs.inodeTable inumber.toNat).iDataBlock)

/-- The three places that free something. The inode found by a lookup is deleted by
`tfs_unlink`, and its block is freed by a truncating `tfs_open`; the inode that
`tfs_open` has just created is deleted when `add_dir_entry` fails. No assertion of
`inode_delete` or `data_block_free` is among the faults that can still occur. -/
structure FreesTaken (fs : Fs) : Prop where
  lookup : ∀ {name : CString} {inum : Int}, fs.tfsLookup name 0 = .ok inum → inum ≠ -1 →
    fs.DeletesTaken inum
  rollback : ∀ {name : CString} {k : Nat} {fs₁ fs₂ : Fs}, fs.inodeCreate .file = .ok (some k, fs₁) →
    fs₁.addDirEntry 0 name k = .ok (-1, fs₂) → fs₂.DeletesTaken k
  faults : ∀ {call : Call} {fault : Fault}, exec fs call = .error fault →
    fault = .outOfData ∨ fault = .panic "data_block_get: invalid block number"

variable {fs fs' : Fs} {h i j k b : Nat} {name : CString}

theorem Directory.entryAt_of_live (hd : fs.Directory) (hl : fs.Live i) :
    ∃ name k, fs.EntryAt i name k := hd.named i hl.1 hl.2

theorem EntryAt.live (he : fs.EntryAt i name k) : fs.Live i := ⟨he.index, he.inumber_ne⟩

theorem Taken.isFile (ht : fs.Taken k) (hk : k ≠ 0) : fs.IsFile k :=
  ⟨Nat.pos_of_ne_zero hk, ht.1, ht.2⟩

theorem IsFile.takenInode (hk : fs.IsFile k) : fs.Taken k := ⟨hk.valid, hk.taken⟩

theorem Files.takenBlock (hf : fs.Files) (hk : fs.IsFile k) (hpos : 0 < (fs.inodeTable k).iSize) :
    fs.TakenBlock (fs.inodeTable k).iDataBlock := ⟨(hf.block hk hpos).1.valid, (hf.block hk hpos).2⟩

theorem Root.takenBlock (hr : fs.Root) : fs.TakenBlock 0 :=
  ⟨⟨le_refl _, by exact_mod_cast hr.block_valid⟩, hr.block_taken⟩

/-- No file owns the block of the directory. -/
theorem Files.block_ne_zero (hf : fs.Files) (hk : fs.IsFile k)
    (hpos : 0 < (fs.inodeTable k).iSize) : (fs.inodeTable k).iDataBlock ≠ 0 := by
  obtain ⟨b, hb, hb0, _⟩ := (hf.block hk hpos).1
  omega

theorem WellFormed.named_once (wf : fs.WellFormed) (hk : fs.IsFile k) :
    ∃! i, fs.Live i ∧ fs.dInumber 0 i = k := by
  obtain ⟨i, name, he⟩ := wf.directory.total hk
  refine ⟨i, ⟨he.live, he.inumber⟩, ?_⟩
  rintro j ⟨hl, hj⟩
  obtain ⟨name', k', he'⟩ := wf.directory.entryAt_of_live hl
  have hkk : k = k' := by
    have := hj.symm.trans he'.inumber
    exact_mod_cast this
  subst hkk
  exact wf.directory.inumber_inj he' he

theorem WellFormed.structural (wf : fs.WellFormed) : Structural fs where
  root := ⟨⟨wf.root.inode_valid, wf.root.inode_taken⟩, by rw [wf.root.inode],
    by rw [wf.root.inode]⟩
  entry_name := by
    intro i hl
    obtain ⟨name, k, he⟩ := wf.directory.entryAt_of_live hl
    exact ⟨name, he.nonempty, he.short, he.holds⟩
  entry_inode := by
    intro i hl
    obtain ⟨name, k, he⟩ := wf.directory.entryAt_of_live hl
    have hk := wf.directory.isFile he
    exact ⟨k, he.inumber, hk.pos.ne', hk.takenInode, wf.files.type hk⟩
  name_distinct := by
    intro i j name hi hj hni hnj
    obtain ⟨name₁, k₁, he₁⟩ := wf.directory.entryAt_of_live hi
    obtain ⟨name₂, k₂, he₂⟩ := wf.directory.entryAt_of_live hj
    obtain rfl := he₁.holds.unique hni.2
    obtain rfl := he₂.holds.unique hnj.2
    exact wf.directory.name_inj he₁ he₂
  inumber_distinct := by
    intro i j hi hj heq
    obtain ⟨name₁, k₁, he₁⟩ := wf.directory.entryAt_of_live hi
    obtain ⟨name₂, k₂, he₂⟩ := wf.directory.entryAt_of_live hj
    rw [he₁.inumber, he₂.inumber] at heq
    have hk : k₁ = k₂ := by exact_mod_cast heq
    subst hk
    exact wf.directory.inumber_inj he₁ he₂
  named_once := fun ht hk => wf.named_once (ht.isFile hk)
  size_le := by
    intro k ht
    by_cases hk : k = 0
    · subst hk
      rw [wf.root.inode]
    · exact wf.files.size_le (ht.isFile hk)
  block_taken := by
    intro k ht hpos
    by_cases hk : k = 0
    · subst hk
      rw [wf.root.inode]
      exact wf.root.takenBlock
    · exact wf.files.takenBlock (ht.isFile hk) hpos
  block_distinct := by
    intro k k' ht ht' hpos hpos' heq
    have hroot : (fs.inodeTable 0).iDataBlock = 0 := by rw [wf.root.inode]
    by_cases hk : k = 0 <;> by_cases hk' : k' = 0
    · rw [hk, hk']
    · rw [hk, hroot] at heq
      exact absurd heq.symm (wf.files.block_ne_zero (ht'.isFile hk') hpos')
    · rw [hk', hroot] at heq
      exact absurd heq (wf.files.block_ne_zero (ht.isFile hk) hpos)
    · exact wf.files.block_inj (ht.isFile hk) (ht'.isFile hk') hpos hpos' heq

/-! ### What is freed is in use -/

theorem WellFormed.deletesTaken (wf : fs.WellFormed) (hk : fs.IsFile k) : fs.DeletesTaken k := by
  refine ⟨⟨by omega, by exact_mod_cast hk.valid⟩, hk.takenInode, ?_⟩
  exact fun hpos => wf.files.takenBlock hk hpos

theorem addDirEntry_failed {fs₁ fs₂ : Fs} {k : Nat}
    (hadd : fs₁.addDirEntry 0 name k = .ok (-1, fs₂)) : fs₂ = fs₁ := by
  unfold addDirEntry at hadd
  split at hadd
  · cases hadd
    rfl
  · split at hadd
    · cases hadd
      rfl
    · obtain ⟨block, _, hadd⟩ := bind_eq_ok.mp hadd
      split at hadd
      · cases hadd
      · cases hadd
        rfl

theorem WellFormed.faults (wf : fs.WellFormed) {call : Call} {fault : Fault}
    (hrun : exec fs call = .error fault) :
    fault = .outOfData ∨ fault = .panic "data_block_get: invalid block number" := by
  cases call with
  | «open» name mode =>
    obtain ⟨r, fs₁, heq, _⟩ := wf.tfsOpen name mode
    simp only [exec, heq, ok_bind] at hrun
    cases hrun
  | close fhandle =>
    obtain ⟨r, fs₁, heq, _⟩ := wf.tfsClose fhandle
    simp only [exec, heq, ok_bind] at hrun
    cases hrun
  | write fhandle buffer len => exact Or.inl (wf.tfsWrite_fault (bind_ok_eq_error hrun)).1
  | read fhandle len => exact (wf.tfsRead_fault (bind_ok_eq_error hrun)).1
  | unlink target =>
    obtain ⟨r, fs₁, heq, _⟩ := wf.tfsUnlink target
    simp only [exec, heq, ok_bind] at hrun
    cases hrun

theorem WellFormed.freesTaken (wf : fs.WellFormed) : FreesTaken fs where
  lookup := by
    intro name inum hlook hne
    unfold tfsLookup at hlook
    split at hlook
    · cases hlook
      exact absurd rfl hne
    · rcases wf.findInDir name.tail with ⟨i, k, he, hfind⟩ | ⟨_, hfind⟩
      · rw [hfind] at hlook
        cases hlook
        exact wf.deletesTaken (wf.directory.isFile he)
      · rw [hfind] at hlook
        cases hlook
        exact absurd rfl hne
  rollback := by
    intro name k fs₁ fs₂ hcreate hadd
    rw [addDirEntry_failed hadd]
    rcases inodeCreate_file fs with ⟨k', _, hlt, _, heq⟩ | ⟨_, heq⟩
    · rw [heq] at hcreate
      cases hcreate
      refine ⟨⟨by omega, by exact_mod_cast hlt⟩, ⟨hlt, by simp [withInode]⟩, ?_⟩
      simp [withInode]
    · rw [heq] at hcreate
      cases hcreate
  faults := wf.faults

end Fs

open Fs

/-- In every state reached from a successful `tfs_init` by calls with any arguments,
the structural invariant holds, and what the next call frees is in use. -/
theorem structural_of_reaches {params : TfsParams} {malloc : Malloc} {fs₀ fs₁ fs : Fs}
    (hp : Bounded params) (hinit : fs₀.tfsInit params malloc = .ok (0, fs₁))
    (hr : Reaches (stateStep exec) anyStep fs₁ fs) : Structural fs ∧ FreesTaken fs := by
  have wf : fs.WellFormed := wellFormed_of_reaches hp hinit hr
  exact ⟨wf.structural, wf.freesTaken⟩

/-- A run that unlinks an open file, reuses its inode and writes through the old handle. -/
def staleWrites : List Call :=
  [.open (some pathA) { creat := true }, .write 0 (fun _ => 7) 2, .unlink (some pathA),
    .open (some pathB) { creat := true }, .write 0 (fun _ => 8) 1]

theorem structural_staleWrites :
    ∃ fs, runLabels (stateStep exec) smallFs staleWrites = some fs ∧
      Structural fs ∧ FreesTaken fs := by
  have hsome : (runLabels (stateStep exec) smallFs staleWrites).isSome = true := by
    decide +kernel
  obtain ⟨fs, hfs⟩ := Option.isSome_iff_exists.mp hsome
  exact ⟨fs, hfs, structural_of_reaches bounded_small tfsInit_small (reaches_of_runLabels hfs)⟩

end MessageBroker.Tfs
