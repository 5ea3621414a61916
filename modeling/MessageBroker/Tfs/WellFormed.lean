import MessageBroker.Tfs.Directory

/-!
# Well-formed file systems

`WellFormed` ties the four tables together: which inodes the directory names,
which blocks the files own, and what an open handle may refer to. It does not
assume that a handle refers to a file that still exists. The second part names
the updates that the operations make and shows that each keeps `WellFormed`.
-/

namespace MessageBroker.Tfs

open Bytes Table Transition

namespace Fs

/-- The tables have the configured sizes, and these fit the C types. -/
structure Geometry (fs : Fs) : Prop where
  tables : fs.tables = some fs.fsParams
  blockSize_pos : 0 < fs.blockSize
  inodes_le : fs.inodeTableSize ≤ intMax
  blocks_le : fs.dataBlocks ≤ intMax
  files_le : fs.maxOpenFiles ≤ intMax

/-- Inode `0` is the root directory and owns block `0`. -/
structure Root (fs : Fs) : Prop where
  inode_valid : 0 < fs.inodeTableSize
  block_valid : 0 < fs.dataBlocks
  inode : fs.inodeTable 0 = ⟨.directory, fs.blockSize, 0⟩
  inode_taken : fs.freeinodeTs 0 = .taken
  block_taken : fs.freeBlocks 0 = .taken

/-- Inode `k` is in use for a file. -/
structure IsFile (fs : Fs) (k : Nat) : Prop where
  pos : 0 < k
  valid : k < fs.inodeTableSize
  taken : fs.freeinodeTs k = .taken

/-- A block that a file may own: any valid one but that of the directory. -/
def FileBlock (fs : Fs) (blockNumber : Int) : Prop :=
  ∃ b : Nat, blockNumber = b ∧ 0 < b ∧ b < fs.dataBlocks

/-- The directory names exactly the inodes in use, each once. Entries that are
free although a later one is in use have been cleared. -/
structure Directory (fs : Fs) : Prop where
  named : ∀ i < fs.maxDirEntries, fs.dInumber 0 i ≠ -1 → ∃ name k, fs.EntryAt i name k
  isFile : ∀ {i name k}, fs.EntryAt i name k → fs.IsFile k
  name_inj : ∀ {i j name k k'}, fs.EntryAt i name k → fs.EntryAt j name k' → i = j
  inumber_inj : ∀ {i j name name' k}, fs.EntryAt i name k → fs.EntryAt j name' k → i = j
  cleared : ∀ {i j}, i < j → j < fs.maxDirEntries → fs.dInumber 0 j ≠ -1 →
    fs.dInumber 0 i = -1 → HoldsString fs.fsData (dirEntry 0 i) CString.empty
  total : ∀ {k}, fs.IsFile k → ∃ i name, fs.EntryAt i name k

/-- Every non-empty file owns a block in use, and no two share one. -/
structure Files (fs : Fs) : Prop where
  type : ∀ {k}, fs.IsFile k → (fs.inodeTable k).iNodeType = .file
  size_le : ∀ {k}, fs.IsFile k → (fs.inodeTable k).iSize ≤ fs.blockSize
  block : ∀ {k}, fs.IsFile k → 0 < (fs.inodeTable k).iSize →
    fs.FileBlock (fs.inodeTable k).iDataBlock ∧
      fs.freeBlocks (fs.inodeTable k).iDataBlock.toNat = .taken
  block_inj : ∀ {k k'}, fs.IsFile k → fs.IsFile k' → 0 < (fs.inodeTable k).iSize →
    0 < (fs.inodeTable k').iSize →
    (fs.inodeTable k).iDataBlock = (fs.inodeTable k').iDataBlock → k = k'

/-- Entry `h` of the open file table is in use for inode `k`. -/
structure OpenOn (fs : Fs) (h k : Nat) : Prop where
  valid : h < fs.maxOpenFiles
  taken : fs.freeOpenFileEntries h = .taken
  inumber : (fs.openFileTable h).ofInumber = k

/-- The inode of an open handle, in use or not, is one that held a file. -/
structure Handles (fs : Fs) : Prop where
  inode : ∀ h < fs.maxOpenFiles, fs.freeOpenFileEntries h = .taken → ∃ k, fs.OpenOn h k
  valid : ∀ {h k}, fs.OpenOn h k → 0 < k ∧ k < fs.inodeTableSize
  block : ∀ {h k}, fs.OpenOn h k → 0 < (fs.inodeTable k).iSize →
    fs.FileBlock (fs.inodeTable k).iDataBlock

structure WellFormed (fs : Fs) : Prop where
  geometry : fs.Geometry
  root : fs.Root
  directory : fs.Directory
  files : fs.Files
  handles : fs.Handles

variable {fs fs' : Fs} {h i j k b : Nat} {name : CString}

theorem IsFile.congr (hk : fs.IsFile k) (hp : fs'.fsParams = fs.fsParams)
    (hi : fs'.freeinodeTs = fs.freeinodeTs) : fs'.IsFile k :=
  ⟨hk.pos, by rw [inodeTableSize, hp]; exact hk.valid, by rw [hi]; exact hk.taken⟩

theorem FileBlock.congr {bn : Int} (hb : fs.FileBlock bn) (hp : fs'.fsParams = fs.fsParams) :
    fs'.FileBlock bn := by
  obtain ⟨b, rfl, hpos, hlt⟩ := hb
  exact ⟨b, rfl, hpos, by rw [dataBlocks, hp]; exact hlt⟩

theorem Geometry.congr (hg : fs.Geometry) (hp : fs'.fsParams = fs.fsParams)
    (ht : fs'.tables = fs.tables) : fs'.Geometry := by
  obtain ⟨h1, h2, h3, h4, h5⟩ := hg
  constructor <;> simp only [blockSize, inodeTableSize, dataBlocks, maxOpenFiles, hp, ht] at *
  all_goals assumption

theorem Geometry.blockSize_lt (fs : Fs) : fs.blockSize < sizeRange := fs.fsParams.size_t.2.2.2

theorem fsDataSize_lt (fs : Fs) : fs.fsDataSize < sizeRange := by
  rw [fsDataSize]
  split
  · exact Nat.two_pow_pos 64
  · exact Nat.mod_lt _ (Nat.two_pow_pos 64)

/-- Blocks other than that of the directory lie after the directory entries. -/
theorem entry_end_le_block (hi : i < fs.maxDirEntries) (hb : 0 < b) :
    (i + 1) * sizeofDirEntry ≤ b * fs.blockSize :=
  (entry_end_le hi).trans (Nat.le_mul_of_pos_left _ hb)

/-- The directory part only depends on its entries and on which inodes are in use. -/
theorem Directory.congr (hd : fs.Directory) (hp : fs'.fsParams = fs.fsParams)
    (hi : fs'.freeinodeTs = fs.freeinodeTs)
    (hm : ∀ i < fs.maxDirEntries, SameEntry fs.fsData fs'.fsData i) : fs'.Directory := by
  have hmax : fs'.maxDirEntries = fs.maxDirEntries := by rw [maxDirEntries, blockSize, hp]; rfl
  have hback : ∀ {i name k}, fs'.EntryAt i name k → fs.EntryAt i name k := fun he =>
    he.congr hp.symm (hm _ (hmax ▸ he.index)).symm
  have hfwd : ∀ {i name k}, fs.EntryAt i name k → fs'.EntryAt i name k := fun he =>
    he.congr hp (hm _ he.index)
  have hnum : ∀ i < fs.maxDirEntries, fs'.dInumber 0 i = fs.dInumber 0 i := fun i hi =>
    (hm i hi).loadInt_eq.symm
  constructor
  · intro i hlt hne
    rw [hmax] at hlt
    rw [hnum i hlt] at hne
    obtain ⟨name, k, he⟩ := hd.named i hlt hne
    exact ⟨name, k, hfwd he⟩
  · exact fun he => (hd.isFile (hback he)).congr hp hi
  · exact fun he he' => hd.name_inj (hback he) (hback he')
  · exact fun he he' => hd.inumber_inj (hback he) (hback he')
  · intro i j hij hj hne hfree
    rw [hmax] at hj
    rw [hnum j hj] at hne
    rw [hnum i (hij.trans hj)] at hfree
    exact (hm i (hij.trans hj)).holdsString (by decide) (hd.cleared hij hj hne hfree)
  · intro k hk
    obtain ⟨i, name, he⟩ := hd.total (hk.congr hp.symm hi.symm)
    exact ⟨i, name, hfwd he⟩

theorem OpenOn.congr (ho : fs.OpenOn h k) (hp : fs'.fsParams = fs.fsParams)
    (ht : fs'.freeOpenFileEntries h = fs.freeOpenFileEntries h)
    (hi : (fs'.openFileTable h).ofInumber = (fs.openFileTable h).ofInumber) : fs'.OpenOn h k :=
  ⟨by rw [maxOpenFiles, hp]; exact ho.valid, ht.trans ho.taken, hi.trans ho.inumber⟩

/-- The handles part when the handles stay bound to the same inodes. -/
theorem Handles.congr (hh : fs.Handles) (hp : fs'.fsParams = fs.fsParams)
    (ht : fs'.freeOpenFileEntries = fs.freeOpenFileEntries)
    (hi : ∀ h, (fs'.openFileTable h).ofInumber = (fs.openFileTable h).ofInumber)
    (hb : ∀ {h k}, fs.OpenOn h k → 0 < (fs'.inodeTable k).iSize →
      fs.FileBlock (fs'.inodeTable k).iDataBlock) : fs'.Handles := by
  have hback : ∀ {h k}, fs'.OpenOn h k → fs.OpenOn h k := fun ho =>
    ho.congr hp.symm (by rw [ht]) (hi _).symm
  constructor
  · intro h hlt htaken
    rw [maxOpenFiles, hp] at hlt
    rw [ht] at htaken
    obtain ⟨k, hk⟩ := hh.inode h hlt htaken
    exact ⟨k, hk.congr hp (by rw [ht]) (hi h)⟩
  · intro h k ho
    rw [inodeTableSize, hp]
    exact hh.valid (hback ho)
  · intro h k ho hpos
    exact (hb (hback ho) hpos).congr hp

/-- Two entries of one name are the same entry of the same inode. -/
theorem Directory.inumber_eq {k' : Nat} (hd : fs.Directory) (he : fs.EntryAt i name k)
    (he' : fs.EntryAt j name k') : k = k' := by
  have hij := hd.name_inj he he'
  subst hij
  exact he.inumber_unique he'

/-- The files part when every non-empty file is one that was there before and
still has its block. -/
theorem Files.of_kept (hf : fs.Files) (hp : fs'.fsParams = fs.fsParams)
    (htype : ∀ {j}, fs'.IsFile j → (fs'.inodeTable j).iNodeType = .file)
    (hkeep : ∀ {j}, fs'.IsFile j → 0 < (fs'.inodeTable j).iSize →
      fs.IsFile j ∧ fs'.inodeTable j = fs.inodeTable j ∧
        fs'.freeBlocks (fs.inodeTable j).iDataBlock.toNat = .taken) : fs'.Files := by
  constructor
  · exact htype
  · intro j hj
    rcases Nat.eq_zero_or_pos (fs'.inodeTable j).iSize with h0 | hpos
    · rw [h0]
      exact Nat.zero_le _
    · obtain ⟨hold, heq, _⟩ := hkeep hj hpos
      rw [heq, blockSize, hp]
      exact hf.size_le hold
  · intro j hj hpos
    obtain ⟨hold, heq, htaken⟩ := hkeep hj hpos
    rw [heq] at hpos ⊢
    exact ⟨(hf.block hold hpos).1.congr hp, htaken⟩
  · intro j j' hj hj' hpos hpos' heq
    obtain ⟨hold, hi, _⟩ := hkeep hj hpos
    obtain ⟨hold', hi', _⟩ := hkeep hj' hpos'
    rw [hi] at hpos heq
    rw [hi'] at hpos' heq
    exact hf.block_inj hold hold' hpos hpos' heq

/-- Different files own different blocks. -/
theorem Files.block_ne {k' : Nat} (hf : fs.Files) (hk : fs.IsFile k) (hk' : fs.IsFile k')
    (hpos : 0 < (fs.inodeTable k).iSize) (hpos' : 0 < (fs.inodeTable k').iSize) (hne : k ≠ k') :
    (fs.inodeTable k).iDataBlock.toNat ≠ (fs.inodeTable k').iDataBlock.toNat := by
  intro heq
  obtain ⟨⟨b, hb, _, _⟩, _⟩ := hf.block hk hpos
  obtain ⟨⟨c, hc, _, _⟩, _⟩ := hf.block hk' hpos'
  refine hne (hf.block_inj hk hk' hpos hpos' ?_)
  rw [hb, hc] at heq ⊢
  exact_mod_cast heq

end Fs

end MessageBroker.Tfs
