import MessageBroker.Tfs.Updates

/-!
# The updates made through handles

Opening and closing a handle, giving a block to an empty file, and moving bytes
between a block and the caller. A handle may refer to an inode that is no longer
in use: such a write still leaves the tables well formed.
-/

namespace MessageBroker.Tfs

open Bytes Table Transition

namespace Fs

variable {fs fs' : Fs} {h i j k b : Nat} {name : CString}

/-- The effect of opening handle `h` on inode `k`. -/
def opened (fs : Fs) (h k offset : Nat) : Fs :=
  { fs with
    freeOpenFileEntries := Function.update fs.freeOpenFileEntries h .taken
    openFileTable := Function.update fs.openFileTable h ⟨k, offset⟩ }

/-- The effect of closing handle `h`. -/
def closed (fs : Fs) (h : Nat) : Fs :=
  { fs with freeOpenFileEntries := Function.update fs.freeOpenFileEntries h .free }

/-- The effect of giving block `b` to the empty file of inode `k`. -/
def allocated (fs : Fs) (k b : Nat) : Fs :=
  { fs with
    freeBlocks := Function.update fs.freeBlocks b .taken
    inodeTable := Function.update fs.inodeTable k { fs.inodeTable k with iDataBlock := b } }

/-- The address in `fs_data` of the offset of handle `h` in the file of inode `k`. -/
def handleAddr (fs : Fs) (h k : Nat) : Nat :=
  (fs.inodeTable k).iDataBlock.toNat * fs.blockSize + (fs.openFileTable h).ofOffset

/-- The effect of writing `bs` through handle `h` on inode `k`. -/
def written (fs : Fs) (h k : Nat) (bs : List UInt8) : Fs :=
  { fs with
    fsData := store fs.fsData (fs.handleAddr h k) bs
    openFileTable := Function.update fs.openFileTable h
      { fs.openFileTable h with ofOffset := (fs.openFileTable h).ofOffset + bs.length }
    inodeTable := Function.update fs.inodeTable k
      { fs.inodeTable k with
        iSize := max (fs.inodeTable k).iSize ((fs.openFileTable h).ofOffset + bs.length) } }

theorem setOffset_ofInumber {file offset : Nat} :
    ((fs.setOffset file offset).openFileTable h).ofInumber = (fs.openFileTable h).ofInumber := by
  by_cases hh : h = file
  · subst hh
    simp [setOffset]
  · simp [setOffset, Function.update_of_ne hh]

theorem WellFormed.setOffset {file offset : Nat} (wf : fs.WellFormed) :
    (fs.setOffset file offset).WellFormed where
  geometry := wf.geometry.congr rfl rfl
  root := ⟨wf.root.inode_valid, wf.root.block_valid, wf.root.inode, wf.root.inode_taken,
    wf.root.block_taken⟩
  directory := wf.directory.congr rfl rfl (fun _ _ _ _ _ => rfl)
  files := wf.files.of_kept rfl (fun hj => wf.files.type (hj.congr rfl rfl))
    (fun hj hpos => ⟨hj.congr rfl rfl, rfl, (wf.files.block (hj.congr rfl rfl) hpos).2⟩)
  handles := wf.handles.congr rfl rfl (fun _ => setOffset_ofInumber)
    (fun ho hpos => wf.handles.block ho hpos)

theorem openOn_of_opened {h' k' offset : Nat} (ho : (fs.opened h k offset).OpenOn h' k') :
    (h' = h ∧ k' = k) ∨ (h' ≠ h ∧ fs.OpenOn h' k') := by
  obtain ⟨h1, h2, h3⟩ := ho
  by_cases hh : h' = h
  · subst hh
    refine Or.inl ⟨rfl, ?_⟩
    have hnum : ((k : Int)) = k' := by simpa [opened] using h3
    exact_mod_cast hnum.symm
  · refine Or.inr ⟨hh, h1, ?_, ?_⟩
    · simpa [opened, Function.update_of_ne hh] using h2
    · simpa [opened, Function.update_of_ne hh] using h3

theorem opened_openOn_of_ne {h' k' offset : Nat} (hh : h' ≠ h) (ho : fs.OpenOn h' k') :
    (fs.opened h k offset).OpenOn h' k' :=
  ho.congr rfl (Function.update_of_ne hh _ _)
    (congrArg OpenFileEntry.ofInumber (Function.update_of_ne hh _ _))

theorem WellFormed.opened {offset : Nat} (wf : fs.WellFormed) (hk : fs.IsFile k) :
    (fs.opened h k offset).WellFormed where
  geometry := wf.geometry.congr rfl rfl
  root := ⟨wf.root.inode_valid, wf.root.block_valid, wf.root.inode, wf.root.inode_taken,
    wf.root.block_taken⟩
  directory := wf.directory.congr rfl rfl (fun _ _ _ _ _ => rfl)
  files := wf.files.of_kept rfl (fun hj => wf.files.type (hj.congr rfl rfl))
    (fun hj hpos => ⟨hj.congr rfl rfl, rfl, (wf.files.block (hj.congr rfl rfl) hpos).2⟩)
  handles := by
    constructor
    · intro h' hlt ht
      by_cases hh : h' = h
      · subst hh
        exact ⟨k, hlt, ht, by simp [Fs.opened]⟩
      · have ht' : fs.freeOpenFileEntries h' = .taken := by
          simpa [Fs.opened, Function.update_of_ne hh] using ht
        obtain ⟨k', hk'⟩ := wf.handles.inode h' hlt ht'
        exact ⟨k', hk'.congr rfl (by simp [Fs.opened, Function.update_of_ne hh])
          (by simp [Fs.opened, Function.update_of_ne hh])⟩
    · intro h' k' ho
      rcases openOn_of_opened ho with ⟨_, rfl⟩ | ⟨_, ho⟩
      · exact ⟨hk.pos, hk.valid⟩
      · exact wf.handles.valid ho
    · intro h' k' ho hpos
      rcases openOn_of_opened ho with ⟨_, rfl⟩ | ⟨_, ho⟩
      · exact (wf.files.block hk hpos).1
      · exact wf.handles.block ho hpos

theorem closed_openOn_iff {h' : Nat} :
    (fs.closed h).OpenOn h' k ↔ h' ≠ h ∧ fs.OpenOn h' k := by
  constructor
  · rintro ⟨h1, h2, h3⟩
    have hh : h' ≠ h := by
      rintro rfl
      simp [closed] at h2
    refine ⟨hh, h1, ?_, h3⟩
    simpa [closed, Function.update_of_ne hh] using h2
  · rintro ⟨hh, h1, h2, h3⟩
    exact ⟨h1, by simpa [closed, Function.update_of_ne hh] using h2, h3⟩

/-- The handles that are open. -/
def openHandles (fs : Fs) : Set Int := {i | ∃ h k : Nat, i = h ∧ fs.OpenOn h k}

theorem natCast_mem_openHandles : (h : Int) ∈ fs.openHandles ↔ ∃ k, fs.OpenOn h k := by
  constructor
  · rintro ⟨h', k, heq, ho⟩
    cases Int.natCast_inj.mp heq
    exact ⟨k, ho⟩
  · rintro ⟨k, ho⟩
    exact ⟨h, k, rfl, ho⟩

/-- Every entry in use is that of an open handle. -/
theorem Handles.mem_openHandles (hh : fs.Handles) :
    (h : Int) ∈ fs.openHandles ↔ h < fs.maxOpenFiles ∧ fs.freeOpenFileEntries h = .taken := by
  rw [natCast_mem_openHandles]
  constructor
  · rintro ⟨k, ho⟩
    exact ⟨ho.valid, ho.taken⟩
  · rintro ⟨hlt, ht⟩
    exact hh.inode h hlt ht

theorem openHandles_congr (hh : fs.Handles) (hh' : fs'.Handles) (hp : fs'.fsParams = fs.fsParams)
    (ht : fs'.freeOpenFileEntries = fs.freeOpenFileEntries) : fs'.openHandles = fs.openHandles := by
  have hmem : ∀ h : Nat, (h : Int) ∈ fs'.openHandles ↔ (h : Int) ∈ fs.openHandles := by
    intro h
    rw [hh'.mem_openHandles, hh.mem_openHandles, Fs.maxOpenFiles, hp, ht]
    rfl
  ext i
  constructor
  · rintro ⟨h, k, rfl, ho⟩
    exact (hmem h).mp ⟨h, k, rfl, ho⟩
  · rintro ⟨h, k, rfl, ho⟩
    exact (hmem h).mpr ⟨h, k, rfl, ho⟩

theorem not_mem_openHandles (hfree : fs.freeOpenFileEntries h = .free) :
    (h : Int) ∉ fs.openHandles := by
  rw [natCast_mem_openHandles]
  rintro ⟨k, ho⟩
  cases hfree.symm.trans ho.taken

theorem openHandles_opened {offset : Nat} (hlt : h < fs.maxOpenFiles) :
    (fs.opened h k offset).openHandles = insert (h : Int) fs.openHandles := by
  have hnew : (fs.opened h k offset).OpenOn h k := ⟨hlt, by simp [opened], by simp [opened]⟩
  ext i
  constructor
  · rintro ⟨h', k', rfl, ho⟩
    obtain ⟨rfl, _⟩ | ⟨_, ho⟩ := openOn_of_opened ho
    · exact Or.inl rfl
    · exact Or.inr ⟨h', k', rfl, ho⟩
  · rintro (rfl | ⟨h', k', rfl, ho⟩)
    · exact ⟨h, k, rfl, hnew⟩
    · by_cases hh : h' = h
      · exact ⟨h, k, congrArg Nat.cast hh, hnew⟩
      · exact ⟨h', k', rfl, opened_openOn_of_ne hh ho⟩

theorem openHandles_closed : (fs.closed h).openHandles = fs.openHandles \ {(h : Int)} := by
  ext i
  constructor
  · rintro ⟨h', k, rfl, ho⟩
    obtain ⟨hne, ho⟩ := closed_openOn_iff.mp ho
    exact ⟨⟨h', k, rfl, ho⟩, fun heq => hne (Int.natCast_inj.mp heq)⟩
  · rintro ⟨⟨h', k, rfl, ho⟩, hne⟩
    refine ⟨h', k, rfl, closed_openOn_iff.mpr ⟨?_, ho⟩⟩
    rintro rfl
    exact hne rfl

theorem WellFormed.closed (wf : fs.WellFormed) : (fs.closed h).WellFormed where
  geometry := wf.geometry.congr rfl rfl
  root := ⟨wf.root.inode_valid, wf.root.block_valid, wf.root.inode, wf.root.inode_taken,
    wf.root.block_taken⟩
  directory := wf.directory.congr rfl rfl (fun _ _ _ _ _ => rfl)
  files := wf.files.of_kept rfl (fun hj => wf.files.type (hj.congr rfl rfl))
    (fun hj hpos => ⟨hj.congr rfl rfl, rfl, (wf.files.block (hj.congr rfl rfl) hpos).2⟩)
  handles := by
    constructor
    · intro h' hlt ht
      have hh : h' ≠ h := by
        rintro rfl
        simp [Fs.closed] at ht
      have ht' : fs.freeOpenFileEntries h' = .taken := by
        simpa [Fs.closed, Function.update_of_ne hh] using ht
      obtain ⟨k', hk'⟩ := wf.handles.inode h' hlt ht'
      exact ⟨k', closed_openOn_iff.mpr ⟨hh, hk'⟩⟩
    · exact fun ho => wf.handles.valid (closed_openOn_iff.mp ho).2
    · exact fun ho hpos => wf.handles.block (closed_openOn_iff.mp ho).2 hpos

/-- A block that is free belongs to no non-empty file. -/
theorem Files.block_ne_of_free (hf : fs.Files) (hb : fs.freeBlocks b = .free) (hj : fs.IsFile j)
    (hpos : 0 < (fs.inodeTable j).iSize) : (fs.inodeTable j).iDataBlock.toNat ≠ b := by
  rintro rfl
  have := (hf.block hj hpos).2
  rw [hb] at this
  cases this

theorem allocated_inode_iSize :
    ((fs.allocated k b).inodeTable j).iSize = (fs.inodeTable j).iSize := by
  by_cases hjk : j = k
  · subst hjk
    simp [allocated]
  · simp [allocated, Function.update_of_ne hjk]

theorem WellFormed.allocated (wf : fs.WellFormed) (hk : 0 < k)
    (hempty : (fs.inodeTable k).iSize = 0) (hb : fs.freeBlocks b = .free) :
    (fs.allocated k b).WellFormed := by
  have hpos_ne : ∀ {j}, 0 < (fs.inodeTable j).iSize → j ≠ k := by
    rintro j hj rfl
    omega
  constructor
  · exact wf.geometry.congr rfl rfl
  · refine ⟨wf.root.inode_valid, wf.root.block_valid,
      (Function.update_of_ne hk.ne _ _).trans wf.root.inode, wf.root.inode_taken, ?_⟩
    have hb0 : 0 ≠ b := by
      rintro rfl
      have := wf.root.block_taken
      rw [hb] at this
      cases this
    exact (Function.update_of_ne hb0 _ _).trans wf.root.block_taken
  · exact wf.directory.congr rfl rfl (fun _ _ _ _ _ => rfl)
  · refine wf.files.of_kept rfl ?_ ?_
    · intro j hj
      have htype := wf.files.type (hj.congr rfl rfl : fs.IsFile j)
      by_cases hjk : j = k
      · subst hjk
        simpa [Fs.allocated] using htype
      · simpa [Fs.allocated, Function.update_of_ne hjk] using htype
    · intro j hj hpos
      rw [allocated_inode_iSize] at hpos
      have hjk := hpos_ne hpos
      have hold : fs.IsFile j := hj.congr rfl rfl
      refine ⟨hold, Function.update_of_ne hjk _ _, ?_⟩
      -- the block of a file was not free
      have hne := wf.files.block_ne_of_free hb hold hpos
      exact (Function.update_of_ne hne _ _).trans (wf.files.block hold hpos).2
  · refine wf.handles.congr rfl rfl (fun _ => rfl) ?_
    intro h j ho hpos
    rw [allocated_inode_iSize] at hpos
    have hjk := hpos_ne hpos
    have heq : (fs.allocated k b).inodeTable j = fs.inodeTable j :=
      Function.update_of_ne hjk _ _
    rw [heq]
    exact wf.handles.block ho hpos

/-! ### Writing -/

/-- The condition under which a write through handle `h` on inode `k` succeeds. -/
structure CanWrite (fs : Fs) (h k : Nat) (bs : List UInt8) : Prop where
  openOn : fs.OpenOn h k
  nonempty : 0 < bs.length
  fits : (fs.openFileTable h).ofOffset + bs.length ≤ fs.blockSize
  block : fs.FileBlock (fs.inodeTable k).iDataBlock
  owned : fs.IsFile k → fs.freeBlocks (fs.inodeTable k).iDataBlock.toNat = .taken ∧
    ∀ {j}, fs.IsFile j → 0 < (fs.inodeTable j).iSize → j ≠ k →
      (fs.inodeTable j).iDataBlock ≠ (fs.inodeTable k).iDataBlock

theorem written_inode_of_ne {bs : List UInt8} (hj : j ≠ k) :
    (fs.written h k bs).inodeTable j = fs.inodeTable j := Function.update_of_ne hj _ _

theorem written_inode_self {bs : List UInt8} :
    (fs.written h k bs).inodeTable k = { fs.inodeTable k with
      iSize := max (fs.inodeTable k).iSize ((fs.openFileTable h).ofOffset + bs.length) } :=
  Function.update_self _ _ _

theorem written_iDataBlock {bs : List UInt8} :
    ((fs.written h k bs).inodeTable j).iDataBlock = (fs.inodeTable j).iDataBlock := by
  by_cases hjk : j = k
  · subst hjk
    rw [written_inode_self]
  · rw [written_inode_of_ne hjk]

theorem written_ofInumber {bs : List UInt8} {h' : Nat} :
    ((fs.written h k bs).openFileTable h').ofInumber = (fs.openFileTable h').ofInumber := by
  by_cases hh : h' = h
  · subst hh
    simp [written]
  · simp [written, Function.update_of_ne hh]

/-- A write stays out of the directory entries. -/
theorem CanWrite.sameEntry {bs : List UInt8} (hw : fs.CanWrite h k bs)
    (hi : i < fs.maxDirEntries) : SameEntry fs.fsData (fs.written h k bs).fsData i := by
  obtain ⟨b, hb, hb0, _⟩ := hw.block
  apply SameEntry.symm
  apply sameEntry_store
  left
  have := entry_end_le_block hi hb0
  rw [handleAddr, hb, Int.toNat_natCast]
  omega

theorem WellFormed.written {bs : List UInt8} (wf : fs.WellFormed) (hw : fs.CanWrite h k bs) :
    (fs.written h k bs).WellFormed := by
  have hfile : ∀ {j}, (fs.written h k bs).IsFile j → fs.IsFile j := fun hj => hj.congr rfl rfl
  have hk0 := (wf.handles.valid hw.openOn).1
  constructor
  · exact wf.geometry.congr rfl rfl
  · exact ⟨wf.root.inode_valid, wf.root.block_valid,
      (written_inode_of_ne hk0.ne).trans wf.root.inode, wf.root.inode_taken,
      wf.root.block_taken⟩
  · exact wf.directory.congr rfl rfl (fun _ hi => hw.sameEntry hi)
  · constructor
    · intro j hj
      by_cases hjk : j = k
      · subst hjk
        rw [written_inode_self]
        exact wf.files.type (hfile hj)
      · rw [written_inode_of_ne hjk]
        exact wf.files.type (hfile hj)
    · intro j hj
      by_cases hjk : j = k
      · subst hjk
        rw [written_inode_self]
        exact max_le (wf.files.size_le (hfile hj)) hw.fits
      · rw [written_inode_of_ne hjk]
        exact wf.files.size_le (hfile hj)
    · intro j hj hpos
      by_cases hjk : j = k
      · subst hjk
        rw [written_iDataBlock]
        exact ⟨hw.block.congr rfl, (hw.owned (hfile hj)).1⟩
      · rw [written_inode_of_ne hjk] at hpos ⊢
        exact ⟨(wf.files.block (hfile hj) hpos).1.congr rfl, (wf.files.block (hfile hj) hpos).2⟩
    · intro j j' hj hj' hpos hpos' heq
      rw [written_iDataBlock, written_iDataBlock] at heq
      -- no two files share a block: the one written to owns its block alone
      by_cases hjk : j = k <;> by_cases hjk' : j' = k
      · rw [hjk, hjk']
      · subst hjk
        rw [written_inode_of_ne hjk'] at hpos'
        exact absurd heq.symm ((hw.owned (hfile hj)).2 (hfile hj') hpos' hjk')
      · subst hjk'
        rw [written_inode_of_ne hjk] at hpos
        exact absurd heq ((hw.owned (hfile hj')).2 (hfile hj) hpos hjk)
      · rw [written_inode_of_ne hjk] at hpos
        rw [written_inode_of_ne hjk'] at hpos'
        exact wf.files.block_inj (hfile hj) (hfile hj') hpos hpos' heq
  · refine wf.handles.congr rfl rfl (fun _ => written_ofInumber) ?_
    intro h' j ho hpos
    rw [written_iDataBlock]
    by_cases hjk : j = k
    · subst hjk
      exact hw.block
    · rw [written_inode_of_ne hjk] at hpos
      exact wf.handles.block ho hpos

end Fs

end MessageBroker.Tfs
