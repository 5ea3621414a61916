import MessageBroker.Tfs.WellFormed

/-!
# The updates that the operations make

Each update is the whole effect of one kind of step on the tables, and keeps the
file system well formed under the condition in which the operations make it.
-/

namespace MessageBroker.Tfs

open Bytes Table Transition

namespace Fs

variable {fs fs' : Fs} {h i j k b : Nat} {name : CString}

/-! ### Truncation -/

/-- The effect of truncating the file of inode `k`. -/
def truncated (fs : Fs) (k : Nat) : Fs :=
  if 0 < (fs.inodeTable k).iSize then
    { fs with
      freeBlocks := Function.update fs.freeBlocks (fs.inodeTable k).iDataBlock.toNat .free
      inodeTable := Function.update fs.inodeTable k { fs.inodeTable k with iSize := 0 } }
  else fs

theorem FileBlock.valid {bn : Int} (hb : fs.FileBlock bn) : fs.validBlockNumber bn := by
  obtain ⟨b, rfl, _, hlt⟩ := hb
  exact ⟨by omega, by omega⟩

theorem truncate_eq (hf : fs.Files) (hk : fs.IsFile k) :
    fs.truncate k = .ok (fs.truncated k) := by
  unfold truncate truncated
  split
  · next hpos =>
    have hv := (hf.block hk hpos).1.valid
    simp only [dataBlockFree, if_pos hv, ok_bind, setInode]
  · rfl

theorem truncated_fsParams : (fs.truncated k).fsParams = fs.fsParams := by
  unfold truncated
  split <;> rfl

theorem truncated_tables : (fs.truncated k).tables = fs.tables := by
  unfold truncated
  split <;> rfl

theorem truncated_fsData : (fs.truncated k).fsData = fs.fsData := by
  unfold truncated
  split <;> rfl

theorem truncated_freeinodeTs : (fs.truncated k).freeinodeTs = fs.freeinodeTs := by
  unfold truncated
  split <;> rfl

theorem truncated_openFileTable : (fs.truncated k).openFileTable = fs.openFileTable := by
  unfold truncated
  split <;> rfl

theorem truncated_freeOpenFileEntries :
    (fs.truncated k).freeOpenFileEntries = fs.freeOpenFileEntries := by
  unfold truncated
  split <;> rfl

theorem truncated_inode_self : ((fs.truncated k).inodeTable k).iSize = 0 := by
  unfold truncated
  split
  · simp
  · omega

theorem truncated_inode_of_ne (hj : j ≠ k) :
    (fs.truncated k).inodeTable j = fs.inodeTable j := by
  unfold truncated
  split
  · exact Function.update_of_ne hj _ _
  · rfl

theorem truncated_inode_ne_of_pos (hpos : 0 < ((fs.truncated k).inodeTable j).iSize) : j ≠ k := by
  rintro rfl
  rw [truncated_inode_self] at hpos
  exact absurd hpos (lt_irrefl 0)

theorem WellFormed.truncated (wf : fs.WellFormed) (hk : fs.IsFile k) :
    (fs.truncated k).WellFormed := by
  by_cases hpos : 0 < (fs.inodeTable k).iSize
  · have hfile : ∀ {j}, (fs.truncated k).IsFile j → fs.IsFile j := fun hj =>
      hj.congr truncated_fsParams.symm truncated_freeinodeTs.symm
    constructor
    · exact wf.geometry.congr truncated_fsParams (by rw [Fs.truncated, if_pos hpos])
    · refine ⟨?_, ?_, ?_, ?_, ?_⟩ <;> rw [Fs.truncated, if_pos hpos]
      · exact wf.root.inode_valid
      · exact wf.root.block_valid
      · exact (Function.update_of_ne hk.pos.ne _ _).trans wf.root.inode
      · exact wf.root.inode_taken
      · -- the block that is freed is not that of the root
        obtain ⟨⟨b, hb, hb0, _⟩, _⟩ := wf.files.block hk hpos
        have hne : 0 ≠ (fs.inodeTable k).iDataBlock.toNat := by
          rw [hb]
          exact hb0.ne
        exact (Function.update_of_ne hne _ _).trans wf.root.block_taken
    · exact wf.directory.congr truncated_fsParams truncated_freeinodeTs
        (fun i _ a _ _ => by rw [truncated_fsData])
    · apply wf.files.of_kept truncated_fsParams
      · intro j hj
        by_cases hjk : j = k
        · subst hjk
          rw [Fs.truncated, if_pos hpos]
          simpa using wf.files.type hk
        · rw [truncated_inode_of_ne hjk]
          exact wf.files.type (hfile hj)
      · intro j hj hjpos
        have hjk := truncated_inode_ne_of_pos hjpos
        rw [truncated_inode_of_ne hjk] at hjpos ⊢
        refine ⟨hfile hj, rfl, ?_⟩
        rw [Fs.truncated, if_pos hpos]
        -- nor that of another file
        have hne := wf.files.block_ne (hfile hj) hk hjpos hpos hjk
        exact (Function.update_of_ne hne _ _).trans (wf.files.block (hfile hj) hjpos).2
    · refine wf.handles.congr truncated_fsParams truncated_freeOpenFileEntries
        (fun h => by rw [truncated_openFileTable]) ?_
      intro h j ho hjpos
      have hjk := truncated_inode_ne_of_pos hjpos
      rw [truncated_inode_of_ne hjk] at hjpos ⊢
      exact wf.handles.block ho hjpos
  · rw [Fs.truncated, if_neg hpos]
    exact wf

/-! ### Creation and removal of files -/

/-- The effect of creating the file `name` with inode `k` in entry `i`. -/
def createdFile (fs : Fs) (k i : Nat) (name : CString) : Fs :=
  { fs with
    freeinodeTs := Function.update fs.freeinodeTs k .taken
    inodeTable := Function.update fs.inodeTable k ⟨.file, 0, -1⟩
    fsData := fillEntry fs.fsData i name k }

/-- The effect of creating an inode and deleting it again. -/
def resetInode (fs : Fs) (k : Nat) : Fs :=
  { fs with inodeTable := Function.update fs.inodeTable k ⟨.file, 0, -1⟩ }

/-- The effect of deleting inode `k` and clearing its entry `i`. -/
def removedFile (fs : Fs) (k i : Nat) : Fs :=
  { fs with
    freeinodeTs := Function.update fs.freeinodeTs k .free
    freeBlocks :=
      if 0 < (fs.inodeTable k).iSize then
        Function.update fs.freeBlocks (fs.inodeTable k).iDataBlock.toNat .free
      else fs.freeBlocks
    fsData := clearEntry fs.fsData i }

/-- Entries that an update does not touch. -/
theorem entryAt_of_same (hp : fs'.fsParams = fs.fsParams)
    (hm : SameEntry fs.fsData fs'.fsData i) : fs'.EntryAt i name k ↔ fs.EntryAt i name k :=
  ⟨fun he => he.congr hp.symm hm.symm, fun he => he.congr hp hm⟩

/-- The condition under which `tfs_open` creates a file. -/
structure CanCreate (fs : Fs) (k i : Nat) (name : CString) : Prop where
  inode_valid : k < fs.inodeTableSize
  inode_free : fs.freeinodeTs k = .free
  index : i < fs.maxDirEntries
  entry_free : fs.dInumber 0 i = -1
  first : ∀ j < i, fs.dInumber 0 j ≠ -1
  nonempty : 0 < name.length
  short : name.length < maxFileName
  absent : ∀ {j k'}, ¬ fs.EntryAt j name k'

theorem CanCreate.pos (hc : fs.CanCreate k i name) (hr : fs.Root) : 0 < k := by
  apply Nat.pos_of_ne_zero
  rintro rfl
  have := hc.inode_free
  rw [hr.inode_taken] at this
  cases this

theorem CanCreate.entryAt_self (hc : fs.CanCreate k i name) (hg : fs.Geometry) :
    (fs.createdFile k i name).EntryAt i name k where
  index := hc.index
  nonempty := hc.nonempty
  short := hc.short
  inumber := loadInt_fillEntry hc.short (hc.inode_valid.le.trans hg.inodes_le)
  holds := holdsString_fillEntry

theorem CanCreate.entryAt_of_ne {name' : CString} {k' : Nat} (hc : fs.CanCreate k i name)
    (hij : j ≠ i) : (fs.createdFile k i name).EntryAt j name' k' ↔ fs.EntryAt j name' k' :=
  entryAt_of_same rfl (sameEntry_fillEntry hc.short hij).symm

theorem CanCreate.entryAt_iff {name' : CString} {k' : Nat} (hc : fs.CanCreate k i name)
    (hg : fs.Geometry) : (fs.createdFile k i name).EntryAt j name' k' ↔
      (j = i ∧ name' = name ∧ k' = k) ∨ (j ≠ i ∧ fs.EntryAt j name' k') := by
  by_cases hij : j = i
  · subst hij
    have hself := hc.entryAt_self hg
    constructor
    · intro he
      exact Or.inl ⟨rfl, he.name_unique hself, he.inumber_unique hself⟩
    · rintro (⟨_, rfl, rfl⟩ | ⟨hne, _⟩)
      · exact hself
      · exact absurd rfl hne
  · rw [hc.entryAt_of_ne hij]
    simp [hij]

theorem CanCreate.isFile_iff (hc : fs.CanCreate k i name) (hr : fs.Root) :
    (fs.createdFile k i name).IsFile j ↔ j = k ∨ fs.IsFile j := by
  constructor
  · rintro ⟨h1, h2, h3⟩
    by_cases hjk : j = k
    · exact Or.inl hjk
    · exact Or.inr ⟨h1, h2, (Function.update_of_ne hjk _ _).symm.trans h3⟩
  · rintro (rfl | ⟨h1, h2, h3⟩)
    · exact ⟨hc.pos hr, hc.inode_valid, Function.update_self _ _ _⟩
    · by_cases hjk : j = k
      · subst hjk
        exact ⟨h1, h2, Function.update_self _ _ _⟩
      · exact ⟨h1, h2, (Function.update_of_ne hjk _ _).trans h3⟩

/-- An inode with an entry is not the free one. -/
theorem CanCreate.inumber_ne {name' : CString} {k' : Nat} (hc : fs.CanCreate k i name)
    (hd : fs.Directory) (he : fs.EntryAt j name' k') : k' ≠ k := by
  rintro rfl
  have := (hd.isFile he).taken
  rw [hc.inode_free] at this
  cases this

theorem CanCreate.directory (hc : fs.CanCreate k i name) (wf : fs.WellFormed) :
    (fs.createdFile k i name).Directory := by
  have hd := wf.directory
  have hiff : ∀ {j name' k'}, (fs.createdFile k i name).EntryAt j name' k' ↔
      (j = i ∧ name' = name ∧ k' = k) ∨ (j ≠ i ∧ fs.EntryAt j name' k') :=
    hc.entryAt_iff wf.geometry
  constructor
  · intro j hj hne
    by_cases hij : j = i
    · subst hij
      exact ⟨name, k, hc.entryAt_self wf.geometry⟩
    · have heq := (sameEntry_fillEntry (m := fs.fsData) (k := k) hc.short hij).loadInt_eq
      obtain ⟨name', k', he⟩ := hd.named j hj (fun h0 => hne (heq.trans h0))
      exact ⟨name', k', (hc.entryAt_of_ne hij).mpr he⟩
  · intro j name' k' he
    rw [hc.isFile_iff wf.root]
    rcases hiff.mp he with ⟨_, _, rfl⟩ | ⟨_, he⟩
    · exact Or.inl rfl
    · exact Or.inr (hd.isFile he)
  · intro j j' name' k' k'' he he'
    rcases hiff.mp he with ⟨hj, hn, _⟩ | ⟨_, hold⟩ <;>
      rcases hiff.mp he' with ⟨hj', hn', _⟩ | ⟨_, hold'⟩
    · exact hj.trans hj'.symm
    · exact absurd (hn ▸ hold') hc.absent
    · exact absurd (hn' ▸ hold) hc.absent
    · exact hd.name_inj hold hold'
  · intro j j' name' name'' k' he he'
    rcases hiff.mp he with ⟨hj, _, hk⟩ | ⟨_, hold⟩ <;>
      rcases hiff.mp he' with ⟨hj', _, hk'⟩ | ⟨_, hold'⟩
    · exact hj.trans hj'.symm
    · exact absurd hk (hc.inumber_ne hd hold')
    · exact absurd hk' (hc.inumber_ne hd hold)
    · exact hd.inumber_inj hold hold'
  · intro j j' hlt hj' hne hfree
    -- every entry below the filled one is in use, so only untouched pairs remain
    have hji : j ≠ i := by
      rintro rfl
      have := (hc.entryAt_self wf.geometry).inumber_ne
      exact this hfree
    have hsame := sameEntry_fillEntry (m := fs.fsData) (k := k) hc.short hji
    have hfree' : fs.dInumber 0 j = -1 := hsame.loadInt_eq.symm.trans hfree
    have hj'i : j' ≠ i := by
      rintro rfl
      exact hc.first j hlt hfree'
    have hsame' := sameEntry_fillEntry (m := fs.fsData) (k := k) hc.short hj'i
    have hne' : fs.dInumber 0 j' ≠ -1 := fun h0 => hne (hsame'.loadInt_eq.trans h0)
    exact hsame.symm.holdsString (by decide) (hd.cleared hlt hj' hne' hfree')
  · intro j hj
    rcases (hc.isFile_iff wf.root).mp hj with rfl | hj
    · exact ⟨i, name, hc.entryAt_self wf.geometry⟩
    · obtain ⟨l, name', he⟩ := hd.total hj
      have hli : l ≠ i := by
        rintro rfl
        exact he.inumber_ne hc.entry_free
      exact ⟨l, name', (hc.entryAt_of_ne hli).mpr he⟩

/-- Making the inode of no file, or of a new one, an empty file inode. -/
theorem inode_of_pos_of_reset
    (hpos : 0 < (Function.update fs.inodeTable k ⟨.file, 0, -1⟩ j).iSize) :
    j ≠ k ∧ Function.update fs.inodeTable k ⟨.file, 0, -1⟩ j = fs.inodeTable j := by
  have hjk : j ≠ k := by
    rintro rfl
    rw [Function.update_self] at hpos
    exact absurd hpos (lt_irrefl 0)
  exact ⟨hjk, Function.update_of_ne hjk _ _⟩

theorem WellFormed.createdFile (wf : fs.WellFormed) (hc : fs.CanCreate k i name) :
    (fs.createdFile k i name).WellFormed := by
  have hk0 : 0 ≠ k := (hc.pos wf.root).ne
  constructor
  · exact wf.geometry.congr rfl rfl
  · exact ⟨wf.root.inode_valid, wf.root.block_valid,
      (Function.update_of_ne hk0 _ _).trans wf.root.inode,
      (Function.update_of_ne hk0 _ _).trans wf.root.inode_taken, wf.root.block_taken⟩
  · exact hc.directory wf
  · refine wf.files.of_kept rfl ?_ ?_
    · intro j hj
      by_cases hjk : j = k
      · subst hjk
        simp [Fs.createdFile]
      · have hold := ((hc.isFile_iff wf.root).mp hj).resolve_left hjk
        simpa [Fs.createdFile, Function.update_of_ne hjk] using wf.files.type hold
    · intro j hj hpos
      obtain ⟨hjk, heq⟩ := inode_of_pos_of_reset hpos
      have hold := ((hc.isFile_iff wf.root).mp hj).resolve_left hjk
      refine ⟨hold, heq, (wf.files.block hold ?_).2⟩
      rw [← heq]
      exact hpos
  · refine wf.handles.congr rfl rfl (fun _ => rfl) ?_
    intro h j ho hpos
    -- a file with a block is not the new one
    obtain ⟨_, heq⟩ := inode_of_pos_of_reset hpos
    have hpos' : 0 < (fs.inodeTable j).iSize := by
      rw [← heq]
      exact hpos
    change fs.FileBlock (Function.update fs.inodeTable k ⟨.file, 0, -1⟩ j).iDataBlock
    rw [heq]
    exact wf.handles.block ho hpos'

theorem WellFormed.resetInode (wf : fs.WellFormed) (hk : fs.freeinodeTs k = .free) :
    (fs.resetInode k).WellFormed := by
  have hne : ∀ {j}, fs.freeinodeTs j = .taken → j ≠ k := by
    rintro j hj rfl
    rw [hk] at hj
    cases hj
  have hfile : ∀ {j}, (fs.resetInode k).IsFile j → fs.IsFile j := fun hj => hj.congr rfl rfl
  have hinode : ∀ {j}, (fs.resetInode k).IsFile j →
      (fs.resetInode k).inodeTable j = fs.inodeTable j := fun hj =>
    Function.update_of_ne (hne (hfile hj).taken) _ _
  constructor
  · exact wf.geometry.congr rfl rfl
  · exact ⟨wf.root.inode_valid, wf.root.block_valid,
      (Function.update_of_ne (hne wf.root.inode_taken) _ _).trans wf.root.inode,
      wf.root.inode_taken, wf.root.block_taken⟩
  · exact wf.directory.congr rfl rfl (fun _ _ _ _ _ => rfl)
  · refine wf.files.of_kept rfl ?_ ?_
    · intro j hj
      rw [hinode hj]
      exact wf.files.type (hfile hj)
    · intro j hj hpos
      rw [hinode hj] at hpos
      exact ⟨hfile hj, hinode hj, (wf.files.block (hfile hj) hpos).2⟩
  · refine wf.handles.congr rfl rfl (fun _ => rfl) ?_
    intro h j ho hpos
    obtain ⟨_, heq⟩ := inode_of_pos_of_reset hpos
    have hpos' : 0 < (fs.inodeTable j).iSize := by
      rw [← heq]
      exact hpos
    change fs.FileBlock (Function.update fs.inodeTable k ⟨.file, 0, -1⟩ j).iDataBlock
    rw [heq]
    exact wf.handles.block ho hpos'

theorem removedFile_entryAt_iff {name' : CString} {k' : Nat} :
    (fs.removedFile k i).EntryAt j name' k' ↔ j ≠ i ∧ fs.EntryAt j name' k' := by
  by_cases hij : j = i
  · subst hij
    constructor
    · intro he
      exact absurd loadInt_clearEntry he.inumber_ne
    · rintro ⟨hne, _⟩
      exact absurd rfl hne
  · have hiff : (fs.removedFile k i).EntryAt j name' k' ↔ fs.EntryAt j name' k' :=
      entryAt_of_same rfl (sameEntry_clearEntry hij).symm
    rw [hiff]
    simp [hij]

theorem removedFile_isFile_iff : (fs.removedFile k i).IsFile j ↔ j ≠ k ∧ fs.IsFile j := by
  constructor
  · rintro ⟨h1, h2, h3⟩
    have hjk : j ≠ k := by
      rintro rfl
      change Function.update fs.freeinodeTs j .free j = .taken at h3
      rw [Function.update_self] at h3
      cases h3
    exact ⟨hjk, h1, h2, (Function.update_of_ne hjk _ _).symm.trans h3⟩
  · rintro ⟨hjk, h1, h2, h3⟩
    exact ⟨h1, h2, (Function.update_of_ne hjk _ _).trans h3⟩

theorem Directory.removedFile (hd : fs.Directory) (he : fs.EntryAt i name k) :
    (fs.removedFile k i).Directory := by
  have hsame : ∀ {j}, j ≠ i → SameEntry (fs.removedFile k i).fsData fs.fsData j := fun hj =>
    sameEntry_clearEntry hj
  have hself : (fs.removedFile k i).dInumber 0 i = -1 := loadInt_clearEntry
  constructor
  · intro j hj hne
    have hji : j ≠ i := by
      rintro rfl
      exact hne hself
    obtain ⟨name', k', hold⟩ :=
      hd.named j hj (fun h0 => hne ((hsame hji).loadInt_eq.trans h0))
    exact ⟨name', k', removedFile_entryAt_iff.mpr ⟨hji, hold⟩⟩
  · intro j name' k' hnew
    obtain ⟨hji, hold⟩ := removedFile_entryAt_iff.mp hnew
    refine removedFile_isFile_iff.mpr ⟨?_, hd.isFile hold⟩
    rintro rfl
    exact hji (hd.inumber_inj hold he)
  · exact fun h h' =>
      hd.name_inj (removedFile_entryAt_iff.mp h).2 (removedFile_entryAt_iff.mp h').2
  · exact fun h h' =>
      hd.inumber_inj (removedFile_entryAt_iff.mp h).2 (removedFile_entryAt_iff.mp h').2
  · intro j j' hlt hj' hne hfree
    by_cases hji : j = i
    · subst hji
      exact holdsString_clearEntry
    · -- an entry behind a free one is cleared; the one that is cleared now is no exception
      have hj'i : j' ≠ i := by
        rintro rfl
        exact hne hself
      refine (hsame hji).symm.holdsString (by decide) (hd.cleared hlt hj' ?_ ?_)
      · exact fun h0 => hne ((hsame hj'i).loadInt_eq.trans h0)
      · exact (hsame hji).loadInt_eq.symm.trans hfree
  · intro j hj
    obtain ⟨hjk, hold⟩ := removedFile_isFile_iff.mp hj
    obtain ⟨l, name', hl⟩ := hd.total hold
    refine ⟨l, name', removedFile_entryAt_iff.mpr ⟨?_, hl⟩⟩
    rintro rfl
    exact hjk (hl.inumber_unique he)

/-- The block freed with a file is that of no other file and not that of the root. -/
theorem removedFile_freeBlocks {c : Nat}
    (hne : 0 < (fs.inodeTable k).iSize → c ≠ (fs.inodeTable k).iDataBlock.toNat) :
    (fs.removedFile k i).freeBlocks c = fs.freeBlocks c := by
  unfold Fs.removedFile
  simp only
  split
  · next hpos => exact Function.update_of_ne (hne hpos) _ _
  · rfl

theorem WellFormed.removedFile (wf : fs.WellFormed) (he : fs.EntryAt i name k) :
    (fs.removedFile k i).WellFormed := by
  have hk := wf.directory.isFile he
  constructor
  · exact wf.geometry.congr rfl rfl
  · refine ⟨wf.root.inode_valid, wf.root.block_valid, wf.root.inode,
      (Function.update_of_ne hk.pos.ne _ _).trans wf.root.inode_taken, ?_⟩
    refine (removedFile_freeBlocks ?_).trans wf.root.block_taken
    intro hpos
    obtain ⟨⟨b, hb, hb0, _⟩, _⟩ := wf.files.block hk hpos
    rw [hb]
    exact hb0.ne
  · exact wf.directory.removedFile he
  · refine wf.files.of_kept rfl ?_ ?_
    · intro j hj
      exact wf.files.type (removedFile_isFile_iff.mp hj).2
    · intro j hj hpos
      obtain ⟨hjk, hold⟩ := removedFile_isFile_iff.mp hj
      refine ⟨hold, rfl, ?_⟩
      refine (removedFile_freeBlocks ?_).trans (wf.files.block hold hpos).2
      exact fun hkpos => wf.files.block_ne hold hk hpos hkpos hjk
  · exact wf.handles.congr rfl rfl (fun _ => rfl) (fun ho hpos => wf.handles.block ho hpos)

end Fs

end MessageBroker.Tfs
