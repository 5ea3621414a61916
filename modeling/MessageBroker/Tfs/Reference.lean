import MessageBroker.Tfs.Runs
import MessageBroker.Lib.FileStore

/-!
# The reference store

What TecnicoFS is for: a `FileStore` whose names are those of the root directory.
`reference` gives every call its meaning on the store, and `Refines` relates the
tables to a store. The lemmas say which store each update of the tables refines.
-/

namespace MessageBroker.Tfs

open Bytes Table Transition

/-- A file takes an inode other than the root's and a directory entry, and a
non-empty one takes a block other than the root's. -/
def limits (params : TfsParams) : Limits where
  files := min (params.maxInodeCount - 1) (params.blockSize / sizeofDirEntry)
  nonempty := params.maxBlockCount - 1
  handles := params.maxOpenFilesCount
  size := params.blockSize

/-- `tfs_open` on the store. A file that was created stays when no handle is free. -/
def refOpen (params : TfsParams) (st : FileStore CString) (path : Option CString)
    (mode : FileMode) : Int × FileStore CString :=
  match path with
  | none => (-1, st)
  | some path =>
    let n := path.tail
    if ¬ Fs.validPathname (some path) then (-1, st)
    else if n ∈ st.names then
      let st := if mode.trunc then st.setContents n [] else st
      st.openHandle (limits params) n (if mode.append then (st.contents n).length else 0)
    else if mode.creat ∧ n.length < maxFileName ∧ st.names.card < (limits params).files then
      (st.create n).openHandle (limits params) n 0
    else (-1, st)

/-- `tfs_unlink` on the store. -/
def refUnlink (st : FileStore CString) (path : Option CString) : Int × FileStore CString :=
  match path with
  | none => (-1, st)
  | some path =>
    if ¬ Fs.validPathname (some path) then (-1, st)
    else if path.tail ∈ st.names then (0, st.remove path.tail)
    else (-1, st)

/-- The meaning of a call on the reference store. -/
def reference (params : TfsParams) (st : FileStore CString) : Call → Reply × FileStore CString
  | .open path mode => let r := refOpen params st path mode; (⟨r.1, []⟩, r.2)
  | .close fhandle => let r := st.close (limits params) fhandle; (⟨r.1, []⟩, r.2)
  | .write fhandle buffer len =>
    let r := st.write (limits params) fhandle (load buffer 0 len); (⟨r.1, []⟩, r.2)
  | .read fhandle len => let r := st.read (limits params) fhandle len; (⟨r.1.1, r.1.2⟩, r.2)
  | .unlink path => let r := refUnlink st path; (⟨r.1, []⟩, r.2)

/-- No file is unlinked or truncated while a handle on it is open, and the length of
a write is an `ssize_t`. -/
def Admitted (st : FileStore CString) : Call → Prop
  | .open path mode => mode.trunc = true →
      ∀ p, path = some p → Fs.validPathname path = true → ¬ st.InUse p.tail
  | .close _ => True
  | .write _ _ len => len ≤ ssizeMax
  | .read _ _ => True
  | .unlink path => ∀ p, path = some p → Fs.validPathname path = true → ¬ st.InUse p.tail

namespace Fs

/-- The bytes of the file of inode `k`. -/
def fileOf (fs : Fs) (k : Nat) : List UInt8 :=
  load fs.fsData ((fs.inodeTable k).iDataBlock.toNat * fs.blockSize) (fs.inodeTable k).iSize

/-- The directory and the blocks hold the files of the store. -/
structure HasFiles (fs : Fs) (st : FileStore CString) : Prop where
  names : ∀ {n}, n ∈ st.names ↔ ∃ i k, fs.EntryAt i n k
  contents : ∀ {i n k}, fs.EntryAt i n k → st.contents n = fs.fileOf k

/-- The open file table holds the handles of the store. -/
structure HasHandles (fs : Fs) (st : FileStore CString) : Prop where
  bound : ∀ {h k}, fs.OpenOn h k → ∃ i n, fs.EntryAt i n k ∧
    st.handles h = some (n, (fs.openFileTable h).ofOffset)
  closed : ∀ {h}, (∀ {k}, ¬ fs.OpenOn h k) → st.handles h = none
  offset_le : ∀ {h k}, fs.OpenOn h k → (fs.openFileTable h).ofOffset ≤ (fs.inodeTable k).iSize

/-- Every block in use is that of the directory or of a non-empty file. -/
structure Owned (fs : Fs) : Prop where
  owner : ∀ {b}, b < fs.dataBlocks → fs.freeBlocks b = .taken → b = 0 ∨
    ∃ k, fs.IsFile k ∧ 0 < (fs.inodeTable k).iSize ∧ (fs.inodeTable k).iDataBlock = b

/-- The refinement relation. -/
structure Refines (params : TfsParams) (fs : Fs) (st : FileStore CString) : Prop where
  wf : fs.WellFormed
  fsParams : fs.fsParams = params
  small : params.blockSize ≤ intMax
  files : fs.HasFiles st
  handles : fs.HasHandles st
  owned : fs.Owned

variable {fs fs' : Fs} {st : FileStore CString} {h i j k b offset : Nat} {n : CString}
  {bs : List UInt8}

theorem length_fileOf : (fs.fileOf k).length = (fs.inodeTable k).iSize := length_load _ _ _

theorem fileOf_of_empty (hempty : (fs.inodeTable k).iSize = 0) : fs.fileOf k = [] := by
  rw [fileOf, hempty, load_zero]

/-- The bytes of a file depend on its inode and on its block. -/
theorem fileOf_congr (hp : fs'.fsParams = fs.fsParams) (hi : fs'.inodeTable k = fs.inodeTable k)
    (hm : ∀ a < (fs.inodeTable k).iSize,
      fs'.fsData ((fs.inodeTable k).iDataBlock.toNat * fs.blockSize + a) =
        fs.fsData ((fs.inodeTable k).iDataBlock.toNat * fs.blockSize + a)) :
    fs'.fileOf k = fs.fileOf k := by
  have hbs : fs'.blockSize = fs.blockSize := by rw [blockSize, hp]; rfl
  rw [fileOf, fileOf, hi, hbs]
  exact load_congr hm

theorem resetInode_fileOf (hj : j ≠ k) : (fs.resetInode k).fileOf j = fs.fileOf j :=
  fileOf_congr rfl (Function.update_of_ne hj _ _) fun _ _ => rfl

/-- An update of the memory that stays inside the directory entries leaves the files. -/
theorem Files.fileOf_of_entries (hf : fs.Files) (hk : fs.IsFile k) (hi : i < fs.maxDirEntries)
    (hp : fs'.fsParams = fs.fsParams) (hinode : fs'.inodeTable k = fs.inodeTable k)
    (hm : ∀ a, (i + 1) * sizeofDirEntry ≤ a → fs'.fsData a = fs.fsData a) :
    fs'.fileOf k = fs.fileOf k := by
  apply fileOf_congr hp hinode
  intro a ha
  obtain ⟨b, hb, hb0, _⟩ := (hf.block hk (by omega)).1
  rw [hb, Int.toNat_natCast]
  exact hm _ ((entry_end_le_block hi hb0).trans (Nat.le_add_right _ _))

theorem entryAt_congr (hp : fs'.fsParams = fs.fsParams) (hm : fs'.fsData = fs.fsData) :
    fs'.EntryAt i n k ↔ fs.EntryAt i n k :=
  entryAt_of_same hp fun _ _ _ => by rw [hm]

theorem EntryAt.keep (he : fs.EntryAt i n k) (hp : fs'.fsParams = fs.fsParams)
    (hm : fs'.fsData = fs.fsData) : fs'.EntryAt i n k := (entryAt_congr hp hm).mpr he

theorem HasFiles.congr {st' : FileStore CString} (hf : fs.HasFiles st)
    (hp : fs'.fsParams = fs.fsParams) (hm : fs'.fsData = fs.fsData)
    (hi : fs'.inodeTable = fs.inodeTable) (hn : st'.names = st.names)
    (hc : st'.contents = st.contents) : fs'.HasFiles st' where
  names := by
    intro n
    simp only [hn, entryAt_congr hp hm, hf.names]
  contents := by
    intro i n k he
    rw [hc, hf.contents ((entryAt_congr hp hm).mp he)]
    exact (fileOf_congr hp (by rw [hi]) fun _ _ => by rw [hm]).symm

/-- A file with an open handle is in use. -/
theorem HasHandles.inUse (hh : fs.HasHandles st) (hd : fs.Directory) (he : fs.EntryAt i n k)
    (ho : fs.OpenOn h k) : st.InUse n := by
  obtain ⟨j, n', he', heq⟩ := hh.bound ho
  have hij := hd.inumber_inj he he'
  subst hij
  rw [← he.name_unique he'] at heq
  exact ⟨h, _, heq⟩

/-! ### Opening, closing and moving a handle -/

theorem HasHandles.opened (hr : fs.HasHandles st) (he : fs.EntryAt i n k)
    (hlt : h < fs.maxOpenFiles) (hoff : offset ≤ (fs.inodeTable k).iSize) :
    (fs.opened h k offset).HasHandles (st.setHandle h (some (n, offset))) where
  bound := by
    intro h' k' ho
    rcases openOn_of_opened ho with ⟨rfl, rfl⟩ | ⟨hh, ho⟩
    · exact ⟨i, n, he.keep rfl rfl, by simp [FileStore.setHandle, Fs.opened]⟩
    · obtain ⟨j, n', he', heq⟩ := hr.bound ho
      refine ⟨j, n', he'.keep rfl rfl, ?_⟩
      simpa [FileStore.setHandle, Fs.opened, Function.update_of_ne hh] using heq
  closed := by
    intro h' hno
    have hh : h' ≠ h := by
      rintro rfl
      exact hno (k := k) ⟨hlt, by simp [Fs.opened], by simp [Fs.opened]⟩
    have hnone := hr.closed fun ho => hno (opened_openOn_of_ne hh ho)
    simpa [FileStore.setHandle, Function.update_of_ne hh] using hnone
  offset_le := by
    intro h' k' ho
    rcases openOn_of_opened ho with ⟨rfl, rfl⟩ | ⟨hh, ho⟩
    · simpa [Fs.opened] using hoff
    · simpa [Fs.opened, Function.update_of_ne hh] using hr.offset_le ho

theorem HasHandles.closed_handle (hr : fs.HasHandles st) :
    (fs.closed h).HasHandles (st.setHandle h none) where
  bound := by
    intro h' k' ho
    obtain ⟨hh, ho⟩ := closed_openOn_iff.mp ho
    obtain ⟨j, n', he', heq⟩ := hr.bound ho
    refine ⟨j, n', he'.keep rfl rfl, ?_⟩
    simpa [FileStore.setHandle, Fs.closed, Function.update_of_ne hh] using heq
  closed := by
    intro h' hno
    by_cases hh : h' = h
    · subst hh
      simp [FileStore.setHandle]
    · have hnone := hr.closed fun ho => hno (closed_openOn_iff.mpr ⟨hh, ho⟩)
      simpa [FileStore.setHandle, Function.update_of_ne hh] using hnone
  offset_le := fun ho => hr.offset_le (closed_openOn_iff.mp ho).2

theorem OpenOn.inode_unique {k' : Nat} (ho : fs.OpenOn h k) (ho' : fs.OpenOn h k') : k = k' := by
  have := ho.inumber.symm.trans ho'.inumber
  exact_mod_cast this

/-- The handles after handle `h` moves, and the size of its inode may have grown. -/
theorem HasHandles.moved (hr : fs.HasHandles st) (he : fs.EntryAt i n k) (ho : fs.OpenOn h k)
    (hopen : ∀ {h' k'}, fs'.OpenOn h' k' ↔ fs.OpenOn h' k')
    (hentry : ∀ {i n k}, fs.EntryAt i n k → fs'.EntryAt i n k)
    (hself : (fs'.openFileTable h).ofOffset = offset)
    (hother : ∀ {h'}, h' ≠ h → fs'.openFileTable h' = fs.openFileTable h')
    (hsize : ∀ {j}, (fs.inodeTable j).iSize ≤ (fs'.inodeTable j).iSize)
    (hoff : offset ≤ (fs'.inodeTable k).iSize) :
    fs'.HasHandles (st.setHandle h (some (n, offset))) where
  bound := by
    intro h' k' ho'
    rw [hopen] at ho'
    by_cases hh : h' = h
    · subst hh
      obtain rfl := ho.inode_unique ho'
      exact ⟨i, n, hentry he, by simp [FileStore.setHandle, hself]⟩
    · obtain ⟨j, n', he', heq⟩ := hr.bound ho'
      refine ⟨j, n', hentry he', ?_⟩
      simpa [FileStore.setHandle, hother hh, Function.update_of_ne hh] using heq
  closed := by
    intro h' hno
    have hh : h' ≠ h := by
      rintro rfl
      exact hno (hopen.mpr ho)
    have hnone := hr.closed fun ho' => hno (hopen.mpr ho')
    simpa [FileStore.setHandle, Function.update_of_ne hh] using hnone
  offset_le := by
    intro h' k' ho'
    rw [hopen] at ho'
    by_cases hh : h' = h
    · subst hh
      obtain rfl := ho.inode_unique ho'
      rw [hself]
      exact hoff
    · rw [hother hh]
      exact (hr.offset_le ho').trans hsize

theorem setOffset_openOn_iff {h' : Nat} :
    (fs.setOffset h offset).OpenOn h' k ↔ fs.OpenOn h' k :=
  ⟨fun ho => ho.congr rfl rfl setOffset_ofInumber.symm,
    fun ho => ho.congr rfl rfl setOffset_ofInumber⟩

theorem HasHandles.setOffset (hr : fs.HasHandles st) (he : fs.EntryAt i n k) (ho : fs.OpenOn h k)
    (hoff : offset ≤ (fs.inodeTable k).iSize) :
    (fs.setOffset h offset).HasHandles (st.setHandle h (some (n, offset))) := by
  refine hr.moved he ho setOffset_openOn_iff (fun he => he.keep rfl rfl) ?_ ?_ (le_refl _) hoff
  · simp [Fs.setOffset]
  · exact fun hh => Function.update_of_ne hh _ _

/-- The handles when no entry of the open file table changes. -/
theorem HasHandles.kept {st' : FileStore CString} (hr : fs.HasHandles st)
    (hopen : ∀ {h k}, fs'.OpenOn h k ↔ fs.OpenOn h k)
    (htable : fs'.openFileTable = fs.openFileTable) (hst : st'.handles = st.handles)
    (hentry : ∀ {h i n k}, fs.OpenOn h k → fs.EntryAt i n k → fs'.EntryAt i n k)
    (hsize : ∀ {h k}, fs.OpenOn h k → (fs.inodeTable k).iSize ≤ (fs'.inodeTable k).iSize) :
    fs'.HasHandles st' where
  bound := by
    intro h k ho
    rw [hopen] at ho
    obtain ⟨i, n, he, heq⟩ := hr.bound ho
    exact ⟨i, n, hentry ho he, by rw [hst, htable, heq]⟩
  closed := by
    intro h hno
    rw [hst]
    exact hr.closed fun ho => hno (hopen.mpr ho)
  offset_le := by
    intro h k ho
    rw [hopen] at ho
    rw [htable]
    exact (hr.offset_le ho).trans (hsize ho)

theorem openOn_iff_of_same (hp : fs'.fsParams = fs.fsParams)
    (ht : fs'.freeOpenFileEntries = fs.freeOpenFileEntries)
    (ho : fs'.openFileTable = fs.openFileTable) : fs'.OpenOn h k ↔ fs.OpenOn h k :=
  ⟨fun h => h.congr hp.symm (by rw [ht]) (by rw [ho]),
    fun h => h.congr hp (by rw [ht]) (by rw [ho])⟩

theorem openHandles_of_same (hp : fs'.fsParams = fs.fsParams)
    (ht : fs'.freeOpenFileEntries = fs.freeOpenFileEntries)
    (ho : fs'.openFileTable = fs.openFileTable) : fs'.openHandles = fs.openHandles := by
  ext i
  constructor
  · rintro ⟨h, k, heq, hopen⟩
    exact ⟨h, k, heq, (openOn_iff_of_same hp ht ho).mp hopen⟩
  · rintro ⟨h, k, heq, hopen⟩
    exact ⟨h, k, heq, (openOn_iff_of_same hp ht ho).mpr hopen⟩

/-! ### Truncating a file -/

/-- Different names have different inodes. -/
theorem Directory.name_ne {i' k' : Nat} {n' : CString} (hd : fs.Directory)
    (he : fs.EntryAt i n k) (he' : fs.EntryAt i' n' k') (hk : k' ≠ k) : n' ≠ n := by
  rintro rfl
  exact hk (hd.inumber_eq he' he)

theorem Directory.name_eq {i' : Nat} {n' : CString} (hd : fs.Directory)
    (he : fs.EntryAt i n k) (he' : fs.EntryAt i' n' k) : n' = n := by
  have hij := hd.inumber_inj he he'
  subst hij
  exact he'.name_unique he

theorem HasFiles.truncated (hf : fs.HasFiles st) (hd : fs.Directory) (he : fs.EntryAt i n k) :
    (fs.truncated k).HasFiles (st.setContents n []) where
  names := by
    intro n'
    simp only [entryAt_congr truncated_fsParams truncated_fsData]
    exact hf.names
  contents := by
    intro i' n' k' he'
    rw [entryAt_congr truncated_fsParams truncated_fsData] at he'
    by_cases hk : k' = k
    · subst hk
      rw [hd.name_eq he he', fileOf_of_empty truncated_inode_self]
      simp [FileStore.setContents]
    · have hcont : (st.setContents n []).contents n' = st.contents n' :=
        Function.update_of_ne (hd.name_ne he he' hk) _ _
      rw [hcont, hf.contents he']
      exact (fileOf_congr truncated_fsParams (truncated_inode_of_ne hk)
        fun _ _ => by rw [truncated_fsData]).symm

theorem HasHandles.truncated (hr : fs.HasHandles st) (hno : ∀ {h}, ¬ fs.OpenOn h k) :
    (fs.truncated k).HasHandles (st.setContents n []) := by
  refine hr.kept ?_ truncated_openFileTable rfl ?_ ?_
  · exact openOn_iff_of_same truncated_fsParams truncated_freeOpenFileEntries
      truncated_openFileTable
  · exact fun _ he => he.keep truncated_fsParams truncated_fsData
  · intro h j ho
    have hjk : j ≠ k := by
      rintro rfl
      exact hno ho
    rw [truncated_inode_of_ne hjk]

/-- A block that is in use after one was freed has the owner it had before. -/
theorem Owned.of_freed {block : Nat} (ho : fs.Owned)
    (hp : fs'.fsParams = fs.fsParams)
    (hfree : fs'.freeBlocks = Function.update fs.freeBlocks block .free)
    (hkeep : ∀ {j}, fs.IsFile j → 0 < (fs.inodeTable j).iSize →
      (fs.inodeTable j).iDataBlock ≠ block →
      fs'.IsFile j ∧ fs'.inodeTable j = fs.inodeTable j) : fs'.Owned := by
  constructor
  intro b hb ht
  rw [hfree] at ht
  have hbk : b ≠ block := by
    rintro rfl
    simp at ht
  rw [Function.update_of_ne hbk] at ht
  rw [dataBlocks, hp] at hb
  rcases ho.owner hb ht with h0 | ⟨j, hj, hpos, heq⟩
  · exact Or.inl h0
  · obtain ⟨hj', hi⟩ := hkeep hj hpos (by rw [heq]; exact_mod_cast hbk)
    exact Or.inr ⟨j, hj', by rwa [hi], by rwa [hi]⟩

/-- The blocks stay owned when no block is taken and every owner is kept. -/
theorem Owned.of_kept (ho : fs.Owned) (hp : fs'.fsParams = fs.fsParams)
    (hfree : fs'.freeBlocks = fs.freeBlocks)
    (hkeep : ∀ {j}, fs.IsFile j → 0 < (fs.inodeTable j).iSize → fs'.IsFile j ∧
      0 < (fs'.inodeTable j).iSize ∧ (fs'.inodeTable j).iDataBlock = (fs.inodeTable j).iDataBlock) :
    fs'.Owned := by
  constructor
  intro b hb ht
  rw [hfree] at ht
  rw [dataBlocks, hp] at hb
  rcases ho.owner hb ht with h0 | ⟨j, hj, hpos, heq⟩
  · exact Or.inl h0
  · obtain ⟨hj', hpos', hblock⟩ := hkeep hj hpos
    exact Or.inr ⟨j, hj', hpos', hblock.trans heq⟩

theorem Owned.truncated (ho : fs.Owned) (hf : fs.Files) (hk : fs.IsFile k) :
    (fs.truncated k).Owned := by
  by_cases hpos : 0 < (fs.inodeTable k).iSize
  · have heq : (fs.truncated k).freeBlocks =
        Function.update fs.freeBlocks (fs.inodeTable k).iDataBlock.toNat .free := by
      simp [Fs.truncated, hpos]
    apply ho.of_freed truncated_fsParams heq
    intro j hj _ hne
    obtain ⟨b, hb, _, _⟩ := (hf.block hk hpos).1
    have hjk : j ≠ k := by
      rintro rfl
      rw [hb] at hne
      exact hne rfl
    exact ⟨hj.congr truncated_fsParams truncated_freeinodeTs, truncated_inode_of_ne hjk⟩
  · have heq : fs.truncated k = fs := by simp [Fs.truncated, hpos]
    rwa [heq]

/-! ### Creating and removing a file -/

theorem IsFile.ne_of_free {k' : Nat} (hk : fs.IsFile k') (hfree : fs.freeinodeTs k = .free) :
    k' ≠ k := by
  rintro rfl
  have := hk.taken
  rw [hfree] at this
  cases this

theorem HasFiles.resetInode (hf : fs.HasFiles st) (hd : fs.Directory)
    (hfree : fs.freeinodeTs k = .free) : (fs.resetInode k).HasFiles st where
  names := by
    intro n
    rw [hf.names]
    exact ⟨fun ⟨i, k', he⟩ => ⟨i, k', he.keep rfl rfl⟩, fun ⟨i, k', he⟩ => ⟨i, k', he.keep rfl rfl⟩⟩
  contents := by
    intro i n k' he
    have he' : fs.EntryAt i n k' := he.keep rfl rfl
    have hk := (hd.isFile he').ne_of_free hfree
    rw [hf.contents he', resetInode_fileOf hk]

/-- The creation of a file leaves the bytes of the others. -/
theorem CanCreate.fileOf (hc : fs.CanCreate k i n) (hf : fs.Files) (hj : fs.IsFile j) :
    (fs.createdFile k i n).fileOf j = fs.fileOf j := by
  refine hf.fileOf_of_entries hj hc.index rfl ?_ ?_
  · exact Function.update_of_ne (hj.ne_of_free hc.inode_free) _ _
  · exact fun a ha => rewrite_apply_of_ge (length_nameField hc.short) ha

theorem HasFiles.createdFile (hf : fs.HasFiles st) (wf : fs.WellFormed)
    (hc : fs.CanCreate k i n) : (fs.createdFile k i n).HasFiles (st.create n) where
  names := by
    intro n'
    simp only [FileStore.create, Finset.mem_insert, hc.entryAt_iff wf.geometry, hf.names]
    constructor
    · rintro (rfl | ⟨j, k', he⟩)
      · exact ⟨i, k, Or.inl ⟨rfl, rfl, rfl⟩⟩
      · have hj : j ≠ i := by
          rintro rfl
          exact he.inumber_ne hc.entry_free
        exact ⟨j, k', Or.inr ⟨hj, he⟩⟩
    · rintro ⟨j, k', ⟨_, rfl, _⟩ | ⟨_, he⟩⟩
      · exact Or.inl rfl
      · exact Or.inr ⟨j, k', he⟩
  contents := by
    intro j n' k' he
    rcases (hc.entryAt_iff wf.geometry).mp he with ⟨rfl, rfl, rfl⟩ | ⟨hj, he'⟩
    · rw [fileOf_of_empty (by simp [Fs.createdFile])]
      simp [FileStore.create]
    · have hn : n' ≠ n := by
        rintro rfl
        exact hc.absent he'
      have hcont : (st.create n).contents n' = st.contents n' := Function.update_of_ne hn _ _
      rw [hcont, hf.contents he', hc.fileOf wf.files (wf.directory.isFile he')]

theorem HasFiles.removedFile (hf : fs.HasFiles st) (wf : fs.WellFormed)
    (he : fs.EntryAt i n k) : (fs.removedFile k i).HasFiles (st.remove n) where
  names := by
    intro n'
    simp only [FileStore.remove, Finset.mem_erase, removedFile_entryAt_iff, hf.names]
    constructor
    · rintro ⟨hn, j, k', he'⟩
      refine ⟨j, k', ?_, he'⟩
      rintro rfl
      exact hn (he'.name_unique he)
    · rintro ⟨j, k', hj, he'⟩
      refine ⟨?_, j, k', he'⟩
      rintro rfl
      exact hj (wf.directory.name_inj he' he)
  contents := by
    intro j n' k' he'
    obtain ⟨hj, he'⟩ := removedFile_entryAt_iff.mp he'
    have hk' := wf.directory.isFile he'
    have hcont : (st.remove n).contents = st.contents := rfl
    have hfile : (fs.removedFile k i).fileOf k' = fs.fileOf k' :=
      wf.files.fileOf_of_entries hk' he.index rfl rfl
        fun a ha => rewrite_apply_of_ge length_zeroField ha
    rw [hcont, hf.contents he', hfile]

theorem HasHandles.createdFile (hr : fs.HasHandles st) (wf : fs.WellFormed)
    (hc : fs.CanCreate k i n) : (fs.createdFile k i n).HasHandles (st.create n) := by
  refine hr.kept (openOn_iff_of_same rfl rfl rfl) rfl rfl ?_ ?_
  · intro h j n' k' _ he
    have hj : j ≠ i := by
      rintro rfl
      exact he.inumber_ne hc.entry_free
    exact (hc.entryAt_of_ne hj).mpr he
  · intro h k' ho
    obtain ⟨j, n', he, _⟩ := hr.bound ho
    have hk := hc.inumber_ne wf.directory he
    exact (congrArg Inode.iSize (Function.update_of_ne hk _ _)).ge

theorem HasHandles.resetInode (hr : fs.HasHandles st) (hd : fs.Directory)
    (hfree : fs.freeinodeTs k = .free) : (fs.resetInode k).HasHandles st := by
  refine hr.kept (openOn_iff_of_same rfl rfl rfl) rfl rfl (fun _ he => he.keep rfl rfl) ?_
  intro h k' ho
  obtain ⟨j, n', he, _⟩ := hr.bound ho
  have hk := (hd.isFile he).ne_of_free hfree
  exact (congrArg Inode.iSize (Function.update_of_ne hk _ _)).ge

theorem HasHandles.removedFile (hr : fs.HasHandles st) (he : fs.EntryAt i n k)
    (hno : ∀ {h}, ¬ fs.OpenOn h k) :
    (fs.removedFile k i).HasHandles (st.remove n) := by
  refine hr.kept (openOn_iff_of_same rfl rfl rfl) rfl rfl ?_ fun _ => le_refl _
  intro h j n' k' ho he'
  refine removedFile_entryAt_iff.mpr ⟨?_, he'⟩
  rintro rfl
  rw [he'.inumber_unique he] at ho
  exact hno ho

theorem Owned.createdFile (ho : fs.Owned) (hr : fs.Root) (hc : fs.CanCreate k i n) :
    (fs.createdFile k i n).Owned := by
  refine ho.of_kept rfl rfl ?_
  intro j hj hpos
  have heq : (fs.createdFile k i n).inodeTable j = fs.inodeTable j :=
    Function.update_of_ne (hj.ne_of_free hc.inode_free) _ _
  rw [heq]
  exact ⟨(hc.isFile_iff hr).mpr (Or.inr hj), hpos, rfl⟩

theorem Owned.resetInode (ho : fs.Owned) (hfree : fs.freeinodeTs k = .free) :
    (fs.resetInode k).Owned := by
  refine ho.of_kept rfl rfl ?_
  intro j hj hpos
  have heq : (fs.resetInode k).inodeTable j = fs.inodeTable j :=
    Function.update_of_ne (hj.ne_of_free hfree) _ _
  rw [heq]
  exact ⟨hj.congr rfl rfl, hpos, rfl⟩

theorem Owned.removedFile (ho : fs.Owned) (hf : fs.Files) (hk : fs.IsFile k) :
    (fs.removedFile k i).Owned := by
  by_cases hpos : 0 < (fs.inodeTable k).iSize
  · have heq : (fs.removedFile k i).freeBlocks =
        Function.update fs.freeBlocks (fs.inodeTable k).iDataBlock.toNat .free := if_pos hpos
    refine ho.of_freed rfl heq ?_
    intro j hj _ hne
    obtain ⟨b, hb, _, _⟩ := (hf.block hk hpos).1
    have hjk : j ≠ k := by
      rintro rfl
      rw [hb] at hne
      exact hne rfl
    exact ⟨removedFile_isFile_iff.mpr ⟨hjk, hj⟩, rfl⟩
  · have heq : (fs.removedFile k i).freeBlocks = fs.freeBlocks := if_neg hpos
    refine ho.of_kept rfl heq ?_
    intro j hj hjpos
    have hjk : j ≠ k := by
      rintro rfl
      exact hpos hjpos
    exact ⟨removedFile_isFile_iff.mpr ⟨hjk, hj⟩, hjpos, rfl⟩

/-! ### Writing to a file -/

theorem HasFiles.allocated (hf : fs.HasFiles st) (hempty : (fs.inodeTable k).iSize = 0) :
    (fs.allocated k b).HasFiles st where
  names := by
    intro n
    rw [hf.names]
    exact ⟨fun ⟨i, k', he⟩ => ⟨i, k', he.keep rfl rfl⟩, fun ⟨i, k', he⟩ => ⟨i, k', he.keep rfl rfl⟩⟩
  contents := by
    intro i n k' he
    have he' : fs.EntryAt i n k' := he.keep rfl rfl
    rw [hf.contents he']
    by_cases hk : k' = k
    · subst hk
      rw [fileOf_of_empty hempty, fileOf_of_empty (allocated_inode_iSize.trans hempty)]
    · have hfile : (fs.allocated k b).fileOf k' = fs.fileOf k' :=
        fileOf_congr rfl (Function.update_of_ne hk _ _) fun _ _ => rfl
      rw [hfile]

theorem HasHandles.allocated (hr : fs.HasHandles st) : (fs.allocated k b).HasHandles st :=
  hr.kept (openOn_iff_of_same rfl rfl rfl) rfl rfl (fun _ he => he.keep rfl rfl)
    fun _ => allocated_inode_iSize.ge

/-- A block ends before the next one begins. -/
theorem block_end_le {c : Nat} (size : Nat) (hlt : b < c) : b * size + size ≤ c * size := by
  rw [← Nat.succ_mul]
  exact Nat.mul_le_mul_right _ hlt

/-- A write leaves the bytes of a file with another inode and another block. -/
theorem written_fileOf_of_block_ne (hf : fs.Files) (hw : fs.CanWrite h k bs) (hj : fs.IsFile j)
    (hjk : j ≠ k) (hblock : 0 < (fs.inodeTable j).iSize →
      (fs.inodeTable j).iDataBlock ≠ (fs.inodeTable k).iDataBlock) :
    (fs.written h k bs).fileOf j = fs.fileOf j := by
  refine fileOf_congr rfl (written_inode_of_ne hjk) ?_
  intro a ha
  have hpos : 0 < (fs.inodeTable j).iSize := by omega
  obtain ⟨b, hb, _, _⟩ := hw.block
  obtain ⟨c, hc, _, _⟩ := (hf.block hj hpos).1
  have hne : c ≠ b := by
    rintro rfl
    exact hblock hpos (hc.trans hb.symm)
  have hsize := hf.size_le hj
  have hfits := hw.fits
  rw [hc, Int.toNat_natCast]
  simp only [written, handleAddr, hb, Int.toNat_natCast]
  rcases Nat.lt_or_gt_of_ne hne with hlt | hlt
  · have hend := block_end_le fs.blockSize hlt
    exact store_of_lt (by omega)
  · have hend := block_end_le fs.blockSize hlt
    exact store_of_ge (by omega)

theorem written_fileOf_of_ne (hf : fs.Files) (hw : fs.CanWrite h k bs) (hk : fs.IsFile k)
    (hj : fs.IsFile j) (hjk : j ≠ k) : (fs.written h k bs).fileOf j = fs.fileOf j :=
  written_fileOf_of_block_ne hf hw hj hjk fun hpos => (hw.owned hk).2 hj hpos hjk

theorem written_fileOf_self (hoff : (fs.openFileTable h).ofOffset ≤ (fs.inodeTable k).iSize) :
    (fs.written h k bs).fileOf k =
      splice (fs.fileOf k) (fs.openFileTable h).ofOffset bs := by
  rw [fileOf, written_inode_self]
  exact load_store_splice hoff

theorem HasFiles.written (hf : fs.HasFiles st) (wf : fs.WellFormed) (hw : fs.CanWrite h k bs)
    (he : fs.EntryAt i n k) (hoff : (fs.openFileTable h).ofOffset ≤ (fs.inodeTable k).iSize) :
    (fs.written h k bs).HasFiles
      (st.setContents n (splice (st.contents n) (fs.openFileTable h).ofOffset bs)) := by
  have hback : ∀ {i n k'}, (fs.written h k bs).EntryAt i n k' → fs.EntryAt i n k' := fun he =>
    he.congr rfl (hw.sameEntry he.index).symm
  have hk := wf.directory.isFile he
  constructor
  · intro n'
    apply hf.names.trans
    constructor
    · rintro ⟨i, k', he'⟩
      exact ⟨i, k', he'.congr rfl (hw.sameEntry he'.index)⟩
    · rintro ⟨i, k', he'⟩
      exact ⟨i, k', hback he'⟩
  · intro i' n' k' he'
    replace he' := hback he'
    by_cases hkk : k' = k
    · subst hkk
      rw [wf.directory.name_eq he he', written_fileOf_self hoff, ← hf.contents he]
      simp [FileStore.setContents]
    · have hcont : (st.setContents n (splice (st.contents n) (fs.openFileTable h).ofOffset
          bs)).contents n' = st.contents n' :=
        Function.update_of_ne (wf.directory.name_ne he he' hkk) _ _
      rw [hcont, hf.contents he',
        written_fileOf_of_ne wf.files hw hk (wf.directory.isFile he') hkk]

theorem written_openOn_iff {h' k' : Nat} :
    (fs.written h k bs).OpenOn h' k' ↔ fs.OpenOn h' k' :=
  ⟨fun ho => ho.congr rfl rfl written_ofInumber.symm, fun ho => ho.congr rfl rfl written_ofInumber⟩

theorem written_iSize_ge : (fs.inodeTable j).iSize ≤ ((fs.written h k bs).inodeTable j).iSize := by
  by_cases hjk : j = k
  · subst hjk
    rw [written_inode_self]
    exact le_max_left _ _
  · rw [written_inode_of_ne hjk]

theorem HasHandles.written (hr : fs.HasHandles st) (hw : fs.CanWrite h k bs)
    (he : fs.EntryAt i n k) :
    (fs.written h k bs).HasHandles
      (st.setHandle h (some (n, (fs.openFileTable h).ofOffset + bs.length))) := by
  refine hr.moved he hw.openOn written_openOn_iff ?_ ?_ ?_ written_iSize_ge ?_
  · exact fun he => he.congr rfl (hw.sameEntry he.index)
  · simp [Fs.written]
  · exact fun hh => Function.update_of_ne hh _ _
  · rw [written_inode_self]
    exact le_max_right _ _

theorem Owned.written (ho : fs.Owned) : (fs.written h k bs).Owned := by
  refine ho.of_kept rfl rfl ?_
  intro j hj hpos
  exact ⟨hj.congr rfl rfl, hpos.trans_le written_iSize_ge, written_iDataBlock⟩

/-- A block given to an empty file is owned once bytes are written to it. -/
theorem Owned.fresh (ho : fs.Owned) (hk : fs.IsFile k) (hempty : (fs.inodeTable k).iSize = 0)
    (hbs : 0 < bs.length) : ((fs.allocated k b).written h k bs).Owned := by
  constructor
  intro c hc ht
  by_cases hcb : c = b
  · subst hcb
    refine Or.inr ⟨k, hk.congr rfl rfl, ?_, ?_⟩
    · rw [written_inode_self]
      exact lt_max_of_lt_right (by omega)
    · rw [written_iDataBlock]
      simp [Fs.allocated]
  · have ht' : fs.freeBlocks c = .taken := by
      simpa [Fs.written, Fs.allocated, Function.update_of_ne hcb] using ht
    rcases ho.owner hc ht' with h0 | ⟨j, hj, hpos, heq⟩
    · exact Or.inl h0
    · have hjk : j ≠ k := by
        rintro rfl
        omega
      have hi : ((fs.allocated k b).written h k bs).inodeTable j = fs.inodeTable j :=
        (written_inode_of_ne hjk).trans (Function.update_of_ne hjk _ _)
      exact Or.inr ⟨j, hj.congr rfl rfl, by rwa [hi], by rwa [hi]⟩

end Fs

end MessageBroker.Tfs
