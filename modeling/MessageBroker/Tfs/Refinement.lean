import MessageBroker.Tfs.Reference

/-!
# TecnicoFS refines the reference store

The sizes of the store count the entries in use of the inode table, of the directory
and of the block table, so that a search of a table fails exactly at the limit that
the store states. With that every call answers as the store does.
-/

namespace MessageBroker.Tfs

open Bytes Table Transition

namespace Fs

variable {fs fs' : Fs} {st : FileStore CString} {params : TfsParams} {h i j k b : Nat}
  {n : CString}

/-! ### Counting -/

/-- The inodes in use for files. -/
def fileInodes (fs : Fs) : Finset Nat :=
  (indices (fun k => fs.freeinodeTs k == .taken) fs.inodeTableSize).erase 0

theorem mem_fileInodes : k ∈ fs.fileInodes ↔ fs.IsFile k := by
  simp only [fileInodes, Finset.mem_erase, mem_indices, beq_iff_eq]
  constructor
  · rintro ⟨h0, hlt, ht⟩
    exact ⟨Nat.pos_of_ne_zero h0, hlt, ht⟩
  · intro hk
    exact ⟨hk.pos.ne', hk.valid, hk.taken⟩

theorem card_inodes (wf : fs.WellFormed) (hf : fs.HasFiles st) :
    (indices (fun k => fs.freeinodeTs k == .taken) fs.inodeTableSize).card =
      st.names.card + 1 := by
  have hroot : 0 ∈ indices (fun k => fs.freeinodeTs k == .taken) fs.inodeTableSize := by
    simp [wf.root.inode_valid, wf.root.inode_taken]
  have hcard : st.names.card = fs.fileInodes.card := by
    refine card_eq_of_matching (fun n k => ∃ i, fs.EntryAt i n k) ?_ ?_ ?_ ?_
    · intro n hn
      obtain ⟨i, k, he⟩ := hf.names.mp hn
      exact ⟨k, mem_fileInodes.mpr (wf.directory.isFile he), i, he⟩
    · intro k hk
      obtain ⟨i, n, he⟩ := wf.directory.total (mem_fileInodes.mp hk)
      exact ⟨n, hf.names.mpr ⟨i, k, he⟩, i, he⟩
    · rintro n n' k ⟨i, he⟩ ⟨j, he'⟩
      exact wf.directory.name_eq he' he
    · rintro n k k' ⟨i, he⟩ ⟨j, he'⟩
      exact wf.directory.inumber_eq he he'
  rw [hcard, fileInodes, Finset.card_erase_add_one hroot]

theorem card_entries (wf : fs.WellFormed) (hf : fs.HasFiles st) :
    (indices (fun i => fs.dInumber 0 i != -1) fs.maxDirEntries).card = st.names.card := by
  symm
  refine card_eq_of_matching (fun n i => ∃ k, fs.EntryAt i n k) ?_ ?_ ?_ ?_
  · intro n hn
    obtain ⟨i, k, he⟩ := hf.names.mp hn
    exact ⟨i, mem_indices.mpr ⟨he.index, by simpa using he.inumber_ne⟩, k, he⟩
  · intro i hi
    obtain ⟨hlt, hne⟩ := mem_indices.mp hi
    obtain ⟨n, k, he⟩ := wf.directory.named i hlt (by simpa using hne)
    exact ⟨n, hf.names.mpr ⟨i, k, he⟩, k, he⟩
  · rintro n n' i ⟨k, he⟩ ⟨k', he'⟩
    exact he.name_unique he'
  · rintro n i j ⟨k, he⟩ ⟨k', he'⟩
    exact wf.directory.name_inj he he'

theorem card_blocks (wf : fs.WellFormed) (hf : fs.HasFiles st) (ho : fs.Owned) :
    (indices (fun b => fs.freeBlocks b == .taken) fs.dataBlocks).card =
      st.nonempty.card + 1 := by
  have hroot : 0 ∈ indices (fun b => fs.freeBlocks b == .taken) fs.dataBlocks := by
    simp [wf.root.block_valid, wf.root.block_taken]
  have hlen : ∀ {i n k}, fs.EntryAt i n k → (st.contents n).length = (fs.inodeTable k).iSize := by
    intro i n k he
    rw [hf.contents he, length_fileOf]
  -- every block in use but that of the root has one owner, a file that is not empty
  have hcard : st.nonempty.card =
      ((indices (fun b => fs.freeBlocks b == .taken) fs.dataBlocks).erase 0).card := by
    refine card_eq_of_matching (fun n b => ∃ i k, fs.EntryAt i n k ∧ 0 < (fs.inodeTable k).iSize ∧
      (fs.inodeTable k).iDataBlock = b) ?_ ?_ ?_ ?_
    · intro n hn
      obtain ⟨hn, hpos⟩ := FileStore.mem_nonempty.mp hn
      obtain ⟨i, k, he⟩ := hf.names.mp hn
      rw [hlen he] at hpos
      obtain ⟨⟨b, hb, hb0, hlt⟩, ht⟩ := wf.files.block (wf.directory.isFile he) hpos
      rw [hb, Int.toNat_natCast] at ht
      refine ⟨b, ?_, i, k, he, hpos, hb⟩
      simp [hb0.ne', hlt, ht]
    · intro b hb
      simp only [Finset.mem_erase, mem_indices, beq_iff_eq] at hb
      obtain ⟨hb0, hlt, ht⟩ := hb
      rcases ho.owner hlt ht with h0 | ⟨k, hk, hpos, heq⟩
      · exact absurd h0 hb0
      · obtain ⟨i, n, he⟩ := wf.directory.total hk
        refine ⟨n, ?_, i, k, he, hpos, heq⟩
        exact FileStore.mem_nonempty.mpr ⟨hf.names.mpr ⟨i, k, he⟩, by rwa [hlen he]⟩
    · rintro n n' b ⟨i, k, he, hpos, heq⟩ ⟨j, k', he', hpos', heq'⟩
      have hkk := wf.files.block_inj (wf.directory.isFile he) (wf.directory.isFile he') hpos hpos'
        (heq.trans heq'.symm)
      subst hkk
      exact wf.directory.name_eq he' he
    · rintro n b c ⟨i, k, he, _, heq⟩ ⟨j, k', he', _, heq'⟩
      obtain rfl := wf.directory.inumber_eq he he'
      exact_mod_cast heq.symm.trans heq'
  rw [hcard, Finset.card_erase_add_one hroot]

theorem HasFiles.card_lt_of_free_inode (hf : fs.HasFiles st) (wf : fs.WellFormed)
    (hk : k < fs.inodeTableSize) (hfree : fs.freeinodeTs k = .free) :
    st.names.card < fs.inodeTableSize - 1 := by
  have hlt := card_indices_lt (p := fun k => fs.freeinodeTs k == .taken) hk (by rw [hfree]; rfl)
  rw [card_inodes wf hf] at hlt
  omega

theorem HasFiles.card_of_full_inodes (hf : fs.HasFiles st) (wf : fs.WellFormed)
    (hfull : ∀ k < fs.inodeTableSize, fs.freeinodeTs k = .taken) :
    st.names.card = fs.inodeTableSize - 1 := by
  have hcard := card_indices_of_forall (p := fun k => fs.freeinodeTs k == .taken)
    fun k hk => by simpa using hfull k hk
  rw [card_inodes wf hf] at hcard
  omega

theorem HasFiles.card_lt_of_free_entry (hf : fs.HasFiles st) (wf : fs.WellFormed)
    (hi : i < fs.maxDirEntries) (hfree : fs.dInumber 0 i = -1) :
    st.names.card < fs.maxDirEntries := by
  rw [← card_entries wf hf]
  exact card_indices_lt hi (by simpa using hfree)

theorem HasFiles.card_of_full_entries (hf : fs.HasFiles st) (wf : fs.WellFormed)
    (hfull : ∀ i < fs.maxDirEntries, fs.dInumber 0 i ≠ -1) :
    st.names.card = fs.maxDirEntries := by
  rw [← card_entries wf hf]
  exact card_indices_of_forall fun i hi => by simpa using hfull i hi

theorem HasFiles.nonempty_lt_of_free_block (hf : fs.HasFiles st) (wf : fs.WellFormed)
    (ho : fs.Owned) (hb : b < fs.dataBlocks) (hfree : fs.freeBlocks b = .free) :
    st.nonempty.card < fs.dataBlocks - 1 := by
  have hlt := card_indices_lt (p := fun b => fs.freeBlocks b == .taken) hb (by rw [hfree]; rfl)
  rw [card_blocks wf hf ho] at hlt
  omega

theorem HasFiles.nonempty_of_full_blocks (hf : fs.HasFiles st) (wf : fs.WellFormed)
    (ho : fs.Owned) (hfull : ∀ b < fs.dataBlocks, fs.freeBlocks b = .taken) :
    st.nonempty.card = fs.dataBlocks - 1 := by
  have hcard := card_indices_of_forall (p := fun b => fs.freeBlocks b == .taken)
    fun b hb => by simpa using hfull b hb
  rw [card_blocks wf hf ho] at hcard
  omega

/-! ### Opening and closing -/

theorem Refines.addsHandle {offset : Nat} {r : Int} (hr : Refines params fs st)
    (he : fs.EntryAt i n k) (hoff : offset ≤ (fs.inodeTable k).iSize)
    (ha : AddsHandle fs k offset r fs') :
    ∃ st', st.openHandle (limits params) n offset = (r, st') ∧ Refines params fs' st' := by
  obtain ⟨wf, rfl, small, hf, hh, ho⟩ := hr
  cases ha with
  | full hfull =>
    refine ⟨st, FileStore.openHandle_full ?_, ⟨wf, rfl, small, hf, hh, ho⟩⟩
    intro h hlt
    obtain ⟨k', ho'⟩ := wf.handles.inode h hlt (hfull h hlt)
    obtain ⟨_, _, _, heq⟩ := hh.bound ho'
    rw [heq]
    exact Option.some_ne_none _
  | slot h hlt hfree hlow =>
    refine ⟨_, FileStore.openHandle_slot hlt ?_ ?_, ?_⟩
    · apply hh.closed
      intro k' ho'
      have := ho'.taken
      rw [hfree] at this
      cases this
    · intro h' hlt'
      obtain ⟨k', ho'⟩ := wf.handles.inode h' (hlt'.trans hlt) (hlow h' hlt')
      obtain ⟨_, _, _, heq⟩ := hh.bound ho'
      rw [heq]
      exact Option.some_ne_none _
    · exact {
        wf := wf.opened (wf.directory.isFile he)
        fsParams := rfl
        small := small
        files := hf.congr rfl rfl rfl rfl rfl
        handles := hh.opened he hlt hoff
        owned := ho.of_kept rfl rfl fun hj hpos => ⟨hj.congr rfl rfl, hpos, rfl⟩ }

/-- A file that is not in use has no open handle. -/
theorem Refines.not_open (hr : Refines params fs st) (he : fs.EntryAt i n k)
    (hno : ¬ st.InUse n) : ¬ fs.OpenOn h k :=
  fun ho => hno (hr.handles.inUse hr.wf.directory he ho)

theorem Refines.afterTrunc {mode : FileMode} (hr : Refines params fs st)
    (he : fs.EntryAt i n k) (hno : mode.trunc = true → ¬ st.InUse n) :
    Refines params (fs.afterTrunc mode k) (if mode.trunc then st.setContents n [] else st) := by
  cases ht : mode.trunc with
  | false =>
    have heq : fs.afterTrunc mode k = fs := by simp [Fs.afterTrunc, ht]
    rwa [heq]
  | true =>
    have heq : fs.afterTrunc mode k = fs.truncated k := by simp [Fs.afterTrunc, ht]
    have hk := hr.wf.directory.isFile he
    rw [heq]
    exact {
      wf := hr.wf.truncated hk
      fsParams := truncated_fsParams.trans hr.fsParams
      small := hr.small
      files := hr.files.truncated hr.wf.directory he
      handles := hr.handles.truncated (hr.not_open he (hno ht))
      owned := hr.owned.truncated hr.wf.files hk }

theorem Refines.createdFile (hr : Refines params fs st) (hc : fs.CanCreate k i n) :
    Refines params (fs.createdFile k i n) (st.create n) where
  wf := hr.wf.createdFile hc
  fsParams := hr.fsParams
  small := hr.small
  files := hr.files.createdFile hr.wf hc
  handles := hr.handles.createdFile hr.wf hc
  owned := hr.owned.createdFile hr.wf.root hc

theorem Refines.resetInode (hr : Refines params fs st) (hfree : fs.freeinodeTs k = .free) :
    Refines params (fs.resetInode k) st where
  wf := hr.wf.resetInode hfree
  fsParams := hr.fsParams
  small := hr.small
  files := hr.files.resetInode hr.wf.directory hfree
  handles := hr.handles.resetInode hr.wf.directory hfree
  owned := hr.owned.resetInode hfree

theorem Refines.removedFile (hr : Refines params fs st) (he : fs.EntryAt i n k)
    (hno : ¬ st.InUse n) : Refines params (fs.removedFile k i) (st.remove n) where
  wf := hr.wf.removedFile he
  fsParams := hr.fsParams
  small := hr.small
  files := hr.files.removedFile hr.wf he
  handles := hr.handles.removedFile he (hr.not_open he hno)
  owned := hr.owned.removedFile hr.wf.files (hr.wf.directory.isFile he)

theorem Refines.absent (hr : Refines params fs st) (hno : ∀ {i k}, ¬ fs.EntryAt i n k) :
    n ∉ st.names := by
  intro hn
  obtain ⟨i, k, he⟩ := hr.files.names.mp hn
  exact hno he

theorem Refines.length_contents (hr : Refines params fs st) (he : fs.EntryAt i n k) :
    (st.contents n).length = (fs.inodeTable k).iSize := by
  rw [hr.files.contents he, length_fileOf]

theorem Refines.card_lt_of_canCreate (hr : Refines params fs st) (hcan : fs.CanCreate k i n) :
    st.names.card < (limits params).files := by
  rw [← hr.fsParams]
  exact lt_min (hr.files.card_lt_of_free_inode hr.wf hcan.inode_valid hcan.inode_free)
    (hr.files.card_lt_of_free_entry hr.wf hcan.index hcan.entry_free)

/-- `tfs_open` answers as the store. -/
theorem Refines.opens {path : Option CString} {mode : FileMode} {r : Int}
    (hr : Refines params fs st) (hok : Admitted st (.open path mode))
    (ho : Opens fs path mode r fs') :
    ∃ st', refOpen params st path mode = (r, st') ∧ Refines params fs' st' := by
  cases ho with
  | invalid hv =>
    cases path with
    | none => exact ⟨st, rfl, hr⟩
    | some p => exact ⟨st, by simp [refOpen, hv], hr⟩
  | @existing p i k r fs' hp hv he ha =>
    subst hp
    -- the file is truncated first, then a handle is added
    have hr' := hr.afterTrunc he fun ht => hok ht p rfl hv
    have he' : (fs.afterTrunc mode k).EntryAt i p.tail k :=
      he.keep afterTrunc_fsParams (by unfold Fs.afterTrunc; split; exact truncated_fsData; rfl)
    have hoff : (fs.afterTrunc mode k).startOffset mode k =
        if mode.append then
          ((if mode.trunc then st.setContents p.tail [] else st).contents p.tail).length
        else 0 := by
      rw [hr'.length_contents he', startOffset]
    have hle : (fs.afterTrunc mode k).startOffset mode k ≤
        ((fs.afterTrunc mode k).inodeTable k).iSize := by
      unfold startOffset
      split
      · exact le_refl _
      · exact Nat.zero_le _
    obtain ⟨st', heq, hr''⟩ := hr'.addsHandle he' hle ha
    refine ⟨st', ?_, hr''⟩
    have hmem : p.tail ∈ st.names := hr.files.names.mpr ⟨i, k, he⟩
    rw [hoff] at heq
    simp only [refOpen, hv, not_true_eq_false, if_false, hmem, if_true]
    exact heq
  | absent hp hv hno hc =>
    subst hp
    exact ⟨st, by simp [refOpen, hv, hr.absent hno, hc], hr⟩
  | noInode hp hv hno hc hfull =>
    subst hp
    -- all inodes but that of the root belong to files
    have hcard := hr.files.card_of_full_inodes hr.wf hfull
    refine ⟨st, ?_, hr⟩
    have hlim : ¬ st.names.card < (limits params).files := by
      rw [hcard, ← hr.fsParams]
      exact not_lt.mpr (min_le_left _ _)
    simp [refOpen, hv, hr.absent hno, hlim]
  | @noEntry p k hp hv hno hc hlt hfree hfail =>
    subst hp
    refine ⟨st, ?_, hr.resetInode hfree⟩
    -- the inode is given back; the store refuses for the length or for the number of files
    rcases hfail with hlong | hfull
    · simp [refOpen, hv, hr.absent hno, not_lt.mpr hlong, -CString.length_tail]
    · have hcard := hr.files.card_of_full_entries hr.wf hfull
      have hlim : ¬ st.names.card < (limits params).files := by
        rw [hcard, ← hr.fsParams]
        exact not_lt.mpr (min_le_right _ _)
      simp [refOpen, hv, hr.absent hno, hlim]
  | @created p r fs' k i hp hv hc hcan ha =>
    subst hp
    have hr' := hr.createdFile hcan
    have he := hcan.entryAt_self hr.wf.geometry
    obtain ⟨st', heq, hr''⟩ := hr'.addsHandle he (Nat.zero_le _) ha
    refine ⟨st', ?_, hr''⟩
    have hlim := hr.card_lt_of_canCreate hcan
    simp [refOpen, hv, hr.absent hcan.absent, hc, hcan.short, hlim, heq, -CString.length_tail]

/-- The handle of the store that an open handle designates. -/
theorem Refines.handle (hr : Refines params fs st) (ho : fs.OpenOn h k) :
    ∃ i n, fs.EntryAt i n k ∧ st.handles h = some (n, (fs.openFileTable h).ofOffset) ∧
      st.handle (limits params) h = some (h, n, (fs.openFileTable h).ofOffset) := by
  obtain ⟨i, n, he, heq⟩ := hr.handles.bound ho
  refine ⟨i, n, he, heq, FileStore.handle_eq_some ?_ heq⟩
  have := ho.valid
  rwa [maxOpenFiles, hr.fsParams] at this

theorem Refines.handle_none {fhandle : Int} (hr : Refines params fs st)
    (hno : ∀ {h k : Nat}, fhandle = h → ¬ fs.OpenOn h k) :
    st.handle (limits params) fhandle = none :=
  FileStore.handle_eq_none fun _ heq _ => hr.handles.closed (hno heq)

/-- `tfs_close` answers as the store. -/
theorem Refines.closes {fhandle r : Int} (hr : Refines params fs st)
    (hc : Closes fs fhandle r fs') :
    ∃ st', st.close (limits params) fhandle = (r, st') ∧ Refines params fs' st' := by
  cases hc with
  | invalid hno => exact ⟨st, by simp [FileStore.close, hr.handle_none hno], hr⟩
  | closed h k heq ho =>
    subst heq
    obtain ⟨i, n, he, _, hst⟩ := hr.handle ho
    refine ⟨st.setHandle h none, by simp [FileStore.close, hst], ?_⟩
    exact {
      wf := hr.wf.closed
      fsParams := hr.fsParams
      small := hr.small
      files := hr.files.congr rfl rfl rfl rfl rfl
      handles := hr.handles.closed_handle
      owned := hr.owned.of_kept rfl rfl fun hj hpos => ⟨hj.congr rfl rfl, hpos, rfl⟩ }

/-- `tfs_unlink` answers as the store. -/
theorem Refines.unlinks {target : Option CString} {r : Int} (hr : Refines params fs st)
    (hok : Admitted st (.unlink target)) (hu : Unlinks fs target r fs') :
    ∃ st', refUnlink st target = (r, st') ∧ Refines params fs' st' := by
  cases hu with
  | invalid hv =>
    cases target with
    | none => exact ⟨st, rfl, hr⟩
    | some p => exact ⟨st, by simp [refUnlink, hv], hr⟩
  | absent hp hv hno =>
    subst hp
    exact ⟨st, by simp [refUnlink, hv, hr.absent hno], hr⟩
  | @removed p i k hp hv he =>
    subst hp
    have hmem : p.tail ∈ st.names := hr.files.names.mpr ⟨i, k, he⟩
    refine ⟨st.remove p.tail, by simp [refUnlink, hv, hmem], ?_⟩
    exact hr.removedFile he (hok p rfl hv)

/-! ### Writing and reading -/

/-- With `int` parameters the size of `fs_data` does not wrap. -/
theorem Refines.fsDataSize_eq (hr : Refines params fs st) :
    fs.fsDataSize = fs.dataBlocks * fs.blockSize := by
  have hb := hr.wf.geometry.blocks_le
  have hs : fs.blockSize ≤ intMax := by rw [blockSize, hr.fsParams]; exact hr.small
  have hprod := Nat.mul_le_mul hb hs
  have htables := hr.wf.geometry.tables
  rw [fsDataSize, htables]
  refine Nat.mod_eq_of_lt (hprod.trans_lt ?_)
  decide

theorem Refines.blockSize_le (hr : Refines params fs st) : fs.blockSize ≤ intMax := by
  rw [blockSize, hr.fsParams]
  exact hr.small

theorem Refines.offset_le (hr : Refines params fs st) (ho : fs.OpenOn h k) :
    (fs.openFileTable h).ofOffset ≤ (fs.inodeTable k).iSize ∧
      (fs.inodeTable k).iSize ≤ fs.blockSize := by
  obtain ⟨i, n, he, _⟩ := hr.handles.bound ho
  exact ⟨hr.handles.offset_le ho, hr.wf.files.size_le (hr.wf.directory.isFile he)⟩

theorem toSsize_eq {n : Nat} (hn : n ≤ intMax) : toSsize n = n := by
  rw [toSsize, if_pos]
  unfold intMax at hn
  unfold ssizeMax
  omega

theorem Refines.writeCount_eq {len : Nat} (hr : Refines params fs st) (ho : fs.OpenOn h k)
    (hlen : len ≤ ssizeMax) :
    fs.writeCount (fs.openFileTable h).ofOffset len =
      min len (fs.blockSize - (fs.openFileTable h).ofOffset) := by
  obtain ⟨hoff, hsize⟩ := hr.offset_le ho
  have hsmall := hr.blockSize_le
  apply Fs.writeCount_eq (hoff.trans hsize)
  unfold ssizeMax at hlen
  unfold intMax at hsmall
  unfold sizeRange
  omega

/-- `tfs_write` does not fault. -/
theorem Refines.tfsWrite_ok {len : Nat} (hr : Refines params fs st) (fhandle : Int)
    (buffer : Memory) (hlen : len ≤ ssizeMax) :
    ∃ r fs', fs.tfsWrite fhandle buffer len = .ok (r, fs') := by
  cases hrun : fs.tfsWrite fhandle buffer len with
  | ok p => exact ⟨p.1, p.2, rfl⟩
  | error fault =>
    obtain ⟨_, h, k, b, _, ho, hb, hfit⟩ := hr.wf.tfsWrite_fault hrun
    obtain ⟨hoff, hsize⟩ := hr.offset_le ho
    have hend := block_end_le fs.blockSize hb
    rw [hr.fsDataSize_eq, hr.writeCount_eq ho hlen] at hfit
    omega

/-- The bytes of a write that fit behind the offset. -/
theorem take_load {buffer : Memory} {len room : Nat} :
    (load buffer 0 len).take room = load buffer 0 (min len room) := by
  rcases Nat.le_total len room with hle | hle
  · rw [min_eq_left hle, List.take_of_length_le (by simpa using hle)]
  · rw [min_eq_right hle]
    have heq : ((load buffer 0 len).drop 0).take room = load buffer (0 + 0) room :=
      take_drop_load (by omega)
    simpa using heq

/-- The effect of a write on the store. -/
theorem Refines.written {bs : List UInt8} (hr : Refines params fs st) (hw : fs.CanWrite h k bs)
    (he : fs.EntryAt i n k) :
    Refines params (fs.written h k bs)
      ((st.setContents n (splice (st.contents n) (fs.openFileTable h).ofOffset bs)).setHandle h
        (some (n, (fs.openFileTable h).ofOffset + bs.length))) := by
  have hoff := (hr.offset_le hw.openOn).1
  have hfiles := hr.files.written hr.wf hw he hoff
  have hhandles := hr.handles.written hw he
  exact {
    wf := hr.wf.written hw
    fsParams := hr.fsParams
    small := hr.small
    files := hfiles.congr rfl rfl rfl rfl rfl
    handles := hhandles.kept Iff.rfl rfl rfl (fun _ he => he) fun _ => le_refl _
    owned := hr.owned.written }

theorem Refines.written_fresh {bs : List UInt8} (hr : Refines params fs st)
    (hempty : (fs.inodeTable k).iSize = 0) (hfree : fs.freeBlocks b = .free)
    (hw : (fs.allocated k b).CanWrite h k bs) (he : fs.EntryAt i n k) :
    Refines params ((fs.allocated k b).written h k bs)
      ((st.setContents n (splice (st.contents n) (fs.openFileTable h).ofOffset bs)).setHandle h
        (some (n, (fs.openFileTable h).ofOffset + bs.length))) := by
  have hk := hr.wf.directory.isFile he
  have ho : fs.OpenOn h k := hw.openOn.congr rfl rfl rfl
  have hoff : ((fs.allocated k b).openFileTable h).ofOffset ≤
      ((fs.allocated k b).inodeTable k).iSize := by
    rw [allocated_inode_iSize]
    exact (hr.offset_le ho).1
  have hwf := hr.wf.allocated hk.pos hempty hfree
  have he' : (fs.allocated k b).EntryAt i n k := he.keep rfl rfl
  have hfiles := (hr.files.allocated hempty).written hwf hw he' hoff
  have hhandles := hr.handles.allocated.written hw he'
  exact {
    wf := hwf.written hw
    fsParams := hr.fsParams
    small := hr.small
    files := hfiles.congr rfl rfl rfl rfl rfl
    handles := hhandles.kept Iff.rfl rfl rfl (fun _ he => he) fun _ => le_refl _
    owned := hr.owned.fresh hk hempty hw.nonempty }

/-- `tfs_write` answers as the store. -/
theorem Refines.writes {fhandle r : Int} {buffer : Memory} {len : Nat}
    (hr : Refines params fs st) (hlen : len ≤ ssizeMax)
    (hw : Writes fs fhandle buffer len r fs') :
    ∃ st', st.write (limits params) fhandle (load buffer 0 len) = (r, st') ∧
      Refines params fs' st' := by
  have hlim : (limits params).size = fs.blockSize := by rw [← hr.fsParams]; rfl
  cases hw with
  | invalid hno => exact ⟨st, by simp [FileStore.write, hr.handle_none hno], hr⟩
  | nothing h k heq ho hzero =>
    subst heq
    obtain ⟨i, n, he, _, hst⟩ := hr.handle ho
    rw [hr.writeCount_eq ho hlen] at hzero
    refine ⟨st, ?_, hr⟩
    simp [FileStore.write, hst, hlim, take_load, hzero]
  | full h k heq ho hpos hempty hfull =>
    subst heq
    obtain ⟨i, n, he, _, hst⟩ := hr.handle ho
    rw [hr.writeCount_eq ho hlen] at hpos
    -- all blocks but that of the root belong to files that are not empty
    have hcard := hr.files.nonempty_of_full_blocks hr.wf hr.owned hfull
    have hlim' : (limits params).nonempty ≤ st.nonempty.card := by
      rw [hcard, ← hr.fsParams]
      exact le_refl _
    have hcont : (st.contents n).length = 0 := by rw [hr.length_contents he, hempty]
    refine ⟨st, ?_, hr⟩
    simp only [FileStore.write, hst, hlim, take_load, length_load, hpos.ne', if_false, hcont,
      hlim', and_self, if_true]
  | fresh h k b m heq hempty hb hfree hm hcan =>
    subst heq
    have ho : fs.OpenOn h k := hcan.openOn.congr rfl rfl rfl
    obtain ⟨i, n, he, _, hst⟩ := hr.handle ho
    have hpos := hcan.nonempty
    rw [length_load] at hpos
    have hroom : ¬ (limits params).nonempty ≤ st.nonempty.card := by
      rw [← hr.fsParams]
      exact not_le.mpr (hr.files.nonempty_lt_of_free_block hr.wf hr.owned hb hfree)
    have hsmall := hr.blockSize_le
    refine ⟨_, ?_, hr.written_fresh hempty hfree hcan he⟩
    rw [toSsize_eq (by omega)]
    simp only [FileStore.write, hst, hlim, take_load, length_load, ← hm, hpos.ne', if_false,
      hroom, and_false]
  | stored h k m heq hk hm hcan =>
    subst heq
    obtain ⟨i, n, he, _, hst⟩ := hr.handle hcan.openOn
    have hpos := hcan.nonempty
    rw [length_load] at hpos
    have hcont : (st.contents n).length ≠ 0 := by
      rw [hr.length_contents he]
      exact hk.ne'
    have hsmall := hr.blockSize_le
    refine ⟨_, ?_, hr.written hcan he⟩
    rw [toSsize_eq (by omega)]
    simp only [FileStore.write, hst, hlim, take_load, length_load, ← hm, hpos.ne', if_false,
      hcont, false_and]

theorem Refines.readCount_eq {len : Nat} (hr : Refines params fs st) (ho : fs.OpenOn h k) :
    fs.readCount k (fs.openFileTable h).ofOffset len =
      min len ((fs.inodeTable k).iSize - (fs.openFileTable h).ofOffset) := by
  obtain ⟨hoff, hsize⟩ := hr.offset_le ho
  exact Fs.readCount_eq hoff (hsize.trans_lt (Geometry.blockSize_lt fs))

/-- `tfs_read` does not fault. -/
theorem Refines.tfsRead_ok (hr : Refines params fs st) (fhandle : Int) (len : Nat) :
    ∃ p fs', fs.tfsRead fhandle len = .ok (p, fs') := by
  cases hrun : fs.tfsRead fhandle len with
  | ok p => exact ⟨p.1, p.2, rfl⟩
  | error fault =>
    obtain ⟨_, h, k, _, ho, hpos, hfail⟩ := hr.wf.tfsRead_fault hrun
    obtain ⟨hoff, hsize⟩ := hr.offset_le ho
    rw [hr.readCount_eq ho] at hpos hfail
    obtain ⟨b, hb, hb0, hlt⟩ := hr.wf.handles.block ho (by omega)
    rcases hfail with hv | hfit
    · exact absurd ⟨by omega, by rw [hb]; exact_mod_cast hlt⟩ hv
    · have hend := block_end_le fs.blockSize hlt
      rw [hr.fsDataSize_eq, handleAddr, hb, Int.toNat_natCast] at hfit
      omega

/-- `tfs_read` answers as the store. -/
theorem Refines.reads {fhandle : Int} {len : Nat} {p : Int × List UInt8}
    (hr : Refines params fs st) (hrd : Reads fs fhandle len p fs') :
    ∃ st', st.read (limits params) fhandle len = (p, st') ∧ Refines params fs' st' := by
  cases hrd with
  | invalid hno => exact ⟨st, by simp [FileStore.read, hr.handle_none hno], hr⟩
  | nothing h k heq ho hzero =>
    subst heq
    obtain ⟨i, n, he, heq, hst⟩ := hr.handle ho
    rw [hr.readCount_eq ho] at hzero
    refine ⟨st, ?_, hr⟩
    have hdata : ((st.contents n).drop (fs.openFileTable h).ofOffset).take len = [] := by
      rw [← List.length_eq_zero_iff, List.length_take, List.length_drop, hr.length_contents he,
        hzero]
    simp only [FileStore.read, hst, hdata, List.length_nil, Nat.add_zero,
      FileStore.setHandle_self heq]
    rfl
  | loaded h k b m heq ho hpos hcount hb hlt hfit =>
    subst heq
    obtain ⟨i, n, he, _, hst⟩ := hr.handle ho
    obtain ⟨hoff, hsize⟩ := hr.offset_le ho
    have hsmall := hr.blockSize_le
    rw [hr.readCount_eq ho] at hcount
    have hle : (fs.openFileTable h).ofOffset + m ≤ (fs.inodeTable k).iSize := by omega
    -- what is copied from the block is the part of the contents behind the offset
    have hdata : ((st.contents n).drop (fs.openFileTable h).ofOffset).take len =
        load fs.fsData (fs.handleAddr h k) m := by
      rw [hr.files.contents he, fileOf, handleAddr, ← take_drop_load hle,
        List.take_eq_take_iff, List.length_drop, length_load]
      omega
    refine ⟨st.setHandle h (some (n, (fs.openFileTable h).ofOffset + m)), ?_, {
      wf := hr.wf.setOffset
      fsParams := hr.fsParams
      small := hr.small
      files := hr.files.congr rfl rfl rfl rfl rfl
      handles := hr.handles.setOffset he ho hle
      owned := hr.owned.of_kept rfl rfl fun hj hpos => ⟨hj.congr rfl rfl, hpos, rfl⟩ }⟩
    rw [toSsize_eq (by omega)]
    simp only [FileStore.read, hst, hdata, length_load]

/-! ### Whole runs -/

/-- One call answers as the store and keeps the relation. -/
theorem Refines.exec {call : Call} (hr : Refines params fs st) (hok : Admitted st call) :
    ∃ fs', exec fs call = .ok ((reference params st call).1, fs') ∧
      Refines params fs' (reference params st call).2 := by
  cases call with
  | «open» path mode =>
    obtain ⟨r, fs', heq, ho⟩ := hr.wf.tfsOpen path mode
    obtain ⟨st', hst, hr'⟩ := hr.opens hok ho
    exact ⟨fs', by simp [Tfs.exec, heq, reference, hst], by simpa [reference, hst] using hr'⟩
  | close fhandle =>
    obtain ⟨r, fs', heq, hc⟩ := hr.wf.tfsClose fhandle
    obtain ⟨st', hst, hr'⟩ := hr.closes hc
    exact ⟨fs', by simp [Tfs.exec, heq, reference, hst], by simpa [reference, hst] using hr'⟩
  | write fhandle buffer len =>
    obtain ⟨r, fs', heq⟩ := hr.tfsWrite_ok fhandle buffer hok
    obtain ⟨st', hst, hr'⟩ := hr.writes hok (hr.wf.tfsWrite heq)
    exact ⟨fs', by simp [Tfs.exec, heq, reference, hst], by simpa [reference, hst] using hr'⟩
  | read fhandle len =>
    obtain ⟨p, fs', heq⟩ := hr.tfsRead_ok fhandle len
    obtain ⟨st', hst, hr'⟩ := hr.reads (hr.wf.tfsRead heq)
    exact ⟨fs', by simp [Tfs.exec, heq, reference, hst], by simpa [reference, hst] using hr'⟩
  | unlink target =>
    obtain ⟨r, fs', heq, hu⟩ := hr.wf.tfsUnlink target
    obtain ⟨st', hst, hr'⟩ := hr.unlinks hok hu
    exact ⟨fs', by simp [Tfs.exec, heq, reference, hst], by simpa [reference, hst] using hr'⟩

theorem Initial.refines (hi : Initial params fs) (hp : Bounded params)
    (hs : params.blockSize ≤ intMax) : Refines params fs FileStore.empty := by
  have hwf := hi.wellFormed hp
  have hnone : ∀ {i n k}, ¬ fs.EntryAt i n k := fun he => he.inumber_ne (hi.entries _ he.index)
  have hclosed : ∀ {h k}, ¬ fs.OpenOn h k := by
    intro h k ho
    have := ho.taken
    rw [hi.handles h] at this
    cases this
  refine ⟨hwf, hi.fsParams, hs, ⟨?_, fun he => absurd he hnone⟩, ?_, ⟨?_⟩⟩
  · intro n
    simp [FileStore.empty, hnone]
  · exact ⟨fun ho => absurd ho hclosed, fun _ => rfl, fun ho => absurd ho hclosed⟩
  · exact fun _ ht => Or.inl (hi.blocks ht)

end Fs

open Fs

/-- The names of a store have 1 to 39 bytes and its files fit in a block. -/
def StoreBounds (params : TfsParams) (st : FileStore CString) : Prop :=
  ∀ n ∈ st.names, 0 < n.length ∧ n.length < maxFileName ∧
    (st.contents n).length ≤ params.blockSize

theorem Fs.Refines.storeBounds {params : TfsParams} {fs : Fs} {st : FileStore CString}
    (hr : Refines params fs st) : StoreBounds params st := by
  intro n hn
  obtain ⟨i, k, he⟩ := hr.files.names.mp hn
  have hsize := hr.wf.files.size_le (hr.wf.directory.isFile he)
  rw [blockSize, hr.fsParams] at hsize
  exact ⟨he.nonempty, he.short, by rwa [hr.length_contents he]⟩

/-- Every run of admitted calls from a successful `tfs_init` returns what the reference
store returns, and none of its calls faults. -/
theorem run_refines_reference {params : TfsParams} {malloc : Malloc} {fs₀ fs : Fs}
    {calls : List Call} (hp : Bounded params) (hs : params.blockSize ≤ intMax)
    (hinit : fs₀.tfsInit params malloc = .ok (0, fs))
    (hok : AllAdmitted (reference params) Admitted FileStore.empty calls) :
    ∃ fs', outputs exec fs calls =
        .ok ((totalOutputs (reference params) FileStore.empty calls).1, fs') ∧
      StoreBounds params (totalOutputs (reference params) FileStore.empty calls).2 := by
  obtain ⟨fs', hrun, hr⟩ := outputs_of_simulation (fun _ _ _ hr hok => hr.exec hok)
    ((initial_of_tfsInit hinit).refines hp hs) hok
  exact ⟨fs', hrun, hr.storeBounds⟩

/-- A run that creates a file, appends to it through a second handle and reads it back. -/
def appendRun : List Call :=
  [.unlink (some pathB), .open (some pathA) { creat := true }, .write 0 (fun _ => 7) 2,
    .open (some pathA) { append := true }, .write 1 (fun _ => 8) 1, .close 0,
    .open (some pathA) {}, .read 0 5]

theorem appendRun_refines_reference :
    ∃ fs', outputs exec smallFs appendRun =
        .ok ([⟨-1, []⟩, ⟨0, []⟩, ⟨2, []⟩, ⟨1, []⟩, ⟨1, []⟩, ⟨0, []⟩, ⟨0, []⟩, ⟨3, [7, 7, 8]⟩], fs') ∧
      StoreBounds smallParams
        (totalOutputs (reference smallParams) FileStore.empty appendRun).2 := by
  have hout : (totalOutputs (reference smallParams) FileStore.empty appendRun).1 =
      [⟨-1, []⟩, ⟨0, []⟩, ⟨2, []⟩, ⟨1, []⟩, ⟨1, []⟩, ⟨0, []⟩, ⟨0, []⟩, ⟨3, [7, 7, 8]⟩] := by
    decide +kernel
  have hlen : ∀ n ≤ 2, n ≤ ssizeMax := by decide
  rw [← hout]
  apply run_refines_reference bounded_small (by decide) tfsInit_small
  refine ⟨?_, nofun, hlen 2 (by decide), nofun, hlen 1 (by decide), trivial, nofun, trivial,
    trivial⟩
  rintro p _ _ ⟨h, offset, hin⟩
  cases hin

end MessageBroker.Tfs
