import MessageBroker.Tfs.Steps

/-!
# What the operations on handles and `tfs_unlink` do

A read or a write may fault: a handle whose file was truncated or removed can
have an offset past the end of the file, and the size arithmetic then wraps.
-/

namespace MessageBroker.Tfs

open Bytes Table Transition

namespace Fs

variable {fs fs' : Fs} {h i j k b : Nat} {name : CString} {r : Int}

/-- The outcomes of `tfs_close`. -/
inductive Closes (fs : Fs) (fhandle : Int) : Int → Fs → Prop
  | invalid : (∀ {h k : Nat}, fhandle = h → ¬ fs.OpenOn h k) → Closes fs fhandle (-1) fs
  | closed (h k : Nat) : fhandle = h → fs.OpenOn h k → Closes fs fhandle 0 (fs.closed h)

theorem WellFormed.tfsClose (wf : fs.WellFormed) (fhandle : Int) :
    ∃ r fs', fs.tfsClose fhandle = .ok (r, fs') ∧ Closes fs fhandle r fs' := by
  rcases wf.getOpenFileEntry fhandle with ⟨h, k, rfl, ho, hget⟩ | ⟨hne, hget⟩
  · refine ⟨0, fs.closed h, ?_, .closed h k rfl ho⟩
    have hv : fs.validFileHandle (h : Int) := ⟨by omega, by exact_mod_cast ho.valid⟩
    simp [Fs.tfsClose, hget, removeFromOpenFileTable, hv, ho.taken, Fs.closed]
  · exact ⟨-1, fs, by simp [Fs.tfsClose, hget], .invalid hne⟩

/-- The outcomes of `tfs_unlink`. -/
inductive Unlinks (fs : Fs) (target : Option CString) : Int → Fs → Prop
  | invalid : validPathname target = false → Unlinks fs target (-1) fs
  | absent {n : CString} : target = some n → validPathname target = true →
      (∀ {i k}, ¬ fs.EntryAt i n.tail k) → Unlinks fs target (-1) fs
  | removed {n : CString} {i k : Nat} : target = some n → validPathname target = true →
      fs.EntryAt i n.tail k → Unlinks fs target 0 (fs.removedFile k i)

/-- Deleting the inode of a file passes both assertions. -/
theorem inodeDelete_isFile (hf : fs.Files) (hk : fs.IsFile k) :
    fs.inodeDelete k = .ok { fs with
      freeinodeTs := Function.update fs.freeinodeTs k .free
      freeBlocks := if 0 < (fs.inodeTable k).iSize then
          Function.update fs.freeBlocks (fs.inodeTable k).iDataBlock.toNat .free
        else fs.freeBlocks } := by
  have hv : fs.validInumber (k : Int) := ⟨by omega, by exact_mod_cast hk.valid⟩
  have ht : fs.freeinodeTs (k : Int).toNat = .taken := hk.taken
  rw [inodeDelete, if_neg (not_not_intro hv), if_neg (not_not_intro ht)]
  by_cases hpos : 0 < (fs.inodeTable k).iSize
  · have hvb := (hf.block hk hpos).1.valid
    simp [hpos, dataBlockFree, hvb]
  · simp [hpos]

theorem WellFormed.tfsUnlink (wf : fs.WellFormed) (target : Option CString) :
    ∃ r fs', fs.tfsUnlink target = .ok (r, fs') ∧ Unlinks fs target r fs' := by
  cases target with
  | none => exact ⟨-1, fs, rfl, .invalid rfl⟩
  | some n =>
    by_cases hv : validPathname (some n) = true
    · rcases wf.findInDir n.tail with ⟨i, k, he, hfind⟩ | ⟨hne, hfind⟩
      · refine ⟨0, fs.removedFile k i, ?_, .removed rfl hv he⟩
        have hdel := inodeDelete_isFile wf.files (wf.directory.isFile he)
        have hclear : Fs.clearDirEntry { fs with
            freeinodeTs := Function.update fs.freeinodeTs k .free
            freeBlocks := if 0 < (fs.inodeTable k).iSize then
                Function.update fs.freeBlocks (fs.inodeTable k).iDataBlock.toNat .free
              else fs.freeBlocks } 0 n.tail = .ok (0, fs.removedFile k i) :=
          wf.clearDirEntry he rfl rfl rfl
        have hk1 : ¬ ((k : Int) = -1) := by omega
        simp only [Fs.tfsUnlink, hv, not_true_eq_false, if_false, wf.root.inodeGet, ok_bind,
          tfsLookup, hfind, hk1, hdel, hclear]
        rfl
      · refine ⟨-1, fs, ?_, .absent rfl hv hne⟩
        simp [Fs.tfsUnlink, hv, wf.root.inodeGet, tfsLookup, hfind]
    · have hv' : validPathname (some n) = false := by simpa using hv
      exact ⟨-1, fs, by simp [Fs.tfsUnlink, hv'], .invalid hv'⟩

/-! ### Writing -/

/-- The outcomes of a `tfs_write` that does not fault. -/
inductive Writes (fs : Fs) (fhandle : Int) (buffer : Memory) (len : Nat) : Int → Fs → Prop
  | invalid : (∀ {h k : Nat}, fhandle = h → ¬ fs.OpenOn h k) →
      Writes fs fhandle buffer len (-1) fs
  | nothing (h k : Nat) : fhandle = h → fs.OpenOn h k →
      fs.writeCount (fs.openFileTable h).ofOffset len = 0 →
      Writes fs fhandle buffer len 0 fs
  | full (h k : Nat) : fhandle = h → fs.OpenOn h k →
      0 < fs.writeCount (fs.openFileTable h).ofOffset len → (fs.inodeTable k).iSize = 0 →
      (∀ b < fs.dataBlocks, fs.freeBlocks b = .taken) → Writes fs fhandle buffer len (-1) fs
  | fresh (h k b n : Nat) : fhandle = h → (fs.inodeTable k).iSize = 0 → b < fs.dataBlocks →
      fs.freeBlocks b = .free → n = min len (fs.blockSize - (fs.openFileTable h).ofOffset) →
      (fs.allocated k b).CanWrite h k (load buffer 0 n) →
      Writes fs fhandle buffer len (toSsize n) ((fs.allocated k b).written h k (load buffer 0 n))
  | stored (h k n : Nat) : fhandle = h → 0 < (fs.inodeTable k).iSize →
      n = min len (fs.blockSize - (fs.openFileTable h).ofOffset) →
      fs.CanWrite h k (load buffer 0 n) →
      Writes fs fhandle buffer len (toSsize n) (fs.written h k (load buffer 0 n))

/-- A `size_t` difference does not wrap when adding the subtrahend does not. -/
theorem sizeSub_add {a n : Nat} (ha : a < sizeRange) (hpos : 0 < sizeSub a n)
    (hfit : n + sizeSub a n < sizeRange) : n + sizeSub a n = a := by
  unfold sizeSub sizeRange at *
  omega

theorem toSsize_zero : toSsize 0 = 0 := by simp [toSsize]

theorem sizeSub_eq {a n : Nat} (hle : n ≤ a) (ha : a < sizeRange) : sizeSub a n = a - n := by
  unfold sizeSub sizeRange at *
  omega

/-- A count that stays inside `fs_data` from its offset on is the cut length. -/
theorem writeCount_of_fits {offset len n : Nat} (hn : fs.writeCount offset len = n)
    (hpos : 0 < n) (hfit : offset + n < sizeRange) :
    offset + n ≤ fs.blockSize ∧ n = min len (fs.blockSize - offset) := by
  rw [writeCount] at hn
  by_cases hcut : fs.blockSize < (len + offset) % sizeRange
  · rw [if_pos hcut] at hn
    subst hn
    have hsum := sizeSub_add (Geometry.blockSize_lt fs) hpos hfit
    have hle := Nat.mod_le (len + offset) sizeRange
    omega
  · rw [if_neg hcut] at hn
    subst hn
    rw [Nat.mod_eq_of_lt (by omega)] at hcut
    omega

/-- For an offset inside the block the count is cut at the block size, unless
the sum of the length and the offset wraps. -/
theorem writeCount_eq {offset len : Nat} (hoff : offset ≤ fs.blockSize)
    (hlen : len + offset < sizeRange) :
    fs.writeCount offset len = min len (fs.blockSize - offset) := by
  have hb := Geometry.blockSize_lt fs
  rw [writeCount, Nat.mod_eq_of_lt hlen]
  by_cases hcut : fs.blockSize < len + offset
  · rw [if_pos hcut, sizeSub_eq hoff hb]
    omega
  · rw [if_neg hcut]
    omega

theorem dataBlockGet_fileBlock {bn : Int} (hb : fs.FileBlock bn) :
    fs.dataBlockGet bn = .ok (bn.toNat * fs.blockSize) := by
  rw [dataBlockGet, if_pos hb.valid]

/-- The copying part of `tfs_write` is one update, or leaves `fs_data`. -/
theorem writeBlock_eq {buffer : Memory} {n : Nat}
    (hb : fs.FileBlock (fs.inodeTable k).iDataBlock) :
    fs.writeBlock h k buffer n =
      if fs.fsDataSize < fs.handleAddr h k + n then .error .outOfData
      else .ok (fs.written h k (load buffer 0 n)) := by
  rw [writeBlock, dataBlockGet_fileBlock hb, ok_bind]
  change (if fs.fsDataSize < fs.handleAddr h k + n then _ else _) = _
  split
  · rfl
  · next hfit =>
    have hsize := fsDataSize_lt fs
    have hwrap : ((fs.openFileTable h).ofOffset + n) % sizeRange =
        (fs.openFileTable h).ofOffset + n := by
      apply Nat.mod_eq_of_lt
      rw [handleAddr] at hfit
      omega
    simp only [written, handleAddr, setOffset, setInode, hwrap, length_load,
      Function.update_self]
    split
    · next hlt => rw [max_eq_right hlt.le]
    · next hge => rw [max_eq_left (not_lt.mp hge), Function.update_eq_self]

theorem offset_lt_of_fits {n : Nat} (hfit : ¬ fs.fsDataSize < fs.handleAddr h k + n) :
    (fs.openFileTable h).ofOffset + n < sizeRange := by
  have hsize := fsDataSize_lt fs
  rw [handleAddr] at hfit
  omega

/-- After an allocation the empty file owns its new block alone. -/
theorem WellFormed.allocated_owned (wf : fs.WellFormed) (hb : fs.freeBlocks b = .free) :
    (fs.allocated k b).freeBlocks ((fs.allocated k b).inodeTable k).iDataBlock.toNat = .taken ∧
      ∀ {j}, (fs.allocated k b).IsFile j → 0 < ((fs.allocated k b).inodeTable j).iSize →
        j ≠ k → ((fs.allocated k b).inodeTable j).iDataBlock ≠
          ((fs.allocated k b).inodeTable k).iDataBlock := by
  have hself : ((fs.allocated k b).inodeTable k).iDataBlock = b := by simp [Fs.allocated]
  rw [hself]
  refine ⟨Function.update_self _ _ _, ?_⟩
  intro j hj hpos hjk heq
  have hold : fs.IsFile j := hj.congr rfl rfl
  have hother : (fs.allocated k b).inodeTable j = fs.inodeTable j :=
    Function.update_of_ne hjk _ _
  rw [hother] at hpos heq
  apply wf.files.block_ne_of_free hb hold hpos
  rw [heq]
  rfl

theorem allocated_fileBlock (hb0 : 0 < b) (hlt : b < fs.dataBlocks) :
    (fs.allocated k b).FileBlock ((fs.allocated k b).inodeTable k).iDataBlock :=
  ⟨b, by simp [Fs.allocated], hb0, hlt⟩

/-- A call of `tfs_write` up to the copy of its bytes. -/
inductive WriteRun (fs : Fs) (fhandle : Int) (buffer : Memory) (len : Nat) :
    Except Fault (Int × Fs) → Prop
  | invalid : (∀ {h k : Nat}, fhandle = h → ¬ fs.OpenOn h k) →
      WriteRun fs fhandle buffer len (.ok (-1, fs))
  | nothing (h k : Nat) : fhandle = h → fs.OpenOn h k →
      fs.writeCount (fs.openFileTable h).ofOffset len = 0 →
      WriteRun fs fhandle buffer len (.ok (0, fs))
  | full (h k : Nat) : fhandle = h → fs.OpenOn h k →
      0 < fs.writeCount (fs.openFileTable h).ofOffset len → (fs.inodeTable k).iSize = 0 →
      (∀ b < fs.dataBlocks, fs.freeBlocks b = .taken) →
      WriteRun fs fhandle buffer len (.ok (-1, fs))
  | fresh (h k b n : Nat) : fhandle = h → fs.OpenOn h k →
      fs.writeCount (fs.openFileTable h).ofOffset len = n → 0 < n →
      (fs.inodeTable k).iSize = 0 → 0 < b → b < fs.dataBlocks → fs.freeBlocks b = .free →
      fs.dataBlockAlloc.1 = some b → WriteRun fs fhandle buffer len
        ((fs.allocated k b).writeBlock h k buffer n >>= fun fs => .ok (toSsize n, fs))
  | stored (h k n : Nat) : fhandle = h → fs.OpenOn h k →
      fs.writeCount (fs.openFileTable h).ofOffset len = n → 0 < n → 0 < (fs.inodeTable k).iSize →
      WriteRun fs fhandle buffer len
        (fs.writeBlock h k buffer n >>= fun fs => .ok (toSsize n, fs))

/-- The one case analysis of `tfs_write`. -/
theorem WellFormed.writeRun (wf : fs.WellFormed) (fhandle : Int) (buffer : Memory) (len : Nat) :
    WriteRun fs fhandle buffer len (fs.tfsWrite fhandle buffer len) := by
  rcases wf.getOpenFileEntry fhandle with ⟨h, k, rfl, ho, hget⟩ | ⟨hne, hget⟩
  · rw [Fs.tfsWrite, hget]
    simp only [wf.handles.inodeGet ho, ok_bind]
    generalize hn : fs.writeCount (fs.openFileTable h).ofOffset len = n
    by_cases hpos : 0 < n
    · rw [if_pos hpos]
      by_cases hempty : (fs.inodeTable k).iSize = 0
      · -- the file has no block yet
        rw [if_pos hempty]
        cases hf : firstIndex (fun i => fs.freeBlocks i == .free) fs.dataBlocks with
        | none =>
          simp only [dataBlockAlloc, hf]
          exact .full h k rfl ho (hn ▸ hpos) hempty
            fun b hb => not_free.mp (firstIndex_eq_none.mp hf b hb)
        | some b =>
          obtain ⟨hfree, hlt, _⟩ := firstIndex_eq_some.mp hf
          replace hfree : fs.freeBlocks b = .free := by simpa using hfree
          have halloc : fs.dataBlockAlloc.1 = some b := by rw [dataBlockAlloc, hf]
          simp only [dataBlockAlloc, hf]
          have hb0 : 0 < b := by
            apply Nat.pos_of_ne_zero
            rintro rfl
            rw [wf.root.block_taken] at hfree
            cases hfree
          exact .fresh h k b n rfl ho hn hpos hempty hb0 hlt hfree halloc
      · rw [if_neg hempty]
        exact .stored h k n rfl ho hn hpos (Nat.pos_of_ne_zero hempty)
    · -- nothing is to be written, or the offset is at the end of the block
      obtain rfl : n = 0 := by omega
      rw [if_neg hpos, toSsize_zero]
      exact .nothing h k rfl ho hn
  · rw [Fs.tfsWrite, hget]
    exact .invalid hne

/-- A copy that does not fault leaves the bytes in their block. -/
theorem canWrite_of_writeBlock {buffer : Memory} {n len : Nat} (ho : fs.OpenOn h k)
    (hb : fs.FileBlock (fs.inodeTable k).iDataBlock)
    (howned : fs.IsFile k → fs.freeBlocks (fs.inodeTable k).iDataBlock.toNat = .taken ∧
      ∀ {j}, fs.IsFile j → 0 < (fs.inodeTable j).iSize → j ≠ k →
        (fs.inodeTable j).iDataBlock ≠ (fs.inodeTable k).iDataBlock)
    (hn : fs.writeCount (fs.openFileTable h).ofOffset len = n) (hpos : 0 < n)
    (hrun : fs.writeBlock h k buffer n = .ok fs') :
    fs' = fs.written h k (load buffer 0 n) ∧ fs.CanWrite h k (load buffer 0 n) ∧
      n = min len (fs.blockSize - (fs.openFileTable h).ofOffset) := by
  rw [writeBlock_eq hb] at hrun
  -- the copy faults, or stays in the memory of the blocks
  split at hrun
  · cases hrun
  · next hfit =>
    cases hrun
    have hcut := writeCount_of_fits hn hpos (offset_lt_of_fits hfit)
    refine ⟨rfl, ⟨ho, ?_, ?_, hb, howned⟩, hcut.2⟩
    · rwa [length_load]
    · rw [length_load]
      exact hcut.1

theorem WellFormed.tfsWrite {fhandle : Int} {buffer : Memory} {len : Nat} (wf : fs.WellFormed)
    (hrun : fs.tfsWrite fhandle buffer len = .ok (r, fs')) :
    Writes fs fhandle buffer len r fs' := by
  have hcall := wf.writeRun fhandle buffer len
  generalize fs.tfsWrite fhandle buffer len = result at hrun hcall
  cases hcall with
  | invalid hne =>
    cases hrun
    exact .invalid hne
  | nothing h k heq ho hn =>
    cases hrun
    exact .nothing h k heq ho hn
  | full h k heq ho hn hempty hall =>
    cases hrun
    exact .full h k heq ho hn hempty hall
  | fresh h k b n heq ho hn hpos hempty hb0 hlt hfree =>
    obtain ⟨fs₁, hblock, hrun⟩ := bind_eq_ok.mp hrun
    cases hrun
    have ho' : (fs.allocated k b).OpenOn h k := ho.congr rfl rfl rfl
    obtain ⟨rfl, hcan, hcut⟩ := canWrite_of_writeBlock ho' (allocated_fileBlock hb0 hlt)
      (fun _ => wf.allocated_owned hfree) hn hpos hblock
    exact .fresh h k b n heq hempty hlt hfree hcut hcan
  | stored h k n heq ho hn hpos hkpos =>
    obtain ⟨fs₁, hblock, hrun⟩ := bind_eq_ok.mp hrun
    cases hrun
    have howned : fs.IsFile k → fs.freeBlocks (fs.inodeTable k).iDataBlock.toNat = .taken ∧
        ∀ {j}, fs.IsFile j → 0 < (fs.inodeTable j).iSize → j ≠ k →
          (fs.inodeTable j).iDataBlock ≠ (fs.inodeTable k).iDataBlock := by
      intro hk
      refine ⟨(wf.files.block hk hkpos).2, ?_⟩
      exact fun hj hjpos hjk heq => hjk (wf.files.block_inj hj hk hjpos hkpos heq)
    obtain ⟨rfl, hcan, hcut⟩ :=
      canWrite_of_writeBlock ho (wf.handles.block ho hkpos) howned hn hpos hblock
    exact .stored h k n heq hkpos hcut hcan

/-! ### Reading -/

/-- The outcomes of a `tfs_read` that does not fault. -/
inductive Reads (fs : Fs) (fhandle : Int) (len : Nat) : Int × List UInt8 → Fs → Prop
  | invalid : (∀ {h k : Nat}, fhandle = h → ¬ fs.OpenOn h k) → Reads fs fhandle len (-1, []) fs
  | nothing (h k : Nat) : fhandle = h → fs.OpenOn h k →
      fs.readCount k (fs.openFileTable h).ofOffset len = 0 → Reads fs fhandle len (0, []) fs
  | loaded (h k b n : Nat) : fhandle = h → fs.OpenOn h k → 0 < n →
      fs.readCount k (fs.openFileTable h).ofOffset len = n →
      (fs.inodeTable k).iDataBlock = b → b < fs.dataBlocks →
      fs.handleAddr h k + n ≤ fs.fsDataSize →
      Reads fs fhandle len (toSsize n, load fs.fsData (fs.handleAddr h k) n)
        (fs.setOffset h ((fs.openFileTable h).ofOffset + n))

theorem readCount_eq {offset len : Nat} (hoff : offset ≤ (fs.inodeTable k).iSize)
    (hsize : (fs.inodeTable k).iSize < sizeRange) :
    fs.readCount k offset len = min len ((fs.inodeTable k).iSize - offset) := by
  simp only [readCount, sizeSub_eq hoff hsize]
  split
  · omega
  · omega

theorem dataBlockGet_ok {bn : Int} {addr : Nat} (hget : fs.dataBlockGet bn = .ok addr) :
    ∃ b : Nat, bn = b ∧ b < fs.dataBlocks ∧ addr = b * fs.blockSize := by
  unfold dataBlockGet at hget
  by_cases hv : fs.validBlockNumber bn
  · rw [if_pos hv] at hget
    cases hget
    obtain ⟨h0, hlt⟩ := hv
    exact ⟨bn.toNat, by omega, by omega, rfl⟩
  · rw [if_neg hv] at hget
    cases hget

theorem WellFormed.tfsRead {fhandle : Int} {len : Nat} {p : Int × List UInt8}
    (wf : fs.WellFormed) (hrun : fs.tfsRead fhandle len = .ok (p, fs')) :
    Reads fs fhandle len p fs' := by
  rcases wf.getOpenFileEntry fhandle with ⟨h, k, rfl, ho, hget⟩ | ⟨hne, hget⟩
  · rw [Fs.tfsRead, hget] at hrun
    simp only [wf.handles.inodeGet ho] at hrun
    rw [ok_bind] at hrun
    generalize hn : fs.readCount k (fs.openFileTable h).ofOffset len = n at hrun
    by_cases hpos : 0 < n
    · rw [if_pos hpos] at hrun
      obtain ⟨addr, hblock, hrun⟩ := bind_eq_ok.mp hrun
      obtain ⟨b, hb, hlt, rfl⟩ := dataBlockGet_ok hblock
      have haddr : fs.handleAddr h k = b * fs.blockSize + (fs.openFileTable h).ofOffset := by
        rw [handleAddr, hb, Int.toNat_natCast]
      rw [← haddr] at hrun
      split at hrun
      · cases hrun
      · next hfit =>
        have hbound := offset_lt_of_fits hfit
        rw [Nat.mod_eq_of_lt hbound] at hrun
        cases hrun
        exact .loaded h k b n rfl ho hpos hn hb hlt (not_lt.mp hfit)
    · -- the offset is at the end of the file
      obtain rfl : n = 0 := by omega
      rw [if_neg hpos, toSsize_zero] at hrun
      cases hrun
      exact .nothing h k rfl ho hn
  · rw [Fs.tfsRead, hget] at hrun
    cases hrun
    exact .invalid hne

/-! ### Faults -/

theorem bind_ok_eq_error {γ δ : Type} {x : Except Fault γ} {f : γ → δ} {fault : Fault}
    (hrun : (x >>= fun a => Except.ok (f a)) = .error fault) : x = .error fault := by
  cases x with
  | error e =>
    cases hrun
    rfl
  | ok a => cases hrun

theorem writeBlock_fault {buffer : Memory} {n : Nat} {fault : Fault}
    (hb : fs.FileBlock (fs.inodeTable k).iDataBlock)
    (hrun : fs.writeBlock h k buffer n = .error fault) :
    fault = .outOfData ∧ fs.fsDataSize < fs.handleAddr h k + n := by
  rw [writeBlock_eq hb] at hrun
  split at hrun
  · next hlt =>
    cases hrun
    exact ⟨rfl, hlt⟩
  · cases hrun

/-- A write only faults when its bytes do not fit behind the start of some block. -/
theorem WellFormed.tfsWrite_fault {fhandle : Int} {buffer : Memory} {len : Nat} {fault : Fault}
    (wf : fs.WellFormed) (hrun : fs.tfsWrite fhandle buffer len = .error fault) :
    fault = .outOfData ∧ ∃ h k b : Nat, fhandle = h ∧ fs.OpenOn h k ∧ b < fs.dataBlocks ∧
      fs.fsDataSize < b * fs.blockSize + (fs.openFileTable h).ofOffset +
        fs.writeCount (fs.openFileTable h).ofOffset len := by
  have hcall := wf.writeRun fhandle buffer len
  generalize fs.tfsWrite fhandle buffer len = result at hrun hcall
  cases hcall with
  | invalid | nothing | full => cases hrun
  | fresh h k b n heq ho hn _ _ hb0 hlt _ =>
    -- the fault is that of the copy into the new block
    have hnew : ((fs.allocated k b).inodeTable k).iDataBlock = b := by simp [Fs.allocated]
    obtain ⟨hfault, hfit⟩ :=
      writeBlock_fault (allocated_fileBlock hb0 hlt) (bind_ok_eq_error hrun)
    rw [handleAddr, hnew, Int.toNat_natCast, ← hn] at hfit
    exact ⟨hfault, h, k, b, heq, ho, hlt, hfit⟩
  | stored h k n heq ho hn _ hkpos =>
    obtain ⟨b, hb, _, hlt⟩ := wf.handles.block ho hkpos
    obtain ⟨hfault, hfit⟩ := writeBlock_fault (wf.handles.block ho hkpos) (bind_ok_eq_error hrun)
    rw [handleAddr, hb, Int.toNat_natCast, ← hn] at hfit
    exact ⟨hfault, h, k, b, heq, ho, hlt, hfit⟩

/-- A read only faults when its inode has no valid block or the bytes do not fit. -/
theorem WellFormed.tfsRead_fault {fhandle : Int} {len : Nat} {fault : Fault}
    (wf : fs.WellFormed) (hrun : fs.tfsRead fhandle len = .error fault) :
    (fault = .outOfData ∨ fault = .panic "data_block_get: invalid block number") ∧
      ∃ h k : Nat, fhandle = h ∧ fs.OpenOn h k ∧
        0 < fs.readCount k (fs.openFileTable h).ofOffset len ∧
        (¬ fs.validBlockNumber (fs.inodeTable k).iDataBlock ∨
          fs.fsDataSize <
            fs.handleAddr h k + fs.readCount k (fs.openFileTable h).ofOffset len) := by
  rcases wf.getOpenFileEntry fhandle with ⟨h, k, rfl, ho, hget⟩ | ⟨hne, hget⟩
  · rw [Fs.tfsRead, hget] at hrun
    simp only [wf.handles.inodeGet ho] at hrun
    rw [ok_bind] at hrun
    split at hrun
    · next hpos =>
      unfold dataBlockGet at hrun
      split at hrun
      · rw [ok_bind] at hrun
        split at hrun
        · next hfit =>
          cases hrun
          exact ⟨Or.inl rfl, h, k, rfl, ho, hpos, Or.inr hfit⟩
        · cases hrun
      · next hv =>
        cases hrun
        exact ⟨Or.inr rfl, h, k, rfl, ho, hpos, Or.inl hv⟩
    · cases hrun
  · rw [Fs.tfsRead, hget] at hrun
    cases hrun

end Fs

end MessageBroker.Tfs
