import MessageBroker.Tfs.Runs

/-!
# Offsets of open handles

The offset belongs to a handle and the size to an inode, which can be emptied behind
the back of a handle: by an open with `TFS_O_TRUNC`, and by the creation of a file on
the inode of an unlinked one. As long as neither happens to an inode with a handle
behind its start, no offset passes the end of its file, and the differences of sizes
in `tfs_read` and `tfs_write` do not wrap.
-/

namespace MessageBroker.Tfs

open Bytes Table Transition

namespace Fs

variable {fs fs' : Fs} {h i j k n : Nat} {r : Int}

/-- A handle open on inode `k` reads and writes inside of its file. -/
structure InFile (fs : Fs) (h k : Nat) : Prop where
  offset_le : (fs.openFileTable h).ofOffset ≤ (fs.inodeTable k).iSize
  toRead : sizeSub (fs.inodeTable k).iSize (fs.openFileTable h).ofOffset =
    (fs.inodeTable k).iSize - (fs.openFileTable h).ofOffset
  offset_le_block : (fs.openFileTable h).ofOffset ≤ fs.blockSize
  toWrite : sizeSub fs.blockSize (fs.openFileTable h).ofOffset =
    fs.blockSize - (fs.openFileTable h).ofOffset
  read : ∀ len, ∃ bytes fs', fs.tfsRead h len = .ok ((toSsize bytes.length, bytes), fs') ∧
    bytes.length = min len ((fs.inodeTable k).iSize - (fs.openFileTable h).ofOffset)

/-- No handle open on the inode is behind its start. -/
def AtStart (fs : Fs) (k : Nat) : Prop :=
  ∀ h, fs.OpenOn h k → (fs.openFileTable h).ofOffset = 0

/-- The inode that a call of `tfs_open` empties: that of the file to truncate, or the one that
`inode_alloc` picks for a new file. -/
def Empties (fs : Fs) (name : Option CString) (mode : FileMode) (k : Nat) : Prop :=
  ∃ n, name = some n ∧ validPathname name = true ∧
    ((∃ i, fs.EntryAt i n.tail k) ∧ mode.trunc = true ∨
      (∀ i k, ¬ fs.EntryAt i n.tail k) ∧ mode.creat = true ∧ fs.inodeAlloc.1 = some k)

/-- No call empties an inode with a handle behind its start. -/
def SparesHandles (fs : Fs) : Call → Prop
  | .open name mode => ∀ k, fs.Empties name mode k → fs.AtStart k
  | _ => True

/-! ### The invariant -/

/-- The bytes of inode `k` are in a block of `fs_data`. -/
structure InData (fs : Fs) (k : Nat) : Prop where
  size_le : (fs.inodeTable k).iSize ≤ fs.blockSize
  fits : 0 < (fs.inodeTable k).iSize →
    (fs.inodeTable k).iDataBlock.toNat * fs.blockSize + (fs.inodeTable k).iSize ≤ fs.fsDataSize

/-- Inode `k` is in use for a file, or a handle is open on it. -/
def Referenced (fs : Fs) (k : Nat) : Prop := fs.IsFile k ∨ ∃ h, fs.OpenOn h k

structure Offsets (fs : Fs) : Prop where
  inData : ∀ {k}, fs.Referenced k → fs.InData k
  offset_le : ∀ {h k}, fs.OpenOn h k → (fs.openFileTable h).ofOffset ≤ (fs.inodeTable k).iSize

theorem InData.congr (hd : fs.InData k) (hp : fs'.fsParams = fs.fsParams)
    (ht : fs'.tables = fs.tables) (hi : fs'.inodeTable k = fs.inodeTable k) : fs'.InData k := by
  obtain ⟨hsize, hfits⟩ := hd
  constructor <;> simp only [blockSize, fsDataSize, hp, ht, hi] at *
  all_goals assumption

/-- An empty inode has no bytes. -/
theorem inData_of_empty (hempty : (fs.inodeTable k).iSize = 0) : fs.InData k := by
  constructor
  · omega
  · omega

/-- A read of an open handle whose file is in `fs_data`. -/
theorem WellFormed.inFile (wf : fs.WellFormed) (ho : fs.OpenOn h k) (hd : fs.InData k)
    (hoff : (fs.openFileTable h).ofOffset ≤ (fs.inodeTable k).iSize) : fs.InFile h k := by
  have hblock := Geometry.blockSize_lt fs
  have hsize : (fs.inodeTable k).iSize < sizeRange := hd.size_le.trans_lt hblock
  refine ⟨hoff, sizeSub_eq hoff hsize, hoff.trans hd.size_le,
    sizeSub_eq (hoff.trans hd.size_le) hblock, fun len => ?_⟩
  have hcount : fs.readCount k (fs.openFileTable h).ofOffset len = _ := readCount_eq hoff hsize
  have hget : fs.getOpenFileEntry h = some h := by
    rcases wf.getOpenFileEntry h with ⟨h', _, heq, _, hget⟩ | ⟨hne, _⟩
    · rw [hget, Int.ofNat_inj.mp heq]
    · exact absurd ho (hne rfl)
  generalize hn : min len ((fs.inodeTable k).iSize - (fs.openFileTable h).ofOffset) = n at hcount
  rcases Nat.eq_zero_or_pos n with rfl | hpos
  · refine ⟨[], fs, ?_, rfl⟩
    rw [Fs.tfsRead, hget]
    simp only [wf.handles.inodeGet ho]
    rw [ok_bind, hcount, if_neg (lt_irrefl 0)]
    rfl
  · have hfits := hd.fits (by omega)
    have hfile := wf.handles.block ho (by omega)
    have hin : ¬ fs.fsDataSize < (fs.inodeTable k).iDataBlock.toNat * fs.blockSize +
        (fs.openFileTable h).ofOffset + n := by omega
    refine ⟨load fs.fsData (fs.handleAddr h k) n,
      fs.setOffset h (((fs.openFileTable h).ofOffset + n) % sizeRange), ?_, length_load _ _ _⟩
    rw [length_load, Fs.tfsRead, hget]
    simp only [wf.handles.inodeGet ho]
    rw [ok_bind, hcount, if_pos hpos, dataBlockGet_fileBlock hfile, ok_bind, if_neg hin, handleAddr]

/-! ### One call -/

/-- The handles of the new state are handles of the old one, and no inode has changed. -/
theorem Offsets.of_handles (hb : fs.Offsets) (hp : fs'.fsParams = fs.fsParams)
    (ht : fs'.tables = fs.tables) (hi : fs'.inodeTable = fs.inodeTable)
    (hlive : ∀ {k}, fs'.Referenced k → fs.Referenced k)
    (hoff : ∀ {h k}, fs'.OpenOn h k →
      (fs'.openFileTable h).ofOffset ≤ (fs.inodeTable k).iSize) : fs'.Offsets where
  inData hk := (hb.inData (hlive hk)).congr hp ht (congrFun hi _)
  offset_le ho := by
    rw [hi]
    exact hoff ho

/-- One inode is emptied while no handle is behind its start. -/
theorem Offsets.empty (hb : fs.Offsets) (hp : fs'.fsParams = fs.fsParams)
    (ht : fs'.tables = fs.tables) (hopen : fs'.openFileTable = fs.openFileTable)
    (hfree : fs'.freeOpenFileEntries = fs.freeOpenFileEntries)
    (hfile : ∀ {j}, j ≠ k → fs'.IsFile j → fs.IsFile j)
    (hself : (fs'.inodeTable k).iSize = 0)
    (hother : ∀ {j}, j ≠ k → fs'.inodeTable j = fs.inodeTable j) (hstart : fs.AtStart k) :
    fs'.Offsets := by
  have hback : ∀ {h j}, fs'.OpenOn h j → fs.OpenOn h j := fun ho =>
    ho.congr hp.symm (congrFun hfree.symm _) (by rw [hopen])
  constructor
  · intro j hj
    by_cases hjk : j = k
    · subst hjk
      exact inData_of_empty hself
    · refine (hb.inData ?_).congr hp ht (hother hjk)
      rcases hj with hj | ⟨h, ho⟩
      · exact Or.inl (hfile hjk hj)
      · exact Or.inr ⟨h, hback ho⟩
  · intro h j ho
    rw [hopen]
    by_cases hjk : j = k
    · subst hjk
      rw [hstart h (hback ho)]
      exact Nat.zero_le _
    · rw [hother hjk]
      exact hb.offset_le (hback ho)

theorem Offsets.addsHandle {offset : Nat} (hb : fs.Offsets) (hk : fs.Referenced k)
    (hoff : offset ≤ (fs.inodeTable k).iSize) (ha : AddsHandle fs k offset r fs') :
    fs'.Offsets := by
  cases ha with
  | full _ => exact hb
  | slot h _ _ _ =>
    refine hb.of_handles rfl rfl rfl ?_ ?_
    · rintro j (hj | ⟨h', ho⟩)
      · exact Or.inl (hj.congr rfl rfl)
      · rcases openOn_of_opened ho with ⟨_, rfl⟩ | ⟨_, ho⟩
        · exact hk
        · exact Or.inr ⟨h', ho⟩
    · intro h' k' ho
      rcases openOn_of_opened ho with ⟨rfl, rfl⟩ | ⟨hne, ho⟩
      · simpa [opened] using hoff
      · simpa [opened, Function.update_of_ne hne] using hb.offset_le ho

/-- A file is created on the inode that `inode_alloc` picks, or this inode is reset. -/
theorem Offsets.creates {n : CString} (hb : fs.Offsets) (hr : fs.Root) (hc : Creates fs n r fs')
    (hstart : ∀ k, fs.inodeAlloc.1 = some k → fs.AtStart k) : fs'.Offsets := by
  cases hc with
  | noInode _ => exact hb
  | noEntry k halloc _ _ _ =>
    exact hb.empty rfl rfl rfl rfl (fun _ hj => hj.congr rfl rfl)
      (by simp [resetInode]) (fun hj => Function.update_of_ne hj _ _) (hstart k halloc)
  | created k i halloc hcan ha =>
    have hnew : (fs.createdFile k i n.tail).Offsets := by
      refine hb.empty rfl rfl rfl rfl ?_ (by simp [createdFile])
        (fun hj => Function.update_of_ne hj _ _) (hstart k halloc)
      intro j hjk hj
      exact ⟨hj.pos, hj.valid, (Function.update_of_ne hjk _ _).symm.trans hj.taken⟩
    exact hnew.addsHandle (Or.inl ((hcan.isFile_iff hr).mpr (Or.inl rfl))) (Nat.zero_le _) ha

theorem Offsets.opens_new {n : CString} {mode : FileMode} (hb : fs.Offsets) (wf : fs.WellFormed)
    (hv : validPathname (some n) = true) (hno : ∀ {i k}, ¬ fs.EntryAt i n.tail k)
    (hc : mode.creat = true) (hok : fs.SparesHandles (.open (some n) mode))
    (hrun : fs.tfsOpen (some n) mode = .ok (r, fs')) : fs'.Offsets := by
  obtain ⟨r', fs₁, heq, hcreates⟩ := wf.tfsOpen_creates hv hno hc
  rw [hrun] at heq
  cases heq
  refine hb.creates wf.root hcreates fun k halloc => ?_
  exact hok k ⟨n, rfl, hv, Or.inr ⟨fun _ _ => hno, hc, halloc⟩⟩

theorem Offsets.opens {name : Option CString} {mode : FileMode} (hb : fs.Offsets)
    (wf : fs.WellFormed) (hok : fs.SparesHandles (.open name mode))
    (hrun : fs.tfsOpen name mode = .ok (r, fs')) : fs'.Offsets := by
  obtain ⟨r', fs₁, heq, ho⟩ := wf.tfsOpen name mode
  rw [hrun] at heq
  cases heq
  cases ho with
  | invalid _ => exact hb
  | absent _ _ _ _ => exact hb
  | noInode _ _ _ _ _ => exact hb
  | @existing n i k _ _ hn hv he ha =>
    have hk := wf.directory.isFile he
    cases ht : mode.trunc with
    | false =>
      rw [afterTrunc_of_not ht] at ha
      refine hb.addsHandle (Or.inl hk) ?_ ha
      unfold startOffset
      split
      · exact le_rfl
      · exact Nat.zero_le _
    | true =>
      have hstart := hok k ⟨n, hn, hv, Or.inl ⟨⟨i, he⟩, ht⟩⟩
      have hafter : fs.afterTrunc mode k = fs.truncated k := if_pos ht
      rw [hafter] at ha
      have htrunc : (fs.truncated k).Offsets :=
        hb.empty truncated_fsParams truncated_tables truncated_openFileTable
          truncated_freeOpenFileEntries (fun _ hj => hj.congr truncated_fsParams.symm
            truncated_freeinodeTs.symm) truncated_inode_self truncated_inode_of_ne hstart
      refine htrunc.addsHandle (Or.inl (hk.congr truncated_fsParams truncated_freeinodeTs)) ?_ ha
      rw [startOffset, truncated_inode_self]
      split <;> exact le_rfl
  | noEntry k hn hv hno hc _ _ _ =>
    subst hn
    exact hb.opens_new wf hv hno hc hok hrun
  | created k i hn hv hc hcan ha =>
    subst hn
    exact hb.opens_new wf hv hcan.absent hc hok hrun

theorem Offsets.closes {fhandle : Int} (hb : fs.Offsets) (hc : Closes fs fhandle r fs') :
    fs'.Offsets := by
  cases hc with
  | invalid _ => exact hb
  | closed h k _ _ =>
    refine hb.of_handles rfl rfl rfl ?_ ?_
    · rintro j (hj | ⟨h', ho⟩)
      · exact Or.inl (hj.congr rfl rfl)
      · exact Or.inr ⟨h', (closed_openOn_iff.mp ho).2⟩
    · exact fun ho => hb.offset_le (closed_openOn_iff.mp ho).2

theorem Offsets.unlinks {target : Option CString} (hb : fs.Offsets)
    (hu : Unlinks fs target r fs') : fs'.Offsets := by
  cases hu with
  | invalid _ => exact hb
  | absent _ _ _ => exact hb
  | removed _ _ _ =>
    refine hb.of_handles rfl rfl rfl ?_ ?_
    · rintro j (hj | ⟨h', ho⟩)
      · exact Or.inl (removedFile_isFile_iff.mp hj).2
      · exact Or.inr ⟨h', ho.congr rfl rfl rfl⟩
    · exact fun ho => hb.offset_le (ho.congr rfl rfl rfl)

theorem Offsets.reads {fhandle : Int} {len : Nat} {p : Int × List UInt8} (hb : fs.Offsets)
    (hr : Reads fs fhandle len p fs') : fs'.Offsets := by
  cases hr with
  | invalid _ => exact hb
  | nothing _ _ _ _ _ => exact hb
  | loaded h k b n _ ho _ hn _ _ _ =>
    have hsize := (hb.inData (Or.inr ⟨h, ho⟩)).size_le.trans_lt (Geometry.blockSize_lt fs)
    rw [readCount_eq (hb.offset_le ho) hsize] at hn
    refine hb.of_handles rfl rfl rfl ?_ ?_
    · rintro j (hj | ⟨h', ho'⟩)
      · exact Or.inl (hj.congr rfl rfl)
      · exact Or.inr ⟨h', ho'.congr rfl rfl setOffset_ofInumber.symm⟩
    · intro h' j ho'
      have hold : fs.OpenOn h' j := ho'.congr rfl rfl setOffset_ofInumber.symm
      by_cases hh : h' = h
      · subst hh
        obtain rfl : j = k := Int.ofNat_inj.mp (hold.inumber.symm.trans ho.inumber)
        have hle := hb.offset_le ho
        simp only [setOffset, Function.update_self]
        omega
      · simpa only [setOffset, Function.update_of_ne hh] using hb.offset_le hold

/-! ### Writing -/

/-- A write of `n` bytes that stays in its block and in `fs_data`. -/
theorem written_inData {bs : List UInt8} (hd : fs.InData j)
    (hblock : (fs.openFileTable h).ofOffset + bs.length ≤ fs.blockSize)
    (hfits : fs.handleAddr h k + bs.length ≤ fs.fsDataSize) : (fs.written h k bs).InData j := by
  by_cases hjk : j = k
  · subst hjk
    have hsize := hd.size_le
    have hold := hd.fits
    rw [handleAddr] at hfits
    constructor
    · rw [written_inode_self]
      exact max_le hsize hblock
    · intro _
      rw [written_inode_self]
      show (fs.inodeTable j).iDataBlock.toNat * fs.blockSize +
        max (fs.inodeTable j).iSize ((fs.openFileTable h).ofOffset + bs.length) ≤ fs.fsDataSize
      omega
  · exact hd.congr rfl rfl (written_inode_of_ne hjk)

theorem Offsets.written {bs : List UInt8} (hb : fs.Offsets) (ho : fs.OpenOn h k)
    (hblock : (fs.openFileTable h).ofOffset + bs.length ≤ fs.blockSize)
    (hfits : fs.handleAddr h k + bs.length ≤ fs.fsDataSize) : (fs.written h k bs).Offsets := by
  constructor
  · rintro j (hj | ⟨h', ho'⟩)
    · exact written_inData (hb.inData (Or.inl (hj.congr rfl rfl))) hblock hfits
    · exact written_inData (hb.inData (Or.inr ⟨h', ho'.congr rfl rfl written_ofInumber.symm⟩))
        hblock hfits
  · intro h' j ho'
    have hold : fs.OpenOn h' j := ho'.congr rfl rfl written_ofInumber.symm
    by_cases hh : h' = h
    · subst hh
      obtain rfl : j = k := Int.ofNat_inj.mp (hold.inumber.symm.trans ho.inumber)
      rw [written_inode_self]
      simp only [Fs.written, Function.update_self]
      exact le_max_right _ _
    · have hle := hb.offset_le hold
      have hsame : (fs.written h k bs).openFileTable h' = fs.openFileTable h' :=
        Function.update_of_ne hh _ _
      rw [hsame]
      by_cases hjk : j = k
      · subst hjk
        rw [written_inode_self]
        exact hle.trans (le_max_left _ _)
      · rwa [written_inode_of_ne hjk]

theorem Offsets.allocated {b : Nat} (hb : fs.Offsets) (hempty : (fs.inodeTable k).iSize = 0) :
    (fs.allocated k b).Offsets := by
  constructor
  · intro j hj
    by_cases hjk : j = k
    · subst hjk
      exact inData_of_empty (allocated_inode_iSize.trans hempty)
    · refine (hb.inData ?_).congr rfl rfl (Function.update_of_ne hjk _ _)
      rcases hj with hj | ⟨h, ho⟩
      · exact Or.inl (hj.congr rfl rfl)
      · exact Or.inr ⟨h, ho.congr rfl rfl rfl⟩
  · intro h j ho
    rw [allocated_inode_iSize]
    exact hb.offset_le (ho.congr rfl rfl rfl)

theorem Offsets.writeBlock {buffer : Memory} {len : Nat} (hb : fs.Offsets) (ho : fs.OpenOn h k)
    (hfile : fs.FileBlock (fs.inodeTable k).iDataBlock)
    (hn : fs.writeCount (fs.openFileTable h).ofOffset len = n) (hpos : 0 < n)
    (hrun : fs.writeBlock h k buffer n = .ok fs') : fs'.Offsets := by
  rw [writeBlock_eq hfile] at hrun
  split at hrun
  · cases hrun
  · next hfit =>
    cases hrun
    have hcut := writeCount_of_fits hn hpos (offset_lt_of_fits hfit)
    apply hb.written ho
    · rw [length_load]
      exact hcut.1
    · rw [length_load]
      exact not_lt.mp hfit

theorem Offsets.writes {fhandle : Int} {buffer : Memory} {len : Nat} (hb : fs.Offsets)
    (wf : fs.WellFormed) (hrun : fs.tfsWrite fhandle buffer len = .ok (r, fs')) :
    fs'.Offsets := by
  have hcall := wf.writeRun fhandle buffer len
  generalize fs.tfsWrite fhandle buffer len = result at hrun hcall
  cases hcall with
  | invalid | nothing | full =>
    cases hrun
    exact hb
  | fresh h k b n _ ho hn hpos hempty hb0 hlt _ =>
    -- the file gets a block first
    obtain ⟨fs₁, hblock, hrun⟩ := bind_eq_ok.mp hrun
    cases hrun
    exact (hb.allocated hempty).writeBlock (ho.congr rfl rfl rfl) (allocated_fileBlock hb0 hlt) hn
      hpos hblock
  | stored h k n _ ho hn hpos hkpos =>
    obtain ⟨fs₁, hblock, hrun⟩ := bind_eq_ok.mp hrun
    cases hrun
    exact hb.writeBlock ho (wf.handles.block ho hkpos) hn hpos hblock

end Fs

open Fs

variable {fs fs' fs₀ fs₁ : Fs} {params : TfsParams} {malloc : Malloc} {call : Call}

/-- A call that spares the open handles keeps the offsets in their files. -/
theorem Fs.Offsets.step (hb : fs.Offsets) (wf : fs.WellFormed) (hok : fs.SparesHandles call)
    (hs : stateStep exec fs call = some fs') : fs'.Offsets := by
  obtain ⟨reply, hrun⟩ := stateStep_eq_some.mp hs
  cases call with
  | «open» name mode =>
    obtain ⟨⟨r, fs₁⟩, heq, hrun⟩ := bind_eq_ok.mp hrun
    cases hrun
    exact hb.opens wf hok heq
  | write fhandle buffer len =>
    obtain ⟨⟨r, fs₁⟩, heq, hrun⟩ := bind_eq_ok.mp hrun
    cases hrun
    exact hb.writes wf heq
  | close fhandle =>
    cases performs_of_exec wf hrun with
    | closes hc => exact hb.closes hc
  | read fhandle len =>
    cases performs_of_exec wf hrun with
    | reads hr => exact hb.reads hr
  | unlink target =>
    cases performs_of_exec wf hrun with
    | unlinks hu => exact hb.unlinks hu

theorem Fs.Initial.offsets (hi : Initial params fs) : fs.Offsets := by
  have hclosed : ∀ {h k}, ¬ fs.OpenOn h k := by
    intro h k ho
    have htaken := ho.taken
    rw [hi.handles h] at htaken
    cases htaken
  refine ⟨?_, fun ho => absurd ho hclosed⟩
  rintro k (hk | ⟨h, ho⟩)
  · exact absurd (hi.inodes hk.taken) hk.pos.ne'
  · exact absurd ho hclosed

/-- What holds in every state of a run that spares the open handles. -/
structure Fs.KeepsOffsets (fs : Fs) : Prop where
  wf : fs.WellFormed
  offsets : fs.Offsets

/-- In a run in which no call empties an inode with a handle behind its start, every open handle
stays in its file in every state reached. -/
theorem inFile_of_reaches (hp : Bounded params) (hinit : fs₀.tfsInit params malloc = .ok (0, fs₁))
    (hr : Reaches (stateStep exec) SparesHandles fs₁ fs) {h k : Nat} (ho : fs.OpenOn h k) :
    fs.InFile h k := by
  have hinitial := initial_of_tfsInit hinit
  have hinv : fs.KeepsOffsets := by
    refine hr.invariant ⟨hinitial.wellFormed hp, hinitial.offsets⟩ ?_
    intro u a v hu hok hs
    exact ⟨wellFormed_step hu.wf hs, hu.offsets.step hu.wf hok hs⟩
  exact hinv.wf.inFile ho (hinv.offsets.inData (Or.inr ⟨h, ho⟩)) (hinv.offsets.offset_le ho)

/-- Create a file and write two bytes to it. -/
def writeTwo : List Call :=
  [.open (some pathA) { creat := true }, .write 0 (fun _ => 104) 2]

theorem writeTwo_inFile :
    ∃ fs, runLabels (stateStep exec) smallFs writeTwo = some fs ∧ fs.InFile 0 1 := by
  have hrun : (runLabels (stateStep exec) smallFs writeTwo).map (fun fs =>
      ((fs.freeOpenFileEntries 0, (fs.openFileTable 0).ofInumber), fs.maxOpenFiles)) =
        some ((.taken, 1), 2) := by
    decide +kernel
  obtain ⟨fs, hs, hval⟩ := Option.map_eq_some_iff.mp hrun
  obtain ⟨hentry, hmax⟩ := Prod.mk.inj hval
  obtain ⟨htaken, hinumber⟩ := Prod.mk.inj hentry
  have hopen : fs.OpenOn 0 1 := ⟨by rw [hmax]; decide, htaken, hinumber⟩
  obtain ⟨u, hu, hlast⟩ := Option.bind_eq_some_iff.mp hs
  obtain ⟨v, hv, hend⟩ := Option.bind_eq_some_iff.mp hlast
  cases hend
  -- nothing is open when the file is created
  have hfirst : smallFs.SparesHandles (.open (some pathA) { creat := true }) := by
    intro k _ h ho
    cases ho.taken
  have hr : Reaches (stateStep exec) SparesHandles smallFs fs :=
    ((Reaches.refl _).snoc _ hfirst hu).snoc (.write 0 (fun _ => 104) 2) trivial hv
  exact ⟨fs, hs, inFile_of_reaches bounded_small tfsInit_small hr hopen⟩

/-- A second handle truncates the file. The first one stays behind its start, and a read at the end
of the file returns a byte. -/
theorem truncateTwo_not_inFile :
    ∃ fs, runLabels (stateStep exec) smallFs
        (writeTwo ++ [.open (some pathA) { trunc := true }]) = some fs ∧
      fs.OpenOn 0 1 ∧ ¬ fs.InFile 0 1 ∧ (fs.tfsRead 0 1).toOption.map (·.1.1) = some 1 := by
  have hrun : (runLabels (stateStep exec) smallFs
      (writeTwo ++ [.open (some pathA) { trunc := true }])).map (fun fs =>
        ((fs.freeOpenFileEntries 0, (fs.openFileTable 0).ofInumber), fs.maxOpenFiles,
          (fs.openFileTable 0).ofOffset, (fs.inodeTable 1).iSize,
          (fs.tfsRead 0 1).toOption.map (·.1.1))) =
        some ((.taken, 1), 2, 2, 0, some 1) := by
    decide +kernel
  obtain ⟨fs, hs, hval⟩ := Option.map_eq_some_iff.mp hrun
  simp only [Prod.mk.injEq] at hval
  obtain ⟨⟨htaken, hinumber⟩, hmax, hoffset, hsize, hread⟩ := hval
  refine ⟨fs, hs, ⟨by rw [hmax]; decide, htaken, hinumber⟩, fun hin => ?_, hread⟩
  have hle := hin.offset_le
  rw [hoffset, hsize] at hle
  omega

end MessageBroker.Tfs
