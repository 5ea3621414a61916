import MessageBroker.Tfs.Reference

/-!
# Handles of removed files

`tfs_unlink` frees an inode and its block while handles are open on it. Such a handle still
reads and writes them, and these are the bytes of no other file until the inode or the block is
given to one.
-/

namespace MessageBroker.Tfs

open Bytes Table Transition

namespace Fs

variable {fs fs' : Fs} {h i j k b len : Nat} {fhandle r : Int} {buffer : Memory}

/-- The inodes that a call takes. -/
def takenBy (fs fs' : Fs) : List Nat :=
  (List.range fs.inodeTableSize).filter fun k =>
    decide (fs.freeinodeTs k = .free ∧ fs'.freeinodeTs k = .taken)

/-- File `j`, if there is one, has neither inode `k`, in use or not, nor its block. -/
def ApartFrom (fs : Fs) (k j : Nat) : Prop :=
  fs.IsFile j → j ≠ k ∧
    (0 < (fs.inodeTable j).iSize → (fs.inodeTable j).iDataBlock ≠ (fs.inodeTable k).iDataBlock)

/-- A `tfs_write` of `len` bytes gives block `b` to inode `j`, which has none. -/
def GivesBlock (fs : Fs) (fhandle : Int) (len j b : Nat) : Prop :=
  ∃ h : Nat, fhandle = h ∧ fs.OpenOn h j ∧ 0 < fs.writeCount (fs.openFileTable h).ofOffset len ∧
    (fs.inodeTable j).iSize = 0 ∧ fs.dataBlockAlloc.1 = some b

theorem mem_takenBy : k ∈ takenBy fs fs' ↔
    k < fs.inodeTableSize ∧ fs.freeinodeTs k = .free ∧ fs'.freeinodeTs k = .taken := by
  simp [takenBy]

theorem takenBy_eq_nil (hi : ∀ k, fs'.freeinodeTs k = .taken → fs.freeinodeTs k = .taken) :
    takenBy fs fs' = [] := by
  apply List.eq_nil_iff_forall_not_mem.mpr
  intro k hk
  obtain ⟨_, hfree, htaken⟩ := mem_takenBy.mp hk
  cases hfree.symm.trans (hi k htaken)

/-- Only the inodes and which of them are in use matter. -/
theorem ApartFrom.congr (ha : fs.ApartFrom k j) (hfile : fs'.IsFile j → fs.IsFile j)
    (ht : fs'.inodeTable = fs.inodeTable) : fs'.ApartFrom k j := by
  intro hj
  rw [ht]
  exact ha (hfile hj)

theorem firstIndex_of_alloc (h : fs.dataBlockAlloc.1 = some b) :
    firstIndex (fun i => fs.freeBlocks i == .free) fs.dataBlocks = some b := by
  unfold dataBlockAlloc at h
  split at h
  · next hf => exact hf.trans h
  · cases h

/-! ### Writing -/

/-- The inodes after a `tfs_write`: one may receive its first block. -/
theorem WellFormed.inode_of_write (wf : fs.WellFormed)
    (hrun : fs.tfsWrite fhandle buffer len = .ok (r, fs')) (j : Nat) :
    ((fs'.inodeTable j).iDataBlock = (fs.inodeTable j).iDataBlock ∧
        (0 < (fs'.inodeTable j).iSize → 0 < (fs.inodeTable j).iSize)) ∨
      ∃ b, fs.GivesBlock fhandle len j b ∧ fs.freeBlocks b = .free ∧
        (fs'.inodeTable j).iDataBlock = b := by
  have hcall := wf.writeRun fhandle buffer len
  generalize fs.tfsWrite fhandle buffer len = result at hrun hcall
  cases hcall with
  | invalid | nothing | full =>
    cases hrun
    exact Or.inl ⟨rfl, id⟩
  | fresh h k b n heq ho hn hpos hempty hb0 hlt hfree halloc =>
    obtain ⟨fs₁, hblock, hrun⟩ := bind_eq_ok.mp hrun
    cases hrun
    have ho' : (fs.allocated k b).OpenOn h k := ho.congr rfl rfl rfl
    obtain ⟨rfl, _⟩ := canWrite_of_writeBlock ho' (allocated_fileBlock hb0 hlt)
      (fun _ => wf.allocated_owned hfree) hn hpos hblock
    by_cases hjk : j = k
    · subst hjk
      refine Or.inr ⟨b, ⟨h, heq, ho, hn ▸ hpos, hempty, halloc⟩, hfree, ?_⟩
      rw [written_iDataBlock]
      simp [Fs.allocated]
    · have hsame : (fs.allocated k b).inodeTable j = fs.inodeTable j :=
        Function.update_of_ne hjk _ _
      rw [written_inode_of_ne hjk, hsame]
      exact Or.inl ⟨rfl, id⟩
  | stored h k n heq ho hn hpos hkpos =>
    obtain ⟨fs₁, hblock, hrun⟩ := bind_eq_ok.mp hrun
    cases hrun
    rw [writeBlock_eq (wf.handles.block ho hkpos)] at hblock
    split at hblock
    · cases hblock
    · cases hblock
      refine Or.inl ⟨written_iDataBlock, fun hjpos => ?_⟩
      by_cases hjk : j = k
      · exact hjk ▸ hkpos
      · rwa [written_inode_of_ne hjk] at hjpos

/-- An inode that is given a block has it after the call, and is not empty any more. -/
theorem GivesBlock.written (hg : fs.GivesBlock fhandle len j b) (wf : fs.WellFormed)
    (hrun : fs.tfsWrite fhandle buffer len = .ok (r, fs')) :
    (fs'.inodeTable j).iDataBlock = b ∧ 0 < (fs'.inodeTable j).iSize := by
  obtain ⟨h, rfl, ho, hpos, hempty, halloc⟩ := hg
  have hcall := wf.writeRun h buffer len
  generalize fs.tfsWrite h buffer len = result at hrun hcall
  cases hcall with
  | invalid hno => exact absurd ho (hno rfl)
  | nothing h' k heq ho' hn =>
    obtain rfl := Int.natCast_inj.mp heq
    omega
  | full h' k heq ho' _ _ hfull =>
    obtain ⟨hfree, hlt, _⟩ := firstIndex_eq_some.mp (firstIndex_of_alloc halloc)
    rw [hfull b hlt] at hfree
    cases hfree
  | stored h' k n heq ho' _ _ hkpos =>
    obtain rfl := Int.natCast_inj.mp heq
    obtain rfl := ho.inode_unique ho'
    omega
  | fresh h' k b' n heq ho' hn hpos' _ hb0 hlt hfree halloc' =>
    obtain rfl := Int.natCast_inj.mp heq
    obtain rfl := ho.inode_unique ho'
    obtain rfl := Option.some.inj (halloc.symm.trans halloc')
    obtain ⟨fs₁, hblock, hrun⟩ := bind_eq_ok.mp hrun
    cases hrun
    have ho' : (fs.allocated j b).OpenOn h j := ho.congr rfl rfl rfl
    obtain ⟨rfl, _⟩ := canWrite_of_writeBlock ho' (allocated_fileBlock hb0 hlt)
      (fun _ => wf.allocated_owned hfree) hn hpos' hblock
    refine ⟨?_, ?_⟩
    · rw [written_iDataBlock]
      simp [Fs.allocated]
    · rw [written_inode_self]
      apply lt_max_of_lt_right
      rw [length_load]
      omega

theorem Writes.isFile_iff (hw : Writes fs fhandle buffer len r fs') :
    fs'.IsFile j ↔ fs.IsFile j := by
  have hp : fs'.fsParams = fs.fsParams := by cases hw <;> rfl
  have hi : fs'.freeinodeTs = fs.freeinodeTs := by cases hw <;> rfl
  exact ⟨fun hj => hj.congr hp.symm hi.symm, fun hj => hj.congr hp hi⟩

/-- A write through a handle on inode `k`, in use or not, leaves a file with another inode and
another block. -/
theorem Writes.fileOf_of_block_ne (wf : fs.WellFormed) (hw : Writes fs h buffer len r fs')
    (ho : fs.OpenOn h k) (hj : fs.IsFile j) (hjk : j ≠ k)
    (hblock : 0 < (fs.inodeTable j).iSize → 0 < (fs.inodeTable k).iSize →
      (fs.inodeTable j).iDataBlock ≠ (fs.inodeTable k).iDataBlock) :
    fs'.fileOf j = fs.fileOf j := by
  cases hw with
  | invalid | nothing | full => rfl
  | fresh h' k' b m heq hempty hb hfree hm hcan =>
    obtain rfl : h = h' := Int.natCast_inj.mp heq
    obtain rfl := ho.inode_unique (hcan.openOn.congr rfl rfl rfl)
    have hwf := wf.allocated (wf.handles.valid ho).1 hempty hfree
    have hother : (fs.allocated k b).inodeTable j = fs.inodeTable j :=
      Function.update_of_ne hjk _ _
    -- the new block was free, that of the file was not
    have hne : 0 < ((fs.allocated k b).inodeTable j).iSize →
        ((fs.allocated k b).inodeTable j).iDataBlock ≠
          ((fs.allocated k b).inodeTable k).iDataBlock := by
      rw [hother]
      intro hpos heq'
      apply wf.files.block_ne_of_free hfree hj hpos
      rw [heq']
      simp [Fs.allocated]
    rw [written_fileOf_of_block_ne hwf.files hcan (hj.congr rfl rfl) hjk hne]
    exact fileOf_congr rfl hother fun _ _ => rfl
  | stored h' k' m heq hkpos _ hcan =>
    obtain rfl : h = h' := Int.natCast_inj.mp heq
    obtain rfl := ho.inode_unique hcan.openOn
    exact written_fileOf_of_block_ne wf.files hcan hj hjk fun hpos => hblock hpos hkpos

end Fs

open Fs

/-! ### Calls that leave a file apart from a handle -/

variable {fs fs' : Fs} {h i j k b : Nat} {call : Call} {reply : Reply}

theorem afterTrunc_fsData {mode : FileMode} : (fs.afterTrunc mode k).fsData = fs.fsData := by
  rw [afterTrunc]
  split
  · exact truncated_fsData
  · rfl

theorem AddsHandle.openOn {k' offset : Nat} {r : Int} (ha : AddsHandle fs k' offset r fs')
    (ho : fs.OpenOn h k) : fs'.OpenOn h k := by
  cases ha with
  | full _ => exact ho
  | slot h' _ hfree _ =>
    refine opened_openOn_of_ne ?_ ho
    rintro rfl
    cases hfree.symm.trans ho.taken

/-- A handle stays on its inode until it is closed. -/
theorem Performs.openOn (hp : Performs fs call reply fs') (ho : fs.OpenOn h k)
    (hcall : call ≠ .close h) : fs'.OpenOn h k := by
  cases hp with
  | opens hopens =>
    cases hopens with
    | existing _ _ _ ha =>
      apply AddsHandle.openOn ha
      unfold afterTrunc
      split
      · exact (openOn_iff_of_same truncated_fsParams truncated_freeOpenFileEntries
          truncated_openFileTable).mpr ho
      · exact ho
    | created k' i' _ _ _ _ ha => exact AddsHandle.openOn ha (ho.congr rfl rfl rfl)
    | noEntry => exact ho.congr rfl rfl rfl
    | _ => exact ho
  | closes hc =>
    cases hc with
    | invalid _ => exact ho
    | closed h' _ heq _ =>
      refine closed_openOn_iff.mpr ⟨?_, ho⟩
      rintro rfl
      exact hcall (congrArg Call.close heq)
  | writes hw =>
    cases hw with
    | fresh h' k' b m _ _ _ _ _ _ => exact written_openOn_iff.mpr (ho.congr rfl rfl rfl)
    | stored h' k' m _ _ _ _ => exact written_openOn_iff.mpr ho
    | _ => exact ho
  | reads hr =>
    cases hr with
    | loaded => exact setOffset_openOn_iff.mpr ho
    | _ => exact ho
  | unlinks hu =>
    cases hu with
    | removed => exact ho.congr rfl rfl rfl
    | _ => exact ho

/-- Only `tfs_open` takes an inode: the lowest free one, for a new file. -/
theorem taken_of_exec (wf : fs.WellFormed) (hrun : exec fs call = .ok (reply, fs'))
    (hfree : fs.freeinodeTs j = .free) (htaken : fs'.freeinodeTs j = .taken) :
    ∃ path mode i, call = .open (some path) mode ∧ validPathname (some path) = true ∧
      mode.creat = true ∧ fs.CanCreate j i path.tail ∧ fs.inodeAlloc.1 = some j ∧
      fs'.inodeTable j = ⟨.file, 0, -1⟩ ∧ fs'.EntryAt i path.tail j := by
  have hsame : fs'.freeinodeTs j ≠ fs.freeinodeTs j := by
    rw [hfree, htaken]
    nofun
  cases performs_of_exec wf hrun with
  | closes hc => cases hc <;> exact absurd rfl hsame
  | writes hw =>
    have hi : fs'.freeinodeTs = fs.freeinodeTs := by cases hw <;> rfl
    exact absurd (congrFun hi j) hsame
  | reads hr => cases hr <;> exact absurd rfl hsame
  | unlinks hu =>
    cases hu with
    | @removed _ _ k _ _ _ =>
      -- an inode that is taken was so before
      by_cases hjk : j = k
      · subst hjk
        cases (Function.update_self _ _ _).symm.trans htaken
      · exact absurd (Function.update_of_ne hjk _ _) hsame
    | _ => exact absurd rfl hsame
  | @opens name mode r _ ho =>
    cases ho with
    | @existing _ _ k _ _ _ _ _ ha =>
      have hopened : fs'.freeinodeTs = (fs.afterTrunc mode k).freeinodeTs := by
        cases ha <;> rfl
      exact absurd (congrFun (hopened.trans afterTrunc_freeinodeTs) j) hsame
    | created k i hn hv hc hcan _ =>
      subst hn
      obtain ⟨r', fs₁, heq, hcreates⟩ := wf.tfsOpen_creates hv hcan.absent hc
      have hfs : fs₁ = fs' := by
        simp only [exec, heq, ok_bind] at hrun
        cases hrun
        rfl
      subst hfs
      cases hcreates with
      | created k' i' halloc hcan' ha =>
        have htable : fs₁.freeinodeTs = Function.update fs.freeinodeTs k' .taken := by
          cases ha <;> rfl
        have hinode : fs₁.inodeTable = Function.update fs.inodeTable k' ⟨.file, 0, -1⟩ := by
          cases ha <;> rfl
        have hjk : j = k' := by
          by_contra hjk
          rw [htable, Function.update_of_ne hjk] at hsame
          exact hsame rfl
        subst hjk
        refine ⟨_, mode, i', rfl, hv, hc, hcan', halloc, ?_, ?_⟩
        · rw [hinode, Function.update_self]
        · cases ha <;> exact (hcan'.entryAt_self wf.geometry).keep rfl rfl
      | _ => exact absurd rfl hsame
    | _ => exact absurd rfl hsame

/-- The `tfs_open` that creates a file takes the inode and adds the entry, even if it leaves no
handle. -/
theorem created_of_exec {n : CString} {mode : FileMode} (wf : fs.WellFormed)
    (hv : validPathname (some n) = true) (hcan : fs.CanCreate k i n.tail)
    (halloc : fs.inodeAlloc.1 = some k) (hc : mode.creat = true)
    (hrun : exec fs (.open (some n) mode) = .ok (reply, fs')) :
    fs'.IsFile k ∧ k ∈ takenBy fs fs' ∧ ∃ i, fs'.EntryAt i n.tail k := by
  have wf' := (performs_of_exec wf hrun).wellFormed wf
  obtain ⟨r, fs₁, heq, hcreates⟩ := wf.tfsOpen_creates hv hcan.absent hc
  have hfs : fs₁ = fs' := by
    simp only [exec, heq, ok_bind] at hrun
    cases hrun
    rfl
  subst hfs
  cases hcreates with
  | noInode hfull => cases (hfull k hcan.inode_valid).symm.trans hcan.inode_free
  | noEntry _ _ _ _ hno =>
    obtain hlong | hfull := hno
    · exact absurd hcan.short (not_lt.mpr hlong)
    · exact absurd hcan.entry_free (hfull i hcan.index)
  | created k' i' halloc' hcan' ha =>
    obtain rfl := Option.some.inj (halloc.symm.trans halloc')
    have he : fs₁.EntryAt i' n.tail k := by
      cases ha <;> exact (hcan'.entryAt_self wf.geometry).keep rfl rfl
    have hfile := wf'.directory.isFile he
    exact ⟨hfile, mem_takenBy.mpr ⟨hcan.inode_valid, hcan.inode_free, hfile.taken⟩, i', he⟩

/-- A call adds no entry but that of a new file. -/
theorem entryAt_of_exec {n : CString} (wf : fs.WellFormed) (hrun : exec fs call = .ok (reply, fs'))
    (he : fs'.EntryAt i n k) : fs.EntryAt i n k ∨ fs.freeinodeTs k = .free := by
  cases performs_of_exec wf hrun with
  | closes hc => cases hc <;> exact Or.inl (he.keep rfl rfl)
  | reads hr => cases hr <;> exact Or.inl (he.keep rfl rfl)
  | writes hw =>
    cases hw with
    | fresh _ _ _ _ _ _ _ _ _ hcan | stored _ _ _ _ _ _ hcan =>
      exact Or.inl (he.congr rfl (hcan.sameEntry he.index).symm)
    | _ => exact Or.inl he
  | unlinks hu =>
    cases hu with
    | removed => exact Or.inl (removedFile_entryAt_iff.mp he).2
    | _ => exact Or.inl he
  | @opens name mode r _ ho =>
    cases ho with
    | existing _ _ _ ha =>
      have hdata : fs'.fsParams = fs.fsParams ∧ fs'.fsData = fs.fsData := by
        cases ha <;> exact ⟨afterTrunc_fsParams, afterTrunc_fsData⟩
      exact Or.inl (he.keep hdata.1.symm hdata.2.symm)
    | @created p _ _ k' i' _ _ _ hcan ha =>
      have he' : (fs.createdFile k' i' p.tail).EntryAt i n k := by
        cases ha <;> exact he.keep rfl rfl
      obtain ⟨_, _, rfl⟩ | ⟨_, hold⟩ := (hcan.entryAt_iff wf.geometry).mp he'
      · exact Or.inr hcan.inode_free
      · exact Or.inl hold
    | _ => exact Or.inl (he.keep rfl rfl)

/-- A new file is empty. -/
theorem apartFrom_of_taken (wf : fs.WellFormed) (hrun : exec fs call = .ok (reply, fs'))
    (hj : j ∈ takenBy fs fs') (hk : k ∉ takenBy fs fs') : fs'.ApartFrom k j := by
  obtain ⟨_, hfree, htaken⟩ := mem_takenBy.mp hj
  obtain ⟨_, _, _, _, _, _, _, _, hinode, _⟩ := taken_of_exec wf hrun hfree htaken
  intro _
  refine ⟨?_, ?_⟩
  · rintro rfl
    exact hk hj
  · intro hpos
    rw [hinode] at hpos
    exact absurd hpos (lt_irrefl 0)

/-- A `tfs_open` without `TFS_O_TRUNC` leaves a file apart from an inode that it does not take. -/
theorem Fs.ApartFrom.opens {name : Option CString} {mode : FileMode} {r : Int}
    (ha : fs.ApartFrom k j) (wf : fs.WellFormed) (ho : Opens fs name mode r fs')
    (htrunc : mode.trunc = false)
    (hk : fs'.freeinodeTs k = .taken → fs.freeinodeTs k = .taken) : fs'.ApartFrom k j := by
  cases ho with
  | existing _ _ _ hadd =>
    rw [afterTrunc_of_not htrunc] at hadd
    cases hadd <;> exact ha.congr (fun hj => hj.congr rfl rfl) rfl
  | noEntry k' _ _ _ _ _ hfree _ =>
    -- the inode was reset, and has no block any more
    intro hj
    have hj' : fs.IsFile j := hj.congr rfl rfl
    have hinode : (fs.resetInode k').inodeTable j = fs.inodeTable j :=
      Function.update_of_ne (hj'.ne_of_free hfree) _ _
    refine ⟨(ha hj').1, ?_⟩
    rw [hinode]
    intro hpos
    by_cases hkk : k = k'
    · subst hkk
      obtain ⟨b, hb, _⟩ := (wf.files.block hj' hpos).1
      have hnone : (fs.resetInode k).inodeTable k = ⟨.file, 0, -1⟩ := Function.update_self _ _ _
      rw [hb, hnone]
      nofun
    · have hsame : (fs.resetInode k').inodeTable k = fs.inodeTable k :=
        Function.update_of_ne hkk _ _
      rw [hsame]
      exact (ha hj').2 hpos
  | created k' i' _ _ _ hcan hadd =>
    have hfile : fs'.IsFile j → j = k' ∨ fs.IsFile j := by
      intro hj
      apply (hcan.isFile_iff wf.root).mp
      cases hadd
      · exact hj
      · exact hj.congr rfl rfl
    have hinode : fs'.inodeTable = Function.update fs.inodeTable k' ⟨.file, 0, -1⟩ := by
      cases hadd <;> rfl
    have htable : fs'.freeinodeTs = Function.update fs.freeinodeTs k' .taken := by
      cases hadd <;> rfl
    have hkk : k ≠ k' := by
      rintro rfl
      rw [htable, Function.update_self] at hk
      cases hcan.inode_free.symm.trans (hk rfl)
    intro hj
    obtain rfl | hj := hfile hj
    · refine ⟨hkk.symm, ?_⟩
      rw [hinode, Function.update_self]
      exact fun hpos => absurd hpos (lt_irrefl 0)
    · have hjk' : j ≠ k' := hj.ne_of_free hcan.inode_free
      rw [hinode, Function.update_of_ne hjk', Function.update_of_ne hkk]
      exact ha hj
  | _ => exact ha

/-- A `tfs_write` leaves a file apart from an inode, unless the file receives its first block and
that is the block of the inode. -/
theorem Fs.ApartFrom.writes {fhandle r : Int} {buffer : Memory} {len : Nat}
    (ha : fs.ApartFrom k j) (wf : fs.WellFormed)
    (hwrite : fs.tfsWrite fhandle buffer len = .ok (r, fs'))
    (hblock : ∀ b, fs.GivesBlock fhandle len j b → fs.IsFile j →
      (fs.inodeTable k).iDataBlock ≠ b) : fs'.ApartFrom k j := by
  intro hj
  have hj' := (wf.tfsWrite hwrite).isFile_iff.mp hj
  obtain ⟨hjk, hne⟩ := ha hj'
  refine ⟨hjk, fun hpos => ?_⟩
  obtain ⟨hsame, hold⟩ | ⟨b, hgives, _, hb⟩ := wf.inode_of_write hwrite j
  · rw [hsame]
    obtain ⟨hsame', _⟩ | ⟨b, _, hfree, hb⟩ := wf.inode_of_write hwrite k
    · rw [hsame']
      exact hne (hold hpos)
    · -- the new block of the inode was free, that of the file was not
      rw [hb]
      intro heq
      exact wf.files.block_ne_of_free hfree hj' (hold hpos) (by rw [heq]; rfl)
  · rw [hb]
    obtain ⟨hsame', _⟩ | ⟨b', hgives', _⟩ := wf.inode_of_write hwrite k
    · rw [hsame']
      exact (hblock b hgives hj').symm
    · -- a write gives a block to one inode only
      obtain ⟨h, rfl, ho, _⟩ := hgives
      obtain ⟨h', heq, ho', _⟩ := hgives'
      obtain rfl : h = h' := Int.natCast_inj.mp heq
      exact absurd (ho.inode_unique ho') hjk

/-- A file stays apart from an inode that is not taken, unless it receives its first block and that
is the block of the inode. -/
theorem Fs.ApartFrom.exec (ha : fs.ApartFrom k j) (wf : fs.WellFormed)
    (hrun : exec fs call = .ok (reply, fs'))
    (htrunc : ∀ path mode, call = .open path mode → mode.trunc = false)
    (hk : fs'.freeinodeTs k = .taken → fs.freeinodeTs k = .taken)
    (hblock : ∀ fhandle buffer len b, call = .write fhandle buffer len →
      fs.GivesBlock fhandle len j b → fs.IsFile j → (fs.inodeTable k).iDataBlock ≠ b) :
    fs'.ApartFrom k j := by
  cases performs_of_exec wf hrun with
  | closes hc => cases hc <;> exact ha.congr (fun hj => hj.congr rfl rfl) rfl
  | reads hr => cases hr <;> exact ha.congr (fun hj => hj.congr rfl rfl) rfl
  | unlinks hu =>
    cases hu with
    | removed => exact ha.congr (fun hj => (removedFile_isFile_iff.mp hj).2) rfl
    | _ => exact ha
  | opens ho => exact ha.opens wf ho (htrunc _ _ rfl) hk
  | writes hw =>
    obtain ⟨⟨r', fs₁⟩, hwrite, hret⟩ := bind_eq_ok.mp hrun
    cases hret
    exact ha.writes wf hwrite fun b => hblock _ _ _ b rfl

/-- A call that creates, truncates and unlinks nothing leaves a file that is apart from the inode
that it writes to. -/
theorem file_of_exec (wf : fs.WellFormed) (hrun : exec fs call = .ok (reply, fs'))
    (hopen : ∀ path mode, call = .open path mode → mode.trunc = false ∧ mode.creat = false)
    (hunlink : ∀ path, call ≠ .unlink path)
    (hwrite : ∀ fhandle buffer len, call = .write fhandle buffer len →
      ∃ h k : Nat, fhandle = h ∧ fs.OpenOn h k ∧ fs.ApartFrom k j)
    (hj : fs.IsFile j) : fs'.IsFile j ∧ fs'.fileOf j = fs.fileOf j := by
  cases performs_of_exec wf hrun with
  | closes hc => cases hc <;> exact ⟨hj.congr rfl rfl, rfl⟩
  | reads hr => cases hr <;> exact ⟨hj.congr rfl rfl, rfl⟩
  | unlinks hu => exact absurd rfl (hunlink _)
  | writes hw =>
    obtain ⟨h, k, rfl, ho, ha⟩ := hwrite _ _ _ rfl
    obtain ⟨hjk, hblock⟩ := ha hj
    exact ⟨hw.isFile_iff.mpr hj,
      hw.fileOf_of_block_ne wf ho hj hjk fun hpos _ => hblock hpos⟩
  | opens ho =>
    obtain ⟨htrunc, hcreat⟩ := hopen _ _ rfl
    cases ho with
    | existing _ _ _ hadd =>
      rw [afterTrunc_of_not htrunc] at hadd
      cases hadd <;> exact ⟨hj.congr rfl rfl, rfl⟩
    | created _ _ _ _ hc | noEntry _ _ _ _ hc => cases hcreat.symm.trans hc
    | _ => exact ⟨hj, rfl⟩

end MessageBroker.Tfs
