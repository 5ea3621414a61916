import MessageBroker.Tfs.HandleSteps

/-!
# Runs of the file system

A successful `tfs_init` gives a well-formed file system with an empty directory
and no open handle, and every call keeps it well formed. A call that faults ends
the run.
-/

namespace MessageBroker.Tfs

open Bytes Table Transition

namespace Fs

variable {fs fs' fs₀ : Fs} {h i j k b : Nat} {params : TfsParams} {malloc : Malloc}

/-- What a successful `tfs_init` leaves. -/
structure Initial (params : TfsParams) (fs : Fs) : Prop where
  fsParams : fs.fsParams = params
  tables : fs.tables = some params
  root : fs.Root
  inodes : ∀ {k}, fs.freeinodeTs k = .taken → k = 0
  blocks : ∀ {b}, fs.freeBlocks b = .taken → b = 0
  entries : ∀ i < fs.maxDirEntries, fs.dInumber 0 i = -1
  handles : ∀ h, fs.freeOpenFileEntries h = .free

theorem loadInt_store_of_disjoint {m : Memory} {addr base : Nat} {v : Int}
    (hd : base + 4 ≤ addr ∨ addr + 4 ≤ base) :
    loadInt (storeInt m addr v) base = loadInt m base := by
  rw [loadInt, storeInt, load_store_disjoint (by simpa using hd), loadInt]

theorem loadInt_labelEntries (m : Memory) {n : Nat} (hi : i < n) :
    loadInt (labelEntries m 0 n) (dInumberAddr 0 i) = -1 := by
  induction n with
  | zero => omega
  | succ n ih =>
    rw [labelEntries]
    by_cases hin : i = n
    · subst hin
      exact loadInt_storeInt _ _ (by decide) (by decide)
    · rw [loadInt_store_of_disjoint, ih (by omega)]
      simp only [dInumberAddr, dirEntry, sizeofDirEntry, maxFileName]
      omega

/-- In a table without taken entries the search stops at the first one. -/
theorem firstIndex_free {n : Nat}
    (hf : firstIndex (fun _ => AllocationState.free == .free) n = some i) : i = 0 ∧ 0 < n := by
  obtain ⟨_, hi, hlow⟩ := firstIndex_eq_some.mp hf
  rcases Nat.eq_zero_or_pos i with rfl | hpos
  · exact ⟨rfl, hi⟩
  · cases hlow 0 hpos

theorem update_free_taken {n : Nat}
    (ht : Function.update (fun _ => AllocationState.free) 0 .taken n = .taken) : n = 0 := by
  by_contra hn
  rw [Function.update_of_ne hn] at ht
  cases ht

/-- The state after the tables are allocated. -/
def allocatedTables (fs : Fs) (params : TfsParams) (heap : Heap) : Fs :=
  { fs with
    fsParams := params
    tables := some params
    inodeTable := heap.inodeTable
    freeinodeTs := fun _ => .free
    fsData := heap.fsData
    freeBlocks := fun _ => .free
    openFileTable := heap.openFileTable
    freeOpenFileEntries := fun _ => .free }

theorem stateInit_zero (hrun : fs₀.stateInit params malloc = (0, fs)) :
    ∃ heap, fs = fs₀.allocatedTables params heap := by
  dsimp only [stateInit] at hrun
  by_cases ht : fs₀.tables.isSome = true
  · simp [ht] at hrun
  · cases malloc with
    | failed set => simp [ht] at hrun
    | granted heap =>
      simp only [ht] at hrun
      exact ⟨heap, (congrArg Prod.snd hrun).symm⟩

/-- The state after the root directory is created. -/
def rootCreated (fs : Fs) (params : TfsParams) (heap : Heap) : Fs :=
  { fs.allocatedTables params heap with
    inodeTable := Function.update heap.inodeTable 0 ⟨.directory, params.blockSize, 0⟩
    freeinodeTs := Function.update (fun _ => .free) 0 .taken
    fsData := labelEntries heap.fsData 0 (params.blockSize / sizeofDirEntry)
    freeBlocks := Function.update (fun _ => .free) 0 .taken }

theorem inodeCreate_directory {heap : Heap}
    (hrun : (fs₀.allocatedTables params heap).inodeCreate .directory = .ok (some 0, fs)) :
    0 < params.maxInodeCount ∧ 0 < params.maxBlockCount ∧ fs = fs₀.rootCreated params heap := by
  rw [inodeCreate, inodeAlloc] at hrun
  cases hf : firstIndex (fun _ => AllocationState.free == .free) params.maxInodeCount with
  | none =>
    simp only [allocatedTables, inodeTableSize, hf] at hrun
    cases hrun
  | some i =>
    obtain ⟨rfl, hi⟩ := firstIndex_free hf
    dsimp only [dataBlockAlloc] at hrun
    cases hb : firstIndex (fun _ => AllocationState.free == .free) params.maxBlockCount with
    | none =>
      simp only [allocatedTables, inodeTableSize, dataBlocks, hf, hb] at hrun
      obtain ⟨_, _, hrun⟩ := bind_eq_ok.mp hrun
      cases hrun
    | some b =>
      obtain ⟨rfl, hpos⟩ := firstIndex_free hb
      simp only [allocatedTables, inodeTableSize, dataBlocks, hf, hb] at hrun
      obtain ⟨addr, hget, hrun⟩ := bind_eq_ok.mp hrun
      have haddr : addr = 0 := by
        simpa [dataBlockGet, validBlockNumber, dataBlocks, setInode, hpos] using hget.symm
      subst haddr
      split at hrun
      · cases hrun
      · cases hrun
        exact ⟨hi, hpos, rfl⟩

theorem initial_of_tfsInit (hrun : fs₀.tfsInit params malloc = .ok (0, fs)) :
    Initial params fs := by
  rw [tfsInit] at hrun
  obtain ⟨r, fs₁, hinit⟩ : ∃ r fs₁, fs₀.stateInit params malloc = (r, fs₁) := ⟨_, _, rfl⟩
  rw [hinit] at hrun
  by_cases hr : r = 0
  · subst hr
    obtain ⟨heap, rfl⟩ := stateInit_zero hinit
    obtain ⟨⟨root, fs₂⟩, hcreate, hrun⟩ := bind_eq_ok.mp hrun
    by_cases hroot : root = some rootDirInum
    · subst hroot
      obtain ⟨hi, hb, rfl⟩ := inodeCreate_directory hcreate
      cases hrun
      exact {
        fsParams := rfl
        tables := rfl
        root := {
          inode_valid := hi
          block_valid := hb
          inode := by simp [rootCreated, blockSize, allocatedTables]
          inode_taken := by simp [rootCreated]
          block_taken := by simp [rootCreated] }
        inodes := update_free_taken
        blocks := update_free_taken
        entries := fun i hlt => loadInt_labelEntries _ hlt
        handles := fun _ => rfl }
    · simp only [hroot, if_false] at hrun
      cases hrun
  · split at hrun
    · next heq =>
      cases heq
      exact absurd rfl hr
    · cases hrun

/-- The bounds on the parameters under which the `int` results of the table
searches are the indices found. -/
structure Bounded (params : TfsParams) : Prop where
  blockSize_pos : 0 < params.blockSize
  inodes_le : params.maxInodeCount ≤ intMax
  blocks_le : params.maxBlockCount ≤ intMax
  files_le : params.maxOpenFilesCount ≤ intMax

theorem Initial.wellFormed (hi : Initial params fs) (hp : Bounded params) : fs.WellFormed := by
  obtain ⟨rfl, htables, hroot, hinodes, hblocks, hentries, hhandles⟩ := hi
  have hno : ∀ {k}, ¬ fs.IsFile k := fun hk => absurd (hinodes hk.taken) hk.pos.ne'
  have hnone : ∀ {i name k}, ¬ fs.EntryAt i name k := fun he =>
    he.inumber_ne (hentries _ he.index)
  have hclosed : ∀ {h k}, ¬ fs.OpenOn h k := by
    intro h k ho
    have := ho.taken
    rw [hhandles h] at this
    cases this
  constructor
  · exact ⟨htables, hp.blockSize_pos, hp.inodes_le, hp.blocks_le, hp.files_le⟩
  · exact hroot
  · exact {
      named := fun i hlt hne => absurd (hentries i hlt) hne
      isFile := fun he => absurd he hnone
      name_inj := fun he => absurd he hnone
      inumber_inj := fun he => absurd he hnone
      cleared := fun _ hj hne => absurd (hentries _ hj) hne
      total := fun hk => absurd hk hno }
  · exact {
      type := fun hk => absurd hk hno
      size_le := fun hk => absurd hk hno
      block := fun hk => absurd hk hno
      block_inj := fun hk => absurd hk hno }
  · refine ⟨?_, fun ho => absurd ho hclosed, fun ho => absurd ho hclosed⟩
    intro h _ ht
    rw [hhandles h] at ht
    cases ht

/-! ### Every call keeps the file system well formed -/

theorem afterTrunc_fsParams {mode : FileMode} :
    (fs.afterTrunc mode k).fsParams = fs.fsParams := by
  rw [afterTrunc]
  split
  · exact truncated_fsParams
  · rfl

theorem afterTrunc_freeinodeTs {mode : FileMode} :
    (fs.afterTrunc mode k).freeinodeTs = fs.freeinodeTs := by
  rw [afterTrunc]
  split
  · exact truncated_freeinodeTs
  · rfl

theorem WellFormed.afterTrunc {mode : FileMode} (wf : fs.WellFormed) (hk : fs.IsFile k) :
    (fs.afterTrunc mode k).WellFormed := by
  rw [Fs.afterTrunc]
  split
  · exact wf.truncated hk
  · exact wf

theorem WellFormed.opens {name : Option CString} {mode : FileMode} {r : Int}
    (wf : fs.WellFormed) (ho : Opens fs name mode r fs') : fs'.WellFormed := by
  cases ho with
  | invalid _ => exact wf
  | existing _ _ he ha =>
    have hk := wf.directory.isFile he
    exact (wf.afterTrunc hk).addsHandle (hk.congr afterTrunc_fsParams afterTrunc_freeinodeTs) ha
  | absent _ _ _ _ => exact wf
  | noInode _ _ _ _ _ => exact wf
  | noEntry k _ _ _ _ _ hfree _ => exact wf.resetInode hfree
  | created k i _ _ _ hc ha =>
    exact (wf.createdFile hc).addsHandle ((hc.isFile_iff wf.root).mpr (Or.inl rfl)) ha

theorem WellFormed.closes {fhandle r : Int} (wf : fs.WellFormed)
    (hc : Closes fs fhandle r fs') : fs'.WellFormed := by
  cases hc with
  | invalid _ => exact wf
  | closed h k _ _ => exact wf.closed

theorem WellFormed.writes {fhandle r : Int} {buffer : Memory} {len : Nat} (wf : fs.WellFormed)
    (hw : Writes fs fhandle buffer len r fs') : fs'.WellFormed := by
  cases hw with
  | invalid _ => exact wf
  | nothing _ _ _ _ _ => exact wf
  | full _ _ _ _ _ _ _ => exact wf
  | fresh h k b n _ hempty _ hfree _ hcan =>
    have hk := (wf.handles.valid (hcan.openOn.congr rfl rfl rfl : fs.OpenOn h k)).1
    exact (wf.allocated hk hempty hfree).written hcan
  | stored h k n _ _ _ hcan => exact wf.written hcan

theorem WellFormed.reads {fhandle : Int} {len : Nat} {p : Int × List UInt8} (wf : fs.WellFormed)
    (hr : Reads fs fhandle len p fs') : fs'.WellFormed := by
  cases hr with
  | invalid _ => exact wf
  | nothing _ _ _ _ _ => exact wf
  | loaded h k b n _ _ _ _ _ _ _ => exact wf.setOffset

theorem WellFormed.unlinks {target : Option CString} {r : Int} (wf : fs.WellFormed)
    (hu : Unlinks fs target r fs') : fs'.WellFormed := by
  cases hu with
  | invalid _ => exact wf
  | absent _ _ _ => exact wf
  | removed _ _ he => exact wf.removedFile he

end Fs

open Fs

/-- What one call does to a well-formed file system. -/
inductive Performs (fs : Fs) : Call → Reply → Fs → Prop
  | opens {name mode r fs'} : Opens fs name mode r fs' → Performs fs (.open name mode) ⟨r, []⟩ fs'
  | closes {fhandle r fs'} : Closes fs fhandle r fs' → Performs fs (.close fhandle) ⟨r, []⟩ fs'
  | writes {fhandle buffer len r fs'} : Writes fs fhandle buffer len r fs' →
      Performs fs (.write fhandle buffer len) ⟨r, []⟩ fs'
  | reads {fhandle len r bytes fs'} : Reads fs fhandle len (r, bytes) fs' →
      Performs fs (.read fhandle len) ⟨r, bytes⟩ fs'
  | unlinks {target r fs'} : Unlinks fs target r fs' → Performs fs (.unlink target) ⟨r, []⟩ fs'

variable {fs fs' : Fs} {call : Call} {reply : Reply}

/-- Every call that does not fault is one of the listed updates. -/
theorem performs_of_exec (wf : fs.WellFormed) (hrun : exec fs call = .ok (reply, fs')) :
    Performs fs call reply fs' := by
  cases call with
  | «open» name mode =>
    obtain ⟨r, fs₁, heq, ho⟩ := wf.tfsOpen name mode
    simp only [exec, heq, ok_bind] at hrun
    cases hrun
    exact .opens ho
  | close fhandle =>
    obtain ⟨r, fs₁, heq, hc⟩ := wf.tfsClose fhandle
    simp only [exec, heq, ok_bind] at hrun
    cases hrun
    exact .closes hc
  | write fhandle buffer len =>
    obtain ⟨⟨r, fs₁⟩, heq, hrun⟩ := bind_eq_ok.mp hrun
    cases hrun
    exact .writes (wf.tfsWrite heq)
  | read fhandle len =>
    obtain ⟨⟨⟨r, bytes⟩, fs₁⟩, heq, hrun⟩ := bind_eq_ok.mp hrun
    cases hrun
    exact .reads (wf.tfsRead heq)
  | unlink target =>
    obtain ⟨r, fs₁, heq, hu⟩ := wf.tfsUnlink target
    simp only [exec, heq, ok_bind] at hrun
    cases hrun
    exact .unlinks hu

theorem Performs.wellFormed (hp : Performs fs call reply fs') (wf : fs.WellFormed) :
    fs'.WellFormed := by
  cases hp with
  | opens ho => exact wf.opens ho
  | closes hc => exact wf.closes hc
  | writes hw => exact wf.writes hw
  | reads hr => exact wf.reads hr
  | unlinks hu => exact wf.unlinks hu

/-- One step of a run keeps the file system well formed. -/
theorem wellFormed_step (wf : fs.WellFormed) (hs : stateStep exec fs call = some fs') :
    fs'.WellFormed := by
  obtain ⟨reply, hrun⟩ := stateStep_eq_some.mp hs
  exact (performs_of_exec wf hrun).wellFormed wf

/-- Every state of a run from a successful `tfs_init` is well formed. -/
theorem wellFormed_of_reaches {params : TfsParams} {malloc : Malloc} {fs₀ fs₁ : Fs}
    {ok : Fs → Call → Prop} (hp : Bounded params)
    (hinit : fs₀.tfsInit params malloc = .ok (0, fs₁))
    (hr : Reaches (stateStep exec) ok fs₁ fs) : fs.WellFormed :=
  hr.invariant ((initial_of_tfsInit hinit).wellFormed hp) fun _ _ _ wf _ => wellFormed_step wf

/-! ### A small file system -/

def smallParams : TfsParams where
  maxInodeCount := 3
  maxBlockCount := 3
  maxOpenFilesCount := 2
  blockSize := 100

def zeroHeap : Heap where
  inodeTable := fun _ => ⟨.file, 0, 0⟩
  fsData := fun _ => 0
  openFileTable := fun _ => ⟨0, 0⟩

def smallFs : Fs := uninitialized.rootCreated smallParams zeroHeap

theorem tfsInit_small :
    uninitialized.tfsInit smallParams (.granted zeroHeap) = .ok (0, smallFs) := rfl

theorem bounded_small : Bounded smallParams := ⟨by decide, by decide, by decide, by decide⟩

def pathA : CString := .ofBuffer ['/'.toUInt8, 'a'.toUInt8]

def pathB : CString := .ofBuffer ['/'.toUInt8, 'b'.toUInt8]

end MessageBroker.Tfs
