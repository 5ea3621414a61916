import MessageBroker.Tfs.Runs

/-!
# Initialisation that fails

The file system with `tfs_init` and `tfs_destroy` among its calls, from before the first
`tfs_init` on. A `tfs_init` that returns `-1` should leave everything as it was. It does not:
the parameters are stored before the check that there are no tables yet, and the tables stay
allocated when the root directory cannot be created.
-/

namespace MessageBroker.Tfs

open Bytes Table Transition

/-! ### Parameters and tables -/

namespace Fs

/-- Free the tables. -/
def stateDestroy (fs : Fs) : Int × Fs := (0, { fs with tables := none })

def tfsDestroy (fs : Fs) : Int × Fs :=
  match fs.stateDestroy with
  | (0, fs) => (0, fs)
  | (_, fs) => (-1, fs)

/-- The parameters and the allocation of the tables have not changed. -/
structure SameSetup (fs fs' : Fs) : Prop where
  fsParams : fs'.fsParams = fs.fsParams
  tables : fs'.tables = fs.tables

variable {fs fs' fs'' : Fs} {i : Int} {k : Nat}

theorem SameSetup.refl (fs : Fs) : fs.SameSetup fs := ⟨rfl, rfl⟩

theorem SameSetup.trans (h : fs.SameSetup fs') (h' : fs'.SameSetup fs'') : fs.SameSetup fs'' :=
  ⟨h'.fsParams.trans h.fsParams, h'.tables.trans h.tables⟩

theorem setInode_sameSetup (fs : Fs) (k : Nat) (inode : Inode) :
    fs.SameSetup (fs.setInode k inode) := ⟨rfl, rfl⟩

theorem inodeAlloc_sameSetup {r : Option Nat} (h : fs.inodeAlloc = (r, fs')) :
    fs.SameSetup fs' := by
  rw [inodeAlloc] at h
  split at h
  · cases h
    exact ⟨rfl, rfl⟩
  · cases h
    exact .refl fs

theorem dataBlockAlloc_sameSetup {r : Option Nat} (h : fs.dataBlockAlloc = (r, fs')) :
    fs.SameSetup fs' := by
  rw [dataBlockAlloc] at h
  split at h
  · cases h
    exact ⟨rfl, rfl⟩
  · cases h
    exact .refl fs

theorem addToOpenFileTable_sameSetup (fs : Fs) (inumber : Int) (offset : Nat) :
    fs.SameSetup (fs.addToOpenFileTable inumber offset).2 := by
  rw [addToOpenFileTable]
  split
  · exact ⟨rfl, rfl⟩
  · exact .refl fs

theorem dataBlockFree_sameSetup (fs : Fs) (i : Int) :
    Ensures (fs.dataBlockFree i) fs.SameSetup := by
  rw [dataBlockFree]
  split
  · exact .ok ⟨rfl, rfl⟩
  · exact .error

theorem inodeDelete_sameSetup (fs : Fs) (i : Int) : Ensures (fs.inodeDelete i) fs.SameSetup := by
  rw [inodeDelete]
  split
  · exact .error
  · split
    · exact .error
    · dsimp only
      split
      · exact (fs.dataBlockFree_sameSetup _).bind fun fs' h => .ok (h.trans ⟨rfl, rfl⟩)
      · exact .ok ⟨rfl, rfl⟩

theorem truncate_sameSetup (fs : Fs) (k : Nat) : Ensures (fs.truncate k) fs.SameSetup := by
  rw [truncate]
  split
  · exact (fs.dataBlockFree_sameSetup _).bind fun fs' h => .ok (h.trans ⟨rfl, rfl⟩)
  · exact .ok (.refl fs)

theorem inodeCreate_sameSetup (fs : Fs) (iType : InodeType) :
    Ensures (fs.inodeCreate iType) fun r => fs.SameSetup r.2 := by
  rw [inodeCreate]
  split
  · next heq => exact .ok (inodeAlloc_sameSetup heq)
  · next k fs₁ heq =>
    have h₁ := inodeAlloc_sameSetup heq
    cases iType with
    | file => exact .ok (h₁.trans ⟨rfl, rfl⟩)
    | directory =>
      dsimp only
      split
      · next fs₂ heq₂ =>
        have h₂ := h₁.trans (dataBlockAlloc_sameSetup heq₂)
        refine (inodeDelete_sameSetup _ _).bind fun fs₃ h₃ => .ok (h₂.trans ?_)
        exact (setInode_sameSetup _ _ _).trans h₃
      · next b fs₂ heq₂ =>
        have h₂ := h₁.trans (dataBlockAlloc_sameSetup heq₂)
        refine .skip fun block => ?_
        split
        · exact .error
        · exact .ok (h₂.trans ⟨rfl, rfl⟩)

theorem addDirEntry_sameSetup (fs : Fs) (k : Nat) (name : CString) (i : Int) :
    Ensures (fs.addDirEntry k name i) fun r => fs.SameSetup r.2 := by
  rw [addDirEntry]
  split
  · exact .ok (.refl fs)
  · split
    · exact .ok (.refl fs)
    · refine .skip fun block => ?_
      split
      · exact .ok ⟨rfl, rfl⟩
      · exact .ok (.refl fs)

theorem clearDirEntry_sameSetup (fs : Fs) (k : Nat) (name : CString) :
    Ensures (fs.clearDirEntry k name) fun r => fs.SameSetup r.2 := by
  rw [clearDirEntry]
  split
  · exact .ok (.refl fs)
  · refine .skip fun block => ?_
    split
    · exact .ok ⟨rfl, rfl⟩
    · exact .ok (.refl fs)

theorem writeBlock_sameSetup (fs : Fs) (file k : Nat) (buffer : Memory) (n : Nat) :
    Ensures (fs.writeBlock file k buffer n) fs.SameSetup := by
  refine .skip fun block => ?_
  dsimp only
  split
  · exact .error
  · refine .ok ?_
    split <;> exact ⟨rfl, rfl⟩

theorem tfsOpen_sameSetup (fs : Fs) (name : Option CString) (mode : FileMode) :
    Ensures (fs.tfsOpen name mode) fun r => fs.SameSetup r.2 := by
  unfold tfsOpen
  split
  · exact .ok (.refl fs)
  · split
    · exact .ok (.refl fs)
    · refine .skip fun root => .skip fun inum => ?_
      split
      · refine .skip fun inode => ?_
        dsimp only
        split
        · refine (fs.truncate_sameSetup inode).bind fun fs₁ h => .ok (h.trans ?_)
          exact fs₁.addToOpenFileTable_sameSetup _ _
        · exact .ok (fs.addToOpenFileTable_sameSetup _ _)
      · split
        · refine (fs.inodeCreate_sameSetup .file).bind ?_
          rintro ⟨created, fs₁⟩ h₁
          cases created with
          | none => exact .ok h₁
          | some k =>
            refine (fs₁.addDirEntry_sameSetup _ _ _).bind ?_
            rintro ⟨added, fs₂⟩ h₂
            dsimp only
            split
            · refine (fs₂.inodeDelete_sameSetup k).bind fun fs₃ h₃ => .ok ?_
              exact h₁.trans (h₂.trans h₃)
            · exact .ok (h₁.trans (h₂.trans (fs₂.addToOpenFileTable_sameSetup _ _)))
        · exact .ok (.refl fs)

theorem tfsClose_sameSetup (fs : Fs) (i : Int) :
    Ensures (fs.tfsClose i) fun r => fs.SameSetup r.2 := by
  rw [tfsClose]
  split
  · exact .ok (.refl fs)
  · rw [removeFromOpenFileTable]
    split
    · exact .error
    · split
      · exact .error
      · exact .ok ⟨rfl, rfl⟩

theorem tfsWrite_sameSetup (fs : Fs) (i : Int) (buffer : Memory) (n : Nat) :
    Ensures (fs.tfsWrite i buffer n) fun r => fs.SameSetup r.2 := by
  rw [tfsWrite]
  split
  · exact .ok (.refl fs)
  · refine .skip fun inode => ?_
    dsimp only
    split
    · split
      · split
        · next fs₁ heq => exact .ok (dataBlockAlloc_sameSetup heq)
        · next b fs₁ heq =>
          have h₁ := dataBlockAlloc_sameSetup heq
          refine (writeBlock_sameSetup _ _ _ _ _).bind fun fs₂ h₂ => .ok (h₁.trans ?_)
          exact (setInode_sameSetup _ _ _).trans h₂
      · exact (fs.writeBlock_sameSetup _ _ _ _).bind fun fs₁ h => .ok h
    · exact .ok (.refl fs)

theorem tfsRead_sameSetup (fs : Fs) (i : Int) (n : Nat) :
    Ensures (fs.tfsRead i n) fun r => fs.SameSetup r.2 := by
  rw [tfsRead]
  split
  · exact .ok (.refl fs)
  · refine .skip fun inode => ?_
    dsimp only
    split
    · refine .skip fun block => ?_
      split
      · exact .error
      · exact .ok ⟨rfl, rfl⟩
    · exact .ok (.refl fs)

theorem tfsUnlink_sameSetup (fs : Fs) (target : Option CString) :
    Ensures (fs.tfsUnlink target) fun r => fs.SameSetup r.2 := by
  dsimp only [tfsUnlink]
  split
  · exact .ok (.refl fs)
  · split
    · exact .ok (.refl fs)
    · refine .skip fun root => .skip fun inum => ?_
      split
      · exact .ok (.refl fs)
      · refine (fs.inodeDelete_sameSetup inum).bind fun fs₁ h₁ => ?_
        refine (fs₁.clearDirEntry_sameSetup _ _).bind ?_
        rintro ⟨cleared, fs₂⟩ h₂
        dsimp only
        split <;> exact .ok (h₁.trans h₂)

end Fs

/-- No call changes the parameters or the allocation of the tables. -/
theorem exec_sameSetup (fs : Fs) (call : Call) :
    Ensures (exec fs call) fun r => fs.SameSetup r.2 := by
  cases call with
  | «open» name mode => exact (fs.tfsOpen_sameSetup name mode).bind fun _ h => .ok h
  | close h => exact (fs.tfsClose_sameSetup h).bind fun _ h => .ok h
  | write h buffer n => exact (fs.tfsWrite_sameSetup h buffer n).bind fun _ h => .ok h
  | read h n => exact (fs.tfsRead_sameSetup h n).bind fun _ h => .ok h
  | unlink target => exact (fs.tfsUnlink_sameSetup target).bind fun _ h => .ok h

/-! ### The library -/

/-- The file system as a program has it, from before the first `tfs_init` on. -/
structure Library where
  fs : Fs
  /-- Every table is allocated and cleared. -/
  ready : Bool

inductive LibraryCall
  /-- `BLOCK_SIZE` is a divisor all over `state.c`, so it is not zero. -/
  | init (params : TfsParams) (positive : 0 < params.blockSize) (malloc : Malloc)
  | destroy
  | call (c : Call)

def Malloc.isGranted : Malloc → Bool
  | .granted _ => true
  | .failed _ => false

/-- A call without the tables; `none` is the end of the program. The path or the handle is tested
first; behind the test the call asserts that there is a root inode, or it reads an entry of a table
that is not there, which ends the program whichever of the other tables were allocated. -/
def blind (fs : Fs) : Call → Option Reply
  | .open name _ | .unlink name => if Fs.validPathname name then none else some ⟨-1, []⟩
  | .close fhandle | .write fhandle _ _ | .read fhandle _ =>
    if fs.validFileHandle fhandle then none else some ⟨-1, []⟩

namespace Library

def initial : Library := ⟨.uninitialized, false⟩

/-- Perform one call; `none` is the end of the program by a fault. -/
def perform (lib : Library) : LibraryCall → Option (Reply × Library)
  | .init params _ malloc =>
    match lib.fs.tfsInit params malloc with
    | .error _ => none
    | .ok (ret, fs) =>
      some (⟨ret, []⟩, ⟨fs, lib.ready || lib.fs.tables.isNone && malloc.isGranted⟩)
  | .destroy => some (⟨lib.fs.tfsDestroy.1, []⟩, ⟨lib.fs.tfsDestroy.2, false⟩)
  | .call c =>
    if lib.ready then
      match exec lib.fs c with
      | .error _ => none
      | .ok (reply, fs) => some (reply, ⟨fs, true⟩)
    else (blind lib.fs c).map fun reply => (reply, lib)

/-- What the calls return, up to the one that ends the program. -/
def replies : Library → List LibraryCall → List Reply
  | _, [] => []
  | lib, c :: calls =>
    match lib.perform c with
    | none => []
    | some (reply, next) => reply :: replies next calls

def step (lib : Library) (c : LibraryCall) : Option Library := (lib.perform c).map Prod.snd

/-- The bounds in use are those that the tables were allocated with. -/
def BoundsMatch (lib : Library) : Prop := ∀ params, lib.fs.tables = some params →
  lib.fs.fsParams = params

/-- If this `tfs_init` fails, no later calls can tell. -/
def FailureLeaves (lib : Library) (params : TfsParams) (positive : 0 < params.blockSize)
    (malloc : Malloc) : Prop :=
  ∀ next, lib.perform (.init params positive malloc) = some (⟨-1, []⟩, next) →
    (∀ calls, next.replies calls = lib.replies calls) ∧ next.BoundsMatch

/-- The parameters are those in use; or there are no tables, and either they can be allocated
with a root directory, or `inode_table` is not and the range of the handles stays. -/
def Harmless (lib : Library) (params : TfsParams) (malloc : Malloc) : Prop :=
  match lib.fs.tables, malloc with
  | some _, _ => params = lib.fs.fsParams
  | none, .granted _ => 0 < params.maxInodeCount ∧ 0 < params.maxBlockCount
  | none, .failed inodeTableSet => inodeTableSet = false ∧
    params.maxOpenFilesCount = lib.fs.fsParams.maxOpenFilesCount

/-- A `tfs_init` is successful or harmless. -/
def Admitted (lib : Library) : LibraryCall → Prop
  | .init params positive malloc =>
    (lib.perform (.init params positive malloc)).map (fun r => r.1.ret) = some 0 ∨
      lib.Harmless params malloc
  | _ => True

/-- A state of a run in which every `tfs_init` was successful or harmless. -/
structure Sound (lib : Library) : Prop where
  ready : lib.ready = lib.fs.tables.isSome
  bounds : lib.BoundsMatch

variable {lib next : Library} {params : TfsParams} {malloc : Malloc} {heap : Heap} {fs : Fs}

/-- A second `tfs_init` stores the parameters before it is turned down. -/
theorem tfsInit_of_some {q : TfsParams} (h : fs.tables = some q) :
    fs.tfsInit params malloc = .ok (-1, { fs with fsParams := params }) := by
  dsimp only [Fs.tfsInit, Fs.stateInit]
  simp only [h, Option.isSome_some, if_true]

theorem tfsInit_failed {inodeTableSet : Bool} (h : fs.tables = none) :
    fs.tfsInit params (.failed inodeTableSet) = .ok (-1, { fs with
      fsParams := params, tables := if inodeTableSet then some params else none }) := by
  rw [Fs.tfsInit, Fs.stateInit]
  simp only [h, Option.isSome_none, Bool.false_eq_true, if_false]

theorem tfsInit_granted (h : fs.tables = none) :
    fs.tfsInit params (.granted heap) =
      (fs.allocatedTables params heap).inodeCreate .directory >>= fun r =>
        if r.1 = some rootDirInum then .ok (0, r.2) else .ok (-1, r.2) := by
  rw [Fs.tfsInit, Fs.stateInit]
  simp only [h, Option.isSome_none, Bool.false_eq_true, if_false]
  rfl

theorem firstIndex_free_eq {n : Nat} (hn : 0 < n) :
    firstIndex (fun _ => AllocationState.free == .free) n = some 0 :=
  firstIndex_eq_some.mpr ⟨rfl, hn, fun _ => nofun⟩

/-- With an inode and a block the root directory is created. -/
theorem inodeCreate_root (hi : 0 < params.maxInodeCount) (hb : 0 < params.maxBlockCount) :
    Ensures ((fs.allocatedTables params heap).inodeCreate .directory)
      fun r => r.1 = some rootDirInum := by
  dsimp only [Fs.inodeCreate, Fs.inodeAlloc, Fs.dataBlockAlloc]
  simp only [Fs.allocatedTables, Fs.inodeTableSize, Fs.dataBlocks, firstIndex_free_eq hi,
    firstIndex_free_eq hb]
  refine .skip fun block => ?_
  split
  · exact .error
  · exact .ok rfl

theorem inodeDelete_empty {i : Int} (hv : fs.validInumber i)
    (ht : fs.freeinodeTs i.toNat = .taken) (hz : (fs.inodeTable i.toNat).iSize = 0) :
    fs.inodeDelete i =
      .ok { fs with freeinodeTs := Function.update fs.freeinodeTs i.toNat .free } := by
  rw [Fs.inodeDelete, if_neg (not_not_intro hv), if_neg (not_not_intro ht), hz]
  rfl

theorem dataBlockAlloc_none (h : fs.dataBlocks = 0) : fs.dataBlockAlloc = (none, fs) := by
  rw [Fs.dataBlockAlloc]
  rw [h]
  rfl

/-- Without an inode or a block the tables stay allocated, without a root directory. -/
theorem inodeCreate_noRoot (h : params.maxInodeCount = 0 ∨ params.maxBlockCount = 0) :
    ∃ fs', (fs.allocatedTables params heap).inodeCreate .directory = .ok (none, fs') := by
  rw [Fs.inodeCreate, Fs.inodeAlloc]
  obtain hi | hi := Nat.eq_zero_or_pos params.maxInodeCount
  · simp only [Fs.allocatedTables, Fs.inodeTableSize, hi]
    exact ⟨_, rfl⟩
  · have hb : params.maxBlockCount = 0 := h.resolve_left hi.ne'
    simp only [Fs.allocatedTables, Fs.inodeTableSize, firstIndex_free_eq hi]
    rw [dataBlockAlloc_none (by exact hb)]
    dsimp only
    rw [inodeDelete_empty (by exact ⟨le_rfl, Int.natCast_pos.mpr hi⟩) (by rfl) (by rfl)]
    exact ⟨_, rfl⟩

/-! ### Runs in which every `tfs_init` is successful or harmless -/

theorem perform_init_eq_some {positive : 0 < params.blockSize} {ret : Int} {bytes : List UInt8}
    (h : lib.perform (.init params positive malloc) = some (⟨ret, bytes⟩, next)) :
    lib.fs.tfsInit params malloc = .ok (ret, next.fs) ∧
      next.ready = (lib.ready || lib.fs.tables.isNone && malloc.isGranted) := by
  rw [perform] at h
  cases hrun : lib.fs.tfsInit params malloc with
  | error e =>
    simp only [hrun] at h
    cases h
  | ok r =>
    simp only [hrun] at h
    cases h
    exact ⟨rfl, rfl⟩

/-- A successful `tfs_init` finds no tables and gets all of them. -/
theorem granted_of_tfsInit (h : lib.fs.tfsInit params malloc = .ok (0, fs)) :
    lib.fs.tables = none ∧ malloc.isGranted = true := by
  cases ht : lib.fs.tables with
  | some q =>
    rw [tfsInit_of_some ht] at h
    cases h
  | none =>
    cases malloc with
    | granted heap => exact ⟨rfl, rfl⟩
    | failed inodeTableSet =>
      rw [tfsInit_failed ht] at h
      cases h

theorem sound_initial : initial.Sound := ⟨rfl, fun _ h => nomatch h⟩

def withParams (lib : Library) (params : TfsParams) : Library :=
  { lib with fs := { lib.fs with fsParams := params } }

/-- A harmless `tfs_init` is successful, changes nothing, or stores parameters before there are
tables. -/
theorem Sound.harmless_cases (h : lib.Sound) {positive : 0 < params.blockSize} {ret : Int}
    {bytes : List UInt8} (hharm : lib.Harmless params malloc)
    (hrun : lib.perform (.init params positive malloc) = some (⟨ret, bytes⟩, next)) :
    ret = 0 ∨ next = lib ∨ lib.fs.tables = none ∧
      params.maxOpenFilesCount = lib.fs.fsParams.maxOpenFilesCount ∧
        next = lib.withParams params := by
  obtain ⟨htfs, hready⟩ := perform_init_eq_some hrun
  obtain ⟨nextFs, nextReady⟩ := next
  dsimp only [Harmless] at hharm
  cases ht : lib.fs.tables with
  | some q =>
    simp only [ht] at hharm
    subst hharm
    rw [tfsInit_of_some ht] at htfs
    cases htfs
    simp only [ht, Option.isNone_some, Bool.false_and, Bool.or_false] at hready
    subst hready
    exact Or.inr (Or.inl rfl)
  | none =>
    cases malloc with
    | granted heap =>
      simp only [ht] at hharm
      -- the root directory is created, so `tfs_init` does not fail
      rw [tfsInit_granted ht] at htfs
      obtain ⟨r, hcreate, hrest⟩ := bind_eq_ok.mp htfs
      rw [if_pos (inodeCreate_root hharm.1 hharm.2 r hcreate)] at hrest
      cases hrest
      exact Or.inl rfl
    | failed inodeTableSet =>
      simp only [ht] at hharm
      obtain ⟨rfl, hmax⟩ := hharm
      rw [tfsInit_failed ht] at htfs
      have hfalse : lib.ready = false := by rw [h.ready, ht]; rfl
      cases htfs
      simp only [hfalse, Malloc.isGranted, Bool.and_false, Bool.or_false] at hready
      subst hready
      refine Or.inr (Or.inr ⟨rfl, hmax, ?_⟩)
      rw [withParams, hfalse]
      congr 2
      exact ht.symm

theorem Sound.init_successful {positive : 0 < params.blockSize} {bytes : List UInt8}
    (hrun : lib.perform (.init params positive malloc) = some (⟨0, bytes⟩, next)) :
    next.Sound := by
  obtain ⟨htfs, hready⟩ := perform_init_eq_some hrun
  obtain ⟨hnone, hgranted⟩ := granted_of_tfsInit htfs
  have hinitial := Fs.initial_of_tfsInit htfs
  refine ⟨?_, ?_⟩
  · rw [hready, hnone, hgranted, hinitial.tables]
    exact Bool.or_true _
  · intro q hq
    rw [hinitial.fsParams]
    exact Option.some.inj (hinitial.tables.symm.trans hq)

theorem Sound.withParams (h : lib.Sound) (ht : lib.fs.tables = none) (params : TfsParams) :
    (lib.withParams params).Sound :=
  ⟨h.ready, fun _ hq => nomatch ht.symm.trans hq⟩

theorem Sound.step {c : LibraryCall} (h : lib.Sound) (hok : lib.Admitted c)
    (hs : lib.step c = some next) : next.Sound := by
  obtain ⟨⟨⟨ret, bytes⟩, _⟩, hrun, rfl⟩ := Option.map_eq_some_iff.mp hs
  cases c with
  | init params positive malloc =>
    obtain hzero | hharm := hok
    · rw [hrun] at hzero
      cases Option.some.inj hzero
      exact init_successful hrun
    · obtain rfl | rfl | ⟨ht, _, rfl⟩ := h.harmless_cases hharm hrun
      · exact init_successful hrun
      · exact h
      · exact h.withParams ht params
  | destroy =>
    cases hrun
    exact ⟨rfl, fun _ hq => nomatch hq⟩
  | call c =>
    rw [perform] at hrun
    cases hready : lib.ready with
    | true =>
      cases hexec : exec lib.fs c with
      | error e =>
        simp only [hready, hexec, if_true] at hrun
        cases hrun
      | ok r =>
        have hsame := exec_sameSetup lib.fs c r hexec
        obtain ⟨reply, fs⟩ := r
        simp only [hready, hexec, if_true] at hrun
        cases hrun
        refine ⟨?_, ?_⟩
        · rw [hsame.tables]
          exact hready.symm.trans h.ready
        · rw [BoundsMatch, hsame.tables, hsame.fsParams]
          exact h.bounds
    | false =>
      simp only [hready, Bool.false_eq_true, if_false] at hrun
      obtain ⟨_, _, heq⟩ := Option.map_eq_some_iff.mp hrun
      cases heq
      exact h

/-! ### A `tfs_init` that fails -/

/-- Before the tables are allocated, only the range of the handles shows. -/
theorem replies_withParams (hready : lib.ready = false)
    (hmax : params.maxOpenFilesCount = lib.fs.fsParams.maxOpenFilesCount)
    (calls : List LibraryCall) : (lib.withParams params).replies calls = lib.replies calls := by
  induction calls generalizing lib with
  | nil => rfl
  | cons c calls ih =>
    cases c with
    -- the parameters are overwritten
    | init q positive malloc => rfl
    | destroy => exact congrArg _ (@ih ⟨lib.fs.tfsDestroy.2, false⟩ rfl hmax)
    | call c =>
      have hblind : blind { lib.fs with fsParams := params } c = blind lib.fs c := by
        have hvalid : ∀ i, { lib.fs with fsParams := params }.validFileHandle i ↔
            lib.fs.validFileHandle i := by
          intro i
          show 0 ≤ i ∧ i < (params.maxOpenFilesCount : Int) ↔ _
          rw [hmax]
          rfl
        cases c with
        | close i | write i _ _ | read i _ => exact if_congr (hvalid i) rfl rfl
        | «open» _ _ | unlink _ => rfl
      have hperform : (lib.withParams params).perform (.call c) =
          (blind lib.fs c).map fun reply => (reply, lib.withParams params) := by
        rw [← hblind]
        exact if_neg (hready ▸ nofun)
      have hperform' : lib.perform (.call c) =
          (blind lib.fs c).map fun reply => (reply, lib) := if_neg (hready ▸ nofun)
      dsimp only [replies]
      rw [hperform, hperform']
      cases blind lib.fs c with
      | none => rfl
      | some reply => exact congrArg _ (ih hready hmax)

theorem Sound.failureLeaves (h : lib.Sound) {positive : 0 < params.blockSize}
    (hharm : lib.Harmless params malloc) : lib.FailureLeaves params positive malloc := by
  intro next hrun
  obtain hzero | rfl | ⟨ht, hmax, rfl⟩ := h.harmless_cases hharm hrun
  · cases hzero
  · exact ⟨fun _ => rfl, h.bounds⟩
  · have hready : lib.ready = false := by rw [h.ready, ht]; rfl
    exact ⟨replies_withParams hready hmax, (h.withParams ht params).bounds⟩

theorem smallParams_blockSize : 0 < smallParams.blockSize := by decide

theorem perform_init {positive : 0 < params.blockSize} {ret : Int}
    (h : lib.fs.tfsInit params malloc = .ok (ret, fs)) :
    lib.perform (.init params positive malloc) =
      some (⟨ret, []⟩, ⟨fs, lib.ready || lib.fs.tables.isNone && malloc.isGranted⟩) := by
  simp only [perform, h]

theorem replies_cons {c : LibraryCall} {reply : Reply} (h : lib.perform c = some (reply, next))
    (calls : List LibraryCall) : lib.replies (c :: calls) = reply :: next.replies calls := by
  rw [replies, h]

theorem replies_cons_none {c : LibraryCall} (h : lib.perform c = none)
    (calls : List LibraryCall) : lib.replies (c :: calls) = [] := by
  rw [replies, h]

/-- A later `tfs_init` tells whether there are tables. -/
theorem replies_init_small (lib : Library) :
    lib.replies [.init smallParams smallParams_blockSize (.granted zeroHeap)] =
      [⟨if lib.fs.tables.isSome then -1 else 0, []⟩] := by
  cases ht : lib.fs.tables with
  | some q => exact replies_cons (perform_init (tfsInit_of_some ht)) []
  | none =>
    have hsmall : lib.fs.tfsInit smallParams (.granted zeroHeap) =
        .ok (0, lib.fs.rootCreated smallParams zeroHeap) := by
      rw [Fs.tfsInit, Fs.stateInit]
      simp only [ht]
      rfl
    exact replies_cons (perform_init hsmall) []

/-- A `tfs_close` tells whether the handle is in range. -/
theorem replies_close (hready : lib.ready = false) (i : Int) :
    lib.replies [.call (.close i)] = if lib.fs.validFileHandle i then [] else [⟨-1, []⟩] := by
  have hperform : lib.perform (.call (.close i)) =
      (blind lib.fs (.close i)).map fun reply => (reply, lib) := if_neg (hready ▸ nofun)
  rw [blind] at hperform
  split
  · next hvalid =>
    rw [if_pos hvalid] at hperform
    exact replies_cons_none hperform []
  · next hvalid =>
    rw [if_neg hvalid] at hperform
    exact replies_cons hperform []

/-- Tables that are left allocated show in the next `tfs_init`. -/
theorem not_failureLeaves_of_tables {positive : 0 < params.blockSize} (ht : lib.fs.tables = none)
    (htfs : lib.fs.tfsInit params malloc = .ok (-1, fs)) (hfs : fs.tables = some params) :
    ¬ lib.FailureLeaves params positive malloc := by
  intro hleaves
  have heq := (hleaves _ (perform_init htfs)).1
    [.init smallParams smallParams_blockSize (.granted zeroHeap)]
  rw [replies_init_small, replies_init_small, hfs, ht] at heq
  cases heq

theorem validFileHandle_iff_of_replies {i : Int} (hready : lib.ready = false)
    (hready' : next.ready = false)
    (h : next.replies [.call (.close i)] = lib.replies [.call (.close i)]) :
    next.fs.validFileHandle i ↔ lib.fs.validFileHandle i := by
  rw [replies_close hready, replies_close hready'] at h
  constructor
  · intro hvalid
    by_contra hn
    rw [if_pos hvalid, if_neg hn] at h
    cases h
  · intro hvalid
    by_contra hn
    rw [if_neg hn, if_pos hvalid] at h
    cases h

/-- Another range of the handles shows in a `tfs_close`. -/
theorem maxOpenFiles_of_failureLeaves {positive : 0 < params.blockSize}
    (hready : lib.ready = false) (ht : lib.fs.tables = none)
    (hleaves : lib.FailureLeaves params positive (.failed false)) :
    params.maxOpenFilesCount = lib.fs.fsParams.maxOpenFilesCount := by
  have hrun : lib.perform (.init params positive (.failed false)) = _ :=
    perform_init (tfsInit_failed ht)
  have hnext : (lib.ready || lib.fs.tables.isNone && (Malloc.failed false).isGranted) = false := by
    rw [hready]
    exact Bool.and_false _
  have hvalid : ∀ i : Nat, (0 ≤ (i : Int) ∧ (i : Int) < params.maxOpenFilesCount) ↔
      (0 ≤ (i : Int) ∧ (i : Int) < lib.fs.fsParams.maxOpenFilesCount) :=
    fun i => validFileHandle_iff_of_replies hready hnext ((hleaves _ hrun).1 _)
  have hle := hvalid params.maxOpenFilesCount
  have hge := hvalid lib.fs.fsParams.maxOpenFilesCount
  omega

theorem Sound.harmless (h : lib.Sound) {positive : 0 < params.blockSize}
    (hleaves : lib.FailureLeaves params positive malloc) : lib.Harmless params malloc := by
  dsimp only [Harmless]
  cases ht : lib.fs.tables with
  | some q =>
    have hparams : params = q := (hleaves _ (perform_init (tfsInit_of_some ht))).2 q ht
    exact hparams.trans (h.bounds q ht).symm
  | none =>
    cases malloc with
    | granted heap =>
      by_contra hcounts
      have hzero : params.maxInodeCount = 0 ∨ params.maxBlockCount = 0 := by omega
      obtain ⟨fs', hcreate⟩ : ∃ fs', (lib.fs.allocatedTables params heap).inodeCreate .directory =
          .ok (none, fs') := inodeCreate_noRoot hzero
      have htfs : lib.fs.tfsInit params (.granted heap) = .ok (-1, fs') := by
        rw [tfsInit_granted ht, hcreate]
        rfl
      have htables : fs'.tables = some params :=
        (Fs.inodeCreate_sameSetup _ _ _ hcreate).tables
      exact not_failureLeaves_of_tables ht htfs htables hleaves
    | failed inodeTableSet =>
      cases inodeTableSet with
      | true => exact absurd hleaves (not_failureLeaves_of_tables ht (tfsInit_failed ht) rfl)
      | false =>
        refine ⟨rfl, maxOpenFiles_of_failureLeaves ?_ ht hleaves⟩
        rw [h.ready, ht]
        rfl

/-- In every state of a run in which each `tfs_init` was successful or harmless, a `tfs_init` that
fails leaves the state as it was exactly in the harmless cases. -/
theorem failureLeaves_iff (hr : Reaches step Admitted initial lib)
    (positive : 0 < params.blockSize) (malloc : Malloc) :
    lib.FailureLeaves params positive malloc ↔ lib.Harmless params malloc := by
  have hsound : lib.Sound := hr.invariant sound_initial fun _ _ _ h hok hs => h.step hok hs
  exact ⟨hsound.harmless, hsound.failureLeaves⟩

/-- A small file system, as a program has it behind `tfs_init`. -/
def small : Library := ⟨smallFs, true⟩

theorem small_of_reaches : Reaches step Admitted initial small :=
  (Reaches.refl initial).snoc (.init smallParams smallParams_blockSize (.granted zeroHeap))
    (Or.inl rfl) rfl

theorem small_failureLeaves :
    small.FailureLeaves smallParams smallParams_blockSize (.granted zeroHeap) :=
  (failureLeaves_iff small_of_reaches smallParams_blockSize _).mpr rfl

/-- The parameters of the small file system with one handle less. -/
def fewerHandles : TfsParams where
  maxInodeCount := 3
  maxBlockCount := 3
  maxOpenFilesCount := 1
  blockSize := 100

/-- Open a file twice. -/
def openTwice : List LibraryCall :=
  [.call (.open (some pathA) { creat := true }), .call (.open (some pathA) {})]

/-- The second `tfs_open` fails when a `tfs_init` with fewer handles has failed before. -/
theorem small_not_failureLeaves :
    ¬ small.FailureLeaves fewerHandles (by decide) (.granted zeroHeap) := by
  intro hleaves
  have heq := (hleaves ⟨{ smallFs with fsParams := fewerHandles }, true⟩ rfl).1 openTwice
  revert heq
  decide +kernel

end Library

end MessageBroker.Tfs
