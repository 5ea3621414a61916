import MessageBroker.Config
import MessageBroker.Lib.CString
import MessageBroker.Lib.Table

/-!
# The tables of TecnicoFS

The functions of `fs/state.c`. The tables are total functions of an index; the
code only uses the indices below the configured counts. A failed assertion and a
`memcpy` that leaves `fs_data` are faults, which end the program. The simulated
access delays have no effect on the state and are left out.
-/

namespace MessageBroker.Tfs

open Bytes Table

inductive Fault where
  /-- A failed `ALWAYS_ASSERT`, with its message. -/
  | panic (message : String)
  /-- A copy from or to an address outside `fs_data`. -/
  | outOfData
deriving DecidableEq, Repr

structure TfsParams where
  maxInodeCount : Nat
  maxBlockCount : Nat
  maxOpenFilesCount : Nat
  blockSize : Nat
  size_t : maxInodeCount < sizeRange ∧ maxBlockCount < sizeRange ∧
    maxOpenFilesCount < sizeRange ∧ blockSize < sizeRange := by decide

inductive InodeType where
  | file
  | directory
deriving DecidableEq, Repr

structure Inode where
  iNodeType : InodeType
  iSize : Nat
  iDataBlock : Int
deriving DecidableEq, Repr

inductive AllocationState where
  | free
  | taken
deriving DecidableEq, Repr

structure OpenFileEntry where
  ofInumber : Int
  ofOffset : Nat
deriving DecidableEq, Repr

/-- The memory that the allocations of `state_init` return, with arbitrary contents. -/
structure Heap where
  inodeTable : Nat → Inode
  fsData : Memory
  openFileTable : Nat → OpenFileEntry

/-- The outcome of the six `malloc` calls. When one of them fails, the pointer
`inode_table` may still have been set. Of the six pointers this is the only one that is
told apart: a failed initialisation leaves tables that no call can use, and the other
pointers decide only where such a call faults. -/
inductive Malloc where
  | failed (inodeTableSet : Bool)
  | granted (heap : Heap)

/-- The static variables of `state.c`; `tables` holds the parameters that the
tables were allocated with, and is `none` while `inode_table` is `NULL`. -/
structure Fs where
  fsParams : TfsParams
  tables : Option TfsParams
  inodeTable : Nat → Inode
  freeinodeTs : Nat → AllocationState
  fsData : Memory
  freeBlocks : Nat → AllocationState
  openFileTable : Nat → OpenFileEntry
  freeOpenFileEntries : Nat → AllocationState

namespace Fs

def inodeTableSize (fs : Fs) : Nat := fs.fsParams.maxInodeCount

def dataBlocks (fs : Fs) : Nat := fs.fsParams.maxBlockCount

def maxOpenFiles (fs : Fs) : Nat := fs.fsParams.maxOpenFilesCount

def blockSize (fs : Fs) : Nat := fs.fsParams.blockSize

def maxDirEntries (fs : Fs) : Nat := fs.blockSize / sizeofDirEntry

/-- The number of bytes of `fs_data`; the argument of `malloc` wraps. -/
def fsDataSize (fs : Fs) : Nat :=
  match fs.tables with
  | none => 0
  | some params => params.maxBlockCount * params.blockSize % sizeRange

def validInumber (fs : Fs) (inumber : Int) : Prop := 0 ≤ inumber ∧ inumber < fs.inodeTableSize

def validBlockNumber (fs : Fs) (blockNumber : Int) : Prop :=
  0 ≤ blockNumber ∧ blockNumber < fs.dataBlocks

def validFileHandle (fs : Fs) (fhandle : Int) : Prop := 0 ≤ fhandle ∧ fhandle < fs.maxOpenFiles

instance (fs : Fs) (i : Int) : Decidable (fs.validInumber i) :=
  inferInstanceAs (Decidable (_ ∧ _))

instance (fs : Fs) (i : Int) : Decidable (fs.validBlockNumber i) :=
  inferInstanceAs (Decidable (_ ∧ _))

instance (fs : Fs) (i : Int) : Decidable (fs.validFileHandle i) :=
  inferInstanceAs (Decidable (_ ∧ _))

/-! ### Data blocks -/

/-- The lowest free data block, now taken; `none` when all are taken. -/
def dataBlockAlloc (fs : Fs) : Option Nat × Fs :=
  match firstIndex (fun i => fs.freeBlocks i == .free) fs.dataBlocks with
  | some i => (some i, { fs with freeBlocks := Function.update fs.freeBlocks i .taken })
  | none => (none, fs)

def dataBlockFree (fs : Fs) (blockNumber : Int) : Except Fault Fs :=
  if fs.validBlockNumber blockNumber then
    .ok { fs with freeBlocks := Function.update fs.freeBlocks blockNumber.toNat .free }
  else .error (.panic "data_block_free: invalid block number")

/-- The address in `fs_data` of the first byte of a block. -/
def dataBlockGet (fs : Fs) (blockNumber : Int) : Except Fault Nat :=
  if fs.validBlockNumber blockNumber then .ok (blockNumber.toNat * fs.blockSize)
  else .error (.panic "data_block_get: invalid block number")

/-! ### Inodes -/

/-- The lowest free inode, now taken; `none` when all are taken. -/
def inodeAlloc (fs : Fs) : Option Nat × Fs :=
  match firstIndex (fun i => fs.freeinodeTs i == .free) fs.inodeTableSize with
  | some i => (some i, { fs with freeinodeTs := Function.update fs.freeinodeTs i .taken })
  | none => (none, fs)

def setInode (fs : Fs) (inumber : Nat) (inode : Inode) : Fs :=
  { fs with inodeTable := Function.update fs.inodeTable inumber inode }

def inodeDelete (fs : Fs) (inumber : Int) : Except Fault Fs :=
  if ¬ fs.validInumber inumber then .error (.panic "inode_delete: invalid inumber")
  else if fs.freeinodeTs inumber.toNat ≠ .taken then
    .error (.panic "inode_delete: inode already freed")
  else do
    let fs ←
      if 0 < (fs.inodeTable inumber.toNat).iSize then
        fs.dataBlockFree (fs.inodeTable inumber.toNat).iDataBlock
      else .ok fs
    .ok { fs with freeinodeTs := Function.update fs.freeinodeTs inumber.toNat .free }

/-- The address of a directory entry. -/
def dirEntry (block i : Nat) : Nat := block + i * sizeofDirEntry

/-- The address of the field `d_inumber` of a directory entry. -/
def dInumberAddr (block i : Nat) : Nat := dirEntry block i + maxFileName

def dInumber (fs : Fs) (block i : Nat) : Int := loadInt fs.fsData (dInumberAddr block i)

/-- The loop of `inode_create` that labels the first `n` entries as empty. -/
def labelEntries (mem : Memory) (block : Nat) : Nat → Memory
  | 0 => mem
  | n + 1 => storeInt (labelEntries mem block n) (dInumberAddr block n) (-1)

/-- Create an inode: a directory gets a block of empty entries, a file none. -/
def inodeCreate (fs : Fs) (iType : InodeType) : Except Fault (Option Nat × Fs) :=
  match fs.inodeAlloc with
  | (none, fs) => .ok (none, fs)
  | (some inumber, fs) =>
    match iType with
    | .directory =>
      match fs.dataBlockAlloc with
      | (none, fs) => do
        let fs ← (fs.setInode inumber ⟨iType, 0, -1⟩).inodeDelete inumber
        .ok (none, fs)
      | (some b, fs) => do
        let fs := fs.setInode inumber ⟨iType, fs.blockSize, b⟩
        let block ← fs.dataBlockGet b
        if fs.fsDataSize < block + fs.maxDirEntries * sizeofDirEntry then .error .outOfData
        else
          .ok (some inumber, { fs with fsData := labelEntries fs.fsData block fs.maxDirEntries })
    | .file => .ok (some inumber, fs.setInode inumber ⟨iType, 0, -1⟩)

/-- The index in `inode_table` of the inode with this number. -/
def inodeGet (fs : Fs) (inumber : Int) : Except Fault Nat :=
  if fs.validInumber inumber then .ok inumber.toNat
  else .error (.panic "inode_get: invalid inumber")

/-! ### Directory entries -/

/-- Clear the first entry whose name is `subName`, whether it is in use or not. -/
def clearDirEntry (fs : Fs) (inode : Nat) (subName : CString) : Except Fault (Int × Fs) :=
  if (fs.inodeTable inode).iNodeType ≠ .directory then .ok (-1, fs)
  else do
    let block ← fs.dataBlockGet (fs.inodeTable inode).iDataBlock
    match firstIndex (fun i => strcmpEq fs.fsData (dirEntry block i) subName.bytes)
        fs.maxDirEntries with
    | some i =>
      .ok (0, { fs with
        fsData := store (storeInt fs.fsData (dInumberAddr block i) (-1)) (dirEntry block i)
          (List.replicate maxFileName 0) })
    | none => .ok (-1, fs)

/-- Fill the first entry labelled as empty. The name is copied with `strncpy`,
which pads it with terminators. -/
def addDirEntry (fs : Fs) (inode : Nat) (subName : CString) (subInumber : Int) :
    Except Fault (Int × Fs) :=
  if subName.length = 0 ∨ maxFileName - 1 < subName.length then .ok (-1, fs)
  else if (fs.inodeTable inode).iNodeType ≠ .directory then .ok (-1, fs)
  else do
    let block ← fs.dataBlockGet (fs.inodeTable inode).iDataBlock
    match firstIndex (fun i => fs.dInumber block i == -1) fs.maxDirEntries with
    | some i =>
      .ok (0, { fs with
        fsData := store (storeInt fs.fsData (dInumberAddr block i) subInumber) (dirEntry block i)
          (subName.padTo (maxFileName - 1) ++ [0]) })
    | none => .ok (-1, fs)

/-- The inode number of the first entry in use whose name is `subName`, or `-1`. -/
def findInDir (fs : Fs) (inode : Nat) (subName : CString) : Except Fault Int :=
  if (fs.inodeTable inode).iNodeType ≠ .directory then .ok (-1)
  else do
    let block ← fs.dataBlockGet (fs.inodeTable inode).iDataBlock
    match firstIndex (fun i => fs.dInumber block i != -1 &&
        strncmpEq fs.fsData (dirEntry block i) subName.bytes maxFileName) fs.maxDirEntries with
    | some i => .ok (fs.dInumber block i)
    | none => .ok (-1)

/-! ### Open file table -/

/-- Take the lowest free entry of the open file table. -/
def addToOpenFileTable (fs : Fs) (inumber : Int) (offset : Nat) : Int × Fs :=
  match firstIndex (fun i => fs.freeOpenFileEntries i == .free) fs.maxOpenFiles with
  | some i =>
    (i, { fs with
      freeOpenFileEntries := Function.update fs.freeOpenFileEntries i .taken
      openFileTable := Function.update fs.openFileTable i ⟨inumber, offset⟩ })
  | none => (-1, fs)

def removeFromOpenFileTable (fs : Fs) (fhandle : Int) : Except Fault Fs :=
  if ¬ fs.validFileHandle fhandle then
    .error (.panic "remove_from_open_file_table: file handle must be valid")
  else if fs.freeOpenFileEntries fhandle.toNat ≠ .taken then
    .error (.panic "remove_from_open_file_table: file handle must be taken")
  else .ok { fs with
    freeOpenFileEntries := Function.update fs.freeOpenFileEntries fhandle.toNat .free }

/-- The entry of a handle, `none` for one that is out of range or not open. -/
def getOpenFileEntry (fs : Fs) (fhandle : Int) : Option Nat :=
  if ¬ fs.validFileHandle fhandle then none
  else if fs.freeOpenFileEntries fhandle.toNat ≠ .taken then none
  else some fhandle.toNat

/-! ### Initialisation -/

/-- Set the parameters and allocate the tables. The parameters are overwritten
before the check that the tables are not allocated yet. -/
def stateInit (fs : Fs) (params : TfsParams) (malloc : Malloc) : Int × Fs :=
  let fs := { fs with fsParams := params }
  if fs.tables.isSome then (-1, fs)
  else
    match malloc with
    | .failed inodeTableSet => (-1, { fs with tables := if inodeTableSet then some params else none })
    | .granted heap =>
      (0, { fs with
        tables := some params
        inodeTable := heap.inodeTable
        freeinodeTs := fun _ => .free
        fsData := heap.fsData
        freeBlocks := fun _ => .free
        openFileTable := heap.openFileTable
        freeOpenFileEntries := fun _ => .free })

end Fs

end MessageBroker.Tfs
