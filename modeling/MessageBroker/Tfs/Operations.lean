import MessageBroker.Tfs.State
import MessageBroker.Lib.Transition

/-!
# The operations of TecnicoFS

The functions of `fs/operations.c`. Each of them holds `g_library_mutex` from its
first statement to every return, so one call is one step of the file system; the
lock itself is left out. A buffer of the caller is a memory, and sizes wrap at
`size_t` as in the source.
-/

namespace MessageBroker.Tfs

open Bytes Transition

def tfsDefaultParams : TfsParams where
  maxInodeCount := 64
  maxBlockCount := 1024
  maxOpenFilesCount := 16
  blockSize := 1024

/-- The combination of flags given to `tfs_open`. -/
structure FileMode where
  creat : Bool := false
  trunc : Bool := false
  append : Bool := false
deriving DecidableEq, Repr

/-- The `size_t` difference of two sizes. -/
def sizeSub (a b : Nat) : Nat := (a + sizeRange - b) % sizeRange

/-- The `ssize_t` value of a size. -/
def toSsize (n : Nat) : Int := if n ≤ ssizeMax then n else n - sizeRange

namespace Fs

/-- The file system before `tfs_init`: no table is allocated. -/
def uninitialized : Fs where
  fsParams := ⟨0, 0, 0, 0, by decide⟩
  tables := none
  inodeTable := fun _ => ⟨.file, 0, 0⟩
  freeinodeTs := fun _ => .free
  fsData := fun _ => 0
  freeBlocks := fun _ => .free
  openFileTable := fun _ => ⟨0, 0⟩
  freeOpenFileEntries := fun _ => .free

def tfsInit (fs : Fs) (params : TfsParams) (malloc : Malloc) : Except Fault (Int × Fs) :=
  match fs.stateInit params malloc with
  | (0, fs) => do
    let (root, fs) ← fs.inodeCreate .directory
    if root = some rootDirInum then .ok (0, fs) else .ok (-1, fs)
  | (_, fs) => .ok (-1, fs)

/-- A path is a non-empty name after a slash; `none` is the null pointer. -/
def validPathname : Option CString → Bool
  | none => false
  | some name => 1 < name.length && name.bytes.head? == some '/'.toUInt8

def tfsLookup (fs : Fs) (name : CString) (rootInode : Nat) : Except Fault Int :=
  if ¬ validPathname (some name) then .ok (-1) else fs.findInDir rootInode name.tail

/-- Truncate the file of an inode: the branch `mode & TFS_O_TRUNC`. -/
def truncate (fs : Fs) (inode : Nat) : Except Fault Fs :=
  if 0 < (fs.inodeTable inode).iSize then do
    let fs ← fs.dataBlockFree (fs.inodeTable inode).iDataBlock
    .ok (fs.setInode inode { fs.inodeTable inode with iSize := 0 })
  else .ok fs

def tfsOpen (fs : Fs) (name : Option CString) (mode : FileMode) : Except Fault (Int × Fs) :=
  match name with
  | none => .ok (-1, fs)
  | some name =>
    if ¬ validPathname (some name) then .ok (-1, fs)
    else do
      let rootDirInode ← fs.inodeGet rootDirInum
      let inum ← fs.tfsLookup name rootDirInode
      if 0 ≤ inum then do
        -- the file already exists
        let inode ← fs.inodeGet inum
        let fs ← if mode.trunc then fs.truncate inode else .ok fs
        let offset := if mode.append then (fs.inodeTable inode).iSize else 0
        .ok (fs.addToOpenFileTable inum offset)
      else if mode.creat then do
        let (inum, fs) ← fs.inodeCreate .file
        match inum with
        | none => .ok (-1, fs)
        | some inum => do
          let (added, fs) ← fs.addDirEntry rootDirInode name.tail inum
          if added = -1 then do
            let fs ← fs.inodeDelete inum
            .ok (-1, fs)
          else .ok (fs.addToOpenFileTable inum 0)
      else .ok (-1, fs)

def tfsClose (fs : Fs) (fhandle : Int) : Except Fault (Int × Fs) :=
  match fs.getOpenFileEntry fhandle with
  | none => .ok (-1, fs)
  | some _ => do
    let fs ← fs.removeFromOpenFileTable fhandle
    .ok (0, fs)

def setOffset (fs : Fs) (file offset : Nat) : Fs :=
  { fs with
    openFileTable := Function.update fs.openFileTable file
      { fs.openFileTable file with ofOffset := offset } }

/-- The number of bytes that `tfs_write` settles on. -/
def writeCount (fs : Fs) (offset toWrite : Nat) : Nat :=
  if fs.blockSize < (toWrite + offset) % sizeRange then sizeSub fs.blockSize offset
  else toWrite

/-- The number of bytes that `tfs_read` settles on. -/
def readCount (fs : Fs) (inode offset len : Nat) : Nat :=
  let toRead := sizeSub (fs.inodeTable inode).iSize offset
  if len < toRead then len else toRead

/-- The part of `tfs_write` after the number of bytes is settled and positive:
copy the bytes to the block and advance the handle. -/
def writeBlock (fs : Fs) (file inode : Nat) (buffer : Memory) (toWrite : Nat) :
    Except Fault Fs := do
  let block ← fs.dataBlockGet (fs.inodeTable inode).iDataBlock
  let offset := (fs.openFileTable file).ofOffset
  if fs.fsDataSize < block + offset + toWrite then .error .outOfData
  else
    let fs := { fs with fsData := store fs.fsData (block + offset) (load buffer 0 toWrite) }
    let fs := fs.setOffset file ((offset + toWrite) % sizeRange)
    .ok (if (fs.inodeTable inode).iSize < (fs.openFileTable file).ofOffset then
      fs.setInode inode
        { fs.inodeTable inode with iSize := (fs.openFileTable file).ofOffset }
    else fs)

def tfsWrite (fs : Fs) (fhandle : Int) (buffer : Memory) (toWrite : Nat) :
    Except Fault (Int × Fs) :=
  match fs.getOpenFileEntry fhandle with
  | none => .ok (-1, fs)
  | some file => do
    let inode ← fs.inodeGet (fs.openFileTable file).ofInumber
    let toWrite := fs.writeCount (fs.openFileTable file).ofOffset toWrite
    if 0 < toWrite then
      if (fs.inodeTable inode).iSize = 0 then
        match fs.dataBlockAlloc with
        | (none, fs) => .ok (-1, fs)
        | (some bnum, fs) => do
          let fs ← (fs.setInode inode { fs.inodeTable inode with iDataBlock := bnum }).writeBlock
            file inode buffer toWrite
          .ok (toSsize toWrite, fs)
      else do
        let fs ← fs.writeBlock file inode buffer toWrite
        .ok (toSsize toWrite, fs)
    else .ok (toSsize toWrite, fs)

/-- The result of `tfs_read` also holds the bytes copied to the caller. -/
def tfsRead (fs : Fs) (fhandle : Int) (len : Nat) : Except Fault ((Int × List UInt8) × Fs) :=
  match fs.getOpenFileEntry fhandle with
  | none => .ok ((-1, []), fs)
  | some file => do
    let inode ← fs.inodeGet (fs.openFileTable file).ofInumber
    let offset := (fs.openFileTable file).ofOffset
    let toRead := fs.readCount inode offset len
    if 0 < toRead then do
      let block ← fs.dataBlockGet (fs.inodeTable inode).iDataBlock
      if fs.fsDataSize < block + offset + toRead then .error .outOfData
      else .ok ((toSsize toRead, load fs.fsData (block + offset) toRead),
        fs.setOffset file ((offset + toRead) % sizeRange))
    else .ok ((toSsize toRead, []), fs)

def tfsUnlink (fs : Fs) (target : Option CString) : Except Fault (Int × Fs) :=
  match target with
  | none => .ok (-1, fs)
  | some target =>
    if ¬ validPathname (some target) then .ok (-1, fs)
    else do
      let rootDirInode ← fs.inodeGet rootDirInum
      let inum ← fs.tfsLookup target rootDirInode
      if inum = -1 then .ok (-1, fs)
      else do
        let fs ← fs.inodeDelete inum
        let (cleared, fs) ← fs.clearDirEntry rootDirInode target.tail
        if cleared = -1 then .ok (-1, fs) else .ok (0, fs)

end Fs

/-! ### Calls -/

/-- A call of the file system interface with its arguments. -/
inductive Call where
  | open (name : Option CString) (mode : FileMode)
  | close (fhandle : Int)
  | write (fhandle : Int) (buffer : Memory) (len : Nat)
  | read (fhandle : Int) (len : Nat)
  | unlink (target : Option CString)

/-- What a call gives back: its return value and the bytes that were read. -/
structure Reply where
  ret : Int
  bytes : List UInt8 := []
deriving DecidableEq, Repr

/-- Perform one call. -/
def exec (fs : Fs) : Call → Except Fault (Reply × Fs)
  | .open name mode => do
    let (ret, fs) ← fs.tfsOpen name mode
    .ok (⟨ret, []⟩, fs)
  | .close fhandle => do
    let (ret, fs) ← fs.tfsClose fhandle
    .ok (⟨ret, []⟩, fs)
  | .write fhandle buffer len => do
    let (ret, fs) ← fs.tfsWrite fhandle buffer len
    .ok (⟨ret, []⟩, fs)
  | .read fhandle len => do
    let ((ret, bytes), fs) ← fs.tfsRead fhandle len
    .ok (⟨ret, bytes⟩, fs)
  | .unlink target => do
    let (ret, fs) ← fs.tfsUnlink target
    .ok (⟨ret, []⟩, fs)

end MessageBroker.Tfs
