import Mathlib.Algebra.Group.Nat.Defs

/-!
# Compile-time parameters

The constants of `fs/config.h`, the opcodes shared by the broker and its clients,
and the C integer limits that the code relies on.
-/

namespace MessageBroker

/-- FS root inode number. -/
def rootDirInum : Nat := 0

def maxFileName : Nat := 40

def pipeNameSize : Nat := 256

def boxNameSize : Nat := 32

def pipePlusBoxSize : Nat := pipeNameSize + boxNameSize

def errorMessageSize : Nat := 1024

def pSMessageSize : Nat := 1024

/-- `sizeof(dir_entry_t)`: the name and an `int`. -/
def sizeofDirEntry : Nat := maxFileName + 4

/-- The largest `int`. -/
def intMax : Nat := 2 ^ 31 - 1

/-- One more than the largest `size_t`. -/
def sizeRange : Nat := 2 ^ 64

/-- The largest `ssize_t`. -/
def ssizeMax : Nat := 2 ^ 63 - 1

def opCodePublisher : UInt8 := '1'.toUInt8

def opCodeSubscriber : UInt8 := '2'.toUInt8

def opCodeBoxCreate : UInt8 := '3'.toUInt8

def opCodeBoxCreateR : UInt8 := '4'.toUInt8

def opCodeBoxRemove : UInt8 := '5'.toUInt8

def opCodeBoxRemoveR : UInt8 := '6'.toUInt8

def opCodeBoxList : UInt8 := '7'.toUInt8

def opCodeBoxListR : UInt8 := '8'.toUInt8

end MessageBroker
