import MessageBroker.Config
import MessageBroker.Lib.CString

/-!
# Register requests

`create_register` of the publisher, the subscriber and the manager, and the bytes
that each of them writes to the register FIFO. The three programs fill their
buffers with the same pair of copy loops, `copyField`; the manager adds the box
name only in the modes that have one.
-/

namespace MessageBroker

/-- A client pipe path that fits its field with its terminator. -/
structure PipePath where
  name : CString
  fits : name.length < pipeNameSize
deriving DecidableEq

/-- A box name that fits its field with its terminator. -/
structure BoxName where
  name : CString
  fits : name.length < boxNameSize
deriving DecidableEq

namespace Clients

open Bytes

def separator : UInt8 := '|'.toUInt8

/-- The bytes that the two loops put at `buffer[i]` up to and including `buffer[limit]`: the
string cut at index `limit`, then terminators. -/
def copyField (i limit : Nat) (s : CString) : List UInt8 :=
  let copied := s.bytes.take (limit - i)
  copied ++ List.replicate (limit + 1 - i - copied.length) 0

/-- The part of the buffer up to the client pipe name, the same in the three programs. -/
def registerHeader (mode : UInt8) (pipeName : CString) : List UInt8 :=
  mode :: separator :: copyField 2 (pipeNameSize + 1) pipeName

/-- The part of the buffer from the second separator on. -/
def registerBox (boxName : CString) : List UInt8 :=
  separator :: copyField (pipeNameSize + 3) (pipePlusBoxSize + 2) boxName

/-- `create_register` of `pub.c`. -/
def Publisher.createRegister (pipeName boxName : CString) : List UInt8 :=
  registerHeader opCodePublisher pipeName ++ registerBox boxName

/-- `create_register` of `sub.c`. -/
def Subscriber.createRegister (pipeName boxName : CString) : List UInt8 :=
  registerHeader opCodeSubscriber pipeName ++ registerBox boxName

/-- `create_register` of `manager.c`; `box_name` is `NULL` in the mode that has no box. -/
def Manager.createRegister (mode : UInt8) (pipeName : CString) (boxName : Option CString) :
    List UInt8 :=
  if mode = opCodeBoxCreate ∨ mode = opCodeBoxRemove then
    registerHeader mode pipeName ++ (boxName.map registerBox).getD []
  else
    registerHeader mode pipeName

/-- A request as its client receives it on the command line. -/
inductive Request
  | publisher (pipe : PipePath) (box : BoxName)
  | subscriber (pipe : PipePath) (box : BoxName)
  | boxCreate (pipe : PipePath) (box : BoxName)
  | boxRemove (pipe : PipePath) (box : BoxName)
  | boxList (pipe : PipePath)
deriving DecidableEq

namespace Request

def opcode : Request → UInt8
  | publisher .. => opCodePublisher
  | subscriber .. => opCodeSubscriber
  | boxCreate .. => opCodeBoxCreate
  | boxRemove .. => opCodeBoxRemove
  | boxList .. => opCodeBoxList

def pipe : Request → CString
  | publisher pipe _ | subscriber pipe _ | boxCreate pipe _ | boxRemove pipe _ | boxList pipe =>
    pipe.name

def box : Request → Option CString
  | publisher _ box | subscriber _ box | boxCreate _ box | boxRemove _ box => some box.name
  | boxList _ => none

def IsList : Request → Prop
  | boxList _ => True
  | _ => False

instance : DecidablePred IsList := fun r => by
  cases r <;> unfold IsList <;> infer_instance

/-- What `create_register` leaves in the client's buffer. -/
def buffer : Request → List UInt8
  | publisher pipe box => Publisher.createRegister pipe.name box.name
  | subscriber pipe box => Subscriber.createRegister pipe.name box.name
  | boxCreate pipe box => Manager.createRegister opCodeBoxCreate pipe.name (some box.name)
  | boxRemove pipe box => Manager.createRegister opCodeBoxRemove pipe.name (some box.name)
  | boxList pipe => Manager.createRegister opCodeBoxList pipe.name none

/-- The length that the call site passes to `write`. -/
def writeLength : Request → Nat
  | publisher .. => pipePlusBoxSize + 3
  | subscriber .. => pipePlusBoxSize + 3
  | boxCreate .. => pipePlusBoxSize + 3
  | boxRemove .. => pipePlusBoxSize + 3
  | boxList .. => pipeNameSize + 1

/-- The bytes that the client appends to the register FIFO. -/
def written (r : Request) : List UInt8 :=
  r.buffer.take r.writeLength

end Request

theorem Request.length_written_le (r : Request) : r.written.length ≤ pipePlusBoxSize + 3 := by
  have hle : r.writeLength ≤ pipePlusBoxSize + 3 := by
    cases r with
    | boxList => exact show pipeNameSize + 1 ≤ pipePlusBoxSize + 3 by decide
    | _ => exact le_rfl
  exact (List.length_take_le ..).trans hle

variable {mode : UInt8}

/-- The pipe name takes its `256` bytes, whatever its length is. -/
theorem registerHeader_cut (mode : UInt8) (pipeName : CString) :
    registerHeader mode pipeName =
      mode :: separator :: (pipeName.cut (pipeNameSize - 1)).padTo pipeNameSize := rfl

theorem registerBox_cut (boxName : CString) :
    registerBox boxName = separator :: (boxName.cut (boxNameSize - 1)).padTo boxNameSize := rfl

theorem registerHeader_eq (mode : UInt8) (pipe : PipePath) :
    registerHeader mode pipe.name = mode :: separator :: pipe.name.padTo pipeNameSize := by
  rw [registerHeader_cut, CString.cut_of_le (Nat.le_sub_one_of_lt pipe.fits)]

theorem registerBox_eq (box : BoxName) :
    registerBox box.name = separator :: box.name.padTo boxNameSize := by
  rw [registerBox_cut, CString.cut_of_le (Nat.le_sub_one_of_lt box.fits)]

theorem length_registerHeader (mode : UInt8) (pipeName : CString) :
    (registerHeader mode pipeName).length = pipeNameSize + 2 := by
  have hle := pipeName.length_cut_le (pipeNameSize - 1)
  rw [registerHeader_cut, List.length_cons, List.length_cons,
    CString.length_padTo (hle.trans (Nat.sub_le _ 1))]

theorem length_registerBox (boxName : CString) :
    (registerBox boxName).length = boxNameSize + 1 := by
  have hle := boxName.length_cut_le (boxNameSize - 1)
  rw [registerBox_cut, List.length_cons, CString.length_padTo (hle.trans (Nat.sub_le _ 1))]

/-- A header followed by a box has exactly the length that its call site writes. -/
theorem take_registerHeader_registerBox (mode : UInt8) (pipeName boxName : CString) :
    (registerHeader mode pipeName ++ registerBox boxName).take (pipePlusBoxSize + 3) =
      registerHeader mode pipeName ++ registerBox boxName := by
  apply List.take_of_length_le
  rw [List.length_append, length_registerHeader, length_registerBox, pipePlusBoxSize]
  omega

/-- Requests with a box are written whole. -/
theorem Request.written_of_box {r : Request} (h : ¬ r.IsList) :
    ∃ (pipe : PipePath) (box : BoxName), r.pipe = pipe.name ∧ r.box = some box.name ∧
      r.written = r.opcode :: separator :: pipe.name.padTo pipeNameSize ++
        separator :: box.name.padTo boxNameSize := by
  cases r with
  | publisher pipe box | subscriber pipe box | boxCreate pipe box | boxRemove pipe box =>
    refine ⟨pipe, box, rfl, rfl, (take_registerHeader_registerBox _ pipe.name box.name).trans ?_⟩
    rw [registerHeader_eq, registerBox_eq]
    rfl
  | boxList pipe => exact absurd trivial h

/-- A list request is written without the last byte of its buffer. -/
theorem Request.written_of_list {r : Request} (h : r.IsList) :
    ∃ pipe : PipePath, r.pipe = pipe.name ∧ r.box = none ∧
      r.written = opCodeBoxList :: separator :: pipe.name.padTo (pipeNameSize - 1) := by
  cases r with
  | publisher | subscriber | boxCreate | boxRemove => exact absurd h id
  | boxList pipe =>
    refine ⟨pipe, rfl, rfl, ?_⟩
    have hfits := pipe.fits
    change (registerHeader opCodeBoxList pipe.name).take (pipeNameSize - 1 + 2) = _
    rw [registerHeader_eq, List.take_succ_cons, List.take_succ_cons,
      CString.take_padTo (by omega) (by omega)]

end Clients

end MessageBroker
