import MessageBroker.Clients.Register
import MessageBroker.Lib.Buffer

/-!
# Register requests in their buffers

The three copies of `create_register` as they run: assignment by assignment, with one
index through all the loops, in a buffer that the caller has allocated and that holds
anything. Paths and box names come from the command line and have any length; the
loops cut them to their fields.
-/

namespace MessageBroker.Clients

open Bytes Buffer

/-- `create_register` up to the padding of the pipe name, with the index behind it. -/
def writeHeader (mode : UInt8) (pipeName : CString) (buffer : List UInt8) :
    Option (Nat × List UInt8) := do
  let buffer ← put buffer 0 mode
  let buffer ← put buffer 1 separator
  (copyUntil (· == 0) (pipeNameSize + 1) pipeName.terminated 2 buffer).bind
    fun (i, buffer) => fillTo 0 (pipeNameSize + 2) i buffer

/-- `create_register` from the second separator on. -/
def writeBox (boxName : CString) (i : Nat) (buffer : List UInt8) : Option (Nat × List UInt8) := do
  let buffer ← put buffer i separator
  (copyUntil (· == 0) (pipePlusBoxSize + 2) boxName.terminated (i + 1) buffer).bind
    fun (i, buffer) => fillTo 0 (pipePlusBoxSize + 3) i buffer

/-- A request with a box. -/
def writeBoth (mode : UInt8) (pipeName boxName : CString) (buffer : List UInt8) :
    Option (List UInt8) := do
  let (i, buffer) ← writeHeader mode pipeName buffer
  let (_, buffer) ← writeBox boxName i buffer
  some buffer

/-- `create_register` of `pub.c`. -/
def Publisher.createRegisterIn (pipeName boxName : CString) : List UInt8 → Option (List UInt8) :=
  writeBoth opCodePublisher pipeName boxName

/-- `create_register` of `sub.c`. -/
def Subscriber.createRegisterIn (pipeName boxName : CString) : List UInt8 → Option (List UInt8) :=
  writeBoth opCodeSubscriber pipeName boxName

/-- `create_register` of `manager.c`. A `NULL` box name would be dereferenced in the modes that
have a box. -/
def Manager.createRegisterIn (mode : UInt8) (pipeName : CString) (boxName : Option CString)
    (buffer : List UInt8) : Option (List UInt8) := do
  let (i, buffer) ← writeHeader mode pipeName buffer
  if mode = opCodeBoxCreate ∨ mode = opCodeBoxRemove then
    let boxName ← boxName
    let (_, buffer) ← writeBox boxName i buffer
    some buffer
  else some buffer

/-- The command line of a client. -/
inductive CommandLine
  | publisher (pipeName boxName : CString)
  | subscriber (pipeName boxName : CString)
  | create (pipeName boxName : CString)
  | remove (pipeName boxName : CString)
  | list (pipeName : CString)

namespace CommandLine

def opcode : CommandLine → UInt8
  | publisher .. => opCodePublisher
  | subscriber .. => opCodeSubscriber
  | create .. => opCodeBoxCreate
  | remove .. => opCodeBoxRemove
  | list .. => opCodeBoxList

def pipeName : CommandLine → CString
  | publisher pipe _ | subscriber pipe _ | create pipe _ | remove pipe _ | list pipe => pipe

def boxName : CommandLine → Option CString
  | publisher _ box | subscriber _ box | create _ box | remove _ box => some box
  | list _ => none

/-- The number of bytes that the caller of `create_register` has allocated. -/
def allocated : CommandLine → Nat
  | publisher .. | subscriber .. | create .. | remove .. => pipePlusBoxSize + 3
  | list .. => pipeNameSize + 2

/-- The number of bytes that the caller then writes to the register FIFO. -/
def sent : CommandLine → Nat
  | publisher .. | subscriber .. | create .. | remove .. => pipePlusBoxSize + 3
  | list .. => pipeNameSize + 1

def createRegister : CommandLine → List UInt8 → Option (List UInt8)
  | publisher pipe box => Publisher.createRegisterIn pipe box
  | subscriber pipe box => Subscriber.createRegisterIn pipe box
  | create pipe box => Manager.createRegisterIn opCodeBoxCreate pipe (some box)
  | remove pipe box => Manager.createRegisterIn opCodeBoxRemove pipe (some box)
  | list pipe => Manager.createRegisterIn opCodeBoxList pipe none

end CommandLine

variable {boxName : CString} {buffer : List UInt8}

/-! ### What the loops leave in the buffer -/

theorem writeHeader_eq (mode : UInt8) (pipeName : CString)
    (hfits : pipeNameSize + 2 ≤ buffer.length) :
    writeHeader mode pipeName buffer = some (pipeNameSize + 2,
      registerHeader mode pipeName ++ buffer.drop (pipeNameSize + 2)) := by
  obtain ⟨a, b, rest, rfl⟩ : ∃ a b rest, buffer = a :: b :: rest := by
    match buffer, hfits with
    | a :: b :: rest, _ => exact ⟨a, b, rest, rfl⟩
  have h0 : put (a :: b :: rest) 0 mode = some (mode :: b :: rest) :=
    put_append List.length_nil mode a (b :: rest)
  have h1 : put (mode :: b :: rest) 1 separator = some (mode :: separator :: rest) :=
    put_append List.length_singleton separator b rest
  have hroom : pipeNameSize + 1 + 1 ≤ 2 + rest.length := by
    simp only [List.length_cons] at hfits
    omega
  have htwo : [mode, separator].length = 2 := rfl
  have hloops := copyString_fillTo pipeName [] rest (pipeNameSize + 1) htwo (by decide) hroom
  simp only [writeHeader, h0, h1, Option.bind_eq_bind, Option.bind_some]
  exact hloops

theorem writeBox_eq (boxName : CString) {done rest : List UInt8}
    (hdone : done.length = pipeNameSize + 2)
    (hrest : rest.length = boxNameSize + 1) :
    writeBox boxName (pipeNameSize + 2) (done ++ rest) =
      some (pipePlusBoxSize + 3, done ++ registerBox boxName) := by
  obtain ⟨old, rest, rfl⟩ : ∃ old rest', rest = old :: rest' :=
    List.exists_cons_of_ne_nil (by rintro rfl; cases hrest)
  rw [List.length_cons, Nat.add_left_inj] at hrest
  have hsep := put_append hdone separator old rest
  have hlen : (done ++ [separator]).length = pipeNameSize + 2 + 1 := by
    rw [List.length_append, hdone]
    rfl
  have hloops := copyString_fillTo boxName [] rest (pipePlusBoxSize + 2) hlen (by decide)
    (by rw [hrest]; decide)
  have hempty : rest.drop (pipePlusBoxSize + 2 + 1 - (pipeNameSize + 2 + 1)) = [] :=
    List.drop_of_length_le hrest.le
  have hsplit : done ++ separator :: rest = (done ++ [separator]) ++ rest := by simp
  rw [hempty, List.append_nil] at hloops
  simp only [writeBox, hsep, Option.bind_eq_bind, Option.bind_some]
  rw [hsplit]
  apply hloops.trans
  rw [List.append_assoc]
  rfl

theorem writeBoth_eq (mode : UInt8) (pipeName : CString)
    (hlen : buffer.length = pipePlusBoxSize + 3) :
    writeBoth mode pipeName boxName buffer =
      some (registerHeader mode pipeName ++ registerBox boxName) := by
  have hroom : pipeNameSize + 2 ≤ buffer.length := by
    rw [hlen]
    decide
  have hheader := writeHeader_eq mode pipeName hroom
  have hrest : (buffer.drop (pipeNameSize + 2)).length = boxNameSize + 1 := by
    rw [List.length_drop, hlen]
    rfl
  have hbox := writeBox_eq boxName (length_registerHeader mode pipeName) hrest
  simp only [writeBoth, hheader, hbox, Option.bind_eq_bind, Option.bind_some]

namespace CommandLine

/-- With a box the whole buffer is filled and sent. -/
theorem createRegister_of_box {line : CommandLine} {box : CString} (hbox : line.boxName = some box)
    (hlen : buffer.length = line.allocated) :
    ∃ filled, line.createRegister buffer = some filled ∧ filled.length = line.allocated ∧
      filled.take line.sent = registerHeader line.opcode line.pipeName ++ registerBox box := by
  have hfilled : ∀ (mode : UInt8) (pipe : CString),
      (registerHeader mode pipe ++ registerBox box).length = pipePlusBoxSize + 3 := by
    intro mode pipe
    rw [List.length_append, length_registerHeader, length_registerBox]
    rfl
  cases line with
  | publisher pipe b | subscriber pipe b =>
    cases hbox
    exact ⟨_, writeBoth_eq _ pipe hlen, hfilled _ _, List.take_of_length_le (hfilled _ _).le⟩
  | create pipe b | remove pipe b =>
    cases hbox
    refine ⟨_, ?_, hfilled _ _, List.take_of_length_le (hfilled _ _).le⟩
    exact writeBoth_eq _ pipe hlen
  | list pipe => cases hbox

/-- In list mode the buffer is filled, and its last byte is not sent. -/
theorem createRegister_of_list {line : CommandLine} (hbox : line.boxName = none)
    (hlen : buffer.length = line.allocated) :
    ∃ filled, line.createRegister buffer = some filled ∧ filled.length = line.allocated ∧
      filled.take line.sent = line.opcode :: separator ::
        (line.pipeName.cut (pipeNameSize - 1)).padTo (pipeNameSize - 1) := by
  cases line with
  | list pipe =>
    have hcut := pipe.length_cut_le (pipeNameSize - 1)
    have hheader := writeHeader_eq opCodeBoxList pipe hlen.ge
    have hdrop : buffer.drop (pipeNameSize + 2) = [] := List.drop_of_length_le hlen.le
    rw [hdrop, List.append_nil] at hheader
    refine ⟨_, ?_, length_registerHeader opCodeBoxList pipe, ?_⟩
    · simp only [createRegister, Manager.createRegisterIn, hheader, Option.bind_eq_bind,
        Option.bind_some]
      rfl
    · show (registerHeader opCodeBoxList pipe).take (pipeNameSize - 1 + 2) = _
      rw [registerHeader_cut, List.take_succ_cons, List.take_succ_cons,
        CString.take_padTo hcut (Nat.sub_le _ 1)]
      rfl
  | publisher pipe b | subscriber pipe b | create pipe b | remove pipe b => cases hbox

end CommandLine

end MessageBroker.Clients
