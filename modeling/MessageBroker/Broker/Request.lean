import MessageBroker.Broker.Register
import MessageBroker.Clients.Encoding

/-!
# One request in the register FIFO

A client that is alone with the broker: what its `create_register` leaves in the
buffer of the caller, as much of it as the caller writes, and what the opcode read
and `process_entry` make of these bytes. Paths and names that are too long for their
fields arrive cut.
-/

namespace MessageBroker.Broker

open Bytes Clients

/-- The opcode read of `main` and the `process_entry` of the session behind it. -/
def readRequest (frame : Frame) : List UInt8 → Option (Served × List UInt8)
  | [] => none
  | opcode :: fifo => some (processEntry frame opcode (readsBox opcode) fifo)

/-- The broker gets the opcode and the fields of the command line, as far as these fit, each
with its terminator. -/
structure Recovers (line : CommandLine) (served : Served) : Prop where
  opcode : served.opcode = line.opcode
  dispatched : isDispatched served.opcode = true
  path : served.path = line.pipeName.cut (pipeNameSize - 1)
  box : served.box = line.boxName.map (CString.cut (boxNameSize - 1))
  path_terminated : served.path.length < pipeNameSize
  box_terminated : ∀ box, served.box = some box → box.length < boxNameSize

/-- The encoder stays in the buffer that was allocated for it, the `write` behind it reads only
that buffer, and nothing of what it writes is left when the request has been read. -/
def RoundTrips (line : CommandLine) : Prop :=
  ∀ buffer : List UInt8, buffer.length = line.allocated →
    ∃ filled, line.createRegister buffer = some filled ∧ filled.length = line.allocated ∧
      line.sent ≤ line.allocated ∧
      ∀ frame, ∃ served, readRequest frame (filled.take line.sent) = some (served, []) ∧
        served.consumed = filled.take line.sent ∧ Recovers line served

theorem CommandLine.sent_le (line : CommandLine) : line.sent ≤ line.allocated := by
  cases line with
  | list pipe => exact Nat.le_succ _
  | _ => exact le_rfl

theorem CommandLine.isDispatched (line : CommandLine) :
    Broker.isDispatched line.opcode = true := by
  cases line <;> rfl

theorem CommandLine.readsBox (line : CommandLine) :
    Broker.readsBox line.opcode = line.boxName.isSome := by
  cases line <;> rfl

theorem cut_lt {n : Nat} (hn : 0 < n) (s : CString) : (s.cut (n - 1)).length < n :=
  (s.length_cut_le (n - 1)).trans_lt (Nat.sub_lt hn Nat.one_pos)

/-- The request that is read for a command line, from these bytes. -/
def received (line : CommandLine) (consumed : List UInt8) : Served :=
  ⟨line.opcode, line.pipeName.cut (pipeNameSize - 1),
    line.boxName.map (CString.cut (boxNameSize - 1)), consumed⟩

theorem recovers_received (line : CommandLine) (consumed : List UInt8) :
    Recovers line (received line consumed) where
  opcode := rfl
  dispatched := CommandLine.isDispatched line
  path := rfl
  box := rfl
  path_terminated := cut_lt (by decide) _
  box_terminated := by
    intro box hbox
    obtain ⟨name, _, rfl⟩ := Option.map_eq_some_iff.mp hbox
    exact cut_lt (by decide) name

theorem readRequest_of_box {line : CommandLine} {box : CString} (frame : Frame)
    (hbox : line.boxName = some box) :
    readRequest frame (registerHeader line.opcode line.pipeName ++ registerBox box) =
      some (received line (registerHeader line.opcode line.pipeName ++ registerBox box), []) := by
  have hpath := cut_lt (n := pipeNameSize) (by decide) line.pipeName
  have hname := cut_lt (n := boxNameSize) (by decide) box
  have hclient := readField_padTo frame.client separator
    (separator :: (box.cut (boxNameSize - 1)).padTo boxNameSize) hpath (Nat.sub_le _ 1) le_rfl
  have hsecond := readField_padTo frame.box separator [] hname (Nat.sub_le _ 1) le_rfl
  rw [Nat.sub_self, List.take_zero, List.drop_zero, List.append_nil] at hclient hsecond
  have hreads : Broker.readsBox line.opcode = true := by
    rw [CommandLine.readsBox, hbox]
    rfl
  rw [registerHeader_cut, registerBox_cut, List.cons_append, readRequest, hreads]
  simp only [processEntry, if_true, List.cons_append, hclient, hsecond, received, hbox,
    Option.map_some]

/-- In list mode `process_entry` finds one byte less than it asks for, and sets it itself. -/
theorem readRequest_of_list {line : CommandLine} (frame : Frame) (hbox : line.boxName = none) :
    readRequest frame (line.opcode :: separator ::
        (line.pipeName.cut (pipeNameSize - 1)).padTo (pipeNameSize - 1)) =
      some (received line (line.opcode :: separator ::
        (line.pipeName.cut (pipeNameSize - 1)).padTo (pipeNameSize - 1)), []) := by
  have hpath := cut_lt (n := pipeNameSize) (by decide) line.pipeName
  have hclient := readField_padTo frame.client separator [] hpath le_rfl (Nat.sub_le _ 1)
  rw [List.take_nil, List.drop_nil, List.append_nil] at hclient
  have hreads : Broker.readsBox line.opcode = false := by
    rw [CommandLine.readsBox, hbox]
    rfl
  rw [readRequest, hreads]
  simp only [processEntry, Bool.false_eq_true, if_false, hclient, received, hbox, Option.map_none]

/-- Every command line goes through the register FIFO, with its path cut to `255` bytes and its
box name to `31`. -/
theorem commandLine_roundTrips (line : CommandLine) : RoundTrips line := by
  intro buffer hlen
  cases hbox : line.boxName with
  | some box =>
    obtain ⟨filled, hcreate, hfilled, hsent⟩ := line.createRegister_of_box hbox hlen
    refine ⟨filled, hcreate, hfilled, CommandLine.sent_le line, ?_⟩
    intro frame
    rw [hsent]
    exact ⟨_, readRequest_of_box frame hbox, rfl, recovers_received line _⟩
  | none =>
    obtain ⟨filled, hcreate, hfilled, hsent⟩ := line.createRegister_of_list hbox hlen
    refine ⟨filled, hcreate, hfilled, CommandLine.sent_le line, ?_⟩
    intro frame
    rw [hsent]
    exact ⟨_, readRequest_of_list frame hbox, rfl, recovers_received line _⟩

end MessageBroker.Broker
