import MessageBroker.Clients.Register

/-!
# Reading the register FIFO

The broker's side of the register FIFO: `main` reads one opcode byte and hands the
request to a worker, whose `process_entry` reads the rest. The FIFO is a byte
queue to which every client's write has been appended. A request is decoded when
the worker gets its opcode, path and box name from exactly the bytes that the
client wrote. All requests are decoded unless a list request, whose client writes
one byte less than `process_entry` reads, stands before another request.
-/

namespace MessageBroker.Broker

open Bytes Clients

/-- What the buffers of a session hold before `process_entry` reads into them. -/
structure Frame where
  client : Memory
  box : Memory

instance : Inhabited Frame := ⟨⟨fun _ => 0, fun _ => 0⟩⟩

/-- The string that a read leaves in its buffer, the bytes read for it and the bytes left. -/
structure Field where
  text : CString
  consumed : List UInt8
  rest : List UInt8

/-- `process_entry` on one field of `size` bytes: the separator is read away, as many bytes as
there are up to `size` are read into the buffer, and the last byte of the buffer is set to the
terminator. -/
def readField (buffer : Memory) (size : Nat) (fifo : List UInt8) : Field :=
  let aux := fifo.take 1
  let read := (fifo.drop 1).take size
  let buffer := store (store buffer 0 read) (size - 1) [0]
  { text := .ofBuffer (load buffer 0 size)
    consumed := aux ++ read
    rest := (fifo.drop 1).drop size }

/-- A request as a worker sees it, with all bytes that were read for it. -/
structure Served where
  opcode : UInt8
  path : CString
  box : Option CString
  consumed : List UInt8

/-- `process_entry` behind the opcode; the box is read when the caller passes a buffer for it. -/
def processEntry (frame : Frame) (opcode : UInt8) (hasBox : Bool) (fifo : List UInt8) :
    Served × List UInt8 :=
  let client := readField frame.client pipeNameSize fifo
  if hasBox then
    let box := readField frame.box boxNameSize client.rest
    (⟨opcode, client.text, some box.text, opcode :: (client.consumed ++ box.consumed)⟩, box.rest)
  else
    (⟨opcode, client.text, none, opcode :: client.consumed⟩, client.rest)

/-- The opcodes that `main` passes to `function`. -/
def isDispatched (opcode : UInt8) : Bool :=
  opcode == opCodePublisher || opcode == opCodeSubscriber || opcode == opCodeBoxCreate ||
    opcode == opCodeBoxRemove || opcode == opCodeBoxList

/-- Whether the session that `session_worker` starts for an opcode reads a box name:
`list_boxes` passes `NULL`. -/
def readsBox (opcode : UInt8) : Bool :=
  opcode != opCodeBoxList

/-- What becomes of the bytes of the FIFO. -/
inductive Event
  | served (entry : Served)
  | skipped (b : UInt8)

/-- The read loop of `main` until the FIFO is empty; `frames` are the uninitialised buffers of
the sessions in the order of their dispatch. -/
def brokerLoop (frames : Nat → Frame) (session : Nat) : List UInt8 → List Event
  | [] => []
  | opcode :: fifo =>
    if isDispatched opcode then
      let entry := processEntry (frames session) opcode (readsBox opcode) fifo
      .served entry.1 :: brokerLoop frames (session + 1) entry.2
    else
      .skipped opcode :: brokerLoop frames session fifo
termination_by fifo => fifo.length
decreasing_by
  · simp only [processEntry, readField]
    split <;> simp only [List.length_drop, List.length_cons] <;> omega
  · simp

/-- The request with exactly the bytes that its client wrote. -/
def requested (r : Request) : Served :=
  ⟨r.opcode, r.pipe, r.box, r.written⟩

/-- The broker serves exactly these requests, each from its own bytes, and skips nothing. -/
def Decodes (reqs : List Request) : Prop :=
  ∀ frames, brokerLoop frames 0 (reqs.flatMap Request.written) =
    reqs.map fun r => .served (requested r)

variable {frames : Nat → Frame} {session : Nat} {r : Request} {rest : List UInt8}

/-- A field whose padding reaches the last byte of the buffer or the byte before it. -/
theorem readField_padTo {size k : Nat} {s : CString} (buffer : Memory) (sep : UInt8)
    (rest : List UInt8) (hs : s.length < size) (hk : size - 1 ≤ k) (hk' : k ≤ size) :
    readField buffer size (sep :: (s.padTo k ++ rest)) =
      ⟨s, sep :: (s.padTo k ++ rest.take (size - k)), rest.drop (size - k)⟩ := by
  have hlen : (s.padTo k).length = k := CString.length_padTo (by omega)
  have hread : (s.padTo k ++ rest).take size = s.padTo k ++ rest.take (size - k) := by
    rw [List.take_append, hlen, List.take_of_length_le (by omega)]
  have hrest : (s.padTo k ++ rest).drop size = rest.drop (size - k) := by
    rw [List.drop_append, hlen, List.drop_of_length_le (by omega), List.nil_append]
  have htext : CString.ofBuffer (load (store (store buffer 0
      (s.padTo k ++ rest.take (size - k))) (size - 1) [0]) 0 size) = s := by
    refine ofBuffer_terminated hs ((List.prefix_append _ _).trans (List.prefix_append _ _)) ?_
    intro hlt
    rw [List.getElem?_append_left (by omega)]
    exact CString.getElem?_padTo_length (by omega)
  simp only [readField, List.take_succ_cons, List.take_zero, List.drop_succ_cons, List.drop_zero,
    hread, hrest, htext, List.cons_append, List.nil_append]

theorem isDispatched_opcode (r : Request) : isDispatched r.opcode = true := by
  cases r <;> rfl

theorem readsBox_opcode_of_box (h : ¬ r.IsList) : readsBox r.opcode = true := by
  cases r with
  | boxList pipe => exact absurd trivial h
  | _ => rfl

theorem written_ne_nil (r : Request) : r.written ≠ [] := by
  by_cases h : r.IsList
  · obtain ⟨pipe, _, _, hw⟩ := Request.written_of_list h
    simp [hw]
  · obtain ⟨pipe, box, _, _, hw⟩ := Request.written_of_box h
    simp [hw]

/-- A request with a box is served from its own bytes, whatever follows it. -/
theorem brokerLoop_of_box (h : ¬ r.IsList) :
    brokerLoop frames session (r.written ++ rest) =
      .served (requested r) :: brokerLoop frames (session + 1) rest := by
  obtain ⟨pipe, box, hpipe, hbox, hw⟩ := Request.written_of_box h
  have hclient := readField_padTo (frames session).client separator
    (separator :: (box.name.padTo boxNameSize ++ rest)) pipe.fits (Nat.sub_le _ 1) le_rfl
  have hname := readField_padTo (frames session).box separator rest box.fits (Nat.sub_le _ 1) le_rfl
  rw [Nat.sub_self, List.take_zero, List.drop_zero, List.append_nil] at hclient hname
  have hfifo : r.written ++ rest = r.opcode :: separator :: (pipe.name.padTo pipeNameSize ++
      separator :: (box.name.padTo boxNameSize ++ rest)) := by
    simp [hw]
  rw [hfifo, brokerLoop, if_pos (isDispatched_opcode r), readsBox_opcode_of_box h]
  simp only [processEntry, if_true, hclient, hname, requested, hpipe, hbox, hw,
    List.cons_append]

/-- A list request is served, but takes the first byte behind it along. -/
theorem brokerLoop_of_list (h : r.IsList) :
    brokerLoop frames session (r.written ++ rest) =
      .served { requested r with consumed := r.written ++ rest.take 1 } ::
        brokerLoop frames (session + 1) (rest.drop 1) := by
  obtain ⟨pipe, hpipe, hbox, hw⟩ := Request.written_of_list h
  have hop : r.opcode = opCodeBoxList := by
    cases r with
    | boxList => rfl
    | _ => exact absurd h id
  have hclient := readField_padTo (frames session).client separator rest pipe.fits le_rfl
    (Nat.sub_le _ 1)
  have hone : pipeNameSize - (pipeNameSize - 1) = 1 := rfl
  rw [hone] at hclient
  rw [hw, List.cons_append, List.cons_append, brokerLoop, if_pos (by decide)]
  simp only [processEntry, show readsBox opCodeBoxList = false from rfl, Bool.false_eq_true,
    if_false, hclient, requested, hpipe, hbox, hop]
  rfl

/-- From any session on, the requests are decoded just if no list request stands before
another one. -/
theorem brokerLoop_flatMap_iff (frames : Nat → Frame) (session : Nat) (reqs : List Request) :
    brokerLoop frames session (reqs.flatMap Request.written) =
        reqs.map (fun r => .served (requested r)) ↔
      ∀ r ∈ reqs.dropLast, ¬ r.IsList := by
  induction reqs generalizing session with
  | nil => simp [brokerLoop]
  | cons r reqs ih =>
    rw [List.flatMap_cons, List.map_cons]
    by_cases hlist : r.IsList
    · rw [brokerLoop_of_list hlist]
      cases reqs with
      | nil => simp [brokerLoop, requested]
      | cons r' reqs =>
        -- the byte taken along is the opcode of the next request
        obtain ⟨op, body, hw⟩ := List.exists_cons_of_ne_nil (written_ne_nil r')
        refine iff_of_false ?_ ?_
        · intro heq
          rw [List.flatMap_cons, hw] at heq
          simp [requested] at heq
        · intro hall
          exact hall r (by simp) hlist
    · rw [brokerLoop_of_box hlist]
      cases reqs with
      | nil => simp [brokerLoop]
      | cons r' reqs =>
        rw [List.dropLast_cons_cons, List.forall_mem_cons, ← ih (session + 1)]
        constructor
        · intro heq
          exact ⟨hlist, (List.cons.inj heq).2⟩
        · intro hall
          exact congrArg _ hall.2

/-- The broker decodes a queue of requests just if no list request stands before another
request. -/
theorem decodes_iff (reqs : List Request) :
    Decodes reqs ↔ ∀ r ∈ reqs.dropLast, ¬ r.IsList := by
  constructor
  · intro h
    exact (brokerLoop_flatMap_iff default 0 reqs).mp (h default)
  · intro h frames
    exact (brokerLoop_flatMap_iff frames 0 reqs).mpr h

/-- The list of boxes asked for with the pipe `/l`, then a publisher with the pipe `/p` on the
box `/b`. -/
def listThenPublisher : List Request :=
  [.boxList ⟨.ofBuffer [47, 108], by decide⟩,
    .publisher ⟨.ofBuffer [47, 112], by decide⟩ ⟨.ofBuffer [47, 98], by decide⟩]

theorem listThenPublisher_not_decoded : ¬ Decodes listThenPublisher := by
  intro h
  have hlast := (brokerLoop_flatMap_iff default 0 listThenPublisher).mp (h default)
  exact hlast _ List.mem_cons_self trivial

end MessageBroker.Broker
