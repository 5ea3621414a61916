import MessageBroker.Broker.Register
import MessageBroker.ProducerConsumer.Queue

/-!
# Handing requests over to workers

The main thread and the workers at the granularity of their calls. `main` reads an
opcode, `function` chooses a worker by its flag, queues it, and passes it the opcode
and the lock of the register FIFO, which the worker releases at the end of
`process_entry`. A request is in the hands of `main` or of one worker at each moment,
its `RequestStage`, and the invariant says what the stage means for the locks, the flags, the
queue and the bytes in the FIFO.
-/

namespace MessageBroker.Broker

open Transition ProducerConsumer

/-! ### The threads -/

/-- The sizes of the reads of `process_entry` for the session of an opcode. -/
def entryReads (opcode : UInt8) : List Nat :=
  if readsBox opcode then [1, pipeNameSize, 1, boxNameSize] else [1, pipeNameSize]

/-- A request with an opcode that `main` dispatches and the bytes that `process_entry` reads. -/
structure WireRequest where
  opcode : UInt8
  entry : List UInt8
  dispatched : isDispatched opcode = true
  length : entry.length = (entryReads opcode).sum

def WireRequest.bytes (r : WireRequest) : List UInt8 := r.opcode :: r.entry

/-- The reads of `process_entry` take as many bytes as the field reads of the whole function. -/
theorem processEntry_rest (frame : Frame) (opcode : UInt8) (fifo : List UInt8) :
    (processEntry frame opcode (readsBox opcode) fifo).2 = fifo.drop (entryReads opcode).sum := by
  cases h : readsBox opcode with
  | true => simp [processEntry, readField, entryReads, h, add_comm, add_left_comm]
  | false => simp [processEntry, readField, entryReads, h, add_comm]

/-- Requests with a box are written as `process_entry` reads them. -/
theorem exists_wireRequest {r : Clients.Request} (h : ¬ r.IsList) :
    ∃ wire : WireRequest, wire.opcode = r.opcode ∧ wire.bytes = r.written := by
  obtain ⟨pipe, box, _, _, hw⟩ := Clients.Request.written_of_box h
  refine ⟨⟨r.opcode, Clients.separator :: pipe.name.padTo pipeNameSize ++
    Clients.separator :: box.name.padTo boxNameSize, isDispatched_opcode r, ?_⟩, rfl, hw.symm⟩
  rw [entryReads, if_pos (readsBox_opcode_of_box h), List.length_append, List.length_cons,
    List.length_cons, CString.length_padTo pipe.fits.le, CString.length_padTo box.fits.le]
  rfl

inductive LockOwner
  | main
  | worker
deriving DecidableEq

/-- Where a worker stands in `session_worker`. -/
inductive WorkerPc
  | lock
  | test
  | waiting
  | woken
  | dequeue
  | switch
  /-- In `process_entry`, with the sizes of the reads that are left. -/
  | entry (reads : List Nat)
  /-- In the session behind `process_entry`. -/
  | session
  | clear
  | unlock
deriving DecidableEq

/-- `worker_t`, with the owner of its lock and the place of its thread. -/
structure Worker where
  pc : WorkerPc
  opcode : UInt8
  toExecute : Bool
  lock : Option LockOwner

/-- `pthread_cond_signal` on the condition of a worker. -/
def Worker.signalled (x : Worker) : Worker :=
  { x with pc := if x.pc = .waiting then .woken else x.pc }

/-- Where the main thread stands in `main` or in `function`. -/
inductive MainPc
  /-- At the read behind the `open`, which is made without the lock. -/
  | readFirst
  | scan (opcode : UInt8) (i : Nat)
  | enqueue (opcode : UInt8) (i : Nat)
  | lockWorker (opcode : UInt8) (i : Nat)
  | setOpcode (opcode : UInt8) (i : Nat)
  | lockPipe (opcode : UInt8) (i : Nat)
  | setExecute (opcode : UInt8) (i : Nat)
  | signal (opcode : UInt8) (i : Nat)
  | unlockWorker (opcode : UInt8) (i : Nat)
  | relock
  | readNext
  /-- At the unlock behind the read; `none` is the end of the FIFO. -/
  | unlockPipe (opcode : Option UInt8)
deriving DecidableEq

/-- The threads with what they share. The requests written to the FIFO, the opcodes read by
`main`, the workers queued and the sessions started are recorded. -/
structure Dispatch where
  maxSessions : Nat
  main : MainPc
  pipeLock : Bool
  queue : Pcq Nat
  workers : Nat → Worker
  fifo : List UInt8
  written : List WireRequest
  opcodes : List UInt8
  dispatched : List (Nat × UInt8)
  executed : List (Nat × UInt8)

def Dispatch.initial (maxSessions : Nat) : Dispatch :=
  { maxSessions := maxSessions, main := .readFirst, pipeLock := false
    queue := pcqCreate (.ofNat maxSessions)
    workers := fun _ => { pc := .lock, opcode := 0, toExecute := false, lock := none }
    fifo := [], written := [], opcodes := [], dispatched := [], executed := [] }

inductive DispatchLabel
  /-- A client writes a request. -/
  | write (r : WireRequest)
  | main
  /-- A read of `main` finds the FIFO empty and without writers. -/
  | endOfFile
  | worker (w : Nat)
  /-- A worker wakes up without a signal. -/
  | wake (w : Nat)

namespace Dispatch

def setWorker (s : Dispatch) (w : Nat) (x : Worker) : Dispatch :=
  { s with workers := Function.update s.workers w x }

/-- The `switch` of `main` on an opcode. -/
def afterOpcode (opcode : UInt8) : MainPc :=
  if isDispatched opcode then .scan opcode 0 else .relock

def mainStep (s : Dispatch) : Option Dispatch :=
  match s.main with
  | .readFirst =>
    match s.fifo with
    | c :: rest => some { s with main := afterOpcode c, fifo := rest, opcodes := s.opcodes ++ [c] }
    | [] => none
  | .scan opcode i =>
    -- without a free worker `function` goes on with index `-1`
    if i < s.maxSessions then
      some { s with
        main := if (s.workers i).toExecute then .scan opcode (i + 1) else .enqueue opcode i }
    else none
  | .enqueue opcode i =>
    if s.queue.currentSize ≠ s.queue.capacity then
      some { s with
        main := .lockWorker opcode i
        queue := s.queue.enqueueLocked i
        dispatched := s.dispatched ++ [(i, opcode)] }
    else none
  | .lockWorker opcode i =>
    if (s.workers i).lock = none then
      some ({ s with main := .setOpcode opcode i }.setWorker i
        { s.workers i with lock := some .main })
    else none
  | .setOpcode opcode i =>
    some ({ s with main := .lockPipe opcode i }.setWorker i { s.workers i with opcode := opcode })
  | .lockPipe opcode i =>
    if s.pipeLock then none else some { s with main := .setExecute opcode i, pipeLock := true }
  | .setExecute opcode i =>
    some ({ s with main := .signal opcode i }.setWorker i { s.workers i with toExecute := true })
  | .signal opcode i =>
    some ({ s with main := .unlockWorker opcode i }.setWorker i (s.workers i).signalled)
  | .unlockWorker _ i =>
    some ({ s with main := .relock }.setWorker i { s.workers i with lock := none })
  | .relock => if s.pipeLock then none else some { s with main := .readNext, pipeLock := true }
  | .readNext =>
    match s.fifo with
    | c :: rest =>
      some { s with main := .unlockPipe (some c), fifo := rest, opcodes := s.opcodes ++ [c] }
    | [] => none
  | .unlockPipe opcode =>
    -- at the end of the FIFO the pipe is closed and opened again
    some { s with main := (opcode.map afterOpcode).getD .readFirst, pipeLock := false }

def workerStep (s : Dispatch) (w : Nat) : Option Dispatch :=
  let x := s.workers w
  match x.pc with
  | .lock | .woken =>
    if x.lock = none then some (s.setWorker w { x with pc := .test, lock := some .worker })
    else none
  | .test =>
    if x.toExecute then some (s.setWorker w { x with pc := .dequeue })
    else some (s.setWorker w { x with pc := .waiting, lock := none })
  | .waiting => none
  | .dequeue =>
    if s.queue.currentSize ≠ 0 then
      some ({ s with queue := s.queue.dequeueLocked }.setWorker w { x with pc := .switch })
    else none
  | .switch =>
    some ({ s with executed := s.executed ++ [(w, x.opcode)] }.setWorker w { x with
      pc := if isDispatched x.opcode then .entry (entryReads x.opcode) else .clear })
  | .entry (n :: reads) =>
    if s.fifo ≠ [] then
      some ({ s with fifo := s.fifo.drop n }.setWorker w { x with pc := .entry reads })
    else none
  | .entry [] => some ({ s with pipeLock := false }.setWorker w { x with pc := .session })
  | .session => some (s.setWorker w { x with pc := .clear })
  | .clear => some (s.setWorker w { x with pc := .unlock, toExecute := false })
  | .unlock => some (s.setWorker w { x with pc := .lock, lock := none })

def step (s : Dispatch) : DispatchLabel → Option Dispatch
  | .write r => some { s with fifo := s.fifo ++ r.bytes, written := s.written ++ [r] }
  | .main => s.mainStep
  | .endOfFile =>
    if s.fifo = [] then
      match s.main with
      | .readFirst => some s
      | .readNext => some { s with main := .unlockPipe none }
      | _ => none
    else none
  | .worker w => if w < s.maxSessions then s.workerStep w else none
  | .wake w =>
    if w < s.maxSessions ∧ (s.workers w).pc = .waiting then
      some (s.setWorker w { s.workers w with pc := .woken })
    else none

/-- A thread is at a read of the register FIFO: the main thread, or a worker. -/
def Reading (s : Dispatch) : Option Nat → Prop
  | none => s.main = .readFirst ∨ s.main = .readNext
  | some w => ∃ n reads, (s.workers w).pc = .entry (n :: reads)

/-- What a step of the main thread is, by its place. -/
inductive MainOutcome (s : Dispatch) : Dispatch → Prop
  | readFirst (c : UInt8) (rest : List UInt8) :
      s.main = .readFirst → s.fifo = c :: rest →
      MainOutcome s { s with main := afterOpcode c, fifo := rest, opcodes := s.opcodes ++ [c] }
  | scan (opcode : UInt8) (i : Nat) :
      s.main = .scan opcode i → i < s.maxSessions →
      MainOutcome s { s with
        main := if (s.workers i).toExecute then .scan opcode (i + 1) else .enqueue opcode i }
  | enqueue (opcode : UInt8) (i : Nat) :
      s.main = .enqueue opcode i → s.queue.currentSize ≠ s.queue.capacity →
      MainOutcome s { s with
        main := .lockWorker opcode i
        queue := s.queue.enqueueLocked i
        dispatched := s.dispatched ++ [(i, opcode)] }
  | lockWorker (opcode : UInt8) (i : Nat) :
      s.main = .lockWorker opcode i → (s.workers i).lock = none →
      MainOutcome s ({ s with main := .setOpcode opcode i }.setWorker i
        { s.workers i with lock := some .main })
  | setOpcode (opcode : UInt8) (i : Nat) :
      s.main = .setOpcode opcode i →
      MainOutcome s ({ s with main := .lockPipe opcode i }.setWorker i
        { s.workers i with opcode := opcode })
  | lockPipe (opcode : UInt8) (i : Nat) :
      s.main = .lockPipe opcode i → s.pipeLock = false →
      MainOutcome s { s with main := .setExecute opcode i, pipeLock := true }
  | setExecute (opcode : UInt8) (i : Nat) :
      s.main = .setExecute opcode i →
      MainOutcome s ({ s with main := .signal opcode i }.setWorker i
        { s.workers i with toExecute := true })
  | signal (opcode : UInt8) (i : Nat) :
      s.main = .signal opcode i →
      MainOutcome s ({ s with main := .unlockWorker opcode i }.setWorker i (s.workers i).signalled)
  | unlockWorker (opcode : UInt8) (i : Nat) :
      s.main = .unlockWorker opcode i →
      MainOutcome s ({ s with main := .relock }.setWorker i { s.workers i with lock := none })
  | relock :
      s.main = .relock → s.pipeLock = false →
      MainOutcome s { s with main := .readNext, pipeLock := true }
  | readNext (c : UInt8) (rest : List UInt8) :
      s.main = .readNext → s.fifo = c :: rest →
      MainOutcome s { s with
        main := .unlockPipe (some c), fifo := rest, opcodes := s.opcodes ++ [c] }
  | unlockPipe (read : Option UInt8) :
      s.main = .unlockPipe read →
      MainOutcome s { s with main := (read.map afterOpcode).getD .readFirst, pipeLock := false }

/-- What a step of worker `w` is, by its place. -/
inductive WorkerOutcome (s : Dispatch) (w : Nat) : Dispatch → Prop
  | lock :
      (s.workers w).pc = .lock ∨ (s.workers w).pc = .woken → (s.workers w).lock = none →
      WorkerOutcome s w (s.setWorker w { s.workers w with pc := .test, lock := some .worker })
  | testSet :
      (s.workers w).pc = .test → (s.workers w).toExecute = true →
      WorkerOutcome s w (s.setWorker w { s.workers w with pc := .dequeue })
  | testClear :
      (s.workers w).pc = .test → (s.workers w).toExecute = false →
      WorkerOutcome s w (s.setWorker w { s.workers w with pc := .waiting, lock := none })
  | dequeue :
      (s.workers w).pc = .dequeue → s.queue.currentSize ≠ 0 →
      WorkerOutcome s w ({ s with queue := s.queue.dequeueLocked }.setWorker w
        { s.workers w with pc := .switch })
  | switch :
      (s.workers w).pc = .switch →
      WorkerOutcome s w
        ({ s with executed := s.executed ++ [(w, (s.workers w).opcode)] }.setWorker w
          { s.workers w with
            pc := if isDispatched (s.workers w).opcode then .entry (entryReads (s.workers w).opcode)
              else .clear })
  | readEntry (n : Nat) (reads : List Nat) :
      (s.workers w).pc = .entry (n :: reads) → s.fifo ≠ [] →
      WorkerOutcome s w ({ s with fifo := s.fifo.drop n }.setWorker w
        { s.workers w with pc := .entry reads })
  | release :
      (s.workers w).pc = .entry [] →
      WorkerOutcome s w ({ s with pipeLock := false }.setWorker w
        { s.workers w with pc := .session })
  | session :
      (s.workers w).pc = .session →
      WorkerOutcome s w (s.setWorker w { s.workers w with pc := .clear })
  | clear :
      (s.workers w).pc = .clear →
      WorkerOutcome s w (s.setWorker w { s.workers w with pc := .unlock, toExecute := false })
  | unlock :
      (s.workers w).pc = .unlock →
      WorkerOutcome s w (s.setWorker w { s.workers w with pc := .lock, lock := none })

section Outcome

variable {s s' : Dispatch} {w : Nat}

theorem outcome_of_mainStep (hs : s.mainStep = some s') : MainOutcome s s' := by
  rw [mainStep] at hs
  cases hm : s.main with
  | readFirst =>
    rw [hm] at hs
    cases hc : s.fifo with
    | nil =>
      rw [hc] at hs
      cases hs
    | cons c rest =>
      rw [hc] at hs
      cases hs
      exact .readFirst c rest hm hc
  | scan opcode i =>
    rw [hm] at hs
    obtain ⟨hi, ⟨⟩⟩ := Option.ite_none_right_eq_some.mp hs
    exact .scan opcode i hm hi
  | enqueue opcode i =>
    rw [hm] at hs
    obtain ⟨hroom, ⟨⟩⟩ := Option.ite_none_right_eq_some.mp hs
    exact .enqueue opcode i hm hroom
  | lockWorker opcode i =>
    rw [hm] at hs
    obtain ⟨hfree, ⟨⟩⟩ := Option.ite_none_right_eq_some.mp hs
    exact .lockWorker opcode i hm hfree
  | setOpcode opcode i =>
    rw [hm] at hs
    cases hs
    exact .setOpcode opcode i hm
  | lockPipe opcode i =>
    rw [hm] at hs
    obtain ⟨hlock, ⟨⟩⟩ := Option.ite_none_left_eq_some.mp hs
    exact .lockPipe opcode i hm (Bool.not_eq_true _ ▸ hlock)
  | setExecute opcode i =>
    rw [hm] at hs
    cases hs
    exact .setExecute opcode i hm
  | signal opcode i =>
    rw [hm] at hs
    cases hs
    exact .signal opcode i hm
  | unlockWorker opcode i =>
    rw [hm] at hs
    cases hs
    exact .unlockWorker opcode i hm
  | relock =>
    rw [hm] at hs
    obtain ⟨hlock, ⟨⟩⟩ := Option.ite_none_left_eq_some.mp hs
    exact .relock hm (Bool.not_eq_true _ ▸ hlock)
  | readNext =>
    rw [hm] at hs
    cases hc : s.fifo with
    | nil =>
      rw [hc] at hs
      cases hs
    | cons c rest =>
      rw [hc] at hs
      cases hs
      exact .readNext c rest hm hc
  | unlockPipe read =>
    rw [hm] at hs
    cases hs
    exact .unlockPipe read hm

theorem outcome_of_workerStep (hs : s.workerStep w = some s') : WorkerOutcome s w s' := by
  rw [workerStep] at hs
  cases hpc : (s.workers w).pc with
  | lock =>
    simp only [hpc] at hs
    obtain ⟨hfree, ⟨⟩⟩ := Option.ite_none_right_eq_some.mp hs
    exact .lock (Or.inl hpc) hfree
  | woken =>
    simp only [hpc] at hs
    obtain ⟨hfree, ⟨⟩⟩ := Option.ite_none_right_eq_some.mp hs
    exact .lock (Or.inr hpc) hfree
  | test =>
    simp only [hpc] at hs
    cases hflag : (s.workers w).toExecute with
    | true =>
      rw [if_pos hflag] at hs
      cases hs
      exact .testSet hpc hflag
    | false =>
      rw [if_neg (Bool.eq_false_iff.mp hflag)] at hs
      cases hs
      exact .testClear hpc hflag
  | waiting =>
    simp only [hpc] at hs
    cases hs
  | dequeue =>
    simp only [hpc] at hs
    obtain ⟨hne, ⟨⟩⟩ := Option.ite_none_right_eq_some.mp hs
    exact .dequeue hpc hne
  | switch =>
    simp only [hpc] at hs
    cases hs
    exact .switch hpc
  | entry reads =>
    cases reads with
    | nil =>
      simp only [hpc] at hs
      cases hs
      exact .release hpc
    | cons n reads =>
      simp only [hpc] at hs
      obtain ⟨hfifo, ⟨⟩⟩ := Option.ite_none_right_eq_some.mp hs
      exact .readEntry n reads hpc hfifo
  | session =>
    simp only [hpc] at hs
    cases hs
    exact .session hpc
  | clear =>
    simp only [hpc] at hs
    cases hs
    exact .clear hpc
  | unlock =>
    simp only [hpc] at hs
    cases hs
    exact .unlock hpc

end Outcome

end Dispatch

/-! ### The stages of a request -/

/-- Where the request that was read last is. -/
inductive RequestStage
  /-- Its worker has read all of it, or there is none. -/
  | done
  /-- `main` has read its opcode. -/
  | opcodeRead (opcode : UInt8)
  /-- `main` has queued a worker for it. -/
  | queued (opcode : UInt8) (w : Nat)
  /-- The flag of the worker is set. -/
  | flagged (opcode : UInt8) (w : Nat)
  /-- The worker has taken an element off the queue. -/
  | dequeued (opcode : UInt8) (w : Nat)
  /-- The worker is in `process_entry`. -/
  | entered (w : Nat) (reads : List Nat)

namespace RequestStage

/-- The worker that `main` has passed the request to. -/
def owner : RequestStage → Option Nat
  | flagged _ w | dequeued _ w | entered w _ => some w
  | done | opcodeRead _ | queued .. => none

/-- The elements in the queue. -/
def size : RequestStage → Nat
  | queued .. | flagged .. => 1
  | _ => 0

/-- The bytes of the request that are still in the FIFO. -/
def bytesLeft : RequestStage → Nat
  | done => 0
  | opcodeRead opcode | queued opcode _ | flagged opcode _ | dequeued opcode _ =>
    (entryReads opcode).sum
  | entered _ reads => reads.sum

/-- The opcode of a request without a worker. -/
def unassigned : RequestStage → List UInt8
  | opcodeRead opcode => [opcode]
  | _ => []

/-- A request with a worker that has not started its session. -/
def pending : RequestStage → List (Nat × UInt8)
  | queued opcode w | flagged opcode w | dequeued opcode w => [(w, opcode)]
  | done | opcodeRead _ | entered .. => []

/-- Where the main thread is at a stage. -/
inductive At : RequestStage → MainPc → Prop
  | readFirst : At done .readFirst
  | readNext : At done .readNext
  | endOfFile : At done (.unlockPipe none)
  | relockDone : At done .relock
  | unlockPipe (opcode : UInt8) : At (opcodeRead opcode) (.unlockPipe (some opcode))
  | scan (opcode : UInt8) (i : Nat) : At (opcodeRead opcode) (.scan opcode i)
  | enqueue (opcode : UInt8) (i : Nat) : At (opcodeRead opcode) (.enqueue opcode i)
  | lockWorker (opcode : UInt8) (w : Nat) : At (queued opcode w) (.lockWorker opcode w)
  | setOpcode (opcode : UInt8) (w : Nat) : At (queued opcode w) (.setOpcode opcode w)
  | lockPipe (opcode : UInt8) (w : Nat) : At (queued opcode w) (.lockPipe opcode w)
  | setExecute (opcode : UInt8) (w : Nat) : At (queued opcode w) (.setExecute opcode w)
  | signal (opcode : UInt8) (w : Nat) : At (flagged opcode w) (.signal opcode w)
  | unlockWorker (opcode : UInt8) (w : Nat) : At (flagged opcode w) (.unlockWorker opcode w)
  | relockFlagged (opcode : UInt8) (w : Nat) : At (flagged opcode w) .relock
  | relockDequeued (opcode : UInt8) (w : Nat) : At (dequeued opcode w) .relock
  | relockEntered (w : Nat) (reads : List Nat) : At (entered w reads) .relock

/-- Where the owner is at a stage. -/
inductive OwnerAt : RequestStage → WorkerPc → Prop
  | lock (opcode : UInt8) (w : Nat) : OwnerAt (flagged opcode w) .lock
  | test (opcode : UInt8) (w : Nat) : OwnerAt (flagged opcode w) .test
  | waiting (opcode : UInt8) (w : Nat) : OwnerAt (flagged opcode w) .waiting
  | woken (opcode : UInt8) (w : Nat) : OwnerAt (flagged opcode w) .woken
  | dequeue (opcode : UInt8) (w : Nat) : OwnerAt (flagged opcode w) .dequeue
  | switch (opcode : UInt8) (w : Nat) : OwnerAt (dequeued opcode w) .switch
  | entry (w : Nat) (reads : List Nat) : OwnerAt (entered w reads) (.entry reads)

/-- The opcode that the owner has to find in its `worker_t`. -/
def passed : RequestStage → Option UInt8
  | flagged opcode _ | dequeued opcode _ => some opcode
  | _ => none

end RequestStage

/-- The main thread holds the lock of the register FIFO for itself. -/
def MainPc.HoldsPipe : MainPc → Bool
  | setExecute .. | readNext | unlockPipe _ => true
  | _ => false

/-- The worker whose lock the main thread holds. -/
def MainPc.holds : MainPc → Option Nat
  | setOpcode _ w | lockPipe _ w | setExecute _ w | signal _ w | unlockWorker _ w => some w
  | _ => none

/-- The worker that `function` is dealing with. -/
def MainPc.worker : MainPc → Option Nat
  | enqueue _ w | lockWorker _ w | setOpcode _ w | lockPipe _ w | setExecute _ w | signal _ w
  | unlockWorker _ w => some w
  | _ => none

/-- The worker that the main thread has chosen and not flagged yet. -/
def MainPc.chosen : MainPc → Option Nat
  | enqueue _ w | lockWorker _ w | setOpcode _ w | lockPipe _ w | setExecute _ w => some w
  | _ => none

/-- The worker holds its own lock. -/
def WorkerPc.HoldsLock : WorkerPc → Prop
  | lock | waiting | woken => False
  | _ => True

/-- The worker has seen its flag. -/
def WorkerPc.Executing : WorkerPc → Prop
  | dequeue | switch | entry _ | session | clear => True
  | _ => False

/-- The worker has not come to the end of `process_entry`. -/
def WorkerPc.BeforeSession : WorkerPc → Prop
  | session | clear | unlock => False
  | _ => True

/-- The worker has a request and has not released the lock of the register FIFO. -/
def Worker.Owns (x : Worker) : Prop := x.toExecute = true ∧ x.pc.BeforeSession

/-- What the place of the main thread and the stage of the request say about worker `w`. -/
structure Placed (n : Nat) (m : MainPc) (g : RequestStage) (w : Nat) (x : Worker) : Prop where
  lockWorker : x.lock = some .worker ↔ x.pc.HoldsLock
  lockMain : x.lock = some .main ↔ m.holds = some w
  executing : x.pc.Executing → x.toExecute = true
  cleared : x.pc = .unlock → x.toExecute = false
  owner : x.Owns ↔ g.owner = some w
  ownerAt : g.owner = some w → w < n ∧ g.OwnerAt x.pc
  passed : g.owner = some w → ∀ opcode, g.passed = some opcode → x.opcode = opcode
  /-- No signal is lost. -/
  signalled : g.owner = some w → x.pc = .waiting → ∃ opcode, m = .signal opcode w
  chosen : m.chosen = some w → w < n ∧ x.toExecute = false
  opcode : ∀ opcode, m = .lockPipe opcode w ∨ m = .setExecute opcode w → x.opcode = opcode

/-- The bytes in the FIFO are the rest of the request and the requests behind it. -/
structure Journal (s : Dispatch) (g : RequestStage) : Prop where
  fifo : ∃ entry : List UInt8, entry.length = g.bytesLeft ∧
    s.fifo = entry ++ (s.written.drop s.opcodes.length).flatMap WireRequest.bytes
  read : s.opcodes <+: s.written.map WireRequest.opcode
  dispatched : s.opcodes = s.dispatched.map Prod.snd ++ g.unassigned
  executed : s.dispatched = s.executed ++ g.pending

structure Inv (s : Dispatch) (g : RequestStage) : Prop where
  main : g.At s.main
  pipeLock : s.pipeLock = (g.owner.isSome || s.main.HoldsPipe)
  capacity : s.queue.capacity = s.maxSessions
  size : s.queue.currentSize = g.size
  placed : ∀ w, Placed s.maxSessions s.main g w (s.workers w)
  scan : ∀ opcode i, s.main = .scan opcode i → 0 < i →
    ∃ j, i ≤ j ∧ j < s.maxSessions ∧ (s.workers j).toExecute = false
  journal : Journal s g

/-! ### The bytes -/

section Journal

variable {s : Dispatch} {g g' : RequestStage}

theorem Journal.write (h : Journal s g) (r : WireRequest) :
    Journal { s with fifo := s.fifo ++ r.bytes, written := s.written ++ [r] } g := by
  obtain ⟨entry, hlen, hfifo⟩ := h.fifo
  have hle : s.opcodes.length ≤ s.written.length := by
    simpa using h.read.length_le
  refine ⟨⟨entry, hlen, ?_⟩, ?_, h.dispatched, h.executed⟩
  · show s.fifo ++ r.bytes = entry ++ ((s.written ++ [r]).drop _).flatMap _
    rw [List.drop_append_of_le_length hle, List.flatMap_append, ← List.append_assoc, ← hfifo]
    simp
  · show s.opcodes <+: (s.written ++ [r]).map _
    rw [List.map_append]
    exact h.read.trans (List.prefix_append _ _)

/-- A step that does not touch the FIFO or the records. -/
theorem Journal.keep {s' : Dispatch} (h : Journal s g) (hfifo : s'.fifo = s.fifo)
    (hwritten : s'.written = s.written) (hopcodes : s'.opcodes = s.opcodes)
    (hdispatched : s'.dispatched = s.dispatched) (hexecuted : s'.executed = s.executed)
    (hbytes : g'.bytesLeft = g.bytesLeft) (hunassigned : g'.unassigned = g.unassigned)
    (hpending : g'.pending = g.pending) : Journal s' g' := by
  refine ⟨?_, ?_, ?_, ?_⟩
  · rw [hfifo, hwritten, hopcodes, hbytes]
    exact h.fifo
  · rw [hwritten, hopcodes]
    exact h.read
  · rw [hopcodes, hdispatched, hunassigned]
    exact h.dispatched
  · rw [hdispatched, hexecuted, hpending]
    exact h.executed

/-- Every opcode that was read is that of a request. -/
theorem Journal.isDispatched_of_mem {opcode : UInt8} (h : Journal s g) (hmem : opcode ∈ s.opcodes) :
    isDispatched opcode = true := by
  obtain ⟨r, _, rfl⟩ := List.mem_map.mp (h.read.subset hmem)
  exact r.dispatched

/-- With no request on its way the next byte is the opcode of the next request. -/
theorem Journal.readOpcode {s' : Dispatch} {c : UInt8} {rest : List UInt8} (h : Journal s .done)
    (hc : s.fifo = c :: rest) (hfifo : s'.fifo = rest) (hwritten : s'.written = s.written)
    (hopcodes : s'.opcodes = s.opcodes ++ [c]) (hdispatched : s'.dispatched = s.dispatched)
    (hexecuted : s'.executed = s.executed) :
    isDispatched c = true ∧ Journal s' (.opcodeRead c) := by
  obtain ⟨entry, hlen, hs⟩ := h.fifo
  rw [List.eq_nil_of_length_eq_zero hlen, List.nil_append, hc] at hs
  cases hdrop : s.written.drop s.opcodes.length with
  | nil =>
    rw [hdrop] at hs
    cases hs
  | cons r later =>
    rw [hdrop, List.flatMap_cons] at hs
    obtain ⟨hcr, hrest⟩ := List.cons.inj hs
    have hdrop' : s.written.drop (s.opcodes.length + 1) = later := by
      rw [← List.drop_drop, hdrop]
      rfl
    refine ⟨hcr ▸ r.dispatched, ⟨r.entry, ?_, ?_⟩, ?_, ?_, ?_⟩
    · rw [r.length, ← hcr]
      rfl
    · rw [hfifo, hwritten, hopcodes, List.length_append, List.length_singleton, hdrop']
      exact hrest
    · rw [hopcodes, hwritten]
      have hsplit : s.written = s.written.take s.opcodes.length ++ r :: later := by
        rw [← hdrop, List.take_append_drop]
      have htake : (s.written.take s.opcodes.length).map WireRequest.opcode = s.opcodes := by
        rw [List.map_take]
        exact (List.prefix_iff_eq_take.mp h.read).symm
      rw [hsplit, List.map_append, htake, List.map_cons, ← hcr]
      exact List.prefix_append_right_inj _ |>.mpr (by simp)
    · rw [hopcodes, hdispatched, h.dispatched]
      simp [RequestStage.unassigned]
    · rw [hdispatched, hexecuted, h.executed]
      rfl

/-- The chosen worker is recorded. -/
theorem Journal.queue {s' : Dispatch} {opcode : UInt8} (h : Journal s (.opcodeRead opcode))
    (w : Nat)
    (hfifo : s'.fifo = s.fifo) (hwritten : s'.written = s.written)
    (hopcodes : s'.opcodes = s.opcodes)
    (hdispatched : s'.dispatched = s.dispatched ++ [(w, opcode)])
    (hexecuted : s'.executed = s.executed) : Journal s' (.queued opcode w) := by
  refine ⟨?_, ?_, ?_, ?_⟩
  · rw [hfifo, hwritten, hopcodes]
    exact h.fifo
  · rw [hwritten, hopcodes]
    exact h.read
  · rw [hopcodes, hdispatched, h.dispatched]
    simp [RequestStage.unassigned]
  · have hall : s.dispatched = s.executed := h.executed.trans (List.append_nil _)
    rw [hdispatched, hexecuted, hall]
    rfl

/-- The session that starts is recorded. -/
theorem Journal.enter {s' : Dispatch} {opcode : UInt8} {w : Nat}
    (h : Journal s (.dequeued opcode w)) (hfifo : s'.fifo = s.fifo)
    (hwritten : s'.written = s.written) (hopcodes : s'.opcodes = s.opcodes)
    (hdispatched : s'.dispatched = s.dispatched)
    (hexecuted : s'.executed = s.executed ++ [(w, opcode)]) :
    Journal s' (.entered w (entryReads opcode)) := by
  refine ⟨?_, ?_, ?_, ?_⟩
  · rw [hfifo, hwritten, hopcodes]
    exact h.fifo
  · rw [hwritten, hopcodes]
    exact h.read
  · rw [hopcodes, hdispatched]
    exact h.dispatched
  · rw [hdispatched, hexecuted, h.executed]
    exact (List.append_nil _).symm

/-- A read of `process_entry` stays inside the request. -/
theorem Journal.readEntry {s' : Dispatch} {n w : Nat} {reads : List Nat}
    (h : Journal s (.entered w (n :: reads))) (hfifo : s'.fifo = s.fifo.drop n)
    (hwritten : s'.written = s.written) (hopcodes : s'.opcodes = s.opcodes)
    (hdispatched : s'.dispatched = s.dispatched) (hexecuted : s'.executed = s.executed) :
    Journal s' (.entered w reads) := by
  obtain ⟨entry, hlen, hs⟩ := h.fifo
  have hle : n ≤ entry.length := by
    rw [hlen]
    exact Nat.le_add_right n reads.sum
  refine ⟨⟨entry.drop n, ?_, ?_⟩, ?_, ?_, ?_⟩
  · rw [List.length_drop, hlen]
    exact Nat.add_sub_cancel_left n reads.sum
  · rw [hfifo, hs, hwritten, hopcodes, List.drop_append_of_le_length hle]
  · rw [hwritten, hopcodes]
    exact h.read
  · rw [hopcodes, hdispatched]
    exact h.dispatched
  · rw [hdispatched, hexecuted]
    exact h.executed

end Journal

/-! ### The workers -/

section Placed

variable {n w u : Nat} {m m' : MainPc} {workers : Nat → Worker} {g g' : RequestStage} {x y : Worker}

theorem forall_update {P : Nat → Worker → Prop} (hw : P w x)
    (h : ∀ u, u ≠ w → P u (workers u)) (u : Nat) : P u (Function.update workers w x u) := by
  by_cases hu : u = w
  · subst hu
    rw [Function.update_self]
    exact hw
  · rw [Function.update_of_ne hu]
    exact h u hu

theorem MainPc.worker_of_holds (h : m.holds = some u) : m.worker = some u := by
  cases m <;> first | exact h | cases h

theorem MainPc.worker_of_chosen (h : m.chosen = some u) : m.worker = some u := by
  cases m <;> first | exact h | cases h

theorem Worker.not_owns (h : x.toExecute = false) : ¬ x.Owns :=
  fun ho => absurd (h.symm.trans ho.1) nofun

theorem WorkerPc.holdsLock_of_executing {pc : WorkerPc} (h : pc.Executing) : pc.HoldsLock := by
  cases pc <;> first | exact trivial | exact h

/-- A worker that neither the main thread nor the request is concerned with. -/
theorem Placed.other (h : Placed n m g u y) (hm : m.worker ≠ some u) (hm' : m'.worker ≠ some u)
    (hg : g.owner ≠ some u) (hg' : g'.owner ≠ some u) : Placed n m' g' u y where
  lockWorker := h.lockWorker
  lockMain := h.lockMain.trans (iff_of_false (fun h => hm (MainPc.worker_of_holds h))
    fun h => hm' (MainPc.worker_of_holds h))
  executing := h.executing
  cleared := h.cleared
  owner := h.owner.trans (iff_of_false hg hg')
  ownerAt h := absurd h hg'
  passed h := absurd h hg'
  signalled h := absurd h hg'
  chosen h := absurd (MainPc.worker_of_chosen h) hm'
  opcode opcode h := by
    rcases h with rfl | rfl <;> exact absurd rfl hm'

/-- A step of a worker that does not concern the request. -/
theorem Placed.move (h : Placed n m g w y) (hlock : x.lock = some .worker ↔ x.pc.HoldsLock)
    (hmain : x.lock = some .main ↔ y.lock = some .main)
    (hexecuting : x.pc.Executing → x.toExecute = true)
    (hcleared : x.pc = .unlock → x.toExecute = false) (howns : x.Owns ↔ y.Owns)
    (hat : g.OwnerAt y.pc → g.OwnerAt x.pc) (hopcode : x.opcode = y.opcode)
    (hwait : x.Owns → x.pc ≠ .waiting) (hflag : y.toExecute = false → x.toExecute = false) :
    Placed n m g w x where
  lockWorker := hlock
  lockMain := hmain.trans h.lockMain
  executing := hexecuting
  cleared := hcleared
  owner := howns.trans h.owner
  ownerAt hg := ⟨(h.ownerAt hg).1, hat (h.ownerAt hg).2⟩
  passed hg opcode hp := hopcode.trans (h.passed hg opcode hp)
  signalled hg hw := absurd hw (hwait (howns.mpr (h.owner.mpr hg)))
  chosen hm := ⟨(h.chosen hm).1, hflag (h.chosen hm).2⟩
  opcode opcode hm := hopcode.trans (h.opcode opcode hm)

/-- A worker takes its lock. -/
theorem Placed.lock (h : Placed n m g w y) (hpc : y.pc = .lock ∨ y.pc = .woken)
    (hfree : y.lock = none) : Placed n m g w { y with pc := .test, lock := some .worker } := by
  refine h.move (iff_of_true rfl trivial) ?_ False.elim nofun ?_ ?_ rfl (fun _ => nofun) id
  · rw [hfree]
    exact iff_of_false nofun nofun
  · refine and_congr_right fun _ => iff_of_true trivial ?_
    rcases hpc with hpc | hpc <;> rw [hpc] <;> trivial
  · intro hat
    rcases hpc with hpc | hpc <;> rw [hpc] at hat <;> cases hat <;> constructor

/-- A worker finds its flag set. -/
theorem Placed.testSet (h : Placed n m g w y) (hpc : y.pc = .test) (hflag : y.toExecute = true) :
    Placed n m g w { y with pc := .dequeue } := by
  have hlock : y.lock = some .worker := h.lockWorker.mpr (hpc ▸ trivial)
  refine h.move (iff_of_true hlock trivial) Iff.rfl (fun _ => hflag) nofun ?_ ?_ rfl
    (fun _ => nofun) id
  · exact and_congr_right fun _ => iff_of_true trivial (hpc ▸ trivial)
  · intro hat
    rw [hpc] at hat
    cases hat
    constructor

/-- A worker waits for its flag and gives its lock back. -/
theorem Placed.testClear (h : Placed n m g w y) (hpc : y.pc = .test) (hflag : y.toExecute = false) :
    Placed n m g w { y with pc := .waiting, lock := none } := by
  have hlock : y.lock = some .worker := h.lockWorker.mpr (hpc ▸ trivial)
  refine h.move (iff_of_false nofun id) ?_ False.elim nofun ?_ ?_ rfl ?_ id
  · rw [hlock]
    exact iff_of_false nofun nofun
  · exact iff_of_false (Worker.not_owns hflag) (Worker.not_owns hflag)
  · intro hat
    rw [hpc] at hat
    cases hat
    constructor
  · exact fun ho => absurd ho (Worker.not_owns hflag)

theorem Placed.wake (h : Placed n m g w y) (hpc : y.pc = .waiting) :
    Placed n m g w { y with pc := .woken } := by
  have hlock : y.lock ≠ some .worker := fun hl => by
    have hholds := h.lockWorker.mp hl
    rw [hpc] at hholds
    exact hholds
  refine h.move (iff_of_false hlock id) Iff.rfl False.elim nofun ?_ ?_ rfl (fun _ => nofun) id
  · exact and_congr_right fun _ => iff_of_true trivial (hpc ▸ trivial)
  · intro hat
    rw [hpc] at hat
    cases hat
    constructor

/-- The end of a session. -/
theorem Placed.session (h : Placed n m g w y) (hpc : y.pc = .session) :
    Placed n m g w { y with pc := .clear } := by
  have hlock : y.lock = some .worker := h.lockWorker.mpr (hpc ▸ trivial)
  have hflag : y.toExecute = true := h.executing (hpc ▸ trivial)
  refine h.move (iff_of_true hlock trivial) Iff.rfl (fun _ => hflag) nofun ?_ ?_ rfl
    (fun _ => nofun) id
  · exact and_congr_right fun _ => iff_of_false id (hpc ▸ id)
  · intro hat
    rw [hpc] at hat
    cases hat

theorem Placed.clear (h : Placed n m g w y) (hpc : y.pc = .clear) :
    Placed n m g w { y with pc := .unlock, toExecute := false } := by
  have hlock : y.lock = some .worker := h.lockWorker.mpr (hpc ▸ trivial)
  refine h.move (iff_of_true hlock trivial) Iff.rfl False.elim (fun _ => rfl) ?_ ?_ rfl
    (fun _ => nofun) fun _ => rfl
  · refine iff_of_false (Worker.not_owns rfl) fun ho => ?_
    have hbefore := ho.2
    rw [hpc] at hbefore
    exact hbefore
  · intro hat
    rw [hpc] at hat
    cases hat

theorem Placed.unlock (h : Placed n m g w y) (hpc : y.pc = .unlock) :
    Placed n m g w { y with pc := .lock, lock := none } := by
  have hlock : y.lock = some .worker := h.lockWorker.mpr (hpc ▸ trivial)
  have hflag : y.toExecute = false := h.cleared hpc
  refine h.move (iff_of_false nofun id) ?_ False.elim nofun ?_ ?_ rfl (fun _ => nofun) id
  · rw [hlock]
    exact iff_of_false nofun nofun
  · exact iff_of_false (Worker.not_owns hflag) (Worker.not_owns hflag)
  · intro hat
    rw [hpc] at hat
    cases hat

/-- The owner of the request goes on to the next stage. -/
theorem Placed.advance {pc : WorkerPc} (h : Placed n .relock g w y) (hold : y.pc.Executing)
    (hpc : pc.Executing) (hbefore : pc.BeforeSession) (hg : g.owner = some w)
    (hg' : g'.owner = some w) (hat : g'.OwnerAt pc)
    (hpassed : ∀ opcode, g'.passed = some opcode → g.passed = some opcode) :
    Placed n .relock g' w { y with pc := pc } where
  lockWorker := iff_of_true (h.lockWorker.mpr (WorkerPc.holdsLock_of_executing hold))
    (WorkerPc.holdsLock_of_executing hpc)
  lockMain := h.lockMain
  executing _ := h.executing hold
  cleared hu := by
    change pc = .unlock at hu
    subst hu
    exact hpc.elim
  owner := iff_of_true ⟨h.executing hold, hbefore⟩ hg'
  ownerAt _ := ⟨(h.ownerAt hg).1, hat⟩
  passed _ opcode hp := h.passed hg opcode (hpassed opcode hp)
  signalled _ hw := by
    change pc = .waiting at hw
    subst hw
    exact hpc.elim
  chosen := nofun
  opcode _ := nofun

/-- The owner leaves `process_entry`. -/
theorem Placed.release (h : Placed n .relock g w y) (hold : y.pc.Executing) :
    Placed n .relock .done w { y with pc := .session } where
  lockWorker := iff_of_true (h.lockWorker.mpr (WorkerPc.holdsLock_of_executing hold)) trivial
  lockMain := h.lockMain
  executing _ := h.executing hold
  cleared := nofun
  owner := iff_of_false (fun ho => ho.2) nofun
  ownerAt := nofun
  passed := nofun
  signalled := nofun
  chosen := nofun
  opcode _ := nofun

/-- While `main` waits for the lock of the register FIFO, only the owner of the request is
concerned with it. -/
theorem Placed.otherOfRelock (h : Placed n .relock g u y) (hg : g.owner = some w) (hu : u ≠ w)
    (hg' : g'.owner = some w ∨ g'.owner = none) : Placed n .relock g' u y := by
  refine h.other nofun nofun ?_ ?_
  · rw [hg]
    exact fun heq => hu (Option.some.inj heq).symm
  · rcases hg' with hg' | hg' <;> rw [hg']
    · exact fun heq => hu (Option.some.inj heq).symm
    · nofun

/-- The main thread goes on while it has the request, and no worker changes. -/
theorem Placed.mainMove (h : Placed n m g u y) (hg : g.owner = none) (hg' : g'.owner = none)
    (hholds : m'.holds = m.holds) (hchosen : m'.chosen = some u → u < n ∧ y.toExecute = false)
    (hopcode : ∀ opcode, m' = .lockPipe opcode u ∨ m' = .setExecute opcode u → y.opcode = opcode) :
    Placed n m' g' u y where
  lockWorker := h.lockWorker
  lockMain := by
    rw [hholds]
    exact h.lockMain
  executing := h.executing
  cleared := h.cleared
  owner := by
    rw [hg', ← hg]
    exact h.owner
  ownerAt ho := absurd (hg'.symm.trans ho) nofun
  passed ho := absurd (hg'.symm.trans ho) nofun
  signalled ho := absurd (hg'.symm.trans ho) nofun
  chosen := hchosen
  opcode := hopcode

/-- A worker whose lock is free or taken by the main thread has not seen its flag. -/
theorem Placed.not_holdsLock (h : Placed n m g w y) (hm : m.holds = some w) :
    ¬ y.pc.HoldsLock := by
  intro hpc
  have hlock := h.lockMain.mpr hm
  rw [h.lockWorker.mpr hpc] at hlock
  cases hlock

theorem WorkerPc.beforeSession_of_not_holdsLock {pc : WorkerPc} (h : ¬ pc.HoldsLock) :
    pc.BeforeSession := by
  cases pc <;> first | exact trivial | exact absurd trivial h

/-- The main thread takes the lock of the worker. -/
theorem Placed.lockByMain {opcode : UInt8}
    (h : Placed n (.lockWorker opcode w) (.queued opcode w) w y)
    (hfree : y.lock = none) :
    Placed n (.setOpcode opcode w) (.queued opcode w) w { y with lock := some .main } where
  lockWorker := iff_of_false nofun fun hpc => by
    rw [h.lockWorker.mpr hpc] at hfree
    cases hfree
  lockMain := iff_of_true rfl rfl
  executing := h.executing
  cleared := h.cleared
  owner := h.owner
  ownerAt := nofun
  passed := nofun
  signalled := nofun
  chosen _ := h.chosen rfl
  opcode _ := nofun

theorem Placed.setOpcode {opcode : UInt8}
    (h : Placed n (.setOpcode opcode w) (.queued opcode w) w y) :
    Placed n (.lockPipe opcode w) (.queued opcode w) w { y with opcode := opcode } where
  lockWorker := h.lockWorker
  lockMain := h.lockMain
  executing := h.executing
  cleared := h.cleared
  owner := h.owner
  ownerAt := nofun
  passed := nofun
  signalled := nofun
  chosen _ := h.chosen rfl
  opcode _ hm := by
    rcases hm with hm | hm <;> cases hm
    rfl

/-- The main thread passes the request and the lock of the FIFO to the worker. -/
theorem Placed.setExecute {opcode : UInt8}
    (h : Placed n (.setExecute opcode w) (.queued opcode w) w y) :
    Placed n (.signal opcode w) (.flagged opcode w) w { y with toExecute := true } := by
  have hpc := h.not_holdsLock rfl
  have hn := (h.chosen rfl).1
  have hopcode := h.opcode opcode (Or.inr rfl)
  refine ⟨h.lockWorker, h.lockMain, fun _ => rfl, ?_, ?_, ?_, ?_, ?_, nofun, fun _ => nofun⟩
  · intro hu
    exact absurd (hu ▸ trivial) hpc
  · exact iff_of_true ⟨rfl, WorkerPc.beforeSession_of_not_holdsLock hpc⟩ rfl
  · refine fun _ => ⟨hn, ?_⟩
    cases hy : y.pc with
    | lock => exact .lock opcode w
    | waiting => exact .waiting opcode w
    | woken => exact .woken opcode w
    | _ => exact absurd (hy ▸ trivial) hpc
  · intro _ c hc
    cases hc
    exact hopcode
  · exact fun _ _ => ⟨opcode, rfl⟩

/-- The signal wakes the worker if it waits. -/
theorem Placed.signal {opcode : UInt8} (h : Placed n (.signal opcode w) (.flagged opcode w) w y) :
    Placed n (.unlockWorker opcode w) (.flagged opcode w) w y.signalled := by
  have hpc := h.not_holdsLock rfl
  have hafter : y.signalled.pc = .lock ∨ y.signalled.pc = .woken := by
    simp only [Worker.signalled]
    cases hy : y.pc with
    | lock => exact Or.inl rfl
    | waiting | woken => exact Or.inr rfl
    | _ => exact absurd (hy ▸ trivial) hpc
  have hlock : y.lock = some .main := h.lockMain.mpr rfl
  have hflag : y.toExecute = true := (h.owner.mpr rfl).1
  refine ⟨?_, iff_of_true hlock rfl, fun _ => hflag, ?_, ?_, ?_, h.passed, ?_, nofun,
    fun _ => nofun⟩
  · refine iff_of_false (fun hl => absurd (hlock.symm.trans hl) nofun) ?_
    rcases hafter with hafter | hafter <;> rw [hafter] <;> exact id
  · intro hu
    rcases hafter with hafter | hafter <;> rw [hafter] at hu <;> cases hu
  · refine iff_of_true ⟨hflag, ?_⟩ rfl
    rcases hafter with hafter | hafter <;> rw [hafter] <;> trivial
  · refine fun hg => ⟨(h.ownerAt hg).1, ?_⟩
    rcases hafter with hafter | hafter <;> rw [hafter] <;> constructor
  · intro _ hw
    rcases hafter with hafter | hafter <;> rw [hafter] at hw <;> cases hw

/-- The main thread gives the lock of the worker back; the worker does not wait any more. -/
theorem Placed.unlockByMain {opcode : UInt8}
    (h : Placed n (.unlockWorker opcode w) (.flagged opcode w) w y) :
    Placed n .relock (.flagged opcode w) w { y with lock := none } where
  lockWorker := iff_of_false nofun (h.not_holdsLock rfl)
  lockMain := iff_of_false nofun nofun
  executing := h.executing
  cleared := h.cleared
  owner := h.owner
  ownerAt := h.ownerAt
  passed := h.passed
  signalled hg hw := by
    obtain ⟨c, hc⟩ := h.signalled hg hw
    cases hc
  chosen := nofun
  opcode _ := nofun

end Placed

/-! ### Steps of a worker -/

section WorkerSteps

variable {s s' : Dispatch} {g g' : RequestStage} {w : Nat} {x : Worker}

/-- A step of a worker that does not concern the request. -/
theorem Inv.setWorker (h : Inv s g) (hx : Placed s.maxSessions s.main g w x)
    (hflag : (s.workers w).toExecute = false → x.toExecute = false) : Inv (s.setWorker w x) g where
  main := h.main
  pipeLock := h.pipeLock
  capacity := h.capacity
  size := h.size
  placed := forall_update hx fun u _ => h.placed u
  scan opcode i hm hi := by
    obtain ⟨j, hij, hj, hfree⟩ := h.scan opcode i hm hi
    refine ⟨j, hij, hj, ?_⟩
    by_cases hjw : j = w
    · subst hjw
      show (Function.update s.workers j x j).toExecute = false
      rw [Function.update_self]
      exact hflag hfree
    · show (Function.update s.workers w x j).toExecute = false
      rw [Function.update_of_ne hjw]
      exact hfree
  journal := h.journal.keep rfl rfl rfl rfl rfl rfl rfl rfl

/-- A worker that has seen its flag and has not released the lock of the FIFO has the request, and
`main` waits for that lock. -/
theorem Inv.of_executing (h : Inv s g) (hpc : (s.workers w).pc.Executing)
    (hbefore : (s.workers w).pc.BeforeSession) :
    s.main = .relock ∧ g.owner = some w ∧ g.OwnerAt (s.workers w).pc := by
  have hp := h.placed w
  have hg : g.owner = some w := hp.owner.mp ⟨hp.executing hpc, hbefore⟩
  -- the main thread does not hold the lock of the worker
  have hnot : s.main.holds ≠ some w := fun hm => by
    have hlock := hp.lockWorker.mpr (WorkerPc.holdsLock_of_executing hpc)
    rw [hp.lockMain.mpr hm] at hlock
    cases hlock
  refine ⟨?_, hg, (hp.ownerAt hg).2⟩
  have hm := h.main
  generalize s.main = m at hm hnot
  cases hm with
  | signal opcode v | unlockWorker opcode v => exact absurd hg hnot
  | relockFlagged | relockDequeued | relockEntered => rfl
  | _ => cases hg

/-- A step of the owner of the request takes it to the next stage. -/
theorem Inv.advance (h : Inv s g) (hm : s.main = .relock) (hg : g.owner = some w)
    (hmain : s'.main = s.main) (hmax : s'.maxSessions = s.maxSessions)
    (hworkers : s'.workers = Function.update s.workers w x)
    (hat : g'.At .relock) (hpipe : s'.pipeLock = g'.owner.isSome)
    (hcapacity : s'.queue.capacity = s.queue.capacity) (hsize : s'.queue.currentSize = g'.size)
    (hg' : g'.owner = some w ∨ g'.owner = none) (hx : Placed s.maxSessions .relock g' w x)
    (hjournal : Journal s' g') : Inv s' g' := by
  have hrelock : s'.main = .relock := hmain.trans hm
  refine ⟨hrelock ▸ hat, ?_, ?_, hsize, ?_, ?_, hjournal⟩
  · rw [hpipe, hrelock]
    exact (Bool.or_false _).symm
  · rw [hcapacity, hmax, h.capacity]
  · rw [hmax, hrelock, hworkers]
    exact forall_update hx fun u hu => (hm ▸ h.placed u).otherOfRelock hg hu hg'
  · intro opcode i hs
    rw [hrelock] at hs
    cases hs

theorem Inv.dequeue (h : Inv s g) (hpc : (s.workers w).pc = .dequeue) :
    s.queue.currentSize ≠ 0 ∧ ∃ g', Inv ({ s with queue := s.queue.dequeueLocked }.setWorker w
      { s.workers w with pc := .switch }) g' := by
  obtain ⟨hm, hg, hat⟩ := h.of_executing (w := w) (hpc ▸ trivial) (hpc ▸ trivial)
  rw [hpc] at hat
  cases hat with
  | dequeue opcode v =>
    cases hg
    have hone : s.queue.currentSize = 1 := h.size
    refine ⟨by omega, .dequeued opcode w, ?_⟩
    refine h.advance hm rfl rfl rfl rfl (.relockDequeued opcode w) ?_ rfl ?_ (Or.inl rfl) ?_
      (h.journal.keep rfl rfl rfl rfl rfl rfl rfl rfl)
    · show s.pipeLock = true
      rw [h.pipeLock]
      rfl
    · show s.queue.currentSize - 1 = 0
      omega
    · exact (hm ▸ h.placed w).advance (hpc ▸ trivial) trivial trivial rfl rfl
        (.switch opcode w) fun _ hp => hp

/-- The session starts with the opcode that `main` has read. -/
theorem Inv.switch (h : Inv s g) (hpc : (s.workers w).pc = .switch) :
    isDispatched (s.workers w).opcode = true ∧
      ∃ g', Inv ({ s with executed := s.executed ++ [(w, (s.workers w).opcode)] }.setWorker w
        { s.workers w with pc := .entry (entryReads (s.workers w).opcode) }) g' := by
  obtain ⟨hm, hg, hat⟩ := h.of_executing (w := w) (hpc ▸ trivial) (hpc ▸ trivial)
  rw [hpc] at hat
  cases hat with
  | switch opcode v =>
    cases hg
    have hopcode : (s.workers w).opcode = opcode := (h.placed w).passed rfl opcode rfl
    have hmem : opcode ∈ s.opcodes := by
      rw [h.journal.dispatched, h.journal.executed]
      simp [RequestStage.pending]
    rw [hopcode]
    refine ⟨h.journal.isDispatched_of_mem hmem, .entered w (entryReads opcode), ?_⟩
    refine h.advance hm rfl rfl rfl rfl (.relockEntered w _) ?_ rfl h.size (Or.inl rfl) ?_
      (h.journal.enter rfl rfl rfl rfl rfl)
    · show s.pipeLock = true
      rw [h.pipeLock]
      rfl
    · exact (hm ▸ h.placed w).advance (hpc ▸ trivial) trivial trivial rfl rfl
        (.entry w _) nofun

/-- A read of `process_entry`. -/
theorem Inv.readEntry {n : Nat} {reads : List Nat} (h : Inv s g)
    (hpc : (s.workers w).pc = .entry (n :: reads)) :
    ∃ g', Inv ({ s with fifo := s.fifo.drop n }.setWorker w
      { s.workers w with pc := .entry reads }) g' := by
  obtain ⟨hm, hg, hat⟩ := h.of_executing (w := w) (hpc ▸ trivial) (hpc ▸ trivial)
  rw [hpc] at hat
  cases hat with
  | entry v reads' =>
    cases hg
    refine ⟨.entered w reads, ?_⟩
    refine h.advance hm rfl rfl rfl rfl (.relockEntered w _) ?_ rfl h.size (Or.inl rfl) ?_
      (h.journal.readEntry rfl rfl rfl rfl rfl)
    · show s.pipeLock = true
      rw [h.pipeLock]
      rfl
    · exact (hm ▸ h.placed w).advance (hpc ▸ trivial) trivial trivial rfl rfl
        (.entry w _) nofun

/-- The worker releases the lock of the FIFO behind the last byte of its request. -/
theorem Inv.release (h : Inv s g) (hpc : (s.workers w).pc = .entry []) :
    Inv ({ s with pipeLock := false }.setWorker w { s.workers w with pc := .session }) .done := by
  obtain ⟨hm, hg, hat⟩ := h.of_executing (w := w) (hpc ▸ trivial) (hpc ▸ trivial)
  rw [hpc] at hat
  cases hat with
  | entry v reads =>
    cases hg
    refine h.advance hm rfl rfl rfl rfl .relockDone rfl rfl h.size (Or.inr rfl) ?_
      (h.journal.keep rfl rfl rfl rfl rfl rfl rfl rfl)
    exact (hm ▸ h.placed w).release (hpc ▸ trivial)

/-- Every step of a worker keeps the invariant. -/
theorem Inv.workerStep (h : Inv s g) (hs : s.workerStep w = some s') : ∃ g', Inv s' g' := by
  have hp := h.placed w
  cases Dispatch.outcome_of_workerStep hs with
  | lock hpc hfree => exact ⟨g, h.setWorker (hp.lock hpc hfree) id⟩
  | testSet hpc hflag => exact ⟨g, h.setWorker (hp.testSet hpc hflag) id⟩
  | testClear hpc hflag => exact ⟨g, h.setWorker (hp.testClear hpc hflag) id⟩
  | dequeue hpc =>
    obtain ⟨_, g', hg'⟩ := h.dequeue hpc
    exact ⟨g', hg'⟩
  | switch hpc =>
    obtain ⟨hd, g', hg'⟩ := h.switch hpc
    rw [if_pos hd]
    exact ⟨g', hg'⟩
  | readEntry n reads hpc => exact h.readEntry hpc
  | release hpc => exact ⟨.done, h.release hpc⟩
  | session hpc => exact ⟨g, h.setWorker (hp.session hpc) id⟩
  | clear hpc => exact ⟨g, h.setWorker (hp.clear hpc) fun _ => rfl⟩
  | unlock hpc => exact ⟨g, h.setWorker (hp.unlock hpc) id⟩

end WorkerSteps

/-! ### Steps of the main thread -/

section MainSteps

open Dispatch (afterOpcode)

variable {s s' : Dispatch} {g g' : RequestStage} {m' : MainPc} {opcode : UInt8} {w i : Nat}
  {x : Worker}

/-- A step of the main thread that has the request and changes no worker. -/
theorem Inv.mainMove (h : Inv s g) (m' : MainPc) (hg : g.owner = none) (hg' : g'.owner = none)
    (hmain : s'.main = m') (hmax : s'.maxSessions = s.maxSessions)
    (hworkers : s'.workers = s.workers)
    (hat : g'.At m') (hpipe : s'.pipeLock = m'.HoldsPipe)
    (hcapacity : s'.queue.capacity = s.queue.capacity) (hsize : s'.queue.currentSize = g'.size)
    (hholds : m'.holds = s.main.holds)
    (hchosen : ∀ w, m'.chosen = some w → w < s.maxSessions ∧ (s.workers w).toExecute = false)
    (hopcode : ∀ opcode w, m' = .lockPipe opcode w ∨ m' = .setExecute opcode w →
      (s.workers w).opcode = opcode)
    (hscan : ∀ opcode i, m' = .scan opcode i → 0 < i →
      ∃ j, i ≤ j ∧ j < s.maxSessions ∧ (s.workers j).toExecute = false)
    (hjournal : Journal s' g') : Inv s' g' := by
  refine ⟨hmain ▸ hat, ?_, ?_, hsize, ?_, ?_, hjournal⟩
  · rw [hpipe, hmain, hg']
    rfl
  · rw [hcapacity, hmax, h.capacity]
  · rw [hmax, hmain, hworkers]
    exact fun u => (h.placed u).mainMove hg hg' hholds (hchosen u) fun c => hopcode c u
  · rw [hmax, hmain, hworkers]
    exact hscan

/-- A step of the main thread that changes the chosen worker. -/
theorem Inv.mainSet (h : Inv s g) (hm : s.main.worker = some w)
    (hm' : m'.worker = some w ∨ m'.worker = none) (hscan : ∀ c j, m' ≠ .scan c j)
    (hg : ∀ u, g.owner = some u → u = w) (hg' : ∀ u, g'.owner = some u → u = w)
    (hat : g'.At m') (hpipe : s.pipeLock = (g'.owner.isSome || m'.HoldsPipe))
    (hsize : g'.size = g.size) (hbytes : g'.bytesLeft = g.bytesLeft)
    (hunassigned : g'.unassigned = g.unassigned) (hpending : g'.pending = g.pending)
    (hx : Placed s.maxSessions m' g' w x) :
    Inv ({ s with main := m' }.setWorker w x) g' := by
  refine ⟨hat, hpipe, h.capacity, h.size.trans hsize.symm, ?_, ?_,
    h.journal.keep rfl rfl rfl rfl rfl hbytes hunassigned hpending⟩
  · refine forall_update hx fun u hu => (h.placed u).other ?_ ?_ (fun ho => hu (hg u ho))
      fun ho => hu (hg' u ho)
    · exact fun ho => hu (Option.some.inj (ho.symm.trans hm))
    · intro ho
      change m'.worker = some u at ho
      rcases hm' with hm' | hm' <;> rw [hm'] at ho
      · exact hu (Option.some.inj ho).symm
      · cases ho
  · exact fun c j hs => absurd hs (hscan c j)

theorem MainPc.worker_of_lockPipe {m : MainPc}
    (h : m = .lockPipe opcode w ∨ m = .setExecute opcode w) : m.worker = some w := by
  rcases h with rfl | rfl <;> rfl

/-- The main thread reads the opcode of the next request. -/
theorem Inv.readOpcode {c : UInt8} {rest : List UInt8} (h : Inv s .done) (hc : s.fifo = c :: rest)
    (hat : isDispatched c = true → (RequestStage.opcodeRead c).At m')
    (hpipe : s.pipeLock = m'.HoldsPipe) (hholds : m'.holds = s.main.holds)
    (hworker : m'.worker = none)
    (hscan : ∀ opcode i, m' = .scan opcode i → i = 0) :
    Inv { s with main := m', fifo := rest, opcodes := s.opcodes ++ [c] } (.opcodeRead c) := by
  obtain ⟨hd, hj⟩ := h.journal.readOpcode hc
    (show Dispatch.fifo { s with main := m', fifo := rest, opcodes := s.opcodes ++ [c] } = rest
      from rfl) rfl rfl rfl rfl
  refine h.mainMove _ rfl rfl rfl rfl rfl (hat hd) hpipe rfl h.size hholds ?_ ?_ ?_ hj
  · exact fun w hw => absurd (hworker.symm.trans (MainPc.worker_of_chosen hw)) nofun
  · exact fun c w hw => absurd (hworker.symm.trans (MainPc.worker_of_lockPipe hw)) nofun
  · intro c i hm hi
    rw [hscan c i hm] at hi
    cases hi

/-- The search for a free worker goes on or ends. -/
theorem Inv.scanStep (h : Inv s g) (hm : s.main = .scan opcode i)
    (hidle : i = 0 → ∃ j < s.maxSessions, (s.workers j).toExecute = false) :
    i < s.maxSessions ∧ Inv { s with
      main := if (s.workers i).toExecute then .scan opcode (i + 1) else .enqueue opcode i } g := by
  have hat := h.main
  rw [hm] at hat
  cases hat
  have hpipe : s.pipeLock = false := by
    rw [h.pipeLock, hm]
    rfl
  obtain ⟨j, hij, hj, hfree⟩ :
      ∃ j, i ≤ j ∧ j < s.maxSessions ∧ (s.workers j).toExecute = false := by
    rcases Nat.eq_zero_or_pos i with rfl | hi
    · obtain ⟨j, hj, hfree⟩ := hidle rfl
      exact ⟨j, Nat.zero_le j, hj, hfree⟩
    · exact h.scan opcode i hm hi
  refine ⟨by omega, ?_⟩
  cases hflag : (s.workers i).toExecute with
  | true =>
    refine h.mainMove (.scan opcode (i + 1)) rfl rfl rfl rfl rfl (.scan opcode _) hpipe rfl
      h.size (hm ▸ rfl) nofun (fun _ _ => nofun) ?_ (h.journal.keep rfl rfl rfl rfl rfl rfl rfl rfl)
    intro c k hk _
    cases hk
    -- the free worker is not the one that was just tested
    refine ⟨j, Nat.lt_of_le_of_ne hij ?_, hj, hfree⟩
    rintro rfl
    rw [hflag] at hfree
    cases hfree
  | false =>
    refine h.mainMove (.enqueue opcode i) rfl rfl rfl rfl rfl (.enqueue opcode i) hpipe rfl
      h.size (hm ▸ rfl) ?_ (fun _ _ => nofun) (fun _ _ => nofun)
      (h.journal.keep rfl rfl rfl rfl rfl rfl rfl rfl)
    intro w hw
    cases hw
    exact ⟨by omega, hflag⟩

/-- The chosen worker is queued; the queue is empty before. -/
theorem Inv.enqueue (h : Inv s g) (hm : s.main = .enqueue opcode i) :
    s.queue.currentSize < s.queue.capacity ∧ Inv { s with
      main := .lockWorker opcode i
      queue := s.queue.enqueueLocked i
      dispatched := s.dispatched ++ [(i, opcode)] } (.queued opcode i) := by
  have hat := h.main
  rw [hm] at hat
  cases hat
  obtain ⟨hi, hflag⟩ := (h.placed i).chosen (hm ▸ rfl)
  have hzero : s.queue.currentSize = 0 := h.size
  refine ⟨?_, ?_⟩
  · rw [hzero, h.capacity]
    omega
  · refine h.mainMove (.lockWorker opcode i) rfl rfl rfl rfl rfl (.lockWorker opcode i) ?_ rfl
      ?_ (hm ▸ rfl) ?_ (fun _ _ => nofun) (fun _ _ => nofun)
      (h.journal.queue i rfl rfl rfl rfl rfl)
    · show s.pipeLock = false
      rw [h.pipeLock, hm]
      rfl
    · show s.queue.currentSize + 1 = 1
      rw [hzero]
    · intro w hw
      cases hw
      exact ⟨hi, hflag⟩

/-- The main thread takes the lock of the FIFO for the chosen worker. -/
theorem Inv.lockPipe (h : Inv s g) (hm : s.main = .lockPipe opcode i) :
    s.pipeLock = false ∧ Inv { s with main := .setExecute opcode i, pipeLock := true } g := by
  have hat := h.main
  rw [hm] at hat
  cases hat
  refine ⟨?_, ?_⟩
  · rw [h.pipeLock, hm]
    rfl
  · refine h.mainMove _ rfl rfl rfl rfl rfl (.setExecute opcode i) rfl rfl h.size (hm ▸ rfl) ?_ ?_
      (fun _ _ => nofun) (h.journal.keep rfl rfl rfl rfl rfl rfl rfl rfl)
    · intro w hw
      cases hw
      exact (h.placed i).chosen (hm ▸ rfl)
    · intro c w hw
      rcases hw with hw | hw <;> cases hw
      exact (h.placed i).opcode opcode (hm ▸ Or.inl rfl)

/-- Without a request on its way the main thread goes from one place to another. -/
theorem Inv.mainIdle {lock : Bool} (h : Inv s .done) (hworker : m'.worker = none)
    (hscan : ∀ opcode i, m' ≠ .scan opcode i) (hholds : m'.holds = s.main.holds)
    (hat : RequestStage.done.At m') (hpipe : lock = m'.HoldsPipe) :
    Inv { s with main := m', pipeLock := lock } .done := by
  refine h.mainMove _ rfl rfl rfl rfl rfl hat hpipe rfl h.size hholds ?_ ?_ ?_
    (h.journal.keep rfl rfl rfl rfl rfl rfl rfl rfl)
  · exact fun w hw => absurd (hworker.symm.trans (MainPc.worker_of_chosen hw)) nofun
  · exact fun c w hw => absurd (hworker.symm.trans (MainPc.worker_of_lockPipe hw)) nofun
  · exact fun c i hm => absurd hm (hscan c i)

/-- The main thread gets the lock of the FIFO back only when the request has been read. -/
theorem Inv.relock (h : Inv s g) (hm : s.main = .relock) (hfree : s.pipeLock = false) :
    Inv { s with main := .readNext, pipeLock := true } .done := by
  have hat := h.main
  have hpipe := h.pipeLock
  rw [hm] at hat
  rw [hfree, hm] at hpipe
  cases hat with
  | relockDone => exact h.mainIdle rfl nofun (hm ▸ rfl) .readNext rfl
  | _ => cases hpipe

theorem Inv.unlockPipe {read : Option UInt8} (h : Inv s g) (hm : s.main = .unlockPipe read) :
    Inv { s with main := (read.map afterOpcode).getD .readFirst, pipeLock := false } g := by
  have hat := h.main
  rw [hm] at hat
  cases hat with
  | endOfFile => exact h.mainIdle rfl nofun (hm ▸ rfl) .readFirst rfl
  | unlockPipe opcode =>
    have hd : isDispatched opcode = true := by
      apply h.journal.isDispatched_of_mem
      rw [h.journal.dispatched]
      exact List.mem_append_right _ List.mem_cons_self
    have hscan : afterOpcode opcode = .scan opcode 0 := by
      rw [afterOpcode, if_pos hd]
    show Inv { s with main := afterOpcode opcode, pipeLock := false } _
    rw [hscan]
    refine h.mainMove (.scan opcode 0) rfl rfl rfl rfl rfl (.scan opcode 0) rfl rfl h.size
      (hm ▸ rfl) nofun (fun _ _ => nofun) ?_ (h.journal.keep rfl rfl rfl rfl rfl rfl rfl rfl)
    intro c i hc hi
    cases hc
    cases hi

/-- Every step of the main thread keeps the invariant, if a worker is free when it starts to
search for one. -/
theorem Inv.mainStep (h : Inv s g)
    (hidle : ∀ opcode, s.main = .scan opcode 0 →
      ∃ j < s.maxSessions, (s.workers j).toExecute = false)
    (hs : s.mainStep = some s') : ∃ g', Inv s' g' := by
  have hat := h.main
  cases Dispatch.outcome_of_mainStep hs with
  | readFirst c rest hm hc =>
    rw [hm] at hat
    cases hat
    have hpipe : s.pipeLock = false := by
      rw [h.pipeLock, hm]
      rfl
    -- the byte is the opcode of a request, or it is skipped
    refine ⟨_, h.readOpcode hc ?_ ?_ ?_ ?_ ?_⟩ <;> rw [afterOpcode]
    · intro hd
      rw [if_pos hd]
      exact .scan c 0
    · rw [hpipe]
      split <;> rfl
    · rw [hm]
      split <;> rfl
    · split <;> rfl
    · split
      · rintro _ _ ⟨⟩
        rfl
      · nofun
  | scan opcode i hm =>
    obtain ⟨_, hinv⟩ := h.scanStep hm fun hi => hidle opcode (hi ▸ hm)
    exact ⟨g, hinv⟩
  | enqueue opcode i hm =>
    obtain ⟨_, hinv⟩ := h.enqueue hm
    exact ⟨_, hinv⟩
  | lockWorker opcode i hm hfree =>
    rw [hm] at hat
    cases hat
    refine ⟨.queued opcode i, h.mainSet (hm ▸ rfl) (Or.inl rfl) nofun (fun _ => nofun)
      (fun _ => nofun) (.setOpcode opcode i) ?_ rfl rfl rfl rfl
      (Placed.lockByMain (hm ▸ h.placed i) hfree)⟩
    rw [h.pipeLock, hm]
    rfl
  | setOpcode opcode i hm =>
    rw [hm] at hat
    cases hat
    refine ⟨.queued opcode i, h.mainSet (hm ▸ rfl) (Or.inl rfl) nofun (fun _ => nofun)
      (fun _ => nofun) (.lockPipe opcode i) ?_ rfl rfl rfl rfl (Placed.setOpcode (hm ▸ h.placed i))⟩
    rw [h.pipeLock, hm]
    rfl
  | lockPipe opcode i hm =>
    obtain ⟨_, hinv⟩ := h.lockPipe hm
    exact ⟨g, hinv⟩
  | setExecute opcode i hm =>
    rw [hm] at hat
    cases hat
    refine ⟨.flagged opcode i, h.mainSet (hm ▸ rfl) (Or.inl rfl) nofun (fun _ => nofun) ?_
      (.signal opcode i) ?_ rfl rfl rfl rfl (Placed.setExecute (hm ▸ h.placed i))⟩
    · exact fun u hu => (Option.some.inj hu).symm
    · rw [h.pipeLock, hm]
      rfl
  | signal opcode i hm =>
    rw [hm] at hat
    cases hat
    have howner : ∀ u, (RequestStage.flagged opcode i).owner = some u → u = i :=
      fun u hu => (Option.some.inj hu).symm
    refine ⟨_, h.mainSet (hm ▸ rfl) (Or.inl rfl) nofun howner howner (.unlockWorker opcode i) ?_
      rfl rfl rfl rfl (Placed.signal (hm ▸ h.placed i))⟩
    rw [h.pipeLock]
    rfl
  | unlockWorker opcode i hm =>
    rw [hm] at hat
    cases hat
    have howner : ∀ u, (RequestStage.flagged opcode i).owner = some u → u = i :=
      fun u hu => (Option.some.inj hu).symm
    refine ⟨_, h.mainSet (hm ▸ rfl) (Or.inr rfl) nofun howner howner (.relockFlagged opcode i) ?_
      rfl rfl rfl rfl (Placed.unlockByMain (hm ▸ h.placed i))⟩
    rw [h.pipeLock]
    rfl
  | relock hm hfree => exact ⟨.done, h.relock hm hfree⟩
  | readNext c rest hm hc =>
    rw [hm] at hat
    cases hat
    refine ⟨_, h.readOpcode hc (fun _ => .unlockPipe c) ?_ (hm ▸ rfl) rfl nofun⟩
    rw [h.pipeLock, hm]
    rfl
  | unlockPipe read hm => exact ⟨g, h.unlockPipe hm⟩

end MainSteps

/-! ### Runs -/

variable {s s' : Dispatch} {g : RequestStage} {maxSessions : Nat}

/-- The main thread is at the beginning of `function`. -/
def MainPc.startsScan : MainPc → Bool
  | scan _ 0 => true
  | _ => false

/-- When the main thread starts to search for a worker, there is a free one. -/
def HasIdle (s : Dispatch) : DispatchLabel → Prop
  | .main => s.main.startsScan = true → ∃ j < s.maxSessions, (s.workers j).toExecute = false
  | _ => True

instance (s : Dispatch) : (a : DispatchLabel) → Decidable (HasIdle s a)
  | .main => inferInstanceAs (Decidable (_ → ∃ j < s.maxSessions, _))
  | .write _ | .endOfFile | .worker _ | .wake _ => isTrue trivial

theorem Inv.step {a : DispatchLabel} (h : Inv s g) (hok : HasIdle s a) (hs : s.step a = some s') :
    ∃ g', Inv s' g' := by
  cases a with
  | write r =>
    simp only [Dispatch.step, Option.some.injEq] at hs
    subst hs
    exact ⟨g, h.main, h.pipeLock, h.capacity, h.size, h.placed, h.scan, h.journal.write r⟩
  | main => exact h.mainStep (fun _ hm => hok (hm ▸ rfl)) hs
  | endOfFile =>
    obtain ⟨_, hs⟩ := Option.ite_none_right_eq_some.mp hs
    cases hm : s.main with
    | readFirst =>
      simp only [hm, Option.some.injEq] at hs
      exact ⟨g, hs ▸ h⟩
    | readNext =>
      simp only [hm, Option.some.injEq] at hs
      have hat := h.main
      rw [hm] at hat
      cases hat
      have hpipe : s.pipeLock = true := by
        rw [h.pipeLock, hm]
        rfl
      exact ⟨.done, hs ▸ h.mainIdle rfl nofun (hm ▸ rfl) .endOfFile hpipe⟩
    | _ => simp only [hm, reduceCtorEq] at hs
  | worker w =>
    obtain ⟨_, hs⟩ := Option.ite_none_right_eq_some.mp hs
    exact h.workerStep hs
  | wake w =>
    obtain ⟨⟨_, hpc⟩, hs⟩ := Option.ite_none_right_eq_some.mp hs
    exact ⟨g, Option.some.inj hs ▸ h.setWorker ((h.placed w).wake hpc) id⟩

theorem inv_initial (hmax : maxSessions ≤ intMax) : Inv (.initial maxSessions) .done where
  main := .readFirst
  pipeLock := rfl
  capacity := UInt64.toNat_ofNat_of_lt' (hmax.trans_lt (by decide))
  size := rfl
  placed w := by
    refine ⟨iff_of_false nofun id, iff_of_false nofun nofun, False.elim, nofun, ?_, nofun, nofun,
      nofun, nofun, fun _ => nofun⟩
    exact iff_of_false (Worker.not_owns rfl) nofun
  scan := nofun
  journal := ⟨⟨[], rfl, rfl⟩, List.nil_prefix, rfl, rfl⟩

/-- In some stage of the last request the invariant holds. -/
def Staged (s : Dispatch) : Prop := ∃ g, Inv s g

theorem staged_of_reaches (hmax : maxSessions ≤ intMax)
    (hr : Reaches Dispatch.step HasIdle (.initial maxSessions) s) : Staged s := by
  refine hr.invariant ⟨.done, inv_initial hmax⟩ ?_
  rintro u a v ⟨g, hg⟩ hok ha
  exact hg.step hok ha

/-- What the hand-over of requests guarantees in a state. -/
structure HandsOver (s : Dispatch) : Prop where
  oneReader : ∀ t t', s.Reading t → s.Reading t' → t = t'
  /-- At a read of `main` the FIFO starts with a whole request. -/
  boundary : s.Reading none →
    s.fifo = (s.written.drop s.opcodes.length).flatMap WireRequest.bytes
  opcodes : s.opcodes <+: s.written.map WireRequest.opcode
  /-- The sessions are those of the dispatched requests, in order: each is run once, by the
  chosen worker and with the opcode that `main` has read. -/
  executed : s.executed <+: s.dispatched
  dispatched : s.dispatched.map Prod.snd <+: s.opcodes
  /-- At a read of `main` every request has its session. -/
  caughtUp : s.Reading none → s.executed = s.dispatched ∧ s.dispatched.map Prod.snd = s.opcodes
  /-- A request without its session is the last one, and `main` or its worker can take a step. -/
  progress : ∀ w opcode rest, s.dispatched = s.executed ++ (w, opcode) :: rest →
    rest = [] ∧ ((s.step .main).isSome = true ∨ (s.step (.worker w)).isSome = true)
  /-- A read of `process_entry` finds all its bytes. -/
  complete : ∀ w n reads, (s.workers w).pc = .entry (n :: reads) → n ≤ s.fifo.length
  notEmpty : ∀ w, (s.workers w).pc = .dequeue → s.queue.currentSize ≠ 0
  notFull : ∀ opcode w, s.main = .enqueue opcode w → s.queue.currentSize < s.queue.capacity

theorem Inv.done_of_reading (h : Inv s g) (hr : s.Reading none) : g = .done := by
  have hat := h.main
  rcases hr with hm | hm <;> rw [hm] at hat <;> cases hat <;> rfl

/-- A worker that reads the FIFO has the request. -/
theorem Inv.entered_of_entry {w : Nat} {reads : List Nat} (h : Inv s g)
    (hpc : (s.workers w).pc = .entry reads) : g = .entered w reads := by
  obtain ⟨_, hg, hat⟩ := h.of_executing (w := w) (hpc ▸ trivial) (hpc ▸ trivial)
  rw [hpc] at hat
  cases hat
  cases hg
  rfl

theorem Inv.oneReader (h : Inv s g) (t t' : Option Nat) (ht : s.Reading t) (ht' : s.Reading t') :
    t = t' := by
  cases t with
  | none =>
    cases t' with
    | none => rfl
    | some w =>
      obtain ⟨n, reads, hpc⟩ := ht'
      cases (h.done_of_reading ht).symm.trans (h.entered_of_entry hpc)
  | some w =>
    obtain ⟨n, reads, hpc⟩ := ht
    have hg := h.entered_of_entry hpc
    cases t' with
    | none => cases hg.symm.trans (h.done_of_reading ht')
    | some w' =>
      obtain ⟨n', reads', hpc'⟩ := ht'
      cases hg.symm.trans (h.entered_of_entry hpc')
      rfl

/-- A worker that the main thread waits for can take a step. -/
theorem Inv.worker_step_of_lock {w : Nat} (h : Inv s g) (hw : w < s.maxSessions)
    (hflag : (s.workers w).toExecute = false) (hlock : (s.workers w).lock = some .worker) :
    (s.step (.worker w)).isSome = true := by
  have hholds := (h.placed w).lockWorker.mp hlock
  have hexecuting : ¬ (s.workers w).pc.Executing := fun he =>
    absurd (hflag.symm.trans ((h.placed w).executing he)) nofun
  simp only [Dispatch.step, hw, if_true, Dispatch.workerStep]
  cases hpc : (s.workers w).pc with
  | test => simp only [hflag, Bool.false_eq_true, if_false, Option.isSome_some]
  | unlock => rfl
  | lock | waiting | woken =>
    rw [hpc] at hholds
    exact hholds.elim
  | _ => exact absurd (hpc ▸ trivial) hexecuting

/-- While `main` waits for the lock of the FIFO, the owner of the request can take a step. -/
theorem Inv.owner_step {w : Nat} (h : Inv s g) (hm : s.main = .relock) (hg : g.owner = some w)
    (hbytes : ∀ n reads, (s.workers w).pc = .entry (n :: reads) → s.fifo ≠ []) :
    (s.step (.worker w)).isSome = true := by
  have hp := h.placed w
  obtain ⟨hw, hat⟩ := hp.ownerAt hg
  have hnot : (s.workers w).lock ≠ some .main := fun hl => by
    have hholds := hp.lockMain.mp hl
    rw [hm] at hholds
    cases hholds
  -- a lock that its worker does not hold is free
  have hfree : ¬ (s.workers w).pc.HoldsLock → (s.workers w).lock = none := by
    intro hpc
    cases hl : (s.workers w).lock with
    | none => rfl
    | some owner =>
      cases owner with
      | main => exact absurd hl hnot
      | worker => exact absurd (hp.lockWorker.mp hl) hpc
  simp only [Dispatch.step, hw, if_true, Dispatch.workerStep]
  generalize hpc : (s.workers w).pc = pc at hat hfree
  cases hat with
  | lock opcode v | woken opcode v => simp only [hfree id, if_true, Option.isSome_some]
  | test opcode v =>
    simp only [(hp.owner.mpr hg).1, if_true, Option.isSome_some]
  | waiting opcode v =>
    obtain ⟨c, hc⟩ := hp.signalled hg hpc
    cases hm.symm.trans hc
  | dequeue opcode v =>
    obtain ⟨hne, _⟩ := h.dequeue hpc
    simp only [hne, ne_eq, not_false_eq_true, if_true, Option.isSome_some]
  | switch opcode v => rfl
  | entry v reads =>
    cases reads with
    | nil => rfl
    | cons n reads =>
      simp only [hbytes n reads hpc, ne_eq, not_false_eq_true, if_true, Option.isSome_some]

theorem Inv.progress {w : Nat} {opcode : UInt8} (h : Inv s g) (hg : g.pending = [(w, opcode)]) :
    (s.step .main).isSome = true ∨ (s.step (.worker w)).isSome = true := by
  have hat := h.main
  generalize hm : s.main = m at hat
  have hstep : s.step .main = s.mainStep := rfl
  cases hat with
  | lockWorker c v =>
    cases hg
    cases hl : (s.workers w).lock with
    | none =>
      apply Or.inl
      simp only [hstep, Dispatch.mainStep, hm, hl, if_true, Option.isSome_some]
    | some owner =>
      cases owner with
      | main =>
        have hholds := (h.placed w).lockMain.mp hl
        rw [hm] at hholds
        cases hholds
      | worker =>
        obtain ⟨hw, hflag⟩ := (h.placed w).chosen (hm ▸ rfl)
        exact Or.inr (h.worker_step_of_lock hw hflag hl)
  | setOpcode c v | setExecute c v | signal c v | unlockWorker c v =>
    apply Or.inl
    simp only [hstep, Dispatch.mainStep, hm, Option.isSome_some]
  | lockPipe c v =>
    apply Or.inl
    simp only [hstep, Dispatch.mainStep, hm, (h.lockPipe hm).1, Bool.false_eq_true, if_false,
      Option.isSome_some]
  | relockFlagged c v | relockDequeued c v =>
    cases hg
    refine Or.inr (h.owner_step hm rfl ?_)
    intro n reads hpc
    cases h.entered_of_entry hpc
  | _ => cases hg

theorem Inv.handsOver (h : Inv s g) : HandsOver s := by
  refine ⟨h.oneReader, ?_, h.journal.read, ?_, ?_, ?_, ?_, ?_, ?_, ?_⟩
  · intro hr
    cases h.done_of_reading hr
    obtain ⟨entry, hlen, hfifo⟩ := h.journal.fifo
    rw [List.eq_nil_of_length_eq_zero hlen] at hfifo
    exact hfifo
  · rw [h.journal.executed]
    exact List.prefix_append _ _
  · rw [h.journal.dispatched]
    exact List.prefix_append _ _
  · intro hr
    cases h.done_of_reading hr
    exact ⟨(h.journal.executed.trans (List.append_nil _)).symm,
      (h.journal.dispatched.trans (List.append_nil _)).symm⟩
  · intro w opcode rest hrest
    have hpending : g.pending = (w, opcode) :: rest :=
      List.append_cancel_left (h.journal.executed.symm.trans hrest)
    have hnil : rest = [] := by
      cases g <;> cases hpending <;> rfl
    subst hnil
    exact ⟨rfl, h.progress hpending⟩
  · intro w n reads hpc
    cases h.entered_of_entry hpc
    obtain ⟨entry, hlen, hfifo⟩ := h.journal.fifo
    have hbytes : (RequestStage.entered w (n :: reads)).bytesLeft = n + reads.sum := rfl
    rw [hfifo, List.length_append, hlen, hbytes]
    omega
  · exact fun w hpc => (h.dequeue hpc).1
  · exact fun opcode w hm => (h.enqueue hm).1

/-- In every run of any number of workers in which a worker is free whenever `main` starts to
search for one, requests are handed over one at a time, each whole and to one worker. -/
theorem handsOver_of_reaches (hmax : maxSessions ≤ intMax)
    (hr : Reaches Dispatch.step HasIdle (.initial maxSessions) s) : HandsOver s := by
  obtain ⟨g, hg⟩ := staged_of_reaches hmax hr
  exact hg.handsOver

/-- A request with empty strings. -/
def emptyRequest : WireRequest :=
  { opcode := opCodePublisher, entry := List.replicate 290 0, dispatched := by decide
    length := List.length_replicate.trans (by decide) }

/-- One worker gets a request and reads it. -/
def oneRequest : List DispatchLabel :=
  .write emptyRequest :: (List.replicate 9 .main ++ List.replicate 9 (.worker 0) ++ [.main])

theorem run_oneRequest :
    (runLabels (guarded Dispatch.step HasIdle) (.initial 1) oneRequest).map (fun s =>
      (s.main, s.executed, s.fifo)) = some (.readNext, [(0, opCodePublisher)], []) := by
  decide +kernel

theorem oneRequest_handsOver :
    ∃ s, runLabels (guarded Dispatch.step HasIdle) (.initial 1) oneRequest = some s ∧
      s.executed = [(0, opCodePublisher)] ∧ HandsOver s := by
  obtain ⟨s, hs, hrun⟩ := Option.map_eq_some_iff.mp run_oneRequest
  simp only [Prod.mk.injEq] at hrun
  exact ⟨s, hs, hrun.2.1, handsOver_of_reaches (by decide) (reaches_of_guarded hs)⟩

end MessageBroker.Broker
