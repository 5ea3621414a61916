import MessageBroker.Broker.Dispatch
import MessageBroker.ProducerConsumer.Slots

/-!
# The buffer of the queue

`init_server` creates the queue for `max_sessions` requests and gives it a buffer of
`max_sessions` bytes. Here the threads of the broker use the queue by the calls that
`pcq_enqueue` and `pcq_dequeue` make, clients write any bytes to the register FIFO, and
the reads of `process_entry` may find its end or fail. The lock of the FIFO lets `main`
read the next opcode only when the worker before has taken its element off the queue,
so the threads enter the queue one at a time and use slot `0` alone.
-/

namespace MessageBroker.Broker

open Transition ProducerConsumer

/-- `sizeof(void *)`. -/
def sizeofPointer : Nat := 8

/-- The threads of the broker, which use `queue` in place of the queue of `threads`. Thread `0` of
the queue is the main thread, the others are the workers. -/
structure QueueUsers (n : Nat) where
  threads : Dispatch
  queue : Threads Int (n + 1)
  /-- The size of the allocation behind `pcq_buffer`. -/
  bufferBytes : Nat
  /-- `function` has found no worker and queues `&workers[-1]`. -/
  outside : Bool

inductive QueueUserLabel (n : Nat)
  /-- A client writes bytes to the register FIFO. -/
  | write (bytes : List UInt8)
  | main
  /-- A read of `main` finds the FIFO empty and without writers. -/
  | endOfFile
  | worker (w : Fin n)
  /-- A read of `process_entry` finds the FIFO empty and without writers. -/
  | entryEnd (w : Fin n)
  /-- A read of `process_entry` fails. -/
  | entryFails (w : Fin n)
  /-- A worker wakes up without a signal. -/
  | wake (w : Fin n)
  /-- A thread takes a step inside the queue. -/
  | queue (a : ThreadLabel Int (n + 1))

namespace QueueUsers

variable {n : Nat}

/-- The state behind `init_server`. -/
def initServer (maxSessions : Nat) : QueueUsers maxSessions :=
  { threads := .initial maxSessions
    queue := .initial (.ofNat maxSessions)
    -- the argument of `malloc` is not multiplied with the size of a pointer
    bufferBytes := maxSessions % 2 ^ 32
    outside := false }

def setThreads (b : QueueUsers n) (s : Dispatch) : QueueUsers n := { b with threads := s }

/-- Thread `t` calls a function of the queue and goes on in `s` when it returns. -/
def calls (b : QueueUsers n) (t : Fin (n + 1)) (op : Op Int) (s : Dispatch) :
    Option (QueueUsers n) :=
  (b.queue.step (.call t op)).map fun queue => { b with queue := queue, threads := s }

def mainStep (b : QueueUsers n) : Option (QueueUsers n) :=
  match b.threads.main with
  | .scan _ i =>
    if i < b.threads.maxSessions then b.threads.mainStep.map b.setThreads
    else { b with outside := true }.calls 0 (.enqueue (-1)) b.threads
  | .enqueue opcode i =>
    b.calls 0 (.enqueue i) { b.threads with
      main := .lockWorker opcode i
      dispatched := b.threads.dispatched ++ [(i, opcode)] }
  | _ => b.threads.mainStep.map b.setThreads

/-- Worker `w` goes on at `pc`. -/
def moveWorker (b : QueueUsers n) (w : Fin n) (pc : WorkerPc) : Dispatch :=
  b.threads.setWorker w { b.threads.workers w with pc := pc }

def workerStep (b : QueueUsers n) (w : Fin n) : Option (QueueUsers n) :=
  match (b.threads.workers w).pc with
  | .dequeue => b.calls w.succ .dequeue (b.moveWorker w .switch)
  | _ => (b.threads.workerStep w).map b.setThreads

/-- A read of `process_entry` that gives no bytes. The results of the reads of the separators are
not looked at, and behind a failed read of a name the lock of the FIFO is not released. -/
def entryStep (b : QueueUsers n) (w : Fin n) (failed : Bool) : Option (QueueUsers n) :=
  match (b.threads.workers w).pc with
  | .entry (bytes :: reads) =>
    if failed then
      some (b.setThreads (b.moveWorker w (if bytes = 1 then .entry reads else .session)))
    else if b.threads.fifo = [] then some (b.setThreads (b.moveWorker w (.entry reads)))
    else none
  | _ => none

/-- What the main thread does with `&workers[-1]` behind `pcq_enqueue` is not defined. -/
def mainRuns (b : QueueUsers n) : Bool := (b.queue.threads 0).isNone && !b.outside

/-- A thread inside a function of the queue makes no other step. -/
def step (b : QueueUsers n) : QueueUserLabel n → Option (QueueUsers n)
  | .write bytes => some (b.setThreads { b.threads with fifo := b.threads.fifo ++ bytes })
  | .main => if b.mainRuns then b.mainStep else none
  | .endOfFile => if b.mainRuns then (b.threads.step .endOfFile).map b.setThreads else none
  | .worker w => if (b.queue.threads w.succ).isNone then b.workerStep w else none
  | .entryEnd w => if (b.queue.threads w.succ).isNone then b.entryStep w false else none
  | .entryFails w => if (b.queue.threads w.succ).isNone then b.entryStep w true else none
  | .wake w =>
    if (b.queue.threads w.succ).isNone then (b.threads.step (.wake w)).map b.setThreads else none
  | .queue a =>
    if a.isCall then none else (b.queue.step a).map fun queue => { b with queue := queue }

/-- Every slot that a function of the queue is about to access lies in the buffer. -/
def InBuffer (b : QueueUsers n) : Prop :=
  ∀ t, ∀ i ∈ b.queue.slots t, (i + 1) * sizeofPointer ≤ b.bufferBytes

end QueueUsers

/-! ### Whose turn it is -/

/-- The worker has a request and has not come to the end of `process_entry`. -/
def Worker.Owes (x : Worker) : Prop :=
  x.toExecute = true ∧ x.pc ≠ .session ∧ x.pc ≠ .clear

/-- The worker has called `pcq_dequeue` for its request. -/
def WorkerPc.served : WorkerPc → Bool
  | switch | entry _ => true
  | _ => false

/-- The main thread has called `pcq_enqueue` and not set the flag of a worker yet. -/
def MainPc.queued : MainPc → Bool
  | lockWorker .. | setOpcode .. | lockPipe .. | setExecute .. => true
  | _ => false

/-- The main thread is on its way to the lock of the register FIFO. -/
def MainPc.flagged : MainPc → Bool
  | signal .. | unlockWorker .. | relock => true
  | _ => false

/-- The lock of a worker, its opcode or a wake-up makes no difference. -/
def Worker.Alike (x y : Worker) : Prop :=
  y.toExecute = x.toExecute ∧ (y.pc = x.pc ∨ x.pc = .waiting ∧ y.pc = .woken)

namespace Worker.Alike

variable {x y : Worker}

theorem executing (h : x.Alike y) (hy : y.pc.Executing) : x.pc.Executing := by
  obtain ⟨_, hpc | ⟨_, hpc⟩⟩ := h
  · rwa [hpc] at hy
  · rw [hpc] at hy
    exact hy.elim

theorem owes (h : x.Alike y) : y.Owes ↔ x.Owes := by
  obtain ⟨hflag, hpc | ⟨hx, hy⟩⟩ := h
  · rw [Worker.Owes, Worker.Owes, hflag, hpc]
  · simp [Worker.Owes, hflag, hx, hy]

theorem served (h : x.Alike y) : y.pc.served = x.pc.served := by
  obtain ⟨_, hpc | ⟨hx, hy⟩⟩ := h
  · rw [hpc]
  · rw [hx, hy]
    rfl

end Worker.Alike

namespace Dispatch

variable {n : Nat} {s s' : Dispatch} {turn : Option (Fin n)} {w : Fin n} {x : Worker}

/-- The next to use the queue is worker `turn`, or the main thread when there is none. -/
structure HasTurn (s : Dispatch) (turn : Option (Fin n)) : Prop where
  maxSessions : s.maxSessions = n
  executing : ∀ w : Fin n, (s.workers w).pc.Executing → (s.workers w).toExecute = true
  owes : ∀ w : Fin n, (s.workers w).Owes ↔ turn = some w
  chosen : ∀ i, s.main.chosen = some i → i < n ∧ (s.workers i).toExecute = false
  setExecute : ∀ opcode i, s.main = .setExecute opcode i → s.pipeLock = true
  flagged : turn.isSome → s.main.flagged = true ∧ s.pipeLock = true

/-- The elements in the queue while nobody is inside it. -/
def pending (s : Dispatch) : Option (Fin n) → Nat
  | none => if s.main.queued then 1 else 0
  | some w => if (s.workers w).pc.served then 0 else 1

/-- The thread of the queue that has the turn. -/
def holder : Option (Fin n) → Fin (n + 1)
  | none => 0
  | some w => w.succ

/-- The turn stays where it is, or thread `t` of the queue passes it on. -/
def Passes (s s' : Dispatch) (turn : Option (Fin n)) (t : Fin (n + 1)) : Prop :=
  ∃ turn', HasTurn s' turn' ∧ s'.pending turn' = s.pending turn ∧ (turn' = turn ∨ holder turn = t)

theorem HasTurn.eq_none (h : HasTurn s turn) (hm : s.main.flagged = false) : turn = none := by
  cases turn with
  | none => rfl
  | some w => exact absurd ((h.flagged rfl).1.symm.trans hm) nofun

theorem HasTurn.keeps (h : HasTurn s turn) (hmax : s'.maxSessions = s.maxSessions)
    (hworkers : ∀ w, (s.workers w).Alike (s'.workers w))
    (hchosen : ∀ i, s'.main.chosen = some i → i < n ∧ (s'.workers i).toExecute = false)
    (hset : ∀ opcode i, s'.main = .setExecute opcode i → s'.pipeLock = true)
    (hflagged : turn.isSome → s'.main.flagged = true ∧ s'.pipeLock = true) : HasTurn s' turn where
  maxSessions := hmax.trans h.maxSessions
  executing w hpc := (hworkers w).1.trans (h.executing w ((hworkers w).executing hpc))
  owes w := (hworkers w).owes.trans (h.owes w)
  chosen := hchosen
  setExecute := hset
  flagged := hflagged

/-- A step of the main thread while it has the turn. -/
theorem HasTurn.mainMove (h : HasTurn s (none : Option (Fin n)))
    (hmax : s'.maxSessions = s.maxSessions) (hworkers : ∀ w, (s.workers w).Alike (s'.workers w))
    (hchosen : ∀ i, s'.main.chosen = some i → i < n ∧ (s'.workers i).toExecute = false)
    (hset : ∀ opcode i, s'.main = .setExecute opcode i → s'.pipeLock = true)
    (hqueued : s'.main.queued = s.main.queued) : Passes s s' (none : Option (Fin n)) 0 := by
  refine ⟨none, h.keeps hmax hworkers hchosen hset nofun, ?_, Or.inl rfl⟩
  rw [pending, pending, hqueued]

/-- A step of the main thread behind the flag. -/
theorem HasTurn.flaggedMove (h : HasTurn s turn) (hmax : s'.maxSessions = s.maxSessions)
    (hworkers : ∀ w, (s.workers w).Alike (s'.workers w)) (hm : s.main.flagged = true)
    (hm' : s'.main.flagged = true) (hlock : s'.pipeLock = s.pipeLock) : Passes s s' turn 0 := by
  have hchosen : ∀ {m : MainPc}, m.flagged = true → m.chosen = none ∧ m.queued = false ∧
      ∀ opcode i, m ≠ .setExecute opcode i := by
    intro m hm
    cases m with
    | signal _ _ | unlockWorker _ _ | relock => exact ⟨rfl, rfl, nofun⟩
    | _ => cases hm
  refine ⟨turn, h.keeps hmax hworkers ?_ ?_ ?_, ?_, Or.inl rfl⟩
  · intro i hi
    cases (hchosen hm').1.symm.trans hi
  · exact fun opcode i he => absurd he ((hchosen hm').2.2 opcode i)
  · exact fun ht => ⟨hm', hlock.trans (h.flagged ht).2⟩
  · cases turn with
    | none => rw [pending, pending, (hchosen hm).2.1, (hchosen hm').2.1]
    | some w => rw [pending, pending, (hworkers w).served]

theorem alike_setWorker {i : Nat} (hx : (s.workers i).Alike x) (w : Nat) :
    (s.workers w).Alike (Function.update s.workers i x w) := by
  by_cases hw : w = i
  · rw [hw, Function.update_self]
    exact hx
  · rw [Function.update_of_ne hw]
    exact ⟨rfl, Or.inl rfl⟩

theorem flagged_afterOpcode (c : UInt8) : (afterOpcode c).queued = false ∧
    (afterOpcode c).chosen = none ∧ ∀ opcode i, afterOpcode c ≠ .setExecute opcode i := by
  unfold afterOpcode
  split
  · exact ⟨rfl, rfl, nofun⟩
  · exact ⟨rfl, rfl, nofun⟩

/-- `main` goes on with an opcode, or to open the FIFO again. -/
theorem HasTurn.opcodeMove (h : HasTurn s (none : Option (Fin n)))
    (hmax : s'.maxSessions = s.maxSessions) (hworkers : s'.workers = s.workers)
    (hm : s'.main = .readFirst ∨ s'.main = .readNext ∨ (∃ c, s'.main = .unlockPipe c) ∨
      ∃ c, s'.main = afterOpcode c)
    (hqueued : s.main.queued = false) : Passes s s' (none : Option (Fin n)) 0 := by
  have hm' : s'.main.queued = false ∧ s'.main.chosen = none ∧
      ∀ opcode i, s'.main ≠ .setExecute opcode i := by
    obtain hm | hm | ⟨c, hm⟩ | ⟨c, hm⟩ := hm
    · rw [hm]
      exact ⟨rfl, rfl, nofun⟩
    · rw [hm]
      exact ⟨rfl, rfl, nofun⟩
    · rw [hm]
      exact ⟨rfl, rfl, nofun⟩
    · rw [hm]
      exact flagged_afterOpcode c
  obtain ⟨hq, hchosen, hset⟩ := hm'
  refine h.mainMove hmax ?_ ?_ ?_ (hq.trans hqueued.symm)
  · intro w
    rw [hworkers]
    exact ⟨rfl, Or.inl rfl⟩
  · intro i hi
    cases hchosen.symm.trans hi
  · exact fun opcode i he => absurd he (hset opcode i)

/-- A step of the main thread on the way to the flag of worker `i`. -/
theorem HasTurn.chosenMove {i : Nat} {m : MainPc} (h : HasTurn s (none : Option (Fin n)))
    (hx : (s.workers i).Alike x) (hi : s.main.chosen = some i) (hm : m.chosen = some i)
    (hset : ∀ opcode i, m ≠ .setExecute opcode i) (hqueued : m.queued = s.main.queued) :
    Passes s ({ s with main := m }.setWorker i x) (none : Option (Fin n)) 0 := by
  apply h.mainMove
  · rfl
  · exact fun w => alike_setWorker hx w
  · intro j hj
    cases hm.symm.trans hj
    obtain ⟨hlt, hflag⟩ := h.chosen i hi
    refine ⟨hlt, ?_⟩
    show (Function.update s.workers i x i).toExecute = false
    rw [Function.update_self, hx.1, hflag]
  · exact fun opcode j he => absurd he (hset opcode j)
  · exact hqueued

/-- The flag of the chosen worker gives it the turn. -/
theorem HasTurn.setExecute_move {opcode : UInt8} {i : Nat}
    (h : HasTurn s (none : Option (Fin n))) (hm : s.main = .setExecute opcode i) :
    Passes s ({ s with main := .signal opcode i }.setWorker i
      { s.workers i with toExecute := true }) (none : Option (Fin n)) 0 := by
  obtain ⟨hlt, hflag⟩ := h.chosen i (by rw [hm]; rfl)
  have hexecuting : ¬ (s.workers i).pc.Executing := fun he =>
    absurd (hflag.symm.trans (h.executing ⟨i, hlt⟩ he)) nofun
  have hself : Function.update s.workers i { s.workers i with toExecute := true } i =
      { s.workers i with toExecute := true } := Function.update_self ..
  have hothers : ∀ {u : Nat}, u ≠ i →
      Function.update s.workers i { s.workers i with toExecute := true } u = s.workers u :=
    fun hu => Function.update_of_ne hu ..
  refine ⟨some ⟨i, hlt⟩, ⟨h.maxSessions, ?_, ?_, nofun, nofun, ?_⟩, ?_, Or.inr rfl⟩
  · intro w
    show (Function.update s.workers i _ w).pc.Executing →
      (Function.update s.workers i _ w).toExecute = true
    by_cases hw : (w : Nat) = i
    · rw [hw, hself]
      exact fun _ => rfl
    · rw [hothers hw]
      exact h.executing w
  · intro w
    show (Function.update s.workers i _ w).Owes ↔ _
    by_cases hw : (w : Nat) = i
    · subst hw
      rw [hself]
      refine ⟨fun _ => rfl, fun _ => ⟨rfl, ?_, ?_⟩⟩
      · intro hpc
        exact hexecuting (by rw [hpc]; trivial)
      · intro hpc
        exact hexecuting (by rw [hpc]; trivial)
    · rw [hothers hw, h.owes w]
      refine ⟨nofun, fun he => ?_⟩
      cases he
      exact absurd rfl hw
  · exact fun _ => ⟨rfl, h.setExecute opcode i hm⟩
  · have hserved : (s.workers i).pc.served = false := by
      cases hpc : (s.workers i).pc with
      | switch | entry reads => exact absurd (by rw [hpc]; trivial) hexecuting
      | _ => rfl
    show (if (Function.update s.workers i _ i).pc.served then 0 else 1) =
      if s.main.queued then 1 else 0
    rw [hself, hm]
    simp [hserved, MainPc.queued]

theorem HasTurn.mainStep (h : HasTurn s turn) (hs : s.mainStep = some s')
    (hm : ∀ opcode i, s.main ≠ .enqueue opcode i) : Passes s s' turn 0 := by
  cases outcome_of_mainStep hs with
  | readFirst c rest hpc =>
    obtain rfl := h.eq_none (by rw [hpc]; rfl)
    exact h.opcodeMove rfl rfl (Or.inr (Or.inr (Or.inr ⟨c, rfl⟩))) (by rw [hpc]; rfl)
  | scan opcode i hpc hi =>
    obtain rfl := h.eq_none (by rw [hpc]; rfl)
    cases hflag : (s.workers i).toExecute with
    | true =>
      refine h.mainMove rfl (fun w => ⟨rfl, Or.inl rfl⟩) nofun nofun ?_
      rw [hpc]
      rfl
    | false =>
      refine h.mainMove rfl (fun w => ⟨rfl, Or.inl rfl⟩) ?_ nofun ?_
      · intro j hj
        cases hj
        exact ⟨h.maxSessions ▸ hi, hflag⟩
      · rw [hpc]
        rfl
  | enqueue opcode i hpc => exact absurd hpc (hm opcode i)
  | lockWorker opcode i hpc =>
    obtain rfl := h.eq_none (by rw [hpc]; rfl)
    exact h.chosenMove ⟨rfl, Or.inl rfl⟩ (by rw [hpc]; rfl) rfl nofun (by rw [hpc]; rfl)
  | setOpcode opcode i hpc =>
    obtain rfl := h.eq_none (by rw [hpc]; rfl)
    exact h.chosenMove ⟨rfl, Or.inl rfl⟩ (by rw [hpc]; rfl) rfl nofun (by rw [hpc]; rfl)
  | lockPipe opcode i hpc =>
    obtain rfl := h.eq_none (by rw [hpc]; rfl)
    refine h.mainMove rfl (fun w => ⟨rfl, Or.inl rfl⟩) ?_ (fun _ _ _ => rfl) ?_
    · intro j hj
      exact h.chosen j (by rw [hpc]; exact hj)
    · rw [hpc]
      rfl
  | setExecute opcode i hpc =>
    obtain rfl := h.eq_none (by rw [hpc]; rfl)
    exact h.setExecute_move hpc
  | signal opcode i hpc =>
    refine h.flaggedMove rfl (fun w => alike_setWorker ?_ w) (by rw [hpc]; rfl) rfl rfl
    by_cases hx : (s.workers i).pc = .waiting
    · refine ⟨rfl, Or.inr ⟨hx, ?_⟩⟩
      rw [Worker.signalled, if_pos hx]
    · refine ⟨rfl, Or.inl ?_⟩
      rw [Worker.signalled, if_neg hx]
  | unlockWorker opcode i hpc =>
    refine h.flaggedMove rfl (fun w => alike_setWorker ?_ w) (by rw [hpc]; rfl) rfl rfl
    exact ⟨rfl, Or.inl rfl⟩
  | relock hpc hfree =>
    -- the FIFO is locked as long as a worker has the turn
    have hnone : turn = none := by
      cases turn with
      | none => rfl
      | some w => cases hfree.symm.trans (h.flagged rfl).2
    subst hnone
    exact h.opcodeMove rfl rfl (Or.inr (Or.inl rfl)) (by rw [hpc]; rfl)
  | readNext c rest hpc =>
    obtain rfl := h.eq_none (by rw [hpc]; rfl)
    exact h.opcodeMove rfl rfl (Or.inr (Or.inr (Or.inl ⟨some c, rfl⟩))) (by rw [hpc]; rfl)
  | unlockPipe read hpc =>
    obtain rfl := h.eq_none (by rw [hpc]; rfl)
    have hqueued : s.main.queued = false := by
      rw [hpc]
      rfl
    cases read with
    | none => exact h.opcodeMove rfl rfl (Or.inl rfl) hqueued
    | some c => exact h.opcodeMove rfl rfl (Or.inr (Or.inr (Or.inr ⟨c, rfl⟩))) hqueued

/-- A worker that executes its request before the end of `process_entry` has the turn. -/
theorem HasTurn.eq_some (h : HasTurn s turn) (hpc : (s.workers w).pc.served = true) :
    turn = some w := by
  apply (h.owes w).mp
  cases hx : (s.workers w).pc with
  | switch | entry reads => exact ⟨h.executing w (by rw [hx]; trivial), by simp [hx], by simp [hx]⟩
  | _ =>
    rw [hx] at hpc
    cases hpc

/-- A step of a worker that does not change what it owes. -/
theorem HasTurn.workerKeeps (h : HasTurn s turn) (hmax : s'.maxSessions = s.maxSessions)
    (hmain : s'.main = s.main) (hlock : s'.pipeLock = s.pipeLock)
    (hworkers : s'.workers = Function.update s.workers w x)
    (hflag : x.toExecute = true → (s.workers w).toExecute = true)
    (hexecuting : x.pc.Executing → x.toExecute = true) (howes : x.Owes ↔ (s.workers w).Owes) :
    HasTurn s' turn := by
  have hself : s'.workers w = x := by rw [hworkers, Function.update_self]
  have hothers : ∀ {u : Nat}, u ≠ w → s'.workers u = s.workers u := by
    intro u hu
    rw [hworkers, Function.update_of_ne hu]
  refine ⟨hmax.trans h.maxSessions, ?_, ?_, ?_, ?_, ?_⟩
  · intro u
    by_cases hu : (u : Nat) = w
    · rw [hu, hself]
      exact hexecuting
    · rw [hothers hu]
      exact h.executing u
  · intro u
    by_cases hu : (u : Nat) = w
    · rw [hu, hself, howes, h.owes w, Fin.ext hu]
    · rw [hothers hu]
      exact h.owes u
  · intro i hi
    rw [hmain] at hi
    obtain ⟨hlt, hfalse⟩ := h.chosen i hi
    refine ⟨hlt, ?_⟩
    by_cases hiw : i = w
    · subst hiw
      rw [hself, ← Bool.not_eq_true]
      exact fun hx => absurd ((hflag hx).symm.trans hfalse) nofun
    · rw [hothers hiw]
      exact hfalse
  · rw [hmain, hlock]
    exact h.setExecute
  · rw [hmain, hlock]
    exact h.flagged

theorem HasTurn.workerMove (h : HasTurn s turn) (hmax : s'.maxSessions = s.maxSessions)
    (hmain : s'.main = s.main) (hlock : s'.pipeLock = s.pipeLock)
    (hworkers : s'.workers = Function.update s.workers w x)
    (hflag : x.toExecute = true → (s.workers w).toExecute = true)
    (hexecuting : x.pc.Executing → x.toExecute = true) (howes : x.Owes ↔ (s.workers w).Owes)
    (hserved : x.pc.served = (s.workers w).pc.served) : Passes s s' turn w.succ := by
  refine ⟨turn, h.workerKeeps hmax hmain hlock hworkers hflag hexecuting howes, ?_, Or.inl rfl⟩
  cases turn with
  | none => rw [pending, pending, hmain]
  | some u =>
    rw [pending, pending, hworkers]
    by_cases hu : (u : Nat) = w
    · rw [hu, Function.update_self, hserved]
    · rw [Function.update_of_ne hu]

/-- The end of `process_entry` gives the turn back to the main thread. -/
theorem HasTurn.release (h : HasTurn s turn) (hmax : s'.maxSessions = s.maxSessions)
    (hmain : s'.main = s.main) (hworkers : s'.workers = Function.update s.workers w x)
    (hserved : (s.workers w).pc.served = true)
    (hx : x.toExecute = (s.workers w).toExecute ∧ (x.pc = .session ∨ x.pc = .clear)) :
    Passes s s' turn w.succ := by
  obtain rfl := h.eq_some hserved
  have hself : s'.workers w = x := by rw [hworkers, Function.update_self]
  have hothers : ∀ {u : Nat}, u ≠ w → s'.workers u = s.workers u := by
    intro u hu
    rw [hworkers, Function.update_of_ne hu]
  have hm : s.main.chosen = none ∧ s.main.queued = false ∧
      ∀ opcode i, s.main ≠ .setExecute opcode i := by
    have hflagged := (h.flagged rfl).1
    cases hpc : s.main with
    | signal _ _ | unlockWorker _ _ | relock => exact ⟨rfl, rfl, nofun⟩
    | _ =>
      rw [hpc] at hflagged
      cases hflagged
  have howes : (s.workers w).toExecute = true := ((h.owes w).mpr rfl).1
  refine ⟨none, ⟨hmax.trans h.maxSessions, ?_, ?_, ?_, ?_, nofun⟩, ?_, Or.inr rfl⟩
  · intro u
    by_cases hu : (u : Nat) = w
    · rw [hu, hself]
      exact fun _ => hx.1.trans howes
    · rw [hothers hu]
      exact h.executing u
  · intro u
    refine ⟨fun hu => ?_, nofun⟩
    by_cases huw : (u : Nat) = w
    · rw [huw, hself] at hu
      exact (hx.2.elim hu.2.1 hu.2.2).elim
    · rw [hothers huw, h.owes u] at hu
      cases hu
      exact absurd rfl huw
  · intro i hi
    rw [hmain] at hi
    cases hm.1.symm.trans hi
  · rw [hmain]
    exact fun opcode i he => absurd he (hm.2.2 opcode i)
  · rw [pending, pending, hmain, hm.2.1, hserved]
    rfl

theorem HasTurn.workerStep (h : HasTurn s turn) (hs : s.workerStep w = some s')
    (hne : (s.workers w).pc ≠ .dequeue) : Passes s s' turn w.succ := by
  have hexecuting := h.executing w
  cases outcome_of_workerStep hs with
  | lock hpc =>
    obtain hpc | hpc := hpc
    · refine h.workerMove rfl rfl rfl rfl id nofun ?_ (by rw [hpc]; rfl)
      simp [Worker.Owes, hpc]
    · refine h.workerMove rfl rfl rfl rfl id nofun ?_ (by rw [hpc]; rfl)
      simp [Worker.Owes, hpc]
  | testSet hpc hflag =>
    refine h.workerMove rfl rfl rfl rfl id (fun _ => hflag) ?_ (by rw [hpc]; rfl)
    simp [Worker.Owes, hpc, hflag]
  | testClear hpc hflag =>
    refine h.workerMove rfl rfl rfl rfl id nofun ?_ (by rw [hpc]; rfl)
    simp [Worker.Owes, hflag]
  | dequeue hpc => exact absurd hpc hne
  | switch hpc =>
    rw [hpc] at hexecuting
    cases hopcode : isDispatched (s.workers w).opcode with
    | true =>
      simp only [if_true]
      refine h.workerMove rfl rfl rfl rfl id (fun _ => hexecuting trivial) ?_ (by rw [hpc]; rfl)
      simp [Worker.Owes, hpc]
    | false =>
      simp only [Bool.false_eq_true, if_false]
      exact h.release rfl rfl rfl (by rw [hpc]; rfl) ⟨rfl, Or.inr rfl⟩
  | readEntry k reads hpc =>
    rw [hpc] at hexecuting
    refine h.workerMove rfl rfl rfl rfl id (fun _ => hexecuting trivial) ?_ (by rw [hpc]; rfl)
    simp [Worker.Owes, hpc]
  | release hpc => exact h.release rfl rfl rfl (by rw [hpc]; rfl) ⟨rfl, Or.inl rfl⟩
  | session hpc =>
    rw [hpc] at hexecuting
    refine h.workerMove rfl rfl rfl rfl id (fun _ => hexecuting trivial) ?_ (by rw [hpc]; rfl)
    simp [Worker.Owes, hpc]
  | clear hpc =>
    refine h.workerMove rfl rfl rfl rfl nofun nofun ?_ (by rw [hpc]; rfl)
    simp [Worker.Owes, hpc]
  | unlock hpc =>
    refine h.workerMove rfl rfl rfl rfl id nofun ?_ (by rw [hpc]; rfl)
    simp [Worker.Owes, hpc]

theorem HasTurn.endOfFile (h : HasTurn s turn) (hs : s.step .endOfFile = some s') :
    Passes s s' turn 0 := by
  obtain ⟨_, hs⟩ := Option.ite_none_right_eq_some.mp hs
  split at hs
  · next hpc =>
    obtain rfl := h.eq_none (by rw [hpc]; rfl)
    cases hs
    exact h.opcodeMove rfl rfl (Or.inl hpc) (by rw [hpc]; rfl)
  · next hpc =>
    obtain rfl := h.eq_none (by rw [hpc]; rfl)
    cases hs
    exact h.opcodeMove rfl rfl (Or.inr (Or.inr (Or.inl ⟨none, rfl⟩))) (by rw [hpc]; rfl)
  · cases hs

theorem HasTurn.wake (h : HasTurn s turn) (hs : s.step (.wake w) = some s') :
    Passes s s' turn w.succ := by
  obtain ⟨⟨_, hpc⟩, ⟨⟩⟩ := Option.ite_none_right_eq_some.mp hs
  refine h.workerMove rfl rfl rfl rfl id nofun ?_ (by rw [hpc]; rfl)
  simp [Worker.Owes, hpc]

end Dispatch

namespace QueueUsers

open Dispatch

variable {n : Nat} {b b' : QueueUsers n} {turn : Option (Fin n)} {w : Fin n}

/-- The thread that has the turn is alone in the queue. -/
structure Inv (b : QueueUsers n) (turn : Option (Fin n)) : Prop where
  hasTurn : b.threads.HasTurn turn
  outside : b.outside = true → turn = none
  sole : b.queue.Sole (holder turn) (if b.outside then 1 else b.threads.pending turn)
  bufferBytes : b.bufferBytes = n % 2 ^ 32

theorem inv_initServer (n : Nat) : Inv (initServer n) none where
  hasTurn := ⟨rfl, fun _ => nofun, fun _ => ⟨nofun, nofun⟩, nofun, nofun, nofun⟩
  outside := nofun
  sole := ⟨fun _ _ => rfl, .outside ⟨rfl, nofun⟩⟩
  bufferBytes := rfl

/-- A step outside of the queue. -/
theorem Inv.passes (h : Inv b turn) {s' : Dispatch} {t : Fin (n + 1)}
    (ht : (b.queue.threads t).isNone = true) (hp : b.threads.Passes s' turn t)
    (hout : b.outside = true → t ≠ 0) : ∃ turn', Inv (b.setThreads s') turn' := by
  obtain ⟨turn', hturn, hpending, hpass⟩ := hp
  have hnone := Option.isNone_iff_eq_none.mp ht
  cases hoa : b.outside with
  | true =>
    obtain rfl := h.outside hoa
    obtain rfl | hzero := hpass
    · refine ⟨none, hturn, fun _ => rfl, ?_, h.bufferBytes⟩
      have hsole := h.sole
      rw [hoa] at hsole
      show b.queue.Sole _ (if b.outside then 1 else _)
      rw [hoa]
      exact hsole
    · exact absurd hzero.symm (hout hoa)
  | false =>
    refine ⟨turn', hturn, fun ho => absurd (hoa.symm.trans ho) nofun, ?_, h.bufferBytes⟩
    show b.queue.Sole _ (if b.outside then 1 else s'.pending turn')
    rw [hpending]
    obtain rfl | hholder := hpass
    · exact h.sole
    · exact h.sole.handOver (hholder ▸ hnone) _

theorem mainRuns_iff :
    b.mainRuns = true ↔ (b.queue.threads 0).isNone = true ∧ b.outside = false := by
  simp [mainRuns]

/-- `main` calls `pcq_enqueue` on the empty queue. -/
theorem Inv.enqueueCalls (h : Inv b none) (hout : b.outside = false)
    (hqueued : b.threads.main.queued = false) {elem : Int} {queue : Threads Int (n + 1)}
    (hq : b.queue.step (.call 0 (.enqueue elem)) = some queue) : queue.Sole 0 1 := by
  have hsole := h.sole
  rw [hout, pending, hqueued] at hsole
  exact Threads.Sole.call hq hsole

theorem Inv.mainStep (h : Inv b turn) (hruns : b.mainRuns = true) (hs : b.mainStep = some b') :
    ∃ turn', Inv b' turn' := by
  obtain ⟨hnone, hout⟩ := mainRuns_iff.mp hruns
  have hpasses : ∀ {s' : Dispatch}, b.threads.mainStep = some s' →
      (∀ opcode i, b.threads.main ≠ .enqueue opcode i) →
      ∃ turn', Inv (b.setThreads s') turn' := fun hs' hm =>
    h.passes hnone (h.hasTurn.mainStep hs' hm) fun ho => absurd (hout.symm.trans ho) nofun
  rw [QueueUsers.mainStep] at hs
  split at hs
  · next opcode i hpc =>
    obtain rfl := h.hasTurn.eq_none (by rw [hpc]; rfl)
    split at hs
    · obtain ⟨s', hs', rfl⟩ := Option.map_eq_some_iff.mp hs
      exact hpasses hs' (by rw [hpc]; exact nofun)
    · obtain ⟨queue, hq, rfl⟩ := Option.map_eq_some_iff.mp hs
      refine ⟨none, h.hasTurn, fun _ => rfl, ?_, h.bufferBytes⟩
      exact h.enqueueCalls hout (by rw [hpc]; rfl) hq
  · next opcode i hpc =>
    obtain rfl := h.hasTurn.eq_none (by rw [hpc]; rfl)
    obtain ⟨queue, hq, rfl⟩ := Option.map_eq_some_iff.mp hs
    have hchosen := h.hasTurn.chosen i (by rw [hpc]; rfl)
    refine ⟨none, ?_, fun _ => rfl, ?_, h.bufferBytes⟩
    · refine h.hasTurn.keeps rfl (fun w => ⟨rfl, Or.inl rfl⟩) ?_ nofun nofun
      intro j hj
      cases hj
      exact hchosen
    · show queue.Sole 0 (if b.outside then 1 else 1)
      rw [ite_self]
      exact h.enqueueCalls hout (by rw [hpc]; rfl) hq
  · next hscan henqueue =>
    obtain ⟨s', hs', rfl⟩ := Option.map_eq_some_iff.mp hs
    exact hpasses hs' henqueue

theorem Inv.workerStep (h : Inv b turn) (hnone : (b.queue.threads w.succ).isNone = true)
    (hs : b.workerStep w = some b') : ∃ turn', Inv b' turn' := by
  rw [QueueUsers.workerStep] at hs
  split at hs
  · next hpc =>
    -- the flag of the worker gives it the turn
    have howes : (b.threads.workers w).Owes :=
      ⟨h.hasTurn.executing w (by rw [hpc]; trivial), by simp [hpc], by simp [hpc]⟩
    obtain rfl := (h.hasTurn.owes w).mp howes
    obtain ⟨queue, hq, rfl⟩ := Option.map_eq_some_iff.mp hs
    have hout : b.outside = false := by
      rw [← Bool.not_eq_true]
      exact fun ho => absurd (h.outside ho) nofun
    have hsole := h.sole
    rw [hout, pending, hpc] at hsole
    refine ⟨some w, ?_, h.outside, ?_, h.bufferBytes⟩
    · refine h.hasTurn.workerKeeps rfl rfl rfl rfl id (fun _ => howes.1) ?_
      simp [Worker.Owes, hpc]
    · show queue.Sole w.succ (if b.outside then 1 else
        if (Function.update b.threads.workers w _ w).pc.served then 0 else 1)
      rw [hout, Function.update_self]
      exact Threads.Sole.call hq hsole
  · next hne =>
    obtain ⟨s', hs', rfl⟩ := Option.map_eq_some_iff.mp hs
    exact h.passes hnone (h.hasTurn.workerStep hs' hne) fun _ => Fin.succ_ne_zero w

theorem Inv.entryStep {failed : Bool} (h : Inv b turn)
    (hnone : (b.queue.threads w.succ).isNone = true) (hs : b.entryStep w failed = some b') :
    ∃ turn', Inv b' turn' := by
  have hpasses : ∀ {pc : WorkerPc}, b.threads.Passes (b.moveWorker w pc) turn w.succ →
      ∃ turn', Inv (b.setThreads (b.moveWorker w pc)) turn' := fun hp =>
    h.passes hnone hp fun _ => Fin.succ_ne_zero w
  rw [QueueUsers.entryStep] at hs
  split at hs
  · next bytes reads hpc =>
    have hnext : b.threads.Passes (b.moveWorker w (.entry reads)) turn w.succ := by
      have hflag := h.hasTurn.executing w (by rw [hpc]; trivial)
      refine h.hasTurn.workerMove rfl rfl rfl rfl id (fun _ => hflag) ?_ (by rw [hpc]; rfl)
      simp [Worker.Owes, hpc]
    split at hs
    · cases hs
      apply hpasses
      split
      · exact hnext
      · exact h.hasTurn.release rfl rfl rfl (by rw [hpc]; rfl) ⟨rfl, Or.inl rfl⟩
    · obtain ⟨_, ⟨⟩⟩ := Option.ite_none_right_eq_some.mp hs
      exact hpasses hnext
  · cases hs

/-- Every step keeps the invariant, with the turn where it has been passed to. -/
theorem Inv.step (h : Inv b turn) {a : QueueUserLabel n} (hs : b.step a = some b') :
    ∃ turn', Inv b' turn' := by
  cases a with
  | write bytes =>
    cases hs
    refine ⟨turn, ?_, h.outside, ?_, h.bufferBytes⟩
    · exact h.hasTurn.keeps rfl (fun w => ⟨rfl, Or.inl rfl⟩) h.hasTurn.chosen
        h.hasTurn.setExecute h.hasTurn.flagged
    · cases turn with
      | none => exact h.sole
      | some w => exact h.sole
  | main =>
    obtain ⟨hruns, hs⟩ := Option.ite_none_right_eq_some.mp hs
    exact h.mainStep hruns hs
  | endOfFile =>
    obtain ⟨hruns, hs⟩ := Option.ite_none_right_eq_some.mp hs
    obtain ⟨hnone, hout⟩ := mainRuns_iff.mp hruns
    obtain ⟨s', hs', rfl⟩ := Option.map_eq_some_iff.mp hs
    exact h.passes hnone (h.hasTurn.endOfFile hs') fun ho => absurd (hout.symm.trans ho) nofun
  | worker w =>
    obtain ⟨hnone, hs⟩ := Option.ite_none_right_eq_some.mp hs
    exact h.workerStep hnone hs
  | entryEnd w | entryFails w =>
    obtain ⟨hnone, hs⟩ := Option.ite_none_right_eq_some.mp hs
    exact h.entryStep hnone hs
  | wake w =>
    obtain ⟨hnone, hs⟩ := Option.ite_none_right_eq_some.mp hs
    obtain ⟨s', hs', rfl⟩ := Option.map_eq_some_iff.mp hs
    exact h.passes hnone (h.hasTurn.wake hs') fun _ => Fin.succ_ne_zero w
  | queue a =>
    obtain ⟨hcall, hs⟩ := Option.ite_none_left_eq_some.mp hs
    obtain ⟨queue, hq, rfl⟩ := Option.map_eq_some_iff.mp hs
    exact ⟨turn, h.hasTurn, h.outside, h.sole.step (by simpa using hcall) hq, h.bufferBytes⟩

theorem inv_of_reaches (hr : Reaches QueueUsers.step anyStep (initServer n) b) :
    ∃ turn, Inv b turn := by
  induction hr with
  | refl => exact ⟨none, inv_initServer n⟩
  | tail _ hs ih =>
    obtain ⟨_, h⟩ := ih
    obtain ⟨_, _, ha⟩ := hs
    exact h.step ha

/-- Whatever the clients write, only slot `0` is ever used. -/
theorem slot_eq_zero (hr : Reaches QueueUsers.step anyStep (initServer n) b) {t : Fin (n + 1)}
    {i : Nat} (hi : i ∈ b.queue.slots t) : i = 0 := by
  obtain ⟨_, h⟩ := inv_of_reaches hr
  exact h.sole.slots hi

/-- `main` reads an opcode and comes to the shift loop of `pcq_enqueue`. -/
def firstRequest (n : Nat) : List (QueueUserLabel n) :=
  [.write [opCodePublisher], .main, .main, .main, .queue (.step 0), .queue (.step 0),
    .queue (.step 0)]

/-- The first request of a small broker uses slot `0`. -/
theorem run_firstRequest (hpos : 0 < n) (hlt : n < sizeofPointer) :
    (runLabels QueueUsers.step (initServer n) (firstRequest n)).map (fun b => b.queue.slots 0) =
      some [0] := by
  have hn : n = 1 ∨ n = 2 ∨ n = 3 ∨ n = 4 ∨ n = 5 ∨ n = 6 ∨ n = 7 := by
    rw [sizeofPointer] at hlt
    omega
  obtain rfl | rfl | rfl | rfl | rfl | rfl | rfl := hn <;> decide +kernel

end QueueUsers

open QueueUsers

variable {maxSessions : Nat}

/-- The slots that the functions of the queue access are in its buffer, in every run of the
broker, when the number of sessions is at least the size of a pointer, and not else. -/
theorem inBuffer_iff (hpos : 1 ≤ maxSessions) (hmax : maxSessions ≤ intMax) :
    (∀ b, Reaches QueueUsers.step anyStep (initServer maxSessions) b → b.InBuffer) ↔
      sizeofPointer ≤ maxSessions := by
  have hbytes : maxSessions % 2 ^ 32 = maxSessions := Nat.mod_eq_of_lt (by
    rw [intMax] at hmax
    omega)
  constructor
  · intro hin
    by_contra hlt
    obtain ⟨b, hrun, hslots⟩ :=
      Option.map_eq_some_iff.mp (run_firstRequest hpos (Nat.lt_of_not_le hlt))
    have hr := reaches_of_runLabels hrun
    obtain ⟨_, h⟩ := inv_of_reaches hr
    have hzero := hin b hr 0 0 (by rw [hslots]; exact List.mem_singleton.mpr rfl)
    rw [h.bufferBytes, hbytes] at hzero
    omega
  · intro hle b hr t i hi
    obtain ⟨_, h⟩ := inv_of_reaches hr
    rw [slot_eq_zero hr hi, h.bufferBytes, hbytes]
    omega

/-- The worker takes the request of `firstRequest` off the queue, up to its slot. -/
def firstDequeue : List (QueueUserLabel 8) :=
  firstRequest 8 ++ [.queue (.step 0), .queue (.signal 0 none), .queue (.step 0), .queue (.step 0),
    .main, .main, .main, .main, .main, .main, .worker 0, .worker 0, .worker 0,
    .queue (.step 1), .queue (.step 1), .queue (.step 1), .queue (.step 1),
    .queue (.signal 1 none), .queue (.step 1), .queue (.step 1), .queue (.step 1)]

theorem firstDequeue_inBuffer :
    ∃ b, runLabels QueueUsers.step (initServer 8) firstDequeue = some b ∧ b.queue.slots 1 = [0] ∧
      b.InBuffer := by
  have hrun : (runLabels QueueUsers.step (initServer 8) firstDequeue).map
      (fun b => b.queue.slots 1) = some [0] := by
    decide +kernel
  obtain ⟨b, hb, hslots⟩ := Option.map_eq_some_iff.mp hrun
  exact ⟨b, hb, hslots,
    (inBuffer_iff (by decide) (by decide)).mpr (by decide) b (reaches_of_runLabels hb)⟩

/-- With one session `pcq_enqueue` writes a pointer to a buffer of one byte. -/
theorem firstRequest_not_inBuffer :
    ∃ b, runLabels QueueUsers.step (initServer 1) (firstRequest 1) = some b ∧
      b.bufferBytes = 1 ∧ b.queue.slots 0 = [0] ∧ ¬ b.InBuffer := by
  have hrun : (runLabels QueueUsers.step (initServer 1) (firstRequest 1)).map
      (fun b => (b.bufferBytes, b.queue.slots 0)) = some (1, [0]) := by
    decide +kernel
  obtain ⟨b, hb, hview⟩ := Option.map_eq_some_iff.mp hrun
  simp only [Prod.mk.injEq] at hview
  refine ⟨b, hb, hview.1, hview.2, fun hin => ?_⟩
  have hzero := hin 0 0 (by rw [hview.2]; exact List.mem_singleton.mpr rfl)
  rw [hview.1] at hzero
  exact absurd hzero (by decide)

end MessageBroker.Broker
