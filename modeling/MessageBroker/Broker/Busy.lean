import MessageBroker.Broker.Dispatch
import Mathlib.Data.Prod.Lex
import Mathlib.Algebra.Order.BigOperators.Group.Finset

/-!
# Dispatching when every worker is busy

The search of `function` for a free worker may come to the end of the table. `function` then
prints that no sessions are left and goes on all the same, with the worker of index `-1`. The
threads of the hand-over get this outcome here. As long as the last flag that a search reads
is not set, every request goes to a free worker of the table; and from every state that is
reached the workers and the main thread can go on until a later request has its session.
-/

namespace MessageBroker.Broker

open Transition ProducerConsumer

/-! ### The end of the table -/

/-- The text that `function` prints when its search has found no worker. -/
def noSessionsLeft : String := "ERROR No sessions left\n"

inductive Dispatcher
  | running (s : Dispatch)
  /-- `function` has printed a text and is at `pcq_enqueue` with `&workers[-1]`. -/
  | outside (s : Dispatch) (opcode : UInt8) (printed : String)

/-- The worker whose flag the search reads next. -/
def MainPc.scanned : MainPc → Option Nat
  | scan _ i => some i
  | _ => none

namespace Dispatcher

def step : Dispatcher → DispatchLabel → Option Dispatcher
  | running s, .main =>
    match s.main with
    | .scan opcode i =>
      if i < s.maxSessions then s.mainStep.map running
      else some (outside s opcode noSessionsLeft)
    | _ => s.mainStep.map running
  | running s, a => (s.step a).map running
  -- what a step with that worker does is not defined
  | outside .., _ => none

end Dispatcher

/-- When the search reads the flag of the last worker of the table, it is not set. -/
def Dispatch.FindsIdle (s : Dispatch) : DispatchLabel → Prop
  | .main => s.main.scanned = some (s.maxSessions - 1) →
    (s.workers (s.maxSessions - 1)).toExecute = false
  | _ => True

instance (s : Dispatch) : (a : DispatchLabel) → Decidable (s.FindsIdle a)
  | .main => inferInstanceAs (Decidable (_ → _))
  | .write _ | .endOfFile | .worker _ | .wake _ => isTrue trivial

def Dispatcher.FindsIdle : Dispatcher → DispatchLabel → Prop
  | .running s, a => s.FindsIdle a
  | .outside .., _ => True

instance : (d : Dispatcher) → (a : DispatchLabel) → Decidable (d.FindsIdle a)
  | .running s, a => inferInstanceAs (Decidable (s.FindsIdle a))
  | .outside .., _ => isTrue trivial

/-- What dispatching guarantees in a state, whatever workers are busy. -/
structure Dispatch.Safe (s : Dispatch) : Prop where
  /-- The search has not run past the table. -/
  searching : ∀ opcode i, s.main = .scan opcode i → i < s.maxSessions
  inTable : ∀ w, s.main.worker = some w → w < s.maxSessions
  /-- The worker that is handed a request was free. -/
  free : ∀ w, s.main.chosen = some w → (s.workers w).toExecute = false
  dispatched : ∀ p ∈ s.dispatched, p.1 < s.maxSessions
  /-- A later request can still be served, as those before it. -/
  served : ∀ r : WireRequest, ∃ t,
    Reaches Dispatcher.step Dispatcher.FindsIdle (.running s) (.running t) ∧
      t.written = s.written ++ [r] ∧
      t.executed.map Prod.snd = t.written.map WireRequest.opcode

def Dispatcher.Safe : Dispatcher → Prop
  | .running s => s.Safe
  | .outside .. => False

/-! ### What a step changes -/

/-- The steps that the main thread has left before it is at a read again. -/
def MainPc.rank (n : Nat) : MainPc → Nat
  | readFirst | readNext => 0
  | relock => 1
  | unlockWorker .. => 2
  | signal .. => 3
  | setExecute .. => 4
  | lockPipe .. => 5
  | setOpcode .. => 6
  | lockWorker .. => 7
  | enqueue .. => 8
  | scan _ i => 9 + (n - i)
  | unlockPipe _ => 10 + n

/-- The steps that a worker has left before it waits. -/
def Worker.rank (x : Worker) : Nat :=
  match x.pc with
  | .waiting => 0
  | .test => if x.toExecute then 13 else 1
  | .lock | .woken => if x.toExecute then 14 else 2
  | .unlock => 3
  | .clear => 4
  | .session => 5
  | .entry reads => 6 + reads.length
  | .switch => 11
  | .dequeue => 12

/-- What a step of the main thread changes. -/
structure MainMoves (s t : Dispatch) : Prop where
  maxSessions : t.maxSessions = s.maxSessions
  written : t.written = s.written
  pc : ∀ w, (t.workers w).pc = (s.workers w).pc ∨ (t.workers w).pc = .woken
  dispatched : ∀ p ∈ t.dispatched, p ∈ s.dispatched ∨ s.main = .enqueue p.2 p.1
  /-- A search starts at the first worker and goes past those that are busy. -/
  scan : ∀ opcode j, t.main = .scan opcode j →
    j = 0 ∨ ∃ i, s.main = .scan opcode i ∧ j = i + 1 ∧ (s.workers i).toExecute = true
  /-- An opcode is read, or the next read is one step nearer. -/
  rank : t.opcodes.length = s.opcodes.length + 1 ∨
    t.opcodes = s.opcodes ∧ t.main.rank t.maxSessions < s.main.rank s.maxSessions

/-- What a step of worker `w` changes. -/
structure WorkerMoves (s : Dispatch) (w : Nat) (t : Dispatch) : Prop where
  maxSessions : t.maxSessions = s.maxSessions
  written : t.written = s.written
  main : t.main = s.main
  opcodes : t.opcodes = s.opcodes
  dispatched : t.dispatched = s.dispatched
  others : ∀ u, u ≠ w → t.workers u = s.workers u
  entry : ∀ reads, (t.workers w).pc = .entry reads →
    (∃ opcode, reads = entryReads opcode) ∨ ∃ n, (s.workers w).pc = .entry (n :: reads)
  rank : ((s.workers w).pc = .unlock → (s.workers w).toExecute = false) →
    (t.workers w).rank < (s.workers w).rank

section Moves

variable {s t : Dispatch} {w : Nat} {x : Worker}

theorem MainMoves.of_setWorker {i : Nat} {m : MainPc}
    (hpc : x.pc = (s.workers i).pc ∨ x.pc = .woken)
    (hrank : m.rank s.maxSessions < s.main.rank s.maxSessions)
    (hscan : ∀ c j, m ≠ .scan c j) : MainMoves s ({ s with main := m }.setWorker i x) where
  maxSessions := rfl
  written := rfl
  pc w := by
    show (Function.update s.workers i x w).pc = _ ∨ (Function.update s.workers i x w).pc = _
    by_cases hw : w = i
    · subst hw
      rw [Function.update_self]
      exact hpc
    · rw [Function.update_of_ne hw]
      exact Or.inl rfl
  dispatched _ hp := Or.inl hp
  scan c j hm := absurd hm (hscan c j)
  rank := Or.inr ⟨rfl, hrank⟩

/-- A step of the main thread that changes no worker and queues none. -/
theorem MainMoves.of_main (hmax : t.maxSessions = s.maxSessions) (hwritten : t.written = s.written)
    (hworkers : t.workers = s.workers) (hdispatched : t.dispatched = s.dispatched)
    (hscan : ∀ opcode j, t.main = .scan opcode j →
      j = 0 ∨ ∃ i, s.main = .scan opcode i ∧ j = i + 1 ∧ (s.workers i).toExecute = true)
    (hrank : t.opcodes.length = s.opcodes.length + 1 ∨
      t.opcodes = s.opcodes ∧ t.main.rank t.maxSessions < s.main.rank s.maxSessions) :
    MainMoves s t where
  maxSessions := hmax
  written := hwritten
  pc w := by
    rw [hworkers]
    exact Or.inl rfl
  dispatched p hp := Or.inl (hdispatched ▸ hp)
  scan := hscan
  rank := hrank

theorem zero_of_afterOpcode {c opcode : UInt8} {j : Nat}
    (h : Dispatch.afterOpcode c = .scan opcode j) : j = 0 := by
  rw [Dispatch.afterOpcode] at h
  split at h <;> cases h
  rfl

theorem rank_afterOpcode_le (c : UInt8) (n : Nat) :
    (Dispatch.afterOpcode c).rank n ≤ 9 + n := by
  rw [Dispatch.afterOpcode]
  split
  · exact le_rfl
  · show 1 ≤ 9 + n
    omega

theorem length_snoc (l : List UInt8) (c : UInt8) : (l ++ [c]).length = l.length + 1 :=
  List.length_append

theorem mainStep_moves (hs : s.mainStep = some t) : MainMoves s t := by
  cases Dispatch.outcome_of_mainStep hs with
  | readFirst c rest =>
    exact .of_main rfl rfl rfl rfl (fun _ _ h => Or.inl (zero_of_afterOpcode h))
      (Or.inl (length_snoc _ _))
  | scan opcode i hm hi =>
    cases hflag : (s.workers i).toExecute with
    | true =>
      refine .of_main rfl rfl rfl rfl ?_ (Or.inr ⟨rfl, ?_⟩)
      · intro c j h
        cases h
        exact Or.inr ⟨i, hm, rfl, hflag⟩
      · rw [hm]
        show 9 + (s.maxSessions - (i + 1)) < 9 + (s.maxSessions - i)
        omega
    | false =>
      refine .of_main rfl rfl rfl rfl (fun _ _ => nofun) (Or.inr ⟨rfl, ?_⟩)
      rw [hm]
      show 8 < 9 + (s.maxSessions - i)
      omega
  | enqueue opcode i hm =>
    refine ⟨rfl, rfl, fun _ => Or.inl rfl, ?_, fun _ _ => nofun,
      Or.inr ⟨rfl, hm ▸ Nat.lt_succ_self 7⟩⟩
    intro p hp
    obtain hp | hp := List.mem_append.mp hp
    · exact Or.inl hp
    · rw [List.mem_singleton.mp hp]
      exact Or.inr hm
  | lockWorker opcode i hm =>
    exact .of_setWorker (Or.inl rfl) (hm ▸ Nat.lt_succ_self 6) (fun _ _ => nofun)
  | setOpcode opcode i hm =>
    exact .of_setWorker (Or.inl rfl) (hm ▸ Nat.lt_succ_self 5) (fun _ _ => nofun)
  | lockPipe opcode i hm =>
    exact .of_main rfl rfl rfl rfl (fun _ _ => nofun) (Or.inr ⟨rfl, hm ▸ Nat.lt_succ_self 4⟩)
  | setExecute opcode i hm =>
    exact .of_setWorker (Or.inl rfl) (hm ▸ Nat.lt_succ_self 3) (fun _ _ => nofun)
  | signal opcode i hm =>
    refine .of_setWorker ?_ (hm ▸ Nat.lt_succ_self 2) (fun _ _ => nofun)
    show (if _ then _ else _) = _ ∨ (if _ then _ else _) = _
    split
    · exact Or.inr rfl
    · exact Or.inl rfl
  | unlockWorker opcode i hm =>
    exact .of_setWorker (Or.inl rfl) (hm ▸ Nat.lt_succ_self 1) (fun _ _ => nofun)
  | relock hm =>
    exact .of_main rfl rfl rfl rfl (fun _ _ => nofun) (Or.inr ⟨rfl, hm ▸ Nat.one_pos⟩)
  | readNext c rest =>
    exact .of_main rfl rfl rfl rfl (fun _ _ => nofun) (Or.inl (length_snoc _ _))
  | unlockPipe read hm =>
    refine .of_main rfl rfl rfl rfl ?_ (Or.inr ⟨rfl, hm ▸ ?_⟩)
    · intro c j h
      cases read with
      | none => cases h
      | some o => exact Or.inl (zero_of_afterOpcode h)
    · cases read with
      | none =>
        show 0 < 10 + s.maxSessions
        omega
      | some o =>
        have := rank_afterOpcode_le o s.maxSessions
        show (Dispatch.afterOpcode o).rank s.maxSessions < 10 + s.maxSessions
        omega

theorem WorkerMoves.of_setWorker
    (hentry : ∀ reads, x.pc = .entry reads →
      (∃ opcode, reads = entryReads opcode) ∨ ∃ n, (s.workers w).pc = .entry (n :: reads))
    (hrank : ((s.workers w).pc = .unlock → (s.workers w).toExecute = false) →
      x.rank < (s.workers w).rank) (hmax : t.maxSessions = s.maxSessions)
    (hwritten : t.written = s.written) (hmain : t.main = s.main) (hopcodes : t.opcodes = s.opcodes)
    (hdispatched : t.dispatched = s.dispatched) (hworkers : t.workers = s.workers) :
    WorkerMoves s w (t.setWorker w x) := by
  have hself : (t.setWorker w x).workers w = x := Function.update_self ..
  refine ⟨hmax, hwritten, hmain, hopcodes, hdispatched, ?_, ?_, ?_⟩
  · intro u hu
    rw [← hworkers]
    exact Function.update_of_ne hu ..
  · rw [hself]
    exact hentry
  · rw [hself]
    exact hrank

theorem length_entryReads_lt (opcode : UInt8) : (entryReads opcode).length < 5 := by
  rw [entryReads]
  split <;> decide

theorem workerStep_moves (hs : s.workerStep w = some t) : WorkerMoves s w t := by
  cases Dispatch.outcome_of_workerStep hs with
  | lock hpc =>
    refine .of_setWorker nofun (fun _ => ?_) rfl rfl rfl rfl rfl rfl
    obtain hpc | hpc := hpc <;> simp only [Worker.rank, hpc] <;> split <;> decide
  | testSet hpc hflag =>
    refine .of_setWorker nofun (fun _ => ?_) rfl rfl rfl rfl rfl rfl
    simp only [Worker.rank, hpc, hflag, if_true]
    decide
  | testClear hpc hflag =>
    refine .of_setWorker nofun (fun _ => ?_) rfl rfl rfl rfl rfl rfl
    simp only [Worker.rank, hpc, hflag]
    decide
  | dequeue hpc | session hpc | clear hpc =>
    refine .of_setWorker nofun (fun _ => ?_) rfl rfl rfl rfl rfl rfl
    simp only [Worker.rank, hpc]
    decide
  | switch hpc =>
    refine .of_setWorker ?_ (fun _ => ?_) rfl rfl rfl rfl rfl rfl
    · intro reads h
      split at h <;> cases h
      exact Or.inl ⟨_, rfl⟩
    · cases hd : isDispatched (s.workers w).opcode with
      | true =>
        simp only [Worker.rank, hpc, if_true]
        exact Nat.add_lt_add_left (length_entryReads_lt _) 6
      | false =>
        simp only [Worker.rank, hpc, Bool.false_eq_true, if_false]
        decide
  | readEntry n reads hpc =>
    refine .of_setWorker ?_ (fun _ => ?_) rfl rfl rfl rfl rfl rfl
    · intro l h
      cases h
      exact Or.inr ⟨n, hpc⟩
    · simp only [Worker.rank, hpc, List.length_cons]
      omega
  | release hpc =>
    refine .of_setWorker nofun (fun _ => ?_) rfl rfl rfl rfl rfl rfl
    simp only [Worker.rank, hpc]
    decide
  | unlock hpc =>
    refine .of_setWorker nofun (fun hclear => ?_) rfl rfl rfl rfl rfl rfl
    simp only [Worker.rank, hpc, hclear hpc]
    decide

end Moves

/-! ### The search -/

/-- A search put back to its start. -/
def MainPc.rewound : MainPc → MainPc
  | scan opcode _ => scan opcode 0
  | m => m

/-- The state without what its search has seen so far. -/
def Dispatch.rewound (s : Dispatch) : Dispatch := { s with main := s.main.rewound }

/-- A state of a run without an end of the table. The invariant of the hand-over promises a free
worker to a search on its way; here it holds of the search put back to its start. -/
structure Searching (s : Dispatch) : Prop where
  staged : Staged s.rewound
  searching : ∀ opcode i, s.main = .scan opcode i → i < s.maxSessions
  reads : ∀ w reads, (s.workers w).pc = .entry reads → ∀ n ∈ reads, 0 < n
  dispatched : ∀ p ∈ s.dispatched, p.1 < s.maxSessions

section Searching

variable {s t : Dispatch} {g : RequestStage} {opcode : UInt8} {w i j : Nat}

theorem MainPc.exists_of_scanned {m : MainPc} (h : m.scanned = some i) :
    ∃ opcode, m = .scan opcode i := by
  cases m with
  | scan opcode j =>
    cases h
    exact ⟨opcode, rfl⟩
  | _ => cases h

theorem MainPc.rewound_eq {m : MainPc} (h : m.scanned = none) : m.rewound = m := by
  cases m with
  | scan opcode i => cases h
  | _ => rfl

theorem Dispatch.rewound_eq (h : s.main.scanned = none) : s.rewound = s := by
  rw [rewound, MainPc.rewound_eq h]

/-- A search may go on from any worker behind which there is a free one. -/
theorem Inv.scanFrom (h : Inv s g) (hm : s.main = .scan opcode i)
    (hfree : 0 < j → ∃ k, j ≤ k ∧ k < s.maxSessions ∧ (s.workers k).toExecute = false) :
    Inv { s with main := .scan opcode j } g := by
  have hat := h.main
  rw [hm] at hat
  cases hat
  have hpipe : s.pipeLock = false := by
    rw [h.pipeLock, hm]
    rfl
  refine h.mainMove (.scan opcode j) rfl rfl rfl rfl rfl (.scan opcode j) hpipe rfl h.size
    (hm ▸ rfl) nofun (fun _ _ => nofun) ?_ (h.journal.keep rfl rfl rfl rfl rfl rfl rfl rfl)
  intro c k hk hpos
  cases hk
  exact hfree hpos

theorem Inv.rewound (h : Inv s g) : Inv s.rewound g := by
  cases hm : s.main with
  | scan opcode i =>
    have hs : s.rewound = { s with main := .scan opcode 0 } := by
      rw [Dispatch.rewound, hm]
      rfl
    exact hs ▸ h.scanFrom hm nofun
  | _ =>
    rw [Dispatch.rewound_eq (by rw [hm]; rfl)]
    exact h

/-- A search that is at a free worker has the whole invariant. -/
theorem Inv.of_rewound (h : Inv s.rewound g) (hm : s.main = .scan opcode i) (hi : i < s.maxSessions)
    (hflag : (s.workers i).toExecute = false) : Inv s g := by
  have hrewound : s.rewound.main = .scan opcode 0 := congrArg MainPc.rewound hm
  have hs : { s.rewound with main := .scan opcode i } = s := by
    rw [← hm]
    rfl
  exact hs ▸ h.scanFrom hrewound fun _ => ⟨i, le_rfl, hi, hflag⟩

theorem rewound_workerStep (s : Dispatch) (w : Nat) :
    s.rewound.workerStep w = (s.workerStep w).map Dispatch.rewound := by
  have hworkers : s.rewound.workers = s.workers := rfl
  have hfifo : s.rewound.fifo = s.fifo := rfl
  have hqueue : s.rewound.queue = s.queue := rfl
  dsimp only [Dispatch.workerStep]
  cases hpc : (s.workers w).pc with
  | entry reads =>
    cases reads with
    | nil => simp only [hworkers, hpc, Option.map_some]; rfl
    | cons n reads => simp only [hworkers, hpc, hfifo]; split <;> rfl
  | lock | woken | test | dequeue =>
    simp only [hworkers, hpc, hqueue]
    split <;> rfl
  | waiting => simp only [hworkers, hpc, Option.map_none]
  | switch | session | clear | unlock =>
    simp only [hworkers, hpc, Option.map_some]
    rfl

/-- A search that goes on is put back to the same start. -/
theorem staged_mainStep (h : Staged s.rewound)
    (hsearch : ∀ opcode i, s.main = .scan opcode i → i < s.maxSessions)
    (hs : s.mainStep = some t) : Staged t.rewound := by
  obtain ⟨g, hg⟩ := h
  cases hm : s.main with
  | scan opcode i =>
    have hi := hsearch opcode i hm
    cases hflag : (s.workers i).toExecute with
    | true =>
      simp only [Dispatch.mainStep, hm, hi, hflag, if_true, Option.some.injEq] at hs
      subst hs
      have heq : s.rewound = { s with main := .scan opcode 0 } := by
        rw [Dispatch.rewound, hm]
        rfl
      rw [heq] at hg
      exact ⟨g, hg⟩
    | false =>
      have hinv := hg.of_rewound hm hi hflag
      obtain ⟨_, hnext⟩ := hinv.scanStep hm fun h0 => ⟨0, by omega, h0 ▸ hflag⟩
      simp only [Dispatch.mainStep, hm, hi, if_true, Option.some.injEq] at hs
      exact ⟨g, (hs ▸ hnext).rewound⟩
  | _ =>
    rw [Dispatch.rewound_eq (by rw [hm]; rfl)] at hg
    obtain ⟨g', hg'⟩ := hg.mainStep (fun c hc => by cases hm.symm.trans hc) hs
    exact ⟨g', hg'.rewound⟩

theorem pos_of_mem_entryReads {n : Nat} (h : n ∈ entryReads opcode) : 0 < n := by
  have hall : ∀ m ∈ entryReads opcode, 0 < m := by
    rw [entryReads]
    split <;> decide
  exact hall n h

theorem Searching.mainStep (h : Searching s) (hpos : 0 < s.maxSessions) (hok : s.FindsIdle .main)
    (hs : s.mainStep = some t) : Searching t := by
  have hmoves := mainStep_moves hs
  refine ⟨staged_mainStep h.staged h.searching hs, ?_, ?_, ?_⟩
  · intro opcode j hm
    rw [hmoves.maxSessions]
    obtain rfl | ⟨i, hi, rfl, hflag⟩ := hmoves.scan opcode j hm
    · exact hpos
    · -- the worker was busy, so it is not the last one
      have hlt := h.searching opcode i hi
      refine Nat.lt_of_le_of_ne hlt fun hlast => ?_
      have heq : i = s.maxSessions - 1 := by omega
      rw [Dispatch.FindsIdle, hi, ← heq] at hok
      exact nomatch hflag.symm.trans (hok rfl)
  · intro w reads hpc
    obtain hw | hw := hmoves.pc w
    · exact h.reads w reads (hw ▸ hpc)
    · exact nomatch hw.symm.trans hpc
  · intro p hp
    rw [hmoves.maxSessions]
    obtain hp | hp := hmoves.dispatched p hp
    · exact h.dispatched p hp
    · obtain ⟨g, hg⟩ := h.staged
      rw [Dispatch.rewound_eq (by rw [hp]; rfl)] at hg
      exact ((hg.placed p.1).chosen (hp ▸ rfl)).1

theorem Searching.workerStep (h : Searching s) (hs : s.workerStep w = some t) : Searching t := by
  have hmoves := workerStep_moves hs
  refine ⟨?_, ?_, ?_, ?_⟩
  · obtain ⟨g, hg⟩ := h.staged
    apply hg.workerStep (w := w)
    rw [rewound_workerStep, hs]
    rfl
  · rw [hmoves.main, hmoves.maxSessions]
    exact h.searching
  · intro u reads hpc n hn
    by_cases hu : u = w
    · subst hu
      obtain ⟨opcode, rfl⟩ | ⟨m, hm⟩ := hmoves.entry reads hpc
      · exact pos_of_mem_entryReads hn
      · exact h.reads u _ hm n (List.mem_cons_of_mem m hn)
    · exact h.reads u reads (hmoves.others u hu ▸ hpc) n hn
  · rw [hmoves.dispatched, hmoves.maxSessions]
    exact h.dispatched

theorem Searching.step {a : DispatchLabel} (h : Searching s) (hpos : 0 < s.maxSessions)
    (hok : s.FindsIdle a) (hs : s.step a = some t) : Searching t := by
  cases a with
  | main => exact h.mainStep hpos hok hs
  | worker w =>
    obtain ⟨_, hs⟩ := Option.ite_none_right_eq_some.mp hs
    exact h.workerStep hs
  | write r =>
    cases hs
    obtain ⟨g, hg⟩ := h.staged
    exact ⟨hg.step (a := .write r) trivial rfl, h.searching, h.reads, h.dispatched⟩
  | wake w =>
    obtain ⟨hw, hs⟩ := Option.ite_none_right_eq_some.mp hs
    cases hs
    obtain ⟨g, hg⟩ := h.staged
    refine ⟨hg.step (a := .wake w) trivial (if_pos hw), h.searching, ?_, h.dispatched⟩
    intro u reads hpc
    change (Function.update s.workers w _ u).pc = _ at hpc
    by_cases hu : u = w
    · subst hu
      rw [Function.update_self] at hpc
      cases hpc
    · rw [Function.update_of_ne hu] at hpc
      exact h.reads u reads hpc
  | endOfFile =>
    have hend := hs
    obtain ⟨_, hs⟩ := Option.ite_none_right_eq_some.mp hs
    obtain ⟨g, hg⟩ := h.staged
    cases hm : s.main with
    | readFirst =>
      rw [hm] at hs
      cases hs
      exact h
    | readNext =>
      rw [hm] at hs
      cases hs
      rw [Dispatch.rewound_eq (by rw [hm]; rfl)] at hg
      obtain ⟨g', hg'⟩ := hg.step (a := .endOfFile) trivial hend
      exact ⟨⟨g', hg'.rewound⟩, fun _ _ => nofun, h.reads, h.dispatched⟩
    | _ =>
      rw [hm] at hs
      cases hs

theorem searching_initial {maxSessions : Nat} (hmax : maxSessions ≤ intMax) :
    Searching (.initial maxSessions) :=
  ⟨⟨.done, inv_initial hmax⟩, fun _ _ => nofun, fun _ _ => nofun, fun _ => nofun⟩

end Searching

/-! ### Serving a later request -/

/-- The worker waits for a signal, or for the main thread to release its lock. -/
def Worker.Blocked (x : Worker) : Prop :=
  x.pc = .waiting ∨ (x.pc = .lock ∨ x.pc = .woken) ∧ x.lock = some .main

/-- Opcodes to read, steps of the main thread to its next read, steps of the workers to a wait. -/
def Dispatch.variant (s : Dispatch) : Nat ×ₗ Nat ×ₗ Nat :=
  toLex (s.written.length - s.opcodes.length, toLex (s.main.rank s.maxSessions,
    ∑ w ∈ Finset.range s.maxSessions, (s.workers w).rank))

section Serving

variable {s t : Dispatch} {g : RequestStage} {w : Nat}

theorem Worker.Blocked.not_holdsLock {x : Worker} (h : x.Blocked) : ¬ x.pc.HoldsLock := by
  obtain hpc | ⟨hpc | hpc, _⟩ := h
  · exact hpc ▸ id
  · exact hpc ▸ id
  · exact hpc ▸ id

/-- A worker that cannot take a step is blocked. -/
theorem Inv.blocked (h : Inv s g)
    (hreads : ∀ reads, (s.workers w).pc = .entry reads → ∀ n ∈ reads, 0 < n)
    (hnone : s.workerStep w = none) : (s.workers w).Blocked := by
  rw [Dispatch.workerStep] at hnone
  cases hpc : (s.workers w).pc with
  | waiting => exact Or.inl hpc
  | lock | woken =>
    simp only [hpc] at hnone
    refine Or.inr ⟨by simp [hpc], ?_⟩
    cases hlock : (s.workers w).lock with
    | none =>
      rw [if_pos hlock] at hnone
      cases hnone
    | some owner =>
      cases owner with
      | main => rfl
      | worker =>
        have hholds := (h.placed w).lockWorker.mp hlock
        rw [hpc] at hholds
        exact hholds.elim
  | test =>
    simp only [hpc] at hnone
    split at hnone <;> cases hnone
  | dequeue =>
    simp only [hpc] at hnone
    rw [if_pos (h.dequeue hpc).1] at hnone
    cases hnone
  | entry reads =>
    cases reads with
    | nil =>
      simp only [hpc] at hnone
      cases hnone
    | cons n reads =>
      simp only [hpc] at hnone
      have hfifo : s.fifo = [] := by
        by_contra hne
        rw [if_pos hne] at hnone
        cases hnone
      -- the FIFO has the bytes that the worker is about to read
      cases h.entered_of_entry hpc
      obtain ⟨entry, hlen, hbytes⟩ := h.journal.fifo
      rw [hfifo] at hbytes
      rw [(List.append_eq_nil_iff.mp hbytes.symm).1] at hlen
      have hn := hreads _ hpc n List.mem_cons_self
      have hsum : (RequestStage.entered w (n :: reads)).bytesLeft = n + reads.sum := rfl
      rw [List.length_nil, hsum] at hlen
      omega
  | switch | session | clear | unlock =>
    simp only [hpc] at hnone
    cases hnone

/-- A blocked worker with a request waits for the main thread. -/
theorem Inv.main_of_blocked (h : Inv s g) (hb : (s.workers w).Blocked)
    (hflag : (s.workers w).toExecute = true) :
    g.owner = some w ∧ ((∃ opcode, s.main = .signal opcode w) ∨ s.main.holds = some w) := by
  have hp := h.placed w
  have howner : g.owner = some w := by
    refine hp.owner.mp ⟨hflag, ?_⟩
    obtain hpc | ⟨hpc | hpc, _⟩ := hb <;> rw [hpc] <;> trivial
  refine ⟨howner, ?_⟩
  obtain hpc | ⟨_, hlock⟩ := hb
  · exact Or.inl (hp.signalled howner hpc)
  · exact Or.inr (hp.lockMain.mp hlock)

/-- When every worker is blocked, the main thread is at a read of the empty FIFO, searches, or
can take a step. -/
theorem Inv.mainStep_isSome (h : Inv s g) (hscanned : s.main.scanned = none)
    (hb : ∀ w < s.maxSessions, (s.workers w).Blocked) :
    s.Reading none ∧ s.fifo = [] ∨ s.mainStep.isSome = true := by
  rw [Dispatch.mainStep]
  cases hm : s.main with
  | scan opcode i =>
    rw [hm] at hscanned
    cases hscanned
  | readFirst | readNext =>
    cases hc : s.fifo with
    | nil => exact Or.inl ⟨by simp [Dispatch.Reading, hm], rfl⟩
    | cons c rest => exact Or.inr rfl
  | enqueue opcode i =>
    apply Or.inr
    simp only [(h.enqueue hm).1.ne, ne_eq, not_false_eq_true, if_true, Option.isSome_some]
  | lockWorker opcode i =>
    have hp := h.placed i
    have hnone : (s.workers i).lock = none := by
      cases hlock : (s.workers i).lock with
      | none => rfl
      | some owner =>
        cases owner with
        | main =>
          have hholds := hp.lockMain.mp hlock
          rw [hm] at hholds
          cases hholds
        | worker =>
          have hi := (hp.chosen (hm ▸ rfl)).1
          exact absurd (hp.lockWorker.mp hlock) (hb i hi).not_holdsLock
    apply Or.inr
    simp only [hnone, if_true, Option.isSome_some]
  | lockPipe opcode i =>
    apply Or.inr
    simp only [(h.lockPipe hm).1, Bool.false_eq_true, if_false, Option.isSome_some]
  | relock =>
    have hpipe : s.pipeLock = false := by
      rw [h.pipeLock, hm]
      cases howner : g.owner with
      | none => rfl
      | some w =>
        -- the owner of the request would wait for the main thread
        have hp := h.placed w
        have hmain := (h.main_of_blocked (hb w (hp.ownerAt howner).1) (hp.owner.mpr howner).1).2
        rw [hm] at hmain
        obtain ⟨_, hmain⟩ | hmain := hmain <;> cases hmain
    apply Or.inr
    simp only [hpipe, Bool.false_eq_true, if_false, Option.isSome_some]
  | setOpcode opcode i | setExecute opcode i | signal opcode i | unlockWorker opcode i =>
    exact Or.inr rfl
  | unlockPipe read => exact Or.inr rfl

/-- When every worker is blocked, no flag that a search reads is set. -/
theorem Searching.mainStep_of_blocked (h : Searching s)
    (hb : ∀ w < s.maxSessions, (s.workers w).Blocked) :
    s.Reading none ∧ s.fifo = [] ∨ s.FindsIdle .main ∧ s.mainStep.isSome = true := by
  obtain ⟨g, hg⟩ := h.staged
  cases hscanned : s.main.scanned with
  | none =>
    rw [Dispatch.rewound_eq hscanned] at hg
    have hidle : s.FindsIdle .main := fun hlast => nomatch hscanned.symm.trans hlast
    exact (hg.mainStep_isSome hscanned hb).imp_right fun hs => ⟨hidle, hs⟩
  | some i =>
    obtain ⟨opcode, hm⟩ := MainPc.exists_of_scanned hscanned
    have hi := h.searching opcode i hm
    refine Or.inr ⟨fun _ => ?_, ?_⟩
    · cases hflag : (s.workers (s.maxSessions - 1)).toExecute with
      | false => rfl
      | true =>
        -- a busy worker would have the request that the main thread still has
        have howner := (hg.main_of_blocked (hb _ (by omega)) hflag).1
        have hat := hg.main
        rw [show s.rewound.main = .scan opcode 0 from congrArg MainPc.rewound hm] at hat
        cases hat
        cases howner
    · rw [Dispatch.mainStep, hm]
      simp only [hi, if_true, Option.isSome_some]

theorem MainMoves.variant_lt (h : MainMoves s t) (hread : t.opcodes.length ≤ t.written.length) :
    t.variant < s.variant := by
  rw [h.written] at hread
  apply Prod.Lex.toLex_lt_toLex.mpr
  obtain hopcodes | ⟨hopcodes, hrank⟩ := h.rank
  · apply Or.inl
    show t.written.length - t.opcodes.length < s.written.length - s.opcodes.length
    rw [h.written]
    omega
  · refine Or.inr ⟨?_, Prod.Lex.toLex_lt_toLex.mpr (Or.inl hrank)⟩
    show t.written.length - t.opcodes.length = s.written.length - s.opcodes.length
    rw [h.written, hopcodes]

theorem WorkerMoves.variant_lt (h : WorkerMoves s w t) (hw : w < s.maxSessions)
    (hclear : (s.workers w).pc = .unlock → (s.workers w).toExecute = false) :
    t.variant < s.variant := by
  refine Prod.Lex.toLex_lt_toLex.mpr (Or.inr ⟨?_, Prod.Lex.toLex_lt_toLex.mpr (Or.inr ⟨?_, ?_⟩)⟩)
  · show t.written.length - t.opcodes.length = s.written.length - s.opcodes.length
    rw [h.written, h.opcodes]
  · show t.main.rank t.maxSessions = s.main.rank s.maxSessions
    rw [h.main, h.maxSessions]
  · show ∑ u ∈ Finset.range t.maxSessions, (t.workers u).rank <
      ∑ u ∈ Finset.range s.maxSessions, (s.workers u).rank
    rw [h.maxSessions]
    refine Finset.sum_lt_sum ?_ ⟨w, Finset.mem_range.mpr hw, h.rank hclear⟩
    intro u _
    by_cases hu : u = w
    · exact hu ▸ (h.rank hclear).le
    · rw [h.others u hu]

theorem Searching.read_le (h : Searching s) : s.opcodes.length ≤ s.written.length := by
  obtain ⟨g, hg⟩ := h.staged
  exact hg.journal.read.length_le.trans_eq (List.length_map _)

/-- Some thread can take a step towards the end of the requests. -/
theorem Searching.advance (h : Searching s) (hpos : 0 < s.maxSessions) :
    s.Reading none ∧ s.fifo = [] ∨ ∃ a t, s.FindsIdle a ∧ s.step a = some t ∧
      Searching t ∧ t.maxSessions = s.maxSessions ∧ t.written = s.written ∧
      t.variant < s.variant := by
  obtain ⟨g, hg⟩ := h.staged
  by_cases hworker : ∃ w < s.maxSessions, ∃ t, s.workerStep w = some t
  · obtain ⟨w, hw, t, hs⟩ := hworker
    have hmoves := workerStep_moves hs
    exact Or.inr ⟨.worker w, t, trivial, (if_pos hw).trans hs, h.workerStep hs,
      hmoves.maxSessions, hmoves.written, hmoves.variant_lt hw (hg.placed w).cleared⟩
  · have hb : ∀ w < s.maxSessions, (s.workers w).Blocked := by
      intro w hw
      apply hg.blocked (w := w) (h.reads w)
      rw [rewound_workerStep]
      cases hs : s.workerStep w with
      | none => rfl
      | some t => exact absurd ⟨w, hw, t, hs⟩ hworker
    refine (h.mainStep_of_blocked hb).imp_right fun ⟨hidle, hsome⟩ => ?_
    obtain ⟨t, hs⟩ := Option.isSome_iff_exists.mp hsome
    have hmoves := mainStep_moves hs
    have ht := h.mainStep hpos hidle hs
    exact ⟨.main, t, hidle, hs, ht, hmoves.maxSessions, hmoves.written,
      hmoves.variant_lt ht.read_le⟩

/-- At a read of the empty FIFO every request has had its session. -/
theorem Searching.caughtUp (h : Searching s) (hread : s.Reading none) (hfifo : s.fifo = []) :
    s.executed.map Prod.snd = s.written.map WireRequest.opcode := by
  obtain ⟨g, hg⟩ := h.staged
  have hscanned : s.main.scanned = none := by
    obtain hm | hm := hread <;> rw [hm] <;> rfl
  rw [Dispatch.rewound_eq hscanned] at hg
  have hover := hg.handsOver
  obtain ⟨hexecuted, hopcodes⟩ := hover.caughtUp hread
  rw [hexecuted, hopcodes]
  apply hover.opcodes.eq_of_length_le
  have hdrop : s.written.drop s.opcodes.length = [] := by
    cases hd : s.written.drop s.opcodes.length with
    | nil => rfl
    | cons r rest =>
      have hbytes := hover.boundary hread
      rw [hfifo, hd] at hbytes
      cases hbytes
  rw [List.length_map]
  exact List.drop_eq_nil_iff.mp hdrop

/-- From every state of a run the threads can go on until each request has had its session. -/
theorem Searching.drains (h : Searching s) (hpos : 0 < s.maxSessions) :
    ∃ t, Reaches Dispatch.step Dispatch.FindsIdle s t ∧ t.written = s.written ∧
      t.executed.map Prod.snd = t.written.map WireRequest.opcode := by
  have hstep : ∀ u, Searching u ∧ 0 < u.maxSessions ∧ u.written = s.written →
      u.Reading none ∧ u.fifo = [] ∨ ∃ a v, u.FindsIdle a ∧ u.step a = some v ∧
        (Searching v ∧ 0 < v.maxSessions ∧ v.written = s.written) ∧ v.variant < u.variant := by
    rintro u ⟨hu, hupos, huwritten⟩
    apply (hu.advance hupos).imp_right
    rintro ⟨a, v, hidle, hs, hv, hmax, hwritten, hlt⟩
    exact ⟨a, v, hidle, hs, ⟨hv, hmax ▸ hupos, hwritten.trans huwritten⟩, hlt⟩
  obtain ⟨t, hr, ⟨ht, _, hwritten⟩, hread, hfifo⟩ :=
    Reaches.exists_of_variant Dispatch.variant hstep ⟨h, hpos, rfl⟩
  exact ⟨t, hr, hwritten, ht.caughtUp hread hfifo⟩

end Serving

/-! ### Runs of the dispatcher -/

section Runs

variable {s t : Dispatch} {d d' : Dispatcher} {a : DispatchLabel} {maxSessions : Nat}

theorem Dispatch.maxSessions_step (hs : s.step a = some t) : t.maxSessions = s.maxSessions := by
  cases a with
  | main => exact (mainStep_moves hs).maxSessions
  | worker w => exact (workerStep_moves (Option.ite_none_right_eq_some.mp hs).2).maxSessions
  | write r =>
    cases hs
    rfl
  | wake w =>
    obtain ⟨_, hs⟩ := Option.ite_none_right_eq_some.mp hs
    cases hs
    rfl
  | endOfFile =>
    obtain ⟨_, hs⟩ := Option.ite_none_right_eq_some.mp hs
    split at hs <;> cases hs <;> rfl

/-- A search within the table takes the steps of the hand-over. -/
theorem Dispatcher.step_running (h : ∀ opcode i, s.main = .scan opcode i → i < s.maxSessions) :
    (running s).step a = (s.step a).map running := by
  cases a with
  | main =>
    simp only [Dispatcher.step]
    split
    · rename_i opcode i hm
      exact if_pos (h opcode i hm)
    · rfl
  | _ => rfl

/-- A run of the hand-over from a state without an end of the table is one of the dispatcher. -/
theorem Searching.reaches_running (h : Searching s) (hpos : 0 < s.maxSessions)
    (hr : Reaches Dispatch.step Dispatch.FindsIdle s t) :
    Reaches Dispatcher.step Dispatcher.FindsIdle (.running s) (.running t) := by
  have hinv : Searching t ∧ 0 < t.maxSessions ∧
      Reaches Dispatcher.step Dispatcher.FindsIdle (.running s) (.running t) := by
    induction hr with
    | refl => exact ⟨h, hpos, Reaches.refl _⟩
    | tail _ hs ih =>
      obtain ⟨hu, hupos, hur⟩ := ih
      obtain ⟨a, hidle, hs⟩ := hs
      refine ⟨hu.step hupos hidle hs, Dispatch.maxSessions_step hs ▸ hupos, hur.snoc a hidle ?_⟩
      rw [Dispatcher.step_running hu.searching, hs]
      rfl
  exact hinv.2.2

/-- Every worker that the main thread deals with is in the table. -/
theorem Inv.inTable {g : RequestStage} {w : Nat} (h : Inv s g) (hw : s.main.worker = some w) :
    w < s.maxSessions := by
  cases hm : s.main with
  | enqueue c v | lockWorker c v | setOpcode c v | lockPipe c v | setExecute c v =>
    rw [hm] at hw
    cases hw
    exact ((h.placed w).chosen (hm ▸ rfl)).1
  | signal c v | unlockWorker c v =>
    have hat := h.main
    rw [hm] at hw hat
    cases hw
    cases hat
    exact ((h.placed w).ownerAt rfl).1
  | _ =>
    rw [hm] at hw
    cases hw

theorem Searching.safe (h : Searching s) (hpos : 0 < s.maxSessions) : s.Safe := by
  obtain ⟨g, hg⟩ := h.staged
  -- a main thread that deals with a worker does not search
  have hinv : ∀ w, s.main.worker = some w → Inv s g := by
    intro w hw
    rw [Dispatch.rewound_eq] at hg
    · exact hg
    · cases hm : s.main with
      | scan opcode i =>
        rw [hm] at hw
        cases hw
      | _ => rfl
  refine ⟨h.searching, fun w hw => (hinv w hw).inTable hw, ?_, h.dispatched, ?_⟩
  · intro w hw
    exact (((hinv w (MainPc.worker_of_chosen hw)).placed w).chosen hw).2
  · intro r
    have hwrite : s.step (.write r) =
      some { s with fifo := s.fifo ++ r.bytes, written := s.written ++ [r] } := rfl
    have hnext := h.step hpos (a := .write r) trivial hwrite
    obtain ⟨t, hr, hwritten, hexecuted⟩ := hnext.drains hpos
    refine ⟨t, ?_, hwritten, hexecuted⟩
    exact h.reaches_running hpos (Relation.ReflTransGen.head ⟨.write r, trivial, hwrite⟩ hr)

/-- The dispatcher has not come to the end of the table. -/
def Dispatcher.Searches : Dispatcher → Prop
  | running s => Searching s ∧ 0 < s.maxSessions
  | outside .. => False

theorem Dispatcher.Searches.safe (h : d.Searches) : d.Safe := by
  cases d with
  | running s => exact h.1.safe h.2
  | outside s opcode printed => exact h

theorem Dispatcher.Searches.step (h : d.Searches) (hok : d.FindsIdle a) (hs : d.step a = some d') :
    d'.Searches := by
  cases d with
  | running s =>
    obtain ⟨hsearch, hpos⟩ := h
    rw [Dispatcher.step_running hsearch.searching] at hs
    obtain ⟨t, ht, rfl⟩ := Option.map_eq_some_iff.mp hs
    exact ⟨hsearch.step hpos hok ht, Dispatch.maxSessions_step ht ▸ hpos⟩
  | outside s opcode printed => exact h.elim

/-- A search that finds the last flag set has run past the table. -/
theorem Dispatcher.Searches.findsIdle_of_safe (h : d.Searches) (hs : d.step a = some d')
    (hsafe : d'.Safe) : d.FindsIdle a := by
  cases d with
  | outside s opcode printed => exact trivial
  | running s =>
    obtain ⟨hsearch, hpos⟩ := h
    rw [Dispatcher.step_running hsearch.searching] at hs
    obtain ⟨t, ht, rfl⟩ := Option.map_eq_some_iff.mp hs
    cases a with
    | main =>
      intro hscanned
      cases hflag : (s.workers (s.maxSessions - 1)).toExecute with
      | false => rfl
      | true =>
        obtain ⟨opcode, hm⟩ := MainPc.exists_of_scanned hscanned
        have hlast : s.maxSessions - 1 < s.maxSessions := by omega
        change s.mainStep = some t at ht
        simp only [Dispatch.mainStep, hm, hlast, hflag, if_true, Option.some.injEq] at ht
        subst ht
        have hlt : s.maxSessions - 1 + 1 < s.maxSessions := hsafe.searching opcode _ rfl
        omega
    | _ => exact trivial

/-- In every run of any number of workers in which no search finds the last flag set, requests go
to free workers of the table and later ones can be served; a step that finds it set leads to the
end of the table. -/
theorem dispatcherSafe_of_reaches (hpos : 0 < maxSessions) (hmax : maxSessions ≤ intMax)
    (hr : Reaches Dispatcher.step Dispatcher.FindsIdle (.running (.initial maxSessions)) d) :
    d.Safe ∧ ∀ a d', d.step a = some d' → (d'.Safe ↔ d.FindsIdle a) := by
  have hsearches : d.Searches := by
    refine hr.invariant ⟨searching_initial hmax, hpos⟩ ?_
    exact fun u a v hu hok hs => hu.step hok hs
  refine ⟨hsearches.safe, fun a d' hs => ⟨hsearches.findsIdle_of_safe hs, fun hok => ?_⟩⟩
  exact (hsearches.step hok hs).safe

/-- A second request is read while the worker of the first one is in its session. -/
def secondRequest : List DispatchLabel :=
  .write emptyRequest :: (oneRequest ++ List.replicate 4 .main)

theorem run_secondRequest_idle :
    (runLabels (guarded Dispatcher.step Dispatcher.FindsIdle) (.running (.initial 2))
      secondRequest).map (fun d => match d with
        | .running s => some (s.main, (s.workers 0).toExecute)
        | .outside .. => none) = some (some (.enqueue opCodePublisher 1, true)) := by
  decide +kernel

/-- The second request goes to the second of two workers. -/
theorem secondRequest_safe :
    ∃ s, runLabels (guarded Dispatcher.step Dispatcher.FindsIdle) (.running (.initial 2))
      secondRequest = some (.running s) ∧ s.main = .enqueue opCodePublisher 1 ∧ s.Safe := by
  obtain ⟨d, hd, hrun⟩ := Option.map_eq_some_iff.mp run_secondRequest_idle
  cases d with
  | outside s opcode printed => cases hrun
  | running s =>
    simp only [Option.some.injEq, Prod.mk.injEq] at hrun
    exact ⟨s, hd, hrun.1,
      (dispatcherSafe_of_reaches (by decide) (by decide) (reaches_of_guarded hd)).1⟩

theorem run_secondRequest_busy :
    (runLabels Dispatcher.step (.running (.initial 1)) secondRequest).map (fun d => match d with
      | .running _ => none
      | .outside s opcode printed => some ((s.workers 0).toExecute, opcode, printed)) =
      some (some (true, opCodePublisher, noSessionsLeft)) := by
  decide +kernel

/-- With one worker `function` goes on with the index `-1`. -/
theorem secondRequest_not_safe :
    ∃ d, Reaches Dispatcher.step anyStep (.running (.initial 1)) d ∧ ¬ d.Safe := by
  obtain ⟨d, hd, hrun⟩ := Option.map_eq_some_iff.mp run_secondRequest_busy
  refine ⟨d, reaches_of_runLabels hd, ?_⟩
  cases d with
  | running s => cases hrun
  | outside s opcode printed => exact id

end Runs

end MessageBroker.Broker
