import MessageBroker.Broker.Reply
import MessageBroker.Lib.NamedPipe
import MessageBroker.Lib.Transition

/-!
# The pipe of a reply

The session of a create or remove request opens the pipe of the manager, writes its reply
in five writes and closes it. The manager reads in turns of five reads until the last read
of a turn returns nothing. However their calls follow one another, the manager gets what
`replyLoop` is given at once.
-/

namespace MessageBroker.Broker

open Bytes Transition
open Clients (separator)

/-- What `send_message_manager` writes. -/
structure ManagerReply where
  operation : UInt8
  code : Int32
  /-- What the last write takes from the object of the message. -/
  field : List UInt8
  length : field.length = errorMessageSize

def ManagerReply.chunks (r : ManagerReply) : List (List UInt8) :=
  [[r.operation], [separator], int32Bytes r.code.toInt, [separator], r.field]

/-- Every reply that is sent is written so. -/
theorem chunks_of_sent {operation : UInt8} {code : Int32} {message stale reply : List UInt8}
    (h : sendMessageManager ⟨true, true, true⟩ operation code message stale = some (.sent reply)) :
    ∃ r : ManagerReply, r.operation = operation ∧ r.code = code ∧ r.chunks.flatten = reply := by
  simp only [sendMessageManager, not_true_eq_false, if_false, if_true] at h
  obtain ⟨i, _, h⟩ := Option.bind_eq_some_iff.mp h
  obtain ⟨errorMessage, _, h⟩ := Option.bind_eq_some_iff.mp h
  obtain ⟨_, _, h⟩ := Option.bind_eq_some_iff.mp h
  obtain ⟨field, hfield, h⟩ := Option.bind_eq_some_iff.mp h
  obtain ⟨hle, heq⟩ := Option.ite_none_right_eq_some.mp hfield
  cases heq
  cases h
  let r : ManagerReply :=
    ⟨operation, code, message.take errorMessageSize, List.length_take_of_le hle⟩
  refine ⟨r, rfl, rfl, ?_⟩
  simp [r, ManagerReply.chunks]

/-- The sizes of the reads of a turn. -/
def replyReads : List Nat := [1, 1, 4, 1, errorMessageSize]

theorem ManagerReply.map_length_chunks (r : ManagerReply) :
    r.chunks.map List.length = replyReads := by
  simp [chunks, replyReads, r.length]

/-- The reads of a turn are of the sizes of the writes. -/
theorem ManagerReply.chunk {r : ManagerReply} {k : Nat} {c : List UInt8}
    {rest : List (List UInt8)} (h : r.chunks.drop k = c :: rest) :
    c.length = replyReads.getD k 0 ∧ c ≠ [] ∧ r.chunks.drop (k + 1) = rest := by
  have hk : k < r.chunks.length := by
    by_contra hle
    rw [List.drop_eq_nil_of_le (Nat.le_of_not_lt hle)] at h
    cases h
  rw [List.drop_eq_getElem_cons hk] at h
  obtain ⟨rfl, hrest⟩ := List.cons.inj h
  have hlen : r.chunks[k].length = replyReads.getD k 0 := by
    rw [← r.map_length_chunks]
    simp [hk]
  have hpos : ∀ n ∈ replyReads, 0 < n := by decide
  have hmem : r.chunks[k].length ∈ replyReads := by
    rw [← r.map_length_chunks]
    exact List.mem_map_of_mem (List.getElem_mem hk)
  exact ⟨hlen, List.ne_nil_of_length_pos (hpos _ hmem), hrest⟩

namespace ManagerPipe

inductive Session
  | opening
  | waiting (seen : Nat)
  /-- With the writes that are left; behind them the pipe is closed. -/
  | writing (chunks : List (List UInt8))
  | returned
  /-- With the whole broker, by a write. -/
  | killed

inductive Manager
  | opening
  | waiting (seen : Nat)
  /-- At the `k`-th read of a turn. -/
  | reading (turn k : Nat)
  | returned (v : Verdict)

inductive Label
  | session
  | manager

def Session.held : Session → Nat
  | writing _ | waiting _ => 1
  | opening | returned | killed => 0

def Session.opened : Session → Nat
  | opening => 0
  | _ => 1

/-- What the session has still to write. -/
def Session.left (r : ManagerReply) : Session → List (List UInt8)
  | opening | waiting _ => r.chunks
  | writing chunks => chunks
  | returned | killed => []

def Manager.held : Manager → Nat
  | reading .. | waiting _ => 1
  | opening | returned _ => 0

def Manager.opened : Manager → Nat
  | opening => 0
  | _ => 1

/-- What the manager has still to read. -/
def Manager.unread (r : ManagerReply) : Manager → List (List UInt8)
  | opening | waiting _ => r.chunks
  | reading 0 k => r.chunks.drop k
  | reading (_ + 1) _ | returned _ => []

end ManagerPipe

/-- The pipe with both sides and the variables of the manager. -/
structure ManagerPipe where
  pipe : NamedPipe
  session : ManagerPipe.Session
  manager : ManagerPipe.Manager
  returnCode : Memory
  errorMessage : Memory

namespace ManagerPipe

def initial (frames : Nat → Memory) (stale : Memory) : ManagerPipe :=
  { pipe := .new, session := .opening, manager := .opening, returnCode := frames 0
    errorMessage := stale }

/-- The calls of `send_message_manager`. -/
def sessionStep (capacity : Nat) (r : ManagerReply) (s : ManagerPipe) : Option ManagerPipe :=
  match s.session with
  | .opening =>
    let pc := (s.pipe.waitsFor .writer).elim (Session.writing r.chunks) Session.waiting
    some { s with pipe := s.pipe.openEnd .writer, session := pc }
  | .waiting seen =>
    if s.pipe.opens .reader ≠ seen then some { s with session := .writing r.chunks } else none
  | .writing (c :: chunks) =>
    match s.pipe.write capacity c with
    | .killed => some { s with pipe := s.pipe.closeEnd .writer, session := .killed }
    | .blocked => none
    | .written pipe => some { s with pipe := pipe, session := .writing chunks }
  | .writing [] => some { s with pipe := s.pipe.closeEnd .writer, session := .returned }
  | .returned => none
  | .killed => none

/-- The manager behind the `k`-th read of a turn. The separators and the opcode are read into
`aux`, which nothing looks at. -/
def received (frames : Nat → Memory) (turn k : Nat) (got : List UInt8) (s : ManagerPipe) :
    ManagerPipe :=
  if k = 2 then
    { s with returnCode := store s.returnCode 0 got, manager := .reading turn 3 }
  else if k = 4 then
    let errorMessage := store s.errorMessage 0 got
    if got = [] then
      { s with
        pipe := s.pipe.closeEnd .reader
        manager := .returned (verdict s.returnCode errorMessage)
        errorMessage := errorMessage }
    else
      { s with
        manager := .reading (turn + 1) 0
        returnCode := frames (turn + 1)
        errorMessage := errorMessage }
  else { s with manager := .reading turn (k + 1) }

/-- The calls of the manager on the pipe; `frames` are its `return_code` at the start of a turn. -/
def managerStep (frames : Nat → Memory) (s : ManagerPipe) : Option ManagerPipe :=
  match s.manager with
  | .opening =>
    let pc := (s.pipe.waitsFor .reader).elim (Manager.reading 0 0) Manager.waiting
    some { s with pipe := s.pipe.openEnd .reader, manager := pc }
  | .waiting seen =>
    if s.pipe.opens .writer ≠ seen then some { s with manager := .reading 0 0 } else none
  | .reading turn k => do
    let (got, pipe) ← s.pipe.read (replyReads.getD k 0)
    some ({ s with pipe := pipe }.received frames turn k got)
  | .returned _ => none

def step (capacity : Nat) (r : ManagerReply) (frames : Nat → Memory) (s : ManagerPipe) :
    Label → Option ManagerPipe
  | .session => s.sessionStep capacity r
  | .manager => s.managerStep frames

variable {s s' : ManagerPipe} {capacity : Nat} {r : ManagerReply} {frames : Nat → Memory}
  {stale : Memory}

/-- What a step of the session can do. -/
inductive SessionMoves (capacity : Nat) (r : ManagerReply) (s : ManagerPipe) : ManagerPipe → Prop
  | opens : s.session = .opening → 0 < s.pipe.ends .reader →
      SessionMoves capacity r s
        { s with pipe := s.pipe.openEnd .writer, session := .writing r.chunks }
  | waits : s.session = .opening → s.pipe.ends .reader = 0 →
      SessionMoves capacity r s
        { s with pipe := s.pipe.openEnd .writer, session := .waiting (s.pipe.opens .reader) }
  | wakes (seen : Nat) : s.session = .waiting seen → s.pipe.opens .reader ≠ seen →
      SessionMoves capacity r s { s with session := .writing r.chunks }
  | killed (c : List UInt8) (chunks : List (List UInt8)) : s.session = .writing (c :: chunks) →
      s.pipe.ends .reader = 0 →
      SessionMoves capacity r s { s with pipe := s.pipe.closeEnd .writer, session := .killed }
  | writes (c : List UInt8) (chunks : List (List UInt8)) : s.session = .writing (c :: chunks) →
      0 < s.pipe.ends .reader → s.pipe.bytes.length + c.length ≤ capacity →
      SessionMoves capacity r s
        { s with
          pipe := { s.pipe with bytes := s.pipe.bytes ++ c }
          session := .writing chunks }
  | returns : s.session = .writing [] →
      SessionMoves capacity r s { s with pipe := s.pipe.closeEnd .writer, session := .returned }

/-- What a step of the manager can do. -/
inductive ManagerMoves (frames : Nat → Memory) (s : ManagerPipe) : ManagerPipe → Prop
  | opens : s.manager = .opening → 0 < s.pipe.ends .writer →
      ManagerMoves frames s { s with pipe := s.pipe.openEnd .reader, manager := .reading 0 0 }
  | waits : s.manager = .opening → s.pipe.ends .writer = 0 →
      ManagerMoves frames s
        { s with pipe := s.pipe.openEnd .reader, manager := .waiting (s.pipe.opens .writer) }
  | wakes (seen : Nat) : s.manager = .waiting seen → s.pipe.opens .writer ≠ seen →
      ManagerMoves frames s { s with manager := .reading 0 0 }
  | reads (turn k : Nat) (got : List UInt8) (pipe : NamedPipe) : s.manager = .reading turn k →
      s.pipe.read (replyReads.getD k 0) = some (got, pipe) →
      ManagerMoves frames s ({ s with pipe := pipe }.received frames turn k got)

theorem sessionMoves_iff : s.sessionStep capacity r = some s' ↔ SessionMoves capacity r s s' := by
  constructor
  · intro h
    unfold sessionStep at h
    split at h
    case h_1 hk =>
      cases h
      obtain hclosed | hopen := Nat.eq_zero_or_pos (s.pipe.ends .reader)
      · rw [NamedPipe.waitsFor_of_closed hclosed]
        exact .waits hk hclosed
      · rw [NamedPipe.waitsFor_of_open hopen]
        exact .opens hk hopen
    case h_2 seen hk =>
      obtain ⟨hseen, heq⟩ := Option.ite_none_right_eq_some.mp h
      cases heq
      exact .wakes seen hk hseen
    case h_3 c chunks hk =>
      split at h
      case h_1 hw =>
        cases h
        exact .killed c chunks hk (NamedPipe.write_eq_killed.mp hw)
      case h_2 => cases h
      case h_3 pipe hw =>
        cases h
        obtain ⟨hopen, hroom, rfl⟩ := NamedPipe.write_eq_written.mp hw
        exact .writes c chunks hk hopen hroom
    case h_4 hk =>
      cases h
      exact .returns hk
    case h_5 => cases h
    case h_6 => cases h
  · intro h
    cases h with
    | opens hk hopen =>
      simp only [sessionStep, hk, NamedPipe.waitsFor_of_open (e := .writer) hopen]
      rfl
    | waits hk hclosed =>
      simp only [sessionStep, hk, NamedPipe.waitsFor_of_closed (e := .writer) hclosed]
      rfl
    | wakes seen hk hseen =>
      simp only [sessionStep, hk]
      exact if_pos hseen
    | killed c chunks hk hclosed =>
      simp only [sessionStep, hk, NamedPipe.write_of_closed hclosed]
    | writes c chunks hk hopen hroom =>
      have hw := NamedPipe.write_eq_written.mpr ⟨hopen, hroom, rfl⟩
      simp only [sessionStep, hk, hw]
    | returns hk =>
      simp only [sessionStep, hk]

theorem managerMoves_iff : s.managerStep frames = some s' ↔ ManagerMoves frames s s' := by
  constructor
  · intro h
    unfold managerStep at h
    split at h
    case h_1 hm =>
      cases h
      obtain hclosed | hopen := Nat.eq_zero_or_pos (s.pipe.ends .writer)
      · rw [NamedPipe.waitsFor_of_closed hclosed]
        exact .waits hm hclosed
      · rw [NamedPipe.waitsFor_of_open hopen]
        exact .opens hm hopen
    case h_2 seen hm =>
      obtain ⟨hseen, heq⟩ := Option.ite_none_right_eq_some.mp h
      cases heq
      exact .wakes seen hm hseen
    case h_3 turn k hm =>
      obtain ⟨⟨got, pipe⟩, hread, heq⟩ := Option.bind_eq_some_iff.mp h
      cases heq
      exact .reads turn k got pipe hm hread
    case h_4 => cases h
  · intro h
    cases h with
    | opens hm hopen =>
      simp only [managerStep, hm, NamedPipe.waitsFor_of_open (e := .reader) hopen]
      rfl
    | waits hm hclosed =>
      simp only [managerStep, hm, NamedPipe.waitsFor_of_closed (e := .reader) hclosed]
      rfl
    | wakes seen hm hseen =>
      simp only [managerStep, hm]
      exact if_pos hseen
    | reads turn k got pipe hm hread =>
      simp only [managerStep, hm, hread]
      rfl

/-! ### The invariant -/

/-- What the session knows of the manager: nothing but that it has opened the pipe. -/
def Session.Agrees (m : Manager) : Session → Prop
  | opening => True
  | waiting seen => seen = 0
  | writing _ | returned => m ≠ .opening
  | killed => False

/-- What the manager knows of the session, and what its variables hold. -/
def Agrees (r : ManagerReply) (frames : Nat → Memory) (stale : Memory) (s : ManagerPipe) : Prop :=
  match s.manager with
  | .opening => s.errorMessage = stale
  | .waiting seen => seen = 0 ∧ s.errorMessage = stale
  | .reading 0 k => k < replyReads.length ∧ s.session ≠ .opening ∧ s.errorMessage = stale
  | .reading (turn + 1) k =>
    turn = 0 ∧ k < replyReads.length ∧ s.session ≠ .opening ∧ s.returnCode = frames 1 ∧
      s.errorMessage = store stale 0 r.field
  | .returned v => s.session = .returned ∧ v = verdict (frames 1) (store stale 0 r.field)

/-- The writes that are in the pipe are `queued`. -/
structure Inv (r : ManagerReply) (frames : Nat → Memory) (stale : Memory) (s : ManagerPipe)
    (queued : List (List UInt8)) : Prop where
  bytes : s.pipe.bytes = queued.flatten
  flow : queued ++ s.session.left r = s.manager.unread r
  readers : s.pipe.ends .reader = s.manager.held
  writers : s.pipe.ends .writer = s.session.held
  opensReader : s.pipe.opens .reader = s.manager.opened
  opensWriter : s.pipe.opens .writer = s.session.opened
  session : s.session.Agrees s.manager
  manager : s.Agrees r frames stale

theorem inv_initial : Inv r frames stale (initial frames stale) [] :=
  ⟨rfl, rfl, rfl, rfl, rfl, rfl, trivial, rfl⟩

theorem Manager.unread_suffix (m : Manager) (r : ManagerReply) : m.unread r <:+ r.chunks := by
  match m with
  | opening | waiting _ => exact List.suffix_rfl
  | reading 0 k => exact List.drop_suffix k _
  | reading (_ + 1) _ | returned _ => exact List.nil_suffix

theorem Session.Agrees.mono {m m' : Manager} {pc : Session} (h : pc.Agrees m)
    (hm : m' ≠ .opening) : pc.Agrees m' := by
  cases pc with
  | opening | waiting => exact h
  | writing | returned => exact hm
  | killed => exact h.elim

/-- The session may go on until it returns. -/
theorem Agrees.withSession (h : s.Agrees r frames stale) (hs : s.session ≠ .returned)
    {pc : Session} (hpc : pc ≠ .opening) (pipe : NamedPipe) :
    Agrees r frames stale { s with pipe := pipe, session := pc } := by
  obtain ⟨_, _, manager, _, _⟩ := s
  cases manager with
  | opening | waiting => exact h
  | reading turn k =>
    cases turn with
    | zero => exact ⟨h.1, hpc, h.2.2⟩
    | succ => exact ⟨h.1, h.2.1, hpc, h.2.2.2⟩
  | returned => exact absurd h.1 hs

namespace Inv

variable {queued : List (List UInt8)}

/-- A manager that does not have the pipe open has not opened it, or the session has returned. -/
theorem manager_of_closed (h : Inv r frames stale s queued) (hclosed : s.pipe.ends .reader = 0) :
    s.manager = .opening ∨ s.session = .returned := by
  have hheld := h.readers
  have hagrees := h.manager
  rw [hclosed] at hheld
  unfold Agrees at hagrees
  cases hm : s.manager with
  | opening => exact Or.inl rfl
  | waiting | reading =>
    rw [hm] at hheld
    cases hheld
  | returned =>
    rw [hm] at hagrees
    exact Or.inr hagrees.1

theorem session_of_closed (h : Inv r frames stale s queued) (hclosed : s.pipe.ends .writer = 0) :
    s.session = .opening ∨ s.session = .returned := by
  have hheld := h.writers
  have hagrees := h.session
  rw [hclosed] at hheld
  cases hs : s.session with
  | opening => exact Or.inl rfl
  | waiting | writing =>
    rw [hs] at hheld
    cases hheld
  | returned => exact Or.inr rfl
  | killed =>
    rw [hs] at hagrees
    exact hagrees.elim

/-- The manager has the pipe open while the session writes. -/
theorem open_of_writing (h : Inv r frames stale s queued) {chunks : List (List UInt8)}
    (hs : s.session = .writing chunks) : 0 < s.pipe.ends .reader := by
  have hagrees := h.session
  rw [hs] at hagrees
  by_contra hclosed
  obtain hm | hret := h.manager_of_closed (Nat.eq_zero_of_not_pos hclosed)
  · exact hagrees hm
  · rw [hs] at hret
    cases hret

/-- The first part of an `open` of the session. -/
theorem sessionOpens (h : Inv r frames stale s queued) (hs : s.session = .opening) {pc : Session}
    (hpc : pc = .writing r.chunks ∨ ∃ seen, pc = .waiting seen) (hagrees : pc.Agrees s.manager) :
    Inv r frames stale { s with pipe := s.pipe.openEnd .writer, session := pc } queued := by
  obtain ⟨hbytes, hflow, hreaders, hwriters, hopensReader, hopensWriter, _, hmanager⟩ := h
  rw [hs] at hflow hwriters hopensWriter
  have hheld : (s.pipe.openEnd .writer).ends .writer = 1 := by
    rw [NamedPipe.ends_openEnd, hwriters]
    rfl
  have hopened : (s.pipe.openEnd .writer).opens .writer = 1 := by
    rw [NamedPipe.opens_openEnd, hopensWriter]
    rfl
  have hnot : s.session ≠ .returned := by simp [hs]
  obtain rfl | ⟨seen, rfl⟩ := hpc
  · exact ⟨hbytes, hflow, hreaders, hheld, hopensReader, hopened, hagrees,
      hmanager.withSession hnot (by simp) _⟩
  · exact ⟨hbytes, hflow, hreaders, hheld, hopensReader, hopened, hagrees,
      hmanager.withSession hnot (by simp) _⟩

theorem sessionMoves (h : Inv r frames stale s queued) (hm : SessionMoves capacity r s s') :
    ∃ queued', Inv r frames stale s' queued' := by
  obtain ⟨hbytes, hflow, hreaders, hwriters, hopensReader, hopensWriter, hsession, hmanager⟩ := id h
  cases hm with
  | opens hs hopen =>
    refine ⟨queued, h.sessionOpens hs (Or.inl rfl) fun hm => ?_⟩
    rw [hm] at hreaders
    exact absurd hreaders (Nat.ne_of_gt hopen)
  | waits hs hclosed =>
    obtain hm | hret := h.manager_of_closed hclosed
    · rw [hm] at hopensReader
      exact ⟨queued, h.sessionOpens hs (Or.inr ⟨_, rfl⟩) hopensReader⟩
    · rw [hs] at hret
      cases hret
  | wakes seen hs hseen =>
    rw [hs] at hflow hwriters hopensWriter hsession
    have hne : s.manager ≠ .opening := by
      intro hm
      rw [hm] at hopensReader
      exact hseen (hopensReader.trans (Eq.symm hsession))
    exact ⟨queued, hbytes, hflow, hreaders, hwriters, hopensReader, hopensWriter, hne,
      hmanager.withSession (by simp [hs]) (by simp) _⟩
  | killed c chunks hs hclosed => exact absurd (h.open_of_writing hs) (by omega)
  | writes c chunks hs hopen hroom =>
    rw [hs] at hflow hwriters hopensWriter hsession
    refine ⟨queued ++ [c], ?_, ?_, hreaders, hwriters, hopensReader, hopensWriter, hsession,
      hmanager.withSession (by simp [hs]) (by simp) _⟩
    · simp [hbytes]
    · rw [List.append_assoc]
      exact hflow
  | returns hs =>
    have hopen := h.open_of_writing hs
    rw [hs] at hflow hwriters hopensWriter hsession
    refine ⟨queued, ?_, hflow, hreaders, ?_, hopensReader, hopensWriter, hsession,
      hmanager.withSession (by simp [hs]) (by simp) _⟩
    · rw [NamedPipe.closeEnd_bytes_of_open hopen]
      exact hbytes
    · rw [NamedPipe.ends_closeEnd, hwriters]
      rfl

/-- The first part of an `open` of the manager. -/
theorem managerOpens (h : Inv r frames stale s queued) (hm : s.manager = .opening) {pc : Manager}
    (hpc : pc = .reading 0 0 ∨ pc = .waiting 0)
    (hagrees : Agrees r frames stale { s with pipe := s.pipe.openEnd .reader, manager := pc }) :
    Inv r frames stale { s with pipe := s.pipe.openEnd .reader, manager := pc } queued := by
  obtain ⟨hbytes, hflow, hreaders, hwriters, hopensReader, hopensWriter, hsession, _⟩ := h
  rw [hm] at hflow hreaders hopensReader
  have hheld : (s.pipe.openEnd .reader).ends .reader = 1 := by
    rw [NamedPipe.ends_openEnd, hreaders]
    rfl
  have hopened : (s.pipe.openEnd .reader).opens .reader = 1 := by
    rw [NamedPipe.opens_openEnd, hopensReader]
    rfl
  obtain rfl | rfl := hpc
  · exact ⟨hbytes, hflow, hheld, hwriters, hopened, hopensWriter, hsession.mono (by simp), hagrees⟩
  · exact ⟨hbytes, hflow, hheld, hwriters, hopened, hopensWriter, hsession.mono (by simp), hagrees⟩

/-- A read of the first turn takes the next write. -/
theorem firstTurn (h : Inv r frames stale s queued) {k : Nat} (hm : s.manager = .reading 0 k)
    {got : List UInt8} {pipe : NamedPipe}
    (hread : s.pipe.read (replyReads.getD k 0) = some (got, pipe)) :
    ∃ queued', Inv r frames stale ({ s with pipe := pipe }.received frames 0 k got) queued' := by
  obtain ⟨hbytes, hflow, hreaders, hwriters, hopensReader, hopensWriter, hsession, hagrees⟩ := id h
  rw [hm] at hflow hreaders hopensReader
  rw [Agrees, hm] at hagrees
  obtain ⟨hk, hne, hstale⟩ := hagrees
  cases queued with
  | nil =>
    -- without a write the read waits for the session, which has all of them before it
    obtain ⟨hclosed, _⟩ := NamedPipe.read_eq_some.mp hread
    obtain hs | hs := h.session_of_closed (hclosed hbytes)
    · exact absurd hs hne
    · rw [hs] at hflow
      have hlen := congrArg List.length hflow
      have hall : r.chunks.length = replyReads.length := by
        rw [← r.map_length_chunks, List.length_map]
      simp only [Session.left, Manager.unread, List.nil_append, List.length_nil,
        List.length_drop] at hlen
      omega
  | cons c queued =>
    obtain ⟨hlen, hc, hrest⟩ := ManagerReply.chunk hflow.symm
    have heq := NamedPipe.read_first hbytes hc hlen
    rw [hread] at heq
    cases heq
    refine ⟨queued, ?_⟩
    have hfive : replyReads.length = 5 := rfl
    unfold received
    by_cases hcode : k = 2
    · subst hcode
      exact ⟨rfl, hrest.symm, hreaders, hwriters, hopensReader, hopensWriter,
        hsession.mono (by simp), by decide, hne, hstale⟩
    · rw [if_neg hcode]
      by_cases hfield : k = 4
      · subst hfield
        obtain ⟨rfl, _⟩ := List.cons.inj hflow
        rw [if_pos rfl, if_neg hc]
        refine ⟨rfl, hrest.symm, hreaders, hwriters, hopensReader, hopensWriter,
          hsession.mono (by simp), rfl, by decide, hne, rfl, ?_⟩
        exact congrArg (store · 0 r.field) hstale
      · rw [if_neg hfield]
        exact ⟨rfl, hrest.symm, hreaders, hwriters, hopensReader, hopensWriter,
          hsession.mono (by simp), show k + 1 < replyReads.length by omega, hne, hstale⟩

/-- The second turn begins behind the last write, and each of its reads waits for the session to
close the pipe. -/
theorem secondTurn (h : Inv r frames stale s queued) {turn k : Nat}
    (hm : s.manager = .reading (turn + 1) k) {got : List UInt8} {pipe : NamedPipe}
    (hread : s.pipe.read (replyReads.getD k 0) = some (got, pipe)) :
    Inv r frames stale ({ s with pipe := pipe }.received frames (turn + 1) k got) [] := by
  obtain ⟨hbytes, hflow, hreaders, hwriters, hopensReader, hopensWriter, hsession, hagrees⟩ := id h
  rw [hm] at hflow hreaders hopensReader
  rw [Agrees, hm] at hagrees
  obtain ⟨rfl, hk, hne, hcode, hmessage⟩ := hagrees
  obtain ⟨rfl, hleft⟩ := List.append_eq_nil_iff.mp hflow
  obtain ⟨hclosed, heq⟩ := NamedPipe.read_eq_some.mp hread
  have hs := (h.session_of_closed (hclosed hbytes)).resolve_left hne
  have hempty : s.pipe.bytes = [] := hbytes
  have hpipe : { s.pipe with bytes := [] } = s.pipe := by
    rw [← hempty]
  rw [hempty, List.take_nil, List.drop_nil, hpipe] at heq
  cases heq
  have hfive : replyReads.length = 5 := rfl
  unfold received
  by_cases htwo : k = 2
  · subst htwo
    rw [if_pos rfl]
    refine ⟨hbytes, hflow, hreaders, hwriters, hopensReader, hopensWriter, hsession.mono (by simp),
      rfl, by decide, hne, ?_, hmessage⟩
    exact (store_nil s.returnCode 0).trans hcode
  · rw [if_neg htwo]
    by_cases hfour : k = 4
    · rw [if_pos hfour, if_pos rfl]
      refine ⟨?_, hflow, ?_, hwriters, hopensReader, hopensWriter, hsession.mono (by simp), hs, ?_⟩
      · obtain hsame | ⟨hnil, _⟩ := s.pipe.closeEnd_bytes .reader
        · exact hsame.trans hbytes
        · exact hnil
      · rw [NamedPipe.ends_closeEnd, hreaders]
        rfl
      · rw [← hcode, ← hmessage]
        exact congrArg (verdict s.returnCode) (store_nil ..)
    · rw [if_neg hfour]
      exact ⟨hbytes, hflow, hreaders, hwriters, hopensReader, hopensWriter, hsession.mono (by simp),
        rfl, show k + 1 < replyReads.length by omega, hne, hcode, hmessage⟩

theorem managerMoves (h : Inv r frames stale s queued) (hm : ManagerMoves frames s s') :
    ∃ queued', Inv r frames stale s' queued' := by
  cases hm with
  | opens hm hopen =>
    have hstale := h.manager
    rw [Agrees, hm] at hstale
    refine ⟨queued, h.managerOpens hm (Or.inl rfl) ⟨by decide, fun hs => ?_, hstale⟩⟩
    have hheld := h.writers
    rw [show s.session = .opening from hs] at hheld
    exact absurd hheld (Nat.ne_of_gt hopen)
  | waits hm hclosed =>
    have hstale := h.manager
    have hsession := h.session
    have hopens := h.opensWriter
    rw [Agrees, hm] at hstale
    obtain hs | hs := h.session_of_closed hclosed
    · rw [hs] at hopens
      exact ⟨queued, h.managerOpens hm (Or.inr (congrArg Manager.waiting hopens)) ⟨hopens, hstale⟩⟩
    · rw [hs] at hsession
      exact absurd hm hsession
  | wakes seen hm hseen =>
    obtain ⟨hbytes, hflow, hreaders, hwriters, hopensReader, hopensWriter, hsession, hagrees⟩ := h
    rw [hm] at hflow hreaders hopensReader
    rw [Agrees, hm] at hagrees
    obtain ⟨hzero, hstale⟩ := hagrees
    refine ⟨queued, hbytes, hflow, hreaders, hwriters, hopensReader, hopensWriter,
      hsession.mono (by simp), by decide, fun hs => ?_, hstale⟩
    rw [show s.session = .opening from hs] at hopensWriter
    exact hseen (hopensWriter.trans hzero.symm)
  | reads turn k got pipe hm hread =>
    cases turn with
    | zero => exact h.firstTurn hm hread
    | succ turn => exact ⟨[], h.secondTurn hm hread⟩

end Inv

/-! ### Progress -/

def Session.remaining : Session → Nat
  | opening => replyReads.length + 3
  | waiting _ => replyReads.length + 2
  | writing chunks => chunks.length + 1
  | returned | killed => 0

def Manager.remaining : Manager → Nat
  | opening => 2 * replyReads.length + 2
  | waiting _ => 2 * replyReads.length + 1
  | reading turn k => 2 * replyReads.length - (replyReads.length * turn + k)
  | returned _ => 0

def remaining (s : ManagerPipe) : Nat := s.session.remaining + s.manager.remaining

theorem ManagerReply.length_chunks (r : ManagerReply) : r.chunks.length = replyReads.length := by
  rw [← r.map_length_chunks, List.length_map]

theorem remaining_of_sessionMoves (hm : SessionMoves capacity r s s') :
    s'.remaining < s.remaining := by
  have hchunks := ManagerReply.length_chunks r
  cases hm with
  | opens hs | waits hs | wakes _ hs | killed _ _ hs | writes _ _ hs | returns hs =>
    simp only [remaining, hs, Session.remaining, List.length_cons]
    omega

/-- Both turns of the manager end. -/
theorem Agrees.bounded (h : s.Agrees r frames stale) {turn k : Nat}
    (hm : s.manager = .reading turn k) : turn ≤ 1 ∧ k < replyReads.length := by
  rw [Agrees, hm] at h
  cases turn with
  | zero => exact ⟨Nat.zero_le 1, h.1⟩
  | succ => exact ⟨(congrArg Nat.succ h.1).le, h.2.1⟩

theorem remaining_of_managerMoves (h : s.Agrees r frames stale) (hm : ManagerMoves frames s s') :
    s'.remaining < s.remaining := by
  have hfive : replyReads.length = 5 := rfl
  cases hm with
  | opens hm | waits hm | wakes _ hm =>
    simp only [remaining, hm, Manager.remaining]
    omega
  | reads turn k got pipe hm =>
    obtain ⟨hturn, hk⟩ := h.bounded hm
    have hbefore : s.remaining = s.session.remaining + (10 - (5 * turn + k)) := by
      rw [remaining, hm]
      rfl
    rw [hbefore]
    unfold received
    split
    · simp only [remaining, Manager.remaining, hfive]
      omega
    · split
      · split
        · simp only [remaining, Manager.remaining]
          omega
        · simp only [remaining, Manager.remaining, hfive]
          omega
      · simp only [remaining, Manager.remaining, hfive]
        omega

namespace Inv

variable {queued : List (List UInt8)}

theorem step (h : Inv r frames stale s queued) {a : Label}
    (ha : s.step capacity r frames a = some s') :
    s'.remaining < s.remaining ∧ ∃ queued', Inv r frames stale s' queued' := by
  cases a with
  | session =>
    have hm := sessionMoves_iff.mp ha
    exact ⟨remaining_of_sessionMoves hm, h.sessionMoves hm⟩
  | manager =>
    have hm := managerMoves_iff.mp ha
    exact ⟨remaining_of_managerMoves h.manager hm, h.managerMoves hm⟩

/-- A run has finitely many calls. -/
theorem run (h : Inv r frames stale s queued) {as : List Label} {t : ManagerPipe}
    (hrun : runLabels (ManagerPipe.step capacity r frames) s as = some t) :
    as.length + t.remaining ≤ s.remaining ∧ ∃ queued', Inv r frames stale t queued' := by
  induction as generalizing s queued with
  | nil =>
    cases hrun
    exact ⟨Nat.le_of_eq (Nat.zero_add _), queued, h⟩
  | cons a as ih =>
    obtain ⟨u, hu, hrest⟩ := Option.bind_eq_some_iff.mp hrun
    obtain ⟨hlt, queued', h'⟩ := h.step hu
    obtain ⟨hle, ht⟩ := ih h' hrest
    refine ⟨?_, ht⟩
    rw [List.length_cons]
    omega

/-- The pipe has room for the whole reply. -/
theorem room (h : Inv r frames stale s queued) {c : List UInt8} {chunks : List (List UInt8)}
    (hs : s.session = .writing (c :: chunks)) :
    s.pipe.bytes.length + c.length ≤ replyReads.sum := by
  obtain ⟨received, hreceived⟩ := s.manager.unread_suffix r
  have hflow := h.flow
  rw [hs] at hflow
  rw [← r.map_length_chunks, ← List.length_flatten, ← hreceived, ← hflow, h.bytes]
  simp only [Session.left, List.flatten_append, List.flatten_cons, List.length_append]
  omega

/-- A manager that opens the pipe does not wait to have done so. -/
theorem moves_of_opening (hm : s.manager = .opening) :
    ∃ a s', s.step capacity r frames a = some s' := by
  obtain hclosed | hopen := Nat.eq_zero_or_pos (s.pipe.ends .writer)
  · exact ⟨.manager, _, managerMoves_iff.mpr (.waits hm hclosed)⟩
  · exact ⟨.manager, _, managerMoves_iff.mpr (.opens hm hopen)⟩

/-- A session that waits waits for the manager, which goes on. -/
theorem moves_of_waiting (h : Inv r frames stale s queued) {seen : Nat}
    (hs : s.session = .waiting seen) : ∃ a s', s.step capacity r frames a = some s' := by
  have hsession := h.session
  rw [hs] at hsession
  by_cases hm : s.manager = .opening
  · exact moves_of_opening hm
  · have hopened : s.pipe.opens .reader = 1 := by
      rw [h.opensReader]
      cases hk : s.manager with
      | opening => exact absurd hk hm
      | waiting | reading | returned => rfl
    refine ⟨.session, _, sessionMoves_iff.mpr (.wakes seen hs ?_)⟩
    rw [hopened, show seen = 0 from hsession]
    exact Nat.one_ne_zero

/-- Behind the session the manager waits for nothing. -/
theorem moves_of_returned (h : Inv r frames stale s queued) (hs : s.session = .returned) :
    (∃ v, s.manager = .returned v) ∨ ∃ a s', s.step capacity r frames a = some s' := by
  have hsession := h.session
  have hwriters := h.writers
  have hopens := h.opensWriter
  have hagrees := h.manager
  rw [hs] at hsession hwriters hopens
  rw [Agrees] at hagrees
  cases hm : s.manager with
  | opening => exact absurd hm hsession
  | waiting seen =>
    rw [hm] at hagrees
    refine Or.inr ⟨.manager, _, managerMoves_iff.mpr (.wakes seen hm ?_)⟩
    rw [hopens, hagrees.1]
    exact Nat.one_ne_zero
  | reading turn k =>
    have hread := fun n => NamedPipe.read_eq_some.mpr
      ⟨fun _ => hwriters, (rfl : _ = (s.pipe.bytes.take n, _))⟩
    exact Or.inr ⟨.manager, _, managerMoves_iff.mpr (.reads turn k _ _ hm (hread _))⟩
  | returned v => exact Or.inl ⟨v, rfl⟩

/-- Until the manager has returned, one of the two can go on. -/
theorem moves (h : Inv r frames stale s queued)
    (hcapacity : replyReads.sum ≤ capacity) :
    (∃ v, s.manager = .returned v) ∨ ∃ a s', s.step capacity r frames a = some s' := by
  have hsession := h.session
  cases hs : s.session with
  | opening =>
    obtain hclosed | hopen := Nat.eq_zero_or_pos (s.pipe.ends .reader)
    · exact Or.inr ⟨.session, _, sessionMoves_iff.mpr (.waits hs hclosed)⟩
    · exact Or.inr ⟨.session, _, sessionMoves_iff.mpr (.opens hs hopen)⟩
  | waiting seen => exact Or.inr (h.moves_of_waiting hs)
  | writing chunks =>
    cases chunks with
    | nil => exact Or.inr ⟨.session, _, sessionMoves_iff.mpr (.returns hs)⟩
    | cons c chunks =>
      have hroom := (h.room hs).trans hcapacity
      have hwrites := SessionMoves.writes (r := r) c chunks hs (h.open_of_writing hs) hroom
      exact Or.inr ⟨.session, _, sessionMoves_iff.mpr hwrites⟩
  | returned => exact h.moves_of_returned hs
  | killed =>
    rw [hs] at hsession
    exact hsession.elim

end Inv

/-! ### What the manager gets -/

theorem replyLoop_chunks (r : ManagerReply) :
    replyLoop frames 0 stale r.chunks.flatten =
      verdict (frames 1) (store stale 0 r.field) := by
  have hflatten : r.chunks.flatten =
      (r.operation :: separator :: (int32Bytes r.code.toInt ++ [separator])) ++ r.field := by
    simp [ManagerReply.chunks]
  have hdrop : r.chunks.flatten.drop 7 = r.field := by
    rw [hflatten]
    exact List.drop_left' (by simp)
  have hnonempty : ¬ errorMessageSize = 0 := by decide
  rw [replyLoop]
  rw [hdrop, List.take_of_length_le r.length.le, r.length, if_neg hnonempty,
    List.drop_eq_nil_of_le r.length.le, replyLoop_nil]

/-- **One reply at a time**: in whatever order the session and the manager make their calls, the
session is never killed, the manager gets what its loop makes of the whole reply at once, only
when the session has returned, and neither is left waiting. -/
theorem replied_of_runLabels (hcapacity : replyReads.sum ≤ capacity) {as : List Label}
    (hrun : runLabels (step capacity r frames) (initial frames stale) as = some s) :
    as.length ≤ 20 ∧ s.session ≠ .killed ∧
      (∀ v, s.manager = .returned v →
        s.session = .returned ∧ v = replyLoop frames 0 stale r.chunks.flatten) ∧
      ((∀ a, s.step capacity r frames a = none) → s.session = .returned ∧
        s.manager = .returned (replyLoop frames 0 stale r.chunks.flatten)) := by
  obtain ⟨hle, queued, h⟩ := inv_initial.run hrun
  have hdone : ∀ v, s.manager = .returned v →
      s.session = .returned ∧ v = replyLoop frames 0 stale r.chunks.flatten := by
    intro v hm
    have hagrees := h.manager
    rw [Agrees, hm] at hagrees
    rwa [replyLoop_chunks]
  refine ⟨(Nat.le_add_right ..).trans hle, fun hs => ?_, hdone, fun hstuck => ?_⟩
  · have hsession := h.session
    rw [hs] at hsession
    exact hsession
  · obtain ⟨v, hm⟩ | ⟨a, s', ha⟩ := h.moves hcapacity
    · obtain ⟨hs, hv⟩ := hdone v hm
      exact ⟨hs, hv ▸ hm⟩
    · rw [hstuck a] at ha
      cases ha

/-- A refusal with an empty message. -/
def refusal : ManagerReply :=
  ⟨opCodeBoxCreateR, -1, List.replicate errorMessageSize 0, List.length_replicate⟩

/-- The manager opens the pipe first and is about to read when the session has not yet written. -/
def wholeReply : List Label :=
  [.manager, .session, .manager] ++ List.replicate 6 .session ++ List.replicate 10 .manager

set_option maxRecDepth 8000 in
theorem refusal_replied : ∃ s : ManagerPipe,
    runLabels (step 4096 refusal fun _ _ => 0) (initial (fun _ _ => 0) fun _ => 1) wholeReply =
        some s ∧
      s.session = .returned ∧
      s.manager = .returned (replyLoop (fun _ _ => 0) 0 (fun _ => 1) refusal.chunks.flatten) := by
  have hrun : runLabels (step 4096 refusal fun _ _ => 0) (initial (fun _ _ => 0) fun _ => 1)
    wholeReply = some _ := rfl
  obtain ⟨_, _, _, hstuck⟩ := replied_of_runLabels (by decide) hrun
  exact ⟨_, hrun, hstuck fun a => by cases a <;> rfl⟩

end ManagerPipe

end MessageBroker.Broker
