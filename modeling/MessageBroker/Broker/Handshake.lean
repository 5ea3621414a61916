import MessageBroker.Lib.NamedPipe
import MessageBroker.Lib.Transition
import MessageBroker.Broker.Chunks

/-!
# The opening of a session

A client pipe is opened twice on each side: the session opens it to answer `OK` or `ER`,
and an accepted client and its session open it again for the messages, a publisher the
other way round. Nothing but the calls of `open` brings the two into step.
-/

namespace MessageBroker.Broker

variable {γ σ : Type}

/-- What stands at the path of a client pipe. -/
inductive PathState
  | clientPipe
  | missing
  /-- A pipe that a `mkfifo` has made that looks for the client pipe. -/
  | probe
deriving DecidableEq

/-- Where the client stands behind its request; `γ` are the places in its loop. -/
inductive ClientPc (γ : Type)
  | opening
  | aborted
  | waiting (seen : Nat)
  | reading
  | closing (auxBuffer : List UInt8)
  | comparing (auxBuffer : List UInt8)
  | refused
  | reopening
  | failed
  | rewaiting (seen : Nat)
  | looping (l : γ)

/-- Where the session stands behind its test of the box; `σ` are the places in its loop. -/
inductive SessionPc (σ : Type)
  | opening
  | aborted
  | waiting (seen : Nat)
  | writing
  | closing
  | returned
  | reopening
  | failed
  | rewaiting (seen : Nat)
  | looping (l : σ)
  /-- The broker has been killed. -/
  | killed

/-- A client and its session, with the bytes that went through the pipe behind the answer. -/
structure Connection (γ σ : Type) where
  /-- The session answers `OK`. -/
  accepted : Bool
  path : PathState
  pipe : NamedPipe
  client : ClientPc γ
  session : SessionPc σ
  sent : List UInt8
  received : List UInt8

def okReply : List UInt8 := ['O'.toUInt8, 'K'.toUInt8, 0]

def reply (accepted : Bool) : List UInt8 :=
  if accepted then okReply else ['E'.toUInt8, 'R'.toUInt8, 0]

/-- The outcome of `strcmp`, which three bytes decide. -/
def saysOk (auxBuffer : List UInt8) : Bool := decide (auxBuffer.take 3 = okReply)

namespace Connection

def initial (accepted : Bool) : Connection γ σ :=
  { accepted := accepted, path := .clientPipe, pipe := .new, client := .opening
    session := .opening, sent := [], received := [] }

/-- A call of `open` for the given end, with the place of the caller if it returns, waits or
fails. A pipe made by a probe is opened by nobody else, so that the call does not return. -/
def openPath {π : Type} (s : Connection γ σ) (e : PipeEnd) (returned : π) (waiting : Nat → π)
    (failed : π) : Option (π × Connection γ σ) :=
  match s.path with
  | .clientPipe =>
    some ((s.pipe.waitsFor e).elim returned waiting, { s with pipe := s.pipe.openEnd e })
  | .missing => some (failed, s)
  | .probe => none

/-- The client up to its loop; `again` is the end that it opens the second time, and `auxBuffer`
what its array holds before. -/
def clientStep (again : PipeEnd) (auxBuffer : List UInt8) (start : γ) (s : Connection γ σ) :
    Option (Connection γ σ) :=
  match s.client with
  | .opening => do
    let (pc, s) ← s.openPath .reader .reading .waiting .aborted
    some { s with client := pc }
  | .waiting seen =>
    if s.pipe.opens .writer ≠ seen then some { s with client := .reading } else none
  | .reading => do
    let (got, pipe) ← s.pipe.read 3
    some { s with pipe := pipe, client := .closing (readInto got auxBuffer) }
  | .closing b => some { s with pipe := s.pipe.closeEnd .reader, client := .comparing b }
  | .comparing b =>
    if saysOk b then some { s with client := .reopening }
    else some { s with path := .missing, client := .refused }
  | .reopening => do
    let (pc, s) ← s.openPath again (.looping start) .rewaiting .failed
    some { s with client := pc }
  | .rewaiting seen =>
    if s.pipe.opens again.other ≠ seen then some { s with client := .looping start } else none
  | _ => none

/-- The session up to its loop. -/
def sessionStep (again : PipeEnd) (capacity : Nat) (start : σ) (s : Connection γ σ) :
    Option (Connection γ σ) :=
  match s.session with
  | .opening => do
    let (pc, s) ← s.openPath .writer .writing .waiting .aborted
    some { s with session := pc }
  | .waiting seen =>
    if s.pipe.opens .reader ≠ seen then some { s with session := .writing } else none
  | .writing =>
    match s.pipe.write capacity (reply s.accepted) with
    | .killed => some { s with pipe := s.pipe.closeEnd .writer, session := .killed }
    | .blocked => none
    | .written pipe => some { s with pipe := pipe, session := .closing }
  | .closing =>
    let pc := if s.accepted then .reopening else .returned
    some { s with pipe := s.pipe.closeEnd .writer, session := pc }
  | .reopening => do
    let (pc, s) ← s.openPath again.other (.looping start) .rewaiting .failed
    some { s with session := pc }
  | .rewaiting seen =>
    if s.pipe.opens again ≠ seen then some { s with session := .looping start } else none
  | _ => none

end Connection

/-! ### What a step does -/

/-- What a step of the client up to its loop can do. -/
inductive ClientMoves (again : PipeEnd) (auxBuffer : List UInt8) (start : γ)
    (s : Connection γ σ) : Connection γ σ → Prop
  | opens : s.client = .opening → s.path = .clientPipe → 0 < s.pipe.ends .writer →
      ClientMoves again auxBuffer start s
        { s with pipe := s.pipe.openEnd .reader, client := .reading }
  | waits : s.client = .opening → s.path = .clientPipe → s.pipe.ends .writer = 0 →
      ClientMoves again auxBuffer start s
        { s with pipe := s.pipe.openEnd .reader, client := .waiting (s.pipe.opens .writer) }
  | aborts : s.client = .opening → s.path = .missing →
      ClientMoves again auxBuffer start s { s with client := .aborted }
  | wakes (seen : Nat) : s.client = .waiting seen → s.pipe.opens .writer ≠ seen →
      ClientMoves again auxBuffer start s { s with client := .reading }
  | reads : s.client = .reading → (s.pipe.bytes = [] → s.pipe.ends .writer = 0) →
      ClientMoves again auxBuffer start s
        { s with
          pipe := { s.pipe with bytes := s.pipe.bytes.drop 3 }
          client := .closing (readInto (s.pipe.bytes.take 3) auxBuffer) }
  | closes (b : List UInt8) : s.client = .closing b →
      ClientMoves again auxBuffer start s
        { s with pipe := s.pipe.closeEnd .reader, client := .comparing b }
  | accepted (b : List UInt8) : s.client = .comparing b → b.take 3 = okReply →
      ClientMoves again auxBuffer start s { s with client := .reopening }
  | refused (b : List UInt8) : s.client = .comparing b → b.take 3 ≠ okReply →
      ClientMoves again auxBuffer start s { s with path := .missing, client := .refused }
  | reopens : s.client = .reopening → s.path = .clientPipe → 0 < s.pipe.ends again.other →
      ClientMoves again auxBuffer start s
        { s with pipe := s.pipe.openEnd again, client := .looping start }
  | rewaits : s.client = .reopening → s.path = .clientPipe → s.pipe.ends again.other = 0 →
      ClientMoves again auxBuffer start s
        { s with pipe := s.pipe.openEnd again, client := .rewaiting (s.pipe.opens again.other) }
  | fails : s.client = .reopening → s.path = .missing →
      ClientMoves again auxBuffer start s { s with client := .failed }
  | rewakes (seen : Nat) : s.client = .rewaiting seen → s.pipe.opens again.other ≠ seen →
      ClientMoves again auxBuffer start s { s with client := .looping start }

/-- What a step of the session up to its loop can do. -/
inductive SessionMoves (again : PipeEnd) (start : σ) (s : Connection γ σ) :
    Connection γ σ → Prop
  | opens : s.session = .opening → s.path = .clientPipe → 0 < s.pipe.ends .reader →
      SessionMoves again start s
        { s with pipe := s.pipe.openEnd .writer, session := .writing }
  | waits : s.session = .opening → s.path = .clientPipe → s.pipe.ends .reader = 0 →
      SessionMoves again start s
        { s with pipe := s.pipe.openEnd .writer, session := .waiting (s.pipe.opens .reader) }
  | aborts : s.session = .opening → s.path = .missing →
      SessionMoves again start s { s with session := .aborted }
  | wakes (seen : Nat) : s.session = .waiting seen → s.pipe.opens .reader ≠ seen →
      SessionMoves again start s { s with session := .writing }
  | killed : s.session = .writing → s.pipe.ends .reader = 0 →
      SessionMoves again start s
        { s with pipe := s.pipe.closeEnd .writer, session := .killed }
  | writes : s.session = .writing → 0 < s.pipe.ends .reader →
      SessionMoves again start s
        { s with
          pipe := { s.pipe with bytes := s.pipe.bytes ++ reply s.accepted }
          session := .closing }
  | closes : s.session = .closing → s.accepted = true →
      SessionMoves again start s
        { s with pipe := s.pipe.closeEnd .writer, session := .reopening }
  | returns : s.session = .closing → s.accepted = false →
      SessionMoves again start s
        { s with pipe := s.pipe.closeEnd .writer, session := .returned }
  | reopens : s.session = .reopening → s.path = .clientPipe → 0 < s.pipe.ends again →
      SessionMoves again start s
        { s with pipe := s.pipe.openEnd again.other, session := .looping start }
  | rewaits : s.session = .reopening → s.path = .clientPipe → s.pipe.ends again = 0 →
      SessionMoves again start s
        { s with pipe := s.pipe.openEnd again.other, session := .rewaiting (s.pipe.opens again) }
  | fails : s.session = .reopening → s.path = .missing →
      SessionMoves again start s { s with session := .failed }
  | rewakes (seen : Nat) : s.session = .rewaiting seen → s.pipe.opens again ≠ seen →
      SessionMoves again start s { s with session := .looping start }

section

variable {again : PipeEnd} {auxBuffer : List UInt8} {capacity : Nat} {clientStart : γ}
  {sessionStart : σ} {s s' : Connection γ σ}

theorem Connection.openPath_eq_some {π : Type} {e : PipeEnd} {returned failed : π}
    {waiting : Nat → π} {r : π × Connection γ σ}
    (h : s.openPath e returned waiting failed = some r) :
    (s.path = .clientPipe ∧ 0 < s.pipe.ends e.other ∧
      r = (returned, { s with pipe := s.pipe.openEnd e })) ∨
    (s.path = .clientPipe ∧ s.pipe.ends e.other = 0 ∧
      r = (waiting (s.pipe.opens e.other), { s with pipe := s.pipe.openEnd e })) ∨
    s.path = .missing ∧ r = (failed, s) := by
  unfold openPath at h
  split at h
  case h_1 hpath =>
    cases h
    obtain hclosed | hopen := Nat.eq_zero_or_pos (s.pipe.ends e.other)
    · rw [NamedPipe.waitsFor_of_closed hclosed]
      exact Or.inr (Or.inl ⟨hpath, hclosed, rfl⟩)
    · rw [NamedPipe.waitsFor_of_open hopen]
      exact Or.inl ⟨hpath, hopen, rfl⟩
  case h_2 hpath =>
    cases h
    exact Or.inr (Or.inr ⟨hpath, rfl⟩)
  case h_3 => cases h

theorem moves_of_clientStep (h : s.clientStep again auxBuffer clientStart = some s') :
    ClientMoves again auxBuffer clientStart s s' := by
  unfold Connection.clientStep at h
  split at h
  case h_1 hc =>
    obtain ⟨r, hr, heq⟩ := Option.bind_eq_some_iff.mp h
    cases heq
    obtain ⟨hp, ho, rfl⟩ | ⟨hp, ho, rfl⟩ | ⟨hp, rfl⟩ := Connection.openPath_eq_some hr
    · exact .opens hc hp ho
    · exact .waits hc hp ho
    · exact .aborts hc hp
  case h_2 seen hc =>
    obtain ⟨hseen, heq⟩ := Option.ite_none_right_eq_some.mp h
    cases heq
    exact .wakes seen hc hseen
  case h_3 hc =>
    obtain ⟨r, hr, heq⟩ := Option.bind_eq_some_iff.mp h
    cases heq
    obtain ⟨hwriter, rfl⟩ := NamedPipe.read_eq_some.mp hr
    exact .reads hc hwriter
  case h_4 b hc =>
    cases h
    exact .closes b hc
  case h_5 b hc =>
    by_cases hok : b.take 3 = okReply
    · rw [saysOk, decide_eq_true hok] at h
      cases h
      exact .accepted b hc hok
    · rw [saysOk, decide_eq_false hok] at h
      cases h
      exact .refused b hc hok
  case h_6 hc =>
    obtain ⟨r, hr, heq⟩ := Option.bind_eq_some_iff.mp h
    cases heq
    obtain ⟨hp, ho, rfl⟩ | ⟨hp, ho, rfl⟩ | ⟨hp, rfl⟩ := Connection.openPath_eq_some hr
    · exact .reopens hc hp ho
    · exact .rewaits hc hp ho
    · exact .fails hc hp
  case h_7 seen hc =>
    obtain ⟨hseen, heq⟩ := Option.ite_none_right_eq_some.mp h
    cases heq
    exact .rewakes seen hc hseen
  case h_8 => cases h

theorem moves_of_sessionStep (h : s.sessionStep again capacity sessionStart = some s') :
    SessionMoves again sessionStart s s' := by
  unfold Connection.sessionStep at h
  split at h
  case h_1 hc =>
    obtain ⟨r, hr, heq⟩ := Option.bind_eq_some_iff.mp h
    cases heq
    obtain ⟨hp, ho, rfl⟩ | ⟨hp, ho, rfl⟩ | ⟨hp, rfl⟩ := Connection.openPath_eq_some hr
    · exact .opens hc hp ho
    · exact .waits hc hp ho
    · exact .aborts hc hp
  case h_2 seen hc =>
    obtain ⟨hseen, heq⟩ := Option.ite_none_right_eq_some.mp h
    cases heq
    exact .wakes seen hc hseen
  case h_3 hc =>
    split at h
    case h_1 hw =>
      cases h
      exact .killed hc (NamedPipe.write_eq_killed.mp hw)
    case h_2 => cases h
    case h_3 pipe hw =>
      cases h
      obtain ⟨hopen, _, rfl⟩ := NamedPipe.write_eq_written.mp hw
      exact .writes hc hopen
  case h_4 hc =>
    cases h
    by_cases hacc : s.accepted = true
    · rw [if_pos hacc]
      exact .closes hc hacc
    · rw [if_neg hacc]
      exact .returns hc (Bool.eq_false_of_not_eq_true hacc)
  case h_5 hc =>
    obtain ⟨r, hr, heq⟩ := Option.bind_eq_some_iff.mp h
    cases heq
    obtain ⟨hp, ho, rfl⟩ | ⟨hp, ho, rfl⟩ | ⟨hp, rfl⟩ := Connection.openPath_eq_some hr
    · rw [PipeEnd.other_other] at ho
      exact .reopens hc hp ho
    · rw [PipeEnd.other_other] at ho ⊢
      exact .rewaits hc hp ho
    · exact .fails hc hp
  case h_6 seen hc =>
    obtain ⟨hseen, heq⟩ := Option.ite_none_right_eq_some.mp h
    cases heq
    exact .rewakes seen hc hseen
  case h_7 => cases h

end

end MessageBroker.Broker
