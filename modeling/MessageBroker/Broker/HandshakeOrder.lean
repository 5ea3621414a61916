import MessageBroker.Broker.Handshake

/-!
# The order of the two sides

Neither side can be far before the other one while a session is opened, since a call of
`open` returns only if the other side has opened the pipe. The answer is in the pipe
from the time when the session writes it until the client reads it, before all bytes
of the session, if there are any.
-/

namespace MessageBroker.Broker

variable {γ σ : Type}

/-! ### The two sides -/

namespace ClientPc

/-- How far the client is. -/
def rank : ClientPc γ → Nat
  | opening | aborted => 0
  | waiting _ => 1
  | reading => 2
  | closing _ => 3
  | comparing _ => 4
  | reopening => 5
  | refused | failed => 6
  | rewaiting _ => 7
  | looping _ => 8

/-- The descriptors of the client; `loopHeld` tells how many it has in its loop. -/
def descriptors (again : PipeEnd) (loopHeld : γ → Nat) : ClientPc γ → Descriptors
  | opening | aborted => .none
  | waiting _ | reading | closing _ => Descriptors.none.openEnd .reader
  | comparing _ | refused | reopening | failed =>
    (Descriptors.none.openEnd .reader).closeEnd .reader
  | rewaiting _ => ((Descriptors.none.openEnd .reader).closeEnd .reader).openEnd again
  | looping l =>
    { ((Descriptors.none.openEnd .reader).closeEnd .reader).openEnd again with
      held := Function.update (fun _ => 0) again (loopHeld l) }

/-- The client has read messages and closed the pipe, which an `open` has found that has seen `seen`
opens. -/
structure Gone (again : PipeEnd) (loopHeld : γ → Nat) (pc : ClientPc γ) (seen : Nat) : Prop where
  reader : again = .reader
  seen : seen = 2
  looping : pc.rank = 8
  closed : (pc.descriptors again loopHeld).held again = 0

/-- The client is in its loop, or has returned. -/
def Settled : ClientPc γ → Prop
  | aborted | refused | failed | looping _ => True
  | _ => False

variable {again e : PipeEnd} {loopHeld : γ → Nat} {pc : ClientPc γ}

theorem looping_of_rank (h : pc.rank = 8) : ∃ l, pc = .looping l := by
  cases pc <;> simp_all [rank]

theorem not_settled (h : pc ≠ .aborted) (hlow : pc.rank ≠ 8) (hrefused : pc ≠ .refused)
    (hfailed : pc ≠ .failed) : ¬ pc.Settled := by
  cases pc <;> simp_all [Settled, rank]

theorem rank_le : pc.rank ≤ 8 := by
  cases pc <;> simp [rank]

theorem held_pos (h : 0 < (pc.descriptors again loopHeld).held e) :
    e = .reader ∧ 1 ≤ pc.rank ∧ pc.rank ≤ 3 ∨ e = again ∧ 7 ≤ pc.rank := by
  cases pc <;> cases e <;> cases again <;>
    simp_all [descriptors, rank, Descriptors.openEnd, Descriptors.closeEnd, Descriptors.none]

theorem held_first (h : 1 ≤ pc.rank) (h' : pc.rank ≤ 3) :
    0 < (pc.descriptors again loopHeld).held .reader := by
  cases pc <;> first | exact Nat.one_pos | simp [rank] at h h'

theorem held_second (h : pc.rank = 7) : 0 < (pc.descriptors again loopHeld).held again := by
  cases pc <;> simp [rank] at h
  cases again <;> exact Nat.one_pos

theorem opened_eq : (pc.descriptors again loopHeld).opened e =
    (if e = .reader ∧ 1 ≤ pc.rank then 1 else 0) + if e = again ∧ 7 ≤ pc.rank then 1 else 0 := by
  cases pc <;> cases e <;> cases again <;> rfl

end ClientPc

namespace SessionPc

def rank : SessionPc σ → Nat
  | opening | aborted => 0
  | waiting _ => 1
  | writing => 2
  | closing => 3
  | reopening => 4
  | returned | failed => 5
  | rewaiting _ => 6
  | looping _ | killed => 7

def descriptors (again : PipeEnd) (loopHeld : σ → Nat) : SessionPc σ → Descriptors
  | opening | aborted => .none
  | waiting _ | writing | closing => Descriptors.none.openEnd .writer
  | returned | reopening | failed => (Descriptors.none.openEnd .writer).closeEnd .writer
  | rewaiting _ => ((Descriptors.none.openEnd .writer).closeEnd .writer).openEnd again.other
  | looping l =>
    { ((Descriptors.none.openEnd .writer).closeEnd .writer).openEnd again.other with
      held := Function.update (fun _ => 0) again.other (loopHeld l) }
  | killed =>
    (((Descriptors.none.openEnd .writer).closeEnd .writer).openEnd again.other).closeEnd again.other

structure Gone (again : PipeEnd) (loopHeld : σ → Nat) (pc : SessionPc σ) (seen : Nat) : Prop where
  reader : again = .reader
  seen : seen = 2
  looping : pc.rank = 7
  closed : (pc.descriptors again loopHeld).held again.other = 0

/-- The session is in its loop, or has returned. -/
def Settled : SessionPc σ → Prop
  | aborted | returned | failed | looping _ | killed => True
  | _ => False

variable {again e : PipeEnd} {loopHeld : σ → Nat} {pc : SessionPc σ}

theorem not_settled (h : pc ≠ .aborted) (hlow : pc.rank ≠ 7) (hreturned : pc ≠ .returned)
    (hfailed : pc ≠ .failed) : ¬ pc.Settled := by
  cases pc <;> simp_all [Settled, rank]

theorem not_settled_of_le (h : pc ≠ .aborted) (hlow : pc.rank ≤ 4) : ¬ pc.Settled := by
  cases pc <;> simp_all [Settled, rank]

theorem looping_of_rank (h : pc.rank = 7) (hkilled : pc ≠ .killed) : ∃ k, pc = .looping k := by
  cases pc <;> simp_all [rank]

theorem settled_of_rank (h : pc.rank = 7) : pc.Settled := by
  cases pc <;> simp_all [Settled, rank]

theorem rank_le : pc.rank ≤ 7 := by
  cases pc <;> simp [rank]

theorem held_pos (h : 0 < (pc.descriptors again loopHeld).held e) :
    e = .writer ∧ 1 ≤ pc.rank ∧ pc.rank ≤ 3 ∨ e = again.other ∧ 6 ≤ pc.rank := by
  cases pc <;> cases e <;> cases again <;>
    simp_all [descriptors, rank, Descriptors.openEnd, Descriptors.closeEnd, Descriptors.none,
      PipeEnd.other]

theorem held_first (h : 1 ≤ pc.rank) (h' : pc.rank ≤ 3) :
    0 < (pc.descriptors again loopHeld).held .writer := by
  cases pc <;> first | exact Nat.one_pos | simp [rank] at h h'

theorem held_second (h : pc.rank = 6) : 0 < (pc.descriptors again loopHeld).held again.other := by
  cases pc <;> simp [rank] at h
  cases again <;> exact Nat.one_pos

theorem opened_eq : (pc.descriptors again loopHeld).opened e =
    (if e = .writer ∧ 1 ≤ pc.rank then 1 else 0) +
      if e = again.other ∧ 6 ≤ pc.rank then 1 else 0 := by
  cases pc <;> cases e <;> cases again <;> rfl

end SessionPc

@[simp] theorem length_reply (accepted : Bool) : (reply accepted).length = 3 := by
  cases accepted <;> rfl

theorem reply_eq_okReply (accepted : Bool) : reply accepted = okReply ↔ accepted = true := by
  cases accepted <;> decide

/-! ### The invariant -/

namespace Connection

/-- The answer is in the pipe when the session has written it and the client has not read it. -/
def answer (s : Connection γ σ) : List UInt8 :=
  if 3 ≤ s.session.rank ∧ s.client.rank ≤ 2 then reply s.accepted else []

/-- The descriptors, and how far each side can be before the other one. Only after its loop can
a side have closed the pipe before the other one has opened it again. -/
structure InStep (again : PipeEnd) (ch : γ → Nat) (sh : σ → Nat) (s : Connection γ σ) : Prop where
  shared : s.pipe.Shared (s.client.descriptors again ch) (s.session.descriptors again sh)
  clientOpened : 2 ≤ s.client.rank → 1 ≤ s.session.rank
  sessionOpened : 2 ≤ s.session.rank → 1 ≤ s.client.rank
  answered : 3 ≤ s.client.rank → 3 ≤ s.session.rank
  clientReopened : again = .writer → s.client.rank = 8 → 6 ≤ s.session.rank
  sessionReopened : again = .writer → s.session.rank = 7 → 7 ≤ s.client.rank
  clientWaits : ∀ n, s.client = .waiting n → n = 0
  sessionWaits : ∀ n, s.session = .waiting n → n = 0
  clientRewaits : ∀ n, s.client = .rewaiting n → n = 1 ∨ s.session.Gone again sh n
  sessionRewaits : ∀ n, s.session = .rewaiting n → n = 1 ∨ s.client.Gone again ch n

/-- The path is that of the client pipe until the first of the two sides is in its loop. -/
structure Found (again : PipeEnd) (s : Connection γ σ) : Prop where
  path : s.path = .clientPipe ∨ s.client = .refused ∨ s.client.rank = 8 ∨ s.session.rank = 7
  client : s.client ≠ .aborted
  session : s.session ≠ .aborted
  clientFails : s.client = .failed → again = .reader ∧ s.session.rank = 7
  sessionFails : s.session = .failed → again = .reader ∧ s.client.rank = 8

/-- What is in the pipe: the answer, then the bytes behind it. -/
structure Answers (again : PipeEnd) (s : Connection γ σ) (data : List UInt8) : Prop where
  bytes : s.pipe.bytes = s.answer ++ data
  data : data ≠ [] → if again = .reader then s.session.rank = 7 else s.client.rank = 8
  buffer : ∀ b, s.client = .closing b ∨ s.client = .comparing b → b.take 3 = reply s.accepted
  client : 5 ≤ s.client.rank → (s.client = .refused ↔ s.accepted = false)
  session : 4 ≤ s.session.rank → (s.session = .returned ↔ s.accepted = false)

end Connection

/-! ### Steps of the client -/

section

variable {again : PipeEnd} {auxBuffer : List UInt8} {clientStart : γ} {sessionStart : σ}
  {ch : γ → Nat} {sh : σ → Nat} {s s' : Connection γ σ} {data : List UInt8}

theorem ClientMoves.session_eq (h : ClientMoves again auxBuffer clientStart s s') :
    s'.session = s.session := by
  cases h <;> rfl

theorem ClientMoves.accepted_eq (h : ClientMoves again auxBuffer clientStart s s') :
    s'.accepted = s.accepted := by
  cases h <;> rfl

theorem ClientMoves.not_settled (h : ClientMoves again auxBuffer clientStart s s') :
    ¬ s.client.Settled := by
  intro hs
  cases h <;> simp_all [ClientPc.Settled]

/-- What a step of the client up to its loop leaves as it is. -/
theorem ClientMoves.frame (h : ClientMoves again auxBuffer clientStart s s') :
    s'.sent = s.sent ∧ s'.received = s.received ∧
      (s'.path = s.path ∧ s'.client ≠ .refused ∨ s'.path = .missing ∧ s'.client = .refused) ∧
      ∀ l, s'.client = .looping l → l = clientStart := by
  cases h <;> simp [eq_comm]

theorem ClientMoves.shared {d : Descriptors} (h : ClientMoves again auxBuffer clientStart s s')
    (hstart : ch clientStart = 1) (hs : s.pipe.Shared (s.client.descriptors again ch) d) :
    s'.pipe.Shared (s'.client.descriptors again ch) d := by
  have hloop : ∀ n, (ClientPc.looping clientStart).descriptors again ch =
      (ClientPc.rewaiting n).descriptors again ch := by
    intro n
    ext e
    · cases again <;> cases e <;> first | exact hstart | rfl
    · rfl
  cases h with
  | opens hc | waits hc =>
    rw [hc] at hs
    exact hs.openEnd .reader
  | reads hc =>
    rw [hc] at hs
    exact hs.withBytes _
  | closes b hc =>
    rw [hc] at hs
    exact hs.closeEnd Nat.one_pos
  | reopens hc =>
    rw [hc] at hs
    simp only [hloop 0]
    exact hs.openEnd again
  | rewaits hc =>
    rw [hc] at hs
    exact hs.openEnd again
  | rewakes n hc =>
    rw [hc] at hs
    simp only [hloop n]
    exact hs
  | aborts hc | wakes _ hc | accepted _ hc | refused _ hc | fails hc =>
    rw [hc] at hs
    exact hs

namespace Connection

/-- An end that the client has not open has been opened by the session. -/
theorem InStep.session_of_open {e : PipeEnd} (h : s.InStep again ch sh)
    (hc : (s.client.descriptors again ch).held e = 0) (he : 0 < s.pipe.ends e) :
    e = .writer ∧ 1 ≤ s.session.rank ∧ s.session.rank ≤ 3 ∨
      e = again.other ∧ 6 ≤ s.session.rank := by
  rw [h.shared.ends e, hc, Nat.zero_add] at he
  exact SessionPc.held_pos he

theorem InStep.client_of_open {e : PipeEnd} (h : s.InStep again ch sh)
    (hc : (s.session.descriptors again sh).held e = 0) (he : 0 < s.pipe.ends e) :
    e = .reader ∧ 1 ≤ s.client.rank ∧ s.client.rank ≤ 3 ∨ e = again ∧ 7 ≤ s.client.rank := by
  rw [h.shared.ends e, hc, Nat.add_zero] at he
  exact ClientPc.held_pos he

/-- The path is still there when the client opens it for the first time. -/
theorem Found.clientPath (hf : s.Found again) (h : s.InStep again ch sh)
    (hc : s.client = .opening) : s.path = .clientPipe := by
  have := h.sessionOpened
  obtain hp | hp | hp | hp := hf.path
  · exact hp
  · rw [hc] at hp
    cases hp
  · rw [hc] at hp
    cases hp
  · rw [hc, hp] at this
    cases this (by decide)

theorem Found.sessionPath (hf : s.Found again) (h : s.InStep again ch sh)
    (hc : s.session = .opening) : s.path = .clientPipe := by
  have hlow := h.clientOpened
  rw [hc] at hlow
  obtain hp | hp | hp | hp := hf.path
  · exact hp
  · rw [hp] at hlow
    cases hlow (by simp [ClientPc.rank])
  · rw [hp] at hlow
    cases hlow (by decide)
  · rw [hc] at hp
    cases hp

/-- While the answer is in the pipe, nothing else is read before it. -/
theorem Answers.written (ha : s.Answers again data) (h : s.InStep again ch sh)
    (hc : s.client = .reading) (hw : s.pipe.bytes = [] → s.pipe.ends .writer = 0) :
    3 ≤ s.session.rank := by
  have hopen : 1 ≤ s.session.rank := h.clientOpened (by rw [hc]; exact le_refl _)
  by_contra hlow
  have hanswer : s.answer = [] := if_neg fun hall => hlow hall.1
  have hdata : data = [] := by
    by_contra hne
    have hflow := ha.data hne
    rw [hc] at hflow
    split at hflow
    · omega
    · cases hflow
  -- nothing is in the pipe, and the session has it open
  have hwriter := hw (by rw [ha.bytes, hanswer, hdata, List.append_nil])
  have hheld : 0 < (s.session.descriptors again sh).held .writer :=
    SessionPc.held_first hopen (by omega)
  rw [h.shared.ends] at hwriter
  omega

/-- What the client has seen of the pipe says how far the session is. -/
theorem InStep.clientBounds (h : s.InStep again ch sh) (ha : s.Answers again data)
    (hm : ClientMoves again auxBuffer clientStart s s') :
    (2 ≤ s'.client.rank → 1 ≤ s.session.rank) ∧ (3 ≤ s'.client.rank → 3 ≤ s.session.rank) ∧
      (again = .writer → s'.client.rank = 8 → 6 ≤ s.session.rank) := by
  have hopened := h.clientOpened
  have hanswered := h.answered
  cases hm with
  | opens hc _ hw =>
    have hnone : (s.client.descriptors again ch).held .writer = 0 := by
      rw [hc]
      rfl
    have hopen : 1 ≤ s.session.rank := by
      obtain ⟨_, hlow, _⟩ | ⟨_, hlow⟩ := h.session_of_open hnone hw <;> omega
    simp [ClientPc.rank, hopen]
  | wakes n hc hn =>
    have hopen : 1 ≤ s.session.rank := by
      by_contra hzero
      apply hn
      rw [h.clientWaits n hc, h.shared.opens, hc, SessionPc.opened_eq, ClientPc.opened_eq]
      simp [ClientPc.rank]
      omega
    simp [ClientPc.rank, hopen]
  | reads hc hw =>
    have hwritten := ha.written h hc hw
    simp [ClientPc.rank, hwritten]
    omega
  | reopens hc _ hw =>
    rw [hc, ClientPc.rank] at hopened hanswered
    refine ⟨fun _ => hopened (by decide), fun _ => hanswered (by decide), ?_⟩
    rintro rfl _
    have hnone : (s.client.descriptors .writer ch).held .reader = 0 := by
      rw [hc]
      rfl
    obtain ⟨hne, _⟩ | ⟨_, hlow⟩ := h.session_of_open hnone hw
    · cases hne
    · exact hlow
  | rewakes n hc hn =>
    have hwaits := h.clientRewaits n hc
    have hopens := h.shared.opens again.other
    rw [hc, ClientPc.rank] at hopened hanswered
    rw [hc] at hopens
    refine ⟨fun _ => hopened (by decide), fun _ => hanswered (by decide), ?_⟩
    rintro rfl _
    rw [ClientPc.opened_eq, SessionPc.opened_eq] at hopens
    simp [ClientPc.rank, PipeEnd.other] at hopens
    obtain rfl | hgone := hwaits
    · by_contra hlow
      apply hn
      rw [PipeEnd.other, hopens, if_neg hlow]
    · cases hgone.reader
  | waits hc => simp [ClientPc.rank]
  | aborts hc => simp [ClientPc.rank]
  | closes _ hc | accepted _ hc | refused _ hc | rewaits hc | fails hc =>
    rw [hc] at hopened hanswered
    simp [ClientPc.rank] at *
    omega

end Connection

theorem ClientMoves.rank_lt (h : ClientMoves again auxBuffer clientStart s s')
    (hf : s.Found again) (hs : s.InStep again ch sh) :
    s.client.rank < s'.client.rank ∧ s.client.rank < 8 := by
  cases h with
  | aborts hc hp =>
    rw [hf.clientPath hs hc] at hp
    cases hp
  | opens hc | waits hc | wakes _ hc | reads hc | closes _ hc | accepted _ hc | refused _ hc
  | reopens hc | rewaits hc | fails hc | rewakes _ hc =>
    rw [hc]
    simp [ClientPc.rank]

theorem ClientMoves.length_bytes_le (h : ClientMoves again auxBuffer clientStart s s') :
    s'.pipe.bytes.length ≤ s.pipe.bytes.length := by
  cases h with
  | reads =>
    rw [List.length_drop]
    exact Nat.sub_le ..
  | closes => exact s.pipe.length_closeEnd_bytes_le .reader
  | opens | waits | aborts | wakes | accepted | refused | reopens | rewaits | fails
  | rewakes => exact le_refl _

namespace Connection

/-- A client that finds no writer is the first one to open the pipe. -/
theorem InStep.unopened (h : s.InStep again ch sh) (hc : s.client = .opening)
    (hw : s.pipe.ends .writer = 0) : s.pipe.opens .writer = 0 := by
  have hlow := h.sessionOpened
  rw [hc, ClientPc.rank] at hlow
  have hzero : s.session.rank = 0 := by
    by_contra hpos
    have hheld : 0 < (s.session.descriptors again sh).held .writer :=
      SessionPc.held_first (Nat.pos_of_ne_zero hpos) (by omega)
    rw [h.shared.ends] at hw
    omega
  rw [h.shared.opens, hc, SessionPc.opened_eq, hzero]
  cases again <;> rfl

/-- A client that finds its other end closed the second time is before its session, or behind it. -/
theorem InStep.unopenedAgain (h : s.InStep again ch sh) (hc : s.client = .reopening)
    (hw : s.pipe.ends again.other = 0) :
    s.pipe.opens again.other = 1 ∨ s.session.Gone again sh (s.pipe.opens again.other) := by
  have hwritten := h.answered
  have hreopened := h.sessionReopened
  have hle : s.session.rank ≤ 7 := SessionPc.rank_le
  rw [hc, ClientPc.rank] at hwritten hreopened
  have hnone : (s.session.descriptors again sh).held again.other = 0 := by
    rw [h.shared.ends] at hw
    omega
  by_cases hloop : s.session.rank = 7
  · cases again with
    | reader =>
      refine Or.inr ⟨rfl, ?_, hloop, hnone⟩
      rw [h.shared.opens, hc, SessionPc.opened_eq, ClientPc.opened_eq, hloop]
      rfl
    | writer =>
      have := hreopened rfl hloop
      omega
  · have hne : s.session.rank ≠ 6 := by
      intro heq
      have hheld : 0 < (s.session.descriptors again sh).held again.other :=
        SessionPc.held_second heq
      omega
    have hlow : 1 ≤ s.session.rank := by omega
    have hhigh : ¬ 6 ≤ s.session.rank := by omega
    left
    rw [h.shared.opens, hc, SessionPc.opened_eq, ClientPc.opened_eq]
    cases again <;> simp [ClientPc.rank, PipeEnd.other, hlow, hhigh]

theorem InStep.clientMoves (h : s.InStep again ch sh) (hf : s.Found again)
    (ha : s.Answers again data) (hm : ClientMoves again auxBuffer clientStart s s')
    (hstart : ch clientStart = 1) :
    s'.InStep again ch sh := by
  obtain ⟨hopened, hanswered, hreopened⟩ := h.clientBounds ha hm
  obtain ⟨hlt, hlow⟩ := hm.rank_lt hf h
  have hshared := hm.shared hstart h.shared
  have hsessionOpened := h.sessionOpened
  have hsessionReopened := h.sessionReopened
  have hsessionWaits := h.sessionWaits
  have hsessionRewaits := h.sessionRewaits
  rw [← hm.session_eq] at *
  refine ⟨hshared, hopened, ?_, hanswered, hreopened, ?_, ?_, hsessionWaits, ?_, ?_⟩
  · intro hs
    have := hsessionOpened hs
    omega
  · intro hagain hs
    have := hsessionReopened hagain hs
    omega
  · intro n hn
    cases hm with
    | waits hc _ hw =>
      cases hn
      exact h.unopened hc hw
    | opens | aborts | wakes | reads | closes | accepted | refused | reopens | rewaits | fails
    | rewakes => cases hn
  · intro n hn
    cases hm with
    | rewaits hc _ hw =>
      cases hn
      exact h.unopenedAgain hc hw
    | opens | waits | aborts | wakes | reads | closes | accepted | refused | reopens | fails
    | rewakes => cases hn
  · intro n hn
    obtain h' | hgone := hsessionRewaits n hn
    · exact Or.inl h'
    · exact absurd hgone.looping (by omega)

/-- A path is missing before the client is in its loop only if the session is in its loop. -/
theorem Found.looping_of_missing (hf : s.Found again) (hp : s.path ≠ .clientPipe)
    (hrefused : s.client ≠ .refused) (hlow : s.client.rank ≠ 8) : s.session.rank = 7 := by
  obtain h | h | h | h := hf.path
  · exact absurd h hp
  · exact absurd h hrefused
  · exact absurd h hlow
  · exact h

theorem Found.clientMoves (hf : s.Found again) (h : s.InStep again ch sh)
    (hm : ClientMoves again auxBuffer clientStart s s') : s'.Found again := by
  obtain ⟨hlt, hlow⟩ := hm.rank_lt hf h
  have hfails : s.session ≠ .failed := fun hs => by
    have := (hf.sessionFails hs).2
    omega
  cases hm with
  | aborts hc hp =>
    rw [hf.clientPath h hc] at hp
    cases hp
  | refused b hc =>
    exact ⟨Or.inr (Or.inl rfl), by simp, hf.session, by simp, fun hs => absurd hs hfails⟩
  | fails hc hp =>
    have hloop : s.session.rank = 7 :=
      hf.looping_of_missing (by simp [hp]) (by simp [hc]) (by omega)
    have hagain : again = .reader := by
      cases again with
      | reader => rfl
      | writer =>
        have := h.sessionReopened rfl hloop
        rw [hc, ClientPc.rank] at this
        omega
    exact ⟨Or.inr (Or.inr (Or.inr hloop)), by simp, hf.session, fun _ => ⟨hagain, hloop⟩,
      fun hs => absurd hs hfails⟩
  | opens hc | waits hc | wakes _ hc | reads hc | closes _ hc | accepted _ hc | reopens hc
  | rewaits hc | rewakes _ hc =>
    refine ⟨?_, by simp, hf.session, by simp, fun hs => absurd hs hfails⟩
    by_cases hp : s.path = .clientPipe
    · exact Or.inl hp
    · exact Or.inr (Or.inr (Or.inr (hf.looping_of_missing hp (by simp [hc]) (by omega))))

theorem answer_of_read (h : 3 ≤ s.client.rank) : s.answer = [] := if_neg fun hall => by omega

/-- What is in the pipe behind the answer is lost only when nobody has the pipe open. -/
theorem Answers.clientMoves (ha : s.Answers again data) (h : s.InStep again ch sh)
    (hm : ClientMoves again auxBuffer clientStart s s') :
    ∃ data', s'.Answers again data' ∧ (data' = data ∨ data' = [] ∧ ∀ e, s'.pipe.ends e = 0) := by
  have hwritten := ha.written h
  obtain ⟨hbytes, hdata, hbuffer, hclient, hsession⟩ := ha
  cases hm with
  | reads hc hw =>
    -- the answer is the first thing in the pipe
    have hanswer : s.answer = reply s.accepted :=
      if_pos ⟨hwritten hc hw, by rw [hc]; exact le_refl _⟩
    rw [hanswer] at hbytes
    refine ⟨data, ⟨?_, ?_, ?_, ?_, hsession⟩, Or.inl rfl⟩
    · rw [answer_of_read (le_refl 3)]
      simp only [hbytes, List.drop_left' (length_reply s.accepted)]
      rfl
    · grind [ClientPc.rank]
    · rintro b (hb | hb) <;> cases hb
      rw [hbytes, List.take_left' (length_reply s.accepted), readInto,
        List.take_left' (length_reply s.accepted)]
    · grind [ClientPc.rank]
  | closes b hc =>
    rw [answer_of_read (by rw [hc, ClientPc.rank]), List.nil_append] at hbytes
    let s' : Connection γ σ := { s with pipe := s.pipe.closeEnd .reader, client := .comparing b }
    have hread : s'.answer = [] := answer_of_read (Nat.le_succ 3)
    have hmoved : ∀ data', s'.pipe.bytes = data' → (data' ≠ [] → data ≠ []) →
        s'.Answers again data' := by
      intro data' heq hne
      refine ⟨?_, ?_, ?_, ?_, hsession⟩
      · rw [hread, heq, List.nil_append]
      · grind [ClientPc.rank]
      · grind
      · grind [ClientPc.rank]
    obtain heq | ⟨heq, hends⟩ := s.pipe.closeEnd_bytes .reader
    · exact ⟨data, hmoved data (heq.trans hbytes) id, Or.inl rfl⟩
    · exact ⟨[], hmoved [] heq (fun hne => absurd rfl hne), Or.inr ⟨rfl, hends⟩⟩
  | accepted b hc hok =>
    have hacc : s.accepted = true := by
      rw [← reply_eq_okReply, ← hbuffer b (Or.inr hc)]
      exact hok
    refine ⟨data, ?_, Or.inl rfl⟩
    constructor <;> grind [answer, ClientPc.rank]
  | refused b hc hok =>
    have hacc : s.accepted = false := by
      rw [← Bool.not_eq_true, ← reply_eq_okReply, ← hbuffer b (Or.inr hc)]
      exact hok
    refine ⟨data, ?_, Or.inl rfl⟩
    constructor <;> grind [answer, ClientPc.rank]
  | opens hc | waits hc | wakes _ hc | aborts hc | reopens hc | rewaits hc | rewakes _ hc
  | fails hc =>
    refine ⟨data, ?_, Or.inl rfl⟩
    constructor <;> grind [answer, ClientPc.rank]

end Connection

/-! ### Steps of the session -/

theorem SessionMoves.client_eq (h : SessionMoves again sessionStart s s') :
    s'.client = s.client := by
  cases h <;> rfl

theorem SessionMoves.accepted_eq (h : SessionMoves again sessionStart s s') :
    s'.accepted = s.accepted := by
  cases h <;> rfl

theorem SessionMoves.not_settled (h : SessionMoves again sessionStart s s') :
    ¬ s.session.Settled := by
  intro hs
  cases h <;> simp_all [SessionPc.Settled]

namespace Connection

/-- The session is never killed while it answers. -/
theorem InStep.answerable (h : s.InStep again ch sh) (hc : s.session = .writing) :
    0 < s.pipe.ends .reader := by
  have hopened := h.sessionOpened
  have hanswered := h.answered
  rw [hc, SessionPc.rank] at hopened hanswered
  have hheld : 0 < (s.client.descriptors again ch).held .reader :=
    ClientPc.held_first (hopened (le_refl _)) (by omega)
  rw [h.shared.ends]
  omega

theorem InStep.not_killed (h : s.InStep again ch sh) (hm : SessionMoves again sessionStart s s') :
    s'.session ≠ .killed := by
  cases hm with
  | killed hc hw =>
    have := h.answerable hc
    omega
  | opens | waits | aborts | wakes | writes | closes | returns | reopens | rewaits | fails
  | rewakes => simp

/-- What the session has seen of the pipe says how far the client is. -/
theorem InStep.sessionBounds (h : s.InStep again ch sh)
    (hm : SessionMoves again sessionStart s s') :
    (2 ≤ s'.session.rank → 1 ≤ s.client.rank) ∧
      (again = .writer → s'.session.rank = 7 → 7 ≤ s.client.rank) := by
  have hopened := h.sessionOpened
  cases hm with
  | opens hc _ hw =>
    have hnone : (s.session.descriptors again sh).held .reader = 0 := by
      rw [hc]
      rfl
    have hopen : 1 ≤ s.client.rank := by
      obtain ⟨_, hlow, _⟩ | ⟨_, hlow⟩ := h.client_of_open hnone hw <;> omega
    simp [SessionPc.rank, hopen]
  | wakes n hc hn =>
    have hopen : 1 ≤ s.client.rank := by
      by_contra hzero
      apply hn
      rw [h.sessionWaits n hc, h.shared.opens, hc, SessionPc.opened_eq, ClientPc.opened_eq]
      simp [SessionPc.rank]
      omega
    simp [SessionPc.rank, hopen]
  | killed hc hw =>
    have := h.answerable hc
    omega
  | reopens hc _ hw =>
    rw [hc, SessionPc.rank] at hopened
    refine ⟨fun _ => hopened (by decide), ?_⟩
    rintro rfl _
    have hnone : (s.session.descriptors .writer sh).held .writer = 0 := by
      rw [hc]
      rfl
    obtain ⟨hne, _⟩ | ⟨_, hlow⟩ := h.client_of_open hnone hw
    · cases hne
    · exact hlow
  | rewakes n hc hn =>
    have hwaits := h.sessionRewaits n hc
    have hopens := h.shared.opens again
    rw [hc, SessionPc.rank] at hopened
    rw [hc] at hopens
    refine ⟨fun _ => hopened (by decide), ?_⟩
    rintro rfl _
    rw [ClientPc.opened_eq, SessionPc.opened_eq] at hopens
    simp [SessionPc.rank, PipeEnd.other] at hopens
    obtain rfl | hgone := hwaits
    · by_contra hlow
      apply hn
      rw [hopens, if_neg hlow]
    · cases hgone.reader
  | waits hc => simp [SessionPc.rank]
  | aborts hc => simp [SessionPc.rank]
  | writes hc | closes hc | returns hc | rewaits hc | fails hc =>
    rw [hc] at hopened
    simp [SessionPc.rank] at *
    omega

end Connection

theorem SessionMoves.frame (h : SessionMoves again sessionStart s s') :
    s'.sent = s.sent ∧ s'.received = s.received ∧ s'.path = s.path ∧
      ∀ k, s'.session = .looping k → k = sessionStart := by
  cases h <;> simp [eq_comm]

theorem SessionMoves.length_bytes_le (h : SessionMoves again sessionStart s s') :
    s'.pipe.bytes.length ≤ s.pipe.bytes.length + 3 := by
  cases h with
  | writes =>
    rw [List.length_append, length_reply]
  | killed | closes | returns =>
    exact (s.pipe.length_closeEnd_bytes_le .writer).trans (Nat.le_add_right _ 3)
  | opens | waits | aborts | wakes | reopens | rewaits | fails | rewakes => simp

theorem SessionMoves.rank_lt (h : SessionMoves again sessionStart s s') (hf : s.Found again)
    (hs : s.InStep again ch sh) : s.session.rank < s'.session.rank ∧ s.session.rank < 7 := by
  cases h with
  | aborts hc hp =>
    rw [hf.sessionPath hs hc] at hp
    cases hp
  | opens hc | waits hc | wakes _ hc | killed hc | writes hc | closes hc | returns hc
  | reopens hc | rewaits hc | fails hc | rewakes _ hc =>
    rw [hc]
    simp [SessionPc.rank]

theorem SessionMoves.shared (h : SessionMoves again sessionStart s s')
    (hstart : sh sessionStart = 1) (hs : s.InStep again ch sh) :
    s'.pipe.Shared (s.client.descriptors again ch) (s'.session.descriptors again sh) := by
  have hloop : ∀ n, (SessionPc.looping sessionStart).descriptors again sh =
      (SessionPc.rewaiting n).descriptors again sh := by
    intro n
    ext e
    · cases again <;> cases e <;> first | exact hstart | rfl
    · rfl
  have hshared := hs.shared.symm
  have hanswerable := hs.answerable
  apply NamedPipe.Shared.symm
  cases h with
  | opens hc | waits hc =>
    rw [hc] at hshared
    exact hshared.openEnd .writer
  | killed hc hw =>
    have := hanswerable hc
    omega
  | writes hc =>
    rw [hc] at hshared
    exact hshared.withBytes _
  | closes hc | returns hc =>
    rw [hc] at hshared
    exact hshared.closeEnd Nat.one_pos
  | reopens hc =>
    rw [hc] at hshared
    simp only [hloop 0]
    exact hshared.openEnd again.other
  | rewaits hc =>
    rw [hc] at hshared
    exact hshared.openEnd again.other
  | rewakes n hc =>
    rw [hc] at hshared
    simp only [hloop n]
    exact hshared
  | aborts hc | wakes _ hc | fails hc =>
    rw [hc] at hshared
    exact hshared

namespace Connection

/-- A session that finds no reader is the first one to open the pipe. -/
theorem InStep.unread (h : s.InStep again ch sh) (hc : s.session = .opening)
    (hw : s.pipe.ends .reader = 0) : s.pipe.opens .reader = 0 := by
  have hlow := h.clientOpened
  rw [hc, SessionPc.rank] at hlow
  have hzero : s.client.rank = 0 := by
    by_contra hpos
    have hheld : 0 < (s.client.descriptors again ch).held .reader :=
      ClientPc.held_first (Nat.pos_of_ne_zero hpos) (by omega)
    rw [h.shared.ends] at hw
    omega
  rw [h.shared.opens, hc, ClientPc.opened_eq, hzero]
  cases again <;> rfl

/-- A session that finds its other end closed the second time is before its client, or behind it. -/
theorem InStep.unreadAgain (h : s.InStep again ch sh) (hc : s.session = .reopening)
    (hw : s.pipe.ends again = 0) :
    s.pipe.opens again = 1 ∨ s.client.Gone again ch (s.pipe.opens again) := by
  have hopened := h.sessionOpened
  have hreopened := h.clientReopened
  have hle : s.client.rank ≤ 8 := ClientPc.rank_le
  rw [hc, SessionPc.rank] at hopened hreopened
  have hnone : (s.client.descriptors again ch).held again = 0 := by
    rw [h.shared.ends] at hw
    omega
  by_cases hloop : s.client.rank = 8
  · cases again with
    | reader =>
      refine Or.inr ⟨rfl, ?_, hloop, hnone⟩
      rw [h.shared.opens, hc, SessionPc.opened_eq, ClientPc.opened_eq, hloop]
      rfl
    | writer =>
      have := hreopened rfl hloop
      omega
  · have hne : s.client.rank ≠ 7 := by
      intro heq
      have hheld : 0 < (s.client.descriptors again ch).held again := ClientPc.held_second heq
      omega
    have hlow : 1 ≤ s.client.rank := hopened (by decide)
    have hhigh : ¬ 7 ≤ s.client.rank := by omega
    left
    rw [h.shared.opens, hc, SessionPc.opened_eq, ClientPc.opened_eq]
    cases again <;> simp [SessionPc.rank, PipeEnd.other, hlow, hhigh]

theorem InStep.sessionMoves (h : s.InStep again ch sh) (hf : s.Found again)
    (hm : SessionMoves again sessionStart s s') (hstart : sh sessionStart = 1) :
    s'.InStep again ch sh := by
  obtain ⟨hopened, hreopened⟩ := h.sessionBounds hm
  obtain ⟨hlt, hlow⟩ := hm.rank_lt hf h
  have hshared := hm.shared hstart h
  have hclientOpened := h.clientOpened
  have hanswered := h.answered
  have hclientReopened := h.clientReopened
  have hclientWaits := h.clientWaits
  have hclientRewaits := h.clientRewaits
  rw [← hm.client_eq] at *
  refine ⟨hshared, ?_, hopened, ?_, ?_, hreopened, hclientWaits, ?_, ?_, ?_⟩
  · intro hs
    have := hclientOpened hs
    omega
  · intro hs
    have := hanswered hs
    omega
  · intro hagain hs
    have := hclientReopened hagain hs
    omega
  · intro n hn
    cases hm with
    | waits hc _ hw =>
      cases hn
      exact h.unread hc hw
    | opens | aborts | wakes | killed | writes | closes | returns | reopens | rewaits | fails
    | rewakes => cases hn
  · intro n hn
    obtain h' | hgone := hclientRewaits n hn
    · exact Or.inl h'
    · exact absurd hgone.looping (by omega)
  · intro n hn
    cases hm with
    | rewaits hc _ hw =>
      cases hn
      exact h.unreadAgain hc hw
    | opens | waits | aborts | wakes | killed | writes | closes | returns | reopens | fails
    | rewakes => cases hn

theorem Found.sessionMoves (hf : s.Found again) (h : s.InStep again ch sh)
    (ha : s.Answers again data) (hm : SessionMoves again sessionStart s s') : s'.Found again := by
  obtain ⟨hlt, hlow⟩ := hm.rank_lt hf h
  have hfails : s.client ≠ .failed := fun hs => by
    have := (hf.clientFails hs).2
    omega
  have hpath : s.path = .clientPipe ∨ s.client = .refused ∨ s.client.rank = 8 := by
    obtain hp | hp | hp | hp := hf.path
    · exact Or.inl hp
    · exact Or.inr (Or.inl hp)
    · exact Or.inr (Or.inr hp)
    · omega
  cases hm with
  | aborts hc hp =>
    rw [hf.sessionPath h hc] at hp
    cases hp
  | fails hc hp =>
    have hloop : s.client.rank = 8 := by
      obtain hp' | hp' | hp' := hpath
      · rw [hp] at hp'
        cases hp'
      · -- a client is refused only by a session that returns
        have hreturned := (ha.session (by rw [hc]; exact le_refl _)).mpr
          ((ha.client (by rw [hp']; exact Nat.le_succ _)).mp hp')
        rw [hc] at hreturned
        cases hreturned
      · exact hp'
    have hagain : again = .reader := by
      cases again with
      | reader => rfl
      | writer =>
        have := h.clientReopened rfl hloop
        rw [hc, SessionPc.rank] at this
        omega
    exact ⟨Or.inr (Or.inr (Or.inl hloop)), hf.client, by simp, fun hs => absurd hs hfails,
      fun _ => ⟨hagain, hloop⟩⟩
  | opens | waits | wakes | killed | writes | closes | returns | reopens | rewaits | rewakes =>
    exact ⟨hpath.imp_right (Or.imp_right Or.inl), hf.client, by simp,
      fun hs => absurd hs hfails, by simp⟩

theorem Answers.sessionMoves (ha : s.Answers again data) (h : s.InStep again ch sh)
    (hm : SessionMoves again sessionStart s s') :
    ∃ data', s'.Answers again data' ∧ (data' = data ∨ data' = [] ∧ ∀ e, s'.pipe.ends e = 0) := by
  obtain ⟨hbytes, hdata, hbuffer, hclient, hsession⟩ := ha
  have hopened := h.sessionOpened
  have hanswered := h.answered
  cases hm with
  | killed hc hw =>
    have := h.answerable hc
    omega
  | writes hc =>
    rw [hc, SessionPc.rank] at hopened hanswered
    have hnone : s.answer = [] := if_neg fun hall => by
      rw [hc, SessionPc.rank] at hall
      omega
    have hdata' : data = [] := by
      by_contra hne
      have := hdata hne
      rw [hc, SessionPc.rank] at this
      split at this <;> omega
    have hunread : s.client.rank ≤ 2 := by omega
    refine ⟨data, ⟨?_, ?_, hbuffer, hclient, ?_⟩, Or.inl rfl⟩
    · simp only [hbytes, hnone, hdata', List.nil_append, List.append_nil]
      exact (if_pos ⟨le_refl 3, hunread⟩).symm
    · exact fun hne => absurd hdata' hne
    · grind [SessionPc.rank]
  | closes hc hacc | returns hc hacc =>
    rw [hc, SessionPc.rank] at hopened hanswered
    obtain heq | ⟨heq, hends⟩ := s.pipe.closeEnd_bytes .writer
    · refine ⟨data, ?_, Or.inl rfl⟩
      constructor <;> grind [answer, SessionPc.rank]
    · -- the client has closed its end, and so read the answer
      have hread : 3 ≤ s.client.rank := by
        by_contra hlow
        have hheld : 0 < (s.client.descriptors again ch).held .reader :=
          ClientPc.held_first (hopened (by decide)) (by omega)
        have hzero : s.pipe.ends .reader = 0 := hends .reader
        rw [h.shared.ends] at hzero
        omega
      refine ⟨[], ⟨?_, fun hne => absurd rfl hne, hbuffer, hclient, ?_⟩, Or.inr ⟨rfl, hends⟩⟩
      · rw [heq, List.append_nil]
        symm
        apply answer_of_read
        exact hread
      · grind [SessionPc.rank]
  | opens hc | waits hc | wakes _ hc | aborts hc | reopens hc | rewaits hc | rewakes _ hc
  | fails hc =>
    refine ⟨data, ?_, Or.inl rfl⟩
    constructor <;> grind [answer, SessionPc.rank]

/-- A session that has not answered finds the pipe empty. -/
theorem Answers.empty (ha : s.Answers again data) (h : s.InStep again ch sh)
    (hs : s.session.rank ≤ 2) : s.pipe.bytes = [] := by
  have hlow := h.answered
  have hnone : s.answer = [] := if_neg fun hall => by omega
  have hdata : data = [] := by
    by_contra hne
    have := ha.data hne
    split at this <;> omega
  rw [ha.bytes, hnone, hdata, List.append_nil]

end Connection

end

end MessageBroker.Broker
