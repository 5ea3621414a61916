import MessageBroker.Broker.PublisherPipe
import Mathlib.Data.Prod.Lex

/-!
# The end of a publisher

From every state of a run a session can return, and its publisher return or be killed by its
write to the pipe of a removed box, unless the box is full: its session then returns without
a word, and with the pipe still open.
-/

namespace MessageBroker.Broker

open Transition

namespace PublisherPipe

variable {s s' : PublisherPipe} {data auxBuffer : List UInt8} {capacity : Nat}

/-- The client has returned, or its write has killed it. -/
def ClientGone (s : PublisherPipe) : Prop :=
  s.client = .refused ∨ s.client = .looping .removed ∨ s.client = .looping .ended ∨
    s.client = .looping .killed

/-- The session has returned. -/
def SessionDone (s : PublisherPipe) : Prop :=
  s.session = .returned ∨ s.session = .looping .removed ∨ s.session = .looping .ended ∨
    s.session = .looping .failed

/-- How far the client is from its end, if its input ends. -/
def Loop.left : Loop → Nat
  | probing _ => 5
  | sending _ => 4
  | typing => 3
  | closing | unlinking => 2
  | clearing | exiting => 1
  | removed | ended | killed => 0

/-- How far the session is from its end, but for what is in the pipe. -/
def Session.left : Session → Nat
  | storing => 5
  | reading => 4
  | closing => 2
  | unlinking => 1
  | removed | ended | failed => 0

def clientLeft (s : PublisherPipe) : Nat :=
  match s.client with
  | .looping l => l.left
  | pc => 12 - pc.rank

def sessionLeft (s : PublisherPipe) : Nat :=
  (match s.session with
    | .looping k => k.left
    | pc => 8 * (9 - pc.rank)) + 2 * s.pipe.bytes.length

theorem Inv.clientLeft_lt (h : Inv s data) (hm : ClientMoves .writer auxBuffer Loop.typing s s') :
    clientLeft s' < clientLeft s := by
  obtain ⟨hlt, hlow⟩ := hm.rank_lt h.shaken.found h.shaken.inStep
  obtain ⟨_, _, _, hloop⟩ := hm.frame
  have hle : s'.client.rank ≤ 8 := ClientPc.rank_le
  have hbefore : clientLeft s = 12 - s.client.rank := by
    unfold clientLeft
    split
    · rw [‹s.client = _›, ClientPc.rank] at hlow
      omega
    · rfl
  rw [hbefore]
  unfold clientLeft
  split
  case h_1 l hl =>
    rw [hloop l hl, Loop.left]
    omega
  case h_2 => omega

theorem Inv.sessionLeft_lt (h : Inv s data) (hm : SessionMoves .writer Session.reading s s') :
    clientLeft s' = clientLeft s ∧ sessionLeft s' < sessionLeft s := by
  obtain ⟨hlt, hlow⟩ := hm.rank_lt h.shaken.found h.shaken.inStep
  obtain ⟨_, _, _, hloop⟩ := hm.frame
  have hbytes := hm.length_bytes_le
  have hle : s'.session.rank ≤ 7 := SessionPc.rank_le
  have hbefore : sessionLeft s = 8 * (9 - s.session.rank) + 2 * s.pipe.bytes.length := by
    unfold sessionLeft
    split
    · rw [‹s.session = _›, SessionPc.rank] at hlow
      omega
    · rfl
  refine ⟨by rw [clientLeft, clientLeft, hm.client_eq], ?_⟩
  rw [hbefore]
  unfold sessionLeft
  split
  case h_1 k hk =>
    rw [hloop k hk, Session.left]
    omega
  case h_2 => omega

/-- One side has a step that brings it nearer to its end. -/
def Advances (capacity : Nat) (s : PublisherPipe) : Prop :=
  ∃ a s', PublisherPipe.step capacity s a = some s' ∧ s'.session ≠ .looping .failed ∧
    (clientLeft s' < clientLeft s ∨ clientLeft s' = clientLeft s ∧ sessionLeft s' < sessionLeft s)

namespace Inv

/-- A step of the client up to its loop. -/
theorem advances_clientStep (h : Inv s data) (hfailed : s.session ≠ .looping .failed)
    (hs : ∃ s', Connection.clientStep .writer [] Loop.typing s = some s') :
    Advances capacity s := by
  obtain ⟨s', hs⟩ := hs
  have hm := moves_of_clientStep hs
  refine ⟨.client [] none, s', ?_, by rwa [hm.session_eq], Or.inl (h.clientLeft_lt hm)⟩
  rw [← hs]
  exact step_client hm.not_settled

theorem advances_sessionStep (h : Inv s data)
    (hs : ∃ s', Connection.sessionStep .writer capacity Session.reading s = some s') :
    Advances capacity s := by
  obtain ⟨s', hs⟩ := hs
  have hm := moves_of_sessionStep hs
  refine ⟨.session .stored, s', ?_, ?_, Or.inr (h.sessionLeft_lt hm)⟩
  · rw [← hs]
    exact step_session hm.not_settled
  · intro hloop
    cases hm.frame.2.2.2 _ hloop

theorem advances_client {l : Loop} {s' : PublisherPipe} (message : Option (List UInt8))
    (hfailed : s.session ≠ .looping .failed) (hc : s.client = .looping l)
    (hs : s.clientLoop capacity message l = some s') (hsession : s'.session = s.session)
    (hlt : clientLeft s' < l.left) : Advances capacity s := by
  refine ⟨.client [] message, s', ?_, by rwa [hsession], Or.inl ?_⟩
  · simp only [PublisherPipe.step, hc]
    exact hs
  · simpa only [clientLeft, hc] using hlt

/-- A turn of the session that leaves the client as it is. -/
theorem advances_session {k : Session} {s' : PublisherPipe} (outcome : Outcome)
    (hc : s.session = .looping k) (hs : s.sessionLoop outcome k = some s')
    (hclient : s'.client = s.client) (hfailed : s'.session ≠ .looping .failed)
    (hlt : sessionLeft s' < k.left + 2 * s.pipe.bytes.length) : Advances capacity s := by
  refine ⟨.session outcome, s', ?_, hfailed, Or.inr ⟨?_, ?_⟩⟩
  · simp only [PublisherPipe.step, hc]
    exact hs
  · simp only [clientLeft, hclient]
  · simpa only [sessionLeft, hc] using hlt

theorem sessionLoop_reading (h : s.pipe.bytes = [] → s.pipe.ends .writer = 0) :
    s.sessionLoop .stored .reading = some
      { s with
        pipe := { s.pipe with bytes := s.pipe.bytes.drop (pSMessageSize + 3) }
        session := .looping
          (if s.pipe.bytes.take (pSMessageSize + 3) = [] then .ended else .storing)
        received := s.received ++ s.pipe.bytes.take (pSMessageSize + 3) } := by
  rw [PublisherPipe.sessionLoop, NamedPipe.read_eq_some.mpr ⟨h, rfl⟩]
  rfl

/-- A session that has not returned can go on unless it waits for its client. -/
theorem advances_of_session (h : Inv s data) (hcapacity : pSMessageSize + 3 ≤ capacity)
    (hs : ¬ SessionDone s) (hfailed : s.session ≠ .looping .failed)
    (hready : s.session = .looping .reading → s.pipe.bytes = [] → s.pipe.ends .writer = 0) :
    Advances capacity s := by
  have hcap : 3 ≤ capacity := by
    rw [pSMessageSize] at hcapacity
    omega
  cases hk : s.session with
  | looping k =>
    cases k with
    | reading =>
      have hstep := sessionLoop_reading (hready hk)
      by_cases hbytes : s.pipe.bytes = []
      · apply advances_session .stored hk hstep rfl (by simp [hbytes])
        simp [sessionLeft, hbytes, Session.left]
      · have hpos : 0 < s.pipe.bytes.length := List.length_pos_iff.mpr hbytes
        have hne : s.pipe.bytes.take (pSMessageSize + 3) ≠ [] := by
          simp [hbytes, pSMessageSize]
        apply advances_session .stored hk hstep rfl (by simp [hne])
        simp only [sessionLeft, if_neg hne, Session.left, List.length_drop]
        omega
    | storing =>
      apply advances_session .stored hk rfl rfl (by simp)
      simp [sessionLeft, Session.left]
    | closing =>
      apply advances_session .stored hk rfl rfl (by simp)
      have := s.pipe.length_closeEnd_bytes_le .reader
      simp only [sessionLeft, Session.left]
      omega
    | unlinking =>
      apply advances_session .stored hk rfl rfl (by simp)
      simp [sessionLeft, Session.left]
    | removed => exact absurd (Or.inr (Or.inl hk)) hs
    | ended => exact absurd (Or.inr (Or.inr (Or.inl hk))) hs
    | failed => exact absurd hk hfailed
  | returned => exact absurd (Or.inl hk) hs
  | aborted => exact absurd hk h.shaken.found.session
  | failed => cases (h.shaken.found.sessionFails hk).1
  | killed => exact absurd hk h.alive
  | opening | waiting | writing | closing | reopening | rewaiting =>
    have hp : s.path ≠ .probe := by
      intro hp
      rw [(h.told.probe hp).2] at hk
      cases hk
    have hsettled : ¬ s.session.Settled := by
      rw [hk]
      exact id
    obtain hstep | hstep | ⟨_, _, hgone⟩ := h.shaken.sessionProgress hcap hp hsettled
    · exact h.advances_sessionStep hstep
    · exact h.advances_clientStep hfailed hstep
    · cases hgone.reader

/-- A client that waits for room in the pipe has a session that can go on. -/
theorem advances_of_blocked (h : Inv s data) (hcapacity : pSMessageSize + 3 ≤ capacity)
    (hfailed : s.session ≠ .looping .failed) {m : List UInt8}
    (hc : s.client = .looping (.sending m)) (hw : s.pipe.write capacity m = .blocked) :
    Advances capacity s := by
  obtain ⟨hopen, hfull⟩ := NamedPipe.write_eq_blocked hw
  apply h.advances_of_session hcapacity ?_ hfailed
  · intro _ hbytes
    have hlen := h.told.message m (Or.inr hc)
    rw [hbytes, List.length_nil] at hfull
    omega
  · rintro (hs | hs | hs | hs)
    · have hrefused := (h.shaken.answers.client (by simp [hc, ClientPc.rank])).mpr
        ((h.shaken.answers.session (by simp [hs, SessionPc.rank])).mp hs)
      rw [hc] at hrefused
      cases hrefused
    · rw [h.shaken.inStep.shared.ends, hc, hs] at hopen
      exact absurd hopen (Nat.lt_irrefl 0)
    · obtain hend | hend := (h.told.ended hs).1 <;> rw [hc] at hend <;> cases hend
    · exact hfailed hs

/-- A client that is not gone can go on, or waits for its session, which can go on. -/
theorem advances_of_client (h : Inv s data) (hcapacity : pSMessageSize + 3 ≤ capacity)
    (hfailed : s.session ≠ .looping .failed) (hc : ¬ ClientGone s) : Advances capacity s := by
  have hcap : 3 ≤ capacity := by
    rw [pSMessageSize] at hcapacity
    omega
  cases hl : s.client with
  | looping l =>
    cases l with
    | typing =>
      exact advances_client none hfailed hl rfl rfl (by simp [clientLeft, Loop.left])
    | probing m =>
      by_cases hp : s.path = .missing
      · exact advances_client none hfailed hl (if_pos hp) rfl (by simp [clientLeft, Loop.left])
      · exact advances_client none hfailed hl (if_neg hp) rfl (by simp [clientLeft, Loop.left])
    | sending m =>
      cases hw : s.pipe.write capacity m with
      | killed =>
        have hstep : s.clientLoop capacity none (.sending m) = some
            { s with pipe := s.pipe.closeEnd .writer, client := .looping .killed } := by
          simp only [PublisherPipe.clientLoop, hw]
        exact advances_client none hfailed hl hstep rfl (by simp [clientLeft, Loop.left])
      | blocked => exact h.advances_of_blocked hcapacity hfailed hl hw
      | written pipe =>
        have hstep : s.clientLoop capacity none (.sending m) = some
            { s with pipe := pipe, client := .looping .typing, sent := s.sent ++ m } := by
          simp only [PublisherPipe.clientLoop, hw]
        exact advances_client none hfailed hl hstep rfl (by simp [clientLeft, Loop.left])
    | unlinking | exiting | closing | clearing =>
      exact advances_client none hfailed hl rfl rfl (by simp [clientLeft, Loop.left])
    | removed => exact absurd (Or.inr (Or.inl hl)) hc
    | ended => exact absurd (Or.inr (Or.inr (Or.inl hl))) hc
    | killed => exact absurd (Or.inr (Or.inr (Or.inr hl))) hc
  | refused => exact absurd (Or.inl hl) hc
  | aborted => exact absurd hl h.shaken.found.client
  | failed => cases (h.shaken.found.clientFails hl).1
  | opening | waiting | reading | closing | comparing | reopening | rewaiting =>
    have hp : s.path ≠ .probe := by
      intro hp
      rw [(h.told.probe hp).1] at hl
      cases hl
    have hsettled : ¬ s.client.Settled := by
      rw [hl]
      exact id
    obtain hstep | hstep | ⟨_, _, hgone⟩ := h.shaken.clientProgress hcap hp hsettled
    · exact h.advances_clientStep hfailed hstep
    · exact h.advances_sessionStep hstep
    · cases hgone.reader

/-- Unless both sides are at their end, one of them can go on if the session has not failed. -/
theorem advances (h : Inv s data) (hcapacity : pSMessageSize + 3 ≤ capacity)
    (hfailed : s.session ≠ .looping .failed) (hnot : ¬ (ClientGone s ∧ SessionDone s)) :
    Advances capacity s := by
  by_cases hc : ClientGone s
  · have hs : ¬ SessionDone s := fun hs => hnot ⟨hc, hs⟩
    refine h.advances_of_session hcapacity hs hfailed fun hreading _ => ?_
    obtain hc | hc | hc | hc := hc
    · have hrefused := (h.shaken.answers.session (by simp [hreading, SessionPc.rank])).mpr
        ((h.shaken.answers.client (by simp [hc, ClientPc.rank])).mp hc)
      rw [hreading] at hrefused
      cases hrefused
    · have := h.told.removed (Or.inr (Or.inr hc))
      rw [hreading] at this
      cases this
    · rw [h.shaken.inStep.shared.ends, hc, hreading]
      rfl
    · obtain ⟨k, hk, hclosed⟩ := h.told.killed hc
      rw [hreading] at hk
      cases hk
      simp [Session.Closed] at hclosed
  · exact h.advances_of_client hcapacity hfailed hc

end Inv

/-- What is left of a client that is gone and a session that has returned: the path is removed, and
the broker still has the pipe open just if the session has ended at the end of the input or at a
full box. -/
theorem Inv.cleared (h : Inv s data) (hc : ClientGone s) (hs : SessionDone s) :
    s.path = .missing ∧ s.pipe.ends .writer = 0 ∧ (s.pipe.ends .reader ≠ 0 ↔
      s.session = .looping .ended ∨ s.session = .looping .failed) := by
  have hrefused : s.client = .refused ↔ s.session = .returned := by
    have hclient := h.shaken.answers.client
    have hsession := h.shaken.answers.session
    obtain hc | hc | hc | hc := hc <;> obtain hs | hs | hs | hs := hs <;>
      simp [hc, hs, ClientPc.rank, SessionPc.rank] at * <;> grind
  refine ⟨?_, ?_, ?_⟩
  · cases hp : s.path with
    | clientPipe =>
      obtain ⟨hnotRefused, hnotEnded, hnotRemoved⟩ := h.told.present hp
      obtain hc | hc | hc | hc := hc
      · exact absurd hc hnotRefused
      · exact absurd (h.told.removed (Or.inr (Or.inr hc))) hnotRemoved
      · exact absurd hc hnotEnded
      · obtain ⟨k, hk, rfl | rfl⟩ := h.told.killed hc
        · obtain hs | hs | hs | hs := hs <;> rw [hs] at hk <;> cases hk
        · exact absurd hk hnotRemoved
    | probe =>
      have hunlinking := (h.told.probe hp).1
      obtain hc | hc | hc | hc := hc <;> rw [hc] at hunlinking <;> cases hunlinking
    | missing => rfl
  · rw [h.shaken.inStep.shared.ends]
    obtain hc | hc | hc | hc := hc <;> obtain hs | hs | hs | hs := hs <;> rw [hc, hs] <;> rfl
  · rw [h.shaken.inStep.shared.ends]
    obtain hc | hc | hc | hc := hc <;> obtain hs | hs | hs | hs := hs <;> rw [hc, hs] <;>
      simp [ClientPc.descriptors, SessionPc.descriptors, Loop.held, Session.held,
        Descriptors.openEnd, Descriptors.closeEnd, Descriptors.none, PipeEnd.other]

/-- A run in which the session has not failed can be continued until the client is gone and the
session has returned. -/
theorem Inv.finishes (h : Inv s data) (hcapacity : pSMessageSize + 3 ≤ capacity)
    (hfailed : s.session ≠ .looping .failed) :
    ∃ s', Reaches (PublisherPipe.step capacity) anyStep s s' ∧
      ((∃ data', Inv s' data') ∧ s'.session ≠ .looping .failed) ∧ ClientGone s' ∧
      SessionDone s' := by
  apply Reaches.exists_of_variant (fun s => toLex (clientLeft s, sessionLeft s)) ?_
    (⟨⟨data, h⟩, hfailed⟩ : (∃ data, Inv s data) ∧ s.session ≠ .looping .failed)
  rintro s ⟨⟨data, h⟩, hfailed⟩
  by_cases hdone : ClientGone s ∧ SessionDone s
  · exact Or.inl hdone
  · obtain ⟨a, s', hs, hfailed', hlt⟩ := h.advances hcapacity hfailed hdone
    exact Or.inr ⟨a, s', trivial, hs, ⟨h.step hs, hfailed'⟩, Prod.Lex.toLex_lt_toLex.mpr hlt⟩

/-- A client that finds the pipe full waits as long as nothing is read from it. -/
theorem waits_of_failed {m : List UInt8} (hfailed : s.session = .looping .failed)
    (hc : s.client = .looping (.sending m)) (hopen : 0 < s.pipe.ends .reader)
    (hfull : capacity < s.pipe.bytes.length + m.length)
    (hs : Reaches (step capacity) anyStep s s') : s = s' := by
  have hblocked : s.pipe.write capacity m = .blocked := by
    cases hw : s.pipe.write capacity m with
    | killed =>
      rw [NamedPipe.write_eq_killed.mp hw] at hopen
      cases hopen
    | blocked => rfl
    | written pipe =>
      have := (NamedPipe.write_eq_written.mp hw).2.1
      omega
  apply hs.invariant rfl
  rintro u a v rfl _ ha
  cases a with
  | client auxBuffer message =>
    simp only [step, hc, clientLoop, hblocked] at ha
    cases ha
  | session outcome =>
    simp only [step, hfailed, sessionLoop] at ha
    cases ha

/-- **Every session can return**, in whatever state the two sides are, and its client can return or
is killed by its write, by this only if the box has been removed. The exception is a session that
has returned since its box is full: a client that finds the pipe full, too, waits forever. -/
theorem finishes_of_reaches {accepted : Bool} (hcapacity : pSMessageSize + 3 ≤ capacity)
    (hs : Reaches (step capacity) anyStep (.initial accepted) s) :
    (s.session ≠ .looping .failed → ∃ s', Reaches (step capacity) anyStep s s' ∧
      ClientGone s' ∧ SessionDone s' ∧
      (s'.client = .looping .killed → s'.session = .looping .removed) ∧
      s'.path = .missing ∧ s'.pipe.ends .writer = 0 ∧ (s'.pipe.ends .reader ≠ 0 ↔
        s'.session = .looping .ended ∨ s'.session = .looping .failed)) ∧
    (∀ m, s.session = .looping .failed → s.client = .looping (.sending m) →
      capacity < s.pipe.bytes.length + m.length →
        ∀ s', Reaches (step capacity) anyStep s s' → s' = s) := by
  obtain ⟨data, h⟩ := inv_of_reaches hs
  refine ⟨fun hfailed => ?_, fun m hfailed hc hfull s' hs' => ?_⟩
  · obtain ⟨s', hreach, ⟨⟨data', h'⟩, _⟩, hc, hs⟩ := h.finishes hcapacity hfailed
    refine ⟨s', hreach, hc, hs, fun hkilled => ?_, h'.cleared hc hs⟩
    obtain ⟨k, hk, rfl | rfl⟩ := h'.told.killed hkilled
    · obtain hs | hs | hs | hs := hs <;> rw [hs] at hk <;> cases hk
    · exact hk
  · refine (waits_of_failed hfailed hc ?_ hfull hs').symm
    rw [h.shaken.inStep.shared.ends, hc, hfailed]
    exact Nat.one_pos

/-- Both sides in their loops. -/
theorem finishes_of_opened : ∃ s s' : PublisherPipe,
    Reaches (step 65536) anyStep (.initial true) s ∧ s.client = .looping .typing ∧
      s.session = .looping .reading ∧ Reaches (step 65536) anyStep s s' ∧ ClientGone s' ∧
      SessionDone s' ∧ s'.path = .missing := by
  have hrun : runLabels (step 65536) (.initial true) (openingCalls none) = some _ := rfl
  have hs := reaches_of_runLabels hrun
  obtain ⟨s', hreach, hc, hk, _, hpath, _⟩ := (finishes_of_reaches (by decide) hs).1 (by
    intro hk
    cases hk)
  exact ⟨_, s', hs, rfl, rfl, hreach, hc, hk, hpath⟩

end PublisherPipe

end MessageBroker.Broker
