import MessageBroker.Broker.HandshakeRuns

/-!
# The pipe of a publisher

A publisher and its session, call by call, from the opening of the session to their end.
The session may find at each message that its box has been removed; it then closes the
pipe and removes its path, which is how the publisher gets to know of it.
-/

namespace MessageBroker.Broker

open Transition

namespace PublisherPipe

/-- Where the client stands in its loop. -/
inductive Loop
  /-- In the call of `fgets`. -/
  | typing
  | probing (message : List UInt8)
  | sending (message : List UInt8)
  /-- The `mkfifo` has found no path, and has made one. -/
  | unlinking
  | exiting
  | removed
  /-- At the end of the input. -/
  | closing
  | clearing
  | ended
  /-- By a write to a pipe that nobody reads. -/
  | killed

/-- Where the session stands in its loop. -/
inductive Session
  | reading
  /-- A message has been read. -/
  | storing
  /-- The box has been removed. -/
  | closing
  | unlinking
  | removed
  | ended
  /-- The message did not fit in the box. -/
  | failed

/-- What `tfs_open` and `tfs_write` make of a message. -/
inductive Outcome
  | stored
  /-- The box cannot be opened. -/
  | noBox
  /-- Nothing can be written to the box. -/
  | full

inductive Label
  /-- The next call of the client; `message` is what `message_buffer` holds for the line that
  `fgets` reads, if any. -/
  | client (auxBuffer : List UInt8) (message : Option (List UInt8))
  | session (outcome : Outcome)

end PublisherPipe

abbrev PublisherPipe := Connection PublisherPipe.Loop PublisherPipe.Session

namespace PublisherPipe

/-- The calls of the loop of `pub.c`. -/
def clientLoop (capacity : Nat) (message : Option (List UInt8)) (s : PublisherPipe) :
    Loop → Option PublisherPipe
  | .typing =>
    match message with
    | some m =>
      if m.length = pSMessageSize + 3 then some { s with client := .looping (.probing m) } else none
    | none => some { s with client := .looping .closing }
  | .probing m =>
    if s.path = .missing then some { s with path := .probe, client := .looping .unlinking }
    else some { s with client := .looping (.sending m) }
  | .sending m =>
    match s.pipe.write capacity m with
    | .killed => some { s with pipe := s.pipe.closeEnd .writer, client := .looping .killed }
    | .blocked => none
    | .written pipe => some { s with pipe := pipe, client := .looping .typing, sent := s.sent ++ m }
  | .unlinking => some { s with path := .missing, client := .looping .exiting }
  | .exiting => some { s with pipe := s.pipe.closeEnd .writer, client := .looping .removed }
  | .closing => some { s with pipe := s.pipe.closeEnd .writer, client := .looping .clearing }
  | .clearing => some { s with path := .missing, client := .looping .ended }
  | .removed => none
  | .ended => none
  | .killed => none

/-- The calls of the loop of `start_publisher`. A session that ends at the end of the input or
because its box is full does not close the pipe. -/
def sessionLoop (outcome : Outcome) (s : PublisherPipe) : Session → Option PublisherPipe
  | .reading => do
    let (got, pipe) ← s.pipe.read (pSMessageSize + 3)
    let pc := if got = [] then Session.ended else .storing
    some { s with pipe := pipe, session := .looping pc, received := s.received ++ got }
  | .storing =>
    match outcome with
    | .stored => some { s with session := .looping .reading }
    | .noBox => some { s with session := .looping .closing }
    | .full => some { s with session := .looping .failed }
  | .closing => some { s with pipe := s.pipe.closeEnd .reader, session := .looping .unlinking }
  | .unlinking => some { s with path := .missing, session := .looping .removed }
  | .removed => none
  | .ended => none
  | .failed => none

def step (capacity : Nat) (s : PublisherPipe) : Label → Option PublisherPipe
  | .client auxBuffer message =>
    match s.client with
    | .looping l => s.clientLoop capacity message l
    | _ => s.clientStep .writer auxBuffer .typing
  | .session outcome =>
    match s.session with
    | .looping k => s.sessionLoop outcome k
    | _ => s.sessionStep .writer capacity .reading

/-- The descriptors of the client in its loop. -/
def Loop.held : Loop → Nat
  | removed | clearing | ended | killed => 0
  | _ => 1

def Session.held : Session → Nat
  | unlinking | removed => 0
  | _ => 1

/-- The session has closed the pipe, since its box has been removed. -/
def Session.Closed (k : Session) : Prop := k = .unlinking ∨ k = .removed

theorem step_client {s : PublisherPipe} {auxBuffer : List UInt8} {message : Option (List UInt8)}
    {capacity : Nat} (h : ¬ s.client.Settled) :
    s.step capacity (.client auxBuffer message) = s.clientStep .writer auxBuffer .typing := by
  simp only [step]
  split
  case h_1 l hl =>
    rw [hl] at h
    exact absurd trivial h
  case h_2 => rfl

theorem step_session {s : PublisherPipe} {outcome : Outcome} {capacity : Nat}
    (h : ¬ s.session.Settled) :
    s.step capacity (.session outcome) = s.sessionStep .writer capacity .reading := by
  simp only [step]
  split
  case h_1 k hk =>
    rw [hk] at h
    exact absurd trivial h
  case h_2 => rfl

/-! ### The invariant -/

/-- Who has removed the path, and what each side may say of the other one. -/
structure Told (s : PublisherPipe) : Prop where
  present : s.path = .clientPipe →
    s.client ≠ .refused ∧ s.client ≠ .looping .ended ∧ s.session ≠ .looping .removed
  probe : s.path = .probe → s.client = .looping .unlinking ∧ s.session = .looping .removed
  missing : s.path = .missing →
    s.client = .refused ∨ s.client = .looping .ended ∨ s.session = .looping .removed
  removed : s.client = .looping .unlinking ∨ s.client = .looping .exiting ∨
    s.client = .looping .removed → s.session = .looping .removed
  killed : s.client = .looping .killed → ∃ k : Session, s.session = .looping k ∧ k.Closed
  ended : s.session = .looping .ended →
    (s.client = .looping .clearing ∨ s.client = .looping .ended) ∧ s.received = s.sent
  /-- The client writes the whole of `message_buffer`. -/
  message : ∀ m, s.client = .looping (.probing m) ∨ s.client = .looping (.sending m) →
    m.length = pSMessageSize + 3
  /-- Only a client in its loop has sent what the session has read. -/
  started : ∀ k, s.session = .looping k → k ≠ .reading → s.client.rank = 8

structure Inv (s : PublisherPipe) (data : List UInt8) : Prop where
  shaken : s.Shaken .writer Loop.held Session.held data
  alive : s.session ≠ .killed
  told : s.Told
  received : s.received <+: s.sent
  flow : (∀ k : Session, s.session = .looping k → ¬ k.Closed) → s.sent = s.received ++ data

variable {s s' : PublisherPipe} {data auxBuffer : List UInt8} {capacity : Nat}

theorem inv_initial (accepted : Bool) : Inv (Connection.initial accepted) [] := by
  refine ⟨Connection.shaken_initial accepted, ?_, ⟨?_, ?_, ?_, ?_, ?_, ?_, ?_, ?_⟩,
    List.prefix_refl _, fun _ => rfl⟩
  all_goals simp [Connection.initial]

namespace Inv

/-- Before the client is in its loop, nothing has been sent. -/
theorem data_nil (h : Inv s data) (hc : s.client.rank ≠ 8) : data = [] := by
  by_contra hne
  exact hc (h.shaken.answers.data hne)

/-- A step of the client up to its loop. -/
theorem clientMoves (h : Inv s data) (hm : ClientMoves .writer auxBuffer Loop.typing s s') :
    Inv s' data := by
  obtain ⟨hlt, hlow⟩ := hm.rank_lt h.shaken.found h.shaken.inStep
  obtain ⟨hsent, hreceived, hpath, hloop⟩ := hm.frame
  have hnil := h.data_nil (by omega)
  obtain ⟨data', hshaken, hkept⟩ := h.shaken.clientMoves hm rfl
  obtain rfl : data' = data := by
    obtain heq | ⟨heq, _⟩ := hkept
    · exact heq
    · rw [heq, hnil]
  -- the session still waits for the first message
  have hstarted : ∀ k, s'.session = .looping k → k = .reading := by
    rw [hm.session_eq]
    intro k hk
    by_contra hne
    have := h.told.started k hk hne
    omega
  have hpresent : s.path = .clientPipe := by
    have hsettled := hm.not_settled
    have hprobe := h.told.probe
    have hmissing := h.told.missing
    rw [← hm.session_eq] at hprobe hmissing
    cases hp : s.path with
    | clientPipe => rfl
    | probe =>
      rw [(hprobe hp).1] at hsettled
      exact absurd trivial hsettled
    | missing =>
      obtain hc | hc | hs := hmissing hp
      · rw [hc] at hsettled
        exact absurd trivial hsettled
      · rw [hc] at hsettled
        exact absurd trivial hsettled
      · cases hstarted _ hs
  rw [hpresent] at hpath
  have halive := h.alive
  rw [← hm.session_eq] at halive
  refine ⟨hshaken, halive, ⟨fun hp => ⟨fun hc => ?_, fun hc => ?_, fun hs => ?_⟩, fun hp => ?_,
    fun hp => ?_, ?_, ?_, ?_, ?_, ?_⟩, ?_, ?_⟩
  · obtain ⟨_, hne⟩ | ⟨heq, _⟩ := hpath
    · exact hne hc
    · rw [heq] at hp
      cases hp
  · cases hloop _ hc
  · cases hstarted _ hs
  · obtain ⟨heq, _⟩ | ⟨heq, _⟩ := hpath <;> rw [heq] at hp <;> cases hp
  · obtain ⟨heq, _⟩ | ⟨_, heq⟩ := hpath
    · rw [heq] at hp
      cases hp
    · exact Or.inl heq
  · rintro (hc | hc | hc) <;> cases hloop _ hc
  · intro hc
    cases hloop _ hc
  · intro hs
    cases hstarted _ hs
  · rintro m (hc | hc) <;> cases hloop _ hc
  · intro k hk hne
    exact absurd (hstarted k hk) hne
  · rw [hsent, hreceived]
    exact h.received
  · intro hclosed
    rw [hsent, hreceived]
    rw [hm.session_eq] at hclosed
    exact h.flow hclosed

/-- A step of the session up to its loop. -/
theorem sessionMoves (h : Inv s data) (hm : SessionMoves .writer Session.reading s s') :
    Inv s' data := by
  obtain ⟨hsent, hreceived, hpath, hloop⟩ := hm.frame
  have hkilled := h.shaken.inStep.not_killed hm
  obtain ⟨data', hshaken, hkept⟩ := h.shaken.sessionMoves hm rfl
  obtain rfl : data' = data := by
    obtain heq | ⟨heq, hends⟩ := hkept
    · exact heq
    · -- a session that has closed the pipe has not opened it again
      have hzero := hends .reader
      rw [hshaken.inStep.shared.ends] at hzero
      rw [heq]
      symm
      apply h.data_nil
      rw [← hm.client_eq]
      intro hc
      have hlow := hshaken.inStep.clientReopened rfl hc
      have hle : s'.session.rank ≤ 7 := SessionPc.rank_le
      by_cases hloops : s'.session.rank = 7
      · obtain ⟨k, hk⟩ := SessionPc.looping_of_rank hloops hkilled
        obtain rfl := hloop k hk
        rw [hk] at hzero
        cases (Nat.add_eq_zero_iff.mp hzero).2
      · have hheld : 0 < (s'.session.descriptors .writer Session.held).held .reader :=
          SessionPc.held_second (by omega)
        omega
  have hnotLooping : ∀ k, s.session ≠ .looping k := by
    intro k hk
    have hsettled := hm.not_settled
    rw [hk] at hsettled
    exact hsettled trivial
  have hclient := hm.client_eq
  have hopen : ∀ k : Session, s'.session = .looping k → ¬ k.Closed := by
    rintro k hk hclosed
    rw [hloop k hk] at hclosed
    simp [Session.Closed] at hclosed
  refine ⟨hshaken, hkilled, ⟨fun hp => ⟨?_, ?_, fun hs => ?_⟩, fun hp => ?_, fun hp => ?_, ?_, ?_,
    ?_, ?_, ?_⟩, ?_, ?_⟩
  · rw [hclient]
    exact (h.told.present (hpath ▸ hp)).1
  · rw [hclient]
    exact (h.told.present (hpath ▸ hp)).2.1
  · cases hloop _ hs
  · exact absurd (h.told.probe (hpath ▸ hp)).2 (hnotLooping _)
  · rw [hclient]
    obtain hc | hc | hs := h.told.missing (hpath ▸ hp)
    · exact Or.inl hc
    · exact Or.inr (Or.inl hc)
    · exact absurd hs (hnotLooping _)
  · rw [hclient]
    intro hc
    exact absurd (h.told.removed hc) (hnotLooping _)
  · rw [hclient]
    intro hc
    obtain ⟨k, hk, _⟩ := h.told.killed hc
    exact absurd hk (hnotLooping _)
  · intro hs
    cases hloop _ hs
  · rw [hclient]
    exact h.told.message
  · intro k hk hne
    exact absurd (hloop k hk) hne
  · rw [hsent, hreceived]
    exact h.received
  · intro _
    rw [hsent, hreceived]
    exact h.flow fun k hk => absurd hk (hnotLooping k)

/-- The bytes in the pipe of a client in its loop. -/
theorem bytes_eq {l : Loop} (h : Inv s data) (hc : s.client = .looping l) :
    s.pipe.bytes = data := by
  rw [h.shaken.answers.bytes, Connection.answer_of_read (by rw [hc, ClientPc.rank]; decide)]
  rfl

/-- A client that has no descriptor when the session is in its loop is at its end. -/
theorem ended_of_closed (h : Inv s data) (hs : s.session = .looping .reading)
    (hends : s.pipe.ends .writer = 0) :
    s.client = .looping .clearing ∨ s.client = .looping .ended := by
  have hlow := h.shaken.inStep.sessionReopened rfl (by rw [hs, SessionPc.rank])
  have hle : s.client.rank ≤ 8 := ClientPc.rank_le
  have hzero : (s.client.descriptors .writer Loop.held).held .writer = 0 := by
    rw [h.shaken.inStep.shared.ends] at hends
    omega
  by_cases hloops : s.client.rank = 8
  · obtain ⟨l, hl⟩ := ClientPc.looping_of_rank hloops
    have hremoved := h.told.removed
    have hkilled := h.told.killed
    rw [hl] at hzero
    cases l <;> first | exact absurd hzero Nat.one_ne_zero | grind [Session.Closed]
  · have hheld : 0 < (s.client.descriptors .writer Loop.held).held .writer :=
      ClientPc.held_second (by omega)
    omega

/-- A session that has no descriptor in the loop of the client has closed the pipe. -/
theorem closed {l : Loop} (h : Inv s data) (hc : s.client = .looping l)
    (hends : s.pipe.ends .reader = 0) : ∃ k : Session, s.session = .looping k ∧ k.Closed := by
  have hlow := h.shaken.inStep.clientReopened rfl (by rw [hc, ClientPc.rank])
  have hle : s.session.rank ≤ 7 := SessionPc.rank_le
  have hzero : (s.session.descriptors .writer Session.held).held .reader = 0 := by
    rw [h.shaken.inStep.shared.ends] at hends
    omega
  by_cases hloops : s.session.rank = 7
  · obtain ⟨k, hk⟩ := SessionPc.looping_of_rank hloops h.alive
    refine ⟨k, hk, ?_⟩
    rw [hk] at hzero
    cases k <;> first | exact Or.inl rfl | exact Or.inr rfl | exact absurd hzero Nat.one_ne_zero
  · have hheld : 0 < (s.session.descriptors .writer Session.held).held .reader :=
      SessionPc.held_second (by omega)
    omega

theorem clientLoop {l : Loop} {message : Option (List UInt8)} (h : Inv s data)
    (hc : s.client = .looping l) (hs : s.clientLoop capacity message l = some s') :
    ∃ data', Inv s' data' := by
  have hbytes := h.bytes_eq hc
  have hclosed := h.closed hc
  have hturns := h.shaken.clientTurns hc
  have hcloses := h.shaken.clientCloses hc
  -- a turn that leaves the pipe as it is
  have hkeeps : ∀ (l' : Loop) path, l'.held = l.held → Connection.Shaken .writer Loop.held
      Session.held { s with path := path, client := .looping l' } data := by
    intro l' path hheld
    have := hturns l' hheld path s.sent s.received data fun _ hne => by cases hne
    rwa [← hbytes] at this ⊢
  obtain ⟨hshaken, halive, ⟨hpresent, hprobe, hmissing, hremoved, hkilled, hended, hmessage,
    hstarted⟩,
    hreceived, hflow⟩ := h
  cases l with
  | typing =>
    cases message with
    | some m =>
      obtain ⟨hlen, heq⟩ := Option.ite_none_right_eq_some.mp hs
      cases heq
      exact ⟨data, hkeeps _ _ rfl, halive, by constructor <;> grind [ClientPc.rank], hreceived,
        hflow⟩
    | none =>
      cases hs
      exact ⟨data, hkeeps _ _ rfl, halive, by constructor <;> grind [ClientPc.rank], hreceived,
        hflow⟩
  | probing m =>
    simp only [PublisherPipe.clientLoop] at hs
    by_cases hp : s.path = .missing
    · rw [if_pos hp] at hs
      cases hs
      exact ⟨data, hkeeps _ _ rfl, halive, by constructor <;> grind [ClientPc.rank], hreceived,
        hflow⟩
    · rw [if_neg hp] at hs
      cases hs
      exact ⟨data, hkeeps _ _ rfl, halive, by constructor <;> grind [ClientPc.rank], hreceived,
        hflow⟩
  | sending m =>
    simp only [PublisherPipe.clientLoop] at hs
    split at hs
    case h_1 hw =>
      cases hs
      have hgone := hclosed (NamedPipe.write_eq_killed.mp hw)
      obtain ⟨data', hshaken', _⟩ := hcloses .killed rfl rfl
      exact ⟨data', hshaken', halive, by constructor <;> grind [ClientPc.rank], hreceived, by grind⟩
    case h_2 => cases hs
    case h_3 pipe hw =>
      cases hs
      obtain ⟨hopen, _, rfl⟩ := NamedPipe.write_eq_written.mp hw
      have hshaken' := hturns .typing rfl s.path (s.sent ++ m) s.received (data ++ m)
        fun _ hne => by cases hne
      rw [← hbytes] at hshaken'
      refine ⟨s.pipe.bytes ++ m, hshaken', halive, ?_, hreceived.trans (List.prefix_append ..), ?_⟩
      · constructor <;> grind [ClientPc.rank]
      · grind
  | unlinking =>
    cases hs
    exact ⟨data, hkeeps _ _ rfl, halive, by constructor <;> grind [ClientPc.rank], hreceived,
        hflow⟩
  | exiting =>
    cases hs
    obtain ⟨data', hshaken', _⟩ := hcloses .removed rfl rfl
    exact ⟨data', hshaken', halive, by constructor <;> grind [ClientPc.rank], hreceived,
      by grind [Session.Closed]⟩
  | closing =>
    cases hs
    obtain ⟨data', hshaken', hkept⟩ := hcloses .clearing rfl rfl
    refine ⟨data', hshaken', halive, by constructor <;> grind [ClientPc.rank], hreceived, ?_⟩
    intro hopen
    obtain rfl | ⟨_, hends⟩ := hkept
    · exact hflow hopen
    · -- a session that has not closed the pipe can still read it
      obtain ⟨k, hk, hk'⟩ := hclosed (hends .reader)
      exact absurd hk' (hopen k hk)
  | clearing =>
    cases hs
    exact ⟨data, hkeeps _ _ rfl, halive, by constructor <;> grind [ClientPc.rank], hreceived,
        hflow⟩
  | removed => cases hs
  | ended => cases hs
  | killed => cases hs

theorem sessionLoop {k : Session} {outcome : Outcome} (h : Inv s data)
    (hc : s.session = .looping k) (hs : s.sessionLoop outcome k = some s') :
    ∃ data', Inv s' data' := by
  have hbytes := h.shaken.answers.bytes
  have hturns := h.shaken.sessionTurns hc
  have hcloses := h.shaken.sessionCloses hc
  have hover := h.ended_of_closed
  -- a turn that leaves the pipe as it is
  have hkeeps : ∀ (k' : Session) path, k'.held = k.held → Connection.Shaken .writer Loop.held
      Session.held { s with path := path, session := .looping k' } data := by
    intro k' path hheld
    have := hturns k' hheld path s.sent s.received data fun hne _ => h.shaken.answers.data hne
    rwa [← hbytes] at this
  obtain ⟨hshaken, halive, ⟨hpresent, hprobe, hmissing, hremoved, hkilled, hended, hmessage,
    hstarted⟩,
    hreceived, hflow⟩ := h
  cases k with
  | reading =>
    have hread : s.client.rank ≥ 7 :=
      hshaken.inStep.sessionReopened rfl (by rw [hc, SessionPc.rank])
    have hanswer : s.answer = [] := Connection.answer_of_read (by omega)
    rw [hanswer, List.nil_append] at hbytes
    rw [hanswer] at hturns
    obtain ⟨⟨got, pipe⟩, hr, heq⟩ := Option.bind_eq_some_iff.mp hs
    cases heq
    obtain ⟨hwriter, heq⟩ := NamedPipe.read_eq_some.mp hr
    cases heq
    rw [hbytes]
    by_cases hgot : data = []
    · -- the end of the input
      have hend := hover hc (hwriter (hbytes.trans hgot))
      have hloops : s.client.rank = 8 := by
        obtain heq | heq := hend <;> rw [heq, ClientPc.rank]
      have hsent := hflow (by grind [Session.Closed])
      rw [hgot, List.append_nil] at hsent
      rw [hgot, List.take_nil, if_pos rfl, List.drop_nil, List.append_nil]
      refine ⟨[], ?_, by simp, ?_, hreceived, fun _ => ?_⟩
      · exact hturns .ended rfl s.path s.sent s.received [] fun hne => absurd rfl hne
      · constructor <;> grind [Session.Closed]
      · rw [List.append_nil]
        exact hsent
    · have hloops : s.client.rank = 8 := hshaken.answers.data hgot
      have hne : data.take (pSMessageSize + 3) ≠ [] := by
        simp [hgot, pSMessageSize]
      have hsent := hflow (by grind [Session.Closed])
      rw [if_neg hne]
      refine ⟨data.drop (pSMessageSize + 3), ?_, by simp, ?_, ?_, ?_⟩
      · exact hturns .storing rfl s.path s.sent _ _ fun _ _ => hloops
      · constructor <;> grind [Session.Closed]
      · rw [hsent]
        exact (List.prefix_append_right_inj _).mpr (List.take_prefix ..)
      · intro _
        rw [List.append_assoc, List.take_append_drop]
        exact hsent
  | storing =>
    have hloops := hstarted _ hc (by simp)
    cases outcome with
    | stored =>
      cases hs
      refine ⟨data, hkeeps _ _ rfl, by simp, ?_, hreceived, by grind [Session.Closed]⟩
      constructor <;> grind [Session.Closed]
    | noBox =>
      cases hs
      refine ⟨data, hkeeps _ _ rfl, by simp, ?_, hreceived, by grind [Session.Closed]⟩
      constructor <;> grind [Session.Closed]
    | full =>
      cases hs
      refine ⟨data, hkeeps _ _ rfl, by simp, ?_, hreceived, by grind [Session.Closed]⟩
      constructor <;> grind [Session.Closed]
  | closing =>
    cases hs
    obtain ⟨data', hshaken', _⟩ := hcloses (.looping .unlinking) rfl (Or.inl ⟨_, rfl, rfl⟩)
    refine ⟨data', hshaken', by simp, ?_, hreceived, ?_⟩
    · constructor <;> grind [Session.Closed]
    · grind [Session.Closed]
  | unlinking =>
    cases hs
    refine ⟨data, hkeeps _ _ rfl, by simp, ?_, hreceived, ?_⟩
    · constructor <;> grind [Session.Closed]
    · grind [Session.Closed]
  | removed => cases hs
  | ended => cases hs
  | failed => cases hs

theorem step {a : Label} (h : Inv s data) (hs : s.step capacity a = some s') :
    ∃ data', Inv s' data' := by
  cases a with
  | client auxBuffer message =>
    simp only [PublisherPipe.step] at hs
    split at hs
    case h_1 l hc => exact h.clientLoop hc hs
    case h_2 => exact ⟨data, h.clientMoves (moves_of_clientStep hs)⟩
  | session outcome =>
    simp only [PublisherPipe.step] at hs
    split at hs
    case h_1 k hc => exact h.sessionLoop hc hs
    case h_2 => exact ⟨data, h.sessionMoves (moves_of_sessionStep hs)⟩

end Inv

theorem inv_of_reaches {accepted : Bool}
    (hs : Reaches (step capacity) anyStep (.initial accepted) s) : ∃ data, Inv s data := by
  apply hs.invariant ⟨[], inv_initial accepted⟩
  rintro s a s' ⟨data, h⟩ _ ha
  exact h.step ha

theorem accepted_of_step {a : Label} (hs : s.step capacity a = some s') :
    s'.accepted = s.accepted := by
  cases a with
  | client auxBuffer message =>
    simp only [PublisherPipe.step] at hs
    split at hs
    case h_1 l _ =>
      cases l <;> simp only [clientLoop] at hs <;> grind
    case h_2 => exact (moves_of_clientStep hs).accepted_eq
  | session outcome =>
    simp only [PublisherPipe.step] at hs
    split at hs
    case h_1 k _ =>
      cases k with
      | reading =>
        obtain ⟨r, _, heq⟩ := Option.bind_eq_some_iff.mp hs
        cases heq
        rfl
      | storing | closing | unlinking | removed | ended | failed =>
        simp only [sessionLoop] at hs
        grind
    case h_2 => exact (moves_of_sessionStep hs).accepted_eq

theorem accepted_of_reaches {accepted : Bool}
    (hs : Reaches (step capacity) anyStep (.initial accepted) s) : s.accepted = accepted := by
  have hinv : (fun u : PublisherPipe => u.accepted = accepted) s := by
    apply hs.invariant
    · rfl
    · intro u a v hu _ ha
      exact (accepted_of_step ha).trans hu
  exact hinv

/-- **The opening of a session** of a publisher. In every order of the calls, no call fails, both
sides act on the same answer, and unless both are through with it a call can be made that brings
one of them further, of which there are no more than fifteen. -/
theorem opens_of_reaches {accepted : Bool} (hcapacity : 3 ≤ capacity)
    (hs : Reaches (step capacity) anyStep (.initial accepted) s) :
    (s.client ≠ .aborted ∧ s.client ≠ .failed ∧ s.session ≠ .aborted ∧ s.session ≠ .failed ∧
      s.session ≠ .killed) ∧
    ((s.client = .refused → accepted = false) ∧ (∀ l, s.client = .looping l → accepted = true) ∧
      (s.session = .returned → accepted = false) ∧
      ∀ k, s.session = .looping k → accepted = true) ∧
    s.client.rank + s.session.rank ≤ 15 ∧
    (¬ (s.client.Settled ∧ s.session.Settled) → ∃ a s', step capacity s a = some s' ∧
      s.client.rank + s.session.rank < s'.client.rank + s'.session.rank) := by
  obtain ⟨data, h⟩ := inv_of_reaches hs
  have haccepted := accepted_of_reaches hs
  subst haccepted
  have hfails : s.client ≠ .failed ∧ s.session ≠ .failed := by
    refine ⟨fun hc => ?_, fun hk => ?_⟩
    · cases (h.shaken.found.clientFails hc).1
    · cases (h.shaken.found.sessionFails hk).1
  refine ⟨⟨h.shaken.found.client, hfails.1, h.shaken.found.session, hfails.2, h.alive⟩,
    h.shaken.agree, Nat.add_le_add ClientPc.rank_le SessionPc.rank_le, fun hsettled => ?_⟩
  have hp : s.path ≠ .probe := by
    intro hp
    obtain ⟨hc, hk⟩ := h.told.probe hp
    rw [hc, hk] at hsettled
    exact hsettled ⟨trivial, trivial⟩
  have hclient : ∀ s', Connection.clientStep .writer [] Loop.typing s = some s' →
      ∃ a s', step capacity s a = some s' ∧
        s.client.rank + s.session.rank < s'.client.rank + s'.session.rank := by
    intro s' hstep
    have hm := moves_of_clientStep hstep
    refine ⟨.client [] none, s', ?_, ?_⟩
    · rw [← hstep]
      exact step_client hm.not_settled
    · rw [hm.session_eq]
      exact Nat.add_lt_add_right (hm.rank_lt h.shaken.found h.shaken.inStep).1 _
  have hsession : ∀ s', Connection.sessionStep .writer capacity Session.reading s = some s' →
      ∃ a s', step capacity s a = some s' ∧
        s.client.rank + s.session.rank < s'.client.rank + s'.session.rank := by
    intro s' hstep
    have hm := moves_of_sessionStep hstep
    refine ⟨.session .stored, s', ?_, ?_⟩
    · rw [← hstep]
      exact step_session hm.not_settled
    · rw [hm.client_eq]
      exact Nat.add_lt_add_left (hm.rank_lt h.shaken.found h.shaken.inStep).1 _
  by_cases hc : s.client.Settled
  · obtain ⟨s', hstep⟩ | ⟨s', hstep⟩ | ⟨_, _, hgone⟩ :=
      h.shaken.sessionProgress hcapacity hp fun hk => hsettled ⟨hc, hk⟩
    · exact hsession s' hstep
    · exact hclient s' hstep
    · cases hgone.reader
  · obtain ⟨s', hstep⟩ | ⟨s', hstep⟩ | ⟨_, _, hgone⟩ := h.shaken.clientProgress hcapacity hp hc
    · exact hclient s' hstep
    · exact hsession s' hstep
    · cases hgone.reader

/-- The client waits for its session, which can answer. -/
theorem opens_of_waiting : ∃ s : PublisherPipe,
    Reaches (step 65536) anyStep (.initial false) s ∧ s.client = .waiting 0 ∧
      ∃ a s', step 65536 s a = some s' ∧
        s.client.rank + s.session.rank < s'.client.rank + s'.session.rank := by
  have hrun : runLabels (step 65536) (.initial false) [.client [] none] = some _ := rfl
  have hs := reaches_of_runLabels hrun
  refine ⟨_, hs, rfl, ?_⟩
  apply (opens_of_reaches (by decide) hs).2.2.2
  intro h
  exact h.1

/-- What the two sides conclude from the pipe and its path is so in every order of their calls. A
client that reports that its box was removed has a session that has found this, a write of the
client kills it just if the session has closed the pipe for this reason, and a session that reads
the end of the input has read all that the client has sent. -/
theorem told_of_reaches {accepted : Bool}
    (hs : Reaches (step capacity) anyStep (.initial accepted) s) :
    (s.client = .looping .removed → s.session = .looping .removed) ∧
      (∀ m, s.client = .looping (.sending m) → (s.pipe.write capacity m = .killed ↔
        s.session = .looping .unlinking ∨ s.session = .looping .removed)) ∧
      (s.session = .looping .ended →
        (s.client = .looping .clearing ∨ s.client = .looping .ended) ∧ s.received = s.sent) ∧
      s.received <+: s.sent := by
  obtain ⟨data, h⟩ := inv_of_reaches hs
  refine ⟨fun hc => h.told.removed (Or.inr (Or.inr hc)), fun m hc => ?_, h.told.ended, h.received⟩
  rw [NamedPipe.write_eq_killed]
  constructor
  · intro hends
    obtain ⟨k, hk, rfl | rfl⟩ := h.closed hc hends
    · exact Or.inl hk
    · exact Or.inr hk
  · intro hk
    rw [h.shaken.inStep.shared.ends, hc]
    obtain hk | hk := hk <;> rw [hk] <;> rfl

/-- The calls up to the loops, with `message` for those that come behind. -/
def openingCalls (message : Option (List UInt8)) : List Label :=
  let client := .client [0, 0, 0] message
  let session := .session .stored
  [client, session, client, session, client, client, session, client, client, session, client]

set_option maxRecDepth 8000 in
/-- A publisher whose box is removed behind its second message, and that writes a third one; and one
whose session reads the end of the input behind a message. -/
theorem told_of_messages :
    (∃ (s : PublisherPipe) (m : List UInt8), Reaches (step 65536) anyStep (.initial true) s ∧
      s.client = .looping (.sending m) ∧ s.received.length = 2 * (pSMessageSize + 3) ∧
      s.pipe.write 65536 m = .killed) ∧
    ∃ s : PublisherPipe, Reaches (step 65536) anyStep (.initial true) s ∧
      s.session = .looping .ended ∧ s.received.length = pSMessageSize + 3 ∧
      s.received = s.sent := by
  let m := List.replicate 1027 (0 : UInt8)
  let client := Label.client [] (some m)
  let session := Label.session .stored
  constructor
  · have hrun : runLabels (step 65536) (.initial true) (openingCalls (some m) ++
        [client, client, client, session, session, client, client, client, client, client, session,
          .session .noBox, session, session]) = some _ := rfl
    have hs := reaches_of_runLabels hrun
    exact ⟨_, m, hs, rfl, rfl, ((told_of_reaches hs).2.1 m rfl).mpr (Or.inr rfl)⟩
  · have hrun : runLabels (step 65536) (.initial true) (openingCalls (some m) ++
        [client, client, client, session, session, .client [] none, client, session]) = some _ :=
      rfl
    have hs := reaches_of_runLabels hrun
    exact ⟨_, hs, rfl, rfl, ((told_of_reaches hs).2.2.1 rfl).2⟩

end PublisherPipe

end MessageBroker.Broker
