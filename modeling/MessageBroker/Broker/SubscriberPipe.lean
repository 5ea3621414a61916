import MessageBroker.Broker.HandshakeRuns

/-!
# The pipe of a subscriber

A subscriber and its session, call by call, from the opening of the session to their end.
The subscriber is left by an interrupt, and the session when it finds that its box has
been removed. Each of them removes the path, where the other one looks for it, but
nothing keeps the session from a write while the subscriber has the pipe closed.
-/

namespace MessageBroker.Broker

open Transition

namespace SubscriberPipe

/-- Where the client stands in its loop. -/
inductive Loop
  | reading
  | probing
  /-- The `mkfifo` has found no path, and has made one. -/
  | unlinking
  | exiting
  | removed
  /-- At the start of `sig_handler`. -/
  | interrupted
  | clearing
  | left

/-- Where the session stands in its loop. -/
inductive Session
  /-- In the call of `tfs_open`, or of `tfs_read`. -/
  | polling
  | probing (message : Option (List UInt8))
  | sending (message : List UInt8)
  /-- The box has been removed. -/
  | closing
  | unlinking
  | removed
  /-- The `mkfifo` has found no path, and has made one. -/
  | clearing
  | leaving
  | ended

inductive Label
  | client (auxBuffer : List UInt8)
  /-- `SIGINT`, once the client is in its loop. -/
  | interrupt
  /-- The next call of the session; `outcome` is what `message_buffer` holds for the next message of
  the box, if there is one, and `none` if the box cannot be opened. -/
  | session (outcome : Option (Option (List UInt8)))

end SubscriberPipe

abbrev SubscriberPipe := Connection SubscriberPipe.Loop SubscriberPipe.Session

namespace SubscriberPipe

/-- The calls of the loop of `sub.c`, and of its handler. -/
def clientLoop (s : SubscriberPipe) : Loop → Option SubscriberPipe
  | .reading => do
    let (got, pipe) ← s.pipe.read (pSMessageSize + 3)
    some { s with pipe := pipe, client := .looping .probing, received := s.received ++ got }
  | .probing =>
    if s.path = .missing then some { s with path := .probe, client := .looping .unlinking }
    else some { s with client := .looping .reading }
  | .unlinking => some { s with path := .missing, client := .looping .exiting }
  | .exiting => some { s with pipe := s.pipe.closeEnd .reader, client := .looping .removed }
  | .interrupted => some { s with pipe := s.pipe.closeEnd .reader, client := .looping .clearing }
  | .clearing => some { s with path := .missing, client := .looping .left }
  | .removed => none
  | .left => none

def interrupt (s : SubscriberPipe) : Loop → Option SubscriberPipe
  | .reading | .probing | .unlinking | .exiting => some { s with client := .looping .interrupted }
  | _ => none

/-- The calls of the loop of `start_subscriber`. -/
def sessionLoop (capacity : Nat) (outcome : Option (Option (List UInt8))) (s : SubscriberPipe) :
    Session → Option SubscriberPipe
  | .polling =>
    match outcome with
    | none => some { s with session := .looping .closing }
    | some none => some { s with session := .looping (.probing none) }
    | some (some d) =>
      if d.length = pSMessageSize + 3 then some { s with session := .looping (.probing (some d)) }
      else none
  | .probing message =>
    if s.path = .missing then some { s with path := .probe, session := .looping .clearing }
    else some { s with session := .looping (message.elim .polling .sending) }
  | .sending d =>
    match s.pipe.write capacity d with
    | .killed => some { s with pipe := s.pipe.closeEnd .writer, session := .killed }
    | .blocked => none
    | .written pipe =>
      some { s with pipe := pipe, session := .looping .polling, sent := s.sent ++ d }
  | .closing => some { s with pipe := s.pipe.closeEnd .writer, session := .looping .unlinking }
  | .unlinking => some { s with path := .missing, session := .looping .removed }
  | .clearing => some { s with path := .missing, session := .looping .leaving }
  | .leaving => some { s with pipe := s.pipe.closeEnd .writer, session := .looping .ended }
  | .removed => none
  | .ended => none

def step (capacity : Nat) (s : SubscriberPipe) : Label → Option SubscriberPipe
  | .client auxBuffer =>
    match s.client with
    | .looping l => s.clientLoop l
    | _ => s.clientStep .reader auxBuffer .reading
  | .interrupt =>
    match s.client with
    | .looping l => s.interrupt l
    | _ => none
  | .session outcome =>
    match s.session with
    | .looping k => s.sessionLoop capacity outcome k
    | _ => s.sessionStep .reader capacity .polling

theorem step_client {s : SubscriberPipe} {auxBuffer : List UInt8} {capacity : Nat}
    (h : ¬ s.client.Settled) :
    s.step capacity (.client auxBuffer) = s.clientStep .reader auxBuffer .reading := by
  simp only [step]
  split
  case h_1 l hl =>
    rw [hl] at h
    exact absurd trivial h
  case h_2 => rfl

theorem step_session {s : SubscriberPipe} {outcome : Option (Option (List UInt8))} {capacity : Nat}
    (h : ¬ s.session.Settled) :
    s.step capacity (.session outcome) = s.sessionStep .reader capacity .polling := by
  simp only [step]
  split
  case h_1 k hk =>
    rw [hk] at h
    exact absurd trivial h
  case h_2 => rfl

/-- The descriptors of the client in its loop. -/
def Loop.held : Loop → Nat
  | removed | clearing | left => 0
  | _ => 1

def Session.held : Session → Nat
  | unlinking | removed | ended => 0
  | _ => 1

/-! ### The invariant -/

/-- The client has the pipe closed between its two calls of `open`, or behind an interrupt. -/
def Away (s : SubscriberPipe) : Prop :=
  (∃ b, s.client = .comparing b) ∨ s.client = .reopening ∨ s.client = .looping .clearing ∨
    s.client = .looping .left

/-- Who has removed the path, and what each side may say of the other one. -/
structure Told (s : SubscriberPipe) : Prop where
  present : s.path = .clientPipe →
    s.client ≠ .refused ∧ s.client ≠ .looping .left ∧ s.session ≠ .looping .removed
  probe : s.path = .probe →
    (s.session = .looping .removed ∧ (s.client = .looping .unlinking ∨
      s.client = .looping .interrupted ∨ s.client = .looping .clearing)) ∨
    s.client = .looping .left ∧ s.session = .looping .clearing
  missing : s.path = .missing →
    s.client = .refused ∨ s.client = .looping .left ∨ s.session = .looping .removed
  removed : s.client = .looping .unlinking ∨ s.client = .looping .exiting ∨
    s.client = .looping .removed ∨ s.client = .failed → s.session = .looping .removed
  ended : s.session = .looping .clearing ∨ s.session = .looping .leaving ∨
    s.session = .looping .ended ∨ s.session = .failed → s.client = .looping .left
  /-- A client without a session waits forever. -/
  killed : s.session = .killed → s.Away ∨ s.client = .rewaiting 2
  /-- The session writes the whole of `message_buffer`. -/
  message : ∀ d, s.session = .looping (.probing (some d)) ∨ s.session = .looping (.sending d) →
    d.length = pSMessageSize + 3

/-- One of the two sides has kept the pipe open since the session has been in its loop. -/
def HeldOpen (s : SubscriberPipe) : Prop :=
  s.session.rank < 7 ∨ (∃ k : Session, s.session = .looping k ∧ k.held = 1) ∨
    s.client = .rewaiting 1 ∨ ∃ l : Loop, s.client = .looping l ∧ l.held = 1

structure Inv (s : SubscriberPipe) (data : List UInt8) : Prop where
  shaken : s.Shaken .reader Loop.held Session.held data
  told : s.Told
  received : s.received <+: s.sent
  flow : s.HeldOpen → s.sent = s.received ++ data

variable {s s' : SubscriberPipe} {data auxBuffer : List UInt8} {capacity : Nat}

theorem inv_initial (accepted : Bool) : Inv (Connection.initial accepted) [] := by
  refine ⟨Connection.shaken_initial accepted, ⟨?_, ?_, ?_, ?_, ?_, ?_, ?_⟩, List.prefix_refl _,
    fun _ => rfl⟩
  all_goals simp [Connection.initial]

/-- Nothing is lost while a side that may read what has been sent has the pipe open. -/
theorem HeldOpen.kept {data' : List UInt8} (h : s.HeldOpen)
    (hs : s.Shaken .reader Loop.held Session.held data') (hkept : Connection.Kept s data data')
    (hdata : s.session.rank < 7 → data = []) : data' = data := by
  obtain heq | ⟨heq, hends⟩ := hkept
  · exact heq
  · obtain hlow | ⟨k, hk, hheld⟩ | hc | ⟨l, hl, hheld⟩ := h
    · rw [heq, hdata hlow]
    · have hzero := hends .writer
      rw [hs.inStep.shared.ends, hk] at hzero
      simp [SessionPc.descriptors, PipeEnd.other, hheld] at hzero
    · have hzero := hends .reader
      rw [hs.inStep.shared.ends, hc] at hzero
      exact absurd (Nat.add_eq_zero_iff.mp hzero).1 Nat.one_ne_zero
    · have hzero := hends .reader
      rw [hs.inStep.shared.ends, hl] at hzero
      simp [ClientPc.descriptors, hheld] at hzero

namespace Inv

/-- Before the session is in its loop, nothing has been sent. -/
theorem data_nil (h : Inv s data) (hs : s.session.rank < 7) : data = [] := by
  by_contra hne
  have hrank : s.session.rank = 7 := h.shaken.answers.data hne
  omega

theorem opens_writer (h : Inv s data) : s.pipe.opens .writer =
    (if 1 ≤ s.session.rank then 1 else 0) + if 6 ≤ s.session.rank then 1 else 0 := by
  rw [h.shaken.inStep.shared.opens, ClientPc.opened_eq, SessionPc.opened_eq]
  simp [PipeEnd.other]

theorem opens_reader (h : Inv s data) : s.pipe.opens .reader =
    (if 1 ≤ s.client.rank then 1 else 0) + if 7 ≤ s.client.rank then 1 else 0 := by
  rw [h.shaken.inStep.shared.opens, ClientPc.opened_eq, SessionPc.opened_eq]
  simp [PipeEnd.other]

/-- A session that has the pipe open is not yet in its loop or has kept it open there. -/
theorem heldOpen_of_writer (h : Inv s data)
    (hc : (s.client.descriptors .reader Loop.held).held .writer = 0)
    (hw : 0 < s.pipe.ends .writer) : s.HeldOpen := by
  have hle : s.session.rank ≤ 7 := SessionPc.rank_le
  have hwriter := hw
  rw [h.shaken.inStep.shared.ends, hc, Nat.zero_add] at hwriter
  by_cases hlow : s.session.rank < 7
  · exact Or.inl hlow
  · cases hpc : s.session with
    | looping k =>
      refine Or.inr (Or.inl ⟨k, hpc, ?_⟩)
      rw [hpc] at hwriter
      cases k <;> first | rfl | exact absurd hwriter (Nat.lt_irrefl 0)
    | killed =>
      rw [hpc] at hwriter
      exact absurd hwriter (Nat.lt_irrefl 0)
    | opening | aborted | waiting | writing | closing | returned | reopening | failed | rewaiting =>
      rw [hpc] at hlow
      simp [SessionPc.rank] at hlow

/-- A client that is through with its second `open` has found a session that has kept the pipe open,
or has kept it open itself. -/
theorem heldOpen_of_clientMoves (h : Inv s data)
    (hm : ClientMoves .reader auxBuffer Loop.reading s s') (hs : s'.HeldOpen) : s.HeldOpen := by
  have hopens := h.opens_writer
  obtain hlow | hk | hc | ⟨l, hl, hheld⟩ := hs
  · rw [hm.session_eq] at hlow
    exact Or.inl hlow
  · rw [hm.session_eq] at hk
    exact Or.inr (Or.inl hk)
  · cases hm with
    | rewaits hc' _ _ =>
      have hone : s.pipe.opens .writer = 1 := ClientPc.rewaiting.inj hc
      left
      by_contra hlow
      rw [if_pos (by omega), if_pos (by omega)] at hopens
      omega
    | opens | waits | aborts | wakes | reads | closes | accepted | refused | reopens | fails
    | rewakes => cases hc
  · cases hm with
    | reopens hc' _ hw =>
      refine h.heldOpen_of_writer ?_ hw
      rw [hc']
      rfl
    | rewakes n hc' hn =>
      obtain rfl | hgone := h.shaken.inStep.clientRewaits n hc'
      · exact Or.inr (Or.inr (Or.inl hc'))
      · rw [hgone.looping] at hopens
        exact absurd (hopens.trans hgone.seen.symm) hn
    | opens | waits | aborts | wakes | reads | closes | accepted | refused | rewaits | fails =>
      cases hl

/-- A client whose broker has been killed stays away, or waits forever. -/
theorem away_of_clientMoves (h : Inv s data)
    (hm : ClientMoves .reader auxBuffer Loop.reading s s') (hs : s.session = .killed) :
    s'.Away ∨ s'.client = .rewaiting 2 := by
  have hopens := h.opens_writer
  have hsettled := hm.not_settled
  rw [hs] at hopens
  obtain (⟨b, hc⟩ | hc | hc | hc) | hc := h.told.killed hs
  · cases hm with
    | accepted b' hc' => exact Or.inl (Or.inr (Or.inl rfl))
    | refused b' hc' hne =>
      -- the session has not been killed behind a refusal
      have haccepted : s.accepted = true := by
        have := h.shaken.answers.session (by simp [hs, SessionPc.rank])
        simpa [hs] using this
      rw [h.shaken.answers.buffer b' (Or.inr hc'), haccepted] at hne
      exact absurd rfl hne
    | opens hc' | waits hc' | aborts hc' | wakes _ hc' | reads hc' | closes _ hc' | reopens hc'
    | rewaits hc' | fails hc' | rewakes _ hc' =>
      rw [hc] at hc'
      cases hc'
  · cases hm with
    | reopens hc' _ hw =>
      rw [h.shaken.inStep.shared.ends, hc, hs] at hw
      exact absurd hw (Nat.lt_irrefl 0)
    | rewaits hc' _ _ =>
      right
      exact congrArg ClientPc.rewaiting hopens
    | fails hc' hp =>
      obtain hc' | hc' | hs' := h.told.missing hp
      · rw [hc] at hc'
        cases hc'
      · rw [hc] at hc'
        cases hc'
      · rw [hs] at hs'
        cases hs'
    | opens hc' | waits hc' | aborts hc' | wakes _ hc' | reads hc' | closes _ hc' | accepted _ hc'
    | refused _ hc' | rewakes _ hc' =>
      rw [hc] at hc'
      cases hc'
  · rw [hc] at hsettled
    exact absurd trivial hsettled
  · rw [hc] at hsettled
    exact absurd trivial hsettled
  · cases hm with
    | rewakes n hc' hn =>
      obtain rfl := ClientPc.rewaiting.inj (hc.symm.trans hc')
      exact absurd hopens hn
    | opens hc' | waits hc' | aborts hc' | wakes _ hc' | reads hc' | closes _ hc' | accepted _ hc'
    | refused _ hc' | reopens hc' | rewaits hc' | fails hc' =>
      rw [hc] at hc'
      cases hc'

theorem told_of_clientMoves (h : Inv s data)
    (hm : ClientMoves .reader auxBuffer Loop.reading s s') : s'.Told := by
  have haway := h.away_of_clientMoves hm
  obtain ⟨_, _, hpath, hloop⟩ := hm.frame
  have hnotLooping : ∀ l, s.client ≠ .looping l := by
    intro l hl
    have hsettled := hm.not_settled
    rw [hl] at hsettled
    exact hsettled trivial
  obtain ⟨hpresent, hprobe, hmissing, hremoved, hended, hkilled, hmessage⟩ := h.told
  have hgone : s.path = .missing → s'.client ≠ .refused → s.session = .looping .removed := by
    intro hp _
    obtain hc | hc | hs := hmissing hp
    · have hsettled := hm.not_settled
      rw [hc] at hsettled
      exact absurd trivial hsettled
    · exact absurd hc (hnotLooping _)
    · exact hs
  rw [← hm.session_eq] at *
  refine ⟨fun hp => ⟨?_, fun hc => ?_, ?_⟩, fun hp => ?_, fun hp => ?_, ?_, fun hs => ?_, haway,
    hmessage⟩
  · obtain ⟨_, hne⟩ | ⟨heq, _⟩ := hpath
    · exact hne
    · rw [heq] at hp
      cases hp
  · cases hloop _ hc
  · obtain ⟨heq, _⟩ | ⟨heq, _⟩ := hpath <;> rw [heq] at hp
    · exact (hpresent hp).2.2
    · cases hp
  · obtain ⟨heq, _⟩ | ⟨heq, _⟩ := hpath <;> rw [heq] at hp
    · obtain ⟨_, hc | hc | hc⟩ | ⟨hc, _⟩ := hprobe hp <;> exact absurd hc (hnotLooping _)
    · cases hp
  · obtain ⟨heq, hne⟩ | ⟨_, heq⟩ := hpath
    · exact Or.inr (Or.inr (hgone (heq ▸ hp) hne))
    · exact Or.inl heq
  · rintro (hc | hc | hc | hc)
    · cases hloop _ hc
    · cases hloop _ hc
    · cases hloop _ hc
    · cases hm with
      | fails _ hp => exact hgone hp (by simp)
      | opens | waits | aborts | wakes | reads | closes | accepted | refused | reopens | rewaits
      | rewakes => cases hc
  · exact absurd (hended hs) (hnotLooping _)

/-- A step of the client up to its loop. -/
theorem clientMoves (h : Inv s data) (hm : ClientMoves .reader auxBuffer Loop.reading s s') :
    ∃ data', Inv s' data' := by
  obtain ⟨hsent, hreceived, _, _⟩ := hm.frame
  obtain ⟨data', hshaken, hkept⟩ := h.shaken.clientMoves hm rfl
  refine ⟨data', hshaken, h.told_of_clientMoves hm, ?_, fun hopen => ?_⟩
  · rw [hsent, hreceived]
    exact h.received
  · rw [hopen.kept hshaken hkept (by rw [hm.session_eq]; exact h.data_nil), hsent, hreceived]
    exact h.flow (h.heldOpen_of_clientMoves hm hopen)

/-- A step of the session up to its loop. -/
theorem sessionMoves (h : Inv s data) (hm : SessionMoves .reader Session.polling s s') :
    ∃ data', Inv s' data' := by
  obtain ⟨hsent, hreceived, hpath, hloop⟩ := hm.frame
  obtain ⟨_, hlow⟩ := hm.rank_lt h.shaken.found h.shaken.inStep
  have hkilled := h.shaken.inStep.not_killed hm
  obtain ⟨data', hshaken, hkept⟩ := h.shaken.sessionMoves hm rfl
  have hnil := h.data_nil hlow
  have hdata : data' = data := by
    obtain heq | ⟨heq, _⟩ := hkept
    · exact heq
    · rw [heq, hnil]
  have hnotLooping : ∀ k, s.session ≠ .looping k := by
    intro k hk
    have hsettled := hm.not_settled
    rw [hk] at hsettled
    exact hsettled trivial
  have hclient := hm.client_eq
  have hrefused : s.session = .reopening → s.client ≠ .refused := by
    intro hs hc
    have hreturned := (h.shaken.answers.session (by rw [hs, SessionPc.rank])).mpr
      ((h.shaken.answers.client (by rw [hc, ClientPc.rank]; decide)).mp hc)
    rw [hs] at hreturned
    cases hreturned
  have hflow := h.flow (Or.inl hlow)
  have hprefix := h.received
  obtain ⟨hpresent, hprobe, hmissing, hremoved, hended, _, _⟩ := h.told
  refine ⟨data', hshaken, ⟨fun hp => ?_, fun hp => ?_, fun hp => ?_, fun hc => ?_, ?_, ?_, ?_⟩, ?_,
    fun _ => ?_⟩
  · rw [hclient]
    obtain ⟨hc, hc', _⟩ := hpresent (hpath ▸ hp)
    exact ⟨hc, hc', fun hs => by cases hloop _ hs⟩
  · obtain ⟨hs, _⟩ | ⟨_, hs⟩ := hprobe (hpath ▸ hp) <;> exact absurd hs (hnotLooping _)
  · rw [hclient]
    obtain hc | hc | hs := hmissing (hpath ▸ hp)
    · exact Or.inl hc
    · exact Or.inr (Or.inl hc)
    · exact absurd hs (hnotLooping _)
  · rw [hclient] at hc
    exact absurd (hremoved hc) (hnotLooping _)
  · rintro (hs | hs | hs | hs)
    · cases hloop _ hs
    · cases hloop _ hs
    · cases hloop _ hs
    · cases hm with
      | fails hs' hp =>
        obtain hc | hc | hk := hmissing hp
        · exact absurd hc (hrefused hs')
        · exact hc
        · exact absurd hk (hnotLooping _)
      | opens | waits | aborts | wakes | killed | writes | closes | returns | reopens | rewaits
      | rewakes => cases hs
  · exact fun hs => absurd hs hkilled
  · rintro d (hs | hs) <;> cases hloop _ hs
  · rw [hsent, hreceived]
    exact hprefix
  · rw [hsent, hreceived, hdata]
    exact hflow

/-- The bytes in the pipe of a client in its loop. -/
theorem bytes_eq {l : Loop} (h : Inv s data) (hc : s.client = .looping l) :
    s.pipe.bytes = data := by
  rw [h.shaken.answers.bytes, Connection.answer_of_read (by rw [hc, ClientPc.rank]; decide)]
  rfl

theorem clientLoop {l : Loop} (h : Inv s data) (hc : s.client = .looping l)
    (hs : s.clientLoop l = some s') : ∃ data', Inv s' data' := by
  have hbytes := h.bytes_eq hc
  have hturns := h.shaken.clientTurns hc
  have hcloses := h.shaken.clientCloses hc
  have hdata := h.shaken.answers.data
  have hnil := h.data_nil
  -- a turn that leaves the pipe as it is
  have hkeeps : ∀ (l' : Loop) path, l'.held = l.held → Connection.Shaken .reader Loop.held
      Session.held { s with path := path, client := .looping l' } data := by
    intro l' path hheld
    have := hturns l' hheld path s.sent s.received data fun hne _ => hdata hne
    rwa [← hbytes] at this ⊢
  have hopen : l.held = 1 → s.HeldOpen := fun hheld => Or.inr (Or.inr (Or.inr ⟨l, hc, hheld⟩))
  obtain ⟨_, ⟨hpresent, hprobe, hmissing, hremoved, hended, hkilled, hmessage⟩, hreceived,
    hflow⟩ := h
  cases l with
  | reading =>
    obtain ⟨⟨got, pipe⟩, hr, heq⟩ := Option.bind_eq_some_iff.mp hs
    cases heq
    obtain ⟨_, heq⟩ := NamedPipe.read_eq_some.mp hr
    cases heq
    rw [hbytes]
    have hsent := hflow (hopen rfl)
    refine ⟨data.drop (pSMessageSize + 3), ?_, ?_, ?_, fun _ => ?_⟩
    · refine hturns .probing rfl s.path s.sent _ _ fun hne _ => hdata ?_
      rintro rfl
      exact hne (List.drop_nil ..)
    · constructor <;> grind [Away]
    · rw [hsent]
      exact (List.prefix_append_right_inj _).mpr (List.take_prefix ..)
    · rw [List.append_assoc, List.take_append_drop]
      exact hsent
  | probing =>
    simp only [SubscriberPipe.clientLoop] at hs
    by_cases hp : s.path = .missing
    · rw [if_pos hp] at hs
      cases hs
      exact ⟨data, hkeeps _ _ rfl, by constructor <;> grind [Away], hreceived,
        fun _ => hflow (hopen rfl)⟩
    · rw [if_neg hp] at hs
      cases hs
      exact ⟨data, hkeeps _ _ rfl, by constructor <;> grind [Away], hreceived,
        fun _ => hflow (hopen rfl)⟩
  | unlinking =>
    cases hs
    exact ⟨data, hkeeps _ _ rfl, by constructor <;> grind [Away], hreceived,
      fun _ => hflow (hopen rfl)⟩
  | exiting =>
    cases hs
    obtain ⟨data', hshaken', hkept⟩ := hcloses .removed rfl rfl
    refine ⟨data', hshaken', by constructor <;> grind [Away], hreceived, fun hopen' => ?_⟩
    rw [hopen'.kept hshaken' hkept hnil]
    exact hflow (hopen rfl)
  | interrupted =>
    cases hs
    obtain ⟨data', hshaken', hkept⟩ := hcloses .clearing rfl rfl
    refine ⟨data', hshaken', by constructor <;> grind [Away], hreceived, fun hopen' => ?_⟩
    rw [hopen'.kept hshaken' hkept hnil]
    exact hflow (hopen rfl)
  | clearing =>
    cases hs
    refine ⟨data, hkeeps _ _ rfl, by constructor <;> grind [Away], hreceived, fun hopen' => ?_⟩
    apply hflow
    obtain hlow | hk | hc' | ⟨l, hl, hheld⟩ := hopen'
    · exact Or.inl hlow
    · exact Or.inr (Or.inl hk)
    · cases hc'
    · cases hl
      cases hheld
  | removed => cases hs
  | left => cases hs

theorem interrupt {l : Loop} (h : Inv s data) (hc : s.client = .looping l)
    (hs : s.interrupt l = some s') : Inv s' data := by
  have hbytes := h.bytes_eq hc
  have hturns := h.shaken.clientTurns hc .interrupted
  have hdata := h.shaken.answers.data
  have hkeeps : l.held = 1 → Connection.Shaken .reader Loop.held Session.held
      { s with client := .looping .interrupted } data := by
    intro hheld
    have := hturns hheld.symm s.path s.sent s.received data fun hne _ => hdata hne
    rwa [← hbytes] at this ⊢
  have hopen : l.held = 1 → s.HeldOpen := fun hheld => Or.inr (Or.inr (Or.inr ⟨l, hc, hheld⟩))
  obtain ⟨_, ⟨hpresent, hprobe, hmissing, hremoved, hended, hkilled, hmessage⟩, hreceived,
    hflow⟩ := h
  cases l with
  | reading | probing | unlinking | exiting =>
    cases hs
    exact ⟨hkeeps rfl, by constructor <;> grind [Away], hreceived, fun _ => hflow (hopen rfl)⟩
  | removed | interrupted | clearing | left => cases hs

/-- A session in its loop has a client that has not been refused. -/
theorem not_refused {k : Session} (h : Inv s data) (hk : s.session = .looping k) :
    s.client ≠ .refused := by
  intro hc
  obtain ⟨hrefused, _, _, hloops⟩ := h.shaken.agree
  have haccepted := hloops k hk
  rw [hrefused hc] at haccepted
  cases haccepted

/-- A session finds its pipe without a reader just if the client is away. -/
theorem closed_iff {k : Session} (h : Inv s data) (hk : s.session = .looping k)
    (hremoved : s.session ≠ .looping .removed) : s.pipe.ends .reader = 0 ↔ s.Away := by
  have hended := h.told.removed
  rw [h.shaken.inStep.shared.ends]
  have hsession : (s.session.descriptors .reader Session.held).held .reader = 0 := by
    rw [hk]
    rfl
  rw [hsession, Nat.add_zero]
  constructor
  · intro hzero
    have hlow := h.shaken.inStep.sessionOpened (by rw [hk, SessionPc.rank]; decide)
    cases hc : s.client with
    | looping l =>
      rw [hc] at hzero
      cases l with
      | clearing => exact Or.inr (Or.inr (Or.inl hc))
      | left => exact Or.inr (Or.inr (Or.inr hc))
      | removed => exact absurd (hended (Or.inr (Or.inr (Or.inl hc)))) hremoved
      | reading | probing | unlinking | exiting | interrupted =>
        exact absurd hzero Nat.one_ne_zero
    | comparing b => exact Or.inl ⟨b, hc⟩
    | reopening => exact Or.inr (Or.inl hc)
    | opening | aborted =>
      rw [hc, ClientPc.rank] at hlow
      cases hlow
    | refused => exact absurd hc (h.not_refused hk)
    | failed => exact absurd (hended (Or.inr (Or.inr (Or.inr hc)))) hremoved
    | waiting | reading | closing | rewaiting =>
      rw [hc] at hzero
      exact absurd hzero Nat.one_ne_zero
  · rintro (⟨b, hc⟩ | hc | hc | hc) <;> rw [hc] <;> rfl

theorem sessionLoop {k : Session} {outcome : Option (Option (List UInt8))} (h : Inv s data)
    (hk : s.session = .looping k) (hs : s.sessionLoop capacity outcome k = some s') :
    ∃ data', Inv s' data' := by
  have hbytes := h.shaken.answers.bytes
  have hturns := h.shaken.sessionTurns hk
  have hcloses := h.shaken.sessionCloses hk
  have hclosed := h.closed_iff hk
  have hrefused := h.not_refused hk
  -- a turn that leaves the pipe as it is
  have hkeeps : ∀ (k' : Session) path, k'.held = k.held → Connection.Shaken .reader Loop.held
      Session.held { s with path := path, session := .looping k' } data := by
    intro k' path hheld
    have := hturns k' hheld path s.sent s.received data fun _ hne => absurd rfl hne
    rwa [← hbytes] at this
  have hopen : k.held = 1 → s.HeldOpen := fun hheld => Or.inr (Or.inl ⟨k, hk, hheld⟩)
  obtain ⟨_, ⟨hpresent, hprobe, hmissing, hremoved, hended, hkilled, hmessage⟩, hreceived,
    hflow⟩ := h
  cases k with
  | polling =>
    cases outcome with
    | none =>
      cases hs
      exact ⟨data, hkeeps _ _ rfl, by constructor <;> grind, hreceived, fun _ => hflow (hopen rfl)⟩
    | some message =>
      cases message with
      | none =>
        cases hs
        exact ⟨data, hkeeps _ _ rfl, by constructor <;> grind, hreceived,
          fun _ => hflow (hopen rfl)⟩
      | some d =>
        obtain ⟨hlen, heq⟩ := Option.ite_none_right_eq_some.mp hs
        cases heq
        exact ⟨data, hkeeps _ _ rfl, by constructor <;> grind, hreceived,
          fun _ => hflow (hopen rfl)⟩
  | probing message =>
    simp only [SubscriberPipe.sessionLoop] at hs
    by_cases hp : s.path = .missing
    · rw [if_pos hp] at hs
      cases hs
      exact ⟨data, hkeeps _ _ rfl, by constructor <;> grind, hreceived, fun _ => hflow (hopen rfl)⟩
    · rw [if_neg hp] at hs
      cases hs
      cases message with
      | none =>
        exact ⟨data, hkeeps _ _ rfl, by constructor <;> grind, hreceived,
          fun _ => hflow (hopen rfl)⟩
      | some d =>
        exact ⟨data, hkeeps _ _ rfl, by constructor <;> grind, hreceived,
          fun _ => hflow (hopen rfl)⟩
  | sending d =>
    simp only [SubscriberPipe.sessionLoop] at hs
    split at hs
    case h_1 hw =>
      cases hs
      have haway := (hclosed (by simp [hk])).mp (NamedPipe.write_eq_killed.mp hw)
      obtain ⟨data', hshaken', hkept⟩ := hcloses .killed rfl (Or.inr rfl)
      refine ⟨data', hshaken', by constructor <;> grind [Away], hreceived, fun hopen' => ?_⟩
      rw [hopen'.kept hshaken' hkept (by simp [SessionPc.rank])]
      exact hflow (hopen rfl)
    case h_2 => cases hs
    case h_3 pipe hw =>
      cases hs
      obtain ⟨_, _, rfl⟩ := NamedPipe.write_eq_written.mp hw
      have hshaken' := hturns .polling rfl s.path (s.sent ++ d) s.received (data ++ d)
        fun _ hne => absurd rfl hne
      rw [← List.append_assoc, ← hbytes] at hshaken'
      refine ⟨data ++ d, hshaken', by constructor <;> grind,
        hreceived.trans (List.prefix_append ..), fun _ => ?_⟩
      rw [hflow (hopen rfl), List.append_assoc]
  | closing =>
    cases hs
    obtain ⟨data', hshaken', hkept⟩ := hcloses (.looping .unlinking) rfl (Or.inl ⟨_, rfl, rfl⟩)
    refine ⟨data', hshaken', by constructor <;> grind, hreceived, fun hopen' => ?_⟩
    rw [hopen'.kept hshaken' hkept (by simp [SessionPc.rank])]
    exact hflow (hopen rfl)
  | unlinking =>
    cases hs
    refine ⟨data, hkeeps _ _ rfl, by constructor <;> grind, hreceived, fun hopen' => ?_⟩
    apply hflow
    obtain hlow | ⟨k', hk', hheld⟩ | hc := hopen'
    · exact absurd hlow (Nat.lt_irrefl 7)
    · cases hk'
      cases hheld
    · exact Or.inr (Or.inr hc)
  | clearing =>
    cases hs
    exact ⟨data, hkeeps _ _ rfl, by constructor <;> grind, hreceived, fun _ => hflow (hopen rfl)⟩
  | leaving =>
    cases hs
    obtain ⟨data', hshaken', hkept⟩ := hcloses (.looping .ended) rfl (Or.inl ⟨_, rfl, rfl⟩)
    refine ⟨data', hshaken', by constructor <;> grind, hreceived, fun hopen' => ?_⟩
    rw [hopen'.kept hshaken' hkept (by simp [SessionPc.rank])]
    exact hflow (hopen rfl)
  | removed => cases hs
  | ended => cases hs

theorem step {a : Label} (h : Inv s data) (hs : s.step capacity a = some s') :
    ∃ data', Inv s' data' := by
  cases a with
  | client auxBuffer =>
    simp only [SubscriberPipe.step] at hs
    split at hs
    case h_1 l hl => exact h.clientLoop hl hs
    case h_2 => exact h.clientMoves (moves_of_clientStep hs)
  | interrupt =>
    simp only [SubscriberPipe.step] at hs
    split at hs
    case h_1 l hl => exact ⟨data, h.interrupt hl hs⟩
    case h_2 => cases hs
  | session outcome =>
    simp only [SubscriberPipe.step] at hs
    split at hs
    case h_1 k hk => exact h.sessionLoop hk hs
    case h_2 => exact h.sessionMoves (moves_of_sessionStep hs)

end Inv

theorem inv_of_inv_of_reaches (h : Inv s data) (hs : Reaches (step capacity) anyStep s s') :
    ∃ data', Inv s' data' := by
  apply hs.invariant ⟨data, h⟩
  rintro u a v ⟨_, hu⟩ _ ha
  exact hu.step ha

theorem inv_of_reaches {accepted : Bool}
    (hs : Reaches (step capacity) anyStep (.initial accepted) s) : ∃ data, Inv s data :=
  inv_of_inv_of_reaches (inv_initial accepted) hs

/-- What the two sides conclude from the pipe and its path is so in every order of their calls: a
client that reports that its box was removed, or cannot open the pipe again, has a session that has
found this, and a session that reports the end, or cannot open the pipe again, has a client that
was interrupted. What the client has read is the beginning of what was sent, and while it has the
pipe open in its loop, the rest is in the pipe. -/
theorem reports_of_reaches {accepted : Bool}
    (hs : Reaches (step capacity) anyStep (.initial accepted) s) :
    (s.client = .looping .removed ∨ s.client = .failed → s.session = .looping .removed) ∧
      (s.session = .looping .ended ∨ s.session = .failed → s.client = .looping .left) ∧
      (s.client ≠ .aborted ∧ s.session ≠ .aborted) ∧ s.received <+: s.sent ∧
      ∀ l : Loop, s.client = .looping l → l.held = 1 → s.sent = s.received ++ s.pipe.bytes := by
  obtain ⟨data, h⟩ := inv_of_reaches hs
  refine ⟨fun hc => ?_, fun hk => ?_, ⟨h.shaken.found.client, h.shaken.found.session⟩, h.received,
    fun l hl hheld => ?_⟩
  · exact h.told.removed (Or.inr (Or.inr hc))
  · exact h.told.ended (Or.inr (Or.inr hk))
  · rw [h.bytes_eq hl]
    exact h.flow (Or.inr (Or.inr (Or.inr ⟨l, hl, hheld⟩)))

/-- The calls up to the loop of the session, whose client still has to read the answer. -/
def openingCalls : List Label :=
  [.client [0, 0, 0], .session none, .client [0, 0, 0], .session none, .session none,
    .session none]

set_option maxRecDepth 8000 in
/-- The box of a subscriber is removed behind the first message. -/
theorem reports_of_box_removed : ∃ s : SubscriberPipe,
    Reaches (step 65536) anyStep (.initial true) s ∧ s.client = .looping .removed ∧
      s.received.length = pSMessageSize + 3 ∧ s.session = .looping .removed := by
  let client := Label.client [0, 0, 0]
  let d := List.replicate 1027 (0 : UInt8)
  have hrun : runLabels (step 65536) (.initial true) (openingCalls ++
      [client, client, client, client, .session (some (some d)), .session none, .session none,
        client, client, .session none, .session none, .session none, client, client, client,
        client]) = some _ := rfl
  have hs := reaches_of_runLabels hrun
  exact ⟨_, hs, rfl, rfl, (reports_of_reaches hs).1 (Or.inl rfl)⟩

/-- A write of the session kills the broker just if the client is away, be it between the two calls
of `open` that it makes of the pipe or behind an interrupt, and never when the session answers. The
client of a session that was killed is still away, or waits for it in the second of these calls. -/
theorem killed_of_reaches {accepted : Bool}
    (hs : Reaches (step capacity) anyStep (.initial accepted) s) :
    (∀ d, s.session = .looping (.sending d) → (s.pipe.write capacity d = .killed ↔ s.Away)) ∧
      (s.session = .writing → s.pipe.write capacity (reply s.accepted) ≠ .killed) ∧
      (s.session = .killed → s.Away ∨ s.client = .rewaiting 2) := by
  obtain ⟨data, h⟩ := inv_of_reaches hs
  refine ⟨fun d hk => ?_, fun hk => ?_, h.told.killed⟩
  · rw [NamedPipe.write_eq_killed]
    exact h.closed_iff hk (by simp [hk])
  · rw [Ne, NamedPipe.write_eq_killed]
    exact Nat.ne_of_gt (h.shaken.inStep.answerable hk)

set_option maxRecDepth 8000 in
/-- The session writes a message when the client has read the answer and closed the pipe. -/
theorem killed_of_comparing : ∃ s d, Reaches (step 65536) anyStep (.initial true) s ∧
    s.session = .looping (.sending d) ∧ s.pipe.write 65536 d = .killed := by
  let d := List.replicate 1027 (0 : UInt8)
  have hrun : runLabels (step 65536) (.initial true) (openingCalls ++
      [.client [0, 0, 0], .client [0, 0, 0], .session (some (some d)), .session none]) =
        some _ := rfl
  have hs := reaches_of_runLabels hrun
  exact ⟨_, d, hs, rfl, ((killed_of_reaches hs).1 d rfl).mpr (Or.inl ⟨_, rfl⟩)⟩

end SubscriberPipe

end MessageBroker.Broker
