import MessageBroker.Broker.SubscriberPipe

/-!
# The end of a subscriber

When a subscriber and its session can still return, and when they cannot: a side whose second
`open` comes when the other one has closed the pipe behind its loop, and has not removed
the path, waits forever, and the broker is killed in the end just if the session is about to
write what an interrupted client cannot read.
-/

namespace MessageBroker.Broker

open Transition

namespace SubscriberPipe

variable {s s' : SubscriberPipe} {data auxBuffer : List UInt8} {capacity : Nat}

/-- The client has returned. -/
def ClientEnds (s : SubscriberPipe) : Prop :=
  s.client = .refused ∨ s.client = .failed ∨ s.client = .looping .removed ∨
    s.client = .looping .left

/-- The session has returned. -/
def SessionEnds (s : SubscriberPipe) : Prop :=
  s.session = .returned ∨ s.session = .failed ∨ s.session = .looping .removed ∨
    s.session = .looping .ended

/-! ### Calls that never return -/

theorem client_of_sessionLoop {k : Session} {outcome : Option (Option (List UInt8))}
    (hs : s.sessionLoop capacity outcome k = some s') : s'.client = s.client := by
  cases k <;> simp only [sessionLoop] at hs <;> grind

theorem client_of_session {outcome : Option (Option (List UInt8))}
    (hs : s.step capacity (.session outcome) = some s') : s'.client = s.client := by
  simp only [step] at hs
  split at hs
  case h_1 => exact client_of_sessionLoop hs
  case h_2 => exact (moves_of_sessionStep hs).client_eq

theorem session_of_clientLoop {l : Loop} (hs : s.clientLoop l = some s') :
    s'.session = s.session := by
  cases l with
  | reading =>
    obtain ⟨r, _, heq⟩ := Option.bind_eq_some_iff.mp hs
    cases heq
    rfl
  | probing | unlinking | exiting | removed | interrupted | clearing | left =>
    simp only [clientLoop] at hs
    grind

theorem session_of_interrupt {l : Loop} (hs : s.interrupt l = some s') :
    s'.session = s.session := by
  cases l <;> cases hs <;> rfl

theorem session_of_client (hs : s.step capacity (.client auxBuffer) = some s') :
    s'.session = s.session := by
  simp only [step] at hs
  split at hs
  case h_1 => exact session_of_clientLoop hs
  case h_2 => exact (moves_of_clientStep hs).session_eq

theorem Inv.gone_of_client (h : Inv s data) (hc : s.client = .rewaiting 2) :
    s.session.Gone .reader Session.held 2 := by
  obtain heq | hgone := h.shaken.inStep.clientRewaits 2 hc
  · cases heq
  · exact hgone

theorem Inv.gone_of_session (h : Inv s data) (hk : s.session = .rewaiting 2) :
    s.client.Gone .reader Loop.held 2 := by
  obtain heq | hgone := h.shaken.inStep.sessionRewaits 2 hk
  · cases heq
  · exact hgone

/-- A client that has seen both opens of its session waits forever. -/
theorem client_waits (h : Inv s data) (hc : s.client = .rewaiting 2)
    (hs : Reaches (step capacity) anyStep s s') : s'.client = .rewaiting 2 := by
  have hinv : (∃ data, Inv s' data) ∧ s'.client = .rewaiting 2 := by
    apply hs.invariant ⟨⟨data, h⟩, hc⟩
    rintro u a v ⟨⟨data, h⟩, hc⟩ _ ha
    refine ⟨h.step ha, ?_⟩
    cases a with
    | client auxBuffer =>
      have hopens := h.opens_writer
      rw [(h.gone_of_client hc).looping] at hopens
      rw [step_client (by rw [hc]; exact id)] at ha
      simp only [Connection.clientStep, hc] at ha
      exact absurd hopens (Option.ite_none_right_eq_some.mp ha).1
    | interrupt =>
      simp only [step, hc] at ha
      cases ha
    | session outcome => rw [client_of_session ha, hc]
  exact hinv.2

/-- A session that has seen both opens of its client waits forever. -/
theorem session_waits (h : Inv s data) (hk : s.session = .rewaiting 2)
    (hs : Reaches (step capacity) anyStep s s') : s'.session = .rewaiting 2 := by
  have hinv : (∃ data, Inv s' data) ∧ s'.session = .rewaiting 2 := by
    apply hs.invariant ⟨⟨data, h⟩, hk⟩
    rintro u a v ⟨⟨data, h⟩, hk⟩ _ ha
    refine ⟨h.step ha, ?_⟩
    cases a with
    | client auxBuffer => rw [session_of_client ha, hk]
    | interrupt =>
      simp only [step] at ha
      split at ha
      case h_1 => rw [session_of_interrupt ha, hk]
      case h_2 => cases ha
    | session outcome =>
      have hopens := h.opens_reader
      rw [(h.gone_of_session hk).looping] at hopens
      rw [step_session (by rw [hk]; exact id)] at ha
      simp only [Connection.sessionStep, hk] at ha
      exact absurd hopens (Option.ite_none_right_eq_some.mp ha).1
  exact hinv.2

/-- A session that has closed the pipe behind its loop. -/
theorem Inv.session_of_gone (h : Inv s data) (hc : s.client ≠ .looping .left)
    (hgone : s.session.Gone .reader Session.held 2) :
    s.session = .looping .unlinking ∨ s.session = .looping .removed ∨ s.session = .killed := by
  by_cases hkilled : s.session = .killed
  · exact Or.inr (Or.inr hkilled)
  · obtain ⟨k, hk⟩ := SessionPc.looping_of_rank hgone.looping hkilled
    have hclosed := hgone.closed
    rw [hk] at hclosed
    cases k with
    | unlinking => exact Or.inl hk
    | removed => exact Or.inr (Or.inl hk)
    | ended => exact absurd (h.told.ended (Or.inr (Or.inr (Or.inl hk)))) hc
    | polling | probing | sending | closing | clearing | leaving =>
      exact absurd hclosed Nat.one_ne_zero

/-- A client that has closed the pipe behind its loop. -/
theorem Inv.client_of_gone (h : Inv s data) (hk : s.session ≠ .looping .removed)
    (hgone : s.client.Gone .reader Loop.held 2) :
    s.client = .looping .clearing ∨ s.client = .looping .left := by
  obtain ⟨l, hl⟩ := ClientPc.looping_of_rank hgone.looping
  have hclosed := hgone.closed
  rw [hl] at hclosed
  cases l with
  | clearing => exact Or.inl hl
  | left => exact Or.inr hl
  | removed => exact absurd (h.told.removed (Or.inr (Or.inr (Or.inl hl)))) hk
  | reading | probing | unlinking | exiting | interrupted => exact absurd hclosed Nat.one_ne_zero

/-- A client that begins to wait in its second `open` has just made this call. -/
theorem reopening_of_rewaiting {n : Nat} (hm : ClientMoves .reader auxBuffer Loop.reading s s')
    (hc : s'.client = .rewaiting n) : s.client = .reopening := by
  cases hm with
  | rewaits h _ _ => exact h
  | _ => cases hc

theorem reopening_of_rewaiting_session {n : Nat}
    (hm : SessionMoves .reader Session.polling s s') (hk : s'.session = .rewaiting n) :
    s.session = .reopening := by
  cases hm with
  | rewaits h _ _ => exact h
  | _ => cases hk

/-- The second `open` of the client is late just if the session has closed the pipe behind its loop
and the path is still there. -/
theorem Inv.rewaiting_iff_of_client (h : Inv s data) (hc : s.client = .reopening)
    (hm : ClientMoves .reader auxBuffer Loop.reading s s') :
    s'.client = .rewaiting 2 ↔ s.session = .looping .unlinking ∨ s.session = .killed := by
  have hopens := h.opens_writer
  have hpresent := h.told.present
  have hmissing := h.told.missing
  have hends := h.shaken.inStep.shared.ends .writer
  cases hm with
  | reopens _ hp ho =>
    refine iff_of_false nofun ?_
    have hwriter : 0 < s.pipe.ends .writer := ho
    rw [hends, hc] at hwriter
    rintro (hk | hk) <;> rw [hk] at hwriter <;> exact absurd hwriter (Nat.lt_irrefl 0)
  | rewaits _ hp ho =>
    constructor
    · intro heq
      have hseen : s.pipe.opens .writer = 2 := ClientPc.rewaiting.inj heq
      obtain hone | hgone := h.shaken.inStep.unopenedAgain hc ho
      · exact absurd (hone.symm.trans hseen) (by decide)
      · rw [show s.pipe.opens PipeEnd.reader.other = 2 from hseen] at hgone
        obtain hk | hk | hk := h.session_of_gone (by simp [hc]) hgone
        · exact Or.inl hk
        · exact absurd hk (hpresent hp).2.2
        · exact Or.inr hk
    · intro hk
      have hrank : s.session.rank = 7 := by obtain hk | hk := hk <;> rw [hk] <;> rfl
      rw [hrank] at hopens
      exact congrArg ClientPc.rewaiting hopens
  | fails _ hp =>
    refine iff_of_false nofun ?_
    obtain hc' | hc' | hk' := hmissing hp
    · rw [hc] at hc'
      cases hc'
    · rw [hc] at hc'
      cases hc'
    · rw [hk']
      rintro (hk | hk) <;> cases hk
  | opens hc' | waits hc' | aborts hc' | wakes _ hc' | reads hc' | closes _ hc' | accepted _ hc'
  | refused _ hc' | rewakes _ hc' =>
    rw [hc] at hc'
    cases hc'

/-- The second `open` of the session is late just if the client has closed the pipe behind an
interrupt and the path is still there. -/
theorem Inv.rewaiting_iff_of_session (h : Inv s data) (hk : s.session = .reopening)
    (hm : SessionMoves .reader Session.polling s s') :
    s'.session = .rewaiting 2 ↔ s.client = .looping .clearing := by
  have hopens := h.opens_reader
  have hpresent := h.told.present
  have hmissing := h.told.missing
  have hends := h.shaken.inStep.shared.ends .reader
  cases hm with
  | reopens _ hp ho =>
    refine iff_of_false nofun ?_
    rw [hends, hk] at ho
    intro hc
    rw [hc] at ho
    exact absurd ho (Nat.lt_irrefl 0)
  | rewaits _ hp ho =>
    constructor
    · intro heq
      have hseen : s.pipe.opens .reader = 2 := SessionPc.rewaiting.inj heq
      obtain hone | hgone := h.shaken.inStep.unreadAgain hk ho
      · exact absurd (hone.symm.trans hseen) (by decide)
      · rw [hseen] at hgone
        obtain hc | hc := h.client_of_gone (by simp [hk]) hgone
        · exact hc
        · exact absurd hc (hpresent hp).2.1
    · intro hc
      rw [hc] at hopens
      exact congrArg SessionPc.rewaiting hopens
  | fails _ hp =>
    refine iff_of_false nofun ?_
    intro hc
    obtain hc' | hc' | hk' := hmissing hp
    · rw [hc] at hc'
      cases hc'
    · rw [hc] at hc'
      cases hc'
    · rw [hk] at hk'
      cases hk'
  | opens hk' | waits hk' | aborts hk' | wakes _ hk' | killed hk' | writes hk' | closes hk'
  | returns hk' | rewakes _ hk' =>
    rw [hk] at hk'
    cases hk'

/-- A second call of `open` that comes too late: the other side has been in its loop, and has closed
the pipe there. If it finds the path it waits, and it does not return in any run. -/
theorem waits_of_reaches {accepted : Bool}
    (hs : Reaches (step capacity) anyStep (.initial accepted) s) :
    (∀ b s', s.client = .reopening → s.step capacity (.client b) = some s' →
      (s'.client = .rewaiting 2 ↔ s.session = .looping .unlinking ∨ s.session = .killed)) ∧
    (∀ outcome s', s.session = .reopening → s.step capacity (.session outcome) = some s' →
      (s'.session = .rewaiting 2 ↔ s.client = .looping .clearing)) ∧
    (s.client = .rewaiting 2 → (s.session = .looping .unlinking ∨ s.session = .looping .removed ∨
      s.session = .killed) ∧
        ∀ s', Reaches (step capacity) anyStep s s' → s'.client = .rewaiting 2) ∧
    (s.session = .rewaiting 2 → (s.client = .looping .clearing ∨ s.client = .looping .left) ∧
      ∀ s', Reaches (step capacity) anyStep s s' → s'.session = .rewaiting 2) := by
  obtain ⟨data, h⟩ := inv_of_reaches hs
  refine ⟨fun b s' hc ha => ?_, fun outcome s' hk ha => ?_,
    fun hc => ⟨?_, fun s' => client_waits h hc⟩, fun hk => ⟨?_, fun s' => session_waits h hk⟩⟩
  · rw [step_client (by rw [hc]; exact id)] at ha
    exact h.rewaiting_iff_of_client hc (moves_of_clientStep ha)
  · rw [step_session (by rw [hk]; exact id)] at ha
    exact h.rewaiting_iff_of_session hk (moves_of_sessionStep ha)
  · exact h.session_of_gone (by simp [hc]) (h.gone_of_client hc)
  · exact h.client_of_gone (by simp [hk]) (h.gone_of_session hk)

/-- The box of a subscriber is removed before it has opened its pipe again. -/
theorem waits_of_late : ∃ s : SubscriberPipe, Reaches (step 65536) anyStep (.initial true) s ∧
    s.client = .rewaiting 2 ∧
      ∀ s', Reaches (step 65536) anyStep s s' → s'.client = .rewaiting 2 := by
  let client := Label.client [0, 0, 0]
  have hrun : runLabels (step 65536) (.initial true) (openingCalls ++
      [client, client, .session none, .session none, client, client]) = some _ := rfl
  have hs := reaches_of_runLabels hrun
  exact ⟨_, hs, rfl, ((waits_of_reaches hs).2.2.1 rfl).2⟩

/-! ### Runs without a killed broker -/

/-- The broker has been killed, or the session cannot but write to a pipe that the client has closed
or will not read. -/
def Doomed (capacity : Nat) (s : SubscriberPipe) : Prop :=
  s.session = .killed ∨ ∃ d, s.session = .looping (.sending d) ∧
    (s.client = .looping .clearing ∨ s.client = .looping .left ∨
      s.client = .looping .interrupted ∧ capacity < s.pipe.bytes.length + d.length)

theorem doomed_of_step {a : Label} (h : Inv s data) (hd : Doomed capacity s)
    (hs : s.step capacity a = some s') : Doomed capacity s' := by
  cases a with
  | client auxBuffer =>
    have hsession := session_of_client hs
    obtain hk | ⟨d, hk, hc | hc | ⟨hc, _⟩⟩ := hd
    · exact Or.inl (hsession.trans hk)
    · simp only [step, hc, clientLoop] at hs
      cases hs
      exact Or.inr ⟨d, hk, Or.inr (Or.inl rfl)⟩
    · simp only [step, hc, clientLoop] at hs
      cases hs
    · simp only [step, hc, clientLoop] at hs
      cases hs
      exact Or.inr ⟨d, hk, Or.inl rfl⟩
  | interrupt =>
    simp only [step] at hs
    split at hs
    case h_1 l hl =>
      obtain hk | ⟨d, hk, hc | hc | ⟨hc, _⟩⟩ := hd
      · exact Or.inl ((session_of_interrupt hs).trans hk)
      all_goals
        obtain rfl := ClientPc.looping.inj (hl.symm.trans hc)
        cases hs
    case h_2 => cases hs
  | session outcome =>
    obtain hk | ⟨d, hk, hc⟩ := hd
    · simp only [step, hk, Connection.sessionStep] at hs
      cases hs
    · simp only [step, hk, sessionLoop] at hs
      split at hs
      case h_1 =>
        cases hs
        exact Or.inl rfl
      case h_2 => cases hs
      case h_3 pipe hw =>
        -- there is a reader, and room for the message
        obtain ⟨hopen, hroom, _⟩ := NamedPipe.write_eq_written.mp hw
        have haway : ¬ s.Away := by
          rw [← h.closed_iff hk (by simp [hk])]
          omega
        obtain hc | hc | ⟨_, hfull⟩ := hc
        · exact absurd (Or.inr (Or.inr (Or.inl hc))) haway
        · exact absurd (Or.inr (Or.inr (Or.inr hc))) haway
        · omega

/-- How far the client is from its end, if it is interrupted. -/
def Loop.remaining : Loop → Nat
  | probing => 5
  | reading => 4
  | unlinking | interrupted => 2
  | exiting | clearing => 1
  | removed | left => 0

/-- How far the session is from its end, if its box is removed. What it writes is still to be
read. -/
def Session.remaining : Session → Nat
  | probing _ => 5 + 2 * (pSMessageSize + 3)
  | sending _ => 4 + 2 * (pSMessageSize + 3)
  | polling => 3
  | closing | clearing => 2
  | unlinking | leaving => 1
  | removed | ended => 0

def clientRemaining : ClientPc Loop → Nat
  | .looping l => l.remaining
  | pc => 13 - pc.rank

def sessionRemaining : SessionPc Session → Nat
  | .looping k => k.remaining
  | pc => 3 + 8 * (7 - pc.rank)

def remaining (s : SubscriberPipe) : Nat :=
  clientRemaining s.client + sessionRemaining s.session + 2 * s.pipe.bytes.length

theorem clientRemaining_of_lt {pc : ClientPc Loop} (h : pc.rank < 8) :
    clientRemaining pc = 13 - pc.rank := by
  cases pc <;> simp_all [clientRemaining, ClientPc.rank]

theorem sessionRemaining_of_lt {pc : SessionPc Session} (h : pc.rank < 7) :
    sessionRemaining pc = 3 + 8 * (7 - pc.rank) := by
  cases pc <;> simp_all [sessionRemaining, SessionPc.rank]

theorem Inv.remaining_lt_of_clientMoves (h : Inv s data)
    (hm : ClientMoves .reader auxBuffer Loop.reading s s') : remaining s' < remaining s := by
  obtain ⟨hlt, hlow⟩ := hm.rank_lt h.shaken.found h.shaken.inStep
  have hbytes := hm.length_bytes_le
  have hle : s'.client.rank ≤ 8 := ClientPc.rank_le
  have hclient : clientRemaining s'.client < clientRemaining s.client := by
    rw [clientRemaining_of_lt hlow]
    by_cases hloops : s'.client.rank = 8
    · obtain ⟨l, hl⟩ := ClientPc.looping_of_rank hloops
      rw [hl, hm.frame.2.2.2 l hl, clientRemaining, Loop.remaining]
      omega
    · rw [clientRemaining_of_lt (by omega)]
      omega
  simp only [remaining, hm.session_eq]
  omega

theorem Inv.remaining_lt_of_sessionMoves (h : Inv s data)
    (hm : SessionMoves .reader Session.polling s s') : remaining s' < remaining s := by
  obtain ⟨hlt, hlow⟩ := hm.rank_lt h.shaken.found h.shaken.inStep
  have hbytes := hm.length_bytes_le
  have hle : s'.session.rank ≤ 7 := SessionPc.rank_le
  have hsession : sessionRemaining s'.session + 8 ≤ sessionRemaining s.session := by
    rw [sessionRemaining_of_lt hlow]
    by_cases hloops : s'.session.rank = 7
    · obtain ⟨k, hk⟩ := SessionPc.looping_of_rank hloops (h.shaken.inStep.not_killed hm)
      rw [hk, hm.frame.2.2.2 k hk, sessionRemaining, Session.remaining]
      omega
    · rw [sessionRemaining_of_lt (by omega)]
      omega
  simp only [remaining, hm.client_eq]
  omega

/-- A side waits in a second `open` that came too late. -/
def Stuck (s : SubscriberPipe) : Prop := s.client = .rewaiting 2 ∨ s.session = .rewaiting 2

theorem not_stuck_of_clientLoop {l : Loop} (h : ¬ Stuck s) (hs : s.clientLoop l = some s') :
    ¬ Stuck s' := by
  have hsession := session_of_clientLoop hs
  have hclient : ∃ l', s'.client = .looping l' := by
    cases l with
    | reading =>
      obtain ⟨r, _, heq⟩ := Option.bind_eq_some_iff.mp hs
      cases heq
      exact ⟨_, rfl⟩
    | probing | unlinking | exiting | removed | interrupted | clearing | left =>
      simp only [clientLoop] at hs
      grind
  obtain ⟨l', hl'⟩ := hclient
  rintro (hc | hk)
  · rw [hl'] at hc
    cases hc
  · exact h (Or.inr (hsession ▸ hk))

theorem not_stuck_of_sessionLoop {k : Session} {outcome : Option (Option (List UInt8))}
    (h : ¬ Stuck s) (hs : s.sessionLoop capacity outcome k = some s') : ¬ Stuck s' := by
  have hclient := client_of_sessionLoop hs
  have hsession : s'.session ≠ .rewaiting 2 := by
    cases k <;> simp only [sessionLoop] at hs <;> grind
  rintro (hc | hk)
  · exact h (Or.inl (hclient ▸ hc))
  · exact hsession hk

/-- One of the two sides has a step nearer to its end that does not doom the broker, and is not a
second `open` that comes too late. -/
def Advances (capacity : Nat) (s : SubscriberPipe) : Prop :=
  ∃ a s', s.step capacity a = some s' ∧ (¬ Doomed capacity s' ∧ ¬ Stuck s') ∧
    remaining s' < remaining s

theorem Advances.client {l : Loop} (hst : ¬ Stuck s) (hl : s.client = .looping l)
    (hs : s.clientLoop l = some s') (hd : ¬ Doomed capacity s')
    (hlt : remaining s' < remaining s) : Advances capacity s := by
  refine ⟨.client [], s', ?_, ⟨hd, not_stuck_of_clientLoop hst hs⟩, hlt⟩
  simp only [SubscriberPipe.step, hl]
  exact hs

theorem Advances.session {k : Session} (hst : ¬ Stuck s)
    (outcome : Option (Option (List UInt8))) (hk : s.session = .looping k)
    (hs : s.sessionLoop capacity outcome k = some s') (hd : ¬ Doomed capacity s')
    (hlt : remaining s' < remaining s) : Advances capacity s := by
  refine ⟨.session outcome, s', ?_, ⟨hd, not_stuck_of_sessionLoop hst hs⟩, hlt⟩
  simp only [SubscriberPipe.step, hk]
  exact hs

/-- A client that is leaving can go on when nothing is to be written. -/
theorem Advances.leaving (hd : ¬ Doomed capacity s) (hst : ¬ Stuck s)
    (hsending : ∀ d, s.session ≠ .looping (.sending d))
    (hc : s.client = .looping .interrupted ∨ s.client = .looping .clearing) :
    Advances capacity s := by
  have hkilled : s.session ≠ .killed := fun hk => hd (Or.inl hk)
  obtain hc | hc := hc
  · refine .client hst hc rfl (by simp [Doomed, hkilled, hsending]) ?_
    have := s.pipe.length_closeEnd_bytes_le .reader
    simp only [remaining, hc, clientRemaining, Loop.remaining]
    omega
  · refine .client hst hc rfl (by simp [Doomed, hkilled, hsending]) ?_
    simp [remaining, hc, clientRemaining, Loop.remaining]

namespace Inv

/-- A session that is about to remove the path does so before its client looks for it. -/
theorem advances_clientStep (h : Inv s data) (hd : ¬ Doomed capacity s) (hst : ¬ Stuck s)
    (hsession : s.session ≠ .looping .unlinking)
    (hs : ∃ s', Connection.clientStep .reader [] Loop.reading s = some s') :
    Advances capacity s := by
  obtain ⟨s', hs⟩ := hs
  have hm := moves_of_clientStep hs
  refine ⟨.client [], s', ?_, ⟨?_, ?_⟩, h.remaining_lt_of_clientMoves hm⟩
  · rw [← hs]
    exact step_client hm.not_settled
  · rintro (hk | ⟨d, _, hc | hc | ⟨hc, _⟩⟩)
    · rw [hm.session_eq] at hk
      exact hd (Or.inl hk)
    all_goals cases hm.frame.2.2.2 _ hc
  · rintro (hc | hk)
    · obtain hk | hk := (h.rewaiting_iff_of_client (reopening_of_rewaiting hm hc) hm).mp hc
      · exact hsession hk
      · exact hd (Or.inl hk)
    · exact hst (Or.inr (hm.session_eq ▸ hk))

/-- A client that is about to remove the path does so before its session looks for it. -/
theorem advances_sessionStep (h : Inv s data) (hst : ¬ Stuck s)
    (hclient : s.client ≠ .looping .clearing)
    (hs : ∃ s', Connection.sessionStep .reader capacity Session.polling s = some s') :
    Advances capacity s := by
  obtain ⟨s', hs⟩ := hs
  have hm := moves_of_sessionStep hs
  refine ⟨.session none, s', ?_, ⟨?_, ?_⟩, h.remaining_lt_of_sessionMoves hm⟩
  · rw [← hs]
    exact step_session hm.not_settled
  · rintro (hk | ⟨d, hk, _⟩)
    · exact h.shaken.inStep.not_killed hm hk
    · cases hm.frame.2.2.2 _ hk
  · rintro (hc | hk)
    · exact hst (Or.inl (hm.client_eq ▸ hc))
    · exact hclient ((h.rewaiting_iff_of_session (reopening_of_rewaiting_session hm hk) hm).mp hk)

/-- A client that the session waits for can go on. -/
theorem advances_of_unsettled (h : Inv s data) (hcapacity : 3 ≤ capacity)
    (hd : ¬ Doomed capacity s) (hst : ¬ Stuck s) {d : List UInt8}
    (hk : s.session = .looping (.sending d)) (hc : ¬ s.client.Settled) : Advances capacity s := by
  have hp : s.path ≠ .probe := by
    intro hp
    obtain ⟨hk', _⟩ | ⟨_, hk'⟩ := h.told.probe hp <;> rw [hk] at hk' <;> cases hk'
  obtain hstep | ⟨s', hstep⟩ | ⟨n, _, hgone⟩ := h.shaken.clientProgress hcapacity hp hc
  · exact h.advances_clientStep hd hst (by simp [hk]) hstep
  · have hmoves : SessionMoves .reader Session.polling s s' := moves_of_sessionStep hstep
    have hsettled := hmoves.not_settled
    rw [hk] at hsettled
    exact absurd trivial hsettled
  · have hclosed := hgone.closed
    rw [hk] at hclosed
    exact absurd hclosed Nat.one_ne_zero

/-- A message that is to be written gets room, or a reader, unless the client is leaving. -/
theorem advances_of_sending (h : Inv s data) (hcapacity : pSMessageSize + 3 ≤ capacity)
    (hd : ¬ Doomed capacity s) (hst : ¬ Stuck s) {d : List UInt8}
    (hk : s.session = .looping (.sending d)) : Advances capacity s := by
  have hcap : 3 ≤ capacity := by omega
  have hlen := h.told.message d (Or.inr hk)
  have hremoved := h.told.removed
  have hother : s.session ≠ .looping .removed := by simp [hk]
  cases hw : s.pipe.write capacity d with
  | written pipe =>
    obtain ⟨_, _, rfl⟩ := NamedPipe.write_eq_written.mp hw
    have hstep : s.sessionLoop capacity none (.sending d) = some
        { s with
          pipe := { s.pipe with bytes := s.pipe.bytes ++ d }
          session := .looping .polling, sent := s.sent ++ d } := by
      simp only [SubscriberPipe.sessionLoop, hw]
    refine .session hst none hk hstep (by simp [Doomed]) ?_
    simp only [remaining, hk, sessionRemaining, Session.remaining, List.length_append, hlen]
    omega
  | killed =>
    obtain ⟨b, hc⟩ | hc | hc | hc := (h.closed_iff hk hother).mp (NamedPipe.write_eq_killed.mp hw)
    · exact h.advances_of_unsettled hcap hd hst hk (by rw [hc]; exact id)
    · exact h.advances_of_unsettled hcap hd hst hk (by rw [hc]; exact id)
    · exact absurd (Or.inr ⟨d, hk, Or.inl hc⟩) hd
    · exact absurd (Or.inr ⟨d, hk, Or.inr (Or.inl hc)⟩) hd
  | blocked =>
    obtain ⟨_, hfull⟩ := NamedPipe.write_eq_blocked hw
    by_cases hc : s.client.Settled
    · cases hl : s.client with
      | looping l =>
        cases l with
        | reading =>
          -- the pipe is not empty, for a message fits into it
          have hbytes : s.pipe.bytes ≠ [] := by
            intro hbytes
            rw [hbytes, List.length_nil] at hfull
            omega
          have hpos : 0 < s.pipe.bytes.length := List.length_pos_iff.mpr hbytes
          have hread := NamedPipe.read_eq_some.mpr
            ⟨fun heq => absurd heq hbytes, (rfl : _ = (s.pipe.bytes.take (pSMessageSize + 3), _))⟩
          refine .client hst hl (Option.bind_eq_some_iff.mpr ⟨_, hread, rfl⟩) ?_ ?_
          · simp [Doomed, hk]
          · simp only [remaining, hl, clientRemaining, Loop.remaining, List.length_drop]
            omega
        | probing =>
          by_cases hp : s.path = .missing
          · refine .client hst hl (if_pos hp) (by simp [Doomed, hk]) ?_
            simp [remaining, hl, clientRemaining, Loop.remaining]
          · refine .client hst hl (if_neg hp) (by simp [Doomed, hk]) ?_
            simp [remaining, hl, clientRemaining, Loop.remaining]
        | unlinking => exact absurd (hremoved (Or.inl hl)) hother
        | exiting => exact absurd (hremoved (Or.inr (Or.inl hl))) hother
        | removed => exact absurd (hremoved (Or.inr (Or.inr (Or.inl hl)))) hother
        | interrupted => exact absurd (Or.inr ⟨d, hk, Or.inr (Or.inr ⟨hl, hfull⟩)⟩) hd
        | clearing => exact absurd (Or.inr ⟨d, hk, Or.inl hl⟩) hd
        | left => exact absurd (Or.inr ⟨d, hk, Or.inr (Or.inl hl)⟩) hd
      | refused => exact absurd hl (h.not_refused hk)
      | failed => exact absurd (hremoved (Or.inr (Or.inr (Or.inr hl)))) hother
      | aborted => exact absurd hl h.shaken.found.client
      | opening | waiting | reading | closing | comparing | reopening | rewaiting =>
        rw [hl] at hc
        exact absurd hc id
    · exact h.advances_of_unsettled hcap hd hst hk hc

/-- A session that is not about to write can go on, or waits for its client, which can. -/
theorem advances_of_session (h : Inv s data) (hcapacity : 3 ≤ capacity) (hd : ¬ Doomed capacity s)
    (hst : ¬ Stuck s) (hsending : ∀ d, s.session ≠ .looping (.sending d))
    (hinterrupted : s.client ≠ .looping .interrupted) (hclearing : s.client ≠ .looping .clearing)
    (hends : ¬ SessionEnds s) : Advances capacity s := by
  cases hk : s.session with
  | looping k =>
    cases k with
    | polling =>
      refine .session hst none hk rfl (by simp [Doomed]) ?_
      simp [remaining, hk, sessionRemaining, Session.remaining]
    | probing message =>
      by_cases hp : s.path = .missing
      · refine .session hst none hk (if_pos hp) (by simp [Doomed]) ?_
        simp only [remaining, hk, sessionRemaining, Session.remaining]
        omega
      · -- a client that has left has removed the path
        have hleft : s.client ≠ .looping .left := by
          intro hc
          cases hp' : s.path with
          | clientPipe => exact (h.told.present hp').2.1 hc
          | probe => obtain ⟨hk', _⟩ | ⟨_, hk'⟩ := h.told.probe hp' <;> rw [hk] at hk' <;> cases hk'
          | missing => exact hp hp'
        refine .session hst none hk (if_neg hp) (by simp [Doomed, hinterrupted, hclearing, hleft]) ?_
        simp only [remaining, hk, sessionRemaining]
        cases message <;> simp only [Option.elim, Session.remaining] <;> omega
    | sending d => exact absurd hk (hsending d)
    | closing | leaving =>
      refine .session hst none hk rfl (by simp [Doomed]) ?_
      have := s.pipe.length_closeEnd_bytes_le .writer
      simp only [remaining, hk, sessionRemaining, Session.remaining]
      omega
    | unlinking | clearing =>
      refine .session hst none hk rfl (by simp [Doomed]) ?_
      simp [remaining, hk, sessionRemaining, Session.remaining]
    | removed => exact absurd (Or.inr (Or.inr (Or.inl hk))) hends
    | ended => exact absurd (Or.inr (Or.inr (Or.inr hk))) hends
  | returned => exact absurd (Or.inl hk) hends
  | failed => exact absurd (Or.inr (Or.inl hk)) hends
  | killed => exact absurd (Or.inl hk) hd
  | aborted => exact absurd hk h.shaken.found.session
  | opening | waiting | writing | closing | reopening | rewaiting =>
    have hsettled : ¬ s.session.Settled := by
      rw [hk]
      exact id
    have hp : s.path ≠ .probe := by
      intro hp
      obtain ⟨hk', _⟩ | ⟨_, hk'⟩ := h.told.probe hp <;> rw [hk] at hk' <;> cases hk'
    obtain hstep | hstep | ⟨n, hn, hgone⟩ := h.shaken.sessionProgress hcapacity hp hsettled
    · exact h.advances_sessionStep hst hclearing hstep
    · exact h.advances_clientStep hd hst (by simp [hk]) hstep
    · obtain rfl := hgone.seen
      exact absurd (Or.inr hn) hst

/-- A client whose session has ended can go on, if only by an interrupt. -/
theorem advances_of_client (h : Inv s data) (hcapacity : 3 ≤ capacity) (hd : ¬ Doomed capacity s)
    (hst : ¬ Stuck s) (hsending : ∀ d, s.session ≠ .looping (.sending d)) (hsession : SessionEnds s)
    (hends : ¬ ClientEnds s) : Advances capacity s := by
  have hkilled : s.session ≠ .killed := fun hk => hd (Or.inl hk)
  cases hl : s.client with
  | looping l =>
    cases l with
    | reading | probing =>
      refine ⟨.interrupt, { s with client := .looping .interrupted }, ?_, ⟨?_, ?_⟩, ?_⟩
      · simp only [SubscriberPipe.step, hl]
        rfl
      · simp [Doomed, hkilled, hsending]
      · rintro (hc | hk)
        · cases hc
        · exact hst (Or.inr hk)
      · simp [remaining, hl, clientRemaining, Loop.remaining]
    | unlinking =>
      refine .client hst hl rfl (by simp [Doomed, hkilled, hsending]) ?_
      simp [remaining, hl, clientRemaining, Loop.remaining]
    | exiting =>
      refine .client hst hl rfl (by simp [Doomed, hkilled, hsending]) ?_
      have := s.pipe.length_closeEnd_bytes_le .reader
      simp only [remaining, hl, clientRemaining, Loop.remaining]
      omega
    | interrupted => exact Advances.leaving hd hst hsending (Or.inl hl)
    | clearing => exact Advances.leaving hd hst hsending (Or.inr hl)
    | removed => exact absurd (Or.inr (Or.inr (Or.inl hl))) hends
    | left => exact absurd (Or.inr (Or.inr (Or.inr hl))) hends
  | refused => exact absurd (Or.inl hl) hends
  | failed => exact absurd (Or.inr (Or.inl hl)) hends
  | aborted => exact absurd hl h.shaken.found.client
  | opening | waiting | reading | closing | comparing | reopening | rewaiting =>
    have hsettled : ¬ s.client.Settled := by
      rw [hl]
      exact id
    have hp : s.path ≠ .probe := by
      intro hp
      obtain ⟨_, hc | hc | hc⟩ | ⟨hc, _⟩ := h.told.probe hp <;> rw [hl] at hc <;> cases hc
    obtain hstep | hstep | ⟨n, hn, hgone⟩ := h.shaken.clientProgress hcapacity hp hsettled
    · refine h.advances_clientStep hd hst ?_ hstep
      obtain hk | hk | hk | hk := hsession <;> simp [hk]
    · exact h.advances_sessionStep hst (by simp [hl]) hstep
    · obtain rfl := hgone.seen
      exact absurd (Or.inl hn) hst

/-- A side that has not ended can go on, without dooming the broker. -/
theorem advances (h : Inv s data) (hcapacity : pSMessageSize + 3 ≤ capacity)
    (hd : ¬ Doomed capacity s) (hst : ¬ Stuck s) (hnot : ¬ (ClientEnds s ∧ SessionEnds s)) :
    Advances capacity s := by
  have hcap : 3 ≤ capacity := by omega
  by_cases hsending : ∃ d, s.session = .looping (.sending d)
  · obtain ⟨d, hk⟩ := hsending
    exact h.advances_of_sending hcapacity hd hst hk
  · have hsending := not_exists.mp hsending
    by_cases hc : s.client = .looping .interrupted ∨ s.client = .looping .clearing
    · exact Advances.leaving hd hst hsending hc
    · obtain ⟨hinterrupted, hclearing⟩ := not_or.mp hc
      by_cases hends : SessionEnds s
      · exact h.advances_of_client hcap hd hst hsending hends fun hc' => hnot ⟨hc', hends⟩
      · exact h.advances_of_session hcap hd hst hsending hinterrupted hclearing hends

/-- The path is removed in the end. -/
theorem missing_of_ends (h : Inv s data) (hc : ClientEnds s) (hk : SessionEnds s) :
    s.path = .missing := by
  have hremoved : s.client = .refused ∨ s.client = .looping .left ∨
      s.session = .looping .removed := by
    obtain hc | hc | hc | hc := hc
    · exact Or.inl hc
    · exact Or.inr (Or.inr (h.told.removed (Or.inr (Or.inr (Or.inr hc)))))
    · exact Or.inr (Or.inr (h.told.removed (Or.inr (Or.inr (Or.inl hc)))))
    · exact Or.inr (Or.inl hc)
  cases hp : s.path with
  | clientPipe =>
    obtain ⟨hrefused, hleft, hnot⟩ := h.told.present hp
    obtain h' | h' | h' := hremoved
    · exact absurd h' hrefused
    · exact absurd h' hleft
    · exact absurd h' hnot
  | probe =>
    obtain ⟨_, hc'⟩ | ⟨_, hk'⟩ := h.told.probe hp
    · obtain hc | hc | hc | hc := hc <;> rw [hc] at hc' <;> simp at hc'
    · obtain hk | hk | hk | hk := hk <;> rw [hk] at hk' <;> cases hk'
  | missing => rfl

end Inv

/-- **The broker survives a subscriber** in some continuation of a run in which both sides return,
with the path removed, just if it is not doomed and no side waits forever: the session is not about
to write a message to a client that was interrupted, and that has closed the pipe or finds it full,
and no second `open` has come too late. -/
theorem survives_iff {accepted : Bool} (hcapacity : pSMessageSize + 3 ≤ capacity)
    (hs : Reaches (step capacity) anyStep (.initial accepted) s) :
    (∃ s', Reaches (step capacity) anyStep s s' ∧ ClientEnds s' ∧ SessionEnds s' ∧
      s'.path = .missing) ↔ ¬ Doomed capacity s ∧ ¬ Stuck s := by
  obtain ⟨data, h⟩ := inv_of_reaches hs
  constructor
  · rintro ⟨s', hreach, hc, hk, _⟩
    refine ⟨fun hd => ?_, fun hst => ?_⟩
    · have hinv : (∃ data, Inv s' data) ∧ Doomed capacity s' := by
        apply hreach.invariant ⟨⟨data, h⟩, hd⟩
        rintro u a v ⟨⟨data, h⟩, hd⟩ _ ha
        exact ⟨h.step ha, doomed_of_step h hd ha⟩
      obtain hkilled | ⟨d, hsending, _⟩ := hinv.2
      · obtain hk | hk | hk | hk := hk <;> rw [hkilled] at hk <;> cases hk
      · obtain hk | hk | hk | hk := hk <;> rw [hsending] at hk <;> cases hk
    · obtain hwaits | hwaits := hst
      · have hwaits' := client_waits h hwaits hreach
        obtain hc | hc | hc | hc := hc <;> rw [hwaits'] at hc <;> cases hc
      · have hwaits' := session_waits h hwaits hreach
        obtain hk | hk | hk | hk := hk <;> rw [hwaits'] at hk <;> cases hk
  · rintro ⟨hd, hst⟩
    have hends : ∃ s', Reaches (step capacity) anyStep s s' ∧
        ((∃ data, Inv s' data) ∧ ¬ Doomed capacity s' ∧ ¬ Stuck s') ∧ ClientEnds s' ∧
          SessionEnds s' := by
      apply Reaches.exists_of_variant remaining ?_
        (⟨⟨data, h⟩, hd, hst⟩ : (∃ data, Inv s data) ∧ ¬ Doomed capacity s ∧ ¬ Stuck s)
      rintro s ⟨⟨data, h⟩, hd, hst⟩
      by_cases hends : ClientEnds s ∧ SessionEnds s
      · exact Or.inl hends
      · obtain ⟨a, s', hs, hgoes, hlt⟩ := h.advances hcapacity hd hst hends
        exact Or.inr ⟨a, s', trivial, hs, ⟨h.step hs, hgoes⟩, hlt⟩
    obtain ⟨s', hreach, ⟨⟨data', h'⟩, _⟩, hc, hk⟩ := hends
    exact ⟨s', hreach, hc, hk, h'.missing_of_ends hc hk⟩

set_option maxRecDepth 8000 in
/-- A subscriber that is interrupted with a message in its pipe, when none is to be written. -/
theorem survives_of_interrupted : ∃ s s' : SubscriberPipe,
    Reaches (step 65536) anyStep (.initial true) s ∧ s.client = .looping .interrupted ∧
      s.pipe.bytes.length = pSMessageSize + 3 ∧ s.session = .looping .polling ∧
      Reaches (step 65536) anyStep s s' ∧ ClientEnds s' ∧ SessionEnds s' ∧
      s'.path = .missing := by
  let client := Label.client [0, 0, 0]
  let d := List.replicate 1027 (0 : UInt8)
  have hrun : runLabels (step 65536) (.initial true) (openingCalls ++
      [client, client, client, client, .session (some (some d)), .session none, .session none,
        .interrupt]) = some _ := rfl
  have hs := reaches_of_runLabels hrun
  obtain ⟨s', hreach, hends⟩ := (survives_iff (by decide) hs).mpr (by
    constructor
    · rintro (hk | ⟨d, hk, _⟩) <;> cases hk
    · rintro (h | h) <;> cases h)
  exact ⟨_, s', hs, rfl, rfl, rfl, hreach, hends⟩

end SubscriberPipe

end MessageBroker.Broker
