import MessageBroker.Broker.HandshakeOrder

/-!
# A client and its session

What holds of the pipe while a session is opened and in the loops behind it, and who can
go on when. The loops are given by the descriptors that each side has at its places.
-/

namespace MessageBroker.Broker

section

variable {γ σ : Type} {again : PipeEnd} {auxBuffer : List UInt8} {clientStart : γ}
  {sessionStart : σ} {ch : γ → Nat} {sh : σ → Nat} {s s' : Connection γ σ} {data : List UInt8}

namespace Connection

/-- The invariant of a client and its session, with the bytes in the pipe behind the answer. -/
structure Shaken (again : PipeEnd) (ch : γ → Nat) (sh : σ → Nat) (s : Connection γ σ)
    (data : List UInt8) : Prop where
  inStep : s.InStep again ch sh
  found : s.Found again
  answers : s.Answers again data

/-- What was in the pipe is there, or nobody has the pipe open. -/
def Kept (s : Connection γ σ) (data data' : List UInt8) : Prop :=
  data' = data ∨ data' = [] ∧ ∀ e, s.pipe.ends e = 0

theorem shaken_initial (accepted : Bool) :
    (initial accepted : Connection γ σ).Shaken again ch sh [] := by
  refine ⟨⟨.new, ?_, ?_, ?_, ?_, ?_, ?_, ?_, ?_, ?_⟩, ⟨Or.inl rfl, ?_, ?_, ?_, ?_⟩,
    ⟨rfl, fun h => absurd rfl h, ?_, ?_, ?_⟩⟩
  all_goals simp [initial, ClientPc.rank, SessionPc.rank]

namespace Shaken

variable {l l' : γ} {k k' : σ} {capacity : Nat}

theorem clientMoves (h : s.Shaken again ch sh data)
    (hm : ClientMoves again auxBuffer clientStart s s') (hstart : ch clientStart = 1) :
    ∃ data', s'.Shaken again ch sh data' ∧ s'.Kept data data' := by
  obtain ⟨data', ha, hkept⟩ := h.answers.clientMoves h.inStep hm
  exact ⟨data', ⟨h.inStep.clientMoves h.found h.answers hm hstart,
    h.found.clientMoves h.inStep hm, ha⟩, hkept⟩

theorem sessionMoves (h : s.Shaken again ch sh data)
    (hm : SessionMoves again sessionStart s s') (hstart : sh sessionStart = 1) :
    ∃ data', s'.Shaken again ch sh data' ∧ s'.Kept data data' := by
  obtain ⟨data', ha, hkept⟩ := h.answers.sessionMoves h.inStep hm
  exact ⟨data', ⟨h.inStep.sessionMoves h.found hm hstart,
    h.found.sessionMoves h.inStep h.answers hm, ha⟩, hkept⟩

/-- A turn of the loop of the client, which opens nothing; the path may change. -/
theorem clientLoops {data' : List UInt8} (h : s.Shaken again ch sh data)
    (hc : s.client = .looping l) (hc' : s'.client = .looping l') (hs : s'.session = s.session)
    (hacc : s'.accepted = s.accepted) (hle : ch l' ≤ ch l)
    (hshared : s'.pipe.Shared (s'.client.descriptors again ch) (s'.session.descriptors again sh))
    (hbytes : s'.pipe.bytes = data')
    (hflow : data' ≠ [] → again = .reader → s.session.rank = 7) :
    s'.Shaken again ch sh data' := by
  obtain ⟨⟨_, h₁, h₂, h₃, h₄, h₅, h₆, h₇, h₈, h₉⟩, ⟨_, _, h₁₀, _, h₁₁⟩, ⟨_, _, _, h₁₂, h₁₃⟩⟩ := h
  have hrank : s.client.rank = 8 := by rw [hc, ClientPc.rank]
  have hrank' : s'.client.rank = 8 := by rw [hc', ClientPc.rank]
  have hheld : (s.client.descriptors again ch).held again = 0 →
      (s'.client.descriptors again ch).held again = 0 := by
    rw [hc, hc']
    intro hzero
    simp only [ClientPc.descriptors, Function.update_self] at hzero ⊢
    omega
  have hgone : ∀ n, s.client.Gone again ch n → s'.client.Gone again ch n :=
    fun n hn => ⟨hn.reader, hn.seen, hrank', hheld hn.closed⟩
  have hanswer : s'.answer = [] := answer_of_read (by omega)
  rw [← hs, ← hacc] at *
  refine ⟨⟨hshared, ?_, ?_, ?_, ?_, ?_, ?_, h₇, ?_, ?_⟩, ⟨?_, ?_, h₁₀, ?_, ?_⟩,
    ⟨?_, ?_, ?_, ?_, h₁₃⟩⟩
  all_goals grind

/-- A turn of the loop of the session, which opens nothing and may kill the broker. -/
theorem sessionLoops {data' : List UInt8} (h : s.Shaken again ch sh data)
    (hc : s.session = .looping k)
    (hc' : (∃ k', s'.session = .looping k') ∨ s'.session = .killed) (hs : s'.client = s.client)
    (hacc : s'.accepted = s.accepted)
    (hle : (s'.session.descriptors again sh).held again.other ≤ sh k)
    (hshared : s'.pipe.Shared (s'.client.descriptors again ch) (s'.session.descriptors again sh))
    (hbytes : s'.pipe.bytes = s'.answer ++ data')
    (hflow : data' ≠ [] → again ≠ .reader → s.client.rank = 8) :
    s'.Shaken again ch sh data' := by
  obtain ⟨⟨_, h₁, h₂, h₃, h₄, h₅, h₆, _, h₇, h₈⟩, ⟨_, h₉, _, h₁₀, _⟩, ⟨_, _, h₁₁, h₁₂, h₁₃⟩⟩ := h
  have hrank : s.session.rank = 7 := by rw [hc, SessionPc.rank]
  have hrank' : s'.session.rank = 7 := by
    obtain ⟨k', hc'⟩ | hc' := hc' <;> rw [hc', SessionPc.rank]
  have hheld : (s.session.descriptors again sh).held again.other = 0 →
      (s'.session.descriptors again sh).held again.other = 0 := by
    rw [hc]
    intro hzero
    simp only [SessionPc.descriptors, Function.update_self] at hzero
    omega
  have hgone : ∀ n, s.session.Gone again sh n → s'.session.Gone again sh n :=
    fun n hn => ⟨hn.reader, hn.seen, hrank', hheld hn.closed⟩
  rw [← hs, ← hacc] at *
  refine ⟨⟨hshared, ?_, ?_, ?_, ?_, ?_, h₆, ?_, ?_, ?_⟩, ⟨?_, h₉, ?_, ?_, ?_⟩,
    ⟨hbytes, ?_, h₁₁, h₁₂, ?_⟩⟩
  all_goals grind

/-- A turn of the loop of the client that opens and closes nothing. -/
theorem clientTurns (h : s.Shaken again ch sh data) (hc : s.client = .looping l) (l' : γ)
    (hheld : ch l' = ch l) (path : PathState) (sent received data' : List UInt8)
    (hflow : data' ≠ [] → again = .reader → s.session.rank = 7) :
    Connection.Shaken again ch sh
      { s with
        path := path, pipe := { s.pipe with bytes := data' }, client := .looping l', sent := sent
        received := received } data' := by
  have hshared := h.inStep.shared.withBytes data'
  rw [hc] at hshared
  refine h.clientLoops hc rfl rfl rfl hheld.le ?_ rfl hflow
  simpa only [ClientPc.descriptors, hheld] using hshared

theorem clientCloses (h : s.Shaken again ch sh data) (hc : s.client = .looping l) (l' : γ)
    (hl : ch l = 1) (hl' : ch l' = 0) :
    ∃ data', Connection.Shaken again ch sh
      { s with pipe := s.pipe.closeEnd again, client := .looping l' } data' ∧
        Kept { s with pipe := s.pipe.closeEnd again, client := (.looping l' : ClientPc γ) }
          data data' := by
  have hbytes := h.answers.bytes
  have hdata := h.answers.data
  have hshared := h.inStep.shared
  rw [answer_of_read (by rw [hc, ClientPc.rank]; decide), List.nil_append] at hbytes
  have hclosed : (s.pipe.closeEnd again).Shared ((ClientPc.looping l').descriptors again ch)
      (s.session.descriptors again sh) := by
    rw [hc] at hshared
    have hcloses : (ClientPc.looping l').descriptors again ch =
        ((ClientPc.looping l).descriptors again ch).closeEnd again := by
      ext e <;> simp [ClientPc.descriptors, Descriptors.closeEnd, hl, hl']
    rw [hcloses]
    exact hshared.closeEnd (by simp [ClientPc.descriptors, hl])
  have hmoved : ∀ data', (s.pipe.closeEnd again).bytes = data' → (data' ≠ [] → data ≠ []) →
      Connection.Shaken again ch sh
        { s with pipe := s.pipe.closeEnd again, client := .looping l' } data' := by
    intro data' heq hne
    refine h.clientLoops hc rfl rfl rfl (by omega) hclosed heq fun hd hagain => ?_
    have := hdata (hne hd)
    rwa [if_pos hagain] at this
  obtain heq | ⟨heq, hends⟩ := s.pipe.closeEnd_bytes again
  · exact ⟨data, hmoved data (heq.trans hbytes) id, Or.inl rfl⟩
  · exact ⟨[], hmoved [] heq fun hne => absurd rfl hne, Or.inr ⟨rfl, hends⟩⟩

/-- A turn of the loop of the session that opens and closes nothing. -/
theorem sessionTurns (h : s.Shaken again ch sh data) (hc : s.session = .looping k) (k' : σ)
    (hheld : sh k' = sh k) (path : PathState) (sent received data' : List UInt8)
    (hflow : data' ≠ [] → again ≠ .reader → s.client.rank = 8) :
    Connection.Shaken again ch sh
      { s with
        path := path, pipe := { s.pipe with bytes := s.answer ++ data' }, session := .looping k'
        sent := sent, received := received } data' := by
  have hshared := h.inStep.shared.withBytes (s.answer ++ data')
  rw [hc] at hshared
  refine h.sessionLoops hc (Or.inl ⟨k', rfl⟩) rfl rfl ?_ ?_ ?_ hflow
  · simp [SessionPc.descriptors, hheld]
  · simpa only [SessionPc.descriptors, hheld] using hshared
  · simp only [answer, hc, SessionPc.rank]
    rfl

/-- The session closes the pipe, also when it is killed. -/
theorem sessionCloses (h : s.Shaken again ch sh data) (hc : s.session = .looping k)
    (pc : SessionPc σ) (hk : sh k = 1)
    (hpc : (∃ k', pc = .looping k' ∧ sh k' = 0) ∨ pc = .killed) :
    ∃ data', Connection.Shaken again ch sh
      { s with pipe := s.pipe.closeEnd again.other, session := pc } data' ∧
        Kept { s with pipe := s.pipe.closeEnd again.other, session := pc } data data' := by
  have hbytes := h.answers.bytes
  have hdata := h.answers.data
  have hshared := h.inStep.shared
  have hrank : pc.rank = s.session.rank := by
    obtain ⟨k', rfl, _⟩ | rfl := hpc <;> rw [hc] <;> rfl
  have hcloses : pc.descriptors again sh =
      (s.session.descriptors again sh).closeEnd again.other := by
    rw [hc]
    obtain ⟨k', rfl, hk'⟩ | rfl := hpc
    · ext e <;> simp [SessionPc.descriptors, Descriptors.closeEnd, hk, hk']
    · ext e
      · cases again <;> cases e <;>
          simp [SessionPc.descriptors, Descriptors.closeEnd, Descriptors.openEnd,
            Descriptors.none, PipeEnd.other, hk]
      · rfl
  have hclosed : (s.pipe.closeEnd again.other).Shared (s.client.descriptors again ch)
      (pc.descriptors again sh) := by
    rw [hcloses]
    exact (hshared.symm.closeEnd (by simp [hc, SessionPc.descriptors, hk])).symm
  have hmoved : ∀ data', (s.pipe.closeEnd again.other).bytes = s.answer ++ data' →
      (data' ≠ [] → data ≠ []) → Connection.Shaken again ch sh
        { s with pipe := s.pipe.closeEnd again.other, session := pc } data' := by
    intro data' heq hne
    refine h.sessionLoops hc (hpc.imp_left (Exists.imp fun k' => And.left)) rfl rfl ?_ hclosed ?_
      fun hd hagain => ?_
    · rw [hcloses, hc]
      simp [SessionPc.descriptors, Descriptors.closeEnd]
    · simp only [answer, hrank, heq]
    · have := hdata (hne hd)
      rwa [if_neg hagain] at this
  obtain heq | ⟨heq, hends⟩ := s.pipe.closeEnd_bytes again.other
  · exact ⟨data, hmoved data (heq.trans hbytes) id, Or.inl rfl⟩
  · -- the client has closed its end, and so read the answer
    have hread : 3 ≤ s.client.rank := by
      by_contra hlow
      have hopened := h.inStep.sessionOpened (by rw [hc, SessionPc.rank]; decide)
      have hheld : 0 < (s.client.descriptors again ch).held .reader :=
        ClientPc.held_first hopened (by omega)
      have hzero := hends .reader
      rw [hclosed.ends] at hzero
      omega
    refine ⟨[], hmoved [] ?_ fun hne => absurd rfl hne, Or.inr ⟨rfl, hends⟩⟩
    rw [heq, answer_of_read hread, List.append_nil]

/-- Both sides have the same answer. -/
theorem agree (h : s.Shaken again ch sh data) :
    (s.client = .refused → s.accepted = false) ∧ (∀ l, s.client = .looping l → s.accepted = true) ∧
      (s.session = .returned → s.accepted = false) ∧
      ∀ k, s.session = .looping k → s.accepted = true := by
  refine ⟨fun hc => ?_, fun l hc => ?_, fun hs => ?_, fun k hs => ?_⟩
  · exact (h.answers.client (by simp [hc, ClientPc.rank])).mp hc
  · have := h.answers.client (by simp [hc, ClientPc.rank])
    simpa [hc] using this
  · exact (h.answers.session (by simp [hs, SessionPc.rank])).mp hs
  · have := h.answers.session (by simp [hs, SessionPc.rank])
    simpa [hs] using this

/-- A call of `open` can be made unless a probe has made the path. -/
theorem exists_openPath {π : Type} (hp : s.path ≠ .probe) (e : PipeEnd) (returned failed : π)
    (waiting : Nat → π) : ∃ r, s.openPath e returned waiting failed = some r := by
  unfold openPath
  split
  · exact ⟨_, rfl⟩
  · exact ⟨_, rfl⟩
  · exact absurd ‹_› hp

/-- The second `open` of the session returns when the client has opened the pipe again. -/
theorem sessionRewakes (h : s.Shaken again ch sh data) {n : Nat} (hs : s.session = .rewaiting n)
    (hc : 7 ≤ s.client.rank) : s.pipe.opens again ≠ n ∨ s.client.Gone again ch n := by
  refine (h.inStep.sessionRewaits n hs).imp_left fun hn => ?_
  rw [h.inStep.shared.opens, hs, ClientPc.opened_eq, SessionPc.opened_eq, hn]
  have : 1 ≤ s.client.rank := by omega
  cases again <;> simp [SessionPc.rank, PipeEnd.other, hc, this]

theorem clientRewakes (h : s.Shaken again ch sh data) {n : Nat} (hc : s.client = .rewaiting n)
    (hs : 6 ≤ s.session.rank) : s.pipe.opens again.other ≠ n ∨ s.session.Gone again sh n := by
  refine (h.inStep.clientRewaits n hc).imp_left fun hn => ?_
  rw [h.inStep.shared.opens, hc, ClientPc.opened_eq, SessionPc.opened_eq, hn]
  have : 1 ≤ s.session.rank := by omega
  cases again <;> simp [ClientPc.rank, PipeEnd.other, hs, this]

/-- A session can go on if the client is as far as the session needs it. -/
theorem sessionEnabled (h : s.Shaken again ch sh data) (hcapacity : 3 ≤ capacity)
    (hp : s.path ≠ .probe) (hs : ¬ s.session.Settled) (hc : 1 ≤ s.client.rank)
    (hc' : s.session.rank = 6 → 7 ≤ s.client.rank) :
    (∃ s', s.sessionStep again capacity sessionStart = some s') ∨
      ∃ n, s.session = .rewaiting n ∧ s.client.Gone again ch n := by
  cases hpc : s.session with
  | opening =>
    obtain ⟨r, hr⟩ := exists_openPath hp .writer SessionPc.writing .aborted .waiting
    left
    simp only [Connection.sessionStep, hpc]
    exact ⟨_, Option.bind_eq_some_iff.mpr ⟨r, hr, rfl⟩⟩
  | waiting n =>
    left
    have hopens : s.pipe.opens .reader ≠ n := by
      rw [h.inStep.sessionWaits n hpc, h.inStep.shared.opens, ClientPc.opened_eq, if_pos ⟨rfl, hc⟩]
      omega
    simp only [Connection.sessionStep, hpc]
    exact ⟨_, if_pos hopens⟩
  | writing =>
    left
    have hbytes : s.pipe.bytes = [] :=
      h.answers.empty h.inStep (by rw [hpc]; exact le_refl _)
    have hw : s.pipe.write capacity (reply s.accepted) =
        .written { s.pipe with bytes := s.pipe.bytes ++ reply s.accepted } :=
      NamedPipe.write_eq_written.mpr ⟨h.inStep.answerable hpc, by simpa [hbytes], rfl⟩
    simp only [Connection.sessionStep, hpc, hw]
    exact ⟨_, rfl⟩
  | closing =>
    left
    simp only [Connection.sessionStep, hpc]
    exact ⟨_, rfl⟩
  | reopening =>
    obtain ⟨r, hr⟩ :=
      exists_openPath hp again.other (SessionPc.looping sessionStart) .failed .rewaiting
    left
    simp only [Connection.sessionStep, hpc]
    exact ⟨_, Option.bind_eq_some_iff.mpr ⟨r, hr, rfl⟩⟩
  | rewaiting n =>
    obtain hopens | hgone := h.sessionRewakes hpc (hc' (by rw [hpc, SessionPc.rank]))
    · left
      simp only [Connection.sessionStep, hpc]
      exact ⟨_, if_pos hopens⟩
    · exact Or.inr ⟨n, rfl, hgone⟩
  | aborted | returned | failed | looping | killed =>
    rw [hpc] at hs
    exact absurd trivial hs

/-- A client can go on, or waits for a session that can go on, or its session has gone. -/
theorem clientProgress (h : s.Shaken again ch sh data) (hcapacity : 3 ≤ capacity)
    (hp : s.path ≠ .probe) (hc : ¬ s.client.Settled) :
    (∃ s', s.clientStep again auxBuffer clientStart = some s') ∨
      (∃ s', s.sessionStep again capacity sessionStart = some s') ∨
      ∃ n, s.client = .rewaiting n ∧ s.session.Gone again sh n := by
  -- the session can go on if it is behind
  have hmoves : ¬ s.session.Settled → 1 ≤ s.client.rank → s.client.rank < 8 →
      (s.session.rank = 6 → 7 ≤ s.client.rank) →
      ∃ s', s.sessionStep again capacity sessionStart = some s' := by
    intro hs hlow hhigh hfar
    obtain hstep | ⟨_, _, hgone⟩ := h.sessionEnabled hcapacity hp hs hlow hfar
    · exact hstep
    · exact absurd hgone.looping (by omega)
  cases hpc : s.client with
  | opening =>
    obtain ⟨r, hr⟩ := exists_openPath hp .reader ClientPc.reading .aborted .waiting
    left
    simp only [Connection.clientStep, hpc]
    exact ⟨_, Option.bind_eq_some_iff.mpr ⟨r, hr, rfl⟩⟩
  | waiting n =>
    by_cases hopen : 1 ≤ s.session.rank
    · left
      have hopens : s.pipe.opens .writer ≠ n := by
        rw [h.inStep.clientWaits n hpc, h.inStep.shared.opens, SessionPc.opened_eq,
          if_pos ⟨rfl, hopen⟩]
        omega
      simp only [Connection.clientStep, hpc]
      exact ⟨_, if_pos hopens⟩
    · have hs : ¬ s.session.Settled := SessionPc.not_settled_of_le h.found.session (by omega)
      exact Or.inr (Or.inl (hmoves hs (by simp [hpc, ClientPc.rank])
        (by simp [hpc, ClientPc.rank]) (by omega)))
  | reading =>
    by_cases hw : s.pipe.bytes = [] → s.pipe.ends .writer = 0
    · left
      simp only [Connection.clientStep, hpc]
      exact ⟨_, Option.bind_eq_some_iff.mpr ⟨_, NamedPipe.read_eq_some.mpr ⟨hw, rfl⟩, rfl⟩⟩
    · -- the answer is not in the pipe
      have hbytes : s.pipe.bytes = [] := (Classical.not_imp.mp hw).1
      have hlow : s.session.rank ≤ 2 := by
        by_contra hwritten
        have hanswer : s.answer = reply s.accepted :=
          if_pos ⟨by omega, by rw [hpc]; exact le_refl _⟩
        have hlen := congrArg List.length (h.answers.bytes.symm.trans hbytes)
        rw [hanswer, List.length_append, length_reply] at hlen
        simp at hlen
      have hs : ¬ s.session.Settled := SessionPc.not_settled_of_le h.found.session (by omega)
      exact Or.inr (Or.inl (hmoves hs (by simp [hpc, ClientPc.rank])
        (by simp [hpc, ClientPc.rank]) (by omega)))
  | closing b =>
    left
    simp only [Connection.clientStep, hpc]
    exact ⟨_, rfl⟩
  | comparing b =>
    left
    simp only [Connection.clientStep, hpc]
    cases saysOk b <;> exact ⟨_, rfl⟩
  | reopening =>
    obtain ⟨r, hr⟩ := exists_openPath hp again (ClientPc.looping clientStart) .failed .rewaiting
    left
    simp only [Connection.clientStep, hpc]
    exact ⟨_, Option.bind_eq_some_iff.mpr ⟨r, hr, rfl⟩⟩
  | rewaiting n =>
    by_cases hfar : 6 ≤ s.session.rank
    · obtain hopens | hgone := h.clientRewakes hpc hfar
      · left
        simp only [Connection.clientStep, hpc]
        exact ⟨_, if_pos hopens⟩
      · exact Or.inr (Or.inr ⟨n, rfl, hgone⟩)
    · have haccepted : s.accepted = true := by
        have := h.answers.client (by simp [hpc, ClientPc.rank])
        simpa [hpc] using this
      have hs : ¬ s.session.Settled := by
        apply SessionPc.not_settled h.found.session (by omega)
        · intro hreturned
          have := (h.answers.session (by simp [hreturned, SessionPc.rank])).mp hreturned
          rw [haccepted] at this
          cases this
        · intro hfailed
          have := (h.found.sessionFails hfailed).2
          simp [hpc, ClientPc.rank] at this
      exact Or.inr (Or.inl (hmoves hs (by simp [hpc, ClientPc.rank])
        (by simp [hpc, ClientPc.rank]) (by omega)))
  | aborted | refused | failed | looping =>
    rw [hpc] at hc
    exact absurd trivial hc

/-- A session can go on, or waits for a client that can go on, or its client has gone. -/
theorem sessionProgress (h : s.Shaken again ch sh data) (hcapacity : 3 ≤ capacity)
    (hp : s.path ≠ .probe) (hs : ¬ s.session.Settled) :
    (∃ s', s.sessionStep again capacity sessionStart = some s') ∨
      (∃ s', s.clientStep again auxBuffer clientStart = some s') ∨
      ∃ n, s.session = .rewaiting n ∧ s.client.Gone again ch n := by
  have hclient : ¬ s.client.Settled →
      (∃ s', s.sessionStep again capacity sessionStart = some s') ∨
        ∃ s', s.clientStep again auxBuffer clientStart = some s' := by
    intro hc
    obtain hstep | hstep | ⟨_, _, hgone⟩ := h.clientProgress hcapacity hp hc
    · exact Or.inr hstep
    · exact Or.inl hstep
    · exact absurd (SessionPc.settled_of_rank hgone.looping) hs
  by_cases hfar : 1 ≤ s.client.rank ∧ (s.session.rank = 6 → 7 ≤ s.client.rank)
  · exact (h.sessionEnabled hcapacity hp hs hfar.1 hfar.2).imp_right Or.inr
  · -- a client that is behind has neither been refused nor failed
    have hc : ¬ s.client.Settled := by
      apply ClientPc.not_settled h.found.client
      · omega
      · intro hrefused
        have hfalse := (h.answers.client (by simp [hrefused, ClientPc.rank])).mp hrefused
        have hreturned := (h.answers.session (by
          rw [hrefused, ClientPc.rank] at hfar
          omega)).mpr hfalse
        rw [hreturned] at hs
        exact hs trivial
      · intro hfailed
        exact hs (SessionPc.settled_of_rank (h.found.clientFails hfailed).2)
    exact (hclient hc).imp_right Or.inl

end Shaken

end Connection

end

end MessageBroker.Broker
