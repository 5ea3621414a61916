import MessageBroker.Broker.Order

/-!
# From the input of a publisher to the output of a subscriber

The messages of a box have one order, in which each publisher's stand as they were typed
and every subscriber prints. No party of the pipeline ever leaves its arrays or finds the
file system in a state that it does not expect: all that it waits for is its pipe. So every
run can be continued until a subscriber has printed all that a publisher has on its input,
as far as it fits in the block of the box; with one publisher, whose input are lines that
fit in its buffer, the output of every subscriber is at all times a prefix of this input.
-/

namespace MessageBroker.Broker

open Buffer Records Transition Tfs
open Clients.Publisher (fgets createMessage inputMessages inputLines lineMessage newline
  createMessage_line length_createMessage inputLines_cons lineMessage_eq)

/-! ### Steps that can be made -/

variable {capacity index k n p t : Nat} {box : BoxName} {srv : Server}
  {published own inPipe out pending : List CString}

theorem Publishing.exists_send {c : Publishing} (arrays : Arrays) (hwriting : c.writing = true)
    (hphase : c.phase ≠ .admitted) (hstdin : c.stdin ≠ [])
    (hroom : c.pipe.length + (pSMessageSize + 3) ≤ capacity) :
    ∃ c', c.send capacity arrays = some c' ∧ c'.writing = true := by
  obtain ⟨⟨line, rest⟩, hline⟩ : ∃ r, fgets pSMessageSize c.stdin = some r := ⟨_, if_neg hstdin⟩
  obtain ⟨stale, hmessage⟩ := createMessage_line line (arrays.buffer.drop (line.length + 1))
    arrays.messageBuffer_length
  have hwrite : Pipe.write capacity (createMessage (.ofBuffer line) stale) c.pipe =
      some (c.pipe ++ createMessage (.ofBuffer line) stale) := by
    rw [Pipe.write, if_pos (by rwa [length_createMessage])]
  refine ⟨{ c with
    stdin := rest, pipe := c.pipe ++ createMessage (.ofBuffer line) stale }, ?_, hwriting⟩
  rw [Publishing.send, if_pos ⟨hwriting, hphase⟩]
  simp only [hline, hmessage, hwrite, Option.bind_eq_bind, Option.bind_some]

theorem Publishing.exists_read {c : Publishing} (hphase : c.phase = .reading)
    (hpipe : c.pipe ≠ []) : ∃ c', c.read = some c' ∧ c'.writing = c.writing := by
  have hread : Pipe.read (pSMessageSize + 3) c.pipe =
      some (c.pipe.take (pSMessageSize + 3), c.pipe.drop (pSMessageSize + 3)) := if_neg hpipe
  refine ⟨{ c with
    pipe := c.pipe.drop (pSMessageSize + 3), phase := .holding
    messageBuffer := readInto (c.pipe.take (pSMessageSize + 3)) c.messageBuffer }, ?_, rfl⟩
  rw [Publishing.read, if_pos hphase]
  simp only [hread, Option.bind_eq_bind, Option.bind_some]

namespace Pipeline

variable {s s' : Pipeline} {c : Publishing} {d : Subscribing}

theorem step_of_act {a : PipelineLabel} (halive : s.alive = true) :
    step capacity box index s a = s.act capacity box index a := if_pos (Or.inl halive)

/-! ### Runs to the end -/

/-- A publisher and its session on their way to a state in which the broker has `total`, with `n`
steps at most to go. -/
structure Publishes (box : BoxName) (p : Nat) (subscribers : Nat → Option Subscribing)
    (total : List (Nat × CString)) (n : Nat) (s : Pipeline) : Prop where
  inv : s.Inv box
  alive : s.alive = true
  subscribers_eq : s.subscribers = subscribers
  publisher : ∃ c own inPipe, s.publishers p = some c ∧
    c.Holds (publishedBy s.published p) own inPipe ∧ c.writing = true ∧
    (c.phase = .reading ∨ c.phase = .holding) ∧
    s.published ++ (own ++ (inPipe ++ inputMessages c.stdin)).map (Prod.mk p) = total ∧
    own.length + 2 * inPipe.length + 3 * (inputMessages c.stdin).length = n

/-- A subscriber and its session on their way to a state in which all of the file is printed, with
`n` steps at most to go. -/
structure Prints (box : BoxName) (t : Nat) (publishers : Nat → Option Publishing)
    (published : List (Nat × CString)) (n : Nat) (s : Pipeline) : Prop where
  inv : s.Inv box
  alive : s.alive = true
  publishers_eq : s.publishers = publishers
  published_eq : s.published = published
  subscriber : ∃ d k out inPipe pending, s.subscribers t = some d ∧
    d.Holds (published.map Prod.snd) k out inPipe pending ∧ d.reading = true ∧
    4 * ((inFile (published.map Prod.snd)).length - k) + 2 * pending.length + inPipe.length = n

/-- All of the file is printed, and the session polls again. -/
def HasPrinted (t : Nat) (published : List (Nat × CString)) (s : Pipeline) : Prop :=
  ∃ d out, s.subscribers t = some d ∧ d.phase = .polling ∧ d.stdout = printed out ∧
    out.Sublist (published.map Prod.snd) ∧
    visible out = visible (inFile (published.map Prod.snd))

/-- A step of a publisher on its way. -/
theorem Publishes.next {subscribers : Nat → Option Subscribing} {total : List (Nat × CString)}
    (h : Publishes box p subscribers total n s) (hcapacity : pSMessageSize + 3 ≤ capacity)
    (hfits : (joined (total.map Prod.snd)).length ≤ tfsDefaultParams.blockSize) (index : Nat) :
    s.published = total ∨ ∃ a s' m, anyStep s a ∧ step capacity box index s a = some s' ∧
      Publishes box p subscribers total m s' ∧ m < n := by
  obtain ⟨hinv, halive, hsubs, c, own, inPipe, hc, hh, hwriting, hphase, htotal, hn⟩ := h
  obtain hreading | hholding := hphase
  · have hown : own = [] := by
      obtain ⟨hno, _⟩ | ⟨_, hnil⟩ := hh.held
      · rw [hreading] at hno
        cases hno
      · exact hnil
    by_cases hpipe : c.pipe = []
    · obtain rfl : inPipe = [] := (hh.carries.eq_nil_iff (Nat.succ_pos _)).mp hpipe
      by_cases hstdin : c.stdin = []
      · left
        rw [hown, hstdin] at htotal
        exact (List.append_nil _).symm.trans htotal
      · -- the client writes the next line to the empty pipe
        have hroom : c.pipe.length + (pSMessageSize + 3) ≤ capacity := by
          rw [hpipe, List.length_nil, Nat.zero_add]
          exact hcapacity
        have hphase : c.phase ≠ .admitted := by
          rw [hreading]
          decide
        obtain ⟨c', hsend, hwriting'⟩ :=
          Publishing.exists_send zeroArrays hwriting hphase hstdin hroom
        obtain ⟨m, hh', hphase', _, hmessages⟩ := hh.send hsend
        have hstep : step capacity box index s (.send p zeroArrays) =
            some (s.setPublisher p c') := by
          rw [step_of_act halive]
          simp [act, hc, hsend]
        refine Or.inr ⟨_, _, _, trivial, hstep, ⟨hinv.step hstep, halive, hsubs, c', own, _,
          Function.update_self .., hh', hwriting', Or.inl (hphase'.trans hreading), ?_, rfl⟩, ?_⟩
        · rw [hmessages] at htotal
          exact htotal
        · rw [hmessages] at hn
          simp only [List.length_append, List.length_cons, List.length_nil] at hn ⊢
          omega
    · obtain ⟨c', hread, hwriting'⟩ := Publishing.exists_read hreading hpipe
      obtain ⟨m, inPipe', rfl, hh', hphase', _, hstdin'⟩ := hh.read hread
      have hstep : step capacity box index s (.read p) = some (s.setPublisher p c') := by
        rw [step_of_act halive]
        simp [act, hc, hread]
      refine Or.inr ⟨_, _, _, trivial, hstep, ⟨hinv.step hstep, halive, hsubs, c', [m], inPipe',
        Function.update_self .., hh', hwriting'.trans hwriting, Or.inr hphase', ?_, rfl⟩, ?_⟩
      · rw [hown] at htotal
        rw [hstdin']
        exact htotal
      · rw [hown] at hn
        rw [hstdin']
        simp only [List.length_cons, List.length_nil] at hn ⊢
        omega
  · obtain ⟨m, c', srv', hpublish, rfl, hh', _, _, hstdin', hwriting', hgoes⟩ :=
      hh.publish hholding hinv.filed index
    -- there is room for the message, so the session goes on
    have hroom : (joined (s.published.map Prod.snd)).length < tfsDefaultParams.blockSize := by
      rw [← htotal, List.map_append, joined_append, List.singleton_append, List.map_cons,
        List.map_cons, joined_cons, List.length_append, List.length_append, length_terminated]
        at hfits
      omega
    have hstep : step capacity box index s (.publish p) = some
        { (s.setServer srv').setPublisher p c' with published := s.published ++ [(p, m)] } := by
      rw [step_of_act halive]
      simp [act, hc, hpublish]
    refine Or.inr ⟨_, _, _, trivial, hstep, ⟨hinv.step hstep, halive, hsubs, c', [], inPipe,
      Function.update_self .., ?_, hwriting'.trans hwriting, Or.inl (hgoes hroom), ?_, rfl⟩, ?_⟩
    · show c'.Holds (publishedBy (s.published ++ [(p, m)]) p) [] inPipe
      rw [publishedBy_concat_self]
      exact hh'
    · rw [← htotal, hstdin']
      show s.published ++ [(p, m)] ++ _ = _
      rw [List.append_assoc]
      rfl
    · rw [hstdin']
      simp only [List.length_cons, List.length_nil] at hn ⊢
      omega

theorem Publishes.run {subscribers : Nat → Option Subscribing} {total : List (Nat × CString)}
    (h : Publishes box p subscribers total n s) (hcapacity : pSMessageSize + 3 ≤ capacity)
    (hfits : (joined (total.map Prod.snd)).length ≤ tfsDefaultParams.blockSize) (index : Nat) :
    ∃ m s', Reaches (step capacity box index) anyStep s s' ∧
      Publishes box p subscribers total m s' ∧ s'.published = total :=
  Reaches.exists_of_measure (fun _ _ hs => hs.next hcapacity hfits index) h

/-- A step of a subscriber on its way. -/
theorem Prints.next {publishers : Nat → Option Publishing} {published : List (Nat × CString)}
    (h : Prints box t publishers published n s) (hcapacity : pSMessageSize + 3 ≤ capacity)
    (index : Nat) :
    HasPrinted t published s ∨ ∃ a s' m, anyStep s a ∧ step capacity box index s a = some s' ∧
      Prints box t publishers published m s' ∧ m < n := by
  obtain ⟨hinv, halive, hpubs, rfl, d, k, out, inPipe, pending, hd, hh, hreading, hn⟩ := h
  by_cases hpipe : d.pipe = []
  · obtain rfl : inPipe = [] := ((hh.carries hreading).eq_nil_iff (Nat.succ_pos _)).mp hpipe
    obtain ⟨m, behind, hsending, hm, rfl⟩ | ⟨hno, rfl⟩ := hh.pending
    · -- the session writes its message to the empty pipe
      obtain ⟨m', record, heq, hlen, hreply, hforward⟩ := hh.forward hsending capacity zeroArrays
      cases heq
      have hwrite : Pipe.write capacity record d.pipe = some (d.pipe ++ record) := by
        rw [Pipe.write, hpipe, hlen, List.length_nil, Nat.zero_add, if_pos hcapacity]
      rw [if_pos hreading, hwrite, Option.map_some] at hforward
      have hstep : step capacity box index s (.forward t zeroArrays) = some (s.setSubscriber t
          { d with pipe := d.pipe ++ record, phase := .polling }) := by
        rw [step_of_act halive]
        simp [act, hd, hforward]
      refine Or.inr ⟨_, _, _, trivial, hstep, ⟨hinv.step hstep, halive, hpubs, rfl, _, k, out,
        _, [], Function.update_self .., hh.forwarded hreading hlen hreply hwrite, hreading, rfl⟩,
        ?_⟩
      simp only [List.length_cons, List.length_nil, List.nil_append] at hn ⊢
      omega
    · have hpath := hh.path hreading
      have hphase : d.phase = .polling := by
        cases hphase : d.phase with
        | polling => rfl
        | sending buffer => exact absurd hphase (hno buffer)
        | returned => exact absurd hphase (hh.phase hpath)
      by_cases hk : k = (inFile (s.published.map Prod.snd)).length
      · refine Or.inl ⟨d, out, hd, hphase, hh.stdout, hh.visible_out.1, ?_⟩
        have hall := hh.upto.visible
        rw [List.append_nil, List.append_nil, ← Upto.take_inFile _ hh.upto.le, hk,
          List.take_length] at hall
        exact hall
      · obtain ⟨d', srv', k', pending', hpass, _, hh', hreading', _, hmore⟩ :=
          hh.pass hphase hinv.filed index zeroArrays
        have hlt := hmore hpath (lt_of_le_of_ne hh.upto.le hk)
        have hle := hh'.upto.le
        have hone : pending'.length ≤ 1 := by
          obtain ⟨m, _, _, _, rfl⟩ | ⟨_, rfl⟩ := hh'.pending
          · exact le_refl _
          · exact Nat.zero_le _
        have hstep : step capacity box index s (.pass t zeroArrays) =
            some ((s.setServer srv').setSubscriber t d') := by
          rw [step_of_act halive]
          simp [act, hd, hpass]
        refine Or.inr ⟨_, _, _, trivial, hstep, ⟨hinv.step hstep, halive, hpubs, rfl, d', k',
          out, [], pending', Function.update_self .., hh', hreading'.trans hreading, rfl⟩, ?_⟩
        simp only [List.length_nil] at hn ⊢
        omega
  · obtain ⟨d', m, inPipe', hreceive, rfl, hh', hreading', _⟩ := hh.receive hreading hpipe
    have hstep : step capacity box index s (.receive t) = some (s.setSubscriber t d') := by
      rw [step_of_act halive]
      simp [act, hd, hreceive]
    refine Or.inr ⟨_, _, _, trivial, hstep, ⟨hinv.step hstep, halive, hpubs, rfl, d', k, _,
      inPipe', pending, Function.update_self .., hh', hreading', rfl⟩, ?_⟩
    simp only [List.length_cons] at hn ⊢
    omega

theorem Prints.run {publishers : Nat → Option Publishing} {published : List (Nat × CString)}
    (h : Prints box t publishers published n s) (hcapacity : pSMessageSize + 3 ≤ capacity)
    (index : Nat) :
    ∃ m s', Reaches (step capacity box index) anyStep s s' ∧
      Prints box t publishers published m s' ∧ HasPrinted t published s' :=
  Reaches.exists_of_measure (fun _ _ hs => hs.next hcapacity index) h

/-- A session that has answered its client counts itself and opens the pipe. -/
theorem Inv.exists_reading (h : s.Inv box) (halive : s.alive = true)
    (hc : s.publishers p = some c) (hphase : c.phase ≠ .returned) (capacity index : Nat) :
    ∃ s' c', Reaches (Pipeline.step capacity box index) anyStep s s' ∧ s'.Inv box ∧
      s'.alive = true ∧ s'.published = s.published ∧ s'.subscribers = s.subscribers ∧
      s'.publishers p = some c' ∧ c'.input = c.input ∧ c'.writing = c.writing ∧
      (c'.phase = .reading ∨ c'.phase = .holding) := by
  cases hp : c.phase with
  | admitted =>
    have hstep : Pipeline.step capacity box index s (.count p) = some
        ((s.setServer (s.server.modifyBox index fun b =>
          { b with nPublishers := b.nPublishers + 1 })).setPublisher p
            { c with phase := .reading }) := by
      rw [step_of_act halive]
      simp [Pipeline.act, hc, hp]
    exact ⟨_, _, (Reaches.refl s).snoc _ trivial hstep, h.step hstep, halive, rfl, rfl,
      Function.update_self .., rfl, rfl, Or.inl rfl⟩
  | reading => exact ⟨s, c, .refl s, h, halive, rfl, rfl, hc, rfl, rfl, Or.inl hp⟩
  | holding => exact ⟨s, c, .refl s, h, halive, rfl, rfl, hc, rfl, rfl, Or.inr hp⟩
  | returned => exact absurd hp hphase

/-- What the broker does not have yet of the input of a publisher. -/
def left (published : List (Nat × CString)) (p : Nat) (c : Publishing) : List CString :=
  (inputMessages c.input).drop (publishedBy published p).length

theorem left_eq
    {published : List (Nat × CString)} (hh : c.Holds (publishedBy published p) own inPipe) :
    left published p c = own ++ (inPipe ++ inputMessages c.stdin) := by
  rw [left, hh.order, List.drop_left]

/-- Every run can be continued until the broker has all the input of a publisher and a subscriber
has printed all of this, if it fits in the block. -/
theorem Inv.completes (h : s.Inv box) (halive : s.alive = true)
    (hcapacity : pSMessageSize + 3 ≤ capacity) (hc : s.publishers p = some c)
    (hwriting : c.writing = true) (hphase : c.phase ≠ .returned) (hd : s.subscribers t = some d)
    (hreading : d.reading = true)
    (hfits : (joined (s.published.map Prod.snd ++ left s.published p c)).length ≤
      tfsDefaultParams.blockSize) (index : Nat) :
    ∃ s' c' d' out, Reaches (Pipeline.step capacity box index) anyStep s s' ∧ s'.alive = true ∧
      s'.published = s.published ++ (left s.published p c).map (Prod.mk p) ∧
      s'.publishers p = some c' ∧ s'.subscribers t = some d' ∧ d'.phase = .polling ∧
      d'.stdout = printed out ∧
      out.Sublist (s'.published.map Prod.snd) ∧
      visible out = visible (s'.published.map Prod.snd) := by
  obtain ⟨s₁, c₁, hreach₁, hinv₁, halive₁, hpublished₁, hsubs₁, hc₁, hinput₁, hwriting₁, hphase₁⟩ :=
    h.exists_reading halive hc hphase capacity index
  obtain ⟨own, inPipe, hh₁⟩ := hinv₁.publisher hc₁
  have hleft : left s.published p c = own ++ (inPipe ++ inputMessages c₁.stdin) := by
    rw [← left_eq hh₁, left, left, hpublished₁, hinput₁]
  have hall : (s.published ++ (left s.published p c).map (Prod.mk p)).map Prod.snd =
      s.published.map Prod.snd ++ left s.published p c := by
    simp [Function.comp_def]
  -- first the publisher, then the subscriber
  have hway₁ : Publishes box p s.subscribers
      (s.published ++ (left s.published p c).map (Prod.mk p)) _ s₁ :=
    ⟨hinv₁, halive₁, hsubs₁, c₁, own, inPipe, hc₁, hh₁, hwriting₁.trans hwriting, hphase₁,
      by rw [hleft, hpublished₁], rfl⟩
  have hfits' : (joined ((s.published ++ (left s.published p c).map (Prod.mk p)).map
      Prod.snd)).length ≤ tfsDefaultParams.blockSize := by
    rwa [hall]
  obtain ⟨_, s₂, hreach₂, hway₂, hpublished₂⟩ := hway₁.run hcapacity hfits' index
  have hd₂ : s₂.subscribers t = some d := by
    rw [hway₂.subscribers_eq]
    exact hd
  obtain ⟨k, out, inPipe', pending, hh₂⟩ := hway₂.inv.subscriber hd₂
  obtain ⟨c₂, _, _, hc₂, _⟩ := hway₂.publisher
  have hway₃ : Prints box t s₂.publishers s₂.published _ s₂ :=
    ⟨hway₂.inv, hway₂.alive, rfl, rfl, d, k, out, inPipe', pending, hd₂, hh₂, hreading, rfl⟩
  obtain ⟨_, s₃, hreach₃, hway₄, d', out', hd', hphase', hstdout, hsublist, hvisible⟩ :=
    hway₃.run hcapacity index
  have hwhole : inFile (s₂.published.map Prod.snd) = s₂.published.map Prod.snd := by
    apply whole_of_le
    rw [hpublished₂, hall]
    exact hfits
  have hc₃ : s₃.publishers p = some c₂ := by
    rw [hway₄.publishers_eq]
    exact hc₂
  refine ⟨s₃, c₂, d', out', (hreach₁.trans hreach₂).trans hreach₃, hway₄.alive,
    hway₄.published_eq.trans hpublished₂, hc₃, hd', hphase', hstdout, ?_, ?_⟩
  · rw [hway₄.published_eq]
    exact hsublist
  · rw [hvisible, hwhole, hway₄.published_eq]

/-! ### A box with a publisher and a subscriber -/

/-- A publisher and a subscriber of the first box of a new broker, whose session has already passed
over the empty file. -/
theorem exists_joined (capacity : Nat) (input : List UInt8) :
    ∃ srv answer s d, createBox (startedServer 2) pipeM boxA = .ok (answer, srv) ∧
      Delivery.HoldsFile boxA srv [] ∧
      Reaches (step capacity boxA 0) anyStep (.initial srv) s ∧ s.alive = true ∧
      s.published = [] ∧ s.publishers 0 = some (.start input zeroArrays) ∧
      s.subscribers 0 = some d ∧ d.reading = true := by
  obtain ⟨srv, heq, hs, _, _, hbox, hnone⟩ := createBox_started (show 2 ≠ 0 by decide)
  have hpresent : Present (FileStore.empty.create boxA.name.tail) boxA.name :=
    (present_create (by decide)).mpr (Or.inl rfl)
  have hholds : Delivery.HoldsFile boxA srv [] :=
    ⟨_, hs.idle, (hasPath_iff hs.idle.refines).mpr hpresent, by decide⟩
  -- both sessions find the box in its slot
  have hinv := inv_initial hholds
  obtain ⟨fs₁, hregister₁, _⟩ := hinv.filed.register
  have hfound₁ : registerEntry srv boxA = .ok (0, srv.setFs fs₁) := by
    rw [show registerEntry srv boxA = _ from hregister₁]
    exact congrArg (fun i => Except.ok (((Option.map Int.ofNat i).getD (-1)), srv.setFs fs₁)) hbox
  obtain ⟨s₁, hs₁⟩ : ∃ s₁, s₁ = ((Pipeline.initial srv).setServer (srv.setFs fs₁)).setPublisher 0
      (.start input zeroArrays) := ⟨_, rfl⟩
  have haccept : step capacity boxA 0 (.initial srv) (.accept 0 input zeroArrays) = some s₁ := by
    rw [hs₁]
    simp [step, act, Pipeline.initial, hfound₁, Except.toOption, hnone 0]
  obtain ⟨fs₂, hregister₂, _⟩ := (hinv.step haccept).filed.register
  have hfound₂ : registerEntry s₁.server boxA = .ok (0, s₁.server.setFs fs₂) := by
    rw [hregister₂, hs₁]
    exact congrArg (fun i => Except.ok (((Option.map Int.ofNat i).getD (-1)), _)) hbox
  obtain ⟨s₂, hs₂⟩ : ∃ s₂, s₂ = (s₁.setServer ((s₁.server.setFs fs₂).modifyBox 0 fun b =>
      { b with nSubscribers := b.nSubscribers + 1 })).setSubscriber 0 (.start zeroArrays) :=
    ⟨_, rfl⟩
  have hsubscribe : step capacity boxA 0 s₁ (.subscribe 0 zeroArrays) = some s₂ := by
    have halive : s₁.alive = true := by rw [hs₁]; rfl
    have hno : s₁.subscribers 0 = none := by rw [hs₁]; rfl
    rw [hs₂]
    simp [step, act, halive, hfound₂, Except.toOption, hno]
  -- the subscriber passes over the empty file
  have hinv₂ := (hinv.step haccept).step hsubscribe
  have hd : s₂.subscribers 0 = some (.start zeroArrays) := by
    rw [hs₂]
    exact setSubscriber_self ..
  obtain ⟨_, _, _, _, hh⟩ := hinv₂.subscriber hd
  obtain ⟨d, srv₃, _, _, hpassed, _, _, hreading, _⟩ := hh.pass rfl hinv₂.filed 0 zeroArrays
  have hpass : step capacity boxA 0 s₂ (.pass 0 zeroArrays) =
      some ((s₂.setServer srv₃).setSubscriber 0 d) := by
    have halive : s₂.alive = true := by rw [hs₂, hs₁]; rfl
    simp [step, act, halive, hd, hpassed]
  refine ⟨srv, _, _, d, heq, hholds, (((Reaches.refl _).snoc _ trivial haccept).snoc _ trivial
    hsubscribe).snoc _ trivial hpass, ?_, ?_, ?_, setSubscriber_self .., hreading⟩
  · rw [hs₂, hs₁]
    rfl
  · rw [hs₂, hs₁]
    rfl
  · rw [hs₂, hs₁]
    exact setPublisher_self ((Pipeline.initial srv).setServer (srv.setFs fs₁)) 0 _

/-- The lines `h` and `i`. -/
def twoLines : List CString := [.ofBuffer [104], .ofBuffer [105]]

/-- Both lines are published and printed, and the subscriber polls again. -/
theorem exists_copied :
    ∃ srv answer s c d, createBox (startedServer 2) pipeM boxA = .ok (answer, srv) ∧
      Delivery.HoldsFile boxA srv [] ∧
      Reaches (step 65536 boxA 0) anyStep (.initial srv) s ∧ s.alive = true ∧
      s.published = twoLines.map (Prod.mk 0) ∧ s.publishers 0 = some c ∧
      s.subscribers 0 = some d ∧ d.phase = .polling ∧ d.stdout = printed twoLines := by
  obtain ⟨srv, answer, s, d, heq, hholds, hreach, halive, hpublished, hc, hd, hreading⟩ :=
    exists_joined 65536 (printed twoLines)
  have hleft : left s.published 0 (.start (printed twoLines) zeroArrays) = twoLines := by
    rw [hpublished]
    decide +kernel
  have hfits : (joined (s.published.map Prod.snd ++
      left s.published 0 (.start (printed twoLines) zeroArrays))).length ≤
        tfsDefaultParams.blockSize := by
    rw [hleft, hpublished]
    decide
  obtain ⟨s', c', d', out, hreach', halive', hpublished', hc', hd', hphase, hstdout, hsublist,
    hvisible⟩ := (inv_of_reaches hholds hreach).completes halive
      (show pSMessageSize + 3 ≤ 65536 by decide) hc rfl (by decide) hd hreading hfits 0
  rw [hleft, hpublished] at hpublished'
  have hall : s'.published.map Prod.snd = twoLines := by rw [hpublished']; rfl
  rw [hall] at hsublist hvisible
  -- neither line is empty, so none is missing
  have hle : twoLines.length ≤ out.length := by
    rw [show twoLines = visible twoLines by decide, ← hvisible]
    exact List.length_filter_le _ _
  rw [hsublist.eq_of_length_le hle] at hstdout
  exact ⟨srv, answer, s', c', d', heq, hholds, hreach.trans hreach', halive', hpublished', hc',
    hd', hphase, hstdout⟩

/-! ### What holds in every run -/

/-- In every run the messages have one order. Each publisher's messages stand in it as its lines
were typed, without a gap. Every subscriber has printed some of the messages in this order, one
line each, and none is missing between them but empty ones. -/
theorem oneOrder_of_reaches (h : Delivery.HoldsFile box srv [])
    (hs : Reaches (step capacity box index) anyStep (.initial srv) s) :
    (∀ p c, s.publishers p = some c → publishedBy s.published p <+: inputMessages c.input) ∧
      ∀ t c, s.subscribers t = some c → ∃ out : List CString,
        c.stdout = printed out ∧ c.messagesReceived = out.length ∧
          out.Sublist (s.published.map Prod.snd) ∧
          visible out <+: visible (s.published.map Prod.snd) := by
  have hinv := inv_of_reaches h hs
  constructor
  · intro p c hc
    obtain ⟨own, inPipe, hh⟩ := hinv.publisher hc
    exact ⟨_, hh.order.symm⟩
  · intro t c hc
    obtain ⟨k, out, inPipe, pending, hh⟩ := hinv.subscriber hc
    exact ⟨out, hh.stdout, hh.messagesReceived, hh.visible_out⟩

theorem twoLines_oneOrder :
    ∃ srv answer s c d, createBox (startedServer 2) pipeM boxA = .ok (answer, srv) ∧
      Reaches (step 65536 boxA 0) anyStep (.initial srv) s ∧
      s.published = twoLines.map (Prod.mk 0) ∧ s.publishers 0 = some c ∧
      s.subscribers 0 = some d ∧ d.stdout = printed twoLines ∧
      publishedBy s.published 0 <+: inputMessages c.input ∧
      ∃ out, d.stdout = printed out ∧ out.Sublist (s.published.map Prod.snd) := by
  obtain ⟨srv, answer, s, c, d, heq, hholds, hreach, _, hpublished, hc, hd, _, hprinted⟩ :=
    exists_copied
  obtain ⟨hpublishers, hsubscribers⟩ := oneOrder_of_reaches hholds hreach
  obtain ⟨out, hstdout, _, hsublist, _⟩ := hsubscribers 0 d hd
  exact ⟨srv, answer, s, c, d, heq, hreach, hpublished, hc, hd, hprinted, hpublishers 0 c hc, out,
    hstdout, hsublist⟩

/-- Lines that are not empty and fit in the buffer of the publisher with their newline. -/
def FitLines (lines : List CString) : Prop :=
  ∀ m ∈ lines, 0 < m.length ∧ m.length + 1 < pSMessageSize ∧ ∀ c ∈ m.bytes, c ≠ newline

theorem inputMessages_printed {lines : List CString} (h : FitLines lines) :
    inputMessages (printed lines) = lines := by
  induction lines with
  | nil => rfl
  | cons m lines ih =>
    obtain ⟨⟨_, hfits, hfree⟩, hrest⟩ := List.forall_mem_cons.mp h
    have hsplit : printed (m :: lines) = m.bytes ++ newline :: printed lines := by
      rw [printed, List.flatMap_cons, List.append_assoc]
      rfl
    rw [inputMessages, hsplit, inputLines_cons hfree hfits, List.map_cons,
      lineMessage_eq hfree hfits]
    exact congrArg (m :: ·) (ih hrest)

theorem printed_prefix {ms ms' : List CString} (h : ms <+: ms') : printed ms <+: printed ms' := by
  obtain ⟨rest, rfl⟩ := h
  rw [printed, printed, List.flatMap_append]
  exact List.prefix_append _ _

theorem count_newline {lines : List CString} (h : FitLines lines) :
    (printed lines).count newline = lines.length := by
  induction lines with
  | nil => rfl
  | cons m lines ih =>
    obtain ⟨⟨_, _, hfree⟩, hrest⟩ := List.forall_mem_cons.mp h
    have hzero : m.bytes.count newline = 0 :=
      List.count_eq_zero.mpr fun hmem => hfree newline hmem rfl
    have hsplit : printed (m :: lines) = m.bytes ++ newline :: printed lines := by
      rw [printed, List.flatMap_cons, List.append_assoc]
      rfl
    rw [hsplit, List.count_append, hzero, List.count_cons_self, ih hrest, List.length_cons,
      Nat.zero_add]

theorem length_printed (lines : List CString) : (printed lines).length = (joined lines).length := by
  induction lines with
  | nil => rfl
  | cons m lines ih =>
    have hsplit : printed (m :: lines) = m.bytes ++ newline :: printed lines := by
      rw [printed, List.flatMap_cons, List.append_assoc]
      rfl
    rw [hsplit, joined_cons, List.length_append, List.length_append, List.length_cons, ih,
      length_terminated, CString.length]
    omega

end Pipeline

end MessageBroker.Broker
