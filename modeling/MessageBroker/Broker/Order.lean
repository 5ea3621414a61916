import MessageBroker.Broker.Pipeline

/-!
# One order of the messages

The invariant of the publishers, the broker and the subscribers of a box. What a
publisher was given is what the broker has of it, then what its session holds, what its
pipe carries, and what it has not read. What a session has found in the file of the box
is what its subscriber has printed, what its pipe carries, and what it is about to send.
-/

namespace MessageBroker.Broker

open Buffer Records Transition Tfs
open Clients.Publisher (fgets createMessageFrom createMessage inputMessages lineMessage newline
  createMessage_line length_createMessage inputMessages_fgets)

/-- What a publisher sends for a message. -/
def IsMessage (m : CString) (record : List UInt8) : Prop :=
  ∃ behind, record = '0'.toUInt8 :: '9'.toUInt8 :: Clients.separator :: (m.bytes ++ 0 :: behind)

/-- What a subscriber is sent for a message. -/
def IsReply (m : CString) (record : List UInt8) : Prop :=
  m.length < pSMessageSize ∧
    record = '1'.toUInt8 :: '0'.toUInt8 :: Clients.separator :: m.padTo pSMessageSize

/-- The output of a subscriber for messages. -/
def printed (ms : List CString) : List UInt8 := ms.flatMap fun m => m.bytes ++ [newline]

/-- What the session of a publisher has in `message_buffer` and has not published. -/
def Publishing.Held (c : Publishing) (own : List CString) : Prop :=
  (c.phase = .holding ∧ ∃ m, own = [m] ∧ IsMessage m c.messageBuffer) ∨
    c.phase ≠ .holding ∧ own = []

/-- The messages of a publisher, of which the broker has `published`. -/
structure Publishing.Holds (c : Publishing) (published own inPipe : List CString) : Prop where
  messageBuffer_length : c.messageBuffer.length = pSMessageSize + 3
  buffer_length : c.buffer.length = pSMessageSize
  held : c.Held own
  carries : Pipe.Carries IsMessage (pSMessageSize + 3) inPipe c.pipe
  order : inputMessages c.input = published ++ (own ++ (inPipe ++ inputMessages c.stdin))

/-- What a session has found and not yet written to the pipe of its subscriber. -/
def Subscribing.Pending (c : Subscribing) (pending : List CString) : Prop :=
  (∃ m behind, c.phase = .sending (m.bytes ++ 0 :: behind) ∧ m.length < pSMessageSize ∧
      pending = [m]) ∨
    (∀ buffer, c.phase ≠ .sending buffer) ∧ pending = []

/-- A subscriber whose session has found the first `k` messages: those printed, those written to
the pipe since, of which none is left there when the client is gone, and those not yet written. -/
structure Subscribing.Holds (c : Subscribing) (published : List CString) (k : Nat)
    (out inPipe pending : List CString) : Prop where
  message_length : c.message.length = pSMessageSize + 3
  messageBuffer_length : c.messageBuffer.length = pSMessageSize
  path : c.reading = true → c.path = true
  phase : c.path = true → c.phase ≠ .returned
  upto : Upto published k c.bytesProcessed (out ++ (inPipe ++ pending))
  pending : c.Pending pending
  carries : c.reading = true → Pipe.Carries IsReply (pSMessageSize + 3) inPipe c.pipe
  stdout : c.stdout = printed out
  messagesReceived : c.messagesReceived = out.length

/-- The messages of one publisher among those that were published. -/
def publishedBy (published : List (Nat × CString)) (p : Nat) : List CString :=
  (published.filter fun m => decide (m.1 = p)).map Prod.snd

/-- The file of the box holds what fits of the messages. -/
structure Filed (box : BoxName) (srv : Server) (published : List CString) : Prop where
  file : FileIs box srv (boxFile published)
  short : ∀ m ∈ published, m.length < pSMessageSize

structure Pipeline.Inv (box : BoxName) (s : Pipeline) : Prop where
  filed : Filed box s.server (s.published.map Prod.snd)
  publisher : ∀ {p c}, s.publishers p = some c →
    ∃ held inPipe, c.Holds (publishedBy s.published p) held inPipe
  absent : ∀ {p}, s.publishers p = none → publishedBy s.published p = []
  subscriber : ∀ {t c}, s.subscribers t = some c →
    ∃ k out inPipe pending, c.Holds (s.published.map Prod.snd) k out inPipe pending

variable {capacity index k : Nat} {box : BoxName} {srv srv' : Server} {m : CString}
  {published held inPipe out pending : List CString}

/-! ### Publishers -/

namespace Publishing

variable {c c' : Publishing}

theorem Holds.start (input : List UInt8) (arrays : Arrays) :
    (Publishing.start input arrays).Holds [] [] [] := by
  refine ⟨arrays.messageBuffer_length, arrays.buffer_length, Or.inr ⟨?_, rfl⟩, .nil, rfl⟩
  intro h
  cases h

/-- A line that is sent stands behind the others in the pipe. -/
theorem Holds.send {arrays : Arrays} (h : c.Holds published held inPipe)
    (hs : c.send capacity arrays = some c') :
    ∃ m, c'.Holds published held (inPipe ++ [m]) ∧ c'.phase = c.phase ∧ c'.input = c.input ∧
      inputMessages c.stdin = m :: inputMessages c'.stdin := by
  simp only [Publishing.send, Option.bind_eq_bind, Option.ite_none_right_eq_some,
    Option.bind_eq_some_iff, Prod.exists] at hs
  obtain ⟨_, line, rest, hline, message, hmessage, pipe, hpipe, heq⟩ := hs
  cases heq
  obtain ⟨stale, hshape⟩ := createMessage_line line (arrays.buffer.drop (line.length + 1))
    arrays.messageBuffer_length
  obtain rfl := Option.some.inj (hshape.symm.trans hmessage)
  obtain ⟨behind, hbehind⟩ := createMessage_shape (.ofBuffer line) stale
  have horder := h.order
  rw [inputMessages_fgets hline] at horder
  refine ⟨lineMessage line, ⟨h.messageBuffer_length, h.buffer_length, h.held, ?_, ?_⟩, rfl, rfl,
    inputMessages_fgets hline⟩
  · exact h.carries.write ⟨behind, hbehind⟩ (length_createMessage _ stale) hpipe
  · rw [List.append_assoc]
    exact horder

theorem Holds.close (h : c.Holds published held inPipe) (hs : c.close = some c') :
    c'.Holds published held inPipe := by
  obtain ⟨_, heq⟩ := Option.ite_none_right_eq_some.mp hs
  cases heq
  exact ⟨h.messageBuffer_length, h.buffer_length, h.held, h.carries, h.order⟩

/-- The session takes the oldest message out of the pipe. -/
theorem Holds.read (h : c.Holds published held inPipe) (hs : c.read = some c') :
    ∃ m inPipe', inPipe = m :: inPipe' ∧ c'.Holds published [m] inPipe' ∧ c'.phase = .holding ∧
      c'.input = c.input ∧ c'.stdin = c.stdin := by
  simp only [Publishing.read, Option.bind_eq_bind, Option.ite_none_right_eq_some,
    Option.bind_eq_some_iff, Prod.exists] at hs
  obtain ⟨hphase, chunk, rest, hread, heq⟩ := hs
  cases heq
  obtain ⟨m, inPipe', rfl, hm, hlen, hrest⟩ := h.carries.read hread
  have hheld : held = [] := by
    obtain ⟨hholding, _⟩ | ⟨_, hnil⟩ := h.held
    · rw [hphase] at hholding
      cases hholding
    · exact hnil
  -- the message fills the whole of `message_buffer`
  have hbuffer : readInto chunk c.messageBuffer = chunk := by
    rw [readInto, hlen, List.drop_of_length_le h.messageBuffer_length.le, List.append_nil]
  refine ⟨m, inPipe', rfl, ⟨?_, h.buffer_length, Or.inl ⟨rfl, m, rfl, ?_⟩, hrest, ?_⟩, rfl, rfl,
    rfl⟩
  · rw [hbuffer]
    exact hlen
  · rw [hbuffer]
    exact hm
  · have horder := h.order
    rw [hheld] at horder
    exact horder

/-- A session that counts itself begins to read. -/
theorem Holds.count (h : c.Holds published held inPipe) (hphase : c.phase = .admitted) :
    Publishing.Holds { c with phase := .reading } published held inPipe := by
  refine ⟨h.messageBuffer_length, h.buffer_length, Or.inr ⟨?_, ?_⟩, h.carries, h.order⟩
  · intro hp
    cases hp
  · obtain ⟨hholding, _⟩ | ⟨_, hnil⟩ := h.held
    · rw [hphase] at hholding
      cases hholding
    · exact hnil

theorem Holds.finish (h : c.Holds published held inPipe) (hs : c.finish = some c') :
    c'.Holds published held inPipe := by
  obtain ⟨⟨hphase, _⟩, heq⟩ := Option.ite_none_right_eq_some.mp hs
  cases heq
  refine ⟨h.messageBuffer_length, h.buffer_length, Or.inr ⟨?_, ?_⟩, h.carries, h.order⟩
  · intro hp
    cases hp
  · obtain ⟨hholding, _⟩ | ⟨_, hnil⟩ := h.held
    · rw [hphase] at hholding
      cases hholding
    · exact hnil

end Publishing

/-! ### The file -/

/-- What the file holds behind a write of the message is what fits of all of them. -/
theorem boxFile_concat {text : Text} (htext : text.text = m) :
    boxFile (published ++ [m]) = boxFile published ++ fitting (boxFile published) text := by
  have hpayload : payload text = m.terminated := by
    rw [payload_eq, htext]
    rfl
  rw [fitting, hpayload, boxFile, boxFile, joined_concat, List.take_append, List.length_take]
  congr 2
  omega

/-- A message that is published is one more in the file, or the file is full. -/
theorem Filed.publish (h : Filed box srv published) (index : Nat) (hm : m.length < pSMessageSize) :
    ∃ goesOn srv', appendMessage srv index box m.terminated = .ok (goesOn, srv') ∧
      Filed box srv' (published ++ [m]) ∧
      ((joined published).length < tfsDefaultParams.blockSize → goesOn = true) := by
  let text : Text := ⟨m, hm⟩
  have happend : appendMessage srv index box m.terminated = Broker.publish srv index box text := by
    have hpayload : payload text = m.terminated := payload_eq text
    rw [← hpayload, appendMessage_payload]
  have hshort : ∀ m' ∈ published ++ [m], m'.length < pSMessageSize := by
    intro m' hm'
    obtain hm' | hm' := List.mem_append.mp hm'
    · exact h.short m' hm'
    · rw [List.mem_singleton.mp hm']
      exact hm
  have hfile : boxFile (published ++ [m]) = boxFile published ++ fitting (boxFile published) text :=
    boxFile_concat rfl
  rw [happend]
  by_cases hfull : (boxFile published).length = tfsDefaultParams.blockSize
  · obtain ⟨srv', heq, hfile', _⟩ := h.file.publish_full index text hfull
    have hnil : fitting (boxFile published) text = [] := by
      rw [fitting, hfull, Nat.sub_self, List.take_zero]
    rw [hnil, List.append_nil] at hfile
    refine ⟨false, srv', heq, ⟨hfile ▸ hfile', hshort⟩, fun hlt => ?_⟩
    rw [boxFile, List.length_take] at hfull
    omega
  · have hlt := lt_of_le_of_ne h.file.length_le hfull
    obtain ⟨srv', heq, hfile', _⟩ := h.file.publish_written index text hlt
    exact ⟨true, srv', heq, ⟨hfile ▸ hfile', hshort⟩, fun _ => rfl⟩

/-- A registration changes neither the slots nor the file. -/
theorem Filed.register (h : Filed box srv published) :
    ∃ fs', registerEntry srv box =
        .ok (((srv.findBox box.name).map Int.ofNat).getD (-1), srv.setFs fs') ∧
      Filed box (srv.setFs fs') published := by
  obtain ⟨⟨st, hidle, hpath, hfile⟩, hshort⟩ := h
  obtain ⟨fs', heq, hidle'⟩ := registerEntry_existing hidle hpath
  exact ⟨fs', heq, ⟨st, hidle', (hidle.hasPath_congr hidle' rfl).mpr hpath, hfile⟩, hshort⟩

theorem Filed.modifyBox (h : Filed box srv published) (index : Nat) (f : Box → Box) :
    Filed box (srv.modifyBox index f) published := ⟨h.file, h.short⟩

/-- The session publishes the message that it holds. -/
theorem Publishing.Holds.publish {c : Publishing} (h : c.Holds published held inPipe)
    (hphase : c.phase = .holding) {all : List CString} (hfiled : Filed box srv all) (index : Nat) :
    ∃ m c' srv', c.publish index box srv = some (m, c', srv') ∧ held = [m] ∧
      c'.Holds (published ++ [m]) [] inPipe ∧ Filed box srv' (all ++ [m]) ∧
      c'.input = c.input ∧ c'.stdin = c.stdin ∧ c'.writing = c.writing ∧
      ((joined all).length < tfsDefaultParams.blockSize → c'.phase = .reading) := by
  obtain ⟨_, m, rfl, behind, hbuffer⟩ | ⟨hno, _⟩ := h.held
  · have hlen := h.messageBuffer_length
    have hm : m.length < pSMessageSize := by
      rw [hbuffer] at hlen
      simp only [List.length_cons, List.length_append] at hlen
      rw [CString.length]
      omega
    have hextract : extract c.messageBuffer c.buffer =
        some ⟨m.terminated, m.terminated ++ c.buffer.drop (m.length + 1)⟩ := by
      rw [hbuffer, extract_eq_stored ⟨m, hm⟩ h.buffer_length, payload_eq]
      rfl
    obtain ⟨goesOn, srv', happend, hfiled', hgoes⟩ := hfiled.publish index hm
    have hmessage : CString.ofBuffer m.terminated = m := CString.ofBuffer_append_zero m []
    refine ⟨m, { c with
        phase := if goesOn then .reading else .returned
        buffer := m.terminated ++ c.buffer.drop (m.length + 1) }, srv', ?_, rfl,
      ⟨h.messageBuffer_length, ?_, Or.inr ⟨?_, rfl⟩, h.carries, ?_⟩, hfiled', rfl, rfl, rfl, ?_⟩
    · simp only [Publishing.publish, hphase, if_true, hextract, happend, Except.toOption,
        Option.bind_eq_bind, Option.bind_some, hmessage]
    · simp only [List.length_append, List.length_drop, h.buffer_length, length_terminated]
      omega
    · show (if goesOn then PublisherPhase.reading else .returned) ≠ .holding
      cases goesOn <;> decide
    · rw [h.order, List.append_assoc]
      rfl
    · intro hlt
      rw [hgoes hlt]
      rfl
  · exact absurd hphase hno

/-! ### Subscribers -/

theorem printed_concat (ms : List CString) (m : CString) :
    printed (ms ++ [m]) = printed ms ++ (m.bytes ++ [newline]) := by
  rw [printed, printed, List.flatMap_append, List.flatMap_cons, List.flatMap_nil, List.append_nil]

namespace Subscribing

variable {c c' : Subscribing}

theorem Holds.start (published : List CString) (arrays : Arrays) :
    (Subscribing.start arrays).Holds published 0 [] [] [] := by
  refine ⟨arrays.messageBuffer_length, arrays.buffer_length, fun _ => rfl, ?_, .start published,
    Or.inr ⟨?_, rfl⟩, fun _ => .nil, rfl, rfl⟩
  · intro _ h
    cases h
  · intro buffer h
    cases h

/-- What is printed are messages in their order, and only empty ones are missing between them. -/
theorem Holds.visible_out (h : c.Holds published k out inPipe pending) :
    out.Sublist published ∧ visible out <+: visible published := by
  have hout : out <+: out ++ (inPipe ++ pending) := List.prefix_append _ _
  constructor
  · exact hout.sublist.trans (h.upto.sublist.trans (List.take_sublist _ _))
  · refine (prefixOf_visible hout).trans ?_
    rw [h.upto.visible]
    exact prefixOf_visible (List.take_prefix _ _)

/-- What is published later does not matter to a session. -/
theorem Holds.publish (h : c.Holds published k out inPipe pending) (m : CString) :
    c.Holds (published ++ [m]) k out inPipe pending :=
  ⟨h.message_length, h.messageBuffer_length, h.path, h.phase, h.upto.publish m, h.pending,
    h.carries, h.stdout, h.messagesReceived⟩

/-- A pass finds the next message, or the end of the file, or that the client is gone. -/
theorem Holds.pass (h : c.Holds published k out inPipe pending) (hphase : c.phase = .polling)
    (hfiled : Filed box srv published) (index : Nat) (arrays : Arrays) :
    ∃ c' srv' k' pending', c.pass index box arrays srv = some (c', srv') ∧
      Filed box srv' published ∧ c'.Holds published k' out inPipe pending' ∧
      c'.reading = c.reading ∧ k ≤ k' ∧
      (c.path = true → k < (inFile published).length → k < k') := by
  obtain ⟨m, behind, hsending, _⟩ | ⟨hno, rfl⟩ := h.pending
  · rw [hsending] at hphase
    cases hphase
  obtain ⟨fs', hfile, hpass⟩ := hfiled.file.pass index c.bytesProcessed arrays.buffer_length
    (!c.path)
  have hshort := hfiled.short
  cases hpath : c.path with
  | false =>
    simp only [hpath, Bool.not_false, if_true] at hpass
    refine ⟨{ c with phase := .returned }, (srv.setFs fs').dropSubscriber index, k, [], ?_,
      ⟨hfile, hshort⟩, ?_, rfl, le_refl k, ?_⟩
    · simp only [Subscribing.pass, hphase, hpath, Bool.not_false, hpass, Option.bind_eq_bind,
        Option.bind_some]
    · refine ⟨h.message_length, h.messageBuffer_length, h.path, ?_, h.upto,
        Or.inr ⟨?_, rfl⟩, h.carries, h.stdout, h.messagesReceived⟩
      · intro htrue
        rw [hpath] at htrue
        cases htrue
      · intro buffer hs
        cases hs
    · intro htrue
      cases htrue
  | true =>
    obtain ⟨k', message, hfinds, hupto, hle, hlt⟩ := h.upto.pass
    generalize scanBytes c.bytesProcessed (boxFile published) 0 [] = r at hpass hfinds hupto
    rw [hpath] at hpass
    rw [List.append_nil, List.append_assoc] at hupto
    cases message with
    | none =>
      have hzero : r.bytesRead = 0 := hfinds
      simp only [hzero, ne_eq, not_true_eq_false, if_false, Bool.not_true, Bool.false_eq_true]
        at hpass
      refine ⟨{ c with bytesProcessed := r.count }, srv.setFs fs', k', [], ?_, ⟨hfile, hshort⟩,
        ⟨h.message_length, h.messageBuffer_length, h.path, h.phase, hupto, Or.inr ⟨hno, rfl⟩,
          h.carries, h.stdout, h.messagesReceived⟩, rfl, hle, fun _ => hlt⟩
      simp only [Subscribing.pass, hphase, hpath, Bool.not_true, hpass, Option.bind_eq_bind,
        Option.bind_some]
    | some m =>
      obtain ⟨hone, hbuffer⟩ := hfinds
      simp only [hone, ne_eq, one_ne_zero, not_false_eq_true, if_true, Bool.not_true,
        Bool.false_eq_true, if_false, hbuffer] at hpass
      have hmem : m ∈ published := by
        have hlast : m ∈ out ++ (inPipe ++ (some m).toList) := by simp
        exact List.mem_of_mem_take (hupto.sublist.subset hlast)
      refine ⟨{ c with
          bytesProcessed := r.count
          phase := .sending (m.terminated ++ arrays.buffer.drop m.terminated.length) },
        srv.setFs fs', k', [m], ?_, ⟨hfile, hshort⟩, ?_, rfl, hle, fun _ => hlt⟩
      · simp only [Subscribing.pass, hphase, hpath, Bool.not_true, hpass, Option.bind_eq_bind,
          Option.bind_some]
      · refine ⟨h.message_length, h.messageBuffer_length, h.path, fun _ hs => (by cases hs), hupto,
          Or.inl ?_, h.carries, h.stdout, h.messagesReceived⟩
        refine ⟨m, arrays.buffer.drop m.terminated.length, ?_, hshort m hmem, rfl⟩
        rw [CString.terminated, List.append_assoc]
        rfl

/-- What a session writes, to the pipe of a client that reads it. -/
theorem Holds.forward (h : c.Holds published k out inPipe pending) {buffer : List UInt8}
    (hphase : c.phase = .sending buffer) (capacity : Nat) (arrays : Arrays) :
    ∃ m record, pending = [m] ∧ record.length = pSMessageSize + 3 ∧ IsReply m record ∧
      c.forward capacity arrays =
        if c.reading = true then (Pipe.write capacity record c.pipe).map fun pipe =>
          some { c with pipe := pipe, phase := .polling }
        else some none := by
  obtain ⟨m, behind, hsending, hm, rfl⟩ | ⟨hno, _⟩ := h.pending
  · have hreply := createMessageIn_eq hm behind arrays.messageBuffer_length
    refine ⟨m, _, rfl, ?_, ⟨hm, rfl⟩, ?_⟩
    · simp only [List.length_cons, CString.length_padTo hm.le]
    · simp only [Subscribing.forward, hsending, hreply, Option.bind_eq_bind, Option.bind_some,
        Option.map_eq_bind, Function.comp_def]
  · exact absurd hphase (hno buffer)

/-- What was written is one more message in the pipe. -/
theorem Holds.forwarded {record pipe : List UInt8} (h : c.Holds published k out inPipe [m])
    (hreading : c.reading = true) (hlen : record.length = pSMessageSize + 3)
    (hm : IsReply m record) (hpipe : Pipe.write capacity record c.pipe = some pipe) :
    Subscribing.Holds { c with pipe := pipe, phase := .polling } published k out (inPipe ++ [m])
      [] := by
  refine ⟨h.message_length, h.messageBuffer_length, h.path, fun _ hs => (by cases hs), ?_,
    Or.inr ⟨fun _ hs => (by cases hs), rfl⟩, ?_, h.stdout, h.messagesReceived⟩
  · rw [List.append_nil]
    exact h.upto
  · intro _
    exact (h.carries hreading).write hm hlen hpipe

/-- The client prints the oldest message in its pipe. -/
theorem Holds.receive (h : c.Holds published k out inPipe pending) (hreading : c.reading = true)
    (hpipe : c.pipe ≠ []) :
    ∃ c' m inPipe', c.receive = some c' ∧ inPipe = m :: inPipe' ∧
      c'.Holds published k (out ++ [m]) inPipe' pending ∧ c'.reading = true ∧
      c'.phase = c.phase := by
  have hread : Pipe.read (pSMessageSize + 3) c.pipe =
      some (c.pipe.take (pSMessageSize + 3), c.pipe.drop (pSMessageSize + 3)) := if_neg hpipe
  obtain ⟨m, inPipe', rfl, ⟨hm, hgot⟩, hlen, hrest⟩ := (h.carries hreading).read hread
  have hmessage : readInto (c.pipe.take (pSMessageSize + 3)) c.message =
      c.pipe.take (pSMessageSize + 3) := by
    rw [readInto, hlen, List.drop_of_length_le h.message_length.le, List.append_nil]
  have hpad : (m.padTo pSMessageSize).length = pSMessageSize := CString.length_padTo hm.le
  have hsource : 0 + 3 + pSMessageSize ≤ (c.pipe.take (pSMessageSize + 3)).length := by
    rw [hlen]
    omega
  have hcopy := copyFrom_append c.messageBuffer List.length_nil h.messageBuffer_length.ge hsource
  have htext : ((c.pipe.take (pSMessageSize + 3)).drop (0 + 3)).take pSMessageSize =
      m.padTo pSMessageSize := by
    rw [hgot]
    exact List.take_of_length_le hpad.le
  rw [htext, List.drop_of_length_le h.messageBuffer_length.le, List.append_nil, List.nil_append,
    List.nil_append] at hcopy
  obtain ⟨n, hn⟩ : ∃ n, pSMessageSize - m.length = n + 1 :=
    ⟨pSMessageSize - m.length - 1, by omega⟩
  have hzero : m.padTo pSMessageSize = m.bytes ++ 0 :: List.replicate n 0 := by
    rw [CString.padTo, hn, List.replicate_succ]
  have hstrlen : strlen (m.padTo pSMessageSize) = some m.length := by
    rw [hzero]
    exact strlen_append_zero m _
  have htake : (m.padTo pSMessageSize).take m.length = m.bytes := by
    rw [hzero]
    exact List.take_left
  refine ⟨{ c with
      pipe := c.pipe.drop (pSMessageSize + 3), message := c.pipe.take (pSMessageSize + 3)
      messageBuffer := m.padTo pSMessageSize
      stdout := c.stdout ++ ((m.padTo pSMessageSize).take m.length ++ [newline])
      messagesReceived := c.messagesReceived + 1 },
    m, inPipe', ?_, rfl, ⟨hlen, hpad, h.path, h.phase, ?_, h.pending, fun _ => hrest, ?_, ?_⟩,
    hreading, rfl⟩
  · simp only [Subscribing.receive, hreading, if_true, hread, hmessage, hcopy, hstrlen,
      Option.bind_eq_bind, Option.bind_some]
  · rw [List.append_assoc]
    exact h.upto
  · show c.stdout ++ ((m.padTo pSMessageSize).take m.length ++ [newline]) = _
    rw [htake, h.stdout, printed_concat]
  · show c.messagesReceived + 1 = _
    rw [h.messagesReceived, List.length_append]
    rfl

/-! When the steps can be made. -/

theorem pass_eq_some {arrays : Arrays} {r : Subscribing × Server}
    (hs : c.pass index box arrays srv = some r) : c.phase = .polling := by
  cases hphase : c.phase with
  | polling => rfl
  | sending buffer => simp only [Subscribing.pass, hphase, reduceCtorEq] at hs
  | returned => simp only [Subscribing.pass, hphase, reduceCtorEq] at hs

theorem forward_eq_some {arrays : Arrays} {r : Option Subscribing}
    (hs : c.forward capacity arrays = some r) : ∃ buffer, c.phase = .sending buffer := by
  cases hphase : c.phase with
  | polling => simp only [Subscribing.forward, hphase, reduceCtorEq] at hs
  | sending buffer => exact ⟨buffer, rfl⟩
  | returned => simp only [Subscribing.forward, hphase, reduceCtorEq] at hs

theorem receive_eq_some (hs : c.receive = some c') : c.reading = true ∧ c.pipe ≠ [] := by
  obtain ⟨hreading, hrest⟩ := Option.ite_none_right_eq_some.mp hs
  obtain ⟨⟨got, rest⟩, hread, _⟩ := Option.bind_eq_some_iff.mp hrest
  exact ⟨hreading, (Pipe.read_eq_some.mp hread).1⟩

theorem Holds.interrupt (h : c.Holds published k out inPipe pending) (hs : c.interrupt = some c') :
    c'.Holds published k out inPipe pending := by
  obtain ⟨_, heq⟩ := Option.ite_none_right_eq_some.mp hs
  cases heq
  refine ⟨h.message_length, h.messageBuffer_length, ?_, h.phase, h.upto, h.pending, ?_, h.stdout,
    h.messagesReceived⟩
  · intro hreading
    cases hreading
  · intro hreading
    cases hreading

theorem Holds.unlink (h : c.Holds published k out inPipe pending) (hs : c.unlink = some c') :
    c'.Holds published k out inPipe pending := by
  obtain ⟨⟨hgone, _⟩, heq⟩ := Option.ite_none_right_eq_some.mp hs
  cases heq
  refine ⟨h.message_length, h.messageBuffer_length, ?_, ?_, h.upto, h.pending, h.carries, h.stdout,
    h.messagesReceived⟩
  · intro hreading
    rw [hgone] at hreading
    cases hreading
  · intro hpath
    cases hpath

end Subscribing

/-! ### Runs -/

theorem publishedBy_append (published published' : List (Nat × CString)) (p : Nat) :
    publishedBy (published ++ published') p =
      publishedBy published p ++ publishedBy published' p := by
  rw [publishedBy, publishedBy, publishedBy, List.filter_append, List.map_append]

theorem publishedBy_own (ms : List CString) (p : Nat) :
    publishedBy (ms.map (Prod.mk p)) p = ms := by
  have hall : ∀ m ∈ ms.map (Prod.mk p), decide (m.1 = p) = true := by
    intro m hm
    obtain ⟨_, _, rfl⟩ := List.mem_map.mp hm
    exact decide_eq_true rfl
  rw [publishedBy, List.filter_eq_self.mpr hall, List.map_map]
  exact List.map_id ms

theorem publishedBy_concat_self (published : List (Nat × CString)) (p : Nat) (m : CString) :
    publishedBy (published ++ [(p, m)]) p = publishedBy published p ++ [m] := by
  simp [publishedBy]

theorem publishedBy_concat_ne {p q : Nat} (published : List (Nat × CString)) (m : CString)
    (h : p ≠ q) : publishedBy (published ++ [(p, m)]) q = publishedBy published q := by
  simp [publishedBy, h]

/-- An entry of a table behind an update. -/
theorem update_cases {α : Type} {f : Nat → Option α} {i j : Nat} {x : α} {r : Option α}
    (h : Function.update f i (some x) j = r) : j = i ∧ r = some x ∨ j ≠ i ∧ f j = r := by
  by_cases heq : j = i
  · subst heq
    exact Or.inl ⟨rfl, h.symm.trans (Function.update_self ..)⟩
  · exact Or.inr ⟨heq, (Function.update_of_ne heq ..).symm.trans h⟩

namespace Pipeline

variable {s s' : Pipeline} {p t : Nat}

theorem Inv.setPublisher {c : Publishing} (h : s.Inv box)
    (hfiled : Filed box srv (s.published.map Prod.snd))
    (hc : ∃ own inPipe, c.Holds (publishedBy s.published p) own inPipe) :
    ((s.setServer srv).setPublisher p c).Inv box := by
  refine ⟨hfiled, ?_, ?_, h.subscriber⟩
  · intro q d hq
    change Function.update s.publishers p (some c) q = some d at hq
    obtain ⟨rfl, heq⟩ | ⟨_, hold⟩ := update_cases hq
    · cases heq
      exact hc
    · exact h.publisher hold
  · intro q hq
    change Function.update s.publishers p (some c) q = none at hq
    obtain ⟨_, heq⟩ | ⟨_, hold⟩ := update_cases hq
    · cases heq
    · exact h.absent hold

theorem Inv.setSubscriber {c : Subscribing} (h : s.Inv box)
    (hfiled : Filed box srv (s.published.map Prod.snd))
    (hc : ∃ k out inPipe pending, c.Holds (s.published.map Prod.snd) k out inPipe pending) :
    ((s.setServer srv).setSubscriber t c).Inv box := by
  refine ⟨hfiled, h.publisher, h.absent, ?_⟩
  intro u d hu
  change Function.update s.subscribers t (some c) u = some d at hu
  obtain ⟨rfl, heq⟩ | ⟨_, hold⟩ := update_cases hu
  · cases heq
    exact hc
  · exact h.subscriber hold

/-- A message that is published belongs to its publisher, and is new for every subscriber. -/
theorem Inv.publish {c : Publishing} {inPipe : List CString} (h : s.Inv box)
    (hfiled : Filed box srv (s.published.map Prod.snd ++ [m]))
    (hc : c.Holds (publishedBy s.published p ++ [m]) [] inPipe) :
    Inv box { (s.setServer srv).setPublisher p c with published := s.published ++ [(p, m)] } := by
  have hall : (s.published ++ [(p, m)]).map Prod.snd = s.published.map Prod.snd ++ [m] :=
    List.map_append
  refine ⟨?_, ?_, ?_, ?_⟩
  · show Filed box srv ((s.published ++ [(p, m)]).map Prod.snd)
    rw [hall]
    exact hfiled
  · intro q d hq
    change Function.update s.publishers p (some c) q = some d at hq
    show ∃ own inPipe, d.Holds (publishedBy (s.published ++ [(p, m)]) q) own inPipe
    obtain ⟨rfl, heq⟩ | ⟨hne, hold⟩ := update_cases hq
    · cases heq
      rw [publishedBy_concat_self]
      exact ⟨[], inPipe, hc⟩
    · rw [publishedBy_concat_ne _ _ hne.symm]
      exact h.publisher hold
  · intro q hq
    change Function.update s.publishers p (some c) q = none at hq
    show publishedBy (s.published ++ [(p, m)]) q = []
    obtain ⟨_, heq⟩ | ⟨hne, hold⟩ := update_cases hq
    · cases heq
    · rw [publishedBy_concat_ne _ _ hne.symm]
      exact h.absent hold
  · intro t d ht
    obtain ⟨k, out, inPipe, pending, hd⟩ := h.subscriber ht
    refine ⟨k, out, inPipe, pending, ?_⟩
    show d.Holds ((s.published ++ [(p, m)]).map Prod.snd) k out inPipe pending
    rw [hall]
    exact hd.publish m

theorem Inv.act {a : PipelineLabel} (h : s.Inv box) (hs : s.act capacity box index a = some s') :
    s'.Inv box := by
  cases a with
  | accept p input arrays =>
    obtain ⟨fs', hregister, hfiled⟩ := h.filed.register
    simp only [Pipeline.act, hregister, Except.toOption, Option.bind_eq_bind, Option.bind_some,
      Option.ite_none_right_eq_some, Option.some.injEq] at hs
    obtain ⟨⟨hnone, _⟩, rfl⟩ := hs
    refine h.setPublisher hfiled ⟨[], [], ?_⟩
    rw [h.absent hnone]
    exact .start input arrays
  | count p =>
    simp only [Pipeline.act, Option.bind_eq_bind, Option.bind_eq_some_iff,
      Option.ite_none_right_eq_some, Option.some.injEq] at hs
    obtain ⟨c, hc, hphase, rfl⟩ := hs
    obtain ⟨own, inPipe, hh⟩ := h.publisher hc
    refine h.setPublisher (h.filed.modifyBox index _) ⟨own, inPipe, hh.count hphase⟩
  | send p arrays =>
    simp only [Pipeline.act, Option.bind_eq_bind, Option.bind_eq_some_iff, Option.some.injEq] at hs
    obtain ⟨c, hc, c', hsend, rfl⟩ := hs
    obtain ⟨own, inPipe, hh⟩ := h.publisher hc
    obtain ⟨m, hh', _⟩ := hh.send hsend
    exact h.setPublisher h.filed ⟨own, _, hh'⟩
  | close p =>
    simp only [Pipeline.act, Option.bind_eq_bind, Option.bind_eq_some_iff, Option.some.injEq] at hs
    obtain ⟨c, hc, c', hclose, rfl⟩ := hs
    obtain ⟨own, inPipe, hh⟩ := h.publisher hc
    exact h.setPublisher h.filed ⟨own, inPipe, hh.close hclose⟩
  | read p =>
    simp only [Pipeline.act, Option.bind_eq_bind, Option.bind_eq_some_iff, Option.some.injEq] at hs
    obtain ⟨c, hc, c', hread, rfl⟩ := hs
    obtain ⟨own, inPipe, hh⟩ := h.publisher hc
    obtain ⟨m, inPipe', rfl, hh', _⟩ := hh.read hread
    exact h.setPublisher h.filed ⟨[m], inPipe', hh'⟩
  | finish p =>
    simp only [Pipeline.act, Option.bind_eq_bind, Option.bind_eq_some_iff, Option.some.injEq] at hs
    obtain ⟨c, hc, c', hfinish, rfl⟩ := hs
    obtain ⟨own, inPipe, hh⟩ := h.publisher hc
    exact h.setPublisher (h.filed.modifyBox index _) ⟨own, inPipe, hh.finish hfinish⟩
  | publish p =>
    simp only [Pipeline.act, Option.bind_eq_bind, Option.bind_eq_some_iff, Option.some.injEq,
      Prod.exists] at hs
    obtain ⟨c, hc, m, c', srv, hpublish, rfl⟩ := hs
    obtain ⟨own, inPipe, hh⟩ := h.publisher hc
    obtain ⟨m', c₁, srv₁, heq, _, hh', hfiled, _⟩ :=
      hh.publish (Option.ite_none_right_eq_some.mp hpublish).1 h.filed index
    rw [heq] at hpublish
    cases hpublish
    exact h.publish hfiled hh'
  | subscribe t arrays =>
    obtain ⟨fs', hregister, hfiled⟩ := h.filed.register
    simp only [Pipeline.act, hregister, Except.toOption, Option.bind_eq_bind, Option.bind_some,
      Option.ite_none_right_eq_some, Option.some.injEq] at hs
    obtain ⟨_, rfl⟩ := hs
    exact h.setSubscriber (hfiled.modifyBox index _) ⟨0, [], [], [], .start _ arrays⟩
  | pass t arrays =>
    simp only [Pipeline.act, Option.bind_eq_bind, Option.bind_eq_some_iff, Option.some.injEq,
      Prod.exists] at hs
    obtain ⟨c, hc, c', srv, hpass, rfl⟩ := hs
    obtain ⟨k, out, inPipe, pending, hh⟩ := h.subscriber hc
    obtain ⟨c₁, srv₁, k', pending', heq, hfiled, hh', _⟩ :=
      hh.pass (Subscribing.pass_eq_some hpass) h.filed index arrays
    rw [heq] at hpass
    cases hpass
    exact h.setSubscriber hfiled ⟨k', out, inPipe, pending', hh'⟩
  | forward t arrays =>
    simp only [Pipeline.act, Option.bind_eq_bind, Option.bind_eq_some_iff] at hs
    obtain ⟨c, hc, r, hforward, heq⟩ := hs
    obtain ⟨k, out, inPipe, pending, hh⟩ := h.subscriber hc
    obtain ⟨buffer, hphase⟩ := Subscribing.forward_eq_some hforward
    obtain ⟨m, record, rfl, hlen, hm, hresult⟩ := hh.forward hphase capacity arrays
    rw [hresult] at hforward
    by_cases hreading : c.reading = true
    · rw [if_pos hreading, Option.map_eq_some_iff] at hforward
      obtain ⟨pipe, hpipe, rfl⟩ := hforward
      cases heq
      exact h.setSubscriber h.filed ⟨k, out, _, [], hh.forwarded hreading hlen hm hpipe⟩
    · rw [if_neg hreading] at hforward
      cases hforward
      cases heq
      exact ⟨h.filed, h.publisher, h.absent, h.subscriber⟩
  | receive t =>
    simp only [Pipeline.act, Option.bind_eq_bind, Option.bind_eq_some_iff, Option.some.injEq] at hs
    obtain ⟨c, hc, c', hreceive, rfl⟩ := hs
    obtain ⟨k, out, inPipe, pending, hh⟩ := h.subscriber hc
    obtain ⟨hreading, hpipe⟩ := Subscribing.receive_eq_some hreceive
    obtain ⟨c₁, m, inPipe', heq, _, hh', _⟩ := hh.receive hreading hpipe
    rw [heq] at hreceive
    cases hreceive
    exact h.setSubscriber h.filed ⟨k, _, inPipe', pending, hh'⟩
  | interrupt t =>
    simp only [Pipeline.act, Option.bind_eq_bind, Option.bind_eq_some_iff, Option.some.injEq] at hs
    obtain ⟨c, hc, c', hinterrupt, rfl⟩ := hs
    obtain ⟨k, out, inPipe, pending, hh⟩ := h.subscriber hc
    exact h.setSubscriber h.filed ⟨k, out, inPipe, pending, hh.interrupt hinterrupt⟩
  | unlink t =>
    simp only [Pipeline.act, Option.bind_eq_bind, Option.bind_eq_some_iff, Option.some.injEq] at hs
    obtain ⟨c, hc, c', hunlink, rfl⟩ := hs
    obtain ⟨k, out, inPipe, pending, hh⟩ := h.subscriber hc
    exact h.setSubscriber h.filed ⟨k, out, inPipe, pending, hh.unlink hunlink⟩
  | other other a =>
    simp only [Pipeline.act, Option.ite_none_right_eq_some, Option.map_eq_some_iff] at hs
    obtain ⟨hne, srv, hperform, rfl⟩ := hs
    have hok : a.perform s.server other = .ok srv := by
      cases hresult : a.perform s.server other with
      | error fault =>
        rw [hresult] at hperform
        cases hperform
      | ok srv' =>
        rw [hresult] at hperform
        exact congrArg _ (Option.some.inj hperform)
    exact ⟨⟨h.filed.file.of_other hne hok, h.filed.short⟩, h.publisher, h.absent, h.subscriber⟩

theorem Inv.step {a : PipelineLabel} (h : s.Inv box)
    (hs : step capacity box index s a = some s') : s'.Inv box :=
  h.act (Option.ite_none_right_eq_some.mp hs).2

theorem inv_initial (h : Delivery.HoldsFile box srv []) : (Pipeline.initial srv).Inv box := by
  refine ⟨⟨h, ?_⟩, ?_, ?_, ?_⟩
  · intro m hm
    cases hm
  · intro p c hc
    cases hc
  · intro p _
    rfl
  · intro t c hc
    cases hc

theorem inv_of_reaches (h : Delivery.HoldsFile box srv [])
    (hs : Reaches (step capacity box index) anyStep (.initial srv) s) : s.Inv box := by
  refine hs.invariant (inv_initial h) ?_
  intro u a v hu _ hv
  exact hu.step hv

end Pipeline

end MessageBroker.Broker
