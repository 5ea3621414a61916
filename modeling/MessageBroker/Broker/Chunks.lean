import MessageBroker.Broker.Publish
import MessageBroker.Lib.Buffer

/-!
# Chunks of a publisher

What `start_publisher` does with the bytes that a `read` of the client's pipe returns.
`message_buffer` is reused and nothing terminates it, so `strlen` goes on into older
bytes when the chunk has no terminator, and its result less two wraps when the
terminator comes too early. A chunk is handled well exactly if it has a terminator and
the first one is behind its first three bytes.
-/

namespace MessageBroker.Broker

open Bytes Buffer Tfs

/-- The bytes that one `read` returns, at most the size of `message_buffer`. -/
structure Chunk where
  bytes : List UInt8
  nonempty : 0 < bytes.length
  fits : bytes.length ≤ pSMessageSize + 3

/-- The arrays of a session, with whatever they hold. -/
structure Arrays where
  messageBuffer : List UInt8
  buffer : List UInt8
  messageBuffer_length : messageBuffer.length = pSMessageSize + 3
  buffer_length : buffer.length = pSMessageSize

/-- `message_buffer` behind a `read`. -/
def readInto (chunk old : List UInt8) : List UInt8 := chunk ++ old.drop chunk.length

/-- The bytes passed to `tfs_write`, and `buffer` as it is left. -/
structure Extraction where
  payload : List UInt8
  buffer : List UInt8

/-- The copy of `stringlen` bytes to `buffer`, the terminator and the read of `tfs_write`. The
counter of the loop is an `int`, but `buffer` ends long before it could overflow. -/
def copyMessage (messageBuffer buffer : List UInt8) (stringlen : Nat) : Option Extraction := do
  let buffer ← copyFrom messageBuffer 3 stringlen 0 buffer
  let buffer ← put buffer (sizeSub stringlen 1) 0
  if stringlen ≤ buffer.length then some ⟨buffer.take stringlen, buffer⟩ else none

/-- The part of `start_publisher` between the `tfs_open` and the return of `tfs_write`. -/
def extract (messageBuffer buffer : List UInt8) : Option Extraction := do
  let len ← strlen messageBuffer
  copyMessage messageBuffer buffer (sizeSub len 2)

/-- The indices of `message_buffer` that `strlen`, when it returns `len`, and the loop read. -/
def ReadsAt (len i : Nat) : Prop := i ≤ len ∨ 3 ≤ i ∧ i < 3 + sizeSub len 2

/-- A chunk is taken out of the arrays without leaving them, the length does not wrap, no byte
behind the chunk is read, and the bytes written do not depend on what the arrays held. -/
structure Handled (chunk : Chunk) (old buffer : List UInt8) (e : Extraction) : Prop where
  inBounds : extract (readInto chunk.bytes old) buffer = some e
  length : ∃ len, strlen (readInto chunk.bytes old) = some len ∧ 2 ≤ len ∧
    ∀ i, ReadsAt len i → i < chunk.bytes.length
  independent : ∀ a : Arrays, ∃ e',
    extract (readInto chunk.bytes a.messageBuffer) a.buffer = some e' ∧ e'.payload = e.payload

/-- Each chunk of a session is handled, in the arrays that the chunks before it have left. -/
def HandledAll : List Chunk → List UInt8 → List UInt8 → Prop
  | [], _, _ => True
  | chunk :: chunks, old, buffer => ∃ e, Handled chunk old buffer e ∧
    HandledAll chunks (readInto chunk.bytes old) e.buffer

/-- The first terminator of the chunk is behind the code and the separator. -/
def Chunk.Terminated (chunk : Chunk) : Prop := ∃ len, strlen chunk.bytes = some len ∧ 3 ≤ len

variable {chunk : Chunk} {old buffer : List UInt8} {e : Extraction} {s : CString}
  {behind : List UInt8}

theorem sizeSub_two {len : Nat} (h : 2 ≤ len) (hlt : len < sizeRange) :
    sizeSub len 2 = len - 2 := by
  rw [sizeSub, sizeRange] at *
  omega

theorem length_readInto (h : chunk.bytes.length ≤ old.length) :
    (readInto chunk.bytes old).length = old.length := by
  rw [readInto, List.length_append, List.length_drop]
  omega

/-- The copy of a text of `n` bytes with the terminator behind it. -/
theorem copyMessage_eq {text : List UInt8} {n : Nat} (hn : text.length = n)
    (hfits : n + 1 ≤ buffer.length) (hbuffer : buffer.length = pSMessageSize)
    (head : List UInt8) (hhead : head.length = 3) :
    copyMessage (head ++ text ++ 0 :: behind) buffer (n + 1) =
      some ⟨text ++ [0], text ++ [0] ++ buffer.drop (n + 1)⟩ := by
  have hlast : sizeSub (n + 1) 1 = n := by
    rw [hbuffer] at hfits
    simp only [pSMessageSize] at hfits
    rw [sizeSub, sizeRange]
    omega
  have hsource : 0 + 3 + (n + 1) ≤ (head ++ text ++ 0 :: behind).length := by
    rw [List.length_append, List.length_append, List.length_cons]
    omega
  have hcopy := copyFrom_append buffer List.length_nil hfits hsource
  -- behind the head stand the text and its terminator
  have htext : ((head ++ text ++ 0 :: behind).drop (0 + 3)).take (n + 1) = text ++ [0] := by
    have hthree : 0 + 3 = head.length := hhead.symm
    rw [hthree, List.append_assoc, List.drop_left, List.take_append, hn,
      List.take_of_length_le (by omega), Nat.add_sub_cancel_left]
    rfl
  rw [htext, List.nil_append, List.nil_append] at hcopy
  have hsplit : text ++ [0] ++ buffer.drop (n + 1) = text ++ 0 :: buffer.drop (n + 1) := by simp
  have hlen : (text ++ [0]).length = n + 1 := by rw [List.length_append, hn]; rfl
  have hroom : n + 1 ≤ (text ++ [0] ++ buffer.drop (n + 1)).length := by
    rw [List.length_append, hlen]
    exact Nat.le_add_right _ _
  rw [copyMessage, hcopy, Option.bind_eq_bind, Option.bind_some, hlast, hsplit, put_append hn,
    ← hsplit, Option.bind_some, if_pos hroom, List.take_left' hlen]

/-- A terminated message is copied with its terminator. -/
theorem extract_terminated (hlow : 3 ≤ s.length) (hfits : s.length - 2 ≤ buffer.length)
    (hbuffer : buffer.length = pSMessageSize) :
    extract (s.bytes ++ 0 :: behind) buffer = some ⟨s.bytes.drop 3 ++ [0],
      s.bytes.drop 3 ++ [0] ++ buffer.drop (s.length - 2)⟩ := by
  have hsize : sizeSub s.length 2 = s.length - 2 := by
    apply sizeSub_two (by omega)
    rw [hbuffer] at hfits
    simp only [pSMessageSize, sizeRange] at hfits ⊢
    omega
  obtain ⟨n, hn⟩ : ∃ n, s.length = n + 3 := ⟨s.length - 3, by omega⟩
  have hcount : s.length - 2 = n + 1 := by omega
  have hhead : (s.bytes.take 3).length = 3 := List.length_take_of_le hlow
  have htext : (s.bytes.drop 3).length = n := by
    rw [List.length_drop, ← CString.length, hn, Nat.add_sub_cancel]
  have hcopy : copyMessage (s.bytes.take 3 ++ s.bytes.drop 3 ++ 0 :: behind) buffer (n + 1) = _ :=
    copyMessage_eq htext (hcount ▸ hfits) hbuffer _ hhead
  rw [List.take_append_drop] at hcopy
  rw [extract, strlen_append_zero, Option.bind_eq_bind, Option.bind_some, hsize, hcount, hcopy]

/-- The bytes are those of the model without arrays. -/
theorem extract_eq_stored (text : Text) (hbuffer : buffer.length = pSMessageSize) :
    extract ('0'.toUInt8 :: '9'.toUInt8 :: Clients.separator :: (text.text.bytes ++ 0 :: behind))
        buffer =
      some ⟨payload text, payload text ++ buffer.drop (text.text.length + 1)⟩ := by
  let line : CString := ⟨'0'.toUInt8 :: '9'.toUInt8 :: Clients.separator :: text.text.bytes, by
    have hsep : '0'.toUInt8 ≠ 0 ∧ '9'.toUInt8 ≠ 0 ∧ Clients.separator ≠ 0 := by decide
    simpa [hsep] using text.text.nul_free⟩
  have hline : line.length = text.text.length + 3 := rfl
  have hfits := text.fits
  have heq : extract (line.bytes ++ 0 :: behind) buffer = _ :=
    extract_terminated (by omega) (by rw [hline, hbuffer]; omega) hbuffer
  rw [payload_eq]
  exact heq

/-- With a terminator too early the length wraps, or the terminator of the copy would be stored
in front of `buffer`. -/
theorem extract_early {messageBuffer : List UInt8} {len : Nat}
    (hlen : strlen messageBuffer = some len) (hearly : len < 3)
    (hbuffer : buffer.length = pSMessageSize) : extract messageBuffer buffer = none := by
  have hwrapped : ∀ n, pSMessageSize < n → copyMessage messageBuffer buffer n = none := by
    intro n hn
    have hlt : buffer.length < 0 + n := by omega
    have hcopy := copyFrom_of_lt messageBuffer 3 (Nat.zero_le _) hlt
    rw [copyMessage, hcopy]
    rfl
  have hcases : len = 0 ∨ len = 1 ∨ len = 2 := by omega
  rw [extract, hlen, Option.bind_eq_bind, Option.bind_some]
  obtain rfl | rfl | rfl := hcases
  · exact hwrapped _ (by decide)
  · exact hwrapped _ (by decide)
  · have hput : put buffer (sizeSub 0 1) 0 = none := put_of_le (by rw [hbuffer]; decide)
    have hzero : sizeSub 2 2 = 0 := by decide
    rw [hzero, copyMessage, copyFrom, Option.bind_eq_bind, Option.bind_some, hput]
    rfl

/-- What an extraction that stays in the arrays has done. -/
theorem extract_cases {messageBuffer : List UInt8}
    (hmessage : messageBuffer.length = pSMessageSize + 3) (hbuffer : buffer.length = pSMessageSize)
    (h : extract messageBuffer buffer = some e) :
    ∃ (s : CString) (behind : List UInt8), messageBuffer = s.bytes ++ 0 :: behind ∧
      3 ≤ s.length ∧ e = ⟨s.bytes.drop 3 ++ [0],
        s.bytes.drop 3 ++ [0] ++ buffer.drop (s.length - 2)⟩ := by
  cases hlen : strlen messageBuffer with
  | none =>
    rw [extract, hlen] at h
    cases h
  | some len =>
    by_cases hlow : 3 ≤ len
    · obtain ⟨s, behind, rfl, rfl⟩ := strlen_eq_some_iff.mp hlen
      have hfits : s.length - 2 ≤ buffer.length := by
        rw [List.length_append, List.length_cons] at hmessage
        rw [CString.length]
        omega
      rw [extract_terminated hlow hfits hbuffer] at h
      exact ⟨s, behind, rfl, hlow, (Option.some.inj h).symm⟩
    · rw [extract_early hlen (not_le.mp hlow) hbuffer] at h
      cases h

theorem length_extract {messageBuffer : List UInt8}
    (hmessage : messageBuffer.length = pSMessageSize + 3) (hbuffer : buffer.length = pSMessageSize)
    (h : extract messageBuffer buffer = some e) : e.buffer.length = pSMessageSize := by
  obtain ⟨s, behind, rfl, hlow, rfl⟩ := extract_cases hmessage hbuffer h
  simp only [List.length_append, List.length_cons, List.length_drop, List.length_nil] at hmessage ⊢
  rw [CString.length] at *
  omega

/-- The extraction from a chunk with its own terminator. -/
theorem extract_readInto (hchunk : chunk.bytes = s.bytes ++ 0 :: behind) (hlow : 3 ≤ s.length)
    (hbuffer : buffer.length = pSMessageSize) :
    extract (readInto chunk.bytes old) buffer = some ⟨s.bytes.drop 3 ++ [0],
      s.bytes.drop 3 ++ [0] ++ buffer.drop (s.length - 2)⟩ := by
  have hfits := chunk.fits
  rw [hchunk, List.length_append, List.length_cons] at hfits
  have hroom : s.length - 2 ≤ buffer.length := by
    rw [CString.length]
    omega
  rw [readInto, hchunk, List.append_assoc, List.cons_append]
  exact extract_terminated hlow hroom hbuffer

theorem Chunk.Terminated.handled (h : chunk.Terminated) (old : List UInt8)
    (hbuffer : buffer.length = pSMessageSize) :
    ∃ e, Handled chunk old buffer e := by
  obtain ⟨len, hlen, hlow⟩ := h
  obtain ⟨s, behind, rfl, hchunk⟩ := strlen_eq_some_iff.mp hlen
  refine ⟨_, extract_readInto hchunk hlow hbuffer, ?_, ?_⟩
  · refine ⟨s.length, strlen_append hlen _, by omega, ?_⟩
    have hfits := chunk.fits
    have hlt : s.length < chunk.bytes.length := by
      rw [hchunk, List.length_append, List.length_cons]
      rw [CString.length]
      omega
    have hsize : sizeSub s.length 2 = s.length - 2 := by
      apply sizeSub_two (by omega)
      simp only [pSMessageSize, sizeRange] at hfits ⊢
      omega
    intro i hi
    rw [ReadsAt, hsize] at hi
    omega
  · intro a
    exact ⟨_, extract_readInto hchunk hlow a.buffer_length, rfl⟩

theorem Handled.terminated (h : Handled chunk old buffer e)
    (hbuffer : buffer.length = pSMessageSize) : chunk.Terminated := by
  obtain ⟨len, hlen, _, hreads⟩ := h.length
  refine ⟨len, strlen_of_append hlen (hreads len (Or.inl le_rfl)), ?_⟩
  by_contra hearly
  have hnone := extract_early hlen (not_le.mp hearly) hbuffer
  rw [h.inBounds] at hnone
  cases hnone

/-- A session handles the chunks that it receives exactly if each of them has a terminator behind
its first three bytes, whatever its arrays hold at the start. -/
theorem handledAll_iff (a : Arrays) (chunks : List Chunk) :
    HandledAll chunks a.messageBuffer a.buffer ↔ ∀ chunk ∈ chunks, chunk.Terminated := by
  obtain ⟨old, buffer, hold, hbuffer⟩ := a
  show HandledAll chunks old buffer ↔ _
  induction chunks generalizing old buffer with
  | nil => simp [HandledAll]
  | cons chunk chunks ih =>
    have hread : (readInto chunk.bytes old).length = pSMessageSize + 3 :=
      (length_readInto (hold.symm ▸ chunk.fits)).trans hold
    rw [HandledAll, List.forall_mem_cons]
    constructor
    · rintro ⟨e, h, hrest⟩
      have he := length_extract hread hbuffer h.inBounds
      exact ⟨h.terminated hbuffer, (ih _ _ hread he).mp hrest⟩
    · rintro ⟨hterminated, hrest⟩
      obtain ⟨e, h⟩ := hterminated.handled old hbuffer
      have he := length_extract hread hbuffer h.inBounds
      exact ⟨e, h, (ih _ _ hread he).mpr hrest⟩

/-- A chunk that begins with a terminator. -/
def emptyChunk : Chunk := ⟨[0], by decide, by decide⟩

def zeroArrays : Arrays :=
  ⟨List.replicate (pSMessageSize + 3) 0, List.replicate pSMessageSize 0, List.length_replicate,
    List.length_replicate⟩

/-- The length wraps to `SIZE_MAX - 1`, and the copy leaves `buffer`. -/
theorem emptyChunk_not_handled :
    ¬ HandledAll [emptyChunk] zeroArrays.messageBuffer zeroArrays.buffer := by
  rintro ⟨e, h, _⟩
  obtain ⟨len, hlen, hlow, _⟩ := h.length
  have hzero : strlen (readInto emptyChunk.bytes zeroArrays.messageBuffer) = some 0 :=
    strlen_append_zero .empty _
  rw [hzero] at hlen
  cases hlen
  omega

end MessageBroker.Broker
