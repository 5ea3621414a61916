import MessageBroker.Clients.Register
import MessageBroker.Lib.Buffer

/-!
# Messages of a publisher

`create_message` of `pub.c`: the code, a separator, the input line up to its end,
and terminators. The buffer that is written to the pipe of the session is one byte
longer than what is filled.
-/

namespace MessageBroker.Clients

open Buffer

/-- The two functions `create_message`, one in `pub.c` and one in `mbroker.c`, as they run: a code
of two bytes and the separator, a text up to the index `limit`, and terminators behind it. -/
def writeMessage (a b : UInt8) (stop : UInt8 → Bool) (limit : Nat) (message buffer : List UInt8) :
    Option (List UInt8) := do
  let buffer ← put buffer 0 a
  let buffer ← put buffer 1 b
  let buffer ← put buffer 2 separator
  let (_, buffer) ← (copyUntil stop limit message 3 buffer).bind
    fun (i, buffer) => fillTo 0 (limit + 1) i buffer
  some buffer

theorem writeMessage_eq {stop : UInt8 → Bool} {limit : Nat} {e : UInt8}
    {text buffer : List UInt8} (a b : UInt8) (behind : List UInt8)
    (htext : ∀ c ∈ text, stop c = false) (hend : stop e = true) (hle : 3 ≤ limit)
    (hfits : limit + 1 ≤ buffer.length) :
    writeMessage a b stop limit (text ++ e :: behind) buffer =
      some (a :: b :: separator :: (text.take (limit - 3) ++
        List.replicate (limit + 1 - 3 - (text.take (limit - 3)).length) 0) ++
          buffer.drop (limit + 1)) := by
  obtain ⟨x, y, z, rest, rfl⟩ : ∃ x y z rest, buffer = x :: y :: z :: rest := by
    match buffer, hle.trans (Nat.le_of_succ_le hfits) with
    | x :: y :: z :: rest, _ => exact ⟨x, y, z, rest, rfl⟩
  have h0 : put (x :: y :: z :: rest) 0 a = some (a :: y :: z :: rest) :=
    put_append List.length_nil a x (y :: z :: rest)
  have h1 : put (a :: y :: z :: rest) 1 b = some (a :: b :: z :: rest) :=
    put_append List.length_singleton b y (z :: rest)
  have htwo : [a, b].length = 2 := rfl
  have h2 : put (a :: b :: z :: rest) 2 separator = some (a :: b :: separator :: rest) :=
    put_append htwo separator z rest
  have hthree : [a, b, separator].length = 3 := rfl
  have hroom : limit + 1 ≤ 3 + rest.length := by
    simp only [List.length_cons] at hfits
    omega
  have hloops := copyUntil_fillTo behind 0 htext hend hthree hle hroom
  have hdrop : (x :: y :: z :: rest).drop (limit + 1) = rest.drop (limit + 1 - 3) := by
    obtain ⟨n, rfl⟩ : ∃ n, limit = n + 3 := ⟨limit - 3, by omega⟩
    rfl
  simp only [writeMessage, h0, h1, h2, Option.bind_eq_bind, Option.bind_some]
  rw [hdrop]
  exact congrArg (Option.bind · fun x => some x.2) hloops

end MessageBroker.Clients

namespace MessageBroker.Clients.Publisher

open Buffer

/-- The bytes of the input line that the first loop of `create_message` copies. -/
def lineBytes (line : CString) : List UInt8 :=
  (line.bytes.takeWhile (· ≠ '\n'.toUInt8)).take (pSMessageSize + 1 - 3)

/-- `create_message` of `pub.c`, with the last byte of `message_buffer`, which it leaves alone. -/
def createMessage (line : CString) (stale : UInt8) : List UInt8 :=
  '0'.toUInt8 :: '9'.toUInt8 :: separator :: (lineBytes line ++
    List.replicate (pSMessageSize + 2 - 3 - (lineBytes line).length) 0 ++ [stale])

theorem lineBytes_ne_zero {line : CString} {c : UInt8} (h : c ∈ lineBytes line) : c ≠ 0 :=
  line.nul_free c (List.takeWhile_subset _ (List.mem_of_mem_take h))

theorem length_lineBytes_lt (line : CString) : (lineBytes line).length < pSMessageSize := by
  have hle : (lineBytes line).length ≤ pSMessageSize + 1 - 3 := List.length_take_le _ _
  have hlt : pSMessageSize + 1 - 3 < pSMessageSize := by decide
  omega

/-- The whole of `message_buffer` is filled but for its last byte. -/
theorem length_createMessage (line : CString) (stale : UInt8) :
    (createMessage line stale).length = pSMessageSize + 3 := by
  have hle : (lineBytes line).length ≤ pSMessageSize + 1 - 3 := List.length_take_le _ _
  simp only [createMessage, List.length_cons, List.length_append, List.length_replicate,
    List.length_nil, pSMessageSize] at hle ⊢
  omega

/-! ### The message in its buffer -/

/-- `create_message` of `pub.c` as it runs, in a `message_buffer` that holds anything. -/
def createMessageIn (line : CString) : List UInt8 → Option (List UInt8) :=
  writeMessage '0'.toUInt8 '9'.toUInt8 (fun c => c == '\n'.toUInt8 || c == 0) (pSMessageSize + 1)
    line.terminated

/-- The first loop stops at a newline or at the terminator. -/
theorem terminated_eq (line : CString) :
    ∃ (e : UInt8) (behind : List UInt8), (e == '\n'.toUInt8 || e == 0) = true ∧
      line.terminated = line.bytes.takeWhile (· ≠ '\n'.toUInt8) ++ e :: behind := by
  have hsplit := List.takeWhile_append_dropWhile (p := (· ≠ '\n'.toUInt8)) (l := line.bytes)
  have hhead := List.head?_dropWhile_not (· ≠ '\n'.toUInt8) line.bytes
  generalize line.bytes.takeWhile (· ≠ '\n'.toUInt8) = text at hsplit ⊢
  cases hrest : line.bytes.dropWhile (· ≠ '\n'.toUInt8) with
  | nil =>
    rw [hrest, List.append_nil] at hsplit
    refine ⟨0, [], rfl, ?_⟩
    rw [hsplit]
    rfl
  | cons e behind =>
    rw [hrest] at hhead hsplit
    have hnewline : e = '\n'.toUInt8 := by simpa using hhead
    refine ⟨e, behind ++ [0], by rw [hnewline]; rfl, ?_⟩
    rw [CString.terminated, ← hsplit, List.append_assoc, List.cons_append]

/-- It leaves only the last byte of the buffer alone. -/
theorem createMessageIn_eq (line : CString) {buffer : List UInt8}
    (hlen : buffer.length = pSMessageSize + 3) :
    ∃ stale, createMessageIn line buffer = some (createMessage line stale) := by
  obtain ⟨stale, hstale⟩ : ∃ stale, buffer.drop (pSMessageSize + 1 + 1) = [stale] := by
    apply List.length_eq_one_iff.mp
    rw [List.length_drop, hlen]
    rfl
  obtain ⟨e, behind, hend, hline⟩ := terminated_eq line
  have htext : ∀ c ∈ line.bytes.takeWhile (· ≠ '\n'.toUInt8),
      (c == '\n'.toUInt8 || c == 0) = false := by
    intro c hc
    have hzero : c ≠ 0 := line.nul_free c (List.takeWhile_subset _ hc)
    have hnewline : c ≠ '\n'.toUInt8 := by simpa using List.mem_takeWhile_imp hc
    simp [hzero, hnewline]
  have hfits : pSMessageSize + 1 + 1 ≤ buffer.length := by rw [hlen]; decide
  refine ⟨stale, ?_⟩
  rw [createMessageIn, hline, writeMessage_eq _ _ behind htext hend (by decide) hfits, hstale]
  rfl

end MessageBroker.Clients.Publisher
