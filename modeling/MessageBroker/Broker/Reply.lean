import MessageBroker.Clients.Register
import MessageBroker.Lib.Buffer

/-!
# The reply to a create or remove request

`send_message_manager` of the broker and the read loop of the manager. The broker pads the
message in an array of its own, but writes the size of that array from the message itself. The
manager decides when a turn of its loop finds the end of the pipe, by a variable that this turn
has declared and not read.
-/

namespace MessageBroker.Broker

open Bytes Buffer
open Clients (separator)

/-! ### The broker -/

/-- A message as the broker has them, shorter than `ERROR_MESSAGE_SIZE`. -/
structure ErrorMessage where
  text : CString
  fits : text.length < errorMessageSize

/-- `strcpy` from one object to another. -/
def strcpy (dst src : List UInt8) : Option (List UInt8) :=
  (strlen src).bind fun n => copyFrom src 0 (n + 1) 0 dst

/-- The bytes that a `write` takes from an object. -/
def writeFrom (object : List UInt8) (n : Nat) : Option (List UInt8) :=
  if n ≤ object.length then some (object.take n) else none

/-- Whether the calls on the pipe of the client succeed; `written` is about the last `write`. -/
structure PipeCalls where
  opened : Bool
  written : Bool
  closed : Bool

/-- The end of `send_message_manager`, with the bytes in the pipe. -/
inductive Sending
  | notOpened
  /-- `error_message` is printed. -/
  | notWritten (printed : CString)
  | notClosed (reply : List UInt8)
  | sent (reply : List UInt8)

def Sending.ret : Sending → Int
  | sent _ => 0
  | notOpened | notWritten _ | notClosed _ => -1

/-- `message` is the object that the message stands at the start of, `stale` the array
`error_message` before it is filled. -/
def sendMessageManager (calls : PipeCalls) (operation : UInt8) (code : Int32)
    (message stale : List UInt8) : Option Sending :=
  if ¬ calls.opened then some .notOpened
  else do
    let i ← strlen message
    let errorMessage ← strcpy stale message
    let (_, errorMessage) ← fillTo 0 errorMessageSize i errorMessage
    let field ← writeFrom message errorMessageSize
    if ¬ calls.written then some (.notWritten (.ofBuffer errorMessage))
    else
      let reply := operation :: separator :: (int32Bytes code.toInt ++ separator :: field)
      some (if calls.closed then .sent reply else .notClosed reply)

/-- The reply with the padded message. -/
def paddedReply (operation : UInt8) (code : Int32) (m : ErrorMessage) : List UInt8 :=
  operation :: separator :: (int32Bytes code.toInt ++ separator :: m.text.padTo errorMessageSize)

/-- Whatever stands behind the message, nothing of it is used and the message is sent padded. -/
def SendsPadded (code : Int32) (m : ErrorMessage) : Prop :=
  ∀ operation stale behind, stale.length = errorMessageSize →
    sendMessageManager ⟨true, true, true⟩ operation code (m.text.bytes ++ 0 :: behind) stale =
      some (.sent (paddedReply operation code m))

/-! ### The manager -/

/-- What the manager prints. -/
inductive Verdict
  | ok
  | error (text : CString)
  /-- `error_message` has no terminator. -/
  | overread
deriving DecidableEq

def verdict (returnCode errorMessage : Memory) : Verdict :=
  if int32OfBytes (load returnCode 0 4) = 0 then .ok
  else if 0 ∈ load errorMessage 0 errorMessageSize then
    .error (.ofBuffer (load errorMessage 0 errorMessageSize))
  else .overread

/-- The read loop on a pipe that holds the bytes `fifo` and has no writer any more. A turn reads
the opcode, a separator, the code, a separator and the message; `frames` are its `return_code`
before that. -/
def replyLoop (frames : Nat → Memory) (turn : Nat) (errorMessage : Memory) (fifo : List UInt8) :
    Verdict :=
  let returnCode := store (frames turn) 0 ((fifo.drop 2).take 4)
  let field := (fifo.drop 7).take errorMessageSize
  let errorMessage := store errorMessage 0 field
  if field.length = 0 then verdict returnCode errorMessage
  else replyLoop frames (turn + 1) errorMessage ((fifo.drop 7).drop errorMessageSize)
termination_by fifo.length
decreasing_by
  have hfield : field.length = min errorMessageSize (fifo.length - 7) := by
    rw [List.length_take, List.length_drop]
  simp only [List.length_drop, errorMessageSize] at *
  omega

/-- What the manager should print. -/
def expected (code : Int32) (m : ErrorMessage) : Verdict :=
  if code = 0 then .ok else .error m.text

/-- Whatever its variables hold before they are read, the manager prints what was sent. -/
def PrintsReply (code : Int32) (m : ErrorMessage) : Prop :=
  ∀ operation frames errorMessage,
    replyLoop frames 0 errorMessage (paddedReply operation code m) = expected code m

/-- One reply makes its way: the message is sent padded, and the manager prints it. -/
structure ReplyRoundTrips (code : Int32) (m : ErrorMessage) : Prop where
  sends : SendsPadded code m
  prints : PrintsReply code m

/-! ### What is sent -/

section Sender

variable {operation : UInt8} {code : Int32} {m : ErrorMessage} {stale behind : List UInt8}

/-- The message is copied to `error_message` and padded there. -/
theorem errorMessage_eq (hlen : stale.length = errorMessageSize) :
    ∃ errorMessage, strcpy stale (m.text.bytes ++ 0 :: behind) = some errorMessage ∧
      fillTo 0 errorMessageSize m.text.length errorMessage =
        some (errorMessageSize, m.text.padTo errorMessageSize) := by
  have hfits := m.fits
  have hcopy : copyFrom (m.text.bytes ++ 0 :: behind) 0 (m.text.length + 1) 0 ([] ++ stale) =
      some ([] ++ ((m.text.bytes ++ 0 :: behind).drop 0).take (m.text.length + 1) ++
        stale.drop (m.text.length + 1)) := by
    refine copyFrom_append stale rfl (by omega) ?_
    simp [CString.length]
  have htake : (m.text.bytes ++ 0 :: behind).take (m.text.length + 1) = m.text.bytes ++ [0] := by
    rw [List.append_cons]
    exact List.take_left' (by simp [CString.length])
  rw [List.nil_append, List.nil_append, List.drop_zero, htake, List.append_assoc] at hcopy
  refine ⟨_, (congrArg (Option.bind · _) (strlen_append_zero m.text behind)).trans hcopy, ?_⟩
  have hroom : (0 :: stale.drop (m.text.length + 1)).length = errorMessageSize - m.text.length := by
    rw [List.length_cons, List.length_drop, hlen]
    omega
  have hdone : m.text.length + (errorMessageSize - m.text.length) = errorMessageSize := by omega
  have hfill : fill 0 (errorMessageSize - m.text.length) m.text.length
      (m.text.bytes ++ 0 :: stale.drop (m.text.length + 1)) = _ := fill_append rfl hroom.ge
  rw [List.drop_eq_nil_of_le hroom.le, List.append_nil, hdone] at hfill
  exact hfill

/-- The array is written from the message: its size, whatever the object is. -/
theorem sendMessageManager_eq (hlen : stale.length = errorMessageSize) :
    sendMessageManager ⟨true, true, true⟩ operation code (m.text.bytes ++ 0 :: behind) stale =
      (writeFrom (m.text.bytes ++ 0 :: behind) errorMessageSize).map fun field =>
        .sent (operation :: separator :: (int32Bytes code.toInt ++ separator :: field)) := by
  obtain ⟨errorMessage, hcopy, hfill⟩ := @errorMessage_eq m stale behind hlen
  simp only [sendMessageManager, not_true_eq_false, if_false, if_true, strlen_append_zero,
    Option.bind_eq_bind, Option.bind_some, hcopy, hfill]
  cases writeFrom (m.text.bytes ++ 0 :: behind) errorMessageSize with
  | none => rfl
  | some field => rfl

/-- Only a message that fills `error_message` with its terminator is sent as it should be. -/
theorem sendsPadded_iff : SendsPadded code m ↔ m.text.length + 1 = errorMessageSize := by
  have hfits := m.fits
  constructor
  · intro h
    have hstale := List.length_replicate (n := errorMessageSize) (a := (0 : UInt8))
    have hsent := h 0 _ [] hstale
    rw [sendMessageManager_eq hstale] at hsent
    obtain ⟨field, hfield, _⟩ := Option.map_eq_some_iff.mp hsent
    obtain ⟨hle, _⟩ := Option.ite_none_right_eq_some.mp hfield
    rw [List.length_append, List.length_singleton, ← CString.length] at hle
    omega
  · intro hlen operation stale behind hstale
    have hsplit : m.text.bytes ++ 0 :: behind = m.text.padTo errorMessageSize ++ behind := by
      rw [CString.padTo, ← hlen, Nat.add_sub_cancel_left]
      exact List.append_cons ..
    have hpadded := CString.length_padTo hfits.le
    rw [sendMessageManager_eq hstale, hsplit, writeFrom, if_pos (by simp [hpadded]),
      List.take_left' hpadded]
    rfl

end Sender

/-! ### What is printed -/

section Manager

variable {operation : UInt8} {code : Int32} {m : ErrorMessage} {frames : Nat → Memory}
  {turn : Nat} {errorMessage : Memory}

theorem store_nil (mem : Memory) (addr : Nat) : store mem addr [] = mem := by
  funext a
  obtain h | h := Nat.lt_or_ge a addr
  · exact store_of_lt h
  · exact store_of_ge h

/-- The turn that finds the end of the pipe decides by a `return_code` that it has not read. -/
theorem replyLoop_nil :
    replyLoop frames turn errorMessage [] = verdict (frames turn) errorMessage := by
  rw [replyLoop]
  simp only [List.drop_nil, List.take_nil, List.length_nil, if_true, store_nil]

/-- The turn that reads the reply keeps only the message. -/
theorem replyLoop_paddedReply :
    replyLoop frames turn errorMessage (paddedReply operation code m) =
      verdict (frames (turn + 1)) (store errorMessage 0 (m.text.padTo errorMessageSize)) := by
  have hpadded := CString.length_padTo m.fits.le
  have hdrop : (paddedReply operation code m).drop 7 = m.text.padTo errorMessageSize := by
    have hheader : (int32Bytes code.toInt ++ [separator]).length = 5 := by simp
    rw [paddedReply, List.append_cons]
    exact List.drop_left' hheader
  have htake : (m.text.padTo errorMessageSize).take errorMessageSize =
      m.text.padTo errorMessageSize := List.take_of_length_le hpadded.le
  have hnonempty : ¬ errorMessageSize = 0 := by decide
  rw [replyLoop]
  rw [hdrop, htake, hpadded, if_neg hnonempty, List.drop_eq_nil_of_le hpadded.le, replyLoop_nil]

theorem verdict_padded (returnCode : Memory) :
    verdict returnCode (store errorMessage 0 (m.text.padTo errorMessageSize)) =
      if int32OfBytes (load returnCode 0 4) = 0 then .ok else .error m.text := by
  have hpadded := CString.length_padTo m.fits.le
  have hload := load_store_self errorMessage 0 (m.text.padTo errorMessageSize)
  rw [hpadded] at hload
  obtain ⟨n, hn⟩ : ∃ n, errorMessageSize - m.text.length = n + 1 :=
    ⟨errorMessageSize - m.text.length - 1, by have := m.fits; omega⟩
  have hcons : m.text.padTo errorMessageSize = m.text.bytes ++ 0 :: List.replicate n 0 := by
    rw [CString.padTo, hn]
    rfl
  have hmem : 0 ∈ m.text.padTo errorMessageSize := by
    rw [hcons]
    exact List.mem_append_right _ List.mem_cons_self
  rw [verdict, hload, if_pos hmem, hcons, CString.ofBuffer_append_zero]

/-- The manager prints what was sent when the variable that it has not read happens to agree. -/
theorem replyLoop_eq_expected_iff :
    replyLoop frames 0 errorMessage (paddedReply operation code m) = expected code m ↔
      (int32OfBytes (load (frames 1) 0 4) = 0 ↔ code = 0) := by
  rw [replyLoop_paddedReply, verdict_padded, expected]
  by_cases hframe : int32OfBytes (load (frames 1) 0 4) = 0 <;> by_cases hcode : code = 0 <;>
    simp [hframe, hcode]

/-- Memory that holds an `int` other than the code's success or failure. -/
def otherCode (code : Int32) : Memory := fun addr => if code = 0 ∧ addr = 0 then 1 else 0

theorem not_printsReply : ¬ PrintsReply code m := by
  intro h
  have hiff := replyLoop_eq_expected_iff.mp (h 0 (fun _ => otherCode code) (otherCode code))
  by_cases hcode : code = 0
  · have hload : int32OfBytes (load (otherCode code) 0 4) = 1 := by
      rw [hcode]
      decide
    rw [hload] at hiff
    exact absurd (hiff.mpr hcode) (by decide)
  · have hload : int32OfBytes (load (otherCode code) 0 4) = 0 := by
      have hzero : otherCode code = fun _ => 0 := by
        funext addr
        exact if_neg fun hand => hcode hand.1
      rw [hzero]
      decide
    exact hcode (hiff.mp hload)

end Manager

/-- No reply makes the round trip. The sender does its part only for messages that leave no room
for padding; the manager does when the `return_code` that it has not read agrees with the code. -/
theorem reply_not_roundTrips (code : Int32) (m : ErrorMessage) :
    ¬ ReplyRoundTrips code m ∧ (SendsPadded code m ↔ m.text.length + 1 = errorMessageSize) ∧
      ∀ operation frames errorMessage,
        replyLoop frames 0 errorMessage (paddedReply operation code m) = expected code m ↔
          (int32OfBytes (load (frames 1) 0 4) = 0 ↔ code = 0) :=
  ⟨fun h => not_printsReply h.prints, sendsPadded_iff, fun _ _ _ => replyLoop_eq_expected_iff⟩

/-- The message of a successful request. -/
def noMessage : ErrorMessage := ⟨.empty, by decide⟩

/-- The array is written from a string of one byte. -/
theorem noMessage_not_roundTrips : ¬ ReplyRoundTrips 0 noMessage := by
  intro h
  have hstale := List.length_replicate (n := errorMessageSize) (a := (0 : UInt8))
  have hsent := h.sends opCodeBoxCreateR _ [] hstale
  have hbeyond : writeFrom (noMessage.text.bytes ++ [0]) errorMessageSize = none :=
    if_neg (by decide)
  rw [sendMessageManager_eq hstale, hbeyond] at hsent
  cases hsent

end MessageBroker.Broker
