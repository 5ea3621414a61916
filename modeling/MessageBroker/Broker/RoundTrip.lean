import MessageBroker.Broker.Chunks
import MessageBroker.Broker.Whole

/-!
# A message from input to output

The way of one input line through the three programs, with the arrays of all of them:
`create_message` of the publisher, the extraction and the storage in `start_publisher`,
the scan of the file in `start_subscriber`, `create_message` of the broker and the
output of the subscriber. The publisher copies one byte less than the longest line of
`fgets` has, and every other stage has room for what it is given.
-/

namespace MessageBroker.Broker

open Bytes Buffer Table Transition Tfs Tfs.Fs
open Clients.Publisher (lineBytes createMessage)

/-- What `fgets` can store in `buffer_input`: at least one byte and its terminator, and a newline
only at the end. -/
structure InputLine where
  line : CString
  nonempty : 0 < line.length
  fits : line.length < pSMessageSize
  newline_last : ∀ c ∈ line.bytes.dropLast, c ≠ '\n'.toUInt8

/-- The line without its trailing newline. -/
def InputLine.content (s : InputLine) : List UInt8 :=
  if s.line.bytes.getLast? = some '\n'.toUInt8 then s.line.bytes.dropLast else s.line.bytes

/-- The body of the read loop of `start_publisher` for the bytes passed to `tfs_write`. -/
def appendMessage (srv : Server) (index : Nat) (box : BoxName) (bytes : List UInt8) :
    Except Fault (Bool × Server) := do
  let (fhandle, fs) ← srv.fs.tfsOpen (some box.name) { append := true }
  let srv := srv.setFs fs
  if fhandle < 0 then
    .ok (false, srv.modifyBox index fun b => { b with nPublishers := b.nPublishers - 1 })
  else do
    let (written, fs) ← srv.fs.tfsWrite fhandle (store (fun _ => 0) 0 bytes) bytes.length
    let srv := srv.setFs fs
    if written ≤ 0 then do
      let (_, fs) ← srv.fs.tfsClose fhandle
      .ok (false, srv.setFs fs)
    else do
      let srv := srv.modifyBox index fun b => { b with size := b.size + .ofNat written.toNat }
      let (closed, fs) ← srv.fs.tfsClose fhandle
      .ok (decide (closed = 0), srv.setFs fs)

/-- The inner loop of `start_subscriber` on its array, whose next free index is `i`. -/
def scanIn (fhandle : Int) (bytesProcessed : Nat) :
    Nat → Nat → Nat → List UInt8 → Fs → Option (Scan × Fs)
  | 0, _, _, _, _ => none
  | fuel + 1, count, i, buffer, fs => do
    let ((bytesRead, bytes), fs) ← (fs.tfsRead fhandle 1).toOption
    let auxChar := bytes.headD 0
    let count := count + 1
    if bytesRead ≤ 0 then some (⟨count, buffer, bytesRead⟩, fs)
    else if bytesProcessed ≤ count then
      if auxChar = 0 ∧ bytesProcessed < count then do
        let buffer ← put buffer i auxChar
        some (⟨count, buffer, bytesRead⟩, fs)
      else if auxChar ≠ 0 then do
        let buffer ← put buffer i auxChar
        scanIn fhandle bytesProcessed fuel count (i + 1) buffer fs
      else scanIn fhandle bytesProcessed fuel count i buffer fs
    else scanIn fhandle bytesProcessed fuel count i buffer fs

/-- The first pass of the outer loop of `start_subscriber`, up to the buffer that is passed to
`create_message`, for a session whose client is there and a box that has a message. -/
def firstPass (srv : Server) (box : BoxName) (buffer : List UInt8) : Option (List UInt8) := do
  let (fhandle, fs) ← (srv.fs.tfsOpen (some box.name) {}).toOption
  if fhandle < 0 then none
  else do
    let (result, fs) ← scanIn fhandle 0 (fs.blockSize + 1) 0 0 buffer fs
    let (closed, _) ← (fs.tfsClose fhandle).toOption
    if result.bytesRead ≤ 0 ∨ closed ≠ 0 then none else some result.buffer

/-- `create_message` of `mbroker.c`. -/
def createMessageIn (message : List UInt8) : List UInt8 → Option (List UInt8) :=
  Clients.writeMessage '1'.toUInt8 '0'.toUInt8 (· == 0) (pSMessageSize + 2) message

/-- The body of the loop of `sub.c` for a message that was read: the string that is printed. -/
def printMessage (message messageBuffer : List UInt8) : Option (List UInt8) := do
  let messageBuffer ← copyFrom message 3 pSMessageSize 0 messageBuffer
  let len ← strlen messageBuffer
  some (messageBuffer.take len)

/-- The arrays of the publisher, of its session, of the session of the subscriber and of the
subscriber. -/
structure Programs where
  pub : Arrays
  publisher : Arrays
  subscriber : Arrays
  sub : Arrays

/-- The string that the subscriber prints for a line, if every stage succeeds and stays in its
arrays. Both sessions register before they use the box. -/
def deliver (srv : Server) (box : BoxName) (programs : Programs) (s : InputLine) :
    Option (List UInt8) := do
  let (index, srv) ← (registerEntry srv box).toOption
  let message ← Clients.Publisher.createMessageIn s.line programs.pub.messageBuffer
  let extraction ← extract (readInto message programs.publisher.messageBuffer)
    programs.publisher.buffer
  let (goesOn, srv) ← (appendMessage srv index.toNat box extraction.payload).toOption
  let (started, srv) ← (registerEntry srv box).toOption
  if goesOn = false ∨ index < 0 ∨ started < 0 then none
  else do
    let buffer ← firstPass srv box programs.subscriber.buffer
    let reply ← createMessageIn buffer programs.subscriber.messageBuffer
    printMessage (readInto reply programs.sub.messageBuffer) programs.sub.buffer

/-- The line comes out without its newline, whatever the arrays held. -/
def LineRoundTrips (srv : Server) (box : BoxName) (s : InputLine) : Prop :=
  ∀ programs, deliver srv box programs s = some s.content

variable {srv : Server} {fs fs' : Fs} {box : BoxName} {text : Text} {s : InputLine}

/-! ### The stages -/

theorem InputLine.takeWhile_eq (s : InputLine) :
    s.line.bytes.takeWhile (· ≠ '\n'.toUInt8) = s.content := by
  have hne : s.line.bytes ≠ [] := List.length_pos_iff.mp s.nonempty
  have hinit : ∀ c ∈ s.line.bytes.dropLast, decide (c ≠ '\n'.toUInt8) = true :=
    fun c hc => decide_eq_true (s.newline_last c hc)
  have hsplit := List.dropLast_append_getLast hne
  rw [InputLine.content, List.getLast?_eq_some_getLast hne]
  by_cases hlast : s.line.bytes.getLast hne = '\n'.toUInt8
  · rw [if_pos (congrArg some hlast)]
    rw [hlast] at hsplit
    conv_lhs => rw [← hsplit]
    rw [List.takeWhile_append_of_pos hinit]
    simp
  · rw [if_neg (fun h => hlast (Option.some.inj h)), List.takeWhile_eq_self_iff]
    intro c hc
    rw [← hsplit] at hc
    rcases List.mem_append.mp hc with hmem | hmem
    · exact hinit c hmem
    · rw [List.mem_singleton.mp hmem]
      exact decide_eq_true hlast

theorem appendMessage_payload (srv : Server) (index : Nat) (box : BoxName) (text : Text) :
    appendMessage srv index box (payload text) = publish srv index box text := rfl

/-- The loop on its array stores what the loop without it collects, as long as this fits. -/
theorem scanIn_of_scan {fhandle : Int} {bytesProcessed fuel count : Nat} {collected : List UInt8}
    {r : Scan} (h : scan fhandle bytesProcessed fuel count collected fs = .ok (some r, fs')) :
    ∃ new, r.buffer = collected ++ new ∧ ∀ rest : List UInt8, new.length ≤ rest.length →
      scanIn fhandle bytesProcessed fuel count collected.length (collected ++ rest) fs =
        some (⟨r.count, r.buffer ++ rest.drop new.length, r.bytesRead⟩, fs') := by
  induction fuel generalizing count collected fs with
  | zero => cases h
  | succ fuel ih =>
    cases hread : fs.tfsRead fhandle 1 with
    | error fault =>
      rw [scan, hread] at h
      cases h
    | ok result =>
      obtain ⟨⟨bytesRead, bytes⟩, fs₁⟩ := result
      simp only [scan, hread, ok_bind] at h
      simp only [scanIn, hread, Except.toOption, Option.bind_eq_bind, Option.bind_some]
      generalize bytes.headD 0 = auxChar at h ⊢
      by_cases hend : bytesRead ≤ 0
      · rw [if_pos hend] at h
        cases h
        exact ⟨[], (List.append_nil _).symm, fun rest _ => by simp [hend]⟩
      · simp only [hend, if_false] at h ⊢
        by_cases hle : bytesProcessed ≤ count + 1
        · simp only [hle, if_true] at h ⊢
          by_cases hstop : auxChar = 0 ∧ bytesProcessed < count + 1
          · rw [if_pos hstop] at h
            cases h
            refine ⟨[auxChar], rfl, fun rest hrest => ?_⟩
            rw [if_pos hstop, put_end rfl auxChar hrest]
            rfl
          · rw [if_neg hstop] at h
            by_cases hc : auxChar ≠ 0
            · rw [if_pos hc] at h
              obtain ⟨new, hnew, hscan⟩ := ih h
              refine ⟨auxChar :: new, by rw [hnew]; simp, fun rest hrest => ?_⟩
              have hlen : (collected ++ [auxChar]).length = collected.length + 1 := by simp
              have hfits : new.length ≤ (rest.drop 1).length := by
                simp only [List.length_cons, List.length_drop] at hrest ⊢
                omega
              have hpos : 0 < rest.length := lt_of_lt_of_le (Nat.succ_pos _) hrest
              -- the stored byte belongs to what the rest of the loop finds collected
              rw [if_neg hstop, if_pos hc, put_end rfl auxChar hpos, Option.bind_some, ← hlen,
                hscan _ hfits, List.drop_drop, Nat.add_comm]
              rfl
            · rw [if_neg hc] at h
              obtain ⟨new, hnew, hscan⟩ := ih h
              refine ⟨new, hnew, fun rest hrest => ?_⟩
              rw [if_neg hstop, if_neg hc, hscan rest hrest]
        · simp only [hle, if_false] at h ⊢
          exact ih h

/-- An update of a slot that leaves its name leaves what the search for a name finds. -/
theorem findBox_modifyBox (f : Box → Box) (index : Nat) (name : CString)
    (hname : ∀ b, (f b).name = b.name) :
    (srv.modifyBox index f).findBox name = srv.findBox name := by
  have hsame : (fun i => decide (((srv.modifyBox index f).boxes i).name = name)) =
      fun i => decide ((srv.boxes i).name = name) := by
    funext i
    by_cases hi : i = index
    · subst hi
      simp [Server.modifyBox, Server.setBox, hname]
    · simp [Server.modifyBox, Server.setBox, Function.update_of_ne hi]
  exact congrArg (firstIndex · srv.maxSessions) hsame

/-- A registration changes neither the slots nor the file of the box. -/
theorem Delivery.HoldsFile.register {published : List Text} {index : Nat}
    (h : HoldsFile box srv published) (hbox : srv.findBox box.name = some index) :
    ∃ fs', registerEntry srv box = .ok ((index : Int), srv.setFs fs') ∧
      HoldsFile box (srv.setFs fs') published := by
  obtain ⟨st, hidle, hpath, hfile⟩ := h
  obtain ⟨fs', hregister, hidle'⟩ := registerEntry_existing hidle hpath
  rw [hbox] at hregister
  exact ⟨fs', hregister, st, hidle', (hidle.hasPath_congr hidle' rfl).mpr hpath, hfile⟩

/-- The first pass finds the only message, and stores it with its terminator. -/
theorem firstPass_eq (h : Delivery.HoldsFile box srv [text]) {buffer : List UInt8}
    (hbuffer : buffer.length = pSMessageSize) :
    firstPass srv box buffer =
      some (text.text.bytes ++ 0 :: buffer.drop (text.text.length + 1)) := by
  obtain ⟨st, hidle, hpath, hfile⟩ := h
  obtain ⟨fs₁, fs₂, fs₃, hopen, hscan, hclose, _⟩ := hidle.scan hpath 0
  have hcontents : st.contents box.name.tail = text.text.bytes ++ 0 :: [] := by
    rw [hfile, ← payload_eq]
    exact List.append_nil _
  have hmessage := scanBytes_message text.text.bytes [] 0 [] text.text.nul_free (Nat.zero_le 1)
    fun _ => le_rfl
  rw [hcontents, hmessage] at hscan
  obtain ⟨new, hnew, hin⟩ := scanIn_of_scan hscan
  obtain rfl : new = text.text.bytes ++ [0] := hnew.symm
  have hlen : (text.text.bytes ++ [0]).length = text.text.length + 1 := by
    rw [List.length_append]
    rfl
  have hfits := text.fits
  have hloop := hin buffer (by rw [hlen, hbuffer]; exact hfits)
  have hstored : text.text.bytes ++ [0] ++ buffer.drop (text.text.length + 1) =
      text.text.bytes ++ 0 :: buffer.drop (text.text.length + 1) := by
    rw [List.append_assoc]
    rfl
  have hloop' : scanIn 0 0 (fs₁.blockSize + 1) 0 0 buffer fs₁ =
      some (⟨0 + text.text.bytes.length + 1,
        text.text.bytes ++ 0 :: buffer.drop (text.text.length + 1), 1⟩, fs₂) := by
    rw [← hstored, ← hlen]
    exact hloop
  simp only [firstPass, hopen, hloop', hclose, Except.toOption, Option.bind_eq_bind,
    Option.bind_some]
  rfl

theorem createMessageIn_eq {message : CString} (hle : message.length < pSMessageSize)
    (behind : List UInt8) {buffer : List UInt8} (hlen : buffer.length = pSMessageSize + 3) :
    createMessageIn (message.bytes ++ 0 :: behind) buffer =
      some ('1'.toUInt8 :: '0'.toUInt8 :: Clients.separator :: message.padTo pSMessageSize) := by
  have htext : ∀ c ∈ message.bytes, (c == 0) = false := by simpa using message.nul_free
  have hdrop : buffer.drop (pSMessageSize + 2 + 1) = [] := List.drop_of_length_le hlen.le
  have htake : message.bytes.take (pSMessageSize + 2 - 3) = message.bytes :=
    List.take_of_length_le (Nat.le_of_lt_succ hle)
  rw [createMessageIn, Clients.writeMessage_eq _ _ behind htext rfl (by decide) hlen.ge, hdrop,
    htake, List.append_nil]
  rfl

theorem printMessage_eq {message : CString} (hle : message.length < pSMessageSize) (a b c : UInt8)
    {buffer : List UInt8} (hlen : buffer.length = pSMessageSize) :
    printMessage (a :: b :: c :: message.padTo pSMessageSize) buffer = some message.bytes := by
  obtain ⟨k, hk⟩ : ∃ k, pSMessageSize - message.length = k + 1 :=
    ⟨pSMessageSize - message.length - 1, by omega⟩
  have hpad : (message.padTo pSMessageSize).length = pSMessageSize := CString.length_padTo hle.le
  have hsource : 0 + 3 + pSMessageSize ≤ (a :: b :: c :: message.padTo pSMessageSize).length := by
    simp only [List.length_cons, hpad]
    omega
  have hcopy := copyFrom_append buffer List.length_nil hlen.ge hsource
  have htext : ((a :: b :: c :: message.padTo pSMessageSize).drop (0 + 3)).take pSMessageSize =
      message.bytes ++ 0 :: List.replicate k 0 := by
    show (message.padTo pSMessageSize).take pSMessageSize = _
    rw [List.take_of_length_le hpad.le, CString.padTo, hk, List.replicate_succ]
  rw [htext, List.drop_of_length_le hlen.le, List.append_nil, List.nil_append,
    List.nil_append] at hcopy
  rw [printMessage, hcopy, Option.bind_eq_bind, Option.bind_some, strlen_append_zero]
  exact congrArg some List.take_left

/-- The session finds the text of the line in what the publisher sends. -/
theorem extract_createMessage (line : CString) (stale : UInt8) {old buffer : List UInt8}
    (hold : old.length = pSMessageSize + 3) (hbuffer : buffer.length = pSMessageSize) :
    ∃ after, extract (readInto (createMessage line stale) old) buffer =
      some ⟨payload (lineText line), after⟩ := by
  have hread : readInto (createMessage line stale) old = createMessage line stale := by
    rw [readInto, Clients.Publisher.length_createMessage, List.drop_of_length_le hold.le,
      List.append_nil]
  obtain ⟨behind, hshape⟩ := createMessage_shape line stale
  rw [hread, hshape, extract_eq_stored (lineText line) hbuffer]
  exact ⟨_, rfl⟩

/-! ### The whole way -/

/-- What comes out is the line up to a newline, cut to the bytes that the publisher copies. -/
theorem deliver_eq {index : Nat} (h : Delivery.HoldsFile box srv [])
    (hbox : srv.findBox box.name = some index) (programs : Programs) (s : InputLine) :
    deliver srv box programs s = some (lineBytes s.line) := by
  obtain ⟨pub, publisher, subscriber, sub⟩ := programs
  have hfits := (lineText s.line).fits
  -- the publisher registers and sends its message
  obtain ⟨fs₁, hregister, hholds₁⟩ := h.register hbox
  obtain ⟨stale, hmessage⟩ := Clients.Publisher.createMessageIn_eq s.line pub.messageBuffer_length
  -- the session stores the text behind nothing
  obtain ⟨after, hextract⟩ := extract_createMessage s.line stale publisher.messageBuffer_length
    publisher.buffer_length
  have hlen : (Delivery.file ([] ++ [lineText s.line])).length ≤ tfsDefaultParams.blockSize := by
    show (payload (lineText s.line) ++ []).length ≤ pSMessageSize
    rw [List.append_nil, length_payload]
    exact hfits
  obtain ⟨fs₂, happend, hholds₂⟩ := hholds₁.publish index (lineText s.line) hlen
  rw [← appendMessage_payload] at happend
  -- the subscriber registers, and its session finds the text and sends it
  obtain ⟨srv₂, hsrv₂, hfile, hbox₂⟩ : ∃ srv₂, appendMessage (srv.setFs fs₁) index box
      (payload (lineText s.line)) = .ok (true, srv₂) ∧
        Delivery.HoldsFile box srv₂ [lineText s.line] ∧ srv₂.findBox box.name = some index :=
    ⟨_, happend, hholds₂, (findBox_modifyBox _ index box.name (by exact fun _ => rfl)).trans hbox⟩
  obtain ⟨fs₃, hregister', hholds₃⟩ := hfile.register hbox₂
  have hpass := firstPass_eq hholds₃ subscriber.buffer_length
  have hreply := createMessageIn_eq hfits
    (subscriber.buffer.drop ((lineText s.line).text.length + 1)) subscriber.messageBuffer_length
  have hread : readInto ('1'.toUInt8 :: '0'.toUInt8 :: Clients.separator ::
      (lineText s.line).text.padTo pSMessageSize) sub.messageBuffer =
        '1'.toUInt8 :: '0'.toUInt8 :: Clients.separator ::
          (lineText s.line).text.padTo pSMessageSize := by
    have hsize : sub.messageBuffer.length ≤ ('1'.toUInt8 :: '0'.toUInt8 :: Clients.separator ::
        (lineText s.line).text.padTo pSMessageSize).length := by
      simp only [List.length_cons, CString.length_padTo hfits.le, sub.messageBuffer_length, le_refl]
    rw [readInto, List.drop_of_length_le hsize, List.append_nil]
  have hprint := printMessage_eq hfits '1'.toUInt8 '0'.toUInt8 Clients.separator sub.buffer_length
  simp only [deliver, hregister, hmessage, hextract, Int.toNat_natCast, hsrv₂, hregister',
    Except.toOption, Option.bind_eq_bind, Option.bind_some, hpass, hreply, hread, hprint]
  rw [if_neg]
  · rfl
  · rintro (hfalse | hneg | hneg)
    · cases hfalse
    · exact absurd hneg (Int.natCast_nonneg index).not_gt
    · exact absurd hneg (Int.natCast_nonneg index).not_gt

/-- The publisher copies all but a line of the full length without a newline. -/
theorem lineBytes_eq_content_iff (s : InputLine) :
    lineBytes s.line = s.content ↔
      (s.line.length = pSMessageSize - 1 → s.line.bytes.getLast? = some '\n'.toUInt8) := by
  have hcut : lineBytes s.line = s.content.take (pSMessageSize - 2) :=
    congrArg (List.take (pSMessageSize - 2)) s.takeWhile_eq
  have hwhole : lineBytes s.line = s.content ↔ s.content.length ≤ pSMessageSize - 2 := by
    rw [hcut]
    exact List.take_eq_self_iff ..
  have hfits : s.line.bytes.length < pSMessageSize := s.fits
  have hsize : pSMessageSize = 1024 := rfl
  rw [hwhole, InputLine.content, CString.length]
  by_cases hlast : s.line.bytes.getLast? = some '\n'.toUInt8
  · have hle : s.line.bytes.length - 1 ≤ pSMessageSize - 2 := by omega
    simpa only [hlast, if_true, List.length_dropLast, implies_true, iff_true] using hle
  · simp only [hlast, if_false, imp_false]
    omega

/-- A line that is published to an empty box and read by a session that starts afterwards comes
out whole if and only if it is not a line of the full length without a newline. -/
theorem lineRoundTrips_iff {index : Nat} (h : Delivery.HoldsFile box srv [])
    (hbox : srv.findBox box.name = some index) (s : InputLine) :
    LineRoundTrips srv box s ↔
      (s.line.length = pSMessageSize - 1 → s.line.bytes.getLast? = some '\n'.toUInt8) := by
  rw [← lineBytes_eq_content_iff]
  constructor
  · intro hround
    have hout := hround ⟨zeroArrays, zeroArrays, zeroArrays, zeroArrays⟩
    rw [deliver_eq h hbox] at hout
    exact Option.some.inj hout
  · intro hsame programs
    rw [deliver_eq h hbox, hsame]

/-- A line of `n` letters. -/
def letters (n : Nat) (hpos : 0 < n) (hlt : n < pSMessageSize) : InputLine where
  line := ⟨List.replicate n 97, fun c hc => by rw [List.eq_of_mem_replicate hc]; decide⟩
  nonempty := by rwa [CString.length, List.length_replicate]
  fits := by rwa [CString.length, List.length_replicate]
  newline_last c hc := by
    rw [List.eq_of_mem_replicate (List.mem_of_mem_dropLast hc)]
    decide

/-- The first box of a new broker is empty and has its slot. -/
theorem createdBox_findBox :
    ∃ srv answer, createBox (startedServer 2) pipeM boxA = .ok (answer, srv) ∧
      Delivery.HoldsFile boxA srv [] ∧ srv.findBox boxA.name = some 0 := by
  obtain ⟨srv, heq, hs, _, _, hbox, _⟩ := createBox_started (show 2 ≠ 0 by decide)
  have hpresent : Present (FileStore.empty.create boxA.name.tail) boxA.name :=
    (present_create (by decide)).mpr (Or.inl rfl)
  exact ⟨srv, _, heq, ⟨_, hs.idle, (hasPath_iff hs.idle.refines).mpr hpresent, by decide⟩, hbox⟩

theorem fiveLetters_roundTrips :
    ∃ srv answer, createBox (startedServer 2) pipeM boxA = .ok (answer, srv) ∧
      LineRoundTrips srv boxA (letters 5 (by decide) (by decide)) := by
  obtain ⟨srv, answer, heq, hfile, hbox⟩ := createdBox_findBox
  exact ⟨srv, answer, heq, (lineRoundTrips_iff hfile hbox _).mpr fun h => absurd h (by decide)⟩

/-- The last letter of a line of the full length is lost. -/
theorem fullLine_not_roundTrips :
    ∃ srv answer, createBox (startedServer 2) pipeM boxA = .ok (answer, srv) ∧
      ¬ LineRoundTrips srv boxA (letters 1023 (by decide) (by decide)) := by
  obtain ⟨srv, answer, heq, hfile, hbox⟩ := createdBox_findBox
  refine ⟨srv, answer, heq, fun hround => ?_⟩
  have hout := hround ⟨zeroArrays, zeroArrays, zeroArrays, zeroArrays⟩
  rw [deliver_eq hfile hbox] at hout
  have hsame := (lineBytes_eq_content_iff _).mp (Option.some.inj hout) List.length_replicate
  have hlast : (List.replicate 1023 (97 : UInt8)).getLast? = some 97 := by
    rw [List.getLast?_replicate]
    rfl
  exact absurd (hlast.symm.trans hsame) (by decide)

end MessageBroker.Broker
