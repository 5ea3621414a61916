import MessageBroker.Broker.Boxes
import MessageBroker.Broker.Publish

/-!
# Delivery to subscribers

One pass of the outer loop of `start_subscriber` reads the file of the box from its
start, byte by byte, and counts the reads. What was forwarded before is skipped by
comparing the count with `bytes_processed`, which is the number of bytes forwarded,
or one more if the last pass ended at the end of the file. Every pass forwards the
next message, if there is one.
-/

namespace MessageBroker.Broker

open Bytes Transition Tfs Tfs.Fs

/-- The reads that a scan has made, the bytes that it has stored in `buffer` and the result of
its last read. -/
structure Scan where
  count : Nat
  buffer : List UInt8
  bytesRead : Int

/-- The inner loop of `start_subscriber`; `none` when the fuel does not suffice. -/
def scan (fhandle : Int) (bytesProcessed : Nat) :
    Nat → Nat → List UInt8 → Fs → Except Fault (Option Scan × Fs)
  | 0, _, _, fs => .ok (none, fs)
  | fuel + 1, count, buffer, fs => do
    let ((bytesRead, bytes), fs) ← fs.tfsRead fhandle 1
    let auxChar := bytes.headD 0
    let count := count + 1
    if bytesRead ≤ 0 then .ok (some ⟨count, buffer, bytesRead⟩, fs)
    else if bytesProcessed ≤ count then
      if auxChar = 0 ∧ bytesProcessed < count then
        .ok (some ⟨count, buffer ++ [auxChar], bytesRead⟩, fs)
      else if auxChar ≠ 0 then scan fhandle bytesProcessed fuel count (buffer ++ [auxChar]) fs
      else scan fhandle bytesProcessed fuel count buffer fs
    else scan fhandle bytesProcessed fuel count buffer fs

/-- How a pass ends: the session returns, or goes on with a new `bytes_processed` after passing
a message to `create_message`, or none at the end of the file. -/
inductive PollEnd
  | ended
  | goesOn (bytesProcessed : Nat) (message : Option CString)

def Server.dropSubscriber (srv : Server) (index : Nat) : Server :=
  srv.modifyBox index fun b => { b with nSubscribers := b.nSubscribers - 1 }

/-- One pass of the outer loop of `start_subscriber`. `buffer` is a new variable of every pass,
so `stale` stands behind the bytes stored in it; `clientGone` is the outcome of the `mkfifo` that
finds out whether the client has removed its pipe. A file has at most `block_size` bytes to read. -/
def poll (srv : Server) (index : Nat) (box : BoxName) (bytesProcessed : Nat) (stale : List UInt8)
    (clientGone : Bool) : Except Fault (Option PollEnd × Server) := do
  let (fhandle, fs) ← srv.fs.tfsOpen (some box.name) {}
  if fhandle < 0 then .ok (some .ended, (srv.setFs fs).dropSubscriber index)
  else do
    let (result, fs) ← scan fhandle bytesProcessed (fs.blockSize + 1) 0 [] fs
    match result with
    | none => .ok (none, srv.setFs fs)
    | some result =>
      let (closed, fs) ← fs.tfsClose fhandle
      if result.bytesRead < 0 then .ok (some .ended, srv.setFs fs)
      else if clientGone then .ok (some .ended, (srv.setFs fs).dropSubscriber index)
      else if closed ≠ 0 then .ok (some .ended, srv.setFs fs)
      else
        let message := if result.bytesRead ≠ 0 then
          some (CString.ofBuffer (result.buffer ++ stale)) else none
        .ok (some (.goesOn result.count message), srv.setFs fs)

/-! ### The scan over the bytes of a file -/

/-- The scan of the bytes that are left in the file. -/
def scanBytes (bytesProcessed : Nat) : List UInt8 → Nat → List UInt8 → Scan
  | [], count, buffer => ⟨count + 1, buffer, 0⟩
  | c :: rest, count, buffer =>
    if bytesProcessed ≤ count + 1 then
      if c = 0 ∧ bytesProcessed < count + 1 then ⟨count + 1, buffer ++ [c], 1⟩
      else if c ≠ 0 then scanBytes bytesProcessed rest (count + 1) (buffer ++ [c])
      else scanBytes bytesProcessed rest (count + 1) buffer
    else scanBytes bytesProcessed rest (count + 1) buffer

variable {srv : Server} {fs : Fs} {st : FileStore CString} {box : BoxName} {n : CString}
  {index offset fuel : Nat}

/-- One iteration that reads a byte. -/
theorem scan_byte {fhandle : Int} {c : UInt8} {fs' : Fs} (bytesProcessed count : Nat)
    (buffer : List UInt8) (hread : fs.tfsRead fhandle 1 = .ok ((1, [c]), fs')) :
    scan fhandle bytesProcessed (fuel + 1) count buffer fs =
      if bytesProcessed ≤ count + 1 then
        if c = 0 ∧ bytesProcessed < count + 1 then
          .ok (some ⟨count + 1, buffer ++ [c], 1⟩, fs')
        else if c ≠ 0 then scan fhandle bytesProcessed fuel (count + 1) (buffer ++ [c]) fs'
        else scan fhandle bytesProcessed fuel (count + 1) buffer fs'
      else scan fhandle bytesProcessed fuel (count + 1) buffer fs' := by
  rw [scan, hread]
  rfl

/-- Read by read, the loop scans the bytes behind the offset of its handle. -/
theorem scan_eq {bytes : List UInt8} (bytesProcessed count : Nat) (buffer : List UInt8)
    (hr : Refines tfsDefaultParams fs (st.setHandle 0 (some (n, offset))))
    (hbytes : (st.contents n).drop offset = bytes) (hfuel : bytes.length < fuel) :
    ∃ fs' offset', scan 0 bytesProcessed fuel count buffer fs =
        .ok (some (scanBytes bytesProcessed bytes count buffer), fs') ∧
      Refines tfsDefaultParams fs' (st.setHandle 0 (some (n, offset'))) := by
  induction bytes generalizing fs offset fuel count buffer with
  | nil =>
    obtain ⟨fuel, rfl⟩ : ∃ k, fuel = k + 1 := ⟨fuel - 1, by simp at hfuel; omega⟩
    obtain ⟨fs', heq, hr'⟩ := read_byte hr
    -- the read at the end of the file returns 0, and the loop breaks
    rw [hbytes] at heq
    refine ⟨fs', _, ?_, hr'⟩
    simp only [scan, heq, ok_bind]
    rfl
  | cons c rest ih =>
    obtain ⟨fuel, rfl⟩ : ∃ k, fuel = k + 1 := ⟨fuel - 1, by simp at hfuel; omega⟩
    obtain ⟨fs', heq, hr'⟩ := read_byte hr
    rw [hbytes] at heq hr'
    have hrest : (st.contents n).drop (offset + 1) = rest := by
      rw [← List.drop_drop, hbytes]
      rfl
    have hlt : rest.length < fuel := by simpa using hfuel
    -- both loops take the same branch for the byte `c`
    rw [scan_byte bytesProcessed count buffer heq, scanBytes]
    by_cases hle : bytesProcessed ≤ count + 1
    · rw [if_pos hle, if_pos hle]
      by_cases hend : c = 0 ∧ bytesProcessed < count + 1
      · rw [if_pos hend, if_pos hend]
        exact ⟨fs', _, rfl, hr'⟩
      · rw [if_neg hend, if_neg hend]
        by_cases hc : c ≠ 0
        · rw [if_pos hc, if_pos hc]
          exact ih _ _ hr' hrest hlt
        · rw [if_neg hc, if_neg hc]
          exact ih _ _ hr' hrest hlt
    · rw [if_neg hle, if_neg hle]
      exact ih _ _ hr' hrest hlt

/-- What has been forwarded is skipped, with the terminator at its end. -/
theorem scanBytes_skip {bytesProcessed : Nat} (p q : List UInt8) (count : Nat)
    (buffer : List UInt8)
    (h : count + p.length ≤ bytesProcessed)
    (hlast : count + p.length = bytesProcessed → ∀ c, p.getLast? = some c → c = 0) :
    scanBytes bytesProcessed (p ++ q) count buffer =
      scanBytes bytesProcessed q (count + p.length) buffer := by
  induction p generalizing count with
  | nil => rfl
  | cons c p ih =>
    have hlen : count + (c :: p).length = count + 1 + p.length := by
      rw [List.length_cons]
      omega
    rw [hlen] at h hlast ⊢
    have hrest := ih (count + 1) h ?_
    · rw [← hrest, List.cons_append, scanBytes]
      by_cases hle : bytesProcessed ≤ count + 1
      · -- only the last byte can be reached by the comparison
        have hp : p = [] := List.eq_nil_of_length_eq_zero (by omega)
        subst hp
        have hc : c = 0 := hlast (by simpa using (by omega : count + 1 = bytesProcessed)) c rfl
        rw [if_pos hle, if_neg (by omega), if_neg (not_not_intro hc)]
      · rw [if_neg hle]
    · intro heq c' hc'
      apply hlast heq c'
      rw [List.getLast?_cons]
      simp [hc']

/-- The next message is stored up to its terminator. -/
theorem scanBytes_message {bytesProcessed : Nat} (text rest : List UInt8) (count : Nat)
    (buffer : List UInt8)
    (hfree : ∀ c ∈ text, c ≠ 0) (h : bytesProcessed ≤ count + 1)
    (hlt : text = [] → bytesProcessed ≤ count) :
    scanBytes bytesProcessed (text ++ 0 :: rest) count buffer =
      ⟨count + text.length + 1, buffer ++ text ++ [0], 1⟩ := by
  induction text generalizing count buffer with
  | nil =>
    have hle := hlt rfl
    rw [List.nil_append, scanBytes, if_pos h, if_pos ⟨rfl, by omega⟩, List.append_nil]
    rfl
  | cons c text ih =>
    have hc : c ≠ 0 := hfree c List.mem_cons_self
    rw [List.cons_append, scanBytes, if_pos h, if_neg (fun h0 => hc h0.1), if_pos hc,
      ih (count + 1) _ (fun b hb => hfree b (List.mem_cons_of_mem _ hb)) (by omega) (fun _ => h)]
    simp only [List.append_assoc, List.length_cons, List.cons_append, List.nil_append,
      Scan.mk.injEq, and_true]
    omega

/-- Reads that succeed end the scan with a result that is not negative. -/
theorem scanBytes_bytesRead (bytesProcessed : Nat) (bytes : List UInt8) (count : Nat)
    (buffer : List UInt8) :
    0 ≤ (scanBytes bytesProcessed bytes count buffer).bytesRead := by
  induction bytes generalizing count buffer with
  | nil => exact le_refl _
  | cons c rest ih =>
    rw [scanBytes]
    split
    · split
      · exact zero_le_one
      · split <;> exact ih _ _
    · exact ih _ _

/-! ### One pass -/

/-- What a pass passes to `create_message`: the string in `buffer`, unless the scan has ended at
the end of the file. -/
def Scan.message (r : Scan) (stale : List UInt8) : Option CString :=
  if r.bytesRead ≠ 0 then some (CString.ofBuffer (r.buffer ++ stale)) else none

/-- The scan of a pass while no other handle is open. -/
theorem Idle.scan (h : Idle srv.fs st) (hp : HasPath srv.fs box.name) (bytesProcessed : Nat) :
    ∃ fs₁ fs₂ fs₃, srv.fs.tfsOpen (some box.name) {} = .ok (0, fs₁) ∧
      Broker.scan 0 bytesProcessed (fs₁.blockSize + 1) 0 [] fs₁ =
        .ok (some (scanBytes bytesProcessed (st.contents box.name.tail) 0 []), fs₂) ∧
      fs₂.tfsClose 0 = .ok (0, fs₃) ∧ Idle fs₃ st := by
  obtain ⟨fs₁, hopen, hr, _⟩ := h.open_existing hp {} rfl
  obtain ⟨hv, hmem⟩ := (hasPath_iff h.refines).mp hp
  have hlen : (st.contents box.name.tail).length < fs₁.blockSize + 1 := by
    have hle := (h.refines.storeBounds _ hmem).2.2
    rw [blockSize, hr.fsParams]
    omega
  obtain ⟨fs₂, offset, hscan, hr'⟩ := scan_eq bytesProcessed 0 [] hr rfl hlen
  obtain ⟨fs₃, hclose, hidle, _⟩ := idle_of_close hr' h.handles
  exact ⟨fs₁, fs₂, fs₃, hopen, hscan, hclose, hidle⟩

/-- A pass of a session whose client is still there. -/
theorem poll_goesOn (h : Idle srv.fs st) (hp : HasPath srv.fs box.name)
    (index bytesProcessed : Nat) (stale : List UInt8) :
    ∃ fs', poll srv index box bytesProcessed stale false =
        .ok (some (.goesOn (scanBytes bytesProcessed (st.contents box.name.tail) 0 []).count
          ((scanBytes bytesProcessed (st.contents box.name.tail) 0 []).message stale)),
          srv.setFs fs') ∧
      Idle fs' st := by
  obtain ⟨fs₁, fs₂, fs₃, hopen, hscan, hclose, hidle⟩ := h.scan hp bytesProcessed
  refine ⟨fs₃, ?_, hidle⟩
  have hread := not_lt.mpr (scanBytes_bytesRead bytesProcessed
    (st.contents box.name.tail) 0 [])
  simp only [poll, hopen, ok_bind, hscan, hclose, hread]
  rfl

/-- A pass that finds its client gone. -/
theorem poll_clientGone (h : Idle srv.fs st) (hp : HasPath srv.fs box.name)
    (index bytesProcessed : Nat) (stale : List UInt8) :
    ∃ fs', poll srv index box bytesProcessed stale true =
        .ok (some .ended, (srv.setFs fs').dropSubscriber index) ∧ Idle fs' st := by
  obtain ⟨fs₁, fs₂, fs₃, hopen, hscan, hclose, hidle⟩ := h.scan hp bytesProcessed
  refine ⟨fs₃, ?_, hidle⟩
  have hread := not_lt.mpr (scanBytes_bytesRead bytesProcessed
    (st.contents box.name.tail) 0 [])
  simp only [poll, hopen, ok_bind, hscan, hclose, hread]
  rfl

/-- A pass that finds the box removed. -/
theorem poll_removed (h : Idle srv.fs st) (hp : ¬ HasPath srv.fs box.name)
    (index bytesProcessed : Nat) (stale : List UInt8) (clientGone : Bool) :
    ∃ fs', poll srv index box bytesProcessed stale clientGone =
        .ok (some .ended, (srv.setFs fs').dropSubscriber index) ∧ Idle fs' st := by
  obtain ⟨fs₁, hopen, hidle, _⟩ := h.open_absent hp {} rfl rfl
  refine ⟨fs₁, ?_, hidle⟩
  simp only [poll, hopen, ok_bind]
  rfl

/-! ### Publishing and polling -/

/-- A subscriber session with the strings that it has passed to `create_message`. -/
structure Subscription where
  bytesProcessed : Nat
  forwarded : List CString

structure Delivery where
  server : Server
  published : List Text
  subscribers : Nat → Option Subscription

def Delivery.initial (srv : Server) : Delivery := ⟨srv, [], fun _ => none⟩

inductive DeliveryLabel
  /-- A publisher session appends a message under the lock of the box. -/
  | publish (text : Text)
  /-- Session `t` starts and counts itself. -/
  | subscribe (t : Nat)
  /-- Session `t` makes one pass. -/
  | poll (t : Nat) (stale : List UInt8)

namespace Delivery

def setServer (s : Delivery) (srv : Server) : Delivery := { s with server := srv }

def setSubscriber (s : Delivery) (t : Nat) (sub : Option Subscription) : Delivery :=
  { s with subscribers := Function.update s.subscribers t sub }

/-- The steps of the sessions on the box in slot `index`. -/
def step (box : BoxName) (index : Nat) (s : Delivery) : DeliveryLabel → Option Delivery
  | .publish text =>
    match Broker.publish s.server index box text with
    | .ok (true, srv) => some { s.setServer srv with published := s.published ++ [text] }
    | .ok (false, srv) => some (s.setServer srv)
    | .error _ => none
  | .subscribe t =>
    match s.subscribers t with
    | none =>
      let srv := s.server.modifyBox index fun b => { b with nSubscribers := b.nSubscribers + 1 }
      some ((s.setServer srv).setSubscriber t (some ⟨0, []⟩))
    | some _ => none
  | .poll t stale =>
    match s.subscribers t with
    | none => none
    | some sub =>
      match Broker.poll s.server index box sub.bytesProcessed stale false with
      | .ok (some (.goesOn bytesProcessed message), srv) =>
        some ((s.setServer srv).setSubscriber t
          (some ⟨bytesProcessed, sub.forwarded ++ message.toList⟩))
      | .ok (some .ended, srv) => some ((s.setServer srv).setSubscriber t none)
      | _ => none

/-- The file of the box. -/
def file (published : List Text) : List UInt8 := published.flatMap payload

/-- Messages are not empty and fit in the block of the file. -/
def Fits (s : Delivery) : DeliveryLabel → Prop
  | .publish text => 0 < text.text.length ∧
      (file (s.published ++ [text])).length ≤ tfsDefaultParams.blockSize
  | _ => True

/-- A session has forwarded the first `k` messages, and `bytes_processed` is their length, or one
more after a pass that ended at the end of the file. -/
structure Follows (published : List Text) (sub : Subscription) (k : Nat) : Prop where
  le : k ≤ published.length
  forwarded : sub.forwarded = (published.take k).map Text.text
  position : sub.bytesProcessed = (file (published.take k)).length ∨
    sub.bytesProcessed = (file (published.take k)).length + 1

structure Inv (box : BoxName) (s : Delivery) : Prop where
  idle : ∃ st, Idle s.server.fs st ∧ HasPath s.server.fs box.name ∧
    st.contents box.name.tail = file s.published
  nonempty : ∀ text ∈ s.published, 0 < text.text.length
  follows : ∀ {t sub}, s.subscribers t = some sub → ∃ k, Follows s.published sub k

/-! ### One pass over the file of the box -/

theorem file_append (p q : List Text) : file (p ++ q) = file p ++ file q := List.flatMap_append

theorem file_cons (text : Text) (rest : List Text) :
    file (text :: rest) = text.text.bytes ++ 0 :: file rest := by
  rw [file, List.flatMap_cons, payload_eq, List.append_assoc]
  rfl

/-- The box is there, no handle is open, and its file holds the messages. -/
def HoldsFile (box : BoxName) (srv : Server) (published : List Text) : Prop :=
  ∃ st, Idle srv.fs st ∧ HasPath srv.fs box.name ∧ st.contents box.name.tail = file published

/-- A message that fits in the block is stored behind the others. -/
theorem HoldsFile.publish {published : List Text} (h : HoldsFile box srv published)
    (index : Nat) (text : Text)
    (hlen : (file (published ++ [text])).length ≤ tfsDefaultParams.blockSize) :
    ∃ fs', Broker.publish srv index box text = .ok (true, (srv.setFs fs').modifyBox index fun b =>
        { b with size := b.size + .ofNat (payload text).length }) ∧
      HoldsFile box (srv.setFs fs') (published ++ [text]) := by
  obtain ⟨st, hidle, hpath, hfile⟩ := h
  have hnew : file (published ++ [text]) = file published ++ payload text := by
    rw [file_append]
    simp [file]
  rw [hnew, List.length_append] at hlen
  -- the message fits, so nothing of it is cut
  have hfit : fitting (st.contents box.name.tail) text = payload text := by
    rw [fitting, hfile, List.take_of_length_le (by omega)]
  have hroom : fitting (st.contents box.name.tail) text ≠ [] := by
    rw [hfit, payload_eq]
    exact List.concat_ne_nil _ _
  obtain ⟨fs', heq, hidle'⟩ := publish_written hidle hpath index text hroom
  rw [hfit] at heq
  refine ⟨fs', heq, _, hidle', ?_, ?_⟩
  · exact (hidle.hasPath_congr hidle' rfl).mpr hpath
  · rw [hfit, hnew, ← hfile]
    exact Function.update_self ..

/-- A pass of a session scans the messages. -/
theorem HoldsFile.poll {published : List Text} (h : HoldsFile box srv published)
    (index bytesProcessed : Nat) (stale : List UInt8) :
    ∃ fs', Broker.poll srv index box bytesProcessed stale false =
        .ok (some (.goesOn (scanBytes bytesProcessed (file published) 0 []).count
          ((scanBytes bytesProcessed (file published) 0 []).message stale)), srv.setFs fs') ∧
      HoldsFile box (srv.setFs fs') published := by
  obtain ⟨st, hidle, hpath, hfile⟩ := h
  obtain ⟨fs', heq, hidle'⟩ := poll_goesOn hidle hpath index bytesProcessed stale
  rw [hfile] at heq
  refine ⟨fs', heq, st, hidle', ?_, hfile⟩
  exact (hidle.hasPath_congr hidle' rfl).mpr hpath

/-- A file that is not empty ends with a terminator. -/
theorem getLast?_file {published : List Text} {c : UInt8}
    (h : (file published).getLast? = some c) : c = 0 := by
  induction published using List.reverseRecOn with
  | nil => cases h
  | append_singleton rest text _ =>
    have hlast : file (rest ++ [text]) = (file rest ++ text.text.bytes) ++ [0] := by
      rw [file_append, file_cons, List.append_assoc]
      rfl
    rw [hlast, List.getLast?_concat] at h
    exact (Option.some.inj h).symm

variable {published : List Text} {sub : Subscription} {k : Nat}

/-- A pass skips the messages that `bytes_processed` covers. -/
theorem scan_skip {bytesProcessed : Nat} (h : (file (published.take k)).length ≤ bytesProcessed) :
    scanBytes bytesProcessed (file published) 0 [] =
      scanBytes bytesProcessed (file (published.drop k)) (file (published.take k)).length [] := by
  have hsplit : file published = file (published.take k) ++ file (published.drop k) := by
    rw [← file_append, List.take_append_drop]
  rw [hsplit, scanBytes_skip _ _ _ _ (by omega) (fun _ _ => getLast?_file), Nat.zero_add]

/-- Behind the messages that it skips, a pass comes to the next one. -/
theorem scan_next {text : Text} {bytesProcessed : Nat} (hk : published[k]? = some text)
    (hge : (file (published.take k)).length ≤ bytesProcessed)
    (hle : bytesProcessed ≤ (file (published.take k)).length + 1)
    (hempty : text.text.bytes = [] → bytesProcessed ≤ (file (published.take k)).length) :
    scanBytes bytesProcessed (file published) 0 [] =
      ⟨(file (published.take (k + 1))).length, text.text.bytes ++ [0], 1⟩ := by
  obtain ⟨hlt, hget⟩ := List.getElem?_eq_some_iff.mp hk
  have hlen : (file (published.take (k + 1))).length =
      (file (published.take k)).length + text.text.bytes.length + 1 := by
    rw [List.take_add_one, hk, file_append, List.length_append]
    show _ + (file (text :: [])).length = _
    rw [file_cons, List.length_append]
    rfl
  rw [scan_skip hge, List.drop_eq_getElem_cons hlt, hget, file_cons, hlen]
  exact scanBytes_message _ _ _ _ text.text.nul_free hle hempty

/-- A pass that skips all messages ends one read behind them. -/
theorem scan_end {bytesProcessed : Nat} (h : (file published).length ≤ bytesProcessed) :
    scanBytes bytesProcessed (file published) 0 [] = ⟨(file published).length + 1, [], 0⟩ := by
  rw [← List.take_length (l := published)] at h
  rw [scan_skip h, List.drop_length, List.take_length]
  rfl

theorem message_next (text : Text) (count : Nat) (stale : List UInt8) :
    Scan.message ⟨count, text.text.bytes ++ [0], 1⟩ stale = some text.text := by
  rw [Scan.message, if_pos one_ne_zero, List.append_assoc]
  exact congrArg some (CString.ofBuffer_append_zero text.text stale)

/-- With a message left the pass forwards it. -/
theorem Follows.next {text : Text} (hf : Follows published sub k) (hk : published[k]? = some text)
    (hpos : 0 < text.text.length) (stale : List UInt8) :
    let r := scanBytes sub.bytesProcessed (file published) 0 []
    r.message stale = some text.text ∧
      Follows published ⟨r.count, sub.forwarded ++ [text.text]⟩ (k + 1) := by
  have htake : published.take (k + 1) = published.take k ++ [text] := by
    rw [List.take_add_one, hk]
    rfl
  have hscan : scanBytes sub.bytesProcessed (file published) 0 [] =
      ⟨(file (published.take (k + 1))).length, text.text.bytes ++ [0], 1⟩ := by
    apply scan_next hk
    · rcases hf.position with hp | hp <;> omega
    · rcases hf.position with hp | hp <;> omega
    · intro hnil
      rw [CString.length, hnil] at hpos
      cases hpos
  intro r
  rw [show r = _ from hscan]
  refine ⟨message_next text _ stale, (List.getElem?_eq_some_iff.mp hk).1, ?_, Or.inl rfl⟩
  show sub.forwarded ++ [text.text] = _
  rw [htake, List.map_append, hf.forwarded]
  rfl

/-- With no message left the pass ends at the end of the file, one read behind it. -/
theorem Follows.atEnd (hf : Follows published sub k) (hk : k = published.length)
    (stale : List UInt8) :
    let r := scanBytes sub.bytesProcessed (file published) 0 []
    r.message stale = none ∧ Follows published ⟨r.count, sub.forwarded⟩ k := by
  have htake : published.take k = published := by
    rw [hk, List.take_length]
  have hscan : scanBytes sub.bytesProcessed (file published) 0 [] =
      ⟨(file published).length + 1, [], 0⟩ := by
    apply scan_end
    rw [← htake]
    rcases hf.position with hp | hp <;> omega
  intro r
  rw [show r = _ from hscan]
  refine ⟨rfl, hf.le, hf.forwarded, Or.inr ?_⟩
  rw [htake]

/-- A pass moves a session to the next message, if there is one. -/
theorem Follows.poll (hf : Follows published sub k)
    (hpos : ∀ text ∈ published, 0 < text.text.length) (stale : List UInt8) :
    let r := scanBytes sub.bytesProcessed (file published) 0 []
    Follows published ⟨r.count, sub.forwarded ++ (r.message stale).toList⟩
      (min (k + 1) published.length) := by
  intro r
  -- the pass finds the message behind those forwarded, or the end of the file
  cases hk : published[k]? with
  | some text =>
    obtain ⟨hlt, hget⟩ := List.getElem?_eq_some_iff.mp hk
    obtain ⟨hmsg, hnext⟩ := hf.next hk (hpos text (hget ▸ List.getElem_mem hlt)) stale
    rw [hmsg, min_eq_left hlt]
    exact hnext
  | none =>
    have heq : k = published.length := le_antisymm hf.le (List.getElem?_eq_none_iff.mp hk)
    obtain ⟨hmsg, hend⟩ := hf.atEnd heq stale
    rw [hmsg, Option.toList_none, List.append_nil, min_eq_right (by omega), ← heq]
    exact hend

/-- What is published later does not change what a session has forwarded. -/
theorem Follows.publish (hf : Follows published sub k) (text : Text) :
    Follows (published ++ [text]) sub k := by
  have htake : (published ++ [text]).take k = published.take k :=
    List.take_append_of_le_length hf.le
  refine ⟨?_, ?_, ?_⟩
  · rw [List.length_append]
    exact Nat.le_add_right_of_le hf.le
  · rw [htake]
    exact hf.forwarded
  · rw [htake]
    exact hf.position

/-! ### Runs -/

variable {s s' : Delivery}

theorem step_publish {text : Text} (h : Broker.publish s.server index box text = .ok (true, srv)) :
    step box index s (.publish text) =
      some { s.setServer srv with published := s.published ++ [text] } := by
  simp only [step, h]

theorem step_publish_fails {text : Text}
    (h : Broker.publish s.server index box text = .ok (false, srv)) :
    step box index s (.publish text) = some (s.setServer srv) := by
  simp only [step, h]

/-- A change of the server that keeps the file of the box. -/
theorem Inv.setServer (h : Inv box s) (srv : Server)
    (hidle : ∃ st, Idle srv.fs st ∧ HasPath srv.fs box.name ∧
      st.contents box.name.tail = file s.published) : Inv box (s.setServer srv) :=
  ⟨hidle, h.nonempty, h.follows⟩

/-- The new state of a session has to follow the messages. -/
theorem Inv.setSubscriber {t : Nat} (h : Inv box s) (hsub : ∃ k, Follows s.published sub k) :
    Inv box (s.setSubscriber t (some sub)) := by
  refine ⟨h.idle, h.nonempty, ?_⟩
  intro u sub' hu
  by_cases heq : u = t
  · have hself : (s.setSubscriber t (some sub)).subscribers u = some sub := by
      rw [heq]
      exact Function.update_self ..
    rw [hself] at hu
    exact Option.some.inj hu ▸ hsub
  · have hother : (s.setSubscriber t (some sub)).subscribers u = s.subscribers u :=
      Function.update_of_ne heq ..
    rw [hother] at hu
    exact h.follows hu

theorem Inv.publish {text : Text} (h : Inv box s) (index : Nat) (hok : Fits s (.publish text)) :
    ∃ srv, Broker.publish s.server index box text = .ok (true, srv) ∧
      Inv box { s.setServer srv with published := s.published ++ [text] } := by
  obtain ⟨hpos, hlen⟩ := hok
  obtain ⟨fs', heq, hidle⟩ := HoldsFile.publish h.idle index text hlen
  refine ⟨_, heq, hidle, ?_, ?_⟩
  · intro text' hmem
    rcases List.mem_append.mp hmem with hold | hlast
    · exact h.nonempty text' hold
    · rw [List.mem_singleton.mp hlast]
      exact hpos
  · intro t sub hsub
    obtain ⟨k, hf⟩ := h.follows hsub
    exact ⟨k, hf.publish text⟩

/-- A pass of a connected session, whatever else has happened. -/
theorem Inv.poll {t : Nat} (h : Inv box s) (index : Nat) (hsub : s.subscribers t = some sub)
    (hf : Follows s.published sub k) (stale : List UInt8) :
    ∃ srv sub', step box index s (.poll t stale) =
        some ((s.setServer srv).setSubscriber t (some sub')) ∧
      Inv box ((s.setServer srv).setSubscriber t (some sub')) ∧
      Follows s.published sub' (min (k + 1) s.published.length) := by
  obtain ⟨fs', heq, hidle⟩ := HoldsFile.poll h.idle index sub.bytesProcessed stale
  have hf' := hf.poll h.nonempty stale
  refine ⟨s.server.setFs fs', _, ?_, ?_, hf'⟩
  · simp only [step, hsub, heq]
  · exact (h.setServer _ hidle).setSubscriber ⟨_, hf'⟩

theorem Inv.step {a : DeliveryLabel} (h : Inv box s) (hok : Fits s a)
    (ha : step box index s a = some s') : Inv box s' := by
  cases a with
  | publish text =>
    obtain ⟨srv, heq, hinv⟩ := h.publish index hok
    simp only [Delivery.step, heq, Option.some.injEq] at ha
    exact ha ▸ hinv
  | subscribe t =>
    cases hsub : s.subscribers t with
    | none =>
      simp only [Delivery.step, hsub, Option.some.injEq] at ha
      subst ha
      have hserver := h.setServer (s.server.modifyBox index fun b =>
        { b with nSubscribers := b.nSubscribers + 1 }) h.idle
      exact hserver.setSubscriber ⟨0, Nat.zero_le _, rfl, Or.inl rfl⟩
    | some sub => simp only [Delivery.step, hsub, reduceCtorEq] at ha
  | poll t stale =>
    cases hsub : s.subscribers t with
    | none => simp only [Delivery.step, hsub, reduceCtorEq] at ha
    | some sub =>
      obtain ⟨k, hf⟩ := h.follows hsub
      obtain ⟨srv, sub', heq, hinv, _⟩ := h.poll index hsub hf stale
      rw [heq] at ha
      exact Option.some.inj ha ▸ hinv

theorem inv_of_reaches {srv : Server} (hidle : Idle srv.fs st) (hpath : HasPath srv.fs box.name)
    (hempty : st.contents box.name.tail = [])
    (h : Reaches (step box index) Fits (.initial srv) s) : Inv box s := by
  refine h.invariant ⟨⟨st, hidle, hpath, hempty⟩, ?_, ?_⟩ ?_
  · intro text hmem
    cases hmem
  · intro t sub hsub
    cases hsub
  · intro u a v hu hok ha
    exact hu.step hok ha

/-- In every run, each session has forwarded a prefix of the published messages, and a pass
forwards the next one. -/
theorem delivered_of_reaches {srv : Server} (hidle : Idle srv.fs st)
    (hpath : HasPath srv.fs box.name) (hempty : st.contents box.name.tail = [])
    (h : Reaches (step box index) Fits (.initial srv) s) {t : Nat} {sub : Subscription}
    (hsub : s.subscribers t = some sub) :
    sub.forwarded <+: s.published.map Text.text ∧
      ∀ stale, ∃ s' sub', step box index s (.poll t stale) = some s' ∧
        s'.published = s.published ∧ s'.subscribers t = some sub' ∧
        sub'.forwarded = (s.published.map Text.text).take (sub.forwarded.length + 1) := by
  have hinv := inv_of_reaches hidle hpath hempty h
  obtain ⟨k, hf⟩ := hinv.follows hsub
  constructor
  · rw [hf.forwarded, List.map_take]
    exact List.take_prefix _ _
  · intro stale
    obtain ⟨srv', sub', heq, _, hf'⟩ := hinv.poll index hsub hf stale
    refine ⟨_, sub', heq, rfl, Function.update_self .., ?_⟩
    have hlen : sub.forwarded.length = k := by
      rw [hf.forwarded, List.length_map, List.length_take, min_eq_left hf.le]
    rw [hf'.forwarded, hlen, ← List.map_take, ← List.take_eq_take_min]

/-- A message of one byte. -/
def shortText : Text := ⟨.ofBuffer [104], by decide⟩

/-- Another one. -/
def otherText : Text := ⟨.ofBuffer [105], by decide⟩

/-- The first box of a new broker is empty. -/
theorem createdBox_holdsFile :
    ∃ srv answer, createBox (startedServer 2) pipeM boxA = .ok (answer, srv) ∧
      HoldsFile boxA srv [] := by
  obtain ⟨srv, heq, hs, _⟩ := createBox_started (show 2 ≠ 0 by decide)
  refine ⟨srv, _, heq, _, hs.idle, ?_, by decide⟩
  exact (hasPath_iff hs.idle.refines).mpr ((present_create (by decide)).mpr (Or.inl rfl))

/-- A run on the first box of a new broker. -/
def runCreated (ok : Delivery → DeliveryLabel → Prop) [∀ s a, Decidable (ok s a)]
    (as : List DeliveryLabel) : Option Delivery :=
  (createBox (startedServer 2) pipeM boxA).toOption.bind fun r =>
    runLabels (guarded (step boxA 0) ok) (.initial r.2) as

theorem reaches_of_runCreated {ok : Delivery → DeliveryLabel → Prop} [∀ s a, Decidable (ok s a)]
    {as : List DeliveryLabel} (h : runCreated ok as = some s) :
    ∃ srv answer, createBox (startedServer 2) pipeM boxA = .ok (answer, srv) ∧
      HoldsFile boxA srv [] ∧ Reaches (step boxA 0) ok (.initial srv) s := by
  obtain ⟨srv, answer, heq, hholds⟩ := createdBox_holdsFile
  rw [runCreated, heq] at h
  exact ⟨srv, answer, heq, hholds, reaches_of_guarded h⟩

instance (s : Delivery) : DecidablePred (Fits s)
  | .publish _ => inferInstanceAs (Decidable (_ ∧ _))
  | .subscribe _ | .poll .. => inferInstanceAs (Decidable True)

/-- The subscriber finds nothing, then the first message; a second one is published. -/
def twoMessages : List DeliveryLabel :=
  [.subscribe 0, .poll 0 [], .publish shortText, .poll 0 [], .publish otherText]

theorem run_twoMessages :
    (runCreated Fits twoMessages).map (fun s =>
      (s.published.map Text.text, (s.subscribers 0).map Subscription.forwarded)) =
      some ([shortText.text, otherText.text], some [shortText.text]) := by
  decide +kernel

theorem twoMessages_delivered :
    ∃ srv answer s s' sub, createBox (startedServer 2) pipeM boxA = .ok (answer, srv) ∧
      Reaches (step boxA 0) Fits (.initial srv) s ∧ step boxA 0 s (.poll 0 []) = some s' ∧
      s'.subscribers 0 = some sub ∧ sub.forwarded = [shortText.text, otherText.text] := by
  obtain ⟨s, hs, hval⟩ := Option.map_eq_some_iff.mp run_twoMessages
  simp only [Prod.mk.injEq, Option.map_eq_some_iff] at hval
  obtain ⟨hpublished, sub, hsub, hforwarded⟩ := hval
  obtain ⟨srv, answer, heq, ⟨st, hidle, hpath, hempty⟩, hr⟩ := reaches_of_runCreated hs
  obtain ⟨_, hall⟩ := delivered_of_reaches hidle hpath hempty hr hsub
  obtain ⟨s', sub', hpoll, _, hsub', hnext⟩ := hall []
  rw [hforwarded, hpublished] at hnext
  exact ⟨srv, answer, s, s', sub', heq, hr, hpoll, hsub', hnext⟩

end Delivery

end MessageBroker.Broker
