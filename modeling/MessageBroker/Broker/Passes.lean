import MessageBroker.Broker.RoundTrip
import MessageBroker.Lib.Records

/-!
# Passes over any file of messages

The passes of `start_subscriber` on the array `buffer`, over a file that is whatever fits
of the messages published: empty messages are among them, and the last one may be cut at
the end of the block. Whatever the file, a session never stores behind its array, it
forwards whole messages only, in their order, and only empty ones are ever passed over.
-/

namespace MessageBroker.Broker

open Buffer Records Tfs Tfs.Fs

/-- How a pass ends: the session returns, or goes on with a new `bytes_processed` after passing
`buffer` to `create_message`, or nothing at the end of the file. -/
inductive PassEnd
  | ended
  | goesOn (bytesProcessed : Nat) (buffer : Option (List UInt8))

/-- One pass of the outer loop of `start_subscriber` on its array, up to the call of
`create_message`; `clientGone` is the outcome of the `mkfifo` that finds out whether the client
has removed its pipe. -/
def pass (srv : Server) (index : Nat) (box : BoxName) (bytesProcessed : Nat)
    (buffer : List UInt8) (clientGone : Bool) : Option (PassEnd × Server) := do
  let (fhandle, fs) ← (srv.fs.tfsOpen (some box.name) {}).toOption
  if fhandle < 0 then some (.ended, (srv.setFs fs).dropSubscriber index)
  else do
    let (result, fs) ← scanIn fhandle bytesProcessed (fs.blockSize + 1) 0 0 buffer fs
    let (closed, fs) ← (fs.tfsClose fhandle).toOption
    if result.bytesRead < 0 then some (.ended, srv.setFs fs)
    else if clientGone then some (.ended, (srv.setFs fs).dropSubscriber index)
    else if closed ≠ 0 then some (.ended, srv.setFs fs)
    else
      let message := if result.bytesRead ≠ 0 then some result.buffer else none
      some (.goesOn result.count message, srv.setFs fs)

/-- What the file of a box holds when the messages were published. -/
def boxFile (published : List CString) : List UInt8 :=
  (joined published).take tfsDefaultParams.blockSize

/-- The messages that the file holds whole. -/
def inFile (published : List CString) : List CString :=
  whole tfsDefaultParams.blockSize published

/-- A session has dealt with the first `k` messages of the file: it has forwarded them but for
empty ones, and `bytes_processed` is their length, or one more after a pass that ended at the end
of the file. -/
structure Upto (published : List CString) (k bytesProcessed : Nat) (forwarded : List CString) :
    Prop where
  le : k ≤ (inFile published).length
  sublist : forwarded.Sublist (published.take k)
  visible : visible forwarded = visible (published.take k)
  position : bytesProcessed = (joined (published.take k)).length ∨
    bytesProcessed = (joined (published.take k)).length + 1 ∨
    bytesProcessed = tfsDefaultParams.blockSize + 1 ∧ k = (inFile published).length ∧
      tfsDefaultParams.blockSize ≤ (joined published).length

/-- The outcome of a scan: a message with its terminator, or the end of the file. -/
def Scan.Finds (r : Scan) : Option CString → Prop
  | some m => r.bytesRead = 1 ∧ r.buffer = m.terminated
  | none => r.bytesRead = 0

variable {srv : Server} {box : BoxName} {index bytesProcessed k : Nat} {contents : List UInt8}
  {published forwarded : List CString} {m : CString}

/-! ### Scans -/

/-- A scan stores at most the bytes that it reads. -/
theorem length_scanBytes_le (bytesProcessed : Nat) (bytes : List UInt8) (count : Nat)
    (buffer : List UInt8) :
    (scanBytes bytesProcessed bytes count buffer).buffer.length ≤
      buffer.length + bytes.length := by
  induction bytes generalizing count buffer with
  | nil => exact Nat.le_add_right _ _
  | cons c bytes ih =>
    have hskip := ih (count + 1) buffer
    have hstore := ih (count + 1) (buffer ++ [c])
    rw [List.length_append, List.length_singleton] at hstore
    rw [scanBytes, List.length_cons]
    split
    · split
      · rw [List.length_append, List.length_singleton]
        omega
      · split <;> omega
    · omega

/-- Without a terminator a scan goes on to the end of the file. -/
theorem scanBytes_cut (bytesProcessed : Nat) {bytes : List UInt8} (hfree : ∀ c ∈ bytes, c ≠ 0)
    (count : Nat) (buffer : List UInt8) :
    (scanBytes bytesProcessed bytes count buffer).bytesRead = 0 ∧
      (scanBytes bytesProcessed bytes count buffer).count = count + bytes.length + 1 := by
  induction bytes generalizing count buffer with
  | nil => exact ⟨rfl, rfl⟩
  | cons c bytes ih =>
    have hc : c ≠ 0 := hfree c List.mem_cons_self
    have hrest := fun buffer =>
      ih (fun b hb => hfree b (List.mem_cons_of_mem c hb)) (count + 1) buffer
    have hcount : count + 1 + bytes.length + 1 = count + (c :: bytes).length + 1 := by
      rw [List.length_cons]
      omega
    rw [hcount] at hrest
    rw [scanBytes]
    split
    · rw [if_neg (fun h => hc h.1)]
      exact hrest _
    · exact hrest _

theorem getLast?_joined {ms : List CString} {c : UInt8} (h : (joined ms).getLast? = some c) :
    c = 0 := by
  induction ms using List.reverseRecOn with
  | nil => cases h
  | append_singleton rest m _ =>
    rw [joined_concat, CString.terminated, ← List.append_assoc, List.getLast?_concat] at h
    exact (Option.some.inj h).symm

/-- What was dealt with is skipped. -/
theorem scan_joined {ms : List CString} (rest : List UInt8)
    (h : (joined ms).length ≤ bytesProcessed) :
    scanBytes bytesProcessed (joined ms ++ rest) 0 [] =
      scanBytes bytesProcessed rest (joined ms).length [] := by
  rw [scanBytes_skip _ _ _ _ (by omega) (fun _ _ => getLast?_joined), Nat.zero_add]

/-- Behind what was dealt with a scan finds the next message. -/
theorem scan_message {ms : List CString} (rest : List UInt8)
    (hge : (joined ms).length ≤ bytesProcessed) (hle : bytesProcessed ≤ (joined ms).length + 1)
    (hempty : m.length = 0 → bytesProcessed ≤ (joined ms).length) :
    scanBytes bytesProcessed (joined ms ++ (m.terminated ++ rest)) 0 [] =
      ⟨(joined (ms ++ [m])).length, m.terminated, 1⟩ := by
  have hnil : m.bytes = [] → bytesProcessed ≤ (joined ms).length := by
    intro h
    apply hempty
    rw [CString.length, h]
    rfl
  rw [scan_joined _ hge, CString.terminated, List.append_assoc, List.singleton_append,
    scanBytes_message m.bytes rest _ [] m.nul_free hle hnil, joined_concat, List.length_append,
    length_terminated]
  rfl

/-! ### Passes -/

namespace Upto

theorem start (published : List CString) : Upto published 0 0 [] :=
  ⟨Nat.zero_le _, List.nil_sublist _, rfl, Or.inl rfl⟩

/-- Among the messages of the file the first ones are the first ones published. -/
theorem take_inFile (published : List CString) (h : k ≤ (inFile published).length) :
    (inFile published).take k = published.take k := by
  obtain ⟨rest, hrest⟩ := prefixOf_whole tfsDefaultParams.blockSize published
  conv_rhs => rw [← hrest]
  exact (List.take_append_of_le_length h).symm

/-- The file behind the messages dealt with. -/
theorem boxFile_eq (published : List CString) (h : k ≤ (inFile published).length) :
    ∃ rest, boxFile published =
        joined (published.take k) ++ (joined ((inFile published).drop k) ++ rest) ∧
      (∀ c ∈ rest, c ≠ 0) ∧
      (rest ≠ [] → tfsDefaultParams.blockSize ≤ (joined published).length) := by
  obtain ⟨rest, heq, hfree, hfull⟩ := take_joined tfsDefaultParams.blockSize published
  refine ⟨rest, ?_, hfree, hfull⟩
  rw [← take_inFile published h, ← List.append_assoc, ← joined_append, List.take_append_drop]
  exact heq

/-- The terminator of an empty message was counted by the pass that ended in front of it. -/
theorem skip (h : Upto published k bytesProcessed forwarded)
    (hk : (inFile published)[k]? = some m) (hm : m.length = 0)
    (hp : bytesProcessed = (joined (published.take k)).length + 1) :
    Upto published (k + 1) bytesProcessed forwarded ∧
      bytesProcessed = (joined (published.take (k + 1))).length := by
  obtain ⟨hlt, hget⟩ := List.getElem?_eq_some_iff.mp hk
  have htake : published.take (k + 1) = published.take k ++ [m] := by
    rw [← take_inFile published hlt, List.take_add_one, hk, take_inFile published h.le]
    rfl
  have hlen : bytesProcessed = (joined (published.take (k + 1))).length := by
    rw [htake, joined_concat, List.length_append, length_terminated, hm, hp]
  refine ⟨⟨hlt, ?_, ?_, Or.inl hlen⟩, hlen⟩
  · rw [htake]
    exact h.sublist.trans (List.sublist_append_left _ _)
  · rw [htake, visible_append, visible_of_empty hm, List.append_nil, h.visible]

/-- A pass finds the next message. -/
theorem pass_next (h : Upto published k bytesProcessed forwarded)
    (hk : (inFile published)[k]? = some m)
    (hp : bytesProcessed = (joined (published.take k)).length ∨
      bytesProcessed = (joined (published.take k)).length + 1 ∧ 0 < m.length) :
    (scanBytes bytesProcessed (boxFile published) 0 []).Finds (some m) ∧
      Upto published (k + 1) (scanBytes bytesProcessed (boxFile published) 0 []).count
        (forwarded ++ [m]) := by
  obtain ⟨hlt, hget⟩ := List.getElem?_eq_some_iff.mp hk
  have htake : published.take (k + 1) = published.take k ++ [m] := by
    rw [← take_inFile published hlt, List.take_add_one, hk, take_inFile published h.le]
    rfl
  obtain ⟨rest, hfile, _, _⟩ := boxFile_eq published h.le
  rw [List.drop_eq_getElem_cons hlt, hget, joined_cons, List.append_assoc] at hfile
  have hscan : scanBytes bytesProcessed (boxFile published) 0 [] =
      ⟨(joined (published.take (k + 1))).length, m.terminated, 1⟩ := by
    rw [hfile, htake]
    exact scan_message _ (by omega) (by omega) (by omega)
  rw [hscan]
  refine ⟨⟨rfl, rfl⟩, hlt, ?_, ?_, Or.inl rfl⟩
  · rw [htake]
    exact h.sublist.append (List.Sublist.refl _)
  · rw [htake, visible_append, visible_append, h.visible]

/-- Behind the last message of the file a pass ends at the end of the file. -/
theorem pass_end (h : Upto published k bytesProcessed forwarded)
    (hk : k = (inFile published).length) :
    (scanBytes bytesProcessed (boxFile published) 0 []).Finds none ∧
      Upto published k (scanBytes bytesProcessed (boxFile published) 0 []).count forwarded := by
  obtain ⟨rest, hfile, hfree, hfull⟩ := boxFile_eq published h.le
  rw [hk, List.drop_length, joined_nil, List.nil_append, ← hk] at hfile
  have hcut : (scanBytes bytesProcessed (boxFile published) 0 []).bytesRead = 0 ∧
      (scanBytes bytesProcessed (boxFile published) 0 []).count =
        (boxFile published).length + 1 := by
    obtain hp | hp | ⟨hp, _, hlong⟩ := h.position
    · rw [hfile, scan_joined rest hp.ge, List.length_append]
      exact scanBytes_cut _ hfree _ _
    · rw [hfile, scan_joined rest (by omega), List.length_append]
      exact scanBytes_cut _ hfree _ _
    · -- the whole file is skipped
      have hlen : (boxFile published).length = tfsDefaultParams.blockSize :=
        List.length_take_of_le hlong
      have hskip : scanBytes bytesProcessed (boxFile published ++ []) 0 [] =
          scanBytes bytesProcessed [] (0 + (boxFile published).length) [] :=
        scanBytes_skip (boxFile published) [] 0 [] (by omega) (by omega)
      rw [List.append_nil, Nat.zero_add] at hskip
      rw [hskip]
      exact ⟨rfl, rfl⟩
  refine ⟨hcut.1, h.le, h.sublist, h.visible, ?_⟩
  rw [hcut.2]
  by_cases hrest : rest = []
  · right
    left
    rw [hfile, hrest, List.append_nil]
  · right
    right
    have hlong := hfull hrest
    refine ⟨?_, hk, hlong⟩
    rw [boxFile, List.length_take_of_le hlong]

/-- A pass deals with at least one more message, if there is one. -/
theorem pass (h : Upto published k bytesProcessed forwarded) :
    ∃ k' message, (scanBytes bytesProcessed (boxFile published) 0 []).Finds message ∧
      Upto published k' (scanBytes bytesProcessed (boxFile published) 0 []).count
        (forwarded ++ message.toList) ∧
      k ≤ k' ∧ (k < (inFile published).length → k < k') := by
  -- at the end of the file nothing is forwarded
  have hend : ∀ {j}, Upto published j bytesProcessed forwarded → j = (inFile published).length →
      ∃ k' message, (scanBytes bytesProcessed (boxFile published) 0 []).Finds message ∧
        Upto published k' (scanBytes bytesProcessed (boxFile published) 0 []).count
          (forwarded ++ message.toList) ∧ j ≤ k' := by
    intro j hj hlen
    obtain ⟨hfinds, hupto⟩ := hj.pass_end hlen
    refine ⟨j, none, hfinds, ?_, le_refl _⟩
    rwa [Option.toList_none, List.append_nil]
  cases hk : (inFile published)[k]? with
  | none =>
    have hlen : k = (inFile published).length :=
      le_antisymm h.le (List.getElem?_eq_none_iff.mp hk)
    obtain ⟨k', message, hfinds, hupto, hle⟩ := hend h hlen
    exact ⟨k', message, hfinds, hupto, hle, fun hlt => by omega⟩
  | some m =>
    obtain ⟨hlt, _⟩ := List.getElem?_eq_some_iff.mp hk
    by_cases hskip : m.length = 0 ∧ bytesProcessed = (joined (published.take k)).length + 1
    · -- the empty message is passed over, and the pass goes on behind it
      obtain ⟨hnext, hexact⟩ := h.skip hk hskip.1 hskip.2
      cases hk' : (inFile published)[k + 1]? with
      | none =>
        have hlen : k + 1 = (inFile published).length :=
          le_antisymm hlt (List.getElem?_eq_none_iff.mp hk')
        obtain ⟨k', message, hfinds, hupto, hle⟩ := hend hnext hlen
        exact ⟨k', message, hfinds, hupto, by omega, by omega⟩
      | some m' =>
        obtain ⟨hfinds, hupto⟩ := hnext.pass_next hk' (Or.inl hexact)
        exact ⟨k + 2, some m', hfinds, hupto, by omega, by omega⟩
    · have hp : bytesProcessed = (joined (published.take k)).length ∨
          bytesProcessed = (joined (published.take k)).length + 1 ∧ 0 < m.length := by
        obtain hp | hp | ⟨_, hlast, _⟩ := h.position
        · exact Or.inl hp
        · exact Or.inr ⟨hp, Nat.pos_of_ne_zero fun hm => hskip ⟨hm, hp⟩⟩
        · omega
      obtain ⟨hfinds, hupto⟩ := h.pass_next hk hp
      exact ⟨k + 1, some m, hfinds, hupto, Nat.le_succ k, fun _ => Nat.lt_succ_self k⟩

/-- What is published later does not matter to what a session has dealt with. -/
theorem publish (h : Upto published k bytesProcessed forwarded) (m : CString) :
    Upto (published ++ [m]) k bytesProcessed forwarded := by
  have hwhole := whole_append tfsDefaultParams.blockSize published [m]
  have hle : k ≤ published.length :=
    h.le.trans (prefixOf_whole tfsDefaultParams.blockSize published).length_le
  have htake : (published ++ [m]).take k = published.take k := List.take_append_of_le_length hle
  refine ⟨h.le.trans hwhole.length_le, ?_, ?_, ?_⟩
  · rw [htake]
    exact h.sublist
  · rw [htake]
    exact h.visible
  · rw [htake]
    obtain hp | hp | ⟨hp, hk, hlong⟩ := h.position
    · exact Or.inl hp
    · exact Or.inr (Or.inl hp)
    · -- a full file stays as it is
      refine Or.inr (Or.inr ⟨hp, ?_, ?_⟩)
      · rw [hk]
        exact congrArg List.length (whole_of_full hlong [m]).symm
      · rw [joined_concat, List.length_append]
        exact Nat.le_add_right_of_le hlong

end Upto

/-- The pass of a session on the file of its box. -/
theorem FileIs.pass (h : FileIs box srv contents) (index bytesProcessed : Nat)
    {buffer : List UInt8} (hbuffer : buffer.length = pSMessageSize) (clientGone : Bool) :
    ∃ fs', FileIs box (srv.setFs fs') contents ∧
      Broker.pass srv index box bytesProcessed buffer clientGone =
        some (if clientGone then (.ended, (srv.setFs fs').dropSubscriber index)
          else (.goesOn (scanBytes bytesProcessed contents 0 []).count
            (if (scanBytes bytesProcessed contents 0 []).bytesRead ≠ 0 then
              some ((scanBytes bytesProcessed contents 0 []).buffer ++
                buffer.drop (scanBytes bytesProcessed contents 0 []).buffer.length)
            else none), srv.setFs fs')) := by
  have hlen := h.length_le
  obtain ⟨st, hidle, hpath, rfl⟩ := h
  obtain ⟨fs₁, fs₂, fs₃, hopen, hscan, hclose, hidle'⟩ := hidle.scan hpath bytesProcessed
  have hstored := length_scanBytes_le bytesProcessed (st.contents box.name.tail) 0 []
  have hread := not_lt.mpr (scanBytes_bytesRead bytesProcessed (st.contents box.name.tail) 0 [])
  generalize scanBytes bytesProcessed (st.contents box.name.tail) 0 [] = r at hscan hstored hread ⊢
  obtain ⟨new, hnew, hin⟩ := scanIn_of_scan hscan
  obtain rfl : new = r.buffer := by rw [hnew, List.nil_append]
  have hfits : r.buffer.length ≤ buffer.length := by
    rw [List.length_nil, Nat.zero_add] at hstored
    rw [hbuffer]
    exact hstored.trans hlen
  have hloop := hin buffer hfits
  refine ⟨fs₃, ⟨st, hidle', (hidle.hasPath_congr hidle' rfl).mpr hpath, rfl⟩, ?_⟩
  rw [List.length_nil, List.nil_append] at hloop
  simp only [Broker.pass, hopen, hloop, hclose, hread, Except.toOption, Option.bind_eq_bind,
    Option.bind_some]
  cases clientGone <;> rfl

end MessageBroker.Broker
