import MessageBroker.Broker.Server

/-!
# Publishing a message

The body of the read loop of `start_publisher`. A message is appended to the file
of the box as far as it fits, and `size` grows by the bytes written; the session
ends when the box is gone, and also when its file is full.
-/

namespace MessageBroker.Broker

open Bytes Transition Tfs Tfs.Fs

/-- The text of a message that fits the buffers of `start_publisher`. -/
structure Text where
  text : CString
  fits : text.length < pSMessageSize

/-- `message_buffer` after a read: the code `09`, the separator, the text and terminators. -/
def messageBuffer (text : Text) : List UInt8 :=
  '0'.toUInt8 :: '9'.toUInt8 :: Clients.separator :: text.text.padTo pSMessageSize

/-- The bytes of `buffer` that are passed to `tfs_write`: `stringlen` of them are copied from
behind the separator, and the last one is set to the terminator. -/
def payload (text : Text) : List UInt8 :=
  let stringlen := (CString.ofBuffer (messageBuffer text)).length - 2
  (((messageBuffer text).drop 3).take stringlen).set (stringlen - 1) 0

def Server.modifyBox (srv : Server) (i : Nat) (f : Box → Box) : Server :=
  srv.setBox i (f (srv.boxes i))

/-- The body of the read loop of `start_publisher` for one message, under the lock of the box.
The result tells whether the session goes on. -/
def publish (srv : Server) (index : Nat) (box : BoxName) (text : Text) :
    Except Fault (Bool × Server) := do
  let (fhandle, fs) ← srv.fs.tfsOpen (some box.name) { append := true }
  let srv := srv.setFs fs
  if fhandle < 0 then
    -- the box was removed
    .ok (false, srv.modifyBox index fun b => { b with nPublishers := b.nPublishers - 1 })
  else do
    let buffer := store (fun _ => 0) 0 (payload text)
    let (written, fs) ← srv.fs.tfsWrite fhandle buffer (payload text).length
    let srv := srv.setFs fs
    if written ≤ 0 then do
      let (_, fs) ← srv.fs.tfsClose fhandle
      .ok (false, srv.setFs fs)
    else do
      let srv := srv.modifyBox index fun b => { b with size := b.size + .ofNat written.toNat }
      let (closed, fs) ← srv.fs.tfsClose fhandle
      .ok (decide (closed = 0), srv.setFs fs)

variable {srv : Server} {st : FileStore CString} {box : BoxName}

@[simp] theorem modifyBox_fs (srv : Server) (i : Nat) (f : Box → Box) :
    (srv.modifyBox i f).fs = srv.fs := rfl

/-- The bytes of a message that fit behind the contents of a file. -/
def fitting (contents : List UInt8) (text : Text) : List UInt8 :=
  (payload text).take (tfsDefaultParams.blockSize - contents.length)

/-- The bytes that are passed to `tfs_write` for what has been read into `message_buffer`. -/
def stored (messageBuffer : List UInt8) : List UInt8 :=
  let stringlen := (CString.ofBuffer messageBuffer).length - 2
  ((messageBuffer.drop 3).take stringlen).set (stringlen - 1) 0

/-- A `message_buffer` that holds a text with its terminator. -/
theorem stored_of_terminated (text : Text) (rest : List UInt8) :
    stored ('0'.toUInt8 :: '9'.toUInt8 :: Clients.separator :: (text.text.bytes ++ 0 :: rest)) =
      text.text.bytes ++ [0] := by
  let line : CString := ⟨'0'.toUInt8 :: '9'.toUInt8 :: Clients.separator :: text.text.bytes, by
    have hsep : '0'.toUInt8 ≠ 0 ∧ '9'.toUInt8 ≠ 0 ∧ Clients.separator ≠ 0 := by decide
    simpa [hsep] using text.text.nul_free⟩
  have hline : CString.ofBuffer
      ('0'.toUInt8 :: '9'.toUInt8 :: Clients.separator :: (text.text.bytes ++ 0 :: rest)) = line :=
    CString.ofBuffer_append_zero line rest
  have hcopied : (text.text.bytes ++ 0 :: rest).take (text.text.bytes.length + 1) =
      text.text.bytes ++ [0] := by
    rw [List.take_append]
    simp
  rw [stored, hline]
  show ((text.text.bytes ++ 0 :: rest).take (text.text.bytes.length + 1)).set
    text.text.bytes.length 0 = _
  rw [hcopied, List.set_append_right _ _ (le_refl _), Nat.sub_self]
  rfl

/-- The payload is the text with its terminator. -/
theorem payload_eq (text : Text) : payload text = text.text.bytes ++ [0] := by
  obtain ⟨k, hk⟩ : ∃ k, pSMessageSize - text.text.length = k + 1 :=
    ⟨pSMessageSize - text.text.length - 1, by have := text.fits; omega⟩
  have hshape : messageBuffer text = '0'.toUInt8 :: '9'.toUInt8 :: Clients.separator ::
      (text.text.bytes ++ 0 :: List.replicate k 0) := by
    rw [messageBuffer, CString.padTo, hk, List.replicate_succ]
  show stored (messageBuffer text) = _
  rw [hshape, stored_of_terminated]

theorem length_payload (text : Text) : (payload text).length = text.text.length + 1 := by
  simp [payload_eq, CString.length]

theorem length_payload_le (text : Text) : (payload text).length ≤ ssizeMax := by
  have h := text.fits
  rw [length_payload]
  simp only [pSMessageSize, ssizeMax] at h ⊢
  omega

/-- Opening the file of a box for appending and writing a message to it. -/
theorem Idle.append (h : Idle srv.fs st) (hp : HasPath srv.fs box.name) (text : Text) :
    ∃ fs₁ fs₂ offset, srv.fs.tfsOpen (some box.name) { append := true } = .ok (0, fs₁) ∧
      fs₁.tfsWrite 0 (store (fun _ => 0) 0 (payload text)) (payload text).length =
        .ok (((fitting (st.contents box.name.tail) text).length : Nat), fs₂) ∧
      Refines tfsDefaultParams fs₂ ((st.setContents box.name.tail
        (st.contents box.name.tail ++ fitting (st.contents box.name.tail) text)).setHandle 0
          (some (box.name.tail, offset))) := by
  obtain ⟨fs₁, hopen, hr, _⟩ := h.open_existing hp { append := true } rfl
  obtain ⟨fs₂, offset, hwrite, hr'⟩ := write_append (payload text) hr (length_payload_le text)
  exact ⟨fs₁, fs₂, offset, hopen, hwrite, hr'⟩

/-- A message to a box whose file has room. -/
theorem publish_written (h : Idle srv.fs st) (hp : HasPath srv.fs box.name)
    (index : Nat) (text : Text) (hroom : fitting (st.contents box.name.tail) text ≠ []) :
    ∃ fs', publish srv index box text = .ok (true, (srv.setFs fs').modifyBox index fun b =>
        { b with size := b.size + .ofNat (fitting (st.contents box.name.tail) text).length }) ∧
      Idle fs' (st.setContents box.name.tail
        (st.contents box.name.tail ++ fitting (st.contents box.name.tail) text)) := by
  obtain ⟨fs₁, fs₂, offset, hopen, hwrite, hr⟩ := h.append hp text
  obtain ⟨fs₃, hclose, hidle, _⟩ := idle_of_close hr h.handles
  refine ⟨fs₃, ?_, hidle⟩
  have hpos := List.length_pos_iff.mpr hroom
  generalize hn : (fitting (st.contents box.name.tail) text).length = n at hwrite hpos ⊢
  have hw : ¬ (n : Int) ≤ 0 := by omega
  simp only [publish, hopen, ok_bind, Server.setFs_fs, hwrite, hw, if_false, modifyBox_fs, hclose]
  rfl

/-- A message to a box whose file is full. -/
theorem publish_full (h : Idle srv.fs st) (hp : HasPath srv.fs box.name)
    (index : Nat) (text : Text) (hfull : fitting (st.contents box.name.tail) text = []) :
    ∃ fs', publish srv index box text = .ok (false, srv.setFs fs') ∧ Idle fs' st := by
  obtain ⟨fs₁, fs₂, offset, hopen, hwrite, hr⟩ := h.append hp text
  rw [hfull, List.append_nil] at hr
  rw [hfull] at hwrite
  have hsame : st.setContents box.name.tail (st.contents box.name.tail) = st := by
    simp only [FileStore.setContents, Function.update_eq_self]
  rw [hsame] at hr
  obtain ⟨fs₃, hclose, hidle, _⟩ := idle_of_close hr h.handles
  refine ⟨fs₃, ?_, hidle⟩
  simp only [publish, hopen, ok_bind, Server.setFs_fs, hwrite, hclose]
  rfl

/-- A message to a box that was removed. -/
theorem publish_removed (h : Idle srv.fs st) (hp : ¬ HasPath srv.fs box.name) (index : Nat)
    (text : Text) :
    ∃ fs', publish srv index box text = .ok (false, (srv.setFs fs').modifyBox index fun b =>
        { b with nPublishers := b.nPublishers - 1 }) ∧ Idle fs' st := by
  obtain ⟨fs₁, hopen, hidle, _⟩ := h.open_absent hp { append := true } rfl rfl
  refine ⟨fs₁, ?_, hidle⟩
  simp only [publish, hopen, ok_bind]
  rfl

end MessageBroker.Broker
