import MessageBroker.Broker.Files
import MessageBroker.Clients.Register

/-!
# The state of the broker

The box table with its file system, and `create_box`, `remove_box` and
`register_entry` on it. The paths and box names are those that `process_entry`
leaves in its buffers. Pipes that cannot be opened are left out: an answer to a
manager is the list of messages sent to its pipe.
-/

namespace MessageBroker.Broker

open Bytes Table Transition Tfs Tfs.Fs

/-- `box_t` without its lock; the name of a free slot is empty. -/
structure Box where
  name : CString
  size : UInt64
  nPublishers : UInt64
  nSubscribers : UInt64

structure Server where
  maxSessions : Nat
  nBoxes : Int
  boxes : Nat → Box
  fs : Fs

namespace Server

def setFs (srv : Server) (fs : Fs) : Server := { srv with fs := fs }

def setBox (srv : Server) (i : Nat) (box : Box) : Server :=
  { srv with boxes := Function.update srv.boxes i box }

@[simp] theorem setFs_fs (srv : Server) (fs : Fs) : (srv.setFs fs).fs = fs := rfl

@[simp] theorem setFs_boxes (srv : Server) (fs : Fs) : (srv.setFs fs).boxes = srv.boxes := rfl

@[simp] theorem setFs_nBoxes (srv : Server) (fs : Fs) : (srv.setFs fs).nBoxes = srv.nBoxes := rfl

@[simp] theorem setFs_maxSessions (srv : Server) (fs : Fs) :
    (srv.setFs fs).maxSessions = srv.maxSessions := rfl

@[simp] theorem setFs_setFs (srv : Server) (fs fs' : Fs) :
    (srv.setFs fs).setFs fs' = srv.setFs fs' := rfl

@[simp] theorem setBox_boxes (srv : Server) (i : Nat) (box : Box) :
    (srv.setBox i box).boxes = Function.update srv.boxes i box := rfl

/-- The first slot with the given name: the loops over `boxes` with `strcmp`. -/
def findBox (srv : Server) (name : CString) : Option Nat :=
  firstIndex (fun i => decide ((srv.boxes i).name = name)) srv.maxSessions

@[simp] theorem setFs_findBox (srv : Server) (fs : Fs) (name : CString) :
    (srv.setFs fs).findBox name = srv.findBox name := rfl

theorem findBox_eq_some {srv : Server} {name : CString} {i : Nat}
    (h : srv.findBox name = some i) : i < srv.maxSessions ∧ (srv.boxes i).name = name := by
  obtain ⟨hname, hi, _⟩ := firstIndex_eq_some.mp h
  exact ⟨hi, of_decide_eq_true hname⟩

theorem findBox_eq_none {srv : Server} {name : CString} (h : srv.findBox name = none) :
    ∀ i < srv.maxSessions, (srv.boxes i).name ≠ name := by
  intro i hi
  exact of_decide_eq_false (firstIndex_eq_none.mp h i hi)

/-- The loop of `create_box` that takes the first free slot. -/
def takeSlot (srv : Server) (name : CString) : Server :=
  match srv.findBox .empty with
  | some i => { srv.setBox i { srv.boxes i with name := name } with nBoxes := srv.nBoxes + 1 }
  | none => srv

/-- The loop of `remove_box` that frees the slot of a box. -/
def freeSlot (srv : Server) (name : CString) : Server :=
  match srv.findBox name with
  | some i => { srv.setBox i { srv.boxes i with name := .empty } with nBoxes := srv.nBoxes - 1 }
  | none => srv

end Server

/-- `init_server`: all slots are free and the file system is created. -/
def initServer (fs : Fs) (malloc : Malloc) (maxSessions : Nat) : Except Fault (Int × Server) := do
  let (r, fs) ← fs.tfsInit tfsDefaultParams malloc
  let boxes := fun _ => { name := .empty, size := 0, nPublishers := 0, nSubscribers := 0 }
  .ok (if r ≠ 0 then 1 else 0, { maxSessions := maxSessions, nBoxes := 0, boxes := boxes, fs := fs })

/-- A message of `send_message_manager`. -/
structure Message where
  pipe : CString
  operation : UInt8
  code : Int
  text : String

/-- What a session returns and the messages that it has sent. -/
structure Answer where
  ret : Int
  sent : List Message

/-- The request was answered with code `-1`. -/
def Answer.refused (a : Answer) : Prop := ∃ m ∈ a.sent, m.code = -1

def createBox (srv : Server) (pipe : PipePath) (box : BoxName) :
    Except Fault (Answer × Server) := do
  let send := Message.mk pipe.name opCodeBoxCreateR
  let (fhandle, fs) ← srv.fs.tfsOpen (some box.name) { append := true }
  let srv := srv.setFs fs
  if 0 ≤ fhandle then do
    let (closed, fs) ← srv.fs.tfsClose fhandle
    let failed := if closed ≠ 0 then [send (-1) "create_box: Failed close file"] else []
    .ok (⟨-1, failed ++ [send (-1) "create_box: Box already exist"]⟩, srv.setFs fs)
  else do
    let (fhandle, fs) ← srv.fs.tfsOpen (some box.name) { creat := true }
    let srv := srv.setFs fs
    if fhandle < 0 then .ok (⟨-1, [send (-1) "create_box: Failed create file"]⟩, srv)
    else do
      let (closed, fs) ← srv.fs.tfsClose fhandle
      let srv := srv.setFs fs
      if closed ≠ 0 then .ok (⟨-1, [send (-1) "create_box: Failed close file"]⟩, srv)
      else if srv.nBoxes = srv.maxSessions then
        .ok (⟨-1, [send (-1) "create_box: No space left"]⟩, srv)
      else .ok (⟨0, [send 0 ""]⟩, srv.takeSlot box.name)

def removeBox (srv : Server) (pipe : PipePath) (box : BoxName) :
    Except Fault (Answer × Server) := do
  let send := Message.mk pipe.name opCodeBoxRemoveR
  let (fhandle, fs) ← srv.fs.tfsOpen (some box.name) { append := true }
  let srv := srv.setFs fs
  if fhandle < 0 then .ok (⟨-1, [send (-1) "remove_box: Box does not exist"]⟩, srv)
  else do
    let (closed, fs) ← srv.fs.tfsClose fhandle
    let srv := srv.setFs fs
    if closed ≠ 0 then .ok (⟨-1, [send (-1) "remove_box: Failed close file"]⟩, srv)
    else do
      let (unlinked, fs) ← srv.fs.tfsUnlink (some box.name)
      let srv := srv.setFs fs
      if unlinked ≠ 0 then .ok (⟨-1, [send (-1) "remove_box: Failed unlink file"]⟩, srv)
      else .ok (⟨0, [send 0 ""]⟩, srv.freeSlot box.name)

/-- `register_entry` behind `process_entry`: the index of the box, or `-1`. -/
def registerEntry (srv : Server) (box : BoxName) : Except Fault (Int × Server) := do
  let (fhandle, fs) ← srv.fs.tfsOpen (some box.name) { append := true }
  let srv := srv.setFs fs
  if fhandle < 0 then .ok (-1, srv)
  else do
    let (closed, fs) ← srv.fs.tfsClose fhandle
    let srv := srv.setFs fs
    if closed ≠ 0 then .ok (-1, srv)
    else
      match srv.findBox box.name with
      | some i => .ok (i, srv)
      | none => .ok (-1, srv)

variable {srv : Server} {st : FileStore CString} {box : BoxName}

/-! ### Outcomes while no handle is open -/

theorem length_tail_lt (box : BoxName) : box.name.tail.length < maxFileName := by
  have h := box.fits
  rw [CString.length_tail]
  simp only [boxNameSize, maxFileName] at h ⊢
  omega

theorem createBox_existing (pipe : PipePath) (h : Idle srv.fs st)
    (hp : HasPath srv.fs box.name) :
    ∃ fs', createBox srv pipe box =
        .ok (⟨-1, [⟨pipe.name, opCodeBoxCreateR, -1, "create_box: Box already exist"⟩]⟩,
          srv.setFs fs') ∧
      Idle fs' st ∧ fs'.fsData = srv.fs.fsData := by
  obtain ⟨fs₁, fs₂, hopen, hclose, hidle, hdata⟩ := h.open_close hp { append := true } rfl
  refine ⟨fs₂, ?_, hidle, hdata⟩
  simp only [createBox, hopen, ok_bind, Server.setFs_fs, hclose]
  rfl

theorem createBox_fails (pipe : PipePath) (h : Idle srv.fs st)
    (hp : ¬ HasPath srv.fs box.name)
    (hno : ¬ (validPathname (some box.name) = true ∧ HasRoom st box.name)) :
    ∃ fs', createBox srv pipe box =
        .ok (⟨-1, [⟨pipe.name, opCodeBoxCreateR, -1, "create_box: Failed create file"⟩]⟩,
          srv.setFs fs') ∧
      Idle fs' st ∧ fs'.fsData = srv.fs.fsData := by
  obtain ⟨fs₁, hopen, hidle, hdata⟩ := h.open_absent hp { append := true } rfl rfl
  have hp₁ : ¬ HasPath fs₁ box.name := mt (h.hasPath_congr hidle rfl).mp hp
  obtain ⟨fs₂, hcreat, hidle', hdata'⟩ := hidle.open_creat_fails hp₁ hno
  refine ⟨fs₂, ?_, hidle', hdata'.trans hdata⟩
  simp only [createBox, hopen, ok_bind, Server.setFs_fs, hcreat]
  rfl

/-- The calls of `create_box` for a path that can be created. -/
theorem creates (h : Idle srv.fs st) (hp : ¬ HasPath srv.fs box.name)
    (hv : validPathname (some box.name) = true) (hroom : HasRoom st box.name) :
    ∃ fs₁ fs₂ fs₃, srv.fs.tfsOpen (some box.name) { append := true } = .ok (-1, fs₁) ∧
      fs₁.tfsOpen (some box.name) { creat := true } = .ok (0, fs₂) ∧
      fs₂.tfsClose 0 = .ok (0, fs₃) ∧ Idle fs₃ (st.create box.name.tail) := by
  obtain ⟨fs₁, hopen, hidle, _⟩ := h.open_absent hp { append := true } rfl rfl
  have hp₁ : ¬ HasPath fs₁ box.name := mt (h.hasPath_congr hidle rfl).mp hp
  obtain ⟨fs₂, fs₃, hcreat, hclose, hidle'⟩ := hidle.creat_close hp₁ hv hroom
  exact ⟨fs₁, fs₂, fs₃, hopen, hcreat, hclose, hidle'⟩

/-- With all slots taken the file is created all the same. -/
theorem createBox_noSpace (pipe : PipePath) (h : Idle srv.fs st)
    (hp : ¬ HasPath srv.fs box.name)
    (hv : validPathname (some box.name) = true) (hroom : HasRoom st box.name)
    (hfull : srv.nBoxes = srv.maxSessions) :
    ∃ fs', createBox srv pipe box =
        .ok (⟨-1, [⟨pipe.name, opCodeBoxCreateR, -1, "create_box: No space left"⟩]⟩,
          srv.setFs fs') ∧
      Idle fs' (st.create box.name.tail) := by
  obtain ⟨fs₁, fs₂, fs₃, hopen, hcreat, hclose, hidle⟩ := creates h hp hv hroom
  refine ⟨fs₃, ?_, hidle⟩
  simp only [createBox, hopen, ok_bind, Server.setFs_fs, hcreat, hclose, Server.setFs_setFs,
    Server.setFs_nBoxes, Server.setFs_maxSessions, hfull]
  rfl

theorem createBox_created (pipe : PipePath) (h : Idle srv.fs st)
    (hp : ¬ HasPath srv.fs box.name)
    (hv : validPathname (some box.name) = true) (hroom : HasRoom st box.name)
    (hfree : srv.nBoxes ≠ srv.maxSessions) :
    ∃ fs', createBox srv pipe box =
        .ok (⟨0, [⟨pipe.name, opCodeBoxCreateR, 0, ""⟩]⟩, (srv.setFs fs').takeSlot box.name) ∧
      Idle fs' (st.create box.name.tail) := by
  obtain ⟨fs₁, fs₂, fs₃, hopen, hcreat, hclose, hidle⟩ := creates h hp hv hroom
  refine ⟨fs₃, ?_, hidle⟩
  simp only [createBox, hopen, ok_bind, Server.setFs_fs, hcreat, hclose, Server.setFs_setFs,
    Server.setFs_nBoxes, Server.setFs_maxSessions, hfree]
  rfl

theorem removeBox_absent (pipe : PipePath) (h : Idle srv.fs st)
    (hp : ¬ HasPath srv.fs box.name) :
    ∃ fs', removeBox srv pipe box =
        .ok (⟨-1, [⟨pipe.name, opCodeBoxRemoveR, -1, "remove_box: Box does not exist"⟩]⟩,
          srv.setFs fs') ∧
      Idle fs' st ∧ fs'.fsData = srv.fs.fsData := by
  obtain ⟨fs₁, hopen, hidle, hdata⟩ := h.open_absent hp { append := true } rfl rfl
  refine ⟨fs₁, ?_, hidle, hdata⟩
  simp only [removeBox, hopen, ok_bind]
  rfl

theorem removeBox_removed (pipe : PipePath) (h : Idle srv.fs st)
    (hp : HasPath srv.fs box.name) :
    ∃ fs', removeBox srv pipe box =
        .ok (⟨0, [⟨pipe.name, opCodeBoxRemoveR, 0, ""⟩]⟩, (srv.setFs fs').freeSlot box.name) ∧
      Idle fs' (st.remove box.name.tail) := by
  obtain ⟨fs₁, fs₂, hopen, hclose, hidle, _⟩ := h.open_close hp { append := true } rfl
  have hp₂ : HasPath fs₂ box.name := (h.hasPath_congr hidle rfl).mpr hp
  obtain ⟨fs₃, hunlink, hidle'⟩ := hidle.unlink hp₂
  refine ⟨fs₃, ?_, hidle'⟩
  simp only [removeBox, hopen, ok_bind, Server.setFs_fs, hclose, hunlink, Server.setFs_setFs]
  rfl

theorem registerEntry_absent (h : Idle srv.fs st) (hp : ¬ HasPath srv.fs box.name) :
    ∃ fs', registerEntry srv box = .ok (-1, srv.setFs fs') ∧ Idle fs' st := by
  obtain ⟨fs₁, hopen, hidle, _⟩ := h.open_absent hp { append := true } rfl rfl
  refine ⟨fs₁, ?_, hidle⟩
  simp only [registerEntry, hopen, ok_bind]
  rfl

theorem registerEntry_existing (h : Idle srv.fs st) (hp : HasPath srv.fs box.name) :
    ∃ fs', registerEntry srv box =
        .ok (((srv.findBox box.name).map Int.ofNat).getD (-1), srv.setFs fs') ∧ Idle fs' st := by
  obtain ⟨fs₁, fs₂, hopen, hclose, hidle, _⟩ := h.open_close hp { append := true } rfl
  refine ⟨fs₂, ?_, hidle⟩
  cases hf : srv.findBox box.name with
  | some i =>
    simp only [registerEntry, hopen, ok_bind, Server.setFs_fs, hclose, Server.setFs_setFs,
      Server.setFs_findBox, hf]
    rfl
  | none =>
    simp only [registerEntry, hopen, ok_bind, Server.setFs_fs, hclose, Server.setFs_setFs,
      Server.setFs_findBox, hf]
    rfl

end MessageBroker.Broker
