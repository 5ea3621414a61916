import MessageBroker.Broker.Subscriber

/-!
# Functions of the broker call by call

A call of TecnicoFS holds `g_library_mutex` and is one step, but no lock spans two
calls of a session. The functions of the broker are cut here into steps, each with at
most one call or one scan of `boxes`; a function whose steps are taken one behind the
other is the function as a whole.
-/

namespace MessageBroker.Broker

open Bytes Transition Tfs Tfs.Fs

/-- A function stands before its next step or has returned. -/
inductive Progress (σ ρ : Type)
  | next (step : σ)
  | done (result : ρ)

/-- Take at most `fuel` steps, with nothing in between. -/
def untilDone {σ ρ : Type} (step : Server → σ → Except Fault (Progress σ ρ × Server)) :
    Nat → Server → σ → Except Fault (Progress σ ρ × Server)
  | 0, srv, s => .ok (.next s, srv)
  | fuel + 1, srv, s => do
    let (p, srv) ← step srv s
    match p with
    | .next s => untilDone step fuel srv s
    | .done r => .ok (.done r, srv)

/-- The handle that a function holds before its next step; it has returned them all at its end. -/
def Progress.held {σ ρ : Type} (held : σ → Option Int) : Progress σ ρ → Option Int
  | .next s => held s
  | .done _ => none

/-! ### Requests of a manager -/

inductive CreateStep
  | test
  | closeExisting (fhandle : Int)
  | create
  | close (fhandle : Int)
  | takeSlot
deriving DecidableEq

def CreateStep.held : CreateStep → Option Int
  | closeExisting fhandle => some fhandle
  | close fhandle => some fhandle
  | _ => none

def createStep (pipe : PipePath) (box : BoxName) (srv : Server) :
    CreateStep → Except Fault (Progress CreateStep Answer × Server)
  | .test => do
    let (fhandle, fs) ← srv.fs.tfsOpen (some box.name) { append := true }
    .ok (.next (if 0 ≤ fhandle then .closeExisting fhandle else .create), srv.setFs fs)
  | .closeExisting fhandle => do
    let send := Message.mk pipe.name opCodeBoxCreateR
    let (closed, fs) ← srv.fs.tfsClose fhandle
    let failed := if closed ≠ 0 then [send (-1) "create_box: Failed close file"] else []
    .ok (.done ⟨-1, failed ++ [send (-1) "create_box: Box already exist"]⟩, srv.setFs fs)
  | .create => do
    let send := Message.mk pipe.name opCodeBoxCreateR
    let (fhandle, fs) ← srv.fs.tfsOpen (some box.name) { creat := true }
    if fhandle < 0 then
      .ok (.done ⟨-1, [send (-1) "create_box: Failed create file"]⟩, srv.setFs fs)
    else .ok (.next (.close fhandle), srv.setFs fs)
  | .close fhandle => do
    let send := Message.mk pipe.name opCodeBoxCreateR
    let (closed, fs) ← srv.fs.tfsClose fhandle
    if closed ≠ 0 then
      .ok (.done ⟨-1, [send (-1) "create_box: Failed close file"]⟩, srv.setFs fs)
    else .ok (.next .takeSlot, srv.setFs fs)
  | .takeSlot =>
    let send := Message.mk pipe.name opCodeBoxCreateR
    if srv.nBoxes = srv.maxSessions then
      .ok (.done ⟨-1, [send (-1) "create_box: No space left"]⟩, srv)
    else .ok (.done ⟨0, [send 0 ""]⟩, srv.takeSlot box.name)

inductive RemoveStep
  | test
  | close (fhandle : Int)
  | unlink
  | freeSlot
deriving DecidableEq

def RemoveStep.held : RemoveStep → Option Int
  | close fhandle => some fhandle
  | _ => none

def removeStep (pipe : PipePath) (box : BoxName) (srv : Server) :
    RemoveStep → Except Fault (Progress RemoveStep Answer × Server)
  | .test => do
    let send := Message.mk pipe.name opCodeBoxRemoveR
    let (fhandle, fs) ← srv.fs.tfsOpen (some box.name) { append := true }
    if fhandle < 0 then
      .ok (.done ⟨-1, [send (-1) "remove_box: Box does not exist"]⟩, srv.setFs fs)
    else .ok (.next (.close fhandle), srv.setFs fs)
  | .close fhandle => do
    let send := Message.mk pipe.name opCodeBoxRemoveR
    let (closed, fs) ← srv.fs.tfsClose fhandle
    if closed ≠ 0 then
      .ok (.done ⟨-1, [send (-1) "remove_box: Failed close file"]⟩, srv.setFs fs)
    else .ok (.next .unlink, srv.setFs fs)
  | .unlink => do
    let send := Message.mk pipe.name opCodeBoxRemoveR
    let (unlinked, fs) ← srv.fs.tfsUnlink (some box.name)
    if unlinked ≠ 0 then
      .ok (.done ⟨-1, [send (-1) "remove_box: Failed unlink file"]⟩, srv.setFs fs)
    else .ok (.next .freeSlot, srv.setFs fs)
  | .freeSlot =>
    let send := Message.mk pipe.name opCodeBoxRemoveR
    .ok (.done ⟨0, [send 0 ""]⟩, srv.freeSlot box.name)

/-! ### Sessions -/

inductive RegisterStep
  | test
  | close (fhandle : Int)
  | scan
deriving DecidableEq

def RegisterStep.held : RegisterStep → Option Int
  | close fhandle => some fhandle
  | _ => none

/-- `register_entry` behind `process_entry`. -/
def registerStep (box : BoxName) (srv : Server) :
    RegisterStep → Except Fault (Progress RegisterStep Int × Server)
  | .test => do
    let (fhandle, fs) ← srv.fs.tfsOpen (some box.name) { append := true }
    .ok (if fhandle < 0 then .done (-1) else .next (.close fhandle), srv.setFs fs)
  | .close fhandle => do
    let (closed, fs) ← srv.fs.tfsClose fhandle
    .ok (if closed ≠ 0 then .done (-1) else .next .scan, srv.setFs fs)
  | .scan =>
    match srv.findBox box.name with
    | some i => .ok (.done i, srv)
    | none => .ok (.done (-1), srv)

inductive PublishStep
  | open
  | write (fhandle : Int)
  | close (fhandle written : Int)
deriving DecidableEq

def PublishStep.held : PublishStep → Option Int
  | «open» => none
  | write fhandle => some fhandle
  | close fhandle _ => some fhandle

/-- The body of the read loop of `start_publisher`; the result tells whether the session goes on. -/
def publishStep (index : Nat) (box : BoxName) (text : Text) (srv : Server) :
    PublishStep → Except Fault (Progress PublishStep Bool × Server)
  | .open => do
    let (fhandle, fs) ← srv.fs.tfsOpen (some box.name) { append := true }
    let srv := srv.setFs fs
    if fhandle < 0 then
      .ok (.done false, srv.modifyBox index fun b => { b with nPublishers := b.nPublishers - 1 })
    else .ok (.next (.write fhandle), srv)
  | .write fhandle => do
    let buffer := store (fun _ => 0) 0 (payload text)
    let (written, fs) ← srv.fs.tfsWrite fhandle buffer (payload text).length
    let srv := srv.setFs fs
    .ok (.next (.close fhandle written), if written ≤ 0 then srv else
      srv.modifyBox index fun b => { b with size := b.size + .ofNat written.toNat })
  | .close fhandle written => do
    let (closed, fs) ← srv.fs.tfsClose fhandle
    .ok (.done (decide (0 < written ∧ closed = 0)), srv.setFs fs)

inductive PollStep
  | open
  | read (fhandle : Int) (count : Nat) (buffer : List UInt8)
  | close (fhandle : Int) (result : Scan)

def PollStep.held : PollStep → Option Int
  | «open» => none
  | read fhandle _ _ => some fhandle
  | close fhandle _ => some fhandle

/-- The inner loop of `start_subscriber` behind a read: the scan ends, or goes on with a buffer. -/
def scanByte (bytesProcessed count : Nat) (buffer : List UInt8) (bytesRead : Int)
    (bytes : List UInt8) : Scan ⊕ List UInt8 :=
  let auxChar := bytes.headD 0
  if bytesRead ≤ 0 then .inl ⟨count, buffer, bytesRead⟩
  else if bytesProcessed ≤ count then
    if auxChar = 0 ∧ bytesProcessed < count then .inl ⟨count, buffer ++ [auxChar], bytesRead⟩
    else if auxChar ≠ 0 then .inr (buffer ++ [auxChar])
    else .inr buffer
  else .inr buffer

/-- One pass of the outer loop of `start_subscriber`. -/
def pollStep (index : Nat) (box : BoxName) (bytesProcessed : Nat) (stale : List UInt8)
    (clientGone : Bool) (srv : Server) :
    PollStep → Except Fault (Progress PollStep PollEnd × Server)
  | .open => do
    let (fhandle, fs) ← srv.fs.tfsOpen (some box.name) {}
    if fhandle < 0 then .ok (.done .ended, (srv.setFs fs).dropSubscriber index)
    else .ok (.next (.read fhandle 0 []), srv.setFs fs)
  | .read fhandle count buffer => do
    let ((bytesRead, bytes), fs) ← srv.fs.tfsRead fhandle 1
    let next := match scanByte bytesProcessed (count + 1) buffer bytesRead bytes with
      | .inl result => .close fhandle result
      | .inr buffer => .read fhandle (count + 1) buffer
    .ok (.next next, srv.setFs fs)
  | .close fhandle result => do
    let (closed, fs) ← srv.fs.tfsClose fhandle
    let srv := srv.setFs fs
    if result.bytesRead < 0 then .ok (.done .ended, srv)
    else if clientGone then .ok (.done .ended, srv.dropSubscriber index)
    else if closed ≠ 0 then .ok (.done .ended, srv)
    else
      let message := if result.bytesRead ≠ 0 then
        some (CString.ofBuffer (result.buffer ++ stale)) else none
      .ok (.done (.goesOn result.count message), srv)

/-! ### Whole functions -/

variable (srv : Server) (pipe : PipePath) (box : BoxName)

theorem createBox_eq_untilDone :
    untilDone (createStep pipe box) 4 srv .test =
      (createBox srv pipe box).map fun (a, srv) => (.done a, srv) := by
  simp only [untilDone, createStep, createBox]
  -- both sides make the same calls and test their results in the same order
  rcases srv.fs.tfsOpen (some box.name) { append := true } with e | ⟨fhandle, fs⟩
  · rfl
  by_cases hopen : 0 ≤ fhandle
  · simp only [ok_bind, if_pos hopen, Server.setFs_fs]
    rcases fs.tfsClose fhandle with e | ⟨closed, fs⟩
    · rfl
    · rfl
  simp only [ok_bind, if_neg hopen, Server.setFs_fs]
  rcases fs.tfsOpen (some box.name) { creat := true } with e | ⟨fhandle, fs⟩
  · rfl
  by_cases hcreat : fhandle < 0
  · simp only [ok_bind, if_pos hcreat]
    rfl
  simp only [ok_bind, if_neg hcreat, Server.setFs_fs]
  rcases fs.tfsClose fhandle with e | ⟨closed, fs⟩
  · rfl
  by_cases hclosed : closed ≠ 0
  · simp only [ok_bind, if_pos hclosed]
    rfl
  simp only [ok_bind, if_neg hclosed, Server.setFs_setFs, Server.setFs_nBoxes,
    Server.setFs_maxSessions]
  by_cases hfull : srv.nBoxes = srv.maxSessions
  · simp only [hfull, if_true]
    rfl
  · simp only [hfull, if_false]
    rfl

theorem removeBox_eq_untilDone :
    untilDone (removeStep pipe box) 4 srv .test =
      (removeBox srv pipe box).map fun (a, srv) => (.done a, srv) := by
  simp only [untilDone, removeStep, removeBox]
  rcases srv.fs.tfsOpen (some box.name) { append := true } with e | ⟨fhandle, fs⟩
  · rfl
  by_cases hopen : fhandle < 0
  · simp only [ok_bind, if_pos hopen]
    rfl
  simp only [ok_bind, if_neg hopen, Server.setFs_fs]
  rcases fs.tfsClose fhandle with e | ⟨closed, fs⟩
  · rfl
  by_cases hclosed : closed ≠ 0
  · simp only [ok_bind, if_pos hclosed]
    rfl
  simp only [ok_bind, if_neg hclosed, Server.setFs_fs]
  rcases fs.tfsUnlink (some box.name) with e | ⟨unlinked, fs⟩
  · rfl
  by_cases hunlinked : unlinked ≠ 0
  · simp only [ok_bind, if_pos hunlinked]
    rfl
  · simp only [ok_bind, if_neg hunlinked]
    rfl

theorem registerEntry_eq_untilDone :
    untilDone (registerStep box) 3 srv .test =
      (registerEntry srv box).map fun (i, srv) => (.done i, srv) := by
  simp only [untilDone, registerStep, registerEntry]
  rcases srv.fs.tfsOpen (some box.name) { append := true } with e | ⟨fhandle, fs⟩
  · rfl
  by_cases hopen : fhandle < 0
  · simp only [ok_bind, if_pos hopen]
    rfl
  simp only [ok_bind, if_neg hopen, Server.setFs_fs]
  rcases fs.tfsClose fhandle with e | ⟨closed, fs⟩
  · rfl
  by_cases hclosed : closed ≠ 0
  · simp only [ok_bind, if_pos hclosed]
    rfl
  simp only [ok_bind, if_neg hclosed, Server.setFs_findBox]
  cases srv.findBox box.name with
  | none => rfl
  | some i => rfl

variable (index : Nat)

theorem publish_eq_untilDone (text : Text) :
    untilDone (publishStep index box text) 3 srv .open =
      (publish srv index box text).map fun (goesOn, srv) => (.done goesOn, srv) := by
  simp only [untilDone, publishStep, publish]
  rcases srv.fs.tfsOpen (some box.name) { append := true } with e | ⟨fhandle, fs⟩
  · rfl
  by_cases hopen : fhandle < 0
  · simp only [ok_bind, if_pos hopen]
    rfl
  simp only [ok_bind, if_neg hopen, Server.setFs_fs]
  rcases fs.tfsWrite fhandle (store (fun _ => 0) 0 (payload text)) (payload text).length with
    e | ⟨written, fs⟩
  · rfl
  by_cases hwritten : written ≤ 0
  · simp only [ok_bind, if_pos hwritten, Server.setFs_fs]
    rcases fs.tfsClose fhandle with e | ⟨closed, fs⟩
    · rfl
    · simp only [ok_bind, not_lt.mpr hwritten, false_and, decide_false]
      rfl
  · simp only [ok_bind, if_neg hwritten, Server.setFs_fs, modifyBox_fs]
    rcases fs.tfsClose fhandle with e | ⟨closed, fs⟩
    · rfl
    · simp only [ok_bind, not_le.mp hwritten, true_and]
      rfl

variable (bytesProcessed : Nat) (stale : List UInt8) (clientGone : Bool)

theorem scan_succ {fhandle : Int} {fuel count : Nat} {buffer : List UInt8} {fs : Fs} :
    scan fhandle bytesProcessed (fuel + 1) count buffer fs =
      fs.tfsRead fhandle 1 >>= fun ((bytesRead, bytes), fs) =>
        match scanByte bytesProcessed (count + 1) buffer bytesRead bytes with
        | .inl result => .ok (some result, fs)
        | .inr buffer => scan fhandle bytesProcessed fuel (count + 1) buffer fs := by
  rw [scan]
  congr 1
  funext read
  obtain ⟨⟨bytesRead, bytes⟩, fs⟩ := read
  simp only [scanByte]
  split_ifs <;> rfl

/-- The reads of a scan that comes to an end. -/
theorem scan_eq_untilDone {fhandle : Int} {fuel count : Nat} {buffer : List UInt8} {fs fs' : Fs}
    {result : Scan}
    (h : scan fhandle bytesProcessed fuel count buffer fs = .ok (some result, fs')) :
    ∃ n, ∀ k, untilDone (pollStep index box bytesProcessed stale clientGone) (n + k)
        (srv.setFs fs) (.read fhandle count buffer) =
      untilDone (pollStep index box bytesProcessed stale clientGone) k (srv.setFs fs')
        (.close fhandle result) := by
  -- every read is a step, and the scan ends with its fuel or before
  induction fuel generalizing count buffer fs with
  | zero => cases h
  | succ fuel ih =>
    rw [scan_succ] at h
    obtain ⟨⟨⟨bytesRead, bytes⟩, fs₁⟩, hread, h⟩ := bind_eq_ok.mp h
    cases hbyte : scanByte bytesProcessed (count + 1) buffer bytesRead bytes with
    | inl last =>
      simp only [hbyte] at h
      cases h
      refine ⟨1, fun k => ?_⟩
      rw [Nat.add_comm, untilDone]
      simp only [pollStep, Server.setFs_fs, hread, ok_bind, hbyte]
      rfl
    | inr buffer' =>
      simp only [hbyte] at h
      obtain ⟨n, hn⟩ := ih h
      refine ⟨n + 1, fun k => ?_⟩
      rw [Nat.add_right_comm, untilDone]
      simp only [pollStep, Server.setFs_fs, hread, ok_bind, hbyte]
      exact hn k

theorem poll_eq_untilDone {srv' : Server} {e : PollEnd}
    (h : poll srv index box bytesProcessed stale clientGone = .ok (some e, srv')) :
    ∃ n, untilDone (pollStep index box bytesProcessed stale clientGone) n srv .open =
      .ok (.done e, srv') := by
  obtain ⟨⟨fhandle, fs⟩, hopen, h⟩ := bind_eq_ok.mp h
  simp only at h
  by_cases hneg : fhandle < 0
  · rw [if_pos hneg] at h
    cases h
    refine ⟨1, ?_⟩
    simp only [untilDone, pollStep, hopen, ok_bind, if_pos hneg]
  rw [if_neg hneg] at h
  obtain ⟨⟨_ | result, fs₁⟩, hscan, h⟩ := bind_eq_ok.mp h
  · cases h
  obtain ⟨⟨closed, fs₂⟩, hclose, h⟩ := bind_eq_ok.mp h
  obtain ⟨n, hn⟩ := scan_eq_untilDone srv box index bytesProcessed stale clientGone hscan
  refine ⟨n + 1 + 1, ?_⟩
  rw [untilDone]
  simp only [pollStep, hopen, ok_bind, if_neg hneg]
  rw [hn 1, untilDone]
  simp only [pollStep, Server.setFs_fs, Server.setFs_setFs, hclose, ok_bind]
  simp only at h
  -- the last step is the end of the pass, branch by branch
  by_cases hread : result.bytesRead < 0
  · simp only [hread, if_true] at h ⊢
    cases h
    rfl
  cases clientGone with
  | true =>
    simp only [hread, if_true, if_false] at h ⊢
    cases h
    rfl
  | false =>
    rcases eq_or_ne closed 0 with rfl | hclosed
    · simp only [hread, if_false, Bool.false_eq_true, ne_eq, not_true_eq_false] at h ⊢
      cases h
      rfl
    · simp only [hread, hclosed, if_true, if_false, Bool.false_eq_true, ne_eq,
        not_false_eq_true] at h ⊢
      cases h
      rfl

/-! ### The slots and the file system -/

theorem takeSlot_fs (srv : Server) (name : CString) : (srv.takeSlot name).fs = srv.fs := by
  unfold Server.takeSlot
  split <;> rfl

theorem takeSlot_maxSessions (srv : Server) (name : CString) :
    (srv.takeSlot name).maxSessions = srv.maxSessions := by
  unfold Server.takeSlot
  split <;> rfl

theorem freeSlot_fs (srv : Server) (name : CString) : (srv.freeSlot name).fs = srv.fs := by
  unfold Server.freeSlot
  split <;> rfl

theorem freeSlot_maxSessions (srv : Server) (name : CString) :
    (srv.freeSlot name).maxSessions = srv.maxSessions := by
  unfold Server.freeSlot
  split <;> rfl

/-! ### Calls while other handles are open -/

/-- An entry of the open file table is free. -/
def HandleFree (fs : Fs) : Prop := ∃ h < fs.maxOpenFiles, fs.freeOpenFileEntries h = .free

variable {fs fs' : Fs} {path : CString} {mode : FileMode}

theorem taken_of_full (hfull : ¬ HandleFree fs) (h : Nat) (hlt : h < fs.maxOpenFiles) :
    fs.freeOpenFileEntries h = .taken := by
  by_contra hne
  exact hfull ⟨h, hlt, not_taken.mp hne⟩

/-- An entry that is added while the table is not full. -/
theorem AddsHandle.slot_of_free {k offset : Nat} {r : Int} (ha : AddsHandle fs k offset r fs')
    (hfree : HandleFree fs) :
    ∃ h : Nat, r = h ∧ h < fs.maxOpenFiles ∧ fs.freeOpenFileEntries h = .free ∧
      fs' = fs.opened h k offset := by
  cases ha with
  | full hfull =>
    obtain ⟨h, hlt, hfree⟩ := hfree
    rw [hfull h hlt] at hfree
    cases hfree
  | slot h hlt hfree _ => exact ⟨h, rfl, hlt, hfree, rfl⟩

/-- `tfs_open` of a path that exists takes a free entry. -/
theorem open_found (wf : fs.WellFormed) (hp : HasPath fs path) (hfree : HandleFree fs)
    (mode : FileMode) (ht : mode.trunc = false) :
    ∃ h k offset : Nat, fs.tfsOpen (some path) mode = .ok (h, fs.opened h k offset) ∧
      h < fs.maxOpenFiles ∧ fs.freeOpenFileEntries h = .free ∧ fs.IsFile k := by
  obtain ⟨hv, i, k, he⟩ := hp
  obtain ⟨r, fs', heq, ho⟩ := wf.tfsOpen (some path) mode
  cases ho with
  | invalid hinv =>
    rw [hv] at hinv
    cases hinv
  | existing hn _ he' ha =>
    rw [afterTrunc_of_not ht] at ha
    obtain ⟨h, rfl, hlt, hfree, rfl⟩ := AddsHandle.slot_of_free ha hfree
    exact ⟨h, _, _, heq, hlt, hfree, wf.directory.isFile he'⟩
  | absent hn _ hno _ =>
    cases hn
    exact absurd he hno
  | noInode hn _ hno _ _ =>
    cases hn
    exact absurd he hno
  | noEntry _ hn _ hno _ _ _ _ =>
    cases hn
    exact absurd he hno
  | created _ _ hn _ _ hcan _ =>
    cases hn
    exact absurd he hcan.absent

/-- `tfs_open` of a path that does not exist, without creating it. -/
theorem open_missing (wf : fs.WellFormed) (hp : ¬ HasPath fs path) (mode : FileMode)
    (hc : mode.creat = false) :
    fs.tfsOpen (some path) mode = .ok (-1, fs) := by
  obtain ⟨r, fs', heq, ho⟩ := wf.tfsOpen (some path) mode
  cases ho with
  | invalid _ => exact heq
  | existing hn hv he _ =>
    cases hn
    exact absurd ⟨hv, _, _, he⟩ hp
  | absent _ _ _ _ => exact heq
  | noInode _ _ _ hc' _ =>
    rw [hc] at hc'
    cases hc'
  | noEntry _ _ _ _ hc' _ _ _ =>
    rw [hc] at hc'
    cases hc'
  | created _ _ _ _ hc' _ _ =>
    rw [hc] at hc'
    cases hc'

/-- `tfs_open` with `TFS_O_CREAT` where a file can be created. -/
theorem open_created (wf : fs.WellFormed) (hv : validPathname (some path) = true)
    (hcan : ∃ k i, fs.CanCreate k i path.tail) (hfree : HandleFree fs) :
    ∃ h k i : Nat, fs.tfsOpen (some path) { creat := true } =
        .ok (h, (fs.createdFile k i path.tail).opened h k 0) ∧
      fs.CanCreate k i path.tail ∧ h < fs.maxOpenFiles ∧ fs.freeOpenFileEntries h = .free := by
  obtain ⟨k, i, hcan⟩ := hcan
  obtain ⟨r, fs', heq, ho⟩ := wf.tfsOpen (some path) { creat := true }
  cases ho with
  | invalid hinv =>
    rw [hv] at hinv
    cases hinv
  | existing hn _ he _ =>
    cases hn
    exact absurd he hcan.absent
  | absent _ _ _ hc => cases hc
  | noInode _ _ _ _ hfull =>
    have hfree := hcan.inode_free
    rw [hfull k hcan.inode_valid] at hfree
    cases hfree
  | noEntry _ hn _ _ _ _ _ hno =>
    cases hn
    rcases hno with hlong | hfull
    · exact absurd hcan.short (not_lt.mpr hlong)
    · exact absurd hcan.entry_free (hfull i hcan.index)
  | created k i hn _ _ hcan ha =>
    cases hn
    obtain ⟨h, rfl, hlt, hfree, rfl⟩ := AddsHandle.slot_of_free ha hfree
    exact ⟨h, k, i, heq, hcan, hlt, hfree⟩

theorem close_opened {h k : Nat} (wf : fs.WellFormed) (ho : fs.OpenOn h k) :
    fs.tfsClose h = .ok (0, fs.closed h) := by
  obtain ⟨r, fs', heq, hc⟩ := wf.tfsClose h
  cases hc with
  | invalid hno => exact absurd ho (hno rfl)
  | closed h' k' hh _ =>
    rw [← Int.natCast_inj.mp hh] at heq
    exact heq

/-- `tfs_open` of a path that exists while the table is full. -/
theorem open_full (wf : fs.WellFormed) (hp : HasPath fs path) (hfull : ¬ HandleFree fs)
    (mode : FileMode) (ht : mode.trunc = false) :
    fs.tfsOpen (some path) mode = .ok (-1, fs) := by
  obtain ⟨hv, i, k, he⟩ := hp
  obtain ⟨r, fs', heq, ho⟩ := wf.tfsOpen (some path) mode
  cases ho with
  | invalid _ => exact heq
  | existing _ _ _ ha =>
    rw [afterTrunc_of_not ht] at ha
    cases ha with
    | full _ => exact heq
    | slot h hlt hfree _ => exact absurd ⟨h, hlt, hfree⟩ hfull
  | absent _ _ _ _ => exact heq
  | noInode _ _ _ _ _ => exact heq
  | noEntry _ hn _ hno _ _ _ _ =>
    cases hn
    exact absurd he hno
  | created _ _ hn _ _ hcan _ =>
    cases hn
    exact absurd he hcan.absent

theorem hasPath_opened {h k offset : Nat} :
    HasPath (fs.opened h k offset) path ↔ HasPath fs path :=
  and_congr_right fun _ => exists_congr fun _ => exists_congr fun _ => entryAt_congr rfl rfl

theorem hasPath_closed {h : Nat} : HasPath (fs.closed h) path ↔ HasPath fs path :=
  and_congr_right fun _ => exists_congr fun _ => exists_congr fun _ => entryAt_congr rfl rfl

end MessageBroker.Broker
