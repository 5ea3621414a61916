import MessageBroker.Broker.Creation
import MessageBroker.Broker.Figures

/-!
# Boxes that are reported missing

`tfs_open` returns `-1` for a file that does not exist and also while the open file table
is full, and its callers take every failure for a missing box. Each session holds at most
one handle between two calls, so the table can be full only with more workers than it has
entries.
-/

namespace MessageBroker.Broker

open Bytes Table Transition Tfs Tfs.Fs

variable {srv srv' : Server} {fs fs' : Fs} {path : CString} {mode : FileMode} {pipe : PipePath}
  {box : BoxName}

/-! ### The open file table -/

/-- What a step of a function does to the open file table: an entry in use after it is held by
the function then, or was in use before and not held by it. -/
structure Tracks (srv : Server) (held : Option Int) (srv' : Server) (held' : Option Int) :
    Prop where
  wellFormed : srv'.fs.WellFormed
  maxOpenFiles : srv'.fs.maxOpenFiles = srv.fs.maxOpenFiles
  maxSessions : srv'.maxSessions = srv.maxSessions
  entry : ∀ h : Nat, h < srv.fs.maxOpenFiles → srv'.fs.freeOpenFileEntries h = .taken →
    held' = some (h : Int) ∨ srv.fs.freeOpenFileEntries h = .taken ∧ held ≠ some (h : Int)

/-- A step that leaves the open file table. -/
theorem Tracks.keep {held : Option Int} (wf : fs.WellFormed)
    (hp : fs.fsParams = srv.fs.fsParams)
    (ht : fs.freeOpenFileEntries = srv.fs.freeOpenFileEntries) :
    Tracks srv held (srv.setFs fs) held where
  wellFormed := wf
  maxOpenFiles := congrArg TfsParams.maxOpenFilesCount hp
  maxSessions := rfl
  entry := by
    intro h _ htaken
    rw [Server.setFs_fs, ht] at htaken
    by_cases hheld : held = some (h : Int)
    · exact Or.inl hheld
    · exact Or.inr ⟨htaken, hheld⟩

/-- The slots of the box table do not matter. -/
theorem Tracks.congr {held held' : Option Int} (ht : Tracks srv held srv' held') {srv₁ : Server}
    (hfs : srv₁.fs = srv'.fs) (hmax : srv₁.maxSessions = srv'.maxSessions) :
    Tracks srv held srv₁ held' where
  wellFormed := hfs ▸ ht.wellFormed
  maxOpenFiles := by
    rw [hfs]
    exact ht.maxOpenFiles
  maxSessions := hmax.trans ht.maxSessions
  entry := by
    rw [hfs]
    exact ht.entry

theorem AddsHandle.entry {k offset : Nat} {r : Int} (ha : AddsHandle fs k offset r fs') (h : Nat)
    (ht : fs'.freeOpenFileEntries h = .taken) :
    r = (h : Int) ∨ fs.freeOpenFileEntries h = .taken := by
  cases ha with
  | full _ => exact Or.inr ht
  | slot h' _ _ _ =>
    by_cases hh : h = h'
    · exact Or.inl (by rw [hh])
    · exact Or.inr ((Function.update_of_ne hh _ _).symm.trans ht)

theorem AddsHandle.fsParams {k offset : Nat} {r : Int} (ha : AddsHandle fs k offset r fs') :
    fs'.fsParams = fs.fsParams := by
  cases ha <;> rfl

theorem Opens.entry {r : Int} (ho : Opens fs (some path) mode r fs') (ht : mode.trunc = false) :
    fs'.fsParams = fs.fsParams ∧ ∀ h : Nat, fs'.freeOpenFileEntries h = .taken →
      r = (h : Int) ∨ fs.freeOpenFileEntries h = .taken := by
  cases ho with
  | existing _ _ _ ha =>
    rw [afterTrunc_of_not ht] at ha
    exact ⟨AddsHandle.fsParams ha, AddsHandle.entry ha⟩
  | created _ _ _ _ _ _ ha =>
    exact ⟨(AddsHandle.fsParams ha).trans rfl, fun h ht' => AddsHandle.entry ha h ht'⟩
  | _ => exact ⟨rfl, fun _ h => Or.inr h⟩

/-- `tfs_open` gives its caller the entry that it takes. -/
theorem tracks_open {r : Int} (wf : srv.fs.WellFormed) (ht : mode.trunc = false)
    (h : srv.fs.tfsOpen (some path) mode = .ok (r, fs)) :
    Tracks srv none (srv.setFs fs) (if r < 0 then none else some r) := by
  obtain ⟨r', fs', heq, ho⟩ := wf.tfsOpen (some path) mode
  rw [h] at heq
  cases heq
  obtain ⟨hp, hentry⟩ := Opens.entry ho ht
  refine ⟨wf.opens ho, congrArg TfsParams.maxOpenFilesCount hp, rfl, ?_⟩
  intro e _ htaken
  -- the entry was taken by this call, or before it
  rcases hentry e htaken with rfl | htaken
  · exact Or.inl (if_neg (not_lt.mpr (Int.natCast_nonneg e)))
  · exact Or.inr ⟨htaken, nofun⟩

/-- `tfs_close` frees the entry that its caller holds. -/
theorem tracks_close {fhandle r : Int} (wf : srv.fs.WellFormed)
    (h : srv.fs.tfsClose fhandle = .ok (r, fs)) :
    Tracks srv (some fhandle) (srv.setFs fs) none := by
  obtain ⟨r', fs', heq, hc⟩ := wf.tfsClose fhandle
  rw [h] at heq
  cases heq
  cases hc with
  | invalid hno =>
    refine ⟨wf, rfl, rfl, ?_⟩
    -- an entry in use would have been closed
    intro e hlt htaken
    refine Or.inr ⟨htaken, ?_⟩
    rintro ⟨⟩
    obtain ⟨k, ho⟩ := wf.handles.inode e hlt htaken
    exact hno rfl ho
  | closed e' k heq _ =>
    refine ⟨wf.closed, rfl, rfl, ?_⟩
    intro e _ htaken
    have hne : e ≠ e' := by
      rintro rfl
      cases (Function.update_self _ _ _).symm.trans htaken
    refine Or.inr ⟨(Function.update_of_ne hne _ _).symm.trans htaken, ?_⟩
    rw [heq]
    rintro ⟨⟩
    exact hne rfl

/-! ### The steps of the functions -/

/-- The call of TecnicoFS that a step makes, with the handles held before and after it. No step
truncates a file. -/
inductive Touches (fs : Fs) : Option Int → Fs → Option Int → Prop
  | pass (held : Option Int) : Touches fs held fs held
  | opens {path : CString} {mode : FileMode} {r : Int} {fs' : Fs} : mode.trunc = false →
      fs.tfsOpen (some path) mode = .ok (r, fs') →
      Touches fs none fs' (if r < 0 then none else some r)
  | closes {fhandle r : Int} {fs' : Fs} : fs.tfsClose fhandle = .ok (r, fs') →
      Touches fs (some fhandle) fs' none
  | writes {fhandle r : Int} {buffer : Memory} {len : Nat} {fs' : Fs} :
      fs.tfsWrite fhandle buffer len = .ok (r, fs') →
      Touches fs (some fhandle) fs' (some fhandle)
  | reads {fhandle r : Int} {bytes : List UInt8} {len : Nat} {fs' : Fs} :
      fs.tfsRead fhandle len = .ok ((r, bytes), fs') →
      Touches fs (some fhandle) fs' (some fhandle)
  | unlinks {path : CString} {r : Int} {fs' : Fs} : fs.tfsUnlink (some path) = .ok (r, fs') →
      Touches fs none fs' none

/-- A call of `tfs_open` that fails leaves its caller without a handle. -/
theorem touches_open_fails {r : Int} (ht : mode.trunc = false)
    (h : fs.tfsOpen (some path) mode = .ok (r, fs')) (hr : r < 0) : Touches fs none fs' none := by
  have htouches := Touches.opens ht h
  rwa [if_pos hr] at htouches

theorem touches_open_succeeds {r : Int} (ht : mode.trunc = false)
    (h : fs.tfsOpen (some path) mode = .ok (r, fs')) (hr : ¬ r < 0) :
    Touches fs none fs' (some r) := by
  have htouches := Touches.opens ht h
  rwa [if_neg hr] at htouches

/-- What a step does to the open file table depends on its call only. -/
theorem Touches.tracks {held held' : Option Int} (wf : srv.fs.WellFormed)
    (h : Touches srv.fs held fs held') : Tracks srv held (srv.setFs fs) held' := by
  cases h with
  | pass => exact Tracks.keep wf rfl rfl
  | opens ht hopen => exact tracks_open wf ht hopen
  | closes hclose => exact tracks_close wf hclose
  | writes hwrite =>
    -- `tfs_write`, `tfs_read` and `tfs_unlink` take and free no entry
    have hw := wf.tfsWrite hwrite
    exact Tracks.keep (wf.writes hw) (by cases hw <;> rfl) (by cases hw <;> rfl)
  | reads hread =>
    have hr := wf.tfsRead hread
    exact Tracks.keep (wf.reads hr) (by cases hr <;> rfl) (by cases hr <;> rfl)
  | @unlinks path _ _ hunlink =>
    obtain ⟨r, fs', heq, hu⟩ := wf.tfsUnlink (some path)
    rw [hunlink] at heq
    cases heq
    exact Tracks.keep (wf.unlinks hu) (by cases hu <;> rfl) (by cases hu <;> rfl)

/-- The result of a step that makes one call of TecnicoFS. -/
def Touched {σ ρ : Type} (held : σ → Option Int) (srv : Server) (before : Option Int)
    (r : Progress σ ρ × Server) : Prop :=
  Touches srv.fs before r.2.fs (r.1.held held) ∧ r.2.maxSessions = srv.maxSessions

theorem createStep_touches (s : CreateStep) :
    Ensures (createStep pipe box srv s) (Touched CreateStep.held srv s.held) := by
  cases s with
  | test =>
    refine .call fun ⟨fhandle, fs⟩ hopen => .ok ⟨?_, rfl⟩
    show Touches srv.fs none fs
      (CreateStep.held (if 0 ≤ fhandle then .closeExisting fhandle else .create))
    by_cases hneg : fhandle < 0
    · rw [if_neg (not_le.mpr hneg)]
      exact touches_open_fails rfl hopen hneg
    · rw [if_pos (not_lt.mp hneg)]
      exact touches_open_succeeds rfl hopen hneg
  | closeExisting fhandle => exact .call fun _ hclose => .ok ⟨.closes hclose, rfl⟩
  | create =>
    refine .call fun _ hopen => .ite (fun hneg => .ok ?_) fun hneg => .ok ?_
    · exact ⟨touches_open_fails rfl hopen hneg, rfl⟩
    · exact ⟨touches_open_succeeds rfl hopen hneg, rfl⟩
  | close fhandle =>
    refine .call fun _ hclose => .ite (fun _ => .ok ?_) fun _ => .ok ?_
    · exact ⟨.closes hclose, rfl⟩
    · exact ⟨.closes hclose, rfl⟩
  | takeSlot =>
    refine .ite (fun _ => .ok ⟨.pass none, rfl⟩) fun _ => .ok ?_
    rw [Touched, takeSlot_fs, takeSlot_maxSessions]
    exact ⟨.pass none, rfl⟩

theorem removeStep_touches (s : RemoveStep) :
    Ensures (removeStep pipe box srv s) (Touched RemoveStep.held srv s.held) := by
  cases s with
  | test =>
    refine .call fun _ hopen => .ite (fun hneg => .ok ?_) fun hneg => .ok ?_
    · exact ⟨touches_open_fails rfl hopen hneg, rfl⟩
    · exact ⟨touches_open_succeeds rfl hopen hneg, rfl⟩
  | close fhandle =>
    refine .call fun _ hclose => .ite (fun _ => .ok ?_) fun _ => .ok ?_
    · exact ⟨.closes hclose, rfl⟩
    · exact ⟨.closes hclose, rfl⟩
  | unlink =>
    refine .call fun _ hunlink => .ite (fun _ => .ok ?_) fun _ => .ok ?_
    · exact ⟨.unlinks hunlink, rfl⟩
    · exact ⟨.unlinks hunlink, rfl⟩
  | freeSlot =>
    refine .ok ?_
    rw [Touched, freeSlot_fs, freeSlot_maxSessions]
    exact ⟨.pass none, rfl⟩

theorem registerStep_touches (s : RegisterStep) :
    Ensures (registerStep box srv s) (Touched RegisterStep.held srv s.held) := by
  cases s with
  | test =>
    refine .call fun ⟨fhandle, fs⟩ hopen => .ok ⟨?_, rfl⟩
    show Touches srv.fs none fs
      (Progress.held RegisterStep.held (if fhandle < 0 then .done (-1) else .next (.close fhandle)))
    by_cases hneg : fhandle < 0
    · rw [if_pos hneg]
      exact touches_open_fails rfl hopen hneg
    · rw [if_neg hneg]
      exact touches_open_succeeds rfl hopen hneg
  | close fhandle =>
    refine .call fun _ hclose => .ok ⟨?_, rfl⟩
    split <;> exact .closes hclose
  | scan =>
    dsimp only [registerStep]
    split <;> exact .ok ⟨.pass none, rfl⟩

theorem publishStep_touches {index : Nat} {text : Text} (s : PublishStep) :
    Ensures (publishStep index box text srv s) (Touched PublishStep.held srv s.held) := by
  cases s with
  | «open» =>
    refine .call fun _ hopen => .ite (fun hneg => .ok ?_) fun hneg => .ok ?_
    · exact ⟨touches_open_fails rfl hopen hneg, rfl⟩
    · exact ⟨touches_open_succeeds rfl hopen hneg, rfl⟩
  | write fhandle =>
    refine .call fun _ hwrite => .ok ?_
    dsimp only [Touched]
    split <;> exact ⟨.writes hwrite, rfl⟩
  | close fhandle written => exact .call fun _ hclose => .ok ⟨.closes hclose, rfl⟩

theorem pollStep_touches {index bytesProcessed : Nat} {stale : List UInt8} {clientGone : Bool}
    (s : PollStep) : Ensures (pollStep index box bytesProcessed stale clientGone srv s)
      (Touched PollStep.held srv s.held) := by
  cases s with
  | «open» =>
    refine .call fun _ hopen => .ite (fun hneg => .ok ?_) fun hneg => .ok ?_
    · exact ⟨touches_open_fails rfl hopen hneg, rfl⟩
    · exact ⟨touches_open_succeeds rfl hopen hneg, rfl⟩
  | read fhandle count buffer =>
    refine .call fun ⟨⟨bytesRead, bytes⟩, fs⟩ hread => .ok ⟨?_, rfl⟩
    dsimp only
    -- the scan goes on with the handle or ends with it
    cases scanByte bytesProcessed (count + 1) buffer bytesRead bytes <;> exact .reads hread
  | close fhandle result =>
    refine .call fun _ hclose => .ite (fun _ => .ok ⟨.closes hclose, rfl⟩) fun _ => ?_
    refine .ite (fun _ => .ok ⟨.closes hclose, rfl⟩) fun _ => ?_
    refine .ite (fun _ => .ok ⟨.closes hclose, rfl⟩) fun _ => ?_
    exact .ok ⟨.closes hclose, rfl⟩

/-! ### The workers -/

/-- What a worker does. A listing makes no call of TecnicoFS. -/
inductive Activity
  | creating (pipe : PipePath) (box : BoxName) (s : CreateStep)
  | removing (pipe : PipePath) (box : BoxName) (s : RemoveStep)
  | registering (role : Role) (box : BoxName) (s : RegisterStep)
  /-- `register_entry` has returned the index. -/
  | registered (role : Role) (e : Attachment)
  /-- The session was not refused, and has not been counted yet. -/
  | linking (role : Role) (e : Attachment)
  /-- A publisher waits for its client, a subscriber is between two passes. -/
  | attached (role : Role) (e : Attachment) (bytesProcessed : Nat)
  | publishing (e : Attachment) (text : Text) (s : PublishStep)
  | polling (e : Attachment) (bytesProcessed : Nat) (stale : List UInt8) (clientGone : Bool)
      (s : PollStep)

namespace Activity

def ofRequest : BoxRequest → Activity
  | .create pipe box => creating pipe box .test
  | .remove pipe box => removing pipe box .test

/-- The handle that a worker holds. -/
def held : Activity → Option Int
  | creating _ _ s => s.held
  | removing _ _ s => s.held
  | registering _ _ s => s.held
  | publishing _ _ s => s.held
  | polling _ _ _ _ s => s.held
  | _ => none

/-- The slot whose lock a worker holds. -/
def locks : Activity → Option Nat
  | publishing e _ _ => some e.index
  | polling e _ _ _ _ => some e.index
  | _ => none

/-- The box that the worker takes for missing if the `tfs_open` before it fails. -/
def asksFor : Activity → Option BoxName
  | removing _ box .test => some box
  | registering _ box .test => some box
  | publishing e _ .open => some e.box
  | polling e _ _ _ .open => some e.box
  | _ => none

/-- The activity behind a step; a step that faults is not enabled. -/
def behind {σ ρ : Type} (r : Except Fault (Progress σ ρ × Server)) (next : σ → Activity)
    (done : ρ → Option Activity) : Option (Option Activity × Server) :=
  match r with
  | .error _ => none
  | .ok (.next s, srv) => some (some (next s), srv)
  | .ok (.done r, srv) => some (done r, srv)

/-- The worker takes the next step of its function. -/
def call (srv : Server) : Activity → Option (Option Activity × Server)
  | creating pipe box s => behind (createStep pipe box srv s) (creating pipe box) fun _ => none
  | removing pipe box s => behind (removeStep pipe box srv s) (removing pipe box) fun _ => none
  | registering role box s =>
    behind (registerStep box srv s) (registering role box) fun index =>
      if index < 0 then none else some (registered role ⟨box, index.toNat⟩)
  | publishing e text s =>
    behind (publishStep e.index e.box text srv s) (publishing e text) fun goesOn =>
      if goesOn then some (attached .publisher e 0) else none
  | polling e bytesProcessed stale clientGone s =>
    behind (pollStep e.index e.box bytesProcessed stale clientGone srv s)
      (polling e bytesProcessed stale clientGone) fun
        | .ended => none
        | .goesOn bytesProcessed _ => some (attached .subscriber e bytesProcessed)
  | _ => none

end Activity

/-- The broker with its workers, and the boxes that were reported missing, each with the file
system at the call of `tfs_open` that decided it. -/
structure CallState where
  server : Server
  workers : Nat → Option Activity
  missing : List (BoxName × Fs)

inductive CallLabel
  | request (t : Nat) (req : BoxRequest)
  | register (t : Nat) (role : Role) (box : BoxName)
  | call (t : Nat)
  /-- A publisher tests whether the box has one. -/
  | link (t : Nat)
  /-- The session is counted, or one of the operations on its pipe before that has failed. -/
  | attach (t : Nat) (piped : Bool)
  /-- Publisher `t` reads a message. -/
  | message (t : Nat) (text : Text)
  /-- Subscriber `t` begins a pass. -/
  | pass (t : Nat) (stale : List UInt8) (clientGone : Bool)
  /-- The client of publisher `t` closes its pipe. -/
  | leave (t : Nat)
  /-- An operation on the pipe of session `t` fails. -/
  | fail (t : Nat)

namespace CallState

def initial (srv : Server) : CallState := ⟨srv, fun _ => none, []⟩

def setWorker (s : CallState) (t : Nat) (a : Option Activity) : CallState :=
  { s with workers := Function.update s.workers t a }

def setServer (s : CallState) (srv : Server) : CallState := { s with server := srv }

def report (s : CallState) (box : BoxName) : CallState :=
  { s with missing := s.missing ++ [(box, s.server.fs)] }

/-- Worker `t` exists and waits for a request. -/
def Waits (s : CallState) (t : Nat) : Prop := t < s.server.maxSessions ∧ (s.workers t).isNone

instance (s : CallState) (t : Nat) : Decidable (s.Waits t) :=
  inferInstanceAs (Decidable (t < s.server.maxSessions ∧ (s.workers t).isNone))

/-- No worker holds the lock of a slot. -/
def Unlocked (s : CallState) (i : Nat) : Prop :=
  ∀ t < s.server.maxSessions, (s.workers t).bind Activity.locks ≠ some i

instance (s : CallState) (i : Nat) : Decidable (s.Unlocked i) :=
  inferInstanceAs (Decidable (∀ t < s.server.maxSessions, _ ≠ _))

/-- The reports behind a step: a worker that asked for a box and has ended reports it missing. -/
def reports (s : CallState) (a : Activity) (a' : Option Activity) : CallState :=
  match a.asksFor, a' with
  | some box, none => s.report box
  | _, _ => s

def step (s : CallState) : CallLabel → Option CallState
  | .request t req => if s.Waits t then some (s.setWorker t (some (.ofRequest req))) else none
  | .register t role box =>
    if s.Waits t then some (s.setWorker t (some (.registering role box .test))) else none
  | .call t =>
    match s.workers t with
    | none => none
    | some a => (a.call s.server).map fun (a', srv) =>
      ((s.reports a a').setServer srv).setWorker t a'
  | .link t =>
    match s.workers t with
    | some (.registered role e) =>
      some (s.setWorker t (if role = .publisher ∧ (s.server.boxes e.index).nPublishers = 1 then none
        else some (.linking role e)))
    | _ => none
  | .attach t piped =>
    match s.workers t with
    | some (.linking role e) =>
      some (if piped then (s.setServer (s.server.modifyBox e.index (role.bump (· + 1)))).setWorker t
          (some (.attached role e 0))
        else s.setWorker t none)
    | _ => none
  | .message t text =>
    match s.workers t with
    | some (.attached .publisher e _) =>
      if s.Unlocked e.index then some (s.setWorker t (some (.publishing e text .open))) else none
    | _ => none
  | .pass t stale clientGone =>
    match s.workers t with
    | some (.attached .subscriber e bytesProcessed) =>
      if s.Unlocked e.index then
        some (s.setWorker t (some (.polling e bytesProcessed stale clientGone .open)))
      else none
    | _ => none
  | .leave t =>
    match s.workers t with
    | some (.attached .publisher e _) =>
      some ((s.setServer (s.server.modifyBox e.index (Role.publisher.bump (· - 1)))).setWorker t
        none)
    | _ => none
  | .fail t =>
    match s.workers t with
    | some (.attached _ _ _) => some (s.setWorker t none)
    | _ => none

end CallState

/-- Every box that was reported missing had no entry at the call that decided it. -/
def Truthful (s : CallState) : Prop := ∀ r ∈ s.missing, ¬ HasPath r.2 r.1.name

/-- A worker that opens the file of a box to learn whether the box exists finds a free entry of the
open file table if it does. -/
def FindsEntry (s : CallState) : CallLabel → Prop
  | .call t => ∀ a box, s.workers t = some a → a.asksFor = some box →
      HasPath s.server.fs box.name → HandleFree s.server.fs
  | _ => True

/-! ### What a step does -/

variable {s s' : CallState} {t : Nat} {a : Activity} {a' : Option Activity} {l : CallLabel}

theorem behind_touches {σ ρ : Type} {r : Except Fault (Progress σ ρ × Server)}
    {next : σ → Activity} {done : ρ → Option Activity} {held : σ → Option Int} {before : Option Int}
    (hr : Ensures r (Touched held srv before)) (hnext : ∀ s, (next s).held = held s)
    (hdone : ∀ r, (done r).bind Activity.held = none)
    (h : Activity.behind r next done = some (a', srv')) :
    Touches srv.fs before srv'.fs (a'.bind Activity.held) ∧
      srv'.maxSessions = srv.maxSessions := by
  rcases r with e | ⟨s | r, srv₁⟩
  · cases h
  · cases h
    rw [Option.bind_some, hnext]
    exact hr _ rfl
  · cases h
    rw [hdone]
    exact hr _ rfl

theorem call_touches (h : a.call srv = some (a', srv')) :
    Touches srv.fs a.held srv'.fs (a'.bind Activity.held) ∧
      srv'.maxSessions = srv.maxSessions := by
  cases a with
  | creating pipe box s =>
    exact behind_touches (createStep_touches s) (fun _ => rfl) (fun _ => rfl) h
  | removing pipe box s =>
    exact behind_touches (removeStep_touches s) (fun _ => rfl) (fun _ => rfl) h
  | registering role box s =>
    refine behind_touches (registerStep_touches s) (fun _ => rfl) ?_ h
    intro index
    split <;> rfl
  | publishing e text s =>
    refine behind_touches (publishStep_touches s) (fun _ => rfl) ?_ h
    intro goesOn
    cases goesOn <;> rfl
  | polling e bytesProcessed stale clientGone s =>
    refine behind_touches (pollStep_touches s) (fun _ => rfl) ?_ h
    intro e
    cases e <;> rfl
  | registered role e => cases h
  | linking role e => cases h
  | attached role e bytesProcessed => cases h

theorem call_tracks (wf : srv.fs.WellFormed) (h : a.call srv = some (a', srv')) :
    Tracks srv a.held srv' (a'.bind Activity.held) := by
  obtain ⟨htouches, hmax⟩ := call_touches h
  exact (htouches.tracks wf).congr rfl hmax

/-- A worker reports a box missing only if it does not exist, provided that the open file table
has an entry for it. -/
theorem call_missing (wf : srv.fs.WellFormed) (ha : a.asksFor = some box)
    (h : a.call srv = some (none, srv')) (hfree : HasPath srv.fs box.name → HandleFree srv.fs) :
    ¬ HasPath srv.fs box.name := by
  intro hp
  have hfound := fun mode => open_found wf hp (hfree hp) mode
  have hneg : ∀ e : Nat, ¬ (e : Int) < 0 := fun e => not_lt.mpr (Int.natCast_nonneg e)
  cases a with
  | removing pipe box' s =>
    cases s with
    | test =>
      cases ha
      obtain ⟨e, k, offset, hopen, _⟩ := hfound { append := true } rfl
      simp only [Activity.call, removeStep, hopen, ok_bind, if_neg (hneg e)] at h
      cases h
    | _ => cases ha
  | registering role box' s =>
    cases s with
    | test =>
      cases ha
      obtain ⟨e, k, offset, hopen, _⟩ := hfound { append := true } rfl
      simp only [Activity.call, registerStep, hopen, ok_bind, if_neg (hneg e)] at h
      cases h
    | _ => cases ha
  | publishing entry text s =>
    cases s with
    | «open» =>
      cases ha
      obtain ⟨e, k, offset, hopen, _⟩ := hfound { append := true } rfl
      simp only [Activity.call, publishStep, hopen, ok_bind, if_neg (hneg e)] at h
      cases h
    | _ => cases ha
  | polling entry bytesProcessed stale clientGone s =>
    cases s with
    | «open» =>
      cases ha
      obtain ⟨e, k, offset, hopen, _⟩ := hfound {} rfl
      simp only [Activity.call, pollStep, hopen, ok_bind, if_neg (hneg e)] at h
      cases h
    | _ => cases ha
  | creating pipe box s => cases ha
  | registered role e => cases ha
  | linking role e => cases ha
  | attached role e bytesProcessed => cases ha

namespace CallState

/-- A step is a call of a worker, or leaves the file system and is made without a handle. -/
inductive Outcome (s : CallState) : CallLabel → CallState → Prop
  | calls (t : Nat) (a : Activity) (a' : Option Activity) (srv : Server) :
      s.workers t = some a → a.call s.server = some (a', srv) →
      Outcome s (.call t) (((s.reports a a').setServer srv).setWorker t a')
  | moves (l : CallLabel) (t : Nat) (srv : Server) (new : Option Activity) :
      srv.fs = s.server.fs → srv.maxSessions = s.server.maxSessions →
      ((∃ a, s.workers t = some a) ∨ t < s.server.maxSessions) →
      (s.workers t).bind Activity.held = none → new.bind Activity.held = none →
      Outcome s l ((s.setServer srv).setWorker t new)

theorem outcome_of_waits (h : s.Waits t) (ha : a.held = none) :
    Outcome s l (s.setWorker t (some a)) := by
  refine .moves l t s.server (some a) rfl rfl (Or.inr h.1) ?_ ha
  rw [Option.isNone_iff_eq_none.mp h.2]
  rfl

/-- A worker without a handle goes on without one. -/
theorem outcome_of_worker {new : Option Activity} (ht : s.workers t = some a)
    (ha : a.held = none) (hfs : srv.fs = s.server.fs)
    (hmax : srv.maxSessions = s.server.maxSessions) (hnew : new.bind Activity.held = none) :
    Outcome s l ((s.setServer srv).setWorker t new) :=
  .moves l t srv new hfs hmax (Or.inl ⟨a, ht⟩) (by rw [ht]; exact ha) hnew

theorem outcome_of_step (hs : s.step l = some s') : Outcome s l s' := by
  cases l with
  | request t req =>
    obtain ⟨hw, ⟨⟩⟩ := Option.ite_none_right_eq_some.mp hs
    exact outcome_of_waits hw (by cases req <;> rfl)
  | register t role box =>
    obtain ⟨hw, ⟨⟩⟩ := Option.ite_none_right_eq_some.mp hs
    exact outcome_of_waits hw rfl
  | call t =>
    simp only [step] at hs
    split at hs
    · cases hs
    · next a ht =>
      obtain ⟨⟨a', srv⟩, hcall, rfl⟩ := Option.map_eq_some_iff.mp hs
      exact .calls t a a' srv ht hcall
  | link t =>
    simp only [step] at hs
    split at hs
    · next role e ht =>
      cases hs
      apply outcome_of_worker ht rfl rfl rfl
      split <;> rfl
    · cases hs
  | attach t piped =>
    simp only [step] at hs
    split at hs
    · next role e ht =>
      cases hs
      split
      · exact outcome_of_worker ht rfl rfl rfl rfl
      · exact outcome_of_worker ht rfl rfl rfl rfl
    · cases hs
  | message t text | pass t stale clientGone =>
    -- an iteration begins with the lock of the slot
    simp only [step] at hs
    split at hs
    · next ht =>
      obtain ⟨_, ⟨⟩⟩ := Option.ite_none_right_eq_some.mp hs
      exact outcome_of_worker ht rfl rfl rfl rfl
    · cases hs
  | leave t | fail t =>
    simp only [step] at hs
    split at hs
    · next ht =>
      cases hs
      exact outcome_of_worker ht rfl rfl rfl rfl
    · cases hs

/-! ### Enough entries for all workers -/

/-- Every entry of the open file table in use is held by a worker. -/
structure Tracked (s : CallState) : Prop where
  wellFormed : s.server.fs.WellFormed
  maxOpenFiles : s.server.fs.maxOpenFiles = tfsDefaultParams.maxOpenFilesCount
  worker : ∀ t a, s.workers t = some a → t < s.server.maxSessions
  holder : ∀ h < s.server.fs.maxOpenFiles, s.server.fs.freeOpenFileEntries h = .taken →
    ∃ t a, s.workers t = some a ∧ a.held = some (h : Int)

theorem reports_workers (a : Activity) (a' : Option Activity) :
    (s.reports a a').workers = s.workers := by
  dsimp only [reports]
  split <;> rfl

/-- A step of worker `t`, the others stand still. -/
theorem Tracked.update {new : Option Activity} (h : s.Tracked)
    (htracks : Tracks s.server ((s.workers t).bind Activity.held) srv (new.bind Activity.held))
    (ht : (∃ a, s.workers t = some a) ∨ t < s.server.maxSessions) :
    Tracked ⟨srv, Function.update s.workers t new, s'.missing⟩ where
  wellFormed := htracks.wellFormed
  maxOpenFiles := htracks.maxOpenFiles.trans h.maxOpenFiles
  worker := by
    intro u a hu
    show u < srv.maxSessions
    rw [htracks.maxSessions]
    obtain ⟨rfl, _⟩ | ⟨_, hu⟩ := update_apply_eq_iff.mp hu
    · rcases ht with ⟨a₀, ha₀⟩ | hlt
      · exact h.worker u a₀ ha₀
      · exact hlt
    · exact h.worker u a hu
  holder := by
    intro e he htaken
    have he' : e < s.server.fs.maxOpenFiles := htracks.maxOpenFiles ▸ he
    rcases htracks.entry e he' htaken with hheld | ⟨htaken₀, hne⟩
    · -- the worker holds the entry now
      obtain ⟨a, rfl, ha⟩ := Option.bind_eq_some_iff.mp hheld
      exact ⟨t, a, Function.update_self _ _ _, ha⟩
    · obtain ⟨u, a, hu, ha⟩ := h.holder e he' htaken₀
      have hut : u ≠ t := by
        rintro rfl
        rw [hu] at hne
        exact hne ha
      exact ⟨u, a, (Function.update_of_ne hut _ _).trans hu, ha⟩

theorem Tracked.outcome (h : s.Tracked) (ho : Outcome s l s') : s'.Tracked := by
  cases ho with
  | calls t a a' srv ht hcall =>
    have htracks := call_tracks h.wellFormed hcall
    have hupdate := @Tracked.update srv s (s.reports a a') t a' h
      (by rw [ht]; exact htracks) (Or.inl ⟨a, ht⟩)
    rw [setWorker, setServer]
    rwa [reports_workers]
  | moves l t srv new hfs hmax ht hold hnew =>
    refine @Tracked.update srv s s t new h ?_ ht
    rw [hold, hnew]
    have hkeep : Tracks s.server none (s.server.setFs s.server.fs) none :=
      Tracks.keep h.wellFormed rfl rfl
    exact hkeep.congr hfs hmax

/-- With as many entries as workers, a worker without a handle finds a free one. -/
theorem Tracked.handleFree (h : s.Tracked)
    (hmax : s.server.maxSessions ≤ tfsDefaultParams.maxOpenFilesCount)
    (ht : s.workers t = some a) (ha : a.held = none) : HandleFree s.server.fs := by
  by_contra hfull
  -- each of the entries has a holder among the other workers, and no two have the same
  have hholder : ∀ e ∈ Finset.range s.server.fs.maxOpenFiles, ∃ u,
      u ∈ (Finset.range s.server.maxSessions).erase t ∧
        (s.workers u).bind Activity.held = some (e : Int) := by
    intro e he
    have hlt := Finset.mem_range.mp he
    obtain ⟨u, b, hu, hb⟩ := h.holder e hlt (taken_of_full hfull e hlt)
    refine ⟨u, Finset.mem_erase.mpr ⟨?_, Finset.mem_range.mpr (h.worker u b hu)⟩, ?_⟩
    · rintro rfl
      rw [ht] at hu
      cases hu
      rw [ha] at hb
      cases hb
    · rw [hu]
      exact hb
  choose! holder hmem hheld using hholder
  have hinj : Set.InjOn holder (Finset.range s.server.fs.maxOpenFiles) := by
    intro e he e' he' heq
    have heq' := hheld e he
    rw [heq, hheld e' he', Option.some.injEq, Int.natCast_inj] at heq'
    exact heq'.symm
  have hle := Finset.card_le_card_of_injOn holder hmem hinj
  have hlt := h.worker t a ht
  rw [Finset.card_range, Finset.card_erase_of_mem (Finset.mem_range.mpr hlt), Finset.card_range,
    h.maxOpenFiles] at hle
  omega

theorem held_of_asksFor (h : a.asksFor = some box) : a.held = none := by
  cases a with
  | removing pipe box' s => cases s <;> first | rfl | cases h
  | registering role box' s => cases s <;> first | rfl | cases h
  | publishing e text s => cases s <;> first | rfl | cases h
  | polling e bytesProcessed stale clientGone s => cases s <;> first | rfl | cases h
  | creating pipe box' s => cases h
  | _ => rfl

theorem Tracked.findsEntry (h : s.Tracked)
    (hmax : s.server.maxSessions ≤ tfsDefaultParams.maxOpenFilesCount) (l : CallLabel) :
    FindsEntry s l := by
  cases l with
  | call t =>
    intro a box ht ha _
    exact h.handleFree hmax ht (held_of_asksFor ha)
  | _ => trivial

/-- A step that finds an entry of the open file table reports no box that exists. -/
theorem truthful_step (wf : s.server.fs.WellFormed) (h : Truthful s) (ho : Outcome s l s')
    (hok : FindsEntry s l) : Truthful s' := by
  cases ho with
  | moves l t srv new hfs hmax ht hold hnew => exact h
  | calls t a a' srv ht hcall =>
    show ∀ r ∈ (s.reports a a').missing, ¬ HasPath r.2 r.1.name
    dsimp only [reports]
    split
    · next box hbox =>
      intro r hr
      rcases List.mem_append.mp hr with hr | hr
      · exact h r hr
      · cases List.mem_singleton.mp hr
        exact call_missing wf hbox hcall (hok a box ht hbox)
    · exact h

theorem tracked_initial {fs₀ : Fs} {malloc : Malloc} {maxSessions : Nat}
    (hinit : initServer fs₀ malloc maxSessions = .ok (0, srv)) : (initial srv).Tracked := by
  obtain ⟨hidle, _⟩ := initServer_ok hinit
  refine ⟨hidle.refines.wf, congrArg TfsParams.maxOpenFilesCount hidle.refines.fsParams, nofun, ?_⟩
  intro e he htaken
  obtain ⟨k, ho⟩ := hidle.refines.wf.handles.inode e he htaken
  obtain ⟨_, _, _, heq⟩ := hidle.refines.handles.bound ho
  rw [hidle.handles] at heq
  cases heq

/-- The number of workers does not change. -/
theorem maxSessions_of_outcome (wf : s.server.fs.WellFormed) (ho : Outcome s l s') :
    s'.server.maxSessions = s.server.maxSessions := by
  cases ho with
  | calls t a a' srv ht hcall => exact (call_tracks wf hcall).maxSessions
  | moves l t srv new hfs hmax ht hold hnew => exact hmax

end CallState

/-! ### More workers than entries -/

/-- The number of entries of the open file table in use. -/
def inUse (fs : Fs) : Nat :=
  (indices (fun h => decide (fs.freeOpenFileEntries h = .taken)) fs.maxOpenFiles).card

theorem handleFree_iff : HandleFree fs ↔ inUse fs < fs.maxOpenFiles := by
  constructor
  · rintro ⟨h, hlt, hfree⟩
    exact card_indices_lt hlt (by rw [hfree]; rfl)
  · intro hlt
    by_contra hfull
    have hall := card_indices_of_forall fun h hh => decide_eq_true (taken_of_full hfull h hh)
    exact absurd hall hlt.ne

theorem inUse_opened {h k offset : Nat} (hlt : h < fs.maxOpenFiles)
    (hfree : fs.freeOpenFileEntries h = .free) :
    inUse (fs.opened h k offset) = inUse fs + 1 := by
  apply card_indices_insert hlt (by simp [hfree]) (by simp [Fs.opened])
  intro j hj
  simp [Fs.opened, Function.update_of_ne hj]

namespace CallState

/-- The file of box A exists, and `n + 1` workers stand between their `tfs_open` and `tfs_close`. -/
structure Crowd (maxSessions n : Nat) (s : CallState) : Prop where
  wellFormed : s.server.fs.WellFormed
  maxOpenFiles : s.server.fs.maxOpenFiles = tfsDefaultParams.maxOpenFilesCount
  maxSessions : s.server.maxSessions = maxSessions
  found : HasPath s.server.fs boxA.name
  count : inUse s.server.fs = n + 1
  idle : ∀ t, n < t → s.workers t = none

theorem workers_setWorker (s : CallState) (t : Nat) (a : Option Activity) :
    (s.setWorker t a).workers t = a := Function.update_self _ _ _

/-- A call after which the worker goes on. -/
theorem reaches_goesOn {s₀ : CallState} {b : Activity} (hr : Reaches step anyStep s₀ s)
    (ht : s.workers t = some a) (hcall : a.call s.server = some (some b, srv)) :
    Reaches step anyStep s₀ ((s.setServer srv).setWorker t (some b)) := by
  have hreports : s.reports a (some b) = s := by
    dsimp only [reports]
    cases a.asksFor <;> rfl
  apply hr.snoc (.call t) trivial
  simp only [step, ht, hcall, Option.map_some, hreports]

/-- A call after which the worker reports a box missing. -/
theorem reaches_reports {s₀ : CallState} (hr : Reaches step anyStep s₀ s)
    (ht : s.workers t = some a) (ha : a.asksFor = some box)
    (hcall : a.call s.server = some (none, srv)) :
    Reaches step anyStep s₀ (((s.report box).setServer srv).setWorker t none) := by
  apply hr.snoc (.call t) trivial
  simp only [step, ht, hcall, Option.map_some, reports, ha]

/-- Worker 0 creates the file and keeps its handle. -/
theorem crowd_zero {fs₀ : Fs} {malloc : Malloc} {maxSessions : Nat}
    (hinit : initServer fs₀ malloc maxSessions = .ok (0, srv)) (hpos : 0 < maxSessions) :
    ∃ s, Reaches step anyStep (initial srv) s ∧ Crowd maxSessions 0 s := by
  obtain ⟨hidle, hcount, hmax, _⟩ := initServer_ok hinit
  have hsize := (tracked_initial hinit).maxOpenFiles
  have hvacant : Vacant srv boxA := by
    refine (synced_of_initServer hinit).vacant (by decide) not_present_empty
      ⟨length_tail_lt boxA, by decide⟩ ?_
    rw [hcount, hmax]
    exact_mod_cast hpos.ne
  have hempty : inUse srv.fs = 0 := by
    refine Finset.card_eq_zero.mpr (Finset.filter_eq_empty_iff.mpr ?_)
    intro e he htaken
    obtain ⟨t, a, ht, _⟩ := (tracked_initial hinit).holder e (Finset.mem_range.mp he)
      (of_decide_eq_true htaken)
    cases ht
  have hfree : HandleFree srv.fs := by
    rw [handleFree_iff, hempty]
    exact hsize.symm ▸ (by decide : 0 < tfsDefaultParams.maxOpenFilesCount)
  have hno : ¬ HasPath srv.fs boxA.name := by
    obtain ⟨k, i, hcan⟩ := hvacant.room
    exact fun ⟨_, _, _, he⟩ => hcan.absent he
  have wf := hvacant.wellFormed
  have htest : createStep pipeM boxA srv .test = .ok (.next .create, srv) :=
    createStep_missing wf hno
  obtain ⟨e, k, i, hcreate, hcan, hlt, hentry⟩ :=
    createStep_create pipeM wf hvacant.valid hvacant.room hfree
  -- the request, its test and its creation of the file
  have hr₁ : Reaches step anyStep (initial srv)
      ((initial srv).setWorker 0 (some (.creating pipeM boxA .test))) :=
    (Reaches.refl _).snoc (.request 0 (.create pipeM boxA)) trivial
      (if_pos ⟨hmax.symm ▸ hpos, rfl⟩)
  have hcall₁ : (Activity.creating pipeM boxA .test).call srv =
      some (some (.creating pipeM boxA .create), srv) := by
    simp only [Activity.call, htest, Activity.behind]
  have hcall₂ : (Activity.creating pipeM boxA .create).call srv =
      some (some (.creating pipeM boxA (.close e)),
        srv.setFs ((srv.fs.createdFile k i boxA.name.tail).opened e k 0)) := by
    simp only [Activity.call, hcreate, Activity.behind]
  have hr₂ := reaches_goesOn hr₁ (workers_setWorker _ _ _) hcall₁
  refine ⟨_, reaches_goesOn hr₂ (workers_setWorker _ _ _) hcall₂, ?_⟩
  have hfile := (hcan.isFile_iff wf.root).mpr (Or.inl rfl)
  refine ⟨(wf.createdFile hcan).opened hfile, hsize, hmax, hasPath_opened.mpr ?_, ?_, ?_⟩
  · exact ⟨hvacant.valid, i, k, hcan.entryAt_self wf.geometry⟩
  · exact (@inUse_opened (srv.fs.createdFile k i boxA.name.tail) e k 0 hlt hentry).trans
      (congrArg (· + 1) hempty)
  · intro t ht
    have hne : t ≠ 0 := ht.ne'
    simp only [setWorker, setServer, initial, Function.update_of_ne hne]

/-- Another worker begins to register a subscriber. -/
theorem Crowd.register {maxSessions n : Nat} {s₀ : CallState} (h : Crowd maxSessions n s)
    (hr : Reaches step anyStep s₀ s) (hlt : n + 1 < maxSessions) :
    Reaches step anyStep s₀
      (s.setWorker (n + 1) (some (.registering .subscriber boxA .test))) := by
  have hnone := h.idle (n + 1) (Nat.lt_succ_self n)
  refine hr.snoc (.register (n + 1) .subscriber boxA) trivial
    (if_pos ⟨h.maxSessions.symm ▸ hlt, ?_⟩)
  rw [hnone]
  rfl

/-- While an entry is free, it gets a handle. -/
theorem Crowd.succ {maxSessions n : Nat} {s₀ : CallState} (h : Crowd maxSessions n s)
    (hr : Reaches step anyStep s₀ s) (hlt : n + 1 < maxSessions)
    (hroom : n + 1 < tfsDefaultParams.maxOpenFilesCount) :
    ∃ s', Reaches step anyStep s₀ s' ∧ Crowd maxSessions (n + 1) s' := by
  have hfree : HandleFree s.server.fs := by
    rw [handleFree_iff, h.count, h.maxOpenFiles]
    exact hroom
  -- it stops between its `tfs_open` and its `tfs_close`
  obtain ⟨e, k, offset, hopen, he, hentry, hfile⟩ :=
    open_found h.wellFormed h.found hfree { append := true } rfl
  have hcall : (Activity.registering .subscriber boxA .test).call s.server =
      some (some (.registering .subscriber boxA (.close e)),
        s.server.setFs (s.server.fs.opened e k offset)) := by
    simp only [Activity.call, registerStep, hopen, ok_bind,
      if_neg (not_lt.mpr (Int.natCast_nonneg e)), Activity.behind]
  refine ⟨_, reaches_goesOn (h.register hr hlt) (workers_setWorker _ _ _) hcall, ?_⟩
  refine ⟨h.wellFormed.opened hfile, h.maxOpenFiles, h.maxSessions, hasPath_opened.mpr h.found, ?_,
    ?_⟩
  · exact (inUse_opened he hentry).trans (congrArg (· + 1) h.count)
  · intro t ht
    have hne : t ≠ n + 1 := ht.ne'
    simp only [setWorker, setServer, Function.update_of_ne hne]
    exact h.idle t (Nat.lt_of_succ_lt ht)

theorem crowd_reached {fs₀ : Fs} {malloc : Malloc} {maxSessions : Nat}
    (hinit : initServer fs₀ malloc maxSessions = .ok (0, srv)) (n : Nat) (hlt : n < maxSessions)
    (hroom : n < tfsDefaultParams.maxOpenFilesCount) :
    ∃ s, Reaches step anyStep (initial srv) s ∧ Crowd maxSessions n s := by
  induction n with
  | zero => exact crowd_zero hinit hlt
  | succ n ih =>
    obtain ⟨s, hr, h⟩ := ih (Nat.lt_of_succ_lt hlt) (Nat.lt_of_succ_lt hroom)
    exact h.succ hr hlt hroom

/-- With the table full, it reports the box missing. -/
theorem Crowd.reports {maxSessions n : Nat} {s₀ : CallState} (h : Crowd maxSessions n s)
    (hr : Reaches step anyStep s₀ s) (hlt : n + 1 < maxSessions)
    (hfull : n + 1 = tfsDefaultParams.maxOpenFilesCount) :
    ∃ s', Reaches step anyStep s₀ s' ∧ ¬ Truthful s' := by
  have hnone : ¬ HandleFree s.server.fs := by
    rw [handleFree_iff, h.count, h.maxOpenFiles, hfull]
    exact lt_irrefl _
  have hopen := open_full h.wellFormed h.found hnone { append := true } rfl
  have hcall : (Activity.registering .subscriber boxA .test).call s.server =
      some (none, s.server.setFs s.server.fs) := by
    simp only [Activity.call, registerStep, hopen, ok_bind]
    rfl
  have hreports := reaches_reports (h.register hr hlt) (workers_setWorker _ _ _) rfl hcall
  refine ⟨_, hreports, fun htruthful => ?_⟩
  exact htruthful (boxA, s.server.fs) (List.mem_append_right _ List.mem_cons_self) h.found

end CallState

/-- A broker with more workers than the open file table has entries has a run that reports a box
missing although its file exists. -/
theorem untruthful_of_lt {fs₀ : Fs} {malloc : Malloc} {maxSessions : Nat}
    (hinit : initServer fs₀ malloc maxSessions = .ok (0, srv))
    (hlt : tfsDefaultParams.maxOpenFilesCount < maxSessions) :
    ∃ s, Reaches CallState.step anyStep (.initial srv) s ∧ ¬ Truthful s := by
  obtain ⟨s, hr, h⟩ := CallState.crowd_reached hinit 15 (Nat.lt_of_succ_lt hlt) (by decide)
  exact h.reports hr hlt rfl

/-- From a new broker, in every run in which a worker that asks for a box finds an entry of the
open file table if the box exists, no box that exists is reported missing; and every run is so
exactly if there are no more workers than entries. -/
theorem truthful_of_reaches {fs₀ : Fs} {malloc : Malloc} {maxSessions : Nat}
    (hinit : initServer fs₀ malloc maxSessions = .ok (0, srv)) :
    (∀ s, Reaches CallState.step FindsEntry (.initial srv) s → Truthful s) ∧
      ((∀ s, Reaches CallState.step anyStep (.initial srv) s → Truthful s) ↔
        maxSessions ≤ tfsDefaultParams.maxOpenFilesCount) := by
  have hinitial := CallState.tracked_initial hinit
  have hempty : Truthful (.initial srv) := nofun
  refine ⟨?_, ?_, ?_⟩
  · intro s hr
    -- both halves of the invariant, by induction on the run
    have hinv : s.Tracked ∧ Truthful s := by
      induction hr with
      | refl => exact ⟨hinitial, hempty⟩
      | tail _ hs ih =>
        obtain ⟨htracked, htruthful⟩ := ih
        obtain ⟨l, hok, hs⟩ := hs
        have ho := CallState.outcome_of_step hs
        exact ⟨htracked.outcome ho, CallState.truthful_step htracked.wellFormed htruthful ho hok⟩
    exact hinv.2
  · intro hall
    by_contra hlt
    obtain ⟨s, hr, hnot⟩ := untruthful_of_lt hinit (not_le.mp hlt)
    exact hnot (hall s hr)
  · intro hle s hr
    obtain ⟨_, _, hmax, _⟩ := initServer_ok hinit
    -- the number of workers is part of the invariant here
    have hinv : s.Tracked ∧ Truthful s ∧ s.server.maxSessions = maxSessions := by
      induction hr with
      | refl => exact ⟨hinitial, hempty, hmax⟩
      | tail _ hs ih =>
        obtain ⟨htracked, htruthful, hmax⟩ := ih
        obtain ⟨l, _, hs⟩ := hs
        have ho := CallState.outcome_of_step hs
        have hok := htracked.findsEntry (hmax.trans_le hle) l
        exact ⟨htracked.outcome ho, CallState.truthful_step htracked.wellFormed htruthful ho hok,
          (CallState.maxSessions_of_outcome htracked.wellFormed ho).trans hmax⟩
    exact hinv.2.1

theorem sixteenWorkers_truthful :
    ∃ srv, initServer uninitialized (.granted zeroHeap) 16 = .ok (0, srv) ∧
      ∀ s, Reaches CallState.step anyStep (.initial srv) s → Truthful s :=
  ⟨_, initServer_started 16, (truthful_of_reaches (initServer_started 16)).2.mpr (by decide)⟩

/-- One worker has created the file and fifteen have opened it to register, each before its
`tfs_close`; the seventeenth worker reports the box missing. -/
theorem seventeenWorkers_untruthful :
    ∃ srv s, initServer uninitialized (.granted zeroHeap) 17 = .ok (0, srv) ∧
      Reaches CallState.step anyStep (.initial srv) s ∧ ¬ Truthful s := by
  obtain ⟨s, hr, hnot⟩ := untruthful_of_lt (initServer_started 17) (by decide)
  exact ⟨_, s, initServer_started 17, hr, hnot⟩

end MessageBroker.Broker
