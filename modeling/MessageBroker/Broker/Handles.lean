import MessageBroker.Broker.Missing

/-!
# Handles between `tfs_open` and `tfs_close`

The functions of the broker leave by many ways, but none without closing the file that it
opened. The entries of the open file table in use are those of the handles held by the
workers, whatever the interleaving of their calls and the outcomes of the operations on the
pipes between them.
-/

namespace MessageBroker.Broker

open Bytes Table Transition Ownership Tfs Tfs.Fs

/-! ### Operations on pipes that fail -/

/-- The server behind a `tfs_open` that fails. -/
def Server.lostBox (srv : Server) (box : BoxName) (mode : FileMode) : Option Server :=
  match srv.fs.tfsOpen (some box.name) mode with
  | .ok (fhandle, fs) => if fhandle < 0 then some (srv.setFs fs) else none
  | .error _ => none

namespace Activity

/-- An iteration that finds the box or the client gone, and the `close` of the client's pipe
fails: the session is still counted, and the lock of a box that is gone is kept. A pass has
released it before it closes the pipe of a client that is gone. -/
def closeFails (srv : Server) : Activity → Option (Server × Option Nat)
  | publishing e _ .open =>
    (srv.lostBox e.box { append := true }).map fun srv => (srv, some e.index)
  | polling e _ _ _ .open => (srv.lostBox e.box {}).map fun srv => (srv, some e.index)
  | polling _ _ _ true (.close fhandle result) =>
    if result.bytesRead < 0 then none
    else match srv.fs.tfsClose fhandle with
      | .ok (_, fs) => some (srv.setFs fs, none)
      | .error _ => none
  | _ => none

/-- The worker is inside `create_box`, `remove_box`, `register_entry` or an iteration of a
session. -/
def inProgress : Activity → Bool
  | creating _ _ _ => true
  | removing _ _ _ => true
  | registering _ _ _ => true
  | publishing _ _ _ => true
  | polling _ _ _ _ _ => true
  | _ => false

theorem inProgress_of_held {a : Activity} {i : Int} (h : a.held = some i) :
    a.inProgress = true := by
  cases a <;> first | rfl | cases h

end Activity

/-- The broker with its workers, and the slots whose lock is never released. -/
structure HolderState where
  calls : CallState
  kept : List Nat

inductive HolderLabel
  /-- A step in which no `close` of a pipe fails. -/
  | call (l : CallLabel)
  /-- A call of worker `t` ends its session, and the `close` of its pipe fails. -/
  | closeFails (t : Nat)

namespace HolderState

def initial (srv : Server) : HolderState := ⟨.initial srv, []⟩

def fs (s : HolderState) : Fs := s.calls.server.fs

/-- The handle that worker `t` holds. -/
def held (s : HolderState) (t : Nat) : Option Int := (s.calls.workers t).bind Activity.held

/-- The lock that the step waits for is never released. -/
def blocked (s : HolderState) : CallLabel → Bool
  | .message t _ | .pass t _ _ =>
    match s.calls.workers t with
    | some (.attached _ e _) => decide (e.index ∈ s.kept)
    | _ => false
  | _ => false

def step (s : HolderState) : HolderLabel → Option HolderState
  | .call l => if s.blocked l then none else (s.calls.step l).map fun c => { s with calls := c }
  | .closeFails t =>
    match s.calls.workers t with
    | none => none
    | some a => (a.closeFails s.calls.server).map fun (srv, slot) =>
      ⟨(s.calls.setServer srv).setWorker t none, s.kept ++ slot.toList⟩

end HolderState

/-- What a step does to the handle of a worker: it receives one from a `tfs_open`, or returns its
own to a `tfs_close` that succeeds. -/
inductive Exchange (fs : Fs) : Option Int → Fs → Option Int → Prop
  | keeps (held : Option Int) (fs' : Fs) : Exchange fs held fs' held
  | opened {path : CString} {mode : FileMode} {i : Int} {fs' : Fs} :
      fs.tfsOpen (some path) mode = .ok (i, fs') → 0 ≤ i → Exchange fs none fs' (some i)
  | closed {i : Int} {fs' : Fs} : fs.tfsClose i = .ok (0, fs') → Exchange fs (some i) fs' none

/-- The entries in use are those of the handles held between `tfs_open` and `tfs_close`, no two
workers hold the same one, and every handle can be closed. -/
structure HandlesExact (s : HolderState) : Prop where
  taken_iff : ∀ h : Nat, h < s.fs.maxOpenFiles →
    (s.fs.freeOpenFileEntries h = .taken ↔ ∃ t, s.held t = some (h : Int))
  handle : ∀ t i, s.held t = some i → ∃ h : Nat, i = h ∧ h < s.fs.maxOpenFiles
  sole : ∀ t u i, s.held t = some i → s.held u = some i → t = u
  closes : ∀ t i, s.held t = some i → ∃ fs', s.fs.tfsClose i = .ok (0, fs')
  exchange : ∀ l s', s.step l = some s' → ∀ t, Exchange s.fs (s.held t) s'.fs (s'.held t)
  empty : (∀ t a, s.calls.workers t = some a → a.inProgress = false) →
    ∀ h : Nat, h < s.fs.maxOpenFiles → s.fs.freeOpenFileEntries h = .free

/-! ### The handles in use -/

variable {srv srv' : Server} {fs fs' : Fs} {a : Activity} {a' : Option Activity}
  {x y : Option Int}

theorem AddsHandle.passes {k offset : Nat} {r : Int} (ha : AddsHandle fs k offset r fs') :
    Passes fs.openHandles fs'.openHandles none (if r < 0 then none else some r) := by
  cases ha with
  | full _ => exact .keep none rfl
  | slot h hlt hfree _ =>
    rw [if_neg (not_lt.mpr (Int.natCast_nonneg h))]
    exact .take (h : Int) (not_mem_openHandles hfree) (openHandles_opened hlt)

theorem Opens.passes {path : CString} {mode : FileMode} {r : Int}
    (ho : Opens fs (some path) mode r fs') (ht : mode.trunc = false) :
    Passes fs.openHandles fs'.openHandles none (if r < 0 then none else some r) := by
  cases ho with
  | existing _ _ _ ha =>
    rw [afterTrunc_of_not ht] at ha
    exact AddsHandle.passes ha
  | @created n _ _ k i _ _ _ _ ha =>
    have hsame : (fs.createdFile k i n.tail).openHandles = fs.openHandles :=
      openHandles_of_same rfl rfl rfl
    rw [← hsame]
    exact AddsHandle.passes ha
  | _ => exact .keep none (openHandles_of_same rfl rfl rfl)

/-- A step of a function takes the entry of the handle that it receives, or frees that of the
handle that it returns. -/
theorem Touches.passes (wf : fs.WellFormed) (h : Touches fs x fs' y)
    (hx : ∀ i, x = some i → i ∈ fs.openHandles) :
    Passes fs.openHandles fs'.openHandles x y := by
  cases h with
  | pass => exact .keep x rfl
  | @opens path mode _ _ ht hopen =>
    obtain ⟨r', fs₁, heq, ho⟩ := wf.tfsOpen (some path) mode
    rw [hopen] at heq
    cases heq
    exact Opens.passes ho ht
  | @closes fhandle _ _ hclose =>
    obtain ⟨h, k, rfl, ho⟩ := hx fhandle rfl
    cases hclose.symm.trans (close_opened wf ho)
    exact .release (h : Int) openHandles_closed
  | writes hwrite =>
    have hw := wf.tfsWrite hwrite
    have hh := (wf.writes hw).handles
    exact .keep _ (openHandles_congr wf.handles hh (by cases hw <;> rfl) (by cases hw <;> rfl))
  | reads hread =>
    have hr := wf.tfsRead hread
    have hh := (wf.reads hr).handles
    exact .keep _ (openHandles_congr wf.handles hh (by cases hr <;> rfl) (by cases hr <;> rfl))
  | @unlinks path _ _ hunlink =>
    obtain ⟨r, fs₁, heq, hu⟩ := wf.tfsUnlink (some path)
    rw [hunlink] at heq
    cases heq
    refine .keep none (openHandles_of_same ?_ ?_ ?_) <;> cases hu <;> rfl

/-- A handle changes hands only by a call that succeeds. -/
theorem Touches.exchange (wf : fs.WellFormed) (h : Touches fs x fs' y)
    (hx : ∀ i, x = some i → i ∈ fs.openHandles) : Exchange fs x fs' y := by
  cases h with
  | pass => exact .keeps x fs
  | @opens path mode r _ ht hopen =>
    by_cases hneg : r < 0
    · rw [if_pos hneg]
      exact .keeps none _
    · rw [if_neg hneg]
      exact .opened hopen (not_lt.mp hneg)
  | @closes fhandle _ _ hclose =>
    obtain ⟨h, k, rfl, ho⟩ := hx fhandle rfl
    cases hclose.symm.trans (close_opened wf ho)
    exact .closed hclose
  | writes => exact .keeps _ _
  | reads => exact .keeps _ _
  | unlinks => exact .keeps none _

/-! ### What a step does -/

theorem lostBox_touches {box : BoxName} {mode : FileMode} (ht : mode.trunc = false)
    (h : srv.lostBox box mode = some srv') : Touches srv.fs none srv'.fs none := by
  rw [Server.lostBox] at h
  split at h
  · next fhandle fs hopen =>
    obtain ⟨hneg, ⟨⟩⟩ := Option.ite_none_right_eq_some.mp h
    exact touches_open_fails ht hopen hneg
  · cases h

/-- A session that ends with a pipe that it could not close holds no handle. -/
theorem closeFails_touches {slot : Option Nat} (h : a.closeFails srv = some (srv', slot)) :
    Touches srv.fs a.held srv'.fs none := by
  cases a with
  | publishing e text s =>
    cases s with
    | «open» =>
      obtain ⟨_, hlost, ⟨⟩⟩ := Option.map_eq_some_iff.mp h
      exact lostBox_touches rfl hlost
    | _ => cases h
  | polling e bytesProcessed stale clientGone s =>
    cases s with
    | «open» =>
      obtain ⟨_, hlost, ⟨⟩⟩ := Option.map_eq_some_iff.mp h
      exact lostBox_touches rfl hlost
    | read fhandle count buffer => cases h
    | close fhandle result =>
      cases clientGone with
      | false => cases h
      | true =>
        obtain ⟨_, h⟩ := Option.ite_none_left_eq_some.mp h
        split at h
        · next hclose =>
          cases h
          exact .closes hclose
        · cases h
  | _ => cases h

namespace HolderState

variable {s s' : HolderState} {l : HolderLabel}

theorem held_of_worker {t : Nat} (ht : s.calls.workers t = some a) : s.held t = a.held :=
  congrArg (fun w => w.bind Activity.held) ht

theorem held_setWorker (c : CallState) (srv : Server) (t : Nat) (new : Option Activity)
    (kept kept' : List Nat) :
    held ⟨(c.setServer srv).setWorker t new, kept'⟩ =
      Function.update (held ⟨c, kept⟩) t (new.bind Activity.held) := by
  funext u
  by_cases hu : u = t
  · subst hu
    simp [held, CallState.setWorker, CallState.setServer]
  · simp [held, CallState.setWorker, CallState.setServer, hu]

theorem held_reports (c : CallState) (a : Activity) (a' : Option Activity) (kept : List Nat) :
    held ⟨c.reports a a', kept⟩ = held ⟨c, kept⟩ := by
  funext t
  exact congrArg (fun w => (w t).bind Activity.held) (CallState.reports_workers a a')

/-- A step is that of one worker, and makes one call of TecnicoFS at most. -/
theorem touches_of_step (hs : s.step l = some s') :
    ∃ t x, Touches s.fs (s.held t) s'.fs x ∧ s'.held = Function.update s.held t x := by
  obtain ⟨c, kept⟩ := s
  cases l with
  | call l =>
    obtain ⟨_, hs⟩ := Option.ite_none_left_eq_some.mp hs
    obtain ⟨c', hcall, rfl⟩ := Option.map_eq_some_iff.mp hs
    cases CallState.outcome_of_step hcall with
    | calls t a a' srv ht hworker =>
      refine ⟨t, a'.bind Activity.held, ?_, ?_⟩
      · rw [held_of_worker ht]
        exact (call_touches hworker).1
      · rw [held_setWorker _ srv t a' kept, held_reports]
    | moves _ t srv new hfs hmax ht hold hnew =>
      refine ⟨t, none, ?_, ?_⟩
      · show Touches c.server.fs ((c.workers t).bind Activity.held) srv.fs none
        rw [hold, hfs]
        exact .pass none
      · rw [held_setWorker c srv t new kept, hnew]
  | closeFails t =>
    simp only [step] at hs
    split at hs
    · cases hs
    · next a ht =>
      obtain ⟨⟨srv, slot⟩, hfails, rfl⟩ := Option.map_eq_some_iff.mp hs
      refine ⟨t, none, ?_, held_setWorker c srv t none kept _⟩
      rw [held_of_worker ht]
      exact closeFails_touches hfails

/-! ### Whole runs -/

/-- The file system is well formed, and its entries in use are held by one worker each. -/
structure Holding (s : HolderState) : Prop where
  wellFormed : s.fs.WellFormed
  holders : ExactHolders s.fs.openHandles s.held

theorem Holding.mem (h : s.Holding) (t : Nat) (i : Int) (ht : s.held t = some i) :
    i ∈ s.fs.openHandles :=
  h.holders.mem t i ht

theorem Holding.step (h : s.Holding) (hs : s.step l = some s') : s'.Holding := by
  obtain ⟨t, x, htouches, hheld⟩ := touches_of_step hs
  have hpasses := htouches.passes h.wellFormed (h.mem t)
  constructor
  · have htracks : Tracks s.calls.server (s.held t) (s.calls.server.setFs s'.fs) x :=
      htouches.tracks h.wellFormed
    exact htracks.wellFormed
  · rw [hheld]
    exact h.holders.update hpasses

theorem Holding.exchange (h : s.Holding) (hs : s.step l = some s') (u : Nat) :
    Exchange s.fs (s.held u) s'.fs (s'.held u) := by
  obtain ⟨t, x, htouches, hheld⟩ := touches_of_step hs
  rw [hheld]
  by_cases hu : u = t
  · subst hu
    rw [Function.update_self]
    exact htouches.exchange h.wellFormed (h.mem u)
  · rw [Function.update_of_ne hu]
    exact .keeps (s.held u) s'.fs

theorem Holding.handlesExact (h : s.Holding) : HandlesExact s where
  taken_iff := by
    intro e he
    rw [← h.holders.mem_iff, h.wellFormed.handles.mem_openHandles]
    exact ⟨fun ht => ⟨he, ht⟩, And.right⟩
  handle := by
    intro t i ht
    obtain ⟨e, k, heq, ho⟩ := h.mem t i ht
    exact ⟨e, heq, ho.valid⟩
  sole := h.holders.sole
  closes := by
    intro t i ht
    obtain ⟨e, k, rfl, ho⟩ := h.mem t i ht
    exact ⟨_, close_opened h.wellFormed ho⟩
  exchange := fun l s' hs => h.exchange hs
  empty := by
    intro hnone e he
    -- no worker holds a handle
    have hheld : ∀ t, s.held t = none := by
      intro t
      cases hw : s.calls.workers t with
      | none => simp only [held, hw, Option.bind_none]
      | some a =>
        rw [held_of_worker hw]
        by_contra hsome
        obtain ⟨i, hi⟩ := Option.ne_none_iff_exists'.mp hsome
        cases (Activity.inProgress_of_held hi).symm.trans (hnone t a hw)
    by_contra hfree
    have htaken := Decidable.not_not.mp (mt not_taken.mp hfree)
    have hmem := h.wellFormed.handles.mem_openHandles.mpr ⟨he, htaken⟩
    rw [h.holders.eq_empty hheld] at hmem
    exact hmem

theorem holding_initial {fs₀ : Fs} {malloc : Malloc} {maxSessions : Nat}
    (hinit : initServer fs₀ malloc maxSessions = .ok (0, srv)) : (initial srv).Holding := by
  have htracked := CallState.tracked_initial hinit
  refine ⟨htracked.wellFormed, exactHolders_empty ?_⟩
  apply Set.eq_empty_of_forall_notMem
  rintro _ ⟨e, k, rfl, ho⟩
  obtain ⟨t, a, hw, _⟩ := htracked.holder e ho.valid ho.taken
  cases hw

end HolderState

/-- From a new broker with any number of workers, in every state reached by any interleaving of
their calls, the handles in use are those between `tfs_open` and `tfs_close`. -/
theorem handlesExact_of_reaches {fs₀ : Fs} {malloc : Malloc} {maxSessions : Nat} {s : HolderState}
    (hinit : initServer fs₀ malloc maxSessions = .ok (0, srv))
    (hr : Reaches HolderState.step anyStep (.initial srv) s) : HandlesExact s := by
  have hholding : s.Holding := by
    apply hr.invariant (HolderState.holding_initial hinit)
    intro u l v hu _ hs
    exact hu.step hs
  exact hholding.handlesExact

theorem HolderState.not_blocked (c : CallState) (l : CallLabel) :
    blocked ⟨c, []⟩ l = false := by
  cases l with
  | message t text | pass t stale clientGone =>
    simp only [blocked]
    split <;> rfl
  | _ => rfl

theorem HolderState.step_of_calls {c c' : CallState} {l : CallLabel} (hs : c.step l = some c') :
    step ⟨c, []⟩ (.call l) = some ⟨c', []⟩ := by
  simp only [step, not_blocked, hs, Bool.false_eq_true, if_false, Option.map_some]

/-- A run in which no pipe fails to be closed. -/
theorem HolderState.reaches_of_calls {c c' : CallState} (hr : Reaches CallState.step anyStep c c') :
    Reaches HolderState.step anyStep ⟨c, []⟩ ⟨c', []⟩ := by
  induction hr with
  | refl => exact Reaches.refl _
  | tail _ hs ih =>
    obtain ⟨l, _, hs⟩ := hs
    exact ih.snoc (.call l) trivial (step_of_calls hs)

/-- The worker has created a file and not closed it yet. -/
theorem oneWorker_handlesExact :
    ∃ srv s, initServer uninitialized (.granted zeroHeap) 1 = .ok (0, srv) ∧
      Reaches HolderState.step anyStep (.initial srv) s ∧ inUse s.fs = 1 ∧ HandlesExact s := by
  obtain ⟨c, hr, hcrowd⟩ := CallState.crowd_zero (initServer_started 1) Nat.one_pos
  have hr' := HolderState.reaches_of_calls hr
  exact ⟨_, _, initServer_started 1, hr', hcrowd.count,
    handlesExact_of_reaches (initServer_started 1) hr'⟩

end MessageBroker.Broker
