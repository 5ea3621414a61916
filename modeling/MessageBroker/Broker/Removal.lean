import MessageBroker.Broker.Handles
import MessageBroker.Broker.WorkerCalls

/-!
# Sessions and the removal of their box

A session learns that its box was removed only from a `tfs_open` that fails in its next
iteration. `remove_box` and `create_box` take no lock of a box, so that a box can be created
before that iteration, and also between the `tfs_open` of an iteration and its last `tfs_write`
or `tfs_read`. Under the name of the old box it takes its place; on the inode or the block of
the old box it is written and read by the session, whatever its name is.
-/

namespace MessageBroker.Broker

open Bytes Table Transition Tfs Tfs.Fs Delivery

namespace Activity

/-- The slot and the box of a session that is attached. -/
def session : Activity → Option Attachment
  | attached _ e _ => some e
  | publishing e _ _ => some e
  | polling e _ _ _ _ => some e
  | _ => none

/-- An iteration that opens the file of its box next. -/
def opens : Activity → Option (Role × Attachment)
  | publishing e _ .open => some (.publisher, e)
  | polling e _ _ _ .open => some (.subscriber, e)
  | _ => none

/-- The handle that the next step writes or reads. -/
def accesses : Activity → Option Int
  | publishing _ _ (.write fhandle) => some fhandle
  | polling _ _ _ _ (.read fhandle _ _) => some fhandle
  | _ => none

end Activity

/-- The broker call by call. Each session whose box was removed has the inodes that were taken for
new files since then. -/
structure RemovalState where
  calls : CallState
  since : Nat → Option (List Nat)

/-- The server behind an iteration that ends a session because its box is missing. -/
def Server.boxMissing (srv : Server) (role : Role) (e : Attachment) : Server :=
  srv.modifyBox e.index (role.bump (· - 1))

namespace RemovalState

def initial (srv : Server) : RemovalState := ⟨.initial srv, fun _ => none⟩

def fs (s : RemovalState) : Fs := s.calls.server.fs

def session (s : RemovalState) (t : Nat) : Option Attachment :=
  (s.calls.workers t).bind Activity.session

/-- The handle that session `t` writes or reads next. -/
def accesses (s : RemovalState) (t : Nat) : Option Int :=
  (s.calls.workers t).bind Activity.accesses

/-- The inode of that handle. -/
def inode (s : RemovalState) (t : Nat) : Option Nat :=
  (s.accesses t).map fun fhandle => (s.fs.openFileTable fhandle.toNat).ofInumber.toNat

/-- The box whose file a step removes: `tfs_unlink` has succeeded, and `remove_box` goes on. -/
def removedBox (c c' : CallState) : CallLabel → Option BoxName
  | .call u =>
    match c.workers u, c'.workers u with
    | some (.removing _ box .unlink), some (.removing _ _ .freeSlot) => some box
    | _, _ => none
  | _ => none

/-- The inodes taken since the removal of the box of session `t`, behind a step. -/
def sinceAfter (s : RemovalState) (l : CallLabel) (c' : CallState) (t : Nat) :
    Option (List Nat) :=
  match (c'.workers t).bind Activity.session, s.since t with
  | none, _ => none
  | some _, some inodes => some (inodes ++ takenBy s.fs c'.server.fs)
  | some e, none =>
    if (removedBox s.calls c' l).map BoxName.name = some e.box.name then some [] else none

def step (s : RemovalState) (l : CallLabel) : Option RemovalState :=
  (s.calls.step l).map fun c' => ⟨c', s.sinceAfter l c'⟩

/-- The step is the `tfs_open` of a `create_box` that creates the file of `box` on inode `k`. -/
def CreatesFile (s : RemovalState) (l : CallLabel) (box : BoxName) (k : Nat) : Prop :=
  ∃ u pipe i, l = .call u ∧ s.calls.workers u = some (.creating pipe box .create) ∧
    validPathname (some box.name) = true ∧ s.fs.CanCreate k i box.name.tail ∧
    s.fs.inodeAlloc.1 = some k

/-- The step is the `tfs_write` of a publisher that gives block `b` to inode `j`, which has none. -/
def GivesBlock (s : RemovalState) (l : CallLabel) (j b : Nat) : Prop :=
  ∃ u e text fhandle, l = .call u ∧ s.calls.workers u = some (.publishing e text (.write fhandle)) ∧
    s.fs.GivesBlock fhandle (payload text).length j b

end RemovalState

open RemovalState

/-- What is left alone for a session whose box was removed, while it has not ended: no file is
created under the name of the box, or on the inode that the session writes or reads next, and no
file created since the removal receives the block of that inode as its first one. -/
def SparesOutlived (s : RemovalState) (l : CallLabel) : Prop :=
  ∀ t < s.calls.server.maxSessions, ∀ inodes, s.since t = some inodes →
    (∀ box k, s.CreatesFile l box k →
      (∀ e, s.session t = some e → e.box.name ≠ box.name) ∧ s.inode t ≠ some k) ∧
    ∀ j b, s.GivesBlock l j b → j ∈ inodes → s.fs.IsFile j →
      ∀ k, s.inode t = some k → (s.fs.inodeTable k).iDataBlock ≠ b

/-- A session whose box was removed keeps off the files created since then, on `inodes`. Its next
`tfs_write` or `tfs_read` goes to another inode and another block, a step of it leaves those files
as they are, and its next iteration finds no file and ends it. -/
structure KeepsOff (s : RemovalState) (t : Nat) (inodes : List Nat) : Prop where
  apart : ∀ k, s.inode t = some k → ∀ j ∈ inodes, s.fs.ApartFrom k j
  files : ∀ s', s.step (.call t) = some s' → ∀ j ∈ inodes, s.fs.IsFile j →
    s'.fs.IsFile j ∧ s'.fs.fileOf j = s.fs.fileOf j
  missing : ∀ e, s.session t = some e → ¬ HasPath s.fs e.box.name
  ends : ∀ a role e, s.calls.workers t = some a → a.opens = some (role, e) →
    s.calls.step (.call t) = some (((s.calls.report e.box).setServer
      (s.calls.server.boxMissing role e)).setWorker t none)

variable {srv srv' : Server} {pipe : PipePath} {box : BoxName} {a : Activity}
  {a' : Option Activity} {e : Attachment} {i : Int}

/-! ### One call of a worker -/

namespace Activity

theorem held_of_accesses (h : a.accesses = some i) : a.held = some i := by
  cases a with
  | publishing e text s =>
    cases s with
    | write fhandle => exact h
    | _ => cases h
  | polling e bytesProcessed stale clientGone s =>
    cases s with
    | read fhandle count buffer => exact h
    | _ => cases h
  | _ => cases h

theorem session_of_accesses (h : a.accesses = some i) : ∃ e, a.session = some e := by
  cases a with
  | publishing e text s => exact ⟨e, rfl⟩
  | polling e bytesProcessed stale clientGone s => exact ⟨e, rfl⟩
  | _ => cases h

theorem session_of_opens {role : Role} (h : a.opens = some (role, e)) : a.session = some e := by
  cases a with
  | publishing e₀ text s =>
    cases s with
    | «open» => cases h; rfl
    | _ => cases h
  | polling e₀ bytesProcessed stale clientGone s =>
    cases s with
    | «open» => cases h; rfl
    | _ => cases h
  | _ => cases h

theorem not_closes_of_accesses {j : Int} (h : a.accesses = some i) :
    a.tfsCall ≠ some (.close j) := by
  cases a with
  | publishing e text s =>
    cases s with
    | write fhandle => nofun
    | _ => cases h
  | polling e bytesProcessed stale clientGone s =>
    cases s with
    | read fhandle count buffer => nofun
    | _ => cases h
  | _ => cases h

/-- A call attaches no session, and leaves it at its box. -/
theorem session_of_call (h : a.call srv = some (a', srv')) (h' : a'.bind session = some e) :
    a.session = some e := by
  cases a with
  | creating pipe box s | removing pipe box s =>
    obtain ⟨_, _, rfl⟩ | ⟨_, _, rfl⟩ := behind_cases h <;> cases h'
  | registering role box s =>
    obtain ⟨_, _, rfl⟩ | ⟨_, _, rfl⟩ := behind_cases h
    · cases h'
    · split at h' <;> cases h'
  | publishing e₀ text s =>
    obtain ⟨_, _, rfl⟩ | ⟨goesOn, _, rfl⟩ := behind_cases h
    · exact h'
    · cases goesOn
      · cases h'
      · exact h'
  | polling e₀ bytesProcessed stale clientGone s =>
    obtain ⟨_, _, rfl⟩ | ⟨result, _, rfl⟩ := behind_cases h
    · exact h'
    · cases result
      · cases h'
      · exact h'
  | _ => cases h

/-- An iteration whose box is missing ends the session. -/
theorem call_of_missing {role : Role} (ho : a.opens = some (role, e))
    (hmissing : ∀ mode : FileMode, mode.creat = false →
      srv.fs.tfsOpen (some e.box.name) mode = .ok (-1, srv.fs)) :
    a.call srv = some (none, srv.boxMissing role e) ∧ a.asksFor = some e.box := by
  cases a with
  | publishing e₀ text s =>
    cases s with
    | «open» =>
      cases ho
      refine ⟨?_, rfl⟩
      simp only [call, publishStep, hmissing { append := true } rfl, ok_bind]
      rfl
    | _ => cases ho
  | polling e₀ bytesProcessed stale clientGone s =>
    cases s with
    | «open» =>
      cases ho
      refine ⟨?_, rfl⟩
      simp only [call, pollStep, hmissing {} rfl, ok_bind]
      rfl
    | _ => cases ho
  | _ => cases ho

/-- A session whose box is missing gets no handle. -/
theorem accesses_of_call (h : a.call srv = some (a', srv')) (he : a.session = some e)
    (hmissing : ∀ mode : FileMode, mode.creat = false →
      srv.fs.tfsOpen (some e.box.name) mode = .ok (-1, srv.fs))
    (h' : a'.bind accesses = some i) : a.accesses = some i := by
  cases a with
  | publishing e₀ text s =>
    cases he
    cases s with
    | «open» =>
      obtain ⟨hends, _⟩ := call_of_missing (a := .publishing e text .open) rfl hmissing
      rw [hends] at h
      cases h
      cases h'
    | write fhandle =>
      obtain ⟨_, hr, rfl⟩ | ⟨_, hr, rfl⟩ := behind_cases h
      · obtain ⟨_, _, hr⟩ := bind_eq_ok.mp hr
        cases hr
        cases h'
      · obtain ⟨_, _, hr⟩ := bind_eq_ok.mp hr
        cases hr
    | close fhandle written =>
      obtain ⟨_, hr, rfl⟩ | ⟨goesOn, _, rfl⟩ := behind_cases h
      · obtain ⟨_, _, hr⟩ := bind_eq_ok.mp hr
        cases hr
      · cases goesOn <;> cases h'
  | polling e₀ bytesProcessed stale clientGone s =>
    cases he
    cases s with
    | «open» =>
      obtain ⟨hends, _⟩ := call_of_missing
        (a := .polling e bytesProcessed stale clientGone .open) rfl hmissing
      rw [hends] at h
      cases h
      cases h'
    | read fhandle count buffer =>
      obtain ⟨_, hr, rfl⟩ | ⟨_, hr, rfl⟩ := behind_cases h
      · obtain ⟨_, _, hr⟩ := bind_eq_ok.mp hr
        cases hr
        split at h'
        · cases h'
        · exact h'
      · obtain ⟨_, _, hr⟩ := bind_eq_ok.mp hr
        cases hr
    | close fhandle result =>
      obtain ⟨_, hr, rfl⟩ | ⟨goesOn, _, rfl⟩ := behind_cases h
      · exfalso
        obtain ⟨_, _, hr⟩ := bind_eq_ok.mp hr
        dsimp only at hr
        split at hr
        · cases hr
        · split at hr
          · cases hr
          · split at hr <;> cases hr
      · cases goesOn <;> cases h'
  | attached role e₀ bytesProcessed => cases h
  | _ => cases he

end Activity

/-! ### One step -/

/-- A step that is no call of a worker leaves the file system and what the sessions do there. -/
theorem CallState.moves_of_step {c c' : CallState} {l : CallLabel} (hs : c.step l = some c')
    (hl : ∀ u, l ≠ .call u) : ∃ u new, c'.server.fs = c.server.fs ∧
      c'.workers = Function.update c.workers u new ∧
      (c.workers u).bind Activity.accesses = none ∧ new.bind Activity.accesses = none ∧
      ∀ e, new.bind Activity.session = some e →
        (c.workers u).bind Activity.session = some e ∨
          (c.workers u).bind Activity.session = none := by
  cases l with
  | call u => exact absurd rfl (hl u)
  | request t req =>
    obtain ⟨hw, ⟨⟩⟩ := Option.ite_none_right_eq_some.mp hs
    refine ⟨t, _, rfl, rfl, ?_, by cases req <;> rfl, fun e he => by cases req <;> cases he⟩
    rw [Option.isNone_iff_eq_none.mp hw.2]
    rfl
  | register t role box =>
    obtain ⟨hw, ⟨⟩⟩ := Option.ite_none_right_eq_some.mp hs
    refine ⟨t, _, rfl, rfl, ?_, rfl, fun e he => by cases he⟩
    rw [Option.isNone_iff_eq_none.mp hw.2]
    rfl
  | link t =>
    simp only [step] at hs
    split at hs
    · next role e ht =>
      cases hs
      refine ⟨t, _, rfl, rfl, by rw [ht]; rfl, by split <;> rfl, fun _ _ => Or.inr ?_⟩
      rw [ht]
      rfl
    · cases hs
  | attach t piped =>
    simp only [step] at hs
    split at hs
    · next role e ht =>
      cases hs
      have hbefore : (c.workers t).bind Activity.session = none := by
        rw [ht]
        rfl
      split
      · exact ⟨t, _, rfl, rfl, by rw [ht]; rfl, rfl, fun _ _ => Or.inr hbefore⟩
      · exact ⟨t, _, rfl, rfl, by rw [ht]; rfl, rfl, fun _ _ => Or.inr hbefore⟩
    · cases hs
  | message t text | pass t stale clientGone =>
    simp only [step] at hs
    split at hs
    · next e bytesProcessed ht =>
      obtain ⟨_, ⟨⟩⟩ := Option.ite_none_right_eq_some.mp hs
      refine ⟨t, _, rfl, rfl, by rw [ht]; rfl, rfl, fun e' he => Or.inl ?_⟩
      rw [ht]
      exact he
    · cases hs
  | leave t | fail t =>
    simp only [step] at hs
    split at hs
    · next ht =>
      cases hs
      exact ⟨t, none, rfl, rfl, by rw [ht]; rfl, rfl, fun e he => by cases he⟩
    · cases hs

namespace RemovalState

variable {s s' : RemovalState} {l : CallLabel} {t : Nat} {inodes : List Nat} {k : Nat}

/-- A call of worker `u`. -/
structure Calls (s : RemovalState) (u : Nat) (a : Activity) (a' : Option Activity)
    (s' : RemovalState) : Prop where
  worker : s.calls.workers u = some a
  call : a.call s.calls.server = some (a', s'.calls.server)
  workers : s'.calls.workers = Function.update s.calls.workers u a'

theorem calls_of_step {u : Nat} (hs : s.step (.call u) = some s') : ∃ a a', Calls s u a a' s' := by
  obtain ⟨c', hc, rfl⟩ := Option.map_eq_some_iff.mp hs
  simp only [CallState.step] at hc
  split at hc
  · cases hc
  · next a ha =>
    obtain ⟨⟨a', srv⟩, hcall, rfl⟩ := Option.map_eq_some_iff.mp hc
    refine ⟨a, a', ha, hcall, ?_⟩
    show Function.update (s.calls.reports a a').workers u a' = _
    rw [CallState.reports_workers]

theorem since_cases (hs : s.step l = some s') (ht : s'.since t = some inodes) :
    ∃ e, s'.session t = some e ∧
      ((∃ old, s.since t = some old ∧ inodes = old ++ takenBy s.fs s'.fs) ∨
        ∃ box, removedBox s.calls s'.calls l = some box ∧ box.name = e.box.name ∧
          inodes = []) := by
  obtain ⟨c', _, rfl⟩ := Option.map_eq_some_iff.mp hs
  simp only [sinceAfter] at ht
  split at ht
  · cases ht
  · next e old he hold =>
    cases ht
    exact ⟨e, he, Or.inl ⟨old, hold, rfl⟩⟩
  · next e he _ =>
    obtain ⟨hbox, ⟨⟩⟩ := Option.ite_none_right_eq_some.mp ht
    obtain ⟨box, hbox, hname⟩ := Option.map_eq_some_iff.mp hbox
    exact ⟨e, he, Or.inr ⟨box, hbox, hname, rfl⟩⟩

/-- The invariant: no file has the name of a box that a session has outlived, and the session keeps
off the files created since. -/
structure Clear (s : RemovalState) : Prop where
  tracked : s.calls.Tracked
  holding : HolderState.Holding ⟨s.calls, []⟩
  missing : ∀ t inodes, s.since t = some inodes → ∃ e, s.session t = some e ∧
    ¬ HasPath s.fs e.box.name
  apart : ∀ t inodes k, s.since t = some inodes → s.inode t = some k →
    ∀ j ∈ inodes, s.fs.ApartFrom k j

theorem Clear.wellFormed (h : s.Clear) : s.fs.WellFormed := h.tracked.wellFormed

theorem held_of_accesses (ha : s.accesses t = some i) :
    HolderState.held ⟨s.calls, []⟩ t = some i := by
  obtain ⟨a, hw, ha⟩ := Option.bind_eq_some_iff.mp ha
  rw [HolderState.held_of_worker hw]
  exact Activity.held_of_accesses ha

theorem inode_of_openOn {h : Nat} (ha : s.accesses t = some (h : Int)) (ho : s.fs.OpenOn h k) :
    s.inode t = some k := by
  simp only [inode, ha, Option.map_some, Int.toNat_natCast, ho.inumber]

theorem handle_of_inode (hs : HolderState.Holding ⟨s.calls, []⟩) (hk : s.inode t = some k) :
    ∃ h : Nat, s.accesses t = some (h : Int) ∧ s.fs.OpenOn h k := by
  obtain ⟨fhandle, ha, _⟩ := Option.map_eq_some_iff.mp hk
  obtain ⟨h, k', rfl, ho⟩ := hs.mem t fhandle (held_of_accesses ha)
  have hk' := inode_of_openOn ha ho
  rw [hk] at hk'
  cases hk'
  exact ⟨h, ha, ho⟩

section Call

variable {u : Nat} {s s' : RemovalState}

theorem Calls.executes (hc : Calls s u a a' s') : Executes s.fs a.tfsCall s'.fs :=
  call_executes hc.call

theorem Calls.session_self (hc : Calls s u a a' s') : s.session u = a.session := by
  rw [session, hc.worker]
  rfl

theorem Calls.accesses_self (hc : Calls s u a a' s') : s.accesses u = a.accesses := by
  rw [accesses, hc.worker]
  rfl

theorem Calls.session_of_ne (hc : Calls s u a a' s') (ht : t ≠ u) :
    s'.session t = s.session t := by
  rw [session, hc.workers, Function.update_of_ne ht]
  rfl

theorem Calls.accesses_of_ne (hc : Calls s u a a' s') (ht : t ≠ u) :
    s'.accesses t = s.accesses t := by
  rw [accesses, hc.workers, Function.update_of_ne ht]
  rfl

theorem Calls.session_of_some (hc : Calls s u a a' s') (he : s'.session t = some e) :
    s.session t = some e := by
  by_cases ht : t = u
  · subst ht
    rw [session, hc.workers, Function.update_self] at he
    rw [hc.session_self]
    exact Activity.session_of_call hc.call he
  · rwa [hc.session_of_ne ht] at he

/-- A handle that is not closed stays on its inode. -/
theorem Calls.openOn {h : Nat} (hc : Calls s u a a' s') (wf : s.fs.WellFormed)
    (ho : s.fs.OpenOn h k) (hclose : a.tfsCall ≠ some (.close h)) : s'.fs.OpenOn h k := by
  have hexec := hc.executes
  cases hcall : a.tfsCall with
  | none =>
    rw [hcall] at hexec
    have hfs : s'.fs = s.fs := hexec
    rwa [hfs]
  | some c =>
    rw [hcall] at hexec
    obtain ⟨reply, hrun⟩ := hexec
    refine (performs_of_exec wf hrun).openOn ho ?_
    rintro rfl
    exact hclose hcall

/-- The handle of another worker is not the one that a call closes. -/
theorem Clear.not_closes {h : Nat} (hs : s.Clear) (hc : Calls s u a a' s') (ht : t ≠ u)
    (ha : s.accesses t = some (h : Int)) : a.tfsCall ≠ some (.close h) := by
  intro hclose
  have hheld : HolderState.held ⟨s.calls, []⟩ u = some (h : Int) := by
    rw [HolderState.held_of_worker hc.worker]
    exact Activity.makes_of_tfsCall hclose
  exact ht (hs.holding.holders.sole t u h (held_of_accesses ha) hheld)

theorem Clear.missing_open (hs : s.Clear) (ht : s.since t = some inodes)
    (he : s.session t = some e) (mode : FileMode) (hc : mode.creat = false) :
    s.fs.tfsOpen (some e.box.name) mode = .ok (-1, s.fs) := by
  obtain ⟨e', he', hno⟩ := hs.missing t inodes ht
  rw [he] at he'
  cases he'
  exact open_missing hs.wellFormed hno mode hc

/-- A session whose box was removed had its handle before. -/
theorem Clear.inode_of_call (hs : s.Clear) (hs' : HolderState.Holding ⟨s'.calls, []⟩)
    (hc : Calls s u a a' s') (ht : s.since t = some inodes) (hk : s'.inode t = some k) :
    s.inode t = some k := by
  obtain ⟨h, ha', ho'⟩ := handle_of_inode hs' hk
  have hboth : s.accesses t = some (h : Int) ∧ a.tfsCall ≠ some (.close h) := by
    by_cases htu : t = u
    · subst htu
      obtain ⟨e, he, _⟩ := hs.missing t inodes ht
      rw [accesses, hc.workers, Function.update_self] at ha'
      have ha := Activity.accesses_of_call hc.call (hc.session_self.symm.trans he)
        (hs.missing_open ht he) ha'
      exact ⟨hc.accesses_self.trans ha, Activity.not_closes_of_accesses ha⟩
    · rw [hc.accesses_of_ne htu] at ha'
      exact ⟨ha', hs.not_closes hc htu ha'⟩
  obtain ⟨ha, hclose⟩ := hboth
  obtain ⟨h₀, k₀, heq, ho⟩ := hs.holding.mem t h (held_of_accesses ha)
  obtain rfl := Int.natCast_inj.mp heq
  obtain rfl := (hc.openOn hs.wellFormed ho hclose).inode_unique ho'
  exact inode_of_openOn ha ho

theorem Clear.lt_maxSessions (hs : s.Clear) (ht : s.since t = some inodes) :
    t < s.calls.server.maxSessions := by
  obtain ⟨e, he, _⟩ := hs.missing t inodes ht
  obtain ⟨a, hw, _⟩ := Option.bind_eq_some_iff.mp he
  exact hs.tracked.worker t a hw

/-- The name of the box stays without a file. -/
theorem Clear.missing_of_call (hs : s.Clear) (hc : Calls s u a a' s')
    (hok : SparesOutlived s (.call u)) (ht : s.since t = some inodes) (he : s.session t = some e) :
    ¬ HasPath s'.fs e.box.name := by
  obtain ⟨e', he', hno⟩ := hs.missing t inodes ht
  rw [he] at he'
  cases he'
  have hexec := hc.executes
  cases hcall : a.tfsCall with
  | none =>
    rw [hcall] at hexec
    have hfs : s'.fs = s.fs := hexec
    rwa [hfs]
  | some c =>
    rw [hcall] at hexec
    obtain ⟨reply, hrun⟩ := hexec
    intro hp
    obtain hp | ⟨mode, k, i, rfl, hcreat, hcan, halloc⟩ := hasPath_of_exec hs.wellFormed hrun hp
    · exact hno hp
    · obtain ⟨pipe, box, rfl, hname⟩ := (Activity.makes_of_tfsCall hcall).2 hcreat
      rw [Option.some.injEq] at hname
      rw [hname] at hcan hp
      have hcreates : s.CreatesFile (.call u) box k :=
        ⟨u, pipe, i, rfl, hc.worker, hp.1, hcan, halloc⟩
      exact ((hok t (hs.lt_maxSessions ht) inodes ht).1 box k hcreates).1 e he hname

/-- The inode of a session whose box was removed is given to no file. -/
theorem Clear.taken_of_call {c : Tfs.Call} {reply : Reply} (hs : s.Clear) (hc : Calls s u a a' s')
    (hok : SparesOutlived s (.call u)) (ht : s.since t = some inodes) (hk : s.inode t = some k)
    (hcall : a.tfsCall = some c) (hrun : exec s.fs c = .ok (reply, s'.fs))
    (htaken : s'.fs.freeinodeTs k = .taken) : s.fs.freeinodeTs k = .taken := by
  by_contra hfree
  obtain ⟨path, mode, i, rfl, hv, hcreat, hcan, halloc, _⟩ :=
    taken_of_exec hs.wellFormed hrun (not_taken.mp hfree) htaken
  obtain ⟨pipe, box, rfl, hname⟩ := (Activity.makes_of_tfsCall hcall).2 hcreat
  cases hname
  have hcreates : s.CreatesFile (.call u) box k := ⟨u, pipe, i, rfl, hc.worker, hv, hcan, halloc⟩
  exact ((hok t (hs.lt_maxSessions ht) inodes ht).1 box k hcreates).2 hk

theorem Clear.apart_of_call {j : Nat} (hs : s.Clear) (hc : Calls s u a a' s')
    (hok : SparesOutlived s (.call u)) (ht : s.since t = some inodes) (hk : s.inode t = some k)
    (hj : j ∈ inodes ++ takenBy s.fs s'.fs) : s'.fs.ApartFrom k j := by
  have hexec := hc.executes
  cases hcall : a.tfsCall with
  | none =>
    rw [hcall] at hexec
    have hfs : s'.fs = s.fs := hexec
    rw [hfs, takenBy_eq_nil fun _ h => h, List.append_nil] at hj
    rw [hfs]
    exact hs.apart t inodes k ht hk j hj
  | some c =>
    rw [hcall] at hexec
    obtain ⟨reply, hrun⟩ := hexec
    have hkept := hs.taken_of_call hc hok ht hk hcall hrun
    obtain hj | hj := List.mem_append.mp hj
    · refine (hs.apart t inodes k ht hk j hj).exec hs.wellFormed hrun ?_ hkept ?_
      · rintro path mode rfl
        exact (Activity.makes_of_tfsCall hcall).1
      · rintro fhandle buffer len b rfl hgives hfile
        obtain ⟨e, text, rfl, rfl⟩ := Activity.makes_of_tfsCall hcall
        exact (hok t (hs.lt_maxSessions ht) inodes ht).2 j b
          ⟨u, e, text, fhandle, rfl, hc.worker, hgives⟩ hj hfile k hk
    · refine apartFrom_of_taken hs.wellFormed hrun hj fun hmem => ?_
      obtain ⟨_, hfree, htaken⟩ := mem_takenBy.mp hmem
      cases hfree.symm.trans (hkept htaken)

end Call

/-! ### Every step -/

theorem removedBox_eq_some {c c' : CallState} {u : Nat}
    (h : removedBox c c' (.call u) = some box) :
    ∃ pipe pipe' box', c.workers u = some (.removing pipe box .unlink) ∧
      c'.workers u = some (.removing pipe' box' .freeSlot) := by
  simp only [removedBox] at h
  split at h
  · next hu hu' =>
    cases h
    exact ⟨_, _, _, hu, hu'⟩
  · cases h

/-- A `remove_box` that goes on behind its `tfs_unlink` has removed the file. -/
theorem not_hasPath_of_removed (wf : s.fs.WellFormed) (hs : s.step l = some s')
    (hbox : removedBox s.calls s'.calls l = some box) : ¬ HasPath s'.fs box.name := by
  cases l with
  | call u =>
    obtain ⟨pipe, pipe', box', hu, hu'⟩ := removedBox_eq_some hbox
    obtain ⟨a, a', hc⟩ := calls_of_step hs
    cases hu.symm.trans hc.worker
    rw [hc.workers, Function.update_self] at hu'
    subst hu'
    exact not_hasPath_of_unlink wf (Activity.unlinked_of_call hc.call)
  | _ => cases hbox

theorem inode_congr (hfs : s'.fs = s.fs) (ha : s'.accesses t = s.accesses t) :
    s'.inode t = s.inode t := by
  rw [inode, inode, ha, hfs]

/-- What a step leaves for a session whose box was removed before it. -/
theorem Clear.outlived_of_step (h : s.Clear) (hs : s.step l = some s')
    (hs' : HolderState.Holding ⟨s'.calls, []⟩) (hok : SparesOutlived s l)
    (ht : s.since t = some inodes) (he : s'.session t = some e) :
    ¬ HasPath s'.fs e.box.name ∧ ∀ k, s'.inode t = some k →
      ∀ j ∈ inodes ++ takenBy s.fs s'.fs, s'.fs.ApartFrom k j := by
  by_cases hl : ∃ u, l = .call u
  · obtain ⟨u, rfl⟩ := hl
    obtain ⟨a, a', hc⟩ := calls_of_step hs
    refine ⟨h.missing_of_call hc hok ht (hc.session_of_some he), fun k hk j hj => ?_⟩
    exact h.apart_of_call hc hok ht (h.inode_of_call hs' hc ht hk) hj
  · obtain ⟨c', hcalls, rfl⟩ := Option.map_eq_some_iff.mp hs
    obtain ⟨u, new, hfs, hworkers, hold, hnew, hsession⟩ :=
      CallState.moves_of_step hcalls fun u hu => hl ⟨u, hu⟩
    obtain ⟨e', he', hno⟩ := h.missing t inodes ht
    have hsame : e = e' ∧ (c'.workers t).bind Activity.accesses = s.accesses t := by
      simp only [session, hworkers] at he he' ⊢
      by_cases htu : t = u
      · subst htu
        rw [Function.update_self] at he ⊢
        refine ⟨?_, hnew.trans hold.symm⟩
        obtain hsame | hnone := hsession e he
        · exact Option.some.inj (hsame.symm.trans he')
        · cases hnone.symm.trans he'
      · rw [Function.update_of_ne htu] at he ⊢
        exact ⟨Option.some.inj (he.symm.trans he'), rfl⟩
    obtain ⟨rfl, haccesses⟩ := hsame
    have hfs' : c'.server.fs = s.fs := hfs
    refine ⟨?_, fun k hk j hj => ?_⟩
    · show ¬ HasPath c'.server.fs _
      rwa [hfs']
    · have hinode : inode ⟨c', s.sinceAfter l c'⟩ t = s.inode t := inode_congr hfs' haccesses
      rw [hinode] at hk
      change j ∈ inodes ++ takenBy s.fs c'.server.fs at hj
      rw [hfs', takenBy_eq_nil fun _ h => h, List.append_nil] at hj
      show c'.server.fs.ApartFrom k j
      rw [hfs']
      exact h.apart t inodes k ht hk j hj

theorem Clear.step (h : s.Clear) (hs : s.step l = some s') (hok : SparesOutlived s l) :
    s'.Clear := by
  obtain ⟨c', hcalls, heq⟩ := Option.map_eq_some_iff.mp hs
  have hcalls' : s'.calls = c' := congrArg calls heq.symm
  have hholding : HolderState.Holding ⟨s'.calls, []⟩ :=
    hcalls' ▸ h.holding.step (HolderState.step_of_calls hcalls)
  refine ⟨hcalls' ▸ h.tracked.outcome (CallState.outcome_of_step hcalls), hholding, ?_, ?_⟩
  · intro t inodes ht
    obtain ⟨e, he, ⟨old, hold, _⟩ | ⟨box, hbox, hname, _⟩⟩ := since_cases hs ht
    · exact ⟨e, he, (h.outlived_of_step hs hholding hok hold he).1⟩
    · refine ⟨e, he, ?_⟩
      rw [← hname]
      exact not_hasPath_of_removed h.wellFormed hs hbox
  · intro t inodes k ht hk
    obtain ⟨e, he, ⟨old, hold, rfl⟩ | ⟨_, _, _, rfl⟩⟩ := since_cases hs ht
    · exact (h.outlived_of_step hs hholding hok hold he).2 k hk
    · nofun

theorem clear_initial {fs₀ : Fs} {malloc : Malloc} {maxSessions : Nat}
    (hinit : initServer fs₀ malloc maxSessions = .ok (0, srv)) : (initial srv).Clear :=
  ⟨CallState.tracked_initial hinit, HolderState.holding_initial hinit, nofun, nofun⟩

/-! ### What the invariant gives -/

/-- A step of a session leaves the files that are apart from its handle. -/
theorem Clear.files_of_call {u j : Nat} (h : s.Clear) (hc : Calls s u a a' s')
    (he : s.session u = some e) (ha : ∀ k, s.inode u = some k → s.fs.ApartFrom k j)
    (hj : s.fs.IsFile j) : s'.fs.IsFile j ∧ s'.fs.fileOf j = s.fs.fileOf j := by
  have hexec := hc.executes
  cases hcall : a.tfsCall with
  | none =>
    rw [hcall] at hexec
    have hfs : s'.fs = s.fs := hexec
    rw [hfs]
    exact ⟨hj, rfl⟩
  | some c =>
    rw [hcall] at hexec
    obtain ⟨reply, hrun⟩ := hexec
    have hmakes := Activity.makes_of_tfsCall hcall
    have hsession := hc.session_self.symm.trans he
    refine file_of_exec h.wellFormed hrun ?_ ?_ ?_ hj
    · rintro path mode rfl
      refine ⟨hmakes.1, ?_⟩
      by_contra hcreat
      obtain ⟨_, _, rfl, _⟩ := hmakes.2 (Bool.not_eq_false _ ▸ hcreat)
      cases hsession
    · rintro path rfl
      obtain ⟨_, _, rfl, _⟩ := hmakes
      cases hsession
    · rintro fhandle buffer len rfl
      obtain ⟨e', text, rfl, rfl⟩ := hmakes
      have haccesses : s.accesses u = some fhandle := hc.accesses_self
      obtain ⟨h', k, rfl, ho⟩ := h.holding.mem u fhandle (held_of_accesses haccesses)
      exact ⟨h', k, rfl, ho, ha k (inode_of_openOn haccesses ho)⟩

theorem Clear.keepsOff (h : s.Clear) (ht : s.since t = some inodes) : KeepsOff s t inodes := by
  obtain ⟨e, he, hno⟩ := h.missing t inodes ht
  refine ⟨fun k hk => h.apart t inodes k ht hk, ?_, ?_, ?_⟩
  · intro s' hs j hj hfile
    obtain ⟨a, a', hc⟩ := calls_of_step hs
    exact h.files_of_call hc he (fun k hk => h.apart t inodes k ht hk j hj) hfile
  · intro e' he'
    cases he.symm.trans he'
    exact hno
  · intro a role e' hw ho
    have hsession : s.session t = some e' := by
      rw [session, hw]
      exact Activity.session_of_opens ho
    obtain ⟨hcall, hasks⟩ := Activity.call_of_missing ho (h.missing_open ht hsession)
    simp only [CallState.step, hw, hcall, Option.map_some, CallState.reports, hasks]

/-! ### Steps against the condition -/

/-- A session that has outlived its box does so until it ends. -/
theorem since_of_step (hs : s.step l = some s') (ht : s.since t = some inodes)
    (he : s'.session t = some e) : s'.since t = some (inodes ++ takenBy s.fs s'.fs) := by
  obtain ⟨c', _, rfl⟩ := Option.map_eq_some_iff.mp hs
  change (c'.workers t).bind Activity.session = some e at he
  show s.sinceAfter l c' t = _
  simp only [sinceAfter, he, ht]
  rfl

/-- A removal makes the sessions of the box outlive it. -/
theorem since_of_removed {u : Nat} (hs : s.step (.call u) = some s')
    (hu : s.calls.workers u = some (.removing pipe box .unlink))
    (hunlink : s.fs.tfsUnlink (some box.name) = .ok (0, s'.fs)) (he : s'.session t = some e)
    (hname : e.box.name = box.name) : ∃ inodes, s'.since t = some inodes := by
  cases ht : s.since t with
  | some inodes => exact ⟨_, since_of_step hs ht he⟩
  | none =>
    obtain ⟨c', hc, rfl⟩ := Option.map_eq_some_iff.mp hs
    refine ⟨[], ?_⟩
    -- `remove_box` goes on, and frees the slot next
    have hworker : c'.workers u = some (.removing pipe box .freeSlot) := by
      have hunlink' : s.calls.server.fs.tfsUnlink (some box.name) = .ok (0, c'.server.fs) := hunlink
      simp only [CallState.step, hu, Activity.call, removeStep, hunlink', ok_bind] at hc
      rw [← Option.some.inj hc]
      exact Function.update_self _ _ _
    change (c'.workers t).bind Activity.session = some e at he
    show s.sinceAfter (.call u) c' t = _
    simp only [sinceAfter, he, ht, removedBox, hu, hworker, Option.map_some, hname, if_true]

section Call

variable {u : Nat} {s s' : RemovalState}

theorem Calls.runs {c : Tfs.Call} (hc : Calls s u a a' s') (hcall : a.tfsCall = some c) :
    ∃ reply, exec s.fs c = .ok (reply, s'.fs) := by
  have hexec := hc.executes
  rwa [hcall] at hexec

/-- Another session keeps the inode that it writes or reads next. -/
theorem Clear.inode_of_ne (h : s.Clear) (hc : Calls s u a a' s') (ht : t ≠ u)
    (hk : s.inode t = some k) : s'.inode t = some k := by
  obtain ⟨fhandle, ha, ho⟩ := handle_of_inode h.holding hk
  have hopen := hc.openOn h.wellFormed ho (h.not_closes hc ht ha)
  exact inode_of_openOn ((hc.accesses_of_ne ht).trans ha) hopen

/-- A step that creates a file spares the sessions if they keep off the files afterwards. -/
theorem Clear.spares_of_creates (h : s.Clear) (hs : s.step l = some s')
    (hkeeps : ∀ inodes, s'.since t = some inodes → KeepsOff s' t inodes)
    (ht : s.since t = some inodes) (hcreates : s.CreatesFile l box k) :
    (∀ e, s.session t = some e → e.box.name ≠ box.name) ∧ s.inode t ≠ some k := by
  obtain ⟨u, pipe, i, rfl, hu, hv, hcan, halloc⟩ := hcreates
  obtain ⟨a, a', hc⟩ := calls_of_step hs
  cases hu.symm.trans hc.worker
  obtain ⟨reply, hrun⟩ := hc.runs rfl
  obtain ⟨hfile, htaken, j, he⟩ := created_of_exec h.wellFormed hv hcan halloc rfl hrun
  obtain ⟨e, hsession, _⟩ := h.missing t inodes ht
  have htu : t ≠ u := by
    rintro rfl
    cases hc.session_self.symm.trans hsession
  have hk := hkeeps _ (since_of_step hs ht ((hc.session_of_ne htu).trans hsession))
  refine ⟨?_, ?_⟩
  · intro e' he' hname
    apply hk.missing e' ((hc.session_of_ne htu).trans he')
    rw [hname]
    exact ⟨hv, j, k, he⟩
  · intro hinode
    exact (hk.apart k (h.inode_of_ne hc htu hinode) k (List.mem_append_right _ htaken) hfile).1 rfl

/-- A step that gives a file its first block spares the sessions if they keep off the files
afterwards. -/
theorem Clear.spares_of_gives {j b : Nat} (h : s.Clear) (hs : s.step l = some s')
    (hkeeps : ∀ inodes, s'.since t = some inodes → KeepsOff s' t inodes)
    (ht : s.since t = some inodes) (hgives : s.GivesBlock l j b) (hj : j ∈ inodes)
    (hfile : s.fs.IsFile j) (hk : s.inode t = some k) : (s.fs.inodeTable k).iDataBlock ≠ b := by
  obtain ⟨u, e, text, fhandle, rfl, hu, hgives⟩ := hgives
  obtain ⟨a, a', hc⟩ := calls_of_step hs
  cases hu.symm.trans hc.worker
  have hjk := (h.apart t inodes k ht hk j hj hfile).1
  obtain ⟨reply, hrun⟩ := hc.runs rfl
  obtain ⟨⟨r, fs₁⟩, hwrite, hret⟩ := bind_eq_ok.mp hrun
  cases hret
  obtain ⟨hblock, hpos⟩ := hgives.written h.wellFormed hwrite
  obtain ⟨fh, rfl, ho, _⟩ := hgives
  -- the inode of the session is not the one that is written
  have htu : t ≠ u := by
    rintro rfl
    have hinode := inode_of_openOn hc.accesses_self ho
    rw [hk] at hinode
    cases hinode
    exact hjk rfl
  have hsame : (s'.fs.inodeTable k).iDataBlock = (s.fs.inodeTable k).iDataBlock := by
    obtain ⟨hsame, _⟩ | ⟨_, ⟨fh', heq, ho', _⟩, _⟩ := h.wellFormed.inode_of_write hwrite k
    · exact hsame
    · obtain rfl := Int.natCast_inj.mp heq
      exact absurd (ho.inode_unique ho') hjk
  obtain ⟨e', hsession, _⟩ := h.missing t inodes ht
  have hkeep := hkeeps _ (since_of_step hs ht ((hc.session_of_ne htu).trans hsession))
  have hfile' : s'.fs.IsFile j := (h.wellFormed.tfsWrite hwrite).isFile_iff.mpr hfile
  have hapart := hkeep.apart k (h.inode_of_ne hc htu hk) j (List.mem_append_left _ hj) hfile'
  have hne := hapart.2 hpos
  rw [hblock, hsame] at hne
  exact hne.symm

end Call

/-- The condition is exact: a step leads to a state in which every session that has outlived its
box keeps off what was created since, if and only if it meets the condition. -/
theorem Clear.keepsOff_iff (h : s.Clear) (hs : s.step l = some s') :
    (∀ t inodes, s'.since t = some inodes → KeepsOff s' t inodes) ↔ SparesOutlived s l := by
  constructor
  · intro hkeeps t _ inodes ht
    exact ⟨fun box k hcreates => h.spares_of_creates hs (hkeeps t) ht hcreates,
      fun j b hgives hj hfile k hk => h.spares_of_gives hs (hkeeps t) ht hgives hj hfile hk⟩
  · intro hok t inodes ht
    exact (h.step hs hok).keepsOff ht

end RemovalState

/-- From a new broker with any number of workers, in every run call by call whose steps spare the
sessions that have outlived their box: a `tfs_unlink` of `remove_box` that succeeds makes all
sessions attached to the box outlive it, they do so until they end, and they keep off every file
created since; and a further step keeps it so if and only if it spares them, too. -/
theorem keepsOff_of_reaches {fs₀ : Fs} {malloc : Malloc} {maxSessions : Nat} {s : RemovalState}
    (hinit : initServer fs₀ malloc maxSessions = .ok (0, srv))
    (hr : Reaches RemovalState.step SparesOutlived (.initial srv) s) :
    (∀ u pipe box s', s.calls.workers u = some (.removing pipe box .unlink) →
      s.step (.call u) = some s' → s.fs.tfsUnlink (some box.name) = .ok (0, s'.fs) →
        ∀ t e, s'.session t = some e → e.box.name = box.name →
          ∃ inodes, s'.since t = some inodes) ∧
    (∀ l s' t inodes e, s.step l = some s' → s.since t = some inodes → s'.session t = some e →
      s'.since t = some (inodes ++ takenBy s.fs s'.fs)) ∧
    (∀ t inodes, s.since t = some inodes → KeepsOff s t inodes) ∧
    ∀ l s', s.step l = some s' →
      ((∀ t inodes, s'.since t = some inodes → KeepsOff s' t inodes) ↔ SparesOutlived s l) := by
  have h : s.Clear := by
    apply hr.invariant (clear_initial hinit)
    intro u l v hu hok hs
    exact hu.step hs hok
  refine ⟨?_, ?_, ?_, ?_⟩
  · intro u pipe box s' hu hs hunlink t e he hname
    exact since_of_removed hs hu hunlink he hname
  · intro l s' t inodes e hs ht he
    exact since_of_step hs ht he
  · exact fun t inodes ht => h.keepsOff ht
  · exact fun l s' hs => h.keepsOff_iff hs

/-! ### Runs of two workers -/

/-- The condition, in a form that can be computed. -/
def calm (s : RemovalState) : CallLabel → Bool
  | .call u =>
    match s.calls.workers u with
    | some (.creating _ box .create) => decide (∀ t < s.calls.server.maxSessions,
        s.since t = none ∨ (s.session t).map (fun e => e.box.name) ≠ some box.name ∧
          s.inode t = none)
    | some (.publishing _ _ (.write _)) => decide (∀ t < s.calls.server.maxSessions,
        s.since t = none ∨ s.since t = some [])
    | _ => true
  | _ => true

theorem spares_of_calm {s : RemovalState} {l : CallLabel} (h : calm s l = true) :
    SparesOutlived s l := by
  intro t hlt inodes ht
  refine ⟨?_, ?_⟩
  · rintro box k ⟨u, pipe, i, rfl, hu, _⟩
    simp only [calm, hu, decide_eq_true_eq] at h
    obtain hnone | ⟨hname, hinode⟩ := h t hlt
    · cases hnone.symm.trans ht
    · refine ⟨?_, by rw [hinode]; nofun⟩
      rintro e he heq
      rw [he, Option.map_some, heq] at hname
      exact hname rfl
  · rintro j b ⟨u, e, text, fhandle, rfl, hu, _⟩ hj
    simp only [calm, hu, decide_eq_true_eq] at h
    obtain hnone | hempty := h t hlt
    · cases hnone.symm.trans ht
    · cases hempty.symm.trans ht
      cases hj

/-- Worker 0 creates box A, and a publisher of it is attached. -/
def attachA : List CallLabel :=
  .request 0 (.create pipeM boxA) :: List.replicate 4 (.call 0) ++
    .register 0 .publisher boxA :: List.replicate 3 (.call 0) ++ [.link 0, .attach 0 true]

/-- The publisher opens the file for its second message, the box is removed by worker 1, the
message is written, another box is created, and the third message comes. -/
def removeBetween : List CallLabel :=
  attachA ++ .message 0 shortText :: List.replicate 3 (.call 0) ++ [.message 0 shortText, .call 0] ++
    .request 1 (.remove pipeM boxA) :: List.replicate 4 (.call 1) ++ [.call 0, .call 0] ++
    .request 1 (.create pipeM boxB) :: List.replicate 4 (.call 1) ++ [.message 0 shortText]

/-- The box is removed and created again before the first message. -/
def createAgain : List CallLabel :=
  attachA ++ .request 1 (.remove pipeM boxA) :: List.replicate 4 (.call 1) ++
    .request 1 (.create pipeM boxA) :: List.replicate 4 (.call 1) ++ [.message 0 shortText]

/-- Another box is created between the `tfs_open` and the `tfs_write` of the message. -/
def createBetween : List CallLabel :=
  attachA ++ [.message 0 shortText, .call 0] ++
    .request 1 (.remove pipeM boxA) :: List.replicate 4 (.call 1) ++
    .request 1 (.create pipeM boxB) :: List.replicate 4 (.call 1) ++ [.call 0]

theorem run_removeBetween :
    (runLabels (guarded RemovalState.step (calm · · = true)) (.initial (startedServer 2))
      removeBetween).map (fun s => (s.since 0, (s.calls.workers 0).bind Activity.opens,
        s.fs.freeinodeTs 1)) =
      some (some [1], some (.publisher, ⟨boxA, 0⟩), .taken) := by
  decide +kernel

theorem removeBetween_keepsOff :
    ∃ srv s, initServer uninitialized (.granted zeroHeap) 2 = .ok (0, srv) ∧
      Reaches RemovalState.step SparesOutlived (.initial srv) s ∧ s.since 0 = some [1] ∧
      (s.calls.workers 0).bind Activity.opens = some (.publisher, ⟨boxA, 0⟩) ∧
      s.fs.freeinodeTs 1 = .taken ∧ KeepsOff s 0 [1] := by
  obtain ⟨s, hs, hrun⟩ := Option.map_eq_some_iff.mp run_removeBetween
  simp only [Prod.mk.injEq] at hrun
  obtain ⟨hsince, hopens, hfile⟩ := hrun
  have hr := (reaches_of_guarded hs).mono fun _ _ => spares_of_calm
  exact ⟨_, s, initServer_started 2, hr, hsince, hopens, hfile,
    (keepsOff_of_reaches (initServer_started 2) hr).2.2.1 0 [1] hsince⟩

theorem run_createAgain :
    (runLabels RemovalState.step (.initial (startedServer 2)) createAgain).bind (fun s =>
      (runLabels RemovalState.step s [.call 0, .call 0]).map fun s' =>
        (s.since 0, (s.calls.workers 0).bind Activity.opens, s.fs.fileOf 1, s'.fs.fileOf 1)) =
      some (some [1], some (.publisher, ⟨boxA, 0⟩), [], [104, 0]) := by
  decide +kernel

/-- A message that a publisher sends after the removal of its box stands in the new one. -/
theorem createAgain_not_keepsOff :
    ∃ srv s s', initServer uninitialized (.granted zeroHeap) 2 = .ok (0, srv) ∧
      runLabels RemovalState.step (.initial srv) createAgain = some s ∧ s.since 0 = some [1] ∧
      runLabels RemovalState.step s [.call 0, .call 0] = some s' ∧
      s.fs.fileOf 1 = [] ∧ s'.fs.fileOf 1 = [104, 0] ∧ ¬ KeepsOff s 0 [1] := by
  obtain ⟨s, hs, hwrite⟩ := Option.bind_eq_some_iff.mp run_createAgain
  obtain ⟨s', hs', hrun⟩ := Option.map_eq_some_iff.mp hwrite
  simp only [Prod.mk.injEq] at hrun
  obtain ⟨hsince, hopens, hempty, hstored⟩ := hrun
  refine ⟨_, s, s', initServer_started 2, hs, hsince, hs', hempty, hstored, fun hkeeps => ?_⟩
  obtain ⟨a, hw, ha⟩ := Option.bind_eq_some_iff.mp hopens
  have hends := hkeeps.ends a .publisher ⟨boxA, 0⟩ hw ha
  -- the session would have ended before its second call
  obtain ⟨s₁, hs₁, hs₂⟩ := Option.bind_eq_some_iff.mp hs'
  obtain ⟨s₂, hcall, _⟩ := Option.bind_eq_some_iff.mp hs₂
  obtain ⟨b, b', hc⟩ := RemovalState.calls_of_step hcall
  obtain ⟨c₁, hc₁, rfl⟩ := Option.map_eq_some_iff.mp hs₁
  rw [hends] at hc₁
  cases hc₁
  have hended : Function.update s.calls.workers 0 none 0 = some b := hc.worker
  rw [Function.update_self] at hended
  cases hended

/-- A publisher that was at its `tfs_write` writes to a box of another name. -/
example : (runLabels RemovalState.step (.initial (startedServer 2)) createBetween).map (fun s =>
    (s.since 0, s.fs.fileOf 1)) = some (some [1], [104, 0]) := by
  decide +kernel

end MessageBroker.Broker
