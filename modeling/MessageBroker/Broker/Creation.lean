import MessageBroker.Broker.Calls
import MessageBroker.Lib.Ownership

/-!
# Competing creations

Several `create_box` requests for one box, call by call. The test for the box and the
creation of its file are two calls of `tfs_open`, and the slot is taken by a scan of its
own. Two requests that both pass the test are both answered with code `0`, and the name
then stands in two slots.
-/

namespace MessageBroker.Broker

open Bytes Table Transition Ownership Tfs Tfs.Fs

/-- Requests for one box in progress. -/
structure Creations (n : Nat) where
  server : Server
  tasks : Fin n → Progress CreateStep Answer

variable {n : Nat}

namespace Creations

/-- No request has taken a step. -/
def start (srv : Server) (n : Nat) : Creations n := ⟨srv, fun _ => .next .test⟩

/-- Request `i` takes its next step. -/
def step (pipes : Fin n → PipePath) (box : BoxName) (c : Creations n) (i : Fin n) :
    Option (Creations n) :=
  match c.tasks i with
  | .done _ => none
  | .next s =>
    match createStep (pipes i) box c.server s with
    | .error _ => none
    | .ok (p, srv) => some ⟨srv, Function.update c.tasks i p⟩

/-- Every request has been answered. -/
def Finished (c : Creations n) : Prop := ∀ i, ∃ answer, c.tasks i = .done answer

end Creations

/-- A box can be created: no file and no slot has its name, and there is room for both. -/
structure Vacant (srv : Server) (box : BoxName) : Prop where
  wellFormed : srv.fs.WellFormed
  valid : validPathname (some box.name) = true
  room : ∃ k i, srv.fs.CanCreate k i box.name.tail
  unlisted : ∀ i < srv.maxSessions, srv.names i ≠ box.name
  slot : ∃ i, srv.findBox .empty = some i
  count : srv.nBoxes ≠ srv.maxSessions

/-- No request tests for the box while another stands between its test and its creation of the
file, and a call that opens the file finds an entry of the open file table. -/
def Spaced (box : BoxName) (c : Creations n) (i : Fin n) : Prop :=
  match c.tasks i with
  | .next .test => (∀ j, c.tasks j ≠ .next .create) ∧
      (HasPath c.server.fs box.name → HandleFree c.server.fs)
  | .next .create => HandleFree c.server.fs
  | _ => True

def accepted (pipe : PipePath) : Answer := ⟨0, [⟨pipe.name, opCodeBoxCreateR, 0, ""⟩]⟩

def alreadyExists (pipe : PipePath) : Answer :=
  ⟨-1, [⟨pipe.name, opCodeBoxCreateR, -1, "create_box: Box already exist"⟩]⟩

/-- One request was answered with code `0`, every other one with `-1`, and the box has one slot. -/
structure OneWinner (pipes : Fin n → PipePath) (box : BoxName) (srv : Server) (c : Creations n) :
    Prop where
  winner : ∃! i, c.tasks i = .done (accepted (pipes i))
  others : ∀ i, c.tasks i = .done (accepted (pipes i)) ∨
    c.tasks i = .done (alreadyExists (pipes i))
  slot : ∃! s, s < c.server.maxSessions ∧ c.server.names s = box.name
  count : c.server.nBoxes = srv.nBoxes + 1

variable {pipes : Fin n → PipePath} {box : BoxName} {srv srv' : Server} {c c' : Creations n}
  {i j w : Fin n} {fs : Fs} {p : Progress CreateStep Answer} {s : CreateStep}
  {tasks : Fin n → Progress CreateStep Answer}

theorem creations_step_eq_some : Creations.step pipes box c i = some c' ↔
    ∃ s p srv, c.tasks i = .next s ∧ createStep (pipes i) box c.server s = .ok (p, srv) ∧
      c' = ⟨srv, Function.update c.tasks i p⟩ := by
  unfold Creations.step
  cases hi : c.tasks i with
  | done answer => simp
  | next s =>
    simp only
    cases hs : createStep (pipes i) box c.server s with
    | error e =>
      simp only [reduceCtorEq, false_iff]
      rintro ⟨s', p, srv, ⟨⟩, hs', _⟩
      rw [hs] at hs'
      cases hs'
    | ok r =>
      simp only
      constructor
      · rintro ⟨⟩
        exact ⟨s, r.1, r.2, rfl, hs, rfl⟩
      · rintro ⟨s', p, srv, ⟨⟩, hs', rfl⟩
        rw [hs] at hs'
        cases hs'
        rfl

/-! ### The handles of the requests -/

/-- The handle that a request holds between two steps. -/
def held (p : Progress CreateStep Answer) : Option Int := p.held CreateStep.held

/-- The requests hold different entries of the open file table. -/
structure Holds (fs : Fs) (tasks : Fin n → Progress CreateStep Answer) : Prop where
  opened : ∀ i fhandle, held (tasks i) = some fhandle → ∃ h k : Nat, fhandle = h ∧ fs.OpenOn h k
  inj : ∀ i j fhandle, held (tasks i) = some fhandle → held (tasks j) = some fhandle → i = j

theorem holds_iff : Holds fs tasks ↔ Holders fs.openHandles fun i => held (tasks i) :=
  ⟨fun h => ⟨h.opened, h.inj⟩, fun h => ⟨h.mem, h.sole⟩⟩

theorem Holds.congr (hh : Holds fs tasks) {fs' : Fs} (hp : fs'.fsParams = fs.fsParams)
    (ht : fs'.freeOpenFileEntries = fs.freeOpenFileEntries)
    (ho : fs'.openFileTable = fs.openFileTable) : Holds fs' tasks := by
  rw [holds_iff, openHandles_of_same hp ht ho]
  exact holds_iff.mp hh

theorem Holds.update {fs' : Fs} (hh : Holds fs tasks)
    (hp : Passes fs.openHandles fs'.openHandles (held (tasks i)) (held p)) :
    Holds fs' (Function.update tasks i p) := by
  have hheld : (fun j => held (Function.update tasks i p j)) =
      Function.update (fun j => held (tasks j)) i (held p) := by
    funext j
    exact Function.apply_update (fun _ => held) tasks i p j
  rw [holds_iff, hheld]
  exact (holds_iff.mp hh).update hp

/-- A request that holds no handle before and after its step. -/
theorem Holds.pass (hh : Holds fs tasks) (hi : held (tasks i) = none) (hp : held p = none) :
    Holds fs (Function.update tasks i p) := by
  apply hh.update
  rw [hi, hp]
  exact .keep none rfl

/-- A request takes a free entry. -/
theorem Holds.take (hh : Holds fs tasks) {h k offset : Nat} (hlt : h < fs.maxOpenFiles)
    (hfree : fs.freeOpenFileEntries h = .free) (hi : held (tasks i) = none)
    (hp : held p = some (h : Int)) :
    Holds (fs.opened h k offset) (Function.update tasks i p) := by
  apply hh.update
  rw [hi, hp]
  exact .take (h : Int) (not_mem_openHandles hfree) (openHandles_opened hlt)

/-- A request gives its entry back. -/
theorem Holds.release (hh : Holds fs tasks) {h : Nat} (hi : held (tasks i) = some (h : Int))
    (hp : held p = none) : Holds (fs.closed h) (Function.update tasks i p) := by
  apply hh.update
  rw [hi, hp]
  exact .release (h : Int) openHandles_closed

/-! ### The slot -/

theorem takeSlot_setFs (srv : Server) (fs : Fs) (name : CString) :
    (srv.setFs fs).takeSlot name = (srv.takeSlot name).setFs fs := by
  simp only [Server.takeSlot, Server.setFs_findBox]
  split <;> rfl

/-- The box gets a free slot and has no other one. -/
theorem Vacant.takeSlot (hv : Vacant srv box) :
    (∃! s, s < (srv.takeSlot box.name).maxSessions ∧ (srv.takeSlot box.name).names s = box.name) ∧
      (srv.takeSlot box.name).nBoxes = srv.nBoxes + 1 := by
  obtain ⟨slot, hf⟩ := hv.slot
  obtain ⟨hlt, _⟩ := Server.findBox_eq_some hf
  have hnames : (srv.takeSlot box.name).names = Function.update srv.names slot box.name := by
    rw [← names_setBox]
    simp only [Server.takeSlot, hf]
    rfl
  have hmax : (srv.takeSlot box.name).maxSessions = srv.maxSessions := by
    simp only [Server.takeSlot, hf]
    rfl
  have hcount : (srv.takeSlot box.name).nBoxes = srv.nBoxes + 1 := by
    simp only [Server.takeSlot, hf]
  refine ⟨⟨slot, ?_, ?_⟩, hcount⟩
  · simp only [hnames, hmax, Function.update_self]
    exact ⟨hlt, trivial⟩
  · rintro s ⟨hs, hname⟩
    rw [hmax] at hs
    by_contra hne
    rw [hnames, Function.update_of_ne hne] at hname
    exact hv.unlisted s hs hname

/-! ### The steps of a request -/

variable {pipe : PipePath}

theorem createStep_missing (wf : srv.fs.WellFormed) (hp : ¬ HasPath srv.fs box.name) :
    createStep pipe box srv .test = .ok (.next .create, srv) := by
  have hopen := open_missing wf hp { append := true } rfl
  simp only [createStep, hopen, ok_bind]
  rfl

theorem createStep_found (pipe : PipePath) (wf : srv.fs.WellFormed) (hp : HasPath srv.fs box.name)
    (hfree : HandleFree srv.fs) :
    ∃ h k offset : Nat, createStep pipe box srv .test =
        .ok (.next (.closeExisting h), srv.setFs (srv.fs.opened h k offset)) ∧
      h < srv.fs.maxOpenFiles ∧ srv.fs.freeOpenFileEntries h = .free ∧ srv.fs.IsFile k := by
  obtain ⟨h, k, offset, hopen, hnew⟩ := open_found wf hp hfree { append := true } rfl
  refine ⟨h, k, offset, ?_, hnew⟩
  have hle : (0 : Int) ≤ h := Int.natCast_nonneg h
  simp only [createStep, hopen, ok_bind, if_pos hle]

theorem createStep_closeExisting {h k : Nat} (wf : srv.fs.WellFormed) (ho : srv.fs.OpenOn h k) :
    createStep pipe box srv (.closeExisting h) =
      .ok (.done (alreadyExists pipe), srv.setFs (srv.fs.closed h)) := by
  simp only [createStep, close_opened wf ho, ok_bind]
  rfl

theorem createStep_create (pipe : PipePath) (wf : srv.fs.WellFormed)
    (hv : validPathname (some box.name) = true)
    (hroom : ∃ k i, srv.fs.CanCreate k i box.name.tail) (hfree : HandleFree srv.fs) :
    ∃ h k i : Nat, createStep pipe box srv .create = .ok (.next (.close h),
        srv.setFs ((srv.fs.createdFile k i box.name.tail).opened h k 0)) ∧
      srv.fs.CanCreate k i box.name.tail ∧ h < srv.fs.maxOpenFiles ∧
      srv.fs.freeOpenFileEntries h = .free := by
  obtain ⟨h, k, i, hopen, hnew⟩ := open_created wf hv hroom hfree
  refine ⟨h, k, i, ?_, hnew⟩
  -- the new handle is not negative
  have hle : ¬ (h : Int) < 0 := not_lt.mpr (Int.natCast_nonneg h)
  simp only [createStep, hopen, ok_bind, if_neg hle]

theorem createStep_close {h k : Nat} (wf : srv.fs.WellFormed) (ho : srv.fs.OpenOn h k) :
    createStep pipe box srv (.close h) = .ok (.next .takeSlot, srv.setFs (srv.fs.closed h)) := by
  simp only [createStep, close_opened wf ho, ok_bind]
  rfl

theorem createStep_takeSlot (hne : srv.nBoxes ≠ srv.maxSessions) :
    createStep pipe box srv .takeSlot = .ok (.done (accepted pipe), srv.takeSlot box.name) :=
  if_neg hne

/-- Every step brings a request closer to its answer. -/
def stepsLeft : Progress CreateStep Answer → Nat
  | .next .test => 4
  | .next .create => 3
  | .next (.close _) => 2
  | .next (.closeExisting _) => 1
  | .next .takeSlot => 1
  | .done _ => 0

theorem stepsLeft_lt (h : createStep pipe box srv s = .ok (p, srv')) :
    stepsLeft p < stepsLeft (.next s) := by
  cases s with
  | test =>
    obtain ⟨⟨fhandle, fs⟩, _, h⟩ := bind_eq_ok.mp h
    cases h
    by_cases hle : 0 ≤ fhandle
    · simp only [hle, if_true, stepsLeft]
      omega
    · simp only [hle, if_false, stepsLeft]
      omega
  | closeExisting fhandle =>
    obtain ⟨_, _, h⟩ := bind_eq_ok.mp h
    cases h
    exact Nat.one_pos
  | create =>
    obtain ⟨⟨fhandle, fs⟩, _, h⟩ := bind_eq_ok.mp h
    by_cases hneg : fhandle < 0
    · simp only [hneg, if_true] at h
      cases h
      exact Nat.succ_pos 2
    · simp only [hneg, if_false] at h
      cases h
      exact Nat.lt_succ_self 2
  | close fhandle =>
    obtain ⟨⟨closed, fs⟩, _, h⟩ := bind_eq_ok.mp h
    rcases eq_or_ne closed 0 with rfl | hclosed
    · cases h
      exact Nat.lt_succ_self 1
    · simp only [hclosed, ne_eq, not_false_eq_true, if_true] at h
      cases h
      exact Nat.two_pos
  | takeSlot =>
    by_cases hfull : srv.nBoxes = srv.maxSessions
    · simp only [createStep, hfull, if_true] at h
      cases h
      exact Nat.one_pos
    · simp only [createStep, hfull, if_false] at h
      cases h
      exact Nat.one_pos

/-! ### Before and after the creation of the file -/

/-- No request has created the file. -/
structure Before (box : BoxName) (srv : Server) (c : Creations n) : Prop where
  server : c.server = srv.setFs c.server.fs
  room : ∃ k i, c.server.fs.CanCreate k i box.name.tail
  tasks : ∀ i, c.tasks i = .next .test ∨ c.tasks i = .next .create
  one : ∀ i j, c.tasks i = .next .create → c.tasks j = .next .create → i = j

/-- How far the request is that has created the file, and the box table then. -/
inductive Winning (pipe : PipePath) (box : BoxName) (srv : Server) :
    Progress CreateStep Answer → Server → Prop
  | closes (fhandle : Int) (fs : Fs) : Winning pipe box srv (.next (.close fhandle)) (srv.setFs fs)
  | scans (fs : Fs) : Winning pipe box srv (.next .takeSlot) (srv.setFs fs)
  | answered (fs : Fs) :
      Winning pipe box srv (.done (accepted pipe)) ((srv.takeSlot box.name).setFs fs)

/-- How far a request is that can only be refused. -/
inductive Losing (pipe : PipePath) : Progress CreateStep Answer → Prop
  | tests : Losing pipe (.next .test)
  | closes (fhandle : Int) : Losing pipe (.next (.closeExisting fhandle))
  | answered : Losing pipe (.done (alreadyExists pipe))

/-- Request `w` has created the file. -/
structure After (pipes : Fin n → PipePath) (box : BoxName) (srv : Server) (w : Fin n)
    (c : Creations n) : Prop where
  found : HasPath c.server.fs box.name
  winner : Winning (pipes w) box srv (c.tasks w) c.server
  others : ∀ i, i ≠ w → Losing (pipes i) (c.tasks i)

structure Creations.Inv (pipes : Fin n → PipePath) (box : BoxName) (srv : Server)
    (c : Creations n) : Prop where
  wellFormed : c.server.fs.WellFormed
  holds : Holds c.server.fs c.tasks
  phase : Before box srv c ∨ ∃ w, After pipes box srv w c

theorem Before.missing (hb : Before box srv c) : ¬ HasPath c.server.fs box.name := by
  obtain ⟨k, i, hcan⟩ := hb.room
  rintro ⟨_, j, k', he⟩
  exact hcan.absent he

theorem Winning.setFs (hw : Winning pipe box srv p srv') (fs : Fs) :
    Winning pipe box srv p (srv'.setFs fs) := by
  cases hw with
  | closes fhandle _ => exact .closes fhandle fs
  | scans _ => exact .scans fs
  | answered _ => exact .answered fs

/-- A step of a request that can only be refused. -/
theorem After.move (ha : After pipes box srv w c) (hi : i ≠ w) (hp : Losing (pipes i) p)
    (hfound : HasPath fs box.name) :
    After pipes box srv w ⟨c.server.setFs fs, Function.update c.tasks i p⟩ where
  found := hfound
  winner := by
    simp only [Function.update_of_ne (Ne.symm hi)]
    exact ha.winner.setFs fs
  others := by
    intro j hj
    by_cases hij : j = i
    · subst hij
      simp only [Function.update_self]
      exact hp
    · simp only [Function.update_of_ne hij]
      exact ha.others j hj

/-- A step of the request that has created the file. -/
theorem After.advance (ha : After pipes box srv w c) (hw : Winning (pipes w) box srv p srv')
    (hfound : HasPath srv'.fs box.name) :
    After pipes box srv w ⟨srv', Function.update c.tasks w p⟩ where
  found := hfound
  winner := by
    simp only [Function.update_self]
    exact hw
  others := by
    intro j hj
    simp only [Function.update_of_ne hj]
    exact ha.others j hj

theorem step_of_createStep (hi : c.tasks i = .next s)
    (h : createStep (pipes i) box c.server s = .ok (p, srv')) :
    Creations.step pipes box c i = some ⟨srv', Function.update c.tasks i p⟩ :=
  creations_step_eq_some.mpr ⟨s, _, _, hi, h, rfl⟩

/-- Before the file is created its test fails; no other request has passed it. -/
theorem Creations.Inv.test (hinv : Creations.Inv pipes box srv c) (hb : Before box srv c)
    (hi : c.tasks i = .next .test) (halone : ∀ j, c.tasks j ≠ .next .create) :
    ∃ c', Creations.step pipes box c i = some c' ∧ Creations.Inv pipes box srv c' := by
  have hmissing : createStep (pipes i) box c.server .test = .ok (.next .create, c.server) :=
    createStep_missing hinv.wellFormed hb.missing
  have heq := step_of_createStep hi hmissing
  refine ⟨_, heq, hinv.wellFormed, hinv.holds.pass (by rw [hi]; rfl) rfl,
    Or.inl ⟨hb.server, hb.room, ?_, ?_⟩⟩
  · intro j
    by_cases hji : j = i
    · subst hji
      exact Or.inr (Function.update_self _ _ _)
    · simp only [Function.update_of_ne hji]
      exact hb.tasks j
  · have hself : ∀ j, Function.update c.tasks i (.next .create) j = .next .create → j = i := by
      intro j hj
      obtain ⟨hji, _⟩ | ⟨_, hold⟩ := update_apply_eq_iff.mp hj
      · exact hji
      · exact absurd hold (halone j)
    exact fun j j' hj hj' => (hself j hj).trans (hself j' hj').symm

/-- The file is created, and every other request is still to test for it. -/
theorem Creations.Inv.create (hinv : Creations.Inv pipes box srv c) (hb : Before box srv c)
    (hv : validPathname (some box.name) = true) (hi : c.tasks i = .next .create)
    (hentry : HandleFree c.server.fs) :
    ∃ c', Creations.step pipes box c i = some c' ∧ Creations.Inv pipes box srv c' := by
  have wf := hinv.wellFormed
  obtain ⟨h, k, e, heq, hcan, hlt, hfree⟩ := createStep_create (pipes i) wf hv hb.room hentry
  have hfound : HasPath (c.server.fs.createdFile k e box.name.tail) box.name :=
    ⟨hv, e, k, hcan.entryAt_self wf.geometry⟩
  have hfile := (hcan.isFile_iff wf.root).mpr (Or.inl rfl)
  have hholds : Holds (c.server.fs.createdFile k e box.name.tail) c.tasks :=
    hinv.holds.congr rfl rfl rfl
  refine ⟨_, step_of_createStep hi heq, (wf.createdFile hcan).opened hfile,
    hholds.take hlt hfree (by rw [hi]; rfl) rfl, Or.inr ⟨i, hasPath_opened.mpr hfound, ?_, ?_⟩⟩
  · simp only [Function.update_self]
    rw [hb.server]
    exact .closes h _
  · intro j hj
    simp only [Function.update_of_ne hj]
    rcases hb.tasks j with htest | hcreate
    · rw [htest]
      exact .tests
    · exact absurd (hb.one j i hcreate hi) hj

/-- The request that has created the file goes on to its answer. -/
theorem Creations.Inv.win (hinv : Creations.Inv pipes box srv c) (hv : Vacant srv box)
    (ha : After pipes box srv i c) (hi : c.tasks i = .next s) :
    ∃ c', Creations.step pipes box c i = some c' ∧ Creations.Inv pipes box srv c' := by
  have wf := hinv.wellFormed
  have hw := ha.winner
  rw [hi] at hw
  generalize hsrv : c.server = srv₁ at hw
  cases hw with
  | closes fhandle fs =>
    obtain ⟨h, k, rfl, ho⟩ := hinv.holds.opened i fhandle (by rw [hi]; rfl)
    refine ⟨_, step_of_createStep hi (createStep_close wf ho), wf.closed,
      hinv.holds.release (by rw [hi]; rfl) rfl, Or.inr ⟨i, ?_⟩⟩
    refine ha.advance ?_ (hasPath_closed.mpr ha.found)
    rw [hsrv]
    exact .scans _
  | scans fs =>
    have hne : c.server.nBoxes ≠ c.server.maxSessions := by
      rw [hsrv]
      exact hv.count
    refine ⟨_, step_of_createStep hi (createStep_takeSlot hne), ?_, ?_, Or.inr ⟨i, ?_⟩⟩
    · rwa [takeSlot_fs]
    · rw [takeSlot_fs]
      exact hinv.holds.pass (by rw [hi]; rfl) rfl
    · refine ha.advance ?_ (by rw [takeSlot_fs]; exact ha.found)
      rw [hsrv, takeSlot_setFs]
      exact .answered fs

/-- Every other request finds the file and is refused. -/
theorem Creations.Inv.lose (hinv : Creations.Inv pipes box srv c) (ha : After pipes box srv w c)
    (hiw : i ≠ w) (hi : c.tasks i = .next s) (hentry : s = .test → HandleFree c.server.fs) :
    ∃ c', Creations.step pipes box c i = some c' ∧ Creations.Inv pipes box srv c' := by
  have wf := hinv.wellFormed
  have hl := ha.others i hiw
  rw [hi] at hl
  cases hl with
  | tests =>
    obtain ⟨h, k, offset, heq, hlt, hfree, hfile⟩ :=
      createStep_found (pipes i) wf ha.found (hentry rfl)
    exact ⟨_, step_of_createStep hi heq, wf.opened hfile,
      hinv.holds.take hlt hfree (by rw [hi]; rfl) rfl,
      Or.inr ⟨w, ha.move hiw (.closes h) (hasPath_opened.mpr ha.found)⟩⟩
  | closes fhandle =>
    obtain ⟨h, k, rfl, ho⟩ := hinv.holds.opened i fhandle (by rw [hi]; rfl)
    exact ⟨_, step_of_createStep hi (createStep_closeExisting wf ho), wf.closed,
      hinv.holds.release (by rw [hi]; rfl) rfl,
      Or.inr ⟨w, ha.move hiw .answered (hasPath_closed.mpr ha.found)⟩⟩

/-- A request of an admitted run takes its step. -/
theorem Creations.Inv.step (hinv : Creations.Inv pipes box srv c) (hv : Vacant srv box)
    (hi : c.tasks i = .next s) (hok : Spaced box c i) :
    ∃ c', Creations.step pipes box c i = some c' ∧ Creations.Inv pipes box srv c' := by
  simp only [Spaced, hi] at hok
  rcases hinv.phase with hb | ⟨w, ha⟩
  · rcases hb.tasks i with htest | hcreate
    · obtain rfl : s = .test := by
        rw [hi] at htest
        cases htest
        rfl
      exact hinv.test hb hi hok.1
    · obtain rfl : s = .create := by
        rw [hi] at hcreate
        cases hcreate
        rfl
      exact hinv.create hb hv.valid hi hok
  · by_cases hiw : i = w
    · subst hiw
      exact hinv.win hv ha hi
    · apply hinv.lose ha hiw hi
      rintro rfl
      exact hok.2 ha.found

theorem inv_start (hv : Vacant srv box) :
    Creations.Inv pipes box srv (Creations.start srv n) where
  wellFormed := hv.wellFormed
  holds := {
    opened := by
      intro i fhandle h
      cases h
    inj := by
      intro i j fhandle h
      cases h }
  phase := by
    refine Or.inl ⟨rfl, hv.room, fun _ => Or.inl rfl, ?_⟩
    intro i j h
    cases h

theorem creations_inv_of_reaches (hv : Vacant srv box)
    (hr : Reaches (Creations.step pipes box) (Spaced box) (Creations.start srv n) c) :
    Creations.Inv pipes box srv c := by
  apply hr.invariant (inv_start hv)
  intro c i c' hinv hok hs
  obtain ⟨s, _, _, hi, _⟩ := creations_step_eq_some.mp hs
  obtain ⟨c'', hs', hinv'⟩ := hinv.step hv hi hok
  rw [hs] at hs'
  cases hs'
  exact hinv'

/-! ### One winner -/

theorem accepted_ne_alreadyExists : accepted pipe ≠ alreadyExists pipe := by
  intro h
  cases congrArg Answer.ret h

/-- A finished run has one winner. -/
theorem Creations.Inv.oneWinner (hinv : Creations.Inv pipes box srv c) (hv : Vacant srv box)
    (hn : 0 < n) (hdone : c.Finished) : OneWinner pipes box srv c := by
  rcases hinv.phase with hb | ⟨w, ha⟩
  · obtain ⟨answer, h⟩ := hdone ⟨0, hn⟩
    rcases hb.tasks ⟨0, hn⟩ with h' | h'
    · rw [h] at h'
      cases h'
    · rw [h] at h'
      cases h'
  have hlost : ∀ i, i ≠ w → c.tasks i = .done (alreadyExists (pipes i)) := by
    intro i hi
    obtain ⟨answer, hd⟩ := hdone i
    have hl := ha.others i hi
    rw [hd] at hl
    cases hl with
    | answered => exact hd
  obtain ⟨answer, hd⟩ := hdone w
  have hw := ha.winner
  rw [hd] at hw
  generalize hsrv : c.server = srv₁ at hw
  cases hw with
  | answered fs =>
    obtain ⟨hslot, hcount⟩ := hv.takeSlot
    refine ⟨⟨w, hd, ?_⟩, ?_, ?_, ?_⟩
    · intro i hi
      by_contra hne
      rw [hlost i hne, Progress.done.injEq] at hi
      exact accepted_ne_alreadyExists hi.symm
    · intro i
      by_cases hi : i = w
      · subst hi
        exact Or.inl hd
      · exact Or.inr (hlost i hi)
    · rw [hsrv]
      exact hslot
    · rw [hsrv]
      exact hcount

/-- The steps that the requests are still to take, at most. -/
def Creations.remaining (c : Creations n) : Nat := ∑ i, stepsLeft (c.tasks i)

theorem remaining_lt (hs : Creations.step pipes box c i = some c') :
    c'.remaining < c.remaining := by
  obtain ⟨s, p, srv, hi, hstep, rfl⟩ := creations_step_eq_some.mp hs
  refine Finset.sum_lt_sum ?_ ⟨i, Finset.mem_univ i, ?_⟩
  · intro j _
    by_cases hj : j = i
    · subst hj
      simp only [Function.update_self, hi]
      exact (stepsLeft_lt hstep).le
    · simp only [Function.update_of_ne hj, le_refl]
  · simp only [Function.update_self, hi]
    exact stepsLeft_lt hstep

/-- In a run of requests for a box that can be created in which no request tests for the box while
another stands between its test and its creation of the file, and in which no call that opens the
file finds the open file table full, every request can take its next step, each step brings the
run closer to its end, and a run that has ended has one winner. -/
theorem oneWinner_of_reaches (hv : Vacant srv box)
    (hr : Reaches (Creations.step pipes box) (Spaced box) (Creations.start srv n) c) :
    (∀ i s, c.tasks i = .next s → Spaced box c i →
      ∃ c', Creations.step pipes box c i = some c' ∧ c'.remaining < c.remaining) ∧
    (0 < n → c.Finished → OneWinner pipes box srv c) := by
  have hinv := creations_inv_of_reaches hv hr
  refine ⟨?_, hinv.oneWinner hv⟩
  intro i s hi hok
  obtain ⟨c', hs, _⟩ := hinv.step hv hi hok
  exact ⟨c', hs, remaining_lt hs⟩

/-! ### Two requests -/

/-- A directory with room for another entry has a place for it. -/
theorem Idle.canCreate {st : FileStore CString} {path : CString} (h : Idle fs st)
    (hp : ¬ HasPath fs path) (hv : validPathname (some path) = true) (hroom : HasRoom st path) :
    ∃ k i, fs.CanCreate k i path.tail := by
  obtain ⟨fs₁, heq, _⟩ := h.open_creat hp hv hroom
  obtain ⟨r, fs₂, heq', ho⟩ := h.refines.wf.tfsOpen (some path) { creat := true }
  rw [heq] at heq'
  cases heq'
  cases ho with
  | existing hn _ he _ =>
    cases hn
    exact absurd ⟨hv, _, _, he⟩ hp
  | created k i hn _ _ hcan _ =>
    cases hn
    exact ⟨k, i, hcan⟩

/-- Between requests a box that does not exist can be created while there is room. -/
theorem Synced.vacant {st : FileStore CString} (h : Synced srv st)
    (hv : validPathname (some box.name) = true) (hno : ¬ Present st box.name)
    (hroom : HasRoom st box.name) (hcount : srv.nBoxes ≠ srv.maxSessions) : Vacant srv box where
  wellFormed := h.idle.refines.wf
  valid := hv
  room := h.idle.canCreate (fun hp => hno ((hasPath_iff h.idle.refines).mp hp)) hv hroom
  unlisted := by
    intro i hi hname
    exact hno ((h.names.mem_iff box.name).mp ⟨ne_empty_of_valid hv, i, hi, hname⟩)
  slot := h.exists_free hcount
  count := hcount

theorem vacant_started {maxSessions : Nat} (hmax : maxSessions ≠ 0) :
    Vacant (startedServer maxSessions) boxA := by
  refine (synced_of_initServer (initServer_started maxSessions)).vacant (by decide)
    not_present_empty ⟨length_tail_lt boxA, by decide⟩ ?_
  exact fun h => hmax (Int.natCast_inj.mp h).symm

def pipeN : PipePath := ⟨.ofBuffer [47, 110], by decide⟩

def twoPipes (i : Fin 2) : PipePath := if (i : Nat) = 0 then pipeM else pipeN

def twoRequests (maxSessions : Nat) : Creations 2 := .start (startedServer maxSessions) 2

/-- Whether a request stands between its test and its creation of the file. -/
def passedTest : Progress CreateStep Answer → Bool
  | .next .create => true
  | _ => false

/-- A handle is free, and no request has passed its test. -/
def Alone (c : Creations 2) (i : Fin 2) : Prop :=
  HandleFree c.server.fs ∧ ∀ j, j ≠ i → passedTest (c.tasks j) = false

instance (fs : Fs) : Decidable (HandleFree fs) :=
  inferInstanceAs (Decidable (∃ h < fs.maxOpenFiles, fs.freeOpenFileEntries h = .free))

instance (c : Creations 2) (i : Fin 2) : Decidable (Alone c i) :=
  inferInstanceAs (Decidable (HandleFree c.server.fs ∧ ∀ j, j ≠ i → passedTest (c.tasks j) = false))

theorem spaced_of_alone {c : Creations 2} {i : Fin 2} (h : Alone c i) : Spaced box c i := by
  unfold Spaced
  split
  · next hi =>
    refine ⟨?_, fun _ => h.1⟩
    intro j hj
    by_cases hij : j = i
    · subst hij
      rw [hi] at hj
      cases hj
    · have hpassed := h.2 j hij
      rw [hj] at hpassed
      cases hpassed
  · exact h.1
  · trivial

set_option maxRecDepth 4000 in
theorem run_inTurn : ∃ c, runLabels (guarded (Creations.step twoPipes boxA) Alone) (twoRequests 2)
      [0, 0, 0, 0, 1, 1] = some c ∧
    c.tasks 0 = .done (accepted pipeM) ∧ c.tasks 1 = .done (alreadyExists pipeN) :=
  ⟨_, rfl, rfl, rfl⟩

theorem inTurn_oneWinner :
    Vacant (startedServer 2) boxA ∧
      ∃ c, Reaches (Creations.step twoPipes boxA) (Spaced boxA) (twoRequests 2) c ∧ c.Finished ∧
        OneWinner twoPipes boxA (startedServer 2) c := by
  obtain ⟨c, hrun, h0, h1⟩ := run_inTurn
  have hr : Reaches (Creations.step twoPipes boxA) (Spaced boxA) (twoRequests 2) c :=
    (reaches_of_guarded hrun).mono fun _ _ => spaced_of_alone
  have hv : Vacant (startedServer 2) boxA := vacant_started two_ne_zero
  have hdone : c.Finished := Fin.forall_fin_two.mpr ⟨⟨_, h0⟩, ⟨_, h1⟩⟩
  exact ⟨hv, c, hr, hdone, (oneWinner_of_reaches hv hr).2 Nat.two_pos hdone⟩

set_option maxRecDepth 4000 in
theorem run_bothPass : ∃ c, runLabels (Creations.step twoPipes boxA) (twoRequests 2)
      [0, 1, 0, 1, 0, 1, 0, 1] = some c ∧
    c.tasks 0 = .done (accepted pipeM) ∧ c.tasks 1 = .done (accepted pipeN) ∧
    c.server.names 0 = boxA.name ∧ c.server.names 1 = boxA.name ∧ c.server.nBoxes = 2 :=
  ⟨_, rfl, rfl, rfl, rfl, rfl, rfl⟩

/-- Two requests that test for the box before either creates it are both answered with code `0`,
and take two slots. -/
theorem bothPass_twoWinners :
    Vacant (startedServer 2) boxA ∧
      ∃ c, Reaches (Creations.step twoPipes boxA) anyStep (twoRequests 2) c ∧
        c.tasks 0 = .done (accepted pipeM) ∧ c.tasks 1 = .done (accepted pipeN) ∧
        c.server.names 0 = boxA.name ∧ c.server.names 1 = boxA.name ∧ c.server.nBoxes = 2 ∧
        ¬ OneWinner twoPipes boxA (startedServer 2) c := by
  obtain ⟨c, hrun, h0, h1, hslot0, hslot1, hcount⟩ := run_bothPass
  refine ⟨vacant_started two_ne_zero, c, reaches_of_runLabels hrun, h0, h1, hslot0, hslot1, hcount,
    ?_⟩
  intro hwin
  cases hwin.winner.unique h0 h1

end MessageBroker.Broker
