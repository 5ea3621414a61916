import MessageBroker.Broker.Server

/-!
# The box table and the file system

`create_box` and `remove_box` update two stores, the table of `max_sessions` slots
and the root directory. They agree after any sequence of requests in which no new
box is asked for while all slots are taken and the directory has a free entry: only
then `create_box` notices the missing slot after it has created the file.
-/

namespace MessageBroker.Broker

open Bytes Table Transition Tfs Tfs.Fs

/-- A request of a manager that changes the boxes. -/
inductive BoxRequest
  | create (pipe : PipePath) (box : BoxName)
  | remove (pipe : PipePath) (box : BoxName)

def handle (srv : Server) : BoxRequest → Except Fault (Answer × Server)
  | .create pipe box => createBox srv pipe box
  | .remove pipe box => removeBox srv pipe box

/-- The slots with a name. -/
def Server.usedSlots (srv : Server) : Finset Nat :=
  indices (fun i => decide ((srv.boxes i).name ≠ .empty)) srv.maxSessions

def Server.names (srv : Server) (i : Nat) : CString := (srv.boxes i).name

/-- The slots hold each path of the root directory once, and `n_boxes` counts them. -/
structure Agrees (srv : Server) : Prop where
  names : HoldsOnce CString.empty srv.names srv.maxSessions (HasPath srv.fs)
  count : srv.nBoxes = srv.usedSlots.card

/-- The slots, their number and the blocks, with the directory in them, are the same. -/
structure SameTables (srv srv' : Server) : Prop where
  boxes : srv'.boxes = srv.boxes
  nBoxes : srv'.nBoxes = srv.nBoxes
  directory : srv'.fs.fsData = srv.fs.fsData

/-- No directory entry is free. -/
def DirectoryFull (fs : Fs) : Prop := ∀ i < fs.maxDirEntries, fs.dInumber 0 i ≠ -1

/-- A new box is asked for with all slots taken only when the directory is full, too. -/
def Spared (srv : Server) : BoxRequest → Prop
  | .create _ box => srv.nBoxes = srv.maxSessions → validPathname (some box.name) = true →
      ¬ HasPath srv.fs box.name → DirectoryFull srv.fs
  | .remove _ _ => True

variable {srv srv₀ : Server} {st : FileStore CString} {fs fs₀ : Fs} {malloc : Malloc}
  {path p q : CString} {maxSessions : Nat}

/-! ### Paths -/

theorem ne_empty_of_valid (hv : validPathname (some p) = true) : p ≠ .empty := by
  rintro rfl
  cases hv

/-- A path is determined by the name after its slash. -/
theorem path_eq_of_tail_eq (hp : validPathname (some p) = true)
    (hq : validPathname (some q) = true) (h : p.tail = q.tail) : p = q := by
  have hb : p.bytes.tail = q.bytes.tail := congrArg CString.bytes h
  simp only [validPathname, Bool.and_eq_true, beq_iff_eq] at hp hq
  ext1
  rw [← List.cons_head?_tail hp.2, ← List.cons_head?_tail hq.2, hb]

/-- The path is that of a file of the store. -/
def Present (st : FileStore CString) (path : CString) : Prop :=
  validPathname (some path) = true ∧ path.tail ∈ st.names

theorem present_create (hv : validPathname (some p) = true) :
    Present (st.create p.tail) q ↔ q = p ∨ Present st q := by
  simp only [Present, FileStore.create, Finset.mem_insert]
  constructor
  · rintro ⟨hq, ht | hmem⟩
    · exact Or.inl (path_eq_of_tail_eq hq hv ht)
    · exact Or.inr ⟨hq, hmem⟩
  · rintro (rfl | ⟨hq, hmem⟩)
    · exact ⟨hv, Or.inl rfl⟩
    · exact ⟨hq, Or.inr hmem⟩

theorem present_remove (hv : validPathname (some p) = true) :
    Present (st.remove p.tail) q ↔ q ≠ p ∧ Present st q := by
  simp only [Present, FileStore.remove, Finset.mem_erase]
  constructor
  · rintro ⟨hq, hne, hmem⟩
    refine ⟨?_, hq, hmem⟩
    rintro rfl
    exact hne rfl
  · rintro ⟨hne, hq, hmem⟩
    exact ⟨hq, fun ht => hne (path_eq_of_tail_eq hq hv ht), hmem⟩

/-! ### Slots -/

/-- No handle is open and the slots hold the paths of the store. -/
structure Synced (srv : Server) (st : FileStore CString) : Prop where
  idle : Idle srv.fs st
  names : HoldsOnce CString.empty srv.names srv.maxSessions (Present st)
  count : srv.nBoxes = srv.usedSlots.card

theorem Synced.agrees (h : Synced srv st) : Agrees srv :=
  ⟨h.names.congr fun _ => (hasPath_iff h.idle.refines).symm, h.count⟩

theorem Synced.setFs (h : Synced srv st) (hidle : Idle fs st) : Synced (srv.setFs fs) st :=
  ⟨hidle, h.names, h.count⟩

/-- With fewer boxes than slots there is a free slot. -/
theorem Synced.exists_free (h : Synced srv st) (hlt : srv.nBoxes ≠ srv.maxSessions) :
    ∃ i, srv.findBox .empty = some i := by
  cases hf : srv.findBox .empty with
  | some i => exact ⟨i, rfl⟩
  | none =>
    have hall := card_indices_of_forall (p := fun i => decide ((srv.boxes i).name ≠ .empty))
      fun i hi => decide_eq_true (Server.findBox_eq_none hf i hi)
    exact absurd (h.count.trans (congrArg Nat.cast hall)) hlt

theorem names_setBox (srv : Server) (i : Nat) (name : CString) :
    (srv.setBox i { srv.boxes i with name := name }).names =
      Function.update srv.names i name := by
  funext j
  by_cases hj : j = i
  · subst hj
    simp [Server.names]
  · simp [Server.names, Function.update_of_ne hj]

theorem Synced.takeSlot (h : Synced srv st) (hv : validPathname (some p) = true)
    (hno : ¬ Present st p) (hlt : srv.nBoxes ≠ srv.maxSessions)
    (hidle : Idle fs (st.create p.tail)) :
    Synced ((srv.setFs fs).takeSlot p) (st.create p.tail) := by
  obtain ⟨i, hf⟩ := h.exists_free hlt
  obtain ⟨hi, hempty⟩ := Server.findBox_eq_some hf
  simp only [Server.takeSlot, Server.setFs_findBox, hf]
  refine ⟨hidle, ?_, ?_⟩
  · have hnames := (h.names.update hi (ne_empty_of_valid hv) hno hempty).congr
      fun _ => (present_create hv).symm
    rw [← names_setBox] at hnames
    exact hnames
  · have hcard : (srv.setBox i { srv.boxes i with name := p }).usedSlots.card =
        srv.usedSlots.card + 1 := by
      apply card_indices_insert hi (by simp [hempty]) (by simp [ne_empty_of_valid hv])
      intro j hj
      simp [Function.update_of_ne hj]
    show srv.nBoxes + 1 = ((srv.setBox i { srv.boxes i with name := p }).usedSlots.card : Int)
    rw [hcard, h.count]
    rfl

theorem Synced.freeSlot (h : Synced srv st) (hp : Present st p)
    (hidle : Idle fs (st.remove p.tail)) :
    Synced ((srv.setFs fs).freeSlot p) (st.remove p.tail) := by
  obtain ⟨hne, j, hj, hjp⟩ := (h.names.mem_iff p).mpr hp
  cases hf : srv.findBox p with
  | none => exact absurd hjp (Server.findBox_eq_none hf j hj)
  | some i =>
    obtain ⟨hi, hname⟩ := Server.findBox_eq_some hf
    simp only [Server.freeSlot, Server.setFs_findBox, hf]
    refine ⟨hidle, ?_, ?_⟩
    · have hnames := h.names.clear hi (by rwa [Server.names, hname])
      rw [← names_setBox] at hnames
      refine hnames.congr fun q => ?_
      rw [present_remove hp.1, Server.names, hname]
    · have hcard : srv.usedSlots.card =
          (srv.setBox i { srv.boxes i with name := .empty }).usedSlots.card + 1 := by
        apply card_indices_insert hi (by simp) (by simp [hname, hne])
        intro j hj
        simp [Function.update_of_ne hj]
      show srv.nBoxes - 1 =
        ((srv.setBox i { srv.boxes i with name := .empty }).usedSlots.card : Int)
      rw [h.count, hcard]
      push_cast
      omega

/-! ### Requests -/

/-- A refused request leaves the tables as they were. -/
theorem sameTables_setFs (hdata : fs.fsData = srv.fs.fsData) : SameTables srv (srv.setFs fs) :=
  ⟨rfl, rfl, hdata⟩

/-- With a full directory no file can be created. -/
theorem Idle.not_room (h : Idle fs st) (hfull : DirectoryFull fs) : ¬ HasRoom st path := by
  rintro ⟨_, hlt⟩
  have hcard := h.refines.files.card_of_full_entries h.refines.wf hfull
  rw [hcard] at hlt
  refine absurd hlt (not_lt.mpr ?_)
  rw [← h.refines.fsParams]
  exact min_le_right _ _

/-- An admitted request is answered, leaves the stores in step, and changes nothing if it is
refused. -/
theorem Synced.handle (h : Synced srv st) (req : BoxRequest) (hok : Spared srv req) :
    ∃ answer srv' st', handle srv req = .ok (answer, srv') ∧ Synced srv' st' ∧
      (answer.refused → SameTables srv srv') := by
  cases req with
  | create pipe box =>
    by_cases hp : HasPath srv.fs box.name
    · obtain ⟨fs', heq, hidle, hdata⟩ := createBox_existing pipe h.idle hp
      exact ⟨_, _, st, heq, h.setFs hidle, fun _ => sameTables_setFs hdata⟩
    by_cases hnew : validPathname (some box.name) = true ∧ HasRoom st box.name
    · have hlt : srv.nBoxes ≠ srv.maxSessions := by
        intro hfull
        exact h.idle.not_room (hok hfull hnew.1 hp) hnew.2
      obtain ⟨fs', heq, hidle⟩ := createBox_created pipe h.idle hp hnew.1 hnew.2 hlt
      have hno : ¬ Present st box.name := fun hpres => hp ((hasPath_iff h.idle.refines).mpr hpres)
      refine ⟨_, _, _, heq, h.takeSlot hnew.1 hno hlt hidle, ?_⟩
      rintro ⟨m, hm, hcode⟩
      rw [List.mem_singleton.mp hm] at hcode
      cases hcode
    · obtain ⟨fs', heq, hidle, hdata⟩ := createBox_fails pipe h.idle hp hnew
      exact ⟨_, _, st, heq, h.setFs hidle, fun _ => sameTables_setFs hdata⟩
  | remove pipe box =>
    by_cases hp : HasPath srv.fs box.name
    · obtain ⟨fs', heq, hidle⟩ := removeBox_removed pipe h.idle hp
      have hpres := (hasPath_iff h.idle.refines).mp hp
      refine ⟨_, _, _, heq, h.freeSlot hpres hidle, ?_⟩
      rintro ⟨m, hm, hcode⟩
      rw [List.mem_singleton.mp hm] at hcode
      cases hcode
    · obtain ⟨fs', heq, hidle, hdata⟩ := removeBox_absent pipe h.idle hp
      exact ⟨_, _, st, heq, h.setFs hidle, fun _ => sameTables_setFs hdata⟩

/-- The box table is in step with some store that the file system refines. -/
def InStep (srv : Server) : Prop := ∃ st, Synced srv st

theorem inStep_step (srv : Server) (req : BoxRequest) (srv' : Server) (h : InStep srv)
    (hok : Spared srv req) (hs : stateStep handle srv req = some srv') : InStep srv' := by
  obtain ⟨st, h⟩ := h
  obtain ⟨answer, srv'', st', heq, h', _⟩ := h.handle req hok
  rw [stateStep, heq] at hs
  cases hs
  exact ⟨st', h'⟩

theorem bounded_tfsDefaultParams : Bounded tfsDefaultParams :=
  ⟨by decide, by decide, by decide, by decide⟩

/-- What a successful `init_server` leaves. -/
theorem initServer_ok (hinit : initServer fs₀ malloc maxSessions = .ok (0, srv)) :
    Idle srv.fs FileStore.empty ∧ srv.nBoxes = 0 ∧ srv.maxSessions = maxSessions ∧
      ∀ i, srv.boxes i = ⟨.empty, 0, 0, 0⟩ := by
  obtain ⟨⟨r, fs⟩, htfs, hinit⟩ := bind_eq_ok.mp hinit
  by_cases hr : r = 0
  · subst hr
    cases hinit
    exact ⟨⟨(initial_of_tfsInit htfs).refines bounded_tfsDefaultParams (by decide), rfl⟩, rfl, rfl,
      fun _ => rfl⟩
  · simp only [hr, ne_eq, not_false_eq_true, if_true] at hinit
    cases hinit

theorem synced_of_initServer (hinit : initServer fs₀ malloc maxSessions = .ok (0, srv)) :
    Synced srv FileStore.empty := by
  obtain ⟨hidle, hcount, _, hboxes⟩ := initServer_ok hinit
  have hfree : ∀ i, srv.names i = .empty := fun i => congrArg Box.name (hboxes i)
  refine ⟨hidle, ⟨?_, ?_⟩, ?_⟩
  · intro path
    constructor
    · rintro ⟨hne, i, _, rfl⟩
      exact absurd (hfree i) hne
    · rintro ⟨_, hmem⟩
      cases hmem
  · intro i _ j _ hne _
    exact absurd (hfree i) hne
  · have hnone : srv.usedSlots = ∅ := by
      ext i
      simp [Server.usedSlots, hboxes i]
    rw [hcount, hnone]
    rfl

/-- In a run of requests in which no new box is asked for with all slots taken and the directory
not full, the box table agrees with the directory in every state, and the next such request is
answered, and leaves them as they are if the code of the answer is `-1`. -/
theorem agrees_of_reaches (hinit : initServer fs₀ malloc maxSessions = .ok (0, srv₀))
    (hr : Reaches (stateStep handle) Spared srv₀ srv) :
    Agrees srv ∧ ∀ req, Spared srv req →
      ∃ answer srv', handle srv req = .ok (answer, srv') ∧
        (answer.refused → SameTables srv srv') := by
  obtain ⟨st, h⟩ : InStep srv := hr.invariant ⟨_, synced_of_initServer hinit⟩ inStep_step
  refine ⟨h.agrees, ?_⟩
  intro req hok
  obtain ⟨answer, srv', _, heq, _, hsame⟩ := h.handle req hok
  exact ⟨answer, srv', heq, hsame⟩

/-! ### One slot -/

def defaultFs : Fs := uninitialized.rootCreated tfsDefaultParams zeroHeap

set_option maxRecDepth 4000 in
theorem tfsInit_default :
    uninitialized.tfsInit tfsDefaultParams (.granted zeroHeap) = .ok (0, defaultFs) := rfl

/-- A broker that has just been started. -/
def startedServer (maxSessions : Nat) : Server :=
  { maxSessions := maxSessions, nBoxes := 0, boxes := fun _ => ⟨.empty, 0, 0, 0⟩, fs := defaultFs }

theorem initServer_started (maxSessions : Nat) :
    initServer uninitialized (.granted zeroHeap) maxSessions =
      .ok (0, startedServer maxSessions) := by
  rw [initServer, tfsInit_default, ok_bind]
  rfl

def pipeM : PipePath := ⟨.ofBuffer [47, 109], by decide⟩

def boxA : BoxName := ⟨.ofBuffer [47, 97], by decide⟩

theorem fits_boxB : (CString.ofBuffer [47, 98]).length < boxNameSize := by decide

def boxB : BoxName := ⟨.ofBuffer [47, 98], fits_boxB⟩

theorem not_present_empty : ¬ Present FileStore.empty path := by
  rintro ⟨_, hmem⟩
  cases hmem

/-- A new broker with a slot creates its first box. -/
theorem startedServer_findBox (h : maxSessions ≠ 0) :
    (startedServer maxSessions).findBox .empty = some 0 :=
  firstIndex_eq_some.mpr ⟨rfl, Nat.pos_of_ne_zero h, fun _ hlt => absurd hlt (Nat.not_lt_zero _)⟩

/-- The first box of a new broker gets slot 0. -/
theorem createBox_started (h : maxSessions ≠ 0) :
    ∃ srv, createBox (startedServer maxSessions) pipeM boxA =
        .ok (⟨0, [⟨pipeM.name, opCodeBoxCreateR, 0, ""⟩]⟩, srv) ∧
      Synced srv (FileStore.empty.create boxA.name.tail) ∧ srv.nBoxes = 1 ∧
      srv.maxSessions = maxSessions ∧ srv.findBox boxA.name = some 0 ∧
      ∀ i, (srv.boxes i).nPublishers = 0 := by
  have hs := synced_of_initServer (initServer_started maxSessions)
  have hv : validPathname (some boxA.name) = true := by decide
  have hp : ¬ HasPath (startedServer maxSessions).fs boxA.name := fun hp =>
    not_present_empty ((hasPath_iff hs.idle.refines).mp hp)
  have hlt : (startedServer maxSessions).nBoxes ≠ (startedServer maxSessions).maxSessions := by
    show (0 : Int) ≠ maxSessions
    omega
  obtain ⟨fs', heq, hidle⟩ :=
    createBox_created pipeM hs.idle hp hv ⟨length_tail_lt boxA, by decide⟩ hlt
  refine ⟨_, heq, hs.takeSlot hv not_present_empty hlt hidle, ?_⟩
  simp only [Server.takeSlot, Server.setFs_findBox, startedServer_findBox h]
  refine ⟨rfl, rfl, ?_, fun j => ?_⟩
  · refine firstIndex_eq_some.mpr ⟨?_, Nat.pos_of_ne_zero h, ?_⟩
    · simp
    · exact fun _ hlt => absurd hlt (Nat.not_lt_zero _)
  · by_cases hj : j = 0
    · subst hj
      simp [startedServer]
    · simp [startedServer, Function.update_of_ne hj]

theorem firstBox_agrees :
    ∃ srv₀ srv, initServer uninitialized (.granted zeroHeap) 1 = .ok (0, srv₀) ∧
      runLabels (stateStep handle) srv₀ [.create pipeM boxA] = some srv ∧
      Agrees srv ∧ ∀ req, Spared srv req → ∃ answer srv', handle srv req = .ok (answer, srv') ∧
        (answer.refused → SameTables srv srv') := by
  obtain ⟨srv, heq, _, _, _, _⟩ := createBox_started (show 1 ≠ 0 by decide)
  have hstep : stateStep handle (startedServer 1) (.create pipeM boxA) = some srv :=
    stateStep_eq_some.mpr ⟨_, heq⟩
  have hok : Spared (startedServer 1) (.create pipeM boxA) := by
    intro hfull
    cases hfull
  refine ⟨_, srv, initServer_started 1, ?_, ?_⟩
  · rw [runLabels, hstep]
    rfl
  · exact agrees_of_reaches (initServer_started 1) ((Reaches.refl _).snoc _ hok hstep)

/-- With one slot, a second box is refused, but its file stays. -/
theorem twoBoxes_disagree :
    ∃ srv₀ srv, initServer uninitialized (.granted zeroHeap) 1 = .ok (0, srv₀) ∧
      outputs handle srv₀ [.create pipeM boxA, .create pipeM boxB] =
        .ok ([⟨0, [⟨pipeM.name, opCodeBoxCreateR, 0, ""⟩]⟩,
          ⟨-1, [⟨pipeM.name, opCodeBoxCreateR, -1, "create_box: No space left"⟩]⟩], srv) ∧
      HasPath srv.fs boxB.name ∧ ¬ Agrees srv := by
  obtain ⟨srv₁, heq₁, hs, hone, hmax, _⟩ := createBox_started (show 1 ≠ 0 by decide)
  have hv : validPathname (some boxB.name) = true := by decide
  have hpres : ¬ Present (FileStore.empty.create boxA.name.tail) boxB.name := by
    rw [present_create (by decide)]
    rintro (heq | hp)
    · exact absurd heq (by decide)
    · exact not_present_empty hp
  have hp : ¬ HasPath srv₁.fs boxB.name := fun hp => hpres ((hasPath_iff hs.idle.refines).mp hp)
  obtain ⟨fs', heq₂, hidle⟩ :=
    createBox_noSpace pipeM hs.idle hp hv ⟨length_tail_lt boxB, by decide⟩ (by rw [hone, hmax]; rfl)
  have hpath : HasPath fs' boxB.name :=
    (hasPath_iff hidle.refines).mpr ((present_create hv).mpr (Or.inl rfl))
  refine ⟨_, srv₁.setFs fs', initServer_started 1, ?_, hpath, ?_⟩
  · simp only [outputs, handle, heq₁, heq₂]
  · intro hagrees
    obtain ⟨hne, i, hi, hname⟩ := (hagrees.names.mem_iff boxB.name).mpr hpath
    exact hpres ((hs.names.mem_iff boxB.name).mp ⟨hne, i, hi, hname⟩)

end MessageBroker.Broker
