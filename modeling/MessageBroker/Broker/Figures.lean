import MessageBroker.Broker.Publisher
import MessageBroker.Broker.Subscriber

/-!
# The figures of a box

A slot of the box table carries the size of the file and the numbers of the
sessions of its box. `create_box` and `remove_box` change only the name of a slot,
and sessions outlive the removal of their box and keep their index. The figures are
right in runs in which a box is created only in a slot whose figures are zero, and a
message is published only to a file that is not full and, once the box of the session
was removed, only if there is no new file of that name.
-/

namespace MessageBroker.Broker

open Bytes Table Transition Tfs Tfs.Fs

/-- The two kinds of sessions on a box. -/
inductive Role
  | publisher
  | subscriber
deriving DecidableEq

/-- The figure that counts the sessions of a kind. -/
def Role.figure : Role → Box → UInt64
  | publisher, b => b.nPublishers
  | subscriber, b => b.nSubscribers

/-- The beginning of a session: `register_entry`, a test of the box and the increment of a
counter. The result is the index of the box, or `none` if the session ends. -/
def attach (refused : Box → Bool) (count : Box → Box) (srv : Server) (box : BoxName) :
    Except Fault (Option Nat × Server) := do
  let (index, srv) ← registerEntry srv box
  if index < 0 then .ok (none, srv)
  else if refused (srv.boxes index.toNat) then .ok (none, srv)
  else .ok (some index.toNat, srv.modifyBox index.toNat count)

/-- The beginning of `start_publisher` if no operation on its pipe fails. -/
def attachPublisher : Server → BoxName → Except Fault (Option Nat × Server) :=
  attach (fun b => b.nPublishers == 1) fun b => { b with nPublishers := b.nPublishers + 1 }

/-- The beginning of `start_subscriber` if no operation on its pipe fails. -/
def attachSubscriber : Server → BoxName → Except Fault (Option Nat × Server) :=
  attach (fun _ => false) fun b => { b with nSubscribers := b.nSubscribers + 1 }

def Role.start : Role → Server → BoxName → Except Fault (Option Nat × Server)
  | publisher => attachPublisher
  | subscriber => attachSubscriber

/-- A session of a worker. `birth` is the number of changes that the name of the slot had seen
when the session was attached. -/
structure Session where
  role : Role
  entry : Attachment
  birth : Nat
  bytesProcessed : Nat

/-- The broker with the sessions of its workers. `births i` counts the changes of the name of
slot `i`: the boxes that a slot holds one after the other differ in it. A request, a message and a
pass are one step each, and a request is served while all workers have sessions, too: the runs of
the code in which nothing falls between the calls of a function are among those of these steps.
`CallState` has the orders of single calls. -/
structure BrokerState where
  server : Server
  births : Nat → Nat
  workers : Nat → Option Session

def BrokerState.initial (srv : Server) : BrokerState := ⟨srv, fun _ => 0, fun _ => none⟩

inductive BrokerLabel
  | request (req : BoxRequest)
  | attach (role : Role) (t : Nat) (box : BoxName)
  | publish (t : Nat) (text : Text)
  /-- The client of publisher `t` closes its pipe. -/
  | leave (t : Nat)
  /-- Subscriber `t` makes one pass. -/
  | poll (t : Nat) (stale : List UInt8) (clientGone : Bool)

namespace BrokerState

def setServer (s : BrokerState) (srv : Server) : BrokerState := { s with server := srv }

def setWorker (s : BrokerState) (t : Nat) (ses : Option Session) : BrokerState :=
  { s with workers := Function.update s.workers t ses }

/-- The server after a request. -/
def setBoxes (s : BrokerState) (srv : Server) : BrokerState :=
  { s.setServer srv with
    births := fun i => if srv.names i = s.server.names i then s.births i else s.births i + 1 }

def step (s : BrokerState) : BrokerLabel → Option BrokerState
  | .request req =>
    match handle s.server req with
    | .ok (_, srv) => some (s.setBoxes srv)
    | .error _ => none
  | .attach role t box =>
    if t < s.server.maxSessions ∧ (s.workers t).isNone then
      match role.start s.server box with
      | .ok (some index, srv) =>
        some ((s.setServer srv).setWorker t (some ⟨role, ⟨box, index⟩, s.births index, 0⟩))
      | .ok (none, srv) => some (s.setServer srv)
      | .error _ => none
    else none
  | .publish t text =>
    match s.workers t with
    | some ⟨.publisher, e, birth, bytesProcessed⟩ =>
      match Broker.publish s.server e.index e.box text with
      | .ok (goesOn, srv) =>
        some ((s.setServer srv).setWorker t
          (if goesOn then some ⟨.publisher, e, birth, bytesProcessed⟩ else none))
      | .error _ => none
    | _ => none
  | .leave t =>
    match s.workers t with
    | some ⟨.publisher, e, _, _⟩ =>
      some ((s.setServer (s.server.modifyBox e.index fun b =>
        { b with nPublishers := b.nPublishers - 1 })).setWorker t none)
    | _ => none
  | .poll t stale clientGone =>
    match s.workers t with
    | some ⟨.subscriber, e, birth, bytesProcessed⟩ =>
      match Broker.poll s.server e.index e.box bytesProcessed stale clientGone with
      | .ok (some .ended, srv) => some ((s.setServer srv).setWorker t none)
      | .ok (some (.goesOn bytesProcessed _), srv) =>
        some ((s.setServer srv).setWorker t (some ⟨.subscriber, e, birth, bytesProcessed⟩))
      | _ => none
    | _ => none

/-- The number of live sessions of a kind on the box in slot `i`. -/
def attached (s : BrokerState) (role : Role) (i : Nat) : Nat :=
  tally (fun ses => ses.role = role ∧ ses.entry.index = i ∧ ses.birth = s.births i) s.workers
    s.server.maxSessions

end BrokerState

/-- The path names a file of that size. -/
def FileSize (fs : Fs) (path : CString) (size : Nat) : Prop :=
  ∃ i k, fs.EntryAt i path.tail k ∧ (fs.inodeTable k).iSize = size

/-- The figures of every slot with a name are those of its box. -/
def OwnFigures (s : BrokerState) : Prop :=
  ∀ i < s.server.maxSessions, (s.server.boxes i).name ≠ .empty →
    FileSize s.server.fs (s.server.boxes i).name (s.server.boxes i).size.toNat ∧
      ∀ role : Role, (role.figure (s.server.boxes i)).toNat = s.attached role i

/-- The figures of the first free slot are zero. -/
def FreeSlotClean (srv : Server) : Prop :=
  ∀ i, srv.findBox .empty = some i →
    (srv.boxes i).size = 0 ∧ ∀ role : Role, role.figure (srv.boxes i) = 0

/-- A box is created only in a slot with figures that are zero. A message is published only while
the slot of the session has the name of its box, or no file has it, and the file is not full. -/
def Tidy (s : BrokerState) : BrokerLabel → Prop
  | .request (.create _ box) =>
    validPathname (some box.name) = true → ¬ HasPath s.server.fs box.name →
      ¬ DirectoryFull s.server.fs → s.server.nBoxes ≠ s.server.maxSessions →
        FreeSlotClean s.server
  | .publish t _ => ∀ ses, s.workers t = some ses → HasPath s.server.fs ses.entry.box.name →
      (s.server.boxes ses.entry.index).name = ses.entry.box.name ∧
        ¬ FileSize s.server.fs ses.entry.box.name tfsDefaultParams.blockSize
  | _ => True

/-! ### The files of the slots -/

variable {srv srv' : Server} {st : FileStore CString} {fs : Fs} {p : CString} {box : BoxName}
  {box' : Box}

/-- Every slot with a name has a file of its own, and `size` is the length of that file. -/
structure Stored (srv : Server) (st : FileStore CString) : Prop where
  idle : Idle srv.fs st
  present : ∀ i < srv.maxSessions, srv.names i ≠ .empty → Present st (srv.names i)
  unique : ∀ i < srv.maxSessions, ∀ j < srv.maxSessions, srv.names i ≠ .empty →
    srv.names i = srv.names j → i = j
  size : ∀ i < srv.maxSessions, srv.names i ≠ .empty →
    (srv.boxes i).size = .ofNat (st.contents (srv.names i).tail).length

/-- Only the names of slots change, and a new name is given only to a slot with figures zero. -/
structure Renames (srv srv' : Server) : Prop where
  maxSessions : srv'.maxSessions = srv.maxSessions
  figure : ∀ i, ∀ role : Role, role.figure (srv'.boxes i) = role.figure (srv.boxes i)
  names : ∀ i, srv'.names i = srv.names i ∨ srv'.names i = .empty ∨
    ∀ role : Role, role.figure (srv.boxes i) = 0

theorem Stored.setFs (h : Stored srv st) (hidle : Idle fs st) : Stored (srv.setFs fs) st :=
  ⟨hidle, h.present, h.unique, h.size⟩

theorem renames_setFs (srv : Server) (fs : Fs) : Renames srv (srv.setFs fs) :=
  ⟨rfl, fun _ _ => rfl, fun _ => Or.inl rfl⟩

/-- The contents of a file that has a slot do not depend on a file without one. -/
theorem Stored.tail_ne {i : Nat} (h : Stored srv st) (hi : i < srv.maxSessions)
    (hne : srv.names i ≠ .empty) (hv : validPathname (some p) = true) (hp : srv.names i ≠ p) :
    (srv.names i).tail ≠ p.tail :=
  fun ht => hp (path_eq_of_tail_eq (h.present i hi hne).1 hv ht)

/-- A file that is created and gets no slot. -/
theorem Stored.create (h : Stored srv st) (hv : validPathname (some p) = true)
    (hno : ¬ Present st p) (hidle : Idle fs (st.create p.tail)) :
    Stored (srv.setFs fs) (st.create p.tail) := by
  refine ⟨hidle, ?_, h.unique, ?_⟩
  · intro i hi hne
    exact (present_create hv).mpr (Or.inr (h.present i hi hne))
  · intro i hi hne
    have hold := h.present i hi hne
    have ht := h.tail_ne hi hne hv fun heq => hno (heq ▸ hold)
    show (srv.boxes i).size = _
    rw [h.size i hi hne]
    show _ = UInt64.ofNat (Function.update st.contents p.tail [] (srv.names i).tail).length
    rw [Function.update_of_ne ht]

@[simp] theorem names_setBox_self (srv : Server) (i : Nat) (box : Box) :
    (srv.setBox i box).names i = box.name := by
  simp [Server.names]

theorem names_setBox_of_ne (srv : Server) {i j : Nat} (box : Box) (hj : j ≠ i) :
    (srv.setBox i box).names j = srv.names j := by
  simp [Server.names, Function.update_of_ne hj]

/-- A new file gets a slot whose `size` is zero. -/
theorem Stored.setName {i : Nat} (h : Stored srv st) (hp : Present st p)
    (hno : ∀ j < srv.maxSessions, srv.names j ≠ p)
    (hempty : st.contents p.tail = []) (hzero : (srv.boxes i).size = 0) :
    Stored (srv.setBox i { srv.boxes i with name := p }) st := by
  refine ⟨h.idle, ?_, ?_, ?_⟩
  · intro j hj hne
    by_cases hji : j = i
    · subst hji
      rw [names_setBox_self]
      exact hp
    · rw [names_setBox_of_ne _ _ hji] at hne ⊢
      exact h.present j hj hne
  · intro j hj k hk hne heq
    by_cases hji : j = i
    · by_cases hki : k = i
      · exact hji.trans hki.symm
      · rw [hji, names_setBox_self, names_setBox_of_ne _ _ hki] at heq
        exact absurd heq.symm (hno k hk)
    · rw [names_setBox_of_ne _ _ hji] at hne heq
      by_cases hki : k = i
      · rw [hki, names_setBox_self] at heq
        exact absurd heq (hno j hj)
      · rw [names_setBox_of_ne _ _ hki] at heq
        exact h.unique j hj k hk hne heq
  · intro j hj hne
    by_cases hji : j = i
    · subst hji
      rw [names_setBox_self, Server.setBox_boxes, Function.update_self, hempty]
      exact hzero
    · rw [names_setBox_of_ne _ _ hji] at hne ⊢
      rw [Server.setBox_boxes, Function.update_of_ne hji]
      exact h.size j hj hne

/-- A removed file loses its slot. -/
theorem Stored.clearName {i : Nat} (h : Stored srv st) (hi : i < srv.maxSessions)
    (hne : srv.names i ≠ .empty) (hidle : Idle fs (st.remove (srv.names i).tail)) :
    Stored ((srv.setFs fs).setBox i { srv.boxes i with name := .empty })
      (st.remove (srv.names i).tail) := by
  -- a slot that keeps its name is another one, with another name
  have hother : ∀ j,
      ((srv.setFs fs).setBox i { srv.boxes i with name := .empty }).names j ≠ .empty → j ≠ i := by
    rintro j hj rfl
    exact hj (names_setBox_self _ _ _)
  refine ⟨hidle, ?_, ?_, ?_⟩
  · intro j hj hnej
    have hji := hother j hnej
    rw [names_setBox_of_ne _ _ hji] at hnej ⊢
    refine (present_remove (h.present i hi hne).1).mpr ⟨?_, h.present j hj hnej⟩
    exact fun heq => hji (h.unique j hj i hi hnej heq)
  · intro j hj k hk hnej heq
    have hji := hother j hnej
    have hki := hother k (heq ▸ hnej)
    rw [names_setBox_of_ne _ _ hji] at hnej heq
    rw [names_setBox_of_ne _ _ hki] at heq
    exact h.unique j hj k hk hnej heq
  · intro j hj hnej
    have hji := hother j hnej
    rw [names_setBox_of_ne _ _ hji] at hnej ⊢
    rw [Server.setBox_boxes, Function.update_of_ne hji]
    exact h.size j hj hnej

/-- A change of a slot that keeps its figures. -/
theorem figure_setBox (srv : Server) (i j : Nat) (role : Role)
    (hbox : role.figure box' = role.figure (srv.boxes i)) :
    role.figure ((srv.setBox i box').boxes j) = role.figure (srv.boxes j) := by
  by_cases hj : j = i
  · subst hj
    rw [Server.setBox_boxes, Function.update_self, hbox]
  · rw [Server.setBox_boxes, Function.update_of_ne hj]

theorem Stored.takeSlot (h : Stored srv st) (hv : validPathname (some p) = true)
    (hno : ¬ Present st p) (hidle : Idle fs (st.create p.tail)) (hclean : FreeSlotClean srv) :
    Stored ((srv.setFs fs).takeSlot p) (st.create p.tail) ∧
      Renames srv ((srv.setFs fs).takeSlot p) := by
  have hcreate := h.create hv hno hidle
  cases hf : srv.findBox .empty with
  | none =>
    simp only [Server.takeSlot, Server.setFs_findBox, hf]
    exact ⟨hcreate, renames_setFs srv fs⟩
  | some i =>
    simp only [Server.takeSlot, Server.setFs_findBox, hf]
    obtain ⟨hsize, hzero⟩ := hclean i hf
    have hfree : ∀ j < srv.maxSessions, srv.names j ≠ p := fun j hj heq =>
      hno (heq ▸ h.present j hj (heq ▸ ne_empty_of_valid hv))
    have hset := hcreate.setName (i := i) ((present_create hv).mpr (Or.inl rfl)) hfree
      (Function.update_self ..) hsize
    refine ⟨⟨hset.idle, hset.present, hset.unique, hset.size⟩, rfl, ?_, ?_⟩
    · exact fun j role => figure_setBox (srv.setFs fs) i j role (by cases role <;> rfl)
    · intro j
      by_cases hj : j = i
      · subst hj
        exact Or.inr (Or.inr hzero)
      · exact Or.inl (names_setBox_of_ne (srv.setFs fs) _ hj)

theorem Stored.freeSlot (h : Stored srv st) (hp : Present st p)
    (hidle : Idle fs (st.remove p.tail)) :
    Stored ((srv.setFs fs).freeSlot p) (st.remove p.tail) ∧
      Renames srv ((srv.setFs fs).freeSlot p) := by
  cases hf : srv.findBox p with
  | none =>
    simp only [Server.freeSlot, Server.setFs_findBox, hf]
    refine ⟨⟨hidle, ?_, h.unique, h.size⟩, renames_setFs srv fs⟩
    intro i hi hne
    exact (present_remove hp.1).mpr ⟨Server.findBox_eq_none hf i hi, h.present i hi hne⟩
  | some i =>
    simp only [Server.freeSlot, Server.setFs_findBox, hf]
    obtain ⟨hi, rfl⟩ := Server.findBox_eq_some hf
    have hclear := h.clearName hi (ne_empty_of_valid hp.1) hidle
    refine ⟨⟨hclear.idle, hclear.present, hclear.unique, hclear.size⟩, rfl, ?_, ?_⟩
    · exact fun j role => figure_setBox (srv.setFs fs) i j role (by cases role <;> rfl)
    · intro j
      by_cases hj : j = i
      · subst hj
        exact Or.inr (Or.inl (names_setBox_self (srv.setFs fs) _ _))
      · exact Or.inl (names_setBox_of_ne (srv.setFs fs) _ hj)

/-- A request keeps files and slots in step if a new box gets a slot with figures zero. -/
theorem Stored.handle {s : BrokerState} (h : Stored s.server st) (req : BoxRequest)
    (hok : Tidy s (.request req)) :
    ∃ answer srv' st', Broker.handle s.server req = .ok (answer, srv') ∧ Stored srv' st' ∧
      Renames s.server srv' := by
  cases req with
  | create pipe box =>
    by_cases hp : HasPath s.server.fs box.name
    · obtain ⟨fs', heq, hidle, _⟩ := createBox_existing pipe h.idle hp
      exact ⟨_, _, st, heq, h.setFs hidle, renames_setFs s.server fs'⟩
    by_cases hnew : validPathname (some box.name) = true ∧ HasRoom st box.name
    · have hno : ¬ Present st box.name := fun hpres => hp ((hasPath_iff h.idle.refines).mpr hpres)
      by_cases hfull : s.server.nBoxes = s.server.maxSessions
      · obtain ⟨fs', heq, hidle⟩ := createBox_noSpace pipe h.idle hp hnew.1 hnew.2 hfull
        exact ⟨_, _, _, heq, h.create hnew.1 hno hidle, renames_setFs s.server fs'⟩
      · obtain ⟨fs', heq, hidle⟩ := createBox_created pipe h.idle hp hnew.1 hnew.2 hfull
        have hclean : FreeSlotClean s.server :=
          hok hnew.1 hp (fun hdir => h.idle.not_room hdir hnew.2) hfull
        obtain ⟨hstored, hrenames⟩ := h.takeSlot hnew.1 hno hidle hclean
        exact ⟨_, _, _, heq, hstored, hrenames⟩
    · obtain ⟨fs', heq, hidle, _⟩ := createBox_fails pipe h.idle hp hnew
      exact ⟨_, _, st, heq, h.setFs hidle, renames_setFs s.server fs'⟩
  | remove pipe box =>
    by_cases hp : HasPath s.server.fs box.name
    · obtain ⟨fs', heq, hidle⟩ := removeBox_removed pipe h.idle hp
      obtain ⟨hstored, hrenames⟩ := h.freeSlot ((hasPath_iff h.idle.refines).mp hp) hidle
      exact ⟨_, _, _, heq, hstored, hrenames⟩
    · obtain ⟨fs', heq, hidle, _⟩ := removeBox_absent pipe h.idle hp
      exact ⟨_, _, st, heq, h.setFs hidle, renames_setFs s.server fs'⟩

theorem names_modifyBox (i : Nat) {f : Box → Box}
    (hname : (f (srv.boxes i)).name = (srv.boxes i).name) :
    (srv.modifyBox i f).names = srv.names := by
  funext j
  by_cases hj : j = i
  · subst hj
    exact (names_setBox_self _ _ _).trans hname
  · exact names_setBox_of_ne _ _ hj

/-- A change of one slot that keeps its name and `size`. -/
theorem Stored.modifyBox (h : Stored srv st) (i : Nat) {f : Box → Box}
    (hname : ∀ b, (f b).name = b.name) (hsize : ∀ b, (f b).size = b.size) :
    Stored (srv.modifyBox i f) st := by
  have hnames := names_modifyBox i (hname (srv.boxes i))
  have hsizes : ∀ j, ((srv.modifyBox i f).boxes j).size = (srv.boxes j).size := by
    intro j
    by_cases hj : j = i
    · subst hj
      rw [Server.modifyBox, Server.setBox_boxes, Function.update_self, hsize]
    · rw [Server.modifyBox, Server.setBox_boxes, Function.update_of_ne hj]
  refine ⟨h.idle, ?_, ?_, ?_⟩
  · rw [hnames]
    exact h.present
  · rw [hnames]
    exact h.unique
  · intro j hj hne
    rw [hnames] at hne ⊢
    rw [hsizes]
    exact h.size j hj hne

/-- Bytes that are appended to the file of a slot and added to its `size`. -/
theorem Stored.append {i : Nat} (h : Stored srv st) (bs : List UInt8) (hi : i < srv.maxSessions)
    (hne : srv.names i ≠ .empty)
    (hidle : Idle fs (st.setContents (srv.names i).tail (st.contents (srv.names i).tail ++ bs))) :
    Stored ((srv.setFs fs).modifyBox i fun b => { b with size := b.size + .ofNat bs.length })
      (st.setContents (srv.names i).tail (st.contents (srv.names i).tail ++ bs)) := by
  have hnames : ((srv.setFs fs).modifyBox i fun b =>
      { b with size := b.size + .ofNat bs.length }).names = srv.names :=
    names_modifyBox i rfl
  refine ⟨hidle, ?_, ?_, ?_⟩
  · rw [hnames]
    exact h.present
  · rw [hnames]
    exact h.unique
  · intro j hj hnej
    rw [hnames] at hnej ⊢
    by_cases hji : j = i
    · subst hji
      show (Function.update srv.boxes j { srv.boxes j with
        size := (srv.boxes j).size + .ofNat bs.length } j).size =
          .ofNat (Function.update st.contents _ _ _).length
      rw [Function.update_self, Function.update_self, List.length_append, UInt64.ofNat_add]
      exact congrArg (· + _) (h.size j hj hne)
    · have ht := h.tail_ne hj hnej (h.present i hi hne).1
        fun heq => hji (h.unique j hj i hi hnej heq)
      show (Function.update srv.boxes i _ j).size =
          .ofNat (Function.update st.contents _ _ _).length
      rw [Function.update_of_ne hji, Function.update_of_ne ht]
      exact h.size j hj hnej

/-- A file that is not full takes a part of every message. -/
theorem Stored.fitting_ne_nil (h : Stored srv st) (hmem : p.tail ∈ st.names) (text : Text)
    (hsize : ¬ FileSize srv.fs p tfsDefaultParams.blockSize) :
    fitting (st.contents p.tail) text ≠ [] := by
  intro hnil
  have hlen := congrArg List.length hnil
  rw [fitting, List.length_take, length_payload, List.length_nil] at hlen
  have hle := (h.idle.refines.storeBounds _ hmem).2.2
  obtain ⟨j, k, he⟩ := h.idle.refines.files.names.mp hmem
  refine hsize ⟨j, k, he, ?_⟩
  rw [← h.idle.refines.length_contents he]
  omega

/-! ### The sessions of the slots -/

/-- A change of the figure that counts the sessions of a kind. -/
def Role.bump (f : UInt64 → UInt64) : Role → Box → Box
  | publisher, b => { b with nPublishers := f b.nPublishers }
  | subscriber, b => { b with nSubscribers := f b.nSubscribers }

variable {role role' : Role} {f : UInt64 → UInt64} {b : Box}

@[simp] theorem name_bump : (role.bump f b).name = b.name := by
  cases role <;> rfl

@[simp] theorem size_bump : (role.bump f b).size = b.size := by
  cases role <;> rfl

@[simp] theorem figure_bump : role.figure (role.bump f b) = f (role.figure b) := by
  cases role <;> rfl

theorem figure_bump_of_ne (h : role' ≠ role) : role'.figure (role.bump f b) = role'.figure b := by
  cases role <;> cases role' <;> first | rfl | exact absurd rfl h

/-- The session is of that kind and its box was in that slot. -/
def Session.isOn (role : Role) (i : Nat) (ses : Session) : Bool :=
  role = ses.role ∧ i = ses.entry.index

theorem figure_modifyBox (srv : Server) (j i : Nat) :
    role'.figure ((srv.modifyBox j (role.bump f)).boxes i) =
      if role' = role ∧ i = j then f (role'.figure (srv.boxes i))
      else role'.figure (srv.boxes i) := by
  by_cases hi : i = j
  · subst hi
    rw [Server.modifyBox, Server.setBox_boxes, Function.update_self]
    by_cases hrole : role' = role
    · subst hrole
      rw [figure_bump, if_pos ⟨rfl, rfl⟩]
    · rw [figure_bump_of_ne hrole, if_neg fun h => hrole h.1]
  · rw [Server.modifyBox, Server.setBox_boxes, Function.update_of_ne hi, if_neg fun h => hi h.2]

namespace BrokerState

variable {s : BrokerState} {t i : Nat} {ses : Session}

/-- The number of live sessions of a kind with the index of a slot, whatever their box. -/
def onSlot (s : BrokerState) (role : Role) (i : Nat) : Nat :=
  tally (Session.isOn role i) s.workers s.server.maxSessions

/-- A session is on the box of its slot while the slot has a name. -/
structure OnItsBox (s : BrokerState) (t : Nat) (ses : Session) : Prop where
  worker : t < s.server.maxSessions
  index : ses.entry.index < s.server.maxSessions
  current : s.server.names ses.entry.index ≠ .empty →
    s.server.names ses.entry.index = ses.entry.box.name ∧ ses.birth = s.births ses.entry.index

/-- The figures count the sessions with the index of the slot. -/
structure Counted (s : BrokerState) : Prop where
  figure : ∀ role : Role, ∀ i < s.server.maxSessions,
    role.figure (s.server.boxes i) = .ofNat (s.onSlot role i)
  session : ∀ {t ses}, s.workers t = some ses → s.OnItsBox t ses

theorem toNat_onSlot (hmax : s.server.maxSessions ≤ intMax) (role : Role) (i : Nat) :
    (UInt64.ofNat (s.onSlot role i)).toNat = s.onSlot role i := by
  apply UInt64.toNat_ofNat_of_lt'
  have hle := tally_le (Session.isOn role i) s.workers s.server.maxSessions
  calc s.onSlot role i ≤ intMax := hle.trans hmax
    _ < UInt64.size := by decide

/-- A slot with a session has a figure that is not zero. -/
theorem Counted.figure_ne_zero (h : s.Counted) (hmax : s.server.maxSessions ≤ intMax)
    (ht : s.workers t = some ses) : ses.role.figure (s.server.boxes ses.entry.index) ≠ 0 := by
  intro hzero
  rw [h.figure _ _ (h.session ht).index] at hzero
  have hpos : 0 < s.onSlot ses.role ses.entry.index :=
    tally_pos (h.session ht).worker ht (by simp [Session.isOn])
  rw [← toNat_onSlot hmax, hzero] at hpos
  exact absurd hpos (by decide)

/-- While a slot has a name, its sessions are those of its box. -/
theorem Counted.attached_eq (h : s.Counted) (hne : s.server.names i ≠ .empty) (role : Role) :
    s.attached role i = s.onSlot role i := by
  apply tally_congr
  intro t _ ses ht
  by_cases hi : i = ses.entry.index
  · subst hi
    simp [Session.isOn, ((h.session ht).current hne).2, eq_comm]
  · simp [Session.isOn, hi, Ne.symm hi]

theorem Counted.setBoxes {srv : Server} (h : s.Counted) (hmax : s.server.maxSessions ≤ intMax)
    (hr : Renames s.server srv) : (s.setBoxes srv).Counted := by
  constructor
  · intro role i hi
    show role.figure (srv.boxes i) = .ofNat (tally _ _ srv.maxSessions)
    rw [hr.figure, hr.maxSessions]
    exact h.figure role i (hr.maxSessions ▸ hi)
  · intro t ses ht
    obtain ⟨hworker, hindex, hcurrent⟩ := h.session ht
    refine ⟨hr.maxSessions ▸ hworker, hr.maxSessions ▸ hindex, fun hne => ?_⟩
    rcases hr.names ses.entry.index with hsame | hempty | hzero
    · obtain ⟨hname, hbirth⟩ := hcurrent (hsame ▸ hne)
      refine ⟨hsame.trans hname, ?_⟩
      show _ = if srv.names ses.entry.index = s.server.names ses.entry.index then _ else _
      rw [if_pos hsame]
      exact hbirth
    · exact absurd hempty hne
    · -- a slot with a session does not get a new name
      exact absurd (hzero ses.role) (h.figure_ne_zero hmax ht)

/-- The names stay and one worker changes. -/
theorem Counted.update {srv : Server} {new : Option Session} (h : s.Counted)
    (hmax : srv.maxSessions = s.server.maxSessions) (hnames : srv.names = s.server.names)
    (hnew : ∀ ses, new = some ses → s.OnItsBox t ses)
    (hfigure : ∀ role : Role, ∀ i < s.server.maxSessions, role.figure (srv.boxes i) =
      .ofNat (tally (Session.isOn role i) (Function.update s.workers t new) s.server.maxSessions)) :
    ((s.setServer srv).setWorker t new).Counted := by
  constructor
  · intro role i hi
    show role.figure (srv.boxes i) = .ofNat (tally _ _ srv.maxSessions)
    rw [hmax]
    exact hfigure role i (hmax ▸ hi)
  · intro u ses hu
    change Function.update s.workers t new u = some ses at hu
    have hon : s.OnItsBox u ses := by
      obtain ⟨rfl, hses⟩ | ⟨_, hold⟩ := update_apply_eq_iff.mp hu
      · exact hnew ses hses
      · exact h.session hold
    exact ⟨hmax ▸ hon.worker, hmax ▸ hon.index, fun hne => hnames ▸ hon.current (hnames ▸ hne)⟩

theorem Counted.setFs (h : s.Counted) (fs : Fs) :
    (s.setServer (s.server.setFs fs)).Counted := by
  refine ⟨h.figure, ?_⟩
  intro t ses ht
  obtain ⟨hworker, hindex, hcurrent⟩ := h.session ht
  exact ⟨hworker, hindex, hcurrent⟩

/-- A session that goes on. -/
theorem Counted.goesOn {srv : Server} (h : s.Counted) (ht : s.workers t = some ses)
    (bytesProcessed : Nat) (hmax : srv.maxSessions = s.server.maxSessions)
    (hnames : srv.names = s.server.names)
    (hfigure : ∀ role : Role, ∀ i, role.figure (srv.boxes i) = role.figure (s.server.boxes i)) :
    ((s.setServer srv).setWorker t
      (some ⟨ses.role, ses.entry, ses.birth, bytesProcessed⟩)).Counted := by
  refine h.update hmax hnames ?_ ?_
  · intro ses' heq
    obtain ⟨hworker, hindex, hcurrent⟩ := h.session ht
    cases heq
    exact ⟨hworker, hindex, hcurrent⟩
  · intro role i hi
    rw [hfigure, tally_update_same, h.figure role i hi]
    · rfl
    · rw [ht]
      rfl

/-- A session that ends and counts itself out. -/
theorem Counted.ends (h : s.Counted) (ht : s.workers t = some ses) (fs : Fs) :
    ((s.setServer ((s.server.setFs fs).modifyBox ses.entry.index
      (ses.role.bump (· - 1)))).setWorker t none).Counted := by
  refine h.update rfl (names_modifyBox _ name_bump) nofun ?_
  intro role i hi
  rw [figure_modifyBox, Server.setFs_boxes, h.figure role i hi, onSlot]
  by_cases hon : role = ses.role ∧ i = ses.entry.index
  · rw [if_pos hon, tally_update_none (h.session ht).worker ht (decide_eq_true hon),
      UInt64.ofNat_add]
    exact UInt64.add_sub_cancel _ _
  · rw [if_neg hon, tally_update_same]
    rw [ht]
    exact (decide_eq_false hon).symm

/-- A session that starts and counts itself. -/
theorem Counted.starts {box : BoxName} (h : s.Counted) (hfree : s.workers t = none)
    (ht : t < s.server.maxSessions) (hi : i < s.server.maxSessions)
    (hname : s.server.names i = box.name) (fs : Fs) (role : Role) :
    ((s.setServer ((s.server.setFs fs).modifyBox i (role.bump (· + 1)))).setWorker t
      (some ⟨role, ⟨box, i⟩, s.births i, 0⟩)).Counted := by
  refine h.update rfl (names_modifyBox _ name_bump) ?_ ?_
  · intro ses heq
    cases heq
    exact ⟨ht, hi, fun _ => ⟨hname, rfl⟩⟩
  · intro role' j hj
    rw [figure_modifyBox, Server.setFs_boxes, h.figure role' j hj, onSlot]
    by_cases hon : role' = role ∧ j = i
    · rw [if_pos hon, tally_update_some ht hfree (decide_eq_true hon), UInt64.ofNat_add]
      rfl
    · rw [if_neg hon, tally_update_same]
      rw [hfree]
      exact decide_eq_false hon

/-! ### Steps -/

variable {s' : BrokerState}

structure Inv (s : BrokerState) : Prop where
  small : s.server.maxSessions ≤ intMax
  counted : s.Counted
  stored : ∃ st, Stored s.server st

theorem Inv.ownFigures (h : s.Inv) : OwnFigures s := by
  obtain ⟨st, hst⟩ := h.stored
  intro i hi hne
  constructor
  · obtain ⟨_, hmem⟩ := hst.present i hi hne
    obtain ⟨j, k, he⟩ := hst.idle.refines.files.names.mp hmem
    refine ⟨j, k, he, ?_⟩
    have hlen := hst.idle.refines.length_contents he
    have hle := (hst.idle.refines.storeBounds _ hmem).2.2
    rw [hst.size i hi hne, UInt64.toNat_ofNat_of_lt', ← hlen]
    calc (st.contents (s.server.names i).tail).length ≤ tfsDefaultParams.blockSize := hle
      _ < UInt64.size := by decide
  · intro role
    rw [h.counted.attached_eq hne, h.counted.figure role i hi, toNat_onSlot h.small]

/-- What the beginning of a session does while no handle is open. -/
theorem attach_outcome (h : Idle srv.fs st) (refused : Box → Bool) (count : Box → Box)
    (box : BoxName) :
    ∃ fs', Idle fs' st ∧ (Broker.attach refused count srv box = .ok (none, srv.setFs fs') ∨
      HasPath srv.fs box.name ∧ ∃ i, srv.findBox box.name = some i ∧
        Broker.attach refused count srv box = .ok (some i, (srv.setFs fs').modifyBox i count)) := by
  by_cases hp : HasPath srv.fs box.name
  · obtain ⟨fs', heq, hidle⟩ := registerEntry_existing h hp
    refine ⟨fs', hidle, ?_⟩
    cases hf : srv.findBox box.name with
    | none =>
      rw [hf] at heq
      apply Or.inl
      simp only [Broker.attach, heq, ok_bind]
      rfl
    | some i =>
      rw [hf] at heq
      have hattach : Broker.attach refused count srv box =
          if refused (srv.boxes i) then .ok (none, srv.setFs fs')
          else .ok (some i, (srv.setFs fs').modifyBox i count) := by
        simp only [Broker.attach, heq, ok_bind]
        rfl
      rw [hattach]
      by_cases hr : refused (srv.boxes i) = true
      · exact Or.inl (if_pos hr)
      · exact Or.inr ⟨hp, i, rfl, if_neg hr⟩
  · obtain ⟨fs', heq, hidle⟩ := registerEntry_absent h hp
    refine ⟨fs', hidle, Or.inl ?_⟩
    simp only [Broker.attach, heq, ok_bind]
    rfl

theorem start_outcome (h : Idle srv.fs st) (role : Role) (box : BoxName) :
    ∃ fs', Idle fs' st ∧ (role.start srv box = .ok (none, srv.setFs fs') ∨
      HasPath srv.fs box.name ∧ ∃ i, srv.findBox box.name = some i ∧
        role.start srv box = .ok (some i, (srv.setFs fs').modifyBox i (role.bump (· + 1)))) := by
  cases role with
  | publisher =>
    exact attach_outcome h (fun b => b.nPublishers == 1) (Role.publisher.bump (· + 1)) box
  | subscriber => exact attach_outcome h (fun _ => false) (Role.subscriber.bump (· + 1)) box

/-- What a step of a worker does while no handle is open. -/
inductive Iterates (s : BrokerState) (st : FileStore CString) : BrokerLabel → BrokerState → Prop
  | refused (role : Role) (t : Nat) (box : BoxName) (fs : Fs) :
      Idle fs st → Iterates s st (.attach role t box) (s.setServer (s.server.setFs fs))
  | starts (role : Role) (t i : Nat) (box : BoxName) (fs : Fs) :
      t < s.server.maxSessions → s.workers t = none → HasPath s.server.fs box.name →
      s.server.findBox box.name = some i → Idle fs st →
      Iterates s st (.attach role t box)
        ((s.setServer ((s.server.setFs fs).modifyBox i (role.bump (· + 1)))).setWorker t
          (some ⟨role, ⟨box, i⟩, s.births i, 0⟩))
  | writes (t : Nat) (text : Text) (ses : Session) (fs : Fs) :
      s.workers t = some ses → HasPath s.server.fs ses.entry.box.name →
      Idle fs (st.setContents ses.entry.box.name.tail (st.contents ses.entry.box.name.tail ++
        fitting (st.contents ses.entry.box.name.tail) text)) →
      Iterates s st (.publish t text)
        ((s.setServer ((s.server.setFs fs).modifyBox ses.entry.index fun b => { b with
          size := b.size + .ofNat
            (fitting (st.contents ses.entry.box.name.tail) text).length })).setWorker t (some ses))
  | fails (t : Nat) (text : Text) (ses : Session) (fs : Fs) :
      s.workers t = some ses → HasPath s.server.fs ses.entry.box.name →
      fitting (st.contents ses.entry.box.name.tail) text = [] → Idle fs st →
      Iterates s st (.publish t text) ((s.setServer (s.server.setFs fs)).setWorker t none)
  | scans (t : Nat) (stale : List UInt8) (ses : Session) (bytesProcessed : Nat) (fs : Fs) :
      s.workers t = some ses → Idle fs st →
      Iterates s st (.poll t stale false) ((s.setServer (s.server.setFs fs)).setWorker t
        (some ⟨ses.role, ses.entry, ses.birth, bytesProcessed⟩))
  | ends (l : BrokerLabel) (t : Nat) (ses : Session) (fs : Fs) :
      s.workers t = some ses → Idle fs st →
      Iterates s st l ((s.setServer ((s.server.setFs fs).modifyBox ses.entry.index
        (ses.role.bump (· - 1)))).setWorker t none)

/-- Every step but a request is one of a worker. -/
theorem iterates_of_step {l : BrokerLabel} (h : Idle s.server.fs st)
    (hl : ∀ req, l ≠ .request req) (hs : s.step l = some s') : Iterates s st l s' := by
  cases l with
  | request req => exact absurd rfl (hl req)
  | attach role t box =>
    obtain ⟨hguard, hs⟩ := Option.ite_none_right_eq_some.mp hs
    obtain ⟨fs, hidle, heq | ⟨hp, i, hf, heq⟩⟩ := start_outcome h role box
    · simp only [heq, Option.some.injEq] at hs
      subst hs
      exact .refused role t box fs hidle
    · simp only [heq, Option.some.injEq] at hs
      subst hs
      have hfree := Option.isNone_iff_eq_none.mp hguard.2
      exact .starts role t i box fs hguard.1 hfree hp hf hidle
  | publish t text =>
    simp only [step] at hs
    split at hs
    · next e birth bytesProcessed ht =>
      by_cases hp : HasPath s.server.fs e.box.name
      · by_cases hroom : fitting (st.contents e.box.name.tail) text = []
        · obtain ⟨fs, heq, hidle⟩ := publish_full h hp e.index text hroom
          rw [heq] at hs
          cases hs
          exact .fails t text _ fs ht hp hroom hidle
        · obtain ⟨fs, heq, hidle⟩ := publish_written h hp e.index text hroom
          rw [heq] at hs
          cases hs
          exact .writes t text _ fs ht hp hidle
      · obtain ⟨fs, heq, hidle⟩ := publish_removed h hp e.index text
        rw [heq] at hs
        cases hs
        exact .ends _ t _ fs ht hidle
    · cases hs
  | leave t =>
    simp only [step] at hs
    split at hs
    · next e birth bytesProcessed ht =>
      cases hs
      exact .ends _ t _ s.server.fs ht h
    · cases hs
  | poll t stale clientGone =>
    simp only [step] at hs
    split at hs
    · next e birth bytesProcessed ht =>
      by_cases hp : HasPath s.server.fs e.box.name
      · cases clientGone with
        | true =>
          obtain ⟨fs, heq, hidle⟩ := poll_clientGone h hp e.index bytesProcessed stale
          rw [heq] at hs
          cases hs
          exact .ends _ t _ fs ht hidle
        | false =>
          obtain ⟨fs, heq, hidle⟩ := poll_goesOn h hp e.index bytesProcessed stale
          rw [heq] at hs
          cases hs
          exact .scans t stale _ _ fs ht hidle
      · obtain ⟨fs, heq, hidle⟩ := poll_removed h hp e.index bytesProcessed stale clientGone
        rw [heq] at hs
        cases hs
        exact .ends _ t _ fs ht hidle
    · cases hs

theorem Inv.request (h : s.Inv) (req : BoxRequest) (hok : Tidy s (.request req)) :
    ∃ s', s.step (.request req) = some s' ∧ s'.Inv := by
  obtain ⟨st, hst⟩ := h.stored
  obtain ⟨answer, srv, st', heq, hstored, hrenames⟩ := hst.handle req hok
  refine ⟨s.setBoxes srv, ?_, ?_, h.counted.setBoxes h.small hrenames, st', hstored⟩
  · simp only [step, heq]
  · exact hrenames.maxSessions.trans_le h.small

theorem Inv.iterates {l : BrokerLabel} (h : s.Inv) (hst : Stored s.server st) (hok : Tidy s l)
    (hi : Iterates s st l s') : s'.Inv := by
  cases hi with
  | refused role t box fs hidle => exact ⟨h.small, h.counted.setFs fs, st, hst.setFs hidle⟩
  | starts role t i box fs ht hfree hp hf hidle =>
    obtain ⟨hi, hname⟩ := Server.findBox_eq_some hf
    refine ⟨h.small, h.counted.starts hfree ht hi hname fs role, st, ?_⟩
    exact (hst.setFs hidle).modifyBox _ (fun _ => name_bump) fun _ => size_bump
  | writes t text ses fs ht hp hidle =>
    obtain ⟨hname, _⟩ := hok _ ht hp
    obtain ⟨hv, _⟩ := (hasPath_iff hst.idle.refines).mp hp
    have hnames : s.server.names ses.entry.index = ses.entry.box.name := hname
    rw [← hnames] at hv hidle ⊢
    have happend := hst.append _ (h.counted.session ht).index (ne_empty_of_valid hv) hidle
    refine ⟨h.small, ?_, _, happend⟩
    refine h.counted.goesOn ht ses.bytesProcessed rfl (names_modifyBox _ rfl) ?_
    exact fun role i => figure_setBox _ ses.entry.index i role (by cases role <;> rfl)
  | fails t text ses fs ht hp hfull hidle =>
    -- a message is published only to a file that is not full
    obtain ⟨_, hsize⟩ := hok _ ht hp
    obtain ⟨_, hmem⟩ := (hasPath_iff hst.idle.refines).mp hp
    exact absurd hfull (hst.fitting_ne_nil hmem text hsize)
  | scans t stale ses bytesProcessed fs ht hidle =>
    refine ⟨h.small, ?_, st, hst.setFs hidle⟩
    exact h.counted.goesOn ht _ rfl rfl fun _ _ => rfl
  | ends l t ses fs ht hidle =>
    refine ⟨h.small, h.counted.ends ht fs, st, ?_⟩
    exact (hst.setFs hidle).modifyBox _ (fun _ => name_bump) fun _ => size_bump

theorem Inv.step (h : s.Inv) (a : BrokerLabel) (hok : Tidy s a) (hs : s.step a = some s') :
    s'.Inv := by
  obtain ⟨st, hst⟩ := h.stored
  cases a with
  | request req =>
    obtain ⟨s'', heq, hinv⟩ := h.request req hok
    rw [heq] at hs
    exact Option.some.inj hs ▸ hinv
  | _ => exact h.iterates hst hok (iterates_of_step hst.idle (by simp) hs)

theorem inv_initial {fs₀ : Fs} {malloc : Malloc} {maxSessions : Nat} (hmax : maxSessions ≤ intMax)
    (hinit : initServer fs₀ malloc maxSessions = .ok (0, srv)) : (initial srv).Inv := by
  obtain ⟨hidle, _, hsessions, hboxes⟩ := initServer_ok hinit
  have hfree : ∀ i, srv.names i = .empty := fun i => congrArg Box.name (hboxes i)
  refine ⟨?_, ⟨?_, nofun⟩, FileStore.empty, hidle, ?_, ?_, ?_⟩
  · exact hsessions.trans_le hmax
  · intro role i _
    have hnone : (initial srv).onSlot role i = 0 := by
      simp [onSlot, tally, indices, initial]
    rw [hnone]
    show role.figure (srv.boxes i) = 0
    rw [hboxes i]
    cases role <;> rfl
  · intro i _ hne
    exact absurd (hfree i) hne
  · intro i _ j _ hne
    exact absurd (hfree i) hne
  · intro i _ hne
    exact absurd (hfree i) hne

end BrokerState

/-- From a new broker, in every run in which a box is created only in a slot with figures that
are zero, and a message is published only while the slot of the session has the name of its box,
or no file has it, and the file is not full, the figures of every slot are those of its box. -/
theorem ownFigures_of_reaches {fs₀ : Fs} {malloc : Malloc} {maxSessions : Nat}
    {s : BrokerState} (hinit : initServer fs₀ malloc maxSessions = .ok (0, srv))
    (hmax : maxSessions ≤ intMax)
    (hr : Reaches BrokerState.step Tidy (.initial srv) s) : OwnFigures s :=
  BrokerState.Inv.ownFigures (hr.invariant (BrokerState.inv_initial hmax hinit)
    fun _ a _ hu hok hs => hu.step a hok hs)

/-- A box with a publisher and a subscriber. -/
def attachBoth : List BrokerLabel :=
  [.request (.create pipeM boxA), .attach .publisher 0 boxA, .attach .subscriber 1 boxA]

/-- A box is removed under its publisher, and another one is created in its slot, both by the
second worker. -/
def reuseSlot : List BrokerLabel :=
  [.request (.create pipeM boxA), .attach .publisher 0 boxA, .request (.remove pipeM boxA),
    .request (.create pipeM boxB)]

theorem run_attachBoth :
    (runLabels BrokerState.step (.initial (startedServer 2)) attachBoth).isSome = true := by
  decide +kernel

theorem attachBoth_ownFigures :
    ∃ srv s, initServer uninitialized (.granted zeroHeap) 2 = .ok (0, srv) ∧
      runLabels BrokerState.step (.initial srv) attachBoth = some s ∧ OwnFigures s := by
  obtain ⟨s, hs⟩ := Option.isSome_iff_exists.mp run_attachBoth
  obtain ⟨s₁, hcreate, hrest⟩ := Option.bind_eq_some_iff.mp hs
  -- the figures of a new broker are zero
  have htidy : Tidy (.initial (startedServer 2)) (.request (.create pipeM boxA)) := by
    intro _ _ _ _ i _
    refine ⟨rfl, fun role => ?_⟩
    cases role <;> rfl
  have hreach : Reaches BrokerState.step Tidy s₁ s :=
    reaches_of_admitted hrest (by simp [Tidy])
  refine ⟨_, s, initServer_started 2, hs, ?_⟩
  exact ownFigures_of_reaches (initServer_started 2) (by decide)
    (((Reaches.refl _).snoc _ htidy hcreate).trans hreach)

/-- The slots, the name of slot 0, its figure of publishers and the publishers of its box. -/
theorem run_reuseSlot :
    (runLabels BrokerState.step (.initial (startedServer 2)) reuseSlot).map (fun s =>
      (s.server.maxSessions, (s.server.boxes 0).name, (s.server.boxes 0).nPublishers,
        s.attached .publisher 0)) = some (2, boxB.name, 1, 0) := by
  decide +kernel

theorem reuseSlot_not_ownFigures :
    ∃ srv s, initServer uninitialized (.granted zeroHeap) 2 = .ok (0, srv) ∧
      runLabels BrokerState.step (.initial srv) reuseSlot = some s ∧ ¬ OwnFigures s := by
  obtain ⟨s, hs, hrun⟩ := Option.map_eq_some_iff.mp run_reuseSlot
  simp only [Prod.mk.injEq] at hrun
  obtain ⟨hmax, hname, hfigure, hattached⟩ := hrun
  refine ⟨_, s, initServer_started 2, hs, ?_⟩
  intro hown
  have hne : (s.server.boxes 0).name ≠ .empty := by
    rw [hname]
    decide
  have hone := (hown 0 (by omega) hne).2 .publisher
  rw [Role.figure, hfigure, hattached] at hone
  exact absurd hone (by decide)

end MessageBroker.Broker
