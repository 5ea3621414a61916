import MessageBroker.Broker.Boxes
import MessageBroker.Broker.Publish

/-!
# Publisher sessions

`start_publisher` with its sessions interleaved at the calls that it makes. A
session that finds `n_publishers` different from `1` counts itself only after it
has opened, answered and closed the client pipe. At most one session is active on
a box in runs in which a session makes the test while no other one is between its
own test and its increment.
-/

namespace MessageBroker.Broker

open Bytes Table Transition Tfs Tfs.Fs

/-- The box of a session and the index that `register_entry` returned. -/
structure Attachment where
  box : BoxName
  index : Nat
deriving DecidableEq

/-- Where a session stands in `start_publisher`. -/
inductive PublisherPc
  | idle
  | registered (entry : Attachment)
  | tested (entry : Attachment)
  | opened (entry : Attachment)
  | replied (entry : Attachment)
  | closed (entry : Attachment)
  | counted (entry : Attachment)
  | reading (entry : Attachment)
  | ended
deriving DecidableEq

structure PublisherState where
  server : Server
  sessions : Nat → PublisherPc

def PublisherState.initial (srv : Server) : PublisherState := ⟨srv, fun _ => .idle⟩

/-- The calls of session `t`; `ok` tells whether an operation on the client pipe succeeds. -/
inductive PublisherLabel
  | registerEntry (t : Nat) (box : BoxName)
  | test (t : Nat)
  | openReply (t : Nat) (ok : Bool)
  | replyOk (t : Nat) (ok : Bool)
  | closeReply (t : Nat) (ok : Bool)
  | increment (t : Nat)
  | openRead (t : Nat) (ok : Bool)
  | readMessage (t : Nat) (text : Text)
  | readEnd (t : Nat)
  | readError (t : Nat)

namespace PublisherState

def setPc (s : PublisherState) (t : Nat) (pc : PublisherPc) : PublisherState :=
  { s with sessions := Function.update s.sessions t pc }

/-- A pipe operation: go on if it succeeds, else the session returns. -/
def afterPipe (s : PublisherState) (t : Nat) (ok : Bool) (pc : PublisherPc) : PublisherState :=
  s.setPc t (if ok then pc else .ended)

def step (s : PublisherState) : PublisherLabel → Option PublisherState
  | .registerEntry t box =>
    match s.sessions t, Broker.registerEntry s.server box with
    | .idle, .ok (index, srv) =>
      some ({ s with server := srv }.setPc t
        (if index < 0 then .ended else .registered ⟨box, index.toNat⟩))
    | _, _ => none
  | .test t =>
    match s.sessions t with
    | .registered e =>
      some (s.setPc t (if (s.server.boxes e.index).nPublishers = 1 then .ended else .tested e))
    | _ => none
  | .openReply t ok =>
    match s.sessions t with
    | .tested e => some (s.afterPipe t ok (.opened e))
    | _ => none
  | .replyOk t ok =>
    match s.sessions t with
    | .opened e => some (s.afterPipe t ok (.replied e))
    | _ => none
  | .closeReply t ok =>
    match s.sessions t with
    | .replied e => some (s.afterPipe t ok (.closed e))
    | _ => none
  | .increment t =>
    match s.sessions t with
    | .closed e =>
      some ({ s with server := s.server.modifyBox e.index fun b =>
        { b with nPublishers := b.nPublishers + 1 } }.setPc t (.counted e))
    | _ => none
  | .openRead t ok =>
    match s.sessions t with
    | .counted e => some (s.afterPipe t ok (.reading e))
    | _ => none
  | .readMessage t text =>
    match s.sessions t with
    | .reading e =>
      match publish s.server e.index e.box text with
      | .ok (goesOn, srv) =>
        some ({ s with server := srv }.setPc t (if goesOn then .reading e else .ended))
      | .error _ => none
    | _ => none
  | .readEnd t =>
    match s.sessions t with
    | .reading e =>
      some ({ s with server := s.server.modifyBox e.index fun b =>
        { b with nPublishers := b.nPublishers - 1 } }.setPc t .ended)
    | _ => none
  | .readError t =>
    match s.sessions t with
    | .reading _ => some (s.setPc t .ended)
    | _ => none

end PublisherState

/-- The session has been answered `OK` for the box in slot `i` and has not ended. -/
def PublisherPc.ActiveOn (i : Nat) : PublisherPc → Prop
  | .replied e | .closed e | .counted e | .reading e => e.index = i
  | _ => False

/-- The session has passed its test for the box in slot `i` and has not counted itself yet. -/
def PublisherPc.PendingOn (i : Nat) : PublisherPc → Prop
  | .tested e | .opened e | .replied e | .closed e => e.index = i
  | _ => False

/-- A session makes its test while no session is between its own test and its increment on the
same box. -/
def TestsAlone (s : PublisherState) : PublisherLabel → Prop
  | .test t => ∀ e, s.sessions t = .registered e → ∀ t', ¬ (s.sessions t').PendingOn e.index
  | _ => True

/-- At most one session is active on each box. -/
def AtMostOne (s : PublisherState) : Prop :=
  ∀ t t' i, (s.sessions t).ActiveOn i → (s.sessions t').ActiveOn i → t = t'

/-! ### Counting in and out -/

/-- What the other sessions see of a session: it has passed its test for a slot, and it may be
counted there. -/
inductive Stage
  | pending
  | counted

/-- The counter of a slot whose session is at a stage. -/
def Stage.count : Stage → UInt64
  | pending => 0
  | counted => 1

/-- At most one session has passed its test for each slot, and the counter of the slot tells
whether that session is counted. -/
structure Exclusive (stage : Nat → Option (Nat × Stage)) (count : Nat → UInt64) : Prop where
  unique : ∀ {t t' i g g'}, stage t = some (i, g) → stage t' = some (i, g') → t = t'
  value : ∀ {t i g}, stage t = some (i, g) → count i = g.count
  bit : ∀ i, count i = 0 ∨ count i = 1

section Exclusive

variable {stage : Nat → Option (Nat × Stage)} {count count' : Nat → UInt64} {t i : Nat} {g : Stage}

/-- One session changes its stage: no other session is on its new slot, and the counters of the
others' slots stay. -/
theorem Exclusive.update (h : Exclusive stage count) (new : Option (Nat × Stage))
    (alone : ∀ i g, new = some (i, g) → ∀ t' ≠ t, ∀ g', stage t' ≠ some (i, g'))
    (value : ∀ i g, new = some (i, g) → count' i = g.count)
    (others : ∀ t' ≠ t, ∀ i g, stage t' = some (i, g) → count' i = count i)
    (bit : ∀ i, count' i = 0 ∨ count' i = 1) :
    Exclusive (Function.update stage t new) count' := by
  refine ⟨?_, ?_, bit⟩
  · intro t₁ t₂ i g g' h₁ h₂
    obtain ⟨ht₁, hnew₁⟩ | ⟨ht₁, hold₁⟩ := update_apply_eq_iff.mp h₁ <;>
      obtain ⟨ht₂, hnew₂⟩ | ⟨ht₂, hold₂⟩ := update_apply_eq_iff.mp h₂
    · exact ht₁.trans ht₂.symm
    · exact absurd hold₂ (alone i g hnew₁ t₂ ht₂ g')
    · exact absurd hold₁ (alone i g' hnew₂ t₁ ht₁ g)
    · exact h.unique hold₁ hold₂
  · intro t₁ i g h₁
    obtain ⟨_, hnew⟩ | ⟨ht₁, hold⟩ := update_apply_eq_iff.mp h₁
    · exact value i g hnew
    · exact (others t₁ ht₁ i g hold).trans (h.value hold)

theorem Exclusive.leave (h : Exclusive stage count) (t : Nat) :
    Exclusive (Function.update stage t none) count :=
  h.update none nofun nofun (fun _ _ _ _ _ => rfl) h.bit

/-- A session passes its test while no session is pending on the slot. -/
theorem Exclusive.enter (h : Exclusive stage count) (t : Nat) (hi : count i ≠ 1)
    (hno : ∀ t', stage t' ≠ some (i, .pending)) :
    Exclusive (Function.update stage t (some (i, .pending))) count := by
  refine h.update _ ?_ ?_ (fun _ _ _ _ _ => rfl) h.bit
  · intro j g hj t' _ g' hg'
    cases hj
    cases g' with
    | pending => exact hno t' hg'
    | counted => exact hi (h.value hg')
  · intro j g hj
    cases hj
    exact (h.bit i).resolve_right hi

/-- The counter of a slot can follow the session that is on it. -/
theorem Exclusive.set (h : Exclusive stage count) (ht : stage t = some (i, g)) {g' : Stage}
    {new : Option (Nat × Stage)} (hnew : ∀ j g, new = some (j, g) → j = i ∧ g = g') :
    Exclusive (Function.update stage t new) (Function.update count i g'.count) := by
  refine h.update _ ?_ ?_ ?_ ?_
  · intro j g₁ hj t' hne g'' hg''
    obtain ⟨rfl, rfl⟩ := hnew j g₁ hj
    exact hne (h.unique hg'' ht)
  · intro j g₁ hj
    obtain ⟨rfl, rfl⟩ := hnew j g₁ hj
    exact Function.update_self _ _ _
  · intro t' hne j g₁ hj
    refine Function.update_of_ne ?_ _ _
    rintro rfl
    exact hne (h.unique hj ht)
  · intro j
    by_cases hj : j = i
    · subst hj
      rw [Function.update_self]
      cases g' with
      | pending => exact Or.inl rfl
      | counted => exact Or.inr rfl
    · rw [Function.update_of_ne hj]
      exact h.bit j

end Exclusive

/-! ### The steps of a session -/

variable {s s' : PublisherState} {srv srv' : Server} {t i : Nat} {g : Stage}

def PublisherPc.stage : PublisherPc → Option (Nat × Stage)
  | .tested e | .opened e | .replied e | .closed e => some (e.index, .pending)
  | .counted e | .reading e => some (e.index, .counted)
  | .idle | .registered _ | .ended => none

theorem stage_of_activeOn {pc : PublisherPc} (h : pc.ActiveOn i) :
    ∃ g, pc.stage = some (i, g) := by
  cases pc with
  | replied e | closed e => exact ⟨.pending, congrArg (fun j => some (j, Stage.pending)) h⟩
  | counted e | reading e => exact ⟨.counted, congrArg (fun j => some (j, Stage.counted)) h⟩
  | _ => exact absurd h id

theorem pendingOn_of_stage {pc : PublisherPc} (h : pc.stage = some (i, .pending)) :
    pc.PendingOn i := by
  cases pc with
  | tested e | opened e | replied e | closed e => exact congrArg Prod.fst (Option.some.inj h)
  | _ => cases h

/-- The counters of the slots. -/
def Server.publishers (srv : Server) (i : Nat) : UInt64 := (srv.boxes i).nPublishers

def PublisherState.Inv (s : PublisherState) : Prop :=
  Exclusive (fun t => (s.sessions t).stage) s.server.publishers

theorem PublisherState.Inv.atMostOne (h : s.Inv) : AtMostOne s := by
  intro t t' i ht ht'
  obtain ⟨g, hg⟩ := stage_of_activeOn ht
  obtain ⟨g', hg'⟩ := stage_of_activeOn ht'
  exact h.unique hg hg'

theorem stage_setPc (s : PublisherState) (t : Nat) (pc : PublisherPc) :
    (fun t' => ((s.setPc t pc).sessions t').stage) =
      Function.update (fun t' => (s.sessions t').stage) t pc.stage := by
  funext t'
  by_cases ht : t' = t
  · subst ht
    simp [PublisherState.setPc]
  · simp [PublisherState.setPc, Function.update_of_ne ht]

/-- A step that leaves the counters and the stage of its session, or ends the session. -/
theorem PublisherState.Inv.setPc (h : s.Inv) {pc : PublisherPc}
    (hsrv : srv.publishers = s.server.publishers)
    (hpc : pc.stage = (s.sessions t).stage ∨ pc.stage = none) :
    Inv ({ s with server := srv }.setPc t pc) := by
  unfold Inv
  rw [stage_setPc]
  show Exclusive (Function.update (fun t' => (s.sessions t').stage) t pc.stage) srv.publishers
  rw [hsrv]
  rcases hpc with hpc | hpc
  · rw [hpc, Function.update_eq_self]
    exact h
  · rw [hpc]
    exact Exclusive.leave h t

theorem PublisherState.Inv.afterPipe (h : s.Inv) (ok : Bool) {pc : PublisherPc}
    (hpc : pc.stage = (s.sessions t).stage) : Inv (s.afterPipe t ok pc) := by
  cases ok with
  | true => exact h.setPc rfl (Or.inl hpc)
  | false => exact h.setPc rfl (Or.inr rfl)

@[simp] theorem publishers_setFs (srv : Server) (fs : Fs) :
    (srv.setFs fs).publishers = srv.publishers := rfl

theorem publishers_modifyBox (srv : Server) (i : Nat) (f : Box → Box) :
    (srv.modifyBox i f).publishers =
      Function.update srv.publishers i (f (srv.boxes i)).nPublishers := by
  funext j
  by_cases hj : j = i
  · subst hj
    simp [Server.publishers, Server.modifyBox]
  · simp [Server.publishers, Server.modifyBox, Function.update_of_ne hj]

/-- A step that counts the session in or out of its slot. -/
theorem PublisherState.Inv.modifyBox (h : s.Inv) {f : Box → Box} (g' : Stage) {pc : PublisherPc}
    (ht : (s.sessions t).stage = some (i, g)) (hsrv : srv.boxes = s.server.boxes)
    (hf : (f (s.server.boxes i)).nPublishers = g'.count)
    (hpc : ∀ j g, pc.stage = some (j, g) → j = i ∧ g = g') :
    Inv ({ s with server := srv.modifyBox i f }.setPc t pc) := by
  unfold Inv
  rw [stage_setPc]
  show Exclusive (Function.update (fun t' => (s.sessions t').stage) t pc.stage)
    (srv.modifyBox i f).publishers
  rw [publishers_modifyBox, hsrv, hf]
  have hpub : srv.publishers = s.server.publishers := by
    funext j
    rw [Server.publishers, hsrv]
    rfl
  rw [hpub]
  exact Exclusive.set h ht hpc

theorem registerEntry_boxes {box : BoxName} {r : Int}
    (h : registerEntry srv box = .ok (r, srv')) : srv'.boxes = srv.boxes := by
  obtain ⟨⟨fhandle, fs⟩, _, h⟩ := bind_eq_ok.mp h
  by_cases hf : fhandle < 0
  · simp only [hf, if_true] at h
    cases h
    rfl
  · simp only [hf, if_false] at h
    obtain ⟨⟨closed, fs'⟩, _, h⟩ := bind_eq_ok.mp h
    by_cases hc : closed ≠ 0
    · simp only [hc, if_true, ne_eq, not_false_eq_true] at h
      cases h
      rfl
    · simp only [hc, if_false] at h
      split at h <;> cases h <;> rfl

/-- A message leaves the counters alone, unless the box was removed: then it counts the session
out and ends it. -/
theorem publish_publishers {box : BoxName} {text : Text} {goesOn : Bool}
    (h : publish srv i box text = .ok (goesOn, srv')) :
    srv'.publishers = srv.publishers ∨ goesOn = false ∧ ∃ srv₁ : Server, srv₁.boxes = srv.boxes ∧
      srv' = srv₁.modifyBox i fun b => { b with nPublishers := b.nPublishers - 1 } := by
  obtain ⟨⟨fhandle, fs⟩, _, h⟩ := bind_eq_ok.mp h
  by_cases hf : fhandle < 0
  · simp only [hf, if_true] at h
    cases h
    exact Or.inr ⟨rfl, srv.setFs fs, rfl, rfl⟩
  · simp only [hf, if_false] at h
    obtain ⟨⟨written, fs₁⟩, _, h⟩ := bind_eq_ok.mp h
    by_cases hw : written ≤ 0
    · simp only [hw, if_true] at h
      obtain ⟨⟨_, fs₂⟩, _, h⟩ := bind_eq_ok.mp h
      cases h
      exact Or.inl rfl
    · simp only [hw, if_false] at h
      obtain ⟨⟨closed, fs₂⟩, _, h⟩ := bind_eq_ok.mp h
      cases h
      apply Or.inl
      rw [publishers_setFs, publishers_modifyBox]
      exact Function.update_eq_self i srv.publishers

/-- A session that ends counts itself out. -/
theorem PublisherState.Inv.countOut (h : s.Inv) {e : Attachment}
    (ht : s.sessions t = .reading e) (hsrv : srv.boxes = s.server.boxes) :
    Inv ({ s with server := srv.modifyBox e.index fun b =>
      { b with nPublishers := b.nPublishers - 1 } }.setPc t .ended) := by
  have hstage : (s.sessions t).stage = some (e.index, .counted) := by
    rw [ht]
    rfl
  have hone : (s.server.boxes e.index).nPublishers = 1 := h.value hstage
  refine h.modifyBox .pending hstage hsrv ?_ nofun
  show (s.server.boxes e.index).nPublishers - 1 = 0
  rw [hone]
  rfl

/-- Every step in which no test is made while another session is pending keeps the invariant. -/
theorem PublisherState.Inv.step (h : s.Inv) (a : PublisherLabel) (hok : TestsAlone s a)
    (hs : s.step a = some s') : s'.Inv := by
  cases a with
  | registerEntry t box =>
    simp only [PublisherState.step] at hs
    split at hs
    · next srv index ht hreg =>
      cases hs
      have hboxes := registerEntry_boxes hreg
      refine h.setPc (funext fun j => congrArg Box.nPublishers (congrFun hboxes j)) ?_
      exact Or.inr (by split <;> rfl)
    · cases hs
  | test t =>
    simp only [PublisherState.step] at hs
    split at hs
    · next e ht =>
      cases hs
      by_cases hone : (s.server.boxes e.index).nPublishers = 1
      · rw [if_pos hone]
        exact h.setPc rfl (Or.inr rfl)
      · rw [if_neg hone]
        -- no other session is between its test and its increment
        have hno : ∀ t', (s.sessions t').stage ≠ some (e.index, .pending) := fun t' hp =>
          hok e ht t' (pendingOn_of_stage hp)
        unfold Inv
        rw [stage_setPc]
        exact Exclusive.enter h t hone hno
    · cases hs
  | openReply t ok | replyOk t ok | closeReply t ok | openRead t ok =>
    simp only [PublisherState.step] at hs
    split at hs
    · next e ht =>
      cases hs
      exact h.afterPipe ok (by rw [ht]; rfl)
    · cases hs
  | increment t =>
    simp only [PublisherState.step] at hs
    split at hs
    · next e ht =>
      cases hs
      have hstage : (s.sessions t).stage = some (e.index, .pending) := by
        rw [ht]
        rfl
      have hzero : (s.server.boxes e.index).nPublishers = 0 := h.value hstage
      refine h.modifyBox .counted hstage rfl ?_ ?_
      · show (s.server.boxes e.index).nPublishers + 1 = 1
        rw [hzero]
        rfl
      · intro j g hj
        cases hj
        exact ⟨rfl, rfl⟩
    · cases hs
  | readMessage t text =>
    simp only [PublisherState.step] at hs
    split at hs
    · next e ht =>
      split at hs
      · next goesOn srv hpub =>
        cases hs
        -- the counters stay, or the session finds its box removed and counts itself out
        rcases publish_publishers hpub with hsame | ⟨rfl, srv₁, hboxes, rfl⟩
        · apply h.setPc hsame
          rw [ht]
          cases goesOn with
          | true => exact Or.inl rfl
          | false => exact Or.inr rfl
        · exact h.countOut ht hboxes
      · cases hs
    · cases hs
  | readEnd t =>
    simp only [PublisherState.step] at hs
    split at hs
    · next e ht =>
      cases hs
      exact h.countOut ht rfl
    · cases hs
  | readError t =>
    simp only [PublisherState.step] at hs
    split at hs
    · next e ht =>
      cases hs
      exact h.setPc rfl (Or.inr rfl)
    · cases hs

theorem inv_initial_publishers (hfree : ∀ i, (srv.boxes i).nPublishers = 0) :
    (PublisherState.initial srv).Inv where
  unique h := by cases h
  value h := by cases h
  bit i := Or.inl (hfree i)

/-- From a broker without publishers, in every run of any number of sessions in which each test
is made while no other session is pending on its box, at most one session that was answered `OK`
is active on each box. -/
theorem atMostOne_of_reaches (hfree : ∀ i, (srv.boxes i).nPublishers = 0)
    (hr : Reaches PublisherState.step TestsAlone (.initial srv) s) : AtMostOne s :=
  PublisherState.Inv.atMostOne
    (hr.invariant (inv_initial_publishers hfree) fun _ a _ hu hok hs => hu.step a hok hs)

/-- The session that a label is about. -/
def PublisherLabel.session : PublisherLabel → Nat
  | .registerEntry t _ | .test t | .openReply t _ | .replyOk t _ | .closeReply t _ | .increment t
  | .openRead t _ | .readMessage t _ | .readEnd t | .readError t => t

/-- A step leaves the other sessions where they are. -/
theorem sessions_of_step {a : PublisherLabel} (hs : s.step a = some s') (ht : t ≠ a.session) :
    s'.sessions t = s.sessions t := by
  cases a with
  | readMessage u text =>
    simp only [PublisherState.step] at hs
    split at hs
    · split at hs
      · cases hs
        exact Function.update_of_ne ht _ _
      · cases hs
    · cases hs
  | _ =>
    simp only [PublisherState.step] at hs
    split at hs
    · cases hs
      exact Function.update_of_ne ht _ _
    · cases hs

theorem sessions_of_runLabels {as : List PublisherLabel}
    (hs : runLabels PublisherState.step s as = some s') (ht : ∀ a ∈ as, t ≠ a.session) :
    s'.sessions t = s.sessions t := by
  induction as generalizing s with
  | nil =>
    cases hs
    rfl
  | cons a as ih =>
    obtain ⟨u, hu, hrest⟩ := Option.bind_eq_some_iff.mp hs
    have hstep := sessions_of_step hu (ht a List.mem_cons_self)
    exact (ih hrest fun b hb => ht b (List.mem_cons_of_mem a hb)).trans hstep

/-- A session that has been answered `OK`, and another one behind it: it publishes a message and its
client leaves before the other one registers. -/
def firstTurn : List PublisherLabel :=
  [.openReply 0 true, .replyOk 0 true, .closeReply 0 true, .increment 0, .openRead 0 true,
    .readMessage 0 ⟨.ofBuffer [111], by decide⟩, .readEnd 0, .registerEntry 1 boxA]

theorem run_twoTurns :
    ((createBox (startedServer 2) pipeM boxA).toOption.bind fun r =>
      ((PublisherState.initial r.2).step (.registerEntry 0 boxA)).bind fun s₁ =>
        (s₁.step (.test 0)).bind fun s₂ =>
          (runLabels PublisherState.step s₂ firstTurn).bind fun s₃ =>
            (s₃.step (.test 1)).bind fun s₄ =>
              (runLabels PublisherState.step s₄ [.openReply 1 true, .replyOk 1 true]).map fun s =>
                (s₁.sessions 0, s₃.sessions 0, s₃.sessions 1, s.sessions 0, s.sessions 1)) =
      some (.registered ⟨boxA, 0⟩, .ended, .registered ⟨boxA, 0⟩, .ended, .replied ⟨boxA, 0⟩) := by
  decide +kernel

/-- Two publishers of a box, one after the other. -/
theorem twoTurns_active :
    ∃ srv s, (∀ i, (srv.boxes i).nPublishers = 0) ∧
      Reaches PublisherState.step TestsAlone (.initial srv) s ∧
      s.sessions 0 = .ended ∧ (s.sessions 1).ActiveOn 0 ∧ AtMostOne s := by
  obtain ⟨srv, heq, _, _, _, _, hfree⟩ := createBox_started (show 2 ≠ 0 by decide)
  have hrun := run_twoTurns
  rw [heq] at hrun
  obtain ⟨_, ⟨⟩, hrun⟩ := Option.bind_eq_some_iff.mp hrun
  obtain ⟨s₁, h₁, hrun⟩ := Option.bind_eq_some_iff.mp hrun
  obtain ⟨s₂, h₂, hrun⟩ := Option.bind_eq_some_iff.mp hrun
  obtain ⟨s₃, h₃, hrun⟩ := Option.bind_eq_some_iff.mp hrun
  obtain ⟨s₄, h₄, hrun⟩ := Option.bind_eq_some_iff.mp hrun
  obtain ⟨s, h, hpcs⟩ := Option.map_eq_some_iff.mp hrun
  simp only [Prod.mk.injEq] at hpcs
  obtain ⟨hpc₁, hpc₃, hpc₃', hpc, hpc'⟩ := hpcs
  have hok₁ : TestsAlone s₁ (.test 0) := by
    intro e _ t
    by_cases ht : t = 0
    · rw [ht, hpc₁]
      exact id
    · rw [sessions_of_step h₁ ht]
      exact id
  have hok₃ : TestsAlone s₃ (.test 1) := by
    intro e _ t
    by_cases ht : t = 0
    · rw [ht, hpc₃]
      exact id
    by_cases ht' : t = 1
    · rw [ht', hpc₃']
      exact id
    · -- the other sessions have not begun
      have hidle₂ := (sessions_of_step h₂ ht).trans (sessions_of_step h₁ ht)
      have hidle₃ : s₃.sessions t = s₂.sessions t :=
        sessions_of_runLabels h₃ (by simp [firstTurn, PublisherLabel.session, ht, ht'])
      rw [hidle₃, hidle₂]
      exact id
  have hr₃ : Reaches PublisherState.step TestsAlone s₂ s₃ :=
    reaches_of_admitted h₃ (by simp [firstTurn, TestsAlone])
  have hr : Reaches PublisherState.step TestsAlone s₄ s :=
    reaches_of_admitted h (by simp [TestsAlone])
  have hreach : Reaches PublisherState.step TestsAlone (.initial srv) s :=
    (((((Reaches.refl _).snoc _ trivial h₁).snoc _ hok₁ h₂).trans hr₃).snoc _ hok₃ h₄).trans hr
  refine ⟨srv, s, hfree, hreach, hpc, ?_, atMostOne_of_reaches hfree hreach⟩
  rw [hpc']
  exact rfl

/-- Two sessions register, test and answer in step. -/
def twoPublishers : List PublisherLabel :=
  [.registerEntry 0 boxA, .registerEntry 1 boxA, .test 0, .test 1, .openReply 0 true,
    .openReply 1 true, .replyOk 0 true, .replyOk 1 true]

theorem run_twoPublishers :
    ((createBox (startedServer 2) pipeM boxA).toOption.bind fun r =>
      (runLabels PublisherState.step (.initial r.2) twoPublishers).map fun s =>
        (s.sessions 0, s.sessions 1)) =
      some (.replied ⟨boxA, 0⟩, .replied ⟨boxA, 0⟩) := by
  decide +kernel

/-- In a broker with two slots that has just created a box, two publishers of that box are answered
`OK`. -/
theorem twoPublishers_both_active :
    ∃ srv answer srv' s, initServer uninitialized (.granted zeroHeap) 2 = .ok (0, srv) ∧
      createBox srv pipeM boxA = .ok (answer, srv') ∧
      runLabels PublisherState.step (.initial srv') twoPublishers = some s ∧ ¬ AtMostOne s := by
  obtain ⟨⟨answer, srv'⟩, hcreate, hrun⟩ := Option.bind_eq_some_iff.mp run_twoPublishers
  obtain ⟨s, hs, hpcs⟩ := Option.map_eq_some_iff.mp hrun
  obtain ⟨h₀, h₁⟩ := Prod.mk.inj hpcs
  refine ⟨_, answer, srv', s, initServer_started 2, ?_, hs, ?_⟩
  · generalize createBox (startedServer 2) pipeM boxA = result at hcreate
    cases result with
    | error e => cases hcreate
    | ok r =>
      cases hcreate
      rfl
  · intro hone
    have hactive : ∀ t, s.sessions t = .replied ⟨boxA, 0⟩ → (s.sessions t).ActiveOn 0 := by
      intro t ht
      rw [ht]
      exact rfl
    exact absurd (hone 0 1 0 (hactive 0 h₀) (hactive 1 h₁)) (by decide)

end MessageBroker.Broker
