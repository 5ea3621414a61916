import MessageBroker.Broker.Whole
import MessageBroker.Broker.Calls

/-!
# What happens to other boxes

The box table and the file system are shared by the sessions on all boxes. A step of a
session on another box, or of a manager, leaves the file of a box what it is. A step is a
whole request, message or pass, so that no handle is open between two of them: a message
that is written through a handle on the file of a box removed since is not among them.
-/

namespace MessageBroker.Broker

open Transition Tfs Tfs.Fs

/-- What a session on a box does to the state of the broker, a whole request, message or pass at a
time; the index of the slot is the one that the session has remembered. -/
inductive BoxStep
  | create (pipe : PipePath)
  | remove (pipe : PipePath)
  | register
  | publish (index : Nat) (text : Text)
  | poll (index bytesProcessed : Nat) (stale : List UInt8) (clientGone : Bool)

/-- The state of the broker behind a step of a session on a box. -/
def BoxStep.perform (srv : Server) (box : BoxName) : BoxStep → Except Fault Server
  | create pipe => (createBox srv pipe box).map Prod.snd
  | remove pipe => (removeBox srv pipe box).map Prod.snd
  | register => (registerEntry srv box).map Prod.snd
  | publish index text => (Broker.publish srv index box text).map Prod.snd
  | poll index bytesProcessed stale clientGone =>
    (Broker.poll srv index box bytesProcessed stale clientGone).map Prod.snd

variable {srv srv' : Server} {st st' : FileStore CString} {box other : BoxName} {a : BoxStep}
  {contents : List UInt8}

/-- The store differs from another one in the file of one path only. -/
structure SameBut (path : CString) (st st' : FileStore CString) : Prop where
  names : ∀ n ≠ path.tail, n ∈ st'.names ↔ n ∈ st.names
  contents : ∀ n ≠ path.tail, st'.contents n = st.contents n

theorem SameBut.refl (path : CString) (st : FileStore CString) : SameBut path st st :=
  ⟨fun _ _ => Iff.rfl, fun _ _ => rfl⟩

theorem sameBut_create (path : CString) (st : FileStore CString) :
    SameBut path st (st.create path.tail) := by
  refine ⟨fun n hn => ?_, fun n hn => Function.update_of_ne hn ..⟩
  rw [FileStore.create, Finset.mem_insert]
  exact ⟨fun h => h.resolve_left hn, Or.inr⟩

theorem sameBut_remove (path : CString) (st : FileStore CString) :
    SameBut path st (st.remove path.tail) := by
  refine ⟨fun n hn => ?_, fun _ _ => rfl⟩
  rw [FileStore.remove, Finset.mem_erase]
  exact ⟨fun h => h.2, fun h => ⟨hn, h⟩⟩

theorem sameBut_setContents (path : CString) (st : FileStore CString) (bytes : List UInt8) :
    SameBut path st (st.setContents path.tail bytes) :=
  ⟨fun _ _ => Iff.rfl, fun _ hn => Function.update_of_ne hn ..⟩

/-- A step that does not fail changes the file of its own box only. A path that is not valid has
no file, and the step leaves all files alone. -/
theorem BoxStep.sameBut (h : Idle srv.fs st) (hs : a.perform srv other = .ok srv') :
    ∃ st', Idle srv'.fs st' ∧
      (st' = st ∨ validPathname (some other.name) = true ∧ SameBut other.name st st') := by
  cases a with
  | create pipe =>
    by_cases hp : HasPath srv.fs other.name
    · obtain ⟨fs', heq, hidle, _⟩ := createBox_existing pipe h hp
      rw [perform, heq] at hs
      cases hs
      exact ⟨st, hidle, Or.inl rfl⟩
    by_cases hnew : validPathname (some other.name) = true ∧ HasRoom st other.name
    · by_cases hfull : srv.nBoxes = srv.maxSessions
      · obtain ⟨fs', heq, hidle⟩ := createBox_noSpace pipe h hp hnew.1 hnew.2 hfull
        rw [perform, heq] at hs
        cases hs
        exact ⟨_, hidle, Or.inr ⟨hnew.1, sameBut_create _ _⟩⟩
      · obtain ⟨fs', heq, hidle⟩ := createBox_created pipe h hp hnew.1 hnew.2 hfull
        rw [perform, heq] at hs
        cases hs
        refine ⟨_, ?_, Or.inr ⟨hnew.1, sameBut_create _ _⟩⟩
        rw [takeSlot_fs]
        exact hidle
    · obtain ⟨fs', heq, hidle, _⟩ := createBox_fails pipe h hp hnew
      rw [perform, heq] at hs
      cases hs
      exact ⟨st, hidle, Or.inl rfl⟩
  | remove pipe =>
    by_cases hp : HasPath srv.fs other.name
    · obtain ⟨fs', heq, hidle⟩ := removeBox_removed pipe h hp
      rw [perform, heq] at hs
      cases hs
      refine ⟨_, ?_, Or.inr ⟨hp.1, sameBut_remove _ _⟩⟩
      rw [freeSlot_fs]
      exact hidle
    · obtain ⟨fs', heq, hidle, _⟩ := removeBox_absent pipe h hp
      rw [perform, heq] at hs
      cases hs
      exact ⟨st, hidle, Or.inl rfl⟩
  | register =>
    by_cases hp : HasPath srv.fs other.name
    · obtain ⟨fs', heq, hidle⟩ := registerEntry_existing h hp
      rw [perform, heq] at hs
      cases hs
      exact ⟨st, hidle, Or.inl rfl⟩
    · obtain ⟨fs', heq, hidle⟩ := registerEntry_absent h hp
      rw [perform, heq] at hs
      cases hs
      exact ⟨st, hidle, Or.inl rfl⟩
  | publish index text =>
    by_cases hp : HasPath srv.fs other.name
    · by_cases hroom : fitting (st.contents other.name.tail) text = []
      · obtain ⟨fs', heq, hidle⟩ := publish_full h hp index text hroom
        rw [perform, heq] at hs
        cases hs
        exact ⟨st, hidle, Or.inl rfl⟩
      · obtain ⟨fs', heq, hidle⟩ := publish_written h hp index text hroom
        rw [perform, heq] at hs
        cases hs
        exact ⟨_, hidle, Or.inr ⟨hp.1, sameBut_setContents _ _ _⟩⟩
    · obtain ⟨fs', heq, hidle⟩ := publish_removed h hp index text
      rw [perform, heq] at hs
      cases hs
      exact ⟨st, hidle, Or.inl rfl⟩
  | poll index bytesProcessed stale clientGone =>
    by_cases hp : HasPath srv.fs other.name
    · cases clientGone with
      | false =>
        obtain ⟨fs', heq, hidle⟩ := poll_goesOn h hp index bytesProcessed stale
        rw [perform, heq] at hs
        cases hs
        exact ⟨st, hidle, Or.inl rfl⟩
      | true =>
        obtain ⟨fs', heq, hidle⟩ := poll_clientGone h hp index bytesProcessed stale
        rw [perform, heq] at hs
        cases hs
        exact ⟨st, hidle, Or.inl rfl⟩
    · obtain ⟨fs', heq, hidle⟩ := poll_removed h hp index bytesProcessed stale clientGone
      rw [perform, heq] at hs
      cases hs
      exact ⟨st, hidle, Or.inl rfl⟩

/-- The file of a box does not change by a step of another box. -/
theorem FileIs.of_other (h : FileIs box srv contents) (hne : other.name ≠ box.name)
    (hs : a.perform srv other = .ok srv') : FileIs box srv' contents := by
  obtain ⟨st, hidle, hpath, rfl⟩ := h
  obtain ⟨st', hidle', rfl | ⟨hvalid, hsame⟩⟩ := BoxStep.sameBut hidle hs
  · exact ⟨st', hidle', (hidle.hasPath_congr hidle' rfl).mpr hpath, rfl⟩
  · obtain ⟨hv, hmem⟩ := (hasPath_iff hidle.refines).mp hpath
    have htail : box.name.tail ≠ other.name.tail := by
      intro heq
      exact hne (path_eq_of_tail_eq hvalid hv heq.symm)
    exact ⟨st', hidle', (hasPath_iff hidle'.refines).mpr ⟨hv, (hsame.names _ htail).mpr hmem⟩,
      hsame.contents _ htail⟩

end MessageBroker.Broker
