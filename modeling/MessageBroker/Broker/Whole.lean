import MessageBroker.Broker.Subscriber
import MessageBroker.Clients.Message

/-!
# Whole messages

`start_publisher` tests only that `tfs_write` has written something, and `tfs_write`
cuts what it writes at the end of the block. A message is therefore stored whole, or
refused, exactly when it fits behind the others or when nothing fits at all, and the
file is a sequence of messages in runs in which this is so for each of them.
-/

namespace MessageBroker.Broker

open Bytes Transition Tfs Tfs.Fs Clients.Publisher

/-! ### What a client sends -/

/-- The text of the message that a publisher makes of an input line. -/
def lineText (line : CString) : Text :=
  ⟨⟨lineBytes line, fun _ hc => lineBytes_ne_zero hc⟩, length_lineBytes_lt line⟩

/-- What the publisher sends for a line is the text of the line with its terminator. -/
theorem createMessage_shape (line : CString) (stale : UInt8) :
    ∃ behind, createMessage line stale = '0'.toUInt8 :: '9'.toUInt8 :: Clients.separator ::
      ((lineText line).text.bytes ++ 0 :: behind) := by
  have hle : (lineBytes line).length ≤ pSMessageSize + 1 - 3 := List.length_take_le _ _
  obtain ⟨k, hk⟩ : ∃ k, pSMessageSize + 2 - 3 - (lineBytes line).length = k + 1 := by
    refine ⟨pSMessageSize + 2 - 3 - (lineBytes line).length - 1, ?_⟩
    simp only [pSMessageSize] at hle ⊢
    omega
  refine ⟨List.replicate k 0 ++ [stale], ?_⟩
  rw [createMessage, hk, List.replicate_succ, List.append_assoc]
  rfl

/-! ### One message -/

/-- The box is there, no handle is open, and its file holds the bytes. -/
def FileIs (box : BoxName) (srv : Server) (contents : List UInt8) : Prop :=
  ∃ st, Idle srv.fs st ∧ HasPath srv.fs box.name ∧ st.contents box.name.tail = contents

/-- The message is appended with its terminator and counted in `size`, or nothing changes and the
session takes its failure branch. -/
def AllOrNothing (box : BoxName) (index : Nat) (srv : Server) (text : Text) : Prop :=
  ∃ contents goesOn srv' contents', FileIs box srv contents ∧
    publish srv index box text = .ok (goesOn, srv') ∧ FileIs box srv' contents' ∧
    (goesOn = true ∧ contents' = contents ++ payload text ∧
        (srv'.boxes index).size = (srv.boxes index).size + .ofNat (payload text).length ∨
      goesOn = false ∧ contents' = contents ∧ srv'.boxes = srv.boxes)

variable {srv : Server} {box : BoxName} {index : Nat} {contents : List UInt8} {text : Text}

/-- What the file holds is a function of the file system. -/
theorem FileIs.unique {bytes : List UInt8} (h : FileIs box srv contents)
    (h' : FileIs box srv bytes) : bytes = contents := by
  obtain ⟨st, hidle, ⟨_, i, k, he⟩, rfl⟩ := h
  obtain ⟨st', hidle', _, rfl⟩ := h'
  rw [hidle.refines.files.contents he, hidle'.refines.files.contents he]

theorem FileIs.length_le (h : FileIs box srv contents) :
    contents.length ≤ tfsDefaultParams.blockSize := by
  obtain ⟨st, hidle, hpath, rfl⟩ := h
  obtain ⟨_, hmem⟩ := (hasPath_iff hidle.refines).mp hpath
  exact (hidle.refines.storeBounds _ hmem).2.2

/-- A message of which something fits is cut to what fits, and the session goes on. -/
theorem FileIs.publish_written (h : FileIs box srv contents) (index : Nat) (text : Text)
    (hroom : contents.length < tfsDefaultParams.blockSize) :
    ∃ srv', publish srv index box text = .ok (true, srv') ∧
      FileIs box srv' (contents ++ fitting contents text) ∧
      (srv'.boxes index).size =
        (srv.boxes index).size + .ofNat (fitting contents text).length := by
  obtain ⟨st, hidle, hpath, rfl⟩ := h
  have hne : fitting (st.contents box.name.tail) text ≠ [] := by
    rw [← List.length_pos_iff, fitting, List.length_take, length_payload]
    omega
  obtain ⟨fs', heq, hidle'⟩ := Broker.publish_written hidle hpath index text hne
  refine ⟨_, heq, ⟨_, hidle', ?_, Function.update_self ..⟩, ?_⟩
  · exact (hidle.hasPath_congr hidle' rfl).mpr hpath
  · simp [Server.modifyBox, Server.setBox]

/-- A full file takes nothing, and the session fails. -/
theorem FileIs.publish_full (h : FileIs box srv contents) (index : Nat) (text : Text)
    (hfull : contents.length = tfsDefaultParams.blockSize) :
    ∃ srv', publish srv index box text = .ok (false, srv') ∧ FileIs box srv' contents ∧
      srv'.boxes = srv.boxes := by
  obtain ⟨st, hidle, hpath, rfl⟩ := h
  have hnil : fitting (st.contents box.name.tail) text = [] := by
    rw [fitting, hfull, Nat.sub_self, List.take_zero]
  obtain ⟨fs', heq, hidle'⟩ := Broker.publish_full hidle hpath index text hnil
  refine ⟨_, heq, ⟨st, hidle', ?_, rfl⟩, rfl⟩
  exact (hidle.hasPath_congr hidle' rfl).mpr hpath

/-- A message is stored whole or refused if and only if it fits, or the file is full. -/
theorem FileIs.allOrNothing_iff (h : FileIs box srv contents) (index : Nat) (text : Text) :
    AllOrNothing box index srv text ↔ contents.length = tfsDefaultParams.blockSize ∨
      contents.length + (payload text).length ≤ tfsDefaultParams.blockSize := by
  by_cases hfull : contents.length = tfsDefaultParams.blockSize
  · obtain ⟨srv', heq, hfile, hboxes⟩ := h.publish_full index text hfull
    exact ⟨fun _ => Or.inl hfull, fun _ => ⟨_, _, _, _, h, heq, hfile, Or.inr ⟨rfl, rfl, hboxes⟩⟩⟩
  · have hroom := lt_of_le_of_ne h.length_le hfull
    obtain ⟨srv', heq, hfile, hsize⟩ := h.publish_written index text hroom
    constructor
    · rintro ⟨before, goesOn, srv₁, after, hbefore, heq', hafter, hcase⟩
      right
      obtain rfl := h.unique hbefore
      rw [heq] at heq'
      cases heq'
      obtain rfl := hfile.unique hafter
      rcases hcase with ⟨_, hwhole, _⟩ | ⟨hfalse, _⟩
      · -- what fits is the whole payload
        have hlen := congrArg List.length (List.append_cancel_left hwhole)
        rw [fitting, List.length_take] at hlen
        omega
      · cases hfalse
    · rintro (hno | hfits)
      · exact absurd hno hfull
      · have hall : fitting contents text = payload text := by
          rw [fitting, List.take_of_length_le (by omega)]
        rw [hall] at hfile hsize
        exact ⟨_, _, _, _, h, heq, hfile, Or.inl ⟨rfl, rfl, hsize⟩⟩

/-! ### Runs -/

namespace Delivery

/-- A message is published only where it fits behind the others, or where nothing fits. -/
def FitsOrFull (s : Delivery) : DeliveryLabel → Prop
  | .publish text => (file s.published).length = tfsDefaultParams.blockSize ∨
      (file s.published).length + (payload text).length ≤ tfsDefaultParams.blockSize
  | _ => True

/-- The file holds the messages that were published, and `size` counts their bytes. -/
structure Complete (box : BoxName) (index : Nat) (size : UInt64) (s : Delivery) : Prop where
  file : FileIs box s.server (file s.published)
  size : (s.server.boxes index).size = size + .ofNat (Delivery.file s.published).length

variable {s s' : Delivery} {size : UInt64}

theorem file_concat (published : List Text) (text : Text) :
    file (published ++ [text]) = file published ++ payload text := by
  rw [file_append]
  simp [file]

/-- A publisher appends the whole message, or takes its failure branch. -/
theorem Complete.publish (h : Complete box index size s) (hok : FitsOrFull s (.publish text))
    (hs : step box index s (.publish text) = some s') : Complete box index size s' := by
  obtain ⟨contents, goesOn, srv, contents', hfile, heq, hfile', hcase⟩ :=
    (h.file.allOrNothing_iff index text).mpr hok
  obtain rfl := h.file.unique hfile
  rcases hcase with ⟨rfl, rfl, hsize⟩ | ⟨rfl, rfl, hboxes⟩
  · rw [step_publish heq] at hs
    cases hs
    refine ⟨?_, ?_⟩
    · show FileIs box srv (Delivery.file (s.published ++ [text]))
      rw [file_concat]
      exact hfile'
    · show (srv.boxes index).size = _ + .ofNat (Delivery.file (s.published ++ [text])).length
      rw [hsize, h.size, file_concat, List.length_append, UInt64.ofNat_add, UInt64.add_assoc]
  · rw [step_publish_fails heq] at hs
    cases hs
    refine ⟨hfile', ?_⟩
    show (srv.boxes index).size = _
    rw [hboxes]
    exact h.size

theorem Complete.step {a : DeliveryLabel} (h : Complete box index size s) (hok : FitsOrFull s a)
    (hs : step box index s a = some s') : Complete box index size s' := by
  cases a with
  | publish text => exact h.publish hok hs
  | subscribe t =>
    cases hsub : s.subscribers t with
    | none =>
      simp only [Delivery.step, hsub, Option.some.injEq] at hs
      subst hs
      refine ⟨h.file, ?_⟩
      show (Function.update s.server.boxes index _ index).size = _
      rw [Function.update_self]
      exact h.size
    | some sub => simp only [Delivery.step, hsub, reduceCtorEq] at hs
  | poll t stale =>
    cases hsub : s.subscribers t with
    | none => simp only [Delivery.step, hsub, reduceCtorEq] at hs
    | some sub =>
      obtain ⟨fs', heq, hidle⟩ := HoldsFile.poll h.file index sub.bytesProcessed stale
      simp only [Delivery.step, hsub, heq, Option.some.injEq] at hs
      subst hs
      exact ⟨hidle, h.size⟩

/-- In a run in which every message fits or finds the file full, the file of the box is the
messages published, each with its terminator, and a message that is published next is stored whole
or refused if and only if it fits or finds the file full. -/
theorem complete_of_reaches (hfile : HoldsFile box srv [])
    (h : Reaches (step box index) FitsOrFull (.initial srv) s) :
    FileIs box s.server (file s.published) ∧
      (s.server.boxes index).size = (srv.boxes index).size + .ofNat (file s.published).length ∧
      ∀ text, AllOrNothing box index s.server text ↔ FitsOrFull s (.publish text) := by
  have hinv : Complete box index (srv.boxes index).size s := by
    refine h.invariant ⟨hfile, (UInt64.add_zero _).symm⟩ ?_
    intro u a v hu hok hs
    exact hu.step hok hs
  exact ⟨hinv.file, hinv.size, fun text => hinv.file.allOrNothing_iff index text⟩

/-- A message that fits can be published. -/
theorem exists_publish (hfile : HoldsFile box srv [])
    (hr : Reaches (step box index) FitsOrFull (.initial srv) s) {text : Text}
    (hfits : (file s.published).length + (payload text).length ≤ tfsDefaultParams.blockSize) :
    ∃ s', Reaches (step box index) FitsOrFull (.initial srv) s' ∧
      s'.published = s.published ++ [text] ∧ s'.subscribers = s.subscribers := by
  obtain ⟨hnow, _⟩ := complete_of_reaches hfile hr
  obtain ⟨fs', hpublish, _⟩ := HoldsFile.publish hnow index text (by
    rw [file_concat, List.length_append]
    exact hfits)
  exact ⟨_, hr.snoc (.publish text) (Or.inr hfits) (step_publish hpublish), rfl, rfl⟩

/-- A subscriber can make a pass. -/
theorem exists_poll (hfile : HoldsFile box srv [])
    (hr : Reaches (step box index) FitsOrFull (.initial srv) s) {t : Nat} {sub : Subscription}
    (hsub : s.subscribers t = some sub) :
    ∃ s', Reaches (step box index) FitsOrFull (.initial srv) s' ∧
      s'.published = s.published ∧ ∃ sub', s'.subscribers t = some sub' := by
  obtain ⟨hnow, _⟩ := complete_of_reaches hfile hr
  obtain ⟨fs', heq, _⟩ := HoldsFile.poll hnow index sub.bytesProcessed []
  obtain ⟨s', hstep, hpublished, hsub'⟩ : ∃ s', step box index s (.poll t []) = some s' ∧
      s'.published = s.published ∧ ∃ sub', s'.subscribers t = some sub' := by
    simp only [Delivery.step, hsub, heq]
    exact ⟨_, rfl, rfl, _, Function.update_self ..⟩
  exact ⟨s', hr.snoc (.poll t []) trivial hstep, hpublished, hsub'⟩

/-- A message that takes half of the block with its terminator. -/
def halfText : Text where
  text := ⟨List.replicate 511 97, fun c hc => by rw [List.eq_of_mem_replicate hc]; decide⟩
  fits := by
    rw [CString.length, List.length_replicate]
    decide

/-- Two messages fill the block, each behind a pass that finds nothing new, and a third one is
refused. -/
theorem halfTexts_complete :
    ∃ srv answer s, createBox (startedServer 2) pipeM boxA = .ok (answer, srv) ∧
      Reaches (step boxA 0) FitsOrFull (.initial srv) s ∧
      FileIs boxA s.server (file [halfText, halfText]) ∧
      (file [halfText, halfText]).length = tfsDefaultParams.blockSize ∧
      AllOrNothing boxA 0 s.server shortText := by
  obtain ⟨srv, answer, heq, hholds⟩ := createdBox_holdsFile
  have hhalf : (payload halfText).length = 512 := by
    rw [length_payload, halfText, CString.length, List.length_replicate]
  have hone : (file [halfText]).length = 512 := by
    rw [file, List.flatMap_singleton, hhalf]
  have hfull : (file [halfText, halfText]).length = tfsDefaultParams.blockSize := by
    rw [show [halfText, halfText] = [halfText] ++ [halfText] from rfl, file_append,
      List.length_append, hone]
    rfl
  obtain ⟨s₁, hsub⟩ : ∃ s₁, step boxA 0 (.initial srv) (.subscribe 0) = some s₁ := ⟨_, rfl⟩
  have hr₁ : Reaches (step boxA 0) FitsOrFull (.initial srv) s₁ :=
    (Reaches.refl _).snoc (.subscribe 0) trivial hsub
  have hnew : s₁.published = [] ∧ s₁.subscribers 0 = some ⟨0, []⟩ := by
    cases hsub
    exact ⟨rfl, rfl⟩
  obtain ⟨s₂, hr₂, hpublished₂, _, hsub₂⟩ := exists_poll hholds hr₁ hnew.2
  rw [hnew.1] at hpublished₂
  obtain ⟨s₃, hr₃, hpublished₃, hsubs₃⟩ := exists_publish hholds hr₂ (by
    rw [hpublished₂, hhalf]
    decide)
  rw [hpublished₂, List.nil_append] at hpublished₃
  obtain ⟨s₄, hr₄, hpublished₄, _⟩ := exists_poll hholds hr₃ (hsubs₃ ▸ hsub₂)
  rw [hpublished₃] at hpublished₄
  obtain ⟨s₅, hr₅, hpublished₅, _⟩ := exists_publish hholds hr₄ (by
    rw [hpublished₄, hone, hhalf]
    decide)
  rw [hpublished₄, List.singleton_append] at hpublished₅
  obtain ⟨hfile, _, hnext⟩ := complete_of_reaches hholds hr₅
  rw [hpublished₅] at hfile
  refine ⟨srv, answer, s₅, heq, hr₅, hfile, hfull, (hnext shortText).mpr (Or.inl ?_)⟩
  rw [hpublished₅]
  exact hfull

/-- A line of `1022` bytes, the longest that `create_message` copies whole. -/
def longLine : CString :=
  ⟨List.replicate 1022 97 ++ ['\n'.toUInt8], by
    intro c hc
    rcases List.mem_append.mp hc with h | h
    · rw [List.eq_of_mem_replicate h]
      decide
    · rw [List.mem_singleton.mp h]
      decide⟩

def shortLine : CString := .ofBuffer [104, '\n'.toUInt8]

/-- Behind the longest message one byte of the block is left: the next message is cut to its first
byte, the session goes on, and the file does not end with a terminator. -/
theorem cutMessage_not_complete :
    ∃ srv answer s s', createBox (startedServer 2) pipeM boxA = .ok (answer, srv) ∧
      step boxA 0 (.initial srv) (.publish (lineText longLine)) = some s ∧
      step boxA 0 s (.publish (lineText shortLine)) = some s' ∧
      ¬ AllOrNothing boxA 0 s.server (lineText shortLine) ∧
      ∀ texts, ¬ FileIs boxA s'.server (file texts) := by
  obtain ⟨srv, answer, heq, hholds⟩ := createdBox_holdsFile
  have hlong : (file [lineText longLine]).length = 1023 := by decide +kernel
  have hshort : payload (lineText shortLine) = [104, 0] := by decide +kernel
  have hblock : tfsDefaultParams.blockSize = 1024 := rfl
  obtain ⟨fs', hpub, hfile⟩ := hholds.publish 0 (lineText longLine)
    (by rw [List.nil_append, hlong, hblock]; decide)
  obtain ⟨s, hfirst, hcontents⟩ : ∃ s,
      step boxA 0 (.initial srv) (.publish (lineText longLine)) = some s ∧
        FileIs boxA s.server (file [lineText longLine]) := ⟨_, step_publish hpub, hfile⟩
  obtain ⟨srv', hpub', hcut, _⟩ := hcontents.publish_written 0 (lineText shortLine)
    (by rw [hlong, hblock]; decide)
  refine ⟨srv, answer, s, _, heq, hfirst, step_publish hpub', ?_, ?_⟩
  · rw [hcontents.allOrNothing_iff, hlong, hshort, hblock]
    decide
  · intro texts htexts
    have hfitting : fitting (file [lineText longLine]) (lineText shortLine) = [104] := by
      rw [fitting, hlong, hshort, hblock]
      rfl
    rw [hfitting] at hcut
    have hlast : (file texts).getLast? = some 104 := by
      rw [FileIs.unique hcut htexts]
      exact List.getLast?_concat ..
    cases getLast?_file hlast

end Delivery

end MessageBroker.Broker
