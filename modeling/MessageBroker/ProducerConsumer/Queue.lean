import MessageBroker.Config
import MessageBroker.Lib.Transition
import Mathlib.Data.List.Perm.Basic

/-!
# The producer-consumer queue

`pcq_enqueue` and `pcq_dequeue` under any interleaving of any number of threads.
The wait of a call and its section under `pcq_current_size_lock` are steps of
their own, as are the two accesses that `pcq_dequeue` makes behind its locks: it
loads `pcq_tail` and then the slot behind it. Elements are neither lost nor
duplicated in runs in which no locked section changes what a dequeue on its way to
its slot is about to load.
-/

namespace MessageBroker.ProducerConsumer

open Transition

variable {α : Type*}

/-- The fields of `pc_queue_t` that the operations use; `none` is a slot never written. -/
structure Pcq (α : Type*) where
  capacity : Nat
  currentSize : Nat
  tail : Nat
  buffer : Nat → Option α

def pcqCreate (capacity : UInt64) : Pcq α :=
  { capacity := capacity.toNat, currentSize := 0, tail := 0, buffer := fun _ => none }

/-- `for (size_t i = tail; i > 0; i--) buffer[i] = buffer[i-1]`. -/
def shiftUp : Nat → (Nat → Option α) → Nat → Option α
  | 0, buffer => buffer
  | i + 1, buffer => shiftUp i (Function.update buffer (i + 1) (buffer i))

namespace Pcq

/-- The section of `pcq_enqueue` under the size lock. -/
def enqueueLocked (q : Pcq α) (elem : α) : Pcq α :=
  let size := q.currentSize + 1
  let tail := size - 1
  { q with
    currentSize := size
    tail := tail
    buffer := Function.update (shiftUp tail q.buffer) 0 (some elem) }

/-- The section of `pcq_dequeue` under the size lock; `pcq_tail` wraps around below `0`. -/
def dequeueLocked (q : Pcq α) : Pcq α :=
  { q with
    currentSize := q.currentSize - 1
    tail := (q.tail + sizeRange - 1) % sizeRange }

/-- The index `pcq_tail + 1` of the slot that `pcq_dequeue` returns. -/
def slotBehindTail (q : Pcq α) : Nat :=
  (q.tail + 1) % sizeRange

/-- The elements in the queue, newest first. -/
def contents (q : Pcq α) : List (Option α) :=
  (List.range q.currentSize).map q.buffer

end Pcq

/-- A thread in `pcq_dequeue` behind the locks; `slot` is the index once it has loaded it. -/
structure Reader where
  thread : Nat
  slot : Option Nat
deriving DecidableEq

/-- The queue with the threads inside its operations, the elements whose `pcq_enqueue` completed
and the results of the completed `pcq_dequeue` calls. -/
structure State (α : Type*) where
  queue : Pcq α
  headOwner : Option (Nat × α)
  tailOwner : Option Nat
  readers : List Reader
  enqueued : List α
  returned : List (Option α)

def State.initial (capacity : UInt64) : State α :=
  { queue := pcqCreate capacity, headOwner := none, tailOwner := none, readers := [],
    enqueued := [], returned := [] }

/-- The thread is inside one of the operations. -/
def State.inside (s : State α) (t : Nat) : Bool :=
  s.headOwner.any (fun owner => owner.1 == t) || s.tailOwner == some t ||
    s.readers.any fun r => r.thread == t

inductive Label (α : Type*)
  /-- Take the head lock and get past the wait for a free slot. -/
  | enqueueWait (t : Nat) (elem : α)
  /-- The owner of the head lock inserts its element and releases the locks. -/
  | enqueueSection
  /-- Take the tail lock and get past the wait for an element. -/
  | dequeueWait (t : Nat)
  /-- The owner of the tail lock removes the last element and releases the locks. -/
  | dequeueSection
  /-- Load `pcq_tail`. -/
  | loadTail (t : Nat)
  /-- Load the slot and return it. -/
  | loadSlot (t i : Nat)

def step (s : State α) : Label α → Option (State α)
  | .enqueueWait t elem =>
    if s.headOwner.isNone ∧ ¬ s.inside t ∧ s.queue.currentSize ≠ s.queue.capacity then
      some { s with headOwner := some (t, elem) }
    else none
  | .enqueueSection =>
    match s.headOwner with
    | some (_, elem) =>
      some { s with
        queue := s.queue.enqueueLocked elem
        headOwner := none
        enqueued := s.enqueued ++ [elem] }
    | none => none
  | .dequeueWait t =>
    if s.tailOwner.isNone ∧ ¬ s.inside t ∧ s.queue.currentSize ≠ 0 then
      some { s with tailOwner := some t }
    else none
  | .dequeueSection =>
    match s.tailOwner with
    | some t =>
      some { s with
        queue := s.queue.dequeueLocked
        tailOwner := none
        readers := ⟨t, none⟩ :: s.readers }
    | none => none
  | .loadTail t =>
    if ⟨t, none⟩ ∈ s.readers then
      some { s with
        readers := ⟨t, some s.queue.slotBehindTail⟩ :: s.readers.erase ⟨t, none⟩ }
    else none
  | .loadSlot t i =>
    if ⟨t, some i⟩ ∈ s.readers then
      some { s with
        readers := s.readers.erase ⟨t, some i⟩
        returned := s.returned ++ [s.queue.buffer i] }
    else none

/-- The elements whose `pcq_enqueue` completed are, each once, those returned by completed
`pcq_dequeue` calls, one for each `pcq_dequeue` that has left the locks and is still to return,
and those in the queue. -/
def Conserves (s : State α) : Prop :=
  ∃ owed : List (Option α), owed.length = s.readers.length ∧
    (s.returned ++ owed ++ s.queue.contents).Perm (s.enqueued.map some)

/-- When a locked section runs, every dequeue behind its own has loaded `pcq_tail` already, and
an insertion does not write to the slot that it is about to load. -/
def Undisturbed (s : State α) : Label α → Prop
  | .enqueueSection => ∀ r ∈ s.readers, r.slot.any (s.queue.currentSize < ·) = true
  | .dequeueSection => ∀ r ∈ s.readers, r.slot.isSome = true
  | _ => True

instance (s : State α) : (a : Label α) → Decidable (Undisturbed s a)
  | .enqueueSection => inferInstanceAs (Decidable (∀ r ∈ s.readers, _ = true))
  | .dequeueSection => inferInstanceAs (Decidable (∀ r ∈ s.readers, _ = true))
  | .enqueueWait .. | .dequeueWait _ | .loadTail _ | .loadSlot .. => isTrue trivial

/-! ### The two sections -/

variable {q : Pcq α} {s s' : State α} {capacity : UInt64}

theorem shiftUp_apply (n : Nat) (buffer : Nat → Option α) (j : Nat) :
    shiftUp n buffer j = if 0 < j ∧ j ≤ n then buffer (j - 1) else buffer j := by
  induction n generalizing buffer with
  | zero =>
    rw [shiftUp, if_neg (by omega)]
  | succ n ih =>
    rw [shiftUp, ih]
    by_cases hj : j = n + 1
    · subst hj
      rw [if_neg (by omega), Function.update_self, if_pos (by omega), Nat.add_sub_cancel]
    · rw [Function.update_of_ne hj]
      by_cases hin : 0 < j ∧ j ≤ n
      · rw [if_pos hin, if_pos (by omega), Function.update_of_ne (by omega)]
      · rw [if_neg hin, if_neg (by omega)]

/-- The inserted element stands in front of the shifted ones. -/
theorem contents_enqueueLocked (q : Pcq α) (elem : α) :
    (q.enqueueLocked elem).contents = some elem :: q.contents := by
  simp only [Pcq.contents, Pcq.enqueueLocked, List.range_succ_eq_map, List.map_cons,
    Function.update_self, List.map_map]
  congr 1
  apply List.map_congr_left
  intro i hi
  have hlt : i < q.currentSize := List.mem_range.mp hi
  show Function.update (shiftUp _ q.buffer) 0 _ (i + 1) = q.buffer i
  rw [Function.update_of_ne (by omega), shiftUp_apply, if_pos (by omega), Nat.add_sub_cancel]

/-- The removed element stays in the slot behind the remaining ones. -/
theorem contents_of_dequeueLocked (h : 0 < q.currentSize) :
    q.contents = q.dequeueLocked.contents ++ [q.buffer q.dequeueLocked.currentSize] := by
  obtain ⟨n, hn⟩ : ∃ n, q.currentSize = n + 1 := ⟨q.currentSize - 1, by omega⟩
  simp only [Pcq.contents, Pcq.dequeueLocked, hn, Nat.add_sub_cancel, List.range_succ,
    List.map_append, List.map_singleton]

/-- Behind the slots that it shifts, an insertion leaves the buffer alone. -/
theorem buffer_enqueueLocked (elem : α) {i : Nat} (h : q.currentSize < i) :
    (q.enqueueLocked elem).buffer i = q.buffer i := by
  show Function.update (shiftUp _ q.buffer) 0 _ i = q.buffer i
  rw [Function.update_of_ne (by omega), shiftUp_apply, if_neg (by omega)]

/-! ### The invariant -/

/-- What a dequeue behind its section will return, undisturbed: the slot that it has loaded, or
the first slot behind the queue. -/
def Reader.owed (q : Pcq α) (r : Reader) : Option α :=
  q.buffer (r.slot.getD q.currentSize)

/-- What holds in runs whose dequeues load their slots undisturbed. The owners of the two locks
have passed their waits for good. `pcq_tail` of a new queue is `0`, of an emptied one the largest
`size_t`. -/
structure Inv (capacity : UInt64) (s : State α) : Prop where
  capacity_eq : s.queue.capacity = capacity.toNat
  size_le : s.queue.currentSize ≤ s.queue.capacity
  room : s.headOwner.isSome → s.queue.currentSize < s.queue.capacity
  nonempty : s.tailOwner.isSome → 0 < s.queue.currentSize
  tail_eq : (0 < s.queue.currentSize ∨ ∃ r ∈ s.readers, r.slot = none) →
    s.queue.tail = (s.queue.currentSize + sizeRange - 1) % sizeRange
  perm : (s.returned ++ s.readers.map (Reader.owed s.queue) ++ s.queue.contents).Perm
    (s.enqueued.map some)

theorem inv_initial (capacity : UInt64) : Inv capacity (State.initial capacity : State α) where
  capacity_eq := rfl
  size_le := Nat.zero_le _
  room h := by cases h
  nonempty h := by cases h
  tail_eq h := by
    rcases h with h | ⟨r, hr, _⟩
    · exact absurd h (lt_irrefl 0)
    · cases hr
  perm := List.Perm.refl _

theorem Inv.size_lt (h : Inv capacity s) : s.queue.currentSize < sizeRange := by
  have hcap : capacity.toNat < sizeRange := capacity.toNat_lt
  have hle := h.size_le
  rw [h.capacity_eq] at hle
  omega

/-- A pending dequeue that loads `pcq_tail` finds the slot that it has emptied. -/
theorem Inv.slotBehindTail_eq (h : Inv capacity s) {t : Nat} (hr : ⟨t, none⟩ ∈ s.readers) :
    s.queue.slotBehindTail = s.queue.currentSize := by
  have hlt := h.size_lt
  rw [Pcq.slotBehindTail, h.tail_eq (Or.inr ⟨_, hr, rfl⟩)]
  simp only [sizeRange] at hlt ⊢
  omega

theorem Inv.enqueueSection (h : Inv capacity s) (hok : Undisturbed s .enqueueSection) {t : Nat}
    {elem : α} (ho : s.headOwner = some (t, elem)) :
    Inv capacity { s with
      queue := s.queue.enqueueLocked elem, headOwner := none, enqueued := s.enqueued ++ [elem] } where
  capacity_eq := h.capacity_eq
  size_le := h.room (by rw [ho]; rfl)
  room hs := by cases hs
  nonempty _ := Nat.succ_pos _
  tail_eq _ := by
    have hlt := h.size_lt
    simp only [Pcq.enqueueLocked, sizeRange] at hlt ⊢
    omega
  perm := by
    -- the shift does not reach the cells that are still to be read
    have howed : s.readers.map (Reader.owed (s.queue.enqueueLocked elem)) =
        s.readers.map (Reader.owed s.queue) := by
      apply List.map_congr_left
      intro r hr
      obtain ⟨i, hslot, hi⟩ := Option.any_eq_true _ _ |>.mp (hok r hr)
      rw [Reader.owed, Reader.owed, hslot]
      exact buffer_enqueueLocked elem (of_decide_eq_true hi)
    have hperm := h.perm
    simp only [howed, contents_enqueueLocked, List.map_append, List.map_singleton]
    generalize s.returned ++ s.readers.map (Reader.owed s.queue) = left at hperm ⊢
    calc
      List.Perm (left ++ some elem :: s.queue.contents)
          (some elem :: (left ++ s.queue.contents)) := List.perm_middle
      List.Perm _ (some elem :: s.enqueued.map some) := hperm.cons _
      List.Perm _ (s.enqueued.map some ++ [some elem]) := (List.perm_append_singleton _ _).symm

theorem Inv.dequeueSection (h : Inv capacity s) (hok : Undisturbed s .dequeueSection) {t : Nat}
    (ho : s.tailOwner = some t) :
    Inv capacity { s with
      queue := s.queue.dequeueLocked, tailOwner := none, readers := ⟨t, none⟩ :: s.readers } where
  capacity_eq := h.capacity_eq
  size_le := le_trans (Nat.sub_le _ _) h.size_le
  room hs := lt_of_le_of_lt (Nat.sub_le _ _) (h.room hs)
  nonempty hs := by cases hs
  tail_eq _ := by
    have hpos := h.nonempty (by rw [ho]; rfl)
    have hlt := h.size_lt
    simp only [Pcq.dequeueLocked, h.tail_eq (Or.inl hpos), sizeRange] at hlt ⊢
    omega
  perm := by
    -- the readers have their cells already
    have howed : s.readers.map (Reader.owed s.queue.dequeueLocked) =
        s.readers.map (Reader.owed s.queue) := by
      apply List.map_congr_left
      intro r hr
      obtain ⟨i, hslot⟩ := Option.isSome_iff_exists.mp (hok r hr)
      rw [Reader.owed, Reader.owed, hslot]
      rfl
    have hsplit := contents_of_dequeueLocked (h.nonempty (by rw [ho]; rfl))
    have hperm := h.perm
    rw [hsplit] at hperm
    rw [List.map_cons, howed]
    generalize s.readers.map (Reader.owed s.queue) = rest at hperm ⊢
    generalize s.queue.dequeueLocked.contents = left at hperm ⊢
    calc
      List.Perm (s.returned ++ s.queue.buffer s.queue.dequeueLocked.currentSize :: rest ++ left)
          (s.queue.buffer s.queue.dequeueLocked.currentSize :: (s.returned ++ rest) ++ left) :=
        List.perm_middle.append_right left
      List.Perm _ (s.returned ++ rest ++ left ++
          [s.queue.buffer s.queue.dequeueLocked.currentSize]) :=
        (List.perm_append_singleton _ _).symm
      List.Perm _ (s.enqueued.map some) := by rwa [List.append_assoc _ left]

theorem Inv.loadTail (h : Inv capacity s) {t : Nat} (hr : ⟨t, none⟩ ∈ s.readers) :
    Inv capacity { s with
      readers := ⟨t, some s.queue.slotBehindTail⟩ :: s.readers.erase ⟨t, none⟩ } := by
  have howed : Reader.owed s.queue ⟨t, some s.queue.slotBehindTail⟩ =
      Reader.owed s.queue ⟨t, none⟩ := congrArg s.queue.buffer (h.slotBehindTail_eq hr)
  refine { h with tail_eq := ?_, perm := ?_ }
  · intro _
    exact h.tail_eq (Or.inr ⟨_, hr, rfl⟩)
  · rw [List.map_cons, howed, ← List.map_cons]
    have hreaders := (List.perm_cons_erase hr).map (Reader.owed s.queue)
    exact ((hreaders.symm.append_left _).append_right _).trans h.perm

theorem Inv.loadSlot (h : Inv capacity s) {t i : Nat} (hr : ⟨t, some i⟩ ∈ s.readers) :
    Inv capacity { s with
      readers := s.readers.erase ⟨t, some i⟩, returned := s.returned ++ [s.queue.buffer i] } := by
  refine { h with tail_eq := ?_, perm := ?_ }
  · intro hpos
    refine h.tail_eq (hpos.imp_right ?_)
    intro ⟨r, hm, hnone⟩
    exact ⟨r, List.mem_of_mem_erase hm, hnone⟩
  · have hreaders := (List.perm_cons_erase hr).map (Reader.owed s.queue)
    rw [List.append_assoc s.returned]
    exact ((hreaders.symm.append_left _).append_right _).trans h.perm

/-- Every admitted step keeps the invariant. -/
theorem Inv.step (h : Inv capacity s) (a : Label α) (hok : Undisturbed s a)
    (hs : step s a = some s') : Inv capacity s' := by
  cases a with
  | enqueueWait t elem =>
    obtain ⟨hc, he⟩ := Option.ite_none_right_eq_some.mp hs
    cases he
    exact { h with room := fun _ => lt_of_le_of_ne h.size_le hc.2.2 }
  | enqueueSection =>
    cases ho : s.headOwner with
    | none => simp [ProducerConsumer.step, ho] at hs
    | some owner =>
      simp only [ProducerConsumer.step, ho, Option.some.injEq] at hs
      subst hs
      exact h.enqueueSection hok ho
  | dequeueWait t =>
    obtain ⟨hc, he⟩ := Option.ite_none_right_eq_some.mp hs
    cases he
    exact { h with nonempty := fun _ => Nat.pos_of_ne_zero hc.2.2 }
  | dequeueSection =>
    cases ho : s.tailOwner with
    | none => simp [ProducerConsumer.step, ho] at hs
    | some t =>
      simp only [ProducerConsumer.step, ho, Option.some.injEq] at hs
      subst hs
      exact h.dequeueSection hok ho
  | loadTail t =>
    obtain ⟨hr, he⟩ := Option.ite_none_right_eq_some.mp hs
    cases he
    exact h.loadTail hr
  | loadSlot t i =>
    obtain ⟨hr, he⟩ := Option.ite_none_right_eq_some.mp hs
    cases he
    exact h.loadSlot hr

theorem Inv.conserves (h : Inv capacity s) : Conserves s :=
  ⟨s.readers.map (Reader.owed s.queue), List.length_map _, h.perm⟩

/-- In a run whose locked sections disturb no dequeue that is still to load its slot, no element
is lost or duplicated. -/
theorem conserves_of_reaches (capacity : UInt64)
    (h : Reaches step Undisturbed (State.initial capacity) s) : Conserves s :=
  Inv.conserves (h.invariant (inv_initial capacity) fun _ a _ hu hok hs => hu.step a hok hs)

/-- Thread `0` enqueues `1` and then `2`, and thread `1` dequeues one of them. -/
def handOver : List (Label Nat) :=
  [.enqueueWait 0 1, .enqueueSection, .enqueueWait 0 2, .enqueueSection,
    .dequeueWait 1, .dequeueSection, .loadTail 1, .loadSlot 1 1]

theorem handOver_conserves :
    ∃ s, runLabels step (State.initial 2) handOver = some s ∧ s.returned = [some 1] ∧
      Conserves s := by
  have hrun : runLabels (guarded step Undisturbed) (State.initial 2) handOver = some _ := rfl
  exact ⟨_, rfl, rfl, conserves_of_reaches 2 (reaches_of_guarded hrun)⟩

/-- Threads `1` and `2` both leave the locked section of `pcq_dequeue` before either of them
loads its slot. -/
def twoReaders : List (Label Nat) :=
  [.enqueueWait 0 1, .enqueueSection, .enqueueWait 0 2, .enqueueSection,
    .dequeueWait 1, .dequeueSection, .dequeueWait 2, .dequeueSection,
    .loadTail 1, .loadSlot 1 0, .loadTail 2, .loadSlot 2 0]

/-- Both threads return `2`, and `1` is lost. -/
theorem twoReaders_not_conserved :
    ∃ s, runLabels step (State.initial 2) twoReaders = some s ∧ s.enqueued = [1, 2] ∧
      s.returned = [some 2, some 2] ∧ ¬ Conserves s := by
  refine ⟨_, rfl, rfl, rfl, ?_⟩
  rintro ⟨owed, hlen, hperm⟩
  obtain rfl := List.eq_nil_of_length_eq_zero hlen
  have hmem : some 1 ∈ [some 2, some 2] := hperm.symm.subset List.mem_cons_self
  revert hmem
  decide

end MessageBroker.ProducerConsumer
