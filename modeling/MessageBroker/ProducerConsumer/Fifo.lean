import MessageBroker.Lib.Fifo
import MessageBroker.ProducerConsumer.Queue

/-!
# The queue as a bounded FIFO

Calls of `pcq_enqueue` and `pcq_dequeue` that do not overlap. The queue represents
the list of the elements in it, oldest first: they stand in the cells from `0` on,
newest first, and `pcq_tail` is the index of the oldest. Both calls keep this, an
insertion by moving every element up by one cell and a removal by giving up the
last cell, and so the queue simulates the reference FIFO.
-/

namespace MessageBroker.ProducerConsumer

open Transition Fifo

variable {α : Type*}

/-- A call finds the queue full or empty, and no other call runs that could wake it up. -/
inductive Blocked
  | blocked

/-- A whole call of `pcq_enqueue` or `pcq_dequeue`, with the element that it returns. -/
def Pcq.exec (q : Pcq α) : Call α → Except Blocked (Option α × Pcq α)
  | .put elem =>
    if q.currentSize = q.capacity then .error .blocked else .ok (none, q.enqueueLocked elem)
  | .take =>
    if q.currentSize = 0 then .error .blocked
    else .ok (q.dequeueLocked.buffer q.dequeueLocked.slotBehindTail, q.dequeueLocked)

/-- The queue holds the elements of `l`, oldest first. -/
structure Represents (capacity : UInt64) (q : Pcq α) (l : List α) : Prop where
  capacity_eq : q.capacity = capacity.toNat
  contents : q.contents = l.reverse.map some
  size_le : q.currentSize ≤ q.capacity
  tail_eq : 0 < q.currentSize → q.tail = q.currentSize - 1

variable {capacity : UInt64} {q : Pcq α} {l : List α}

theorem represents_pcqCreate (capacity : UInt64) :
    Represents capacity (pcqCreate capacity : Pcq α) [] where
  capacity_eq := rfl
  contents := rfl
  size_le := Nat.zero_le _
  tail_eq h := absurd h (lt_irrefl 0)

theorem Represents.length_eq (h : Represents capacity q l) : q.currentSize = l.length := by
  have := congrArg List.length h.contents
  simpa [Pcq.contents] using this

theorem Represents.enqueueLocked (h : Represents capacity q l) (hroom : q.currentSize < q.capacity)
    (elem : α) : Represents capacity (q.enqueueLocked elem) (l ++ [elem]) where
  capacity_eq := h.capacity_eq
  contents := by
    rw [contents_enqueueLocked, h.contents, List.reverse_append]
    rfl
  size_le := hroom
  tail_eq _ := rfl

/-- The index that a removal reads, `pcq_tail + 1` behind its decrement, is the old `pcq_tail`. -/
theorem Represents.slotBehindTail_dequeueLocked (h : Represents capacity q l)
    (hpos : 0 < q.currentSize) :
    q.dequeueLocked.slotBehindTail = q.dequeueLocked.currentSize := by
  have hcap : capacity.toNat < sizeRange := capacity.toNat_lt
  have hle := h.size_le
  rw [h.capacity_eq] at hle
  -- the decrement wraps around when the last element goes, and the increment wraps back
  simp only [Pcq.slotBehindTail, Pcq.dequeueLocked, h.tail_eq hpos, sizeRange] at hcap ⊢
  omega

theorem Represents.dequeueLocked {elem : α} (h : Represents capacity q (elem :: l)) :
    q.dequeueLocked.buffer q.dequeueLocked.slotBehindTail = some elem ∧
      Represents capacity q.dequeueLocked l := by
  have hlen : q.currentSize = l.length + 1 := h.length_eq
  have hpos : 0 < q.currentSize := by omega
  have hsplit := contents_of_dequeueLocked hpos
  rw [h.contents, List.reverse_cons, List.map_append] at hsplit
  -- the oldest element is the one that leaves the cells
  obtain ⟨hrest, hlast⟩ := List.append_inj' hsplit rfl
  rw [h.slotBehindTail_dequeueLocked hpos]
  refine ⟨(List.singleton_inj.mp hlast).symm, ?_⟩
  constructor
  · exact h.capacity_eq
  · exact hrest.symm
  · exact le_trans (Nat.sub_le _ _) h.size_le
  · intro hpos'
    have hcap : capacity.toNat < sizeRange := capacity.toNat_lt
    have hle := h.size_le
    rw [h.capacity_eq] at hle
    simp only [Pcq.dequeueLocked, h.tail_eq hpos, sizeRange] at hcap hpos' ⊢
    omega

/-- A call on a queue that is ready for it returns what the reference FIFO returns. -/
theorem Represents.exec (h : Represents capacity q l) {a : Call α}
    (ha : Ready capacity.toNat l a) :
    ∃ q', q.exec a = .ok ((Fifo.exec l a).1, q') ∧ Represents capacity q' (Fifo.exec l a).2 := by
  cases a with
  | put elem =>
    have hroom : q.currentSize < q.capacity := by
      rw [h.length_eq, h.capacity_eq]
      exact ha
    exact ⟨_, if_neg hroom.ne, h.enqueueLocked hroom elem⟩
  | take =>
    obtain ⟨elem, l, rfl⟩ := List.exists_cons_of_ne_nil ha
    have hpos : q.currentSize ≠ 0 := by
      rw [h.length_eq]
      exact Nat.succ_ne_zero _
    obtain ⟨hslot, hrest⟩ := h.dequeueLocked
    refine ⟨q.dequeueLocked, ?_, hrest⟩
    show (if q.currentSize = 0 then _ else _) = _
    rw [if_neg hpos, hslot]
    rfl

/-- A run of calls none of which finds the queue full or empty: the `k`-th `pcq_dequeue` returns
the element of the `k`-th `pcq_enqueue`, and the cells of the queue hold the other elements, newest
first. -/
theorem fifo_of_admitted (capacity : UInt64) (calls : List (Call α))
    (h : AllAdmitted Fifo.exec (Ready capacity.toNat) [] calls) :
    ∃ replies q, outputs Pcq.exec (pcqCreate capacity) calls = .ok (replies, q) ∧
      (∀ k < calls.countP Call.isTake,
        ∃ x, replies.reduceOption[k]? = some x ∧ (puts calls)[k]? = some x) ∧
      q.contents = ((puts calls).drop (calls.countP Call.isTake)).reverse.map some := by
  obtain ⟨q, hrun, hq⟩ := outputs_of_simulation (fun _ _ _ hR ha => hR.exec ha)
    (represents_pcqCreate capacity) h
  obtain ⟨hreturned, hleft⟩ := returned_of_admitted h
  refine ⟨_, q, hrun, hreturned, ?_⟩
  rw [← hleft]
  exact hq.contents

/-- The queue of capacity `1` fills and empties twice. -/
theorem oneCell_fifo :
    ∃ replies q, outputs Pcq.exec (pcqCreate 1) [.put 7, .take, .put 8, .take] =
        .ok (replies, q) ∧
      (∀ k < 2, ∃ x, replies.reduceOption[k]? = some x ∧ [7, 8][k]? = some x) ∧
      q.contents = [] :=
  fifo_of_admitted 1 [.put 7, .take, .put 8, .take]
    ⟨Nat.one_pos, List.cons_ne_nil _ _, Nat.one_pos, List.cons_ne_nil _ _, trivial⟩

end MessageBroker.ProducerConsumer
