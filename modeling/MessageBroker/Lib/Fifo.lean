import MessageBroker.Lib.Transition
import Mathlib.Data.List.ReduceOption

/-!
# First-in first-out queues

The reference queue is the list of its elements, oldest first. In every run whose
calls find it neither full nor empty, the elements taken are the first ones put,
in their order, and the queue holds the others.
-/

namespace MessageBroker.Fifo

open Transition

variable {α : Type*}

inductive Call (α : Type*)
  | put (x : α)
  | take

/-- The element that a call inserts. -/
def Call.element? : Call α → Option α
  | put x => some x
  | take => none

def Call.isTake : Call α → Bool
  | put _ => false
  | take => true

/-- A call on the reference queue, with the element that it returns. -/
def exec (l : List α) : Call α → Option α × List α
  | .put x => (none, l ++ [x])
  | .take => (l.head?, l.tail)

/-- The call does not block on a queue with room for `capacity` elements. -/
def Ready (capacity : Nat) (l : List α) : Call α → Prop
  | .put _ => l.length < capacity
  | .take => l ≠ []

/-- The elements that the calls insert. -/
def puts (calls : List (Call α)) : List α := calls.filterMap Call.element?

theorem exec_conserves {capacity : Nat} {l : List α} {a : Call α} (h : Ready capacity l a) :
    (exec l a).1.toList ++ (exec l a).2 = l ++ a.element?.toList := by
  cases a with
  | put x => rfl
  | take =>
    cases l with
    | nil => exact absurd rfl h
    | cons x l => exact (List.append_nil _).symm

/-- What the calls return, followed by what is left, is what was there and what they insert. -/
theorem totalOutputs_conserves {capacity : Nat} {l : List α} {calls : List (Call α)}
    (h : AllAdmitted exec (Ready capacity) l calls) :
    (totalOutputs exec l calls).1.reduceOption ++ (totalOutputs exec l calls).2 =
      l ++ puts calls := by
  induction calls generalizing l with
  | nil => exact (List.append_nil l).symm
  | cons a calls ih =>
    obtain ⟨ha, hcalls⟩ := h
    have hputs : puts (a :: calls) = a.element?.toList ++ puts calls := by
      cases a <;> rfl
    have hreturned (e : Option α) (es : List (Option α)) :
        (e :: es).reduceOption = e.toList ++ es.reduceOption := by
      cases e <;> rfl
    simp only [totalOutputs, hreturned, hputs]
    rw [List.append_assoc, ih hcalls, ← List.append_assoc, exec_conserves ha, List.append_assoc]

/-- Each `take` of such a run returns an element. -/
theorem length_returned {capacity : Nat} {l : List α} {calls : List (Call α)}
    (h : AllAdmitted exec (Ready capacity) l calls) :
    (totalOutputs exec l calls).1.reduceOption.length = calls.countP Call.isTake := by
  induction calls generalizing l with
  | nil => rfl
  | cons a calls ih =>
    obtain ⟨ha, hcalls⟩ := h
    cases a with
    | put x =>
      rw [List.countP_cons_of_neg (by simp [Call.isTake]), ← ih hcalls]
      rfl
    | take =>
      obtain ⟨x, l, rfl⟩ := List.exists_cons_of_ne_nil ha
      rw [List.countP_cons_of_pos (by rfl), ← ih hcalls]
      rfl

/-- **First in, first out**: from an empty queue, the `k`-th `take` returns the element of the
`k`-th `put`, and what is left are the elements put behind those. -/
theorem returned_of_admitted {capacity : Nat} {calls : List (Call α)}
    (h : AllAdmitted exec (Ready capacity) [] calls) :
    (∀ k < calls.countP Call.isTake,
      ∃ x, (totalOutputs exec [] calls).1.reduceOption[k]? = some x ∧
        (puts calls)[k]? = some x) ∧
      (totalOutputs exec [] calls).2 = (puts calls).drop (calls.countP Call.isTake) := by
  have hcon := totalOutputs_conserves h
  rw [List.nil_append] at hcon
  rw [← hcon, ← length_returned h]
  refine ⟨?_, ?_⟩
  · intro k hk
    rw [List.getElem?_append_left hk]
    exact ⟨_, List.getElem?_eq_getElem hk, List.getElem?_eq_getElem hk⟩
  · exact List.drop_left.symm

end MessageBroker.Fifo
