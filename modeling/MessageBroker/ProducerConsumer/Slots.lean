import MessageBroker.ProducerConsumer.Threads

/-!
# The slots of the buffer

Which slots of `pcq_buffer` the two functions access: `pcq_enqueue` those up to the
size that it finds, `pcq_dequeue` the one behind the `pcq_tail` that it loads. When the
threads enter the queue one at a time, to insert an element into an empty queue and to
remove the only one, all of them are slot `0`.
-/

namespace MessageBroker.ProducerConsumer

open Transition

/-- The indices of the shift loop, each with the one that it copies from. -/
def shiftSlots : Nat → List Nat
  | 0 => []
  | i + 1 => (i + 1) :: i :: shiftSlots i

variable {α : Type*} {n k : Nat} {q : Pcq α} {i : Nat}

/-- The slots that `pcq_enqueue` reads or writes. -/
def Pcq.enqueueSlots (q : Pcq α) : List Nat :=
  let size := q.currentSize + 1
  let tail := size - 1
  shiftSlots tail ++ [0]

theorem mem_shiftSlots (n : Nat) : i ∈ shiftSlots n ↔ 0 < n ∧ i ≤ n := by
  induction n with
  | zero => simp [shiftSlots]
  | succ n ih =>
    rw [shiftSlots, List.mem_cons, List.mem_cons, ih]
    omega

theorem Pcq.mem_enqueueSlots : i ∈ q.enqueueSlots ↔ i ≤ q.currentSize := by
  rw [enqueueSlots, List.mem_append, List.mem_singleton, mem_shiftSlots]
  omega

/-- The slots that the next step of a thread accesses. -/
def Threads.slots (s : Threads α n) (t : Fin n) : List Nat :=
  match s.threads t with
  | some ⟨.enqueue _, .update⟩ => s.queue.enqueueSlots
  | some ⟨.dequeue, .loadSlot i⟩ => [i]
  | _ => []

def ThreadLabel.isCall : ThreadLabel α n → Bool
  | .call .. => true
  | _ => false

/-! ### One thread at a time -/

namespace Place

/-- On the way to the update. -/
def BeforeUpdate : Place → Prop
  | lock | test | wait | waiting | lockSize | update => True
  | _ => False

/-- Behind the update, with the lock of the side. -/
def AfterUpdate : Place → Prop
  | signal | unlockSize | unlock => True
  | _ => False

end Place

/-- The size that a call finds when it is made on its own. -/
def Side.before : Side → Nat
  | producer => 0
  | consumer => 1

/-- The size that such a call leaves. -/
def Side.after : Side → Nat
  | producer => 1
  | consumer => 0

/-- The queue has `k` elements, and a single one is in slot `0`. -/
structure Pcq.Keeps (q : Pcq α) (k : Nat) : Prop where
  size : q.currentSize = k
  tail : k = 1 → q.tail = 0

/-- The queue behind the update of a side. -/
structure Pcq.Updated (q : Pcq α) (side : Side) : Prop where
  keeps : q.Keeps side.after
  behind : side = .consumer → q.slotBehindTail = 0

/-- The queue while one thread uses it, by the position of the thread; `k` is the size that the
thread leaves. -/
inductive Using (q : Pcq α) : Nat → Option (Side × Place) → Prop
  | outside {k : Nat} : q.Keeps k → Using q k none
  | before {side : Side} {p : Place} : p.BeforeUpdate → q.Keeps side.before →
      Using q side.after (some (side, p))
  | after {side : Side} {p : Place} : p.AfterUpdate → q.Updated side →
      Using q side.after (some (side, p))
  | loadTail : q.Updated .consumer → Using q 0 (some (.consumer, .loadTail))
  | loadSlot : q.Keeps 0 → Using q 0 (some (.consumer, .loadSlot 0))

theorem Using.keeps {side : Side} {p : Place} (h : Using q k (some (side, p)))
    (hp : p.BeforeUpdate) : k = side.after ∧ q.Keeps side.before := by
  cases h with
  | before _ hkeeps => exact ⟨rfl, hkeeps⟩
  | after hplace _ => cases p <;> first | exact hp.elim | exact hplace.elim
  | loadTail _ => exact hp.elim
  | loadSlot _ => exact hp.elim

theorem Using.updated {side : Side} {p : Place} (h : Using q k (some (side, p)))
    (hp : p.AfterUpdate) : k = side.after ∧ q.Updated side := by
  cases h with
  | before hplace _ => cases p <;> first | exact hp.elim | exact hplace.elim
  | after _ hupdated => exact ⟨rfl, hupdated⟩
  | loadTail _ => exact hp.elim
  | loadSlot _ => exact hp.elim

theorem Using.keeps_outside (h : Using q k none) : q.Keeps k := by
  cases h with
  | outside hkeeps => exact hkeeps

theorem Pcq.Keeps.update {op : Op α} (h : q.Keeps op.side.before) :
    (q.update op).Updated op.side := by
  cases op with
  | enqueue elem =>
    have hsize : q.currentSize = 0 := h.size
    refine ⟨⟨?_, ?_⟩, nofun⟩
    · show q.currentSize + 1 = 1
      omega
    · intro _
      show q.currentSize + 1 - 1 = 0
      omega
  | dequeue =>
    have hsize : q.currentSize = 1 := h.size
    have htail : q.tail = 0 := h.tail rfl
    refine ⟨⟨?_, nofun⟩, ?_⟩
    · show q.currentSize - 1 = 0
      omega
    · intro _
      show ((q.tail + sizeRange - 1) % sizeRange + 1) % sizeRange = 0
      rw [htail]
      rfl

namespace Threads

variable {s s' b : Threads α n} {t : Fin n} {op : Op α} {place : Place}

/-- Only thread `t` may be inside the queue. -/
structure Sole (s : Threads α n) (t : Fin n) (k : Nat) : Prop where
  others : ∀ t' ≠ t, s.position t' = none
  self : Using s.queue k (s.position t)

/-- The thread changes its place, possibly with the queue. -/
theorem Sole.move {m : Nat} (h : s.Sole t k) (hthreads : b.threads = s.threads)
    {x : Option (Activity α)} (hx : Using b.queue m (x.map Activity.view)) :
    (b.setThread t x).Sole t m := by
  have hposition : (b.setThread t x).position =
      Function.update s.position t (x.map Activity.view) := by
    rw [position_setThread, position_congr hthreads]
  constructor
  · intro t' ht
    rw [hposition, Function.update_of_ne ht]
    exact h.others t' ht
  · rw [hposition, Function.update_self]
    exact hx

/-- With nobody inside, any thread may be the next one. -/
theorem Sole.handOver (h : s.Sole t k) (ht : s.threads t = none) (t' : Fin n) : s.Sole t' k := by
  have hself : s.position t = none := congrArg (Option.map Activity.view) ht
  have hnone : ∀ u, s.position u = none := by
    intro u
    by_cases hu : u = t
    · rw [hu, hself]
    · exact h.others u hu
  refine ⟨fun u _ => hnone u, ?_⟩
  have hqueue := h.self
  rw [hself] at hqueue
  rw [hnone t']
  exact hqueue

/-- Up to its update the thread leaves the elements as it has found them. -/
theorem Sole.moveBefore {p p' : Place} (h : s.Sole t k) (ht : s.position t = some (op.side, p))
    (hp : p.BeforeUpdate) (hthreads : b.threads = s.threads) (hqueue : b.queue = s.queue)
    (hp' : p'.BeforeUpdate) : (b.setThread t (some ⟨op, p'⟩)).Sole t k := by
  have hself := h.self
  rw [ht] at hself
  obtain ⟨rfl, hkeeps⟩ := hself.keeps hp
  apply h.move hthreads
  rw [hqueue]
  exact .before hp' hkeeps

/-- Behind its update the thread gives its locks back. -/
theorem Sole.moveAfter {p p' : Place} (h : s.Sole t k) (ht : s.position t = some (op.side, p))
    (hp : p.AfterUpdate) (hthreads : b.threads = s.threads) (hqueue : b.queue = s.queue)
    (hp' : p'.AfterUpdate) : (b.setThread t (some ⟨op, p'⟩)).Sole t k := by
  have hself := h.self
  rw [ht] at hself
  obtain ⟨rfl, hupdated⟩ := hself.updated hp
  apply h.move hthreads
  rw [hqueue]
  exact .after hp' hupdated

/-- The steps that the two functions share. -/
theorem Sole.callStep {behind : Option (Activity α)} (h : s.Sole t k)
    (hs : s.callStep t op behind place = some s') (ht : s.position t = some (op.side, place))
    (hbehind : s.queue.Updated op.side → Using s.queue op.side.after (behind.map Activity.view)) :
    s'.Sole t k := by
  cases place with
  | lock =>
    obtain ⟨_, ⟨⟩⟩ := Option.ite_none_right_eq_some.mp hs
    exact h.moveBefore ht trivial rfl rfl trivial
  | test =>
    cases hs
    apply h.moveBefore ht trivial rfl rfl
    split <;> trivial
  | wait =>
    cases hs
    exact h.moveBefore ht trivial rfl rfl trivial
  | lockSize =>
    obtain ⟨_, ⟨⟩⟩ := Option.ite_none_right_eq_some.mp hs
    exact h.moveBefore ht trivial rfl rfl trivial
  | update =>
    cases hs
    have hself := h.self
    rw [ht] at hself
    obtain ⟨rfl, hkeeps⟩ := hself.keeps trivial
    have hqueue : (s.updates op).queue = s.queue.update op := by cases op <;> rfl
    apply h.move
    · cases op <;> rfl
    · rw [hqueue]
      exact .after (p := .signal) trivial hkeeps.update
  | unlockSize =>
    cases hs
    exact h.moveAfter ht trivial rfl rfl trivial
  | unlock =>
    cases hs
    have hself := h.self
    rw [ht] at hself
    obtain ⟨rfl, hupdated⟩ := hself.updated trivial
    apply h.move
    · rfl
    · exact hbehind hupdated
  | waiting | signal | loadTail | loadSlot i => cases hs

theorem Sole.pcqDequeue (h : s.Sole t k) (ht : s.position t = some (.consumer, place))
    (hs : s.pcqDequeue t place = some s') : s'.Sole t k := by
  have hself := h.self
  rw [ht] at hself
  cases place with
  | loadTail =>
    cases hs
    apply h.move
    · rfl
    · cases hself with
      | before hplace _ => exact hplace.elim
      | after hplace _ => exact hplace.elim
      | loadTail hupdated =>
        show Using s.queue 0 (some (.consumer, .loadSlot s.queue.slotBehindTail))
        rw [hupdated.behind rfl]
        exact .loadSlot hupdated.keeps
  | loadSlot i =>
    cases hs
    apply h.move
    · rfl
    · cases hself with
      | before hplace _ => exact hplace.elim
      | after hplace _ => exact hplace.elim
      | loadSlot hkeeps => exact .outside hkeeps
  | _ =>
    simp only [Threads.pcqDequeue] at hs
    exact h.callStep hs ht fun hupdated => .loadTail hupdated

/-- A step of a thread inside the queue; the calls are made one at a time. -/
theorem Sole.step (h : s.Sole t k) {a : ThreadLabel α n} (ha : a.isCall = false)
    (hs : s.step a = some s') : s'.Sole t k := by
  have hself : ∀ {u : Fin n} {side : Side} {p : Place}, s.position u = some (side, p) → u = t := by
    intro u side p hu
    by_contra hne
    rw [h.others u hne] at hu
    cases hu
  cases outcome_of_step hs with
  | calls _ _ _ => cases ha
  | inserts u elem place s' hu hs =>
    cases hself hu
    have hcall : s.callStep t (.enqueue elem) none place = some s' := hs
    exact h.callStep hcall hu fun hupdated => .outside hupdated.keeps
  | removes u place s' hu hs =>
    cases hself hu
    exact h.pcqDequeue hu hs
  | signals u op woken hu hw =>
    cases hself hu
    have hnone : woken = none := by
      cases woken with
      | none => rfl
      | some w =>
        cases hself hw
        cases congrArg (Option.map Prod.snd) (hu.symm.trans hw)
    subst hnone
    exact h.moveAfter hu trivial rfl rfl trivial
  | wakes u op hu =>
    cases hself hu
    exact h.moveBefore hu trivial rfl rfl trivial

/-- The next thread calls one of the functions. -/
theorem Sole.call (hs : s.step (.call t op) = some s') (h : s.Sole t op.side.before) :
    s'.Sole t op.side.after := by
  obtain ⟨hnone, ⟨⟩⟩ := Option.ite_none_right_eq_some.mp hs
  have hself : s.position t = none :=
    congrArg (Option.map Activity.view) (Option.isNone_iff_eq_none.mp hnone)
  have hqueue := h.self
  rw [hself] at hqueue
  apply h.move
  · rfl
  · exact .before (p := .lock) trivial hqueue.keeps_outside

/-- All that a thread on its own accesses is slot `0`. -/
theorem Sole.slots (h : s.Sole t k) {u : Fin n} (hi : i ∈ s.slots u) : i = 0 := by
  have hself : ∀ {x}, s.threads u = some x → Using s.queue k (some x.view) := by
    intro x hx
    have hu : s.position u = some x.view := congrArg (Option.map Activity.view) hx
    by_cases ht : u = t
    · rw [← hu, ht]
      exact h.self
    · rw [h.others u ht] at hu
      cases hu
  rw [Threads.slots] at hi
  split at hi
  · next elem hx =>
    obtain ⟨_, hkeeps⟩ := (hself hx).keeps trivial
    have hle := Pcq.mem_enqueueSlots.mp hi
    rw [hkeeps.size] at hle
    exact Nat.le_zero.mp hle
  · next j hx =>
    rw [List.mem_singleton.mp hi]
    have hload : Using s.queue k (some (.consumer, .loadSlot j)) := hself hx
    cases hload with
    | before hplace _ => exact hplace.elim
    | after hplace _ => exact hplace.elim
    | loadSlot _ => rfl
  · cases hi

end Threads
end MessageBroker.ProducerConsumer
