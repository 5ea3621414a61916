import MessageBroker.ProducerConsumer.Queue

/-!
# Threads inside the queue

`pcq_enqueue` and `pcq_dequeue` by the calls that they make: the two sides of the
queue run through the same calls, each with a lock, a wait and a condition of its
own, and meet at `pcq_current_size_lock`. The tests of the waits read
`pcq_current_size` without that lock. They stay right up to the update because the
lock of a side lets one of its threads past its test at a time, and because the
updates of the other side only make more room, or more elements.
-/

namespace MessageBroker.ProducerConsumer

open Transition

/-- Producers share `pcq_head_lock` and `pcq_pusher_condvar`, consumers `pcq_tail_lock` and
`pcq_popper_condvar`. -/
inductive Side
  | producer
  | consumer
deriving DecidableEq

def Side.other : Side → Side
  | producer => consumer
  | consumer => producer

theorem Side.eq_other {a b : Side} (h : a ≠ b) : a = b.other := by
  cases a <;> cases b <;> first | rfl | exact absurd rfl h

/-- A call of one of the two functions. -/
inductive Op (α : Type*)
  | enqueue (elem : α)
  | dequeue

def Op.side {α : Type*} : Op α → Side
  | enqueue _ => .producer
  | dequeue => .consumer

/-- The next thing that a thread does inside its call. -/
inductive Place
  | lock
  | test
  /-- The test has failed, and the condition is to be waited for. -/
  | wait
  /-- Blocked in `pthread_cond_wait`. -/
  | waiting
  | lockSize
  | update
  | signal
  | unlockSize
  | unlock
  /-- Read `pcq_tail`, behind the locks. -/
  | loadTail
  | loadSlot (i : Nat)
deriving DecidableEq

structure Activity (α : Type*) where
  op : Op α
  place : Place

variable {α : Type*} {n : Nat}

/-- What the other threads see of a call: its side, and where it is. -/
def Activity.view (x : Activity α) : Side × Place := (x.op.side, x.place)

namespace Pcq

/-- The size is the one that the threads of a side wait to see changed. -/
def blocks (q : Pcq α) : Side → Bool
  | .producer => q.currentSize == q.capacity
  | .consumer => q.currentSize == 0

/-- The section of a call under `pcq_current_size_lock`. -/
def update (q : Pcq α) : Op α → Pcq α
  | .enqueue elem => q.enqueueLocked elem
  | .dequeue => q.dequeueLocked

/-- The shift loop with every index that it reads or writes compared with the capacity. -/
def shiftChecked (capacity : Nat) : Nat → (Nat → Option α) → Option (Nat → Option α)
  | 0, buffer => some buffer
  | i + 1, buffer =>
    if i + 1 < capacity ∧ i < capacity then
      shiftChecked capacity i (Function.update buffer (i + 1) (buffer i))
    else none

/-- The section of `pcq_enqueue` with the checked loop. -/
def enqueueChecked (q : Pcq α) (elem : α) : Option (Pcq α) :=
  let size := q.currentSize + 1
  let tail := size - 1
  (shiftChecked q.capacity tail q.buffer).map fun buffer =>
    { q with currentSize := size, tail := tail, buffer := Function.update buffer 0 (some elem) }

end Pcq

/-- The queue with the owners of its locks, the `n` threads that use it, and the numbers of
completed updates. -/
structure Threads (α : Type*) (n : Nat) where
  queue : Pcq α
  owner : Side → Option (Fin n)
  sizeOwner : Option (Fin n)
  threads : Fin n → Option (Activity α)
  enqueues : Nat
  dequeues : Nat
  returned : List (Option α)

inductive ThreadLabel (α : Type*) (n : Nat)
  /-- A thread outside the queue calls one of the functions. -/
  | call (t : Fin n) (op : Op α)
  /-- A thread makes its next step, other than a signal. -/
  | step (t : Fin n)
  /-- `pthread_cond_signal`, with the thread that it wakes up. -/
  | signal (t : Fin n) (woken : Option (Fin n))
  /-- A thread wakes up without a signal. -/
  | wake (t : Fin n)

namespace Threads

def initial (capacity : UInt64) : Threads α n :=
  { queue := pcqCreate capacity, owner := fun _ => none, sizeOwner := none
    threads := fun _ => none, enqueues := 0, dequeues := 0, returned := [] }

def setThread (s : Threads α n) (t : Fin n) (x : Option (Activity α)) : Threads α n :=
  { s with threads := Function.update s.threads t x }

def position (s : Threads α n) (t : Fin n) : Option (Side × Place) :=
  (s.threads t).map Activity.view

/-- The thread is blocked on the condition of a side. -/
def Waits (s : Threads α n) (side : Side) (t : Fin n) : Prop :=
  s.position t = some (side, .waiting)

instance (s : Threads α n) (side : Side) (t : Fin n) : Decidable (s.Waits side t) :=
  inferInstanceAs (Decidable (_ = _))

/-- A signal to the threads of a side wakes up one that is blocked, if there is one. -/
def Wakes (s : Threads α n) (side : Side) : Option (Fin n) → Prop
  | some w => s.Waits side w
  | none => ∀ w, ¬ s.Waits side w

instance (s : Threads α n) (side : Side) : (woken : Option (Fin n)) → Decidable (s.Wakes side woken)
  | some w => inferInstanceAs (Decidable (s.Waits side w))
  | none => inferInstanceAs (Decidable (∀ w, ¬ s.Waits side w))

/-- `pthread_cond_wait` returns, and the test is made again. -/
def wakeUp (s : Threads α n) (w : Fin n) : Threads α n :=
  s.setThread w ((s.threads w).map fun x => { x with place := .test })

def updates (s : Threads α n) : Op α → Threads α n
  | .enqueue elem =>
    { s with queue := s.queue.update (.enqueue elem), enqueues := s.enqueues + 1 }
  | .dequeue => { s with queue := s.queue.update .dequeue, dequeues := s.dequeues + 1 }

/-- The steps that the two functions share; `behind` is where the call goes on behind its locks. -/
def callStep (s : Threads α n) (t : Fin n) (op : Op α) (behind : Option (Activity α)) :
    Place → Option (Threads α n)
  | .lock =>
    if s.owner op.side = none then
      some ({ s with owner := Function.update s.owner op.side (some t) }.setThread t
        (some ⟨op, .test⟩))
    else none
  | .test => some (s.setThread t (some ⟨op, if s.queue.blocks op.side then .wait else .lockSize⟩))
  | .wait => some (s.setThread t (some ⟨op, .waiting⟩))
  | .lockSize =>
    if s.sizeOwner = none then
      some ({ s with sizeOwner := some t }.setThread t (some ⟨op, .update⟩))
    else none
  | .update => some ((s.updates op).setThread t (some ⟨op, .signal⟩))
  | .unlockSize => some ({ s with sizeOwner := none }.setThread t (some ⟨op, .unlock⟩))
  | .unlock =>
    some ({ s with owner := Function.update s.owner op.side none }.setThread t behind)
  | .waiting | .signal | .loadTail | .loadSlot _ => none

def pcqEnqueue (s : Threads α n) (t : Fin n) (elem : α) : Place → Option (Threads α n) :=
  s.callStep t (.enqueue elem) none

def pcqDequeue (s : Threads α n) (t : Fin n) : Place → Option (Threads α n)
  | .loadTail => some (s.setThread t (some ⟨.dequeue, .loadSlot s.queue.slotBehindTail⟩))
  | .loadSlot i =>
    some ({ s with returned := s.returned ++ [s.queue.buffer i] }.setThread t none)
  | place => s.callStep t .dequeue (some ⟨.dequeue, .loadTail⟩) place

def step (s : Threads α n) : ThreadLabel α n → Option (Threads α n)
  | .call t op =>
    if (s.threads t).isNone then some (s.setThread t (some ⟨op, .lock⟩)) else none
  | .step t =>
    match s.threads t with
    | some ⟨.enqueue elem, place⟩ => s.pcqEnqueue t elem place
    | some ⟨.dequeue, place⟩ => s.pcqDequeue t place
    | none => none
  | .signal t woken =>
    match s.threads t with
    | some ⟨op, .signal⟩ =>
      if s.Wakes op.side.other woken then
        some ((woken.elim s s.wakeUp).setThread t (some ⟨op, .unlockSize⟩))
      else none
    | _ => none
  | .wake t =>
    match s.threads t with
    | some ⟨op, .waiting⟩ => some (s.setThread t (some ⟨op, .test⟩))
    | _ => none

/-- The bounds of the queue: its size is that of the completed updates, a removal does not take it
below zero, and the loop of an insertion stays in the buffer. -/
structure Bounded (s : Threads α n) : Prop where
  size_le : s.queue.currentSize ≤ s.queue.capacity
  size_eq : (s.queue.currentSize : ℤ) = s.enqueues - s.dequeues
  tail_eq : 0 < s.queue.currentSize → s.queue.tail = s.queue.currentSize - 1
  nonempty : ∀ t, s.threads t = some ⟨.dequeue, .update⟩ → 0 < s.queue.currentSize
  shift : ∀ t elem, s.threads t = some ⟨.enqueue elem, .update⟩ →
    s.queue.enqueueChecked elem = some (s.queue.enqueueLocked elem)

end Threads

/-! ### What the places mean -/

namespace Place

/-- The thread holds the lock of its side. -/
def HoldsLock : Place → Prop
  | test | wait | waiting | lockSize | update | signal | unlockSize | unlock => True
  | lock | loadTail | loadSlot _ => False

/-- The thread holds `pcq_current_size_lock`. -/
def HoldsSize : Place → Prop
  | update | signal | unlockSize => True
  | _ => False

/-- The thread has passed its test and has not changed the size yet. -/
def Passed : Place → Prop
  | lockSize | update => True
  | _ => False

theorem Passed.holdsLock {p : Place} (h : p.Passed) : p.HoldsLock := by
  cases p <;> trivial

end Place

/-- The size counts the completed updates, and `pcq_tail` is the index of the oldest element. -/
structure Sized (capacity : UInt64) (q : Pcq α) (enqueues dequeues : Nat) : Prop where
  capacity_eq : q.capacity = capacity.toNat
  size_le : q.currentSize ≤ q.capacity
  size_eq : q.currentSize + dequeues = enqueues
  tail_eq : 0 < q.currentSize → q.tail = q.currentSize - 1

namespace Threads

variable {capacity : UInt64} {s s' base : Threads α n} {t : Fin n} {op : Op α} {place : Place}

/-- What a thread at a place of a side holds and knows. -/
structure Placed (s : Threads α n) (t : Fin n) (side : Side) (p : Place) : Prop where
  lock : p.HoldsLock → s.owner side = some t
  size : p.HoldsSize → s.sizeOwner = some t
  passed : p.Passed → s.queue.blocks side = false

structure Inv (capacity : UInt64) (s : Threads α n) : Prop where
  sized : Sized capacity s.queue s.enqueues s.dequeues
  placed : ∀ t side p, s.position t = some (side, p) → s.Placed t side p

end Threads

/-! ### The updates -/

theorem Pcq.shiftChecked_eq {capacity i : Nat} (h : i < capacity) (buffer : Nat → Option α) :
    shiftChecked capacity i buffer = some (shiftUp i buffer) := by
  induction i generalizing buffer with
  | zero => rfl
  | succ i ih =>
    rw [shiftChecked, if_pos ⟨h, by omega⟩, ih (by omega), shiftUp]

theorem Pcq.enqueueChecked_eq {q : Pcq α} (h : q.currentSize < q.capacity) (elem : α) :
    q.enqueueChecked elem = some (q.enqueueLocked elem) := by
  rw [enqueueChecked, enqueueLocked, Nat.add_sub_cancel, shiftChecked_eq h]
  rfl

section Sized

variable {capacity : UInt64} {q : Pcq α} {enqueues dequeues : Nat}

theorem Sized.of_not_blocks (h : Sized capacity q enqueues dequeues)
    (hq : q.blocks .producer = false) : q.currentSize < q.capacity :=
  lt_of_le_of_ne h.size_le (beq_eq_false_iff_ne.mp hq)

theorem Pcq.pos_of_not_blocks (hq : q.blocks .consumer = false) : 0 < q.currentSize :=
  Nat.pos_of_ne_zero (beq_eq_false_iff_ne.mp hq)

theorem Sized.enqueueLocked (h : Sized capacity q enqueues dequeues)
    (hroom : q.currentSize < q.capacity) (elem : α) :
    Sized capacity (q.enqueueLocked elem) (enqueues + 1) dequeues where
  capacity_eq := h.capacity_eq
  size_le := hroom
  size_eq := by
    have := h.size_eq
    show q.currentSize + 1 + dequeues = enqueues + 1
    omega
  tail_eq _ := rfl

theorem Sized.dequeueLocked (h : Sized capacity q enqueues dequeues) (hpos : 0 < q.currentSize) :
    Sized capacity q.dequeueLocked enqueues (dequeues + 1) where
  capacity_eq := h.capacity_eq
  size_le := le_trans (Nat.sub_le _ _) h.size_le
  size_eq := by
    have := h.size_eq
    show q.currentSize - 1 + (dequeues + 1) = enqueues
    omega
  tail_eq hpos' := by
    have hcap : capacity.toNat < sizeRange := capacity.toNat_lt
    have hle := h.size_le
    rw [h.capacity_eq] at hle
    simp only [Pcq.dequeueLocked, h.tail_eq hpos, sizeRange] at hcap hpos' ⊢
    omega

/-- An update does not make the other side wait. -/
theorem Sized.not_blocks_update (h : Sized capacity q enqueues dequeues) {op : Op α}
    (hop : q.blocks op.side = false) : (q.update op).blocks op.side.other = false := by
  cases op with
  | enqueue elem => exact beq_eq_false_iff_ne.mpr (Nat.succ_ne_zero _)
  | dequeue =>
    have hpos := Pcq.pos_of_not_blocks hop
    have hle := h.size_le
    apply beq_eq_false_iff_ne.mpr
    show q.currentSize - 1 ≠ q.capacity
    omega

end Sized

/-! ### The invariant -/

namespace Threads

variable {capacity : UInt64} {s s' base : Threads α n} {t : Fin n} {op : Op α} {place : Place}

theorem inv_initial (capacity : UInt64) : Inv capacity (initial capacity : Threads α n) where
  sized := ⟨rfl, Nat.zero_le _, rfl, fun h => absurd h (lt_irrefl 0)⟩
  placed t side p h := by cases h

theorem position_setThread (s : Threads α n) (t : Fin n) (x : Option (Activity α)) :
    (s.setThread t x).position = Function.update s.position t (x.map Activity.view) := by
  funext t'
  by_cases ht : t' = t
  · subst ht
    simp [position, setThread]
  · simp [position, setThread, ht]

theorem position_congr (h : s'.threads = s.threads) : s'.position = s.position := by
  funext t
  rw [position, position, h]

theorem Placed.setThread {side : Side} {p : Place} (h : s.Placed t side p) (t' : Fin n)
    (x : Option (Activity α)) : (s.setThread t' x).Placed t side p :=
  ⟨h.lock, h.size, h.passed⟩

/-- A thread changes its place, possibly with what the threads share. -/
theorem Inv.move (hthreads : base.threads = s.threads)
    (hsized : Sized capacity base.queue base.enqueues base.dequeues) {x : Option (Activity α)}
    (hself : ∀ y, x = some y → base.Placed t y.op.side y.place)
    (hothers : ∀ t' ≠ t, ∀ side p, s.position t' = some (side, p) → base.Placed t' side p) :
    Inv capacity (base.setThread t x) := by
  refine ⟨hsized, ?_⟩
  rw [position_setThread]
  intro t' side p hp
  apply Placed.setThread
  by_cases ht : t' = t
  · subst ht
    rw [Function.update_self] at hp
    obtain ⟨y, hy, hview⟩ := Option.map_eq_some_iff.mp hp
    cases hview
    exact hself y hy
  · rw [Function.update_of_ne ht, position, hthreads] at hp
    exact hothers t' ht side p hp

/-- A thread changes its place alone, and holds what its new place says. -/
theorem Inv.moveAlone (h : Inv capacity s) {x : Option (Activity α)}
    (hself : ∀ y, x = some y → s.Placed t y.op.side y.place) : Inv capacity (s.setThread t x) :=
  Inv.move rfl h.sized hself fun t' _ side p hp => h.placed t' side p hp

/-- At most one thread of a side is behind the lock of the side. -/
theorem Inv.unique (h : Inv capacity s) {t' : Fin n} {side : Side} {p p' : Place}
    (ht : s.position t = some (side, p)) (hp : p.HoldsLock)
    (ht' : s.position t' = some (side, p')) (hp' : p'.HoldsLock) : t' = t :=
  Option.some_inj.mp (((h.placed t' side p' ht').lock hp').symm.trans
    ((h.placed t side p ht).lock hp))

/-- The other threads of the side of an update are not past their tests. -/
theorem Inv.update_others (h : Inv capacity s) (ht : s.position t = some (op.side, .update))
    {t' : Fin n} (hne : t' ≠ t) {side : Side} {p : Place} (hp : s.position t' = some (side, p)) :
    (s.updates op).Placed t' side p := by
  have hpl := h.placed t' side p hp
  have hblocks := (h.placed t _ _ ht).passed trivial
  have howner : (s.updates op).owner = s.owner := by cases op <;> rfl
  have hsize : (s.updates op).sizeOwner = s.sizeOwner := by cases op <;> rfl
  have hqueue : (s.updates op).queue = s.queue.update op := by cases op <;> rfl
  refine ⟨?_, ?_, ?_⟩
  · rw [howner]
    exact hpl.lock
  · rw [hsize]
    exact hpl.size
  · rw [hqueue]
    intro hpassed
    by_cases hside : side = op.side
    · subst hside
      exact absurd (h.unique ht trivial hp hpassed.holdsLock) hne
    · rw [Side.eq_other hside]
      exact h.sized.not_blocks_update hblocks

theorem Inv.sized_updates (h : Inv capacity s) (hop : s.queue.blocks op.side = false) :
    Sized capacity (s.updates op).queue (s.updates op).enqueues (s.updates op).dequeues := by
  cases op with
  | enqueue elem => exact h.sized.enqueueLocked (h.sized.of_not_blocks hop) elem
  | dequeue => exact h.sized.dequeueLocked (Pcq.pos_of_not_blocks hop)

/-- The steps that the two functions share keep the invariant. -/
theorem Inv.callStep (h : Inv capacity s) (ht : s.position t = some (op.side, place))
    {behind : Option (Activity α)} (hbehind : ∀ y, behind = some y → y.place = .loadTail)
    (hs : s.callStep t op behind place = some s') : Inv capacity s' := by
  have hself := h.placed t _ _ ht
  cases place with
  | lock =>
    obtain ⟨hfree, he⟩ := Option.ite_none_right_eq_some.mp hs
    cases he
    apply Inv.move (s := s)
    · rfl
    · exact h.sized
    · rintro _ ⟨⟩
      exact ⟨fun _ => Function.update_self .., nofun, nofun⟩
    · intro t' hne side p hp
      have hpl := h.placed t' side p hp
      refine ⟨fun hlock => ?_, hpl.size, hpl.passed⟩
      by_cases hside : side = op.side
      · -- nobody was behind the lock
        rw [← hside, hpl.lock hlock] at hfree
        cases hfree
      · exact (Function.update_of_ne hside ..).trans (hpl.lock hlock)
  | test =>
    cases hs
    apply h.moveAlone
    rintro _ ⟨⟩
    cases hblocks : s.queue.blocks op.side with
    | true => exact ⟨fun _ => hself.lock trivial, nofun, nofun⟩
    | false => exact ⟨fun _ => hself.lock trivial, nofun, fun _ => hblocks⟩
  | wait =>
    cases hs
    apply h.moveAlone
    rintro _ ⟨⟩
    exact ⟨fun _ => hself.lock trivial, nofun, nofun⟩
  | lockSize =>
    obtain ⟨hfree, he⟩ := Option.ite_none_right_eq_some.mp hs
    cases he
    apply Inv.move (s := s)
    · rfl
    · exact h.sized
    · rintro _ ⟨⟩
      exact ⟨fun _ => hself.lock trivial, fun _ => rfl, fun _ => hself.passed trivial⟩
    · intro t' hne side p hp
      have hpl := h.placed t' side p hp
      refine ⟨hpl.lock, fun hsize => ?_, hpl.passed⟩
      rw [hpl.size hsize] at hfree
      cases hfree
  | update =>
    cases hs
    apply Inv.move (s := s)
    · cases op <;> rfl
    · exact h.sized_updates (hself.passed trivial)
    · rintro _ ⟨⟩
      refine ⟨fun _ => ?_, fun _ => ?_, nofun⟩
      · cases op <;> exact hself.lock trivial
      · cases op <;> exact hself.size trivial
    · intro t' hne side p hp
      exact h.update_others ht hne hp
  | unlockSize =>
    cases hs
    apply Inv.move (s := s)
    · rfl
    · exact h.sized
    · rintro _ ⟨⟩
      exact ⟨fun _ => hself.lock trivial, nofun, nofun⟩
    · intro t' hne side p hp
      have hpl := h.placed t' side p hp
      refine ⟨hpl.lock, fun hsize => ?_, hpl.passed⟩
      -- only one thread holds the lock of the size
      have howner := (hpl.size hsize).symm.trans (hself.size trivial)
      exact absurd (Option.some_inj.mp howner) hne
  | unlock =>
    cases hs
    apply Inv.move (s := s)
    · rfl
    · exact h.sized
    · intro y hy
      rw [hbehind y hy]
      exact ⟨nofun, nofun, nofun⟩
    · intro t' hne side p hp
      have hpl := h.placed t' side p hp
      refine ⟨fun hlock => ?_, hpl.size, hpl.passed⟩
      by_cases hside : side = op.side
      · subst hside
        exact absurd (h.unique ht trivial hp hlock) hne
      · exact (Function.update_of_ne hside ..).trans (hpl.lock hlock)
  | waiting | signal | loadTail | loadSlot i => cases hs

theorem Inv.pcqDequeue (h : Inv capacity s) (ht : s.position t = some (.consumer, place))
    (hs : s.pcqDequeue t place = some s') : Inv capacity s' := by
  cases place with
  | loadTail =>
    cases hs
    apply h.moveAlone
    rintro _ ⟨⟩
    exact ⟨nofun, nofun, nofun⟩
  | loadSlot i =>
    cases hs
    apply Inv.move (s := s)
    · rfl
    · exact h.sized
    · nofun
    · intro t' _ side p hp
      have hpl := h.placed t' side p hp
      exact ⟨hpl.lock, hpl.size, hpl.passed⟩
  | _ =>
    simp only [Threads.pcqDequeue] at hs
    refine h.callStep ?_ ?_ hs
    · exact ht
    · rintro _ ⟨⟩
      rfl

/-- A blocked thread goes back to its test. -/
theorem Inv.wakeUp (h : Inv capacity s) {w : Fin n} {side : Side} (hw : s.Waits side w) :
    Inv capacity (s.wakeUp w) := by
  apply h.moveAlone
  intro y hy
  obtain ⟨x, hx, hview⟩ := Option.map_eq_some_iff.mp hw
  rw [hx] at hy
  cases hy
  have hside : x.op.side = side := congrArg Prod.fst hview
  subst hside
  exact ⟨fun _ => (h.placed w _ _ hw).lock trivial, nofun, nofun⟩

theorem Inv.signal (h : Inv capacity s) (ht : s.position t = some (op.side, .signal))
    {woken : Option (Fin n)} (hw : s.Wakes op.side.other woken) :
    Inv capacity ((woken.elim s s.wakeUp).setThread t (some ⟨op, .unlockSize⟩)) := by
  have hself := h.placed t _ _ ht
  cases woken with
  | none =>
    apply h.moveAlone
    rintro _ ⟨⟩
    exact ⟨fun _ => hself.lock trivial, fun _ => hself.size trivial, nofun⟩
  | some w =>
    apply (h.wakeUp hw).moveAlone
    rintro _ ⟨⟩
    exact ⟨fun _ => hself.lock trivial, fun _ => hself.size trivial, nofun⟩

/-- What a step is, by the position of its thread. -/
inductive Outcome (s : Threads α n) : ThreadLabel α n → Threads α n → Prop
  | calls (t : Fin n) (op : Op α) :
      s.position t = none → Outcome s (.call t op) (s.setThread t (some ⟨op, .lock⟩))
  | inserts (t : Fin n) (elem : α) (place : Place) (s' : Threads α n) :
      s.position t = some (.producer, place) → s.pcqEnqueue t elem place = some s' →
      Outcome s (.step t) s'
  | removes (t : Fin n) (place : Place) (s' : Threads α n) :
      s.position t = some (.consumer, place) → s.pcqDequeue t place = some s' →
      Outcome s (.step t) s'
  | signals (t : Fin n) (op : Op α) (woken : Option (Fin n)) :
      s.position t = some (op.side, .signal) → s.Wakes op.side.other woken →
      Outcome s (.signal t woken)
        ((woken.elim s s.wakeUp).setThread t (some ⟨op, .unlockSize⟩))
  | wakes (t : Fin n) (op : Op α) :
      s.position t = some (op.side, .waiting) →
      Outcome s (.wake t) (s.setThread t (some ⟨op, .test⟩))

theorem outcome_of_step {a : ThreadLabel α n} (hs : s.step a = some s') : Outcome s a s' := by
  have hview : ∀ {t x}, s.threads t = some x → s.position t = some x.view :=
    fun hx => congrArg (Option.map Activity.view) hx
  cases a with
  | call t op =>
    obtain ⟨hnone, ⟨⟩⟩ := Option.ite_none_right_eq_some.mp hs
    refine .calls t op ?_
    rw [position, Option.isNone_iff_eq_none.mp hnone]
    rfl
  | step t =>
    simp only [Threads.step] at hs
    split at hs
    · next elem place hx => exact .inserts t elem place s' (hview hx) hs
    · next place hx => exact .removes t place s' (hview hx) hs
    · cases hs
  | signal t woken =>
    simp only [Threads.step] at hs
    split at hs
    · next op hx =>
      obtain ⟨hw, ⟨⟩⟩ := Option.ite_none_right_eq_some.mp hs
      exact .signals t op woken (hview hx) hw
    · cases hs
  | wake t =>
    simp only [Threads.step] at hs
    split at hs
    · next op hx =>
      cases hs
      exact .wakes t op (hview hx)
    · cases hs

/-- Every step keeps the invariant. -/
theorem Inv.step (h : Inv capacity s) (a : ThreadLabel α n) (hs : s.step a = some s') :
    Inv capacity s' := by
  cases outcome_of_step hs with
  | calls t op _ =>
    apply h.moveAlone
    rintro _ ⟨⟩
    exact ⟨nofun, nofun, nofun⟩
  | inserts t elem place s' ht hs =>
    have hcall : s.callStep t (.enqueue elem) none place = some s' := hs
    exact h.callStep ht (by rintro _ ⟨⟩) hcall
  | removes t place s' ht hs => exact h.pcqDequeue ht hs
  | signals t op woken ht hw => exact h.signal ht hw
  | wakes t op ht =>
    apply h.moveAlone
    rintro _ ⟨⟩
    exact ⟨fun _ => (h.placed t _ _ ht).lock trivial, nofun, nofun⟩

theorem inv_of_reaches (h : Reaches step anyStep (initial capacity : Threads α n) s) :
    Inv capacity s :=
  h.invariant (inv_initial capacity) fun _ a _ hu _ hs => hu.step a hs

theorem Inv.bounded (h : Inv capacity s) : s.Bounded where
  size_le := h.sized.size_le
  size_eq := by
    have := h.sized.size_eq
    omega
  tail_eq := h.sized.tail_eq
  nonempty t ht := by
    have hp := h.placed t .consumer .update (congrArg (Option.map Activity.view) ht)
    exact Pcq.pos_of_not_blocks (hp.passed trivial)
  shift t elem ht := by
    have hp := h.placed t .producer .update (congrArg (Option.map Activity.view) ht)
    exact Pcq.enqueueChecked_eq (h.sized.of_not_blocks (hp.passed trivial)) elem

/-- In every state that any number of threads can reach, the queue keeps to its bounds. -/
theorem bounded_of_reaches (capacity : UInt64)
    (h : Reaches step anyStep (initial capacity : Threads α n) s) : s.Bounded :=
  (inv_of_reaches h).bounded

/-- Thread `0` inserts `5` into a queue of capacity `1`, and thread `1` comes up to its update. -/
def insertAndPass : List (ThreadLabel Nat 2) :=
  [.call 0 (.enqueue 5), .step 0, .step 0, .step 0, .step 0, .signal 0 none, .step 0, .step 0,
    .call 1 .dequeue, .step 1, .step 1, .step 1]

theorem insertAndPass_bounded :
    ∃ s, runLabels step (initial 1) insertAndPass = some s ∧
      s.threads 1 = some ⟨.dequeue, .update⟩ ∧ s.Bounded :=
  have hrun : runLabels step (initial 1) insertAndPass = some _ := rfl
  ⟨_, hrun, rfl, bounded_of_reaches 1 (reaches_of_runLabels hrun)⟩

end Threads
end MessageBroker.ProducerConsumer
