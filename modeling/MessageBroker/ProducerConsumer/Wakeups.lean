import MessageBroker.Lib.Table
import MessageBroker.ProducerConsumer.Threads

/-!
# Lost wake-ups

A thread that has failed its test blocks without a lock that the updates of the other
side need. A signal sent between the two wakes up nobody, and the thread then sleeps
on a queue that has what it waits for. In runs without such a signal some thread of
the other side is always about to signal when a thread sleeps without need.
-/

namespace MessageBroker.ProducerConsumer

open Table Transition

variable {α : Type*} {n : Nat}

/-- The queue has what the threads of a side wait for. -/
def Pcq.Ready (q : Pcq α) : Side → Prop
  | .producer => q.currentSize < q.capacity
  | .consumer => 0 < q.currentSize

/-- The thread has failed its test, and is going to block or is blocked. -/
def Place.Sleeps : Place → Prop
  | wait | waiting => True
  | _ => False

theorem Place.Sleeps.holdsLock {p : Place} (h : p.Sleeps) : p.HoldsLock := by
  cases p <;> trivial

theorem Side.other_other (side : Side) : side.other.other = side := by
  cases side <;> rfl

namespace Threads

/-- A thread of a side is blocked on a queue that has what it waits for, and every thread inside
the queue is blocked. -/
def Forgotten (s : Threads α n) (side : Side) : Prop :=
  (∃ t, s.Waits side t) ∧ s.queue.Ready side ∧ ∀ t v, s.position t = some v → v.2 = .waiting

/-- No signal is sent while a thread of the side that it is for has failed its test and is not
blocked yet. -/
def Heard (s : Threads α n) : ThreadLabel α n → Prop
  | .signal t _ => ∀ v ∈ s.position t, ∀ t', s.position t' ≠ some (v.1.other, .wait)
  | _ => True

instance (s : Threads α n) : (a : ThreadLabel α n) → Decidable (s.Heard a)
  | .signal t _ => inferInstanceAs (Decidable (∀ v ∈ s.position t, ∀ _, _ ≠ _))
  | .call .. | .step _ | .wake _ => isTrue trivial

/-- When a thread sleeps without need, a thread of the other side is about to signal. -/
def Attended (s : Threads α n) : Prop :=
  ∀ side t p, s.position t = some (side, p) → p.Sleeps → s.queue.Ready side →
    ∃ t', s.position t' = some (side.other, .signal)

/-- The invariant of runs without unheard signals. -/
structure Served (capacity : UInt64) (s : Threads α n) : Prop where
  inv : Inv capacity s
  attended : s.Attended

variable {capacity : UInt64} {s s' : Threads α n} {t : Fin n} {op : Op α} {place : Place}

theorem not_ready_of_blocks {q : Pcq α} {side : Side} (h : q.blocks side = true) :
    ¬ q.Ready side := by
  cases side with
  | producer => exact (eq_of_beq h).not_lt
  | consumer => exact (eq_of_beq h).not_gt

theorem attended_initial (capacity : UInt64) : (initial capacity : Threads α n).Attended := by
  intro side t p h
  cases h

/-- A step that leaves the queue alone and is no signal: a thread falls asleep only on a queue that
it has found not ready. -/
theorem Attended.quiet (h : s.Attended) {x : Option (Side × Place)} (hqueue : s'.queue = s.queue)
    (hpos : s'.position = Function.update s.position t x)
    (hsignal : ∀ side, s.position t ≠ some (side, .signal))
    (hself : ∀ side p, x = some (side, p) → p.Sleeps → s.queue.Ready side →
      ∃ p', s.position t = some (side, p') ∧ p'.Sleeps) : s'.Attended := by
  intro side t' p hp hsleeps hready
  rw [hqueue] at hready
  obtain ⟨w, hw⟩ : ∃ w, s.position w = some (side.other, .signal) := by
    rw [hpos] at hp
    obtain ⟨rfl, hx⟩ | ⟨_, hold⟩ := update_apply_eq_iff.mp hp
    · obtain ⟨p', hp', hsleeps'⟩ := hself side p hx hsleeps hready
      exact h side t' p' hp' hsleeps' hready
    · exact h side t' p hold hsleeps hready
  refine ⟨w, ?_⟩
  have hne : w ≠ t := by
    rintro rfl
    exact hsignal _ hw
  rw [hpos, Function.update_of_ne hne, hw]

/-- The place that a step leads to is not one of sleep. -/
theorem Attended.awake (h : s.Attended) {x : Option (Activity α)}
    (hqueue : s'.queue = s.queue) (hthreads : s'.threads = Function.update s.threads t x)
    (hsignal : ∀ side, s.position t ≠ some (side, .signal))
    (hself : ∀ y, x = some y → ¬ y.place.Sleeps) : s'.Attended := by
  refine h.quiet (t := t) (x := x.map Activity.view) hqueue ?_ hsignal ?_
  · exact (position_congr hthreads).trans (position_setThread s t x)
  · intro side p hx hsleeps
    obtain ⟨y, hy, hview⟩ := Option.map_eq_some_iff.mp hx
    have hplace : y.place = p := congrArg Prod.snd hview
    exact absurd (hplace ▸ hsleeps) (hself y hy)

/-- No thread of the side of an update sleeps, and the updating thread goes on to signal to the
other side. -/
theorem Attended.update (hinv : Inv capacity s) (ht : s.position t = some (op.side, .update)) :
    ((s.updates op).setThread t (some ⟨op, .signal⟩)).Attended := by
  have hthreads : (s.updates op).threads = s.threads := by cases op <;> rfl
  have hpos : ((s.updates op).setThread t (some ⟨op, .signal⟩)).position =
      Function.update s.position t (some (op.side, .signal)) := by
    rw [position_setThread, position_congr hthreads]
    rfl
  intro side t' p hp hsleeps _
  rw [hpos] at hp
  obtain ⟨_, ⟨⟩⟩ | ⟨hne, hp⟩ := update_apply_eq_iff.mp hp
  · cases hsleeps
  · by_cases hside : side = op.side
    · subst hside
      exact absurd (hinv.unique ht trivial hp hsleeps.holdsLock) hne
    · refine ⟨t, ?_⟩
      rw [hpos, Function.update_self, Side.eq_other hside, Side.other_other]

/-- Behind a signal that is heard, nobody sleeps: the sender's side is behind the lock of the
sender, and the one thread of the other side that may have been blocked is woken up. -/
theorem Attended.signal (hinv : Inv capacity s) (ht : s.position t = some (op.side, .signal))
    (hheard : ∀ t', s.position t' ≠ some (op.side.other, .wait)) {woken : Option (Fin n)}
    (hw : s.Wakes op.side.other woken) :
    ((woken.elim s s.wakeUp).setThread t (some ⟨op, .unlockSize⟩)).Attended := by
  have hpos : ∀ t' ≠ t, ∀ side p, p.Sleeps →
      (woken.elim s s.wakeUp).position t' = some (side, p) →
        s.position t' = some (side, p) ∧ woken ≠ some t' := by
    intro t' _ side p hsleeps hp
    cases woken with
    | none => exact ⟨hp, nofun⟩
    | some w =>
      by_cases hne : t' = w
      · subst hne
        change (s.wakeUp t').position t' = _ at hp
        rw [wakeUp, position_setThread, Function.update_self, Option.map_map] at hp
        obtain ⟨y, _, hview⟩ := Option.map_eq_some_iff.mp hp
        have hplace : Place.test = p := congrArg Prod.snd hview
        subst hplace
        cases hsleeps
      · change (s.wakeUp w).position t' = _ at hp
        rw [wakeUp, position_setThread, Function.update_of_ne hne] at hp
        exact ⟨hp, fun he => hne (Option.some_inj.mp he).symm⟩
  intro side t' p hp hsleeps _
  rw [position_setThread] at hp
  obtain ⟨_, ⟨⟩⟩ | ⟨hne, hp⟩ := update_apply_eq_iff.mp hp
  · cases hsleeps
  · obtain ⟨hold, hnot⟩ := hpos t' hne side p hsleeps hp
    -- a sleeper of the side of the sender would hold the lock of the sender
    by_cases hside : side = op.side
    · subst hside
      exact absurd (hinv.unique ht trivial hold hsleeps.holdsLock) hne
    · rw [Side.eq_other hside] at hold
      cases p with
      | wait => exact absurd hold (hheard t')
      | waiting =>
        cases woken with
        | none => exact absurd hold (hw t')
        | some w =>
          have := hinv.unique hw trivial hold trivial
          exact absurd (congrArg some this.symm) hnot
      | _ => cases hsleeps

theorem not_signal {side : Side} (ht : s.position t = some (side, place)) (hne : place ≠ .signal)
    (side' : Side) : s.position t ≠ some (side', .signal) := by
  rw [ht]
  rintro ⟨⟩
  exact hne rfl

theorem Attended.callStep (h : s.Attended) (hinv : Inv capacity s)
    (ht : s.position t = some (op.side, place)) {behind : Option (Activity α)}
    (hbehind : ∀ y, behind = some y → y.place = .loadTail)
    (hs : s.callStep t op behind place = some s') : s'.Attended := by
  cases place with
  | lock =>
    obtain ⟨_, he⟩ := Option.ite_none_right_eq_some.mp hs
    cases he
    refine h.awake rfl rfl (not_signal ht nofun) ?_
    rintro _ ⟨⟩
    exact id
  | test =>
    cases hs
    refine h.quiet rfl (position_setThread _ _ _) (not_signal ht nofun) ?_
    intro side p hx hsleeps hready
    cases hblocks : s.queue.blocks op.side with
    | true =>
      rw [hblocks] at hx
      cases hx
      exact absurd hready (not_ready_of_blocks hblocks)
    | false =>
      rw [hblocks] at hx
      cases hx
      cases hsleeps
  | wait =>
    cases hs
    refine h.quiet rfl (position_setThread _ _ _) (not_signal ht nofun) ?_
    intro side p hx _ _
    cases hx
    exact ⟨.wait, ht, trivial⟩
  | lockSize =>
    obtain ⟨_, he⟩ := Option.ite_none_right_eq_some.mp hs
    cases he
    refine h.awake rfl rfl (not_signal ht nofun) ?_
    rintro _ ⟨⟩
    exact id
  | update =>
    cases hs
    exact Attended.update hinv ht
  | unlockSize =>
    cases hs
    refine h.awake rfl rfl (not_signal ht nofun) ?_
    rintro _ ⟨⟩
    exact id
  | unlock =>
    cases hs
    refine h.awake rfl rfl (not_signal ht nofun) ?_
    intro y hy
    rw [hbehind y hy]
    exact id
  | waiting | signal | loadTail | loadSlot i => cases hs

theorem Attended.pcqDequeue (h : s.Attended) (hinv : Inv capacity s)
    (ht : s.position t = some (.consumer, place)) (hs : s.pcqDequeue t place = some s') :
    s'.Attended := by
  cases place with
  | loadTail =>
    cases hs
    refine h.awake rfl rfl (not_signal ht nofun) ?_
    rintro _ ⟨⟩
    exact id
  | loadSlot i =>
    cases hs
    exact h.awake rfl rfl (not_signal ht nofun) nofun
  | _ =>
    simp only [Threads.pcqDequeue] at hs
    refine h.callStep hinv ?_ ?_ hs
    · exact ht
    · rintro _ ⟨⟩
      rfl

/-- A step that sends no unheard signal keeps a thread at hand for every needless sleeper. -/
theorem Attended.step (h : s.Attended) (hinv : Inv capacity s) (a : ThreadLabel α n)
    (hok : s.Heard a) (hs : s.step a = some s') : s'.Attended := by
  cases outcome_of_step hs with
  | calls t op ht =>
    refine h.awake rfl rfl ?_ ?_
    · intro side
      rw [ht]
      nofun
    · rintro _ ⟨⟩
      exact id
  | inserts t elem place s' ht hs =>
    have hcall : s.callStep t (.enqueue elem) none place = some s' := hs
    exact h.callStep hinv ht (by rintro _ ⟨⟩) hcall
  | removes t place s' ht hs => exact h.pcqDequeue hinv ht hs
  | signals t op woken ht hw => exact Attended.signal hinv ht (hok _ ht) hw
  | wakes t op ht =>
    refine h.awake rfl rfl (not_signal ht nofun) ?_
    rintro _ ⟨⟩
    exact id

theorem Attended.not_forgotten (h : s.Attended) (side : Side) : ¬ s.Forgotten side := by
  rintro ⟨⟨t, ht⟩, hready, hall⟩
  obtain ⟨w, hw⟩ := h side t .waiting ht trivial hready
  cases hall w _ hw

/-- In a run without unheard signals, no thread is left blocked on a queue that has what it waits
for while only blocked threads are inside. -/
theorem not_forgotten_of_reaches (capacity : UInt64)
    (h : Reaches step Heard (initial capacity : Threads α n) s) (side : Side) :
    ¬ s.Forgotten side := by
  have hserved : Served capacity s := by
    refine h.invariant ⟨inv_initial capacity, attended_initial capacity⟩ ?_
    intro u a v hu hok hs
    exact ⟨hu.inv.step a hs, hu.attended.step hu.inv a hok hs⟩
  exact hserved.attended.not_forgotten side

/-- Thread `0` of the runs below. -/
def taker : Fin 2 := ⟨0, Nat.two_pos⟩

/-- Thread `1` of the runs below. -/
def giver : Fin 2 := ⟨1, Nat.one_lt_two⟩

/-- Thread `0` blocks on the empty queue, and thread `1` inserts `5` and wakes it up. -/
def heardSignal : List (ThreadLabel Nat 2) :=
  [.call taker .dequeue, .step taker, .step taker, .step taker, .call giver (.enqueue 5),
    .step giver, .step giver, .step giver, .step giver]

theorem heardSignal_not_forgotten :
    ∃ s, runLabels step (initial 1) (heardSignal ++ [.signal 1 (some 0)]) = some s ∧
      s.threads 0 = some ⟨.dequeue, .test⟩ ∧ ∀ side, ¬ s.Forgotten side := by
  have hrun : runLabels (guarded step Heard) (initial 1) (heardSignal ++ [.signal 1 (some 0)]) =
    some _ := rfl
  have hplain : runLabels step (initial 1) (heardSignal ++ [.signal 1 (some 0)]) = some _ := rfl
  exact ⟨_, hplain, rfl, not_forgotten_of_reaches 1 (reaches_of_guarded hrun)⟩

/-- Thread `0` finds the queue empty; before it blocks, thread `1` inserts `5`, signals and
leaves. -/
def lostSignal : List (ThreadLabel Nat 2) :=
  [.call taker .dequeue, .step taker, .step taker, .call giver (.enqueue 5), .step giver,
    .step giver, .step giver, .step giver, .signal giver none, .step giver, .step giver,
    .step taker]

/-- The consumer sleeps, the queue holds an element, and nobody else is inside. -/
theorem lostSignal_forgotten :
    ∃ s, runLabels step (initial 1) lostSignal = some s ∧ s.queue.currentSize = 1 ∧
      s.Waits .consumer 0 ∧ s.threads 1 = none ∧ s.Forgotten .consumer := by
  have hrun : runLabels step (initial 1) lostSignal = some _ := rfl
  refine ⟨_, hrun, rfl, rfl, rfl, ⟨0, rfl⟩, Nat.one_pos, Fin.forall_fin_two.mpr ⟨?_, ?_⟩⟩
  · rintro v ⟨⟩
    rfl
  · rintro v ⟨⟩

end Threads
end MessageBroker.ProducerConsumer
