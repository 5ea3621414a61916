import MessageBroker.Broker.Subscriber

/-!
# When a subscriber polls

What a subscriber receives, as a function of the order in which messages are
published and passes are made. A pass that ends at the end of the file counts the
read that has failed, and the byte that is published next then looks as if it had
been forwarded. If that byte is a whole message, the terminator of an empty one,
the message is lost; otherwise the order makes no difference.
-/

namespace MessageBroker.Broker

open Transition Tfs Tfs.Fs

namespace Delivery

/-- What happens to a box with one subscriber. -/
inductive Event
  | publish (text : Text)
  /-- The subscriber makes a pass, with `stale` bytes in its new `buffer`. -/
  | pass (stale : List UInt8)

namespace Event

def label : Event → DeliveryLabel
  | publish text => .publish text
  | pass stale => .poll 0 stale

def text? : Event → Option Text
  | publish text => some text
  | pass _ => none

end Event

/-- The messages that are published, in their order. -/
def messages (events : List Event) : List Text := events.filterMap Event.text?

/-- The messages are published among passes, and more passes follow than there are messages. -/
def Schedule (published : List Text) (events : List Event) : Prop :=
  ∃ (before : List Event) (passes : List (List UInt8)), events = before ++ passes.map Event.pass ∧
    messages before = published ∧ published.length < passes.length

/-- What is forwarded to a subscriber of the box that starts before the events. -/
def forwardedIn (box : BoxName) (index : Nat) (srv : Server) (events : List Event) :
    Option (List CString) :=
  (runLabels (step box index) (.initial srv) (.subscribe 0 :: events.map Event.label)).bind
    fun s => (s.subscribers 0).map Subscription.forwarded

/-! ### The receiver -/

/-- The messages in the box and its subscriber, without the file system. -/
structure Receiver where
  published : List Text
  sub : Subscription

namespace Receiver

def next (r : Receiver) : Event → Receiver
  | .publish text => { r with published := r.published ++ [text] }
  | .pass stale =>
    let scan := scanBytes r.sub.bytesProcessed (file r.published) 0 []
    { r with sub := ⟨scan.count, r.sub.forwarded ++ (scan.message stale).toList⟩ }

def run (r : Receiver) (events : List Event) : Receiver := events.foldl next r

@[simp] theorem run_cons (r : Receiver) (e : Event) (events : List Event) :
    r.run (e :: events) = (r.next e).run events := rfl

theorem run_append (r : Receiver) (events events' : List Event) :
    r.run (events ++ events') = (r.run events).run events' := List.foldl_append

theorem published_run (r : Receiver) (events : List Event) :
    (r.run events).published = r.published ++ messages events := by
  induction events generalizing r with
  | nil => exact (List.append_nil _).symm
  | cons e events ih =>
    rw [run_cons, ih]
    cases e with
    | publish text => exact List.append_assoc r.published [text] (messages events)
    | pass stale => rfl

end Receiver

/-- The sessions do what the receiver does. -/
structure Simulates (box : BoxName) (s : Delivery) (r : Receiver) : Prop where
  holds : HoldsFile box s.server r.published
  sub : s.subscribers 0 = some r.sub

variable {box : BoxName} {index : Nat} {srv : Server} {s : Delivery} {r : Receiver}

theorem Simulates.publish (h : Simulates box s r) (index : Nat) {text : Text}
    (hlen : (file (r.published ++ [text])).length ≤ tfsDefaultParams.blockSize) :
    ∃ s', step box index s (.publish text) = some s' ∧
      Simulates box s' (r.next (.publish text)) := by
  obtain ⟨fs', heq, hholds⟩ := h.holds.publish index text hlen
  exact ⟨_, step_publish heq, hholds, h.sub⟩

theorem Simulates.pass (h : Simulates box s r) (index : Nat) (stale : List UInt8) :
    ∃ s', step box index s (.poll 0 stale) = some s' ∧
      Simulates box s' (r.next (.pass stale)) := by
  obtain ⟨fs', heq, hholds⟩ := h.holds.poll index r.sub.bytesProcessed stale
  refine ⟨(s.setServer (s.server.setFs fs')).setSubscriber 0 (some (r.next (.pass stale)).sub),
    ?_, hholds, ?_⟩
  · simp only [step, h.sub, heq]
    rfl
  · simp only [setSubscriber, Function.update_self]

/-- As long as everything fits in the block, so do whole runs. -/
theorem Simulates.run (h : Simulates box s r) (index : Nat) (events : List Event)
    (hlen : (file (r.published ++ messages events)).length ≤ tfsDefaultParams.blockSize) :
    ∃ s', runLabels (step box index) s (events.map Event.label) = some s' ∧
      Simulates box s' (r.run events) := by
  induction events generalizing s r with
  | nil => exact ⟨s, rfl, h⟩
  | cons e events ih =>
    obtain ⟨s₁, hstep, h₁⟩ : ∃ s₁, step box index s e.label = some s₁ ∧
        Simulates box s₁ (r.next e) := by
      cases e with
      | publish text =>
        apply h.publish
        refine le_trans ?_ hlen
        have hsplit : r.published ++ messages (.publish text :: events) =
            (r.published ++ [text]) ++ messages events := by
          rw [List.append_assoc]
          rfl
        rw [hsplit, file_append _ (messages events), List.length_append]
        exact Nat.le_add_right _ _
      | pass stale => exact h.pass index stale
    -- the messages to come are the same
    have hlen₁ : (file ((r.next e).published ++ messages events)).length ≤
        tfsDefaultParams.blockSize := by
      have hnext := Receiver.published_run r (e :: events)
      rw [Receiver.run_cons, Receiver.published_run] at hnext
      rwa [hnext]
    obtain ⟨s', hrun, h'⟩ := ih h₁ hlen₁
    refine ⟨s', ?_, h'⟩
    rw [List.map_cons, runLabels, hstep]
    exact hrun

/-- The receiver of a box without messages. -/
def Receiver.start : Receiver := ⟨[], 0, []⟩

/-- A subscriber of an empty box receives what the receiver receives. -/
theorem forwardedIn_eq (h : HoldsFile box srv []) (index : Nat) {events : List Event}
    (hlen : (file (messages events)).length ≤ tfsDefaultParams.blockSize) :
    forwardedIn box index srv events = some (Receiver.start.run events).sub.forwarded := by
  obtain ⟨s₀, hs₀, hsim⟩ : ∃ s₀, step box index (.initial srv) (.subscribe 0) = some s₀ ∧
      Simulates box s₀ Receiver.start :=
    ⟨_, rfl, h, rfl⟩
  obtain ⟨s', hrun, hsim'⟩ := hsim.run index events hlen
  rw [forwardedIn, runLabels, hs₀, Option.bind_some, hrun, Option.bind_some, hsim'.sub]
  rfl

/-! ### Passes behind the last message -/

/-- The receiver has dealt with the first `k` messages: its next pass starts behind them, or one
read behind all of them. -/
structure Receiver.Behind (r : Receiver) (k : Nat) : Prop where
  le : k ≤ r.published.length
  position : r.sub.bytesProcessed = (file (r.published.take k)).length ∨
    k = r.published.length ∧ r.sub.bytesProcessed = (file (r.published.take k)).length + 1

namespace Receiver

variable {k : Nat} {text : Text}

theorem published_passes (r : Receiver) (passes : List (List UInt8)) :
    (r.run (passes.map .pass)).published = r.published := by
  induction passes generalizing r with
  | nil => rfl
  | cons stale passes ih => exact ih _

/-- With a message left a pass forwards it, even an empty one. -/
theorem Behind.pass_next (h : r.Behind k) (hk : r.published[k]? = some text) (stale : List UInt8) :
    (r.next (.pass stale)).sub.forwarded = r.sub.forwarded ++ [text.text] ∧
      (r.next (.pass stale)).Behind (k + 1) := by
  obtain ⟨hlt, _⟩ := List.getElem?_eq_some_iff.mp hk
  have hpos : r.sub.bytesProcessed = (file (r.published.take k)).length := by
    rcases h.position with hp | ⟨hend, _⟩
    · exact hp
    · omega
  have hscan := scan_next hk hpos.ge (by omega) (fun _ => hpos.le)
  refine ⟨?_, hlt, Or.inl ?_⟩
  · simp only [next, hscan, message_next]
    rfl
  · simp only [next, hscan]

/-- With no message left a pass forwards nothing and counts the read that has failed. -/
theorem Behind.pass_end (h : r.Behind r.published.length) (stale : List UInt8) :
    (r.next (.pass stale)).sub = ⟨(file r.published).length + 1, r.sub.forwarded⟩ := by
  have hscan : scanBytes r.sub.bytesProcessed (file r.published) 0 [] =
      ⟨(file r.published).length + 1, [], 0⟩ := by
    apply scan_end
    have hp := h.position
    rw [List.take_length] at hp
    omega
  simp only [next, hscan]
  exact congrArg _ (List.append_nil _)

theorem Behind.pass (h : r.Behind k) (stale : List UInt8) :
    (r.next (.pass stale)).sub.forwarded =
        r.sub.forwarded ++ ((r.published.drop k).take 1).map Text.text ∧
      (r.next (.pass stale)).Behind (min (k + 1) r.published.length) := by
  cases hk : r.published[k]? with
  | some text =>
    obtain ⟨hlt, hget⟩ := List.getElem?_eq_some_iff.mp hk
    obtain ⟨hforwarded, hbehind⟩ := h.pass_next hk stale
    rw [hforwarded, List.drop_eq_getElem_cons hlt, hget, min_eq_left hlt]
    exact ⟨rfl, hbehind⟩
  | none =>
    obtain rfl : k = r.published.length :=
      le_antisymm h.le (List.getElem?_eq_none_iff.mp hk)
    have hend := h.pass_end stale
    rw [hend, List.drop_length, min_eq_right (Nat.le_succ _)]
    refine ⟨(List.append_nil _).symm, le_refl _, Or.inr ⟨rfl, ?_⟩⟩
    show (r.next (.pass stale)).sub.bytesProcessed = (file (r.published.take _)).length + 1
    rw [hend, List.take_length]

/-- Passes forward one message each, up to the last one. -/
theorem Behind.passes (h : r.Behind k) (passes : List (List UInt8)) :
    (r.run (passes.map .pass)).sub.forwarded =
        r.sub.forwarded ++ ((r.published.drop k).take passes.length).map Text.text ∧
      (r.run (passes.map .pass)).Behind (min (k + passes.length) r.published.length) := by
  induction passes generalizing r k with
  | nil =>
    rw [List.length_nil, List.take_zero, Nat.add_zero, min_eq_left h.le]
    exact ⟨(List.append_nil _).symm, h⟩
  | cons stale passes ih =>
    obtain ⟨hforwarded, hbehind⟩ := h.pass stale
    obtain ⟨hrest, hbehind'⟩ := ih hbehind
    have hpublished : (r.next (.pass stale)).published = r.published := rfl
    rw [hpublished] at hrest hbehind'
    refine ⟨?_, ?_⟩
    · rw [List.map_cons, run_cons, hrest, hforwarded, List.append_assoc, ← List.map_append]
      congr 2
      rw [List.length_cons, Nat.add_comm passes.length 1, List.take_add, List.drop_drop]
      congr 2
      -- behind the last message a pass forwards nothing
      by_cases hlt : k < r.published.length
      · rw [min_eq_left hlt]
      · rw [List.drop_eq_nil_of_le (by omega), List.drop_eq_nil_of_le (by omega)]
    · rw [List.map_cons, run_cons, List.length_cons]
      have hmin : min (min (k + 1) r.published.length + passes.length) r.published.length =
          min (k + (passes.length + 1)) r.published.length := by omega
      rwa [← hmin]

/-- The receiver follows messages that are not empty, whenever it polls. -/
theorem follows_run (h : ∃ k, Follows r.published r.sub k) (events : List Event)
    (hpos : ∀ text ∈ r.published ++ messages events, 0 < text.text.length) :
    ∃ k, Follows (r.run events).published (r.run events).sub k := by
  induction events generalizing r with
  | nil => exact h
  | cons e events ih =>
    obtain ⟨k, hf⟩ := h
    refine ih ?_ ?_
    · cases e with
      | publish text => exact ⟨k, hf.publish text⟩
      | pass stale =>
        have hold : ∀ text ∈ r.published, 0 < text.text.length := by
          intro text hmem
          exact hpos text (List.mem_append_left _ hmem)
        exact ⟨_, hf.poll hold stale⟩
    · have hnext := published_run r (e :: events)
      rw [run_cons, published_run] at hnext
      rwa [hnext]

/-- Passes behind the last message that are more than the messages deal with all of them. -/
theorem follows_passes (hf : Follows r.published r.sub k)
    (hpos : ∀ text ∈ r.published, 0 < text.text.length) (passes : List (List UInt8)) :
    Follows r.published (r.run (passes.map .pass)).sub
      (min (k + passes.length) r.published.length) := by
  induction passes generalizing r k with
  | nil =>
    rw [List.length_nil, Nat.add_zero, min_eq_left hf.le]
    exact hf
  | cons stale passes ih =>
    have hrest := ih (r := r.next (.pass stale)) (hf.poll hpos stale) hpos
    have hmin : min (min (k + 1) r.published.length + passes.length) r.published.length =
        min (k + (passes.length + 1)) r.published.length := by omega
    rw [List.map_cons, run_cons, List.length_cons, ← hmin]
    exact hrest

end Receiver

/-! ### Schedules -/

theorem messages_append (events events' : List Event) :
    messages (events ++ events') = messages events ++ messages events' := List.filterMap_append

theorem messages_publish (published : List Text) :
    messages (published.map Event.publish) = published := by
  induction published with
  | nil => rfl
  | cons text published ih => exact congrArg (text :: ·) ih

theorem messages_pass (passes : List (List UInt8)) : messages (passes.map Event.pass) = [] := by
  induction passes with
  | nil => rfl
  | cons stale passes ih => exact ih

theorem Receiver.run_publish (r : Receiver) (published : List Text) :
    r.run (published.map .publish) = { r with published := r.published ++ published } := by
  induction published generalizing r with
  | nil => simp [run]
  | cons text published ih =>
    rw [List.map_cons, run_cons, ih]
    simp [next]

variable {published : List Text} {events : List Event}

theorem Schedule.messages_eq (h : Schedule published events) : messages events = published := by
  obtain ⟨before, passes, rfl, hbefore, _⟩ := h
  rw [messages_append, messages_pass, List.append_nil, hbefore]

/-- Messages that are not empty are all received, on every schedule. -/
theorem Schedule.forwarded (h : Schedule published events)
    (hpos : ∀ text ∈ published, 0 < text.text.length) :
    (Receiver.start.run events).sub.forwarded = published.map Text.text := by
  obtain ⟨before, passes, rfl, hbefore, hmore⟩ := h
  have hpublished : (Receiver.start.run before).published = published := by
    rw [Receiver.published_run, hbefore]
    rfl
  obtain ⟨k, hf⟩ : ∃ k, Follows (Receiver.start.run before).published
      (Receiver.start.run before).sub k := by
    refine Receiver.follows_run ⟨0, le_refl _, rfl, Or.inl rfl⟩ before ?_
    rw [hbefore]
    exact hpos
  have hall := Receiver.follows_passes hf (hpublished.symm ▸ hpos) passes
  rw [hpublished, min_eq_right (by omega)] at hall
  rw [Receiver.run_append, hall.forwarded, List.take_length]

/-- When all passes are made behind the last message, all messages are received. -/
theorem forwarded_of_late (published : List Text) {passes : List (List UInt8)}
    (hmore : published.length < passes.length) :
    (Receiver.start.run (published.map .publish ++ passes.map .pass)).sub.forwarded =
      published.map Text.text := by
  rw [Receiver.run_append, Receiver.run_publish]
  have hbehind : Receiver.Behind ⟨published, 0, []⟩ 0 := ⟨Nat.zero_le _, Or.inl rfl⟩
  have hall := (hbehind.passes passes).1
  rw [List.drop_zero, List.take_of_length_le hmore.le] at hall
  exact hall

/-- A pass that ends behind the messages `p` makes the receiver miss an empty message that is
published next. -/
theorem forwarded_of_missed {p q : List Text} {text : Text} (hempty : text.text.length = 0)
    {early passes : List (List UInt8)} (hearly : p.length = early.length)
    (hmore : (p ++ text :: q).length < passes.length) :
    (Receiver.start.run (p.map .publish ++ (early.map .pass ++ [.pass []]) ++
        (text :: q).map .publish ++ passes.map .pass)).sub.forwarded =
      (p ++ q).map Text.text := by
  have hbehind : Receiver.Behind ⟨p, 0, []⟩ 0 := ⟨Nat.zero_le _, Or.inl rfl⟩
  obtain ⟨hearlier, hend⟩ := hbehind.passes early
  have hpublished : (Receiver.run ⟨p, 0, []⟩ (early.map .pass)).published = p :=
    Receiver.published_passes _ early
  generalize hr : Receiver.run ⟨p, 0, []⟩ (early.map .pass) = r at hearlier hend hpublished
  rw [List.drop_zero, List.take_of_length_le hearly.le] at hearlier
  change r.sub.forwarded = p.map Text.text at hearlier
  rw [Nat.zero_add, ← hearly, min_self, ← hpublished] at hend
  have hsub := hend.pass_end []
  rw [hpublished, hearlier] at hsub
  -- the pass behind `p` has counted one read more than there are bytes
  have hmissed : (r.next (.pass [])).run ((text :: q).map .publish) =
      ⟨p ++ text :: q, (file p).length + 1, p.map Text.text⟩ := by
    rw [Receiver.run_publish]
    show Receiver.mk (r.published ++ text :: q) (r.next (.pass [])).sub = _
    rw [hsub, hpublished]
  have htake : (p ++ text :: q).take (p.length + 1) = p ++ [text] := by
    rw [List.take_length_add_append]
    rfl
  have hskips : Receiver.Behind ⟨p ++ text :: q, (file p).length + 1, p.map Text.text⟩
      (p.length + 1) := by
    refine ⟨by simp, Or.inl ?_⟩
    rw [htake, file_append, file_cons, List.length_append]
    show _ = _ + (text.text.bytes ++ [0]).length
    rw [List.length_append, show text.text.bytes.length = 0 from hempty]
    rfl
  have hrest := (hskips.passes passes).1
  have hfirst : Receiver.start.run (p.map .publish) = ⟨p, 0, []⟩ := Receiver.run_publish _ p
  rw [Receiver.run_append, Receiver.run_append _ _ ((text :: q).map .publish),
    Receiver.run_append _ (p.map .publish), hfirst, Receiver.run_append _ (early.map .pass), hr]
  show (((r.next (.pass [])).run _).run _).sub.forwarded = _
  rw [hmissed, hrest, List.map_append]
  congr 2
  rw [List.drop_length_add_append, List.take_of_length_le]
  · rfl
  · simp at hmore ⊢
    omega

/-- On every two schedules of the same messages the subscriber receives the same, if and only if
none of the messages is empty. -/
theorem forwarded_eq_iff (h : HoldsFile box srv []) (index : Nat) (published : List Text)
    (hlen : (file published).length ≤ tfsDefaultParams.blockSize) :
    (∀ events events', Schedule published events → Schedule published events' →
      ∃ forwarded, forwardedIn box index srv events = some forwarded ∧
        forwardedIn box index srv events' = some forwarded) ↔
      ∀ text ∈ published, 0 < text.text.length := by
  have hrun {events : List Event} (hs : Schedule published events) :
      forwardedIn box index srv events = some (Receiver.start.run events).sub.forwarded :=
    forwardedIn_eq h index (hs.messages_eq.symm ▸ hlen)
  constructor
  · intro hall text hmem
    by_contra hzero
    obtain ⟨p, q, rfl⟩ := List.append_of_mem hmem
    -- the same messages before all passes, and with an idle pass before the empty one
    let passes : List (List UInt8) := List.replicate ((p ++ text :: q).length + 1) []
    have hmore : (p ++ text :: q).length < passes.length := by
      rw [List.length_replicate]
      exact Nat.lt_succ_self _
    have hlate : Schedule (p ++ text :: q)
        ((p ++ text :: q).map .publish ++ passes.map .pass) :=
      ⟨_, passes, rfl, messages_publish _, hmore⟩
    have hmissed : Schedule (p ++ text :: q)
        (p.map .publish ++ ((List.replicate p.length []).map .pass ++ [.pass []]) ++
          (text :: q).map .publish ++ passes.map .pass) := by
      refine ⟨_, passes, rfl, ?_, hmore⟩
      rw [messages_append, messages_append, messages_append, messages_publish, messages_publish,
        messages_pass]
      simp [messages, Event.text?]
    obtain ⟨forwarded, hone, htwo⟩ := hall _ _ hlate hmissed
    rw [hrun hlate, forwarded_of_late _ hmore] at hone
    rw [hrun hmissed, forwarded_of_missed (by omega) List.length_replicate.symm hmore] at htwo
    -- one of the two has lost a message
    have hlengths := congrArg List.length (Option.some.inj (hone.trans htwo.symm))
    simp at hlengths
  · intro hpos events events' hs hs'
    refine ⟨published.map Text.text, ?_, ?_⟩
    · rw [hrun hs, hs.forwarded hpos]
    · rw [hrun hs', hs'.forwarded hpos]

/-- Two messages arrive with idle passes before them and between them as they arrive without. -/
theorem twoTexts_forwarded_eq :
    ∃ srv answer, createBox (startedServer 2) pipeM boxA = .ok (answer, srv) ∧
      (∀ events events', Schedule [shortText, otherText] events →
        Schedule [shortText, otherText] events' →
          ∃ forwarded, forwardedIn boxA 0 srv events = some forwarded ∧
            forwardedIn boxA 0 srv events' = some forwarded) ∧
      Schedule [shortText, otherText] [.pass [], .publish shortText, .pass [], .pass [],
        .publish otherText, .pass [], .pass [], .pass []] := by
  obtain ⟨srv, answer, heq, hholds⟩ := createdBox_holdsFile
  refine ⟨srv, answer, heq,
    (forwarded_eq_iff hholds 0 [shortText, otherText] (by decide)).mpr (by decide), ?_⟩
  refine ⟨[.pass [], .publish shortText, .pass [], .pass [], .publish otherText], [[], [], []], rfl,
    rfl, by decide⟩

/-- The message of an empty input line. -/
def emptyText : Text := ⟨.ofBuffer [], by decide⟩

/-- The empty message arrives when no pass is made before it, and is lost behind an idle pass. -/
theorem emptyText_forwarded_ne :
    ∃ srv answer early late, createBox (startedServer 2) pipeM boxA = .ok (answer, srv) ∧
      Schedule [emptyText] late ∧ Schedule [emptyText] early ∧
      forwardedIn boxA 0 srv late = some [emptyText.text] ∧
      forwardedIn boxA 0 srv early = some [] := by
  obtain ⟨srv, answer, heq, hholds⟩ := createdBox_holdsFile
  refine ⟨srv, answer, [.pass [], .publish emptyText, .pass [], .pass []],
    [.publish emptyText, .pass [], .pass []], heq, ⟨[.publish emptyText], [[], []], rfl, rfl, ?_⟩,
    ⟨[.pass [], .publish emptyText], [[], []], rfl, rfl, ?_⟩, ?_, ?_⟩
  · decide
  · decide
  · rw [forwardedIn_eq hholds 0 (by decide)]
    decide
  · rw [forwardedIn_eq hholds 0 (by decide)]
    decide

end Delivery
end MessageBroker.Broker
