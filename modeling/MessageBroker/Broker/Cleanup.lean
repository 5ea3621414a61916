import MessageBroker.Broker.Figures

/-!
# Return paths of the sessions

`start_publisher` and `start_subscriber` with every call that can fail, as control flow
over the results of these calls. A session counts itself in once, in front of the
second opening of its pipe, and the failures behind that return without counting it
out, some of them with the lock of the box. All other ways out are clean.
-/

namespace MessageBroker.Broker.Cleanup

/-- What a call returns, and the byte that `tfs_read` stores. -/
structure CallResult where
  value : Int
  byte : UInt8

/-- What a session does to the box between two calls. Operations on its mutex succeed. -/
inductive Effect
  | countIn
  | countOut
  | lock
  | unlock

/-- How often a session has counted itself in and out, and whether it holds the lock. -/
structure Account where
  increments : Nat
  decrements : Nat
  locked : Bool
deriving DecidableEq

namespace Account

@[simp] def apply (a : Account) : Effect → Account
  | .countIn => { a with increments := a.increments + 1 }
  | .countOut => { a with decrements := a.decrements + 1 }
  | .lock => { a with locked := true }
  | .unlock => { a with locked := false }

@[simp] def start : Account := ⟨0, 0, false⟩

@[simp] def Clean (a : Account) : Prop := a.decrements = a.increments ∧ a.locked = false

instance (a : Account) : Decidable a.Clean := inferInstanceAs (Decidable (_ ∧ _))

end Account

/-- Where a function goes on after a call. -/
inductive Target (σ : Type)
  | call (next : σ)
  | ret (value : Int)

/-- What follows a call. -/
structure Move (σ : Type) where
  effects : List Effect
  target : Target σ

/-- The run of a function over the results of its calls, until it returns. -/
def run {σ : Type} (move : σ → CallResult → Move σ) : σ → Account → List CallResult →
    Option (Int × Account)
  | _, _, [] => none
  | pc, a, r :: results =>
    match (move pc r).target with
    | .ret value => some (value, (move pc r).effects.foldl Account.apply a)
    | .call next => run move next ((move pc r).effects.foldl Account.apply a) results

/-- No call up to the return has a result of the given kind. -/
def Without {σ : Type} (move : σ → CallResult → Move σ) (leak : σ → CallResult → Prop) :
    σ → List CallResult → Prop
  | _, [] => True
  | pc, r :: results => ¬ leak pc r ∧
    match (move pc r).target with
    | .ret _ => True
    | .call next => Without move leak next results

/-- The calls of `start_publisher`. The second one is the test of `n_publishers`. -/
inductive PublisherCall
  | registerEntry
  | nPublishers
  | refuseOpen
  | refuseWrite
  | refuseClose
  | openReply
  | writeReply
  | closeReply
  | openPipe
  | read
  | tfsOpen
  | closePipe
  | unlinkPipe
  | tfsWrite
  | tfsCloseFailed
  | tfsClose

/-- `start_publisher`. -/
def startPublisher : PublisherCall → CallResult → Move PublisherCall
  | .registerEntry, r =>
    if r.value < 0 then ⟨[], .call .refuseOpen⟩ else ⟨[], .call .nPublishers⟩
  | .nPublishers, r =>
    if r.value = 1 then ⟨[], .call .refuseOpen⟩ else ⟨[], .call .openReply⟩
  | .refuseOpen, _ => ⟨[], .call .refuseWrite⟩
  | .refuseWrite, _ => ⟨[], .call .refuseClose⟩
  | .refuseClose, _ => ⟨[], .ret (-1)⟩
  | .openReply, r => if r.value < 0 then ⟨[], .ret 1⟩ else ⟨[], .call .writeReply⟩
  | .writeReply, r => if r.value < 0 then ⟨[], .ret 1⟩ else ⟨[], .call .closeReply⟩
  | .closeReply, r => if r.value < 0 then ⟨[], .ret 1⟩ else ⟨[.countIn], .call .openPipe⟩
  | .openPipe, r => if r.value < 0 then ⟨[], .ret 1⟩ else ⟨[], .call .read⟩
  | .read, r =>
    if 0 < r.value then ⟨[.lock], .call .tfsOpen⟩
    else if r.value = 0 then ⟨[.countOut], .ret 0⟩
    else ⟨[], .ret 1⟩
  | .tfsOpen, r => if r.value < 0 then ⟨[], .call .closePipe⟩ else ⟨[], .call .tfsWrite⟩
  | .closePipe, r =>
    if r.value < 0 then ⟨[], .ret 1⟩ else ⟨[.countOut, .unlock], .call .unlinkPipe⟩
  | .unlinkPipe, _ => ⟨[], .ret 1⟩
  | .tfsWrite, r => if r.value ≤ 0 then ⟨[], .call .tfsCloseFailed⟩ else ⟨[], .call .tfsClose⟩
  | .tfsCloseFailed, _ => ⟨[.unlock], .ret 1⟩
  | .tfsClose, r => if r.value ≠ 0 then ⟨[], .ret 1⟩ else ⟨[.unlock], .call .read⟩

/-- The calls of `start_subscriber`. A pass carries `bytes_processed`, and while it reads also
`count`; behind its last read it carries what this read returned. -/
inductive SubscriberCall
  | registerEntry
  | refuseOpen
  | refuseWrite
  | refuseClose
  | openReply
  | writeReply
  | closeReply
  | openPipe
  | tfsOpen (bytesProcessed : Nat)
  | closePipe
  | unlinkPipe
  | tfsRead (bytesProcessed count : Nat)
  | tfsCloseFailed
  | mkfifo (bytesProcessed : Nat) (bytesRead : Int)
  | unlinkGone
  | tfsCloseGone
  | tfsClose (bytesProcessed : Nat) (bytesRead : Int)
  | write (bytesProcessed : Nat)
  | closeLast

/-- `start_subscriber`. -/
def startSubscriber : SubscriberCall → CallResult → Move SubscriberCall
  | .registerEntry, r =>
    if r.value < 0 then ⟨[], .call .refuseOpen⟩ else ⟨[], .call .openReply⟩
  | .refuseOpen, _ => ⟨[], .call .refuseWrite⟩
  | .refuseWrite, _ => ⟨[], .call .refuseClose⟩
  | .refuseClose, _ => ⟨[], .ret (-1)⟩
  | .openReply, r => if r.value < 0 then ⟨[], .ret 1⟩ else ⟨[], .call .writeReply⟩
  | .writeReply, r => if r.value < 0 then ⟨[], .ret 1⟩ else ⟨[], .call .closeReply⟩
  | .closeReply, r => if r.value < 0 then ⟨[], .ret 1⟩ else ⟨[.countIn], .call .openPipe⟩
  | .openPipe, r => if r.value < 0 then ⟨[], .ret 1⟩ else ⟨[.lock], .call (.tfsOpen 0)⟩
  | .tfsOpen bytesProcessed, r =>
    if r.value < 0 then ⟨[], .call .closePipe⟩ else ⟨[], .call (.tfsRead bytesProcessed 0)⟩
  | .closePipe, r => if r.value < 0 then ⟨[], .ret 1⟩ else ⟨[.countOut], .call .unlinkPipe⟩
  | .unlinkPipe, _ => ⟨[.unlock], .ret 1⟩
  | .tfsRead bytesProcessed count, r =>
    if r.value < 0 then ⟨[], .call .tfsCloseFailed⟩
    else if r.value = 0 ∨ r.byte = 0 ∧ bytesProcessed < count + 1 then
      ⟨[], .call (.mkfifo (count + 1) r.value)⟩
    else ⟨[], .call (.tfsRead bytesProcessed (count + 1))⟩
  | .tfsCloseFailed, _ => ⟨[.unlock], .ret 1⟩
  | .mkfifo bytesProcessed bytesRead, r =>
    if r.value = 0 then ⟨[], .call .unlinkGone⟩
    else ⟨[], .call (.tfsClose bytesProcessed bytesRead)⟩
  | .unlinkGone, _ => ⟨[], .call .tfsCloseGone⟩
  | .tfsCloseGone, _ => ⟨[.unlock], .call .closeLast⟩
  | .tfsClose bytesProcessed bytesRead, r =>
    if r.value ≠ 0 then ⟨[], .ret 1⟩
    else if bytesRead ≠ 0 then ⟨[.unlock], .call (.write bytesProcessed)⟩
    else ⟨[.unlock, .lock], .call (.tfsOpen bytesProcessed)⟩
  | .write bytesProcessed, r =>
    if r.value < 0 then ⟨[], .ret 1⟩ else ⟨[.lock], .call (.tfsOpen bytesProcessed)⟩
  | .closeLast, r => if r.value < 0 then ⟨[], .ret 1⟩ else ⟨[.countOut], .ret 0⟩

/-- The failures behind which a publisher session returns without having counted itself out. -/
@[simp] def PublisherLeak : PublisherCall → CallResult → Prop
  | .openPipe, r => r.value < 0
  | .read, r => r.value < 0
  | .closePipe, r => r.value < 0
  | .tfsWrite, r => r.value ≤ 0
  | .tfsClose, r => r.value ≠ 0
  | _, _ => False

/-- The failures behind which a subscriber session returns without having counted itself out. -/
@[simp] def SubscriberLeak : SubscriberCall → CallResult → Prop
  | .openPipe, r => r.value < 0
  | .closePipe, r => r.value < 0
  | .tfsRead .., r => r.value < 0
  | .tfsClose .., r => r.value ≠ 0
  | .write _, r => r.value < 0
  | .closeLast, r => r.value < 0
  | _, _ => False

/-- What a session returns, and its account then. -/
def returned : Role → List CallResult → Option (Int × Account)
  | .publisher => run startPublisher .registerEntry .start
  | .subscriber => run startSubscriber .registerEntry .start

/-- None of the failures that leak occurs. -/
def NoLeak : Role → List CallResult → Prop
  | .publisher => Without startPublisher PublisherLeak .registerEntry
  | .subscriber => Without startSubscriber SubscriberLeak .registerEntry

/-! ### Runs over results -/

section Accounts

variable {σ : Type} {move : σ → CallResult → Move σ} {leak : σ → CallResult → Prop}
  {account : σ → Account} {doomed : σ → Prop}

/-- What follows a call leaves the account of the next call, which is doomed if the failure leaks;
or it returns, cleanly unless there was a leak. -/
def Move.Keeps (account : σ → Account) (doomed : σ → Prop) (a : Account) (leaked : Prop)
    (m : Move σ) : Prop :=
  match m.target with
  | .call next => m.effects.foldl Account.apply a = account next ∧ (doomed next ↔ leaked)
  | .ret _ => (m.effects.foldl Account.apply a).Clean ↔ ¬ leaked

theorem keeps_call {effects : List Effect} {next : σ} {a : Account} {leaked : Prop} :
    Move.Keeps account doomed a leaked ⟨effects, .call next⟩ ↔
      effects.foldl Account.apply a = account next ∧ (doomed next ↔ leaked) := Iff.rfl

theorem keeps_ret {effects : List Effect} {value : Int} {a : Account} {leaked : Prop} :
    Move.Keeps account doomed a leaked ⟨effects, .ret value⟩ ↔
      ((effects.foldl Account.apply a).Clean ↔ ¬ leaked) := Iff.rfl

/-- A function that keeps its accounts returns cleanly if and only if no failure leaks. -/
theorem clean_iff_of_keeps
    (h : ∀ pc r, (move pc r).Keeps account doomed (account pc) (doomed pc ∨ leak pc r))
    {results : List CallResult} {pc : σ} {value : Int} {a : Account}
    (hrun : run move pc (account pc) results = some (value, a)) :
    a.Clean ↔ ¬ doomed pc ∧ Without move leak pc results := by
  induction results generalizing pc with
  | nil => cases hrun
  | cons r results ih =>
    have hkeeps := h pc r
    rw [Move.Keeps] at hkeeps
    rw [Without]
    cases ht : (move pc r).target with
    | ret v =>
      simp only [ht] at hkeeps
      simp only [run, ht, Option.some.injEq, Prod.mk.injEq] at hrun
      rw [← hrun.2, hkeeps, not_or, and_true]
    | call next =>
      simp only [ht] at hkeeps
      simp only [run, ht, hkeeps.1] at hrun
      rw [ih hrun, hkeeps.2, not_or, and_assoc]

end Accounts

/-! ### The two sessions -/

/-- Counted in and outside of the locked region. -/
@[simp] def outside : Account := ⟨1, 0, false⟩

/-- Counted in and inside of the locked region. -/
@[simp] def inside : Account := ⟨1, 0, true⟩

@[simp] def PublisherCall.account : PublisherCall → Account
  | .openPipe | .read => outside
  | .tfsOpen | .closePipe | .tfsWrite | .tfsCloseFailed | .tfsClose => inside
  | .unlinkPipe => ⟨1, 1, false⟩
  | _ => .start

@[simp] def SubscriberCall.account : SubscriberCall → Account
  | .openPipe | .write _ | .closeLast => outside
  | .tfsOpen _ | .closePipe | .tfsRead .. | .tfsCloseFailed | .mkfifo .. | .unlinkGone
  | .tfsCloseGone | .tfsClose .. => inside
  | .unlinkPipe => ⟨1, 1, true⟩
  | _ => .start

theorem startPublisher_keeps (pc : PublisherCall) (r : CallResult) :
    (startPublisher pc r).Keeps PublisherCall.account (· = .tfsCloseFailed) pc.account
      (pc = .tfsCloseFailed ∨ PublisherLeak pc r) := by
  cases pc with
  | refuseOpen | refuseWrite | refuseClose | unlinkPipe | tfsCloseFailed =>
    simp [startPublisher, keeps_call, keeps_ret]
  | read =>
    -- a message, the end of the input, or a failure
    obtain hr | hr | hr := lt_trichotomy 0 r.value
    · simp [startPublisher, keeps_call, hr, hr.le]
    · simp [startPublisher, keeps_ret, ← hr]
    · simp [startPublisher, keeps_ret, hr, hr.not_gt, hr.ne]
  | _ =>
    simp only [startPublisher]
    split <;> simp_all [keeps_call, keeps_ret]

theorem startSubscriber_keeps (pc : SubscriberCall) (r : CallResult) :
    (startSubscriber pc r).Keeps SubscriberCall.account (· = .tfsCloseFailed) pc.account
      (pc = .tfsCloseFailed ∨ SubscriberLeak pc r) := by
  cases pc with
  | refuseOpen | refuseWrite | refuseClose | unlinkPipe | tfsCloseFailed | unlinkGone
  | tfsCloseGone => simp [startSubscriber, keeps_call, keeps_ret]
  | tfsRead bytesProcessed count =>
    -- a failure, the end of the pass, or another byte
    simp only [startSubscriber]
    by_cases hfailed : r.value < 0
    · simp [hfailed, keeps_call]
    · rw [if_neg hfailed]
      split <;> simp [hfailed, keeps_call]
  | tfsClose bytesProcessed bytesRead =>
    simp only [startSubscriber]
    by_cases hfailed : r.value ≠ 0
    · simp [hfailed, keeps_ret]
    · rw [if_neg hfailed]
      split <;> simp [hfailed, keeps_call]
  | _ =>
    simp only [startSubscriber]
    split <;> simp_all [keeps_call, keeps_ret]

/-- When a session returns it has counted itself out as often as in and does not hold the lock of
its box, if and only if none of the failures that leak has occurred. -/
theorem clean_iff_noLeak (role : Role) (results : List CallResult) (value : Int) (a : Account)
    (h : returned role results = some (value, a)) : a.Clean ↔ NoLeak role results := by
  cases role with
  | publisher =>
    rw [clean_iff_of_keeps startPublisher_keeps h]
    exact and_iff_right nofun
  | subscriber =>
    rw [clean_iff_of_keeps startSubscriber_keeps h]
    exact and_iff_right nofun

/-- The results up to the second opening of the pipe, where the box has index `0`. -/
def accepted : Role → List CallResult
  | .publisher => [⟨0, 0⟩, ⟨0, 0⟩, ⟨3, 0⟩, ⟨3, 0⟩, ⟨0, 0⟩]
  | .subscriber => [⟨0, 0⟩, ⟨3, 0⟩, ⟨3, 0⟩, ⟨0, 0⟩]

theorem oneMessage_clean : NoLeak .publisher
    (accepted .publisher ++ [⟨3, 0⟩, ⟨1027, 0⟩, ⟨0, 0⟩, ⟨2, 0⟩, ⟨0, 0⟩, ⟨0, 0⟩]) :=
  (clean_iff_noLeak .publisher _ 0 ⟨1, 1, false⟩ rfl).mp (by decide)

/-- The client is gone when its pipe is opened again: the box stays taken. A failed `tfs_write`
has the same effect, and a failed `tfs_close` leaves the lock as well. -/
theorem failures_not_clean :
    (∃ value a, returned .publisher (accepted .publisher ++ [⟨-1, 0⟩]) = some (value, a) ∧
      ¬ a.Clean) ∧
    ∃ value a, returned .subscriber (accepted .subscriber ++
      [⟨3, 0⟩, ⟨0, 0⟩, ⟨0, 0⟩, ⟨-1, 0⟩, ⟨-1, 0⟩]) = some (value, a) ∧ a.locked = true :=
  ⟨⟨1, ⟨1, 0, false⟩, rfl, by decide⟩, ⟨1, ⟨1, 0, true⟩, rfl, rfl⟩⟩

end MessageBroker.Broker.Cleanup
