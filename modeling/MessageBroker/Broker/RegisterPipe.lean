import MessageBroker.Broker.Register
import MessageBroker.Lib.NamedPipe
import MessageBroker.Lib.Table
import MessageBroker.Lib.Transition

/-!
# The register FIFO

The clients open the register FIFO, write a request to it and close it. The broker reads
until nobody has it open for writing any more, and then closes it and opens it again.
What a client writes in between is lost, or kills the client. Each request that is read
finds an idle worker: `function` comes back to the FIFO, and is no step of its own here.
Without an idle worker the broker would not read on.
-/

namespace MessageBroker.Broker

open Clients Transition

namespace RegisterPipe

/-- Where the broker stands in the loop of `main`. -/
inductive Main
  | opening
  | waiting (seen : Nat)
  /-- In the read of an opcode, or in one of `process_entry`, which goes on when it gets nothing. -/
  | reading
  /-- The read of an opcode has returned nothing. -/
  | closing
deriving DecidableEq

inductive Client
  | opening
  | waiting (seen : Nat)
  | writing
  | closing
  | done
  /-- By the write. -/
  | killed
deriving DecidableEq

inductive Label (ι : Type)
  /-- The next call of the broker, where a read is for up to `n + 1` bytes. -/
  | main (n : Nat)
  | client (i : ι)

/-- The descriptors of the broker for reading. -/
def Main.held : Main → Nat
  | opening => 0
  | _ => 1

/-- The descriptors of a client for writing. -/
def Client.held : Client → Nat
  | waiting _ | writing | closing => 1
  | _ => 0

end RegisterPipe

/-- The broker and its clients, with the bytes written and read so far. -/
structure RegisterPipe (ι : Type) where
  pipe : NamedPipe
  main : RegisterPipe.Main
  clients : ι → RegisterPipe.Client
  written : List UInt8
  received : List UInt8

namespace RegisterPipe

variable {ι : Type}

def initial : RegisterPipe ι :=
  { pipe := .new, main := .opening, clients := fun _ => .opening, written := [], received := [] }

def mainStep (n : Nat) (s : RegisterPipe ι) : Option (RegisterPipe ι) :=
  match s.main with
  | .opening =>
    let pc := (s.pipe.waitsFor .reader).elim Main.reading Main.waiting
    some { s with pipe := s.pipe.openEnd .reader, main := pc }
  | .waiting seen =>
    if s.pipe.opens .writer ≠ seen then some { s with main := .reading } else none
  | .reading => do
    let (got, pipe) ← s.pipe.read (n + 1)
    let pc := if got = [] then Main.closing else .reading
    some { s with pipe := pipe, main := pc, received := s.received ++ got }
  | .closing => some { s with pipe := s.pipe.closeEnd .reader, main := .opening }

/-- What a step of the broker can do. -/
inductive MainMoves (n : Nat) (s : RegisterPipe ι) : RegisterPipe ι → Prop
  | opens : s.main = .opening → 0 < s.pipe.ends .writer →
      MainMoves n s { s with pipe := s.pipe.openEnd .reader, main := .reading }
  | waits : s.main = .opening → s.pipe.ends .writer = 0 →
      MainMoves n s
        { s with pipe := s.pipe.openEnd .reader, main := .waiting (s.pipe.opens .writer) }
  | wakes (seen : Nat) : s.main = .waiting seen → s.pipe.opens .writer ≠ seen →
      MainMoves n s { s with main := .reading }
  | reads : s.main = .reading → s.pipe.bytes ≠ [] →
      MainMoves n s
        { s with
          pipe := { s.pipe with bytes := s.pipe.bytes.drop (n + 1) }
          received := s.received ++ s.pipe.bytes.take (n + 1) }
  | ends : s.main = .reading → s.pipe.bytes = [] → s.pipe.ends .writer = 0 →
      MainMoves n s { s with main := .closing }
  | closes : s.main = .closing →
      MainMoves n s { s with pipe := s.pipe.closeEnd .reader, main := .opening }

theorem mainMoves_of_mainStep {s s' : RegisterPipe ι} {n : Nat}
    (h : s.mainStep n = some s') : MainMoves n s s' := by
  unfold mainStep at h
  split at h
  case h_1 hm =>
    cases h
    obtain hclosed | hopen := Nat.eq_zero_or_pos (s.pipe.ends .writer)
    · rw [NamedPipe.waitsFor_of_closed hclosed]
      exact .waits hm hclosed
    · rw [NamedPipe.waitsFor_of_open hopen]
      exact .opens hm hopen
  case h_2 seen hm =>
    obtain ⟨hseen, heq⟩ := Option.ite_none_right_eq_some.mp h
    cases heq
    exact .wakes seen hm hseen
  case h_3 hm =>
    obtain ⟨r, hr, heq⟩ := Option.bind_eq_some_iff.mp h
    cases heq
    obtain ⟨hwriter, rfl⟩ := NamedPipe.read_eq_some.mp hr
    by_cases hbytes : s.pipe.bytes = []
    · have hends := MainMoves.ends (n := n) hm hbytes (hwriter hbytes)
      have hpipe : { s.pipe with bytes := [] } = s.pipe := by rw [← hbytes]
      simpa only [hbytes, List.take_nil, List.drop_nil, List.append_nil, if_true, hpipe] using hends
    · have hne : s.pipe.bytes.take (n + 1) ≠ [] := by simp [hbytes]
      have hreads := MainMoves.reads (n := n) hm hbytes
      simpa only [if_neg hne, ← hm] using hreads
  case h_4 hm =>
    cases h
    exact .closes hm

theorem mainStep_of_mainMoves {s s' : RegisterPipe ι} {n : Nat} (h : MainMoves n s s') :
    s.mainStep n = some s' := by
  cases h with
  | opens hm hw =>
    simp only [mainStep, hm, NamedPipe.waitsFor_of_open (e := .reader) hw]
    rfl
  | waits hm hw =>
    simp only [mainStep, hm, NamedPipe.waitsFor_of_closed (e := .reader) hw]
    rfl
  | wakes seen hm hseen =>
    simp only [mainStep, hm]
    exact if_pos hseen
  | reads hm hbytes =>
    have hne : s.pipe.bytes.take (n + 1) ≠ [] := by simp [hbytes]
    have hread := NamedPipe.read_eq_some.mpr
      ⟨fun heq => absurd heq hbytes, (rfl : _ = (s.pipe.bytes.take (n + 1), _))⟩
    simp only [mainStep, hm, hread]
    simp only [Option.bind_eq_bind, Option.bind_some, if_neg hne]
  | ends hm hbytes hw =>
    have hread : s.pipe.read (n + 1) = some ([], s.pipe) := by
      rw [NamedPipe.read, hbytes]
      exact if_pos hw
    simp only [mainStep, hm, hread]
    simp
  | closes hm =>
    simp only [mainStep, hm]

section

variable [DecidableEq ι]

def setClient (s : RegisterPipe ι) (i : ι) (pc : Client) : RegisterPipe ι :=
  { s with clients := Function.update s.clients i pc }

/-- The calls of a client on the FIFO; `request` is what it writes. -/
def clientStep (capacity : Nat) (request : ι → List UInt8) (i : ι) (s : RegisterPipe ι) :
    Option (RegisterPipe ι) :=
  match s.clients i with
  | .opening =>
    let pc := (s.pipe.waitsFor .writer).elim Client.writing Client.waiting
    some ({ s with pipe := s.pipe.openEnd .writer }.setClient i pc)
  | .waiting seen =>
    if s.pipe.opens .reader ≠ seen then some (s.setClient i .writing) else none
  | .writing =>
    match s.pipe.write capacity (request i) with
    | .killed => some ({ s with pipe := s.pipe.closeEnd .writer }.setClient i .killed)
    | .blocked => none
    | .written pipe =>
      some ({ s with pipe := pipe, written := s.written ++ request i }.setClient i .closing)
  | .closing => some ({ s with pipe := s.pipe.closeEnd .writer }.setClient i .done)
  | .done => none
  | .killed => none

def step (capacity : Nat) (request : ι → List UInt8) (s : RegisterPipe ι) :
    Label ι → Option (RegisterPipe ι)
  | .main n => s.mainStep n
  | .client i => s.clientStep capacity request i

/-- No client writes while the broker closes the FIFO and opens it again. -/
def Punctual (s : RegisterPipe ι) : Label ι → Prop
  | .main _ => True
  | .client i => s.clients i = .writing → s.main ≠ .closing ∧ s.main ≠ .opening

instance (s : RegisterPipe ι) (a : Label ι) : Decidable (Punctual s a) :=
  match a with
  | .main _ => inferInstanceAs (Decidable True)
  | .client i =>
    inferInstanceAs (Decidable (s.clients i = .writing → s.main ≠ .closing ∧ s.main ≠ .opening))

/-- What a step of a client can do. -/
inductive ClientMoves (capacity : Nat) (request : ι → List UInt8) (i : ι) (s : RegisterPipe ι) :
    RegisterPipe ι → Prop
  | opens : s.clients i = .opening → 0 < s.pipe.ends .reader →
      ClientMoves capacity request i s
        ({ s with pipe := s.pipe.openEnd .writer }.setClient i .writing)
  | waits : s.clients i = .opening → s.pipe.ends .reader = 0 →
      ClientMoves capacity request i s
        ({ s with pipe := s.pipe.openEnd .writer }.setClient i (.waiting (s.pipe.opens .reader)))
  | wakes (seen : Nat) : s.clients i = .waiting seen → s.pipe.opens .reader ≠ seen →
      ClientMoves capacity request i s (s.setClient i .writing)
  | killed : s.clients i = .writing → s.pipe.ends .reader = 0 →
      ClientMoves capacity request i s
        ({ s with pipe := s.pipe.closeEnd .writer }.setClient i .killed)
  | writes : s.clients i = .writing → 0 < s.pipe.ends .reader →
      s.pipe.bytes.length + (request i).length ≤ capacity →
      ClientMoves capacity request i s
        ({ s with
          pipe := { s.pipe with bytes := s.pipe.bytes ++ request i }
          written := s.written ++ request i }.setClient i .closing)
  | closes : s.clients i = .closing →
      ClientMoves capacity request i s
        ({ s with pipe := s.pipe.closeEnd .writer }.setClient i .done)

variable {s s' : RegisterPipe ι} {capacity n : Nat} {request : ι → List UInt8} {i : ι}

theorem clientMoves_of_clientStep (h : s.clientStep capacity request i = some s') :
    ClientMoves capacity request i s s' := by
  unfold clientStep at h
  split at h
  case h_1 hc =>
    cases h
    obtain hclosed | hopen := Nat.eq_zero_or_pos (s.pipe.ends .reader)
    · rw [NamedPipe.waitsFor_of_closed hclosed]
      exact .waits hc hclosed
    · rw [NamedPipe.waitsFor_of_open hopen]
      exact .opens hc hopen
  case h_2 seen hc =>
    obtain ⟨hseen, heq⟩ := Option.ite_none_right_eq_some.mp h
    cases heq
    exact .wakes seen hc hseen
  case h_3 hc =>
    split at h
    case h_1 hw =>
      cases h
      exact .killed hc (NamedPipe.write_eq_killed.mp hw)
    case h_2 => cases h
    case h_3 pipe hw =>
      cases h
      obtain ⟨hopen, hroom, rfl⟩ := NamedPipe.write_eq_written.mp hw
      exact .writes hc hopen hroom
  case h_4 hc =>
    cases h
    exact .closes hc
  case h_5 => cases h
  case h_6 => cases h

theorem clientStep_of_clientMoves (h : ClientMoves capacity request i s s') :
    s.clientStep capacity request i = some s' := by
  cases h with
  | opens hc hw =>
    simp only [clientStep, hc, NamedPipe.waitsFor_of_open (e := .writer) hw]
    rfl
  | waits hc hw =>
    simp only [clientStep, hc, NamedPipe.waitsFor_of_closed (e := .writer) hw]
    rfl
  | wakes seen hc hseen =>
    simp only [clientStep, hc]
    exact if_pos hseen
  | killed hc hw =>
    simp only [clientStep, hc, NamedPipe.write_of_closed hw]
  | writes hc hopen hroom =>
    have hw := NamedPipe.write_eq_written.mpr ⟨hopen, hroom, rfl⟩
    simp only [clientStep, hc, hw]
  | closes hc =>
    simp only [clientStep, hc]

/-! ### The invariant -/

section

variable [Fintype ι]

/-- The ends of the FIFO that are open are those of the broker and of the clients. -/
structure Counts (s : RegisterPipe ι) : Prop where
  readers : s.pipe.ends .reader = s.main.held
  writers : s.pipe.ends .writer = ∑ i, (s.clients i).held

/-- What holds in a punctual run, where the clients in `order` have written. A call of `open` that
waits has seen fewer opens of the other end than there are, unless that end is closed. -/
structure Inv (request : ι → List UInt8) (s : RegisterPipe ι) (order : List ι) : Prop where
  counts : s.Counts
  mainWaits : ∀ seen, s.main = .waiting seen → seen < s.pipe.opens .writer ∨
    seen = s.pipe.opens .writer ∧ s.pipe.ends .writer = 0 ∧ s.pipe.bytes = []
  clientWaits : ∀ i seen, s.clients i = .waiting seen → seen ≤ s.pipe.opens .reader ∧
    (s.main ≠ .opening → seen < s.pipe.opens .reader)
  alive : ∀ i, s.clients i ≠ .killed
  flow : s.written = s.received ++ s.pipe.bytes
  empty : s.main = .closing ∨ s.main = .opening → s.pipe.bytes = []
  nodup : order.Nodup
  mem_order : ∀ i, i ∈ order ↔ s.clients i = .closing ∨ s.clients i = .done
  written : s.written = order.flatMap request

variable {order : List ι}

omit [DecidableEq ι] in
theorem counts_initial : (initial : RegisterPipe ι).Counts :=
  ⟨rfl, by simp [initial, Client.held, NamedPipe.new]⟩

omit [DecidableEq ι] in
theorem inv_initial : Inv request (initial : RegisterPipe ι) [] := by
  refine ⟨counts_initial, ?_, ?_, ?_, rfl, fun _ => rfl, List.nodup_nil, ?_, rfl⟩
  all_goals simp [initial]

omit [DecidableEq ι] in
theorem Counts.mainMoves (h : s.Counts) (hm : MainMoves n s s') : s'.Counts := by
  obtain ⟨hreaders, hwriters⟩ := h
  cases hm with
  | opens hmain | waits hmain =>
    rw [hmain] at hreaders
    refine ⟨?_, hwriters⟩
    simp [NamedPipe.openEnd, hreaders, Main.held]
  | closes hmain =>
    rw [hmain] at hreaders
    refine ⟨?_, hwriters⟩
    simp [NamedPipe.closeEnd, hreaders, Main.held]
  | wakes _ hmain | ends hmain =>
    rw [hmain] at hreaders
    exact ⟨hreaders, hwriters⟩
  | reads => exact ⟨hreaders, hwriters⟩

/-- The descriptors of the clients when one of them moves. -/
theorem sum_held {f : ι → Client} {i : ι} {old : Client} (hc : f i = old) (new : Client) :
    ∑ j, (Function.update f i new j).held + old.held = ∑ j, (f j).held + new.held := by
  rw [← hc]
  exact Table.sum_update (fun _ => Client.held) f i new

theorem Counts.clientMoves (h : s.Counts) (hm : ClientMoves capacity request i s s') :
    s'.Counts := by
  obtain ⟨hreaders, hwriters⟩ := h
  have hopened := s.pipe.ends_openEnd .writer
  have hclosed := s.pipe.ends_closeEnd .writer
  cases hm with
  | opens hc =>
    have hsum : _ + 0 = _ + 1 := sum_held hc .writing
    exact ⟨hreaders, by simp only [setClient]; omega⟩
  | waits hc =>
    have hsum : _ + 0 = _ + 1 := sum_held hc (.waiting (s.pipe.opens .reader))
    exact ⟨hreaders, by simp only [setClient]; omega⟩
  | wakes _ hc =>
    have hsum : _ + 1 = _ + 1 := sum_held hc .writing
    exact ⟨hreaders, by simp only [setClient]; omega⟩
  | killed hc =>
    have hsum : _ + 1 = _ + 0 := sum_held hc .killed
    exact ⟨hreaders, by simp only [setClient]; omega⟩
  | writes hc =>
    have hsum : _ + 1 = _ + 1 := sum_held hc .closing
    exact ⟨hreaders, by simp only [setClient]; omega⟩
  | closes hc =>
    have hsum : _ + 1 = _ + 0 := sum_held hc .done
    exact ⟨hreaders, by simp only [setClient]; omega⟩

namespace Inv

omit [DecidableEq ι] in
theorem mainMoves (h : Inv request s order) (hm : MainMoves n s s') : Inv request s' order := by
  obtain ⟨hcounts, hmainWaits, hclientWaits, halive, hflow, hempty, hnodup, hmem, hwritten⟩ := h
  have hcounts' := hcounts.mainMoves hm
  cases hm with
  | opens hmain hw =>
    refine ⟨hcounts', by simp, fun i seen hi => ?_, halive, hflow, by simp, hnodup, hmem, hwritten⟩
    have := (hclientWaits i seen hi).1
    simp only [NamedPipe.openEnd, Function.update_self]
    omega
  | waits hmain hw =>
    refine ⟨hcounts', ?_, fun i seen hi => ?_, halive, hflow, by simp, hnodup, hmem, hwritten⟩
    · rintro seen ⟨⟩
      exact Or.inr ⟨rfl, hw, hempty (Or.inr hmain)⟩
    · have := (hclientWaits i seen hi).1
      simp only [NamedPipe.openEnd, Function.update_self]
      omega
  | wakes seen hmain hseen =>
    refine ⟨hcounts', by simp, fun i seen hi => ?_, halive, hflow, by simp, hnodup, hmem, hwritten⟩
    have := hclientWaits i seen hi
    simp_all
  | reads hmain hbytes =>
    refine ⟨hcounts', by simp [hmain], fun i seen hi => ?_, halive, ?_, by simp [hmain], hnodup,
      hmem, hwritten⟩
    · have := hclientWaits i seen hi
      simp_all
    · rw [List.append_assoc, List.take_append_drop]
      exact hflow
  | ends hmain hbytes hw =>
    refine ⟨hcounts', by simp, fun i seen hi => ?_, halive, hflow, fun _ => hbytes, hnodup, hmem,
      hwritten⟩
    have := hclientWaits i seen hi
    simp_all
  | closes hmain =>
    have hbytes := hempty (Or.inl hmain)
    have hclosed : (s.pipe.closeEnd .reader).bytes = [] := by
      obtain heq | ⟨heq, _⟩ := s.pipe.closeEnd_bytes .reader
      · rw [heq, hbytes]
      · exact heq
    refine ⟨hcounts', by simp, fun i seen hi => ?_, halive, ?_, fun _ => hclosed, hnodup, hmem,
      hwritten⟩
    · have := hclientWaits i seen hi
      simp_all [NamedPipe.closeEnd]
    · rw [hflow, hbytes]
      exact congrArg (s.received ++ ·) hclosed.symm

/-- A step of a client, which is behind the others in the order when it writes. -/
theorem clientMoves (h : Inv request s order) (hm : ClientMoves capacity request i s s')
    (hok : s.clients i = .writing → s.main ≠ .closing ∧ s.main ≠ .opening) :
    ∃ order', Inv request s' order' := by
  obtain ⟨hcounts, hmainWaits, hclientWaits, halive, hflow, hempty, hnodup, hmem, hwritten⟩ := h
  have hcounts' := hcounts.clientMoves hm
  have hreaders := hcounts.readers
  have hopened := s.pipe.opens_openEnd .writer
  have hother : (s.pipe.openEnd .writer).opens .reader = s.pipe.opens .reader := rfl
  cases hm with
  | opens hc hw =>
    refine ⟨order, hcounts', ?_, ?_, ?_, hflow, hempty, hnodup, ?_, hwritten⟩
    · intro seen hseen
      left
      obtain hlt | ⟨heq, _⟩ := hmainWaits seen hseen <;> simp only [setClient] <;> omega
    · simp only [setClient, Table.update_apply_eq_iff]
      grind
    · simp only [setClient, ne_eq, Table.update_apply_eq_iff]
      grind
    · simp only [setClient, Table.update_apply_eq_iff]
      grind
  | waits hc hw =>
    have hmain : s.main = .opening := by
      rw [hreaders] at hw
      cases hmain : s.main with
      | opening => rfl
      | waiting | reading | closing =>
        rw [hmain] at hw
        cases hw
    refine ⟨order, hcounts', ?_, ?_, ?_, hflow, hempty, hnodup, ?_, hwritten⟩
    · intro seen hseen
      left
      obtain hlt | ⟨heq, _⟩ := hmainWaits seen hseen <;> simp only [setClient] <;> omega
    · simp only [setClient, Table.update_apply_eq_iff]
      grind
    · simp only [setClient, ne_eq, Table.update_apply_eq_iff]
      grind
    · simp only [setClient, Table.update_apply_eq_iff]
      grind
  | wakes seen hc hseen =>
    refine ⟨order, hcounts', hmainWaits, ?_, ?_, hflow, hempty, hnodup, ?_, hwritten⟩
    · simp only [setClient, Table.update_apply_eq_iff]
      grind
    · simp only [setClient, ne_eq, Table.update_apply_eq_iff]
      grind
    · simp only [setClient, Table.update_apply_eq_iff]
      grind
  | killed hc hw =>
    -- the broker has the FIFO open
    obtain ⟨hclosing, hopening⟩ := hok hc
    rw [hreaders] at hw
    cases hmain : s.main with
    | closing => exact absurd hmain hclosing
    | opening => exact absurd hmain hopening
    | waiting | reading =>
      rw [hmain] at hw
      cases hw
  | writes hc hopen hroom =>
    obtain ⟨hclosing, hopening⟩ := hok hc
    have hnew : i ∉ order := by
      rw [hmem, hc]
      simp
    have hwriters : 0 < s.pipe.ends .writer := by
      rw [hcounts.writers]
      have hsum : _ + 1 = _ + 0 := sum_held hc .done
      omega
    refine ⟨order ++ [i], hcounts', ?_, ?_, ?_, ?_, ?_, ?_, ?_, ?_⟩
    · intro seen hseen
      left
      obtain hlt | ⟨_, hzero, _⟩ := hmainWaits seen hseen
      · exact hlt
      · omega
    · simp only [setClient, Table.update_apply_eq_iff]
      grind
    · simp only [setClient, ne_eq, Table.update_apply_eq_iff]
      grind
    · simp only [setClient, hflow, List.append_assoc]
    · rintro (hmain | hmain)
      · exact absurd hmain hclosing
      · exact absurd hmain hopening
    · exact hnodup.append (List.nodup_singleton i) (by simpa using hnew)
    · simp only [setClient, Table.update_apply_eq_iff, List.mem_append, List.mem_singleton, hmem]
      grind
    · simp only [setClient, hwritten, List.flatMap_append, List.flatMap_singleton]
  | closes hc =>
    have hbytes : (s.pipe.closeEnd .writer).bytes = s.pipe.bytes := by
      obtain heq | ⟨heq, hends⟩ := s.pipe.closeEnd_bytes .writer
      · exact heq
      · -- without a reader the FIFO is empty
        have hzero : s.main.held = 0 := hreaders.symm.trans (hends .reader)
        cases hmain : s.main with
        | opening => rw [heq, hempty (Or.inr hmain)]
        | waiting | reading | closing =>
          rw [hmain] at hzero
          cases hzero
    refine ⟨order, hcounts', ?_, ?_, ?_, ?_, ?_, hnodup, ?_, hwritten⟩
    · intro seen hseen
      refine (hmainWaits seen hseen).imp_right ?_
      rintro ⟨heq, hzero, hnil⟩
      refine ⟨heq, ?_, hbytes.trans hnil⟩
      rw [setClient, s.pipe.ends_closeEnd, hzero]
    · have hsame : (s.pipe.closeEnd .writer).opens = s.pipe.opens := rfl
      simp only [setClient, Table.update_apply_eq_iff]
      grind
    · simp only [setClient, ne_eq, Table.update_apply_eq_iff]
      grind
    · simp only [setClient, hbytes]
      exact hflow
    · simp only [setClient, hbytes]
      exact hempty
    · simp only [setClient, Table.update_apply_eq_iff]
      grind

theorem step {a : Label ι} (h : Inv request s order) (hok : Punctual s a)
    (hs : s.step capacity request a = some s') : ∃ order', Inv request s' order' := by
  cases a with
  | main n => exact ⟨order, h.mainMoves (mainMoves_of_mainStep hs)⟩
  | client i => exact h.clientMoves (clientMoves_of_clientStep hs) hok

end Inv

theorem inv_of_reaches (hs : Reaches (step capacity request) Punctual initial s) :
    ∃ order, Inv request s order := by
  apply hs.invariant ⟨[], inv_initial⟩
  rintro u a v ⟨order, h⟩ hok ha
  exact h.step hok ha

/-- **The requests arrive**, each of them once and as a whole, in the order of the writes, if no
client writes while the broker has the FIFO closed or is about to close it. -/
theorem arrived_of_reaches (hs : Reaches (step capacity request) Punctual initial s) :
    (∀ i, s.clients i ≠ .killed) ∧ s.written = s.received ++ s.pipe.bytes ∧
      ∃ order : List ι, order.Nodup ∧
        (∀ i, i ∈ order ↔ s.clients i = .closing ∨ s.clients i = .done) ∧
        s.written = order.flatMap request := by
  obtain ⟨order, h⟩ := inv_of_reaches hs
  exact ⟨h.alive, h.flow, order, h.nodup, h.mem_order, h.written⟩

/-- Two clients write and close the FIFO before the broker reads what they have written. -/
theorem arrived_of_two : ∃ s : RegisterPipe (Fin 2),
    Reaches (step 65536 fun i => [i.val.toUInt8]) Punctual initial s ∧
      s.written = s.received ++ s.pipe.bytes ∧ s.pipe.bytes = [0] ∧ s.received = [1] := by
  have hrun : runLabels (guarded (step 65536 fun i : Fin 2 => [i.val.toUInt8]) Punctual) initial
      [.main 0, .client 0, .client 1, .client 1, .client 1, .client 0, .client 0, .main 0,
        .main 0] = some _ := rfl
  have hs := reaches_of_guarded hrun
  exact ⟨_, hs, (arrived_of_reaches hs).2.1, rfl, rfl⟩

/-! ### Every request can be read -/

def Main.remaining : Main → Nat
  | closing => 3
  | opening => 2
  | waiting _ => 1
  | reading => 0

/-- How far a client with a request of `length` bytes is from its end. What it writes is still to be
read. -/
def Client.remaining (length : Nat) : Client → Nat
  | opening => 4 + length
  | waiting _ => 3 + length
  | writing => 2 + length
  | closing => 1
  | done | killed => 0

def remaining (request : ι → List UInt8) (s : RegisterPipe ι) : Nat :=
  s.main.remaining + s.pipe.bytes.length + ∑ i, (s.clients i).remaining (request i).length

theorem sum_remaining {f : ι → Client} {i : ι} {old : Client} (hc : f i = old) (new : Client) :
    ∑ j, (Function.update f i new j).remaining (request j).length +
        old.remaining (request i).length =
      ∑ j, (f j).remaining (request j).length + new.remaining (request i).length := by
  rw [← hc]
  exact Table.sum_update (fun j pc => pc.remaining (request j).length) f i new

/-- A client has a punctual step nearer to the end, or the broker has one, whatever the size of its
read. -/
def Advances (capacity : Nat) (request : ι → List UInt8) (s : RegisterPipe ι) : Prop :=
  (∃ i s', Punctual s (.client i) ∧ s.clientStep capacity request i = some s' ∧
    remaining request s' < remaining request s) ∨
  ∀ n, ∃ s', s.mainStep n = some s' ∧ remaining request s' < remaining request s

theorem Advances.main
    (h : ∀ n, ∃ s', MainMoves n s s' ∧ remaining request s' < remaining request s) :
    Advances capacity request s := by
  refine Or.inr fun n => ?_
  obtain ⟨s', hm, hlt⟩ := h n
  exact ⟨s', mainStep_of_mainMoves hm, hlt⟩

theorem Advances.client (hm : ClientMoves capacity request i s s')
    (hok : s.clients i = .writing → s.main ≠ .closing ∧ s.main ≠ .opening)
    (hlt : remaining request s' < remaining request s) : Advances capacity request s :=
  Or.inl ⟨i, s', hok, clientStep_of_clientMoves hm, hlt⟩

/-- A client can open the FIFO while the broker has it open. -/
theorem Advances.opens (hc : s.clients i = .opening) (hopen : 0 < s.pipe.ends .reader) :
    Advances capacity request s := by
  refine .client (.opens hc hopen) (by simp [hc]) ?_
  have hsum : _ + (4 + (request i).length) = _ + (2 + (request i).length) :=
    sum_remaining hc .writing
  simp only [remaining, setClient, NamedPipe.openEnd_bytes]
  omega

namespace Inv

/-- A broker that reads gets bytes, or waits for a client that can go on. -/
theorem advances_of_reading (h : Inv request s order)
    (hcapacity : ∀ i, (request i).length ≤ capacity) (hmain : s.main = .reading)
    (hnot : ¬ ((∀ i, s.clients i = .done) ∧ s.pipe.bytes = [])) : Advances capacity request s := by
  have hopen : 0 < s.pipe.ends .reader := by
    rw [h.counts.readers, hmain]
    exact Nat.one_pos
  by_cases hbytes : s.pipe.bytes = []
  · obtain ⟨i, hi⟩ : ∃ i, s.clients i ≠ .done := by
      by_contra hall
      push Not at hall
      exact hnot ⟨hall, hbytes⟩
    cases hc : s.clients i with
    | opening => exact .opens hc hopen
    | waiting seen =>
      have hseen := (h.clientWaits i seen hc).2 (by simp [hmain])
      refine .client (.wakes seen hc (by omega)) (by simp [hc]) ?_
      have hsum : _ + (3 + (request i).length) = _ + (2 + (request i).length) :=
        sum_remaining hc .writing
      simp only [remaining, setClient]
      omega
    | writing =>
      have hroom : s.pipe.bytes.length + (request i).length ≤ capacity := by
        simpa [hbytes] using hcapacity i
      refine .client (.writes hc hopen hroom) (by simp [hmain]) ?_
      have hsum : _ + (2 + (request i).length) = _ + 1 := sum_remaining hc .closing
      simp only [remaining, setClient, List.length_append]
      omega
    | closing =>
      refine .client (.closes hc) (by simp [hc]) ?_
      have hsum : _ + 1 = ∑ j, (s.clients j).remaining (request j).length + 0 :=
        sum_remaining hc .done
      have hle := s.pipe.length_closeEnd_bytes_le .writer
      simp only [remaining, setClient]
      omega
    | done => exact absurd hc hi
    | killed => exact absurd hc (h.alive i)
  · have hpos : 0 < s.pipe.bytes.length := List.length_pos_iff.mpr hbytes
    refine .main fun n => ⟨_, .reads hmain hbytes, ?_⟩
    simp only [remaining, List.length_drop]
    omega

theorem advances (h : Inv request s order) (hcapacity : ∀ i, (request i).length ≤ capacity)
    (hnot : ¬ ((∀ i, s.clients i = .done) ∧ s.pipe.bytes = [])) : Advances capacity request s := by
  cases hmain : s.main with
  | reading => exact h.advances_of_reading hcapacity hmain hnot
  | closing =>
    refine .main fun n => ⟨_, .closes hmain, ?_⟩
    have hle := s.pipe.length_closeEnd_bytes_le .reader
    simp only [remaining, hmain, Main.remaining]
    omega
  | opening =>
    obtain hclosed | hopen := Nat.eq_zero_or_pos (s.pipe.ends .writer)
    · refine .main fun n => ⟨_, .waits hmain hclosed, ?_⟩
      simp only [remaining, hmain, Main.remaining, NamedPipe.openEnd_bytes]
      omega
    · refine .main fun n => ⟨_, .opens hmain hopen, ?_⟩
      simp only [remaining, hmain, Main.remaining, NamedPipe.openEnd_bytes]
      omega
  | waiting seen =>
    obtain hlt | ⟨_, hzero, hbytes⟩ := h.mainWaits seen hmain
    · refine .main fun n => ⟨_, .wakes seen hmain (by omega), ?_⟩
      simp only [remaining, hmain, Main.remaining]
      omega
    · -- nobody has the FIFO open but the broker
      obtain ⟨i, hi⟩ : ∃ i, s.clients i ≠ .done := by
        by_contra hall
        push Not at hall
        exact hnot ⟨hall, hbytes⟩
      rw [h.counts.writers, Finset.sum_eq_zero_iff] at hzero
      have hheld := hzero i (Finset.mem_univ i)
      cases hc : s.clients i with
      | opening =>
        refine .opens hc ?_
        rw [h.counts.readers, hmain]
        exact Nat.one_pos
      | waiting | writing | closing =>
        rw [hc] at hheld
        cases hheld
      | done => exact absurd hc hi
      | killed => exact absurd hc (h.alive i)

end Inv

/-- A punctual step, where `size` says up to how many more bytes than one the broker reads. -/
def Sized (size : RegisterPipe ι → Nat) (s : RegisterPipe ι) (a : Label ι) : Prop :=
  Punctual s a ∧ ∀ n, a = .main n → n = size s

/-- From every state of a punctual run, all clients can write what they have to and the broker can
read it, whatever the sizes of its reads. -/
theorem drains_of_reaches (size : RegisterPipe ι → Nat)
    (hcapacity : ∀ i, (request i).length ≤ capacity)
    (hs : Reaches (step capacity request) Punctual initial s) :
    ∃ s', Reaches (step capacity request) (Sized size) s s' ∧ (∀ i, s'.clients i = .done) ∧
      ∃ order : List ι, order.Nodup ∧ (∀ i, i ∈ order) ∧ s'.received = order.flatMap request := by
  have hends : ∃ s', Reaches (step capacity request) (Sized size) s s' ∧
      (∃ order, Inv request s' order) ∧ (∀ i, s'.clients i = .done) ∧ s'.pipe.bytes = [] := by
    apply Reaches.exists_of_variant (remaining request) ?_ (inv_of_reaches hs)
    rintro s ⟨order, h⟩
    by_cases hdone : (∀ i, s.clients i = .done) ∧ s.pipe.bytes = []
    · exact Or.inl hdone
    · refine Or.inr ?_
      obtain ⟨i, s', hok, hs, hlt⟩ | hmain := h.advances hcapacity hdone
      · exact ⟨.client i, s', ⟨hok, by rintro n ⟨⟩⟩, hs, h.step hok hs, hlt⟩
      · obtain ⟨s', hs, hlt⟩ := hmain (size s)
        have hok : Punctual s (.main (size s)) := trivial
        refine ⟨.main (size s), s', ⟨hok, ?_⟩, hs, ⟨_, h.mainMoves (mainMoves_of_mainStep hs)⟩, hlt⟩
        rintro n ⟨⟩
        rfl
  obtain ⟨s', hreach, ⟨order, h⟩, hdone, hbytes⟩ := hends
  refine ⟨s', hreach, hdone, order, h.nodup, fun i => ?_, ?_⟩
  · exact (h.mem_order i).mpr (Or.inr (hdone i))
  · rw [← h.written, h.flow, hbytes, List.append_nil]

/-- **All requests can be read**: from every state of a punctual run of clients that write requests
with a box name, all clients can come to their end, and the broker, which finds an idle worker for
each request, can read the requests of all of them, each once and from its own bytes. -/
theorem served_of_reaches {requests : ι → Request} (size : RegisterPipe ι → Nat)
    (hbox : ∀ i, ¬ (requests i).IsList) (hcapacity : pipePlusBoxSize + 3 ≤ capacity)
    (hs : Reaches (step capacity fun i => (requests i).written) Punctual initial s) :
    ∃ s', Reaches (step capacity fun i => (requests i).written) (Sized size) s s' ∧
      (∀ i, s'.clients i = .done) ∧
      ∃ order : List ι, order.Nodup ∧ (∀ i, i ∈ order) ∧ ∀ frames,
        brokerLoop frames 0 s'.received =
          order.map fun i => .served (requested (requests i)) := by
  have hfits : ∀ i, (requests i).written.length ≤ capacity :=
    fun i => (requests i).length_written_le.trans hcapacity
  obtain ⟨s', hreach, hdone, order, hnodup, hall, hreceived⟩ := drains_of_reaches size hfits hs
  refine ⟨s', hreach, hdone, order, hnodup, hall, fun frames => ?_⟩
  have hdecodes : ∀ r ∈ (order.map requests).dropLast, ¬ r.IsList := by
    intro r hr
    obtain ⟨i, _, rfl⟩ := List.mem_map.mp (List.mem_of_mem_dropLast hr)
    exact hbox i
  have hloop := (brokerLoop_flatMap_iff frames 0 _).mpr hdecodes
  rw [List.flatMap_map, List.map_map] at hloop
  rw [hreceived]
  exact hloop

/-- Two subscribers of the box `/d` with the pipe `/s`. -/
def twoSubscribers (_ : Fin 2) : Request :=
  .subscriber ⟨.ofBuffer [47, 115], by decide⟩ ⟨.ofBuffer [47, 100], by decide⟩

/-- A client that has opened the FIFO for a broker that has not yet noticed it. -/
theorem served_of_opened : ∃ s s' : RegisterPipe (Fin 2),
    Reaches (step 65536 fun i => (twoSubscribers i).written) Punctual initial s ∧
      s.main = .waiting 0 ∧ s.clients 0 = .writing ∧
      Reaches (step 65536 fun i => (twoSubscribers i).written) (Sized fun _ => 0) s s' ∧
      ∀ i, s'.clients i = .done := by
  have hrun : runLabels (guarded (step 65536 fun i => (twoSubscribers i).written) Punctual) initial
      [.main 0, .client 0] = some _ := rfl
  have hs := reaches_of_guarded hrun
  obtain ⟨s', hreach, hdone, _⟩ := served_of_reaches (fun _ => 0) (fun _ => id) (by decide) hs
  exact ⟨_, s', hs, rfl, rfl, hreach, hdone⟩

/-! ### The requests that are lost -/

/-- From a state on, what the broker has read was written from this state on. -/
def ReadsLater (s s' : RegisterPipe ι) : Prop :=
  ∃ later got, s'.written = s.written ++ later ∧ s'.received = s.received ++ got ∧
    (got ++ s'.pipe.bytes).Sublist later

omit [DecidableEq ι] [Fintype ι] in
theorem readsLater_refl (h : s.pipe.bytes = []) : ReadsLater s s :=
  ⟨[], [], (List.append_nil _).symm, (List.append_nil _).symm, by rw [h]; exact List.Sublist.refl _⟩

omit [Fintype ι] in
/-- What is not in the FIFO and has not been read is not read later. -/
theorem readsLater_of_step {s₀ : RegisterPipe ι} {a : Label ι} (h : ReadsLater s₀ s)
    (hs : s.step capacity request a = some s') : ReadsLater s₀ s' := by
  obtain ⟨later, got, hwritten, hreceived, hsub⟩ := h
  -- bytes that are lost when the last side closes the FIFO
  have hclose : ∀ e, (got ++ (s.pipe.closeEnd e).bytes).Sublist later := fun e =>
    ((s.pipe.closeEnd_bytes_sublist e).append_left got).trans hsub
  cases a with
  | main n =>
    cases mainMoves_of_mainStep hs with
    | reads =>
      refine ⟨later, got ++ s.pipe.bytes.take (n + 1), hwritten, ?_, ?_⟩
      · simp only [hreceived, List.append_assoc]
      · rw [List.append_assoc, List.take_append_drop]
        exact hsub
    | closes => exact ⟨later, got, hwritten, hreceived, hclose .reader⟩
    | opens | waits | wakes | ends => exact ⟨later, got, hwritten, hreceived, hsub⟩
  | client i =>
    cases clientMoves_of_clientStep hs with
    | writes =>
      refine ⟨later ++ request i, got, ?_, hreceived, ?_⟩
      · simp only [setClient, hwritten, List.append_assoc]
      · rw [setClient, ← List.append_assoc]
        exact hsub.append_right _
    | killed | closes => exact ⟨later, got, hwritten, hreceived, hclose .writer⟩
    | opens | waits | wakes => exact ⟨later, got, hwritten, hreceived, hsub⟩

theorem counts_of_reaches {ok : RegisterPipe ι → Label ι → Prop}
    (hs : Reaches (step capacity request) ok initial s) : s.Counts := by
  apply hs.invariant counts_initial
  intro u a v hu _ ha
  cases a with
  | main n => exact hu.mainMoves (mainMoves_of_mainStep ha)
  | client i => exact hu.clientMoves (clientMoves_of_clientStep ha)

/-- **A request can be lost**, and so can its client, whenever the broker has read the end of the
FIFO and has not closed it yet, and no other client has opened it: a client that opens it now can
write its request and close it, and all that the broker will read is written behind this request; or
the client is killed by its write. -/
theorem lost_of_reaches (hs : Reaches (step capacity request) anyStep initial s)
    (hmain : s.main = .closing) (hends : s.pipe.ends .writer = 0) (hc : s.clients i = .opening)
    (hroom : s.pipe.bytes.length + (request i).length ≤ capacity) :
    (∃ s', Reaches (step capacity request) anyStep s s' ∧ s'.clients i = .done ∧
      s'.written = s.written ++ request i ∧ s'.received = s.received ∧
      ∀ s'', Reaches (step capacity request) anyStep s' s'' → ReadsLater s' s'') ∧
    ∃ s', Reaches (step capacity request) anyStep s s' ∧ s'.clients i = .killed := by
  have hreader : s.pipe.ends .reader = 1 := by
    rw [(counts_of_reaches hs).readers, hmain]
    rfl
  -- the client opens the FIFO
  let opened : RegisterPipe ι :=
    { s with pipe := s.pipe.openEnd .writer }.setClient i .writing
  have hopened : opened.clients i = .writing := Function.update_self ..
  have hopen : 0 < opened.pipe.ends .reader := by
    show 0 < s.pipe.ends .reader
    omega
  have hfirst : Reaches (step capacity request) anyStep s opened :=
    (Reaches.refl s).snoc (.client i) trivial
      (clientStep_of_clientMoves (.opens hc (by omega)))
  constructor
  · let sent : RegisterPipe ι :=
      { opened with
        pipe := { opened.pipe with bytes := s.pipe.bytes ++ request i }
        written := s.written ++ request i }.setClient i .closing
    have hsent : sent.clients i = .closing := Function.update_self ..
    let done : RegisterPipe ι := { sent with pipe := sent.pipe.closeEnd .writer }.setClient i .done
    let closed : RegisterPipe ι :=
      { done with pipe := done.pipe.closeEnd .reader, main := .opening }
    have hreach : Reaches (step capacity request) anyStep s closed :=
      ((hfirst.snoc (.client i) trivial
        (clientStep_of_clientMoves (.writes hopened hopen hroom))).snoc (.client i) trivial
          (clientStep_of_clientMoves (.closes hsent))).snoc (.main 0) trivial
            (mainStep_of_mainMoves (.closes hmain))
    have hnil : closed.pipe.bytes = [] := by
      apply NamedPipe.closeEnd_bytes_of_last
      · exact hreader.le
      · show (sent.pipe.closeEnd .writer).ends .writer = 0
        have hwriter : sent.pipe.ends .writer = s.pipe.ends .writer + 1 :=
          s.pipe.ends_openEnd .writer
        rw [NamedPipe.ends_closeEnd]
        omega
    refine ⟨closed, hreach, Function.update_self .., rfl, rfl, fun s'' hs'' => ?_⟩
    exact hs''.invariant (readsLater_refl hnil) fun _ _ _ hu _ ha => readsLater_of_step hu ha
  · let closed : RegisterPipe ι :=
      { opened with pipe := opened.pipe.closeEnd .reader, main := .opening }
    have hgone : closed.pipe.ends .reader = 0 := by
      show (opened.pipe.closeEnd .reader).ends .reader = 0
      rw [NamedPipe.ends_closeEnd]
      exact Nat.sub_eq_zero_of_le hreader.le
    refine ⟨_, (hfirst.snoc (.main 0) trivial (mainStep_of_mainMoves (.closes hmain))).snoc
      (.client i) trivial (clientStep_of_clientMoves (.killed hopened hgone)), ?_⟩
    exact Function.update_self ..

/-- The second of two clients opens the FIFO when the broker has read the end behind the first
one. -/
theorem lost_of_second : ∃ s s' : RegisterPipe (Fin 2),
    Reaches (step 65536 fun i => [i.val.toUInt8]) anyStep initial s ∧ s.received = [0] ∧
      Reaches (step 65536 fun i => [i.val.toUInt8]) anyStep s s' ∧ s'.written = [0, 1] ∧
      s'.received = [0] ∧
      ∀ s'', Reaches (step 65536 fun i => [i.val.toUInt8]) anyStep s' s'' → ReadsLater s' s'' := by
  have hrun : runLabels (step 65536 fun i : Fin 2 => [i.val.toUInt8]) initial
      [.main 0, .client 0, .client 0, .client 0, .main 0, .main 0, .main 0] = some _ := rfl
  have hs := reaches_of_runLabels hrun
  obtain ⟨⟨s', hreach, _, hwritten, hreceived, hlost⟩, _⟩ :=
    lost_of_reaches (i := 1) hs rfl rfl rfl (by decide)
  exact ⟨_, s', hs, rfl, hreach, hwritten, hreceived, hlost⟩

end

end

end RegisterPipe

end MessageBroker.Broker
