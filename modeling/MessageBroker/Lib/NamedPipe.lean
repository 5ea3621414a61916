import MessageBroker.Lib.Pipe
import Mathlib.Logic.Function.Basic

/-!
# Named pipes with two ends

A named pipe that processes open and close. A call of `open` counts its end at once and
returns when the other end is open; a call that finds it closed waits until it has been
opened since, even if it is closed again by then. What is in the pipe is lost when
nobody has an end of it open. A write without a reader kills the writer, and a read
without a writer returns nothing.
-/

namespace MessageBroker

inductive PipeEnd
  | reader
  | writer
deriving DecidableEq

def PipeEnd.other : PipeEnd → PipeEnd
  | reader => writer
  | writer => reader

@[simp] theorem PipeEnd.other_other (e : PipeEnd) : e.other.other = e := by
  cases e <;> rfl

structure NamedPipe where
  /-- The descriptors that are open for each end. -/
  ends : PipeEnd → Nat
  /-- The calls that have opened each end so far. -/
  opens : PipeEnd → Nat
  bytes : List UInt8

inductive WriteResult
  | killed
  | blocked
  | written (p : NamedPipe)

namespace NamedPipe

def new : NamedPipe := ⟨fun _ => 0, fun _ => 0, []⟩

/-- The pipe behind the first part of an `open`. -/
def openEnd (p : NamedPipe) (e : PipeEnd) : NamedPipe :=
  { p with
    ends := Function.update p.ends e (p.ends e + 1)
    opens := Function.update p.opens e (p.opens e + 1) }

/-- What an `open` waits for: another number of opens of the other end. It does not wait if the
other end is open. -/
def waitsFor (p : NamedPipe) (e : PipeEnd) : Option Nat :=
  if 0 < p.ends e.other then none else some (p.opens e.other)

def closeEnd (p : NamedPipe) (e : PipeEnd) : NamedPipe :=
  let ends := Function.update p.ends e (p.ends e - 1)
  { p with
    ends := ends
    bytes := if ends .reader = 0 ∧ ends .writer = 0 then [] else p.bytes }

def write (capacity : Nat) (data : List UInt8) (p : NamedPipe) : WriteResult :=
  if p.ends .reader = 0 then .killed
  else
    match Pipe.write capacity data p.bytes with
    | none => .blocked
    | some bytes => .written { p with bytes := bytes }

/-- A read of up to `n` bytes, which returns nothing without a writer; `none` while it waits. -/
def read (n : Nat) (p : NamedPipe) : Option (List UInt8 × NamedPipe) :=
  match Pipe.read n p.bytes with
  | some (data, rest) => some (data, { p with bytes := rest })
  | none => if p.ends .writer = 0 then some ([], p) else none

variable {p p' : NamedPipe} {e : PipeEnd} {n capacity : Nat} {data : List UInt8}

@[simp, grind =] theorem openEnd_bytes (p : NamedPipe) (e : PipeEnd) :
    (p.openEnd e).bytes = p.bytes := rfl

theorem ends_openEnd (p : NamedPipe) (e : PipeEnd) : (p.openEnd e).ends e = p.ends e + 1 := by
  simp [openEnd]

theorem opens_openEnd (p : NamedPipe) (e : PipeEnd) : (p.openEnd e).opens e = p.opens e + 1 := by
  simp [openEnd]

theorem ends_closeEnd (p : NamedPipe) (e : PipeEnd) : (p.closeEnd e).ends e = p.ends e - 1 := by
  simp [closeEnd]

theorem waitsFor_of_open (h : 0 < p.ends e.other) : p.waitsFor e = none := if_pos h

theorem waitsFor_of_closed (h : p.ends e.other = 0) : p.waitsFor e = some (p.opens e.other) :=
  if_neg (Nat.not_lt.mpr (Nat.le_of_eq h))

theorem write_of_closed (h : p.ends .reader = 0) : p.write capacity data = .killed := if_pos h

theorem write_eq_killed : p.write capacity data = .killed ↔ p.ends .reader = 0 := by
  refine ⟨fun h => ?_, write_of_closed⟩
  by_contra hopen
  rw [write, if_neg hopen] at h
  split at h <;> cases h

theorem write_eq_written :
    p.write capacity data = .written p' ↔ 0 < p.ends .reader ∧
      p.bytes.length + data.length ≤ capacity ∧ p' = { p with bytes := p.bytes ++ data } := by
  rw [write]
  by_cases hopen : p.ends .reader = 0
  · rw [if_pos hopen]
    constructor
    · intro h
      cases h
    · rintro ⟨h, _⟩
      omega
  · rw [if_neg hopen, Pipe.write]
    by_cases hroom : p.bytes.length + data.length ≤ capacity
    · rw [if_pos hroom, WriteResult.written.injEq, eq_comm (a := p')]
      exact ⟨fun h => ⟨by omega, hroom, h⟩, fun h => h.2.2⟩
    · rw [if_neg hroom]
      constructor
      · intro h
        cases h
      · rintro ⟨_, h, _⟩
        exact absurd h hroom

theorem write_eq_blocked : p.write capacity data = .blocked →
    0 < p.ends .reader ∧ capacity < p.bytes.length + data.length := by
  intro h
  rw [write, Pipe.write] at h
  by_cases hopen : p.ends .reader = 0
  · rw [if_pos hopen] at h
    cases h
  · rw [if_neg hopen] at h
    by_cases hroom : p.bytes.length + data.length ≤ capacity
    · rw [if_pos hroom] at h
      cases h
    · omega

/-- A read takes the first bytes, of which there are none only without a writer. -/
theorem read_eq_some {r : List UInt8 × NamedPipe} :
    p.read n = some r ↔ (p.bytes = [] → p.ends .writer = 0) ∧
      r = (p.bytes.take n, { p with bytes := p.bytes.drop n }) := by
  rw [read, Pipe.read, eq_comm (a := r)]
  by_cases hnil : p.bytes = []
  · have hbytes : ({ p with bytes := [] } : NamedPipe) = p := by
      rw [← hnil]
    rw [if_pos hnil, Option.ite_none_right_eq_some, Option.some.injEq, hnil, List.take_nil,
      List.drop_nil, hbytes]
    exact ⟨fun h => ⟨fun _ => h.1, h.2⟩, fun h => ⟨h.1 rfl, h.2⟩⟩
  · rw [if_neg hnil]
    exact ⟨fun h => ⟨fun h' => absurd h' hnil, Option.some.inj h⟩, fun h => congrArg some h.2⟩

/-- A read of the size of what was written first returns just that. -/
theorem read_first {c : List UInt8} {queued : List (List UInt8)}
    (hbytes : p.bytes = (c :: queued).flatten) (hc : c ≠ []) (hn : c.length = n) :
    p.read n = some (c, { p with bytes := queued.flatten }) := by
  rw [List.flatten_cons] at hbytes
  refine read_eq_some.mpr ⟨fun hnil => ?_, ?_⟩
  · rw [hbytes] at hnil
    exact absurd (List.append_eq_nil_iff.mp hnil).1 hc
  · rw [hbytes, List.take_left' hn, List.drop_left' hn]

/-- Closing an end changes the bytes only if it was the last one. -/
theorem closeEnd_bytes (p : NamedPipe) (e : PipeEnd) :
    (p.closeEnd e).bytes = p.bytes ∨
      (p.closeEnd e).bytes = [] ∧ ∀ e', (p.closeEnd e).ends e' = 0 := by
  by_cases h : (p.closeEnd e).ends .reader = 0 ∧ (p.closeEnd e).ends .writer = 0
  · refine Or.inr ⟨if_pos h, fun e' => ?_⟩
    cases e' with
    | reader => exact h.1
    | writer => exact h.2
  · exact Or.inl (if_neg h)

theorem closeEnd_bytes_of_open (h : 0 < p.ends e.other) : (p.closeEnd e).bytes = p.bytes := by
  obtain heq | ⟨_, hends⟩ := p.closeEnd_bytes e
  · exact heq
  · have hother := hends e.other
    cases e <;> exact absurd hother (Nat.ne_of_gt h)

/-- The last one to close a pipe loses what is in it. -/
theorem closeEnd_bytes_of_last (h : p.ends e ≤ 1) (hother : p.ends e.other = 0) :
    (p.closeEnd e).bytes = [] := by
  refine if_pos ?_
  cases e with
  | reader => exact ⟨Nat.sub_eq_zero_of_le h, hother⟩
  | writer => exact ⟨hother, Nat.sub_eq_zero_of_le h⟩

theorem closeEnd_bytes_sublist (p : NamedPipe) (e : PipeEnd) :
    (p.closeEnd e).bytes.Sublist p.bytes := by
  obtain heq | ⟨heq, _⟩ := p.closeEnd_bytes e <;> simp [heq]

theorem length_closeEnd_bytes_le (p : NamedPipe) (e : PipeEnd) :
    (p.closeEnd e).bytes.length ≤ p.bytes.length :=
  (p.closeEnd_bytes_sublist e).length_le

end NamedPipe

/-! ### The descriptors of two processes -/

/-- The descriptors that a process has of each end of a pipe, and how often it has opened it. -/
@[ext] structure Descriptors where
  held : PipeEnd → Nat
  opened : PipeEnd → Nat

namespace Descriptors

def none : Descriptors := ⟨fun _ => 0, fun _ => 0⟩

def openEnd (d : Descriptors) (e : PipeEnd) : Descriptors :=
  ⟨Function.update d.held e (d.held e + 1), Function.update d.opened e (d.opened e + 1)⟩

def closeEnd (d : Descriptors) (e : PipeEnd) : Descriptors :=
  { d with held := Function.update d.held e (d.held e - 1) }

end Descriptors

/-- Two processes have all descriptors of a pipe. -/
structure NamedPipe.Shared (p : NamedPipe) (a b : Descriptors) : Prop where
  ends : ∀ e, p.ends e = a.held e + b.held e
  opens : ∀ e, p.opens e = a.opened e + b.opened e

namespace NamedPipe.Shared

variable {p : NamedPipe} {a b : Descriptors}

theorem new : NamedPipe.new.Shared .none .none := ⟨fun _ => rfl, fun _ => rfl⟩

theorem symm (h : p.Shared a b) : p.Shared b a :=
  ⟨fun e => (h.ends e).trans (Nat.add_comm ..), fun e => (h.opens e).trans (Nat.add_comm ..)⟩

theorem withBytes (h : p.Shared a b) (bytes : List UInt8) :
    NamedPipe.Shared { p with bytes := bytes } a b := ⟨h.ends, h.opens⟩

theorem openEnd (h : p.Shared a b) (e : PipeEnd) : (p.openEnd e).Shared (a.openEnd e) b := by
  constructor <;> intro e'
  · by_cases he : e' = e
    · subst he
      simp only [NamedPipe.openEnd, Descriptors.openEnd, Function.update_self, h.ends e']
      omega
    · simp only [NamedPipe.openEnd, Descriptors.openEnd, Function.update_of_ne he, h.ends e']
  · by_cases he : e' = e
    · subst he
      simp only [NamedPipe.openEnd, Descriptors.openEnd, Function.update_self, h.opens e']
      omega
    · simp only [NamedPipe.openEnd, Descriptors.openEnd, Function.update_of_ne he, h.opens e']

/-- A process can close what it has. -/
theorem closeEnd (h : p.Shared a b) {e : PipeEnd} (he : 0 < a.held e) :
    (p.closeEnd e).Shared (a.closeEnd e) b := by
  refine ⟨fun e' => ?_, h.opens⟩
  by_cases he' : e' = e
  · subst he'
    simp only [NamedPipe.closeEnd, Descriptors.closeEnd, Function.update_self, h.ends e']
    omega
  · simp only [NamedPipe.closeEnd, Descriptors.closeEnd, Function.update_of_ne he', h.ends e']

end NamedPipe.Shared

end MessageBroker
