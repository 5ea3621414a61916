import Mathlib.Data.List.Basic

/-!
# Pipes with records of a fixed size

A pipe holds what was written to it and not yet read. A write of a whole record is
atomic: it waits for room for all of it. A read returns what there is, up to the size
that it asks for. When every write has the size of a record and every read asks for
that size, the pipe always holds whole records, and a read returns the oldest one.
-/

namespace MessageBroker.Pipe

variable {α β : Type*}

/-- A write to a pipe of the given capacity; `none` while it has to wait. -/
def write (capacity : Nat) (data pipe : List α) : Option (List α) :=
  if pipe.length + data.length ≤ capacity then some (pipe ++ data) else none

/-- A read of up to `n` elements, with what it leaves; `none` while it has to wait. -/
def read (n : Nat) (pipe : List α) : Option (List α × List α) :=
  if pipe = [] then none else some (pipe.take n, pipe.drop n)

/-- The pipe holds one record of size `n` for each of the messages, oldest first. -/
def Carries (Encodes : β → List α → Prop) (n : Nat) : List β → List α → Prop
  | [], pipe => pipe = []
  | m :: ms, pipe => ∃ record rest, pipe = record ++ rest ∧ record.length = n ∧
      Encodes m record ∧ Carries Encodes n ms rest

variable {Encodes : β → List α → Prop} {n capacity : Nat} {m : β} {ms : List β}
  {pipe pipe' data rest : List α}

theorem write_eq_some :
    write capacity data pipe = some pipe' ↔
      pipe.length + data.length ≤ capacity ∧ pipe' = pipe ++ data := by
  rw [write, Option.ite_none_right_eq_some, Option.some.injEq, eq_comm (a := pipe')]

theorem read_eq_some :
    read n pipe = some (data, rest) ↔ pipe ≠ [] ∧ data = pipe.take n ∧ rest = pipe.drop n := by
  rw [read, Option.ite_none_left_eq_some, Option.some.injEq, Prod.mk.injEq, eq_comm (a := data),
    eq_comm (a := rest)]

namespace Carries

theorem nil : Carries Encodes n [] [] := rfl

theorem length (h : Carries Encodes n ms pipe) : pipe.length = n * ms.length := by
  induction ms generalizing pipe with
  | nil =>
    rw [show pipe = [] from h]
    rfl
  | cons m ms ih =>
    obtain ⟨record, rest, rfl, hlen, _, hrest⟩ := h
    rw [List.length_append, hlen, ih hrest, List.length_cons, Nat.mul_succ, Nat.add_comm]

/-- With records that are not empty, the pipe is empty just if it holds no record. -/
theorem eq_nil_iff (h : Carries Encodes n ms pipe) (hn : 0 < n) : pipe = [] ↔ ms = [] := by
  rw [← List.length_eq_zero_iff, h.length, ← List.length_eq_zero_iff, Nat.mul_eq_zero]
  omega

/-- A record that is written stands behind the others. -/
theorem append (h : Carries Encodes n ms pipe) (hm : Encodes m data) (hlen : data.length = n) :
    Carries Encodes n (ms ++ [m]) (pipe ++ data) := by
  induction ms generalizing pipe with
  | nil =>
    rw [show pipe = [] from h]
    exact ⟨data, [], (List.append_nil _).symm, hlen, hm, rfl⟩
  | cons m' ms ih =>
    obtain ⟨record, rest, rfl, hlen', hm', hrest⟩ := h
    exact ⟨record, rest ++ data, List.append_assoc .., hlen', hm', ih hrest⟩

theorem write (h : Carries Encodes n ms pipe) (hm : Encodes m data) (hlen : data.length = n)
    (hw : Pipe.write capacity data pipe = some pipe') : Carries Encodes n (ms ++ [m]) pipe' := by
  obtain ⟨_, rfl⟩ := write_eq_some.mp hw
  exact h.append hm hlen

/-- A read of the size of a record returns the oldest record and leaves the others. -/
theorem read (h : Carries Encodes n ms pipe) (hr : Pipe.read n pipe = some (data, rest)) :
    ∃ m ms', ms = m :: ms' ∧ Encodes m data ∧ data.length = n ∧ Carries Encodes n ms' rest := by
  obtain ⟨hne, rfl, rfl⟩ := read_eq_some.mp hr
  cases ms with
  | nil => exact absurd h hne
  | cons m ms =>
    obtain ⟨record, rest, rfl, hlen, hm, hrest⟩ := h
    rw [List.take_left' hlen, List.drop_left' hlen]
    exact ⟨m, ms, rfl, hm, hlen, hrest⟩

end Carries

end MessageBroker.Pipe
