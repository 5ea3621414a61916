import MessageBroker.Lib.CString

/-!
# Files of terminated strings

A file to which strings are appended with their terminators, in a block of limited
size: the file is what fits of them, which is the strings that fit whole and possibly
the first bytes of the next one, without a terminator.
-/

namespace MessageBroker.Records

/-- The strings with their terminators. -/
def joined (ms : List CString) : List UInt8 := ms.flatMap CString.terminated

/-- The strings that fit whole, with their terminators, in the given room. -/
def whole : Nat → List CString → List CString
  | _, [] => []
  | room, m :: ms => if m.length + 1 ≤ room then m :: whole (room - (m.length + 1)) ms else []

/-- The strings that are not empty. -/
def visible (ms : List CString) : List CString := ms.filter fun m => decide (0 < m.length)

variable {room : Nat} {m : CString} {ms ms' : List CString}

@[simp] theorem length_terminated (m : CString) : m.terminated.length = m.length + 1 := by
  rw [CString.terminated, List.length_append]
  rfl

@[simp] theorem joined_nil : joined [] = [] := rfl

@[simp] theorem joined_cons (m : CString) (ms : List CString) :
    joined (m :: ms) = m.terminated ++ joined ms := List.flatMap_cons

@[simp] theorem joined_append (ms ms' : List CString) :
    joined (ms ++ ms') = joined ms ++ joined ms' := List.flatMap_append

theorem joined_concat (ms : List CString) (m : CString) :
    joined (ms ++ [m]) = joined ms ++ m.terminated := by
  rw [joined_append, joined_cons, joined_nil, List.append_nil]

/-- What fits of a file: whole strings, and a part of the next one if the block is full. -/
theorem take_joined (room : Nat) (ms : List CString) :
    ∃ rest, (joined ms).take room = joined (whole room ms) ++ rest ∧ (∀ c ∈ rest, c ≠ 0) ∧
      (rest ≠ [] → room ≤ (joined ms).length) := by
  induction ms generalizing room with
  | nil =>
    refine ⟨[], List.take_nil, ?_, fun h => absurd rfl h⟩
    intro c hc
    cases hc
  | cons m ms ih =>
    rw [joined_cons, List.take_append, length_terminated, whole]
    by_cases hfits : m.length + 1 ≤ room
    · obtain ⟨rest, heq, hfree, hfull⟩ := ih (room - (m.length + 1))
      have hall : m.terminated.take room = m.terminated := by
        apply List.take_of_length_le
        rwa [length_terminated]
      rw [if_pos hfits, joined_cons, hall, heq]
      refine ⟨rest, (List.append_assoc ..).symm, hfree, fun hne => ?_⟩
      have := hfull hne
      rw [List.length_append, length_terminated]
      omega
    · -- the terminator of `m` is behind the end of the block
      have hzero : room - (m.length + 1) = 0 := by omega
      have hcut : m.terminated.take room = m.bytes.take room := by
        rw [CString.terminated, List.take_append_of_le_length]
        rw [CString.length] at hfits
        omega
      rw [if_neg hfits, hzero, List.take_zero, List.append_nil, hcut]
      refine ⟨m.bytes.take room, rfl, fun c hc => m.nul_free c (List.mem_of_mem_take hc), ?_⟩
      intro _
      rw [List.length_append, length_terminated]
      omega

theorem prefixOf_whole (room : Nat) (ms : List CString) : whole room ms <+: ms := by
  induction ms generalizing room with
  | nil => exact List.prefix_refl _
  | cons m ms ih =>
    rw [whole]
    split
    · exact (List.prefix_cons_inj m).mpr (ih _)
    · exact List.nil_prefix

/-- What is appended does not change which of the strings before it fit. -/
theorem whole_append (room : Nat) (ms ms' : List CString) :
    whole room ms <+: whole room (ms ++ ms') := by
  induction ms generalizing room with
  | nil => exact List.nil_prefix
  | cons m ms ih =>
    rw [List.cons_append, whole, whole]
    split
    · exact (List.prefix_cons_inj m).mpr (ih _)
    · exact List.nil_prefix

/-- Nothing more fits into a full block. -/
theorem whole_of_full (h : room ≤ (joined ms).length) (ms' : List CString) :
    whole room (ms ++ ms') = whole room ms := by
  induction ms generalizing room with
  | nil =>
    obtain rfl : room = 0 := Nat.le_zero.mp h
    cases ms' with
    | nil => rfl
    | cons m ms' => exact if_neg (Nat.not_succ_le_zero _)
  | cons m ms ih =>
    rw [joined_cons, List.length_append, length_terminated] at h
    rw [List.cons_append, whole, whole]
    split
    · rw [ih (by omega)]
    · rfl

/-- Strings that fit are all whole. -/
theorem whole_of_le (h : (joined ms).length ≤ room) : whole room ms = ms := by
  induction ms generalizing room with
  | nil => rfl
  | cons m ms ih =>
    rw [joined_cons, List.length_append, length_terminated] at h
    rw [whole, if_pos (by omega), ih (by omega)]

@[simp] theorem visible_append (ms ms' : List CString) :
    visible (ms ++ ms') = visible ms ++ visible ms' := List.filter_append ..

theorem visible_of_empty (h : m.length = 0) : visible [m] = [] := by
  rw [visible, List.filter_eq_nil_iff]
  intro m' hm'
  rw [List.mem_singleton.mp hm', h]
  decide

theorem visible_of_pos (h : ∀ m ∈ ms, 0 < m.length) : visible ms = ms := by
  rw [visible, List.filter_eq_self]
  intro m hm
  exact decide_eq_true (h m hm)

theorem prefixOf_visible (h : ms <+: ms') : visible ms <+: visible ms' := h.filter _

end MessageBroker.Records
