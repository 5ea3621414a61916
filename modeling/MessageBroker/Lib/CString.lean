import MessageBroker.Lib.Bytes
import Mathlib.Data.List.TakeWhile

/-!
# C strings

`CString` is a string with the property that no byte of it is the terminator.
`strcmpEq` and `strncmpEq` decide whether `strcmp` and `strncmp` return `0` on a
string in memory and a given string; `strcmp` compares two strings in their order.
-/

namespace MessageBroker

/-- A byte string without the terminator. -/
structure CString where
  bytes : List UInt8
  nul_free : ∀ b ∈ bytes, b ≠ 0
deriving DecidableEq

namespace CString

@[ext] theorem ext {s t : CString} (h : s.bytes = t.bytes) : s = t := by
  cases s
  cases t
  congr

/-- `strlen`. -/
def length (s : CString) : Nat := s.bytes.length

/-- `strcmp`, by the sign of what it returns: the bytes are compared as unsigned ones. -/
def strcmp (s t : CString) : Ordering := compare s.bytes t.bytes

/-- The string that starts after the first byte. -/
def tail (s : CString) : CString :=
  ⟨s.bytes.tail, fun b hb => s.nul_free b (List.mem_of_mem_tail hb)⟩

def empty : CString := ⟨[], by simp⟩

/-- The first `n` bytes of a string, or all of it when it is shorter. -/
def cut (n : Nat) (s : CString) : CString :=
  ⟨s.bytes.take n, fun b hb => s.nul_free b (List.mem_of_mem_take hb)⟩

/-- The string as it stands in memory. -/
def terminated (s : CString) : List UInt8 := s.bytes ++ [0]

/-- The string that a buffer holds: its bytes up to the first terminator. -/
def ofBuffer (buf : List UInt8) : CString :=
  ⟨buf.takeWhile (· ≠ 0), fun b hb => by simpa using List.mem_takeWhile_imp hb⟩

/-- The buffer of size `n` that holds the string followed by terminators. -/
def padTo (n : Nat) (s : CString) : List UInt8 :=
  s.bytes ++ List.replicate (n - s.length) 0

instance : Std.TransCmp strcmp where
  eq_swap {s t} := @Std.OrientedCmp.eq_swap (List UInt8) compare _ s.bytes t.bytes
  isLE_trans {s t u} := @Std.TransCmp.isLE_trans (List UInt8) compare _ s.bytes t.bytes u.bytes

theorem eq_of_strcmp {s t : CString} (h : s.strcmp t = .eq) : s = t :=
  ext (Std.LawfulEqCmp.eq_of_compare h)

@[simp] theorem length_tail (s : CString) : s.tail.length = s.length - 1 := by
  simp [tail, length]

theorem length_cut_le (n : Nat) (s : CString) : (s.cut n).length ≤ n := List.length_take_le n _

theorem cut_of_le {n : Nat} {s : CString} (h : s.length ≤ n) : s.cut n = s :=
  ext (List.take_of_length_le h)

theorem length_padTo {n : Nat} {s : CString} (h : s.length ≤ n) : (s.padTo n).length = n := by
  simp only [padTo, List.length_append, List.length_replicate]
  unfold length at *
  omega

/-- The byte behind the string of a padded buffer. -/
theorem getElem?_padTo_length {n : Nat} {s : CString} (h : s.length < n) :
    (s.padTo n)[s.length]? = some 0 := by
  unfold length at *
  rw [padTo, List.getElem?_append_right le_rfl, List.getElem?_replicate,
    if_pos (by rw [length]; omega)]

/-- Cutting a padded buffer behind its string. -/
theorem take_padTo {n k : Nat} {s : CString} (hs : s.length ≤ k) (hk : k ≤ n) :
    (s.padTo n).take k = s.padTo k := by
  unfold length at hs
  rw [padTo, List.take_append, List.take_of_length_le hs, List.take_replicate, padTo, length]
  congr 2
  omega

/-- Bytes before the first terminator of a buffer that holds `s`. -/
theorem takeWhile_append_zero (s : CString) (rest : List UInt8) :
    (s.bytes ++ 0 :: rest).takeWhile (· ≠ 0) = s.bytes := by
  rw [List.takeWhile_append_of_pos (by simpa using s.nul_free)]
  simp

theorem ofBuffer_append_zero (s : CString) (rest : List UInt8) :
    ofBuffer (s.bytes ++ 0 :: rest) = s := by
  ext1
  exact takeWhile_append_zero s rest

end CString

namespace Bytes

/-- `strcmp` of the string at `addr` with `s` returns `0`. -/
def strcmpEq (m : Memory) (addr : Nat) : List UInt8 → Bool
  | [] => m addr == 0
  | c :: cs => m addr == c && strcmpEq m (addr + 1) cs

/-- `strncmp` with bound `n` of the string at `addr` with `s` returns `0`. -/
def strncmpEq (m : Memory) (addr : Nat) : List UInt8 → Nat → Bool
  | _, 0 => true
  | [], _ + 1 => m addr == 0
  | c :: cs, n + 1 => m addr == c && strncmpEq m (addr + 1) cs n

/-- The bytes at `addr` are the string `s` and its terminator. -/
def HoldsString (m : Memory) (addr : Nat) (s : CString) : Prop :=
  strcmpEq m addr s.bytes = true

variable {m m' : Memory} {addr : Nat}

/-- Against a string in memory, `strcmp` returns `0` only for that string. -/
theorem strcmpEq_iff {s : CString} (h : HoldsString m addr s) (t : CString) :
    strcmpEq m addr t.bytes = true ↔ t = s := by
  constructor
  · intro ht
    obtain ⟨s, hs⟩ := s
    obtain ⟨t, htf⟩ := t
    ext1
    simp only [HoldsString] at h ht ⊢
    induction s generalizing t addr with
    | nil =>
      cases t with
      | nil => rfl
      | cons c t =>
        simp only [strcmpEq, beq_iff_eq, Bool.and_eq_true] at h ht
        -- `t` goes on where `s` has its terminator
        exact absurd (ht.1.symm.trans h) (htf c List.mem_cons_self)
    | cons b s ih =>
      simp only [strcmpEq, beq_iff_eq, Bool.and_eq_true] at h
      cases t with
      | nil =>
        simp only [strcmpEq, beq_iff_eq] at ht
        -- `t` ends before `s`
        exact absurd (h.1.symm.trans ht) (hs b List.mem_cons_self)
      | cons c t =>
        simp only [strcmpEq, beq_iff_eq, Bool.and_eq_true] at ht
        rw [← h.1, ← ht.1, ih (fun x hx => hs x (List.mem_cons_of_mem _ hx)) h.2 t
          (fun x hx => htf x (List.mem_cons_of_mem _ hx)) ht.2]
  · rintro rfl
    exact h

/-- A bounded comparison that reaches the terminator is the full one. -/
theorem strncmpEq_iff {s : CString} (h : HoldsString m addr s) {n : Nat} (hn : s.length < n)
    (t : CString) : strncmpEq m addr t.bytes n = true ↔ t = s := by
  rw [← strcmpEq_iff h t]
  obtain ⟨s, hs⟩ := s
  obtain ⟨t, htf⟩ := t
  simp only [HoldsString, CString.length] at h hn ⊢
  -- with a byte less to compare the rest of the string is a byte shorter
  induction s generalizing t addr n with
  | nil =>
    obtain ⟨n, rfl⟩ : ∃ k, n = k + 1 := ⟨n - 1, by simp at hn; omega⟩
    cases t with
    | nil => rfl
    | cons c t =>
      simp only [strcmpEq, beq_iff_eq] at h
      have hc : (m addr == c) = false := by
        rw [h, beq_eq_false_iff_ne]
        exact fun h0 => htf c List.mem_cons_self h0.symm
      simp [strcmpEq, strncmpEq, hc]
  | cons b s ih =>
    simp only [strcmpEq, beq_iff_eq, Bool.and_eq_true] at h
    obtain ⟨n, rfl⟩ : ∃ k, n = k + 1 := ⟨n - 1, by simp at hn; omega⟩
    cases t with
    | nil => rfl
    | cons c t =>
      simp only [strcmpEq, strncmpEq, Bool.and_eq_true]
      rw [ih (fun x hx => hs x (List.mem_cons_of_mem _ hx)) h.2 (by simpa using hn) t
        (fun x hx => htf x (List.mem_cons_of_mem _ hx))]

/-- A memory holds at most one string at an address. -/
theorem HoldsString.unique {s t : CString} (hs : HoldsString m addr s)
    (ht : HoldsString m addr t) : s = t :=
  (strcmpEq_iff ht s).mp hs

theorem strcmpEq_congr {s : List UInt8} (h : ∀ i ≤ s.length, m (addr + i) = m' (addr + i)) :
    strcmpEq m addr s = strcmpEq m' addr s := by
  induction s generalizing addr with
  | nil =>
    have h0 : m addr = m' addr := h 0 (Nat.zero_le _)
    rw [strcmpEq, strcmpEq, h0]
  | cons c s ih =>
    have h0 : m addr = m' addr := h 0 (Nat.zero_le _)
    rw [strcmpEq, strcmpEq, h0, ih]
    intro i hi
    have := h (i + 1) (by simpa using hi)
    rwa [← Nat.add_assoc, Nat.add_right_comm] at this

theorem HoldsString.congr {s : CString} (hs : HoldsString m addr s)
    (h : ∀ i ≤ s.length, m (addr + i) = m' (addr + i)) : HoldsString m' addr s := by
  rwa [HoldsString, ← strcmpEq_congr h]

/-- A stored buffer that continues with a terminator holds its string. -/
theorem holdsString_store (m : Memory) (addr : Nat) (s : CString) (rest : List UInt8) :
    HoldsString (store m addr (s.bytes ++ 0 :: rest)) addr s := by
  obtain ⟨s, hs⟩ := s
  have key : ∀ i, (h : i < s.length) →
      store m addr (s ++ 0 :: rest) (addr + i) = s[i] := by
    intro i h
    rw [store_apply (by simp; omega), List.getElem_append_left h]
  have hend : store m addr (s ++ 0 :: rest) (addr + s.length) = 0 := by
    rw [store_apply (by simp), List.getElem_append_right (le_refl _)]
    simp
  simp only [HoldsString]
  -- only what the memory holds from `addr` on matters
  generalize store m addr (s ++ 0 :: rest) = m' at key hend
  clear hs
  induction s generalizing addr with
  | nil => simpa [strcmpEq] using hend
  | cons c s ih =>
    have h0 := key 0 (by simp)
    simp only [strcmpEq, Bool.and_eq_true, beq_iff_eq]
    refine ⟨by simpa using h0, ih (addr + 1) ?_ ?_⟩
    · intro i h
      have := key (i + 1) (by simpa using h)
      rwa [← Nat.add_assoc, Nat.add_right_comm] at this
    · rwa [List.length_cons, ← Nat.add_assoc, Nat.add_right_comm] at hend

/-- A buffer of size `n` into which bytes that begin with `s` are read, and whose last byte is
then overwritten by a terminator, holds `s`, if `s` is followed by a terminator or fills it. -/
theorem ofBuffer_terminated {s : CString} {n : Nat} {bs : List UInt8} (hlt : s.length < n)
    (hpre : s.bytes <+: bs) (hend : s.length + 1 < n → bs[s.length]? = some 0) :
    CString.ofBuffer (load (store (store m 0 bs) (n - 1) [0]) 0 n) = s := by
  obtain ⟨rest, rfl⟩ := hpre
  have hhead : load (store (store m 0 (s.bytes ++ rest)) (n - 1) [0]) 0 s.length = s.bytes := by
    rw [load_store_disjoint (Or.inl (by omega)), load_store_take (by simp [CString.length])]
    exact List.take_left
  have hzero : store (store m 0 (s.bytes ++ rest)) (n - 1) [0] s.length = 0 := by
    -- the terminator is the one in the last byte, or was read
    by_cases hlast : s.length + 1 = n
    · rw [show s.length = n - 1 + 0 by omega, store_apply (by simp)]
      rfl
    · rw [store_of_lt (by omega)]
      have h := hend (by omega)
      rw [List.getElem?_eq_some_iff] at h
      obtain ⟨hi, h0⟩ := h
      rw [← h0, ← store_apply hi, Nat.zero_add]
  obtain ⟨k, rfl⟩ : ∃ k, n = s.length + (k + 1) := ⟨n - s.length - 1, by omega⟩
  rw [load_add, hhead, load_succ, Nat.zero_add, hzero]
  exact CString.ofBuffer_append_zero s _

end Bytes

end MessageBroker
