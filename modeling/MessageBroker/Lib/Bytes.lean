import Mathlib.Data.List.Basic
import Mathlib.Data.List.GetD
import Mathlib.Logic.Function.Basic
import Mathlib.Tactic.Ring

/-!
# Byte-addressed memory

A memory is a total map from addresses to bytes; what lies outside the objects a
program owns is simply unconstrained. `load` and `store` move blocks of bytes,
`splice` is what a store does to the list of bytes that a region holds, and
`int32Bytes` is the little-endian two's complement layout of a C `int`.
-/

namespace MessageBroker.Bytes

abbrev Memory := Nat → UInt8

/-- The `n` bytes starting at `addr`. -/
def load (m : Memory) (addr n : Nat) : List UInt8 :=
  (List.range n).map fun i => m (addr + i)

/-- Overwrite the bytes starting at `addr` with `bs`. -/
def store (m : Memory) (addr : Nat) (bs : List UInt8) : Memory := fun a =>
  if addr ≤ a ∧ a < addr + bs.length then bs.getD (a - addr) 0 else m a

/-- Overwrite the bytes of a list from offset `off` on, extending it if needed. -/
def splice (old : List UInt8) (off : Nat) (bs : List UInt8) : List UInt8 :=
  old.take off ++ bs ++ old.drop (off + bs.length)

variable {m : Memory} {addr base n off : Nat} {bs : List UInt8}

@[simp] theorem length_load (m : Memory) (addr n : Nat) : (load m addr n).length = n := by
  simp [load]

@[simp] theorem getElem_load {i : Nat} (h : i < (load m addr n).length) :
    (load m addr n)[i] = m (addr + i) := by
  simp [load]

theorem load_succ (m : Memory) (addr n : Nat) :
    load m addr (n + 1) = m addr :: load m (addr + 1) n := by
  simp only [load, List.range_succ_eq_map, List.map_cons, List.map_map, Nat.add_zero]
  congr 1
  apply List.map_congr_left
  intro i _
  exact congrArg m (by simp only [Nat.succ_eq_add_one]; omega)

theorem load_add (m : Memory) (addr k n : Nat) :
    load m addr (k + n) = load m addr k ++ load m (addr + k) n := by
  induction k generalizing addr with
  | zero => simp [load]
  | succ k ih =>
    rw [Nat.succ_add, load_succ, load_succ, ih, List.cons_append, Nat.add_assoc, Nat.add_comm 1 k]

@[simp] theorem load_zero (m : Memory) (addr : Nat) : load m addr 0 = [] := rfl

theorem store_of_lt {a : Nat} (h : a < addr) : store m addr bs a = m a := by
  rw [store, if_neg (by omega)]

theorem store_of_ge {a : Nat} (h : addr + bs.length ≤ a) : store m addr bs a = m a := by
  rw [store, if_neg (by omega)]

theorem store_apply {i : Nat} (h : i < bs.length) : store m addr bs (addr + i) = bs[i] := by
  rw [store, if_pos (by omega), Nat.add_sub_cancel_left, List.getD_eq_getElem _ _ h]

/-- A block agrees in two memories that agree on its addresses. -/
theorem load_congr {m' : Memory} (h : ∀ i < n, m (addr + i) = m' (addr + i)) :
    load m addr n = load m' addr n := by
  apply List.ext_getElem (by simp)
  intro i hi _
  simpa using h i (by simpa using hi)

theorem load_store_self (m : Memory) (addr : Nat) (bs : List UInt8) :
    load (store m addr bs) addr bs.length = bs := by
  apply List.ext_getElem (by simp)
  intro i _ hi
  rw [getElem_load, store_apply hi]

theorem load_store_disjoint (h : base + n ≤ addr ∨ addr + bs.length ≤ base) :
    load (store m addr bs) base n = load m base n := by
  apply load_congr
  intro i hi
  rcases h with h | h
  · exact store_of_lt (by omega)
  · exact store_of_ge (by omega)

/-- The first bytes of a stored list. -/
theorem load_store_take {k : Nat} (hk : k ≤ bs.length) :
    load (store m addr bs) addr k = bs.take k := by
  apply List.ext_getElem (by simp [hk])
  intro i hi _
  rw [getElem_load, List.getElem_take]
  exact store_apply (by simp at hi; omega)

/-- Reading a part of a block. -/
theorem take_drop_load {off k : Nat} (h : off + k ≤ n) :
    ((load m addr n).drop off).take k = load m (addr + off) k := by
  apply List.ext_getElem
  · simp
    omega
  · intro i hi _
    simp [Nat.add_assoc]

@[simp] theorem length_splice (old : List UInt8) (off : Nat) (bs : List UInt8)
    (h : off ≤ old.length) :
    (splice old off bs).length = max old.length (off + bs.length) := by
  simp only [splice, List.length_append, List.length_take, List.length_drop]
  omega

/-- Storing inside a block, or extending it, splices the bytes that it holds. -/
theorem load_store_splice (h : off ≤ n) :
    load (store m (base + off) bs) base (max n (off + bs.length)) =
      splice (load m base n) off bs := by
  apply List.ext_getElem
  · rw [length_load, length_splice _ _ _ (by simpa using h), length_load]
  · intro i hi hi'
    rw [getElem_load]
    simp only [splice, List.append_assoc]
    by_cases h1 : i < off
    · rw [List.getElem_append_left (by simpa using ⟨h1, by omega⟩), List.getElem_take,
        getElem_load, store_of_lt (by omega)]
    · have ht : ((load m base n).take off).length = off := by simpa using h
      rw [List.getElem_append_right (by omega)]
      by_cases h2 : i < off + bs.length
      · have hk : base + i = base + off + (i - off) := by omega
        rw [List.getElem_append_left (by omega), hk, store_apply (by omega)]
        simp only [ht]
      · rw [List.getElem_append_right (by omega), List.getElem_drop, getElem_load,
          store_of_ge (by omega)]
        congr 1
        omega

/-- Splicing at the end of a list appends. -/
theorem splice_length (old bs : List UInt8) : splice old old.length bs = old ++ bs := by
  simp [splice]

/-! ### Little-endian integers -/

/-- The `w` low bytes of `n`, least significant first. -/
def toLE : Nat → Nat → List UInt8
  | 0, _ => []
  | w + 1, n => UInt8.ofNat n :: toLE w (n / 256)

/-- The number that a little-endian byte string denotes. -/
def ofLE : List UInt8 → Nat
  | [] => 0
  | b :: bs => b.toNat + 256 * ofLE bs

@[simp] theorem length_toLE (w n : Nat) : (toLE w n).length = w := by
  induction w generalizing n with
  | zero => rfl
  | succ w ih => simp [toLE, ih]

theorem ofLE_toLE (w n : Nat) : ofLE (toLE w n) = n % 256 ^ w := by
  induction w generalizing n with
  | zero => simp [toLE, ofLE, Nat.mod_one]
  | succ w ih =>
    have hb : (UInt8.ofNat n).toNat = n % 256 := by simp
    rw [toLE, ofLE, ih, hb, Nat.pow_succ', Nat.mod_mul]

/-- The four bytes of a C `int`. -/
def int32Bytes (i : Int) : List UInt8 := toLE 4 (i % 2 ^ 32).toNat

/-- The C `int` that four bytes hold. -/
def int32OfBytes (bs : List UInt8) : Int := (ofLE bs : Int).bmod (2 ^ 32)

@[simp] theorem length_int32Bytes (i : Int) : (int32Bytes i).length = 4 := length_toLE 4 _

theorem ofLE_int32Bytes (i : Int) : ofLE (int32Bytes i) = (i % 2 ^ 32).toNat := by
  have hlt : (i % 2 ^ 32).toNat < 256 ^ 4 := by omega
  exact (ofLE_toLE 4 _).trans (Nat.mod_eq_of_lt hlt)

/-- An `int` survives being stored and loaded. -/
theorem int32OfBytes_int32Bytes {i : Int} (h : -2 ^ 31 ≤ i) (h' : i < 2 ^ 31) :
    int32OfBytes (int32Bytes i) = i := by
  unfold int32OfBytes
  rw [ofLE_int32Bytes, Int.bmod_def]
  push_cast
  split <;> omega

/-- The `int` stored at `addr`. -/
def loadInt (m : Memory) (addr : Nat) : Int := int32OfBytes (load m addr 4)

/-- Store an `int` at `addr`. -/
def storeInt (m : Memory) (addr : Nat) (i : Int) : Memory := store m addr (int32Bytes i)

theorem loadInt_storeInt {i : Int} (m : Memory) (addr : Nat) (h : -2 ^ 31 ≤ i)
    (h' : i < 2 ^ 31) : loadInt (storeInt m addr i) addr = i := by
  have hl : load (store m addr (int32Bytes i)) addr 4 = int32Bytes i := by
    simpa using load_store_self m addr (int32Bytes i)
  rw [loadInt, storeInt, hl, int32OfBytes_int32Bytes h h']

theorem loadInt_congr {m' : Memory} (h : ∀ i < 4, m (addr + i) = m' (addr + i)) :
    loadInt m addr = loadInt m' addr := by
  rw [loadInt, loadInt, load_congr h]

end MessageBroker.Bytes
