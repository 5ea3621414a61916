import MessageBroker.Clients.Register
import MessageBroker.Lib.BubbleSort

/-!
# Listing boxes in the manager

The read loop of `manager.c` for a list request. A record is read by eleven reads
and stored as a row of `boxes`, which grows by `realloc` when the number of rows
comes to a multiple of five. A record whose last read finds the end of the file ends
the listing, and the rows are printed in the order of their names.
-/

namespace MessageBroker.Clients.Manager

open Bytes

/-- The sizes of the reads for one record. -/
def recordReads : List Nat := [1, 1, 1, 1, boxNameSize, 1, 8, 1, 8, 1, 8]

/-- What the reads of a record fill, by the number of the read; the separators are all read into
`aux`, which nothing looks at. -/
abbrev Vars := Nat → Memory

namespace Vars

def read (v : Vars) (k : Nat) (bytes : List UInt8) : Vars :=
  Function.update v k (store (v k) 0 bytes)

def last (v : Vars) : UInt8 := v 2 0

def name (v : Vars) : CString := .ofBuffer (load (v 4) 0 boxNameSize)

/-- The `uint64_t` that the `k`-th read has filled. -/
def number (v : Vars) (k : Nat) : UInt64 := .ofNat (ofLE (load (v k) 0 8))

end Vars

/-- `box_t` of the manager. -/
structure Row where
  name : CString
  size : UInt64
  nPublishers : UInt64
  nSubscribers : UInt64

def Vars.row (v : Vars) : Row := ⟨v.name, v.number 6, v.number 8, v.number 10⟩

/-- The rows and their number, with the number of rows that `boxes` has been allocated for. -/
structure State where
  nBoxes : Nat
  allocated : Nat
  boxIndex : Nat
  boxes : Nat → Row

def State.initial (boxes : Nat → Row) : State :=
  { nBoxes := 0, allocated := 5, boxIndex := 0, boxes := boxes }

/-- What is printed. -/
inductive Listing
  | noBoxesFound
  | printed (rows : List Row)

/-- A row is written behind the end of `boxes`. -/
inductive Overrun
  | overrun

/-- The end of a turn of the read loop. -/
inductive Turn
  | left (out : Listing)
  | again (s : State)

namespace State

def cmpBoxes (s : State) (a b : Nat) : Ordering := (s.boxes a).name.strcmp (s.boxes b).name

def bubbleSort (s : State) (indexes : List Nat) : List Nat :=
  BubbleSort.rounds s.cmpBoxes (s.nBoxes - 1) indexes

def print (s : State) : List Row := (s.bubbleSort (List.range s.nBoxes)).map s.boxes

/-- What is done with the record behind its reads; `bytesRead` is the result of the last one. -/
def endRecord (s : State) (v : Vars) (bytesRead : Nat) : Except Overrun Turn :=
  if 0 < bytesRead then
    if v.last = '1'.toUInt8 ∧ v 4 0 = 0 then .ok (.left .noBoxesFound)
    else
      let nBoxes := s.nBoxes + 1
      let allocated := if nBoxes % 5 = 0 then nBoxes + 5 else s.allocated
      if s.boxIndex < allocated then
        .ok (.again
          { nBoxes := nBoxes, allocated := allocated, boxIndex := s.boxIndex + 1
            boxes := Function.update s.boxes s.boxIndex v.row })
      else .error .overrun
  else .ok (.left (.printed s.print))

end State

/-- Reads number `k`, `k + 1`, … of the given sizes, with the result of the last one and the bytes
that are left. -/
def readVars : List Nat → Nat → Vars → Nat → List UInt8 → Vars × Nat × List UInt8
  | [], _, v, bytesRead, fifo => (v, bytesRead, fifo)
  | n :: reads, k, v, _, fifo =>
    readVars reads (k + 1) (v.read k (fifo.take n)) (fifo.take n).length (fifo.drop n)

theorem State.bytesRead_pos {s s' : State} {v : Vars} {bytesRead : Nat}
    (h : s.endRecord v bytesRead = .ok (.again s')) : 0 < bytesRead := by
  by_contra hzero
  rw [State.endRecord, if_neg hzero] at h
  cases h

theorem length_readVars (reads : List Nat) (k : Nat) (v : Vars) (bytesRead : Nat)
    (fifo : List UInt8) (h : 0 < (readVars reads k v bytesRead fifo).2.1) (hne : reads ≠ []) :
    (readVars reads k v bytesRead fifo).2.2.length < fifo.length := by
  induction reads generalizing k v bytesRead fifo with
  | nil => exact absurd rfl hne
  | cons n reads ih =>
    rw [readVars] at h ⊢
    have hdrop : (fifo.drop n).length ≤ fifo.length := by simp
    cases reads with
    | nil =>
      simp only [readVars, List.length_take, List.length_drop] at h ⊢
      omega
    | cons m reads => exact lt_of_lt_of_le (ih _ _ _ _ h (List.cons_ne_nil _ _)) hdrop

/-- The read loop on a pipe that holds the bytes `fifo` and has no writer any more; `frames` are
the variables at the start of each turn, which are not initialised. -/
def listLoop (frames : Nat → Vars) (turn : Nat) (s : State) (fifo : List UInt8) :
    Except Overrun Listing :=
  let r := readVars recordReads 0 (frames turn) 0 fifo
  match h : s.endRecord r.1 r.2.1 with
  | .error e => .error e
  | .ok (.left out) => .ok out
  | .ok (.again s') => listLoop frames (turn + 1) s' r.2.2
termination_by fifo.length
decreasing_by
  exact length_readVars recordReads 0 (frames turn) 0 fifo (State.bytesRead_pos h)
    (List.cons_ne_nil _ _)

/-! ### Turns of the loop -/

variable {frames : Nat → Vars} {turn : Nat} {s s' : State} {fifo rest : List UInt8} {v : Vars}
  {bytesRead : Nat} {rows : List Row}

/-- One turn of the loop. -/
theorem listLoop_turn
    (hv : readVars recordReads 0 (frames turn) 0 fifo = (v, bytesRead, rest)) :
    listLoop frames turn s fifo = match s.endRecord v bytesRead with
      | .error e => .error e
      | .ok (.left out) => .ok out
      | .ok (.again s') => listLoop frames (turn + 1) s' rest := by
  obtain ⟨rfl, rfl, rfl⟩ : (readVars recordReads 0 (frames turn) 0 fifo).1 = v ∧
      (readVars recordReads 0 (frames turn) 0 fifo).2.1 = bytesRead ∧
      (readVars recordReads 0 (frames turn) 0 fifo).2.2 = rest := by
    rw [hv]
    exact ⟨rfl, rfl, rfl⟩
  conv_lhs => unfold listLoop
  dsimp only
  split
  · next h => rw [h]
  · next h => rw [h]
  · next h => rw [h]

/-- The variables when reads number `k`, `k + 1`, … have returned the chunks. -/
def Vars.fill (v : Vars) : Nat → List (List UInt8) → Vars
  | _, [] => v
  | k, c :: chunks => (v.read k c).fill (k + 1) chunks

/-- Reads that find as many bytes as they ask for. -/
theorem readVars_chunks (chunks : List (List UInt8)) (k : Nat) (v : Vars) (bytesRead : Nat)
    (rest : List UInt8) :
    readVars (chunks.map List.length) k v bytesRead (chunks.flatten ++ rest) =
      (v.fill k chunks, (chunks.map List.length).getLastD bytesRead, rest) := by
  induction chunks generalizing k v bytesRead with
  | nil => rfl
  | cons c chunks ih =>
    rw [List.map_cons, readVars, List.flatten_cons, List.append_assoc, List.take_left,
      List.drop_left, ih, List.getLastD_cons, Vars.fill]

theorem Vars.fill_of_lt {j k : Nat} (h : j < k) (v : Vars) (chunks : List (List UInt8)) :
    v.fill k chunks j = v j := by
  induction chunks generalizing k v with
  | nil => rfl
  | cons c chunks ih =>
    rw [Vars.fill, ih (Nat.lt_succ_of_lt h), Vars.read, Function.update_of_ne h.ne]

/-- Every read has filled its own variable. -/
theorem Vars.fill_apply (v : Vars) (k : Nat) (chunks : List (List UInt8)) {i : Nat}
    (h : i < chunks.length) : v.fill k chunks (k + i) = store (v (k + i)) 0 chunks[i] := by
  induction chunks generalizing k v i with
  | nil => cases h
  | cons c chunks ih =>
    rw [Vars.fill]
    cases i with
    | zero =>
      show (v.read k c).fill (k + 1) chunks k = store (v k) 0 c
      rw [Vars.fill_of_lt k.lt_succ_self, Vars.read, Function.update_self]
    | succ i =>
      have hne : k + 1 + i ≠ k := by omega
      rw [show k + (i + 1) = k + 1 + i by omega, ih _ _ (Nat.lt_of_succ_lt_succ h), Vars.read,
        Function.update_of_ne hne, List.getElem_cons_succ]

/-- Reads at the end of the file. -/
theorem readVars_nil (reads : List Nat) (k : Nat) (v : Vars) :
    (readVars reads k v 0 []).2 = (0, []) := by
  induction reads generalizing k v with
  | nil => rfl
  | cons n reads ih =>
    rw [readVars, List.take_nil, List.drop_nil]
    exact ih _ _

/-- The name is empty when its first byte is the terminator. -/
theorem Vars.name_eq_empty (v : Vars) : v.name = .empty ↔ v 4 0 = 0 := by
  have hload : load (v 4) 0 boxNameSize = v 4 0 :: load (v 4) 1 31 := load_succ _ _ _
  have hbytes : v.name.bytes = (v 4 0 :: load (v 4) 1 31).takeWhile (· ≠ 0) := by
    rw [← hload]
    rfl
  constructor
  · intro h
    by_contra hne
    rw [h, List.takeWhile_cons_of_pos (by simpa using hne)] at hbytes
    cases hbytes
  · intro h
    ext1
    rw [hbytes, h]
    rfl

/-- The end of the file ends the listing. -/
theorem listLoop_nil : listLoop frames turn s [] = .ok (.printed s.print) := by
  have hread := readVars_nil recordReads 0 (frames turn)
  rw [listLoop_turn (Prod.ext rfl hread)]
  rfl

/-- The rows read so far, and that `boxes` has room for another one. -/
structure State.Holds (s : State) (rows : List Row) : Prop where
  nBoxes : s.nBoxes = rows.length
  boxIndex : s.boxIndex = rows.length
  allocated : s.allocated = 5 * (rows.length / 5) + 5
  boxes : (List.range rows.length).map s.boxes = rows

theorem State.holds_initial (boxes : Nat → Row) : (State.initial boxes).Holds [] :=
  ⟨rfl, rfl, rfl, rfl⟩

/-- A record with a box becomes the next row, which is inside `boxes`. -/
theorem State.Holds.endRecord (h : s.Holds rows) (hpos : 0 < bytesRead) (hname : v 4 0 ≠ 0) :
    ∃ s', s.endRecord v bytesRead = .ok (.again s') ∧ s'.Holds (rows ++ [v.row]) := by
  have hnew : (if (s.nBoxes + 1) % 5 = 0 then s.nBoxes + 1 + 5 else s.allocated) =
      5 * ((rows.length + 1) / 5) + 5 := by
    rw [h.nBoxes, h.allocated]
    split <;> omega
  have hlt : s.boxIndex < 5 * ((rows.length + 1) / 5) + 5 := by
    rw [h.boxIndex]
    omega
  have hturn : s.endRecord v bytesRead = .ok (.again
      { nBoxes := s.nBoxes + 1, allocated := 5 * ((rows.length + 1) / 5) + 5
        boxIndex := s.boxIndex + 1, boxes := Function.update s.boxes s.boxIndex v.row }) := by
    simp only [State.endRecord, if_pos hpos, hname, and_false, if_false, hnew, if_pos hlt]
  refine ⟨_, hturn, ?_, ?_, ?_, ?_⟩
  · rw [h.nBoxes, List.length_append]
    rfl
  · rw [h.boxIndex, List.length_append]
    rfl
  · rw [List.length_append]
    rfl
  · show (List.range _).map (Function.update s.boxes s.boxIndex v.row) = _
    have hold : (List.range rows.length).map (Function.update s.boxes s.boxIndex v.row) = rows := by
      conv_rhs => rw [← h.boxes]
      apply List.map_congr_left
      intro i hi
      rw [h.boxIndex, Function.update_of_ne (List.mem_range.mp hi).ne]
    rw [List.length_append, List.length_singleton, List.range_succ, List.map_append, hold,
      List.map_singleton, h.boxIndex, Function.update_self]

/-! ### Printing -/

instance (s : State) : Std.TransCmp s.cmpBoxes where
  eq_swap {a b} := @Std.OrientedCmp.eq_swap _ CString.strcmp _ (s.boxes a).name (s.boxes b).name
  isLE_trans {a b c} := @Std.TransCmp.isLE_trans _ CString.strcmp _ (s.boxes a).name
    (s.boxes b).name (s.boxes c).name

/-- Every row is printed once. -/
theorem State.Holds.print_perm (h : s.Holds rows) : s.print.Perm rows := by
  have hperm := (BubbleSort.rounds_perm s.cmpBoxes (s.nBoxes - 1) (List.range s.nBoxes)).map s.boxes
  rw [h.nBoxes, h.boxes] at hperm
  rw [State.print, State.bubbleSort, h.nBoxes]
  exact hperm

/-- Rows with different names are printed in the strict order of their names. -/
theorem State.Holds.print_sorted (h : s.Holds rows) (hdistinct : (rows.map Row.name).Nodup) :
    s.print.Pairwise fun a b => a.name.strcmp b.name = .lt := by
  have hsorted : s.print.Pairwise fun a b => (a.name.strcmp b.name).isLE := by
    have hrounds : (s.bubbleSort (List.range s.nBoxes)).Pairwise fun a b =>
        (s.cmpBoxes a b).isLE :=
      BubbleSort.rounds_sorted _ _ (by rw [List.length_range]; omega)
    rw [State.print, List.pairwise_map]
    exact hrounds
  have hne : s.print.Pairwise fun a b => a.name ≠ b.name := by
    rw [← List.pairwise_map (f := Row.name) (R := (· ≠ ·))]
    exact (h.print_perm.map Row.name).nodup_iff.mpr hdistinct
  apply (hsorted.and hne).imp
  intro a b ⟨hle, hab⟩
  cases hcmp : a.name.strcmp b.name with
  | lt => rfl
  | eq => exact absurd (CString.eq_of_strcmp hcmp) hab
  | gt =>
    rw [hcmp] at hle
    cases hle

end MessageBroker.Clients.Manager
