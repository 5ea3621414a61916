import MessageBroker.Clients.Listing
import MessageBroker.Lib.Buffer

/-!
# Sorting the boxes in the manager

`cmpBoxes` and `bubbleSort` of `manager.c` assignment by assignment, on the array of
indexes of `main`. An access outside of `indexes` or of `boxes` has no result. The
inner loop is a round of bubble sort behind the elements that the passes before have
put in front, and the rounds sort the names.
-/

namespace MessageBroker.Clients.Manager

open Buffer

/-- Whether the result is not `0`, on the names of `boxes`. -/
def cmpBoxes (names : List CString) (a b : Nat) : Option Bool := do
  let x ← names[a]?
  let y ← names[b]?
  some (x.strcmp y = .gt)

section Loops

variable (cmpFunc : Nat → Nat → Option Bool)

/-- The body of the inner loop of `bubbleSort`. -/
def compareAt (j : Nat) (indexes : List Nat) (done : Bool) : Option (List Nat × Bool) := do
  let before ← indexes[j - 1]?
  let aux ← indexes[j]?
  if ← cmpFunc before aux then
    let indexes ← put indexes j before
    let indexes ← put indexes (j - 1) aux
    some (indexes, false)
  else some (indexes, done)

/-- The inner loop from `j = i + turns` down to `j = i + 1`. -/
def innerLoop (i : Nat) : Nat → List Nat → Bool → Option (List Nat × Bool)
  | 0, indexes, done => some (indexes, done)
  | turns + 1, indexes, done => do
    let (indexes, done) ← compareAt cmpFunc (i + turns + 1) indexes done
    innerLoop i turns indexes done

/-- The outer loop from `i` on, with `turns` passes left up to `n_boxes - 1`; `breaks` tells
whether a pass without an exchange ends it. -/
def outerLoop (breaks : Bool) : Nat → Nat → List Nat → Option (List Nat)
  | 0, _, indexes => some indexes
  | turns + 1, i, indexes => do
    -- the inner loop starts at the last index, `turns + 1` behind `i`
    let (indexes, done) ← innerLoop cmpFunc i (turns + 1) indexes true
    if breaks && done then some indexes else outerLoop breaks turns (i + 1) indexes

def bubbleSort (nBoxes : Nat) (indexes : List Nat) : Option (List Nat) :=
  outerLoop cmpFunc true (nBoxes - 1) 0 indexes

/-- `bubbleSort` without its `if (done) break`. -/
def bubbleSortAllPasses (nBoxes : Nat) (indexes : List Nat) : Option (List Nat) :=
  outerLoop cmpFunc false (nBoxes - 1) 0 indexes

end Loops

/-- What the manager prints its boxes by: every index once, the names in order, and boxes of one
name as they stood before. -/
structure Sorts (names : List CString) (indexes sorted : List Nat) : Prop where
  perm : sorted.Perm (List.range names.length)
  nonDecreasing : sorted.Pairwise fun a b =>
    ∃ x y, names[a]? = some x ∧ names[b]? = some y ∧ (x.strcmp y).isLE
  stable : ∀ name, sorted.filter (names[·]? = some name) = indexes.filter (names[·]? = some name)

/-! ### The loops are rounds -/

section Rounds

variable {cmpFunc : Nat → Nat → Option Bool} {cmp : Nat → Nat → Ordering} {front l : List Nat}
  {a b i : Nat} {done breaks : Bool}

/-- The elements that `cmpFunc` compares as `cmp` does. -/
def Compares (cmpFunc : Nat → Nat → Option Bool) (cmp : Nat → Nat → Ordering) (l : List Nat) :
    Prop :=
  ∀ a ∈ l, ∀ b ∈ l, cmpFunc a b = some (decide (cmp a b = .gt))

theorem Compares.mono {l' : List Nat} (h : Compares cmpFunc cmp l) (hsub : l' ⊆ l) :
    Compares cmpFunc cmp l' := fun a ha b hb => h a (hsub ha) b (hsub hb)

/-- The last comparison of a pass taken off the others. -/
theorem innerLoop_succ (i turns : Nat) (indexes : List Nat) (done : Bool) :
    innerLoop cmpFunc i (turns + 1) indexes done =
      (innerLoop cmpFunc (i + 1) turns indexes done).bind fun r =>
        compareAt cmpFunc (i + 1) r.1 r.2 := by
  induction turns generalizing indexes done with
  | zero => exact Option.bind_fun_some _
  | succ turns ih =>
    have hj : i + (turns + 1) + 1 = i + 1 + turns + 1 := by omega
    rw [innerLoop, innerLoop, hj]
    simp only [Option.bind_eq_bind, Option.bind_assoc]
    congr 1
    funext r
    exact ih r.1 r.2

theorem compareAt_append (hcmp : cmpFunc a b = some (decide (cmp a b = .gt))) :
    compareAt cmpFunc (front.length + 1) (front ++ a :: b :: l) done =
      some (if cmp a b = .gt then (front ++ b :: a :: l, false)
        else (front ++ a :: b :: l, done)) := by
  have ha : (front ++ a :: b :: l)[front.length]? = some a := by simp
  have hb : (front ++ a :: b :: l)[front.length + 1]? = some b := by
    rw [List.getElem?_append_right (by omega), Nat.add_sub_cancel_left]
    rfl
  have hput : put (front ++ a :: b :: l) (front.length + 1) a = some (front ++ a :: a :: l) := by
    have hlen : (front ++ [a]).length = front.length + 1 := List.length_append
    have h := put_append hlen a b l
    rwa [List.append_assoc, List.append_assoc] at h
  rw [compareAt, Nat.add_sub_cancel, ha, hb]
  simp only [Option.bind_eq_bind, Option.bind_some, hcmp, hput, put_append rfl]
  by_cases hgt : cmp a b = .gt
  · simp [hgt]
  · simp [hgt]

/-- A pass is a round on what is behind `i`. -/
theorem innerLoop_eq (hcmp : Compares cmpFunc cmp l) (front : List Nat) (done : Bool) :
    innerLoop cmpFunc front.length (l.length - 1) (front ++ l) done =
      some (front ++ (BubbleSort.round cmp l).1, done && (BubbleSort.round cmp l).2) := by
  induction l generalizing front with
  | nil => simp [innerLoop, BubbleSort.round]
  | cons a l ih =>
    cases l with
    | nil => simp [innerLoop, BubbleSort.round]
    | cons b l =>
      have hrest := ih (hcmp.mono (List.subset_cons_self a _)) (front ++ [a])
      have hperm := BubbleSort.round_perm cmp (b :: l)
      rw [List.length_append, List.length_singleton, List.append_assoc] at hrest
      show innerLoop cmpFunc front.length (l.length + 1) ([] ++ front ++ ([a] ++ b :: l)) done = _
      rw [innerLoop_succ, List.nil_append]
      -- the comparison of `a` comes behind the round on the rest
      rw [BubbleSort.round]
      generalize BubbleSort.round cmp (b :: l) = r at hrest hperm
      obtain ⟨_ | ⟨y, ys⟩, d⟩ := r
      · cases hperm.symm.eq_nil
      · have hy : y ∈ a :: b :: l := List.mem_cons_of_mem a (hperm.subset List.mem_cons_self)
        change innerLoop cmpFunc (front.length + 1) l.length _ done = _ at hrest
        rw [hrest, Option.bind_some, List.append_assoc]
        rw [List.singleton_append, compareAt_append (hcmp a List.mem_cons_self y hy)]
        by_cases hgt : cmp a y = .gt
        · simp [hgt]
        · simp [hgt]

/-- The passes are rounds, each behind one element more. -/
theorem outerLoop_eq {turns : Nat} (hcmp : Compares cmpFunc cmp l) (hlen : l.length - 1 = turns)
    (front : List Nat) :
    outerLoop cmpFunc breaks turns front.length (front ++ l) =
      some (front ++ if breaks then BubbleSort.rounds cmp turns l
        else BubbleSort.allRounds cmp turns l) := by
  induction turns generalizing front l with
  | zero => cases breaks <;> rfl
  | succ turns ih =>
    have hpass := innerLoop_eq hcmp front true
    have hperm := BubbleSort.round_perm cmp l
    rw [hlen] at hpass
    rw [outerLoop, hpass, BubbleSort.rounds, BubbleSort.allRounds]
    generalize BubbleSort.round cmp l = r at hperm
    obtain ⟨_ | ⟨x, rest⟩, d⟩ := r
    · have hnil := hperm.length_eq
      simp only [List.length_nil] at hnil
      omega
    · have hcons := hperm.length_eq
      simp only [List.length_cons] at hcons
      have hsub : rest ⊆ l := fun y hy => hperm.subset (List.mem_cons_of_mem x hy)
      have hrest := ih (hcmp.mono hsub) (by omega) (front ++ [x])
      rw [List.length_append, List.length_singleton, List.append_assoc] at hrest
      cases breaks with
      | true =>
        cases d with
        | true => rfl
        | false => simpa using hrest
      | false => simpa using hrest

end Rounds

/-! ### Sorting by the names -/

variable {names : List CString} {indexes : List Nat}

/-- The order of two boxes by their names. -/
def nameOrder (names : List CString) (a b : Nat) : Ordering :=
  (names.getD a .empty).strcmp (names.getD b .empty)

instance (names : List CString) : Std.TransCmp (nameOrder names) where
  eq_swap {a b} := @Std.OrientedCmp.eq_swap _ CString.strcmp _ (names.getD a .empty)
    (names.getD b .empty)
  isLE_trans {a b c} := @Std.TransCmp.isLE_trans _ CString.strcmp _ (names.getD a .empty)
    (names.getD b .empty) (names.getD c .empty)

theorem compares_cmpBoxes {l : List Nat} (h : ∀ a ∈ l, a < names.length) :
    Compares (cmpBoxes names) (nameOrder names) l := by
  intro a ha b hb
  rw [cmpBoxes, nameOrder, List.getElem?_eq_getElem (h a ha), List.getElem?_eq_getElem (h b hb),
    List.getD_eq_getElem _ _ (h a ha), List.getD_eq_getElem _ _ (h b hb)]
  rfl

/-- `bubbleSort` on the indexes of the boxes, with and without its early end. -/
theorem bubbleSort_eq (h : indexes.Perm (List.range names.length)) :
    bubbleSort (cmpBoxes names) names.length indexes =
        some (BubbleSort.rounds (nameOrder names) (names.length - 1) indexes) ∧
      bubbleSortAllPasses (cmpBoxes names) names.length indexes =
        some (BubbleSort.rounds (nameOrder names) (names.length - 1) indexes) := by
  have hlen : indexes.length = names.length := h.length_eq.trans List.length_range
  have hcmp : Compares (cmpBoxes names) (nameOrder names) indexes :=
    compares_cmpBoxes fun a ha => List.mem_range.mp (h.subset ha)
  constructor
  · exact outerLoop_eq hcmp (by rw [hlen]) []
  · rw [← BubbleSort.allRounds_eq]
    exact outerLoop_eq hcmp (by rw [hlen]) []

/-- The rounds sort the names. -/
theorem sorts_rounds (h : indexes.Perm (List.range names.length)) :
    Sorts names indexes (BubbleSort.rounds (nameOrder names) (names.length - 1) indexes) where
  perm := (BubbleSort.rounds_perm _ _ _).trans h
  nonDecreasing := by
    have hperm := (BubbleSort.rounds_perm (nameOrder names) (names.length - 1) indexes).trans h
    have hlen : indexes.length = names.length := h.length_eq.trans List.length_range
    have hsorted : (BubbleSort.rounds (nameOrder names) (names.length - 1) indexes).Pairwise
        fun a b => (nameOrder names a b).isLE :=
      BubbleSort.rounds_sorted _ _ (by omega)
    apply hsorted.imp_of_mem
    intro a b ha hb hle
    have ha := List.mem_range.mp (hperm.subset ha)
    have hb := List.mem_range.mp (hperm.subset hb)
    rw [nameOrder, List.getD_eq_getElem _ _ ha, List.getD_eq_getElem _ _ hb] at hle
    exact ⟨names[a], names[b], List.getElem?_eq_getElem ha, List.getElem?_eq_getElem hb, hle⟩
  stable name := by
    apply BubbleSort.rounds_filter
    intro a b ha hb
    have ha : names[a]? = some name := of_decide_eq_true ha
    have hb : names[b]? = some name := of_decide_eq_true hb
    have hself : name.strcmp name = .eq := Std.ReflCmp.compare_self
    rw [nameOrder, List.getD_eq_getElem?_getD, List.getD_eq_getElem?_getD, ha, hb,
      Option.getD_some, hself]
    exact nofun

/-- `bubbleSort` with `cmpBoxes` sorts any order of the indexes of any boxes, and running all
its passes gives the same array. -/
theorem bubbleSort_sorts (names : List CString) {indexes : List Nat}
    (h : indexes.Perm (List.range names.length)) :
    ∃ sorted, bubbleSort (cmpBoxes names) names.length indexes = some sorted ∧
      Sorts names indexes sorted ∧
      bubbleSortAllPasses (cmpBoxes names) names.length indexes = some sorted := by
  obtain ⟨hearly, hall⟩ := bubbleSort_eq h
  exact ⟨_, hearly, sorts_rounds h, hall⟩

/-- Two boxes of one name behind the box whose name comes first. -/
def threeBoxes : List CString :=
  [.ofBuffer ['b'.toUInt8], .ofBuffer ['a'.toUInt8], .ofBuffer ['b'.toUInt8]]

theorem threeBoxes_sorts :
    bubbleSort (cmpBoxes threeBoxes) 3 [2, 0, 1] = some [1, 2, 0] ∧
      ∃ sorted, bubbleSort (cmpBoxes threeBoxes) 3 [2, 0, 1] = some sorted ∧
        Sorts threeBoxes [2, 0, 1] sorted ∧
        bubbleSortAllPasses (cmpBoxes threeBoxes) 3 [2, 0, 1] = some sorted :=
  ⟨by decide, bubbleSort_sorts threeBoxes (by decide)⟩

/-- The loops of `bubbleSort` give the order in which the rows of a listing are printed. -/
theorem State.print_eq_loops (s : State) :
    ∃ sorted, Manager.bubbleSort
        (Manager.cmpBoxes ((List.range s.nBoxes).map fun i => (s.boxes i).name))
        s.nBoxes (List.range s.nBoxes) = some sorted ∧ s.print = sorted.map s.boxes := by
  have hcmp : Compares (Manager.cmpBoxes ((List.range s.nBoxes).map fun i => (s.boxes i).name))
      s.cmpBoxes (List.range s.nBoxes) := by
    have hname : ∀ a ∈ List.range s.nBoxes,
        ((List.range s.nBoxes).map fun i => (s.boxes i).name)[a]? = some (s.boxes a).name := by
      intro a ha
      simp [List.mem_range.mp ha]
    intro a ha b hb
    rw [Manager.cmpBoxes, hname a ha, hname b hb]
    rfl
  exact ⟨_, outerLoop_eq hcmp (by rw [List.length_range]) [], rfl⟩

end MessageBroker.Clients.Manager
