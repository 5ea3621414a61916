import Mathlib.Data.List.Perm.Basic

/-!
# Bubble sort

The sort that moves the least element of what is left to the front in each round,
by comparing neighbours from the back, and stops after a round without an exchange.
A round is a recursion over the part of the array that is left.
-/

namespace MessageBroker.BubbleSort

variable {α : Type*} (cmp : α → α → Ordering)

/-- One round, from the last pair to the first; the result tells whether nothing was exchanged. -/
def round : List α → List α × Bool
  | [] => ([], true)
  | x :: xs =>
    match round xs with
    | ([], done) => ([x], done)
    | (y :: ys, done) => if cmp x y = .gt then (y :: x :: ys, false) else (x :: y :: ys, done)

/-- At most `n` rounds, each behind the elements that the ones before have put in front. -/
def rounds : Nat → List α → List α
  | 0, l => l
  | n + 1, l =>
    match round cmp l with
    | (l', true) => l'
    | ([], false) => []
    | (x :: rest, false) => x :: rounds n rest

/-- All `n` rounds, whether they exchange anything or not. -/
def allRounds : Nat → List α → List α
  | 0, l => l
  | n + 1, l =>
    match (round cmp l).1 with
    | [] => []
    | x :: rest => x :: allRounds n rest

theorem round_perm (l : List α) : (round cmp l).1.Perm l := by
  induction l with
  | nil => exact List.Perm.refl _
  | cons x xs ih =>
    rw [round]
    generalize round cmp xs = r at ih
    obtain ⟨_ | ⟨y, ys⟩, done⟩ := r
    · exact ih.cons x
    · show (if _ then _ else _ : List α × Bool).1.Perm _
      split
      · exact (List.Perm.swap x y ys).trans (ih.cons x)
      · exact ih.cons x

theorem rounds_perm (n : Nat) (l : List α) : (rounds cmp n l).Perm l := by
  induction n generalizing l with
  | zero => exact List.Perm.refl _
  | succ n ih =>
    have hround := round_perm cmp l
    rw [rounds]
    generalize round cmp l = r at hround
    obtain ⟨_ | ⟨x, rest⟩, _ | _⟩ := r
    · exact hround
    · exact hround
    · exact ((ih rest).cons x).trans hround
    · exact hround

/-! ### Stability -/

/-- Neighbours that are not both kept change places behind the filter. -/
theorem filter_swap {p : α → Bool} {x y : α} (h : ¬ (p x = true ∧ p y = true)) (l : List α) :
    (y :: x :: l).filter p = (x :: y :: l).filter p := by
  by_cases hx : p x = true
  · have hy : ¬ p y = true := fun hy => h ⟨hx, hy⟩
    rw [List.filter_cons_of_neg hy, List.filter_cons_of_pos hx, List.filter_cons_of_pos hx,
      List.filter_cons_of_neg hy]
  · simp only [List.filter_cons, hx, Bool.false_eq_true, if_false]

variable {cmp}

/-- Elements of which none is greater than another one are not exchanged with each other. -/
theorem round_filter {p : α → Bool}
    (hp : ∀ a b, p a = true → p b = true → cmp a b ≠ .gt) (l : List α) :
    (round cmp l).1.filter p = l.filter p := by
  induction l with
  | nil => rfl
  | cons x xs ih =>
    rw [round]
    generalize round cmp xs = r at ih
    obtain ⟨_ | ⟨y, ys⟩, done⟩ := r
    · show [x].filter p = _
      rw [List.filter_cons, List.filter_cons, ← ih]
    · have htail : ([x] ++ y :: ys).filter p = ([x] ++ xs).filter p := by
        rw [List.filter_append, List.filter_append, ← ih]
      change (x :: y :: ys).filter p = (x :: xs).filter p at htail
      show (if _ then _ else _ : List α × Bool).1.filter p = _
      rw [← htail]
      split
      · next hgt => exact filter_swap (fun ⟨hx, hy⟩ => hp x y hx hy hgt) ys
      · rfl

theorem rounds_filter {p : α → Bool}
    (hp : ∀ a b, p a = true → p b = true → cmp a b ≠ .gt) (n : Nat) (l : List α) :
    (rounds cmp n l).filter p = l.filter p := by
  induction n generalizing l with
  | zero => rfl
  | succ n ih =>
    have hround := round_filter hp l
    rw [rounds]
    generalize round cmp l = r at hround
    obtain ⟨_ | ⟨x, rest⟩, _ | _⟩ := r
    · exact hround
    · exact hround
    · rw [← hround]
      show (x :: rounds cmp n rest).filter p = (x :: rest).filter p
      rw [List.filter_cons, List.filter_cons, ih]
    · exact hround

/-! ### Order -/

/-- A sorted list goes through a round without an exchange. -/
theorem round_of_sorted {l : List α} (h : l.Pairwise fun a b => (cmp a b).isLE) :
    round cmp l = (l, true) := by
  induction l with
  | nil => rfl
  | cons x xs ih =>
    obtain ⟨hx, hxs⟩ := List.pairwise_cons.mp h
    rw [round, ih hxs]
    cases xs with
    | nil => rfl
    | cons y ys => exact if_neg (Ordering.isLE_iff_ne_gt.mp (hx y List.mem_cons_self))

theorem allRounds_of_sorted (n : Nat) {l : List α}
    (h : l.Pairwise fun a b => (cmp a b).isLE) : allRounds cmp n l = l := by
  induction n generalizing l with
  | zero => rfl
  | succ n ih =>
    rw [allRounds, round_of_sorted h]
    cases l with
    | nil => rfl
    | cons x rest => exact congrArg (x :: ·) (ih (List.pairwise_cons.mp h).2)

variable [Std.TransCmp cmp] {l : List α} {x : α} {rest : List α}

/-- A round puts a least element in front. -/
theorem round_head (h : (round cmp l).1 = x :: rest) : ∀ y ∈ rest, (cmp x y).isLE := by
  induction l generalizing x rest with
  | nil => cases h
  | cons a as ih =>
    rw [round] at h
    generalize hr : round cmp as = r at ih h
    obtain ⟨_ | ⟨b, bs⟩, done⟩ := r
    · cases h
      nofun
    · have hb := ih rfl
      by_cases hgt : cmp a b = .gt
      · simp only [if_pos hgt, List.cons.injEq] at h
        obtain ⟨rfl, rfl⟩ := h
        -- `b` comes to the front and `a` behind it
        intro y hy
        rcases List.mem_cons.mp hy with rfl | hy
        · have hswap : cmp b y = (cmp y b).swap := Std.OrientedCmp.eq_swap
          rw [hswap, hgt]
          rfl
        · exact hb y hy
      · simp only [if_neg hgt, List.cons.injEq] at h
        obtain ⟨rfl, rfl⟩ := h
        have hle : (cmp a b).isLE := Ordering.isLE_iff_ne_gt.mpr hgt
        intro y hy
        rcases List.mem_cons.mp hy with rfl | hy
        · exact hle
        · exact Std.TransCmp.isLE_trans hle (hb y hy)

/-- A round without an exchange has found the list sorted. -/
theorem round_done (h : (round cmp l).2 = true) :
    (round cmp l).1 = l ∧ l.Pairwise fun a b => (cmp a b).isLE := by
  induction l with
  | nil => exact ⟨rfl, List.Pairwise.nil⟩
  | cons a as ih =>
    rw [round] at h ⊢
    generalize hr : round cmp as = r at ih h
    obtain ⟨_ | ⟨b, bs⟩, done⟩ := r
    · obtain ⟨heq, _⟩ := ih h
      rw [← heq]
      exact ⟨rfl, List.pairwise_singleton _ a⟩
    · by_cases hgt : cmp a b = .gt
      · -- an exchange is recorded
        simp only [if_pos hgt] at h
        cases h
      · simp only [if_neg hgt] at h ⊢
        obtain ⟨heq, hsorted⟩ := ih h
        change b :: bs = as at heq
        rw [heq]
        refine ⟨rfl, List.pairwise_cons.mpr ⟨?_, hsorted⟩⟩
        have hle : (cmp a b).isLE := Ordering.isLE_iff_ne_gt.mpr hgt
        intro y hy
        rw [← heq] at hy
        rcases List.mem_cons.mp hy with rfl | hy
        · exact hle
        · exact Std.TransCmp.isLE_trans hle (round_head (congrArg Prod.fst hr) y hy)

/-- A round without an exchange leaves nothing to do for those behind it. -/
theorem allRounds_eq (n : Nat) (l : List α) : allRounds cmp n l = rounds cmp n l := by
  induction n generalizing l with
  | zero => rfl
  | succ n ih =>
    cases hdone : (round cmp l).2 with
    | true =>
      obtain ⟨heq, hsorted⟩ := round_done hdone
      have hround : round cmp l = (l, true) := Prod.ext heq hdone
      rw [allRounds_of_sorted (n + 1) hsorted, rounds, hround]
    | false =>
      rw [allRounds, rounds]
      generalize round cmp l = r at hdone
      obtain ⟨_ | ⟨x, rest⟩, done⟩ := r
      · cases hdone
        rfl
      · cases hdone
        exact congrArg (x :: ·) (ih rest)

/-- With a round for every element but one the list is sorted. -/
theorem rounds_sorted (n : Nat) (l : List α) (h : l.length ≤ n + 1) :
    (rounds cmp n l).Pairwise fun a b => (cmp a b).isLE := by
  induction n generalizing l with
  | zero =>
    match l with
    | [] => exact List.Pairwise.nil
    | [x] => exact List.pairwise_singleton _ x
  | succ n ih =>
    rw [rounds]
    generalize hr : round cmp l = r
    obtain ⟨_ | ⟨x, rest⟩, _ | _⟩ := r
    · exact List.Pairwise.nil
    · exact List.Pairwise.nil
    · -- the least element is at the front, the other rounds sort the rest
      have hperm := round_perm cmp l
      rw [hr] at hperm
      have hlen : rest.length ≤ n + 1 := by
        have := hperm.length_eq
        simp only [List.length_cons] at this
        omega
      refine List.pairwise_cons.mpr ⟨?_, ih rest hlen⟩
      intro y hy
      exact round_head (congrArg Prod.fst hr) y ((rounds_perm cmp n rest).subset hy)
    · -- the loop ends behind a round without an exchange
      obtain ⟨heq, hsorted⟩ := round_done (congrArg Prod.snd hr)
      rw [hr] at heq
      change x :: rest = l at heq
      rwa [heq]

end MessageBroker.BubbleSort
