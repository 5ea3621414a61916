import Mathlib.Combinatorics.Enumerative.DoubleCounting
import Mathlib.Logic.Function.Basic
import Mathlib.Data.List.Basic

/-!
# Bounded tables filled at the lowest free index

`firstIndex p n` is the search loop `for (i = 0; i < n; i++) if (p(i)) return i;`.
The remaining lemmas count the entries of a table that satisfy a predicate.
-/

namespace MessageBroker.Table

/-- What stands in a table in which one entry was replaced. -/
theorem update_apply_eq_iff {ι β : Type*} [DecidableEq ι] {f : ι → β} {t u : ι} {x y : β} :
    Function.update f t x u = y ↔ u = t ∧ x = y ∨ u ≠ t ∧ f u = y := by
  by_cases hu : u = t
  · subst hu
    simp
  · simp [hu]

/-- The sum over a table in which one entry was replaced. -/
theorem sum_update {ι β : Type*} [Fintype ι] [DecidableEq ι] (g : ι → β → Nat) (f : ι → β) (t : ι)
    (x : β) : ∑ u, g u (Function.update f t x u) + g t (f t) = ∑ u, g u (f u) + g t x := by
  have hold := Finset.add_sum_erase Finset.univ (fun u => g u (f u)) (Finset.mem_univ t)
  have hnew := Finset.add_sum_erase Finset.univ (fun u => g u (Function.update f t x u))
    (Finset.mem_univ t)
  have hrest : ∑ u ∈ Finset.univ.erase t, g u (Function.update f t x u) =
      ∑ u ∈ Finset.univ.erase t, g u (f u) := by
    refine Finset.sum_congr rfl fun u hu => ?_
    rw [Function.update_of_ne (Finset.ne_of_mem_erase hu)]
  rw [Function.update_self] at hnew
  omega

/-- The first index below `n` that satisfies `p`. -/
def firstIndex (p : Nat → Bool) (n : Nat) : Option Nat := (List.range n).find? p

variable {p q : Nat → Bool} {n i : Nat}

theorem firstIndex_eq_some :
    firstIndex p n = some i ↔ p i = true ∧ i < n ∧ ∀ j < i, p j = false := by
  simp [firstIndex]

theorem firstIndex_eq_none : firstIndex p n = none ↔ ∀ j < n, p j = false := by
  simp [firstIndex]

/-- The indices below `n` that satisfy `p`. -/
def indices (p : Nat → Bool) (n : Nat) : Finset Nat := (Finset.range n).filter fun i => p i = true

@[simp] theorem mem_indices : i ∈ indices p n ↔ i < n ∧ p i = true := by
  simp [indices]

theorem card_indices_le (p : Nat → Bool) (n : Nat) : (indices p n).card ≤ n := by
  simpa [indices] using Finset.card_filter_le (Finset.range n) fun i => p i = true

/-- Every index satisfies `p`: the table is full. -/
theorem card_indices_of_forall (h : ∀ i < n, p i = true) : (indices p n).card = n := by
  have hall : indices p n = Finset.range n := by
    ext i
    simp only [mem_indices, Finset.mem_range, and_iff_left_iff_imp]
    exact h i
  rw [hall, Finset.card_range]

/-- An index that does not satisfy `p` leaves room in the table. -/
theorem card_indices_lt (hi : i < n) (hp : p i = false) : (indices p n).card < n := by
  have hsub : indices p n ⊂ Finset.range n := by
    refine Finset.filter_ssubset.mpr ⟨i, Finset.mem_range.mpr hi, ?_⟩
    rw [hp]
    decide
  simpa using Finset.card_lt_card hsub

/-- Two finite sets that a relation matches one to one are equally large. -/
theorem card_eq_of_matching {α β : Type*} {s : Finset α} {t : Finset β} (R : α → β → Prop)
    (left : ∀ a ∈ s, ∃ b ∈ t, R a b) (right : ∀ b ∈ t, ∃ a ∈ s, R a b)
    (inj : ∀ {a a' b}, R a b → R a' b → a = a') (func : ∀ {a b b'}, R a b → R a b' → b = b') :
    s.card = t.card := by
  apply le_antisymm
  · apply Finset.card_le_card_of_forall_subsingleton R left
    rintro b _ a ⟨_, ha⟩ a' ⟨_, ha'⟩
    exact inj ha ha'
  · apply Finset.card_le_card_of_forall_subsingleton' R right
    rintro a _ b ⟨_, hb⟩ b' ⟨_, hb'⟩
    exact func hb hb'

/-! ### Slots with names -/

variable {ν : Type*} {blank x : ν} {names : Nat → ν} {S : ν → Prop}

/-- A table of `n` slots that holds each element of a set once; `blank` marks a free slot. -/
structure HoldsOnce (blank : ν) (names : Nat → ν) (n : Nat) (S : ν → Prop) : Prop where
  mem_iff : ∀ x, (x ≠ blank ∧ ∃ i < n, names i = x) ↔ S x
  unique : ∀ i < n, ∀ j < n, names i ≠ blank → names i = names j → i = j

theorem HoldsOnce.congr {S' : ν → Prop} (h : HoldsOnce blank names n S) (hS : ∀ x, S x ↔ S' x) :
    HoldsOnce blank names n S' :=
  ⟨fun x => (h.mem_iff x).trans (hS x), h.unique⟩

theorem HoldsOnce.update (h : HoldsOnce blank names n S) (hi : i < n) (hx : x ≠ blank)
    (hno : ¬ S x) (hfree : names i = blank) :
    HoldsOnce blank (Function.update names i x) n fun y => y = x ∨ S y := by
  have hne : ∀ j < n, names j ≠ x := fun j hj hjx => hno ((h.mem_iff x).mp ⟨hx, j, hj, hjx⟩)
  constructor
  · intro y
    constructor
    · rintro ⟨hy, j, hj, hjy⟩
      obtain ⟨_, hxy⟩ | ⟨_, hold⟩ := update_apply_eq_iff.mp hjy
      · exact Or.inl hxy.symm
      · exact Or.inr ((h.mem_iff y).mp ⟨hy, j, hj, hold⟩)
    · rintro (rfl | hS)
      · exact ⟨hx, i, hi, Function.update_self _ _ _⟩
      · obtain ⟨hy, j, hj, hjy⟩ := (h.mem_iff y).mpr hS
        refine ⟨hy, j, hj, ?_⟩
        rw [Function.update_of_ne ?_, hjy]
        rintro rfl
        exact hy (hjy.symm.trans hfree)
  · intro j hj k hk hb heq
    -- the new name is that of no other index
    by_cases hji : j = i
    · by_cases hki : k = i
      · exact hji.trans hki.symm
      · rw [hji, Function.update_self, Function.update_of_ne hki] at heq
        exact absurd heq.symm (hne k hk)
    · by_cases hki : k = i
      · rw [hki, Function.update_self, Function.update_of_ne hji] at heq
        exact absurd heq (hne j hj)
      · rw [Function.update_of_ne hji] at hb heq
        rw [Function.update_of_ne hki] at heq
        exact h.unique j hj k hk hb heq

theorem HoldsOnce.clear (h : HoldsOnce blank names n S) (hi : i < n) (hx : names i ≠ blank) :
    HoldsOnce blank (Function.update names i blank) n fun y => y ≠ names i ∧ S y := by
  constructor
  · intro y
    constructor
    · rintro ⟨hy, j, hj, hjy⟩
      obtain ⟨_, hblank⟩ | ⟨hji, hold⟩ := update_apply_eq_iff.mp hjy
      · exact absurd hblank.symm hy
      · refine ⟨?_, (h.mem_iff y).mp ⟨hy, j, hj, hold⟩⟩
        rintro rfl
        exact hji (h.unique j hj i hi (hold ▸ hx) hold)
    · rintro ⟨hne, hS⟩
      obtain ⟨hy, j, hj, hjy⟩ := (h.mem_iff y).mpr hS
      refine ⟨hy, j, hj, ?_⟩
      rw [Function.update_of_ne ?_, hjy]
      rintro rfl
      exact hne hjy.symm
  · intro j hj k hk hb heq
    by_cases hji : j = i
    · rw [hji, Function.update_self] at hb
      exact absurd rfl hb
    · rw [Function.update_of_ne hji] at hb heq
      by_cases hki : k = i
      · rw [hki, Function.update_self] at heq
        exact absurd heq hb
      · rw [Function.update_of_ne hki] at heq
        exact h.unique j hj k hk hb heq

/-- A table that holds each element of a finite set once has as many slots that are not free. -/
theorem HoldsOnce.card_indices [DecidableEq ν] {S : Finset ν}
    (h : HoldsOnce blank names n fun x => x ∈ S) :
    (indices (fun i => decide (names i ≠ blank)) n).card = S.card := by
  apply Finset.card_bij fun i _ => names i
  · intro i hi
    obtain ⟨hlt, hne⟩ := mem_indices.mp hi
    exact (h.mem_iff _).mp ⟨of_decide_eq_true hne, i, hlt, rfl⟩
  · intro i hi j hj heq
    obtain ⟨hlt, hne⟩ := mem_indices.mp hi
    exact h.unique i hlt j (mem_indices.mp hj).1 (of_decide_eq_true hne) heq
  · intro x hx
    obtain ⟨hne, i, hlt, rfl⟩ := (h.mem_iff x).mpr hx
    exact ⟨i, mem_indices.mpr ⟨hlt, decide_eq_true hne⟩, rfl⟩

/-- Setting one more index adds it to the indices that satisfy a predicate. -/
theorem indices_insert (hi : i < n) (hq : q i = true) (h : ∀ j, j ≠ i → q j = p j) :
    indices q n = insert i (indices p n) := by
  ext j
  rw [Finset.mem_insert, mem_indices, mem_indices]
  by_cases hj : j = i
  · subst hj
    simp [hi, hq]
  · simp [hj, h j hj]

theorem card_indices_insert (hi : i < n) (hp : p i = false) (hq : q i = true)
    (h : ∀ j, j ≠ i → q j = p j) : (indices q n).card = (indices p n).card + 1 := by
  rw [indices_insert hi hq h, Finset.card_insert_of_notMem]
  simp [hp]

/-! ### Slots with elements -/

variable {α : Type*} {P : α → Bool} {slots : Nat → Option α} {t : Nat} {a : α}

/-- The number of slots below `n` whose element satisfies `P`. -/
def tally (P : α → Bool) (slots : Nat → Option α) (n : Nat) : Nat :=
  (indices (fun t => (slots t).any P) n).card

theorem tally_le (P : α → Bool) (slots : Nat → Option α) (n : Nat) : tally P slots n ≤ n :=
  card_indices_le _ n

theorem tally_pos (ht : t < n) (hslot : slots t = some a) (ha : P a = true) :
    0 < tally P slots n := by
  refine Finset.card_pos.mpr ⟨t, mem_indices.mpr ⟨ht, ?_⟩⟩
  rw [hslot]
  exact ha

theorem tally_congr {Q : α → Bool} (h : ∀ t < n, ∀ a, slots t = some a → P a = Q a) :
    tally P slots n = tally Q slots n := by
  refine congrArg Finset.card (Finset.filter_congr fun t ht => ?_)
  show (slots t).any P = true ↔ (slots t).any Q = true
  cases hslot : slots t with
  | none => rfl
  | some a => rw [Option.any_some, Option.any_some, h t (Finset.mem_range.mp ht) a hslot]

/-- A slot whose old and new contents count alike. -/
theorem tally_update_same {x : Option α} (h : x.any P = (slots t).any P) :
    tally P (Function.update slots t x) n = tally P slots n := by
  have hsame : (fun u => (Function.update slots t x u).any P) = fun u => (slots u).any P := by
    funext u
    by_cases hu : u = t
    · rw [hu, Function.update_self, h]
    · rw [Function.update_of_ne hu]
  rw [tally, hsame]
  rfl

theorem tally_update_some (ht : t < n) (hslot : slots t = none) (ha : P a = true) :
    tally P (Function.update slots t (some a)) n = tally P slots n + 1 := by
  refine card_indices_insert ht ?_ ?_ ?_
  · rw [hslot]
    rfl
  · rw [Function.update_self]
    exact ha
  · intro u hu
    rw [Function.update_of_ne hu]

theorem tally_update_none (ht : t < n) (hslot : slots t = some a) (ha : P a = true) :
    tally P slots n = tally P (Function.update slots t none) n + 1 := by
  rw [← tally_update_some ht (Function.update_self t none slots) ha, Function.update_idem, ← hslot,
    Function.update_eq_self]

end MessageBroker.Table
