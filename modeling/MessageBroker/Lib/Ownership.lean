import Mathlib.Data.Set.Insert
import MessageBroker.Lib.Table

/-!
# Resources with one holder each

Each client of a pool holds at most one resource. What is held is in use, no two clients
hold the same resource, and perhaps everything in use is held. A client that takes a free
resource or gives its own back leaves it so.
-/

namespace MessageBroker.Ownership

open Table

variable {ι κ : Type*} {inUse inUse' : Set κ} {held : ι → Option κ} {x y : Option κ} {i : ι}
  {k : κ}

/-- What is held is in use, and held by one client. -/
structure Holders (inUse : Set κ) (held : ι → Option κ) : Prop where
  mem : ∀ i k, held i = some k → k ∈ inUse
  sole : ∀ i j k, held i = some k → held j = some k → i = j

/-- What is in use is held, and by one client. -/
structure ExactHolders (inUse : Set κ) (held : ι → Option κ) : Prop extends
    Holders inUse held where
  holder : ∀ k ∈ inUse, ∃ i, held i = some k

/-- What one client does to the resources in use and to the one that it holds. -/
inductive Passes (inUse inUse' : Set κ) : Option κ → Option κ → Prop
  | keep (x : Option κ) : inUse' = inUse → Passes inUse inUse' x x
  | take (k : κ) : k ∉ inUse → inUse' = insert k inUse → Passes inUse inUse' none (some k)
  | release (k : κ) : inUse' = inUse \ {k} → Passes inUse inUse' (some k) none

theorem exactHolders_empty (h : inUse = ∅) : ExactHolders inUse fun _ : ι => none where
  mem := nofun
  sole := nofun
  holder := by
    intro k hk
    rw [h] at hk
    exact absurd hk (Set.notMem_empty k)

theorem ExactHolders.mem_iff (h : ExactHolders inUse held) : k ∈ inUse ↔ ∃ i, held i = some k :=
  ⟨h.holder k, fun ⟨i, hi⟩ => h.mem i k hi⟩

theorem ExactHolders.eq_empty (h : ExactHolders inUse held) (hnone : ∀ i, held i = none) :
    inUse = ∅ := by
  ext k
  rw [h.mem_iff, Set.mem_empty_iff_false, iff_false]
  rintro ⟨i, hi⟩
  cases (hnone i).symm.trans hi

/-- What is in use afterwards is held by the client, or was in use and not held by it. -/
theorem Passes.mem_cases (hp : Passes inUse inUse' x y) (hk : k ∈ inUse') :
    y = some k ∨ k ∈ inUse ∧ x ≠ some k := by
  cases hp with
  | keep _ heq =>
    rw [heq] at hk
    by_cases hx : x = some k
    · exact Or.inl hx
    · exact Or.inr ⟨hk, hx⟩
  | take _ _ heq =>
    rw [heq] at hk
    obtain rfl | hk := hk
    · exact Or.inl rfl
    · exact Or.inr ⟨hk, nofun⟩
  | release _ heq =>
    rw [heq] at hk
    obtain ⟨hk, hne⟩ := hk
    refine Or.inr ⟨hk, ?_⟩
    rintro ⟨⟩
    exact hne rfl

section

variable [DecidableEq ι]

theorem Holders.take (h : Holders inUse held) (hk : k ∉ inUse) :
    Holders (insert k inUse) (Function.update held i (some k)) where
  mem := by
    intro j k' hj
    obtain ⟨_, hnew⟩ | ⟨_, hold⟩ := update_apply_eq_iff.mp hj
    · exact Or.inl (Option.some.inj hnew).symm
    · exact Or.inr (h.mem j k' hold)
  sole := by
    intro j j' k' hj hj'
    -- the resource that was taken has no other holder
    obtain ⟨hji, hnew⟩ | ⟨_, hold⟩ := update_apply_eq_iff.mp hj
    · obtain ⟨hji', _⟩ | ⟨_, hold'⟩ := update_apply_eq_iff.mp hj'
      · exact hji.trans hji'.symm
      · cases hnew
        exact absurd (h.mem j' k hold') hk
    · obtain ⟨_, hnew⟩ | ⟨_, hold'⟩ := update_apply_eq_iff.mp hj'
      · cases hnew
        exact absurd (h.mem j k hold) hk
      · exact h.sole j j' k' hold hold'

theorem Holders.release (h : Holders inUse held) (hi : held i = some k) :
    Holders (inUse \ {k}) (Function.update held i none) where
  mem := by
    intro j k' hj
    obtain ⟨_, hnone⟩ | ⟨hji, hold⟩ := update_apply_eq_iff.mp hj
    · cases hnone
    · refine ⟨h.mem j k' hold, ?_⟩
      rintro rfl
      exact hji (h.sole j i k' hold hi)
  sole := by
    intro j j' k' hj hj'
    obtain ⟨_, hnone⟩ | ⟨_, hold⟩ := update_apply_eq_iff.mp hj
    · cases hnone
    obtain ⟨_, hnone⟩ | ⟨_, hold'⟩ := update_apply_eq_iff.mp hj'
    · cases hnone
    exact h.sole j j' k' hold hold'

/-- **Step rule**: one client acts, the others hold what they held. -/
theorem Holders.update (h : Holders inUse held) (hp : Passes inUse inUse' (held i) x) :
    Holders inUse' (Function.update held i x) := by
  generalize hy : held i = y at hp
  cases hp with
  | keep _ heq =>
    rw [heq, ← hy, Function.update_eq_self]
    exact h
  | take k hk heq =>
    rw [heq]
    exact h.take hk
  | release k heq =>
    rw [heq]
    exact h.release hy

theorem ExactHolders.update (h : ExactHolders inUse held) (hp : Passes inUse inUse' (held i) x) :
    ExactHolders inUse' (Function.update held i x) where
  toHolders := h.toHolders.update hp
  holder := by
    intro k hk
    obtain hx | ⟨hk, hne⟩ := hp.mem_cases hk
    · exact ⟨i, (Function.update_self _ _ _).trans hx⟩
    · obtain ⟨j, hj⟩ := h.holder k hk
      refine ⟨j, (Function.update_of_ne ?_ _ _).trans hj⟩
      rintro rfl
      exact hne hj

end

end MessageBroker.Ownership
