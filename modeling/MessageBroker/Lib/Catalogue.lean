import Mathlib.Data.Finset.Card

/-!
# Catalogues

Two stores under one set of names: every name has a file, and some of them have one of
a fixed number of slots in a list. A name that is added when the files have room but
the slots have not stays unlisted, until it is removed.
-/

namespace MessageBroker

/-- Names for which `valid` holds, at most `limit` in all and at most `slots` in the list. -/
structure Catalogue (ν : Type*) (valid : ν → Prop) (limit slots : Nat) where
  names : Finset ν
  listed : Finset ν
  listed_subset : listed ⊆ names
  valid_of_mem : ∀ n ∈ names, valid n
  card_names : names.card ≤ limit
  card_listed : listed.card ≤ slots

namespace Catalogue

variable {ν : Type*} {valid : ν → Prop} {limit slots : Nat}

inductive Change (ν : Type*)
  | add (n : ν)
  | remove (n : ν)

/-- What becomes of a change. -/
inductive Outcome
  | present
  | invalid
  | unlisted
  | added
  | absent
  | removed
deriving DecidableEq

def empty : Catalogue ν valid limit slots :=
  ⟨∅, ∅, Finset.Subset.refl _, by simp, Nat.zero_le _, Nat.zero_le _⟩

/-- The name has a file and no slot. -/
def Unlisted (c : Catalogue ν valid limit slots) (n : ν) : Prop := n ∈ c.names ∧ n ∉ c.listed

variable {c : Catalogue ν valid limit slots} {n m : ν}

variable [DecidableEq ν]

/-! ### Removing a name -/

def remove (c : Catalogue ν valid limit slots) (n : ν) : Outcome × Catalogue ν valid limit slots :=
  if n ∈ c.names then
    (.removed,
      { names := c.names.erase n
        listed := c.listed.erase n
        listed_subset := Finset.erase_subset_erase n c.listed_subset
        valid_of_mem := fun m hm => c.valid_of_mem m (Finset.mem_of_mem_erase hm)
        card_names := Finset.card_erase_le.trans c.card_names
        card_listed := Finset.card_erase_le.trans c.card_listed })
  else (.absent, c)

theorem remove_absent (h : n ∉ c.names) : c.remove n = (.absent, c) := if_neg h

theorem remove_removed (h : n ∈ c.names) :
    (c.remove n).1 = .removed ∧ (c.remove n).2.names = c.names.erase n ∧
      (c.remove n).2.listed = c.listed.erase n := by
  rw [remove, if_pos h]
  exact ⟨rfl, rfl, rfl⟩

theorem Unlisted.remove (h : c.Unlisted n) (hne : n ≠ m) : (c.remove m).2.Unlisted n := by
  by_cases hm : m ∈ c.names
  · obtain ⟨_, hnames, hlisted⟩ := remove_removed hm
    rw [Unlisted, hnames, hlisted, Finset.mem_erase, Finset.mem_erase]
    exact ⟨⟨hne, h.1⟩, fun hlist => h.2 hlist.2⟩
  · rwa [remove_absent hm]

/-! ### Adding a name -/

variable [DecidablePred valid]

def add (c : Catalogue ν valid limit slots) (n : ν) : Outcome × Catalogue ν valid limit slots :=
  if n ∈ c.names then (.present, c)
  else if hroom : valid n ∧ c.names.card < limit then
    have hnames : (insert n c.names).card ≤ limit := (Finset.card_insert_le n c.names).trans hroom.2
    have hvalid : ∀ m ∈ insert n c.names, valid m := by
      intro m hm
      obtain rfl | hm := Finset.mem_insert.mp hm
      · exact hroom.1
      · exact c.valid_of_mem m hm
    if hslot : c.listed.card < slots then
      (.added,
        { names := insert n c.names
          listed := insert n c.listed
          listed_subset := Finset.insert_subset_insert n c.listed_subset
          valid_of_mem := hvalid
          card_names := hnames
          card_listed := (Finset.card_insert_le n c.listed).trans hslot })
    else
      (.unlisted,
        { names := insert n c.names
          listed := c.listed
          listed_subset := c.listed_subset.trans (Finset.subset_insert n c.names)
          valid_of_mem := hvalid
          card_names := hnames
          card_listed := c.card_listed })
  else (.invalid, c)

theorem add_present (h : n ∈ c.names) : c.add n = (.present, c) := if_pos h

theorem add_invalid (h : n ∉ c.names) (hroom : ¬ (valid n ∧ c.names.card < limit)) :
    c.add n = (.invalid, c) := by
  rw [add, if_neg h, dif_neg hroom]

theorem add_added (h : n ∉ c.names) (hroom : valid n ∧ c.names.card < limit)
    (hslot : c.listed.card < slots) :
    (c.add n).1 = .added ∧ (c.add n).2.names = insert n c.names ∧
      (c.add n).2.listed = insert n c.listed := by
  rw [add, if_neg h, dif_pos hroom, dif_pos hslot]
  exact ⟨rfl, rfl, rfl⟩

theorem add_unlisted (h : n ∉ c.names) (hroom : valid n ∧ c.names.card < limit)
    (hslot : ¬ c.listed.card < slots) :
    (c.add n).1 = .unlisted ∧ (c.add n).2.names = insert n c.names ∧
      (c.add n).2.listed = c.listed := by
  rw [add, if_neg h, dif_pos hroom, dif_neg hslot]
  exact ⟨rfl, rfl, rfl⟩

theorem unlisted_of_add (h : (c.add n).1 = .unlisted) : (c.add n).2.Unlisted n := by
  by_cases hn : n ∈ c.names
  · rw [add_present hn] at h
    cases h
  by_cases hroom : valid n ∧ c.names.card < limit
  · by_cases hslot : c.listed.card < slots
    · rw [(add_added hn hroom hslot).1] at h
      cases h
    · obtain ⟨_, hnames, hlisted⟩ := add_unlisted hn hroom hslot
      rw [Unlisted, hnames, hlisted]
      exact ⟨Finset.mem_insert_self n c.names, fun hlist => hn (c.listed_subset hlist)⟩
  · rw [add_invalid hn hroom] at h
    cases h

theorem Unlisted.add (h : c.Unlisted n) (m : ν) : (c.add m).2.Unlisted n := by
  by_cases hm : m ∈ c.names
  · rwa [add_present hm]
  have hne : n ≠ m := fun heq => hm (heq ▸ h.1)
  by_cases hroom : valid m ∧ c.names.card < limit
  · by_cases hslot : c.listed.card < slots
    · obtain ⟨_, hnames, hlisted⟩ := add_added hm hroom hslot
      rw [Unlisted, hnames, hlisted, Finset.mem_insert, Finset.mem_insert]
      exact ⟨Or.inr h.1, not_or.mpr ⟨hne, h.2⟩⟩
    · obtain ⟨_, hnames, hlisted⟩ := add_unlisted hm hroom hslot
      rw [Unlisted, hnames, hlisted, Finset.mem_insert]
      exact ⟨Or.inr h.1, h.2⟩
  · rwa [add_invalid hm hroom]

/-! ### Sequences of changes -/

def change (c : Catalogue ν valid limit slots) :
    Change ν → Outcome × Catalogue ν valid limit slots
  | .add n => c.add n
  | .remove n => c.remove n

def after (c : Catalogue ν valid limit slots) (changes : List (Change ν)) :
    Catalogue ν valid limit slots :=
  changes.foldl (fun c a => (c.change a).2) c

theorem after_append (c : Catalogue ν valid limit slots) (changes changes' : List (Change ν)) :
    c.after (changes ++ changes') = (c.after changes).after changes' := List.foldl_append ..

/-- A name outside the list stays there until it is removed. -/
theorem Unlisted.after (h : c.Unlisted n) {changes : List (Change ν)}
    (hkept : .remove n ∉ changes) : (c.after changes).Unlisted n := by
  induction changes generalizing c with
  | nil => exact h
  | cons a changes ih =>
    obtain ⟨hne, hrest⟩ := not_or.mp (mt List.mem_cons.mpr hkept)
    refine ih ?_ hrest
    cases a with
    | add m => exact h.add m
    | remove m => exact h.remove fun heq => hne (heq ▸ rfl)

end Catalogue

end MessageBroker
