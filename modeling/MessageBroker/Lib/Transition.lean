import Mathlib.Logic.Relation
import Mathlib.Data.Set.Basic

/-!
# Labelled transition systems with partial steps

A system is a function `step : σ → α → Option σ`: `none` means that the label is
not enabled. A run may be restricted to the steps that a predicate `ok` admits,
which is how a side condition on a schedule is stated. A system whose steps also
produce an output, and may fault, is a function `σ → α → Except ε (β × σ)`.
-/

namespace MessageBroker.Transition

variable {σ τ α β ε : Type*}

/-- One step of `step` under some label that `ok` admits. -/
def Step (step : σ → α → Option σ) (ok : σ → α → Prop) (s t : σ) : Prop :=
  ∃ a, ok s a ∧ step s a = some t

/-- Reachability by steps that `ok` admits. -/
def Reaches (step : σ → α → Option σ) (ok : σ → α → Prop) : σ → σ → Prop :=
  Relation.ReflTransGen (Step step ok)

/-- The label predicate that admits every step. -/
def anyStep (_ : σ) (_ : α) : Prop := True

/-- Execute a list of labels. -/
def runLabels (step : σ → α → Option σ) : σ → List α → Option σ
  | s, [] => some s
  | s, a :: as => (step s a).bind fun t => runLabels step t as

/-- **Invariant rule**: what holds initially and is preserved by every admitted
step holds in every state reached. -/
theorem Reaches.invariant {step : σ → α → Option σ} {ok : σ → α → Prop} {s t : σ}
    {Inv : σ → Prop} (h : Reaches step ok s t) (h0 : Inv s)
    (hstep : ∀ u a v, Inv u → ok u a → step u a = some v → Inv v) : Inv t := by
  induction h with
  | refl => exact h0
  | tail _ hs ih =>
    obtain ⟨a, hok, ha⟩ := hs
    exact hstep _ a _ ih hok ha

theorem Reaches.refl {step : σ → α → Option σ} {ok : σ → α → Prop} (s : σ) :
    Reaches step ok s s := Relation.ReflTransGen.refl

theorem Reaches.snoc {step : σ → α → Option σ} {ok : σ → α → Prop} {s t u : σ}
    (h : Reaches step ok s t) (a : α) (hok : ok t a) (ha : step t a = some u) :
    Reaches step ok s u := Relation.ReflTransGen.tail h ⟨a, hok, ha⟩

theorem Reaches.trans {step : σ → α → Option σ} {ok : σ → α → Prop} {s t u : σ}
    (h : Reaches step ok s t) (h' : Reaches step ok t u) : Reaches step ok s u :=
  Relation.ReflTransGen.trans h h'

/-- Admitting more labels reaches at least the same states. -/
theorem Reaches.mono {step : σ → α → Option σ} {ok ok' : σ → α → Prop} {s t : σ}
    (h : Reaches step ok s t) (hok : ∀ u a, ok u a → ok' u a) : Reaches step ok' s t := by
  apply h.invariant (Reaches.refl s)
  intro u a v hu ha hs
  exact hu.snoc a (hok u a ha) hs

/-- An executed list of labels, each admitted in every state, reaches its final state. -/
theorem reaches_of_admitted {step : σ → α → Option σ} {ok : σ → α → Prop} {s t : σ} {as : List α}
    (h : runLabels step s as = some t) (hok : ∀ a ∈ as, ∀ u, ok u a) : Reaches step ok s t := by
  induction as generalizing s with
  | nil =>
    cases h
    exact Reaches.refl _
  | cons a as ih =>
    obtain ⟨u, hu, hrest⟩ := Option.bind_eq_some_iff.mp h
    have ha := hok a List.mem_cons_self s
    refine Relation.ReflTransGen.head ⟨a, ha, hu⟩ (ih hrest ?_)
    exact fun b hb => hok b (List.mem_cons_of_mem a hb)

theorem reaches_of_runLabels {step : σ → α → Option σ} {s t : σ} {as : List α}
    (h : runLabels step s as = some t) : Reaches step anyStep s t :=
  reaches_of_admitted h fun _ _ _ => trivial

/-- **Variant rule**: a goal can be reached when every state of the invariant that is not a
goal has an admitted step that keeps the invariant and makes the variant smaller. -/
theorem Reaches.exists_of_variant {γ : Type*} [LT γ] [WellFoundedLT γ] {step : σ → α → Option σ}
    {ok : σ → α → Prop} {Inv Goal : σ → Prop} (variant : σ → γ)
    (hstep : ∀ s, Inv s → Goal s ∨
      ∃ a t, ok s a ∧ step s a = some t ∧ Inv t ∧ variant t < variant s)
    {s : σ} (h : Inv s) : ∃ t, Reaches step ok s t ∧ Inv t ∧ Goal t := by
  induction hv : variant s using WellFoundedLT.induction generalizing s with
  | ind v ih =>
    subst hv
    obtain hgoal | ⟨a, t, hok, ha, ht, hlt⟩ := hstep s h
    · exact ⟨s, Reaches.refl s, h, hgoal⟩
    · obtain ⟨u, hu, hinv, hgoal⟩ := ih _ hlt ht rfl
      exact ⟨u, Relation.ReflTransGen.head ⟨a, hok, ha⟩ hu, hinv, hgoal⟩

/-- The variant rule for a variant that is not a function of the state. -/
theorem Reaches.exists_of_measure {γ : Type*} [LT γ] [WellFoundedLT γ] {step : σ → α → Option σ}
    {ok : σ → α → Prop} {Inv : γ → σ → Prop} {Goal : σ → Prop}
    (hstep : ∀ n s, Inv n s → Goal s ∨
      ∃ a t m, ok s a ∧ step s a = some t ∧ Inv m t ∧ m < n)
    {n : γ} {s : σ} (h : Inv n s) : ∃ m t, Reaches step ok s t ∧ Inv m t ∧ Goal t := by
  induction n using WellFoundedLT.induction generalizing s with
  | ind n ih =>
    obtain hgoal | ⟨a, t, m, hok, ha, ht, hlt⟩ := hstep n s h
    · exact ⟨n, s, Reaches.refl s, h, hgoal⟩
    · obtain ⟨m', u, hu, hinv, hgoal⟩ := ih m hlt ht
      exact ⟨m', u, Relation.ReflTransGen.head ⟨a, hok, ha⟩ hu, hinv, hgoal⟩

/-- The system that takes only the steps that `ok` admits. -/
def guarded (step : σ → α → Option σ) (ok : σ → α → Prop) [∀ s a, Decidable (ok s a)] (s : σ)
    (a : α) : Option σ :=
  if ok s a then step s a else none

theorem reaches_of_guarded {step : σ → α → Option σ} {ok : σ → α → Prop}
    [∀ s a, Decidable (ok s a)] {s t : σ} {as : List α}
    (h : runLabels (guarded step ok) s as = some t) : Reaches step ok s t := by
  apply (reaches_of_runLabels h).invariant (Reaches.refl s)
  intro u a v hu _ ha
  obtain ⟨hok, hs⟩ := Option.ite_none_right_eq_some.mp ha
  exact hu.snoc a hok hs

/-! ### Systems with outputs -/

/-- Peel one successful computation off a sequence. -/
theorem bind_eq_ok {γ δ : Type} {ε : Type} {x : Except ε γ} {f : γ → Except ε δ} {r : δ} :
    x >>= f = .ok r ↔ ∃ a, x = .ok a ∧ f a = .ok r := by
  cases x with
  | error e =>
    constructor
    · intro h
      cases h
    · rintro ⟨_, h, _⟩
      cases h
  | ok a => exact ⟨fun h => ⟨a, rfl, h⟩, fun ⟨_, h, hf⟩ => by cases h; exact hf⟩

@[simp] theorem ok_bind {γ δ : Type} {ε : Type} (a : γ) (f : γ → Except ε δ) :
    (Except.ok a >>= f) = f a := rfl

/-- What a computation that does not fail gives satisfies `P`. -/
def Ensures {γ : Type} {ε : Type} (x : Except ε γ) (P : γ → Prop) : Prop := ∀ a, x = .ok a → P a

section Ensures

variable {γ δ ε : Type} {x : Except ε γ} {P : γ → Prop} {Q : δ → Prop}

theorem Ensures.error {e : ε} : Ensures (.error e) P := fun _ h => nomatch h

theorem Ensures.ok {a : γ} (h : P a) : Ensures (.ok a : Except ε γ) P := by
  intro b hb
  cases hb
  exact h

/-- **Call rule**: the second computation may use the result of the first one. -/
theorem Ensures.call {f : γ → Except ε δ} (hf : ∀ a, x = .ok a → Ensures (f a) Q) :
    Ensures (x >>= f) Q := by
  intro b hb
  obtain ⟨a, ha, hfa⟩ := bind_eq_ok.mp hb
  exact hf a ha b hfa

/-- **Sequence rule**: the second computation may use what the first one ensures. -/
theorem Ensures.bind {f : γ → Except ε δ} (hx : Ensures x P) (hf : ∀ a, P a → Ensures (f a) Q) :
    Ensures (x >>= f) Q :=
  .call fun a ha => hf a (hx a ha)

/-- A step whose result does not matter. -/
theorem Ensures.skip {f : γ → Except ε δ} (hf : ∀ a, Ensures (f a) Q) : Ensures (x >>= f) Q :=
  .call fun a _ => hf a

theorem Ensures.ite {c : Prop} [Decidable c] {y : Except ε γ} (hx : c → Ensures x P)
    (hy : ¬ c → Ensures y P) : Ensures (if c then x else y) P := by
  by_cases hc : c
  · rw [if_pos hc]
    exact hx hc
  · rw [if_neg hc]
    exact hy hc

end Ensures

/-- Execute a list of calls, collecting the outputs; a fault ends the run. -/
def outputs (exec : σ → α → Except ε (β × σ)) : σ → List α → Except ε (List β × σ)
  | s, [] => .ok ([], s)
  | s, a :: as =>
    match exec s a with
    | .error e => .error e
    | .ok (b, t) =>
      match outputs exec t as with
      | .error e => .error e
      | .ok (bs, u) => .ok (b :: bs, u)

/-- The outputs of a system that never faults. -/
def totalOutputs (exec : τ → α → β × τ) : τ → List α → List β × τ
  | t, [] => ([], t)
  | t, a :: as =>
    let r := exec t a
    let rest := totalOutputs exec r.2 as
    (r.1 :: rest.1, rest.2)

/-- Every step of a run of a total system is admitted by `ok`. -/
def AllAdmitted (exec : τ → α → β × τ) (ok : τ → α → Prop) : τ → List α → Prop
  | _, [] => True
  | t, a :: as => ok t a ∧ AllAdmitted exec ok (exec t a).2 as

/-- **Simulation rule**: when related states answer every admitted call alike
and stay related, whole admitted runs have equal outputs and none faults. -/
theorem outputs_of_simulation {exec : σ → α → Except ε (β × σ)} {ref : τ → α → β × τ}
    {ok : τ → α → Prop} {R : σ → τ → Prop}
    (hsim : ∀ s t a, R s t → ok t a →
      ∃ s', exec s a = .ok ((ref t a).1, s') ∧ R s' (ref t a).2)
    {s : σ} {t : τ} (hR : R s t) {as : List α} (hok : AllAdmitted ref ok t as) :
    ∃ s', outputs exec s as = .ok ((totalOutputs ref t as).1, s') ∧
      R s' (totalOutputs ref t as).2 := by
  induction as generalizing s t with
  | nil => exact ⟨s, rfl, hR⟩
  | cons a as ih =>
    obtain ⟨ha, has⟩ := hok
    obtain ⟨s₁, he, hR₁⟩ := hsim s t a hR ha
    obtain ⟨s₂, hrun, hR₂⟩ := ih hR₁ has
    refine ⟨s₂, ?_, hR₂⟩
    simp only [outputs, he, hrun, totalOutputs]

/-- The state transition underlying a system with outputs. -/
def stateStep (exec : σ → α → Except ε (β × σ)) (s : σ) (a : α) : Option σ :=
  match exec s a with
  | .error _ => none
  | .ok (_, t) => some t

theorem stateStep_eq_some {exec : σ → α → Except ε (β × σ)} {s t : σ} {a : α} :
    stateStep exec s a = some t ↔ ∃ b, exec s a = .ok (b, t) := by
  unfold stateStep
  cases exec s a with
  | error e => simp
  | ok r => exact ⟨fun h => ⟨r.1, by cases h; rfl⟩, fun ⟨b, h⟩ => by cases h; rfl⟩

end MessageBroker.Transition
