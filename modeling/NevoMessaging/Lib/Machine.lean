import Mathlib.Data.List.Basic

/-!
# Machines with guarded runs

A machine is a start state and a partial step function. Everything the
environment decides (which party moves next, what an external call answers) is
part of the action, so the step function stays executable and a run is a list of
actions.

`Machine.Reach m ok` are the states reached by runs whose every action is allowed
by `ok` in the state it is taken in. `ok` is how a condition on the steps of a run
is written down; the unconditional case is `Machine.free`.

Results:
1. `Reach.invariant`: the induction rule for invariants.
2. `Reach.observe`: a concrete run, evaluated through an observation of its last state.
-/

structure Machine (S A : Type) where
  init : S
  step : S → A → Option S

namespace Machine

variable {S A : Type}

/-- The condition that allows every action. -/
def free : S → A → Prop := fun _ _ => True

instance (s : S) (a : A) : Decidable (free s a) := inferInstanceAs (Decidable True)

inductive Reach (m : Machine S A) (ok : S → A → Prop) : S → Prop
  | init : Reach m ok m.init
  | step {s s' : S} {a : A} : Reach m ok s → ok s a → m.step s a = some s' → Reach m ok s'

/-- The machine that goes on from a given state; its reachable states are the later states of
that state. -/
def restart (m : Machine S A) (s : S) : Machine S A := { m with init := s }

/-- Runs a list of actions, stopping with `none` at the first one that is not
enabled or not allowed. -/
def exec (m : Machine S A) (ok : S → A → Prop) [∀ s a, Decidable (ok s a)] :
    S → List A → Option S
  | s, [] => some s
  | s, a :: as => if ok s a then (m.step s a).bind fun s' => exec m ok s' as else none

variable {m : Machine S A} {ok : S → A → Prop}

@[elab_as_elim]
theorem Reach.invariant {P : S → Prop} (hinit : P m.init)
    (hstep : ∀ {s s' : S} {a : A}, m.Reach ok s → P s → ok s a → m.step s a = some s' → P s')
    {s : S} (h : m.Reach ok s) : P s := by
  induction h with
  | init => exact hinit
  | step hr ha hs ih => exact hstep hr ih ha hs

theorem Reach.restart {s t : S} (h : m.Reach ok s) (h' : (m.restart s).Reach ok t) :
    m.Reach ok t := by
  induction h' with
  | init => exact h
  | step _ ha hs ih => exact ih.step ha hs

theorem Reach.of_exec [∀ s a, Decidable (ok s a)] {s s' : S} {as : List A}
    (h : m.Reach ok s) (he : m.exec ok s as = some s') : m.Reach ok s' := by
  induction as generalizing s with
  | nil =>
    simp only [exec, Option.some.injEq] at he
    exact he ▸ h
  | cons a as ih =>
    simp only [exec] at he
    split at he
    · next ha =>
      obtain ⟨t, ht, he⟩ := Option.bind_eq_some_iff.mp he
      exact ih (h.step ha ht) he
    · exact absurd he (by simp)

variable (m ok) in
theorem Reach.observe {β : Type} [∀ s a, Decidable (ok s a)] (as : List A) (obs : S → β) (b : β)
    (h : (m.exec ok m.init as).map obs = some b) : ∃ s, m.Reach ok s ∧ obs s = b := by
  obtain ⟨s, hs, hb⟩ := Option.map_eq_some_iff.mp h
  exact ⟨s, Reach.init.of_exec hs, hb⟩

variable (m ok) in
theorem Reach.observe_later {β : Type} [∀ s a, Decidable (ok s a)] (as bs : List A)
    (obs : S → S → β) (b : β)
    (h : ((m.exec ok m.init as).bind fun s => ((m.restart s).exec ok s bs).map (obs s)) = some b) :
    ∃ s s', m.Reach ok s ∧ (m.restart s).Reach ok s' ∧ obs s s' = b := by
  obtain ⟨s, hs, hlater⟩ := Option.bind_eq_some_iff.mp h
  obtain ⟨s', hs', hb⟩ := Option.map_eq_some_iff.mp hlater
  exact ⟨s, s', Reach.init.of_exec hs, Reach.init.of_exec hs', hb⟩

end Machine
