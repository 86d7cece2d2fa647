import NevoMessaging.Circuit.Transitions

/-!
# The history of a circuit

A registry is shared by all keys, but what a method does to the circuit of its key depends on that
circuit only. `Watched` is a registry together with the calls that were made on the circuit of one
key, each with its state before and after it. A circuit that is evicted is lost with all that it has
counted, so its history ends there; the next circuit of its key is another one.

Result: `circuit_invariant`: what one call preserves of a circuit and its history holds in every
run.
-/

namespace NevoMessaging

namespace CircuitOp

/-- The reads of the clock come after the time `clock`, each after the one before. -/
def follows (clock : Int) : CircuitOp → Bool
  | before t₁ t₂ t₃ => clock ≤ t₁ ∧ t₁ ≤ t₂ ∧ t₂ ≤ t₃
  | onSuccess now => clock ≤ now
  | onFailure _ t₁ t₂ t₃ => clock ≤ t₁ ∧ t₁ ≤ t₂ ∧ t₂ ≤ t₃

/-- The last read of the clock. -/
def time : CircuitOp → Int
  | before _ _ t₃ => t₃
  | onSuccess now => now
  | onFailure _ _ _ t₃ => t₃

theorem le_time {clock : Int} {op : CircuitOp} (h : op.follows clock) : clock ≤ op.time := by
  cases op <;> simp only [follows, decide_eq_true_eq] at h <;> simp only [time] <;> omega

end CircuitOp

/-! ## The circuits of a registry -/

namespace Circuit

variable {D : Type} {σ : CircuitStrategy D} {resetTimeoutMs : Int} {c : Circuit D}

theorem before_of_open (hopen : c.state = .open) (t₁ t₂ t₃ : Int) :
    (c.before σ resetTimeoutMs t₁ t₂ t₃).1 = false ↔ t₁ - c.openedAt < resetTimeoutMs := by
  unfold before CircuitRegistry.reopen
  rw [if_pos hopen]
  by_cases htime : resetTimeoutMs ≤ t₁ - c.openedAt
  · rw [if_pos htime]
    simp [CircuitRegistry.probe, htime]
  · rw [if_neg htime]
    simpa using htime

end Circuit

namespace CircuitRegistry

variable {D : Type} {σ : CircuitStrategy D} {r : CircuitRegistry D} {key k : JsString}

theorem current_apply_ne (hk : k ≠ key) (op : CircuitOp)
    (hpresent : (r.apply σ key op).circuits.get? k ≠ none) :
    (r.apply σ key op).current σ k = r.current σ k := by
  rw [CircuitRegistry.current, (others_apply hk op).resolve_right hpresent]
  rfl

end CircuitRegistry

/-! ## Runs -/

/-- A call on a circuit. -/
structure CircuitEvent where
  op : CircuitOp
  before : CircuitState
  after : CircuitState
deriving DecidableEq

namespace CircuitEvent

def closes (e : CircuitEvent) : Bool := e.before ≠ .closed ∧ e.after = .closed

def opens (e : CircuitEvent) : Bool := e.before ≠ .open ∧ e.after = .open

end CircuitEvent

structure Watched (D : Type) where
  registry : CircuitRegistry D
  clock : Int
  /-- The calls on the circuit of the watched key, the latest first. -/
  history : List CircuitEvent := []

namespace Watched

variable {D : Type} (σ : CircuitStrategy D) (key : JsString)

def circuit (s : Watched D) : Circuit D := s.registry.current σ key

/-- A call on any key. -/
def step (s : Watched D) (a : JsString × CircuitOp) : Option (Watched D) :=
  if a.2.follows s.clock then
    let registry := s.registry.apply σ a.1 a.2
    let event : CircuitEvent :=
      { op := a.2, before := (s.circuit σ key).state, after := (registry.current σ key).state }
    let history :=
      match registry.circuits.get? key with
      | none => []
      | some _ => if a.1 = key ∧ s.registry.enabled then event :: s.history else s.history
    some { registry, clock := a.2.time, history }
  else none

end Watched

def watchMachine {D : Type} (σ : CircuitStrategy D) (key : JsString) (registry : CircuitRegistry D)
    (start : Int) : Machine (Watched D) (JsString × CircuitOp) where
  init := { registry, clock := start }
  step := Watched.step σ key

namespace Watched

variable {D : Type} {σ : CircuitStrategy D} {key : JsString} {s s' : Watched D}
  {a : JsString × CircuitOp}

theorem step_cases (hs : s.step σ key a = some s') :
    s'.registry.enabled = s.registry.enabled ∧
    s'.registry.resetTimeoutMs = s.registry.resetTimeoutMs ∧
    a.2.follows s.clock ∧ s'.clock = a.2.time ∧
    ((a.1 = key ∧ s.registry.enabled ∧
        s'.circuit σ key = (s.circuit σ key).apply σ s.registry.resetTimeoutMs a.2 ∧
        s'.history = ⟨a.2, (s.circuit σ key).state, (s'.circuit σ key).state⟩ :: s.history) ∨
      (s'.history = s.history ∧ s'.circuit σ key = s.circuit σ key) ∨
      (s'.history = [] ∧ s'.circuit σ key = { key, own := σ.newCircuit })) := by
  unfold step at hs
  split at hs
  next hclock =>
    cases hs
    obtain ⟨henabled, hreset⟩ := CircuitRegistry.settings_apply σ s.registry a.1 a.2
    refine ⟨henabled, hreset, hclock, rfl, ?_⟩
    cases hc : (s.registry.apply σ a.1 a.2).circuits.get? key with
    | none =>
      refine .inr (.inr ⟨rfl, ?_⟩)
      show (s.registry.apply σ a.1 a.2).current σ key = _
      rw [CircuitRegistry.current, hc]
      rfl
    | some c =>
      dsimp only
      split_ifs with hcall
      · obtain ⟨rfl, hon⟩ := hcall
        exact .inl ⟨rfl, hon, CircuitRegistry.current_apply hon a.2, rfl⟩
      · refine .inr (.inl ⟨rfl, ?_⟩)
        show (s.registry.apply σ a.1 a.2).current σ key = s.registry.current σ key
        by_cases hkey : key = a.1
        · have hoff : ¬ s.registry.enabled := fun hon => hcall ⟨hkey.symm, hon⟩
          rw [CircuitRegistry.apply_of_disabled hoff]
        · exact CircuitRegistry.current_apply_ne hkey a.2 (by rw [hc]; simp)
  · cases hs

/-- The induction rule: `P` may speak about the circuit, its history and a time that is not before
the last call. -/
theorem circuit_invariant {P : Circuit D → List CircuitEvent → Int → Prop}
    {registry : CircuitRegistry D} {start : Int} (hempty : registry.circuits = .empty)
    (hnew : ∀ t, P { key, own := σ.newCircuit } [] t)
    (hclock : ∀ {c h t t'}, t ≤ t' → P c h t → P c h t')
    (hop : ∀ {c h t op}, CircuitOp.follows t op → P c h t →
      P (c.apply σ registry.resetTimeoutMs op)
        (⟨op, c.state, (c.apply σ registry.resetTimeoutMs op).state⟩ :: h) op.time)
    (hs : (watchMachine σ key registry start).Reach Machine.free s) :
    P (s.circuit σ key) s.history s.clock ∧
      s.registry.resetTimeoutMs = registry.resetTimeoutMs ∧
      (s.history ≠ [] → s.registry.enabled) := by
  refine hs.invariant
    ⟨?_, rfl, fun h => absurd rfl h⟩ ?_
  · have hcircuit : (watchMachine σ key registry start).init.circuit σ key =
        { key, own := σ.newCircuit } := by
      show ((registry.circuits.get? key).getD _) = _
      rw [hempty]
      rfl
    rw [hcircuit]
    exact hnew start
  · rintro s s' a - ⟨hP, hreset, henabled⟩ - hstep
    obtain ⟨henabled', hreset', hfollows, hclock', hcases⟩ := step_cases hstep
    rw [hclock', henabled']
    rcases hcases with ⟨-, hon, hcircuit, hhistory⟩ | ⟨hhistory, hcircuit⟩ | ⟨hhistory, hcircuit⟩
    · rw [hhistory, hcircuit, hreset]
      exact ⟨hop hfollows hP, hreset'.trans hreset, fun _ => hon⟩
    · rw [hhistory, hcircuit]
      exact ⟨hclock (CircuitOp.le_time hfollows) hP, hreset'.trans hreset, henabled⟩
    · rw [hhistory, hcircuit]
      exact ⟨hnew _, hreset'.trans hreset, fun h => absurd rfl h⟩

end Watched

end NevoMessaging
