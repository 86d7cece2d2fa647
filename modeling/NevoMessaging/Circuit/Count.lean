import NevoMessaging.Circuit.History

/-!
# The consecutive-failure breaker

The calls of a key settle in any state of its circuit, also those that were admitted in an earlier
state, and the counter `failures` is changed in every one of them. While the circuit is closed it
still has a meaning: it is the number of failures since the last success that came while the circuit
was closed, or since the circuit was closed.

Results:
1. `Counted.apply`: one call keeps the meaning of `failures` and `openedAt`.
2. `counts_consecutive_failures`: when the circuit opens, and what it refuses then.
-/

namespace NevoMessaging

namespace CircuitOp

/-- A failure that counts: an error of the client says nothing about the service. -/
def isFailure : CircuitOp → Bool
  | onFailure err _ _ _ => err = .other
  | _ => false

def isSuccess : CircuitOp → Bool
  | onSuccess _ => true
  | _ => false

end CircuitOp

namespace CircuitEvent

/-- A success while the circuit is closed, or a closing. -/
def clears (e : CircuitEvent) : Bool := e.op.isSuccess && e.before = .closed || e.closes

/-- The failures after the last event that clears them. -/
def recentFailures (history : List CircuitEvent) : Nat :=
  (history.takeWhile (!·.clears)).countP (·.op.isFailure)

/-- The time of the last opening. -/
def lastOpening (history : List CircuitEvent) : Option Int :=
  (history.find? (·.opens)).map (·.op.time)

variable {e : CircuitEvent} {h : List CircuitEvent}

theorem recentFailures_of_clears (he : e.clears) : recentFailures (e :: h) = 0 := by
  rw [recentFailures, List.takeWhile_cons_of_neg (by simp [he])]
  rfl

theorem recentFailures_of_not_clears (he : e.clears = false) :
    recentFailures (e :: h) = recentFailures h + if e.op.isFailure then 1 else 0 := by
  rw [recentFailures, List.takeWhile_cons_of_pos (by simp [he]), List.countP_cons]
  rfl

theorem lastOpening_of_opens (he : e.opens) : lastOpening (e :: h) = some e.op.time := by
  rw [lastOpening, List.find?_cons_of_pos he]
  rfl

theorem lastOpening_of_not_opens (he : e.opens = false) :
    lastOpening (e :: h) = lastOpening h := by
  rw [lastOpening, List.find?_cons_of_neg (by simp [he])]
  rfl

end CircuitEvent

/-! ## One call -/

namespace CircuitBreakerRegistry

open CircuitEvent JsString

variable {opts : CircuitBreakerOptions} {resetTimeoutMs : Int} {c : Circuit CountCircuitData}
  {h : List CircuitEvent}

/-- What the counter and the time of opening mean. -/
structure Counted (threshold : Int) (c : Circuit CountCircuitData) (h : List CircuitEvent) :
    Prop where
  closed : c.state = .closed →
    c.own.failures = recentFailures h ∧ (c.own.failures : Int) < threshold
  opened : c.state = .open → lastOpening h = some c.openedAt

theorem Counted.idle {threshold : Int} (hc : Counted threshold c h) {e : CircuitEvent}
    (hsame : e.after = e.before) (hfailure : e.op.isFailure = false)
    (hsuccess : e.op.isSuccess = false) : Counted threshold c (e :: h) where
  closed hclosed := by
    have hclears : e.clears = false := by simp [clears, closes, hsame, hsuccess]
    rw [recentFailures_of_not_clears hclears, hfailure]
    exact hc.closed hclosed
  opened hopen := by
    rw [lastOpening_of_not_opens (by simp [opens, hsame])]
    exact hc.opened hopen

theorem counted_of_opens {threshold : Int} {e : CircuitEvent} (hopens : e.opens)
    (hstate : c.state = .open) (htime : c.openedAt = e.op.time) :
    Counted threshold c (e :: h) where
  closed hclosed := by cases hstate.symm.trans hclosed
  opened _ := by rw [lastOpening_of_opens hopens, htime]

theorem Counted.before {threshold : Int} (hc : Counted threshold c h) (t₁ t₂ t₃ : Int) :
    Counted threshold (c.before (strategy opts) resetTimeoutMs t₁ t₂ t₃).2
      (⟨.before t₁ t₂ t₃, c.state, (c.before (strategy opts) resetTimeoutMs t₁ t₂ t₃).2.state⟩ ::
        h) := by
  rcases c.before_cases (strategy opts) resetTimeoutMs t₁ t₂ t₃ with hsame | ⟨-, hhalf, -⟩
  · rw [hsame]
    exact hc.idle rfl rfl rfl
  · constructor
    · intro hclosed
      cases hhalf.symm.trans hclosed
    · intro hopen
      cases hhalf.symm.trans hopen

variable (opts c) in
theorem onSuccess_spec (now : Int) :
    ((c.onSuccess (strategy opts) now).state = .closed →
      (c.onSuccess (strategy opts) now).own.failures = 0) ∧
    ((c.onSuccess (strategy opts) now).state = .open →
      c.state = .open ∧ (c.onSuccess (strategy opts) now).openedAt = c.openedAt) := by
  unfold Circuit.onSuccess
  simp only [strategy, ↓reduceIte]
  by_cases hhalf : c.state = .halfOpen
  · simp only [hhalf, ↓reduceIte, reduceCtorEq]
    split <;> simp
  · simp only [hhalf, ↓reduceIte]
    split <;> simp_all

theorem Counted.onSuccess {threshold : Int} (hthreshold : 1 ≤ threshold)
    (hc : Counted threshold c h) (now : Int) :
    Counted threshold (c.onSuccess (strategy opts) now)
      (⟨.onSuccess now, c.state, (c.onSuccess (strategy opts) now).state⟩ :: h) := by
  obtain ⟨hclosed, hopened⟩ := onSuccess_spec opts c now
  refine ⟨fun hstate => ?_, fun hstate => ?_⟩
  · have hclears : clears
        ⟨.onSuccess now, c.state, (c.onSuccess (strategy opts) now).state⟩ = true := by
      rw [hstate]
      cases c.state <;> rfl
    rw [recentFailures_of_clears hclears, hclosed hstate]
    exact ⟨rfl, by exact_mod_cast hthreshold⟩
  · obtain ⟨hopen, htime⟩ := hopened hstate
    rw [lastOpening_of_not_opens (by rw [hopen]; rfl), htime]
    exact hc.opened hopen

variable (opts) in
theorem onFailure_of_closed (hclosed : c.state = .closed) (t₁ t₂ t₃ : Int) :
    (c.onFailure (strategy opts) .other t₁ t₂ t₃).own.failures = c.own.failures + 1 ∧
      (c.onFailure (strategy opts) .other t₁ t₂ t₃).state =
        (if opts.failureThreshold.getD 5 ≤ (c.own.failures + 1 : Nat) then .open else .closed) ∧
      (c.onFailure (strategy opts) .other t₁ t₂ t₃).openedAt =
        if opts.failureThreshold.getD 5 ≤ (c.own.failures + 1 : Nat) then t₃ else c.openedAt := by
  unfold Circuit.onFailure
  simp only [strategy, hclosed, ne_eq, not_true_eq_false, ↓reduceIte, Bool.false_eq_true,
    reduceCtorEq, true_and, decide_eq_true_eq]
  split
  · exact ⟨rfl, rfl, rfl⟩
  · exact ⟨rfl, hclosed, rfl⟩

theorem Counted.onFailure (hc : Counted (opts.failureThreshold.getD 5) c h) (err : CircuitError)
    (t₁ t₂ t₃ : Int) :
    Counted (opts.failureThreshold.getD 5) (c.onFailure (strategy opts) err t₁ t₂ t₃)
      (⟨.onFailure err t₁ t₂ t₃, c.state,
        (c.onFailure (strategy opts) err t₁ t₂ t₃).state⟩ :: h) := by
  by_cases herr : err = .other
  · subst herr
    cases hstate : c.state with
    | closed =>
      obtain ⟨hfailures, hnext, hopened⟩ := onFailure_of_closed opts hstate t₁ t₂ t₃
      split at hnext
      · next hreach =>
        rw [if_pos hreach] at hopened
        exact counted_of_opens (by rw [hnext]; rfl) hnext hopened
      · next hbelow =>
        rw [hnext]
        refine ⟨fun _ => ?_, fun hopen => ?_⟩
        · rw [recentFailures_of_not_clears rfl, hfailures, (hc.closed hstate).1]
          rw [(hc.closed hstate).1, not_le] at hbelow
          exact ⟨rfl, hbelow⟩
        · cases hnext.symm.trans hopen
    | «open» =>
      unfold Circuit.onFailure
      simp only [strategy, hstate, ne_eq, not_true_eq_false, ↓reduceIte, Bool.false_eq_true,
        reduceCtorEq, false_and]
      refine ⟨fun hclosed => ?_, fun _ => ?_⟩
      · cases hstate.symm.trans hclosed
      · rw [lastOpening_of_not_opens rfl]
        exact hc.opened hstate
    | halfOpen =>
      unfold Circuit.onFailure
      simp only [strategy, hstate, ne_eq, not_true_eq_false, ↓reduceIte, Bool.false_eq_true]
      exact counted_of_opens rfl rfl rfl
  · have hidle : (c.onFailure (strategy opts) err t₁ t₂ t₃).own = c.own ∧
        (c.onFailure (strategy opts) err t₁ t₂ t₃).state = c.state ∧
        (c.onFailure (strategy opts) err t₁ t₂ t₃).openedAt = c.openedAt := by
      unfold Circuit.onFailure
      rw [if_pos herr]
      split <;> exact ⟨rfl, rfl, rfl⟩
    obtain ⟨hown, hsame, hopened⟩ := hidle
    have hnext := hc.idle (e := ⟨.onFailure err t₁ t₂ t₃, c.state, c.state⟩) rfl
      (by simpa [CircuitOp.isFailure] using herr) rfl
    rw [hsame]
    refine ⟨fun hclosed => ?_, fun hopen => ?_⟩
    · rw [hown]
      exact hnext.closed (hsame.symm.trans hclosed)
    · rw [hopened]
      exact hnext.opened (hsame.symm.trans hopen)

theorem Counted.apply (hthreshold : 1 ≤ opts.failureThreshold.getD 5)
    (hc : Counted (opts.failureThreshold.getD 5) c h) (op : CircuitOp) :
    Counted (opts.failureThreshold.getD 5) (c.apply (strategy opts) resetTimeoutMs op)
      (⟨op, c.state, (c.apply (strategy opts) resetTimeoutMs op).state⟩ :: h) := by
  cases op with
  | before t₁ t₂ t₃ => exact hc.before t₁ t₂ t₃
  | onSuccess now => exact hc.onSuccess hthreshold now
  | onFailure err t₁ t₂ t₃ => exact hc.onFailure err t₁ t₂ t₃

/-- A closed circuit leaves its state exactly at the failure that reaches the threshold. -/
theorem Counted.leaves_iff (hc : Counted (opts.failureThreshold.getD 5) c h)
    (hclosed : c.state = .closed) (op : CircuitOp) :
    let c' := c.apply (strategy opts) resetTimeoutMs op
    c'.state ≠ .closed ↔ op.isFailure ∧
      (recentFailures (⟨op, c.state, c'.state⟩ :: h) : Int) = opts.failureThreshold.getD 5 := by
  intro c'
  obtain ⟨hcount, hbelow⟩ := hc.closed hclosed
  cases op with
  | before t₁ t₂ t₃ =>
    have hsame : c' = c := by
      rcases c.before_cases (strategy opts) resetTimeoutMs t₁ t₂ t₃ with hsame | ⟨hnot, -⟩
      · exact hsame
      · exact absurd hclosed hnot
    simp [hsame, hclosed, CircuitOp.isFailure]
  | onSuccess now =>
    have hsame : c'.state = .closed := by
      show (c.onSuccess (strategy opts) now).state = .closed
      simp [Circuit.onSuccess, hclosed]
    simp [hsame, CircuitOp.isFailure]
  | onFailure err t₁ t₂ t₃ =>
    by_cases herr : err = .other
    · subst herr
      obtain ⟨-, hnext, -⟩ := onFailure_of_closed opts hclosed t₁ t₂ t₃
      have hclears : clears ⟨.onFailure .other t₁ t₂ t₃, c.state, c'.state⟩ = false := by
        simp [clears, closes, hclosed, CircuitOp.isSuccess]
      rw [recentFailures_of_not_clears hclears, ← hcount, show c'.state = _ from hnext]
      simp only [CircuitOp.isFailure, decide_true, ↓reduceIte, true_and]
      split
      · next hreach => simpa using le_antisymm (by omega) hreach
      · next hnot => simpa using fun heq => hnot (le_of_eq heq.symm)
    · have hsame : c'.state = .closed := by
        show (c.onFailure (strategy opts) err t₁ t₂ t₃).state = .closed
        simp [Circuit.onFailure, herr, hclosed]
      simp [hsame, CircuitOp.isFailure, herr]

/-! ## Runs -/

/-- While the circuit of a key is closed, `failures` is the number of failures since the last
success while closed or the last closing, below the threshold; it is left exactly at the failure
that makes the number reach the threshold; and while the circuit is open, every call is refused
until `resetTimeoutMs` has passed since it was opened, and only until then. -/
theorem counts_consecutive_failures (opts : CircuitBreakerOptions) (key : JsString) (start : Int)
    (hthreshold : 1 ≤ opts.failureThreshold.getD 5) {s : Watched CountCircuitData}
    (hs : (watchMachine (strategy opts) key (create opts) start).Reach Machine.free s) :
    let c := s.circuit (strategy opts) key
    (c.state = .closed → c.own.failures = recentFailures s.history ∧
      (c.own.failures : Int) < opts.failureThreshold.getD 5) ∧
    (∀ a s', s.step (strategy opts) key a = some s' → c.state = .closed →
      ((s'.circuit (strategy opts) key).state ≠ .closed ↔
        ∃ e, s'.history = e :: s.history ∧ e.op.isFailure ∧
          (recentFailures s'.history : Int) = opts.failureThreshold.getD 5)) ∧
    (c.state = .open → ∃ t, lastOpening s.history = some t ∧ ∀ t₁ t₂ t₃,
      (s.registry.before (strategy opts) key t₁ t₂ t₃).1 = false ↔
        t₁ - t < opts.resetTimeoutMs.getD 10000) := by
  obtain ⟨hc, hreset, henabled⟩ := Watched.circuit_invariant
    (P := fun c h _ => Counted (opts.failureThreshold.getD 5) c h) rfl
    (fun _ => ⟨fun _ => ⟨rfl, by exact_mod_cast hthreshold⟩, fun hopen => by cases hopen⟩)
    (fun _ hc => hc) (fun {_ _ _ op} _ hc => hc.apply hthreshold op) hs
  refine ⟨hc.closed, fun a s' hstep hclosed => ?_, fun hopen => ?_⟩
  · obtain ⟨-, -, -, -, hcases⟩ := Watched.step_cases hstep
    rcases hcases with ⟨-, -, hcircuit, hhistory⟩ | ⟨hhistory, hcircuit⟩ | ⟨hhistory, hcircuit⟩
    · rw [hhistory, hcircuit]
      refine (hc.leaves_iff hclosed a.2).trans ⟨fun hreach => ⟨_, rfl, hreach⟩, ?_⟩
      rintro ⟨e, he, hreach⟩
      cases he
      exact hreach
    · rw [hcircuit, hhistory]
      simp [hclosed]
    · rw [hcircuit, hhistory]
      simp
  · have hlast := hc.opened hopen
    have hon : s.registry.enabled := henabled fun hnil => by
      rw [hnil] at hlast
      cases hlast
    refine ⟨_, hlast, fun t₁ t₂ t₃ => ?_⟩
    rw [(CircuitRegistry.before_eq hon t₁ t₂ t₃).1, hreset]
    exact Circuit.before_of_open hopen t₁ t₂ t₃

theorem counts_consecutive_failures_twice :
    let opts : CircuitBreakerOptions :=
      { enabled := some true, failureThreshold := some 2, resetTimeoutMs := some 10 }
    ∃ s : Watched CountCircuitData, (s.circuit (strategy opts) (lit "a")).state = .open ∧
      ∃ t, lastOpening s.history = some t ∧ ∀ t₁ t₂ t₃,
        (s.registry.before (strategy opts) (lit "a") t₁ t₂ t₃).1 = false ↔ t₁ - t < 10 := by
  intro opts
  obtain ⟨s, hs, hopen⟩ := Machine.Reach.observe
    (watchMachine (strategy opts) (lit "a") (create opts) 0) Machine.free
    [(lit "a", .onFailure .other 1 1 1), (lit "b", .onFailure .other 1 1 1),
      (lit "a", .onFailure .other 2 2 2)]
    (fun s => (s.circuit (strategy opts) (lit "a")).state) .open (by decide +kernel)
  exact ⟨s, hopen, (counts_consecutive_failures opts (lit "a") 0 (by decide) hs).2.2 hopen⟩

end CircuitBreakerRegistry

end NevoMessaging
