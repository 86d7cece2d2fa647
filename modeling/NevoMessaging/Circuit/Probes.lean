import NevoMessaging.Circuit.Transitions

/-!
# Half-open circuits and their probes

A circuit that becomes half-open is to be decided by its probes: the calls that are admitted while
it is half-open, one at a time. But `onSuccess` and `onFailure` are told the key only. A call that
was admitted while the circuit was still closed, and settles when it is half-open, counts as a
probe; and so does a probe that another one has replaced after `resetTimeoutMs`.

Each call does `before` and, if it is admitted, settles once. A half-open period of a key begins
when its circuit becomes half-open, and an admitted call remembers the period it was admitted in.

Results:
1. `Tracked.step`: while only the latest probe of a period settles in it, the flag and the counter
   of the circuit tell the truth about the probes.
2. `half_open_governed`, `stale_success_closes`: then they govern it, otherwise they do not.
-/

namespace NevoMessaging

open List

inductive CircuitOutcome
  | success
  | failure (err : CircuitError)
deriving DecidableEq

/-- An admitted call. -/
structure CircuitCall where
  key : JsString
  /-- The half-open period it was admitted in. -/
  period : Option Nat
  time : Int
  outcome : Option CircuitOutcome := none
deriving DecidableEq

structure CircuitRun (D : Type) where
  registry : CircuitRegistry D
  clock : Int
  calls : List CircuitCall := []
  /-- How often a circuit of the key has become half-open. -/
  periods : JsString → Nat := fun _ => 0

inductive CircuitAction
  | before (key : JsString) (t₁ t₂ t₃ : Int)
  | succeed (call : Nat) (now : Int)
  | fail (call : Nat) (err : CircuitError) (t₁ t₂ t₃ : Int)

namespace CircuitRun

variable {D : Type}

def circuit? (s : CircuitRun D) (key : JsString) : Option (Circuit D) :=
  s.registry.circuits.get? key

def stateOf (s : CircuitRun D) (key : JsString) : Option CircuitState :=
  (s.circuit? key).map (·.state)

/-- The clock does not go back. -/
def step (σ : CircuitStrategy D) (s : CircuitRun D) : CircuitAction → Option (CircuitRun D)
  | .before key t₁ t₂ t₃ =>
    if s.clock ≤ t₁ ∧ t₁ ≤ t₂ ∧ t₂ ≤ t₃ then
      let (admitted, registry) := s.registry.before σ key t₁ t₂ t₃
      let halfOpen := (registry.circuits.get? key).any (·.state = .halfOpen)
      let periods :=
        if halfOpen ∧ s.stateOf key = some .open then
          Function.update s.periods key (s.periods key + 1)
        else s.periods
      let call : CircuitCall :=
        { key, period := if halfOpen then some (periods key) else none, time := t₃ }
      some { registry, clock := t₃, calls := s.calls ++ if admitted then [call] else [], periods }
    else none
  | .succeed c now => do
    let x ← s.calls[c]?
    if s.clock ≤ now ∧ x.outcome = none then
      some { s with
        registry := s.registry.onSuccess σ x.key now
        clock := now
        calls := s.calls.set c { x with outcome := some .success } }
    else none
  | .fail c err t₁ t₂ t₃ => do
    let x ← s.calls[c]?
    if s.clock ≤ t₁ ∧ t₁ ≤ t₂ ∧ t₂ ≤ t₃ ∧ x.outcome = none then
      some { s with
        registry := s.registry.onFailure σ x.key err t₁ t₂ t₃
        clock := t₃
        calls := s.calls.set c { x with outcome := some (.failure err) } }
    else none

end CircuitRun

def circuitMachine {D : Type} (σ : CircuitStrategy D) (registry : CircuitRegistry D) (start : Int) :
    Machine (CircuitRun D) CircuitAction where
  init := { registry, clock := start }
  step := CircuitRun.step σ

namespace CircuitRun

variable {D : Type}

/-- The call is the latest probe of the half-open period of its key. -/
def isProbe (s : CircuitRun D) (c : Nat) (x : CircuitCall) : Bool :=
  x.period = some (s.periods x.key) &&
    (s.calls.drop (c + 1)).all fun y => y.key ≠ x.key || y.period ≠ x.period

/-- A call that settles in a half-open circuit is its latest probe. -/
def settlesOwn (s : CircuitRun D) (c : Nat) : Bool :=
  (s.calls[c]?).all fun x => s.stateOf x.key ≠ some .halfOpen || s.isProbe c x

def Probing (s : CircuitRun D) : CircuitAction → Prop
  | .before _ _ _ _ => True
  | .succeed c _ => s.settlesOwn c
  | .fail c _ _ _ _ => s.settlesOwn c

instance (s : CircuitRun D) (a : CircuitAction) : Decidable (s.Probing a) := by
  cases a <;> unfold Probing <;> infer_instance

/-- The calls that were admitted in the present half-open period of the key and have succeeded. -/
def successes (s : CircuitRun D) (key : JsString) : Nat :=
  s.calls.countP fun x =>
    x.key = key && x.period = some (s.periods key) && x.outcome = some .success

/-- What the probes decide, for one step. -/
structure Governed (resetTimeoutMs threshold : Int) (s : CircuitRun D) (a : CircuitAction)
    (s' : CircuitRun D) : Prop where
  /-- A probe is admitted only when every earlier one of its period has settled or is old. -/
  alone : ∀ y p, s'.calls = s.calls ++ [y] → y.period = some p → ∀ x ∈ s.calls, x.key = y.key →
    x.period = some p → x.outcome ≠ none ∨ resetTimeoutMs ≤ y.time - x.time
  closes : ∀ key, s.stateOf key = some .halfOpen → s'.stateOf key = some .closed →
    threshold ≤ s'.successes key
  opens : ∀ key, s.stateOf key = some .halfOpen → s'.stateOf key = some .open →
    ∃ c err t₁ t₂ t₃ x, a = .fail c err t₁ t₂ t₃ ∧ s.calls[c]? = some x ∧ x.key = key ∧
      x.period = some (s.periods key)

end CircuitRun

/-! ## What the flag and the counter say -/

namespace CircuitRun

variable {D : Type} {σ : CircuitStrategy D} {threshold resetTimeoutMs : Int}
  {count : ProbeCount σ threshold} {s s' : CircuitRun D} {key k : JsString} {c c' : Circuit D}

theorem isProbe_iff {i : Nat} {x : CircuitCall} :
    s.isProbe i x ↔ x.period = some (s.periods x.key) ∧
      ∀ y ∈ s.calls.drop (i + 1), y.key = x.key → y.period ≠ x.period := by
  simp [isProbe, imp_iff_not_or]

/-- The calls that were admitted in the present half-open period of the key. -/
def ofPeriod (s : CircuitRun D) (key : JsString) : List CircuitCall :=
  (s.calls.filter (·.key = key)).filter (·.period = some (s.periods key))

theorem successes_eq (s : CircuitRun D) (key : JsString) :
    s.successes key = (s.ofPeriod key).countP (·.outcome = some .success) := by
  rw [ofPeriod, countP_filter, countP_filter]
  refine countP_congr fun x _ => ?_
  simp only [Bool.and_eq_true, decide_eq_true_eq]
  tauto

/-- A half-open circuit and the calls that were admitted in its period. -/
structure Attributed (count : ProbeCount σ threshold) (resetTimeoutMs : Int) (s : CircuitRun D)
    (key : JsString) (c : Circuit D) : Prop where
  counted : count.probes c.own = s.successes key
  past : c.halfOpenProbeAt ≤ s.clock
  /-- The flag and the time are those of the latest call. The others have settled or were
  replaced. -/
  probes : ∃ earlier x, s.ofPeriod key = earlier ++ [x] ∧ x.time = c.halfOpenProbeAt ∧
    (x.outcome = none → c.halfOpenInFlight) ∧
    ∀ y ∈ earlier, y.outcome ≠ none ∨ y.time + resetTimeoutMs ≤ c.halfOpenProbeAt

/-- The calls of a key and its circuit. -/
structure TrackedAt (count : ProbeCount σ threshold) (resetTimeoutMs : Int) (s : CircuitRun D)
    (key : JsString) : Prop where
  periods : ∀ x ∈ s.calls, x.key = key → ∀ p, x.period = some p → p ≤ s.periods key
  halfOpen : ∀ c, s.circuit? key = some c → c.state = .halfOpen →
    Attributed count resetTimeoutMs s key c

structure Tracked (count : ProbeCount σ threshold) (resetTimeoutMs : Int) (s : CircuitRun D) :
    Prop where
  live : s.registry.Live
  timeout : s.registry.resetTimeoutMs = resetTimeoutMs
  keys : ∀ key, TrackedAt count resetTimeoutMs s key

theorem TrackedAt.frame (h : TrackedAt count resetTimeoutMs s k)
    (hcircuit : s'.circuit? k = s.circuit? k ∨ s'.circuit? k = none) (hclock : s.clock ≤ s'.clock)
    (hperiods : s'.periods k = s.periods k)
    (hcalls : s'.calls.filter (·.key = k) = s.calls.filter (·.key = k)) :
    TrackedAt count resetTimeoutMs s' k where
  periods x hx hkey p hp := by
    have hmem : x ∈ s.calls.filter (·.key = k) :=
      hcalls ▸ mem_filter.mpr ⟨hx, decide_eq_true hkey⟩
    rw [hperiods]
    exact h.periods x (mem_filter.mp hmem).1 hkey p hp
  halfOpen c hc hhalf := by
    have hof : s'.ofPeriod k = s.ofPeriod k := by rw [ofPeriod, ofPeriod, hcalls, hperiods]
    have hc : s.circuit? k = some c := by
      rcases hcircuit with hsame | hnone
      · exact hsame ▸ hc
      · cases hnone.symm.trans hc
    have hat := h.halfOpen c hc hhalf
    refine ⟨?_, hat.past.trans hclock, hof ▸ hat.probes⟩
    rw [hat.counted, successes_eq, successes_eq, hof]

theorem Attributed.rest {t₂ t₃ : Int} (h : Attributed count resetTimeoutMs s key c)
    (hfree : c.halfOpenInFlight → resetTimeoutMs ≤ t₂ - c.halfOpenProbeAt) (hclock : s.clock ≤ t₃)
    (hle : t₂ ≤ t₃) {x : CircuitCall} (hx : x ∈ s.ofPeriod key) :
    x.outcome ≠ none ∨ x.time + resetTimeoutMs ≤ t₃ := by
  obtain ⟨earlier, z, hof, htime, hflight, hearlier⟩ := h.probes
  rw [hof] at hx
  rcases mem_append.mp hx with hx | hx
  · exact (hearlier x hx).imp_right fun hold => hold.trans (h.past.trans hclock)
  · cases mem_singleton.mp hx
    by_cases hout : x.outcome = none
    · have hwait := hfree (hflight hout)
      exact .inr (by omega)
    · exact .inl hout

/-! ## The steps -/

theorem stateOf_eq_some {state : CircuitState} :
    s.stateOf key = some state ↔ ∃ c, s.circuit? key = some c ∧ c.state = state := by
  unfold stateOf
  exact Option.map_eq_some_iff

/-- A step does nothing for the other keys. -/
structure Elsewhere (s s' : CircuitRun D) (key : JsString) : Prop where
  live : s'.registry.Live
  timeout : s'.registry.resetTimeoutMs = s.registry.resetTimeoutMs
  clock : s.clock ≤ s'.clock
  circuits : ∀ k ≠ key, s'.circuit? k = s.circuit? k ∨ s'.circuit? k = none
  periods : ∀ k ≠ key, s'.periods k = s.periods k
  calls : ∀ k ≠ key, s'.calls.filter (·.key = k) = s.calls.filter (·.key = k)

/-- What a step does when a call begins. -/
structure Entered (σ : CircuitStrategy D) (s s' : CircuitRun D) (key : JsString) (t₂ t : Int)
    (admitted : Bool) (y : CircuitCall) : Prop where
  entry : ∀ c', s'.circuit? key = some c' →
    CircuitRegistry.Entry σ s.registry.resetTimeoutMs t₂ t (s.registry.current σ key) admitted c'
  le : t₂ ≤ t
  clock : s'.clock = t
  calls : s'.calls = s.calls ++ if admitted then [y] else []
  keyed : y.key = key
  time : y.time = t
  unsettled : y.outcome = none
  period : y.period = if s'.stateOf key = some .halfOpen then some (s'.periods key) else none
  periods : s'.periods =
    if s'.stateOf key = some .halfOpen ∧ s.stateOf key = some .open then
      Function.update s.periods key (s.periods key + 1)
    else s.periods

/-- What a step does when a call ends. -/
structure Settled (count : ProbeCount σ threshold) (s : CircuitRun D) (a : CircuitAction)
    (s' : CircuitRun D) (i : Nat) (x : CircuitCall) (out : CircuitOutcome) : Prop where
  settles : ∀ c', s'.circuit? x.key = some c' →
    CircuitRegistry.Settles count (out = .success) (s.registry.current σ x.key) c'
  call : s.calls[i]? = some x
  unsettled : x.outcome = none
  periods : s'.periods = s.periods
  calls : s'.calls = s.calls.set i { x with outcome := some out }
  own : s.Probing a → s.settlesOwn i
  failed : out ≠ .success → ∃ err t₁ t₂ t₃, a = .fail i err t₁ t₂ t₃

theorem Entered.periods_ne {t₂ t : Int} {admitted : Bool} {y : CircuitCall}
    (h : Entered σ s s' key t₂ t admitted y) (hne : k ≠ key) : s'.periods k = s.periods k := by
  rw [h.periods]
  split
  · exact Function.update_of_ne hne _ _
  · rfl

theorem Entered.others {t₂ t : Int} {admitted : Bool} {y : CircuitCall}
    (h : Entered σ s s' key t₂ t admitted y) (hne : k ≠ key) :
    s'.calls.filter (·.key = k) = s.calls.filter (·.key = k) := by
  rw [h.calls, filter_append]
  split
  · simp [h.keyed, Ne.symm hne]
  · rw [filter_nil, append_nil]

section Settling

variable {a : CircuitAction} {i : Nat} {x : CircuitCall} {out : CircuitOutcome}

theorem Settled.split (h : Settled count s a s' i x out) :
    ∃ l₁, s.calls = l₁ ++ x :: s.calls.drop (i + 1) ∧
      s'.calls = l₁ ++ { x with outcome := some out } :: s.calls.drop (i + 1) := by
  obtain ⟨hlt, hx⟩ := List.getElem?_eq_some_iff.mp h.call
  refine ⟨s.calls.take i, ?_, ?_⟩
  · rw [← hx, ← drop_eq_getElem_cons hlt, take_append_drop]
  · rw [h.calls, set_eq_take_append_cons_drop, if_pos hlt]

theorem Settled.others (h : Settled count s a s' i x out) (hne : k ≠ x.key) :
    s'.calls.filter (·.key = k) = s.calls.filter (·.key = k) := by
  obtain ⟨l₁, hold, hnew⟩ := h.split
  rw [hnew]
  nth_rewrite 2 [hold]
  simp [Ne.symm hne]

end Settling

theorem elsewhere_apply (hlive : s.registry.Live) (op : CircuitOp)
    (hregistry : s'.registry = s.registry.apply σ key op) (hclock : s.clock ≤ s'.clock)
    (hperiods : ∀ k ≠ key, s'.periods k = s.periods k)
    (hcalls : ∀ k ≠ key, s'.calls.filter (·.key = k) = s.calls.filter (·.key = k)) :
    Elsewhere s s' key := by
  refine ⟨?_, ?_, hclock, fun k hk => ?_, hperiods, hcalls⟩
  · rw [hregistry]
    exact hlive.apply op
  · rw [hregistry]
    exact (CircuitRegistry.settings_apply σ s.registry key op).2
  · rw [circuit?, hregistry]
    exact CircuitRegistry.others_apply hk op

theorem step_cases {a : CircuitAction} (count : ProbeCount σ threshold) (hlive : s.registry.Live)
    (h : s.step σ a = some s') :
    ∃ key, Elsewhere s s' key ∧
      ((∃ t₂ t admitted y, Entered σ s s' key t₂ t admitted y) ∨
        ∃ i x out, x.key = key ∧ Settled count s a s' i x out) := by
  cases a with
  | before key t₁ t₂ t₃ =>
    unfold step at h
    dsimp only at h
    split at h
    next hclock =>
      obtain ⟨admitted, y, hent⟩ : ∃ admitted y, Entered σ s s' key t₂ t₃ admitted y := by
        cases h
        have hany (o : Option (Circuit D)) :
            o.any (·.state = .halfOpen) ↔ o.map (·.state) = some .halfOpen := by
          cases o <;> simp
        exact ⟨_, _, fun c' hc' => hlive.entry hc', hclock.2.2, rfl, rfl, rfl, rfl, rfl,
          if_congr (hany _) rfl rfl, if_congr (and_congr_left' (hany _)) rfl rfl⟩
      have hregistry : s'.registry = s.registry.apply σ key (.before t₁ t₂ t₃) := by
        cases h
        rfl
      have hle : s.clock ≤ s'.clock := by
        rw [hent.clock]
        omega
      exact ⟨key, elsewhere_apply hlive _ hregistry hle (fun _ => hent.periods_ne)
        fun _ => hent.others, .inl ⟨t₂, t₃, admitted, y, hent⟩⟩
    · cases h
  | succeed i now =>
    obtain ⟨x, hx, h⟩ := Option.bind_eq_some_iff.mp h
    split at h
    next hguard =>
      have hset : Settled count s (.succeed i now) s' i x .success := by
        cases h
        refine ⟨fun c' hc' => ?_, hx, hguard.2, rfl, rfl, id, fun hne => absurd rfl hne⟩
        rw [(hlive.get?_apply (.onSuccess now) hc').2]
        exact CircuitRegistry.settles_onSuccess _ now
      cases h
      exact ⟨x.key, elsewhere_apply hlive (.onSuccess now) rfl hguard.1 (fun _ _ => rfl)
        fun _ => hset.others, .inr ⟨i, x, .success, rfl, hset⟩⟩
    · cases h
  | fail i err t₁ t₂ t₃ =>
    obtain ⟨x, hx, h⟩ := Option.bind_eq_some_iff.mp h
    split at h
    next hguard =>
      obtain ⟨h₁, h₂, h₃, hout⟩ := hguard
      have hset : Settled count s (.fail i err t₁ t₂ t₃) s' i x (.failure err) := by
        cases h
        refine ⟨fun c' hc' => ?_, hx, hout, rfl, rfl, id, fun _ => ⟨err, t₁, t₂, t₃, rfl⟩⟩
        rw [(hlive.get?_apply (.onFailure err t₁ t₂ t₃) hc').2]
        exact CircuitRegistry.settles_onFailure _ err t₁ t₂ t₃
      cases h
      exact ⟨x.key, elsewhere_apply hlive (.onFailure err t₁ t₂ t₃) rfl
        (h₁.trans (h₂.trans h₃)) (fun _ _ => rfl) fun _ => hset.others,
        .inr ⟨i, x, .failure err, rfl, hset⟩⟩
    · cases h

/-! ## A call begins -/

section Entering

variable {t₂ t : Int} {admitted : Bool} {y : CircuitCall}

theorem Entered.periods_le (h : Entered σ s s' key t₂ t admitted y) :
    s.periods key ≤ s'.periods key := by
  rw [h.periods]
  split
  · rw [Function.update_self]
    exact Nat.le_succ _
  · exact Nat.le_refl _

theorem Entered.ofPeriod_eq (h : Entered σ s s' key t₂ t true y)
    (hstate : s'.stateOf key = some .halfOpen) :
    s'.ofPeriod key =
      (s.calls.filter (·.key = key)).filter (·.period = some (s'.periods key)) ++ [y] := by
  rw [ofPeriod, h.calls, if_pos rfl, filter_append, filter_append]
  simp [h.keyed, h.period, hstate]

theorem Entered.periods_past (h : Entered σ s s' key t₂ t admitted y)
    (hpast : ∀ x ∈ s.calls, x.key = key → ∀ p, x.period = some p → p ≤ s.periods key) :
    ∀ x ∈ s'.calls, x.key = key → ∀ p, x.period = some p → p ≤ s'.periods key := by
  intro x hx hkey p hp
  rw [h.calls] at hx
  rcases mem_append.mp hx with hx | hx
  · exact (hpast x hx hkey p hp).trans h.periods_le
  · split at hx
    · cases mem_singleton.mp hx
      rw [h.period] at hp
      split at hp
      · cases hp
        exact Nat.le_refl _
      · cases hp
    · cases hx

theorem TrackedAt.before (h : TrackedAt count resetTimeoutMs s key)
    (htimeout : s.registry.resetTimeoutMs = resetTimeoutMs) (hclock : s.clock ≤ s'.clock)
    (hent : Entered σ s s' key t₂ t admitted y) : TrackedAt count resetTimeoutMs s' key := by
  refine ⟨hent.periods_past h.periods, fun c' hc' hhalf => ?_⟩
  have hstate : s'.stateOf key = some .halfOpen := stateOf_eq_some.mpr ⟨c', hc', hhalf⟩
  have hentry := htimeout ▸ hent.entry c' hc'
  have hold (hne : (s.registry.current σ key).state ≠ .closed) :
      s.circuit? key = some (s.registry.current σ key) :=
    (CircuitRegistry.get?_current σ s.registry key).resolve_right fun hnone => hne hnone.2
  generalize s.registry.current σ key = c at hentry hold
  have hsame (hhalf : c.state = .halfOpen) : s'.periods key = s.periods key := by
    rw [hent.periods, if_neg]
    rintro ⟨-, hopen⟩
    obtain ⟨c₁, hc₁, hopen⟩ := stateOf_eq_some.mp hopen
    cases (hold (hhalf ▸ nofun)).symm.trans hc₁
    cases hhalf.symm.trans hopen
  cases hentry with
  | refused =>
    -- nothing changes but the clock
    have hframe : TrackedAt count resetTimeoutMs s' key :=
      h.frame (.inl (hc'.trans (hold (hhalf ▸ nofun)).symm)) hclock (hsame hhalf)
        (by rw [hent.calls, if_neg Bool.false_ne_true, append_nil])
    exact hframe.halfOpen c' hc' hhalf
  | closed hclosed => cases hhalf.symm.trans hclosed
  | probe hstate₀ hfree =>
    have hat := h.halfOpen c (hold (hstate₀ ▸ nofun)) hstate₀
    have hof := hent.ofPeriod_eq hstate
    rw [hsame hstate₀] at hof
    refine ⟨?_, hent.clock.ge, _, y, hof, hent.time, fun _ => rfl, fun x hx => ?_⟩
    · rw [successes_eq, hof, countP_append, countP_singleton, hent.unsettled]
      exact hat.counted.trans (successes_eq s key)
    · exact hat.rest hfree (hent.clock ▸ hclock) hent.le hx
  | reopened hopen =>
    -- a new period, in which no call was admitted before
    have hperiods : s'.periods key = s.periods key + 1 := by
      have hopen : s.stateOf key = some .open :=
        stateOf_eq_some.mpr ⟨c, hold (hopen ▸ nofun), hopen⟩
      rw [hent.periods, if_pos ⟨hstate, hopen⟩, Function.update_self]
    have hnone :
        (s.calls.filter (·.key = key)).filter (·.period = some (s'.periods key)) = [] := by
      refine filter_eq_nil_iff.mpr fun x hx hp => ?_
      obtain ⟨hx, hxk⟩ := mem_filter.mp hx
      have hle := h.periods x hx (of_decide_eq_true hxk) _ (of_decide_eq_true hp)
      omega
    have hof := hent.ofPeriod_eq hstate
    rw [hnone] at hof
    refine ⟨?_, hent.clock.ge, _, y, hof, hent.time, fun _ => rfl, nofun⟩
    rw [successes_eq, hof, nil_append, countP_singleton, hent.unsettled]
    exact count.enter c.own

end Entering

/-! ## A call ends -/

section Settling

variable {a : CircuitAction} {i : Nat} {x : CircuitCall} {out : CircuitOutcome}

theorem Settled.ofPeriod_eq (h : Settled count s a s' i x out) (hprobe : s.isProbe i x) :
    ∃ earlier, s.ofPeriod x.key = earlier ++ [x] ∧
      s'.ofPeriod x.key = earlier ++ [{ x with outcome := some out }] := by
  obtain ⟨hperiod, hlater⟩ := isProbe_iff.mp hprobe
  obtain ⟨l₁, hold, hnew⟩ := h.split
  have hnone : ((s.calls.drop (i + 1)).filter (·.key = x.key)).filter
      (·.period = some (s.periods x.key)) = [] := by
    refine filter_eq_nil_iff.mpr fun y hy hp => ?_
    obtain ⟨hy, hyk⟩ := mem_filter.mp hy
    exact hlater y hy (of_decide_eq_true hyk) ((of_decide_eq_true hp).trans hperiod.symm)
  have hlast (z : CircuitCall) (hk : z.key = x.key) (hp : z.period = x.period) :
      ((l₁ ++ z :: s.calls.drop (i + 1)).filter (·.key = x.key)).filter
          (·.period = some (s.periods x.key)) =
        (l₁.filter (·.key = x.key)).filter (·.period = some (s.periods x.key)) ++ [z] := by
    rw [filter_append, filter_cons_of_pos (by simpa using hk), filter_append,
      filter_cons_of_pos (by simpa using hp.trans hperiod), hnone]
  refine ⟨(l₁.filter (·.key = x.key)).filter (·.period = some (s.periods x.key)), ?_, ?_⟩
  · rw [← hlast x rfl rfl, ← hold]
    rfl
  · rw [ofPeriod, hnew, h.periods]
    exact hlast _ rfl rfl

theorem Settled.successes (h : Settled count s a s' i x out) (hprobe : s.isProbe i x) :
    s'.successes x.key = s.successes x.key + (decide (out = .success)).toNat := by
  obtain ⟨earlier, hold, hnew⟩ := h.ofPeriod_eq hprobe
  rw [successes_eq, successes_eq, hold, hnew, countP_append, countP_append]
  by_cases hout : out = .success <;> simp [h.unsettled, hout]

theorem isProbe_of_settlesOwn (h : s.settlesOwn i) (hx : s.calls[i]? = some x)
    (hhalf : s.stateOf x.key = some .halfOpen) : s.isProbe i x := by
  unfold settlesOwn at h
  rw [hx, Option.all_some, Bool.or_eq_true, decide_eq_true_iff] at h
  exact h.resolve_left fun hne => hne hhalf

theorem TrackedAt.settle (h : TrackedAt count resetTimeoutMs s x.key)
    (hclock : s.clock ≤ s'.clock) (hset : Settled count s a s' i x out) (hown : s.settlesOwn i) :
    TrackedAt count resetTimeoutMs s' x.key where
  periods z hz hkey p hp := by
    rw [hset.periods]
    rw [hset.calls] at hz
    rcases mem_or_eq_of_mem_set hz with hz | rfl
    · exact h.periods z hz hkey p hp
    · exact h.periods x (mem_of_getElem? hset.call) rfl p hp
  halfOpen c' hc' hhalf' := by
    obtain ⟨hhalf, -, hprobeAt, hprobes⟩ := (hset.settles c' hc').stays hhalf'
    have hc := (CircuitRegistry.get?_current σ s.registry x.key).resolve_right fun hnone => by
      cases hhalf.symm.trans hnone.2
    have hat := h.halfOpen _ hc hhalf
    have hprobe := isProbe_of_settlesOwn hown hset.call (stateOf_eq_some.mpr ⟨_, hc, hhalf⟩)
    obtain ⟨earlier, hold, hnew⟩ := hset.ofPeriod_eq hprobe
    obtain ⟨earlier', z, hof, htime, -, hearlier⟩ := hat.probes
    obtain ⟨rfl, hz⟩ := append_inj' (hof.symm.trans hold) rfl
    cases hz
    refine ⟨?_, hprobeAt ▸ hat.past.trans hclock, earlier', _, hnew, ?_, nofun, ?_⟩
    · rw [hprobes, hset.successes hprobe, hat.counted]
    · exact htime.trans hprobeAt.symm
    · exact hprobeAt ▸ hearlier

end Settling

/-! ## Every step -/

section Governing

variable {a : CircuitAction}

theorem Tracked.step (h : Tracked count resetTimeoutMs s) (hok : s.Probing a)
    (hstep : s.step σ a = some s') : Tracked count resetTimeoutMs s' := by
  obtain ⟨key, helse, hcase⟩ := step_cases count h.live hstep
  refine ⟨helse.live, helse.timeout.trans h.timeout, fun k => ?_⟩
  by_cases hk : k = key
  · rw [hk]
    rcases hcase with ⟨t₂, t, admitted, y, hent⟩ | ⟨i, x, out, rfl, hset⟩
    · exact (h.keys key).before h.timeout helse.clock hent
    · exact (h.keys x.key).settle helse.clock hset (hset.own hok)
  · exact (h.keys k).frame (helse.circuits k hk) helse.clock (helse.periods k hk)
      (helse.calls k hk)

theorem Tracked.alone {t₂ t : Int} {admitted : Bool} {y₀ y : CircuitCall} {p : Nat}
    (h : Tracked count resetTimeoutMs s') (hent : Entered σ s s' key t₂ t admitted y₀)
    (hcalls : s'.calls = s.calls ++ [y]) (hperiod : y.period = some p) {x : CircuitCall}
    (hx : x ∈ s.calls) (hxk : x.key = y.key) (hxp : x.period = some p) :
    x.outcome ≠ none ∨ resetTimeoutMs ≤ y.time - x.time := by
  have hlast := append_cancel_left (hent.calls.symm.trans hcalls)
  cases admitted with
  | false => cases hlast
  | true =>
    cases hlast
    have hp := hent.period
    split at hp
    · next hstate =>
      obtain ⟨c, hc, hhalf⟩ := stateOf_eq_some.mp hstate
      obtain ⟨earlier, z, hof, htime, -, hearlier⟩ := ((h.keys key).halfOpen c hc hhalf).probes
      obtain ⟨rfl, hz⟩ := append_inj' (hof.symm.trans (hent.ofPeriod_eq hstate)) rfl
      cases hz
      refine (hearlier x ?_).imp_right fun hold => by omega
      have hxp : x.period = some (s'.periods key) := hxp.trans (hperiod.symm.trans hp)
      simpa [hx, hxp] using hxk.trans hent.keyed
    · cases hp.symm.trans hperiod

theorem Elsewhere.leaves (h : Elsewhere s s' key) (σ : CircuitStrategy D)
    (hhalf : s.stateOf k = some .halfOpen) {state : CircuitState}
    (hstate : s'.stateOf k = some state) (hne : state ≠ .halfOpen) :
    k = key ∧ s.circuit? key = some (s.registry.current σ key) ∧
      (s.registry.current σ key).state = .halfOpen ∧
      ∃ c', s'.circuit? key = some c' ∧ c'.state = state := by
  obtain ⟨c, hc, hhalf⟩ := stateOf_eq_some.mp hhalf
  obtain ⟨c', hc', hstate⟩ := stateOf_eq_some.mp hstate
  by_cases hk : k = key
  · subst hk
    obtain rfl : s.registry.current σ k = c := (CircuitRegistry.Touches.refl hc).current
    exact ⟨rfl, hc, hhalf, c', hc', hstate⟩
  · rcases h.circuits k hk with hsame | hnone
    · cases hc.symm.trans (hsame.symm.trans hc')
      exact absurd (hstate.symm.trans hhalf) hne
    · cases hnone.symm.trans hc'

theorem Tracked.governed_settle {i : Nat} {x : CircuitCall} {out : CircuitOutcome}
    (h : Tracked count resetTimeoutMs s) (helse : Elsewhere s s' x.key)
    (hset : Settled count s a s' i x out) (hown : s.settlesOwn i) :
    Governed resetTimeoutMs threshold s a s' := by
  refine ⟨fun y p hcalls => ?_, fun k hhalf hclosed => ?_, fun k hhalf hopen => ?_⟩
  · have hlen := congrArg length hcalls
    rw [hset.calls, length_set, length_append, length_singleton] at hlen
    omega
  · obtain ⟨rfl, hc, hhalf', c', hc', hclosed⟩ := helse.leaves σ hhalf hclosed nofun
    have hprobe := isProbe_of_settlesOwn hown hset.call hhalf
    obtain ⟨hout, henough⟩ := (hset.settles c' hc').closes hhalf' hclosed
    rw [((h.keys x.key).halfOpen _ hc hhalf').counted] at henough
    rw [hset.successes hprobe, hout]
    exact_mod_cast henough
  · obtain ⟨rfl, -, hhalf', c', hc', hopen⟩ := helse.leaves σ hhalf hopen nofun
    have hperiod := (isProbe_iff.mp (isProbe_of_settlesOwn hown hset.call hhalf)).1
    have hout := of_decide_eq_false ((hset.settles c' hc').opens hhalf' hopen)
    obtain ⟨err, t₁, t₂, t₃, rfl⟩ := hset.failed hout
    exact ⟨i, err, t₁, t₂, t₃, x, rfl, hset.call, rfl, hperiod⟩

theorem Tracked.governed (h : Tracked count resetTimeoutMs s) (hok : s.Probing a)
    (hstep : s.step σ a = some s') : Governed resetTimeoutMs threshold s a s' := by
  obtain ⟨key, helse, ⟨t₂, t, admitted, y₀, hent⟩ | ⟨i, x, out, rfl, hset⟩⟩ :=
    step_cases count h.live hstep
  · have h' := h.step hok hstep
    have hstays (k : JsString) (hhalf : s.stateOf k = some .halfOpen) {state : CircuitState}
        (hstate : s'.stateOf k = some state) : state = .halfOpen := by
      by_contra hne
      obtain ⟨rfl, -, hhalf, c', hc', hstate⟩ := helse.leaves σ hhalf hstate hne
      exact hne (hstate.symm.trans ((hent.entry c' hc').halfOpen hhalf))
    refine ⟨fun y p hcalls hp x hx hxk hxp => h'.alone hent hcalls hp hx hxk hxp,
      fun k hhalf hclosed => ?_, fun k hhalf hopen => ?_⟩
    · cases hstays k hhalf hclosed
    · cases hstays k hhalf hopen
  · exact h.governed_settle helse hset (hset.own hok)

theorem tracked_init {registry : CircuitRegistry D} (hempty : registry.circuits = .empty)
    (start : Int) :
    Tracked count registry.resetTimeoutMs (circuitMachine σ registry start).init where
  live k c hc := by
    change registry.circuits.get? k = some c at hc
    rw [hempty] at hc
    cases hc
  timeout := rfl
  keys k := by
    refine ⟨nofun, fun c hc => ?_⟩
    change registry.circuits.get? k = some c at hc
    rw [hempty] at hc
    cases hc

theorem governed_of_reach {registry : CircuitRegistry D} (count : ProbeCount σ threshold)
    (hempty : registry.circuits = .empty) {start : Int}
    (hreach : (circuitMachine σ registry start).Reach Probing s) (hok : s.Probing a)
    (hstep : (circuitMachine σ registry start).step s a = some s') :
    Governed registry.resetTimeoutMs threshold s a s' := by
  have htracked : Tracked count registry.resetTimeoutMs s :=
    hreach.invariant (tracked_init hempty start) fun _ h hok hstep => h.step hok hstep
  exact htracked.governed hok hstep

end Governing

end CircuitRun

open CircuitRun

/-- In every run in which each call that settles in a half-open circuit is the latest one that was
admitted in its half-open period: the probes of a period are admitted one after the other, enough of
their successes close the circuit, and only the failure of one of them opens it again. -/
theorem half_open_governed (start : Int) (a : CircuitAction) :
    (∀ (opts : CircuitBreakerOptions) (s s' : CircuitRun CountCircuitData),
      let m := circuitMachine (CircuitBreakerRegistry.strategy opts)
        (CircuitBreakerRegistry.create opts) start
      m.Reach Probing s → s.Probing a → m.step s a = some s' →
      Governed (opts.resetTimeoutMs.getD 10000) (opts.halfOpenSuccessThreshold.getD 1) s a s') ∧
    (∀ (opts : SlidingCircuitOptions) (s s' : CircuitRun SlidingCircuitData),
      let m := circuitMachine (SlidingCircuitBreakerRegistry.strategy opts)
        (SlidingCircuitBreakerRegistry.create opts) start
      m.Reach Probing s → s.Probing a → m.step s a = some s' →
      Governed (opts.resetTimeoutMs.getD 10000) (opts.halfOpenSuccessThreshold.getD 1) s a s') := by
  constructor
  · intro opts s s' m hreach hok hstep
    exact governed_of_reach (CircuitBreakerRegistry.probeCount opts) rfl hreach hok hstep
  · intro opts s s' m hreach hok hstep
    exact governed_of_reach (SlidingCircuitBreakerRegistry.probeCount opts) rfl hreach hok hstep

/-- Opens at the first failure and waits ten milliseconds. -/
def quickOptions : SlidingCircuitOptions where
  enabled := some true
  failureThreshold := some 1
  resetTimeoutMs := some 10
  minSampleSize := some 1

def quickCircuit (start : Int) : Machine (CircuitRun CountCircuitData) CircuitAction :=
  circuitMachine (CircuitBreakerRegistry.strategy quickOptions.toCircuitBreakerOptions)
    (CircuitBreakerRegistry.create quickOptions.toCircuitBreakerOptions) start

def quickSlidingCircuit (start : Int) : Machine (CircuitRun SlidingCircuitData) CircuitAction :=
  circuitMachine (SlidingCircuitBreakerRegistry.strategy quickOptions)
    (SlidingCircuitBreakerRegistry.create quickOptions) start

/-- The states of the circuit of the empty key around a success. -/
def aroundSuccess {D : Type} (m : Machine (CircuitRun D) CircuitAction) (call : Nat)
    (s : CircuitRun D) : Option CircuitState × Option (Option CircuitState × Nat) × Bool :=
  (s.stateOf [],
    (m.step s (.succeed call 11)).map fun s' => (s'.stateOf [], s'.successes []),
    decide (s.Probing (.succeed call 11)))

theorem reach_success {D : Type} (m : Machine (CircuitRun D) CircuitAction)
    (ok : CircuitRun D → CircuitAction → Prop) [∀ s a, Decidable (ok s a)]
    (actions : List CircuitAction) (n : Nat) (own : Bool)
    (h : (m.exec ok m.init actions).map (aroundSuccess m 1) =
      some (some .halfOpen, some (some .closed, n), own)) :
    ∃ s s', m.Reach ok s ∧ m.step s (.succeed 1 11) = some s' ∧ s.stateOf [] = some .halfOpen ∧
      s'.stateOf [] = some .closed ∧ s'.successes [] = n ∧
      decide (s.Probing (.succeed 1 11)) = own := by
  obtain ⟨s, hreach, h⟩ := Machine.Reach.observe m ok actions _ _ h
  obtain ⟨hhalf, hrest⟩ := Prod.mk.inj h
  obtain ⟨hmap, hown⟩ := Prod.mk.inj hrest
  obtain ⟨s', hstep, hs'⟩ := Option.map_eq_some_iff.mp hmap
  obtain ⟨hclosed, hn⟩ := Prod.mk.inj hs'
  exact ⟨s, s', hreach, hstep, hhalf, hclosed, hn, hown⟩

theorem not_governed {D : Type} {s s' : CircuitRun D} {a : CircuitAction}
    (hhalf : s.stateOf [] = some .halfOpen) (hclosed : s'.stateOf [] = some .closed)
    (hzero : s'.successes [] = 0) : ¬ Governed 10 1 s a s' := by
  intro hgov
  have henough := hgov.closes [] hhalf hclosed
  omega

/-- A call fails, and the probe after it succeeds. -/
def probeRun : List CircuitAction :=
  [.before [] 0 0 0, .fail 0 .other 0 0 0, .before [] 10 10 10]

theorem half_open_governed_probe :
    (∃ s s', (quickCircuit 0).Reach Probing s ∧ (quickCircuit 0).step s (.succeed 1 11) = some s' ∧
      s.stateOf [] = some .halfOpen ∧ s'.stateOf [] = some .closed ∧
      Governed 10 1 s (.succeed 1 11) s') ∧
    (∃ s s', (quickSlidingCircuit 0).Reach Probing s ∧
      (quickSlidingCircuit 0).step s (.succeed 1 11) = some s' ∧
      s.stateOf [] = some .halfOpen ∧ s'.stateOf [] = some .closed ∧
      Governed 10 1 s (.succeed 1 11) s') := by
  constructor
  · obtain ⟨s, s', hreach, hstep, hhalf, hclosed, -, hok⟩ :=
      reach_success (quickCircuit 0) Probing probeRun 1 true (by decide +kernel)
    exact ⟨s, s', hreach, hstep, hhalf, hclosed,
      (half_open_governed 0 _).1 _ s s' hreach (of_decide_eq_true hok) hstep⟩
  · obtain ⟨s, s', hreach, hstep, hhalf, hclosed, -, hok⟩ :=
      reach_success (quickSlidingCircuit 0) Probing probeRun 1 true (by decide +kernel)
    exact ⟨s, s', hreach, hstep, hhalf, hclosed,
      (half_open_governed 0 _).2 _ s s' hreach (of_decide_eq_true hok) hstep⟩

/-- Two calls begin while the circuit is closed, and the first one fails. The second one is still
under way when the probe begins. -/
def staleRun : List CircuitAction :=
  [.before [] 0 0 0, .before [] 0 0 0, .fail 0 .other 0 0 0, .before [] 10 10 10]

/-- The call from before the outage closes the half-open circuit, and no probe has succeeded. -/
theorem stale_success_closes :
    (∃ s s', (quickCircuit 0).Reach Machine.free s ∧
      (quickCircuit 0).step s (.succeed 1 11) = some s' ∧ s.stateOf [] = some .halfOpen ∧
      s'.stateOf [] = some .closed ∧ s'.successes [] = 0 ∧
      ¬ Governed 10 1 s (.succeed 1 11) s') ∧
    (∃ s s', (quickSlidingCircuit 0).Reach Machine.free s ∧
      (quickSlidingCircuit 0).step s (.succeed 1 11) = some s' ∧ s.stateOf [] = some .halfOpen ∧
      s'.stateOf [] = some .closed ∧ s'.successes [] = 0 ∧
      ¬ Governed 10 1 s (.succeed 1 11) s') := by
  constructor
  · obtain ⟨s, s', hreach, hstep, hhalf, hclosed, hzero, -⟩ :=
      reach_success (quickCircuit 0) Machine.free staleRun 0 false (by decide +kernel)
    exact ⟨s, s', hreach, hstep, hhalf, hclosed, hzero, not_governed hhalf hclosed hzero⟩
  · obtain ⟨s, s', hreach, hstep, hhalf, hclosed, hzero, -⟩ :=
      reach_success (quickSlidingCircuit 0) Machine.free staleRun 0 false (by decide +kernel)
    exact ⟨s, s', hreach, hstep, hhalf, hclosed, hzero, not_governed hhalf hclosed hzero⟩

end NevoMessaging
