import NevoMessaging.Circuit.Registry

/-!
# What the methods do to a circuit

`before`, `onSuccess` and `onFailure` change the circuit of their key, and what they do to it
depends on that circuit only; `Circuit.apply` is this part of the methods. A key that has no circuit
behaves as one with a new circuit. A new circuit may push another one out of the map; the circuits
of all other keys stay as they are.

Results:
1. `apply_spec`: a method of the registry applies to the circuit of its key and leaves the others.
2. `entry_before`: what becomes of a call that begins.
3. `settles_onSuccess`, `settles_onFailure`: what becomes of a half-open circuit.
-/

namespace NevoMessaging

inductive CircuitOp
  | before (t₁ t₂ t₃ : Int)
  | onSuccess (now : Int)
  | onFailure (err : CircuitError) (t₁ t₂ t₃ : Int)
deriving DecidableEq

/-! ## One circuit -/

/-- What `before` can do to the circuit of its key. -/
inductive CircuitRegistry.Entry {D : Type} (σ : CircuitStrategy D) (resetTimeoutMs t₂ t₃ : Int)
    (c : Circuit D) : Bool → Circuit D → Prop
  | refused : Entry σ resetTimeoutMs t₂ t₃ c false c
  | closed : c.state = .closed → Entry σ resetTimeoutMs t₂ t₃ c true c
  | probe : c.state = .halfOpen →
      (c.halfOpenInFlight → resetTimeoutMs ≤ t₂ - c.halfOpenProbeAt) →
      Entry σ resetTimeoutMs t₂ t₃ c true
        { c with halfOpenInFlight := true, halfOpenProbeAt := t₃ }
  | reopened : c.state = .open → Entry σ resetTimeoutMs t₂ t₃ c true
      { c with
        state := .halfOpen, own := σ.onEnterHalfOpen c.own
        halfOpenInFlight := true, halfOpenProbeAt := t₃ }

namespace Circuit

variable {D : Type} (σ : CircuitStrategy D) (resetTimeoutMs : Int) (c : Circuit D)

def before (t₁ t₂ t₃ : Int) : Bool × Circuit D :=
  match CircuitRegistry.reopen σ resetTimeoutMs c t₁ with
  | none => (false, c)
  | some c =>
    match CircuitRegistry.probe resetTimeoutMs c t₂ t₃ with
    | none => (false, c)
    | some c => (true, c)

def onSuccess (now : Int) : Circuit D :=
  let c := { c with own := σ.recordOutcome c.state c.own true now }
  if c.state = .halfOpen then
    let (own, enough) := σ.onProbeSuccess c.own
    if enough then
      { c with halfOpenInFlight := false, state := .closed, own := σ.resetOnClose own }
    else { c with halfOpenInFlight := false, own }
  else c

def onFailure (err : CircuitError) (t₁ t₂ t₃ : Int) : Circuit D :=
  if err ≠ .other then
    if c.state = .halfOpen then { c with halfOpenInFlight := false } else c
  else
    let c := { c with own := σ.recordOutcome c.state c.own false t₁ }
    if c.state = .halfOpen then
      { c with halfOpenInFlight := false, state := .open, openedAt := t₃ }
    else if c.state = .closed ∧ σ.shouldOpen c.own t₂ then
      { c with state := .open, openedAt := t₃ }
    else c

def apply : CircuitOp → Circuit D
  | .before t₁ t₂ t₃ => (c.before σ resetTimeoutMs t₁ t₂ t₃).2
  | .onSuccess now => c.onSuccess σ now
  | .onFailure err t₁ t₂ t₃ => c.onFailure σ err t₁ t₂ t₃

theorem entry_before (t₁ t₂ t₃ : Int) :
    CircuitRegistry.Entry σ resetTimeoutMs t₂ t₃ c (c.before σ resetTimeoutMs t₁ t₂ t₃).1
      (c.before σ resetTimeoutMs t₁ t₂ t₃).2 := by
  unfold before CircuitRegistry.reopen
  cases hstate : c.state with
  | closed =>
    simp only [reduceCtorEq, ↓reduceIte, CircuitRegistry.probe, hstate]
    exact .closed hstate
  | halfOpen =>
    simp only [reduceCtorEq, ↓reduceIte]
    unfold CircuitRegistry.probe
    rw [if_pos hstate]
    by_cases hbusy : c.halfOpenInFlight ∧ t₂ - c.halfOpenProbeAt < resetTimeoutMs
    · rw [if_pos hbusy]
      exact .refused
    · rw [if_neg hbusy]
      exact .probe hstate fun hflight => not_lt.mp fun hlt => hbusy ⟨hflight, hlt⟩
  | «open» =>
    by_cases htime : resetTimeoutMs ≤ t₁ - c.openedAt
    · simp only [↓reduceIte, if_pos htime, CircuitRegistry.probe, Bool.false_eq_true, false_and]
      exact .reopened hstate
    · simp only [↓reduceIte, if_neg htime]
      exact .refused

theorem before_cases (t₁ t₂ t₃ : Int) :
    (c.before σ resetTimeoutMs t₁ t₂ t₃).2 = c ∨
      c.state ≠ .closed ∧ (c.before σ resetTimeoutMs t₁ t₂ t₃).2.state = .halfOpen ∧
        ((c.before σ resetTimeoutMs t₁ t₂ t₃).2.own = c.own ∨
          (c.before σ resetTimeoutMs t₁ t₂ t₃).2.own = σ.onEnterHalfOpen c.own) := by
  have hentry := c.entry_before σ resetTimeoutMs t₁ t₂ t₃
  generalize c.before σ resetTimeoutMs t₁ t₂ t₃ = out at hentry ⊢
  obtain ⟨admitted, c'⟩ := out
  cases hentry with
  | refused | closed _ => exact .inl rfl
  | probe hhalf _ => exact .inr ⟨by simp [hhalf], hhalf, .inl rfl⟩
  | reopened hopen => exact .inr ⟨by simp [hopen], rfl, .inr rfl⟩

theorem key_before (t₁ t₂ t₃ : Int) : (c.before σ resetTimeoutMs t₁ t₂ t₃).2.key = c.key := by
  have hentry := c.entry_before σ resetTimeoutMs t₁ t₂ t₃
  generalize c.before σ resetTimeoutMs t₁ t₂ t₃ = out at hentry ⊢
  obtain ⟨admitted, c'⟩ := out
  cases hentry <;> rfl

theorem key_onSuccess (now : Int) : (c.onSuccess σ now).key = c.key := by
  unfold onSuccess
  dsimp only
  split_ifs <;> rfl

end Circuit

/-! ## The circuit of a key -/

namespace CircuitRegistry

variable {D : Type} {σ : CircuitStrategy D} {r r' : CircuitRegistry D} {key k : JsString}
  {c c₀ : Circuit D}

/-- Only the circuit of one key is changed, and others may be evicted. -/
structure Touches (r r' : CircuitRegistry D) (key : JsString) (c : Circuit D) : Prop where
  enabled : r'.enabled = r.enabled
  resetTimeoutMs : r'.resetTimeoutMs = r.resetTimeoutMs
  self : r'.circuits.get? key = some c
  others : ∀ k ≠ key, r'.circuits.get? k = r.circuits.get? k ∨ r'.circuits.get? k = none

theorem get?_evictIfFull (r : CircuitRegistry D) (k : JsString) :
    r.evictIfFull.circuits.get? k = r.circuits.get? k ∨ r.evictIfFull.circuits.get? k = none := by
  unfold evictIfFull
  split
  · exact .inl rfl
  · split
    next v _ => exact Table.get?_filter r.circuits _ k
    · exact .inl rfl

theorem settings_evictIfFull (r : CircuitRegistry D) :
    r.evictIfFull.enabled = r.enabled ∧ r.evictIfFull.resetTimeoutMs = r.resetTimeoutMs := by
  unfold evictIfFull
  split
  · exact ⟨rfl, rfl⟩
  · split <;> exact ⟨rfl, rfl⟩

theorem Touches.store (h : Touches r r' key c₀) (hkey : c.key = key) :
    Touches r (r'.store c) key c := by
  subst hkey
  refine ⟨h.enabled, h.resetTimeoutMs, Table.get?_set_self _ c, fun k hk => ?_⟩
  have hsame : (r'.store c).circuits.get? k = r'.circuits.get? k := Table.get?_set_ne _ hk
  rw [hsame]
  exact h.others k hk

theorem Touches.refl (h : r.circuits.get? key = some c) : Touches r r key c :=
  ⟨rfl, rfl, h, fun _ _ => .inl rfl⟩

variable (σ) in
def apply (r : CircuitRegistry D) (key : JsString) : CircuitOp → CircuitRegistry D
  | .before t₁ t₂ t₃ => (r.before σ key t₁ t₂ t₃).2
  | .onSuccess now => r.onSuccess σ key now
  | .onFailure err t₁ t₂ t₃ => r.onFailure σ key err t₁ t₂ t₃

variable (σ) in
/-- The circuit of the key, a new one if there is none. -/
def current (r : CircuitRegistry D) (key : JsString) : Circuit D :=
  (r.circuits.get? key).getD { key, own := σ.newCircuit }

theorem key_current : (r.current σ key).key = key := by
  unfold current
  cases h : r.circuits.get? key with
  | none => rfl
  | some c => exact (Table.get?_eq_some.mp h).2

theorem Touches.current (h : Touches r r' key c) : r'.current σ key = c := by
  rw [CircuitRegistry.current, h.self]
  rfl

variable (σ r key) in
theorem get?_current : r.circuits.get? key = some (r.current σ key) ∨
    r.circuits.get? key = none ∧ (r.current σ key).state = .closed := by
  unfold current
  cases r.circuits.get? key with
  | none => exact .inr ⟨rfl, rfl⟩
  | some c => exact .inl rfl

variable (σ r key) in
theorem touches_getOrCreate :
    Touches r (r.getOrCreate σ key).1 key (r.current σ key) ∧
      (r.getOrCreate σ key).2 = r.current σ key := by
  unfold getOrCreate CircuitRegistry.current
  cases hc : r.circuits.get? key with
  | some c => exact ⟨.refl hc, rfl⟩
  | none =>
    obtain ⟨henabled, hreset⟩ := settings_evictIfFull r
    refine ⟨⟨henabled, hreset, Table.get?_set_self _ _, fun k hk => ?_⟩, rfl⟩
    have hsame := Table.get?_set_ne r.evictIfFull.circuits
      (r := ({ key := key, own := σ.newCircuit } : Circuit D)) (k := k) hk
    rw [hsame]
    exact get?_evictIfFull r k

theorem before_eq (henabled : r.enabled) (t₁ t₂ t₃ : Int) :
    (r.before σ key t₁ t₂ t₃).1 = ((r.current σ key).before σ r.resetTimeoutMs t₁ t₂ t₃).1 ∧
      Touches r (r.before σ key t₁ t₂ t₃).2 key
        ((r.current σ key).before σ r.resetTimeoutMs t₁ t₂ t₃).2 := by
  obtain ⟨htouch, hcurrent⟩ := touches_getOrCreate σ r key
  have hkey := Circuit.key_before σ r.resetTimeoutMs (r.current σ key) t₁ t₂ t₃
  rw [key_current] at hkey
  unfold before
  unfold Circuit.before at hkey ⊢
  rw [if_pos henabled]
  dsimp only
  rw [hcurrent, htouch.resetTimeoutMs]
  cases hreopen : reopen σ r.resetTimeoutMs (r.current σ key) t₁ with
  | none => exact ⟨rfl, htouch⟩
  | some c =>
    rw [hreopen] at hkey
    dsimp only at hkey ⊢
    cases hprobe : probe r.resetTimeoutMs c t₂ t₃ <;> rw [hprobe] at hkey <;>
      exact ⟨rfl, htouch.store hkey⟩

theorem touches_onSuccess (henabled : r.enabled) (now : Int) :
    Touches r (r.onSuccess σ key now) key ((r.current σ key).onSuccess σ now) := by
  obtain ⟨htouch, hcurrent⟩ := touches_getOrCreate σ r key
  have hkey := Circuit.key_onSuccess σ (r.current σ key) now
  rw [key_current] at hkey
  unfold onSuccess
  unfold Circuit.onSuccess at hkey ⊢
  rw [if_pos henabled]
  dsimp only at hkey ⊢
  rw [hcurrent]
  split_ifs <;> exact htouch.store key_current

theorem touches_onFailure (henabled : r.enabled) (err : CircuitError) (t₁ t₂ t₃ : Int) :
    Touches r (r.onFailure σ key err t₁ t₂ t₃) key ((r.current σ key).onFailure σ err t₁ t₂ t₃) ∨
      r.circuits.get? key = none ∧ r.onFailure σ key err t₁ t₂ t₃ = r ∧
        (r.current σ key).onFailure σ err t₁ t₂ t₃ = r.current σ key := by
  unfold onFailure Circuit.onFailure
  rw [if_pos henabled]
  by_cases herr : err ≠ .other
  · rw [if_pos herr, if_pos herr]
    cases hc : r.circuits.get? key with
    | none =>
      refine .inr ⟨rfl, rfl, if_neg ?_⟩
      rw [CircuitRegistry.current, hc]
      simp
    | some c =>
      have hcurrent : r.current σ key = c := by rw [CircuitRegistry.current, hc]; rfl
      rw [hcurrent]
      dsimp only
      split_ifs
      · exact .inl ((Touches.refl hc).store (Table.get?_eq_some.mp hc).2)
      · exact .inl (.refl hc)
  · obtain ⟨htouch, hcurrent⟩ := touches_getOrCreate σ r key
    rw [if_neg herr, if_neg herr]
    dsimp only
    rw [hcurrent]
    left
    split_ifs <;> exact htouch.store key_current

variable (key) in
theorem apply_spec (henabled : r.enabled) (op : CircuitOp) :
    Touches r (r.apply σ key op) key ((r.current σ key).apply σ r.resetTimeoutMs op) ∨
      r.circuits.get? key = none ∧ r.apply σ key op = r ∧
        (r.current σ key).apply σ r.resetTimeoutMs op = r.current σ key := by
  cases op with
  | before t₁ t₂ t₃ => exact .inl (before_eq henabled t₁ t₂ t₃).2
  | onSuccess now => exact .inl (touches_onSuccess henabled now)
  | onFailure err t₁ t₂ t₃ => exact touches_onFailure henabled err t₁ t₂ t₃

theorem apply_of_disabled (hdisabled : ¬ r.enabled) (op : CircuitOp) : r.apply σ key op = r := by
  cases op with
  | before t₁ t₂ t₃ => simp only [apply, before, if_neg hdisabled]
  | onSuccess now => simp only [apply, onSuccess, if_neg hdisabled]
  | onFailure err t₁ t₂ t₃ => simp only [apply, onFailure, if_neg hdisabled]

variable (σ r key) in
theorem settings_apply (op : CircuitOp) :
    (r.apply σ key op).enabled = r.enabled ∧
      (r.apply σ key op).resetTimeoutMs = r.resetTimeoutMs := by
  by_cases henabled : r.enabled
  · rcases apply_spec (σ := σ) key henabled op with htouch | ⟨-, hsame, -⟩
    · exact ⟨htouch.enabled, htouch.resetTimeoutMs⟩
    · rw [hsame]
      exact ⟨rfl, rfl⟩
  · rw [apply_of_disabled henabled]
    exact ⟨rfl, rfl⟩

theorem others_apply (hk : k ≠ key) (op : CircuitOp) :
    (r.apply σ key op).circuits.get? k = r.circuits.get? k ∨
      (r.apply σ key op).circuits.get? k = none := by
  by_cases henabled : r.enabled
  · rcases apply_spec (σ := σ) key henabled op with htouch | ⟨-, hsame, -⟩
    · exact htouch.others k hk
    · exact .inl (by rw [hsame])
  · exact .inl (by rw [apply_of_disabled henabled])

/-- A registry that is not enabled has no circuits. -/
def Live (r : CircuitRegistry D) : Prop := ∀ k c, r.circuits.get? k = some c → r.enabled

theorem Live.apply (h : r.Live) (op : CircuitOp) : (r.apply σ key op).Live := by
  intro k c hc
  by_cases hon : r.enabled
  · rw [(settings_apply σ r key op).1]
    exact hon
  · rw [apply_of_disabled hon] at hc ⊢
    exact h k c hc

theorem current_apply (henabled : r.enabled) (op : CircuitOp) :
    (r.apply σ key op).current σ key = (r.current σ key).apply σ r.resetTimeoutMs op := by
  rcases apply_spec key henabled op with htouch | ⟨-, hsame, hcurrent⟩
  · exact htouch.current
  · rw [hsame, hcurrent]

theorem Live.get?_apply (h : r.Live) (op : CircuitOp)
    (hc : (r.apply σ key op).circuits.get? key = some c) :
    r.enabled ∧ c = (r.current σ key).apply σ r.resetTimeoutMs op := by
  have hon : r.enabled := (settings_apply σ r key op).1 ▸ h.apply op key c hc
  exact ⟨hon, (Touches.refl hc).current.symm.trans (current_apply hon op)⟩

theorem Live.entry (h : r.Live) {t₁ t₂ t₃ : Int}
    (hc : (r.before σ key t₁ t₂ t₃).2.circuits.get? key = some c) :
    Entry σ r.resetTimeoutMs t₂ t₃ (r.current σ key) (r.before σ key t₁ t₂ t₃).1 c := by
  obtain ⟨hon, rfl⟩ := h.get?_apply (.before t₁ t₂ t₃) hc
  rw [(before_eq hon t₁ t₂ t₃).1]
  exact (r.current σ key).entry_before σ r.resetTimeoutMs t₁ t₂ t₃

theorem Entry.halfOpen {resetTimeoutMs t₂ t₃ : Int} {admitted : Bool}
    (h : Entry σ resetTimeoutMs t₂ t₃ c₀ admitted c) (hhalf : c₀.state = .halfOpen) :
    c.state = .halfOpen := by
  cases h with
  | refused | closed _ | probe _ _ => exact hhalf
  | reopened _ => rfl

end CircuitRegistry

/-! ## The end of a call -/

/-- A subclass counts the successes of a half-open circuit and closes it at a threshold. -/
structure ProbeCount {D : Type} (σ : CircuitStrategy D) (threshold : Int) where
  probes : D → Nat
  enter : ∀ d, probes (σ.onEnterHalfOpen d) = 0
  record : ∀ state d ok now, probes (σ.recordOutcome state d ok now) = probes d
  success : ∀ d, probes (σ.onProbeSuccess d).1 = probes d + 1
  enough : ∀ d, (σ.onProbeSuccess d).2 = decide (threshold ≤ probes d + 1)

def CircuitBreakerRegistry.probeCount (opts : CircuitBreakerOptions) :
    ProbeCount (strategy opts) (opts.halfOpenSuccessThreshold.getD 1) where
  probes d := d.successes
  enter _ := rfl
  record state d ok now := by
    unfold strategy
    dsimp only
    split
    · split <;> rfl
    · rfl
  success _ := rfl
  enough _ := rfl

def SlidingCircuitBreakerRegistry.probeCount (opts : SlidingCircuitOptions) :
    ProbeCount (strategy opts) (opts.halfOpenSuccessThreshold.getD 1) where
  probes d := d.halfOpenSuccesses
  enter _ := rfl
  record _ _ _ _ := rfl
  success _ := rfl
  enough _ := rfl

namespace CircuitRegistry

variable {D : Type} {σ : CircuitStrategy D} {threshold : Int} {count : ProbeCount σ threshold}

/-- What the end of a call does to the circuit of its key; `ok` says that it was a success. -/
structure Settles (count : ProbeCount σ threshold) (ok : Bool) (c c' : Circuit D) : Prop where
  stays : c'.state = .halfOpen → c.state = .halfOpen ∧ c'.halfOpenInFlight = false ∧
    c'.halfOpenProbeAt = c.halfOpenProbeAt ∧ count.probes c'.own = count.probes c.own + ok.toNat
  closes : c.state = .halfOpen → c'.state = .closed → ok ∧ threshold ≤ count.probes c.own + 1
  opens : c.state = .halfOpen → c'.state = .open → ok = false

theorem settles_onSuccess (c : Circuit D) (now : Int) :
    Settles count true c (c.onSuccess σ now) := by
  have hsuccess := count.success (σ.recordOutcome c.state c.own true now)
  have henough := count.enough (σ.recordOutcome c.state c.own true now)
  rw [count.record] at hsuccess henough
  unfold Circuit.onSuccess
  dsimp only
  split_ifs with hhalf hyes
  · rw [hyes] at henough
    exact ⟨nofun, fun _ _ => ⟨rfl, of_decide_eq_true henough.symm⟩, fun _ => nofun⟩
  · refine ⟨fun _ => ⟨hhalf, rfl, rfl, hsuccess⟩, fun _ hclosed => ?_, fun _ hopen => ?_⟩
    · cases hhalf.symm.trans hclosed
    · cases hhalf.symm.trans hopen
  · exact ⟨fun h => absurd h hhalf, fun h => absurd h hhalf, fun h => absurd h hhalf⟩

theorem settles_onFailure (c : Circuit D) (err : CircuitError) (t₁ t₂ t₃ : Int) :
    Settles count false c (c.onFailure σ err t₁ t₂ t₃) := by
  unfold Circuit.onFailure
  dsimp only
  split_ifs with herr hhalf hhalf
  · refine ⟨fun _ => ⟨hhalf, rfl, rfl, rfl⟩, fun _ hclosed => ?_, fun _ _ => rfl⟩
    cases hhalf.symm.trans hclosed
  · exact ⟨fun h => absurd h hhalf, fun h => absurd h hhalf, fun _ _ => rfl⟩
  · exact ⟨nofun, fun _ => nofun, fun _ _ => rfl⟩
  · exact ⟨nofun, fun _ => nofun, fun _ _ => rfl⟩
  · exact ⟨fun h => absurd h hhalf, fun h => absurd h hhalf, fun _ _ => rfl⟩

end CircuitRegistry

end NevoMessaging
