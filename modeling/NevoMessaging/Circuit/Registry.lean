import Mathlib.Data.Rat.Defs
import Mathlib.Algebra.Order.Ring.Rat
import NevoMessaging.Lib.JsString
import NevoMessaging.Lib.Machine
import NevoMessaging.Lib.Table

/-!
# Circuit breakers

`CircuitRegistryBase` has one circuit per key, which is closed, open or half-open. What counts as
too many failures is left to a subclass: `CircuitBreakerRegistry` counts failures in a row, and
`SlidingCircuitBreakerRegistry` compares the rate of errors in a sliding window with a threshold. A
subclass is a `CircuitStrategy` here.

`Date.now()` is read several times in one method; the times are arguments, in the order of the
reads. A half-open circuit that is evicted because there are too many keys is gone, and the next
circuit of its key is a new one.
-/

namespace NevoMessaging

inductive CircuitState
  | closed
  | «open»
  | halfOpen
deriving DecidableEq

structure BaseCircuitData where
  state : CircuitState := .closed
  openedAt : Int := 0
  halfOpenInFlight : Bool := false
  halfOpenProbeAt : Int := 0

/-- An entry of the map `circuits`; `own` is what the subclass keeps. -/
structure Circuit (D : Type) extends BaseCircuitData where
  key : JsString
  own : D

/-- The abstract methods. -/
structure CircuitStrategy (D : Type) where
  newCircuit : D
  recordOutcome : CircuitState → D → Bool → Int → D
  shouldOpen : D → Int → Bool
  onEnterHalfOpen : D → D
  onProbeSuccess : D → D × Bool
  resetOnClose : D → D

structure CircuitRegistry (D : Type) where
  enabled : Bool
  resetTimeoutMs : Int
  maxKeys : Int
  circuits : Table (Circuit.key (D := D)) := .empty

inductive CircuitError
  | validationFailed
  | unauthorized
  | other
deriving DecidableEq

namespace CircuitRegistry

variable {D : Type} (σ : CircuitStrategy D)

/-- The first closed circuit goes, or the oldest one if there is none. -/
def evictIfFull (r : CircuitRegistry D) : CircuitRegistry D :=
  if (r.circuits.rows.length : Int) < r.maxKeys then r
  else
    match r.circuits.rows.find? (·.state = .closed) <|> r.circuits.rows.head? with
    | some v => { r with circuits := r.circuits.filter (·.key ≠ v.key) }
    | none => r

def getOrCreate (r : CircuitRegistry D) (key : JsString) : CircuitRegistry D × Circuit D :=
  match r.circuits.get? key with
  | some c => (r, c)
  | none =>
    let c : Circuit D := { key, own := σ.newCircuit }
    let r := r.evictIfFull
    ({ r with circuits := r.circuits.set c }, c)

/-- The circuit is changed in place. -/
def store (r : CircuitRegistry D) (c : Circuit D) : CircuitRegistry D :=
  { r with circuits := r.circuits.set c }

/-- An open circuit becomes half-open when its time has come. -/
def reopen (resetTimeoutMs : Int) (c : Circuit D) (now : Int) : Option (Circuit D) :=
  if c.state = .open then
    if resetTimeoutMs ≤ now - c.openedAt then
      some { c with
        state := .halfOpen, own := σ.onEnterHalfOpen c.own, halfOpenInFlight := false }
    else none
  else some c

/-- The call becomes the probe of a half-open circuit. -/
def probe (resetTimeoutMs : Int) (c : Circuit D) (now later : Int) : Option (Circuit D) :=
  if c.state = .halfOpen then
    if c.halfOpenInFlight ∧ now - c.halfOpenProbeAt < resetTimeoutMs then none
    else some { c with halfOpenInFlight := true, halfOpenProbeAt := later }
  else some c

/-- Whether the call is admitted; otherwise `CircuitOpenError` is thrown. -/
def before (r : CircuitRegistry D) (key : JsString) (t₁ t₂ t₃ : Int) : Bool × CircuitRegistry D :=
  if r.enabled then
    let (r, c) := r.getOrCreate σ key
    match reopen σ r.resetTimeoutMs c t₁ with
    | none => (false, r)
    | some c =>
      match probe r.resetTimeoutMs c t₂ t₃ with
      | none => (false, r.store c)
      | some c => (true, r.store c)
  else (true, r)

def onSuccess (r : CircuitRegistry D) (key : JsString) (now : Int) : CircuitRegistry D :=
  if r.enabled then
    let (r, c) := r.getOrCreate σ key
    let c := { c with own := σ.recordOutcome c.state c.own true now }
    if c.state = .halfOpen then
      let (own, enough) := σ.onProbeSuccess c.own
      if enough then
        r.store { c with halfOpenInFlight := false, state := .closed, own := σ.resetOnClose own }
      else r.store { c with halfOpenInFlight := false, own }
    else r.store c
  else r

def onFailure (r : CircuitRegistry D) (key : JsString) (err : CircuitError) (t₁ t₂ t₃ : Int) :
    CircuitRegistry D :=
  if r.enabled then
    if err ≠ .other then
      match r.circuits.get? key with
      | some c => if c.state = .halfOpen then r.store { c with halfOpenInFlight := false } else r
      | none => r
    else
      let (r, c) := r.getOrCreate σ key
      let c := { c with own := σ.recordOutcome c.state c.own false t₁ }
      if c.state = .halfOpen then
        r.store { c with halfOpenInFlight := false, state := .open, openedAt := t₃ }
      else if c.state = .closed ∧ σ.shouldOpen c.own t₂ then
        r.store { c with state := .open, openedAt := t₃ }
      else r.store c
  else r

end CircuitRegistry

/-! ## The two registries -/

structure CircuitBreakerOptions where
  enabled : Option Bool := none
  failureThreshold : Option Int := none
  resetTimeoutMs : Option Int := none
  halfOpenSuccessThreshold : Option Int := none
  maxKeys : Option Int := none

structure CountCircuitData where
  failures : Nat := 0
  successes : Nat := 0

namespace CircuitBreakerRegistry

def strategy (opts : CircuitBreakerOptions) : CircuitStrategy CountCircuitData where
  newCircuit := {}
  recordOutcome state d ok _ :=
    if ok then if state = .closed then { d with failures := 0 } else d
    else { d with failures := d.failures + 1 }
  shouldOpen d _ := opts.failureThreshold.getD 5 ≤ d.failures
  onEnterHalfOpen d := { d with successes := 0 }
  onProbeSuccess d :=
    let d := { d with successes := d.successes + 1 }
    (d, opts.halfOpenSuccessThreshold.getD 1 ≤ d.successes)
  resetOnClose _ := {}

def create (opts : CircuitBreakerOptions) : CircuitRegistry CountCircuitData where
  enabled := opts.enabled = some true
  resetTimeoutMs := opts.resetTimeoutMs.getD 10000
  maxKeys := opts.maxKeys.getD 10000

end CircuitBreakerRegistry

structure SlidingCircuitOptions extends CircuitBreakerOptions where
  windowMs : Option Int := none
  bucketMs : Option Int := none
  errorRateThreshold : Option ℚ := none
  minSampleSize : Option Int := none

structure Bucket where
  startedAt : Int
  success : Nat := 0
  failure : Nat := 0

structure SlidingCircuitData where
  buckets : List Bucket := []
  halfOpenSuccesses : Nat := 0

namespace SlidingCircuitBreakerRegistry

def Bucket.record (b : Bucket) (ok : Bool) : Bucket :=
  if ok then { b with success := b.success + 1 } else { b with failure := b.failure + 1 }

/-- The outcome goes into the last bucket if it is young enough, else into a new one. -/
def record (windowMs bucketMs : Int) (buckets : List Bucket) (ok : Bool) (now : Int) :
    List Bucket :=
  match buckets.getLast? with
  | some last =>
    if now - last.startedAt < bucketMs then buckets.dropLast ++ [Bucket.record last ok]
    else (buckets ++ [Bucket.record { startedAt := now } ok]).dropWhile
      (·.startedAt < now - windowMs)
  | none => [Bucket.record { startedAt := now } ok].dropWhile (·.startedAt < now - windowMs)

/-- Successes and failures of the window. -/
def aggregate (windowMs : Int) (buckets : List Bucket) (now : Int) : Nat × Nat :=
  (buckets.filter (now - windowMs ≤ ·.startedAt)).foldl
    (fun (success, failure) b => (success + b.success, failure + b.failure)) (0, 0)

def rate (success failure : Nat) : ℚ :=
  if 0 < success + failure then failure / (success + failure) else 0

def strategy (opts : SlidingCircuitOptions) : CircuitStrategy SlidingCircuitData where
  newCircuit := {}
  recordOutcome _ d ok now :=
    { d with
      buckets := record (opts.windowMs.getD 10000) (opts.bucketMs.getD 1000) d.buckets ok now }
  shouldOpen d now :=
    let (success, failure) := aggregate (opts.windowMs.getD 10000) d.buckets now
    opts.minSampleSize.getD 20 ≤ (success + failure : Nat) ∧
      opts.errorRateThreshold.getD (1 / 2) ≤ rate success failure
  onEnterHalfOpen d := { d with halfOpenSuccesses := 0 }
  onProbeSuccess d :=
    let d := { d with halfOpenSuccesses := d.halfOpenSuccesses + 1 }
    (d, opts.halfOpenSuccessThreshold.getD 1 ≤ d.halfOpenSuccesses)
  resetOnClose _ := {}

def create (opts : SlidingCircuitOptions) : CircuitRegistry SlidingCircuitData where
  enabled := opts.enabled = some true
  resetTimeoutMs := opts.resetTimeoutMs.getD 10000
  maxKeys := opts.maxKeys.getD 10000

end SlidingCircuitBreakerRegistry

end NevoMessaging
