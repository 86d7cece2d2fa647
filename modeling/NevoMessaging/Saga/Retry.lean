import Mathlib.Data.List.Basic

/-!
# Saga steps and their retries

A step is given by its settings and by what its functions do: `execute ctx n` is the `n`-th call
in a row, made with the context `ctx`. It leaves a context behind and settles after some time.

`runWithRetry` calls a function until one call resolves, as often as the settings allow. Its
result lists the outcomes of all calls, so what a caller does with the last error and what was
called can both be stated. The pauses between two calls (`computeBackoff`) only take time and are
left out.

A function may also throw at once, without a promise. Under a timeout the listener for the abort
then stays, and when the time is over it rejects a promise that nobody handles: this ends the
process, whatever the saga does at that time.
-/

namespace NevoMessaging

/-- A thrown value, as far as the saga looks at it: an `Error` with its message, a plain object
with a `message`, or any other value with its truthiness and its text. Some values have no text,
as `String(value)` throws for them. -/
inductive Thrown
  | error (message : String)
  | record (message : String)
  | value (truthy : Bool) (text : Option String)
deriving DecidableEq, Repr

namespace Thrown

def undefined : Thrown := .value false (some "undefined")

def string (s : String) : Thrown := .value (s ≠ "") (some s)

/-- What `String(value)` throws for an object without a prototype. -/
def typeError : Thrown := .error "Cannot convert object to primitive value"

def truthy : Thrown → Bool
  | .error _ | .record _ => true
  | .value truthy _ => truthy

/-- `err instanceof Error ? err.message : String(err)`, unless that throws. -/
def messageOf : Thrown → Option String
  | .error message => some message
  | .record _ => some "[object Object]"
  | .value _ text => text

end Thrown

inductive Outcome
  | resolved
  | rejected (err : Thrown)
deriving DecidableEq, Repr

/-- A call of a step's function: what it throws at once, or how its promise settles and after how
many milliseconds. -/
structure Call where
  outcome : Outcome
  after : Nat := 0
  thrown : Option Thrown := none

/-- The outcome of the call, and the listener that it leaves, given by its timeout. A call that
takes too long counts as rejected. The work behind it is not stopped, but what it does later is not
seen by the saga. -/
def withTimeout (timeoutMs : Option Int) (call : Call) : Outcome × List Int :=
  let t := timeoutMs.getD 0
  match call.thrown with
  | some err => (.rejected err, if 0 < t then [t] else [])
  | none =>
    if 0 < t ∧ t ≤ call.after then
      (.rejected (.error ("Saga step timeout after " ++ toString t ++ "ms")), [])
    else (call.outcome, [])

/-- The context after the calls, the outcome of each call, how the loop ends, and the listeners that
the calls have left. -/
structure Retried (C : Type) where
  ctx : C
  attempts : List Outcome
  outcome : Outcome
  listeners : List Int := []

variable {C : Type}

/-- The loop of `runWithRetry` with `left` attempts to go; `attempt` is the number of the next. -/
def retryLoop (timeoutMs : Option Int) (fn : C → Nat → C × Call) :
    (left attempt : Nat) → C → Thrown → Retried C
  | 0, _, ctx, lastErr => { ctx, attempts := [], outcome := .rejected lastErr }
  | left + 1, attempt, ctx, _ =>
    match withTimeout timeoutMs (fn ctx attempt).2 with
    | (.resolved, _) => { ctx := (fn ctx attempt).1, attempts := [.resolved], outcome := .resolved }
    | (.rejected err, listeners) =>
      let r := retryLoop timeoutMs fn left (attempt + 1) (fn ctx attempt).1 err
      { r with attempts := .rejected err :: r.attempts, listeners := listeners ++ r.listeners }

def runWithRetry (attempts : Int) (timeoutMs : Option Int) (fn : C → Nat → C × Call) (ctx : C) :
    Retried C :=
  retryLoop timeoutMs fn attempts.toNat 1 ctx .undefined

structure SagaStep (C : Type) where
  name : String
  execute : C → Nat → C × Call
  compensate : Option (C → Thrown → Nat → C × Call) := none
  retries : Option Int := none
  timeoutMs : Option Int := none
  compensateRetries : Option Int := none
  compensateTimeoutMs : Option Int := none

namespace SagaStep

def run (step : SagaStep C) (ctx : C) : Retried C :=
  runWithRetry (step.retries.getD 0 + 1) step.timeoutMs step.execute ctx

def cAttempts (step : SagaStep C) : Int := step.compensateRetries.getD 0 + 1

/-- The retries of the compensation `undo` of a step. -/
def undo (step : SagaStep C) (undo : C → Thrown → Nat → C × Call) (err : Thrown) (ctx : C) :
    Retried C :=
  runWithRetry step.cAttempts step.compensateTimeoutMs (undo · err) ctx

end SagaStep

/-! ## What the retries amount to -/

section Retries

variable (timeoutMs : Option Int) (fn : C → Nat → C × Call)

theorem retryLoop_attempts (left attempt : Nat) (ctx : C) (err : Thrown) :
    let r := retryLoop timeoutMs fn left attempt ctx err
    (r.outcome = .resolved ∧ ∃ errs : List Thrown,
      r.attempts = errs.map .rejected ++ [.resolved] ∧ errs.length < left) ∨
    (r.outcome ≠ .resolved ∧ ∃ errs : List Thrown,
      r.attempts = errs.map .rejected ∧ errs.length = left) := by
  induction left generalizing attempt ctx err with
  | zero => exact .inr ⟨by simp [retryLoop], [], rfl, rfl⟩
  | succ left ih =>
    rcases h : withTimeout timeoutMs (fn ctx attempt).2 with ⟨outcome, listeners⟩
    cases outcome with
    | resolved =>
      refine .inl ⟨?_, [], ?_, Nat.succ_pos left⟩ <;> simp [retryLoop, h]
    | rejected e =>
      rcases ih (attempt + 1) (fn ctx attempt).1 e with ⟨ho, errs, ha, hl⟩ | ⟨ho, errs, ha, hl⟩
      · refine .inl ⟨?_, e :: errs, ?_, ?_⟩
        · simpa [retryLoop, h] using ho
        · simp [retryLoop, h, ha]
        · simpa using hl
      · refine .inr ⟨?_, e :: errs, ?_, ?_⟩
        · simpa [retryLoop, h] using ho
        · simp [retryLoop, h, ha]
        · simpa using hl

end Retries

/-- A function that throws at once under a timeout of 50 ms. -/
example : (retryLoop (some 50)
    (fun (ctx : Unit) _ => (ctx, { outcome := .resolved, thrown := some .undefined })) 1 1 ()
      .undefined).listeners = [50] := by decide

end NevoMessaging
