import NevoMessaging.Lib.Traced
import NevoMessaging.Saga.Retry

/-!
# Saga: run, compensation, resume

The orchestrator as a computation that leaves a trace: the calls of `execute` and `compensate`
with their outcomes, the snapshots that were stored, the entries handed to the dead letter queue.

What the surroundings answer is part of a `Saga`: which snapshots the store takes, what the queue
answers for a step, what `Date.now()` says at a save. A run makes each of these calls at most once
with the same arguments, so one table of answers covers every run. The lease that is renewed while
the saga runs does not touch the snapshots and has its own model. Metrics and log lines only
report.
-/

namespace NevoMessaging

def defaultSagaType : String := "default"

inductive SagaStatus
  | pending
  | success
  | failed
  | compensating
  | compensated
  | compensationFailed
deriving DecidableEq, Repr

def SagaStatus.text : SagaStatus → String
  | .pending => "pending"
  | .success => "success"
  | .failed => "failed"
  | .compensating => "compensating"
  | .compensated => "compensated"
  | .compensationFailed => "compensation_failed"

structure SagaSnapshot (C : Type) where
  sagaId : String
  type : Option String
  steps : List String
  executed : List String
  compensated : Option (List String)
  ctx : C
  status : SagaStatus
  error : Option String
  updatedAt : Int
deriving DecidableEq

inductive ResultStatus
  | success
  | failed
deriving DecidableEq, Repr

structure SagaResult where
  status : ResultStatus
  error : Option Thrown := none
  executed : List String
  compensated : List String
  compensationFailed : Option (List String) := none
  sagaId : String
deriving DecidableEq

/-- The entry of a compensation that failed. -/
structure DlqEntry (C : Type) where
  topic : String
  reason : String
  message : String
  sagaId : String
  type : String
  step : String
  ctx : C
  cause : Thrown
  attempts : Int
deriving DecidableEq

/-- A call of `execute` is told apart by the position of its step, since steps may share a name.
The compensation of a name is always that of the first step with this name. -/
inductive SagaEvent (C : Type)
  | execute (position attempt : Nat) (outcome : Outcome)
  | compensate (name : String) (attempt : Nat) (outcome : Outcome)
  | saved (snapshot : SagaSnapshot C)
  | deleted (sagaId : String)
  | dlq (entry : DlqEntry C)
deriving DecidableEq

/-- The answers of a store: `none` if it does what it is asked for. -/
structure StoreAnswers (C : Type) where
  save : SagaSnapshot C → Option Thrown := fun _ => none
  delete : Option Thrown := none

structure Saga (C : Type) where
  steps : List (SagaStep C)
  type : String := defaultSagaType
  sagaId : String
  store : Option (StoreAnswers C) := none
  /-- The answer of the sink for the compensation of a step. -/
  dlq : Option (String → Option Thrown) := none
  logger : Bool := false
  /-- `Date.now()` when a snapshot with this status and these lists is stored. -/
  now : SagaStatus → List String → List String → Int := fun _ _ _ => 0
  /-- Whether `structuredClone` can copy the context. -/
  cloneable : C → Bool := fun _ => true

namespace Saga

open Traced

variable {C : Type}

/-- The program runs on the trace of a saga; what it throws is a value of JavaScript. -/
abbrev Prog (C α : Type) : Type := Traced (SagaEvent C) Thrown α

def names (s : Saga C) : List String := s.steps.map (·.name)

/-- `error ? { message: … } : undefined`, unless the message cannot be made. -/
def errorField (error : Thrown) : Option (Option String) :=
  if error.truthy then error.messageOf.map some else some none

def snapshot (s : Saga C) (ctx : C) (executed : List String) (status : SagaStatus)
    (error : Option String) (compensated : List String) : SagaSnapshot C where
  sagaId := s.sagaId
  type := some s.type
  steps := s.names
  executed := executed
  compensated := some compensated
  ctx := ctx
  status := status
  error := error
  updatedAt := s.now status executed compensated

def persist (s : Saga C) (ctx : C) (executed : List String) (status : SagaStatus)
    (error : Thrown := .undefined) (compensated : List String := []) : Prog C Unit :=
  match s.store with
  | none => pure ()
  | some store =>
    match errorField error with
    | none => throw .typeError
    | some error =>
      match store.save (s.snapshot ctx executed status error compensated) with
      | none => perform [.saved (s.snapshot ctx executed status error compensated)]
      | some err => throw err

/-- `cause instanceof Error ? cause.message : cause` -/
def causeOf : Thrown → Thrown
  | .error message => .string message
  | cause => cause

def reportCompensationFailure (s : Saga C) (step : String) (ctx : C) (cause compErr : Thrown)
    (attempts : Int) : Prog C Unit :=
  match compErr.messageOf with
  | none => throw .typeError
  | some message =>
    match s.dlq with
    | none => pure ()
    | some sink => do
      perform [.dlq {
        topic := "saga." ++ s.type
        reason := "saga_compensation_failed"
        message, step, ctx, attempts
        sagaId := s.sagaId
        type := s.type
        cause := causeOf cause }]
      match sink step with
      | none => pure ()
      | some sinkErr =>
        -- the text of the rejection is only made for the logger
        if s.logger && sinkErr.messageOf.isNone then throw .typeError else pure ()

/-- The compensation of a name: `this.steps.find(…)`, if that step has one. -/
def undoOf (s : Saga C) (name : String) :
    Option (SagaStep C × (C → Thrown → Nat → C × Call)) :=
  (s.steps.find? (·.name == name)).bind fun original => original.compensate.map (original, ·)

def compensateEvents (name : String) (outcomes : List Outcome) : List (SagaEvent C) :=
  outcomes.mapIdx fun n outcome => .compensate name (n + 1) outcome

def executeEvents (position : Nat) (outcomes : List Outcome) : List (SagaEvent C) :=
  outcomes.mapIdx fun n outcome => .execute position (n + 1) outcome

/-- The copy of the context that the compensations work on, and the lists of names. -/
structure Undone (C : Type) where
  snapshot : C
  compensated : List String
  failed : List String

/-- The loop of `compensate` over the remaining names. If the context could not be copied, the
compensations work on the context itself. -/
def compensateLoop (s : Saga C) (ctx : C) (executed : List String) (lastErr : Thrown) :
    List String → Undone C → Prog C (Undone C)
  | [], u => pure u
  | name :: rest, u =>
    if name ∈ u.compensated then s.compensateLoop ctx executed lastErr rest u
    else
      match s.undoOf name with
      | none => s.compensateLoop ctx executed lastErr rest u
      | some (original, undo) => do
        let r := original.undo undo lastErr u.snapshot
        perform (compensateEvents name r.attempts)
        match r.outcome with
        | .resolved =>
          let compensated := u.compensated ++ [name]
          let live := if s.cloneable ctx then ctx else r.ctx
          -- a save that fails here is only logged
          (s.persist live executed .compensating lastErr compensated).attempt (fun _ => pure ())
            pure
          s.compensateLoop ctx executed lastErr rest { u with snapshot := r.ctx, compensated }
        | .rejected compErr =>
          s.reportCompensationFailure name r.ctx lastErr compErr original.cAttempts
          s.compensateLoop ctx executed lastErr rest
            { u with snapshot := r.ctx, failed := u.failed ++ [name] }

def compensate (s : Saga C) (ctx : C) (executed : List String) (lastErr : Thrown)
    (alreadyCompensated : List String) : Prog C (Undone C) :=
  s.compensateLoop ctx executed lastErr executed.reverse
    { snapshot := ctx, compensated := alreadyCompensated, failed := [] }

/-- The end of `fail`: the terminal status after the compensations. -/
def settle (s : Saga C) (ctx : C) (executed : List String) (err : Thrown) (u : Undone C) :
    Prog C SagaResult :=
  if u.failed ≠ [] then do
    s.persist ctx executed .compensationFailed err u.compensated
    pure {
      status := .failed
      error := some err
      executed
      compensated := u.compensated
      compensationFailed := some u.failed
      sagaId := s.sagaId }
  else do
    s.persist ctx executed .compensated err u.compensated
    pure {
      status := .failed
      error := some err
      executed
      compensated := u.compensated
      sagaId := s.sagaId }

def fail (s : Saga C) (ctx : C) (executed : List String) (err : Thrown)
    (alreadyCompensated : List String := []) : Prog C SagaResult := do
  s.persist ctx executed .compensating err alreadyCompensated
  let u ← s.compensate ctx executed err alreadyCompensated
  s.settle (if s.cloneable ctx then ctx else u.snapshot) executed err u

def discard (s : Saga C) : Prog C Unit :=
  match s.store with
  | none => pure ()
  | some store =>
    match store.delete with
    | none => perform [.deleted s.sagaId]
    | some err => throw err

/-- The end of `forward`, when every step has been dealt with. -/
def succeed (s : Saga C) (ctx : C) (executed : List String) : Prog C SagaResult := do
  s.persist ctx executed .success
  s.discard
  pure { status := .success, executed, compensated := [], sagaId := s.sagaId }

/-- The loop of `forward` over the remaining steps, the first of which is at `position`. -/
def forwardLoop (s : Saga C) : List (SagaStep C) → (position : Nat) → C → List String →
    Prog C SagaResult
  | [], _, ctx, executed => s.succeed ctx executed
  | step :: rest, position, ctx, executed =>
    if step.name ∈ executed then s.forwardLoop rest (position + 1) ctx executed
    else do
      let r := step.run ctx
      perform (executeEvents position r.attempts)
      match r.outcome with
      | .rejected lastErr => s.fail r.ctx executed lastErr
      | .resolved =>
        let executed := executed ++ [step.name]
        -- the save is inside of the `try`, after the step was added to `executed`
        (s.persist r.ctx executed .pending).attempt (s.fail r.ctx executed ·)
          fun _ => s.forwardLoop rest (position + 1) r.ctx executed

def forward (s : Saga C) (ctx : C) (alreadyExecuted : List String) : Prog C SagaResult :=
  s.forwardLoop s.steps 0 ctx alreadyExecuted

def run (s : Saga C) (ctx : C) : Prog C SagaResult := do
  s.persist ctx [] .pending
  s.forward ctx []

/-- `snapshot.error`, as the saga gets it back from the store. -/
def storedError : Option String → Thrown
  | some message => .record message
  | none => .undefined

/-- `Saga.resume`, given what the store loads for the id. `opts` is the new saga with its steps,
its id and its options; its type is taken from there or from the snapshot. -/
def resume (loaded : Option (SagaSnapshot C)) (type : Option String) (opts : Saga C) :
    Prog C SagaResult :=
  match loaded with
  | none => throw (.error ("Saga " ++ opts.sagaId ++ " not found"))
  | some snapshot =>
    let saga := { opts with type := (type <|> snapshot.type).getD defaultSagaType }
    match snapshot.status with
    | .compensating =>
      saga.fail snapshot.ctx snapshot.executed (storedError snapshot.error)
        (snapshot.compensated.getD [])
    | .pending => saga.forward snapshot.ctx snapshot.executed
    | status => throw (.error ("Saga " ++ opts.sagaId ++ " is terminal (status \"" ++
        status.text ++ "\") and cannot be resumed"))

end Saga

end NevoMessaging
