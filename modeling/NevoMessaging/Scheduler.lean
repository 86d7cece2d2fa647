import Mathlib.Data.List.Basic
import NevoMessaging.Lib.OrNaN

/-!
# Scheduler.runClaimedTask

What the scheduler does with a task it has claimed: it looks up the handler, calls it, and
tells the task store how the task goes on. The handler is a parameter, given by the places `H`
it can be in while the scheduler waits for it. `nextCronTick` is a parameter too. The `runAt` of a
task may be `NaN`, but then the task is never claimed.
-/

namespace NevoMessaging

variable {Q H : Type}

structure ScheduledTask (Q : Type) where
  id : String
  name : String
  payload : Q
  runAt : OrNaN Int := 0
  cron : Option String := none
  timezone : Option String := none
  attempts : Nat := 0
  maxAttempts : Nat := 5

/-- A call of `markCompleted`, `markFailed` or `reschedule`. -/
inductive TaskUpdate
  | completed
  | failed (error : String)
  | rescheduled (nextRunAt : Int) (error : Option String)
deriving DecidableEq, Repr

def noHandler (name : String) : String := "No handler registered for \"" ++ name ++ "\""

/-- A string that the source tests for truthiness. -/
def truthy (s : Option String) : Option String := s.filter (· ≠ "")

namespace ScheduledTask

variable (nextCronTick : String → Int → Option String → Int)

/-- The update after the handler has resolved: the next tick of a cron task, counted from its
`runAt` unless that tick is missed already. -/
def afterHandled (task : ScheduledTask Q) (now : Int) : TaskUpdate :=
  match truthy task.cron with
  | none => .completed
  | some cron =>
    let next := nextCronTick cron (task.runAt.getD 0) (truthy task.timezone)
    let next := if 0 < next ∧ next ≤ now then nextCronTick cron now (truthy task.timezone) else next
    if 0 < next then .rescheduled next none else .completed

/-- The update after the handler, or an update after it, has rejected. -/
def afterRejected (task : ScheduledTask Q) (now : Int) (error : String) : TaskUpdate :=
  match truthy task.cron with
  | none => .failed error
  | some cron =>
    if task.maxAttempts ≤ task.attempts + 1 then
      let next := nextCronTick cron now (truthy task.timezone)
      if 0 < next then .rescheduled next (some error) else .failed error
    else .failed error

end ScheduledTask

/-- Where `runClaimedTask` stands: before the handler is looked up, waiting for the handler, or
for an update of the store. An update is `guarded` if it is made inside of the `try`. -/
inductive TaskPhase (H : Type)
  | claimed
  | handling (h : H)
  | updating (u : TaskUpdate) (guarded : Bool)
  | over

structure TaskRun (Q H : Type) where
  task : ScheduledTask Q
  phase : TaskPhase H := .claimed

namespace TaskRun

/-- The run makes an update. -/
def update (r : TaskRun Q H) (u : TaskUpdate) (guarded : Bool) :
    TaskRun Q H × List (ScheduledTask Q × TaskUpdate) :=
  ({ r with phase := .updating u guarded }, [(r.task, u)])

/-- The look-up finds no handler, or one that starts at `h`. -/
def lookup (r : TaskRun Q H) (handler : Option H) :
    TaskRun Q H × List (ScheduledTask Q × TaskUpdate) :=
  match handler with
  | none => r.update (.failed (noHandler r.task.name)) false
  | some h => ({ r with phase := .handling h }, [])

/-- An update rejects. -/
def updateRejected (nextCronTick : String → Int → Option String → Int) (r : TaskRun Q H)
    (guarded : Bool) (now : Int) (error : String) :
    TaskRun Q H × List (ScheduledTask Q × TaskUpdate) :=
  if guarded then r.update (r.task.afterRejected nextCronTick now error) false
  else ({ r with phase := .over }, [])

end TaskRun

theorem ScheduledTask.afterRejected_ne (nextCronTick : String → Int → Option String → Int)
    (task : ScheduledTask Q) (now : Int) (error : String) :
    task.afterRejected nextCronTick now error ≠ .completed := by
  unfold afterRejected
  split
  · simp
  · split
    · dsimp only
      split <;> simp
    · simp

end NevoMessaging
