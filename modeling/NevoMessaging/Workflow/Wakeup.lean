import NevoMessaging.Lib.Machine
import NevoMessaging.Scheduler
import NevoMessaging.Workflow.Run

/-!
# Wake-up tasks

A scheduler that runs the wake-up tasks of one workflow, over an event store whose reads and
appends may reject at any point. The handler that the engine registers catches whatever
`onWakeup` rejects with and only logs it. So the scheduler takes the task for done, also if
the outcome of the sleep or of the timeout has not been recorded, and never runs it again.

Results:
1. `wakeInv_reach`: a run that gets past its own read and append has a durable outcome.
2. `wakeup_completed_durable`: a task is completed only with a durable outcome, as long as no read
   or append fails before it is durable.
3. `wakeup_completed_early`: after a read that rejects, nothing is recorded.
-/

namespace NevoMessaging.Workflow

open List

variable {V : Type}

def wakeupTaskName : String := "nevo.workflow.wake"

/-- Where `onWakeup` stands: it reads, appends the outcome, or resumes the workflow. -/
inductive WakePhase (V : Type)
  | reading
  | appending (event : WorkflowEvent V)
  | resuming

def WakeupPayload.firstPhase : WakeupPayload → WakePhase V
  | .legacy => .resuming
  | .sleep _ | .signalTimeout .. => .reading

abbrev WakeTask := ScheduledTask WakeupPayload

abbrev WakeRun (V : Type) := TaskRun WakeupPayload (WakePhase V)

/-- What a run of a wake-up task waits for. An append that rejects may have stored its event.
How the resumed run ends does not matter to the task. -/
inductive WakeInput
  | lookup (registered : Bool)
  | readResolved
  | readRejected (now : Int)
  | appendResolved
  | appendRejected (stored : Bool) (now : Int)
  | resumeSettled (now : Int)
  | updateResolved
  | updateRejected (error : String) (now : Int)

/-- What one input does: the new state of the run, what it appends to the history, and the
updates it asks the task store for. -/
structure WakeMoved (V : Type) where
  run : WakeRun V
  events : List (WorkflowEvent V) := []
  updates : List (WakeTask × TaskUpdate) := []

section Step

variable (nextCronTick : String → Int → Option String → Int)

def WakeMoved.ofUpdate (r : WakeRun V × List (WakeTask × TaskUpdate)) : WakeMoved V :=
  { run := r.1, updates := r.2 }

/-- The handler resolves, in whichever way `onWakeup` has settled. -/
def handlerResolved (r : WakeRun V) (now : Int) : WakeMoved V :=
  .ofUpdate (r.update (r.task.afterHandled nextCronTick now) true)

def WakeRun.step (history : List (WorkflowEvent V)) (r : WakeRun V) :
    WakeInput → Option (WakeMoved V)
  | .lookup registered =>
    match r.phase with
    | .claimed =>
      some (.ofUpdate (r.lookup (if registered then some r.task.payload.firstPhase else none)))
    | _ => none
  | .readResolved =>
    match r.phase with
    | .handling .reading =>
      match onWakeup r.task.payload history with
      | some event => some { run := { r with phase := .handling (.appending event) } }
      | none => some { run := { r with phase := .handling .resuming } }
    | _ => none
  | .readRejected now =>
    match r.phase with
    | .handling .reading => some (handlerResolved nextCronTick r now)
    | _ => none
  | .appendResolved =>
    match r.phase with
    | .handling (.appending event) =>
      some { run := { r with phase := .handling .resuming }, events := [event] }
    | _ => none
  | .appendRejected stored now =>
    match r.phase with
    | .handling (.appending event) =>
      some { handlerResolved nextCronTick r now with events := if stored then [event] else [] }
    | _ => none
  | .resumeSettled now =>
    match r.phase with
    | .handling .resuming => some (handlerResolved nextCronTick r now)
    | _ => none
  | .updateResolved =>
    match r.phase with
    | .updating .. => some { run := { r with phase := .over } }
    | _ => none
  | .updateRejected error now =>
    match r.phase with
    | .updating _ guarded => some (.ofUpdate (r.updateRejected nextCronTick guarded now error))
    | _ => none

/-! ## The tasks of one workflow -/

/-- The history of a workflow, the runs of its wake-up tasks, and the updates that were made. -/
structure WakeSys (V : Type) where
  history : List (WorkflowEvent V) := []
  runs : List (WakeRun V) := []
  updates : List (WakeTask × TaskUpdate) := []

/-- `append` is an append by anything else: a run of the workflow, a signal, a cancellation. -/
inductive WakeAct (V : Type)
  | append (event : WorkflowEvent V)
  | claim (task : WakeTask)
  | run (i : Nat) (inp : WakeInput)

def WakeSys.step (s : WakeSys V) : WakeAct V → Option (WakeSys V)
  | .append event => some { s with history := s.history ++ [event] }
  | .claim task => some { s with runs := s.runs ++ [{ task }] }
  | .run i inp => s.runs[i]?.bind fun r =>
    (WakeRun.step nextCronTick s.history r inp).map fun m =>
      { history := s.history ++ m.events
        runs := s.runs.set i m.run
        updates := s.updates ++ m.updates }

def wakeups : Machine (WakeSys V) (WakeAct V) where
  init := {}
  step := WakeSys.step nextCronTick

end Step

/-- The outcome that the wake-up is about is in the history, or does not matter any more. -/
def durable (history : List (WorkflowEvent V)) (p : WakeupPayload) : Bool :=
  outcomeRecorded history p || isTerminal history

/-- The steps in which `onWakeup` fails only when the outcome is durable: its own read rejects,
or its append rejects without having stored the event. -/
def failsDurably (s : WakeSys V) : WakeAct V → Bool
  | .run i (.readRejected _) => s.runs[i]?.all fun r => durable s.history r.task.payload
  | .run i (.appendRejected stored _) =>
    stored || s.runs[i]?.all fun r => durable s.history r.task.payload
  | _ => true

variable {history : List (WorkflowEvent V)} {p : WakeupPayload}
  {nextCronTick : String → Int → Option String → Int}

theorem durable_append (h : durable history p = true) (evs : List (WorkflowEvent V)) :
    durable (history ++ evs) p = true := by
  simp only [durable, Bool.or_eq_true] at h ⊢
  refine h.imp (fun h => ?_) fun h => by simp [isTerminal, any_append] at h ⊢; exact .inl h
  cases p with
  | legacy => rfl
  | sleep | signalTimeout =>
    simp only [outcomeRecorded, any_append, Bool.or_eq_true] at h ⊢
    exact .inl h

theorem onWakeup_none (h : onWakeup p history = none) : durable history p = true := by
  unfold onWakeup at h
  split at h
  · next hd => exact hd
  · cases p with
    | legacy => rfl
    | _ => cases h

theorem event_durable {event : WorkflowEvent V} (h : p.event = some event)
    (history : List (WorkflowEvent V)) : durable (history ++ [event]) p = true := by
  cases p <;> cases h <;> simp [durable, outcomeRecorded]

theorem onWakeup_some {event : WorkflowEvent V} (h : onWakeup p history = some event) :
    p.event = some event := by
  unfold onWakeup at h
  split at h
  · cases h
  · exact h

def RunOk (history : List (WorkflowEvent V)) (r : WakeRun V) : Prop :=
  match r.phase with
  | .handling (.appending event) => r.task.payload.event = some event
  | .handling .resuming => durable history r.task.payload = true
  | _ => True

def UpdateOk (history : List (WorkflowEvent V)) (u : WakeTask × TaskUpdate) : Prop :=
  u.2 = .completed → durable history u.1.payload = true

structure WakeInv (s : WakeSys V) : Prop where
  runs : ∀ r ∈ s.runs, RunOk s.history r
  updates : ∀ u ∈ s.updates, UpdateOk s.history u

theorem RunOk.append {r : WakeRun V} (h : RunOk history r) (evs : List (WorkflowEvent V)) :
    RunOk (history ++ evs) r := by
  unfold RunOk at h ⊢
  split
  · next hp => simpa [hp] using h
  · next hp =>
    simp only [hp] at h
    exact durable_append h evs
  · trivial

theorem UpdateOk.append {u : WakeTask × TaskUpdate} (h : UpdateOk history u)
    (evs : List (WorkflowEvent V)) : UpdateOk (history ++ evs) u :=
  fun hu => durable_append (h hu) evs

/-- What one input keeps. The handler resolves only once the outcome is durable. -/
theorem step_ok {r : WakeRun V} {inp : WakeInput} {m : WakeMoved V} (hr : RunOk history r)
    (hread : ∀ now, inp = .readRejected now → durable history r.task.payload = true)
    (happend : ∀ stored now, inp = .appendRejected stored now →
      stored = true ∨ durable history r.task.payload = true)
    (h : WakeRun.step nextCronTick history r inp = some m) :
    RunOk (history ++ m.events) m.run ∧ ∀ u ∈ m.updates, UpdateOk (history ++ m.events) u := by
  have hresolved : ∀ {evs : List (WorkflowEvent V)} {now : Int},
      durable (history ++ evs) r.task.payload = true →
      RunOk (history ++ evs) (handlerResolved nextCronTick r now).run ∧
        ∀ u ∈ (handlerResolved nextCronTick r now).updates, UpdateOk (history ++ evs) u := by
    intro evs now hd
    refine ⟨trivial, fun u hu _ => ?_⟩
    rw [mem_singleton.mp hu]
    exact hd
  cases inp with
  | lookup registered =>
    simp only [WakeRun.step] at h
    split at h
    · cases h
      cases registered with
      | false =>
        refine ⟨trivial, fun u hu hc => ?_⟩
        rw [mem_singleton.mp hu] at hc
        cases hc
      | true =>
        refine ⟨?_, fun u hu => by cases hu⟩
        unfold RunOk
        cases hp : r.task.payload <;>
          simp [WakeMoved.ofUpdate, TaskRun.lookup, hp, WakeupPayload.firstPhase, durable,
            outcomeRecorded]
    · cases h
  | readResolved =>
    simp only [WakeRun.step] at h
    split at h
    · split at h
      · next event hw =>
        cases h
        exact ⟨onWakeup_some hw, by simp⟩
      · next hw =>
        cases h
        exact ⟨durable_append (onWakeup_none hw) [], by simp⟩
    · cases h
  | readRejected now =>
    simp only [WakeRun.step] at h
    split at h
    · cases h
      exact hresolved (durable_append (hread now rfl) [])
    · cases h
  | appendResolved =>
    simp only [WakeRun.step] at h
    split at h
    · next event hp =>
      cases h
      have he : r.task.payload.event = some event := by simpa [RunOk, hp] using hr
      exact ⟨event_durable he history, by simp⟩
    · cases h
  | appendRejected stored now =>
    simp only [WakeRun.step] at h
    split at h
    · next event hp =>
      cases h
      have he : r.task.payload.event = some event := by simpa [RunOk, hp] using hr
      refine hresolved ?_
      rcases happend stored now rfl with rfl | hd
      · exact event_durable he history
      · exact durable_append hd _
    · cases h
  | resumeSettled now =>
    simp only [WakeRun.step] at h
    split at h
    · next hp =>
      cases h
      have hd : durable history r.task.payload = true := by simpa [RunOk, hp] using hr
      exact hresolved (durable_append hd [])
    · cases h
  | updateResolved =>
    simp only [WakeRun.step] at h
    split at h
    · cases h
      exact ⟨trivial, by simp⟩
    · cases h
  | updateRejected error now =>
    simp only [WakeRun.step] at h
    split at h
    · next guarded hp =>
      cases h
      cases guarded with
      | false => exact ⟨trivial, fun u hu => by cases hu⟩
      | true =>
        refine ⟨trivial, fun u hu hc => ?_⟩
        rw [mem_singleton.mp hu] at hc
        exact absurd hc (ScheduledTask.afterRejected_ne nextCronTick r.task now error)
    · cases h

theorem wakeInv_step {s s' : WakeSys V} {a : WakeAct V} (hi : WakeInv s)
    (hok : failsDurably s a = true) (h : s.step nextCronTick a = some s') : WakeInv s' := by
  cases a with
  | append event =>
    cases h
    exact ⟨fun r hr => RunOk.append (hi.runs r hr) _,
      fun u hu => UpdateOk.append (hi.updates u hu) _⟩
  | claim task =>
    cases h
    refine ⟨fun r hr => ?_, hi.updates⟩
    rcases mem_append.mp hr with hr | hr
    · exact hi.runs r hr
    · rw [mem_singleton.mp hr]
      trivial
  | run i inp =>
    obtain ⟨r, hget, h⟩ := Option.bind_eq_some_iff.mp h
    obtain ⟨m, hm, rfl⟩ := Option.map_eq_some_iff.mp h
    obtain ⟨hrun, hnew⟩ := step_ok (hi.runs r (mem_of_getElem? hget))
      (by rintro now rfl; simpa [failsDurably, hget] using hok)
      (by rintro stored now rfl; simpa [failsDurably, hget] using hok) hm
    refine ⟨fun q hq => ?_, fun u hu => ?_⟩
    · rcases mem_or_eq_of_mem_set hq with hq | rfl
      · exact RunOk.append (hi.runs q hq) _
      · exact hrun
    · rcases mem_append.mp hu with hu | hu
      · exact UpdateOk.append (hi.updates u hu) _
      · exact hnew u hu

theorem wakeInv_reach {s : WakeSys V}
    (h : (wakeups nextCronTick).Reach (fun s a => failsDurably s a = true) s) : WakeInv s :=
  h.invariant ⟨by simp [wakeups], by simp [wakeups]⟩ fun _ hi hok hs => wakeInv_step hi hok hs

/-! ## Completed only when durable -/

def WakeupPayload.ordinal? : WakeupPayload → Option Nat
  | .legacy => none
  | .sleep k | .signalTimeout k _ => some k

/-- The history is terminal, or has the outcome of the sleep or of the wait with this number. -/
def OutcomeDurable (history : List (WorkflowEvent V)) (k : Nat) : Prop :=
  isTerminal history = true ∨ .sleepCompleted k ∈ history ∨
    (∃ name, .signalTimeout k name ∈ history) ∨ ∃ name index, .signalConsumed name index k ∈ history

theorem OutcomeDurable.of_durable {history : List (WorkflowEvent V)} {p : WakeupPayload} {k : Nat}
    (hk : p.ordinal? = some k) (h : durable history p = true) : OutcomeDurable history k := by
  rcases (Bool.or_eq_true _ _).mp h with h | h
  · cases p with
    | legacy => cases hk
    | sleep j =>
      cases hk
      obtain ⟨e, he, hj⟩ := any_eq_true.mp h
      cases e <;> simp only [Bool.false_eq_true, decide_eq_true_eq] at hj
      exact .inr (.inl (hj ▸ he))
    | signalTimeout j name =>
      cases hk
      obtain ⟨e, he, hj⟩ := any_eq_true.mp h
      cases e <;> simp only [Bool.false_eq_true, decide_eq_true_eq] at hj
      · exact .inr (.inr (.inr ⟨_, _, hj ▸ he⟩))
      · exact .inr (.inr (.inl ⟨_, hj ▸ he⟩))
  · exact .inl h

/-- A wake-up task that the scheduler marks completed has a durable outcome, if `onWakeup` fails
at its own read or append only when that is so already. -/
theorem wakeup_completed_durable {nextCronTick : String → Int → Option String → Int}
    {s : WakeSys V} (h : (wakeups nextCronTick).Reach (fun s a => failsDurably s a = true) s)
    {task : WakeTask} {k : Nat} (hk : task.payload.ordinal? = some k)
    (hdone : (task, .completed) ∈ s.updates) : OutcomeDurable s.history k :=
  .of_durable hk ((wakeInv_reach h).updates _ hdone rfl)

/-! ## One sleep -/

def sleepTask : WakeTask where
  id := "workflow:o-123:sleep:1"
  name := wakeupTaskName
  payload := .sleep 1

/-- No task here is a cron task. -/
def noCron : String → Int → Option String → Int := fun _ _ _ => 0

/-- The workflow goes to sleep, its task is claimed and its handler is called. -/
def wakeSleeper : List (WakeAct Nat) :=
  [.append (.started "order.fulfil" 0), .append (.sleepStarted 1 1000 1000),
    .append (.suspended "sleep#1"), .claim sleepTask, .run 0 (.lookup true)]

/-- The read of the handler rejects. Its task is marked completed, and the sleep of the workflow
is never going to end. -/
theorem wakeup_completed_early :
    ¬ ∀ s : WakeSys Nat, (wakeups noCron).Reach Machine.free s → ∀ (task : WakeTask) (k : Nat),
      task.payload.ordinal? = some k → (task, .completed) ∈ s.updates →
        OutcomeDurable s.history k := by
  obtain ⟨s, hs, hobs⟩ := Machine.Reach.observe (wakeups noCron) Machine.free
    (wakeSleeper ++ [WakeAct.run 0 (.readRejected 1000)]) (fun s => (s.history, s.updates))
    ([.started "order.fulfil" 0, .sleepStarted 1 1000 1000, .suspended "sleep#1"],
      [(sleepTask, .completed)]) rfl
  rw [Prod.mk.injEq] at hobs
  intro hall
  have hd := hall s hs sleepTask 1 rfl (by simp [hobs.2])
  simp [OutcomeDurable, hobs.1, isTerminal, WorkflowEvent.terminal, WorkflowEvent.isCompleted,
    WorkflowEvent.isFailed, WorkflowEvent.isCancelled] at hd

theorem wakeup_completed_durable_stored :
    ∃ s : WakeSys Nat, (wakeups noCron).Reach (fun s a => failsDurably s a = true) s ∧
      (sleepTask, .completed) ∈ s.updates ∧ OutcomeDurable s.history 1 := by
  obtain ⟨s, hs, hobs⟩ := Machine.Reach.observe (wakeups noCron)
    (fun s a => failsDurably s a = true)
    (wakeSleeper ++ [WakeAct.run 0 .readResolved, .run 0 (.appendRejected true 1000)]) (·.updates)
    [(sleepTask, .completed)] rfl
  have hdone : (sleepTask, .completed) ∈ s.updates := by simp [hobs]
  exact ⟨s, hs, hdone, wakeup_completed_durable hs rfl hdone⟩

end NevoMessaging.Workflow
