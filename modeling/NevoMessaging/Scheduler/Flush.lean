import NevoMessaging.Cron.Tick
import NevoMessaging.Scheduler.Fence

/-!
# Schedulers on one store

Any number of `Scheduler`s work on one `InMemoryScheduledTaskStore`. `flushOnce` claims the tasks
that are due and runs each of them. The runs of all flushes go on side by side: a run looks up its
handler, waits for it, and then tells the store how the task goes on, from the copy of the task that
it was given when the task was claimed.

A method of the store takes effect when it is called. `Date.now()` is an argument of a step; where a
step reads it more than once, the times are in the order of the reads.

Results:
1. `fate_next`: what an operation of the store makes of a task.
2. `held_step`: while a scheduler owns a task, the copy of its run is the task, unless the
   scheduler claims a task again which it is still running.
-/

namespace NevoMessaging

open JsString

variable {Q : Type}

/-! ## The scheduler -/

structure SchedulerOptions where
  batchSize : Option Int := none
  claimTtlMs : Option Int := none
  maxAttempts : Option Int := none

structure Scheduler where
  workerId : String
  batchSize : Nat
  claimTtlMs : Int
  maxAttempts : Nat
  batchSize_pos : 1 ≤ batchSize
  claimTtlMs_pos : 1000 ≤ claimTtlMs
  maxAttempts_pos : 1 ≤ maxAttempts

structure EnqueueCronOptions where
  utc : Bool := false
  timezone : Option String := none
  id : Option String := none
  maxAttempts : Option Int := none

namespace Scheduler

def create (workerId : String) (opts : SchedulerOptions) : Scheduler where
  workerId
  batchSize := (max 1 (opts.batchSize.getD 20)).toNat
  claimTtlMs := max 1000 (opts.claimTtlMs.getD 60000)
  maxAttempts := (max 1 (opts.maxAttempts.getD 5)).toNat
  batchSize_pos := by omega
  claimTtlMs_pos := by omega
  maxAttempts_pos := by omega

/-- The task that the private method `enqueue` gives to the store. -/
def newTask (w : Scheduler) (id name : String) (payload : Q) (runAt : OrNaN Int)
    (cron timezone : Option String) (maxAttempts : Option Int) (createdAt : Int) :
    TaskRecord Q where
  id
  name
  payload
  runAt
  cron
  timezone
  attempts := 0
  maxAttempts := (max 1 (maxAttempts.getD w.maxAttempts)).toNat
  status := .pending
  createdAt

def invalidCron (cron : String) : JsString := lit ("Scheduler: invalid cron \"" ++ cron ++ "\"")

/-- The task of `enqueueCron`, or the error that it throws. -/
def cronTask (platform : Platform) (w : Scheduler) (name : String) (payload : Q) (cron : String)
    (opts : EnqueueCronOptions) (now createdAt : Int) : Except JsString (TaskRecord Q) := do
  if isValidCron (lit cron) then
    let timezone := if opts.utc then some "UTC" else opts.timezone
    let next ← nextCronTick platform (lit cron) now
      { utc := opts.utc, timezone := opts.timezone.map lit }
    return w.newTask (opts.id.getD ("cron:" ++ name)) name payload next (some cron) timezone
      opts.maxAttempts createdAt
  else throw (invalidCron cron)

theorem claimTtlMs_lt (w : Scheduler) : 0 < w.claimTtlMs := by
  have := w.claimTtlMs_pos
  omega

theorem leased (w : Scheduler) {now : Int} :
    (StoreAction.claimDue (Q := Q) w.workerId now w.batchSize w.claimTtlMs).Leased :=
  w.claimTtlMs_lt

theorem cronTask_eq_ok {platform : Platform} {w : Scheduler} {name cron : String} {payload : Q}
    {opts : EnqueueCronOptions} {now createdAt : Int} {task : TaskRecord Q}
    (h : w.cronTask platform name payload cron opts now createdAt = .ok task) :
    ∃ next, isValidCron (lit cron) ∧
      nextCronTick platform (lit cron) now { utc := opts.utc, timezone := opts.timezone.map lit } =
        .ok next ∧
      task = w.newTask (opts.id.getD ("cron:" ++ name)) name payload next (some cron)
        (if opts.utc then some "UTC" else opts.timezone) opts.maxAttempts createdAt := by
  unfold cronTask at h
  split at h
  next hvalid =>
    dsimp only at h
    cases hnext : nextCronTick platform (lit cron) now
      { utc := opts.utc, timezone := opts.timezone.map lit } with
    | error e =>
      rw [hnext] at h
      cases h
    | ok next =>
      rw [hnext] at h
      cases h
      exact ⟨next, hvalid, rfl, rfl⟩
  next => cases h

end Scheduler

/-- The tick of a stored task. Its expression and its zone do not throw, since `enqueueCron` has
read them before. -/
def tickOn (platform : Platform) (cron : String) (start : Int) (timezone : Option String) : Int :=
  match nextCronTick platform (lit cron) start { timezone := timezone.map lit } with
  | .ok tick => tick
  | .error _ => -1

/-! ## The runs of the flushes -/

/-- A run by the scheduler `workerId`. The handler is only waited for. -/
structure FlushRun (Q : Type) extends TaskRun Q Unit where
  workerId : String

/-- The run has not yet told the store how its task goes on. -/
def FlushRun.active (r : FlushRun Q) : Bool :=
  match r.phase with
  | .claimed | .handling _ => true
  | .updating .. | .over => false

/-- `clocks` has, newest first, the clock at which the `runAt` of a task was stored. It is not part
of the program. -/
structure SchedulerState (Q : Type) where
  store : InMemoryScheduledTaskStore Q
  runs : List (FlushRun Q) := []
  clocks : List (String × Int) := []

/-- A handler resolves, rejects with an error, or with a value that has no text: then `String(err)`
throws and the run ends without an update. `enqueueIn` is `enqueueAt` with another `runAt`. -/
inductive SchedulerAction (Q : Type)
  | enqueueCron (w : Scheduler) (name : String) (payload : Q) (cron : String)
      (opts : EnqueueCronOptions) (now createdAt prunedAt : Int)
  | enqueueAt (w : Scheduler) (id name : String) (payload : Q) (runAt : OrNaN Int)
      (maxAttempts : Option Int) (createdAt prunedAt : Int)
  | cancel (id : String) (now : Int)
  | list (status : Option TaskStatus) (limit : Option Nat) (now : Int)
  | flushOnce (w : Scheduler) (now : Int)
  | heartbeat (w : Scheduler) (ids : List String) (now : Int)
  | lookup (i : Nat) (registered : Bool) (now : Int)
  | resolved (i : Nat) (now completedAt : Int)
  | rejected (i : Nat) (error : String) (now completedAt : Int)
  | dropped (i : Nat)

/-- The operation of the store that the update asks for. -/
def TaskUpdate.action (id workerId : String) (completedAt : Int) : TaskUpdate → StoreAction Q
  | .completed => .markCompleted completedAt id workerId
  | .failed error => .markFailed completedAt id error workerId
  | .rescheduled nextRunAt error => .reschedule id nextRunAt workerId error

/-- The task whose `runAt` the operation stores. -/
def StoreAction.stores : StoreAction Q → Option String
  | .enqueue _ task => some task.id
  | .reschedule id .. => some id
  | _ => none

namespace SchedulerState

/-- An operation of the store, at the time `now`. -/
def call (s : SchedulerState Q) (a : StoreAction Q) (now : Int) : SchedulerState Q :=
  { s with
    store := s.store.next a
    clocks :=
      match a.stores with
      | some id => if (s.store.events a).isEmpty then s.clocks else (id, now) :: s.clocks
      | none => s.clocks }

/-- The run `i` goes on, with the updates that it makes. -/
def advance (s : SchedulerState Q) (i : Nat) (r : FlushRun Q)
    (m : TaskRun Q Unit × List (ScheduledTask Q × TaskUpdate)) (now completedAt : Int) :
    SchedulerState Q :=
  m.2.foldl (fun s u => s.call (u.2.action u.1.id r.workerId completedAt) now)
    { s with runs := s.runs.set i { r with toTaskRun := m.1 } }

def step (platform : Platform) (s : SchedulerState Q) :
    SchedulerAction Q → Option (SchedulerState Q)
  | .enqueueCron w name payload cron opts now createdAt prunedAt =>
    match w.cronTask platform name payload cron opts now createdAt with
    | .ok task => some (s.call (.enqueue prunedAt task) now)
    | .error _ => some s
  | .enqueueAt w id name payload runAt maxAttempts createdAt prunedAt =>
    some (s.call (.enqueue prunedAt
      (w.newTask id name payload runAt none none maxAttempts createdAt)) createdAt)
  | .cancel id now => some (s.call (.cancel now id) now)
  | .list status limit now => some (s.call (.list now status limit) now)
  | .flushOnce w now =>
    let claimed := (s.store.claimDue w.workerId now w.batchSize w.claimTtlMs).1
    let s := s.call (.claimDue w.workerId now w.batchSize w.claimTtlMs) now
    some { s with
      runs := s.runs ++ claimed.map fun t =>
        { task := t.toScheduledTask, workerId := w.workerId } }
  | .heartbeat w ids now => some (s.call (.extendLease now ids w.workerId) now)
  | .lookup i registered now => s.runs[i]?.bind fun r =>
    match r.phase with
    | .claimed => some (s.advance i r (r.lookup (if registered then some () else none)) now now)
    | _ => none
  | .resolved i now completedAt => s.runs[i]?.bind fun r =>
    match r.phase with
    | .handling _ =>
      some (s.advance i r (r.update (r.task.afterHandled (tickOn platform) now) true)
        now completedAt)
    | _ => none
  | .rejected i error now completedAt => s.runs[i]?.bind fun r =>
    match r.phase with
    | .handling _ =>
      some (s.advance i r (r.update (r.task.afterRejected (tickOn platform) now error) false) now
        completedAt)
    | _ => none
  | .dropped i => s.runs[i]?.bind fun r =>
    match r.phase with
    | .handling _ => some { s with runs := s.runs.set i { r with phase := .over } }
    | _ => none

end SchedulerState

def schedulerMachine (platform : Platform) (terminalRetentionMs maxTerminalTasks : Option Int) :
    Machine (SchedulerState Q) (SchedulerAction Q) where
  init := { store := .create terminalRetentionMs maxTerminalTasks }
  step := SchedulerState.step platform

/-! ## What becomes of a task -/

section Fate

variable {st : InMemoryScheduledTaskStore Q} {a : StoreAction Q} {id : String} {t t' : TaskRecord Q}

/-- What an operation makes of the task `id`, if there still is one. -/
inductive Fate (st : InMemoryScheduledTaskStore Q) (id : String) : StoreAction Q → TaskRecord Q →
    Prop
  | same {a : StoreAction Q} {t : TaskRecord Q} :
      st.map.get? id = some t → (a.stores = some id → st.events a = []) → Fate st id a t
  | enqueued {now createdAt : Int} {task : TaskRecord Q} :
      task.id = id → st.events (.enqueue now task) ≠ [] →
      Fate st id (.enqueue now task) { task with createdAt }
  | claimed {t : TaskRecord Q} {workerId : String} {now claimTtlMs : Int} {limit : Nat} :
      st.map.get? id = some t → t.eligible now claimTtlMs →
      Fate st id (.claimDue workerId now limit claimTtlMs) (t.claim workerId now)
  | completed {t : TaskRecord Q} {workerId : String} {now : Int} :
      st.map.get? id = some t → t.owns workerId →
      Fate st id (.markCompleted now id workerId) (t.complete now)
  | failed {t : TaskRecord Q} {error workerId : String} {now : Int} :
      st.map.get? id = some t → t.owns workerId →
      Fate st id (.markFailed now id error workerId) (t.fail now error)
  | rescheduled {t : TaskRecord Q} {nextRunAt : OrNaN Int} {workerId : String}
      {error : Option String} :
      st.map.get? id = some t → t.owns workerId →
      Fate st id (.reschedule id nextRunAt workerId error) (t.reschedule nextRunAt error)
  | extended {t : TaskRecord Q} {ids : List String} {workerId : String} {now : Int} :
      st.map.get? id = some t → t.owns workerId →
      Fate st id (.extendLease now ids workerId) (t.extend now)
  | cancelled {t : TaskRecord Q} {now : Int} :
      st.map.get? id = some t → Fate st id (.cancel now id) (t.cancel now)

namespace InMemoryScheduledTaskStore

variable {now : Int} {workerId : String}

theorem get?_of_pruned (h : (st.pruneTerminal now).map.get? id = some t) :
    st.map.get? id = some t := by
  obtain ⟨ht, rfl⟩ := Table.get?_eq_some.mp h
  exact Table.get?_of_mem ((prunes_pruneTerminal st now).subset ht)

theorem get?_of_set {m : Table (TaskRecord.key (Q := Q))} {task : TaskRecord Q}
    (h : (m.set task).get? id = some t') :
    m.get? id = some t' ∧ task.key ≠ id ∨ task.key = id ∧ t' = task := by
  by_cases hid : id = task.key
  · rw [hid, Table.get?_set_self] at h
    exact .inr ⟨hid.symm, (Option.some.inj h).symm⟩
  · rw [Table.get?_set_ne m hid] at h
    exact .inl ⟨h, fun heq => hid heq.symm⟩

theorem fate_enqueue {task : TaskRecord Q} (h : (st.enqueue now task).map.get? id = some t') :
    Fate st id (.enqueue now task) t' := by
  unfold enqueue at h
  dsimp only at h
  cases hget : (st.pruneTerminal now).map.get? task.id with
  | none =>
    have hevents : st.events (.enqueue now task) ≠ [] := by
      dsimp only [events]
      rw [hget]
      exact List.cons_ne_nil _ _
    have hset : ((st.pruneTerminal now).map.set task).get? id = some t' := by
      rw [hget] at h
      dsimp only at h
      split at h <;> exact h
    rcases get?_of_set hset with ⟨hsame, hid⟩ | ⟨hid, rfl⟩
    · exact .same (get?_of_pruned hsame) fun hstores => absurd (Option.some.inj hstores) hid
    · exact .enqueued hid hevents
  | some existing =>
    rw [hget] at h
    dsimp only at h
    split at h
    next hredefines =>
      have hevents : st.events (.enqueue now task) ≠ [] := by
        dsimp only [events]
        rw [hget]
        dsimp only
        rw [if_pos hredefines]
        exact List.cons_ne_nil _ _
      rcases get?_of_set h with ⟨hsame, hid⟩ | ⟨hid, rfl⟩
      · exact .same (get?_of_pruned hsame) fun hstores => absurd (Option.some.inj hstores) hid
      · exact .enqueued hid hevents
    next hredefines =>
      refine .same (get?_of_pruned h) fun _ => ?_
      dsimp only [events]
      rw [hget]
      exact if_neg hredefines

theorem fate_claimDue {claimTtlMs : Int} {limit : Nat} (httl : 0 < claimTtlMs)
    (h : (st.claimDue workerId now limit claimTtlMs).2.map.get? id = some t') :
    Fate st id (.claimDue workerId now limit claimTtlMs) t' := by
  rcases st.get?_claimDue httl id with ⟨-, hsame⟩ | ⟨t, hget, heligible, -, hclaimed⟩
  · exact .same (get?_of_pruned (hsame ▸ h)) fun hstores => by cases hstores
  · cases hclaimed.symm.trans h
    exact .claimed (get?_of_pruned hget) heligible

theorem get?_of_update {k : String} {f : TaskRecord Q → TaskRecord Q} (hf : ∀ t, (f t).key = t.key)
    (h : (st.map.update k f hf).get? id = some t') :
    st.map.get? id = some t' ∧ id ≠ k ∨ ∃ t, id = k ∧ st.map.get? k = some t ∧ t' = f t := by
  by_cases hid : id = k
  · subst hid
    rw [Table.get?_update_self, Option.map_eq_some_iff] at h
    obtain ⟨t, hget, rfl⟩ := h
    exact .inr ⟨t, rfl, hget, rfl⟩
  · rw [Table.get?_update_ne hid] at h
    exact .inl ⟨h, hid⟩

theorem Rewrites.get?_cases {st' : InMemoryScheduledTaskStore Q} {k : String}
    {p : TaskRecord Q → Bool} {f : TaskRecord Q → TaskRecord Q} {hf : ∀ t, (f t).key = t.key}
    (hr : st.Rewrites k p f hf st') (h : st'.map.get? id = some t') :
    st.map.get? id = some t' ∧ (k = id → ¬ (st.map.get? k).any p) ∨
      ∃ t, id = k ∧ st.map.get? k = some t ∧ p t ∧ t' = f t := by
  rcases hr.map_cases with ⟨hno, rfl⟩ | ⟨t, hget, hp, hmap⟩
  · exact .inl ⟨h, fun _ => hno⟩
  · rw [hmap] at h
    rcases get?_of_update hf h with ⟨hsame, hid⟩ | ⟨t₀, hid, hget₀, rfl⟩
    · exact .inl ⟨hsame, fun heq => absurd heq.symm hid⟩
    · cases hget.symm.trans hget₀
      exact .inr ⟨t, hid, hget, hp, rfl⟩

theorem extendLease_cases {ids : List String}
    (h : (st.extendLease now ids workerId).map.get? id = some t') :
    st.map.get? id = some t' ∨
      ∃ t, st.map.get? id = some t ∧ t.owns workerId ∧ t' = t.extend now := by
  unfold extendLease at h
  induction ids generalizing st with
  | nil => exact .inl h
  | cons k ids ih =>
    have hone {u : TaskRecord Q} (hu : (extendOne now workerId st k).map.get? id = some u) :
        st.map.get? id = some u ∨
          ∃ t, st.map.get? id = some t ∧ t.owns workerId ∧ u = t.extend now := by
      rcases rewrites_extendOne.get?_cases hu with ⟨hsame, -⟩ | ⟨t, rfl, hget, ho, rfl⟩
      · exact .inl hsame
      · exact .inr ⟨t, hget, ho, rfl⟩
    rcases ih h with hsame | ⟨u, hu, ho, rfl⟩
    · exact hone hsame
    · rcases hone hu with hsame | ⟨t, hget, ho', rfl⟩
      · exact .inr ⟨u, hsame, ho, rfl⟩
      · exact .inr ⟨t, hget, ho', rfl⟩

theorem fate_next (h : (st.next a).map.get? id = some t') (ha : a.Leased) : Fate st id a t' := by
  cases a with
  | enqueue now task => exact fate_enqueue h
  | claimDue workerId now limit claimTtlMs => exact fate_claimDue ha h
  | markCompleted now k workerId =>
    rcases rewrites_markCompleted.get?_cases h with ⟨hsame, -⟩ | ⟨t, rfl, hget, ho, rfl⟩
    · exact .same hsame fun hstores => by cases hstores
    · exact .completed hget ho
  | markFailed now k error workerId =>
    rcases rewrites_markFailed.get?_cases h with ⟨hsame, -⟩ | ⟨t, rfl, hget, ho, rfl⟩
    · exact .same hsame fun hstores => by cases hstores
    · exact .failed hget ho
  | reschedule k nextRunAt workerId error =>
    rcases rewrites_reschedule.get?_cases h with ⟨hsame, hno⟩ | ⟨t, rfl, hget, ho, rfl⟩
    · exact .same hsame fun hstores => if_neg (hno (Option.some.inj hstores))
    · exact .rescheduled hget ho
  | extendLease now ids workerId =>
    rcases extendLease_cases h with hsame | ⟨t, hget, ho, rfl⟩
    · exact .same hsame fun hstores => by cases hstores
    · exact .extended hget ho
  | cancel now k =>
    rcases rewrites_cancel.get?_cases h with ⟨hsame, -⟩ | ⟨t, rfl, hget, -, rfl⟩
    · exact .same hsame fun hstores => by cases hstores
    · exact .cancelled hget
  | list now status limit => exact .same (get?_of_pruned h) fun hstores => by cases hstores

end InMemoryScheduledTaskStore

/-- What the update makes of the task. -/
def TaskUpdate.apply (completedAt : Int) (t : TaskRecord Q) : TaskUpdate → TaskRecord Q
  | .completed => t.complete completedAt
  | .failed error => t.fail completedAt error
  | .rescheduled nextRunAt error => t.reschedule nextRunAt error

theorem fate_action {u : TaskUpdate} {k workerId : String} {completedAt : Int}
    (h : (st.next (u.action k workerId completedAt)).map.get? id = some t') :
    (st.map.get? id = some t' ∧ ((u.action (Q := Q) k workerId completedAt).stores = some id →
      st.events (u.action k workerId completedAt) = [])) ∨
    ∃ t, id = k ∧ st.map.get? k = some t ∧ t.owns workerId ∧ t' = u.apply completedAt t := by
  cases u with
  | completed =>
    cases InMemoryScheduledTaskStore.fate_next h trivial with
    | same hget hevents => exact .inl ⟨hget, hevents⟩
    | completed hget ho => exact .inr ⟨_, rfl, hget, ho, rfl⟩
  | failed error =>
    cases InMemoryScheduledTaskStore.fate_next h trivial with
    | same hget hevents => exact .inl ⟨hget, hevents⟩
    | failed hget ho => exact .inr ⟨_, rfl, hget, ho, rfl⟩
  | rescheduled nextRunAt error =>
    cases InMemoryScheduledTaskStore.fate_next h trivial with
    | same hget hevents => exact .inl ⟨hget, hevents⟩
    | rescheduled hget ho => exact .inr ⟨_, rfl, hget, ho, rfl⟩

end Fate

/-! ## The steps -/

section Turns

variable {platform : Platform} {s s' : SchedulerState Q} {act : SchedulerAction Q}

/-- Every run is an earlier one, which has not become active again. -/
def Continues (runs runs' : List (FlushRun Q)) : Prop :=
  ∀ r' ∈ runs', ∃ r ∈ runs, r'.task = r.task ∧ r'.workerId = r.workerId ∧ (r'.active → r.active)

theorem Continues.refl (runs : List (FlushRun Q)) : Continues runs runs :=
  fun r hr => ⟨r, hr, rfl, rfl, id⟩

variable {r : FlushRun Q}

theorem continues_set {runs : List (FlushRun Q)} {i : Nat} {r' : FlushRun Q}
    (hr : runs[i]? = some r) (htask : r'.task = r.task) (hworker : r'.workerId = r.workerId)
    (hactive : r.active) : Continues runs (runs.set i r') := by
  intro x hx
  rcases List.mem_or_eq_of_mem_set hx with hold | rfl
  · exact Continues.refl runs x hold
  · exact ⟨r, List.mem_of_getElem? hr, htask, hworker, fun _ => hactive⟩

theorem FlushRun.active_of_claimed (h : r.phase = .claimed) : r.active := by
  unfold FlushRun.active
  rw [h]

theorem FlushRun.active_of_handling {u : Unit} (h : r.phase = .handling u) : r.active := by
  unfold FlushRun.active
  rw [h]

/-- The update that the step makes for the run `i`, and the clock that it is made at. -/
inductive Settles (platform : Platform) (i : Nat) (r : FlushRun Q) :
    SchedulerAction Q → Int → TaskUpdate → Prop
  | unhandled {now : Int} :
      Settles platform i r (.lookup i false now) now (.failed (noHandler r.task.name))
  | resolved {now completedAt : Int} :
      Settles platform i r (.resolved i now completedAt) now
        (r.task.afterHandled (tickOn platform) now)
  | rejected {error : String} {now completedAt : Int} :
      Settles platform i r (.rejected i error now completedAt) now
        (r.task.afterRejected (tickOn platform) now error)

/-- What a step can do. -/
inductive Turn (platform : Platform) (s : SchedulerState Q) :
    SchedulerAction Q → SchedulerState Q → Prop
  | rests {act : SchedulerAction Q} {runs : List (FlushRun Q)} :
      Continues s.runs runs → Turn platform s act { s with runs }
  | enqueueCron {w : Scheduler} {name cron : String} {payload : Q} {opts : EnqueueCronOptions}
      {now createdAt prunedAt : Int} {task : TaskRecord Q} :
      w.cronTask platform name payload cron opts now createdAt = .ok task →
      Turn platform s (.enqueueCron w name payload cron opts now createdAt prunedAt)
        (s.call (.enqueue prunedAt task) now)
  | enqueueAt {w : Scheduler} {id name : String} {payload : Q} {runAt : OrNaN Int}
      {maxAttempts : Option Int} {createdAt prunedAt : Int} :
      Turn platform s (.enqueueAt w id name payload runAt maxAttempts createdAt prunedAt)
        (s.call (.enqueue prunedAt
          (w.newTask id name payload runAt none none maxAttempts createdAt)) createdAt)
  | cancel {id : String} {now : Int} :
      Turn platform s (.cancel id now) (s.call (.cancel now id) now)
  | list {status : Option TaskStatus} {limit : Option Nat} {now : Int} :
      Turn platform s (.list status limit now) (s.call (.list now status limit) now)
  | heartbeat {w : Scheduler} {ids : List String} {now : Int} :
      Turn platform s (.heartbeat w ids now) (s.call (.extendLease now ids w.workerId) now)
  | flushOnce {w : Scheduler} {now : Int} :
      Turn platform s (.flushOnce w now)
        { s.call (.claimDue w.workerId now w.batchSize w.claimTtlMs) now with
          runs := s.runs ++ (s.store.claimDue w.workerId now w.batchSize w.claimTtlMs).1.map
            fun t =>
            { task := t.toScheduledTask, workerId := w.workerId } }
  | settles {act : SchedulerAction Q} {i : Nat} {r : FlushRun Q} {u : TaskUpdate}
      {runs : List (FlushRun Q)} {now completedAt : Int} :
      s.runs[i]? = some r → r.active → Continues s.runs runs → Settles platform i r act now u →
      Turn platform s act
        (SchedulerState.call { s with runs } (u.action r.task.id r.workerId completedAt) now)

theorem turn_of_step (h : s.step platform act = some s') : Turn platform s act s' := by
  cases act with
  | enqueueCron w name payload cron opts now createdAt prunedAt =>
    unfold SchedulerState.step at h
    dsimp only at h
    split at h
    next task htask =>
      cases h
      exact .enqueueCron htask
    next =>
      cases h
      exact .rests (.refl _)
  | enqueueAt w id name payload runAt maxAttempts createdAt prunedAt =>
    cases h
    exact .enqueueAt
  | cancel id now =>
    cases h
    exact .cancel
  | list status limit now =>
    cases h
    exact .list
  | flushOnce w now =>
    cases h
    exact .flushOnce
  | heartbeat w ids now =>
    cases h
    exact .heartbeat
  | lookup i registered now =>
    obtain ⟨r, hr, h⟩ := Option.bind_eq_some_iff.mp h
    split at h
    next hphase =>
      have hactive := FlushRun.active_of_claimed hphase
      cases h
      cases registered with
      | true => exact .rests (continues_set hr rfl rfl hactive)
      | false =>
        exact .settles hr hactive (continues_set hr rfl rfl hactive) .unhandled
    next => cases h
  | resolved i now completedAt =>
    obtain ⟨r, hr, h⟩ := Option.bind_eq_some_iff.mp h
    split at h
    next hphase =>
      have hactive := FlushRun.active_of_handling hphase
      cases h
      exact .settles hr hactive (continues_set hr rfl rfl hactive) .resolved
    next => cases h
  | rejected i error now completedAt =>
    obtain ⟨r, hr, h⟩ := Option.bind_eq_some_iff.mp h
    split at h
    next hphase =>
      have hactive := FlushRun.active_of_handling hphase
      cases h
      exact .settles hr hactive (continues_set hr rfl rfl hactive) .rejected
    next => cases h
  | dropped i =>
    obtain ⟨r, hr, h⟩ := Option.bind_eq_some_iff.mp h
    split at h
    next hphase =>
      have hactive := FlushRun.active_of_handling hphase
      cases h
      exact .rests (continues_set hr rfl rfl hactive)
    next => cases h

end Turns

/-! ## The copy of a run is the task -/

section Held

variable {s s' : SchedulerState Q} {a : StoreAction Q} {r : FlushRun Q} {t : TaskRecord Q}

/-- The run still has the task as it is stored, if its scheduler owns it. -/
def FlushRun.Holds (r : FlushRun Q) (st : InMemoryScheduledTaskStore Q) : Prop :=
  ∀ t, st.map.get? r.task.id = some t → t.owns r.workerId → t.toScheduledTask = r.task

/-- This is so for every run that goes on. -/
def SchedulerState.Held (s : SchedulerState Q) : Prop :=
  ∀ r ∈ s.runs, r.active → r.Holds s.store

/-- No task that can be claimed is one that the scheduler is still running. -/
def SchedulerState.Alone (s : SchedulerState Q) (w : Scheduler) (now : Int) : Prop :=
  ∀ r ∈ s.runs, r.active → r.workerId = w.workerId →
    ∀ t ∈ s.store.map.get? r.task.id, ¬ t.eligible now w.claimTtlMs

instance (w : Scheduler) (now : Int) : Decidable (s.Alone w now) :=
  inferInstanceAs (Decidable (∀ r ∈ s.runs, _ → _ → ∀ t ∈ s.store.map.get? r.task.id, _))

/-- An operation that the step of a scheduler may call, from the sight of a run. -/
def FlushRun.Spares (r : FlushRun Q) (st : InMemoryScheduledTaskStore Q) : StoreAction Q → Prop
  | .enqueue _ task => task.status = .pending
  | .claimDue workerId now _ claimTtlMs => 0 < claimTtlMs ∧ (workerId = r.workerId →
      ∀ t ∈ st.map.get? r.task.id, ¬ t.eligible now claimTtlMs)
  | _ => True

variable {st : InMemoryScheduledTaskStore Q}

theorem FlushRun.Spares.leased (h : r.Spares st a) : a.Leased := by
  cases a <;> first | exact h.1 | trivial

theorem not_owns_of_status {workerId : String} (h : t.status ≠ .running) : ¬ t.owns workerId :=
  fun ho => h (owns_iff.mp ho).1

theorem FlushRun.Holds.next (h : r.Holds st) (ha : r.Spares st a) : r.Holds (st.next a) := by
  intro t' hget ho
  cases InMemoryScheduledTaskStore.fate_next hget ha.leased with
  | same hold _ => exact h t' hold ho
  | @enqueued _ _ task _ _ =>
    have hpending : task.status = .pending := ha
    exact absurd ho (not_owns_of_status (by rw [hpending]; decide))
  | claimed hold heligible =>
    have hworker := Option.some.inj (owns_iff.mp ho).2
    exact absurd heligible (ha.2 hworker _ hold)
  | completed _ _ | rescheduled _ _ | cancelled _ =>
    exact absurd ho (not_owns_of_status (by intro hstatus; cases hstatus))
  | @failed t error _ now _ _ =>
    rcases t.status_fail now error with hstatus | hstatus <;>
      exact absurd ho (not_owns_of_status (by rw [hstatus]; decide))
  | @extended t _ _ _ hold _ => exact h t hold ho

theorem SchedulerState.Held.call (h : s.Held) (now : Int)
    (ha : ∀ r ∈ s.runs, r.active → r.Spares s.store a) : (s.call a now).Held :=
  fun r hr hactive => (h r hr hactive).next (ha r hr hactive)

theorem SchedulerState.Held.continues {runs : List (FlushRun Q)} (h : s.Held)
    (hruns : Continues s.runs runs) : SchedulerState.Held { s with runs } := by
  intro r' hr' hactive
  obtain ⟨r, hr, htask, hworker, hback⟩ := hruns r' hr'
  unfold FlushRun.Holds
  rw [htask, hworker]
  exact h r hr (hback hactive)

theorem get?_of_claimed {workerId : String} {now claimTtlMs : Int} {limit : Nat}
    (httl : 0 < claimTtlMs) (ht : t ∈ (st.claimDue workerId now limit claimTtlMs).1) :
    (st.claimDue workerId now limit claimTtlMs).2.map.get? t.id = some t := by
  rw [InMemoryScheduledTaskStore.map_claimDue]
  exact Table.get?_of_mem
    (((InMemoryScheduledTaskStore.claimEnd_claims workerId now limit st httl).rows t).mpr (.inr ht))

/-- The only step that can break it is a claim. -/
def SchedulerAction.Undisturbed (s : SchedulerState Q) : SchedulerAction Q → Prop
  | .flushOnce w now => s.Alone w now
  | _ => True

variable {platform : Platform} {act : SchedulerAction Q}

theorem held_step (h : s.Held) (hact : act.Undisturbed s) (hstep : s.step platform act = some s') :
    s'.Held := by
  cases turn_of_step hstep with
  | rests hruns => exact h.continues hruns
  | enqueueCron htask =>
    obtain ⟨next, -, -, rfl⟩ := Scheduler.cronTask_eq_ok htask
    exact h.call _ fun _ _ _ => rfl
  | enqueueAt => exact h.call _ fun _ _ _ => rfl
  | cancel | list | heartbeat => exact h.call _ fun _ _ _ => trivial
  | @flushOnce w now =>
    intro r hr hactive
    rcases List.mem_append.mp hr with hold | hnew
    · have hspares (r : FlushRun Q) (hr : r ∈ s.runs) (hactive : r.active) :
          r.Spares s.store (.claimDue w.workerId now w.batchSize w.claimTtlMs) :=
        ⟨w.claimTtlMs_lt, fun hw => hact r hr hactive hw.symm⟩
      exact h.call now hspares r hold hactive
    · obtain ⟨t, ht, rfl⟩ := List.mem_map.mp hnew
      intro t' hget _
      cases (get?_of_claimed w.claimTtlMs_lt ht).symm.trans hget
      rfl
  | @settles _ _ r u runs now completedAt _ _ hruns _ =>
    refine (h.continues hruns).call now fun r' _ _ => ?_
    cases u <;> trivial

end Held

end NevoMessaging
