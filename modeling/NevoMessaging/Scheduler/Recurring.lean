import NevoMessaging.Cron.Daylight
import NevoMessaging.Scheduler.Flush

/-!
# Recurring tasks

A cron task goes on from tick to tick. After its last attempt has failed it is put on the next tick
and does not become terminal. A scheduler without the handler of the task is an exception: it marks
the attempt as failed without a look at the cron expression, and the task ends for all schedulers.

`enqueueCron` stores what `nextCronTick` returns, also if that is `-1`, which is due at once.

Results:
1. `recurring_step`: no step ends a task whose expression always has a next tick.
2. `recurring_survives`: so no run does, if no last attempt is made without a handler.
3. `ticks_step`: what a step stores as `runAt` is on schedule and after the clock.
4. `stored_ticks_real`: so it is in every run, if every expression has a tick when it is enqueued.
-/

namespace NevoMessaging

open List
open InMemoryScheduledTaskStore (fate_next)

open JsString

variable {Q : Type} {platform : Platform}

/-! ## The ticks of stored tasks -/

section Ticks

variable {cron : String} {start : Int} {timezone : Option String}

theorem nextCronTick_eq_ok {expr : JsString} {start : ℚ} {opts : CronOptions} {t : Int}
    (h : nextCronTick platform expr start opts = .ok t) :
    ∃ parsed tz, parseCron expr = .ok parsed ∧ timezoneOf platform opts = .ok tz ∧
      t = tickOf parsed start tz := by
  unfold nextCronTick at h
  cases hparse : parseCron expr with
  | error e =>
    rw [hparse] at h
    cases h
  | ok parsed =>
    cases htz : timezoneOf platform opts with
    | error e =>
      rw [hparse, htz] at h
      cases h
    | ok tz =>
      rw [hparse, htz] at h
      cases h
      exact ⟨parsed, tz, rfl, rfl, rfl⟩

theorem tickOn_eq (hne : tickOn platform cron start timezone ≠ -1) :
    ∃ parsed tz, parseCron (lit cron) = .ok parsed ∧
      timezoneOf platform { timezone := timezone.map lit } = .ok tz ∧
      tickOn platform cron start timezone = tickOf parsed start tz := by
  unfold tickOn at hne ⊢
  split at hne
  next tick htick =>
    obtain ⟨parsed, tz, hparse, htz, rfl⟩ := nextCronTick_eq_ok htick
    exact ⟨parsed, tz, hparse, htz, rfl⟩
  next => exact absurd rfl hne

theorem lt_tickOn (hne : tickOn platform cron start timezone ≠ -1) :
    start < tickOn platform cron start timezone := by
  obtain ⟨parsed, tz, -, -, htick⟩ := tickOn_eq hne
  rw [htick] at hne ⊢
  exact_mod_cast lt_tickOf hne

theorem lit_eq_nil {s : String} : lit s = [] ↔ s = "" := by
  constructor
  · intro h
    rw [← String.toList_eq_nil_iff]
    cases hs : s.toList with
    | nil => rfl
    | cons c cs =>
      unfold lit at h
      rw [hs, flatMap_cons] at h
      have hunits := (append_eq_nil_iff.mp h).1
      unfold unitsOf at hunits
      split at hunits <;> cases hunits
  · rintro rfl
    rfl

theorem truthy_map_lit (s : Option String) : JsString.truthy (s.map lit) = (truthy s).map lit := by
  cases s with
  | none => rfl
  | some s =>
    unfold JsString.truthy truthy
    by_cases hs : s = ""
    · subst hs
      rfl
    · have hlit : lit s ≠ [] := fun h => hs (lit_eq_nil.mp h)
      simp [Option.filter, hlit, hs]

theorem truthy_truthy (s : Option String) : truthy (truthy s) = truthy s := by
  unfold truthy
  rw [Option.filter_filter, funext fun x => Bool.and_self (decide (x ≠ ""))]

theorem timezoneOf_stored (utc : Bool) (timezone : Option String) :
    timezoneOf platform
        { timezone := (truthy (if utc then some "UTC" else timezone)).map lit } =
      timezoneOf platform { utc, timezone := timezone.map lit } := by
  unfold timezoneOf
  cases utc with
  | true => rfl
  | false =>
    rw [if_neg Bool.false_ne_true, if_neg Bool.false_ne_true, if_neg Bool.false_ne_true,
      truthy_map_lit, truthy_map_lit, truthy_truthy]

theorem tickOn_stored {utc : Bool} {next : Int}
    (h : nextCronTick platform (lit cron) start { utc, timezone := timezone.map lit } = .ok next) :
    tickOn platform cron start (truthy (if utc then some "UTC" else timezone)) = next := by
  obtain ⟨parsed, tz, hparse, htz, rfl⟩ := nextCronTick_eq_ok h
  unfold tickOn
  rw [nextCronTick_eq hparse ((timezoneOf_stored utc timezone).trans htz)]

end Ticks

/-! ## No failure ends a recurring task -/

section Survives

/-- The expression of the task always has a next tick. -/
def ScheduledTask.Recurs (platform : Platform) (task : ScheduledTask Q) : Prop :=
  ∃ cron, truthy task.cron = some cron ∧
    ∀ start : Int, 0 ≤ start → tickOn platform cron start (truthy task.timezone) ≠ -1

variable {task : ScheduledTask Q} {now : Int} {error : String}

theorem afterHandled_of_recurs (h : task.Recurs platform) (hrun : 0 ≤ task.runAt) (hnow : 0 ≤ now) :
    ∃ next, 0 < next ∧ task.afterHandled (tickOn platform) now = .rescheduled next none := by
  obtain ⟨cron, hcron, htick⟩ := h
  have hnonneg := OrNaN.le_getD hrun 0
  have hlt := lt_tickOn (htick _ hnonneg)
  have hlt' := lt_tickOn (htick now hnow)
  unfold ScheduledTask.afterHandled
  rw [hcron]
  dsimp only
  split
  · exact ⟨_, by omega, if_pos (by omega)⟩
  · exact ⟨_, by omega, if_pos (by omega)⟩

theorem afterRejected_of_recurs (h : task.Recurs platform) (hnow : 0 ≤ now) :
    (∃ next, 0 < next ∧
      task.afterRejected (tickOn platform) now error = .rescheduled next (some error)) ∨
    task.attempts + 1 < task.maxAttempts ∧
      task.afterRejected (tickOn platform) now error = .failed error := by
  obtain ⟨cron, hcron, htick⟩ := h
  have hlt := lt_tickOn (htick now hnow)
  unfold ScheduledTask.afterRejected
  rw [hcron]
  dsimp only
  split
  · exact .inl ⟨_, by omega, if_pos (by omega)⟩
  · exact .inr ⟨by omega, rfl⟩

/-- A task that always has a next tick is neither failed nor completed. -/
def TaskRecord.Alive (platform : Platform) (t : TaskRecord Q) : Prop :=
  t.Recurs platform → 0 ≤ t.runAt ∧ t.status ≠ .failed ∧ t.status ≠ .completed

/-- The clock shows 1970 or later, no scheduler claims a task that it is still running, and no last
attempt of a cron task is made by a scheduler without its handler. -/
def SchedulerAction.Attended (s : SchedulerState Q) : SchedulerAction Q → Prop
  | .enqueueCron _ _ _ _ _ now _ _ => 0 ≤ now
  | .flushOnce w now => s.Alone w now
  | .lookup i registered _ => registered ∨ ∀ r ∈ s.runs[i]?,
      truthy r.task.cron = none ∨ r.task.attempts + 1 < r.task.maxAttempts
  | .resolved _ now _ => 0 ≤ now
  | .rejected _ _ now _ => 0 ≤ now
  | _ => True

variable {s s' : SchedulerState Q} {act : SchedulerAction Q} {t t' : TaskRecord Q}

theorem SchedulerAction.Attended.undisturbed (h : act.Attended s) : act.Undisturbed s := by
  cases act <;> first | exact h | trivial

def SchedulerState.Recurring (platform : Platform) (s : SchedulerState Q) : Prop :=
  ∀ id t, s.store.map.get? id = some t → t.Alive platform

theorem alive_of (status : TaskStatus) (hrun : 0 ≤ t.runAt) (hstatus : t.status = status)
    (hne : status ≠ .failed ∧ status ≠ .completed) :
    0 ≤ t.runAt ∧ t.status ≠ .failed ∧ t.status ≠ .completed :=
  ⟨hrun, hstatus ▸ hne⟩

theorem status_fail_of_lt (hlast : t.attempts + 1 < t.maxAttempts) :
    (t.fail now error).status = .pending := by
  unfold TaskRecord.fail
  dsimp only
  rw [if_neg (by omega)]

theorem alive_fail (h : t.Alive platform)
    (hlast : t.Recurs platform → t.attempts + 1 < t.maxAttempts) :
    (t.fail now error).Alive platform := by
  intro hrec
  unfold ScheduledTask.Recurs at hrec
  rw [t.toScheduledTask_fail] at hrec
  refine alive_of .pending ?_ (status_fail_of_lt (hlast hrec)) (by decide)
  rw [t.toScheduledTask_fail]
  exact (h hrec).1

theorem recurs_apply {u : TaskUpdate} {completedAt : Int} :
    (u.apply completedAt t).Recurs platform ↔ t.Recurs platform := by
  cases u with
  | completed | rescheduled nextRunAt error => rfl
  | failed error =>
    unfold ScheduledTask.Recurs TaskUpdate.apply
    dsimp only
    rw [t.toScheduledTask_fail]

theorem alive_settles {i : Nat} {r : FlushRun Q} {u : TaskUpdate} (h : t.Alive platform)
    (hr : s.runs[i]? = some r) (htask : t.toScheduledTask = r.task) (hact : act.Attended s)
    (hu : Settles platform i r act now u) (completedAt : Int) :
    (u.apply completedAt t).Alive platform := by
  cases hu with
  | unhandled =>
    refine alive_fail h fun hrec => ?_
    obtain ⟨cron, hcron, -⟩ := hrec
    rcases hact.resolve_left Bool.false_ne_true r hr with hnone | hlast
    · rw [← htask, hcron] at hnone
      cases hnone
    · exact htask ▸ hlast
  | resolved =>
    intro hrec
    have hrec' := recurs_apply.mp hrec
    obtain ⟨next, hpos, hnext⟩ :=
      afterHandled_of_recurs (htask ▸ hrec') (htask ▸ (h hrec').1) (show 0 ≤ now from hact)
    rw [hnext]
    exact alive_of .pending hpos.le rfl (by decide)
  | rejected =>
    intro hrec
    have hrec' := recurs_apply.mp hrec
    rcases afterRejected_of_recurs (htask ▸ hrec') (show 0 ≤ now from hact) with
      ⟨next, hpos, hnext⟩ | ⟨hlast, hfailed⟩
    · rw [hnext]
      exact alive_of .pending hpos.le rfl (by decide)
    · rw [hfailed] at hrec ⊢
      exact alive_fail h (fun _ => htask ▸ hlast) hrec

theorem recurring_step (hheld : s.Held) (h : s.Recurring platform) (hact : act.Attended s)
    (hstep : s.step platform act = some s') : s'.Recurring platform := by
  intro id t' hget
  cases turn_of_step hstep with
  | rests _ => exact h id t' hget
  | @enqueueCron w name cron payload opts now createdAt prunedAt task htask =>
    cases fate_next hget trivial with
    | same hold _ => exact h id t' hold
    | enqueued _ _ =>
      obtain ⟨next, -, hnext, rfl⟩ := Scheduler.cronTask_eq_ok htask
      rintro ⟨cron', hcron, htick⟩
      obtain rfl : cron = cron' := Option.some.inj (Option.filter_eq_some_iff.mp hcron).1
      have hlt := lt_tickOn (htick now hact)
      change now < tickOn platform cron now
        (truthy (if opts.utc then some "UTC" else opts.timezone)) at hlt
      rw [tickOn_stored hnext] at hlt
      have hnow : 0 ≤ now := hact
      exact alive_of .pending (show 0 ≤ next by omega) rfl (by decide)
  | enqueueAt =>
    cases fate_next hget trivial with
    | same hold _ => exact h id t' hold
    | enqueued _ _ =>
      rintro ⟨cron, hcron, -⟩
      cases hcron
  | cancel =>
    cases fate_next hget trivial with
    | same hold _ => exact h id t' hold
    | cancelled hold =>
      intro hrec
      exact alive_of .cancelled (h id _ hold hrec).1 rfl (by decide)
  | list =>
    cases fate_next hget trivial with
    | same hold _ => exact h id t' hold
  | heartbeat =>
    cases fate_next hget trivial with
    | same hold _ => exact h id t' hold
    | @extended t _ _ _ hold _ => exact h id t hold
  | @flushOnce w now =>
    cases fate_next hget w.leased with
    | same hold _ => exact h id t' hold
    | claimed hold _ =>
      intro hrec
      exact alive_of .running (h id _ hold hrec).1 rfl (by decide)
  | @settles _ i r u runs now completedAt hr hactive _ hu =>
    rcases fate_action hget with ⟨hold, -⟩ | ⟨t, rfl, hold, ho, rfl⟩
    · exact h id t' hold
    · have htask := hheld r (mem_of_getElem? hr) hactive t hold ho
      exact alive_settles (h _ t hold) hr htask hact hu completedAt

/-- In every run in which no last attempt of a cron task is made without its handler: a task whose
expression always has a next tick is neither failed nor completed. -/
theorem recurring_survives (platform : Platform) (terminalRetentionMs maxTerminalTasks : Option Int)
    (s : SchedulerState Q) (h : (schedulerMachine platform terminalRetentionMs
      maxTerminalTasks).Reach
      (fun s act => act.Attended s) s)
    (t : TaskRecord Q) (ht : t ∈ s.store.map.rows) (hrec : t.Recurs platform) :
    t.status ≠ .failed ∧ t.status ≠ .completed := by
  have hinv : s.Held ∧ s.Recurring platform := by
    refine h.invariant ⟨?_, ?_⟩ ?_
    · exact fun r hr => absurd hr not_mem_nil
    · intro id t hget
      cases hget
    · rintro s s' act - ⟨hheld, halive⟩ hact hstep
      exact ⟨held_step hheld hact.undisturbed hstep, recurring_step hheld halive hact hstep⟩
  exact (hinv.2 t.key t (Table.get?_of_mem ht) hrec).2

instance (act : SchedulerAction Q) : Decidable (act.Attended s) := by
  unfold SchedulerAction.Attended
  split <;> infer_instance

theorem recurs_everyMinute (platform : Platform) (hcron : task.cron = some "* * * * *")
    (htimezone : task.timezone = some "UTC") : task.Recurs platform := by
  obtain ⟨parsed, hparsed, hall⟩ := exists_everyMinute
  refine ⟨"* * * * *", by rw [hcron]; decide, fun start _ => ?_⟩
  have htz : timezoneOf platform { timezone := (truthy task.timezone).map lit } =
      .ok (.named (.fixed 0)) := by
    rw [htimezone]
    exact (timezoneOf_stored true none).trans (timezoneOf_utc platform)
  have htick : tickOn platform "* * * * *" start (truthy task.timezone) =
      tickOf parsed start (.named (.fixed 0)) := by
    unfold tickOn
    rw [nextCronTick_eq hparsed htz]
  rw [htick]
  intro hnone
  have hfixed (t : Int) : (Timezone.named (.fixed 0)).zone.offset t = 0 := rfl
  have hlater := (tickOf_eq_neg_one hfixed).mp hnone (fromMinuteOf start) (lt_fromMinuteOf _)
    (by rw [fromMinuteOf_eq]; exact onSchedule_minute.mpr (hall _))
  omega

/-- A scheduler with the default options. -/
def worker (workerId : String) : Scheduler := .create workerId {}

/-- A task for every minute, with one attempt, that is claimed at its first tick. -/
def beatClaimed : List (SchedulerAction Unit) :=
  [.enqueueCron (worker "w1") "beat" () "* * * * *" { utc := true, maxAttempts := some 1 } 0 0 0,
    .flushOnce (worker "w1") 60000]

theorem recurring_survives_beat : ∃ s : SchedulerState Unit, ∃ t ∈ s.store.map.rows,
    (schedulerMachine utcPlatform none none).Reach (fun s act => act.Attended s) s ∧
      t.Recurs utcPlatform ∧ t.runAt = 120000 ∧ t.status ≠ .failed ∧ t.status ≠ .completed := by
  obtain ⟨s, hs, hobs⟩ := Machine.Reach.observe (schedulerMachine utcPlatform none none)
    (fun s act => act.Attended s)
    (beatClaimed ++ [.lookup 0 true 60000, .rejected 0 "broken" 60000 60000])
    (fun s => s.store.map.rows.map fun t => (t.cron, t.timezone, t.runAt))
    [(some "* * * * *", some "UTC", 120000)] (by decide +kernel)
  obtain ⟨t, ht, hfields⟩ := mem_map.mp (hobs ▸ mem_singleton.mpr rfl)
  obtain ⟨hcron, hfields⟩ := Prod.mk.inj hfields
  obtain ⟨htimezone, hrun⟩ := Prod.mk.inj hfields
  have hrec := recurs_everyMinute utcPlatform hcron htimezone
  exact ⟨s, t, ht, hs, hrec, hrun, recurring_survives utcPlatform none none s hs t ht hrec⟩

/-- The scheduler that claims the task has no handler for it, and the task has failed for good. -/
theorem unhandled_beat_fails : ∃ s : SchedulerState Unit, ∃ t ∈ s.store.map.rows,
    (schedulerMachine utcPlatform none none).Reach Machine.free s ∧ t.Recurs utcPlatform ∧
      t.status = .failed := by
  obtain ⟨s, hs, hobs⟩ := Machine.Reach.observe (schedulerMachine utcPlatform none none)
    Machine.free (beatClaimed ++ [.lookup 0 false 60000])
    (fun s => s.store.map.rows.map fun t => (t.cron, t.timezone, t.status))
    [(some "* * * * *", some "UTC", .failed)] (by decide +kernel)
  obtain ⟨t, ht, hfields⟩ := mem_map.mp (hobs ▸ mem_singleton.mpr rfl)
  obtain ⟨hcron, hfields⟩ := Prod.mk.inj hfields
  obtain ⟨htimezone, hstatus⟩ := Prod.mk.inj hfields
  exact ⟨s, t, ht, hs, recurs_everyMinute utcPlatform hcron htimezone, hstatus⟩

end Survives

/-! ## What is stored is a tick -/

section Real

variable {parsed : ParsedCron} {cron : String} {timezone : Option String} {now : Int}

def utc : Timezone := .named (.fixed 0)

theorem offset_utc (t : Int) : utc.zone.offset t = 0 := rfl

/-- The expression is evaluated in UTC, be it as the zone of the host or under some name. -/
def InUtc (platform : Platform) (opts : CronOptions) : Prop :=
  ∃ tz, timezoneOf platform opts = .ok tz ∧ ∀ t, tz.zone.offset t = 0

/-- An instant on schedule comes on one of the 1466 days from `now` on. -/
def HasTick (parsed : ParsedCron) (now : Int) : Prop :=
  ∃ t : Int, now < t ∧ OnSchedule parsed utc t ∧
    t / 86400000 < fromMinuteOf now / 86400000 + 1466

theorem onSchedule_utc {tz : Timezone} (h : ∀ t, tz.zone.offset t = 0) {t : Int} :
    OnSchedule parsed tz t ↔ OnSchedule parsed utc t := by
  rw [onSchedule_iff, onSchedule_iff, clockAt_fixed h, clockAt_fixed offset_utc]

theorem tickOn_utc {start : Int} (hutc : InUtc platform { timezone := timezone.map lit })
    (hne : tickOn platform cron start timezone ≠ -1) : ∃ parsed, parseCron (lit cron) = .ok parsed ∧
      OnSchedule parsed utc (tickOn platform cron start timezone) := by
  obtain ⟨parsed, tz, hparse, htz, htick⟩ := tickOn_eq hne
  obtain ⟨tz', htz', hfixed⟩ := hutc
  cases htz.symm.trans htz'
  rw [htick] at hne ⊢
  exact ⟨parsed, hparse, (onSchedule_utc hfixed).mp (tickOf_onSchedule (spread_fixed hfixed) hne)⟩

theorem tickOf_ne {tz : Timezone} (hfixed : ∀ t, tz.zone.offset t = 0) (h : HasTick parsed now) :
    tickOf parsed now tz ≠ -1 := by
  intro hnone
  obtain ⟨t, hlt, hsched, hday⟩ := h
  have hlate := (tickOf_eq_neg_one hfixed).mp hnone t (by exact_mod_cast hlt)
    ((onSchedule_utc hfixed).mpr hsched)
  rw [clockAt_fixed hfixed, clockAt_fixed hfixed] at hlate
  omega

/-- The `runAt` of a cron task is on schedule, and later than the clock when it was stored. -/
def TaskRecord.OnTick (platform : Platform) (clocks : List (String × Int)) (t : TaskRecord Q) :
    Prop :=
  ∀ cron, truthy t.cron = some cron →
    InUtc platform { timezone := (truthy t.timezone).map lit } ∧
    ∃ parsed, parseCron (lit cron) = .ok parsed ∧ ∃ tick : Int, t.runAt = tick ∧
      OnSchedule parsed utc tick ∧ ∃ clock, clocks.lookup t.id = some clock ∧ clock < tick

/-- Every task is on a tick, and every run is for an expression that has one. -/
structure SchedulerState.Ticks (platform : Platform) (s : SchedulerState Q) : Prop where
  tasks : ∀ id t, s.store.map.get? id = some t → t.OnTick platform s.clocks
  runs : ∀ r ∈ s.runs, ∀ cron, truthy r.task.cron = some cron →
    ∃ parsed, parseCron (lit cron) = .ok parsed ∧ ∃ t, OnSchedule parsed utc t

/-- All expressions are in UTC and have a tick when they are enqueued, and no scheduler claims a
task that it is still running. -/
def SchedulerAction.Ticking (platform : Platform) (s : SchedulerState Q) : SchedulerAction Q → Prop
  | .enqueueCron _ _ _ cron opts now _ _ =>
    InUtc platform { utc := opts.utc, timezone := opts.timezone.map lit } ∧
      ∀ parsed, parseCron (lit cron) = .ok parsed → HasTick parsed now
  | .flushOnce w now => s.Alone w now
  | _ => True

variable {s s' : SchedulerState Q} {act : SchedulerAction Q} {t t' : TaskRecord Q} {id : String}

theorem SchedulerAction.Ticking.undisturbed (h : act.Ticking platform s) : act.Undisturbed s := by
  cases act <;> first | exact h | trivial

theorem lookup_call_of_same {a : StoreAction Q} (h : a.stores = some id → s.store.events a = []) :
    (s.call a now).clocks.lookup id = s.clocks.lookup id := by
  unfold SchedulerState.call
  dsimp only
  split
  next k hstores =>
    split
    · rfl
    next hevents =>
      have hne : id ≠ k := by
        rintro rfl
        exact hevents (by rw [h hstores]; rfl)
      rw [lookup_cons, beq_false_of_ne hne]
  · rfl

theorem lookup_call_of_stores {a : StoreAction Q} (h : a.stores = some id)
    (hevents : s.store.events a ≠ []) : (s.call a now).clocks.lookup id = some now := by
  unfold SchedulerState.call
  dsimp only
  rw [h]
  dsimp only
  rw [if_neg (by rwa [List.isEmpty_iff]), List.lookup_cons_self]

theorem rescheduled_of_settles {i : Nat} {r : FlushRun Q} {next : Int} {error : Option String}
    {u : TaskUpdate} (hu : Settles platform i r act now u) (heq : u = .rescheduled next error) :
    ∃ cron start, truthy r.task.cron = some cron ∧ now < next ∧ next ≠ -1 ∧
      next = tickOn platform cron start (truthy r.task.timezone) := by
  cases hu with
  | unhandled => cases heq
  | resolved =>
    unfold ScheduledTask.afterHandled at heq
    split at heq
    next => cases heq
    next cron hcron =>
      dsimp only at heq
      split at heq
      next hmissed =>
        split at heq
        next hpos =>
          cases heq
          exact ⟨cron, now, hcron, lt_tickOn (by omega), by omega, rfl⟩
        next => cases heq
      next hcoming =>
        split at heq
        next hpos =>
          cases heq
          exact ⟨cron, _, hcron, by omega, by omega, rfl⟩
        next => cases heq
  | rejected =>
    unfold ScheduledTask.afterRejected at heq
    split at heq
    next => cases heq
    next cron hcron =>
      split at heq
      next =>
        dsimp only at heq
        split at heq
        next hpos =>
          cases heq
          exact ⟨cron, now, hcron, lt_tickOn (by omega), by omega, rfl⟩
        next => cases heq
      next => cases heq

theorem TaskRecord.OnTick.keep {clocks clocks' : List (String × Int)} (h : t.OnTick platform clocks)
    (hid : t'.id = t.id) (hcron : t'.cron = t.cron) (htimezone : t'.timezone = t.timezone)
    (hrun : t'.runAt = t.runAt) (hclocks : clocks'.lookup t.id = clocks.lookup t.id) :
    t'.OnTick platform clocks' := by
  unfold OnTick
  rw [hid, hcron, htimezone, hrun, hclocks]
  exact h

theorem onTick_settles {i : Nat} {r : FlushRun Q} {u : TaskUpdate} {completedAt : Int}
    {runs : List (FlushRun Q)} (h : t.OnTick platform s.clocks) (ho : t.owns r.workerId)
    (hget : s.store.map.get? r.task.id = some t) (htask : t.toScheduledTask = r.task)
    (hu : Settles platform i r act now u) :
    (u.apply completedAt t).OnTick platform
      (SchedulerState.call { s with runs } (u.action r.task.id r.workerId completedAt)
        now).clocks := by
  cases u with
  | completed => exact h.keep rfl rfl rfl rfl rfl
  | failed error =>
    have hfail : (t.fail completedAt error).toScheduledTask = _ := t.toScheduledTask_fail
    refine h.keep ?_ ?_ ?_ ?_ rfl <;> exact hfail ▸ rfl
  | rescheduled next error =>
    intro cron hcron
    obtain ⟨cron', start, hcron', hlt, hne, hnext⟩ := rescheduled_of_settles hu rfl
    have hcron : truthy t.cron = some cron := hcron
    rw [← htask, hcron] at hcron'
    cases hcron'
    obtain ⟨hutc, -⟩ := h cron hcron
    rw [← htask] at hnext
    obtain ⟨parsed, hparse, hsched⟩ := tickOn_utc hutc (hnext ▸ hne)
    refine ⟨hutc, parsed, hparse, next, rfl, hnext ▸ hsched, now, ?_, hlt⟩
    have hid : r.task.id = t.id := congrArg ScheduledTask.id htask.symm
    refine lookup_call_of_stores (congrArg some hid) ?_
    have howned : s.store.owned r.workerId r.task.id :=
      InMemoryScheduledTaskStore.owned_iff.mpr ⟨t, hget, ho⟩
    show s.store.finalisedBy r.task.id r.workerId ≠ []
    unfold InMemoryScheduledTaskStore.finalisedBy
    rw [if_pos howned]
    exact cons_ne_nil _ _

theorem onTick_cronTask {w : Scheduler} {name : String} {payload : Q} {opts : EnqueueCronOptions}
    {createdAt createdAt' : Int} {clocks : List (String × Int)} {task : TaskRecord Q}
    (hact : InUtc platform { utc := opts.utc, timezone := opts.timezone.map lit } ∧
      ∀ parsed, parseCron (lit cron) = .ok parsed → HasTick parsed now)
    (htask : w.cronTask platform name payload cron opts now createdAt = .ok task)
    (hclocks : clocks.lookup task.id = some now) :
    TaskRecord.OnTick platform clocks { task with createdAt := createdAt' } := by
  obtain ⟨next, -, hnext, rfl⟩ := Scheduler.cronTask_eq_ok htask
  intro cron' hcron
  obtain rfl : cron = cron' := Option.some.inj (Option.filter_eq_some_iff.mp hcron).1
  obtain ⟨⟨tz, htz, hfixed⟩, hhas⟩ := hact
  obtain ⟨parsed, tz', hparse, htz', rfl⟩ := nextCronTick_eq_ok hnext
  cases htz.symm.trans htz'
  have hne := tickOf_ne hfixed (hhas parsed hparse)
  refine ⟨⟨tz, (timezoneOf_stored opts.utc opts.timezone).trans htz, hfixed⟩, parsed, hparse, _,
    rfl, ?_, now, hclocks, ?_⟩
  · exact (onSchedule_utc hfixed).mp (tickOf_onSchedule (spread_fixed hfixed) hne)
  · exact Int.cast_lt.mp (lt_tickOf hne)

theorem onTick_step (hheld : s.Held) (h : s.Ticks platform) (hact : act.Ticking platform s)
    (hstep : s.step platform act = some s') (hget : s'.store.map.get? id = some t') :
    t'.OnTick platform s'.clocks := by
  have hsame {a : StoreAction Q} {now : Int} {t : TaskRecord Q}
    (hold : s.store.map.get? id = some t)
      (hstores : a.stores = some id → s.store.events a = []) :
      t.OnTick platform (s.call a now).clocks := by
    have hkey : t.id = id := (Table.get?_eq_some.mp hold).2
    exact (h.tasks id t hold).keep rfl rfl rfl rfl (hkey ▸ lookup_call_of_same hstores)
  cases turn_of_step hstep with
  | rests _ => exact h.tasks id t' hget
  | enqueueCron htask =>
    cases fate_next hget trivial with
    | same hold hstores => exact hsame hold hstores
    | enqueued hid hevents => exact onTick_cronTask hact htask (lookup_call_of_stores rfl hevents)
  | enqueueAt =>
    cases fate_next hget trivial with
    | same hold hstores => exact hsame hold hstores
    | enqueued hid hevents =>
      intro cron hcron
      cases hcron
  | cancel =>
    cases fate_next hget trivial with
    | same hold hstores => exact hsame hold hstores
    | cancelled hold => exact (h.tasks id _ hold).keep rfl rfl rfl rfl rfl
  | list =>
    cases fate_next hget trivial with
    | same hold hstores => exact hsame hold hstores
  | heartbeat =>
    cases fate_next hget trivial with
    | same hold hstores => exact hsame hold hstores
    | extended hold _ => exact (h.tasks id _ hold).keep rfl rfl rfl rfl rfl
  | @flushOnce w now =>
    cases fate_next hget w.leased with
    | same hold _ => exact h.tasks id t' hold
    | claimed hold _ => exact (h.tasks id _ hold).keep rfl rfl rfl rfl rfl
  | @settles _ i r u runs now completedAt hr hactive _ hu =>
    rcases fate_action hget with ⟨hold, hstores⟩ | ⟨t, rfl, hold, ho, rfl⟩
    · exact hsame hold hstores
    · have htask := hheld r (mem_of_getElem? hr) hactive t hold ho
      exact onTick_settles (h.tasks _ t hold) ho hold htask hu

theorem runs_step (h : s.Ticks platform) (hstep : s.step platform act = some s')
    (htasks : ∀ id t, s'.store.map.get? id = some t → t.OnTick platform s'.clocks) {r : FlushRun Q}
    (hr : r ∈ s'.runs) (hcron : truthy r.task.cron = some cron) :
    ∃ parsed, parseCron (lit cron) = .ok parsed ∧ ∃ t, OnSchedule parsed utc t := by
  have hcontinues {runs : List (FlushRun Q)} (hruns : Continues s.runs runs) (hr : r ∈ runs) :
      ∃ parsed, parseCron (lit cron) = .ok parsed ∧ ∃ t, OnSchedule parsed utc t := by
    obtain ⟨r₀, hr₀, htask, -, -⟩ := hruns r hr
    exact h.runs r₀ hr₀ cron (htask ▸ hcron)
  cases turn_of_step hstep with
  | rests hruns | settles _ _ hruns _ => exact hcontinues hruns hr
  | enqueueCron _ | enqueueAt | cancel | list | heartbeat => exact h.runs r hr cron hcron
  | @flushOnce w now =>
    rcases mem_append.mp hr with hold | hnew
    · exact h.runs r hold cron hcron
    · obtain ⟨t, ht, rfl⟩ := mem_map.mp hnew
      obtain ⟨-, parsed, hparse, tick, -, hsched, -⟩ :=
        htasks t.id t (get?_of_claimed w.claimTtlMs_lt ht) cron hcron
      exact ⟨parsed, hparse, tick, hsched⟩

theorem ticks_step (hheld : s.Held) (h : s.Ticks platform) (hact : act.Ticking platform s)
    (hstep : s.step platform act = some s') : s'.Ticks platform := by
  have htasks (id : String) (t : TaskRecord Q) (hget : s'.store.map.get? id = some t) :
      t.OnTick platform s'.clocks := onTick_step hheld h hact hstep hget
  exact ⟨htasks, fun _ hr _ hcron => runs_step h hstep htasks hr hcron⟩

/-- In every run in UTC in which every expression has a tick when it is enqueued: the `runAt` of a
pending cron task is on schedule and later than the clock when it was stored, and no handler runs
for an expression that is never on schedule. -/
theorem stored_ticks_real (platform : Platform) (terminalRetentionMs maxTerminalTasks : Option Int)
    (s : SchedulerState Q) (h : (schedulerMachine platform terminalRetentionMs
      maxTerminalTasks).Reach
      (fun s act => act.Ticking platform s) s) :
    (∀ t ∈ s.store.map.rows, t.status = .pending → ∀ cron, truthy t.cron = some cron →
      ∃ parsed, parseCron (lit cron) = .ok parsed ∧ ∃ tick : Int, t.runAt = tick ∧
        OnSchedule parsed utc tick ∧ ∃ clock, s.clocks.lookup t.id = some clock ∧ clock < tick) ∧
    ∀ r ∈ s.runs, ∀ cron, truthy r.task.cron = some cron →
      ∃ parsed, parseCron (lit cron) = .ok parsed ∧ ∃ t, OnSchedule parsed utc t := by
  have hinv : s.Held ∧ s.Ticks platform := by
    refine h.invariant ?_ ?_
    · refine ⟨fun r hr => absurd hr not_mem_nil, ⟨fun id t hget => ?_, fun r hr => ?_⟩⟩
      · cases hget
      · exact absurd hr not_mem_nil
    · rintro s s' act - ⟨hheld, hticks⟩ hact hstep
      exact ⟨held_step hheld hact.undisturbed hstep, ticks_step hheld hticks hact hstep⟩
  refine ⟨fun t ht _ cron hcron => ?_, hinv.2.runs⟩
  exact (hinv.2.tasks t.key t (Table.get?_of_mem ht) cron hcron).2

theorem hasTick_everyMinute : ∃ parsed, parseCron (lit "* * * * *") = .ok parsed ∧
    ∀ now, HasTick parsed now := by
  obtain ⟨parsed, hparsed, hall⟩ := exists_everyMinute
  refine ⟨parsed, hparsed, fun now => ⟨fromMinuteOf now, ?_, ?_, by omega⟩⟩
  · exact Int.cast_lt.mp (lt_fromMinuteOf (now : ℚ))
  · rw [fromMinuteOf_eq]
    exact onSchedule_minute.mpr (hall _)

def beatEnqueued : SchedulerAction Unit :=
  .enqueueCron (worker "w1") "beat" () "* * * * *" { utc := true } 0 0 0

theorem stored_ticks_real_beat : ∃ s : SchedulerState Unit, ∃ t ∈ s.store.map.rows,
    (schedulerMachine utcPlatform none none).Reach (fun s act => act.Ticking utcPlatform s) s ∧
      t.status = .pending ∧ t.cron = some "* * * * *" ∧ ∃ parsed,
        parseCron (lit "* * * * *") = .ok parsed ∧ ∃ tick : Int, t.runAt = tick ∧
          OnSchedule parsed utc tick ∧ ∃ clock, s.clocks.lookup t.id = some clock ∧
            clock < tick := by
  obtain ⟨s, hstep, hobs⟩ := Option.map_eq_some_iff.mp
    (by decide +kernel : ((schedulerMachine utcPlatform none none).step
      (schedulerMachine utcPlatform none none).init beatEnqueued).map
        (fun s => s.store.map.rows.map fun t => (t.status, t.cron)) =
      some [(.pending, some "* * * * *")])
  obtain ⟨parsed, hparsed, htick⟩ := hasTick_everyMinute
  have hs : (schedulerMachine utcPlatform none none).Reach
      (fun s act => act.Ticking utcPlatform s) s := by
    have hact : beatEnqueued.Ticking utcPlatform
        (schedulerMachine (Q := Unit) utcPlatform none none).init := by
      refine ⟨⟨utc, timezoneOf_utc utcPlatform, offset_utc⟩, fun parsed' hparsed' => ?_⟩
      cases hparsed.symm.trans hparsed'
      exact htick 0
    exact .step .init hact hstep
  obtain ⟨t, ht, hfields⟩ := mem_map.mp (hobs ▸ mem_singleton.mpr rfl)
  obtain ⟨hstatus, hcron⟩ := Prod.mk.inj hfields
  exact ⟨s, t, ht, hs, hstatus, hcron, (stored_ticks_real utcPlatform none none s hs).1 t ht hstatus
    "* * * * *" (by rw [hcron]; decide)⟩

theorem not_onSchedule_february : ∃ parsed, parseCron (lit "0 0 30 2 *") = .ok parsed ∧
    ∀ t, ¬ OnSchedule parsed utc t := by
  obtain ⟨parsed, hparsed, hcheck⟩ := parsed_of_check (lit "0 0 30 2 *")
    (fun parsed => parsed.month.values == [2] && parsed.day.values == [30] &&
      !parsed.day.wildcard && parsed.weekday.wildcard) (by decide +kernel)
  simp only [Bool.and_eq_true, beq_iff_eq, Bool.not_eq_true'] at hcheck
  obtain ⟨⟨⟨hmonth, hday⟩, hrestricted⟩, hwildcard⟩ := hcheck
  refine ⟨parsed, hparsed, fun t hsched => ?_⟩
  obtain ⟨-, hmatches, -⟩ := hsched
  unfold dayMatches at hmatches
  rw [hmonth, hday, hrestricted, hwildcard, wallClock_eq] at hmatches
  split at hmatches
  next => exact absurd hmatches Bool.false_ne_true
  next hfebruary =>
    have hmonth : (JsDate.civil (clockAt utc t / 1440)).2.1 = 2 := by
      exact_mod_cast mem_singleton.mp (not_not.mp hfebruary)
    have hthirty : (JsDate.civil (clockAt utc t / 1440)).2.2 = 30 := by
      exact_mod_cast mem_singleton.mp (of_decide_eq_true hmatches)
    have hle := (JsDate.month_civil _).2.2 hmonth
    omega

/-- A task for the 30th of February, as `enqueueCron` stores it. -/
def februaryTask : TaskRecord Unit :=
  (worker "w1").newTask "cron:never" "never" () (.num (-1)) (some "0 0 30 2 *") (some "UTC") none 0

theorem cronTask_february : (worker "w1").cronTask utcPlatform "never" () "0 0 30 2 *"
    { utc := true } 0 0 = .ok februaryTask := by
  obtain ⟨parsed, hparsed, hnever⟩ := not_onSchedule_february
  have htick : tickOf parsed (0 : Int) utc = -1 :=
    (tickOf_eq_neg_one offset_utc).mpr fun t _ hsched => absurd hsched (hnever t)
  have hnext := nextCronTick_eq hparsed (timezoneOf_utc utcPlatform) (0 : Int)
  rw [show (Timezone.named (.fixed 0)) = utc from rfl, htick] at hnext
  unfold Scheduler.cronTask
  rw [if_pos (by decide +kernel)]
  dsimp only [Option.map_none]
  rw [hnext]
  rfl

/-- The handler of a task for the 30th of February runs at once. -/
theorem february_task_runs : ∃ s : SchedulerState Unit, ∃ r ∈ s.runs,
    (schedulerMachine utcPlatform none none).Reach Machine.free s ∧ r.phase matches .handling () ∧
      r.task.cron = some "0 0 30 2 *" ∧ r.task.runAt = .num (-1) ∧
      ∃ parsed, parseCron (lit "0 0 30 2 *") = .ok parsed ∧ ∀ t, ¬ OnSchedule parsed utc t := by
  -- the search for the tick is not run: what it gives is known
  obtain ⟨s, hs, hobs⟩ := Machine.Reach.observe (schedulerMachine utcPlatform none none)
    Machine.free [.enqueueCron (worker "w1") "never" () "0 0 30 2 *" { utc := true } 0 0 0,
      .flushOnce (worker "w1") 0, .lookup 0 true 0]
    (fun s => s.runs.map fun r => (r.phase matches .handling (), r.task.cron, r.task.runAt))
    [(true, some "0 0 30 2 *", .num (-1))] (by
      simp only [Machine.exec, schedulerMachine, SchedulerState.step, cronTask_february]
      decide +kernel)
  obtain ⟨r, hr, hfields⟩ := mem_map.mp (hobs ▸ mem_singleton.mpr rfl)
  obtain ⟨hphase, hfields⟩ := Prod.mk.inj hfields
  obtain ⟨hcron, hrun⟩ := Prod.mk.inj hfields
  exact ⟨s, r, hr, hs, hphase, hcron, hrun, not_onSchedule_february⟩

end Real

end NevoMessaging
