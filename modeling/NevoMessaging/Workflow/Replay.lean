import Mathlib.Data.List.Induction
import Mathlib.Logic.Function.Basic
import NevoMessaging.EventStore
import NevoMessaging.Lib.Keys

/-!
# Workflow histories and their replay

The history of a workflow is the list of its events in the store. This module has
the event types, the fold `buildReplayState` that every run starts from, the second
reader `getState`, and `isTerminal`, the test of the wake-up handler.

`type` and `payload` of an event are one constructor of `WorkflowEvent`; the type
string is kept by `WorkflowEvent.type`, since it is what the store files the event
under. Payload values are of an arbitrary type `V`. The maps of the source are
functions into `Option`, its sets are lists used through membership only.

The lemmas `replay_*` read each field of the replay state off the history, so later
proofs do not unfold the fold.
-/

namespace NevoMessaging.Workflow

open List

/-! ## Events -/

inductive WorkflowStatus
  | running
  | completed
  | failed
  | cancelled
  | suspended
deriving DecidableEq, Repr

/-- The test `status === "completed" || "failed" || "cancelled"` of a run. -/
def WorkflowStatus.terminal : WorkflowStatus → Bool
  | .completed | .failed | .cancelled => true
  | .running | .suspended => false

/-- What a workflow function or a step body can throw: the suspension sentinel, the
timeout of `ctx.waitForSignal`, or any other error, of which only the message is
recorded. A value for which `String` throws is left out: the run would be rejected
without an event. -/
inductive Err
  | suspended (reason : String)
  | signalTimeout (signalName : String)
  | error (message : String)
deriving DecidableEq, Repr

def Err.message : Err → String
  | .suspended reason => "workflow suspended: " ++ reason
  | .signalTimeout name => "workflow signal \"" ++ name ++ "\" timed out"
  | .error message => message

inductive WorkflowEvent (V : Type)
  | started (name : String) (input : V)
  | stepCompleted (name : String) (result : V)
  | sleepStarted (ordinal : Nat) (ms wakeAt : Int)
  | sleepCompleted (ordinal : Nat)
  | signalReceived (name : String) (value : V)
  | signalConsumed (name : String) (index ordinal : Nat)
  | signalTimeout (ordinal : Nat) (name : String)
  | signalTimeoutScheduled (ordinal : Nat) (name : String)
  | nowRecorded (ordinal : Nat) (value : Int)
  | completed (result : V)
  | failed (error : String)
  | cancelled
  | suspended (reason : String)
deriving DecidableEq, Repr

variable {V : Type}

def WorkflowEvent.type : WorkflowEvent V → String
  | .started .. => "workflow.started"
  | .stepCompleted .. => "workflow.step.completed"
  | .sleepStarted .. => "workflow.sleep.started"
  | .sleepCompleted .. => "workflow.sleep.completed"
  | .signalReceived .. => "workflow.signal.received"
  | .signalConsumed .. => "workflow.signal.consumed"
  | .signalTimeout .. => "workflow.signal.timeout"
  | .signalTimeoutScheduled .. => "workflow.signal.timeout.scheduled"
  | .nowRecorded .. => "workflow.now.recorded"
  | .completed .. => "workflow.completed"
  | .failed .. => "workflow.failed"
  | .cancelled => "workflow.cancelled"
  | .suspended .. => "workflow.suspended"

def WorkflowEvent.isCompleted : WorkflowEvent V → Bool
  | .completed _ => true
  | _ => false

def WorkflowEvent.isFailed : WorkflowEvent V → Bool
  | .failed _ => true
  | _ => false

def WorkflowEvent.isCancelled : WorkflowEvent V → Bool
  | .cancelled => true
  | _ => false

def WorkflowEvent.isSuspended : WorkflowEvent V → Bool
  | .suspended _ => true
  | _ => false

/-- The event types `isTerminal` looks for. -/
def WorkflowEvent.terminal (e : WorkflowEvent V) : Bool :=
  e.isCompleted || e.isFailed || e.isCancelled

def isTerminal (events : List (WorkflowEvent V)) : Bool :=
  events.any WorkflowEvent.terminal

/-- `events.find((e) => e.type === "workflow.started")`, reduced to its payload. -/
def startOf (events : List (WorkflowEvent V)) : Option (String × V) :=
  events.findSome? fun
    | .started name input => some (name, input)
    | _ => none

/-! ## buildReplayState -/

structure ConsumedSignal where
  name : String
  index : Nat
deriving DecidableEq, Repr

structure WorkflowReplayState (V : Type) where
  steps : String → Option V
  sleepStarted : List String
  sleepDone : List String
  signals : String → List V
  consumedByOrdinal : Nat → Option ConsumedSignal
  claimed : List String
  signalTimeouts : List Nat
  signalTimeoutScheduled : List Nat
  nows : Nat → Option Int
  status : WorkflowStatus

def sleepKey (ordinal : Nat) : String := "sleep#" ++ toString ordinal

def claimKey (name : String) (index : Nat) : String := name ++ "#" ++ toString index

def WorkflowReplayState.empty : WorkflowReplayState V where
  steps := fun _ => none
  sleepStarted := []
  sleepDone := []
  signals := fun _ => []
  consumedByOrdinal := fun _ => none
  claimed := []
  signalTimeouts := []
  signalTimeoutScheduled := []
  nows := fun _ => none
  status := .running

/-- One turn of the `switch` in `buildReplayState`. -/
def applyEvent (state : WorkflowReplayState V) : WorkflowEvent V → WorkflowReplayState V
  | .started .. => state
  | .stepCompleted name result =>
    { state with steps := Function.update state.steps name (some result) }
  | .sleepStarted ordinal _ _ =>
    { state with sleepStarted := sleepKey ordinal :: state.sleepStarted }
  | .sleepCompleted ordinal => { state with sleepDone := sleepKey ordinal :: state.sleepDone }
  | .signalReceived name value =>
    { state with signals := Function.update state.signals name (state.signals name ++ [value]) }
  | .signalConsumed name index ordinal =>
    { state with
      consumedByOrdinal := Function.update state.consumedByOrdinal ordinal (some ⟨name, index⟩)
      claimed := claimKey name index :: state.claimed }
  | .signalTimeout ordinal _ => { state with signalTimeouts := ordinal :: state.signalTimeouts }
  | .signalTimeoutScheduled ordinal _ =>
    { state with signalTimeoutScheduled := ordinal :: state.signalTimeoutScheduled }
  | .nowRecorded ordinal value =>
    { state with nows := Function.update state.nows ordinal (some value) }
  | .completed _ => { state with status := .completed }
  | .failed _ => { state with status := .failed }
  | .cancelled => { state with status := .cancelled }
  | .suspended _ => { state with status := .suspended }

/-- The loop of `buildReplayState`, once the start event has been found. -/
def replay (events : List (WorkflowEvent V)) : WorkflowReplayState V :=
  events.foldl applyEvent .empty

def buildReplayState (events : List (WorkflowEvent V)) : Option (WorkflowReplayState V) :=
  (startOf events).map fun _ => replay events

/-! ## getState -/

structure WorkflowState (V : Type) where
  workflowId : String
  name : String
  status : WorkflowStatus
  input : V
  result : Option V
  error : Option String
  startedAt : Int
  completedAt : Option Int
deriving DecidableEq, Repr

/-- The status `getState` picks: by priority of the event types present. -/
def stateStatus (events : List (WorkflowEvent V)) : WorkflowStatus :=
  if events.any WorkflowEvent.isCompleted then .completed
  else if events.any WorkflowEvent.isFailed then .failed
  else if events.any WorkflowEvent.isCancelled then .cancelled
  else if events.any WorkflowEvent.isSuspended then .suspended
  else .running

def WorkflowEvent.result? : WorkflowEvent V → Option V
  | .completed result => some result
  | _ => none

def WorkflowEvent.error? : WorkflowEvent V → Option String
  | .failed error => some error
  | _ => none

def getState (workflowId : String) (events : List (DomainEvent (WorkflowEvent V))) :
    Option (WorkflowState V) := do
  let last ← events.getLast?
  let start ← events.find? fun e => (startOf [e.payload]).isSome
  let (name, input) ← startOf [start.payload]
  let completed := events.find? (·.payload.isCompleted)
  let failed := events.find? (·.payload.isFailed)
  let cancelled := events.find? (·.payload.isCancelled)
  let status := stateStatus (events.map (·.payload))
  some
    { workflowId, name, status, input
      result := completed.bind (·.payload.result?)
      error := failed.bind (·.payload.error?)
      startedAt := start.ts
      completedAt :=
        completed.map (·.ts) <|> failed.map (·.ts) <|> cancelled.map (·.ts) <|>
          (if status = .suspended then none else some last.ts) }

/-! ## Reading the replay state off the history -/

theorem claimKey_inj {n m : String} {i j : Nat} : claimKey n i = claimKey m j ↔ n = m ∧ i = j :=
  Keys.hash_inj

theorem sleepKey_inj {i j : Nat} : sleepKey i = sleepKey j ↔ i = j := by
  have h : ∀ k, sleepKey k = "sleep" ++ "#" ++ toString k := fun _ => rfl
  rw [h, h, Keys.hash_inj]
  simp

/-- The payloads received under a name, oldest first: the FIFO queue of that name. -/
def received (name : String) (events : List (WorkflowEvent V)) : List V :=
  events.filterMap fun
    | .signalReceived n v => if n = name then some v else none
    | _ => none

/-- The queue indices consumed under a name, in the order of their events. -/
def consumedIndices (name : String) (events : List (WorkflowEvent V)) : List Nat :=
  events.filterMap fun
    | .signalConsumed n i _ => if n = name then some i else none
    | _ => none

/-- The wait ordinals that have consumed a signal, in the order of their events. -/
def consumedOrdinals (events : List (WorkflowEvent V)) : List Nat :=
  events.filterMap fun
    | .signalConsumed _ _ k => some k
    | _ => none

@[simp] theorem received_append (name : String) (events more : List (WorkflowEvent V)) :
    received name (events ++ more) = received name events ++ received name more :=
  filterMap_append

@[simp] theorem consumedIndices_append (name : String) (events more : List (WorkflowEvent V)) :
    consumedIndices name (events ++ more) =
      consumedIndices name events ++ consumedIndices name more :=
  filterMap_append

@[simp] theorem consumedOrdinals_append (events more : List (WorkflowEvent V)) :
    consumedOrdinals (events ++ more) = consumedOrdinals events ++ consumedOrdinals more :=
  filterMap_append

section Replay

variable {events : List (WorkflowEvent V)}

theorem replay_append (events more : List (WorkflowEvent V)) :
    replay (events ++ more) = more.foldl applyEvent (replay events) := by
  simp [replay]

variable {α : Type} {e : WorkflowEvent V} {name : String} {k : Nat}

theorem replay_append_eq (get : WorkflowReplayState V → α) {more : List (WorkflowEvent V)}
    (h : ∀ e ∈ more, ∀ st, get (applyEvent st e) = get st) :
    get (replay (events ++ more)) = get (replay events) := by
  rw [replay_append]
  generalize replay events = st
  induction more generalizing st with
  | nil => rfl
  | cons e more ih =>
    rw [foldl_cons, ih fun d hd => h d (mem_cons_of_mem _ hd)]
    exact h e mem_cons_self st

/-- A map of the replay state holds the last entry written under a key. Stated once
for the three maps from keys to single values, `put` being the entry an event writes. -/
theorem replay_map_mem {κ : Type} [DecidableEq κ] (get : WorkflowReplayState V → κ → Option α)
    (put : WorkflowEvent V → Option (κ × α)) (hempty : get .empty = fun _ => none)
    (happly : ∀ st e, get (applyEvent st e) =
      ((put e).map fun p => Function.update (get st) p.1 (some p.2)).getD (get st)) {k : κ} {x : α}
    (h : get (replay events) k = some x) :
    ∃ e ∈ events, put e = some (k, x) := by
  induction events using reverseRecOn with
  | nil => exact absurd h (by simp [replay, hempty])
  | append_singleton events e ih =>
    rw [replay_append, foldl_cons, foldl_nil, happly] at h
    have hold : get (replay events) k = some x → ∃ d ∈ events ++ [e], put d = some (k, x) :=
      fun h => (ih h).imp fun d hd => ⟨mem_append_left _ hd.1, hd.2⟩
    cases hp : put e with
    | none => exact hold (by simpa [hp] using h)
    | some p =>
      by_cases hk : k = p.1
      · subst hk
        simp only [hp, Option.map_some, Option.getD_some, Function.update_self,
          Option.some.injEq] at h
        exact ⟨e, mem_append_right _ (mem_singleton_self _), by rw [hp, ← h]⟩
      · exact hold (by simpa [hp, Function.update_of_ne hk] using h)

theorem replay_map_none {κ : Type} [DecidableEq κ] (get : WorkflowReplayState V → κ → Option α)
    (put : WorkflowEvent V → Option (κ × α)) (hempty : get .empty = fun _ => none)
    (happly : ∀ st e, get (applyEvent st e) =
      ((put e).map fun p => Function.update (get st) p.1 (some p.2)).getD (get st)) {k : κ} :
    get (replay events) k = none ↔ ∀ e ∈ events, ∀ x, put e ≠ some (k, x) := by
  induction events using reverseRecOn with
  | nil => simp [replay, hempty]
  | append_singleton events e ih =>
    rw [replay_append, foldl_cons, foldl_nil, happly]
    simp only [mem_append, mem_singleton, or_imp, forall_and, forall_eq, ← ih]
    cases hp : put e with
    | none => simp
    | some p =>
      by_cases hk : k = p.1
      · subst hk
        simp [Prod.ext_iff]
      · simp [Function.update_of_ne hk, Prod.ext_iff, Ne.symm hk]

def stepEntry : WorkflowEvent V → Option (String × V)
  | .stepCompleted name result => some (name, result)
  | _ => none

def nowEntry : WorkflowEvent V → Option (Nat × Int)
  | .nowRecorded ordinal value => some (ordinal, value)
  | _ => none

def consumedEntry : WorkflowEvent V → Option (Nat × ConsumedSignal)
  | .signalConsumed name index ordinal => some (ordinal, ⟨name, index⟩)
  | _ => none

theorem stepEntry_eq_some {v : V} : stepEntry e = some (name, v) ↔ e = .stepCompleted name v := by
  cases e <;> simp [stepEntry]

theorem nowEntry_eq_some {t : Int} : nowEntry e = some (k, t) ↔ e = .nowRecorded k t := by
  cases e <;> simp [nowEntry]

theorem consumedEntry_eq_some {c : ConsumedSignal} :
    consumedEntry e = some (k, c) ↔ e = .signalConsumed c.name c.index k := by
  obtain ⟨n, i⟩ := c
  cases e <;> simp only [consumedEntry, Option.some.injEq, Prod.mk.injEq, ConsumedSignal.mk.injEq,
    WorkflowEvent.signalConsumed.injEq, reduceCtorEq]
  exact and_rotate

theorem replay_steps_mem {v : V} (h : (replay events).steps name = some v) :
    .stepCompleted name v ∈ events := by
  obtain ⟨e, he, hp⟩ := replay_map_mem (·.steps) stepEntry rfl
    (fun st e => by cases e <;> rfl) h
  exact stepEntry_eq_some.mp hp ▸ he

theorem replay_steps_none :
    (replay events).steps name = none ↔ ∀ v, .stepCompleted name v ∉ events := by
  rw [replay_map_none (·.steps) stepEntry rfl (fun st e => by cases e <;> rfl)]
  simp only [ne_eq, stepEntry_eq_some]
  exact ⟨fun h v hv => h _ hv v rfl, fun h e he v hv => h v (hv ▸ he)⟩

theorem replay_nows_mem {t : Int} (h : (replay events).nows k = some t) :
    .nowRecorded k t ∈ events := by
  obtain ⟨e, he, hp⟩ := replay_map_mem (·.nows) nowEntry rfl
    (fun st e => by cases e <;> rfl) h
  exact nowEntry_eq_some.mp hp ▸ he

theorem replay_nows_none : (replay events).nows k = none ↔ ∀ t, .nowRecorded k t ∉ events := by
  rw [replay_map_none (·.nows) nowEntry rfl (fun st e => by cases e <;> rfl)]
  simp only [ne_eq, nowEntry_eq_some]
  exact ⟨fun h t ht => h _ ht t rfl, fun h e he t ht => h t (ht ▸ he)⟩

theorem replay_consumed_mem {c : ConsumedSignal}
    (h : (replay events).consumedByOrdinal k = some c) :
    .signalConsumed c.name c.index k ∈ events := by
  obtain ⟨e, he, hp⟩ := replay_map_mem (·.consumedByOrdinal) consumedEntry rfl
    (fun st e => by cases e <;> rfl) h
  exact consumedEntry_eq_some.mp hp ▸ he

theorem mem_consumedOrdinals :
    k ∈ consumedOrdinals events ↔ ∃ n i, .signalConsumed n i k ∈ events := by
  induction events with
  | nil => simp [consumedOrdinals]
  | cons e events ih =>
    have ih' : k ∈ filterMap _ events ↔ _ := ih
    cases e <;> simp [consumedOrdinals, ih', exists_or]

theorem mem_consumedIndices {n : String} {i : Nat} :
    i ∈ consumedIndices n events ↔ ∃ k, .signalConsumed n i k ∈ events := by
  induction events with
  | nil => simp [consumedIndices]
  | cons e events ih =>
    have ih' : i ∈ filterMap _ events ↔ _ := ih
    cases e with
    | signalConsumed m j k =>
      by_cases hm : m = n
      · simp [consumedIndices, ih', exists_or, hm]
      · simp [consumedIndices, ih', hm, Ne.symm hm]
    | _ => simp [consumedIndices, ih']

theorem replay_consumed_none :
    (replay events).consumedByOrdinal k = none ↔ k ∉ consumedOrdinals events := by
  rw [replay_map_none (·.consumedByOrdinal) consumedEntry rfl
    (fun st e => by cases e <;> rfl)]
  simp only [ne_eq, consumedEntry_eq_some, mem_consumedOrdinals, not_exists]
  exact ⟨fun h n i hm => h _ hm ⟨n, i⟩ rfl, fun h e he c hc => h c.name c.index (hc ▸ he)⟩

theorem replay_signals (name : String) :
    (replay events).signals name = received name events := by
  induction events using reverseRecOn with
  | nil => rfl
  | append_singleton events e ih =>
    rw [replay_append, foldl_cons, foldl_nil]
    rw [received_append]
    cases e with
    | signalReceived n v =>
      by_cases hn : name = n
      · subst hn
        simp [applyEvent, ih, received]
      · simp [applyEvent, Function.update_of_ne hn, ih, received, Ne.symm hn]
    | _ => simp [applyEvent, ih, received]

theorem replay_set (get : WorkflowReplayState V → List α) (add : WorkflowEvent V → List α)
    (hempty : get .empty = []) (happly : ∀ st e, get (applyEvent st e) = add e ++ get st) (x : α) :
    x ∈ get (replay events) ↔ ∃ e ∈ events, x ∈ add e := by
  induction events using reverseRecOn with
  | nil => simp [replay, hempty]
  | append_singleton events e ih =>
    rw [replay_append, foldl_cons, foldl_nil, happly, mem_append, ih]
    simp only [mem_append, mem_singleton, or_and_right, exists_or, exists_eq_left]
    exact or_comm

theorem replay_sleepDone : sleepKey k ∈ (replay events).sleepDone ↔ .sleepCompleted k ∈ events := by
  rw [replay_set (·.sleepDone) (fun
    | .sleepCompleted j => [sleepKey j]
    | _ => []) rfl (fun st e => by cases e <;> rfl)]
  constructor
  · rintro ⟨e, he, hk⟩
    cases e <;> simp only [mem_singleton, not_mem_nil, sleepKey_inj] at hk
    exact hk ▸ he
  · intro h
    exact ⟨_, h, by simp⟩

theorem replay_claimed {n : String} {i : Nat} :
    claimKey n i ∈ (replay events).claimed ↔ ∃ k, .signalConsumed n i k ∈ events := by
  rw [replay_set (·.claimed) (fun
    | .signalConsumed m j _ => [claimKey m j]
    | _ => []) rfl (fun st e => by cases e <;> rfl)]
  constructor
  · rintro ⟨e, he, hk⟩
    cases e <;> simp only [mem_singleton, not_mem_nil, claimKey_inj] at hk
    obtain ⟨rfl, rfl⟩ := hk
    exact ⟨_, he⟩
  · rintro ⟨k, h⟩
    exact ⟨_, h, by simp⟩

theorem replay_signalTimeouts :
    k ∈ (replay events).signalTimeouts ↔ ∃ name, .signalTimeout k name ∈ events := by
  rw [replay_set (·.signalTimeouts) (fun
    | .signalTimeout j _ => [j]
    | _ => []) rfl (fun st e => by cases e <;> rfl)]
  constructor
  · rintro ⟨e, he, hk⟩
    cases e <;> simp only [mem_singleton, not_mem_nil] at hk
    exact ⟨_, hk ▸ he⟩
  · rintro ⟨name, h⟩
    exact ⟨_, h, by simp⟩

end Replay

/-! ## Statuses -/

/-- The status an event sets in the replay, if it is one of the four that do. -/
def WorkflowEvent.status? : WorkflowEvent V → Option WorkflowStatus
  | .completed _ => some .completed
  | .failed _ => some .failed
  | .cancelled => some .cancelled
  | .suspended _ => some .suspended
  | _ => none

def statuses (events : List (WorkflowEvent V)) : List WorkflowStatus :=
  events.filterMap WorkflowEvent.status?

@[simp] theorem statuses_append (events more : List (WorkflowEvent V)) :
    statuses (events ++ more) = statuses events ++ statuses more :=
  filterMap_append

theorem replay_status (events : List (WorkflowEvent V)) :
    (replay events).status = (statuses events).getLast?.getD .running := by
  induction events using reverseRecOn with
  | nil => rfl
  | append_singleton events e ih =>
    rw [replay_append, foldl_cons, foldl_nil, statuses_append]
    cases e <;> simp [applyEvent, statuses, WorkflowEvent.status?, ih]

theorem any_eq_mem_statuses (st : WorkflowStatus) {f : WorkflowEvent V → Bool}
    (hf : ∀ e, f e = decide (e.status? = some st)) (events : List (WorkflowEvent V)) :
    events.any f = decide (st ∈ statuses events) := by
  rw [Bool.eq_iff_iff]
  simp [statuses, hf]

theorem any_isCompleted (events : List (WorkflowEvent V)) :
    events.any WorkflowEvent.isCompleted = decide (.completed ∈ statuses events) :=
  any_eq_mem_statuses .completed (by rintro ⟨⟩ <;> rfl) events

theorem any_isFailed (events : List (WorkflowEvent V)) :
    events.any WorkflowEvent.isFailed = decide (.failed ∈ statuses events) :=
  any_eq_mem_statuses .failed (by rintro ⟨⟩ <;> rfl) events

theorem any_isCancelled (events : List (WorkflowEvent V)) :
    events.any WorkflowEvent.isCancelled = decide (.cancelled ∈ statuses events) :=
  any_eq_mem_statuses .cancelled (by rintro ⟨⟩ <;> rfl) events

theorem any_isSuspended (events : List (WorkflowEvent V)) :
    events.any WorkflowEvent.isSuspended = decide (.suspended ∈ statuses events) :=
  any_eq_mem_statuses .suspended (by rintro ⟨⟩ <;> rfl) events

theorem stateStatus_eq (events : List (WorkflowEvent V)) :
    stateStatus events =
      if .completed ∈ statuses events then .completed
      else if .failed ∈ statuses events then .failed
      else if .cancelled ∈ statuses events then .cancelled
      else if .suspended ∈ statuses events then .suspended
      else .running := by
  rw [stateStatus, any_isCompleted, any_isFailed, any_isCancelled, any_isSuspended]
  simp only [decide_eq_true_eq]

theorem startOf_cons (e : WorkflowEvent V) (l : List (WorkflowEvent V)) :
    startOf (e :: l) = (startOf [e]).or (startOf l) := by
  cases e <;> rfl

theorem getState_status (id : String) (events : List (DomainEvent (WorkflowEvent V))) :
    (getState id events).map (·.status) =
      (startOf (events.map (·.payload))).map fun _ => stateStatus (events.map (·.payload)) := by
  have hfind : ∀ l : List (DomainEvent (WorkflowEvent V)),
      startOf (l.map (·.payload)) =
        (l.find? fun e => (startOf [e.payload]).isSome).bind fun e => startOf [e.payload] := by
    intro l
    induction l with
    | nil => rfl
    | cons e l ih =>
      rw [map_cons, startOf_cons, ih, find?_cons]
      cases hstart : startOf [e.payload] with
      | none => rfl
      | some x => exact hstart.symm
  rw [hfind]
  unfold getState
  cases events with
  | nil => rfl
  | cons e events =>
    rw [getLast?_eq_getLast_of_ne_nil (by simp)]
    cases hf : (e :: events).find? fun e => (startOf [e.payload]).isSome with
    | none => rfl
    | some start =>
      have hs := find?_some hf
      obtain ⟨x, hx⟩ := Option.isSome_iff_exists.mp hs
      simp [hx]

end NevoMessaging.Workflow
