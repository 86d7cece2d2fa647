import NevoMessaging.Workflow.Replay

/-!
# The workflow context

`ctx.now`, `ctx.step`, `ctx.sleep` and `ctx.waitForSignal` of one run. Each method is
cut at its `await`s. `Ctx.issue` is the part up to the first `await` (all of `now`);
`Ctx.advance` is the part from one `await` to the next, given what the awaited promise
answered. Between two parts anything else in the process may run.

`drainNowAppends` is such an `await` and nothing more: the in-memory store appends at
the call of `append` and never rejects, so there is nothing left to drain.

`ctx.sleep` keeps its key in a constant but reads the counter `sleepOrdinal` again after
its `await`s, and so does the model.
-/

namespace NevoMessaging.Workflow

variable {V : Type}

inductive CtxCall
  | now
  | step (name : String)
  | sleep (ms : Int)
  | waitForSignal (name : String) (timeoutMs : Option Int)
deriving DecidableEq, Repr

/-- How a `ctx` call ends for the function that made it. A signal payload is optional
because `queue[index]` is `undefined` outside the queue. -/
inductive Outcome (V : Type)
  | value (v : V)
  | slept
  | payload (v : Option V)
  | time (t : Int)
  | threw (e : Err)
deriving DecidableEq, Repr

/-- The payload of a wake-up task. `legacy` is the old form with the id only. -/
inductive WakeupPayload
  | legacy
  | sleep (ordinal : Nat)
  | signalTimeout (ordinal : Nat) (name : String)
deriving DecidableEq, Repr

/-- A `ctx` call that waits at one of its `await`s: what it does when it continues. -/
inductive Pending (V : Type)
  | body (name : String)
  | stepAppend (name : String) (result : V)
  | stepStore (name : String) (result : V)
  | sleepEnqueue (key : String) (ms : Int)
  | sleepAppend (key : String) (ms : Int)
  | sleepStore (key : String)
  | consumeAppend (name : String) (index ordinal : Nat) (payload : Option V)
  | timeoutEnqueue (name : String) (ordinal : Nat) (timeoutMs : Int)
  | timeoutAppend (name : String) (ordinal : Nat)
  | timeoutStore (name : String) (ordinal : Nat)
deriving DecidableEq, Repr

def Pending.isBody : Pending V → Bool
  | .body _ => true
  | _ => false

inductive Progress (V : Type)
  | settled (o : Outcome V)
  | pending (p : Pending V)

/-- The local variables of `executeExclusive` that the `ctx` methods share. -/
structure Ctx (V : Type) where
  replay : WorkflowReplayState V
  claimed : List String
  sleepOrdinal : Nat := 0
  waitOrdinal : Nat := 0
  nowOrdinal : Nat := 0

def Ctx.ofReplay (replay : WorkflowReplayState V) : Ctx V :=
  { replay, claimed := replay.claimed }

/-- The result of one part of a `ctx` method: the new variables, whether the call is
settled, the events it appended and the wake-up tasks it enqueued. -/
structure Moved (V : Type) where
  ctx : Ctx V
  progress : Progress V
  events : List (WorkflowEvent V) := []
  tasks : List (String × WakeupPayload) := []

/-! ## Up to the first await -/

/-- `ctx.now()`, with `date` for `Date.now()`. -/
def Ctx.now (c : Ctx V) (date : Int) : Int × Ctx V × List (WorkflowEvent V) :=
  let key := c.nowOrdinal + 1
  match c.replay.nows key with
  | some recorded => (recorded, { c with nowOrdinal := key }, [])
  | none =>
    (date,
      { c with
        nowOrdinal := key
        replay := { c.replay with nows := Function.update c.replay.nows key (some date) } },
      [.nowRecorded key date])

def Ctx.step (c : Ctx V) (name : String) : Progress V :=
  match c.replay.steps name with
  | some result => .settled (.value result)
  | none => .pending (.body name)

def noSchedulerError : String :=
  "WorkflowEngine: ctx.sleep requires a Scheduler — pass one to the engine constructor"

def Ctx.sleep (scheduler : Bool) (c : Ctx V) (ms : Int) : Ctx V × Progress V :=
  let key := sleepKey (c.sleepOrdinal + 1)
  ({ c with sleepOrdinal := c.sleepOrdinal + 1 },
    if key ∈ c.replay.sleepDone then .settled .slept
    else if !scheduler then .settled (.threw (.error noSchedulerError))
    else if key ∈ c.replay.sleepStarted then .settled (.threw (.suspended key))
    else .pending (.sleepEnqueue key ms))

/-- The `for` loop of `ctx.waitForSignal`: the oldest index no wait has claimed. -/
def firstUnclaimed (claimed : List String) (name : String) (length : Nat) : Option Nat :=
  (List.range length).find? fun i => claimKey name i ∉ claimed

def waitReason (name : String) : String := "signal:" ++ name

/-- The guard `opts?.timeoutMs && this.scheduler && !scheduled`, with the timeout it
arms. A timeout of `0` is falsy. -/
def armedTimeout (scheduler : Bool) (c : Ctx V) (ordinal : Nat) (timeoutMs : Option Int) :
    Option Int :=
  timeoutMs.filter fun ms =>
    decide (ms ≠ 0) && scheduler && decide (ordinal ∉ c.replay.signalTimeoutScheduled)

def Ctx.waitForSignal (scheduler : Bool) (c : Ctx V) (name : String) (timeoutMs : Option Int) :
    Ctx V × Progress V :=
  let ordinal := c.waitOrdinal + 1
  let c' := { c with waitOrdinal := ordinal }
  match c.replay.consumedByOrdinal ordinal with
  | some prior => (c', .settled (.payload (c.replay.signals prior.name)[prior.index]?))
  | none =>
    if ordinal ∈ c.replay.signalTimeouts then (c', .settled (.threw (.signalTimeout name)))
    else
      let queue := c.replay.signals name
      match firstUnclaimed c.claimed name queue.length with
      | some index =>
        ({ c' with claimed := claimKey name index :: c.claimed },
          .pending (.consumeAppend name index ordinal queue[index]?))
      | none =>
        match armedTimeout scheduler c ordinal timeoutMs with
        | some ms => (c', .pending (.timeoutEnqueue name ordinal ms))
        | none => (c', .settled (.threw (.suspended (waitReason name))))

def Ctx.issue (scheduler : Bool) (date : Int) (c : Ctx V) : CtxCall → Moved V
  | .now =>
    let (t, c', events) := c.now date
    { ctx := c', progress := .settled (.time t), events }
  | .step name => { ctx := c, progress := c.step name }
  | .sleep ms => { ctx := (c.sleep scheduler ms).1, progress := (c.sleep scheduler ms).2 }
  | .waitForSignal name timeoutMs =>
    { ctx := (c.waitForSignal scheduler name timeoutMs).1
      progress := (c.waitForSignal scheduler name timeoutMs).2 }

/-- The ordinal a call has just been given; steps are keyed by name and have none. -/
def Ctx.ordinal (c : Ctx V) : CtxCall → Nat
  | .now => c.nowOrdinal
  | .step _ => 0
  | .sleep _ => c.sleepOrdinal
  | .waitForSignal .. => c.waitOrdinal

/-! ## From one await to the next -/

/-- What a pending call is told when it continues: its step body asks for `ctx.now()`,
resolves or rejects; an `enqueueIn` rejects; anything else it waits for resolves. -/
inductive Input (V : Type)
  | resolved
  | enqueueFailed (message : String)
  | bodyNow
  | bodyResolved (v : V)
  | bodyRejected (e : Err)
deriving DecidableEq, Repr

def sleepTaskId (workflowId : String) (ordinal : Nat) : String :=
  "workflow:" ++ workflowId ++ ":sleep:" ++ toString ordinal

def signalTimeoutTaskId (workflowId : String) (ordinal : Nat) : String :=
  "workflow:" ++ workflowId ++ ":signal-timeout:" ++ toString ordinal

def Ctx.advance (workflowId : String) (date : Int) (c : Ctx V) :
    Pending V → Input V → Option (Moved V)
  | .body name, .bodyNow =>
    let (_, c', events) := c.now date
    some { ctx := c', progress := .pending (.body name), events }
  | .body name, .bodyResolved v => some { ctx := c, progress := .pending (.stepAppend name v) }
  | .body _, .bodyRejected e => some { ctx := c, progress := .settled (.threw e) }
  | .stepAppend name v, .resolved =>
    some { ctx := c, progress := .pending (.stepStore name v), events := [.stepCompleted name v] }
  | .stepStore name v, .resolved =>
    some
      { ctx :=
          { c with
            replay := { c.replay with steps := Function.update c.replay.steps name (some v) } }
        progress := .settled (.value v) }
  | .sleepEnqueue key ms, .resolved =>
    some
      { ctx := c
        progress := .pending (.sleepAppend key ms)
        tasks := [(sleepTaskId workflowId c.sleepOrdinal, .sleep c.sleepOrdinal)] }
  | .sleepEnqueue _ _, .enqueueFailed message =>
    some { ctx := c, progress := .settled (.threw (.error message)) }
  | .sleepAppend key ms, .resolved =>
    some
      { ctx := c
        progress := .pending (.sleepStore key)
        events := [.sleepStarted c.sleepOrdinal ms (date + ms)] }
  | .sleepStore key, .resolved =>
    some
      { ctx := { c with replay := { c.replay with sleepStarted := key :: c.replay.sleepStarted } }
        progress := .settled (.threw (.suspended (sleepKey c.sleepOrdinal))) }
  | .consumeAppend name index ordinal payload, .resolved =>
    some
      { ctx := c
        progress := .settled (.payload payload)
        events := [.signalConsumed name index ordinal] }
  | .timeoutEnqueue name ordinal _, .resolved =>
    some
      { ctx := c
        progress := .pending (.timeoutAppend name ordinal)
        tasks := [(signalTimeoutTaskId workflowId ordinal, .signalTimeout ordinal name)] }
  | .timeoutEnqueue _ _ _, .enqueueFailed message =>
    some { ctx := c, progress := .settled (.threw (.error message)) }
  | .timeoutAppend name ordinal, .resolved =>
    some
      { ctx := c
        progress := .pending (.timeoutStore name ordinal)
        events := [.signalTimeoutScheduled ordinal name] }
  | .timeoutStore name ordinal, .resolved =>
    some
      { ctx :=
          { c with
            replay :=
              { c.replay with
                signalTimeoutScheduled := ordinal :: c.replay.signalTimeoutScheduled } }
        progress := .settled (.threw (.suspended (waitReason name))) }
  | _, _ => none

/-! ## The cases of a ctx call -/

/-- The cases of `Ctx.issue`, with the test that leads to each. -/
inductive Issues (scheduler : Bool) (date : Int) (c : Ctx V) : CtxCall → Moved V → Prop
  | nowRecorded {t : Int} : c.replay.nows (c.nowOrdinal + 1) = some t →
      Issues scheduler date c .now
        { ctx := { c with nowOrdinal := c.nowOrdinal + 1 }, progress := .settled (.time t) }
  | nowNew : c.replay.nows (c.nowOrdinal + 1) = none →
      Issues scheduler date c .now
        { ctx :=
            { c with
              nowOrdinal := c.nowOrdinal + 1
              replay :=
                { c.replay with
                  nows := Function.update c.replay.nows (c.nowOrdinal + 1) (some date) } }
          progress := .settled (.time date)
          events := [.nowRecorded (c.nowOrdinal + 1) date] }
  | stepRecorded {name : String} {v : V} : c.replay.steps name = some v →
      Issues scheduler date c (.step name) { ctx := c, progress := .settled (.value v) }
  | stepBody {name : String} : c.replay.steps name = none →
      Issues scheduler date c (.step name) { ctx := c, progress := .pending (.body name) }
  | sleepDone {ms : Int} : sleepKey (c.sleepOrdinal + 1) ∈ c.replay.sleepDone →
      Issues scheduler date c (.sleep ms)
        { ctx := { c with sleepOrdinal := c.sleepOrdinal + 1 }, progress := .settled .slept }
  | sleepRefused {ms : Int} : sleepKey (c.sleepOrdinal + 1) ∉ c.replay.sleepDone →
      scheduler = false →
      Issues scheduler date c (.sleep ms)
        { ctx := { c with sleepOrdinal := c.sleepOrdinal + 1 }
          progress := .settled (.threw (.error noSchedulerError)) }
  | sleepSuspends {ms : Int} : sleepKey (c.sleepOrdinal + 1) ∉ c.replay.sleepDone →
      scheduler = true →
      Issues scheduler date c (.sleep ms)
        { ctx := { c with sleepOrdinal := c.sleepOrdinal + 1 }
          progress := .settled (.threw (.suspended (sleepKey (c.sleepOrdinal + 1)))) }
  | sleepArms {ms : Int} : sleepKey (c.sleepOrdinal + 1) ∉ c.replay.sleepDone →
      scheduler = true →
      Issues scheduler date c (.sleep ms)
        { ctx := { c with sleepOrdinal := c.sleepOrdinal + 1 }
          progress := .pending (.sleepEnqueue (sleepKey (c.sleepOrdinal + 1)) ms) }
  | waitConsumed {name : String} {timeoutMs : Option Int} {prior : ConsumedSignal} :
      c.replay.consumedByOrdinal (c.waitOrdinal + 1) = some prior →
      Issues scheduler date c (.waitForSignal name timeoutMs)
        { ctx := { c with waitOrdinal := c.waitOrdinal + 1 }
          progress := .settled (.payload (c.replay.signals prior.name)[prior.index]?) }
  | waitTimedOut {name : String} {timeoutMs : Option Int} :
      c.replay.consumedByOrdinal (c.waitOrdinal + 1) = none →
      c.waitOrdinal + 1 ∈ c.replay.signalTimeouts →
      Issues scheduler date c (.waitForSignal name timeoutMs)
        { ctx := { c with waitOrdinal := c.waitOrdinal + 1 }
          progress := .settled (.threw (.signalTimeout name)) }
  | waitClaims {name : String} {timeoutMs : Option Int} {index : Nat} :
      c.replay.consumedByOrdinal (c.waitOrdinal + 1) = none →
      c.waitOrdinal + 1 ∉ c.replay.signalTimeouts →
      firstUnclaimed c.claimed name (c.replay.signals name).length = some index →
      Issues scheduler date c (.waitForSignal name timeoutMs)
        { ctx :=
            { c with
              waitOrdinal := c.waitOrdinal + 1
              claimed := claimKey name index :: c.claimed }
          progress := .pending (.consumeAppend name index (c.waitOrdinal + 1)
            (c.replay.signals name)[index]?) }
  | waitArms {name : String} {timeoutMs : Option Int} {ms : Int} :
      c.replay.consumedByOrdinal (c.waitOrdinal + 1) = none →
      c.waitOrdinal + 1 ∉ c.replay.signalTimeouts →
      firstUnclaimed c.claimed name (c.replay.signals name).length = none → scheduler = true →
      Issues scheduler date c (.waitForSignal name timeoutMs)
        { ctx := { c with waitOrdinal := c.waitOrdinal + 1 }
          progress := .pending (.timeoutEnqueue name (c.waitOrdinal + 1) ms) }
  | waitSuspends {name : String} {timeoutMs : Option Int} :
      c.replay.consumedByOrdinal (c.waitOrdinal + 1) = none →
      c.waitOrdinal + 1 ∉ c.replay.signalTimeouts →
      firstUnclaimed c.claimed name (c.replay.signals name).length = none →
      Issues scheduler date c (.waitForSignal name timeoutMs)
        { ctx := { c with waitOrdinal := c.waitOrdinal + 1 }
          progress := .settled (.threw (.suspended (waitReason name))) }

theorem Ctx.issue_cases (scheduler : Bool) (date : Int) (c : Ctx V) (call : CtxCall) :
    Issues scheduler date c call (c.issue scheduler date call) := by
  cases call with
  | now =>
    simp only [Ctx.issue, Ctx.now]
    cases h : c.replay.nows (c.nowOrdinal + 1) with
    | none => exact .nowNew h
    | some t => exact .nowRecorded h
  | step name =>
    simp only [Ctx.issue, Ctx.step]
    cases h : c.replay.steps name with
    | none => exact .stepBody h
    | some v => exact .stepRecorded h
  | sleep ms =>
    simp only [Ctx.issue, Ctx.sleep]
    split
    · next h => exact .sleepDone h
    · next h =>
      split
      · next hs => exact .sleepRefused h (by simpa using hs)
      · next hs =>
        have hs : scheduler = true := by simpa using hs
        split
        · exact .sleepSuspends h hs
        · exact .sleepArms h hs
  | waitForSignal name timeoutMs =>
    simp only [Ctx.issue, Ctx.waitForSignal]
    cases hc : c.replay.consumedByOrdinal (c.waitOrdinal + 1) with
    | some prior => exact .waitConsumed hc
    | none =>
      simp only
      split
      · next ht => exact .waitTimedOut hc ht
      · next ht =>
        cases hf : firstUnclaimed c.claimed name (c.replay.signals name).length with
        | some index => exact .waitClaims hc ht hf
        | none =>
          simp only
          cases ha : armedTimeout scheduler c (c.waitOrdinal + 1) timeoutMs with
          | some ms =>
            obtain ⟨_, hs⟩ := Option.filter_eq_some_iff.mp ha
            exact .waitArms hc ht hf (by simp at hs; exact hs.1.2)
          | none => exact .waitSuspends hc ht hf

/-- The cases of `Ctx.advance`. -/
inductive Advances (workflowId : String) (date : Int) (c : Ctx V) :
    Pending V → Input V → Moved V → Prop
  | bodyNowRecorded {name : String} {t : Int} : c.replay.nows (c.nowOrdinal + 1) = some t →
      Advances workflowId date c (.body name) .bodyNow
        { ctx := { c with nowOrdinal := c.nowOrdinal + 1 }, progress := .pending (.body name) }
  | bodyNowNew {name : String} : c.replay.nows (c.nowOrdinal + 1) = none →
      Advances workflowId date c (.body name) .bodyNow
        { ctx :=
            { c with
              nowOrdinal := c.nowOrdinal + 1
              replay :=
                { c.replay with
                  nows := Function.update c.replay.nows (c.nowOrdinal + 1) (some date) } }
          progress := .pending (.body name)
          events := [.nowRecorded (c.nowOrdinal + 1) date] }
  | bodyResolved {name : String} (v : V) :
      Advances workflowId date c (.body name) (.bodyResolved v)
        { ctx := c, progress := .pending (.stepAppend name v) }
  | bodyRejected {name : String} (e : Err) :
      Advances workflowId date c (.body name) (.bodyRejected e)
        { ctx := c, progress := .settled (.threw e) }
  | stepAppend {name : String} {v : V} :
      Advances workflowId date c (.stepAppend name v) .resolved
        { ctx := c, progress := .pending (.stepStore name v), events := [.stepCompleted name v] }
  | stepStore {name : String} {v : V} :
      Advances workflowId date c (.stepStore name v) .resolved
        { ctx :=
            { c with
              replay := { c.replay with steps := Function.update c.replay.steps name (some v) } }
          progress := .settled (.value v) }
  | sleepEnqueue {key : String} {ms : Int} :
      Advances workflowId date c (.sleepEnqueue key ms) .resolved
        { ctx := c
          progress := .pending (.sleepAppend key ms)
          tasks := [(sleepTaskId workflowId c.sleepOrdinal, .sleep c.sleepOrdinal)] }
  | sleepEnqueueFailed {key : String} {ms : Int} (message : String) :
      Advances workflowId date c (.sleepEnqueue key ms) (.enqueueFailed message)
        { ctx := c, progress := .settled (.threw (.error message)) }
  | sleepAppend {key : String} {ms : Int} :
      Advances workflowId date c (.sleepAppend key ms) .resolved
        { ctx := c
          progress := .pending (.sleepStore key)
          events := [.sleepStarted c.sleepOrdinal ms (date + ms)] }
  | sleepStore {key : String} :
      Advances workflowId date c (.sleepStore key) .resolved
        { ctx := { c with replay := { c.replay with sleepStarted := key :: c.replay.sleepStarted } }
          progress := .settled (.threw (.suspended (sleepKey c.sleepOrdinal))) }
  | consumeAppend {name : String} {index ordinal : Nat} {payload : Option V} :
      Advances workflowId date c (.consumeAppend name index ordinal payload) .resolved
        { ctx := c
          progress := .settled (.payload payload)
          events := [.signalConsumed name index ordinal] }
  | timeoutEnqueue {name : String} {ordinal : Nat} {ms : Int} :
      Advances workflowId date c (.timeoutEnqueue name ordinal ms) .resolved
        { ctx := c
          progress := .pending (.timeoutAppend name ordinal)
          tasks := [(signalTimeoutTaskId workflowId ordinal, .signalTimeout ordinal name)] }
  | timeoutEnqueueFailed {name : String} {ordinal : Nat} {ms : Int} (message : String) :
      Advances workflowId date c (.timeoutEnqueue name ordinal ms) (.enqueueFailed message)
        { ctx := c, progress := .settled (.threw (.error message)) }
  | timeoutAppend {name : String} {ordinal : Nat} :
      Advances workflowId date c (.timeoutAppend name ordinal) .resolved
        { ctx := c
          progress := .pending (.timeoutStore name ordinal)
          events := [.signalTimeoutScheduled ordinal name] }
  | timeoutStore {name : String} {ordinal : Nat} :
      Advances workflowId date c (.timeoutStore name ordinal) .resolved
        { ctx :=
            { c with
              replay :=
                { c.replay with
                  signalTimeoutScheduled := ordinal :: c.replay.signalTimeoutScheduled } }
          progress := .settled (.threw (.suspended (waitReason name))) }

theorem Ctx.advance_cases {workflowId : String} {date : Int} {c : Ctx V} {p : Pending V}
    {inp : Input V} {m : Moved V} (h : c.advance workflowId date p inp = some m) :
    Advances workflowId date c p inp m := by
  cases p with
  | body name =>
    cases inp with
    | bodyNow =>
      simp only [Ctx.advance, Ctx.now] at h
      cases hn : c.replay.nows (c.nowOrdinal + 1) with
      | none =>
        simp only [hn, Option.some.injEq] at h
        exact h ▸ .bodyNowNew hn
      | some t =>
        simp only [hn, Option.some.injEq] at h
        exact h ▸ .bodyNowRecorded hn
    | bodyResolved v => cases h; exact .bodyResolved v
    | bodyRejected e => cases h; exact .bodyRejected e
    | _ => cases h
  | sleepEnqueue key ms =>
    cases inp with
    | resolved => cases h; exact .sleepEnqueue
    | enqueueFailed message => cases h; exact .sleepEnqueueFailed message
    | _ => cases h
  | timeoutEnqueue name ordinal ms =>
    cases inp with
    | resolved => cases h; exact .timeoutEnqueue
    | enqueueFailed message => cases h; exact .timeoutEnqueueFailed message
    | _ => cases h
  | stepAppend | stepStore | sleepAppend | sleepStore | consumeAppend | timeoutAppend
    | timeoutStore =>
    cases inp <;> cases h
    constructor

/-- The parts of the replay state that a run never writes: what it knows of signals, timeouts
and finished sleeps is what it read at its start. -/
structure Frozen (c c' : Ctx V) : Prop where
  signals : c'.replay.signals = c.replay.signals
  consumedByOrdinal : c'.replay.consumedByOrdinal = c.replay.consumedByOrdinal
  signalTimeouts : c'.replay.signalTimeouts = c.replay.signalTimeouts
  sleepDone : c'.replay.sleepDone = c.replay.sleepDone

theorem Frozen.trans {a b c : Ctx V} (h : Frozen a b) (h' : Frozen b c) : Frozen a c :=
  ⟨h'.signals.trans h.signals, h'.consumedByOrdinal.trans h.consumedByOrdinal,
    h'.signalTimeouts.trans h.signalTimeouts, h'.sleepDone.trans h.sleepDone⟩

theorem Issues.frozen {scheduler : Bool} {date : Int} {c : Ctx V} {call : CtxCall} {m : Moved V}
    (h : Issues scheduler date c call m) : Frozen c m.ctx := by
  cases h <;> exact ⟨rfl, rfl, rfl, rfl⟩

theorem Advances.frozen {workflowId : String} {date : Int} {c : Ctx V} {p : Pending V}
    {inp : Input V} {m : Moved V} (h : Advances workflowId date c p inp m) : Frozen c m.ctx := by
  cases h <;> exact ⟨rfl, rfl, rfl, rfl⟩

end NevoMessaging.Workflow
