import NevoMessaging.Workflow.Context

/-!
# Runs of a workflow function

One run of `executeExclusive` and the function it runs. The function is anything that
decides on its next move from what it has seen: it may be non-deterministic (the `seed`),
catch what it likes and call `ctx` concurrently. `Sequential` and `ofScript` single out
the better behaved ones.

`Run.move` is a move of the function, `Run.advance` the next part of a `ctx` call it has
open, `executeExclusive` the way from the read of the history to the call of the function.
`Goes` says once what the first two can do, `executeExclusive_*` what the third does.
-/

namespace NevoMessaging.Workflow

variable {E V : Type}

/-! ## Workflow functions -/

@[ext]
structure Entry where
  call : CtxCall
  ordinal : Nat
deriving DecidableEq, Repr

/-- What a workflow function has seen when it makes its next move: the `ctx` calls that
are settled, in the order in which they settled, the ones still open (with a flag for a
step whose body is executing), and whether its own promise is already settled. -/
structure View (V : Type) where
  log : List (Entry × Outcome V)
  waiting : List (Entry × Bool)
  settled : Bool

inductive Move (V : Type)
  | idle
  | call (c : CtxCall)
  | ret (v : V)
  | throw (e : Err)

/-- A workflow function, given `ctx.input` and a seed for everything it does not take
from `ctx`. -/
abbrev WorkflowFn (V : Type) := V → Nat → View V → Move V

/-- How the promise of the workflow function settled, as far as the engine tells apart. -/
inductive Ending (V : Type)
  | completed (result : V)
  | suspended (reason : String)
  | failed (error : String)
deriving DecidableEq, Repr

def Ending.ofErr : Err → Ending V
  | .suspended reason => .suspended reason
  | e => .failed e.message

def Ending.event : Ending V → WorkflowEvent V
  | .completed result => .completed result
  | .suspended reason => .suspended reason
  | .failed error => .failed error

structure WorkflowRunResult (V : Type) where
  status : WorkflowStatus
  result : Option V := none
  error : Option String := none
deriving DecidableEq, Repr

def Ending.result : Ending V → WorkflowRunResult V
  | .completed result => { status := .completed, result := some result }
  | .suspended _ => { status := .suspended }
  | .failed error => { status := .failed, error := some error }

/-- How the promise of a run settled. -/
inductive RunResult (V : Type)
  | returned (r : WorkflowRunResult V)
  | rejected (message : String)
deriving DecidableEq, Repr

/-! ## One run -/

/-- A run of `executeExclusive` after its read of the history. The last four fields only
observe the run: the step bodies it invoked, how they settled, how often they called
`ctx.now()`, and the events the run appended. -/
structure Run (V : Type) where
  events : List (WorkflowEvent V)
  scheduler : Bool
  fn : View V → Move V
  ctx : Ctx V
  log : List (Entry × Outcome V) := []
  inFlight : List (Entry × Pending V) := []
  ending : Option (Ending V) := none
  result : Option (RunResult V) := none
  bodies : List String := []
  bodyLog : List (String × Bool) := []
  bodyNows : Nat := 0
  appended : List (WorkflowEvent V) := []

def Run.view (r : Run V) : View V where
  log := r.log
  waiting := r.inFlight.map fun p => (p.1, p.2.isBody)
  settled := r.ending.isSome || r.result.isSome

def Pending.bodyName : Pending V → List String
  | .body name => [name]
  | _ => []

/-- What a part of a call adds to the settled calls. -/
def Progress.closed (entry : Entry) : Progress V → List (Entry × Outcome V)
  | .settled o => [(entry, o)]
  | .pending _ => []

/-- What a part of a call leaves among the open ones. -/
def Progress.opened (entry : Entry) : Progress V → List (Entry × Pending V)
  | .settled _ => []
  | .pending p => [(entry, p)]

/-- Books the first part of a call. -/
def Run.issued (r : Run V) (entry : Entry) (m : Moved V) : Run V :=
  { r with
    ctx := m.ctx
    log := r.log ++ m.progress.closed entry
    inFlight := r.inFlight ++ m.progress.opened entry
    bodies := r.bodies ++ (m.progress.opened entry).flatMap (·.2.bodyName)
    appended := r.appended ++ m.events }

/-- The next move of the workflow function. -/
def Run.move (date : Int) (r : Run V) : Option (Run V × List (WorkflowEvent V)) :=
  match r.fn r.view with
  | .idle => none
  | .call c =>
    let m := r.ctx.issue r.scheduler date c
    some (r.issued ⟨c, m.ctx.ordinal c⟩ m, m.events)
  | .ret v => if r.view.settled then none else some ({ r with ending := some (.completed v) }, [])
  | .throw e => if r.view.settled then none else some ({ r with ending := some (.ofErr e) }, [])

/-- How a step body settles with a given answer, if it does. -/
def bodySettles : Pending V → Input V → List (String × Bool)
  | .body name, .bodyResolved _ => [(name, true)]
  | .body name, .bodyRejected _ => [(name, false)]
  | _, _ => []

def bodyAsksNow : Pending V → Input V → Nat
  | .body _, .bodyNow => 1
  | _, _ => 0

/-- Books a further part of the call at place `i`. -/
def Run.advanced (r : Run V) (i : Nat) (entry : Entry) (p : Pending V) (inp : Input V)
    (m : Moved V) : Run V :=
  { r with
    ctx := m.ctx
    log := r.log ++ m.progress.closed entry
    inFlight := r.inFlight.take i ++ m.progress.opened entry ++ r.inFlight.drop (i + 1)
    bodyLog := r.bodyLog ++ bodySettles p inp
    bodyNows := r.bodyNows + bodyAsksNow p inp
    appended := r.appended ++ m.events }

/-- The open call at place `i` continues. -/
def Run.advance (workflowId : String) (date : Int) (r : Run V) (i : Nat) (inp : Input V) :
    Option (Run V × List (WorkflowEvent V) × List (String × WakeupPayload)) :=
  match r.inFlight[i]? with
  | none => none
  | some (entry, p) =>
    (r.ctx.advance workflowId date p inp).map fun m =>
      (r.advanced i entry p inp m, m.events, m.tasks)

/-! ## executeExclusive and onWakeup -/

structure Cfg (E V : Type) where
  workflowId : String
  workflows : E → String → Option (WorkflowFn V)
  scheduler : E → Bool
  lock : Bool

def notRegistered (name : String) : String :=
  "WorkflowEngine: workflow \"" ++ name ++ "\" is not registered"

def noStartEvent (workflowId : String) : String :=
  "WorkflowEngine: no workflow.started event for " ++ workflowId

/-- `executeExclusive` from its read to the call of the workflow function. A run that does
not get there has its `result`, or with an unregistered workflow its `ending`, from the
start. -/
def executeExclusive (cfg : Cfg E V) (e : E) (seed : Nat) (events : List (WorkflowEvent V)) :
    Run V :=
  let run : Run V :=
    { events, scheduler := cfg.scheduler e, fn := fun _ => .idle, ctx := .ofReplay (replay events) }
  match buildReplayState events, startOf events with
  | some state, some (name, input) =>
    if state.status.terminal then
      let completion := events.find? WorkflowEvent.terminal
      { run with
        result := some (.returned
          { status := state.status
            result := completion.bind (·.result?)
            error := completion.bind (·.error?) }) }
    else
      match cfg.workflows e name with
      | none => { run with ending := some (.failed (notRegistered name)) }
      | some fn => { run with fn := fn input seed }
  | _, _ => { run with result := some (.rejected (noStartEvent cfg.workflowId)) }

/-- Whether the outcome a wake-up is about is already in the history (`already`,
`settled`). -/
def outcomeRecorded (events : List (WorkflowEvent V)) : WakeupPayload → Bool
  | .legacy => true
  | .sleep k => events.any fun
    | .sleepCompleted j => j = k
    | _ => false
  | .signalTimeout k _ => events.any fun
    | .signalConsumed _ _ j => j = k
    | .signalTimeout j _ => j = k
    | _ => false

def WakeupPayload.event : WakeupPayload → Option (WorkflowEvent V)
  | .legacy => none
  | .sleep k => some (.sleepCompleted k)
  | .signalTimeout k name => some (.signalTimeout k name)

/-- What `onWakeup` appends after its read, if anything. -/
def onWakeup (p : WakeupPayload) (events : List (WorkflowEvent V)) : Option (WorkflowEvent V) :=
  if outcomeRecorded events p || isTerminal events then none else p.event

/-! ## Classes of workflow functions -/

/-- One execution of a sequential function awaits every `ctx` call before it makes the next
one or ends. A call made from inside a step body finds only enclosing steps open. -/
structure Orderly (f : View V → Move V) : Prop where
  call : ∀ {v : View V} {c : CtxCall},
    f v = .call c → v.settled = false ∧ ∀ w ∈ v.waiting, w.2 = true
  ret : ∀ {v : View V} {x : V}, f v = .ret x → v.waiting = []
  throw : ∀ {v : View V} {e : Err}, f v = .throw e → v.waiting = []

def Sequential (fn : WorkflowFn V) : Prop := ∀ input seed, Orderly (fn input seed)

theorem orderly_idle : Orderly (fun _ : View V => .idle) := by
  constructor <;> simp

/-- A deterministic sequential function without `ctx` calls in its step bodies, except
for `ctx.now()`, which `Input.bodyNow` stands for: a possibly infinite tree, given as the
next move after each list of outcomes. -/
abbrev Script (V : Type) := V → List (Outcome V) → Move V

def ofScript (f : Script V) : WorkflowFn V := fun input _ v =>
  if v.settled || !v.waiting.isEmpty then .idle else f input (v.log.map (·.2))

theorem ofScript_open {f : Script V} {input : V} {seed : Nat} {v : View V}
    (h : ofScript f input seed v ≠ .idle) :
    v.settled = false ∧ v.waiting = [] ∧ ofScript f input seed v = f input (v.log.map (·.2)) := by
  unfold ofScript at h ⊢
  split at h
  · exact absurd rfl h
  · next hc =>
    simp only [Bool.or_eq_true, Bool.not_eq_true', not_or, Bool.not_eq_true,
      Bool.not_eq_false] at hc
    rw [if_neg (by simp [hc])]
    exact ⟨hc.1, List.isEmpty_iff.mp hc.2, rfl⟩

theorem sequential_ofScript (f : Script V) : Sequential (ofScript f) := by
  refine fun input seed => ⟨fun h => ?_, fun h => ?_, fun h => ?_⟩
  · obtain ⟨hs, hw, _⟩ := ofScript_open (ne_of_eq_of_ne h (by simp))
    exact ⟨hs, by simp [hw]⟩
  · exact (ofScript_open (ne_of_eq_of_ne h (by simp))).2.1
  · exact (ofScript_open (ne_of_eq_of_ne h (by simp))).2.1

/-! ## Runs -/

section Runs

variable {r r' : Run V} {i : Nat} {entry : Entry} {p : Pending V} {inp : Input V} {m : Moved V}

theorem Run.advanced_split (h : r.inFlight[i]? = some (entry, p)) (inp : Input V) (m : Moved V) :
    ∃ l₁ l₂, r.inFlight = l₁ ++ (entry, p) :: l₂ ∧
      (r.advanced i entry p inp m).inFlight = l₁ ++ m.progress.opened entry ++ l₂ := by
  obtain ⟨hi, hx⟩ := List.getElem?_eq_some_iff.mp h
  refine ⟨r.inFlight.take i, r.inFlight.drop (i + 1), ?_, rfl⟩
  rw [← hx, List.getElem_cons_drop hi, List.take_append_drop]

theorem Run.mem_advanced (hi : r.inFlight[i]? = some (entry, p)) {x : Entry × Pending V}
    (hx : x ∈ (r.advanced i entry p inp m).inFlight) :
    x ∈ r.inFlight ∨ x ∈ m.progress.opened entry := by
  obtain ⟨l₁, l₂, hl, hl'⟩ := r.advanced_split hi inp m
  rw [hl'] at hx
  rw [hl]
  simp only [List.mem_append, List.mem_cons] at hx ⊢
  tauto

/-- The move ends the function. -/
inductive Ends : Move V → Ending V → Prop
  | ret (v : V) : Ends (.ret v) (.completed v)
  | throw (e : Err) : Ends (.throw e) (.ofErr e)

theorem Orderly.ends {f : View V → Move V} {v : View V} {x : Ending V} (h : Orderly f)
    (he : Ends (f v) x) : v.waiting = [] := by
  generalize hf : f v = move at he
  cases he with
  | ret => exact h.ret hf
  | throw => exact h.throw hf

/-- A run goes on: its function makes a call or ends, or the open call at a place goes on with
what it is told. -/
inductive Goes (r : Run V) : Option (Nat × Input V) → Run V → List (WorkflowEvent V) →
    List (String × WakeupPayload) → Prop
  | call {date : Int} {c : CtxCall} {m : Moved V} : r.fn r.view = .call c →
      Issues r.scheduler date r.ctx c m →
      Goes r none (r.issued ⟨c, m.ctx.ordinal c⟩ m) m.events []
  | ends {x : Ending V} : r.view.settled = false → Ends (r.fn r.view) x →
      Goes r none { r with ending := some x } [] []
  | advance {workflowId : String} {date : Int} {i : Nat} {entry : Entry} {p : Pending V}
      {inp : Input V} {m : Moved V} : r.inFlight[i]? = some (entry, p) →
      Advances workflowId date r.ctx p inp m →
      Goes r (some (i, inp)) (r.advanced i entry p inp m) m.events m.tasks

variable {date : Int} {how : Option (Nat × Input V)} {evs : List (WorkflowEvent V)}
  {ts : List (String × WakeupPayload)}

theorem Run.move_goes (h : r.move date = some (r', evs)) : Goes r none r' evs [] := by
  unfold Run.move at h
  split at h
  · cases h
  · next c hc =>
    cases h
    exact .call hc (r.ctx.issue_cases r.scheduler date c)
  · next v hv =>
    split at h
    · cases h
    · next hs =>
      cases h
      exact .ends (by simpa using hs) (hv ▸ .ret v)
  · next e he =>
    split at h
    · cases h
    · next hs =>
      cases h
      exact .ends (by simpa using hs) (he ▸ .throw e)

theorem Run.advance_goes {workflowId : String}
    (h : r.advance workflowId date i inp = some (r', evs, ts)) :
    Goes r (some (i, inp)) r' evs ts := by
  unfold Run.advance at h
  split at h
  · cases h
  · next entry p hi =>
    obtain ⟨m, hm, heq⟩ := Option.map_eq_some_iff.mp h
    cases heq
    exact .advance hi (Ctx.advance_cases hm)

/-- What stays the same in a run while its function and its calls go on. -/
structure SameRun (r r' : Run V) : Prop where
  events : r'.events = r.events
  scheduler : r'.scheduler = r.scheduler
  fn : r'.fn = r.fn

theorem Goes.same (h : Goes r how r' evs ts) : SameRun r r' := by
  cases h <;> exact ⟨rfl, rfl, rfl⟩

theorem Goes.frozen (h : Goes r how r' evs ts) : Frozen r.ctx r'.ctx := by
  cases h with
  | call _ hm => exact hm.frozen
  | ends => exact ⟨rfl, rfl, rfl, rfl⟩
  | advance _ hm => exact hm.frozen

/-- A run whose function has not moved yet. -/
structure Fresh (history : List (WorkflowEvent V)) (r : Run V) : Prop where
  events : r.events = history
  ctx : r.ctx = .ofReplay (replay history)
  log : r.log = []
  inFlight : r.inFlight = []
  bodies : r.bodies = []
  bodyLog : r.bodyLog = []
  bodyNows : r.bodyNows = 0
  appended : r.appended = []

theorem executeExclusive_fresh (cfg : Cfg E V) (e : E) (seed : Nat)
    (events : List (WorkflowEvent V)) : Fresh events (executeExclusive cfg e seed events) := by
  unfold executeExclusive
  split
  · split
    · constructor <;> rfl
    · split <;> constructor <;> rfl
  · constructor <;> rfl

theorem executeExclusive_ends {cfg : Cfg E V} {e : E} {seed : Nat}
    {events : List (WorkflowEvent V)} {x : RunResult V}
    (h : (executeExclusive cfg e seed events).result = some x) :
    (executeExclusive cfg e seed events).fn = (fun _ => .idle) ∧
      (executeExclusive cfg e seed events).ending = none ∧
      ∀ y, x = .returned y → y.status = (replay events).status ∧ y.status.terminal := by
  unfold executeExclusive buildReplayState at h ⊢
  cases hs : startOf events with
  | none =>
    simp only [hs, Option.map_none] at h ⊢
    cases h
    simp
  | some start =>
    simp only [hs, Option.map_some] at h ⊢
    split at h
    · next ht =>
      cases h
      simp [ht]
    · split at h <;> cases h

theorem executeExclusive_runs {cfg : Cfg E V} {e : E} {seed : Nat}
    {events : List (WorkflowEvent V)} (h : (executeExclusive cfg e seed events).result = none) :
    (replay events).status.terminal = false ∧
      ∃ name input, startOf events = some (name, input) ∧
        ((cfg.workflows e name = none ∧
            (executeExclusive cfg e seed events).fn = (fun _ => .idle) ∧
            (executeExclusive cfg e seed events).ending = some (.failed (notRegistered name))) ∨
          ∃ fn, cfg.workflows e name = some fn ∧
            (executeExclusive cfg e seed events).fn = fn input seed ∧
            (executeExclusive cfg e seed events).ending = none) := by
  unfold executeExclusive buildReplayState at h ⊢
  cases hs : startOf events with
  | none => simp [hs] at h
  | some start =>
    obtain ⟨name, input⟩ := start
    simp only [hs, Option.map_some] at h ⊢
    split at h
    · cases h
    · next ht =>
      refine ⟨by simpa using ht, name, input, rfl, ?_⟩
      cases hw : cfg.workflows e name <;> simp [ht]

end Runs

end NevoMessaging.Workflow
