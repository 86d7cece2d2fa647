import Mathlib.Data.Fintype.Basic
import NevoMessaging.Lib.Machine
import NevoMessaging.Workflow.Run

/-!
# The workflow engine

Any number of `WorkflowEngine` instances over one in-memory event store, seen from one
workflow id. The state is what the process holds between two turns of the event loop; an
action is one turn: an API call starts, a pending call continues, the workflow function
makes its next move. Every interleaving of turns is a run of `machine`.

* An API call (`start`, `signal`, a wake-up) appends first and then joins the execution
  queue of its engine; `resume` joins at once; `cancel` only appends.
* An engine works off its queue one call at a time: it takes the lock if there is one
  (`acquire`), reads the history (`read`), lets the workflow function run
  (`move`, `advance`), appends how it ended (`finish`) and frees the lock (`release`).
* A function may leave `ctx` calls behind that it never awaited. They go on after the end
  of their run (`lateMove`, `lateAdvance`).
* Other workflows append to the same store at any time (`foreign`), and the clock may
  show any value (`clock`).

`Step` restates `step` as a relation, one constructor for each action with its guard. A move
of the function and a further part of a call are both a step in which a run goes on, `go` for
a live run and `late` for a past one. All later proofs are case analyses of `Step`.
-/

namespace NevoMessaging.Workflow

open List Function

variable {E V : Type}

/-! ## The state of all engines -/

/-- What an engine is doing with the head of its queue. `locking` keeps the place in the
history of the event that the call appended, if it appended one. -/
inductive Cur (V : Type)
  | free
  | locking (own : Option Nat)
  | reading
  | exec (r : Run V)
  | releasing

def Cur.isFree : Cur V → Bool
  | .free => true
  | _ => false

/-- `waking` are the wake-ups that have read the history, `joining` the calls that have
appended and not yet joined the queue of their engine. A call is represented by the place
in the history of the event it appended. -/
structure Sys (E V : Type) where
  clock : Int := 0
  store : InMemoryEventStore (WorkflowEvent V) := {}
  tasks : List (String × WakeupPayload) := []
  waking : List (E × WakeupPayload × List (WorkflowEvent V)) := []
  joining : List (E × Option Nat) := []
  queue : E → List (Option Nat) := fun _ => []
  cur : E → Cur V := fun _ => .free
  holder : Option E := none
  past : List (Run V) := []

def historyOf (workflowId : String) (store : InMemoryEventStore (WorkflowEvent V)) :
    List (WorkflowEvent V) :=
  (store.read (.ofAggregate workflowId)).map (·.payload)

def Sys.history (cfg : Cfg E V) (s : Sys E V) : List (WorkflowEvent V) :=
  historyOf cfg.workflowId s.store

def Sys.append (cfg : Cfg E V) (s : Sys E V) (events : List (WorkflowEvent V)) : Sys E V :=
  { s with
    store := events.foldl (fun st e => st.append e.type (some cfg.workflowId) e s.clock) s.store }

/-- `enqueueIn` with an explicit id: a task that exists already is left as it is. -/
def enqueueIn (tasks : List (String × WakeupPayload)) (task : String × WakeupPayload) :
    List (String × WakeupPayload) :=
  if tasks.any (·.1 = task.1) then tasks else tasks ++ [task]

def Cfg.afterRun (cfg : Cfg E V) : Cur V := if cfg.lock then .releasing else .free

inductive Act (E V : Type)
  | clock (t : Int)
  | foreign (aggregateId : Option String) (e : WorkflowEvent V)
  | start (e : E) (name : String) (input : V)
  | resume (e : E)
  | signal (e : E) (name : String) (value : V)
  | cancel
  | wake (e : E) (p : WakeupPayload)
  | wakeAppend (i : Nat)
  | join (i : Nat)
  | dequeue (e : E)
  | acquire (e : E)
  | read (e : E) (seed : Nat)
  | move (e : E)
  | advance (e : E) (i : Nat) (inp : Input V)
  | finish (e : E)
  | release (e : E)
  | lateMove (k : Nat)
  | lateAdvance (k i : Nat) (inp : Input V)

variable [DecidableEq E]

def Sys.setCur (s : Sys E V) (e : E) (c : Cur V) : Sys E V :=
  { s with cur := Function.update s.cur e c }

def Sys.enqueue (s : Sys E V) (e : E) (own : Option Nat) : Sys E V :=
  { s with queue := Function.update s.queue e (s.queue e ++ [own]) }

/-- The end of a run: its promise settles and the engine goes on. -/
def Sys.endRun (cfg : Cfg E V) (s : Sys E V) (e : E) (r : Run V) : Sys E V :=
  { s.setCur e cfg.afterRun with past := s.past ++ [r] }

/-- The run `r` with the final append of `executeExclusive`. -/
def Run.finished (r : Run V) (x : Ending V) : Run V :=
  { r with result := some (.returned x.result), appended := r.appended ++ [x.event] }

def step (cfg : Cfg E V) (s : Sys E V) : Act E V → Option (Sys E V)
  | .clock t => some { s with clock := t }
  | .foreign other ev =>
    -- An empty id reads every aggregate, so such a workflow has its store to itself.
    if cfg.workflowId ≠ "" ∧ other ≠ some cfg.workflowId then
      some { s with store := s.store.append ev.type other ev s.clock }
    else none
  | .start e name input =>
    if (cfg.workflows e name).isSome then
      some { s.append cfg [.started name input] with
        joining := s.joining ++ [(e, some (s.history cfg).length)] }
    else none
  | .resume e => some (s.enqueue e none)
  | .signal e name value =>
    some { s.append cfg [.signalReceived name value] with
      joining := s.joining ++ [(e, some (s.history cfg).length)] }
  | .cancel => some (s.append cfg [.cancelled])
  | .wake e p =>
    if p = .legacy then some (s.enqueue e none)
    else if p ∈ s.tasks.map (·.2) then
      some { s with waking := s.waking ++ [(e, p, s.history cfg)] }
    else none
  | .wakeAppend i =>
    match s.waking[i]? with
    | none => none
    | some (e, p, events) =>
      let s' := { s with waking := s.waking.eraseIdx i }
      match onWakeup p events with
      | none => some { s' with joining := s.joining ++ [(e, none)] }
      | some ev =>
        some { s'.append cfg [ev] with
          joining := s.joining ++ [(e, some (s.history cfg).length)] }
  | .join i =>
    match s.joining[i]? with
    | none => none
    | some (e, own) => some { s.enqueue e own with joining := s.joining.eraseIdx i }
  | .dequeue e =>
    match s.cur e, s.queue e with
    | .free, own :: rest =>
      some { s.setCur e (if cfg.lock then .locking own else .reading) with
        queue := Function.update s.queue e rest }
    | _, _ => none
  | .acquire e =>
    match s.cur e with
    | .locking _ =>
      if s.holder = none ∨ s.holder = some e then
        some { s.setCur e .reading with holder := some e }
      else some (s.setCur e .free)
    | _ => none
  | .read e seed =>
    match s.cur e with
    | .reading =>
      let r := executeExclusive cfg e seed (s.history cfg)
      if r.result.isSome then some (s.endRun cfg e r) else some (s.setCur e (.exec r))
    | _ => none
  | .move e =>
    match s.cur e with
    | .exec r => (r.move s.clock).map fun p => (s.append cfg p.2).setCur e (.exec p.1)
    | _ => none
  | .advance e i inp =>
    match s.cur e with
    | .exec r =>
      (r.advance cfg.workflowId s.clock i inp).map fun p =>
        { (s.append cfg p.2.1).setCur e (.exec p.1) with
          tasks := p.2.2.foldl enqueueIn s.tasks }
    | _ => none
  | .finish e =>
    match s.cur e with
    | .exec r => r.ending.map fun x => (s.append cfg [x.event]).endRun cfg e (r.finished x)
    | _ => none
  | .release e =>
    match s.cur e with
    | .releasing => some { s.setCur e .free with holder := none }
    | _ => none
  | .lateMove k =>
    match s.past[k]? with
    | none => none
    | some r =>
      (r.move s.clock).map fun p => { s.append cfg p.2 with past := s.past.set k p.1 }
  | .lateAdvance k i inp =>
    match s.past[k]? with
    | none => none
    | some r =>
      (r.advance cfg.workflowId s.clock i inp).map fun p =>
        { s.append cfg p.2.1 with
          past := s.past.set k p.1
          tasks := p.2.2.foldl enqueueIn s.tasks }

def machine (cfg : Cfg E V) : Machine (Sys E V) (Act E V) := ⟨{}, step cfg⟩

/-- No API call is in progress on any engine. -/
def Sys.Quiet (s : Sys E V) : Prop :=
  s.waking = [] ∧ s.joining = [] ∧ (∀ e, s.queue e = []) ∧ ∀ e, s.cur e = .free

omit [DecidableEq E] in
theorem Sys.quiet_iff (s : Sys E V) :
    s.Quiet ↔ s.waking.isEmpty ∧ s.joining.isEmpty ∧
      ∀ e, s.queue e = [] ∧ (s.cur e).isFree := by
  have hfree : ∀ e, (s.cur e).isFree = true ↔ s.cur e = .free := by
    intro e
    cases s.cur e <;> simp [Cur.isFree]
  simp only [Sys.Quiet, List.isEmpty_iff, forall_and, hfree]

instance [Fintype E] (s : Sys E V) : Decidable s.Quiet := decidable_of_iff' _ s.quiet_iff

/-! ## What a step can do -/

/-- The action in which the live run of an engine goes on. -/
def Act.go (e : E) : Option (Nat × Input V) → Act E V
  | none => .move e
  | some (i, inp) => .advance e i inp

/-- The action in which the `k`-th past run goes on. -/
def Act.late (k : Nat) : Option (Nat × Input V) → Act E V
  | none => .lateMove k
  | some (i, inp) => .lateAdvance k i inp

inductive Step (cfg : Cfg E V) (s : Sys E V) : Act E V → Sys E V → Prop
  | clock (t : Int) : Step cfg s (.clock t) { s with clock := t }
  | foreign {other : Option String} (ev : WorkflowEvent V) :
      cfg.workflowId ≠ "" → other ≠ some cfg.workflowId →
      Step cfg s (.foreign other ev) { s with store := s.store.append ev.type other ev s.clock }
  | start {e : E} {name : String} (input : V) : (cfg.workflows e name).isSome →
      Step cfg s (.start e name input) { s.append cfg [.started name input] with
        joining := s.joining ++ [(e, some (s.history cfg).length)] }
  | resume (e : E) : Step cfg s (.resume e) (s.enqueue e none)
  | signal (e : E) (name : String) (value : V) :
      Step cfg s (.signal e name value) { s.append cfg [.signalReceived name value] with
        joining := s.joining ++ [(e, some (s.history cfg).length)] }
  | cancel : Step cfg s .cancel (s.append cfg [.cancelled])
  | wakeLegacy (e : E) : Step cfg s (.wake e .legacy) (s.enqueue e none)
  | wake {e : E} {p : WakeupPayload} : p ≠ .legacy → p ∈ s.tasks.map (·.2) →
      Step cfg s (.wake e p) { s with waking := s.waking ++ [(e, p, s.history cfg)] }
  | wakeSkip {i : Nat} {e : E} {p : WakeupPayload} {events : List (WorkflowEvent V)} :
      s.waking[i]? = some (e, p, events) → onWakeup p events = none →
      Step cfg s (.wakeAppend i) { s with
        waking := s.waking.eraseIdx i
        joining := s.joining ++ [(e, none)] }
  | wakeAppend {i : Nat} {e : E} {p : WakeupPayload} {events : List (WorkflowEvent V)}
      {ev : WorkflowEvent V} :
      s.waking[i]? = some (e, p, events) → onWakeup p events = some ev →
      Step cfg s (.wakeAppend i) { s.append cfg [ev] with
        waking := s.waking.eraseIdx i
        joining := s.joining ++ [(e, some (s.history cfg).length)] }
  | join {i : Nat} {e : E} {own : Option Nat} : s.joining[i]? = some (e, own) →
      Step cfg s (.join i) { s.enqueue e own with joining := s.joining.eraseIdx i }
  | dequeue {e : E} {own : Option Nat} {rest : List (Option Nat)} :
      s.cur e = .free → s.queue e = own :: rest →
      Step cfg s (.dequeue e) { s.setCur e (if cfg.lock then .locking own else .reading) with
        queue := Function.update s.queue e rest }
  | acquire {e : E} {own : Option Nat} : s.cur e = .locking own →
      s.holder = none ∨ s.holder = some e →
      Step cfg s (.acquire e) { s.setCur e .reading with holder := some e }
  | refused {e : E} {own : Option Nat} : s.cur e = .locking own →
      ¬ (s.holder = none ∨ s.holder = some e) → Step cfg s (.acquire e) (s.setCur e .free)
  | readEnds {e : E} {seed : Nat} {r : Run V} : s.cur e = .reading →
      r = executeExclusive cfg e seed (s.history cfg) → r.result.isSome →
      Step cfg s (.read e seed) (s.endRun cfg e r)
  | read {e : E} {seed : Nat} {r : Run V} : s.cur e = .reading →
      r = executeExclusive cfg e seed (s.history cfg) → r.result = none →
      Step cfg s (.read e seed) (s.setCur e (.exec r))
  | go {e : E} {how : Option (Nat × Input V)} {r r' : Run V} {evs : List (WorkflowEvent V)}
      {ts : List (String × WakeupPayload)} : s.cur e = .exec r → Goes r how r' evs ts →
      Step cfg s (.go e how) { (s.append cfg evs).setCur e (.exec r') with
        tasks := ts.foldl enqueueIn s.tasks }
  | finish {e : E} {r : Run V} {x : Ending V} : s.cur e = .exec r → r.ending = some x →
      Step cfg s (.finish e) ((s.append cfg [x.event]).endRun cfg e (r.finished x))
  | release {e : E} : s.cur e = .releasing →
      Step cfg s (.release e) { s.setCur e .free with holder := none }
  | late {k : Nat} {how : Option (Nat × Input V)} {r r' : Run V} {evs : List (WorkflowEvent V)}
      {ts : List (String × WakeupPayload)} : s.past[k]? = some r → Goes r how r' evs ts →
      Step cfg s (.late k how) { s.append cfg evs with
        past := s.past.set k r'
        tasks := ts.foldl enqueueIn s.tasks }

variable {cfg : Cfg E V} {s s' : Sys E V} {a : Act E V} {r' : Run V}

theorem Step.of_step (h : step cfg s a = some s') : Step cfg s a s' := by
  cases a with
  | clock t =>
    cases h
    exact .clock t
  | foreign other ev =>
    simp only [step] at h
    split at h
    · next hc => cases h; exact .foreign ev hc.1 hc.2
    · cases h
  | start e name input =>
    simp only [step] at h
    split at h
    · next hc => cases h; exact .start input hc
    · cases h
  | resume e =>
    cases h
    exact .resume e
  | signal e name value =>
    cases h
    exact .signal e name value
  | cancel =>
    cases h
    exact .cancel
  | wake e p =>
    simp only [step] at h
    split at h
    · next hp => cases h; subst hp; exact .wakeLegacy e
    · split at h
      · next hp hm => cases h; exact .wake hp hm
      · cases h
  | wakeAppend i =>
    simp only [step] at h
    split at h
    · cases h
    · next e p events hi =>
      split at h
      · next ho => cases h; exact .wakeSkip hi ho
      · next ev ho => cases h; exact .wakeAppend hi ho
  | join i =>
    simp only [step] at h
    split at h
    · cases h
    · next hi => cases h; exact .join hi
  | dequeue e =>
    simp only [step] at h
    split at h
    · next hc hq => cases h; exact .dequeue hc hq
    · cases h
  | acquire e =>
    simp only [step] at h
    split at h
    · next hc =>
      split at h
      · next hh => cases h; exact .acquire hc hh
      · next hh => cases h; exact .refused hc hh
    · cases h
  | read e seed =>
    simp only [step] at h
    split at h
    · next hc =>
      split at h
      · next hr => cases h; exact .readEnds hc rfl hr
      · next hr => cases h; exact .read hc rfl (by simpa using hr)
    · cases h
  | move e =>
    simp only [step] at h
    split at h
    · next r hc =>
      obtain ⟨⟨r', evs⟩, hm, rfl⟩ := Option.map_eq_some_iff.mp h
      have hgo : Step cfg s (.go e none) _ := .go hc (Run.move_goes hm)
      exact hgo
    · cases h
  | advance e i inp =>
    simp only [step] at h
    split at h
    · next r hc =>
      obtain ⟨⟨r', evs, ts⟩, hm, rfl⟩ := Option.map_eq_some_iff.mp h
      have hgo : Step cfg s (.go e (some (i, inp))) _ := .go hc (Run.advance_goes hm)
      exact hgo
    · cases h
  | finish e =>
    simp only [step] at h
    split at h
    · next r hc =>
      obtain ⟨x, hx, rfl⟩ := Option.map_eq_some_iff.mp h
      exact .finish hc hx
    · cases h
  | release e =>
    simp only [step] at h
    split at h
    · next hc => cases h; exact .release hc
    · cases h
  | lateMove k =>
    simp only [step] at h
    split at h
    · cases h
    · next r hk =>
      obtain ⟨⟨r', evs⟩, hm, rfl⟩ := Option.map_eq_some_iff.mp h
      have hlate : Step cfg s (.late k none) _ := .late hk (Run.move_goes hm)
      exact hlate
  | lateAdvance k i inp =>
    simp only [step] at h
    split at h
    · cases h
    · next r hk =>
      obtain ⟨⟨r', evs, ts⟩, hm, rfl⟩ := Option.map_eq_some_iff.mp h
      have hlate : Step cfg s (.late k (some (i, inp))) _ := .late hk (Run.advance_goes hm)
      exact hlate

/-! ## Histories -/

theorem historyOf_append_own (id : String) (store : InMemoryEventStore (WorkflowEvent V))
    (ev : WorkflowEvent V) (ts : Int) :
    historyOf id (store.append ev.type (some id) ev ts) = historyOf id store ++ [ev] := by
  simp [historyOf, InMemoryEventStore.read_append_own]

omit [DecidableEq E] in
@[simp] theorem history_append (cfg : Cfg E V) (s : Sys E V) (evs : List (WorkflowEvent V)) :
    (s.append cfg evs).history cfg = s.history cfg ++ evs := by
  have key : ∀ store, historyOf cfg.workflowId (evs.foldl (fun st e =>
      st.append e.type (some cfg.workflowId) e s.clock) store) =
      historyOf cfg.workflowId store ++ evs := by
    induction evs with
    | nil => simp
    | cons e evs ih =>
      intro store
      rw [foldl_cons, ih, historyOf_append_own, append_assoc, singleton_append]
  exact key s.store

theorem historyOf_append_other {id : String} {store : InMemoryEventStore (WorkflowEvent V)}
    {type : String} {other : Option String} {ev : WorkflowEvent V} {ts : Int} (hid : id ≠ "")
    (ho : other ≠ some id) : historyOf id (store.append type other ev ts) = historyOf id store := by
  simp [historyOf, store.read_append_other hid ho]

omit [DecidableEq E] in
theorem history_foreign (s : Sys E V) {other : Option String} (ev : WorkflowEvent V)
    (hid : cfg.workflowId ≠ "") (ho : other ≠ some cfg.workflowId) :
    Sys.history cfg { s with store := s.store.append ev.type other ev s.clock } = s.history cfg :=
  historyOf_append_other hid ho

@[simp] theorem history_setCur (cfg : Cfg E V) (s : Sys E V) (e : E) (c : Cur V) :
    (s.setCur e c).history cfg = s.history cfg := rfl

@[simp] theorem history_endRun (cfg : Cfg E V) (s : Sys E V) (e : E) (r : Run V) :
    (s.endRun cfg e r).history cfg = s.history cfg := rfl

@[simp] theorem history_init (cfg : Cfg E V) : (machine cfg).init.history cfg = [] := by
  simp [machine, Sys.history, historyOf, InMemoryEventStore.read_ofAggregate]

@[simp] theorem past_init (cfg : Cfg E V) : (machine cfg).init.past = [] := rfl

@[simp] theorem cur_init (cfg : Cfg E V) (e : E) : (machine cfg).init.cur e = .free := rfl

/-- A run that is or was executed: the live run of some engine, or a past one. -/
def Sys.HasRun (s : Sys E V) (r : Run V) : Prop := r ∈ s.past ∨ ∃ e, s.cur e = .exec r

theorem Step.live (h : Step cfg s a s') {e : E} (hl : s'.cur e = .exec r') :
    s.cur e = .exec r' ∨
    (∃ r how evs ts, s.cur e = .exec r ∧ Goes r how r' evs ts ∧
      s'.history cfg = s.history cfg ++ evs) ∨
    (s.cur e = .reading ∧ s'.history cfg = s.history cfg ∧
      ∃ seed, r' = executeExclusive cfg e seed (s.history cfg) ∧ r'.result = none) := by
  cases h with
  | clock | foreign | start | resume | signal | cancel | wakeLegacy | wake | wakeSkip
    | wakeAppend | join | late => exact .inl hl
  | @dequeue d own rest hc hq =>
    by_cases hd : e = d
    · subst hd
      simp only [Sys.setCur, update_self] at hl
      split at hl <;> cases hl
    · exact .inl (by simpa [Sys.setCur, update_of_ne hd] using hl)
  | @acquire d | @refused d | @release d =>
    by_cases hd : e = d
    · subst hd
      simp [Sys.setCur] at hl
    · exact .inl (by simpa [Sys.setCur, update_of_ne hd] using hl)
  | @readEnds d | @finish d =>
    by_cases hd : e = d
    · subst hd
      simp only [Sys.endRun, Sys.setCur, update_self, Cfg.afterRun] at hl
      split at hl <;> cases hl
    · exact .inl (by simpa [Sys.endRun, Sys.append, Sys.setCur, update_of_ne hd] using hl)
  | @read d seed r hc hr hn =>
    by_cases hd : e = d
    · subst hd
      simp only [Sys.setCur, update_self, Cur.exec.injEq] at hl
      subst hl
      exact .inr (.inr ⟨hc, rfl, seed, hr, hn⟩)
    · exact .inl (by simpa [Sys.setCur, update_of_ne hd] using hl)
  | @go d how r r'' evs ts hc hg =>
    by_cases hd : e = d
    · subst hd
      simp only [Sys.setCur, update_self, Cur.exec.injEq] at hl
      subst hl
      exact .inr (.inl ⟨r, how, evs, ts, hc, hg, history_append cfg s evs⟩)
    · exact .inl (by simpa [Sys.append, Sys.setCur, update_of_ne hd] using hl)

theorem Step.past (h : Step cfg s a s') (hp : r' ∈ s'.past) :
    r' ∈ s.past ∨
    (∃ r ∈ s.past, ∃ how evs ts, Goes r how r' evs ts ∧
      s'.history cfg = s.history cfg ++ evs) ∨
    (∃ e r x, a = .finish e ∧ s.cur e = .exec r ∧ r.ending = some x ∧ r' = r.finished x ∧
      s'.history cfg = s.history cfg ++ [x.event]) ∨
    (∃ e seed, s.cur e = .reading ∧ s'.history cfg = s.history cfg ∧
      r' = executeExclusive cfg e seed (s.history cfg) ∧ r'.result.isSome) := by
  cases h with
  | clock | foreign | start | resume | signal | cancel | wakeLegacy | wake | wakeSkip
    | wakeAppend | join | dequeue | acquire | refused | release | read | go => exact .inl hp
  | @readEnds e seed r hc hr hn =>
    rcases mem_append.mp hp with hp | hp
    · exact .inl hp
    · rw [mem_singleton] at hp
      subst hp
      exact .inr (.inr (.inr ⟨e, seed, hc, rfl, hr, hn⟩))
  | @finish e r x hc hx =>
    rcases mem_append.mp hp with hp | hp
    · exact .inl hp
    · rw [mem_singleton] at hp
      exact .inr (.inr (.inl ⟨e, r, x, rfl, hc, hx, hp, by simp⟩))
  | @late k how r r'' evs ts hk hg =>
    rcases mem_or_eq_of_mem_set hp with hp | rfl
    · exact .inl hp
    · exact .inr (.inl ⟨r, mem_of_getElem? hk, how, evs, ts, hg, history_append cfg s evs⟩)

theorem Step.run (h : Step cfg s a s') (hr : s'.HasRun r') :
    s.HasRun r' ∨
    (∃ r, s.HasRun r ∧ ∃ how evs ts, Goes r how r' evs ts ∧
      s'.history cfg = s.history cfg ++ evs) ∨
    (∃ e r x, s.cur e = .exec r ∧ r.ending = some x ∧ r' = r.finished x ∧
      s'.history cfg = s.history cfg ++ [x.event]) ∨
    (∃ e seed, r' = executeExclusive cfg e seed (s.history cfg) ∧
      s'.history cfg = s.history cfg) := by
  rcases hr with hp | ⟨e, hl⟩
  · rcases h.past hp with hp | ⟨r, hp, hg⟩ | ⟨e, r, x, _, hfin⟩ | ⟨e, seed, _, hh, hr, _⟩
    · exact .inl (.inl hp)
    · exact .inr (.inl ⟨r, .inl hp, hg⟩)
    · exact .inr (.inr (.inl ⟨e, r, x, hfin⟩))
    · exact .inr (.inr (.inr ⟨e, seed, hr, hh⟩))
  · rcases h.live hl with hl | ⟨r, how, evs, ts, hl, hg⟩ | ⟨_, hh, seed, hr, _⟩
    · exact .inl (.inr ⟨e, hl⟩)
    · exact .inr (.inl ⟨r, .inr ⟨e, hl⟩, how, evs, ts, hg⟩)
    · exact .inr (.inr (.inr ⟨e, seed, hr, hh⟩))

theorem Step.grows (h : Step cfg s a s') : s.history cfg <+: s'.history cfg := by
  cases h with
  | clock | resume | wakeLegacy | wake | wakeSkip | join | dequeue | acquire | refused
    | readEnds | read | release => exact prefix_rfl
  | foreign ev hid ho =>
    rw [history_foreign s ev hid ho]
  | start | signal | cancel | wakeAppend | go | finish | late =>
    exact ⟨_, (history_append cfg s _).symm⟩

end NevoMessaging.Workflow
