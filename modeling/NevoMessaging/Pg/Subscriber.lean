import Mathlib.Algebra.Group.Int.Defs
import NevoMessaging.EventStore

/-!
# PgEventStore.subscribe

One subscription: the variables of `subscribe` and the place its `tick` has reached. `tick`
is cut at its `await`s and at the top of its `for` loop; what it waits for (the timer, the
read, the handler, the poison sink) is an input.

A subscription also keeps the trace of what it did: calls of the handler and of the sink, and
what it logs. Only the calls and the cursor matter to a user; the log lines are how a skipped
event can be told.
-/

namespace NevoMessaging.Pg

variable {P X : Type}

structure PgEventStoreSubscribeOptions where
  pollIntervalMs : Option Int := none
  batchSize : Option Int := none
  maxAttemptsPerEvent : Option Int := none
  maxBackoffMs : Option Int := none
  /-- Whether a sink is given. -/
  onPoison : Bool := false

/-- The arguments of `subscribe`. `messageOf err` is `(err as Error)?.message ?? String(err)`
for a value `err` that the handler rejects with, and `none` if that throws. -/
structure Subscription (X : Type) where
  fromSeq : Int
  opts : PgEventStoreSubscribeOptions
  messageOf : X → Option String

namespace Subscription

def interval (c : Subscription X) : Int := max 50 (c.opts.pollIntervalMs.getD 200)

def batchSize (c : Subscription X) : Nat := (max 1 (c.opts.batchSize.getD 500)).toNat

def maxAttempts (c : Subscription X) : Nat := (max 1 (c.opts.maxAttemptsPerEvent.getD 5)).toNat

def maxBackoff (c : Subscription X) : Int := max c.interval (c.opts.maxBackoffMs.getD 30000)

end Subscription

structure Stuck where
  sequence : Nat
  attempts : Nat
deriving DecidableEq, Repr

/-- The new value of `stuck` when the handler has failed on an event. -/
def stuckAfter (stuck : Option Stuck) (sequence : Nat) : Stuck :=
  match stuck with
  | some st =>
    if st.sequence = sequence then { sequence, attempts := st.attempts + 1 }
    else { sequence, attempts := 1 }
  | none => { sequence, attempts := 1 }

def nextDelay (c : Subscription X) (stuck : Option Stuck) : Int :=
  match stuck with
  | none => c.interval
  | some st => min c.maxBackoff (c.interval * 2 ^ min (st.attempts - 1) 10)

/-- What a subscription does that can be seen: it calls the handler, the handler resolves, it
logs that it will retry or that it gives up, it calls the sink, it logs that the sink or the
poll failed. -/
inductive Obs (P X : Type)
  | invoked (event : DomainEvent P)
  | handled (event : DomainEvent P)
  | retrying (event : DomainEvent P) (attempts : Nat) (message : String)
  | skipping (event : DomainEvent P) (attempts : Nat) (message : String)
  | poisoned (event : DomainEvent P) (err : X)
  | sinkFailed (event : DomainEvent P)
  | pollFailed

/-- The entry is a call of the handler with the event. -/
def Obs.invokes (sequence : Nat) : Obs P X → Bool
  | .invoked e => e.sequence = sequence
  | _ => false

/-- Where `tick` stands: its timer is set; it reads; it is at the top of the `for` loop with the
events that are left; it waits for the handler or the sink; it has ended for good. -/
inductive Phase (P X : Type)
  | waiting (delay : Int)
  | reading
  | batch (events : List (DomainEvent P)) (more : Bool)
  | handling (event : DomainEvent P) (rest : List (DomainEvent P)) (more : Bool)
  | poisoning (event : DomainEvent P) (rest : List (DomainEvent P)) (more : Bool)
  | over

structure Subscriber (P X : Type) where
  cursor : Int
  stopped : Bool := false
  stuck : Option Stuck := none
  phase : Phase P X := .waiting 0
  trace : List (Obs P X) := []

/-- What a subscription waits for, apart from the result of its read. -/
inductive Input (X : Type)
  | timer
  | readRejected
  | next
  | resolved
  | rejected (err : X)
  | sinkSettled (resolved : Bool)
  | unsubscribe

def Subscription.init (c : Subscription X) : Subscriber P X := { cursor := c.fromSeq }

namespace Subscriber

def note (s : Subscriber P X) (o : Obs P X) : Subscriber P X := { s with trace := s.trace ++ [o] }

/-- The end of `tick`. -/
def endTick (s : Subscriber P X) (delay : Int) : Subscriber P X :=
  { s with phase := if s.stopped then .over else .waiting delay }

/-- The condition of the `while` loop. -/
def loop (c : Subscription X) (s : Subscriber P X) (more : Bool) : Subscriber P X :=
  if more && !s.stopped then { s with phase := .reading } else s.endTick c.interval

/-- The event is done with, by success or by `skip`. -/
def pass (s : Subscriber P X) (stuck : Option Stuck) (event : DomainEvent P)
    (rest : List (DomainEvent P)) (more : Bool) : Subscriber P X :=
  { s with stuck, cursor := event.sequence + 1, phase := .batch rest more }

/-- The `catch` of the `for` loop, with `onEventFailed` up to its call of the sink. -/
def onEventFailed (c : Subscription X) (s : Subscriber P X) (event : DomainEvent P)
    (rest : List (DomainEvent P)) (more : Bool) (err : X) : Subscriber P X :=
  let stuck := stuckAfter s.stuck event.sequence
  match c.messageOf err with
  -- The message is taken before anything else is decided. If that throws, so does
  -- `onEventFailed`, and the `catch` around the whole poll takes over.
  | none => ({ s with stuck := some stuck }.note .pollFailed).endTick c.interval
  | some message =>
    if stuck.attempts < c.maxAttempts then
      ({ s with stuck := some stuck }.note (.retrying event stuck.attempts message)).endTick
        (nextDelay c (some stuck))
    else
      let s := { s with stuck := some stuck }.note (.skipping event stuck.attempts message)
      if c.opts.onPoison then
        { s.note (.poisoned event err) with phase := .poisoning event rest more }
      else s.pass none event rest more

/-- The read resolves. -/
def fetched (c : Subscription X) (s : Subscriber P X) (events : List (DomainEvent P)) :
    Option (Subscriber P X) :=
  match s.phase with
  | .reading => some { s with phase := .batch events (events.length = c.batchSize) }
  | _ => none

def step (c : Subscription X) (s : Subscriber P X) : Input X → Option (Subscriber P X)
  | .timer =>
    match s.phase with
    | .waiting _ => some (if s.stopped then { s with phase := .over } else s.loop c true)
    | _ => none
  | .readRejected =>
    match s.phase with
    | .reading => some ((s.note .pollFailed).endTick c.interval)
    | _ => none
  | .next =>
    match s.phase with
    | .batch [] more => some (s.loop c more)
    | .batch (event :: rest) more =>
      some (if s.stopped then s.loop c more
        else { s.note (.invoked event) with phase := .handling event rest more })
    | _ => none
  | .resolved =>
    match s.phase with
    | .handling event rest more =>
      let stuck := s.stuck.filter fun st => st.sequence ≠ event.sequence
      some ((s.note (.handled event)).pass stuck event rest more)
    | _ => none
  | .rejected err =>
    match s.phase with
    | .handling event rest more => some (s.onEventFailed c event rest more err)
    | _ => none
  | .sinkSettled resolved =>
    match s.phase with
    | .poisoning event rest more =>
      some ((if resolved then s else s.note (.sinkFailed event)).pass none event rest more)
    | _ => none
  | .unsubscribe =>
    match s.phase with
    -- `clearTimeout`
    | .waiting _ => some { s with stopped := true, phase := .over }
    | _ => some { s with stopped := true }

end Subscriber

/-! ## What an input does -/

/-- `tick` waits neither for the handler nor for the sink. -/
def Phase.settled : Phase P X → Bool
  | .handling .. | .poisoning .. => false
  | _ => true

/-- The events of the last read that are not done with. -/
def Phase.rest : Phase P X → List (DomainEvent P)
  | .batch events _ => events
  | .handling event rest _ | .poisoning event rest _ => event :: rest
  | _ => []

/-- The cases of `Subscriber.step`. -/
inductive Goes (c : Subscription X) (s : Subscriber P X) : Input X → Subscriber P X → Prop
  | rests {i : Input X} {s' : Subscriber P X} : s.phase.settled = true → s'.phase.settled = true →
      s'.phase.rest = [] → s'.cursor = s.cursor → s'.stuck = s.stuck →
      (s'.trace = s.trace ∨ s'.trace = s.trace ++ [Obs.pollFailed]) → Goes c s i s'
  | stops : Goes c s .unsubscribe { s with stopped := true }
  | invokes {event : DomainEvent P} {rest : List (DomainEvent P)} {more : Bool} :
      s.phase = .batch (event :: rest) more →
      Goes c s .next { s.note (.invoked event) with phase := .handling event rest more }
  | handles {event : DomainEvent P} {rest : List (DomainEvent P)} {more : Bool} :
      s.phase = .handling event rest more →
      Goes c s .resolved ((s.note (.handled event)).pass
        (s.stuck.filter fun st => st.sequence ≠ event.sequence) event rest more)
  | unreported {event : DomainEvent P} {rest : List (DomainEvent P)} {more : Bool} {err : X} :
      s.phase = .handling event rest more → c.messageOf err = none →
      Goes c s (.rejected err) (({ s with stuck := some (stuckAfter s.stuck event.sequence) }.note
        .pollFailed).endTick c.interval)
  | retries {event : DomainEvent P} {rest : List (DomainEvent P)} {more : Bool} {err : X}
      {message : String} {delay : Int} : s.phase = .handling event rest more →
      c.messageOf err = some message →
      (stuckAfter s.stuck event.sequence).attempts < c.maxAttempts →
      Goes c s (.rejected err) (({ s with stuck := some (stuckAfter s.stuck event.sequence) }.note
        (.retrying event (stuckAfter s.stuck event.sequence).attempts message)).endTick delay)
  | poisons {event : DomainEvent P} {rest : List (DomainEvent P)} {more : Bool} {err : X}
      {message : String} : s.phase = .handling event rest more →
      c.messageOf err = some message →
      c.maxAttempts ≤ (stuckAfter s.stuck event.sequence).attempts → c.opts.onPoison = true →
      Goes c s (.rejected err)
        { ({ s with stuck := some (stuckAfter s.stuck event.sequence) }.note
            (.skipping event (stuckAfter s.stuck event.sequence).attempts message)).note
            (.poisoned event err) with
          phase := .poisoning event rest more }
  | skips {event : DomainEvent P} {rest : List (DomainEvent P)} {more : Bool} {err : X}
      {message : String} : s.phase = .handling event rest more →
      c.messageOf err = some message →
      c.maxAttempts ≤ (stuckAfter s.stuck event.sequence).attempts → c.opts.onPoison = false →
      Goes c s (.rejected err) (({ s with stuck := some (stuckAfter s.stuck event.sequence) }.note
        (.skipping event (stuckAfter s.stuck event.sequence).attempts message)).pass
          none event rest more)
  | sinks {event : DomainEvent P} {rest : List (DomainEvent P)} {more resolved : Bool} :
      s.phase = .poisoning event rest more →
      Goes c s (.sinkSettled resolved) ((if resolved then s else s.note (.sinkFailed event)).pass
        none event rest more)

namespace Subscriber

variable {c : Subscription X} {s s' : Subscriber P X}

theorem loop_rests (hs : s.phase.settled = true) (more : Bool) (i : Input X) :
    Goes c s i (s.loop c more) := by
  unfold loop endTick
  split
  · exact .rests hs rfl rfl rfl rfl (.inl rfl)
  · split <;> exact .rests hs rfl rfl rfl rfl (.inl rfl)

theorem onEventFailed_goes {event : DomainEvent P} {rest : List (DomainEvent P)} {more : Bool}
    (hp : s.phase = .handling event rest more) (err : X) :
    Goes c s (.rejected err) (s.onEventFailed c event rest more err) := by
  unfold onEventFailed
  cases hm : c.messageOf err with
  | none => exact .unreported hp hm
  | some message =>
    simp only
    split
    · next hlt => exact .retries hp hm hlt
    · next hge =>
      split
      · next ho => exact .poisons hp hm (Nat.le_of_not_lt hge) ho
      · next ho => exact .skips hp hm (Nat.le_of_not_lt hge) (by simpa using ho)

theorem step_goes {i : Input X} (h : s.step c i = some s') : Goes c s i s' := by
  cases i with
  | timer =>
    simp only [step] at h
    split at h
    · next hp =>
      cases h
      split
      · exact .rests (by simp [hp, Phase.settled]) rfl rfl rfl rfl (.inl rfl)
      · exact loop_rests (by simp [hp, Phase.settled]) true _
    · cases h
  | readRejected =>
    simp only [step] at h
    split at h
    · next hp =>
      cases h
      unfold endTick
      refine .rests (by simp [hp, Phase.settled]) ?_ ?_ rfl rfl (.inr rfl)
      · split <;> rfl
      · split <;> rfl
    · cases h
  | next =>
    simp only [step] at h
    split at h
    · next more hp =>
      cases h
      exact loop_rests (by simp [hp, Phase.settled]) more _
    · next event rest more hp =>
      cases h
      split
      · exact loop_rests (by simp [hp, Phase.settled]) more _
      · exact .invokes hp
    · cases h
  | resolved =>
    simp only [step] at h
    split at h
    · next hp =>
      cases h
      exact .handles hp
    · cases h
  | rejected err =>
    simp only [step] at h
    split at h
    · next hp =>
      cases h
      exact onEventFailed_goes hp err
    · cases h
  | sinkSettled resolved =>
    simp only [step] at h
    split at h
    · next hp =>
      cases h
      exact .sinks hp
    · cases h
  | unsubscribe =>
    simp only [step] at h
    split at h
    · next hp =>
      cases h
      exact .rests (by simp [hp, Phase.settled]) rfl rfl rfl rfl (.inl rfl)
    · cases h
      exact .stops

theorem fetched_cases {events : List (DomainEvent P)} (h : s.fetched c events = some s') :
    s.phase = .reading ∧
      s' = { s with phase := .batch events (events.length = c.batchSize) } := by
  unfold fetched at h
  split at h
  · next hp => exact ⟨hp, (Option.some.inj h).symm⟩
  · cases h

end Subscriber

end NevoMessaging.Pg
