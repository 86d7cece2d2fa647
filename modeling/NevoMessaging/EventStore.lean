import Mathlib.Data.List.Basic

/-!
# The in-memory event store

`append` numbers the event and pushes it; `read` filters the whole list and does not look at
`committedOnly`, which only matters to the Postgres store. The two
`async` methods have no `await` inside, so each takes effect at the moment it is
called. Subscribers and the generated `id` and `meta` of an event are not part of
this module: no reader of it looks at them.

`read_append_own` and `read_append_other` say what one append does to the history
of an aggregate. The second one needs a non-empty id: `read` tests its options for
truthiness, so an empty `aggregateId` does not filter at all.
-/

namespace NevoMessaging

structure DomainEvent (P : Type) where
  type : String
  aggregateId : Option String
  payload : P
  sequence : Nat
  ts : Int

structure EventStoreReadRange where
  fromSeq : Option Int := none
  toSeq : Option Int := none
  type : Option String := none
  aggregateId : Option String := none
  limit : Option Nat := none
  committedOnly : Bool := false

/-- The range every reader of one aggregate uses: `{ aggregateId }`. -/
def EventStoreReadRange.ofAggregate (id : String) : EventStoreReadRange :=
  { aggregateId := some id }

structure InMemoryEventStore (P : Type) where
  events : List (DomainEvent P) := []
  nextSeq : Nat := 1

namespace InMemoryEventStore

open EventStoreReadRange

variable {P : Type}

/-- `append`, with `Date.now()` as the argument `ts`. -/
def append (s : InMemoryEventStore P) (type : String) (aggregateId : Option String)
    (payload : P) (ts : Int) : InMemoryEventStore P :=
  { events := s.events ++ [⟨type, aggregateId, payload, s.nextSeq, ts⟩]
    nextSeq := s.nextSeq + 1 }

def inRange (range : EventStoreReadRange) (e : DomainEvent P) : Bool :=
  decide (range.fromSeq.getD 0 ≤ (e.sequence : Int)) &&
    (match range.toSeq with
    | none => true
    | some hi => decide ((e.sequence : Int) ≤ hi))

/-- A filter on an optional string that the source guards by `if (range.x)`: absent
and empty both let everything through. -/
def filterTruthy (wanted : Option String) (got : DomainEvent P → Option String)
    (out : List (DomainEvent P)) : List (DomainEvent P) :=
  match wanted with
  | none => out
  | some w => if w = "" then out else out.filter fun e => got e = some w

def read (s : InMemoryEventStore P) (range : EventStoreReadRange) : List (DomainEvent P) :=
  let out := s.events.filter (inRange range)
  let out := filterTruthy range.type (fun e => some e.type) out
  let out := filterTruthy range.aggregateId (·.aggregateId) out
  match range.limit with
  | none => out
  | some n => if n = 0 then out else out.take n

theorem read_ofAggregate (s : InMemoryEventStore P) (id : String) :
    s.read (ofAggregate id) =
      if id = "" then s.events else s.events.filter fun e => e.aggregateId = some id := by
  have hall : s.events.filter (inRange (ofAggregate id)) = s.events :=
    List.filter_eq_self.mpr fun e _ => by simp [inRange, ofAggregate]
  simp only [read, hall]
  simp [ofAggregate, filterTruthy]

theorem read_append_own (s : InMemoryEventStore P) (type id : String) (p : P) (ts : Int) :
    (s.append type (some id) p ts).read (ofAggregate id) =
      s.read (ofAggregate id) ++ [⟨type, some id, p, s.nextSeq, ts⟩] := by
  simp only [read_ofAggregate, append]
  split <;> simp

theorem read_append_other (s : InMemoryEventStore P) {type id : String} {other : Option String}
    {p : P} {ts : Int} (hid : id ≠ "") (ho : other ≠ some id) :
    (s.append type other p ts).read (ofAggregate id) = s.read (ofAggregate id) := by
  simp [read_ofAggregate, append, hid, ho]

end InMemoryEventStore

end NevoMessaging
