import Mathlib.Data.List.Sort
import NevoMessaging.Lib.Table
import NevoMessaging.Saga.Orchestrator

/-!
# The saga stores

`InMemorySagaStore` holds the snapshots and the recovery leases in two maps. `PgSagaStore` holds
both in one row; of the row only the columns that `claim` looks at are modelled.

`Date.now()` and `NOW()` are the argument `now`. A snapshot is copied when it is stored and when it
is loaded, so the stored value is never shared.
-/

namespace NevoMessaging

variable {C : Type}

/-- `{ by, at }`: who has claimed a saga, and when. -/
structure SagaClaim where
  worker : String
  time : Int
deriving DecidableEq

def SagaSnapshot.unfinished (s : SagaSnapshot C) : Bool :=
  s.status = .pending || s.status = .compensating

structure InMemorySagaStore (C : Type) where
  data : Table (SagaSnapshot.sagaId (C := C)) := .empty
  claims : String → Option SagaClaim := fun _ => none

namespace InMemorySagaStore

def save (s : SagaSnapshot C) (st : InMemorySagaStore C) : InMemorySagaStore C :=
  { st with data := st.data.set s }

/-- Unfinished sagas, oldest first. -/
def unfinished (st : InMemorySagaStore C) : List (SagaSnapshot C) :=
  (st.data.rows.filter SagaSnapshot.unfinished).insertionSort (·.updatedAt ≤ ·.updatedAt)

def listPending (limit : Int) (st : InMemorySagaStore C) : List (SagaSnapshot C) :=
  st.unfinished.take (max 1 limit).toNat

def delete (id : String) (st : InMemorySagaStore C) : InMemorySagaStore C where
  data := st.data.erase id
  claims := Function.update st.claims id none

def claim (now : Int) (sagaId workerId : String) (leaseMs : Int) (st : InMemorySagaStore C) :
    Bool × InMemorySagaStore C :=
  let claimed := (true, { st with
    claims := Function.update st.claims sagaId (some { worker := workerId, time := now }) })
  match st.claims sagaId with
  | some existing =>
    if existing.worker ≠ workerId ∧ now - existing.time < leaseMs then (false, st) else claimed
  | none => claimed

end InMemorySagaStore

structure PgSagaRow where
  sagaId : String
  status : SagaStatus
  claimedAt : Option Int := none
  claimedBy : Option String := none
deriving DecidableEq

structure PgSagaStore where
  rows : Table PgSagaRow.sagaId := .empty

namespace PgSagaStore

/-- `INSERT … ON CONFLICT (saga_id) DO UPDATE`: the claim of a row that is there already is not
among the columns that are set. -/
def save (s : SagaSnapshot C) (st : PgSagaStore) : PgSagaStore where
  rows :=
    match st.rows.get? s.sagaId with
    | some _ => st.rows.update s.sagaId (fun row => { row with status := s.status }) fun _ => rfl
    | none => st.rows.set { sagaId := s.sagaId, status := s.status }

/-- The `WHERE` clause of `claim`. -/
def claimable (now : Int) (workerId : String) (leaseMs : Int) (row : PgSagaRow) : Bool :=
  (row.status = .pending || row.status = .compensating) &&
    (row.claimedAt.isNone || row.claimedBy = some workerId ||
      row.claimedAt.any fun claimedAt => claimedAt < now - leaseMs)

/-- `SET claimed_at = NOW(), claimed_by = $2` -/
def stamp (now : Int) (workerId : String) (row : PgSagaRow) : PgSagaRow :=
  { row with claimedAt := some now, claimedBy := some workerId }

theorem sagaId_stamp (now : Int) (workerId : String) (row : PgSagaRow) :
    (stamp now workerId row).sagaId = row.sagaId := rfl

def claim (now : Int) (sagaId workerId : String) (leaseMs : Int) (st : PgSagaStore) :
    Bool × PgSagaStore :=
  if (st.rows.get? sagaId).any (claimable now workerId leaseMs) then
    (true, ⟨st.rows.update sagaId (stamp now workerId) (sagaId_stamp now workerId)⟩)
  else (false, st)

end PgSagaStore

end NevoMessaging
