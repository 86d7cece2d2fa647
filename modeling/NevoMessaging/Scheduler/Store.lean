import Mathlib.Algebra.Order.Group.Int
import NevoMessaging.Lib.Machine
import NevoMessaging.Lib.Table
import NevoMessaging.Scheduler
import NevoMessaging.Scheduler.DueHeap

/-!
# InMemoryScheduledTaskStore

The tasks are in a map under their ids. A heap over `runAt` tells which ones are due. Its entries
are never taken out when a task changes, so an entry may be out of date, and a task may have
several; `claimDue` checks every entry against the map.

`Date.now()` is the argument `now` of an operation.
-/

namespace NevoMessaging

variable {Q : Type}

inductive TaskStatus
  | pending
  | running
  | completed
  | failed
  | cancelled
deriving DecidableEq, Repr

structure TaskRecord (Q : Type) extends ScheduledTask Q where
  status : TaskStatus := .pending
  lastError : Option String := none
  claimedAt : Option Int := none
  claimedBy : Option String := none
  completedAt : Option Int := none
  createdAt : Int := 0

namespace TaskRecord

def key (t : TaskRecord Q) : String := t.id

def entry (t : TaskRecord Q) : DueEntry Int := { runAt := t.runAt, id := t.id }

/-- The task is not at its end. -/
def active (t : TaskRecord Q) : Bool := t.status = .pending || t.status = .running

def terminal (t : TaskRecord Q) : Bool :=
  t.status = .completed || t.status = .failed || t.status = .cancelled

def leaseExpired (t : TaskRecord Q) (now claimTtlMs : Int) : Bool :=
  t.status = .running && t.claimedAt.any fun claimedAt => claimTtlMs ≤ now - claimedAt

/-- The task is pending, or running with a lease that has expired. -/
def claimable (t : TaskRecord Q) (now claimTtlMs : Int) : Bool :=
  t.status = .pending || t.leaseExpired now claimTtlMs

/-- The task is due and may be claimed. -/
def eligible (t : TaskRecord Q) (now claimTtlMs : Int) : Bool :=
  t.runAt ≤ .num now && t.claimable now claimTtlMs

def claim (workerId : String) (now : Int) (t : TaskRecord Q) : TaskRecord Q :=
  { t with claimedAt := some now, claimedBy := some workerId, status := .running }

/-- Only the worker that still holds the running claim may finalize. -/
def owns (t : TaskRecord Q) (workerId : String) : Bool :=
  t.status = .running && t.claimedBy = some workerId

def complete (now : Int) (t : TaskRecord Q) : TaskRecord Q :=
  { t with status := .completed, completedAt := some now }

def fail (now : Int) (error : String) (t : TaskRecord Q) : TaskRecord Q :=
  let t := { t with
    attempts := t.attempts + 1
    lastError := some error
    claimedAt := none
    claimedBy := none }
  if t.maxAttempts ≤ t.attempts then { t with status := .failed, completedAt := some now }
  else { t with status := .pending }

def reschedule (nextRunAt : OrNaN Int) (error : Option String) (t : TaskRecord Q) : TaskRecord Q :=
  { t with
    runAt := nextRunAt
    status := .pending
    attempts := 0
    lastError := error <|> t.lastError
    claimedAt := none
    claimedBy := none
    completedAt := none }

def extend (now : Int) (t : TaskRecord Q) : TaskRecord Q := { t with claimedAt := some now }

def cancel (now : Int) (t : TaskRecord Q) : TaskRecord Q :=
  { t with status := .cancelled, completedAt := some now }

theorem key_claim (workerId : String) (now : Int) (t : TaskRecord Q) :
    (t.claim workerId now).key = t.key := rfl

theorem key_complete (now : Int) (t : TaskRecord Q) : (t.complete now).key = t.key := rfl

theorem toScheduledTask_fail {now : Int} {error : String} (t : TaskRecord Q) :
    (t.fail now error).toScheduledTask = { t.toScheduledTask with attempts := t.attempts + 1 } := by
  unfold fail
  dsimp only
  split <;> rfl

theorem key_fail (now : Int) (error : String) (t : TaskRecord Q) :
    (t.fail now error).key = t.key := by
  rw [key, toScheduledTask_fail, key]

theorem key_reschedule (nextRunAt : OrNaN Int) (error : Option String) (t : TaskRecord Q) :
    (t.reschedule nextRunAt error).key = t.key := rfl

theorem key_extend (now : Int) (t : TaskRecord Q) : (t.extend now).key = t.key := rfl

theorem key_cancel (now : Int) (t : TaskRecord Q) : (t.cancel now).key = t.key := rfl

theorem status_fail (now : Int) (error : String) (t : TaskRecord Q) :
    (t.fail now error).status = .failed ∨ (t.fail now error).status = .pending := by
  unfold fail
  dsimp only
  split
  · exact .inl rfl
  · exact .inr rfl

theorem not_terminal {t : TaskRecord Q} : ¬ t.terminal ↔ t.active := by
  unfold terminal active
  cases t.status <;> decide

end TaskRecord

structure InMemoryScheduledTaskStore (Q : Type) where
  map : Table (TaskRecord.key (Q := Q)) := .empty
  due : DueHeap Int := {}
  terminal : List String := []
  terminalRetentionMs : Int
  maxTerminalTasks : Nat

namespace InMemoryScheduledTaskStore

def create (terminalRetentionMs maxTerminalTasks : Option Int) : InMemoryScheduledTaskStore Q where
  terminalRetentionMs := max 0 (terminalRetentionMs.getD (60 * 60000))
  maxTerminalTasks := (max 0 (maxTerminalTasks.getD 10000)).toNat

def markClaimable (st : InMemoryScheduledTaskStore Q) (task : TaskRecord Q) :
    InMemoryScheduledTaskStore Q :=
  { st with due := st.due.push task.runAt task.id }

def markTerminal (st : InMemoryScheduledTaskStore Q) (id : String) : InMemoryScheduledTaskStore Q :=
  { st with terminal := st.terminal ++ [id] }

/-- The walk over the terminal list: the ids that stay in it, and the map without the tasks that
have expired. -/
def pruneLoop (retention now : Int) : List String → Table (TaskRecord.key (Q := Q)) →
    List String × Table (TaskRecord.key (Q := Q))
  | [], map => ([], map)
  | id :: ids, map =>
    match map.get? id with
    | none => pruneLoop retention now ids map
    | some task =>
      if task.terminal then
        if retention < now - task.completedAt.getD task.createdAt then
          pruneLoop retention now ids (map.erase id)
        else
          let (live, map) := pruneLoop retention now ids map
          (id :: live, map)
      else pruneLoop retention now ids map

def pruneTerminal (st : InMemoryScheduledTaskStore Q) (now : Int) : InMemoryScheduledTaskStore Q :=
  let (live, map) := pruneLoop st.terminalRetentionMs now st.terminal st.map
  let overflow := live.length - st.maxTerminalTasks
  { st with
    map := (live.take overflow).foldl Table.erase map
    terminal := live.drop overflow }

/-- Whether `enqueue` replaces the stored definition of a cron task. -/
def redefines (task existing : TaskRecord Q) : Bool :=
  (truthy task.cron).isSome &&
    (existing.cron ≠ task.cron || existing.timezone ≠ task.timezone || existing.name ≠ task.name)

def enqueue (st : InMemoryScheduledTaskStore Q) (now : Int) (task : TaskRecord Q) :
    InMemoryScheduledTaskStore Q :=
  let st := st.pruneTerminal now
  match st.map.get? task.id with
  | some existing =>
    if redefines task existing then
      let replaced := { task with createdAt := existing.createdAt }
      { st with map := st.map.set replaced }.markClaimable replaced
    else st
  | none =>
    let stored := { st with map := st.map.set task }
    if task.status = .pending then stored.markClaimable task else stored

/-- The state of the loop of `claimDue`. -/
structure Claiming (Q : Type) where
  map : Table (TaskRecord.key (Q := Q))
  due : DueHeap Int
  claimed : List (TaskRecord Q) := []
  requeue : List (TaskRecord Q) := []

/-- What the loop does with the entry that it has taken from the heap. -/
def Claiming.take (c : Claiming Q) (workerId : String) (now claimTtlMs : Int) (entry : DueEntry Int)
    (due : DueHeap Int) : Claiming Q :=
  match c.map.get? entry.id with
  | none => { c with due }
  | some task =>
    if ¬ task.runAt.same entry.runAt then { c with due }
    else if task.claimable now claimTtlMs then
      { due
        map := c.map.update task.id (TaskRecord.claim workerId now)
          (TaskRecord.key_claim workerId now)
        claimed := c.claimed ++ [task.claim workerId now]
        requeue := c.requeue ++ [task.claim workerId now] }
    else if task.status = .running then { c with due, requeue := c.requeue ++ [task] }
    else { c with due }

/-- The `fuel` is at least the size of the heap, which gets smaller in every turn. -/
def claimLoop (workerId : String) (now : Int) (limit : Nat) (claimTtlMs : Int) :
    (fuel : Nat) → Claiming Q → Claiming Q
  | 0, c => c
  | fuel + 1, c =>
    if c.claimed.length < limit then
      match c.due.peekRunAt with
      | none => c
      | some nextDue =>
        if .num now < nextDue then c
        else
          match c.due.pop with
          | none => c
          | some (entry, due) =>
            claimLoop workerId now limit claimTtlMs fuel (c.take workerId now claimTtlMs entry due)
    else c

def claimDue (st : InMemoryScheduledTaskStore Q) (workerId : String) (now : Int) (limit : Nat)
    (claimTtlMs : Int) : List (TaskRecord Q) × InMemoryScheduledTaskStore Q :=
  let st := st.pruneTerminal now
  let c := claimLoop workerId now limit claimTtlMs st.due.size { map := st.map, due := st.due }
  (c.claimed, c.requeue.foldl markClaimable { st with map := c.map, due := c.due })

def markCompleted (st : InMemoryScheduledTaskStore Q) (now : Int) (id workerId : String) :
    InMemoryScheduledTaskStore Q :=
  match st.map.get? id with
  | none => st
  | some t =>
    if t.owns workerId then
      { st with
        map := st.map.update id (TaskRecord.complete now)
          (TaskRecord.key_complete now) }.markTerminal id
    else st

def markFailed (st : InMemoryScheduledTaskStore Q) (now : Int) (id error workerId : String) :
    InMemoryScheduledTaskStore Q :=
  match st.map.get? id with
  | none => st
  | some t =>
    if t.owns workerId then
      let st := { st with
        map := st.map.update id (TaskRecord.fail now error) (TaskRecord.key_fail now error) }
      if (t.fail now error).status = .failed then st.markTerminal id
      else st.markClaimable (t.fail now error)
    else st

def reschedule (st : InMemoryScheduledTaskStore Q) (id : String) (nextRunAt : OrNaN Int)
    (workerId : String) (error : Option String) : InMemoryScheduledTaskStore Q :=
  match st.map.get? id with
  | none => st
  | some t =>
    if t.owns workerId then
      { st with
        map := st.map.update id (TaskRecord.reschedule nextRunAt error)
          (TaskRecord.key_reschedule nextRunAt error) }.markClaimable (t.reschedule nextRunAt error)
    else st

/-- One id of `extendLease`. -/
def extendOne (now : Int) (workerId : String) (st : InMemoryScheduledTaskStore Q) (id : String) :
    InMemoryScheduledTaskStore Q :=
  match st.map.get? id with
  | none => st
  | some t =>
    if t.owns workerId then
      { st with map := st.map.update id (TaskRecord.extend now) (TaskRecord.key_extend now) }
    else st

def extendLease (st : InMemoryScheduledTaskStore Q) (now : Int) (ids : List String)
    (workerId : String) : InMemoryScheduledTaskStore Q :=
  ids.foldl (extendOne now workerId) st

def cancel (st : InMemoryScheduledTaskStore Q) (now : Int) (id : String) :
    InMemoryScheduledTaskStore Q :=
  match st.map.get? id with
  | none => st
  | some _ =>
    { st with
      map := st.map.update id (TaskRecord.cancel now)
        (TaskRecord.key_cancel now) }.markTerminal id

/-- The tasks that are listed, and the store, which is pruned first. -/
def list (st : InMemoryScheduledTaskStore Q) (now : Int) (status : Option TaskStatus)
    (limit : Option Nat) : List (TaskRecord Q) × InMemoryScheduledTaskStore Q :=
  let st := st.pruneTerminal now
  let out := st.map.rows.filter fun t => status.all (t.status = ·)
  (match limit with
    | some (n + 1) => out.take (n + 1)
    | _ => out, st)

end InMemoryScheduledTaskStore

/-! ## Workers on one store -/

/-- Any worker may call any operation at any time. -/
inductive StoreAction (Q : Type)
  | enqueue (now : Int) (task : TaskRecord Q)
  | claimDue (workerId : String) (now : Int) (limit : Nat) (claimTtlMs : Int)
  | markCompleted (now : Int) (id workerId : String)
  | markFailed (now : Int) (id error workerId : String)
  | reschedule (id : String) (nextRunAt : OrNaN Int) (workerId : String) (error : Option String)
  | extendLease (now : Int) (ids : List String) (workerId : String)
  | cancel (now : Int) (id : String)
  | list (now : Int) (status : Option TaskStatus) (limit : Option Nat)

/-- What has happened to a task. A call of a finalizer counts if it was accepted. -/
inductive TaskEvent
  | created (id : String)
  | redefined (id : String)
  | claimed (id workerId : String) (now claimTtlMs : Int)
  | extended (id workerId : String) (now : Int)
  | finalised (id workerId : String)
  | cancelled (id : String)
deriving DecidableEq

namespace InMemoryScheduledTaskStore

def owned (st : InMemoryScheduledTaskStore Q) (workerId id : String) : Bool :=
  (st.map.get? id).any (·.owns workerId)

theorem owned_iff {st : InMemoryScheduledTaskStore Q} {workerId id : String} :
    st.owned workerId id ↔ ∃ t, st.map.get? id = some t ∧ t.owns workerId := by
  unfold owned
  rw [Option.any_eq_true]

/-- An operation on the task `id`: the store stays as it is, or the record of a task with `p` is
rewritten. A task that comes to its end goes on the list, and one that is pending gets an entry. -/
inductive Rewrites (st : InMemoryScheduledTaskStore Q) (id : String) (p : TaskRecord Q → Bool)
    (f : TaskRecord Q → TaskRecord Q) (hf : ∀ t, (f t).key = t.key) :
    InMemoryScheduledTaskStore Q → Prop
  | refused : ¬ (st.map.get? id).any p → Rewrites st id p f hf st
  | ended {t : TaskRecord Q} : st.map.get? id = some t → p t → (f t).terminal →
      Rewrites st id p f hf ({ st with map := st.map.update id f hf }.markTerminal id)
  | again {t : TaskRecord Q} : st.map.get? id = some t → p t → (f t).status = .pending →
      Rewrites st id p f hf ({ st with map := st.map.update id f hf }.markClaimable (f t))
  | kept {t : TaskRecord Q} : st.map.get? id = some t → p t → (f t).entry = t.entry →
      (f t).status = t.status → Rewrites st id p f hf { st with map := st.map.update id f hf }

section Rewrites

variable {st st' : InMemoryScheduledTaskStore Q} {workerId id : String} {now : Int}
  {p : TaskRecord Q → Bool} {f : TaskRecord Q → TaskRecord Q} {hf : ∀ t, (f t).key = t.key}

theorem Rewrites.map_cases (h : st.Rewrites id p f hf st') : ¬ (st.map.get? id).any p ∧ st' = st ∨
    ∃ t, st.map.get? id = some t ∧ p t ∧ st'.map = st.map.update id f hf := by
  cases h with
  | refused hno => exact .inl ⟨hno, rfl⟩
  | ended hget hp _ | again hget hp _ | kept hget hp _ _ => exact .inr ⟨_, hget, hp, rfl⟩

theorem Rewrites.refuses (h : st.Rewrites id p f hf st') (hno : ¬ (st.map.get? id).any p) :
    st' = st := by
  rcases h.map_cases with ⟨-, hsame⟩ | ⟨t, hget, hp, -⟩
  · exact hsame
  · exact absurd ((Option.any_eq_true _ _).mpr ⟨t, hget, hp⟩) hno

theorem rewrites_guarded {g : TaskRecord Q → InMemoryScheduledTaskStore Q}
    (hg : ∀ t, st.map.get? id = some t → p t → st.Rewrites id p f hf (g t)) :
    st.Rewrites id p f hf (match st.map.get? id with
      | none => st
      | some t => if p t then g t else st) := by
  split
  next hget => exact .refused (by simp [hget])
  next t hget =>
    split
    next hp => exact hg t hget hp
    next hp => exact .refused (by simpa [hget] using hp)

theorem rewrites_markCompleted : st.Rewrites id (·.owns workerId) (TaskRecord.complete now)
    (TaskRecord.key_complete now) (st.markCompleted now id workerId) :=
  rewrites_guarded fun _ hget ho => .ended hget ho rfl

theorem rewrites_markFailed {error : String} : st.Rewrites id (·.owns workerId)
    (TaskRecord.fail now error) (TaskRecord.key_fail now error)
    (st.markFailed now id error workerId) := by
  refine rewrites_guarded fun t hget ho => ?_
  dsimp only
  split
  next hfailed => exact .ended hget ho (by simp [TaskRecord.terminal, hfailed])
  next hfailed => exact .again hget ho ((t.status_fail now error).resolve_left hfailed)

theorem rewrites_reschedule {nextRunAt : OrNaN Int} {error : Option String} :
    st.Rewrites id (·.owns workerId) (TaskRecord.reschedule nextRunAt error)
      (TaskRecord.key_reschedule nextRunAt error) (st.reschedule id nextRunAt workerId error) :=
  rewrites_guarded fun _ hget ho => .again hget ho rfl

theorem rewrites_extendOne : st.Rewrites id (·.owns workerId) (TaskRecord.extend now)
    (TaskRecord.key_extend now) (extendOne now workerId st id) :=
  rewrites_guarded fun _ hget ho => .kept hget ho rfl rfl

theorem rewrites_cancel : st.Rewrites id (fun _ => true) (TaskRecord.cancel now)
    (TaskRecord.key_cancel now) (st.cancel now id) := by
  unfold cancel
  split
  next hget => exact .refused (by simp [hget])
  next hget => exact .ended hget rfl rfl

end Rewrites

def next (st : InMemoryScheduledTaskStore Q) : StoreAction Q → InMemoryScheduledTaskStore Q
  | .enqueue now task => st.enqueue now task
  | .claimDue workerId now limit claimTtlMs => (st.claimDue workerId now limit claimTtlMs).2
  | .markCompleted now id workerId => st.markCompleted now id workerId
  | .markFailed now id error workerId => st.markFailed now id error workerId
  | .reschedule id nextRunAt workerId error => st.reschedule id nextRunAt workerId error
  | .extendLease now ids workerId => st.extendLease now ids workerId
  | .cancel now id => st.cancel now id
  | .list now status limit => (st.list now status limit).2

def finalisedBy (st : InMemoryScheduledTaskStore Q) (id workerId : String) : List TaskEvent :=
  if st.owned workerId id then [.finalised id workerId] else []

def events (st : InMemoryScheduledTaskStore Q) : StoreAction Q → List TaskEvent
  | .enqueue now task =>
    match (st.pruneTerminal now).map.get? task.id with
    | none => [.created task.id]
    | some existing => if redefines task existing then [.redefined task.id] else []
  | .claimDue workerId now limit claimTtlMs =>
    (st.claimDue workerId now limit claimTtlMs).1.map (.claimed ·.id workerId now claimTtlMs)
  | .markCompleted _ id workerId => st.finalisedBy id workerId
  | .markFailed _ id _ workerId => st.finalisedBy id workerId
  | .reschedule id _ workerId _ => st.finalisedBy id workerId
  | .extendLease now ids workerId =>
    (ids.filter (st.owned workerId)).map (.extended · workerId now)
  | .cancel _ id => if (st.map.get? id).isSome then [.cancelled id] else []
  | .list _ _ _ => []

end InMemoryScheduledTaskStore

structure StoreState (Q : Type) where
  store : InMemoryScheduledTaskStore Q
  log : List TaskEvent := []

def taskMachine (terminalRetentionMs maxTerminalTasks : Option Int) :
    Machine (StoreState Q) (StoreAction Q) where
  init := { store := .create terminalRetentionMs maxTerminalTasks }
  step s a := some { store := s.store.next a, log := s.log ++ s.store.events a }

end NevoMessaging
