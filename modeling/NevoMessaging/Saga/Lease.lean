import NevoMessaging.Lib.Lease
import NevoMessaging.Lib.Machine
import NevoMessaging.Saga.Store

/-!
# The recovery lease of a saga

Both stores compare the age of a claim with the lease that the challenger asks for, not with the
one that the holder was given. Workers that ask for leases of different lengths can so take a saga
from a holder whose lease is still running.

Results:
1. `LeasingStore.Records`: what the two stores have in common.
2. `recovery_lease_exclusive`: when the holder of a lease is the only one.
3. `recovery_lease_taken`: a short lease takes the saga from a holder with a long one.
-/

open Lease

namespace NevoMessaging

variable {C : Type}

/-- What the lease depends on in a store. -/
structure LeasingStore (C S : Type) where
  empty : S
  save : SagaSnapshot C → S → S
  claim : (now : Int) → (sagaId workerId : String) → (leaseMs : Int) → S → Bool × S

def InMemorySagaStore.leasing : LeasingStore C (InMemorySagaStore C) where
  empty := {}
  save := save
  claim := claim

def PgSagaStore.leasing : LeasingStore C PgSagaStore where
  empty := {}
  save := save
  claim := claim

/-- `claim` is called at the time `now` of the one clock. -/
inductive LeaseAction (C : Type)
  | save (snapshot : SagaSnapshot C)
  | claim (now : Int) (sagaId workerId : String) (leaseMs : Int)

structure LeaseState (S : Type) where
  store : S
  clock : Int
  log : List (Attempt String String) := []

/-- The claim was answered with `granted`. -/
def LeaseState.claimed {S : Type} (s : LeaseState S) (now : Int) (sagaId workerId : String)
    (leaseMs : Int) : Bool × S → LeaseState S
  | (granted, store) =>
    { store
      clock := now
      log := s.log ++
        [{ key := sagaId, worker := workerId, term := leaseMs, time := now, granted }] }

namespace LeasingStore

variable {S : Type}

/-- Any workers call the store, in any order, while the clock goes on. -/
def machine (st : LeasingStore C S) (start : Int) : Machine (LeaseState S) (LeaseAction C) where
  init := { store := st.empty, clock := start }
  step s
    | .save snapshot => some { s with store := st.save snapshot s.store }
    | .claim now sagaId workerId leaseMs =>
      if s.clock ≤ now then
        some (s.claimed now sagaId workerId leaseMs (st.claim now sagaId workerId leaseMs s.store))
      else none

/-- Who asks for a saga that another worker holds, while its lease is running, asks for a lease
that is at least as long. -/
def Respectful (s : LeaseState S) : LeaseAction C → Prop
  | .save _ => True
  | .claim now sagaId workerId leaseMs =>
    ∀ e ∈ holder sagaId s.log, e.worker ≠ workerId → now < e.time + e.term → e.term ≤ leaseMs

instance (s : LeaseState S) (a : LeaseAction C) : Decidable (Respectful s a) := by
  cases a <;> unfold Respectful <;> infer_instance

/-- The store keeps the last worker that it granted a saga to, and the time of the grant. It
takes the saga from this worker only if the grant is as old as the lease that is asked for. -/
structure Records (st : LeasingStore C S) (record : S → String → Option SagaClaim) : Prop where
  empty : ∀ id, record st.empty id = none
  save : ∀ x s id, record (st.save x s) id = record s id
  claim : ∀ now id w leaseMs s, st.claim now id w leaseMs s = (false, s) ∨
    ∃ s', st.claim now id w leaseMs s = (true, s') ∧
      record s' = Function.update (record s) id (some ⟨w, now⟩) ∧
      ∀ c ∈ record s id, c.worker ≠ w → c.time + leaseMs ≤ now

end LeasingStore

/-! ## The two stores -/

namespace InMemorySagaStore

theorem claim_cases (now : Int) (id w : String) (leaseMs : Int) (s : InMemorySagaStore C) :
    claim now id w leaseMs s = (false, s) ∨
      (claim now id w leaseMs s =
        (true, { s with claims := Function.update s.claims id (some ⟨w, now⟩) }) ∧
        ∀ c ∈ s.claims id, c.worker ≠ w → c.time + leaseMs ≤ now) := by
  unfold claim
  cases hc : s.claims id with
  | none => exact .inr ⟨rfl, fun c hc => by cases hc⟩
  | some existing =>
    by_cases hrefused : existing.worker ≠ w ∧ now - existing.time < leaseMs
    · exact .inl (if_pos hrefused)
    · refine .inr ⟨if_neg hrefused, fun c hc hne => ?_⟩
      cases hc
      have hold := not_lt.mp fun hlt => hrefused ⟨hne, hlt⟩
      omega

theorem records : (leasing (C := C)).Records claims where
  empty _ := rfl
  save _ _ _ := rfl
  claim now id w leaseMs s := (claim_cases now id w leaseMs s).imp_right
    fun ⟨hclaim, hwaits⟩ => ⟨_, hclaim, rfl, hwaits⟩

end InMemorySagaStore

namespace PgSagaStore

/-- Both columns of a claim are written together. -/
def claimOf (row : PgSagaRow) : Option SagaClaim :=
  row.claimedAt.bind fun time => row.claimedBy.map fun worker => { worker, time }

def record (s : PgSagaStore) (id : String) : Option SagaClaim := (s.rows.get? id).bind claimOf

theorem record_save (x : SagaSnapshot C) (s : PgSagaStore) (id : String) :
    (s.save x).record id = s.record id := by
  unfold save record
  cases hrow : s.rows.get? x.sagaId with
  | none =>
    by_cases hid : id = x.sagaId
    · subst hid
      rw [hrow]
      exact congrArg (·.bind claimOf) (s.rows.get?_set_self _)
    · exact congrArg (·.bind claimOf) (s.rows.get?_set_ne (r := ⟨x.sagaId, x.status, none, none⟩)
        hid)
  | some row =>
    by_cases hid : id = x.sagaId
    · subst hid
      dsimp only
      rw [Table.get?_update_self, hrow]
      rfl
    · dsimp only
      rw [Table.get?_update_ne hid]

theorem record_stamp {s : PgSagaStore} {row : PgSagaRow} {id : String} (now : Int) (w : String)
    (h : s.rows.get? id = some row) :
    record ⟨s.rows.update id (stamp now w) (sagaId_stamp now w)⟩ =
      Function.update s.record id (some ⟨w, now⟩) := by
  funext j
  by_cases hj : j = id
  · subst hj
    rw [Function.update_self, record, Table.get?_update_self, h]
    rfl
  · rw [Function.update_of_ne hj, record, Table.get?_update_ne hj, record]

theorem claimable_waits {now : Int} {w : String} {leaseMs : Int} {row : PgSagaRow} {c : SagaClaim}
    (h : claimable now w leaseMs row) (hc : claimOf row = some c) (hne : c.worker ≠ w) :
    c.time + leaseMs ≤ now := by
  obtain ⟨time, hat, hmap⟩ := Option.bind_eq_some_iff.mp hc
  obtain ⟨worker, hby, rfl⟩ := Option.map_eq_some_iff.mp hmap
  have hother : row.claimedBy ≠ some w := fun heq => hne (Option.some_inj.mp (hby.symm.trans heq))
  simp only [claimable, hat, hother, Option.isNone_some, Option.any_some, decide_false,
    Bool.false_or, Bool.and_eq_true, decide_eq_true_eq] at h
  show time + leaseMs ≤ now
  omega

theorem records : (leasing (C := C)).Records record where
  empty _ := rfl
  save x s id := record_save x s id
  claim now id w leaseMs s := by
    show claim now id w leaseMs s = (false, s) ∨ ∃ s', claim now id w leaseMs s = (true, s') ∧ _
    unfold claim
    cases hrow : s.rows.get? id with
    | none => exact .inl rfl
    | some row =>
      by_cases h : claimable now w leaseMs row
      · refine .inr ⟨_, if_pos h, record_stamp now w hrow, fun c hc hne => ?_⟩
        rw [record, hrow] at hc
        exact claimable_waits h hc hne
      · exact .inl (if_neg h)

end PgSagaStore

/-! ## Runs -/

namespace LeasingStore

variable {S : Type} {st : LeasingStore C S} {record : S → String → Option SagaClaim}
  {start : Int} {s s' : LeaseState S} {a : LeaseAction C}

/-- The record of the store is the holder of the log, and the log is in order and waits. -/
structure Kept (record : S → String → Option SagaClaim) (s : LeaseState S) : Prop where
  holder : ∀ id, record s.store id = (holder id s.log).map fun e => ⟨e.worker, e.time⟩
  times : s.log.Pairwise (·.time ≤ ·.time)
  clock : ∀ e ∈ s.log, e.time ≤ s.clock
  waits : Trace.Lawful Waits s.log

theorem Kept.attempt (h : Kept record s) {e : Attempt String String} {store : S}
    (hclock : s.clock ≤ e.time) (hwaits : Waits s.log e)
    (hholder : ∀ id, record store id =
      (Lease.holder id (s.log ++ [e])).map fun e => ⟨e.worker, e.time⟩) :
    Kept record { store := store, clock := e.time, log := s.log ++ [e] } where
  holder := hholder
  times := List.pairwise_append.mpr ⟨h.times, List.pairwise_singleton _ e, by
    intro x hx y hy
    rw [List.mem_singleton.mp hy]
    exact (h.clock x hx).trans hclock⟩
  clock x hx := by
    rcases List.mem_append.mp hx with hx | hx
    · exact (h.clock x hx).trans hclock
    · rw [List.mem_singleton.mp hx]
  waits := h.waits.snoc hwaits

theorem kept_step (hst : st.Records record) (h : Kept record s) (ha : Respectful s a)
    (hs : (st.machine start).step s a = some s') : Kept record s' := by
  cases a with
  | save x =>
    cases hs
    exact { h with holder := fun id => (hst.save x s.store id).trans (h.holder id) }
  | claim now id w leaseMs =>
    change (if s.clock ≤ now then _ else none) = some s' at hs
    split at hs
    next hclock =>
      rcases hst.claim now id w leaseMs s.store with hclaim | ⟨store, hclaim, hrecord, hwaits⟩
      · rw [hclaim] at hs
        cases hs
        refine h.attempt (e := ⟨id, w, leaseMs, now, false⟩) hclock (fun hgranted => ?_) fun j => ?_
        · cases hgranted
        · rw [holder_concat, if_neg (by simp)]
          exact h.holder j
      · rw [hclaim] at hs
        cases hs
        refine h.attempt (e := ⟨id, w, leaseMs, now, true⟩) hclock ?_ fun j => ?_
        · -- the age of the grant is at least the lease asked for, and so at least its own
          intro _ e he hne
          have hage := hwaits ⟨e.worker, e.time⟩ (by rw [h.holder, he]; rfl) hne
          by_contra hrunning
          have hlong := ha e he hne (not_le.mp hrunning)
          exact hrunning ((add_le_add_right hlong e.time).trans hage)
        · rw [hrecord, holder_concat]
          by_cases hj : j = id
          · subst hj
            rw [Function.update_self, if_pos ⟨rfl, rfl⟩]
            rfl
          · rw [Function.update_of_ne hj, if_neg fun heq => hj heq.2.symm]
            exact h.holder j
    · cases hs

theorem kept_reach (hst : st.Records record) (h : (st.machine start).Reach Respectful s) :
    Kept record s :=
  h.invariant
    { holder := hst.empty
      times := List.Pairwise.nil
      clock := fun _ he => absurd he List.not_mem_nil
      waits := Trace.lawful_nil }
    fun _ hk ha hs => kept_step hst hk ha hs

theorem exclusive_reach (hst : st.Records record) (h : (st.machine start).Reach Respectful s) :
    Trace.Lawful Exclusive s.log :=
  exclusive_of_waits (kept_reach hst h).waits (kept_reach hst h).times

end LeasingStore

/-- In both stores, whatever is called in whatever order: if nobody asks for a shorter lease than
the holder of a running one has, nobody else is granted the saga within the lease of the holder. -/
theorem recovery_lease_exclusive (start : Int) :
    (∀ s, ((InMemorySagaStore.leasing (C := C)).machine start).Reach LeasingStore.Respectful s →
      Trace.Lawful Exclusive s.log) ∧
    ∀ s, ((PgSagaStore.leasing (C := C)).machine start).Reach LeasingStore.Respectful s →
      Trace.Lawful Exclusive s.log :=
  ⟨fun _ h => LeasingStore.exclusive_reach InMemorySagaStore.records h,
    fun _ h => LeasingStore.exclusive_reach PgSagaStore.records h⟩

/-- A saga that is running. -/
def shipping : SagaSnapshot Unit where
  sagaId := "order:1"
  type := none
  steps := ["ship"]
  executed := []
  compensated := none
  ctx := ()
  status := .pending
  error := none
  updatedAt := 0

/-- The recovery asks for the saga after `elapsed`, for a lease of `leaseMs`. -/
def challenged (elapsed leaseMs : Int) : List (LeaseAction Unit) :=
  [.save shipping, .claim 0 "order:1" "live" 60000, .claim elapsed "order:1" "recovery" leaseMs]

theorem recovery_lease_handed_over :
    (∃ s, ((InMemorySagaStore.leasing (C := Unit)).machine 0).Reach LeasingStore.Respectful s ∧
      s.log.map (·.granted) = [true, false, true] ∧ Trace.Lawful Exclusive s.log) ∧
    ∃ s, ((PgSagaStore.leasing (C := Unit)).machine 0).Reach LeasingStore.Respectful s ∧
      s.log.map (·.granted) = [true, false, true] ∧ Trace.Lawful Exclusive s.log := by
  let run := challenged 2000 60000 ++ [.claim 60001 "order:1" "recovery" 60000]
  obtain ⟨s, hs, hgranted⟩ := Machine.Reach.observe
    ((InMemorySagaStore.leasing (C := Unit)).machine 0)
    LeasingStore.Respectful run (fun s => s.log.map (·.granted)) [true, false, true]
    (by decide +kernel)
  obtain ⟨s', hs', hgranted'⟩ := Machine.Reach.observe ((PgSagaStore.leasing (C := Unit)).machine 0)
    LeasingStore.Respectful run (fun s => s.log.map (·.granted)) [true, false, true]
    (by decide +kernel)
  exact ⟨⟨s, hs, hgranted, (recovery_lease_exclusive 0).1 s hs⟩,
    ⟨s', hs', hgranted', (recovery_lease_exclusive 0).2 s' hs'⟩⟩

/-! ## A short lease against a long one -/

/-- The log of a saga that is taken two seconds into a lease of a minute. -/
def taken : List (Attempt String String) :=
  [⟨"order:1", "live", 60000, 0, true⟩, ⟨"order:1", "recovery", 1000, 2000, true⟩]

theorem not_exclusive_taken : ¬ Trace.Lawful Exclusive taken := by
  intro h
  have hexclusive := h [⟨"order:1", "live", 60000, 0, true⟩] _ [] rfl rfl [] _ [] rfl rfl rfl
    (by decide) (fun x hx => absurd hx List.not_mem_nil)
  exact hexclusive (by decide)

/-- In both stores the recovery gets the saga of a live worker that holds it for a minute, two
seconds later, because it asks for a lease of one second only. -/
theorem recovery_lease_taken :
    (∃ s, ((InMemorySagaStore.leasing (C := Unit)).machine 0).Reach Machine.free s ∧ s.log = taken ∧
      ¬ Trace.Lawful Exclusive s.log) ∧
    ∃ s, ((PgSagaStore.leasing (C := Unit)).machine 0).Reach Machine.free s ∧ s.log = taken ∧
      ¬ Trace.Lawful Exclusive s.log := by
  obtain ⟨s, hs, hlog⟩ := Machine.Reach.observe ((InMemorySagaStore.leasing (C := Unit)).machine 0)
    Machine.free (challenged 2000 1000) LeaseState.log taken (by decide +kernel)
  obtain ⟨s', hs', hlog'⟩ := Machine.Reach.observe ((PgSagaStore.leasing (C := Unit)).machine 0)
    Machine.free (challenged 2000 1000) LeaseState.log taken (by decide +kernel)
  exact ⟨⟨s, hs, hlog, hlog ▸ not_exclusive_taken⟩, ⟨s', hs', hlog', hlog' ▸ not_exclusive_taken⟩⟩

end NevoMessaging
