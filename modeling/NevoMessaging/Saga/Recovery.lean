import NevoMessaging.Lib.Rank
import NevoMessaging.Saga.Forward
import NevoMessaging.Saga.Lease

/-!
# The recovery worker

`recoverOnce` takes a page of the oldest unfinished sagas and then looks for those that are stale,
whose steps are registered and that nobody else holds. Sagas that it cannot recover stay in the
store and stay old, so they can fill the page in every pass.

The sagas of the page are taken up one after the other. Until the first one is resumed nothing is
waited for, so the clock stands still and the store is only changed by the claims of the worker.
After that the resumed sagas go on beside the worker; what they do in the meantime is a parameter.

Results:
1. `recoverLoop_first`: the first saga of the page that can be recovered is resumed.
2. `recovery_not_starved_iff`: a recoverable saga is resumed if and only if the page reaches one.
-/

open Lease

namespace NevoMessaging

open List

variable {C : Type}

structure SagaStepRegistry (C : Type) where
  steps : String → Option (SagaStep C) := fun _ => none

namespace SagaStepRegistry

def key (type name : String) : String := type ++ "\x00" ++ name

def register (r : SagaStepRegistry C) (type : String) (step : SagaStep C) : SagaStepRegistry C where
  steps := Function.update r.steps (key type step.name) (some step)

def registerAll (r : SagaStepRegistry C) (type : String) (steps : List (SagaStep C)) :
    SagaStepRegistry C :=
  steps.foldl (·.register type ·) r

def get (r : SagaStepRegistry C) (type name : String) : Option (SagaStep C) :=
  r.steps (key type name)

/-- The definitions of the names in their order, or `none` if one of them is unknown. -/
def resolve (r : SagaStepRegistry C) (type : String) (names : List String) :
    Option (List (SagaStep C)) :=
  names.mapM (r.get type)

end SagaStepRegistry

structure SagaRecoveryOptions where
  intervalMs : Option Int := none
  staleAfterMs : Option Int := none
  batchSize : Option Int := none

structure SagaRecovery (C : Type) where
  registry : SagaStepRegistry C
  staleAfterMs : Int
  batchSize : Int
  workerId : String
  stopped : Bool := false
  running : Bool := false

/-- A call of `Saga.resume`. -/
structure ResumeCall (C : Type) where
  sagaId : String
  type : String
  steps : List (SagaStep C)

/-- What the sagas that were resumed before have done when the next one is taken up. -/
inductive Progress (C : Type)
  | saved (snapshot : SagaSnapshot C)
  | deleted (sagaId : String)
  | renewed (sagaId : String) (leaseMs : Int)

/-- The time that has passed since the pass has begun, what has happened in it, and whether every
lane of `mapLimit` has been stopped by an error. -/
structure Meanwhile (C : Type) where
  elapsed : Nat := 0
  progress : List (Progress C) := []
  ended : Bool := false

/-- What a pass depends on: `Date.now()` at its begin, what has happened when the saga at a
position is taken up, and whether a call of `Saga.resume` resolves. -/
structure Surroundings (C : Type) where
  now : Int
  meanwhile : Nat → Meanwhile C
  resolves : ResumeCall C → Bool

/-- Before the first call of `Saga.resume` nothing is waited for. -/
def Surroundings.before (env : Surroundings C) (calls : List (ResumeCall C)) (position : Nat) :
    Meanwhile C :=
  if calls.isEmpty then {} else env.meanwhile position

structure SagaRecoveryResult where
  recovered : Nat := 0
  skipped : Nat := 0
  failed : Nat := 0
deriving DecidableEq

def InMemorySagaStore.progress (workerId : String) (now : Int) (st : InMemorySagaStore C) :
    Progress C → InMemorySagaStore C
  | .saved snapshot => st.save snapshot
  | .deleted sagaId => st.delete sagaId
  | .renewed sagaId leaseMs => (st.claim now sagaId workerId leaseMs).2

namespace SagaRecovery

def create (registry : SagaStepRegistry C) (workerId : String) (opts : SagaRecoveryOptions) :
    SagaRecovery C :=
  let intervalMs := opts.intervalMs.getD 30000
  { registry
    workerId
    staleAfterMs := opts.staleAfterMs.getD (intervalMs * 2)
    batchSize := max 1 (opts.batchSize.getD 200) }

/-- The part of `recoverSaga` up to the call of `Saga.resume`; `none` if the saga is skipped. -/
def recoverSaga (r : SagaRecovery C) (now : Int) (snapshot : SagaSnapshot C)
    (st : InMemorySagaStore C) : Option (ResumeCall C) × InMemorySagaStore C :=
  let type := snapshot.type.getD defaultSagaType
  match r.registry.resolve type snapshot.steps with
  | none => (none, st)
  | some steps =>
    match st.claim now snapshot.sagaId r.workerId r.staleAfterMs with
    | (false, st) => (none, st)
    | (true, st) => (some { sagaId := snapshot.sagaId, type, steps }, st)

/-- The sagas of the page that are left, the first of which is at `position`. -/
def recoverLoop (r : SagaRecovery C) (env : Surroundings C) : List (SagaSnapshot C) →
    (position : Nat) → (calls : List (ResumeCall C)) → (skipped : Nat) → InMemorySagaStore C →
    List (ResumeCall C) × Nat
  | [], _, calls, skipped, _ => (calls, skipped)
  | snapshot :: due, position, calls, skipped, st =>
    let m := env.before calls position
    if m.ended then (calls, skipped)
    else
      let now := env.now + m.elapsed
      match r.recoverSaga now snapshot (m.progress.foldl (·.progress r.workerId now ·) st) with
      | (none, st) => r.recoverLoop env due (position + 1) calls (skipped + 1) st
      | (some call, st) => r.recoverLoop env due (position + 1) (calls ++ [call]) skipped st

def due (r : SagaRecovery C) (now : Int) (st : InMemorySagaStore C) : List (SagaSnapshot C) :=
  (st.listPending r.batchSize).filter (·.updatedAt ≤ now - r.staleAfterMs)

/-- The calls of `Saga.resume`, and the result of the pass. -/
def recoverOnce (r : SagaRecovery C) (env : Surroundings C) (st : InMemorySagaStore C) :
    List (ResumeCall C) × SagaRecoveryResult :=
  if r.stopped || r.running then ([], {})
  else
    let (calls, skipped) := r.recoverLoop env (r.due env.now st) 0 [] 0 st
    (calls, {
      recovered := calls.countP env.resolves
      failed := calls.countP (!env.resolves ·)
      skipped })

/-! ## Recoverable sagas -/

/-- Another worker has a claim on the saga that is younger than the lease. -/
def HeldByOther (r : SagaRecovery C) (now : Int) (st : InMemorySagaStore C) (sagaId : String) :
    Prop :=
  ∃ c ∈ st.claims sagaId, c.worker ≠ r.workerId ∧ now - c.time < r.staleAfterMs

/-- A saga that the worker could take up: unfinished, stale, with registered steps, and not
claimed by another worker. -/
structure Recoverable (r : SagaRecovery C) (now : Int) (st : InMemorySagaStore C)
    (x : SagaSnapshot C) : Prop where
  stored : x ∈ st.data.rows
  unfinished : x.unfinished
  stale : x.updatedAt ≤ now - r.staleAfterMs
  registered : (r.registry.resolve (x.type.getD defaultSagaType) x.steps).isSome
  free : ¬ r.HeldByOther now st x.sagaId

section Lemmas

variable {r : SagaRecovery C} {env : Surroundings C} {now : Int} {st : InMemorySagaStore C}
  {x : SagaSnapshot C}

theorem claim_of_held (h : r.HeldByOther now st x.sagaId) :
    st.claim now x.sagaId r.workerId r.staleAfterMs = (false, st) := by
  obtain ⟨c, hc, hne, hage⟩ := h
  unfold InMemorySagaStore.claim
  rw [Option.mem_def.mp hc]
  exact if_pos ⟨hne, hage⟩

theorem claim_of_free (h : ¬ r.HeldByOther now st x.sagaId) :
    (st.claim now x.sagaId r.workerId r.staleAfterMs).1 = true := by
  unfold InMemorySagaStore.claim
  cases hc : st.claims x.sagaId with
  | none => rfl
  | some c =>
    have hnot : ¬ (c.worker ≠ r.workerId ∧ now - c.time < r.staleAfterMs) := fun hheld =>
      h ⟨c, hc, hheld⟩
    dsimp only
    rw [if_neg hnot]

theorem recoverSaga_cases (r : SagaRecovery C) (now : Int) (x : SagaSnapshot C)
    (st : InMemorySagaStore C) :
    (r.recoverSaga now x st = (none, st) ∧
      ¬ ((r.registry.resolve (x.type.getD defaultSagaType) x.steps).isSome ∧
        ¬ r.HeldByOther now st x.sagaId)) ∨
    ∃ call st', r.recoverSaga now x st = (some call, st') ∧ call.sagaId = x.sagaId ∧
      (r.registry.resolve (x.type.getD defaultSagaType) x.steps).isSome ∧
        ¬ r.HeldByOther now st x.sagaId := by
  unfold recoverSaga
  cases hsteps : r.registry.resolve (x.type.getD defaultSagaType) x.steps with
  | none =>
    exact .inl ⟨by simp only [hsteps], fun h => by cases h.1⟩
  | some steps =>
    simp only [hsteps]
    by_cases hheld : r.HeldByOther now st x.sagaId
    · rw [claim_of_held hheld]
      exact .inl ⟨rfl, fun h => h.2 hheld⟩
    · have hclaim := claim_of_free hheld
      cases hc : st.claim now x.sagaId r.workerId r.staleAfterMs with
      | mk granted st' =>
        rw [hc] at hclaim
        cases hclaim
        exact .inr ⟨⟨x.sagaId, _, steps⟩, st', rfl, rfl, rfl, hheld⟩

theorem recoverLoop_calls {due : List (SagaSnapshot C)} {position skipped : Nat}
    {calls : List (ResumeCall C)} {call : ResumeCall C}
    (h : call ∈ (r.recoverLoop env due position calls skipped st).1) :
    call ∈ calls ∨ ∃ x ∈ due, call.sagaId = x.sagaId := by
  induction due generalizing position calls skipped st with
  | nil => exact .inl h
  | cons x due ih =>
    have hcons : (∃ y ∈ due, call.sagaId = y.sagaId) → ∃ y ∈ x :: due, call.sagaId = y.sagaId :=
      fun ⟨y, hy, heq⟩ => ⟨y, mem_cons_of_mem x hy, heq⟩
    rw [recoverLoop] at h
    dsimp only at h
    split at h
    · exact .inl h
    · split at h
      · exact (ih h).imp_right hcons
      next call' st' hrecover =>
        rcases ih h with hmem | hlater
        · rcases mem_append.mp hmem with hmem | hmem
          · exact .inl hmem
          · rcases recoverSaga_cases r _ x _ with ⟨hskip, -⟩ | ⟨call'', st'', hcall, hid, -⟩
            · cases hskip.symm.trans hrecover
            · cases hcall.symm.trans hrecover
              rw [mem_singleton.mp hmem]
              exact .inr ⟨x, mem_cons_self, hid⟩
        · exact .inr (hcons hlater)

theorem recoverLoop_keeps {due : List (SagaSnapshot C)} {position skipped : Nat}
    {calls : List (ResumeCall C)} {call : ResumeCall C} (h : call ∈ calls) :
    call ∈ (r.recoverLoop env due position calls skipped st).1 := by
  induction due generalizing position calls skipped st with
  | nil => exact h
  | cons x due ih =>
    rw [recoverLoop]
    dsimp only
    split
    · exact h
    · split
      · exact ih h
      · exact ih (mem_append_left _ h)

/-- The first saga of the page that can be recovered is resumed. -/
theorem recoverLoop_first {due : List (SagaSnapshot C)} (position skipped : Nat)
    (h : ∃ x ∈ due, (r.registry.resolve (x.type.getD defaultSagaType) x.steps).isSome ∧
      ¬ r.HeldByOther env.now st x.sagaId) :
    ∃ x ∈ due, (r.registry.resolve (x.type.getD defaultSagaType) x.steps).isSome ∧
      ¬ r.HeldByOther env.now st x.sagaId ∧
      ∃ call ∈ (r.recoverLoop env due position [] skipped st).1, call.sagaId = x.sagaId := by
  induction due generalizing position skipped with
  | nil =>
    obtain ⟨x, hx, -⟩ := h
    cases hx
  | cons y due ih =>
    have hloop : r.recoverLoop env (y :: due) position [] skipped st =
        match r.recoverSaga env.now y st with
        | (none, st) => r.recoverLoop env due (position + 1) [] (skipped + 1) st
        | (some call, st) => r.recoverLoop env due (position + 1) [call] skipped st := by
      rw [recoverLoop]
      simp [Surroundings.before]
    rw [hloop]
    rcases recoverSaga_cases r env.now y st with ⟨hskip, hnot⟩
      | ⟨call, st', hcall, hid, hsteps, hfree⟩
    · rw [hskip]
      have hlater : ∃ x ∈ due, (r.registry.resolve (x.type.getD defaultSagaType) x.steps).isSome ∧
          ¬ r.HeldByOther env.now st x.sagaId := by
        obtain ⟨x, hx, hcan⟩ := h
        rcases mem_cons.mp hx with rfl | hx
        · exact absurd hcan hnot
        · exact ⟨x, hx, hcan⟩
      obtain ⟨x, hx, hsteps, hfree, hcall⟩ := ih (position + 1) (skipped + 1) hlater
      exact ⟨x, mem_cons_of_mem y hx, hsteps, hfree, hcall⟩
    · rw [hcall]
      exact ⟨y, mem_cons_self, hsteps, hfree, call,
        recoverLoop_keeps mem_cons_self, hid⟩

theorem mem_due : x ∈ r.due now st ↔
    x ∈ st.listPending r.batchSize ∧ x.updatedAt ≤ now - r.staleAfterMs := by
  rw [due, mem_filter, decide_eq_true_eq]

end Lemmas

/-- The page reaches a recoverable saga: fewer unfinished sagas than the page holds are older than
it, or as old and stored before it. -/
def Reaches (r : SagaRecovery C) (now : Int) (st : InMemorySagaStore C) : Prop :=
  ∃ pre x post, st.data.rows.filter SagaSnapshot.unfinished = pre ++ x :: post ∧
    r.Recoverable now st x ∧ Rank.ahead SagaSnapshot.updatedAt pre x
      post < (max 1 r.batchSize).toNat

theorem mem_listPending {st : InMemorySagaStore C} {pre post : List (SagaSnapshot C)}
    {x : SagaSnapshot C} {limit : Int}
    (h : st.data.rows.filter SagaSnapshot.unfinished = pre ++ x :: post) :
    x ∈ st.listPending limit ↔
      Rank.ahead SagaSnapshot.updatedAt pre x post < (max 1 limit).toNat := by
  have hnd : (pre ++ x :: post).Nodup :=
    h ▸ (List.Nodup.of_map SagaSnapshot.sagaId st.data.nodup).filter _
  rw [InMemorySagaStore.listPending, InMemorySagaStore.unfinished, h]
  exact Rank.mem_take_insertionSort hnd

theorem listPending_subset {st : InMemorySagaStore C} {limit : Int} :
    st.listPending limit ⊆ st.data.rows.filter SagaSnapshot.unfinished := fun _ hx =>
  (mem_insertionSort _).mp (mem_of_mem_take hx)

/-- A pass that is not stopped and not under way resumes a recoverable saga if and only if its page
reaches one. -/
theorem recovery_not_starved_iff (r : SagaRecovery C) (env : Surroundings C)
    (st : InMemorySagaStore C) (hstopped : r.stopped = false) (hrunning : r.running = false) :
    (∃ x, r.Recoverable env.now st x ∧
      ∃ call ∈ (r.recoverOnce env st).1, call.sagaId = x.sagaId) ↔ r.Reaches env.now st := by
  have hcalls : (r.recoverOnce env st).1 =
      (r.recoverLoop env (r.due env.now st) 0 [] 0 st).1 := by
    unfold recoverOnce
    rw [hstopped, hrunning]
    rfl
  rw [hcalls]
  constructor
  · rintro ⟨x, hx, call, hcall, hid⟩
    rcases recoverLoop_calls hcall with hmem | ⟨y, hy, hid'⟩
    · cases hmem
    · obtain ⟨hpage, -⟩ := mem_due.mp hy
      have hrow := mem_filter.mp (listPending_subset hpage)
      obtain rfl := st.data.eq_of_key_eq hx.stored hrow.1 (hid.symm.trans hid')
      obtain ⟨pre, post, hsplit⟩ := append_of_mem (listPending_subset hpage)
      exact ⟨pre, x, post, hsplit, hx, (mem_listPending hsplit).mp hpage⟩
  · rintro ⟨pre, x, post, hsplit, hx, hahead⟩
    have hdue : x ∈ r.due env.now st := mem_due.mpr ⟨(mem_listPending hsplit).mpr hahead, hx.stale⟩
    obtain ⟨y, hy, hsteps, hfree, call, hcall, hid⟩ :=
      recoverLoop_first 0 0 ⟨x, hdue, hx.registered, hx.free⟩
    obtain ⟨hpage, hstale⟩ := mem_due.mp hy
    have hrow := mem_filter.mp (listPending_subset hpage)
    exact ⟨y, ⟨hrow.1, hrow.2, hstale, hsteps, hfree⟩, call, hcall, hid⟩

/-! ## A page of sagas that nobody can recover -/

/-- A saga of the type `type` that was stored last at `updatedAt`. -/
def stuck (sagaId type : String) (updatedAt : Int) : SagaSnapshot Unit :=
  { shipping with sagaId, type := some type, updatedAt }

/-- A saga of a type that is not registered any more, and a younger one of a type that is. -/
def backlog : InMemorySagaStore Unit :=
  InMemorySagaStore.save (stuck "order:1" "order" 1) (.save (stuck "trial:1" "trial" 0) {})

/-- The worker pulls `batchSize` sagas in each pass, and knows the steps of orders. -/
def recovery (batchSize : Int) : SagaRecovery Unit :=
  create (SagaStepRegistry.registerAll {} "order" [Saga.reliable "ship"]) "saga-recovery"
    { intervalMs := some 10, batchSize := some batchSize }

def quiet : Surroundings Unit where
  now := 100
  meanwhile _ := {}
  resolves _ := true

theorem recoverable_order (batchSize : Int) :
    (recovery batchSize).Recoverable quiet.now backlog (stuck "order:1" "order" 1) where
  stored := by
    show _ ∈ [stuck "trial:1" "trial" 0, stuck "order:1" "order" 1]
    exact mem_cons_of_mem _ mem_cons_self
  unfinished := rfl
  stale := by
    show (1 : Int) ≤ 100 - 20
    decide
  registered := rfl
  free := fun ⟨_, hc, _⟩ => by cases hc

theorem recovery_not_starved_second : ∃ x, (recovery 2).Recoverable quiet.now backlog x ∧
    ∃ call ∈ ((recovery 2).recoverOnce quiet backlog).1, call.sagaId = x.sagaId :=
  (recovery_not_starved_iff (recovery 2) quiet backlog rfl rfl).mpr
    ⟨[stuck "trial:1" "trial" 0], stuck "order:1" "order" 1, [], rfl, recoverable_order 2,
      by decide⟩

/-- A page of one saga never gets past the trial. -/
theorem recovery_starved :
    (recovery 1).Recoverable quiet.now backlog (stuck "order:1" "order" 1) ∧
      (recovery 1).stopped = false ∧ (recovery 1).running = false ∧
      ((recovery 1).recoverOnce quiet backlog).1 = [] ∧
      ((recovery 1).recoverOnce quiet backlog).2 = { skipped := 1 } :=
  ⟨recoverable_order 1, rfl, rfl, rfl, rfl⟩

end SagaRecovery

end NevoMessaging
