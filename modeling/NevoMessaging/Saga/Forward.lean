import NevoMessaging.Saga.Orchestrator
import Mathlib.Data.List.Induction
import Mathlib.Data.List.Nodup

/-!
# What the forward loop does

A step is skipped if its name is in `executed` already, and `executed` grows while the loop runs.
So a run executes the first step of each name.

Results:
1. `forwardLoop_success`: the steps that were executed by a loop that ends in success.
2. `success_complete_iff`: a successful run is complete if and only if the names are distinct.
-/

namespace NevoMessaging

open List

variable {C : Type}

theorem retryLoop_resolved (timeoutMs : Option Int) (fn : C → Nat → C × Call)
    (left attempt : Nat) (ctx : C) (err : Thrown) :
    (retryLoop timeoutMs fn left attempt ctx err).attempts.filter (· = .resolved) =
      if (retryLoop timeoutMs fn left attempt ctx err).outcome = .resolved
      then [.resolved] else [] := by
  have hnone (errs : List Thrown) : (errs.map Outcome.rejected).filter (· = .resolved) = [] := by
    simp
  rcases retryLoop_attempts timeoutMs fn left attempt ctx err with ⟨ho, errs, ha, -⟩
    | ⟨ho, errs, ha, -⟩
  · rw [if_pos ho, ha, filter_append, hnone]
    rfl
  · rw [if_neg ho, ha, hnone]

namespace Saga

variable {s : Saga C} {ctx : C} {executed : List String} {position : Nat}
  {step : SagaStep C} {rest : List (SagaStep C)}

/-! ## One turn of the loop -/

theorem forwardLoop_skip (h : step.name ∈ executed) :
    s.forwardLoop (step :: rest) position ctx executed =
      s.forwardLoop rest (position + 1) ctx executed := by
  rw [forwardLoop, if_pos h]

theorem forwardLoop_rejected (h : step.name ∉ executed) {err : Thrown}
    (hr : (step.run ctx).outcome = .rejected err) :
    s.forwardLoop (step :: rest) position ctx executed =
      .after (executeEvents position (step.run ctx).attempts)
        (s.fail (step.run ctx).ctx executed err) := by
  rw [forwardLoop, if_neg h]
  simp only [hr, Traced.perform_bind]

theorem forwardLoop_resolved (h : step.name ∉ executed)
    (hr : (step.run ctx).outcome = .resolved) :
    s.forwardLoop (step :: rest) position ctx executed =
      .after (executeEvents position (step.run ctx).attempts)
        ((s.persist (step.run ctx).ctx (executed ++ [step.name]) .pending).attempt
          (s.fail (step.run ctx).ctx (executed ++ [step.name]) ·)
          fun _ => s.forwardLoop rest (position + 1) (step.run ctx).ctx
            (executed ++ [step.name])) := by
  rw [forwardLoop, if_neg h]
  simp only [hr, Traced.perform_bind]

/-! ## Completed steps -/

/-- The positions of the steps whose `execute` has completed, in the order of completion. -/
def completions (trace : List (SagaEvent C)) : List Nat :=
  trace.filterMap fun
    | .execute position _ .resolved => some position
    | _ => none

@[simp] theorem completions_append (t t' : List (SagaEvent C)) :
    completions (t ++ t') = completions t ++ completions t' :=
  filterMap_append

theorem completions_executeEvents (position : Nat) (outcomes : List Outcome) :
    completions (executeEvents position outcomes : List (SagaEvent C)) =
      (outcomes.filter (· = .resolved)).map fun _ => position := by
  induction outcomes using reverseRecOn with
  | nil => rfl
  | append_singleton outcomes o ih =>
    rw [executeEvents, mapIdx_append, completions_append, filter_append, map_append]
    congr 1
    cases o <;> rfl

theorem completions_run (position : Nat) (step : SagaStep C) (ctx : C) :
    completions (executeEvents position (step.run ctx).attempts : List (SagaEvent C)) =
      if (step.run ctx).outcome = .resolved then [position] else [] := by
  rw [completions_executeEvents, SagaStep.run, runWithRetry, retryLoop_resolved]
  split <;> rfl

theorem completions_persist (status : SagaStatus) (error : Thrown) (compensated : List String) :
    completions (s.persist ctx executed status error compensated).trace = [] := by
  unfold persist
  split
  · rfl
  · split
    · rfl
    · split <;> rfl

theorem discard_trace {e : SagaEvent C} (h : e ∈ s.discard.trace) : e = .deleted s.sagaId := by
  unfold discard at h
  split at h
  · cases h
  · split at h
    · exact mem_singleton.mp h
    · cases h

theorem completions_succeed : completions (s.succeed ctx executed).trace = [] := by
  refine filterMap_eq_nil_iff.mpr fun e he => ?_
  rcases Traced.mem_trace_bind he with he | ⟨-, -, he⟩
  · exact filterMap_eq_nil_iff.mp (completions_persist _ _ _) e he
  · rcases Traced.mem_trace_bind he with he | ⟨-, -, he⟩
    · rw [discard_trace he]
    · cases he

theorem fail_status {err : Thrown} {done : List String} {r : SagaResult}
    (h : (s.fail ctx executed err done).result = .ok r) : r.status = .failed := by
  obtain ⟨-, -, h⟩ := Traced.result_bind_ok h
  obtain ⟨u, -, h⟩ := Traced.result_bind_ok h
  unfold settle at h
  split at h
  · obtain ⟨-, -, h⟩ := Traced.result_bind_ok h
    cases h
    rfl
  · obtain ⟨-, -, h⟩ := Traced.result_bind_ok h
    cases h
    rfl

/-- The positions of the steps that the loop does not skip: the first of each name that is not in
`executed`. -/
def fresh : List String → List (SagaStep C) → Nat → List Nat
  | _, [], _ => []
  | executed, step :: rest, position =>
    if step.name ∈ executed then fresh executed rest (position + 1)
    else position :: fresh (executed ++ [step.name]) rest (position + 1)

theorem forwardLoop_success {r : SagaResult}
    (h : (s.forwardLoop rest position ctx executed).result = .ok r) (hs : r.status = .success) :
    completions (s.forwardLoop rest position ctx executed).trace =
      fresh executed rest position := by
  induction rest generalizing position ctx executed with
  | nil => exact completions_succeed
  | cons step rest ih =>
    by_cases hmem : step.name ∈ executed
    · rw [forwardLoop_skip hmem] at h ⊢
      rw [fresh, if_pos hmem]
      exact ih h
    · rw [fresh, if_neg hmem]
      cases hr : (step.run ctx).outcome with
      | rejected err =>
        rw [forwardLoop_rejected hmem hr, Traced.result_after] at h
        rw [fail_status h] at hs
        cases hs
      | resolved =>
        rw [forwardLoop_resolved hmem hr] at h ⊢
        rw [Traced.result_after] at h
        rw [Traced.trace_after, completions_append, completions_run, if_pos hr]
        cases hp : (s.persist (step.run ctx).ctx (executed ++ [step.name]) .pending).result with
        | error x =>
          rw [Traced.attempt_error hp] at h
          rw [fail_status h] at hs
          cases hs
        | ok a =>
          rw [Traced.attempt_ok hp] at h ⊢
          rw [Traced.trace_after, completions_append, completions_persist, ih h]
          rfl

/-! ## Distinct names -/

theorem fresh_lower {n : Nat} (h : n ∈ fresh executed rest position) : position ≤ n := by
  induction rest generalizing executed position with
  | nil => cases h
  | cons step rest ih =>
    rw [fresh] at h
    split at h
    · exact Nat.le_of_succ_le (ih h)
    · rcases mem_cons.mp h with rfl | h
      · exact Nat.le_refl n
      · exact Nat.le_of_succ_le (ih h)

theorem fresh_eq_range_iff : fresh executed rest position = List.range' position rest.length ↔
    (rest.map (·.name)).Nodup ∧ List.Disjoint executed (rest.map (·.name)) := by
  induction rest generalizing executed position with
  | nil => simp [fresh]
  | cons step rest ih =>
    rw [fresh, length_cons, range'_succ]
    split
    · next hmem =>
      constructor
      · intro heq
        have hlow := fresh_lower (heq ▸ mem_cons_self)
        exact absurd hlow (Nat.not_succ_le_self position)
      · rintro ⟨-, hdis⟩
        exact absurd mem_cons_self (hdis hmem)
    · next hmem =>
      rw [cons_eq_cons, and_iff_right rfl, ih]
      simp only [map_cons, nodup_cons, disjoint_cons_right,
        disjoint_append_left, singleton_disjoint]
      constructor
      · rintro ⟨hnd, hdis, hnot⟩
        exact ⟨⟨hnot, hnd⟩, hmem, hdis⟩
      · rintro ⟨⟨hnot, hnd⟩, -, hdis⟩
        exact ⟨hnd, hdis, hnot⟩

theorem run_ok {r : SagaResult} (h : (s.run ctx).result = .ok r) :
    (s.forward ctx []).result = .ok r ∧
      (s.run ctx).trace = (s.persist ctx [] .pending).trace ++ (s.forward ctx []).trace := by
  obtain ⟨a, hp, hf⟩ := Traced.result_bind_ok h
  refine ⟨hf, ?_⟩
  unfold run
  rw [Traced.bind_ok hp, Traced.trace_after]

/-- A run that ends in success has completed every registered step, each exactly once and in
registration order, if and only if the names of the steps are distinct. A call that was given up
on after its timeout counts as failed. -/
theorem success_complete_iff (s : Saga C) (ctx : C) (r : SagaResult)
    (h : (s.run ctx).result = .ok r) (hs : r.status = .success) :
    completions (s.run ctx).trace = List.range s.steps.length ↔ s.names.Nodup := by
  obtain ⟨hf, htrace⟩ := run_ok h
  rw [htrace, completions_append, completions_persist, nil_append, forward,
    forwardLoop_success hf hs, range_eq_range', fresh_eq_range_iff]
  exact and_iff_left (disjoint_nil_left _)

/-- A step whose calls all resolve at once. -/
def reliable (name : String) : SagaStep Unit where
  name := name
  execute ctx _ := (ctx, { outcome := .resolved })

def checkout (names : List String) : Saga Unit where
  steps := names.map reliable
  sagaId := "order:1"
  store := some {}

theorem success_complete_reserve : ∃ r, ((checkout ["reserve", "charge"]).run ()).result = .ok r ∧
    r.status = .success ∧
    completions ((checkout ["reserve", "charge"]).run ()).trace = List.range 2 := by
  refine ⟨_, rfl, rfl, ?_⟩
  exact (success_complete_iff _ () _ rfl rfl).mpr (by decide)

/-! ## Two steps of one name -/

theorem success_skips_step : ∃ r, ((checkout ["ship", "ship"]).run ()).result = .ok r ∧
    r.status = .success ∧
    completions ((checkout ["ship", "ship"]).run ()).trace = [0] ∧
    completions ((checkout ["ship", "ship"]).run ()).trace ≠
      List.range (checkout ["ship", "ship"]).steps.length :=
  ⟨_, rfl, rfl, rfl, by decide⟩

end Saga

end NevoMessaging
