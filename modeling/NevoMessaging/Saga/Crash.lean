import NevoMessaging.Lib.Trace
import NevoMessaging.Saga.Compensation

/-!
# Crashes and resumed sagas

A process that runs a saga may die after any snapshot it has stored. Another process loads this
snapshot and goes on with `Saga.resume`, and may die in turn. `Session` are the computations that
come about in this way, each with the events of the processes before it.

If the outcomes of the functions of a step depend on the step only, what is left to do after a
snapshot is what the process that stored it had left to do: the steps of the snapshot are skipped,
and a compensation that failed before fails again.

Results:
1. `obeys_run`, `obeys_resume`: a snapshot says how far the saga has come, and nothing is done again
   that a snapshot says is done.
2. `crash_recovery`: crashes do not change what comes out.
-/

namespace NevoMessaging

variable {C : Type}

theorem retryLoop_congr (timeoutMs : Option Int) {fn fn' : C → Nat → C × Call}
    (h : ∀ n c c', (fn c n).2 = (fn' c' n).2) (left attempt : Nat) (c c' : C) (err : Thrown) :
    (retryLoop timeoutMs fn left attempt c err).attempts =
        (retryLoop timeoutMs fn' left attempt c' err).attempts ∧
      (retryLoop timeoutMs fn left attempt c err).outcome =
        (retryLoop timeoutMs fn' left attempt c' err).outcome := by
  induction left generalizing attempt c c' err with
  | zero => exact ⟨rfl, rfl⟩
  | succ left ih =>
    rw [retryLoop, retryLoop, h attempt c c']
    rcases withTimeout timeoutMs (fn' c' attempt).2 with ⟨outcome, listeners⟩
    cases outcome with
    | resolved => exact ⟨rfl, rfl⟩
    | rejected e =>
      obtain ⟨ha, ho⟩ := ih (attempt + 1) (fn c attempt).1 (fn' c' attempt).1 e
      exact ⟨congrArg (.rejected e :: ·) ha, ho⟩

namespace SagaStep

/-- The outcomes of `execute` and `compensate` depend on the step and the attempt only. -/
def Steady (step : SagaStep C) : Prop :=
  (∀ n c c', (step.execute c n).2 = (step.execute c' n).2) ∧
    ∀ undo ∈ step.compensate, ∀ n c c' err err', (undo c err n).2 = (undo c' err' n).2

theorem Steady.run_outcome {step : SagaStep C} (h : step.Steady) (c c' : C) :
    (step.run c).outcome = (step.run c').outcome :=
  (retryLoop_congr step.timeoutMs h.1 _ 1 c c' .undefined).2

theorem Steady.undo_outcome {step : SagaStep C} (h : step.Steady)
    {undo : C → Thrown → Nat → C × Call} (hc : step.compensate = some undo) (err : Thrown)
    (c c' : C) : (step.undo undo err c').outcome = (step.undo undo .undefined c).outcome :=
  (retryLoop_congr step.compensateTimeoutMs
    (fun n c c' => h.2 undo hc n c c' err .undefined) _ 1 c' c .undefined).2

end SagaStep

namespace Saga

open Traced

open List hiding after

/-! ## Compensations that depend on the step only -/

section Steady

variable {c : C} {todo pre : List (SagaStep C)}

/-- The steps of a list that have a compensation, and how it ends. -/
def ends (c : C) (todo : List (SagaStep C)) : List (SagaStep C × Outcome) :=
  todo.filterMap fun step => step.compensate.map fun undo =>
    (step, (step.undo undo .undefined c).outcome)

/-- The names of the steps whose compensation succeeds, in the order of the compensations, and
those whose fails. -/
def undoneNames (c : C) (pre : List (SagaStep C)) : List String :=
  ((ends c pre.reverse).filter (·.2 = .resolved)).map (·.1.name)

def stuckNames (c : C) (pre : List (SagaStep C)) : List String :=
  ((ends c pre.reverse).filter (·.2 ≠ .resolved)).map (·.1.name)

/-- Every compensation that fails can be reported. -/
def StuckReported (s : Saga C) (c : C) (pre : List (SagaStep C)) : Prop :=
  ∀ q ∈ ends c pre.reverse, ∀ e, q.2 = .rejected e → s.Reports q.1.name e

/-- A compensation, and how its retries end. -/
def outcomeOf (p : SagaStep C × Retried C) : SagaStep C × Outcome := (p.1, p.2.outcome)

theorem names_sound {plan : List (SagaStep C × Retried C)} (h : Sound plan) :
    compensatedOf plan = ((plan.map outcomeOf).filter (·.2 = .resolved)).map (·.1.name) ∧
      failedOf plan = ((plan.map outcomeOf).filter (·.2 ≠ .resolved)).map (·.1.name) := by
  have heq : ∀ p ∈ plan, succeeded p = decide (p.2.outcome = .resolved) := fun p hp =>
    Bool.eq_iff_iff.mpr ((h p hp).trans decide_eq_true_iff.symm)
  rw [filter_map, map_map, filter_map, map_map, compensatedOf, failedOf, filter_congr heq,
    filter_congr fun p hp => (congrArg (!·) (heq p hp)).trans (decide_not ..).symm]
  exact ⟨rfl, rfl⟩

variable (c) in
theorem undone_ends (err : Thrown) (h : ∀ step ∈ todo, step.Steady) (ctx : C) :
    (undone err todo ctx).map outcomeOf = ends c todo := by
  induction todo generalizing ctx with
  | nil => rfl
  | cons step todo ih =>
    obtain ⟨hstep, htodo⟩ := forall_mem_cons.mp h
    cases hc : step.compensate with
    | none => rw [undone_cons_none hc, ih htodo, ends, ends, filterMap_cons_none (by rw [hc]; rfl)]
    | some undo =>
      rw [undone_cons_some hc, map_cons, ih htodo, ends, ends,
        filterMap_cons_some (by rw [hc]; rfl), outcomeOf, hstep.undo_outcome hc err c ctx]

theorem ends_filter (p : SagaStep C → Bool) :
    ends c (todo.filter p) = (ends c todo).filter (p ·.1) := by
  rw [ends, ends, filterMap_filter, filter_filterMap]
  refine filterMap_congr fun step _ => ?_
  cases step.compensate <;> cases hp : p step <;> simp [Option.filter, hp]

theorem append_filter_not_mem {l m : List String} (h : l <+: m) (hnd : m.Nodup) :
    l ++ m.filter (· ∉ l) = m := by
  obtain ⟨r, rfl⟩ := h
  have hl : l.filter (· ∉ l) = [] := filter_eq_nil_iff.mpr fun a ha => by simpa using ha
  have hr : r.filter (· ∉ l) = r := filter_eq_self.mpr fun a ha => by
    simpa using fun hal => (disjoint_of_nodup_append hnd) hal ha
  rw [filter_append, hl, hr, nil_append]

end Steady

/-! ## What comes out of a saga -/

/-- What a result says about the saga, without the error. -/
structure Verdict where
  status : ResultStatus
  executed : List String
  compensated : List String
  compensationFailed : Option (List String)
deriving DecidableEq

/-- `none` if the computation rejects. -/
def verdict (c : Prog C SagaResult) : Option Verdict :=
  match c.result with
  | .ok r => some {
      status := r.status
      executed := r.executed
      compensated := r.compensated
      compensationFailed := r.compensationFailed }
  | .error _ => none

/-- The store does what it is asked for. -/
def Reliable (s : Saga C) : Prop :=
  ∃ store, s.store = some store ∧ (∀ x, store.save x = none) ∧ store.delete = none

/-- A process that takes up the saga `s`. It has the same steps and can report the same failures;
the clock, the type, the logger and the dead letter queue may differ. -/
structure Peer (s s' : Saga C) : Prop where
  steps : s'.steps = s.steps
  reports : ∀ name err, s'.Reports name err ↔ s.Reports name err
  reliable : s'.Reliable

/-- Distinct names, and outcomes that depend on the step only. -/
structure Steady (s : Saga C) : Prop where
  names : s.names.Nodup
  steps : ∀ step ∈ s.steps, step.Steady

/-- Every step of a list succeeds, whatever its context. -/
def Resolve (steps : List (SagaStep C)) : Prop :=
  ∀ step ∈ steps, ∀ c, (step.run c).outcome = .resolved

/-- The steps `pre` succeed, and the one after them fails. -/
structure FailsAfter (steps pre : List (SagaStep C)) (step : SagaStep C) (rest : List (SagaStep C))
    (err : Thrown) : Prop where
  steps : steps = pre ++ step :: rest
  before : Resolve pre
  rejects : ∀ c, (step.run c).outcome = .rejected err

theorem resolve_nil : Resolve ([] : List (SagaStep C)) :=
  fun _ hstep => absurd hstep not_mem_nil

theorem Reliable.persists {s : Saga C} (h : s.Reliable) : s.Persists := by
  obtain ⟨store, hstore, hsave, -⟩ := h
  exact ⟨store, hstore, hsave⟩

theorem verdict_after (t : List (SagaEvent C)) (c : Prog C SagaResult) :
    verdict (after t c) = verdict c := rfl

section Verdicts

variable {s s' : Saga C} {ctx c : C} {err : Thrown} {done : List String}
  {pre rest q : List (SagaStep C)} {step : SagaStep C} {executed : List String}

theorem Peer.front (hp : Peer s s') (hs : s.names.Nodup) (hsteps : s.steps = pre ++ rest) :
    s'.Found pre ∧ (pre.map (·.name)).Nodup := by
  constructor
  · refine found_of_nodup (s := s') (by rwa [Saga.names, hp.steps]) ?_
    rw [hp.steps, hsteps]
    exact subset_append_left pre rest
  · rw [Saga.names, hsteps, map_append] at hs
    exact hs.of_append_left

theorem name_not_mem (hs : s.names.Nodup) (hsteps : s.steps = pre ++ step :: rest) :
    step.name ∉ pre.map (·.name) := by
  rw [names, hsteps, map_append] at hs
  exact fun hm => disjoint_of_nodup_append hs hm mem_cons_self

/-- The verdict on a saga that fails after the steps `pre`, if the failures can be reported. -/
def failed (c : C) (pre : List (SagaStep C)) : Verdict where
  status := .failed
  executed := pre.map (·.name)
  compensated := undoneNames c pre
  compensationFailed := if stuckNames c pre = [] then none else some (stuckNames c pre)

/-- The compensations that are left when those of `done` are over end as they would have ended at
once. -/
theorem Steady.undone_todoOf (hs : s.Steady) (hp : Peer s s') (hsteps : s.steps = pre ++ rest)
    (hdone : done <+: undoneNames c pre) (err : Thrown) (ctx : C) :
    done ++ compensatedOf (undone err (todoOf pre done) ctx) = undoneNames c pre ∧
      failedOf (undone err (todoOf pre done) ctx) = stuckNames c pre ∧
      (s'.Reported (undone err (todoOf pre done) ctx) ↔ s.StuckReported c pre) := by
  have hsteady : ∀ step ∈ pre.reverse, step.Steady := fun step hstep =>
    hs.steps step (hsteps ▸ mem_append_left rest (mem_reverse.mp hstep))
  have hmap : (undone err (todoOf pre done) ctx).map outcomeOf =
      (ends c pre.reverse).filter (·.1.name ∉ done) :=
    (undone_ends c err (fun step hstep => hsteady step (mem_of_mem_filter hstep)) ctx).trans
      (ends_filter _)
  have hnames : ((ends c pre.reverse).map (·.1.name)).Nodup := by
    rw [← undone_ends c err hsteady ctx, map_map]
    refine Nodup.sublist (undone_names err ctx pre.reverse) ?_
    rw [map_reverse]
    exact nodup_reverse.mpr (hp.front hs.names hsteps).2
  -- a compensation that fails is not among those that are over
  have hstuck : ∀ q ∈ ends c pre.reverse, q.2 ≠ .resolved → q.1.name ∉ done := by
    intro q hq hne hmem
    obtain ⟨q', hq', hname⟩ := mem_map.mp (hdone.subset hmem)
    obtain ⟨hin, hres⟩ := mem_filter.mp hq'
    rw [inj_on_of_nodup_map hnames hin hq hname] at hres
    exact hne (of_decide_eq_true hres)
  have hsound : Sound (undone err (todoOf pre done) ctx) := undone_sound
  obtain ⟨hcomp, hfail⟩ := names_sound hsound
  rw [hmap] at hcomp hfail
  refine ⟨?_, ?_, ?_⟩
  · rw [hcomp, filter_comm]
    refine .trans ?_ (append_filter_not_mem hdone (hnames.sublist (filter_sublist.map _)))
    rw [undoneNames, filter_map]
    rfl
  · rw [hfail, filter_filter, stuckNames]
    refine congrArg _ (filter_congr fun q hq => ?_)
    by_cases hne : q.2 = .resolved
    · simp [hne]
    · simpa [hne] using hstuck q hq hne
  · have hrep : s'.Reported (undone err (todoOf pre done) ctx) ↔
        ∀ q ∈ (undone err (todoOf pre done) ctx).map outcomeOf, ∀ e, q.2 = .rejected e →
          s.Reports q.1.name e := by
      simp only [← hp.reports, forall_mem_map]
      rfl
    rw [hrep, hmap]
    constructor
    · intro h q hq e he
      exact h q (mem_filter.mpr ⟨hq, by simpa using hstuck q hq (by simp [he])⟩) e he
    · exact fun h q hq => h q (mem_of_mem_filter hq)

open Classical in
variable (ctx) in
theorem fail_verdict (hp : Peer s s') (hs : s.Steady) (hsteps : s.steps = pre ++ rest)
    (hdone : done <+: undoneNames c pre) :
    verdict (s'.fail ctx (pre.map (·.name)) err done) =
      if errorField err ≠ none ∧ s.StuckReported c pre then some (failed c pre) else none := by
  obtain ⟨hfound, hnd⟩ := hp.front hs.names hsteps
  obtain ⟨hcomp, hstick, hrep⟩ := hs.undone_todoOf hp hsteps hdone err ctx
  obtain ⟨t, hfail, -⟩ := fail_eq ctx hp.reliable.persists hfound hnd done rfl
  rw [hfail, verdict_after, hcomp, hstick, hrep]
  split <;> rfl

/-! ## The forward part -/

variable (rest) in
theorem forwardLoop_through (hs : s.Persists) (hpre : Resolve pre) (hnd : (pre.map (·.name)).Nodup)
    (hdis : executed.Disjoint (pre.map (·.name))) (position : Nat) (ctx : C) :
    ∃ t ctx', s.forwardLoop (pre ++ rest) position ctx executed =
      after t (s.forwardLoop rest (position + pre.length) ctx' (executed ++ pre.map (·.name))) := by
  induction pre generalizing position ctx executed with
  | nil => exact ⟨[], ctx, by rw [map_nil, append_nil]; rfl⟩
  | cons step pre ih =>
    obtain ⟨hr, hpre⟩ := forall_mem_cons.mp hpre
    obtain ⟨hnot, hnd⟩ := nodup_cons.mp hnd
    rw [map_cons, disjoint_cons_right] at hdis
    obtain ⟨t, ctx', hloop⟩ := ih hpre hnd (disjoint_append_left.mpr
      ⟨hdis.2, singleton_disjoint.mpr hnot⟩) (position + 1) (step.run ctx).ctx
    rw [cons_append, forwardLoop_resolved hdis.1 (hr ctx), persist_eq hs errorField_undefined,
      perform_attempt, hloop, after_after, after_after]
    refine ⟨_, ctx', congrArg (after _) ?_⟩
    rw [append_assoc, singleton_append, length_cons, Nat.add_right_comm,
      Nat.add_assoc]
    rfl

theorem forwardLoop_skips (h : pre.map (·.name) ⊆ executed) (position : Nat) :
    s.forwardLoop (pre ++ rest) position ctx executed =
      s.forwardLoop rest (position + pre.length) ctx executed := by
  induction pre generalizing position with
  | nil => rfl
  | cons step pre ih =>
    obtain ⟨hmem, hpre⟩ := cons_subset.mp h
    rw [cons_append, forwardLoop_skip hmem, ih hpre, length_cons, Nat.add_right_comm,
      Nat.add_assoc]

theorem resolve_or_fails (h : ∀ step ∈ rest, step.Steady) (c : C) :
    Resolve rest ∨ ∃ q step rest' err, FailsAfter rest q step rest' err := by
  induction rest with
  | nil => exact .inl resolve_nil
  | cons step rest ih =>
    obtain ⟨hstep, hrest⟩ := forall_mem_cons.mp h
    cases hr : (step.run c).outcome with
    | rejected err =>
      exact .inr ⟨[], step, rest, err, rfl, resolve_nil, fun c' =>
        (hstep.run_outcome c' c).trans hr⟩
    | resolved =>
      have hall : ∀ c', (step.run c').outcome = .resolved := fun c' =>
        (hstep.run_outcome c' c).trans hr
      rcases ih hrest with hres | ⟨q, st, rest', err, rfl, hq, hst⟩
      · exact .inl (forall_mem_cons.mpr ⟨hall, hres⟩)
      · exact .inr ⟨step :: q, st, rest', err, rfl, forall_mem_cons.mpr ⟨hall, hq⟩, hst⟩

/-- The verdict on a saga whose steps all succeed. -/
def succeeds (s : Saga C) : Verdict where
  status := .success
  executed := s.names
  compensated := []
  compensationFailed := none

theorem succeed_eq (hs : s.Reliable) (executed : List String) :
    s.succeed ctx executed = after
      [.saved (s.snapshot ctx executed .success none []), .deleted s.sagaId]
      (pure { status := .success, executed, compensated := [], sagaId := s.sagaId }) := by
  obtain ⟨store, hstore, hsave, hdelete⟩ := hs
  unfold succeed discard
  rw [persist_eq ⟨store, hstore, hsave⟩ errorField_undefined, perform_bind, hstore]
  simp only [hdelete, perform_bind, after_after, singleton_append]

variable (ctx) in
theorem forward_through (hp : Peer s s') (hs : s.Steady) (hsteps : s.steps = pre ++ (q ++ rest))
    (hq : Resolve q) :
    ∃ t ctx', s'.forward ctx (pre.map (·.name)) = after t
      (s'.forwardLoop rest (pre.length + q.length) ctx' ((pre ++ q).map (·.name))) := by
  have hnd := hs.names
  rw [Saga.names, hsteps, map_append, map_append] at hnd
  obtain ⟨-, hrest, hdis⟩ := nodup_append'.mp hnd
  obtain ⟨t, ctx', hloop⟩ := forwardLoop_through rest hp.reliable.persists hq
    hrest.of_append_left (fun n hn hq => hdis hn (mem_append_left _ hq)) pre.length ctx
  refine ⟨t, ctx', ?_⟩
  rw [forward, hp.steps, hsteps, forwardLoop_skips (Subset.refl _), Nat.zero_add, hloop,
    map_append]

theorem forward_succeeds (hp : Peer s s') (hs : s.Steady) (hall : Resolve s.steps)
    (hsteps : s.steps = pre ++ rest) :
    verdict (s'.forward ctx (pre.map (·.name))) = some s.succeeds := by
  have hrest : Resolve rest := fun step hstep =>
    hall step (hsteps ▸ mem_append_right pre hstep)
  have hsteps' : s.steps = pre ++ (rest ++ []) := hsteps.trans (by rw [append_nil])
  obtain ⟨t, ctx', hloop⟩ := forward_through ctx hp hs hsteps' hrest
  rw [hloop, verdict_after, forwardLoop, succeed_eq hp.reliable, verdict_after, ← hsteps]
  rfl

open Classical in
theorem forward_fails (hp : Peer s s') (hs : s.Steady)
    (hf : FailsAfter s.steps q step rest err) (hpre : pre <+: q) (c : C) :
    verdict (s'.forward ctx (pre.map (·.name))) =
      if errorField err ≠ none ∧ s.StuckReported c q then some (failed c q) else none := by
  obtain ⟨q', rfl⟩ := hpre
  have hsteps : s.steps = pre ++ (q' ++ step :: rest) := hf.steps.trans (append_assoc ..)
  obtain ⟨t, ctx', hloop⟩ := forward_through ctx hp hs hsteps fun st hst =>
    hf.before st (mem_append_right pre hst)
  rw [hloop, forwardLoop_rejected (name_not_mem hs.names hf.steps) (hf.rejects ctx'), after_after,
    verdict_after]
  exact fail_verdict _ hp hs hf.steps nil_prefix

theorem Resolve.le_failing (hpre : Resolve pre) {rest' : List (SagaStep C)}
    (h : pre ++ rest = q ++ step :: rest') (c : C) (hstep : (step.run c).outcome ≠ .resolved) :
    pre <+: q := by
  rcases append_eq_append_iff.mp h with ⟨a, rfl, -⟩ | ⟨a, rfl, ha⟩
  · exact ⟨a, rfl⟩
  · cases a with
    | nil => exact ⟨[], by simp⟩
    | cons st a =>
      obtain ⟨rfl, -⟩ := cons_eq_cons.mp ha
      exact absurd (hpre step (by simp) c) hstep

theorem forward_verdict (hs : s.Steady) {s'' : Saga C} (hp : Peer s s') (hp' : Peer s s'')
    (hpre : Resolve pre) (hsteps : s.steps = pre ++ rest) (ctx ctx' : C) :
    verdict (s'.forward ctx (pre.map (·.name))) = verdict (s''.forward ctx' []) := by
  rcases resolve_or_fails hs.steps ctx with hall | ⟨q, step, rest', err, hfails⟩
  · rw [forward_succeeds hp hs hall hsteps]
    exact (forward_succeeds hp' hs hall (nil_append s.steps).symm).symm
  · have hle := hpre.le_failing (hsteps.symm.trans hfails.steps) ctx (by simp [hfails.rejects])
    rw [forward_fails hp hs hfails hle ctx]
    exact (forward_fails hp' hs hfails nil_prefix ctx).symm

theorem run_eq (hs : s.Persists) (ctx : C) :
    s.run ctx = after [.saved (s.snapshot ctx [] .pending none [])] (s.forward ctx []) := by
  unfold run
  rw [persist_eq hs errorField_undefined, perform_bind]

theorem run_verdict (hp : Peer s s) (ctx : C) :
    verdict (s.run ctx) = verdict (s.forward ctx []) := by
  rw [run_eq hp.reliable.persists, verdict_after]

open Classical in
theorem run_fails (hp : Peer s s) (hs : s.Steady) (hf : FailsAfter s.steps pre step rest err)
    (c : C) : verdict (s.run ctx) =
      if errorField err ≠ none ∧ s.StuckReported c pre then some (failed c pre) else none := by
  rw [run_verdict hp]
  exact forward_fails hp hs hf nil_prefix c

/-- The terminal status that a result stands for. -/
def Verdict.terminal (v : Verdict) : SagaStatus :=
  match v.status, v.compensationFailed with
  | .success, _ => .success
  | .failed, none => .compensated
  | .failed, some _ => .compensationFailed

theorem failed_terminal : (failed c pre).terminal =
    if stuckNames c pre = [] then .compensated else .compensationFailed := by
  unfold failed Verdict.terminal
  by_cases h : stuckNames c pre = [] <;> simp [h]

end Verdicts

/-! ## What a stored snapshot says -/

/-- A snapshot that says how far the saga has come. A terminal one says what the run without
crashes comes to. -/
def Good (s : Saga C) (c : C) (x : SagaSnapshot C) : Prop :=
  match x.status with
  | .pending => ∃ pre rest, s.steps = pre ++ rest ∧ Resolve pre ∧ x.executed = pre.map (·.name) ∧
      x.compensated = some []
  | .compensating => ∃ pre step rest err done, FailsAfter s.steps pre step rest err ∧
      errorField err ≠ none ∧ x.executed = pre.map (·.name) ∧ x.compensated = some done ∧
      done <+: undoneNames c pre
  | status => ∃ v, verdict (s.run c) = some v ∧ v.terminal = status ∧ v.executed = x.executed ∧
      some v.compensated = x.compensated

section Stored

variable {s s' : Saga C} {c : C} {x : SagaSnapshot C} {type : Option String}

theorem good_of_verdict {v : Verdict} (h : verdict (s.run c) = some v)
    (hstatus : v.terminal = x.status) (hexecuted : v.executed = x.executed)
    (hcompensated : some v.compensated = x.compensated) : Good s c x := by
  have hne : v.terminal ≠ .pending ∧ v.terminal ≠ .compensating := by
    unfold Verdict.terminal
    split <;> exact ⟨by decide, by decide⟩
  rw [hstatus] at hne
  unfold Good
  split
  · next hx => exact absurd hx hne.1
  · next hx => exact absurd hx hne.2
  · exact ⟨v, h, hstatus, hexecuted, hcompensated⟩

theorem Good.terminal (h : Good s c x) (hpending : x.status ≠ .pending)
    (hcomp : x.status ≠ .compensating) :
    ∃ v, verdict (s.run c) = some v ∧ v.terminal = x.status ∧ v.executed = x.executed ∧
      some v.compensated = x.compensated := by
  unfold Good at h
  split at h
  · next hx => exact absurd hx hpending
  · next hx => exact absurd hx hcomp
  · exact h

theorem Peer.retype (hp : Peer s s') (type : String) : Peer s { s' with type := type } where
  steps := hp.steps
  reports := hp.reports
  reliable := hp.reliable

theorem errorField_storedError (error : Option String) : errorField (storedError error) ≠ none := by
  cases error <;> simp [storedError, errorField, Thrown.truthy, Thrown.messageOf, Thrown.undefined]

theorem resume_pending (h : x.status = .pending) :
    resume (some x) type s' =
      { s' with type := (type <|> x.type).getD defaultSagaType }.forward x.ctx x.executed := by
  unfold resume
  simp only [h]

theorem resume_compensating (h : x.status = .compensating) :
    resume (some x) type s' = { s' with type := (type <|> x.type).getD defaultSagaType }.fail
      x.ctx x.executed (storedError x.error) (x.compensated.getD []) := by
  unfold resume
  simp only [h]

variable (s') in
theorem resume_terminal (type : Option String) (h : x.status ≠ .pending)
    (h' : x.status ≠ .compensating) : ∃ err, resume (some x) type s' = Traced.throw err := by
  unfold resume
  cases hx : x.status with
  | pending => exact absurd hx h
  | compensating => exact absurd hx h'
  | success | failed | compensated | compensationFailed =>
    simp only [hx]
    exact ⟨_, rfl⟩

theorem resume_verdict (hp : Peer s s) (hp' : Peer s s') (hs : s.Steady) (hx : Good s c x)
    (hunfinished : x.status = .pending ∨ x.status = .compensating) (type : Option String)
    (ctx : C) :
    verdict (resume (some x) type s') = verdict (s.run ctx) := by
  unfold Good at hx
  rcases hunfinished with h | h
  · simp only [h] at hx
    obtain ⟨pre, rest, hsteps, hpre, hexecuted, -⟩ := hx
    rw [resume_pending h, hexecuted, run_verdict hp]
    exact forward_verdict hs (hp'.retype _) hp hpre hsteps x.ctx ctx
  · simp only [h] at hx
    obtain ⟨pre, step, rest, err, done, hf, he, hexecuted, hcompensated, hdone⟩ := hx
    rw [resume_compensating h, hexecuted, hcompensated, Option.getD_some, run_fails hp hs hf c,
      fail_verdict x.ctx (hp'.retype _) hs hf.steps hdone]
    classical
    exact if_congr (and_congr_left' (iff_of_true (errorField_storedError x.error) he)) rfl rfl

end Stored

/-! ## Nothing is done twice -/

/-- What the snapshots stored so far rule out: the steps and compensations that are done, and,
once a snapshot has left the status `pending`, every step. -/
structure Seen where
  executed : List String := []
  compensated : List String := []
  closed : Bool := false

namespace Seen

def of (x : SagaSnapshot C) : Seen where
  executed := x.executed
  compensated := x.compensated.getD []
  closed := x.status ≠ .pending

def next (b : Seen) : SagaEvent C → Seen
  | .saved x => of x
  | _ => b

/-- `b'` rules out at least what `b` does. -/
structure Le (b b' : Seen) : Prop where
  executed : b.executed ⊆ b'.executed
  compensated : b.compensated ⊆ b'.compensated
  closed : b.closed = true → b'.closed = true

def Allows (s : Saga C) (c : C) (b : Seen) : SagaEvent C → Prop
  | .execute position _ _ => b.closed = false ∧ ∀ step ∈ s.steps[position]?, step.name ∉ b.executed
  | .compensate name _ _ => name ∉ b.compensated
  | .saved x => b.Le (of x) ∧ Good s c x
  | _ => True

theorem Le.trans {a b d : Seen} (h : a.Le b) (h' : b.Le d) : a.Le d where
  executed := Subset.trans h.executed h'.executed
  compensated := Subset.trans h.compensated h'.compensated
  closed := h'.closed ∘ h.closed

theorem Le.refl (b : Seen) : b.Le b := ⟨Subset.refl _, Subset.refl _, id⟩

end Seen

/-- No step is executed again that a snapshot lists as executed, no compensation is run again that
one lists as compensated, and no step is executed once a snapshot has left `pending`. -/
def Allowed (s : Saga C) (past : List (SagaEvent C)) : SagaEvent C → Prop
  | .execute position _ _ => ∀ x, .saved x ∈ past → x.status = .pending ∧
      ∀ step ∈ s.steps[position]?, step.name ∉ x.executed
  | .compensate name _ _ => ∀ x, .saved x ∈ past → name ∉ x.compensated.getD []
  | _ => True

abbrev Obeys (s : Saga C) (c : C) : Seen → List (SagaEvent C) → Prop :=
  Trace.Obeys Seen.next (Seen.Allows s c)

theorem Obeys.good {s : Saga C} {c : C} {b : Seen} {t : List (SagaEvent C)} (h : s.Obeys c b t)
    {x : SagaSnapshot C} (hx : .saved x ∈ t) : Good s c x :=
  (h.exists_allows hx).elim fun _ hallows => hallows.2

/-- The monitor only looks at the last snapshot, which rules out whatever an earlier one does. -/
theorem Obeys.allowed {s : Saga C} {c : C} {t : List (SagaEvent C)} (h : s.Obeys c {} t) :
    Trace.Lawful (Allowed s) t := by
  refine Trace.Obeys.lawful (fun b past => ∀ x, .saved x ∈ past → (Seen.of x).Le b)
    (fun b past e hcov hallows => ⟨?_, ?_⟩) (fun x hx => absurd hx not_mem_nil) h
  · cases e with
    | execute position n o =>
      intro x hx
      obtain ⟨hexec, -, hclosed⟩ := hcov x hx
      refine ⟨?_, fun step hstep hmem => hallows.2 step hstep (hexec hmem)⟩
      by_contra hne
      have hc := hclosed (by simpa [Seen.of] using hne)
      exact Bool.false_ne_true (hallows.1.symm.trans hc)
    | compensate name n o => exact fun x hx hmem => hallows ((hcov x hx).compensated hmem)
    | saved x | deleted id | dlq entry => trivial
  · intro x hx
    rcases mem_append.mp hx with hpast | hlast
    · cases e with
      | saved y => exact (hcov x hpast).trans hallows.1
      | _ => exact hcov x hpast
    · cases mem_singleton.mp hlast
      exact Seen.Le.refl _

section Obedience

variable {s s' : Saga C} {ctx c : C} {err : Thrown} {executed : List String} {b : Seen}
  {pre rest : List (SagaStep C)} {step : SagaStep C}

theorem obeys_quiet {t u : List (SagaEvent C)} (hsaved : ∀ x, .saved x ∉ t)
    (ht : ∀ e ∈ t, b.Allows s c e) (hu : s.Obeys c b u) : s.Obeys c b (t ++ u) := by
  have hnext : ∀ e ∈ t, b.next e = b := by
    intro e he
    cases e with
    | saved x => exact absurd he (hsaved x)
    | _ => rfl
  refine Trace.obeys_append.mpr ⟨Trace.obeys_of_forall hnext ht, ?_⟩
  rwa [Trace.foldl_of_forall hnext]

variable {name : String} {u : List (SagaEvent C)}

theorem obeys_compensateEvents (outcomes : List Outcome) (h : name ∉ b.compensated)
    (hu : s.Obeys c b u) : s.Obeys c b (compensateEvents name outcomes ++ u) := by
  refine obeys_quiet (fun x => saved_not_compensate) (fun e he => ?_) hu
  obtain ⟨n, _, rfl⟩ := mem_mapIdx.mp he
  exact h

theorem obeys_executeEvents {position : Nat} (outcomes : List Outcome) (hb : b.closed = false)
    (h : ∀ step ∈ s.steps[position]?, step.name ∉ b.executed) (hu : s.Obeys c b u) :
    s.Obeys c b (executeEvents position outcomes ++ u) := by
  refine obeys_quiet (fun x => saved_not_execute) (fun e he => ?_) hu
  obtain ⟨n, _, rfl⟩ := mem_mapIdx.mp he
  exact ⟨hb, h⟩

theorem obeys_report {compErr : Thrown} {attempts : Int} (hu : s.Obeys c b u) :
    s.Obeys c b ((s'.reportCompensationFailure name ctx err compErr attempts).trace ++ u) := by
  refine obeys_quiet (fun x hx => ?_) (fun e he => ?_) hu
  · obtain ⟨entry, hentry⟩ := report_trace hx
    cases hentry
  · obtain ⟨entry, rfl⟩ := report_trace he
    trivial

/-- The compensations obey, if what comes after them does. Then the monitor knows those that have
succeeded. -/
theorem obeys_undoPlan {error : Option String} {next : Undone C → Prog C SagaResult}
    {all : List String} (hgood : ∀ ctx done, done <+: all →
      Good s c (s'.snapshot ctx executed .compensating error done))
    {plan : List (SagaStep C × Retried C)} (hplan : Sound plan) (hnd : (plan.map (·.1.name)).Nodup)
    {u : Undone C} (hall : u.compensated ++ compensatedOf plan = all)
    (hdis : u.compensated.Disjoint (plan.map (·.1.name)))
    (hnext : ∀ u', (s'.undoPlan ctx executed err error plan u).result = .ok u' →
      s.Obeys c { executed, compensated := u'.compensated, closed := true } (next u').trace) :
    s.Obeys c { executed, compensated := u.compensated, closed := true }
      (s'.undoPlan ctx executed err error plan u >>= next).trace := by
  induction plan generalizing u with
  | nil => exact hnext u rfl
  | cons p plan ih =>
    obtain ⟨hp, hplan⟩ := forall_mem_cons.mp hplan
    obtain ⟨hnot, hnd⟩ := nodup_cons.mp hnd
    rw [map_cons, disjoint_cons_right] at hdis
    obtain ⟨hmem, hdis⟩ := hdis
    rw [undoPlan] at hnext ⊢
    rw [after_bind, trace_after]
    refine obeys_compensateEvents _ hmem ?_
    cases hr : p.2.outcome with
    | resolved =>
      rw [compensatedOf_cons_ok (hp.mpr hr), append_cons] at hall
      simp only [hr, result_after] at hnext
      simp only [after_bind, trace_after]
      refine ⟨⟨⟨Subset.refl _, subset_append_left _ _, fun _ => rfl⟩,
        hgood _ _ (hall ▸ prefix_append _ _)⟩, ?_⟩
      exact ih hplan hnd (u := { u with
        snapshot := p.2.ctx
        compensated := u.compensated ++ [p.1.name] }) hall
        (disjoint_append_left.mpr ⟨hdis, singleton_disjoint.mpr hnot⟩) hnext
    | rejected compErr =>
      have hno : succeeded p = false :=
        Bool.eq_false_iff.mpr fun hok => by simp [hp.mp hok] at hr
      rw [compensatedOf_cons_not hno] at hall
      simp only [hr, result_after] at hnext
      cases hrep : (s'.reportCompensationFailure p.1.name p.2.ctx err compErr
          p.1.cAttempts).result with
      | ok =>
        simp only [bind_ok hrep, result_after] at hnext
        simp only [bind_ok hrep, after_bind, trace_after]
        exact obeys_report (ih hplan hnd (u := { u with
          snapshot := p.2.ctx
          failed := u.failed ++ [p.1.name] }) hall hdis hnext)
      | error e =>
        simp only [bind_error hrep, after_bind, throw_bind, trace_after]
        exact obeys_report trivial

section Process

variable (hp : Peer s s) (hp' : Peer s s') (hs : s.Steady)

include hp hp' hs

theorem obeys_fail {err₀ : Thrown} (hf : FailsAfter s.steps pre step rest err₀)
    (herr : errorField err ≠ none → errorField err₀ ≠ none) {done : List String}
    (hdone : done <+: undoneNames c pre) (hexec : b.executed ⊆ pre.map (·.name))
    (hcomp : b.compensated ⊆ done) :
    s.Obeys c b (s'.fail ctx (pre.map (·.name)) err done).trace := by
  cases he : errorField err with
  | none =>
    rw [fail, persist_throws hp'.reliable.persists he, throw_bind]
    trivial
  | some error =>
    have he₀ := herr (by simp [he])
    obtain ⟨hfound, hnd⟩ := hp'.front hs.names hf.steps
    obtain ⟨hall, hfailed, hrep⟩ := hs.undone_todoOf hp' hf.steps hdone err ctx
    have hnames := undone_names err ctx (todoOf pre done)
    have hsound : Sound (undone err (todoOf pre done) ctx) := undone_sound
    have hgood (ctx : C) (done : List String) (hdone : done <+: undoneNames c pre) :
        Good s c (s'.snapshot ctx (pre.map (·.name)) .compensating error done) :=
      ⟨pre, step, rest, err₀, done, hf, he₀, rfl, rfl, hdone⟩
    unfold fail
    rw [persist_eq hp'.reliable.persists he, perform_bind, trace_after, singleton_append,
      compensate_plan hp'.reliable.persists he hfound hnd]
    refine ⟨⟨⟨hexec, hcomp, fun _ => rfl⟩, hgood _ _ hdone⟩, ?_⟩
    refine obeys_undoPlan (u := { snapshot := ctx, compensated := done, failed := [] }) hgood
      hsound ((nodup_todoOf hnd done).sublist hnames) hall
      (disjoint_of_subset_right hnames.subset (disjoint_todoOf pre done)) fun u hu => ?_
    obtain ⟨t, c', hplan, -⟩ := undoPlan_eq s' ctx (pre.map (·.name)) err error
      hsound { snapshot := ctx, compensated := done, failed := [] }
    rw [hplan, result_after] at hu
    split at hu
    · next hreported =>
      cases hu
      rw [settle_eq hp'.reliable.persists he]
      refine ⟨⟨⟨Subset.refl _, Subset.refl _, fun _ => ?_⟩, ?_⟩, trivial⟩
      · show decide ((if _ then _ else _) ≠ SagaStatus.pending) = true
        split <;> rfl
      · refine good_of_verdict ((run_fails hp hs hf c).trans
          (if_pos ⟨he₀, hrep.mp hreported⟩)) ?_ rfl (congrArg some hall.symm)
        rw [failed_terminal, ← hfailed]
        rfl
    · cases hu

theorem obeys_succeed (hall : Resolve s.steps) :
    s.Obeys c { executed := s.names } (s'.succeed ctx s.names).trace := by
  rw [succeed_eq hp'.reliable]
  refine ⟨⟨⟨Subset.refl _, Subset.refl _, fun h => by cases h⟩, ?_⟩, trivial, trivial⟩
  refine good_of_verdict (v := s.succeeds) ?_ rfl rfl rfl
  rw [run_verdict hp]
  exact forward_succeeds hp hs hall (nil_append s.steps).symm

theorem obeys_forwardLoop (hsteps : s.steps = pre ++ rest) (hpre : Resolve pre) :
    s.Obeys c { executed := pre.map (·.name) }
      (s'.forwardLoop rest pre.length ctx (pre.map (·.name))).trace := by
  induction rest generalizing pre ctx with
  | nil =>
    rw [append_nil] at hsteps
    rw [forwardLoop, ← hsteps]
    exact obeys_succeed hp hp' hs (hsteps ▸ hpre)
  | cons step rest ih =>
    have hmem := name_not_mem hs.names hsteps
    have hsteady := hs.steps step (hsteps ▸ mem_append_right pre mem_cons_self)
    have hget : ∀ st ∈ s.steps[pre.length]?, st.name ∉ pre.map (·.name) := by
      intro st hst
      rw [hsteps, getElem?_append_right (Nat.le_refl _), Nat.sub_self] at hst
      cases hst
      exact hmem
    cases hr : (step.run ctx).outcome with
    | rejected err =>
      have hf : FailsAfter s.steps pre step rest err :=
        ⟨hsteps, hpre, fun c => (hsteady.run_outcome c ctx).trans hr⟩
      rw [forwardLoop_rejected hmem hr, trace_after]
      exact obeys_executeEvents _ rfl hget
        (obeys_fail hp hp' hs hf id nil_prefix (Subset.refl _) (Subset.refl _))
    | resolved =>
      have hsteps' : s.steps = (pre ++ [step]) ++ rest := hsteps.trans (by simp)
      have hpre' : Resolve (pre ++ [step]) := forall_mem_append.mpr
        ⟨hpre, forall_mem_singleton.mpr fun c => (hsteady.run_outcome c ctx).trans hr⟩
      have hnames : pre.map (·.name) ++ [step.name] = (pre ++ [step]).map (·.name) := by simp
      rw [forwardLoop_resolved hmem hr, persist_eq hp'.reliable.persists errorField_undefined,
        perform_attempt, trace_after, trace_after, hnames]
      refine obeys_executeEvents _ rfl hget ⟨⟨⟨?_, Subset.refl _, fun h => by cases h⟩, ?_⟩, ?_⟩
      · rw [map_append]
        exact subset_append_left _ _
      · exact ⟨_, _, hsteps', hpre', rfl, rfl⟩
      · rw [← length_singleton (a := step), ← length_append]
        exact ih hsteps' hpre'

theorem obeys_forward (hsteps : s.steps = pre ++ rest) (hpre : Resolve pre) :
    s.Obeys c { executed := pre.map (·.name) } (s'.forward ctx (pre.map (·.name))).trace := by
  rw [forward, hp'.steps, hsteps, forwardLoop_skips (Subset.refl _), Nat.zero_add]
  exact obeys_forwardLoop hp hp' hs hsteps hpre

omit hp' in
theorem obeys_run : s.Obeys c {} (s.run ctx).trace := by
  rw [run_eq hp.reliable.persists, trace_after]
  refine ⟨⟨⟨Subset.refl _, Subset.refl _, fun h => by cases h⟩, ?_⟩, ?_⟩
  · exact ⟨[], s.steps, rfl, resolve_nil, rfl, rfl⟩
  · exact obeys_forward hp hp hs (nil_append s.steps).symm resolve_nil

theorem obeys_resume {x : SagaSnapshot C} (hx : Good s c x) (type : Option String) :
    s.Obeys c (.of x) (resume (some x) type s').trace := by
  by_cases hpending : x.status = .pending
  · simp only [Good, hpending] at hx
    obtain ⟨pre, rest, hsteps, hpre, hexecuted, hcompensated⟩ := hx
    have hof : Seen.of x = { executed := pre.map (·.name) } := by
      simp [Seen.of, hpending, hexecuted, hcompensated]
    rw [resume_pending hpending, hexecuted, hof]
    exact obeys_forward hp (hp'.retype _) hs hsteps hpre
  · by_cases hcomp : x.status = .compensating
    · simp only [Good, hcomp] at hx
      obtain ⟨pre, step, rest, err, done, hf, he, hexecuted, hcompensated, hdone⟩ := hx
      rw [resume_compensating hcomp, hexecuted, hcompensated]
      refine obeys_fail hp (hp'.retype _) hs hf (fun _ => he) hdone ?_ ?_
      · exact hexecuted ▸ Subset.refl x.executed
      · rw [Seen.of, hcompensated]
        exact Subset.refl _
    · obtain ⟨err, hthrow⟩ := resume_terminal s' type hpending hcomp
      rw [hthrow]
      trivial

end Process

end Obedience

/-! ## Sessions -/

/-- The processes that run a saga one after the other. `hist` are the events up to the last crash,
`resumed` the snapshots that `Saga.resume` was called with, and the last argument is what the
process does that runs now, if it does not crash. A crash comes right after a snapshot was stored;
the process that takes over is one that is `ok`. -/
inductive Session (ok : Saga C → Prop) (s : Saga C) (ctx : C) :
    (hist : List (SagaEvent C)) → (resumed : List (SagaSnapshot C)) → Prog C SagaResult → Prop
  | run : Session ok s ctx [] [] (s.run ctx)
  | resume {hist t : List (SagaEvent C)} {resumed : List (SagaSnapshot C)} {x : SagaSnapshot C}
      {c : Prog C SagaResult} {type : Option String} {s' : Saga C} :
    Session ok s ctx hist resumed c → t ++ [SagaEvent.saved x] <+: c.trace → ok s' →
    Session ok s ctx (hist ++ (t ++ [SagaEvent.saved x])) (resumed ++ [x]) (resume (some x) type s')

section Sessions

variable {s : Saga C} {ctx : C} {hist : List (SagaEvent C)} {resumed : List (SagaSnapshot C)}
  {c : Prog C SagaResult}

theorem Session.obeys (hp : Peer s s) (hs : s.Steady) (h : Session (Peer s) s ctx hist resumed c) :
    s.Obeys ctx {} (hist ++ c.trace) := by
  induction h with
  | run => exact obeys_run hp hs
  | @resume hist t resumed x c type s' hsession hcut hp' ih =>
    have hgood := ih.good (mem_append_right hist (hcut.subset (mem_append_right t mem_cons_self)))
    refine Trace.obeys_append.mpr ⟨ih.take (prefix_append_right_inj hist |>.mpr hcut), ?_⟩
    rw [← append_assoc, foldl_append]
    exact obeys_resume hp hp' hs hgood type

theorem Session.good_cut (hp : Peer s s) (hs : s.Steady)
    (h : Session (Peer s) s ctx hist resumed c) {t : List (SagaEvent C)} {x : SagaSnapshot C}
    (hcut : t ++ [SagaEvent.saved x] <+: c.trace) : Good s ctx x :=
  (h.obeys hp hs).good (mem_append_right hist (hcut.subset (mem_append_right t mem_cons_self)))

/-- Crashes do not change what comes out of a saga with distinct names whose outcomes depend on the
step only. If the last crash left an unfinished snapshot, the process that resumes it comes to the
same verdict as the run without crashes; if it left a terminal one, the snapshot says what that
verdict is. Resuming a terminal snapshot is refused without a call. In all events of all processes,
nothing is done that a stored snapshot says is done. -/
theorem crash_recovery (s : Saga C) (hstore : s.Reliable) (hs : s.Steady) (ctx : C)
    (h : Session (Peer s) s ctx hist resumed c) :
    ((∀ x ∈ resumed.getLast?, x.status = .pending ∨ x.status = .compensating) →
      verdict c = verdict (s.run ctx)) ∧
    (∀ x ∈ resumed.getLast?, x.status ≠ .pending → x.status ≠ .compensating →
      ∃ v, verdict (s.run ctx) = some v ∧ v.terminal = x.status ∧ v.executed = x.executed ∧
        some v.compensated = x.compensated) ∧
    (∀ (x : SagaSnapshot C) type (s' : Saga C), x.status ≠ .pending → x.status ≠ .compensating →
      (resume (some x) type s').trace = [] ∧ ∃ err, (resume (some x) type s').result = .error err) ∧
    Trace.Lawful (Allowed s) (hist ++ c.trace) := by
  have hp : Peer s s := ⟨rfl, fun _ _ => .rfl, hstore⟩
  refine ⟨fun hlast => ?_, fun x hx hpending hcomp => ?_, fun x type s' hpending hcomp => ?_,
    (h.obeys hp hs).allowed⟩
  · cases h with
    | run => rfl
    | resume hsession hcut hp' =>
      have hgood := hsession.good_cut hp hs hcut
      exact resume_verdict hp hp' hs hgood (hlast _ (by simp)) _ ctx
  · cases h with
    | run => cases hx
    | resume hsession hcut hp' =>
      rw [getLast?_concat] at hx
      cases hx
      exact (hsession.good_cut hp hs hcut).terminal hpending hcomp
  · obtain ⟨err, hthrow⟩ := resume_terminal s' type hpending hcomp
    rw [hthrow]
    exact ⟨rfl, err, rfl⟩

end Sessions

theorem undoable_steady (name : String) (execute compensate : Outcome) :
    (undoable name execute compensate).Steady := by
  refine ⟨fun _ _ _ => rfl, fun undo hundo => ?_⟩
  cases hundo
  exact fun _ _ _ _ _ => rfl

theorem order_steady (err : Thrown) (release : Outcome) : (order err release).Steady where
  names := by
    show ["reserve", "charge"].Nodup
    decide
  steps := by
    intro step hstep
    simp only [order, mem_cons, not_mem_nil, or_false] at hstep
    rcases hstep with rfl | rfl <;> exact undoable_steady _ _ _

theorem order_reliable (err : Thrown) (release : Outcome) : (order err release).Reliable :=
  ⟨{}, rfl, fun _ => rfl, rfl⟩

theorem crash_recovery_release :
    let s := order (.error "declined") (.rejected (.error "gone"))
    let x := s.snapshot () ["reserve"] .compensating (some "declined") []
    s.Reliable ∧ s.Steady ∧ (∃ hist, Session (Peer s) s () hist [x] (resume (some x) none s)) ∧
      verdict (resume (some x) none s) = verdict (s.run ()) := by
  intro s x
  have hsession : Session (Peer s) s () _ [x] (resume (some x) none s) :=
    .resume (t := [.saved (s.snapshot () [] .pending none []), .execute 0 1 .resolved,
      .saved (s.snapshot () ["reserve"] .pending none []),
      .execute 1 1 (.rejected (.error "declined"))]) .run ⟨_, rfl⟩
      ⟨rfl, fun _ _ => .rfl, order_reliable _ _⟩
  refine ⟨order_reliable _ _, order_steady _ _, ⟨_, hsession⟩, ?_⟩
  exact (crash_recovery s (order_reliable _ _) (order_steady _ _) () hsession).1 (by
    intro y hy
    cases hy
    exact .inr rfl)

end Saga

end NevoMessaging
