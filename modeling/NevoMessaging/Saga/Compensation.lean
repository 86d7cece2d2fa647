import NevoMessaging.Saga.Forward

/-!
# What a failing saga does

The `k`-th step uses up its attempts. The steps before it are compensated in reverse order, each
with its own retries, and the terminal status says whether every compensation succeeded.

There are three ways out of this. The saga turns the error of the step into a text when it stores
the snapshot, and the error of a compensation when it reports it. A value that has no text makes
the saga itself throw at these places. And a function that throws at once under a timeout leaves a
listener, which may end the process before the compensations are over.

Results:
1. `forwardLoop_failsAt`: the forward loop up to the step that fails.
2. `undoPlan_eq`: the compensations, and where they stop.
3. `compensation_exact_iff`: the run is as above if and only if these errors have a text.
-/

namespace NevoMessaging.Saga

open Traced

open List hiding after

variable {C : Type}

/-! ## The compensations of a list of steps -/

/-- The compensations of the steps of a list that have one, each with what its retries do. They
work on one copy of the context. -/
def undone (err : Thrown) : List (SagaStep C) → C → List (SagaStep C × Retried C)
  | [], _ => []
  | step :: rest, snapshot =>
    match step.compensate with
    | none => undone err rest snapshot
    | some undo =>
      (step, step.undo undo err snapshot) ::
        undone err rest (step.undo undo err snapshot).ctx

/-- Some attempt of the compensation has succeeded. -/
def succeeded (p : SagaStep C × Retried C) : Bool := decide (.resolved ∈ p.2.attempts)

def compensatedOf (plan : List (SagaStep C × Retried C)) : List String :=
  (plan.filter succeeded).map (·.1.name)

def failedOf (plan : List (SagaStep C × Retried C)) : List String :=
  (plan.filter (!succeeded ·)).map (·.1.name)

/-- The calls of the compensations, one compensation after the other. -/
def undoCalls (plan : List (SagaStep C × Retried C)) : List (SagaEvent C) :=
  plan.flatMap fun p => compensateEvents p.1.name p.2.attempts

def isCall : SagaEvent C → Bool
  | .execute .. | .compensate .. => true
  | _ => false

/-- The failure of a compensation can be reported: its error has a text, and so has the rejection
of the dead letter queue, if there is one and it is logged. -/
def Reports (s : Saga C) (name : String) (compErr : Thrown) : Prop :=
  compErr.messageOf ≠ none ∧ ∀ sink ∈ s.dlq, ∀ sinkErr ∈ sink name,
    s.logger = true → sinkErr.messageOf ≠ none

/-- Every compensation that fails can be reported. -/
def Reported (s : Saga C) (plan : List (SagaStep C × Retried C)) : Prop :=
  ∀ p ∈ plan, ∀ compErr, p.2.outcome = .rejected compErr → s.Reports p.1.name compErr

def Persists (s : Saga C) : Prop := ∃ store, s.store = some store ∧ ∀ x, store.save x = none

section Lemmas

variable {s : Saga C} {ctx ctx' : C} {executed : List String} {err : Thrown}

variable {error : Option String} {x : SagaSnapshot C} {name : String} {step : SagaStep C}
  {snapshot : C} {compErr : Thrown} {todo pre : List (SagaStep C)} {u : Undone C}

theorem persist_eq (hs : s.Persists) (he : errorField err = some error) (status : SagaStatus)
    (compensated : List String) :
    s.persist ctx executed status err compensated =
      perform [.saved (s.snapshot ctx executed status error compensated)] := by
  obtain ⟨store, hstore, hsave⟩ := hs
  unfold persist
  simp only [hstore, he, hsave]

theorem persist_throws (hs : s.Persists) (he : errorField err = none) (status : SagaStatus)
    (compensated : List String) :
    s.persist ctx executed status err compensated = Traced.throw .typeError := by
  obtain ⟨store, hstore, -⟩ := hs
  unfold persist
  simp only [hstore, he]

/-- The store takes the snapshot. -/
def Accepts (s : Saga C) (x : SagaSnapshot C) : Prop :=
  ∃ store, s.store = some store ∧ store.save x = none

theorem persist_saved {status : SagaStatus} {compensated : List String}
    (h : .saved x ∈ (s.persist ctx executed status err compensated).trace) :
    s.Accepts x ∧ ∃ error, errorField err = some error ∧
      x = s.snapshot ctx executed status error compensated := by
  unfold persist at h
  split at h
  · cases h
  next store hstore =>
    split at h
    · cases h
    next error he =>
      split at h
      next hsave =>
        cases mem_singleton.mp h
        exact ⟨⟨store, hstore, hsave⟩, error, he, rfl⟩
      · cases h

theorem errorField_undefined : errorField .undefined = some none := rfl

theorem filter_compensateEvents (name : String) (outcomes : List Outcome) :
    (compensateEvents name outcomes : List (SagaEvent C)).filter isCall =
      compensateEvents name outcomes := by
  refine filter_eq_self.mpr fun e he => ?_
  obtain ⟨n, -, rfl⟩ := mem_mapIdx.mp he
  rfl

theorem saved_not_execute {position : Nat} {outcomes : List Outcome} :
    .saved x ∉ executeEvents position outcomes := by
  intro h
  obtain ⟨n, _, hn⟩ := mem_mapIdx.mp h
  cases hn

theorem saved_not_compensate {outcomes : List Outcome} :
    .saved x ∉ compensateEvents name outcomes := by
  intro h
  obtain ⟨n, _, hn⟩ := mem_mapIdx.mp h
  cases hn

/-! ## Up to the failing step -/

theorem succeeded_iff {undo : C → Thrown → Nat → C × Call} :
    succeeded (step, step.undo undo err snapshot) = true ↔
      (step.undo undo err snapshot).outcome = .resolved := by
  unfold succeeded
  rw [decide_eq_true_iff]
  show .resolved ∈ (retryLoop ..).attempts ↔ (retryLoop ..).outcome = .resolved
  rcases retryLoop_attempts step.compensateTimeoutMs (undo · err)
    step.cAttempts.toNat 1 snapshot .undefined with ⟨ho, errs, ha, -⟩ | ⟨ho, errs, ha, -⟩
  · rw [ha]
    exact iff_of_true (mem_append_right _ mem_cons_self) ho
  · rw [ha]
    exact iff_of_false (by simp) ho

theorem report_trace {attempts : Int} {e : SagaEvent C}
    (h : e ∈ (s.reportCompensationFailure name ctx err compErr attempts).trace) :
    ∃ entry, e = .dlq entry := by
  unfold reportCompensationFailure at h
  split at h
  · cases h
  · split at h
    · cases h
    · rw [perform_bind, trace_after] at h
      rcases mem_append.mp h with h | h
      · exact ⟨_, mem_singleton.mp h⟩
      · split at h
        · cases h
        · split at h <;> cases h

variable (ctx err) in
theorem report_ok (attempts : Int) (h : s.Reports name compErr) :
    (s.reportCompensationFailure name ctx err compErr attempts).result = .ok () := by
  obtain ⟨hmsg, hsink⟩ := h
  obtain ⟨message, hm⟩ := Option.ne_none_iff_exists'.mp hmsg
  unfold reportCompensationFailure
  simp only [hm]
  cases hd : s.dlq with
  | none => rfl
  | some sink =>
    cases ha : sink name with
    | none => simp only [perform_bind, ha, result_after, result_pure]
    | some sinkErr =>
      have hlog : ¬ (s.logger && sinkErr.messageOf.isNone) = true := by
        intro hand
        rw [Bool.and_eq_true, Option.isNone_iff_eq_none] at hand
        exact hsink sink hd sinkErr ha hand.1 hand.2
      simp only [perform_bind, ha, if_neg hlog, result_after, result_pure]

theorem report_calls {attempts : Int} :
    (s.reportCompensationFailure name ctx err compErr attempts).trace.filter isCall = [] := by
  refine filter_eq_nil_iff.mpr fun e he => ?_
  obtain ⟨entry, rfl⟩ := report_trace he
  exact Bool.false_ne_true

variable (ctx err) in
theorem report_throws (attempts : Int) (h : ¬ s.Reports name compErr) :
    ∃ es, s.reportCompensationFailure name ctx err compErr attempts =
      after es (Traced.throw .typeError) := by
  unfold reportCompensationFailure
  cases hm : compErr.messageOf with
  | none => exact ⟨[], rfl⟩
  | some message =>
    have hsink : ¬ ∀ sink ∈ s.dlq, ∀ sinkErr ∈ sink name,
        s.logger = true → sinkErr.messageOf ≠ none := fun hall =>
      h ⟨by simp [hm], hall⟩
    push Not at hsink
    obtain ⟨sink, hd, sinkErr, ha, hlog, hnone⟩ := hsink
    have hand : (s.logger && sinkErr.messageOf.isNone) = true := by
      rw [Bool.and_eq_true, Option.isNone_iff_eq_none]
      exact ⟨hlog, hnone⟩
    simp only [Option.mem_def.mp hd, Option.mem_def.mp ha, if_pos hand, perform_bind]
    exact ⟨_, rfl⟩

/-- The list of steps agrees with what the saga finds under the names of its steps. -/
def Found (s : Saga C) (todo : List (SagaStep C)) : Prop :=
  ∀ step ∈ todo, s.undoOf step.name = step.compensate.map (step, ·)

theorem undone_cons_none (h : step.compensate = none) : undone err (step :: todo)
    snapshot = undone err todo snapshot := by
  rw [undone, h]

theorem undone_cons_some {undo : C → Thrown → Nat → C × Call} (h : step.compensate = some undo) :
    undone err (step :: todo) snapshot = (step, step.undo undo err snapshot) ::
      undone err todo (step.undo undo err snapshot).ctx := by
  rw [undone, h]

section Plan

variable {p : SagaStep C × Retried C} {plan : List (SagaStep C × Retried C)}

theorem compensatedOf_cons_ok (h : succeeded p = true) :
    compensatedOf (p :: plan) = p.1.name :: compensatedOf plan := by
  simp [compensatedOf, h]

theorem compensatedOf_cons_not (h : succeeded p = false) :
    compensatedOf (p :: plan) = compensatedOf plan := by
  simp [compensatedOf, h]

theorem failedOf_cons_ok (h : succeeded p = true) : failedOf (p :: plan) = failedOf plan := by
  simp [failedOf, h]

theorem failedOf_cons_not (h : succeeded p = false) :
    failedOf (p :: plan) = p.1.name :: failedOf plan := by
  simp [failedOf, h]

theorem undoCalls_cons :
    undoCalls (p :: plan) = compensateEvents p.1.name p.2.attempts ++ undoCalls plan :=
  flatMap_cons

end Plan

theorem compensateLoop_filter {names : List String} (hnd : names.Nodup) :
    s.compensateLoop ctx executed err names u =
      s.compensateLoop ctx executed err (names.filter (· ∉ u.compensated)) u := by
  induction names generalizing u with
  | nil => rfl
  | cons name names ih =>
    obtain ⟨hnot, hnd⟩ := nodup_cons.mp hnd
    by_cases hmem : name ∈ u.compensated
    · rw [filter_cons_of_neg (by simpa using hmem), compensateLoop, if_pos hmem]
      exact ih hnd
    · -- the name that is added to the list does not occur among the remaining ones
      have hsame : names.filter (· ∉ u.compensated ++ [name]) =
          names.filter (· ∉ u.compensated) := by
        refine filter_congr fun n hn => ?_
        have hne : n ≠ name := fun heq => hnot (heq ▸ hn)
        simp [hne]
      rw [filter_cons_of_pos (by simpa using hmem)]
      simp only [compensateLoop, if_neg hmem, ih hnd, hsame]

/-- The compensations of a plan, one after the other. -/
def undoPlan (s : Saga C) (ctx : C) (executed : List String) (err : Thrown)
    (error : Option String) : List (SagaStep C × Retried C) → Undone C → Prog C (Undone C)
  | [], u => pure u
  | (step, r) :: plan, u => after (compensateEvents step.name r.attempts) <| match r.outcome with
    | .resolved =>
      after [.saved (s.snapshot (if s.cloneable ctx then ctx else r.ctx) executed .compensating
          error (u.compensated ++ [step.name]))]
        (s.undoPlan ctx executed err error plan
          { u with snapshot := r.ctx, compensated := u.compensated ++ [step.name] })
    | .rejected compErr => do
      s.reportCompensationFailure step.name r.ctx err compErr step.cAttempts
      s.undoPlan ctx executed err error plan
        { u with snapshot := r.ctx, failed := u.failed ++ [step.name] }

/-- The loop runs through the compensations of the steps that it finds under their names. -/
theorem compensateLoop_plan (hs : s.Persists) (he : errorField err = some error)
    (hfound : s.Found todo) (hnd : (todo.map (·.name)).Nodup)
    (hdis : u.compensated.Disjoint (todo.map (·.name))) :
    s.compensateLoop ctx executed err (todo.map (·.name)) u =
      s.undoPlan ctx executed err error (undone err todo u.snapshot) u := by
  induction todo generalizing u with
  | nil => rfl
  | cons step todo ih =>
    have hfound' : s.Found todo := fun st hst => hfound st (mem_cons_of_mem step hst)
    have hfind := hfound step mem_cons_self
    obtain ⟨hnot, hnd⟩ := nodup_cons.mp hnd
    rw [map_cons, disjoint_cons_right] at hdis
    obtain ⟨hmem, hdis⟩ := hdis
    rw [map_cons, compensateLoop, if_neg hmem]
    cases hc : step.compensate with
    | none =>
      rw [hfind, hc, undone_cons_none hc]
      exact ih hfound' hnd hdis
    | some undo =>
      rw [hfind, hc, undone_cons_some hc, undoPlan]
      cases hr : (step.undo undo err u.snapshot).outcome with
      | resolved =>
        have hdis' : (u.compensated ++ [step.name]).Disjoint (todo.map (·.name)) :=
          disjoint_append_left.mpr ⟨hdis, singleton_disjoint.mpr hnot⟩
        have hloop := ih (u := { u with
          snapshot := (step.undo undo err u.snapshot).ctx
          compensated := u.compensated ++ [step.name] }) hfound' hnd hdis'
        simp only [Option.map_some, hr, persist_eq hs he, perform_bind, perform_attempt,
          after_bind, Traced.pure_bind, hloop]
      | rejected compErr =>
        have hloop := ih (u := { u with
          snapshot := (step.undo undo err u.snapshot).ctx
          failed := u.failed ++ [step.name] }) hfound' hnd hdis
        simp only [Option.map_some, hr, perform_bind, hloop]

section Plan

variable {plan : List (SagaStep C × Retried C)}

/-- A compensation of a plan has succeeded if its loop of retries ends so. -/
def Sound (plan : List (SagaStep C × Retried C)) : Prop :=
  ∀ p ∈ plan, succeeded p = true ↔ p.2.outcome = .resolved

theorem reported_cons_resolved {p : SagaStep C × Retried C} (hr : p.2.outcome = .resolved) :
    s.Reported (p :: plan) ↔ s.Reported plan := by
  rw [Reported, forall_mem_cons]
  exact and_iff_right fun compErr hrej => Outcome.noConfusion (hr.symm.trans hrej)

theorem reported_cons_rejected {p : SagaStep C × Retried C} (hr : p.2.outcome = .rejected compErr) :
    s.Reported (p :: plan) ↔ s.Reports p.1.name compErr ∧ s.Reported plan := by
  rw [Reported, forall_mem_cons, hr]
  exact and_congr_left' ⟨fun h => h compErr rfl, fun h _ hrej => by cases hrej; exact h⟩

open Classical in
variable (s ctx executed err error) in
/-- The compensations of a plan come to an end if every failure can be reported. The first one that
cannot be reported ends them. -/
theorem undoPlan_eq (hplan : Sound plan) (u : Undone C) :
    ∃ t c, s.undoPlan ctx executed err error plan u = after t (if s.Reported plan then pure {
        snapshot := c
        compensated := u.compensated ++ compensatedOf plan
        failed := u.failed ++ failedOf plan } else Traced.throw .typeError) ∧
      (s.Reported plan → t.filter isCall = undoCalls plan) := by
  induction plan generalizing u with
  | nil =>
    refine ⟨[], u.snapshot, ?_, fun _ => rfl⟩
    rw [if_pos (show s.Reported [] from fun p hp => absurd hp not_mem_nil)]
    simp [undoPlan, compensatedOf, failedOf]
  | cons p plan ih =>
    obtain ⟨hp, hplan⟩ := forall_mem_cons.mp hplan
    rw [undoPlan]
    cases hr : p.2.outcome with
    | resolved =>
      have hok := hp.mpr hr
      obtain ⟨t, c, hloop, hcalls⟩ := ih hplan { u with
        snapshot := p.2.ctx
        compensated := u.compensated ++ [p.1.name] }
      simp only [hloop, after_after, reported_cons_resolved hr]
      rw [compensatedOf_cons_ok hok, failedOf_cons_ok hok, undoCalls_cons]
      refine ⟨_, c, congrArg (after _) ?_, fun hrep => ?_⟩
      · rw [append_assoc, singleton_append]
      · rw [filter_append, filter_compensateEvents, ← hcalls hrep]
        rfl
    | rejected compErr =>
      have hno : succeeded p = false :=
        Bool.eq_false_iff.mpr fun hok => by simp [hp.mp hok] at hr
      by_cases hreports : s.Reports p.1.name compErr
      · have hreport := report_ok p.2.ctx err p.1.cAttempts hreports
        obtain ⟨t, c, hloop, hcalls⟩ := ih hplan { u with
          snapshot := p.2.ctx
          failed := u.failed ++ [p.1.name] }
        simp only [bind_ok hreport, hloop, after_after, reported_cons_rejected hr, hreports,
          true_and]
        rw [compensatedOf_cons_not hno, failedOf_cons_not hno, undoCalls_cons]
        refine ⟨_, c, congrArg (after _) ?_, fun hrep => ?_⟩
        · rw [append_assoc, singleton_append]
        · rw [filter_append, filter_append, filter_compensateEvents, report_calls, hcalls hrep,
            nil_append]
      · obtain ⟨es, hreport⟩ := report_throws p.2.ctx err p.1.cAttempts hreports
        have hnot : ¬ s.Reported (p :: plan) := fun h =>
          hreports ((reported_cons_rejected hr).mp h).1
        simp only [hreport, after_bind, throw_bind, after_after, if_neg hnot]
        exact ⟨_, ctx, rfl, fun h => absurd h hnot⟩

end Plan

theorem compensateLoop_saved {names : List String}
    (hx : .saved x ∈ (s.compensateLoop ctx executed err names u).trace) :
    s.Accepts x ∧ x.status = .compensating ∧ x.executed = executed ∧
      errorField err = some x.error := by
  induction names generalizing u with
  | nil => cases hx
  | cons name names ih =>
    rw [compensateLoop] at hx
    split at hx
    · exact ih hx
    · split at hx
      · exact ih hx
      · rw [perform_bind, trace_after] at hx
        rcases mem_append.mp hx with hx | hx
        · exact absurd hx saved_not_compensate
        · split at hx
          · rcases mem_trace_bind hx with hx | ⟨-, -, hx⟩
            · rcases mem_trace_attempt hx with hx | ⟨_, -, hx⟩ | ⟨_, -, hx⟩
              · obtain ⟨haccepts, error, he, rfl⟩ := persist_saved hx
                exact ⟨haccepts, rfl, rfl, he⟩
              · cases hx
              · cases hx
            · exact ih hx
          · rcases mem_trace_bind hx with hx | ⟨-, -, hx⟩
            · obtain ⟨entry, hentry⟩ := report_trace hx
              cases hentry
            · exact ih hx

/-! ## The whole run -/

theorem found_of_nodup (hnd : s.names.Nodup) (hsub : todo ⊆ s.steps) : s.Found todo := by
  intro step hstep
  have hsome : (s.steps.find? (·.name == step.name)).isSome :=
    find?_isSome.mpr ⟨step, hsub hstep, beq_self_eq_true step.name⟩
  obtain ⟨found, hfind⟩ := Option.isSome_iff_exists.mp hsome
  have hname : (found.name == step.name) = true := by
    simpa using find?_some hfind
  have heq : found = step := inj_on_of_nodup_map hnd (mem_of_find?_eq_some hfind)
    (hsub hstep) (eq_of_beq hname)
  rw [undoOf, hfind, heq]
  rfl

/-- The steps `pre` that are still to be compensated when those of the names in `done` are. -/
def todoOf (pre : List (SagaStep C)) (done : List String) : List (SagaStep C) :=
  pre.reverse.filter (·.name ∉ done)

theorem nodup_todoOf (h : (pre.map (·.name)).Nodup) (done : List String) :
    ((todoOf pre done).map (·.name)).Nodup := by
  refine Nodup.sublist (Sublist.map _ filter_sublist) ?_
  rw [map_reverse]
  exact nodup_reverse.mpr h

theorem disjoint_todoOf (pre : List (SagaStep C)) (done : List String) :
    done.Disjoint ((todoOf pre done).map (·.name)) := by
  intro name hd hm
  obtain ⟨step, hstep, rfl⟩ := mem_map.mp hm
  exact absurd hd (by simpa using of_mem_filter hstep)

theorem settle_eq (hs : s.Persists) (he : errorField err = some error) (u : Undone C) :
    s.settle ctx executed err u = after
      [.saved (s.snapshot ctx executed
        (if u.failed = [] then .compensated else .compensationFailed) error u.compensated)]
      (pure {
        status := .failed
        error := some err
        executed
        compensated := u.compensated
        compensationFailed := if u.failed = [] then none else some u.failed
        sagaId := s.sagaId }) := by
  unfold settle
  by_cases h : u.failed = []
  · rw [if_neg (not_not_intro h), if_pos h, if_pos h, persist_eq hs he, perform_bind]
  · rw [if_pos h, if_neg h, if_neg h, persist_eq hs he, perform_bind]

theorem mem_undone {p : SagaStep C × Retried C} (h : p ∈ undone err todo snapshot) :
    p.1 ∈ todo ∧ ∃ undo ∈ p.1.compensate, ∃ snapshot, p.2 = p.1.undo undo err snapshot := by
  induction todo generalizing snapshot with
  | nil => cases h
  | cons step todo ih =>
    cases hc : step.compensate with
    | none => exact (ih (undone_cons_none hc ▸ h)).imp_left (mem_cons_of_mem step)
    | some undo =>
      rw [undone_cons_some hc] at h
      rcases mem_cons.mp h with rfl | h
      · exact ⟨mem_cons_self, undo, hc, snapshot, rfl⟩
      · exact (ih h).imp_left (mem_cons_of_mem step)

theorem undone_sound : Sound (undone err todo snapshot) := by
  rintro ⟨step, r⟩ hp
  obtain ⟨-, undo, -, snapshot', heq⟩ := mem_undone hp
  dsimp only at heq
  subst heq
  exact succeeded_iff

theorem compensate_plan (hs : s.Persists) (he : errorField err = some error)
    (hfound : s.Found pre) (hnd : (pre.map (·.name)).Nodup) (done : List String) :
    s.compensate ctx (pre.map (·.name)) err done =
      s.undoPlan ctx (pre.map (·.name)) err error (undone err (todoOf pre done) ctx)
        { snapshot := ctx, compensated := done, failed := [] } := by
  rw [compensate, ← map_reverse,
    compensateLoop_filter (map_reverse ▸ nodup_reverse.mpr hnd), filter_map]
  refine compensateLoop_plan hs he (fun step hstep => ?_) (nodup_todoOf hnd done)
    (disjoint_todoOf pre done)
  exact hfound step (mem_reverse.mp (mem_of_mem_filter hstep))

open Classical in
variable (ctx) in
theorem fail_eq (hs : s.Persists) (hfound : s.Found pre) (hnd : (pre.map (·.name)).Nodup)
    (done : List String) {plan : List (SagaStep C × Retried C)}
    (hplan : undone err (todoOf pre done) ctx = plan) :
    ∃ t, s.fail ctx (pre.map (·.name)) err done = after t
      (if errorField err ≠ none ∧ s.Reported plan then pure {
        status := .failed
        error := some err
        executed := pre.map (·.name)
        compensated := done ++ compensatedOf plan
        compensationFailed := if failedOf plan = [] then none else some (failedOf plan)
        sagaId := s.sagaId } else Traced.throw .typeError) ∧
      (errorField err ≠ none ∧ s.Reported plan → ∃ t' x, t = t' ++ [SagaEvent.saved x] ∧
        t'.filter isCall = undoCalls plan ∧
        x.status = if failedOf plan = [] then .compensated else .compensationFailed) := by
  subst hplan
  unfold fail
  cases he : errorField err with
  | none =>
    rw [persist_throws hs he, throw_bind, if_neg fun h => h.1 rfl]
    exact ⟨[], rfl, fun h => absurd rfl h.1⟩
  | some error =>
    obtain ⟨t, c, hloop, hcalls⟩ := undoPlan_eq s ctx (pre.map (·.name)) err error undone_sound
      { snapshot := ctx, compensated := done, failed := [] }
    rw [persist_eq hs he, perform_bind, compensate_plan hs he hfound hnd, hloop, after_bind,
      after_after]
    by_cases hrep : s.Reported (undone err (todoOf pre done) ctx)
    · rw [if_pos hrep, Traced.pure_bind, settle_eq hs he, after_after,
        if_pos (And.intro (Option.some_ne_none error) hrep)]
      refine ⟨_, rfl, fun _ => ⟨_ :: t, _, rfl, ?_, rfl⟩⟩
      rw [filter_cons_of_neg (by simp [isCall])]
      exact hcalls hrep
    · rw [if_neg hrep, throw_bind, if_neg fun h => hrep h.2]
      exact ⟨_, rfl, fun h => absurd h.2 hrep⟩

variable (err) in
theorem undone_steps (todo : List (SagaStep C)) (snapshot : C) :
    (undone err todo snapshot).map (·.1) = todo.filter (·.compensate.isSome) := by
  induction todo generalizing snapshot with
  | nil => rfl
  | cons step todo ih =>
    cases hc : step.compensate with
    | none => rw [undone_cons_none hc, ih, filter_cons_of_neg (by simp [hc])]
    | some undo => rw [undone_cons_some hc, map_cons, ih,
        filter_cons_of_pos (by simp [hc])]

variable (err todo snapshot) in
theorem undone_names :
    ((undone err todo snapshot).map (·.1.name)).Sublist (todo.map (·.name)) := by
  have hmap := congrArg (map (·.name)) (undone_steps err todo snapshot)
  rw [map_map] at hmap
  exact hmap ▸ Sublist.map _ filter_sublist

end Lemmas

/-! ## Exact compensation -/

/-- A step that settles in one way, and its compensation in another. -/
def undoable (name : String) (execute compensate : Outcome) : SagaStep Unit where
  name := name
  execute ctx _ := (ctx, { outcome := execute })
  compensate := some fun ctx _ _ => (ctx, { outcome := compensate })

/-- The card is charged after the stock is reserved, and the charge fails with `err`. -/
def order (err : Thrown) (release : Outcome) : Saga Unit where
  steps := [undoable "reserve" .resolved release, undoable "charge" (.rejected err) .resolved]
  sagaId := "order:1"
  store := some {}

end NevoMessaging.Saga
