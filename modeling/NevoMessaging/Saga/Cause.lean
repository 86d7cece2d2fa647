import NevoMessaging.Saga.Crash

/-!
# The error of a saga that is resumed

The live saga turns the error of a step into its message when it stores a snapshot. A saga that is
resumed gets this message back as the field of a record, and turns the record into a text again
when it stores the next snapshot.

Results:
1. `forwardLoop_live`: what a saga stores until it fails, and what it stores then.
2. `Stage`: how far the error has come after any number of crashes.
3. `cause_kept_iff`: when the message survives.
-/

namespace NevoMessaging

open List
open SagaEvent (saved execute)

variable {C : Type}

theorem retryLoop_lastErr (timeoutMs : Option Int) (fn : C → Nat → C × Call)
    {left attempt : Nat} {ctx : C} {err₀ err : Thrown}
    (h : (retryLoop timeoutMs fn left attempt ctx err₀).outcome = .rejected err) :
    (retryLoop timeoutMs fn left attempt ctx err₀).attempts.getLast? = some (.rejected err) ∨
      ((retryLoop timeoutMs fn left attempt ctx err₀).attempts = [] ∧ err = err₀) := by
  induction left generalizing attempt ctx err₀ with
  | zero =>
    cases h
    exact .inr ⟨rfl, rfl⟩
  | succ left ih =>
    rw [retryLoop] at h ⊢
    rcases ho : withTimeout timeoutMs (fn ctx attempt).2 with ⟨outcome, listeners⟩
    cases outcome with
    | resolved => simp [ho] at h
    | rejected e =>
      simp only [ho] at h ⊢
      rcases ih h with hlast | ⟨hnil, rfl⟩
      · exact .inl (by rw [getLast?_cons, hlast]; rfl)
      · exact .inl (by rw [hnil]; rfl)

namespace Saga

open Traced

/-- The error that a resumed saga stores, given the one that it has loaded. -/
def restored : Option String → Option String
  | some _ => some "[object Object]"
  | none => none

theorem errorField_stored (error : Option String) :
    errorField (storedError error) = some (restored error) := by
  cases error <;> rfl

theorem restored_restored (error : Option String) : restored (restored error) = restored error := by
  cases error <;> rfl

section Shape

variable {s : Saga C} {ctx : C} {executed : List String} {err : Thrown} {done : List String}
  {x : SagaSnapshot C}

theorem settle_saved {u : Undone C} (hx : .saved x ∈ (s.settle ctx executed err u).trace) :
    s.Accepts x ∧ x.status ≠ .pending ∧ errorField err = some x.error := by
  unfold settle at hx
  split at hx <;> rcases mem_trace_bind hx with hx | ⟨_, -, hx⟩
  · obtain ⟨haccepts, error, he, rfl⟩ := persist_saved hx
    exact ⟨haccepts, by simp [snapshot], he⟩
  · cases hx
  · obtain ⟨haccepts, error, he, rfl⟩ := persist_saved hx
    exact ⟨haccepts, by simp [snapshot], he⟩
  · cases hx

theorem fail_saved (hx : .saved x ∈ (s.fail ctx executed err done).trace) :
    s.Accepts x ∧ x.status ≠ .pending ∧ errorField err = some x.error := by
  unfold fail at hx
  rcases mem_trace_bind hx with hx | ⟨_, -, hx⟩
  · obtain ⟨haccepts, error, he, rfl⟩ := persist_saved hx
    exact ⟨haccepts, by simp [snapshot], he⟩
  · rcases mem_trace_bind hx with hx | ⟨u, -, hx⟩
    · obtain ⟨haccepts, hstatus, -, he⟩ := compensateLoop_saved hx
      exact ⟨haccepts, by simp [hstatus], he⟩
    · exact settle_saved hx

theorem succeed_saved (hx : .saved x ∈ (s.succeed ctx executed).trace) :
    s.Accepts x ∧ x.status = .success := by
  unfold succeed at hx
  rcases mem_trace_bind hx with hx | ⟨_, -, hx⟩
  · obtain ⟨haccepts, error, -, rfl⟩ := persist_saved hx
    exact ⟨haccepts, rfl⟩
  · rcases mem_trace_bind hx with hx | ⟨_, -, hx⟩
    · cases discard_trace hx
    · cases hx

theorem forwardLoop_accepts {rest : List (SagaStep C)} {position : Nat}
    (hx : .saved x ∈ (s.forwardLoop rest position ctx executed).trace) : s.Accepts x := by
  induction rest generalizing position ctx executed with
  | nil => exact (succeed_saved hx).1
  | cons step rest ih =>
    by_cases hmem : step.name ∈ executed
    · rw [forwardLoop_skip hmem] at hx
      exact ih hx
    · cases hr : (step.run ctx).outcome with
      | rejected err =>
        rw [forwardLoop_rejected hmem hr, trace_after] at hx
        rcases mem_append.mp hx with hx | hx
        · exact absurd hx saved_not_execute
        · exact (fail_saved hx).1
      | resolved =>
        rw [forwardLoop_resolved hmem hr, trace_after] at hx
        rcases mem_append.mp hx with hx | hx
        · exact absurd hx saved_not_execute
        · rcases mem_trace_attempt hx with hx | ⟨_, -, hx⟩ | ⟨_, -, hx⟩
          · exact (persist_saved hx).1
          · exact (fail_saved hx).1
          · exact ih hx

theorem run_accepts (hx : .saved x ∈ (s.run ctx).trace) : s.Accepts x := by
  unfold run at hx
  rcases mem_trace_bind hx with hx | ⟨_, -, hx⟩
  · exact (persist_saved hx).1
  · exact forwardLoop_accepts hx

theorem resume_accepts {y : SagaSnapshot C} {type : Option String}
    (hx : .saved x ∈ (resume (some y) type s).trace) : s.Accepts x := by
  by_cases hpending : y.status = .pending
  · rw [resume_pending hpending] at hx
    have haccepts := forwardLoop_accepts hx
    exact haccepts
  · by_cases hcomp : y.status = .compensating
    · rw [resume_compensating hcomp] at hx
      have haccepts := (fail_saved hx).1
      exact haccepts
    · obtain ⟨err, hthrow⟩ := resume_terminal s type hpending hcomp
      rw [hthrow] at hx
      cases hx

/-- The store in memory keeps a copy, and throws if the context cannot be copied. -/
def InMemory (cloneable : C → Bool) (s : Saga C) : Prop :=
  s.cloneable = cloneable ∧
    ∃ store, s.store = some store ∧ ∀ x, store.save x = none ↔ cloneable x.ctx

section Memory

variable {cloneable : C → Bool} (hs : s.InMemory cloneable)
include hs

theorem InMemory.retype (type : String) : { s with type := type }.InMemory cloneable := hs

theorem InMemory.accepts : s.Accepts x ↔ cloneable x.ctx := by
  obtain ⟨-, store, hstore, hsave⟩ := hs
  rw [← hsave]
  constructor
  · rintro ⟨store', hstore', h⟩
    cases hstore.symm.trans hstore'
    exact h
  · exact fun h => ⟨store, hstore, h⟩

theorem InMemory.persist_eq {error : Option String} (he : errorField err = some error)
    (hctx : cloneable ctx) (status : SagaStatus) :
    s.persist ctx executed status err done =
      perform [.saved (s.snapshot ctx executed status error done)] := by
  obtain ⟨-, store, hstore, hsave⟩ := hs
  unfold persist
  simp only [hstore, he]
  rw [(hsave (s.snapshot ctx executed status error done)).mpr hctx]

variable (executed done) in
theorem InMemory.persist_throws (hctx : ¬ (errorField err ≠ none ∧ cloneable ctx))
    (status : SagaStatus) :
    ∃ e, s.persist ctx executed status err done = Traced.throw e := by
  obtain ⟨-, store, hstore, hsave⟩ := hs
  unfold persist
  simp only [hstore]
  cases he : errorField err with
  | none => exact ⟨_, rfl⟩
  | some error =>
    have hrefused : store.save (s.snapshot ctx executed status error done) ≠ none := fun h =>
      hctx ⟨by simp [he], (hsave _).mp h⟩
    obtain ⟨e, he'⟩ := Option.ne_none_iff_exists'.mp hrefused
    exact ⟨e, by simp only [he']⟩

variable (executed done) in
theorem fail_shape {error : Option String} (he : errorField err = some error)
    (hctx : cloneable ctx) : ∃ y t,
    (s.fail ctx executed err done).trace = .saved y :: t ∧ y.status = .compensating := by
  unfold fail
  rw [hs.persist_eq he hctx, perform_bind, trace_after]
  exact ⟨_, _, rfl, rfl⟩

theorem fail_silent (hctx : ¬ (errorField err ≠ none ∧ cloneable ctx)) :
    (s.fail ctx executed err done).trace = [] := by
  obtain ⟨e, he⟩ := hs.persist_throws executed done hctx .compensating
  unfold fail
  rw [he, throw_bind, trace_throw]

end Memory

/-- No compensating snapshot is among the events. -/
def Undisturbed (t : List (SagaEvent C)) : Prop := ∀ x, .saved x ∈ t → x.status ≠ .compensating

/-- The events end with a snapshot, or there are none. -/
def AtSnapshot (t : List (SagaEvent C)) : Prop := t = [] ∨ ∃ t' x, t = t' ++ [saved x]

/-- If the last of the events is a rejected call, its error is the one that is stored. -/
def CauseOf (t : List (SagaEvent C)) (error : Option String) : Prop :=
  ∀ t' position n err, t = t' ++ [execute position n (.rejected err)] →
    errorField err = some error

/-- The events of a saga that is not compensating yet when it starts: nothing goes wrong, or a step
fails and its error is stored from then on. -/
inductive Live (t : List (SagaEvent C)) : Prop
  | quiet : Undisturbed t → Live t
  | failing {a f : List (SagaEvent C)} {y : SagaSnapshot C} {error : Option String} :
    t = a ++ saved y :: f → Undisturbed a → y.status = .compensating →
    (∀ hist, AtSnapshot hist → CauseOf (hist ++ a) error) →
    (∀ x, .saved x ∈ .saved y :: f → x.status ≠ .pending ∧ x.error = error) → Live t

variable {t t' : List (SagaEvent C)} {cloneable : C → Bool}

theorem Undisturbed.append (h : Undisturbed t) (h' : Undisturbed t') : Undisturbed (t ++ t') :=
  fun x hx => (mem_append.mp hx).elim (h x) (h' x)

theorem undisturbed_execute (position : Nat) (outcomes : List Outcome) :
    Undisturbed (executeEvents position outcomes : List (SagaEvent C)) :=
  fun _ hx => absurd hx saved_not_execute

theorem executeEvents_concat (position : Nat) (outcomes : List Outcome) (o : Outcome) :
    (executeEvents position (outcomes ++ [o]) : List (SagaEvent C)) =
      executeEvents position outcomes ++ [execute position (outcomes.length + 1) o] :=
  mapIdx_concat

theorem causeOf_run {step : SagaStep C} {error : Option String} {hist : List (SagaEvent C)}
    (hr : (step.run ctx).outcome = .rejected err) (he : errorField err = some error)
    (hhist : AtSnapshot hist) (position : Nat) :
    CauseOf (hist ++ executeEvents position (step.run ctx).attempts) error := by
  intro t' position' n err' heq
  rcases retryLoop_lastErr step.timeoutMs step.execute hr with hlast | ⟨hnil, -⟩
  · obtain ⟨os, hos⟩ := getLast?_eq_some_iff.mp hlast
    rw [show (step.run ctx).attempts = os ++ [.rejected err] from hos, executeEvents_concat,
      ← append_assoc] at heq
    obtain ⟨-, hsame⟩ := append_inj' heq rfl
    cases hsame
    exact he
  · rw [show (step.run ctx).attempts = [] from hnil, executeEvents, mapIdx_nil,
      append_nil] at heq
    rcases hhist with rfl | ⟨t, x, rfl⟩
    · simp at heq
    · obtain ⟨-, hsame⟩ := append_inj' heq rfl
      cases hsame

theorem Live.after_snapshot (h : Live t) (ht' : Undisturbed t') (hx : x.status ≠ .compensating) :
    Live (t' ++ saved x :: t) := by
  have hfront : Undisturbed (t' ++ [saved x]) := ht'.append fun y hy => by
    cases mem_singleton.mp hy
    exact hx
  rw [append_cons]
  cases h with
  | quiet h => exact .quiet (hfront.append h)
  | @failing a f y error ht ha hy hcause hf =>
    refine .failing (by rw [ht, ← append_assoc]) (hfront.append ha)
      hy (fun hist hhist => ?_) hf
    rw [← append_assoc]
    exact hcause _ (.inr ⟨hist ++ t', x, (append_assoc ..).symm⟩)

theorem live_fail (hs : s.InMemory cloneable) (ht : Undisturbed t)
    (hcause : ∀ error, errorField err = some error → ∀ hist, AtSnapshot hist →
      CauseOf (hist ++ t) error) :
    Live (t ++ (s.fail ctx executed err done).trace) := by
  by_cases hctx : errorField err ≠ none ∧ cloneable ctx
  · obtain ⟨error, he⟩ := Option.ne_none_iff_exists'.mp hctx.1
    obtain ⟨y, f, htrace, hy⟩ := fail_shape executed done hs he hctx.2
    refine .failing (congrArg (t ++ ·) htrace) ht hy (hcause error he) fun x hx => ?_
    obtain ⟨-, hstatus, herror⟩ := fail_saved (htrace ▸ hx)
    exact ⟨hstatus, Option.some_inj.mp (herror.symm.trans he)⟩
  · rw [fail_silent hs hctx, append_nil]
    exact .quiet ht

theorem forwardLoop_live (hs : s.InMemory cloneable) (rest : List (SagaStep C)) (position : Nat)
    (ctx : C) (executed : List String) :
    Live (s.forwardLoop rest position ctx executed).trace := by
  induction rest generalizing position ctx executed with
  | nil => exact .quiet fun x hx => by simp [(succeed_saved hx).2]
  | cons step rest ih =>
    by_cases hmem : step.name ∈ executed
    · rw [forwardLoop_skip hmem]
      exact ih (position + 1) ctx executed
    · cases hr : (step.run ctx).outcome with
      | rejected err =>
        rw [forwardLoop_rejected hmem hr, trace_after]
        exact live_fail hs (undisturbed_execute _ _) fun error he hist hhist =>
          causeOf_run hr he hhist position
      | resolved =>
        rw [forwardLoop_resolved hmem hr, trace_after]
        by_cases hctx : cloneable (step.run ctx).ctx
        · rw [hs.persist_eq errorField_undefined hctx, perform_attempt, trace_after]
          exact (ih (position + 1) _ _).after_snapshot (undisturbed_execute _ _)
            (by simp [snapshot])
        · -- the snapshot of the failure cannot be stored either
          obtain ⟨e, he⟩ := hs.persist_throws _ _ (fun h => hctx h.2) .pending
          rw [he, attempt_error (result_throw e), trace_throw, after_nil,
            fail_silent hs fun h => hctx h.2, append_nil]
          exact .quiet (undisturbed_execute _ _)

theorem run_live (hs : s.InMemory cloneable) (ctx : C) : Live (s.run ctx).trace := by
  have hnil : Undisturbed ([] : List (SagaEvent C)) := fun x hx => absurd hx not_mem_nil
  unfold run
  by_cases hctx : cloneable ctx
  · rw [hs.persist_eq errorField_undefined hctx, perform_bind, trace_after]
    exact (forwardLoop_live hs s.steps 0 ctx []).after_snapshot hnil (by simp [snapshot])
  · obtain ⟨e, he⟩ := hs.persist_throws _ _ (fun h => hctx h.2) .pending
    rw [he, throw_bind]
    exact .quiet hnil

end Shape

/-! ## Over any number of crashes -/

/-- Where the error of a saga stands. `hist` are the events up to the last crash and `t` those of
the process that runs now. -/
inductive Stage (hist : List (SagaEvent C)) (resumed : List (SagaSnapshot C))
    (t : List (SagaEvent C)) : Prop
  /-- No compensating snapshot was stored before the last crash. -/
  | live : Undisturbed hist → AtSnapshot hist → (∀ x ∈ resumed, x.status ≠ .compensating) →
    Live t → Stage hist resumed t
  /-- The process that failed has also come to an end. -/
  | ended {a f : List (SagaEvent C)} {y : SagaSnapshot C} {error : Option String} :
    hist = a ++ saved y :: f → Undisturbed a → y.status = .compensating →
      CauseOf a error →
    (∀ x, .saved x ∈ .saved y :: f → x.error = error) →
    (∀ x ∈ resumed, x.status ≠ .compensating) → t = [] → Stage hist resumed t
  /-- The compensations were taken up again. -/
  | again {a f : List (SagaEvent C)} {y : SagaSnapshot C} {error : Option String} :
    hist = a ++ saved y :: f → Undisturbed a → y.status = .compensating →
      CauseOf a error →
    (∀ x, .saved x ∈ .saved y :: f → x.error = error ∨ x.error = restored error) →
    (∃ x ∈ resumed, x.status = .compensating) →
    (∀ x, .saved x ∈ t → x.status ≠ .pending ∧ x.error = restored error) →
    (∃ x, .saved x ∈ f ++ t ∧ x.error = restored error) → Stage hist resumed t

section Stages

variable {s : Saga C} {ctx : C} {hist t : List (SagaEvent C)} {resumed : List (SagaSnapshot C)}
  {x : SagaSnapshot C} {type : Option String} {cloneable : C → Bool}

theorem resume_live (hs : s.InMemory cloneable) (hx : x.status ≠ .compensating) :
    Live (resume (some x) type s).trace := by
  by_cases hpending : x.status = .pending
  · rw [resume_pending hpending]
    exact forwardLoop_live (hs.retype _) _ 0 x.ctx x.executed
  · obtain ⟨err, hthrow⟩ := resume_terminal s type hpending hx
    rw [hthrow]
    exact .quiet fun y hy => absurd hy not_mem_nil

variable (type) in
theorem resume_restores (hs : s.InMemory cloneable) (hctx : cloneable x.ctx)
    (hx : x.status = .compensating) :
    (∃ y, .saved y ∈ (resume (some x) type s).trace) ∧
      ∀ y, .saved y ∈ (resume (some x) type s).trace →
        y.status ≠ .pending ∧ y.error = restored x.error := by
  rw [resume_compensating hx]
  have he := errorField_stored x.error
  obtain ⟨y, t, htrace, -⟩ := fail_shape x.executed (x.compensated.getD [])
    (hs.retype ((type <|> x.type).getD defaultSagaType)) he hctx
  refine ⟨⟨y, htrace ▸ mem_cons_self⟩, fun z hz => ?_⟩
  obtain ⟨-, hstatus, herror⟩ := fail_saved hz
  exact ⟨hstatus, Option.some_inj.mp (herror.symm.trans he)⟩

theorem stage_live (hs : s.InMemory cloneable) (hctx : cloneable x.ctx) (hhist : Undisturbed hist)
    (hat : AtSnapshot hist) (hresumed : ∀ x ∈ resumed, x.status ≠ .compensating) (ht : Live t)
    {t' : List (SagaEvent C)} (hcut : t' ++ [saved x] <+: t) :
    Stage (hist ++ (t' ++ [saved x])) (resumed ++ [x])
    (resume (some x) type s).trace := by
  have hat' : AtSnapshot (hist ++ (t' ++ [saved x])) := .inr ⟨hist ++ t', x, by simp⟩
  have hsnoc (hx : x.status ≠ .compensating) : ∀ z ∈ resumed ++ [x], z.status ≠ .compensating := by
    intro z hz
    rcases mem_append.mp hz with hz | hz
    · exact hresumed z hz
    · rw [mem_singleton.mp hz]
      exact hx
  have hquiet (hu : Undisturbed (t' ++ [saved x])) :
      Stage (hist ++ (t' ++ [saved x])) (resumed ++ [x])
        (resume (some x) type s).trace := by
    have hx := hu x (by simp)
    exact .live (hhist.append hu) hat' (hsnoc hx) (resume_live hs hx)
  cases ht with
  | quiet hu => exact hquiet fun z hz => hu z (hcut.subset hz)
  | @failing a f y error ht ha hy hcause hf =>
    subst ht
    -- the crash comes before the first compensating snapshot, or after it
    rcases prefix_or_prefix_of_prefix hcut (prefix_append a _) with hle | ⟨g, hg⟩
    · exact hquiet fun z hz => ha z (hle.subset hz)
    · cases g with
      | nil =>
        rw [append_nil] at hg
        exact hquiet (hg ▸ ha)
      | cons e g =>
        rw [← hg, prefix_append_right_inj, cons_prefix_cons] at hcut
        obtain ⟨rfl, hg'⟩ := hcut
        have hin : .saved x ∈ .saved y :: g := by
          have hlast : (.saved y :: g : List (SagaEvent C)).getLast? = some (.saved x) := by
            have := congrArg getLast? hg
            rw [getLast?_concat, getLast?_append_of_ne_nil _ (cons_ne_nil _ _)]
              at this
            exact this
          exact mem_of_getLast? hlast
        have hall : ∀ z, .saved z ∈ .saved y :: g → z.status ≠ .pending ∧ z.error = error :=
          fun z hz => hf z (cons_subset_cons _ hg'.subset hz)
        have hhist' : hist ++ (t' ++ [saved x]) = (hist ++ a)
          ++ saved y :: g := by
          rw [← hg, append_assoc]
        by_cases hx : x.status = .compensating
        · obtain ⟨⟨z, hz⟩, hrest⟩ := resume_restores type hs hctx hx
          rw [(hall x hin).2] at hrest
          exact .again hhist' (hhist.append ha) hy (hcause hist hat)
            (fun z hz => .inl (hall z hz).2) ⟨x, by simp, hx⟩ hrest
            ⟨z, mem_append_right g hz, (hrest z hz).2⟩
        · obtain ⟨err, hthrow⟩ := resume_terminal s type (hall x hin).1 hx
          rw [hthrow]
          exact .ended hhist' (hhist.append ha) hy (hcause hist hat) (fun z hz => (hall z hz).2)
            (hsnoc hx) rfl

theorem stage_again (hs : s.InMemory cloneable) (hctx : cloneable x.ctx) {a f : List (SagaEvent C)}
    {y : SagaSnapshot C}
    {error : Option String} (hhist : hist = a ++ saved y :: f) (ha : Undisturbed a)
    (hy : y.status = .compensating) (hcause : CauseOf a error)
    (hf : ∀ x, .saved x ∈ .saved y :: f → x.error = error ∨ x.error = restored error)
    (hresumed : ∃ x ∈ resumed, x.status = .compensating)
    (ht : ∀ x, .saved x ∈ t → x.status ≠ .pending ∧ x.error = restored error)
    {t' : List (SagaEvent C)} (hcut : t' ++ [saved x] <+: t) :
    Stage (hist ++ (t' ++ [saved x])) (resumed ++ [x])
    (resume (some x) type s).trace := by
  have hin : .saved x ∈ t := hcut.subset (by simp)
  have hx := ht x hin
  have hhist' : hist ++ (t' ++ [saved x]) = a ++ saved y
    :: (f ++ (t' ++ [saved x])) := by
    rw [hhist, append_assoc, cons_append]
  have hf' : ∀ z, .saved z ∈ .saved y :: (f ++ (t' ++ [saved x])) →
      z.error = error ∨ z.error = restored error := by
    intro z hz
    rw [← cons_append] at hz
    rcases mem_append.mp hz with hz | hz
    · exact hf z hz
    · exact .inr (ht z (hcut.subset hz)).2
  have hresumed' : ∃ z ∈ resumed ++ [x], z.status = .compensating := by
    obtain ⟨z, hz, hstatus⟩ := hresumed
    exact ⟨z, mem_append_left _ hz, hstatus⟩
  refine .again hhist' ha hy hcause hf' hresumed' ?_ ⟨x, by simp, hx.2⟩
  by_cases hcomp : x.status = .compensating
  · have hrest := (resume_restores type hs hctx hcomp).2
    rw [hx.2, restored_restored] at hrest
    exact hrest
  · obtain ⟨err, hthrow⟩ := resume_terminal s type hx.1 hcomp
    rw [hthrow]
    exact fun z hz => absurd hz not_mem_nil

theorem Session.copied {c : Prog C SagaResult} (hs : s.InMemory cloneable)
    (h : Session (InMemory cloneable) s ctx hist resumed c) (hx : .saved x ∈ c.trace) :
    cloneable x.ctx := by
  cases h with
  | run => exact hs.accepts.mp (run_accepts hx)
  | resume _ _ hs' => exact hs'.accepts.mp (resume_accepts hx)

theorem Session.stage {c : Prog C SagaResult} (hs : s.InMemory cloneable)
    (h : Session (InMemory cloneable) s ctx hist resumed c) : Stage hist resumed c.trace := by
  induction h with
  | run =>
    exact .live (fun x hx => absurd hx not_mem_nil) (.inl rfl)
      (fun x hx => absurd hx not_mem_nil) (run_live hs ctx)
  | resume h hcut hs' ih =>
    have hctx := h.copied hs (hcut.subset (mem_append_right _ mem_cons_self))
    cases ih with
    | live hhist hat hresumed ht => exact stage_live hs' hctx hhist hat hresumed ht hcut
    | ended _ _ _ _ _ _ ht =>
      rw [ht] at hcut
      exact absurd (prefix_nil.mp hcut) (by simp)
    | again hhist ha hy hcause hf hresumed ht _ =>
      exact stage_again hs' hctx hhist ha hy hcause hf hresumed ht hcut

end Stages

/-! ## The message of the error -/

/-- The saga has failed with an error whose message is `m`: the last call before the first
compensating snapshot was rejected with this error. -/
def FailedWith (m : String) (t : List (SagaEvent C)) : Prop :=
  ∃ t' position n y f, t = t' ++ execute position n (.rejected (.error m))
    :: .saved y :: f ∧
    y.status = .compensating ∧ Undisturbed t'

/-- Every snapshot from a compensating one on has the message `m`. -/
def MessageKept (m : String) (t : List (SagaEvent C)) : Prop :=
  ∀ a y f, t = a ++ saved y :: f → y.status = .compensating →
    ∀ x, .saved x ∈ .saved y :: f → x.error = some m

section First

variable {t a f a' f' : List (SagaEvent C)} {y y' : SagaSnapshot C}

theorem first_le (h : a ++ saved y :: f = a' ++ saved y' :: f')
    (ha : Undisturbed a) (hy' : y'.status = .compensating) : .saved y' :: f' <:+ .saved y :: f := by
  rcases append_eq_append_iff.mp h with ⟨b, -, hb⟩ | ⟨b, hb, hrest⟩
  · exact ⟨b, hb.symm⟩
  · cases b with
    | nil => exact ⟨[], hrest⟩
    | cons e b =>
      obtain ⟨rfl, -⟩ := cons_eq_cons.mp hrest
      exact absurd hy' (ha y' (by simp [hb]))

theorem first_unique (h : a ++ saved y :: f = a' ++ saved y' :: f')
    (ha : Undisturbed a)
    (ha' : Undisturbed a') (hy : y.status = .compensating) (hy' : y'.status = .compensating) :
    a = a' := by
  have hle := (first_le h ha hy').length_le
  have hge := (first_le h.symm ha' hy).length_le
  exact (append_inj' h (Nat.le_antisymm hge hle)).1

theorem messageKept_iff {m : String} (h : t = a ++ saved y :: f) (ha : Undisturbed a)
    (hy : y.status = .compensating) :
    MessageKept m t ↔ ∀ x, .saved x ∈ .saved y :: f → x.error = some m := by
  constructor
  · exact fun hkept => hkept a y f h hy
  · intro hall a' y' f' heq hy' x hx
    exact hall x ((first_le (h.symm.trans heq) ha hy').subset hx)

theorem FailedWith.error {m : String} {error : Option String} (hm : FailedWith m t)
    (h : t = a ++ saved y :: f) (ha : Undisturbed a) (hy : y.status = .compensating)
    (hcause : CauseOf a error) : error = some m := by
  obtain ⟨t', position, n, z, g, ht, hz, ht'⟩ := hm
  rw [append_cons] at ht
  have hcall : Undisturbed (t' ++ [execute position n (.rejected (.error m))]) :=
    ht'.append fun x hx => by cases mem_singleton.mp hx
  have hsame := first_unique (h.symm.trans ht) ha hcall hy hz
  exact (Option.some_inj.mp (hcause _ _ _ _ hsame)).symm

end First

/-- The message of the error survives any number of crashes if and only if no process has taken up
a compensating snapshot, or the message is the text of a record anyway. -/
theorem cause_kept_iff {hist : List (SagaEvent C)} {resumed : List (SagaSnapshot C)}
    {c : Prog C SagaResult} {cloneable : C → Bool} (s : Saga C) (hs : s.InMemory cloneable)
    (ctx : C) (m : String) (h : Session (InMemory cloneable) s ctx hist resumed c)
    (hm : FailedWith m (hist ++ c.trace)) :
    MessageKept m (hist ++ c.trace) ↔
      (∀ x ∈ resumed, x.status ≠ .compensating) ∨ m = "[object Object]" := by
  cases h.stage hs with
  | live hhist hat hresumed hlive =>
    cases hlive with
    | quiet hquiet =>
      obtain ⟨t', position, n, y, f, ht, hy, -⟩ := hm
      exact absurd hy (hhist.append hquiet y (by simp [ht]))
    | @failing a f y error ht ha hy hcause hf =>
      have htrace : hist ++ c.trace = (hist ++ a) ++ saved y :: f := by
        rw [ht, append_assoc]
      have herror := hm.error htrace (hhist.append ha) hy (hcause hist hat)
      rw [messageKept_iff htrace (hhist.append ha) hy]
      exact iff_of_true (fun x hx => (hf x hx).2.trans herror) (.inl hresumed)
  | @ended a f y error hhist ha hy hcause hf hresumed ht =>
    have htrace : hist ++ c.trace = a ++ saved y :: f := by
      rw [ht, append_nil, hhist]
    have herror := hm.error htrace ha hy hcause
    rw [messageKept_iff htrace ha hy]
    exact iff_of_true (fun x hx => (hf x hx).trans herror) (.inl hresumed)
  | @again a f y error hhist ha hy hcause hf hresumed ht hex =>
    have htrace : hist ++ c.trace = a ++ saved y :: (f ++ c.trace) := by
      rw [hhist, append_assoc, cons_append]
    obtain rfl := hm.error htrace ha hy hcause
    obtain ⟨z, hz, hstatus⟩ := hresumed
    rw [messageKept_iff htrace ha hy, or_iff_right fun hall => hall z hz hstatus]
    constructor
    · intro hall
      obtain ⟨x, hx, herror⟩ := hex
      have hsame := (hall x (mem_cons_of_mem _ hx)).symm.trans herror
      exact Option.some_inj.mp hsame
    · rintro rfl x hx
      rw [← cons_append] at hx
      rcases mem_append.mp hx with hx | hx
      · exact (hf x hx).elim id id
      · exact (ht x hx).2

/-- The events of the order saga up to the declined charge. -/
def untilDeclined : List (SagaEvent Unit) :=
  let s := order (.error "declined") .resolved
  [.saved (s.snapshot () [] .pending none []), .execute 0 1 .resolved,
    .saved (s.snapshot () ["reserve"] .pending none [])]

theorem undisturbed_untilDeclined : Undisturbed untilDeclined := by
  intro x hx
  simp only [untilDeclined, mem_cons, not_mem_nil, or_false, reduceCtorEq, false_or,
    saved.injEq] at hx
  rcases hx with rfl | rfl <;> decide

theorem order_inMemory (err : Thrown) (release : Outcome) :
    (order err release).InMemory fun _ => true :=
  ⟨rfl, {}, rfl, fun _ => iff_of_true rfl rfl⟩

theorem cause_kept_declined :
    let s := order (.error "declined") .resolved
    s.InMemory (fun _ => true) ∧ FailedWith "declined" (s.run ()).trace ∧
      MessageKept "declined" (s.run ()).trace := by
  intro s
  have hm : FailedWith "declined" (s.run ()).trace :=
    ⟨untilDeclined, 1, 1, _, _, rfl, rfl, undisturbed_untilDeclined⟩
  refine ⟨order_inMemory _ _, hm, ?_⟩
  exact (cause_kept_iff s (order_inMemory _ _) () "declined" .run hm).mpr
    (.inl fun x hx => absurd hx not_mem_nil)

/-! ## A crash during the compensations -/

theorem cause_lost :
    let s := order (.error "declined") .resolved
    let x := s.snapshot () ["reserve"] .compensating (some "declined") []
    s.InMemory (fun _ => true) ∧ ∃ hist, Session (InMemory fun _ => true) s () hist [x]
      (resume (some x) none s) ∧
      FailedWith "declined" (hist ++ (resume (some x) none s).trace) ∧
      .saved (s.snapshot () ["reserve"] .compensated (some "[object Object]") ["reserve"]) ∈
        (resume (some x) none s).trace ∧
      ¬ MessageKept "declined" (hist ++ (resume (some x) none s).trace) := by
  intro s x
  have hsession : Session (InMemory fun _ => true) s ()
      ([] ++ ((untilDeclined ++ [execute 1 1 (.rejected (.error "declined"))])
        ++ [saved x])) [x]
      (resume (some x) none s) :=
    .resume .run ⟨_, rfl⟩ (order_inMemory _ _)
  have hsaved : .saved (s.snapshot () ["reserve"] .compensated (some "[object Object]")
      ["reserve"]) ∈ (resume (some x) none s).trace := by
    refine mem_of_getElem? (i := 3) ?_
    rfl
  refine ⟨order_inMemory _ _, _, hsession, ?_, hsaved, ?_⟩
  · exact ⟨untilDeclined, 1, 1, x, _, rfl, rfl, undisturbed_untilDeclined⟩
  · intro hkept
    have herror := hkept (untilDeclined ++ [execute 1 1
      (.rejected (.error "declined"))]) x
      (resume (some x) none s).trace rfl rfl _ (mem_cons_of_mem _ hsaved)
    exact absurd herror (by decide)

end Saga

end NevoMessaging
