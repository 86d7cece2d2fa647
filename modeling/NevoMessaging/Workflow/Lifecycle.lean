import NevoMessaging.Workflow.Engine

/-!
# Cancellation and the status of a workflow

Four event types carry a status. `buildReplayState` lets the last one of them win, while
`getState` and `isTerminal` ask which ones are present. The two views agree as long as
the events come in the order suspended, cancelled, completed or failed. Nothing enforces
that order: `cancel` appends without looking, and a run that is under way when it does so
still appends its own ending.

Results:
1. `cancelled_run_inert`: cancellation is final as long as no run suspends in a cancelled history.
2. `cancel_not_final`: otherwise the workflow goes on.
3. `status_derivations_agree`: without that order, and without a `cancel` after completion, the
   two derivations of the status agree.
4. `status_derivations_differ`: a `cancel` after completion.
-/

namespace NevoMessaging.Workflow

open List

variable {E V : Type}

/-! ## Which steps touch the status -/

theorem goes_silent {r r' : Run V} {how : Option (Nat × Input V)} {evs : List (WorkflowEvent V)}
    {ts : List (String × WakeupPayload)} (h : Goes r how r' evs ts) : statuses evs = [] := by
  cases h with
  | call _ hm => cases hm <;> rfl
  | ends => rfl
  | advance _ hm => cases hm <;> rfl

theorem onWakeup_silent {p : WakeupPayload} {events : List (WorkflowEvent V)}
    {ev : WorkflowEvent V} (h : onWakeup p events = some ev) : statuses [ev] = [] := by
  unfold onWakeup at h
  split at h
  · cases h
  · cases p <;> cases h <;> rfl

/-- Only `cancel` and the end of a run add a status to the history. -/
theorem Step.statuses [DecidableEq E] {cfg : Cfg E V} {s s' : Sys E V} {a : Act E V}
    (h : Step cfg s a s') :
    statuses (s'.history cfg) = statuses (s.history cfg) ∨
    (a = .cancel ∧ s'.cur = s.cur ∧
      statuses (s'.history cfg) = statuses (s.history cfg) ++ [.cancelled]) ∨
    ∃ e r x, a = .finish e ∧ s.cur e = .exec r ∧ r.ending = some x ∧
      s'.cur e = cfg.afterRun ∧
      statuses (s'.history cfg) = statuses (s.history cfg) ++ [x.result.status] := by
  cases h with
  | clock | resume | wakeLegacy | wake | wakeSkip | join | dequeue | acquire | refused
    | readEnds | read | release => exact .inl rfl
  | foreign ev hid ho =>
    exact .inl (congrArg Workflow.statuses (history_foreign s ev hid ho))
  | start | signal =>
    refine .inl ((congrArg Workflow.statuses (history_append cfg s _)).trans ?_)
    simp [Workflow.statuses, WorkflowEvent.status?]
  | cancel =>
    refine .inr (.inl ⟨rfl, rfl, ?_⟩)
    rw [history_append, statuses_append]
    rfl
  | @wakeAppend i e p events ev hi ho =>
    refine .inl ((congrArg Workflow.statuses (history_append cfg s [ev])).trans ?_)
    rw [statuses_append, onWakeup_silent ho, append_nil]
  | @finish e r x hc hx =>
    refine .inr (.inr ⟨e, r, x, rfl, hc, hx, by simp [Sys.endRun, Sys.setCur], ?_⟩)
    rw [history_endRun, history_append, statuses_append]
    cases x <;> rfl
  | go _ hg | late _ hg =>
    refine .inl ((congrArg Workflow.statuses (history_append cfg s _)).trans ?_)
    rw [statuses_append, goes_silent hg, append_nil]

/-! ## Cancellation -/

/-- A run that read a cancelled history runs no step body, records no step and no
completion, and returns no status but a terminal one. -/
def CancelIsFinal (r : Run V) : Prop :=
  .cancelled ∈ r.events →
    r.bodies = [] ∧ (∀ name v, .stepCompleted name v ∉ r.appended) ∧
      (∀ v, .completed v ∉ r.appended) ∧
      ∀ x, r.result = some (.returned x) → x.status.terminal = true

/-- The live run of `e` is about to append `workflow.suspended`. -/
def Sys.suspends (s : Sys E V) (e : E) : Bool :=
  match s.cur e with
  | .exec r =>
    match r.ending with
    | some (.suspended _) => true
    | _ => false
  | _ => false

/-- The steps that leave a cancellation alone: no run suspends in a cancelled history. -/
def keepsCancelled (cfg : Cfg E V) (s : Sys E V) : Act E V → Bool
  | .finish e => !(s.suspends e && (s.history cfg).any WorkflowEvent.isCancelled)
  | _ => true

variable [DecidableEq E]

theorem cancelled_mem_statuses {events : List (WorkflowEvent V)} :
    .cancelled ∈ statuses events ↔ .cancelled ∈ events := by
  simp only [statuses, mem_filterMap]
  constructor
  · rintro ⟨e, he, hs⟩
    cases e <;> simp only [WorkflowEvent.status?, Option.some.injEq, reduceCtorEq] at hs
    exact he
  · intro h
    exact ⟨_, h, rfl⟩

/-- A run that can do nothing any more and has done nothing. -/
structure Inert (r : Run V) : Prop where
  fn : r.fn = fun _ => .idle
  inFlight : r.inFlight = []
  bodies : r.bodies = []
  appended : r.appended = []
  result : ∀ x, r.result = some (.returned x) → x.status.terminal = true

theorem Inert.not_goes {r r' : Run V} {how : Option (Nat × Input V)}
    {evs : List (WorkflowEvent V)} {ts : List (String × WakeupPayload)} (h : Inert r) :
    ¬ Goes r how r' evs ts := by
  intro hg
  cases hg with
  | call hc => simp [h.fn] at hc
  | ends _ he =>
    rw [h.fn] at he
    cases he
  | advance hi => simp [h.inFlight] at hi

/-- The invariant of cancellation: a cancelled history has a terminal status, so no run
starts on it. -/
structure CancelInv (cfg : Cfg E V) (s : Sys E V) : Prop where
  status : .cancelled ∈ statuses (s.history cfg) → (replay (s.history cfg)).status.terminal = true
  past : ∀ r ∈ s.past, .cancelled ∈ statuses r.events → Inert r
  live : ∀ e r, s.cur e = .exec r → .cancelled ∉ statuses r.events

theorem terminal_append (events : List (WorkflowEvent V)) {st : WorkflowStatus}
    {more : List (WorkflowEvent V)} (h : statuses more = statuses events ++ [st]) :
    (replay more).status = st := by
  simp [replay_status, h]

variable {cfg : Cfg E V} {s : Sys E V}

theorem cancelInv_status {s' : Sys E V} {a : Act E V} (hi : CancelInv cfg s)
    (hok : keepsCancelled cfg s a = true) (h : Step cfg s a s')
    (hc : .cancelled ∈ statuses (s'.history cfg)) :
    (replay (s'.history cfg)).status.terminal = true := by
  rcases h.statuses with heq | ⟨_, _, heq⟩ | ⟨e, r, x, rfl, hl, hx, _, heq⟩
  · rw [heq] at hc
    have hst := hi.status hc
    rwa [replay_status, heq, ← replay_status]
  · rw [terminal_append _ heq]
    rfl
  · rw [terminal_append _ heq]
    cases x with
    | completed v | failed m => rfl
    | suspended reason =>
      -- The one ending that is not terminal: the condition excludes it here.
      have hno : .cancelled ∉ statuses (s.history cfg) := by
        intro hm
        simp [keepsCancelled, Sys.suspends, hl, hx, any_isCancelled, hm] at hok
      rw [heq] at hc
      simp [hno, Ending.result] at hc

theorem cancelInv_step {s' : Sys E V} {a : Act E V} (hi : CancelInv cfg s)
    (hok : keepsCancelled cfg s a = true) (h : Step cfg s a s') : CancelInv cfg s' where
  status := cancelInv_status hi hok h
  past := by
    intro r' hp hc
    rcases h.past hp with hp | ⟨r, hr, _, _, _, hg, _⟩ | ⟨e, r, x, _, hl, _, rfl, _⟩ |
      ⟨e, seed, _, _, rfl, hres⟩
    · exact hi.past r' hp hc
    · rw [hg.same.events] at hc
      exact absurd hg (hi.past r hr hc).not_goes
    · exact absurd hc (hi.live e r hl)
    · obtain ⟨x, hx⟩ := Option.isSome_iff_exists.mp hres
      have hf := executeExclusive_fresh cfg e seed (s.history cfg)
      obtain ⟨hfn, _, hterm⟩ := executeExclusive_ends hx
      refine ⟨hfn, hf.inFlight, hf.bodies, hf.appended, fun y hy => ?_⟩
      exact (hterm y (Option.some.inj (hx.symm.trans hy))).2
  live := by
    intro e r' hl
    rcases h.live hl with hl | ⟨r, _, _, _, hl, hg, _⟩ | ⟨_, _, seed, rfl, hn⟩
    · exact hi.live e r' hl
    · rw [hg.same.events]
      exact hi.live e r hl
    · rw [(executeExclusive_fresh cfg e seed (s.history cfg)).events]
      intro hc
      have ht := (executeExclusive_runs hn).1
      rw [hi.status hc] at ht
      cases ht

theorem cancelInv_reach (h : (machine cfg).Reach (fun s a => keepsCancelled cfg s a = true) s) :
    CancelInv cfg s := by
  refine h.invariant ?_ fun _ hi hok hs => cancelInv_step hi hok (.of_step hs)
  constructor <;> simp [Workflow.statuses]

/-- Cancellation is final in every run of the system in which no run of the workflow
suspends once the history holds `workflow.cancelled`, whatever the workflow function
does and wherever the cancellation falls. -/
theorem cancelled_run_inert {cfg : Cfg E V} {s : Sys E V}
    (h : (machine cfg).Reach (fun s a => keepsCancelled cfg s a = true) s) {r : Run V}
    (hr : s.HasRun r) : CancelIsFinal r := by
  intro hc
  have hi := cancelInv_reach h
  rw [← cancelled_mem_statuses] at hc
  rcases hr with hr | ⟨e, hl⟩
  · have hin := hi.past r hr hc
    exact ⟨hin.bodies, by simp [hin.appended], by simp [hin.appended], hin.result⟩
  · exact absurd hc (hi.live e r hl)

/-! ## An order that is cancelled -/

/-- `charge`, then a manual review, then `ship`: the order workflow of the documentation
without its sleep. -/
def orderFulfil : Script Nat := fun _ seen =>
  match seen with
  | [] => .call (.step "charge")
  | [.value _] => .call (.waitForSignal "manualReview" none)
  | [_, .payload _] => .call (.step "ship")
  | [_, _, .value v] => .ret v
  | seen =>
    match seen.getLast? with
    | some (.threw e) => .throw e
    | _ => .idle

/-- One engine without scheduler and lock that knows the order workflow only. -/
def orderCfg : Cfg Unit Nat where
  workflowId := "o-123"
  workflows := fun _ name => if name = "order.fulfil" then some (ofScript orderFulfil) else none
  scheduler := fun _ => false
  lock := false

/-- Start the order and let it run until it waits for the review. `during` happens while
the body of `charge` is executing. -/
def startOrder (during : List (Act Unit Nat)) : List (Act Unit Nat) :=
  [Act.start () "order.fulfil" 0, .join 0, .dequeue (), .read () 0, .move ()] ++ during ++
    [Act.advance () 0 (.bodyResolved 7), .advance () 0 .resolved, .advance () 0 .resolved,
      .move (), .move (), .finish ()]

/-- Approve the order, and let the run that this starts read the history. -/
def approveOrder : List (Act Unit Nat) :=
  [.signal () "manualReview" 1, .join 0, .dequeue (), .read () 0]

/-- A run that replays `charge`, takes the signal and ships. -/
def shipOrder : List (Act Unit Nat) :=
  [.move (), .move (), .advance () 0 .resolved, .move (), .advance () 0 (.bodyResolved 8),
    .advance () 0 .resolved, .advance () 0 .resolved, .move (), .finish ()]

/-- What the last completed run read, and the step bodies it ran. -/
def lastRun (s : Sys Unit Nat) : Option (List (WorkflowEvent Nat) × List String) :=
  s.past.getLast?.map fun r => (r.events, r.bodies)

/-- Cancellation is not final: cancelled while `charge` executes, the order suspends at its
review as if nothing had happened, and the approval ships it. -/
theorem cancel_not_final :
    ¬ ∀ s, (machine orderCfg).Reach Machine.free s → ∀ r, s.HasRun r → CancelIsFinal r := by
  obtain ⟨s, hs, hobs⟩ := Machine.Reach.observe (machine orderCfg) Machine.free
    (startOrder [Act.cancel] ++ approveOrder ++ shipOrder) lastRun
    (some ([.started "order.fulfil" 0, .cancelled, .stepCompleted "charge" 7,
      .suspended "signal:manualReview", .signalReceived "manualReview" 1], ["ship"]))
        (by decide +kernel)
  intro hall
  obtain ⟨r, hr, heq⟩ := Option.map_eq_some_iff.mp hobs
  simp only [Prod.mk.injEq] at heq
  have hfinal := hall s hs r (.inl (mem_of_getLast? hr)) (by simp [heq.1])
  exact absurd (hfinal.1.symm.trans heq.2) (by simp)

theorem cancelled_run_inert_waiting :
    ∃ s r, (machine orderCfg).Reach (fun s a => keepsCancelled orderCfg s a = true) s ∧
      s.HasRun r ∧ .cancelled ∈ r.events ∧ CancelIsFinal r := by
  obtain ⟨s, hs, hobs⟩ := Machine.Reach.observe (machine orderCfg)
    (fun s a => keepsCancelled orderCfg s a = true)
    (startOrder [] ++ [Act.cancel] ++ approveOrder) lastRun
    (some ([.started "order.fulfil" 0, .stepCompleted "charge" 7,
      .suspended "signal:manualReview", .cancelled, .signalReceived "manualReview" 1], []))
    (by decide +kernel)
  obtain ⟨r, hr, heq⟩ := Option.map_eq_some_iff.mp hobs
  simp only [Prod.mk.injEq] at heq
  have hrun : s.HasRun r := .inl (mem_of_getLast? hr)
  exact ⟨s, r, hs, hrun, by simp [heq.1], cancelled_run_inert hs hrun⟩

/-! ## Two derivations of one status -/

/-- The steps that keep the status events in order: no cancellation of a workflow that has
completed or failed, and no suspension of one that is cancelled. -/
def keepsStatus (cfg : Cfg E V) (s : Sys E V) : Act E V → Bool
  | .cancel => !((s.history cfg).any WorkflowEvent.isCompleted ||
      (s.history cfg).any WorkflowEvent.isFailed)
  | a => keepsCancelled cfg s a

/-- The order in which two statuses may follow each other: nothing follows a completion or
a failure, and no suspension follows a cancellation. -/
structure MayPrecede (x y : WorkflowStatus) : Prop where
  completed : x ≠ .completed
  failed : x ≠ .failed
  cancelled : x = .cancelled → y ≠ .suspended

theorem running_not_mem_statuses (events : List (WorkflowEvent V)) :
    .running ∉ statuses events := by
  simp only [statuses, mem_filterMap, not_exists, not_and]
  intro e _ he
  cases e <;> simp [WorkflowEvent.status?] at he

theorem stateStatus_eq_replay {events : List (WorkflowEvent V)}
    (h : (statuses events).Pairwise MayPrecede) : stateStatus events = (replay events).status := by
  have hrun := running_not_mem_statuses events
  rw [stateStatus_eq, replay_status]
  cases hs : statuses events using reverseRecOn with
  | nil => simp
  | append_singleton l x =>
    rw [hs] at h hrun
    obtain ⟨-, -, hbefore⟩ := pairwise_append.mp h
    have hpre : ∀ y ∈ l, MayPrecede y x := fun y hy => hbefore y hy x (mem_singleton_self x)
    have hcomp : .completed ∉ l := fun hm => (hpre _ hm).completed rfl
    have hfail : .failed ∉ l := fun hm => (hpre _ hm).failed rfl
    cases x with
    | running => simp at hrun
    | completed => simp
    | failed => simp [hcomp]
    | cancelled => simp [hcomp, hfail]
    | suspended =>
      have hcan : .cancelled ∉ l := fun hm => (hpre _ hm).cancelled rfl rfl
      simp [hcomp, hfail, hcan]

structure StatusInv (cfg : Cfg Unit V) (s : Sys Unit V) : Prop where
  ordered : (statuses (s.history cfg)).Pairwise MayPrecede
  live : ∀ r, s.cur () = .exec r →
    .completed ∉ statuses (s.history cfg) ∧ .failed ∉ statuses (s.history cfg)

variable {cfg : Cfg Unit V} {s : Sys Unit V}

theorem cancel_allowed (h : keepsStatus cfg s .cancel = true) :
    .completed ∉ statuses (s.history cfg) ∧ .failed ∉ statuses (s.history cfg) := by
  simp only [keepsStatus, any_isCompleted, any_isFailed] at h
  simpa using h

theorem statusInv_ordered {s' : Sys Unit V} {a : Act Unit V} (hi : StatusInv cfg s)
    (hok : keepsStatus cfg s a = true) (h : Step cfg s a s') :
    (statuses (s'.history cfg)).Pairwise MayPrecede := by
  have hend : ∀ {x}, .completed ∉ statuses (s.history cfg) → .failed ∉ statuses (s.history cfg) →
      (.cancelled ∈ statuses (s.history cfg) → x ≠ .suspended) →
      (statuses (s.history cfg) ++ [x]).Pairwise MayPrecede := by
    intro x hcomp hfail hcan
    refine pairwise_append.mpr ⟨hi.ordered, pairwise_singleton _ _, ?_⟩
    intro y hy z hz
    rw [mem_singleton.mp hz]
    exact ⟨fun he => hcomp (he ▸ hy), fun he => hfail (he ▸ hy), fun he => hcan (he ▸ hy)⟩
  rcases h.statuses with heq | ⟨rfl, _, heq⟩ | ⟨e, r, x, rfl, hl, hx, _, heq⟩
  · rw [heq]
    exact hi.ordered
  · rw [heq]
    have hc := cancel_allowed hok
    exact hend hc.1 hc.2 (by simp)
  · rw [heq]
    have hlive := hi.live r hl
    refine hend hlive.1 hlive.2 fun hcan hsus => ?_
    cases x <;> simp only [Ending.result, reduceCtorEq] at hsus
    simp [keepsStatus, keepsCancelled, Sys.suspends, hl, hx, any_isCancelled, hcan] at hok

theorem statusInv_live {s' : Sys Unit V} {a : Act Unit V} (hi : StatusInv cfg s)
    (h : Step cfg s a s') (r' : Run V) (hl : s'.cur () = .exec r') :
    .completed ∉ statuses (s'.history cfg) ∧ .failed ∉ statuses (s'.history cfg) := by
  -- A live run stays live only if the step is not its end, which leaves `cancel`.
  have hkeep : ∀ r, s.cur () = .exec r →
      .completed ∉ statuses (s'.history cfg) ∧ .failed ∉ statuses (s'.history cfg) := by
    intro r hr
    have hlive := hi.live r hr
    rcases h.statuses with heq | ⟨_, _, heq⟩ | ⟨_, _, _, _, _, _, hcur, _⟩
    · rwa [heq]
    · rw [heq]
      simpa using hlive
    · rw [hl, Cfg.afterRun] at hcur
      split at hcur <;> cases hcur
  rcases h.live hl with hl | ⟨r, _, _, _, hl, _⟩ | ⟨_, heq, seed, rfl, hn⟩
  · exact hkeep _ hl
  · exact hkeep _ hl
  · have hterm := (executeExclusive_runs hn).1
    rw [← stateStatus_eq_replay hi.ordered, stateStatus_eq] at hterm
    rw [heq]
    constructor
    · intro hm
      simp [hm, WorkflowStatus.terminal] at hterm
    · intro hm
      rw [if_pos hm] at hterm
      split at hterm <;> cases hterm

theorem statusInv_reach (h : (machine cfg).Reach (fun s a => keepsStatus cfg s a = true) s) :
    StatusInv cfg s := by
  refine h.invariant ?_ fun _ hi hok hs =>
    ⟨statusInv_ordered hi hok (.of_step hs), statusInv_live hi (.of_step hs)⟩
  constructor <;> simp [Workflow.statuses]

/-- `getState` and `buildReplayState` derive the same status from every history one engine
can reach without cancelling a finished workflow or suspending a cancelled one. -/
theorem status_derivations_agree {cfg : Cfg Unit V} {s : Sys Unit V}
    (h : (machine cfg).Reach (fun s a => keepsStatus cfg s a = true) s) :
    (getState cfg.workflowId (s.store.read (.ofAggregate cfg.workflowId))).map (·.status) =
      (buildReplayState (s.history cfg)).map (·.status) := by
  have hord := (statusInv_reach h).ordered
  rw [getState_status, buildReplayState, Option.map_map]
  change (startOf (s.history cfg)).map _ = (startOf (s.history cfg)).map _
  congr 1
  funext _
  exact stateStatus_eq_replay hord

/-- The status of the order as the two functions see it. -/
def orderStatuses (s : Sys Unit Nat) : Option WorkflowStatus × Option WorkflowStatus :=
  ((getState "o-123" (s.store.read (.ofAggregate "o-123"))).map (·.status),
    (buildReplayState (s.history orderCfg)).map (·.status))

/-- Cancelling an order that has been shipped leaves `getState` at completed, while the
next run is told cancelled. -/
theorem status_derivations_differ :
    ¬ ∀ s, (machine orderCfg).Reach Machine.free s → s.Quiet →
      (orderStatuses s).1 = (orderStatuses s).2 := by
  obtain ⟨s, hs, hobs⟩ := Machine.Reach.observe (machine orderCfg) Machine.free
    (startOrder [] ++ approveOrder ++ shipOrder ++ [Act.cancel])
    (fun s => (decide s.Quiet, orderStatuses s)) (true, some .completed, some .cancelled)
    (by decide +kernel)
  simp only [Prod.ext_iff, decide_eq_true_eq] at hobs
  intro hall
  have heq := hall s hs hobs.1
  rw [hobs.2.1, hobs.2.2] at heq
  exact absurd heq (by decide)

theorem status_derivations_agree_shipped :
    ∃ s, (machine orderCfg).Reach (fun s a => keepsStatus orderCfg s a = true) s ∧
      (s.history orderCfg).any WorkflowEvent.isCancelled = true ∧
      (orderStatuses s).1 = (orderStatuses s).2 := by
  obtain ⟨s, hs, hobs⟩ := Machine.Reach.observe (machine orderCfg)
    (fun s a => keepsStatus orderCfg s a = true)
    (startOrder [] ++ approveOrder ++ [Act.cancel] ++ shipOrder)
    (fun s => (s.history orderCfg).any WorkflowEvent.isCancelled) true (by decide +kernel)
  exact ⟨s, hs, hobs, status_derivations_agree hs⟩

end NevoMessaging.Workflow
