import NevoMessaging.Workflow.Clock
import NevoMessaging.Workflow.Scripts
import NevoMessaging.Workflow.Signals
import NevoMessaging.Workflow.Steps

/-!
# Replay is deterministic

Two runs of a workflow read different prefixes of its history. Still they see the same
outcome at each `ctx` call that both get past, because every such outcome is recorded, and
what is recorded for a call never changes: a step has one result, a number of `ctx.now()` one
value, a wait either one consumption or, once some run has found it timed out, none.

The two races are between the live run and the wake-ups. A timeout may be recorded for a wait
that the live run is about to satisfy; then the consumption wins in every later run. A run that
has read a timeout never consumes for that wait, and later runs have read it too
(`timedOut_reach`).

Results:
1. `timedOut_reach`: a wait that a run has found timed out never consumes a signal.
2. `noSleep_reach`: without a scheduler no sleep ever completes.
3. `replay_deterministic`: runs agree on every call they both get past, and the body of a
   completed step is not executed again.
-/

namespace NevoMessaging.Workflow

open List

variable {V : Type}

/-! ## Timeouts -/

/-- A wait whose timeout a run has read, and no consumption, stays without consumption. -/
def TimedOutStays (c : Core V) : Prop :=
  ∀ r ∈ c.runs, ∀ {k : Nat} {name : String}, .signalTimeout k name ∈ r.events →
    k ∉ consumedOrdinals r.events → k ∉ consumedOrdinals c.history

variable {r r' : Run V} {how : Option (Nat × Input V)} {evs : List (WorkflowEvent V)}
  {ts : List (String × WakeupPayload)} {c c' : Core V} {a : Act Unit V}

theorem goes_consumed (h : Goes r how r' evs ts) :
    consumedOrdinals evs = [] ∨
      ∃ c ∈ r.claims, evs = [.signalConsumed c.name c.index c.ordinal] := by
  cases h with
  | call _ hm =>
    left
    cases hm <;> rfl
  | ends => exact .inl rfl
  | advance hi hm =>
    cases hm with
    | consumeAppend => exact .inr ⟨_, mem_filterMap.mpr ⟨_, mem_of_getElem? hi, rfl⟩, rfl⟩
    | _ => exact .inl rfl

theorem turn_consumed (h : Turn c a c') {k : Nat} (hk : k ∈ consumedOrdinals c'.history) :
    k ∈ consumedOrdinals c.history ∨ ∃ r, c.live = some r ∧ ∃ d ∈ r.claims, d.ordinal = k := by
  have hsilent : ∀ {evs : List (WorkflowEvent V)}, consumedOrdinals evs = [] →
      k ∈ consumedOrdinals (c.history ++ evs) → k ∈ consumedOrdinals c.history := by
    intro evs hno hk
    rwa [consumedOrdinals_append, hno, append_nil] at hk
  cases h with
  | outside hout => exact .inl (hsilent (outside_consumedOrdinals hout) hk)
  | read | readEnds => exact .inl hk
  | go hg =>
    rcases goes_consumed hg with hno | ⟨d, hd, rfl⟩
    · exact .inl (hsilent hno hk)
    · rw [consumedOrdinals_append] at hk
      refine (mem_append.mp hk).imp_right fun hk => ⟨_, rfl, d, hd, ?_⟩
      simpa [consumedOrdinals, eq_comm] using hk
  | finish x => exact .inl (hsilent (by cases x <;> rfl) hk)

theorem timedOut_turn (hi : TimedOutStays c) (hsig : SignalInv c)
    (hearlier : ∀ r, c.live = some r → ∀ q ∈ c.past, q.events <+: r.events)
    (h : Turn c a c') : TimedOutStays c' := by
  refine h.runs (fun q hq k name ht hk hmem => ?_) (fun hf hh k name _ hk => ?_)
    (fun _ _ hg _ _ hq => ?_) fun _ hq => hq
  · rcases turn_consumed h hmem with hmem | ⟨r, hl, d, hd, rfl⟩
    · exact hi q hq ht hk hmem
    · -- The live run has read the timeout as well, so it does not claim for this wait.
      have hpre : q.events <+: r.events := by
        rcases Core.mem_runs.mp hq with hq | hq
        · exact hearlier r hl q hq
        · exact Option.some.inj (hl.symm.trans hq) ▸ prefix_rfl
      exact ((hsig.live r hl).claims d hd).untimed name (hpre.subset ht)
  · rwa [hh, ← hf.events]
  · rw [hg.same.events]
    exact hq

variable {cfg : Cfg Unit V} {ok : Sys Unit V → Act Unit V → Prop} {s : Sys Unit V}

theorem timedOut_reach (hseq : cfg.AllSequential) (h : (machine cfg).Reach ok s) :
    TimedOutStays (s.core cfg) := by
  refine core_invariant hseq ?_ (fun hs hi _ ht => timedOut_turn hi (signalInv_reach hseq hs)
    (earlier_reach hseq hs) ht) h
  simp [TimedOutStays, Core.runs]

/-! ## Engines without a scheduler -/

/-- The call is about to enqueue a wake-up task. -/
def Pending.arms : Pending V → Bool
  | .sleepEnqueue .. | .timeoutEnqueue .. => true
  | _ => false

/-- Without a scheduler there is no wake-up, and nothing completes a sleep. -/
structure Unscheduled (cfg : Cfg Unit V) (s : Sys Unit V) : Prop where
  tasks : s.tasks = []
  waking : s.waking = []
  history : ∀ k, .sleepCompleted k ∉ s.history cfg
  runs : ∀ r, s.HasRun r → r.scheduler = false ∧ ∀ x ∈ r.inFlight, x.2.arms = false

theorem executeExclusive_scheduler (cfg : Cfg Unit V) (seed : Nat)
    (events : List (WorkflowEvent V)) :
    (executeExclusive cfg () seed events).scheduler = cfg.scheduler () := by
  unfold executeExclusive
  split
  · split
    · rfl
    · split <;> rfl
  · rfl

theorem scheduler_reach (h : (machine cfg).Reach ok s) {r : Run V} (hr : s.HasRun r) :
    r.scheduler = cfg.scheduler () :=
  runs_invariant (P := fun r => r.scheduler = cfg.scheduler ())
    (fun _ seed events => executeExclusive_scheduler cfg seed events)
    (fun hi hg => hg.same.scheduler.trans hi) (fun _ hi => hi) h hr

variable {r r' : Run V} {how : Option (Nat × Input V)} {evs : List (WorkflowEvent V)}
  {ts : List (String × WakeupPayload)}

theorem goes_unscheduled (hs : r.scheduler = false) (hin : ∀ x ∈ r.inFlight, x.2.arms = false)
    (h : Goes r how r' evs ts) :
    (∀ k, .sleepCompleted k ∉ evs) ∧ ts = [] ∧ ∀ x ∈ r'.inFlight, x.2.arms = false := by
  cases h with
  | @call _ c m _ hm =>
    have hopen : ∀ x ∈ m.progress.opened ⟨c, m.ctx.ordinal c⟩, x.2.arms = false := by
      cases hm with
      | sleepArms _ hsched | waitArms _ _ _ hsched => simp [hs] at hsched
      | _ => simp [Progress.opened, Pending.arms]
    refine ⟨by cases hm <;> simp, rfl, fun x hx => ?_⟩
    exact (mem_append.mp hx).elim (hin x) (hopen x)
  | ends => exact ⟨by simp, rfl, hin⟩
  | @advance _ _ i entry p inp m hi hm =>
    have harm := hin _ (mem_of_getElem? hi)
    have hopen : ∀ x ∈ m.progress.opened entry, x.2.arms = false := by
      cases hm <;> simp [Progress.opened, Pending.arms]
    refine ⟨by cases hm <;> simp, ?_, fun x hx => ?_⟩
    · cases hm <;> first | rfl | simp [Pending.arms] at harm
    · exact (Run.mem_advanced hi hx).elim (hin x) (hopen x)

theorem unscheduled_runs {cfg : Cfg Unit V} (hsched : cfg.scheduler () = false)
    {s s' : Sys Unit V} {a : Act Unit V} (hi : Unscheduled cfg s) (h : Step cfg s a s') (r' : Run V)
    (hr : s'.HasRun r') : r'.scheduler = false ∧ ∀ x ∈ r'.inFlight, x.2.arms = false := by
  rcases h.run hr with hr | ⟨r, hr, _, _, _, hg, _⟩ | ⟨e, r, x, hl, _, rfl, _⟩ | ⟨e, seed, rfl, _⟩
  · exact hi.runs r' hr
  · obtain ⟨hs, hin⟩ := hi.runs r hr
    exact ⟨hg.same.scheduler ▸ hs, (goes_unscheduled hs hin hg).2.2⟩
  · exact hi.runs r (.inr ⟨e, hl⟩)
  · refine ⟨(executeExclusive_scheduler cfg seed _).trans hsched, ?_⟩
    simp [(executeExclusive_fresh cfg e seed (s.history cfg)).inFlight]

theorem unscheduled_step {cfg : Cfg Unit V} (hsched : cfg.scheduler () = false) {s s' : Sys Unit V}
    {a : Act Unit V} (hi : Unscheduled cfg s) (h : Step cfg s a s') : Unscheduled cfg s' := by
  have hruns := unscheduled_runs hsched hi h
  have happend : ∀ {evs : List (WorkflowEvent V)}, (∀ k, .sleepCompleted k ∉ evs) →
      ∀ k, .sleepCompleted k ∉ (s.append cfg evs).history cfg := by
    intro evs hno k hm
    rw [history_append] at hm
    exact (mem_append.mp hm).elim (hi.history k) (hno k)
  cases h with
  | clock | resume | wakeLegacy | join | dequeue | acquire | refused | readEnds | read | release =>
    exact ⟨hi.tasks, hi.waking, hi.history, hruns⟩
  | foreign ev hid ho =>
    refine ⟨hi.tasks, hi.waking, ?_, hruns⟩
    rw [history_foreign s ev hid ho]
    exact hi.history
  | start | signal | cancel => exact ⟨hi.tasks, hi.waking, happend (by simp), hruns⟩
  | wake _ hp => simp [hi.tasks] at hp
  | wakeSkip hw | wakeAppend hw => simp [hi.waking] at hw
  | go hc hg =>
    obtain ⟨hs, hin⟩ := hi.runs _ (.inr ⟨_, hc⟩)
    obtain ⟨hno, rfl, _⟩ := goes_unscheduled hs hin hg
    exact ⟨hi.tasks, hi.waking, happend hno, hruns⟩
  | @finish e r x hc hx =>
    exact ⟨hi.tasks, hi.waking, happend (by cases x <;> simp [Ending.event]), hruns⟩
  | late hk hg =>
    obtain ⟨hs, hin⟩ := hi.runs _ (.inl (mem_of_getElem? hk))
    obtain ⟨hno, rfl, _⟩ := goes_unscheduled hs hin hg
    exact ⟨hi.tasks, hi.waking, happend hno, hruns⟩

theorem noSleep_reach (hsched : cfg.scheduler () = false) (h : (machine cfg).Reach ok s) (k : Nat) :
    .sleepCompleted k ∉ s.history cfg := by
  have hi : Unscheduled cfg s := by
    refine h.invariant ⟨rfl, rfl, by simp, by simp [Sys.HasRun]⟩ fun _ hi _ hs => ?_
    exact unscheduled_step hsched hi (.of_step hs)
  exact hi.history k

/-! ## What is recorded -/

/-- The outcome of a call that the function got past is on record. For a sleep there is only
one possible, and a wait that timed out did so in what the run has read. -/
def Recorded (scheduler : Bool) (history events : List (WorkflowEvent V))
    (x : Entry × Outcome V) : Prop :=
  match x.1.call with
  | .now => ∃ t, x.2 = .time t ∧ .nowRecorded x.1.ordinal t ∈ history
  | .step name => ∃ v, x.2 = .value v ∧ .stepCompleted name v ∈ history
  | .sleep _ => x.2 = if scheduler then .slept else .threw (.error noSchedulerError)
  | .waitForSignal name _ =>
    (∃ p, x.2 = .payload p) ∨
      (x.2 = .threw (.signalTimeout name) ∧ (∃ n, .signalTimeout x.1.ordinal n ∈ events) ∧
        x.1.ordinal ∉ consumedOrdinals events)

/-- Every call that a run got past is recorded. -/
def RecordInv (cfg : Cfg Unit V) (c : Core V) : Prop :=
  ∀ r ∈ c.runs, ∀ x ∈ r.log, getsPast x = true →
    Recorded (cfg.scheduler ()) c.history r.events x

variable {history evs : List (WorkflowEvent V)} {cfg : Cfg Unit V} {r r' : Run V} {m : Moved V}
  {how : Option (Nat × Input V)} {ts : List (String × WakeupPayload)} {date : Int}

theorem Recorded.mono {scheduler : Bool} {more events : List (WorkflowEvent V)}
    {x : Entry × Outcome V} (h : Recorded scheduler history events x) (hp : history <+: more) :
    Recorded scheduler more events x := by
  obtain ⟨⟨call, k⟩, o⟩ := x
  cases call with
  | now =>
    obtain ⟨t, ho, ht⟩ := h
    exact ⟨t, ho, hp.subset ht⟩
  | step name =>
    obtain ⟨v, ho, hv⟩ := h
    exact ⟨v, ho, hp.subset hv⟩
  | sleep | waitForSignal => exact h

/-- What the proof of `RecordInv` takes from the other invariants of the live run. -/
structure LiveFacts (cfg : Cfg Unit V) (history : List (WorkflowEvent V)) (r : Run V) : Prop where
  scheduler : r.scheduler = cfg.scheduler ()
  read : r.events <+: history
  snapshot : r.Snapshot
  nows : r.ctx.replay.nows = (replay history).nows
  steps : StepsSynced history r
  calls : ∀ {c}, r.fn r.view = .call c → r.inFlight = []
  single : r.inFlight.length ≤ 1
  fits : ∀ x ∈ r.inFlight, x.2.fits x.1.call = true
  noSleep : cfg.scheduler () = false → ∀ k, .sleepCompleted k ∉ history

theorem issues_recorded {call : CtxCall} (h : LiveFacts cfg history r) (hin : r.inFlight = [])
    (hm : Issues r.scheduler date r.ctx call m) :
    ∀ x ∈ m.progress.closed ⟨call, m.ctx.ordinal call⟩, getsPast x = true →
      Recorded (cfg.scheduler ()) (history ++ m.events) r.events x := by
  intro x hx hp
  have hsched := h.scheduler
  cases hm with
  | stepBody | sleepArms | waitClaims | waitArms => simp [Progress.closed] at hx
  | nowRecorded hk =>
    rw [mem_singleton.mp hx]
    exact ⟨_, rfl, mem_append_left _ (replay_nows_mem (h.nows ▸ hk))⟩
  | nowNew hk =>
    rw [mem_singleton.mp hx]
    exact ⟨_, rfl, mem_append_right _ (mem_singleton_self _)⟩
  | stepRecorded hk =>
    rw [mem_singleton.mp hx]
    have hs : (replay history).steps = r.ctx.replay.steps := by simpa [hin] using h.steps.steps
    exact ⟨_, rfl, mem_append_left _ (replay_steps_mem (hs ▸ hk))⟩
  | sleepDone hk =>
    rw [mem_singleton.mp hx]
    have hmem := h.read.subset (h.snapshot.mem_sleepDone.mp hk)
    cases hc : cfg.scheduler () with
    | true => rfl
    | false => exact absurd hmem (h.noSleep hc _)
  | sleepRefused _ hs =>
    rw [mem_singleton.mp hx, ← hsched, hs]
    rfl
  | sleepSuspends | waitSuspends =>
    rw [mem_singleton.mp hx] at hp
    simp [getsPast] at hp
  | waitConsumed =>
    rw [mem_singleton.mp hx]
    exact .inl ⟨_, rfl⟩
  | waitTimedOut hn ht =>
    rw [mem_singleton.mp hx]
    exact .inr ⟨rfl, h.snapshot.mem_timeouts.mp ht, h.snapshot.not_consumed hn⟩

theorem advances_recorded {workflowId : String} {entry : Entry} {p : Pending V} {inp : Input V}
    (h : LiveFacts cfg history r) (hin : r.inFlight = [(entry, p)])
    (hinp : ∀ message, inp ≠ .enqueueFailed message)
    (hm : Advances workflowId date r.ctx p inp m) :
    ∀ x ∈ m.progress.closed entry, getsPast x = true →
      Recorded (cfg.scheduler ()) (history ++ m.events) r.events x := by
  intro x hx hp
  have hfits : p.fits entry.call = true := h.fits (entry, p) (by simp [hin])
  obtain ⟨call, k⟩ := entry
  cases hm with
  | bodyNowRecorded | bodyNowNew | bodyResolved | stepAppend | sleepEnqueue | sleepAppend
    | timeoutEnqueue | timeoutAppend => simp [Progress.closed] at hx
  | sleepEnqueueFailed message | timeoutEnqueueFailed message => exact absurd rfl (hinp message)
  | bodyRejected =>
    rw [mem_singleton.mp hx] at hp
    cases call <;> simp [Pending.fits, getsPast] at hfits hp
  | @stepStore name v =>
    rw [mem_singleton.mp hx]
    have hdone : .stepCompleted name v ∈ history :=
      replay_steps_mem (by simp [h.steps.steps, hin, Pending.stored])
    cases call with
    | step n =>
      obtain rfl : name = n := by simpa [Pending.fits] using hfits
      exact ⟨v, rfl, mem_append_left _ hdone⟩
    | _ => cases hfits
  | sleepStore | timeoutStore =>
    rw [mem_singleton.mp hx] at hp
    cases call <;> simp [getsPast] at hp
  | consumeAppend =>
    rw [mem_singleton.mp hx]
    cases call with
    | waitForSignal => exact .inl ⟨_, rfl⟩
    | _ => cases hfits

theorem goes_recorded (h : LiveFacts cfg history r)
    (hinp : ∀ i message, how ≠ some (i, .enqueueFailed message)) (hg : Goes r how r' evs ts)
    (hr : ∀ x ∈ r.log, getsPast x = true →
      Recorded (cfg.scheduler ()) (history ++ evs) r.events x) :
    ∀ x ∈ r'.log, getsPast x = true →
      Recorded (cfg.scheduler ()) (history ++ evs) r'.events x := by
  cases hg with
  | call hc hm =>
    exact fun x hx => (mem_append.mp hx).elim (hr x) (issues_recorded h (h.calls hc) hm x)
  | ends => exact hr
  | advance hget hm =>
    obtain ⟨rfl, hin⟩ := inFlight_eq h.single hget
    exact fun x hx => (mem_append.mp hx).elim (hr x) (advances_recorded h hin
      (fun message he => hinp 0 message (by rw [he])) hm x)

theorem recordInv_turn {c c' : Core V} {a : Act Unit V} (hi : RecordInv cfg c)
    (hlive : ∀ r, c.live = some r → LiveFacts cfg c.history r)
    (hok : ∀ i message, a ≠ .advance () i (.enqueueFailed message)) (h : Turn c a c') :
    RecordInv cfg c' := by
  refine h.runs (fun q hq x hx hp => Recorded.mono (hi q hq x hx hp) h.grows)
    (fun hf _ => by simp [hf.log]) (fun {r how r' evs ts} hl ha hg _ hh hq => ?_) fun _ hq => hq
  rw [hh] at hq ⊢
  refine goes_recorded (hlive r hl) ?_ hg hq
  rintro i message rfl
  exact hok i message ha

theorem recordInv_reach (hcfg : cfg.AllUncaught) {s : Sys Unit V}
    (h : (machine cfg).Reach (fun s a => plainBodies s a = true) s) :
    RecordInv cfg (s.core cfg) := by
  have hseq := hcfg.scripts.sequential
  refine core_invariant hseq (P := RecordInv cfg) ?_
    (fun hs hi hok ht => recordInv_turn hi (fun r hr => ?_) ?_ ht) h
  · simp [RecordInv, Core.runs]
  · exact ⟨scheduler_reach hs (hasRun_live hr), prefix_reach hs (hasRun_live hr),
      snapshot_reach hs (hasRun_live hr), (nowInv_reach hseq hs).synced r hr,
      (stepInv_reach hcfg.scripts hs).synced r hr,
      fun hc => (view_of_call (scriptRun_reach hcfg.scripts hs (hasRun_live hr)) hc).1,
      single_reach hcfg.scripts hs (hasRun_live hr), fits_reach hs (hasRun_live hr),
      fun hc => noSleep_reach hc hs⟩
  · rintro i message rfl
    simp [plainBodies] at hok

/-! ## Two runs -/

theorem recorded_unique {cfg : Cfg Unit V} (hcfg : cfg.AllUncaught) {s : Sys Unit V}
    (h : (machine cfg).Reach (fun s a => plainBodies s a = true) s) {r r' : Run V}
    (hr : s.HasRun r) (hr' : s.HasRun r') {x x' : Entry × Outcome V} (hx : x ∈ r.log)
    (hx' : x' ∈ r'.log) (hp : getsPast x = true) (hp' : getsPast x' = true) (he : x.1 = x'.1) :
    x = x' := by
  have hseq := hcfg.scripts.sequential
  have hsig := signalInv_reach hseq h
  have hout := timedOut_reach hseq h
  have hrec := recordInv_reach hcfg h r (mem_runs_core.mpr hr) x hx hp
  have hrec' := recordInv_reach hcfg h r' (mem_runs_core.mpr hr') x' hx' hp'
  have hdel := hsig.log r (mem_runs_core.mpr hr) x hx
  have hdel' := hsig.log r' (mem_runs_core.mpr hr') x' hx'
  obtain ⟨⟨call, k⟩, o⟩ := x
  obtain ⟨entry, o'⟩ := x'
  obtain rfl : Entry.mk call k = entry := he
  refine congrArg (Prod.mk _) ?_
  -- A wait that one run found timed out and another one satisfied.
  have hrace : ∀ {q : Run V} {p : Option V}, s.HasRun q → (∃ n, .signalTimeout k n ∈ q.events) →
      k ∉ consumedOrdinals q.events → (∃ n i v, .signalConsumed n i k ∈ (s.core cfg).history ∧
        (received n (s.core cfg).history)[i]? = some v ∧ p = some v) → False := by
    rintro q p hq ⟨n, ht⟩ hk ⟨m, i, _, hm, _⟩
    exact hout q (mem_runs_core.mpr hq) ht hk (mem_consumedOrdinals.mpr ⟨m, i, hm⟩)
  cases call with
  | now =>
    obtain ⟨t, rfl, ht⟩ := hrec
    obtain ⟨t', rfl, ht'⟩ := hrec'
    rw [(nowInv_reach hseq h).unique ht ht']
  | step name =>
    obtain ⟨v, rfl, hv⟩ := hrec
    obtain ⟨v', rfl, hv'⟩ := hrec'
    rw [stepCompleted_unique (stepInv_reach hcfg.scripts h).nodup hv hv']
  | sleep ms => exact hrec.trans hrec'.symm
  | waitForSignal name timeoutMs =>
    rcases hrec with ⟨p, rfl⟩ | ⟨rfl, ht, hk⟩ <;> rcases hrec' with ⟨p', rfl⟩ | ⟨rfl, ht', hk'⟩
    · obtain ⟨n, i, v, hm, hv, rfl⟩ := hdel.consumed rfl
      obtain ⟨n', i', v', hm', hv', rfl⟩ := hdel'.consumed rfl
      obtain ⟨rfl, rfl⟩ := consumed_unique hsig.once.ordinal hm hm'
      rw [hv] at hv'
      rw [Option.some.inj hv']
    · exact (hrace hr' ht' hk' (hdel.consumed rfl)).elim
    · exact (hrace hr ht hk (hdel'.consumed rfl)).elim
    · rfl

/-- The logs of two runs agree up to the first call that one of them does not get past. -/
theorem logs_agree {cfg : Cfg Unit V} (hcfg : cfg.AllUncaught) {s : Sys Unit V}
    (h : (machine cfg).Reach (fun s a => plainBodies s a = true) s) {r r' : Run V}
    (hr : s.HasRun r) (hr' : s.HasRun r') (before : List (Entry × Outcome V)) :
    ∀ {before' : List (Entry × Outcome V)} {x x' : Entry × Outcome V},
      before ++ [x] <+: r.log → before' ++ [x'] <+: r'.log → before.length = before'.length →
        before = before' ∧ x.1 = x'.1 := by
  have hlog : LogOk r := (logOk_reach hcfg h).log r (mem_runs_core.mpr hr)
  have hlog' : LogOk r' := (logOk_reach hcfg h).log r' (mem_runs_core.mpr hr')
  -- With the same outcomes before it, the next call is the same.
  have hnext : ∀ {b : List (Entry × Outcome V)} {x x' : Entry × Outcome V},
      b ++ [x] <+: r.log → b ++ [x'] <+: r'.log → x.1 = x'.1 := by
    intro b x x' hb hb'
    obtain ⟨hcall, hord, _⟩ := hlog hb
    obtain ⟨hcall', hord', _⟩ := hlog' hb'
    have hfn := (scriptRun_reach hcfg.scripts h hr).agree (scriptRun_reach hcfg.scripts h hr')
      (prefix_reach h hr) (prefix_reach h hr') (ne_of_eq_of_ne hcall (by simp))
      (ne_of_eq_of_ne hcall' (by simp))
    rw [hfn, hcall'] at hcall
    have hc : x.1.call = x'.1.call := (Move.call.inj hcall).symm
    rw [hc, ← hord'] at hord
    exact Entry.ext hc hord
  induction before using reverseRecOn with
  | nil =>
    intro before' x x' hb hb' hlen
    obtain rfl : before' = [] := length_eq_zero_iff.mp hlen.symm
    exact ⟨rfl, hnext hb hb'⟩
  | append_singleton b y ih =>
    intro before' x x' hb hb' hlen
    rcases eq_nil_or_concat before' with rfl | ⟨b', y', rfl⟩
    · simp at hlen
    rw [concat_eq_append] at hb' hlen ⊢
    have hy : b ++ [y] <+: r.log := (prefix_append _ _).trans hb
    have hy' : b' ++ [y'] <+: r'.log := (prefix_append _ _).trans hb'
    obtain ⟨rfl, he⟩ := ih hy hy' (by simpa using hlen)
    have hyy : y = y' := recorded_unique hcfg h hr hr' (hy.subset (by simp)) (hy'.subset (by simp))
      ((hlog hb).past y (by simp)) ((hlog' hb').past y' (by simp)) he
    subst hyy
    exact ⟨rfl, hnext hb hb'⟩

/-- Replay is deterministic: two runs that both get past a call have made the same call there and
seen the same outcome, and once a step is recorded no run that reads it executes its body, so no
step is recorded twice. -/
theorem replay_deterministic {cfg : Cfg Unit V} (hcfg : cfg.AllUncaught) {s : Sys Unit V}
    (h : (machine cfg).Reach (fun s a => plainBodies s a = true) s) :
    (∀ r r', s.HasRun r → s.HasRun r' → ∀ (i : Nat) (x x' : Entry × Outcome V),
      r.log[i]? = some x → r'.log[i]? = some x' → getsPast x = true → getsPast x' = true →
        x = x') ∧
    (∀ r, s.HasRun r → ∀ name v, .stepCompleted name v ∈ r.events → name ∉ r.bodies) ∧
    (stepNames (s.history cfg)).Nodup := by
  have hsteps := stepInv_reach hcfg.scripts h
  refine ⟨fun r r' hr hr' i x x' hx hx' hp hp' => ?_, fun r hr name v hv hb => ?_, hsteps.nodup⟩
  · have hpre : ∀ {l : List (Entry × Outcome V)} {y}, l[i]? = some y →
        l.take i ++ [y] <+: l ∧ (l.take i).length = i := by
      intro l y hy
      obtain ⟨hlt, rfl⟩ := List.getElem?_eq_some_iff.mp hy
      refine ⟨?_, length_take_of_le (Nat.le_of_lt hlt)⟩
      rw [take_append_getElem hlt]
      exact take_prefix _ _
    obtain ⟨hl, hlen⟩ := hpre hx
    obtain ⟨hl', hlen'⟩ := hpre hx'
    have he := (logs_agree hcfg h hr hr' _ hl hl' (hlen.trans hlen'.symm)).2
    exact recorded_unique hcfg h hr hr' (mem_of_getElem? hx) (mem_of_getElem? hx')
      hp hp' he
  · exact hsteps.bodies r (mem_runs_core.mpr hr) name hb (mem_stepNames.mpr ⟨v, hv⟩)

theorem orderCfg_uncaught : orderCfg.AllUncaught := by
  have hthrows : ∀ input seen e, orderFulfil input (seen ++ [Outcome.threw e]) = .throw e := by
    intro input seen e
    rcases seen with _ | ⟨a, _ | ⟨b, _ | ⟨c, seen⟩⟩⟩ <;> simp [orderFulfil, getLast?_cons]
  intro name fn hfn
  simp only [orderCfg] at hfn
  split at hfn
  · refine ⟨orderFulfil, (Option.some.inj hfn).symm, ?_⟩
    exact ⟨fun input seen reason => hthrows input seen _, fun input seen _ e _ =>
      hthrows input seen e⟩
  · cases hfn

/-- The outcomes each past run has seen, and the step bodies it executed. -/
def outcomes (s : Sys Unit Nat) : List (List (Outcome Nat) × List String) :=
  s.past.map fun r => (r.log.map (·.2), r.bodies)

theorem replay_deterministic_order :
    ∃ s, (machine orderCfg).Reach (fun s a => plainBodies s a = true) s ∧
      outcomes s = [([.value 7, .threw (.suspended "signal:manualReview")], ["charge"]),
        ([.value 7, .payload (some 1), .value 8], ["ship"])] ∧
      (∀ r r', s.HasRun r → s.HasRun r' → ∀ (i : Nat) (x x' : Entry × Outcome Nat),
        r.log[i]? = some x → r'.log[i]? = some x' → getsPast x = true → getsPast x' = true →
          x = x') ∧
      (∀ r, s.HasRun r → ∀ name v, .stepCompleted name v ∈ r.events → name ∉ r.bodies) ∧
      (stepNames (s.history orderCfg)).Nodup := by
  obtain ⟨s, hs, hobs⟩ := Machine.Reach.observe (machine orderCfg)
    (fun s a => plainBodies s a = true) (startOrder [] ++ approveOrder ++ shipOrder) outcomes
    [([.value 7, .threw (.suspended "signal:manualReview")], ["charge"]),
      ([.value 7, .payload (some 1), .value 8], ["ship"])] (by decide +kernel)
  exact ⟨s, hs, hobs, replay_deterministic orderCfg_uncaught hs⟩

end NevoMessaging.Workflow
