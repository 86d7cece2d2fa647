import NevoMessaging.Workflow.Single

/-!
# ctx.now

`ctx.now()` numbers its calls within a run and records each value under its number. A run
that replays a call with the same number gets the recorded value. The numbers are shared by
the calls of the workflow function and those of its step bodies, but a replay does not
execute the bodies of completed steps. So a body that calls `ctx.now()` shifts the numbers of
all calls after it in the run that executes it, and in no later run.

Results:
1. `nowInv_reach`: the live run knows every recorded value, and no number has two values.
2. `now_stable`: what `ctx.now()` returns is stable as long as a run does not call it after a step
   body of the same run has.
3. `now_shifted_by_body`: otherwise a body may change what a later call returns on replay.
-/

namespace NevoMessaging.Workflow

open List

variable {V : Type}

/-! ## Recorded values -/

/-- No number has two values, and the values that the live run knows are the recorded ones. -/
structure NowInv (c : Core V) : Prop where
  unique : ∀ {k : Nat} {t t' : Int}, .nowRecorded k t ∈ c.history →
    .nowRecorded k t' ∈ c.history → t = t'
  synced : ∀ r, c.live = some r → r.ctx.replay.nows = (replay c.history).nows

variable {c c' : Core V} {a : Act Unit V} {r r' : Run V} {how : Option (Nat × Input V)}
  {evs : List (WorkflowEvent V)} {ts : List (String × WakeupPayload)}

theorem goes_nows (h : Goes r how r' evs ts) :
    (r'.ctx.replay.nows = r.ctx.replay.nows ∧ ∀ k t, .nowRecorded k t ∉ evs) ∨
      ∃ k t, r.ctx.replay.nows k = none ∧ evs = [.nowRecorded k t] ∧
        r'.ctx.replay.nows = Function.update r.ctx.replay.nows k (some t) := by
  cases h with
  | call _ hm =>
    cases hm with
    | nowNew hn => exact .inr ⟨_, _, hn, rfl, rfl⟩
    | _ => exact .inl ⟨rfl, by simp⟩
  | ends => exact .inl ⟨rfl, by simp⟩
  | advance _ hm =>
    cases hm with
    | bodyNowNew hn => exact .inr ⟨_, _, hn, rfl, rfl⟩
    | _ => exact .inl ⟨rfl, by simp⟩

theorem replay_nows_append {history : List (WorkflowEvent V)} (h : ∀ k t, .nowRecorded k t ∉ evs) :
    (replay (history ++ evs)).nows = (replay history).nows :=
  replay_append_eq (·.nows) fun e he st => by
    cases e with
    | nowRecorded k t => exact absurd he (h k t)
    | _ => rfl

theorem nowInv_turn (hi : NowInv c) (h : Turn c a c') : NowInv c' := by
  obtain ⟨huniq, hsync⟩ := hi
  have happend : ∀ {evs : List (WorkflowEvent V)}, (∀ k t, .nowRecorded k t ∉ evs) →
      ∀ {k t t'}, .nowRecorded k t ∈ c.history ++ evs → .nowRecorded k t' ∈ c.history ++ evs →
        t = t' := by
    intro evs hno k t t' hm hm'
    exact huniq ((mem_append.mp hm).resolve_right (hno k t))
      ((mem_append.mp hm').resolve_right (hno k t'))
  cases h with
  | @outside _ evs _ _ _ hout =>
    have hno : ∀ k t, .nowRecorded k t ∉ evs := fun k t hm => by
      simpa [WorkflowEvent.outside] using hout _ hm
    exact ⟨happend hno, fun r hr => (hsync r hr).trans (replay_nows_append hno).symm⟩
  | read hf =>
    refine ⟨huniq, fun q hq => ?_⟩
    cases hq
    rw [hf.ctx]
    rfl
  | readEnds => exact ⟨huniq, by simp⟩
  | @go hist evs past how r r' ts hg =>
    have hs := hsync r rfl
    rcases goes_nows hg with ⟨hc, hno⟩ | ⟨k, t, hk, rfl, hc⟩
    · refine ⟨happend hno, fun q hq => ?_⟩
      cases hq
      rw [hc, hs, replay_nows_append hno]
    · rw [hs, replay_nows_none] at hk
      refine ⟨fun {j u u'} hm hm' => ?_, fun q hq => ?_⟩
      · -- The number is new, so an old and the new value never share it.
        simp only [mem_append, mem_singleton, WorkflowEvent.nowRecorded.injEq] at hm hm'
        rcases hm with hm | ⟨rfl, rfl⟩ <;> rcases hm' with hm' | ⟨hjk, rfl⟩
        · exact huniq hm hm'
        · exact absurd (hjk ▸ hm) (hk u)
        · exact absurd hm' (hk u')
        · rfl
      · cases hq
        rw [hc, hs, replay_append]
        rfl
  | finish x => exact ⟨happend (by cases x <;> simp [Ending.event]), by simp⟩

theorem nowInv_reach {cfg : Cfg Unit V} (hseq : cfg.AllSequential)
    {ok : Sys Unit V → Act Unit V → Prop} {s : Sys Unit V} (h : (machine cfg).Reach ok s) :
    NowInv (s.core cfg) := by
  refine core_invariant hseq ?_ (fun _ hi _ ht => nowInv_turn hi ht) h
  constructor <;> simp

/-! ## Calls outside of step bodies -/

def Outcome.time? : Outcome V → Option Int
  | .time t => some t
  | _ => none

/-- The values the workflow function itself got from `ctx.now()`, in the order of the calls. A
body's call is not a call of the function and is not in the log. -/
def Run.outsideNows (r : Run V) : List Int := r.log.filterMap (·.2.time?)

/-- The function of the run is about to call `ctx.now()`. -/
def Run.asksNow (r : Run V) : Bool :=
  match r.fn r.view with
  | .call .now => true
  | _ => false

/-- The steps in which a workflow function calls `ctx.now()` only while no step body executed
earlier in the same run has called it. -/
def nowBeforeBodies (s : Sys Unit V) : Act Unit V → Bool
  | .move () => (s.cur ()).run?.all fun r => !r.asksNow || r.bodyNows == 0
  | _ => true

/-- The `j`-th value (from 0) is recorded under the number `j + 1`. -/
def Numbered (history : List (WorkflowEvent V)) (ts : List Int) : Prop :=
  ∀ (j : Nat) (t : Int), ts[j]? = some t → .nowRecorded (j + 1) t ∈ history

variable {history evs : List (WorkflowEvent V)} {c c' : Core V} {r r' : Run V}
  {how : Option (Nat × Input V)} {ts : List (String × WakeupPayload)}

theorem Numbered.mono {more : List (WorkflowEvent V)} {ts : List Int} (h : Numbered history ts)
    (hp : history <+: more) : Numbered more ts :=
  fun j t hj => hp.subset (h j t hj)

theorem Numbered.concat {ts : List Int} {t : Int} (h : Numbered history ts)
    (ht : .nowRecorded (ts.length + 1) t ∈ history) :
    Numbered history (ts ++ [t]) := by
  intro j u hj
  rcases Nat.lt_or_ge j ts.length with hlt | hge
  · rw [getElem?_append_left hlt] at hj
    exact h j u hj
  · rw [getElem?_append_right hge, getElem?_singleton] at hj
    split at hj
    · next hz =>
      cases hj
      rwa [show j = ts.length by omega]
    · cases hj

/-- The calls of the live run outside of step bodies have the first numbers, as long as no step
body has called. -/
structure ClockInv (c : Core V) : Prop where
  counted : ∀ r, c.live = some r → r.bodyNows = 0 → r.ctx.nowOrdinal = r.outsideNows.length
  numbered : ∀ r ∈ c.runs, Numbered c.history r.outsideNows

theorem outsideNows_append {entry : Entry} {prog : Progress V}
    (h : r'.log = r.log ++ prog.closed entry) :
    r'.outsideNows = r.outsideNows ++ (prog.closed entry).filterMap (·.2.time?) := by
  rw [Run.outsideNows, h, filterMap_append]
  rfl

theorem goes_counted (hc : r.bodyNows = 0 → r.ctx.nowOrdinal = r.outsideNows.length)
    (h : Goes r how r' evs ts) (hb : r'.bodyNows = 0) :
    r'.ctx.nowOrdinal = r'.outsideNows.length := by
  cases h with
  | call _ hm =>
    rw [outsideNows_append rfl]
    cases hm <;> simpa [Run.issued, Progress.closed, Outcome.time?] using hc hb
  | ends => exact hc hb
  | advance _ hm =>
    rw [outsideNows_append rfl]
    cases hm with
    | bodyNowRecorded | bodyNowNew => simp [Run.advanced, bodyAsksNow] at hb
    | _ => simpa [Run.advanced, Progress.closed, Outcome.time?] using hc hb

theorem goes_numbered (hs : r.ctx.replay.nows = (replay history).nows)
    (hc : r.bodyNows = 0 → r.ctx.nowOrdinal = r.outsideNows.length)
    (hok : how = none → r.fn r.view = .call .now → r.bodyNows = 0)
    (h : Goes r how r' evs ts) (hnum : Numbered (history ++ evs) r.outsideNows) :
    Numbered (history ++ evs) r'.outsideNows := by
  cases h with
  | call hcall hm =>
    rw [outsideNows_append rfl]
    cases hm with
    | nowRecorded hk =>
      refine hnum.concat ?_
      rw [← hc (hok rfl hcall)]
      exact mem_append_left _ (replay_nows_mem (hs ▸ hk))
    | nowNew =>
      refine hnum.concat ?_
      rw [← hc (hok rfl hcall)]
      exact mem_append_right _ (mem_singleton_self _)
    | _ => simpa [Progress.closed, Outcome.time?] using hnum
  | ends => exact hnum
  | advance _ hm =>
    rw [outsideNows_append rfl]
    cases hm <;> simpa [Progress.closed, Outcome.time?] using hnum

theorem clockInv_turn {a : Act Unit V} (hi : ClockInv c) (hn : NowInv c)
    (hok : a = .move () → ∀ r, c.live = some r → r.fn r.view = .call .now → r.bodyNows = 0)
    (h : Turn c a c') : ClockInv c' := by
  refine ⟨?_, h.runs (fun q hq => (hi.numbered q hq).mono h.grows) (fun hf _ => ?_) ?_
    fun _ hq => hq⟩
  · cases h with
    | outside => exact hi.counted
    | read hf =>
      intro q hq _
      cases hq
      rw [hf.ctx, Run.outsideNows, hf.log]
      rfl
    | readEnds | finish => simp
    | go hg =>
      intro q hq
      cases hq
      exact goes_counted (hi.counted _ rfl) hg
  · rw [Run.outsideNows, hf.log]
    exact fun j t hj => by simp at hj
  · intro r how r' evs ts hl ha hg _ hh hnum
    rw [hh] at hnum ⊢
    refine goes_numbered (hn.synced r hl) (hi.counted r hl) ?_ hg hnum
    rintro rfl
    exact hok ha r hl

theorem clockInv_reach {cfg : Cfg Unit V} (hseq : cfg.AllSequential) {s : Sys Unit V}
    (h : (machine cfg).Reach (fun s a => nowBeforeBodies s a = true) s) :
    ClockInv (s.core cfg) := by
  refine core_invariant hseq ?_ (fun hs hi hok ht => clockInv_turn hi (nowInv_reach hseq hs)
    ?_ ht) h
  · constructor <;> simp [Core.runs]
  · rintro rfl r hr hnow
    simpa [nowBeforeBodies, show (Cur.run? _) = some r from hr, Run.asksNow, hnow] using hok

/-- The `j`-th call of `ctx.now()` outside of step bodies returns the same value in every run,
if no such call is made after a step body of the same run has called `ctx.now()`. -/
theorem now_stable {cfg : Cfg Unit V} (hscripts : cfg.AllScripts) {s : Sys Unit V}
    (h : (machine cfg).Reach (fun s a => nowBeforeBodies s a = true) s) {r r' : Run V}
    (hr : s.HasRun r) (hr' : s.HasRun r') {j : Nat} {t t' : Int}
    (ht : r.outsideNows[j]? = some t) (ht' : r'.outsideNows[j]? = some t') : t = t' := by
  have hi := (clockInv_reach hscripts.sequential h).numbered
  exact (nowInv_reach hscripts.sequential h).unique (hi r (mem_runs_core.mpr hr) j t ht)
    (hi r' (mem_runs_core.mpr hr') j t' ht')

/-! ## A report that is stamped -/

/-- Load the data, take a time stamp, wait for a signal and save. -/
def stampReport : Script Nat := fun _ seen =>
  match seen with
  | [] => .call (.step "load")
  | [.value _] => .call .now
  | [_, .time _] => .call (.waitForSignal "go" none)
  | [_, _, .payload _] => .call (.step "save")
  | [_, _, _, .value v] => .ret v
  | seen =>
    match seen.getLast? with
    | some (.threw e) => .throw e
    | _ => .idle

def stampCfg : Cfg Unit Nat where
  workflowId := "r-1"
  workflows := fun _ name => if name = "report" then some (ofScript stampReport) else none
  scheduler := fun _ => false
  lock := false

theorem stampCfg_scripts : stampCfg.AllScripts := by
  intro e name fn hfn
  simp only [stampCfg] at hfn
  split at hfn
  · exact ⟨stampReport, (Option.some.inj hfn).symm⟩
  · cases hfn

/-- The first run, until it waits for the signal. `during` happens while the body of `load` is
executing, at time 10; the report is stamped at time 20. -/
def stampRun (during : List (Act Unit Nat)) : List (Act Unit Nat) :=
  [Act.start () "report" 0, .join 0, .dequeue (), .read () 0, .clock 10, .move ()] ++ during ++
    [Act.advance () 0 (.bodyResolved 7), .advance () 0 .resolved, .advance () 0 .resolved,
      .clock 20, .move (), .move (), .move (), .finish ()]

/-- The second run, until it has taken its stamp, at time 30. -/
def restampRun : List (Act Unit Nat) :=
  [.signal () "go" 1, .join 0, .dequeue (), .read () 0, .clock 30, .move (), .move ()]

/-- The stamps of the first run and of the live one, and how often step bodies of the live run
called `ctx.now()`. -/
def stamps (s : Sys Unit Nat) : Option (List Int × List Int × Nat) :=
  match s.past, (s.cur ()).run? with
  | r :: _, some r' => some (r.outsideNows, r'.outsideNows, r'.bodyNows)
  | _, _ => none

theorem stamps_runs {s : Sys Unit Nat} {ts ts' : List Int} {n : Nat}
    (h : stamps s = some (ts, ts', n)) :
    ∃ r r', s.HasRun r ∧ s.HasRun r' ∧ r.outsideNows = ts ∧ r'.outsideNows = ts' ∧
      r'.bodyNows = n := by
  unfold stamps at h
  split at h
  · next r _ r' hp hl =>
    simp only [Option.some.injEq, Prod.mk.injEq] at h
    exact ⟨r, r', .inl (by simp [hp]), hasRun_iff.mpr (.inr hl), h⟩
  · cases h

/-- `load` calls `ctx.now()`. The first run stamps the report with its second recorded time,
the replay with the first one, which is that of `load`. -/
theorem now_shifted_by_body :
    ¬ ∀ s, (machine stampCfg).Reach Machine.free s → ∀ r r', s.HasRun r → s.HasRun r' →
      ∀ (j : Nat) (t t' : Int), r.outsideNows[j]? = some t → r'.outsideNows[j]? = some t' →
        t = t' := by
  obtain ⟨s, hs, hobs⟩ := Machine.Reach.observe (machine stampCfg) Machine.free
    (stampRun [Act.advance () 0 .bodyNow] ++ restampRun) stamps (some ([20], [10], 0))
      (by decide +kernel)
  obtain ⟨r, r', hr, hr', hts, hts', _⟩ := stamps_runs hobs
  intro hall
  have heq := hall s hs r r' hr hr' 0 20 10 (by rw [hts]; rfl) (by rw [hts']; rfl)
  exact absurd heq (by decide)

theorem now_stable_saved :
    ∃ s r r', (machine stampCfg).Reach (fun s a => nowBeforeBodies s a = true) s ∧
      s.HasRun r ∧ s.HasRun r' ∧ r'.bodyNows = 1 ∧
      ∃ t t', r.outsideNows[0]? = some t ∧ r'.outsideNows[0]? = some t' ∧ t = t' := by
  obtain ⟨s, hs, hobs⟩ := Machine.Reach.observe (machine stampCfg)
    (fun s a => nowBeforeBodies s a = true)
    (stampRun [] ++ restampRun ++
      [.move (), .advance () 0 .resolved, .move (), .advance () 0 .bodyNow])
    stamps (some ([20], [20], 1)) (by decide +kernel)
  obtain ⟨r, r', hr, hr', hts, hts', hn⟩ := stamps_runs hobs
  have ht : r.outsideNows[0]? = some 20 := by rw [hts]; rfl
  have ht' : r'.outsideNows[0]? = some 20 := by rw [hts']; rfl
  exact ⟨s, r, r', hs, hr, hr', hn, 20, 20, ht, ht', now_stable stampCfg_scripts hs hr hr' ht ht'⟩

end NevoMessaging.Workflow
