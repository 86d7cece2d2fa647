import Mathlib.Algebra.GroupWithZero.Nat
import NevoMessaging.Workflow.Single

/-!
# Deterministic functions and their logs

What the log of a run says about the function that made it. A script is called with the
outcomes it has seen so far, so every call in the log is the script's answer to the outcomes
before it, and its ordinal is the number of calls of its kind up to there. A script that does
not catch what it should not catch stops at the first such throw.

Results:
1. `fits_reach`: an open call is always in a part of the method that was called.
2. `scriptRun_reach`: every run executes the script of the first start event.
3. `single_reach`: a script has at most one call open.
4. `logOk_reach`: the log of every run is determined by its outcomes, call by call.
-/

namespace NevoMessaging.Workflow

open List

variable {E V : Type}

/-! ## Open calls -/

/-- The open call is in a part of the method that was called. -/
def Pending.fits : Pending V → CtxCall → Bool
  | .body n, .step m | .stepAppend n _, .step m | .stepStore n _, .step m => n == m
  | .sleepEnqueue .., .sleep _ | .sleepAppend .., .sleep _ | .sleepStore _, .sleep _ => true
  | .consumeAppend .., .waitForSignal .. | .timeoutEnqueue .., .waitForSignal ..
  | .timeoutAppend .., .waitForSignal .. | .timeoutStore .., .waitForSignal .. => true
  | _, _ => false

theorem Issues.fits {scheduler : Bool} {date : Int} {c : Ctx V} {call : CtxCall} {m : Moved V}
    (h : Issues scheduler date c call m) (k : Nat) :
    ∀ x ∈ m.progress.opened ⟨call, k⟩, x.2.fits x.1.call = true := by
  cases h <;> simp [Progress.opened, Pending.fits]

theorem Advances.fits {workflowId : String} {date : Int} {c : Ctx V} {p : Pending V}
    {inp : Input V} {m : Moved V} (h : Advances workflowId date c p inp m) {entry : Entry}
    (hp : p.fits entry.call = true) : ∀ x ∈ m.progress.opened entry, x.2.fits x.1.call = true := by
  obtain ⟨call, k⟩ := entry
  cases h with
  | bodyNowRecorded | bodyNowNew | bodyResolved | stepAppend | sleepEnqueue | sleepAppend
    | timeoutEnqueue | timeoutAppend =>
    intro x hx
    rw [mem_singleton.mp hx]
    cases call <;> exact hp
  | _ => simp [Progress.opened]

variable {r r' : Run V} {cfg : Cfg Unit V} {s : Sys Unit V} {how : Option (Nat × Input V)}
  {evs : List (WorkflowEvent V)} {ts : List (String × WakeupPayload)}

theorem fits_reach [DecidableEq E] {cfg : Cfg E V} {ok : Sys E V → Act E V → Prop} {s : Sys E V}
    (h : (machine cfg).Reach ok s) (hr : s.HasRun r) :
    ∀ x ∈ r.inFlight, x.2.fits x.1.call = true := by
  refine runs_invariant (P := fun r => ∀ x ∈ r.inFlight, x.2.fits x.1.call = true)
    (fun e seed events => ?_) (fun hi hg => ?_) (fun _ hi => hi) h hr
  · simp [(executeExclusive_fresh cfg e seed events).inFlight]
  · cases hg with
    | call _ hm => exact fun x hx => (mem_append.mp hx).elim (hi x) (hm.fits _ x)
    | ends => exact hi
    | advance hget hm =>
      have hp := hi _ (mem_of_getElem? hget)
      exact fun x hx => (Run.mem_advanced hget hx).elim (hi x) (hm.fits hp x)

/-! ## The function of a run -/

/-- The run executes the script of the first start event, or no function at all. -/
def ScriptRun (cfg : Cfg Unit V) (r : Run V) : Prop :=
  r.fn = (fun _ => .idle) ∨
    ∃ name input f seed, startOf r.events = some (name, input) ∧
      cfg.workflows () name = some (ofScript f) ∧ r.fn = ofScript f input seed

theorem startOf_append {events : List (WorkflowEvent V)} {start : String × V}
    (h : startOf events = some start) (more : List (WorkflowEvent V)) :
    startOf (events ++ more) = some start := by
  unfold startOf at h ⊢
  rw [findSome?_append, h]
  rfl

theorem executeExclusive_scriptRun (hcfg : cfg.AllScripts) (seed : Nat)
    (events : List (WorkflowEvent V)) : ScriptRun cfg (executeExclusive cfg () seed events) := by
  cases hres : (executeExclusive cfg () seed events).result with
  | some x => exact .inl (executeExclusive_ends hres).1
  | none =>
    obtain ⟨_, name, input, hstart, ⟨_, hfn, _⟩ | ⟨fn, hw, hfn, _⟩⟩ := executeExclusive_runs hres
    · exact .inl hfn
    · obtain ⟨f, rfl⟩ := hcfg () name fn hw
      refine .inr ⟨name, input, f, seed, ?_, hw, hfn⟩
      rw [(executeExclusive_fresh cfg () seed events).events]
      exact hstart

theorem ScriptRun.goes (h : ScriptRun cfg r) (hg : Goes r how r' evs ts) : ScriptRun cfg r' := by
  rwa [ScriptRun, ← hg.same.events, ← hg.same.fn] at h

theorem scriptRun_reach (hcfg : cfg.AllScripts) {ok : Sys Unit V → Act Unit V → Prop}
    (h : (machine cfg).Reach ok s) (hr : s.HasRun r) : ScriptRun cfg r :=
  runs_invariant (fun _ seed events => executeExclusive_scriptRun hcfg seed events)
    (fun hi hg => hi.goes hg) (fun _ hi => hi) h hr

theorem ScriptRun.agree {history : List (WorkflowEvent V)} (h : ScriptRun cfg r)
    (h' : ScriptRun cfg r') (hp : r.events <+: history) (hp' : r'.events <+: history) {v : View V}
    (hv : r.fn v ≠ .idle) (hv' : r'.fn v ≠ .idle) :
    r.fn = r'.fn := by
  rcases h with h | ⟨name, input, f, seed, hs, hw, hfn⟩
  · simp [h] at hv
  rcases h' with h' | ⟨name', input', f', seed', hs', hw', hfn'⟩
  · simp [h'] at hv'
  obtain ⟨more, rfl⟩ := hp
  obtain ⟨more', heq⟩ := hp'
  have hstart := startOf_append hs more
  rw [← heq, startOf_append hs' more'] at hstart
  cases hstart
  rw [hw] at hw'
  rw [hfn, hfn', Option.some.inj hw']
  rfl

theorem inFlight_eq (h : r.inFlight.length ≤ 1) {i : Nat} {x : Entry × Pending V}
    (hi : r.inFlight[i]? = some x) : i = 0 ∧ r.inFlight = [x] := by
  obtain ⟨hlt, hx⟩ := List.getElem?_eq_some_iff.mp hi
  obtain rfl : i = 0 := by omega
  obtain ⟨y, hy⟩ := length_eq_one_iff.mp (show r.inFlight.length = 1 by omega)
  refine ⟨rfl, ?_⟩
  simp only [hy, getElem_cons_zero] at hx
  rw [hy, hx]

theorem view_of_call (hs : ScriptRun cfg r) {c : CtxCall} (hc : r.fn r.view = .call c) :
    r.inFlight = [] ∧ r.fn ⟨r.log, [], false⟩ = .call c := by
  rcases hs with hs | ⟨_, input, f, seed, _, _, hfn⟩
  · simp [hs] at hc
  rw [hfn] at hc ⊢
  obtain ⟨_, hw, hopen⟩ := ofScript_open (ne_of_eq_of_ne hc (by simp))
  refine ⟨by simpa [Run.view] using hw, ?_⟩
  rw [← hc, hopen]
  simp [ofScript, Run.view]

theorem single_reach (hcfg : cfg.AllScripts) {ok : Sys Unit V → Act Unit V → Prop}
    (h : (machine cfg).Reach ok s) (hr : s.HasRun r) : r.inFlight.length ≤ 1 := by
  have hopened : ∀ (prog : Progress V) (entry : Entry), (prog.opened entry).length ≤ 1 := by
    intro prog entry
    cases prog <;> simp [Progress.opened]
  refine (runs_invariant (P := fun r => ScriptRun cfg r ∧ r.inFlight.length ≤ 1)
    (fun e seed events => ⟨executeExclusive_scriptRun hcfg seed events, ?_⟩)
    (fun hi hg => ⟨hi.1.goes hg, ?_⟩) (fun _ hi => hi) h hr).2
  · simp [(executeExclusive_fresh cfg e seed events).inFlight]
  · cases hg with
    | @call _ c m hc => simpa [Run.issued, (view_of_call hi.1 hc).1] using hopened m.progress _
    | ends => exact hi.2
    | @advance _ _ i entry p inp m hget =>
      obtain ⟨rfl, hin⟩ := inFlight_eq hi.2 hget
      simpa [Run.advanced, hin] using hopened m.progress entry

/-! ## Scripts that do not catch everything -/

/-- The script lets `WorkflowSuspended` and the rejection of a step body through. -/
structure Uncaught (f : Script V) : Prop where
  suspended : ∀ input seen reason,
    f input (seen ++ [Outcome.threw (.suspended reason)]) = .throw (.suspended reason)
  rejected : ∀ input seen name e, f input seen = .call (.step name) →
    f input (seen ++ [Outcome.threw e]) = .throw e

def Cfg.AllUncaught (cfg : Cfg Unit V) : Prop :=
  ∀ name fn, cfg.workflows () name = some fn → ∃ f, fn = ofScript f ∧ Uncaught f

theorem Cfg.AllUncaught.scripts (h : cfg.AllUncaught) : cfg.AllScripts := by
  intro e name fn hfn
  obtain ⟨f, hf, _⟩ := h name fn hfn
  exact ⟨f, hf⟩

/-- A function gets past a call unless the call throws what the function must not catch. -/
def getsPast : Entry × Outcome V → Bool
  | (⟨.step _, _⟩, .threw _) => false
  | (_, .threw (.suspended _)) => false
  | _ => true

/-- The steps of a system in which step bodies do not call `ctx` and the scheduler accepts
every task, as the in-memory one does. -/
def plainBodies (_ : Sys Unit V) : Act Unit V → Bool
  | .advance _ _ .bodyNow | .advance _ _ (.enqueueFailed _) => false
  | _ => true

/-! ## The log of a run -/

/-- What a call adds to the counter that numbers calls like `c`. Steps have no counter. -/
def CtxCall.counts : CtxCall → CtxCall → Nat
  | .now, .now => 1
  | .sleep _, .sleep _ => 1
  | .waitForSignal .., .waitForSignal .. => 1
  | _, _ => 0

def ordinalIn (calls : List CtxCall) (c : CtxCall) : Nat := (calls.map (·.counts c)).sum

theorem ordinalIn_append (calls more : List CtxCall) (c : CtxCall) :
    ordinalIn (calls ++ more) c = ordinalIn calls c + ordinalIn more c := by
  simp [ordinalIn]

def callsOf {α : Type} (log : List (Entry × α)) : List CtxCall := log.map (·.1.call)

/-- A call is due after others: it is the answer of the function to what came before it, has the
ordinal that is next, and the function has got past all that came before. -/
structure Due (r : Run V) (before : List (Entry × Outcome V)) (entry : Entry) : Prop where
  call : r.fn ⟨before, [], false⟩ = .call entry.call
  ordinal : entry.ordinal = ordinalIn (callsOf before ++ [entry.call]) entry.call
  past : ∀ y ∈ before, getsPast y = true

def LogOk (r : Run V) : Prop :=
  ∀ {before : List (Entry × Outcome V)} {x : Entry × Outcome V}, before ++ [x] <+: r.log →
    Due r before x.1

/-- The open call of the live run is the next one of its log. -/
structure LiveLog (r : Run V) : Prop where
  due : ∀ x ∈ r.inFlight, Due r r.log x.1
  counted : ∀ c, r.ctx.ordinal c = ordinalIn (callsOf r.log ++ callsOf r.inFlight) c

theorem Due.congr {before : List (Entry × Outcome V)} {entry : Entry} (h : Due r before entry)
    (hfn : r'.fn = r.fn) : Due r' before entry :=
  ⟨hfn ▸ h.call, h.ordinal, h.past⟩

variable {date : Int}

theorem issues_ordinal {scheduler : Bool} {c : Ctx V} {call : CtxCall} {m : Moved V}
    (h : Issues scheduler date c call m) (d : CtxCall) :
    m.ctx.ordinal d = c.ordinal d + call.counts d := by
  cases h <;> cases d <;> rfl

theorem advances_ordinal {workflowId : String} {c : Ctx V} {p : Pending V} {inp : Input V}
    {m : Moved V} (h : Advances workflowId date c p inp m) (hinp : inp ≠ .bodyNow) (d : CtxCall) :
    m.ctx.ordinal d = c.ordinal d := by
  cases h with
  | bodyNowRecorded | bodyNowNew => exact absurd rfl hinp
  | _ => cases d <;> rfl

theorem getsPast_false {x : Entry × Outcome V} (h : getsPast x = false) :
    ∃ e, x.2 = .threw e ∧ ((∃ name, x.1.call = .step name) ∨ ∃ reason, e = .suspended reason) := by
  obtain ⟨⟨call, k⟩, o⟩ := x
  cases o with
  | threw e =>
    refine ⟨e, rfl, ?_⟩
    cases call with
    | step name => exact .inl ⟨name, rfl⟩
    | _ =>
      cases e with
      | suspended reason => exact .inr ⟨reason, rfl⟩
      | _ => simp [getsPast] at h
  | _ => simp [getsPast] at h

theorem past_of_call (hcfg : cfg.AllUncaught) (hs : ScriptRun cfg r) (hlog : LogOk r) {c : CtxCall}
    (hc : r.fn ⟨r.log, [], false⟩ = .call c) :
    ∀ y ∈ r.log, getsPast y = true := by
  rcases hs with hs | ⟨name, input, g, seed, _, hw, hfn⟩
  · simp [hs] at hc
  obtain ⟨f, hgf, hu⟩ := hcfg name _ hw
  rw [hgf] at hfn
  have hf : ∀ l, r.fn ⟨l, [], false⟩ = f input (l.map (·.2)) := fun l => by
    simp [hfn, ofScript]
  rcases eq_nil_or_concat r.log with hnil | ⟨before, x, hx⟩
  · simp [hnil]
  rw [concat_eq_append] at hx
  have hpre : before ++ [x] <+: r.log := hx ▸ prefix_rfl
  intro y hy
  rw [hx] at hy
  rcases mem_append.mp hy with hy | hy
  · exact (hlog hpre).past y hy
  rw [mem_singleton.mp hy, ← Bool.not_eq_false]
  intro hno
  obtain ⟨e, he, hwhy⟩ := getsPast_false hno
  rw [hf, hx, map_append, map_singleton, he] at hc
  rcases hwhy with ⟨name, hstep⟩ | ⟨reason, rfl⟩
  · have hcall := (hlog hpre).call
    rw [hf, hstep] at hcall
    rw [hu.rejected input _ name e hcall] at hc
    cases hc
  · rw [hu.suspended] at hc
    cases hc

theorem booked (h : LogOk r) (hfn : r'.fn = r.fn) {entry : Entry} {prog : Progress V}
    (hlog : r'.log = r.log ++ prog.closed entry) (hin : r'.inFlight = prog.opened entry)
    (hdue : Due r r.log entry)
    (hord : ∀ c, r'.ctx.ordinal c = ordinalIn (callsOf r.log ++ [entry.call]) c) :
    LogOk r' ∧ LiveLog r' := by
  cases prog with
  | settled o =>
    have hin : r'.inFlight = [] := hin
    refine ⟨fun hp => ?_, by simp [hin], fun c => ?_⟩
    · rw [hlog] at hp
      rcases prefix_concat_iff.mp hp with heq | hp
      · obtain ⟨rfl, hx⟩ := append_inj' heq rfl
        cases hx
        exact hdue.congr hfn
      · exact (h hp).congr hfn
    · simp [hord, hlog, hin, callsOf, Progress.closed]
  | pending p =>
    have hin : r'.inFlight = [(entry, p)] := hin
    have hlog : r'.log = r.log := by simpa [Progress.closed] using hlog
    refine ⟨fun hp => (h (hlog ▸ hp)).congr hfn, fun x hx => ?_, fun c => ?_⟩
    · rw [hin, mem_singleton] at hx
      rw [hx, hlog]
      exact hdue.congr hfn
    · simp [hord, hlog, hin, callsOf]

theorem goes_log (hcfg : cfg.AllUncaught) (hs : ScriptRun cfg r)
    (hsingle : r.inFlight.length ≤ 1) (hlog : LogOk r) (hlive : LiveLog r)
    (hinp : ∀ i, how ≠ some (i, .bodyNow)) (h : Goes r how r' evs ts) : LogOk r' ∧ LiveLog r' := by
  cases h with
  | @call _ c m hc hm =>
    obtain ⟨hin, hc⟩ := view_of_call hs hc
    have hord : ∀ d, m.ctx.ordinal d = ordinalIn (callsOf r.log ++ [c]) d := by
      intro d
      rw [issues_ordinal hm, hlive.counted, hin, ordinalIn_append, ordinalIn_append]
      simp [callsOf, ordinalIn]
    exact booked hlog rfl rfl (by simp [Run.issued, hin])
      ⟨hc, hord c, past_of_call hcfg hs hlog hc⟩ hord
  | ends => exact ⟨fun hp => (hlog hp).congr rfl, fun x hx => (hlive.due x hx).congr rfl,
      hlive.counted⟩
  | @advance _ _ i entry p inp m hi hm =>
    obtain ⟨rfl, hin⟩ := inFlight_eq hsingle hi
    refine booked hlog rfl rfl (by simp [Run.advanced, hin]) (hlive.due (entry, p) (by simp [hin]))
      fun c => ?_
    refine (advances_ordinal hm (fun he => hinp 0 (by rw [he])) c).trans ?_
    rw [hlive.counted, hin]
    rfl

structure ScriptInv (c : Core V) : Prop where
  log : ∀ r ∈ c.runs, LogOk r
  live : ∀ r, c.live = some r → LiveLog r

theorem fresh_log {history : List (WorkflowEvent V)} (h : Fresh history r) :
    LogOk r ∧ LiveLog r := by
  refine ⟨fun hp => ?_, by simp [h.inFlight], fun c => ?_⟩
  · simp [h.log] at hp
  · rw [h.ctx, h.log, h.inFlight]
    cases c <;> rfl

theorem scriptInv_turn (hcfg : cfg.AllUncaught) {c c' : Core V} {a : Act Unit V} (hi : ScriptInv c)
    (hs : ∀ r, c.live = some r → ScriptRun cfg r)
    (hsingle : ∀ r, c.live = some r → r.inFlight.length ≤ 1)
    (hok : ∀ i, a ≠ .advance () i .bodyNow) (h : Turn c a c') : ScriptInv c' := by
  have hgo : ∀ {r how r' evs ts}, c.live = some r → a = .go () how → Goes r how r' evs ts →
      LogOk r' ∧ LiveLog r' := by
    rintro r how r' evs ts hl rfl hg
    refine goes_log hcfg (hs r hl) (hsingle r hl) (hi.log r (Core.mem_live hl))
      (hi.live r hl) ?_ hg
    rintro i rfl
    exact hok i rfl
  refine ⟨h.runs hi.log (fun hf _ => (fresh_log hf).1) (fun hl ha hg _ _ _ => (hgo hl ha hg).1)
    fun _ hq _ _ hp => (hq hp).congr rfl, ?_⟩
  cases h with
  | outside => exact hi.live
  | read hf => exact fun q hq => Option.some.inj hq ▸ (fresh_log hf).2
  | readEnds | finish => simp
  | go hg => exact fun q hq => Option.some.inj hq ▸ (hgo rfl rfl hg).2

theorem logOk_reach (hcfg : cfg.AllUncaught)
    (h : (machine cfg).Reach (fun s a => plainBodies s a = true) s) : ScriptInv (s.core cfg) := by
  refine core_invariant hcfg.scripts.sequential ?_
    (fun hs hi hok ht => scriptInv_turn hcfg hi ?_ ?_ ?_ ht) h
  · constructor <;> simp [Core.runs]
  · exact fun r hr => scriptRun_reach hcfg.scripts hs (hasRun_live hr)
  · exact fun r hr => single_reach hcfg.scripts hs (hasRun_live hr)
  · rintro i rfl
    simp [plainBodies] at hok

end NevoMessaging.Workflow
