import NevoMessaging.Workflow.Engine

/-!
# One engine and sequential functions

A sequential function has no `ctx` call open when its run ends, so a run that has ended
does nothing any more. With one engine there is moreover at most one run under way. Then
only three things matter for what the runs do: the history, the live run and the runs that
have ended. `Core` keeps these three, and `Turn` is what can happen to them: something
outside of the runs appends, a run begins, goes on, or ends.

Results:
1. `sequential_reach`: a run that has ended is still, for any number of engines.
2. `prefix_reach`: every run has read a prefix of the history.
3. `runs_invariant`: the induction rule for properties of single runs.
4. `Turn.of_step`: every step of one engine with sequential functions is a turn of its core.
-/

namespace NevoMessaging.Workflow

variable {E V : Type}

/-! ## Sequential functions -/

def Cfg.AllSequential (cfg : Cfg E V) : Prop :=
  ∀ e name fn, cfg.workflows e name = some fn → Sequential fn

/-- Every registered workflow is a deterministic sequential function. -/
def Cfg.AllScripts (cfg : Cfg E V) : Prop :=
  ∀ e name fn, cfg.workflows e name = some fn → ∃ f, fn = ofScript f

variable {cfg : Cfg E V} {ok : Sys E V → Act E V → Prop} {r r' : Run V} {s : Sys Unit V}
  {how : Option (Nat × Input V)} {evs : List (WorkflowEvent V)}
  {ts : List (String × WakeupPayload)}

theorem Cfg.AllScripts.sequential (h : cfg.AllScripts) : cfg.AllSequential := by
  intro e name fn hfn
  obtain ⟨f, rfl⟩ := h e name fn hfn
  exact sequential_ofScript f

/-- A run that has ended has no call open, and its function makes no move. -/
structure SeqInv (s : Sys E V) : Prop where
  orderly : ∀ r, s.HasRun r → Orderly r.fn
  ended : ∀ r, s.HasRun r → r.view.settled = true → r.inFlight = []
  past : ∀ r ∈ s.past, r.view.settled = true

theorem executeExclusive_orderly {cfg : Cfg E V} (hseq : cfg.AllSequential) (e : E) (seed : Nat)
    (events : List (WorkflowEvent V)) : Orderly (executeExclusive cfg e seed events).fn := by
  cases hr : (executeExclusive cfg e seed events).result with
  | some x =>
    rw [(executeExclusive_ends hr).1]
    exact orderly_idle
  | none =>
    obtain ⟨_, name, input, _, ⟨_, hfn, _⟩ | ⟨fn, hw, hfn, _⟩⟩ := executeExclusive_runs hr
    · rw [hfn]
      exact orderly_idle
    · rw [hfn]
      exact hseq e name fn hw input seed

theorem goes_settled (ho : Orderly r.fn) (hend : r.view.settled = true → r.inFlight = [])
    (h : Goes r how r' evs ts) :
    r.view.settled = false ∧ (r'.view.settled = true → r'.inFlight = []) := by
  cases h with
  | call hc =>
    have hs := (ho.call hc).1
    exact ⟨hs, fun hs' => absurd (hs.symm.trans hs') (by simp)⟩
  | ends hs he => exact ⟨hs, fun _ => by simpa [Run.view] using ho.ends he⟩
  | advance hi =>
    have hs : r.view.settled = false := by
      rw [← Bool.not_eq_true]
      intro hs
      simp [hend hs] at hi
    exact ⟨hs, fun hs' => absurd (hs.symm.trans hs') (by simp)⟩

theorem seqInv_not_goes {s : Sys E V} (hi : SeqInv s) (hp : r ∈ s.past) :
    ¬ Goes r how r' evs ts := by
  intro hg
  have hr : s.HasRun r := .inl hp
  have hns := (goes_settled (hi.orderly r hr) (hi.ended r hr) hg).1
  exact absurd (hns.symm.trans (hi.past r hp)) (by simp)

variable [DecidableEq E]

theorem seqInv_step {cfg : Cfg E V} (hseq : cfg.AllSequential) {s s' : Sys E V} {a : Act E V}
    (hi : SeqInv s) (h : Step cfg s a s') : SeqInv s' where
  orderly := by
    intro r' hr
    rcases h.run hr with hr | ⟨r, hr, _, _, _, hg, _⟩ | ⟨e, r, x, hl, _, rfl, _⟩ |
      ⟨e, seed, rfl, _⟩
    · exact hi.orderly r' hr
    · exact hg.same.fn ▸ hi.orderly r hr
    · exact hi.orderly r (.inr ⟨e, hl⟩)
    · exact executeExclusive_orderly hseq e seed _
  ended := by
    intro r' hr
    rcases h.run hr with hr | ⟨r, hr, _, _, _, hg, _⟩ | ⟨e, r, x, hl, hx, rfl, _⟩ |
      ⟨e, seed, rfl, _⟩
    · exact hi.ended r' hr
    · exact (goes_settled (hi.orderly r hr) (hi.ended r hr) hg).2
    · exact fun _ => hi.ended r (.inr ⟨e, hl⟩) (by simp [Run.view, hx])
    · exact fun _ => (executeExclusive_fresh cfg e seed _).inFlight
  past := by
    intro r' hp
    rcases h.past hp with hp | ⟨r, hp, _, _, _, hg, _⟩ | ⟨e, r, x, _, _, _, rfl, _⟩ |
      ⟨e, seed, _, _, _, hres⟩
    · exact hi.past r' hp
    · exact absurd hg (seqInv_not_goes hi hp)
    · simp [Run.view, Run.finished]
    · simp [Run.view, hres]

theorem sequential_reach (hseq : cfg.AllSequential) {s : Sys E V}
    (h : (machine cfg).Reach ok s) : SeqInv s := by
  refine h.invariant ?_ fun _ hi _ hs => seqInv_step hseq hi (.of_step hs)
  constructor <;> simp [Sys.HasRun]

theorem prefix_reach {s : Sys E V} (h : (machine cfg).Reach ok s)
    (hr : s.HasRun r) :
    r.events <+: s.history cfg := by
  revert r
  refine h.invariant (P := fun s => ∀ {r}, s.HasRun r → r.events <+: s.history cfg) ?_ ?_
  · simp [Sys.HasRun]
  · intro s s' a _ hi _ hs r' hr
    have h := Step.of_step hs
    rcases h.run hr with hr | ⟨r, hr, _, _, _, hg, _⟩ | ⟨e, r, x, hl, hx, rfl, _⟩ |
      ⟨e, seed, rfl, hh⟩
    · exact (hi hr).trans h.grows
    · exact hg.same.events ▸ (hi hr).trans h.grows
    · exact (hi (.inr ⟨e, hl⟩)).trans h.grows
    · rw [(executeExclusive_fresh cfg e seed _).events, hh]

theorem runs_invariant {P : Run V → Prop}
    (hfresh : ∀ e seed events, P (executeExclusive cfg e seed events))
    (hgoes : ∀ {r how r' evs ts}, P r → Goes r how r' evs ts → P r')
    (hends : ∀ {r : Run V} (x : Ending V), P r → P (r.finished x)) {s : Sys E V}
    (h : (machine cfg).Reach ok s) (hr : s.HasRun r) : P r := by
  revert r
  refine h.invariant (P := fun s => ∀ {r}, s.HasRun r → P r) ?_ ?_
  · simp [Sys.HasRun]
  · intro s s' a _ hi _ hs r' hr'
    rcases (Step.of_step hs).run hr' with hr | ⟨r, hr, _, _, _, hg, _⟩ |
      ⟨e, r, x, hl, _, rfl, _⟩ | ⟨e, seed, rfl, _⟩
    · exact hi hr
    · exact hgoes (hi hr) hg
    · exact hends x (hi (.inr ⟨e, hl⟩))
    · exact hfresh e seed _

/-- What a run knows of signals, timeouts and finished sleeps is what it has read. -/
def Run.Snapshot (r : Run V) : Prop := Frozen (.ofReplay (replay r.events)) r.ctx

section Snapshot

variable {k : Nat} (h : r.Snapshot)

include h

theorem Run.Snapshot.signals_eq (name : String) :
    r.ctx.replay.signals name = received name r.events := by
  rw [h.signals]
  exact replay_signals name

theorem Run.Snapshot.mem_consumed {c : ConsumedSignal}
    (hc : r.ctx.replay.consumedByOrdinal k = some c) :
    .signalConsumed c.name c.index k ∈ r.events := by
  rw [h.consumedByOrdinal] at hc
  exact replay_consumed_mem hc

theorem Run.Snapshot.not_consumed (hc : r.ctx.replay.consumedByOrdinal k = none) :
    k ∉ consumedOrdinals r.events := by
  rw [h.consumedByOrdinal] at hc
  exact replay_consumed_none.mp hc

theorem Run.Snapshot.mem_timeouts :
    k ∈ r.ctx.replay.signalTimeouts ↔ ∃ name, .signalTimeout k name ∈ r.events := by
  rw [h.signalTimeouts]
  exact replay_signalTimeouts

theorem Run.Snapshot.mem_sleepDone :
    sleepKey k ∈ r.ctx.replay.sleepDone ↔ .sleepCompleted k ∈ r.events := by
  rw [h.sleepDone]
  exact replay_sleepDone

theorem Run.Snapshot.goes (hg : Goes r how r' evs ts) : r'.Snapshot := by
  rw [Run.Snapshot, hg.same.events]
  exact h.trans hg.frozen

end Snapshot

theorem Fresh.snapshot {history : List (WorkflowEvent V)} (h : Fresh history r) : r.Snapshot := by
  rw [Run.Snapshot, h.events, h.ctx]
  exact ⟨rfl, rfl, rfl, rfl⟩

theorem snapshot_reach {s : Sys E V} (h : (machine cfg).Reach ok s)
    (hr : s.HasRun r) : r.Snapshot :=
  runs_invariant (fun e seed events => (executeExclusive_fresh cfg e seed events).snapshot)
    (fun hi hg => hi.goes hg) (fun _ hi => hi) h hr

/-! ## One engine -/

/-- The events that are appended by API calls and wake-ups and never by a run. -/
def WorkflowEvent.outside : WorkflowEvent V → Bool
  | .started .. | .signalReceived .. | .sleepCompleted _ | .signalTimeout .. | .cancelled => true
  | _ => false

structure Core (V : Type) where
  history : List (WorkflowEvent V)
  live : Option (Run V)
  past : List (Run V)

def Core.runs (c : Core V) : List (Run V) := c.past ++ c.live.toList

theorem Core.mem_runs {h : List (WorkflowEvent V)} {live : Option (Run V)} {past : List (Run V)} :
    r ∈ (Core.mk h live past).runs ↔ r ∈ past ∨ live = some r := by
  simp [Core.runs]

theorem Core.mem_live {c : Core V} (h : c.live = some r) : r ∈ c.runs := Core.mem_runs.mpr (.inr h)

section Runs

variable {h : List (WorkflowEvent V)} {live : Option (Run V)} {past : List (Run V)} {r : Run V}
  {P : Run V → Prop}

theorem Core.forall_live (hp : ∀ q ∈ past, P q) (hr : P r) :
    ∀ q ∈ (Core.mk h (some r) past).runs, P q := by
  intro q hq
  rcases Core.mem_runs.mp hq with hq | hq
  · exact hp q hq
  · exact Option.some.inj hq ▸ hr

theorem Core.forall_ended (hp : ∀ q ∈ past, P q) (hr : P r) :
    ∀ q ∈ (Core.mk h none (past ++ [r])).runs, P q := by
  intro q hq
  rcases List.mem_append.mp ((Core.mem_runs.mp hq).resolve_right (by simp)) with hq | hq
  · exact hp q hq
  · exact List.mem_singleton.mp hq ▸ hr

end Runs

def Cur.run? : Cur V → Option (Run V)
  | .exec r => some r
  | _ => none

def Sys.core (cfg : Cfg Unit V) (s : Sys Unit V) : Core V where
  history := s.history cfg
  live := (s.cur ()).run?
  past := s.past

theorem hasRun_iff : s.HasRun r ↔ r ∈ s.past ∨ (s.cur ()).run? = some r := by
  refine or_congr_right ⟨?_, fun h => ⟨(), ?_⟩⟩
  · rintro ⟨_, h⟩
    exact congrArg Cur.run? h
  · cases hc : s.cur () <;> simp_all [Cur.run?]

theorem mem_runs_core {cfg : Cfg Unit V} : r ∈ (s.core cfg).runs ↔ s.HasRun r := by
  rw [Sys.core, Core.mem_runs, hasRun_iff]

theorem hasRun_live {cfg : Cfg Unit V} (h : (s.core cfg).live = some r) : s.HasRun r :=
  hasRun_iff.mpr (.inr h)

@[simp] theorem core_init (cfg : Cfg Unit V) : (machine cfg).init.core cfg = ⟨[], none, []⟩ := by
  simp [Sys.core, Cur.run?]

/-- What a step of one engine does to its core. -/
inductive Turn : Core V → Act Unit V → Core V → Prop
  | outside {h evs : List (WorkflowEvent V)} {live : Option (Run V)} {past : List (Run V)}
      {a : Act Unit V} : (∀ ev ∈ evs, ev.outside = true) →
      Turn ⟨h, live, past⟩ a ⟨h ++ evs, live, past⟩
  | read {h : List (WorkflowEvent V)} {past : List (Run V)} {a : Act Unit V} {r : Run V} :
      Fresh h r → Turn ⟨h, none, past⟩ a ⟨h, some r, past⟩
  | readEnds {h : List (WorkflowEvent V)} {past : List (Run V)} {a : Act Unit V} {r : Run V} :
      Fresh h r → Turn ⟨h, none, past⟩ a ⟨h, none, past ++ [r]⟩
  | go {h evs : List (WorkflowEvent V)} {past : List (Run V)} {how : Option (Nat × Input V)}
      {r r' : Run V} {ts : List (String × WakeupPayload)} : Goes r how r' evs ts →
      Turn ⟨h, some r, past⟩ (.go () how) ⟨h ++ evs, some r', past⟩
  | finish {h : List (WorkflowEvent V)} {past : List (Run V)} {a : Act Unit V} {r : Run V}
      (x : Ending V) : Turn ⟨h, some r, past⟩ a ⟨h ++ [x.event], none, past ++ [r.finished x]⟩

section Turn

variable {c c' : Core V} {a : Act Unit V} (ht : Turn c a c')

include ht

theorem Turn.grows : c.history <+: c'.history := by
  cases ht with
  | read | readEnds => exact List.prefix_rfl
  | _ => exact List.prefix_append _ _

theorem Turn.runs {P : Run V → Prop} (hi : ∀ q ∈ c.runs, P q)
    (hfresh : ∀ {r}, Fresh c.history r → c'.history = c.history → P r)
    (hgo : ∀ {r how r' evs ts}, c.live = some r → a = .go () how → Goes r how r' evs ts →
      c'.live = some r' → c'.history = c.history ++ evs → P r → P r')
    (hend : ∀ {r : Run V} (x : Ending V), P r → P (r.finished x)) : ∀ q ∈ c'.runs, P q := by
  have hpast : ∀ q ∈ c.past, P q := fun q hq => hi q (Core.mem_runs.mpr (.inl hq))
  have hlive : ∀ {q}, c.live = some q → P q := fun hq => hi _ (Core.mem_live hq)
  cases ht with
  | outside => exact hi
  | read hf => exact Core.forall_live hpast (hfresh hf rfl)
  | readEnds hf => exact Core.forall_ended hpast (hfresh hf rfl)
  | go hg => exact Core.forall_live hpast (hgo rfl rfl hg rfl rfl (hlive rfl))
  | finish x => exact Core.forall_ended hpast (hend x (hlive rfl))

end Turn

/-! ## The core simulates the engine -/

theorem onWakeup_outside {p : WakeupPayload} {events : List (WorkflowEvent V)}
    {ev : WorkflowEvent V} (h : onWakeup p events = some ev) : ev.outside = true := by
  unfold onWakeup at h
  split at h
  · cases h
  · cases p <;> cases h <;> rfl

variable {cfg : Cfg Unit V} {s s' : Sys Unit V} {a : Act Unit V}

theorem turn_of {h : List (WorkflowEvent V)} {live live' : Option (Run V)} {past : List (Run V)}
    (ht : Turn ⟨s.history cfg, live, s.past⟩ a ⟨h, live', past⟩)
    (hl : (s.cur ()).run? = live) (hh : s'.history cfg = h) (hl' : (s'.cur ()).run? = live')
    (hp : s'.past = past) : Turn (s.core cfg) a (s'.core cfg) := by
  subst hl hh hl' hp
  exact ht

theorem turn_outside (evs : List (WorkflowEvent V)) (hout : ∀ ev ∈ evs, ev.outside = true)
    (hh : s'.history cfg = s.history cfg ++ evs) (hl : (s'.cur ()).run? = (s.cur ()).run?)
    (hp : s'.past = s.past) : Turn (s.core cfg) a (s'.core cfg) :=
  turn_of (.outside hout) rfl hh hl hp

theorem run?_afterRun : cfg.afterRun.run? = none := by
  unfold Cfg.afterRun
  split <;> rfl

theorem Turn.of_step {cfg : Cfg Unit V} {s' : Sys Unit V} {a : Act Unit V} (hi : SeqInv s)
    (h : Step cfg s a s') : Turn (s.core cfg) a (s'.core cfg) := by
  cases h with
  | clock | resume | wakeLegacy | wake | wakeSkip | join =>
    exact turn_outside [] (by simp) (List.append_nil _).symm rfl rfl
  | foreign ev hid ho =>
    refine turn_outside [] (by simp) ?_ rfl rfl
    rw [List.append_nil]
    exact history_foreign s ev hid ho
  | start | signal | cancel =>
    refine turn_outside [_] ?_ (history_append cfg s _) rfl rfl
    simp [WorkflowEvent.outside]
  | wakeAppend hi ho =>
    refine turn_outside [_] ?_ (history_append cfg s _) rfl rfl
    simpa using onWakeup_outside ho
  | dequeue hc hq =>
    refine turn_outside [] (by simp) (List.append_nil _).symm ?_ rfl
    simp only [Sys.setCur, Function.update_self, hc]
    split <;> rfl
  | acquire hc | refused hc | release hc =>
    refine turn_outside [] (by simp) (List.append_nil _).symm ?_ rfl
    simp [Sys.setCur, hc, Cur.run?]
  | @readEnds e seed r hc hr =>
    refine turn_of (.readEnds (hr ▸ executeExclusive_fresh cfg () seed _)) (congrArg _ hc) rfl ?_
      rfl
    simp [Sys.endRun, Sys.setCur, run?_afterRun]
  | @read e seed r hc hr =>
    exact turn_of (.read (hr ▸ executeExclusive_fresh cfg () seed _)) (congrArg _ hc) rfl
      (by simp [Sys.setCur, Cur.run?]) rfl
  | go hc hg =>
    exact turn_of (.go hg) (congrArg _ hc) (history_append cfg s _)
      (by simp [Sys.setCur, Cur.run?]) rfl
  | @finish e r x hc =>
    refine turn_of (.finish x) (congrArg _ hc) (history_append cfg s [x.event]) ?_ rfl
    simp [Sys.endRun, Sys.setCur, run?_afterRun]
  | late hk hg => exact absurd hg (seqInv_not_goes hi (List.mem_of_getElem? hk))

theorem core_invariant {cfg : Cfg Unit V} (hseq : cfg.AllSequential)
    {ok : Sys Unit V → Act Unit V → Prop} {P : Core V → Prop} (hinit : P ⟨[], none, []⟩)
    (hturn : ∀ {s s' : Sys Unit V} {a : Act Unit V}, (machine cfg).Reach ok s → P (s.core cfg) →
      ok s a → Turn (s.core cfg) a (s'.core cfg) → P (s'.core cfg))
    (h : (machine cfg).Reach ok s) : P (s.core cfg) := by
  refine h.invariant ?_ fun hr hi hok hs =>
    hturn hr hi hok (.of_step (sequential_reach hseq hr) (.of_step hs))
  rw [core_init]
  exact hinit

theorem earlier_reach {cfg : Cfg Unit V} (hseq : cfg.AllSequential)
    {ok : Sys Unit V → Act Unit V → Prop} (h : (machine cfg).Reach ok s) :
    ∀ r, (s.core cfg).live = some r → ∀ q ∈ (s.core cfg).past, q.events <+: r.events := by
  refine core_invariant hseq (P := fun c => ∀ r, c.live = some r → ∀ q ∈ c.past,
    q.events <+: r.events) (by simp) ?_ h
  intro s s' a hs hi _ ht r' hl q hq
  have hpre : ∀ q ∈ (s.core cfg).past, q.events <+: (s.core cfg).history :=
    fun q hq => prefix_reach hs (.inl hq)
  revert hi hl hq hpre
  generalize s.core cfg = c, s'.core cfg = c' at ht
  intro hi hl hq hpre
  cases ht with
  | outside => exact hi r' hl q hq
  | read hf =>
    cases hl
    rw [hf.events]
    exact hpre q hq
  | readEnds | finish => cases hl
  | go hg =>
    cases hl
    exact hg.same.events ▸ hi _ rfl q hq

end NevoMessaging.Workflow
