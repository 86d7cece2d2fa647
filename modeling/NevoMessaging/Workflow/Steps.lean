import NevoMessaging.Workflow.Scripts

/-!
# Steps

A step is keyed by its name. Its result is recorded after its body has resolved; a body that
rejects leaves no trace in the history, and the next run that reaches the step executes the
body again. A workflow that catches the rejection and suspends may therefore see the step
succeed when it is replayed.

Results:
1. `stepInv_reach`: no name is recorded twice, and the live run knows every recorded result.
2. `step_failure_replayed`: while all bodies of a step settle alike, all runs see the rejection.
3. `step_failure_forgotten`: otherwise a later run may not.
-/

namespace NevoMessaging.Workflow

open List

variable {V : Type}

/-! ## Recorded steps -/

/-- The names of the completed steps, in the order of their events. -/
def stepNames (events : List (WorkflowEvent V)) : List String :=
  events.filterMap fun
    | .stepCompleted name _ => some name
    | _ => none

theorem stepNames_append (events more : List (WorkflowEvent V)) :
    stepNames (events ++ more) = stepNames events ++ stepNames more :=
  filterMap_append

theorem mem_stepNames {events : List (WorkflowEvent V)} {name : String} :
    name ∈ stepNames events ↔ ∃ v, .stepCompleted name v ∈ events := by
  simp only [stepNames, mem_filterMap]
  constructor
  · rintro ⟨e, he, hn⟩
    cases e <;> simp only [Option.some.injEq, reduceCtorEq] at hn
    exact ⟨_, hn ▸ he⟩
  · rintro ⟨v, hv⟩
    exact ⟨_, hv, rfl⟩

theorem stepCompleted_unique {events : List (WorkflowEvent V)} (h : (stepNames events).Nodup)
    {name : String} {v w : V} (hv : .stepCompleted name v ∈ events)
    (hw : .stepCompleted name w ∈ events) : v = w := by
  obtain ⟨l, r, rfl⟩ := append_of_mem hv
  rw [stepNames_append, nodup_append] at h
  obtain ⟨_, hr, hdisj⟩ := h
  have hname : name ∈ stepNames (.stepCompleted name v :: r) := mem_stepNames.mpr ⟨v, by simp⟩
  rcases mem_append.mp hw with hw | hw
  · exact absurd rfl (hdisj name (mem_stepNames.mpr ⟨w, hw⟩) name hname)
  · rcases mem_cons.mp hw with heq | hw
    · cases heq
      rfl
    · exact absurd (mem_stepNames.mpr ⟨w, hw⟩) (nodup_cons.mp hr).1

/-- The step results, with one that the open call has recorded and not yet stored. -/
def Pending.stored : Pending V → (String → Option V) → String → Option V
  | .stepStore name v, steps => Function.update steps name (some v)
  | _, steps => steps

/-- The step of the open call, while its result is not recorded. -/
def Pending.unrecorded : Pending V → Option String
  | .body name | .stepAppend name _ => some name
  | _ => none

/-- The step results the live run knows are the recorded ones, except that one may be recorded
and not yet stored. -/
structure StepsSynced (history : List (WorkflowEvent V)) (r : Run V) : Prop where
  steps : (replay history).steps =
    r.inFlight.foldl (fun steps x => x.2.stored steps) r.ctx.replay.steps
  running : ∀ x ∈ r.inFlight, ∀ {n : String}, x.2.unrecorded = some n →
    (replay history).steps n = none

structure StepInv (c : Core V) : Prop where
  nodup : (stepNames c.history).Nodup
  synced : ∀ r, c.live = some r → StepsSynced c.history r
  bodies : ∀ r ∈ c.runs, ∀ n ∈ r.bodies, n ∉ stepNames r.events

variable {evs history : List (WorkflowEvent V)} {r r' : Run V} {how : Option (Nat × Input V)}
  {ts : List (String × WakeupPayload)}

theorem replay_steps_none_iff {n : String} :
    (replay history).steps n = none ↔ n ∉ stepNames history := by
  rw [replay_steps_none, mem_stepNames, not_exists]

theorem replay_steps_append (h : stepNames evs = []) :
    (replay (history ++ evs)).steps = (replay history).steps :=
  replay_append_eq (·.steps) fun e he st => by
    cases e with
    | stepCompleted n v =>
      have hn : n ∈ stepNames evs := mem_stepNames.mpr ⟨v, he⟩
      simp [h] at hn
    | _ => rfl

theorem stepNames_outside (h : ∀ ev ∈ evs, ev.outside = true) : stepNames evs = [] := by
  rw [eq_nil_iff_forall_not_mem]
  intro n hn
  obtain ⟨v, hm⟩ := mem_stepNames.mp hn
  exact absurd (h _ hm) (by simp [WorkflowEvent.outside])

theorem stepsSynced_outside (h : StepsSynced history r) (hno : stepNames evs = []) :
    StepsSynced (history ++ evs) r := by
  constructor <;> rw [replay_steps_append hno]
  · exact h.steps
  · exact h.running

theorem goes_steps (h : StepsSynced history r) (hnodup : (stepNames history).Nodup)
    (hcall : ∀ {c}, r.fn r.view = .call c → r.inFlight = []) (hl : r.inFlight.length ≤ 1)
    (hg : Goes r how r' evs ts) :
    (stepNames (history ++ evs)).Nodup ∧ StepsSynced (history ++ evs) r' := by
  have hsilent : stepNames evs = [] → (stepNames (history ++ evs)).Nodup := by
    intro hno
    rwa [stepNames_append, hno, append_nil]
  cases hg with
  | @call date c m hc hm =>
    have hin := hcall hc
    have hno : stepNames m.events = [] := by cases hm <;> rfl
    have hs : (replay history).steps = r.ctx.replay.steps := by simpa [hin] using h.steps
    refine ⟨hsilent hno, ?_, ?_⟩ <;> rw [replay_steps_append hno, hs]
    · simp only [Run.issued, hin, nil_append]
      cases hm <;> rfl
    · intro x hx n hn
      simp only [Run.issued, hin, nil_append] at hx
      cases hm with
      | stepBody hnone =>
        rw [mem_singleton.mp hx] at hn
        cases hn
        exact hnone
      | _ => simp_all [Progress.opened, Pending.unrecorded]
  | ends => exact ⟨hsilent rfl, stepsSynced_outside ⟨h.steps, h.running⟩ rfl⟩
  | @advance _ _ i entry p inp m hi hm =>
    obtain ⟨rfl, hin⟩ := inFlight_eq hl hi
    have hin' : (r.advanced 0 entry p inp m).inFlight = m.progress.opened entry := by
      simp [Run.advanced, hin]
    have hs : (replay history).steps = p.stored r.ctx.replay.steps := by simpa [hin] using h.steps
    have hrun : ∀ {n}, p.unrecorded = some n → (replay history).steps n = none :=
      h.running (entry, p) (by simp [hin])
    have hquiet : stepNames m.events = [] → p.stored r.ctx.replay.steps =
        (m.progress.opened entry).foldl (fun steps x => x.2.stored steps) m.ctx.replay.steps →
        (∀ x ∈ m.progress.opened entry, ∀ {n}, x.2.unrecorded = some n → p.unrecorded = some n) →
        (stepNames (history ++ m.events)).Nodup ∧
          StepsSynced (history ++ m.events) (r.advanced 0 entry p inp m) := by
      intro hno heq hopen
      refine ⟨hsilent hno, ?_, ?_⟩ <;> rw [replay_steps_append hno, hin']
      · exact hs.trans heq
      · exact fun x hx n hn => hrun (hopen x hx hn)
    cases hm with
    | @stepAppend name v =>
      have hnew : name ∉ stepNames history := replay_steps_none_iff.mp (hrun rfl)
      refine ⟨?_, ?_, fun x hx n hn => ?_⟩
      · rw [stepNames_append]
        refine nodup_append.mpr ⟨hnodup, nodup_singleton name, fun x hx y hy hxy => ?_⟩
        rw [mem_singleton.mp hy] at hxy
        exact hnew (hxy ▸ hx)
      · rw [replay_append, hin']
        exact congrArg (Function.update · name (some v)) hs
      · rw [hin'] at hx
        rw [mem_singleton.mp hx] at hn
        cases hn
    | _ => exact hquiet rfl rfl (by simp [Progress.opened, Pending.unrecorded])

theorem goes_bodies (h : StepsSynced history r)
    (hcall : ∀ {c}, r.fn r.view = .call c → r.inFlight = []) (hg : Goes r how r' evs ts)
    {n : String} (hn : n ∈ r'.bodies) : n ∈ r.bodies ∨ n ∉ stepNames history := by
  cases hg with
  | call hc hm =>
    refine (mem_append.mp hn).imp_right fun hn => ?_
    have hs : (replay history).steps = r.ctx.replay.steps := by simpa [hcall hc] using h.steps
    cases hm with
    | stepBody hnone =>
      simp only [Progress.opened, Pending.bodyName, flatMap_cons, flatMap_nil, append_nil,
        mem_singleton] at hn
      rw [← replay_steps_none_iff, hs, hn]
      exact hnone
    | _ => simp [Progress.opened, Pending.bodyName] at hn
  | ends | advance => exact .inl hn

theorem stepInv_turn {c c' : Core V} {a : Act Unit V} (hi : StepInv c)
    (hcall : ∀ {r}, c.live = some r → ∀ {call}, r.fn r.view = .call call → r.inFlight = [])
    (hl : ∀ r, c.live = some r → r.inFlight.length ≤ 1)
    (hpre : ∀ r, c.live = some r → r.events <+: c.history) (h : Turn c a c') : StepInv c' := by
  obtain ⟨hnodup, hsync, hbod⟩ := hi
  have hsilent : ∀ {evs}, stepNames evs = [] → (stepNames (c.history ++ evs)).Nodup := by
    intro evs hno
    rwa [stepNames_append, hno, append_nil]
  have hbod' := h.runs hbod (fun hf _ => by simp [hf.bodies]) (fun hr _ hg _ _ hq n hn => by
    rw [hg.same.events]
    refine (goes_bodies (hsync _ hr) (hcall hr) hg hn).elim (hq n) fun hnot => ?_
    rw [mem_stepNames] at hnot ⊢
    exact fun ⟨v, hv⟩ => hnot ⟨v, (hpre _ hr).subset hv⟩) fun _ hq => hq
  cases h with
  | outside hout =>
    have hno := stepNames_outside hout
    exact ⟨hsilent hno, fun r hr => stepsSynced_outside (hsync r hr) hno, hbod'⟩
  | read hf =>
    refine ⟨hnodup, fun q hq => ?_, hbod'⟩
    cases hq
    refine ⟨?_, by simp [hf.inFlight]⟩
    rw [hf.ctx, hf.inFlight]
    rfl
  | readEnds => exact ⟨hnodup, by simp, hbod'⟩
  | go hg =>
    obtain ⟨hnodup', hsync'⟩ := goes_steps (hsync _ rfl) hnodup (hcall rfl) (hl _ rfl) hg
    exact ⟨hnodup', fun q hq => Option.some.inj hq ▸ hsync', hbod'⟩
  | finish x => exact ⟨hsilent (by cases x <;> rfl), by simp, hbod'⟩

theorem stepInv_reach {cfg : Cfg Unit V} (hcfg : cfg.AllScripts)
    {ok : Sys Unit V → Act Unit V → Prop} {s : Sys Unit V} (h : (machine cfg).Reach ok s) :
    StepInv (s.core cfg) := by
  refine core_invariant hcfg.sequential ?_ (fun hs hi _ ht => stepInv_turn hi ?_ ?_ ?_ ht) h
  · constructor <;> simp [Core.runs, stepNames]
  · exact fun hr _ hc => (view_of_call (scriptRun_reach hcfg hs (hasRun_live hr)) hc).1
  · exact fun r hr => single_reach hcfg hs (hasRun_live hr)
  · exact fun r hr => prefix_reach hs (hasRun_live hr)

/-! ## Rejected bodies -/

/-- How the step bodies of all runs have settled. -/
def Core.bodyLog (c : Core V) : List (String × Bool) := c.runs.flatMap (·.bodyLog)

/-- The steps in which a step body settles only in the way in which every body of that step has
settled before, in the same run or an earlier one. -/
def settlesAlike (s : Sys Unit V) : Act Unit V → Bool
  | .advance () i inp =>
    match (s.cur ()).run?.bind (·.inFlight[i]?) with
    | some (_, p) => (bodySettles p inp).all fun x =>
        (s.past ++ (s.cur ()).run?.toList).all fun r => !r.bodyLog.contains (x.1, !x.2)
    | none => true
  | _ => true

def Outcome.isThrow : Outcome V → Bool
  | .threw _ => true
  | _ => false

/-- The step whose body has resolved and whose result is on its way. -/
def Pending.resolvedStep : Pending V → Option String
  | .stepAppend name _ | .stepStore name _ => some name
  | _ => none

variable {r r' : Run V} {how : Option (Nat × Input V)} {evs : List (WorkflowEvent V)}
  {ts : List (String × WakeupPayload)} {c c' : Core V} {a : Act Unit V}

/-- What a run has of the steps comes from bodies that settled accordingly. -/
structure StepRun (settled : List (String × Bool)) (r : Run V) : Prop where
  opened : ∀ x ∈ r.inFlight, ∀ n, x.2.resolvedStep = some n → (n, true) ∈ settled
  known : ∀ n v, r.ctx.replay.steps n = some v → (n, true) ∈ settled
  logged : ∀ x ∈ r.log, ∀ n, x.1.call = .step n → (n, !x.2.isThrow) ∈ settled

theorem StepRun.mono {settled settled' : List (String × Bool)} (h : StepRun settled r)
    (hsub : settled ⊆ settled') : StepRun settled' r where
  opened x hx n hn := hsub (h.opened x hx n hn)
  known n v hv := hsub (h.known n v hv)
  logged x hx n hn := hsub (h.logged x hx n hn)

/-- The step bodies that settle when the run goes on. -/
def settles (r : Run V) : Option (Nat × Input V) → List (String × Bool)
  | none => []
  | some (i, inp) => (r.inFlight[i]?.map fun x => bodySettles x.2 inp).getD []

theorem settles_length : (settles r how).length ≤ 1 := by
  unfold settles
  split
  · simp
  · next i inp =>
    cases r.inFlight[i]? with
    | none => simp
    | some x =>
      simp only [bodySettles, Option.map_some, Option.getD_some]
      split <;> simp

theorem goes_bodyLog (h : Goes r how r' evs ts) : r'.bodyLog = r.bodyLog ++ settles r how := by
  cases h with
  | call | ends => exact (append_nil _).symm
  | advance hi => simp [Run.advanced, settles, hi]

/-- Only a resolved body leads to a result, and only a rejected one makes a step throw. -/
theorem StepRun.goes {settled : List (String × Bool)} (h : StepRun settled r)
    (hfits : ∀ x ∈ r.inFlight, x.2.fits x.1.call = true) (hsettles : settles r how ⊆ settled)
    (hg : Goes r how r' evs ts) :
    StepRun settled r' ∧ ∀ n v, .stepCompleted n v ∈ evs → (n, true) ∈ settled := by
  cases hg with
  | @call _ c m _ hm =>
    have hopened : ∀ x ∈ m.progress.opened ⟨c, m.ctx.ordinal c⟩, x.2.resolvedStep = none := by
      cases hm <;> simp [Progress.opened, Pending.resolvedStep]
    have hsteps : m.ctx.replay.steps = r.ctx.replay.steps := by cases hm <;> rfl
    have hclosed : ∀ x ∈ m.progress.closed ⟨c, m.ctx.ordinal c⟩, ∀ n, x.1.call = .step n →
        (n, !x.2.isThrow) ∈ settled := by
      intro x hx n hn
      cases hm with
      | stepRecorded hk =>
        rw [mem_singleton.mp hx] at hn ⊢
        cases hn
        exact h.known _ _ hk
      | _ => simp_all [Progress.closed]
    refine ⟨⟨fun x hx n hn => ?_, fun n v hv => h.known n v (hsteps ▸ hv), fun x hx =>
      (mem_append.mp hx).elim (h.logged x) (hclosed x)⟩, by cases hm <;> simp⟩
    rcases mem_append.mp hx with hx | hx
    · exact h.opened x hx n hn
    · simp [hopened x hx] at hn
  | ends => exact ⟨⟨h.opened, h.known, h.logged⟩, by simp⟩
  | @advance _ _ i entry p inp m hget hm =>
    have hmem := mem_of_getElem? hget
    have hfits := hfits _ hmem
    have hsettles : bodySettles p inp ⊆ settled := by simpa [settles, hget] using hsettles
    have hopened : ∀ x ∈ m.progress.opened entry, ∀ n, x.2.resolvedStep = some n →
        (n, true) ∈ settled := by
      intro x hx n hn
      cases hm with
      | bodyResolved v =>
        rw [mem_singleton.mp hx] at hn
        cases hn
        exact hsettles (mem_singleton_self _)
      | stepAppend =>
        rw [mem_singleton.mp hx] at hn
        exact h.opened _ hmem n hn
      | _ => simp_all [Progress.opened, Pending.resolvedStep]
    have hknown : ∀ n v, m.ctx.replay.steps n = some v → (n, true) ∈ settled := by
      intro n v hv
      cases hm with
      | @stepStore name w =>
        simp only [Function.update_apply] at hv
        split at hv
        · next hn => exact h.opened _ hmem n (congrArg some hn.symm)
        · exact h.known n v hv
      | _ => exact h.known n v hv
    have hclosed : ∀ x ∈ m.progress.closed entry, ∀ n, x.1.call = .step n →
        (n, !x.2.isThrow) ∈ settled := by
      intro x hx n hn
      obtain ⟨call, k⟩ := entry
      cases hm with
      | bodyRejected e =>
        rw [mem_singleton.mp hx] at hn ⊢
        subst hn
        obtain rfl : _ = n := by simpa [Pending.fits] using hfits
        exact hsettles (mem_singleton_self _)
      | stepStore =>
        rw [mem_singleton.mp hx] at hn ⊢
        subst hn
        obtain rfl : _ = n := by simpa [Pending.fits] using hfits
        exact h.opened _ hmem _ rfl
      | sleepEnqueueFailed | sleepStore | consumeAppend | timeoutEnqueueFailed | timeoutStore =>
        rw [mem_singleton.mp hx] at hn
        subst hn
        cases hfits
      | _ => simp [Progress.closed] at hx
    refine ⟨⟨fun x hx => (Run.mem_advanced hget hx).elim (h.opened x) (hopened x), hknown,
      fun x hx => (mem_append.mp hx).elim (h.logged x) (hclosed x)⟩, fun n v hv => ?_⟩
    cases hm with
    | stepAppend =>
      cases mem_singleton.mp hv
      exact h.opened _ hmem _ rfl
    | _ => simp at hv

/-- No step has a body that resolved and one that rejected, and every recorded result is that
of a body. -/
structure AlikeInv (c : Core V) : Prop where
  alike : ∀ n, (n, true) ∈ c.bodyLog → (n, false) ∉ c.bodyLog
  recorded : ∀ n v, .stepCompleted n v ∈ c.history → (n, true) ∈ c.bodyLog
  runs : ∀ r ∈ c.runs, StepRun c.bodyLog r

theorem turn_bodyLog (h : Turn c a c') : c'.bodyLog = c.bodyLog ∨
    ∃ r how, c.live = some r ∧ a = .go () how ∧ c'.bodyLog = c.bodyLog ++ settles r how := by
  cases h with
  | outside => exact .inl rfl
  | read hf | readEnds hf => exact .inl (by simp [Core.bodyLog, Core.runs, hf.bodyLog])
  | go hg => exact .inr ⟨_, _, rfl, rfl, by simp [Core.bodyLog, Core.runs, goes_bodyLog hg]⟩
  | finish => exact .inl (by simp [Core.bodyLog, Core.runs, Run.finished])

theorem alike_append {l new : List (String × Bool)} (h : ∀ n, (n, true) ∈ l → (n, false) ∉ l)
    (hlen : new.length ≤ 1) (hnew : ∀ x ∈ new, (x.1, !x.2) ∉ l) (n : String)
    (ht : (n, true) ∈ l ++ new) : (n, false) ∉ l ++ new := by
  intro hf
  rw [mem_append] at ht hf
  rcases ht with ht | ht <;> rcases hf with hf | hf
  · exact h n ht hf
  · exact hnew _ hf ht
  · exact hnew _ ht hf
  · match new, hlen with
    | [x], _ =>
      have heq := (mem_singleton.mp ht).trans (mem_singleton.mp hf).symm
      exact absurd heq (by simp)

theorem alikeInv_turn (hi : AlikeInv c)
    (hfits : ∀ r, c.live = some r → ∀ x ∈ r.inFlight, x.2.fits x.1.call = true)
    (hok : ∀ {r how}, c.live = some r → a = .go () how →
      ∀ x ∈ settles r how, (x.1, !x.2) ∉ c.bodyLog)
    (h : Turn c a c') : AlikeInv c' := by
  have hsub : c.bodyLog ⊆ c'.bodyLog := by
    rcases turn_bodyLog h with hlog | ⟨r, how, _, _, hlog⟩
    · exact hlog ▸ Subset.refl _
    · exact hlog ▸ subset_append_left _ _
  have hgo : ∀ {r how r' evs ts}, c.live = some r → Goes r how r' evs ts → c'.live = some r' →
      StepRun c'.bodyLog r' ∧ ∀ n v, .stepCompleted n v ∈ evs → (n, true) ∈ c'.bodyLog := by
    intro r how r' evs ts hl hg hl'
    refine ((hi.runs r (Core.mem_live hl)).mono hsub).goes (hfits r hl) (fun x hx => ?_) hg
    refine mem_flatMap.mpr ⟨r', Core.mem_live hl', ?_⟩
    rw [goes_bodyLog hg]
    exact mem_append_right _ hx
  have hkeep : ∀ n v, .stepCompleted n v ∈ c.history → (n, true) ∈ c'.bodyLog :=
    fun n v hv => hsub (hi.recorded n v hv)
  refine ⟨?_, ?_, h.runs (fun q hq => (hi.runs q hq).mono hsub) (fun hf _ => ?_)
    (fun hl _ hg hl' _ _ => (hgo hl hg hl').1) fun _ hq => ⟨hq.opened, hq.known, hq.logged⟩⟩
  · rcases turn_bodyLog h with hlog | ⟨r, how, hl, ha, hlog⟩
    · exact hlog ▸ hi.alike
    · exact hlog ▸ alike_append hi.alike settles_length (hok hl ha)
  · cases h with
    | outside hout =>
      intro n v hv
      rcases mem_append.mp hv with hv | hv
      · exact hkeep n v hv
      · exact absurd (hout _ hv) (by simp [WorkflowEvent.outside])
    | read | readEnds => exact hkeep
    | go hg => exact fun n v hv => (mem_append.mp hv).elim (hkeep n v) ((hgo rfl hg rfl).2 n v)
    | finish x =>
      intro n v hv
      refine hkeep n v ((mem_append.mp hv).resolve_right ?_)
      cases x <;> simp [Ending.event]
  · refine ⟨by simp [hf.inFlight], fun n v hv => ?_, by simp [hf.log]⟩
    rw [hf.ctx] at hv
    exact hkeep n v (replay_steps_mem hv)

theorem alikeInv_reach {cfg : Cfg Unit V} (hseq : cfg.AllSequential) {s : Sys Unit V}
    (h : (machine cfg).Reach (fun s a => settlesAlike s a = true) s) : AlikeInv (s.core cfg) := by
  refine core_invariant hseq ?_ (fun {s _ _} hs hi hok ht => alikeInv_turn hi ?_ ?_ ht) h
  · constructor <;> simp [Core.bodyLog, Core.runs]
  · exact fun r hr => fits_reach hs (hasRun_live hr)
  · rintro r (_ | ⟨i, inp⟩) hr rfl x hx hm
    · cases hx
    obtain ⟨q, hq, hmem⟩ := mem_flatMap.mp hm
    have hr : (s.cur ()).run? = some r := hr
    obtain ⟨y, hy, hx⟩ : ∃ y, r.inFlight[i]? = some y ∧ x ∈ bodySettles y.2 inp := by
      cases hget : r.inFlight[i]? <;> simp_all [settles]
    simp only [Act.go, settlesAlike, hr, Option.bind_some, hy, all_eq_true] at hok
    have hnot := hok x hx q (by simpa [Sys.core, Core.runs, hr] using hq)
    simp [hmem] at hnot

/-- If a step has thrown in one run, every run that settles a call of that step sees it throw,
as long as the bodies of a step all settle in the same way. -/
theorem step_failure_replayed {cfg : Cfg Unit V} (hseq : cfg.AllSequential) {s : Sys Unit V}
    (h : (machine cfg).Reach (fun s a => settlesAlike s a = true) s) {r r' : Run V}
    (hr : s.HasRun r) (hr' : s.HasRun r') {name : String} {k k' : Nat} {e : Err} {o : Outcome V}
    (hthrew : (⟨.step name, k⟩, .threw e) ∈ r.log) (hsaw : (⟨.step name, k'⟩, o) ∈ r'.log) :
    ∃ e', o = .threw e' := by
  have hi := alikeInv_reach hseq h
  have hfalse : (name, false) ∈ (s.core cfg).bodyLog :=
    (hi.runs r (mem_runs_core.mpr hr)).logged _ hthrew name rfl
  have hother := (hi.runs r' (mem_runs_core.mpr hr')).logged _ hsaw name rfl
  cases o with
  | threw e' => exact ⟨e', rfl⟩
  | _ => exact absurd hfalse (hi.alike name hother)

/-! ## A payment that is retried -/

/-- Pay, wait for a signal if the payment was refused, and return what the payment gave. The
refusal is caught. -/
def payOrder : Script Nat := fun _ seen =>
  match seen with
  | [] => .call (.step "pay")
  | [.threw (.error _)] => .call (.waitForSignal "retry" none)
  | [.value v] => .ret v
  | [.threw (.error _), .payload _] => .ret 0
  | seen =>
    match seen.getLast? with
    | some (.threw e) => .throw e
    | _ => .idle

def payCfg : Cfg Unit Nat where
  workflowId := "p-1"
  workflows := fun _ name => if name = "pay" then some (ofScript payOrder) else none
  scheduler := fun _ => false
  lock := false

theorem payCfg_scripts : payCfg.AllScripts := by
  intro e name fn hfn
  simp only [payCfg] at hfn
  split at hfn
  · exact ⟨payOrder, (Option.some.inj hfn).symm⟩
  · cases hfn

/-- The body rejects, the function catches that and suspends; the signal starts a run in which
the body settles with `answer`. -/
def payTwice (answer : List (Act Unit Nat)) : List (Act Unit Nat) :=
  [Act.start () "pay" 0, .join 0, .dequeue (), .read () 0, .move (),
    .advance () 0 (.bodyRejected (.error "refused")), .move (), .move (), .finish (),
    .signal () "retry" 1, .join 0, .dequeue (), .read () 0, .move ()] ++ answer

/-- The first run saw the payment refused and suspended, the live one saw `o`. -/
def payRefusedThen (o : Outcome Nat) (s : Sys Unit Nat) : Bool :=
  match s.past, (s.cur ()).run? with
  | r :: _, some r' =>
    decide ((⟨.step "pay", 0⟩, .threw (.error "refused")) ∈ r.log) &&
      decide (r.result = some (.returned { status := .suspended })) &&
      decide ((⟨.step "pay", 0⟩, o) ∈ r'.log)
  | _, _ => false

theorem payRefusedThen_runs {o : Outcome Nat} {s : Sys Unit Nat} (h : payRefusedThen o s = true) :
    ∃ r r', r ∈ s.past ∧ s.HasRun r' ∧ (⟨.step "pay", 0⟩, .threw (.error "refused")) ∈ r.log ∧
      r.result = some (.returned { status := .suspended }) ∧ (⟨.step "pay", 0⟩, o) ∈ r'.log := by
  unfold payRefusedThen at h
  split at h
  · next r _ r' hp hl =>
    simp only [Bool.and_eq_true, decide_eq_true_eq, and_assoc] at h
    exact ⟨r, r', by simp [hp], hasRun_iff.mpr (.inr hl), h⟩
  · cases h

/-- The payment is refused in the first run, which catches that and suspends, and accepted in
the second one. -/
theorem step_failure_forgotten :
    ¬ ∀ s, (machine payCfg).Reach Machine.free s → ∀ r r', r ∈ s.past → s.HasRun r' →
      r.result = some (.returned { status := .suspended }) →
      ∀ name k k' e o, (⟨.step name, k⟩, .threw e) ∈ r.log → (⟨.step name, k'⟩, o) ∈ r'.log →
        ∃ e', o = .threw e' := by
  obtain ⟨s, hs, hobs⟩ := Machine.Reach.observe (machine payCfg) Machine.free
    (payTwice [.advance () 0 (.bodyResolved 7), .advance () 0 .resolved, .advance () 0 .resolved])
    (payRefusedThen (.value 7)) true (by decide +kernel)
  obtain ⟨r, r', hr, hr', hthrew, hres, hsaw⟩ := payRefusedThen_runs hobs
  intro hall
  obtain ⟨e', he⟩ := hall s hs r r' hr hr' hres "pay" 0 0 _ _ hthrew hsaw
  cases he

theorem step_failure_replayed_refused :
    ∃ s r r', (machine payCfg).Reach (fun s a => settlesAlike s a = true) s ∧ s.HasRun r ∧
      s.HasRun r' ∧ ∃ e o, (⟨.step "pay", 0⟩, .threw e) ∈ r.log ∧ (⟨.step "pay", 0⟩, o) ∈ r'.log ∧
        ∃ e', o = .threw e' := by
  obtain ⟨s, hs, hobs⟩ := Machine.Reach.observe (machine payCfg)
    (fun s a => settlesAlike s a = true)
    (payTwice [.advance () 0 (.bodyRejected (.error "expired"))])
    (payRefusedThen (.threw (.error "expired"))) true (by decide +kernel)
  obtain ⟨r, r', hr, hr', hthrew, _, hsaw⟩ := payRefusedThen_runs hobs
  exact ⟨s, r, r', hs, .inl hr, hr', _, _, hthrew, hsaw,
    step_failure_replayed payCfg_scripts.sequential hs (.inl hr) hr' hthrew hsaw⟩

end NevoMessaging.Workflow
