import NevoMessaging.Workflow.Signals

/-!
# Several engines and one lock

Engines that share a store take turns at the workflow through a lock. A call that finds the
lock taken does not wait: it returns, and relies on the holder to see the event it has
appended. The holder reads the history once, right after it has the lock, and keeps the lock
until its run has ended. A signal that is appended in between, and whose call comes too early
for the lock, is seen by nobody: the workflow stays suspended although what it waits for is
in its history.

`Known` is what holds otherwise. The place of every event that can wake the workflow up
belongs to a call that has not asked for the lock yet, or lies in the snapshot of the current
run, or of the last one if there is no current run.

Results:
1. `lock_reach`: with a lock at most one engine is between reading and releasing.
2. `no_lost_wakeup`: if every refused call has its event seen by the holder, then a suspended
   workflow has nothing to go on with once all calls are over.
3. `wakeup_lost`: without this the workflow can sleep on an unclaimed signal.
4. `ends_once`: no interleaving completes or fails a workflow twice.
-/

namespace NevoMessaging.Workflow

open List Function

variable {E V : Type}

/-! ## What a suspended call has not found -/

def Outcome.isSuspension : Outcome V → Bool
  | .threw (.suspended _) => true
  | _ => false

/-- Whether a pending call may still end by a suspension. A step does if its body throws one. -/
def Pending.maySuspend : Pending V → Bool
  | .stepAppend .. | .stepStore .. | .consumeAppend .. => false
  | _ => true

def Progress.suspends : Progress V → Bool
  | .settled o => o.isSuspension
  | .pending p => p.maySuspend

/-- What the call waits for is not in the snapshot of its run: every signal of the name is
claimed, the sleep is not over. -/
def Run.Unmet (r : Run V) (entry : Entry) : Prop :=
  match entry.call with
  | .waitForSignal name _ => ∀ i < (received name r.events).length, claimKey name i ∈ r.ctx.claimed
  | .sleep _ => .sleepCompleted entry.ordinal ∉ r.events
  | _ => True

/-- The run ended by a suspension, and this call, the `k`-th of its kind, was suspended. -/
def Run.SuspendedIn (r : Run V) (call : CtxCall) (k : Nat) : Prop :=
  r.result = some (.returned { status := .suspended }) ∧
    ∃ reason, (⟨call, k⟩, .threw (.suspended reason)) ∈ r.log

/-- Some wait has claimed the signal: it is consumed, or a run is about to consume it. -/
def Sys.Claimed (cfg : Cfg E V) (s : Sys E V) (name : String) (i : Nat) : Prop :=
  i ∈ consumedIndices name (s.history cfg) ∨
    ∃ r, s.HasRun r ∧ ∃ c ∈ r.claims, c.name = name ∧ c.index = i

/-- What every run keeps: a suspended call had nothing to go on with, and a claimed signal is
consumed or about to be. -/
structure SuspensionInv (r : Run V) : Prop where
  snapshot : r.Snapshot
  log : ∀ x ∈ r.log, x.2.isSuspension = true → r.Unmet x.1
  inFlight : ∀ x ∈ r.inFlight, x.2.maySuspend = true → r.Unmet x.1
  claimed : ∀ n i, claimKey n i ∈ r.ctx.claimed →
    i ∈ consumedIndices n (r.events ++ r.appended) ∨ ∃ c ∈ r.claims, c.name = n ∧ c.index = i

theorem firstUnclaimed_none {claimed : List String} {name : String} {len : Nat}
    (h : firstUnclaimed claimed name len = none) {i : Nat} (hi : i < len) :
    claimKey name i ∈ claimed := by
  have hall := find?_eq_none.mp h i (mem_range.mpr hi)
  simpa using hall

variable {r r' : Run V} {entry : Entry} {date : Int} {call : CtxCall} {m : Moved V}
  {workflowId : String} {c : Ctx V} {p : Pending V} {inp : Input V} {evs : List (WorkflowEvent V)}
  {how : Option (Nat × Input V)} {ts : List (String × WakeupPayload)}

theorem Unmet.mono (h : r.Unmet entry) (hev : r'.events = r.events)
    (hcl : r.ctx.claimed ⊆ r'.ctx.claimed) : r'.Unmet entry := by
  obtain ⟨call, k⟩ := entry
  cases call with
  | waitForSignal name t =>
    intro i hi
    rw [hev] at hi
    exact hcl (h i hi)
  | sleep ms =>
    intro hm
    rw [hev] at hm
    exact h hm
  | now | step => trivial

theorem issues_unmet (hsnap : r.Snapshot) (h : Issues r.scheduler date r.ctx call m)
    (hs : m.progress.suspends = true) :
    (r.issued ⟨call, m.ctx.ordinal call⟩ m).Unmet ⟨call, m.ctx.ordinal call⟩ := by
  cases h with
  | nowRecorded | nowNew | stepRecorded | stepBody => trivial
  | sleepSuspends hd | sleepArms hd => exact fun hm => hd (hsnap.mem_sleepDone.mpr hm)
  | waitArms _ _ hn | waitSuspends _ _ hn =>
    intro i hi
    exact firstUnclaimed_none hn (by rw [hsnap.signals_eq]; exact hi)
  | sleepDone | sleepRefused | waitConsumed | waitTimedOut | waitClaims => cases hs

theorem advances_maySuspend (h : Advances workflowId date c p inp m)
    (hs : m.progress.suspends = true) : p.maySuspend = true := by
  cases h <;> first | rfl | cases hs

theorem issues_claimed {scheduler : Bool} (h : Issues scheduler date c call m) :
    c.claimed ⊆ m.ctx.claimed ∧ ∀ n i, claimKey n i ∈ m.ctx.claimed →
      claimKey n i ∈ c.claimed ∨
        ∀ entry, ∃ d ∈ (m.progress.opened entry).filterMap claim?, d.name = n ∧ d.index = i := by
  cases h with
  | @waitClaims name _ index =>
    refine ⟨subset_cons_self _ _, fun n i hm => ?_⟩
    rcases mem_cons.mp hm with hk | hm
    · obtain ⟨rfl, rfl⟩ := claimKey_inj.mp hk
      exact .inr fun entry => ⟨_, mem_singleton_self _, rfl, rfl⟩
    · exact .inl hm
  | _ => exact ⟨fun _ hm => hm, fun _ _ hm => .inl hm⟩

theorem advances_claimed (h : Advances workflowId date c p inp m) : m.ctx.claimed = c.claimed := by
  cases h <;> rfl

theorem advances_consumes (h : Advances workflowId date c p inp m) {d : Claim V}
    (hd : claim? (entry, p) = some d) :
    d.index ∈ consumedIndices d.name m.events := by
  cases h with
  | consumeAppend =>
    cases hd
    simp [consumedIndices]
  | _ => cases hd

theorem mem_closed {pr : Progress V} {x : Entry × Outcome V} (hx : x ∈ pr.closed entry)
    (hs : x.2.isSuspension = true) :
    x.1 = entry ∧ pr.suspends = true := by
  cases pr with
  | settled o =>
    cases mem_singleton.mp hx
    exact ⟨rfl, hs⟩
  | pending p => cases hx

theorem mem_opened {pr : Progress V} {x : Entry × Pending V} (hx : x ∈ pr.opened entry)
    (hs : x.2.maySuspend = true) :
    x.1 = entry ∧ pr.suspends = true := by
  cases pr with
  | settled o => cases hx
  | pending p =>
    cases mem_singleton.mp hx
    exact ⟨rfl, hs⟩

theorem suspensionInv_part (hi : SuspensionInv r) (hg : Goes r how r' evs ts)
    (hsub : r.ctx.claimed ⊆ r'.ctx.claimed) (hlog : r'.log = r.log ++ m.progress.closed entry)
    (hin : ∀ x ∈ r'.inFlight, x ∈ r.inFlight ∨ x ∈ m.progress.opened entry)
    (hself : m.progress.suspends = true → r'.Unmet entry)
    (hclaimed : ∀ n i, claimKey n i ∈ r'.ctx.claimed →
      i ∈ consumedIndices n (r'.events ++ r'.appended) ∨
        ∃ c ∈ r'.claims, c.name = n ∧ c.index = i) : SuspensionInv r' := by
  have hkeep : ∀ {d}, r.Unmet d → r'.Unmet d := fun hu => Unmet.mono hu hg.same.events hsub
  refine ⟨hi.snapshot.goes hg, fun x hx hs => ?_, fun x hx hs => ?_, hclaimed⟩
  · rw [hlog] at hx
    rcases mem_append.mp hx with hx | hx
    · exact hkeep (hi.log x hx hs)
    · obtain ⟨hx, hs⟩ := mem_closed hx hs
      exact hx ▸ hself hs
  · rcases hin x hx with hx | hx
    · exact hkeep (hi.inFlight x hx hs)
    · obtain ⟨hx, hs⟩ := mem_opened hx hs
      exact hx ▸ hself hs

theorem suspensionInv_goes (hi : SuspensionInv r) (h : Goes r how r' evs ts) :
    SuspensionInv r' := by
  have hg := h
  cases h with
  | @call _ call m _ hm =>
    obtain ⟨hsub, hnew⟩ := issues_claimed hm
    refine suspensionInv_part hi hg hsub rfl (fun x hx => mem_append.mp hx)
      (issues_unmet hi.snapshot hm) fun n i hk => ?_
    simp only [Run.claims, Run.issued, filterMap_append, consumedIndices_append, mem_append]
    rcases hnew n i hk with hold | hopen
    · rcases hi.claimed n i hold with hc | ⟨c, hc, hcn⟩
      · rw [consumedIndices_append, mem_append] at hc
        exact .inl (hc.imp_right .inl)
      · exact .inr ⟨c, .inl hc, hcn⟩
    · obtain ⟨c, hc, hcn⟩ := hopen ⟨call, m.ctx.ordinal call⟩
      exact .inr ⟨c, .inr hc, hcn⟩
  | ends => exact ⟨hi.snapshot, hi.log, hi.inFlight, hi.claimed⟩
  | @advance _ _ i entry p inp m hget hm =>
    have hcl : (r.advanced i entry p inp m).ctx.claimed = r.ctx.claimed := advances_claimed hm
    refine suspensionInv_part hi hg (hcl ▸ Subset.refl _) rfl
      (fun x hx => Run.mem_advanced hget hx) (fun hs => ?_) fun n j hk => ?_
    · exact Unmet.mono (hi.inFlight _ (mem_of_getElem? hget) (advances_maySuspend hm hs)) rfl
        (hcl ▸ Subset.refl _)
    rw [hcl] at hk
    obtain ⟨l₁, l₂, hl, hl'⟩ := r.advanced_split hget inp m
    rw [Run.claims, hl']
    simp only [filterMap_append, Run.advanced, consumedIndices_append, mem_append]
    rcases hi.claimed n j hk with hc | ⟨c, hc, hcn⟩
    · rw [consumedIndices_append, mem_append] at hc
      exact .inl (hc.imp_right .inl)
    · -- The claim is that of another call, or it is consumed now.
      rw [Run.claims, hl, filterMap_append, mem_append] at hc
      rcases hc with hc | hc
      · exact .inr ⟨c, .inl (.inl hc), hcn⟩
      · obtain ⟨x, hx, hd⟩ := mem_filterMap.mp hc
        rcases mem_cons.mp hx with rfl | hx
        · have hidx := advances_consumes hm hd
          rw [hcn.1, hcn.2] at hidx
          exact .inl (.inr (.inr hidx))
        · exact .inr ⟨c, .inr (mem_filterMap.mpr ⟨x, hx, hd⟩), hcn⟩

theorem suspensionInv_fresh (cfg : Cfg E V) (e : E) (seed : Nat)
    (events : List (WorkflowEvent V)) : SuspensionInv (executeExclusive cfg e seed events) := by
  have hf := executeExclusive_fresh cfg e seed events
  refine ⟨hf.snapshot, by simp [hf.log], by simp [hf.inFlight], fun n i hk => .inl ?_⟩
  · rw [hf.ctx] at hk
    rw [hf.events, hf.appended, append_nil]
    exact mem_consumedIndices.mpr (replay_claimed.mp hk)

theorem goes_appended (h : Goes r how r' evs ts) : r'.appended = r.appended ++ evs := by
  cases h with
  | ends => exact (append_nil _).symm
  | _ => rfl

theorem goes_inside (h : Goes r how r' evs ts) : ∀ ev ∈ evs, ev.outside = false := by
  cases h with
  | call _ hm => cases hm <;> simp [WorkflowEvent.outside]
  | ends => simp
  | advance _ hm => cases hm <;> simp [WorkflowEvent.outside]

section Reach

variable [DecidableEq E] {cfg : Cfg E V} {ok : Sys E V → Act E V → Prop} {s : Sys E V}

variable {r : Run V}

theorem suspensionInv_reach (h : (machine cfg).Reach ok s) (hr : s.HasRun r) : SuspensionInv r :=
  runs_invariant (suspensionInv_fresh cfg) suspensionInv_goes
    (fun x hi => ⟨hi.snapshot, hi.log, hi.inFlight, fun n i hk => by
      rcases hi.claimed n i hk with hc | hc
      · rw [Run.finished, ← append_assoc, consumedIndices_append]
        exact .inl (mem_append_left _ hc)
      · exact .inr hc⟩) h hr

theorem appended_reach (h : (machine cfg).Reach ok s) (hr : s.HasRun r) :
    r.appended ⊆ s.history cfg := by
  revert r
  refine h.invariant (P := fun s => ∀ {r}, s.HasRun r → r.appended ⊆ s.history cfg) ?_ ?_
  · simp [Sys.HasRun]
  · intro s s' a _ hi _ hs r' hr
    have h := Step.of_step hs
    rcases h.run hr with hr | ⟨r, hr, _, _, _, hg, hh⟩ | ⟨e, r, x, hl, _, rfl, hh⟩ |
      ⟨e, seed, rfl, _⟩
    · exact List.Subset.trans (hi hr) h.grows.subset
    · rw [goes_appended hg, hh]
      exact append_subset.mpr ⟨subset_append_of_subset_left _ (hi hr),
        subset_append_right _ _⟩
    · rw [hh]
      exact append_subset.mpr ⟨subset_append_of_subset_left _ (hi (.inr ⟨e, hl⟩)),
        subset_append_right _ _⟩
    · simp [(executeExclusive_fresh cfg e seed _).appended]

theorem claimed_reach (h : (machine cfg).Reach ok s) (hr : s.HasRun r) {name : String} {i : Nat}
    (hk : claimKey name i ∈ r.ctx.claimed) : s.Claimed cfg name i := by
  rcases (suspensionInv_reach h hr).claimed name i hk with hc | hc
  · obtain ⟨k, hm⟩ := mem_consumedIndices.mp hc
    refine .inl (mem_consumedIndices.mpr ⟨k, ?_⟩)
    rcases mem_append.mp hm with hm | hm
    · exact (prefix_reach h hr).subset hm
    · exact appended_reach h hr hm
  · exact .inr ⟨r, hr, hc⟩

end Reach

/-! ## The lock -/

/-- The engine has the lock, if there is one. -/
def Cur.holds : Cur V → Bool
  | .reading | .exec _ | .releasing => true
  | _ => false

variable {cfg : Cfg E V} {s : Sys E V}

/-- With a lock at most one engine is at work, the one that holds the lock. -/
theorem lock_reach [DecidableEq E] (hlock : cfg.lock = true) {ok : Sys E V → Act E V → Prop}
    (h : (machine cfg).Reach ok s) :
    ∀ e, (s.cur e).holds = true → s.holder = some e := by
  refine h.invariant ?_ ?_
  · simp [Cur.holds]
  · intro s s' a _ hi _ hs d hd
    cases Step.of_step hs with
    | clock | foreign | start | resume | signal | cancel | wakeLegacy | wake | wakeSkip
      | wakeAppend | join | late => exact hi d hd
    | @dequeue e own rest hc hq =>
      by_cases hde : d = e
      · subst hde
        simp [Sys.setCur, hlock, Cur.holds] at hd
      · exact hi d (by simpa [Sys.setCur, update_of_ne hde] using hd)
    | @acquire e own hc hh =>
      by_cases hde : d = e
      · exact hde ▸ rfl
      · have hold := hi d (by simpa [Sys.setCur, update_of_ne hde] using hd)
        rcases hh with hh | hh
        · exact absurd (hold.symm.trans hh) (by simp)
        · exact absurd (Option.some.inj (hold.symm.trans hh)) hde
    | @refused e own hc hh =>
      by_cases hde : d = e
      · subst hde
        simp [Sys.setCur, Cur.holds] at hd
      · exact hi d (by simpa [Sys.setCur, update_of_ne hde] using hd)
    | @readEnds e _ _ hc | @read e _ _ hc | @go e _ _ _ _ _ hc | @finish e _ _ hc =>
      by_cases hde : d = e
      · exact hde ▸ hi e (by rw [hc]; rfl)
      · exact hi d (by
          simpa [Sys.endRun, Sys.append, Sys.setCur, update_of_ne hde] using hd)
    | @release e hc =>
      have hne : d ≠ e := by
        rintro rfl
        simp [Sys.setCur, Cur.holds] at hd
      have hold := hi d (by simpa [Sys.setCur, update_of_ne hne] using hd)
      exact absurd (Option.some.inj (hold.symm.trans (hi e (by rw [hc]; rfl)))) hne

/-! ## Events that are seen -/

/-- The events that a suspended call may be waiting for. -/
def WorkflowEvent.wakes : WorkflowEvent V → Bool
  | .signalReceived .. | .sleepCompleted _ => true
  | _ => false

/-- How much of the history the last completed run has read. -/
def Sys.lastRead (s : Sys E V) : Nat := ((s.past.map (·.events.length)).getLast?).getD 0

def Cur.sees (place lastRead : Nat) : Cur V → Bool
  | .reading => true
  | .exec r => decide (place < r.events.length)
  | _ => decide (place < lastRead)

/-- The event at this place has been read, or is going to be, by the engine that holds the
lock. With no run under way the last completed one has to have read it. -/
def Sys.seen (s : Sys E V) (place : Nat) : Bool :=
  ((s.holder.map s.cur).getD .free).sees place s.lastRead

/-- The condition on a call that is refused by the lock: the event it has appended is seen
without it. -/
def refusedWhenSeen [DecidableEq E] (s : Sys E V) : Act E V → Bool
  | .acquire e =>
    match s.cur e with
    | .locking (some place) => s.holder = none || s.holder = some e || s.seen place
    | _ => true
  | _ => true

/-- The call that has appended the event at this place has not asked for the lock yet. -/
def Sys.Owned (s : Sys E V) (place : Nat) : Prop :=
  (∃ e, (e, some place) ∈ s.joining) ∨ (∃ e, some place ∈ s.queue e) ∨
    ∃ e, s.cur e = .locking (some place)

/-- Every event that may wake the workflow up is seen, or its call is still to come. -/
def Known (cfg : Cfg E V) (s : Sys E V) : Prop :=
  ∀ place ev, (s.history cfg)[place]? = some ev → ev.wakes = true →
    s.Owned place ∨ s.seen place = true

theorem wakes_outside {ev : WorkflowEvent V} (h : ev.wakes = true) : ev.outside = true := by
  cases ev <;> first | rfl | cases h

theorem Known.next {cfg : Cfg E V} {s s' : Sys E V} {evs : List (WorkflowEvent V)}
    (hk : Known cfg s) (hh : s'.history cfg = s.history cfg ++ evs)
    (hnew : (∀ ev ∈ evs, ev.wakes = false) ∨
      evs.length = 1 ∧ s'.Owned (s.history cfg).length)
    (hold : ∀ place < (s.history cfg).length, s.Owned place ∨ s.seen place = true →
      s'.Owned place ∨ s'.seen place = true) : Known cfg s' := by
  intro place ev hp hw
  rw [hh] at hp
  rcases Nat.lt_or_ge place (s.history cfg).length with hlt | hge
  · rw [getElem?_append_left hlt] at hp
    exact hold place hlt (hk place ev hp hw)
  · rw [getElem?_append_right hge] at hp
    rcases hnew with hnone | ⟨hlen, hown⟩
    · exact absurd (hw.symm.trans (hnone ev (mem_of_getElem? hp))) (by simp)
    · have hlt := (List.getElem?_eq_some_iff.mp hp).1
      have heq : place = (s.history cfg).length := by omega
      exact .inl (heq ▸ hown)

section Places

variable [DecidableEq E] {cfg : Cfg E V} {s : Sys E V} {e : E} {place : Nat}

omit [DecidableEq E] in
theorem seen_of_holder (hh : s.holder = some e) :
    s.seen place = (s.cur e).sees place s.lastRead := by
  simp [Sys.seen, hh]

theorem seen_setCur {c : Cur V} (hh : s.holder ≠ some e) :
    (s.setCur e c).seen place = s.seen place := by
  cases hd : s.holder with
  | none => simp [Sys.seen, Sys.setCur, Sys.lastRead, hd]
  | some d =>
    have hne : d ≠ e := fun h => hh (by rw [hd, h])
    simp [Sys.seen, Sys.setCur, Sys.lastRead, hd, update_of_ne hne]

theorem map_read_set {past : List (Run V)} {k : Nat} {r r' : Run V} (hk : past[k]? = some r)
    (hev : r'.events = r.events) :
    (past.set k r').map (·.events.length) = past.map (·.events.length) := by
  refine ext_getElem? fun j => ?_
  rw [getElem?_map, getElem?_map, getElem?_set]
  split
  · next h =>
    subst h
    split <;> simp_all
  · rfl

theorem mem_enqueue (e : E) (own : Option Nat) {d : E} (h : some place ∈ s.queue d) :
    some place ∈ (s.enqueue e own).queue d := by
  by_cases hd : d = e
  · subst hd
    simp [Sys.enqueue, h]
  · simpa [Sys.enqueue, update_of_ne hd] using h

theorem owned_enqueue (e : E) (own : Option Nat) (h : s.Owned place) :
    (s.enqueue e own).Owned place :=
  h.imp_right fun h => h.imp_left fun ⟨d, hd⟩ => ⟨d, mem_enqueue e own hd⟩

omit [DecidableEq E] in
theorem owned_joining {s' : Sys E V} (x : E × Option Nat) (h : s.Owned place)
    (hj : s'.joining = s.joining ++ [x]) (hq : s'.queue = s.queue) (hc : s'.cur = s.cur) :
    s'.Owned place := by
  unfold Sys.Owned
  rw [hj, hq, hc]
  exact h.imp_left fun ⟨d, hd⟩ => ⟨d, mem_append_left _ hd⟩

theorem owned_join {i : Nat} {own : Option Nat} (hi : s.joining[i]? = some (e, own))
    (h : s.Owned place) :
    Sys.Owned { s.enqueue e own with joining := s.joining.eraseIdx i } place := by
  rcases h with ⟨d, hd⟩ | ⟨d, hd⟩ | h
  · obtain ⟨j, hj⟩ := getElem?_of_mem hd
    by_cases hij : j = i
    · subst hij
      cases hi.symm.trans hj
      exact .inr (.inl ⟨e, by simp [Sys.enqueue]⟩)
    · exact .inl ⟨d, mem_eraseIdx_iff_getElem?.mpr ⟨j, hij, hj⟩⟩
  · exact .inr (.inl ⟨d, mem_enqueue e own hd⟩)
  · exact .inr (.inr h)

theorem owned_dequeue {own : Option Nat} {rest : List (Option Nat)} (hc : s.cur e = .free)
    (hq : s.queue e = own :: rest) (h : s.Owned place) :
    Sys.Owned { s.setCur e (.locking own) with queue := Function.update s.queue e rest } place := by
  rcases h with h | ⟨d, hd⟩ | ⟨d, hd⟩
  · exact .inl h
  · by_cases hde : d = e
    · subst hde
      rw [hq, mem_cons] at hd
      rcases hd with rfl | hd
      · exact .inr (.inr ⟨d, by simp [Sys.setCur]⟩)
      · exact .inr (.inl ⟨d, by simpa using hd⟩)
    · exact .inr (.inl ⟨d, by simpa [update_of_ne hde] using hd⟩)
  · have hde : d ≠ e := by
      rintro rfl
      exact absurd (hc.symm.trans hd) (by simp)
    exact .inr (.inr ⟨d, by simpa [Sys.setCur, update_of_ne hde] using hd⟩)

theorem Known.holder {t : Sys E V} {d c : Cur V} {evs : List (WorkflowEvent V)} (hk : Known cfg s)
    (hex : ∀ e, (s.cur e).holds = true → s.holder = some e) (hd : s.cur e = d)
    (hc : d.holds = true) (hist : t.history cfg = s.history cfg ++ evs)
    (hev : ∀ ev ∈ evs, ev.wakes = false) (hj : t.joining = s.joining) (hq : t.queue = s.queue)
    (hcur : t.cur = Function.update s.cur e c)
    (hseen : s.holder = some e → ∀ place < (s.history cfg).length,
      d.sees place s.lastRead = true → t.seen place = true) : Known cfg t := by
  subst hd
  refine Known.next hk hist (.inl hev) fun place hlt h => h.imp (fun h => ?_) fun h => ?_
  · unfold Sys.Owned
    rw [hj, hq, hcur]
    refine h.imp_right fun h => h.imp_right fun ⟨d, hd⟩ => ⟨d, ?_⟩
    have hde : d ≠ e := by
      rintro rfl
      simp [hd, Cur.holds] at hc
    rwa [update_of_ne hde]
  · have hh := hex e hc
    rw [seen_of_holder hh] at h
    exact hseen hh place hlt h

end Places

theorem known_step [DecidableEq E] {cfg : Cfg E V} (hlock : cfg.lock = true) {s s' : Sys E V}
    {a : Act E V} (hex : ∀ e, (s.cur e).holds = true → s.holder = some e) (hk : Known cfg s)
    (hok : refusedWhenSeen s a = true) (h : Step cfg s a s') : Known cfg s' := by
  have hnil : ∀ ev ∈ ([] : List (WorkflowEvent V)), ev.wakes = false := by simp
  have hinside : ∀ {evs : List (WorkflowEvent V)}, (∀ ev ∈ evs, ev.outside = false) →
      ∀ ev ∈ evs, ev.wakes = false := by
    intro evs hev ev hm
    by_contra hw
    exact absurd ((hev ev hm).symm.trans (wakes_outside (by simpa using hw))) (by simp)
  cases h with
  | clock | wake =>
    exact Known.next hk (append_nil _).symm (.inl hnil) fun _ _ h => h
  | foreign ev hid ho =>
    exact Known.next hk ((history_foreign s ev hid ho).trans (append_nil _).symm)
      (.inl hnil) fun _ _ h => h
  | cancel =>
    exact Known.next hk (history_append cfg s _) (.inl (by simp [WorkflowEvent.wakes]))
      fun _ _ h => h
  | @start e | signal e | @wakeAppend _ e =>
    exact Known.next hk (history_append cfg s _)
      (.inr ⟨rfl, .inl ⟨e, mem_append_right _ (mem_singleton_self _)⟩⟩)
      fun _ _ h => h.imp_left fun h => owned_joining _ h rfl rfl rfl
  | resume e | wakeLegacy e =>
    exact Known.next hk (append_nil _).symm (.inl hnil)
      fun _ _ h => h.imp_left (owned_enqueue e none)
  | wakeSkip =>
    exact Known.next hk (append_nil _).symm (.inl hnil)
      fun _ _ h => h.imp_left fun h => owned_joining _ h rfl rfl rfl
  | join hi =>
    exact Known.next hk (append_nil _).symm (.inl hnil) fun _ _ h => h.imp_left (owned_join hi)
  | @dequeue e own rest hc hq =>
    rw [if_pos hlock]
    refine Known.next hk (append_nil _).symm (.inl hnil) fun place _ h =>
      h.imp (owned_dequeue hc hq) fun h => ?_
    by_cases hh : s.holder = some e
    · rw [seen_of_holder hh, hc] at h
      simpa [Sys.seen, Sys.setCur, Sys.lastRead, hh, Cur.sees] using h
    · exact (seen_setCur hh).trans h
  | @acquire e =>
    refine Known.next hk (append_nil _).symm (.inl hnil) fun place _ _ => .inr ?_
    simp [Sys.seen, Sys.setCur, Cur.sees]
  | @refused e own hc hh =>
    have hne : s.holder ≠ some e := fun h => hh (.inr h)
    refine Known.next hk (append_nil _).symm (.inl hnil) fun place _ h => ?_
    rw [seen_setCur hne]
    rcases h with (h | h | ⟨d, hd⟩) | h
    · exact .inl (.inl h)
    · exact .inl (.inr (.inl h))
    · by_cases hde : d = e
      · -- The refused call gives its event up, and the condition says that it is seen.
        subst hde
        rw [not_or] at hh
        exact .inr (by simpa [refusedWhenSeen, hd, hh] using hok)
      · exact .inl (.inr (.inr ⟨d, by simpa [Sys.setCur, update_of_ne hde] using hd⟩))
    · exact .inr h
  | @readEnds e seed r hc hr =>
    refine Known.holder hk hex hc rfl (append_nil _).symm hnil rfl rfl rfl fun hh place hlt _ => ?_
    have hev := (executeExclusive_fresh cfg e seed (s.history cfg)).events
    simp [Sys.seen, Sys.endRun, Sys.setCur, Cfg.afterRun, hlock, hh, Cur.sees, Sys.lastRead, hr,
      hev, hlt]
  | @read e seed r hc hr =>
    refine Known.holder hk hex hc rfl (append_nil _).symm hnil rfl rfl rfl fun hh place hlt _ => ?_
    have hev := (executeExclusive_fresh cfg e seed (s.history cfg)).events
    simp [Sys.seen, Sys.setCur, hh, Cur.sees, hr, hev, hlt]
  | go hc hg =>
    refine Known.holder hk hex hc rfl (history_append cfg s _) (hinside (goes_inside hg)) rfl rfl
      rfl fun hh place _ h => ?_
    simpa [Sys.seen, Sys.setCur, Sys.append, hh, Cur.sees, hg.same.events] using h
  | @finish e r x hc hx =>
    have hev : ∀ ev ∈ [x.event], ev.wakes = false := by
      cases x <;> simp [Ending.event, WorkflowEvent.wakes]
    refine Known.holder hk hex hc rfl (history_append cfg s _) hev rfl rfl rfl
      fun hh place _ h => ?_
    simpa [Sys.seen, Sys.endRun, Sys.setCur, Sys.append, Cfg.afterRun, hlock, hh, Cur.sees,
      Sys.lastRead, Run.finished] using h
  | release hc =>
    exact Known.holder hk hex hc rfl (append_nil _).symm hnil rfl rfl rfl fun _ _ _ h => h
  | late hp hg =>
    refine Known.next hk (history_append cfg s _) (.inl (hinside (goes_inside hg)))
      fun place _ h => h.imp_right fun h => ?_
    rw [Sys.seen, Sys.lastRead, map_read_set hp hg.same.events]
    exact h

/-! ## Suspended workflows -/

theorem known_reach [DecidableEq E] (hlock : cfg.lock = true)
    (h : (machine cfg).Reach (fun s a => refusedWhenSeen s a = true) s) : Known cfg s := by
  refine h.invariant ?_ fun hs hi ha hstep =>
    known_step hlock (lock_reach hlock hs) hi ha (.of_step hstep)
  intro place ev hp
  simp at hp

theorem Known.quiet (hk : Known cfg s) (hq : s.Quiet) {r : Run V} (hlast : s.past.getLast? = some r)
    {rest : List (WorkflowEvent V)} (hrest : s.history cfg = r.events ++ rest) :
    ∀ ev ∈ rest, ev.wakes = false := by
  obtain ⟨_, hjoin, hqueue, hcur⟩ := hq
  intro ev hev
  by_contra hw
  obtain ⟨i, hi⟩ := getElem?_of_mem hev
  have hp : (s.history cfg)[r.events.length + i]? = some ev := by
    rw [hrest, getElem?_append_right (Nat.le_add_right _ _), Nat.add_sub_cancel_left, hi]
  rcases hk _ ev hp (by simpa using hw) with (⟨e, h⟩ | ⟨e, h⟩ | ⟨e, h⟩) | h
  · simp [hjoin] at h
  · simp [hqueue] at h
  · exact absurd ((hcur e).symm.trans h) (by simp)
  · have hfree : (s.holder.map s.cur).getD .free = .free := by
      cases s.holder with
      | none => rfl
      | some e => exact hcur e
    have hlt : r.events.length + i < s.lastRead := by simpa [Sys.seen, hfree, Cur.sees] using h
    rw [Sys.lastRead, getLast?_map, hlast] at hlt
    exact absurd hlt (Nat.not_lt.mpr (Nat.le_add_right _ _))

theorem received_quiet {name : String} {rest : List (WorkflowEvent V)}
    (h : ∀ ev ∈ rest, ev.wakes = false) : received name rest = [] := by
  rw [received, filterMap_eq_nil_iff]
  intro ev hm
  have hw := h ev hm
  cases ev <;> first | rfl | cases hw

/-- No wake-up is lost across engines that share a lock, as long as each call that the lock
refuses has its event seen by the holder: once no call is in progress, a workflow whose last
run has suspended in a wait has no unclaimed signal of that name, and one whose last run has
suspended in a sleep has no completion of that sleep. -/
theorem no_lost_wakeup [DecidableEq E] {cfg : Cfg E V} (hlock : cfg.lock = true) {s : Sys E V}
    (h : (machine cfg).Reach (fun s a => refusedWhenSeen s a = true) s) (hq : s.Quiet)
    {r : Run V} (hlast : s.past.getLast? = some r) :
    (∀ name timeoutMs k, r.SuspendedIn (.waitForSignal name timeoutMs) k →
      ∀ i < (received name (s.history cfg)).length, s.Claimed cfg name i) ∧
    ∀ ms k, r.SuspendedIn (.sleep ms) k → .sleepCompleted k ∉ s.history cfg := by
  have hr : s.HasRun r := .inl (mem_of_getLast? hlast)
  obtain ⟨rest, hrest⟩ := prefix_reach h hr
  have hno := (known_reach hlock h).quiet hq hlast hrest.symm
  have hunmet : ∀ call k, r.SuspendedIn call k → r.Unmet ⟨call, k⟩ := by
    rintro call k ⟨_, reason, hm⟩
    exact (suspensionInv_reach h hr).log _ hm rfl
  refine ⟨fun name timeoutMs k hs i hi => ?_, fun ms k hs hm => ?_⟩
  · rw [← hrest, received_append, received_quiet hno, append_nil] at hi
    exact claimed_reach h hr (hunmet _ k hs i hi)
  · rw [← hrest, mem_append] at hm
    rcases hm with hm | hm
    · exact hunmet _ k hs hm
    · exact absurd (hno _ hm) (by simp [WorkflowEvent.wakes])

/-! ## A document with two reviews -/

/-- The document is published after two reviews. -/
def publish : Script Nat := fun _ seen =>
  match seen with
  | [] | [.payload _] => .call (.waitForSignal "review" none)
  | [_, .payload v] => .ret (v.getD 0)
  | seen =>
    match seen.getLast? with
    | some (.threw e) => .throw e
    | _ => .idle

/-- Two engines with a lock. -/
def publishCfg : Cfg Bool Nat where
  workflowId := "d-7"
  workflows := fun _ name => if name = "publish" then some (ofScript publish) else none
  scheduler := fun _ => false
  lock := true

/-- The second engine receives a review, and its call is refused by the lock. -/
def refusedReview : List (Act Bool Nat) :=
  [.signal true "review" 1, .join 0, .dequeue true, .acquire true]

/-- All calls are over, and the last run is suspended in its `k`-th wait for a review. -/
def awaitsReview (k : Nat) (s : Sys Bool Nat) : Bool :=
  decide s.Quiet && s.past.getLast?.any fun r =>
    decide (r.result = some (.returned { status := .suspended })) &&
      decide (r.log.getLast? =
        some (⟨.waitForSignal "review" none, k⟩, .threw (.suspended (waitReason "review"))))

theorem awaitsReview_run {k : Nat} {s : Sys Bool Nat} (h : awaitsReview k s = true) :
    s.Quiet ∧ ∃ r, s.past.getLast? = some r ∧
      r.SuspendedIn (.waitForSignal "review" none) k := by
  simp only [awaitsReview, Bool.and_eq_true, decide_eq_true_eq, Option.any_eq_true] at h
  obtain ⟨hq, r, hr, hres, hlog⟩ := h
  exact ⟨hq, r, hr, hres, _, mem_of_getLast? hlog⟩

/-- The review is in the history, the workflow is not over, and no run claims or has claimed
a review. -/
def reviewUnclaimed (s : Sys Bool Nat) : Bool :=
  !isTerminal (s.history publishCfg) &&
    decide (received "review" (s.history publishCfg) = [1]) &&
    decide (consumedIndices "review" (s.history publishCfg) = []) &&
    s.past.all fun r => r.claims.isEmpty

/-- The review comes after the run has looked for it and before the run has freed the lock.
Its call is refused, and the document waits for a review that it has. -/
theorem wakeup_lost :
    ¬ ∀ s, (machine publishCfg).Reach Machine.free s → s.Quiet →
      isTerminal (s.history publishCfg) = false → ∀ r, s.past.getLast? = some r →
      ∀ name timeoutMs k, r.SuspendedIn (.waitForSignal name timeoutMs) k →
        ∀ i < (received name (s.history publishCfg)).length, s.Claimed publishCfg name i := by
  obtain ⟨s, hs, hobs⟩ := Machine.Reach.observe (machine publishCfg) Machine.free
    ([Act.start false "publish" 0, .join 0, .dequeue false, .acquire false, .read false 0,
      .move false, .move false] ++ refusedReview ++ [Act.finish false, .release false])
    (fun s => awaitsReview 1 s && reviewUnclaimed s) true (by decide +kernel)
  rw [Bool.and_eq_true] at hobs
  obtain ⟨hq, r, hr, hsus⟩ := awaitsReview_run hobs.1
  have hun := hobs.2
  simp only [reviewUnclaimed, Bool.and_eq_true, Bool.not_eq_true', decide_eq_true_eq,
    List.all_eq_true, List.isEmpty_iff] at hun
  obtain ⟨⟨⟨hterm, hrec⟩, hcons⟩, hclaims⟩ := hun
  intro hall
  rcases hall s hs hq hterm r hr _ _ 1 hsus 0 (by simp [hrec]) with hc | ⟨q, hrun, c, hc, _⟩
  · simp [hcons] at hc
  · rcases hrun with hp | ⟨e, he⟩
    · simp [hclaims q hp] at hc
    · exact absurd ((hq.2.2.2 e).symm.trans he) (by simp)

theorem no_lost_wakeup_review :
    ∃ s r, (machine publishCfg).Reach (fun s a => refusedWhenSeen s a = true) s ∧ s.Quiet ∧
      s.past.getLast? = some r ∧ r.SuspendedIn (.waitForSignal "review" none) 2 ∧
      0 < (received "review" (s.history publishCfg)).length ∧ s.Claimed publishCfg "review" 0 := by
  obtain ⟨s, hs, hobs⟩ := Machine.Reach.observe (machine publishCfg)
    (fun s a => refusedWhenSeen s a = true)
    ([Act.start false "publish" 0, .join 0, .dequeue false, .acquire false] ++ refusedReview ++
      [Act.read false 0, .move false, .advance false 0 .resolved, .move false, .move false,
        .finish false, .release false])
    (fun s => awaitsReview 2 s && decide (received "review" (s.history publishCfg) = [1])) true
    (by decide +kernel)
  rw [Bool.and_eq_true, decide_eq_true_eq] at hobs
  obtain ⟨hq, r, hr, hsus⟩ := awaitsReview_run hobs.1
  have hrec : 0 < (received "review" (s.history publishCfg)).length := by simp [hobs.2]
  exact ⟨s, r, hs, hq, hr, hsus, hrec, (no_lost_wakeup rfl hs hq hr).1 _ _ _ hsus 0 hrec⟩

/-! ## Endings -/

def WorkflowStatus.ended : WorkflowStatus → Bool
  | .completed | .failed => true
  | _ => false

/-- The history has at most one completion or failure. Once it has one, its status stays terminal
and no engine executes the workflow. -/
structure EndsOnce (cfg : Cfg E V) (s : Sys E V) : Prop where
  once : (statuses (s.history cfg)).countP WorkflowStatus.ended ≤ 1
  terminal : 0 < (statuses (s.history cfg)).countP WorkflowStatus.ended →
    (replay (s.history cfg)).status.terminal
  idle : 0 < (statuses (s.history cfg)).countP WorkflowStatus.ended → ∀ e r, s.cur e ≠ .exec r

theorem endsOnce_step [DecidableEq E] {cfg : Cfg E V} {s s' : Sys E V} {a : Act E V}
    (hsole : ∀ e e', (s.cur e).holds → (s.cur e').holds → e' = e) (hi : EndsOnce cfg s)
    (h : Step cfg s a s') : EndsOnce cfg s' := by
  rcases h.statuses with heq | ⟨-, hcur, heq⟩ | ⟨e, r, x, -, hl, -, hafter, heq⟩
  · refine ⟨heq ▸ hi.once, ?_, fun hend e r hl => ?_⟩
    · rw [replay_status, heq, ← replay_status]
      exact hi.terminal
    · rw [heq] at hend
      rcases h.live hl with hl | ⟨r, _, _, _, hl, _⟩ | ⟨_, _, _, rfl, hn⟩
      · exact hi.idle hend e r hl
      · exact hi.idle hend e r hl
      · -- a run that has read this history has returned at once
        exact Bool.false_ne_true ((executeExclusive_runs hn).1.symm.trans (hi.terminal hend))
  · refine ⟨?_, fun _ => by rw [terminal_append _ heq]; rfl, ?_⟩
    · rw [heq, countP_append]
      exact hi.once
    · rw [heq, countP_append, hcur]
      exact hi.idle
  · -- until now the workflow had not ended, and its run was the only one
    have hnone : (statuses (s.history cfg)).countP WorkflowStatus.ended = 0 :=
      Nat.eq_zero_of_not_pos fun hend => hi.idle hend e r hl
    have hcount : (statuses (s'.history cfg)).countP WorkflowStatus.ended =
        if x.result.status.ended then 1 else 0 := by
      rw [heq, countP_append, hnone, countP_singleton, Nat.zero_add]
    refine ⟨?_, fun hend => ?_, fun _ e' r' hl' => ?_⟩
    · rw [hcount]
      split <;> decide
    · rw [hcount] at hend
      rw [terminal_append _ heq]
      cases x with
      | completed v | failed m => rfl
      | suspended reason => cases hend
    · have hholds : (s.cur e').holds := by
        rcases h.live hl' with hl' | ⟨_, _, _, _, hl', _⟩ | ⟨hl', _⟩ <;> rw [hl'] <;> rfl
      rw [hsole e e' (by rw [hl]; rfl) hholds, hafter, Cfg.afterRun] at hl'
      split at hl' <;> cases hl'

/-- One engine, or any number of them that share a lock, in every interleaving of calls, wake-ups
and cancellations, for every workflow function. -/
theorem ends_once [DecidableEq E] {cfg : Cfg E V} (hone : cfg.lock = true ∨ Subsingleton E)
    {s : Sys E V} (h : (machine cfg).Reach Machine.free s) : EndsOnce cfg s := by
  refine h.invariant ?_ fun hs hi _ hstep =>
    endsOnce_step (fun e e' he he' => ?_) hi (.of_step hstep)
  · constructor <;> simp [Workflow.statuses]
  · rcases hone with hlock | hsub
    · have hheld := lock_reach hlock hs
      exact Option.some.inj ((hheld e' he').symm.trans (hheld e he))
    · exact Subsingleton.elim e' e

theorem ends_once_shipped : ∃ s, (machine orderCfg).Reach Machine.free s ∧
    .completed ∈ statuses (s.history orderCfg) ∧ s.past.length = 3 ∧ EndsOnce orderCfg s := by
  obtain ⟨s, hs, hobs⟩ := Machine.Reach.observe (machine orderCfg) Machine.free
    (startOrder [] ++ approveOrder ++ shipOrder ++ approveOrder)
    (fun s => (decide (.completed ∈ statuses (s.history orderCfg)), s.past.length)) (true, 3)
    (by decide +kernel)
  obtain ⟨hcompleted, hpast⟩ := Prod.mk.inj hobs
  exact ⟨s, hs, of_decide_eq_true hcompleted, hpast, ends_once (.inr inferInstance) hs⟩

end NevoMessaging.Workflow
