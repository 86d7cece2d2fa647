import NevoMessaging.Workflow.Lifecycle
import NevoMessaging.Workflow.Single

/-!
# Signals

A signal is received into the queue of its name and consumed by a wait, which records the
name, the index in the queue and its own ordinal. Which signals are taken is kept in the
set `claimed`, under keys `name#index`, and rebuilt by every run from its snapshot of the
history. New signals may be appended while a run with an older snapshot consumes one.

The invariant `Claiming` relates the live run to the history: its set of claimed keys is
what the history has consumed, plus the one signal it may be consuming at the moment. With
it the oldest unclaimed index is the number of signals consumed so far.

Results:
1. `signals_exactly_once`: for one engine and sequential functions.
-/

namespace NevoMessaging.Workflow

open List

variable {V : Type}

def CtxCall.isWait : CtxCall → Bool
  | .waitForSignal .. => true
  | _ => false

/-- Signals of this history are consumed exactly once, first in first out per name. -/
structure ExactlyOnce (history : List (WorkflowEvent V)) : Prop where
  fifo : ∀ name, consumedIndices name history = List.range (consumedIndices name history).length
  index : ∀ name, (consumedIndices name history).Nodup
  ordinal : (consumedOrdinals history).Nodup
  received : ∀ {before : List (WorkflowEvent V)} {name : String} {i k : Nat},
    before ++ [WorkflowEvent.signalConsumed name i k] <+: history →
      i < (received name before).length

/-- A settled call of a run that read `events`: if the run found the consumption of its wait
recorded, it got the payload of that signal, and it gets no payload but a consumed one. -/
structure Delivered (history events : List (WorkflowEvent V)) (entry : Entry) (o : Outcome V) :
    Prop where
  replayed : entry.call.isWait = true →
    ∀ {n : String} {i : Nat}, .signalConsumed n i entry.ordinal ∈ events →
      ∃ v, (received n history)[i]? = some v ∧ o = .payload (some v)
  consumed : ∀ {p : Option V}, o = .payload p →
    ∃ n i v, .signalConsumed n i entry.ordinal ∈ history ∧ (received n history)[i]? = some v ∧
      p = some v

/-! ## The signal a run is consuming -/

structure Claim (V : Type) where
  entry : Entry
  name : String
  index : Nat
  ordinal : Nat
  payload : Option V

def claim? : Entry × Pending V → Option (Claim V)
  | (entry, .consumeAppend name index ordinal payload) =>
    some ⟨entry, name, index, ordinal, payload⟩
  | _ => none

def Run.claims (r : Run V) : List (Claim V) := r.inFlight.filterMap claim?

/-- A claim is on the oldest signal nobody has consumed, by a wait that has consumed none and
has not timed out. -/
structure ClaimOk (history : List (WorkflowEvent V)) (r : Run V) (c : Claim V) : Prop where
  entry : c.entry.ordinal = c.ordinal
  reached : c.ordinal ≤ r.ctx.waitOrdinal
  fresh : c.ordinal ∉ consumedOrdinals history
  untimed : ∀ name, .signalTimeout c.ordinal name ∉ r.events
  index : c.index = (consumedIndices c.name history).length
  payload : ∃ v, (received c.name r.events)[c.index]? = some v ∧ c.payload = some v

/-- How the live run stands to the history. -/
structure Claiming (history : List (WorkflowEvent V)) (r : Run V) : Prop where
  claimed : ∀ n i, claimKey n i ∈ r.ctx.claimed ↔
    i ∈ consumedIndices n history ∨ ∃ c ∈ r.claims, c.name = n ∧ c.index = i
  ordinals : ∀ k ∈ consumedOrdinals history,
    k ∈ consumedOrdinals r.events ∨ k ≤ r.ctx.waitOrdinal
  waits : ∀ x ∈ r.inFlight, x.1.call.isWait = true → x.1.ordinal ∉ consumedOrdinals r.events
  one : r.claims.length ≤ 1
  claims : ∀ c ∈ r.claims, ClaimOk history r c

structure SignalInv (c : Core V) : Prop where
  once : ExactlyOnce c.history
  live : ∀ r, c.live = some r → Claiming c.history r
  log : ∀ r ∈ c.runs, ∀ x ∈ r.log, Delivered c.history r.events x.1 x.2

/-! ## Histories without consumption -/

variable {evs history events : List (WorkflowEvent V)} {n : String} {i : Nat} {entry : Entry}
  {r r' : Run V} {p : Pending V} {m : Moved V} {date : Int} {inp : Input V}
  {how : Option (Nat × Input V)} {ts : List (String × WakeupPayload)}

theorem consumedIndices_nil (h : consumedOrdinals evs = []) (n : String) :
    consumedIndices n evs = [] := by
  rw [eq_nil_iff_forall_not_mem]
  intro i hi
  obtain ⟨k, hk⟩ := mem_consumedIndices.mp hi
  have hmem : k ∈ consumedOrdinals evs := mem_consumedOrdinals.mpr ⟨n, i, hk⟩
  simp [h] at hmem

theorem outside_consumedOrdinals (h : ∀ ev ∈ evs, ev.outside = true) :
    consumedOrdinals evs = [] := by
  rw [eq_nil_iff_forall_not_mem]
  intro k hk
  obtain ⟨n, i, hm⟩ := mem_consumedOrdinals.mp hk
  exact absurd (h _ hm) (by simp [WorkflowEvent.outside])

theorem prefix_append_cases {α : Type} {l h evs : List α} {x : α} (hp : l ++ [x] <+: h ++ evs) :
    l ++ [x] <+: h ∨ x ∈ evs ∧ h <+: l := by
  have hle : h <+: h ++ evs := prefix_append h evs
  rcases Nat.lt_or_ge l.length h.length with hlen | hlen
  · exact .inl (prefix_of_prefix_length_le hp hle (by simpa [Nat.succ_le_iff] using hlen))
  · have hl : h <+: l :=
      prefix_of_prefix_length_le hle ((prefix_append l [x]).trans hp) hlen
    obtain ⟨mid, rfl⟩ := hl
    obtain ⟨rest, hrest⟩ := hp
    rw [append_assoc, append_assoc, append_cancel_left_eq] at hrest
    exact .inr ⟨by simp [← hrest], prefix_append h mid⟩

theorem ExactlyOnce.append (h : ExactlyOnce history) (hno : consumedOrdinals evs = []) :
    ExactlyOnce (history ++ evs) := by
  have hidx := consumedIndices_nil hno
  refine ⟨fun n => ?_, fun n => ?_, ?_, fun hp => ?_⟩
  · simpa [hidx] using h.fifo n
  · simpa [hidx] using h.index n
  · simpa [hno] using h.ordinal
  · rcases prefix_append_cases hp with hp | ⟨hmem, _⟩
    · exact h.received hp
    · have hk := mem_consumedOrdinals.mpr ⟨_, _, hmem⟩
      simp [hno] at hk

theorem ExactlyOnce.consume {history : List (WorkflowEvent V)} (h : ExactlyOnce history)
    {name : String} {i k : Nat} (hi : i = (consumedIndices name history).length)
    (hr : i < (Workflow.received name history).length) (hk : k ∉ consumedOrdinals history) :
    ExactlyOnce (history ++ [WorkflowEvent.signalConsumed name i k]) := by
  have hfifo : ∀ n, consumedIndices n (history ++ [WorkflowEvent.signalConsumed name i k]) =
      range (consumedIndices n (history ++
        [WorkflowEvent.signalConsumed name i k])).length := by
    intro n
    by_cases hn : name = n
    · subst hn
      have hcons : consumedIndices name [.signalConsumed (V := V) name i k] = [i] := by
        simp [consumedIndices]
      rw [consumedIndices_append, hcons, length_append, length_singleton,
        range_succ, ← h.fifo name, hi]
    · have hcons : consumedIndices n [.signalConsumed (V := V) name i k] = [] := by
        simp [consumedIndices, hn]
      rw [consumedIndices_append, hcons, append_nil]
      exact h.fifo n
  refine ⟨hfifo, fun n => ?_, ?_, fun {before name' j l} hp => ?_⟩
  · rw [hfifo n]
    exact nodup_range
  · have hcons : consumedOrdinals [.signalConsumed (V := V) name i k] = [k] := rfl
    rw [consumedOrdinals_append, hcons]
    exact nodup_append.mpr ⟨h.ordinal, nodup_singleton k, by
      intro x hx y hy hxy
      rw [mem_singleton] at hy
      exact hk (hy ▸ hxy ▸ hx)⟩
  · rcases prefix_concat_iff.mp hp with heq | hp
    · obtain ⟨rfl, hev⟩ := append_inj' heq rfl
      cases hev
      exact hr
    · exact h.received hp

/-! ## The live run -/

theorem received_getElem?_mono (h : events <+: history) {v : V}
    (hv : (received n events)[i]? = some v) :
    (received n history)[i]? = some v := by
  obtain ⟨more, rfl⟩ := h
  rw [received_append, List.getElem?_append_left (List.getElem?_eq_some_iff.mp hv).1]
  exact hv

theorem Delivered.mono {more : List (WorkflowEvent V)} {o : Outcome V}
    (h : Delivered history events entry o) (hp : history <+: more) :
    Delivered more events entry o where
  replayed hw n i hm := by
    obtain ⟨v, hv, ho⟩ := h.replayed hw hm
    exact ⟨v, received_getElem?_mono hp hv, ho⟩
  consumed ho := by
    obtain ⟨n, i, v, hm, hv, hpv⟩ := h.consumed ho
    exact ⟨n, i, v, hp.subset hm, received_getElem?_mono hp hv, hpv⟩

theorem delivered_none {o : Outcome V}
    (hw : entry.call.isWait = true → entry.ordinal ∉ consumedOrdinals events)
    (ho : ∀ p, o ≠ .payload p) : Delivered history events entry o where
  replayed hwait n i hm := absurd (mem_consumedOrdinals.mpr ⟨n, i, hm⟩) (hw hwait)
  consumed hp := absurd hp (ho _)

theorem Claiming.frame (h : Claiming history r) (hno : consumedOrdinals evs = [])
    (hev : r'.events = r.events) (hcl : r'.ctx.claimed = r.ctx.claimed)
    (hw : r.ctx.waitOrdinal ≤ r'.ctx.waitOrdinal) (hcs : r'.claims = r.claims)
    (hin : ∀ x ∈ r'.inFlight, x ∈ r.inFlight ∨
      (x.1.call.isWait = true → x.1.ordinal ∉ consumedOrdinals r.events)) :
    Claiming (history ++ evs) r' := by
  have hidx := consumedIndices_nil hno
  refine ⟨fun n i => ?_, fun k hk => ?_, fun x hx => ?_, ?_, fun c hc => ?_⟩
  · rw [hcl, hcs, h.claimed n i, consumedIndices_append, hidx, append_nil]
  · rw [consumedOrdinals_append, hno, append_nil] at hk
    rw [hev]
    exact (h.ordinals k hk).imp_right fun hle => hle.trans hw
  · rw [hev]
    exact (hin x hx).elim (h.waits x) id
  · rw [hcs]
    exact h.one
  · have hok := h.claims c (hcs ▸ hc)
    refine ⟨hok.entry, hok.reached.trans hw, ?_, hev ▸ hok.untimed, ?_, hev ▸ hok.payload⟩
    · rw [consumedOrdinals_append, hno, append_nil]
      exact hok.fresh
    · rw [consumedIndices_append, hidx, append_nil]
      exact hok.index

theorem firstUnclaimed_eq {claimed : List String} {name : String} {m len : Nat}
    (hm : ∀ j, claimKey name j ∈ claimed ↔ j < m) (h : firstUnclaimed claimed name len = some i) :
    i = m ∧ i < len := by
  obtain ⟨hi, hlen, hbefore⟩ := find?_range_eq_some.mp h
  have hge : ¬ i < m := by simpa [hm] using hi
  refine ⟨?_, mem_range.mp hlen⟩
  by_contra hne
  have hlt : m < i := by omega
  have hmem : claimKey name m ∈ claimed := by simpa using hbefore m hlt
  exact absurd ((hm m).mp hmem) (lt_irrefl m)

theorem claims_of_bodies (h : ∀ w ∈ r.view.waiting, w.2 = true) : r.claims = [] := by
  rw [Run.claims, filterMap_eq_nil_iff]
  rintro ⟨entry, p⟩ hx
  have hb : p.isBody = true := h (entry, p.isBody) (mem_map_of_mem hx)
  cases p <;> first | rfl | simp [Pending.isBody] at hb

theorem Claiming.claim {c : Claim V} (h : Claiming history r) (hbody : r.claims = [])
    (hev : r'.events = r.events) (hcl : r'.ctx.claimed = claimKey c.name c.index :: r.ctx.claimed)
    (hw : r'.ctx.waitOrdinal = r.ctx.waitOrdinal + 1)
    (hin : r'.inFlight = r.inFlight ++ [(c.entry, p)]) (hp : claim? (c.entry, p) = some c)
    (hno : c.entry.ordinal ∉ consumedOrdinals r.events) (hok : ClaimOk history r' c) :
    Claiming history r' := by
  have hcs : r'.claims = [c] := by
    rw [Run.claims, hin, filterMap_append]
    rw [Run.claims] at hbody
    simp [hbody, hp]
  refine ⟨fun n i => ?_, fun k hk => ?_, fun x hx => ?_, ?_, fun d hd => ?_⟩
  · rw [hcl, hcs, mem_cons, h.claimed n i, hbody, claimKey_inj]
    simp only [not_mem_nil, false_and, exists_false, or_false, mem_singleton,
      exists_eq_left]
    rw [or_comm, eq_comm, @eq_comm _ c.index]
  · rw [hev, hw]
    exact (h.ordinals k hk).imp_right fun hle => hle.trans (Nat.le_succ _)
  · rw [hev]
    rw [hin] at hx
    rcases mem_append.mp hx with hx | hx
    · exact h.waits x hx
    · rw [mem_singleton.mp hx]
      exact fun _ => hno
  · simp [hcs]
  · rw [hcs, mem_singleton] at hd
    exact hd ▸ hok

/-- The first part of a call keeps the invariant. Only `waitClaims` claims anything. -/
theorem issues_claiming {call : CtxCall} (hbody : r.claims = [])
    (hsnap : r.Snapshot) (hone : ExactlyOnce history) (hc : Claiming history r)
    (hm : Issues r.scheduler date r.ctx call m) :
    consumedOrdinals m.events = [] ∧
      Claiming (history ++ m.events) (r.issued ⟨call, m.ctx.ordinal call⟩ m) := by
  have hquiet : consumedOrdinals m.events = [] → m.ctx.claimed = r.ctx.claimed →
      r.ctx.waitOrdinal ≤ m.ctx.waitOrdinal →
      (∀ x ∈ m.progress.opened ⟨call, m.ctx.ordinal call⟩, claim? x = none ∧
        (x.1.call.isWait = true → x.1.ordinal ∉ consumedOrdinals r.events)) →
      consumedOrdinals m.events = [] ∧
        Claiming (history ++ m.events) (r.issued ⟨call, m.ctx.ordinal call⟩ m) := by
    intro hno hcl hw hnew
    refine ⟨hno, hc.frame hno rfl hcl hw ?_ fun x hx => ?_⟩
    · refine filterMap_append.trans ?_
      rw [filterMap_eq_nil_iff.mpr fun x hx => (hnew x hx).1, append_nil]
      rfl
    · exact (mem_append.mp hx).imp_right fun hx => (hnew x hx).2
  cases hm with
  | nowRecorded | nowNew | stepRecorded | stepBody | sleepDone | sleepRefused | sleepSuspends
    | sleepArms =>
    exact hquiet rfl rfl (Nat.le_refl _) (by simp [Progress.opened, claim?, CtxCall.isWait])
  | waitConsumed | waitTimedOut | waitSuspends =>
    exact hquiet rfl rfl (Nat.le_succ _) (by simp [Progress.opened])
  | waitArms hn =>
    refine hquiet rfl rfl (Nat.le_succ _) fun x hx => ?_
    rw [mem_singleton.mp hx]
    exact ⟨rfl, fun _ => hsnap.not_consumed hn⟩
  | @waitClaims name timeoutMs index hn ht hf =>
    have hclaimed : ∀ j, claimKey name j ∈ r.ctx.claimed ↔
        j < (consumedIndices name history).length := by
      intro j
      rw [hc.claimed, hbody, ← mem_range, ← hone.fifo name]
      simp
    obtain ⟨hidx, hlt⟩ := firstUnclaimed_eq hclaimed hf
    refine ⟨rfl, ?_⟩
    rw [append_nil]
    refine hc.claim (c := ⟨⟨.waitForSignal name timeoutMs, r.ctx.waitOrdinal + 1⟩, name, index,
      r.ctx.waitOrdinal + 1, (r.ctx.replay.signals name)[index]?⟩) hbody rfl rfl rfl rfl rfl
      (hsnap.not_consumed hn) ⟨rfl, Nat.le_refl _, ?_, ?_, hidx, ?_⟩
    · -- An ordinal consumed after the snapshot has been passed by this run.
      intro hmem
      rcases hc.ordinals _ hmem with hold | hle
      · exact hsnap.not_consumed hn hold
      · exact absurd hle (Nat.not_succ_le_self _)
    · exact fun nm hmem => ht (hsnap.mem_timeouts.mpr ⟨nm, hmem⟩)
    · rw [hsnap.signals_eq] at hlt ⊢
      exact ⟨_, getElem?_eq_getElem hlt, getElem?_eq_getElem hlt⟩

theorem Claiming.consume {history : List (WorkflowEvent V)} {r r' : Run V} {c : Claim V}
    (h : Claiming history r) (hcs : r.claims = [c]) (hcs' : r'.claims = [])
    (hev : r'.events = r.events) (hctx : r'.ctx = r.ctx)
    (hin : ∀ x ∈ r'.inFlight, x ∈ r.inFlight) :
    Claiming (history ++ [WorkflowEvent.signalConsumed c.name c.index c.ordinal]) r' := by
  have hok : ClaimOk history r c := h.claims c (by simp [hcs])
  refine ⟨fun n i => ?_, fun k hk => ?_, fun x hx => ?_, ?_, ?_⟩
  · rw [hctx, h.claimed n i, hcs, hcs', consumedIndices_append]
    by_cases hn : c.name = n
    · simp [consumedIndices, hn, eq_comm]
    · simp [consumedIndices, hn]
  · rw [consumedOrdinals_append] at hk
    rw [hev, hctx]
    rcases mem_append.mp hk with hk | hk
    · exact h.ordinals k hk
    · rw [show k = c.ordinal by simpa [consumedOrdinals] using hk]
      exact .inr hok.reached
  · rw [hev]
    exact h.waits x (hin x hx)
  · simp [hcs']
  · simp [hcs']

theorem advanced_claims (hi : r.inFlight[i]? = some (entry, p)) (hp : claim? (entry, p) = none)
    (ho : (m.progress.opened entry).filterMap claim? = []) :
    (r.advanced i entry p inp m).claims = r.claims := by
  obtain ⟨l₁, l₂, hl, hl'⟩ := r.advanced_split hi inp m
  rw [Run.claims, Run.claims, hl, hl']
  simp [hp, ho]

/-- A further part of a call keeps the invariant. Only `consumeAppend` consumes anything. -/
theorem advances_claiming {workflowId : String} (hi : r.inFlight[i]? = some (entry, p))
    (hpre : r.events <+: history) (hone : ExactlyOnce history) (hc : Claiming history r)
    (hm : Advances workflowId date r.ctx p inp m) :
    ExactlyOnce (history ++ m.events) ∧
      Claiming (history ++ m.events) (r.advanced i entry p inp m) := by
  have hwait := hc.waits (entry, p) (mem_of_getElem? hi)
  have hquiet : consumedOrdinals m.events = [] → m.ctx.claimed = r.ctx.claimed →
      m.ctx.waitOrdinal = r.ctx.waitOrdinal → claim? (entry, p) = none →
      (m.progress.opened entry).filterMap claim? = [] →
      ExactlyOnce (history ++ m.events) ∧
        Claiming (history ++ m.events) (r.advanced i entry p inp m) := by
    intro hno hcl hw hp ho
    refine ⟨hone.append hno, hc.frame hno rfl hcl (Nat.le_of_eq hw.symm)
      (advanced_claims hi hp ho) fun x hx => ?_⟩
    refine (Run.mem_advanced hi hx).imp_right fun hx => ?_
    have hentry : x.1 = entry := by
      cases hprog : m.progress <;> simp [hprog, Progress.opened] at hx
      simp [hx]
    exact hentry ▸ hwait
  cases hm with
  | bodyNowRecorded | bodyNowNew | bodyResolved | bodyRejected | stepAppend | stepStore
    | sleepEnqueue | sleepEnqueueFailed | sleepAppend | sleepStore | timeoutEnqueue
    | timeoutEnqueueFailed | timeoutAppend | timeoutStore => exact hquiet rfl rfl rfl rfl rfl
  | @consumeAppend name index ordinal payload =>
    obtain ⟨l₁, l₂, hl, hl'⟩ := r.advanced_split hi .resolved
      { ctx := r.ctx, progress := .settled (.payload payload),
        events := [.signalConsumed name index ordinal] }
    have hlen : (l₁.filterMap claim?).length + ((l₂.filterMap claim?).length + 1) ≤ 1 := by
      simpa [Run.claims, hl, claim?] using hc.one
    have h₁ : l₁.filterMap claim? = [] := length_eq_zero_iff.mp (by omega)
    have h₂ : l₂.filterMap claim? = [] := length_eq_zero_iff.mp (by omega)
    have hcs : r.claims = [⟨entry, name, index, ordinal, payload⟩] := by
      simp [Run.claims, hl, h₁, h₂, claim?]
    have hok := hc.claims _ (by rw [hcs]; exact mem_singleton_self _)
    obtain ⟨v, hv, _⟩ := hok.payload
    refine ⟨hone.consume hok.index ?_ hok.fresh, hc.consume hcs ?_ rfl rfl fun x hx => ?_⟩
    · exact (List.getElem?_eq_some_iff.mp (received_getElem?_mono hpre hv)).1
    · simp [Run.claims, hl', h₁, h₂, Progress.opened]
    · simpa [Progress.opened] using Run.mem_advanced hi hx

/-! ## What the runs are handed -/

theorem consumed_unique (h : (consumedOrdinals history).Nodup) {n' : String} {i' k : Nat}
    (hm : .signalConsumed n i k ∈ history) (hm' : .signalConsumed n' i' k ∈ history) :
    n = n' ∧ i = i' := by
  obtain ⟨l, r, rfl⟩ := append_of_mem hm
  rw [consumedOrdinals_append, nodup_append] at h
  obtain ⟨_, hr, hdisj⟩ := h
  have hk : k ∈ consumedOrdinals (.signalConsumed n i k :: r) := by simp [consumedOrdinals]
  rcases mem_append.mp hm' with hm' | hm'
  · exact absurd rfl (hdisj k (mem_consumedOrdinals.mpr ⟨_, _, hm'⟩) k hk)
  · rcases mem_cons.mp hm' with heq | hm'
    · cases heq
      exact ⟨rfl, rfl⟩
    · have hnot : k ∉ consumedOrdinals r := (nodup_cons.mp hr).1
      exact absurd (mem_consumedOrdinals.mpr ⟨_, _, hm'⟩) hnot

theorem ExactlyOnce.payload (h : ExactlyOnce history) (hpre : events <+: history) {k : Nat}
    (hm : WorkflowEvent.signalConsumed n i k ∈ events) :
    ∃ v, (Workflow.received n events)[i]? = some v := by
  obtain ⟨l, r, rfl⟩ := append_of_mem hm
  have hl : l ++ [WorkflowEvent.signalConsumed n i k]
    <+: l ++ WorkflowEvent.signalConsumed n i k :: r :=
    ⟨r, by simp⟩
  have hlt := h.received (hl.trans hpre)
  refine ⟨_, getElem?_eq_getElem ?_⟩
  rw [received_append, length_append]
  omega

theorem issues_delivered {call : CtxCall} (hsnap : r.Snapshot) (hpre : r.events <+: history)
    (hone : ExactlyOnce history) (hm : Issues r.scheduler date r.ctx call m) :
    ∀ x ∈ m.progress.closed ⟨call, m.ctx.ordinal call⟩, Delivered history r.events x.1 x.2 := by
  intro x hx
  cases hm with
  | nowRecorded | nowNew | stepRecorded | sleepDone | sleepRefused
    | sleepSuspends =>
    rw [mem_singleton.mp hx]
    exact delivered_none (by simp [CtxCall.isWait]) (by simp)
  | stepBody | sleepArms | waitArms | waitClaims => simp [Progress.closed] at hx
  | waitTimedOut hn | waitSuspends hn =>
    rw [mem_singleton.mp hx]
    exact delivered_none (fun _ => hsnap.not_consumed hn) (by simp)
  | @waitConsumed name timeoutMs prior hp =>
    rw [mem_singleton.mp hx]
    have hmem := hsnap.mem_consumed hp
    obtain ⟨v, hv⟩ := hone.payload hpre hmem
    have hv' := received_getElem?_mono hpre hv
    refine ⟨fun _ n i hm => ?_, fun hout => ?_⟩
    · obtain ⟨rfl, rfl⟩ := consumed_unique hone.ordinal (hpre.subset hmem) (hpre.subset hm)
      exact ⟨v, hv', by rw [hsnap.signals_eq, hv]⟩
    · refine ⟨prior.name, prior.index, v, hpre.subset hmem, hv', ?_⟩
      rw [Outcome.payload.injEq, hsnap.signals_eq, hv] at hout
      exact hout.symm

theorem advances_delivered {workflowId : String} (hi : r.inFlight[i]? = some (entry, p))
    (hpre : r.events <+: history) (hc : Claiming history r)
    (hm : Advances workflowId date r.ctx p inp m) :
    ∀ x ∈ m.progress.closed entry, Delivered (history ++ m.events) r.events x.1 x.2 := by
  intro x hx
  have hmem := mem_of_getElem? hi
  have hwait := hc.waits (entry, p) hmem
  cases hm with
  | bodyNowRecorded | bodyNowNew | bodyResolved | stepAppend | sleepEnqueue | sleepAppend
    | timeoutEnqueue | timeoutAppend => simp [Progress.closed] at hx
  | bodyRejected | stepStore | sleepEnqueueFailed | sleepStore | timeoutEnqueueFailed
    | timeoutStore =>
    rw [mem_singleton.mp hx]
    exact delivered_none hwait (by simp)
  | @consumeAppend name index ordinal payload =>
    rw [mem_singleton.mp hx]
    have hok := hc.claims ⟨entry, name, index, ordinal, payload⟩
      (mem_filterMap.mpr ⟨_, hmem, rfl⟩)
    obtain ⟨v, hv, hpv⟩ := hok.payload
    have hord : entry.ordinal = ordinal := hok.entry
    refine ⟨fun hw n j hm => ?_, fun hout => ?_⟩
    · exact absurd (mem_consumedOrdinals.mpr ⟨n, j, hm⟩) (hwait hw)
    · refine ⟨name, index, v, by simp [hord], ?_, ?_⟩
      · exact received_getElem?_mono (hpre.trans (prefix_append _ _)) hv
      · rw [Outcome.payload.injEq] at hout
        exact hout.symm.trans hpv

/-! ## All runs -/

theorem fresh_claiming (h : Fresh history r) : Claiming history r := by
  have hcs : r.claims = [] := by simp [Run.claims, h.inFlight]
  refine ⟨fun n i => ?_, fun k hk => .inl (h.events ▸ hk), ?_, by simp [hcs], by simp [hcs]⟩
  · have hcl : r.ctx.claimed = (replay history).claimed := by rw [h.ctx]; rfl
    rw [hcl, replay_claimed, mem_consumedIndices, hcs]
    simp
  · simp [h.inFlight]

theorem Claiming.outside (h : Claiming history r) (hno : consumedOrdinals evs = []) :
    Claiming (history ++ evs) r :=
  h.frame hno rfl rfl (Nat.le_refl _) rfl fun _ hx => .inl hx

theorem goes_signals (hord : Orderly r.fn) (hsnap : r.Snapshot) (hpre : r.events <+: history)
    (hone : ExactlyOnce history) (hc : Claiming history r)
    (hd : ∀ x ∈ r.log, Delivered history r.events x.1 x.2) (hg : Goes r how r' evs ts) :
    ExactlyOnce (history ++ evs) ∧ Claiming (history ++ evs) r' ∧
      ∀ x ∈ r'.log, Delivered (history ++ evs) r'.events x.1 x.2 := by
  have hgrow : history <+: history ++ evs := prefix_append _ _
  cases hg with
  | call hcall hm =>
    have hbody := claims_of_bodies (hord.call hcall).2
    obtain ⟨hno, hc'⟩ := issues_claiming hbody hsnap hone hc hm
    refine ⟨hone.append hno, hc', fun x hx => ?_⟩
    rcases mem_append.mp hx with hx | hx
    · exact (hd x hx).mono hgrow
    · exact (issues_delivered hsnap hpre hone hm x hx).mono hgrow
  | ends =>
    exact ⟨hone.append rfl, hc.frame rfl rfl rfl (Nat.le_refl _) rfl fun _ hx => .inl hx,
      fun x hx => (hd x hx).mono hgrow⟩
  | advance hi hm =>
    obtain ⟨hone', hc'⟩ := advances_claiming hi hpre hone hc hm
    refine ⟨hone', hc', fun x hx => ?_⟩
    rcases mem_append.mp hx with hx | hx
    · exact (hd x hx).mono hgrow
    · exact advances_delivered hi hpre hc hm x hx

theorem signalInv_turn {c c' : Core V} {a : Act Unit V} (hi : SignalInv c)
    (hord : ∀ r ∈ c.runs, Orderly r.fn) (hsnap : ∀ r ∈ c.runs, r.Snapshot)
    (hpre : ∀ r ∈ c.runs, r.events <+: c.history) (h : Turn c a c') : SignalInv c' := by
  obtain ⟨hone, hlive, hlog⟩ := hi
  have hgo : ∀ {r how r' evs ts}, c.live = some r → Goes r how r' evs ts →
      ExactlyOnce (c.history ++ evs) ∧ Claiming (c.history ++ evs) r' ∧
        ∀ x ∈ r'.log, Delivered (c.history ++ evs) r'.events x.1 x.2 := by
    intro r how r' evs ts hl hg
    have hr := Core.mem_live hl
    exact goes_signals (hord r hr) (hsnap r hr) (hpre r hr) hone (hlive r hl) (hlog r hr) hg
  have hlog' := h.runs (P := fun q => ∀ x ∈ q.log, Delivered c'.history q.events x.1 x.2)
    (fun q hq x hx => (hlog q hq x hx).mono h.grows) (fun hf _ => by simp [hf.log])
    (fun hl _ hg _ hh _ => hh ▸ (hgo hl hg).2.2) fun _ hq => hq
  cases h with
  | outside hout =>
    have hno := outside_consumedOrdinals hout
    exact ⟨hone.append hno, fun r hr => (hlive r hr).outside hno, hlog'⟩
  | read hf => exact ⟨hone, fun q hq => Option.some.inj hq ▸ fresh_claiming hf, hlog'⟩
  | readEnds => exact ⟨hone, by simp, hlog'⟩
  | go hg =>
    obtain ⟨hone', hc', _⟩ := hgo rfl hg
    exact ⟨hone', fun q hq => Option.some.inj hq ▸ hc', hlog'⟩
  | finish x => exact ⟨hone.append (by cases x <;> rfl), by simp, hlog'⟩

theorem signalInv_reach {cfg : Cfg Unit V} (hseq : cfg.AllSequential)
    {ok : Sys Unit V → Act Unit V → Prop} {s : Sys Unit V} (h : (machine cfg).Reach ok s) :
    SignalInv (s.core cfg) := by
  refine core_invariant hseq ?_ (fun hs hi _ ht => ?_) h
  · refine ⟨⟨fun n => rfl, fun n => nodup_nil, nodup_nil, fun hp => ?_⟩, by simp, by
      simp [Core.runs]⟩
    simp at hp
  · exact signalInv_turn hi (fun r hr => (sequential_reach hseq hs).orderly r (mem_runs_core.mp hr))
      (fun r hr => snapshot_reach hs (mem_runs_core.mp hr))
      (fun r hr => prefix_reach hs (mem_runs_core.mp hr)) ht

/-- Workflow signals are delivered exactly once, first in first out per name, by one engine
that runs sequential functions: in every reachable history, and to every run. -/
theorem signals_exactly_once {cfg : Cfg Unit V} (hseq : cfg.AllSequential) {s : Sys Unit V}
    (h : (machine cfg).Reach Machine.free s) :
    ExactlyOnce (s.history cfg) ∧
      ∀ r, s.HasRun r → ∀ x ∈ r.log, Delivered (s.history cfg) r.events x.1 x.2 := by
  have hi := signalInv_reach hseq h
  exact ⟨hi.once, fun r hr => hi.log r (mem_runs_core.mpr hr)⟩

theorem orderCfg_sequential : orderCfg.AllSequential := by
  intro e name fn hfn
  simp only [orderCfg] at hfn
  split at hfn
  · cases hfn
    exact sequential_ofScript orderFulfil
  · cases hfn

theorem signals_exactly_once_approved :
    ∃ s, (machine orderCfg).Reach Machine.free s ∧
      (consumedIndices "manualReview" (s.history orderCfg),
        received "manualReview" (s.history orderCfg)) = ([0], [1, 2]) ∧
      ExactlyOnce (s.history orderCfg) ∧
      ∀ r, s.HasRun r → ∀ x ∈ r.log, Delivered (s.history orderCfg) r.events x.1 x.2 := by
  obtain ⟨s, hs, hobs⟩ := Machine.Reach.observe (machine orderCfg) Machine.free
    (startOrder [Act.signal () "manualReview" 1] ++ [Act.signal () "manualReview" 2, .join 0,
      .dequeue (), .read () 0] ++ shipOrder)
    (fun s => (consumedIndices "manualReview" (s.history orderCfg),
      received "manualReview" (s.history orderCfg))) ([0], [1, 2]) (by decide +kernel)
  exact ⟨s, hs, hobs, signals_exactly_once orderCfg_sequential hs⟩

end NevoMessaging.Workflow
