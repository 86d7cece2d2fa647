import NevoMessaging.Lib.Machine
import NevoMessaging.Lib.Trace
import NevoMessaging.Pg.Subscriber

/-!
# Order and retries of a subscription

A subscription over a feed: events in the order of their sequence numbers, to which new ones
are added at the upper end only. Each read returns the first events of the feed from the cursor
on, or rejects. Whatever the handler, the sink and the reads do, events are handled one after
the other, and a later one has to wait until the one before is handled or given up.

Results:
1. `deliveryInv_reach`: cursor, `stuck` and trace fit together in every reachable state.
2. `subscribe_in_order`: as long as the message of every rejection can be taken, events are
   handled in order, and skipped after exactly `maxAttemptsPerEvent` attempts.
3. `subscribe_miscounts`: otherwise an event may be tried more often.
-/

namespace NevoMessaging.Pg

open List

variable {P X : Type}

/-! ## Feeds -/

structure Feed (P : Type) where
  events : List (DomainEvent P)
  sorted : events.Pairwise fun a b => a.sequence < b.sequence

namespace Feed

def push (f : Feed P) (event : DomainEvent P)
    (h : ∀ e ∈ f.events, e.sequence < event.sequence) : Feed P where
  events := f.events ++ [event]
  sorted := List.pairwise_append.mpr ⟨f.sorted, List.pairwise_singleton _ _, by simpa using h⟩

/-- The events from the cursor on. -/
def after (f : Feed P) (cursor : Int) : List (DomainEvent P) :=
  f.events.filter fun e => cursor ≤ e.sequence

/-- What `read({ from: cursor, limit, committedOnly: true })` returns. -/
def read (f : Feed P) (cursor : Int) (limit : Nat) : List (DomainEvent P) :=
  (f.after cursor).take limit

variable {f : Feed P} {cursor : Int} {event : DomainEvent P} {rest : List (DomainEvent P)}

theorem mem_after {e : DomainEvent P} : e ∈ f.after cursor ↔ e ∈ f.events ∧
    cursor ≤ e.sequence := by
  simp [after]

theorem head_mem (h : f.after cursor = event :: rest) :
    event ∈ f.events ∧ cursor ≤ event.sequence :=
  mem_after.mp (h ▸ mem_cons_self)

theorem after_sorted (f : Feed P) (cursor : Int) :
    (f.after cursor).Pairwise fun a b => a.sequence < b.sequence :=
  f.sorted.filter _

theorem head_le (h : f.after cursor = event :: rest) {e : DomainEvent P} (he : e ∈ f.events)
    (hc : cursor ≤ e.sequence) : event.sequence ≤ e.sequence := by
  have hmem : e ∈ event :: rest := h ▸ mem_after.mpr ⟨he, hc⟩
  have hsorted := h ▸ f.after_sorted cursor
  rcases mem_cons.mp hmem with rfl | hmem
  · exact Nat.le_refl _
  · exact Nat.le_of_lt ((pairwise_cons.mp hsorted).1 e hmem)

theorem after_succ (h : f.after cursor = event :: rest) : f.after (event.sequence + 1) = rest := by
  have hle := (head_mem h).2
  have hsorted := h ▸ f.after_sorted cursor
  have hfilter : f.after (event.sequence + 1) =
      (f.after cursor).filter fun e => decide ((event.sequence : Int) + 1 ≤ e.sequence) := by
    rw [after, after, filter_filter]
    refine filter_congr fun e _ => ?_
    rw [← Bool.decide_and, decide_eq_decide]
    omega
  rw [hfilter, h, filter_cons_of_neg (by rw [decide_eq_true_eq]; omega)]
  refine filter_eq_self.mpr fun e he => ?_
  have hlt := (pairwise_cons.mp hsorted).1 e he
  simp only [decide_eq_true_eq]
  omega

theorem after_push (h : ∀ e ∈ f.events, e.sequence < event.sequence) :
    f.after cursor <+: (f.push event h).after cursor := by
  rw [after, after, push, filter_append]
  exact prefix_append _ _

/-- The sequence number of the first event from the cursor on. -/
def IsHead (f : Feed P) (cursor : Int) (sequence : Nat) : Prop :=
  ∃ event rest, f.after cursor = event :: rest ∧ event.sequence = sequence

variable {q q' : Nat}

theorem IsHead.le (h : f.IsHead cursor q) : cursor ≤ q := by
  obtain ⟨event, rest, ha, rfl⟩ := h
  exact (head_mem ha).2

theorem IsHead.unique (h : f.IsHead cursor q) (h' : f.IsHead cursor q') : q = q' := by
  obtain ⟨event, rest, ha, rfl⟩ := h
  obtain ⟨event', rest', ha', rfl⟩ := h'
  cases ha.symm.trans ha'
  rfl

end Feed

/-! ## A subscription over a feed -/

structure Subscribed (P X : Type) where
  feed : Feed P
  sub : Subscriber P X

inductive SubAct (P X : Type)
  | grow (event : DomainEvent P)
  | fetch
  | input (i : Input X)

def Subscribed.step (c : Subscription X) (s : Subscribed P X) :
    SubAct P X → Option (Subscribed P X)
  | .grow event =>
    if h : ∀ e ∈ s.feed.events, e.sequence < event.sequence then
      some { s with feed := s.feed.push event h }
    else none
  | .fetch =>
    (s.sub.fetched c (s.feed.read s.sub.cursor c.batchSize)).map fun sub => { s with sub }
  | .input i => (s.sub.step c i).map fun sub => { s with sub }

def subscribe (c : Subscription X) (feed : Feed P) : Machine (Subscribed P X) (SubAct P X) where
  init := { feed, sub := c.init }
  step := Subscribed.step c

/-- The rejections of which a message can be taken. -/
def reportable (c : Subscription X) : SubAct P X → Bool
  | .input (.rejected err) => (c.messageOf err).isSome
  | _ => true

/-! ## What a trace says about an event -/

def Obs.handles (sequence : Nat) : Obs P X → Bool
  | .handled e => e.sequence = sequence
  | _ => false

def Obs.skips (sequence : Nat) : Obs P X → Bool
  | .skipping e _ _ => e.sequence = sequence
  | _ => false

def Obs.poisons (sequence : Nat) : Obs P X → Bool
  | .poisoned e _ => e.sequence = sequence
  | _ => false

/-- The event an entry is about. -/
def Obs.sequence? : Obs P X → Option Nat
  | .invoked e | .handled e | .retrying e _ _ | .skipping e _ _ | .poisoned e _ | .sinkFailed e =>
    some e.sequence
  | .pollFailed => none

/-- How often the handler was called with the event. -/
def attempts (trace : List (Obs P X)) (sequence : Nat) : Nat :=
  trace.countP (Obs.invokes sequence)

/-- The event was handled, or it was tried as often as allowed, given up, and passed to the sink
if there is one. -/
def Settled (c : Subscription X) (trace : List (Obs P X)) (sequence : Nat) : Prop :=
  trace.any (Obs.handles sequence) = true ∨
    (attempts trace sequence = c.maxAttempts ∧ trace.any (Obs.skips sequence) = true ∧
      (c.opts.onPoison = true → trace.any (Obs.poisons sequence) = true))

/-- The event was neither handled nor given up. -/
def Unsettled (trace : List (Obs P X)) (sequence : Nat) : Prop :=
  trace.any (Obs.handles sequence) = false ∧ trace.any (Obs.skips sequence) = false

/-- What has to precede the calls of the handler and of the sink, and the decision to skip. -/
def Allowed (c : Subscription X) (f : Feed P) (trace : List (Obs P X)) : Obs P X → Prop
  | .invoked event =>
    event ∈ f.events ∧ (∀ q, 0 < attempts trace q → q ≤ event.sequence) ∧
      (∀ e ∈ f.events, c.fromSeq ≤ e.sequence → e.sequence < event.sequence →
        Settled c trace e.sequence) ∧
      Unsettled trace event.sequence
  | .skipping event .. | .poisoned event _ => attempts trace event.sequence = c.maxAttempts
  | _ => True

/-- The property of a trace that the handler, the sink and the reads cannot break. -/
structure InOrder (c : Subscription X) (f : Feed P) (trace : List (Obs P X)) : Prop where
  /-- Calls of the handler are ordered by sequence. -/
  ordered : trace.Pairwise fun o o' => ∀ q q', o.invokes q → o'.invokes q' → q ≤ q'
  /-- At each call every earlier event is settled. -/
  earlier : ∀ pre event post, trace = pre ++ Obs.invoked event :: post → ∀ e ∈ f.events,
    c.fromSeq ≤ e.sequence → e.sequence < event.sequence → Settled c pre e.sequence
  /-- The sink is called after the last attempt. -/
  poisoned : ∀ pre o post q, trace = pre ++ o :: post → o.poisons q →
    attempts pre q = c.maxAttempts
  /-- There is no call after a success or a skip. -/
  once : ∀ pre o post q, trace = pre ++ o :: post → o.handles q ∨ o.skips q → attempts post q = 0
  /-- No event is skipped early. -/
  skipped : ∀ pre o post q, trace = pre ++ o :: post → o.skips q → attempts pre q = c.maxAttempts

/-! ## The invariant -/

/-- The failed attempts that `stuck` counts for an event. -/
def failures (stuck : Option Stuck) (sequence : Nat) : Nat :=
  match stuck with
  | some st => if st.sequence = sequence then st.attempts else 0
  | none => 0

/-- What is known about the first event from the cursor on, by the place `tick` has reached. -/
def AtHead (c : Subscription X) (s : Subscriber P X) (sequence : Nat) : Prop :=
  match s.phase with
  | .handling .. => attempts s.trace sequence = failures s.stuck sequence + 1 ∧
      failures s.stuck sequence < c.maxAttempts ∧ Unsettled s.trace sequence
  | .poisoning .. => Settled c s.trace sequence
  | _ => attempts s.trace sequence = failures s.stuck sequence ∧
      failures s.stuck sequence < c.maxAttempts ∧ Unsettled s.trace sequence

structure DeliveryInv (c : Subscription X) (f : Feed P) (s : Subscriber P X) : Prop where
  lawful : Trace.Lawful (Allowed c f) s.trace
  start : s.cursor = c.fromSeq ∨ ∃ e ∈ f.events, s.cursor = e.sequence + 1
  below : ∀ e ∈ f.events, c.fromSeq ≤ e.sequence → e.sequence < s.cursor →
    Settled c s.trace e.sequence
  window : s.phase.rest <+: f.after s.cursor
  stuck : ∀ st, s.stuck = some st → f.IsHead s.cursor st.sequence
  head : ∀ q, f.IsHead s.cursor q → AtHead c s q
  /-- Of the events from the cursor on, only the first one was tried. -/
  others : ∀ o ∈ s.trace, ∀ q : Nat, o.sequence? = some q → s.cursor ≤ q → f.IsHead s.cursor q

theorem stuckAfter_eq (stuck : Option Stuck) (q : Nat) :
    stuckAfter stuck q = ⟨q, failures stuck q + 1⟩ := by
  unfold stuckAfter failures
  cases stuck with
  | none => rfl
  | some st =>
    simp only
    split <;> rfl

theorem maxAttempts_pos (c : Subscription X) : 0 < c.maxAttempts := by
  unfold Subscription.maxAttempts
  omega

theorem attempts_append (trace new : List (Obs P X)) (q : Nat) :
    attempts (trace ++ new) q = attempts trace q + attempts new q :=
  countP_append

section About

variable {c : Subscription X} {trace new : List (Obs P X)} {q : Nat}

theorem untouched (h : ∀ o ∈ new, o.sequence? ≠ some q) :
    attempts new q = 0 ∧ Unsettled new q := by
  simp only [attempts, Unsettled, countP_eq_zero, any_eq_false, ← forall₂_and]
  intro o ho
  have hq := h o ho
  cases o <;> simp_all [Obs.invokes, Obs.handles, Obs.skips, Obs.sequence?]

theorem Unsettled.append (h : Unsettled trace q) (hnew : Unsettled new q) :
    Unsettled (trace ++ new) q :=
  ⟨by simp [h.1, hnew.1], by simp [h.2, hnew.2]⟩

theorem Settled.append (hs : Settled c trace q) (h : attempts new q = 0) :
    Settled c (trace ++ new) q := by
  rcases hs with hs | ⟨hn, hs, hp⟩
  · exact .inl (by simp [hs])
  · exact .inr ⟨by rw [attempts_append, hn, h, Nat.add_zero], by simp [hs],
      fun hc => by simp [hp hc]⟩

end About

theorem deliveryInv_init (c : Subscription X) (f : Feed P) : DeliveryInv c f c.init where
  lawful := Trace.lawful_nil
  start := .inl rfl
  below e _ hle hlt := by
    simp only [Subscription.init] at hlt
    omega
  window := nil_prefix
  stuck st hst := by simp [Subscription.init] at hst
  head q h := ⟨rfl, maxAttempts_pos c, rfl, rfl⟩
  others o ho := by simp [Subscription.init] at ho

section Steps

variable {c : Subscription X} {f : Feed P} {s s' : Subscriber P X}

variable {new : List (Obs P X)} {event : DomainEvent P} {rest : List (DomainEvent P)} {more : Bool}
  {message : String}

theorem DeliveryInv.stay (hi : DeliveryInv c f s) (new : List (Obs P X))
    (hcursor : s'.cursor = s.cursor) (htrace : s'.trace = s.trace ++ new)
    (habout : ∀ o ∈ new, ∀ q, o.sequence? = some q → f.IsHead s.cursor q)
    (hlawful : Trace.Lawful (Allowed c f) (s.trace ++ new))
    (hwindow : s'.phase.rest <+: f.after s.cursor)
    (hstuck : ∀ st, s'.stuck = some st → f.IsHead s.cursor st.sequence)
    (hhead : ∀ q, f.IsHead s.cursor q → AtHead c s' q) : DeliveryInv c f s' := by
  refine ⟨htrace ▸ hlawful, hcursor ▸ hi.start, fun e he hle hlt => ?_, hcursor ▸ hwindow,
    hcursor ▸ hstuck, hcursor ▸ hhead, fun o ho q hq hle => ?_⟩
  · rw [hcursor] at hlt
    rw [htrace]
    refine Settled.append (hi.below e he hle hlt) (untouched fun o ho hq => ?_).1
    exact absurd (habout o ho _ hq).le (by omega)
  · rw [hcursor] at hle ⊢
    rcases mem_append.mp (htrace ▸ ho) with hold | hnew
    · exact hi.others o hold q hq hle
    · exact habout o hnew q hq

theorem DeliveryInv.pass (hi : DeliveryInv c f s) (new : List (Obs P X))
    (hphase : s.phase.rest = event :: rest) (hcursor : s'.cursor = event.sequence + 1)
    (htrace : s'.trace = s.trace ++ new) (hstuck : s'.stuck = none)
    (hphase' : s'.phase = .batch rest more) (habout : ∀ o ∈ new, o.sequence? = some event.sequence)
    (hlawful : Trace.Lawful (Allowed c f) (s.trace ++ new))
    (hsettled : Settled c (s.trace ++ new) event.sequence) : DeliveryInv c f s' := by
  obtain ⟨more', hafter⟩ := hphase ▸ hi.window
  have hafter : f.after s.cursor = event :: (rest ++ more') := hafter.symm
  obtain ⟨hmem, hle⟩ := Feed.head_mem hafter
  -- Whatever comes after the event has not been touched.
  have hlast : ∀ o ∈ s'.trace, ∀ q, o.sequence? = some q → q ≤ event.sequence := by
    intro o ho q hq
    rcases mem_append.mp (htrace ▸ ho) with hold | hnew
    · by_contra hlt
      have hhead := hi.others o hold q hq (by omega)
      exact hlt (Nat.le_of_eq (hhead.unique ⟨event, _, hafter, rfl⟩))
    · exact Nat.le_of_eq (Option.some.inj (hq.symm.trans (habout o hnew)))
  refine ⟨htrace ▸ hlawful, .inr ⟨event, hmem, hcursor⟩, fun e he hfrom hlt => ?_, ?_,
    by simp [hstuck], fun q hq => ?_, fun o ho q hq hge => ?_⟩
  · rw [htrace]
    rcases Int.lt_or_le e.sequence s.cursor with hb | hb
    · refine Settled.append (hi.below e he hfrom hb) (untouched fun o ho hq => ?_).1
      have := Option.some.inj (hq.symm.trans (habout o ho))
      omega
    · have := Feed.head_le hafter he hb
      rwa [show e.sequence = event.sequence by omega]
  · rw [hphase', hcursor, Feed.after_succ hafter]
    exact prefix_append _ _
  · have hge := hq.le
    obtain ⟨h0, hu⟩ := untouched fun o ho heq => absurd (hlast o ho q heq) (by omega)
    simp only [AtHead, hphase', hstuck]
    exact ⟨h0, maxAttempts_pos c, hu⟩
  · exact absurd (hlast o ho q hq) (by omega)

theorem atHead_settled (hs : s.phase.settled = true) {q : Nat} :
    AtHead c s q ↔ attempts s.trace q = failures s.stuck q ∧ failures s.stuck q < c.maxAttempts ∧
      Unsettled s.trace q := by
  unfold AtHead
  cases hp : s.phase <;> simp_all [Phase.settled]

theorem deliveryInv_grow (hi : DeliveryInv c f s) {x : DomainEvent P}
    (hx : ∀ e ∈ f.events, e.sequence < x.sequence) : DeliveryInv c (f.push x hx) s := by
  have hmem : ∀ {e}, e ∈ (f.push x hx).events → e ∈ f.events ∨ e = x := by
    simp [Feed.push]
  have hold : ∀ {e}, e ∈ f.events → e ∈ (f.push x hx).events := mem_append_left _
  have hpre : f.after s.cursor <+: (f.push x hx).after s.cursor := Feed.after_push hx
  have hhead : ∀ {q}, f.IsHead s.cursor q → (f.push x hx).IsHead s.cursor q := by
    rintro q ⟨e, rest, ha, rfl⟩
    obtain ⟨l, hl⟩ := hpre
    exact ⟨e, rest ++ l, by rw [← hl, ha, cons_append], rfl⟩
  refine ⟨hi.lawful.imp fun pre o _ hok => ?_, ?_, fun e he hle hlt => ?_, hi.window.trans hpre,
    fun st hst => hhead (hi.stuck st hst), fun q hq => ?_,
    fun o ho q hq hle => hhead (hi.others o ho q hq hle)⟩
  · cases o with
    | invoked event =>
      obtain ⟨hin, hmax, hsettled, hu⟩ := hok
      refine ⟨hold hin, hmax, fun e he hle hlt => ?_, hu⟩
      rcases hmem he with he | rfl
      · exact hsettled e he hle hlt
      · -- The new event is not before one that was already handed out.
        exact absurd (hx event hin) (by omega)
    | _ => exact hok
  · exact hi.start.imp_right fun ⟨e, he, heq⟩ => ⟨e, hold he, heq⟩
  · rcases hmem he with he | rfl
    · exact hi.below e he hle hlt
    · rcases hi.start with hs | ⟨e', he', hs⟩
      · omega
      · have := hx e' he'
        omega
  · cases ha : f.after s.cursor with
    | cons e rest =>
      have he : f.IsHead s.cursor e.sequence := ⟨e, rest, ha, rfl⟩
      exact hq.unique (hhead he) ▸ hi.head _ he
    | nil =>
      -- The new event is the first one, and nothing is under way.
      have hnone : ∀ {q}, ¬ f.IsHead s.cursor q := by
        rintro q ⟨_, _, ha', _⟩
        simp [ha] at ha'
      obtain ⟨h0, hu⟩ := untouched fun o ho heq => hnone (hi.others o ho q heq hq.le)
      have hrest : s.phase.rest = [] := prefix_nil.mp (ha ▸ hi.window)
      have hstuck : s.stuck = none :=
        Option.eq_none_iff_forall_not_mem.mpr fun st hst => hnone (hi.stuck st hst)
      have hset : s.phase.settled = true := by
        cases hp : s.phase <;> simp_all [Phase.settled, Phase.rest]
      rw [atHead_settled hset, hstuck]
      exact ⟨h0, maxAttempts_pos c, hu⟩

theorem deliveryInv_rests (hi : DeliveryInv c f s) (hs : s.phase.settled = true)
    (hs' : s'.phase.settled = true) (hwindow : s'.phase.rest <+: f.after s.cursor)
    (hcursor : s'.cursor = s.cursor) (hstuck : s'.stuck = s.stuck)
    (htrace : s'.trace = s.trace ∨ s'.trace = s.trace ++ [Obs.pollFailed]) :
    DeliveryInv c f s' := by
  have hquiet : ∀ new : List (Obs P X), (∀ o ∈ new, o = .pollFailed) →
      s'.trace = s.trace ++ new → Trace.Lawful (Allowed c f) (s.trace ++ new) →
      DeliveryInv c f s' := by
    intro new hnew ht hlawful
    have hsilent : ∀ o ∈ new, ∀ q, o.sequence? ≠ some q := fun o ho q => by
      simp [hnew o ho, Obs.sequence?]
    refine DeliveryInv.stay hi new hcursor ht (fun o ho q hq => absurd hq (hsilent o ho q)) hlawful
      hwindow (hstuck ▸ hi.stuck) fun q hq => ?_
    obtain ⟨hnone, hunsettled⟩ := untouched fun o ho => hsilent o ho q
    obtain ⟨h0, hlt, hu⟩ := (atHead_settled hs).mp (hi.head q hq)
    rw [atHead_settled hs', ht, hstuck, attempts_append, hnone]
    exact ⟨h0, hlt, Unsettled.append hu hunsettled⟩
  rcases htrace with ht | ht
  · exact hquiet [] (by simp) (by simp [ht]) (by simpa using hi.lawful)
  · exact hquiet [.pollFailed] (by simp) ht (hi.lawful.snoc trivial)

theorem window_head (hi : DeliveryInv c f s) (h : s.phase.rest = event :: rest) :
    ∃ more, f.after s.cursor = event :: more := by
  obtain ⟨more, ha⟩ := h ▸ hi.window
  exact ⟨rest ++ more, ha.symm⟩

theorem allowed_invoked (hi : DeliveryInv c f s) (hs : s.phase.settled = true)
    (ha : f.after s.cursor = event :: rest) : Allowed c f s.trace (.invoked event) := by
  have hhead : f.IsHead s.cursor event.sequence := ⟨event, rest, ha, rfl⟩
  obtain ⟨_, _, hu⟩ := (atHead_settled hs).mp (hi.head _ hhead)
  refine ⟨(Feed.head_mem ha).1, fun q hq => ?_, fun e he hle hlt => ?_, hu⟩
  · by_contra hgt
    have hge := hhead.le
    refine absurd hq (Nat.not_lt.mpr (Nat.le_of_eq (untouched fun o ho heq => ?_).1))
    exact hgt (Nat.le_of_eq ((hi.others o ho q heq (by omega)).unique hhead))
  · rcases Int.lt_or_le e.sequence s.cursor with hb | hb
    · exact hi.below e he hle hb
    · exact absurd (Feed.head_le ha he hb) (by omega)

theorem about_of (hhead : f.IsHead s.cursor event.sequence)
    (h : ∀ o ∈ new, o.sequence? = some event.sequence) :
    ∀ o ∈ new, ∀ q, o.sequence? = some q → f.IsHead s.cursor q :=
  fun o ho _ hq => Option.some.inj ((h o ho).symm.trans hq) ▸ hhead

theorem deliveryInv_invokes (hi : DeliveryInv c f s) (hp : s.phase = .batch (event :: rest) more) :
    DeliveryInv c f { s.note (.invoked event) with phase := .handling event rest more } := by
  have hs : s.phase.settled = true := by simp [hp, Phase.settled]
  obtain ⟨more', ha⟩ := window_head hi (show s.phase.rest = event :: rest by simp [hp, Phase.rest])
  have hhead : f.IsHead s.cursor event.sequence := ⟨event, more', ha, rfl⟩
  refine DeliveryInv.stay hi _ rfl rfl (about_of hhead (by simp [Obs.sequence?]))
    (hi.lawful.snoc (allowed_invoked hi hs ha)) ?_ hi.stuck fun q hq => ?_
  · have hw := hi.window
    rwa [hp] at hw
  · obtain ⟨h0, hlt, hu⟩ := (atHead_settled hs).mp (hi.head q hq)
    obtain rfl := hq.unique hhead
    refine ⟨?_, hlt, ?_⟩
    · have hone : attempts [(.invoked event : Obs P X)] event.sequence = 1 := by
        simp [attempts, Obs.invokes]
      rw [Subscriber.note, attempts_append, h0, hone]
    · simpa [Subscriber.note, Unsettled, Obs.handles, Obs.skips] using hu

theorem handling_head (hi : DeliveryInv c f s) (hp : s.phase = .handling event rest more) :
    f.IsHead s.cursor event.sequence ∧
      attempts s.trace event.sequence = (stuckAfter s.stuck event.sequence).attempts ∧
      (stuckAfter s.stuck event.sequence).attempts ≤ c.maxAttempts ∧
      Unsettled s.trace event.sequence := by
  obtain ⟨more', ha⟩ := window_head hi (show s.phase.rest = event :: rest by simp [hp, Phase.rest])
  have hhead : f.IsHead s.cursor event.sequence := ⟨event, more', ha, rfl⟩
  have hh := hi.head _ hhead
  simp only [AtHead, hp] at hh
  rw [stuckAfter_eq]
  exact ⟨hhead, hh⟩

theorem deliveryInv_retries (hi : DeliveryInv c f s) {delay : Int}
    (hp : s.phase = .handling event rest more)
    (hlt : (stuckAfter s.stuck event.sequence).attempts < c.maxAttempts) :
    DeliveryInv c f (({ s with stuck := some (stuckAfter s.stuck event.sequence) }.note
      (.retrying event (stuckAfter s.stuck event.sequence).attempts message)).endTick delay) := by
  obtain ⟨hhead, hn, _, hu⟩ := handling_head hi hp
  refine DeliveryInv.stay hi _ rfl rfl (about_of hhead (by simp [Obs.sequence?]))
    (hi.lawful.snoc trivial) ?_ ?_ fun q hq => ?_
  · unfold Subscriber.endTick
    split <;> exact nil_prefix
  · intro st hst
    obtain rfl := Option.some.inj hst
    rwa [stuckAfter_eq]
  · obtain rfl := hq.unique hhead
    rw [atHead_settled (by unfold Subscriber.endTick; split <;> rfl)]
    have hf : failures (some (stuckAfter s.stuck event.sequence)) event.sequence =
        (stuckAfter s.stuck event.sequence).attempts := by
      simp [failures, stuckAfter_eq]
    refine ⟨?_, ?_, ?_⟩
    · simp only [Subscriber.endTick, Subscriber.note, hf, attempts_append, hn]
      simp [attempts, Obs.invokes]
    · simpa [Subscriber.endTick, Subscriber.note, hf] using hlt
    · simpa [Subscriber.endTick, Subscriber.note, Unsettled, Obs.handles, Obs.skips] using hu

theorem deliveryInv_handles (hi : DeliveryInv c f s) (hp : s.phase = .handling event rest more) :
    DeliveryInv c f ((s.note (.handled event)).pass
      (s.stuck.filter fun st => st.sequence ≠ event.sequence) event rest more) := by
  refine DeliveryInv.pass hi _ (by simp [hp, Phase.rest]) rfl rfl ?_ rfl (by simp [Obs.sequence?])
    (hi.lawful.snoc trivial) (.inl (by simp [Obs.handles]))
  rw [Subscriber.pass, Option.filter_eq_none_iff]
  intro st hst
  simp [(hi.stuck st hst).unique (handling_head hi hp).1]

theorem skipping_lawful (hi : DeliveryInv c f s) (message : String)
    (hp : s.phase = .handling event rest more)
    (hge : c.maxAttempts ≤ (stuckAfter s.stuck event.sequence).attempts) :
    attempts s.trace event.sequence = c.maxAttempts ∧ Trace.Lawful (Allowed c f) (s.trace ++
      [.skipping event (stuckAfter s.stuck event.sequence).attempts message]) := by
  obtain ⟨-, hn, hle, -⟩ := handling_head hi hp
  have hmax : attempts s.trace event.sequence = c.maxAttempts := by omega
  exact ⟨hmax, hi.lawful.snoc hmax⟩

theorem deliveryInv_skips (hi : DeliveryInv c f s) (hp : s.phase = .handling event rest more)
    (hge : c.maxAttempts ≤ (stuckAfter s.stuck event.sequence).attempts)
    (hno : c.opts.onPoison = false) :
    DeliveryInv c f (({ s with stuck := some (stuckAfter s.stuck event.sequence) }.note
      (.skipping event (stuckAfter s.stuck event.sequence).attempts message)).pass
        none event rest more) := by
  obtain ⟨hmax, hlawful⟩ := skipping_lawful hi message hp hge
  refine DeliveryInv.pass hi _ (by simp [hp, Phase.rest]) rfl rfl rfl rfl (by simp [Obs.sequence?])
    hlawful (.inr ⟨?_, by simp [Obs.skips], by simp [hno]⟩)
  rw [attempts_append, hmax]
  simp [attempts, Obs.invokes]

theorem deliveryInv_poisons (hi : DeliveryInv c f s) {err : X}
    (hp : s.phase = .handling event rest more)
    (hge : c.maxAttempts ≤ (stuckAfter s.stuck event.sequence).attempts) :
    DeliveryInv c f
      { ({ s with stuck := some (stuckAfter s.stuck event.sequence) }.note
          (.skipping event (stuckAfter s.stuck event.sequence).attempts message)).note
          (.poisoned event err) with
        phase := .poisoning event rest more } := by
  obtain ⟨hhead, -⟩ := handling_head hi hp
  obtain ⟨hmax, hlawful⟩ := skipping_lawful hi message hp hge
  have hmax' : attempts (s.trace ++
      [.skipping event (stuckAfter s.stuck event.sequence).attempts message]) event.sequence =
      c.maxAttempts := by
    rw [attempts_append, hmax]
    simp [attempts, Obs.invokes]
  refine DeliveryInv.stay hi
    [.skipping event (stuckAfter s.stuck event.sequence).attempts message, .poisoned event err]
    rfl (by simp [Subscriber.note]) (about_of hhead (by simp [Obs.sequence?]))
      ?_ ?_ ?_ fun q hq => ?_
  · have hok : Allowed c f _ (.poisoned event err) := hmax'
    simpa using hlawful.snoc hok
  · have hw := hi.window
    rwa [hp] at hw
  · intro st hst
    obtain rfl := Option.some.inj hst
    rwa [stuckAfter_eq]
  · obtain rfl := hq.unique hhead
    refine .inr ⟨?_, by simp [Subscriber.note, Obs.skips], fun _ => by
      simp [Subscriber.note, Obs.poisons]⟩
    simp only [Subscriber.note]
    rw [attempts_append, hmax']
    simp [attempts, Obs.invokes]

theorem deliveryInv_sinks (hi : DeliveryInv c f s) (resolved : Bool)
    (hp : s.phase = .poisoning event rest more) :
    DeliveryInv c f ((if resolved then s else s.note (.sinkFailed event)).pass
      none event rest more) := by
  have hrest : s.phase.rest = event :: rest := by simp [hp, Phase.rest]
  obtain ⟨more', ha⟩ := window_head hi hrest
  have hset : Settled c s.trace event.sequence := by
    have hh := hi.head event.sequence ⟨event, more', ha, rfl⟩
    simpa only [AtHead, hp] using hh
  cases resolved with
  | true =>
    exact DeliveryInv.pass hi [] hrest rfl (by simp [Subscriber.pass]) rfl rfl (by simp)
      (by simpa using hi.lawful) (by simpa using hset)
  | false =>
    exact DeliveryInv.pass hi _ hrest rfl rfl rfl rfl (by simp [Obs.sequence?])
      (hi.lawful.snoc trivial) (Settled.append hset (by simp [attempts, Obs.invokes]))

theorem deliveryInv_goes (hi : DeliveryInv c f s) {i : Input X} (h : Goes c s i s')
    (hok : ∀ err, i = .rejected err → (c.messageOf err).isSome) : DeliveryInv c f s' := by
  cases h with
  | rests hs hs' hrest hcursor hstuck htrace =>
    exact deliveryInv_rests hi hs hs' (hrest ▸ nil_prefix) hcursor hstuck htrace
  | stops =>
    exact ⟨hi.lawful, hi.start, hi.below, hi.window, hi.stuck, hi.head, hi.others⟩
  | invokes hp => exact deliveryInv_invokes hi hp
  | handles hp => exact deliveryInv_handles hi hp
  | unreported hp hm =>
    have := hok _ rfl
    simp [hm] at this
  | retries hp _ hlt => exact deliveryInv_retries hi hp hlt
  | poisons hp _ hge _ => exact deliveryInv_poisons hi hp hge
  | skips hp _ hge hno => exact deliveryInv_skips hi hp hge hno
  | sinks hp => exact deliveryInv_sinks hi _ hp

end Steps

theorem deliveryInv_step {c : Subscription X} {s s' : Subscribed P X} {a : SubAct P X}
    (hi : DeliveryInv c s.feed s.sub) (hok : reportable c a = true) (h : s.step c a = some s') :
    DeliveryInv c s'.feed s'.sub := by
  cases a with
  | grow event =>
    simp only [Subscribed.step] at h
    split at h
    · next hx =>
      cases h
      exact deliveryInv_grow hi hx
    · cases h
  | fetch =>
    obtain ⟨sub, hf, rfl⟩ := Option.map_eq_some_iff.mp h
    obtain ⟨hp, rfl⟩ := Subscriber.fetched_cases hf
    exact deliveryInv_rests hi (by simp [hp, Phase.settled]) rfl ( take_prefix _ _) rfl rfl
      (.inl rfl)
  | input i =>
    obtain ⟨sub, hs, rfl⟩ := Option.map_eq_some_iff.mp h
    refine deliveryInv_goes hi (Subscriber.step_goes hs) ?_
    rintro err rfl
    exact hok

theorem deliveryInv_reach {c : Subscription X} {feed : Feed P} {s : Subscribed P X}
    (h : (subscribe c feed).Reach (fun _ a => reportable c a = true) s) :
    DeliveryInv c s.feed s.sub :=
  h.invariant (deliveryInv_init c feed)
    fun _ hi hok hs => deliveryInv_step hi hok hs

/-! ## In order, with bounded retries -/

theorem attempts_pos {trace : List (Obs P X)} {q : Nat} (h : 0 < attempts trace q) :
    ∃ event, .invoked event ∈ trace ∧ event.sequence = q := by
  obtain ⟨o, ho, hq⟩ := countP_pos_iff.mp h
  cases o with
  | invoked event => exact ⟨event, ho, by simpa [Obs.invokes] using hq⟩
  | _ => simp [Obs.invokes] at hq

theorem InOrder.of_lawful {c : Subscription X} {f : Feed P} {trace : List (Obs P X)}
    (h : Trace.Lawful (Allowed c f) trace) : InOrder c f trace where
  ordered := h.pairwise fun pre o hok o' ho' q q' hq hq' => by
    cases o with
    | invoked event =>
      obtain rfl : event.sequence = q' := by simpa [Obs.invokes] using hq'
      exact hok.2.1 q (countP_pos_iff.mpr ⟨o', ho', hq⟩)
    | _ => simp [Obs.invokes] at hq'
  earlier pre event post heq := (h pre (.invoked event) post heq).2.2.1
  poisoned pre o post q heq hq := by
    have hok := h pre o post heq
    cases o with
    | poisoned event err =>
      obtain rfl : event.sequence = q := by simpa [Obs.poisons] using hq
      exact hok
    | _ => simp [Obs.poisons] at hq
  once pre o post q heq ho := by
    by_contra hne
    obtain ⟨event, hmem, rfl⟩ := attempts_pos (Nat.pos_of_ne_zero hne)
    obtain ⟨l, r, rfl⟩ := append_of_mem hmem
    obtain ⟨_, _, _, hh, hs⟩ := h (pre ++ o :: l) (.invoked event) r (by simp [heq])
    rw [any_eq_false] at hh hs
    exact ho.elim (hh o (by simp)) (hs o (by simp))
  skipped pre o post q heq hq := by
    have hok := h pre o post heq
    cases o with
    | skipping event _ _ =>
      obtain rfl : event.sequence = q := by simpa [Obs.skips] using hq
      exact hok
    | _ => simp [Obs.skips] at hq

/-- Over any feed, for whatever the handler, the sink and the reads do: events are handled in
order, each until it succeeds or has been tried `maxAttempts` times, and never again after that.
The handler must reject with values of which a message can be taken. -/
theorem subscribe_in_order {c : Subscription X} {feed : Feed P} {s : Subscribed P X}
    (h : (subscribe c feed).Reach (fun _ a => reportable c a = true) s) :
    InOrder c s.feed s.sub.trace :=
  InOrder.of_lawful (deliveryInv_reach h).lawful

/-! ## A handler that keeps failing -/

def created : DomainEvent Unit := ⟨"order.created", none, (), 1, 0⟩

def shipped : DomainEvent Unit := ⟨"order.shipped", none, (), 2, 0⟩

def orders : Feed Unit where
  events := [created, shipped]
  sorted := by simp [created, shipped]

/-- The handler rejects with an error that has this message, or, with `none`, with an object
that has neither a message nor a string form, such as `Object.create(null)`. -/
def ordersFrom (maxAttempts : Int) : Subscription (Option String) where
  fromSeq := 1
  opts := { maxAttemptsPerEvent := some maxAttempts, onPoison := true }
  messageOf := id

/-- The handler rejects twice on the first event, which is then passed to the sink. -/
def failTwice (first : Option String) : List (SubAct Unit (Option String)) :=
  [.input .timer, .fetch, .input .next, .input (.rejected first), .input .timer, .fetch,
    .input .next, .input (.rejected (some "boom")), .input (.sinkSettled true), .input .next]

/-- With one attempt per event, the first event is tried twice before the handler is called with
the second one: its first rejection has no message. -/
theorem subscribe_miscounts :
    ¬ ∀ s, (subscribe (ordersFrom 1) orders).Reach Machine.free s →
      InOrder (ordersFrom 1) s.feed s.sub.trace := by
  obtain ⟨s, hs, hobs⟩ := Machine.Reach.observe (subscribe (ordersFrom 1) orders) Machine.free
    (failTwice none) (fun s => (s.feed.events, s.sub.trace))
    ([created, shipped], [.invoked created, .pollFailed, .invoked created,
      .skipping created 2 "boom", .poisoned created (some "boom"), .invoked shipped]) rfl
  rw [Prod.mk.injEq] at hobs
  intro hall
  have hset := (hall s hs).earlier [.invoked created, .pollFailed, .invoked created,
    .skipping created 2 "boom", .poisoned created (some "boom")] shipped [] hobs.2 created
    (by simp [hobs.1]) (by decide) (by decide)
  rcases hset with hhandled | ⟨hcount, _⟩
  · exact absurd hhandled (by decide)
  · exact absurd hcount (by decide)

theorem subscribe_in_order_poisoned :
    ∃ s, (subscribe (ordersFrom 2) orders).Reach (fun _ a => reportable (ordersFrom 2) a = true) s ∧
      s.sub.trace.any (Obs.poisons 1) = true ∧ InOrder (ordersFrom 2) s.feed s.sub.trace := by
  obtain ⟨s, hs, hobs⟩ := Machine.Reach.observe (subscribe (ordersFrom 2) orders)
    (fun _ a => reportable (ordersFrom 2) a = true) (failTwice (some "timeout"))
    (fun s => s.sub.trace.any (Obs.poisons 1)) true rfl
  exact ⟨s, hs, hobs, subscribe_in_order hs⟩

end NevoMessaging.Pg
