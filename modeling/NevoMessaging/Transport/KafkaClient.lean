import NevoMessaging.Lib.Machine
import NevoMessaging.Lib.Table

/-!
# Subscriptions of NevoKafkaClient

`subscribe` runs `eachMessage` on a consumer of its own, or shares the consumer of a sticky group
with the other subscriptions of the group. A handler that fails is to get the message again until it
has had `maxDeliveryAttempts` attempts; then the message goes to the dead letter queue.

Of kafkajs this is assumed: the messages of a partition come in the order of their offsets. A
message for which `eachMessage` returns is done with, even if the partition was paused; one for
which it throws comes again before any later one. One message is handled at a time. `commitOffsets`
can fail, which is a failure of the handler if it happens in `ctx.ack()`. `DlqRouter.route` does not
throw.

The key of a message is a text with its topic, partition and offset; topics have no colon in them,
so the text tells the three apart. What the handlers answer is part of the action. Whether a handler
takes a payload (`method` and `filter`) is a function of the subscription. The check throws for a
payload whose method is not a text, and then `eachMessage` throws.

Results:
1. `once_eachMessage`, `once_eachStickyMessage`: with `ack`, a message is handed out once.
2. `failed_message_skipped`: a failed message that is not retried, since the next one is committed.
3. `retried_iff`: failed messages are retried only if there is nothing to retry.
-/

namespace NevoMessaging.KafkaClient

open List

variable {P : Type}

structure Partition where
  topic : String
  partition : Nat
deriving DecidableEq

structure MessageKey where
  source : Partition
  offset : Nat
deriving DecidableEq

inductive Value (P : Type)
  | missing
  | unreadable
  | decoded (payload : P)

structure Message (P : Type) where
  offset : Nat
  value : Value P

structure SubscriptionOptions where
  maxDeliveryAttempts : Option Int := none

structure HandlerEntry (P : Type) where
  id : Nat
  /-- Nothing if the check throws. -/
  accepts : P → Option Bool
  maxAttempts : Int

/-- How a handler ends; on success it has called `ctx.ack()`. -/
inductive Answer
  | acked
  | threw
  | threwUndefined
deriving DecidableEq

/-- What is seen of a run. `handled` is a call of a handler, and the attempt that it was. -/
inductive Event
  | handled (key : MessageKey) (handler : Nat) (maxAttempts : Int) (attempts : Nat)
    (succeeded : Bool)
  | routed (key : MessageKey) (handler : Option Nat)
  | committed (source : Partition) (offset : Nat)
deriving DecidableEq

/-! ## Counting deliveries -/

abbrev DeliveryCounts := Table (Prod.fst : MessageKey × Nat → MessageKey)

namespace DeliveryCounts

@[irreducible] def maxDeliveryCounts : Nat := 10000

def boundDeliveryCounts (counts : DeliveryCounts) : DeliveryCounts where
  rows := counts.rows.drop (counts.rows.length - maxDeliveryCounts)
  nodup := counts.nodup.sublist ((List.drop_sublist _ _).map _)

def attempts (counts : DeliveryCounts) (key : MessageKey) : Nat :=
  ((counts.get? key).map Prod.snd).getD 0 + 1

/-- The attempt is counted. -/
def count (counts : DeliveryCounts) (key : MessageKey) : DeliveryCounts :=
  boundDeliveryCounts (counts.set (key, counts.attempts key))

end DeliveryCounts

/-! ## eachMessage -/

/-- What becomes of a message. If `eachMessage` throws, it comes again. -/
structure Delivery where
  counts : DeliveryCounts
  trace : List Event
  thrown : Bool := false

def nextOffset (key : MessageKey) : Event := .committed key.source (key.offset + 1)

/-- A consumer with one subscription. `commits` tells whether the offset of a message that was
routed to the dead letter queue can be committed. -/
def eachMessage (manualAck : Bool) (entry : HandlerEntry P) (counts : DeliveryCounts)
    (key : MessageKey) (value : Value P) (answer : Answer) (commits : Bool) : Delivery :=
  match value with
  | .missing => { counts, trace := [] }
  | .unreadable => { counts, trace := [.routed key none] }
  | .decoded payload =>
    match entry.accepts payload with
    | none => { counts, trace := [], thrown := true }
    | some false => { counts, trace := [] }
    | some true =>
      let attempts := counts.attempts key
      let counts := counts.count key
      let handled := Event.handled key entry.id entry.maxAttempts attempts (answer = .acked)
      if answer = .acked then
        { counts := counts.erase key
          trace := if manualAck then [handled, nextOffset key] else [handled] }
      else if entry.maxAttempts ≤ attempts then
        let counts := counts.erase key
        let routed := Event.routed key (some entry.id)
        if manualAck then
          if commits then { counts, trace := [handled, routed, nextOffset key] }
          else { counts, trace := [handled, routed], thrown := true }
        else { counts, trace := [handled, routed] }
      else { counts, trace := [handled], thrown := !manualAck }

/-- The loop over the subscriptions of a group. `redeliveryError` tells whether it is not
`undefined`. -/
structure StickyRun where
  counts : DeliveryCounts
  trace : List Event := []
  retryScheduled : Bool := false
  redeliveryError : Bool := false

def StickyRun.call (manualAck : Bool) (key : MessageKey) (attempts : Nat) (answers : Nat → Answer)
    (r : StickyRun) (entry : HandlerEntry P) : StickyRun :=
  let answer := answers entry.id
  let handled := Event.handled key entry.id entry.maxAttempts attempts (answer = .acked)
  if answer = .acked then
    if manualAck then
      { r with counts := r.counts.erase key, trace := r.trace ++ [handled, nextOffset key] }
    else { r with trace := r.trace ++ [handled] }
  else if entry.maxAttempts ≤ attempts then
    { r with trace := r.trace ++ [handled, .routed key (some entry.id)] }
  else if manualAck then { r with trace := r.trace ++ [handled], retryScheduled := true }
  else { r with trace := r.trace ++ [handled], redeliveryError := answer = .threw }

/-- The loop, and whether a check has thrown in it. -/
def StickyRun.loop (manualAck : Bool) (key : MessageKey) (attempts : Nat) (answers : Nat → Answer)
    (payload : P) : List (HandlerEntry P) → StickyRun → StickyRun × Bool
  | [], r => (r, false)
  | entry :: entries, r =>
    match entry.accepts payload with
    | none => (r, true)
    | some false => loop manualAck key attempts answers payload entries r
    | some true =>
      loop manualAck key attempts answers payload entries
        (r.call manualAck key attempts answers entry)

/-- `eachMessage` of `runStickyGroup`. -/
def eachStickyMessage (manualAck : Bool) (entries : Table (HandlerEntry.id (P := P)))
    (counts : DeliveryCounts) (key : MessageKey) (value : Value P) (answers : Nat → Answer) :
      Delivery :=
  if entries.rows.isEmpty then { counts, trace := [] }
  else
    match value with
    | .missing => { counts, trace := [] }
    | .unreadable => { counts, trace := [.routed key none] }
    | .decoded payload =>
      let attempts := counts.attempts key
      let (r, threw) := StickyRun.loop manualAck key attempts answers payload entries.rows
        { counts := counts.count key }
      if threw ∨ r.redeliveryError then { counts := r.counts, trace := r.trace, thrown := true }
      else
        { counts := if r.retryScheduled then r.counts else r.counts.erase key
          trace := r.trace }

/-! ## The consumer -/

/-- The messages that a partition may hand out: those from an offset on, or one again. -/
inductive Progress (P : Type)
  | next (offset : Nat)
  | again (message : Message P)

structure State (P : Type) where
  counts : DeliveryCounts := .empty
  dispatcher : String → Table (HandlerEntry.id (P := P)) := fun _ => .empty
  nextId : Nat := 0
  progress : Partition → Progress P := fun _ => .next 0
  log : List Event := []

inductive Consumer (P : Type)
  | dedicated (entry : HandlerEntry P)
  | sticky

inductive Action (P : Type)
  | subscribe (topic : String) (accepts : P → Option Bool) (opts : SubscriptionOptions)
  | unsubscribe (topic : String) (id : Nat)
  | deliver (p : Partition) (message : Message P) (answers : Nat → Answer) (commits : Bool)
  | redeliver (p : Partition) (answers : Nat → Answer) (commits : Bool)

def SubscriptionOptions.maxAttempts (opts : SubscriptionOptions) : Int :=
  opts.maxDeliveryAttempts.getD 3

def Consumer.eachMessage (manualAck : Bool) (s : State P) (key : MessageKey) (value : Value P)
    (answers : Nat → Answer) (commits : Bool) : Consumer P → Delivery
  | .dedicated entry =>
    KafkaClient.eachMessage manualAck entry s.counts key value (answers entry.id) commits
  | .sticky =>
    eachStickyMessage manualAck (s.dispatcher key.source.topic) s.counts key value answers

def State.deliver (manualAck : Bool) (c : Consumer P) (s : State P) (p : Partition) (m : Message P)
    (answers : Nat → Answer) (commits : Bool) : State P :=
  let d := c.eachMessage manualAck s ⟨p, m.offset⟩ m.value answers commits
  { s with
    counts := d.counts
    progress := Function.update s.progress p (if d.thrown then .again m else .next (m.offset + 1))
    log := s.log ++ d.trace }

def State.step (manualAck : Bool) (c : Consumer P) (s : State P) : Action P → Option (State P)
  | .subscribe topic accepts opts =>
    match c with
    | .dedicated _ => none
    | .sticky =>
      let entry := { id := s.nextId, accepts, maxAttempts := opts.maxAttempts }
      some { s with
        nextId := s.nextId + 1
        dispatcher := Function.update s.dispatcher topic ((s.dispatcher topic).set entry) }
  | .unsubscribe topic id =>
    some { s with dispatcher := Function.update s.dispatcher topic ((s.dispatcher topic).erase id) }
  | .deliver p m answers commits =>
    match s.progress p with
    | .next n => if n ≤ m.offset then some (s.deliver manualAck c p m answers commits) else none
    | .again _ => none
  | .redeliver p answers commits =>
    match s.progress p with
    | .next _ => none
    | .again m => some (s.deliver manualAck c p m answers commits)

def kafkaClient (manualAck : Bool) (c : Consumer P) : Machine (State P) (Action P) where
  init := {}
  step := State.step manualAck c

/-! ## Failed messages -/

/-- The handler has succeeded with the message, or the message was routed to the dead letter
queue. -/
def Settled (key : MessageKey) (handler : Nat) (log : List Event) : Prop :=
  (∃ maxAttempts attempts, Event.handled key handler maxAttempts attempts true ∈ log) ∨
    Event.routed key (some handler) ∈ log

/-- A message whose handler failed in fewer than `maxDeliveryAttempts` attempts comes again, and no
greater offset is committed, before the message is settled. -/
structure Retried (s : State P) : Prop where
  again : ∀ {pre post : List Event} {key : MessageKey} {handler attempts : Nat} {maxAttempts : Int},
    s.log = pre ++ .handled key handler maxAttempts attempts false :: post →
      attempts < maxAttempts →
    Settled key handler post ∨ ∃ m, s.progress key.source = .again m ∧ m.offset = key.offset
  committed : ∀ {pre post : List Event} {key : MessageKey} {handler attempts offset : Nat}
    {maxAttempts : Int}, s.log = pre ++ .committed key.source offset :: post → key.offset < offset →
    .handled key handler maxAttempts attempts false ∈ s.log → attempts < maxAttempts →
    Settled key handler pre

/-! ## A delivery -/

def Event.key? : Event → Option MessageKey
  | .handled key .. => some key
  | .routed key _ => some key
  | .committed .. => none

namespace DeliveryCounts

theorem keys_count {counts : DeliveryCounts} {key k : MessageKey}
    (h : k ∈ (counts.count key).keys) :
    k = key ∨ k ∈ counts.keys := by
  rw [count, Table.keys, boundDeliveryCounts] at h
  obtain ⟨r, hr, rfl⟩ := mem_map.mp h
  replace hr := Table.get?_of_mem (mem_of_mem_drop hr)
  by_cases hr' : r.1 = key
  · exact .inl hr'
  · rw [Table.get?_set_ne _ hr'] at hr
    exact .inr (Table.isSome_get?.mp (Option.isSome_of_eq_some hr))

theorem attempts_of_not_mem {counts : DeliveryCounts} {key : MessageKey} (h : key ∉ counts.keys) :
    counts.attempts key = 1 := by
  rw [attempts, Table.get?_eq_none.mpr h]
  rfl

end DeliveryCounts

/-- What a handler does with a message when there is a commit by hand. -/
def callTrace (key : MessageKey) (attempts : Nat) (answers : Nat → Answer)
    (entry : HandlerEntry P) :
    List Event :=
  .handled key entry.id entry.maxAttempts attempts (answers entry.id = .acked) ::
    if answers entry.id = .acked then [nextOffset key]
    else if entry.maxAttempts ≤ attempts then [.routed key (some entry.id)]
    else []

section CallTrace

variable {key k : MessageKey} {attempts n handler : Nat} {answers : Nat → Answer}
  {entry : HandlerEntry P}
  {maxAttempts : Int} {ok : Bool}

theorem handled_mem_callTrace
    (h : .handled k handler maxAttempts n ok ∈ callTrace key attempts answers entry) :
    k = key ∧ handler = entry.id ∧ maxAttempts = entry.maxAttempts ∧ n = attempts ∧
      ok = decide (answers entry.id = .acked) := by
  rcases mem_cons.mp h with h | h
  · injection h with h₁ h₂ h₃ h₄ h₅
    exact ⟨h₁, h₂, h₃, h₄, h₅⟩
  · split_ifs at h <;> simp [nextOffset] at h

theorem routed_mem_callTrace {id : Option Nat}
    (h : .routed k id ∈ callTrace key attempts answers entry) :
    k = key ∧ id = some entry.id ∧ answers entry.id ≠ .acked ∧ entry.maxAttempts ≤ attempts := by
  rcases mem_cons.mp h with h | h
  · cases h
  · split_ifs at h with hacked hmax
    · simp [nextOffset] at h
    · cases mem_singleton.mp h
      exact ⟨rfl, rfl, hacked, hmax⟩
    · cases h

theorem not_settled_callTrace {entries : List (HandlerEntry P)}
    (hid : ∀ e ∈ entries, ∀ e' ∈ entries, e.id = e'.id → e = e')
    (h : .handled k handler maxAttempts n false ∈ entries.flatMap
      (callTrace key attempts answers)) :
    n = attempts ∧ (n < maxAttempts →
      ¬ Settled k handler (entries.flatMap (callTrace key attempts answers))) := by
  obtain ⟨e, he, h⟩ := mem_flatMap.mp h
  obtain ⟨rfl, rfl, rfl, rfl, hok⟩ := handled_mem_callTrace h
  refine ⟨rfl, fun hlt hsettled => ?_⟩
  rcases hsettled with ⟨_, _, h'⟩ | h'
  · obtain ⟨e', he', h'⟩ := mem_flatMap.mp h'
    obtain ⟨-, hid', -, -, hok'⟩ := handled_mem_callTrace h'
    rw [hid e he e' he' hid', ← hok'] at hok
    cases hok
  · obtain ⟨e', he', h'⟩ := mem_flatMap.mp h'
    obtain ⟨-, hid', -, hle⟩ := routed_mem_callTrace h'
    rw [hid e he e' he' (Option.some.inj hid')] at hlt
    omega

theorem about_callTrace {entries : List (HandlerEntry P)} {e : Event}
    (h : e ∈ entries.flatMap (callTrace key attempts answers)) (hk : k ∈ e.key?) : k = key := by
  obtain ⟨entry, -, h⟩ := mem_flatMap.mp h
  cases e with
  | handled => cases hk; exact (handled_mem_callTrace h).1
  | routed => cases hk; exact (routed_mem_callTrace h).1
  | committed => cases hk

end CallTrace

/-- The first delivery of a message is the last one, and a handler that fails and has more than one
attempt is not settled by it. -/
structure Once (counts : DeliveryCounts) (key : MessageKey) (d : Delivery) : Prop where
  returned : d.thrown = false
  counts : ∀ k ∈ d.counts.keys, k = key ∨ k ∈ counts.keys
  about : ∀ e ∈ d.trace, ∀ k ∈ e.key?, k = key
  lost : ∀ {k handler maxAttempts attempts}, .handled k handler maxAttempts attempts
    false ∈ d.trace →
    attempts = 1 ∧ (1 < maxAttempts → ¬ Settled k handler d.trace)

variable {counts : DeliveryCounts} {key : MessageKey} {handler : Nat} {s : State P} {c : Consumer P}

theorem Once.of_callTrace {entries : List (HandlerEntry P)}
    (hid : ∀ e ∈ entries, ∀ e' ∈ entries, e.id = e'.id → e = e') (answers : Nat → Answer)
    {d : Delivery} (htrace : d.trace = entries.flatMap (callTrace key 1 answers))
    (hthrown : d.thrown = false) (hcounts : ∀ k ∈ d.counts.keys, k = key ∨ k ∈ counts.keys) :
    Once counts key d where
  returned := hthrown
  counts := hcounts
  about e he k hk := about_callTrace (htrace ▸ he) hk
  lost h := by
    rw [htrace] at h ⊢
    obtain ⟨rfl, hlost⟩ := not_settled_callTrace hid h
    exact ⟨rfl, hlost⟩

theorem Once.skipped {trace : List Event} (h : trace ⊆ [.routed key none]) :
    Once counts key { counts, trace } where
  returned := rfl
  counts k hk := .inr hk
  about e he k hk := by
    cases mem_singleton.mp (h he)
    exact (Option.some.inj hk).symm
  lost h' := by cases mem_singleton.mp (h h')

/-- No check of the payload throws. -/
def Value.Checked (entries : List (HandlerEntry P)) : Value P → Prop
  | .decoded payload => ∀ entry ∈ entries, entry.accepts payload ≠ none
  | _ => True

theorem once_eachMessage {entry : HandlerEntry P} (hmax : 1 < entry.maxAttempts)
    (hnew : key ∉ counts.keys) {value : Value P} (hvalue : value.Checked [entry])
    (answers : Nat → Answer) (commits : Bool) :
    Once counts key (eachMessage true entry counts key value (answers entry.id) commits) := by
  have hsame : ∀ e ∈ [entry], ∀ e' ∈ [entry], e.id = e'.id → e = e' := by
    intro e he e' he' _
    rw [mem_singleton.mp he, mem_singleton.mp he']
  unfold eachMessage
  rw [DeliveryCounts.attempts_of_not_mem hnew]
  match value with
  | .missing => exact .skipped (nil_subset _)
  | .unreadable => exact .skipped (List.Subset.refl _)
  | .decoded payload =>
    have hle : ¬ entry.maxAttempts ≤ ((1 : Nat) : Int) := by omega
    simp only [hle, ↓reduceIte]
    split
    next hthrows => exact absurd hthrows (hvalue entry mem_cons_self)
    · exact .skipped (nil_subset _)
    split_ifs with hacked
    · refine .of_callTrace hsame answers ?_ rfl fun k hk => ?_
      · simp [callTrace, hacked]
      · exact DeliveryCounts.keys_count (Table.mem_keys_of_erase hk)
    · refine .of_callTrace hsame answers ?_ rfl fun k hk => ?_
      · simp [callTrace, hacked, hmax]
      · exact DeliveryCounts.keys_count hk

theorem call_acking (key : MessageKey) (attempts : Nat) (answers : Nat → Answer) (r : StickyRun)
    (entry : HandlerEntry P) :
    let r' := r.call true key attempts answers entry
    r'.trace = r.trace ++ callTrace key attempts answers entry ∧
      r'.redeliveryError = r.redeliveryError ∧ ∀ k ∈ r'.counts.keys, k ∈ r.counts.keys := by
  unfold StickyRun.call callTrace
  simp only [↓reduceIte]
  split_ifs
  · exact ⟨rfl, rfl, fun k => Table.mem_keys_of_erase⟩
  · exact ⟨rfl, rfl, fun k hk => hk⟩
  · exact ⟨rfl, rfl, fun k hk => hk⟩

theorem foldl_call (key : MessageKey) (attempts : Nat) (answers : Nat → Answer)
    (entries : List (HandlerEntry P)) (r : StickyRun) :
    let r' := entries.foldl (StickyRun.call true key attempts answers) r
    r'.trace = r.trace ++ entries.flatMap (callTrace key attempts answers) ∧
      r'.redeliveryError = r.redeliveryError ∧ ∀ k ∈ r'.counts.keys, k ∈ r.counts.keys := by
  induction entries generalizing r with
  | nil => simp
  | cons entry entries ih =>
    obtain ⟨htrace, herror, hcounts⟩ := ih (r.call true key attempts answers entry)
    obtain ⟨htrace', herror', hcounts'⟩ := call_acking key attempts answers r entry
    refine ⟨?_, herror.trans herror', fun k hk => hcounts' k (hcounts k hk)⟩
    rw [foldl_cons, htrace, htrace', flatMap_cons, append_assoc]

/-- The subscriptions that are called. -/
theorem loop_eq (manualAck : Bool) (key : MessageKey) (attempts : Nat) (answers : Nat → Answer)
    (payload : P) (entries : List (HandlerEntry P)) (r : StickyRun) :
    ∃ called, called ⊆ entries ∧
      (StickyRun.loop manualAck key attempts answers payload entries r).1 =
        called.foldl (StickyRun.call manualAck key attempts answers) r ∧
      ((∀ entry ∈ entries, entry.accepts payload ≠ none) →
        (StickyRun.loop manualAck key attempts answers payload entries r).2 = false) := by
  induction entries generalizing r with
  | nil => exact ⟨[], nil_subset _, rfl, fun _ => rfl⟩
  | cons entry entries ih =>
    unfold StickyRun.loop
    split
    next hthrows => exact ⟨[], nil_subset _, rfl, fun h => absurd hthrows (h entry mem_cons_self)⟩
    · obtain ⟨called, hsub, hloop, hthrown⟩ := ih r
      exact ⟨called, subset_cons_of_subset _ hsub, hloop, fun h => hthrown (forall_mem_cons.mp h).2⟩
    · obtain ⟨called, hsub, hloop, hthrown⟩ := ih (r.call manualAck key attempts answers entry)
      exact ⟨entry :: called, cons_subset_cons _ hsub, hloop,
        fun h => hthrown (forall_mem_cons.mp h).2⟩

theorem once_eachStickyMessage (entries : Table (HandlerEntry.id (P := P)))
    (hnew : key ∉ counts.keys) {value : Value P} (hvalue : value.Checked entries.rows)
    (answers : Nat → Answer) :
    Once counts key (eachStickyMessage true entries counts key value answers) := by
  unfold eachStickyMessage
  rw [DeliveryCounts.attempts_of_not_mem hnew]
  split
  · exact .skipped (nil_subset _)
  match value with
  | .missing => exact .skipped (nil_subset _)
  | .unreadable => exact .skipped (List.Subset.refl _)
  | .decoded payload =>
    obtain ⟨called, hsub, hloop, hthrown⟩ := loop_eq true key 1 answers payload entries.rows
      { counts := counts.count key }
    obtain ⟨htrace, herror, hcounts⟩ := foldl_call key 1 answers called
      { counts := counts.count key }
    rw [← hloop] at htrace herror hcounts
    have hid : ∀ e ∈ called, ∀ e' ∈ called, e.id = e'.id → e = e' := by
      intro e he e' he'
      exact entries.eq_of_key_eq (hsub he) (hsub he')
    dsimp only
    rw [if_neg (by simp [hthrown hvalue, herror])]
    refine .of_callTrace hid answers ?_ rfl fun k hk => ?_
    · exact htrace
    · split at hk
      · exact DeliveryCounts.keys_count (hcounts k hk)
      · exact DeliveryCounts.keys_count (hcounts k (Table.mem_keys_of_erase hk))

/-! ## Runs -/

/-- The message is in the counts or in the log. -/
def State.Seen (s : State P) (key : MessageKey) : Prop :=
  key ∈ s.counts.keys ∨ ∃ e ∈ s.log, key ∈ e.key?

/-- Nothing comes again: what was seen lies behind the offset from which on the partition hands out
messages. -/
structure Passed (s : State P) : Prop where
  next : ∀ p, ∃ n, s.progress p = .next n
  behind : ∀ {k n}, s.Seen k → s.progress k.source = .next n → k.offset < n
  lost : ∀ {k handler maxAttempts attempts}, .handled k handler maxAttempts attempts false ∈ s.log →
    attempts = 1 ∧ (1 < maxAttempts → ¬ Settled k handler s.log)

theorem settled_append {l m : List Event} :
    Settled key handler (l ++ m) ↔ Settled key handler l ∨ Settled key handler m := by
  simp only [Settled, mem_append, exists_or]
  exact or_or_or_comm

theorem mem_key?_of_settled {l : List Event} (h : Settled key handler l) :
    ∃ e ∈ l, key ∈ e.key? := by
  rcases h with ⟨_, _, h⟩ | h
  · exact ⟨_, h, rfl⟩
  · exact ⟨_, h, rfl⟩

theorem passed_deliver (h : Passed s) {p : Partition} {n : Nat} {m : Message P}
    {answers : Nat → Answer} {commits : Bool} (hp : s.progress p = .next n) (hle : n ≤ m.offset)
    (hd : Once s.counts ⟨p, m.offset⟩ (c.eachMessage true s ⟨p, m.offset⟩ m.value answers
      commits)) :
    Passed (s.deliver true c p m answers commits) := by
  unfold State.deliver
  generalize c.eachMessage true s ⟨p, m.offset⟩ m.value answers commits = d at hd
  refine ⟨fun p' => ?_, fun {k n'} hk hn' => ?_, fun {k handler maxAttempts attempts} hmem => ?_⟩
  · by_cases hpp : p' = p
    · exact ⟨m.offset + 1, by simp [hpp, hd.returned]⟩
    · simpa [hpp] using h.next p'
  · have hold : k = ⟨p, m.offset⟩ ∨ s.Seen k := by
      rcases hk with hk | ⟨e, he, hk⟩
      · exact (hd.counts k hk).imp_right .inl
      · rcases mem_append.mp he with he | he
        · exact .inr (.inr ⟨e, he, hk⟩)
        · exact .inl (hd.about e he k hk)
    by_cases hkp : k.source = p
    · obtain rfl : m.offset + 1 = n' := by simpa [hkp, hd.returned] using hn'
      rcases hold with rfl | hold
      · exact Nat.lt_succ_self _
      · exact Nat.lt_succ_of_lt (Nat.lt_of_lt_of_le (h.behind hold (hkp ▸ hp)) hle)
    · rcases hold with rfl | hold
      · exact absurd rfl hkp
      · exact h.behind hold (by simpa [hkp] using hn')
  · -- A message of the log lies behind this one, so neither settles the other.
    have hapart : ∀ e ∈ s.log, ∀ e' ∈ d.trace, ∀ k ∈ e.key?, k ∉ e'.key? := by
      intro e he e' he' k hk hk'
      have hkey := hd.about e' he' k hk'
      subst hkey
      exact absurd (h.behind (.inr ⟨e, he, hk⟩) hp) (Nat.not_lt.mpr hle)
    rw [settled_append, not_or]
    rcases mem_append.mp hmem with hmem | hmem
    · obtain ⟨rfl, hlost⟩ := h.lost hmem
      refine ⟨rfl, fun hmax => ⟨hlost hmax, fun hsettled => ?_⟩⟩
      obtain ⟨e, he, hk⟩ := mem_key?_of_settled hsettled
      exact hapart _ hmem e he k rfl hk
    · obtain ⟨rfl, hlost⟩ := hd.lost hmem
      refine ⟨rfl, fun hmax => ⟨fun hsettled => ?_, hlost hmax⟩⟩
      obtain ⟨e, he, hk⟩ := mem_key?_of_settled hsettled
      exact hapart e he _ hmem k hk rfl

/-- The subscriptions that a message of the topic is for. -/
def Consumer.entries (s : State P) (topic : String) : Consumer P → List (HandlerEntry P)
  | .dedicated entry => [entry]
  | .sticky => (s.dispatcher topic).rows

/-- No check throws for a message that comes in. -/
def Checks (c : Consumer P) (s : State P) : Action P → Prop
  | .deliver p m _ _ => m.value.Checked (c.entries s p.topic)
  | _ => True

instance (c : Consumer P) (s : State P) (a : Action P) : Decidable (Checks c s a) := by
  unfold Checks Value.Checked
  repeat' split
  all_goals infer_instance

theorem step_cases {s' : State P} {a : Action P} (hs : s.step true c a = some s')
    (ha : Checks c s a) :
    (∃ nextId dispatcher, s' = { s with nextId, dispatcher }) ∨
      ∃ p m answers commits, s' = s.deliver true c p m answers commits ∧
        ((∃ n, s.progress p = .next n ∧ n ≤ m.offset ∧ m.value.Checked (c.entries s p.topic)) ∨
          s.progress p = .again m) := by
  cases a with
  | subscribe topic accepts opts =>
    dsimp only [State.step] at hs
    split at hs <;> cases hs
    exact .inl ⟨_, _, rfl⟩
  | unsubscribe topic id =>
    cases hs
    exact .inl ⟨_, _, rfl⟩
  | deliver p m answers commits =>
    dsimp only [State.step] at hs
    split at hs
    next n hp =>
      split at hs <;> cases hs
      exact .inr ⟨p, m, answers, commits, rfl, .inl ⟨n, hp, ‹_›, ha⟩⟩
    next => cases hs
  | redeliver p answers commits =>
    dsimp only [State.step] at hs
    split at hs <;> cases hs
    exact .inr ⟨p, _, answers, commits, rfl, .inr ‹_›⟩

theorem passed_step (hc : ∀ entry, c = .dedicated entry → 1 < entry.maxAttempts) {s' : State P}
    {a : Action P} (h : Passed s) (ha : Checks c s a) (hs : s.step true c a = some s') :
    Passed s' := by
  rcases step_cases hs ha with
    ⟨_, _, rfl⟩ | ⟨p, m, answers, commits, rfl, ⟨n, hp, hle, hvalue⟩ | hp⟩
  · exact ⟨h.next, h.behind, h.lost⟩
  · refine passed_deliver h hp hle ?_
    have hnew : (⟨p, m.offset⟩ : MessageKey) ∉ s.counts.keys := fun hmem =>
      absurd (h.behind (.inl hmem) hp) (Nat.not_lt.mpr hle)
    match c with
    | .dedicated entry => exact once_eachMessage (hc entry rfl) hnew hvalue _ _
    | .sticky => exact once_eachStickyMessage _ hnew hvalue _
  · obtain ⟨n, hn⟩ := h.next p
    cases hp.symm.trans hn

theorem passed_init : Passed ({} : State P) where
  next _ := ⟨0, rfl⟩
  behind hk := by rcases hk with hk | ⟨e, he, -⟩ <;> contradiction
  lost h := by cases h

theorem handled_eachMessage {k : MessageKey} {value : Value P} {answers : Nat → Answer}
    {commits ok : Bool} {attempts : Nat} {maxAttempts : Int}
    (h : .handled k handler maxAttempts attempts ok ∈
      (c.eachMessage true s key value answers commits).trace) :
    1 ≤ attempts ∧ ∀ entry, c = .dedicated entry → maxAttempts = entry.maxAttempts := by
  cases c with
  | dedicated entry =>
    have hsame : maxAttempts = entry.maxAttempts ∧ attempts = s.counts.attempts key := by
      cases value with
      | missing => cases h
      | unreadable => cases mem_singleton.mp h
      | decoded payload =>
        dsimp only [Consumer.eachMessage, eachMessage, nextOffset] at h
        split at h
        · cases h
        · cases h
        · split_ifs at h <;> simp_all
    refine ⟨hsame.2 ▸ Nat.succ_pos _, fun entry' he => ?_⟩
    cases he
    exact hsame.1
  | sticky =>
    refine ⟨?_, fun entry he => by cases he⟩
    dsimp only [Consumer.eachMessage, eachStickyMessage] at h
    split at h
    · cases h
    cases value with
    | missing => cases h
    | unreadable => cases mem_singleton.mp h
    | decoded payload =>
      obtain ⟨called, -, hloop, -⟩ := loop_eq true key (s.counts.attempts key) answers payload
        (s.dispatcher key.source.topic).rows { counts := s.counts.count key }
      obtain ⟨htrace, -⟩ := foldl_call key (s.counts.attempts key) answers called
        { counts := s.counts.count key }
      have hmem : .handled k handler maxAttempts attempts ok ∈
          called.flatMap (callTrace key (s.counts.attempts key) answers) := by
        rw [nil_append, ← hloop] at htrace
        rw [← htrace]
        dsimp only at h
        split at h <;> exact h
      obtain ⟨entry, -, hmem⟩ := mem_flatMap.mp hmem
      obtain ⟨-, -, -, rfl, -⟩ := handled_mem_callTrace hmem
      exact Nat.succ_pos _

theorem handled_reach (h : (kafkaClient true c).Reach (Checks c) s) :
    ∀ {k handler maxAttempts attempts ok}, .handled k handler maxAttempts attempts ok ∈ s.log →
      1 ≤ attempts ∧ ∀ entry, c = .dedicated entry → maxAttempts = entry.maxAttempts := by
  induction h with
  | init => intro _ _ _ _ _ hmem; cases hmem
  | step _ ha hs ih =>
    intro _ _ _ _ _ hmem
    rcases step_cases hs ha with ⟨_, _, rfl⟩ | ⟨_, _, _, _, rfl, -⟩
    · exact ih hmem
    · rcases mem_append.mp hmem with hmem | hmem
      · exact ih hmem
      · exact handled_eachMessage hmem

/-- Failed messages are retried in no run in which a handler with more than one attempt fails. -/
theorem retried_iff (c : Consumer P) (s : State P) (h : (kafkaClient true c).Reach (Checks c) s) :
    Retried s ↔ ∀ key handler maxAttempts attempts,
      .handled key handler maxAttempts attempts false ∈ s.log → maxAttempts ≤ 1 := by
  constructor
  · intro hretried key handler maxAttempts attempts hmem
    by_contra hmax
    have hmax : 1 < maxAttempts := by omega
    have hpassed : Passed s := by
      refine h.invariant passed_init fun _ hp ha hs => passed_step ?_ hp ha hs
      rintro entry rfl
      exact (handled_reach h hmem).2 entry rfl ▸ hmax
    obtain ⟨rfl, hlost⟩ := hpassed.lost hmem
    obtain ⟨pre, post, hlog⟩ := append_of_mem hmem
    rcases hretried.again hlog hmax with hsettled | ⟨m, hagain, -⟩
    · refine hlost hmax ?_
      rw [hlog, settled_append]
      exact .inr (settled_append.mpr (.inr hsettled) : Settled key handler ([_] ++ post))
    · obtain ⟨n, hn⟩ := hpassed.next key.source
      cases hagain.symm.trans hn
  · intro hmax
    have hnever : ∀ key handler (maxAttempts : Int) (attempts : Nat),
        .handled key handler maxAttempts attempts false ∈ s.log → ¬ attempts < maxAttempts := by
      intro key handler maxAttempts attempts hmem hlt
      have hle := hmax _ _ _ _ hmem
      have hpos := (handled_reach h hmem).1
      omega
    constructor
    · intro pre post key handler attempts maxAttempts hlog hlt
      exact absurd hlt (hnever key handler _ _ (by simp [hlog]))
    · intro _ _ _ _ _ _ _ _ _ hmem hlt
      exact absurd hlt (hnever _ _ _ _ hmem)

def orders : Partition := ⟨"orders", 0⟩

def subscription (maxAttempts : Int) : HandlerEntry Unit := ⟨0, fun _ => some true, maxAttempts⟩

/-- The handler fails with the first message and succeeds with the second one. -/
def twoMessages : List (Action Unit) :=
  [.deliver orders ⟨0, .decoded ()⟩ (fun _ => .threw) true,
    .deliver orders ⟨1, .decoded ()⟩ (fun _ => .acked) true]

theorem retried_iff_two_messages :
    ∃ s : State Unit, (kafkaClient true (.dedicated (subscription 1))).Reach
        (Checks (.dedicated (subscription 1))) s ∧
      .routed ⟨orders, 0⟩ (some 0) ∈ s.log ∧ Retried s := by
  obtain ⟨s, hs, hlog⟩ := Machine.Reach.observe (kafkaClient true (.dedicated (subscription 1)))
    (Checks (.dedicated (subscription 1))) twoMessages State.log
    [.handled ⟨orders, 0⟩ 0 1 1 false, .routed ⟨orders, 0⟩ (some 0), .committed orders 1,
      .handled ⟨orders, 1⟩ 0 1 1 true, .committed orders 2] (by decide +kernel)
  refine ⟨s, hs, by simp [hlog], (retried_iff _ s hs).mpr ?_⟩
  intro key handler maxAttempts attempts hmem
  simp only [hlog, mem_cons, Event.handled.injEq, reduceCtorEq, not_mem_nil, or_false,
    Bool.false_eq_true, and_false] at hmem
  omega

/-- A handler with three attempts. -/
def skipped : List Event :=
  [.handled ⟨orders, 0⟩ 0 3 1 false, .handled ⟨orders, 1⟩ 0 3 1 true, .committed orders 2]

theorem not_retried_of_skipped {s : State Unit} (hlog : s.log = skipped) : ¬ Retried s := by
  intro hretried
  have hlog' : s.log = [.handled ⟨orders, 0⟩ 0 3 1 false, .handled ⟨orders, 1⟩ 0 3 1 true] ++
      .committed orders 2 :: [] := hlog
  have hfailed : .handled ⟨orders, 0⟩ 0 3 1 false ∈ s.log := by simp [hlog, skipped]
  have hsettled := hretried.committed hlog' (by decide) hfailed (by decide)
  simp [Settled] at hsettled

/-- The second message is committed and the first one does not come again, on a consumer with one
subscription and in a group. -/
theorem failed_message_skipped :
    (∃ s : State Unit, (kafkaClient true (.dedicated (subscription 3))).Reach Machine.free s ∧
      ¬ Retried s) ∧
    ∃ s : State Unit, (kafkaClient true .sticky).Reach Machine.free s ∧ ¬ Retried s := by
  constructor
  · obtain ⟨s, hs, hlog⟩ := Machine.Reach.observe (kafkaClient true (.dedicated (subscription 3)))
      Machine.free twoMessages State.log skipped (by decide +kernel)
    exact ⟨s, hs, not_retried_of_skipped hlog⟩
  · obtain ⟨s, hs, hlog⟩ := Machine.Reach.observe (kafkaClient true .sticky) Machine.free
      (.subscribe "orders" (fun _ => some true) {} :: twoMessages) State.log skipped
      (by decide +kernel)
    exact ⟨s, hs, not_retried_of_skipped hlog⟩

end NevoMessaging.KafkaClient
