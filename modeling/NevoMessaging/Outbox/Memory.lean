import Mathlib.Data.List.Sort
import NevoMessaging.Lib.Machine
import NevoMessaging.Lib.Pairs
import NevoMessaging.Lib.Table
import NevoMessaging.Outbox.Relay

/-!
# An outbox over the store in memory

`InMemoryOutboxStore` with its transactions, and an `Outbox` that enqueues into it and flushes
it. The methods of the store run to their end at once, so a step of the machine is a call of
one of them or a step of a flush. `flushOnce` calls do not overlap: one starts when the
promises of those before it are settled.

`Date.now()` is part of the actions and need not grow. The ids of `uuidv7` are new.

The state remembers the records that were ever saved and those of the transactions that threw,
and logs what happens to the records.

Results:
1. `mark_rows`, `rows_prune`, `collect_ahead`: what the methods of the store do to its rows.
2. `step_change`: the steps of the machine, as the store and the flushes see them.
3. `inv_reach`: what the store holds, and that the records of a flush are pending until marked.
-/

namespace NevoMessaging.Outbox

open List

variable {P X : Type}

/-! ## The store -/

/-- The `Map` of the records. -/
abbrev Store (P : Type) := Table fun r : OutboxRecord P => r.id

structure StoreOptions where
  publishedRetentionMs : Option Int := none
  maxPublished : Option Int := none

namespace StoreOptions

def retention (c : StoreOptions) : Int := max 0 (c.publishedRetentionMs.getD (5 * 60000))

def cap (c : StoreOptions) : Nat := (max 0 (c.maxPublished.getD 10000)).toNat

end StoreOptions

namespace Store

def markPublished (t : Store P) (id : String) (now : Int) : Store P × OutboxMarkResult :=
  match t.get? id with
  | none => (t, { owned := false, status := .published, attempts := 0 })
  | some r =>
    if r.status ≠ .pending then (t, { owned := false, status := r.status, attempts := r.attempts })
    else
      (t.update id (fun r => { r with status := .published, publishedAt := some now })
          (fun _ => rfl),
        { owned := true, status := .published, attempts := r.attempts })

/-- The record after one more failed attempt. -/
def fail (error : String) (maxAttempts : Int) (r : OutboxRecord P) : OutboxRecord P :=
  { r with
    attempts := r.attempts + 1
    lastError := some error
    status := if maxAttempts ≤ (r.attempts + 1 : Nat) then .failed else .pending }

def markFailed (t : Store P) (id error : String) (maxAttempts : Int) :
    Store P × OutboxMarkResult :=
  match t.get? id with
  | none => (t, { owned := false, status := .failed, attempts := 0 })
  | some r =>
    if r.status ≠ .pending then (t, { owned := false, status := r.status, attempts := r.attempts })
    else
      (t.update id (fail error maxAttempts) (fun _ => rfl),
        { owned := true, status := (fail error maxAttempts r).status, attempts := r.attempts + 1 })

/-- The call that reports the outcome of an emission. -/
def mark (maxAttempts now : Int) (t : Store P) (id : String) :
    Option String → Store P × OutboxMarkResult
  | none => t.markPublished id now
  | some error => t.markFailed id error maxAttempts

end Store

def stamp (r : OutboxRecord P) : Int := r.publishedAt.getD r.createdAt

/-- The published records that are too old go, and then the oldest of the others as far as
there are too many. -/
def prunePublished (c : StoreOptions) (now : Int) (t : Store P) : Store P :=
  let kept := t.filter fun r => ¬ (r.status = .published ∧ c.retention < now - stamp r)
  let published := kept.rows.filter fun r => r.status = .published
  if published.length ≤ c.cap then kept
  else
    let oldest := (published.insertionSort (stamp · ≤ stamp ·)).take (published.length - c.cap)
    kept.filter fun r => r.id ∉ oldest.map (·.id)

/-- The loop of `listPending` over the sorted records. `n` is the length of what it has
collected; the limit is looked at after each addition. -/
def collect (limit : Int) : Nat → List String → List (OutboxRecord P) → List (OutboxRecord P)
  | _, _, [] => []
  | n, blocked, r :: rs =>
    if r.partitionKey.any (· ∈ blocked) then collect limit n blocked rs
    else if r.partitionKey.isSome ∧ r.status = .failed then
      collect limit n (r.partitionKey.toList ++ blocked) rs
    else if r.status ≠ .pending then collect limit n blocked rs
    else r :: if limit ≤ (n + 1 : Nat) then [] else collect limit (n + 1) blocked rs

/-- `listPending`, after its pruning. -/
def listPending (limit : Int) (t : Store P) : List (OutboxRecord P) :=
  collect limit 0 [] (t.rows.insertionSort (·.createdAt ≤ ·.createdAt))

/-! ## The machine -/

inductive Event
  | emitted (id : String)
  | accepted (id : String)
  | rejected (id : String)
  | published (id : String)
  | parked (id : String)
  | pruned (id : String)
deriving DecidableEq, Repr

/-- `txs` are the transactions of `withOutboxTransaction`, with what they have staged; one
that has ended is `none`. -/
structure State (P : Type) where
  store : Store P := .empty
  txs : List (Option (List (OutboxRecord P))) := []
  flushes : List (Flush P (Store P)) := []
  saved : List (OutboxRecord P) := []
  dropped : List (OutboxRecord P) := []
  log : List Event := []

namespace State

def staged (s : State P) : List (OutboxRecord P) := s.txs.flatMap (·.getD [])

/-- The ids that `uuidv7` has returned so far. -/
def known (s : State P) : List String := (s.saved ++ s.dropped ++ s.staged).map (·.id)

end State

inductive Action (P X : Type)
  | enqueue (tx : Option Nat) (id serviceName method : String) (params : P)
      (partitionKey : Option String) (now : Int)
  | beginTx
  | commit (tx : Nat)
  | rollback (tx : Nat)
  | flush (now : Int)
  | relay (flush lane : Nat) (answer : Answer X) (now : Int)

def answerEvents (e : Effect P) : List Event :=
  e.emitted.map (.emitted ·.id) ++
    e.outcomes.map fun x => if x.2 then .accepted x.1.id else .rejected x.1.id

def markEvents (id : String) (failure : Option String) (res : OutboxMarkResult) : List Event :=
  if ¬ res.owned then []
  else if failure.isNone then [.published id]
  else if res.status = .failed then [.parked id] else []

/-- The flush has made its step to `f'` with the effect `e`. -/
def State.relayed (o : Options X) (s : State P) (n : Nat) (f' : Flush P (Store P)) (e : Effect P)
    (now : Int) : State P :=
  match e.mark with
  | none => { s with flushes := s.flushes.set n f', log := s.log ++ answerEvents e }
  | some (r, failure) =>
    let m := s.store.mark o.attemptLimit now r.id failure
    { s with
      store := m.1
      flushes := s.flushes.set n (f'.count failure m.2)
      log := s.log ++ answerEvents e ++ markEvents r.id failure m.2 }

def step (c : StoreOptions) (o : Options X) (s : State P) : Action P X → Option (State P)
  | .enqueue tx id serviceName method params partitionKey now =>
    let r : OutboxRecord P :=
      { id, serviceName, method, params, partitionKey, createdAt := now }
    if id ∈ s.known then none
    else match tx with
      | none => some { s with store := s.store.set r, saved := s.saved ++ [r] }
      | some i => match s.txs[i]? with
        | some (some staged) => some { s with txs := s.txs.set i (some (staged ++ [r])) }
        | _ => none
  | .beginTx => some { s with txs := s.txs ++ [some []] }
  | .commit i => match s.txs[i]? with
    | some (some staged) => some { s with
        store := staged.foldl Table.set s.store
        txs := s.txs.set i none
        saved := s.saved ++ staged }
    | _ => none
  | .rollback i => match s.txs[i]? with
    | some (some staged) => some { s with
        txs := s.txs.set i none
        dropped := s.dropped ++ staged }
    | _ => none
  | .flush now =>
    if s.flushes.all Flush.finished then
      let store := prunePublished c now s.store
      some { s with
        store
        flushes := s.flushes ++ [.begin o s.store (listPending o.batchSize store)]
        log := s.log ++ (s.store.rows.filter fun r => r.id ∉ store.keys).map (.pruned ·.id) }
    else none
  | .relay _ _ (.refused _) _ => none
  | .relay n i a now =>
    match s.flushes[n]? with
    | none => none
    | some f => (f.step o i a).map fun m => s.relayed o n m.1 m.2 now

def machine (c : StoreOptions) (o : Options X) : Machine (State P) (Action P X) where
  init := {}
  step := step c o

/-- Every rejection of the publisher has a message or a string form. -/
def reportable (o : Options X) (_ : State P) : Action P X → Prop
  | .relay _ _ a _ => a.reported o
  | _ => True

instance (o : Options X) (s : State P) (a : Action P X) : Decidable (reportable o s a) := by
  unfold reportable
  split <;> infer_instance

/-! ## What the methods of the store do -/

/-- What a record is from its enqueueing on: all but its delivery. -/
def OutboxRecord.message (r : OutboxRecord P) : OutboxRecord P :=
  { r with publishedAt := none, attempts := 0, status := .pending, lastError := none }

@[simp] theorem OutboxRecord.id_message (r : OutboxRecord P) : r.message.id = r.id := rfl

/-- What `mark` does to a record. -/
def marked (maxAttempts now : Int) (id : String) (failure : Option String) (r : OutboxRecord P) :
    OutboxRecord P :=
  if r.id = id ∧ r.status = .pending then
    match failure with
    | none => { r with status := .published, publishedAt := some now }
    | some error => Store.fail error maxAttempts r
  else r

section Store

variable {maxAttempts now : Int} {k : String} {failure : Option String} {t : Store P}
  {r : OutboxRecord P}

@[simp] theorem marked_message : (marked maxAttempts now k failure r).message = r.message := by
  unfold marked
  split
  · cases failure <;> rfl
  · rfl

@[simp] theorem marked_id : (marked maxAttempts now k failure r).id = r.id := by
  rw [← OutboxRecord.id_message, marked_message, OutboxRecord.id_message]

theorem marked_failed {error : String} (hk : r.id = k) (hp : r.status = .pending) :
    marked maxAttempts now k (some error) r = Store.fail error maxAttempts r :=
  if_pos ⟨hk, hp⟩

theorem marked_published (hk : r.id = k) (hp : r.status = .pending) :
    marked maxAttempts now k none r = { r with status := .published, publishedAt := some now } :=
  if_pos ⟨hk, hp⟩

theorem Store.fail_status (error : String) :
    (Store.fail error maxAttempts r).status = .failed ↔ maxAttempts ≤ (r.attempts + 1 : Nat) := by
  simp only [Store.fail]
  split
  · next h => exact iff_of_true rfl h
  · next h => exact iff_of_false (by simp) h

theorem Store.fail_status_ne (error : String) : (Store.fail error maxAttempts r).status ≠
    .published := by
  unfold Store.fail
  split <;> simp

theorem marked_of_ne (h : r.id ≠ k) : marked maxAttempts now k failure r = r :=
  if_neg fun h' => h h'.1

theorem marked_of_not_pending (h : r.status ≠ .pending) :
    marked maxAttempts now k failure r = r :=
  if_neg fun h' => h h'.2

theorem map_marked_self (h : ∀ r ∈ t.rows, r.id = k → r.status ≠ .pending) :
    t.rows.map (marked maxAttempts now k failure) = t.rows := by
  have hself : ∀ r ∈ t.rows, marked maxAttempts now k failure r = r := by
    intro r hr
    by_cases hk : r.id = k
    · exact marked_of_not_pending (h r hr hk)
    · exact marked_of_ne hk
  exact (map_congr_left hself).trans (map_id' _)

theorem map_marked_update (hr : r ∈ t.rows) (hk : r.id = k) (hp : r.status = .pending)
    (g : OutboxRecord P → OutboxRecord P) (hg : ∀ r, (g r).id = r.id)
    (hm : ∀ r : OutboxRecord P, r.id = k → r.status = .pending →
      g r = marked maxAttempts now k failure r) :
    (t.update k g hg).rows = t.rows.map (marked maxAttempts now k failure) := by
  refine map_congr_left fun r' hr' => ?_
  by_cases hk' : r'.id = k
  · have heq := t.eq_of_key_eq hr' hr (hk'.trans hk.symm)
    rw [if_pos hk', hm r' hk' (heq ▸ hp)]
  · rw [if_neg hk', marked_of_ne hk']

theorem mark_rows : (t.mark maxAttempts now k failure).1.rows =
    t.rows.map (marked maxAttempts now k failure) := by
  cases hget : t.get? k with
  | none =>
    have hnone : ∀ r ∈ t.rows, r.id = k → r.status ≠ .pending := fun r hr hk =>
      absurd (Table.mem_keys.mpr ⟨r, hr, hk⟩) (Table.get?_eq_none.mp hget)
    cases failure <;> simp only [Store.mark, Store.markPublished, Store.markFailed, hget] <;>
      exact (map_marked_self hnone).symm
  | some r =>
    obtain ⟨hr, hk⟩ := Table.get?_eq_some.mp hget
    by_cases hp : r.status = .pending
    · cases failure with
      | none =>
        simp only [Store.mark, Store.markPublished, hget, hp, ne_eq, not_true, if_false]
        exact map_marked_update hr hk hp _ _ fun r hk hp => (if_pos ⟨hk, hp⟩).symm
      | some error =>
        simp only [Store.mark, Store.markFailed, hget, hp, ne_eq, not_true, if_false]
        exact map_marked_update hr hk hp _ _ fun r hk hp => (if_pos ⟨hk, hp⟩).symm
    · have hother : ∀ r' ∈ t.rows, r'.id = k → r'.status ≠ .pending := fun r' hr' hk' =>
        t.eq_of_key_eq hr hr' (hk.trans hk'.symm) ▸ hp
      cases failure <;>
        simp only [Store.mark, Store.markPublished, Store.markFailed, hget, ne_eq, hp,
          not_false_eq_true,
          if_true] <;>
        exact (map_marked_self hother).symm

variable (maxAttempts now failure) in
theorem mark_result (hr : r ∈ t.rows) (hk : r.id = k) (hp : r.status = .pending) :
    (t.mark maxAttempts now k failure).2 =
      { owned := true
        status := (marked maxAttempts now k failure r).status
        attempts := (marked maxAttempts now k failure r).attempts } := by
  have hget : t.get? k = some r := Table.get?_eq_some.mpr ⟨hr, hk⟩
  cases failure with
  | none => simp [Store.mark, Store.markPublished, hget, hp, marked, hk]
  | some error => simp [Store.mark, Store.markFailed, hget, hp, marked, hk, Store.fail]

theorem rows_prune (c : StoreOptions) (now : Int) (t : Store P) :
    ∃ p, (prunePublished c now t).rows = t.rows.filter p ∧
      ∀ r ∈ t.rows, p r = false → r.status = .published := by
  unfold prunePublished
  dsimp only
  split
  · refine ⟨_, rfl, fun r _ hr => ?_⟩
    simp only [decide_eq_false_iff_not, not_not] at hr
    exact hr.1
  · refine ⟨_, filter_filter .., fun r hr hp => ?_⟩
    simp only [Bool.and_eq_false_iff, decide_eq_false_iff_not, not_not] at hp
    rcases hp with hp | hp
    · obtain ⟨r', hr', hid⟩ := mem_map.mp hp
      have hpub := mem_filter.mp ((mem_insertionSort _).mp (mem_of_mem_take hr'))
      have hmem := mem_filter.mp hpub.1
      rw [← t.eq_of_key_eq hmem.1 hr hid]
      simpa using hpub.2
    · exact hp.1

theorem mem_prune {c : StoreOptions} (hr : r ∈ (prunePublished c now t).rows) : r ∈ t.rows := by
  obtain ⟨p, hrows, -⟩ := rows_prune c now t
  exact (mem_filter.mp (hrows ▸ hr)).1

theorem collect_pending (limit : Int) (n : Nat) (blocked : List String)
    (rows : List (OutboxRecord P)) :
    (collect limit n blocked rows).Sublist rows ∧
      ∀ r ∈ collect limit n blocked rows, r.status = .pending := by
  induction rows generalizing n blocked with
  | nil => exact ⟨nil_sublist _, by simp [collect]⟩
  | cons x rows ih =>
    simp only [collect]
    split
    · exact ⟨(ih n blocked).1.cons x, (ih n blocked).2⟩
    split
    · exact ⟨(ih n _).1.cons x, (ih n _).2⟩
    split
    · exact ⟨(ih n blocked).1.cons x, (ih n blocked).2⟩
    · next hp =>
      have hx : x.status = .pending := not_not.mp hp
      split
      · exact ⟨(nil_sublist _).cons_cons x, by simp [hx]⟩
      · refine ⟨(ih (n + 1) blocked).1.cons_cons x, ?_⟩
        intro r hr
        rcases mem_cons.mp hr with rfl | hr
        · exact hx
        · exact (ih (n + 1) blocked).2 r hr

/-- A record of a partition is taken only if all records of the partition in front of it are
published or taken before it. -/
theorem collect_ahead (limit : Int) (n : Nat) (blocked : List String) {rows : List (OutboxRecord P)}
    (hd : rows.Nodup) {ys zs : List (OutboxRecord P)} {key : String}
    (h : collect limit n blocked rows = ys ++ r :: zs) (hr : r.partitionKey = some key) :
    key ∉ blocked ∧ ∀ q, [q, r].Sublist rows → q.partitionKey = some key →
      q.status = .published ∨ q ∈ ys := by
  induction rows generalizing n blocked ys with
  | nil => simp [collect] at h
  | cons x rows ih =>
    obtain ⟨hx, hd⟩ := nodup_cons.mp hd
    simp only [collect] at h
    split at h
    · next hb =>
      obtain ⟨hkey, hq⟩ := ih n blocked hd h
      refine ⟨hkey, fun q hsub hqk => ?_⟩
      rcases Pairs.of_cons hsub with hsub | ⟨rfl, -⟩
      · exact hq q hsub hqk
      · exact absurd (by simpa [hqk] using hb) hkey
    split at h
    · obtain ⟨hkey, hq⟩ := ih n _ hd h
      refine ⟨fun hmem => hkey (mem_append_right _ hmem), fun q hsub hqk => ?_⟩
      rcases Pairs.of_cons hsub with hsub | ⟨rfl, -⟩
      · exact hq q hsub hqk
      · exact absurd (mem_append_left _ (by simp [hqk])) hkey
    split at h
    · next hf hp =>
      obtain ⟨hkey, hq⟩ := ih n blocked hd h
      refine ⟨hkey, fun q hsub hqk => ?_⟩
      rcases Pairs.of_cons hsub with hsub | ⟨rfl, -⟩
      · exact hq q hsub hqk
      · -- neither pending nor a failed record with a key
        cases hs : q.status with
        | pending => exact absurd hs hp
        | published => exact .inl rfl
        | failed => exact absurd ⟨by simp [hqk], hs⟩ hf
    · next hb _ _ =>
      cases ys with
      | nil =>
        obtain ⟨rfl, -⟩ := cons_eq_cons.mp h
        refine ⟨by simpa [hr] using hb, fun q hsub _ => ?_⟩
        rcases Pairs.of_cons hsub with hsub | ⟨-, hmem⟩
        · exact absurd (hsub.subset (by simp)) hx
        · exact absurd hmem hx
      | cons y ys =>
        obtain ⟨rfl, htail⟩ := cons_eq_cons.mp h
        split at htail
        · simp at htail
        · obtain ⟨hkey, hq⟩ := ih (n + 1) blocked hd htail
          refine ⟨hkey, fun q hsub hqk => ?_⟩
          rcases Pairs.of_cons hsub with hsub | ⟨rfl, -⟩
          · exact (hq q hsub hqk).imp_right (mem_cons_of_mem _)
          · exact .inr mem_cons_self

end Store

variable {c : StoreOptions} {o : Options X} {s s' : State P}

/-! ## The store and the flushes in every state -/

/-- What is known of every state: the ids are distinct, the store holds the saved records in
their order but for those pruned as published, and the records that the flushes have still to
mark are pending and distinct. -/
structure Inv (s : State P) : Prop where
  known : s.known.Nodup
  fresh : ∀ r ∈ s.staged, r.message = r
  rows : (s.store.rows.map OutboxRecord.message).Sublist s.saved
  kept : ∀ r ∈ s.saved,
    r.id ∈ s.store.keys ∨ (Event.pruned r.id ∈ s.log ∧ Event.published r.id ∈ s.log)
  published : ∀ r ∈ s.store.rows, r.status = .published → Event.published r.id ∈ s.log
  own : ∀ r ∈ todos s.flushes,
    ∃ r' ∈ s.store.rows, r'.message = r.message ∧ r'.status = .pending
  once : ((todos s.flushes).map (·.id)).Nodup
  settled : ∀ f ∈ s.flushes, f.settled = false

/-- New records come to the end of the store. -/
structure Appends (l : List (OutboxRecord P)) (s s' : State P) : Prop where
  fresh : ∀ r ∈ l, r.message = r
  new : ∀ r ∈ l, r.id ∉ s.saved.map (·.id)
  rows : s'.store.rows = s.store.rows ++ l
  saved : s'.saved = s.saved ++ l
  flushes : s'.flushes = s.flushes
  log : s'.log = s.log

/-- A flush begins. -/
structure Begins (c : StoreOptions) (o : Options X) (now : Int) (s s' : State P) : Prop where
  idle : ∀ f ∈ s.flushes, f.finished
  store : s'.store = prunePublished c now s.store
  saved : s'.saved = s.saved
  flushes : s'.flushes = s.flushes ++
    [.begin o s.store (listPending o.batchSize (prunePublished c now s.store))]
  log : s'.log = s.log ++ (s.store.rows.filter fun r =>
    r.id ∉ (prunePublished c now s.store).keys).map (.pruned ·.id)

/-- The steps as the store and the flushes see them. -/
inductive Change (c : StoreOptions) (o : Options X) (s s' : State P) : Prop
  | append (l : List (OutboxRecord P)) (new : Appends l s s')
  | flush (now : Int) (new : Begins c o now s s')
  | relay (n i : Nat) (a : Answer X) (now : Int) (f f' : Flush P (Store P)) (e : Effect P)
      (hn : s.flushes[n]? = some f) (hf : f.step o i a = some (f', e)) (ha : a.reported o)
      (state : s' = s.relayed o n f' e now)

variable {r r' : OutboxRecord P} {i : Nat} {l : List (OutboxRecord P)}

theorem id_eq_of_message (h : r'.message = r.message) : r'.id = r.id := by
  rw [← OutboxRecord.id_message, h, OutboxRecord.id_message]

theorem createdAt_eq_of_message (h : r'.message = r.message) : r'.createdAt = r.createdAt := by
  show r'.message.createdAt = r.message.createdAt
  rw [h]

theorem partitionKey_eq_of_message (h : r'.message = r.message) :
    r'.partitionKey = r.partitionKey := by
  show r'.message.partitionKey = r.message.partitionKey
  rw [h]

theorem staged_perm (hi : s.txs[i]? = some (some l)) :
    ∃ rest, s.staged.Perm (l ++ rest) ∧
      ∀ x, ((s.txs.set i x).flatMap (·.getD [])).Perm (x.getD [] ++ rest) := by
  refine ⟨(s.txs.eraseIdx i).flatMap (·.getD []), ?_, fun x => ?_⟩
  · exact (perm_eraseIdx hi).flatMap_right _
  · exact (set_perm hi x).flatMap_right _

theorem keys_subset (h : Inv s) : s.store.keys ⊆ s.saved.map (·.id) := by
  intro k hk
  obtain ⟨r, hr, rfl⟩ := Table.mem_keys.mp hk
  exact mem_map.mpr ⟨r.message, h.rows.subset (mem_map_of_mem hr), rfl⟩

theorem saved_subset (s : State P) : s.saved.map (·.id) ⊆ s.known := by
  unfold State.known
  exact map_subset _ (by simp [append_assoc])

theorem inv_append (h : Inv s) (new : Appends l s s') (hknown : s'.known.Nodup)
    (hfresh : ∀ r ∈ s'.staged, r.message = r) : Inv s' where
  known := hknown
  fresh := hfresh
  rows := by
    rw [new.rows, new.saved, map_append, map_congr_left new.fresh, map_id']
    exact h.rows.append_right l
  kept := by
    intro r hr
    rw [new.saved, mem_append] at hr
    rw [new.log, Table.keys, new.rows, map_append, mem_append]
    rcases hr with hr | hr
    · exact (h.kept r hr).imp_left .inl
    · exact .inl (.inr (mem_map_of_mem hr))
  published := by
    intro r hr hp
    rw [new.rows, mem_append] at hr
    rw [new.log]
    rcases hr with hr | hr
    · exact h.published r hr hp
    · rw [← new.fresh r hr] at hp
      cases hp
  own := by
    intro r hr
    rw [new.flushes] at hr
    obtain ⟨r', hr', hm⟩ := h.own r hr
    exact ⟨r', new.rows ▸ mem_append_left l hr', hm⟩
  once := new.flushes ▸ h.once
  settled := new.flushes ▸ h.settled

theorem rows_save (h : Inv s) (hid : r.id ∉ s.known) : (s.store.set r).rows = s.store.rows ++ [r] :=
  Table.rows_set_of_not_mem fun hk => hid (saved_subset s (keys_subset h hk))

theorem keys_sublist (h : Inv s) : s.store.keys.Sublist (s.saved.map (·.id)) := by
  have hmap : s.store.keys = (s.store.rows.map OutboxRecord.message).map (·.id) := by
    rw [map_map]
    rfl
  exact hmap ▸ h.rows.map _

theorem staged_new (h : Inv s) (hi : s.txs[i]? = some (some l)) :
    (s.saved.map (·.id) ++ l.map (·.id)).Nodup := by
  obtain ⟨rest, hold, -⟩ := staged_perm hi
  have hperm : (s.saved ++ s.dropped ++ s.staged).Perm (s.saved ++ l ++ (s.dropped ++ rest)) := by
    refine (hold.append_left _).trans ?_
    simp only [append_assoc]
    exact (perm_append_comm_assoc ..).append_left _
  refine List.Nodup.sublist ?_ ((hperm.map OutboxRecord.id).nodup_iff.mp h.known)
  rw [map_append, map_append]
  exact sublist_append_left ..

theorem rows_commit (h : Inv s) (hi : s.txs[i]? = some (some l)) :
    (l.foldl Table.set s.store).rows = s.store.rows ++ l :=
  Table.rows_foldl_set ((staged_new h hi).sublist ((keys_sublist h).append_right _))

theorem todos_nil (h : Inv s) (hover : ∀ f ∈ s.flushes, f.finished) : todos s.flushes = [] := by
  refine flatMap_eq_nil_iff.mpr fun f hf => ?_
  show f.todo = []
  simpa [Flush.finished, h.settled f hf] using hover f hf

theorem listPending_rows (limit : Int) (t : Store P) :
    (∀ r ∈ listPending limit t, r ∈ t.rows ∧ r.status = .pending) ∧
      ((listPending limit t).map (·.id)).Nodup := by
  obtain ⟨hsub, hp⟩ := collect_pending limit 0 [] (t.rows.insertionSort (·.createdAt ≤ ·.createdAt))
  refine ⟨fun r hr => ⟨(mem_insertionSort _).mp (hsub.subset hr), hp r hr⟩, ?_⟩
  refine List.Nodup.sublist (hsub.map _) ?_
  exact ((perm_insertionSort _ t.rows).map _).nodup_iff.mpr t.nodup

theorem todos_begin (h : Inv s) (hover : ∀ f ∈ s.flushes, f.finished) (origin : Store P)
    (pending : List (OutboxRecord P)) :
    (todos (s.flushes ++ [Flush.begin o origin pending])).Perm pending := by
  rw [todos, gather_snoc, show gather Lane.todo s.flushes = [] from todos_nil h hover]
  exact Flush.begin_todo o origin pending

theorem inv_flush (h : Inv s) {now : Int} (hb : Begins c o now s s') (hknown : s'.known.Nodup)
    (hfresh : ∀ r ∈ s'.staged, r.message = r) : Inv s' := by
  obtain ⟨p, hrows, hp⟩ := rows_prune c now s.store
  obtain ⟨hpend, hdist⟩ := listPending_rows o.batchSize (prunePublished c now s.store)
  have htodo := todos_begin (o := o) h hb.idle s.store
    (listPending o.batchSize (prunePublished c now s.store))
  rw [← hb.flushes] at htodo
  constructor
  case known => exact hknown
  case fresh => exact hfresh
  case rows =>
    rw [hb.store, hb.saved]
    exact (hrows ▸ filter_sublist.map _).trans h.rows
  case kept =>
    rw [hb.store, hb.saved, hb.log]
    intro r hr
    rcases h.kept r hr with hk | ⟨h₁, h₂⟩
    · by_cases hk' : r.id ∈ (prunePublished c now s.store).keys
      · exact .inl hk'
      · obtain ⟨r', hr', hid⟩ := Table.mem_keys.mp hk
        have hpub : r'.status = .published := by
          refine hp r' hr' (Bool.eq_false_iff.mpr fun hpr => hk' ?_)
          exact Table.mem_keys.mpr ⟨r', hrows ▸ mem_filter.mpr ⟨hr', hpr⟩, hid⟩
        refine .inr ⟨mem_append_right _ ?_,
          mem_append_left _ (hid ▸ h.published r' hr' hpub)⟩
        exact mem_map.mpr ⟨r', mem_filter.mpr ⟨hr', by simpa [hid] using hk'⟩, by
          rw [hid]⟩
    · exact .inr ⟨mem_append_left _ h₁, mem_append_left _ h₂⟩
  case published =>
    rw [hb.store, hb.log]
    intro r hr hs
    exact mem_append_left _ (h.published r (mem_prune hr) hs)
  case own =>
    intro r hr
    obtain ⟨hmem, hs⟩ := hpend r (htodo.subset hr)
    exact ⟨r, hb.store ▸ hmem, rfl, hs⟩
  case once => exact (htodo.map _).nodup_iff.mpr hdist
  case settled =>
    rw [hb.flushes]
    intro f hf
    rcases mem_append.mp hf with hf | hf
    · exact h.settled f hf
    · rw [mem_singleton.mp hf]
      rfl

/-- The step of a flush that marks the record `r`, which the store holds as `r'`. -/
structure Marks (o : Options X) (now : Int) (s s' : State P) (e : Effect P) (r r' : OutboxRecord P)
    (failure : Option String) : Prop where
  mem : r' ∈ s.store.rows
  message : r'.message = r.message
  pending : r'.status = .pending
  rows : s'.store.rows = s.store.rows.map (marked o.attemptLimit now r.id failure)
  todos : (r :: todos s'.flushes).Subperm (todos s.flushes)
  log : s'.log = s.log ++ answerEvents e ++
    match failure with
    | none => [.published r.id]
    | some _ => if (marked o.attemptLimit now r.id failure r').status = .failed
        then [.parked r.id] else []

section Relay

variable {n i : Nat} {a : Answer X} {now : Int} {f f' : Flush P (Store P)} {e : Effect P}

theorem mem_answerEvents {ev : Event} (h : ev ∈ answerEvents e) :
    (∃ r ∈ e.emitted, ev = .emitted r.id) ∨
      ∃ x ∈ e.outcomes, ev = if x.2 then .accepted x.1.id else .rejected x.1.id := by
  rcases mem_append.mp h with h | h
  · obtain ⟨r, hr, rfl⟩ := mem_map.mp h
    exact .inl ⟨r, hr, rfl⟩
  · obtain ⟨x, hx, rfl⟩ := mem_map.mp h
    exact .inr ⟨x, hx, rfl⟩

theorem answerEvents_ne {ev : Event} (h : ev ∈ answerEvents e) (k : String) :
    ev ≠ .published k ∧ ev ≠ .parked k ∧ ev ≠ .pruned k := by
  rcases mem_answerEvents h with ⟨r, -, rfl⟩ | ⟨x, -, rfl⟩
  · simp
  · split <;> simp

@[simp] theorem saved_relayed : (s.relayed o n f' e now).saved = s.saved := by
  unfold State.relayed
  split <;> rfl

@[simp] theorem dropped_relayed : (s.relayed o n f' e now).dropped = s.dropped := by
  unfold State.relayed
  split <;> rfl

@[simp] theorem txs_relayed : (s.relayed o n f' e now).txs = s.txs := by
  unfold State.relayed
  split <;> rfl

variable (o s n f' e now) in
theorem flushes_relayed : ∃ g : Flush P (Store P), g.origin = f'.origin ∧ g.lanes = f'.lanes ∧
    g.settled = f'.settled ∧ (s.relayed o n f' e now).flushes = s.flushes.set n g := by
  unfold State.relayed
  split
  · exact ⟨f', rfl, rfl, rfl, rfl⟩
  · exact ⟨f'.count _ _, rfl, rfl, rfl, rfl⟩

theorem log_relayed : s.log ⊆ (s.relayed o n f' e now).log := by
  unfold State.relayed
  split
  · exact subset_append_left ..
  · simp only [append_assoc]
    exact subset_append_left ..

variable (s n now f' e) in
theorem messages_relayed : (s.relayed o n f' e now).store.rows.map OutboxRecord.message =
    s.store.rows.map OutboxRecord.message := by
  unfold State.relayed
  split
  · rfl
  · rw [mark_rows, map_map]
    exact map_congr_left fun x _ => marked_message

theorem keys_relayed : (s.relayed o n f' e now).store.keys = s.store.keys := by
  have hmap := congrArg (map (·.id)) (messages_relayed (o := o) s n now f' e)
  rwa [map_map, map_map] at hmap

theorem mem_relayed {x : OutboxRecord P} (hx : x ∈ s.store.rows) (hp : x.status ≠ .pending) :
    x ∈ (s.relayed o n f' e now).store.rows := by
  unfold State.relayed
  split
  · exact hx
  · rw [mark_rows]
    exact mem_map.mpr ⟨x, hx, marked_of_not_pending hp⟩

theorem relayed_none (hm : e.mark = none) : s.relayed o n f' e now =
    { s with flushes := s.flushes.set n f', log := s.log ++ answerEvents e } := by
  rw [State.relayed, hm]

variable (now) in
theorem todos_relayed (hn : s.flushes[n]? = some f) (hf : f.step o i a = some (f', e)) :
    ((e.mark.map (·.1)).toList ++ todos (s.relayed o n f' e now).flushes).Subperm
      (todos s.flushes) := by
  obtain ⟨g, -, hlanes, -, heq⟩ := flushes_relayed o s n now f' e
  rw [heq, todos, gather_set_congr _ hlanes]
  exact step_todos hn hf

variable (now) in
theorem relayed_marks (h : Inv s) (hn : s.flushes[n]? = some f)
    (hf : f.step o i a = some (f', e)) {r : OutboxRecord P} {failure : Option String}
    (hm : e.mark = some (r, failure)) :
    ∃ r', Marks o now s (s.relayed o n f' e now) e r r' failure := by
  have hsub := todos_relayed now hn hf
  rw [hm] at hsub
  obtain ⟨r', hmem, hmsg, hpend⟩ := h.own r (hsub.subset mem_cons_self)
  have hres := mark_result o.attemptLimit now failure hmem (id_eq_of_message hmsg) hpend
  refine ⟨r', hmem, hmsg, hpend, ?_, hsub, ?_⟩
  · rw [State.relayed, hm]
    exact mark_rows
  · simp only [State.relayed, hm]
    cases failure with
    | none | some error => simp [markEvents, hres]

variable {r r' : OutboxRecord P} {failure : Option String}

theorem own_of_marks (h : Inv s) (hm : Marks o now s s' e r r' failure) {x : OutboxRecord P}
    (hx : x ∈ todos s'.flushes) :
    ∃ x' ∈ s'.store.rows, x'.message = x.message ∧ x'.status = .pending := by
  have hd := nodup_of_subperm (map_subperm hm.todos OutboxRecord.id) h.once
  rw [map_cons, nodup_cons] at hd
  have hne : x.id ≠ r.id := fun heq => hd.1 (heq ▸ mem_map_of_mem hx)
  obtain ⟨x', hx', hmsg, hp⟩ := h.own x (hm.todos.subset (mem_cons_of_mem r hx))
  refine ⟨x', ?_, hmsg, hp⟩
  rw [hm.rows]
  exact mem_map.mpr ⟨x', hx', marked_of_ne (by rw [id_eq_of_message hmsg]; exact hne)⟩

theorem inv_relay (h : Inv s) (hn : s.flushes[n]? = some f) (hf : f.step o i a = some (f', e))
    (ha : a.reported o) : Inv (s.relayed o n f' e now) := by
  have hsub := todos_relayed now hn hf
  constructor
  case known => simpa [State.known, State.staged] using h.known
  case fresh => simpa [State.staged] using h.fresh
  case rows =>
    rw [messages_relayed, saved_relayed]
    exact h.rows
  case kept =>
    intro x hx
    rw [keys_relayed]
    rw [saved_relayed] at hx
    exact (h.kept x hx).imp_right fun hx => ⟨log_relayed hx.1, log_relayed hx.2⟩
  case published =>
    intro x hx hs
    cases hm : e.mark with
    | none =>
      rw [relayed_none hm] at hx
      exact log_relayed (h.published x hx hs)
    | some m =>
      obtain ⟨r', hmarks⟩ := relayed_marks now h hn hf hm
      rw [hmarks.rows] at hx
      obtain ⟨y, hy, rfl⟩ := mem_map.mp hx
      rw [marked_id]
      by_cases hp : y.id = m.1.id ∧ y.status = .pending
      · obtain ⟨r, failure⟩ := m
        cases failure with
        | none =>
          rw [hp.1, hmarks.log]
          exact mem_append_right _ mem_cons_self
        | some error =>
          rw [marked_failed hp.1 hp.2] at hs
          exact absurd hs (Store.fail_status_ne error)
      · rw [show marked _ _ _ _ y = y from if_neg hp] at hs
        exact log_relayed (h.published y hy hs)
  case own =>
    intro x hx
    cases hm : e.mark with
    | none =>
      rw [relayed_none hm]
      exact h.own x (hsub.subset (mem_append_right _ hx))
    | some m =>
      obtain ⟨r', hmarks⟩ := relayed_marks now h hn hf hm
      exact own_of_marks h hmarks hx
  case once =>
    have hrest := (sublist_append_right ..).subperm.trans hsub
    exact nodup_of_subperm (map_subperm hrest _) h.once
  case settled =>
    obtain ⟨g, -, -, hg, heq⟩ := flushes_relayed o s n now f' e
    intro x hx
    rw [heq] at hx
    rcases mem_or_eq_of_mem_set hx with hx | rfl
    · exact h.settled x hx
    · rw [hg, Flush.step_settled hf ha]
      exact h.settled f (mem_of_getElem? hn)

end Relay

variable {r : OutboxRecord P} {i : Nat} {l : List (OutboxRecord P)}

theorem known_of_perm (h : Inv s)
    (hp : (s'.saved ++ s'.dropped ++ s'.staged).Perm (s.saved ++ s.dropped ++ s.staged)) :
    s'.known.Nodup :=
  (hp.map OutboxRecord.id).nodup_iff.mpr h.known

theorem known_of_new (h : Inv s) (hid : r.id ∉ s.known)
    (hp : (s'.saved ++ s'.dropped ++ s'.staged).Perm (r :: (s.saved ++ s.dropped ++ s.staged))) :
    s'.known.Nodup :=
  (hp.map OutboxRecord.id).nodup_iff.mpr (nodup_cons.mpr ⟨hid, h.known⟩)

theorem staged_without (h : Inv s) (hi : s.txs[i]? = some (some l)) :
    (∀ r ∈ l, r.message = r) ∧
      (∀ r ∈ (s.txs.set i none).flatMap (·.getD []), r.message = r) ∧
      s.staged.Perm (l ++ (s.txs.set i none).flatMap (·.getD [])) := by
  obtain ⟨rest, hold, hnew⟩ := staged_perm hi
  have hperm := hold.trans ((hnew none).symm.append_left l)
  exact ⟨fun r hr => h.fresh r (hperm.symm.subset (mem_append_left _ hr)),
    fun r hr => h.fresh r (hperm.symm.subset (mem_append_right _ hr)), hperm⟩

theorem step_change {act : Action P X} (h : Inv s) (hs : step c o s act = some s')
    (hok : reportable o s act) :
    Change c o s s' ∧ s'.known.Nodup ∧ ∀ r ∈ s'.staged, r.message = r := by
  have hsame : ∀ t : State P, t.store = s.store → t.saved = s.saved →
      t.flushes = s.flushes → t.log = s.log → Change c o s t := fun t h₁ h₂ h₃ h₄ =>
    .append [] ⟨by simp, by simp, by rw [h₁, append_nil], by rw [h₂, append_nil], h₃, h₄⟩
  cases act with
  | enqueue tx id serviceName method params partitionKey now =>
    simp only [step] at hs
    split at hs
    · cases hs
    · next hunknown =>
      let r : OutboxRecord P := { id, serviceName, method, params, partitionKey, createdAt := now }
      have hid : r.id ∉ s.known := hunknown
      cases tx with
      | none =>
        cases hs
        refine ⟨.append [r] ⟨forall_mem_singleton.mpr rfl, ?_, rows_save h hid, rfl, rfl, rfl⟩,
          known_of_new h hid ?_, h.fresh⟩
        · intro r hr hmem
          exact hid (saved_subset s (mem_singleton.mp hr ▸ hmem))
        · simp only [State.staged, append_assoc]
          exact perm_middle
      | some i =>
        dsimp only at hs
        split at hs
        · next staged hi =>
          cases hs
          obtain ⟨rest, hold, hnew⟩ := staged_perm hi
          have hperm := ((hnew (some (staged ++ [r]))).trans (by simp)).trans (hold.symm.cons r)
          refine ⟨hsame _ rfl rfl rfl rfl, known_of_new h hid
            ((hperm.append_left _).trans perm_middle), fun r hr => ?_⟩
          rcases mem_cons.mp (hperm.subset hr) with rfl | hr
          · rfl
          · exact h.fresh r hr
        · cases hs
  | beginTx =>
    cases hs
    refine ⟨hsame _ rfl rfl rfl rfl, ?_, ?_⟩
    · simpa [State.known, State.staged] using h.known
    · simpa [State.staged] using h.fresh
  | commit i =>
    simp only [step] at hs
    split at hs
    · next staged hi =>
      cases hs
      obtain ⟨hl, hrest, hperm⟩ := staged_without h hi
      refine ⟨.append staged ⟨hl, ?_, rows_commit h hi, rfl, rfl, rfl⟩, known_of_perm h ?_, hrest⟩
      · intro r hr hmem
        exact (nodup_append.mp (staged_new h hi)).2.2 _ hmem _ (mem_map_of_mem hr) rfl
      · refine (List.Perm.trans ?_ (hperm.symm.append_left _))
        simp only [append_assoc]
        exact (perm_append_comm_assoc ..).append_left _
    · cases hs
  | rollback i =>
    simp only [step] at hs
    split at hs
    · next staged hi =>
      cases hs
      obtain ⟨hl, hrest, hperm⟩ := staged_without h hi
      refine ⟨hsame _ rfl rfl rfl rfl, known_of_perm h ?_, hrest⟩
      exact List.Perm.trans (by simp only [append_assoc]; rfl) (hperm.symm.append_left _)
    · cases hs
  | flush now =>
    simp only [step] at hs
    split at hs
    · next hover =>
      cases hs
      exact ⟨.flush now ⟨by simpa using hover, rfl, rfl, rfl, rfl⟩, h.known, h.fresh⟩
    · cases hs
  | relay n i a now =>
    have hs' : (match s.flushes[n]? with
        | none => none
        | some f => (f.step o i a).map fun m => s.relayed o n m.1 m.2 now) = some s' := by
      cases a with
      | refused err => cases hok
      | _ => exact hs
    split at hs'
    · cases hs'
    · next f hn =>
      obtain ⟨⟨f', e⟩, hf, rfl⟩ := Option.map_eq_some_iff.mp hs'
      refine ⟨.relay n i a now f f' e hn hf hok rfl, ?_, ?_⟩
      · simpa [State.known, State.staged] using h.known
      · simpa [State.staged] using h.fresh

theorem inv_step {act : Action P X} (h : Inv s) (hs : step c o s act = some s')
    (hok : reportable o s act) : Inv s' := by
  obtain ⟨hc, hknown, hfresh⟩ := step_change h hs hok
  cases hc with
  | append l new => exact inv_append h new hknown hfresh
  | flush now new => exact inv_flush h new hknown hfresh
  | relay n i a now f f' e hn hf ha state =>
    subst state
    exact inv_relay h hn hf ha

theorem inv_reach (h : (machine c o).Reach (reportable o) s) : Inv s := by
  induction h with
  | init => exact ⟨nodup_nil, by simp [machine, State.staged], List.Sublist.refl _,
      by simp [machine], by simp [machine, Table.empty], by simp [machine, todos, gather],
      nodup_nil, by simp [machine]⟩
  | step _ hok hs ih => exact inv_step ih hs hok

end NevoMessaging.Outbox
