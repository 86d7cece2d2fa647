import Mathlib.Data.String.Basic
import NevoMessaging.Lib.Machine
import NevoMessaging.Lib.Pairs
import NevoMessaging.Lib.Table
import NevoMessaging.Outbox.Relay

/-!
# The Postgres outbox

Any number of outboxes over `PgOutboxStore`, each with a worker id of its own. A worker claims
rows by the statement of `listPending`, relays them as `flushOnce` does, and marks each of them
by a statement that requires the claim. The statements of all workers interleave in any order;
each one is executed atomically or rejected.

The statement of `listPending` leaves two things open. `ORDER BY created_at` does not say which
rows of equal time are cut off by the `LIMIT`, and `RETURNING` does not say in which order it
returns the rows. So the rows that Postgres has chosen are part of the action.

A row is not eligible while another worker has a claim on its partition, but the claims of the
worker itself do not count. After a failure the worker still has its claims on the rows behind
the failed one. Its next batch then gets the failed row and the rows that came in since, but not
those in between.

Results:
1. `eligible_ahead`: what the statement guarantees for the rows before a claimed one.
2. `inv_reach`: what a worker has still to do it has claimed, in order.
3. `pg_partition_order`: the order of the emissions, under a condition on the claims.
4. `pg_partition_order_broken`: a worker that meets its own claims.
-/

namespace NevoMessaging.Outbox.Pg

open List

variable {P W X : Type} [DecidableEq W]

/-! ## Statements -/

structure Row (P W : Type) where
  record : OutboxRecord P
  claimedAt : Option Int := none
  claimedBy : Option W := none
deriving DecidableEq

/-- The table, whose primary key is the id. -/
abbrev Rows (P W : Type) := Table fun row : Row P W => row.record.id

/-- An outbox with its store. -/
structure Worker (X : Type) where
  options : Options X
  claimTtlMs : Option Int := none

def Worker.ttl (k : Worker X) : Int := k.claimTtlMs.getD 60000

/-- `(created_at, id)` is smaller. -/
def Smaller (q r : OutboxRecord P) : Prop :=
  q.createdAt < r.createdAt ∨ (q.createdAt = r.createdAt ∧ q.id < r.id)

instance (q r : OutboxRecord P) : Decidable (Smaller q r) := inferInstanceAs (Decidable (_ ∨ _))

/-- The claim on the row is running. -/
def running (now ttl : Int) (row : Row P W) : Bool :=
  row.claimedAt.any fun t => now - ttl ≤ t

/-- A failed row of the partition is in front of `row`. -/
def behindFailed (rows : Rows P W) (row : Row P W) : Prop :=
  ∃ f ∈ rows.rows, SamePartition f.record row.record ∧ f.record.status = .failed ∧
    Smaller f.record row.record

/-- Another worker has a running claim on the partition. -/
def claimedByOther (rows : Rows P W) (w : W) (now ttl : Int) (row : Row P W) : Prop :=
  ∃ c ∈ rows.rows, SamePartition c.record row.record ∧ c.record.status = .pending ∧
    c.claimedBy ≠ none ∧ c.claimedBy ≠ some w ∧ running now ttl c

instance (rows : Rows P W) (row : Row P W) : Decidable (behindFailed rows row) :=
  inferInstanceAs (Decidable (∃ f ∈ rows.rows, _ ∧ _ ∧ _))

instance (rows : Rows P W) (w : W) (now ttl : Int) (row : Row P W) :
    Decidable (claimedByOther rows w now ttl row) :=
  inferInstanceAs (Decidable (∃ c ∈ rows.rows, _ ∧ _ ∧ _ ∧ _ ∧ _))

/-- The `WHERE` of `listPending`. -/
def eligible (rows : Rows P W) (w : W) (now ttl : Int) (row : Row P W) : Bool :=
  row.record.status = .pending && !running now ttl row &&
    (row.record.partitionKey.isNone ||
      (!decide (behindFailed rows row) && !decide (claimedByOther rows w now ttl row)))

/-- The ids in `chosen` are an outcome of `ORDER BY created_at ASC LIMIT limit`. -/
def IsPage (rows : Rows P W) (w : W) (now ttl limit : Int) (chosen : List String) : Prop :=
  let found := rows.rows.filter (eligible rows w now ttl)
  0 ≤ limit ∧ chosen.Nodup ∧ chosen ⊆ found.map (·.record.id) ∧
    chosen.length = min limit.toNat found.length ∧
    ∀ r ∈ found, r.record.id ∈ chosen → ∀ q ∈ found, q.record.id ∉ chosen →
      r.record.createdAt ≤ q.record.createdAt

instance (rows : Rows P W) (w : W) (now ttl limit : Int) (chosen : List String) :
    Decidable (IsPage rows w now ttl limit chosen) :=
  inferInstanceAs (Decidable (_ ∧ _ ∧ _ ∧ _ ∧ _))

namespace Rows

/-- `INSERT … ON CONFLICT (id) DO NOTHING`. -/
def save (rows : Rows P W) (r : OutboxRecord P) : Rows P W :=
  if h : r.id ∈ rows.keys then rows else rows.push { record := r } h

/-- The `UPDATE` of `listPending`. -/
def claim (rows : Rows P W) (w : W) (now : Int) (chosen : List String) : Rows P W :=
  rows.map (fun row => if row.record.id ∈ chosen then
      { row with claimedAt := some now, claimedBy := some w } else row)
    (by
      intro row
      split <;> rfl)

/-- What a statement of `markPublished` or `markFailed` sets in its row. -/
def marked (maxAttempts now : Int) (failure : Option String) (row : Row P W) : Row P W :=
  match failure with
  | none => { row with record := { row.record with status := .published, publishedAt := some now } }
  | some error =>
    { record := { row.record with
        status := if maxAttempts ≤ (row.record.attempts + 1 : Nat) then .failed else .pending
        attempts := row.record.attempts + 1
        lastError := some (error.take 4000).toString }
      claimedAt := none
      claimedBy := none }

/-- `WHERE id = $1 AND claimed_by = $2 AND status = 'pending'` of the two marks. -/
def owned (w : W) (id : String) (row : Row P W) : Bool :=
  row.record.id = id && row.claimedBy = some w && row.record.status = .pending

/-- `markPublished` and `markFailed`. -/
def mark (rows : Rows P W) (w : W) (maxAttempts now : Int) (id : String)
    (failure : Option String) : Rows P W × OutboxMarkResult :=
  (rows.map (fun row => if owned w id row then marked maxAttempts now failure row else row)
      (by
        intro row
        split
        · cases failure <;> rfl
        · rfl),
    match rows.rows.find? (owned w id) with
    | none =>
      { owned := false, status := if failure.isNone then .published else .pending, attempts := 0 }
    | some row =>
      { owned := true
        status := (marked maxAttempts now failure row).record.status
        attempts := (marked maxAttempts now failure row).record.attempts })

end Rows

/-! ## The machine -/

/-- Who flushes, and the table that the claim has found. -/
structure Origin (P W : Type) where
  worker : W
  rows : Rows P W

structure State (P W : Type) where
  rows : Rows P W := .empty
  flushes : List (Flush P (Origin P W)) := []

inductive Action (P W X : Type)
  | enqueue (id serviceName method : String) (params : P) (partitionKey : Option String)
      (createdAt : Int)
  | listPending (w : W) (now : Int) (chosen : List String)
  | relay (flush lane : Nat) (answer : Answer X) (now : Int)

/-- The records of the chosen rows, in the order in which they are returned. -/
def fetched (rows : Rows P W) (chosen : List String) : List (OutboxRecord P) :=
  chosen.filterMap fun id => (rows.get? id).map (·.record)

/-- The flush has made its step to `f'` with the effect `e`. -/
def State.relayed (k : W → Worker X) (s : State P W) (n : Nat) (f' : Flush P (Origin P W))
    (e : Effect P) (now : Int) : State P W :=
  match e.mark with
  | none => { s with flushes := s.flushes.set n f' }
  | some (r, failure) =>
    let w := f'.origin.worker
    let m := s.rows.mark w (k w).options.attemptLimit now r.id failure
    { rows := m.1, flushes := s.flushes.set n (f'.count failure m.2) }

def step (k : W → Worker X) (s : State P W) : Action P W X → Option (State P W)
  | .enqueue id serviceName method params partitionKey createdAt =>
    some { s with rows := s.rows.save { id, serviceName, method, params, partitionKey, createdAt } }
  | .listPending w now chosen =>
    if (s.flushes.all fun f => f.origin.worker ≠ w || f.finished) ∧
        IsPage s.rows w now (k w).ttl (k w).options.batchSize chosen then
      some {
        rows := s.rows.claim w now chosen
        flushes := s.flushes ++
          [.begin (k w).options { worker := w, rows := s.rows } (fetched s.rows chosen)] }
    else none
  | .relay n i a now =>
    match s.flushes[n]? with
    | none => none
    | some f => (f.step (k f.origin.worker).options i a).map fun m => s.relayed k n m.1 m.2 now

def machine (k : W → Worker X) : Machine (State P W) (Action P W X) where
  init := {}
  step := step k

/-- No claim has reached the time after which another worker may steal it. -/
def Unexpired (rows : Rows P W) (now ttl : Int) : Prop :=
  ∀ row ∈ rows.rows, row.record.status = .pending → row.claimedAt.all fun t => now - t < ttl

/-- For every row of a partition that is claimed, the worker has no older claim on a pending row
in front of it, and the eligible rows in front of it are claimed too and returned before it. -/
def PartitionWise (rows : Rows P W) (w : W) (now ttl : Int) (chosen : List String) : Prop :=
  ∀ r ∈ rows.rows, r.record.id ∈ chosen → ∀ q ∈ rows.rows, SamePartition q.record r.record →
    Smaller q.record r.record → q.record.status = .pending →
      q.claimedBy ≠ some w ∧
        (eligible rows w now ttl q → [q.record.id, r.record.id].Sublist chosen)

instance (rows : Rows P W) (now ttl : Int) : Decidable (Unexpired rows now ttl) :=
  inferInstanceAs (Decidable (∀ row ∈ rows.rows, _ → _))

instance (rows : Rows P W) (w : W) (now ttl : Int) (chosen : List String) :
    Decidable (PartitionWise rows w now ttl chosen) :=
  inferInstanceAs (Decidable (∀ r ∈ rows.rows, _ → ∀ q ∈ rows.rows, _ → _ → _ → _))

/-- What the workers rely on: no claim lasts too long. -/
def timely (k : W → Worker X) (s : State P W) : Action P W X → Prop
  | .listPending w now _ => Unexpired s.rows now (k w).ttl
  | _ => True

/-- What the order needs besides. -/
def orderly (k : W → Worker X) (s : State P W) : Action P W X → Prop
  | .listPending w now chosen =>
    Unexpired s.rows now (k w).ttl ∧ PartitionWise s.rows w now (k w).ttl chosen
  | _ => True

instance (k : W → Worker X) (s : State P W) (a : Action P W X) : Decidable (timely k s a) := by
  unfold timely
  split <;> infer_instance

instance (k : W → Worker X) (s : State P W) (a : Action P W X) : Decidable (orderly k s a) := by
  unfold orderly
  split <;> infer_instance

/-! ## What the statements do -/

section Statements

variable {rows : Rows P W} {w : W} {now ttl maxAttempts : Int} {id : String}
  {failure : Option String} {chosen : List String} {row : Row P W}

omit [DecidableEq W] in
theorem mem_save {r : OutboxRecord P} (h : row ∈ (rows.save r).rows) :
    row ∈ rows.rows ∨ row = { record := r } := by
  unfold Rows.save at h
  split at h
  · exact .inl h
  · exact (mem_append.mp h).imp_right mem_singleton.mp

omit [DecidableEq W] in
theorem save_mem {r : OutboxRecord P} (h : row ∈ rows.rows) : row ∈ (rows.save r).rows := by
  unfold Rows.save
  split
  · exact h
  · exact mem_append_left _ h

omit [DecidableEq W] in
theorem running_iff : running now ttl row = true ↔
    ∃ t, row.claimedAt = some t ∧ now - ttl ≤ t := by
  unfold running
  cases row.claimedAt <;> simp

theorem eligible_iff : eligible rows w now ttl row = true ↔
    row.record.status = .pending ∧ running now ttl row = false ∧
      (row.record.partitionKey ≠ none →
        ¬ behindFailed rows row ∧ ¬ claimedByOther rows w now ttl row) := by
  simp only [eligible, Bool.and_eq_true, decide_eq_true_eq, Bool.not_eq_true', Bool.or_eq_true,
    Option.isNone_iff_eq_none, decide_eq_false_iff_not, and_assoc, ne_eq]
  rw [or_iff_not_imp_left]

theorem smaller_trans {p q r : OutboxRecord P} (h : Smaller p q) (h' : Smaller q r) :
    Smaller p r := by
  rcases h with h | ⟨h, hid⟩
  · rcases h' with h' | ⟨h', -⟩
    · exact .inl (lt_trans h h')
    · exact .inl (h' ▸ h)
  · rcases h' with h' | ⟨h', hid'⟩
    · exact .inl (h ▸ h')
    · exact .inr ⟨h.trans h', lt_trans hid hid'⟩

theorem eligible_ahead {q r : Row P W} (hr : eligible rows w now ttl r)
    (hq : q ∈ rows.rows) (hp : SamePartition q.record r.record)
    (hlt : Smaller q.record r.record) (hclaim : q.claimedAt.isSome → q.claimedBy.isSome) :
    q.record.status = .published ∨ (q.record.status = .pending ∧
      (q.claimedBy = some w ∨ eligible rows w now ttl q)) := by
  obtain ⟨-, -, hfront⟩ := eligible_iff.mp hr
  obtain ⟨hfailed, hother⟩ := hfront hp.1
  cases hs : q.record.status with
  | published => exact .inl rfl
  | failed => exact absurd ⟨q, hq, hp, hs, hlt⟩ hfailed
  | pending =>
    refine .inr ⟨rfl, ?_⟩
    cases hrun : running now ttl q with
    | true =>
      have hat : q.claimedAt.isSome := by
        obtain ⟨t, ht, -⟩ := running_iff.mp hrun
        rw [ht, Option.isSome_some]
      by_cases hw : q.claimedBy = some w
      · exact .inl hw
      · refine absurd ⟨q, hq, hp, hs, ?_, hw, hrun⟩ hother
        exact Option.isSome_iff_ne_none.mp (hclaim hat)
    | false =>
      refine .inr (eligible_iff.mpr ⟨hs, hrun, fun _ => ⟨?_, ?_⟩⟩)
      · rintro ⟨f, hf, hfp, hfs, hflt⟩
        exact hfailed ⟨f, hf, ⟨hp.1, hfp.2.trans hp.2⟩, hfs, smaller_trans hflt hlt⟩
      · rintro ⟨c, hc, hcp, hrest⟩
        exact hother ⟨c, hc, ⟨hp.1, hcp.2.trans hp.2⟩, hrest⟩

theorem not_eligible_of_claimed (hs : row.record.status = .pending) (hat : row.claimedAt.isSome)
    (hr : row ∈ rows.rows) (hfree : Unexpired rows now ttl) :
    eligible rows w now ttl row = false := by
  refine Bool.eq_false_iff.mpr fun hel => ?_
  obtain ⟨t, ht⟩ := Option.isSome_iff_exists.mp hat
  have hlt : now - t < ttl := by
    have hall := hfree row hr hs
    rw [ht] at hall
    simpa using hall
  have hrun : running now ttl row = true := running_iff.mpr ⟨t, ht, by omega⟩
  rw [(eligible_iff.mp hel).2.1] at hrun
  cases hrun

omit [DecidableEq W] in
theorem mem_claim (h : row ∈ (rows.claim w now chosen).rows) :
    ∃ row₀ ∈ rows.rows, row.record = row₀.record ∧
      ((row₀.record.id ∉ chosen ∧ row = row₀) ∨ (row₀.record.id ∈ chosen ∧
        row = { row₀ with claimedAt := some now, claimedBy := some w })) := by
  obtain ⟨row₀, h₀, rfl⟩ := mem_map.mp h
  refine ⟨row₀, h₀, ?_⟩
  split
  · next hc => exact ⟨rfl, .inr ⟨hc, rfl⟩⟩
  · next hc => exact ⟨rfl, .inl ⟨hc, rfl⟩⟩

omit [DecidableEq W] in
variable (w now chosen) in
theorem claim_mem (h : row ∈ rows.rows) : ∃ row' ∈ (rows.claim w now chosen).rows,
    row'.record = row.record ∧ (row.record.id ∉ chosen → row' = row) ∧
      (row.record.id ∈ chosen → row'.claimedBy = some w) := by
  refine ⟨_, mem_map_of_mem h, ?_⟩
  split
  · next hc => exact ⟨rfl, fun hn => absurd hc hn, fun _ => rfl⟩
  · next hc => exact ⟨rfl, fun _ => rfl, fun hn => absurd hn hc⟩

theorem eligible_of_page {limit : Int} (h : IsPage rows w now ttl limit chosen)
    (hr : row ∈ rows.rows) (hc : row.record.id ∈ chosen) : eligible rows w now ttl row := by
  obtain ⟨row', hr', hid⟩ := mem_map.mp (h.2.2.1 hc)
  obtain ⟨hr', hel⟩ := mem_filter.mp hr'
  rwa [rows.eq_of_key_eq hr' hr hid] at hel

omit [DecidableEq W] in
theorem mem_fetched {r : OutboxRecord P} (h : r ∈ fetched rows chosen) :
    r.id ∈ chosen ∧ ∃ row ∈ rows.rows, row.record = r := by
  obtain ⟨k, hk, heq⟩ := mem_filterMap.mp h
  obtain ⟨row, hget, rfl⟩ := Option.map_eq_some_iff.mp heq
  obtain ⟨hr, hid⟩ := Table.get?_eq_some.mp hget
  exact ⟨hid ▸ hk, row, hr, rfl⟩

omit [DecidableEq W] in
theorem fetched_ids (h : chosen ⊆ rows.keys) : (fetched rows chosen).map (·.id) = chosen := by
  induction chosen with
  | nil => rfl
  | cons k chosen ih =>
    obtain ⟨row, hget⟩ := Option.isSome_iff_exists.mp (Table.isSome_get?.mpr (h mem_cons_self))
    have hid := (Table.get?_eq_some.mp hget).2
    rw [fetched, filterMap_cons_some (by rw [hget]; rfl), map_cons, hid]
    exact congrArg _ (ih (subset_of_cons_subset h))

theorem page_ids {limit : Int} (h : IsPage rows w now ttl limit chosen) :
    (fetched rows chosen).map (·.id) = chosen := by
  refine fetched_ids fun k hk => ?_
  obtain ⟨row, hrow, hid⟩ := mem_map.mp (h.2.2.1 hk)
  exact Table.mem_keys.mpr ⟨row, (mem_filter.mp hrow).1, hid⟩

theorem mem_mark (h : row ∈ (rows.mark w maxAttempts now id failure).1.rows) :
    ∃ row₀ ∈ rows.rows, (Rows.owned w id row₀ = false ∧ row = row₀) ∨
      (Rows.owned w id row₀ ∧ row = Rows.marked maxAttempts now failure row₀) := by
  obtain ⟨row₀, h₀, rfl⟩ := mem_map.mp h
  refine ⟨row₀, h₀, ?_⟩
  split
  · next ho => exact .inr ⟨ho, rfl⟩
  · next ho => exact .inl ⟨Bool.eq_false_iff.mpr ho, rfl⟩

theorem mark_mem (h : row ∈ rows.rows) (ho : Rows.owned w id row = false) :
    row ∈ (rows.mark w maxAttempts now id failure).1.rows :=
  mem_map.mpr ⟨row, h, if_neg (Bool.eq_false_iff.mp ho)⟩

theorem mark_mem_owned (h : row ∈ rows.rows) (ho : Rows.owned w id row) :
    Rows.marked maxAttempts now failure row ∈ (rows.mark w maxAttempts now id failure).1.rows :=
  mem_map.mpr ⟨row, h, if_pos ho⟩

end Statements

/-! ## Order in every run -/

/-- What is in front of a record of a partition in the table that its claim has found. -/
def Before (f : Flush P (Origin P W)) (q r : OutboxRecord P) : Prop :=
  (∃ row ∈ f.origin.rows.rows, row.record = q) ∧ SamePartition q r ∧ Smaller q r

def Done (s : State P W) (q : OutboxRecord P) : Prop :=
  ∃ row ∈ s.rows.rows, row.record.id = q.id ∧ row.record.status = .published

/-- What a worker has still to do it has claimed, no row is in two lanes, and the lanes are in
order. -/
structure Inv (s : State P W) : Prop where
  claims : ∀ row ∈ s.rows.rows, row.claimedAt.isSome ↔ row.claimedBy.isSome
  own : ∀ f ∈ s.flushes, ∀ r ∈ f.todo, ∃ row ∈ s.rows.rows, row.record.id = r.id ∧
    row.record.status = .pending ∧ row.claimedBy = some f.origin.worker
  once : ((todos s.flushes).map (·.id)).Nodup
  listed : ∀ f ∈ s.flushes, ∀ r ∈ f.todo, ∃ row ∈ f.origin.rows.rows, row.record = r
  lanes : ∀ f ∈ s.flushes, ∀ x ∈ f.lanes, InOrder (Before f) (Done s) x

variable {k : W → Worker X} {s : State P W}

omit [DecidableEq W] in
theorem inv_save (h : Inv s) (r : OutboxRecord P) : Inv { s with rows := s.rows.save r } where
  claims := by
    intro row hrow
    rcases mem_save hrow with hrow | rfl
    · exact h.claims row hrow
    · exact iff_of_false (by simp) (by simp)
  own := by
    intro f hf x hx
    obtain ⟨row, hrow, hrest⟩ := h.own f hf x hx
    exact ⟨row, save_mem hrow, hrest⟩
  once := h.once
  listed := h.listed
  lanes := by
    intro f hf x hx
    refine (h.lanes f hf x hx).mono fun q ⟨row, hrow, hrest⟩ => ?_
    exact ⟨row, save_mem hrow, hrest⟩

section Page

variable {w : W} {now : Int} {chosen : List String} (h : Inv s)
  (hpage : IsPage s.rows w now (k w).ttl (k w).options.batchSize chosen)
  (hfree : Unexpired s.rows now (k w).ttl)
  (hwise : PartitionWise s.rows w now (k w).ttl chosen)

include h hpage

include hfree in
theorem not_chosen {f : Flush P (Origin P W)} (hf : f ∈ s.flushes) {r : OutboxRecord P}
    (hr : r ∈ f.todo) :
    r.id ∉ chosen := by
  intro hc
  obtain ⟨row, hrow, hid, hs, hw⟩ := h.own f hf r hr
  have hel := eligible_of_page hpage hrow (hid ▸ hc)
  have hat : row.claimedAt.isSome := (h.claims row hrow).mpr (by rw [hw, Option.isSome_some])
  rw [not_eligible_of_claimed hs hat hrow hfree] at hel
  cases hel

include hwise in
theorem begin_ahead {ys zs : List (OutboxRecord P)} {r : OutboxRecord P}
    (heq : fetched s.rows chosen = ys ++ r :: zs) {q : Row P W} (hq : q ∈ s.rows.rows)
    (hp : SamePartition q.record r) (hlt : Smaller q.record r) :
    q.record.status = .published ∨ q.record ∈ ys := by
  obtain ⟨hc, row, hrow, rfl⟩ := mem_fetched (heq ▸ by simp : r ∈ fetched s.rows chosen)
  have hel := eligible_of_page hpage hrow hc
  rcases eligible_ahead hel hq hp hlt (h.claims q hq).mp with hs | ⟨hs, hw | hqel⟩
  · exact .inl hs
  · exact absurd hw (hwise row hrow hc q hq hp hlt hs).1
  · have hids := page_ids hpage
    have hsub := (hwise row hrow hc q hq hp hlt hs).2 hqel
    have hd := hpage.2.1
    rw [← hids, heq, map_append, map_cons] at hsub hd
    obtain ⟨q', hq', hid⟩ := mem_map.mp (Pairs.mem_left hd hsub)
    obtain ⟨-, row', hrow', rfl⟩ := mem_fetched (heq ▸ mem_append_left _ hq' :
      q' ∈ fetched s.rows chosen)
    exact .inr (s.rows.eq_of_key_eq hrow' hq hid ▸ hq')

include hfree hwise in
theorem inv_claim :
    Inv {
      rows := s.rows.claim w now chosen
      flushes := s.flushes ++
        [.begin (k w).options { worker := w, rows := s.rows } (fetched s.rows chosen)] } := by
  have hids := page_ids hpage
  have htodo := Flush.begin_todo (k w).options (⟨w, s.rows⟩ : Origin P W) (fetched s.rows chosen)
  have hdone : ∀ q, Done s q → Done (⟨s.rows.claim w now chosen, s.flushes ++
      [.begin (k w).options { worker := w, rows := s.rows } (fetched s.rows chosen)]⟩ :
        State P W) q := by
    rintro q ⟨row, hrow, hid, hs⟩
    obtain ⟨row', hrow', hrec, -⟩ := claim_mem w now chosen hrow
    exact ⟨row', hrow', hrec ▸ hid, hrec ▸ hs⟩
  constructor
  case claims =>
    intro row hrow
    obtain ⟨row₀, h₀, -, ⟨-, rfl⟩ | ⟨-, rfl⟩⟩ := mem_claim hrow
    · exact h.claims row h₀
    · exact iff_of_true rfl rfl
  case own =>
    intro f hf r hr
    rcases mem_append.mp hf with hf | hf
    · obtain ⟨row, hrow, hid, hrest⟩ := h.own f hf r hr
      obtain ⟨row', hrow', -, hsame, -⟩ := claim_mem w now chosen hrow
      have hnot := not_chosen h hpage hfree hf hr
      rw [hsame (hid ▸ hnot)] at hrow'
      exact ⟨row, hrow', hid, hrest⟩
    · rw [mem_singleton.mp hf] at hr ⊢
      obtain ⟨hc, row, hrow, rfl⟩ := mem_fetched (htodo.subset hr)
      obtain ⟨row', hrow', hrec, -, hw⟩ := claim_mem w now chosen hrow
      have hel := eligible_of_page hpage hrow hc
      exact ⟨row', hrow', congrArg _ hrec, hrec ▸ (eligible_iff.mp hel).1, hw hc⟩
  case once =>
    rw [todos, gather_snoc, map_append]
    refine nodup_append.mpr ⟨h.once, ?_, ?_⟩
    · refine (htodo.map _).nodup_iff.mpr ?_
      rw [hids]
      exact hpage.2.1
    · intro x hx y hy hxy
      obtain ⟨r, hr, rfl⟩ := mem_map.mp hx
      obtain ⟨f, hf, hr⟩ := mem_flatMap.mp hr
      obtain ⟨r', hr', rfl⟩ := mem_map.mp hy
      exact not_chosen h hpage hfree hf hr (hxy ▸ (mem_fetched (htodo.subset hr')).1)
  case listed =>
    intro f hf r hr
    rcases mem_append.mp hf with hf | hf
    · exact h.listed f hf r hr
    · rw [mem_singleton.mp hf] at hr ⊢
      exact (mem_fetched (htodo.subset hr)).2
  case lanes =>
    intro f hf
    rcases mem_append.mp hf with hf | hf
    · exact fun x hx => (h.lanes f hf x hx).mono hdone
    · rw [mem_singleton.mp hf]
      refine Flush.begin_inOrder (fun q r hb => hb.2.1) fun ys r zs heq q hb => ?_
      obtain ⟨⟨row, hrow, rfl⟩, hp, hlt⟩ := hb
      refine (begin_ahead h hpage hwise heq hrow hp hlt).imp_left fun hs => ?_
      exact hdone _ ⟨row, hrow, rfl, hs⟩

end Page

section Relay

variable {n i : Nat} {a : Answer X} {now : Int} {f f' : Flush P (Origin P W)} {e : Effect P}
  {r : OutboxRecord P} {row : Row P W}

variable (k s n now f' e) in
theorem flushes_relayed : ∃ g : Flush P (Origin P W), g.origin = f'.origin ∧ g.lanes = f'.lanes ∧
    (s.relayed k n f' e now).flushes = s.flushes.set n g := by
  unfold State.relayed
  split
  · exact ⟨f', rfl, rfl, rfl⟩
  · exact ⟨f'.count _ _, rfl, rfl, rfl⟩

theorem done_relayed {q : OutboxRecord P} (hq : Done s q) :
    Done (s.relayed k n f' e now) q := by
  obtain ⟨row, hrow, hid, hs⟩ := hq
  refine ⟨row, ?_, hid, hs⟩
  unfold State.relayed
  split
  · exact hrow
  · exact mark_mem hrow (by simp [Rows.owned, hs])

omit [DecidableEq W] in
theorem claims_marked {maxAttempts : Int} {failure : Option String}
    (h : row.claimedAt.isSome ↔ row.claimedBy.isSome) :
    (Rows.marked maxAttempts now failure row).claimedAt.isSome ↔
      (Rows.marked maxAttempts now failure row).claimedBy.isSome := by
  cases failure with
  | none => exact h
  | some error => exact iff_of_false (by simp [Rows.marked]) (by simp [Rows.marked])

variable (h : Inv s) (hn : s.flushes[n]? = some f)
  (hf : f.step (k f.origin.worker).options i a = some (f', e))

include hn hf

theorem mem_flushes_relayed {g : Flush P (Origin P W)}
    (hg : g ∈ (s.relayed k n f' e now).flushes) :
    ∃ g₀ ∈ s.flushes, g.origin = g₀.origin ∧ g.todo ⊆ g₀.todo ∧
      (g.lanes = g₀.lanes ∨ (g₀ = f ∧ g.lanes = f'.lanes)) := by
  obtain ⟨g', horigin, hlanes, heq⟩ := flushes_relayed k s n now f' e
  exact mem_step_flushes hn hf horigin hlanes (heq ▸ hg)

include h

variable (now) in
theorem relayed_mark {failure : Option String} (hm : e.mark = some (r, failure)) :
    (∃ row ∈ s.rows.rows, Rows.owned f.origin.worker r.id row) ∧
      (s.relayed k n f' e now).rows = (s.rows.mark f.origin.worker
        (k f.origin.worker).options.attemptLimit now r.id failure).1 ∧
      (r :: todos (s.relayed k n f' e now).flushes).Subperm (todos s.flushes) := by
  refine ⟨?_, ?_, ?_⟩
  · have hsub := Flush.step_todo hf
    rw [hm] at hsub
    obtain ⟨row, hrow, hid, hs, hw⟩ := h.own f (mem_of_getElem? hn) r (hsub.subset mem_cons_self)
    exact ⟨row, hrow, by simp [Rows.owned, hid, hs, hw]⟩
  · rw [State.relayed, hm, (Flush.step_lanes hf).1]
  · obtain ⟨g, -, hlanes, heq⟩ := flushes_relayed k s n now f' e
    rw [heq, todos, gather_set_congr _ hlanes]
    have hsub := step_todos hn hf
    rwa [hm] at hsub

theorem own_relayed (hr : r ∈ todos (s.relayed k n f' e now).flushes) (hrow : row ∈ s.rows.rows)
    (hid : row.record.id = r.id) : row ∈ (s.relayed k n f' e now).rows.rows := by
  cases hm : e.mark with
  | none =>
    rw [State.relayed, hm]
    exact hrow
  | some m =>
    obtain ⟨r₀, failure⟩ := m
    obtain ⟨-, hrows, hsub⟩ := relayed_mark now h hn hf hm
    have hd := nodup_of_subperm (map_subperm hsub OutboxRecord.id) h.once
    rw [map_cons, nodup_cons] at hd
    have hne : r.id ≠ r₀.id := fun heq => hd.1 (heq ▸ mem_map_of_mem hr)
    rw [hrows]
    exact mark_mem hrow (by simp [Rows.owned, hid, hne])

theorem inv_relay : Inv (s.relayed k n f' e now) := by
  constructor
  case claims =>
    intro row hrow
    cases hm : e.mark with
    | none =>
      rw [State.relayed, hm] at hrow
      exact h.claims row hrow
    | some m =>
      rw [(relayed_mark _ h hn hf hm).2.1] at hrow
      obtain ⟨row₀, h₀, ⟨-, rfl⟩ | ⟨-, rfl⟩⟩ := mem_mark hrow
      · exact h.claims row h₀
      · exact claims_marked (h.claims row₀ h₀)
  case own =>
    intro g hg r hr
    obtain ⟨g₀, hg₀, horigin, hsub, -⟩ := mem_flushes_relayed hn hf hg
    obtain ⟨row, hrow, hid, hrest⟩ := h.own g₀ hg₀ r (hsub hr)
    rw [horigin]
    exact ⟨row, own_relayed h hn hf (mem_flatMap.mpr ⟨g, hg, hr⟩) hrow hid, hid, hrest⟩
  case once =>
    obtain ⟨g, -, hlanes, heq⟩ := flushes_relayed k s n now f' e
    rw [heq, todos, gather_set_congr _ hlanes]
    have hsub := (sublist_append_right ..).subperm.trans (step_todos hn hf)
    exact nodup_of_subperm (map_subperm hsub _) h.once
  case listed =>
    intro g hg r hr
    obtain ⟨g₀, hg₀, horigin, hsub, -⟩ := mem_flushes_relayed hn hf hg
    rw [horigin]
    exact h.listed g₀ hg₀ r (hsub hr)
  case lanes =>
    intro g hg x hx
    obtain ⟨g₀, hg₀, horigin, -, hlanes⟩ := mem_flushes_relayed hn hf hg
    have hbefore : Before g = Before g₀ := by
      unfold Before
      rw [horigin]
    rw [hbefore]
    rcases hlanes with hlanes | ⟨rfl, hlanes⟩
    · exact (h.lanes g₀ hg₀ x (hlanes ▸ hx)).mono fun q => done_relayed
    · refine Flush.step_inOrder hf (h.lanes g₀ hg₀) (fun q => done_relayed) ?_ x (hlanes ▸ hx)
      intro r hm
      obtain ⟨⟨row, hrow, ho⟩, hrows, -⟩ := relayed_mark now h hn hf hm
      refine ⟨_, hrows ▸ mark_mem_owned hrow ho, ?_, rfl⟩
      simp only [Rows.owned, Bool.and_eq_true, decide_eq_true_eq] at ho
      exact ho.1.1

end Relay

theorem inv_step {s' : State P W} {act : Action P W X} (h : Inv s) (hs : step k s act = some s')
    (hok : orderly k s act) : Inv s' := by
  cases act with
  | enqueue id serviceName method params partitionKey createdAt =>
    cases hs
    exact inv_save h _
  | listPending w now chosen =>
    simp only [step] at hs
    split at hs
    · next hpage =>
      cases hs
      exact inv_claim h hpage.2 hok.1 hok.2
    · cases hs
  | relay n i a now =>
    simp only [step] at hs
    split at hs
    · cases hs
    · next f hn =>
      obtain ⟨⟨f', e⟩, hf, rfl⟩ := Option.map_eq_some_iff.mp hs
      exact inv_relay h hn hf

theorem inv_reach (h : (machine k).Reach (orderly k) s) : Inv s := by
  induction h with
  | init => constructor <;> simp [machine, todos, gather, Table.empty]
  | step _ hok hs ih => exact inv_step ih hs hok

/-- The records that an action passes to the publisher, each with its flush. -/
def emissions (k : W → Worker X) (s : State P W) :
    Action P W X → List (Flush P (Origin P W) × OutboxRecord P)
  | .relay n i a _ => match s.flushes[n]? with
    | none => []
    | some f => match f.step (k f.origin.worker).options i a with
      | none => []
      | some (_, e) => e.emitted.map fun r => (f, r)
  | _ => []

omit [DecidableEq W] in
theorem mem_emissions {act : Action P W X} {f : Flush P (Origin P W)} {r : OutboxRecord P}
    (h : (f, r) ∈ emissions k s act) :
    ∃ i a f' e, f ∈ s.flushes ∧ f.step (k f.origin.worker).options i a = some (f', e) ∧
      r ∈ e.emitted := by
  cases act with
  | relay n i a now =>
    simp only [emissions] at h
    split at h
    · cases h
    · next g hn =>
      split at h
      · cases h
      · next f' e hf =>
        obtain ⟨r', hr', heq⟩ := mem_map.mp h
        cases heq
        exact ⟨i, a, f', e, mem_of_getElem? hn, hf, hr'⟩
  | _ => cases h

/-- Whenever the publisher is asked to emit a record of a partition, the records of the partition
with smaller `(created_at, id)` that were in the table when it was claimed are published, in every
run whose claims are made in time and partition by partition. -/
theorem pg_partition_order (k : W → Worker X) {s : State P W}
    (h : (machine k).Reach (orderly k) s) {act : Action P W X} {f : Flush P (Origin P W)}
    {r : OutboxRecord P} (he : (f, r) ∈ emissions k s act) :
    (∃ row ∈ f.origin.rows.rows, row.record = r) ∧
      ∀ q ∈ f.origin.rows.rows, SamePartition q.record r → Smaller q.record r →
        ∃ row ∈ s.rows.rows, row.record.id = q.record.id ∧ row.record.status = .published := by
  obtain ⟨i, a, f', e, hf, hstep, hr⟩ := mem_emissions he
  have hi := inv_reach h
  refine ⟨hi.listed f hf r (Flush.step_emitted hstep hr), fun q hq hp hlt => ?_⟩
  exact Flush.emits_inOrder hstep (hi.lanes f hf) hr ⟨⟨q, hq, rfl⟩, hp, hlt⟩

/-- One worker with the default options, whose publisher rejects with errors. -/
def single : Unit → Worker Unit := fun _ => { options := { messageOf := fun _ => some "down" } }

def place (id : String) (createdAt : Int) : Action Unit Unit Unit :=
  .enqueue id "orders" "order.changed" () (some "o-1") createdAt

/-- The next step of the flush `n` emits a record after one of its partition with `p` that has
smaller `(created_at, id)`. -/
def emitsLater (n : Nat) (p : State Unit Unit → OutboxRecord Unit → Bool)
    (s : State Unit Unit) : Bool :=
  (emissions single s (.relay n 0 .go 30)).any fun x =>
    x.1.origin.rows.rows.any fun q =>
      decide (SamePartition q.record x.2) && (decide (Smaller q.record x.2) && p s q.record)

theorem emitsLater_spec {n : Nat} {p : State Unit Unit → OutboxRecord Unit → Bool}
    {s : State Unit Unit} (h : emitsLater n p s = true) :
    ∃ act f r, (f, r) ∈ emissions single s act ∧ ∃ q ∈ f.origin.rows.rows,
      SamePartition q.record r ∧ Smaller q.record r ∧ p s q.record := by
  simp only [emitsLater, any_eq_true, Bool.and_eq_true, decide_eq_true_eq] at h
  obtain ⟨⟨f, r⟩, he, q, hq, hp, hlt, hpq⟩ := h
  exact ⟨_, f, r, he, q, hq, hp, hlt, hpq⟩

theorem pg_partition_order_second :
    ∃ s : State Unit Unit, (machine single).Reach (orderly single) s ∧
      ∃ act f r, (f, r) ∈ emissions single s act ∧ ∃ q ∈ f.origin.rows.rows,
        SamePartition q.record r ∧ Smaller q.record r ∧
          ∃ row ∈ s.rows.rows, row.record.id = q.record.id ∧ row.record.status = .published := by
  obtain ⟨s, hs, hobs⟩ := Machine.Reach.observe (machine single) (orderly single)
    [place "1" 1, place "2" 2, .listPending () 10 ["1", "2"],
      .relay 0 0 .go 10, .relay 0 0 .resolved 11, .relay 0 0 .stored 11]
    (emitsLater 0 fun _ _ => true) true (by decide +kernel)
  obtain ⟨act, f, r, he, q, hq, hp, hlt, -⟩ := emitsLater_spec hobs
  exact ⟨s, hs, act, f, r, he, q, hq, hp, hlt, (pg_partition_order single hs he).2 q hq hp hlt⟩

/-! ## A worker that meets its own claims -/

/-- The first of two records fails and is released; the second one stays claimed. The next batch
consists of the first record and of one that came in since. -/
def leftover : List (Action Unit Unit Unit) :=
  [place "1" 1, place "2" 2, .listPending () 10 ["1", "2"],
    .relay 0 0 .go 10, .relay 0 0 (.rejected ()) 11, .relay 0 0 .stored 11,
    place "3" 3, .listPending () 20 ["1", "3"],
    .relay 1 0 .go 20, .relay 1 0 .resolved 21, .relay 1 0 .stored 21]

/-- The third record overtakes the second one, though no claim has expired. -/
theorem pg_partition_order_broken :
    ∃ s : State Unit Unit, (machine single).Reach (timely single) s ∧
      ∃ act f r, (f, r) ∈ emissions single s act ∧ ∃ q ∈ f.origin.rows.rows,
        SamePartition q.record r ∧ Smaller q.record r ∧
          ¬ ∃ row ∈ s.rows.rows, row.record.id = q.record.id ∧ row.record.status = .published := by
  obtain ⟨s, hs, hobs⟩ := Machine.Reach.observe (machine single) (timely single) leftover
    (emitsLater 1 fun s q => decide
      (¬ ∃ row ∈ s.rows.rows, row.record.id = q.id ∧ row.record.status = .published)) true
    (by decide +kernel)
  obtain ⟨act, f, r, he, q, hq, hp, hlt, hnot⟩ := emitsLater_spec hobs
  exact ⟨s, hs, act, f, r, he, q, hq, hp, hlt, of_decide_eq_true hnot⟩

end NevoMessaging.Outbox.Pg
