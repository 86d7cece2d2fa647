import Mathlib.Data.List.Flatten
import Mathlib.Data.List.Induction
import Mathlib.Data.List.Nodup
import Mathlib.Data.List.Perm.Subperm

/-!
# The relay of the outbox

`flushOnce` from the records that `listPending` has returned to its end. The records without
a partition key are relayed first, one after the other or as one batch. Then `mapLimit`
relays the partitions, a bounded number of them at the same time, each one record after the
other up to its first failure.

A sequential part of this is a `Lane`: its place in the loop and what it has still to do. It
is cut where it waits for the publisher and for the store, so the steps of different lanes
interleave in any order. A `Flush` is a flush with all of its lanes. A rejection of the
publisher is reported by `err?.message ?? String(err)`, which itself throws for a value
without a string form. Then the flush rejects at once, and the other lanes of `mapLimit` go on
without it.

Results:
1. `Flush.step_lanes`: what a step of a flush does to its lanes.
2. `step_todos`: a flush marks the records that it was given, each at most once.
3. `step_owes`, `step_opens`: the emissions, the answers of the publisher and the marks balance.
4. `Flush.step_inOrder`, `Flush.emits_inOrder`: a partition in order is emitted in order.
-/

namespace NevoMessaging.Outbox

open List

variable {P X S : Type}

/-! ## Records -/

inductive OutboxStatus
  | pending
  | published
  | failed
deriving DecidableEq, Repr

structure OutboxRecord (P : Type) where
  id : String
  serviceName : String
  method : String
  params : P
  createdAt : Int
  publishedAt : Option Int := none
  attempts : Nat := 0
  status : OutboxStatus := .pending
  lastError : Option String := none
  partitionKey : Option String := none
deriving DecidableEq, Repr

structure OutboxMarkResult where
  owned : Bool
  status : OutboxStatus
  attempts : Nat
deriving DecidableEq, Repr

structure OutboxBatchResult where
  ok : Bool
  error : Option String := none
deriving DecidableEq, Repr

/-- The options of an outbox and its publisher. `messageOf` is `err?.message ?? String(err)`,
which is undefined where it throws. -/
structure Options (X : Type) where
  batch : Option Int := none
  maxAttempts : Option Int := none
  partitionConcurrency : Option Int := none
  emitBatch : Bool := false
  messageOf : X → Option String

namespace Options

def batchSize (o : Options X) : Int := o.batch.getD 50

def attemptLimit (o : Options X) : Int := o.maxAttempts.getD 5

def concurrency (o : Options X) : Int := o.partitionConcurrency.getD 8

end Options

/-! ## Partitions -/

/-- Adds a record to the partition of its key, or opens one behind the others. -/
def addTo (key : String) (r : OutboxRecord P) :
    List (String × List (OutboxRecord P)) → List (String × List (OutboxRecord P))
  | [] => [(key, [r])]
  | (k, part) :: parts =>
    if k = key then (k, part ++ [r]) :: parts else (k, part) :: addTo key r parts

/-- The map from keys to partitions, in the order of the first records. -/
def byKey (records : List (OutboxRecord P)) : List (String × List (OutboxRecord P)) :=
  records.foldl (fun parts r => match r.partitionKey with
    | none => parts
    | some key => addTo key r parts) []

/-- The partitions, and the records without a key. -/
def partitionRecords (records : List (OutboxRecord P)) :
    List (List (OutboxRecord P)) × List (OutboxRecord P) :=
  ((byKey records).map (·.2), records.filter fun r => r.partitionKey.isNone)

/-! ## Lanes -/

/-- Where a sequential part of a flush stands. `marking` and `marks` keep the error of a
record that was not accepted; `none` is success. -/
inductive Lane (P : Type)
  | next (rest : List (OutboxRecord P))
  | emitting (record : OutboxRecord P) (rest : List (OutboxRecord P))
  | marking (record : OutboxRecord P) (failure : Option String) (rest : List (OutboxRecord P))
  | batch (records : List (OutboxRecord P))
  | batching (records : List (OutboxRecord P))
  | marks (owed : List (OutboxRecord P × Option String))

/-- What a lane is told: that its turn has come, what the publisher has answered, that the
store has executed its statement, or that the store has rejected it. -/
inductive Answer (X : Type)
  | go
  | resolved
  | batchResolved (results : Option (List (Option OutboxBatchResult)))
  | rejected (err : X)
  | stored
  | refused (err : X)

/-- What a step of a lane does to its surroundings: the records that it passes to the
publisher, those that the publisher has accepted or not, and the record that it marks. -/
structure Effect (P : Type) where
  emitted : List (OutboxRecord P) := []
  outcomes : List (OutboxRecord P × Bool) := []
  mark : Option (OutboxRecord P × Option String) := none

/-- The failure of an item of a batch, whose result may be missing. -/
def batchFailure : Option OutboxBatchResult → Option String
  | none => some "emitBatch returned no result for this item"
  | some res => if res.ok then none else some (res.error.getD "emitBatch reported failure")

/-- The outcome of each record of a batch. A publisher that returns no array has accepted
all of them. -/
def batchMarks (records : List (OutboxRecord P)) :
    Option (List (Option OutboxBatchResult)) → List (OutboxRecord P × Option String)
  | none => records.map fun r => (r, none)
  | some results => records.mapIdx fun i r => (r, batchFailure (results[i]?).join)

/-- What the publisher has said of a record, without the text of the error. -/
def outcome (x : OutboxRecord P × Option String) : OutboxRecord P × Bool := (x.1, x.2.isNone)

/-- A step of a lane. The lane is gone if it throws. In a partition (`ordered`) the first
failure ends the loop. -/
def Lane.step (o : Options X) (ordered : Bool) :
    Lane P → Answer X → Option (Option (Lane P) × Effect P)
  | .next (r :: rest), .go => some (some (.emitting r rest), { emitted := [r] })
  | .emitting r rest, .resolved => some (some (.marking r none rest), { outcomes := [(r, true)] })
  | .emitting r rest, .rejected err => some
    ((o.messageOf err).map fun message => .marking r (some message) rest,
      { outcomes := [(r, false)] })
  | .marking r failure rest, .stored => some
    (some (.next (if ordered && failure.isSome then [] else rest)), { mark := some (r, failure) })
  | .marking r none rest, .refused err => some
    -- `markPublished` stands inside the `try`, so its rejection is that of the record
    ((o.messageOf err).map fun message => .marking r (some message) rest, {})
  | .marking _ (some _) _, .refused _ => some (none, {})
  | .batch records, .go => some (some (.batching records), { emitted := records })
  | .batching records, .batchResolved results => some
    (some (.marks (batchMarks records results)),
      { outcomes := (batchMarks records results).map outcome })
  | .batching records, .rejected err => some
    ((o.messageOf err).map fun message => .marks (records.map fun r => (r, some message)),
      { outcomes := records.map fun r => (r, false) })
  | .marks (x :: owed), .stored => some (some (.marks owed), { mark := some x })
  | .marks (_ :: _), .refused _ => some (none, {})
  | _, _ => none

/-- The records that a lane has not marked yet. -/
def Lane.todo : Lane P → List (OutboxRecord P)
  | .next rest => rest
  | .emitting r rest => r :: rest
  | .marking r _ rest => r :: rest
  | .batch records => records
  | .batching records => records
  | .marks owed => owed.map (·.1)

/-- The records that a lane has passed to the publisher without an answer yet. -/
def Lane.opened : Lane P → List (OutboxRecord P)
  | .emitting r _ => [r]
  | .batching records => records
  | _ => []

/-- The outcomes that a lane has still to report to the store. -/
def Lane.owed : Lane P → List (OutboxRecord P × Bool)
  | .marking r failure _ => [(r, failure.isNone)]
  | .marks owed => owed.map outcome
  | _ => []

/-! ## Flushes -/

/-- `relayIndependent` comes first and keeps the partitions for later; then the workers of
`mapLimit` have a lane each and take the waiting partitions in their order. -/
inductive Stage (P : Type)
  | independent (lane : Lane P) (parts : List (List (OutboxRecord P)))
  | ordered (lanes : List (Lane P)) (waiting : List (List (OutboxRecord P)))

/-- A call of `flushOnce` after its `listPending`. `origin` is what is remembered of that
moment; the relay never reads it. `settled` says that the promise of the flush has rejected. -/
structure Flush (P S : Type) where
  origin : S
  stage : Stage P
  published : Nat := 0
  failed : Nat := 0
  settled : Bool := false

/-- The workers of `mapLimit`, each with its first partition. -/
def fan (o : Options X) (parts : List (List (OutboxRecord P))) : Stage P :=
  let workers := (max 1 (min o.concurrency parts.length)).toNat
  .ordered ((parts.take workers).map .next) (parts.drop workers)

/-- The two relays of a flush, the first of which is left out without records for it. -/
def Stage.begin (o : Options X) (parts : List (List (OutboxRecord P)))
    (independent : List (OutboxRecord P)) : Stage P :=
  if independent.isEmpty then fan o parts
  else if 1 < independent.length ∧ o.emitBatch then .independent (.batch independent) parts
  else .independent (.next independent) parts

/-- `flushOnce` on the records that it has listed. -/
def Flush.begin (o : Options X) (origin : S) (pending : List (OutboxRecord P)) : Flush P S where
  origin
  stage := .begin o (partitionRecords pending).1 (partitionRecords pending).2

/-- The step of lane `i`, or the way from a finished lane to the next thing to do. The flag
says that the promise of the flush rejects. -/
def Stage.step (o : Options X) (i : Nat) (a : Answer X) :
    Stage P → Option (Stage P × Bool × Effect P)
  | .independent lane parts =>
    if i ≠ 0 then none
    else match lane.todo, a with
      | [], .go => some (fan o parts, false, {})
      | _, _ => (lane.step o false a).map fun m =>
        match m.1 with
        | some lane' => (.independent lane' parts, false, m.2)
        | none => (.ordered [] [], true, m.2)
  | .ordered lanes waiting =>
    match lanes[i]?, waiting, a with
    | none, _, _ => none
    | some (.next []), part :: waiting, .go =>
      some (.ordered (lanes.set i (.next part)) waiting, false, {})
    | some lane, _, _ => (lane.step o true a).map fun m =>
      match m.1 with
      | some lane' => (.ordered (lanes.set i lane') waiting, false, m.2)
      | none => (.ordered (lanes.eraseIdx i) waiting, true, m.2)

def Flush.step (o : Options X) (f : Flush P S) (i : Nat) (a : Answer X) :
    Option (Flush P S × Effect P) :=
  (f.stage.step o i a).map fun m =>
    ({ f with stage := m.1, settled := f.settled || m.2.1 }, m.2.2)

/-- The counters of the relays, after a mark with a given result. -/
def Flush.count (f : Flush P S) (failure : Option String) (res : OutboxMarkResult) : Flush P S :=
  { f with
    published := if failure.isNone ∧ res.owned then f.published + 1 else f.published
    failed := if failure.isSome ∧ res.owned ∧ res.status = .failed then f.failed + 1
      else f.failed }

/-- All lanes of a stage, each with whether it is that of a partition. -/
def Stage.lanes : Stage P → List (Bool × Lane P)
  | .independent lane parts => (false, lane) :: parts.map fun part => (true, .next part)
  | .ordered lanes waiting =>
    (lanes.map fun lane => (true, lane)) ++ waiting.map fun part => (true, .next part)

namespace Flush

def lanes (f : Flush P S) : List (Bool × Lane P) := f.stage.lanes

/-- What the lanes of a flush have of something. -/
def gather {β : Type} (g : Lane P → List β) (f : Flush P S) : List β :=
  f.lanes.flatMap fun x => g x.2

def todo (f : Flush P S) : List (OutboxRecord P) := f.gather Lane.todo

/-- The promise of the flush is settled. -/
def finished (f : Flush P S) : Bool := f.settled || f.todo.isEmpty

section Count

variable (f : Flush P S) (failure : Option String) (res : OutboxMarkResult)

@[simp] theorem origin_count : (f.count failure res).origin = f.origin := rfl

@[simp] theorem lanes_count : (f.count failure res).lanes = f.lanes := rfl

@[simp] theorem settled_count : (f.count failure res).settled = f.settled := rfl

@[simp] theorem todo_count : (f.count failure res).todo = f.todo := rfl

end Count

end Flush

/-! ## Partitions keep the order of the records -/

theorem addTo_map {key : String} (r : OutboxRecord P) {g : String → List (OutboxRecord P)}
    {keys : List String} (hd : keys.Nodup) (hg : key ∉ keys → g key = []) :
    addTo key r (keys.map fun k => (k, g k)) = (if key ∈ keys then keys else keys ++ [key]).map
      fun k => (k, if k = key then g k ++ [r] else g k) := by
  induction keys with
  | nil => simp [addTo, hg]
  | cons k keys ih =>
    obtain ⟨hk, hd⟩ := nodup_cons.mp hd
    simp only [map_cons, addTo]
    split
    · next heq =>
      subst heq
      rw [if_pos mem_cons_self, map_cons, if_pos rfl]
      refine congrArg _ (map_congr_left fun k' hk' => ?_)
      rw [if_neg (ne_of_mem_of_not_mem hk' hk)]
    · next hne =>
      have hmem : key ∈ k :: keys ↔ key ∈ keys := mem_cons.trans (or_iff_right (Ne.symm hne))
      rw [ih hd fun h => hg (mt hmem.mp h)]
      simp only [hmem]
      split <;> simp [hne]

theorem addTo_perm (key : String) (r : OutboxRecord P)
    (parts : List (String × List (OutboxRecord P))) :
    ((addTo key r parts).flatMap (·.2)).Perm (parts.flatMap (·.2) ++ [r]) := by
  induction parts with
  | nil => simp [addTo]
  | cons p parts ih =>
    obtain ⟨k, part⟩ := p
    simp only [addTo]
    split
    · simp only [flatMap_cons, append_assoc]
      exact List.Perm.append_left part perm_append_comm
    · simp only [flatMap_cons, append_assoc]
      exact List.Perm.append_left part ih

theorem byKey_snoc (records : List (OutboxRecord P)) (r : OutboxRecord P) :
    byKey (records ++ [r]) = match r.partitionKey with
      | none => byKey records
      | some key => addTo key r (byKey records) := by
  rw [byKey, foldl_append]
  rfl

theorem byKey_eq (records : List (OutboxRecord P)) : ∃ keys : List String, keys.Nodup ∧
    (∀ r ∈ records, ∀ k, r.partitionKey = some k → k ∈ keys) ∧
    byKey records = keys.map fun k => (k, records.filter fun r => r.partitionKey = some k) := by
  induction records using reverseRecOn with
  | nil => exact ⟨[], nodup_nil, by simp, rfl⟩
  | append_singleton records r ih =>
    obtain ⟨keys, hd, hkeys, heq⟩ := ih
    rw [byKey_snoc, heq]
    cases hr : r.partitionKey with
    | none =>
      refine ⟨keys, hd, ?_, by simp [hr]⟩
      simpa [or_imp, forall_and, hr] using hkeys
    | some key =>
      have hnil : key ∉ keys → (records.filter fun r => r.partitionKey = some key) = [] := by
        intro hnew
        refine filter_eq_nil_iff.mpr fun r' hr' hk => ?_
        exact hnew (hkeys r' hr' key (of_decide_eq_true hk))
      refine ⟨_, ?_, ?_, (addTo_map r hd hnil).trans (map_congr_left fun k _ => ?_)⟩
      · split
        · exact hd
        · next hk => simpa using List.Nodup.concat hk hd
      · intro r' hr' k hk
        rcases mem_append.mp hr' with hr' | hr'
        · have := hkeys r' hr' k hk
          split
          · exact this
          · exact mem_append_left _ this
        · rw [mem_singleton.mp hr', hr] at hk
          cases hk
          split
          · assumption
          · exact mem_append_right _ mem_cons_self
      · rw [filter_append]
        by_cases hk : k = key
        · simp [hk, hr]
        · simp [hk, hr, Ne.symm hk]

theorem byKey_perm (records : List (OutboxRecord P)) :
    ((records.filter fun r => r.partitionKey.isNone) ++ (byKey records).flatMap (·.2)).Perm
      records := by
  induction records using reverseRecOn with
  | nil => simp [byKey]
  | append_singleton records r ih =>
    rw [byKey_snoc, filter_append]
    cases hr : r.partitionKey with
    | none =>
      simp only [filter_cons, hr, Option.isNone_none, if_true, filter_nil,
        append_assoc]
      exact (perm_append_comm.append_left _).trans
        ((append_assoc ..).symm ▸ ih.append_right [r])
    | some key =>
      simp only [filter_cons, hr, Option.isNone_some, filter_nil, append_nil,
        Bool.false_eq_true, if_false]
      exact ((addTo_perm key r (byKey records)).append_left _).trans
        ((append_assoc ..) ▸ ih.append_right [r])

/-! ## What a step of a lane does -/

/-- The answer is none that makes a lane throw: a rejection of the publisher that has a message
or a string form, and no rejection of the store. -/
def Answer.reported (o : Options X) : Answer X → Bool
  | .rejected err => (o.messageOf err).isSome
  | .refused _ => false
  | _ => true

theorem batchMarks_records (records : List (OutboxRecord P))
    (results : Option (List (Option OutboxBatchResult))) :
    (batchMarks records results).map (·.1) = records := by
  cases results with
  | none => simp [batchMarks, Function.comp_def]
  | some results =>
    refine ext_getElem (by simp [batchMarks]) ?_
    intro i h₁ h₂
    simp [batchMarks]

namespace Lane

variable {o : Options X} {ord : Bool} {a : Answer X} {l k : Lane P} {e : Effect P}

/-- The steps that a lane survives. -/
inductive Turn (o : Options X) (ord : Bool) (a : Answer X) : Lane P → Lane P → Effect P → Prop
  | emit (r : OutboxRecord P) (rest) :
    Turn o ord a (.next (r :: rest)) (.emitting r rest) { emitted := [r] }
  | answer (r : OutboxRecord P) (failure rest) :
    Turn o ord a (.emitting r rest) (.marking r failure rest) { outcomes := [(r, failure.isNone)] }
  | mark (r : OutboxRecord P) (failure rest) :
    Turn o ord a (.marking r failure rest)
      (.next (if ord && failure.isSome then [] else rest)) { mark := some (r, failure) }
  | refuse (r : OutboxRecord P) (message rest) : a.reported o = false →
    Turn o ord a (.marking r none rest) (.marking r (some message) rest) {}
  | emitBatch (records : List (OutboxRecord P)) :
    Turn o ord a (.batch records) (.batching records) { emitted := records }
  | answerBatch (owed : List (OutboxRecord P × Option String)) :
    Turn o ord a (.batching (owed.map (·.1))) (.marks owed) { outcomes := owed.map outcome }
  | markNext (x : OutboxRecord P × Option String) (owed) :
    Turn o ord a (.marks (x :: owed)) (.marks owed) { mark := some x }

theorem step_turn (h : l.step o ord a = some (some k, e)) : Turn o ord a l k e := by
  fun_cases Lane.step o ord l a with
  | case1 r rest =>
    cases h
    exact .emit r rest
  | case2 r rest =>
    cases h
    exact .answer r none rest
  | case3 r rest err =>
    simp only [step, Option.some.injEq, Prod.mk.injEq, Option.map_eq_some_iff] at h
    obtain ⟨⟨message, _, rfl⟩, rfl⟩ := h
    exact .answer r (some message) rest
  | case4 r failure rest =>
    cases h
    exact .mark r failure rest
  | case5 r rest err =>
    simp only [step, Option.some.injEq, Prod.mk.injEq, Option.map_eq_some_iff] at h
    obtain ⟨⟨message, _, rfl⟩, rfl⟩ := h
    exact .refuse r message rest rfl
  | case6 => simp [step] at h
  | case7 records =>
    cases h
    exact .emitBatch records
  | case8 records results =>
    cases h
    have hturn : Turn o ord (.batchResolved results) _ _ _ :=
      .answerBatch (batchMarks records results)
    rwa [batchMarks_records] at hturn
  | case9 records err =>
    simp only [step, Option.some.injEq, Prod.mk.injEq, Option.map_eq_some_iff] at h
    obtain ⟨⟨message, _, rfl⟩, rfl⟩ := h
    have hturn : Turn o ord (.rejected err) _ _ _ :=
      .answerBatch (records.map fun r => (r, some message))
    simpa [outcome, Function.comp_def] using hturn
  | case10 x owed =>
    cases h
    exact .markNext x owed
  | case11 => simp [step] at h
  | case12 => simp_all [step]

theorem step_thrown (h : l.step o ord a = some (none, e)) :
    e.emitted = [] ∧ e.mark = none ∧ a.reported o = false := by
  fun_cases Lane.step o ord l a
  all_goals simp_all [step, Answer.reported]
  all_goals (obtain ⟨_, rfl⟩ := h; simp_all)

theorem Turn.todo (h : Turn o ord a l k e) :
    ((e.mark.map (·.1)).toList ++ k.todo).Sublist l.todo := by
  cases h with
  | mark r failure rest =>
    refine List.Sublist.cons_cons r ?_
    show (if ord && failure.isSome then [] else rest).Sublist rest
    split
    · exact nil_sublist rest
    · exact List.Sublist.refl rest
  | _ => exact List.Sublist.refl _

theorem Turn.emitted (h : Turn o ord a l k e) : e.emitted ⊆ l.todo := by
  cases h with
  | emit r rest => exact cons_subset_cons r (nil_subset rest)
  | emitBatch records => exact List.Subset.refl records
  | _ => exact nil_subset _

theorem Turn.owed (h : Turn o ord a l k e) (ha : a.reported o) :
    (e.mark.map outcome).toList ++ k.owed = l.owed ++ e.outcomes := by
  cases h with
  | refuse r message rest hr => exact absurd ha (by simp [hr])
  | _ => simp [Lane.owed, outcome]

theorem Turn.opened (h : Turn o ord a l k e) :
    e.outcomes.map (·.1) ++ k.opened = l.opened ++ e.emitted := by
  cases h <;> simp [Lane.opened, outcome, Function.comp_def]

theorem owed_subset (l : Lane P) : l.owed.map (·.1) ⊆ l.todo := by
  cases l with
  | marking r failure rest => exact cons_subset_cons r (nil_subset rest)
  | marks owed => simp [Lane.owed, Lane.todo, outcome, Function.comp_def]
  | _ => exact nil_subset _

theorem opened_subset (l : Lane P) : l.opened ⊆ l.todo := by
  cases l with
  | emitting r rest => exact cons_subset_cons r (nil_subset rest)
  | batching records => exact List.Subset.refl records
  | _ => exact nil_subset _

end Lane

/-! ## What a step of a flush does -/

theorem lanes_fan (o : Options X) (parts : List (List (OutboxRecord P))) :
    (fan o parts).lanes = parts.map fun part => (true, .next part) := by
  simp only [fan, Stage.lanes, map_map]
  rw [show ((fun lane : Lane P => (true, lane)) ∘ Lane.next) = fun part => (true, .next part)
    from rfl, ← map_append, take_append_drop]

theorem perm_eraseIdx {α : Type} {xs : List α} {i : Nat} {x : α} (h : xs[i]? = some x) :
    xs.Perm (x :: xs.eraseIdx i) := by
  obtain ⟨hi, rfl⟩ := List.getElem?_eq_some_iff.mp h
  exact (getElem_cons_eraseIdx_perm hi).symm

theorem set_perm {α : Type} {xs : List α} {i : Nat} {x : α} (h : xs[i]? = some x) (y : α) :
    (xs.set i y).Perm (y :: xs.eraseIdx i) := by
  obtain ⟨hi, rfl⟩ := List.getElem?_eq_some_iff.mp h
  exact set_perm_cons_eraseIdx hi y

section Step

variable {o : Options X} {f f' : Flush P S} {i : Nat} {a : Answer X} {e : Effect P}

/-- What a step of a flush does to its lanes: a finished one is put away, or one of them makes
its step and the others stay, or one throws and the promise of the flush rejects. -/
theorem Flush.step_lanes (h : f.step o i a = some (f', e)) :
    f'.origin = f.origin ∧ ∃ ord l rest, f.lanes.Perm ((ord, l) :: rest) ∧
      ((l.todo = [] ∧ e = {} ∧ f'.settled = f.settled ∧ f'.lanes.Perm rest) ∨
        (∃ k, l.Turn o ord a k e ∧ f'.settled = f.settled ∧ f'.lanes.Perm ((ord, k) :: rest)) ∨
        (l.step o ord a = some (none, e) ∧ f'.lanes.Subperm rest)) := by
  obtain ⟨⟨st', thrown, e'⟩, hst, hf⟩ := Option.map_eq_some_iff.mp h
  cases hf
  obtain ⟨origin, st, published, failed, settled⟩ := f
  refine ⟨rfl, ?_⟩
  cases st with
  | independent lane parts =>
    refine ⟨false, lane, parts.map fun part => (true, .next part), .refl _, ?_⟩
    simp only [Stage.step] at hst
    split at hst
    · cases hst
    · split at hst
      · next htodo =>
        cases hst
        exact .inl ⟨htodo, rfl, Bool.or_false _, .of_eq (lanes_fan o parts)⟩
      · obtain ⟨⟨l', e'⟩, hstep, hm⟩ := Option.map_eq_some_iff.mp hst
        cases l' with
        | some k =>
          cases hm
          exact .inr (.inl ⟨k, Lane.step_turn hstep, Bool.or_false _, .refl _⟩)
        | none =>
          cases hm
          exact .inr (.inr ⟨hstep, nil_subperm⟩)
  | ordered lanes waiting =>
    simp only [Stage.step] at hst
    split at hst
    · cases hst
    · next part waiting hi =>
      cases hst
      refine ⟨true, .next [], (lanes.eraseIdx i).map (fun lane => (true, lane)) ++
        (part :: waiting).map fun part => (true, .next part), ?_,
        .inl ⟨rfl, rfl, Bool.or_false _, ?_⟩⟩
      · exact ((perm_eraseIdx hi).map _).append_right _
      · -- the lane takes the place of the first of the waiting partitions
        exact (((set_perm hi _).map _).append_right _).trans (perm_middle.symm)
    · next waiting _ _ _ _ lane hi _ =>
      refine ⟨true, lane, (lanes.eraseIdx i).map (fun lane => (true, lane)) ++
        waiting.map fun part => (true, .next part), ((perm_eraseIdx hi).map _).append_right _, ?_⟩
      obtain ⟨⟨l', e'⟩, hstep, hm⟩ := Option.map_eq_some_iff.mp hst
      cases l' with
      | some k =>
        cases hm
        exact .inr (.inl ⟨k, Lane.step_turn hstep, Bool.or_false _,
          ((set_perm hi k).map _).append_right _⟩)
      | none =>
        cases hm
        exact .inr (.inr ⟨hstep, List.Subperm.refl _⟩)

variable {β α : Type} {xs ys : List α}

theorem nodup_of_subperm (h : xs.Subperm ys) (hd : ys.Nodup) : xs.Nodup := by
  obtain ⟨zs, hp, hs⟩ := h
  exact hp.nodup_iff.mp (hd.sublist hs)

theorem map_subperm (h : xs.Subperm ys) (g : α → β) : (xs.map g).Subperm (ys.map g) := by
  obtain ⟨zs, hp, hs⟩ := h
  exact ⟨zs.map g, hp.map g, hs.map g⟩

theorem subperm_flatMap (h : xs.Subperm ys) (g : α → List β) :
    (xs.flatMap g).Subperm (ys.flatMap g) := by
  obtain ⟨zs, hp, hs⟩ := h
  exact ⟨zs.flatMap g, hp.flatMap_right g, hs.flatMap g⟩

theorem Flush.step_emitted (h : f.step o i a = some (f', e)) : e.emitted ⊆ f.todo := by
  obtain ⟨-, ord, l, rest, hp, hcase⟩ := Flush.step_lanes h
  have hmem : (ord, l) ∈ f.lanes := hp.symm.subset mem_cons_self
  rcases hcase with ⟨-, rfl, -⟩ | ⟨k, hk, -⟩ | ⟨hs, -⟩
  · exact nil_subset _
  · exact fun r hr => mem_flatMap.mpr ⟨_, hmem, hk.emitted hr⟩
  · rw [(Lane.step_thrown hs).1]
    exact nil_subset _

theorem Flush.step_settled (h : f.step o i a = some (f', e)) (ha : a.reported o) :
    f'.settled = f.settled := by
  obtain ⟨-, ord, l, rest, -, ⟨-, -, hs, -⟩ | ⟨k, -, hs, -⟩ | ⟨hs, -⟩⟩ := Flush.step_lanes h
  · exact hs
  · exact hs
  · exact absurd ha (by simp [(Lane.step_thrown hs).2.2])

end Step

/-! ## Order within a partition -/

def SamePartition (q r : OutboxRecord P) : Prop :=
  r.partitionKey ≠ none ∧ q.partitionKey = r.partitionKey

instance (q r : OutboxRecord P) : Decidable (SamePartition q r) :=
  inferInstanceAs (Decidable (_ ∧ _))

namespace Lane

/-- The lane takes its records one by one. -/
def single : Lane P → Bool
  | .next _ | .emitting .. | .marking .. => true
  | _ => false

end Lane

/-- The records before `r` that matter to it are done with, or the lane of a partition has them
in front of `r`. No record matters to one without a partition. -/
def InOrder (before : OutboxRecord P → OutboxRecord P → Prop) (done : OutboxRecord P → Prop) :
    Bool × Lane P → Prop
  | (true, l) => l.single ∧
    ∀ ys r zs, l.todo = ys ++ r :: zs → ∀ q, before q r → done q ∨ q ∈ ys
  | (false, l) => ∀ r ∈ l.todo, ∀ q, ¬ before q r

section InOrder

variable {o : Options X} {ord : Bool} {a : Answer X} {l k : Lane P} {e : Effect P}
  {before : OutboxRecord P → OutboxRecord P → Prop} {done done' : OutboxRecord P → Prop}

theorem InOrder.mono {x : Bool × Lane P} (h : InOrder before done x)
    (hmono : ∀ q, done q → done' q) : InOrder before done' x := by
  obtain ⟨_ | _, l⟩ := x
  · exact h
  · refine ⟨h.1, fun ys r zs heq q hq => ?_⟩
    exact (h.2 ys r zs heq q hq).imp_left (hmono q)

theorem InOrder.turn (h : InOrder before done (ord, l)) (hk : l.Turn o ord a k e)
    (hmono : ∀ q, done q → done' q) (hmark : ∀ r, e.mark = some (r, none) → done' r) :
    InOrder before done' (ord, k) := by
  cases ord with
  | false =>
    exact fun r hr => h r (hk.todo.subset (mem_append_right _ hr))
  | true =>
    cases hk with
    | emit r rest | answer r failure rest | refuse r message rest => exact (InOrder.mono h hmono :)
    | mark r failure rest =>
      refine ⟨rfl, fun ys r' zs heq q hq => ?_⟩
      cases failure with
      | some message =>
        -- the loop has stopped at the failure
        simp [Lane.todo] at heq
      | none =>
        have heq' : r :: rest = (r :: ys) ++ r' :: zs := by
          simpa [Lane.todo] using heq
        rcases h.2 (r :: ys) r' zs heq' q hq with hd | hd
        · exact .inl (hmono q hd)
        · rcases mem_cons.mp hd with rfl | hd
          · exact .inl (hmark q rfl)
          · exact .inr hd
    | emitBatch records | answerBatch owed | markNext x owed =>
      exact absurd h.1 (by simp [Lane.single])

theorem InOrder.emits (h : InOrder before done (ord, l)) (hk : l.Turn o ord a k e)
    {q r : OutboxRecord P} (hr : r ∈ e.emitted) (hq : before q r) : done q := by
  cases ord with
  | false => exact absurd hq (h r (hk.emitted hr) q)
  | true =>
    cases hk with
    | emit r' rest =>
      rw [mem_singleton.mp hr] at hq
      rcases h.2 [] r' rest rfl q hq with hd | hd
      · exact hd
      · cases hd
    | emitBatch records => exact absurd h.1 (by simp [Lane.single])
    | _ => cases hr

variable {f f' : Flush P S} {i : Nat}

theorem Flush.step_inOrder (h : f.step o i a = some (f', e))
    (hf : ∀ x ∈ f.lanes, InOrder before done x) (hmono : ∀ q, done q → done' q)
    (hmark : ∀ r, e.mark = some (r, none) → done' r) :
    ∀ x ∈ f'.lanes, InOrder before done' x := by
  obtain ⟨-, ord, l, rest, hp, hcase⟩ := Flush.step_lanes h
  have hrest : ∀ x ∈ rest, InOrder before done' x := fun x hx =>
    (hf x (hp.symm.subset (mem_cons_of_mem _ hx))).mono hmono
  rcases hcase with ⟨-, -, -, hp'⟩ | ⟨k, hk, -, hp'⟩ | ⟨-, hp'⟩
  · exact fun x hx => hrest x (hp'.subset hx)
  · intro x hx
    rcases mem_cons.mp (hp'.subset hx) with rfl | hx
    · exact (hf (ord, l) (hp.symm.subset mem_cons_self)).turn hk hmono hmark
    · exact hrest x hx
  · exact fun x hx => hrest x (hp'.subset hx)

theorem Flush.emits_inOrder (h : f.step o i a = some (f', e))
    (hf : ∀ x ∈ f.lanes, InOrder before done x) {q r : OutboxRecord P} (hr : r ∈ e.emitted)
    (hq : before q r) : done q := by
  obtain ⟨-, ord, l, rest, hp, hcase⟩ := Flush.step_lanes h
  rcases hcase with ⟨-, rfl, -⟩ | ⟨k, hk, -⟩ | ⟨hs, -⟩
  · cases hr
  · exact (hf (ord, l) (hp.symm.subset mem_cons_self)).emits hk hr hq
  · rw [(Lane.step_thrown hs).1] at hr
    cases hr

end InOrder

/-! ## The beginning of a flush -/

section Begin

variable (o : Options X) (origin : S) (pending : List (OutboxRecord P))

theorem Stage.begin_lanes (parts : List (List (OutboxRecord P)))
    (independent : List (OutboxRecord P)) : ∃ first : List (Bool × Lane P),
    (Stage.begin o parts independent).lanes =
      first ++ parts.map (fun part => (true, .next part)) ∧
    first.flatMap (·.2.todo) = independent ∧ first.flatMap (·.2.owed) = [] ∧
    first.flatMap (·.2.opened) = [] ∧
    ∀ x ∈ first, x.1 = false := by
  unfold Stage.begin
  by_cases hnil : independent.isEmpty
  · refine ⟨[], ?_, (isEmpty_iff.mp hnil).symm, rfl, rfl, by simp⟩
    rw [if_pos hnil, lanes_fan, nil_append]
  · rw [if_neg hnil]
    split
    · exact ⟨[(false, .batch independent)], rfl, append_nil _, rfl, rfl, by simp⟩
    · exact ⟨[(false, .next independent)], rfl, append_nil _, rfl, rfl, by simp⟩

theorem Flush.begin_lanes : ∃ first : List (Bool × Lane P),
    (Flush.begin o origin pending).lanes =
      first ++ (byKey pending).map (fun p => (true, .next p.2)) ∧
    first.flatMap (·.2.todo) = (pending.filter fun r => r.partitionKey.isNone) ∧
    first.flatMap (·.2.owed) = [] ∧ first.flatMap (·.2.opened) = [] ∧
    ∀ x ∈ first, x.1 = false := by
  obtain ⟨first, hl, h⟩ := Stage.begin_lanes o (partitionRecords pending).1
    (partitionRecords pending).2
  rw [partitionRecords, map_map] at hl
  exact ⟨first, hl, h⟩

theorem Flush.begin_todo : (Flush.begin o origin pending).todo.Perm pending := by
  obtain ⟨first, hl, ht, -⟩ := Flush.begin_lanes o origin pending
  rw [Flush.todo, Flush.gather, hl, flatMap_append, ht, flatMap_map]
  exact byKey_perm pending

theorem Flush.begin_owed : (Flush.begin o origin pending).gather Lane.owed = [] := by
  obtain ⟨first, hl, -, ho, -⟩ := Flush.begin_lanes o origin pending
  rw [Flush.gather, hl, flatMap_append, ho, flatMap_map]
  simp [Lane.owed]

theorem Flush.begin_opened : (Flush.begin o origin pending).gather Lane.opened = [] := by
  obtain ⟨first, hl, -, -, ho, -⟩ := Flush.begin_lanes o origin pending
  rw [Flush.gather, hl, flatMap_append, ho, flatMap_map]
  simp [Lane.opened]

variable {o origin pending}

theorem Flush.begin_inOrder {before : OutboxRecord P → OutboxRecord P → Prop}
    {done : OutboxRecord P → Prop}
    (hkey : ∀ q r, before q r → SamePartition q r)
    (h : ∀ ys r zs, pending = ys ++ r :: zs → ∀ q, before q r → done q ∨ q ∈ ys) :
    ∀ x ∈ (Flush.begin o origin pending).lanes, InOrder before done x := by
  obtain ⟨first, hl, ht, -, -, hf⟩ := Flush.begin_lanes o origin pending
  rintro ⟨ord, l⟩ hx
  rw [hl, mem_append] at hx
  rcases hx with hx | hx
  · cases hf _ hx
    intro r hr q hq
    have hmem : r ∈ pending.filter fun r => r.partitionKey.isNone :=
      ht ▸ mem_flatMap.mpr ⟨_, hx, hr⟩
    exact (hkey q r hq).1 (by simpa using (mem_filter.mp hmem).2)
  · obtain ⟨⟨key, part⟩, hp, heq⟩ := mem_map.mp hx
    cases heq
    refine ⟨rfl, fun ys r zs heq q hq => ?_⟩
    obtain ⟨keys, -, -, hby⟩ := byKey_eq pending
    rw [hby] at hp
    obtain ⟨key', -, hpart⟩ := mem_map.mp hp
    cases hpart
    -- the records in front of `r` in its partition are those in front of it in the list
    obtain ⟨us, vs, rfl, rfl, hvs⟩ := filter_eq_append_iff.mp heq
    obtain ⟨ws, xs, rfl, hws, hr, rfl⟩ := filter_eq_cons_iff.mp hvs
    rcases h (us ++ ws) r xs (by simp) q hq with hd | hd
    · exact .inl hd
    · refine .inr (mem_filter.mpr ?_)
      have hqk : q.partitionKey = some key := by
        rw [(hkey q r hq).2]
        simpa using hr
      rcases mem_append.mp hd with hd | hd
      · exact ⟨hd, by simpa using hqk⟩
      · exact absurd hqk (by simpa using hws q hd)

end Begin

/-! ## Several flushes -/

section Flushes

def gather {β : Type} (g : Lane P → List β) (fs : List (Flush P S)) : List β :=
  fs.flatMap (Flush.gather g)

def todos (fs : List (Flush P S)) : List (OutboxRecord P) := gather Lane.todo fs

def owes (fs : List (Flush P S)) : List (OutboxRecord P × Bool) := gather Lane.owed fs

def opens (fs : List (Flush P S)) : List (OutboxRecord P) := gather Lane.opened fs

variable {o : Options X} {fs : List (Flush P S)} {f f' : Flush P S} {n i : Nat} {a : Answer X}
  {e : Effect P}

variable {β : Type}

theorem gather_snoc (g : Lane P → List β) : gather g (fs ++ [f]) = gather g fs ++ f.gather g := by
  simp [gather]

theorem gather_set_congr (g : Lane P → List β) {f₁ f₂ : Flush P S} (h : f₁.lanes = f₂.lanes) :
    gather g (fs.set n f₁) = gather g (fs.set n f₂) := by
  simp only [gather, flatMap_def, map_set, Flush.gather, h]

theorem owes_subset : (owes fs).map (·.1) ⊆ todos fs := by
  intro r hr
  obtain ⟨x, hx, rfl⟩ := mem_map.mp hr
  obtain ⟨f, hf, hx⟩ := mem_flatMap.mp hx
  obtain ⟨l, hl, hx⟩ := mem_flatMap.mp hx
  refine mem_flatMap.mpr ⟨f, hf, mem_flatMap.mpr ⟨l, hl, ?_⟩⟩
  exact Lane.owed_subset l.2 (mem_map_of_mem hx)

theorem opens_subset : opens fs ⊆ todos fs := by
  intro r hr
  obtain ⟨f, hf, hr⟩ := mem_flatMap.mp hr
  obtain ⟨l, hl, hr⟩ := mem_flatMap.mp hr
  exact mem_flatMap.mpr ⟨f, hf, mem_flatMap.mpr ⟨l, hl, Lane.opened_subset l.2 hr⟩⟩

theorem gather_perm (g : Lane P → List β) {xs : List (Bool × Lane P)}
    (h : (fs.flatMap Flush.lanes).Perm xs) : (gather g fs).Perm (xs.flatMap fun x => g x.2) := by
  have hp := h.flatMap_right fun x => g x.2
  rwa [flatMap_assoc] at hp

section Step

variable (hn : fs[n]? = some f) (h : f.step o i a = some (f', e))

include hn h

theorem step_lanes : ∃ ord l rest, (fs.flatMap Flush.lanes).Perm ((ord, l) :: rest) ∧
    ((l.todo = [] ∧ e = {} ∧ ((fs.set n f').flatMap Flush.lanes).Perm rest) ∨
      (∃ k, l.Turn o ord a k e ∧ ((fs.set n f').flatMap Flush.lanes).Perm ((ord, k) :: rest)) ∨
      (l.step o ord a = some (none, e) ∧ ((fs.set n f').flatMap Flush.lanes).Subperm rest)) := by
  obtain ⟨-, ord, l, rest, hp, hcase⟩ := Flush.step_lanes h
  have hfs' := (set_perm hn f').flatMap_right Flush.lanes
  refine ⟨ord, l, rest ++ (fs.eraseIdx n).flatMap Flush.lanes,
    ((perm_eraseIdx hn).flatMap_right _).trans (hp.append_right _), ?_⟩
  rcases hcase with ⟨ht, he, -, hp'⟩ | ⟨k, hk, -, hp'⟩ | ⟨hs, hp'⟩
  · exact .inl ⟨ht, he, hfs'.trans (hp'.append_right _)⟩
  · exact .inr (.inl ⟨k, hk, hfs'.trans (hp'.append_right _)⟩)
  · exact .inr (.inr ⟨hs, hfs'.subperm.trans ((subperm_append_right _).mpr hp')⟩)

theorem step_todos :
    ((e.mark.map (·.1)).toList ++ todos (fs.set n f')).Subperm (todos fs) := by
  obtain ⟨ord, l, rest, hp, hcase⟩ := step_lanes hn h
  refine List.Subperm.trans ?_ (gather_perm Lane.todo hp).symm.subperm
  have hrest : (rest.flatMap (·.2.todo)).Subperm (l.todo ++ rest.flatMap (·.2.todo)) :=
    (sublist_append_right ..).subperm
  rcases hcase with ⟨-, rfl, hp'⟩ | ⟨k, hk, hp'⟩ | ⟨hs, hp'⟩
  · exact (gather_perm Lane.todo hp').subperm.trans hrest
  · refine ((gather_perm Lane.todo hp').append_left _).subperm.trans ?_
    rw [flatMap_cons, ← append_assoc]
    exact (hk.todo.append_right _).subperm
  · rw [(Lane.step_thrown hs).2.1]
    have hp' := subperm_flatMap hp' (·.2.todo)
    rw [flatMap_assoc] at hp'
    exact hp'.trans hrest

end Step

theorem Flush.step_todo (h : f.step o i a = some (f', e)) :
    ((e.mark.map (·.1)).toList ++ f'.todo).Subperm f.todo := by
  have hn : [f][0]? = some f := rfl
  simpa [todos, Outbox.gather, Flush.todo] using step_todos hn h

theorem mem_step_flushes (hn : fs[n]? = some f) (h : f.step o i a = some (f', e))
    {g g' : Flush P S} (ho : g'.origin = f'.origin) (hl : g'.lanes = f'.lanes)
    (hg : g ∈ fs.set n g') :
    ∃ g₀ ∈ fs, g.origin = g₀.origin ∧ g.todo ⊆ g₀.todo ∧
      (g.lanes = g₀.lanes ∨ (g₀ = f ∧ g.lanes = f'.lanes)) := by
  rcases mem_or_eq_of_mem_set hg with hg | rfl
  · exact ⟨g, hg, rfl, List.Subset.refl _, .inl rfl⟩
  · refine ⟨f, mem_of_getElem? hn, ho.trans (Flush.step_lanes h).1, ?_, .inr ⟨rfl, hl⟩⟩
    have htodo : g.todo = f'.todo := by
      rw [Flush.todo, Flush.gather, hl, Flush.todo, Flush.gather]
    rw [htodo]
    exact fun x hx => (Flush.step_todo h).subset (mem_append_right _ hx)

theorem step_gather (g : Lane P → List β) (out inn : Effect P → List β)
    (hnil : ∀ l : Lane P, l.todo = [] → g l = []) (hout : out {} = []) (hinn : inn {} = [])
    (hturn : ∀ ord (l k : Lane P), l.Turn o ord a k e → out e ++ g k = g l ++ inn e)
    (hn : fs[n]? = some f) (h : f.step o i a = some (f', e)) (ha : a.reported o) :
    (out e ++ gather g (fs.set n f')).Perm (gather g fs ++ inn e) := by
  obtain ⟨ord, l, rest, hp, hcase⟩ := step_lanes hn h
  have hold := gather_perm g hp
  rcases hcase with ⟨ht, rfl, hp'⟩ | ⟨k, hk, hp'⟩ | ⟨hs, -⟩
  · rw [flatMap_cons, hnil l ht, nil_append] at hold
    rw [hout, hinn, nil_append, append_nil]
    exact (gather_perm g hp').trans hold.symm
  · have hnew := gather_perm g hp'
    rw [flatMap_cons] at hold hnew
    calc out e ++ gather g (fs.set n f')
        |>.Perm (out e ++ (g k ++ rest.flatMap fun x => g x.2)) := hnew.append_left _
      _ = g l ++ inn e ++ rest.flatMap (fun x => g x.2) := by
          rw [← append_assoc, hturn ord l k hk]
      _ |>.Perm (g l ++ rest.flatMap (fun x => g x.2) ++ inn e) := by
          rw [append_assoc, append_assoc]
          exact perm_append_comm.append_left _
      _ |>.Perm (gather g fs ++ inn e) := hold.symm.append_right _
  · exact absurd ha (by simp [(Lane.step_thrown hs).2.2])

theorem step_owes (hn : fs[n]? = some f) (h : f.step o i a = some (f', e)) (ha : a.reported o) :
    ((e.mark.map outcome).toList ++ owes (fs.set n f')).Perm (owes fs ++ e.outcomes) :=
  step_gather Lane.owed (fun e => (e.mark.map outcome).toList) (·.outcomes)
    (fun l hl => map_eq_nil_iff.mp (subset_nil.mp (hl ▸ Lane.owed_subset l))) rfl rfl
    (fun _ _ _ hk => hk.owed ha) hn h ha

theorem step_opens (hn : fs[n]? = some f) (h : f.step o i a = some (f', e)) (ha : a.reported o) :
    (e.outcomes.map (·.1) ++ opens (fs.set n f')).Perm (opens fs ++ e.emitted) :=
  step_gather Lane.opened (fun e => e.outcomes.map (·.1)) (·.emitted)
    (fun l hl => subset_nil.mp (hl ▸ Lane.opened_subset l)) rfl rfl
    (fun _ _ _ hk => hk.opened) hn h ha

end Flushes

end NevoMessaging.Outbox
