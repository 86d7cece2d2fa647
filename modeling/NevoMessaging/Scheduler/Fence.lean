import NevoMessaging.Lib.Trace
import NevoMessaging.Scheduler.Due

/-!
# Claims are fenced

A worker holds a task by what its record says: the status is `running` and `claimedBy` is the
worker. Retries, expired leases, cancellations and new definitions of a cron task all rewrite the
record. `Move` says once what can become of one record and which event tells of it; every result is
an induction over `Moves`, a sequence of them.

Results:
1. `moves_run`: the log of a run tells what became of every record.
2. `Move.allowed`, `Moves.obeys`: the record of a task and its history agree on who holds it.
3. `takeover`: nobody takes over a task that is held by another worker with a running lease.
4. `claims_fenced`: the claims, the finalizers and the attempts, in every run.
-/

namespace NevoMessaging

open List

variable {Q : Type}

/-- The task that the event is about. -/
def TaskEvent.task : TaskEvent → String
  | .created id => id
  | .redefined id => id
  | .claimed id _ _ _ => id
  | .extended id _ _ => id
  | .finalised id _ => id
  | .cancelled id => id

/-! ## The record of one task -/

/-- What can become of the record of the task `id`, and the event that tells of it. -/
inductive Move (id : String) : Option (TaskRecord Q) → TaskEvent → Option (TaskRecord Q) → Prop
  | other {r : Option (TaskRecord Q)} {e : TaskEvent} : e.task ≠ id → Move id r e r
  | create {t : TaskRecord Q} : Move id none (.created id) (some t)
  | redefine {t t' : TaskRecord Q} : Move id (some t) (.redefined id) (some t')
  | claim {t : TaskRecord Q} {workerId : String} {now claimTtlMs : Int} :
      t.claimable now claimTtlMs →
      Move id (some t) (.claimed id workerId now claimTtlMs) (some (t.claim workerId now))
  | extend {t : TaskRecord Q} {workerId : String} {now : Int} : t.owns workerId →
      Move id (some t) (.extended id workerId now) (some (t.extend now))
  | finalise {t t' : TaskRecord Q} {workerId : String} : t.owns workerId →
      t'.status ≠ .running → t'.attempts ≤ t.attempts + 1 →
      Move id (some t) (.finalised id workerId) (some t')
  | cancel {t : TaskRecord Q} {now : Int} :
      Move id (some t) (.cancelled id) (some (t.cancel now))

/-- What becomes of the record `r` in a run, and the events meanwhile. -/
inductive Moves (id : String) (r : Option (TaskRecord Q)) :
    List TaskEvent → Option (TaskRecord Q) → Prop
  | refl : Moves id r [] r
  | prune {l : List TaskEvent} {t : TaskRecord Q} :
      Moves id r l (some t) → ¬ t.active → Moves id r l none
  | step {l : List TaskEvent} {r₁ r₂ : Option (TaskRecord Q)} {e : TaskEvent} :
      Moves id r l r₁ → Move id r₁ e r₂ → Moves id r (l ++ [e]) r₂

section Moves

variable {id k workerId : String} {r r' r'' : Option (TaskRecord Q)} {l l' : List TaskEvent}
  {m m' : Table (TaskRecord.key (Q := Q))} {t : TaskRecord Q} {e : TaskEvent}
  {now claimTtlMs : Int}

theorem Moves.trans (h : Moves id r l r') (h' : Moves id r' l' r'') :
    Moves id r (l ++ l') r'' := by
  induction h' with
  | refl => exact (append_nil l).symm ▸ h
  | prune _ ha ih => exact ih.prune ha
  | step _ he ih => exact append_assoc .. ▸ ih.step he

theorem Moves.others (h : Moves id r l r') (he : ∀ e ∈ l', e.task ≠ id) :
    Moves id r (l ++ l') r' := by
  induction l' generalizing l with
  | nil => exact (append_nil l).symm ▸ h
  | cons e l' ih =>
    rw [append_cons]
    exact ih (h.step (.other (he e mem_cons_self))) fun e' he' => he e' (mem_cons_of_mem e he')

theorem Moves.pruned (h : Moves id r l (m.get? id))
    (hp : InMemoryScheduledTaskStore.Prunes m m') : Moves id r l (m'.get? id) := by
  cases hget' : m'.get? id with
  | some t =>
    obtain ⟨ht, rfl⟩ := Table.get?_eq_some.mp hget'
    rwa [Table.get?_of_mem (hp.subset ht)] at h
  | none =>
    cases hget : m.get? id with
    | none => exact hget ▸ h
    | some t =>
      obtain ⟨ht, rfl⟩ := Table.get?_eq_some.mp hget
      refine (hget ▸ h).prune fun ha => ?_
      exact Table.get?_eq_none.mp hget' (Table.mem_keys.mpr ⟨t, hp.active t ht ha, rfl⟩)

theorem move_update {f : TaskRecord Q → TaskRecord Q} (hf : ∀ t, (f t).key = t.key)
    (hget : m.get? k = some t) (he : e.task = k) (hmove : Move k (some t) e (some (f t))) :
    Move id (m.get? id) e ((m.update k f hf).get? id) := by
  by_cases hid : id = k
  · rw [hid, Table.get?_update_self, hget]
    exact hmove
  · rw [Table.get?_update_ne hid]
    exact .other fun h => hid (h.symm.trans he)

theorem move_set (he : e.task = t.key) (hmove : Move t.key (m.get? t.key) e (some t)) :
    Move id (m.get? id) e ((m.set t).get? id) := by
  by_cases hid : id = t.key
  · rw [hid, Table.get?_set_self]
    exact hmove
  · rw [Table.get?_set_ne _ hid]
    exact .other fun h => hid (h.symm.trans he)

/-! ## The operations of the store -/

namespace InMemoryScheduledTaskStore

variable {st : InMemoryScheduledTaskStore Q} {limit : Nat}

theorem moves_enqueue (now : Int) (task : TaskRecord Q) :
    Moves id (st.map.get? id) (st.events (.enqueue now task))
      ((st.enqueue now task).map.get? id) := by
  have hpruned : Moves id (st.map.get? id) [] ((st.pruneTerminal now).map.get? id) :=
    Moves.refl.pruned (prunes_pruneTerminal st now)
  unfold events enqueue
  dsimp only
  cases hget : (st.pruneTerminal now).map.get? task.id with
  | none =>
    dsimp only
    have hset : Move id ((st.pruneTerminal now).map.get? id) (.created task.id)
        (((st.pruneTerminal now).map.set task).get? id) := by
      refine move_set rfl ?_
      rw [show (st.pruneTerminal now).map.get? task.key = none from hget]
      exact .create
    split <;> exact hpruned.step hset
  | some existing =>
    dsimp only
    split
    · refine hpruned.step (move_set rfl ?_)
      show Move task.id ((st.pruneTerminal now).map.get? task.id) _ _
      rw [hget]
      exact .redefine
    · exact hpruned

theorem moves_claimDue (httl : 0 < claimTtlMs) :
    Moves id (st.map.get? id) (st.events (.claimDue workerId now limit claimTtlMs))
      ((st.claimDue workerId now limit claimTtlMs).2.map.get? id) := by
  have hpruned : Moves id (st.map.get? id) [] ((st.pruneTerminal now).map.get? id) :=
    Moves.refl.pruned (prunes_pruneTerminal st now)
  have hnodup := (claimEnd_claims workerId now limit st httl).nodup
  show Moves id _ ((st.claimDue workerId now limit claimTtlMs).1.map
    (.claimed ·.id workerId now claimTtlMs)) _
  rcases st.get?_claimDue httl id with ⟨hid, hsame⟩ | ⟨t, hget, heligible, hmem, hclaimed⟩
  · rw [hsame]
    refine hpruned.others fun e he heq => ?_
    obtain ⟨v, hv, rfl⟩ := mem_map.mp he
    exact hid (mem_map.mpr ⟨v, hv, heq⟩)
  · obtain ⟨-, rfl⟩ := Table.get?_eq_some.mp hget
    rw [hclaimed]
    rw [hget] at hpruned
    -- the task is claimed once, so the other events are about other tasks
    change ((st.claimDue workerId now limit claimTtlMs).1.map TaskRecord.key).Nodup at hnodup
    obtain ⟨before, after, hsplit⟩ := append_of_mem hmem
    rw [hsplit, map_append, map_cons, nodup_append] at hnodup
    obtain ⟨-, hafter, hbefore⟩ := hnodup
    rw [hsplit, map_append, map_cons, append_cons]
    refine ((hpruned.others ?_).step (.claim (eligible_iff.mp heligible).2)).others ?_
    · intro e he
      obtain ⟨v, hv, rfl⟩ := mem_map.mp he
      exact hbefore v.key (mem_map_of_mem hv) _ mem_cons_self
    · intro e he heq
      obtain ⟨v, hv, rfl⟩ := mem_map.mp he
      exact (nodup_cons.mp hafter).1 (mem_map.mpr ⟨v, hv, heq⟩)

theorem moves_rewrites {st' : InMemoryScheduledTaskStore Q} {p : TaskRecord Q → Bool}
    {f : TaskRecord Q → TaskRecord Q} {hf : ∀ t, (f t).key = t.key}
    (h : st.Rewrites k p f hf st') (he : e.task = k)
    (hmove : ∀ t, p t → Move k (some t) e (some (f t))) :
    Moves id (st.map.get? id) (if (st.map.get? k).any p then [e] else []) (st'.map.get? id) := by
  rcases h.map_cases with ⟨hno, rfl⟩ | ⟨t, hget, hp, hmap⟩
  · rw [if_neg hno]
    exact .refl
  · rw [if_pos ((Option.any_eq_true _ _).mpr ⟨t, hget, hp⟩), hmap]
    exact Moves.refl.step (move_update hf hget he (hmove t hp))

theorem owned_extendOne (j : String) :
    (extendOne now workerId st k).owned workerId j = st.owned workerId j := by
  rcases rewrites_extendOne.map_cases with ⟨-, hsame⟩ | ⟨t, hget, ho, hextend⟩
  · rw [hsame]
  · unfold owned
    rw [hextend]
    by_cases hj : j = k
    · rw [hj, Table.get?_update_self, hget]
      rfl
    · rw [Table.get?_update_ne hj]

theorem moves_extendLease (ids : List String) :
    Moves id (st.map.get? id) ((ids.filter (st.owned workerId)).map (.extended · workerId now))
      ((st.extendLease now ids workerId).map.get? id) := by
  induction ids generalizing st with
  | nil => exact .refl
  | cons k ids ih =>
    -- an extension changes no owner, so the later ids may be looked up after it
    have hrest := @ih (extendOne now workerId st k)
    rw [funext owned_extendOne] at hrest
    have hone : Moves id (st.map.get? id)
        (if st.owned workerId k then [.extended k workerId now] else [])
        ((extendOne now workerId st k).map.get? id) :=
      moves_rewrites rewrites_extendOne rfl fun _ ho => .extend ho
    have hboth := hone.trans hrest
    rw [filter_cons]
    split
    next h =>
      rw [if_pos h] at hboth
      exact hboth
    next h =>
      rw [if_neg h] at hboth
      exact hboth

end InMemoryScheduledTaskStore

end Moves

/-- Claims are made for a positive time. -/
def StoreAction.Leased : StoreAction Q → Prop
  | .claimDue _ _ _ claimTtlMs => 0 < claimTtlMs
  | _ => True

instance (a : StoreAction Q) : Decidable a.Leased :=
  match a with
  | .claimDue _ _ _ claimTtlMs => inferInstanceAs (Decidable (0 < claimTtlMs))
  | .enqueue .. | .markCompleted .. | .markFailed .. | .reschedule .. | .extendLease .. | .cancel ..
  | .list .. => inferInstanceAs (Decidable True)

open InMemoryScheduledTaskStore in
theorem moves_next {st : InMemoryScheduledTaskStore Q} {a : StoreAction Q} (ha : a.Leased)
    (id : String) : Moves id (st.map.get? id) (st.events a) ((st.next a).map.get? id) := by
  cases a with
  | enqueue now task => exact st.moves_enqueue now task
  | claimDue workerId now limit claimTtlMs => exact st.moves_claimDue ha
  | markCompleted now k workerId =>
    exact moves_rewrites rewrites_markCompleted rfl fun _ ho => .finalise ho nofun (Nat.le_succ _)
  | markFailed now k error workerId =>
    refine moves_rewrites rewrites_markFailed rfl fun t ho => .finalise ho ?_ ?_
    · rcases t.status_fail now error with h | h <;> exact h ▸ nofun
    · rw [t.toScheduledTask_fail]
  | reschedule k nextRunAt workerId error =>
    exact moves_rewrites rewrites_reschedule rfl fun _ ho => .finalise ho nofun (Nat.zero_le _)
  | extendLease now ids workerId => exact st.moves_extendLease ids
  | cancel now k =>
    have hany : (st.map.get? k).isSome = (st.map.get? k).any fun _ => true := by
      cases st.map.get? k <;> rfl
    rw [events, hany]
    exact moves_rewrites rewrites_cancel rfl fun _ _ => .cancel
  | list now status limit => exact Moves.refl.pruned (prunes_pruneTerminal st now)

theorem moves_run (terminalRetentionMs maxTerminalTasks : Option Int) {s t : StoreState Q}
    (h : ((taskMachine terminalRetentionMs maxTerminalTasks).restart s).Reach
      (fun _ a => a.Leased) t) :
    ∃ l, t.log = s.log ++ l ∧
      ∀ id, Moves id (s.store.map.get? id) l (t.store.map.get? id) := by
  refine h.invariant ?_ ?_
  · exact ⟨[], (append_nil _).symm, fun id => .refl⟩
  · rintro t t' a - ⟨l, hlog, hmoves⟩ ha hstep
    cases hstep
    refine ⟨l ++ t.store.events a, ?_, fun id => (hmoves id).trans (moves_next ha id)⟩
    show t.log ++ t.store.events a = _
    rw [hlog, append_assoc]

/-! ## Who holds a task -/

/-- What the history of a task says about it: nobody holds it, it was enqueued as it is, or a worker
holds it since its last claim or extension. -/
inductive Standing
  | vacant
  | enqueued
  | held (workerId : String) (since : Int)
deriving DecidableEq

namespace Standing

def next (id : String) (b : Standing) (e : TaskEvent) : Standing :=
  if e.task = id then
    match e, b with
    | .created _, _ => .enqueued
    | .redefined _, _ => .enqueued
    | .claimed _ workerId now _, _ => .held workerId now
    | .extended _ _ now, .held workerId _ => .held workerId now
    | .extended _ _ _, b => b
    | .finalised _ _, _ => .vacant
    | .cancelled _, _ => .vacant
  else b

/-- What may happen to the task while it is held. -/
def Allows (id : String) (b : Standing) (e : TaskEvent) : Prop :=
  e.task = id →
    match b, e with
    | .held _ _, .created _ => False
    | .held _ since, .claimed _ _ now claimTtlMs => claimTtlMs ≤ now - since
    | .held workerId _, .extended _ workerId' _ => workerId' = workerId
    | .held workerId _, .finalised _ workerId' => workerId' = workerId
    | _, _ => True

/-- The record agrees with the history. -/
def Agrees : Standing → Option (TaskRecord Q) → Prop
  | .vacant, r => ∀ t, r = some t → t.status ≠ .running
  | .enqueued, _ => True
  | .held workerId since, r => ∃ t, r = some t ∧ t.status = .running ∧
      t.claimedBy = some workerId ∧ t.claimedAt = some since

end Standing

open Standing

section Hold

variable {id workerId : String} {r r' : Option (TaskRecord Q)} {l mid : List TaskEvent}
  {b : Standing} {e : TaskEvent} {t : TaskRecord Q}

theorem next_of_ne (he : e.task ≠ id) : b.next id e = b := if_neg he

theorem owns_iff : t.owns workerId ↔ t.status = .running ∧ t.claimedBy = some workerId := by
  rw [TaskRecord.owns, Bool.and_eq_true, decide_eq_true_eq, decide_eq_true_eq]

variable {now claimTtlMs since : Int} {workerId' : String}

theorem expired_of_claimable (hc : t.claimable now claimTtlMs) (hrun : t.status = .running)
    (hat : t.claimedAt = some since) : claimTtlMs ≤ now - since := by
  simpa [TaskRecord.claimable, TaskRecord.leaseExpired, hrun, hat] using hc

theorem next_claimed :
    b.next id (.claimed id workerId now claimTtlMs) = .held workerId now := if_pos rfl

theorem next_extended :
    (held workerId since).next id (.extended id workerId' now) = .held workerId now := if_pos rfl

theorem not_held_of_none :
    ¬ (held workerId since).Agrees (none : Option (TaskRecord Q)) := fun ⟨_, h, _⟩ =>
  Option.some_ne_none _ h.symm

theorem vacant_agrees_none : vacant.Agrees (none : Option (TaskRecord Q)) := fun _ h =>
  absurd h.symm (Option.some_ne_none _)

theorem Standing.Agrees.prune (h : b.Agrees (some t)) (ha : ¬ t.active) :
    b.Agrees (none : Option (TaskRecord Q)) := by
  cases b with
  | vacant => exact vacant_agrees_none
  | enqueued => trivial
  | held workerId since =>
    obtain ⟨t', ht', hrun, -⟩ := h
    cases ht'
    exact absurd (by simp [TaskRecord.active, hrun]) ha

theorem Standing.Agrees.claim {now claimTtlMs : Int} (h : b.Agrees (some t))
    (hc : t.claimable now claimTtlMs) :
    b.Allows id (.claimed id workerId now claimTtlMs) ∧
      (b.next id (.claimed id workerId now claimTtlMs)).Agrees (some (t.claim workerId now)) := by
  refine ⟨fun _ => ?_, ?_⟩
  · cases b with
    | vacant | enqueued => trivial
    | held workerId' since =>
      obtain ⟨t', ht', hrun, -, hat⟩ := h
      cases ht'
      exact expired_of_claimable hc hrun hat
  · rw [next_claimed]
    exact ⟨_, rfl, rfl, rfl, rfl⟩

theorem Standing.Agrees.owner (h : (held workerId' since).Agrees (some t)) (ho : t.owns workerId) :
    workerId = workerId' := by
  obtain ⟨t', ht', -, hby, -⟩ := h
  cases ht'
  exact Option.some.inj ((owns_iff.mp ho).2.symm.trans hby)

theorem Standing.Agrees.extend {now : Int} (h : b.Agrees (some t)) (ho : t.owns workerId) :
    b.Allows id (.extended id workerId now) ∧
      (b.next id (.extended id workerId now)).Agrees (some (t.extend now)) := by
  cases b with
  | vacant => exact absurd (owns_iff.mp ho).1 (h t rfl)
  | enqueued =>
    refine ⟨fun _ => trivial, ?_⟩
    have hnext : enqueued.next id (.extended id workerId now) = enqueued := if_pos rfl
    rw [hnext]
    trivial
  | held workerId' since =>
    refine ⟨fun _ => h.owner ho, ?_⟩
    obtain ⟨t', ht', hrun, hby, -⟩ := h
    cases ht'
    rw [next_extended]
    exact ⟨_, rfl, hrun, hby, rfl⟩

theorem Standing.Agrees.finalise {t' : TaskRecord Q} (h : b.Agrees (some t)) (ho : t.owns workerId)
    (hs : t'.status ≠ .running) : b.Allows id (.finalised id workerId) ∧
      (b.next id (.finalised id workerId)).Agrees (some t') := by
  refine ⟨fun _ => ?_, ?_⟩
  · cases b with
    | vacant | enqueued => trivial
    | held workerId' since => exact h.owner ho
  · rw [show b.next id (.finalised id workerId) = .vacant from if_pos rfl]
    rintro _ ⟨rfl⟩
    exact hs

theorem Move.allowed (h : Move id r e r') (hb : b.Agrees r) :
    b.Allows id e ∧ (b.next id e).Agrees r' := by
  cases h with
  | other he =>
    rw [next_of_ne he]
    exact ⟨fun h => absurd h he, hb⟩
  | create =>
    rw [show b.next id (.created id) = .enqueued from if_pos rfl]
    cases b with
    | vacant | enqueued => exact ⟨fun _ => trivial, trivial⟩
    | held workerId since => exact absurd hb not_held_of_none
  | redefine =>
    rw [show b.next id (.redefined id) = .enqueued from if_pos rfl]
    cases b <;> exact ⟨fun _ => trivial, trivial⟩
  | claim hc => exact hb.claim hc
  | extend ho => exact hb.extend ho
  | finalise ho hs _ => exact hb.finalise ho hs
  | cancel =>
    rw [show b.next id (.cancelled id) = .vacant from if_pos rfl]
    refine ⟨fun _ => ?_, ?_⟩
    · cases b <;> trivial
    · rintro _ ⟨rfl⟩
      exact nofun

theorem Moves.obeys (h : Moves id r l r') (hr : b.Agrees r) :
    Trace.Obeys (next id) (Allows id) b l ∧ (l.foldl (next id) b).Agrees r' := by
  induction h with
  | refl => exact ⟨trivial, hr⟩
  | prune _ ha ih => exact ⟨ih.1, ih.2.prune ha⟩
  | step _ he ih =>
    obtain ⟨hallows, hagrees⟩ := he.allowed ih.2
    rw [foldl_concat]
    exact ⟨Trace.obeys_append.mpr ⟨ih.1, hallows, trivial⟩, hagrees⟩

/-- When the lease of the worker was renewed last. -/
def renewal (id workerId : String) (since : Int) : TaskEvent → Int
  | .claimed id' workerId' now _ => if id' = id ∧ workerId' = workerId then now else since
  | .extended id' workerId' now => if id' = id ∧ workerId' = workerId then now else since
  | _ => since

/-- The first claim of the task by another worker comes when the lease, which `workerId` has taken
at `since`, has expired: `held` are the events until then. -/
def TakenOver (id workerId : String) (since : Int) (l : List TaskEvent) : Prop :=
  ∃ held workerId' now claimTtlMs rest,
    l = held ++ TaskEvent.claimed id workerId' now claimTtlMs :: rest ∧ workerId' ≠ workerId ∧
    (∀ w n ttl, .claimed id w n ttl ∈ held → w = workerId) ∧
    claimTtlMs ≤ now - held.foldl (renewal id workerId) since

theorem TakenOver.cons (hclaim : ∀ w n ttl, e = .claimed id w n ttl → w = workerId)
    (h : TakenOver id workerId (renewal id workerId since e) l) :
    TakenOver id workerId since (e :: l) := by
  obtain ⟨held, workerId', now, claimTtlMs, rest, rfl, hne, hheld, hexpired⟩ := h
  refine ⟨e :: held, workerId', now, claimTtlMs, rest, rfl, hne, fun w n ttl hmem => ?_, hexpired⟩
  rcases mem_cons.mp hmem with heq | hmem
  · exact hclaim w n ttl heq.symm
  · exact hheld w n ttl hmem

/-- Between a claim and a claim by another worker the task is released, or its lease expires. -/
theorem takeover (hne : workerId' ≠ workerId)
    (h : Trace.Obeys (next id) (Allows id) (.held workerId since)
      (mid ++ [TaskEvent.claimed id workerId' now claimTtlMs])) :
    .finalised id workerId ∈ mid ∨ .cancelled id ∈ mid ∨ .redefined id ∈ mid ∨
      TakenOver id workerId since (mid ++ [TaskEvent.claimed id workerId' now claimTtlMs]) := by
  induction mid generalizing since with
  | nil => exact .inr (.inr (.inr ⟨[], _, _, _, [], rfl, hne, nofun, h.1 rfl⟩))
  | cons e mid ih =>
    obtain ⟨hallows, hrest⟩ := h
    -- the events that leave the task with its holder
    have hgo (hnext : (held workerId since).next id e =
          .held workerId (renewal id workerId since e))
        (hclaim : ∀ w n ttl, e = .claimed id w n ttl → w = workerId) :
        .finalised id workerId ∈ e :: mid ∨ .cancelled id ∈ e :: mid ∨ .redefined id ∈ e :: mid ∨
          TakenOver id workerId since (e :: mid
            ++ [TaskEvent.claimed id workerId' now claimTtlMs]) := by
      rw [hnext] at hrest
      rcases ih hrest with h | h | h | h
      · exact .inl (mem_cons_of_mem e h)
      · exact .inr (.inl (mem_cons_of_mem e h))
      · exact .inr (.inr (.inl (mem_cons_of_mem e h)))
      · exact .inr (.inr (.inr (h.cons hclaim)))
    by_cases hid : e.task = id
    · cases e with
      | created id' => exact (hallows hid).elim
      | redefined id' =>
        obtain rfl : id' = id := hid
        exact .inr (.inr (.inl mem_cons_self))
      | claimed id' w n ttl =>
        obtain rfl : id' = id := hid
        by_cases hw : w = workerId
        · refine hgo ?_ ?_
          · rw [next_claimed, renewal, if_pos ⟨rfl, hw⟩, hw]
          · rintro _ _ _ ⟨rfl⟩
            exact hw
        · exact .inr (.inr (.inr ⟨[], w, n, ttl, _, rfl, hw, nofun, hallows rfl⟩))
      | extended id' w n =>
        obtain rfl : id' = id := hid
        refine hgo ?_ nofun
        rw [next_extended, renewal, if_pos ⟨rfl, hallows rfl⟩]
      | finalised id' w =>
        obtain rfl : id' = id := hid
        cases hallows rfl
        exact .inl mem_cons_self
      | cancelled id' =>
        obtain rfl : id' = id := hid
        exact .inr (.inl mem_cons_self)
    · refine hgo ?_ ?_
      · rw [next_of_ne hid]
        cases e <;> simp_all [renewal, TaskEvent.task]
      · rintro _ _ _ rfl
        exact absurd rfl hid

end Hold

/-! ## Attempts -/

section Attempts

variable {id : String} {r r' : Option (TaskRecord Q)} {l : List TaskEvent}

/-- The attempts of the record, with the one that is under way. -/
def TaskRecord.started (t : TaskRecord Q) : Nat :=
  t.attempts + if t.status = .running then 1 else 0

def TaskEvent.isClaimOf (id : String) : TaskEvent → Bool
  | .claimed id' _ _ _ => id' = id
  | _ => false

theorem started_of_owns {t : TaskRecord Q} {workerId : String} (h : t.owns workerId) :
    t.started = t.attempts + 1 := by
  rw [TaskRecord.started, if_pos (owns_iff.mp h).1]

theorem Move.started_le {e : TaskEvent} {t' : TaskRecord Q} (h : Move id r e (some t'))
    (hcreated : e ≠ .created id) (hredefined : e ≠ .redefined id) :
    ∃ t, r = some t ∧ t'.started ≤ t.started + [e].countP (·.isClaimOf id) := by
  cases h with
  | other _ => exact ⟨t', rfl, Nat.le_add_right _ _⟩
  | create => exact absurd rfl hcreated
  | redefine => exact absurd rfl hredefined
  | @claim t workerId now claimTtlMs _ =>
    refine ⟨t, rfl, ?_⟩
    have hcount : [TaskEvent.claimed id workerId now claimTtlMs].countP (·.isClaimOf id) = 1 := by
      simp [TaskEvent.isClaimOf]
    rw [hcount]
    show t.attempts + 1 ≤ t.attempts + _ + 1
    omega
  | @extend t _ _ _ => exact ⟨t, rfl, Nat.le_add_right _ _⟩
  | @finalise t _ _ ho hs ha =>
    refine ⟨t, rfl, ?_⟩
    rw [started_of_owns ho, TaskRecord.started, if_neg hs]
    omega
  | @cancel t _ =>
    refine ⟨t, rfl, ?_⟩
    show t.attempts ≤ t.attempts + _ + _
    omega

theorem Moves.started_le (h : Moves id r l r')
    (hkept : .created id ∉ l ∧ .redefined id ∉ l) {t : TaskRecord Q} (hr : r = some t) :
    ∀ t', r' = some t' → t'.started ≤ t.started + l.countP (·.isClaimOf id) := by
  induction h with
  | refl =>
    rintro _ rfl
    cases hr
    exact Nat.le_add_right _ _
  | prune _ _ _ => exact fun _ h => absurd h.symm (Option.some_ne_none _)
  | @step l _ _ e _ he ih =>
    rintro t' rfl
    simp only [mem_append, mem_singleton, not_or] at hkept
    obtain ⟨⟨hcreated, hc⟩, hredefined, hr⟩ := hkept
    obtain ⟨t₁, rfl, hstep⟩ := he.started_le (Ne.symm hc) (Ne.symm hr)
    have hle := ih ⟨hcreated, hredefined⟩ t₁ rfl
    rw [countP_append]
    omega

end Attempts

/-- In every run of any number of workers on one store with positive leases:

1. Between two claims of a task by different workers the first one has finalised it, it was
   cancelled or redefined, or the first other worker to come finds its lease expired.
2. A finalizer that is called by a worker that does not hold the task changes nothing. Only the
   worker whose claim is the last thing that has happened to the task, renewals apart, holds it,
   or the one that a task was enqueued for as running.
3. While the record of a task is not replaced, its attempts grow by at most the claims, and one
   more if it is running at first. -/
theorem claims_fenced (terminalRetentionMs maxTerminalTasks : Option Int) (s : StoreState Q)
    (h : (taskMachine terminalRetentionMs maxTerminalTasks).Reach (fun _ a => a.Leased) s) :
    (∀ id w v since now ttl ttl' pre mid post,
      s.log = pre ++ .claimed id w since ttl :: (mid ++ .claimed id v now ttl' :: post) → v ≠ w →
        .finalised id w ∈ mid ∨ .cancelled id ∈ mid ∨ .redefined id ∈ mid ∨
          TakenOver id w since (mid ++ [.claimed id v now ttl'])) ∧
    (∀ id w, ¬ s.store.owned w id → ∀ now error nextRunAt lastError,
      s.store.markCompleted now id w = s.store ∧ s.store.markFailed now id error w = s.store ∧
        s.store.reschedule id nextRunAt w lastError = s.store) ∧
    (∀ id w, s.store.owned w id → s.log.foldl (next id) vacant = enqueued ∨
      ∃ since, s.log.foldl (next id) vacant = held w since) ∧
    ∀ t, ((taskMachine terminalRetentionMs maxTerminalTasks).restart s).Reach
        (fun _ a => a.Leased) t →
      ∃ l, t.log = s.log ++ l ∧ ∀ id r r', .created id ∉ l → .redefined id ∉ l →
        s.store.map.get? id = some r → t.store.map.get? id = some r' →
          r'.attempts ≤ r.attempts + (if r.status = .running then 1 else 0) +
            l.countP (·.isClaimOf id) := by
  obtain ⟨l, hlog, hmoves⟩ := moves_run terminalRetentionMs maxTerminalTasks h
  have hobeys (id : String) := (hmoves id).obeys vacant_agrees_none
  rw [show l = s.log from hlog.symm] at hobeys
  refine ⟨?_, ?_, ?_, ?_⟩
  · intro id w v since now ttl ttl' pre mid post hsplit hne
    have hrest := (hobeys id).1
    rw [hsplit, Trace.obeys_append] at hrest
    have hheld := hrest.2.2
    rw [next_claimed, append_cons, Trace.obeys_append] at hheld
    exact takeover hne hheld.1
  · intro id w hnot now error nextRunAt lastError
    exact ⟨InMemoryScheduledTaskStore.rewrites_markCompleted.refuses hnot,
      InMemoryScheduledTaskStore.rewrites_markFailed.refuses hnot,
      InMemoryScheduledTaskStore.rewrites_reschedule.refuses hnot⟩
  · intro id w howned
    obtain ⟨t, hget, ho⟩ := InMemoryScheduledTaskStore.owned_iff.mp howned
    have hagrees := (hobeys id).2
    rw [hget] at hagrees
    cases hb : s.log.foldl (next id) vacant with
    | vacant =>
      rw [hb] at hagrees
      exact absurd (owns_iff.mp ho).1 (hagrees t rfl)
    | enqueued => exact .inl rfl
    | held workerId since =>
      rw [hb] at hagrees
      exact .inr ⟨since, by rw [hagrees.owner ho]⟩
  · intro t ht
    obtain ⟨l', hlog', hmoves'⟩ := moves_run _ _ ht
    refine ⟨l', hlog', fun id r r' hcreated hredefined hr hr' => ?_⟩
    exact (Nat.le_add_right _ _).trans
      ((hmoves' id).started_le ⟨hcreated, hredefined⟩ hr r' hr')

/-- The lease of the first worker is renewed at 5, so the second worker may come at 15. -/
def renewedOnce : List (StoreAction Unit) :=
  [.enqueue 0 (chore "nightly" 0), .claimDue "w1" 0 10 10, .extendLease 5 ["nightly"] "w1",
    .claimDue "w2" 12 10 10, .claimDue "w2" 15 10 10]

theorem claims_fenced_renewed : ∃ s : StoreState Unit,
    (taskMachine none none).Reach (fun _ a => a.Leased) s ∧
      s.log = [.created "nightly", .claimed "nightly" "w1" 0 10, .extended "nightly" "w1" 5,
        .claimed "nightly" "w2" 15 10] ∧
      TakenOver "nightly" "w1" 0 [.extended "nightly" "w1" 5, .claimed "nightly" "w2" 15 10] ∧
      s.store.markCompleted 16 "nightly" "w1" = s.store := by
  obtain ⟨s, hs, hobs⟩ := Machine.Reach.observe (taskMachine none none) (fun _ a => a.Leased)
    renewedOnce (fun s => (s.log, s.store.owned "w1" "nightly"))
    ([.created "nightly", .claimed "nightly" "w1" 0 10, .extended "nightly" "w1" 5,
      .claimed "nightly" "w2" 15 10], false)
    (by decide +kernel)
  obtain ⟨hlog, howned⟩ := Prod.mk.inj hobs
  obtain ⟨hclaims, hfinal, -⟩ := claims_fenced none none s hs
  refine ⟨s, hs, hlog, ?_, (hfinal "nightly" "w1" (by rw [howned]; decide) 16 "" 0 none).1⟩
  have htaken := hclaims "nightly" "w1" "w2" 0 15 10 10 [.created "nightly"]
    [.extended "nightly" "w1" 5] [] hlog (by decide)
  rcases htaken with hmem | hmem | hmem | htaken
  · exact absurd hmem (by decide)
  · exact absurd hmem (by decide)
  · exact absurd hmem (by decide)
  · exact htaken

end NevoMessaging
