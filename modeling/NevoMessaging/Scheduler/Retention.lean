import NevoMessaging.Scheduler.Flush

/-!
# Finished tasks

`InMemoryScheduledTaskStore` keeps a list of the ids of the tasks that have come to their end.
Pruning walks over this list, removes the tasks that have expired, and then the first ones of the
others if there are too many. `cancel` does not ask whether the task is at its end already: it makes
the task a cancelled one and puts the id on the list a second time, where it counts as one more
task.

Results:
1. `get?_pruneTerminal`: what pruning keeps if no id is on the list twice.
2. `retained_step`: no id is, unless a task is cancelled whose id is on the list.
3. `retains_recent`: then pruning keeps the most recent tasks that have not expired.
-/

namespace NevoMessaging

open List

variable {Q : Type}

def TaskRecord.expired (t : TaskRecord Q) (retention now : Int) : Bool :=
  retention < now - t.completedAt.getD t.createdAt

namespace InMemoryScheduledTaskStore

variable {st : InMemoryScheduledTaskStore Q} {m : Table (TaskRecord.key (Q := Q))} {id k : String}
  {retention now : Int}

/-- The task is at its end and has not expired. -/
def liveIn (retention now : Int) (m : Table (TaskRecord.key (Q := Q))) (id : String) : Bool :=
  (m.get? id).any fun t => t.terminal && !t.expired retention now

def live (st : InMemoryScheduledTaskStore Q) (now : Int) (id : String) : Bool :=
  liveIn st.terminalRetentionMs now st.map id

def doneIn (m : Table (TaskRecord.key (Q := Q))) (id : String) : Bool :=
  (m.get? id).any (·.terminal)

def done (st : InMemoryScheduledTaskStore Q) (id : String) : Bool := doneIn st.map id

/-- The last ones of the ids, as many as may be kept. -/
def newest (st : InMemoryScheduledTaskStore Q) (ids : List String) : List String :=
  ids.drop (ids.length - st.maxTerminalTasks)

/-! ## Pruning -/

theorem liveIn_erase_ne (h : k ≠ id) : liveIn retention now (m.erase id)
    k = liveIn retention now m k := by
  unfold liveIn
  rw [Table.get?_erase_ne m h]

theorem pruneLoop_eq {ids : List String} (hnodup : ids.Nodup) :
    (pruneLoop retention now ids m).1 = ids.filter (liveIn retention now m) ∧
      ∀ k, (pruneLoop retention now ids m).2.get? k =
        if k ∈ ids ∧ doneIn m k ∧ ¬ liveIn retention now m k then none else m.get? k := by
  induction ids generalizing m with
  | nil => exact ⟨rfl, fun k => (if_neg fun h => not_mem_nil h.1).symm⟩
  | cons id ids ih =>
    obtain ⟨hid, hnodup⟩ := nodup_cons.mp hnodup
    obtain ⟨hlist, hmap⟩ := @ih m hnodup
    -- an id that stays in the map, or is not there, has no say in the rest of the walk
    have hskip (hstay : doneIn m id → liveIn retention now m id) (k : String) :
        (pruneLoop retention now ids m).2.get? k =
          if k ∈ id :: ids ∧ doneIn m k ∧ ¬ liveIn retention now m k then none else m.get? k := by
      rw [hmap]
      by_cases hk : k = id
      · rw [hk, if_neg fun h => h.2.2 (hstay h.2.1), if_neg fun h => h.2.2 (hstay h.2.1)]
      · simp [hk]
    rw [pruneLoop]
    cases hget : m.get? id with
    | none =>
      refine ⟨?_, hskip (by simp [doneIn, hget])⟩
      rw [filter_cons_of_neg (by simp [liveIn, hget])]
      exact hlist
    | some task =>
      dsimp only
      split
      next hterminal =>
        split
        next hexpired =>
          obtain ⟨hlist', hmap'⟩ := @ih (m.erase id) hnodup
          constructor
          · rw [hlist', filter_cons_of_neg
              (by simp [liveIn, hget, TaskRecord.expired, hexpired])]
            exact filter_congr fun k hk => liveIn_erase_ne fun heq => hid (heq ▸ hk)
          · intro k
            rw [hmap']
            by_cases hk : k = id
            · rw [hk, if_neg (fun h => hid h.1), Table.get?_erase_self, if_pos]
              refine ⟨mem_cons_self, by simp [doneIn, hget, hterminal], ?_⟩
              simp [liveIn, hget, TaskRecord.expired, hexpired]
            · rw [doneIn, liveIn_erase_ne hk, Table.get?_erase_ne m hk]
              simp [hk, doneIn]
        next hlive =>
          have hkeep : liveIn retention now m id := by
            simp [liveIn, hget, hterminal, TaskRecord.expired, hlive]
          refine ⟨?_, hskip fun _ => hkeep⟩
          rw [filter_cons_of_pos hkeep]
          exact congrArg (id :: ·) hlist
      next hactive =>
        refine ⟨?_, hskip (by simp [doneIn, hget, hactive])⟩
        rw [filter_cons_of_neg (by simp [liveIn, hget, hactive])]
        exact hlist

theorem terminal_pruneTerminal (h : st.terminal.Nodup) :
    (st.pruneTerminal now).terminal = st.newest (st.terminal.filter (st.live now)) := by
  show (pruneLoop st.terminalRetentionMs now st.terminal st.map).1.drop _ = _
  rw [(pruneLoop_eq h).1]
  rfl

theorem done_of_live (h : st.live now id) : st.done id := by
  unfold live liveIn at h
  unfold done doneIn
  rw [Option.any_eq_true] at h ⊢
  obtain ⟨t, hget, hlive⟩ := h
  exact ⟨t, hget, (Bool.and_eq_true _ _ ▸ hlive).1⟩

theorem filter_live (st : InMemoryScheduledTaskStore Q) (now : Int) (l : List String) :
    l.filter (st.live now) = (l.filter st.done).filter (st.live now) := by
  rw [filter_filter]
  refine filter_congr fun k _ => ?_
  cases hk : st.live now k with
  | false => rfl
  | true => rw [done_of_live hk, Bool.and_self]

/-- Pruning removes the tasks on the list that are at their end, but not the newest ones. -/
theorem get?_pruneTerminal (h : st.terminal.Nodup) (k : String) :
    (st.pruneTerminal now).map.get? k =
      if k ∈ st.terminal ∧ st.done k ∧ k ∉ st.newest (st.terminal.filter (st.live now)) then none
      else st.map.get? k := by
  obtain ⟨hlist, hmap⟩ := @pruneLoop_eq Q st.map st.terminalRetentionMs now st.terminal h
  show ((take _ _).foldl Table.erase (pruneLoop st.terminalRetentionMs now st.terminal
    st.map).2).get?
    k = _
  rw [Table.get?_foldl_erase, hmap, hlist]
  change (if k ∈ (st.terminal.filter (st.live now)).take
    ((st.terminal.filter (st.live now)).length - st.maxTerminalTasks) then none else _) = _
  generalize hn : (st.terminal.filter (st.live now)).length - st.maxTerminalTasks = n
  have hnewest : st.newest (st.terminal.filter (st.live now)) =
      (st.terminal.filter (st.live now)).drop n := hn ▸ rfl
  have hsplit := take_append_drop n (st.terminal.filter (st.live now))
  have hapart : ∀ x ∈ (st.terminal.filter (st.live now)).take n,
      x ∉ (st.terminal.filter (st.live now)).drop n := by
    have hboth := h.filter (st.live now)
    rw [← hsplit, nodup_append] at hboth
    exact fun x hx hx' => hboth.2.2 x hx x hx' rfl
  rw [hnewest]
  split
  next htake =>
    obtain ⟨hmem, hlive⟩ := mem_filter.mp (mem_of_mem_take htake)
    rw [if_pos ⟨hmem, done_of_live hlive, hapart k htake⟩]
  next htake =>
    split
    next hexpired =>
      obtain ⟨hmem, hdone, hnot⟩ := hexpired
      have hdrop : k ∉ (st.terminal.filter (st.live now)).drop n := fun hdrop =>
        hnot (mem_filter.mp (mem_of_mem_drop hdrop)).2
      rw [if_pos ⟨hmem, hdone, hdrop⟩]
    next hstays =>
      rw [if_neg]
      rintro ⟨hmem, hdone, hdrop⟩
      refine hstays ⟨hmem, hdone, fun hlive => ?_⟩
      have hsides : k ∈ st.terminal.filter (st.live now) := mem_filter.mpr ⟨hmem, hlive⟩
      rw [← hsplit, mem_append] at hsides
      exact hsides.elim htake hdrop

end InMemoryScheduledTaskStore

/-! ## Runs -/

/-- `ended` has the ids of the tasks that have come to their end, by the time at which they last
did. It is not part of the program. -/
structure RetentionState (Q : Type) where
  store : InMemoryScheduledTaskStore Q
  ended : List String := []

/-- The task that the operation brings to its end. -/
def InMemoryScheduledTaskStore.finished (st : InMemoryScheduledTaskStore Q) :
    StoreAction Q → Option String
  | .markCompleted _ id workerId => if st.owned workerId id then some id else none
  | .markFailed now id error workerId =>
    if (st.map.get? id).any fun t => t.owns workerId && (t.fail now error).status = .failed
    then some id
    else none
  | .cancel _ id => if (st.map.get? id).any (·.active) then some id else none
  | _ => none

def retentionMachine (terminalRetentionMs maxTerminalTasks : Option Int) :
    Machine (RetentionState Q) (StoreAction Q) where
  init := { store := .create terminalRetentionMs maxTerminalTasks }
  step s a := some {
    store := s.store.next a
    ended :=
      match s.store.finished a with
      | some id => s.ended.filter (· ≠ id) ++ [id]
      | none => s.ended }

/-- Tasks are enqueued as pending and claimed for a time, and no task is cancelled whose id is on
the list of finished tasks. -/
def StoreAction.Sparing (st : InMemoryScheduledTaskStore Q) : StoreAction Q → Prop
  | .cancel _ id => id ∉ st.terminal
  | a => a.Admissible

/-- The tasks that are at their end are on the list, once and in the order of `ended`. A task that
was defined anew may still be on it, but not when it runs. -/
structure RetentionState.Retained (s : RetentionState Q) : Prop where
  nodup : s.store.terminal.Nodup
  listed : ∀ id, s.store.done id → id ∈ s.store.terminal
  running : ∀ id t, s.store.map.get? id = some t → t.status = .running → id ∉ s.store.terminal
  ordered : s.store.terminal.filter s.store.done = s.ended.filter s.store.done

section Runs

open InMemoryScheduledTaskStore

variable {s s' : RetentionState Q} {a : StoreAction Q} {id k : String} {now : Int}
  {t : TaskRecord Q} {st : InMemoryScheduledTaskStore Q}

theorem done_iff : st.done id ↔ ∃ t, st.map.get? id = some t ∧ t.terminal := by
  unfold done doneIn
  rw [Option.any_eq_true]

theorem filter_mem_of_sublist {l l' : List String} (h : l'.Sublist l) (hnodup : l.Nodup) :
    l.filter (· ∈ l') = l' := by
  induction h with
  | slnil => rfl
  | @cons l₁ l₂ x hsub ih =>
    obtain ⟨hx, hnodup⟩ := nodup_cons.mp hnodup
    rw [filter_cons_of_neg (by simpa using fun hmem => hx (hsub.subset hmem)), ih hnodup]
  | @cons_cons l₁ l₂ x hsub ih =>
    obtain ⟨hx, hnodup⟩ := nodup_cons.mp hnodup
    rw [filter_cons_of_pos (by simp)]
    refine congrArg (x :: ·) (Eq.trans (filter_congr fun y hy => ?_) (ih hnodup))
    have hne : y ≠ x := fun heq => hx (heq ▸ hy)
    simp [hne]

theorem newest_sublist (st : InMemoryScheduledTaskStore Q) (now : Int) :
    (st.newest (st.terminal.filter (st.live now))).Sublist (st.terminal.filter (st.live now)) :=
  drop_sublist _ _

theorem done_pruneTerminal (h : s.Retained) (now : Int) (k : String) :
    (s.store.pruneTerminal now).done k ↔
      k ∈ s.store.newest (s.store.terminal.filter (s.store.live now)) := by
  unfold done doneIn
  rw [get?_pruneTerminal h.nodup]
  split
  next hremoved =>
    exact ⟨fun hdone => absurd hdone Bool.false_ne_true, fun hk => absurd hk hremoved.2.2⟩
  next hstays =>
    constructor
    · intro hdone
      by_contra hk
      exact hstays ⟨h.listed k hdone, hdone, hk⟩
    · exact fun hk => done_of_live (mem_filter.mp ((newest_sublist s.store now).subset hk)).2

theorem RetentionState.Retained.prune (h : s.Retained) (now : Int) :
    RetentionState.Retained { s with store := s.store.pruneTerminal now } := by
  have hsub := newest_sublist s.store now
  have hdone := done_pruneTerminal h now
  have hlist := @terminal_pruneTerminal Q s.store now h.nodup
  generalize hnewest : s.store.newest (s.store.terminal.filter (s.store.live now)) = newest at *
  have hfilter : newest.Sublist (s.store.terminal.filter s.store.done) :=
    (filter_live s.store now _ ▸ hsub).trans filter_sublist
  refine ⟨?_, fun id hd => ?_, fun id t hget hrun => ?_, ?_⟩
  · show (s.store.pruneTerminal now).terminal.Nodup
    rw [hlist]
    exact (h.nodup.filter _).sublist hsub
  · show id ∈ (s.store.pruneTerminal now).terminal
    rw [hlist]
    exact (hdone id).mp hd
  · show id ∉ (s.store.pruneTerminal now).terminal
    rw [hlist]
    exact fun hid => h.running id t (get?_of_pruned hget) hrun
      (mem_of_mem_filter (hsub.subset hid))
  · show (s.store.pruneTerminal now).terminal.filter (s.store.pruneTerminal now).done =
      s.ended.filter (s.store.pruneTerminal now).done
    have hboth (k : String) :
        (s.store.pruneTerminal now).done k = (decide (k ∈ newest) && s.store.done k) := by
      rw [Bool.eq_iff_iff, hdone, Bool.and_eq_true, decide_eq_true_eq]
      exact ⟨fun hk => ⟨hk, (mem_filter.mp (hfilter.subset hk)).2⟩, And.left⟩
    rw [hlist, filter_eq_self.mpr fun k hk => (hdone k).mpr hk, funext hboth,
      ← filter_filter, ← h.ordered, filter_mem_of_sublist hfilter (h.nodup.filter _)]

theorem RetentionState.Retained.restrict (h : s.Retained) (p : String → Bool)
    (hterminal : st.terminal = s.store.terminal) (hdone : ∀ k, st.done k = (p k && s.store.done k))
    (hrunning : ∀ k t, st.map.get? k = some t → t.status = .running → k ∉ s.store.terminal) :
    RetentionState.Retained { s with store := st } := by
  refine ⟨hterminal ▸ h.nodup, fun k hk => ?_, fun k t hget hrun => ?_, ?_⟩
  · show k ∈ st.terminal
    rw [hterminal]
    exact h.listed k (Bool.and_eq_true _ _ ▸ hdone k ▸ hk).2
  · show k ∉ st.terminal
    rw [hterminal]
    exact hrunning k t hget hrun
  · show st.terminal.filter st.done = s.ended.filter st.done
    rw [hterminal, funext hdone, ← filter_filter, ← filter_filter, h.ordered]

theorem RetentionState.Retained.finish (h : s.Retained) (hid : id ∉ s.store.terminal)
    (hterminal : st.terminal = s.store.terminal ++ [id])
    (hdone : ∀ k, st.done k = (decide (k = id) || s.store.done k))
    (hrunning : ∀ k t, st.map.get? k = some t → t.status = .running →
      k ≠ id ∧ s.store.map.get? k = some t) :
    RetentionState.Retained { store := st, ended := s.ended.filter (· ≠ id) ++ [id] } := by
  have hold : s.store.done id = false := by
    rw [Bool.eq_false_iff]
    exact fun hd => hid (h.listed id hd)
  refine ⟨?_, fun k hk => ?_, fun k t hget hrun => ?_, ?_⟩
  · show st.terminal.Nodup
    rw [hterminal]
    exact nodup_append.mpr ⟨h.nodup, nodup_singleton _, fun x hx y hy heq =>
      hid (mem_singleton.mp hy ▸ heq ▸ hx)⟩
  · show k ∈ st.terminal
    have hk : st.done k = true := hk
    rw [hdone, Bool.or_eq_true, decide_eq_true_eq] at hk
    rw [hterminal, mem_append, mem_singleton]
    exact hk.symm.imp (h.listed k) fun heq => heq
  · show k ∉ st.terminal
    obtain ⟨hne, hget⟩ := hrunning k t hget hrun
    rw [hterminal, mem_append, mem_singleton, not_or]
    exact ⟨h.running k t hget hrun, hne⟩
  · show st.terminal.filter st.done = (s.ended.filter (· ≠ id) ++ [id]).filter st.done
    have hlast : [id].filter st.done = [id] := by simp [hdone]
    have hothers {l : List String} (hl : id ∉ l) : l.filter st.done = l.filter s.store.done := by
      refine filter_congr fun k hk => ?_
      have hne : k ≠ id := fun heq => hl (heq ▸ hk)
      rw [hdone, decide_eq_false hne, Bool.false_or]
    have hended : (s.ended.filter (· ≠ id)).filter s.store.done = s.ended.filter s.store.done := by
      rw [filter_filter]
      refine filter_congr fun k _ => ?_
      by_cases hk : k = id
      · simp [hk, hold]
      · simp [hk]
    rw [hterminal, filter_append, filter_append, hlast, hothers hid,
      hothers (by simp), hended, h.ordered]

variable {st' : InMemoryScheduledTaskStore Q} {f : TaskRecord Q → TaskRecord Q} {workerId : String}

theorem done_eq_false_of_active (hget : st.map.get? id = some t) (h : t.active) :
    st.done id = false := by
  unfold done doneIn
  rw [hget, Option.any_some, Bool.eq_false_iff]
  exact TaskRecord.not_terminal.mpr h

/-- The state after an operation that brings a task to its end, or none. -/
def RetentionState.after (s : RetentionState Q) (st : InMemoryScheduledTaskStore Q)
    (finished : Option String) : RetentionState Q where
  store := st
  ended :=
    match finished with
    | some id => s.ended.filter (· ≠ id) ++ [id]
    | none => s.ended

/-- An operation on a task that is not on the list. -/
theorem RetentionState.Retained.rewrites {p : TaskRecord Q → Bool} {hf : ∀ t, (f t).key = t.key}
    {finished : Option String} (h : s.Retained) (hr : s.store.Rewrites id p f hf st')
    (hfree : ∀ t, s.store.map.get? id = some t → p t → t.active ∧ id ∉ s.store.terminal)
    (hno : ¬ (s.store.map.get? id).any p → finished = none)
    (hyes : ∀ t, s.store.map.get? id = some t → p t →
      finished = if (f t).terminal then some id else none) :
    (s.after st' finished).Retained := by
  have hdone {t : TaskRecord Q} (hget : s.store.map.get? id = some t) (k : String) :
      doneIn (s.store.map.update id f hf) k =
        if k = id then (f t).terminal else s.store.done k := by
    unfold doneIn
    split
    next heq => rw [heq, Table.get?_update_self, hget, Option.map_some, Option.any_some]
    next hne =>
      rw [Table.get?_update_ne hne]
      rfl
  -- a task that does not come to its end
  have hstays {t : TaskRecord Q} (hget : s.store.map.get? id = some t) (hp : p t)
      (hactive : (f t).active) (hterminal : st'.terminal = s.store.terminal)
      (hmap : st'.map = s.store.map.update id f hf) : (s.after st' finished).Retained := by
    rw [hyes t hget hp, if_neg (TaskRecord.not_terminal.mpr hactive)]
    refine h.restrict (fun _ => true) hterminal (fun k => ?_) fun k u hget' hrunning => ?_
    · unfold done
      rw [hmap, hdone hget, Bool.true_and]
      split
      next heq =>
        rw [heq]
        exact (Bool.eq_false_iff.mpr (TaskRecord.not_terminal.mpr hactive)).trans
          (done_eq_false_of_active hget (hfree t hget hp).1).symm
      next => rfl
    · rw [hmap] at hget'
      rcases get?_of_update hf hget' with ⟨hsame, -⟩ | ⟨u, rfl, -, rfl⟩
      · exact h.running k u hsame hrunning
      · exact (hfree t hget hp).2
  cases hr with
  | refused hany =>
    rw [hno hany]
    exact h
  | @ended t hget hp hend =>
    rw [hyes t hget hp, if_pos hend]
    refine h.finish (hfree t hget hp).2 rfl (fun k => ?_) fun k u hget' hrunning => ?_
    · refine (hdone hget k).trans ?_
      split
      next heq => simp [heq, hend]
      next hne => simp [hne]
    · rcases get?_of_update hf hget' with ⟨hsame, hne⟩ | ⟨u, rfl, hold, rfl⟩
      · exact ⟨hne, hsame⟩
      · cases hget.symm.trans hold
        rw [TaskRecord.terminal, hrunning] at hend
        exact absurd hend (by decide)
  | @again t hget hp hpending =>
    exact hstays hget hp (by simp [TaskRecord.active, hpending]) rfl rfl
  | @kept t hget hp _ hstatus =>
    refine hstays hget hp ?_ rfl rfl
    rw [TaskRecord.active, hstatus]
    exact (hfree t hget hp).1

theorem RetentionState.Retained.set (h : s.Retained) {task : TaskRecord Q}
    (hpending : task.status = .pending) (hmap : st'.map = s.store.map.set task)
    (hterminal : st'.terminal = s.store.terminal) :
    RetentionState.Retained { s with store := st' } := by
  refine h.restrict (fun k => decide (k ≠ task.key)) hterminal (fun k => ?_) fun k t hget hrun => ?_
  · unfold done doneIn
    rw [hmap]
    by_cases hk : k = task.key
    · rw [hk, Table.get?_set_self]
      simp [TaskRecord.terminal, hpending]
    · rw [Table.get?_set_ne _ hk]
      simp [hk]
  · rw [hmap] at hget
    rcases get?_of_set hget with ⟨hsame, -⟩ | ⟨-, rfl⟩
    · exact h.running k t hsame hrun
    · rw [hpending] at hrun
      cases hrun

theorem retained_enqueue (h : s.Retained) (now : Int) {task : TaskRecord Q}
    (hpending : task.status = .pending) :
    RetentionState.Retained { s with store := s.store.enqueue now task } := by
  have hpruned := h.prune now
  unfold InMemoryScheduledTaskStore.enqueue
  dsimp only
  split
  · split
    · exact hpruned.set (by exact hpending) rfl rfl
    · exact hpruned
  · rw [if_pos hpending]
    exact hpruned.set hpending rfl rfl

theorem terminal_claimDue (st : InMemoryScheduledTaskStore Q) (workerId : String) (now : Int)
    (limit : Nat) (claimTtlMs : Int) :
    (st.claimDue workerId now limit claimTtlMs).2.terminal = (st.pruneTerminal now).terminal := by
  have hrequeue (tasks : List (TaskRecord Q)) (st : InMemoryScheduledTaskStore Q) :
      (tasks.foldl markClaimable st).terminal = st.terminal := by
    induction tasks generalizing st with
    | nil => rfl
    | cons t tasks ih => exact ih (st.markClaimable t)
  exact hrequeue _ _

theorem retained_claimDue (h : s.Retained) (workerId : String) (now : Int) (limit : Nat)
    {claimTtlMs : Int} (httl : 0 < claimTtlMs) :
    RetentionState.Retained { s with store :=
      (s.store.claimDue workerId now limit claimTtlMs).2 } := by
  have hpruned := h.prune now
  refine hpruned.restrict (fun _ => true) (terminal_claimDue ..) (fun k => ?_)
    fun k u hget hrun => ?_
  · rw [Bool.true_and]
    unfold done doneIn
    rcases s.store.get?_claimDue httl k with ⟨-, hsame⟩ | ⟨t, hold, heligible, -, hclaimed⟩
    · rw [hsame]
    · have hterminal : t.terminal = false := Bool.eq_false_iff.mpr
        (TaskRecord.not_terminal.mpr (active_of_claimable (eligible_iff.mp heligible).2))
      rw [hclaimed, hold, Option.any_some, Option.any_some, hterminal]
      rfl
  · rcases s.store.get?_claimDue httl k with ⟨-, hsame⟩ | ⟨t, hold, heligible, -, -⟩
    · exact hpruned.running k u (hsame ▸ hget) hrun
    · intro hk
      rw [terminal_pruneTerminal h.nodup, ← done_pruneTerminal h,
        done_eq_false_of_active hold (active_of_claimable (eligible_iff.mp heligible).2)] at hk
      exact Bool.false_ne_true hk

theorem RetentionState.Retained.owned (h : s.Retained) (hget : s.store.map.get? id = some t)
    (ho : t.owns workerId) : t.active ∧ id ∉ s.store.terminal := by
  have hrun := (owns_iff.mp ho).1
  exact ⟨by simp [TaskRecord.active, hrun], h.running id t hget hrun⟩

theorem retained_extendLease (h : s.Retained) (ids : List String) (workerId : String) :
    RetentionState.Retained { s with store := s.store.extendLease now ids workerId } := by
  unfold extendLease
  induction ids generalizing s with
  | nil => exact h
  | cons k ids ih =>
    refine @ih { s with store := extendOne now workerId s.store k } ?_
    refine h.rewrites rewrites_extendOne (fun _ => h.owned) (fun _ => rfl) fun t hget ho => ?_
    exact (if_neg (TaskRecord.not_terminal.mpr (h.owned hget ho).1)).symm

variable {terminalRetentionMs maxTerminalTasks : Option Int}

theorem retained_step (h : s.Retained) (ha : a.Sparing s.store)
    (hstep : (retentionMachine terminalRetentionMs maxTerminalTasks).step s a = some s') :
    s'.Retained := by
  cases a with
  | enqueue now task =>
    cases hstep
    exact retained_enqueue h now ha
  | claimDue workerId now limit claimTtlMs =>
    cases hstep
    exact retained_claimDue h workerId now limit ha.2
  | markCompleted now id workerId =>
    cases hstep
    exact h.rewrites rewrites_markCompleted (fun _ => h.owned) (fun hno => if_neg hno)
      fun t hget ho => if_pos (owned_iff.mpr ⟨t, hget, ho⟩)
  | markFailed now id error workerId =>
    cases hstep
    refine h.rewrites rewrites_markFailed (fun _ => h.owned) (fun hno => ?_) fun t hget ho => ?_
    · refine if_neg fun hany => hno ?_
      obtain ⟨t, hget, hboth⟩ := (Option.any_eq_true _ _).mp hany
      exact owned_iff.mpr ⟨t, hget, (Bool.and_eq_true_iff.mp hboth).1⟩
    · rw [finished, hget, Option.any_some, ho, Bool.true_and, TaskRecord.terminal]
      rcases t.status_fail now error with hstatus | hstatus <;> rw [hstatus] <;> rfl
  | reschedule id nextRunAt workerId error =>
    cases hstep
    exact h.rewrites rewrites_reschedule (fun _ => h.owned) (fun _ => rfl) fun _ _ _ => rfl
  | extendLease now ids workerId =>
    cases hstep
    exact retained_extendLease h ids workerId
  | cancel now id =>
    cases hstep
    have hactive (t : TaskRecord Q) (hget : s.store.map.get? id = some t) : t.active := by
      by_contra hactive
      exact ha (h.listed id
        (done_iff.mpr ⟨t, hget, not_imp_comm.mp TaskRecord.not_terminal.mp hactive⟩))
    refine h.rewrites rewrites_cancel (fun t hget _ => ⟨hactive t hget, ha⟩) (fun hno => ?_)
      fun t hget _ => ?_
    · refine if_neg fun hany => hno ?_
      obtain ⟨t, hget, -⟩ := (Option.any_eq_true _ _).mp hany
      exact (Option.any_eq_true _ _).mpr ⟨t, hget, rfl⟩
    · exact if_pos ((Option.any_eq_true _ _).mpr ⟨t, hget, hactive t hget⟩)
  | list now status limit =>
    cases hstep
    exact h.prune now

theorem retained_reach (h : (retentionMachine terminalRetentionMs maxTerminalTasks).Reach
    (fun s a => a.Sparing s.store) s) : s.Retained := by
  refine h.invariant ?_ fun _ hinv ha hstep =>
    retained_step hinv ha hstep
  exact ⟨nodup_nil, fun id hd => absurd hd Bool.false_ne_true, fun id t hget =>
    (by cases hget), rfl⟩

theorem cancel_eq_iff (st : InMemoryScheduledTaskStore Q) (now : Int) (id : String) :
    st.cancel now id = st ↔ st.map.get? id = none := by
  unfold InMemoryScheduledTaskStore.cancel
  constructor
  · intro heq
    by_contra hsome
    obtain ⟨t, hget⟩ := Option.ne_none_iff_exists'.mp hsome
    rw [hget] at heq
    have hlist : st.terminal ++ [id] = st.terminal := congrArg terminal heq
    simp at hlist
  · intro hget
    rw [hget]

/-- The most recent tasks at their end that have not expired, as many as may be kept. -/
def RetentionState.recent (s : RetentionState Q) (now : Int) : List String :=
  s.store.newest (s.ended.filter (s.store.live now))

theorem recent_eq (h : s.Retained) (now : Int) :
    s.recent now = s.store.newest (s.store.terminal.filter (s.store.live now)) := by
  unfold RetentionState.recent
  rw [filter_live, ← h.ordered, ← filter_live]

/-- A call of `cancel` changes nothing exactly if there is no task under the id. In every run in
which no task is cancelled whose id is on the list of finished tasks, pruning keeps the tasks that
are not at their end, and of the others the most recent ones that have not expired. -/
theorem retains_recent (terminalRetentionMs maxTerminalTasks : Option Int) (s : RetentionState Q)
    (h : (retentionMachine terminalRetentionMs maxTerminalTasks).Reach
      (fun s a => a.Sparing s.store) s) :
    (∀ now id, s.store.cancel now id = s.store ↔ s.store.map.get? id = none) ∧
    ∀ now t, t ∈ (s.store.pruneTerminal now).map.rows ↔
      t ∈ s.store.map.rows ∧ (t.active ∨ t.id ∈ s.recent now) := by
  have hinv := retained_reach h
  refine ⟨cancel_eq_iff s.store, fun now t => ?_⟩
  have hget := @get?_pruneTerminal Q s.store now hinv.nodup t.key
  rw [← recent_eq hinv] at hget
  have hkey (st : InMemoryScheduledTaskStore Q) :
      t ∈ st.map.rows ↔ st.map.get? t.key = some t :=
    ⟨Table.get?_of_mem, fun h => (Table.get?_eq_some.mp h).1⟩
  rw [hkey, hkey, hget]
  split
  next hremoved =>
    refine ⟨fun hnone => (by cases hnone), fun hboth => ?_⟩
    obtain ⟨hsome, hactive | hrecent⟩ := hboth
    · rw [done_eq_false_of_active hsome hactive] at hremoved
      exact absurd hremoved.2.1 Bool.false_ne_true
    · exact absurd hrecent hremoved.2.2
  next hstays =>
    refine ⟨fun hsome => ⟨hsome, ?_⟩, And.left⟩
    by_cases hactive : t.active
    · exact .inl hactive
    · have hdone : s.store.done t.key :=
        done_iff.mpr ⟨t, hsome, not_imp_comm.mp TaskRecord.not_terminal.mp hactive⟩
      refine .inr (not_not.mp fun hrecent => ?_)
      exact hstays ⟨hinv.listed t.key hdone, hdone, hrecent⟩

instance (st : InMemoryScheduledTaskStore Q) (a : StoreAction Q) : Decidable (a.Sparing st) :=
  match a with
  | .cancel _ id => inferInstanceAs (Decidable (id ∉ st.terminal))
  | .enqueue _ task => inferInstanceAs (Decidable (task.status = .pending))
  | .claimDue _ _ limit claimTtlMs =>
    inferInstanceAs (Decidable (1 ≤ limit ∧ 0 < claimTtlMs))
  | .markCompleted .. | .markFailed .. | .reschedule .. | .extendLease .. | .list .. =>
    inferInstanceAs (Decidable True)

/-- Two tasks that are completed, the first one before the second one. -/
def choresCompleted : List (StoreAction Unit) :=
  [.enqueue 0 (chore "a" 1), .enqueue 0 (chore "b" 2), .claimDue "w1" 3 10 1000,
    .markCompleted 4 "a" "w1", .markCompleted 5 "b" "w1"]

theorem retains_recent_one : ∃ s : RetentionState Unit,
    (retentionMachine none (some 1)).Reach (fun s a => a.Sparing s.store) s ∧ s.recent 6 = ["b"] ∧
      s.store.map.rows.length = 2 ∧ ∀ t, t ∈ (s.store.pruneTerminal 6).map.rows ↔
        t ∈ s.store.map.rows ∧ (t.active ∨ t.id ∈ s.recent 6) := by
  obtain ⟨s, hs, hobs⟩ := Machine.Reach.observe (retentionMachine none (some 1))
    (fun s a => a.Sparing s.store) choresCompleted
    (fun s => (s.recent 6, s.store.map.rows.length)) (["b"], 2) (by decide +kernel)
  obtain ⟨hrecent, hlength⟩ := Prod.mk.inj hobs
  exact ⟨s, hs, hrecent, hlength, (retains_recent none (some 1) s hs).2 6⟩

/-- There is room for both tasks. The first one is cancelled after its end: it becomes a cancelled
one and is on the list twice, and the next pruning removes it. -/
theorem cancelled_twice_lost : ∃ s : RetentionState Unit,
    (retentionMachine none (some 2)).Reach Machine.free s ∧
      s.store.terminal = ["a", "b"] ∧ s.store.map.rows.map (·.status) = [.completed, .completed] ∧
      (s.store.cancel 6 "a").terminal = ["a", "b", "a"] ∧
      (s.store.cancel 6 "a").map.rows.map (·.status) = [.cancelled, .completed] ∧
      ((s.store.cancel 6 "a").pruneTerminal 7).map.rows.map (·.id) = ["b"] := by
  obtain ⟨s, hs, hobs⟩ := Machine.Reach.observe (retentionMachine none (some 2)) Machine.free
    choresCompleted
    (fun s => (s.store.terminal, s.store.map.rows.map (·.status), (s.store.cancel 6 "a").terminal,
      (s.store.cancel 6 "a").map.rows.map (·.status),
      ((s.store.cancel 6 "a").pruneTerminal 7).map.rows.map (·.id)))
    (["a", "b"], [.completed, .completed], ["a", "b", "a"], [.cancelled, .completed], ["b"])
    (by decide +kernel)
  simp only [Prod.mk.injEq] at hobs
  exact ⟨s, hs, hobs⟩

end Runs

end NevoMessaging
