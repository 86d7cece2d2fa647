import NevoMessaging.Scheduler.Store

/-!
# The due heap loses no task

The heap may hold entries that are out of date and several entries of one task. It is enough that
every task that is pending or running has an entry with its current `runAt` and that no entry has
the time `NaN`: then a claim takes the oldest tasks that are due, as if it had looked through the
whole map. An entry with `NaN` is on top of every other one that it meets, so tasks that are due may
be under one that is not.

Results:
1. `prunes_pruneTerminal`: pruning only removes tasks that have come to their end.
2. `claimEnd_spec`: what the loop of `claimDue` claims and what it leaves.
3. `covered_reach`: every task that is not at its end has an entry, in every reachable state.
4. `claim_due_exact`: a claim is exact, and no operation loses a task.
5. `due_behind_nan`: a task that is due and not claimed.
-/

namespace NevoMessaging

open List

variable {Q : Type}

namespace InMemoryScheduledTaskStore

/-! ## Pruning -/

section Prune

variable {m m' m'' : Table (TaskRecord.key (Q := Q))} {id : String}

/-- Only tasks that are at their end are missing in `m'`. -/
structure Prunes (m m' : Table (TaskRecord.key (Q := Q))) : Prop where
  subset : m'.rows ⊆ m.rows
  active : ∀ t ∈ m.rows, t.active → t ∈ m'.rows

theorem Prunes.refl (m : Table (TaskRecord.key (Q := Q))) : Prunes m m :=
  ⟨List.Subset.refl _, fun _ ht _ => ht⟩

theorem Prunes.trans (h : Prunes m m') (h' : Prunes m' m'') : Prunes m m'' where
  subset := List.Subset.trans h'.subset h.subset
  active t ht ha := h'.active t (h.active t ht ha) ha

/-- No task under the id is pending or running. -/
def Ended (m : Table (TaskRecord.key (Q := Q))) (id : String) : Prop :=
  ∀ t ∈ m.rows, t.key = id → ¬ t.active

theorem Ended.mono (h : Ended m id) (hsub : m'.rows ⊆ m.rows) : Ended m' id :=
  fun t ht => h t (hsub ht)

theorem prunes_erase (h : Ended m id) : Prunes m (m.erase id) where
  subset := m.rows_filter_subset _
  active t ht ha := mem_filter.mpr ⟨ht, decide_eq_true fun hid => h t ht hid ha⟩

theorem prunes_foldl_erase {ids : List String} (h : ∀ id ∈ ids, Ended m id) :
    Prunes m (ids.foldl Table.erase m) := by
  induction ids generalizing m with
  | nil => exact .refl m
  | cons id ids ih =>
    have herase := prunes_erase (h id mem_cons_self)
    exact herase.trans
      (ih fun id' hid' => (h id' (mem_cons_of_mem id hid')).mono herase.subset)

theorem ended_of_get? {task : TaskRecord Q} (hget : m.get? id = some task) (h : task.terminal) :
    Ended m id := by
  obtain ⟨hmem, hkey⟩ := Table.get?_eq_some.mp hget
  intro t ht hid
  rw [m.eq_of_key_eq ht hmem (hid.trans hkey.symm)]
  exact fun ha => TaskRecord.not_terminal.mpr ha h

theorem pruneLoop_spec (retention now : Int) (ids : List String)
    (m : Table (TaskRecord.key (Q := Q))) :
    Prunes m (pruneLoop retention now ids m).2 ∧
      ∀ id ∈ (pruneLoop retention now ids m).1, Ended (pruneLoop retention now ids m).2 id := by
  induction ids generalizing m with
  | nil => exact ⟨.refl m, fun id hid => absurd hid not_mem_nil⟩
  | cons id ids ih =>
    rw [pruneLoop]
    split
    · exact ih m
    next task hget =>
      split
      next hterminal =>
        split
        · have herase := prunes_erase (ended_of_get? hget hterminal)
          exact ⟨herase.trans (ih _).1, (ih _).2⟩
        · refine ⟨(ih m).1, fun id' hid' => ?_⟩
          rcases mem_cons.mp hid' with rfl | hid'
          · exact (ended_of_get? hget hterminal).mono (ih m).1.subset
          · exact (ih m).2 id' hid'
      · exact ih m

theorem prunes_pruneTerminal (st : InMemoryScheduledTaskStore Q) (now : Int) :
    Prunes st.map (st.pruneTerminal now).map := by
  obtain ⟨hloop, hended⟩ := pruneLoop_spec st.terminalRetentionMs now st.terminal st.map
  exact hloop.trans (prunes_foldl_erase fun id hid => hended id (mem_of_mem_take hid))

end Prune

/-! ## The loop of a claim -/

section Claim

variable {m : Table (TaskRecord.key (Q := Q))} {workerId : String} {now : Int} {limit : Nat}
  {claimTtlMs : Int} {c : Claiming Q} {entry : DueEntry Int} {due : DueHeap Int}

/-- The loop after the task `t` is claimed. -/
def Claiming.claim (c : Claiming Q) (workerId : String) (now : Int) (due : DueHeap Int)
    (t : TaskRecord Q) : Claiming Q where
  due
  map := c.map.update t.id (TaskRecord.claim workerId now) (TaskRecord.key_claim workerId now)
  claimed := c.claimed ++ [t.claim workerId now]
  requeue := c.requeue ++ [t.claim workerId now]

/-- An entry of the heap is dropped, put back, or its task is claimed. -/
theorem take_cases (c : Claiming Q) (workerId : String) (now claimTtlMs : Int)
    (entry : DueEntry Int) (due : DueHeap Int) :
    (c.take workerId now claimTtlMs entry due = { c with due } ∧
      ∀ t ∈ c.map.rows, t.entry = entry → t.runAt ≠ .nan → ¬ t.active) ∨
    (∃ t ∈ c.map.rows, t.entry = entry ∧ t.active ∧ ¬ t.claimable now claimTtlMs ∧
      c.take workerId now claimTtlMs entry due = { c with due, requeue := c.requeue ++ [t] }) ∨
    ∃ t ∈ c.map.rows, t.entry = entry ∧ t.runAt ≠ .nan ∧ t.claimable now claimTtlMs ∧
      c.take workerId now claimTtlMs entry due = c.claim workerId now due t := by
  unfold Claiming.take
  cases hget : c.map.get? entry.id with
  | none =>
    refine .inl ⟨rfl, fun t ht he => ?_⟩
    have hnot := Table.get?_eq_none.mp hget
    exact absurd (Table.mem_keys.mpr ⟨t, ht, congrArg DueEntry.id he⟩) hnot
  | some task =>
    obtain ⟨hmem, hkey⟩ := Table.get?_eq_some.mp hget
    have huniq : ∀ t ∈ c.map.rows, t.entry = entry → t = task := fun t ht he =>
      c.map.eq_of_key_eq ht hmem ((congrArg DueEntry.id he).trans hkey.symm)
    dsimp only
    split
    next hrun =>
      refine .inl ⟨rfl, fun t ht he htime => ?_⟩
      obtain rfl := huniq t ht he
      exact absurd (OrNaN.same_iff.mpr ⟨congrArg DueEntry.runAt he, htime⟩) hrun
    next hrun =>
      obtain ⟨hsame, htime⟩ := OrNaN.same_iff.mp (not_not.mp hrun)
      have he : task.entry = entry := by
        cases entry
        cases hkey
        cases hsame
        rfl
      split
      next hclaim => exact .inr (.inr ⟨task, hmem, he, htime, hclaim, rfl⟩)
      next hclaim =>
        split
        next hrunning =>
          refine .inr (.inl ⟨task, hmem, he, ?_, hclaim, rfl⟩)
          simp [TaskRecord.active, hrunning]
        next hrunning =>
          refine .inl ⟨rfl, fun t ht he' _ ha => ?_⟩
          rw [huniq t ht he'] at ha
          have hpending : task.status ≠ .pending := fun hp =>
            hclaim (by simp [TaskRecord.claimable, hp])
          simp [TaskRecord.active, hpending, hrunning] at ha

/-- What the loop has claimed, seen from the map `m` that it has started with. -/
structure Claims (m : Table (TaskRecord.key (Q := Q))) (workerId : String) (now : Int)
    (limit : Nat) (claimTtlMs : Int) (c : Claiming Q) : Prop where
  rows : ∀ t, t ∈ c.map.rows ↔
    (t ∈ m.rows ∧ t.key ∉ c.claimed.map TaskRecord.key) ∨ t ∈ c.claimed
  source : ∀ u ∈ c.claimed, ∃ t ∈ m.rows, t.eligible now claimTtlMs ∧ u = t.claim workerId now
  nodup : (c.claimed.map TaskRecord.key).Nodup
  within : c.claimed.length ≤ limit

/-- Nothing is missing in the heap, which is in order, and the tasks are claimed in its order. -/
structure ClaimInv (m : Table (TaskRecord.key (Q := Q))) (workerId : String) (now : Int)
    (limit : Nat) (claimTtlMs : Int) (c : Claiming Q) : Prop
    extends Claims m workerId now limit claimTtlMs c where
  waiting : ∀ t ∈ m.rows, t.claimable now claimTtlMs →
    t.key ∉ c.claimed.map TaskRecord.key → t.entry ∈ c.due.items
  covered : ∀ t ∈ m.rows, t.active →
    t.entry ∈ c.due.items ∨ t.entry ∈ c.requeue.map TaskRecord.entry
  ahead : ∀ u ∈ c.claimed, ∀ e ∈ c.due.items, u.runAt ≤ e.runAt
  times : ∀ t ∈ c.requeue, t.runAt ≠ .nan
  sound : c.due.Sound

theorem eligible_iff {t : TaskRecord Q} :
    t.eligible now claimTtlMs ↔ t.runAt ≤ .num now ∧ t.claimable now claimTtlMs := by
  rw [TaskRecord.eligible, Bool.and_eq_true, decide_eq_true_eq]

theorem not_claimable_claim (httl : 0 < claimTtlMs) (t : TaskRecord Q) :
    ¬ (t.claim workerId now).claimable now claimTtlMs := by
  simp [TaskRecord.claimable, TaskRecord.claim, TaskRecord.leaseExpired, httl]

theorem active_of_claimable {t : TaskRecord Q} (h : t.claimable now claimTtlMs) : t.active := by
  unfold TaskRecord.claimable TaskRecord.leaseExpired at h
  unfold TaskRecord.active
  simp only [Bool.or_eq_true, Bool.and_eq_true, decide_eq_true_eq] at h ⊢
  exact h.imp_right And.left

theorem Claims.current (h : Claims m workerId now limit claimTtlMs c) {t : TaskRecord Q}
    (ht : t ∈ m.rows) (ha : t.active) : ∃ t' ∈ c.map.rows, t'.entry = t.entry ∧ t'.active := by
  by_cases hclaimed : t.key ∈ c.claimed.map TaskRecord.key
  · obtain ⟨u, hu, hkey⟩ := mem_map.mp hclaimed
    obtain ⟨t₀, ht₀, -, rfl⟩ := h.source u hu
    obtain rfl := m.eq_of_key_eq ht₀ ht hkey
    exact ⟨_, (h.rows _).mpr (.inr hu), rfl, rfl⟩
  · exact ⟨t, (h.rows t).mpr (.inl ⟨ht, hclaimed⟩), rfl, ha⟩

theorem Claims.fresh (h : Claims m workerId now limit claimTtlMs c) (httl : 0 < claimTtlMs)
    {t : TaskRecord Q} (ht : t ∈ c.map.rows) (hclaim : t.claimable now claimTtlMs) :
    t ∈ m.rows ∧ t.key ∉ c.claimed.map TaskRecord.key := by
  rcases (h.rows t).mp ht with hnew | hold
  · exact hnew
  · obtain ⟨t₀, -, -, rfl⟩ := h.source t hold
    exact absurd hclaim (not_claimable_claim httl t₀)

theorem keys_claim (c : Claiming Q) (t : TaskRecord Q) :
    (c.claimed ++ [t.claim workerId now]).map TaskRecord.key =
      c.claimed.map TaskRecord.key ++ [t.key] := by
  rw [map_append, map_singleton, TaskRecord.key_claim]

theorem Claims.claim (h : Claims m workerId now limit claimTtlMs c) (httl : 0 < claimTtlMs)
    (hlt : c.claimed.length < limit) (hdue : ¬ .num now < entry.runAt) {t : TaskRecord Q}
    (ht : t ∈ c.map.rows) (he : t.entry = entry) (htime : t.runAt ≠ .nan)
    (hclaim : t.claimable now claimTtlMs) :
    Claims m workerId now limit claimTtlMs (c.claim workerId now due t) := by
  obtain ⟨htm, hnew⟩ := h.fresh httl ht hclaim
  unfold Claiming.claim
  refine ⟨fun x => ?_, fun u hu => ?_, ?_, ?_⟩
  · rw [Table.mem_update, h.rows x, keys_claim]
    simp only [mem_append, mem_singleton, not_or]
    constructor
    · rintro (⟨⟨hx, hnot⟩ | hx, hne⟩ | ⟨x₀, hx₀, hkey, rfl⟩)
      · exact .inl ⟨hx, hnot, hne⟩
      · exact .inr (.inl hx)
      · rw [c.map.eq_of_key_eq hx₀ ht hkey]
        exact .inr (.inr rfl)
    · rintro (⟨hx, hnot, hne⟩ | hx | rfl)
      · exact .inl ⟨.inl ⟨hx, hnot⟩, hne⟩
      · exact .inl ⟨.inr hx, fun hkey => hnew (mem_map.mpr ⟨x, hx, hkey⟩)⟩
      · exact .inr ⟨t, ht, rfl, rfl⟩
  · rcases mem_append.mp hu with hu | hu
    · exact h.source u hu
    · rw [← he] at hdue
      have hrun : t.runAt ≤ .num now := (OrNaN.not_num_lt htime).mp hdue
      exact ⟨t, htm, eligible_iff.mpr ⟨hrun, hclaim⟩, mem_singleton.mp hu⟩
  · rw [keys_claim]
    exact nodup_append.mpr ⟨h.nodup, nodup_singleton _, fun k hk k' hk' heq =>
      hnew (mem_singleton.mp hk' ▸ heq ▸ hk)⟩
  · rw [length_append, length_singleton]
    exact hlt

theorem Claims.take (h : Claims m workerId now limit claimTtlMs c) (httl : 0 < claimTtlMs)
    (hlt : c.claimed.length < limit) (hdue : ¬ .num now < entry.runAt) :
    Claims m workerId now limit claimTtlMs (c.take workerId now claimTtlMs entry due) := by
  rcases take_cases c workerId now claimTtlMs entry due with
    ⟨htake, -⟩ | ⟨t, -, -, -, -, htake⟩ | ⟨t, ht, he, htime, hclaim, htake⟩
  · rw [htake]
    exact ⟨h.rows, h.source, h.nodup, h.within⟩
  · rw [htake]
    exact ⟨h.rows, h.source, h.nodup, h.within⟩
  · rw [htake]
    exact h.claim httl hlt hdue ht he htime hclaim

section Take

variable (h : ClaimInv m workerId now limit claimTtlMs c) (hpop : c.due.pop = some (entry, due))
include h hpop

theorem ClaimInv.time {t : TaskRecord Q} (he : t.entry = entry) : t.runAt ≠ .nan := by
  have htime := h.sound.times entry ((DueHeap.pop_perm hpop).subset mem_cons_self)
  rwa [← he] at htime

theorem ClaimInv.drop (requeue : List (TaskRecord Q)) (hrequeue : ∀ t ∈ requeue, t.entry = entry)
    (hwait : ∀ t ∈ c.map.rows, t.entry = entry → ¬ t.claimable now claimTtlMs)
    (hcover : ∀ t ∈ c.map.rows, t.entry = entry → t.active →
      entry ∈ requeue.map TaskRecord.entry) :
    ClaimInv m workerId now limit claimTtlMs { c with due, requeue := c.requeue ++ requeue } := by
  have hperm := DueHeap.pop_perm hpop
  refine { h with
    waiting := ?_, covered := ?_, ahead := ?_, times := ?_
    sound := (DueHeap.pop_sound h.sound hpop).1 }
  · intro t ht hclaim hnot
    rcases mem_cons.mp (hperm.mem_iff.mpr (h.waiting t ht hclaim hnot)) with he | he
    · exact absurd hclaim (hwait t ((h.rows t).mpr (.inl ⟨ht, hnot⟩)) he)
    · exact he
  · intro t ht ha
    rw [map_append, mem_append, ← or_assoc]
    rcases h.covered t ht ha with he | he
    · rcases mem_cons.mp (hperm.mem_iff.mpr he) with he | he
      · obtain ⟨t', ht', heq, ha'⟩ := h.current ht ha
        exact .inr (he ▸ hcover t' ht' (heq.trans he) ha')
      · exact .inl (.inl he)
    · exact .inl (.inr he)
  · exact fun u hu e he => h.ahead u hu e (hperm.mem_iff.mp (mem_cons_of_mem entry he))
  · exact fun t ht => (mem_append.mp ht).elim (h.times t) fun ht => h.time hpop (hrequeue t ht)

theorem ClaimInv.claim (httl : 0 < claimTtlMs) (hlt : c.claimed.length < limit)
    (hdue : ¬ .num now < entry.runAt) {t : TaskRecord Q} (ht : t ∈ c.map.rows)
    (he : t.entry = entry) (htime : t.runAt ≠ .nan) (hclaim : t.claimable now claimTtlMs) :
    ClaimInv m workerId now limit claimTtlMs (c.claim workerId now due t) := by
  have hperm := DueHeap.pop_perm hpop
  obtain ⟨hsound, hmin⟩ := DueHeap.pop_sound h.sound hpop
  have htm := (h.fresh httl ht hclaim).1
  have hleft {x : TaskRecord Q} (hx : x.entry ∈ c.due.items) :
      x.key = t.key ∨ x.entry ∈ due.items := by
    rcases mem_cons.mp (hperm.mem_iff.mpr hx) with hx | hx
    · exact .inl (congrArg DueEntry.id (hx.trans he.symm))
    · exact .inr hx
  refine { h.toClaims.claim httl hlt hdue ht he htime hclaim with
    waiting := ?_, covered := ?_, ahead := ?_, times := ?_, sound := hsound }
  · intro x hx hxclaim hnot
    rw [Claiming.claim, keys_claim, mem_append, mem_singleton, not_or] at hnot
    exact (hleft (h.waiting x hx hxclaim hnot.1)).resolve_left hnot.2
  · intro x hx ha
    rw [Claiming.claim, map_append, mem_append, ← or_assoc]
    rcases h.covered x hx ha with hcov | hcov
    · rcases hleft hcov with hkey | hdue
      · rw [m.eq_of_key_eq hx htm hkey]
        exact .inr (mem_singleton.mpr rfl)
      · exact .inl (.inl hdue)
    · exact .inl (.inr hcov)
  · intro u hu e hmem
    have hmem' := hperm.mem_iff.mp (mem_cons_of_mem entry hmem)
    rcases mem_append.mp hu with hu | hu
    · exact h.ahead u hu e hmem'
    · rw [mem_singleton.mp hu]
      have hle := hmin e hmem'
      rwa [← he] at hle
  · intro u hu
    rcases mem_append.mp hu with hu | hu
    · exact h.times u hu
    · exact mem_singleton.mp hu ▸ htime

theorem ClaimInv.take (httl : 0 < claimTtlMs) (hlt : c.claimed.length < limit)
    (hdue : ¬ .num now < entry.runAt) :
    ClaimInv m workerId now limit claimTtlMs (c.take workerId now claimTtlMs entry due) := by
  rcases take_cases c workerId now claimTtlMs entry due with
    ⟨htake, hended⟩ | ⟨t, ht, he, ha, hclaim, htake⟩ | ⟨t, ht, he, htime, hclaim, htake⟩
  · rw [htake]
    have hno : ∀ t ∈ c.map.rows, t.entry = entry → ¬ t.active := fun t ht he =>
      hended t ht he (h.time hpop he)
    have hdrop := h.drop hpop [] (by simp) (fun t ht he hc => hno t ht he (active_of_claimable hc))
      fun t ht he ha => absurd ha (hno t ht he)
    rw [append_nil] at hdrop
    exact hdrop
  · rw [htake]
    have huniq : ∀ x ∈ c.map.rows, x.entry = entry → x = t := fun x hx hxe =>
      c.map.eq_of_key_eq hx ht (congrArg DueEntry.id (hxe.trans he.symm))
    refine h.drop hpop [t] (by simpa) (fun x hx hxe => huniq x hx hxe ▸ hclaim) fun x hx hxe _ => ?_
    exact mem_singleton.mpr he.symm
  · rw [htake]
    exact h.claim hpop httl hlt hdue ht he htime hclaim

end Take

theorem claimLoop_turn {P : Claiming Q → Prop} (fuel : Nat) (h : P c)
    (htake : ∀ c entry due, P c → c.claimed.length < limit → ¬ .num now < entry.runAt →
      c.due.pop = some (entry, due) → P (c.take workerId now claimTtlMs entry due)) :
    P (claimLoop workerId now limit claimTtlMs fuel c) := by
  induction fuel generalizing c with
  | zero => exact h
  | succ fuel ih =>
    rw [claimLoop]
    split
    next hlt =>
      rcases c.due.peek_cases with ⟨-, hpeek, -⟩ | ⟨e, due, hpeek, hpop⟩
      · rw [hpeek]
        exact h
      · rw [hpeek, hpop]
        dsimp only
        split
        · exact h
        next hnow => exact ih (htake c e due h hlt hnow hpop)
    · exact h

theorem due_take : (c.take workerId now claimTtlMs entry due).due = due := by
  rcases take_cases c workerId now claimTtlMs entry due with
    ⟨htake, -⟩ | ⟨_, -, -, -, -, htake⟩ | ⟨_, -, -, -, -, htake⟩
  all_goals rw [htake]
  rfl

/-- The loop goes on until it has claimed enough, or nothing is due any more. -/
theorem claimLoop_end {fuel : Nat} (hfuel : c.due.size ≤ fuel) (hsound : c.due.Sound) :
    limit ≤ (claimLoop workerId now limit claimTtlMs fuel c).claimed.length ∨
      ∀ e ∈ (claimLoop workerId now limit claimTtlMs fuel c).due.items, ¬ e.runAt ≤ .num now := by
  induction fuel generalizing c with
  | zero =>
    have hnil : c.due.items = [] := length_eq_zero_iff.mp (Nat.le_zero.mp hfuel)
    exact .inr fun e he => absurd (hnil ▸ he) not_mem_nil
  | succ fuel ih =>
    rw [claimLoop]
    split
    · rcases c.due.peek_cases with ⟨hnil, hpeek, -⟩ | ⟨e, due, hpeek, hpop⟩
      · rw [hpeek]
        exact .inr fun e he => absurd (hnil ▸ he) not_mem_nil
      · obtain ⟨hsound', hmin⟩ := DueHeap.pop_sound hsound hpop
        have hperm := DueHeap.pop_perm hpop
        rw [hpeek, hpop]
        dsimp only
        split
        next hlater =>
          refine .inr fun b hb hle => ?_
          have htime := hsound.times e (hperm.subset mem_cons_self)
          exact (OrNaN.not_num_lt htime).mpr (OrNaN.le_trans (hmin b hb) hle) hlater
        · refine ih ?_ (due_take.symm ▸ hsound')
          have hsize : due.size + 1 = c.due.size := hperm.length_eq
          rw [due_take]
          omega
    next hge => exact .inl (not_lt.mp hge)

theorem claims_start (m : Table (TaskRecord.key (Q := Q))) (due : DueHeap Int) :
    Claims m workerId now limit claimTtlMs { map := m, due } where
  rows _ := ⟨fun ht => .inl ⟨ht, not_mem_nil⟩, fun ht => ht.elim And.left (absurd · not_mem_nil)⟩
  source _ hu := absurd hu not_mem_nil
  nodup := nodup_nil
  within := Nat.zero_le _

end Claim

/-! ## Entries -/

/-- Every task that is pending or running has an entry with its `runAt`, and the heap is in
order. -/
structure Covered (st : InMemoryScheduledTaskStore Q) : Prop where
  entry : ∀ t ∈ st.map.rows, t.active → t.entry ∈ st.due.items
  sound : st.due.Sound

section Cover

variable {st : InMemoryScheduledTaskStore Q}

theorem Covered.prune (h : Covered st) (now : Int) : Covered (st.pruneTerminal now) where
  entry t ht := h.entry t ((prunes_pruneTerminal st now).subset ht)
  sound := h.sound

theorem Covered.time (h : Covered st) {id : String} {t : TaskRecord Q}
    (hget : st.map.get? id = some t) (ha : t.active) : t.runAt ≠ .nan :=
  h.sound.times t.entry (h.entry t (Table.get?_eq_some.mp hget).1 ha)

theorem mem_markClaimable {task : TaskRecord Q} {e : DueEntry Int} :
    e ∈ (st.markClaimable task).due.items ↔ e = task.entry ∨ e ∈ st.due.items :=
  DueHeap.mem_push

theorem Covered.rewrites {st' : InMemoryScheduledTaskStore Q} {id : String}
    {p : TaskRecord Q → Bool} {f : TaskRecord Q → TaskRecord Q} {hf : ∀ t, (f t).key = t.key}
    (h : Covered st) (hr : st.Rewrites id p f hf st')
    (hrun : ∀ t, st.map.get? id = some t → p t → (f t).status = .pending → (f t).runAt ≠ .nan) :
    Covered st' := by
  have hrow {t u : TaskRecord Q} (hget : st.map.get? id = some t)
      (hu : u ∈ (st.map.update id f hf).rows) : u ∈ st.map.rows ∨ u = f t := by
    obtain ⟨ht, hkey⟩ := Table.get?_eq_some.mp hget
    rcases Table.mem_update.mp hu with ⟨hold, -⟩ | ⟨v, hv, hvk, rfl⟩
    · exact .inl hold
    · exact .inr (congrArg f (st.map.eq_of_key_eq hv ht (hvk.trans hkey.symm)))
  cases hr with
  | refused => exact h
  | ended hget _ hend =>
    refine ⟨fun u hu ha => ?_, h.sound⟩
    rcases hrow hget hu with hu | rfl
    · exact h.entry u hu ha
    · exact absurd hend (TaskRecord.not_terminal.mpr ha)
  | again hget hp hpending =>
    refine ⟨fun u hu ha => mem_markClaimable.mpr ?_,
      DueHeap.push_sound h.sound (hrun _ hget hp hpending) _⟩
    rcases hrow hget hu with hu | rfl
    · exact .inr (h.entry u hu ha)
    · exact .inl rfl
  | @kept t hget _ hentry hstatus =>
    refine ⟨fun u hu ha => ?_, h.sound⟩
    rcases hrow hget hu with hu | rfl
    · exact h.entry u hu ha
    · have hold : t.active := by rwa [TaskRecord.active, hstatus] at ha
      exact hentry ▸ h.entry t (Table.get?_eq_some.mp hget).1 hold

theorem Covered.set (h : Covered st) {task : TaskRecord Q} (hrun : task.runAt ≠ .nan) :
    Covered ({ st with map := st.map.set task }.markClaimable task) := by
  refine ⟨fun t ht ha => mem_markClaimable.mpr ?_, DueHeap.push_sound h.sound hrun _⟩
  have hget := Table.get?_of_mem ht
  by_cases hkey : t.key = task.key
  · rw [hkey] at hget
    have hself := st.map.get?_set_self task
    cases hself.symm.trans hget
    exact .inl rfl
  · have hne := st.map.get?_set_ne hkey
    exact .inr (h.entry t (Table.get?_eq_some.mp (hne.symm.trans hget)).1 ha)

theorem Covered.enqueue (h : Covered st) (now : Int) {task : TaskRecord Q}
    (hpending : task.status = .pending) (hrun : task.runAt ≠ .nan) :
    Covered (st.enqueue now task) := by
  unfold InMemoryScheduledTaskStore.enqueue
  dsimp only
  split
  next existing _ =>
    split
    · exact (h.prune now).set hrun
    · exact h.prune now
  · rw [if_pos hpending]
    exact (h.prune now).set hrun

theorem mem_requeue {tasks : List (TaskRecord Q)} {e : DueEntry Int} :
    e ∈ (tasks.foldl markClaimable st).due.items ↔
      e ∈ tasks.map TaskRecord.entry ∨ e ∈ st.due.items := by
  induction tasks generalizing st with
  | nil => simp
  | cons t tasks ih =>
    rw [foldl_cons, ih, mem_markClaimable, map_cons, mem_cons, or_assoc]
    exact or_left_comm

theorem map_requeue (tasks : List (TaskRecord Q)) (st : InMemoryScheduledTaskStore Q) :
    (tasks.foldl markClaimable st).map = st.map := by
  induction tasks generalizing st with
  | nil => rfl
  | cons t tasks ih => exact ih (st.markClaimable t)

variable {workerId : String} {now : Int} {limit : Nat} {claimTtlMs : Int}

/-- The end of the loop of a claim that starts with the pruned store. -/
def claimEnd (st : InMemoryScheduledTaskStore Q) (workerId : String) (now : Int) (limit : Nat)
    (claimTtlMs : Int) : Claiming Q :=
  claimLoop workerId now limit claimTtlMs st.due.size
    { map := (st.pruneTerminal now).map, due := st.due }

theorem map_claimDue : (st.claimDue workerId now limit claimTtlMs).2.map =
    (st.claimEnd workerId now limit claimTtlMs).map := map_requeue _ _

variable (workerId now limit) in
theorem claimEnd_claims (st : InMemoryScheduledTaskStore Q) (httl : 0 < claimTtlMs) :
    Claims (st.pruneTerminal now).map workerId now limit claimTtlMs
      (st.claimEnd workerId now limit claimTtlMs) :=
  claimLoop_turn _ (claims_start _ _) fun _ _ _ hc hlt hdue _ => hc.take httl hlt hdue

variable (workerId now limit) in
theorem claimEnd_spec (h : Covered st) (httl : 0 < claimTtlMs) :
    ClaimInv (st.pruneTerminal now).map workerId now limit claimTtlMs
        (st.claimEnd workerId now limit claimTtlMs) ∧
      ((st.claimEnd workerId now limit claimTtlMs).claimed.length = limit ∨
        ∀ e ∈ (st.claimEnd workerId now limit claimTtlMs).due.items, ¬ e.runAt ≤ .num now) := by
  have hinv : ClaimInv (st.pruneTerminal now).map workerId now limit claimTtlMs
      (st.claimEnd workerId now limit claimTtlMs) := by
    refine claimLoop_turn _ ⟨claims_start _ _, fun t ht hc _ => ?_, fun t ht ha => ?_,
      fun u hu => ?_, by simp, h.sound⟩ fun _ _ _ hc hlt hdue hpop => hc.take hpop httl hlt hdue
    · exact (h.prune now).entry t ht (active_of_claimable hc)
    · exact .inl ((h.prune now).entry t ht ha)
    · cases hu
  refine ⟨hinv, Or.imp_left (le_antisymm hinv.within) ?_⟩
  exact claimLoop_end le_rfl h.sound

theorem get?_claimDue (st : InMemoryScheduledTaskStore Q) (httl : 0 < claimTtlMs) (id : String) :
    id ∉ (st.claimDue workerId now limit claimTtlMs).1.map TaskRecord.key ∧
      (st.claimDue workerId now limit claimTtlMs).2.map.get? id =
        (st.pruneTerminal now).map.get? id ∨
    ∃ t, (st.pruneTerminal now).map.get? id = some t ∧ t.eligible now claimTtlMs ∧
      t.claim workerId now ∈ (st.claimDue workerId now limit claimTtlMs).1 ∧
      (st.claimDue workerId now limit claimTtlMs).2.map.get? id = some (t.claim workerId now) := by
  have hclaims := claimEnd_claims workerId now limit st httl
  rw [map_claimDue]
  by_cases hid : id ∈ (st.claimDue workerId now limit claimTtlMs).1.map TaskRecord.key
  · obtain ⟨u, hu, rfl⟩ := mem_map.mp hid
    obtain ⟨t, ht, he, rfl⟩ := hclaims.source u hu
    exact .inr ⟨t, Table.get?_of_mem ht, he, hu,
      Table.get?_of_mem ((hclaims.rows _).mpr (.inr hu))⟩
  · refine .inl ⟨hid, Option.ext fun t => ?_⟩
    rw [Table.get?_eq_some, Table.get?_eq_some, hclaims.rows]
    constructor
    · rintro ⟨⟨ht, -⟩ | ht, rfl⟩
      · exact ⟨ht, rfl⟩
      · exact absurd (mem_map_of_mem ht) hid
    · rintro ⟨ht, rfl⟩
      exact ⟨.inl ⟨ht, hid⟩, rfl⟩

theorem sound_requeue {tasks : List (TaskRecord Q)} (h : st.due.Sound)
    (htimes : ∀ t ∈ tasks, t.runAt ≠ .nan) : (tasks.foldl markClaimable st).due.Sound := by
  induction tasks generalizing st with
  | nil => exact h
  | cons t tasks ih =>
    obtain ⟨htime, htimes⟩ := forall_mem_cons.mp htimes
    exact ih (DueHeap.push_sound h htime _) htimes

theorem Covered.claimDue (h : Covered st) (httl : 0 < claimTtlMs) :
    Covered (st.claimDue workerId now limit claimTtlMs).2 := by
  obtain ⟨hinv, -⟩ := claimEnd_spec workerId now limit h httl
  refine ⟨fun t ht ha => mem_requeue.mpr ?_, sound_requeue hinv.sound hinv.times⟩
  rw [map_claimDue] at ht
  rcases (hinv.rows t).mp ht with ⟨ht, -⟩ | ht
  · exact (hinv.covered t ht ha).symm
  · obtain ⟨t₀, ht₀, hclaim, rfl⟩ := hinv.source t ht
    exact (hinv.covered t₀ ht₀ (active_of_claimable (eligible_iff.mp hclaim).2)).symm

theorem active_of_owns {t : TaskRecord Q} (h : t.owns workerId) : t.active := by
  rw [TaskRecord.owns, Bool.and_eq_true, decide_eq_true_eq] at h
  simp [TaskRecord.active, h.1]

theorem Covered.extendLease (h : Covered st) (now : Int) (ids : List String) (workerId : String) :
    Covered (st.extendLease now ids workerId) := by
  unfold InMemoryScheduledTaskStore.extendLease
  induction ids generalizing st with
  | nil => exact h
  | cons id ids ih =>
    refine ih (h.rewrites rewrites_extendOne fun t hget ho _ => ?_)
    have htime := h.time hget (active_of_owns ho)
    exact htime

end Cover

end InMemoryScheduledTaskStore

/-! ## Runs -/

/-- A task is enqueued as pending, and claimed for a time. -/
def StoreAction.Admissible : StoreAction Q → Prop
  | .enqueue _ task => task.status = .pending
  | .claimDue _ _ limit claimTtlMs => 1 ≤ limit ∧ 0 < claimTtlMs
  | _ => True

instance (a : StoreAction Q) : Decidable a.Admissible := by
  unfold StoreAction.Admissible
  split <;> infer_instance

/-- No time that is stored is `NaN`. -/
def StoreAction.Timed : StoreAction Q → Prop
  | .enqueue _ task => task.runAt ≠ .nan
  | .reschedule _ nextRunAt _ _ => nextRunAt ≠ .nan
  | _ => True

instance (a : StoreAction Q) : Decidable a.Timed := by
  unfold StoreAction.Timed
  split <;> infer_instance

open InMemoryScheduledTaskStore

variable {st : InMemoryScheduledTaskStore Q} {a : StoreAction Q}

theorem covered_next (h : Covered st) (ha : a.Admissible) (htimed : a.Timed) :
    Covered (st.next a) := by
  cases a with
  | enqueue now task => exact h.enqueue now ha htimed
  | claimDue workerId now limit claimTtlMs => exact h.claimDue ha.2
  | markCompleted now id workerId =>
    exact h.rewrites rewrites_markCompleted fun _ _ _ hp => nomatch hp
  | markFailed now id error workerId =>
    refine h.rewrites rewrites_markFailed fun t hget ho _ => ?_
    have htime := h.time hget (active_of_owns ho)
    rwa [TaskRecord.toScheduledTask_fail]
  | reschedule id nextRunAt workerId error =>
    exact h.rewrites rewrites_reschedule fun _ _ _ _ => htimed
  | extendLease now ids workerId => exact h.extendLease now ids workerId
  | cancel now id => exact h.rewrites rewrites_cancel fun _ _ _ hp => nomatch hp
  | list now status limit => exact h.prune now

variable {terminalRetentionMs maxTerminalTasks : Option Int} {s : StoreState Q}

theorem covered_reach
    (h : (taskMachine terminalRetentionMs maxTerminalTasks).Reach
      (fun _ a => a.Admissible ∧ a.Timed) s) :
    Covered s.store := by
  refine h.invariant
    ⟨fun t ht => absurd ht not_mem_nil, DueHeap.sound_empty⟩ ?_
  intro s s' a _ hc ha hs
  cases hs
  exact covered_next hc ha.1 ha.2

/-! ## Exact claims -/

section Exact

variable {workerId : String} {now : Int} {limit : Nat} {claimTtlMs : Int}

/-- A claim takes as many of the tasks that are eligible as it may, each once, and none that is
due later than one that it leaves. -/
theorem claimDue_exact (h : Covered st) (httl : 0 < claimTtlMs) :
    (st.claimDue workerId now limit claimTtlMs).1.length =
        min limit (st.map.rows.countP (·.eligible now claimTtlMs)) ∧
      ((st.claimDue workerId now limit claimTtlMs).1.map (·.id)).Nodup ∧
      (∀ u ∈ (st.claimDue workerId now limit claimTtlMs).1, ∃ t ∈ st.map.rows,
        t.eligible now claimTtlMs ∧ u = t.claim workerId now) ∧
      ∀ t ∈ st.map.rows, t.eligible now claimTtlMs →
        t.id ∉ (st.claimDue workerId now limit claimTtlMs).1.map (·.id) →
        ∀ u ∈ (st.claimDue workerId now limit claimTtlMs).1, u.runAt ≤ t.runAt := by
  obtain ⟨hinv, hend⟩ := claimEnd_spec workerId now limit h httl
  have hprune := prunes_pruneTerminal st now
  have hstays {t : TaskRecord Q} (ht : t ∈ st.map.rows) (he : t.eligible now claimTtlMs) :
      t ∈ (st.pruneTerminal now).map.rows :=
    hprune.active t ht (active_of_claimable (eligible_iff.mp he).2)
  change (st.claimEnd workerId now limit claimTtlMs).claimed.length = _ ∧
    ((st.claimEnd workerId now limit claimTtlMs).claimed.map TaskRecord.key).Nodup ∧
    (∀ u ∈ (st.claimEnd workerId now limit claimTtlMs).claimed, _) ∧
    ∀ t ∈ st.map.rows, _ →
      t.key ∉ (st.claimEnd workerId now limit claimTtlMs).claimed.map TaskRecord.key →
      ∀ u ∈ (st.claimEnd workerId now limit claimTtlMs).claimed, _
  generalize st.claimEnd workerId now limit claimTtlMs = c at hinv hend ⊢
  have hsource : ∀ u ∈ c.claimed, ∃ t ∈ st.map.rows,
      t.eligible now claimTtlMs ∧ u = t.claim workerId now := fun u hu => by
    obtain ⟨t, ht, he, heq⟩ := hinv.source u hu
    exact ⟨t, hprune.subset ht, he, heq⟩
  have hrest : ∀ t ∈ st.map.rows, t.eligible now claimTtlMs →
      t.key ∉ c.claimed.map TaskRecord.key → t.entry ∈ c.due.items := fun t ht he hnot =>
    hinv.waiting t (hstays ht he) (eligible_iff.mp he).2 hnot
  refine ⟨?_, hinv.nodup, hsource, fun t ht he hnot u hu => hinv.ahead u hu _ (hrest t ht he hnot)⟩
  -- the ids of the claimed tasks against those of the eligible ones
  have hids : (c.claimed.map TaskRecord.key) ⊆
      (st.map.rows.filter (·.eligible now claimTtlMs)).map TaskRecord.key := by
    intro k hk
    obtain ⟨u, hu, rfl⟩ := mem_map.mp hk
    obtain ⟨t, ht, he, rfl⟩ := hsource u hu
    exact mem_map.mpr ⟨t, mem_filter.mpr ⟨ht, he⟩, rfl⟩
  have hle : c.claimed.length ≤ st.map.rows.countP (·.eligible now claimTtlMs) := by
    have hlen := (subperm_of_subset hinv.nodup hids).length_le
    rwa [length_map, length_map, ← countP_eq_length_filter] at hlen
  rcases hend with hfull | hlater
  · rw [hfull] at hle ⊢
    exact (min_eq_left hle).symm
  · have hge : st.map.rows.countP (·.eligible now claimTtlMs) ≤ c.claimed.length := by
      have hall : (st.map.rows.filter (·.eligible now claimTtlMs)).map TaskRecord.key ⊆
          c.claimed.map TaskRecord.key := by
        intro k hk
        obtain ⟨t, ht, rfl⟩ := mem_map.mp hk
        obtain ⟨ht, he⟩ := mem_filter.mp ht
        by_contra hnot
        exact hlater _ (hrest t ht he hnot) (eligible_iff.mp he).1
      have hnd : ((st.map.rows.filter (·.eligible now claimTtlMs)).map TaskRecord.key).Nodup :=
        st.map.nodup.sublist (filter_sublist.map TaskRecord.key)
      have hlen := (subperm_of_subset hnd hall).length_le
      rwa [length_map, length_map, ← countP_eq_length_filter] at hlen
    rw [le_antisymm hle hge, min_eq_right (le_antisymm hle hge ▸ hinv.within)]

end Exact

/-! ## No task is lost -/

section Stays

variable {t : TaskRecord Q}

theorem mem_keys_set (task : TaskRecord Q) (ht : t ∈ st.map.rows) :
    t.key ∈ (st.map.set task).keys := by
  rw [← Table.isSome_get?]
  by_cases hkey : t.key = task.key
  · rw [hkey, Table.get?_set_self]
    rfl
  · rw [Table.get?_set_ne _ hkey, Table.get?_of_mem ht]
    rfl

theorem InMemoryScheduledTaskStore.Rewrites.keys_eq {st' : InMemoryScheduledTaskStore Q}
    {id : String} {p : TaskRecord Q → Bool} {f : TaskRecord Q → TaskRecord Q}
    {hf : ∀ t, (f t).key = t.key} (h : st.Rewrites id p f hf st') :
    st'.map.keys = st.map.keys := by
  rcases h.map_cases with ⟨-, rfl⟩ | ⟨t, -, -, hmap⟩
  · rfl
  · rw [hmap, Table.keys_update]

theorem keys_extendLease (now : Int) (ids : List String) (workerId : String) :
    (st.extendLease now ids workerId).map.keys = st.map.keys := by
  unfold extendLease
  induction ids generalizing st with
  | nil => rfl
  | cons id ids ih => exact ih.trans rewrites_extendOne.keys_eq

theorem active_stays (ha : a.Admissible) (ht : t ∈ st.map.rows)
    (hactive : t.active) : t.key ∈ (st.next a).map.keys := by
  have hmem : t.key ∈ st.map.keys := Table.mem_keys.mpr ⟨t, ht, rfl⟩
  have hpruned (now : Int) : t ∈ (st.pruneTerminal now).map.rows :=
    (prunes_pruneTerminal st now).active t ht hactive
  cases a with
  | enqueue now task =>
    show t.key ∈ (st.enqueue now task).map.keys
    unfold enqueue
    dsimp only
    split
    · split
      · exact mem_keys_set _ (hpruned now)
      · exact Table.mem_keys.mpr ⟨t, hpruned now, rfl⟩
    · split <;> exact mem_keys_set _ (hpruned now)
  | claimDue workerId now limit claimTtlMs =>
    obtain ⟨t', ht', he, -⟩ :=
      (claimEnd_claims workerId now limit st ha.2).current (hpruned now) hactive
    show t.key ∈ (st.claimDue workerId now limit claimTtlMs).2.map.keys
    rw [map_claimDue]
    exact Table.mem_keys.mpr ⟨t', ht', congrArg DueEntry.id he⟩
  | markCompleted now id workerId => exact rewrites_markCompleted.keys_eq.symm ▸ hmem
  | markFailed now id error workerId => exact rewrites_markFailed.keys_eq.symm ▸ hmem
  | reschedule id nextRunAt workerId error => exact rewrites_reschedule.keys_eq.symm ▸ hmem
  | extendLease now ids workerId => exact (keys_extendLease now ids workerId).symm ▸ hmem
  | cancel now id => exact rewrites_cancel.keys_eq.symm ▸ hmem
  | list now status limit => exact Table.mem_keys.mpr ⟨t, hpruned now, rfl⟩

end Stays

/-- As long as no time that is stored is `NaN`, a claim returns in every reachable state as many of
the eligible tasks as it may, each once and the oldest first. And no operation removes a task that
is pending or running. -/
theorem claim_due_exact (terminalRetentionMs maxTerminalTasks : Option Int) (s : StoreState Q) :
    ((taskMachine terminalRetentionMs maxTerminalTasks).Reach
        (fun _ a => a.Admissible ∧ a.Timed) s →
      ∀ workerId now limit claimTtlMs, 1 ≤ limit → 0 < claimTtlMs →
        ∃ claimed, (s.store.claimDue workerId now limit claimTtlMs).1 = claimed ∧
          claimed.length = min limit (s.store.map.rows.countP (·.eligible now claimTtlMs)) ∧
          (claimed.map (·.id)).Nodup ∧
          (∀ u ∈ claimed, ∃ t ∈ s.store.map.rows,
            t.eligible now claimTtlMs ∧ u = t.claim workerId now) ∧
          ∀ t ∈ s.store.map.rows, t.eligible now claimTtlMs → t.id ∉ claimed.map (·.id) →
            ∀ u ∈ claimed, u.runAt ≤ t.runAt) ∧
    ∀ a s', a.Admissible → (taskMachine terminalRetentionMs maxTerminalTasks).step s a = some s' →
      ∀ t ∈ s.store.map.rows, t.active → t.id ∈ s'.store.map.keys := by
  refine ⟨fun h workerId now limit claimTtlMs _ httl =>
    ⟨_, rfl, claimDue_exact (covered_reach h) httl⟩, ?_⟩
  intro a s' ha hs t ht hactive
  cases hs
  exact active_stays ha ht hactive

/-- A task that is due at `runAt`. -/
def chore (id : String) (runAt : Int) : TaskRecord Unit where
  id := id
  name := "chore"
  payload := ()
  runAt := runAt

/-- Two tasks, of which the one enqueued first is due later. The other one is claimed, fails and
is claimed again, so the heap holds three entries. -/
def failedOnce : List (StoreAction Unit) :=
  [.enqueue 0 (chore "late" 5), .enqueue 0 (chore "early" 3), .claimDue "w1" 4 10 1000,
    .markFailed 4 "early" "broken" "w1"]

theorem claim_due_exact_early : ∃ s : StoreState Unit,
    (taskMachine none none).Reach (fun _ a => a.Admissible ∧ a.Timed) s ∧
      s.store.due.size = 3 ∧
      (s.store.claimDue "w2" 6 1 1000).1.map (·.id) = ["early"] ∧
      (s.store.claimDue "w2" 6 1 1000).1.length =
        min 1 (s.store.map.rows.countP (·.eligible 6 1000)) := by
  obtain ⟨s, hs, hobs⟩ := Machine.Reach.observe (taskMachine none none)
    (fun _ a => a.Admissible ∧ a.Timed) failedOnce
    (fun s => (s.store.due.size, (s.store.claimDue "w2" 6 1 1000).1.map (·.id))) (3, ["early"])
    (by decide +kernel)
  obtain ⟨hsize, hids⟩ := Prod.mk.inj hobs
  obtain ⟨claimed, rfl, hlen, -⟩ := (claim_due_exact none none s).1 hs "w2" 6 1 1000 le_rfl
    (by decide)
  exact ⟨s, hs, hsize, hids, hlen⟩

/-- Three tasks, of which the second one has an invalid date. -/
def invalidBetween : List (StoreAction Unit) :=
  [.enqueue 0 (chore "early" 3), .enqueue 0 { chore "never" 0 with runAt := .nan },
    .enqueue 0 (chore "late" 100)]

/-- The task that is due is not claimed. -/
theorem due_behind_nan : ∃ s : StoreState Unit,
    (taskMachine none none).Reach (fun _ a => a.Admissible) s ∧
      s.store.map.rows.countP (·.eligible 10 1000) = 1 ∧
      (s.store.claimDue "w" 10 5 1000).1.map (·.id) = [] := by
  obtain ⟨s, hs, hobs⟩ := Machine.Reach.observe (taskMachine none none)
    (fun _ a => a.Admissible) invalidBetween
    (fun s => (s.store.map.rows.countP (·.eligible 10 1000),
      (s.store.claimDue "w" 10 5 1000).1.map (·.id))) (1, []) (by decide +kernel)
  exact ⟨s, hs, (Prod.mk.inj hobs).1, (Prod.mk.inj hobs).2⟩

end NevoMessaging
