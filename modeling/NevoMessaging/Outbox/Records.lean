import NevoMessaging.Lib.Trace
import NevoMessaging.Outbox.Order

/-!
# The life of a record

What becomes of a record of the outbox in memory: it is stored when it is enqueued or when its
transaction commits, it is emitted as long as it is pending, each failed emission counts as an
attempt, and it ends as published or as failed. Nothing is lost on the way and nothing comes in
from a transaction that threw.

As for the order, every rejection of the publisher has to be reported. An emission whose
rejection cannot be reported has failed without an attempt being counted. And the lanes that are
left over from such a flush emit records that the next flush has published.

Results:
1. `recorded_reach`: the log, the store and the flushes agree in every run.
2. `records_kept`: what this means for the records.
3. `records_kept_broken`: a run with a rejection that cannot be reported.
-/

namespace NevoMessaging.Outbox

open List

variable {P X : Type} {c : StoreOptions} {o : Options X} {s s' : State P}

def Event.id : Event → String
  | .emitted id | .accepted id | .rejected id | .published id | .parked id | .pruned id => id

/-- What may happen to a record after the events `pre`. -/
def Allowed (maxAttempts : Int) (pre : List Event) : Event → Prop
  | .emitted id => .published id ∉ pre ∧ .parked id ∉ pre
  | .accepted id => .emitted id ∈ pre
  | .rejected id => .emitted id ∈ pre
  | .published id => .accepted id ∈ pre
  | .parked id => maxAttempts ≤ pre.count (.rejected id)
  | .pruned id => .published id ∈ pre

/-- The outcome is a failure of the record `k`. -/
def failureOf (k : String) (x : OutboxRecord P × Bool) : Bool := x.1.id = k && !x.2

/-- The log, the store and the flushes agree: what the publisher has not answered is logged as
emitted, what is still to be marked as published is logged as accepted, and the attempts of a
record and the failures that are still to be marked make up its rejections. -/
structure Recorded (o : Options X) (s : State P) : Prop where
  lawful : Trace.Lawful (Allowed o.attemptLimit) s.log
  known : ∀ ev ∈ s.log, ev.id ∈ s.saved.map (·.id)
  opened : ∀ r ∈ opens s.flushes, .emitted r.id ∈ s.log
  owed : ∀ x ∈ owes s.flushes, x.2 = true → .accepted x.1.id ∈ s.log
  attempts : ∀ r ∈ s.store.rows,
    r.attempts + (owes s.flushes).countP (failureOf r.id) = s.log.count (.rejected r.id)
  failed : ∀ r ∈ s.store.rows, r.status = .failed ↔ o.attemptLimit ≤ r.attempts
  parked : ∀ r ∈ s.store.rows, r.status = .failed ↔ .parked r.id ∈ s.log
  published : ∀ r ∈ s.store.rows, .published r.id ∈ s.log → r.status = .published

theorem todos_known (h : Inv s) {r : OutboxRecord P} (hr : r ∈ todos s.flushes) :
    r.id ∈ s.saved.map (·.id) := by
  obtain ⟨r', hr', hm, -⟩ := h.own r hr
  exact keys_subset h (Table.mem_keys.mpr ⟨r', hr', id_eq_of_message hm⟩)

theorem owes_eq_zero (h : Inv s) {k : String} (hk : k ∉ s.saved.map (·.id)) :
    (owes s.flushes).countP (failureOf k) = 0 := by
  refine countP_eq_zero.mpr fun x hx hf => hk ?_
  simp only [failureOf, Bool.and_eq_true, decide_eq_true_eq] at hf
  exact hf.1 ▸ todos_known h (owes_subset (mem_map_of_mem hx))

theorem recorded_append (hr : Recorded o s) (h : Inv s) (hmax : 1 ≤ o.attemptLimit)
    {l : List (OutboxRecord P)} (new : Appends l s s') : Recorded o s' := by
  have hlog : ∀ r ∈ l, ∀ ev ∈ s.log, ev.id ≠ r.id := fun r hr' ev hev heq =>
    new.new r hr' (heq ▸ hr.known ev hev)
  have hattempts : ∀ r ∈ l, r.attempts = 0 := by
    intro r hr'
    rw [← new.fresh r hr']
    rfl
  constructor
  case lawful => exact new.log ▸ hr.lawful
  case known =>
    rw [new.log, new.saved, map_append]
    exact fun ev hev => mem_append_left _ (hr.known ev hev)
  case opened => rw [new.flushes, new.log]; exact hr.opened
  case owed => rw [new.flushes, new.log]; exact hr.owed
  case attempts =>
    rw [new.rows, new.flushes, new.log]
    intro r hmem
    rcases mem_append.mp hmem with hmem | hmem
    · exact hr.attempts r hmem
    · rw [hattempts r hmem, owes_eq_zero h (new.new r hmem), eq_comm, count_eq_zero]
      exact fun hev => hlog r hmem _ hev rfl
  case failed =>
    rw [new.rows]
    intro r hmem
    rcases mem_append.mp hmem with hmem | hmem
    · exact hr.failed r hmem
    · rw [status_of_fresh (new.fresh r hmem), hattempts r hmem]
      exact iff_of_false (by simp) (by omega)
  case parked =>
    rw [new.rows, new.log]
    intro r hmem
    rcases mem_append.mp hmem with hmem | hmem
    · exact hr.parked r hmem
    · rw [status_of_fresh (new.fresh r hmem)]
      exact iff_of_false (by simp) fun hev => hlog r hmem _ hev rfl
  case published =>
    rw [new.rows, new.log]
    intro r hmem hev
    rcases mem_append.mp hmem with hmem | hmem
    · exact hr.published r hmem hev
    · exact absurd rfl (hlog r hmem _ hev)

theorem recorded_flush (hr : Recorded o s) (h : Inv s) {now : Int} (hb : Begins c o now s s') :
    Recorded o s' := by
  have hsub : ∀ x ∈ s'.store.rows, x ∈ s.store.rows := fun x hx => mem_prune (hb.store ▸ hx)
  have howes : owes s'.flushes = owes s.flushes := by
    rw [hb.flushes, owes, gather_snoc, Flush.begin_owed, append_nil, owes]
  have hopens : opens s'.flushes = opens s.flushes := by
    rw [hb.flushes, opens, gather_snoc, Flush.begin_opened, append_nil, opens]
  have hlog : s.log ⊆ s'.log := hb.log ▸ subset_append_left ..
  -- the new events are about the pruned rows only
  have hnew : ∀ ev ∈ s'.log, ev ∈ s.log ∨ ∃ r ∈ s.store.rows, ev = .pruned r.id ∧
      r.id ∉ s'.store.keys := by
    intro ev hev
    rw [hb.log] at hev
    rcases mem_append.mp hev with hev | hev
    · exact .inl hev
    · obtain ⟨r, hr, rfl⟩ := mem_map.mp hev
      obtain ⟨hr, hk⟩ := mem_filter.mp hr
      exact .inr ⟨r, hr, rfl, by simpa [hb.store] using hk⟩
  constructor
  case lawful =>
    obtain ⟨p, hrows, hpub⟩ := rows_prune c now s.store
    rw [hb.log]
    refine hr.lawful.append fun pre ev post heq => ?_
    have hev : ev ∈ (s.store.rows.filter fun r =>
        r.id ∉ (prunePublished c now s.store).keys).map (Event.pruned ·.id) := heq ▸ by simp
    obtain ⟨r, hmem, rfl⟩ := mem_map.mp hev
    obtain ⟨hmem, hk⟩ := mem_filter.mp hmem
    refine mem_append_left _ (h.published r hmem (hpub r hmem (Bool.eq_false_iff.mpr ?_)))
    intro hp
    refine (of_decide_eq_true hk) (Table.mem_keys.mpr ⟨r, ?_, rfl⟩)
    exact hrows ▸ mem_filter.mpr ⟨hmem, hp⟩
  case known =>
    intro ev hev
    rw [hb.saved]
    rcases hnew ev hev with hev | ⟨r, hmem, rfl, -⟩
    · exact hr.known ev hev
    · exact keys_subset h (Table.mem_keys.mpr ⟨r, hmem, rfl⟩)
  case opened => exact fun r hmem => hlog (hr.opened r (hopens ▸ hmem))
  case owed => exact fun x hx ht => hlog (hr.owed x (howes ▸ hx) ht)
  case attempts =>
    intro r hmem
    rw [howes, hb.log, count_append, hr.attempts r (hsub r hmem), eq_comm, Nat.add_eq_left,
      count_eq_zero]
    simp
  case failed => exact fun r hmem => hr.failed r (hsub r hmem)
  case parked =>
    intro r hmem
    refine (hr.parked r (hsub r hmem)).trans ⟨fun hev => hlog hev, fun hev => ?_⟩
    rcases hnew _ hev with hev | ⟨_, _, heq, _⟩
    · exact hev
    · cases heq
  case published =>
    intro r hmem hev
    rcases hnew _ hev with hev | ⟨_, _, heq, _⟩
    · exact hr.published r (hsub r hmem) hev
    · cases heq

section Relay

variable {n i : Nat} {a : Answer X} {now : Int} {f f' : Flush P (Store P)} {e : Effect P}
  {r r' : OutboxRecord P} {failure : Option String}

theorem accepted_mem {x : OutboxRecord P × Bool} (hx : x ∈ e.outcomes) (ht : x.2 = true) :
    .accepted x.1.id ∈ answerEvents e :=
  mem_append_right _ (mem_map.mpr ⟨x, hx, by simp [ht]⟩)

theorem count_answerEvents (k : String) :
    (answerEvents e).count (.rejected k) = e.outcomes.countP (failureOf k) := by
  have hemitted : (e.emitted.map fun r => Event.emitted r.id).count (.rejected k) = 0 :=
    count_eq_zero.mpr (by simp)
  rw [answerEvents, count_append, hemitted, Nat.zero_add, count, countP_map]
  refine countP_congr fun x _ => ?_
  cases hx : x.2 <;> simp [failureOf, hx]

theorem mem_of_marks (hmarks : Marks o now s s' e r r' failure) {x : OutboxRecord P}
    (hx : x ∈ s'.store.rows) : (x ∈ s.store.rows ∧ x.id ≠ r.id) ∨
      x = marked o.attemptLimit now r.id failure r' := by
  rw [hmarks.rows] at hx
  obtain ⟨y, hy, rfl⟩ := mem_map.mp hx
  by_cases hid : y.id = r.id
  · have heq : y = r' :=
      s.store.eq_of_key_eq hy hmarks.mem (hid.trans (id_eq_of_message hmarks.message).symm)
    exact .inr (heq ▸ rfl)
  · rw [marked_of_ne hid]
    exact .inl ⟨hy, hid⟩

theorem log_of_marks (hmarks : Marks o now s s' e r r' failure) :
    ∃ evs, s'.log = s.log ++ answerEvents e ++ evs ∧ (∀ ev ∈ evs, ev.id = r.id) ∧
      (∀ k, Event.rejected k ∉ evs) ∧ (∀ k, Event.published k ∈ evs ↔ failure = none ∧ k = r.id) ∧
      ∀ k, Event.parked k ∈ evs ↔
        (marked o.attemptLimit now r.id failure r').status = .failed ∧ k = r.id := by
  refine ⟨_, hmarks.log, ?_⟩
  cases failure with
  | none =>
    rw [marked_published (id_eq_of_message hmarks.message) hmarks.pending]
    simp [Event.id]
  | some error =>
    by_cases hs : (marked o.attemptLimit now r.id (some error) r').status = .failed
    · simp [hs, Event.id]
    · simp [hs]

theorem attempts_marked {maxAttempts : Int} (hid : r'.id = r.id) (hp : r'.status = .pending) :
    (marked maxAttempts now r.id failure r').attempts =
      r'.attempts + if failureOf r'.id (outcome (r, failure)) then 1 else 0 := by
  cases failure with
  | none =>
    rw [marked_published hid hp]
    simp [failureOf, outcome]
  | some error =>
    rw [marked_failed hid hp]
    simp [failureOf, outcome, Store.fail, hid]

variable (hn : s.flushes[n]? = some f) (hf : f.step o i a = some (f', e)) (ha : a.reported o)
  (hr : Recorded o s) (h : Inv s)

include hn hf

theorem emitted_subset : e.emitted ⊆ todos s.flushes := fun _ hr =>
  mem_flatMap.mpr ⟨f, mem_of_getElem? hn, Flush.step_emitted hf hr⟩

include ha

theorem outcomes_subset : e.outcomes.map (·.1) ⊆ opens s.flushes ++ e.emitted := fun _ hr =>
  (step_opens hn hf ha).subset (mem_append_left _ hr)

theorem answer_todos {ev : Event} (h : ev ∈ answerEvents e) :
    ∃ r ∈ todos s.flushes, ev.id = r.id := by
  rcases mem_answerEvents h with ⟨r, hr, rfl⟩ | ⟨x, hx, rfl⟩
  · exact ⟨r, emitted_subset hn hf hr, rfl⟩
  · refine ⟨x.1, ?_, by split <;> rfl⟩
    rcases mem_append.mp (outcomes_subset hn hf ha (mem_map_of_mem hx)) with h | h
    · exact opens_subset h
    · exact emitted_subset hn hf h

theorem count_owes (k : String) :
    (e.mark.map outcome).toList.countP (failureOf k) +
      (owes (s.flushes.set n f')).countP (failureOf k) =
    (owes s.flushes).countP (failureOf k) + (answerEvents e).count (.rejected k) := by
  have hcount := (step_owes hn hf ha).countP_eq (failureOf k)
  rwa [countP_append, countP_append, ← count_answerEvents] at hcount

theorem mark_owed (hm : e.mark = some (r, failure)) :
    (r, failure.isNone) ∈ owes s.flushes ++ e.outcomes := by
  refine (step_owes hn hf ha).subset (mem_append_left _ ?_)
  rw [hm]
  exact mem_cons_self

include hr

theorem recorded_open :
    (∀ r ∈ opens (s.flushes.set n f'), .emitted r.id ∈ s.log ++ answerEvents e) ∧
      ∀ x ∈ owes (s.flushes.set n f'), x.2 = true → .accepted x.1.id ∈ s.log ++ answerEvents e := by
  refine ⟨fun r hmem => ?_, fun x hx ht => ?_⟩
  · rcases mem_append.mp ((step_opens hn hf ha).subset (mem_append_right _ hmem)) with
      hmem | hmem
    · exact mem_append_left _ (hr.opened r hmem)
    · exact mem_append_right _ (mem_append_left _ (mem_map_of_mem hmem))
  · rcases mem_append.mp ((step_owes hn hf ha).subset (mem_append_right _ hx)) with
      hx | hx
    · exact mem_append_left _ (hr.owed x hx ht)
    · exact mem_append_right _ (accepted_mem hx ht)

include h

theorem answer_lawful : Trace.Lawful (Allowed o.attemptLimit) (s.log ++ answerEvents e) := by
  rw [answerEvents, ← append_assoc]
  refine (hr.lawful.append fun pre ev post heq => ?_).append fun pre ev post heq => ?_
  · have hev : ev ∈ e.emitted.map fun r => Event.emitted r.id := heq ▸ by simp
    have hpre : ∀ ev' ∈ pre, ∃ r ∈ e.emitted, Event.emitted r.id = ev' := fun ev' hev' =>
      mem_map.mp (heq ▸ mem_append_left _ hev')
    obtain ⟨r, hmem, rfl⟩ := mem_map.mp hev
    obtain ⟨r', hr', hmsg, hp⟩ := h.own r (emitted_subset hn hf hmem)
    rw [← id_eq_of_message hmsg]
    refine ⟨fun hpub => ?_, fun hpark => ?_⟩
    · rcases mem_append.mp hpub with hpub | hpub
      · exact absurd (hr.published r' hr' hpub) (by simp [hp])
      · obtain ⟨_, _, heq⟩ := hpre _ hpub
        cases heq
    · rcases mem_append.mp hpark with hpark | hpark
      · exact absurd ((hr.parked r' hr').mpr hpark) (by simp [hp])
      · obtain ⟨_, _, heq⟩ := hpre _ hpark
        cases heq
  · have hev : ev ∈ e.outcomes.map fun x =>
        if x.2 then Event.accepted x.1.id else .rejected x.1.id := heq ▸ by simp
    obtain ⟨x, hx, rfl⟩ := mem_map.mp hev
    have hemit : Event.emitted x.1.id ∈ s.log ++ e.emitted.map (Event.emitted ·.id) := by
      rcases mem_append.mp (outcomes_subset hn hf ha (mem_map_of_mem hx)) with h | h
      · exact mem_append_left _ (hr.opened x.1 h)
      · exact mem_append_right _ (mem_map_of_mem h)
    split
    · exact mem_append_left _ hemit
    · exact mem_append_left _ hemit

theorem recorded_unmarked (hm : e.mark = none) :
    Recorded o { s with flushes := s.flushes.set n f', log := s.log ++ answerEvents e } := by
  obtain ⟨hopened, howed⟩ := recorded_open hn hf ha hr
  constructor
  case lawful => exact answer_lawful hn hf ha hr h
  case known =>
    intro ev hev
    rcases mem_append.mp hev with hev | hev
    · exact hr.known ev hev
    · obtain ⟨r, hmem, heq⟩ := answer_todos hn hf ha hev
      exact heq ▸ todos_known h hmem
  case opened => exact hopened
  case owed => exact howed
  case attempts =>
    intro r hmem
    have hcount := count_owes hn hf ha r.id
    rw [hm] at hcount
    have hold := hr.attempts r hmem
    simp only [Option.map_none, Option.toList_none, countP_nil] at hcount
    show r.attempts + (owes (s.flushes.set n f')).countP (failureOf r.id) =
      (s.log ++ answerEvents e).count (.rejected r.id)
    rw [count_append]
    omega
  case failed => exact hr.failed
  case parked =>
    intro r hmem
    rw [mem_append, or_iff_left fun h => (answerEvents_ne h _).2.1 rfl]
    exact hr.parked r hmem
  case published =>
    intro r hmem hev
    exact hr.published r hmem
      ((mem_append.mp hev).resolve_right fun h => (answerEvents_ne h _).1 rfl)

theorem lawful_of_marks (hm : e.mark = some (r, failure))
    (hmarks : Marks o now s s' e r r' failure) :
    Trace.Lawful (Allowed o.attemptLimit) s'.log := by
  have howed := mark_owed hn hf ha hm
  rw [hmarks.log]
  cases failure with
  | none =>
    refine (answer_lawful hn hf ha hr h).snoc ?_
    rcases mem_append.mp howed with hx | hx
    · exact mem_append_left _ (hr.owed _ hx rfl)
    · exact mem_append_right _ (accepted_mem hx rfl)
  | some error =>
    have hid := id_eq_of_message hmarks.message
    dsimp only
    split
    · next hs =>
      refine (answer_lawful hn hf ha hr h).snoc ?_
      rw [marked_failed hid hmarks.pending, Store.fail_status] at hs
      have hpos : 0 < (owes s.flushes ++ e.outcomes).countP (failureOf r.id) :=
        countP_pos_iff.mpr ⟨_, howed, by simp [failureOf]⟩
      have hold := hr.attempts r' hmarks.mem
      rw [hid] at hold
      rw [countP_append, ← count_answerEvents] at hpos
      show o.attemptLimit ≤ ((s.log ++ answerEvents e).count (.rejected r.id) : Nat)
      rw [count_append]
      omega
    · rw [append_nil]
      exact answer_lawful hn hf ha hr h

theorem recorded_marked (hm : e.mark = some (r, failure))
    (hmarks : Marks o now s s' e r r' failure) (hsaved : s'.saved = s.saved)
    (hopens : opens s'.flushes = opens (s.flushes.set n f'))
    (howes : owes s'.flushes = owes (s.flushes.set n f')) : Recorded o s' := by
  obtain ⟨hopened, howed⟩ := recorded_open hn hf ha hr
  obtain ⟨evs, hlog, hids, hrejected, hpublished, hparked⟩ := log_of_marks hmarks
  have hid := id_eq_of_message hmarks.message
  have hsub : s.log ++ answerEvents e ⊆ s'.log := hlog ▸ subset_append_left ..
  constructor
  case lawful => exact lawful_of_marks hn hf ha hr h hm hmarks
  case known =>
    intro ev hev
    rw [hsaved]
    rw [hlog, append_assoc] at hev
    rcases mem_append.mp hev with hev | hev
    · exact hr.known ev hev
    rcases mem_append.mp hev with hev | hev
    · obtain ⟨x, hx, heq⟩ := answer_todos hn hf ha hev
      exact heq ▸ todos_known h hx
    · rw [hids ev hev]
      exact todos_known h (hmarks.todos.subset mem_cons_self)
  case opened => exact fun x hx => hsub (hopened x (hopens ▸ hx))
  case owed => exact fun x hx ht => hsub (howed x (howes ▸ hx) ht)
  case attempts =>
    intro x hx
    have hcount := count_owes hn hf ha x.id
    have hevs : evs.count (.rejected x.id) = 0 := count_eq_zero.mpr (hrejected _)
    rw [hm] at hcount
    rw [howes, hlog, count_append, count_append, hevs]
    rcases mem_of_marks hmarks hx with ⟨hmem, hne⟩ | rfl
    · have hold := hr.attempts x hmem
      have hother : failureOf x.id (outcome (r, failure)) = false := by
        simp [failureOf, outcome, Ne.symm hne]
      simp only [Option.map_some, Option.toList_some, countP_singleton, hother,
        Bool.false_eq_true, if_false] at hcount
      omega
    · have hold := hr.attempts r' hmarks.mem
      rw [marked_id] at hcount ⊢
      rw [attempts_marked hid hmarks.pending]
      simp only [Option.map_some, Option.toList_some, countP_singleton] at hcount
      rw [hid] at hold hcount ⊢
      omega
  case failed =>
    intro x hx
    rcases mem_of_marks hmarks hx with ⟨hmem, hne⟩ | rfl
    · exact hr.failed x hmem
    · have hold := hr.failed r' hmarks.mem
      cases failure with
      | none =>
        rw [marked_published hid hmarks.pending]
        exact iff_of_false (by simp) fun hle => absurd (hold.mpr hle) (by simp [hmarks.pending])
      | some error =>
        rw [marked_failed hid hmarks.pending]
        exact Store.fail_status error
  case parked =>
    intro x hx
    rw [hlog, mem_append, mem_append,
      or_iff_left fun h => (answerEvents_ne h _).2.1 rfl, hparked]
    rcases mem_of_marks hmarks hx with ⟨hmem, hne⟩ | rfl
    · rw [or_iff_left fun h => hne h.2]
      exact hr.parked x hmem
    · have hold : Event.parked r.id ∉ s.log := fun hev =>
        absurd ((hr.parked r' hmarks.mem).mpr (hid ▸ hev)) (by simp [hmarks.pending])
      rw [marked_id, hid, or_iff_right hold, and_iff_left rfl]
  case published =>
    intro x hx hev
    rw [hlog, mem_append, mem_append,
      or_iff_left fun h => (answerEvents_ne h _).1 rfl, hpublished] at hev
    rcases mem_of_marks hmarks hx with ⟨hmem, hne⟩ | rfl
    · exact hr.published x hmem (hev.resolve_right fun h => hne h.2)
    · rw [marked_id] at hev
      rcases hev with hev | ⟨rfl, -⟩
      · exact absurd (hr.published r' hmarks.mem hev) (by simp [hmarks.pending])
      · rw [marked_published hid hmarks.pending]

theorem recorded_relay : Recorded o (s.relayed o n f' e now) := by
  cases hm : e.mark with
  | none =>
    rw [relayed_none hm]
    exact recorded_unmarked hn hf ha hr h hm
  | some m =>
    obtain ⟨r, failure⟩ := m
    obtain ⟨r', hmarks⟩ := relayed_marks now h hn hf hm
    obtain ⟨g, -, hlanes, -, hg⟩ := flushes_relayed o s n now f' e
    refine recorded_marked hn hf ha hr h hm hmarks saved_relayed ?_ ?_
    · rw [hg]
      exact gather_set_congr Lane.opened hlanes
    · rw [hg]
      exact gather_set_congr Lane.owed hlanes

end Relay

theorem recorded_step (hr : Recorded o s) (h : Inv s) (hmax : 1 ≤ o.attemptLimit)
    (hc : Change c o s s') : Recorded o s' := by
  cases hc with
  | append l new => exact recorded_append hr h hmax new
  | flush now new => exact recorded_flush hr h new
  | relay n i a now f f' e hn hf ha state =>
    subst state
    exact recorded_relay hn hf ha hr h

theorem recorded_reach (hmax : 1 ≤ o.attemptLimit) (h : (machine c o).Reach (reportable o) s) :
    Recorded o s := by
  induction h with
  | init =>
    constructor
    case lawful => exact Trace.lawful_nil
    all_goals simp [machine, opens, owes, gather, Table.empty]
  | step hr hok hs ih =>
    have hi := inv_reach hr
    exact recorded_step ih hi hmax (step_change hi hs hok).1

/-- What holds of the records in every state of a run in which every rejection of the publisher
is reported. A saved record is in the store unless it is published, and the store holds nothing
else. A record is published after an emission of it was accepted, it is not emitted once it is
published or failed, and only published records are pruned. The attempts of a record, with the
failures that a running flush has still to report, are its failed emissions, and it is failed
when they reach the limit. No record of a transaction that threw is stored or emitted. -/
theorem records_kept (c : StoreOptions) (o : Options X) {s : State P}
    (hmax : 1 ≤ o.attemptLimit) (h : (machine c o).Reach (reportable o) s) :
    (∀ r ∈ s.saved, (∃ r' ∈ s.store.rows, r'.message = r) ∨ .published r.id ∈ s.log) ∧
    (∀ r ∈ s.store.rows, r.message ∈ s.saved) ∧
    Trace.Lawful (Allowed o.attemptLimit) s.log ∧
    (∀ r ∈ s.store.rows,
      (r.status = .published ↔ .published r.id ∈ s.log) ∧
      (r.status = .failed ↔ .parked r.id ∈ s.log) ∧
      (r.status = .failed ↔ o.attemptLimit ≤ r.attempts) ∧
      r.attempts + (owes s.flushes).countP (failureOf r.id) = s.log.count (.rejected r.id) ∧
      ((∀ f ∈ s.flushes, f.finished) → r.attempts = s.log.count (.rejected r.id))) ∧
    (∀ r ∈ s.dropped, r.id ∉ s.store.keys ∧ .emitted r.id ∉ s.log) := by
  have hi := inv_reach h
  have hr := recorded_reach hmax h
  have hrows : ∀ r ∈ s.store.rows, r.message ∈ s.saved := fun r hmem =>
    hi.rows.subset (mem_map_of_mem hmem)
  refine ⟨fun r hmem => ?_, hrows, hr.lawful, fun r hmem => ?_, fun r hmem => ?_⟩
  · rcases hi.kept r hmem with hk | hk
    · obtain ⟨r', hr', hid⟩ := Table.mem_keys.mp hk
      exact .inl ⟨r', hr', inj_on_of_nodup_map (nodup_saved hi) (hrows r' hr') hmem hid⟩
    · exact .inr hk.2
  · refine ⟨⟨hi.published r hmem, hr.published r hmem⟩, hr.parked r hmem, hr.failed r hmem,
      hr.attempts r hmem, fun hover => ?_⟩
    have hsub : (owes s.flushes).map (·.1) ⊆ [] := todos_nil hi hover ▸ owes_subset
    have hnil : owes s.flushes = [] := map_eq_nil_iff.mp (subset_nil.mp hsub)
    have hattempts := hr.attempts r hmem
    rwa [hnil, countP_nil, Nat.add_zero] at hattempts
  · have hnew : r.id ∉ s.saved.map (·.id) := by
      intro hsaved
      have hd := hi.known
      rw [State.known, append_assoc, map_append, nodup_append] at hd
      exact hd.2.2 _ hsaved _ (mem_map_of_mem (mem_append_left _ hmem)) rfl
    exact ⟨fun hk => hnew (keys_subset hi hk), fun hev => hnew (hr.known _ hev)⟩

/-- A publisher that rejects with errors only. -/
def reporting : Options Unit where
  messageOf _ := some "broker down"

/-- A transaction that commits and one that throws; the first emission of the committed record
fails and the second one succeeds. -/
def retried : List (Action Unit Unit) :=
  [.beginTx, .enqueue (some 0) "a" "orders" "order.created" () none 0, .commit 0,
    .beginTx, .enqueue (some 1) "b" "orders" "order.created" () none 1, .rollback 1,
    .flush 2, .relay 0 0 .go 2, .relay 0 0 (.rejected ()) 3, .relay 0 0 .stored 3,
    .flush 4, .relay 1 0 .go 4, .relay 1 0 .resolved 5, .relay 1 0 .stored 5]

theorem records_kept_retried :
    ∃ s : State Unit, 1 ≤ reporting.attemptLimit ∧
      (machine {} reporting).Reach (reportable reporting) s ∧
      (∃ r ∈ s.store.rows, r.attempts = 1 ∧ s.log.count (.rejected r.id) = 1) ∧
      ∃ r ∈ s.dropped, r.id ∉ s.store.keys := by
  obtain ⟨s, hs, hobs⟩ := Machine.Reach.observe (machine {} reporting) (reportable reporting)
    retried (fun s => (s.store.rows.any fun r => r.attempts = 1) && s.flushes.all Flush.finished &&
      !s.dropped.isEmpty) true (by decide +kernel)
  have hmax : 1 ≤ reporting.attemptLimit := by decide
  obtain ⟨-, -, -, hrows, hdropped⟩ := records_kept {} reporting hmax hs
  simp only [Bool.and_eq_true, any_eq_true, decide_eq_true_eq, all_eq_true,
    Bool.not_eq_true', isEmpty_eq_false_iff_exists_mem] at hobs
  obtain ⟨⟨⟨r, hr, ha⟩, hover⟩, d, hd⟩ := hobs
  exact ⟨s, hmax, hs, ⟨r, hr, ha, ((hrows r hr).2.2.2.2 hover).symm.trans ha⟩,
    d, hd, (hdropped d hd).1⟩

/-! ## A rejection that cannot be reported -/

/-- As in `orphaned`, but the second flush publishes both records of the partition before the
first flush goes on. -/
def emittedAgain : List (Action Unit Bool) :=
  [.enqueue none "a1" "orders" "order.created" () (some "a") 0,
    .enqueue none "a2" "orders" "order.paid" () (some "a") 1,
    .enqueue none "b1" "orders" "order.created" () (some "b") 2,
    .flush 3,
    .relay 0 0 .go 3, .relay 0 1 .go 3, .relay 0 1 (.rejected false) 4,
    .flush 5,
    .relay 1 0 .go 5, .relay 1 0 .resolved 6, .relay 1 0 .stored 6,
    .relay 1 0 .go 6, .relay 1 0 .resolved 7, .relay 1 0 .stored 7,
    .relay 0 0 .resolved 8, .relay 0 0 .stored 8, .relay 0 0 .go 8]

/-- Without the condition an emission fails without an attempt being counted, and a published
record is emitted again. -/
theorem records_kept_broken :
    ∃ s : State Unit, (machine {} oneAttempt).Reach Machine.free s ∧
      (∃ r ∈ s.store.rows, r.attempts + (owes s.flushes).countP (failureOf r.id) ≠
        s.log.count (.rejected r.id)) ∧
      ¬ Trace.Lawful (Allowed oneAttempt.attemptLimit) s.log := by
  obtain ⟨s, hs, hobs⟩ := Machine.Reach.observe (machine {} oneAttempt) Machine.free emittedAgain
    (fun s => (s.log, s.store.rows.any fun r =>
      r.attempts + (owes s.flushes).countP (failureOf r.id) ≠ s.log.count (.rejected r.id)))
    ([.emitted "a1", .emitted "b1", .rejected "b1", .emitted "a1", .accepted "a1",
      .published "a1", .emitted "a2", .accepted "a2", .published "a2", .accepted "a1",
      .emitted "a2"], true) (by decide +kernel)
  obtain ⟨hlog, hrow⟩ := Prod.mk.inj hobs
  refine ⟨s, hs, by simpa using hrow, fun hlawful => ?_⟩
  -- the last event emits `a2`, which is published
  have hlast := hlawful _ (.emitted "a2") [] (hlog.trans (dropLast_append_getLast? _ rfl).symm)
  exact hlast.1 (by decide)

end NevoMessaging.Outbox
