import NevoMessaging.Lib.Machine
import NevoMessaging.Pg.Postgres
import NevoMessaging.Pg.Subscriber

/-!
# Commit visibility

A subscription that polls the Postgres table while transactions draw their numbers, commit and
abort. A poll leaves out what is not below the least id of a running transaction, so that no
later commit can introduce an event behind the cursor. That holds only if sequence numbers and
transaction ids are drawn in the same order: a transaction that has drawn its sequence number
and not yet its id holds nothing back.

Results:
1. `visibilityInv_reach`: what is behind the cursor is finished, and was passed if committed.
2. `cursor_never_steps_over`: no event is passed over as long as no two transactions draw their two
   numbers in opposite orders.
3. `cursor_steps_over`: otherwise one may be.
-/

namespace NevoMessaging.Pg

open List

variable {P X : Type}

structure PgSys (P X : Type) where
  db : Db P
  sub : Subscriber P X

inductive PgAct (P X : Type)
  | db (a : DbAct P)
  | select
  | input (i : Input X)

def PgSys.step (c : Subscription X) (s : PgSys P X) : PgAct P X → Option (PgSys P X)
  | .db a => (s.db.step a).map fun db => { s with db }
  | .select => (s.sub.fetched c (s.db.read (pollRange s.sub.cursor c.batchSize))).map fun sub =>
    { s with sub }
  | .input i => (s.sub.step c i).map fun sub => { s with sub }

def pgSubscribe (c : Subscription X) : Machine (PgSys P X) (PgAct P X) where
  init := { db := {}, sub := c.init }
  step := PgSys.step c

/-- The steps in which no transaction completes its numbers out of order. -/
def drawsInOrder (s : PgSys P X) : PgAct P X → Bool
  | .db a => s.db.inOrder a
  | _ => true

/-- The event was passed to the handler. -/
def Passed (trace : List (Obs P X)) (sequence : Nat) : Prop :=
  trace.any (Obs.invokes sequence) = true

/-! ## What lies behind an event -/

/-- Below `hi`, which is right behind a committed event, every transaction with both numbers is
finished, and the committed ones are in `D`. -/
structure Covered (db : Db P) (D : Nat → Prop) (lo hi : Int) : Prop where
  anchor : hi = lo ∨ ∃ t ∈ db.txns, t.status = .committed ∧
    ∃ q x : Nat, t.numbers = some (q, x) ∧ hi = q + 1
  done : ∀ t ∈ db.txns, ∀ q x, t.numbers = some (q, x) → lo ≤ q → q < hi →
    t.status ≠ .running ∧ (t.status = .committed → D q)

variable {db db' : Db P} {D D' : Nat → Prop} {lo hi : Int}

theorem Covered.mono (h : Covered db D lo hi) (hle : ∀ q, D q → D' q) : Covered db D' lo hi where
  anchor := h.anchor
  done t ht q x hn hlo hhi := (h.done t ht q x hn hlo hhi).imp_right fun hd hc => hle q (hd hc)

theorem Covered.put (h : Covered db D lo hi) {i : Nat} {t t' : Txn P}
    (hget : db.txns[i]? = some t) (hrun : t.status = .running) {db' : Db P}
    (hdb : db'.txns = (db.put i t').txns)
    (hnew : ∀ q x : Nat, t'.numbers = some (q, x) → lo ≤ q → ¬ (q : Int) < hi) :
    Covered db' D lo hi where
  anchor := by
    refine h.anchor.imp_right fun ⟨u, hu, hc, hn⟩ => ⟨u, ?_, hc, hn⟩
    rw [hdb]
    exact mem_put_of_ne hget hu fun heq => by simp [heq, hrun] at hc
  done u hu q x hn hlo hhi := by
    rw [hdb] at hu
    rcases mem_put hu with hu | rfl
    · exact h.done u hu q x hn hlo hhi
    · exact absurd hhi (hnew q x hn hlo)

theorem Covered.step (h : Covered db D lo hi) (ho : db.Ordered) {a : DbAct P}
    (hok : db.inOrder a = true) (hs : DbStep db a db') : Covered db' D lo hi := by
  -- A finished transaction does not run, so nothing behind `hi` commits or aborts any more.
  have hstatus : ∀ {i : Nat} {t : Txn P}, db.txns[i]? = some t → t.status = .running → ∀ q x : Nat,
      t.numbers = some (q, x) → lo ≤ q → ¬ (q : Int) < hi := fun hget hrun q x hn hlo hhi =>
    (h.done _ (mem_of_getElem? hget) q x hn hlo hhi).1 hrun
  cases hs with
  | begin insert =>
    refine ⟨h.anchor.imp_right fun ⟨u, hu, hc⟩ => ⟨u, mem_append_left _ hu, hc⟩, ?_⟩
    intro u hu q x hn
    rcases mem_append.mp hu with hu | hu
    · exact h.done u hu q x hn
    · rw [mem_singleton.mp hu] at hn
      cases hn
  | @drawSequence i t hget hrun hnone =>
    refine Covered.put h hget hrun rfl fun q x hn hlo hhi => ?_
    cases (numbers_eq hn).1
    rcases h.anchor with rfl | ⟨u, hu, _, q', x', hn', rfl⟩
    · omega
    · have := ho.sequences u hu q' (numbers_eq hn').1
      omega
  | @drawTxid i t hget hrun hnone =>
    refine Covered.put h hget hrun rfl fun q x hn hlo hhi => ?_
    rcases h.anchor with rfl | ⟨u, hu, _, q', x', hn', rfl⟩
    · omega
    · simp only [Db.inOrder, hget, Option.bind_some,
        show t.sequence = some q from (numbers_eq hn).1,
        Option.all_some, all_eq_true, decide_eq_true_eq] at hok
      have := hok (q', x') (mem_filterMap.mpr ⟨u, hu, hn'⟩)
      omega
  | commit hget hrun _ | abort hget hrun =>
    exact Covered.put h hget hrun rfl fun q x hn => hstatus hget hrun q x hn

theorem Covered.poll (h : Covered db D lo hi) (ho : db.Ordered) {limit : Nat}
    {l r : List (DomainEvent P)} {e : DomainEvent P}
    (hread : db.read (pollRange hi limit) = l ++ e :: r) :
    Covered db (fun q => D q ∨ ∃ e' ∈ l ++ [e], e'.sequence = q) lo (e.sequence + 1) := by
  obtain ⟨u, hu, hc, hle, x, hn, hx⟩ := mem_poll
    (hread ▸ by simp : e ∈ db.read (pollRange hi limit))
  refine ⟨.inr ⟨u, hu, hc, e.sequence, x, hn, rfl⟩, fun t ht q y hnt hlo hlt => ?_⟩
  rcases Int.lt_or_le q hi with hq | hq
  · exact (h.done t ht q y hnt hlo hq).imp_right fun hd hct => .inl (hd hct)
  -- Its id is not above that of the event, which is below every running one.
  have hqe : q ≤ e.sequence := by omega
  have hy : y ≤ x := ho.agree t ht u hu q y e.sequence x hnt hn hqe
  refine ⟨fun hrun => ?_, fun hct => .inr ?_⟩
  · have := xmin_le ht hrun (numbers_eq hnt).2
    omega
  · exact poll_before hread ht hct hnt hq (by omega) hqe

/-! ## The invariant -/

/-- `D`, and the events of a list. -/
def orIn (D : Nat → Prop) (events : List (DomainEvent P)) (sequence : Nat) : Prop :=
  D sequence ∨ ∃ e ∈ events, e.sequence = sequence

structure VisibilityInv (c : Subscription X) (s : PgSys P X) : Prop where
  ordered : s.db.Ordered
  covered : Covered s.db (Passed s.sub.trace) c.fromSeq s.sub.cursor
  /-- The rest of the last poll can be passed event by event. -/
  ahead : ∀ l e r, s.sub.phase.rest = l ++ e :: r →
    Covered s.db (orIn (Passed s.sub.trace) (l ++ [e])) c.fromSeq (e.sequence + 1)
  /-- The event that the handler or the sink is busy with was passed to the handler. -/
  busy : s.sub.phase.settled = false → ∀ e r, s.sub.phase.rest = e :: r →
    Passed s.sub.trace e.sequence

variable {c : Subscription X} {s s' : PgSys P X}

theorem passed_append {trace : List (Obs P X)} {q : Nat} (h : Passed trace q)
    (new : List (Obs P X)) : Passed (trace ++ new) q := by
  simp only [Passed, any_append, Bool.or_eq_true] at h ⊢
  exact .inl h

theorem VisibilityInv.stay (hi : VisibilityInv c s) (new : List (Obs P X)) (hdb : s'.db = s.db)
    (htrace : s'.sub.trace = s.sub.trace ++ new) (hcursor : s'.sub.cursor = s.sub.cursor)
    (hrest : s'.sub.phase.rest = s.sub.phase.rest ∨ s'.sub.phase.rest = [])
    (hbusy : s'.sub.phase.settled = false → ∀ e r, s'.sub.phase.rest = e :: r →
      Passed s'.sub.trace e.sequence) : VisibilityInv c s' := by
  have hle : ∀ q, Passed s.sub.trace q → Passed s'.sub.trace q :=
    fun q hq => htrace ▸ passed_append hq new
  refine ⟨hdb ▸ hi.ordered, ?_, fun l e r hl => ?_, hbusy⟩
  · rw [hdb, hcursor]
    exact Covered.mono hi.covered hle
  · rcases hrest with hrest | hrest
    · rw [hdb]
      exact Covered.mono (hi.ahead l e r (hrest ▸ hl)) fun q hq => hq.imp_left (hle q)
    · simp [hrest] at hl

theorem VisibilityInv.pass (hi : VisibilityInv c s) (new : List (Obs P X)) {e : DomainEvent P}
    {rest : List (DomainEvent P)} {more : Bool} (hrest : s.sub.phase.rest = e :: rest)
    (hs : s.sub.phase.settled = false) (hdb : s'.db = s.db)
    (htrace : s'.sub.trace = s.sub.trace ++ new) (hcursor : s'.sub.cursor = e.sequence + 1)
    (hphase : s'.sub.phase = .batch rest more) : VisibilityInv c s' := by
  have hpassed := hi.busy hs e rest hrest
  -- The event itself need not be listed any more.
  have hle : ∀ l q, orIn (Passed s.sub.trace) (e :: l) q → orIn (Passed s'.sub.trace) l q := by
    rintro l q (hq | ⟨e', he', rfl⟩)
    · exact .inl (htrace ▸ passed_append hq new)
    · rcases mem_cons.mp he' with rfl | he'
      · exact .inl (htrace ▸ passed_append hpassed new)
      · exact .inr ⟨e', he', rfl⟩
  refine ⟨hdb ▸ hi.ordered, ?_, fun l e' r hl => ?_, by simp [hphase, Phase.settled]⟩
  · rw [hdb, hcursor]
    refine Covered.mono (hi.ahead [] e rest hrest) fun q hq => ?_
    exact (hle [] q hq).elim id (by simp)
  · rw [hdb]
    rw [hphase] at hl
    exact Covered.mono (hi.ahead (e :: l) e' r (by rw [hrest, show rest = _ from hl]; rfl))
      (hle (l ++ [e']))

theorem visibilityInv_goes (hi : VisibilityInv c s) {i : Input X} {sub : Subscriber P X}
    (h : Goes c s.sub i sub) : VisibilityInv c { s with sub } := by
  have hidle : ∀ {t : Subscriber P X} {delay : Int}, (t.endTick delay).phase.rest = [] ∧
      (t.endTick delay).phase.settled = true := by
    intro t delay
    unfold Subscriber.endTick
    split <;> exact ⟨rfl, rfl⟩
  cases h with
  | rests _ hs' hrest hcursor _ htrace =>
    rcases htrace with ht | ht
    · exact VisibilityInv.stay hi [] rfl (by simp [ht]) hcursor (.inr hrest) (by simp [hs'])
    · exact VisibilityInv.stay hi _ rfl ht hcursor (.inr hrest) (by simp [hs'])
  | stops => exact ⟨hi.ordered, hi.covered, hi.ahead, hi.busy⟩
  | @invokes event rest more hp =>
    refine VisibilityInv.stay hi _ rfl rfl rfl (.inl (by simp [hp, Phase.rest])) fun _ e r hl => ?_
    cases hl
    simp [Subscriber.note, Passed, Obs.invokes]
  | handles hp =>
    exact VisibilityInv.pass hi _ (by rw [hp]; rfl) (by rw [hp]; rfl) rfl rfl rfl rfl
  | unreported hp | retries hp =>
    exact VisibilityInv.stay hi _ rfl rfl rfl (.inr hidle.1) (by simp [hidle.2])
  | @poisons event rest more err message hp _ _ _ =>
    refine VisibilityInv.stay hi [.skipping event _ message, .poisoned event err] rfl
      (by simp only [Subscriber.note, append_assoc]; rfl) rfl (.inl (by rw [hp]; rfl)) ?_
    intro _ e r hl
    cases hl
    have hpassed := hi.busy (by rw [hp]; rfl) event rest (by rw [hp]; rfl)
    exact passed_append (passed_append hpassed _) _
  | skips hp => exact VisibilityInv.pass hi _ (by rw [hp]; rfl) (by rw [hp]; rfl) rfl rfl rfl rfl
  | @sinks event rest more resolved hp =>
    cases resolved with
    | true =>
      exact VisibilityInv.pass hi [] (by rw [hp]; rfl) (by rw [hp]; rfl) rfl
        (append_nil _).symm rfl rfl
    | false =>
      exact VisibilityInv.pass hi _ (by rw [hp]; rfl) (by rw [hp]; rfl) rfl rfl rfl rfl

theorem visibilityInv_init (c : Subscription X) :
    VisibilityInv c (pgSubscribe (P := P) c).init where
  ordered := by constructor <;> simp [pgSubscribe]
  covered := ⟨.inl rfl, by simp [pgSubscribe]⟩
  ahead l e r h := by simp [pgSubscribe, Subscription.init, Phase.rest] at h
  busy h := by simp [pgSubscribe, Subscription.init, Phase.settled] at h

theorem visibilityInv_step (hi : VisibilityInv c s) {a : PgAct P X}
    (hok : drawsInOrder s a = true) (h : s.step c a = some s') : VisibilityInv c s' := by
  cases a with
  | db a =>
    obtain ⟨db, hs, rfl⟩ := Option.map_eq_some_iff.mp h
    have hs := DbStep.of_step hs
    exact ⟨ordered_step hi.ordered hok hs,
      Covered.step hi.covered hi.ordered hok hs,
      fun l e r hl => Covered.step (hi.ahead l e r hl) hi.ordered hok hs, hi.busy⟩
  | select =>
    obtain ⟨sub, hf, rfl⟩ := Option.map_eq_some_iff.mp h
    obtain ⟨hp, rfl⟩ := Subscriber.fetched_cases hf
    exact ⟨hi.ordered, hi.covered, fun l e r hl => Covered.poll hi.covered hi.ordered hl,
      by simp [Phase.settled]⟩
  | input i =>
    obtain ⟨sub, hs, rfl⟩ := Option.map_eq_some_iff.mp h
    exact visibilityInv_goes hi (Subscriber.step_goes hs)

theorem covered_later {D : Nat → Prop} {lo hi : Int} (ho : s.db.Ordered)
    (hc : Covered s.db D lo hi)
    (h : ((pgSubscribe c).restart s).Reach (fun s a => drawsInOrder s a = true) s') :
    Covered s'.db D lo hi := by
  refine (h.invariant (P := fun s => s.db.Ordered ∧ Covered s.db D lo hi) ⟨ho, hc⟩ ?_).2
  rintro t t' a _ ⟨ho, hc⟩ hok hs
  cases a with
  | db a =>
    obtain ⟨db, hdb, rfl⟩ := Option.map_eq_some_iff.mp hs
    have hstep := DbStep.of_step hdb
    exact ⟨ordered_step ho hok hstep, Covered.step hc ho hok hstep⟩
  | select | input i =>
    obtain ⟨sub, _, rfl⟩ := Option.map_eq_some_iff.mp hs
    exact ⟨ho, hc⟩

theorem visibilityInv_reach {c : Subscription X} {s : PgSys P X}
    (h : (pgSubscribe c).Reach (fun s a => drawsInOrder s a = true) s) : VisibilityInv c s :=
  h.invariant (visibilityInv_init c) fun _ hi hok hs => visibilityInv_step hi hok hs

/-- Whenever the cursor is somewhere, every event behind it that commits at any time was passed
to the handler, if no two transactions draw their sequence numbers and their ids in opposite
orders. `s'` is any later state. -/
theorem cursor_never_steps_over {c : Subscription X} {s s' : PgSys P X}
    (h : (pgSubscribe c).Reach (fun s a => drawsInOrder s a = true) s)
    (h' : ((pgSubscribe c).restart s).Reach (fun s a => drawsInOrder s a = true) s') {row : Row P}
    (hrow : row ∈ s'.db.rows) (hfrom : c.fromSeq ≤ row.event.sequence)
    (hlt : row.event.sequence < s.sub.cursor) : Passed s.sub.trace row.event.sequence := by
  have hi := visibilityInv_reach h
  obtain ⟨t, ht, heq⟩ := mem_filterMap.mp hrow
  obtain ⟨hc, hn⟩ := row?_eq heq
  have hcovered := covered_later hi.ordered hi.covered h'
  exact (hcovered.done t ht _ _ hn hfrom hlt).2 hc

/-! ## Two appends at once -/

def appendA : Insert Unit := ⟨"order.created", some "o-1", (), 0⟩

def appendB : Insert Unit := ⟨"order.created", some "o-2", (), 0⟩

/-- A subscription from the first event on. -/
def fromFirst : Subscription Unit where
  fromSeq := 1
  opts := {}
  messageOf := fun _ => some "failed"

/-- One poll: the timer, the SELECT, and a call of the handler for each of `n` events. -/
def poll (n : Nat) : List (PgAct Unit Unit) :=
  [PgAct.input .timer, .select] ++ (List.replicate n
    [PgAct.input .next, .input .resolved]).flatten ++
    [PgAct.input .next]

/-- The sequences of the committed rows, the cursor, and whether event 1 was passed. -/
def seen (s : PgSys Unit Unit) : List Nat × Int × Bool :=
  (s.db.rows.map (·.event.sequence), s.sub.cursor, s.sub.trace.any (Obs.invokes 1))

theorem seen_row {s : PgSys Unit Unit} {qs : List Nat} {cursor : Int} {passed : Bool}
    (h : seen s = (qs, cursor, passed)) (hq : 1 ∈ qs) :
    ∃ row ∈ s.db.rows, row.event.sequence = 1 := by
  cases h
  simpa using hq

/-- The first append has its sequence number and not its id when the second one commits, so the
poll does not wait for it; the cursor goes to 3, and then event 1 commits. -/
theorem cursor_steps_over :
    ¬ ∀ s s' : PgSys Unit Unit, (pgSubscribe fromFirst).Reach Machine.free s →
      ((pgSubscribe fromFirst).restart s).Reach Machine.free s' → ∀ row ∈ s'.db.rows,
        fromFirst.fromSeq ≤ row.event.sequence → row.event.sequence < s.sub.cursor →
          Passed s.sub.trace row.event.sequence := by
  obtain ⟨s, hs, hobs⟩ := Machine.Reach.observe (pgSubscribe fromFirst) Machine.free
    ([PgAct.db (.begin appendA), .db (.begin appendB), .db (.drawSequence 0), .db (.drawSequence 1),
      .db (.drawTxid 1), .db (.commit 1)] ++ poll 1 ++ [PgAct.db (.drawTxid 0), .db (.commit 0)])
    seen ([1, 2], 3, false) (by decide +kernel)
  obtain ⟨row, hrow, hseq⟩ := seen_row hobs (by simp)
  have hcursor : s.sub.cursor = 3 := congrArg (·.2.1) hobs
  have hpassed : s.sub.trace.any (Obs.invokes 1) = false := congrArg (·.2.2) hobs
  intro hall
  have hp := hall s s hs .init row hrow (by simp [hseq, fromFirst]) (by simp [hseq, hcursor])
  rw [hseq, Passed, hpassed] at hp
  cases hp

theorem cursor_never_steps_over_pair :
    ∃ (s : PgSys Unit Unit) (row : Row Unit),
      (pgSubscribe fromFirst).Reach (fun s a => drawsInOrder s a = true) s ∧
      row ∈ s.db.rows ∧ fromFirst.fromSeq ≤ row.event.sequence ∧
      row.event.sequence < s.sub.cursor ∧ Passed s.sub.trace row.event.sequence := by
  obtain ⟨s, hs, hobs⟩ := Machine.Reach.observe (pgSubscribe fromFirst)
    (fun s a => drawsInOrder s a = true)
    ([PgAct.db (.begin appendA), .db (.begin appendB), .db (.drawSequence 0), .db (.drawTxid 0),
      .db (.drawSequence 1), .db (.drawTxid 1), .db (.commit 1)] ++ poll 0 ++
      [PgAct.db (.commit 0)] ++ poll 2) seen ([1, 2], 3, true) (by decide +kernel)
  obtain ⟨row, hrow, hseq⟩ := seen_row hobs (by simp)
  have hcursor : s.sub.cursor = 3 := congrArg (·.2.1) hobs
  have hfrom : fromFirst.fromSeq ≤ row.event.sequence := by simp [hseq, fromFirst]
  have hlt : row.event.sequence < s.sub.cursor := by simp [hseq, hcursor]
  exact ⟨s, row, hs, hrow, hfrom, hlt, cursor_never_steps_over hs .init hrow hfrom hlt⟩

end NevoMessaging.Pg
