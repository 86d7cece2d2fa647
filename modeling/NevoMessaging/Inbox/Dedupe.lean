import NevoMessaging.Idempotency.Cache
import NevoMessaging.Lib.Election
import NevoMessaging.Lib.Machine
import NevoMessaging.Lib.Trace

/-!
# Inbox.dedupe in one process

Calls with one uuid elect a leader through the map `inflight`: the first one opens a lease, the
others await its promise. The leader looks into the store, runs its handler if the store has
nothing, and writes the result down before it settles the lease. If it fails, the promise is
rejected and those who wait run for the lead again, beside any call that has come meanwhile.

The store is `InMemoryInboxStore`, which has no `claim`. Its methods do their work when they are
called, and the caller goes on later; so a stretch of a call runs from one `await` to the next. A
missing value is `undefined`, and `markSeen` is rejected if the cache cannot write into the result.

Results:
1. `Wired.next`: at most one call per uuid leads, and it has the lease.
2. `Once.next`: what the store, the promises and the calls hold is the result of one handler.
3. `handled_once`: one run of a handler per uuid succeeds, and its result is what all calls get.
-/

namespace NevoMessaging

open List

/-- A promise of a leader. -/
structure InboxLease (T : Type) where
  uuid : JsString
  outcome : Option (Option (Option T)) := none

/-- The maps `inflight` and `leaders` have the same keys: a lease is the promise together with the
functions that settle it. -/
structure Inbox (T : Type) where
  store : LruIdempotencyCache T
  leases : List (InboxLease T) := []
  inflight : JsString → Option Nat := fun _ => none

structure InboxStoreOptions where
  maxEntries : Option Int := none
  ttlMs : Option Int := none

/-- The options of the cache of `InMemoryInboxStore`. -/
def InboxStoreOptions.cache (opts : InboxStoreOptions) : IdempotencyOptions where
  enabled := some true
  maxEntries := some (opts.maxEntries.getD 50000)
  ttlMs := some (opts.ttlMs.getD (10 * 60000))

inductive DedupeError (E : Type)
  | handler (error : E)
  | markSeen
deriving DecidableEq

/-- Where a call of `dedupe` stands: at an `await`, or done. -/
inductive DedupePhase (T E : Type)
  | waiting (lease : Nat)
  | checking (seen : Bool)
  | reading (existing : Option T)
  | running
  | marking (result : T) (written : Bool)
  | resolved (value : Option T)
  | rejected (error : DedupeError E)
deriving DecidableEq

structure DedupeCall (T E : Type) where
  uuid : JsString
  phase : DedupePhase T E

variable {T E : Type}

namespace Inbox

def create (opts : InboxStoreOptions) : Inbox T where
  store := .create opts.cache

def openLease (s : Inbox T) (uuid : JsString) : Inbox T :=
  { s with
    leases := s.leases ++ [{ uuid }]
    inflight := Function.update s.inflight uuid (some s.leases.length) }

def closeLease (s : Inbox T) (uuid : JsString) (outcome : Option (Option T)) : Inbox T :=
  { s with
    leases := match s.inflight uuid with
      | some lease => s.leases.set lease { uuid, outcome := some outcome }
      | none => s.leases
    inflight := Function.update s.inflight uuid none }

def settleLease (s : Inbox T) (uuid : JsString) (value : Option T) : Inbox T :=
  s.closeLease uuid (some value)

def failLease (s : Inbox T) (uuid : JsString) : Inbox T := s.closeLease uuid none

/-- The loop of `dedupe`, and what the leader does before its first `await`. -/
def elect (s : Inbox T) (uuid : JsString) (now : Int) : Inbox T × DedupePhase T E :=
  match s.inflight uuid with
  | some lease => (s, .waiting lease)
  | none =>
    let (seen, store) := s.store.has uuid now
    ({ s.openLease uuid with store }, .checking seen)

end Inbox

/-! ## Runs -/

/-- What one can see of an inbox. `marked` is a `markSeen` that succeeds, and `dropped` the loss of
an entry, because it is expired or because the cache is full. -/
inductive InboxEvent (T E : Type)
  | started (call : Nat) (uuid : JsString)
  | failed (call : Nat) (error : E)
  | marked (call : Nat) (uuid : JsString) (result : T)
  | unmarked (call : Nat)
  | dropped (uuid : JsString)
deriving DecidableEq

structure InboxRun (T E : Type) where
  inbox : Inbox T
  calls : List (DedupeCall T E) := []
  log : List (InboxEvent T E) := []

inductive InboxAction (T E : Type)
  | dedupe (uuid : JsString) (now : Int)
  | resume (call : Nat) (now : Int)
  | checked (call : Nat) (now : Int)
  | read (call : Nat)
  | handled (call : Nat) (result : T) (now : Int)
  | failed (call : Nat) (error : E)
  | marked (call : Nat)

/-- How a stretch of a call ends. -/
structure Stretch (T E : Type) where
  inbox : Inbox T
  phase : DedupePhase T E
  events : List (InboxEvent T E) := []
  /-- The key of an entry that was written. -/
  written : List JsString := []

namespace InboxRun

/-- The entries that a stretch has lost; one of them may be the entry that it has written. -/
def drops (s : InboxRun T E) (next : Stretch T E) : List (InboxEvent T E) :=
  (next.written.filter (fun uuid => (next.inbox.store.find? uuid).isNone) ++
    s.inbox.store.lost next.inbox.store).map .dropped

def record (s : InboxRun T E) (calls : List (DedupeCall T E)) (next : Stretch T E) :
    InboxRun T E where
  inbox := next.inbox
  calls := calls
  log := s.log ++ (next.events ++ s.drops next)

/-- The stretch of call `c` that begins in phase `phase`. -/
def stretch (frozen : T → Bool) (s : Inbox T) (c : Nat) (uuid : JsString) :
    DedupePhase T E → InboxAction T E → Option (Stretch T E)
  | .waiting lease, .resume _ now =>
    match s.leases[lease]?.bind (·.outcome) with
    | none => none
    | some (some value) => some { inbox := s, phase := .resolved value }
    | some none =>
      let (inbox, phase) := s.elect uuid now
      some { inbox, phase }
  | .checking true, .checked _ now =>
    let (existing, store) := s.store.get uuid now
    some { inbox := { s with store }, phase := .reading existing }
  | .checking false, .checked _ _ =>
    some { inbox := s, phase := .running, events := [.started c uuid] }
  | .reading existing, .read _ =>
    some { inbox := s.settleLease uuid existing, phase := .resolved existing }
  | .running, .handled _ result now =>
    match s.store.set frozen uuid result now with
    | some store =>
      some { inbox := { s with store }, phase := .marking result true,
             events := [.marked c uuid result], written := [uuid] }
    | none => some { inbox := s, phase := .marking result false, events := [.unmarked c] }
  | .running, .failed _ error =>
    some { inbox := s.failLease uuid, phase := .rejected (.handler error),
           events := [.failed c error] }
  | .marking result true, .marked _ =>
    some { inbox := s.settleLease uuid (some result), phase := .resolved (some result) }
  | .marking _ false, .marked _ =>
    some { inbox := s.failLease uuid, phase := .rejected .markSeen }
  | _, _ => none

end InboxRun

def InboxAction.call : InboxAction T E → Option Nat
  | .dedupe _ _ => none
  | .resume c _ => some c
  | .checked c _ => some c
  | .read c => some c
  | .handled c _ _ => some c
  | .failed c _ => some c
  | .marked c => some c

namespace InboxRun

def step (frozen : T → Bool) (s : InboxRun T E) : InboxAction T E → Option (InboxRun T E)
  | .dedupe uuid now =>
    let (inbox, phase) := s.inbox.elect uuid now
    some (s.record (s.calls ++ [{ uuid, phase }]) { inbox, phase })
  | a => do
    let c ← a.call
    let x ← s.calls[c]?
    let next ← stretch frozen s.inbox c x.uuid x.phase a
    some (s.record (s.calls.set c { x with phase := next.phase }) next)

end InboxRun

def inboxMachine (frozen : T → Bool) (opts : InboxStoreOptions) :
    Machine (InboxRun T E) (InboxAction T E) where
  init := { inbox := .create opts }
  step := InboxRun.step frozen

/-! ## What a stretch can do -/

/-- The call has opened the lease and not closed it yet. -/
def DedupePhase.leads : DedupePhase T E → Bool
  | .checking _ | .reading _ | .running | .marking _ _ => true
  | .waiting _ | .resolved _ | .rejected _ => false

/-- All stretches of a call of `dedupe`; a new call has no phase before. -/
inductive InboxRun.Change (frozen : T → Bool) (s : Inbox T) (c : Nat) (uuid : JsString) :
    Option (DedupePhase T E) → Stretch T E → Prop
  | join {before lease} : ¬ before.any DedupePhase.leads → s.inflight uuid = some lease →
      Change frozen s c uuid before { inbox := s, phase := .waiting lease }
  | lead {before now} : ¬ before.any DedupePhase.leads → s.inflight uuid = none →
      Change frozen s c uuid before
        { inbox := { s.openLease uuid with store := (s.store.get uuid now).2 }
          phase := .checking (s.store.get uuid now).1.isSome }
  | wake {lease value} : s.leases[lease]?.bind (·.outcome) = some (some value) →
      Change frozen s c uuid (some (.waiting lease)) { inbox := s, phase := .resolved value }
  | found {now} : Change frozen s c uuid (some (.checking true))
      { inbox := { s with store := (s.store.get uuid now).2 }
        phase := .reading (s.store.get uuid now).1 }
  | start : Change frozen s c uuid (some (.checking false))
      { inbox := s, phase := .running, events := [.started c uuid] }
  | read {existing} : Change frozen s c uuid (some (.reading existing))
      { inbox := s.settleLease uuid existing, phase := .resolved existing }
  | written {result store now} : s.store.set frozen uuid result now = some store →
      Change frozen s c uuid (some .running)
        { inbox := { s with store }, phase := .marking result true
          events := [.marked c uuid result], written := [uuid] }
  | unwritten {result} : Change frozen s c uuid (some .running)
      { inbox := s, phase := .marking result false, events := [.unmarked c] }
  | failed {error} : Change frozen s c uuid (some .running)
      { inbox := s.failLease uuid, phase := .rejected (.handler error)
        events := [.failed c error] }
  | marked {result} : Change frozen s c uuid (some (.marking result true))
      { inbox := s.settleLease uuid (some result), phase := .resolved (some result) }
  | unmarked {result} : Change frozen s c uuid (some (.marking result false))
      { inbox := s.failLease uuid, phase := .rejected .markSeen }

variable {frozen : T → Bool} {s s' : InboxRun T E} {a : InboxAction T E} {c d : Nat}
  {uuid u : JsString} {before : Option (DedupePhase T E)} {next : Stretch T E}

namespace InboxRun

theorem change_elect {inbox : Inbox T} (now : Int) (h : ¬ before.any DedupePhase.leads) :
    Change frozen inbox c uuid before
      { inbox := (inbox.elect uuid now : Inbox T × DedupePhase T E).1
        phase := (inbox.elect uuid now).2 } := by
  unfold Inbox.elect
  split
  next lease hlease => exact .join h hlease
  next hlease => exact .lead h hlease

theorem change_stretch {inbox : Inbox T} {phase : DedupePhase T E}
    (h : stretch frozen inbox c uuid phase a = some next) :
    Change frozen inbox c uuid (some phase) next := by
  unfold stretch at h
  split at h
  next lease _ now =>
    split at h
    · cases h
    next value houtcome =>
      cases h
      exact .wake houtcome
    next houtcome =>
      cases h
      exact change_elect now Bool.false_ne_true
  · cases h
    exact .found
  · cases h
    exact .start
  · cases h
    exact .read
  next result now =>
    split at h
    next store hset =>
      cases h
      exact .written hset
    · cases h
      exact .unwritten
  · cases h
    exact .failed
  · cases h
    exact .marked
  · cases h
    exact .unmarked
  · cases h

/-- The call `c` goes on by one stretch, and the other calls stay as they are. -/
structure Next (frozen : T → Bool) (s s' : InboxRun T E) (c : Nat) (uuid : JsString)
    (before : Option (DedupePhase T E)) (next : Stretch T E) : Prop where
  change : Change frozen s.inbox c uuid before next
  old : s.calls[c]? = before.map fun phase => { uuid, phase }
  new : s'.calls[c]? = some { uuid, phase := next.phase }
  others : ∀ d ≠ c, s'.calls[d]? = s.calls[d]?
  inbox : s'.inbox = next.inbox
  log : s'.log = s.log ++ (next.events ++ s.drops next)

theorem step_next (h : s.step frozen a = some s') :
    ∃ c uuid before next, Next frozen s s' c uuid before next := by
  have hgo {c : Nat} (h : (do
      let x ← s.calls[c]?
      let next ← stretch frozen s.inbox c x.uuid x.phase a
      some (s.record (s.calls.set c { x with phase := next.phase }) next)) = some s') :
      ∃ c uuid before next, Next frozen s s' c uuid before next := by
    obtain ⟨x, hx, h⟩ := Option.bind_eq_some_iff.mp h
    obtain ⟨next, hnext, h⟩ := Option.bind_eq_some_iff.mp h
    cases h
    have hc : c < s.calls.length := (List.getElem?_eq_some_iff.mp hx).1
    refine ⟨c, x.uuid, some x.phase, next, change_stretch hnext, hx, ?_, fun d hd => ?_, rfl, rfl⟩
    · exact getElem?_set_self hc
    · exact getElem?_set_ne (Ne.symm hd)
  cases a with
  | dedupe uuid now =>
    cases h
    refine ⟨s.calls.length, uuid, none, _, change_elect now Bool.false_ne_true, ?_, ?_, ?_, rfl,
      rfl⟩
    · exact getElem?_eq_none le_rfl
    · exact getElem?_concat_length
    · exact fun d hd => Trace.getElem?_snoc_ne hd
  | resume c now | checked c now | read c | handled c result now | failed c error | marked c =>
    exact hgo h

theorem Next.call_cases (h : Next frozen s s' c uuid before next) {d : Nat} {x : DedupeCall T E}
    (hx : s'.calls[d]? = some x) :
    d ≠ c ∧ s.calls[d]? = some x ∨ d = c ∧ x = { uuid, phase := next.phase } := by
  by_cases hd : d = c
  · rw [hd, h.new] at hx
    exact .inr ⟨hd, (Option.some.inj hx).symm⟩
  · rw [h.others d hd] at hx
    exact .inl ⟨hd, hx⟩

/-! ## One leader -/

end InboxRun

/-- The lease `l` was opened for the uuid. -/
def Inbox.IsLease (s : Inbox T) (l : Nat) (uuid : JsString) : Prop :=
  ∃ lease, s.leases[l]? = some lease ∧ lease.uuid = uuid

namespace InboxRun

def Leads (s : InboxRun T E) (c : Nat) (uuid : JsString) : Prop :=
  ∃ x, s.calls[c]? = some x ∧ x.uuid = uuid ∧ x.phase.leads

/-- A call that is rejected, or will be, has the failure in the log. -/
def Blamed (s : InboxRun T E) (c : Nat) : DedupePhase T E → Prop
  | .rejected (.handler error) => .failed c error ∈ s.log
  | .rejected .markSeen => .unmarked c ∈ s.log
  | .marking _ false => .unmarked c ∈ s.log
  | _ => True

/-- What holds whatever the cache drops. -/
structure Wired (s : InboxRun T E) : Prop where
  enabled : s.inbox.store.enabled
  leaders : Election.Sound s.inbox.inflight s.Leads
  lease : ∀ u l, s.inbox.inflight u = some l → s.inbox.IsLease l u
  waits : ∀ (c : Nat) (x : DedupeCall T E) (l : Nat), s.calls[c]? = some x →
    x.phase = .waiting l → s.inbox.IsLease l x.uuid
  blamed : ∀ (c : Nat) (x : DedupeCall T E), s.calls[c]? = some x → s.Blamed c x.phase

theorem Next.mem_log (h : Next frozen s s' c uuid before next) {e : InboxEvent T E}
    (he : e ∈ s.log ∨ e ∈ next.events) : e ∈ s'.log := by
  rw [h.log]
  rcases he with hold | hnew
  · exact mem_append_left _ hold
  · exact mem_append_right _ (mem_append_left _ hnew)

theorem Next.blamed_mono (h : Next frozen s s' c uuid before next) {d : Nat}
    {phase : DedupePhase T E} (hp : s.Blamed d phase) : s'.Blamed d phase := by
  unfold Blamed at hp ⊢
  split at hp
  · exact h.mem_log (.inl hp)
  · exact h.mem_log (.inl hp)
  · exact h.mem_log (.inl hp)
  · trivial

theorem Next.of_leads (h : Next frozen s s' c uuid before next) {k : JsString}
    (hl : s'.Leads c k) : k = uuid ∧ next.phase.leads := by
  obtain ⟨x, hx, rfl, hxl⟩ := hl
  rw [h.new] at hx
  cases hx
  exact ⟨rfl, hxl⟩

theorem Next.leads_before (h : Next frozen s s' c uuid before next)
    (hb : before.any DedupePhase.leads) : s.Leads c uuid := by
  obtain ⟨phase, rfl, hphase⟩ := (Option.any_eq_true _ _).mp hb
  exact ⟨_, h.old, rfl, hphase⟩

theorem Next.leads_other (h : Next frozen s s' c uuid before next) {d : Nat} (hd : d ≠ c)
    {k : JsString} (hl : s'.Leads d k) : s.Leads d k := by
  obtain ⟨x, hx, hrest⟩ := hl
  exact ⟨x, (h.others d hd).symm.trans hx, hrest⟩

end InboxRun

namespace Inbox

variable {s : Inbox T} {outcome : Option (Option T)}

theorem inflight_closeLease_ne (h : u ≠ uuid) :
    (s.closeLease uuid outcome).inflight u = s.inflight u := Function.update_of_ne h _ _

theorem inflight_openLease_ne (h : u ≠ uuid) : (s.openLease uuid).inflight u = s.inflight u :=
  Function.update_of_ne h _ _

theorem inflight_openLease_self : (s.openLease uuid).inflight uuid = some s.leases.length :=
  Function.update_self _ _ _

theorem IsLease.closeLease {l : Nat}
    (hlease : ∀ l', s.inflight uuid = some l' → s.IsLease l' uuid) (h : s.IsLease l u) :
    (s.closeLease uuid outcome).IsLease l u := by
  obtain ⟨lease, hl, rfl⟩ := h
  unfold IsLease Inbox.closeLease
  dsimp only
  split
  next l' hl' =>
    obtain ⟨x, hx, rfl⟩ := hlease l' hl'
    by_cases heq : l' = l
    · subst heq
      rw [hl] at hx
      cases hx
      exact ⟨_, List.getElem?_set_self (List.getElem?_eq_some_iff.mp hl).1, rfl⟩
    · exact ⟨lease, (getElem?_set_ne heq).trans hl, rfl⟩
  · exact ⟨lease, hl, rfl⟩

theorem IsLease.openLease {l : Nat} (h : s.IsLease l u) : (s.openLease uuid).IsLease l u := by
  obtain ⟨lease, hl, rfl⟩ := h
  refine ⟨lease, ?_, rfl⟩
  show (s.leases ++ _)[l]? = _
  rw [List.getElem?_append_left (List.getElem?_eq_some_iff.mp hl).1, hl]

end Inbox

namespace InboxRun

theorem Change.turn (h : Change frozen s.inbox c uuid before next)
    (hlease : before.any DedupePhase.leads → (s.inbox.inflight uuid).isSome) :
    Election.Turn s.inbox.inflight next.inbox.inflight uuid (before.any DedupePhase.leads)
      next.phase.leads := by
  cases h with
  | join _ _ | wake _ => exact .idle Bool.false_ne_true
  | lead _ hnone =>
    refine .opens (fun k hk => Inbox.inflight_openLease_ne hk) hnone ?_
    show ((s.inbox.openLease uuid).inflight uuid).isSome
    rw [Inbox.inflight_openLease_self]
    rfl
  | found | start | written _ | unwritten => exact .same (hlease rfl)
  | read | failed | marked | unmarked =>
    exact .done (fun k hk => Inbox.inflight_closeLease_ne hk) Bool.false_ne_true

theorem Change.leases (h : Change frozen s.inbox c uuid before next) (hwired : s.Wired) :
    (∀ l u, s.inbox.IsLease l u → next.inbox.IsLease l u) ∧
    ∀ u l, next.inbox.inflight u = some l → next.inbox.IsLease l u := by
  have hclosed (outcome : Option (Option T)) :
      (∀ l u, s.inbox.IsLease l u → (s.inbox.closeLease uuid outcome).IsLease l u) ∧
      ∀ u l, (s.inbox.closeLease uuid outcome).inflight u = some l →
        (s.inbox.closeLease uuid outcome).IsLease l u := by
    refine ⟨fun l u h => h.closeLease (hwired.lease uuid), fun u l h => ?_⟩
    by_cases hu : u = uuid
    · subst hu
      have hnone : (s.inbox.closeLease u outcome).inflight u = none := Function.update_self _ _ _
      cases hnone.symm.trans h
    · rw [Inbox.inflight_closeLease_ne hu] at h
      exact (hwired.lease u l h).closeLease (hwired.lease uuid)
  cases h with
  | lead _ _ =>
    refine ⟨fun l u h => h.openLease, fun u l h => ?_⟩
    change (s.inbox.openLease uuid).inflight u = some l at h
    by_cases hu : u = uuid
    · subst hu
      rw [Inbox.inflight_openLease_self] at h
      cases h
      exact ⟨_, getElem?_concat_length, rfl⟩
    · rw [Inbox.inflight_openLease_ne hu] at h
      exact (hwired.lease u l h).openLease
  | join _ _ | wake _ | found | start | written _ | unwritten =>
    exact ⟨fun l u h => h, hwired.lease⟩
  | read | failed | marked | unmarked => exact hclosed _

theorem Change.enabled (h : Change frozen s.inbox c uuid before next) :
    next.inbox.store.enabled = s.inbox.store.enabled := by
  cases h with
  | lead _ _ | found => exact LruIdempotencyCache.enabled_get
  | written hset => exact LruIdempotencyCache.enabled_set hset
  | join _ _ | wake _ | start | read | unwritten | failed | marked | unmarked => rfl

theorem Change.waiting {l : Nat} (h : Change frozen s.inbox c uuid before next)
    (hphase : next.phase = .waiting l) : next.inbox = s.inbox ∧ s.inbox.inflight uuid = some l := by
  cases h with
  | join _ hlease =>
    cases hphase
    exact ⟨rfl, hlease⟩
  | _ => cases hphase

theorem Wired.goOn (h : s.Wired) (hn : Next frozen s s' c uuid before next) : s'.Wired := by
  have hlease : before.any DedupePhase.leads → (s.inbox.inflight uuid).isSome :=
    fun hb => h.leaders.lease c uuid (hn.leads_before hb)
  obtain ⟨hstay, hopen⟩ := hn.change.leases h
  have hinbox := hn.inbox
  refine ⟨?_, ?_, ?_, fun d x l hx hphase => ?_, fun d x hx => ?_⟩
  · rw [hinbox, hn.change.enabled]
    exact h.enabled
  · rw [hinbox]
    exact h.leaders.turn (hn.change.turn hlease) (fun d hd k => hn.leads_other hd)
      (fun k => hn.of_leads) hn.leads_before
  · rw [hinbox]
    exact hopen
  · rw [hinbox]
    rcases hn.call_cases hx with ⟨-, hx⟩ | ⟨-, rfl⟩
    · exact hstay l x.uuid (h.waits d x l hx hphase)
    · obtain ⟨hsame, hlease⟩ := hn.change.waiting hphase
      rw [hsame]
      exact h.lease uuid l hlease
  · rcases hn.call_cases hx with ⟨-, hx⟩ | ⟨rfl, rfl⟩
    · exact hn.blamed_mono (h.blamed d x hx)
    · have hchange := hn.change
      cases hchange with
      | unwritten | failed => exact hn.mem_log (.inr (mem_singleton.mpr rfl))
      | unmarked => exact hn.mem_log (.inl (h.blamed d _ hn.old))
      | _ => trivial

/-! ## One result -/

/-- Some `markSeen` of this result has succeeded. -/
def Marked (s : InboxRun T E) (uuid : JsString) (result : T) : Prop :=
  ∃ c, .marked c uuid result ∈ s.log

/-- The value is such a result, and not `undefined` for want of an entry. -/
def IsResult (s : InboxRun T E) (uuid : JsString) (value : Option T) : Prop :=
  ∃ result, value = some result ∧ s.Marked uuid result

/-- What a call has got from the store or from a promise. -/
def Backed (s : InboxRun T E) (uuid : JsString) : DedupePhase T E → Prop
  | .checking seen => seen → ∃ result, s.Marked uuid result
  | .reading existing => s.IsResult uuid existing
  | .marking result written => written → s.Marked uuid result
  | .resolved value => s.IsResult uuid value
  | .waiting _ | .running | .rejected _ => True

end InboxRun

/-- The call runs its handler, or is about to. -/
def DedupePhase.fresh : DedupePhase T E → Bool
  | .checking false | .running => true
  | _ => false

theorem DedupePhase.leads_of_fresh {phase : DedupePhase T E} (h : phase.fresh) : phase.leads := by
  cases phase with
  | checking _ | running => rfl
  | _ => cases h

namespace InboxRun

/-- After a `markSeen` no handler of the uuid starts, and no `markSeen` succeeds. -/
def Spent (uuid : JsString) (past : List (InboxEvent T E)) (e : InboxEvent T E) : Prop :=
  ∀ d, (e = .started d uuid ∨ ∃ w, e = .marked d uuid w) → ∀ c v, .marked c uuid v ∉ past

/-- What holds of a uuid as long as its entry is not dropped. -/
structure Once (uuid : JsString) (s : InboxRun T E) : Prop where
  entry : ∀ n, s.inbox.store.find? uuid = some n → s.Marked uuid n.value
  promise : ∀ (l : Nat) (lease : InboxLease T) (value : Option T), s.inbox.leases[l]? = some lease →
    lease.uuid = uuid → lease.outcome = some (some value) → s.IsResult uuid value
  call : ∀ (c : Nat) (x : DedupeCall T E), s.calls[c]? = some x → x.uuid = uuid →
    s.Backed uuid x.phase
  kept : ∀ result, s.Marked uuid result → (s.inbox.store.find? uuid).isSome
  idle : ∀ result, s.Marked uuid result → ∀ (c : Nat) (x : DedupeCall T E),
    s.calls[c]? = some x → x.uuid = uuid → ¬ x.phase.fresh
  order : Trace.Lawful (Spent uuid) s.log

/-! ### The parts of a stretch -/

theorem Change.markedEvent {v : T} (h : Change frozen s.inbox c uuid before next)
    (he : .marked d u v ∈ next.events) :
    u = uuid ∧ before = some .running ∧ next.phase = .marking v true ∧ next.written = [uuid] := by
  cases h with
  | written _ =>
    cases mem_singleton.mp he
    exact ⟨rfl, rfl, rfl, rfl⟩
  | start | unwritten | failed => cases mem_singleton.mp he
  | _ => cases he

theorem Change.entries {n : CacheNode T} (h : Change frozen s.inbox c uuid before next)
    (hn : next.inbox.store.find? u = some n) :
    s.inbox.store.find? u = some n ∨ .marked c u n.value ∈ next.events := by
  cases h with
  | lead _ _ | found => exact .inl (LruIdempotencyCache.of_find?_get hn)
  | written hset =>
    rcases LruIdempotencyCache.of_find?_set hset hn with ⟨rfl, rfl⟩ | hold
    · exact .inr (mem_singleton.mpr rfl)
    · exact .inl hold
  | join _ _ | wake _ | start | read | unwritten | failed | marked | unmarked => exact .inl hn

end InboxRun

theorem Inbox.outcome_closeLease {s : Inbox T} {uuid : JsString} {outcome : Option (Option T)}
    {l : Nat} {lease : InboxLease T} (h : (s.closeLease uuid outcome).leases[l]? = some lease) :
    s.leases[l]? = some lease ∨ lease = { uuid, outcome := some outcome } := by
  unfold closeLease at h
  dsimp only at h
  split at h
  next l' _ =>
    by_cases heq : l' = l
    · subst heq
      have hl := (List.getElem?_eq_some_iff.mp h).1
      rw [length_set] at hl
      rw [getElem?_set_self hl] at h
      exact .inr (Option.some.inj h).symm
    · rw [getElem?_set_ne heq] at h
      exact .inl h
  · exact .inl h

namespace InboxRun

theorem Change.promises {l : Nat} {lease : InboxLease T} {value : Option T}
    (h : Change frozen s.inbox c uuid before next) (hl : next.inbox.leases[l]? = some lease)
    (hvalue : lease.outcome = some (some value)) :
    s.inbox.leases[l]? = some lease ∨
      lease.uuid = uuid ∧ (before = some (.reading value) ∨
        ∃ result, before = some (.marking result true) ∧ value = some result) := by
  cases h with
  | lead _ _ =>
    change (s.inbox.leases ++ [({ uuid := uuid } : InboxLease T)])[l]? = some lease at hl
    by_cases heq : l = s.inbox.leases.length
    · rw [heq, getElem?_concat_length] at hl
      cases hl
      cases hvalue
    · rw [Trace.getElem?_snoc_ne heq] at hl
      exact .inl hl
  | read =>
    rcases Inbox.outcome_closeLease hl with hold | rfl
    · exact .inl hold
    · cases hvalue
      exact .inr ⟨rfl, .inl rfl⟩
  | marked =>
    rcases Inbox.outcome_closeLease hl with hold | rfl
    · exact .inl hold
    · cases hvalue
      exact .inr ⟨rfl, .inr ⟨_, rfl, rfl⟩⟩
  | failed | unmarked =>
    rcases Inbox.outcome_closeLease hl with hold | rfl
    · exact .inl hold
    · cases hvalue
  | join _ _ | wake _ | found | start | written _ | unwritten => exact .inl hl

/-! ### A stretch as a whole -/

namespace Next

variable (h : Next frozen s s' c uuid before next)

include h

theorem marked_mono {v : T} (hm : s.Marked u v) : s'.Marked u v := by
  obtain ⟨d, hd⟩ := hm
  exact ⟨d, h.mem_log (.inl hd)⟩

theorem isResult_mono {v : Option T} (hv : s.IsResult u v) : s'.IsResult u v := by
  obtain ⟨result, rfl, hm⟩ := hv
  exact ⟨result, rfl, h.marked_mono hm⟩

theorem backed_mono {phase : DedupePhase T E} (hp : s.Backed u phase) : s'.Backed u phase := by
  cases phase with
  | checking seen =>
    intro hseen
    obtain ⟨v, hv⟩ := hp hseen
    exact ⟨v, h.marked_mono hv⟩
  | reading existing | resolved value => exact h.isResult_mono hp
  | marking result written => exact fun hw => h.marked_mono (hp hw)
  | waiting _ | running | rejected _ => trivial

theorem marked_of_event {v : T} (he : .marked c u v ∈ next.events) : s'.Marked u v :=
  ⟨c, h.mem_log (.inr he)⟩

theorem marked_cases {v : T} (hm : s'.Marked u v) :
    s.Marked u v ∨ ∃ d, .marked d u v ∈ next.events := by
  obtain ⟨d, hd⟩ := hm
  rw [h.log, mem_append, mem_append] at hd
  rcases hd with hold | hevent | hdrop
  · exact .inl ⟨d, hold⟩
  · exact .inr ⟨d, hevent⟩
  · obtain ⟨k, -, hk⟩ := mem_map.mp hdrop
    cases hk

theorem not_dropped (hdrop : .dropped u ∉ s'.log) : .dropped u ∉ s.drops next := by
  rw [h.log] at hdrop
  exact fun hmem => hdrop (mem_append_right _ (mem_append_right _ hmem))

theorem stays (hdrop : .dropped u ∉ s'.log)
    (hentry : (s.inbox.store.find? u).isSome ∨ u ∈ next.written) :
    (next.inbox.store.find? u).isSome := by
  by_contra hnone
  refine h.not_dropped hdrop (mem_map.mpr ⟨u, mem_append.mpr ?_, rfl⟩)
  rcases hentry with hold | hnew
  · exact .inr ((LruIdempotencyCache.mem_lost hold).resolve_left hnone)
  · exact .inl (mem_filter.mpr ⟨hnew, by simpa using hnone⟩)

end Next

/-- What the call has got, given that the inbox is as it should be. -/
theorem Once.backed (h : s.Once uuid) (hwired : s.Wired)
    (hn : Next frozen s s' c uuid before next) (hdrop : .dropped uuid ∉ s'.log) :
    s'.Backed uuid next.phase := by
  have hget {now : Int} {v : T} (hv : (s.inbox.store.get uuid now).1 = some v) :
      s'.Marked uuid v := by
    obtain ⟨n, hfind, rfl⟩ := LruIdempotencyCache.value_of_get hv
    exact hn.marked_mono (h.entry n hfind)
  have hstays := hn.stays hdrop
  have hchange := hn.change
  cases hchange with
  | join _ _ | start | failed | unmarked => trivial
  | lead _ _ =>
    intro hseen
    obtain ⟨v, hv⟩ := Option.isSome_iff_exists.mp hseen
    exact ⟨v, hget hv⟩
  | @wake lease value hvalue =>
    obtain ⟨x, hx, hvalue⟩ := Option.bind_eq_some_iff.mp hvalue
    obtain ⟨y, hy, huuid⟩ := hwired.waits c _ lease hn.old rfl
    rw [hx] at hy
    cases hy
    exact hn.isResult_mono (h.promise lease x value hx huuid hvalue)
  | @found now =>
    -- the entry was there when `hasSeen` was called, and it has not been dropped since
    obtain ⟨result, hresult⟩ := h.call c _ hn.old rfl rfl
    have hsome := LruIdempotencyCache.isSome_get hwired.enabled
      (hstays (.inl (h.kept result hresult)))
    obtain ⟨v, hv⟩ := Option.isSome_iff_exists.mp hsome
    exact ⟨v, hv, hget hv⟩
  | read => exact hn.isResult_mono (h.call c _ hn.old rfl)
  | written _ => exact fun _ => hn.marked_of_event (mem_singleton.mpr rfl)
  | unwritten => exact fun hw => absurd hw Bool.false_ne_true
  | marked => exact ⟨_, rfl, hn.marked_mono (h.call c _ hn.old rfl rfl)⟩

theorem Once.not_fresh (h : s.Once uuid) (hwired : s.Wired)
    (hn : Next frozen s s' c uuid before next) (hdrop : .dropped uuid ∉ s'.log) {v : T}
    (hv : s.Marked uuid v) : ¬ next.phase.fresh := by
  have hstays := hn.stays hdrop (.inl (h.kept v hv))
  have hchange := hn.change
  cases hchange with
  | @lead _ now _ _ =>
    have hseen : (s.inbox.store.get uuid now).1.isSome :=
      LruIdempotencyCache.isSome_get hwired.enabled hstays
    show ¬ (DedupePhase.checking (s.inbox.store.get uuid now).1.isSome).fresh
    rw [hseen]
    exact Bool.false_ne_true
  | start => exact absurd rfl (h.idle v hv c _ hn.old rfl)
  | _ => exact Bool.false_ne_true

theorem Wired.sole_fresh (h : s.Wired) (hn : Next frozen s s' c uuid before next)
    (hbefore : before = some .running) (hd : d ≠ c) {x : DedupeCall T E}
    (hx : s.calls[d]? = some x) (huuid : x.uuid = uuid) : ¬ x.phase.fresh := by
  intro hfresh
  refine hd (h.leaders.sole d c uuid ⟨x, hx, huuid, DedupePhase.leads_of_fresh hfresh⟩ ?_)
  exact hn.leads_before (by rw [hbefore]; rfl)

theorem Once.order_next (h : s.Once u) (hn : Next frozen s s' c uuid before next) :
    Trace.Lawful (Spent u) s'.log := by
  have hstretch : Trace.Lawful (Spent u) (s.log ++ next.events) := by
    have hchange := hn.change
    cases hchange with
    | start | written _ =>
      refine h.order.snoc fun d he b v hb => ?_
      rcases he with he | ⟨w, he⟩ <;> cases he
      exact h.idle v ⟨b, hb⟩ c _ hn.old rfl rfl
    | unwritten | failed =>
      refine h.order.snoc fun d he => ?_
      rcases he with he | ⟨w, he⟩ <;> cases he
    | _ =>
      rw [append_nil]
      exact h.order
  rw [hn.log, ← append_assoc]
  refine hstretch.append_free fun e he past d hd => ?_
  obtain ⟨k, -, rfl⟩ := mem_map.mp he
  rcases hd with hd | ⟨w, hd⟩ <;> cases hd

theorem Once.goOn (h : s.Once u) (hwired : s.Wired) (hn : Next frozen s s' c uuid before next)
    (hdrop : .dropped u ∉ s'.log) : s'.Once u := by
  refine ⟨fun n hfind => ?_, fun l lease value hl hu hvalue => ?_, fun d x hx hu => ?_,
    fun v hv => ?_, fun v hv d x hx hu => ?_, h.order_next hn⟩
  · rw [hn.inbox] at hfind
    rcases hn.change.entries hfind with hold | hnew
    · exact hn.marked_mono (h.entry n hold)
    · exact hn.marked_of_event hnew
  · rw [hn.inbox] at hl
    rcases hn.change.promises hl hvalue with hold | ⟨hlease, hbefore⟩
    · exact hn.isResult_mono (h.promise l lease value hold hu hvalue)
    · obtain rfl : uuid = u := hlease.symm.trans hu
      rcases hbefore with rfl | ⟨result, rfl, rfl⟩
      · exact hn.isResult_mono (h.call c _ hn.old rfl)
      · exact ⟨result, rfl, hn.marked_mono (h.call c _ hn.old rfl rfl)⟩
  · rcases hn.call_cases hx with ⟨-, hx⟩ | ⟨-, rfl⟩
    · exact hn.backed_mono (h.call d x hx hu)
    · cases hu
      exact h.backed hwired hn hdrop
  · rw [hn.inbox]
    rcases hn.marked_cases hv with hold | ⟨b, hnew⟩
    · exact hn.stays hdrop (.inl (h.kept v hold))
    · obtain ⟨rfl, -, -, hwritten⟩ := hn.change.markedEvent hnew
      exact hn.stays hdrop (.inr (hwritten ▸ mem_singleton.mpr rfl))
  · rcases hn.marked_cases hv with hold | ⟨b, hnew⟩
    · rcases hn.call_cases hx with ⟨-, hx⟩ | ⟨-, rfl⟩
      · exact h.idle v hold d x hx hu
      · cases hu
        exact h.not_fresh hwired hn hdrop hold
    · obtain ⟨rfl, hbefore, hphase, -⟩ := hn.change.markedEvent hnew
      rcases hn.call_cases hx with ⟨hd, hx⟩ | ⟨-, rfl⟩
      · exact hwired.sole_fresh hn hbefore hd hx hu
      · rw [hphase]
        exact Bool.false_ne_true

/-! ## All runs -/

variable {opts : InboxStoreOptions}

theorem wired_reach (h : (inboxMachine frozen opts).Reach Machine.free s) : s.Wired := by
  refine h.invariant ?_ ?_
  · refine ⟨rfl, ⟨?_, ?_⟩, fun u l hl => absurd hl nofun, fun c x l hx => absurd hx nofun,
      fun c x hx => absurd hx nofun⟩
    · rintro c u ⟨x, hx, -⟩
      exact absurd hx nofun
    · rintro c d u ⟨x, hx, -⟩
      exact absurd hx nofun
  · rintro s s' a - hwired - hstep
    obtain ⟨c, uuid, before, next, hn⟩ := step_next hstep
    exact hwired.goOn hn

theorem once_reach (h : (inboxMachine frozen opts).Reach Machine.free s)
    (hdrop : .dropped u ∉ s.log) : s.Once u := by
  revert hdrop
  refine h.invariant ?_ ?_
  · have hempty (v : T) (hv : Marked (inboxMachine (E := E) frozen opts).init u v) : False := by
      obtain ⟨c, hc⟩ := hv
      cases hc
    refine fun _ => ⟨fun n hn => absurd hn nofun, fun l lease v hl => absurd hl nofun,
      fun c x hx => absurd hx nofun, fun v hv => (hempty v hv).elim,
      fun v hv => (hempty v hv).elim, Trace.lawful_nil⟩
  · rintro s s' a hreach honce - hstep hdrop
    obtain ⟨c, uuid, before, next, hn⟩ := step_next hstep
    exact (honce fun hmem => hdrop (hn.mem_log (.inl hmem))).goOn (wired_reach hreach) hn hdrop

end InboxRun

/-- In every run, for every uuid whose entry was not dropped: at most one `markSeen` succeeds, no
two handlers run at once, none starts after the `markSeen`, and every call that resolves returns the
result that was marked; and a call that is rejected has its own handler or its own `markSeen` to
blame. -/
theorem handled_once (frozen : T → Bool) (opts : InboxStoreOptions) (s : InboxRun T E)
    (h : (inboxMachine frozen opts).Reach Machine.free s) (uuid : JsString)
    (hkept : .dropped uuid ∉ s.log) :
    (∀ pre mid post c d v w,
      s.log ≠ pre ++ .marked c uuid v :: (mid ++ .marked d uuid w :: post)) ∧
    (∀ (c d : Nat) (x y : DedupeCall T E), s.calls[c]? = some x → s.calls[d]? = some y →
      x.uuid = uuid → y.uuid = uuid → x.phase = .running → y.phase = .running → c = d) ∧
    (∀ pre post c v, s.log = pre ++ .marked c uuid v :: post → ∀ d, .started d uuid ∉ post) ∧
    ∀ (c : Nat) (x : DedupeCall T E), s.calls[c]? = some x → x.uuid = uuid →
      (∀ value, x.phase = .resolved value →
        ∃ d result, .marked d uuid result ∈ s.log ∧ value = some result) ∧
      (∀ error, x.phase = .rejected (.handler error) → .failed c error ∈ s.log) ∧
      (x.phase = .rejected .markSeen → .unmarked c ∈ s.log) := by
  have honce := InboxRun.once_reach h hkept
  refine ⟨fun pre mid post c d v w hlog => ?_, fun c d x y hx hy hxu hyu hxr hyr => ?_,
    fun pre post c v hlog d hmem => ?_, fun c x hx hu => ⟨fun value hphase => ?_, ?_, ?_⟩⟩
  · have hspent := honce.order (pre ++ InboxEvent.marked c uuid v :: mid) (.marked d uuid w) post
      (by rw [hlog, append_assoc, cons_append])
    exact hspent d (.inr ⟨w, rfl⟩) c v (mem_append_right pre mem_cons_self)
  · refine (InboxRun.wired_reach h).leaders.sole c d uuid ⟨x, hx, hxu, ?_⟩ ⟨y, hy, hyu, ?_⟩
    · rw [hxr]
      rfl
    · rw [hyr]
      rfl
  · obtain ⟨mid, post, rfl⟩ := append_of_mem hmem
    have hspent := honce.order (pre ++ InboxEvent.marked c uuid v :: mid) (.started d uuid) post
      (by rw [hlog, append_assoc, cons_append])
    exact hspent d (.inl rfl) c v (mem_append_right pre mem_cons_self)
  · have hbacked := honce.call c x hx hu
    rw [hphase] at hbacked
    obtain ⟨result, hvalue, d, hd⟩ := hbacked
    exact ⟨d, result, hd, hvalue⟩
  · intro error hphase
    have hblamed := (InboxRun.wired_reach h).blamed c x hx
    rwa [hphase] at hblamed
  · intro hphase
    have hblamed := (InboxRun.wired_reach h).blamed c x hx
    rwa [hphase] at hblamed

/-- Three calls of one uuid. The first handler fails, the second call takes the lead, and the third
one waits for it; a fourth call comes later. -/
def fourCalls : List (InboxAction Nat Nat) :=
  [.dedupe (.lit "u") 0, .dedupe (.lit "u") 0, .dedupe (.lit "u") 0, .checked 0 1, .failed 0 13,
    .resume 1 2, .resume 2 2, .checked 1 3, .handled 1 7 4, .marked 1, .resume 2 5,
    .dedupe (.lit "u") 6, .checked 3 7, .read 3]

theorem handled_once_four : ∃ s : InboxRun Nat Nat,
    (inboxMachine (fun _ => false) {}).Reach Machine.free s ∧
      s.calls.map (·.phase) =
        [.rejected (.handler 13), .resolved (some 7), .resolved (some 7), .resolved (some 7)] ∧
      (∀ pre mid post c d v w,
        s.log ≠ pre ++ .marked c (.lit "u") v :: (mid ++ .marked d (.lit "u") w :: post)) ∧
      ∀ x, s.calls[3]? = some x → x.uuid = .lit "u" → ∀ value, x.phase = .resolved value →
        ∃ d result, .marked d (.lit "u") result ∈ s.log ∧ value = some result := by
  obtain ⟨s, hs, hobs⟩ := Machine.Reach.observe (inboxMachine (fun _ => false) {}) Machine.free
    fourCalls (fun s => (s.calls.map (·.phase), decide (.dropped (.lit "u") ∈ s.log)))
    ([.rejected (.handler 13), .resolved (some 7), .resolved (some 7), .resolved (some 7)], false)
    (by decide +kernel)
  obtain ⟨hphases, hdropped⟩ := Prod.mk.inj hobs
  obtain ⟨hsingle, -, -, hcalls⟩ :=
    handled_once (fun _ => false) {} s hs (.lit "u") (of_decide_eq_false hdropped)
  exact ⟨s, hs, hphases, hsingle, fun x hx hu => (hcalls 3 x hx hu).1⟩

end NevoMessaging
