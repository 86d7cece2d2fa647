import NevoMessaging.Idempotency.Cache
import NevoMessaging.Lib.Trace

/-!
# TwoTierIdempotency

`begin` is an async function: it runs to its next `await`, and what it waits for decides how it goes
on. Each stretch between two awaits is a definition of its own, with the same state of the runtime
for all callers; `BeginPhase` says where a call stands.

`Touch` and `Stretch` say what an operation can do to the runtime, and `Did` what a step is made of.

A `Replica` is one runtime with the calls of `begin` that were made on it. What the distributed
store answers and when is part of the actions.
-/

namespace NevoMessaging

variable {T : Type}

/-- The response and the fingerprint of the payload it has answered. -/
structure IdempotencyEnvelope (T : Type) where
  f : Option JsString := none
  v : T
deriving DecidableEq

def idempotencyEnvelope (value : T) (fingerprint : Option JsString) : IdempotencyEnvelope T :=
  { f := fingerprint, v := value }

inductive IdempotencyBegin (T : Type)
  | hit (value : T)
  | conflict
  | execute
deriving DecidableEq

structure IdempotencyClaim (T : Type) where
  acquired : Bool
  existing : Option (IdempotencyEnvelope T) := none

/-- Which optional operations a distributed store has. -/
structure IdempotencyStoreShape where
  claim : Bool := true
  awaitResult : Bool := true
  delete : Bool := true

def fingerprintConflicts (stored incoming : Option JsString) : Bool :=
  match stored, incoming with
  | some f, some g => f ≠ g
  | _, _ => false

/-- The closure `settle` of `begin`. -/
def settle (entry : IdempotencyEnvelope T) (fingerprint : Option JsString) : IdempotencyBegin T :=
  if fingerprintConflicts entry.f fingerprint then .conflict else .hit entry.v

theorem settle_ne_execute (entry : IdempotencyEnvelope T) (fingerprint : Option JsString) :
    settle entry fingerprint ≠ .execute := by
  unfold settle
  split <;> exact nofun

/-- The promise of a leader for one key. It is resolved with an entry, or rejected (`some none`). -/
structure Lease (T : Type) where
  key : JsString
  outcome : Option (Option (IdempotencyEnvelope T)) := none

structure TwoTierIdempotency (T : Type) where
  l1 : LruIdempotencyCache (IdempotencyEnvelope T)
  /-- The shape of the store, if there is one and it is enabled. -/
  distributed : Option IdempotencyStoreShape
  inflight : JsString → Option Nat := fun _ => none
  leaders : JsString → Option Nat := fun _ => none
  leases : List (Lease T) := []

/-- Where a call of `begin` stands: it awaits the leader, or the store, or it is over. -/
inductive BeginPhase (T : Type)
  | waiting (lease : Nat)
  | claiming
  | polling
  | reading
  | returned (result : IdempotencyBegin T)
  | thrown

namespace TwoTierIdempotency

def create (l1Options : IdempotencyOptions) (distributed : Option IdempotencyStoreShape) :
    TwoTierIdempotency T :=
  { l1 := .create l1Options, distributed }

def isEnabled (t : TwoTierIdempotency T) : Bool := t.l1.enabled || t.distributed.isSome

def openLease (t : TwoTierIdempotency T) (key : JsString) : TwoTierIdempotency T :=
  { t with
    inflight := Function.update t.inflight key (some t.leases.length)
    leaders := Function.update t.leaders key (some t.leases.length)
    leases := t.leases ++ [{ key }] }

/-- `settleLease` and `failLease`. -/
def closeLease (t : TwoTierIdempotency T) (key : JsString)
    (outcome : Option (IdempotencyEnvelope T)) : TwoTierIdempotency T :=
  { t with
    inflight := Function.update t.inflight key none
    leaders := Function.update t.leaders key none
    leases :=
      match t.leaders key with
      | some p => t.leases.modify p fun lease => { lease with outcome := some outcome }
      | none => t.leases }

def settleLease (t : TwoTierIdempotency T) (key : JsString) (entry : IdempotencyEnvelope T) :
    TwoTierIdempotency T :=
  t.closeLease key (some entry)

def failLease (t : TwoTierIdempotency T) (key : JsString) : TwoTierIdempotency T :=
  t.closeLease key none

/-- The in-process leader goes to the store. -/
def lead (t : TwoTierIdempotency T) : BeginPhase T :=
  match t.distributed with
  | none => .returned .execute
  | some store => if store.claim then .claiming else .reading

/-- The loop of the election. `openLease` refuses if there is an entry in `inflight`, and then
`inflight.get` finds it. -/
def elect (t : TwoTierIdempotency T) (key : JsString) : TwoTierIdempotency T × BeginPhase T :=
  match t.inflight key with
  | some lease => (t, .waiting lease)
  | none => (t.openLease key, t.lead)

def begin (t : TwoTierIdempotency T) (key : JsString) (fingerprint : Option JsString) (now : Int) :
    TwoTierIdempotency T × BeginPhase T :=
  if key = [] || !t.isEnabled then (t, .returned .execute)
  else
    match t.l1.get key now with
    | (some entry, l1) => ({ t with l1 }, .returned (settle entry fingerprint))
    | (none, l1) => { t with l1 }.elect key

/-- The leader that the call has awaited is done. -/
def resume (t : TwoTierIdempotency T) (key : JsString) (fingerprint : Option JsString)
    (outcome : Option (IdempotencyEnvelope T)) : TwoTierIdempotency T × BeginPhase T :=
  match outcome with
  | some entry => (t, .returned (settle entry fingerprint))
  | none => t.elect key

section Store

variable (frozen : IdempotencyEnvelope T → Bool)

/-- The entry of a peer is kept in `l1` and given to the waiting calls. -/
def adopt (t : TwoTierIdempotency T) (key : JsString) (fingerprint : Option JsString)
    (entry : IdempotencyEnvelope T) (now : Int) : TwoTierIdempotency T × BeginPhase T :=
  match t.l1.set frozen key entry now with
  | some l1 => ({ t with l1 }.settleLease key entry, .returned (settle entry fingerprint))
  | none => (t.failLease key, .thrown)

/-- What `awaitResult` or `get` of the store has answered. -/
def awaited (t : TwoTierIdempotency T) (key : JsString) (fingerprint : Option JsString)
    (existing : Option (IdempotencyEnvelope T)) (now : Int) :
    TwoTierIdempotency T × BeginPhase T :=
  match existing with
  | some entry => t.adopt frozen key fingerprint entry now
  | none => (t, .returned .execute)

/-- What `claim` of the store has answered. -/
def claimed (t : TwoTierIdempotency T) (key : JsString) (fingerprint : Option JsString)
    (claim : IdempotencyClaim T) (now : Int) : TwoTierIdempotency T × BeginPhase T :=
  if claim.acquired then (t, .returned .execute)
  else if claim.existing.isNone && t.distributed.any (·.awaitResult) then (t, .polling)
  else t.awaited frozen key fingerprint claim.existing now

/-- A call of the store was rejected, and so is `begin`. -/
def storeFailed (t : TwoTierIdempotency T) (key : JsString) :
    TwoTierIdempotency T × BeginPhase T :=
  (t.failLease key, .thrown)

/-- The part of `commit` before its `await`; it throws if the value cannot be written into. -/
def commit (t : TwoTierIdempotency T) (key : JsString) (value : T)
    (fingerprint : Option JsString) (now : Int) : Option (TwoTierIdempotency T) :=
  if key = [] then some t
  else
    let entry := idempotencyEnvelope value fingerprint
    (t.l1.set frozen key entry now).map fun l1 => { t with l1 }.settleLease key entry

end Store

/-- The part of `release` before its `await`. -/
def release (t : TwoTierIdempotency T) (key : JsString) : TwoTierIdempotency T :=
  if key = [] then t else t.failLease key

/-! ## What an operation does -/

section Stretches

variable (frozen : IdempotencyEnvelope T → Bool) (t : TwoTierIdempotency T) (key : JsString)
  (fingerprint : Option JsString) (source : IdempotencyEnvelope T → Prop)

/-- How an operation on a key leaves the runtime. `source` are the entries that it has got. -/
inductive Touch : TwoTierIdempotency T → Prop
  | same : Touch t
  | opened : t.inflight key = none → Touch (t.openLease key)
  | written {entry l1 now} : source entry → t.l1.set frozen key entry now = some l1 →
    Touch ({ t with l1 }.closeLease key (some entry))
  | failed : Touch (t.closeLease key none)

/-- The stretches of a call of `begin`; `asked` says whether it has awaited the store. -/
inductive Stretch : (asked : Bool) → TwoTierIdempotency T × BeginPhase T → Prop
  | joined {p} : t.inflight key = some p → Stretch false (t, .waiting p)
  | leads : t.inflight key = none → Stretch false (t.openLease key, t.lead)
  | answered {entry} : source entry → Stretch false (t, .returned (settle entry fingerprint))
  | executes : Stretch true (t, .returned .execute)
  | polls : Stretch true (t, .polling)
  | adopted {entry l1 now} : source entry → t.l1.set frozen key entry now = some l1 →
    Stretch true
      ({ t with l1 }.closeLease key (some entry), .returned (settle entry fingerprint))
  | throws : Stretch true (t.closeLease key none, .thrown)

end Stretches

section Stretch

variable {frozen : IdempotencyEnvelope T → Bool} {t : TwoTierIdempotency T} {key : JsString}
  {fingerprint : Option JsString} {source : IdempotencyEnvelope T → Prop} {now : Int}

theorem Stretch.touch {asked : Bool} {next : TwoTierIdempotency T × BeginPhase T}
    (h : Stretch frozen t key fingerprint source asked next) :
    Touch frozen t key source next.1 := by
  cases h with
  | joined _ | answered _ | executes | polls => exact .same
  | leads hnone => exact .opened hnone
  | adopted hentry hset => exact .written hentry hset
  | throws => exact .failed

theorem stretch_elect : Stretch frozen t key fingerprint source false (t.elect key) := by
  unfold elect
  split
  next p hp => exact .joined hp
  next hnone => exact .leads hnone

theorem begin_skips (h : key = [] ∨ ¬ t.isEnabled) :
    t.begin key fingerprint now = (t, .returned .execute) := by
  unfold begin
  rw [if_pos (by simpa using h)]

theorem begin_eq (hkey : key ≠ []) (henabled : t.isEnabled) :
    t.begin key fingerprint now =
      match (t.l1.get key now).1 with
      | some entry =>
        ({ t with l1 := (t.l1.get key now).2 }, .returned (settle entry fingerprint))
      | none => { t with l1 := (t.l1.get key now).2 }.elect key := by
  unfold begin
  rw [if_neg (by simp [hkey, henabled])]
  rcases t.l1.get key now with ⟨_ | entry, l1⟩ <;> rfl

variable (frozen) in
theorem stretch_begin (hkey : key ≠ []) (henabled : t.isEnabled) :
    Stretch frozen { t with l1 := (t.l1.get key now).2 } key fingerprint
      (fun entry => (t.l1.get key now).1 = some entry) false (t.begin key fingerprint now) := by
  rw [begin_eq hkey henabled]
  split
  next entry hget => exact .answered hget
  · exact stretch_elect

variable (frozen) in
theorem stretch_resume (outcome : Option (IdempotencyEnvelope T)) :
    Stretch frozen t key fingerprint (outcome = some ·) false
      (t.resume key fingerprint outcome) := by
  cases outcome with
  | some entry => exact .answered rfl
  | none => exact stretch_elect

theorem stretch_awaited (existing : Option (IdempotencyEnvelope T)) :
    Stretch frozen t key fingerprint (existing = some ·) true
      (t.awaited frozen key fingerprint existing now) := by
  cases existing with
  | none => exact .executes
  | some entry =>
    show Stretch _ _ _ _ _ _ (t.adopt frozen key fingerprint entry now)
    unfold adopt
    split
    next l1 hset => exact .adopted rfl hset
    · exact .throws

theorem stretch_claimed (claim : IdempotencyClaim T) :
    Stretch frozen t key fingerprint (claim.existing = some ·) true
      (t.claimed frozen key fingerprint claim now) := by
  unfold claimed
  split
  · exact .executes
  · split
    · exact .polls
    · exact stretch_awaited claim.existing

theorem touch_commit (value : T) :
    Touch frozen t key (· = idempotencyEnvelope value fingerprint)
      ((t.commit frozen key value fingerprint now).getD t) := by
  unfold commit
  split
  · exact .same
  · dsimp only
    cases hset : t.l1.set frozen key (idempotencyEnvelope value fingerprint) now with
    | none => exact .same
    | some l1 => exact .written rfl hset

variable (frozen source) in
theorem touch_release : Touch frozen t key source (t.release key) := by
  unfold release
  split
  · exact .same
  · exact .failed

end Stretch

end TwoTierIdempotency

/-! ## The calls of one replica -/

structure BeginCall (T : Type) where
  key : JsString
  fingerprint : Option JsString
  phase : BeginPhase T
  /-- The caller has called `commit` or `release`. -/
  closed : Bool := false

structure Replica (T : Type) where
  runtime : TwoTierIdempotency T
  calls : List (BeginCall T) := []

inductive ReplicaAction (T : Type)
  | begin (key : JsString) (fingerprint : Option JsString) (now : Int)
  | resume (call : Nat)
  | claimed (call : Nat) (claim : IdempotencyClaim T) (now : Int)
  | awaited (call : Nat) (existing : Option (IdempotencyEnvelope T)) (now : Int)
  | got (call : Nat) (remote : Option (IdempotencyEnvelope T)) (now : Int)
  | storeFailed (call : Nat)
  | commit (call : Nat) (key : JsString) (value : T) (fingerprint : Option JsString) (now : Int)
  | release (call : Nat) (key : JsString)

/-- The call that makes the step. -/
def ReplicaAction.caller (r : Replica T) : ReplicaAction T → Nat
  | .begin _ _ _ => r.calls.length
  | .resume c => c
  | .claimed c _ _ => c
  | .awaited c _ _ => c
  | .got c _ _ => c
  | .storeFailed c => c
  | .commit c _ _ _ _ => c
  | .release c _ => c

namespace BeginPhase

/-- The call awaits the store. -/
def asking : BeginPhase T → Bool
  | .claiming => true
  | .polling => true
  | .reading => true
  | _ => false

def result? : BeginPhase T → Option (IdempotencyBegin T)
  | .returned result => some result
  | _ => none

theorem eq_returned {phase : BeginPhase T} {result : IdempotencyBegin T}
    (h : phase.result? = some result) : phase = .returned result := by
  unfold result? at h
  split at h
  · cases h
    rfl
  · cases h

end BeginPhase

namespace Replica

/-- The call goes on to its next await. -/
def goOn (r : Replica T) (c : Nat) (call : BeginCall T)
    (next : TwoTierIdempotency T × BeginPhase T) : Replica T :=
  { runtime := next.1, calls := r.calls.set c { call with phase := next.2 } }

def close (r : Replica T) (c : Nat) (runtime : TwoTierIdempotency T) : Replica T :=
  { runtime, calls := r.calls.modify c fun call => { call with closed := true } }

def step (frozen : IdempotencyEnvelope T → Bool) (r : Replica T) :
    ReplicaAction T → Option (Replica T)
  | .begin key fingerprint now =>
    let (runtime, phase) := r.runtime.begin key fingerprint now
    some { runtime, calls := r.calls ++ [{ key, fingerprint, phase }] }
  | .resume c => do
    let call ← r.calls[c]?
    let .waiting p := call.phase | none
    let lease ← r.runtime.leases[p]?
    let outcome ← lease.outcome
    some (r.goOn c call (r.runtime.resume call.key call.fingerprint outcome))
  | .claimed c claim now => do
    let call ← r.calls[c]?
    let .claiming := call.phase | none
    some (r.goOn c call (r.runtime.claimed frozen call.key call.fingerprint claim now))
  | .awaited c existing now => do
    let call ← r.calls[c]?
    let .polling := call.phase | none
    some (r.goOn c call (r.runtime.awaited frozen call.key call.fingerprint existing now))
  | .got c remote now => do
    let call ← r.calls[c]?
    let .reading := call.phase | none
    some (r.goOn c call (r.runtime.awaited frozen call.key call.fingerprint remote now))
  | .storeFailed c => do
    let call ← r.calls[c]?
    if call.phase.asking then some (r.goOn c call (r.runtime.storeFailed call.key)) else none
  | .commit c key value fingerprint now =>
    some (r.close c ((r.runtime.commit frozen key value fingerprint now).getD r.runtime))
  | .release c key => some (r.close c (r.runtime.release key))

/-! ## What a step does -/

section Steps

variable {frozen : IdempotencyEnvelope T → Bool} {r r' : Replica T} {c : Nat} {now : Int}

theorem step_begin {key : JsString} {fingerprint : Option JsString}
    (h : r.step frozen (.begin key fingerprint now) = some r') :
    r' = {
      runtime := (r.runtime.begin key fingerprint now).1
      calls := r.calls ++
        [{ key, fingerprint, phase := (r.runtime.begin key fingerprint now).2 }] } :=
  (Option.some.inj h).symm

theorem step_resume (h : r.step frozen (.resume c) = some r') :
    ∃ call p lease outcome, r.calls[c]? = some call ∧ call.phase = .waiting p ∧
      r.runtime.leases[p]? = some lease ∧ lease.outcome = some outcome ∧
      r' = r.goOn c call (r.runtime.resume call.key call.fingerprint outcome) := by
  obtain ⟨call, hcall, h⟩ := Option.bind_eq_some_iff.mp h
  split at h
  next p hphase =>
    obtain ⟨lease, hlease, h⟩ := Option.bind_eq_some_iff.mp h
    obtain ⟨outcome, houtcome, h⟩ := Option.bind_eq_some_iff.mp h
    exact ⟨call, p, lease, outcome, hcall, hphase, hlease, houtcome, (Option.some.inj h).symm⟩
  · cases h

/-- How a call goes on after the store has answered it or has failed. -/
def reacts (frozen : IdempotencyEnvelope T → Bool) (t : TwoTierIdempotency T) (call : BeginCall T) :
    ReplicaAction T → Option (TwoTierIdempotency T × BeginPhase T)
  | .claimed _ claim now => t.claimed frozen call.key call.fingerprint claim now
  | .awaited _ existing now => t.awaited frozen call.key call.fingerprint existing now
  | .got _ remote now => t.awaited frozen call.key call.fingerprint remote now
  | .storeFailed _ => t.storeFailed call.key
  | _ => none

theorem step_reacts {a : ReplicaAction T} (h : r.step frozen a = some r')
    (ha : ∀ call, (reacts frozen r.runtime call a).isSome) :
    ∃ call next, r.calls[a.caller r]? = some call ∧ call.phase.asking ∧
      reacts frozen r.runtime call a = some next ∧ r' = r.goOn (a.caller r) call next := by
  cases a with
  | claimed c claim now | awaited c existing now | got c remote now | storeFailed c =>
    obtain ⟨call, hcall, h⟩ := Option.bind_eq_some_iff.mp h
    split at h
    next hphase => exact ⟨call, _, hcall, by rw [hphase] <;> rfl, rfl, (Option.some.inj h).symm⟩
    · cases h
  | _ => exact absurd (ha ⟨[], none, .thrown, false⟩) Bool.false_ne_true

/-- The entries that an action brings to a call. -/
def Offers (r : Replica T) (call : BeginCall T) : ReplicaAction T → IdempotencyEnvelope T → Prop
  | .resume _, entry => ∃ p lease, call.phase = .waiting p ∧ r.runtime.leases[p]? = some lease ∧
      lease.outcome = some (some entry)
  | .claimed _ claim _, entry => claim.existing = some entry
  | .awaited _ existing _, entry => existing = some entry
  | .got _ remote _, entry => remote = some entry
  | _, _ => False

variable (frozen r) in
/-- What a step is made of. -/
inductive Did : ReplicaAction T → Replica T → Prop
  | began (key fingerprint now) : Did (.begin key fingerprint now) {
      runtime := (r.runtime.begin key fingerprint now).1
      calls := r.calls ++ [{ key, fingerprint, phase := (r.runtime.begin key fingerprint now).2 }] }
  | wentOn {a call next} : r.calls[a.caller r]? = some call →
    call.phase.asking ∨ (a = .resume (a.caller r) ∧ ∃ p, call.phase = .waiting p) →
    r.runtime.Stretch frozen call.key call.fingerprint (r.Offers call a) call.phase.asking next →
    Did a (r.goOn (a.caller r) call next)
  | committed {c key value fingerprint now t} :
    r.runtime.Touch frozen key (· = idempotencyEnvelope value fingerprint) t →
    Did (.commit c key value fingerprint now) (r.close c t)
  | released {c key t} : r.runtime.Touch frozen key (fun _ => False) t →
    Did (.release c key) (r.close c t)

theorem did_step {a : ReplicaAction T} (h : r.step frozen a = some r') : Did frozen r a r' := by
  cases a with
  | begin key fingerprint now =>
    obtain rfl := step_begin h
    exact .began key fingerprint now
  | resume c =>
    obtain ⟨call, p, lease, outcome, hcall, hphase, hlease, houtcome, rfl⟩ := step_resume h
    refine .wentOn (a := .resume c) hcall (.inr ⟨rfl, p, hphase⟩) ?_
    rw [hphase]
    cases outcome with
    | some entry => exact .answered ⟨p, lease, hphase, hlease, houtcome⟩
    | none => exact TwoTierIdempotency.stretch_elect
  | claimed c claim now =>
    obtain ⟨call, _, hcall, hphase, ⟨rfl⟩, rfl⟩ := step_reacts h fun _ => rfl
    exact .wentOn hcall (.inl hphase) (hphase ▸ TwoTierIdempotency.stretch_claimed claim)
  | awaited c entry now | got c entry now =>
    obtain ⟨call, _, hcall, hphase, ⟨rfl⟩, rfl⟩ := step_reacts h fun _ => rfl
    exact .wentOn hcall (.inl hphase) (hphase ▸ TwoTierIdempotency.stretch_awaited entry)
  | storeFailed c =>
    obtain ⟨call, _, hcall, hphase, ⟨rfl⟩, rfl⟩ := step_reacts h fun _ => rfl
    exact .wentOn hcall (.inl hphase) (hphase ▸ .throws)
  | commit c key value fingerprint now =>
    cases h
    exact .committed (TwoTierIdempotency.touch_commit value)
  | release c key =>
    cases h
    exact .released (TwoTierIdempotency.touch_release ..)

theorem calls_goOn_self {call : BeginCall T} (hcall : r.calls[c]? = some call)
    (next : TwoTierIdempotency T × BeginPhase T) :
    (r.goOn c call next).calls[c]? = some { call with phase := next.2 } :=
  List.getElem?_set_self (List.getElem?_eq_some_iff.mp hcall).1

theorem calls_goOn_ne {call : BeginCall T} {d : Nat} (h : d ≠ c)
    (next : TwoTierIdempotency T × BeginPhase T) :
    (r.goOn c call next).calls[d]? = r.calls[d]? :=
  List.getElem?_set_ne h.symm

theorem calls_close_self {call : BeginCall T} (hcall : r.calls[c]? = some call)
    (runtime : TwoTierIdempotency T) :
    (r.close c runtime).calls[c]? = some { call with closed := true } := by
  show (r.calls.modify c _)[c]? = _
  rw [List.getElem?_modify_eq, hcall]
  rfl

theorem calls_close_ne {d : Nat} (h : d ≠ c) (runtime : TwoTierIdempotency T) :
    (r.close c runtime).calls[d]? = r.calls[d]? :=
  List.getElem?_modify_ne _ _ h.symm

theorem of_calls_close {runtime : TwoTierIdempotency T} {d : Nat} {x : BeginCall T}
    (h : (r.close c runtime).calls[d]? = some x) :
    ∃ y, r.calls[d]? = some y ∧ x = { y with closed := x.closed } ∧ (d ≠ c → x = y) := by
  have hmodify : (r.calls.modify c fun call => { call with closed := true })[d]? = some x := h
  rw [List.getElem?_modify] at hmodify
  obtain ⟨y, hy, rfl⟩ := Option.map_eq_some_iff.mp hmodify
  refine ⟨y, hy, ?_, fun hd => if_neg hd.symm⟩
  by_cases hc : c = d
  · rw [if_pos hc]
  · rw [if_neg hc]

theorem calls_step_ne {a : ReplicaAction T} {d : Nat} (h : r.step frozen a = some r')
    (hd : d ≠ a.caller r) : r'.calls[d]? = r.calls[d]? := by
  cases did_step h with
  | began key fingerprint now => exact Trace.getElem?_snoc_ne hd
  | wentOn _ _ _ => exact calls_goOn_ne hd _
  | committed _ | released _ => exact calls_close_ne hd _

theorem key_step {a : ReplicaAction T} {x : BeginCall T} (h : r.step frozen a = some r')
    (hx : r.calls[c]? = some x) : ∃ y, r'.calls[c]? = some y ∧ y.key = x.key := by
  by_cases hc : c = a.caller r
  · subst hc
    cases did_step h with
    | began key fingerprint now => cases (List.getElem?_eq_none le_rfl).symm.trans hx
    | wentOn hcall _ _ =>
      cases hcall.symm.trans hx
      exact ⟨_, calls_goOn_self hcall _, rfl⟩
    | committed _ | released _ => exact ⟨_, calls_close_self hx _, rfl⟩
  · exact ⟨x, (calls_step_ne h hc).trans hx, rfl⟩

end Steps

end Replica

end NevoMessaging
