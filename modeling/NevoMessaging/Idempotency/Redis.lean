import NevoMessaging.Idempotency.Runtime
import NevoMessaging.Lib.Json
import NevoMessaging.Lib.Machine

/-!
# RedisIdempotencyStore

The store behind the runtimes of any number of processes. A call of `claim` or `awaitResult` is cut
at its awaits, as a call of `begin` is: `StoreCall` says where it stands. A command to Redis is
executed at some time after it was sent, and the process goes on at some time after that; either may
fail. No key expires.

A `RedisNode` is one process: its runtime, its store and the calls of the store. `RedisCluster` has
all of them with the content of Redis and the writes that were sent and are not executed yet. The
store is enabled: the runtime never calls one that is not.
-/

namespace NevoMessaging

variable {T : Type}

/-- Marker stored while a handler runs, before the real result exists. -/
def idempotencyInProgress : JsString := 0 :: JsString.lit "nevo:idem:in-progress" ++ [0]

/-- The options `encode` and `decode`: what was encoded is decoded again, and it is not the marker.
`encode` may throw. -/
structure IdempotencyCodec (T : Type) where
  encode : IdempotencyEnvelope T → Option JsString
  decode : JsString → Option (IdempotencyEnvelope T)
  decode_encode : ∀ entry blob, encode entry = some blob → decode blob = some entry
  encode_ne : ∀ entry, encode entry ≠ some idempotencyInProgress

/-! ## The default codec -/

namespace IdempotencyEnvelope

def toJson (entry : IdempotencyEnvelope Json) : Json :=
  match entry.f with
  | none => .obj [(.lit "v", entry.v)]
  | some f => .obj [(.lit "f", .str f), (.lit "v", entry.v)]

/-- The source takes whatever `JSON.parse` returns for an envelope; these are the two forms that
`toJson` has. -/
def ofJson : Json → Option (IdempotencyEnvelope Json)
  | .obj [(k, v)] => if k = .lit "v" then some { v } else none
  | .obj [(k, .str f), (k', v)] =>
    if k = .lit "f" ∧ k' = .lit "v" then some { f := some f, v } else none
  | _ => none

theorem ofJson_toJson (entry : IdempotencyEnvelope Json) : ofJson entry.toJson = some entry := by
  obtain ⟨_ | f, v⟩ := entry
  · rfl
  · rfl

end IdempotencyEnvelope

/-- `JSON.stringify` and `JSON.parse`. -/
def jsonCodec : IdempotencyCodec Json where
  encode entry := entry.toJson.stringify
  decode blob := (Json.parse blob).bind IdempotencyEnvelope.ofJson
  decode_encode entry blob h := by
    rw [Json.parse_stringify h]
    exact entry.ofJson_toJson
  encode_ne entry h := by
    obtain ⟨_ | f, v⟩ := entry
    · exact absurd (Json.head?_stringify_obj h) (by decide)
    · exact absurd (Json.head?_stringify_obj h) (by decide)

/-! ## The store -/

/-- What happens when a read of Redis fails: it counts as a miss, or the error is thrown again. -/
inductive StoreReadErrorPolicy
  | failOpen
  | failClosed
deriving DecidableEq

structure RedisIdempotencyStoreOptions where
  ttlMs : Option Int := none
  maxEntries : Option Int := none
  readErrorPolicy : StoreReadErrorPolicy := .failOpen
  /-- The client has `del`. -/
  del : Bool := true

structure RedisIdempotencyStore (T : Type) where
  l1 : LruIdempotencyCache (IdempotencyEnvelope T)
  readErrorPolicy : StoreReadErrorPolicy
  del : Bool

/-- Where a call of the store stands. `claim` awaits `SET NX`, and then `GET` if it has lost;
`awaitResult` awaits `GET` and sleeps in turns until its deadline. A command that Redis has executed
carries the reply. -/
inductive StoreCall (T : Type)
  | setNx (reply : Option Bool)
  | read (deadline : Option Int) (reply : Option (Option JsString))
  | sleeping (deadline : Int)
  | claimed (claim : IdempotencyClaim T)
  | awaited (existing : Option (IdempotencyEnvelope T))
  | rejected

namespace RedisIdempotencyStore

def create (opts : RedisIdempotencyStoreOptions) : RedisIdempotencyStore T where
  l1 := .create {
    ttlMs := some (min (opts.ttlMs.getD (5 * 60000)) 60000)
    maxEntries := some (opts.maxEntries.getD 1024) }
  readErrorPolicy := opts.readErrorPolicy
  del := opts.del

def onReadError (store : RedisIdempotencyStore T) (failOpenValue : StoreCall T) : StoreCall T :=
  match store.readErrorPolicy with
  | .failOpen => failOpenValue
  | .failClosed => .rejected

/-- `claim` until its first await. -/
def claim (store : RedisIdempotencyStore T) (key : JsString) (now : Int) :
    RedisIdempotencyStore T × StoreCall T :=
  match store.l1.get key now with
  | (some cached, l1) => ({ store with l1 }, .claimed
    { acquired := false, existing := some cached })
  | (none, l1) => ({ store with l1 }, .setNx none)

/-- The head of the loop of `awaitResult`. -/
def poll (deadline now : Int) : StoreCall T :=
  if now < deadline then .read (some deadline) none else .awaited none

/-- `awaitResult` until its first await. The clock is read for the deadline and again by the
loop. -/
def awaitResult (store : RedisIdempotencyStore T) (key : JsString) (timeoutMs now later : Int) :
    RedisIdempotencyStore T × StoreCall T :=
  match store.l1.get key now with
  | (some cached, l1) => ({ store with l1 }, .awaited (some cached))
  | (none, l1) => ({ store with l1 }, poll (now + timeoutMs) later)

section Codec

variable (frozen : IdempotencyEnvelope T → Bool) (codec : IdempotencyCodec T)

/-- `readReal` with what `GET` has returned. -/
def readReal (store : RedisIdempotencyStore T) (key : JsString) (v : Option JsString) (now : Int) :
    RedisIdempotencyStore T × Option (IdempotencyEnvelope T) :=
  match v with
  | none => (store, none)
  | some blob =>
    if blob = idempotencyInProgress then (store, none)
    else
      match codec.decode blob with
      | none => (store, none)
      | some decoded =>
        match store.l1.set frozen key decoded now with
        | none => (store, none)
        | some l1 => ({ store with l1 }, some decoded)

/-- The call goes on with the reply of Redis. -/
def replied (store : RedisIdempotencyStore T) (key : JsString) (now : Int) :
    StoreCall T → Option (RedisIdempotencyStore T × StoreCall T)
  | .setNx (some true) => some (store, .claimed { acquired := true })
  | .setNx (some false) => some (store, .read none none)
  | .read none (some v) =>
    let (store, existing) := store.readReal frozen codec key v now
    some (store, .claimed { acquired := false, existing })
  | .read (some deadline) (some v) =>
    match store.readReal frozen codec key v now with
    | (store, some entry) => some (store, .awaited (some entry))
    | (store, none) => some (store, .sleeping deadline)
  | _ => none

/-- The command of the call fails, before or after Redis has executed it. -/
def failed (store : RedisIdempotencyStore T) : StoreCall T → Option (StoreCall T)
  | .setNx _ => some (store.onReadError (.claimed { acquired := true }))
  | .read none _ => some (store.onReadError (.claimed { acquired := false }))
  | .read (some _) _ => some (store.onReadError (.awaited none))
  | _ => none

/-- `set` until its await: the text that is sent. There is none if the value cannot be written into
or `encode` throws; the callers catch both. -/
def set (store : RedisIdempotencyStore T) (key : JsString) (value : IdempotencyEnvelope T)
    (now : Int) : RedisIdempotencyStore T × Option JsString :=
  match store.l1.set frozen key value now with
  | none => (store, none)
  | some l1 => ({ store with l1 }, codec.encode value)

end Codec

def delete (store : RedisIdempotencyStore T) (key : JsString) : RedisIdempotencyStore T :=
  { store with l1 := store.l1.delete key }

end RedisIdempotencyStore

/-! ## One process -/

structure RedisNode (T : Type) where
  replica : Replica T
  store : RedisIdempotencyStore T
  awaitTimeoutMs : Int
  /-- The call of the store that a call of `begin` awaits. -/
  calls : Nat → Option (StoreCall T) := fun _ => none

structure RedisNodeOptions where
  l1Options : IdempotencyOptions := {}
  awaitTimeoutMs : Option Int := none
  store : RedisIdempotencyStoreOptions := {}

namespace RedisNode

def create (opts : RedisNodeOptions) : RedisNode T where
  replica := { runtime := .create opts.l1Options (some {}) }
  store := .create opts.store
  awaitTimeoutMs := opts.awaitTimeoutMs.getD 5000

/-- The call of `begin` that has come to an await of the store calls the store. -/
def callStore (n : RedisNode T) (c : Nat) (now later : Int) : RedisNode T :=
  match n.replica.calls[c]? with
  | none => n
  | some x =>
    match x.phase with
    | .claiming =>
      let (store, call) := n.store.claim x.key now
      { n with store, calls := Function.update n.calls c (some call) }
    | .polling =>
      let (store, call) := n.store.awaitResult x.key n.awaitTimeoutMs now later
      { n with store, calls := Function.update n.calls c (some call) }
    | _ => { n with calls := Function.update n.calls c none }

/-- The runtime makes a step, after which the call `c` is at its next await. -/
def goOn (frozen : IdempotencyEnvelope T → Bool) (n : RedisNode T) (a : ReplicaAction T) (c : Nat)
    (now later : Int) : Option (RedisNode T) :=
  (n.replica.step frozen a).map fun replica => { n with replica }.callStore c now later

/-- The call of the store goes on. -/
def storeGoesOn (n : RedisNode T) (c : Nat)
    (f : JsString → StoreCall T → Option (RedisIdempotencyStore T × StoreCall T)) :
    Option (RedisNode T) := do
  let x ← n.replica.calls[c]?
  let call ← n.calls c
  let (store, call) ← f x.key call
  some { n with store, calls := Function.update n.calls c (some call) }

def reply (frozen : IdempotencyEnvelope T → Bool) (codec : IdempotencyCodec T) (n : RedisNode T)
    (c : Nat) (now : Int) : Option (RedisNode T) :=
  n.storeGoesOn c fun key call => n.store.replied frozen codec key now call

def fail (n : RedisNode T) (c : Nat) : Option (RedisNode T) :=
  n.storeGoesOn c fun _ call => (n.store.failed call).map (n.store, ·)

def wake (n : RedisNode T) (c : Nat) (now : Int) : Option (RedisNode T) :=
  n.storeGoesOn c fun _ call =>
    match call with
    | .sleeping deadline => some (n.store, RedisIdempotencyStore.poll deadline now)
    | _ => none

/-- The runtime gets the result of the call of the store. -/
def answer (frozen : IdempotencyEnvelope T → Bool) (n : RedisNode T) (c : Nat) (now later : Int) :
    Option (RedisNode T) :=
  match n.calls c with
  | some (.claimed claim) => n.goOn frozen (.claimed c claim now) c now later
  | some (.awaited existing) => n.goOn frozen (.awaited c existing now) c now later
  | some .rejected => n.goOn frozen (.storeFailed c) c now later
  | _ => none

/-- `commit`, with the text that is sent to Redis. -/
def commit (frozen : IdempotencyEnvelope T → Bool) (codec : IdempotencyCodec T) (n : RedisNode T)
    (c : Nat) (key : JsString) (value : T) (fingerprint : Option JsString) (now : Int) :
    RedisNode T × Option JsString :=
  match n.replica.runtime.commit frozen key value fingerprint now with
  | none => ({ n with replica := n.replica.close c n.replica.runtime }, none)
  | some runtime =>
    let replica := n.replica.close c runtime
    if key = [] then ({ n with replica }, none)
    else
      let (store, blob) := n.store.set frozen codec key (idempotencyEnvelope value fingerprint) now
      ({ n with replica, store }, blob)

def release (n : RedisNode T) (c : Nat) (key : JsString) : RedisNode T :=
  { n with
    replica := n.replica.close c (n.replica.runtime.release key)
    store := if key = [] then n.store else n.store.delete key }

end RedisNode

/-! ## All processes -/

/-- A write of a value, or of nothing (`del`). -/
structure RedisWrite where
  key : JsString
  value : Option JsString
deriving DecidableEq

structure RedisCluster (T : Type) where
  nodes : Nat → RedisNode T
  redis : JsString → Option JsString := fun _ => none
  /-- One place for each `commit` and `release`, empty if nothing is on its way. -/
  writes : List (Option RedisWrite) := []
  /-- Every call of `commit`. -/
  commits : List (JsString × IdempotencyEnvelope T) := []

inductive RedisAction (T : Type)
  | begin (node : Nat) (key : JsString) (fingerprint : Option JsString) (now : Int)
  | resume (node call : Nat) (now : Int)
  | execute (node call : Nat)
  | reply (node call : Nat) (now : Int)
  | fail (node call : Nat)
  | wake (node call : Nat) (now : Int)
  | answer (node call : Nat) (now later : Int)
  | commit (node call : Nat) (key : JsString) (value : T) (fingerprint : Option JsString)
    (now : Int)
  | release (node call : Nat) (key : JsString)
  | write (index : Nat)
  | lose (index : Nat)

namespace RedisCluster

def setNode (s : RedisCluster T) (i : Nat) (n : RedisNode T) : RedisCluster T :=
  { s with nodes := Function.update s.nodes i n }

section Step

variable (frozen : IdempotencyEnvelope T → Bool) (codec : IdempotencyCodec T) (keyPrefix : JsString)

/-- Redis executes the command of a call. -/
def execute (s : RedisCluster T) (i c : Nat) : Option (RedisCluster T) := do
  let n := s.nodes i
  let x ← n.replica.calls[c]?
  let k := keyPrefix ++ x.key
  match n.calls c with
  | some (.setNx none) =>
    let won := (s.redis k).isNone
    let redis := if won then Function.update s.redis k (some idempotencyInProgress) else s.redis
    let n := { n with calls := Function.update n.calls c (some (.setNx (some won))) }
    some { s.setNode i n with redis }
  | some (.read deadline none) =>
    let call := StoreCall.read deadline (some (s.redis k))
    some (s.setNode i { n with calls := Function.update n.calls c (some call) })
  | _ => none

/-- Redis executes a write. -/
def write (s : RedisCluster T) (j : Nat) : Option (RedisCluster T) := do
  let w ← s.writes[j]?.join
  some { s with redis := Function.update s.redis w.key w.value, writes := s.writes.set j none }

def lose (s : RedisCluster T) (j : Nat) : Option (RedisCluster T) := do
  let _ ← s.writes[j]?.join
  some { s with writes := s.writes.set j none }

def step (s : RedisCluster T) : RedisAction T → Option (RedisCluster T)
  | .begin i key fingerprint now =>
    let n := s.nodes i
    (n.goOn frozen (.begin key fingerprint now) n.replica.calls.length now now).map (s.setNode i)
  | .resume i c now => ((s.nodes i).goOn frozen (.resume c) c now now).map (s.setNode i)
  | .execute i c => s.execute keyPrefix i c
  | .reply i c now => ((s.nodes i).reply frozen codec c now).map (s.setNode i)
  | .fail i c => ((s.nodes i).fail c).map (s.setNode i)
  | .wake i c now => ((s.nodes i).wake c now).map (s.setNode i)
  | .answer i c now later => ((s.nodes i).answer frozen c now later).map (s.setNode i)
  | .commit i c key value fingerprint now =>
    let (n, blob) := (s.nodes i).commit frozen codec c key value fingerprint now
    some { s.setNode i n with
      writes := s.writes ++ [blob.map fun blob => { key := keyPrefix ++ key, value := some blob }]
      commits := s.commits ++ [(key, idempotencyEnvelope value fingerprint)] }
  | .release i c key =>
    let n := s.nodes i
    let sends := key ≠ [] && n.store.del
    some { s.setNode i (n.release c key) with
      writes := s.writes ++ [if sends then some { key := keyPrefix ++ key, value := none }
        else none] }
  | .write j => s.write j
  | .lose j => s.lose j

end Step

end RedisCluster

/-- Each process has options of its own. -/
def redisMachine (frozen : IdempotencyEnvelope T → Bool) (codec : IdempotencyCodec T)
    (keyPrefix : JsString) (opts : Nat → RedisNodeOptions) :
    Machine (RedisCluster T) (RedisAction T) where
  init := { nodes := fun i => .create (opts i) }
  step := RedisCluster.step frozen codec keyPrefix

/-! ## What a step does -/

namespace RedisNode

/-- The call of the store has come to this point. -/
def setCall (n : RedisNode T) (c : Nat) (call : StoreCall T) : RedisNode T :=
  { n with calls := Function.update n.calls c (some call) }

variable {frozen : IdempotencyEnvelope T → Bool} {n n' : RedisNode T} {c d : Nat} {now later : Int}

theorem replica_callStore : (n.callStore c now later).replica = n.replica := by
  unfold callStore
  split
  · rfl
  · split <;> rfl

theorem calls_callStore_ne (h : d ≠ c) : (n.callStore c now later).calls d = n.calls d := by
  unfold callStore
  split
  · rfl
  · split <;> exact Function.update_of_ne h _ _

theorem goOn_spec {a : ReplicaAction T} (hs : n.goOn frozen a c now later = some n') :
    ∃ r, n.replica.step frozen a = some r ∧ n' = { n with replica := r }.callStore c now later := by
  obtain ⟨r, hr, rfl⟩ := Option.map_eq_some_iff.mp hs
  exact ⟨r, hr, rfl⟩

theorem storeGoesOn_spec {f : JsString → StoreCall T →
    Option (RedisIdempotencyStore T × StoreCall T)} (hs : n.storeGoesOn c f = some n') :
    ∃ x call store call', n.replica.calls[c]? = some x ∧ n.calls c = some call ∧
      f x.key call = some (store, call') ∧
      n' = { n with store, calls := Function.update n.calls c (some call') } := by
  obtain ⟨x, hx, hs⟩ := Option.bind_eq_some_iff.mp hs
  obtain ⟨call, hcall, hs⟩ := Option.bind_eq_some_iff.mp hs
  obtain ⟨⟨store, call'⟩, hf, hs⟩ := Option.bind_eq_some_iff.mp hs
  exact ⟨x, call, store, call', hx, hcall, hf, (Option.some.inj hs).symm⟩

end RedisNode

namespace RedisCluster

/-- Redis gives the key to the call. -/
def give (keyPrefix : JsString) (s : RedisCluster T) (i c : Nat) (key : JsString) :
    RedisCluster T :=
  { s.setNode i ((s.nodes i).setCall c (.setNx (some true))) with
    redis := Function.update s.redis (keyPrefix ++ key) (some idempotencyInProgress) }

section Does

variable (frozen : IdempotencyEnvelope T → Bool) (codec : IdempotencyCodec T) (keyPrefix : JsString)
  (s : RedisCluster T) (i : Nat)

/-- What makes the runtime of a process go on: a new call, the end of a wait for the leader, or the
result of a call of the store. -/
inductive Drives : RedisAction T → ReplicaAction T → (now later : Int) → Prop
  | begin (key fingerprint now) :
    Drives (.begin i key fingerprint now) (.begin key fingerprint now) now now
  | resume (c now) : Drives (.resume i c now) (.resume c) now now
  | claimed {c claim now later} : (s.nodes i).calls c = some (.claimed claim) →
    Drives (.answer i c now later) (.claimed c claim now) now later
  | awaited {c existing now later} : (s.nodes i).calls c = some (.awaited existing) →
    Drives (.answer i c now later) (.awaited c existing now) now later
  | rejected {c now later} : (s.nodes i).calls c = some .rejected →
    Drives (.answer i c now later) (.storeFailed c) now later

/-- How a call of the store goes on. -/
inductive GoesOn (c : Nat) (key : JsString) :
    RedisAction T → StoreCall T → RedisIdempotencyStore T × StoreCall T → Prop
  | lost : GoesOn c key (.execute i c) (.setNx none) ((s.nodes i).store, .setNx (some false))
  | read {deadline} : GoesOn c key (.execute i c) (.read deadline none)
      ((s.nodes i).store, .read deadline (some (s.redis (keyPrefix ++ key))))
  | reply {now call next} : (s.nodes i).store.replied frozen codec key now call = some next →
    GoesOn c key (.reply i c now) call next
  | fail {call call'} : (s.nodes i).store.failed call = some call' →
    GoesOn c key (.fail i c) call ((s.nodes i).store, call')
  | wake {deadline now} : GoesOn c key (.wake i c now) (.sleeping deadline)
      ((s.nodes i).store, RedisIdempotencyStore.poll deadline now)

/-- What a step is made of. -/
inductive Does : RedisAction T → RedisCluster T → Prop
  | runs {i a b now later r} : s.Drives i a b now later →
    (s.nodes i).replica.step frozen b = some r → Does a (s.setNode i
      ({ s.nodes i with replica := r }.callStore (b.caller (s.nodes i).replica) now later))
  | goesOn {i a c x call next} : (s.nodes i).replica.calls[c]? = some x →
    (s.nodes i).calls c = some call → GoesOn frozen codec keyPrefix s i c x.key a call next →
    Does a (s.setNode i { s.nodes i with
      store := next.1, calls := Function.update (s.nodes i).calls c (some next.2) })
  | claims {i c x} : (s.nodes i).replica.calls[c]? = some x →
    s.redis (keyPrefix ++ x.key) = none → Does (.execute i c) (s.give keyPrefix i c x.key)
  | commits {i c k value fingerprint now s'} :
    s.step frozen codec keyPrefix (.commit i c k value fingerprint now) = some s' →
    Does (.commit i c k value fingerprint now) s'
  | releases {i c k s'} : s.step frozen codec keyPrefix (.release i c k) = some s' →
    Does (.release i c k) s'
  | writes {j w} : s.writes[j]? = some (some w) → Does (.write j) { s with
      redis := Function.update s.redis w.key w.value, writes := s.writes.set j none }
  | loses {j w} : s.writes[j]? = some (some w) →
    Does (.lose j) { s with writes := s.writes.set j none }

end Does

variable {frozen : IdempotencyEnvelope T → Bool} {codec : IdempotencyCodec T} {keyPrefix : JsString}
  {s s' : RedisCluster T} {i : Nat} {n : RedisNode T} {a : RedisAction T}

theorem does_execute {c : Nat} (hs : s.execute keyPrefix i c = some s') :
    s.Does frozen codec keyPrefix (.execute i c) s' := by
  obtain ⟨x, hx, hs⟩ := Option.bind_eq_some_iff.mp hs
  split at hs
  next hcall =>
    dsimp only at hs
    cases hredis : s.redis (keyPrefix ++ x.key) with
    | none =>
      rw [hredis] at hs
      cases hs
      exact .claims hx hredis
    | some blob =>
      rw [hredis] at hs
      cases hs
      exact .goesOn hx hcall .lost
  next deadline hcall =>
    cases hs
    exact .goesOn hx hcall .read
  · cases hs

theorem does_answer {c : Nat} {now later : Int}
    (hs : (s.nodes i).answer frozen c now later = some n) :
    s.Does frozen codec keyPrefix (.answer i c now later) (s.setNode i n) := by
  unfold RedisNode.answer at hs
  split at hs
  next hcall =>
    obtain ⟨r, hr, rfl⟩ := RedisNode.goOn_spec hs
    exact .runs (.claimed hcall) hr
  next hcall =>
    obtain ⟨r, hr, rfl⟩ := RedisNode.goOn_spec hs
    exact .runs (.awaited hcall) hr
  next hcall =>
    obtain ⟨r, hr, rfl⟩ := RedisNode.goOn_spec hs
    exact .runs (.rejected hcall) hr
  · cases hs

theorem does_step (hs : s.step frozen codec keyPrefix a = some s') :
    s.Does frozen codec keyPrefix a s' := by
  cases a with
  | begin i key fingerprint now =>
    rw [step] at hs
    obtain ⟨n, hn, rfl⟩ := Option.map_eq_some_iff.mp hs
    obtain ⟨r, hr, rfl⟩ := RedisNode.goOn_spec hn
    exact .runs (.begin key fingerprint now) hr
  | resume i c now =>
    obtain ⟨n, hn, rfl⟩ := Option.map_eq_some_iff.mp hs
    obtain ⟨r, hr, rfl⟩ := RedisNode.goOn_spec hn
    exact .runs (.resume c now) hr
  | execute i c => exact does_execute hs
  | reply i c now =>
    obtain ⟨n, hn, rfl⟩ := Option.map_eq_some_iff.mp hs
    obtain ⟨x, call, store, call', hx, hcall, hf, rfl⟩ := RedisNode.storeGoesOn_spec hn
    exact .goesOn hx hcall (.reply hf)
  | fail i c =>
    obtain ⟨n, hn, rfl⟩ := Option.map_eq_some_iff.mp hs
    obtain ⟨x, call, store, call', hx, hcall, hf, rfl⟩ := RedisNode.storeGoesOn_spec hn
    obtain ⟨call'', hfail, ⟨rfl, rfl⟩⟩ := Option.map_eq_some_iff.mp hf
    exact .goesOn hx hcall (.fail hfail)
  | wake i c now =>
    obtain ⟨n, hn, rfl⟩ := Option.map_eq_some_iff.mp hs
    obtain ⟨x, call, store, call', hx, hcall, hf, rfl⟩ := RedisNode.storeGoesOn_spec hn
    split at hf
    · cases hf
      exact .goesOn hx hcall .wake
    · cases hf
  | answer i c now later =>
    obtain ⟨n, hn, rfl⟩ := Option.map_eq_some_iff.mp hs
    exact does_answer hn
  | commit i c k value fingerprint now => exact .commits hs
  | release i c k => exact .releases hs
  | write j =>
    obtain ⟨w, hw, hs⟩ := Option.bind_eq_some_iff.mp hs
    cases hs
    exact .writes (Option.join_eq_some_iff.mp hw)
  | lose j =>
    obtain ⟨w, hw, hs⟩ := Option.bind_eq_some_iff.mp hs
    cases hs
    exact .loses (Option.join_eq_some_iff.mp hw)

theorem nodes_setNode_self : (s.setNode i n).nodes i = n := Function.update_self ..

theorem nodes_setNode_ne {d : Nat} (h : d ≠ i) : (s.setNode i n).nodes d = s.nodes d :=
  Function.update_of_ne h ..

theorem forall_nodes {P : RedisNode T → Prop} (h : ∀ d, P (s.nodes d))
    (hnodes : s'.nodes = (s.setNode i n).nodes) (hn : P n) (d : Nat) : P (s'.nodes d) := by
  rw [hnodes]
  by_cases hd : d = i
  · rw [hd, nodes_setNode_self]
    exact hn
  · rw [nodes_setNode_ne hd]
    exact h d

end RedisCluster

end NevoMessaging
