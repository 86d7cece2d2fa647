import NevoMessaging.Idempotency.Redis

/-!
# A call of `begin` without anyone else's help

While nothing else happens and Redis does not fail, a call has at most one way to go on; only the
clock is open. If there is a text under its key in Redis, the call does not change it, so its run is
a matter of one process.

Results:
1. `solo_eq`: the run of the call in the cluster is its run in its process.
2. `returns_stored`: a process with nothing in its memory returns the entry whose text is stored.
-/

namespace NevoMessaging

open Function

variable {T : Type}

namespace RedisCluster

variable (frozen : IdempotencyEnvelope T → Bool) (codec : IdempotencyCodec T) (keyPrefix : JsString)

/-- What happens next to a call of the store that does not fail. -/
def nextAction (i c : Nat) (now later : Int) : StoreCall T → RedisAction T
  | .setNx none => .execute i c
  | .setNx (some _) => .reply i c now
  | .read _ none => .execute i c
  | .read _ (some _) => .reply i c now
  | .sleeping _ => .wake i c now
  | .claimed _ => .answer i c now later
  | .awaited _ => .answer i c now later
  | .rejected => .answer i c now later

/-- The next stretch of the call `c` of the process `i`. -/
def advance (s : RedisCluster T) (i c : Nat) (now later : Int) : RedisCluster T :=
  match (s.nodes i).calls c with
  | none => s
  | some call => (s.step frozen codec keyPrefix (nextAction i c now later call)).getD s

/-- The clock shows two times in each stretch. -/
def solo (s : RedisCluster T) (i c : Nat) (clock : List (Int × Int)) : RedisCluster T :=
  clock.foldl (fun s t => s.advance frozen codec keyPrefix i c t.1 t.2) s

/-- The result of a call of `begin`. -/
def result? (s : RedisCluster T) (i c : Nat) : Option (IdempotencyBegin T) :=
  ((s.nodes i).replica.calls[c]?).bind fun x => x.phase.result?

/-- The call returns the result after so many stretches at the latest. -/
def ReturnsIn (k : Nat) (s : RedisCluster T) (i c : Nat) (result : IdempotencyBegin T) : Prop :=
  ∀ clock, k ≤ clock.length → (s.solo frozen codec keyPrefix i c clock).result? i c = some result

end RedisCluster

/-! ## One process and one text -/

namespace RedisNode

variable (frozen : IdempotencyEnvelope T → Bool) (codec : IdempotencyCodec T) (blob : JsString)

/-- The next stretch of the call `c` while Redis holds `blob` under its key. -/
def advance (n : RedisNode T) (c : Nat) (now later : Int) : RedisNode T :=
  match n.calls c with
  | none => n
  | some (.setNx none) =>
    { n with calls := Function.update n.calls c (some (.setNx (some false))) }
  | some (.read deadline none) =>
    { n with calls := Function.update n.calls c (some (.read deadline (some (some blob)))) }
  | some (.setNx (some _)) => (n.reply frozen codec c now).getD n
  | some (.read _ (some _)) => (n.reply frozen codec c now).getD n
  | some (.sleeping _) => (n.wake c now).getD n
  | some (.claimed _) => (n.answer frozen c now later).getD n
  | some (.awaited _) => (n.answer frozen c now later).getD n
  | some .rejected => (n.answer frozen c now later).getD n

def solo (n : RedisNode T) (c : Nat) (clock : List (Int × Int)) : RedisNode T :=
  clock.foldl (fun n t => n.advance frozen codec blob c t.1 t.2) n

def ReturnsIn (k : Nat) (n : RedisNode T) (c : Nat) (result : IdempotencyBegin T) : Prop :=
  ∀ clock, k ≤ clock.length → ∃ x, (n.solo frozen codec blob c clock).replica.calls[c]? = some x ∧
    x.phase = .returned result

variable {frozen codec blob} {n n' : RedisNode T} {c k : Nat} {now later : Int} {x : BeginCall T}
  {result : IdempotencyBegin T}

theorem solo_of_none (h : n.calls c = none) (clock : List (Int × Int)) :
    n.solo frozen codec blob c clock = n := by
  refine List.foldl_fixed' (fun t => ?_) clock
  unfold advance
  rw [h]

theorem ReturnsIn.done (h : n.calls c = none) (hx : n.replica.calls[c]? = some x)
    (hphase : x.phase = .returned result) : n.ReturnsIn frozen codec blob k c result := by
  intro clock _
  rw [solo_of_none h]
  exact ⟨x, hx, hphase⟩

theorem ReturnsIn.next (h : ∀ now later,
      (n.advance frozen codec blob c now later).ReturnsIn frozen codec blob k c result) :
    n.ReturnsIn frozen codec blob (k + 1) c result := by
  intro clock hlen
  cases clock with
  | nil => exact absurd hlen (Nat.not_succ_le_zero k)
  | cons t clock => exact h t.1 t.2 clock (Nat.le_of_succ_le_succ hlen)

theorem ReturnsIn.mono {m : Nat} (h : n.ReturnsIn frozen codec blob k c result) (hk : k ≤ m) :
    n.ReturnsIn frozen codec blob m c result := fun clock hlen => h clock (hk.trans hlen)

/-! ### The key of a call -/

/-- The call `c` is still one of the key. -/
def HasKey (n : RedisNode T) (c : Nat) (key : JsString) : Prop :=
  ∃ x, n.replica.calls[c]? = some x ∧ x.key = key

theorem HasKey.storeGoesOn {key : JsString}
    {f : JsString → StoreCall T → Option (RedisIdempotencyStore T × StoreCall T)}
    (h : n.HasKey c key) : ((n.storeGoesOn c f).getD n).HasKey c key := by
  cases hs : n.storeGoesOn c f with
  | none => exact h
  | some n' =>
    obtain ⟨x, call, store, call', -, -, -, rfl⟩ := storeGoesOn_spec hs
    exact h

theorem HasKey.goOn {key : JsString} {a : ReplicaAction T} {d : Nat} (h : n.HasKey c key)
    (hs : n.goOn frozen a d now later = some n') : n'.HasKey c key := by
  obtain ⟨x, hx, hkey⟩ := h
  obtain ⟨r, hr, rfl⟩ := goOn_spec hs
  obtain ⟨y, hy, hsame⟩ := Replica.key_step hr hx
  refine ⟨y, ?_, hsame.trans hkey⟩
  rw [replica_callStore]
  exact hy

theorem HasKey.answer {key : JsString} (h : n.HasKey c key) :
    ((n.answer frozen c now later).getD n).HasKey c key := by
  cases hs : n.answer frozen c now later with
  | none => exact h
  | some n' =>
    unfold RedisNode.answer at hs
    split at hs
    · exact h.goOn hs
    · exact h.goOn hs
    · exact h.goOn hs
    · cases hs

theorem HasKey.advance {key : JsString} (h : n.HasKey c key) :
    (n.advance frozen codec blob c now later).HasKey c key := by
  unfold RedisNode.advance
  split
  · exact h
  · exact h
  · exact h
  · exact h.storeGoesOn
  · exact h.storeGoesOn
  · exact h.storeGoesOn
  · exact h.answer
  · exact h.answer
  · exact h.answer

end RedisNode

/-! ## An entry is found -/

namespace LruIdempotencyCache

theorem set_of_not_frozen {frozen : T → Bool} {value : T} (h : frozen value = false)
    (l1 : LruIdempotencyCache T) (key : JsString) (now : Int) :
    ∃ l1', l1.set frozen key value now = some l1' := by
  unfold set
  split
  · rw [h]
    exact ⟨_, rfl⟩
  · exact ⟨_, rfl⟩

end LruIdempotencyCache

namespace RedisNode

variable {frozen : IdempotencyEnvelope T → Bool} {codec : IdempotencyCodec T} {blob : JsString}
  {n : RedisNode T} {c : Nat} {x : BeginCall T} {entry : IdempotencyEnvelope T}

theorem calls_callStore_of_returned {result : IdempotencyBegin T} {now later : Int}
    (hx : n.replica.calls[c]? = some x) (hphase : x.phase = .returned result) :
    (n.callStore c now later).calls c = none := by
  unfold callStore
  rw [hx]
  dsimp only
  rw [hphase]
  exact update_self ..

theorem callStore_of_claiming (now later : Int) (hx : n.replica.calls[c]? = some x)
    (hphase : x.phase = .claiming) :
    (n.callStore c now later).calls c = some (n.store.claim x.key now).2 ∧
      (n.callStore c now later).store = (n.store.claim x.key now).1 := by
  unfold callStore
  rw [hx]
  dsimp only
  rw [hphase]
  exact ⟨update_self .., rfl⟩

theorem answer_claimed {claim : IdempotencyClaim T} {next : TwoTierIdempotency T × BeginPhase T}
    {now later : Int} (hx : n.replica.calls[c]? = some x) (hphase : x.phase = .claiming)
    (hcall : n.calls c = some (.claimed claim))
    (hnext : n.replica.runtime.claimed frozen x.key x.fingerprint claim now = next) :
    n.answer frozen c now later =
      some (callStore { n with replica := n.replica.goOn c x next } c now later) := by
  have hstep : n.replica.step frozen (.claimed c claim now) = some (n.replica.goOn c x next) := by
    unfold Replica.step
    dsimp only
    rw [hx]
    dsimp only [bind, Option.bind]
    rw [hphase]
    dsimp only
    rw [hnext]
  unfold answer
  rw [hcall]
  dsimp only
  rw [goOn, hstep]
  rfl

section Found

variable (hx : n.replica.calls[c]? = some x) (hphase : x.phase = .claiming)
  (hfrozen : frozen entry = false)

include hx hphase hfrozen

theorem returns_claimed
    (hcall : n.calls c = some (.claimed { acquired := false, existing := some entry })) :
    n.ReturnsIn frozen codec blob 1 c (settle entry x.fingerprint) := by
  refine .next fun now later => ?_
  obtain ⟨l1, hset⟩ :=
    LruIdempotencyCache.set_of_not_frozen hfrozen n.replica.runtime.l1 x.key now
  have hclaimed : n.replica.runtime.claimed frozen x.key x.fingerprint
      { acquired := false, existing := some entry } now =
      ({ n.replica.runtime with l1 }.settleLease x.key entry,
        .returned (settle entry x.fingerprint)) := by
    unfold TwoTierIdempotency.claimed TwoTierIdempotency.awaited TwoTierIdempotency.adopt
    rw [if_neg Bool.false_ne_true, if_neg (by simp)]
    dsimp only
    rw [hset]
  unfold advance
  rw [hcall]
  dsimp only
  rw [answer_claimed hx hphase hcall hclaimed]
  have hx' := Replica.calls_goOn_self hx ({ n.replica.runtime with l1 }.settleLease x.key entry,
    .returned (settle entry x.fingerprint))
  refine .done (x := { x with phase := .returned (settle entry x.fingerprint) }) ?_ ?_ rfl
  · exact calls_callStore_of_returned (n := { n with replica := _ }) hx' rfl
  · show (callStore _ c now later).replica.calls[c]? = _
    rw [replica_callStore]
    exact hx'

omit hx hphase hfrozen in
theorem ReturnsIn.of_update {k : Nat} {result : IdempotencyBegin T} {call : StoreCall T}
    (hcall : ∀ now later, ∃ store, n.advance frozen codec blob c now later =
      { n with store, calls := Function.update n.calls c (some call) })
    (h : ∀ store, ReturnsIn frozen codec blob k
      { n with store, calls := Function.update n.calls c (some call) } c result) :
    n.ReturnsIn frozen codec blob (k + 1) c result := by
  refine .next fun now later => ?_
  obtain ⟨store, hstore⟩ := hcall now later
  rw [hstore]
  exact h store

variable (hblob : codec.encode entry = some blob)

include hblob

theorem returns_read (hcall : n.calls c = some (.read none (some (some blob)))) :
    n.ReturnsIn frozen codec blob 2 c (settle entry x.fingerprint) := by
  refine .of_update (fun now later => ?_) fun store =>
    returns_claimed hx hphase hfrozen (update_self ..)
  have hne : blob ≠ idempotencyInProgress := fun heq => codec.encode_ne entry (heq ▸ hblob)
  obtain ⟨l1, hset⟩ := LruIdempotencyCache.set_of_not_frozen hfrozen n.store.l1 x.key now
  refine ⟨{ n.store with l1 }, ?_⟩
  unfold advance
  rw [hcall]
  dsimp only
  unfold reply storeGoesOn
  rw [hx, hcall]
  dsimp only [bind, Option.bind, RedisIdempotencyStore.replied]
  unfold RedisIdempotencyStore.readReal
  dsimp only
  rw [if_neg hne, codec.decode_encode entry blob hblob]
  dsimp only
  rw [hset]
  rfl

theorem returns_get (hcall : n.calls c = some (.read none none)) :
    n.ReturnsIn frozen codec blob 3 c (settle entry x.fingerprint) := by
  refine .of_update (fun now later => ⟨n.store, ?_⟩) fun store =>
    returns_read hx hphase hfrozen hblob (update_self ..)
  unfold advance
  rw [hcall]

theorem returns_lost (hcall : n.calls c = some (.setNx (some false))) :
    n.ReturnsIn frozen codec blob 4 c (settle entry x.fingerprint) := by
  refine .of_update (fun now later => ⟨n.store, ?_⟩) fun store =>
    returns_get hx hphase hfrozen hblob (update_self ..)
  unfold advance
  rw [hcall]
  dsimp only
  unfold reply storeGoesOn
  rw [hx, hcall]
  rfl

theorem returns_setNx (hcall : n.calls c = some (.setNx none)) :
    n.ReturnsIn frozen codec blob 5 c (settle entry x.fingerprint) := by
  refine .of_update (fun now later => ⟨n.store, ?_⟩) fun store =>
    returns_lost hx hphase hfrozen hblob (update_self ..)
  unfold advance
  rw [hcall]

end Found

/-! ### A process that knows nothing -/

/-- There is nothing about the key in the two places where `begin` looks first. -/
def Cold (n : RedisNode T) (key : JsString) (now : Int) : Prop :=
  (n.replica.runtime.l1.get key now).1 = none ∧ n.replica.runtime.inflight key = none

theorem begin_cold {key : JsString} (frozen : IdempotencyEnvelope T → Bool)
    (fingerprint : Option JsString) {now : Int} (later : Int)
    (hwired : n.replica.runtime.distributed = some {}) (hkey : key ≠ []) (hcold : n.Cold key now) :
    ∃ n', n.goOn frozen (.begin key fingerprint now) n.replica.calls.length now later = some n' ∧
      n'.replica.calls[n.replica.calls.length]? =
        some { key, fingerprint, phase := .claiming } ∧
      n'.calls n.replica.calls.length = some (n.store.claim key now).2 ∧
      n'.store = (n.store.claim key now).1 := by
  have henabled : n.replica.runtime.isEnabled := by
    rw [TwoTierIdempotency.isEnabled, hwired]
    exact Bool.or_true _
  have hphase : (n.replica.runtime.begin key fingerprint now).2 = .claiming := by
    unfold TwoTierIdempotency.begin
    rw [if_neg (by simp [hkey, henabled])]
    split
    next hget => cases (congrArg Prod.fst hget).symm.trans hcold.1
    · unfold TwoTierIdempotency.elect
      rw [hcold.2]
      dsimp only
      rw [TwoTierIdempotency.lead, hwired]
      rfl
  let r : Replica T := {
    runtime := (n.replica.runtime.begin key fingerprint now).1
    calls := n.replica.calls ++
      [{ key, fingerprint, phase := (n.replica.runtime.begin key fingerprint now).2 }] }
  have hlast : r.calls[n.replica.calls.length]? =
      some { key, fingerprint, phase := .claiming } := by
    rw [List.getElem?_concat_length, hphase]
  obtain ⟨hcalls, hstore⟩ :=
    callStore_of_claiming (n := { n with replica := r }) now later hlast rfl
  refine ⟨callStore { n with replica := r } n.replica.calls.length now later, rfl, ?_, hcalls,
    hstore⟩
  rw [replica_callStore]
  exact hlast

theorem returns_begun {key : JsString} {fingerprint : Option JsString} {now : Int}
    (hx : n.replica.calls[c]? = some { key, fingerprint, phase := .claiming })
    {store : RedisIdempotencyStore T} (hcall : n.calls c = some (store.claim key now).2)
    (hcached : ∀ cached, (store.l1.get key now).1 = some cached → cached = entry)
    (hblob : codec.encode entry = some blob) (hfrozen : frozen entry = false) :
    n.ReturnsIn frozen codec blob 5 c (settle entry fingerprint) := by
  unfold RedisIdempotencyStore.claim at hcall
  split at hcall
  next cached l1 hget =>
    obtain rfl := hcached cached (congrArg Prod.fst hget)
    exact (returns_claimed hx rfl hfrozen hcall).mono (by decide)
  · exact returns_setNx hx rfl hfrozen hblob hcall

end RedisNode

/-! ## The call in the cluster -/

namespace RedisCluster

variable {frozen : IdempotencyEnvelope T → Bool} {codec : IdempotencyCodec T} {keyPrefix : JsString}
  {s : RedisCluster T} {i c : Nat} {now later : Int} {key blob : JsString}

theorem setNode_setNode (n n' : RedisNode T) : (s.setNode i n).setNode i n' = s.setNode i n' := by
  unfold setNode
  dsimp only
  rw [update_idem]

theorem setNode_self : s.setNode i (s.nodes i) = s := by
  unfold setNode
  rw [update_eq_self]

theorem advance_eq (hkey : (s.nodes i).HasKey c key)
    (hredis : s.redis (keyPrefix ++ key) = some blob) :
    s.advance frozen codec keyPrefix i c now later =
      s.setNode i ((s.nodes i).advance frozen codec blob c now later) := by
  obtain ⟨x, hx, rfl⟩ := hkey
  -- a step of the process alone, if there is one
  have hlocal (n' : Option (RedisNode T)) :
      (n'.map (s.setNode i)).getD s = s.setNode i (n'.getD (s.nodes i)) := by
    cases n' with
    | none => exact setNode_self.symm
    | some n' => rfl
  unfold advance RedisNode.advance
  cases hcall : (s.nodes i).calls c with
  | none => exact setNode_self.symm
  | some call =>
    cases call with
    | setNx reply =>
      cases reply with
      | none =>
        show (s.execute keyPrefix i c).getD s = _
        unfold execute
        dsimp only
        rw [hx]
        dsimp only [bind, Option.bind]
        rw [hcall]
        dsimp only
        rw [hredis]
        rfl
      | some won => exact hlocal _
    | read deadline reply =>
      cases reply with
      | none =>
        show (s.execute keyPrefix i c).getD s = _
        unfold execute
        dsimp only
        rw [hx]
        dsimp only [bind, Option.bind]
        rw [hcall]
        dsimp only
        rw [hredis]
        rfl
      | some v => exact hlocal _
    | sleeping deadline | claimed claim | awaited existing | rejected => exact hlocal _

theorem solo_eq {n : RedisNode T} (hkey : n.HasKey c key)
    (hredis : s.redis (keyPrefix ++ key) = some blob) (clock : List (Int × Int)) :
    (s.setNode i n).solo frozen codec keyPrefix i c clock =
      s.setNode i (n.solo frozen codec blob c clock) := by
  induction clock generalizing n with
  | nil => rfl
  | cons t clock ih =>
    have hstep : (s.setNode i n).advance frozen codec keyPrefix i c t.1 t.2 =
        s.setNode i (n.advance frozen codec blob c t.1 t.2) := by
      have hkey' : ((s.setNode i n).nodes i).HasKey c key := by
        rw [nodes_setNode_self]
        exact hkey
      have hredis' : (s.setNode i n).redis (keyPrefix ++ key) = some blob := hredis
      rw [advance_eq hkey' hredis', nodes_setNode_self, setNode_setNode]
    show ((s.setNode i n).advance frozen codec keyPrefix i c t.1 t.2).solo frozen codec keyPrefix
      i c clock = _
    rw [hstep]
    exact ih hkey.advance

theorem ReturnsIn.of_node {n : RedisNode T} {k : Nat} {result : IdempotencyBegin T}
    (hkey : n.HasKey c key) (hredis : s.redis (keyPrefix ++ key) = some blob)
    (h : n.ReturnsIn frozen codec blob k c result) :
    (s.setNode i n).ReturnsIn frozen codec keyPrefix k i c result := by
  intro clock hlen
  obtain ⟨x, hx, hphase⟩ := h clock hlen
  rw [solo_eq hkey hredis, result?, nodes_setNode_self, hx, Option.bind_some, hphase]
  rfl

theorem returns_stored {fingerprint : Option JsString} {entry : IdempotencyEnvelope T}
    (hwired : (s.nodes i).replica.runtime.distributed = some {}) (hkey : key ≠ [])
    (hcold : (s.nodes i).Cold key now)
    (hcached : ∀ cached, ((s.nodes i).store.l1.get key now).1 = some cached → cached = entry)
    (hredis : s.redis (keyPrefix ++ key) = some blob) (hblob : codec.encode entry = some blob)
    (hfrozen : frozen entry = false) :
    ∃ s', s.step frozen codec keyPrefix (.begin i key fingerprint now) = some s' ∧
      s'.ReturnsIn frozen codec keyPrefix 5 i (s.nodes i).replica.calls.length
        (settle entry fingerprint) := by
  obtain ⟨n, hn, hx, hcall, -⟩ := RedisNode.begin_cold frozen fingerprint now hwired hkey hcold
  refine ⟨s.setNode i n, ?_, .of_node ⟨_, hx, rfl⟩ hredis
    (RedisNode.returns_begun hx hcall hcached hblob hfrozen)⟩
  rw [step, hn]
  rfl

end RedisCluster

end NevoMessaging
