import NevoMessaging.Idempotency.Erasure

/-!
# What another replica reads

Replica A executes and commits a value, and replica B begins later. With the default codec the value
goes through `JSON.stringify`, which throws on a big integer. `set` of the store catches that and
only logs it, so the marker of A stays in Redis, and B waits for a result until its deadline.

Results:
1. `starved_solo`: a call that finds the marker waits and then executes, whatever the clock shows.
2. `replayed_iff`: B returns the value of A exactly if there is no big integer in it.
-/

namespace NevoMessaging

open Function

variable {T : Type}

/-! ## Nothing in Redis but the marker -/

namespace LruIdempotencyCache

theorem get_of_find?_none {c : LruIdempotencyCache T} {key : JsString} (h : c.find? key = none)
    (now : Int) : c.get key now = (none, c) := by
  unfold get
  rw [h]
  split <;> rfl

end LruIdempotencyCache

namespace RedisNode

variable {frozen : IdempotencyEnvelope T → Bool} {codec : IdempotencyCodec T} {n : RedisNode T}
  {c : Nat} {key : JsString} {now later : Int}

/-- Where a call can stand that has seen nothing but the marker. -/
inductive Starving : BeginPhase T → Option (StoreCall T) → Prop
  | setNx : Starving .claiming (some (.setNx none))
  | lost : Starving .claiming (some (.setNx (some false)))
  | get : Starving .claiming (some (.read none none))
  | got : Starving .claiming (some (.read none (some (some idempotencyInProgress))))
  | claimed : Starving .claiming (some (.claimed { acquired := false }))
  | poll (deadline : Int) : Starving .polling (some (.read (some deadline) none))
  | polled (deadline : Int) :
      Starving .polling (some (.read (some deadline) (some (some idempotencyInProgress))))
  | sleeping (deadline : Int) : Starving .polling (some (.sleeping deadline))
  | awaited : Starving .polling (some (.awaited none))
  | executes : Starving (.returned .execute) none

structure Starved (n : RedisNode T) (c : Nat) (key : JsString) : Prop where
  wired : n.Wired
  store : n.store.l1.find? key = none
  call : ∃ x, n.replica.calls[c]? = some x ∧ x.key = key ∧ Starving x.phase (n.calls c)

theorem starving_poll (deadline now : Int) :
    Starving (T := T) .polling (some (RedisIdempotencyStore.poll deadline now)) := by
  unfold RedisIdempotencyStore.poll
  split
  · exact .poll deadline
  · exact .awaited

theorem Starved.update {x : BeginCall T} {call : StoreCall T} (h : n.Starved c key)
    (hx : n.replica.calls[c]? = some x) (hkey : x.key = key)
    (hcall : Starving x.phase (some call)) :
    Starved { n with calls := Function.update n.calls c (some call) } c key := by
  refine ⟨h.wired, h.store, x, hx, hkey, ?_⟩
  show Starving x.phase (Function.update n.calls c (some call) c)
  rw [update_self]
  exact hcall

theorem storeGoesOn_eq {f : JsString → StoreCall T → Option (RedisIdempotencyStore T × StoreCall T)}
    {x : BeginCall T} {call call' : StoreCall T} (hx : n.replica.calls[c]? = some x)
    (hcall : n.calls c = some call) (hf : f x.key call = some (n.store, call')) :
    n.storeGoesOn c f = some { n with calls := Function.update n.calls c (some call') } := by
  unfold storeGoesOn
  rw [hx, hcall]
  dsimp only [bind, Option.bind]
  rw [hf]

theorem awaitResult_of_find?_none {store : RedisIdempotencyStore T}
    (h : store.l1.find? key = none) (timeoutMs : Int) :
    store.awaitResult key timeoutMs now later =
      (store, RedisIdempotencyStore.poll (now + timeoutMs) later) := by
  unfold RedisIdempotencyStore.awaitResult
  rw [LruIdempotencyCache.get_of_find?_none h]

theorem Starved.claimed {x : BeginCall T} (h : n.Starved c key) (hx : n.replica.calls[c]? = some x)
    (hkey : x.key = key) (hphase : x.phase = .claiming)
    (hcall : n.calls c = some (.claimed { acquired := false })) :
    ((n.answer frozen c now later).getD n).Starved c key := by
  have hnext : n.replica.runtime.claimed frozen x.key x.fingerprint { acquired := false } now =
      (n.replica.runtime, .polling) := by
    unfold TwoTierIdempotency.claimed
    rw [if_neg Bool.false_ne_true, if_pos (by rw [h.wired]; rfl)]
  have hx' := Replica.calls_goOn_self hx (n.replica.runtime, .polling)
  rw [answer_claimed hx hphase hcall hnext, Option.getD_some, callStore]
  dsimp only
  rw [hx']
  dsimp only
  rw [awaitResult_of_find?_none (hkey ▸ h.store)]
  refine ⟨h.wired, h.store, _, hx', hkey, ?_⟩
  show Starving .polling (Function.update n.calls c _ c)
  rw [update_self]
  exact starving_poll _ later

theorem answer_awaited {existing : Option (IdempotencyEnvelope T)} {x : BeginCall T}
    {next : TwoTierIdempotency T × BeginPhase T} (hx : n.replica.calls[c]? = some x)
    (hphase : x.phase = .polling) (hcall : n.calls c = some (.awaited existing))
    (hnext : n.replica.runtime.awaited frozen x.key x.fingerprint existing now = next) :
    n.answer frozen c now later =
      some (callStore { n with replica := n.replica.goOn c x next } c now later) := by
  have hstep : n.replica.step frozen (.awaited c existing now) =
      some (n.replica.goOn c x next) := by
    unfold Replica.step
    dsimp only
    rw [hx]
    dsimp only [bind, Option.bind]
    rw [hphase]
    dsimp only
    rw [hnext]
  unfold answer
  rw [hcall]
  dsimp only
  rw [goOn, hstep]
  rfl

theorem Starved.awaited {x : BeginCall T} (h : n.Starved c key) (hx : n.replica.calls[c]? = some x)
    (hkey : x.key = key) (hphase : x.phase = .polling) (hcall : n.calls c = some (.awaited none)) :
    ((n.answer frozen c now later).getD n).Starved c key := by
  have hnext : n.replica.runtime.awaited frozen x.key x.fingerprint none now =
      (n.replica.runtime, .returned .execute) := rfl
  have hx' := Replica.calls_goOn_self hx (n.replica.runtime, .returned .execute)
  rw [answer_awaited hx hphase hcall hnext, Option.getD_some, callStore]
  dsimp only
  rw [hx']
  refine ⟨h.wired, h.store, _, hx', hkey, ?_⟩
  show Starving (.returned .execute) (Function.update n.calls c none c)
  rw [update_self]
  exact .executes

theorem Starved.advance (h : n.Starved c key) :
    (n.advance frozen codec idempotencyInProgress c now later).Starved c key := by
  obtain ⟨x, hx, hkey, hstarving⟩ := h.call
  unfold RedisNode.advance
  generalize hphase : x.phase = phase at hstarving
  generalize hcall : n.calls c = call at hstarving ⊢
  cases hstarving with
  | setNx => exact h.update hx hkey (hphase ▸ .lost)
  | lost =>
    dsimp only
    rw [RedisNode.reply, storeGoesOn_eq hx hcall rfl]
    exact h.update hx hkey (hphase ▸ .get)
  | get => exact h.update hx hkey (hphase ▸ .got)
  | got =>
    dsimp only
    have hf : n.store.replied frozen codec x.key now
        (.read none (some (some idempotencyInProgress))) =
        some (n.store, .claimed { acquired := false }) := rfl
    rw [RedisNode.reply, storeGoesOn_eq hx hcall hf]
    exact h.update hx hkey (hphase ▸ .claimed)
  | claimed => exact h.claimed hx hkey hphase hcall
  | poll deadline => exact h.update hx hkey (hphase ▸ .polled deadline)
  | polled deadline =>
    dsimp only
    have hf : n.store.replied frozen codec x.key now
        (.read (some deadline) (some (some idempotencyInProgress))) =
        some (n.store, .sleeping deadline) := rfl
    rw [RedisNode.reply, storeGoesOn_eq hx hcall hf]
    exact h.update hx hkey (hphase ▸ .sleeping deadline)
  | sleeping deadline =>
    dsimp only
    rw [RedisNode.wake, storeGoesOn_eq hx hcall rfl]
    exact h.update hx hkey (hphase ▸ starving_poll deadline now)
  | awaited => exact h.awaited hx hkey hphase hcall
  | executes => exact h

theorem starved_solo (h : n.Starved c key) (clock : List (Int × Int)) :
    (n.solo frozen codec idempotencyInProgress c clock).Starved c key := by
  induction clock generalizing n with
  | nil => exact h
  | cons t clock ih => exact ih h.advance

theorem Starved.not_hit {x : BeginCall T} {v : T} (h : n.Starved c key)
    (hx : n.replica.calls[c]? = some x) : x.phase ≠ .returned (.hit v) := by
  obtain ⟨y, hy, -, hstarving⟩ := h.call
  cases hx.symm.trans hy
  intro hphase
  rw [hphase] at hstarving
  cases hstarving

end RedisNode

/-! ## The commit -/

namespace RedisNode

/-- There is nothing about the key in the memory of the process. -/
structure Untouched (n : RedisNode T) (key : JsString) : Prop where
  l1 : n.replica.runtime.l1.find? key = none
  inflight : n.replica.runtime.inflight key = none
  store : n.store.l1.find? key = none

variable {frozen : IdempotencyEnvelope T → Bool} {codec : IdempotencyCodec T} {n : RedisNode T}
  {c : Nat} {key : JsString} {now : Int} {fingerprint : Option JsString} {value : T}

theorem Untouched.cold (h : n.Untouched key) : n.Cold key now :=
  ⟨by rw [LruIdempotencyCache.get_of_find?_none h.l1], h.inflight⟩

theorem claim_of_untouched (h : n.Untouched key) :
    n.store.claim key now = (n.store, .setNx none) := by
  unfold RedisIdempotencyStore.claim
  rw [LruIdempotencyCache.get_of_find?_none h.store]

theorem commit_sends (hkey : key ≠ []) (henabled : n.store.l1.enabled)
    (hcommit : (n.replica.runtime.commit frozen key value fingerprint now).isSome) :
    (n.commit frozen codec c key value fingerprint now).2 =
      if frozen (idempotencyEnvelope value fingerprint) then none
      else codec.encode (idempotencyEnvelope value fingerprint) := by
  obtain ⟨runtime, hruntime⟩ := Option.isSome_iff_exists.mp hcommit
  unfold commit
  rw [hruntime]
  dsimp only
  rw [if_neg hkey]
  dsimp only
  unfold RedisIdempotencyStore.set LruIdempotencyCache.set
  rw [if_pos henabled]
  split
  next h =>
    split at h
    next hfrozen => rw [if_pos hfrozen]
    · cases h
  next l1 h =>
    split at h
    · cases h
    next hfrozen => rw [if_neg hfrozen]

end RedisNode

namespace RedisCluster

variable (frozen : IdempotencyEnvelope T → Bool) (codec : IdempotencyCodec T) (keyPrefix : JsString)

/-- `commit` until it resolves, which is after Redis has executed its write. It is rejected if the
value cannot be written into. -/
def commitAwaited (s : RedisCluster T) (i c : Nat) (key : JsString) (value : T)
    (fingerprint : Option JsString) (now : Int) : Option (RedisCluster T) := do
  let _ ← (s.nodes i).replica.runtime.commit frozen key value fingerprint now
  let s' ← s.step frozen codec keyPrefix (.commit i c key value fingerprint now)
  some ((s'.write s.writes.length).getD s')

variable {frozen codec keyPrefix} {s s' : RedisCluster T} {i c : Nat} {key : JsString} {value : T}
  {fingerprint : Option JsString} {now : Int}

theorem commitAwaited_spec
    (h : s.commitAwaited frozen codec keyPrefix i c key value fingerprint now = some s') :
    ((s.nodes i).replica.runtime.commit frozen key value fingerprint now).isSome ∧
      ∃ t, s.step frozen codec keyPrefix (.commit i c key value fingerprint now) = some t ∧
        s' = (t.write s.writes.length).getD t := by
  obtain ⟨runtime, hruntime, h⟩ := Option.bind_eq_some_iff.mp h
  obtain ⟨t, ht, h⟩ := Option.bind_eq_some_iff.mp h
  exact ⟨by rw [hruntime]; rfl, t, ht, (Option.some.inj h).symm⟩

theorem redis_commitAwaited (hkey : key ≠ []) (henabled : (s.nodes i).store.l1.enabled)
    (h : s.commitAwaited frozen codec keyPrefix i c key value fingerprint now = some s') :
    s'.redis (keyPrefix ++ key) =
      if frozen (idempotencyEnvelope value fingerprint) then s.redis (keyPrefix ++ key)
      else match codec.encode (idempotencyEnvelope value fingerprint) with
        | some blob => some blob
        | none => s.redis (keyPrefix ++ key) := by
  obtain ⟨hcommit, t, ht, rfl⟩ := commitAwaited_spec h
  have hredis := (closes_commit ht).redis
  have hwrites := (closes_commit ht).writes
  rw [RedisNode.commit_sends hkey henabled hcommit] at hwrites
  unfold write
  rw [hwrites, List.getElem?_concat_length]
  split
  next hfrozen =>
    show (Option.getD none t).redis _ = _
    rw [Option.getD_none, hredis]
  next hfrozen =>
    cases codec.encode (idempotencyEnvelope value fingerprint) with
    | none =>
      show (Option.getD none t).redis _ = _
      rw [Option.getD_none, hredis]
    | some blob =>
      show update t.redis (keyPrefix ++ key) (some blob) (keyPrefix ++ key) = _
      rw [update_self]

/-! ## The claim of A -/

theorem redis_solo {blob : JsString} (hkey : (s.nodes i).HasKey c key)
    (hredis : s.redis (keyPrefix ++ key) = some blob) (clock : List (Int × Int)) :
    (s.solo frozen codec keyPrefix i c clock).redis = s.redis := by
  have heq : (s.setNode i (s.nodes i)).solo frozen codec keyPrefix i c clock =
      s.setNode i ((s.nodes i).solo frozen codec blob c clock) := solo_eq hkey hredis clock
  rw [setNode_self] at heq
  rw [heq]
  rfl

theorem marked_of_execute {x : BeginCall T} {clock : List (Int × Int)}
    (hx : (s.nodes i).replica.calls[c]? = some x) (hphase : x.phase = .claiming)
    (hcall : (s.nodes i).calls c = some (.setNx none))
    (hredis : s.redis (keyPrefix ++ x.key) = none)
    (h : (s.solo frozen codec keyPrefix i c clock).result? i c = some .execute) :
    (s.solo frozen codec keyPrefix i c clock).redis (keyPrefix ++ x.key) =
      some idempotencyInProgress := by
  cases clock with
  | nil =>
    have hnone : s.result? i c = none := by
      rw [result?, hx, Option.bind_some, hphase]
      rfl
    cases hnone.symm.trans h
  | cons t clock =>
    have hadvance : ∃ s₁, s.advance frozen codec keyPrefix i c t.1 t.2 = s₁ ∧
        (s₁.nodes i).HasKey c x.key ∧
        s₁.redis (keyPrefix ++ x.key) = some idempotencyInProgress := by
      refine ⟨_, rfl, ?_⟩
      unfold advance
      rw [hcall]
      show ((((s.execute keyPrefix i c).getD s).nodes i).HasKey c x.key) ∧
        ((s.execute keyPrefix i c).getD s).redis _ = _
      unfold execute
      dsimp only
      rw [hx]
      dsimp only [bind, Option.bind]
      rw [hcall]
      dsimp only
      rw [hredis]
      refine ⟨⟨x, ?_, rfl⟩, update_self ..⟩
      show ((update s.nodes i _ i).replica.calls[c]?) = some x
      rw [update_self]
      exact hx
    obtain ⟨s₁, hs₁, hkey, hmark⟩ := hadvance
    show ((s.advance frozen codec keyPrefix i c t.1 t.2).solo frozen codec keyPrefix i c
      clock).redis _ = _
    rw [hs₁, redis_solo hkey hmark]
    exact hmark

/-! ## The call of B -/

theorem solo_of_none (h : (s.nodes i).calls c = none) (clock : List (Int × Int)) :
    s.solo frozen codec keyPrefix i c clock = s := by
  refine List.foldl_fixed' (fun t => ?_) clock
  unfold advance
  rw [h]

theorem not_returnsIn_of_empty {k : Nat}
    (hs : s.step frozen codec keyPrefix (.begin i [] fingerprint now) = some s') :
    ¬ s'.ReturnsIn frozen codec keyPrefix k i (s.nodes i).replica.calls.length (.hit value) := by
  intro h
  have hreturned := h (List.replicate k (0, 0)) (by rw [List.length_replicate])
  rw [step] at hs
  obtain ⟨n, hn, rfl⟩ := Option.map_eq_some_iff.mp hs
  obtain ⟨r, hr, rfl⟩ := RedisNode.goOn_spec hn
  have hlast : r.calls[(s.nodes i).replica.calls.length]? =
      some { key := [], fingerprint, phase := .returned .execute } := by
    obtain rfl := Replica.step_begin hr
    exact List.getElem?_concat_length
  rw [solo_of_none, result?, nodes_setNode_self, RedisNode.replica_callStore] at hreturned
  · dsimp only at hreturned
    rw [hlast] at hreturned
    cases hreturned
  · rw [nodes_setNode_self]
    exact RedisNode.calls_callStore_of_returned (n := { s.nodes i with replica := r }) hlast rfl

theorem not_returnsIn_of_marked {k : Nat} (hwired : (s.nodes i).Wired) (hkey : key ≠ [])
    (huntouched : (s.nodes i).Untouched key)
    (hredis : s.redis (keyPrefix ++ key) = some idempotencyInProgress)
    (hs : s.step frozen codec keyPrefix (.begin i key fingerprint now) = some s') :
    ¬ s'.ReturnsIn frozen codec keyPrefix k i (s.nodes i).replica.calls.length (.hit value) := by
  intro h
  have hreturned := h (List.replicate k (0, 0)) (by rw [List.length_replicate])
  have hcold : (s.nodes i).Cold key now := huntouched.cold
  obtain ⟨n, hn, hx, hcall, hstore⟩ :=
    RedisNode.begin_cold frozen fingerprint now hwired hkey hcold
  rw [RedisNode.claim_of_untouched huntouched] at hcall hstore
  have hstarved : n.Starved (s.nodes i).replica.calls.length key := by
    refine ⟨?_, by rw [hstore]; exact huntouched.store, _, hx, rfl, ?_⟩
    · obtain ⟨r, hr, rfl⟩ := RedisNode.goOn_spec hn
      exact hwired.step hr
    · rw [hcall]
      exact .setNx
  rw [step, hn] at hs
  cases hs
  rw [show (s.setNode i n).solo frozen codec keyPrefix i _ _ = _ from
    solo_eq ⟨_, hx, rfl⟩ hredis _, result?, nodes_setNode_self] at hreturned
  obtain ⟨x, hlast, hresult⟩ := Option.bind_eq_some_iff.mp hreturned
  exact (RedisNode.starved_solo hstarved _).not_hit hlast (BeginPhase.eq_returned hresult)

/-! ## Reachable states -/

variable {opts : Nat → RedisNodeOptions}

theorem reach_step {a : RedisAction T}
    (h : (redisMachine frozen codec keyPrefix opts).Reach Machine.free s)
    (hs : s.step frozen codec keyPrefix a = some s') :
    (redisMachine frozen codec keyPrefix opts).Reach Machine.free s' := by
  refine h.step (a := a) trivial ?_
  exact hs

theorem reach_solo (h : (redisMachine frozen codec keyPrefix opts).Reach Machine.free s)
    (clock : List (Int × Int)) :
    (redisMachine frozen codec keyPrefix opts).Reach Machine.free
      (s.solo frozen codec keyPrefix i c clock) := by
  induction clock generalizing s with
  | nil => exact h
  | cons t clock ih =>
    refine ih ?_
    show (redisMachine frozen codec keyPrefix opts).Reach Machine.free
      (s.advance frozen codec keyPrefix i c t.1 t.2)
    unfold advance
    split
    · exact h
    next call _ =>
      cases hs : s.step frozen codec keyPrefix (nextAction i c t.1 t.2 call) with
      | none => exact h
      | some s' => exact reach_step h hs

theorem reach_commitAwaited (h : (redisMachine frozen codec keyPrefix opts).Reach Machine.free s)
    (hs : s.commitAwaited frozen codec keyPrefix i c key value fingerprint now = some s') :
    (redisMachine frozen codec keyPrefix opts).Reach Machine.free s' := by
  obtain ⟨-, t, ht, rfl⟩ := commitAwaited_spec hs
  have hreach := reach_step h ht
  cases hw : t.write s.writes.length with
  | none => exact hreach
  | some t' =>
    have hwrite : t.step frozen codec keyPrefix (.write s.writes.length) = some t' := hw
    exact reach_step hreach hwrite

theorem wired_reach {ok : RedisCluster T → RedisAction T → Prop}
    (h : (redisMachine frozen codec keyPrefix opts).Reach ok s) (d : Nat) : (s.nodes d).Wired := by
  revert d
  exact h.invariant (fun _ => rfl) fun _ hwired _ hs => wired_step hwired hs

end RedisCluster

theorem jsonCodec_encode (entry : IdempotencyEnvelope Json) :
    (jsonCodec.encode entry).isSome = entry.v.plain := by
  have hplain : entry.toJson.plain = entry.v.plain := by
    obtain ⟨_ | f, v⟩ := entry
    · exact Bool.and_true _
    · exact Bool.and_true _
  rw [← hplain]
  exact Json.stringify_isSome entry.toJson

/-- Replica `i` begins while nobody has anything about the key, executes and commits a value. Then a
call of `begin` on replica `j`, which has nothing about the key in its memory, returns this value if
and only if the key is not empty, there is no big integer in the value, and the value could be
written into. -/
theorem replayed_iff (frozen : IdempotencyEnvelope Json → Bool) (keyPrefix : JsString)
    (opts : Nat → RedisNodeOptions) (s s₁ s₂ s₃ : RedisCluster Json) (i j : Nat) (key : JsString)
    (value : Json) (f g : Option JsString) (now now' later : Int) (clock : List (Int × Int))
    (hs : (redisMachine frozen jsonCodec keyPrefix opts).Reach Machine.free s)
    (hfree : s.redis (keyPrefix ++ key) = none) (huntouched : (s.nodes i).Untouched key)
    (hbegin : s.step frozen jsonCodec keyPrefix (.begin i key g now) = some s₁)
    (hexecute : (s₁.solo frozen jsonCodec keyPrefix i (s.nodes i).replica.calls.length
      clock).result?
      i (s.nodes i).replica.calls.length = some .execute)
    (hcommit : (s₁.solo frozen jsonCodec keyPrefix i (s.nodes i).replica.calls.length
      clock).commitAwaited frozen jsonCodec keyPrefix i (s.nodes i).replica.calls.length key value f
      now' = some s₂)
    (hlater : ((redisMachine frozen jsonCodec keyPrefix opts).restart s₂).Reach Machine.free s₃)
    (hsame : s₃.redis (keyPrefix ++ key) = s₂.redis (keyPrefix ++ key))
    (huntouched' : (s₃.nodes j).Untouched key) :
    (∃ k s₄, s₃.step frozen jsonCodec keyPrefix (.begin j key none later) = some s₄ ∧
      s₄.ReturnsIn frozen jsonCodec keyPrefix k j (s₃.nodes j).replica.calls.length (.hit value)) ↔
    key ≠ [] ∧ value.plain ∧ frozen (idempotencyEnvelope value f) = false := by
  have hreach₁ := RedisCluster.reach_step hs hbegin
  have hreach := RedisCluster.reach_solo (i := i) (c := (s.nodes i).replica.calls.length)
    hreach₁ clock
  have hreach₃ := (RedisCluster.reach_commitAwaited hreach hcommit).restart hlater
  by_cases hkey : key = []
  · subst hkey
    refine ⟨?_, fun h => absurd rfl h.1⟩
    rintro ⟨k, s₄, hs₄, hreturns⟩
    exact absurd hreturns (RedisCluster.not_returnsIn_of_empty hs₄)
  -- the claim of `i` has left its marker
  obtain ⟨n, hn, hx, hcall, -⟩ :=
    RedisNode.begin_cold frozen g now (RedisCluster.wired_reach hs i) hkey huntouched.cold
  rw [RedisNode.claim_of_untouched huntouched] at hcall
  have hs₁ : s₁ = s.setNode i n := by
    rw [RedisCluster.step, hn] at hbegin
    exact (Option.some.inj hbegin).symm
  have hmark : (s₁.solo frozen jsonCodec keyPrefix i (s.nodes i).replica.calls.length clock).redis
      (keyPrefix ++ key) = some idempotencyInProgress := by
    subst hs₁
    exact RedisCluster.marked_of_execute (by rw [RedisCluster.nodes_setNode_self]; exact hx) rfl
      (by rw [RedisCluster.nodes_setNode_self]; exact hcall) hfree hexecute
  have hredis := RedisCluster.redis_commitAwaited hkey
    ((stocked_reach hreach).nodes i).holds.enabled
    hcommit
  rw [hmark, ← hsame] at hredis
  have hencode : (jsonCodec.encode (idempotencyEnvelope value f)).isSome = value.plain :=
    jsonCodec_encode (idempotencyEnvelope value f)
  constructor
  · rintro ⟨k, s₄, hs₄, hreturns⟩
    by_contra hnot
    refine RedisCluster.not_returnsIn_of_marked (RedisCluster.wired_reach hreach₃ j)
      hkey huntouched'
      ?_ hs₄ hreturns
    rw [hredis]
    split
    · rfl
    next hfrozen =>
      cases hblob : jsonCodec.encode (idempotencyEnvelope value f) with
      | none => rfl
      | some blob =>
        rw [hblob] at hencode
        exact absurd ⟨hkey, hencode.symm, Bool.eq_false_iff.mpr hfrozen⟩ hnot
  · rintro ⟨-, hplain, hfrozen⟩
    rw [hplain] at hencode
    obtain ⟨blob, hblob⟩ := Option.isSome_iff_exists.mp hencode
    rw [hfrozen, if_neg Bool.false_ne_true, hblob] at hredis
    have hcached : ∀ cached, ((s₃.nodes j).store.l1.get key later).1 = some cached →
        cached = idempotencyEnvelope value f := by
      intro cached hcached
      rw [LruIdempotencyCache.get_of_find?_none huntouched'.store] at hcached
      cases hcached
    have hsettle : settle (idempotencyEnvelope value f) none = .hit value := by
      cases f <;> rfl
    rw [← hsettle]
    exact ⟨5, RedisCluster.returns_stored (RedisCluster.wired_reach hreach₃ j) hkey
      huntouched'.cold hcached hredis hblob hfrozen⟩

/-- The first process claims the key. -/
def claimed : Option (RedisCluster Json) := do
  let s ← defaultMachine.init.step (fun _ => false) jsonCodec (.lit "nevo:idem:")
    (.begin 0 (.lit "k") none 0)
  some (s.solo (fun _ => false) jsonCodec (.lit "nevo:idem:") 0 0 [(0, 0), (0, 0), (0, 0)])

/-- It commits the value, and the second process begins and goes on by the given clock. -/
def thenReads (s : RedisCluster Json) (value : Json) (clock : List (Int × Int)) :
    Option (RedisCluster Json) := do
  let s₁ ← s.commitAwaited (fun _ => false) jsonCodec (.lit "nevo:idem:") 0 0 (.lit "k")
    value none 1
  let s₂ ← s₁.step (fun _ => false) jsonCodec (.lit "nevo:idem:") (.begin 1 (.lit "k") none 2)
  some (s₂.solo (fun _ => false) jsonCodec (.lit "nevo:idem:") 1 0 clock)

theorem replayed_iff_text : ∃ s₀ s s₁ : RedisCluster Json,
    defaultMachine.init.step (fun _ => false) jsonCodec (.lit "nevo:idem:")
      (.begin 0 (.lit "k") none 0) = some s₀ ∧
    s₀.solo (fun _ => false) jsonCodec (.lit "nevo:idem:") 0 0 [(0, 0), (0, 0), (0, 0)] = s ∧
    s.result? 0 0 = some .execute ∧
    s.commitAwaited (fun _ => false) jsonCodec (.lit "nevo:idem:") 0 0 (.lit "k") (.str (.lit "ok"))
      none 1 = some s₁ ∧
    ∃ k s₂, s₁.step (fun _ => false) jsonCodec (.lit "nevo:idem:") (.begin 1 (.lit "k") none 2) =
        some s₂ ∧
      s₂.ReturnsIn (fun _ => false) jsonCodec (.lit "nevo:idem:") k 1
        (s₁.nodes 1).replica.calls.length (.hit (.str (.lit "ok"))) := by
  have hrun : ((defaultMachine.init.step (fun _ => false) jsonCodec (.lit "nevo:idem:")
      (.begin 0 (.lit "k") none 0)).bind fun s₀ =>
        let s := s₀.solo (fun _ => false) jsonCodec (.lit "nevo:idem:") 0 0 [(0, 0), (0, 0), (0, 0)]
        (s.commitAwaited (fun _ => false) jsonCodec (.lit "nevo:idem:") 0 0 (.lit "k")
          (.str (.lit "ok")) none 1).map fun s₁ =>
            (s.executes 0 0, ((s₁.nodes 1).replica.runtime.l1.find? (.lit "k")).isNone &&
              ((s₁.nodes 1).replica.runtime.inflight (.lit "k")).isNone &&
              ((s₁.nodes 1).store.l1.find? (.lit "k")).isNone)) = some (true, true) := by
    decide +kernel
  obtain ⟨s₀, hs₀, hrun⟩ := Option.bind_eq_some_iff.mp hrun
  obtain ⟨s₁, hs₁, hobs⟩ := Option.map_eq_some_iff.mp hrun
  obtain ⟨hexecutes, hrest⟩ := Prod.mk.inj hobs
  rw [Bool.and_eq_true, Bool.and_eq_true] at hrest
  obtain ⟨⟨hl1, hinflight⟩, hstore⟩ := hrest
  have hexecute := RedisCluster.result_of_executes hexecutes
  refine ⟨s₀, _, s₁, hs₀, rfl, hexecute, hs₁, ?_⟩
  have hiff := replayed_iff (fun _ => false) (.lit "nevo:idem:") (fun _ => {})
    defaultMachine.init s₀
    s₁ s₁ 0 1 (.lit "k") (.str (.lit "ok")) none none 0 1 2 [(0, 0), (0, 0), (0, 0)] .init rfl
    ⟨rfl, rfl, rfl⟩ hs₀ hexecute hs₁ .init rfl
    ⟨Option.isNone_iff_eq_none.mp hl1, Option.isNone_iff_eq_none.mp hinflight,
      Option.isNone_iff_eq_none.mp hstore⟩
  exact hiff.mpr ⟨by decide, by decide, rfl⟩

/-- The big integer 1 is committed. The second process loses the claim, waits, wakes after its
deadline and executes. -/
theorem bigint_not_replayed : ∃ s s', claimed = some s ∧ s.result? 0 0 = some .execute ∧
    thenReads s (.bigint 1) [(2, 2), (2, 2), (2, 2), (2, 2), (2, 2), (2, 2), (2, 2), (5002, 5002),
      (5002, 5002)] = some s' ∧ s'.result? 1 0 = some .execute := by
  have hrun : (claimed.bind fun s => (thenReads s (.bigint 1)
    [(2, 2), (2, 2), (2, 2), (2, 2), (2, 2),
      (2, 2), (2, 2), (5002, 5002), (5002, 5002)]).map fun s' =>
        (s.executes 0 0, s'.executes 1 0)) = some (true, true) := by
    decide +kernel
  obtain ⟨s, hs, hrun⟩ := Option.bind_eq_some_iff.mp hrun
  obtain ⟨s', hs', hobs⟩ := Option.map_eq_some_iff.mp hrun
  obtain ⟨hfirst, hsecond⟩ := Prod.mk.inj hobs
  exact ⟨s, s', hs, RedisCluster.result_of_executes hfirst, hs',
    RedisCluster.result_of_executes hsecond⟩

end NevoMessaging
