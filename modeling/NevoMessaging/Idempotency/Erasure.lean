import NevoMessaging.Idempotency.Owner
import NevoMessaging.Idempotency.Solo

/-!
# A committed result is not erased

Everything that a process or Redis holds for a key was committed for this key (`Stocked`), in every
run. In an undisturbed run there is at most one commit for a key, so from then on every place holds
its entry or nothing.

Results:
1. `stocked_reach`: where the entries of the cluster come from.
2. `committed_result_stays`: in an undisturbed run a result in Redis stays.
3. `executes_alone`, `answers_committed`: who executes, and what the others are told.
-/

namespace NevoMessaging

open List Function

variable {T : Type} {known known' : JsString → IdempotencyEnvelope T → Prop}
  {frozen : IdempotencyEnvelope T → Bool} {codec : IdempotencyCodec T} {keyPrefix : JsString}

section Known

variable (frozen codec)

/-- The text of an entry of the key. -/
def TextOf (known : JsString → IdempotencyEnvelope T → Prop) (key blob : JsString) : Prop :=
  key ≠ [] ∧ ∃ entry, known key entry ∧ frozen entry = false ∧ codec.encode entry = some blob

def Readable (known : JsString → IdempotencyEnvelope T → Prop) (key blob : JsString) : Prop :=
  blob = idempotencyInProgress ∨ TextOf frozen codec known key blob

/-- What the call of the store has seen so far is known for its key. -/
def StoreCall.Known (known : JsString → IdempotencyEnvelope T → Prop) (key : JsString) :
    StoreCall T → Prop
  | .read _ (some (some blob)) => Readable frozen codec known key blob
  | .claimed claim => ∀ entry, claim.existing = some entry → known key entry
  | .awaited existing => ∀ entry, existing = some entry → known key entry
  | _ => True

/-- The store is enabled, and its cache holds known entries. -/
structure RedisIdempotencyStore.Holds (known : JsString → IdempotencyEnvelope T → Prop)
    (store : RedisIdempotencyStore T) : Prop where
  enabled : store.l1.enabled
  cached : ∀ key m, store.l1.find? key = some m → known key m.value

structure RedisNode.Stocked (known : JsString → IdempotencyEnvelope T → Prop) (n : RedisNode T) :
    Prop where
  sourced : Sourced known n.replica
  holds : n.store.Holds known
  calls : ∀ (c : Nat) (x : BeginCall T) (call : StoreCall T), n.replica.calls[c]? = some x →
    n.calls c = some call → call.Known frozen codec known x.key

def RedisCluster.committed (s : RedisCluster T) (key : JsString)
    (entry : IdempotencyEnvelope T) : Prop :=
  (key, entry) ∈ s.commits

structure RedisCluster.Stocked (keyPrefix : JsString) (s : RedisCluster T) : Prop where
  nodes : ∀ i, (s.nodes i).Stocked frozen codec s.committed
  redis : ∀ key blob, s.redis (keyPrefix ++ key) = some blob →
    Readable frozen codec s.committed key blob
  writes : ∀ (j : Nat) (w : RedisWrite) (key blob : JsString), s.writes[j]? = some (some w) →
    w.key = keyPrefix ++ key → w.value = some blob → TextOf frozen codec s.committed key blob

end Known

section Mono

variable (hknown : known ≤ known')
include hknown

theorem TextOf.mono {key blob : JsString} (h : TextOf frozen codec known key blob) :
    TextOf frozen codec known' key blob := by
  obtain ⟨hkey, entry, hentry, hrest⟩ := h
  exact ⟨hkey, entry, hknown key entry hentry, hrest⟩

theorem Readable.mono {key blob : JsString} (h : Readable frozen codec known key blob) :
    Readable frozen codec known' key blob :=
  h.imp_right (TextOf.mono hknown)

theorem StoreCall.Known.mono {key : JsString} {call : StoreCall T}
    (h : call.Known frozen codec known key) : call.Known frozen codec known' key := by
  cases call with
  | setNx reply | sleeping deadline | rejected => trivial
  | read deadline reply =>
    rcases reply with _ | _ | blob
    · trivial
    · trivial
    · exact Readable.mono hknown h
  | claimed claim | awaited existing => exact fun entry he => hknown key entry (h entry he)

theorem RedisNode.Stocked.mono {n : RedisNode T} (h : n.Stocked frozen codec known) :
    n.Stocked frozen codec known' :=
  ⟨h.sourced.mono hknown, ⟨h.holds.enabled, fun key m hm =>
    hknown key m.value (h.holds.cached key m hm)⟩,
    fun c x call hx hcall => (h.calls c x call hx hcall).mono hknown⟩

end Mono

/-! ## The store -/

namespace RedisIdempotencyStore

variable {store : RedisIdempotencyStore T} {key : JsString} {now later timeoutMs : Int}

theorem Holds.get (h : Holds known store) (key : JsString) (now : Int) :
    Holds known { store with l1 := (store.l1.get key now).2 } ∧
      ∀ entry, (store.l1.get key now).1 = some entry → known key entry := by
  refine ⟨⟨LruIdempotencyCache.enabled_get.trans h.enabled, fun k m hm =>
    h.cached k m (LruIdempotencyCache.of_find?_get hm)⟩, fun entry hentry => ?_⟩
  obtain ⟨m, hm, rfl⟩ := LruIdempotencyCache.value_of_get hentry
  exact h.cached key m hm

theorem Holds.write {l1 : LruIdempotencyCache (IdempotencyEnvelope T)}
    {entry : IdempotencyEnvelope T} (h : Holds known store) (hentry : known key entry)
    (hset : store.l1.set frozen key entry now = some l1) : Holds known { store with l1 } := by
  refine ⟨(LruIdempotencyCache.enabled_set hset).trans h.enabled, fun k m hm => ?_⟩
  rcases LruIdempotencyCache.of_find?_set hset hm with ⟨rfl, hvalue⟩ | hold
  · exact hvalue ▸ hentry
  · exact h.cached k m hold

theorem Holds.claim (h : Holds known store) :
    Holds known (store.claim key now).1 ∧ (store.claim key now).2.Known frozen codec known key := by
  obtain ⟨hl1, hfound⟩ := h.get key now
  unfold RedisIdempotencyStore.claim
  split
  next cached l1 hget =>
    rw [hget] at hl1 hfound
    refine ⟨hl1, ?_⟩
    rintro _ ⟨rfl⟩
    exact hfound cached rfl
  next l1 hget =>
    rw [hget] at hl1
    exact ⟨hl1, trivial⟩

theorem Holds.awaitResult (h : Holds known store) :
    Holds known (store.awaitResult key timeoutMs now later).1 ∧
      (store.awaitResult key timeoutMs now later).2.Known frozen codec known key := by
  obtain ⟨hl1, hfound⟩ := h.get key now
  unfold RedisIdempotencyStore.awaitResult
  split
  next cached l1 hget =>
    rw [hget] at hl1 hfound
    refine ⟨hl1, ?_⟩
    rintro _ ⟨rfl⟩
    exact hfound cached rfl
  next l1 hget =>
    rw [hget] at hl1
    refine ⟨hl1, ?_⟩
    unfold poll
    dsimp only
    split
    · trivial
    · exact nofun

theorem Holds.readReal {v : Option JsString} (h : Holds known store)
    (hv : ∀ blob, v = some blob → Readable frozen codec known key blob) :
    Holds known (store.readReal frozen codec key v now).1 ∧
      ∀ entry, (store.readReal frozen codec key v now).2 = some entry → known key entry := by
  unfold RedisIdempotencyStore.readReal
  cases v with
  | none => exact ⟨h, nofun⟩
  | some blob =>
    dsimp only
    split
    · exact ⟨h, nofun⟩
    next hne =>
      -- the text is that of a known entry, which is what it is decoded to
      obtain hmark | ⟨-, entry, hentry, -, hencode⟩ := hv blob rfl
      · exact absurd hmark hne
      · rw [codec.decode_encode entry blob hencode]
        dsimp only
        split
        · exact ⟨h, nofun⟩
        next l1 hset =>
          refine ⟨h.write hentry hset, ?_⟩
          rintro _ ⟨rfl⟩
          exact hentry

theorem Holds.replied {call call' : StoreCall T} {store' : RedisIdempotencyStore T}
    (h : Holds known store) (hcall : call.Known frozen codec known key)
    (hs : store.replied frozen codec key now call = some (store', call')) :
    Holds known store' ∧ call'.Known frozen codec known key := by
  have hread {deadline : Option Int} {v : Option JsString}
      (hv : (StoreCall.read deadline (some v)).Known frozen codec known key) :
      Holds known (store.readReal frozen codec key v now).1 ∧
        ∀ entry, (store.readReal frozen codec key v now).2 = some entry → known key entry := by
    refine h.readReal fun blob hblob => ?_
    subst hblob
    exact hv
  unfold RedisIdempotencyStore.replied at hs
  split at hs
  · cases hs
    exact ⟨h, nofun⟩
  · cases hs
    exact ⟨h, trivial⟩
  · cases hs
    exact hread hcall
  next deadline v =>
    have hread := hread hcall
    split at hs
    next store'' entry hreal =>
      rw [hreal] at hread
      cases hs
      exact hread
    next store'' hreal =>
      rw [hreal] at hread
      cases hs
      exact ⟨hread.1, trivial⟩
  · cases hs

theorem Holds.failed {call call' : StoreCall T} (hs : store.failed call = some call') :
    call'.Known frozen codec known key := by
  have herror {call : StoreCall T} (h : call.Known frozen codec known key) :
      (store.onReadError call).Known frozen codec known key := by
    unfold onReadError
    split
    · exact h
    · trivial
  unfold RedisIdempotencyStore.failed at hs
  split at hs
  · cases hs
    exact herror nofun
  · cases hs
    exact herror nofun
  · cases hs
    exact herror nofun
  · cases hs

theorem Holds.set {value : IdempotencyEnvelope T} (h : Holds known store) (hkey : key ≠ [])
    (hvalue : known key value) :
    Holds known (store.set frozen codec key value now).1 ∧
      ∀ blob, (store.set frozen codec key value now).2 = some blob →
        TextOf frozen codec known key blob := by
  unfold RedisIdempotencyStore.set
  split
  · exact ⟨h, nofun⟩
  next l1 hset =>
    refine ⟨h.write hvalue hset, fun blob hblob => ⟨hkey, value, hvalue, ?_, hblob⟩⟩
    unfold LruIdempotencyCache.set at hset
    rw [if_pos h.enabled] at hset
    split at hset
    · cases hset
    next hfrozen => exact Bool.eq_false_iff.mpr hfrozen

theorem Holds.delete (h : Holds known store) : Holds known (store.delete key) :=
  ⟨h.enabled, fun k m hm => h.cached k m (LruIdempotencyCache.of_find?_delete hm)⟩

end RedisIdempotencyStore

/-! ## One process -/

namespace RedisNode

variable {n n' : RedisNode T} {c : Nat} {now later : Int} {a : ReplicaAction T}

theorem stocked_update {store : RedisIdempotencyStore T} {call : Option (StoreCall T)}
    (hsourced : Sourced known n.replica)
    (hcalls : ∀ (d : Nat) (x : BeginCall T) (y : StoreCall T), d ≠ c →
      n.replica.calls[d]? = some x → n.calls d = some y → y.Known frozen codec known x.key)
    (hstore : store.Holds known)
    (hcall : ∀ x y, n.replica.calls[c]? = some x → call = some y →
      y.Known frozen codec known x.key) :
    Stocked frozen codec known { n with store, calls := Function.update n.calls c call } := by
  refine ⟨hsourced, hstore, fun d x y hx hy => ?_⟩
  dsimp only at hy
  by_cases hd : d = c
  · subst hd
    rw [update_self] at hy
    exact hcall x y hx hy
  · rw [update_of_ne hd] at hy
    exact hcalls d x y hd hx hy

theorem stocked_callStore (hsourced : Sourced known n.replica) (hstore : n.store.Holds known)
    (hcalls : ∀ (d : Nat) (x : BeginCall T) (y : StoreCall T), d ≠ c →
      n.replica.calls[d]? = some x → n.calls d = some y → y.Known frozen codec known x.key) :
    (n.callStore c now later).Stocked frozen codec known := by
  unfold RedisNode.callStore
  split
  next hnone =>
    refine ⟨hsourced, hstore, fun d x y hx hy => hcalls d x y ?_ hx hy⟩
    rintro rfl
    cases hnone.symm.trans hx
  next x hx =>
    split
    · obtain ⟨hclaim, hknown⟩ : (n.store.claim x.key now).1.Holds known ∧
          (n.store.claim x.key now).2.Known frozen codec known x.key := hstore.claim
      refine stocked_update hsourced hcalls hclaim fun y call hy hcall => ?_
      cases hx.symm.trans hy
      cases hcall
      exact hknown
    · obtain ⟨hawait, hknown⟩ :
          (n.store.awaitResult x.key n.awaitTimeoutMs now later).1.Holds known ∧
          (n.store.awaitResult x.key n.awaitTimeoutMs now later).2.Known frozen codec known x.key :=
        hstore.awaitResult
      refine stocked_update hsourced hcalls hawait fun y call hy hcall => ?_
      cases hx.symm.trans hy
      cases hcall
      exact hknown
    · refine stocked_update hsourced hcalls hstore fun _ _ _ hnone => ?_
      cases hnone

theorem Stocked.close {runtime : TwoTierIdempotency T} (h : n.Stocked frozen codec known)
    (hsourced : Sourced known n'.replica) (hstore : n'.store.Holds known)
    (hreplica : n'.replica = n.replica.close c runtime) (hcalls : n'.calls = n.calls) :
    n'.Stocked frozen codec known := by
  refine ⟨hsourced, hstore, fun d x y hx hy => ?_⟩
  rw [hcalls] at hy
  rw [hreplica] at hx
  obtain ⟨x', hx', heq, -⟩ := Replica.of_calls_close hx
  rw [heq]
  exact h.calls d x' y hx' hy

theorem Stocked.commit {key : JsString} {value : T} {fingerprint : Option JsString}
    (h : n.Stocked frozen codec known)
    (hentry : known key (idempotencyEnvelope value fingerprint)) :
    (n.commit frozen codec c key value fingerprint now).1.Stocked frozen codec known ∧
      ∀ blob, (n.commit frozen codec c key value fingerprint now).2 = some blob →
        TextOf frozen codec known key blob := by
  obtain ⟨store, hcommit⟩ := n.commit_spec frozen codec key c now value fingerprint
  have hstep : n.replica.step frozen (.commit c key value fingerprint now) =
      some (n.commit frozen codec c key value fingerprint now).1.replica := by
    rw [hcommit]
    rfl
  have hstore : (n.commit frozen codec c key value fingerprint now).1.store.Holds known ∧
      ∀ blob, (n.commit frozen codec c key value fingerprint now).2 = some blob →
        TextOf frozen codec known key blob := by
    unfold RedisNode.commit
    split
    · exact ⟨h.holds, nofun⟩
    · dsimp only
      split
      · exact ⟨h.holds, nofun⟩
      next hkey => exact h.holds.set hkey hentry
  have hinformed : Informed known n.replica (.commit c key value fingerprint now) := hentry
  exact ⟨h.close (h.sourced.step hinformed hstep) hstore.1 (by rw [hcommit])
    (by rw [hcommit]), hstore.2⟩

theorem Stocked.release {key : JsString} (h : n.Stocked frozen codec known) :
    (n.release c key).Stocked frozen codec known := by
  have hstore : (n.release c key).store.Holds known := by
    unfold RedisNode.release
    dsimp only
    split
    · exact h.holds
    · exact h.holds.delete
  have hstep : n.replica.step frozen (.release c key) = some (n.release c key).replica := rfl
  have hinformed : Informed known n.replica (.release c key) := trivial
  exact h.close (h.sourced.step hinformed hstep) hstore rfl rfl

end RedisNode

/-! ## The cluster -/

namespace RedisCluster

variable {s s' : RedisCluster T} {a : RedisAction T} {i c j : Nat} {n : RedisNode T}

theorem Stocked.setNode (h : s.Stocked frozen codec keyPrefix)
    (hn : n.Stocked frozen codec s.committed) : (s.setNode i n).Stocked frozen codec keyPrefix :=
  ⟨forall_nodes h.nodes rfl hn, h.redis, h.writes⟩

theorem Stocked.runs {b : ReplicaAction T} {now later : Int} {r : Replica T}
    (h : s.Stocked frozen codec keyPrefix) (hd : s.Drives i a b now later)
    (hr : (s.nodes i).replica.step frozen b = some r) :
    ({ s.nodes i with replica := r }.callStore (b.caller (s.nodes i).replica) now later).Stocked
      frozen codec s.committed := by
  have hcalls := (h.nodes i).calls
  have hinformed : Informed s.committed (s.nodes i).replica b := by
    cases hd with
    | begin _ _ _ | resume _ _ | rejected _ => trivial
    | claimed hcall | awaited hcall => exact fun x entry hx => hcalls _ x _ hx hcall entry
  refine RedisNode.stocked_callStore ((h.nodes i).sourced.step hinformed hr) (h.nodes i).holds
    fun d x y hne hx hy => ?_
  rw [Replica.calls_step_ne hr hne] at hx
  exact hcalls d x y hx hy

theorem Stocked.goesOn {x : BeginCall T} {call : StoreCall T}
    {next : RedisIdempotencyStore T × StoreCall T} (h : s.Stocked frozen codec keyPrefix)
    (hcall : call.Known frozen codec s.committed x.key)
    (hn : GoesOn frozen codec keyPrefix s i c x.key a call next) :
    next.1.Holds s.committed ∧ next.2.Known frozen codec s.committed x.key := by
  have hholds := (h.nodes i).holds
  cases hn with
  | lost => exact ⟨hholds, trivial⟩
  | read =>
    refine ⟨hholds, ?_⟩
    cases hblob : s.redis (keyPrefix ++ x.key) with
    | none => trivial
    | some blob => exact h.redis x.key blob hblob
  | reply hf => exact hholds.replied hcall hf
  | fail hf => exact ⟨hholds, RedisIdempotencyStore.Holds.failed hf⟩
  | wake =>
    refine ⟨hholds, ?_⟩
    unfold RedisIdempotencyStore.poll
    split
    · trivial
    · rintro _ ⟨⟩

theorem Stocked.putCall {x : BeginCall T} {store : RedisIdempotencyStore T} {call : StoreCall T}
    (h : s.Stocked frozen codec keyPrefix) (hx : (s.nodes i).replica.calls[c]? = some x)
    (hstore : store.Holds s.committed) (hcall : call.Known frozen codec s.committed x.key) :
    RedisNode.Stocked frozen codec s.committed { s.nodes i with
      store, calls := Function.update (s.nodes i).calls c (some call) } := by
  refine RedisNode.stocked_update (h.nodes i).sourced (fun d x y _ => (h.nodes i).calls d x y)
    hstore fun y call' hy hcall' => ?_
  cases hx.symm.trans hy
  cases hcall'
  exact hcall

theorem Stocked.claims {x : BeginCall T} (h : s.Stocked frozen codec keyPrefix)
    (hx : (s.nodes i).replica.calls[c]? = some x) :
    (s.give keyPrefix i c x.key).Stocked frozen codec keyPrefix := by
  refine ⟨forall_nodes h.nodes rfl (h.putCall hx (h.nodes i).holds trivial),
    fun key blob hblob => ?_, h.writes⟩
  change update s.redis _ _ _ = _ at hblob
  by_cases hkey : keyPrefix ++ key = keyPrefix ++ x.key
  · rw [hkey, update_self] at hblob
    exact .inl (Option.some.inj hblob).symm
  · rw [update_of_ne hkey] at hblob
    exact h.redis key blob hblob

theorem committed_mono {key : JsString} {w : Option RedisWrite}
    {entries : List (JsString × IdempotencyEnvelope T)}
    (hcloses : Closes keyPrefix s s' i c key n w entries) : s.committed ≤ s'.committed := by
  intro k entry h
  unfold committed
  rw [hcloses.commits]
  exact mem_append_left _ h

theorem Stocked.closes {key : JsString} {w : Option RedisWrite}
    {entries : List (JsString × IdempotencyEnvelope T)} (h : s.Stocked frozen codec keyPrefix)
    (hcloses : Closes keyPrefix s s' i c key n w entries)
    (hnode : n.Stocked frozen codec s'.committed)
    (htext : ∀ x ∈ w, ∀ blob, x.value = some blob → TextOf frozen codec s'.committed key blob) :
    s'.Stocked frozen codec keyPrefix := by
  have hmono := committed_mono hcloses
  refine ⟨forall_nodes (fun d => (h.nodes d).mono hmono) hcloses.nodes hnode,
    fun k blob hblob => ?_, fun d x k blob hx hkey hblob => ?_⟩
  · rw [hcloses.redis] at hblob
    exact (h.redis k blob hblob).mono hmono
  · rw [hcloses.writes, getElem?_append] at hx
    split at hx
    · exact (h.writes d x k blob hx hkey hblob).mono hmono
    · rw [getElem?_singleton] at hx
      split at hx
      · have hw : x ∈ w := Option.some.inj hx
        rw [← append_cancel_left ((hcloses.key x hw).symm.trans hkey)]
        exact htext x hw blob hblob
      · cases hx

theorem Stocked.commit {key : JsString} {value : T} {fingerprint : Option JsString} {now : Int}
    (h : s.Stocked frozen codec keyPrefix)
    (hs : s.step frozen codec keyPrefix (.commit i c key value fingerprint now) = some s') :
    s'.Stocked frozen codec keyPrefix := by
  have hcloses := closes_commit hs
  have hentry : s'.committed key (idempotencyEnvelope value fingerprint) := by
    unfold committed
    rw [hcloses.commits]
    exact mem_append_right _ mem_cons_self
  obtain ⟨hnode, htext⟩ : ((s.nodes i).commit frozen codec c key value fingerprint now).1.Stocked
        frozen codec s'.committed ∧
      ∀ blob, ((s.nodes i).commit frozen codec c key value fingerprint now).2 = some blob →
        TextOf frozen codec s'.committed key blob :=
    ((h.nodes i).mono (committed_mono hcloses)).commit hentry
  refine h.closes hcloses hnode fun x hx blob hblob => ?_
  obtain ⟨b, hb, rfl⟩ := Option.map_eq_some_iff.mp hx
  cases hblob
  exact htext _ hb

theorem Stocked.release {key : JsString} (h : s.Stocked frozen codec keyPrefix)
    (hs : s.step frozen codec keyPrefix (.release i c key) = some s') :
    s'.Stocked frozen codec keyPrefix := by
  have hcloses := closes_release hs
  refine h.closes hcloses ((h.nodes i).mono (committed_mono hcloses)).release
    fun x hx blob hblob => ?_
  split at hx
  · cases hx
    cases hblob
  · cases hx

theorem of_writes_set {w : RedisWrite} {d : Nat}
    (h : (s.writes.set j none)[d]? = some (some w)) : s.writes[d]? = some (some w) := by
  rw [getElem?_set] at h
  split at h
  · split at h
    · cases h
    · cases h
  · exact h

theorem Stocked.write {w : RedisWrite} (h : s.Stocked frozen codec keyPrefix)
    (hw : s.writes[j]? = some (some w)) : Stocked frozen codec keyPrefix { s with
      redis := Function.update s.redis w.key w.value, writes := s.writes.set j none } := by
  refine ⟨h.nodes, fun key blob hblob => ?_, fun d w k blob hd =>
    h.writes d w k blob (of_writes_set hd)⟩
  dsimp only at hblob
  by_cases hkey : keyPrefix ++ key = w.key
  · rw [hkey, update_self] at hblob
    exact .inr (h.writes j w key blob hw hkey.symm hblob)
  · rw [update_of_ne hkey] at hblob
    exact h.redis key blob hblob

theorem Stocked.step (h : s.Stocked frozen codec keyPrefix)
    (hs : s.step frozen codec keyPrefix a = some s') : s'.Stocked frozen codec keyPrefix := by
  cases does_step hs with
  | runs hd hr => exact h.setNode (h.runs hd hr)
  | goesOn hx hcall hn =>
    obtain ⟨hstore, hknown⟩ := h.goesOn ((h.nodes _).calls _ _ _ hx hcall) hn
    exact h.setNode (h.putCall hx hstore hknown)
  | claims hx _ => exact h.claims hx
  | commits hs => exact h.commit hs
  | releases hs => exact h.release hs
  | writes hw => exact h.write hw
  | loses _ => exact ⟨h.nodes, h.redis, fun d w k blob hd => h.writes d w k blob (of_writes_set hd)⟩

end RedisCluster

section Run

variable {opts : Nat → RedisNodeOptions} {ok : RedisCluster T → RedisAction T → Prop}
  {s : RedisCluster T}

theorem stocked_reach (h : (redisMachine frozen codec keyPrefix opts).Reach ok s) :
    s.Stocked frozen codec keyPrefix := by
  refine h.invariant ?_ fun _ hstocked _ hs => hstocked.step hs
  exact ⟨fun i => ⟨⟨⟨nofun, nofun, nofun, nofun⟩, nofun⟩, ⟨rfl, nofun⟩,
    fun _ _ _ hx => by cases hx⟩, nofun, nofun⟩

/-- In an undisturbed run a key is committed only once: the commit takes the marker with it. -/
theorem sole_commit
    (h : (redisMachine frozen codec keyPrefix opts).Reach RedisCluster.Undisturbed s)
    {key : JsString} (hkey : key ≠ []) :
    ∀ entry entry', s.committed key entry → s.committed key entry' → entry = entry' := by
  induction h with
  | init => exact fun _ _ hentry => absurd hentry not_mem_nil
  | @step s s' a hreach hok hs ih =>
    obtain ⟨-, hcustody⟩ := custody_reach hreach
    have hs : s.step frozen codec keyPrefix a = some s' := hs
    have hclosing {i c : Nat} {k : JsString} {n : RedisNode T} {w : Option RedisWrite}
        {entries : List (JsString × IdempotencyEnvelope T)}
        (hholds : (s.nodes i).replica.holds c k)
        (hcloses : RedisCluster.Closes keyPrefix s s' i c k n w entries) :
        ∀ entry entry', s'.committed key entry → s'.committed key entry' → entry = entry' := by
      -- the caller owns the marker, so there was no commit before
      have hfirst (entry : IdempotencyEnvelope T) (hentry : s.committed key entry) : k ≠ key := by
        rintro rfl
        have howner : (i, c) ∈ (s.cell keyPrefix k).owner := RedisNode.owns_of_holds hholds
        rw [((hcustody k hkey).sent ⟨entry, hentry⟩).1] at howner
        exact howner
      have hcases (entry : IdempotencyEnvelope T) (hentry : s'.committed key entry) :
          s.committed key entry ∨ k = key ∧ entries = [(key, entry)] := by
        unfold RedisCluster.committed at hentry
        rw [hcloses.commits] at hentry
        rcases mem_append.mp hentry with hold | hnew
        · exact .inl hold
        · exact .inr ⟨(hcloses.value _ hnew).1.symm, hcloses.single _ hnew⟩
      intro entry entry' hentry hentry'
      rcases hcases entry hentry with hold | ⟨hk, heq⟩
      · rcases hcases entry' hentry' with hold' | ⟨hk, -⟩
        · exact ih entry entry' hold hold'
        · exact absurd hk (hfirst entry hold)
      · rcases hcases entry' hentry' with hold' | ⟨-, heq'⟩
        · exact absurd hk (hfirst entry' hold')
        · exact (Prod.mk.inj (cons.inj (heq.symm.trans heq')).1).2
    cases RedisCluster.does_step hs with
    | commits hs => exact hclosing hok.1 (RedisCluster.closes_commit hs)
    | releases hs => exact hclosing hok.1 (RedisCluster.closes_release hs)
    | runs _ _ | goesOn _ _ _ | claims _ _ | writes _ | loses _ => exact ih

/-! ## After the result has arrived -/

/-- The call was closed in `s`, or it owned its key. -/
def RedisCluster.Spent (s : RedisCluster T) (i c : Nat) (key : JsString) : Prop :=
  (∃ y, (s.nodes i).replica.calls[c]? = some y ∧ y.key = key ∧ y.closed) ∨ (s.nodes i).owns key c

/-- Only the caller that owns the key closes a call. -/
theorem spent_of_closed {s' : RedisCluster T} {a : RedisAction T} {i c : Nat} {x : BeginCall T}
    (hok : s.Undisturbed a) (hs : s.step frozen codec keyPrefix a = some s')
    (hx : (s'.nodes i).replica.calls[c]? = some x) (hclosed : x.closed) : s.Spent i c x.key := by
  have hsame (hsame : (s'.nodes i).replica = (s.nodes i).replica) : s.Spent i c x.key := by
    rw [hsame] at hx
    exact .inl ⟨x, hx, rfl, hclosed⟩
  -- the process `d` has become `n`
  have hone {d : Nat} {n : RedisNode T} (hnodes : s'.nodes = (s.setNode d n).nodes)
      (hspent : n.replica.calls[c]? = some x → s.Spent d c x.key) : s.Spent i c x.key := by
    by_cases hd : d = i
    · subst hd
      rw [hnodes, RedisCluster.nodes_setNode_self] at hx
      exact hspent hx
    · exact hsame (by rw [hnodes, RedisCluster.nodes_setNode_ne (Ne.symm hd)])
  -- the caller of the call `e` is done
  have hclosing {d e : Nat} {k : JsString} {n : RedisNode T} {w : Option RedisWrite}
      {entries : List (JsString × IdempotencyEnvelope T)} (hholds : (s.nodes d).replica.holds e k)
      (hcloses : RedisCluster.Closes keyPrefix s s' d e k n w entries) : s.Spent i c x.key := by
    refine hone hcloses.nodes fun hnew => ?_
    obtain ⟨runtime, -, hreplica⟩ := hcloses.replica
    rw [hreplica] at hnew
    obtain ⟨y, hy, heq, hother⟩ := Replica.of_calls_close hnew
    by_cases hc : c = e
    · subst hc
      obtain ⟨z, hz, hzkey, -⟩ := Replica.holds_iff.mp hholds
      cases hy.symm.trans hz
      have hkey : x.key = k := (congrArg BeginCall.key heq).trans hzkey
      rw [hkey]
      exact .inr (RedisNode.owns_of_holds hholds)
    · obtain rfl := hother hc
      exact .inl ⟨x, hy, rfl, hclosed⟩
  cases RedisCluster.does_step hs with
  | runs hd hr =>
    refine hone rfl fun hnew => .inl ?_
    rw [RedisNode.replica_callStore] at hnew
    exact hd.opens hr hnew hclosed
  | goesOn _ _ _ | claims _ _ => exact hone rfl fun hnew => .inl ⟨x, hnew, rfl, hclosed⟩
  | commits hs => exact hclosing hok.1 (RedisCluster.closes_commit hs)
  | releases hs => exact hclosing hok.1 (RedisCluster.closes_release hs)
  | writes _ | loses _ => exact hsame rfl

theorem settled_reach {s' : RedisCluster T} {key blob : JsString} (hkey : key ≠ [])
    (h : (redisMachine frozen codec keyPrefix opts).Reach RedisCluster.Undisturbed s)
    (hblob : s.redis (keyPrefix ++ key) = some blob) (hne : blob ≠ idempotencyInProgress)
    (h' : ((redisMachine frozen codec keyPrefix opts).restart s).Reach RedisCluster.Undisturbed
      s') :
    s'.redis (keyPrefix ++ key) = some blob ∧
      ∀ (i c : Nat) (x : BeginCall T), (s.nodes i).replica.calls.length ≤ c →
        (s'.nodes i).replica.calls[c]? = some x → x.key = key → ¬ x.closed := by
  refine h'.invariant ?_ ?_
  · refine ⟨hblob, fun i c x hc hx => ?_⟩
    cases (getElem?_eq_none hc).symm.trans hx
  · rintro t t' a hreach ⟨hvalue, hopen⟩ hok hs
    obtain ⟨hwired, hcustody⟩ := custody_reach (h.restart hreach)
    obtain ⟨hvalue', hempty⟩ :=
      (RedisCluster.cell_next hwired hok hkey hs).settled (hcustody key hkey) hvalue hne
    refine ⟨hvalue', fun i c x hc hx hxkey hclosed => ?_⟩
    rcases spent_of_closed hok hs hx hclosed with ⟨y, hy, hykey, hyclosed⟩ | howns
    · exact hopen i c y hc hy (hykey.trans hxkey) hyclosed
    · rw [hxkey] at howns
      exact Set.eq_empty_iff_forall_notMem.mp hempty (i, c) howns

end Run

theorem settle_of_backed {key : JsString} {fingerprint : Option JsString}
    {entry : IdempotencyEnvelope T} {result : IdempotencyBegin T}
    (h : Backed known key fingerprint result) (hsole : ∀ entry', known key entry' → entry' = entry)
    (hne : result ≠ .execute) : result = settle entry fingerprint := by
  cases result with
  | hit v =>
    obtain ⟨f, hknown, hsame⟩ := h
    obtain rfl := hsole _ hknown
    unfold settle
    rw [if_neg]
    rcases hsame with rfl | rfl | rfl
    · cases f with
      | none => exact Bool.false_ne_true
      | some f => simp [fingerprintConflicts]
    · exact Bool.false_ne_true
    · cases f <;> exact Bool.false_ne_true
  | conflict =>
    obtain ⟨f, g, v, hknown, rfl, hfg⟩ := h
    obtain rfl := hsole _ hknown
    exact (if_pos (decide_eq_true hfg)).symm
  | execute => exact absurd rfl hne

/-- Any number of processes over one Redis, every interleaving in which only the callers that were
told to execute commit or release, once each. While no wait for a peer runs into its deadline and no
failure of Redis makes a call execute: a result that has been written stays in Redis, every later
call of its key that returns is answered with it, and a process that has nothing about the key in
its memory does return it. -/
theorem committed_result_stays (frozen : IdempotencyEnvelope T → Bool) (codec : IdempotencyCodec T)
    (keyPrefix : JsString) (opts : Nat → RedisNodeOptions) (s s' : RedisCluster T)
    (key blob : JsString)
    (h : (redisMachine frozen codec keyPrefix opts).Reach RedisCluster.Undisturbed s)
    (hblob : s.redis (keyPrefix ++ key) = some blob) (hne : blob ≠ idempotencyInProgress)
    (h' : ((redisMachine frozen codec keyPrefix opts).restart s).Reach RedisCluster.Undisturbed
      s') :
    ∃ entry, (key, entry) ∈ s.commits ∧ codec.encode entry = some blob ∧
      s'.redis (keyPrefix ++ key) = some blob ∧
      (∀ (i c : Nat) (x : BeginCall T) (result : IdempotencyBegin T),
        (s.nodes i).replica.calls.length ≤ c → (s'.nodes i).replica.calls[c]? = some x →
        x.key = key → x.phase = .returned result → result = settle entry x.fingerprint) ∧
      ∀ (i : Nat) (fingerprint : Option JsString) (now : Int), (s'.nodes i).Cold key now →
        ∃ s'', s'.step frozen codec keyPrefix (.begin i key fingerprint now) = some s'' ∧
          s''.ReturnsIn frozen codec keyPrefix 5 i (s'.nodes i).replica.calls.length
            (settle entry fingerprint) := by
  obtain hmark | ⟨hkey, entry, hentry, hfrozen, hencode⟩ := (stocked_reach h).redis key blob hblob
  · exact absurd hmark hne
  have hreach := h.restart h'
  obtain ⟨hvalue, hopen⟩ := settled_reach hkey h hblob hne h'
  obtain ⟨hwired, hcustody⟩ := custody_reach hreach
  have hstocked := stocked_reach hreach
  -- the commits of `s'` are still those of this entry
  have hlater : s'.committed key entry := by
    obtain hmark | ⟨-, entry', hentry', -, hencode'⟩ := hstocked.redis key blob hvalue
    · exact absurd hmark hne
    · have hsame := (codec.decode_encode entry blob hencode).symm.trans
        (codec.decode_encode entry' blob hencode')
      rw [Option.some.inj hsame]
      exact hentry'
  have hsole (entry' : IdempotencyEnvelope T) (hentry' : s'.committed key entry') :
      entry' = entry := sole_commit hreach hkey entry' entry hentry' hlater
  refine ⟨entry, hentry, hencode, hvalue, fun i c x result hc hx hxkey hphase => ?_,
    fun i fingerprint now hcold => ?_⟩
  · have hfair := (hstocked.nodes i).sourced.fair c x hx
    rw [hphase] at hfair
    refine settle_of_backed hfair (hxkey ▸ hsole) ?_
    rintro rfl
    -- a call that executes would own the marker
    have howns : (i, c) ∈ (s'.cell keyPrefix key).owner := by
      refine RedisNode.owns_iff.mpr ⟨x, hx, hxkey, .inl ?_⟩
      exact BeginCall.executing_iff.mpr ⟨hphase, Bool.eq_false_iff.mpr (hopen i c x hc hx hxkey)⟩
    rw [(hcustody key hkey).owner_of_value (by
      show s'.redis (keyPrefix ++ key) ≠ _
      rw [hvalue]
      exact fun heq => hne (Option.some.inj heq))] at howns
    exact howns
  · refine RedisCluster.returns_stored (hwired i) hkey hcold (fun cached hcached => ?_) hvalue
      hencode hfrozen
    exact hsole cached (((hstocked.nodes i).holds.get key now).2 cached hcached)

/-! ## Two runs -/

section Runs

/-- A call claims the key and is told to execute. -/
def claimsKey (i : Nat) (now : Int) : List (RedisAction Json) :=
  [.begin i (.lit "k") none now, .execute i 0, .reply i 0 now, .answer i 0 now now]

/-- A call loses the claim and reads what there is. -/
def losesClaim (i : Nat) (now : Int) : List (RedisAction Json) :=
  [.begin i (.lit "k") none now, .execute i 0, .reply i 0 now, .execute i 0, .reply i 0 now,
    .answer i 0 now now]

/-- The first process commits, and its result arrives. -/
def commitsNull (now : Int) : List (RedisAction Json) :=
  [.commit 0 0 (.lit "k") .null none now, .write 0]

/-- The second process waits for the first one until its deadline. -/
def waitsInVain : List (RedisAction Json) :=
  losesClaim 1 0 ++ [RedisAction.execute 1 0, .reply 1 0 0, .wake 1 0 5000, .answer 1 0 5000 5000]

def defaultMachine : Machine (RedisCluster Json) (RedisAction Json) :=
  redisMachine (fun _ => false) jsonCodec (.lit "nevo:idem:") fun _ => {}

/-- Whether the call executes. -/
def RedisCluster.executes (s : RedisCluster T) (i c : Nat) : Bool :=
  (s.result? i c).any fun
    | .execute => true
    | _ => false

theorem RedisCluster.result_of_executes {s : RedisCluster T} {i c : Nat} (h : s.executes i c) :
    s.result? i c = some .execute := by
  obtain ⟨result, hresult, hexecute⟩ := (Option.any_eq_true _ _).mp h
  rw [hresult]
  cases result with
  | execute => rfl
  | hit v | conflict => cases hexecute

theorem committed_result_stays_read : ∃ (s s' : RedisCluster Json)
    (entry : IdempotencyEnvelope Json),
    defaultMachine.Reach RedisCluster.Undisturbed s ∧
      (defaultMachine.restart s).Reach RedisCluster.Undisturbed s' ∧
      (.lit "k", entry) ∈ s.commits ∧
      s'.redis (.lit "nevo:idem:" ++ .lit "k") = jsonCodec.encode entry ∧
      (∃ x, (s'.nodes 1).replica.calls[0]? = some x ∧
        x.phase = .returned (settle entry x.fingerprint)) ∧
      ∃ s'', s'.step (fun _ => false) jsonCodec (.lit "nevo:idem:") (.begin 2 (.lit "k") none 3) =
          some s'' ∧
        s''.ReturnsIn (fun _ => false) jsonCodec (.lit "nevo:idem:") 5 2
          (s'.nodes 2).replica.calls.length (settle entry none) := by
  obtain ⟨s, s', hs, hs', hobs⟩ := Machine.Reach.observe_later defaultMachine
    RedisCluster.Undisturbed (claimsKey 0 0 ++ commitsNull 1) (losesClaim 1 2)
    (fun s s' => (s.redis (.lit "nevo:idem:" ++ JsString.lit "k"),
      (s'.nodes 1).replica.calls.map (fun x => (x.key, x.phase.result?.isSome)),
      (s.nodes 1).replica.calls.isEmpty &&
        ((s'.nodes 2).replica.runtime.l1.get (.lit "k") 3).1.isNone &&
        ((s'.nodes 2).replica.runtime.inflight (.lit "k")).isNone))
    (jsonCodec.encode { v := .null }, [(.lit "k", true)], true) (by decide +kernel)
  obtain ⟨hredis, hrest⟩ := Prod.mk.inj hobs
  obtain ⟨hcalls, hrest⟩ := Prod.mk.inj hrest
  rw [Bool.and_eq_true, Bool.and_eq_true] at hrest
  obtain ⟨⟨hnew, hl1⟩, hinflight⟩ := hrest
  obtain ⟨entry, hentry, hencode, hvalue, hlater, hreturns⟩ := committed_result_stays
    (fun _ => false) jsonCodec (.lit "nevo:idem:") (fun _ => {}) s s' (.lit "k") _ hs hredis
    (by decide +kernel) hs'
  obtain ⟨x, hx, hxobs⟩ : ∃ x, (s'.nodes 1).replica.calls[0]? = some x ∧
      (x.key, x.phase.result?.isSome) = (.lit "k", true) := by
    have hfirst := congrArg (·[0]?) hcalls
    rw [getElem?_map] at hfirst
    exact Option.map_eq_some_iff.mp hfirst
  obtain ⟨hkey, hsome⟩ := Prod.mk.inj hxobs
  obtain ⟨result, hresult⟩ := Option.isSome_iff_exists.mp hsome
  have hphase := BeginPhase.eq_returned hresult
  refine ⟨s, s', entry, hs, hs', hentry, hvalue.trans hencode.symm, ⟨x, hx, ?_⟩,
    hreturns 2 none 3 ⟨Option.isNone_iff_eq_none.mp hl1, Option.isNone_iff_eq_none.mp hinflight⟩⟩
  rw [hphase, hlater 1 0 x result (by rw [isEmpty_iff.mp hnew]; rfl) hx hkey hphase]

/-- The second process has waited too long and executes as well. Its handler fails, and it erases
the result of the first one, so a third process executes again. -/
theorem committed_result_erased : ∃ s s' : RedisCluster Json,
    defaultMachine.Reach RedisCluster.Orderly s ∧
      (defaultMachine.restart s).Reach RedisCluster.Orderly s' ∧
      s.redis (.lit "nevo:idem:" ++ .lit "k") = jsonCodec.encode { v := .null } ∧
      (s.nodes 2).replica.calls.length = 0 ∧ s'.result? 2 0 = some .execute := by
  obtain ⟨s, s', hs, hs', hobs⟩ := Machine.Reach.observe_later defaultMachine
    RedisCluster.Orderly (claimsKey 0 0 ++ waitsInVain ++ commitsNull 5001)
    ([RedisAction.release 1 0 (.lit "k"), .write 1] ++ claimsKey 2 5002)
    (fun s s' => (s.redis (.lit "nevo:idem:" ++ JsString.lit "k"), (s.nodes 2).replica.calls.length,
      s'.executes 2 0))
    (jsonCodec.encode { v := .null }, 0, true) (by decide +kernel)
  obtain ⟨hredis, hrest⟩ := Prod.mk.inj hobs
  obtain ⟨hcalls, hexecutes⟩ := Prod.mk.inj hrest
  exact ⟨s, s', hs, hs', hredis, hcalls, RedisCluster.result_of_executes hexecutes⟩

end Runs

/-! ## One result for all processes -/

/-- Any number of processes over one Redis, in every undisturbed run. While a call executes, no
other call of its key does so in any process, and nothing has been committed for the key. A hit
returns the only result that was ever committed. -/
theorem executes_alone (frozen : IdempotencyEnvelope T → Bool) (codec : IdempotencyCodec T)
    (keyPrefix : JsString) (opts : Nat → RedisNodeOptions) (s : RedisCluster T)
    (h : (redisMachine frozen codec keyPrefix opts).Reach RedisCluster.Undisturbed s) (i c : Nat)
    (x : BeginCall T) (hx : (s.nodes i).replica.calls[c]? = some x) (hkey : x.key ≠ []) :
    (x.executing → (∀ entry, (x.key, entry) ∉ s.commits) ∧
      ∀ (j d : Nat) (y : BeginCall T), (s.nodes j).replica.calls[d]? = some y → y.key = x.key →
        y.executing → j = i ∧ d = c) ∧
    ∀ v, x.phase = .returned (.hit v) → ∃ entry, (x.key, entry) ∈ s.commits ∧ entry.v = v ∧
      ∀ entry', (x.key, entry') ∈ s.commits → entry' = entry := by
  have hcustody := (custody_reach h).2 x.key hkey
  refine ⟨fun hexec => ?_, fun v hphase => ?_⟩
  · have howner : (i, c) ∈ (s.cell keyPrefix x.key).owner :=
      RedisNode.owns_iff.mpr ⟨x, hx, rfl, .inl hexec⟩
    refine ⟨fun entry hentry => ?_, fun j d y hy hykey hyexec => ?_⟩
    · rw [(hcustody.sent ⟨entry, hentry⟩).1] at howner
      exact howner
    · have hother : (j, d) ∈ (s.cell keyPrefix x.key).owner :=
        RedisNode.owns_iff.mpr ⟨y, hy, hykey, .inl hyexec⟩
      exact Prod.mk.inj ((hcustody.owned _ howner).2.2 _ hother)
  · have hfair := ((stocked_reach h).nodes i).sourced.fair c x hx
    rw [hphase] at hfair
    obtain ⟨f, hentry, -⟩ := hfair
    exact ⟨_, hentry, rfl, fun entry' hentry' => sole_commit h hkey entry' _ hentry' hentry⟩

theorem executes_alone_first : ∃ (s : RedisCluster Json) (x : BeginCall Json),
    defaultMachine.Reach RedisCluster.Undisturbed s ∧ (s.nodes 0).replica.calls[0]? = some x ∧
      x.executing ∧ ∀ (j d : Nat) (y : BeginCall Json), (s.nodes j).replica.calls[d]? = some y →
        y.key = x.key → y.executing → j = 0 ∧ d = 0 := by
  obtain ⟨s, hs, hobs⟩ := Machine.Reach.observe defaultMachine RedisCluster.Undisturbed
    (claimsKey 0 0 ++ losesClaim 1 1) (fun s => ((s.nodes 0).replica.calls[0]?).map fun x =>
      (x.key.isEmpty, x.executing)) (some (false, true)) (by decide +kernel)
  obtain ⟨x, hx, hexec⟩ := Option.map_eq_some_iff.mp hobs
  obtain ⟨hkey, hexec⟩ := Prod.mk.inj hexec
  exact ⟨s, x, hs, hx, hexec, ((executes_alone _ _ _ _ s hs 0 0 x hx
    (isEmpty_eq_false_iff.mp hkey)).1 hexec).2⟩

/-- In every run over one Redis, with failures and timeouts, an answer of any process is backed by a
commit for its key, and Redis holds the mark or the text of such a commit. -/
theorem answers_committed (frozen : IdempotencyEnvelope T → Bool) (codec : IdempotencyCodec T)
    (keyPrefix : JsString) (opts : Nat → RedisNodeOptions) (s : RedisCluster T)
    (h : (redisMachine frozen codec keyPrefix opts).Reach Machine.free s) :
    (∀ (i c : Nat) (x : BeginCall T) (result : IdempotencyBegin T),
      (s.nodes i).replica.calls[c]? = some x → x.phase = .returned result →
        Backed s.committed x.key x.fingerprint result) ∧
    ∀ key blob, s.redis (keyPrefix ++ key) = some blob →
      Readable frozen codec s.committed key blob := by
  have hstocked := stocked_reach h
  refine ⟨fun i c x result hx hphase => ?_, hstocked.redis⟩
  have hfair := (hstocked.nodes i).sourced.fair c x hx
  rw [hphase] at hfair
  exact hfair

theorem answers_committed_null : ∃ (s : RedisCluster Json) (x : BeginCall Json)
    (result : IdempotencyBegin Json), defaultMachine.Reach Machine.free s ∧
      (s.nodes 1).replica.calls[0]? = some x ∧ x.phase = .returned result ∧
      x.executing = false ∧ Backed s.committed x.key x.fingerprint result := by
  obtain ⟨s, hs, hobs⟩ := Machine.Reach.observe defaultMachine Machine.free
    (claimsKey 0 0 ++ commitsNull 1 ++ losesClaim 1 2)
    (fun s => ((s.nodes 1).replica.calls[0]?).map fun x => (x.executing, x.phase.result?.isSome))
    (some (false, true)) (by decide +kernel)
  obtain ⟨x, hx, hxobs⟩ := Option.map_eq_some_iff.mp hobs
  obtain ⟨hexec, hsome⟩ := Prod.mk.inj hxobs
  obtain ⟨result, hresult⟩ := Option.isSome_iff_exists.mp hsome
  have hphase := BeginPhase.eq_returned hresult
  exact ⟨s, x, result, hs, hx, hphase, hexec,
    (answers_committed _ _ _ _ s hs).1 1 0 x result hx hphase⟩

end NevoMessaging
