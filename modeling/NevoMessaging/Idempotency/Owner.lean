import NevoMessaging.Idempotency.Leader
import NevoMessaging.Idempotency.Origin
import NevoMessaging.Idempotency.Redis
import NevoMessaging.Lib.Claim

/-!
# Who owns a key of Redis

A call of `begin` owns the marker of its key from the moment at which Redis executes its `SET NX`
until its caller commits or releases; then the write that was sent owns it. For one key, the cluster
is a cell that is claimed before it is written (`ClaimCell`), as long as nobody executes without the
marker. There are two ways to do that, and `Undisturbed` excludes both: a wait runs into its
deadline, or Redis fails and the policy is to go on.
-/

namespace NevoMessaging

open List Function

variable {T : Type} {frozen : IdempotencyEnvelope T → Bool} {codec : IdempotencyCodec T}
  {keyPrefix : JsString}

/-- Redis has given the key to the call, or its wait has ended without a result. -/
def StoreCall.won : StoreCall T → Bool
  | .setNx (some won) => won
  | .claimed claim => claim.acquired
  | .awaited existing => existing.isNone
  | _ => false

namespace TwoTierIdempotency

variable {t : TwoTierIdempotency T} {key : JsString} {fingerprint : Option JsString} {now : Int}

theorem Stretch.phase {source : IdempotencyEnvelope T → Prop}
    {next : TwoTierIdempotency T × BeginPhase T}
    (hs : t.Stretch frozen key fingerprint source false next) (h : t.distributed = some {}) :
    next.2 ≠ .returned .execute ∧ next.2 ≠ .polling := by
  cases hs with
  | joined _ => exact ⟨nofun, nofun⟩
  | leads _ =>
    unfold lead
    rw [h]
    exact ⟨nofun, nofun⟩
  | @answered entry _ =>
    exact ⟨fun heq => settle_ne_execute entry fingerprint (BeginPhase.returned.inj heq), nofun⟩

theorem begin_phase (h : t.distributed = some {}) :
    (key ≠ [] → (t.begin key fingerprint now).2 ≠ .returned .execute) ∧
      (t.begin key fingerprint now).2 ≠ .polling := by
  by_cases hkey : key = []
  · rw [begin_skips (.inl hkey)]
    exact ⟨fun hne => absurd hkey hne, nofun⟩
  · have henabled : t.isEnabled := by
      rw [isEnabled, h]
      exact Bool.or_true _
    exact And.imp_left (fun hne _ => hne) ((stretch_begin (fun _ => false) hkey henabled).phase h)

theorem awaited_phase (existing : Option (IdempotencyEnvelope T)) :
    (existing.isSome →
      (t.awaited frozen key fingerprint existing now).2 ≠ .returned .execute) ∧
      (t.awaited frozen key fingerprint existing now).2 ≠ .polling := by
  unfold awaited adopt
  split
  next entry =>
    split
    · exact ⟨fun _ heq => settle_ne_execute entry fingerprint (BeginPhase.returned.inj heq), nofun⟩
    · exact ⟨fun _ => nofun, nofun⟩
  · exact ⟨nofun, nofun⟩

theorem claimed_phase (h : t.distributed = some {}) (claim : IdempotencyClaim T) :
    (¬ claim.acquired →
      (t.claimed frozen key fingerprint claim now).2 ≠ .returned .execute) ∧
      ((t.claimed frozen key fingerprint claim now).2 = .polling →
        ¬ claim.acquired ∧ ¬ claim.existing.isSome) := by
  unfold claimed
  split
  next hwon => exact ⟨fun hlost => absurd hwon hlost, nofun⟩
  next hlost =>
    cases hentry : claim.existing with
    | none =>
      rw [if_pos (by rw [h]; rfl)]
      exact ⟨fun _ => nofun, fun _ => ⟨hlost, nofun⟩⟩
    | some entry =>
      rw [if_neg (by simp)]
      exact ⟨fun _ => (awaited_phase (some entry)).1 rfl,
        fun heq => absurd heq (awaited_phase (some entry)).2⟩

end TwoTierIdempotency

namespace Replica

theorem distributed_step {frozen : IdempotencyEnvelope T → Bool} {r r' : Replica T}
    {a : ReplicaAction T} (hs : r.step frozen a = some r') :
    r'.runtime.distributed = r.runtime.distributed := by
  suffices h : r'.runtime.settings = r.runtime.settings from congrArg Prod.snd h
  cases did_step hs with
  | began key fingerprint now => exact TwoTierIdempotency.settings_begin
  | wentOn _ _ hstretch => exact hstretch.touch.settings
  | committed htouch | released htouch => exact htouch.settings

end Replica

namespace RedisNode

def owns (n : RedisNode T) (key : JsString) (c : Nat) : Bool :=
  (n.replica.calls[c]?).any fun x =>
    x.key = key && (x.executing || x.phase.asking && (n.calls c).any StoreCall.won)

/-- The runtime of the process uses the store. -/
def Wired (n : RedisNode T) : Prop := n.replica.runtime.distributed = some {}

/-- Nobody has got a key in the step from `n` to `n'`. -/
def Keeps (n n' : RedisNode T) : Prop :=
  ∀ key c, key ≠ [] → n'.owns key c → n.owns key c

variable {n n' : RedisNode T} {key : JsString} {c d : Nat} {x : BeginCall T}

theorem owns_iff : n.owns key c ↔ ∃ x, n.replica.calls[c]? = some x ∧ x.key = key ∧
    (x.executing ∨ (x.phase.asking ∧ (n.calls c).any StoreCall.won)) := by
  unfold owns
  rw [Option.any_eq_true]
  simp only [Bool.and_eq_true, Bool.or_eq_true, decide_eq_true_eq]

theorem owns_congr (hreplica : n'.replica.calls[d]? = n.replica.calls[d]?)
    (hcalls : n'.calls d = n.calls d) : n'.owns key d = n.owns key d := by
  unfold owns
  rw [hreplica, hcalls]

/-! ### A call of `begin` goes on -/

variable {now later : Int} {a : ReplicaAction T}

/-! ### Nobody is told to go on alone -/

/-- A wait that `answer` begins is within its deadline. -/
def BeginsInTime (n : RedisNode T) (c : Nat) (now later : Int) : Prop :=
  match n.calls c, n.replica.calls[c]? with
  | some (.claimed claim), some x => claim.acquired ∨ claim.existing.isSome ∨
      (n.store.l1.get x.key now).1.isSome ∨ later < now + n.awaitTimeoutMs
  | _, _ => True

instance (n : RedisNode T) (c : Nat) (now later : Int) :
    Decidable (n.BeginsInTime c now later) := by
  unfold BeginsInTime
  split <;> infer_instance

/-- A wait that has slept is within its deadline. -/
def WakesInTime (n : RedisNode T) (c : Nat) (now : Int) : Prop :=
  match n.calls c with
  | some (.sleeping deadline) => now < deadline
  | _ => True

instance (n : RedisNode T) (c : Nat) (now : Int) : Decidable (n.WakesInTime c now) := by
  unfold WakesInTime
  split <;> infer_instance

/-- The failure of a command does not make the runtime execute. -/
def FailsSafe (n : RedisNode T) (c : Nat) : Prop :=
  n.store.readErrorPolicy = .failClosed ∨ (match n.calls c with
    | some (.read none _) => True
    | _ => False)

instance (n : RedisNode T) (c : Nat) : Decidable (n.FailsSafe c) := by
  unfold FailsSafe
  have : Decidable (match n.calls c with
    | some (.read none _) => True
    | _ => False) := by
    split <;> infer_instance
  infer_instance

theorem not_won_callStore (hx : n.replica.calls[c]? = some x)
    (htime : x.phase = .polling →
      (n.store.l1.get x.key now).1.isSome ∨ later < now + n.awaitTimeoutMs) :
    ¬ ((n.callStore c now later).calls c).any StoreCall.won := by
  unfold callStore
  rw [hx]
  dsimp only
  split
  · dsimp only
    rw [update_self]
    unfold RedisIdempotencyStore.claim
    split <;> exact Bool.false_ne_true
  next hphase =>
    dsimp only
    rw [update_self]
    unfold RedisIdempotencyStore.awaitResult
    split
    · exact Bool.false_ne_true
    next l1 hget =>
      rcases htime hphase with hsome | hlt
      · rw [hget] at hsome
        cases hsome
      · rw [RedisIdempotencyStore.poll, if_pos hlt]
        exact Bool.false_ne_true
  · dsimp only
    rw [update_self]
    exact Bool.false_ne_true

theorem keeps_callStore {r : Replica T} (hx : r.calls[c]? = some x)
    (hother : ∀ d, d ≠ c → r.calls[d]? = n.replica.calls[d]?)
    (hexec : x.key ≠ [] → x.executing → n.owns x.key c)
    (htime : x.phase = .polling →
      (n.store.l1.get x.key now).1.isSome ∨ later < now + n.awaitTimeoutMs) :
    n.Keeps ({ n with replica := r }.callStore c now later) := by
  intro key d hkey howns
  by_cases hd : d = c
  · subst hd
    obtain ⟨y, hy, hykey, hcase⟩ := owns_iff.mp howns
    rw [replica_callStore] at hy
    cases hx.symm.trans hy
    rw [← hykey] at hkey ⊢
    rcases hcase with hexec' | ⟨-, hwon⟩
    · exact hexec hkey hexec'
    · exact absurd hwon (not_won_callStore hx htime)
  · have hreplica : ({ n with replica := r }.callStore c now later).replica.calls[d]? =
        n.replica.calls[d]? := by
      rw [replica_callStore]
      exact hother d hd
    rw [owns_congr hreplica (calls_callStore_ne hd)] at howns
    exact howns

theorem keeps_goOn {next : TwoTierIdempotency T × BeginPhase T}
    (hx : n.replica.calls[c]? = some x)
    (hexec : next.2 = .returned .execute → x.phase.asking ∧ (n.calls c).any StoreCall.won)
    (htime : next.2 = .polling →
      (n.store.l1.get x.key now).1.isSome ∨ later < now + n.awaitTimeoutMs) :
    n.Keeps ({ n with replica := n.replica.goOn c x next }.callStore c now later) := by
  refine keeps_callStore (Replica.calls_goOn_self hx next)
    (fun d hd => Replica.calls_goOn_ne hd next) (fun _ hexecuting => ?_) htime
  exact owns_iff.mpr ⟨x, hx, rfl, .inr (hexec (BeginCall.executing_iff.mp hexecuting).1)⟩

theorem keeps_update {store : RedisIdempotencyStore T} {call call' : StoreCall T}
    (hcall : n.calls c = some call) (hwon : call'.won → call.won) :
    n.Keeps { n with store, calls := Function.update n.calls c (some call') } := by
  intro key d _ howns
  by_cases hd : d = c
  · subst hd
    obtain ⟨x, hx, hkey, hcase⟩ := owns_iff.mp howns
    refine owns_iff.mpr ⟨x, hx, hkey, hcase.imp_right fun ⟨hasking, hwon'⟩ => ⟨hasking, ?_⟩⟩
    dsimp only at hwon'
    rw [update_self] at hwon'
    rw [hcall]
    exact hwon hwon'
  · have hsame : owns { n with store, calls := update n.calls c (some call') } key d =
        n.owns key d := owns_congr rfl (update_of_ne hd _ _)
    rw [hsame] at howns
    exact howns

theorem Wired.step {r : Replica T} (h : n.Wired) (hr : n.replica.step frozen a = some r) :
    Wired ({ n with replica := r }.callStore c now later) := by
  unfold Wired
  rw [replica_callStore]
  exact (Replica.distributed_step hr).trans h

/-! ### The caller is done -/

theorem owns_of_holds (h : n.replica.holds c key) : n.owns key c := by
  obtain ⟨x, hx, hkey, hexec⟩ := Replica.holds_iff.mp h
  exact owns_iff.mpr ⟨x, hx, hkey, .inl hexec⟩

theorem owns_close {runtime : TwoTierIdempotency T} {k : JsString} (h : n.replica.holds c key)
    (hreplica : n'.replica = n.replica.close c runtime) (hcalls : n'.calls = n.calls)
    (howns : n'.owns k d) : n.owns k d ∧ d ≠ c := by
  by_cases hd : d = c
  · subst hd
    obtain ⟨x, hx, -, hexec⟩ := Replica.holds_iff.mp h
    obtain ⟨y, hy, -, hcase⟩ := owns_iff.mp howns
    rw [hreplica, Replica.calls_close_self hx] at hy
    cases hy
    rcases hcase with hexec' | ⟨hasking, -⟩
    · cases (BeginCall.executing_iff.mp hexec').2
    · dsimp only at hasking
      rw [(BeginCall.executing_iff.mp hexec).1] at hasking
      cases hasking
  · have hsame : n'.owns k d = n.owns k d :=
      owns_congr (by rw [hreplica, Replica.calls_close_ne hd]) (by rw [hcalls])
    rw [hsame] at howns
    exact ⟨howns, hd⟩

variable (n key c now frozen codec) in
theorem commit_spec (value : T) (fingerprint : Option JsString) : ∃ store,
    (n.commit frozen codec c key value fingerprint now).1 = { n with
      replica := n.replica.close c
        ((n.replica.runtime.commit frozen key value fingerprint now).getD n.replica.runtime)
      store } := by
  unfold commit
  cases n.replica.runtime.commit frozen key value fingerprint now with
  | none => exact ⟨_, rfl⟩
  | some runtime =>
    dsimp only
    split <;> exact ⟨_, rfl⟩

end RedisNode

/-! ## One key of the cluster -/

namespace RedisCluster

/-- Only a caller that was told to execute commits or releases, once and under its key. -/
def Orderly (s : RedisCluster T) : RedisAction T → Prop
  | .commit i c key _ _ _ => (s.nodes i).replica.holds c key
  | .release i c key => (s.nodes i).replica.holds c key
  | _ => True

instance (s : RedisCluster T) (a : RedisAction T) : Decidable (s.Orderly a) := by
  cases a <;> unfold Orderly <;> infer_instance

/-- No wait runs into its deadline, and no failure makes a call execute. -/
def Calm (s : RedisCluster T) : RedisAction T → Prop
  | .answer i c now later => (s.nodes i).BeginsInTime c now later
  | .wake i c now => (s.nodes i).WakesInTime c now
  | .fail i c => (s.nodes i).FailsSafe c
  | _ => True

instance (s : RedisCluster T) (a : RedisAction T) : Decidable (s.Calm a) := by
  cases a <;> unfold Calm <;> infer_instance

def Undisturbed (s : RedisCluster T) (a : RedisAction T) : Prop := s.Orderly a ∧ s.Calm a

instance (s : RedisCluster T) (a : RedisAction T) : Decidable (s.Undisturbed a) :=
  inferInstanceAs (Decidable (_ ∧ _))

/-- What a write does to the key, if it is one of this key. -/
def writesTo (keyPrefix key : JsString) (w : Option RedisWrite) : Option (Option JsString) :=
  w.bind fun w => if w.key = keyPrefix ++ key then some w.value else none

def cell (keyPrefix : JsString) (s : RedisCluster T) (key : JsString) :
    ClaimCell (Nat × Nat) JsString where
  owner := {p | (s.nodes p.1).owns key p.2}
  pending := s.writes.filterMap (writesTo keyPrefix key)
  value := s.redis (keyPrefix ++ key)
  sent := ∃ entry, (key, entry) ∈ s.commits

/-- A caller is done with its key: its call is closed, and a write of the key may be sent. -/
structure Closes (keyPrefix : JsString) (s s' : RedisCluster T) (i c : Nat) (k : JsString)
    (n : RedisNode T) (w : Option RedisWrite) (entries : List (JsString × IdempotencyEnvelope T)) :
    Prop where
  nodes : s'.nodes = (s.setNode i n).nodes
  replica : ∃ runtime, runtime.settings = (s.nodes i).replica.runtime.settings ∧
    n.replica = (s.nodes i).replica.close c runtime
  calls : n.calls = (s.nodes i).calls
  redis : s'.redis = s.redis
  writes : s'.writes = s.writes ++ [w]
  key : ∀ x ∈ w, x.key = keyPrefix ++ k
  commits : s'.commits = s.commits ++ entries
  value : ∀ e ∈ entries, e.1 = k ∧ ∀ x ∈ w, x.value ≠ none
  single : ∀ e ∈ entries, entries = [e]

variable {s s' : RedisCluster T} {a : RedisAction T} {i c j : Nat} {n : RedisNode T}
  {key k : JsString} {w : Option RedisWrite} {entries : List (JsString × IdempotencyEnvelope T)}

theorem owner_subset {o : Set (Nat × Nat)} (hnodes : s'.nodes = (s.setNode i n).nodes)
    (hself : ∀ c, n.owns key c → (i, c) ∈ o)
    (hother : ∀ d c, d ≠ i → (s.nodes d).owns key c → (d, c) ∈ o) :
    (s'.cell keyPrefix key).owner ⊆ o := by
  rintro ⟨d, c⟩ hp
  have howns : (s'.nodes d).owns key c := hp
  rw [hnodes] at howns
  by_cases hd : d = i
  · subst hd
    rw [nodes_setNode_self] at howns
    exact hself c howns
  · rw [nodes_setNode_ne hd] at howns
    exact hother d c hd howns

theorem closes_commit {value : T} {fingerprint : Option JsString} {now : Int}
    (hs : s.step frozen codec keyPrefix (.commit i c k value fingerprint now) = some s') :
    Closes keyPrefix s s' i c k ((s.nodes i).commit frozen codec c k value fingerprint now).1
      (((s.nodes i).commit frozen codec c k value fingerprint now).2.map
        fun blob => { key := keyPrefix ++ k, value := some blob })
      [(k, idempotencyEnvelope value fingerprint)] := by
  obtain rfl := Option.some.inj hs
  obtain ⟨store, hcommit⟩ := (s.nodes i).commit_spec frozen codec k c now value fingerprint
  refine ⟨rfl, ⟨_, (TwoTierIdempotency.touch_commit value).settings, by rw [hcommit]⟩,
    by rw [hcommit], rfl, rfl, fun x hx => ?_, rfl, fun e he => ⟨?_, fun x hx => ?_⟩,
    fun e he => ?_⟩
  · obtain ⟨blob, -, rfl⟩ := Option.map_eq_some_iff.mp hx
    rfl
  · rw [mem_singleton.mp he]
  · obtain ⟨blob, -, rfl⟩ := Option.map_eq_some_iff.mp hx
    exact Option.some_ne_none blob
  · rw [mem_singleton.mp he]

theorem closes_release (hs : s.step frozen codec keyPrefix (.release i c k) = some s') :
    Closes keyPrefix s s' i c k ((s.nodes i).release c k) (if k ≠ [] && (s.nodes i).store.del then
      some { key := keyPrefix ++ k, value := none } else none) [] := by
  obtain rfl := Option.some.inj hs
  refine ⟨rfl, ⟨_, (TwoTierIdempotency.touch_release frozen fun _ => False).settings, rfl⟩, rfl,
    rfl, rfl, fun x hx => ?_, (append_nil _).symm, nofun, nofun⟩
  split at hx
  · cases hx
    rfl
  · cases hx

theorem pending_set {l : List (Option RedisWrite)} {w : RedisWrite} (hw : l[j]? = some (some w)) :
    (l.filterMap (writesTo keyPrefix key)).Perm ((writesTo keyPrefix key (some w)).toList ++
      (l.set j none).filterMap (writesTo keyPrefix key)) := by
  induction l generalizing j with
  | nil => cases hw
  | cons x l ih =>
    cases j with
    | zero =>
      cases hw
      cases h : writesTo keyPrefix key (some w) with
      | none => rw [filterMap_cons_none h]; rfl
      | some v => rw [filterMap_cons_some h]; rfl
    | succ j =>
      rw [set_cons_succ]
      cases h : writesTo keyPrefix key x with
      | none =>
        rw [filterMap_cons_none h, filterMap_cons_none h]
        exact ih hw
      | some v =>
        rw [filterMap_cons_some h, filterMap_cons_some h]
        exact ((ih hw).cons v).trans perm_middle.symm

/-! ### Every step -/

theorem Closes.wired (hc : Closes keyPrefix s s' i c k n w entries)
    (h : ∀ i, (s.nodes i).Wired) : ∀ i, (s'.nodes i).Wired := by
  obtain ⟨runtime, hsettings, hreplica⟩ := hc.replica
  refine forall_nodes h hc.nodes ?_
  unfold RedisNode.Wired
  rw [hreplica]
  exact (congrArg Prod.snd hsettings).trans (h i)

theorem wired_step (h : ∀ i, (s.nodes i).Wired) (hs : s.step frozen codec keyPrefix a = some s') :
    ∀ i, (s'.nodes i).Wired := by
  cases does_step hs with
  | @runs i _ _ _ _ _ _ hr => exact forall_nodes h rfl ((h i).step hr)
  | @goesOn i _ _ _ _ _ _ _ _ => exact forall_nodes h rfl (h i)
  | @claims i _ _ _ _ => exact forall_nodes h rfl (h i)
  | commits hs => exact (closes_commit hs).wired h
  | releases hs => exact (closes_release hs).wired h
  | writes _ | loses _ => exact h

variable {b : ReplicaAction T} {now later : Int} {r : Replica T}

/-- The runtime executes only with a claim, since no wait ends without a result. -/
theorem Drives.keeps (hd : s.Drives i a b now later) (hwired : (s.nodes i).Wired)
    (hcalm : s.Calm a) (hr : (s.nodes i).replica.step frozen b = some r) :
    (s.nodes i).Keeps ({ s.nodes i with replica := r }.callStore (b.caller (s.nodes i).replica)
      now later) := by
  cases hd with
  | begin key fingerprint now =>
    obtain ⟨hexec, htime⟩ := TwoTierIdempotency.begin_phase hwired
    obtain rfl := Replica.step_begin hr
    exact RedisNode.keeps_callStore getElem?_concat_length
      (fun d hd => Trace.getElem?_snoc_ne hd)
      (fun hkey hexecuting => absurd (BeginCall.executing_iff.mp hexecuting).1 (hexec hkey))
      fun hphase => absurd hphase htime
  | resume c now =>
    obtain ⟨x, p, lease, outcome, hx, -, -, -, rfl⟩ := Replica.step_resume hr
    obtain ⟨hexec, htime⟩ := (TwoTierIdempotency.stretch_resume frozen outcome).phase hwired
    exact RedisNode.keeps_goOn hx (fun heq => absurd heq hexec) fun heq => absurd heq htime
  | @claimed c claim _ _ hclaim =>
    obtain ⟨x, _, hx, hphase, ⟨rfl⟩, rfl⟩ := Replica.step_reacts hr fun _ => rfl
    obtain ⟨hexec, hpoll⟩ := TwoTierIdempotency.claimed_phase hwired claim
    refine RedisNode.keeps_goOn hx (fun heq => ⟨hphase, ?_⟩) fun heq => ?_
    · show ((s.nodes i).calls c).any StoreCall.won
      rw [hclaim]
      by_contra hlost
      exact hexec hlost heq
    · obtain ⟨hlost, hnone⟩ := hpoll heq
      have htime : (s.nodes i).BeginsInTime c now later := hcalm
      unfold RedisNode.BeginsInTime at htime
      rw [hclaim, show (s.nodes i).replica.calls[c]? = some x from hx] at htime
      exact (htime.resolve_left hlost).resolve_left hnone
  | @awaited c existing _ _ hexisting =>
    obtain ⟨x, _, hx, hphase, ⟨rfl⟩, rfl⟩ := Replica.step_reacts hr fun _ => rfl
    obtain ⟨hexec, hpoll⟩ := TwoTierIdempotency.awaited_phase existing
    refine RedisNode.keeps_goOn hx (fun heq => ⟨hphase, ?_⟩) fun heq => absurd heq hpoll
    show ((s.nodes i).calls c).any StoreCall.won
    rw [hexisting]
    cases existing with
    | none => rfl
    | some entry => exact absurd heq (hexec rfl)
  | rejected _ =>
    obtain ⟨x, _, hx, -, ⟨rfl⟩, rfl⟩ := Replica.step_reacts hr fun _ => rfl
    exact RedisNode.keeps_goOn hx nofun nofun

theorem Drives.opens {d : Nat} {x : BeginCall T} (hd : s.Drives i a b now later)
    (hr : (s.nodes i).replica.step frozen b = some r) (hx : r.calls[d]? = some x)
    (hclosed : x.closed) :
    ∃ y, (s.nodes i).replica.calls[d]? = some y ∧ y.key = x.key ∧ y.closed := by
  by_cases hself : d = b.caller (s.nodes i).replica
  · subst hself
    cases Replica.did_step hr with
    | began key fingerprint now =>
      cases getElem?_concat_length.symm.trans hx
      cases hclosed
    | wentOn hcall _ _ =>
      cases (Replica.calls_goOn_self hcall _).symm.trans hx
      exact ⟨_, hcall, rfl, hclosed⟩
    | committed _ | released _ => cases hd
  · exact ⟨x, (Replica.calls_step_ne hr hself).symm.trans hx, rfl, hclosed⟩

theorem GoesOn.won {call : StoreCall T} {next : RedisIdempotencyStore T × StoreCall T}
    (h : GoesOn frozen codec keyPrefix s i c key a call next) (hcalm : s.Calm a)
    (hcall : (s.nodes i).calls c = some call) : next.2.won → call.won := by
  cases h with
  | lost | read => exact nofun
  | reply hf =>
    unfold RedisIdempotencyStore.replied at hf
    split at hf
    · exact fun _ => rfl
    · cases hf
      exact nofun
    · cases hf
      exact nofun
    · split at hf <;> cases hf <;> exact nofun
    · cases hf
  | fail hf =>
    -- with the policy to throw the call is rejected, and a lost claim has just found no result
    unfold RedisIdempotencyStore.failed RedisIdempotencyStore.onReadError at hf
    rcases hcalm with hclosed | hread
    · rw [hclosed] at hf
      dsimp only at hf
      split at hf <;> cases hf <;> exact nofun
    · rw [hcall] at hread
      split at hf
      · exact hread.elim
      · split at hf <;> cases hf <;> exact nofun
      · exact hread.elim
      · cases hf
  | @wake deadline now =>
    have htime : (s.nodes i).WakesInTime c now := hcalm
    unfold RedisNode.WakesInTime at htime
    rw [hcall] at htime
    rw [RedisIdempotencyStore.poll, if_pos htime]
    exact nofun

theorem next_claim {x : BeginCall T} (hx : (s.nodes i).replica.calls[c]? = some x)
    (hnone : s.redis (keyPrefix ++ x.key) = none) :
    ClaimCell.Next idempotencyInProgress (s.cell keyPrefix key)
      ((s.give keyPrefix i c x.key).cell keyPrefix key) := by
  have hother (d : Nat) (howns : ((s.nodes i).setCall c (.setNx (some true))).owns key d) :
      (d = c ∧ x.key = key) ∨ (s.nodes i).owns key d := by
    by_cases hd : d = c
    · subst hd
      obtain ⟨y, hy, hykey, -⟩ := RedisNode.owns_iff.mp howns
      cases hx.symm.trans hy
      exact .inl ⟨rfl, hykey⟩
    · have hsame : ((s.nodes i).setCall c (.setNx (some true))).owns key d =
          (s.nodes i).owns key d := RedisNode.owns_congr rfl (update_of_ne hd _ _)
      exact .inr (hsame ▸ howns)
  by_cases hk : x.key = key
  · refine .claim (i, c) (by rw [← hk]; exact hnone) ?_ rfl ?_ fun h => h
    · refine owner_subset rfl (fun d howns => ?_) fun d e _ howns => .inr howns
      exact (hother d howns).imp_left fun hd => by rw [hd.1]
    · show update s.redis _ _ (keyPrefix ++ key) = _
      rw [← hk, update_self]
  · refine .keep ?_ (List.Subperm.refl _) ?_ fun h => h
    · refine owner_subset rfl (fun d howns => ?_) fun _ _ _ h => h
      exact (hother d howns).resolve_left fun hd => hk hd.2
    · show update s.redis _ _ (keyPrefix ++ key) = _
      exact update_of_ne (fun heq => hk (append_cancel_left heq).symm) _ _

theorem Closes.next (hholds : (s.nodes i).replica.holds c k)
    (h : Closes keyPrefix s s' i c k n w entries) :
    ClaimCell.Next idempotencyInProgress (s.cell keyPrefix key) (s'.cell keyPrefix key) := by
  obtain ⟨runtime, -, hreplica⟩ := h.replica
  have howner : (s'.cell keyPrefix key).owner ⊆ (s.cell keyPrefix key).owner \ {(i, c)} := by
    refine owner_subset h.nodes (fun d howns => ?_) fun d e hd howns => ?_
    · obtain ⟨howns', hne⟩ := RedisNode.owns_close hholds hreplica h.calls howns
      exact ⟨howns', fun heq => hne (Prod.mk.inj heq).2⟩
    · exact ⟨howns, fun heq => hd (Prod.mk.inj heq).1⟩
  have hvalue : (s'.cell keyPrefix key).value = (s.cell keyPrefix key).value :=
    congrFun h.redis _
  have hpending : (s'.cell keyPrefix key).pending =
      (s.cell keyPrefix key).pending ++ (writesTo keyPrefix key w).toList := by
    show s'.writes.filterMap _ = _
    rw [h.writes, filterMap_append]
    cases hw : writesTo keyPrefix key w with
    | none => rw [filterMap_cons_none hw]; rfl
    | some v => rw [filterMap_cons_some hw]; rfl
  have hsent : (s'.cell keyPrefix key).sent →
      (s.cell keyPrefix key).sent ∨ k = key ∧ ∀ x ∈ w, x.value ≠ none := by
    rintro ⟨entry, hentry⟩
    rw [h.commits] at hentry
    rcases mem_append.mp hentry with hold | hnew
    · exact .inl ⟨entry, hold⟩
    · obtain ⟨hk, hw⟩ := h.value _ hnew
      exact .inr ⟨hk.symm, hw⟩
  by_cases hk : k = key
  · subst hk
    cases w with
    | none =>
      refine .give (i, c) (some []) (RedisNode.owns_of_holds hholds) howner ?_ hvalue
        fun _ => .inr (Option.some_ne_none _)
      rw [hpending]
      exact ((nil_sublist _).append_left _).subperm
    | some x =>
      refine .give (i, c) x.value (RedisNode.owns_of_holds hholds) howner ?_ hvalue
        fun hs => (hsent hs).imp_right fun hw => hw.2 x rfl
      rw [hpending, writesTo, Option.bind_some, if_pos (h.key x rfl)]
      exact List.Subperm.refl _
  · refine .keep (fun _ hp => (howner hp).1) ?_ hvalue fun hs =>
      (hsent hs).resolve_right fun hnew => hk hnew.1
    have hnone : writesTo keyPrefix key w = none := by
      cases w with
      | none => rfl
      | some x =>
        rw [writesTo, Option.bind_some, h.key x rfl]
        exact if_neg fun heq => hk (append_cancel_left heq)
    rw [hpending, hnone, Option.toList_none, append_nil]

/-- One key of the cluster is a cell that is claimed before it is written. -/
theorem cell_next (h : ∀ i, (s.nodes i).Wired) (hok : s.Undisturbed a) (hkey : key ≠ [])
    (hs : s.step frozen codec keyPrefix a = some s') :
    ClaimCell.Next idempotencyInProgress (s.cell keyPrefix key) (s'.cell keyPrefix key) := by
  obtain ⟨horderly, hcalm⟩ := hok
  have hkeeps {i : Nat} {n : RedisNode T} (hkeeps : (s.nodes i).Keeps n) :
      ClaimCell.Next idempotencyInProgress (s.cell keyPrefix key)
        ((s.setNode i n).cell keyPrefix key) :=
    .keep (owner_subset rfl (fun c => hkeeps key c hkey) fun _ _ _ h => h) (List.Subperm.refl _)
      rfl fun h => h
  cases does_step hs with
  | runs hd hr => exact hkeeps (hd.keeps (h _) hcalm hr)
  | goesOn _ hcall hn => exact hkeeps (RedisNode.keeps_update hcall (hn.won hcalm hcall))
  | claims hx hnone => exact next_claim hx hnone
  | commits hs => exact (closes_commit hs).next horderly
  | releases hs => exact (closes_release hs).next horderly
  | @writes j w hw =>
    have hperm : (s.writes.filterMap (writesTo keyPrefix key)).Perm _ := pending_set hw
    by_cases hk : w.key = keyPrefix ++ key
    · rw [writesTo, Option.bind_some, if_pos hk] at hperm
      refine .arrive ?_ subset_rfl fun h => h
      show List.Perm _ (update s.redis w.key w.value (keyPrefix ++ key) :: _)
      rw [← hk, update_self]
      exact hperm
    · rw [writesTo, Option.bind_some, if_neg hk] at hperm
      exact .keep subset_rfl hperm.symm.subperm (update_of_ne (Ne.symm hk) _ _) fun h => h
  | loses hw =>
    refine .keep subset_rfl ?_ rfl fun h => h
    exact (sublist_append_right _ _).subperm.trans (pending_set hw).symm.subperm

end RedisCluster

section Run

variable {opts : Nat → RedisNodeOptions} {s : RedisCluster T}

theorem custody_reach
    (h : (redisMachine frozen codec keyPrefix opts).Reach RedisCluster.Undisturbed s) :
    (∀ i, (s.nodes i).Wired) ∧ ∀ key, key ≠ [] →
      ClaimCell.Custody idempotencyInProgress (s.cell keyPrefix key) := by
  refine h.invariant ?_ ?_
  · refine ⟨fun _ => rfl, fun key _ => .free ?_ rfl ?_⟩
    · refine Set.eq_empty_iff_forall_notMem.mpr fun p hp => ?_
      exact Bool.false_ne_true hp
    · rintro ⟨entry, hentry⟩
      cases hentry
  · rintro s s' a - ⟨hwired, hcustody⟩ hok hstep
    exact ⟨RedisCluster.wired_step hwired hstep, fun key hkey =>
      (hcustody key hkey).next (RedisCluster.cell_next hwired hok hkey hstep)⟩

end Run

end NevoMessaging
