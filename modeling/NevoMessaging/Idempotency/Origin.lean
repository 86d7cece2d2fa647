import NevoMessaging.Idempotency.Runtime
import NevoMessaging.Lib.Machine

/-!
# Where a hit comes from

A call of `begin` may take its entry from `l1`, from the leader it has awaited, or from the store
(from its claim, its wait or a plain read), and it refills `l1` and serves the waiting calls with
it. Every place that holds an entry of a key holds only entries that were committed under this key.

Results:
1. `Tidy.touch`, `Tidy.stretch`: each operation keeps what the runtime knows in order.
2. `origin_reach`: in every run of any number of replicas.
3. `hit_was_committed`: a hit has its commit, and a conflict its other fingerprint.
-/

namespace NevoMessaging

open List Function

variable {T : Type} {known known' : JsString → IdempotencyEnvelope T → Prop}
  {frozen : IdempotencyEnvelope T → Bool}

/-- Everything that the runtime has for a key is known for this key. -/
structure Tidy (known : JsString → IdempotencyEnvelope T → Prop) (t : TwoTierIdempotency T) :
    Prop where
  cached : ∀ key n, t.l1.find? key = some n → known key n.value
  led : ∀ (p : Nat) (lease : Lease T) (entry : IdempotencyEnvelope T), t.leases[p]? = some lease →
    lease.outcome = some (some entry) → known lease.key entry
  leader : ∀ key p, t.leaders key = some p → ∃ lease, t.leases[p]? = some lease ∧ lease.key = key
  inflight : ∀ key p, t.inflight key = some p → ∃ lease, t.leases[p]? = some lease ∧ lease.key = key

/-- The leases of `t` are still there, with their keys. -/
def LeasesStay (t t' : TwoTierIdempotency T) : Prop :=
  ∀ (p : Nat) (lease : Lease T), t.leases[p]? = some lease →
    ∃ lease' : Lease T, t'.leases[p]? = some lease' ∧ lease'.key = lease.key

/-- The result of `begin(key, fingerprint)` is backed by an entry of the key. -/
def Backed (known : JsString → IdempotencyEnvelope T → Prop) (key : JsString)
    (fingerprint : Option JsString) : IdempotencyBegin T → Prop
  | .hit value => ∃ f, known key { f, v := value } ∧
      (f = fingerprint ∨ f = none ∨ fingerprint = none)
  | .conflict => ∃ f g value, known key { f := some f, v := value } ∧
      fingerprint = some g ∧ f ≠ g
  | .execute => True

/-- The call waits for a lease of its key, or its result is backed. -/
def Fair (known : JsString → IdempotencyEnvelope T → Prop) (t : TwoTierIdempotency T)
    (key : JsString) (fingerprint : Option JsString) : BeginPhase T → Prop
  | .waiting p => ∃ lease, t.leases[p]? = some lease ∧ lease.key = key
  | .returned result => Backed known key fingerprint result
  | _ => True

section Runtime

variable {t t' : TwoTierIdempotency T} {key : JsString} {fingerprint : Option JsString} {now : Int}
  {entry : IdempotencyEnvelope T}

theorem Backed.mono {result : IdempotencyBegin T} (h : Backed known key fingerprint result)
    (hknown : ∀ key entry, known key entry → known' key entry) :
    Backed known' key fingerprint result := by
  cases result with
  | hit value =>
    obtain ⟨f, hf, hsame⟩ := h
    exact ⟨f, hknown _ _ hf, hsame⟩
  | conflict =>
    obtain ⟨f, g, value, hf, hother⟩ := h
    exact ⟨f, g, value, hknown _ _ hf, hother⟩
  | execute => trivial

theorem Fair.mono {phase : BeginPhase T} (h : Fair known t key fingerprint phase)
    (hknown : ∀ key entry, known key entry → known' key entry) (hleases : LeasesStay t t') :
    Fair known' t' key fingerprint phase := by
  cases phase with
  | waiting p =>
    obtain ⟨lease, hlease, hkey⟩ := h
    obtain ⟨lease', hlease', hkey'⟩ := hleases p lease hlease
    exact ⟨lease', hlease', hkey'.trans hkey⟩
  | returned result => exact Backed.mono h hknown
  | claiming | polling | reading | thrown => trivial

theorem Tidy.mono (h : Tidy known t) (hknown : ∀ key entry, known key entry → known' key entry) :
    Tidy known' t where
  cached key n hn := hknown _ _ (h.cached key n hn)
  led p lease entry hl ho := hknown _ _ (h.led p lease entry hl ho)
  leader := h.leader
  inflight := h.inflight

theorem fingerprintConflicts_cases (stored incoming : Option JsString) :
    (fingerprintConflicts stored incoming = true ∧
      ∃ f g, stored = some f ∧ incoming = some g ∧ f ≠ g) ∨
    (fingerprintConflicts stored incoming = false ∧
      (stored = incoming ∨ stored = none ∨ incoming = none)) := by
  cases stored with
  | none => exact .inr ⟨rfl, .inr (.inl rfl)⟩
  | some f =>
    cases incoming with
    | none => exact .inr ⟨rfl, .inr (.inr rfl)⟩
    | some g =>
      by_cases hfg : f = g
      · exact .inr ⟨by simp [fingerprintConflicts, hfg], .inl (congrArg some hfg)⟩
      · exact .inl ⟨by simp [fingerprintConflicts, hfg], f, g, rfl, rfl, hfg⟩

theorem backed_settle (h : known key entry) :
    Backed known key fingerprint (settle entry fingerprint) := by
  unfold settle
  rcases fingerprintConflicts_cases entry.f fingerprint with
    ⟨hconflict, f, g, hf, hg, hne⟩ | ⟨hconflict, hsame⟩
  · rw [if_pos hconflict]
    refine ⟨f, g, entry.v, ?_, hg, hne⟩
    rw [← hf]
    exact h
  · rw [if_neg (by rw [hconflict]; exact Bool.false_ne_true)]
    exact ⟨entry.f, h, hsame⟩

theorem leasesStay_refl (t : TwoTierIdempotency T) : LeasesStay t t :=
  fun _ lease h => ⟨lease, h, rfl⟩

theorem lease_of_update {m : JsString → Option Nat} {k : JsString} {p : Nat}
    (hm : ∀ k p, m k = some p → ∃ lease, t.leases[p]? = some lease ∧ lease.key = k)
    (h : Function.update m key (some t.leases.length) k = some p) :
    ∃ lease, (t.openLease key).leases[p]? = some lease ∧ lease.key = k := by
  by_cases hk : k = key
  · rw [hk, update_self] at h
    cases h
    exact ⟨{ key }, getElem?_concat_length, hk.symm⟩
  · rw [update_of_ne hk] at h
    obtain ⟨lease, hlease, hkey⟩ := hm k p h
    refine ⟨lease, ?_, hkey⟩
    exact (List.getElem?_append_left (List.getElem?_eq_some_iff.mp hlease).1).trans hlease

theorem leasesStay_openLease : LeasesStay t (t.openLease key) := fun _ lease h =>
  ⟨lease, (List.getElem?_append_left (List.getElem?_eq_some_iff.mp h).1).trans h, rfl⟩

theorem Tidy.openLease (h : Tidy known t) : Tidy known (t.openLease key) where
  cached := h.cached
  led p lease entry hl ho := by
    rw [TwoTierIdempotency.openLease, getElem?_append] at hl
    split at hl
    · exact h.led p lease entry hl ho
    · rw [getElem?_singleton] at hl
      split at hl
      · cases hl
        cases ho
      · cases hl
  leader k p hk := lease_of_update h.leader hk
  inflight k p hk := lease_of_update h.inflight hk

theorem leasesStay_closeLease (outcome : Option (IdempotencyEnvelope T)) :
    LeasesStay t (t.closeLease key outcome) := by
  intro p lease h
  unfold TwoTierIdempotency.closeLease
  dsimp only
  split
  next q hq =>
    rw [getElem?_modify, h]
    refine ⟨_, rfl, ?_⟩
    dsimp only
    split <;> rfl
  · exact ⟨lease, h, rfl⟩

theorem Tidy.closeLease {outcome : Option (IdempotencyEnvelope T)} (h : Tidy known t)
    (houtcome : ∀ entry, outcome = some entry → known key entry) :
    Tidy known (t.closeLease key outcome) := by
  have hold {m : JsString → Option Nat} {k : JsString} {p : Nat}
      (hm : ∀ k p, m k = some p → ∃ lease, t.leases[p]? = some lease ∧ lease.key = k)
      (hk : update m key none k = some p) :
      ∃ lease, (t.closeLease key outcome).leases[p]? = some lease ∧ lease.key = k := by
    by_cases hkey : k = key
    · rw [hkey, update_self] at hk
      cases hk
    · rw [update_of_ne hkey] at hk
      obtain ⟨lease, hlease, hkey'⟩ := hm k p hk
      obtain ⟨lease', hlease', hkey''⟩ := leasesStay_closeLease outcome p lease hlease
      exact ⟨lease', hlease', hkey''.trans hkey'⟩
  refine ⟨h.cached, fun p lease entry hl ho => ?_, fun k p hk => hold h.leader hk,
    fun k p hk => hold h.inflight hk⟩
  unfold TwoTierIdempotency.closeLease at hl
  dsimp only at hl
  split at hl
  next q hq =>
    rw [getElem?_modify] at hl
    obtain ⟨lease₀, hlease₀, rfl⟩ := Option.map_eq_some_iff.mp hl
    by_cases hqp : q = p
    · -- the lease that is closed is one of this key
      obtain ⟨lease', hlease', hkey⟩ := h.leader key q hq
      subst hqp
      rw [hlease₀] at hlease'
      cases hlease'
      rw [if_pos rfl] at ho ⊢
      rw [hkey]
      exact houtcome entry (Option.some.inj ho)
    · rw [if_neg hqp] at ho ⊢
      exact h.led p lease₀ entry hlease₀ ho
  · exact h.led p lease entry hl ho

theorem Tidy.setL1 {l1 : LruIdempotencyCache (IdempotencyEnvelope T)} (h : Tidy known t)
    (hl1 : ∀ k n, l1.find? k = some n → known k n.value) : Tidy known { t with l1 } :=
  ⟨hl1, h.led, h.leader, h.inflight⟩

/-- What a stretch of a call leaves behind. -/
structure Sound (known : JsString → IdempotencyEnvelope T → Prop) (t : TwoTierIdempotency T)
    (key : JsString) (fingerprint : Option JsString)
    (next : TwoTierIdempotency T × BeginPhase T) : Prop where
  tidy : Tidy known next.1
  leases : LeasesStay t next.1
  fair : Fair known next.1 key fingerprint next.2

variable {source : IdempotencyEnvelope T → Prop} (hsource : ∀ entry, source entry → known key entry)

include hsource

theorem Tidy.touch (h : Tidy known t) (ht : t.Touch frozen key source t') :
    Tidy known t' ∧ LeasesStay t t' := by
  cases ht with
  | same => exact ⟨h, leasesStay_refl t⟩
  | opened _ => exact ⟨h.openLease, leasesStay_openLease⟩
  | @written entry l1 now hentry hset =>
    have hl1 : Tidy known { t with l1 } := by
      refine h.setL1 fun k n hn => ?_
      rcases LruIdempotencyCache.of_find?_set hset hn with ⟨rfl, rfl⟩ | hold
      · exact hsource _ hentry
      · exact h.cached k n hold
    refine ⟨hl1.closeLease ?_, leasesStay_closeLease (t := { t with l1 }) _⟩
    rintro _ ⟨rfl⟩
    exact hsource entry hentry
  | failed => exact ⟨h.closeLease nofun, leasesStay_closeLease _⟩

theorem Tidy.stretch {asked : Bool} {next : TwoTierIdempotency T × BeginPhase T}
    (h : Tidy known t) (hs : t.Stretch frozen key fingerprint source asked next) :
    Sound known t key fingerprint next := by
  obtain ⟨htidy, hleases⟩ := h.touch hsource hs.touch
  refine ⟨htidy, hleases, ?_⟩
  cases hs with
  | joined hp => exact h.inflight key _ hp
  | leads _ =>
    unfold TwoTierIdempotency.lead
    split
    · trivial
    · split <;> trivial
  | answered hentry | adopted hentry _ => exact backed_settle (hsource _ hentry)
  | executes | polls | throws => trivial

omit hsource

variable (key fingerprint now) in
theorem Tidy.begin (h : Tidy known t) :
    Sound known t key fingerprint (t.begin key fingerprint now) := by
  by_cases hskip : key = [] ∨ ¬ t.isEnabled
  · rw [TwoTierIdempotency.begin_skips hskip]
    exact ⟨h, leasesStay_refl t, trivial⟩
  · obtain ⟨hkey, henabled⟩ := not_or.mp hskip
    have hl1 : Tidy known { t with l1 := (t.l1.get key now).2 } :=
      h.setL1 fun k n hn => h.cached k n (LruIdempotencyCache.of_find?_get hn)
    have hknown (entry : IdempotencyEnvelope T) (hentry : (t.l1.get key now).1 = some entry) :
        known key entry := by
      obtain ⟨n, hn, rfl⟩ := LruIdempotencyCache.value_of_get hentry
      exact h.cached key n hn
    obtain ⟨htidy, hleases, hfair⟩ := hl1.stretch hknown
      (TwoTierIdempotency.stretch_begin (fun _ => false) hkey (not_not.mp henabled))
    exact ⟨htidy, hleases, hfair⟩

end Runtime

/-! ## One replica -/

structure Sourced (known : JsString → IdempotencyEnvelope T → Prop) (r : Replica T) : Prop where
  tidy : Tidy known r.runtime
  fair : ∀ (c : Nat) (x : BeginCall T), r.calls[c]? = some x →
    Fair known r.runtime x.key x.fingerprint x.phase

/-- What comes in with the action is known. -/
def Informed (known : JsString → IdempotencyEnvelope T → Prop) (r : Replica T) :
    ReplicaAction T → Prop
  | .claimed c claim _ => ∀ (x : BeginCall T) (entry : IdempotencyEnvelope T),
      r.calls[c]? = some x → claim.existing = some entry → known x.key entry
  | .awaited c existing _ => ∀ (x : BeginCall T) (entry : IdempotencyEnvelope T),
      r.calls[c]? = some x → existing = some entry → known x.key entry
  | .got c remote _ => ∀ (x : BeginCall T) (entry : IdempotencyEnvelope T),
      r.calls[c]? = some x → remote = some entry → known x.key entry
  | .commit _ key value fingerprint _ => known key (idempotencyEnvelope value fingerprint)
  | _ => True

namespace Sourced

variable {r r' : Replica T} {c : Nat}

theorem mono (h : Sourced known r) (hknown : ∀ key entry, known key entry → known' key entry) :
    Sourced known' r :=
  ⟨h.tidy.mono hknown, fun c x hx => (h.fair c x hx).mono hknown (leasesStay_refl _)⟩

theorem goOn {call : BeginCall T} {next : TwoTierIdempotency T × BeginPhase T}
    (h : Sourced known r) (hcall : r.calls[c]? = some call)
    (hs : Sound known r.runtime call.key call.fingerprint next) :
    Sourced known (r.goOn c call next) := by
  refine ⟨hs.tidy, fun d x hx => ?_⟩
  by_cases hd : d = c
  · rw [hd, Replica.calls_goOn_self hcall] at hx
    cases hx
    exact hs.fair
  · rw [Replica.calls_goOn_ne hd] at hx
    exact (h.fair d x hx).mono (fun _ _ hk => hk) hs.leases

theorem close {t : TwoTierIdempotency T} (h : Sourced known r)
    (ht : Tidy known t ∧ LeasesStay r.runtime t) : Sourced known (r.close c t) := by
  refine ⟨ht.1, fun d x hx => ?_⟩
  obtain ⟨y, hy, heq, -⟩ := Replica.of_calls_close hx
  rw [heq]
  exact (h.fair d y hy).mono (fun _ _ hk => hk) ht.2

theorem step {a : ReplicaAction T} (h : Sourced known r) (ha : Informed known r a)
    (hs : r.step frozen a = some r') : Sourced known r' := by
  cases Replica.did_step hs with
  | began key fingerprint now =>
    have hsound := h.tidy.begin key fingerprint now
    refine ⟨hsound.tidy, fun d x hx => ?_⟩
    by_cases hd : d = r.calls.length
    · rw [hd, getElem?_concat_length] at hx
      cases hx
      exact hsound.fair
    · rw [Trace.getElem?_snoc_ne hd] at hx
      exact (h.fair d x hx).mono (fun _ _ hk => hk) hsound.leases
  | @wentOn _ call _ hcall _ hstretch =>
    refine h.goOn hcall (h.tidy.stretch (fun entry hentry => ?_) hstretch)
    cases a with
    | resume c =>
      -- the call waits for a lease of its own key
      obtain ⟨p, lease, hphase, hlease, houtcome⟩ := hentry
      have hfair := h.fair c call hcall
      rw [hphase] at hfair
      obtain ⟨lease', hlease', hkey⟩ := hfair
      cases hlease.symm.trans hlease'
      rw [← hkey]
      exact h.tidy.led p lease entry hlease houtcome
    | claimed c claim now | awaited c existing now | got c remote now =>
      exact ha call entry hcall hentry
    | _ => exact hentry.elim
  | committed htouch => exact h.close (h.tidy.touch (fun _ heq => heq ▸ ha) htouch)
  | released htouch => exact h.close (h.tidy.touch (fun _ => False.elim) htouch)

end Sourced

/-! ## Any number of replicas -/

/-- The replicas, every commit so far, and what was given to `set` of the store. -/
structure Cluster (T : Type) where
  replicas : Nat → Replica T
  commits : List (JsString × IdempotencyEnvelope T) := []
  sets : List (JsString × IdempotencyEnvelope T) := []

namespace Cluster

def step (frozen : IdempotencyEnvelope T → Bool) (s : Cluster T) (a : Nat × ReplicaAction T) :
    Option (Cluster T) :=
  ((s.replicas a.1).step frozen a.2).map fun r =>
    let replicas := Function.update s.replicas a.1 r
    match a.2 with
    | .commit _ key value fingerprint now =>
      let entry := (key, idempotencyEnvelope value fingerprint)
      let written := key ≠ [] && (s.replicas a.1).runtime.distributed.isSome &&
        ((s.replicas a.1).runtime.commit frozen key value fingerprint now).isSome
      { replicas
        commits := s.commits ++ [entry]
        sets := if written then s.sets ++ [entry] else s.sets }
    | _ => { s with replicas }

/-- The store answers the call with an entry that was set under its key, if with any. -/
def Answers (s : Cluster T) (i c : Nat) (existing : Option (IdempotencyEnvelope T)) : Prop :=
  match existing, (s.replicas i).calls[c]? with
  | some entry, some x => (x.key, entry) ∈ s.sets
  | _, _ => True

instance [DecidableEq T] (s : Cluster T) (i c : Nat) (existing : Option (IdempotencyEnvelope T)) :
    Decidable (s.Answers i c existing) := by
  unfold Answers
  split <;> infer_instance

/-- The store returns only what was set under the key. -/
def Faithful (s : Cluster T) (a : Nat × ReplicaAction T) : Prop :=
  match a.2 with
  | .claimed c claim _ => s.Answers a.1 c claim.existing
  | .awaited c existing _ => s.Answers a.1 c existing
  | .got c remote _ => s.Answers a.1 c remote
  | _ => True

instance [DecidableEq T] (s : Cluster T) (a : Nat × ReplicaAction T) :
    Decidable (s.Faithful a) := by
  unfold Faithful
  split <;> infer_instance

end Cluster

/-- Each replica has options of its own. -/
def clusterMachine (frozen : IdempotencyEnvelope T → Bool) (l1Options : Nat → IdempotencyOptions)
    (distributed : Nat → Option IdempotencyStoreShape) :
    Machine (Cluster T) (Nat × ReplicaAction T) where
  init := { replicas := fun i => { runtime := .create (l1Options i) (distributed i) } }
  step := Cluster.step frozen

namespace Cluster

def committed (s : Cluster T) (key : JsString) (entry : IdempotencyEnvelope T) : Prop :=
  (key, entry) ∈ s.commits

variable {s s' : Cluster T} {a : Nat × ReplicaAction T}

theorem Answers.committed {i c : Nat} {existing : Option (IdempotencyEnvelope T)}
    (h : s.Answers i c existing) (hsets : s.sets ⊆ s.commits) {x : BeginCall T}
    {entry : IdempotencyEnvelope T} (hx : (s.replicas i).calls[c]? = some x)
    (hentry : existing = some entry) : s.committed x.key entry := by
  unfold Answers at h
  rw [hx, hentry] at h
  exact hsets h

theorem step_spec (hs : s.step frozen a = some s') :
    ∃ r, (s.replicas a.1).step frozen a.2 = some r ∧
      s'.replicas = Function.update s.replicas a.1 r ∧ s.commits ⊆ s'.commits ∧
      (s.sets ⊆ s.commits → s'.sets ⊆ s'.commits) ∧
      (s.sets ⊆ s.commits → s.Faithful a → Informed s'.committed (s.replicas a.1) a.2) := by
  obtain ⟨i, a⟩ := a
  obtain ⟨r, hr, rfl⟩ := Option.map_eq_some_iff.mp hs
  refine ⟨r, hr, ?_⟩
  cases a with
  | commit c key value fingerprint now =>
    refine ⟨rfl, subset_append_left _ _, fun hsets => ?_, fun _ _ =>
      mem_append_right _ mem_cons_self⟩
    dsimp only
    split
    · exact append_subset.mpr ⟨subset_append_of_subset_left _ hsets,
        subset_append_right _ _⟩
    · exact subset_append_of_subset_left _ hsets
  | begin key fingerprint now =>
    exact ⟨rfl, List.Subset.refl _, fun h => h, fun _ _ => trivial⟩
  | resume c | storeFailed c | release c key =>
    exact ⟨rfl, List.Subset.refl _, fun h => h, fun _ _ => trivial⟩
  | claimed c claim now | awaited c existing now | got c remote now =>
    exact ⟨rfl, List.Subset.refl _, fun h => h, fun hsets hf _ _ hx he => hf.committed hsets hx he⟩

end Cluster

section Run

variable {l1Options : Nat → IdempotencyOptions} {distributed : Nat → Option IdempotencyStoreShape}
  {s : Cluster T}

theorem origin_reach (h : (clusterMachine frozen l1Options distributed).Reach Cluster.Faithful s) :
    s.sets ⊆ s.commits ∧ ∀ i, Sourced s.committed (s.replicas i) := by
  refine h.invariant ?_ ?_
  · exact ⟨List.Subset.refl _, fun i => ⟨⟨nofun, nofun, nofun, nofun⟩, nofun⟩⟩
  · rintro s s' a - ⟨hsets, hsourced⟩ hok hstep
    obtain ⟨r, hr, hreplicas, hcommits, hsets', hinformed⟩ := Cluster.step_spec hstep
    have hmono (i : Nat) : Sourced s'.committed (s.replicas i) :=
      (hsourced i).mono fun _ _ hk => hcommits hk
    refine ⟨hsets' hsets, fun i => ?_⟩
    rw [hreplicas]
    by_cases hi : i = a.1
    · rw [hi, update_self]
      exact (hmono a.1).step (hinformed hsets hok) hr
    · rw [update_of_ne hi]
      exact hmono i

end Run

/-- In every run of any number of replicas over a store that returns only what was set under a key:
a call that returns a hit returns a value that was committed before for its key, with the
fingerprint of the call unless one of the two has none; and a call returns a conflict only if a
value was committed for its key with another fingerprint. -/
theorem hit_was_committed (frozen : IdempotencyEnvelope T → Bool)
    (l1Options : Nat → IdempotencyOptions) (distributed : Nat → Option IdempotencyStoreShape)
    (s : Cluster T)
    (h : (clusterMachine frozen l1Options distributed).Reach Cluster.Faithful s) :
    ∀ (i c : Nat) (x : BeginCall T), (s.replicas i).calls[c]? = some x →
      (∀ v, x.phase = .returned (.hit v) → ∃ f, (x.key, idempotencyEnvelope v f) ∈ s.commits ∧
        (f = x.fingerprint ∨ f = none ∨ x.fingerprint = none)) ∧
      (x.phase = .returned .conflict → ∃ f g v,
        (x.key, idempotencyEnvelope v (some f)) ∈ s.commits ∧ x.fingerprint = some g ∧ f ≠ g) := by
  intro i c x hx
  have hfair := ((origin_reach h).2 i).fair c x hx
  refine ⟨fun v hphase => ?_, fun hphase => ?_⟩
  · rw [hphase] at hfair
    exact hfair
  · rw [hphase] at hfair
    exact hfair

/-- The first replica commits, and the second one finds the value in the store, once for the same
payload and once for another one. -/
def twoPayloads : List (Nat × ReplicaAction Nat) :=
  [(0, .begin (.lit "k") (some (.lit "f")) 0), (0, .claimed 0 { acquired := true } 0),
    (0, .commit 0 (.lit "k") 7 (some (.lit "f")) 1),
    (1, .begin (.lit "k") (some (.lit "f")) 2),
    (1, .claimed 0 { acquired := false, existing := some { f := some (.lit "f"), v := 7 } } 2),
    (1, .begin (.lit "k") (some (.lit "g")) 3)]

theorem hit_was_committed_twice : ∃ s : Cluster Nat,
    (clusterMachine (fun _ => false) (fun _ => {}) (fun _ => some {})).Reach Cluster.Faithful s ∧
      (s.replicas 1).calls.map (fun x => (x.key, x.fingerprint, x.phase.result?)) =
        [(.lit "k", some (.lit "f"), some (.hit 7)), (.lit "k", some (.lit "g"), some .conflict)] ∧
      (∃ f, (.lit "k", idempotencyEnvelope 7 f) ∈ s.commits ∧
        (f = some (.lit "f") ∨ f = none ∨ some (JsString.lit "f") = none)) ∧
      ∃ f g v, (.lit "k", idempotencyEnvelope v (some f)) ∈ s.commits ∧
        some (JsString.lit "g") = some g ∧ f ≠ g := by
  obtain ⟨s, hs, hcalls⟩ := Machine.Reach.observe
    (clusterMachine (fun _ => false) (fun _ => {}) (fun _ => some {})) Cluster.Faithful twoPayloads
    (fun s => (s.replicas 1).calls.map fun x => (x.key, x.fingerprint, x.phase.result?))
    [(.lit "k", some (.lit "f"), some (.hit 7)), (.lit "k", some (.lit "g"), some .conflict)]
    (by decide +kernel)
  have hcall (c : Nat) {key : JsString} {f : Option JsString} {result : IdempotencyBegin Nat}
      (h : [(.lit "k", some (.lit "f"), some (.hit 7)),
        (.lit "k", some (.lit "g"), some .conflict)][c]? = some (key, f, some result)) :
      ∃ x : BeginCall Nat, (s.replicas 1).calls[c]? = some x ∧ x.key = key ∧ x.fingerprint = f ∧
        x.phase = .returned result := by
    rw [← hcalls, getElem?_map] at h
    obtain ⟨x, hx, heq⟩ := Option.map_eq_some_iff.mp h
    obtain ⟨hkey, heq⟩ := Prod.mk.inj heq
    obtain ⟨hf, hresult⟩ := Prod.mk.inj heq
    exact ⟨x, hx, hkey, hf, BeginPhase.eq_returned hresult⟩
  obtain ⟨x, hx, hkey, hf, hphase⟩ := hcall 0 rfl
  obtain ⟨y, hy, hkey', hf', hphase'⟩ := hcall 1 rfl
  have hhit := (hit_was_committed _ _ _ s hs 1 0 x hx).1 7 hphase
  have hconflict := (hit_was_committed _ _ _ s hs 1 1 y hy).2 hphase'
  rw [hkey, hf] at hhit
  rw [hkey', hf'] at hconflict
  exact ⟨s, hs, hcalls, hhit, hconflict⟩

end NevoMessaging
