import NevoMessaging.Idempotency.Runtime
import NevoMessaging.Lib.Election
import NevoMessaging.Lib.Machine

/-!
# One leader per key

A call leads its key from the moment it opens the lease until `begin` fails or finds an entry, or
until its caller commits or releases. Leadership passes on through the rejection of a promise, and
the store is awaited in between; the lease in `inflight` is what keeps the others out.

Results:
1. `elected_reach`: at most one leader per key, each with its lease.
2. `Stands.next`: after a commit the key has an entry, or a lease that nobody closes.
3. `one_leader_per_key`: no second `execute` beside a first one, nor after a commit.
-/

namespace NevoMessaging

open List

open Election (Turn)

variable {T : Type} {frozen : IdempotencyEnvelope T → Bool} {key : JsString}

/-! ## Leading calls -/

/-- The phases of a call that leads its key. -/
def BeginPhase.leads : BeginPhase T → Bool
  | .returned .execute => true
  | phase => phase.asking

theorem BeginPhase.leads_of_asking {phase : BeginPhase T} (h : phase.asking) : phase.leads := by
  unfold leads
  split
  · rfl
  · exact h

namespace BeginCall

/-- `begin` has returned `execute`, and the caller has neither committed nor released. -/
def executing (x : BeginCall T) : Bool :=
  match x.phase with
  | .returned .execute => !x.closed
  | _ => false

def leading (x : BeginCall T) : Bool := x.phase.asking || x.executing

variable {x : BeginCall T}

theorem executing_iff : x.executing ↔ x.phase = .returned .execute ∧ x.closed = false := by
  unfold executing
  split
  next hphase => simp [hphase]
  next hphase => exact ⟨nofun, fun h => absurd h.1 hphase⟩

theorem leading_of_executing (h : x.executing) : x.leading := by
  rw [leading, h, Bool.or_true]

theorem not_leading_closed (h : x.executing) : ¬ BeginCall.leading { x with closed := true } := by
  unfold leading executing
  dsimp only
  rw [(executing_iff.mp h).1]
  exact Bool.false_ne_true

theorem leads_of_leading (h : x.leading) : x.phase.leads := by
  rw [leading, Bool.or_eq_true] at h
  rcases h with hasking | hexec
  · exact BeginPhase.leads_of_asking hasking
  · rw [(executing_iff.mp hexec).1, BeginPhase.leads]

end BeginCall

namespace TwoTierIdempotency

variable {t : TwoTierIdempotency T} {fingerprint : Option JsString} {now : Int}

theorem not_leads_settle (entry : IdempotencyEnvelope T) :
    ¬ (BeginPhase.returned (settle entry fingerprint)).leads := by
  unfold settle
  split <;> exact Bool.false_ne_true

/-- What does not change: whether there is a cache and which store there is. -/
def settings (t : TwoTierIdempotency T) : Bool × Option IdempotencyStoreShape :=
  (t.l1.enabled, t.distributed)

theorem isEnabled_eq {t' : TwoTierIdempotency T} (h : t'.settings = t.settings) :
    t'.isEnabled = t.isEnabled := by
  obtain ⟨hl1, hstore⟩ := Prod.mk.inj h
  rw [isEnabled, isEnabled, hl1, hstore]

section Touch

variable {source : IdempotencyEnvelope T → Prop} {t' : TwoTierIdempotency T}

theorem Touch.settings (h : Touch frozen t key source t') : t'.settings = t.settings := by
  cases h with
  | same | opened _ | failed => rfl
  | written _ hset => exact Prod.ext (LruIdempotencyCache.enabled_set hset) rfl

theorem Touch.others (h : Touch frozen t key source t') :
    ∀ k ≠ key, t'.inflight k = t.inflight k := by
  intro k hk
  cases h with
  | same => rfl
  | opened _ | written _ _ | failed => exact Function.update_of_ne hk _ _

theorem Stretch.turn {asked : Bool} {next : TwoTierIdempotency T × BeginPhase T}
    (h : Stretch frozen t key fingerprint source asked next)
    (hlease : asked → (t.inflight key).isSome) :
    Turn t.inflight next.1.inflight key asked next.2.leads := by
  have hothers := h.touch.others
  cases h with
  | joined _ => exact .idle Bool.false_ne_true
  | leads hnone =>
    refine ⟨hothers, fun _ => ?_, fun _ _ => hnone, fun _ h => ?_⟩
    · show (Function.update t.inflight key _ key).isSome
      rw [Function.update_self]
      rfl
    · rw [hnone] at h
      cases h
  | @answered entry _ => exact .idle (not_leads_settle entry)
  | executes | polls => exact .same (hlease rfl)
  | @adopted entry _ _ _ _ => exact .done hothers (not_leads_settle entry)
  | throws => exact .done hothers Bool.false_ne_true

end Touch

theorem l1_begin (hkey : key ≠ []) (henabled : t.isEnabled) :
    (t.begin key fingerprint now).1.l1 = (t.l1.get key now).2 := by
  rw [begin_eq hkey henabled]
  split
  · rfl
  · unfold elect
    split <;> rfl

theorem settings_begin : (t.begin key fingerprint now).1.settings = t.settings := by
  by_cases h : key = [] ∨ ¬ t.isEnabled
  · rw [begin_skips h]
  · obtain ⟨hkey, henabled⟩ := not_or.mp h
    exact (stretch_begin (fun _ => false) hkey (not_not.mp henabled)).touch.settings.trans
      (Prod.ext LruIdempotencyCache.enabled_get rfl)

end TwoTierIdempotency

/-! ## One leader in every run -/

namespace Replica

def holds (r : Replica T) (c : Nat) (key : JsString) : Bool :=
  (r.calls[c]?).any fun x => x.key = key && x.executing

theorem holds_iff {r : Replica T} {c : Nat} {key : JsString} : r.holds c key ↔
    ∃ x, r.calls[c]? = some x ∧ x.key = key ∧ x.executing := by
  unfold holds
  rw [Option.any_eq_true]
  simp only [Bool.and_eq_true, decide_eq_true_eq]

/-- Only a caller that was told to execute commits or releases, once and under its key. -/
def Orderly (r : Replica T) : ReplicaAction T → Prop
  | .commit c key _ _ _ => r.holds c key
  | .release c key => r.holds c key
  | _ => True

instance (r : Replica T) (a : ReplicaAction T) : Decidable (r.Orderly a) := by
  cases a <;> unfold Orderly <;> infer_instance

/-- The empty key is led by nobody. -/
def Leads (r : Replica T) (c : Nat) (key : JsString) : Prop :=
  ∃ x, r.calls[c]? = some x ∧ x.key = key ∧ key ≠ [] ∧ x.leading

structure Elected (r : Replica T) : Prop where
  enabled : r.runtime.isEnabled
  sound : Election.Sound r.runtime.inflight r.Leads

/-- The call `c` goes on and becomes `x`, and the other calls stay as they are. -/
structure Step (r r' : Replica T) (c : Nat) (x : BeginCall T) : Prop where
  other : ∀ d ≠ c, r'.calls[d]? = r.calls[d]?
  self : r'.calls[c]? = some x
  key : ∀ y : BeginCall T, r.calls[c]? = some y → y.key = x.key
  settings : r'.runtime.settings = r.runtime.settings
  others : ∀ k ≠ x.key, r'.runtime.inflight k = r.runtime.inflight k
  turn : x.key ≠ [] → Turn r.runtime.inflight r'.runtime.inflight x.key
    ((r.calls[c]?).any BeginCall.leading) x.leading

variable {r r' : Replica T} {c d : Nat} {x : BeginCall T} {a : ReplicaAction T}

theorem Elected.turn (h : Elected r) (hs : Step r r' c x) : Elected r' := by
  have hother (d : Nat) (hd : d ≠ c) (k : JsString) (hl : r'.Leads d k) : r.Leads d k := by
    obtain ⟨y, hy, hrest⟩ := hl
    exact ⟨y, (hs.other d hd).symm.trans hy, hrest⟩
  have hself (k : JsString) (hl : r'.Leads c k) : k = x.key ∧ k ≠ [] ∧ x.leading := by
    obtain ⟨y, hy, rfl, hkey, hyl⟩ := hl
    cases hs.self.symm.trans hy
    exact ⟨rfl, hkey, hyl⟩
  refine ⟨?_, ?_⟩
  · rw [TwoTierIdempotency.isEnabled_eq hs.settings]
    exact h.enabled
  by_cases hkey : x.key = []
  · refine h.sound.idle (fun d k hl => hs.others k ?_) fun d k hl => ?_
    · obtain ⟨-, -, -, hk, -⟩ := hl
      exact fun heq => hk (heq.trans hkey)
    · by_cases hd : d = c
      · subst hd
        obtain ⟨hk, hne, -⟩ := hself k hl
        exact absurd (hk.trans hkey) hne
      · exact hother d hd k hl
  · refine h.sound.turn (hs.turn hkey) hother (fun k hl => ?_) fun hbefore => ?_
    · obtain ⟨hk, -, hxl⟩ := hself k hl
      exact ⟨hk, hxl⟩
    · obtain ⟨y, hy, hyl⟩ := (Option.any_eq_true _ _).mp hbefore
      exact ⟨y, hy, hs.key y hy, hkey, hyl⟩

theorem any_leading (h : r.calls[c]? = some x) :
    (r.calls[c]?).any BeginCall.leading = x.leading := by
  rw [h]
  rfl

theorem Turn.of_leads {m m' : JsString → Option Nat} {before : Bool}
    (h : Turn m m' key before x.phase.leads) : Turn m m' key before x.leading :=
  ⟨h.others, fun hx => h.held (BeginCall.leads_of_leading hx),
    fun hb hx => h.opened hb (BeginCall.leads_of_leading hx), h.kept⟩

theorem step_goOn {call : BeginCall T} {next : TwoTierIdempotency T × BeginPhase T}
    (hcall : r.calls[c]? = some call) (hsettings : next.1.settings = r.runtime.settings)
    (hothers : ∀ k ≠ call.key, next.1.inflight k = r.runtime.inflight k)
    (hturn : call.key ≠ [] → Turn r.runtime.inflight next.1.inflight call.key call.leading
      next.2.leads) :
    Step r (r.goOn c call next) c { call with phase := next.2 } where
  other d hd := calls_goOn_ne hd next
  self := calls_goOn_self hcall next
  key y hy := by
    rw [hcall] at hy
    cases hy
    rfl
  settings := hsettings
  others := hothers
  turn hkey := by
    rw [any_leading hcall]
    exact Turn.of_leads (x := { call with phase := next.2 }) (hturn hkey)

theorem step_close {runtime : TwoTierIdempotency T} (hholds : r.holds c key)
    (hsettings : runtime.settings = r.runtime.settings)
    (hothers : ∀ k ≠ key, runtime.inflight k = r.runtime.inflight k) :
    ∃ x, Step r (r.close c runtime) c x := by
  obtain ⟨call, hcall, rfl, hexec⟩ := holds_iff.mp hholds
  have hleading := BeginCall.leading_of_executing hexec
  refine ⟨{ call with closed := true }, fun d hd => calls_close_ne hd runtime,
    calls_close_self hcall runtime, fun y hy => ?_, hsettings, hothers, fun _ => ?_⟩
  · rw [hcall] at hy
    cases hy
    rfl
  · rw [any_leading hcall, hleading]
    exact .done hothers (BeginCall.not_leading_closed hexec)

theorem leading_eq_asking (h : x.phase.asking ∨ ∃ p, x.phase = .waiting p) :
    x.leading = x.phase.asking := by
  unfold BeginCall.leading BeginCall.executing
  rcases h with hasking | ⟨p, hp⟩
  · rw [hasking, Bool.true_or]
  · rw [hp]
    rfl

theorem leading_of_asking (h : x.phase.asking) : x.leading = true := by
  rw [BeginCall.leading, h, Bool.true_or]

theorem Elected.step (h : Elected r) (hok : r.Orderly a) (hs : r.step frozen a = some r') :
    ∃ x, Step r r' (a.caller r) x := by
  cases did_step hs with
  | began key fingerprint now =>
    have hnone : r.calls[r.calls.length]? = none := getElem?_eq_none le_rfl
    refine ⟨_, fun d hd => Trace.getElem?_snoc_ne hd, getElem?_concat_length, fun y hy => ?_,
      TwoTierIdempotency.settings_begin, fun k hk => ?_, fun hkey => ?_⟩
    · cases hnone.symm.trans hy
    · by_cases hkey : key = []
      · rw [TwoTierIdempotency.begin_skips (.inl hkey)]
      · exact (TwoTierIdempotency.stretch_begin frozen hkey h.enabled).touch.others k hk
    · show Turn _ _ _ ((r.calls[r.calls.length]?).any BeginCall.leading) _
      rw [hnone]
      exact Turn.of_leads ((TwoTierIdempotency.stretch_begin frozen hkey h.enabled).turn nofun)
  | wentOn hcall hphase hstretch =>
    refine ⟨_, step_goOn hcall hstretch.touch.settings hstretch.touch.others fun hkey => ?_⟩
    rw [leading_eq_asking (hphase.imp_right And.right)]
    exact hstretch.turn fun hasking =>
      h.sound.lease _ _ ⟨_, hcall, rfl, hkey, leading_of_asking hasking⟩
  | committed htouch | released htouch => exact step_close hok htouch.settings htouch.others

/-! ## After a commit -/

/-- The key has a lease that nobody leads: `commit` has thrown before it could close it. -/
def Orphan (r : Replica T) (key : JsString) : Prop :=
  (r.runtime.inflight key).isSome ∧
    ∀ (c : Nat) (x : BeginCall T), r.calls[c]? = some x → x.key = key → ¬ x.leading

/-- A new call does not get to lead the key. -/
def Stands (r : Replica T) (key : JsString) : Prop :=
  (r.runtime.l1.find? key).isSome ∨ r.Orphan key

theorem Orphan.next (h : r.Orphan key) (hkey : key ≠ []) (hs : Step r r' c x) :
    r'.Orphan key := by
  obtain ⟨hlease, hnone⟩ := h
  have hbefore (hx : x.key = key) : ¬ (r.calls[c]?).any BeginCall.leading := fun hany => by
    obtain ⟨y, hy, hyl⟩ := (Option.any_eq_true _ _).mp hany
    exact hnone c y hy ((hs.key y hy).trans hx) hyl
  refine ⟨?_, fun d y hy hykey hyl => ?_⟩
  · by_cases hx : x.key = key
    · subst hx
      exact (hs.turn hkey).kept (hbefore rfl) hlease
    · rw [hs.others key (Ne.symm hx)]
      exact hlease
  · by_cases hd : d = c
    · rw [hd, hs.self] at hy
      cases hy
      subst hykey
      rw [(hs.turn hkey).opened (hbefore rfl) hyl] at hlease
      cases hlease
    · rw [hs.other d hd] at hy
      exact hnone d y hy hykey hyl

end Replica

/-- What one can see of a replica: calls that begin, commits, and entries that `l1` loses because
they are expired or because it is full. -/
inductive IdempotencyEvent
  | began (call : Nat) (key : JsString)
  | committed (key : JsString)
  | dropped (key : JsString)
deriving DecidableEq

namespace Replica

variable {r r' : Replica T} {c d : Nat} {x : BeginCall T} {a : ReplicaAction T}

/-- The events of a step to `r'`. An entry may be dropped by the very write that makes it. -/
def events (frozen : IdempotencyEnvelope T → Bool) (r r' : Replica T) :
    ReplicaAction T → List IdempotencyEvent
  | .begin key _ _ =>
    (r.runtime.l1.lost r'.runtime.l1).map .dropped ++ [IdempotencyEvent.began r.calls.length key]
  | .commit _ key value fingerprint now =>
    .committed key ::
      ((if (r.runtime.commit frozen key value fingerprint now).isSome &&
          (r'.runtime.l1.find? key).isNone then [key] else []) ++
        r.runtime.l1.lost r'.runtime.l1).map .dropped
  | _ => (r.runtime.l1.lost r'.runtime.l1).map .dropped

/-- A key is kept from a commit until its entry is dropped. -/
def keeps (key : JsString) (kept : Bool) : IdempotencyEvent → Bool
  | .began _ _ => kept
  | .committed k => kept || k = key
  | .dropped k => kept && k ≠ key

def kept (key : JsString) (log : List IdempotencyEvent) : Bool := log.foldl (keeps key) false

theorem foldl_keeps_dropped (keys : List JsString) (kept : Bool) :
    (keys.map .dropped).foldl (keeps key) kept ↔ kept ∧ key ∉ keys := by
  induction keys generalizing kept with
  | nil => simp
  | cons k keys ih =>
    rw [map_cons, foldl_cons, ih, keeps, Bool.and_eq_true, decide_eq_true_eq,
      mem_cons, not_or, and_assoc, ne_comm]

theorem Stands.next (h : r.Stands key) (hkey : key ≠ []) (hs : Step r r' c x)
    (hlost : key ∉ r.runtime.l1.lost r'.runtime.l1) : r'.Stands key := by
  rcases h with hentry | horphan
  · exact .inl ((LruIdempotencyCache.mem_lost hentry).resolve_right hlost)
  · exact .inr (horphan.next hkey hs)

theorem stands_commit {value : T} {fingerprint : Option JsString} {now : Int} (h : Elected r)
    (hkey : key ≠ []) (hholds : r.holds c key)
    (hs : r.step frozen (.commit c key value fingerprint now) = some r')
    (hkept : (r.runtime.commit frozen key value fingerprint now).isSome →
      (r'.runtime.l1.find? key).isSome) : r'.Stands key := by
  obtain ⟨x, hstep⟩ := h.step (a := .commit c key value fingerprint now) hholds hs
  cases hcommit : r.runtime.commit frozen key value fingerprint now with
  | some t => exact .inl (hkept (by rw [hcommit]; rfl))
  | none =>
    have hr : r' = r.close c r.runtime := by
      have heq := (Option.some.inj hs).symm
      rwa [hcommit] at heq
    obtain ⟨call, hcall, rfl, hexec⟩ := holds_iff.mp hholds
    have hleading := BeginCall.leading_of_executing hexec
    subst hr
    have hleads : r.Leads c call.key := ⟨call, hcall, rfl, hkey, hleading⟩
    refine .inr ⟨h.sound.lease c call.key hleads, fun d y hy hykey hyl => ?_⟩
    by_cases hd : d = c
    · rw [hd, calls_close_self hcall] at hy
      cases hy
      exact BeginCall.not_leading_closed hexec hyl
    · rw [calls_close_ne hd] at hy
      exact hd (h.sound.sole d c call.key ⟨y, hy, hykey, hkey, hyl⟩ hleads)

/-- The call was answered with an entry, or it waits for ever. -/
def Answered (r : Replica T) (c : Nat) (key : JsString) : Prop :=
  ∃ x, r.calls[c]? = some x ∧ x.key = key ∧
    ((∃ entry, x.phase = .returned (settle entry x.fingerprint)) ∨
      (∃ lease, x.phase = .waiting lease) ∧ r.Orphan key)

theorem Answered.not_leads (h : r.Answered c key) (hx : r.calls[c]? = some x) :
    ¬ x.phase.leads := by
  obtain ⟨y, hy, -, hphase⟩ := h
  rw [hx] at hy
  cases hy
  rcases hphase with ⟨entry, hphase⟩ | ⟨⟨lease, hphase⟩, -⟩
  · rw [hphase]
    exact TwoTierIdempotency.not_leads_settle entry
  · rw [hphase]
    exact Bool.false_ne_true

theorem Answered.ne_execute (h : r.Answered c key) (hx : r.calls[c]? = some x) :
    x.phase ≠ .returned .execute := by
  intro hphase
  have hleads := h.not_leads hx
  rw [hphase] at hleads
  exact hleads rfl

theorem elect_of_orphan (h : r.Orphan key) : ∃ lease,
    r.runtime.elect key = (r.runtime, .waiting lease) := by
  obtain ⟨lease, hlease⟩ := Option.isSome_iff_exists.mp h.1
  exact ⟨lease, by rw [TwoTierIdempotency.elect, hlease]⟩

theorem leads_of_holds (h : r.holds c key) (hx : r.calls[c]? = some x) : x.phase.leads := by
  obtain ⟨y, hy, -, hexec⟩ := holds_iff.mp h
  cases hx.symm.trans hy
  exact BeginCall.leads_of_leading (BeginCall.leading_of_executing hexec)

theorem resume_of_not_leads (hok : r.Orderly a) (hs : r.step frozen a = some r')
    (hx : r.calls[a.caller r]? = some x) (hleads : ¬ x.phase.leads) :
    a = .resume (a.caller r) := by
  cases did_step hs with
  | began key fingerprint now =>
    have hnone : r.calls[r.calls.length]? = none := getElem?_eq_none le_rfl
    cases hnone.symm.trans hx
  | wentOn hcall hphase _ =>
    cases hx.symm.trans hcall
    exact (hphase.resolve_left fun hasking => hleads (BeginPhase.leads_of_asking hasking)).1
  | committed _ | released _ => exact absurd (leads_of_holds hok hx) hleads

theorem Answered.next (h : r.Answered d key) (hkey : key ≠ []) (helected : Elected r)
    (hok : r.Orderly a) (hs : r.step frozen a = some r') : r'.Answered d key := by
  obtain ⟨x', hstep⟩ := helected.step hok hs
  obtain ⟨x, hx, hxkey, hphase⟩ := id h
  by_cases hd : d = a.caller r
  · subst hd
    have ha := resume_of_not_leads hok hs hx (h.not_leads hx)
    rw [ha] at hs
    obtain ⟨call, p, lease, outcome, hcall, hwait, -, -, hr⟩ := step_resume hs
    rw [hx] at hcall
    cases hcall
    have horphan : r.Orphan key := by
      rcases hphase with ⟨entry, hphase⟩ | ⟨-, horphan⟩
      · rw [hwait] at hphase
        cases hphase
      · exact horphan
    refine ⟨{ x with phase := (r.runtime.resume x.key x.fingerprint outcome).2 }, ?_, hxkey, ?_⟩
    · rw [hr]
      exact calls_goOn_self hx _
    · cases outcome with
      | some entry => exact .inl ⟨entry, rfl⟩
      | none =>
        obtain ⟨lease, helect⟩ := elect_of_orphan horphan
        refine .inr ⟨⟨lease, ?_⟩, horphan.next hkey hstep⟩
        show (r.runtime.elect x.key).2 = .waiting lease
        rw [hxkey, helect]
  · refine ⟨x, (hstep.other d hd).trans hx, hxkey, hphase.imp_right fun ⟨hwait, horphan⟩ => ?_⟩
    exact ⟨hwait, horphan.next hkey hstep⟩

theorem answered_begin {fingerprint : Option JsString} {now : Int} (h : r.Stands key)
    (hkey : key ≠ []) (helected : Elected r) (hl1 : r.runtime.l1.enabled)
    (hs : r.step frozen (.begin key fingerprint now) = some r')
    (hlost : key ∉ r.runtime.l1.lost r'.runtime.l1) : r'.Answered r.calls.length key := by
  obtain ⟨x, hstep⟩ := helected.step (a := .begin key fingerprint now) trivial hs
  have hstands := h.next hkey hstep hlost
  obtain rfl := step_begin hs
  refine ⟨_, getElem?_concat_length, rfl, ?_⟩
  show (∃ entry, (r.runtime.begin key fingerprint now).2 = .returned (settle entry fingerprint)) ∨
    (∃ lease, (r.runtime.begin key fingerprint now).2 = .waiting lease) ∧ _
  cases hget : (r.runtime.l1.get key now).1 with
  | some entry =>
    refine .inl ⟨entry, ?_⟩
    rw [TwoTierIdempotency.begin_eq hkey helected.enabled, hget]
  | none =>
    -- without an entry in `l1` the lease of the key is what stands
    have horphan : r.Orphan key := by
      refine h.resolve_left fun hentry => ?_
      have hafter := (LruIdempotencyCache.mem_lost hentry).resolve_right hlost
      rw [TwoTierIdempotency.l1_begin hkey helected.enabled] at hafter
      have hsome := LruIdempotencyCache.isSome_get hl1 hafter
      rw [hget] at hsome
      cases hsome
    obtain ⟨lease, hlease⟩ := Option.isSome_iff_exists.mp horphan.1
    refine .inr ⟨⟨lease, ?_⟩, horphan.next hkey hstep⟩
    rw [TwoTierIdempotency.begin_eq hkey helected.enabled, hget]
    dsimp only
    rw [TwoTierIdempotency.elect]
    dsimp only
    rw [hlease]

end Replica

/-! ## Runs -/

structure ElectionState (T : Type) where
  replica : Replica T
  log : List IdempotencyEvent := []

def electionMachine (frozen : IdempotencyEnvelope T → Bool) (l1Options : IdempotencyOptions)
    (distributed : Option IdempotencyStoreShape) : Machine (ElectionState T) (ReplicaAction T) where
  init := { replica := { runtime := .create l1Options distributed } }
  step s a := (s.replica.step frozen a).map fun r =>
    { replica := r, log := s.log ++ s.replica.events frozen r a }

def Orderly (s : ElectionState T) (a : ReplicaAction T) : Prop := s.replica.Orderly a

instance (s : ElectionState T) (a : ReplicaAction T) : Decidable (Orderly s a) :=
  inferInstanceAs (Decidable (s.replica.Orderly a))

section Run

variable {l1Options : IdempotencyOptions} {distributed : Option IdempotencyStoreShape}
  {s : ElectionState T}

theorem elected_reach
    (henabled : (TwoTierIdempotency.create l1Options distributed : TwoTierIdempotency T).isEnabled)
    (h : (electionMachine frozen l1Options distributed).Reach Orderly s) :
    s.replica.Elected ∧ s.replica.runtime.settings =
      (TwoTierIdempotency.create l1Options distributed : TwoTierIdempotency T).settings := by
  refine h.invariant ?_ ?_
  · exact ⟨⟨henabled, fun c k ⟨x, hx, _⟩ => absurd hx nofun,
      fun c d k ⟨x, hx, _⟩ => absurd hx nofun⟩,
      rfl⟩
  · rintro s s' a - ⟨helected, hsettings⟩ hok hstep
    obtain ⟨r, hr, rfl⟩ := Option.map_eq_some_iff.mp hstep
    obtain ⟨x, hturn⟩ := helected.step hok hr
    exact ⟨helected.turn hturn, hturn.settings.trans hsettings⟩

/-- While a key is kept, it stands, and every call that has begun meanwhile was answered. -/
structure Kept (key : JsString) (s : ElectionState T) : Prop where
  stands : Replica.kept key s.log → s.replica.Stands key
  answered : Trace.Lawful (fun past e => Replica.kept key past → ∀ c,
    e = .began c key → s.replica.Answered c key) s.log

open Replica in
theorem stands_next {r' : Replica T} {a : ReplicaAction T} (h : Kept key s) (hkey : key ≠ [])
    (helected : s.replica.Elected) (hok : Orderly s a) (hr : s.replica.step frozen a = some r')
    (hkept : kept key (s.log ++ s.replica.events frozen r' a)) : r'.Stands key := by
  obtain ⟨x, hturn⟩ := helected.step hok hr
  unfold kept at hkept
  rw [foldl_append] at hkept
  -- all steps but a commit only drop entries
  have hdrop (hkept : ((s.replica.runtime.l1.lost r'.runtime.l1).map IdempotencyEvent.dropped).foldl
      (keeps key) (s.log.foldl (keeps key) false) = true) : r'.Stands key := by
    obtain ⟨hlog, hlost⟩ := (foldl_keeps_dropped _ _).mp hkept
    exact (h.stands hlog).next hkey hturn hlost
  cases a with
  | begin key' fingerprint now =>
    unfold events at hkept
    rw [foldl_append] at hkept
    exact hdrop hkept
  | commit c key' value fingerprint now =>
    unfold events at hkept
    rw [foldl_cons, foldl_keeps_dropped, mem_append, not_or] at hkept
    obtain ⟨hlog, hevicted, hlost⟩ := hkept
    rw [keeps, Bool.or_eq_true, decide_eq_true_eq] at hlog
    rcases hlog with hlog | rfl
    · exact (h.stands hlog).next hkey hturn hlost
    · refine stands_commit helected hkey hok hr fun hsome => ?_
      by_contra hnone
      rw [if_pos (by simp [hsome, Option.not_isSome_iff_eq_none.mp hnone])] at hevicted
      exact hevicted (mem_singleton.mpr rfl)
  | resume c | claimed c claim now | awaited c existing now | got c remote now | storeFailed c
  | release c key' => exact hdrop hkept

open Replica in
theorem mem_events_began {r r' : Replica T} {a : ReplicaAction T} {c : Nat}
    {pre post : List IdempotencyEvent} (h : r.events frozen r' a = pre ++ IdempotencyEvent.began c
      key :: post) :
    ∃ fingerprint now, a = .begin key fingerprint now ∧ c = r.calls.length ∧
      pre = (r.runtime.l1.lost r'.runtime.l1).map .dropped := by
  have hdrop {keys : List JsString} (hmem : IdempotencyEvent.began c key ∈
      keys.map IdempotencyEvent.dropped) : False := by
    obtain ⟨k, -, hk⟩ := mem_map.mp hmem
    cases hk
  have hmem : IdempotencyEvent.began c key ∈ r.events frozen r' a :=
    h ▸ mem_append_right pre mem_cons_self
  cases a with
  | begin key' fingerprint now =>
    unfold events at h
    cases post using reverseRecOn with
    | nil =>
      obtain ⟨hpre, hlast⟩ := append_inj' h rfl
      cases hlast
      exact ⟨fingerprint, now, rfl, rfl, hpre.symm⟩
    | append_singleton post e =>
      rw [← cons_append, ← append_assoc] at h
      obtain ⟨hpre, -⟩ := append_inj' h rfl
      exact (hdrop (hpre ▸ mem_append_right pre mem_cons_self)).elim
  | commit c' key' value fingerprint now =>
    unfold events at hmem
    rcases mem_cons.mp hmem with heq | hmem
    · cases heq
    · exact (hdrop hmem).elim
  | resume c' | claimed c' claim now | awaited c' existing now | got c' remote now
  | storeFailed c' | release c' key' => exact (hdrop hmem).elim

theorem kept_reach (hl1 : l1Options.enabled ≠ some false) (hkey : key ≠ [])
    (h : (electionMachine frozen l1Options distributed).Reach Orderly s) : Kept key s := by
  have hcache : (LruIdempotencyCache.create l1Options :
      LruIdempotencyCache (IdempotencyEnvelope T)).enabled := decide_eq_true hl1
  have henabled :
      (TwoTierIdempotency.create l1Options distributed : TwoTierIdempotency T).isEnabled := by
    rw [TwoTierIdempotency.isEnabled, TwoTierIdempotency.create, hcache, Bool.true_or]
  refine h.invariant ?_ ?_
  · exact ⟨fun h => absurd h Bool.false_ne_true, Trace.lawful_nil⟩
  intro s s' a hreach ih hok hstep
  obtain ⟨r, hr, rfl⟩ := Option.map_eq_some_iff.mp hstep
  obtain ⟨helected, hsettings⟩ := elected_reach henabled hreach
  refine ⟨stands_next ih hkey helected hok hr, ?_⟩
  refine (ih.answered.imp fun past e _ hpast hkept c he => ?_).append fun pre e post hsplit => ?_
  · exact (hpast hkept c he).next hkey helected hok hr
  · rintro hkept c rfl
    obtain ⟨fingerprint, now, rfl, rfl, rfl⟩ := mem_events_began hsplit
    unfold Replica.kept at hkept
    rw [foldl_append, Replica.foldl_keeps_dropped] at hkept
    have hl1' : s.replica.runtime.l1.enabled := (Prod.mk.inj hsettings).1.trans hcache
    exact Replica.answered_begin (ih.stands hkept.1) hkey helected hl1' hr hkept.2

theorem kept_of_not_dropped {pre mid : List IdempotencyEvent} (h : .dropped key ∉ mid) :
    Replica.kept key (pre ++ IdempotencyEvent.committed key :: mid) := by
  unfold Replica.kept
  rw [foldl_append, foldl_cons]
  have hstart : Replica.keeps key (pre.foldl (Replica.keeps key) false)
    (.committed key) = true := by
    rw [Replica.keeps, decide_eq_true rfl, Bool.or_true]
  rw [hstart]
  refine Trace.foldl_of_forall fun e he => ?_
  cases e with
  | began c k | committed k => rfl
  | dropped k =>
    rw [Replica.keeps, Bool.true_and, decide_eq_true_eq]
    rintro rfl
    exact h he

end Run

/-- In every orderly run of a runtime with at least one tier, for every key that is not empty: two
calls that were told to execute, and have neither committed nor released, are one call; and, with
`l1`, a call that begins after a commit is not told to execute unless the entry was dropped
before. -/
theorem one_leader_per_key (frozen : IdempotencyEnvelope T → Bool) (l1Options : IdempotencyOptions)
    (distributed : Option IdempotencyStoreShape)
    (henabled : (TwoTierIdempotency.create l1Options distributed : TwoTierIdempotency T).isEnabled)
    (s : ElectionState T) (h : (electionMachine frozen l1Options distributed).Reach Orderly s)
    (key : JsString) (hkey : key ≠ []) :
    (∀ (c d : Nat) (x y : BeginCall T), s.replica.calls[c]? = some x →
      s.replica.calls[d]? = some y → x.key = key → y.key = key → x.executing → y.executing →
        c = d) ∧
    (l1Options.enabled ≠ some false → ∀ pre mid post d,
      s.log = pre ++ .committed key :: (mid ++ .began d key :: post) → .dropped key ∉ mid →
        ∀ x, s.replica.calls[d]? = some x → x.phase ≠ .returned .execute) := by
  refine ⟨fun c d x y hx hy hxkey hykey hxe hye => ?_, fun hl1 pre mid post d hlog hmid x hx => ?_⟩
  · exact (elected_reach henabled h).1.sound.sole c d key
      ⟨x, hx, hxkey, hkey, BeginCall.leading_of_executing hxe⟩
      ⟨y, hy, hykey, hkey, BeginCall.leading_of_executing hye⟩
  · have hanswered := (kept_reach hl1 hkey h).answered
      (pre ++ IdempotencyEvent.committed key :: mid) (.began d key)
      post (by rw [hlog, append_assoc, cons_append])
    exact (hanswered (kept_of_not_dropped hmid) d rfl).ne_execute hx

/-- Two callers at once, and a third one after the commit. -/
def threeCallers (key : String) : List (ReplicaAction Nat) :=
  [.begin (.lit key) none 0, .begin (.lit key) none 0, .commit 0 (.lit key) 7 none 1, .resume 1,
    .begin (.lit key) none 2]

theorem one_leader_per_key_served : ∃ s : ElectionState Nat,
    (electionMachine (fun _ => false) {} none).Reach Orderly s ∧
      s.replica.calls.map (·.phase.result?) = [some .execute, some (.hit 7), some (.hit 7)] ∧
      (∀ x, s.replica.calls[2]? = some x → x.phase ≠ .returned .execute) ∧
      ∀ (c d : Nat) (x y : BeginCall Nat), s.replica.calls[c]? = some x →
        s.replica.calls[d]? = some y → x.key = .lit "k" → y.key = .lit "k" →
          x.executing → y.executing → c = d := by
  obtain ⟨s, hs, hobs⟩ := Machine.Reach.observe (electionMachine (fun _ => false) {} none) Orderly
    (threeCallers "k") (fun s => (s.replica.calls.map (·.phase.result?), s.log))
    ([some .execute, some (.hit 7), some (.hit 7)],
      [.began 0 (.lit "k"), .began 1 (.lit "k"), .committed (.lit "k"), .began 2 (.lit "k")])
    (by decide +kernel)
  obtain ⟨hout, hlog⟩ := Prod.mk.inj hobs
  obtain ⟨hsole, hafter⟩ :=
    one_leader_per_key (fun _ => false) {} none (by decide) s hs (.lit "k") (by decide +kernel)
  refine ⟨s, hs, hout, ?_, hsole⟩
  exact hafter (by decide) [.began 0 (.lit "k"), .began 1 (.lit "k")] [] [] 2 hlog nofun

/-- The empty key is no key: every call is told to execute. -/
theorem empty_key_not_led : ∃ s : ElectionState Nat,
    (electionMachine (fun _ => false) {} none).Reach Orderly s ∧
      s.replica.calls.map (fun x => (x.key, x.executing)) = [([], true), ([], true)] :=
  Machine.Reach.observe (electionMachine (fun _ => false) {} none) Orderly
    [.begin [] none 0, .begin [] none 0]
    (fun s => s.replica.calls.map fun x => (x.key, x.executing)) [([], true), ([], true)]
    (by decide +kernel)

end NevoMessaging
