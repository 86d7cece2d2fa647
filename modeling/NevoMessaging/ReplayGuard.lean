import Mathlib.Data.List.Dedup
import Mathlib.Data.List.Perm.Subperm
import NevoMessaging.Idempotency.Cache
import NevoMessaging.Lib.Machine

/-!
# ReplayGuard

A message is accepted if its timestamp is at most `windowMs` away from the clock, before or after
it, and its uuid is not in the cache. The cache keeps a uuid for `windowMs` from its arrival. A
message that is dated ahead can be accepted before its timestamp, and then its own window outlives
its entry in the cache: it is accepted once more.

`check` reads the clock three times: for the window, for the lookup and for the write. The guard has
a cache of its own.

Results:
1. `Covered.check`: while no message comes before its timestamp, the entry of an accepted message
   lives as long as its window.
2. `accepted_once`, `future_message_accepted_twice`: then no message is accepted twice, otherwise
   one is.
-/

namespace NevoMessaging

open List

/-- `ts`, a number or `undefined`. -/
inductive Timestamp
  | absent
  | nonFinite
  | ms (t : Int)
deriving DecidableEq

inductive ReplayError
  | missingUuid
  | missingTs
  | outsideWindow (windowMs ts : Int)
  | duplicate (uuid : JsString)

structure ReplayGuardOptions where
  enabled : Option Bool := none
  windowMs : Option Int := none
  maxEntries : Option Int := none

structure ReplayGuard where
  windowMs : Int
  enabled : Bool
  seen : LruIdempotencyCache Bool
  maxEntries : Int
  capacityWarned : Bool := false

namespace ReplayGuard

def create (opts : ReplayGuardOptions) : ReplayGuard where
  windowMs := opts.windowMs.getD (5 * 60000)
  enabled := opts.enabled ≠ some false
  seen := .create
    { enabled := some (opts.enabled ≠ some false)
      maxEntries := some (opts.maxEntries.getD 50000)
      ttlMs := some (opts.windowMs.getD (5 * 60000)) }
  maxEntries := opts.maxEntries.getD 50000

/-- The end of `check`, for a uuid that was not found. -/
def remember (g : ReplayGuard) (uuid : JsString) (write : Int) : ReplayGuard :=
  let seen := (g.seen.set (fun _ => false) uuid true write).getD g.seen
  { g with seen, capacityWarned := g.capacityWarned || g.maxEntries ≤ seen.nodes.length }

/-- The clock shows `now`, then `lookup`, then `write`. -/
def check (g : ReplayGuard) (uuid : Option JsString) (ts : Timestamp) (now lookup write : Int) :
    Except ReplayError Unit × ReplayGuard :=
  if g.enabled then
    match JsString.truthy uuid, ts with
    | none, _ => (.error .missingUuid, g)
    | _, .absent => (.error .missingTs, g)
    | _, .nonFinite => (.error .missingTs, g)
    | some uuid, .ms t =>
      if g.windowMs < (now - t).natAbs then (.error (.outsideWindow g.windowMs t), g)
      else
        let (found, seen) := g.seen.has uuid lookup
        if found then (.error (.duplicate uuid), { g with seen })
        else (.ok (), { g with seen }.remember uuid write)
  else (.ok (), g)

end ReplayGuard

/-! ## Runs -/

structure ReplayRun where
  guard : ReplayGuard
  clock : Int
  /-- The uuids of all calls. -/
  uuids : List JsString := []
  /-- Uuid and timestamp of every call that has returned. -/
  accepted : List (Option JsString × Timestamp) := []

inductive ReplayAction
  | check (uuid : Option JsString) (ts : Timestamp) (now lookup write : Int)

/-- The clock does not go back. -/
def ReplayRun.step (s : ReplayRun) : ReplayAction → Option ReplayRun
  | .check uuid ts now lookup write =>
    if s.clock ≤ now ∧ now ≤ lookup ∧ lookup ≤ write then
      let (result, guard) := s.guard.check uuid ts now lookup write
      some
        { guard, clock := write, uuids := s.uuids ++ uuid.toList
          accepted := match result with
            | .ok () => s.accepted ++ [(uuid, ts)]
            | .error _ => s.accepted }
    else none

def replayMachine (opts : ReplayGuardOptions) (start : Int) : Machine ReplayRun ReplayAction where
  init := { guard := .create opts, clock := start }
  step := ReplayRun.step

/-! ## What a check does -/

namespace ReplayGuard

variable {g g' : ReplayGuard} {uuid : Option JsString} {ts : Timestamp} {now lookup write : Int}
  {result : Except ReplayError Unit}

theorem check_cases (henabled : g.enabled)
    (h : g.check uuid ts now lookup write = (result, g')) :
    (g' = g ∧ result ≠ .ok ()) ∨
    ∃ u t, uuid = some u ∧ ts = .ms t ∧ (now - t).natAbs ≤ g.windowMs ∧
      (((g.seen.has u lookup).1 ∧ g' = { g with seen := (g.seen.has u lookup).2 } ∧
          result ≠ .ok ()) ∨
        (¬ (g.seen.has u lookup).1 ∧
          g' = remember { g with seen := (g.seen.has u lookup).2 } u write ∧ result = .ok ())) := by
  unfold check at h
  rw [if_pos henabled] at h
  split at h
  · cases h
    exact .inl ⟨rfl, nofun⟩
  · cases h
    exact .inl ⟨rfl, nofun⟩
  · cases h
    exact .inl ⟨rfl, nofun⟩
  next u t hu =>
    split at h
    · cases h
      exact .inl ⟨rfl, nofun⟩
    next hwindow =>
      have huuid : uuid = some u := (Option.filter_eq_some_iff.mp hu).1
      refine .inr ⟨u, t, huuid, rfl, not_lt.mp hwindow, ?_⟩
      dsimp only at h
      split at h
      next hfound =>
        cases h
        exact .inl ⟨hfound, rfl, nofun⟩
      next hfound =>
        cases h
        exact .inr ⟨hfound, rfl, rfl⟩

end ReplayGuard

namespace ReplayRun

variable {s s' : ReplayRun} {uuid : Option JsString} {ts : Timestamp} {now lookup write : Int}
  {opts : ReplayGuardOptions} {windowMs maxEntries : Int}

def settings (c : LruIdempotencyCache Bool) : Bool × Int × Int := (c.enabled, c.ttlMs, c.maxEntries)

/-- What does not change. -/
structure Settled (windowMs maxEntries : Int) (s : ReplayRun) : Prop where
  enabled : s.guard.enabled
  window : s.guard.windowMs = windowMs
  seen : settings s.guard.seen = (true, windowMs, maxEntries)

/-- An accepted message is in the cache until its window is over. -/
structure Covered (windowMs : Int) (s : ReplayRun) : Prop where
  keys : ∀ n ∈ s.guard.seen.nodes, n.key ∈ s.uuids
  alive : ∀ u t, (some u, .ms t) ∈ s.accepted →
    (∃ n, s.guard.seen.find? u = some n ∧ t + windowMs ≤ n.expiresAt) ∨ t + windowMs < s.clock
  once : s.accepted.Nodup

/-- No message is accepted before its timestamp, and the window of a message does not end between
the first two looks at the clock. -/
def Timely (s : ReplayRun) : ReplayAction → Prop
  | .check _ (.ms t) now lookup _ =>
    (t ≤ now ∨ now + s.guard.windowMs < t) ∧
      (now ≤ t + s.guard.windowMs → lookup ≤ t + s.guard.windowMs)
  | .check _ _ _ _ _ => True

instance (s : ReplayRun) (a : ReplayAction) : Decidable (s.Timely a) := by
  unfold Timely
  split <;> infer_instance

theorem step_spec (h : s.step (.check uuid ts now lookup write) = some s') :
    s.clock ≤ now ∧ now ≤ lookup ∧ lookup ≤ write ∧ s'.clock = write ∧
      s'.uuids = s.uuids ++ uuid.toList ∧
      ∃ result, s.guard.check uuid ts now lookup write = (result, s'.guard) ∧
        (result = .ok () → s'.accepted = s.accepted ++ [(uuid, ts)]) ∧
        (result ≠ .ok () → s'.accepted = s.accepted) := by
  unfold step at h
  dsimp only at h
  by_cases hclock : s.clock ≤ now ∧ now ≤ lookup ∧ lookup ≤ write
  · rw [if_pos hclock] at h
    obtain ⟨hnow, hlookup, hwrite⟩ := hclock
    generalize s.guard.check uuid ts now lookup write = out at h ⊢
    obtain ⟨result, guard⟩ := out
    cases h
    refine ⟨hnow, hlookup, hwrite, rfl, rfl, result, rfl, fun hok => ?_, fun herror => ?_⟩
    · rw [hok]
    · cases result with
      | ok _ => exact absurd rfl herror
      | error _ => rfl
  · rw [if_neg hclock] at h
    cases h

theorem settings_has (c : LruIdempotencyCache Bool) (u : JsString) (lookup : Int) :
    settings (c.has u lookup).2 = settings c := by
  unfold LruIdempotencyCache.has
  rcases c.get_cases u lookup with ⟨hget, -⟩ | hget | ⟨n, -, hget⟩ <;> rw [hget] <;> rfl

theorem settings_put (c : LruIdempotencyCache Bool) (u : JsString) (write : Int) :
    settings (c.put u true write) = settings c := by
  unfold LruIdempotencyCache.put
  dsimp only
  split <;> rfl

/-- What is written for an accepted message. -/
theorem seen_remember {g : ReplayGuard} (henabled : g.seen.enabled) (u : JsString) (write : Int) :
    (g.remember u write).seen = g.seen.put u true write := by
  unfold ReplayGuard.remember LruIdempotencyCache.set
  rw [if_pos henabled]
  rfl

theorem Settled.step (h : s.Settled windowMs maxEntries)
    (hs : s.step (.check uuid ts now lookup write) = some s') : s'.Settled windowMs maxEntries := by
  obtain ⟨-, -, -, -, -, result, hcheck, -⟩ := step_spec hs
  rcases ReplayGuard.check_cases h.enabled hcheck with ⟨hsame, -⟩ | ⟨u, t, -, -, -, hseen⟩
  · exact ⟨hsame ▸ h.enabled, hsame ▸ h.window, hsame ▸ h.seen⟩
  · have hhas := (settings_has s.guard.seen u lookup).trans h.seen
    rcases hseen with ⟨-, hg, -⟩ | ⟨-, hg, -⟩
    · exact ⟨hg ▸ h.enabled, hg ▸ h.window, hg ▸ hhas⟩
    · refine ⟨hg ▸ h.enabled, hg ▸ h.window, ?_⟩
      rw [hg, seen_remember (congrArg Prod.fst hhas)]
      exact (settings_put _ u write).trans hhas

/-! ## The cache outlives the window -/

variable {c : LruIdempotencyCache Bool} {u : JsString} {n : CacheNode Bool}

theorem keys_has (hn : n ∈ (c.has u lookup).2.nodes) : n ∈ c.nodes := by
  unfold LruIdempotencyCache.has at hn
  rcases c.get_cases u lookup with ⟨hget, -⟩ | hget | ⟨m, hfind, hget⟩
  · rwa [hget] at hn
  · rw [hget] at hn
    exact (mem_filter.mp hn).1
  · rw [hget] at hn
    rcases mem_cons.mp hn with rfl | hrest
    · exact mem_of_find?_eq_some hfind
    · exact (mem_filter.mp hrest).1

theorem room {uuids : List JsString} (hkeys : ∀ n ∈ c.nodes, n.key ∈ uuids)
    (hfew : (uuids.dedup.length : Int) < maxEntries) :
    (c.nodes.length : Int) ≤ maxEntries := by
  have hsub : c.nodes.map CacheNode.key ⊆ uuids.dedup := by
    intro k hk
    obtain ⟨n, hn, rfl⟩ := mem_map.mp hk
    exact mem_dedup.mpr (hkeys n hn)
  have hle := (subperm_of_subset c.nodup hsub).length_le
  rw [length_map] at hle
  omega

theorem expired_of_not_found (henabled : c.enabled) (hfind : c.find? u = some n)
    (h : ¬ (c.has u lookup).1) :
    n.expiresAt < lookup := by
  by_contra hle
  unfold LruIdempotencyCache.has at h
  rw [LruIdempotencyCache.get_of_alive henabled hfind (not_lt.mp hle)] at h
  exact h rfl

theorem alive_of_found {k : JsString} (hfind : c.find? k = some n) (h : (c.has u lookup).1) :
    (c.has u lookup).2.find? k = some n := by
  unfold LruIdempotencyCache.has at h ⊢
  by_cases hk : k = u
  · subst hk
    rcases c.get_cases k lookup with ⟨hget, -⟩ | hget | ⟨m, hm, hget⟩
    · rw [hget] at h
      cases h
    · rw [hget] at h
      cases h
    · rw [hfind] at hm
      cases hm
      rw [hget, LruIdempotencyCache.find?_putHead, if_pos]
      exact (LruIdempotencyCache.key_of_find? hfind).symm
  · exact (LruIdempotencyCache.find?_get_ne hk).trans hfind

theorem Covered.refuse (h : s.Covered windowMs) (hclock : s.clock ≤ s'.clock)
    (hkeys : ∀ n ∈ s'.guard.seen.nodes, n ∈ s.guard.seen.nodes)
    (hfind : ∀ {k n}, s.guard.seen.find? k = some n → s'.guard.seen.find? k = some n)
    (huuids : s.uuids ⊆ s'.uuids) (haccepted : s'.accepted = s.accepted) : s'.Covered windowMs := by
  refine ⟨fun n hn => huuids (h.keys n (hkeys n hn)), fun k t hmem => ?_, haccepted ▸ h.once⟩
  rcases h.alive k t (haccepted ▸ hmem) with ⟨n, hn, hle⟩ | hover
  · exact .inl ⟨n, hfind hn, hle⟩
  · exact .inr (lt_of_lt_of_le hover hclock)

/-- A message that is not found is accepted. Its window ends with its entry, and those of the entry
before are over. -/
theorem Covered.accept {t : Int} (h : s.Covered windowMs) (hsettled : s.Settled windowMs maxEntries)
    (htime : t ≤ write) (hclock : s.clock ≤ lookup) (hwrite : lookup ≤ write)
    (hlookup : lookup ≤ t + windowMs) (hfound : ¬ (s.guard.seen.has u lookup).1)
    (hguard : s'.guard =
      ReplayGuard.remember { s.guard with seen := (s.guard.seen.has u lookup).2 } u write)
    (hclock' : s'.clock = write) (huuids : s'.uuids = s.uuids ++ [u])
    (hfew : (s'.uuids.dedup.length : Int) < maxEntries)
    (haccepted : s'.accepted = s.accepted ++ [(some u, .ms t)]) : s'.Covered windowMs := by
  have hhas := (settings_has s.guard.seen u lookup).trans hsettled.seen
  simp only [settings, Prod.mk.injEq] at hhas
  obtain ⟨henabled, httl, hmax⟩ := hhas
  have hseen : s'.guard.seen = ((s.guard.seen.has u lookup).2).put u true write := by
    rw [hguard, seen_remember henabled]
  have hold (n : CacheNode Bool) (hn : n ∈ (s.guard.seen.has u lookup).2.nodes) :
      n.key ∈ s'.uuids := by
    rw [huuids]
    exact mem_append_left _ (h.keys n (keys_has hn))
  have hhead (n : CacheNode Bool) (hn : n ∈ ((s.guard.seen.has u lookup).2.putHead
      { key := u, value := true, expiresAt := write + windowMs }).nodes) : n.key ∈ s'.uuids := by
    rcases mem_cons.mp hn with rfl | hrest
    · rw [huuids]
      exact mem_append_right _ (mem_singleton.mpr rfl)
    · exact hold n (mem_filter.mp hrest).1
  have hroom := room hhead hfew
  have hfind (k : JsString) : s'.guard.seen.find? k = if k = u then
      some { key := u, value := true, expiresAt := write + windowMs }
      else (s.guard.seen.has u lookup).2.find? k := by
    rw [hseen, LruIdempotencyCache.find?_put]
    · rw [httl]
    · rw [httl, hmax]
      exact hroom
  have hgone (w : Int) (hmem : (some u, .ms w) ∈ s.accepted) : w + windowMs < lookup := by
    rcases h.alive u w hmem with ⟨n, hn, hle⟩ | hover
    · exact lt_of_le_of_lt hle (expired_of_not_found (congrArg Prod.fst hsettled.seen) hn hfound)
    · exact lt_of_lt_of_le hover hclock
  refine ⟨fun n hn => ?_, fun k w hmem => ?_, ?_⟩
  · rw [hseen] at hn
    unfold LruIdempotencyCache.put at hn
    dsimp only at hn
    rw [httl] at hn
    split at hn
    · exact hhead n (dropLast_subset _ hn)
    · exact hhead n hn
  · rw [haccepted, mem_append, mem_singleton] at hmem
    by_cases hk : k = u
    · subst hk
      rcases hmem with hmem | heq
      · refine .inr ?_
        rw [hclock']
        exact lt_of_lt_of_le (hgone w hmem) hwrite
      · cases heq
        refine .inl ⟨_, (hfind k).trans (if_pos rfl), ?_⟩
        show t + windowMs ≤ write + windowMs
        omega
    · rcases hmem with hmem | heq
      · rcases h.alive k w hmem with ⟨n, hn, hle⟩ | hover
        · refine .inl ⟨n, ?_, hle⟩
          rw [hfind, if_neg hk]
          exact (LruIdempotencyCache.find?_get_ne hk).trans hn
        · refine .inr ?_
          rw [hclock']
          exact lt_of_lt_of_le hover (hclock.trans hwrite)
      · cases heq
        exact absurd rfl hk
  · rw [haccepted]
    refine nodup_append.mpr ⟨h.once, nodup_singleton _, ?_⟩
    rintro p hp q hq rfl
    rw [mem_singleton.mp hq] at hp
    exact absurd (hgone t hp) (not_lt.mpr hlookup)

theorem Covered.check (h : s.Covered windowMs) (hsettled : s.Settled windowMs maxEntries)
    (hok : s.Timely (.check uuid ts now lookup write))
    (hs : s.step (.check uuid ts now lookup write) = some s')
    (hfew : (s'.uuids.dedup.length : Int) < maxEntries) : s'.Covered windowMs := by
  obtain ⟨hnow, hlookup, hwrite, hclock, huuids, result, hcheck, haccept, hrefuse⟩ := step_spec hs
  have hmono : s.clock ≤ s'.clock := by
    rw [hclock]
    exact hnow.trans (hlookup.trans hwrite)
  have hsub : s.uuids ⊆ s'.uuids := by
    rw [huuids]
    exact subset_append_left _ _
  rcases ReplayGuard.check_cases hsettled.enabled hcheck with
    ⟨hsame, herror⟩ | ⟨u, t, rfl, rfl, hwindow,
      ⟨hfound, hguard, herror⟩ | ⟨hfound, hguard, hresult⟩⟩
  · exact h.refuse hmono (fun n hn => hsame ▸ hn) (fun hn => hsame.symm ▸ hn) hsub (hrefuse herror)
  · refine h.refuse hmono (fun n hn => ?_) (fun hn => ?_) hsub (hrefuse herror)
    · rw [hguard] at hn
      exact keys_has hn
    · rw [hguard]
      exact alive_of_found hn hfound
  · obtain ⟨hpast, hend⟩ := hok
    rw [hsettled.window] at hwindow hpast hend
    refine h.accept hsettled ?_ (hnow.trans hlookup) hwrite (hend (by omega)) hfound hguard hclock
      huuids hfew (haccept hresult)
    omega

end ReplayRun

/-- Any number of checks by a clock that does not go back, with fewer uuids than the cache has
places. While no message is accepted before its own timestamp, and no window ends between two looks
at the clock of one check, no message is accepted twice. -/
theorem accepted_once (opts : ReplayGuardOptions) (start : Int) (s : ReplayRun)
    (henabled : opts.enabled ≠ some false)
    (h : (replayMachine opts start).Reach ReplayRun.Timely s)
    (hfew : (s.uuids.dedup.length : Int) < opts.maxEntries.getD 50000) : s.accepted.Nodup := by
  have hinv : s.Settled (opts.windowMs.getD (5 * 60000)) (opts.maxEntries.getD 50000) ∧
      ((s.uuids.dedup.length : Int) < opts.maxEntries.getD 50000 →
        s.Covered (opts.windowMs.getD (5 * 60000))) := by
    refine h.invariant ?_ ?_
    · refine ⟨⟨decide_eq_true henabled, rfl, ?_⟩, fun _ => ⟨?_, ?_, nodup_nil⟩⟩
      · show (decide (some (decide (opts.enabled ≠ some false)) ≠ some false), _, _) = _
        rw [decide_eq_true henabled]
        rfl
      · intro n hn
        cases hn
      · intro u t hmem
        cases hmem
    · rintro s s' ⟨uuid, ts, now, lookup, write⟩ - ⟨hsettled, hcovered⟩ hok hstep
      refine ⟨hsettled.step hstep, fun hfew => ?_⟩
      obtain ⟨-, -, -, -, huuids, -⟩ := ReplayRun.step_spec hstep
      have hmono : s.uuids.dedup.length ≤ s'.uuids.dedup.length := by
        refine (subperm_of_subset (nodup_dedup _) fun u hu => ?_).length_le
        rw [huuids]
        exact mem_dedup.mpr (mem_append_left _ (mem_dedup.mp hu))
      exact (hcovered (by omega)).check hsettled hok hstep hfew
  exact (hinv.2 hfew).once

/-- A message and its replay, with a window of 10. -/
def replayed (ts first second : Int) : List ReplayAction :=
  [.check (some (.lit "u")) (.ms ts) first first first,
    .check (some (.lit "u")) (.ms ts) second second second]

theorem accepted_once_present : ∃ s : ReplayRun,
    (replayMachine { windowMs := some 10 } 0).Reach ReplayRun.Timely s ∧
      s.uuids = [.lit "u", .lit "u"] ∧ s.accepted = [(some (.lit "u"), .ms 5)] ∧
      s.accepted.Nodup := by
  obtain ⟨s, hs, hobs⟩ := Machine.Reach.observe (replayMachine { windowMs := some 10 } 0)
    ReplayRun.Timely (replayed 5 5 15) (fun s => (s.uuids, s.accepted))
    ([.lit "u", .lit "u"], [(some (.lit "u"), .ms 5)]) (by decide +kernel)
  obtain ⟨huuids, haccepted⟩ := Prod.mk.inj hobs
  refine ⟨s, hs, huuids, haccepted, ?_⟩
  exact accepted_once { windowMs := some 10 } 0 s (by decide) hs (by rw [huuids]; decide +kernel)

/-- A message that is dated ahead by the whole window is checked at 0 and at 11: its entry has
expired, its window has not. -/
theorem future_message_accepted_twice : ∃ s : ReplayRun,
    (replayMachine { windowMs := some 10 } 0).Reach Machine.free s ∧
      s.accepted = [(some (.lit "u"), .ms 10), (some (.lit "u"), .ms 10)] :=
  Machine.Reach.observe (replayMachine { windowMs := some 10 } 0) Machine.free (replayed 10 0 11)
    (·.accepted) [(some (.lit "u"), .ms 10), (some (.lit "u"), .ms 10)] (by decide +kernel)

end NevoMessaging
