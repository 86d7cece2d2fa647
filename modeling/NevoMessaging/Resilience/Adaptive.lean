import Mathlib.Algebra.Order.Floor.Ring
import Mathlib.Data.List.Induction
import Mathlib.Data.Rat.Floor
import Mathlib.Tactic.Linarith
import Mathlib.Tactic.NormNum

/-!
# The adaptive tuner

`AdaptiveTuner` keeps the last observations in a ring. From the p99 latency and the error rate of
those within the window it tunes the number of retries and the timeout, in exact arithmetic here.

The constructor starts with at least two retries, also if fewer are allowed, and a step of one
retry may pass a bound that is not a whole number of steps away. A timeout below 4/3 that grows by
half is rounded down to 1.

Results:
1. `within_observe`: an observation keeps the retries and the timeout within their bounds.
2. `tuner_within_bounds`: so does every run, if two retries are allowed.
3. `window_exact`: the ring is the list of the last observations.
-/

namespace NevoMessaging

structure AdaptiveOptions where
  enabled : Option Bool := none
  windowMs : Option ℚ := none
  targetP99Ms : Option ℚ := none
  minRetries : Option ℚ := none
  maxRetries : Option ℚ := none
  minTimeoutMs : Option ℚ := none
  maxTimeoutMs : Option ℚ := none
  recomputeIntervalMs : Option ℚ := none

/-- The fields that the constructor reads from the options. -/
structure AdaptiveSettings where
  enabled : Bool
  windowMs : ℚ
  target : ℚ
  minRetries : ℚ
  maxRetries : ℚ
  minTimeoutMs : ℚ
  maxTimeoutMs : ℚ
  recomputeIntervalMs : ℚ

def AdaptiveOptions.settings (opts : AdaptiveOptions) : AdaptiveSettings where
  enabled := opts.enabled = some true
  windowMs := opts.windowMs.getD 30000
  target := opts.targetP99Ms.getD 1000
  minRetries := opts.minRetries.getD 1
  maxRetries := opts.maxRetries.getD 5
  minTimeoutMs := opts.minTimeoutMs.getD 500
  maxTimeoutMs := opts.maxTimeoutMs.getD 30000
  recomputeIntervalMs := max 10 (opts.recomputeIntervalMs.getD 250)

namespace AdaptiveTuner

/-! ## Quickselect -/

/-- An index out of range reads `undefined`, and a comparison with it is false. -/
def scan (p : ℚ → Bool) (stride : Int) (arr : Array ℚ) : (fuel : Nat) → Int → Int
  | 0, i => i
  | fuel + 1, i =>
    if 0 ≤ i ∧ arr[i.toNat]?.any p then scan p stride arr fuel (i + stride) else i

/-- Every turn but the last swaps, and brings `i` and `j` nearer to each other. -/
def partitionLoop (pivot : ℚ) : (fuel : Nat) → Array ℚ → Int → Int → Array ℚ × Int × Int
  | 0, arr, i, j => (arr, i, j)
  | fuel + 1, arr, i, j =>
    if i ≤ j then
      let i := scan (· < pivot) 1 arr arr.size i
      let j := scan (pivot < ·) (-1) arr arr.size j
      if i ≤ j then partitionLoop pivot fuel (arr.swapIfInBounds i.toNat j.toNat) (i + 1) (j - 1)
      else (arr, i, j)
    else (arr, i, j)

/-- The part between `lo` and `hi` gets smaller in every turn. -/
def selectLoop (k : Int) : (fuel : Nat) → Array ℚ → Int → Int → Array ℚ
  | 0, arr, _, _ => arr
  | fuel + 1, arr, lo, hi =>
    if lo < hi then
      let pivot := arr.getD ((lo + hi) / 2).toNat 0
      let (arr, i, j) := partitionLoop pivot (arr.size + 1) arr lo hi
      if k ≤ j then selectLoop k fuel arr lo j
      else if i ≤ k then selectLoop k fuel arr i hi
      else arr
    else arr

def selectKth (arr : Array ℚ) (k : Nat) : ℚ :=
  (selectLoop k arr.size arr 0 (arr.size - 1)).getD k 0

example : selectKth #[5, 3, 9, 1, 7] 3 = 7 := by decide +kernel

/-! ## The tuner -/

end AdaptiveTuner

structure AdaptiveTuner.Sample where
  ts : ℚ
  durationMs : ℚ
  ok : Bool

structure AdaptiveTuner where
  ring : Nat → Option AdaptiveTuner.Sample := fun _ => none
  start : Nat := 0
  size : Nat := 0
  currentRetries : ℚ
  currentTimeoutMs : ℚ
  observationsSinceRecompute : Nat := 0
  lastRecomputeAt : ℚ := 0

namespace AdaptiveTuner

variable (cfg : AdaptiveSettings)

def maxSamples : Nat := 2048

def create : AdaptiveTuner where
  currentRetries := max cfg.minRetries 2
  currentTimeoutMs := max cfg.minTimeoutMs (min cfg.maxTimeoutMs (cfg.target * 4))

/-- The durations within the window, and how many of them are of errors. -/
def window (t : AdaptiveTuner) (now : ℚ) : List ℚ × Nat :=
  let samples := ((List.range t.size).filterMap fun i => t.ring ((t.start + i) % maxSamples)).filter
    fun s => ¬ s.ts < now - cfg.windowMs
  (samples.map Sample.durationMs, samples.countP fun s => !s.ok)

def percentile (durations : List ℚ) (p : ℚ) : ℚ :=
  if durations.length = 0 then cfg.target
  else selectKth durations.toArray
    (min (durations.length - 1) (Rat.floor (p / 100 * durations.length)).toNat)

def nextTimeoutMs (current p99 : ℚ) : ℚ :=
  if cfg.target * (3 / 2) < p99 ∧ current < cfg.maxTimeoutMs then
    min cfg.maxTimeoutMs ⌊current * (3 / 2)⌋
  else if p99 < cfg.target * (1 / 2) ∧ cfg.minTimeoutMs < current then
    max cfg.minTimeoutMs ⌊current * (4 / 5)⌋
  else current

def nextRetries (current p99 err : ℚ) : ℚ :=
  if 1 / 10 < err ∧ cfg.minRetries < current then current - 1
  else if err < 1 / 100 ∧ p99 ≤ cfg.target ∧ current < cfg.maxRetries then current + 1
  else current

def recompute (t : AdaptiveTuner) (now : ℚ) : AdaptiveTuner :=
  let (durations, errors) := t.window cfg now
  if t.size < 10 ∨ durations.length < 10 then t
  else
    let p99 := percentile cfg durations 99
    { t with
      lastRecomputeAt := now
      observationsSinceRecompute := 0
      currentTimeoutMs := nextTimeoutMs cfg t.currentTimeoutMs p99
      currentRetries := nextRetries cfg t.currentRetries p99 (errors / durations.length) }

/-- The oldest sample is overwritten when the ring is full. -/
def record (t : AdaptiveTuner) (s : Sample) : AdaptiveTuner :=
  { t with
    ring := Function.update t.ring ((t.start + t.size) % maxSamples) (some s)
    size := if t.size < maxSamples then t.size + 1 else t.size
    start := if t.size < maxSamples then t.start else (t.start + 1) % maxSamples
    observationsSinceRecompute := t.observationsSinceRecompute + 1 }

/-- The `ts` of the sample is the time of the call. -/
def observe (t : AdaptiveTuner) (s : Sample) : AdaptiveTuner :=
  if cfg.enabled then
    let t := t.record s
    if 10 ≤ t.size ∧ (t.lastRecomputeAt = 0 ∨ 64 ≤ t.observationsSinceRecompute ∨
        cfg.recomputeIntervalMs ≤ s.ts - t.lastRecomputeAt) then
      t.recompute cfg s.ts
    else t
  else t

def getRetries (t : AdaptiveTuner) : ℚ := t.currentRetries

def getTimeoutMs (t : AdaptiveTuner) : ℚ := t.currentTimeoutMs

/-! ## The bounds -/

/-- The retries are a whole number of steps away from either bound. -/
structure Within (retries timeoutMs : ℚ) : Prop where
  minRetries : ∃ n : Nat, retries = cfg.minRetries + n
  maxRetries : ∃ n : Nat, cfg.maxRetries = retries + n
  minTimeout : cfg.minTimeoutMs ≤ timeoutMs
  maxTimeout : timeoutMs ≤ cfg.maxTimeoutMs

variable {cfg} {retries timeoutMs : ℚ}

theorem step_of_lt {a b : ℚ} (h : ∃ n : Nat, b = a + n) (hlt : a < b) :
    ∃ n : Nat, b = a + 1 + n := by
  obtain ⟨n, rfl⟩ := h
  cases n with
  | zero => simp at hlt
  | succ n => exact ⟨n, by push_cast; ring⟩

theorem Within.nextRetries (h : Within cfg retries timeoutMs) (p99 err : ℚ) :
    Within cfg (nextRetries cfg retries p99 err) timeoutMs := by
  unfold AdaptiveTuner.nextRetries
  split_ifs with hless hmore
  · obtain ⟨n, hn⟩ := step_of_lt h.minRetries hless.2
    obtain ⟨m, hm⟩ := h.maxRetries
    exact ⟨⟨n, by linarith⟩, ⟨m + 1, by push_cast; linarith⟩, h.minTimeout, h.maxTimeout⟩
  · obtain ⟨n, hn⟩ := h.minRetries
    obtain ⟨m, hm⟩ := step_of_lt h.maxRetries hmore.2.2
    exact ⟨⟨n + 1, by push_cast; linarith⟩, ⟨m, by linarith⟩, h.minTimeout, h.maxTimeout⟩
  · exact h

variable (hmin : 1 ≤ cfg.minTimeoutMs)
  (hgrows : cfg.minTimeoutMs = cfg.maxTimeoutMs ∨ cfg.minTimeoutMs = 1 ∨ 4 / 3 ≤ cfg.minTimeoutMs)

include hmin hgrows

theorem Within.nextTimeoutMs (h : Within cfg retries timeoutMs) (p99 : ℚ) :
    Within cfg retries (nextTimeoutMs cfg timeoutMs p99) := by
  have hlow := h.minTimeout
  have hhigh := h.maxTimeout
  unfold AdaptiveTuner.nextTimeoutMs
  split_ifs with hmore hless
  · refine ⟨h.minRetries, h.maxRetries, le_min (hlow.trans hhigh) ?_, min_le_left _ _⟩
    rcases hgrows with heq | hone | hthird
    · exact absurd hmore.2 (heq ▸ hlow).not_gt
    · have hfloor : (1 : ℤ) ≤ ⌊timeoutMs * (3 / 2)⌋ := Int.le_floor.mpr (by push_cast; linarith)
      rw [hone]
      exact_mod_cast hfloor
    · by_cases htwo : timeoutMs < 2
      · have hfloor : (2 : ℤ) ≤ ⌊timeoutMs * (3 / 2)⌋ := Int.le_floor.mpr (by push_cast; linarith)
        have hfloor' : (2 : ℚ) ≤ ⌊timeoutMs * (3 / 2)⌋ := by exact_mod_cast hfloor
        linarith
      · have hfloor := Int.lt_floor_add_one (timeoutMs * (3 / 2))
        linarith
  · refine ⟨h.minRetries, h.maxRetries, le_max_left _ _, max_le (hlow.trans hhigh) ?_⟩
    have hfloor := Int.floor_le (timeoutMs * (4 / 5))
    linarith
  · exact h

theorem within_recompute {t : AdaptiveTuner} (h : Within cfg t.currentRetries t.currentTimeoutMs)
    (now : ℚ) :
    Within cfg (t.recompute cfg now).currentRetries (t.recompute cfg now).currentTimeoutMs := by
  unfold recompute
  dsimp only
  split
  · exact h
  · exact (h.nextTimeoutMs hmin hgrows _).nextRetries _ _

theorem within_observe {t : AdaptiveTuner} (h : Within cfg t.currentRetries t.currentTimeoutMs)
    (s : Sample) :
    Within cfg (t.observe cfg s).currentRetries (t.observe cfg s).currentTimeoutMs := by
  unfold observe
  split
  · dsimp only
    split
    · exact within_recompute hmin hgrows (t := t.record s) h s.ts
    · exact h
  · exact h

omit hmin hgrows

/-- The hypotheses on the fractions are only for a tuner that is enabled. -/
theorem tuner_within_bounds (cfg : AdaptiveSettings)
    (hretries : 1 ≤ cfg.minRetries ∧ cfg.minRetries ≤ cfg.maxRetries)
    (htimeouts : 1 ≤ cfg.minTimeoutMs ∧ cfg.minTimeoutMs ≤ cfg.maxTimeoutMs)
    (htwo : 2 ≤ cfg.maxRetries)
    (hwhole : cfg.enabled → (cfg.minRetries = 1 ∨ 2 ≤ cfg.minRetries) ∧
      ∃ n : Nat, cfg.maxRetries = max cfg.minRetries 2 + n)
    (hgrows : cfg.enabled → cfg.minTimeoutMs = cfg.maxTimeoutMs ∨ cfg.minTimeoutMs = 1 ∨
      4 / 3 ≤ cfg.minTimeoutMs) (observations : List Sample) :
    cfg.minRetries ≤ (observations.foldl (observe cfg) (create cfg)).getRetries ∧
      (observations.foldl (observe cfg) (create cfg)).getRetries ≤ cfg.maxRetries ∧
      cfg.minTimeoutMs ≤ (observations.foldl (observe cfg) (create cfg)).getTimeoutMs ∧
      (observations.foldl (observe cfg) (create cfg)).getTimeoutMs ≤ cfg.maxTimeoutMs := by
  have hlow : cfg.minTimeoutMs ≤ (create cfg).currentTimeoutMs := le_max_left _ _
  have hhigh : (create cfg).currentTimeoutMs ≤ cfg.maxTimeoutMs :=
    max_le htimeouts.2 (min_le_left _ _)
  cases hon : cfg.enabled with
  | false =>
    have hidle : observations.foldl (observe cfg) (create cfg) = create cfg := by
      induction observations with
      | nil => rfl
      | cons s l ih => simpa [observe, hon] using ih
    rw [hidle]
    exact ⟨le_max_left _ _, max_le hretries.2 htwo, hlow, hhigh⟩
  | true =>
    obtain ⟨hfirst, hlast⟩ := hwhole hon
    have hinit : Within cfg (create cfg).currentRetries (create cfg).currentTimeoutMs := by
      refine ⟨?_, hlast, hlow, hhigh⟩
      rcases hfirst with hone | hmore
      · exact ⟨1, by simp only [create, hone]; norm_num⟩
      · exact ⟨0, by simp only [create, max_eq_left hmore, Nat.cast_zero, add_zero]⟩
    have hrun := List.foldlRecOn observations (observe cfg) (motive := fun t =>
      Within cfg t.currentRetries t.currentTimeoutMs) hinit fun t h s _ =>
        within_observe htimeouts.1 (hgrows hon) h s
    obtain ⟨⟨n, hn⟩, ⟨m, hm⟩, hmin, hmax⟩ := hrun
    exact ⟨(le_add_of_nonneg_right n.cast_nonneg).trans_eq hn.symm,
      (le_add_of_nonneg_right m.cast_nonneg).trans_eq hm.symm, hmin, hmax⟩

theorem tuner_within_bounds_default :
    let cfg := ({ enabled := some true } : AdaptiveOptions).settings
    let t := (List.replicate 10 ⟨1, 5000, false⟩).foldl (observe cfg) (create cfg)
    1 ≤ t.getRetries ∧ t.getRetries ≤ 5 ∧ 500 ≤ t.getTimeoutMs ∧ t.getTimeoutMs ≤ 30000 :=
  tuner_within_bounds ({ enabled := some true } : AdaptiveOptions).settings
    (by norm_num [AdaptiveOptions.settings]) (by norm_num [AdaptiveOptions.settings])
    (by norm_num [AdaptiveOptions.settings])
    (fun _ => ⟨.inl rfl, 3, by norm_num [AdaptiveOptions.settings]⟩)
    (fun _ => .inr (.inr (by norm_num [AdaptiveOptions.settings]))) _

/-- One retry is configured as the least and as the most; the new tuner has two. -/
theorem tuner_starts_above_maxRetries :
    ∃ cfg, cfg = ({ minRetries := some 1, maxRetries := some 1 } : AdaptiveOptions).settings ∧
      (1 ≤ cfg.minRetries ∧ cfg.minRetries ≤ cfg.maxRetries) ∧
      (1 ≤ cfg.minTimeoutMs ∧ cfg.minTimeoutMs ≤ cfg.maxTimeoutMs) ∧
      cfg.maxRetries < (create cfg).getRetries := by
  refine ⟨_, rfl, ?_⟩
  norm_num [AdaptiveOptions.settings, create, getRetries]

/-! ## The ring -/

/-- The ring holds the last observations, the oldest one at `start`. -/
structure Holds (t : AdaptiveTuner) (observations : List Sample) : Prop where
  start : t.start < maxSamples
  size : t.size = min observations.length maxSamples
  ring : ∀ i, i < t.size → t.ring ((t.start + i) % maxSamples) =
    observations[observations.length - t.size + i]?

theorem slot_ne {start i k : Nat} (hik : i < k) (hk : k < i + maxSamples) :
    (start + i) % maxSamples ≠ (start + k) % maxSamples := by
  unfold maxSamples at *
  omega

theorem Holds.record {t : AdaptiveTuner} {observations : List Sample} (h : Holds t observations)
    (s : Sample) : Holds (t.record s) (observations ++ [s]) := by
  have hsize := h.size
  have hlen : (observations ++ [s]).length = observations.length + 1 := by simp
  -- the slot of the new sample, and the slots that stay
  have hnew (j : Nat) (hj : j = t.start + t.size) :
      (t.record s).ring (j % maxSamples) = some s := by
    rw [hj]
    exact Function.update_self ..
  have hold (i : Nat) (hi : i < t.size) (hpos : t.size < i + maxSamples) :
      (t.record s).ring ((t.start + i) % maxSamples) =
        (observations ++ [s])[observations.length - t.size + i]? := by
    rw [List.getElem?_append_left (by omega), ← h.ring i hi]
    exact Function.update_of_ne (slot_ne hi hpos) ..
  have hlast : (observations ++ [s])[observations.length]? = some s := by simp
  by_cases hfull : t.size < maxSamples
  · have hstart : (t.record s).start = t.start := if_pos hfull
    have hmore : (t.record s).size = t.size + 1 := if_pos hfull
    refine ⟨hstart ▸ h.start, by omega, fun i hi => ?_⟩
    rw [hstart, hmore, hlen, Nat.add_sub_add_right]
    rcases Nat.lt_or_ge i t.size with hlt | hge
    · exact hold i hlt (by omega)
    · have hi' : i = t.size := by omega
      rw [hnew _ (by rw [hi']), hi', Nat.sub_add_cancel (by omega), hlast]
  · have hstart : (t.record s).start = (t.start + 1) % maxSamples := if_neg hfull
    have hsame : (t.record s).size = t.size := if_neg hfull
    refine ⟨hstart ▸ Nat.mod_lt _ (by decide), by omega, fun i hi => ?_⟩
    have hslot : ((t.record s).start + i) % maxSamples = (t.start + (i + 1)) % maxSamples := by
      rw [hstart, Nat.mod_add_mod, Nat.add_right_comm, Nat.add_assoc]
    have hidx : observations.length + 1 - t.size + i = observations.length - t.size + (i + 1) := by
      omega
    rw [hslot, hsame, hlen, hidx]
    rcases Nat.lt_or_ge (i + 1) t.size with hlt | hge
    · exact hold (i + 1) hlt (by omega)
    · have hi' : i + 1 = t.size := by omega
      rw [hi', hnew _ rfl, Nat.sub_add_cancel (by omega), hlast]

theorem Holds.observe {cfg : AdaptiveSettings} {t : AdaptiveTuner} {observations : List Sample}
    (henabled : cfg.enabled) (h : Holds t observations) (s : Sample) :
    Holds (t.observe cfg s) (observations ++ [s]) := by
  have hrecord := h.record s
  unfold AdaptiveTuner.observe
  rw [if_pos henabled]
  dsimp only
  split
  · unfold recompute
    dsimp only
    split
    · exact hrecord
    · exact ⟨hrecord.start, hrecord.size, hrecord.ring⟩
  · exact hrecord

theorem filterMap_range {α : Type} {f : Nat → Option α} {l : List α}
    (h : ∀ i, i < l.length → f i = l[i]?) : (List.range l.length).filterMap f = l := by
  induction l using List.reverseRecOn with
  | nil => rfl
  | append_singleton l x ih =>
    rw [List.length_append, List.length_singleton, List.range_succ, List.filterMap_append,
      ih fun i hi => ?_]
    · rw [List.filterMap_cons_some (b := x) (by rw [h] <;> simp), List.filterMap_nil]
    · rw [h i (by simp; omega), List.getElem?_append_left hi]

/-- The samples of the window are those of the last `maxSamples` observations that are not too
old, in the order in which they were made. -/
theorem window_exact (cfg : AdaptiveSettings) (henabled : cfg.enabled) (observations : List Sample)
    (now : ℚ) :
    (observations.foldl (observe cfg) (create cfg)).window cfg now =
      let recent := (observations.drop (observations.length - maxSamples)).filter
        fun s => now - cfg.windowMs ≤ s.ts
      (recent.map Sample.durationMs, recent.countP fun s => !s.ok) := by
  have hrun : Holds (observations.foldl (observe cfg) (create cfg)) observations := by
    induction observations using List.reverseRecOn with
    | nil => exact ⟨(by decide : 0 < maxSamples), rfl, fun i hi => absurd hi (Nat.not_lt_zero i)⟩
    | append_singleton l s ih =>
      rw [List.foldl_append]
      exact ih.observe henabled s
  have hsize := hrun.size
  have hlen : (observations.drop (observations.length - maxSamples)).length =
      (observations.foldl (observe cfg) (create cfg)).size := by
    rw [List.length_drop, hsize]
    omega
  have hdrop : observations.length - (observations.foldl (observe cfg) (create cfg)).size =
      observations.length - maxSamples := by omega
  unfold window
  rw [← hlen, filterMap_range fun i hi => ?_]
  · simp only [not_lt]
  · rw [hrun.ring i (hlen ▸ hi), hdrop, List.getElem?_drop]

theorem window_exact_two :
    ([⟨1, 70, true⟩, ⟨40000, 80, false⟩].foldl
      (observe ({ enabled := some true } : AdaptiveOptions).settings)
      (create ({ enabled := some true } : AdaptiveOptions).settings)).window
        ({ enabled := some true } : AdaptiveOptions).settings 40001 = ([80], 1) := by
  rw [window_exact _ rfl]
  decide +kernel

end AdaptiveTuner

end NevoMessaging
