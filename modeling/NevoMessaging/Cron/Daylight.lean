import NevoMessaging.Cron.Tick

/-!
# Daylight saving

What the search of `nextCronTick` does in a zone that puts its clock forward and back by an hour.

A midnight may be skipped. `Date` resolves it to a minute of the day that it begins. The two passes
of `toEpoch` resolve it to a minute of the day before if the skipped midnight, read as UTC, is
before the change; then the search never gets to the next day.

An hour may be shown twice. `Date` resolves its minutes to their first occurrence. The two passes
resolve them to the second one if they are not before the change when they are read as UTC; then
what is found depends on the minute from which the search has begun.

Results:
1. `ready_iff`: what the search looks for, in minutes.
2. `daylight_progress_iff`: no schedule stops if and only if no midnight is skipped in that way.
3. `daylight_consistent_iff`: when the next tick does not depend on when it is asked for.
-/

namespace NevoMessaging

open List

open JsString JsDate Timezone

section Minutes

variable {parsed : ParsedCron} {tz : Timezone}

/-- The expression matches the minute `l` of the wall clock. -/
def ClockMatches (parsed : ParsedCron) (l : Int) : Prop :=
  dayOn parsed (l / 1440) ∧ timeMatches parsed l

theorem clockAt_minute (i : Int) : clockAt tz (60000 * i) = tz.zone.wall i := by
  unfold clockAt Zone.wall Zone.ahead
  omega

theorem onSchedule_minute {i : Int} :
    OnSchedule parsed tz (60000 * i) ↔ ClockMatches parsed (tz.zone.wall i) := by
  rw [onSchedule_iff, clockAt_minute, ClockMatches]
  exact ⟨fun h => h.2, fun h => ⟨by omega, h⟩⟩

theorem dayAfter_eq (day : Int) :
    dayAfter tz day = tz.zone.wall (tz.minuteOf (1440 * (day + 1))) / 1440 := by
  rw [dayAfter, resolve_minutes, clockAt_minute]

theorem ready_iff (h : tz.zone.Daylight) {i lower l : Int} :
    Ready parsed tz (60000 * i) lower l ↔
      ClockMatches parsed l ∧ lower ≤ l % 1440 ∧ i ≤ tz.minuteOf l ∧
        tz.zone.wall (tz.minuteOf l) = l := by
  have hnear := near_minuteOf h l
  unfold Ready Taken ClockMatches
  rw [resolve_minutes, clockAt_minute]
  constructor
  · rintro ⟨hday, htime, hlower, hfrom, hback⟩
    exact ⟨⟨hday, htime⟩, hlower, by omega, by omega⟩
  · rintro ⟨⟨hday, htime⟩, hlower, hfrom, hback⟩
    exact ⟨hday, htime, hlower, by omega, by omega⟩

end Minutes

/-! ## The days of a search -/

/-- The search gets from a day to the next one. -/
def Passes (tz : Timezone) (day : Int) : Prop :=
  (∃ z, tz = .named z) → ¬ tz.zone.SkippedBefore (1440 * (day + 1))

section Days

variable {tz : Timezone} (h : tz.zone.Daylight)
include h

variable {day : Int}

theorem dayAfter_of_passes (hpasses : Passes tz day) : dayAfter tz day = day + 1 := by
  rw [dayAfter_eq]
  rcases nextDay h day with hnext | ⟨hnamed, hskip⟩
  · exact hnext
  · exact absurd hskip (hpasses hnamed)

theorem dayAfter_of_not_passes (hpasses : ¬ Passes tz day) : dayAfter tz day = day := by
  unfold Passes at hpasses
  push Not at hpasses
  obtain ⟨⟨z, rfl⟩, hskip⟩ := hpasses
  rw [dayAfter_eq]
  exact nextDay_of_skippedBefore h hskip

theorem iterate_dayAfter {k : Nat} (hpasses : ∀ d, day ≤ d → d < day + k → Passes tz d) :
    (dayAfter tz)^[k] day = day + k := by
  induction k with
  | zero => simp
  | succ k ih =>
    rw [Function.iterate_succ_apply', ih fun d hd hlt => hpasses d hd (by omega),
      dayAfter_of_passes h (hpasses _ (by omega) (by omega))]
    omega

theorem iterate_dayAfter_cases (day : Int) (k : Nat) :
    ∃ m : Nat, m ≤ k ∧ (dayAfter tz)^[k] day = day + m ∧
      ∀ d, day ≤ d → d < day + m → Passes tz d := by
  induction k with
  | zero => exact ⟨0, le_rfl, by simp, fun d hd hlt => absurd hlt (by omega)⟩
  | succ k ih =>
    obtain ⟨m, hm, hday, hpasses⟩ := ih
    rw [Function.iterate_succ_apply', hday]
    by_cases hlast : Passes tz (day + m)
    · refine ⟨m + 1, by omega, by rw [dayAfter_of_passes h hlast]; omega, fun d hd hlt => ?_⟩
      rcases (show d < day + m ∨ d = day + m by omega) with hlt' | rfl
      · exact hpasses d hd hlt'
      · exact hlast
    · exact ⟨m, by omega, dayAfter_of_not_passes h hlast, hpasses⟩

end Days

/-! ## What a search finds -/

def firstMinute (start : ℚ) : Int := ⌊start / 60000⌋ + 1

theorem fromMinuteOf_eq (start : ℚ) : fromMinuteOf start = 60000 * firstMinute start := by
  unfold fromMinuteOf firstMinute
  omega

theorem firstMinute_le {start : ℚ} {i : Int} (hlt : start < (60000 * i : Int)) :
    firstMinute start ≤ i := by
  have hle := fromMinuteOf_le (by omega) hlt
  rw [fromMinuteOf_eq] at hle
  omega

theorem firstMinute_minute (i : Int) : firstMinute ((60000 * i : Int) : ℚ) = i + 1 := by
  have hdiv : ((60000 * i : Int) : ℚ) / 60000 = i := by
    push_cast
    ring
  rw [firstMinute, hdiv, Int.floor_intCast]

section Search

variable {parsed : ParsedCron} {tz : Timezone} (h : tz.zone.Daylight)

/-- The minute `l` of the wall clock is found by a search from the minute `i`, if the search comes
to it. -/
def Findable (parsed : ParsedCron) (tz : Timezone) (i l : Int) : Prop :=
  ClockMatches parsed l ∧ i ≤ tz.minuteOf l ∧ tz.zone.wall (tz.minuteOf l) = l

include h

theorem Findable.ready {i w l : Int} (hl : Findable parsed tz i l) (hw : w ≤ l) {j : Nat}
    (hj : l / 1440 = w / 1440 + j) :
    Ready parsed tz (60000 * i) (lowerAt (w % 1440) j) l := by
  refine (ready_iff h).mpr ⟨hl.1, ?_, hl.2⟩
  cases j with
  | zero =>
    show w % 1440 ≤ _
    omega
  | succ j =>
    show 0 ≤ _
    omega

theorem Findable.of_ready {i lower l : Int} (hready : Ready parsed tz (60000 * i) lower l) :
    Findable parsed tz i l := by
  obtain ⟨hmatch, -, hrest⟩ := (ready_iff h).mp hready
  exact ⟨hmatch, hrest⟩

theorem found_le {start : ℚ} {l : Int} {j : Nat}
    (hl : Findable parsed tz (firstMinute start) l) (hw : tz.zone.wall (firstMinute start) ≤ l)
    (hj : l / 1440 = tz.zone.wall (firstMinute start) / 1440 + j) (hmax : j < maxDays)
    (hpasses : ∀ d, tz.zone.wall (firstMinute start) / 1440 ≤ d → d < l / 1440 → Passes tz d) :
    ∃ l' ≤ l, tz.zone.wall (firstMinute start) ≤ l' ∧
      Findable parsed tz (firstMinute start) l' ∧
      tickOf parsed start tz = 60000 * tz.minuteOf l' := by
  have hspec := tickOf_spec parsed tz start
  rw [fromMinuteOf_eq, clockAt_minute] at hspec
  generalize firstMinute start = i at *
  generalize hw₀ : tz.zone.wall i = w at *
  have hready := hl.ready h hw hj
  have hday (k : Nat) (hk : k ≤ j) : (dayAfter tz)^[k] (w / 1440) = w / 1440 + k :=
    iterate_dayAfter h fun d hd hlt => hpasses d hd (by omega)
  rcases hspec with ⟨k, hk, l', ht, hends⟩ | ⟨-, hnone⟩
  · have hkj : k ≤ j := by
      by_contra hjk
      exact hends.before j (not_le.mp hjk) l (by rw [hday j le_rfl, hj]) hready
    have honDay := hends.onDay
    rw [hday k hkj] at honDay
    have hle : l' ≤ l := by
      rcases Nat.lt_or_ge k j with hlt | hge
      · omega
      · obtain rfl : k = j := by omega
        by_contra hlt
        exact hends.first l (not_le.mp hlt) (by omega) hready
    have hlower : w ≤ l' := by
      obtain ⟨-, hlow, -⟩ := (ready_iff h).mp hends.ready
      cases k with
      | zero =>
        change w % 1440 ≤ _ at hlow
        omega
      | succ k => omega
    exact ⟨l', hle, hlower, Findable.of_ready h hends.ready, by rw [ht, resolve_minutes]⟩
  · exact absurd hready (hnone j hmax l (by rw [hday j le_rfl, hj]))

end Search

/-! ## A schedule does not stop -/

section Progress

variable {tz : Timezone}

/-- The wall-clock time of the instant occurs once. -/
def OccursOnce (tz : Timezone) (t : Int) : Prop :=
  ∀ s, s + 60000 * tz.zone.offset s = t + 60000 * tz.zone.offset t → s = t

variable {i : Int} {parsed : ParsedCron}

theorem occursOnce_minute :
    OccursOnce tz (60000 * i) ↔ ∀ j, tz.zone.wall j = tz.zone.wall i → j = i := by
  unfold Zone.wall Zone.ahead
  constructor
  · intro h j hj
    have hsame := h (60000 * j)
    omega
  · intro h s hs
    obtain ⟨j, rfl⟩ : ∃ j, s = 60000 * j := ⟨s / 60000, by omega⟩
    rw [h j (by omega)]

/-- A tick is found and is not later than the minute `i`, if the days up to it are passed. -/
theorem tick_le (h : tz.zone.Daylight) {start : ℚ} (hlt : start < (60000 * i : Int))
    (hend : i < firstMinute start + 4 * 365 * 1440) (hmatch : ClockMatches parsed (tz.zone.wall i))
    (honce : ∀ j, tz.zone.wall j = tz.zone.wall i → j = i) (hpasses : ∀ d, Passes tz d) :
    tickOf parsed start tz ≠ -1 ∧ tickOf parsed start tz ≤ 60000 * i := by
  have hfirst := firstMinute_le hlt
  have hresolve : tz.minuteOf (tz.zone.wall i) = i := honce _ (wall_minuteOf h rfl)
  -- the clock has not fallen back to a time that it shows once
  have hw : tz.zone.wall (firstMinute start) ≤ tz.zone.wall i := by
    by_contra hlater
    have hne : firstMinute start ≠ i := by
      rintro heq
      exact hlater (by rw [heq])
    obtain ⟨-, -, -, -, -, hagain⟩ :=
      h.shown_again (lt_of_le_of_ne hfirst hne) (not_le.mp hlater)
    have := honce _ hagain
    omega
  have hbound := h.ahead_bounded i
  have hbound' := h.ahead_bounded (firstMinute start)
  obtain ⟨j, hj⟩ := Int.eq_ofNat_of_zero_le
    (a := tz.zone.wall i / 1440 - tz.zone.wall (firstMinute start) / 1440) (by omega)
  have hmax : j < maxDays := by
    have hmaxDays : maxDays = 1466 := rfl
    unfold Zone.wall at hj
    omega
  obtain ⟨l, hle, -, hfound, htick⟩ := found_le h ⟨hmatch, by rw [hresolve]; exact hfirst,
    by rw [hresolve]⟩ hw (j := j) (by omega) hmax fun d _ _ => hpasses d
  rw [htick]
  refine ⟨by omega, ?_⟩
  by_contra hlater
  have hafter : i < tz.minuteOf l := by omega
  have hshow := hfound.2.2
  rcases eq_or_lt_of_le hle with rfl | hlt'
  · exact absurd (honce _ hshow) (by omega)
  · obtain ⟨-, -, -, -, hagain, -⟩ := h.shown_again hafter (by omega)
    have := honce _ hagain
    omega

theorem exists_platform (tz : Timezone) : ∃ platform opts, timezoneOf platform opts = .ok tz := by
  cases tz with
  | host z =>
    refine ⟨{ utcPlatform with host := z }, {}, ?_⟩
    rfl
  | named z =>
    refine ⟨⟨.fixed 0, fun name => if name = lit "UTC" then some (.fixed 0)
      else some z, if_pos rfl⟩,
      { timezone := some (lit "Z") }, ?_⟩
    have htruthy : JsString.truthy (some (lit "Z")) = some (lit "Z") := by decide +kernel
    have hname : lit "Z" ≠ lit "UTC" := by decide +kernel
    unfold timezoneOf
    rw [if_neg Bool.false_ne_true, htruthy]
    dsimp only
    rw [if_neg hname]

theorem parsed_of_check (expr : JsString) (check : ParsedCron → Bool)
    (h : (parseCron expr).toOption.any check) :
    ∃ parsed, parseCron expr = .ok parsed ∧ check parsed := by
  cases hparsed : parseCron expr with
  | error e =>
    rw [hparsed] at h
    exact absurd h Bool.false_ne_true
  | ok parsed =>
    rw [hparsed] at h
    exact ⟨parsed, rfl, h⟩

theorem dayOn_of_wildcards (hday : parsed.day.wildcard) (hweekday : parsed.weekday.wildcard)
    (hmonth : (List.range' 1 12).all fun m => decide ((m : ℚ) ∈ parsed.month.values)) (day : Int) :
    dayOn parsed day := by
  obtain ⟨hlow, hhigh, -⟩ := month_civil (1440 * day / 1440)
  have hmem : ((civil (1440 * day / 1440)).2.1 : ℚ) ∈ parsed.month.values := by
    rw [all_eq_true] at hmonth
    exact of_decide_eq_true (hmonth _ (mem_range'_1.mpr (by omega)))
  unfold dayOn dayMatches
  rw [hday, hweekday, if_neg]
  · rfl
  · rw [not_not]
    exact hmem

theorem exists_noon : ∃ parsed, parseCron (lit "0 12 * * *") = .ok parsed ∧
    ∀ l, ClockMatches parsed l ↔ l % 1440 = 720 := by
  obtain ⟨parsed, hparsed, hcheck⟩ := parsed_of_check (lit "0 12 * * *")
    (fun parsed => parsed.minute.values == [0] && parsed.hour.values == [12] &&
      parsed.day.wildcard && parsed.weekday.wildcard &&
      (range' 1 12).all fun m => decide ((m : ℚ) ∈ parsed.month.values)) (by decide +kernel)
  simp only [Bool.and_eq_true, beq_iff_eq] at hcheck
  obtain ⟨⟨⟨⟨hminute, hhour⟩, hday⟩, hweekday⟩, hmonth⟩ := hcheck
  refine ⟨parsed, hparsed, fun l => ?_⟩
  have hclock := @clock_eq_iff l 12 0 (by decide)
  unfold ClockMatches timeMatches
  rw [hhour, hminute, mem_singleton, mem_singleton, iff_true_intro
    (dayOn_of_wildcards hday hweekday hmonth (l / 1440)), true_and]
  constructor
  · rintro ⟨h₁, h₂⟩
    have := hclock.mp ⟨by exact_mod_cast h₁, by exact_mod_cast h₂⟩
    omega
  · intro hl
    obtain ⟨h₁, h₂⟩ := hclock.mpr (by omega)
    rw [h₁, h₂]
    exact ⟨rfl, rfl⟩

theorem tick_of_skippedBefore (hnamed : ∃ z, tz = .named z) (h : tz.zone.Daylight)
    (hnoon : ∀ l, ClockMatches parsed l ↔ l % 1440 = 720) (day : Int) (hforward : tz.zone.Forward i)
    (hlow : tz.zone.wall (i - 1) < 1440 * (day + 1)) (hhigh : 1440 * (day + 1) < tz.zone.wall i)
    (hutc : 1440 * (day + 1) < i) :
    tickOf parsed ((60000 * (i - 2) : Int) : ℚ) tz = -1 := by
  have hstuck : dayAfter tz day = day :=
    dayAfter_of_not_passes h fun hpasses => hpasses hnamed ⟨i, hforward, hlow, hhigh, hutc⟩
  have hspec := tickOf_spec parsed tz ((60000 * (i - 2) : Int) : ℚ)
  have hday : tz.zone.wall (i - 1) / 1440 = day := by
    unfold Zone.Forward at hforward
    unfold Zone.wall at *
    omega
  rw [fromMinuteOf_eq, firstMinute_minute, show i - 2 + 1 = i - 1 by omega, clockAt_minute,
    hday] at hspec
  rcases hspec with ⟨k, -, l, -, hends⟩ | ⟨hnone, -⟩
  · obtain ⟨hmatch, -, hfrom, hshow⟩ := (ready_iff h).mp hends.ready
    have honDay := hends.onDay
    rw [Function.iterate_fixed hstuck] at honDay
    have hclock := (hnoon l).mp hmatch
    have hback := h.wall_sub_le hfrom
    rw [hshow] at hback
    unfold Zone.Forward at hforward
    unfold Zone.wall at hlow hhigh hback
    omega
  · exact hnone

theorem noon_after_forward {z : Zone} (h : z.Daylight) {day : Int} (hforward : z.Forward i)
    (hlow : z.wall (i - 1) < 1440 * (day + 1)) (hhigh : 1440 * (day + 1) < z.wall i) :
    ∃ j, i < j ∧ j < i + 1440 ∧ z.wall j = 1440 * (day + 1) + 720 ∧
      ∀ j', z.wall j' = z.wall j → j' = j := by
  obtain ⟨change, before, after, hnear⟩ := h.window i
  have hbefore := hnear.before_bounded
  have hafter := hnear.after_bounded
  unfold Zone.Forward at hforward
  obtain ⟨rfl, hlast, hfirst⟩ := hnear.change_eq (j := i) (by omega) (by omega)
  unfold Zone.wall at hlow hhigh
  have hj := hnear.ahead (1440 * (day + 1) + 720 - z.ahead i) (by omega) (by omega)
  rw [if_neg (by omega)] at hj
  have hwall : z.wall (1440 * (day + 1) + 720 - z.ahead i) = 1440 * (day + 1) + 720 := by
    unfold Zone.wall
    omega
  refine ⟨1440 * (day + 1) + 720 - z.ahead i, by omega, by omega, hwall, fun j' hj' => ?_⟩
  rw [hwall] at hj'
  have hnear' := h.wall_near j'
  have hshow := hnear.ahead j' (by omega) (by omega)
  unfold Zone.wall at hj'
  split_ifs at hshow <;> omega

/-- For every zone that puts its clock forward and back: for every expression and every `start`, a
tick is found that is not later than an instant on schedule whose time occurs once and which is less
than four years away, if and only if there is no named zone with a midnight that is skipped before
the change. -/
theorem daylight_progress_iff (tz : Timezone) (h : tz.zone.Daylight) :
    (∀ (platform : Platform) (expr : JsString) (opts : CronOptions) (parsed : ParsedCron)
      (start : ℚ)
      (t : Int), parseCron expr = .ok parsed → timezoneOf platform opts = .ok tz →
      start < t → t < start + 4 * 365 * 86400000 → OnSchedule parsed tz t → OccursOnce tz t →
      ∃ tick : Int, nextCronTick platform expr start opts = .ok tick ∧ tick ≠ -1 ∧ tick ≤ t) ↔
    ((∃ z, tz = .named z) → ∀ day, ¬ tz.zone.SkippedBefore (1440 * day)) := by
  constructor
  · intro hall hnamed day hskip
    obtain ⟨i, hforward, hlow, hhigh, hutc⟩ := hskip
    rw [show day = day - 1 + 1 by omega] at hlow hhigh hutc
    obtain ⟨platform, opts, htz⟩ := exists_platform tz
    obtain ⟨parsed, hparsed, hnoon⟩ := exists_noon
    obtain ⟨j, hij, hji, hwall, honce⟩ := noon_after_forward h hforward hlow hhigh
    have hmatch : ClockMatches parsed (tz.zone.wall j) := (hnoon _).mpr (by omega)
    obtain ⟨tick, hnext, hne, -⟩ := hall platform _ opts parsed ((60000 * (i - 2) : Int) : ℚ)
      (60000 * j) hparsed htz (by exact_mod_cast (by omega : 60000 * (i - 2) < 60000 * j))
      (by exact_mod_cast (by omega : 60000 * j < 60000 * (i - 2) + 4 * 365 * 86400000))
      (onSchedule_minute.mpr hmatch) (occursOnce_minute.mpr honce)
    rw [nextCronTick_eq hparsed htz,
      tick_of_skippedBefore hnamed h hnoon (day - 1) hforward hlow hhigh hutc] at hnext
    cases hnext
    exact hne rfl
  · intro hnone platform expr opts parsed start t hparsed htz hlt hend hsched honce
    have hfull := (onSchedule_iff.mp hsched).1
    obtain ⟨i, rfl⟩ := Int.dvd_of_emod_eq_zero hfull
    have hfirst := lt_fromMinuteOf start
    have hend' : i < firstMinute start + 4 * 365 * 1440 := by
      have hlt' : ((60000 * i : Int) : ℚ) < fromMinuteOf start + 4 * 365 * 86400000 := by linarith
      rw [fromMinuteOf_eq] at hlt'
      have hint : 60000 * i < 60000 * firstMinute start + 4 * 365 * 86400000 := by
        exact_mod_cast hlt'
      omega
    refine ⟨_, nextCronTick_eq hparsed htz start, ?_⟩
    exact tick_le h hlt hend' (onSchedule_minute.mp hsched) (occursOnce_minute.mp honce)
      fun d hnamed => hnone hnamed (d + 1)

theorem daylight_of_change {change before after : Int} (hbefore : -1440 < before ∧ before < 1440)
    (hafter : -1440 < after ∧ after < 1440) (hhour : after = before + 60 ∨ after = before - 60) :
    Zone.Daylight { offset t := if t < change then before else after } where
  bounded t := by
    dsimp only
    split <;> omega
  hour t := by
    dsimp only
    split_ifs <;> omega
  apart s t hst hs ht := by
    dsimp only at hs ht
    split_ifs at hs ht <;> omega

/-- On 2025-03-09 the clock went from midnight to one o'clock. -/
def havana : Zone where
  offset t := if t < 1741496400000 then -300 else -240

theorem daylight_havana : havana.Daylight :=
  daylight_of_change (by omega) (by omega) (by omega)

theorem forward_havana : havana.Forward 29024940 := by
  show havana.ahead 29024940 = havana.ahead (29024940 - 1) + 60
  decide

theorem daylight_progress_havana :
    ¬ ∀ (platform : Platform) (expr : JsString) (opts : CronOptions) (parsed : ParsedCron)
    (start : ℚ)
      (t : Int), parseCron expr = .ok parsed → timezoneOf platform opts = .ok (.named havana) →
      start < t → t < start + 4 * 365 * 86400000 → OnSchedule parsed (.named havana) t →
      OccursOnce (.named havana) t →
      ∃ tick : Int, nextCronTick platform expr start opts = .ok tick ∧ tick ≠ -1 ∧ tick ≤ t := by
  intro hall
  exact (daylight_progress_iff (.named havana) daylight_havana).mp hall ⟨havana, rfl⟩ 20156
    ⟨29024940, forward_havana, by decide, by decide, by decide⟩

def havanaPlatform : Platform where
  host := .fixed 0
  intl name := if name = lit "UTC" then some (.fixed 0)
    else if name = lit "America/Havana" then some havana else none
  utc := if_pos rfl

theorem timezoneOf_havana :
    timezoneOf havanaPlatform { timezone := some (lit "America/Havana") } = .ok
    (.named havana) := by
  have htruthy : JsString.truthy (some (lit "America/Havana")) = some (lit "America/Havana") := by
    decide +kernel
  have hname : lit "America/Havana" ≠ lit "UTC" := by decide +kernel
  have hintl : havanaPlatform.intl (lit "America/Havana") = some havana := by
    unfold havanaPlatform
    dsimp only
    rw [if_neg hname, if_pos rfl]
  unfold timezoneOf
  rw [if_neg Bool.false_ne_true, htruthy]
  dsimp only
  rw [hintl]

/-- Two minutes before the change there is no next noon any more, although it comes on the same
day. -/
theorem skipped_midnight_stops : ∃ parsed, parseCron (lit "0 12 * * *") = .ok parsed ∧
    nextCronTick havanaPlatform (lit "0 12 * * *") 1741496280000
      { timezone := some (lit "America/Havana") } = .ok (-1) ∧
    OnSchedule parsed (.named havana) 1741536000000 ∧ OccursOnce (.named havana) 1741536000000 := by
  obtain ⟨parsed, hparsed, hnoon⟩ := exists_noon
  have hjump : (Timezone.named havana).zone.Forward 29024940 := forward_havana
  have htick := tick_of_skippedBefore ⟨havana, rfl⟩ daylight_havana hnoon 20155 hjump (by decide)
    (by decide) (by decide)
  refine ⟨parsed, hparsed, ?_, ?_, ?_⟩
  · rw [nextCronTick_eq hparsed timezoneOf_havana, ← htick]
    norm_num
  · refine onSchedule_minute (i := 29025600).mpr ((hnoon _).mpr ?_)
    decide
  · intro s hs
    change s + 60000 * (if s < 1741496400000 then -300 else -240) = _ at hs
    change _ = 1741536000000 + 60000 * (if (1741536000000 : Int) < 1741496400000 then -300
      else -240) at hs
    split_ifs at hs <;> omega

end Progress

/-! ## The next tick does not depend on when it is asked for -/

section Consistent

variable {tz : Timezone}

/-- The clock is put back by an offset of at most a minute: what is shown twice is before the change
when it is read as UTC, and is resolved to its first occurrence. -/
def FirstOccurrence (tz : Timezone) : Prop :=
  (∃ z, tz = .named z) → ∀ i, tz.zone.Backward i → tz.zone.ahead (i - 1) ≤ 1

/-- The clock is put back over midnight, and an expression rests from the minute before the change
until the last day of the search from that minute. The search from the change begins a day
earlier. -/
def LastDayLost (tz : Timezone) : Prop :=
  ∃ i, tz.zone.Backward i ∧ tz.zone.wall i / 1440 < tz.zone.wall (i - 1) / 1440 ∧
    (∀ d, tz.zone.wall (i - 1) / 1440 ≤ d → d < tz.zone.wall (i - 1) / 1440 + 1465 → Passes tz d) ∧
    ∃ expr parsed, parseCron expr = .ok parsed ∧
      (∃ j, ClockMatches parsed (tz.zone.wall j) ∧
        tz.zone.wall j / 1440 = tz.zone.wall (i - 1) / 1440 + 1465) ∧
      ∀ j, ClockMatches parsed (tz.zone.wall j) → tz.zone.wall (i - 1) ≤ tz.zone.wall j →
        tz.zone.wall (i - 1) / 1440 + 1465 ≤ tz.zone.wall j / 1440

/-- What the search has found. -/
structure FoundAt (parsed : ParsedCron) (tz : Timezone) (start : ℚ) (l : Int) (m : Nat) : Prop where
  tick : tickOf parsed start tz = 60000 * tz.minuteOf l
  found : Findable parsed tz (firstMinute start) l
  day : l / 1440 = tz.zone.wall (firstMinute start) / 1440 + m
  max : m < maxDays
  passes : ∀ d, tz.zone.wall (firstMinute start) / 1440 ≤ d → d < l / 1440 → Passes tz d
  least : ∀ l' < l, tz.zone.wall (firstMinute start) ≤ l' →
    ¬ Findable parsed tz (firstMinute start) l'

variable {parsed : ParsedCron} {start : ℚ} {i : Int}

theorem exists_foundAt (h : tz.zone.Daylight) (hne : tickOf parsed start tz ≠ -1) :
    ∃ l m, FoundAt parsed tz start l m := by
  have hspec := tickOf_spec parsed tz start
  rw [fromMinuteOf_eq, clockAt_minute] at hspec
  rcases hspec with ⟨k, hk, l, ht, hends⟩ | ⟨hnone, -⟩
  · obtain ⟨m, hm, hday, hpasses⟩ :=
      iterate_dayAfter_cases h (tz.zone.wall (firstMinute start) / 1440) k
    have honDay := hends.onDay
    rw [hday] at honDay
    refine ⟨l, m, by rw [ht, resolve_minutes], Findable.of_ready h hends.ready, honDay, by omega,
      fun d hd hlt => hpasses d hd (by omega), fun l' hlt hw hfound => ?_⟩
    -- an earlier minute would have been found on its day
    obtain ⟨j, hj⟩ := Int.eq_ofNat_of_zero_le
      (a := l' / 1440 - tz.zone.wall (firstMinute start) / 1440) (by omega)
    have hready := hfound.ready h hw (j := j) (by omega)
    have hday' : (dayAfter tz)^[j] (tz.zone.wall (firstMinute start) / 1440) =
        tz.zone.wall (firstMinute start) / 1440 + j :=
      iterate_dayAfter h fun d hd hlt => hpasses d hd (by omega)
    rcases Nat.lt_or_ge j k with hjk | hjk
    · exact hends.before j hjk l' (by rw [hday']; omega) hready
    · obtain rfl : j = k := by omega
      exact hends.first l' hlt (by omega) hready
  · exact absurd hnone hne

theorem firstMinute_mono {start' : ℚ} (hle : start ≤ start') :
    firstMinute start ≤ firstMinute start' := by
  have hdiv : start / 60000 ≤ start' / 60000 := by gcongr
  have hfloor := Int.floor_le_floor hdiv
  unfold firstMinute
  omega

theorem passes_of_backward (h : tz.zone.Daylight) {change i' : Int}
    (hchange : tz.zone.Backward change) (hi : i < change) (hi' : change ≤ i') {d : Int}
    (hd : tz.zone.wall i' / 1440 ≤ d) (hd' : d < tz.zone.wall i / 1440) :
    Passes tz d := by
  rintro - ⟨j, hforward, hlow, hhigh, -⟩
  have hback := h.wall_near i
  have hback' := h.wall_near i'
  have hj := h.wall_near j
  have hj' := h.wall_near (j - 1)
  exact h.not_forward_of_backward hchange hforward (by omega)

theorem FoundAt.lastDayLost (h : tz.zone.Daylight) {expr : JsString}
    (hparsed : parseCron expr = .ok parsed) {l : Int} {m : Nat} (hat : FoundAt parsed tz start l m)
    (hm : m = 1465) {change i' : Int} (hchange : tz.zone.Backward change)
    (hi : firstMinute start < change) (hi' : change ≤ i') (hnear : i' < firstMinute start + 60)
    (hday : tz.zone.wall i' / 1440 < tz.zone.wall (firstMinute start) / 1440) : LastDayLost tz := by
  have hbefore : tz.zone.wall (firstMinute start) ≤ tz.zone.wall (change - 1) :=
    h.wall_le_of_backward hchange (by omega) (.inl (by omega)) (by omega)
  have hafter : tz.zone.wall change ≤ tz.zone.wall i' :=
    h.wall_le_of_backward hchange hi' (.inr le_rfl) (by omega)
  have hdrop : tz.zone.wall change = tz.zone.wall (change - 1) - 59 := by
    unfold Zone.Backward at hchange
    unfold Zone.wall
    omega
  have hsame : tz.zone.wall (change - 1) / 1440 = tz.zone.wall (firstMinute start) / 1440 := by
    omega
  obtain ⟨hmatch, -, hshow⟩ := hat.found
  have hl := hat.day
  refine ⟨change, hchange, by omega, fun d hd hlt => hat.passes d (by omega) (by omega), expr,
    parsed,
    hparsed, ⟨tz.minuteOf l, hshow.symm ▸ hmatch, by omega⟩, fun j hj hle => ?_⟩
  by_contra hearly
  -- an earlier minute would have been found, since it is resolved to one from `start` on
  have hj' : tz.zone.wall (tz.minuteOf (tz.zone.wall j)) = tz.zone.wall j := wall_minuteOf h rfl
  refine hat.least (tz.zone.wall j) (by omega) (by omega) ⟨hj, ?_, hj'⟩
  by_contra hlt
  have hless := h.wall_lt_of_backward hchange (i := tz.minuteOf (tz.zone.wall j)) (by omega)
  omega

/-- A search that begins later finds the same, unless it begins on an earlier day. -/
theorem tick_eq_of_le (h : tz.zone.Daylight) (hfirst : FirstOccurrence tz)
    (hlast : ¬ LastDayLost tz) {expr : JsString} (hparsed : parseCron expr = .ok parsed)
    {start' : ℚ} (hle : start ≤ start') (hne : tickOf parsed start tz ≠ -1)
    (hlt : start' < tickOf parsed start tz) :
    tickOf parsed start' tz = tickOf parsed start tz := by
  obtain ⟨l, m, hat⟩ := exists_foundAt h hne
  have hmono := firstMinute_mono hle
  have hlater : firstMinute start' ≤ tz.minuteOf l := by
    refine firstMinute_le ?_
    rw [← hat.tick]
    exact hlt
  obtain ⟨hmatch, -, hshow⟩ := hat.found
  have hw' : tz.zone.wall (firstMinute start') ≤ l := wall_le_of_le_minuteOf h hfirst hshow hlater
  have hl := hat.day
  have hmax : maxDays = 1466 := rfl
  have hm := hat.max
  -- it is enough that the later search comes to the day of `l`
  have hcomes {j : Nat} (hj : l / 1440 = tz.zone.wall (firstMinute start') / 1440 + j)
      (hjmax : j < maxDays) (hpasses : ∀ d, tz.zone.wall (firstMinute start') / 1440 ≤ d →
        d < l / 1440 → Passes tz d) : tickOf parsed start' tz = tickOf parsed start tz := by
    obtain ⟨l', hle', hw'', hfound, htick⟩ :=
      found_le h ⟨hmatch, hlater, hshow⟩ hw' hj hjmax hpasses
    rcases eq_or_lt_of_le hle' with rfl | hlt'
    · rw [htick, hat.tick]
    · have hfrom := hmono.trans hfound.2.1
      exact absurd ⟨hfound.1, hfrom, hfound.2.2⟩
        (hat.least l' hlt' (wall_le_of_le_minuteOf h hfirst hfound.2.2 hfrom))
  by_cases hday : tz.zone.wall (firstMinute start) / 1440 ≤ tz.zone.wall (firstMinute start') / 1440
  · obtain ⟨j, hj⟩ := Int.eq_ofNat_of_zero_le
      (a := l / 1440 - tz.zone.wall (firstMinute start') / 1440) (by omega)
    exact hcomes (j := j) (by omega) (by omega) fun d hd hd' => hat.passes d (by omega) hd'
  · -- the clock has fallen back over midnight in between
    have hfall : tz.zone.wall (firstMinute start') < tz.zone.wall (firstMinute start) := by omega
    have hlt' : firstMinute start < firstMinute start' := by
      rcases eq_or_lt_of_le hmono with heq | hlt'
      · rw [heq] at hfall
        exact absurd hfall (lt_irrefl _)
      · exact hlt'
    obtain ⟨change, hchange, hi, hi', -⟩ := h.shown_again hlt' hfall
    have hnear : firstMinute start' < firstMinute start + 60 := by
      by_contra hfar
      exact absurd hfall (not_lt.mpr (h.wall_le (not_lt.mp hfar)))
    have hback := h.wall_sub_le hmono
    refine hcomes (j := m + 1) (by omega) ?_ fun d hd hd' => ?_
    · by_contra hge
      exact hlast (hat.lastDayLost h hparsed (by omega) hchange hi hi' hnear (by omega))
    · by_cases hd'' : tz.zone.wall (firstMinute start) / 1440 ≤ d
      · exact hat.passes d hd'' hd'
      · exact passes_of_backward h hchange hi hi' hd (by omega)

theorem exists_everyMinute : ∃ parsed, parseCron (lit "* * * * *") = .ok parsed ∧
    ∀ l, ClockMatches parsed l := by
  obtain ⟨parsed, hparsed, hcheck⟩ := parsed_of_check (lit "* * * * *")
    (fun parsed => ((range 60).all fun m => decide ((m : ℚ) ∈ parsed.minute.values)) &&
      ((range 24).all fun h => decide ((h : ℚ) ∈ parsed.hour.values)) &&
      parsed.day.wildcard && parsed.weekday.wildcard &&
      (range' 1 12).all fun m => decide ((m : ℚ) ∈ parsed.month.values)) (by decide +kernel)
  simp only [Bool.and_eq_true] at hcheck
  obtain ⟨⟨⟨⟨hminute, hhour⟩, hday⟩, hweekday⟩, hmonth⟩ := hcheck
  rw [all_eq_true] at hminute hhour
  refine ⟨parsed, hparsed, fun l => ⟨dayOn_of_wildcards hday hweekday hmonth _, ?_, ?_⟩⟩
  · have hpart := hour_partsAt l
    exact of_decide_eq_true (hhour _ (mem_range.mpr (by omega)))
  · have hpart := minute_partsAt l
    exact of_decide_eq_true (hminute _ (mem_range.mpr (by omega)))

theorem tick_everyMinute (hall : ∀ l, ClockMatches parsed l) (h : tz.zone.Daylight)
    (hle : i ≤ tz.minuteOf (tz.zone.wall i)) :
    tickOf parsed ((60000 * (i - 1) : Int) : ℚ) tz = 60000 * tz.minuteOf (tz.zone.wall i) := by
  have hfirst : firstMinute ((60000 * (i - 1) : Int) : ℚ) = i := by
    rw [firstMinute_minute]
    omega
  have hfound := @found_le parsed tz h ((60000 * (i - 1) : Int) : ℚ) (tz.zone.wall i) 0
  rw [hfirst] at hfound
  obtain ⟨l, hl, hw, -, htick⟩ := hfound ⟨hall _, hle, wall_minuteOf h rfl⟩ le_rfl (by omega)
    (by decide) fun d hd hlt => by omega
  rw [htick, le_antisymm hl hw]

theorem minuteOf_backward (hnamed : ∃ z, tz = .named z) (h : tz.zone.Daylight)
    (hback : tz.zone.Backward i) (hahead : 1 < tz.zone.ahead (i - 1)) :
    tz.minuteOf (tz.zone.wall (i - 2)) = i + 58 ∧ tz.minuteOf (tz.zone.wall (i - 1)) = i + 59 := by
  obtain ⟨z, rfl⟩ := hnamed
  change 1 < z.ahead (i - 1) at hahead
  change z.ahead i = z.ahead (i - 1) - 60 at hback
  change (Timezone.named z).minuteOf (z.wall (i - 2)) = _ ∧
    (Timezone.named z).minuteOf (z.wall (i - 1)) = _
  obtain ⟨change, before, after, hwindow⟩ := h.window i
  change z.Around i change before after at hwindow
  have hbefore := hwindow.before_bounded
  have hafter := hwindow.after_bounded
  obtain ⟨rfl, hlast, hfirst⟩ := hwindow.change_eq (j := i) (by omega) (by omega)
  have hlast' := hwindow.ahead (i - 2) (by omega) (by omega)
  rw [if_pos (by omega)] at hlast'
  have hsecond {l : Int} (hl : i ≤ l) (hagain : i + after ≤ l) (hl' : l < i + before) :
      z.back l = l - after := by
    unfold Zone.back
    rw [hwindow.ahead l (by omega) (by omega), if_neg (by omega),
      hwindow.ahead _ (by omega) (by omega), if_neg (by omega)]
  unfold Zone.wall
  rw [minuteOf_named, minuteOf_named, hsecond (by omega) (by omega) (by omega),
    hsecond (by omega) (by omega) (by omega)]
  omega

theorem lastDayLost_inconsistent (h : tz.zone.Daylight) (hlost : LastDayLost tz) :
    ∃ expr parsed, parseCron expr = .ok parsed ∧ ∃ start start' : ℚ, start ≤ start' ∧
      tickOf parsed start tz ≠ -1 ∧ start' < tickOf parsed start tz ∧
      tickOf parsed start' tz ≠ tickOf parsed start tz := by
  obtain ⟨i, hback, hday, hpasses, expr, parsed, hparsed, ⟨j, hmatch, hj⟩, hrest⟩ := hlost
  have hmax : maxDays = 1466 := rfl
  have hfirst : firstMinute ((60000 * (i - 2) : Int) : ℚ) = i - 1 := by
    rw [firstMinute_minute]
    omega
  have hshow : tz.zone.wall (tz.minuteOf (tz.zone.wall j)) = tz.zone.wall j := wall_minuteOf h rfl
  have hnear := h.wall_near (i - 1)
  have hnearj := h.wall_near (tz.minuteOf (tz.zone.wall j))
  have hfound := @found_le parsed tz h ((60000 * (i - 2) : Int) : ℚ) (tz.zone.wall j) 1465
  rw [hfirst] at hfound
  obtain ⟨l, -, hw, ⟨hmatchl, -, hshowl⟩, htick⟩ := hfound ⟨hmatch, by omega, hshow⟩ (by omega) hj
    (by omega) fun d hd hlt => hpasses d hd (by omega)
  have hl := hrest (tz.minuteOf l) (hshowl.symm ▸ hmatchl) (by omega)
  have hnearl := h.wall_near (tz.minuteOf l)
  rw [hshowl] at hl hnearl
  refine ⟨expr, parsed, hparsed, ((60000 * (i - 2) : Int) : ℚ), ((60000 * (i - 1) : Int) : ℚ),
    by exact_mod_cast (by omega), by omega, ?_, fun heq => ?_⟩
  · rw [htick]
    exact_mod_cast (by omega)
  -- the days of the search from the change end before the day of `l`
  have hne : tickOf parsed ((60000 * (i - 1) : Int) : ℚ) tz ≠ -1 := by omega
  obtain ⟨l', m, hat⟩ := exists_foundAt h hne
  have hsame : l' = l := by
    have hminute : tz.minuteOf l' = tz.minuteOf l := by
      have htick' := hat.tick
      omega
    rw [← hat.found.2.2, hminute, hshowl]
  have hlday := hat.day
  have hm := hat.max
  rw [firstMinute_minute, show i - 1 + 1 = i by omega] at hlday
  omega

/-- For every zone that puts its clock forward and back: what is found does not depend on the time
from which it is asked for, if and only if what is shown twice is resolved to its first occurrence
and no expression loses the last day of a search. -/
theorem daylight_consistent_iff (tz : Timezone) (h : tz.zone.Daylight) :
    (∀ (platform : Platform) (expr : JsString) (opts : CronOptions) (parsed : ParsedCron)
      (start start' : ℚ) (tick : Int), parseCron expr = .ok parsed →
      timezoneOf platform opts = .ok tz → start ≤ start' →
      nextCronTick platform expr start opts = .ok tick → tick ≠ -1 → start' < tick →
      nextCronTick platform expr start' opts = .ok tick) ↔
    FirstOccurrence tz ∧ ¬ LastDayLost tz := by
  constructor
  · intro hall
    obtain ⟨platform, opts, htz⟩ := exists_platform tz
    have hsame {expr : JsString} {parsed : ParsedCron} (hparsed : parseCron expr = .ok parsed)
        (start start' : ℚ) (hle : start ≤ start') (hne : tickOf parsed start tz ≠ -1)
        (hlt : start' < tickOf parsed start tz) :
        tickOf parsed start' tz = tickOf parsed start tz := by
      have hnext := hall platform expr opts parsed start start' _ hparsed htz hle
        (nextCronTick_eq hparsed htz start) hne hlt
      rw [nextCronTick_eq hparsed htz start'] at hnext
      exact Except.ok.inj hnext
    have hfirst : FirstOccurrence tz := by
      intro hnamed i hback
      by_contra hahead
      obtain ⟨parsed, hparsed, hmatch⟩ := exists_everyMinute
      obtain ⟨hsecond, hsecond'⟩ := minuteOf_backward hnamed h hback (not_le.mp hahead)
      have htick := tick_everyMinute hmatch h (i := i - 2) (by omega)
      have htick' := tick_everyMinute hmatch h (i := i - 1) (by omega)
      have heq := hsame hparsed ((60000 * (i - 2 - 1) : Int) : ℚ)
        ((60000 * (i - 1 - 1) : Int) : ℚ) (by exact_mod_cast (by omega)) (by omega)
        (by rw [htick, hsecond]; exact_mod_cast (by omega))
      rw [htick, htick', hsecond, hsecond'] at heq
      omega
    refine ⟨hfirst, fun hlost => ?_⟩
    obtain ⟨expr, parsed, hparsed, start, start', hle, hne, hlt, hdiffer⟩ :=
      lastDayLost_inconsistent h hlost
    exact hdiffer (hsame hparsed start start' hle hne hlt)
  · rintro ⟨hfirst, hlast⟩ platform expr opts parsed start start' tick hparsed htz hle hnext hne hlt
    rw [nextCronTick_eq hparsed htz] at hnext ⊢
    cases hnext
    rw [tick_eq_of_le h hfirst hlast hparsed hle hne hlt]

/-- On 2025-10-26 the clock went from three back to two o'clock. -/
def berlin : Zone where
  offset t := if t < 1761440400000 then 120 else 60

theorem daylight_berlin : berlin.Daylight :=
  daylight_of_change (by omega) (by omega) (by omega)

theorem daylight_consistent_berlin :
    ¬ ∀ (platform : Platform) (expr : JsString) (opts : CronOptions) (parsed : ParsedCron)
      (start start' : ℚ) (tick : Int), parseCron expr = .ok parsed →
      timezoneOf platform opts = .ok (.named berlin) → start ≤ start' →
      nextCronTick platform expr start opts = .ok tick → tick ≠ -1 → start' < tick →
      nextCronTick platform expr start' opts = .ok tick := by
  intro hall
  have hfirst := ((daylight_consistent_iff (.named berlin) daylight_berlin).mp hall).1
  exact absurd (hfirst ⟨berlin, rfl⟩ 29357340 (by decide : berlin.ahead _ = berlin.ahead _ - 60))
    (by decide)

def berlinPlatform : Platform where
  host := .fixed 0
  intl name := if name = lit "UTC" then some (.fixed 0)
    else if name = lit "Europe/Berlin" then some berlin else none
  utc := if_pos rfl

/-- At midnight UTC the next half past two is the one after the change. At the first quarter to
three it is that of the next day, although the one found before is still to come. -/
theorem second_half_past_two_lost :
    nextCronTick berlinPlatform (lit "30 2 * * *") 1761436800000
      { timezone := some (lit "Europe/Berlin") } = .ok 1761442200000 ∧
    nextCronTick berlinPlatform (lit "30 2 * * *") 1761439500000
      { timezone := some (lit "Europe/Berlin") } = .ok 1761528600000 := by
  decide +kernel

end Consistent

end NevoMessaging
