import Mathlib.Data.List.Sort
import NevoMessaging.Cron.Expression
import NevoMessaging.Lib.Calendar
import NevoMessaging.Lib.Zone

/-!
# nextCronTick

The search for the next tick goes from day to day. On a day that matches, it goes through the hours
and the minutes of the expression and takes the first one whose instant is not too early and whose
wall clock shows that hour and that minute again.

`Intl` and `Date` are the platform: the zone of the host, the zones that `Intl` knows by name, and
the calendar. Instants are in milliseconds, and all dates are in the range of `Date`.

Results:
1. `dayTick_spec`: what is taken on a day.
2. `dayLoop_spec`: on which day the search ends.
3. `tick_on_schedule`: what is returned is later than `start`, and it is on schedule.
4. `tick_exact`: in a zone with a fixed offset it is the next instant that is on schedule.
-/

namespace NevoMessaging

open List

open JsString JsDate

structure ZonedParts where
  year : Int
  month : Nat
  day : Nat
  hour : Nat
  minute : Nat

structure WallClock extends ZonedParts where
  weekday : Nat

/-- The fields of a minute that a wall clock shows. -/
def partsAt (l : Int) : ZonedParts :=
  let (year, month, day) := civil (l / 1440)
  { year, month, day, hour := (l % 1440 / 60).toNat, minute := (l % 60).toNat }

def zonedParts (epochMs : Int) (zone : Zone) : ZonedParts :=
  partsAt (epochMs / 60000 + zone.offset epochMs)

def dateUTC (year : Int) (month day : Nat) (hour minute : Int) : Int :=
  (daysOf year month day * 1440 + hour * 60 + minute) * 60000

def wallClock (epochMs : Int) (tz : Timezone) : WallClock :=
  match tz with
  | .host zone =>
    { zonedParts epochMs zone.toZone with
      weekday := weekday ((epochMs / 60000 + zone.offset epochMs) / 1440) }
  | .named zone =>
    let p := zonedParts epochMs zone
    { p with weekday := weekday (dateUTC p.year p.month p.day 0 0 / 86400000) }

def tzOffsetMs (epochMs : Int) (zone : Zone) : Int :=
  let p := zonedParts epochMs zone
  let asUTC := dateUTC p.year p.month p.day p.hour p.minute
  asUTC - epochMs / 60000 * 60000

/-- A `Date` has no use for the fraction of an hour or a minute. -/
def truncate (q : ℚ) : Int := q.num.tdiv q.den

def toEpoch (year : Int) (month day : Nat) (hour minute : ℚ) (tz : Timezone) : Int :=
  let asUTC := dateUTC year month day (truncate hour) (truncate minute)
  match tz with
  | .host zone => zone.epoch asUTC
  | .named zone =>
    let offset1 := tzOffsetMs asUTC zone
    let epoch := asUTC - offset1
    let offset2 := tzOffsetMs epoch zone
    if offset2 ≠ offset1 then asUTC - offset2 else epoch

def dayMatches (parsed : ParsedCron) (wc : WallClock) : Bool :=
  if (wc.month : ℚ) ∉ parsed.month.values then false
  else
    let domRestricted := !parsed.day.wildcard
    let dowRestricted := !parsed.weekday.wildcard
    let domHit := decide ((wc.day : ℚ) ∈ parsed.day.values)
    let dowHit := decide ((wc.weekday : ℚ) ∈ parsed.weekday.values)
    if domRestricted && dowRestricted then domHit || dowHit
    else if domRestricted then domHit
    else if dowRestricted then dowHit
    else true

/-- The beginning of the day after `wc`. -/
def nextDayStart (wc : WallClock) (tz : Timezone) : WallClock :=
  let (year, month, day) := civil (daysOf wc.year wc.month wc.day + 1)
  wallClock (toEpoch year month day 0 0 tz) tz

/-- The numbers of a field in their order. -/
def sortedValues (field : CronField) : List ℚ := field.values.insertionSort (· ≤ ·)

/-- One turn of the inner loop. -/
def candidateTick (tz : Timezone) (fromMinute : Int) (wc : WallClock) (lowerHour lowerMinute : Nat)
    (h m : ℚ) : Option Int :=
  if h = lowerHour ∧ m < lowerMinute then none
  else
    let candidate := toEpoch wc.year wc.month wc.day h m tz
    if candidate < fromMinute then none
    else
      let back := wallClock candidate tz
      if (back.hour : ℚ) ≠ h ∨ (back.minute : ℚ) ≠ m then none
      else some candidate

/-- The hours and the minutes of one day. -/
def dayTick (parsed : ParsedCron) (tz : Timezone) (fromMinute : Int) (wc : WallClock)
    (lowerHour lowerMinute : Nat) : Option Int :=
  (sortedValues parsed.hour).findSome? fun h : ℚ =>
    if h < lowerHour then none
    else (sortedValues parsed.minute).findSome?
      (candidateTick tz fromMinute wc lowerHour lowerMinute h)

def dayLoop (parsed : ParsedCron) (tz : Timezone) (fromMinute : Int) :
    (days : Nat) → WallClock → (lowerHour lowerMinute : Nat) → Option Int
  | 0, _, _, _ => none
  | days + 1, wc, lowerHour, lowerMinute =>
    let found := if dayMatches parsed wc then dayTick parsed tz fromMinute wc lowerHour lowerMinute
      else none
    match found with
    | some candidate => some candidate
    | none => dayLoop parsed tz fromMinute days (nextDayStart wc tz) 0 0

def maxDays : Nat := 366 * 4 + 2

/-- The first minute after `start`. -/
def fromMinuteOf (start : ℚ) : Int := ⌊start / 60000⌋ * 60000 + 60000

/-- The search, after the expression is parsed and the zone is found. -/
def tickOf (parsed : ParsedCron) (start : ℚ) (tz : Timezone) : Int :=
  let fromMinute := fromMinuteOf start
  let wc := wallClock fromMinute tz
  (dayLoop parsed tz fromMinute maxDays wc wc.hour wc.minute).getD (-1)

/-- `intl` has the zones that `Intl` knows. -/
structure Platform where
  host : HostZone
  intl : JsString → Option Zone
  utc : intl (lit "UTC") = some (.fixed 0)

structure CronOptions where
  timezone : Option JsString := none
  utc : Bool := false

def invalidTimezone (tz : JsString) : JsString := lit "Invalid time zone specified: " ++ tz

def timezoneOf (platform : Platform) (opts : CronOptions) : Except JsString Timezone :=
  match JsString.truthy (if opts.utc then some (lit "UTC") else opts.timezone) with
  | none => .ok (.host platform.host)
  | some tz =>
    match platform.intl tz with
    | some zone => .ok (.named zone)
    | none => .error (invalidTimezone tz)

def nextCronTick (platform : Platform) (expr : JsString) (start : ℚ) (opts : CronOptions) :
    Except JsString Int := do
  let parsed ← parseCron expr
  let tz ← timezoneOf platform opts
  return tickOf parsed start tz

/-! ## The clock -/

section Clock

variable (tz : Timezone)

/-- The minute that the wall clock shows at an instant. -/
def clockAt (t : Int) : Int := t / 60000 + tz.zone.offset t

/-- All fields of a minute that a wall clock shows. -/
def clockFields (l : Int) : WallClock := { partsAt l with weekday := weekday (l / 1440) }

theorem daysOf_partsAt (l : Int) :
    daysOf (partsAt l).year (partsAt l).month (partsAt l).day = l / 1440 :=
  daysOf_civil (l / 1440)

theorem daysOf_clockFields (l : Int) :
    daysOf (clockFields l).year (clockFields l).month (clockFields l).day = l / 1440 :=
  daysOf_partsAt l

theorem hour_partsAt (l : Int) : ((partsAt l).hour : Int) = l % 1440 / 60 := by
  show (((l % 1440 / 60).toNat : Nat) : Int) = _
  omega

theorem minute_partsAt (l : Int) : ((partsAt l).minute : Int) = l % 60 := by
  show (((l % 60).toNat : Nat) : Int) = _
  omega

theorem dateUTC_partsAt (l : Int) :
    dateUTC (partsAt l).year (partsAt l).month (partsAt l).day (partsAt l).hour (partsAt l).minute =
      60000 * l := by
  rw [dateUTC, daysOf_partsAt, hour_partsAt, minute_partsAt]
  omega

theorem wallClock_eq (t : Int) : wallClock t tz = clockFields (clockAt tz t) := by
  cases tz with
  | host zone => rfl
  | named zone =>
    have hday := daysOf_partsAt (clockAt (.named zone) t)
    have hweekday : dateUTC (partsAt (clockAt (.named zone) t)).year
        (partsAt (clockAt (.named zone) t)).month (partsAt (clockAt (.named zone) t)).day 0 0 /
          86400000 = clockAt (.named zone) t / 1440 := by
      rw [dateUTC, hday]
      omega
    show ({ partsAt (clockAt (.named zone) t) with weekday := weekday (_ / 86400000) } :
      WallClock) = _
    rw [clockFields, ← hweekday]
    rfl

theorem tzOffsetMs_eq (t : Int) (zone : Zone) : tzOffsetMs t zone = 60000 * zone.offset t := by
  unfold tzOffsetMs zonedParts
  dsimp only
  rw [dateUTC_partsAt]
  omega

theorem toEpoch_eq (year : Int) (month day : Nat) (hour minute : ℚ) :
    toEpoch year month day hour minute tz =
      tz.resolve (dateUTC year month day (truncate hour) (truncate minute)) := by
  cases tz with
  | host zone => rfl
  | named zone =>
    unfold toEpoch
    simp only [tzOffsetMs_eq]
    show _ = zone.twoPass _
    unfold Zone.twoPass
    split
    · rfl
    next hsame => rw [not_not.mp hsame]

theorem truncate_natCast (n : Nat) : truncate n = n := by
  rw [truncate, Rat.num_natCast, Rat.den_natCast, Nat.cast_one, Int.tdiv_one]

theorem nextDayStart_eq (l : Int) :
    nextDayStart (clockFields l) tz =
      clockFields (clockAt tz (tz.resolve (60000 * (1440 * (l / 1440 + 1))))) := by
  unfold nextDayStart
  rw [daysOf_clockFields]
  dsimp only
  rw [wallClock_eq, toEpoch_eq, dateUTC, daysOf_civil]
  congr 3
  rw [show truncate 0 = 0 from rfl]
  omega

end Clock

/-! ## One day -/

theorem findSome?_sorted {α β : Type} [LinearOrder α] {l : List α} (hsorted : l.Pairwise (· ≤ ·))
    {f : α → Option β} {b : β} (h : l.findSome? f = some b) :
    ∃ a ∈ l, f a = some b ∧ ∀ x ∈ l, x < a → f x = none := by
  induction l with
  | nil => cases h
  | cons a l ih =>
    obtain ⟨hle, htail⟩ := pairwise_cons.mp hsorted
    rw [findSome?_cons] at h
    split at h
    next c hc =>
      cases h
      refine ⟨a, mem_cons_self, hc, fun x hx hlt => ?_⟩
      rcases mem_cons.mp hx with rfl | hx
      · exact absurd hlt (lt_irrefl x)
      · exact absurd hlt (not_lt.mpr (hle x hx))
    next hnone =>
      obtain ⟨a', ha', hb, hbefore⟩ := ih htail h
      refine ⟨a', mem_cons_of_mem a ha', hb, fun x hx hlt => ?_⟩
      rcases mem_cons.mp hx with rfl | hx
      · exact hnone
      · exact hbefore x hx hlt

section Day

variable (parsed : ParsedCron) (tz : Timezone) (fromMinute lower l : Int)

/-- The hour and the minute are those of the expression. -/
def timeMatches : Prop :=
  ((partsAt l).hour : ℚ) ∈ parsed.hour.values ∧ ((partsAt l).minute : ℚ) ∈ parsed.minute.values

/-- The minute `l` of the wall clock is taken on its day: its time matches and is not below `lower`,
and its instant is not too early and shows the same time of the day. -/
def Taken : Prop :=
  timeMatches parsed l ∧ lower ≤ l % 1440 ∧ fromMinute ≤ tz.resolve (60000 * l) ∧
    clockAt tz (tz.resolve (60000 * l)) % 1440 = l % 1440

variable {parsed tz fromMinute lower l}

theorem mem_sortedValues {field : CronField} {v : ℚ} :
    v ∈ sortedValues field ↔ v ∈ field.values := mem_insertionSort _

theorem pairwise_sortedValues (field : CronField) : (sortedValues field).Pairwise (· ≤ ·) :=
  pairwise_insertionSort _ _

variable {wc : WallClock} {day : Int} (hday : daysOf wc.year wc.month wc.day = day)
  {lowerHour lowerMinute : Nat} (hminute : lowerMinute < 60)
include hday

theorem toEpoch_minute (hour minute : Nat) :
    toEpoch wc.year wc.month wc.day hour minute tz =
      tz.resolve (60000 * (1440 * day + (hour * 60 + minute))) := by
  rw [toEpoch_eq, truncate_natCast, truncate_natCast, dateUTC, hday]
  congr 1
  omega

omit hday in
theorem clock_eq_iff (l : Int) {hour minute : Nat} (hm : minute < 60) :
    ((partsAt l).hour = hour ∧ (partsAt l).minute = minute) ↔ l % 1440 = hour * 60 + minute := by
  have hhour := hour_partsAt l
  have hminute := minute_partsAt l
  omega

include hminute

theorem candidateTick_iff {hour minute : Nat} (hm : minute < 60) (t : Int) :
    (¬ (hour : ℚ) < lowerHour ∧
        candidateTick tz fromMinute wc lowerHour lowerMinute hour minute = some t) ↔
      ((lowerHour * 60 + lowerMinute : Nat) : Int) ≤ hour * 60 + minute ∧
      fromMinute ≤ tz.resolve (60000 * (1440 * day + (hour * 60 + minute))) ∧
      clockAt tz (tz.resolve (60000 * (1440 * day + (hour * 60 + minute)))) % 1440 =
        hour * 60 + minute ∧
      t = tz.resolve (60000 * (1440 * day + (hour * 60 + minute))) := by
  unfold candidateTick
  dsimp only
  rw [toEpoch_minute hday, wallClock_eq]
  generalize tz.resolve (60000 * (1440 * day + (hour * 60 + minute))) = candidate
  rw [← clock_eq_iff (clockAt tz candidate) hm]
  have hfields : (clockFields (clockAt tz candidate)).toZonedParts = partsAt
    (clockAt tz candidate) := rfl
  rw [hfields]
  simp only [Nat.cast_inj, Nat.cast_lt, ne_eq]
  constructor
  · rintro ⟨hhour, h⟩
    split at h
    · cases h
    next hlow =>
      split at h
      · cases h
      next hearly =>
        split at h
        · cases h
        next hback =>
          cases h
          rw [not_or, not_not, not_not] at hback
          exact ⟨by omega, not_lt.mp hearly, hback, rfl⟩
  · rintro ⟨hlow, hearly, hback, rfl⟩
    refine ⟨by omega, ?_⟩
    rw [if_neg (by omega), if_neg (not_lt.mpr hearly), if_neg]
    rw [not_or, not_not, not_not]
    exact hback

omit hday hminute in
theorem exists_nat_of_candidateTick {h m : ℚ} {t : Int}
    (hsome : candidateTick tz fromMinute wc lowerHour lowerMinute h m = some t) :
    ∃ hour minute : Nat, h = hour ∧ m = minute ∧ hour < 24 ∧ minute < 60 := by
  unfold candidateTick at hsome
  dsimp only at hsome
  split at hsome
  · cases hsome
  · split at hsome
    · cases hsome
    · split at hsome
      · cases hsome
      next hback =>
        rw [not_or, not_not, not_not, wallClock_eq] at hback
        have hhour := hour_partsAt (clockAt tz (toEpoch wc.year wc.month wc.day h m tz))
        have hminute := minute_partsAt (clockAt tz (toEpoch wc.year wc.month wc.day h m tz))
        exact ⟨_, _, hback.1.symm, hback.2.symm, by
          show (partsAt _).hour < 24
          omega, by
          show (partsAt _).minute < 60
          omega⟩

theorem turn_iff (hl : l / 1440 = day) (t : Int) :
    (¬ ((partsAt l).hour : ℚ) < lowerHour ∧ candidateTick tz fromMinute wc lowerHour lowerMinute
        (partsAt l).hour (partsAt l).minute = some t) ↔
      ((lowerHour * 60 + lowerMinute : Nat) : Int) ≤ l % 1440 ∧
      fromMinute ≤ tz.resolve (60000 * l) ∧
      clockAt tz (tz.resolve (60000 * l)) % 1440 = l % 1440 ∧ t = tz.resolve (60000 * l) := by
  have hhour := hour_partsAt l
  have hmin := minute_partsAt l
  have hclock : ((partsAt l).hour : Int) * 60 + (partsAt l).minute = l % 1440 := by omega
  have hall : 1440 * day + l % 1440 = l := by omega
  rw [candidateTick_iff hday hminute (by omega), hclock, hall]

theorem Taken.turn (hl : l / 1440 = day)
    (h : Taken parsed tz fromMinute (lowerHour * 60 + lowerMinute : Nat) l) :
    ¬ ((partsAt l).hour : ℚ) < lowerHour ∧ candidateTick tz fromMinute wc lowerHour lowerMinute
        (partsAt l).hour (partsAt l).minute = some (tz.resolve (60000 * l)) :=
  (turn_iff hday hminute hl _).mpr ⟨h.2.1, h.2.2.1, h.2.2.2, rfl⟩

theorem not_taken_of_dayTick
    (hnone : dayTick parsed tz fromMinute wc lowerHour lowerMinute = none) (hl : l / 1440 = day) :
    ¬ Taken parsed tz fromMinute (lowerHour * 60 + lowerMinute : Nat) l := by
  intro htaken
  obtain ⟨hlow, hsome⟩ := htaken.turn hday hminute hl
  have hhour := findSome?_eq_none_iff.mp hnone _ (mem_sortedValues.mpr htaken.1.1)
  rw [if_neg hlow] at hhour
  have hcandidate := findSome?_eq_none_iff.mp hhour _ (mem_sortedValues.mpr htaken.1.2)
  rw [hsome] at hcandidate
  cases hcandidate

/-- What is found is the first minute that can be taken. -/
theorem taken_of_dayTick {t : Int}
    (hsome : dayTick parsed tz fromMinute wc lowerHour lowerMinute = some t) :
    ∃ l, l / 1440 = day ∧ Taken parsed tz fromMinute (lowerHour * 60 + lowerMinute : Nat) l ∧
      t = tz.resolve (60000 * l) ∧
      ∀ l' < l, l' / 1440 = day →
        ¬ Taken parsed tz fromMinute (lowerHour * 60 + lowerMinute : Nat) l' := by
  obtain ⟨h, hmem, hfound, hearlier⟩ := findSome?_sorted (pairwise_sortedValues parsed.hour) hsome
  split at hfound
  · cases hfound
  next hlow =>
    obtain ⟨m, hmem', hfound', hearlier'⟩ :=
      findSome?_sorted (pairwise_sortedValues parsed.minute) hfound
    obtain ⟨hour, minute, rfl, rfl, hh, hm⟩ := exists_nat_of_candidateTick hfound'
    have hpartsl : (partsAt (1440 * day + (hour * 60 + minute))).hour = hour ∧
        (partsAt (1440 * day + (hour * 60 + minute))).minute = minute :=
      (clock_eq_iff _ hm).mpr (by omega)
    have hl : (1440 * day + ((hour : Int) * 60 + minute)) / 1440 = day := by omega
    refine ⟨1440 * day + (hour * 60 + minute), hl, ?_⟩
    have hturn := @turn_iff tz fromMinute _ wc day hday lowerHour lowerMinute hminute hl t
    rw [hpartsl.1, hpartsl.2] at hturn
    obtain ⟨hlower, hearly, hback, rfl⟩ := hturn.mp ⟨hlow, hfound'⟩
    refine ⟨⟨?_, hlower, hearly, hback⟩, rfl, fun l' hlt hl' htaken => ?_⟩
    · rw [timeMatches, hpartsl.1, hpartsl.2]
      exact ⟨mem_sortedValues.mp hmem, mem_sortedValues.mp hmem'⟩
    · obtain ⟨hlow', hsome'⟩ := htaken.turn hday hminute hl'
      have hhour' := hour_partsAt l'
      have hminute' := minute_partsAt l'
      rcases Nat.lt_or_ge (partsAt l').hour hour with hbefore | hafter
      · -- an earlier hour had nothing
        have hnone := hearlier _ (mem_sortedValues.mpr htaken.1.1) (Nat.cast_lt.mpr hbefore)
        rw [if_neg hlow'] at hnone
        have hcandidate := findSome?_eq_none_iff.mp hnone _ (mem_sortedValues.mpr htaken.1.2)
        rw [hsome'] at hcandidate
        cases hcandidate
      · have hsame : (partsAt l').hour = hour := by omega
        have hbefore : (partsAt l').minute < minute := by omega
        have hnone := hearlier' _ (mem_sortedValues.mpr htaken.1.2) (Nat.cast_lt.mpr hbefore)
        rw [hsame] at hsome'
        rw [hsome'] at hnone
        cases hnone

end Day

/-! ## Day after day -/

section Days

variable (parsed : ParsedCron) (tz : Timezone) (fromMinute lower : Int)

def dayOn (day : Int) : Bool := dayMatches parsed (clockFields (1440 * day))

/-- The minute `l` of the wall clock is returned if the search comes to its day and has not
ended. -/
def Ready (l : Int) : Prop := dayOn parsed (l / 1440) ∧ Taken parsed tz fromMinute lower l

/-- The day that the search goes to from a day. -/
def dayAfter (day : Int) : Int := clockAt tz (tz.resolve (60000 * (1440 * (day + 1)))) / 1440

variable {parsed tz fromMinute lower}

theorem dayMatches_clockFields (l : Int) :
    dayMatches parsed (clockFields l) = dayOn parsed (l / 1440) := by
  have hday : 1440 * (l / 1440) / 1440 = l / 1440 := by omega
  unfold dayOn dayMatches clockFields partsAt
  rw [hday]

/-- The lower bound is for the first day only. -/
def lowerAt (lower : Int) : Nat → Int
  | 0 => lower
  | _ + 1 => 0

/-- Where the search ends, and that it had nothing to return before. -/
structure Ends (parsed : ParsedCron) (tz : Timezone) (fromMinute lower day : Int) (k : Nat)
    (l : Int) :
    Prop where
  onDay : l / 1440 = (dayAfter tz)^[k] day
  ready : Ready parsed tz fromMinute (lowerAt lower k) l
  first : ∀ l' < l, l' / 1440 = l / 1440 → ¬ Ready parsed tz fromMinute (lowerAt lower k) l'
  before : ∀ j < k, ∀ l', l' / 1440 = (dayAfter tz)^[j] day →
    ¬ Ready parsed tz fromMinute (lowerAt lower j) l'

/-- What the search has on one day. -/
def foundOn (parsed : ParsedCron) (tz : Timezone) (fromMinute l : Int)
    (lowerHour lowerMinute : Nat) :
    Option Int :=
  if dayMatches parsed (clockFields l) then
    dayTick parsed tz fromMinute (clockFields l) lowerHour lowerMinute
  else none

section FoundOn

variable {l : Int} {lowerHour lowerMinute : Nat} (hminute : lowerMinute < 60)
include hminute

theorem not_ready_of_foundOn
    (hnone : foundOn parsed tz fromMinute l lowerHour lowerMinute = none) {l' : Int}
    (hl' : l' / 1440 = l / 1440) :
    ¬ Ready parsed tz fromMinute (lowerHour * 60 + lowerMinute : Nat) l' := by
  rintro ⟨hon, htaken⟩
  unfold foundOn at hnone
  rw [dayMatches_clockFields, ← hl', if_pos hon] at hnone
  exact not_taken_of_dayTick (daysOf_clockFields l) hminute hnone hl' htaken

theorem ends_of_foundOn {t : Int}
    (hsome : foundOn parsed tz fromMinute l lowerHour lowerMinute = some t) :
    ∃ l', t = tz.resolve (60000 * l') ∧
      Ends parsed tz fromMinute (lowerHour * 60 + lowerMinute : Nat) (l / 1440) 0 l' := by
  unfold foundOn at hsome
  rw [dayMatches_clockFields] at hsome
  split at hsome
  next hon =>
    obtain ⟨l', hl', htaken, ht, hfirst⟩ := taken_of_dayTick (daysOf_clockFields l) hminute hsome
    refine ⟨l', ht, hl', ⟨hl' ▸ hon, htaken⟩, fun l'' hlt hl'' hready => ?_, fun j hj => ?_⟩
    · exact hfirst l'' hlt (hl''.trans hl') hready.2
    · exact absurd hj (Nat.not_lt_zero j)
  · cases hsome

end FoundOn

theorem dayLoop_succ (days : Nat) (l : Int) (lowerHour lowerMinute : Nat) :
    dayLoop parsed tz fromMinute (days + 1) (clockFields l) lowerHour lowerMinute =
      match foundOn parsed tz fromMinute l lowerHour lowerMinute with
      | some t => some t
      | none => dayLoop parsed tz fromMinute days
          (clockFields (clockAt tz (tz.resolve (60000 * (1440 * (l / 1440 + 1)))))) 0 0 := by
  rw [dayLoop, nextDayStart_eq]
  rfl

theorem not_ready_of_dayLoop {days : Nat} {l : Int} {lowerHour lowerMinute : Nat}
    (hminute : lowerMinute < 60)
    (hnone : dayLoop parsed tz fromMinute days (clockFields l) lowerHour lowerMinute = none) :
    ∀ k < days, ∀ l', l' / 1440 = (dayAfter tz)^[k] (l / 1440) →
      ¬ Ready parsed tz fromMinute (lowerAt (lowerHour * 60 + lowerMinute : Nat) k) l' := by
  induction days generalizing l lowerHour lowerMinute with
  | zero => exact fun k hk => absurd hk (Nat.not_lt_zero k)
  | succ days ih =>
    rw [dayLoop_succ] at hnone
    split at hnone
    · cases hnone
    next hfound =>
      intro k hk l' hl'
      cases k with
      | zero => exact not_ready_of_foundOn hminute hfound hl'
      | succ k =>
        have hrest := ih (by decide) hnone k (Nat.lt_of_succ_lt_succ hk) l' hl'
        cases k <;> exact hrest

theorem ends_of_dayLoop {days : Nat} {l : Int} {lowerHour lowerMinute : Nat} {t : Int}
    (hminute : lowerMinute < 60)
    (hsome : dayLoop parsed tz fromMinute days (clockFields l) lowerHour lowerMinute = some t) :
    ∃ k < days, ∃ l', t = tz.resolve (60000 * l') ∧
      Ends parsed tz fromMinute (lowerHour * 60 + lowerMinute : Nat) (l / 1440) k l' := by
  induction days generalizing l lowerHour lowerMinute with
  | zero => cases hsome
  | succ days ih =>
    rw [dayLoop_succ] at hsome
    split at hsome
    next t' hfound =>
      cases hsome
      obtain ⟨l', hl', hends⟩ := ends_of_foundOn hminute hfound
      exact ⟨0, Nat.succ_pos days, l', hl', hends⟩
    next hfound =>
      obtain ⟨k, hk, l', hl', hends⟩ := ih (by decide) hsome
      obtain ⟨honDay, hready, hfirst, hbefore⟩ := hends
      have hlower (j : Nat) : lowerAt ((0 * 60 + 0 : Nat) : Int) j = 0 := by cases j <;> rfl
      simp only [hlower] at hready hfirst hbefore
      refine ⟨k + 1, Nat.succ_lt_succ hk, l', hl', honDay, hready, hfirst, fun j hj l'' hl'' => ?_⟩
      cases j with
      | zero => exact not_ready_of_foundOn hminute hfound hl''
      | succ j => exact hbefore j (Nat.lt_of_succ_lt_succ hj) l'' hl''

theorem tickOf_spec (parsed : ParsedCron) (tz : Timezone) (start : ℚ) :
    (∃ k < maxDays, ∃ l, tickOf parsed start tz = tz.resolve (60000 * l) ∧
      Ends parsed tz (fromMinuteOf start) (clockAt tz (fromMinuteOf start) % 1440)
        (clockAt tz (fromMinuteOf start) / 1440) k l) ∨
    tickOf parsed start tz = -1 ∧ ∀ k < maxDays, ∀ l,
      l / 1440 = (dayAfter tz)^[k] (clockAt tz (fromMinuteOf start) / 1440) →
      ¬ Ready parsed tz (fromMinuteOf start)
        (lowerAt (clockAt tz (fromMinuteOf start) % 1440) k) l := by
  unfold tickOf
  dsimp only
  rw [wallClock_eq]
  generalize clockAt tz (fromMinuteOf start) = l₀
  have hhour := hour_partsAt l₀
  have hmin := minute_partsAt l₀
  have hminute : (partsAt l₀).minute < 60 := by omega
  have hlower : (((partsAt l₀).hour * 60 + (partsAt l₀).minute : Nat) : Int) = l₀ % 1440 := by omega
  show (∃ k < maxDays, ∃ l, (dayLoop parsed tz _ maxDays (clockFields l₀) (partsAt l₀).hour
      (partsAt l₀).minute).getD (-1) = _ ∧ _) ∨ (dayLoop parsed tz _ maxDays (clockFields l₀)
      (partsAt l₀).hour (partsAt l₀).minute).getD (-1) = -1 ∧ _
  cases hloop : dayLoop parsed tz (fromMinuteOf start) maxDays (clockFields l₀) (partsAt l₀).hour
      (partsAt l₀).minute with
  | none => exact .inr ⟨rfl, hlower ▸ not_ready_of_dayLoop hminute hloop⟩
  | some t =>
    obtain ⟨k, hk, l, ht, hends⟩ := ends_of_dayLoop hminute hloop
    exact .inl ⟨k, hk, l, ht, hlower ▸ hends⟩

end Days

/-! ## On schedule -/

section Schedule

variable {parsed : ParsedCron} {tz : Timezone}

/-- A full minute whose wall clock matches the expression. -/
def OnSchedule (parsed : ParsedCron) (tz : Timezone) (t : Int) : Prop :=
  t % 60000 = 0 ∧ dayMatches parsed (wallClock t tz) ∧
    ((wallClock t tz).hour : ℚ) ∈ parsed.hour.values ∧
    ((wallClock t tz).minute : ℚ) ∈ parsed.minute.values

theorem onSchedule_iff {t : Int} :
    OnSchedule parsed tz t ↔ t % 60000 = 0 ∧ dayOn parsed (clockAt tz t / 1440) ∧
      timeMatches parsed (clockAt tz t) := by
  unfold OnSchedule
  rw [wallClock_eq, dayMatches_clockFields]
  rfl

theorem lt_fromMinuteOf (start : ℚ) : start < fromMinuteOf start := by
  have hfloor := Int.lt_floor_add_one (start / 60000)
  have hmul : start < (⌊start / 60000⌋ + 1) * 60000 := (div_lt_iff₀ (by norm_num)).mp hfloor
  unfold fromMinuteOf
  push_cast
  linarith

theorem fromMinuteOf_le {start : ℚ} {t : Int} (hfull : t % 60000 = 0) (hlt : start < t) :
    fromMinuteOf start ≤ t := by
  obtain ⟨i, rfl⟩ := Int.dvd_of_emod_eq_zero hfull
  have hdiv : start / 60000 < i := by
    rw [div_lt_iff₀ (by norm_num)]
    push_cast at hlt
    linarith
  have hfloor : ⌊start / 60000⌋ < i := Int.floor_lt.mpr hdiv
  unfold fromMinuteOf
  omega

theorem clockAt_resolve (hspread : ∀ s t, tz.zone.offset s - tz.zone.offset t < 1440) {l : Int}
    (hback : clockAt tz (tz.resolve (60000 * l)) % 1440 = l % 1440) :
    clockAt tz (tz.resolve (60000 * l)) = l := by
  obtain ⟨s, hs⟩ := tz.resolve_offset (60000 * l)
  have hlow := hspread s (tz.resolve (60000 * l))
  have hhigh := hspread (tz.resolve (60000 * l)) s
  unfold clockAt at *
  omega

theorem nextCronTick_eq {platform : Platform} {expr : JsString} {opts : CronOptions}
    (hparse : parseCron expr = .ok parsed) (htz : timezoneOf platform opts = .ok tz) (start : ℚ) :
    nextCronTick platform expr start opts = .ok (tickOf parsed start tz) := by
  unfold nextCronTick
  rw [hparse, htz]
  rfl

theorem Ready.onSchedule (hspread : ∀ s t, tz.zone.offset s - tz.zone.offset t < 1440)
    {fromMinute lower l : Int} (h : Ready parsed tz fromMinute lower l) :
    OnSchedule parsed tz (tz.resolve (60000 * l)) := by
  obtain ⟨hday, htime, -, -, hback⟩ := h
  have hfull := tz.resolve_minutes l
  rw [onSchedule_iff, clockAt_resolve hspread hback]
  exact ⟨by omega, hday, htime⟩

theorem lt_tickOf {start : ℚ} (hne : tickOf parsed start tz ≠ -1) :
    start < tickOf parsed start tz := by
  rcases tickOf_spec parsed tz start with ⟨k, -, l, ht, hends⟩ | ⟨hnone, -⟩
  · rw [ht]
    exact lt_of_lt_of_le (lt_fromMinuteOf start) (Int.cast_le.mpr hends.ready.2.2.2.1)
  · exact absurd hnone hne

theorem tickOf_onSchedule (hspread : ∀ s t, tz.zone.offset s - tz.zone.offset t < 1440) {start : ℚ}
    (hne : tickOf parsed start tz ≠ -1) : OnSchedule parsed tz (tickOf parsed start tz) := by
  rcases tickOf_spec parsed tz start with ⟨k, -, l, ht, hends⟩ | ⟨hnone, -⟩
  · rw [ht]
    exact hends.ready.onSchedule hspread
  · exact absurd hnone hne

/-- For every zone whose offsets are less than a day apart, every valid expression and every
`start`: if a tick is returned, it is later than `start` and on schedule. -/
theorem tick_on_schedule (platform : Platform) (expr : JsString) (start : ℚ) (opts : CronOptions)
    (hparse : parseCron expr = .ok parsed) (htz : timezoneOf platform opts = .ok tz)
    (hspread : ∀ s t, tz.zone.offset s - tz.zone.offset t < 1440) :
    ∃ t : Int, nextCronTick platform expr start opts = .ok t ∧
      (t ≠ -1 → start < t ∧ OnSchedule parsed tz t) :=
  ⟨_, nextCronTick_eq hparse htz start, fun hne => ⟨lt_tickOf hne, tickOf_onSchedule hspread hne⟩⟩

/-- A platform that knows no other zone than UTC. -/
def utcPlatform : Platform where
  host := .fixed 0
  intl name := if name = lit "UTC" then some (.fixed 0) else none
  utc := if_pos rfl

theorem timezoneOf_utc (platform : Platform) :
    timezoneOf platform { utc := true } = .ok (.named (.fixed 0)) := by
  have htruthy : JsString.truthy (some (lit "UTC")) = some (lit "UTC") := by decide +kernel
  unfold timezoneOf
  rw [if_pos rfl, htruthy]
  dsimp only
  rw [platform.utc]

theorem exists_parsed (expr : JsString) (h : isValidCron expr) : ∃ parsed,
    parseCron expr = .ok parsed := by
  unfold isValidCron at h
  split at h
  next parsed hparsed => exact ⟨parsed, hparsed⟩
  · exact absurd h Bool.false_ne_true

/-- The clocks go forward an hour at the instant 0. -/
def summerZone : Zone where
  offset t := if t < 0 then 60 else 120

def summerPlatform : Platform where
  host := .fixed 0
  intl name := if name = lit "UTC" then some (.fixed 0) else some summerZone
  utc := if_pos rfl

theorem tick_on_schedule_noon : ∃ parsed, parseCron (lit "0 12 * * *") = .ok parsed ∧
    ∃ t : Int, nextCronTick summerPlatform (lit "0 12 * * *") (-60000)
        { timezone := some (lit "Summer") } = .ok t ∧
      (t ≠ -1 → (-60000 : ℚ) < t ∧ OnSchedule parsed (.named summerZone) t) := by
  obtain ⟨parsed, hparsed⟩ := exists_parsed (lit "0 12 * * *") (by decide +kernel)
  have hspread : ∀ s t, summerZone.offset s - summerZone.offset t < 1440 := by
    intro s t
    unfold summerZone
    dsimp only
    split_ifs <;> decide
  exact ⟨parsed, hparsed, tick_on_schedule summerPlatform (lit "0 12 * * *") (-60000)
    { timezone := some (lit "Summer") } hparsed rfl hspread⟩

/-! ## Zones with a fixed offset -/

section Fixed

variable {minutes : Int} (hfixed : ∀ t, tz.zone.offset t = minutes)
include hfixed

theorem resolve_fixed (l : Int) : tz.resolve (60000 * l) = 60000 * (l - minutes) := by
  rw [tz.resolve_minutes, Timezone.minuteOf_fixed hfixed]

theorem clockAt_fixed (t : Int) : clockAt tz t = t / 60000 + minutes := by
  rw [clockAt, hfixed]

theorem dayAfter_fixed (day : Int) : dayAfter tz day = day + 1 := by
  rw [dayAfter, resolve_fixed hfixed, clockAt_fixed hfixed]
  omega

theorem iterate_dayAfter_fixed (k : Nat) (day : Int) : (dayAfter tz)^[k] day = day + k := by
  induction k generalizing day with
  | zero => simp
  | succ k ih =>
    rw [Function.iterate_succ_apply, dayAfter_fixed hfixed, ih]
    omega

theorem ready_of_onSchedule {start : ℚ} {t : Int} (hlt : start < t) (h : OnSchedule parsed tz t) :
    ∃ j : Nat, clockAt tz t / 1440 = (dayAfter tz)^[j] (clockAt tz (fromMinuteOf start) / 1440) ∧
      Ready parsed tz (fromMinuteOf start) (lowerAt (clockAt tz (fromMinuteOf start) % 1440) j)
        (clockAt tz t) ∧ tz.resolve (60000 * clockAt tz t) = t := by
  obtain ⟨hfull, hday, htime⟩ := onSchedule_iff.mp h
  have hfirst := fromMinuteOf_le hfull hlt
  have hresolve : tz.resolve (60000 * clockAt tz t) = t := by
    rw [resolve_fixed hfixed, clockAt_fixed hfixed]
    omega
  have hclock := clockAt_fixed hfixed t
  have hclock' := clockAt_fixed hfixed (fromMinuteOf start)
  generalize clockAt tz t = l at *
  generalize clockAt tz (fromMinuteOf start) = l₀ at *
  have hle : l₀ ≤ l := by omega
  obtain ⟨j, hj⟩ := Int.eq_ofNat_of_zero_le (a := l / 1440 - l₀ / 1440) (by omega)
  refine ⟨j, ?_, ⟨hday, htime, ?_, ?_, ?_⟩, hresolve⟩
  · rw [iterate_dayAfter_fixed hfixed]
    omega
  · cases j with
    | zero => show l₀ % 1440 ≤ _; omega
    | succ j => show 0 ≤ _; omega
  · rw [hresolve]
    exact hfirst
  · rw [hresolve, clockAt_fixed hfixed, ← hclock]

theorem spread_fixed (s t : Int) : tz.zone.offset s - tz.zone.offset t < 1440 := by
  rw [hfixed, hfixed]
  omega

theorem tickOf_le {start : ℚ} {t : Int} (hne : tickOf parsed start tz ≠ -1) (hlt : start < t)
    (hsched : OnSchedule parsed tz t) : tickOf parsed start tz ≤ t := by
  rcases tickOf_spec parsed tz start with ⟨k, hk, l, ht, hends⟩ | ⟨hnone, -⟩
  · by_contra hbefore
    obtain ⟨j, hj, hready, hback⟩ := ready_of_onSchedule hfixed hlt hsched
    have hclock := clockAt_fixed hfixed t
    have honDay := hends.onDay
    rw [iterate_dayAfter_fixed hfixed] at hj honDay
    have hlower : clockAt tz t < l := by
      rw [ht, ← hback, resolve_fixed hfixed, resolve_fixed hfixed] at hbefore
      omega
    -- the day of the earlier instant is an earlier one, or the same
    rcases Nat.lt_trichotomy j k with hjk | rfl | hjk
    · exact hends.before j hjk _ (by rw [iterate_dayAfter_fixed hfixed, hj]) hready
    · exact hends.first _ hlower (by rw [hj, honDay]) hready
    · omega
  · exact absurd hnone hne

theorem tickOf_eq_neg_one {start : ℚ} :
    tickOf parsed start tz = -1 ↔ ∀ t : Int, start < t → OnSchedule parsed tz t →
      clockAt tz (fromMinuteOf start) / 1440 + 1466 ≤ clockAt tz t / 1440 := by
  have hmax : maxDays = 1466 := rfl
  rcases tickOf_spec parsed tz start with ⟨k, hk, l, ht, hends⟩ | ⟨ht, hnone⟩
  · have hresolve := resolve_fixed hfixed l
    have hne : tickOf parsed start tz ≠ -1 := by omega
    refine ⟨fun h => absurd h hne, fun hall => ?_⟩
    have hday := hall _ (lt_tickOf hne) (tickOf_onSchedule (spread_fixed hfixed) hne)
    have honDay := hends.onDay
    rw [ht, resolve_fixed hfixed, clockAt_fixed hfixed, clockAt_fixed hfixed] at hday
    rw [iterate_dayAfter_fixed hfixed, clockAt_fixed hfixed] at honDay
    omega
  · refine ⟨fun _ t hlt hsched => ?_, fun _ => ht⟩
    obtain ⟨j, hj, hready, -⟩ := ready_of_onSchedule hfixed hlt hsched
    by_contra hday
    have hlt : j < maxDays := by
      rw [iterate_dayAfter_fixed hfixed] at hj
      omega
    exact hnone j hlt _ hj hready

end Fixed

/-- For every zone with a fixed offset, every valid expression and every `start`: what is returned
is the least instant after `start` that is on schedule, and `-1` is returned exactly if there is
none on the first 1466 days, where the day of the first minute after `start` is the first. -/
theorem tick_exact (platform : Platform) (expr : JsString) (start : ℚ) (opts : CronOptions)
    (hparse : parseCron expr = .ok parsed) (htz : timezoneOf platform opts = .ok tz) {minutes : Int}
    (hfixed : ∀ t, tz.zone.offset t = minutes) :
    ∃ tick : Int, nextCronTick platform expr start opts = .ok tick ∧
      (tick ≠ -1 → IsLeast {t : Int | start < t ∧ OnSchedule parsed tz t} tick) ∧
      (tick = -1 ↔ ∀ t : Int, start < t → OnSchedule parsed tz t →
        clockAt tz (fromMinuteOf start) / 1440 + 1466 ≤ clockAt tz t / 1440) := by
  refine ⟨_, nextCronTick_eq hparse htz start, fun hne => ⟨⟨lt_tickOf hne, ?_⟩, ?_⟩,
    tickOf_eq_neg_one hfixed⟩
  · exact tickOf_onSchedule (spread_fixed hfixed) hne
  · rintro t ⟨hlt, hsched⟩
    exact tickOf_le hfixed hne hlt hsched

theorem tick_exact_noon : ∃ parsed, parseCron (lit "0 12 * * *") = .ok parsed ∧
    ∃ tick : Int, nextCronTick utcPlatform (lit "0 12 * * *") 0 { utc := true } = .ok tick ∧
      (tick ≠ -1 → IsLeast {t : Int | (0 : ℚ) < t ∧ OnSchedule parsed (.named (.fixed 0)) t} tick) ∧
      (tick = -1 ↔ ∀ t : Int, (0 : ℚ) < t → OnSchedule parsed (.named (.fixed 0)) t →
        clockAt (.named (.fixed 0)) (fromMinuteOf 0) / 1440 + 1466 ≤
          clockAt (.named (.fixed 0)) t / 1440) := by
  obtain ⟨parsed, hparsed⟩ := exists_parsed (lit "0 12 * * *") (by decide +kernel)
  exact ⟨parsed, hparsed, tick_exact utcPlatform (lit "0 12 * * *") 0 { utc := true } hparsed
    (timezoneOf_utc utcPlatform) fun _ => rfl⟩

end Schedule

end NevoMessaging
