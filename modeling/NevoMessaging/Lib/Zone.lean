import Mathlib.Algebra.Order.Group.Int
import Mathlib.Data.Int.Init

/-!
# Time zones

A zone tells how many minutes its wall clock is ahead of UTC at an instant, which is a time in
milliseconds. Going back from the wall clock to the instant is not always possible: a wall-clock
time may be skipped, and it may occur twice.

A host zone goes back as `new Date(year, month, ..)` does: to the first of several instants, and by
the offset before the change if the time is skipped. For a named zone there is only the offset, and
it is looked up twice.

Results:
1. `Daylight.window`: around any minute there is at most one change.
2. `wall_minuteOf`: a time that occurs is resolved to an instant at which it does.
3. `nextDay`: the day after a day begins on that day, unless its midnight is put behind it.
4. `wall_le_of_le_minuteOf`: if the clock is put back, the instants are resolved in their order.
-/

/-- `offset` is in minutes. -/
structure Zone where
  offset : Int → Int

namespace Zone

variable (z : Zone)

def fixed (minutes : Int) : Zone where
  offset _ := minutes

/-- The offset at a full minute. -/
def ahead (i : Int) : Int := z.offset (60000 * i)

/-- The minute that the wall clock shows at a full minute. -/
def wall (i : Int) : Int := i + z.ahead i

/-- The offset is looked up at the wall-clock time, and again at the instant that this gives. -/
def twoPass (clock : Int) : Int := clock - 60000 * z.offset (clock - 60000 * z.offset clock)

/-- The same for full minutes. -/
def back (l : Int) : Int := l - z.ahead (l - z.ahead l)

end Zone

/-- `epoch` goes back from the wall clock, in milliseconds. -/
structure HostZone extends Zone where
  epoch : Int → Int
  first : ∀ clock t, t + 60000 * offset t = clock →
    epoch clock + 60000 * offset (epoch clock) = clock ∧ epoch clock ≤ t
  skipped : ∀ clock, (∀ t, t + 60000 * offset t ≠ clock) →
    ∃ t, t + 60000 * offset t < clock ∧
      (∀ s, s + 60000 * offset s < clock → s + 60000 * offset s ≤ t + 60000 * offset t) ∧
      (∀ s, s + 60000 * offset s = t + 60000 * offset t → s ≤ t) ∧
      epoch clock = clock - 60000 * offset t

/-- The zone of a host that never changes its clock. -/
def HostZone.fixed (minutes : Int) : HostZone where
  toZone := .fixed minutes
  epoch clock := clock - 60000 * minutes
  first clock t h := by
    change t + 60000 * minutes = clock at h
    show clock - 60000 * minutes + 60000 * minutes = clock ∧ clock - 60000 * minutes ≤ t
    omega
  skipped clock h := absurd (Int.sub_add_cancel clock (60000 * minutes)) (h _)

inductive Timezone
  | host (zone : HostZone)
  | named (zone : Zone)

namespace Timezone

def zone : Timezone → Zone
  | host z => z.toZone
  | named z => z

/-- The instant of a wall-clock time. -/
def resolve : Timezone → Int → Int
  | host z => z.epoch
  | named z => z.twoPass

/-- The same for full minutes. -/
def minuteOf (tz : Timezone) (l : Int) : Int := tz.resolve (60000 * l) / 60000

theorem resolve_offset (tz : Timezone) (clock : Int) :
    ∃ t, tz.resolve clock = clock - 60000 * tz.zone.offset t := by
  cases tz with
  | host z =>
    by_cases hex : ∃ t, t + 60000 * z.offset t = clock
    · obtain ⟨t, ht⟩ := hex
      have hfirst := (z.first clock t ht).1
      refine ⟨z.epoch clock, ?_⟩
      show z.epoch clock = clock - 60000 * z.offset (z.epoch clock)
      omega
    · obtain ⟨t, -, -, -, ht⟩ := z.skipped clock fun t ht => hex ⟨t, ht⟩
      exact ⟨t, ht⟩
  | named z => exact ⟨_, rfl⟩

theorem resolve_minutes (tz : Timezone) (l : Int) :
    tz.resolve (60000 * l) = 60000 * tz.minuteOf l := by
  obtain ⟨t, ht⟩ := tz.resolve_offset (60000 * l)
  unfold minuteOf
  omega

theorem minuteOf_named (z : Zone) (l : Int) :
    (named z).minuteOf l = z.back l := by
  have hresolve := (named z).resolve_minutes l
  have hinner : 60000 * l - 60000 * z.offset (60000 * l) = 60000 * (l - z.ahead l) := by
    unfold Zone.ahead
    omega
  have htwo : (named z).resolve (60000 * l) = 60000 * l - 60000 * z.ahead (l - z.ahead l) := by
    show 60000 * l - 60000 * z.offset (60000 * l - 60000 * z.offset (60000 * l)) = _
    rw [hinner]
    rfl
  unfold Zone.back
  omega

theorem minuteOf_host (z : HostZone) {l i : Int} (h : z.wall i = l) :
    z.wall ((host z).minuteOf l) = l ∧ (host z).minuteOf l ≤ i := by
  have hresolve : z.epoch (60000 * l) = 60000 * (host z).minuteOf l := (host z).resolve_minutes l
  have hi : 60000 * i + 60000 * z.offset (60000 * i) = 60000 * l := by
    unfold Zone.wall Zone.ahead at h
    omega
  obtain ⟨hshow, hle⟩ := z.first (60000 * l) (60000 * i) hi
  rw [hresolve] at hshow hle
  unfold Zone.wall Zone.ahead
  omega

theorem minuteOf_fixed {tz : Timezone} {minutes : Int}
    (h : ∀ t, tz.zone.offset t = minutes) (l : Int) : tz.minuteOf l = l - minutes := by
  obtain ⟨t, ht⟩ := tz.resolve_offset (60000 * l)
  have hminutes := tz.resolve_minutes l
  rw [h] at ht
  omega

end Timezone

/-! ## Daylight saving -/

namespace Zone

/-- The offset changes by an hour, more than a week after the change before, and is less than a
day. -/
structure Daylight (z : Zone) : Prop where
  bounded : ∀ t, -1440 < z.offset t ∧ z.offset t < 1440
  hour : ∀ t, z.offset (t + 1) = z.offset t ∨ z.offset (t + 1) = z.offset t + 60 ∨
    z.offset (t + 1) = z.offset t - 60
  apart : ∀ s t, s < t → z.offset (s + 1) ≠ z.offset s → z.offset (t + 1) ≠ z.offset t →
    604800000 < t - s

variable {z : Zone}

theorem offset_of_no_change {s t : Int} (hle : s ≤ t)
    (h : ∀ u, s ≤ u → u < t → z.offset (u + 1) = z.offset u) : z.offset t = z.offset s := by
  induction t, hle using Int.leInduction with
  | base => rfl
  | succ t hle ih =>
    rw [h t hle (by omega)]
    exact ih fun u hu hut => h u hu (by omega)

theorem Daylight.week (h : z.Daylight) (low high : Int) (hweek : high - low ≤ 604800000) :
    ∃ change s t, (z.offset t = z.offset s ∨ z.offset t = z.offset s + 60 ∨
        z.offset t = z.offset s - 60) ∧
      ∀ u, low ≤ u → u ≤ high → z.offset u = z.offset (if u < change then s else t) := by
  by_cases hchange : ∃ u, low ≤ u ∧ u < high ∧ z.offset (u + 1) ≠ z.offset u
  · obtain ⟨u, hlow, hhigh, hne⟩ := hchange
    have hother : ∀ v, low ≤ v → v < high → v ≠ u → z.offset (v + 1) = z.offset v := by
      intro v hv hv' hvu
      by_contra hne'
      rcases lt_or_gt_of_ne hvu with hlt | hgt
      · have := h.apart v u hlt hne' hne
        omega
      · have := h.apart u v hgt hne hne'
        omega
    refine ⟨u + 1, u, u + 1, h.hour u, fun t ht ht' => ?_⟩
    split
    next hlt =>
      refine (offset_of_no_change (by omega) fun v hv hvu => ?_).symm
      exact hother v (by omega) (by omega) (by omega)
    next hge =>
      refine offset_of_no_change (by omega) fun v hv hvt => ?_
      exact hother v (by omega) (by omega) (by omega)
  · refine ⟨low, low, low, .inl rfl, fun t ht ht' => ?_⟩
    rw [ite_self]
    refine offset_of_no_change ht fun v hv hvt => ?_
    by_contra hne
    exact hchange ⟨v, hv, by omega, hne⟩

/-- What the clock does around the minute `i`, as far as an offset reaches. -/
structure Around (z : Zone) (i change before after : Int) : Prop where
  hour : after = before ∨ after = before + 60 ∨ after = before - 60
  before_bounded : -1440 < before ∧ before < 1440
  after_bounded : -1440 < after ∧ after < 1440
  ahead : ∀ j, i - 5000 ≤ j → j ≤ i + 5000 → z.ahead j = if j < change then before else after

theorem Daylight.window (h : z.Daylight) (i : Int) :
    ∃ change before after, z.Around i change before after := by
  obtain ⟨change, s, t, hhour, hoffset⟩ :=
    h.week (60000 * (i - 5000)) (60000 * (i + 5000)) (by omega)
  refine ⟨(change + 59999) / 60000, z.offset s, z.offset t, hhour, h.bounded s, h.bounded t,
    fun j hj hj' => ?_⟩
  rw [Zone.ahead, hoffset _ (by omega) (by omega)]
  split_ifs <;> first | rfl | omega

section Around

variable {z : Zone} {i change before after : Int} (h : z.Around i change before after)
include h

theorem Around.back_eq :
    z.back i = i - if i < change then if i - before < change then before else after
      else if i - after < change then before else after := by
  have hbefore := h.before_bounded
  have hafter := h.after_bounded
  unfold back
  rw [h.ahead i (by omega) (by omega)]
  split
  · rw [h.ahead _ (by omega) (by omega)]
  · rw [h.ahead _ (by omega) (by omega)]

theorem Around.change_eq {j : Int} (hne : z.ahead j ≠ z.ahead (j - 1))
    (hnear : i - 4999 ≤ j ∧ j ≤ i + 5000) :
    j = change ∧ z.ahead (j - 1) = before ∧ z.ahead j = after := by
  have hlast := h.ahead (j - 1) (by omega) (by omega)
  have hfirst := h.ahead j (by omega) (by omega)
  split_ifs at hlast hfirst <;> omega

theorem Around.wall_back {j : Int} (hj : z.wall j = i) (hnear : i - 1440 < j ∧ j < i + 1440) :
    z.wall (z.back i) = i := by
  have hhour := h.hour
  have hbefore := h.before_bounded
  have hafter := h.after_bounded
  have hj' := h.ahead j (by omega) (by omega)
  have hback := h.back_eq
  have hshow := h.ahead (z.back i) (by split_ifs at hback <;> omega)
    (by split_ifs at hback <;> omega)
  unfold wall at *
  split_ifs at hj' hback hshow <;> omega

end Around

theorem Daylight.ahead_bounded (h : z.Daylight) (i : Int) :
    -1440 < z.ahead i ∧ z.ahead i < 1440 := h.bounded _

theorem Daylight.wall_near (h : z.Daylight) (i : Int) :
    z.wall i - 1440 < i ∧ i < z.wall i + 1440 := by
  have := h.ahead_bounded i
  unfold wall
  omega

variable {i j : Int}

theorem Daylight.wall_le_wall (h : z.Daylight) (hij : i ≤ j) :
    z.wall i - 60 ≤ z.wall j ∧ (i + 60 ≤ j → z.wall i ≤ z.wall j) := by
  by_cases hfar : i + 5000 < j
  · have hi := h.ahead_bounded i
    have hj := h.ahead_bounded j
    unfold wall
    omega
  · obtain ⟨change, before, after, hi⟩ := h.window i
    have hhour := hi.hour
    have hi' := hi.ahead i (by omega) (by omega)
    have hj' := hi.ahead j (by omega) (by omega)
    unfold wall
    split_ifs at hi' hj' <;> omega

theorem Daylight.wall_le (h : z.Daylight) (hij : i + 60 ≤ j) : z.wall i ≤ z.wall j :=
  (h.wall_le_wall (by omega)).2 hij

theorem Daylight.wall_sub_le (h : z.Daylight) (hij : i ≤ j) : z.wall i - 60 ≤ z.wall j :=
  (h.wall_le_wall hij).1

theorem Daylight.eq_of_changes (h : z.Daylight) (hi : z.ahead i ≠ z.ahead (i - 1))
    (hj : z.ahead j ≠ z.ahead (j - 1)) (hnear : i - 4999 ≤ j ∧ j ≤ i + 4999) : i = j := by
  obtain ⟨change, before, after, hwindow⟩ := h.window i
  have hi' := (hwindow.change_eq hi (by omega)).1
  have hj' := (hwindow.change_eq hj (by omega)).1
  omega

/-- The clock is put forward between `i - 1` and `i`. -/
def Forward (z : Zone) (i : Int) : Prop := z.ahead i = z.ahead (i - 1) + 60

def Backward (z : Zone) (i : Int) : Prop := z.ahead i = z.ahead (i - 1) - 60

/-- A change skips the minute `l` of the wall clock, which is before the change if it is read as
UTC. -/
def SkippedBefore (z : Zone) (l : Int) : Prop :=
  ∃ i, z.Forward i ∧ z.wall (i - 1) < l ∧ l < z.wall i ∧ l < i

theorem Daylight.shown_again (h : z.Daylight) (hij : i < j) (hwall : z.wall j < z.wall i) :
    ∃ change, z.Backward change ∧ i < change ∧ change ≤ j ∧
      z.wall (i + 60) = z.wall i ∧ z.wall (j - 60) = z.wall j := by
  have hnear : j < i + 60 := by
    by_contra hfar
    have := h.wall_le (not_lt.mp hfar)
    omega
  obtain ⟨change, before, after, hi⟩ := h.window i
  have hhour := hi.hour
  have hi' := hi.ahead i (by omega) (by omega)
  have hj' := hi.ahead j (by omega) (by omega)
  unfold wall at *
  have hbetween : i < change ∧ change ≤ j := by split_ifs at hi' hj' <;> omega
  rw [if_pos hbetween.1] at hi'
  rw [if_neg (not_lt.mpr hbetween.2)] at hj'
  have hbefore := hi.ahead (change - 1) (by omega) (by omega)
  have hafter := hi.ahead change (by omega) (by omega)
  have hlater := hi.ahead (i + 60) (by omega) (by omega)
  have hearlier := hi.ahead (j - 60) (by omega) (by omega)
  rw [if_pos (by omega)] at hbefore hearlier
  rw [if_neg (by omega)] at hafter hlater
  unfold Backward
  exact ⟨change, by omega, hbetween.1, hbetween.2, by omega, by omega⟩

theorem Daylight.wall_le_of_backward {z : Zone} (h : z.Daylight) {change i j : Int}
    (hchange : z.Backward change) (hij : i ≤ j) (hside : j < change ∨ change ≤ i)
    (hnear : change - 4000 ≤ i ∧ j ≤ change + 4000) : z.wall i ≤ z.wall j := by
  by_contra hlt
  have hne : i ≠ j := by
    rintro rfl
    exact hlt le_rfl
  obtain ⟨other, hother, hi, hj, -⟩ := h.shown_again (lt_of_le_of_ne hij hne) (not_le.mp hlt)
  unfold Backward at hchange hother
  have hsame := h.eq_of_changes (i := change) (j := other) (by omega) (by omega) (by omega)
  omega

theorem Daylight.wall_lt_of_backward (h : z.Daylight) {change : Int} (hchange : z.Backward change)
    (hlt : i < change - 1) : z.wall i < z.wall (change - 1) := by
  obtain ⟨change', before, after, hwindow⟩ := h.window change
  have hi := h.wall_near i
  have hlast := h.wall_near (change - 1)
  unfold Backward at hchange
  obtain ⟨rfl, hbefore, -⟩ := hwindow.change_eq (j := change) (by omega) (by omega)
  by_contra hge
  have hi' := hwindow.ahead i (by omega) (by omega)
  rw [if_pos (by omega)] at hi'
  unfold wall at hge
  omega

theorem Daylight.not_forward_of_backward (h : z.Daylight) (hi : z.Backward i) (hj : z.Forward j)
    (hnear : i - 4000 ≤ j ∧ j ≤ i + 4000) : False := by
  unfold Backward at hi
  unfold Forward at hj
  have hsame := h.eq_of_changes (i := i) (j := j) (by omega) (by omega) (by omega)
  subst hsame
  omega

end Zone

namespace Timezone

variable {tz : Timezone} {l : Int}

theorem wall_minuteOf (h : tz.zone.Daylight) {i : Int} (hi : tz.zone.wall i = l) :
    tz.zone.wall (tz.minuteOf l) = l := by
  cases tz with
  | host z => exact (minuteOf_host z hi).1
  | named z =>
    obtain ⟨change, before, after, hl⟩ := h.window l
    rw [minuteOf_named]
    exact hl.wall_back hi (hi ▸ h.wall_near i)

/-- A skipped minute of a host zone is as much later as the clock is put forward. -/
theorem minuteOf_host_skipped (z : HostZone) (h : z.Daylight) (hskip : ∀ i, z.wall i ≠ l) :
    z.wall ((host z).minuteOf l) = l + 60 := by
  have hnone : ∀ t, t + 60000 * z.offset t ≠ 60000 * l := by
    intro t ht
    have hfull : 60000 * (t / 60000) = t := by omega
    refine hskip (t / 60000) ?_
    unfold Zone.wall Zone.ahead
    rw [hfull]
    omega
  obtain ⟨t, hlt, hlast, -, hepoch⟩ := z.skipped _ hnone
  have hresolve : z.epoch (60000 * l) = 60000 * (host z).minuteOf l := (host z).resolve_minutes l
  obtain ⟨change, s, u, hhour, hoffset⟩ :=
    h.week (60000 * (l - 3000)) (60000 * (l + 3000)) (by omega)
  have ht := h.bounded t
  have hs := h.bounded s
  have hu := h.bounded u
  have hnot (v : Int) (hv : -1440 < v ∧ v < 1440) : z.offset (60000 * (l - v)) ≠ v := by
    have hwall := hskip (l - v)
    unfold Zone.wall Zone.ahead at hwall
    omega
  -- the clock is put forward: the offset before it leads behind the change, and the one after it
  -- before
  have hbefore := hnot _ hs
  rw [hoffset _ (by omega) (by omega)] at hbefore
  have hge : change ≤ 60000 * (l - z.offset s) := by
    by_contra hlt'
    exact hbefore (by rw [if_pos (not_le.mp hlt')])
  have hafter := hnot _ hu
  rw [hoffset _ (by omega) (by omega)] at hafter
  have hlt' : 60000 * (l - z.offset u) < change := by
    by_contra hge'
    exact hafter (by rw [if_neg hge'])
  -- the last time that is shown before is the one just before the change
  have hshown := hlast (change - 1)
  rw [hoffset (change - 1) (by omega) (by omega), if_pos (by omega)] at hshown
  have hmax := hshown (by omega)
  have hfound := hoffset t (by omega) (by omega)
  have hminute : (host z).minuteOf l = l - z.offset s := by
    split at hfound
    · omega
    · omega
  have hresult := hoffset (60000 * (l - z.offset s)) (by omega) (by omega)
  rw [if_neg (not_lt.mpr hge)] at hresult
  rw [hminute]
  unfold Zone.wall Zone.ahead
  omega

theorem near_minuteOf (h : tz.zone.Daylight) (l : Int) :
    tz.zone.wall (tz.minuteOf l) = l ∨ tz.zone.wall (tz.minuteOf l) = l + 60 ∨
      tz.zone.wall (tz.minuteOf l) = l - 60 := by
  by_cases hex : ∃ i, tz.zone.wall i = l
  · obtain ⟨i, hi⟩ := hex
    exact .inl (wall_minuteOf h hi)
  · cases tz with
    | host z => exact .inr (.inl (minuteOf_host_skipped z h fun i hi => hex ⟨i, hi⟩))
    | named z =>
      obtain ⟨change, before, after, hl⟩ := h.window l
      change z.Around l change before after at hl
      have hhour := hl.hour
      have hbefore := hl.before_bounded
      have hafter := hl.after_bounded
      have hback := hl.back_eq
      have hshow := hl.ahead (z.back l) (by split_ifs at hback <;> omega)
        (by split_ifs at hback <;> omega)
      rw [minuteOf_named]
      show z.wall _ = _ ∨ z.wall _ = _ ∨ z.wall _ = _
      unfold Zone.wall
      split_ifs at hback hshow <;> omega

/-- The next midnight is resolved to a minute of the next day, unless it is skipped before the
change. -/
theorem nextDay (h : tz.zone.Daylight) (day : Int) :
    tz.zone.wall (tz.minuteOf (1440 * (day + 1))) / 1440 = day + 1 ∨
      (∃ z, tz = named z) ∧ tz.zone.SkippedBefore (1440 * (day + 1)) := by
  by_cases hex : ∃ i, tz.zone.wall i = 1440 * (day + 1)
  · obtain ⟨i, hi⟩ := hex
    rw [wall_minuteOf h hi]
    omega
  · have hskip : ∀ i, tz.zone.wall i ≠ 1440 * (day + 1) := fun i hi => hex ⟨i, hi⟩
    cases tz with
    | host z =>
      have hlater : (host z).zone.wall _ = _ := minuteOf_host_skipped z h hskip
      rw [hlater]
      omega
    | named z =>
      obtain ⟨change, before, after, hnear⟩ := h.window (1440 * (day + 1))
      change z.Around _ change before after at hnear
      have hhour := hnear.hour
      have hbefore := hnear.before_bounded
      have hafter := hnear.after_bounded
      have hnot (v : Int) (hv : -1440 < v ∧ v < 1440) :
          z.ahead (1440 * (day + 1) - v) ≠ v := by
        have hwall : z.wall _ ≠ _ := hskip (1440 * (day + 1) - v)
        unfold Zone.wall at hwall
        omega
      have hge : change ≤ 1440 * (day + 1) - before := by
        by_contra hlt
        refine hnot before hbefore ?_
        rw [hnear.ahead _ (by omega) (by omega), if_pos (not_le.mp hlt)]
      have hlt : 1440 * (day + 1) - after < change := by
        by_contra hge
        refine hnot after hafter ?_
        rw [hnear.ahead _ (by omega) (by omega), if_neg hge]
      by_cases hutc : 1440 * (day + 1) < change
      · have hfirst := hnear.ahead change (by omega) (by omega)
        have hlast := hnear.ahead (change - 1) (by omega) (by omega)
        rw [if_pos (by omega)] at hlast
        rw [if_neg (by omega)] at hfirst
        refine .inr ⟨⟨z, rfl⟩, change, ?_, ?_, ?_, hutc⟩
        · show z.ahead _ = z.ahead _ + 60
          omega
        · show change - 1 + z.ahead _ < _
          omega
        · show _ < change + z.ahead _
          omega
      · have hback := hnear.back_eq
        rw [if_neg hutc, if_pos hlt] at hback
        rw [minuteOf_named]
        change z.wall _ / 1440 = _ ∨ _
        have hshow := hnear.ahead (z.back (1440 * (day + 1))) (by omega) (by omega)
        rw [if_neg (by omega)] at hshow
        unfold Zone.wall
        omega

theorem nextDay_of_skippedBefore {z : Zone} (h : z.Daylight) {day : Int}
    (hskip : z.SkippedBefore (1440 * (day + 1))) :
    z.wall ((named z).minuteOf (1440 * (day + 1))) / 1440 = day := by
  obtain ⟨i, hforward, hlow, hhigh, hutc⟩ := hskip
  obtain ⟨change, before, after, hnear⟩ := h.window (1440 * (day + 1))
  have hbound := h.ahead_bounded i
  have hbound' := h.ahead_bounded (i - 1)
  unfold Zone.wall Zone.Forward at *
  obtain ⟨rfl, hlast, hfirst⟩ := hnear.change_eq (j := i) (by omega) (by omega)
  have hback := hnear.back_eq
  rw [if_pos hutc, if_neg (by omega)] at hback
  have hshow := hnear.ahead (z.back (1440 * (day + 1))) (by omega) (by omega)
  rw [if_pos (by omega)] at hshow
  rw [minuteOf_named]
  omega

/-- Only the second of two minutes that show the same time can be one that is resolved too late. -/
theorem wall_le_of_le_minuteOf (h : tz.zone.Daylight)
    (hback : (∃ z, tz = named z) → ∀ i, tz.zone.Backward i → tz.zone.ahead (i - 1) ≤ 1) {i : Int}
    (hshow : tz.zone.wall (tz.minuteOf l) = l) (hle : i ≤ tz.minuteOf l) : tz.zone.wall i ≤ l := by
  by_contra hlt
  have hne : i ≠ tz.minuteOf l := by
    rintro rfl
    exact hlt hshow.le
  have hfall : tz.zone.wall (tz.minuteOf l) < tz.zone.wall i := by
    rw [hshow]
    exact not_le.mp hlt
  obtain ⟨change, hchange, hi, hl, -, hagain⟩ := h.shown_again (lt_of_le_of_ne hle hne) hfall
  cases tz with
  | host z =>
    have hfirst := (minuteOf_host z (hagain.trans hshow)).2
    omega
  | named z =>
    have hsmall : z.ahead (change - 1) ≤ 1 := hback ⟨z, rfl⟩ change hchange
    rw [minuteOf_named] at hl hshow hle hfall
    change z.wall (z.back l) = l at hshow
    change z.ahead change = z.ahead (change - 1) - 60 at hchange
    change z.wall (z.back l) < z.wall i at hfall
    obtain ⟨change', before, after, hnear⟩ := h.window l
    change z.Around l change' before after at hnear
    have hbefore := hnear.before_bounded
    have hafter := hnear.after_bounded
    have hback := hnear.back_eq
    have hhour : z.back l < i + 60 := by
      by_contra hfar
      have hmono := h.wall_le (not_lt.mp hfar)
      exact absurd hfall (not_lt.mpr hmono)
    obtain ⟨rfl, hlast, hfirst⟩ := hnear.change_eq (j := change) (by omega)
      ⟨by split_ifs at hback <;> omega, by split_ifs at hback <;> omega⟩
    have hi' := hnear.ahead i (by split_ifs at hback <;> omega) (by split_ifs at hback <;> omega)
    unfold Zone.wall at *
    split_ifs at hback hi' <;> omega

end Timezone
