import NevoMessaging.Lib.JsValue

/-!
# The proleptic Gregorian calendar

`JsDate.civil` gives the date of a day. `daysOf` counts the days up to a date, as `Date.UTC` does.
The year begins in March here as well.

Results:
1. `daysOf_civil`: a day is found again by its date.
2. `month_civil`: there are twelve months, and February has at most 29 days.
-/

namespace JsDate

/-- The day of a date, since 1970-01-01. -/
def daysOf (year : Int) (month day : Nat) : Int :=
  let marchYear := if month ≤ 2 then year - 1 else year
  let marchMonth := if month ≤ 2 then month + 9 else month - 3
  let yearOfEra := (marchYear % 400).toNat
  let dayOfYear := (153 * marchMonth + 2) / 5 + day - 1
  let dayOfEra := 365 * yearOfEra + yearOfEra / 4 - yearOfEra / 100 + dayOfYear
  marchYear / 400 * 146097 + dayOfEra - 719468

/-- The day of the week, where Sunday is 0. -/
def weekday (days : Int) : Nat := ((days + 4) % 7).toNat

theorem yearOfCentury {day century year : Nat} (hcentury : century < 4)
    (hday : day / 36524 = century) (hyear : (day - day / 1460 + century) / 365 = year) :
    year / 100 = century ∧ 365 * year + year / 4 ≤ day + century ∧
      day + century ≤ 365 * year + year / 4 + 365 := by
  generalize hk : year / 4 = k
  generalize hh : day / 1460 = h at *
  have hc : year / 100 = century := by omega
  -- a period of four years has a day more than four times 365
  have hclose : h = k ∨ h = k + 1 := by omega
  rcases hclose with rfl | rfl
  · omega
  · omega

theorem yearOfEra_spec {day year : Nat} (hday : day < 146097)
    (hyear : (day - day / 1460 + day / 36524 - day / 146096) / 365 = year) :
    year < 400 ∧ 365 * year + year / 4 - year / 100 ≤ day ∧
      day ≤ 365 * year + year / 4 - year / 100 + 365 := by
  by_cases hlast : day = 146096
  · subst hlast
    subst hyear
    decide
  · obtain ⟨hcentury, hlow, hhigh⟩ := @yearOfCentury day (day / 36524) year (by omega)
      rfl (by omega)
    omega

theorem daysOf_civil (days : Int) :
    daysOf (civil days).1 (civil days).2.1 (civil days).2.2 = days := by
  unfold civil
  dsimp only
  generalize hday : ((days + 719468) % 146097).toNat = day
  generalize hyear : (day - day / 1460 + day / 36524 - day / 146096) / 365 = year
  obtain ⟨hyear, hlow, hhigh⟩ := yearOfEra_spec (by omega) hyear
  generalize hstart : 365 * year + year / 4 - year / 100 = start at *
  generalize hera : (days + 719468) / 146097 = era
  generalize hmonth : (5 * (day - start) + 2) / 153 = month
  have hfound :
      (153 * month + 2) / 5 + (day - start - (153 * month + 2) / 5 + 1) - 1 = day - start := by
    omega
  have hera' : era * 146097 + day - 719468 = days := by omega
  split
  next hbefore =>
    -- a month from March on
    unfold daysOf
    dsimp only
    rw [if_neg (by omega), if_neg (by omega), Nat.add_sub_cancel, hfound,
      show (((year : Int) + era * 400) % 400).toNat = year by omega,
      show ((year : Int) + era * 400) / 400 = era by omega, hstart, Nat.add_sub_cancel' hlow]
    exact hera'
  next hafter =>
    -- January or February, which belong to the year before
    have hlast : month < 12 := by omega
    unfold daysOf
    dsimp only
    rw [if_pos (by omega), if_pos (by omega), Nat.sub_add_cancel (by omega), hfound,
      show (((year : Int) + era * 400 + 1 - 1) % 400).toNat = year by omega,
      show ((year : Int) + era * 400 + 1 - 1) / 400 = era by omega, hstart,
      Nat.add_sub_cancel' hlow]
    exact hera'

theorem month_civil (days : Int) : 1 ≤ (civil days).2.1 ∧ (civil days).2.1 ≤ 12 ∧
    ((civil days).2.1 = 2 → (civil days).2.2 ≤ 29) := by
  unfold civil
  dsimp only
  generalize hday : ((days + 719468) % 146097).toNat = day
  generalize hyear : (day - day / 1460 + day / 36524 - day / 146096) / 365 = year
  obtain ⟨hyear, hlow, hhigh⟩ := yearOfEra_spec (by omega) hyear
  generalize 365 * year + year / 4 - year / 100 = start at *
  split <;> dsimp only <;> omega

end JsDate
