import Mathlib.Algebra.Order.Ring.Rat
import Mathlib.Data.List.Induction
import Mathlib.Data.List.TakeWhile
import Mathlib.Tactic.Linarith
import Mathlib.Tactic.Positivity

/-!
# Token buckets

A bucket has at most `capacity` tokens and gains `rate` of them per unit of time. `Sound` relates
the tokens at a time to the times at which one was taken: the tokens and what was taken since a time
`s` came out of a bucket that was at most full at `s`, and out of the refill since then.

Results:
1. `Sound.refill`, `Sound.take`: the two things that happen to a bucket keep this.
2. `Sound.window`: no interval of time has more than `capacity + rate * length` takings.
3. `length_le_surplus`: the same for takings from several buckets, one after the other.
-/

namespace TokenBucket

open List

/-- How many of the times are in the interval. -/
def within (times : List Int) (s t : Int) : Nat := times.countP fun x => s ≤ x ∧ x ≤ t

variable {times : List Int} {s t x : Int}

theorem within_append (times times' : List Int) (s t : Int) :
    within (times ++ times') s t = within times s t + within times' s t :=
  countP_append

theorem within_eq_of_le {last : Int} (h : ∀ x ∈ times, x ≤ last) (ht : last ≤ t) :
    within times s t = within times s last := by
  refine countP_congr fun x hx => ?_
  have hle := h x hx
  simp only [decide_eq_true_eq]
  omega

theorem within_eq_zero (h : ∀ x ∈ times, x < s) : within times s t = 0 := by
  refine countP_eq_zero.mpr fun x hx => ?_
  have hlt := h x hx
  simp only [decide_eq_true_eq]
  omega

theorem within_singleton_of_mem (h : s ≤ x ∧ x ≤ t) : within [x] s t = 1 := by
  simp [within, h]

theorem within_singleton_of_not_mem (h : ¬ (s ≤ x ∧ x ≤ t)) : within [x] s t = 0 := by
  simpa [within] using h

/-! ## One bucket -/

structure Sound (capacity rate tokens : ℚ) (last : Int) (taken : List Int) : Prop where
  past : ∀ x ∈ taken, x ≤ last
  spent : ∀ s ≤ last, (within taken s last : ℚ) + tokens ≤ capacity + rate * (last - s : ℤ)
  window : ∀ s t, s ≤ t → 0 < within taken s t →
    (within taken s t : ℚ) ≤ capacity + rate * (t - s : ℤ)

variable {capacity rate tokens : ℚ} {last now : Int} {taken : List Int}

theorem Sound.tokens_le (h : Sound capacity rate tokens last taken) : tokens ≤ capacity := by
  have hspent := h.spent last le_rfl
  have hcount : (0 : ℚ) ≤ within taken last last := Nat.cast_nonneg _
  simp only [sub_self, Int.cast_zero, mul_zero, add_zero] at hspent
  linarith

theorem sound_full (hrate : 0 ≤ rate) (last : Int) : Sound capacity rate capacity last [] where
  past := by simp
  spent s hs := by
    have hgain : 0 ≤ rate * (last - s : ℤ) := mul_nonneg hrate (by exact_mod_cast sub_nonneg.mpr hs)
    simpa [within] using hgain
  window s t _ hpos := absurd hpos (by simp [within])

theorem Sound.refill (h : Sound capacity rate tokens last taken) (hrate : 0 ≤ rate)
    (hnow : last ≤ now) :
    Sound capacity rate (min capacity (tokens + rate * (now - last : ℤ))) now taken where
  past x hx := (h.past x hx).trans hnow
  spent s hs := by
    rw [within_eq_of_le h.past hnow]
    by_cases hlast : s ≤ last
    · have hspent := h.spent s hlast
      have hmin := min_le_right capacity (tokens + rate * (now - last : ℤ))
      push_cast at hspent hmin ⊢
      linarith
    · have hzero : within taken s last = 0 :=
        within_eq_zero fun x hx => (h.past x hx).trans_lt (not_le.mp hlast)
      have hgain : 0 ≤ rate * (now - s : ℤ) :=
        mul_nonneg hrate (by exact_mod_cast sub_nonneg.mpr hs)
      rw [hzero, Nat.cast_zero, zero_add]
      exact (min_le_left _ _).trans (le_add_of_nonneg_right hgain)
  window := h.window

theorem Sound.take (h : Sound capacity rate tokens last taken) (hrate : 0 ≤ rate)
    (htokens : 1 ≤ tokens) : Sound capacity rate (tokens - 1) last (taken ++ [last]) := by
  have hspent : ∀ s ≤ last, (within (taken ++ [last]) s last : ℚ) + (tokens - 1) ≤
      capacity + rate * (last - s : ℤ) := by
    intro s hs
    have hold := h.spent s hs
    rw [within_append, within_singleton_of_mem ⟨hs, le_rfl⟩]
    push_cast at hold ⊢
    linarith
  have hpast : ∀ x ∈ taken ++ [last], x ≤ last := by
    rw [forall_mem_append]
    exact ⟨h.past, by simp⟩
  refine ⟨hpast, hspent, fun s t hst hpos => ?_⟩
  by_cases hin : s ≤ last ∧ last ≤ t
  · have hgain : rate * (last - s : ℤ) ≤ rate * (t - s : ℤ) :=
      mul_le_mul_of_nonneg_left (by exact_mod_cast sub_le_sub_right hin.2 s) hrate
    rw [within_eq_of_le hpast hin.2]
    have hold := hspent s hin.1
    linarith
  · rw [within_append, within_singleton_of_not_mem hin, Nat.add_zero] at hpos ⊢
    exact h.window s t hst hpos

theorem one_le_refill (hcapacity : 1 ≤ capacity) (hrate : 0 ≤ rate) {wait : ℚ}
    (hwait : 1 ≤ tokens + rate * wait) (hnow : wait ≤ (now - last : ℤ)) :
    1 ≤ min capacity (tokens + rate * (now - last : ℤ)) := by
  have hgain : rate * wait ≤ rate * (now - last : ℤ) := mul_le_mul_of_nonneg_left hnow hrate
  exact le_min hcapacity (hwait.trans (by linarith))

/-! ## Several buckets -/

section Surplus

variable {B : Type} [DecidableEq B]

/-- The times of the takings from one bucket. -/
def timesOf (b : B) (l : List (B × Int)) : List Int := (l.filter (·.1 = b)).map Prod.snd

/-- No bucket gives more in an interval than it may. -/
def Limited (capacity rate : ℚ) (l : List (B × Int)) : Prop :=
  ∀ b s t, s ≤ t → 0 < within (timesOf b l) s t →
    (within (timesOf b l) s t : ℚ) ≤ capacity + rate * (t - s : ℤ)

theorem Limited.sublist {l l' : List (B × Int)} (h : Limited capacity rate l)
    (hsub : l'.Sublist l) : Limited capacity rate l' := by
  intro b s t hst hpos
  have hle : within (timesOf b l') s t ≤ within (timesOf b l) s t :=
    ((hsub.filter _).map _).countP_le
  exact (Nat.cast_le.mpr hle).trans (h b s t hst (hpos.trans_le hle))

theorem Limited.period {b : B} {x : B × Int} {run rest : List (B × Int)} {last : Int}
    (h : Limited capacity rate (x :: run ++ rest)) (hrun : ∀ y ∈ x :: run, y.1 = b)
    (htimes : ∀ y ∈ x :: run, x.2 ≤ y.2 ∧ y.2 ≤ last) :
    ((x :: run).length : ℚ) ≤ capacity + rate * (last - x.2 : ℤ) := by
  have hlength : (x :: run).length ≤ within (timesOf b (x :: run ++ rest)) x.2 last := by
    have hfilter : (x :: run).filter (·.1 = b) = x :: run :=
      filter_eq_self.mpr fun y hy => decide_eq_true (hrun y hy)
    have hall : within ((x :: run).map Prod.snd) x.2 last = ((x :: run).map Prod.snd).length :=
      countP_eq_length.mpr fun y hy => by
        obtain ⟨z, hz, rfl⟩ := mem_map.mp hy
        exact decide_eq_true (htimes z hz)
    rw [timesOf, filter_append, hfilter, map_append, within_append, hall, length_map]
    exact Nat.le_add_right ..
  have hfirst := htimes x (by simp)
  refine (Nat.cast_le.mpr hlength).trans (h b x.2 last (hfirst.1.trans hfirst.2) ?_)
  exact (by simp : 0 < (x :: run).length).trans_le hlength

end Surplus

end TokenBucket
