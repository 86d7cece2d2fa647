import Mathlib.Algebra.Order.Group.Int
import NevoMessaging.Lib.Trace

/-!
# Leases

Workers ask for the lease on a key, each for a term of its own. A lease is exclusive if nobody
else gets it before the term of its holder is over.

Results:
1. `holder_concat`: the holder after one more attempt.
2. `exclusive_of_waits`: leases are exclusive if every grant waits for the end of the one before.
-/

namespace Lease

open List

structure Attempt (K W : Type) where
  key : K
  worker : W
  term : Int
  time : Int
  granted : Bool
deriving DecidableEq

variable {K W : Type} [DecidableEq K]

/-- The attempt on `k` that was granted last. -/
def holder (k : K) (past : List (Attempt K W)) : Option (Attempt K W) :=
  past.reverse.find? fun e => e.granted && e.key = k

theorem holder_concat (k : K) (past : List (Attempt K W)) (a : Attempt K W) :
    holder k (past ++ [a]) = if a.granted ∧ a.key = k then some a else holder k past := by
  unfold holder
  rw [reverse_concat]
  by_cases h : a.granted ∧ a.key = k
  · rw [if_pos h, find?_cons_of_pos (by simpa using h)]
  · rw [if_neg h, find?_cons_of_neg (by simpa using h)]

theorem holder_append {k : K} {e : Attempt K W} (pre post : List (Attempt K W)) (he : e.granted)
    (hk : e.key = k) (hpost : ∀ x ∈ post, x.granted → x.key ≠ k) :
    holder k (pre ++ e :: post) = some e := by
  induction post using reverseRecOn with
  | nil => rw [holder_concat, if_pos ⟨he, hk⟩]
  | append_singleton post x ih =>
    rw [← cons_append, ← append_assoc, holder_concat,
      if_neg fun h => hpost x (by simp) h.1 h.2]
    exact ih fun y hy => hpost y (mem_append_left _ hy)

/-- `a` is not granted within the term of another worker who has not asked again since. -/
def Exclusive (past : List (Attempt K W)) (a : Attempt K W) : Prop :=
  a.granted → ∀ pre e post, past = pre ++ e :: post → e.granted → e.key = a.key →
    e.worker ≠ a.worker → (∀ x ∈ post, x.key = a.key → x.worker ≠ e.worker) →
    ¬ (e.time < a.time ∧ a.time < e.time + e.term)

/-- `a` is not granted before the term of the holder is over, unless to the holder. -/
def Waits (past : List (Attempt K W)) (a : Attempt K W) : Prop :=
  a.granted → ∀ e ∈ holder a.key past, e.worker ≠ a.worker → e.time + e.term ≤ a.time

theorem first_grant (k : K) (post : List (Attempt K W)) :
    (∀ x ∈ post, x.granted → x.key ≠ k) ∨ ∃ as x bs, post = as ++ x :: bs ∧ x.granted ∧
      x.key = k ∧ ∀ y ∈ as, y.granted → y.key ≠ k := by
  induction post with
  | nil => exact .inl fun x hx => absurd hx not_mem_nil
  | cons a post ih =>
    by_cases ha : a.granted ∧ a.key = k
    · exact .inr ⟨[], a, post, rfl, ha.1, ha.2, fun y hy => absurd hy not_mem_nil⟩
    · have hcons {l : List (Attempt K W)} (hl : ∀ x ∈ l, x.granted → x.key ≠ k) :
          ∀ x ∈ a :: l, x.granted → x.key ≠ k := by
        intro x hx hgranted hk
        rcases mem_cons.mp hx with rfl | hx
        · exact ha ⟨hgranted, hk⟩
        · exact hl x hx hgranted hk
      rcases ih with hnone | ⟨as, x, bs, rfl, hx, hk, has⟩
      · exact .inl (hcons hnone)
      · exact .inr ⟨a :: as, x, bs, rfl, hx, hk, hcons has⟩

theorem exclusive_of_waits {l : List (Attempt K W)} (h : Trace.Lawful Waits l)
    (htimes : l.Pairwise (·.time ≤ ·.time)) : Trace.Lawful Exclusive l := by
  rintro past a rest rfl ha pre e post rfl he hk hne hpost ⟨-, hbefore⟩
  suffices hended : e.time + e.term ≤ a.time from absurd hbefore (not_lt.mpr hended)
  -- the first grant after `e` has waited for the end of its term, and `a` is not before that grant
  rcases first_grant a.key post with hnone | ⟨as, x, bs, rfl, hx, hxk, has⟩
  · exact h _ a rest rfl ha e (holder_append pre post he hk hnone) hne
  · have hwaits : e.time + e.term ≤ x.time := by
      refine h (pre ++ e :: as) x (bs ++ a :: rest) (by simp) hx e ?_ ?_
      · rw [hxk]
        exact holder_append pre as he hk has
      · exact (hpost x (by simp) hxk).symm
    have hle : x.time ≤ a.time :=
      (pairwise_append.mp htimes).2.2 x (by simp) a mem_cons_self
    exact hwaits.trans hle

end Lease
