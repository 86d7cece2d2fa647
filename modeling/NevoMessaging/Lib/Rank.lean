import Mathlib.Data.List.Sort
import Mathlib.Data.List.TakeWhile

/-!
# The place of an entry after sorting

Sorting by a key is stable: entries with one key keep their order. So the place of an entry is the
number of entries that stand before it and are not greater, and of those that stand behind it and
are smaller.

Results:
1. `insertionSort_split`: the sorted list, split at an entry.
2. `mem_take_insertionSort`: which entries are among the first `n`.
-/

namespace Rank

open List

variable {α β : Type} [LinearOrder β] (f : α → β)

/-- The number of entries of `pre ++ x :: post` that are put in front of `x`. -/
def ahead (pre : List α) (x : α) (post : List α) : Nat :=
  pre.countP (f · ≤ f x) + post.countP (f · < f x)

variable {f} {x p : α} {l l' : List α}

theorem length_takeWhile (h : l.Pairwise (f · ≤ f ·)) :
    (l.takeWhile fun b => ¬ f x ≤ f b).length = l.countP (f · < f x) := by
  induction l with
  | nil => rfl
  | cons a l ih =>
    obtain ⟨ha, hl⟩ := pairwise_cons.mp h
    by_cases hx : f x ≤ f a
    · rw [takeWhile_cons_of_neg (by simpa using hx), countP_eq_zero.mpr]
      · rfl
      · intro b hb
        rw [decide_eq_true_eq, not_lt]
        rcases mem_cons.mp hb with rfl | hb
        · exact hx
        · exact hx.trans (ha b hb)
    · rw [takeWhile_cons_of_pos (by simpa using hx), length_cons, ih hl,
        countP_cons_of_pos (by simpa using hx)]

theorem orderedInsert_front (h : f p ≤ f x) :
    (l ++ x :: l').orderedInsert (f · ≤ f ·) p = l.orderedInsert (f · ≤ f ·) p ++ x :: l' := by
  induction l with
  | nil => exact if_pos h
  | cons a l ih =>
    by_cases ha : f p ≤ f a
    · rw [cons_append, orderedInsert_cons, if_pos ha, orderedInsert_cons, if_pos ha]
      rfl
    · rw [cons_append, orderedInsert_cons, if_neg ha, ih, orderedInsert_cons,
        if_neg ha]
      rfl

theorem orderedInsert_back (h : ∀ a ∈ l, ¬ f p ≤ f a) :
    (l ++ l').orderedInsert (f · ≤ f ·) p = l ++ l'.orderedInsert (f · ≤ f ·) p := by
  induction l with
  | nil => rfl
  | cons a l ih =>
    rw [cons_append, orderedInsert_cons, if_neg (h a mem_cons_self),
      ih fun b hb => h b (mem_cons_of_mem a hb)]
    rfl

variable (f) in
theorem insertionSort_split (pre : List α) (x : α) (post : List α) :
    ∃ as bs, (pre ++ x :: post).insertionSort (f · ≤ f ·) = as ++ x :: bs ∧
      as.length = ahead f pre x post ∧ ∀ a ∈ as, f a ≤ f x := by
  induction pre with
  | nil =>
    refine ⟨(post.insertionSort (f · ≤ f ·)).takeWhile fun b => ¬ f x ≤ f b, _,
      orderedInsert_eq_take_drop _ x _, ?_, fun a ha => ?_⟩
    · rw [length_takeWhile (pairwise_insertionSort _ post),
        (perm_insertionSort _ post).countP_eq]
      exact (Nat.zero_add _).symm
    · have hnot := mem_takeWhile_imp ha
      exact (lt_of_not_ge (by simpa using hnot)).le
  | cons p pre ih =>
    obtain ⟨as, bs, hsort, hlen, has⟩ := ih
    rw [cons_append, insertionSort_cons, hsort]
    by_cases hp : f p ≤ f x
    · refine ⟨_, bs, orderedInsert_front hp, ?_, fun a ha => ?_⟩
      · rw [orderedInsert_length, hlen, ahead, ahead,
          countP_cons_of_pos (by simpa using hp),
          Nat.add_right_comm]
      · rcases (mem_orderedInsert _).mp ha with rfl | ha
        · exact hp
        · exact has a ha
    · refine ⟨as, bs.orderedInsert (f · ≤ f ·) p, ?_, ?_, has⟩
      · rw [append_cons, orderedInsert_back, append_assoc]
        · rfl
        · intro a ha hle
          rcases mem_append.mp ha with ha | ha
          · exact hp (hle.trans (has a ha))
          · exact hp (mem_singleton.mp ha ▸ hle)
      · rw [hlen, ahead, ahead, countP_cons_of_neg (by simpa using hp)]

theorem mem_take_insertionSort {pre post : List α} {n : Nat} (hnd : (pre ++ x :: post).Nodup) :
    x ∈ ((pre ++ x :: post).insertionSort (f · ≤ f ·)).take n ↔ ahead f pre x post < n := by
  obtain ⟨as, bs, hsort, hlen, -⟩ := insertionSort_split f pre x post
  have hnd' : (as ++ x :: bs).Nodup := hsort ▸ (perm_insertionSort _ _).nodup_iff.mpr hnd
  have hx : x ∉ as := fun hx => (nodup_append.mp hnd').2.2 x hx x mem_cons_self rfl
  rw [hsort, ← hlen]
  constructor
  · intro hmem
    by_contra hle
    rw [take_append_of_le_length (not_lt.mp hle)] at hmem
    exact hx (mem_of_mem_take hmem)
  · intro hlt
    rw [take_append, take_of_length_le hlt.le]
    refine mem_append_right _ ?_
    rw [← Nat.succ_pred_eq_of_pos (Nat.sub_pos_of_lt hlt)]
    exact mem_cons_self

end Rank
