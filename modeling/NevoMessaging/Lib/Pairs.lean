import Mathlib.Data.List.Nodup

/-!
# The order of two entries of a list

`[q, r].Sublist l` says that `q` stands in front of `r` in `l`. For a list without repetitions
this is a strict order on its entries.
-/

namespace Pairs

open List

variable {α : Type} {q r x : α} {l l₁ l₂ : List α}

theorem of_cons (h : [q, r].Sublist (x :: l)) : [q, r].Sublist l ∨ (q = x ∧ r ∈ l) := by
  cases h with
  | cons _ h => exact .inl h
  | cons_cons _ h => exact .inr ⟨rfl, singleton_sublist.mp h⟩

theorem total (hq : q ∈ l) (hr : r ∈ l) (hne : q ≠ r) :
    [q, r].Sublist l ∨ [r, q].Sublist l := by
  induction l with
  | nil => cases hq
  | cons x l ih =>
    rcases mem_cons.mp hq with rfl | hq'
    · have hr' := (mem_cons.mp hr).resolve_left (Ne.symm hne)
      exact .inl ((singleton_sublist.mpr hr').cons_cons q)
    · rcases mem_cons.mp hr with rfl | hr'
      · exact .inr ((singleton_sublist.mpr hq').cons_cons r)
      · exact (ih hq' hr').imp (·.cons x) (·.cons x)

theorem asymm (hd : l.Nodup) (hqr : [q, r].Sublist l) (hrq : [r, q].Sublist l) : False := by
  induction l with
  | nil => cases hqr
  | cons x l ih =>
    obtain ⟨hx, hl⟩ := nodup_cons.mp hd
    rcases of_cons hqr with hqr' | ⟨rfl, hr⟩
    · rcases of_cons hrq with hrq' | ⟨rfl, -⟩
      · exact ih hl hqr' hrq'
      · exact hx (hqr'.subset (by simp))
    · rcases of_cons hrq with hrq' | ⟨rfl, -⟩
      · exact hx (hrq'.subset (by simp))
      · exact hx hr

theorem mem_left (hd : (l₁ ++ r :: l₂).Nodup) (h : [q, r].Sublist (l₁ ++ r :: l₂)) : q ∈ l₁ := by
  induction l₁ with
  | nil =>
    have hr := (nodup_cons.mp hd).1
    rcases of_cons h with h' | ⟨-, h'⟩
    · exact absurd (h'.subset (by simp)) hr
    · exact absurd h' hr
  | cons x l₁ ih =>
    rcases of_cons h with h' | ⟨rfl, -⟩
    · exact mem_cons_of_mem x (ih (nodup_cons.mp hd).2 h')
    · exact mem_cons_self

end Pairs
