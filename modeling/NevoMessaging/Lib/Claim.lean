import Mathlib.Data.List.Perm.Subperm
import Mathlib.Data.Set.Insert

/-!
# A cell that is claimed before it is written

Callers share a cell. A caller claims it by putting a mark into it while it is empty, and gives the
claim up by sending one write, of a value or of nothing. The write arrives later, or never.

`Next` is what may happen to the cell in one step. `Custody` holds in every run of such steps: the
mark has one owner, a caller or a write on its way, and once a value was sent nobody owns it again.

Results:
1. `Custody.next`: the invariant of a step.
2. `Next.settled`: a value that has arrived is never overwritten and never erased.
-/

/-- The callers that own the mark, the writes on their way (`none` erases), the content, and whether
a value was ever sent. -/
structure ClaimCell (C V : Type) where
  owner : Set C
  pending : List (Option V)
  value : Option V
  sent : Prop

namespace ClaimCell

open List

variable {C V : Type} {mark v : V} {s s' : ClaimCell C V}

/-- Writes may get lost in any step. -/
inductive Next (mark : V) (s s' : ClaimCell C V) : Prop
  | keep : s'.owner ⊆ s.owner → s'.pending.Subperm s.pending → s'.value = s.value →
      (s'.sent → s.sent) → Next mark s s'
  | claim (c : C) : s.value = none → s'.owner ⊆ insert c s.owner → s'.pending = s.pending →
      s'.value = some mark → (s'.sent → s.sent) → Next mark s s'
  | give (c : C) (w : Option V) : c ∈ s.owner → s'.owner ⊆ s.owner \ {c} →
      s'.pending.Subperm (s.pending ++ [w]) → s'.value = s.value →
      (s'.sent → s.sent ∨ w ≠ none) → Next mark s s'
  | arrive : s.pending.Perm (s'.value :: s'.pending) → s'.owner ⊆ s.owner → (s'.sent → s.sent) →
      Next mark s s'

structure Custody (mark : V) (s : ClaimCell C V) : Prop where
  owned : ∀ c ∈ s.owner, s.value = some mark ∧ s.pending = [] ∧ ∀ d ∈ s.owner, d = c
  underway : ∀ w ∈ s.pending, s.value = some mark ∧ s.owner = ∅ ∧ s.pending = [w]
  sent : s.sent → s.owner = ∅ ∧ s.value ≠ none ∧ none ∉ s.pending

namespace Custody

theorem eq_nil_of_value (h : Custody mark s) (hvalue : s.value ≠ some mark) : s.pending = [] :=
  eq_nil_iff_forall_not_mem.mpr fun w hw => hvalue (h.underway w hw).1

theorem owner_of_value (h : Custody mark s) (hvalue : s.value ≠ some mark) : s.owner = ∅ :=
  Set.eq_empty_iff_forall_notMem.mpr fun c hc => hvalue (h.owned c hc).1

theorem free (howner : s.owner = ∅) (hpending : s.pending = []) (hsent : s.sent → s.value ≠ none) :
    Custody mark s where
  owned c hc := absurd hc (howner ▸ Set.notMem_empty c)
  underway w hw := absurd hw (hpending ▸ not_mem_nil)
  sent hs := ⟨howner, hsent hs, hpending ▸ not_mem_nil⟩

theorem eq_singleton_of_subperm {l : List (Option V)} {w : Option V} (h : l.Subperm [w])
    {u : Option V} (hu : u ∈ l) : u = w ∧ l = [u] := by
  obtain rfl := mem_singleton.mp (h.subset hu)
  exact ⟨rfl, (perm_singleton.mp (h.perm_of_length_le (length_pos_of_mem hu)))⟩

theorem next (h : Custody mark s) (hn : Next mark s s') : Custody mark s' := by
  cases hn with
  | keep howner hpending hvalue hsent =>
    refine ⟨fun c hc => ?_, fun w hw => ?_, fun hs => ?_⟩
    · obtain ⟨hmark, hnil, hsole⟩ := h.owned c (howner hc)
      rw [hnil] at hpending
      exact ⟨hvalue.trans hmark, subperm_nil.mp hpending, fun d hd => hsole d (howner hd)⟩
    · obtain ⟨hmark, hempty, hsole⟩ := h.underway w (hpending.subset hw)
      rw [hsole] at hpending
      exact ⟨hvalue.trans hmark, Set.subset_eq_empty howner hempty,
        (eq_singleton_of_subperm hpending hw).2⟩
    · obtain ⟨hempty, hvalue', hno⟩ := h.sent (hsent hs)
      exact ⟨Set.subset_eq_empty howner hempty, hvalue ▸ hvalue',
        fun hw => hno (hpending.subset hw)⟩
  | claim c hvalue howner hpending hvalue' hsent =>
    -- the cell is empty, so nobody owns it
    have hne : s.value ≠ some mark := by rw [hvalue]; exact (Option.some_ne_none mark).symm
    rw [h.owner_of_value hne] at howner
    rw [h.eq_nil_of_value hne] at hpending
    refine ⟨fun d hd => ⟨hvalue', hpending, fun e he => ?_⟩, fun w hw => ?_, fun hs => ?_⟩
    · have hd' : d = c := by simpa using howner hd
      have he' : e = c := by simpa using howner he
      rw [hd', he']
    · exact absurd hw (hpending ▸ not_mem_nil)
    · exact absurd hvalue (h.sent (hsent hs)).2.1
  | give c w hc howner hpending hvalue hsent =>
    -- the owner gives its claim up, and its write is the only one on its way
    obtain ⟨hmark, hnil, hsole⟩ := h.owned c hc
    rw [hnil, nil_append] at hpending
    have hempty : s'.owner = ∅ :=
      Set.eq_empty_iff_forall_notMem.mpr fun d hd => (howner hd).2 (hsole d (howner hd).1)
    refine ⟨fun d hd => absurd hd (hempty ▸ Set.notMem_empty d), fun u hu => ?_, fun hs => ?_⟩
    · exact ⟨hvalue.trans hmark, hempty, (eq_singleton_of_subperm hpending hu).2⟩
    · refine ⟨hempty, by rw [hvalue, hmark]; exact Option.some_ne_none mark, fun hnone => ?_⟩
      rcases hsent hs with hold | hw
      · rw [(h.sent hold).1] at hc
        exact hc
      · exact hw (eq_singleton_of_subperm hpending hnone).1.symm
  | arrive hpending howner hsent =>
    have hmem : s'.value ∈ s.pending := hpending.mem_iff.mpr mem_cons_self
    obtain ⟨-, hempty, hsole⟩ := h.underway _ hmem
    rw [hsole] at hpending
    refine free (Set.subset_eq_empty howner hempty) ?_ fun hs hvalue => ?_
    · exact (cons.inj (perm_singleton.mp hpending.symm)).2
    · exact (h.sent (hsent hs)).2.2 (hvalue ▸ hmem)

end Custody

theorem Next.settled (hn : Next mark s s') (h : Custody mark s) (hvalue : s.value = some v)
    (hne : v ≠ mark) : s'.value = some v ∧ s.owner = ∅ := by
  have hvalue' : s.value ≠ some mark := by
    rw [hvalue]
    exact fun heq => hne (Option.some.inj heq)
  have hempty := h.owner_of_value hvalue'
  refine ⟨?_, hempty⟩
  cases hn with
  | keep _ _ hsame _ => exact hsame.trans hvalue
  | claim c hnone => cases hnone.symm.trans hvalue
  | give c w hc => exact absurd hc (hempty ▸ Set.notMem_empty c)
  | arrive hpending =>
    rw [h.eq_nil_of_value hvalue'] at hpending
    exact absurd hpending.symm (not_perm_cons_nil)

end ClaimCell
