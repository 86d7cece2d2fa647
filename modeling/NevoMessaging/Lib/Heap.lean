import Mathlib.Data.List.Perm.Basic
import Mathlib.Order.Nat

/-!
# Binary min-heaps

A list in the layout of a binary tree: the children of the entry at `i` are at `2 * i + 1` and
`2 * i + 2`. An entry that is out of order is sifted up or down by swapping it with its parent or
with its smallest child. The operations only ask how two keys compare, so they are defined for every
type that can be compared; that they keep the order needs keys that are in a linear one (`Linear`).

Results:
1. `siftUp_ordered`, `siftDown_ordered`: a sift repairs the order around one entry.
2. `push_perm`, `pop?_perm`: a push adds the entry, and a pop takes one out.
3. `push_ordered`, `pop?_spec`: they keep the order, and a pop takes a smallest entry out.
-/

set_option linter.unusedSectionVars false

namespace Heap

open List

variable {α β : Type}

section Operations

variable [LE β] [LT β] [DecidableLE β] [DecidableLT β] (key : α → β)

def swap (l : List α) (i j : Nat) : List α :=
  match l[i]?, l[j]? with
  | some x, some y => (l.set i y).set j x
  | _, _ => l

/-- The `fuel` is at least `i`, which gets smaller in every turn. -/
def siftUp : (fuel : Nat) → List α → Nat → List α
  | 0, l, _ => l
  | fuel + 1, l, i =>
    if i = 0 then l
    else
      let parent := (i - 1) / 2
      match l[parent]?, l[i]? with
      | some p, some x => if key p ≤ key x then l else siftUp fuel (swap l parent i) parent
      | _, _ => l

/-- `j` if there is an entry at `j` and it is less than the one at `i`, and `i` otherwise. -/
def smaller (l : List α) (i j : Nat) : Nat :=
  match l[i]?, l[j]? with
  | some x, some y => if key y < key x then j else i
  | _, _ => i

/-- The `fuel` is at least the number of entries behind `i`. -/
def siftDown : (fuel : Nat) → List α → Nat → List α
  | 0, l, _ => l
  | fuel + 1, l, i =>
    let left := 2 * i + 1
    let right := left + 1
    let smallest := smaller key l (smaller key l i left) right
    if smallest = i then l else siftDown fuel (swap l smallest i) smallest

def push (l : List α) (x : α) : List α := siftUp key l.length (l ++ [x]) l.length

/-- The last entry is put in the place of the first one and sifted down. -/
def pop? : List α → Option (α × List α)
  | [] => none
  | top :: rest =>
    match rest.getLast? with
    | none => some (top, [])
    | some last => some (top, siftDown key rest.length (last :: rest.dropLast) 0)

end Operations

def Child (p c : Nat) : Prop := c = 2 * p + 1 ∨ c = 2 * p + 2

/-- The entries of the edges that `on` selects are in order. -/
def OrderedOn [LE β] (key : α → β) (on : Nat → Nat → Prop) (l : List α) : Prop :=
  ∀ p c x y, Child p c → on p c → l[p]? = some x → l[c]? = some y → key x ≤ key y

def Ordered [LE β] (key : α → β) (l : List α) : Prop := OrderedOn key (fun _ _ => True) l

/-- The keys of the entries compare as in a linear order. -/
structure Linear [LE β] [LT β] (key : α → β) (l : List α) : Prop where
  trans : ∀ {x y z : α}, key x ≤ key y → key y ≤ key z → key x ≤ key z
  le_of_lt : ∀ {x y : α}, key x < key y → key x ≤ key y
  le_of_not_lt : ∀ {x y : α}, x ∈ l → y ∈ l → ¬ key y < key x → key x ≤ key y

/-- The parent of `i` may be put in the place of `i`. -/
def Bridged [LE β] (key : α → β) (l : List α) (i : Nat) : Prop :=
  ∀ p c x y, Child p i → Child i c → l[p]? = some x → l[c]? = some y → key x ≤ key y

/-! ## Swapping -/

section Swap

variable {l : List α} {i j : Nat} {x y : α}

theorem lt_length (hi : l[i]? = some x) : i < l.length := (List.getElem?_eq_some_iff.mp hi).1

theorem getElem?_swap (hi : l[i]? = some x) (hj : l[j]? = some y) (hne : i ≠ j) :
    (swap l i j)[i]? = some y ∧ (swap l i j)[j]? = some x ∧
      ∀ k, k ≠ i → k ≠ j → (swap l i j)[k]? = l[k]? := by
  have hswap : swap l i j = (l.set i y).set j x := by
    unfold swap
    rw [hi, hj]
  rw [hswap]
  refine ⟨?_, ?_, fun k hki hkj => ?_⟩
  · rw [getElem?_set_ne hne.symm, getElem?_set_self (lt_length hi)]
  · rw [getElem?_set_self (by rw [length_set]; exact lt_length hj)]
  · rw [getElem?_set_ne hkj.symm, getElem?_set_ne hki.symm]

theorem swap_perm (l : List α) (i j : Nat) : (swap l i j).Perm l := by
  unfold swap
  split
  next x y hi hj =>
    obtain ⟨hilt, rfl⟩ := List.getElem?_eq_some_iff.mp hi
    obtain ⟨hjlt, rfl⟩ := List.getElem?_eq_some_iff.mp hj
    exact set_set_perm hilt hjlt
  · exact List.Perm.refl l

end Swap

theorem child_lt {p c : Nat} (h : Child p c) : p < c := by
  unfold Child at h
  omega

theorem child_parent {i : Nat} (h : i ≠ 0) : Child ((i - 1) / 2) i := by
  unfold Child
  omega

theorem child_unique {p p' c : Nat} (h : Child p c) (h' : Child p' c) : p = p' := by
  unfold Child at h h'
  omega

section Order

variable [LE β] [LT β] [DecidableLE β] [DecidableLT β] {key : α → β} {l l' : List α} {x y : α}

theorem Linear.subset (h : Linear key l) (hsub : l' ⊆ l) : Linear key l' :=
  ⟨h.trans, h.le_of_lt, fun hx hy => h.le_of_not_lt (hsub hx) (hsub hy)⟩

theorem Linear.le_of_not_le (h : Linear key l) (hx : x ∈ l) (hy : y ∈ l) (hnot : ¬ key x ≤ key y) :
    key y ≤ key x :=
  h.le_of_lt (not_not.mp fun hlt => hnot (h.le_of_not_lt hx hy hlt))

theorem Linear.le_refl (h : Linear key l) (hx : x ∈ l) : key x ≤ key x :=
  not_not.mp fun hnot => hnot (h.le_of_not_le hx hx hnot)

theorem OrderedOn.ordered {on : Nat → Nat → Prop} (hord : OrderedOn key on l)
    (hopen : ∀ p c u v, Child p c → ¬ on p c → l[p]? = some u → l[c]? = some v →
      key u ≤ key v) : Ordered key l := by
  intro p c u v hp _ hu hv
  by_cases hon : on p c
  · exact hord p c u v hp hon hu hv
  · exact hopen p c u v hp hon hu hv

theorem OrderedOn.ordered_of_root (hord : OrderedOn key (fun _ c => c ≠ 0) l) : Ordered key l := by
  refine hord.ordered fun p c _ _ hp hc => ?_
  have hlt := child_lt hp
  omega

/-! ## Sifting up -/

section Up

variable {i p : Nat} {a : α}

theorem swap_up (hlin : Linear key l) (hp : Child p i) (hpa : l[p]? = some a)
    (hix : l[i]? = some x) (hle : key x ≤ key a) (hord : OrderedOn key (fun _ c => c ≠ i) l)
    (hbr : Bridged key l i) :
    OrderedOn key (fun _ c => c ≠ p) (swap l p i) ∧ Bridged key (swap l p i) p := by
  have hpi : p ≠ i := (child_lt hp).ne
  obtain ⟨hself, hother, hrest⟩ := getElem?_swap hpa hix hpi
  refine ⟨fun q c u v hq hc hu hv => ?_, fun g c u v hg hc hu hv => ?_⟩
  · by_cases hci : c = i
    · obtain rfl := hci
      obtain rfl := child_unique hq hp
      cases hself.symm.trans hu
      cases hother.symm.trans hv
      exact hle
    · rw [hrest c hc hci] at hv
      by_cases hqp : q = p
      · obtain rfl := hqp
        cases hself.symm.trans hu
        exact hlin.trans hle (hord q c a v hq hci hpa hv)
      · by_cases hqi : q = i
        · obtain rfl := hqi
          cases hother.symm.trans hu
          exact hbr p c a v hp hq hpa hv
        · rw [hrest q hqp hqi] at hu
          exact hord q c u v hq hci hu hv
  · have hgp : g < p := child_lt hg
    rw [hrest g hgp.ne (hgp.trans (child_lt hp)).ne] at hu
    have hup : key u ≤ key a := hord g p u a hg hpi hu hpa
    by_cases hci : c = i
    · obtain rfl := hci
      cases hother.symm.trans hv
      exact hup
    · rw [hrest c (child_lt hc).ne' hci] at hv
      exact hlin.trans hup (hord p c a v hc hci hpa hv)

theorem siftUp_ordered {fuel : Nat} (hlin : Linear key l) (hfuel : i ≤ fuel)
    (hord : OrderedOn key (fun _ c => c ≠ i) l) (hbr : Bridged key l i) :
    Ordered key (siftUp key fuel l i) := by
  induction fuel generalizing l i with
  | zero =>
    obtain rfl := Nat.le_zero.mp hfuel
    exact hord.ordered_of_root
  | succ fuel ih =>
    rw [siftUp]
    split
    next hi =>
      subst hi
      exact hord.ordered_of_root
    next hi =>
      have hp := child_parent hi
      dsimp only
      split
      next a x hpa hix =>
        split
        next hle =>
          -- the one edge that was open is in order
          refine hord.ordered fun q c u v hq hc hu hv => ?_
          obtain rfl := not_not.mp hc
          obtain rfl := child_unique hq hp
          cases hpa.symm.trans hu
          cases hix.symm.trans hv
          exact hle
        next hgt =>
          have hle := hlin.le_of_not_le (mem_of_getElem? hpa) (mem_of_getElem? hix) hgt
          obtain ⟨hord', hbr'⟩ := swap_up hlin hp hpa hix hle hord hbr
          have hlt := child_lt hp
          exact ih (hlin.subset (swap_perm l _ i).subset) (by omega) hord' hbr'
      next hnone =>
        refine hord.ordered fun q c u v hq hc hu hv => ?_
        obtain rfl := not_not.mp hc
        obtain rfl := child_unique hq hp
        exact absurd hv (hnone _ _ hu)

end Up

/-! ## Sifting down -/

section Down

variable {i s : Nat} {z : α}

theorem smaller_spec (hlin : Linear key l) (hix : l[i]? = some x) (j : Nat) :
    ∃ z, l[smaller key l i j]? = some z ∧ key z ≤ key x ∧
      (∀ y, l[j]? = some y → key z ≤ key y) ∧
      (smaller key l i j = i ∨ smaller key l i j = j) := by
  have hx := mem_of_getElem? hix
  unfold smaller
  simp only [hix]
  cases hj : l[j]? with
  | none => exact ⟨x, hix, hlin.le_refl hx, nofun, .inl rfl⟩
  | some y =>
    have hy := mem_of_getElem? hj
    dsimp only
    split
    next hlt =>
      refine ⟨y, hj, hlin.le_of_lt hlt, ?_, .inr rfl⟩
      rintro _ ⟨rfl⟩
      exact hlin.le_refl hy
    next hnot =>
      refine ⟨x, hix, hlin.le_refl hx, ?_, .inl rfl⟩
      rintro _ ⟨rfl⟩
      exact hlin.le_of_not_lt hx hy hnot

theorem smallest_spec (hlin : Linear key l) (hix : l[i]? = some x) :
    ∃ z, l[smaller key l (smaller key l i (2 * i + 1)) (2 * i + 1 + 1)]? = some z ∧
      key z ≤ key x ∧ (∀ c y, Child i c → l[c]? = some y → key z ≤ key y) ∧
      (smaller key l (smaller key l i (2 * i + 1)) (2 * i + 1 + 1) = i ∨
        Child i (smaller key l (smaller key l i (2 * i + 1)) (2 * i + 1 + 1))) := by
  obtain ⟨u, hu, hux, hleft, hpos⟩ := smaller_spec hlin hix (2 * i + 1)
  obtain ⟨z, hz, hzu, hright, hpos'⟩ := smaller_spec hlin hu (2 * i + 1 + 1)
  refine ⟨z, hz, hlin.trans hzu hux, ?_, ?_⟩
  · rintro c y (rfl | rfl) hc
    · exact hlin.trans hzu (hleft y hc)
    · exact hright y hc
  · rcases hpos' with hsame | hnew
    · rw [hsame]
      exact hpos.imp_right .inl
    · exact .inr (.inr hnew)

theorem swap_down (hs : Child i s) (hsz : l[s]? = some z) (hix : l[i]? = some x)
    (hle : key z ≤ key x) (hmin : ∀ c y, Child i c → l[c]? = some y → key z ≤ key y)
    (hord : OrderedOn key (fun p _ => p ≠ i) l) (hbr : Bridged key l i) :
    OrderedOn key (fun p _ => p ≠ s) (swap l s i) ∧ Bridged key (swap l s i) s := by
  have hsi : s ≠ i := (child_lt hs).ne'
  obtain ⟨hself, hother, hrest⟩ := getElem?_swap hsz hix hsi
  refine ⟨fun p c u v hp hps hu hv => ?_, fun g c u v hg hc hu hv => ?_⟩
  · by_cases hpi : p = i
    · obtain rfl := hpi
      cases hother.symm.trans hu
      by_cases hcs : c = s
      · obtain rfl := hcs
        cases hself.symm.trans hv
        exact hle
      · rw [hrest c hcs (child_lt hp).ne'] at hv
        exact hmin c v hp hv
    · rw [hrest p hps hpi] at hu
      have hcs : c ≠ s := fun heq => hpi (child_unique (heq ▸ hp) hs)
      by_cases hci : c = i
      · obtain rfl := hci
        cases hother.symm.trans hv
        exact hbr p s u z hp hs hu hsz
      · rw [hrest c hcs hci] at hv
        exact hord p c u v hp hpi hu hv
  · obtain rfl := child_unique hg hs
    cases hother.symm.trans hu
    have hcs : s < c := child_lt hc
    rw [hrest c hcs.ne' ((child_lt hs).trans hcs).ne'] at hv
    exact hord s c z v hc hsi hsz hv

theorem siftDown_ordered {fuel : Nat} (hlin : Linear key l) (hfuel : l.length ≤ i + fuel)
    (hord : OrderedOn key (fun p _ => p ≠ i) l) (hbr : Bridged key l i) :
    Ordered key (siftDown key fuel l i) := by
  induction fuel generalizing l i with
  | zero =>
    refine hord.ordered fun p c u v _ hp hu _ => ?_
    have hlt := lt_length hu
    omega
  | succ fuel ih =>
    rw [siftDown]
    cases hi : l[i]? with
    | none =>
      have hsame : smaller key l (smaller key l i (2 * i + 1)) (2 * i + 1 + 1) = i := by
        simp only [smaller, hi]
      rw [if_pos hsame]
      refine hord.ordered fun p c u v _ hp hu _ => ?_
      obtain rfl := not_not.mp hp
      cases hi.symm.trans hu
    | some x =>
      obtain ⟨z, hz, hzx, hmin, hpos⟩ := smallest_spec hlin hi
      split
      next hsame =>
        rw [hsame] at hz
        refine hord.ordered fun p c u v hc hp hu hv => ?_
        obtain rfl := not_not.mp hp
        cases hz.symm.trans hu
        exact hmin c v hc hv
      next hne =>
        have hchild := hpos.resolve_left hne
        obtain ⟨hord', hbr'⟩ := swap_down hchild hz hi hzx hmin hord hbr
        have hlt := child_lt hchild
        have hperm := swap_perm l (smaller key l (smaller key l i (2 * i + 1)) (2 * i + 1 + 1)) i
        exact ih (hlin.subset hperm.subset) (by rw [hperm.length_eq]; omega) hord' hbr'

end Down

theorem Ordered.root_le (h : Ordered key l) (hlin : Linear key l) (hx : l[0]? = some x) {i : Nat}
    (hy : l[i]? = some y) : key x ≤ key y := by
  induction i using Nat.strong_induction_on generalizing y with
  | _ i ih =>
    by_cases hi : i = 0
    · obtain rfl := hi
      cases hx.symm.trans hy
      exact hlin.le_refl (mem_of_getElem? hx)
    · have hp := child_parent hi
      have hget := getElem?_eq_getElem ((child_lt hp).trans (lt_length hy))
      exact hlin.trans (ih _ (child_lt hp) hget) (h _ i _ y hp trivial hget hy)

/-! ## The operations -/

theorem siftUp_perm (fuel : Nat) (l : List α) (i : Nat) : (siftUp key fuel l i).Perm l := by
  induction fuel generalizing l i with
  | zero => exact List.Perm.refl l
  | succ fuel ih =>
    rw [siftUp]
    split
    · exact List.Perm.refl l
    · dsimp only
      split
      · split
        · exact List.Perm.refl l
        · exact (ih _ _).trans (swap_perm l _ i)
      · exact List.Perm.refl l

theorem siftDown_perm (fuel : Nat) (l : List α) (i : Nat) : (siftDown key fuel l i).Perm l := by
  induction fuel generalizing l i with
  | zero => exact List.Perm.refl l
  | succ fuel ih =>
    rw [siftDown]
    split
    · exact List.Perm.refl l
    · exact (ih _ _).trans (swap_perm l _ i)

theorem push_perm (l : List α) (x : α) : (push key l x).Perm (x :: l) :=
  (siftUp_perm _ _ _).trans (perm_append_singleton x l)

variable (key) in
theorem pop?_cons (top : α) (rest : List α) : ∃ l, pop? key (top :: rest) = some (top, l) := by
  rw [pop?]
  split <;> exact ⟨_, rfl⟩

theorem last_perm {last : α} (hlast : l.getLast? = some last) : (last :: l.dropLast).Perm l := by
  have hperm := (perm_append_singleton last l.dropLast).symm
  rwa [dropLast_append_getLast? last hlast] at hperm

theorem pop?_perm (h : pop? key l = some (x, l')) : (x :: l').Perm l := by
  cases l with
  | nil => cases h
  | cons top rest =>
    rw [pop?] at h
    split at h
    next hlast =>
      cases h
      rw [getLast?_eq_none_iff.mp hlast]
    next last hlast =>
      cases h
      exact ((siftDown_perm _ _ _).trans (last_perm hlast)).cons _

theorem push_ordered (hlin : Linear key (x :: l)) (h : Ordered key l) :
    Ordered key (push key l x) := by
  refine siftUp_ordered (hlin.subset (perm_append_singleton x l).subset) le_rfl
    (fun p c u v hp hc hu hv => ?_) fun p c u v _ hc _ hv => ?_
  · have hclt : c < l.length := by
      have hlt := lt_length hv
      rw [length_append, length_singleton] at hlt
      omega
    rw [getElem?_append_left hclt] at hv
    rw [getElem?_append_left ((child_lt hp).trans hclt)] at hu
    exact h p c u v hp trivial hu hv
  · have hlt := lt_length hv
    have hgt := child_lt hc
    rw [length_append, length_singleton] at hlt
    omega

theorem ordered_moved {a last : α} (h : Ordered key (a :: (l ++ [last]))) :
    OrderedOn key (fun p _ => p ≠ 0) (last :: l) ∧ Bridged key (last :: l) 0 := by
  have hget {i : Nat} {y : α} (hi : i ≠ 0) (hy : (last :: l)[i]? = some y) :
      (a :: (l ++ [last]))[i]? = some y := by
    obtain ⟨i, rfl⟩ := Nat.exists_eq_succ_of_ne_zero hi
    rw [getElem?_cons_succ] at hy ⊢
    rw [getElem?_append_left (lt_length hy)]
    exact hy
  refine ⟨fun p c u v hp hne hu hv => ?_, fun p c u v hp => ?_⟩
  · exact h p c u v hp trivial (hget hne hu) (hget (by have := child_lt hp; omega) hv)
  · have hlt := child_lt hp
    omega

theorem pop?_spec (hlin : Linear key l) (hord : Ordered key l)
    (h : pop? key l = some (x, l')) : Ordered key l' ∧ ∀ y ∈ l, key x ≤ key y := by
  cases l with
  | nil => cases h
  | cons top rest =>
    have hmin : ∀ y ∈ top :: rest, key top ≤ key y := fun y hy => by
      obtain ⟨i, hi⟩ := mem_iff_getElem?.mp hy
      exact hord.root_le hlin (getElem?_cons_zero ..) hi
    rw [pop?] at h
    split at h
    · cases h
      exact ⟨fun _ _ _ _ _ _ hu => by simp at hu, hmin⟩
    next last hlast =>
      cases h
      have hperm := last_perm hlast
      obtain ⟨hord', hbr⟩ := ordered_moved ((dropLast_append_getLast? last hlast).symm ▸ hord)
      refine ⟨siftDown_ordered (hlin.subset fun y hy => mem_cons_of_mem _ (hperm.subset hy)) ?_
        hord' hbr, hmin⟩
      rw [hperm.length_eq, Nat.zero_add]

end Order

end Heap
