import Mathlib.Data.List.Nodup

/-!
# Tables

A list of rows with distinct keys, in the order in which the keys were first inserted. This
is what a `Map` of JavaScript from keys to rows holds if every row is stored under its own
key, and what an SQL table with a primary key holds. The distinctness of the keys is part of
the structure, so each operation has to say that it keeps it.

Results:
1. `get?_eq_some`: a row is found under its key, and nothing else is.
2. `get?_update_self`, `get?_update_ne`: a row that is changed in place.
3. `rows_set_of_not_mem`: a new key goes to the end.
-/

/-- Rows of type `R` stored under the keys `key`. -/
structure Table {R K : Type} (key : R → K) where
  rows : List R
  nodup : (rows.map key).Nodup

namespace Table

open List

variable {R K : Type} {key : R → K}

def empty : Table key := ⟨[], List.nodup_nil⟩

def keys (t : Table key) : List K := t.rows.map key

variable {t : Table key} {k : K} {r : R}

theorem mem_keys : k ∈ t.keys ↔ ∃ r ∈ t.rows, key r = k := by
  simp [keys]

theorem eq_of_key_eq (t : Table key) {r' : R} (hr : r ∈ t.rows) (hr' : r' ∈ t.rows)
    (h : key r = key r') : r = r' :=
  inj_on_of_nodup_map t.nodup hr hr' h

/-- Every row is replaced by one with the same key. -/
def map (t : Table key) (f : R → R) (hf : ∀ r, key (f r) = key r) : Table key where
  rows := t.rows.map f
  nodup := by
    rw [List.map_map, show key ∘ f = key from funext hf]
    exact t.nodup

@[simp] theorem keys_map {f : R → R} {hf : ∀ r, key (f r) = key r} :
    (t.map f hf).keys = t.keys := by
  rw [keys, map, map_map, show key ∘ f = key from funext hf, keys]

def filter (t : Table key) (p : R → Bool) : Table key where
  rows := t.rows.filter p
  nodup := t.nodup.sublist (List.filter_sublist.map key)

theorem rows_filter_subset (t : Table key) (p : R → Bool) : (t.filter p).rows ⊆ t.rows :=
  filter_subset_self t.rows

/-- A row under a new key, behind all others. -/
def push (t : Table key) (r : R) (h : key r ∉ t.keys) : Table key where
  rows := t.rows ++ [r]
  nodup := by
    rw [List.map_append]
    exact List.nodup_append.mpr ⟨t.nodup, List.nodup_singleton _, by
      intro k hk k' hk' heq
      rw [List.map_singleton, List.mem_singleton] at hk'
      exact h (hk' ▸ heq ▸ hk)⟩

variable [DecidableEq K]

def get? (t : Table key) (k : K) : Option R := t.rows.find? fun r => key r = k

theorem get?_eq_some : t.get? k = some r ↔ r ∈ t.rows ∧ key r = k := by
  constructor
  · intro h
    exact ⟨mem_of_find?_eq_some h, by simpa using find?_some h⟩
  · rintro ⟨hr, hk⟩
    cases hf : t.get? k with
    | none =>
      have hnone := find?_eq_none.mp hf r hr
      simp [hk] at hnone
    | some r' =>
      have hr' := mem_of_find?_eq_some hf
      have hk' : key r' = k := by simpa using find?_some hf
      rw [t.eq_of_key_eq hr' hr (hk'.trans hk.symm)]

theorem get?_of_mem (h : r ∈ t.rows) : t.get? (key r) = some r :=
  get?_eq_some.mpr ⟨h, rfl⟩

theorem get?_eq_none : t.get? k = none ↔ k ∉ t.keys := by
  rw [get?, find?_eq_none, mem_keys]
  simp

theorem isSome_get? : (t.get? k).isSome ↔ k ∈ t.keys := by
  rw [← not_iff_not, ← get?_eq_none]
  simp

theorem get?_filter (t : Table key) (p : R → Bool) (k : K) :
    (t.filter p).get? k = t.get? k ∨ (t.filter p).get? k = none := by
  cases h : (t.filter p).get? k with
  | none => exact .inr rfl
  | some r =>
    obtain ⟨hr, hk⟩ := get?_eq_some.mp h
    exact .inl (get?_eq_some.mpr ⟨t.rows_filter_subset p hr, hk⟩).symm

/-- `Map.set`: a row under a key that is there already takes the place of the old one. -/
def set (t : Table key) (r : R) : Table key :=
  if h : key r ∈ t.keys then
    t.map (fun x => if key x = key r then r else x) (by
      intro x
      split
      · next heq => exact heq.symm
      · rfl)
  else t.push r h

theorem rows_set_of_not_mem (h : key r ∉ t.keys) : (t.set r).rows = t.rows ++ [r] := by
  rw [set, dif_neg h, push]

theorem get?_set_self (t : Table key) (r : R) : (t.set r).get? (key r) = some r := by
  by_cases h : key r ∈ t.keys
  · obtain ⟨r₀, hr₀, hk⟩ := mem_keys.mp h
    refine get?_eq_some.mpr ⟨?_, rfl⟩
    rw [set, dif_pos h]
    exact mem_map.mpr ⟨r₀, hr₀, if_pos hk⟩
  · refine get?_eq_some.mpr ⟨?_, rfl⟩
    rw [rows_set_of_not_mem h]
    exact mem_append_right _ mem_cons_self

theorem get?_set_ne (t : Table key) (hne : k ≠ key r) : (t.set r).get? k = t.get? k := by
  refine Option.ext fun x => ?_
  rw [get?_eq_some, get?_eq_some]
  refine and_congr_left fun hx => ?_
  have hx' : key x ≠ key r := hx ▸ hne
  by_cases h : key r ∈ t.keys
  · rw [set, dif_pos h, map, mem_map]
    constructor
    · rintro ⟨y, hy, rfl⟩
      split at hx'
      · exact absurd rfl hx'
      next hk =>
        rw [if_neg hk]
        exact hy
    · exact fun hmem => ⟨x, hmem, if_neg hx'⟩
  · rw [rows_set_of_not_mem h, mem_append, mem_singleton]
    exact or_iff_left fun heq => hx' (congrArg key heq)

theorem rows_foldl_set {l : List R} (h : (t.keys ++ l.map key).Nodup) :
    (l.foldl set t).rows = t.rows ++ l := by
  induction l generalizing t with
  | nil => exact (append_nil _).symm
  | cons r l ih =>
    have hr : key r ∉ t.keys := fun hmem =>
      (nodup_append.mp h).2.2 _ hmem _ mem_cons_self rfl
    have hrows := rows_set_of_not_mem hr
    have hkeys : (t.set r).keys = t.keys ++ [key r] := by
      rw [keys, hrows, map_append, keys, map_singleton]
    rw [foldl_cons, ih, hrows, append_assoc, singleton_append]
    rw [hkeys, append_assoc]
    exact h

/-- The row under a key is changed in place. -/
def update (t : Table key) (k : K) (f : R → R) (hf : ∀ r, key (f r) = key r) : Table key :=
  t.map (fun r => if key r = k then f r else r) (by
    intro r
    split
    · exact hf r
    · rfl)

def erase (t : Table key) (k : K) : Table key := t.filter fun r => key r ≠ k

theorem get?_erase_self (t : Table key) (k : K) : (t.erase k).get? k = none := by
  rw [get?_eq_none, mem_keys]
  rintro ⟨r, hr, hkey⟩
  exact of_decide_eq_true (mem_filter.mp hr).2 hkey

theorem get?_erase_ne (t : Table key) {j : K} (h : j ≠ k) : (t.erase k).get? j = t.get? j := by
  refine Option.ext fun r => ?_
  rw [get?_eq_some, get?_eq_some]
  unfold erase filter
  dsimp only
  rw [mem_filter, decide_eq_true_eq]
  exact ⟨fun ⟨⟨hr, _⟩, hkey⟩ => ⟨hr, hkey⟩, fun ⟨hr, hkey⟩ => ⟨⟨hr, hkey ▸ h⟩, hkey⟩⟩

theorem get?_foldl_erase (t : Table key) (ks : List K) (j : K) :
    (ks.foldl erase t).get? j = if j ∈ ks then none else t.get? j := by
  induction ks generalizing t with
  | nil => simp
  | cons k ks ih =>
    rw [foldl_cons, ih]
    by_cases hj : j = k
    · rw [hj, get?_erase_self, if_pos mem_cons_self, ite_self]
    · rw [get?_erase_ne t hj]
      simp [hj]

theorem mem_keys_of_erase {j : K} (h : j ∈ (t.erase k).keys) : j ∈ t.keys := by
  obtain ⟨r, hr, rfl⟩ := mem_keys.mp h
  exact mem_keys.mpr ⟨r, (mem_filter.mp hr).1, rfl⟩

section Update

variable {t : Table key} {k j : K} {f : R → R} {hf : ∀ r, key (f r) = key r}

@[simp] theorem keys_update : (t.update k f hf).keys = t.keys := keys_map

theorem mem_update {r : R} : r ∈ (t.update k f hf).rows ↔
    (r ∈ t.rows ∧ key r ≠ k) ∨ ∃ r₀ ∈ t.rows, key r₀ = k ∧ r = f r₀ := by
  rw [update, map, mem_map]
  constructor
  · rintro ⟨x, hx, rfl⟩
    split
    · next h => exact .inr ⟨x, hx, h, rfl⟩
    · next h => exact .inl ⟨hx, h⟩
  · rintro (⟨hr, hk⟩ | ⟨x, hx, hk, rfl⟩)
    · exact ⟨r, hr, if_neg hk⟩
    · exact ⟨x, hx, if_pos hk⟩

theorem get?_update_self : (t.update k f hf).get? k = (t.get? k).map f := by
  cases h : t.get? k with
  | none => exact get?_eq_none.mpr (by rw [keys_update]; exact get?_eq_none.mp h)
  | some r =>
    obtain ⟨hr, hk⟩ := get?_eq_some.mp h
    exact get?_eq_some.mpr ⟨mem_update.mpr (.inr ⟨r, hr, hk, rfl⟩), (hf r).trans hk⟩

theorem get?_update_ne (h : j ≠ k) : (t.update k f hf).get? j = t.get? j := by
  refine Option.ext fun r => ?_
  simp only [get?_eq_some, mem_update]
  constructor
  · rintro ⟨⟨hr, _⟩ | ⟨x, _, hk, rfl⟩, hj⟩
    · exact ⟨hr, hj⟩
    · exact absurd (hj.symm.trans ((hf x).trans hk)) h
  · rintro ⟨hr, hj⟩
    exact ⟨.inl ⟨hr, hj ▸ h⟩, hj⟩

end Update

end Table
