import Mathlib.Algebra.Order.Group.Int
import Mathlib.Data.List.Nodup
import NevoMessaging.Lib.JsString

/-!
# LruIdempotencyCache

The map and the linked list of the source are one list here, from the head (the node that was used
last) to the tail. A node leaves the cache when a lookup finds it expired, when the cache is full,
or when its key is deleted.

`set` first detaches the buffers of the value, which writes into the value and throws if it is not
allowed to; `frozen` tells for which values it does. `Date.now()` is the argument `now`.

Results:
1. `of_find?_get`, `of_find?_set`: every entry is one that was written, under its key.
2. `isSome_get`: a lookup returns the entry that it leaves in the cache.
-/

namespace NevoMessaging

open List

variable {T : Type}

structure CacheNode (T : Type) where
  key : JsString
  value : T
  expiresAt : Int

structure IdempotencyOptions where
  enabled : Option Bool := none
  maxEntries : Option Int := none
  ttlMs : Option Int := none

structure LruIdempotencyCache (T : Type) where
  nodes : List (CacheNode T)
  maxEntries : Int
  ttlMs : Int
  enabled : Bool
  nodup : (nodes.map CacheNode.key).Nodup

namespace LruIdempotencyCache

def create (opts : IdempotencyOptions) : LruIdempotencyCache T where
  nodes := []
  maxEntries := opts.maxEntries.getD 10000
  ttlMs := opts.ttlMs.getD (5 * 60000)
  enabled := opts.enabled ≠ some false
  nodup := List.nodup_nil

def find? (c : LruIdempotencyCache T) (key : JsString) : Option (CacheNode T) :=
  c.nodes.find? (·.key = key)

/-- The nodes with other keys. -/
def others (c : LruIdempotencyCache T) (key : JsString) : List (CacheNode T) :=
  c.nodes.filter (·.key ≠ key)

theorem key_not_mem_others (c : LruIdempotencyCache T) (key : JsString) :
    key ∉ (c.others key).map CacheNode.key := by
  intro h
  obtain ⟨n, hn, hkey⟩ := mem_map.mp h
  exact of_decide_eq_true (mem_filter.mp hn).2 hkey

theorem nodup_others (c : LruIdempotencyCache T) (key : JsString) :
    ((c.others key).map CacheNode.key).Nodup :=
  c.nodup.sublist (filter_sublist.map _)

def delete (c : LruIdempotencyCache T) (key : JsString) : LruIdempotencyCache T :=
  { c with nodes := c.others key, nodup := c.nodup_others key }

/-- The node is written at the head, in place of the one with its key. -/
def putHead (c : LruIdempotencyCache T) (n : CacheNode T) : LruIdempotencyCache T :=
  { c with
    nodes := n :: c.others n.key
    nodup := List.nodup_cons.mpr ⟨c.key_not_mem_others n.key, c.nodup_others n.key⟩ }

def dropTail (c : LruIdempotencyCache T) : LruIdempotencyCache T :=
  { c with
    nodes := c.nodes.dropLast
    nodup := c.nodup.sublist ((List.dropLast_sublist _).map _) }

def get (c : LruIdempotencyCache T) (key : JsString) (now : Int) :
    Option T × LruIdempotencyCache T :=
  if c.enabled then
    match c.find? key with
    | none => (none, c)
    | some n =>
      if n.expiresAt < now then (none, c.delete key)
      else (some n.value, c.putHead n)
  else (none, c)

def has (c : LruIdempotencyCache T) (key : JsString) (now : Int) : Bool × LruIdempotencyCache T :=
  let (value, c) := c.get key now
  (value.isSome, c)

/-- The write of `set`, with the buffers detached. -/
def put (c : LruIdempotencyCache T) (key : JsString) (value : T) (now : Int) :
    LruIdempotencyCache T :=
  let c' := c.putHead { key, value, expiresAt := now + c.ttlMs }
  if (c.find? key).isNone && c.maxEntries < c'.nodes.length then c'.dropTail else c'

/-- There is no new cache if the value cannot be written into. -/
def set (frozen : T → Bool) (c : LruIdempotencyCache T) (key : JsString) (value : T) (now : Int) :
    Option (LruIdempotencyCache T) :=
  if c.enabled then if frozen value then none else some (c.put key value now)
  else some c

/-! ## Entries -/

section Entries

variable {c c' : LruIdempotencyCache T} {key k : JsString} {n : CacheNode T} {value : T} {now : Int}

theorem key_of_find? (h : c.find? key = some n) : n.key = key :=
  of_decide_eq_true (find?_some (p := fun n : CacheNode T => n.key = key) h)

theorem find?_others_ne (h : k ≠ key) :
    (c.others key).find? (·.key = k) = c.find? k := by
  unfold others find?
  rw [find?_filter]
  congr 1
  funext n
  by_cases hn : n.key = k
  · simp [hn, h]
  · simp [hn]

theorem find?_delete_self : (c.delete key).find? key = none := by
  unfold find?
  refine find?_eq_none.mpr fun n hn => ?_
  rw [decide_eq_true_eq]
  exact fun hkey => c.key_not_mem_others key (mem_map.mpr ⟨n, hn, hkey⟩)

theorem find?_delete_ne (h : k ≠ key) : (c.delete key).find? k = c.find? k := find?_others_ne h

theorem find?_putHead : (c.putHead n).find? k = if k = n.key then some n else c.find? k := by
  show (n :: c.others n.key).find? (·.key = k) = _
  by_cases hk : k = n.key
  · rw [if_pos hk, find?_cons_of_pos (by simpa using hk.symm)]
  · rw [if_neg hk, find?_cons_of_neg (by simpa using fun h => hk h.symm)]
    exact find?_others_ne hk

theorem of_find?_delete (h : (c.delete key).find? k = some n) : c.find? k = some n := by
  by_cases hk : k = key
  · rw [hk, find?_delete_self] at h
    cases h
  · rwa [find?_delete_ne hk] at h

theorem of_find?_dropTail (h : c.dropTail.find? k = some n) : c.find? k = some n := by
  have hsplit : c.nodes.dropLast <+: c.nodes := dropLast_prefix c.nodes
  exact hsplit.find?_eq_some h

theorem get_cases (c : LruIdempotencyCache T) (key : JsString) (now : Int) :
    (c.get key now = (none, c) ∧ (c.enabled → c.find? key = none)) ∨
    c.get key now = (none, c.delete key) ∨
    ∃ n, c.find? key = some n ∧ c.get key now = (some n.value, c.putHead n) := by
  unfold get
  split
  next henabled =>
    split
    next hfind => exact .inl ⟨rfl, fun _ => hfind⟩
    next n hfind =>
      split
      · exact .inr (.inl rfl)
      · exact .inr (.inr ⟨n, hfind, rfl⟩)
  next henabled => exact .inl ⟨rfl, fun h => absurd h henabled⟩

theorem of_find?_get (h : (c.get key now).2.find? k = some n) : c.find? k = some n := by
  rcases c.get_cases key now with ⟨hget, -⟩ | hget | ⟨n', hfind, hget⟩
  · rwa [hget] at h
  · rw [hget] at h
    exact of_find?_delete h
  · rw [hget, find?_putHead] at h
    split at h
    next hk =>
      cases h
      rw [hk, key_of_find? hfind]
      exact hfind
    · exact h

theorem value_of_get (h : (c.get key now).1 = some value) :
    ∃ n, c.find? key = some n ∧ n.value = value := by
  rcases c.get_cases key now with ⟨hget, -⟩ | hget | ⟨n, hfind, hget⟩
  · rw [hget] at h
    cases h
  · rw [hget] at h
    cases h
  · rw [hget] at h
    exact ⟨n, hfind, Option.some.inj h⟩

theorem isSome_get (henabled : c.enabled) (h : ((c.get key now).2.find? key).isSome) :
    (c.get key now).1.isSome := by
  rcases c.get_cases key now with ⟨hget, hfind⟩ | hget | ⟨n, -, hget⟩
  · rw [hget, hfind henabled] at h
    cases h
  · rw [hget, find?_delete_self] at h
    cases h
  · rw [hget]
    rfl

theorem find?_get_ne (h : k ≠ key) : (c.get key now).2.find? k = c.find? k := by
  rcases c.get_cases key now with ⟨hget, -⟩ | hget | ⟨n, hfind, hget⟩
  · rw [hget]
  · rw [hget]
    exact find?_delete_ne h
  · rw [hget, find?_putHead, if_neg]
    rwa [key_of_find? hfind]

theorem get_of_alive (henabled : c.enabled) (hfind : c.find? key = some n)
    (halive : now ≤ n.expiresAt) : c.get key now = (some n.value, c.putHead n) := by
  unfold get
  rw [if_pos henabled, hfind]
  exact if_neg (not_lt.mpr halive)

theorem find?_put (hroom : ((c.putHead { key, value, expiresAt := now + c.ttlMs }).nodes.length :
    Int)
    ≤ c.maxEntries) :
    (c.put key value now).find? k =
      if k = key then some { key, value, expiresAt := now + c.ttlMs } else c.find? k := by
  unfold put
  dsimp only
  rw [if_neg]
  · exact find?_putHead
  · rw [Bool.and_eq_true, decide_eq_true_eq]
    exact fun h => absurd hroom (not_le.mpr h.2)

theorem of_find?_put (h : (c.put key value now).find? k = some n) :
    (k = key ∧ n.value = value) ∨ c.find? k = some n := by
  have hhead : (c.putHead { key, value, expiresAt := now + c.ttlMs }).find? k = some n →
      (k = key ∧ n.value = value) ∨ c.find? k = some n := by
    rw [find?_putHead]
    split
    next hk => exact fun h => .inl ⟨hk, by rw [← Option.some.inj h]⟩
    · exact .inr
  unfold put at h
  dsimp only at h
  split at h
  · exact hhead (of_find?_dropTail h)
  · exact hhead h

theorem of_find?_set {frozen : T → Bool} (hset : c.set frozen key value now = some c')
    (h : c'.find? k = some n) : (k = key ∧ n.value = value) ∨ c.find? k = some n := by
  unfold set at hset
  split at hset
  · split at hset
    · cases hset
    · cases hset
      exact of_find?_put h
  · cases hset
    exact .inr h

theorem enabled_get : (c.get key now).2.enabled = c.enabled := by
  rcases c.get_cases key now with ⟨hget, -⟩ | hget | ⟨n, -, hget⟩ <;> rw [hget] <;> rfl

theorem enabled_set {frozen : T → Bool} (hset : c.set frozen key value now = some c') :
    c'.enabled = c.enabled := by
  unfold set at hset
  split at hset
  · split at hset
    · cases hset
    · cases hset
      unfold put
      dsimp only
      split <;> rfl
  · cases hset
    rfl

end Entries

/-! ## Lost entries -/

/-- The keys that have an entry before and none after. -/
def lost (before after : LruIdempotencyCache T) : List JsString :=
  (before.nodes.map CacheNode.key).filter fun key => (after.find? key).isNone

theorem mem_lost {before after : LruIdempotencyCache T} {key : JsString}
    (h : (before.find? key).isSome) : (after.find? key).isSome ∨ key ∈ before.lost after := by
  by_cases hafter : (after.find? key).isSome
  · exact .inl hafter
  · obtain ⟨n, hn⟩ := Option.isSome_iff_exists.mp h
    refine .inr (mem_filter.mpr ⟨mem_map.mpr ⟨n, mem_of_find?_eq_some hn, ?_⟩, ?_⟩)
    · exact key_of_find? hn
    · simpa using hafter

end LruIdempotencyCache

end NevoMessaging
