import Mathlib.Algebra.Order.Floor.Semiring
import Mathlib.Data.Rat.Floor
import NevoMessaging.Lib.Table

/-!
# The dead letter queue

`InMemoryDlqStore`, and the methods of `DlqRouter` that read a store. `query` is the one of the
store if the store has it, and otherwise filters what `list` returns. `replayOnce` passes the
oldest entries to a handler.

Numbers are rational. An entry is an object: `ref` says which one, since a replay writes its
`attempts`. `error.code` and `meta.method` stand as `code` and `method`.

Results:
1. `queryLoop_eq`: the scan of the store returns the newest matches, up to the limit.
2. `query_alike_iff`: when a store without `query` is queried with the same result.
3. `replay_not_starved_iff`: when a replay reaches an entry that is still to be replayed.
-/

namespace NevoMessaging.Dlq

open List

structure DlqEntry where
  ref : Nat
  id : Option String
  topic : String
  reason : String
  code : Option ℚ := none
  method : Option String := none
  ts : ℚ
  attempts : Option ℚ := none
deriving DecidableEq

structure DlqQuery where
  topic : Option String := none
  method : Option String := none
  reason : Option String := none
  code : Option ℚ := none
  since : Option ℚ := none
  «until» : Option ℚ := none
  limit : Option ℚ := none

namespace DlqQuery

/-- A text that is missing or empty asks for nothing. -/
def asks (wanted : Option String) (p : String → Bool) : Bool :=
  wanted.all fun w => w = "" || p w

/-- The checks that both ways of querying make. -/
def passes (q : DlqQuery) (e : DlqEntry) : Bool :=
  asks q.topic (e.topic = ·) && asks q.reason (e.reason = ·) &&
    q.code.all (fun c => e.code = some c) && q.since.all (fun t => ¬ e.ts < t) &&
    q.«until».all (fun t => ¬ t < e.ts)

/-- The check of the method, which only the store makes. -/
def sameMethod (q : DlqQuery) (e : DlqEntry) : Bool := asks q.method (e.method = some ·)

def fits (q : DlqQuery) (e : DlqEntry) : Bool := q.sameMethod e && q.passes e

end DlqQuery

/-- The parts of a `DlqStore` that a query uses. -/
structure DlqStore where
  list : (limit : ℚ) → List DlqEntry
  query : Option (DlqQuery → List DlqEntry)

/-- The same store, if it had no `query`. -/
def DlqStore.withoutQuery (store : DlqStore) : DlqStore := ⟨store.list, none⟩

/-! ## The store in memory -/

/-- The index that an argument of `slice` stands for in an array of length `n`. -/
def sliceIndex (n : Nat) (q : ℚ) : Nat :=
  let k := if 0 ≤ q then ⌊q⌋ else ⌈q⌉
  if k < 0 then (n + k).toNat else min k.toNat n

structure InMemoryDlqStore where
  entries : List DlqEntry

namespace InMemoryDlqStore

variable (s : InMemoryDlqStore)

def list (limit : ℚ) : List DlqEntry := s.entries.drop (sliceIndex s.entries.length (-limit))

def listOldest (limit : ℚ) : List DlqEntry := s.entries.take (sliceIndex s.entries.length limit)

/-- The loop of `query` over the entries, the newest one first. -/
def queryLoop (q : DlqQuery) (limit : ℚ) : List DlqEntry → List DlqEntry → List DlqEntry
  | [], out => out
  | e :: rest, out =>
    if out.length < limit then queryLoop q limit rest (if q.fits e then out ++ [e] else out)
    else out

def query (q : DlqQuery) : List DlqEntry :=
  queryLoop q (q.limit.getD 100) s.entries.reverse []

def remove (id : String) : InMemoryDlqStore := ⟨s.entries.eraseP (·.id = some id)⟩

def store : DlqStore where
  list := s.list
  query := some s.query

end InMemoryDlqStore

/-- `DlqRouter.query`. -/
def DlqRouter.query (store : Option DlqStore) (q : DlqQuery) : List DlqEntry :=
  match store with
  | none => []
  | some store =>
    match store.query with
    | some query => query q
    | none => (store.list (q.limit.getD 100)).filter q.passes

/-! ## Two ways to query -/

section Query

variable {s : InMemoryDlqStore} {q : DlqQuery}

theorem queryLoop_eq (q : DlqQuery) (limit : ℚ) (l out : List DlqEntry) :
    InMemoryDlqStore.queryLoop q limit l out =
      out ++ (l.filter q.fits).take (⌈limit⌉₊ - out.length) := by
  induction l generalizing out with
  | nil => simp [InMemoryDlqStore.queryLoop]
  | cons e l ih =>
    rw [InMemoryDlqStore.queryLoop]
    split
    · next hlt =>
      have hlt' : out.length < ⌈limit⌉₊ := Nat.lt_ceil.mpr hlt
      rw [ih]
      by_cases he : q.fits e
      · rw [if_pos he, filter_cons_of_pos he, length_append, length_singleton,
          append_assoc, singleton_append, ← take_succ_cons]
        congr 2
        omega
      · rw [if_neg he, filter_cons_of_neg he]
    · next hge =>
      have hle : ⌈limit⌉₊ ≤ out.length := Nat.ceil_le.mpr (not_lt.mp hge)
      rw [Nat.sub_eq_zero_of_le hle, take_zero, append_nil]

theorem take_reverse_eq_filter_iff {α : Type} {p r f : α → Bool}
    (hf : ∀ e, f e = (p e && r e)) (older recent : List α) (n : Nat) :
    recent.filter r = ((older ++ recent).reverse.filter f).take n ↔
      (∀ e ∈ recent, r e → p e) ∧ (recent.filter f).reverse = recent.filter f ∧
        min n ((older ++ recent).countP f) = recent.countP f := by
  have hsplit : (older ++ recent).reverse.filter f =
      (recent.filter f).reverse ++ (older.filter f).reverse := by
    rw [reverse_append, filter_append, filter_reverse, filter_reverse]
  have hlength : (((older ++ recent).reverse.filter f).take n).length =
      min n ((older ++ recent).countP f) := by
    rw [length_take, ← countP_eq_length_filter, countP_reverse]
  have hfilter (h : ∀ e ∈ recent, r e → p e) : recent.filter r = recent.filter f := by
    refine filter_congr fun e he => ?_
    rw [hf]
    cases hr : r e with
    | false => simp
    | true => simp [h e he hr]
  -- as many matches as the recent entries have are the recent ones
  have htake (h : min n ((older ++ recent).countP f) = recent.countP f) :
      ((older ++ recent).reverse.filter f).take n = (recent.filter f).reverse := by
    have hcount : recent.countP f = (recent.filter f).reverse.length := by
      rw [length_reverse, countP_eq_length_filter]
    rw [← hlength, hcount] at h
    exact (prefix_of_prefix_length_le ( take_prefix n _)
      (hsplit ▸ prefix_append _ _) h.le).eq_of_length h
  constructor
  · intro heq
    have hall : ∀ e ∈ recent, r e → p e := by
      intro e he hr
      have hmem := (mem_filter.mp (mem_of_mem_take
        (heq ▸ mem_filter.mpr ⟨he, hr⟩))).2
      rw [hf, Bool.and_eq_true] at hmem
      exact hmem.1
    rw [hfilter hall] at heq
    have hcount := congrArg length heq
    rw [hlength, ← countP_eq_length_filter] at hcount
    exact ⟨hall, (htake hcount.symm).symm.trans heq.symm, hcount.symm⟩
  · rintro ⟨hall, hpal, hcount⟩
    rw [htake hcount, hpal, hfilter hall]

/-- A store that offers the same entries but no `query` is queried with the same result if and
only if the listed entries that pass the other checks are of the method, read the same from both
ends, and are all that the limit leaves of the matching ones. -/
theorem query_alike_iff (s : InMemoryDlqStore) (q : DlqQuery) :
    DlqRouter.query (some s.store.withoutQuery) q = DlqRouter.query (some s.store) q ↔
      (∀ e ∈ s.list (q.limit.getD 100), q.passes e → q.sameMethod e) ∧
      ((s.list (q.limit.getD 100)).filter q.fits).reverse =
        (s.list (q.limit.getD 100)).filter q.fits ∧
      min ⌈q.limit.getD 100⌉₊ (s.entries.countP q.fits) =
        (s.list (q.limit.getD 100)).countP q.fits := by
  have hquery : DlqRouter.query (some s.store) q =
      (s.entries.reverse.filter q.fits).take ⌈q.limit.getD 100⌉₊ := by
    show s.query q = _
    rw [InMemoryDlqStore.query, queryLoop_eq, nil_append, length_nil, Nat.sub_zero]
  have hentries := take_append_drop (sliceIndex s.entries.length (-q.limit.getD 100)) s.entries
  rw [hquery]
  have hiff := take_reverse_eq_filter_iff (f := q.fits) (fun _ => rfl)
    (s.entries.take (sliceIndex s.entries.length (-q.limit.getD 100))) (s.list (q.limit.getD 100))
    ⌈q.limit.getD 100⌉₊
  rw [InMemoryDlqStore.list, hentries] at hiff
  exact hiff

/-- Two entries and a query that asks for nothing: the store returns the newer one first, the
router without the help of the store the older one. -/
theorem query_order_differs :
    let s : InMemoryDlqStore := ⟨[
      { ref := 0, id := "a", topic := "orders", reason := "timeout", ts := 1 },
      { ref := 1, id := "b", topic := "orders", reason := "timeout", ts := 2 }]⟩
    (DlqRouter.query (some s.store) {}).map (·.ref) = [1, 0] ∧
      (DlqRouter.query (some s.store.withoutQuery) {}).map (·.ref) = [0, 1] := by
  decide +kernel

end Query

/-! ## Replay -/

/-- The options of a replay. A rejection is `none`. The handler is given the calls before. -/
structure DlqReplayOptions where
  maxAttempts : Option ℚ := none
  policy : DlqEntry → Option Bool := fun _ => some true
  handler : List DlqEntry → DlqEntry → Option Bool

/-- The counts of a router, by the ids of the entries. -/
abbrev ReplayAttempts := Table fun p : String × ℚ => p.1

def replayAttemptsCap : Nat := 10000

namespace ReplayAttempts

def of (t : ReplayAttempts) (e : DlqEntry) : ℚ :=
  ((e.id.bind fun id => (t.get? id).map (·.2)) <|> e.attempts).getD 0

/-- The newest keys, as many as the cap allows. -/
def capped (t : ReplayAttempts) : ReplayAttempts where
  rows := t.rows.drop (t.rows.length - replayAttemptsCap)
  nodup := t.nodup.sublist ((List.drop_sublist _ _).map _)

end ReplayAttempts

/-- What a replay works on, the calls of the handler, and what it returns. -/
structure DlqReplay where
  store : InMemoryDlqStore
  replayAttempts : ReplayAttempts
  calls : List DlqEntry := []
  replayed : Nat := 0
  skipped : Nat := 0
  failed : Nat := 0
  rejected : Bool := false

namespace DlqReplay

def bumpReplayAttempts (r : DlqReplay) (e : DlqEntry) : DlqReplay :=
  match e.id with
  | none => r
  | some id =>
    let next := r.replayAttempts.of e + 1
    { r with
      store := ⟨r.store.entries.map fun x =>
        if x.ref = e.ref then { x with attempts := next } else x⟩
      replayAttempts := ReplayAttempts.capped (r.replayAttempts.set (id, next)) }

/-- The call of the handler and what follows from its answer. -/
def handle (o : DlqReplayOptions) (r : DlqReplay) (e : DlqEntry) : DlqReplay :=
  let r' := { r with calls := r.calls ++ [e] }
  match o.handler r.calls e with
  | some true =>
    match e.id with
    | none | some "" => { r' with replayed := r.replayed + 1 }
    | some id => { r' with
        store := r.store.remove id
        replayAttempts := r.replayAttempts.erase id
        replayed := r.replayed + 1 }
  | _ => { r'.bumpReplayAttempts e with failed := r.failed + 1 }

end DlqReplay

namespace DlqReplayOptions

variable (o : DlqReplayOptions) (t : ReplayAttempts) (e : DlqEntry)

/-- The attempts of the entry are used up. -/
def exhausted : Bool := e.id.isSome && o.maxAttempts.any (· ≤ t.of e)

/-- The entry has attempts left, and the policy allows it. -/
def ready : Bool := !o.exhausted t e && o.policy e = some true

/-- The entry has attempts left, and the policy rejects. -/
def stops : Bool := !o.exhausted t e && o.policy e = none

end DlqReplayOptions

def replayLoop (o : DlqReplayOptions) : List DlqEntry → DlqReplay → DlqReplay
  | [], r => r
  | e :: rest, r =>
    if o.exhausted r.replayAttempts e then replayLoop o rest { r with skipped := r.skipped + 1 }
    else match o.policy e with
      | none => { r with rejected := true }
      | some false => replayLoop o rest { r with skipped := r.skipped + 1 }
      | some true => replayLoop o rest (r.handle o e)

/-- `DlqRouter.replayOnce` with a handler, when no replay is in progress. -/
def replayOnce (o : DlqReplayOptions) (s : InMemoryDlqStore) (t : ReplayAttempts) : DlqReplay :=
  replayLoop o (s.listOldest 100) { store := s, replayAttempts := t }

section Replay

variable {o : DlqReplayOptions} {r : DlqReplay} {e : DlqEntry}

theorem calls_handle : (r.handle o e).calls = r.calls ++ [e] := by
  unfold DlqReplay.handle DlqReplay.bumpReplayAttempts
  dsimp only
  split
  · split <;> rfl
  · split <;> rfl

theorem calls_subset_replayLoop (l : List DlqEntry) : r.calls ⊆ (replayLoop o l r).calls := by
  induction l generalizing r with
  | nil => exact List.Subset.refl _
  | cons e l ih =>
    rw [replayLoop]
    split
    · exact ih (r := { r with skipped := r.skipped + 1 })
    · split
      · exact List.Subset.refl _
      · exact ih (r := { r with skipped := r.skipped + 1 })
      · refine List.Subset.trans ?_ ih
        rw [calls_handle]
        exact subset_append_left _ _

theorem exists_call_iff (l : List DlqEntry) (h : r.calls = []) :
    (∃ e ∈ (replayLoop o l r).calls, o.ready r.replayAttempts e) ↔
      ∃ e ∈ l.takeWhile (!o.stops r.replayAttempts ·), o.ready r.replayAttempts e := by
  induction l generalizing r with
  | nil => simp [replayLoop, h]
  | cons e l ih =>
    have hskip (hs : o.stops r.replayAttempts e = false)
        (hr : o.ready r.replayAttempts e = false) :
        (∃ e ∈ (replayLoop o l { r with skipped := r.skipped + 1 }).calls,
          o.ready r.replayAttempts e) ↔
        ∃ x ∈ (e :: l).takeWhile (!o.stops r.replayAttempts ·), o.ready r.replayAttempts x := by
      rw [ih (r := { r with skipped := r.skipped + 1 }) h,
        takeWhile_cons_of_pos (by simp [hs])]
      simp [hr]
    rw [replayLoop]
    split
    · next hex =>
      exact hskip (by simp [DlqReplayOptions.stops, hex]) (by simp [DlqReplayOptions.ready, hex])
    · next hex =>
      rw [Bool.not_eq_true] at hex
      cases hp : o.policy e with
      | none =>
        have hs : o.stops r.replayAttempts e = true := by simp [DlqReplayOptions.stops, hex, hp]
        rw [takeWhile_cons_of_neg (by simp [hs])]
        simp [h]
      | some allow =>
        have hs : o.stops r.replayAttempts e = false := by simp [DlqReplayOptions.stops, hp]
        cases allow with
        | false => exact hskip hs (by simp [DlqReplayOptions.ready, hp])
        | true =>
          have hr : o.ready r.replayAttempts e := by simp [DlqReplayOptions.ready, hex, hp]
          refine iff_of_true ⟨e, ?_, hr⟩ ⟨e, ?_, hr⟩
          · refine calls_subset_replayLoop l ?_
            rw [calls_handle]
            exact mem_append_right _ mem_cons_self
          · rw [takeWhile_cons_of_pos (by simp [hs])]
            exact mem_cons_self

theorem listOldest_hundred (s : InMemoryDlqStore) : s.listOldest 100 = s.entries.take 100 := by
  have hindex : sliceIndex s.entries.length 100 = min 100 s.entries.length := by
    simp [sliceIndex]
  rw [InMemoryDlqStore.listOldest, hindex, ← take_eq_take_min]

end Replay

/-- A store with an entry that is ready to be replayed has the handler called for one if and only
if there is one among the hundred oldest entries, in front of the first for which the policy
rejects. -/
theorem replay_not_starved_iff (o : DlqReplayOptions) (s : InMemoryDlqStore) (t : ReplayAttempts) :
    ((∃ e ∈ s.entries, o.ready t e) → ∃ e ∈ (replayOnce o s t).calls, o.ready t e) ↔
      ((∃ e ∈ s.entries, o.ready t e) →
        ∃ e ∈ (s.entries.take 100).takeWhile (!o.stops t ·), o.ready t e) := by
  rw [replayOnce, exists_call_iff _ rfl, listOldest_hundred]

/-- A hundred entries have used up their one attempt; the one behind them is never replayed. -/
theorem replay_starved :
    let entry (ref : Nat) (attempts : ℚ) : DlqEntry :=
      { ref, id := toString ref, topic := "orders", reason := "timeout", ts := ref, attempts }
    let s : InMemoryDlqStore := ⟨(range 100).map (entry · 1) ++ [entry 100 0]⟩
    let o : DlqReplayOptions := { maxAttempts := some 1, handler := fun _ _ => some true }
    (∃ e ∈ s.entries, o.ready .empty e) ∧ (replayOnce o s .empty).calls = [] := by
  decide +kernel

end NevoMessaging.Dlq
