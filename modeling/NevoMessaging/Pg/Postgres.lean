import Mathlib.Data.List.Sort
import NevoMessaging.EventStore

/-!
# The Postgres tables behind PgEventStore

Each `append` is one INSERT. Its row gets a sequence number from the `BIGSERIAL` and the id of
its transaction from `pg_current_xact_id()`; these are two draws from two counters, and draws of
other transactions may come in between. A later commit makes the row visible. `read` sees the
committed rows, and with `committedOnly` those of them that are below `pg_snapshot_xmin`, the
least id of a running transaction.

`DbStep` says what each step does to the transactions. `Db.inOrder` is the condition that the
two draws of no two transactions are made in opposite orders, and `ordered_step` what follows
from it: sequence numbers are ordered as transaction ids are.
-/

namespace NevoMessaging.Pg

open List

variable {P : Type}

inductive TxnStatus
  | running
  | committed
  | aborted
deriving DecidableEq, Repr

/-- The values of an INSERT, and the time of its transaction. -/
structure Insert (P : Type) where
  type : String
  aggregateId : Option String
  payload : P
  ts : Int

/-- The transaction of one INSERT, with the numbers it has drawn so far. -/
structure Txn (P : Type) where
  insert : Insert P
  sequence : Option Nat := none
  txid : Option Nat := none
  status : TxnStatus := .running

def Insert.txn (insert : Insert P) : Txn P := { insert }

structure Row (P : Type) where
  event : DomainEvent P
  txid : Nat

structure Db (P : Type) where
  txns : List (Txn P) := []
  nextSeq : Nat := 1
  nextTxid : Nat := 1

/-- Sequence number and transaction id, once both are drawn. -/
def Txn.numbers (t : Txn P) : Option (Nat × Nat) :=
  match t.sequence, t.txid with
  | some sequence, some txid => some (sequence, txid)
  | _, _ => none

def Txn.row? (t : Txn P) : Option (Row P) :=
  if t.status = .committed then
    t.numbers.map fun n =>
      { event := ⟨t.insert.type, t.insert.aggregateId, t.insert.payload, n.1, t.insert.ts⟩
        txid := n.2 }
  else none

/-- The id that a running transaction holds back the snapshot with. -/
def Txn.runningTxid (t : Txn P) : Option Nat :=
  if t.status = .running then t.txid else none

namespace Db

def rows (db : Db P) : List (Row P) := db.txns.filterMap Txn.row?

/-- `pg_snapshot_xmin(pg_current_snapshot())` -/
def xmin (db : Db P) : Nat := (db.txns.filterMap Txn.runningTxid).foldr min db.nextTxid

/-- A condition that the source adds only if the wanted string is truthy. -/
def wanted (range : Option String) (value : Option String) : Bool :=
  match range with
  | none => true
  | some w => w = "" || value = some w

/-- The WHERE clause of `PgEventStore.read`. -/
def selects (db : Db P) (range : EventStoreReadRange) (r : Row P) : Bool :=
  range.fromSeq.all (fun n => n ≤ (r.event.sequence : Int)) &&
    range.toSeq.all (fun n => (r.event.sequence : Int) ≤ n) &&
    wanted range.type (some r.event.type) && wanted range.aggregateId r.event.aggregateId &&
    (!range.committedOnly || r.txid < db.xmin)

/-- `PgEventStore.read` -/
def read (db : Db P) (range : EventStoreReadRange) : List (DomainEvent P) :=
  let out := ((db.rows.filter (db.selects range)).map (·.event)).insertionSort
    fun a b => a.sequence ≤ b.sequence
  match range.limit with
  | none => out
  | some n => out.take n

end Db

/-! ## Steps of the transactions -/

inductive DbAct (P : Type)
  | begin (insert : Insert P)
  | drawSequence (i : Nat)
  | drawTxid (i : Nat)
  | commit (i : Nat)
  | abort (i : Nat)

namespace Db

/-- The running transaction at a place. -/
def running? (db : Db P) (i : Nat) : Option (Txn P) :=
  db.txns[i]?.filter fun t => t.status = .running

def put (db : Db P) (i : Nat) (t : Txn P) : Db P := { db with txns := db.txns.set i t }

def step (db : Db P) : DbAct P → Option (Db P)
  | .begin insert => some { db with txns := db.txns ++ [insert.txn] }
  | .drawSequence i => (db.running? i).bind fun t =>
    if t.sequence = none then
      some { db.put i { t with sequence := some db.nextSeq } with nextSeq := db.nextSeq + 1 }
    else none
  | .drawTxid i => (db.running? i).bind fun t =>
    if t.txid = none then
      some { db.put i { t with txid := some db.nextTxid } with nextTxid := db.nextTxid + 1 }
    else none
  | .commit i => (db.running? i).bind fun t =>
    if t.numbers.isSome then some (db.put i { t with status := .committed }) else none
  | .abort i => (db.running? i).map fun t => db.put i { t with status := .aborted }

/-- The draws that complete the numbers of a transaction in the order in which the other
transactions have drawn theirs: the number that is drawn is above all others, so the one that
is there already has to be so too. -/
def inOrder (db : Db P) : DbAct P → Bool
  | .drawSequence i => ((db.txns[i]?).bind (·.txid)).all fun x =>
    (db.txns.filterMap Txn.numbers).all fun n => n.2 < x
  | .drawTxid i => ((db.txns[i]?).bind (·.sequence)).all fun q =>
    (db.txns.filterMap Txn.numbers).all fun n => n.1 < q
  | _ => true

end Db

/-- The cases of `Db.step`. -/
inductive DbStep (db : Db P) : DbAct P → Db P → Prop
  | begin (insert : Insert P) : DbStep db (.begin insert)
    { db with txns := db.txns ++ [insert.txn] }
  | drawSequence {i : Nat} {t : Txn P} : db.txns[i]? = some t → t.status = .running →
      t.sequence = none → DbStep db (.drawSequence i)
        { db.put i { t with sequence := some db.nextSeq } with nextSeq := db.nextSeq + 1 }
  | drawTxid {i : Nat} {t : Txn P} : db.txns[i]? = some t → t.status = .running →
      t.txid = none → DbStep db (.drawTxid i)
        { db.put i { t with txid := some db.nextTxid } with nextTxid := db.nextTxid + 1 }
  | commit {i : Nat} {t : Txn P} {n : Nat × Nat} : db.txns[i]? = some t → t.status = .running →
      t.numbers = some n → DbStep db (.commit i) (db.put i { t with status := .committed })
  | abort {i : Nat} {t : Txn P} : db.txns[i]? = some t → t.status = .running →
      DbStep db (.abort i) (db.put i { t with status := .aborted })

variable {db : Db P}

theorem Db.running?_bind {db' : Db P} {i : Nat} {f : Txn P → Option (Db P)}
    (h : (db.running? i).bind f = some db') :
    ∃ t, db.txns[i]? = some t ∧ t.status = .running ∧ f t = some db' := by
  obtain ⟨t, ht, h⟩ := Option.bind_eq_some_iff.mp h
  obtain ⟨hget, hrun⟩ := Option.filter_eq_some_iff.mp ht
  exact ⟨t, hget, by simpa using hrun, h⟩

theorem DbStep.of_step {db' : Db P} {a : DbAct P} (h : db.step a = some db') : DbStep db a db' := by
  cases a with
  | begin insert =>
    cases h
    exact .begin insert
  | drawSequence i =>
    obtain ⟨t, hget, hrun, h⟩ := Db.running?_bind h
    split at h
    next hn =>
      cases h
      exact .drawSequence hget hrun hn
    next => cases h
  | drawTxid i =>
    obtain ⟨t, hget, hrun, h⟩ := Db.running?_bind h
    split at h
    next hn =>
      cases h
      exact .drawTxid hget hrun hn
    next => cases h
  | commit i =>
    obtain ⟨t, hget, hrun, h⟩ := Db.running?_bind h
    split at h
    next hn =>
      obtain ⟨n, hn⟩ := Option.isSome_iff_exists.mp hn
      cases h
      exact .commit hget hrun hn
    next => cases h
  | abort i =>
    obtain ⟨t, hget, hrun, h⟩ := Db.running?_bind (Option.map_eq_bind.symm.trans h)
    cases h
    exact .abort hget hrun

/-! ## Draws in order -/

/-- Numbers are below the counters, and sequence numbers are ordered as transaction ids are. -/
structure Db.Ordered (db : Db P) : Prop where
  sequences : ∀ t ∈ db.txns, ∀ q, t.sequence = some q → q < db.nextSeq
  txids : ∀ t ∈ db.txns, ∀ x, t.txid = some x → x < db.nextTxid
  agree : ∀ t ∈ db.txns, ∀ u ∈ db.txns, ∀ q x q' x', t.numbers = some (q, x) →
    u.numbers = some (q', x') → q ≤ q' → x ≤ x'

variable {db db' : Db P}

variable {t t' : Txn P} {x i : Nat}

theorem numbers_eq {q : Nat} (h : t.numbers = some (q, x)) :
    t.sequence = some q ∧ t.txid = some x := by
  unfold Txn.numbers at h
  split at h
  · next hq hx =>
    cases h
    exact ⟨hq, hx⟩
  · cases h

theorem mem_put {u : Txn P} (h : u ∈ (db.put i t).txns) : u ∈ db.txns ∨ u = t :=
  mem_or_eq_of_mem_set h

theorem mem_put_of_ne {u : Txn P} (hget : db.txns[i]? = some t) (hu : u ∈ db.txns) (hne : u ≠ t) :
    u ∈ (db.put i t').txns := by
  obtain ⟨j, hj⟩ := mem_iff_getElem?.mp hu
  refine mem_iff_getElem?.mpr ⟨j, ?_⟩
  have hij : i ≠ j := by
    rintro rfl
    exact hne (Option.some.inj (hj.symm.trans hget))
  rw [Db.put, getElem?_set_ne hij, hj]

theorem agree_put (h : db.Ordered)
    (hnew : ∀ u ∈ db.txns, ∀ q x q' x', t'.numbers = some (q, x) → u.numbers = some (q', x') →
      (q ≤ q' → x ≤ x') ∧ (q' ≤ q → x' ≤ x)) :
    ∀ u ∈ (db.put i t').txns, ∀ v ∈ (db.put i t').txns, ∀ q x q' x', u.numbers = some (q, x) →
      v.numbers = some (q', x') → q ≤ q' → x ≤ x' := by
  intro u hu v hv q x q' x' hnu hnv hle
  rcases mem_put hu with hu' | rfl <;> rcases mem_put hv with hv' | hv'
  · exact h.agree u hu' v hv' q x q' x' hnu hnv hle
  · exact (hnew u hu' q' x' q x (hv' ▸ hnv) hnu).2 hle
  · exact (hnew v hv' q x q' x' hnu hnv).1 hle
  · rw [hv', hnu] at hnv
    cases hnv
    exact Nat.le_refl _

theorem ordered_status (h : db.Ordered) (hget : db.txns[i]? = some t) (status : TxnStatus) :
    (db.put i { t with status }).Ordered := by
  have hmem := mem_of_getElem? hget
  refine ⟨fun u hu => ?_, fun u hu => ?_, agree_put h fun u hu q x q' x' hn hn' => ?_⟩
  · rcases mem_put hu with hu | rfl
    · exact h.sequences u hu
    · exact h.sequences t hmem
  · rcases mem_put hu with hu | rfl
    · exact h.txids u hu
    · exact h.txids t hmem
  · exact ⟨h.agree t hmem u hu q x q' x' hn hn', h.agree u hu t hmem q' x' q x hn' hn⟩

theorem ordered_begin (h : db.Ordered) (insert : Insert P) :
    { db with txns := db.txns ++ [insert.txn] : Db P }.Ordered := by
  have hcases : ∀ {u : Txn P}, u ∈ db.txns ++ [insert.txn] → u ∈ db.txns ∨ u = insert.txn := by
    simp
  have hnumbered : ∀ {u : Txn P} {n : Nat × Nat}, u ∈ db.txns ++ [insert.txn] →
      u.numbers = some n → u ∈ db.txns := by
    intro u n hu hn
    rcases hcases hu with hu | rfl
    · exact hu
    · cases hn
  refine ⟨fun u hu q hq => ?_, fun u hu x hx => ?_, fun u hu v hv q x q' x' hn hn' => ?_⟩
  · rcases hcases hu with hu | rfl
    · exact h.sequences u hu q hq
    · cases hq
  · rcases hcases hu with hu | rfl
    · exact h.txids u hu x hx
    · cases hx
  · exact h.agree u (hnumbered hu hn) v (hnumbered hv hn') q x q' x' hn hn'

theorem ordered_step (h : db.Ordered) {a : DbAct P} (hok : db.inOrder a = true)
    (hs : DbStep db a db') : db'.Ordered := by
  cases hs with
  | begin insert => exact ordered_begin h insert
  | @drawSequence i t hget hrun hnone =>
    have hmem := mem_of_getElem? hget
    refine ⟨fun u hu q hq => ?_, fun u hu x hx => ?_,
      agree_put h fun u hu q x q' x' hn hn' => ?_⟩
    · rcases mem_put hu with hu | rfl
      · exact Nat.lt_succ_of_lt (h.sequences u hu q hq)
      · cases hq
        exact Nat.lt_succ_self _
    · rcases mem_put hu with hu | rfl
      · exact h.txids u hu x hx
      · exact h.txids t hmem x hx
    · obtain ⟨hq, hx⟩ := numbers_eq hn
      cases hq
      have hlt := h.sequences u hu q' (numbers_eq hn').1
      refine ⟨fun hle => by omega, fun _ => ?_⟩
      simp only [Db.inOrder, hget, Option.bind_some, show t.txid = some x from hx,
        Option.all_some, all_eq_true, decide_eq_true_eq] at hok
      exact Nat.le_of_lt (hok (q', x') (mem_filterMap.mpr ⟨u, hu, hn'⟩))
  | @drawTxid i t hget hrun hnone =>
    have hmem := mem_of_getElem? hget
    refine ⟨fun u hu q hq => ?_, fun u hu x hx => ?_,
      agree_put h fun u hu q x q' x' hn hn' => ?_⟩
    · rcases mem_put hu with hu | rfl
      · exact h.sequences u hu q hq
      · exact h.sequences t hmem q hq
    · rcases mem_put hu with hu | rfl
      · exact Nat.lt_succ_of_lt (h.txids u hu x hx)
      · cases hx
        exact Nat.lt_succ_self _
    · obtain ⟨hq, hx⟩ := numbers_eq hn
      cases hx
      have hlt := h.txids u hu x' (numbers_eq hn').2
      refine ⟨fun hle => ?_, fun _ => Nat.le_of_lt hlt⟩
      simp only [Db.inOrder, hget, Option.bind_some, show t.sequence = some q from hq,
        Option.all_some, all_eq_true, decide_eq_true_eq] at hok
      exact absurd (hok (q', x') (mem_filterMap.mpr ⟨u, hu, hn'⟩)) (by omega)
  | commit hget | abort hget => exact ordered_status h hget _

/-! ## Reads -/

theorem foldr_min_le {l : List Nat} {a b : Nat} (h : a ∈ l) : l.foldr min b ≤ a := by
  induction l with
  | nil => cases h
  | cons c l ih =>
    rcases mem_cons.mp h with rfl | h
    · exact Nat.min_le_left _ _
    · exact (Nat.min_le_right _ _).trans (ih h)

theorem xmin_le (ht : t ∈ db.txns) (hr : t.status = .running) (hx : t.txid = some x) :
    db.xmin ≤ x :=
  foldr_min_le (mem_filterMap.mpr ⟨t, ht, by simp [Txn.runningTxid, hr, hx]⟩)

theorem row?_eq {r : Row P} (h : t.row? = some r) :
    t.status = .committed ∧ t.numbers = some (r.event.sequence, r.txid) := by
  unfold Txn.row? at h
  split at h
  · next hc =>
    obtain ⟨n, hn, rfl⟩ := Option.map_eq_some_iff.mp h
    exact ⟨hc, hn⟩
  · cases h

theorem row?_of_numbers (hc : t.status = .committed) {q : Nat} (hn : t.numbers = some (q, x)) :
    ∃ r, t.row? = some r ∧ r.event.sequence = q ∧ r.txid = x := by
  simp [Txn.row?, hc, hn]

/-- The range of a poll. -/
def pollRange (cursor : Int) (limit : Nat) : EventStoreReadRange :=
  { fromSeq := some cursor, limit := some limit, committedOnly := true }

theorem selects_poll (db : Db P) (cursor : Int) (limit : Nat) (r : Row P) :
    db.selects (pollRange cursor limit) r = true ↔ cursor ≤ r.event.sequence ∧
    r.txid < db.xmin := by
  simp [Db.selects, pollRange, Db.wanted]

theorem mem_poll {cursor : Int} {limit : Nat} {e : DomainEvent P}
    (h : e ∈ db.read (pollRange cursor limit)) :
    ∃ t ∈ db.txns, t.status = .committed ∧ cursor ≤ e.sequence ∧
      ∃ x, t.numbers = some (e.sequence, x) ∧ x < db.xmin := by
  have hmem := mem_of_mem_take h
  simp only [mem_insertionSort, mem_map, mem_filter] at hmem
  obtain ⟨r, ⟨hr, hsel⟩, rfl⟩ := hmem
  obtain ⟨t, ht, hrow⟩ := mem_filterMap.mp hr
  obtain ⟨hc, hn⟩ := row?_eq hrow
  obtain ⟨hle, hx⟩ := (selects_poll db cursor limit r).mp hsel
  exact ⟨t, ht, hc, hle, r.txid, hn, hx⟩

theorem poll_sorted (events : List (DomainEvent P)) :
    (events.insertionSort fun a b => a.sequence ≤ b.sequence).Pairwise
      fun a b => a.sequence ≤ b.sequence := by
  have htotal : Std.Total fun a b : DomainEvent P => a.sequence ≤ b.sequence :=
    ⟨fun _ _ => Nat.le_total _ _⟩
  have htrans : IsTrans (DomainEvent P) fun a b => a.sequence ≤ b.sequence :=
    ⟨fun _ _ _ => Nat.le_trans⟩
  exact pairwise_insertionSort _ events

theorem poll_before {cursor : Int} {limit : Nat} {e : DomainEvent P} {l r : List (DomainEvent P)}
    (h : db.read (pollRange cursor limit) = l ++ e :: r) {t : Txn P} (ht : t ∈ db.txns)
    (hc : t.status = .committed) {q x : Nat} (hn : t.numbers = some (q, x)) (hle : cursor ≤ q)
    (hx : x < db.xmin) (hq : q ≤ e.sequence) : ∃ e' ∈ l ++ [e], e'.sequence = q := by
  obtain ⟨row, hrow, rfl, rfl⟩ := row?_of_numbers hc hn
  set out := ((db.rows.filter (db.selects (pollRange cursor limit))).map (·.event)).insertionSort
    fun a b => a.sequence ≤ b.sequence with hout
  have hread : out.take limit = l ++ e :: r := h
  have hsplit : out = (l ++ [e]) ++ (r ++ out.drop limit) := by
    calc out = out.take limit ++ out.drop limit := (take_append_drop limit out).symm
      _ = (l ++ [e]) ++ (r ++ out.drop limit) := by simp [hread]
  have hmem : row.event ∈ out := by
    rw [hout, mem_insertionSort, mem_map]
    refine ⟨row, mem_filter.mpr ⟨mem_filterMap.mpr ⟨t, ht, hrow⟩, ?_⟩, rfl⟩
    exact (selects_poll db cursor limit row).mpr ⟨hle, hx⟩
  have hsorted : out.Pairwise fun a b => a.sequence ≤ b.sequence := poll_sorted _
  rw [hsplit] at hmem hsorted
  rcases mem_append.mp hmem with hl | hr
  · exact ⟨row.event, hl, rfl⟩
  · have hge := (pairwise_append.mp hsorted).2.2 e (by simp) _ hr
    exact ⟨e, by simp, Nat.le_antisymm hge hq⟩

end NevoMessaging.Pg
