import Mathlib.Data.Multiset.Basic
import NevoMessaging.Lib.Heap
import NevoMessaging.Lib.OrNaN

/-!
# The due heap

`DueHeap` is the binary heap over `runAt` of the in-memory task store. Nobody checks `runAt`: an
invalid date is stored as `NaN`, which compares with nothing, and then the heap may lose its order.

`PriorityQueue` says what a priority queue answers to an operation, and what it contains afterwards:
it is a bag of entries and knows nothing of the heap.

Results:
1. `push_sound`, `pop_sound`: without `NaN` the operations keep the heap in order.
2. `due_heap_queue`: without `NaN` every sequence of operations is one of a priority queue.
3. `due_heap_nan`: a heap with `NaN` that answers with an entry that is not the least.
-/

namespace NevoMessaging

variable {T : Type}

/-- An entry of `DueHeap`. -/
structure DueEntry (T : Type) where
  runAt : OrNaN T
  id : String
deriving DecidableEq

structure DueHeap (T : Type) where
  items : List (DueEntry T) := []
deriving DecidableEq

namespace DueHeap

variable [LinearOrder T]

def size (due : DueHeap T) : Nat := due.items.length

def push (due : DueHeap T) (runAt : OrNaN T) (id : String) : DueHeap T :=
  ⟨Heap.push DueEntry.runAt due.items ⟨runAt, id⟩⟩

def peekRunAt (due : DueHeap T) : Option (OrNaN T) := due.items.head?.map DueEntry.runAt

def pop (due : DueHeap T) : Option (DueEntry T × DueHeap T) :=
  (Heap.pop? DueEntry.runAt due.items).map fun popped => (popped.1, ⟨popped.2⟩)

def clear (_ : DueHeap T) : DueHeap T := {}

theorem mem_push {due : DueHeap T} {runAt : OrNaN T} {id : String} {e : DueEntry T} :
    e ∈ (due.push runAt id).items ↔ e = ⟨runAt, id⟩ ∨ e ∈ due.items := by
  rw [push, (Heap.push_perm due.items _).mem_iff, List.mem_cons]

theorem pop_eq_some {due due' : DueHeap T} {e : DueEntry T} : due.pop = some (e, due') ↔
    Heap.pop? DueEntry.runAt due.items = some (e, due'.items) := by
  unfold pop
  constructor
  · intro h
    obtain ⟨popped, hpop, heq⟩ := Option.map_eq_some_iff.mp h
    cases heq
    exact hpop
  · intro h
    rw [h]
    rfl

theorem pop_perm {due due' : DueHeap T} {e : DueEntry T} (h : due.pop = some (e, due')) :
    (e :: due'.items).Perm due.items := Heap.pop?_perm (pop_eq_some.mp h)

theorem peek_cases (due : DueHeap T) : due.items = [] ∧ due.peekRunAt = none ∧ due.pop = none ∨
    ∃ e due', due.peekRunAt = some e.runAt ∧ due.pop = some (e, due') := by
  obtain ⟨items⟩ := due
  cases items with
  | nil => exact .inl ⟨rfl, rfl, rfl⟩
  | cons e rest =>
    obtain ⟨l, hl⟩ := Heap.pop?_cons DueEntry.runAt e rest
    exact .inr ⟨e, ⟨l⟩, rfl, pop_eq_some.mpr hl⟩

/-! ## Order -/

/-- No time is `NaN`, and every entry is at least its parent. -/
structure Sound (due : DueHeap T) : Prop where
  times : ∀ e ∈ due.items, e.runAt ≠ .nan
  ordered : Heap.Ordered DueEntry.runAt due.items

theorem linear {l : List (DueEntry T)} (h : ∀ e ∈ l, e.runAt ≠ .nan) :
    Heap.Linear DueEntry.runAt l :=
  ⟨OrNaN.le_trans, OrNaN.le_of_lt, fun hx hy => OrNaN.le_of_not_lt (h _ hx) (h _ hy)⟩

variable {due due' : DueHeap T} {e : DueEntry T}

theorem sound_empty : Sound ({} : DueHeap T) :=
  ⟨fun _ he => absurd he List.not_mem_nil, fun _ _ _ _ _ _ h => by simp at h⟩

theorem push_sound (h : due.Sound) {runAt : OrNaN T} (hrun : runAt ≠ .nan) (id : String) :
    (due.push runAt id).Sound := by
  have htimes : ∀ e ∈ (⟨runAt, id⟩ : DueEntry T) :: due.items, e.runAt ≠ .nan :=
    List.forall_mem_cons.mpr ⟨hrun, h.times⟩
  exact ⟨fun e he => htimes e ((Heap.push_perm due.items _).subset he),
    Heap.push_ordered (linear htimes) h.ordered⟩

theorem pop_sound (h : due.Sound) (hpop : due.pop = some (e, due')) :
    due'.Sound ∧ ∀ b ∈ due.items, e.runAt ≤ b.runAt := by
  obtain ⟨hord, hmin⟩ := Heap.pop?_spec (linear h.times) h.ordered (pop_eq_some.mp hpop)
  exact ⟨⟨fun b hb => h.times b ((pop_perm hpop).subset (List.mem_cons_of_mem e hb)), hord⟩, hmin⟩

/-! ## Sequences of operations -/

inductive Op (T : Type)
  | push (runAt : OrNaN T) (id : String)
  | pop
  | peekRunAt
  | clear

/-- What an operation returns. -/
inductive Answer (T : Type)
  | void
  | popped (entry : Option (DueEntry T))
  | time (runAt : Option (OrNaN T))
deriving DecidableEq

def step (due : DueHeap T) : Op T → Answer T × DueHeap T
  | .push runAt id => (.void, due.push runAt id)
  | .pop =>
    match due.pop with
    | none => (.popped none, due)
    | some (entry, due) => (.popped (some entry), due)
  | .peekRunAt => (.time due.peekRunAt, due)
  | .clear => (.void, due.clear)

/-- The answers to the operations, in their order, and the heap after them. -/
def run (due : DueHeap T) : List (Op T) → List (Answer T) × DueHeap T
  | [] => ([], due)
  | op :: ops =>
    let (answer, due) := due.step op
    let (answers, due) := due.run ops
    (answer :: answers, due)

/-- The entry is in the bag and none in it is less. -/
def Least (bag : Multiset (DueEntry T)) (e : DueEntry T) : Prop :=
  e ∈ bag ∧ ∀ b ∈ bag, e.runAt ≤ b.runAt

/-- A priority queue with the entries `bag` answers to the operation and has other entries then. -/
inductive PriorityQueue :
    Multiset (DueEntry T) → Op T → Answer T → Multiset (DueEntry T) → Prop
  | push (bag : Multiset (DueEntry T)) (runAt : OrNaN T) (id : String) :
      PriorityQueue bag (.push runAt id) .void (⟨runAt, id⟩ ::ₘ bag)
  | popEmpty : PriorityQueue 0 .pop (.popped none) 0
  | pop {bag : Multiset (DueEntry T)} {e : DueEntry T} : Least (e ::ₘ bag) e →
      PriorityQueue (e ::ₘ bag) .pop (.popped (some e)) bag
  | peekEmpty : PriorityQueue 0 .peekRunAt (.time none) 0
  | peek {bag : Multiset (DueEntry T)} {e : DueEntry T} : Least bag e →
      PriorityQueue bag .peekRunAt (.time (some e.runAt)) bag
  | clear (bag : Multiset (DueEntry T)) : PriorityQueue bag .clear .void 0

/-- The same for a sequence of operations. -/
inductive PriorityQueues :
    Multiset (DueEntry T) → List (Op T) → List (Answer T) → Multiset (DueEntry T) → Prop
  | nil (bag : Multiset (DueEntry T)) : PriorityQueues bag [] [] bag
  | cons {bag bag' bag'' : Multiset (DueEntry T)} {op : Op T} {ops : List (Op T)}
      {answer : Answer T} {answers : List (Answer T)} : PriorityQueue bag op answer bag' →
      PriorityQueues bag' ops answers bag'' →
      PriorityQueues bag (op :: ops) (answer :: answers) bag''

/-- The operation does not push `NaN`. -/
def Op.Timed (op : Op T) : Prop := ∀ id, op ≠ .push .nan id

theorem step_queue (h : due.Sound) {op : Op T} (hop : op.Timed) :
    (due.step op).2.Sound ∧
      PriorityQueue due.items op (due.step op).1 (due.step op).2.items := by
  cases op with
  | push runAt id =>
    refine ⟨push_sound h (fun hnan => hop id (hnan ▸ rfl)) id, ?_⟩
    have hitems : (↑(due.push runAt id).items : Multiset (DueEntry T)) =
        ⟨runAt, id⟩ ::ₘ ↑due.items := Multiset.coe_eq_coe.mpr (Heap.push_perm due.items _)
    have hpush := PriorityQueue.push ↑due.items runAt id
    rwa [← hitems] at hpush
  | pop =>
    unfold step
    rcases due.peek_cases with ⟨hnil, -, hpop⟩ | ⟨e, due', -, hpop⟩
    · dsimp only
      rw [hpop, hnil]
      exact ⟨h, .popEmpty⟩
    · obtain ⟨hsound, hmin⟩ := pop_sound h hpop
      have hitems : (↑due.items : Multiset (DueEntry T)) = e ::ₘ ↑due'.items :=
        (Multiset.coe_eq_coe.mpr (pop_perm hpop)).symm
      dsimp only
      rw [hpop, hitems]
      refine ⟨hsound, .pop ⟨Multiset.mem_cons_self e _, fun b hb => hmin b ?_⟩⟩
      rwa [← hitems] at hb
  | peekRunAt =>
    refine ⟨h, ?_⟩
    unfold step
    rcases due.peek_cases with ⟨hnil, hpeek, -⟩ | ⟨e, due', hpeek, hpop⟩
    · dsimp only
      rw [hpeek, hnil]
      exact .peekEmpty
    · dsimp only
      rw [hpeek]
      have hmem : e ∈ due.items := (pop_perm hpop).subset List.mem_cons_self
      exact .peek ⟨hmem, (pop_sound h hpop).2⟩
  | clear => exact ⟨sound_empty, .clear _⟩

/-- As long as no `NaN` is pushed, the heap answers to every sequence of operations as a priority
queue does and has its entries, and every entry is at least its parent. -/
theorem due_heap_queue (ops : List (Op T)) (h : ∀ op ∈ ops, op.Timed) :
    PriorityQueues 0 ops (run {} ops).1 (run {} ops).2.items ∧
      Heap.Ordered DueEntry.runAt (run {} ops).2.items := by
  have hrun : ∀ due : DueHeap T, due.Sound →
      PriorityQueues due.items ops (due.run ops).1 (due.run ops).2.items ∧
        (due.run ops).2.Sound := by
    induction ops with
    | nil => exact fun due hdue => ⟨.nil _, hdue⟩
    | cons op ops ih =>
      intro due hdue
      obtain ⟨hop, hops⟩ := List.forall_mem_cons.mp h
      obtain ⟨hsound, hstep⟩ := step_queue hdue hop
      obtain ⟨hqueue, hend⟩ := ih hops _ hsound
      exact ⟨.cons hstep hqueue, hend⟩
  exact (hrun {} sound_empty).imp_right Sound.ordered

theorem due_heap_queue_later_first :
    let ops : List (Op Int) := [.push 5 "late", .push 3 "early", .peekRunAt, .pop]
    (run {} ops).1 = [.void, .void, .time (some 3), .popped (some ⟨3, "early"⟩)] ∧
      PriorityQueues 0 ops (run {} ops).1 (run {} ops).2.items :=
  ⟨by decide +kernel, (due_heap_queue _ (by simp [Op.Timed])).1⟩

/-- An invalid date between two others: the later one is on top. -/
theorem due_heap_nan :
    let ops : List (Op Int) := [.push 3 "a", .push .nan "b", .push 100 "c"]
    (run {} ops).2 = ⟨[⟨100, "c"⟩, ⟨3, "a"⟩, ⟨.nan, "b"⟩]⟩ ∧
      (run {} ops).2.peekRunAt = some 100 ∧
      ¬ Heap.Ordered DueEntry.runAt (run {} ops).2.items := by
  refine ⟨by decide +kernel, by decide +kernel, fun hord => ?_⟩
  have hedge : (100 : OrNaN Int) ≤ 3 :=
    hord 0 1 ⟨100, "c"⟩ ⟨3, "a"⟩ (.inl rfl) trivial (by decide +kernel) (by decide +kernel)
  exact absurd hedge (by decide)

end DueHeap

end NevoMessaging
