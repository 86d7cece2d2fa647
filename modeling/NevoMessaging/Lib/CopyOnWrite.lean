import Mathlib.Data.List.Nodup

/-!
# Copy on write

A walk over a container looks at each entry and gets either the entry itself back or another value.
The container is copied only when the first entry changes: then the entries before it are copied as
they are, and from there on every entry goes into the copy. If no entry changes, there is no copy
and the result is the container itself.

An entry that comes back as it is, is `none` here, and so is a container that was not copied.

Results:
1. `items_walk`: the items of the result are the results for the items, copied or not.
2. `members_walk`: so are the members of an object, without the ones that are left out.
-/

namespace CopyOnWrite

open List

section Items

variable {α : Type}

/-- `before` are the items that the loop has passed. -/
def itemsLoop : List α → Option (List α) → List (α × Option α) → Option (List α)
  | _, out, [] => out
  | before, some out, (x, fresh) :: rest =>
    itemsLoop (before ++ [x]) (some (out ++ [fresh.getD x])) rest
  | before, none, (x, some y) :: rest => itemsLoop (before ++ [x]) (some (before ++ [y])) rest
  | before, none, (x, none) :: rest => itemsLoop (before ++ [x]) none rest

/-- Each item comes with what the walk has made of it. -/
def items (ps : List (α × Option α)) : Option (List α) := itemsLoop [] none ps

theorem itemsLoop_some (before out : List α) (ps : List (α × Option α)) :
    itemsLoop before (some out) ps = some (out ++ ps.map fun p => p.2.getD p.1) := by
  induction ps generalizing before out with
  | nil => rw [itemsLoop, map_nil, append_nil]
  | cons p ps ih => rw [itemsLoop, ih, map_cons, append_assoc, singleton_append]

theorem itemsLoop_none (before : List α) (ps : List (α × Option α)) :
    (itemsLoop before none ps).getD (before ++ ps.map Prod.fst) =
      before ++ ps.map fun p => p.2.getD p.1 := by
  induction ps generalizing before with
  | nil => rfl
  | cons p ps ih =>
    obtain ⟨x, fresh⟩ := p
    cases fresh with
    | none =>
      have hloop := ih (before ++ [x])
      rw [append_assoc, append_assoc, singleton_append, singleton_append]
        at hloop
      exact hloop
    | some y =>
      rw [itemsLoop, itemsLoop_some, Option.getD_some, append_assoc, singleton_append]
      rfl

theorem items_getD (ps : List (α × Option α)) :
    (items ps).getD (ps.map Prod.fst) = ps.map fun p => p.2.getD p.1 :=
  itemsLoop_none [] ps

variable {ε β γ : Type}

/-- The walk itself; it ends at the first entry it cannot take. -/
def walk (f : α → Except ε β) : List α → Except ε (List β)
  | [] => .ok []
  | v :: vs => do
    let e ← f v
    let rest ← walk f vs
    .ok (e :: rest)

theorem walk_ok {f : α → Except ε β} {o : β → α} {n : β → γ} {g : α → γ} :
    ∀ {vs : List α}, (∀ v ∈ vs, ∃ e, f v = .ok e ∧ o e = v ∧ n e = g v) →
      ∃ es, walk f vs = .ok es ∧ es.map o = vs ∧ es.map n = vs.map g
  | [], _ => ⟨[], rfl, rfl, rfl⟩
  | v :: vs, h => by
    obtain ⟨e, he, hold, hnew⟩ := h v mem_cons_self
    obtain ⟨es, hes, holds, hnews⟩ := walk_ok fun w hw => h w (mem_cons_of_mem _ hw)
    refine ⟨e :: es, ?_, ?_, ?_⟩
    · rw [walk, he, hes]
      rfl
    · rw [map_cons, hold, holds]
    · rw [map_cons, map_cons, hnew, hnews]

theorem items_walk {f : α → Except ε (Option α)} {g : α → α} {vs : List α}
    (h : ∀ v ∈ vs, ∃ r, f v = .ok r ∧ r.getD v = g v) :
    ∃ ps, walk (fun v => (f v).map (v, ·)) vs = .ok ps ∧ (items ps).getD vs = vs.map g := by
  obtain ⟨ps, hps, hold, hnew⟩ := walk_ok (f := fun v => (f v).map (v, ·)) (o := Prod.fst)
    (n := fun p => p.2.getD p.1) (g := g) fun v hv => by
      obtain ⟨r, hr, hg⟩ := h v hv
      exact ⟨(v, r), by rw [hr]; rfl, rfl, hg⟩
  have hitems := items_getD ps
  rw [hold, hnew] at hitems
  exact ⟨ps, hps, hitems⟩

end Items

section Members

variable {K V : Type}

/-- A member of an object, and what the walk has made of its value. -/
structure Entry (K V : Type) where
  key : K
  value : V
  fresh : Option V

namespace Entry

def result (e : Entry K V) : V := e.fresh.getD e.value

def old (e : Entry K V) : K × V := (e.key, e.value)

def new (e : Entry K V) : K × V := (e.key, e.result)

end Entry

variable (define : List (K × V) → K → V → List (K × V)) (force : K → V → Bool) (keep : V → Bool)

/-- `define` puts a member into an object. `force` are the members that have to be copied, and
`keep` the values that are not left out. -/
def membersLoop : List (K × V) → Option (List (K × V)) → List (Entry K V) → Option (List (K × V))
  | _, out, [] => out
  | before, out, e :: rest =>
    let started :=
      if out.isNone && (e.fresh.isSome || force e.key e.value) then
        some (before.foldl (fun o m => define o m.1 m.2) [])
      else out
    membersLoop (before ++ [e.old])
      (started.map fun o => if keep e.result then define o e.key e.result else o) rest

def members (es : List (Entry K V)) : Option (List (K × V)) :=
  membersLoop define force keep [] none es

variable {define force keep}

/-- The members that are left. -/
def kept (keep : V → Bool) (es : List (Entry K V)) : List (K × V) :=
  (es.filter fun e => keep e.result).map Entry.new

variable {e : Entry K V} {es : List (Entry K V)}

theorem kept_cons_of_keep (h : keep e.result) : kept keep (e :: es) = e.new :: kept keep es := by
  simp [kept, h]

theorem kept_cons_of_not_keep (h : ¬ keep e.result) : kept keep (e :: es) = kept keep es := by
  simp [kept, h]

/-- A new key goes to the end. -/
def Appends (define : List (K × V) → K → V → List (K × V)) : Prop :=
  ∀ o k v, k ∉ o.map Prod.fst → define o k v = o ++ [(k, v)]

theorem foldl_define (hdefine : Appends define) :
    ∀ (ms out : List (K × V)), ((out ++ ms).map Prod.fst).Nodup →
      ms.foldl (fun o m => define o m.1 m.2) out = out ++ ms
  | [], out, _ => (List.append_nil out).symm
  | m :: ms, out, h => by
    have hm : m.1 ∉ out.map Prod.fst := by
      rw [map_append, map_cons] at h
      exact fun hmem => (nodup_append.mp h).2.2 _ hmem _ mem_cons_self rfl
    rw [foldl_cons, hdefine out m.1 m.2 hm, foldl_define hdefine ms (out ++ [(m.1, m.2)]),
      append_assoc, singleton_append]
    rw [append_assoc, singleton_append]
    exact h

theorem define_kept (keep : V → Bool) (hdefine : Appends define) {out : List (K × V)}
    (hnodup : ((e :: es).map Entry.key).Nodup)
    (hfresh : ∀ e' ∈ e :: es, e'.key ∉ out.map Prod.fst) :
    ∃ out', (if keep e.result then define out e.key e.result else out) = out' ∧
      out ++ kept keep (e :: es) = out' ++ kept keep es ∧
      ∀ e' ∈ es, e'.key ∉ out'.map Prod.fst := by
  refine ⟨_, rfl, ?_⟩
  have hrest : ∀ e' ∈ es, e'.key ∉ out.map Prod.fst := fun e' he' =>
    hfresh e' (mem_cons_of_mem _ he')
  by_cases hkeep : keep e.result
  · rw [if_pos hkeep, hdefine _ _ _ (hfresh e mem_cons_self), kept_cons_of_keep hkeep,
      append_assoc, singleton_append]
    refine ⟨rfl, fun e' he' hmem => ?_⟩
    rw [map_append, mem_append, map_singleton, mem_singleton] at hmem
    rcases hmem with hmem | heq
    · exact hrest e' he' hmem
    · rw [map_cons, nodup_cons] at hnodup
      have heq : e'.key = e.key := heq
      exact hnodup.1 (heq ▸ mem_map_of_mem he')
  · rw [if_neg hkeep, kept_cons_of_not_keep hkeep]
    exact ⟨rfl, hrest⟩

theorem membersLoop_some (hdefine : Appends define) :
    ∀ (es : List (Entry K V)) (before out : List (K × V)), (es.map Entry.key).Nodup →
      (∀ e ∈ es, e.key ∉ out.map Prod.fst) →
      membersLoop define force keep before (some out) es = some (out ++ kept keep es)
  | [], _, out, _, _ => by rw [membersLoop, kept, List.filter_nil, List.map_nil, List.append_nil]
  | e :: es, before, out, hnodup, hfresh => by
    obtain ⟨out', hout', hkept, hfresh'⟩ := define_kept keep hdefine hnodup hfresh
    have hrest := membersLoop_some hdefine es (before ++ [e.old]) out' (nodup_cons.mp hnodup).2
      hfresh'
    rw [hkept, ← hrest, ← hout']
    rfl

theorem membersLoop_none (hdefine : Appends define) :
    ∀ (es : List (Entry K V)) (before : List (K × V)),
      (before.map Prod.fst ++ es.map Entry.key).Nodup →
      (∀ e ∈ es, e.fresh = none → force e.key e.value = false → keep e.value) →
      (membersLoop define force keep before none es).getD (before ++ es.map Entry.old) =
        before ++ kept keep es
  | [], before, _, _ => rfl
  | e :: es, before, hnodup, hsame => by
    obtain ⟨hbefore, hes, hdisjoint⟩ := nodup_append.mp hnodup
    by_cases hstart : e.fresh.isSome || force e.key e.value
    · -- the copy begins here
      have hfresh : ∀ e' ∈ e :: es, e'.key ∉ before.map Prod.fst := fun e' he' hmem =>
        hdisjoint _ hmem _ (mem_map_of_mem he') rfl
      obtain ⟨out', hout', hkept, hfresh'⟩ := define_kept keep hdefine hes hfresh
      have hcopy : before.foldl (fun o m => define o m.1 m.2) [] = before :=
        foldl_define hdefine before [] hbefore
      unfold membersLoop
      dsimp only
      rw [if_pos (by rw [hstart]; rfl), hcopy, Option.map_some, hout',
        membersLoop_some hdefine es _ out' (nodup_cons.mp hes).2 hfresh', Option.getD_some,
        hkept]
    · rw [Bool.or_eq_true, not_or, Option.not_isSome_iff_eq_none, Bool.not_eq_true] at hstart
      obtain ⟨hnone, hforce⟩ := hstart
      have hkeep := hsame e mem_cons_self hnone hforce
      have hresult : e.result = e.value := by rw [Entry.result, hnone, Option.getD_none]
      have hnodup' : ((before ++ [e.old]).map Prod.fst ++ es.map Entry.key).Nodup := by
        rw [map_append, append_assoc]
        exact hnodup
      have hrest := membersLoop_none hdefine es (before ++ [e.old]) hnodup'
        fun e' he' => hsame e' (mem_cons_of_mem _ he')
      have hkept : kept keep (e :: es) = e.old :: kept keep es := by
        rw [← hresult] at hkeep
        rw [kept_cons_of_keep hkeep, Entry.new, hresult]
        rfl
      unfold membersLoop
      dsimp only
      rw [if_neg (by rw [hnone, hforce]; exact Bool.false_ne_true), Option.map_none, hkept]
      rw [append_assoc, append_assoc] at hrest
      exact hrest

theorem members_getD (hdefine : Appends define) (hnodup : (es.map Entry.key).Nodup)
    (hsame : ∀ e ∈ es, e.fresh = none → force e.key e.value = false → keep e.value) :
    (members define force keep es).getD (es.map Entry.old) = kept keep es :=
  membersLoop_none hdefine es [] hnodup hsame

variable {ε : Type}

theorem members_walk (force : K → V → Bool) (keep : V → Bool) (hdefine : Appends define)
    (hkeep : ∀ k v, force k v = false → keep v)
    {f : V → Except ε (Option V)} {g : V → V} {ms : List (K × V)}
    (hnodup : (ms.map Prod.fst).Nodup)
    (h : ∀ m ∈ ms, ∃ r, f m.2 = .ok r ∧ r.getD m.2 = g m.2) :
    ∃ es, walk (fun m => (f m.2).map (Entry.mk m.1 m.2)) ms = .ok es ∧
      (members define force keep es).getD ms =
        (ms.map fun m => (m.1, g m.2)).filter fun m => keep m.2 := by
  obtain ⟨es, hes, hold, hnew⟩ := walk_ok (f := fun m => (f m.2).map (Entry.mk m.1 m.2))
    (o := Entry.old) (n := Entry.new) (g := fun m => (m.1, g m.2)) fun m hm => by
      obtain ⟨r, hr, hg⟩ := h m hm
      exact ⟨⟨m.1, m.2, r⟩, by rw [hr]; rfl, rfl, congrArg (m.1, ·) hg⟩
  refine ⟨es, hes, ?_⟩
  have hkeys : (es.map Entry.key).Nodup := by
    rw [← hold, map_map] at hnodup
    exact hnodup
  have hmembers := members_getD hdefine hkeys fun e _ _ hforce => hkeep e.key e.value hforce
  rw [hold] at hmembers
  rw [hmembers, ← hnew, filter_map]
  rfl

end Members

end CopyOnWrite
