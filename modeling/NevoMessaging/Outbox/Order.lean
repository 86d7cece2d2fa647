import NevoMessaging.Outbox.Memory

/-!
# Order within a partition

A record with a partition key is emitted only when all records of its partition that precede
it in the store are published. A record precedes another one if it was created earlier, or at
the same time and inserted earlier. A record that has failed for good therefore blocks the
later records of its partition for ever.

All of this presupposes that every rejection of the publisher can be reported. If
`String(err)` throws, `flushOnce` rejects while the lanes of the other partitions are still at
work. The next flush then lists their records a second time, and the two flushes overtake each
other.

Results:
1. `listPending_ahead`: `listPending` returns the records of a partition in order, without a gap.
2. `ordered_reach`: the lanes of a flush stay in order in every run.
3. `partition_order`: what this means for the publisher.
4. `partition_order_broken`: a run with a rejection that cannot be reported.
-/

namespace NevoMessaging.Outbox

open List

variable {P X : Type} {c : StoreOptions} {o : Options X} {s s' : State P}

/-! ## Precedence -/

/-- `q` comes before `r` in the order of creation and then of insertion. -/
def Precedes (rows : List (OutboxRecord P)) (q r : OutboxRecord P) : Prop :=
  q ∈ rows ∧ r ∈ rows ∧
    (q.createdAt < r.createdAt ∨ (q.createdAt = r.createdAt ∧ [q, r].Sublist rows))

/-- The record is published, or it was published and is pruned. -/
def Done (s : State P) (id : String) : Prop :=
  (∃ r ∈ s.store.rows, r.id = id ∧ r.status = .published) ∨
    (Event.pruned id ∈ s.log ∧ Event.published id ∈ s.log)

instance (s : State P) (id : String) : Decidable (Done s id) :=
  inferInstanceAs (Decidable (_ ∨ _))

/-- The records that an action passes to the publisher, each with its flush. -/
def emissions (o : Options X) (s : State P) :
    Action P X → List (Flush P (Store P) × OutboxRecord P)
  | .relay n i a _ => match s.flushes[n]? with
    | none => []
    | some f => match f.step o i a with
      | none => []
      | some (_, e) => e.emitted.map fun r => (f, r)
  | _ => []

theorem mem_emissions {act : Action P X} {f : Flush P (Store P)} {r : OutboxRecord P}
    (h : (f, r) ∈ emissions o s act) :
    ∃ i a f' e, f ∈ s.flushes ∧ f.step o i a = some (f', e) ∧ r ∈ e.emitted := by
  cases act with
  | relay n i a now =>
    simp only [emissions] at h
    split at h
    · cases h
    · next g hn =>
      split at h
      · cases h
      · next f' e hf =>
        obtain ⟨r', hr', heq⟩ := mem_map.mp h
        cases heq
        exact ⟨i, a, f', e, mem_of_getElem? hn, hf, hr'⟩
  | _ => cases h

/-! ## The list that a flush works on -/

theorem sorted_of_precedes {rows : List (OutboxRecord P)} {q r : OutboxRecord P}
    (h : Precedes rows q r) :
    [q, r].Sublist (rows.insertionSort (·.createdAt ≤ ·.createdAt)) := by
  let le : OutboxRecord P → OutboxRecord P → Prop := (·.createdAt ≤ ·.createdAt)
  have htrans : IsTrans (OutboxRecord P) le := ⟨fun _ _ _ => le_trans⟩
  have htotal : Std.Total le := ⟨fun a b => le_total a.createdAt b.createdAt⟩
  obtain ⟨hq, hr, hlt | ⟨heq, hsub⟩⟩ := h
  · have hne : q ≠ r := fun heq => (heq ▸ hlt).false
    have hmem : ∀ x ∈ rows, x ∈ rows.insertionSort le := fun x => (mem_insertionSort le).mpr
    rcases Pairs.total (hmem q hq) (hmem r hr) hne with hsub | hsub
    · exact hsub
    · have hle := (pairwise_insertionSort le rows).sublist hsub
      exact absurd (pairwise_pair.mp hle) (not_le.mpr hlt)
  · exact pair_sublist_insertionSort (r := le) heq.le hsub

theorem listPending_ahead (limit : Int) (t : Store P) {ys zs : List (OutboxRecord P)}
    {q r : OutboxRecord P} (h : listPending limit t = ys ++ r :: zs) (hq : Precedes t.rows q r)
    (hp : SamePartition q r) : q.status = .published ∨ q ∈ ys := by
  obtain ⟨key, hkey⟩ := Option.ne_none_iff_exists'.mp hp.1
  have hd : (t.rows.insertionSort (·.createdAt ≤ ·.createdAt)).Nodup :=
    (perm_insertionSort _ t.rows).nodup_iff.mpr (List.Nodup.of_map _ t.nodup)
  exact (collect_ahead limit 0 [] hd h hkey).2 q (sorted_of_precedes hq) (hp.2.trans hkey)

/-! ## Order in every run -/

/-- What precedes a record in the store that its flush has listed. -/
def Before (f : Flush P (Store P)) (q r : OutboxRecord P) : Prop :=
  Precedes f.origin.rows q r ∧ SamePartition q r

/-- The lanes are in order. The rest is what the order of later flushes needs: the listed stores
and the present one agree on the order of the records, only the records of a running flush can
fail, and what is pruned does not come back. -/
structure Ordered (s : State P) : Prop where
  lanes : ∀ f ∈ s.flushes, ∀ x ∈ f.lanes, InOrder (Before f) (fun q => Done s q.id) x
  origin : ∀ f ∈ s.flushes, (f.origin.rows.map OutboxRecord.message).Sublist s.saved
  running : ∀ f ∈ s.flushes, f.todo ≠ [] → todos s.flushes ⊆ f.origin.rows
  failed : ∀ f ∈ s.flushes, f.todo ≠ [] →
    ∀ r ∈ s.store.rows, r.status = .failed → r.id ∈ f.origin.keys
  pruned : ∀ k, Event.pruned k ∈ s.log → k ∈ s.saved.map (·.id) ∧ k ∉ s.store.keys

theorem status_of_fresh {r : OutboxRecord P} (h : r.message = r) : r.status = .pending := by
  rw [← h]
  rfl

theorem kept_or_pruned (h : Inv s) (h' : Inv s') {now : Int} (hb : Begins c o now s s')
    {q : OutboxRecord P} (hq : q ∈ s.store.rows) :
    q ∈ s'.store.rows ∨ (Event.pruned q.id ∈ s'.log ∧ Event.published q.id ∈ s'.log) := by
  have hsaved : q.message ∈ s'.saved := hb.saved ▸ h.rows.subset (mem_map_of_mem hq)
  refine (h'.kept q.message hsaved).imp_left fun hk => ?_
  obtain ⟨q', hq', hid⟩ := Table.mem_keys.mp hk
  exact s.store.eq_of_key_eq (mem_prune (hb.store ▸ hq')) hq hid ▸ hq'

theorem done_change (h : Inv s) (h' : Inv s') (hc : Change c o s s') {k : String}
    (hd : Done s k) : Done s' k := by
  cases hc with
  | append l new =>
    rcases hd with ⟨r, hr, hk⟩ | hd
    · exact .inl ⟨r, new.rows ▸ mem_append_left l hr, hk⟩
    · exact .inr (new.log ▸ hd)
  | flush now new =>
    have hlog : s.log ⊆ s'.log := new.log ▸ subset_append_left ..
    rcases hd with ⟨r, hr, rfl, hp⟩ | hd
    · exact (kept_or_pruned h h' new hr).imp_left fun hr' => ⟨r, hr', rfl, hp⟩
    · exact .inr ⟨hlog hd.1, hlog hd.2⟩
  | relay n i a now f f' e hn hf ha state =>
    subst state
    rcases hd with ⟨r, hr, hk, hp⟩ | hd
    · exact .inl ⟨r, mem_relayed hr (by simp [hp]), hk, hp⟩
    · exact .inr ⟨log_relayed hd.1, log_relayed hd.2⟩

theorem ordered_append (ho : Ordered s) (hdone : ∀ k, Done s k → Done s' k)
    {l : List (OutboxRecord P)} (new : Appends l s s') : Ordered s' where
  lanes := by
    rw [new.flushes]
    intro f hf x hx
    exact (ho.lanes f hf x hx).mono fun q => hdone q.id
  origin := by
    rw [new.flushes, new.saved]
    exact fun f hf => (ho.origin f hf).trans (sublist_append_left ..)
  running := new.flushes ▸ ho.running
  failed := by
    rw [new.flushes, new.rows]
    intro f hf htodo r hr hs
    rcases mem_append.mp hr with hr | hr
    · exact ho.failed f hf htodo r hr hs
    · rw [status_of_fresh (new.fresh r hr)] at hs
      cases hs
  pruned := by
    rw [new.log, new.saved, Table.keys, new.rows]
    intro k hk
    obtain ⟨hsaved, hkeys⟩ := ho.pruned k hk
    rw [map_append, map_append]
    refine ⟨mem_append_left _ hsaved, fun hmem => ?_⟩
    rcases mem_append.mp hmem with hmem | hmem
    · exact hkeys hmem
    · obtain ⟨r, hr, rfl⟩ := mem_map.mp hmem
      exact new.new r hr hsaved

theorem begin_ahead (h : Inv s) (h' : Inv s') {now : Int} (hb : Begins c o now s s')
    {limit : Int} {ys zs : List (OutboxRecord P)} {q r : OutboxRecord P}
    (heq : listPending limit (prunePublished c now s.store) = ys ++ r :: zs)
    (hq : Precedes s.store.rows q r) (hp : SamePartition q r) : Done s' q.id ∨ q ∈ ys := by
  obtain ⟨p, hrows, -⟩ := rows_prune c now s.store
  rcases kept_or_pruned h h' hb hq.1 with hq' | hk
  · -- `q` has survived the pruning
    have hr : r ∈ (prunePublished c now s.store).rows :=
      ((listPending_rows limit _).1 r (heq ▸ by simp)).1
    have hprec : Precedes (prunePublished c now s.store).rows q r := by
      refine ⟨hb.store ▸ hq', hr, hq.2.2.imp_right fun ⟨ht, hpair⟩ => ⟨ht, ?_⟩⟩
      have hkeep := hpair.filter p
      rw [← hrows] at hkeep
      rw [hb.store, hrows] at hq'
      rw [hrows] at hr
      rwa [filter_cons_of_pos (mem_filter.mp hq').2,
        filter_cons_of_pos (mem_filter.mp hr).2, filter_nil] at hkeep
    rcases listPending_ahead limit _ heq hprec hp with hpub | hmem
    · exact .inl (.inl ⟨q, hq', rfl, hpub⟩)
    · exact .inr hmem
  · exact .inl (.inr hk)

theorem ordered_flush (ho : Ordered s) (h : Inv s) (h' : Inv s')
    (hdone : ∀ k, Done s k → Done s' k) {now : Int} (hb : Begins c o now s s') : Ordered s' := by
  have hsub : ∀ x ∈ s'.store.rows, x ∈ s.store.rows := fun x hx => mem_prune (hb.store ▸ hx)
  have hold : ∀ f ∈ s.flushes, f.todo = [] := fun f hf =>
    flatMap_eq_nil_iff.mp (todos_nil h hb.idle) f hf
  constructor
  case lanes =>
    rw [hb.flushes]
    intro f hf
    rcases mem_append.mp hf with hf | hf
    · exact fun x hx => (ho.lanes f hf x hx).mono fun q => hdone q.id
    · rw [mem_singleton.mp hf]
      refine Flush.begin_inOrder (fun q r hq => hq.2) fun ys r zs heq q hq => ?_
      exact begin_ahead h h' hb heq hq.1 hq.2
  case origin =>
    rw [hb.flushes, hb.saved]
    intro f hf
    rcases mem_append.mp hf with hf | hf
    · exact ho.origin f hf
    · rw [mem_singleton.mp hf]
      exact h.rows
  case running =>
    rw [hb.flushes]
    intro f hf htodo r hr
    rcases mem_append.mp hf with hf | hf
    · exact absurd (hold f hf) htodo
    · rw [mem_singleton.mp hf]
      have hmem := ((listPending_rows _ _).1 r ((todos_begin h hb.idle _ _).subset hr)).1
      exact hsub r (hb.store ▸ hmem)
  case failed =>
    rw [hb.flushes]
    intro f hf htodo r hr _
    rcases mem_append.mp hf with hf | hf
    · exact absurd (hold f hf) htodo
    · rw [mem_singleton.mp hf]
      exact Table.mem_keys.mpr ⟨r, hsub r hr, rfl⟩
  case pruned =>
    rw [hb.log, hb.saved]
    intro k hk
    rcases mem_append.mp hk with hk | hk
    · obtain ⟨hsaved, hkeys⟩ := ho.pruned k hk
      refine ⟨hsaved, fun hmem => hkeys ?_⟩
      obtain ⟨r, hr, rfl⟩ := Table.mem_keys.mp hmem
      exact Table.mem_keys.mpr ⟨r, hsub r hr, rfl⟩
    · obtain ⟨r, hr, heq⟩ := mem_map.mp hk
      cases heq
      obtain ⟨hr, hkey⟩ := mem_filter.mp hr
      refine ⟨keys_subset h (Table.mem_keys.mpr ⟨r, hr, rfl⟩), ?_⟩
      rw [hb.store]
      simpa using hkey

section Relay

variable {n i : Nat} {a : Answer X} {now : Int} {f f' : Flush P (Store P)} {e : Effect P}

theorem ne_nil_of_subset {α : Type} {xs ys : List α} (h : xs ⊆ ys) (hx : xs ≠ []) : ys ≠ [] :=
  fun hy => hx (subset_nil.mp (hy ▸ h))

theorem mem_flushes_relayed (hn : s.flushes[n]? = some f) (hf : f.step o i a = some (f', e))
    {g : Flush P (Store P)} (hg : g ∈ (s.relayed o n f' e now).flushes) :
    ∃ g₀ ∈ s.flushes, g.origin = g₀.origin ∧ g.todo ⊆ g₀.todo ∧
      (g.lanes = g₀.lanes ∨ (g₀ = f ∧ g.lanes = f'.lanes)) := by
  obtain ⟨g', horigin, hlanes, -, heq⟩ := flushes_relayed o s n now f' e
  exact mem_step_flushes hn hf horigin hlanes (heq ▸ hg)

theorem not_pruned_relayed {k : String}
    (hk : Event.pruned k ∈ (s.relayed o n f' e now).log) : Event.pruned k ∈ s.log := by
  have hanswer : Event.pruned k ∉ answerEvents e := fun hev => (answerEvents_ne hev k).2.2 rfl
  have hmark : ∀ failure res id, Event.pruned k ∉ markEvents id failure res := by
    intro failure res id
    unfold markEvents
    split
    · simp
    · split
      · simp
      · split <;> simp
  unfold State.relayed at hk
  split at hk
  · exact (mem_append.mp hk).resolve_right hanswer
  · have hk := (mem_append.mp hk).resolve_right (hmark _ _ _)
    exact (mem_append.mp hk).resolve_right hanswer

theorem ordered_relay (ho : Ordered s) (h : Inv s)
    (hdone : ∀ k, Done s k → Done (s.relayed o n f' e now) k) (hn : s.flushes[n]? = some f)
    (hf : f.step o i a = some (f', e)) : Ordered (s.relayed o n f' e now) := by
  constructor
  case lanes =>
    intro g hg x hx
    obtain ⟨g₀, hg₀, horigin, -, hlanes⟩ := mem_flushes_relayed hn hf hg
    have hbefore : Before g = Before g₀ := by
      unfold Before
      rw [horigin]
    rw [hbefore]
    rcases hlanes with hlanes | ⟨rfl, hlanes⟩
    · exact (ho.lanes g₀ hg₀ x (hlanes ▸ hx)).mono fun q => hdone q.id
    · refine Flush.step_inOrder hf (ho.lanes g₀ hg₀) (fun q => hdone q.id) ?_ x (hlanes ▸ hx)
      intro r hm
      obtain ⟨r', hmarks⟩ := relayed_marks now h hn hf hm
      refine .inl ⟨marked o.attemptLimit now r.id none r', ?_, ?_, ?_⟩
      · rw [hmarks.rows]
        exact mem_map_of_mem hmarks.mem
      · rw [marked_id, id_eq_of_message hmarks.message]
      · rw [marked_published (id_eq_of_message hmarks.message) hmarks.pending]
  case origin =>
    intro g hg
    obtain ⟨g₀, hg₀, horigin, -⟩ := mem_flushes_relayed hn hf hg
    rw [horigin, saved_relayed]
    exact ho.origin g₀ hg₀
  case running =>
    intro g hg htodo
    obtain ⟨g₀, hg₀, horigin, hsub, -⟩ := mem_flushes_relayed hn hf hg
    rw [horigin]
    exact fun r hr => ho.running g₀ hg₀ (ne_nil_of_subset hsub htodo)
      ((todos_relayed now hn hf).subset (mem_append_right _ hr))
  case failed =>
    intro g hg htodo x hx hs
    obtain ⟨g₀, hg₀, horigin, hsub, -⟩ := mem_flushes_relayed hn hf hg
    have htodo₀ : g₀.todo ≠ [] := ne_nil_of_subset hsub htodo
    rw [horigin]
    cases hm : e.mark with
    | none =>
      rw [relayed_none hm] at hx
      exact ho.failed g₀ hg₀ htodo₀ x hx hs
    | some m =>
      obtain ⟨r, failure⟩ := m
      obtain ⟨r', hmarks⟩ := relayed_marks now h hn hf hm
      rw [hmarks.rows] at hx
      obtain ⟨y, hy, rfl⟩ := mem_map.mp hx
      rw [marked_id]
      by_cases hk : y.id = r.id
      · -- the record that has just failed is one of the running flush
        have hr := ho.running g₀ hg₀ htodo₀ (hmarks.todos.subset mem_cons_self)
        exact hk ▸ Table.mem_keys.mpr ⟨r, hr, rfl⟩
      · rw [marked_of_ne hk] at hs
        exact ho.failed g₀ hg₀ htodo₀ y hy hs
  case pruned =>
    intro k hk
    rw [saved_relayed, keys_relayed]
    exact ho.pruned k (not_pruned_relayed hk)

end Relay

theorem ordered_step (ho : Ordered s) (h : Inv s) (h' : Inv s') (hc : Change c o s s') :
    Ordered s' := by
  have hdone : ∀ k, Done s k → Done s' k := fun k => done_change h h' hc
  cases hc with
  | append l new => exact ordered_append ho hdone new
  | flush now new => exact ordered_flush ho h h' hdone new
  | relay n i a now f f' e hn hf ha state =>
    subst state
    exact ordered_relay ho h hdone hn hf

theorem ordered_reach (h : (machine c o).Reach (reportable o) s) : Ordered s := by
  induction h with
  | init => constructor <;> simp [machine]
  | step hr hok hs ih =>
    have hi := inv_reach hr
    exact ordered_step ih hi (inv_step hi hs hok) (step_change hi hs hok).1

/-! ## What the publisher sees -/

theorem nodup_saved (h : Inv s) : (s.saved.map (·.id)).Nodup := by
  refine h.known.sublist ?_
  rw [State.known, append_assoc, map_append]
  exact sublist_append_left ..

variable {q r : OutboxRecord P}

theorem message_eq_of_id (h : Inv s) (hq : q.message ∈ s.saved) (hr : r.message ∈ s.saved)
    (hid : q.id = r.id) : q.message = r.message :=
  inj_on_of_nodup_map (nodup_saved h) hq hr hid

theorem precedes_origin (h : Inv s) {origin : Store P}
    (ho : (origin.rows.map OutboxRecord.message).Sublist s.saved) {q₀ r₀ : OutboxRecord P}
    (hq₀ : q₀ ∈ origin.rows) (hr₀ : r₀ ∈ origin.rows) (hq : q₀.message = q.message)
    (hr : r₀.message = r.message) (hp : Precedes s.store.rows q r) :
    Precedes origin.rows q₀ r₀ := by
  refine ⟨hq₀, hr₀, ?_⟩
  rw [createdAt_eq_of_message hq, createdAt_eq_of_message hr]
  refine hp.2.2.imp_right fun ⟨ht, hsub⟩ => ⟨ht, ?_⟩
  have hsaved : [q₀.message, r₀.message].Sublist s.saved := by
    rw [hq, hr]
    exact (hsub.map OutboxRecord.message).trans h.rows
  have hd : s.saved.Nodup := List.Nodup.of_map _ (nodup_saved h)
  have hne : q₀ ≠ r₀ := by
    rintro rfl
    have hpair := hd.sublist hsaved
    simp at hpair
  rcases Pairs.total hq₀ hr₀ hne with hl | hl
  · exact hl
  · exact (Pairs.asymm hd hsaved ((hl.map OutboxRecord.message).trans ho)).elim

variable {act : Action P X} {f : Flush P (Store P)}

theorem emits_origin (ho : Ordered s) (h : (f, r) ∈ emissions o s act) :
    f ∈ s.flushes ∧ f.todo ≠ [] ∧ r ∈ f.origin.rows ∧ r ∈ todos s.flushes := by
  obtain ⟨i, a, f', e, hf, hstep, hr⟩ := mem_emissions h
  have htodo := Flush.step_emitted hstep hr
  have hne : f.todo ≠ [] := ne_nil_of_mem htodo
  have hmem : r ∈ todos s.flushes := mem_flatMap.mpr ⟨f, hf, htodo⟩
  exact ⟨hf, hne, ho.running f hf hne hmem, hmem⟩

theorem emits_done (ho : Ordered s) (h : (f, r) ∈ emissions o s act)
    (hq : Precedes f.origin.rows q r) (hp : SamePartition q r) : Done s q.id := by
  obtain ⟨i, a, f', e, hf, hstep, hr⟩ := mem_emissions h
  exact Flush.emits_inOrder hstep (ho.lanes f hf) hr ⟨hq, hp⟩

theorem failed_blocks (h : Inv s) (ho : Ordered s) {r' : OutboxRecord P} (hq : q ∈ s.store.rows)
    (hs : q.status = .failed) (he : (f, r) ∈ emissions o s act) (hp : SamePartition q r)
    (hid : r'.id = r.id) :
    ¬ Precedes s.store.rows q r' := by
  intro hprec
  obtain ⟨hf, hne, hr, -⟩ := emits_origin ho he
  obtain ⟨q₀, hq₀, hq₀id⟩ := Table.mem_keys.mp (ho.failed f hf hne q hq hs)
  have hstore : ∀ x ∈ s.store.rows, x.message ∈ s.saved := fun x hx =>
    h.rows.subset (mem_map_of_mem hx)
  have horigin : ∀ x ∈ f.origin.rows, x.message ∈ s.saved := fun x hx =>
    (ho.origin f hf).subset (mem_map_of_mem hx)
  have hmq : q₀.message = q.message :=
    message_eq_of_id h (horigin q₀ hq₀) (hstore q hq) hq₀id
  have hmr : r.message = r'.message :=
    message_eq_of_id h (horigin r hr) (hstore r' hprec.2.1) hid.symm
  have hkey := partitionKey_eq_of_message hmq
  have hdone := emits_done ho he (precedes_origin h (ho.origin f hf) hq₀ hr hmq hmr hprec)
    ⟨hp.1, hkey.trans hp.2⟩
  rw [hq₀id] at hdone
  rcases hdone with ⟨x, hx, hxid, hxs⟩ | ⟨hpruned, -⟩
  · rw [s.store.eq_of_key_eq hx hq hxid, hs] at hxs
    cases hxs
  · exact (ho.pruned q.id hpruned).2 (Table.mem_keys.mpr ⟨q, hq, rfl⟩)

theorem failed_change (hc : Change c o s s') (hq : q ∈ s.store.rows) (hs : q.status = .failed) :
    q ∈ s'.store.rows := by
  cases hc with
  | append l new => exact new.rows ▸ mem_append_left l hq
  | flush now new =>
    obtain ⟨p, hrows, hpub⟩ := rows_prune c now s.store
    rw [new.store, hrows]
    refine mem_filter.mpr ⟨hq, Bool.of_not_eq_false fun hp => ?_⟩
    rw [hpub q hq hp] at hs
    cases hs
  | relay n i a now f f' e hn hf ha state =>
    subst state
    exact mem_relayed hq (by simp [hs])

theorem failed_later (h : (machine c o).Reach (reportable o) s) {q : OutboxRecord P}
    (hq : q ∈ s.store.rows) (hs : q.status = .failed) {t : State P}
    (ht : ((machine c o).restart s).Reach (reportable o) t) : q ∈ t.store.rows := by
  induction ht with
  | init => exact hq
  | step hr hok hstep ih =>
    have hi := inv_reach (h.restart hr)
    exact failed_change (step_change hi hstep hok).1 ih hs

/-- In a run in which every rejection of the publisher is reported, whenever a record with a
partition key is emitted, every record of its partition that was in the store when the flush
listed it and that precedes it is published, or pruned as published. A record that has failed
stays in the store for ever and blocks all records of its partition that it precedes. -/
theorem partition_order (c : StoreOptions) (o : Options X) {s : State P}
    (h : (machine c o).Reach (reportable o) s) :
    (∀ act f r, (f, r) ∈ emissions o s act → r ∈ f.origin.rows ∧
      ∀ q, Precedes f.origin.rows q r → SamePartition q r → Done s q.id) ∧
    (∀ q ∈ s.store.rows, q.status = .failed →
      ∀ t, ((machine c o).restart s).Reach (reportable o) t → q ∈ t.store.rows ∧
        ∀ act f r, (f, r) ∈ emissions o t act → SamePartition q r →
          ∀ r', r'.id = r.id → ¬ Precedes t.store.rows q r') := by
  refine ⟨fun act f r he => ?_, fun q hq hs t ht => ?_⟩
  · have ho := ordered_reach h
    exact ⟨(emits_origin ho he).2.2.1, fun q hq hp => emits_done ho he hq hp⟩
  · have hlater := failed_later h hq hs ht
    have hr := h.restart ht
    refine ⟨hlater, fun act f r he hp r' hid => ?_⟩
    exact failed_blocks (inv_reach hr) (ordered_reach hr) hlater hs he hp hid

/-- The publisher rejects with an error, or with an object without a prototype, for which
`String(err)` throws. Records fail for good at the first failure. -/
def oneAttempt : Options Bool where
  maxAttempts := some 1
  messageOf printable := if printable then some "broker down" else none

/-- The next step of the first flush emits a record of a partition after one with `p` that was
created earlier. -/
def emitsLater (p : State Unit → OutboxRecord Unit → Bool) (s : State Unit) : Bool :=
  (emissions oneAttempt s (.relay 0 0 .go 8)).any fun x =>
    x.1.origin.rows.any fun q => x.1.origin.rows.contains x.2 && x.2.partitionKey.isSome &&
      (q.partitionKey = x.2.partitionKey && (q.createdAt < x.2.createdAt && p s q))

theorem emitsLater_spec {p : State Unit → OutboxRecord Unit → Bool} {s : State Unit}
    (h : emitsLater p s = true) :
    ∃ act f q r, (f, r) ∈ emissions oneAttempt s act ∧ Precedes f.origin.rows q r ∧
      SamePartition q r ∧ p s q := by
  simp only [emitsLater, any_eq_true, Bool.and_eq_true, decide_eq_true_eq,
    contains_iff_mem] at h
  obtain ⟨⟨f, r⟩, he, q, hq, ⟨hr, hkey⟩, hpart, hlt, hpq⟩ := h
  exact ⟨_, f, q, r, he, ⟨hq, hr, .inl hlt⟩, ⟨Option.isSome_iff_ne_none.mp hkey, hpart⟩, hpq⟩

theorem partition_order_second :
    ∃ (s : State Unit) (act : _) (f : _) (q r : OutboxRecord Unit),
      (machine {} oneAttempt).Reach (reportable oneAttempt) s ∧
      (f, r) ∈ emissions oneAttempt s act ∧ Precedes f.origin.rows q r ∧ SamePartition q r ∧
      Done s q.id := by
  obtain ⟨s, hs, hobs⟩ := Machine.Reach.observe (machine {} oneAttempt) (reportable oneAttempt)
    [.enqueue none "a1" "orders" "order.created" () (some "a") 0,
      .enqueue none "a2" "orders" "order.paid" () (some "a") 1, .flush 3, .relay 0 0 .go 3,
      .relay 0 0 .resolved 4, .relay 0 0 .stored 4]
    (emitsLater fun _ _ => true) true (by decide +kernel)
  obtain ⟨act, f, q, r, he, hq, hp, -⟩ := emitsLater_spec hobs
  exact ⟨s, act, f, q, r, hs, he, hq, hp, ((partition_order {} oneAttempt hs).1 act f r he).2 q
    hq hp⟩

/-! ## A rejection that cannot be reported -/

/-- Two records of one partition and one of another; the emission of `b1` rejects with the
object without a prototype while `a1` is on its way. The flush rejects, the next one emits `a1`
again, and this time the broker is down, so `a1` fails for good. Then the first emission of
`a1` resolves and the first flush goes on. -/
def orphaned : List (Action Unit Bool) :=
  [.enqueue none "a1" "orders" "order.created" () (some "a") 0,
    .enqueue none "a2" "orders" "order.paid" () (some "a") 1,
    .enqueue none "b1" "orders" "order.created" () (some "b") 2,
    .flush 3,
    .relay 0 0 .go 3, .relay 0 1 .go 3, .relay 0 1 (.rejected false) 4,
    .flush 5,
    .relay 1 0 .go 5, .relay 1 0 (.rejected true) 6, .relay 1 0 .stored 6,
    .relay 0 0 .resolved 7, .relay 0 0 .stored 7]

/-- Without the condition `a2` is emitted after `a1` has failed for good. -/
theorem partition_order_broken :
    ∃ s : State Unit, (machine {} oneAttempt).Reach Machine.free s ∧
      ∃ act f q r, (f, r) ∈ emissions oneAttempt s act ∧ Precedes f.origin.rows q r ∧
        SamePartition q r ∧ ¬ Done s q.id := by
  obtain ⟨s, hs, hobs⟩ := Machine.Reach.observe (machine {} oneAttempt) Machine.free orphaned
    (emitsLater fun s q => decide (¬ Done s q.id)) true (by decide +kernel)
  obtain ⟨act, f, q, r, he, hq, hp, hdone⟩ := emitsLater_spec hobs
  exact ⟨s, hs, act, f, q, r, he, hq, hp, of_decide_eq_true hdone⟩

end NevoMessaging.Outbox
