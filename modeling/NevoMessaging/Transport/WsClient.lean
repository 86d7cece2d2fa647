import NevoMessaging.Lib.Machine

/-!
# NevoWsClient

The queries to one service share an entry: the socket that is in use, the promise of the socket that
is being opened, and the queries that wait for a reply. When a socket emits `close`, all queries of
the entry are rejected. An entry can have more than one socket that has not emitted `close` yet:
`close()` only begins to close a socket, a query opens a new one as soon as the socket in use is not
open, and the timer after a lost connection opens one even if there is an open one by then.

Sockets, entries and queries are numbered in the order of their creation, and only one service is
looked at. A query is one call of `send`. What comes from outside is an action: calls, the events of
a socket, timers. `emitted` stands for the calls that only need an open socket (`emit`, `publish`,
`broadcast`, `subscribe`).

Results:
1. `did_step`: what a step can do. A socket becomes live only if it is opened.
2. `Did.wired`: if a socket is only opened when its entry has no live one, then the only live one
   is the one in use.
3. `rejected_by_own_socket`, `late_close_rejects`: live are the sockets that have not emitted
   `close`.
4. `one_open_socket`, `reconnect_opens_second`: live are the sockets that are open or awaited.
-/

namespace NevoMessaging.WsClient

open List

inductive ReadyState
  | connecting
  | «open»
  | closing
  | closed
deriving DecidableEq, Repr

inductive ErrorCode
  | timeout
  | connectionLost
deriving DecidableEq, Repr

/-- The promise of `openSocket`. -/
inductive Opening
  | pending
  | resolved
  | rejected (code : ErrorCode)
deriving DecidableEq, Repr

structure Socket where
  entry : Nat
  readyState : ReadyState := .connecting
  connectTimer : Bool := true
  promise : Opening := .pending

structure ServiceSocket where
  socket : Option Nat := none
  opening : Option Nat := none
  pending : List (String × Nat) := []
  reconnectAttempt : Nat := 0
  reconnectTimers : Nat := 0
  closed : Bool := false

/-- How a query ends. `closedBeforeReply` is the rejection with `CONNECTION_LOST` by the `close`
event of a socket, `clientClosed` the one by `close()`. `notOpened` is what `openSocket` rejects
with, and `notSent` what `send` throws on a socket that is still connecting. -/
inductive Outcome
  | replied
  | timedOut
  | notOpened (code : ErrorCode)
  | notSent
  | closedBeforeReply
  | clientClosed
deriving DecidableEq, Repr

/-- Where a query stands. It waits for a socket to open (for none if there is an open one), was sent
on a socket, or has ended. -/
inductive QueryPhase
  | waiting (socket : Option Nat)
  | sent (socket : Nat)
  | ended (socket : Option Nat) (outcome : Outcome)
deriving DecidableEq, Repr

structure Query where
  uuid : String
  entry : Nat
  phase : QueryPhase
  timer : Bool := false

structure State where
  sockets : List Socket := []
  entries : List ServiceSocket := []
  /-- The entry in the map `sockets` of the client. -/
  current : Option Nat := none
  queries : List Query := []

inductive Action
  | query (uuid : String)
  | emitted
  | send (q : Nat)
  | queryTimeout (q : Nat)
  | connectTimeout (k : Nat)
  | opened (k : Nat)
  | errored (k : Nat)
  | closing (k : Nat)
  | closed (k : Nat)
  | reply (k : Nat) (uuid : String)
  | reconnect (e : Nat)
  | close

/-! ## Queries -/

def QueryPhase.settle (outcome : Outcome) : QueryPhase → QueryPhase
  | .waiting _ => .ended none outcome
  | .sent k => .ended (some k) outcome
  | .ended k first => .ended k first

/-- A promise keeps its first outcome. The timer of the query is cleared or has fired. -/
def Query.settle (outcome : Outcome) (q : Query) : Query :=
  { q with phase := q.phase.settle outcome, timer := false }

/-- The queries that wait on the entry are rejected. -/
def rejectPending (outcome : Outcome) (pending : List (String × Nat)) (queries : List Query) :
    List Query :=
  queries.mapIdx fun i q => if pending.any (·.2 = i) then q.settle outcome else q

/-- `Map.set`. -/
def setPending (uuid : String) (q : Nat) (pending : List (String × Nat)) : List (String × Nat) :=
  if pending.any (·.1 = uuid) then pending.map fun p => if p.1 = uuid then (uuid, q) else p
  else pending ++ [(uuid, q)]

/-- `Map.delete`. -/
def deletePending (uuid : String) (pending : List (String × Nat)) : List (String × Nat) :=
  pending.filter (·.1 ≠ uuid)

/-! ## Sockets -/

/-- `settle` of the socket `k`, which also ends the opening of its entry. -/
def State.settle (s : State) (k : Nat) (result : Opening) : State :=
  match s.sockets[k]? with
  | none => s
  | some socket =>
    if socket.promise = .pending then
      { s with
        sockets := s.sockets.modify k fun x => { x with promise := result }
        entries := s.entries.modify socket.entry fun e =>
          if e.opening = some k then { e with opening := none } else e }
    else s

def ServiceSocket.use (k : Nat) (e : ServiceSocket) : ServiceSocket :=
  { e with opening := some k, socket := some k }

/-- `openSocket`: the socket whose promise is awaited. -/
def State.openSocket (s : State) (e : Nat) : State × Option Nat :=
  match (s.entries[e]?).bind (·.opening) with
  | some k => (s, some k)
  | none =>
    let k := s.sockets.length
    ({ s with
        sockets := s.sockets ++ [{ entry := e }]
        entries := s.entries.modify e (ServiceSocket.use k) }, some k)

def State.readyState (s : State) (k : Option Nat) : Option ReadyState :=
  (k.bind (s.sockets[·]?)).map (·.readyState)

/-- `this.sockets.get(normalized)`. -/
def State.entry? (s : State) : Option (Nat × ServiceSocket) :=
  s.current.bind fun e => (s.entries[e]?).map (e, ·)

/-- `getSocket` up to its first `await`: the entry, and the socket that it waits for. -/
def State.getSocket (s : State) : State × Nat × Option Nat :=
  match s.entry? with
  | some (e, entry) =>
    if s.readyState entry.socket = some .open then (s, e, none)
    else
      let (s, k) := s.openSocket e
      (s, e, k)
  | none =>
    let e := s.entries.length
    let (s, k) := { s with entries := s.entries ++ [{}], current := some e : State }.openSocket e
    (s, e, k)

def Socket.setReady (readyState : ReadyState) (x : Socket) : Socket :=
  { x with readyState, connectTimer := false }

def Socket.clearTimer (x : Socket) : Socket := { x with connectTimer := false }

/-- `ws.close()`: the `close` event comes later. -/
def Socket.close (x : Socket) : Socket :=
  if x.readyState = .connecting ∨ x.readyState = .open then { x with readyState := .closing } else x

/-- `send` throws on a socket that is connecting, and drops the data on one that is no longer
open. -/
def State.sentOn (s : State) (e : Nat) : QueryPhase :=
  match (s.entries[e]?).bind (·.socket) with
  | none => .ended none .notSent
  | some k => if s.readyState (some k) = some .connecting then .ended none .notSent else .sent k

def State.send (s : State) (i : Nat) (q : Query) : State :=
  { s with
    entries := s.entries.modify q.entry fun e => { e with pending := setPending q.uuid i e.pending }
    queries := s.queries.modify i fun q => { q with phase := s.sentOn q.entry, timer := true } }

def State.notOpened (s : State) (i : Nat) (code : ErrorCode) : State :=
  { s with queries := s.queries.modify i fun q =>
    { q with phase := .ended none (.notOpened code) } }

/-- A query goes on when its `getSocket` has settled. -/
def State.resume (s : State) (i : Nat) (q : Query) : Option State :=
  match q.phase with
  | .waiting none => some (s.send i q)
  | .waiting (some k) =>
    match (s.sockets[k]?).map Socket.promise with
    | some .resolved => some (s.send i q)
    | some (.rejected code) => some (s.notOpened i code)
    | _ => none
  | _ => none

def ServiceSocket.scheduleReconnect (maxReconnectAttempts : Int) (e : ServiceSocket) :
    ServiceSocket :=
  if e.closed then e
  else if 0 ≤ maxReconnectAttempts ∧ maxReconnectAttempts ≤ e.reconnectAttempt then e
  else { e with
    reconnectAttempt := e.reconnectAttempt + 1, reconnectTimers := e.reconnectTimers + 1 }

/-- The `close` event of the socket `k`. -/
def State.onClose (maxReconnectAttempts : Int) (s : State) (k : Nat) (socket : Socket) : State :=
  let s := { s with sockets := s.sockets.modify k (Socket.setReady .closed) }
  let s := s.settle k (.rejected .connectionLost)
  let pending := ((s.entries[socket.entry]?).map (·.pending)).getD []
  { s with
    queries := rejectPending .closedBeforeReply pending s.queries
    entries := s.entries.modify socket.entry fun e =>
      { e with pending := [] }.scheduleReconnect maxReconnectAttempts }

def ServiceSocket.close (e : ServiceSocket) : ServiceSocket :=
  { e with closed := true, pending := [] }

/-- What `close` does with the entry, apart from closing its socket. -/
def State.closeEntry (s : State) (e : Nat) (entry : ServiceSocket) : State :=
  { s with
    entries := s.entries.modify e ServiceSocket.close
    queries := rejectPending .clientClosed entry.pending s.queries
    current := none }

def State.step (maxReconnectAttempts : Int) (s : State) : Action → Option State
  | .query uuid =>
    let (s, entry, k) := s.getSocket
    some { s with queries := s.queries ++ [{ uuid, entry, phase := .waiting k }] }
  | .emitted => some s.getSocket.1
  | .send i => s.queries[i]?.bind (s.resume i)
  | .queryTimeout i => s.queries[i]?.bind fun q =>
    if q.timer then
      some { s with
        entries := s.entries.modify q.entry fun e =>
          { e with pending := deletePending q.uuid e.pending }
        queries := s.queries.modify i (Query.settle .timedOut) }
    else none
  | .connectTimeout k => s.sockets[k]?.bind fun socket =>
    if socket.connectTimer then
      let s := { s with sockets := s.sockets.modify k Socket.clearTimer }
      let s := s.settle k (.rejected .timeout)
      some { s with sockets := s.sockets.modify k Socket.close }
    else none
  | .opened k => s.sockets[k]?.bind fun socket =>
    if socket.readyState = .connecting then
      let s := { s with
        sockets := s.sockets.modify k (Socket.setReady .open)
        entries := s.entries.modify socket.entry fun e => { e with reconnectAttempt := 0 } }
      some (s.settle k .resolved)
    else none
  | .errored k => s.sockets[k]?.bind fun socket =>
    if socket.readyState ≠ .closed then
      let s := { s with sockets := s.sockets.modify k Socket.clearTimer }
      some (s.settle k (.rejected .connectionLost))
    else none
  | .closing k => s.sockets[k]?.bind fun socket =>
    if socket.readyState = .open then
      some { s with sockets := s.sockets.modify k fun x => { x with readyState := .closing } }
    else none
  | .closed k => s.sockets[k]?.bind fun socket =>
    if socket.readyState ≠ .closed then some (s.onClose maxReconnectAttempts k socket) else none
  | .reply k uuid => s.sockets[k]?.bind fun socket =>
    if socket.readyState = .closed then none
    else
      match ((s.entries[socket.entry]?).map (·.pending)).bind (·.lookup uuid) with
      | none => some s
      | some i =>
        if uuid = "" then some s
        else some { s with
          entries := s.entries.modify socket.entry fun e =>
            { e with pending := deletePending uuid e.pending }
          queries := s.queries.modify i (Query.settle .replied) }
  | .reconnect e => s.entries[e]?.bind fun entry =>
    if 0 < entry.reconnectTimers then
      let s := { s with
        entries := s.entries.modify e fun x => { x with reconnectTimers := x.reconnectTimers - 1 } }
      some (s.openSocket e).1
    else none
  | .close =>
    match s.entry? with
    | none => some s
    | some (e, entry) =>
      let s := s.closeEntry e entry
      match entry.socket with
      | some k => some { s with sockets := s.sockets.modify k Socket.close }
      | none => some s

def wsClient (maxReconnectAttempts : Int) : Machine State Action where
  init := {}
  step := State.step maxReconnectAttempts

/-! ## Lists that are changed at one place -/

section Modify

variable {α β : Type} {l : List α} {f : α → α} {j k : Nat} {x y : α}

theorem getElem?_modify_some :
    (l.modify k f)[j]? = some y ↔ ∃ x, l[j]? = some x ∧ (if k = j then f x else x) = y := by
  rw [getElem?_modify, Option.map_eq_map, Option.map_eq_some_iff]

theorem bind_modify {g : α → Option β} (h : ∀ x, g (f x) = g x) :
    ((l.modify k f)[j]?).bind g = (l[j]?).bind g := by
  rw [getElem?_modify]
  cases l[j]? with
  | none => rfl
  | some x =>
    show g (if k = j then f x else x) = g x
    split
    · exact h x
    · rfl

theorem getElem?_concat_some :
    (l ++ [x])[j]? = some y ↔ l[j]? = some y ∨ j = l.length ∧ x = y := by
  rcases Nat.lt_trichotomy j l.length with hj | rfl | hj
  · simp [getElem?_append_left hj, Nat.ne_of_lt hj]
  · simp
  · rw [getElem?_eq_none (by simp; omega), getElem?_eq_none (Nat.le_of_lt hj)]
    simp [Nat.ne_of_gt hj]

theorem bind_guard {o : Option α} {p : α → Prop} [DecidablePred p] {g : α → β} {b : β}
    (h : (o.bind fun x => if p x then some (g x) else none) = some b) :
    ∃ x, o = some x ∧ p x ∧ g x = b := by
  obtain ⟨x, hx, h⟩ := Option.bind_eq_some_iff.mp h
  obtain ⟨hp, h⟩ := Option.ite_none_right_eq_some.mp h
  exact ⟨x, hx, hp, Option.some.inj h⟩

end Modify

/-! ## The socket in use -/

namespace State

/-- The socket in use. -/
def use (s : State) (e : Nat) : Option Nat := (s.entries[e]?).bind (·.socket)

/-- The socket that is being opened. -/
def opening (s : State) (e : Nat) : Option Nat := (s.entries[e]?).bind (·.opening)

/-- The entry of a query. -/
def owner (s : State) (i : Nat) : Option Nat := (s.queries[i]?).bind fun q => some q.entry

/-- Only the socket in use is live. -/
structure Wired (live : Socket → Prop) (s : State) : Prop where
  alone : ∀ {k : Nat} {x}, s.sockets[k]? = some x → live x → s.use x.entry = some k
  opening : ∀ {k : Nat} {x}, s.sockets[k]? = some x → x.promise = .pending →
    s.opening x.entry = some k
  own : ∀ {e k : Nat}, s.use e = some k → ∃ x, s.sockets[k]? = some x ∧ x.entry = e

/-- If the entry opens a socket, it has no live one. -/
def Free (live : Socket → Prop) (s : State) (e : Nat) : Prop :=
  s.opening e = none → ∀ x ∈ s.sockets, x.entry = e → ¬ live x

/-- Sockets stay with their entry, and what is closed stays closed. -/
structure Keeps (s s' : State) : Prop where
  sockets : ∀ {k : Nat} {x : Socket}, s.sockets[k]? = some x → ∃ x', s'.sockets[k]? = some x' ∧
    x'.entry = x.entry ∧ (x.readyState = .closed → x'.readyState = .closed)
  entries : ∀ {e : Nat} {x : ServiceSocket}, s.entries[e]? = some x → x.closed = true →
    ∃ x', s'.entries[e]? = some x' ∧ x'.closed = true

/-- A part of a step that has to do with sockets only. -/
structure Quiet (live : Socket → Prop) (s s' : State) : Prop where
  keeps : Keeps s s'
  wired : s.Wired live → s'.Wired live
  queries : s'.queries = s.queries
  pending : ∀ {e : Nat} {x' : ServiceSocket} {p}, s'.entries[e]? = some x' → p ∈ x'.pending →
    ∃ x, s.entries[e]? = some x ∧ p ∈ x.pending

end State

/-- What becomes of a socket that is not opened. -/
structure Socket.Ages (live : Socket → Prop) (x x' : Socket) : Prop where
  entry : x'.entry = x.entry
  closed : x.readyState = .closed → x'.readyState = .closed
  live : live x' → live x
  promise : x'.promise = .pending → x.promise = .pending

/-- Only by opening does a socket become live. -/
def Mortal (live : Socket → Prop) : Prop :=
  ∀ ⦃x x' : Socket⦄, (x'.readyState = .open → x.readyState = .open) →
    (x.readyState = .closed → x'.readyState = .closed) →
    (x'.promise = .pending → x.promise = .pending) → live x' → live x

namespace State

variable {s s' s'' : State} {live : Socket → Prop} {e k : Nat}

theorem Wired.modify (h : s.Wired live) {f : Socket → Socket}
    (hf : ∀ x, s.sockets[k]? = some x → x.Ages live (f x)) :
    Wired live { s with sockets := s.sockets.modify k f } := by
  have hages {j : Nat} {x' : Socket} (hx' : (s.sockets.modify k f)[j]? = some x') :
      ∃ x, s.sockets[j]? = some x ∧ x.Ages live x' := by
    obtain ⟨x, hx, rfl⟩ := getElem?_modify_some.mp hx'
    refine ⟨x, hx, ?_⟩
    split
    · next hj => exact hf x (hj ▸ hx)
    · exact ⟨rfl, id, id, id⟩
  refine ⟨fun hx hl => ?_, fun hx hp => ?_, fun {e j} hj => ?_⟩
  · obtain ⟨x, hx, hx'⟩ := hages hx
    exact hx'.entry ▸ h.alone hx (hx'.live hl)
  · obtain ⟨x, hx, hx'⟩ := hages hx
    exact hx'.entry ▸ h.opening hx (hx'.promise hp)
  · obtain ⟨x, hx, hxe⟩ := h.own hj
    have hnew : (s.sockets.modify k f)[j]? = some (if k = j then f x else x) :=
      getElem?_modify_some.mpr ⟨x, hx, rfl⟩
    obtain ⟨y, hy, hy'⟩ := hages hnew
    cases hx.symm.trans hy
    exact ⟨_, hnew, hy'.entry.trans hxe⟩

theorem Wired.entries (h : s.Wired live) {f : ServiceSocket → ServiceSocket}
    (hf : ∀ x, (f x).socket = x.socket ∧ (f x).opening = x.opening) {current : Option Nat}
    {queries : List Query} : Wired live ⟨s.sockets, s.entries.modify e f, current, queries⟩ where
  alone hx hl := (bind_modify fun x => (hf x).1).trans (h.alone hx hl)
  opening hx hp := (bind_modify fun x => (hf x).2).trans (h.opening hx hp)
  own hk := h.own ((bind_modify fun x => (hf x).1).symm.trans hk)

theorem Wired.openSocket (h : s.Wired live) (he : e < s.entries.length) (hfree : s.Free live e) :
    (s.openSocket e).1.Wired live := by
  unfold State.openSocket
  split
  · exact h
  · next hnone =>
    have hold (d : Nat) (hd : e ≠ d) :
        (s.entries.modify e (ServiceSocket.use s.sockets.length))[d]? = s.entries[d]? :=
      getElem?_modify_ne _ _ hd
    have hnew : (s.entries.modify e (ServiceSocket.use s.sockets.length))[e]? =
        some (s.entries[e].use s.sockets.length) :=
      getElem?_modify_some.mpr ⟨_, getElem?_eq_getElem he, if_pos rfl⟩
    refine ⟨fun {k x} hx hl => ?_, fun {k x} hx hp => ?_, fun {d k} hk => ?_⟩
    · rcases getElem?_concat_some.mp hx with hx | ⟨rfl, rfl⟩
      · have hne : e ≠ x.entry := fun heq => hfree hnone x (mem_of_getElem? hx) heq.symm hl
        exact (congrArg (Option.bind · _) (hold _ hne)).trans (h.alone hx hl)
      · exact congrArg (Option.bind · _) hnew
    · rcases getElem?_concat_some.mp hx with hx | ⟨rfl, rfl⟩
      · have hopening := h.opening hx hp
        have hne : e ≠ x.entry := by
          rintro rfl
          cases hnone.symm.trans hopening
        exact (congrArg (Option.bind · _) (hold _ hne)).trans hopening
      · exact congrArg (Option.bind · _) hnew
    · by_cases hd : e = d
      · subst hd
        cases (congrArg (Option.bind · ServiceSocket.socket) hnew).symm.trans hk
        exact ⟨_, getElem?_concat_some.mpr (.inr ⟨rfl, rfl⟩), rfl⟩
      · obtain ⟨x, hx, hxe⟩ := h.own ((congrArg (Option.bind · _) (hold d hd)).symm.trans hk)
        exact ⟨x, getElem?_concat_some.mpr (.inl hx), hxe⟩

theorem Wired.newEntry (h : s.Wired live) (current : Option Nat) :
    Wired live { s with entries := s.entries ++ [({} : ServiceSocket)], current } := by
  have hold {g : ServiceSocket → Option Nat} {e k : Nat} (hk : (s.entries[e]?).bind g = some k) :
      ((s.entries ++ [({} : ServiceSocket)])[e]?).bind g = some k := by
    obtain ⟨x, hx, hk⟩ := Option.bind_eq_some_iff.mp hk
    exact Option.bind_eq_some_iff.mpr ⟨x, getElem?_concat_some.mpr (.inl hx), hk⟩
  refine ⟨fun hx hl => hold (h.alone hx hl), fun hx hp => hold (h.opening hx hp), fun hk => ?_⟩
  obtain ⟨x, hx, hk⟩ := Option.bind_eq_some_iff.mp hk
  rcases getElem?_concat_some.mp hx with hx | ⟨-, rfl⟩
  · exact h.own (Option.bind_eq_some_iff.mpr ⟨x, hx, hk⟩)
  · cases hk

theorem Keeps.refl (s : State) : Keeps s s := ⟨fun hx => ⟨_, hx, rfl, id⟩, fun hx hc => ⟨_, hx, hc⟩⟩

theorem Keeps.trans (h : Keeps s s') (h' : Keeps s' s'') : Keeps s s'' where
  sockets hx := by
    obtain ⟨y, hy, hye, hyc⟩ := h.sockets hx
    obtain ⟨z, hz, hze, hzc⟩ := h'.sockets hy
    exact ⟨z, hz, hze.trans hye, fun hc => hzc (hyc hc)⟩
  entries hx hc := by
    obtain ⟨y, hy, hyc⟩ := h.entries hx hc
    exact h'.entries hy hyc

theorem Keeps.modify {f : ServiceSocket → ServiceSocket}
    (hf : ∀ x, x.closed = true → (f x).closed = true) {current : Option Nat}
    {queries : List Query} : Keeps s ⟨s.sockets, s.entries.modify e f, current, queries⟩ where
  sockets hx := ⟨_, hx, rfl, id⟩
  entries {d x} hx hc := by
    refine ⟨_, getElem?_modify_some.mpr ⟨x, hx, rfl⟩, ?_⟩
    split
    · exact hf x hc
    · exact hc

theorem pending_modify {f : ServiceSocket → ServiceSocket} {d : Nat} {x' : ServiceSocket}
    (hf : ∀ x, (f x).pending = x.pending) (h : (s.entries.modify e f)[d]? = some x') :
    ∃ x, s.entries[d]? = some x ∧ x'.pending = x.pending := by
  obtain ⟨x, hx, rfl⟩ := getElem?_modify_some.mp h
  refine ⟨x, hx, ?_⟩
  split
  · exact hf x
  · rfl

theorem entry?_eq_some {x : ServiceSocket} (h : s.entry? = some (e, x)) :
    s.entries[e]? = some x := by
  obtain ⟨e', -, h⟩ := Option.bind_eq_some_iff.mp h
  obtain ⟨x', hx, h⟩ := Option.map_eq_some_iff.mp h
  cases h
  exact hx

namespace Quiet

theorem trans (h : Quiet live s s') (h' : Quiet live s' s'') : Quiet live s s'' where
  keeps := h.keeps.trans h'.keeps
  wired hw := h'.wired (h.wired hw)
  queries := h'.queries.trans h.queries
  pending hx hp := by
    obtain ⟨y, hy, hp⟩ := h'.pending hx hp
    exact h.pending hy hp

theorem refl (s : State) : Quiet live s s := ⟨.refl s, id, rfl, fun hx hp => ⟨_, hx, hp⟩⟩

theorem sockets {f : Socket → Socket} (hf : ∀ x, s.sockets[k]? = some x → x.Ages live (f x)) :
    Quiet live s { s with sockets := s.sockets.modify k f } where
  keeps := by
    refine ⟨fun {j x} hx => ⟨_, getElem?_modify_some.mpr ⟨x, hx, rfl⟩, ?_⟩,
      fun hx hc => ⟨_, hx, hc⟩⟩
    split
    · next hj => exact ⟨(hf x (hj ▸ hx)).entry, (hf x (hj ▸ hx)).closed⟩
    · exact ⟨rfl, id⟩
  wired hw := hw.modify hf
  queries := rfl
  pending hx hp := ⟨_, hx, hp⟩

theorem entries {f : ServiceSocket → ServiceSocket}
    (hf : ∀ x, (f x).closed = x.closed ∧ (f x).pending = x.pending)
    (hwired : s.Wired live → Wired live { s with entries := s.entries.modify e f }) :
    Quiet live s { s with entries := s.entries.modify e f } where
  keeps := .modify fun x hc => (hf x).1.trans hc
  wired := hwired
  queries := rfl
  pending hx' hp := by
    obtain ⟨x, hx, hxp⟩ := pending_modify (fun x => (hf x).2) hx'
    exact ⟨x, hx, hxp ▸ hp⟩

theorem openSocket (he : e < s.entries.length) (hfree : s.Wired live → s.Free live e) :
    Quiet live s (s.openSocket e).1 := by
  have hwired (hw : s.Wired live) := hw.openSocket he (hfree hw)
  unfold State.openSocket at hwired ⊢
  split at hwired
  · exact .refl s
  · dsimp only at hwired ⊢
    have hkeeps : Keeps s ⟨s.sockets, s.entries.modify e (ServiceSocket.use s.sockets.length),
        s.current, s.queries⟩ := .modify (f := ServiceSocket.use _) fun _ hc => hc
    refine ⟨⟨fun hx => ⟨_, getElem?_concat_some.mpr (.inl hx), rfl, id⟩, hkeeps.entries⟩, hwired,
      rfl, fun hx' hp => ?_⟩
    obtain ⟨x, hx, hxp⟩ := pending_modify (f := ServiceSocket.use _) (fun _ => rfl) hx'
    exact ⟨x, hx, hxp ▸ hp⟩

theorem getSocket (hfree : ∀ p ∈ s.entry?, s.readyState p.2.socket = some .open ∨
      s.Free live p.1) : Quiet live s s.getSocket.1 := by
  unfold State.getSocket
  split
  · next e entry hentry =>
    split
    · exact .refl s
    · next hnot =>
      refine openSocket ?_ fun _ => (hfree _ hentry).resolve_left hnot
      exact (List.getElem?_eq_some_iff.mp (entry?_eq_some hentry)).1
  · have hnew : Quiet live s { s with
        entries := s.entries ++ [({} : ServiceSocket)], current := some s.entries.length } := by
      refine ⟨⟨fun hx => ⟨_, hx, rfl, id⟩, fun hx hc => ?_⟩, fun hw => hw.newEntry _, rfl,
        fun hx hp => ?_⟩
      · exact ⟨_, getElem?_concat_some.mpr (.inl hx), hc⟩
      · rcases getElem?_concat_some.mp hx with hx | ⟨-, rfl⟩
        · exact ⟨_, hx, hp⟩
        · cases hp
    refine hnew.trans (openSocket (by simp) fun hw _ x hx hxe hl => ?_)
    obtain ⟨k, hk⟩ := getElem?_of_mem hx
    have huse := hw.alone hk hl
    rw [hxe] at huse
    simp [use] at huse

variable (hlive : Mortal live)
include hlive

theorem age {f : Socket → Socket} (he : ∀ x, (f x).entry = x.entry)
    (ho : ∀ x, (f x).readyState = .open → x.readyState = .open)
    (hc : ∀ x, s.sockets[k]? = some x → x.readyState = .closed → (f x).readyState = .closed)
    (hp : ∀ x, (f x).promise = .pending → x.promise = .pending) :
    Quiet live s { s with sockets := s.sockets.modify k f } :=
  sockets fun x hx => ⟨he x, hc x hx, hlive (ho x) (hc x hx) (hp x), hp x⟩

theorem clearTimer : Quiet live s { s with sockets := s.sockets.modify k Socket.clearTimer } :=
  age hlive (fun _ => rfl) (fun _ => id) (fun _ _ => id) fun _ => id

theorem close : Quiet live s { s with sockets := s.sockets.modify k Socket.close } := by
  refine age hlive (fun x => ?_) (fun x => ?_) (fun x _ hc => ?_) fun x => ?_
  all_goals unfold Socket.close
  · split <;> rfl
  · split
    · exact nofun
    · exact id
  · simp [hc]
  · split <;> exact id

theorem settle {r : Opening} (hr : r ≠ .pending) : Quiet live s (s.settle k r) := by
  unfold State.settle
  split
  · exact .refl s
  · next socket _ =>
    split
    · refine (age hlive (f := fun x => { x with promise := r }) (fun _ => rfl) (fun _ => id)
        (fun _ _ => id) fun _ hp => absurd hp hr).trans
        (.entries (fun x => by split <;> exact ⟨rfl, rfl⟩) fun hset => ?_)
      have huse {d : Nat} : ((s.entries.modify socket.entry fun e =>
          if e.opening = some k then { e with opening := none } else e)[d]?).bind (·.socket) =
          s.use d := bind_modify fun e => by split <;> rfl
      refine ⟨fun hx hl => huse.trans (hset.alone hx hl), fun {j x} hx hp => ?_,
        fun hj => hset.own (huse.symm.trans hj)⟩
      -- a promise that is pending is not the one that was settled
      have hj : k ≠ j := by
        rintro rfl
        obtain ⟨y, -, rfl⟩ := getElem?_modify_some.mp hx
        rw [if_pos rfl] at hp
        exact hr hp
      obtain ⟨entry, hentry, hj'⟩ := Option.bind_eq_some_iff.mp (hset.opening hx hp)
      refine Option.bind_eq_some_iff.mpr ⟨_, getElem?_modify_some.mpr ⟨entry, hentry, rfl⟩, ?_⟩
      split
      · rw [if_neg (by rw [hj']; simpa using Ne.symm hj), hj']
      · exact hj'
    · exact .refl s

end Quiet

end State

/-! ## Steps -/

/-- The queries that wait on the entry are rejected. -/
def State.drop (s : State) (e : Nat) (f : ServiceSocket → ServiceSocket) (outcome : Outcome)
    (current : Option Nat) : State where
  sockets := s.sockets
  entries := s.entries.modify e f
  current
  queries := rejectPending outcome (((s.entries[e]?).map (·.pending)).getD []) s.queries

/-- One query ends, and its entry no longer waits for the reply. -/
def State.finish (s : State) (e i : Nat) (uuid : String) (outcome : Outcome) : State :=
  { s with
    entries := s.entries.modify e fun x => { x with pending := deletePending uuid x.pending }
    queries := s.queries.modify i (Query.settle outcome) }

def Outcome.code : Outcome → Option ErrorCode
  | .replied => none
  | .timedOut => some .timeout
  | .notOpened code => some code
  | .notSent => none
  | .closedBeforeReply => some .connectionLost
  | .clientClosed => some .connectionLost

/-- It has not emitted `close`. -/
def Socket.Alive (x : Socket) : Prop := x.readyState ≠ .closed

/-- What a step does. Queries of an entry are rejected together when its last socket has emitted
`close`, or the client is closed. -/
inductive Did (live : Socket → Prop) (s : State) : State → Prop
  | quiet {s'} (h : s.Quiet live s') : Did live s s'
  | query {t uuid e k} (h : s.Quiet live t) :
    Did live s { t with queries := t.queries ++ [⟨uuid, e, .waiting k, false⟩] }
  | send {i q} (hq : s.queries[i]? = some q) : Did live s (s.send i q)
  | notOpened {i code} : Did live s (s.notOpened i code)
  | finish {e i uuid outcome} (hcode : outcome.code ≠ some .connectionLost) :
    Did live s (s.finish e i uuid outcome)
  | drop {t e f outcome current s'} (h : s.Quiet live t)
    (hf : ∀ x, (f x).socket = x.socket ∧ (f x).opening = x.opening ∧ (f x).pending = [] ∧
      (x.closed = true → (f x).closed = true))
    (hwhy : (s.Wired Socket.Alive → ∀ x ∈ t.sockets, x.entry = e → x.readyState = .closed) ∨
      ∀ x, (f x).closed = true)
    (h' : (t.drop e f outcome current).Quiet live s') : Did live s s'

/-- A socket becomes live only if its entry has no other live one. -/
def Opens (live : Socket → Prop) (s : State) : Action → Prop
  | .query _ | .emitted =>
    ∀ p ∈ s.entry?, s.readyState p.2.socket = some .open ∨ s.Free live p.1
  | .reconnect e => s.Free live e
  | .opened k => ∀ x ∈ s.sockets[k]?, x.readyState = .connecting → live x
  | _ => True

section Steps

variable {s s' : State} {live : Socket → Prop} {a : Action} {e i k : Nat}
  {maxReconnectAttempts : Int}

theorem mem_settle {r : Opening} {x : Socket} (h : x ∈ (s.settle k r).sockets) :
    ∃ y ∈ s.sockets, y.entry = x.entry ∧ y.readyState = x.readyState := by
  unfold State.settle at h
  split at h
  · exact ⟨x, h, rfl, rfl⟩
  · split at h
    · obtain ⟨j, hj⟩ := getElem?_of_mem h
      obtain ⟨y, hy, rfl⟩ := getElem?_modify_some.mp hj
      exact ⟨y, mem_of_getElem? hy, by split <;> rfl, by split <;> rfl⟩
    · exact ⟨x, h, rfl, rfl⟩

theorem did_onClose (hlive : Mortal live) {socket : Socket} (hk : s.sockets[k]? = some socket)
    (hopen : socket.readyState ≠ .closed) :
    Did live s (s.onClose maxReconnectAttempts k socket) := by
  have hclose : s.Quiet live { s with sockets := s.sockets.modify k (Socket.setReady .closed) } :=
    .age hlive (fun _ => rfl) nofun (fun _ _ _ => rfl) fun _ => id
  refine .drop (hclose.trans (.settle hlive (r := .rejected .connectionLost) nofun)) (fun x => ?_)
    (.inl fun hw x hx hxe => ?_) (.refl _)
  · unfold ServiceSocket.scheduleReconnect
    split_ifs <;> exact ⟨rfl, rfl, rfl, id⟩
  · obtain ⟨y, hy, hye, hyr⟩ := mem_settle hx
    obtain ⟨j, hj⟩ := getElem?_of_mem hy
    obtain ⟨z, hz, rfl⟩ := getElem?_modify_some.mp hj
    rw [← hyr]
    split
    · rfl
    · next hjk =>
      -- the socket in use is `k`
      rw [if_neg hjk] at hye
      by_contra hz'
      have huse := hw.alone hz hz'
      rw [hye, hxe, hw.alone hk hopen] at huse
      exact hjk (Option.some.inj huse)

theorem did_step (hlive : Mortal live) (hok : Opens live s a)
    (hs : s.step maxReconnectAttempts a = some s') : Did live s s' := by
  cases a with
  | query uuid =>
    cases hs
    exact .query (.getSocket hok)
  | emitted =>
    cases hs
    exact .quiet (.getSocket hok)
  | send i =>
    obtain ⟨q, hq, hs⟩ := Option.bind_eq_some_iff.mp hs
    unfold State.resume at hs
    split at hs
    · cases hs
      exact .send hq
    · split at hs
      · cases hs
        exact .send hq
      · cases hs
        exact .notOpened
      · cases hs
    · cases hs
  | queryTimeout i =>
    obtain ⟨q, hq, -, rfl⟩ := bind_guard hs
    exact .finish (by decide)
  | connectTimeout k =>
    obtain ⟨socket, hk, -, rfl⟩ := bind_guard hs
    refine .quiet (.trans (.clearTimer hlive) (.trans (.settle hlive ?_) (.close hlive)))
    exact nofun
  | opened k =>
    obtain ⟨socket, hk, hconnecting, rfl⟩ := bind_guard hs
    refine .quiet (.trans (.trans (.sockets ?_) (.entries ?_ fun hw => hw.entries ?_))
      (.settle hlive ?_))
    · intro x hx
      cases hk.symm.trans hx
      refine ⟨rfl, fun hc => ?_, fun _ => hok _ hk hconnecting, id⟩
      rw [hconnecting] at hc
      cases hc
    · exact fun _ => ⟨rfl, rfl⟩
    · exact fun _ => ⟨rfl, rfl⟩
    · exact nofun
  | errored k =>
    obtain ⟨socket, hk, -, rfl⟩ := bind_guard hs
    refine .quiet (.trans (.clearTimer hlive) (.settle hlive ?_))
    exact nofun
  | closing k =>
    obtain ⟨socket, hk, hopen, rfl⟩ := bind_guard hs
    refine .quiet (.age hlive ?_ ?_ (fun x hx hc => ?_) ?_)
    · exact fun _ => rfl
    · exact nofun
    · cases hk.symm.trans hx
      rw [hopen] at hc
      cases hc
    · exact fun _ => id
  | closed k =>
    obtain ⟨socket, hk, hopen, rfl⟩ := bind_guard hs
    exact did_onClose hlive hk hopen
  | reply k uuid =>
    obtain ⟨socket, hk, hs⟩ := Option.bind_eq_some_iff.mp hs
    split at hs
    · cases hs
    · split at hs
      · cases hs
        exact .quiet (.refl s)
      · split at hs
        · cases hs
          exact .quiet (.refl s)
        · cases hs
          exact .finish (by decide)
  | reconnect e =>
    obtain ⟨entry, he, -, rfl⟩ := bind_guard hs
    refine .quiet (.trans (.entries ?_ fun hw => hw.entries ?_)
      (.openSocket ?_ fun _ hnone => hok (.trans (.symm (bind_modify ?_)) hnone)))
    · exact fun _ => ⟨rfl, rfl⟩
    · exact fun _ => ⟨rfl, rfl⟩
    · simpa using (List.getElem?_eq_some_iff.mp he).1
    · exact fun _ => rfl
  | close =>
    dsimp only [State.step] at hs
    split at hs
    · cases hs
      exact .quiet (.refl s)
    · next e entry hentry =>
      have hdrop : s.closeEntry e entry = s.drop e ServiceSocket.close .clientClosed none := by
        simp [State.closeEntry, State.drop, State.entry?_eq_some hentry]
      rw [hdrop] at hs
      have hclose : (s.drop e ServiceSocket.close .clientClosed none).Quiet live s' := by
        split at hs
        · cases hs
          exact .close hlive
        · cases hs
          exact .refl _
      refine .drop (.refl s) ?_ (.inr ?_) hclose
      · exact fun _ => ⟨rfl, rfl, rfl, fun _ => rfl⟩
      · exact fun _ => rfl

theorem Did.wired (h : Did live s s') (hw : s.Wired live) : s'.Wired live := by
  cases h with
  | quiet h => exact h.wired hw
  | query h => exact ⟨(h.wired hw).alone, (h.wired hw).opening, (h.wired hw).own⟩
  | send | finish =>
    refine hw.entries ?_
    exact fun _ => ⟨rfl, rfl⟩
  | notOpened => exact ⟨hw.alone, hw.opening, hw.own⟩
  | drop h hf _ h' => exact h'.wired ((h.wired hw).entries fun x => ⟨(hf x).1, (hf x).2.1⟩)

theorem wired_reach {ok : State → Action → Prop} (hlive : Mortal live)
    (hok : ∀ s a, s.Wired live → ok s a → Opens live s a)
    (h : (wsClient maxReconnectAttempts).Reach ok s) : s.Wired live := by
  refine h.invariant ⟨fun hk => ?_, fun hk => ?_, fun hk => ?_⟩ ?_
  · cases hk
  · cases hk
  · cases hk
  · intro s s' a _ hw ha hs
    exact (did_step hlive (hok s a hw ha) hs).wired hw

end Steps

/-! ## Queries that wait -/

namespace State

/-- A query was sent on a socket of its entry, and if it was rejected with `CONNECTION_LOST`, then
that socket has emitted `close` or the client was closed. -/
def Fits (s : State) (e : Nat) : QueryPhase → Prop
  | .sent k => ∃ x, s.sockets[k]? = some x ∧ x.entry = e
  | .ended (some k) outcome => outcome.code = some .connectionLost →
    (∃ x, s.sockets[k]? = some x ∧ x.readyState = .closed) ∨
      ∃ x, s.entries[e]? = some x ∧ x.closed = true
  | _ => True

structure Served (s : State) : Prop where
  pending : ∀ {e : Nat} {x : ServiceSocket} {p}, s.entries[e]? = some x → p ∈ x.pending →
    s.owner p.2 = some e
  fits : ∀ q ∈ s.queries, s.Fits q.entry q.phase

variable {s s' : State} {live : Socket → Prop} {e i : Nat} {phase : QueryPhase} {outcome : Outcome}

theorem Fits.mono (h : s.Fits e phase) (hk : s.Keeps s') : s'.Fits e phase := by
  match phase, h with
  | .waiting _, _ => trivial
  | .sent k, ⟨x, hx, hxe⟩ =>
    obtain ⟨x', hx', hxe', -⟩ := hk.sockets hx
    exact ⟨x', hx', hxe'.trans hxe⟩
  | .ended none _, _ => trivial
  | .ended (some k) _, h =>
    intro hcode
    refine (h hcode).imp (fun ⟨x, hx, hc⟩ => ?_) fun ⟨x, hx, hc⟩ => hk.entries hx hc
    obtain ⟨x', hx', -, hc'⟩ := hk.sockets hx
    exact ⟨x', hx', hc' hc⟩

theorem Fits.settle (h : s.Fits e phase) (hcode : outcome.code = some .connectionLost →
      (∀ x ∈ s.sockets, x.entry = e → x.readyState = .closed) ∨
        ∃ x, s.entries[e]? = some x ∧ x.closed = true) : s.Fits e (phase.settle outcome) := by
  match phase, h with
  | .waiting _, _ => trivial
  | .sent k, ⟨x, hx, hxe⟩ =>
    intro hc
    exact (hcode hc).imp_left fun hall => ⟨x, hx, hall x (mem_of_getElem? hx) hxe⟩
  | .ended .., h => exact h

theorem mem_setPending {uuid : String} {pending : List (String × Nat)} {p : String × Nat}
    (h : p ∈ setPending uuid i pending) : p ∈ pending ∨ p.2 = i := by
  unfold setPending at h
  split at h
  · obtain ⟨r, hr, rfl⟩ := mem_map.mp h
    split
    · exact .inr rfl
    · exact .inl hr
  · rcases mem_append.mp h with h | h
    · exact .inl h
    · rw [mem_singleton.mp h]
      exact .inr rfl

namespace Served

theorem quiet (h : s.Served) (hq : s.Quiet live s') : s'.Served where
  pending hx hp := by
    obtain ⟨x, hx, hp⟩ := hq.pending hx hp
    rw [owner, hq.queries]
    exact h.pending hx hp
  fits q hmem := (h.fits q (hq.queries ▸ hmem)).mono hq.keeps

theorem update (h : s.Served) {g : Nat → Query → Query} {f : ServiceSocket → ServiceSocket}
    {queries : List Query} {current : Option Nat}
    (hqueries : ∀ i, queries[i]? = (s.queries[i]?).map (g i))
    (hentry : ∀ i q, (g i q).entry = q.entry)
    (hclosed : ∀ x, x.closed = true → (f x).closed = true)
    (hpending : ∀ x p, s.entries[e]? = some x → p ∈ (f x).pending → s.owner p.2 = some e)
    (hfits : ∀ i q, s.queries[i]? = some q →
      Fits ⟨s.sockets, s.entries.modify e f, current, queries⟩ q.entry q.phase →
      Fits ⟨s.sockets, s.entries.modify e f, current, queries⟩ q.entry (g i q).phase) :
    Served ⟨s.sockets, s.entries.modify e f, current, queries⟩ where
  pending {d x' p} hx' hp := by
    have hold : s.owner p.2 = some d := by
      obtain ⟨x, hx, rfl⟩ := getElem?_modify_some.mp hx'
      split at hp
      · next he =>
        subst he
        exact hpending x p hx hp
      · exact h.pending hx hp
    obtain ⟨q, hq, hqe⟩ := Option.bind_eq_some_iff.mp hold
    refine Option.bind_eq_some_iff.mpr ⟨g p.2 q, ?_, ?_⟩
    · rw [hqueries, hq]
      rfl
    · rw [hentry, hqe]
  fits q' hq' := by
    obtain ⟨i, hi⟩ := getElem?_of_mem hq'
    rw [hqueries] at hi
    obtain ⟨q, hq, rfl⟩ := Option.map_eq_some_iff.mp hi
    rw [hentry]
    exact hfits i q hq ((h.fits q (mem_of_getElem? hq)).mono (.modify hclosed))

theorem did (h : s.Served) (hw : s.Wired Socket.Alive) (hd : Did live s s') : s'.Served := by
  cases hd with
  | quiet hq => exact h.quiet hq
  | query hq =>
    have ht := h.quiet hq
    refine ⟨fun hx hp => ?_, fun q hq => ?_⟩
    · obtain ⟨q, hq, hqe⟩ := Option.bind_eq_some_iff.mp (ht.pending hx hp)
      exact Option.bind_eq_some_iff.mpr ⟨q, getElem?_concat_some.mpr (.inl hq), hqe⟩
    · rcases mem_append.mp hq with hq | hq
      · exact (ht.fits q hq).mono ⟨fun hx => ⟨_, hx, rfl, id⟩, fun hx hc => ⟨_, hx, hc⟩⟩
      · rw [mem_singleton.mp hq]
        trivial
  | @send i q hq =>
    refine h.update (fun _ => getElem?_modify ..) (fun j p => ?_) (fun _ => id)
      (fun x p hx hp => ?_) fun j p hp hfits => ?_
    · split <;> rfl
    · rcases mem_setPending hp with hp | hp
      · exact h.pending hx hp
      · rw [hp, owner, hq]
        rfl
    · split
      · unfold sentOn
        split
        · trivial
        · next k hk =>
          split
          · trivial
          · exact hw.own hk
      · exact hfits
  | notOpened =>
    have hsame : s.entries = s.entries.modify 0 id := by simp
    rw [notOpened, hsame]
    refine h.update (fun _ => getElem?_modify ..) (fun j p => ?_) (fun _ => id)
      (fun x p hx hp => h.pending hx hp) fun j p hp hfits => ?_
    · split <;> rfl
    · split
      · trivial
      · exact hfits
  | finish hcode =>
    refine h.update (fun _ => getElem?_modify ..) (fun j p => ?_) (fun _ => id)
      (fun x p hx hp => h.pending hx (mem_filter.mp hp).1) fun j p hp hfits => ?_
    · split <;> rfl
    · split
      · exact hfits.settle fun hc => absurd hc hcode
      · exact hfits
  | @drop t e f outcome current _ hq hf hwhy hq' =>
    have ht := h.quiet hq
    refine quiet (ht.update (fun _ => getElem?_mapIdx) (fun j p => ?_)
      (fun x => (hf x).2.2.2) (fun x p hx hp => ?_) fun j p hp hfits => ?_) hq'
    · split <;> rfl
    · rw [(hf x).2.2.1] at hp
      cases hp
    · split
      · next hany =>
        obtain ⟨r, hr, hrj⟩ := any_eq_true.mp hany
        obtain ⟨x, hx, hr⟩ : ∃ x, t.entries[e]? = some x ∧ r ∈ x.pending := by
          cases hx : t.entries[e]? with
          | none => simp [hx] at hr
          | some x => exact ⟨x, rfl, by simpa [hx] using hr⟩
        have hpe : p.entry = e := by
          have howner := ht.pending hx hr
          rw [of_decide_eq_true hrj, owner, hp] at howner
          exact Option.some.inj howner
        refine hfits.settle fun _ => hwhy.imp (fun hall y hy hye => ?_) fun hc => ?_
        · exact hall hw y hy (hye.trans hpe)
        · exact ⟨f x, getElem?_modify_some.mpr ⟨x, hpe ▸ hx, if_pos hpe.symm⟩, hc x⟩
      · exact hfits

end Served

end State

/-! ## Whose connection rejects a query -/

/-- No second socket can be opened for the entry: one is being opened, or all have emitted
`close`. -/
def State.Ready (s : State) (e : Nat) : Prop :=
  (s.entries[e]?).bind (·.opening) ≠ none ∨ ∀ x ∈ s.sockets, x.entry = e → x.readyState = .closed

/-- A socket is opened only when the others of the entry have emitted `close`. -/
def Orderly (s : State) : Action → Prop
  | .query _ | .emitted =>
    ∀ p ∈ s.entry?, s.readyState p.2.socket = some .open ∨ s.Ready p.1
  | .reconnect e => s.Ready e
  | _ => True

instance (s : State) (e : Nat) : Decidable (s.Ready e) := inferInstanceAs (Decidable (_ ∨ _))

instance (s : State) (a : Action) : Decidable (Orderly s a) := by
  unfold Orderly
  split <;> infer_instance

/-- A query that was sent on a socket is rejected with `CONNECTION_LOST` only if that socket has
emitted `close` or the client was closed. -/
def RejectedByOwn (s : State) : Prop :=
  ∀ q ∈ s.queries, ∀ k outcome, q.phase = .ended (some k) outcome →
    outcome.code = some .connectionLost →
    s.readyState (some k) = some .closed ∨ ∃ e, s.entries[q.entry]? = some e ∧ e.closed = true

theorem mortal_alive : Mortal Socket.Alive := fun _ _ _ hclosed _ halive hc => halive (hclosed hc)

theorem opens_of_orderly (s : State) (a : Action) (h : Orderly s a) : Opens Socket.Alive s a := by
  have hfree {e : Nat} (hready : s.Ready e) : s.Free Socket.Alive e := fun hnone x hx hxe halive =>
    halive (hready.resolve_left (not_not_intro hnone) x hx hxe)
  cases a with
  | query | emitted => exact fun p hp => (h p hp).imp_right hfree
  | reconnect e => exact hfree h
  | opened k =>
    intro x hx hconnecting hc
    rw [hconnecting] at hc
    cases hc
  | _ => trivial

theorem rejected_by_own_socket (maxReconnectAttempts : Int) (s : State)
    (h : (wsClient maxReconnectAttempts).Reach Orderly s) : RejectedByOwn s := by
  have hserved : s.Served := by
    refine h.invariant ⟨fun hx => ?_, fun q hq => ?_⟩ ?_
    · cases hx
    · cases hq
    · intro s s' a hreach hserved hok hs
      have hw := wired_reach mortal_alive (fun s a _ => opens_of_orderly s a) hreach
      exact hserved.did hw (did_step mortal_alive (opens_of_orderly s a hok) hs)
  intro q hq k outcome hphase hcode
  have hfits := hserved.fits q hq
  rw [hphase] at hfits
  refine (hfits hcode).imp_left fun ⟨x, hx, hc⟩ => ?_
  simp [State.readyState, hx, hc]

/-- The connection of a query is lost, and a later query is answered on the next one. -/
def reconnected : List Action :=
  [.query "a", .opened 0, .send 0, .closed 0, .reconnect 0, .query "b", .opened 1, .send 1,
    .reply 1 "b"]

theorem rejected_by_own_socket_reconnected :
    ∃ s, (wsClient (-1)).Reach Orderly s ∧
      s.queries.map (·.phase) = [.ended (some 0) .closedBeforeReply, .ended (some 1) .replied] ∧
      RejectedByOwn s := by
  obtain ⟨s, hs, hphases⟩ := Machine.Reach.observe (wsClient (-1)) Orderly reconnected
    (fun s => s.queries.map (·.phase))
    [.ended (some 0) .closedBeforeReply, .ended (some 1) .replied] (by decide +kernel)
  exact ⟨s, hs, hphases, rejected_by_own_socket (-1) s hs⟩

/-- The first socket does not open in time and is closed. A second one is opened before the first
has emitted `close`, and the query that was sent on it is rejected when the first one does. -/
def lateClose : List Action :=
  [.query "a", .connectTimeout 0, .query "b", .opened 1, .send 1, .closed 0]

theorem late_close_rejects : ∃ s, (wsClient (-1)).Reach Machine.free s ∧
    s.sockets.map (·.readyState) = [.closed, .open] ∧ ¬ RejectedByOwn s := by
  obtain ⟨s, hs, hobs⟩ := Machine.Reach.observe (wsClient (-1)) Machine.free lateClose
    (fun s => (s.sockets.map (·.readyState), s.entries.map (·.closed),
      s.queries.map fun q => (q.entry, q.phase)))
    ([.closed, .open], [false],
      [(0, .waiting (some 0)), (0, .ended (some 1) .closedBeforeReply)]) (by decide +kernel)
  simp only [Prod.mk.injEq] at hobs
  obtain ⟨hsockets, hentries, hqueries⟩ := hobs
  refine ⟨s, hs, hsockets, fun h => ?_⟩
  obtain ⟨q, hq, hphase⟩ : ∃ q ∈ s.queries, (q.entry, q.phase) =
      (0, .ended (some 1) .closedBeforeReply) := mem_map.mp (by simp [hqueries])
  simp only [Prod.mk.injEq] at hphase
  rcases h q hq 1 _ hphase.2 rfl with hk | ⟨e, he, hclosed⟩
  · have hopen := congrArg (·[1]?) hsockets
    simp only [getElem?_map] at hopen
    cases hk.symm.trans hopen
  · have hmem : e.closed ∈ s.entries.map (·.closed) := mem_map_of_mem (mem_of_getElem? he)
    simp [hentries, hclosed] at hmem

/-! ## Open sockets -/

/-- No timer after a lost connection fires while the entry has an open socket. The second case says
what a socket does: it does not open after an error or its own `close()`. -/
def Apart (s : State) : Action → Prop
  | .reconnect e => ∀ x ∈ s.sockets, x.entry = e → x.readyState ≠ .open
  | .opened k => ∀ x ∈ s.sockets[k]?, x.promise = .pending
  | _ => True

instance (s : State) (a : Action) : Decidable (Apart s a) := by
  unfold Apart
  split <;> infer_instance

/-- It is open, or its entry waits for it. -/
def Socket.Wanted (x : Socket) : Prop := x.readyState = .open ∨ x.promise = .pending

theorem mortal_wanted : Mortal Socket.Wanted := fun _ _ hopen _ hpending => Or.imp hopen hpending

theorem opens_of_apart (s : State) (a : Action) (hw : s.Wired Socket.Wanted) (h : Apart s a) :
    Opens Socket.Wanted s a := by
  have hfree {e : Nat} (hopen : ∀ x ∈ s.sockets, x.entry = e → x.readyState ≠ .open) :
      s.Free Socket.Wanted e := by
    intro hnone x hx hxe hwanted
    rcases hwanted with ho | hp
    · exact hopen x hx hxe ho
    · obtain ⟨k, hk⟩ := getElem?_of_mem hx
      cases hnone.symm.trans (hxe ▸ hw.opening hk hp)
  cases a with
  | query | emitted =>
    rintro ⟨e, entry⟩ hp
    refine or_iff_not_imp_left.mpr fun hnot => hfree fun x hx hxe ho => hnot ?_
    -- an open socket is the one in use
    obtain ⟨k, hk⟩ := getElem?_of_mem hx
    have huse := hw.alone hk (.inl ho)
    rw [hxe, State.use, State.entry?_eq_some hp] at huse
    have hsocket : entry.socket = some k := huse
    simp [State.readyState, hsocket, hk, ho]
  | reconnect e => exact hfree h
  | opened k => exact fun x hx _ => .inr (h x hx)
  | _ => trivial

/-- No two sockets of an entry are open. -/
def OneOpen (s : State) : Prop :=
  ∀ (j k : Nat) (x y : Socket), s.sockets[j]? = some x → s.sockets[k]? = some y →
    x.entry = y.entry → x.readyState = .open → y.readyState = .open → j = k

def State.openSockets (s : State) (e : Nat) : List Nat :=
  (range s.sockets.length).filter fun k =>
    (s.sockets[k]?).any fun x => x.entry = e ∧ x.readyState = .open

/-- The calls of subscription handlers for a frame of the server: it is a `message` event on each
open socket, and the event calls all handlers of the entry. -/
def State.onFrame {H : Type} (s : State) (e : Nat) (handlers : List H) : List H :=
  (s.openSockets e).flatMap fun _ => handlers

theorem OneOpen.onFrame {s : State} (h : OneOpen s) {H : Type} (e : Nat) (handlers : List H) :
    s.onFrame e handlers = [] ∨ s.onFrame e handlers = handlers := by
  have hsame : ∀ j ∈ s.openSockets e, ∀ k ∈ s.openSockets e, j = k := by
    intro j hj k hk
    obtain ⟨x, hx, hxo⟩ := (Option.any_eq_true _ _).mp (mem_filter.mp hj).2
    obtain ⟨y, hy, hyo⟩ := (Option.any_eq_true _ _).mp (mem_filter.mp hk).2
    obtain ⟨hxe, hxo⟩ := of_decide_eq_true hxo
    obtain ⟨hye, hyo⟩ := of_decide_eq_true hyo
    exact h j k x y hx hy (hxe.trans hye.symm) hxo hyo
  have hnd : (s.openSockets e).Nodup := nodup_range.filter _
  unfold State.onFrame
  match s.openSockets e, hsame, hnd with
  | [], _, _ => exact .inl rfl
  | [k], _, _ => exact .inr (flatMap_singleton ..)
  | j :: k :: _, hsame, hnd =>
    exact absurd (hsame j (by simp) k (by simp)) fun hjk => (nodup_cons.mp hnd).1 (by simp [hjk])

/-- No two sockets of an entry are open, and a frame of the server is handed once to each
subscription handler. -/
theorem one_open_socket (maxReconnectAttempts : Int) (s : State)
    (h : (wsClient maxReconnectAttempts).Reach Apart s) :
    OneOpen s ∧ ∀ {H : Type} (e : Nat) (handlers : List H),
      s.onFrame e handlers = [] ∨ s.onFrame e handlers = handlers := by
  have hw := wired_reach mortal_wanted opens_of_apart h
  have hone : OneOpen s := by
    intro j k x y hj hk he hx hy
    have huse := hw.alone hk (.inl hy)
    rw [← he, hw.alone hj (.inl hx)] at huse
    exact Option.some.inj huse
  exact ⟨hone, hone.onFrame⟩

theorem one_open_socket_reconnected : ∃ s, (wsClient (-1)).Reach Apart s ∧
    s.sockets.map (·.readyState) = [.closed, .open] ∧ OneOpen s := by
  obtain ⟨s, hs, hsockets⟩ := Machine.Reach.observe (wsClient (-1)) Apart reconnected
    (fun s => s.sockets.map (·.readyState)) [.closed, .open] (by decide +kernel)
  exact ⟨s, hs, hsockets, (one_open_socket (-1) s hs).1⟩

/-- The connection is lost, and a query opens the next one before the timer does. -/
def opensTwice : List Action :=
  [.query "a", .opened 0, .closed 0, .query "b", .opened 1, .reconnect 0, .opened 2]

theorem reconnect_opens_second : ∃ s, (wsClient (-1)).Reach Machine.free s ∧ ¬ OneOpen s := by
  obtain ⟨s, hs, hsockets⟩ := Machine.Reach.observe (wsClient (-1)) Machine.free opensTwice
    (fun s => s.sockets.map fun x => (x.entry, x.readyState))
    [(0, .closed), (0, .open), (0, .open)] (by decide +kernel)
  refine ⟨s, hs, fun h => ?_⟩
  have hopen (k : Nat) (hk : k = 1 ∨ k = 2) :
      ∃ x, s.sockets[k]? = some x ∧ x.entry = 0 ∧ x.readyState = .open := by
    have hget := congrArg (·[k]?) hsockets
    simp only [getElem?_map] at hget
    rcases hk with rfl | rfl <;> simpa using hget
  obtain ⟨x, hx, hxe, hxo⟩ := hopen 1 (.inl rfl)
  obtain ⟨y, hy, hye, hyo⟩ := hopen 2 (.inr rfl)
  cases h 1 2 x y hx hy (hxe.trans hye.symm) hxo hyo

end NevoMessaging.WsClient
