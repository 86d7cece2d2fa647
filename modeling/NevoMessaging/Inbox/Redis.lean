import NevoMessaging.Idempotency.Redis
import NevoMessaging.Lib.JsValue
import NevoMessaging.Lib.Machine

/-!
# RedisInboxStore

One string per uuid holds the marker of a claim, the marker of a completion without a value, or the
text of a result. Redis executes each command at once and does not fail; a `claim` that is not the
first one sends two commands, and others may come between them. The results are `undefined`, `null`,
booleans, numbers, strings, big integers, arrays and objects of these.

With the default `encode` a result goes through `JSON.stringify`, which throws on a big integer.
`markSeen` catches that and only logs it: the completion is forgotten.

Results:
1. `stocked_reach`: what Redis holds is a marker or the text of a value of JSON.
2. `kept_reach`: what `markSeen` has written stays.
3. `remembered_iff`: `markSeen` is remembered exactly if JSON can write the result down.
-/

namespace NevoMessaging

open JsString

def inboxInProgress : JsString := lit " nevo:inbox:in-progress "

def inboxDoneNoValue : JsString := lit " nevo:inbox:done "

structure InboxClaim where
  acquired : Bool
  existing : Option JsValue := none

structure RedisInboxStore where
  keyPrefix : JsString := lit "nevo:inbox:"
  readErrorPolicy : StoreReadErrorPolicy := .failOpen

/-- The content of Redis. -/
abbrev RedisDb := JsString → Option JsString

namespace RedisInboxStore

/-- The default `encode`, for a result that is neither `null` nor `undefined` nor a function. -/
def encode (v : JsValue) : Option JsString := v.stringify

/-- The default `decode` -/
def decode (blob : JsString) : Option JsValue := JsValue.parse blob

def k (store : RedisInboxStore) (uuid : JsString) : JsString := store.keyPrefix ++ uuid

/-- The outer `none` is an error of `decode`, the inner one is `undefined`. -/
def decodeBlob (blob : Option JsString) : Option (Option JsValue) :=
  match blob with
  | none => some none
  | some blob =>
    if blob = [] ∨ blob = lit "null" ∨ blob = inboxInProgress ∨ blob = inboxDoneNoValue
      then some none
    else (decode blob).map some

def readReal (store : RedisInboxStore) (uuid : JsString) (db : RedisDb) : Option (Option JsValue) :=
  decodeBlob (db (store.k uuid))

def readDone (store : RedisInboxStore) (uuid : JsString) (db : RedisDb) : Bool :=
  match db (store.k uuid) with
  | none => false
  | some blob => blob ≠ [] ∧ blob ≠ inboxInProgress

/-- `SET NX` -/
def setNx (store : RedisInboxStore) (uuid : JsString) (db : RedisDb) : RedisDb :=
  if (db (store.k uuid)).isNone then Function.update db (store.k uuid) (some inboxInProgress)
    else db

/-- `SET NX` finds Redis as `db`, and `GET` finds it as `later`. There is no answer if the error of
`decode` is thrown on. -/
def claim (store : RedisInboxStore) (uuid : JsString) (db later : RedisDb) : Option InboxClaim :=
  if (db (store.k uuid)).isNone then some { acquired := true }
  else
    match store.readReal uuid later with
    | some existing => some { acquired := false, existing }
    | none =>
      match store.readErrorPolicy with
      | .failClosed => none
      | .failOpen => some { acquired := false }

def isDone (store : RedisInboxStore) (uuid : JsString) (db : RedisDb) : Bool :=
  store.readDone uuid db

def getResult (store : RedisInboxStore) (uuid : JsString) (db : RedisDb) : Option JsValue :=
  (store.readReal uuid db).join

/-- The text that `markSeen` writes; there is none if `encode` throws. -/
def blobOf : JsValue → Option JsString
  | .undefined => some inboxDoneNoValue
  | .null => some inboxDoneNoValue
  | v => encode v

def markSeen (store : RedisInboxStore) (uuid : JsString) (result : JsValue) (db : RedisDb) :
    RedisDb :=
  match blobOf result with
  | some blob => Function.update db (store.k uuid) (some blob)
  | none => db

end RedisInboxStore

/-! ## Runs -/

structure InboxDb where
  db : RedisDb := fun _ => none
  /-- The uuids of the calls of `markSeen`. -/
  marks : List JsString := []

inductive InboxDbAction
  | claim (uuid : JsString)
  | markSeen (uuid : JsString) (result : JsValue)

def InboxDb.step (store : RedisInboxStore) (s : InboxDb) : InboxDbAction → Option InboxDb
  | .claim uuid => some { s with db := store.setNx uuid s.db }
  | .markSeen uuid result =>
    some { db := store.markSeen uuid result s.db, marks := s.marks ++ [uuid] }

/-- The commands of any number of callers; those that only read do not matter to the others. -/
def inboxDbMachine (store : RedisInboxStore) : Machine InboxDb InboxDbAction where
  init := {}
  step := InboxDb.step store

namespace RedisInboxStore

variable {store : RedisInboxStore} {s s' : InboxDb} {uuid u key : JsString} {v : JsValue}
  {db later : RedisDb} {blob : JsString}

theorem k_inj (h : store.k u = store.k uuid) : u = uuid := List.append_cancel_left h

theorem markSeen_ne (h : key ≠ store.k u) : store.markSeen u v db key = db key := by
  unfold markSeen
  cases blobOf v with
  | none => rfl
  | some blob => exact Function.update_of_ne h _ _

theorem setNx_cases : store.setNx u db key = db key ∨
    db key = none ∧ store.setNx u db key = some inboxInProgress := by
  unfold setNx
  split
  next hnone =>
    by_cases hkey : key = store.k u
    · rw [hkey, Function.update_self]
      exact .inr ⟨Option.isNone_iff_eq_none.mp hnone, rfl⟩
    · exact .inl (Function.update_of_ne hkey _ _)
  · exact .inl rfl

/-- A text that Redis may hold. -/
def Stock (blob : JsString) : Prop :=
  blob = inboxInProgress ∨ blob = inboxDoneNoValue ∨ ∃ j : Json, Json.stringify j = some blob

theorem stock_blobOf (h : blobOf v = some blob) :
    blob = inboxDoneNoValue ∨ ∃ j : Json, v.toJson = some j ∧ Json.stringify j = some blob := by
  have hencode : encode v = some blob →
      ∃ j : Json, v.toJson = some j ∧ Json.stringify j = some blob := fun h =>
    Option.bind_eq_some_iff.mp h
  unfold blobOf at h
  split at h
  · cases h
    exact .inl rfl
  · cases h
    exact .inl rfl
  · exact .inr (hencode h)

theorem stocked_reach (h : (inboxDbMachine store).Reach Machine.free s) :
    ∀ key blob, s.db key = some blob → Stock blob := by
  refine Machine.Reach.invariant
    (P := fun s : InboxDb => ∀ key blob, s.db key = some blob → Stock blob) ?_ ?_ h
  · intro key blob hblob
    cases hblob
  rintro s s' a - hstock - hstep key blob hblob
  cases a with
  | claim u =>
    cases hstep
    change store.setNx u s.db key = some blob at hblob
    rcases setNx_cases with hsame | ⟨-, hmark⟩
    · rw [hsame] at hblob
      exact hstock key blob hblob
    · rw [hmark] at hblob
      cases hblob
      exact .inl rfl
  | markSeen u result =>
    cases hstep
    change store.markSeen u result s.db key = some blob at hblob
    by_cases hkey : key = store.k u
    · subst hkey
      unfold markSeen at hblob
      cases hb : blobOf result with
      | none =>
        rw [hb] at hblob
        exact hstock _ blob hblob
      | some b =>
        rw [hb] at hblob
        cases (Function.update_self _ _ _).symm.trans hblob
        rcases stock_blobOf hb with rfl | ⟨j, -, hj⟩
        · exact .inr (.inl rfl)
        · exact .inr (.inr ⟨j, hj⟩)
    · rw [markSeen_ne hkey] at hblob
      exact hstock key blob hblob

/-! ## What stays -/

/-- Nobody else marks the uuid. -/
def Unmarked (uuid : JsString) (_ : InboxDb) : InboxDbAction → Prop
  | .claim _ => True
  | .markSeen u _ => u ≠ uuid

theorem kept_reach (hblob : s.db (store.k uuid) = some blob)
    (h : ((inboxDbMachine store).restart s).Reach (Unmarked uuid) s') :
    s'.db (store.k uuid) = some blob := by
  refine h.invariant hblob ?_
  rintro s s' a - hkept hok hstep
  cases a with
  | claim u =>
    cases hstep
    rcases setNx_cases with hsame | ⟨hnone, -⟩
    · exact hsame.trans hkept
    · cases hnone.symm.trans hkept
  | markSeen u result =>
    cases hstep
    exact (markSeen_ne fun heq => hok (k_inj heq.symm)).trans hkept

theorem unmarked_reach (h : (inboxDbMachine store).Reach Machine.free s) (huuid : uuid ∉ s.marks) :
    s.db (store.k uuid) = none ∨ s.db (store.k uuid) = some inboxInProgress := by
  revert huuid
  refine h.invariant (fun _ => .inl rfl) ?_
  rintro s s' a - ih - hstep huuid
  cases a with
  | claim u =>
    cases hstep
    show store.setNx u s.db (store.k uuid) = none ∨ store.setNx u s.db (store.k uuid) = _
    rcases setNx_cases with hsame | ⟨-, hmark⟩
    · rw [hsame]
      exact ih huuid
    · exact .inr hmark
  | markSeen u result =>
    cases hstep
    obtain ⟨hold, hnew⟩ := not_or.mp (List.mem_append.not.mp huuid)
    have hne : store.k uuid ≠ store.k u := fun heq =>
      hnew (List.mem_singleton.mpr (k_inj heq))
    show store.markSeen u result s.db (store.k uuid) = none ∨
      store.markSeen u result s.db (store.k uuid) = _
    rw [markSeen_ne hne]
    exact ih hold

/-! ## What is read -/

theorem claim_of_some (hdb : db (store.k uuid) = some blob) {existing : Option JsValue}
    (hread : store.readReal uuid later = some existing) :
    store.claim uuid db later = some { acquired := false, existing } := by
  unfold claim
  rw [hdb, if_neg (by simp), hread]

theorem read_text {j : Json} (hj : Json.stringify j = some blob) (hne : j ≠ .null) :
    decodeBlob (some blob) = some (some (.ofJson j)) ∧ blob ≠ [] ∧ blob ≠ inboxInProgress := by
  have hparse := Json.parse_stringify hj
  have hempty : blob ≠ [] := by
    rintro rfl
    cases hparse
  have hprogress : blob ≠ inboxInProgress := by
    rintro rfl
    have hnone : Json.parse inboxInProgress = none := by decide +kernel
    cases hnone.symm.trans hparse
  have hdone : blob ≠ inboxDoneNoValue := by
    rintro rfl
    have hnone : Json.parse inboxDoneNoValue = none := by decide +kernel
    cases hnone.symm.trans hparse
  have hnull : blob ≠ lit "null" := by
    rintro rfl
    have hread : Json.parse (lit "null") = some .null := rfl
    exact hne (Option.some.inj (hparse.symm.trans hread))
  refine ⟨?_, hempty, hprogress⟩
  unfold decodeBlob decode
  dsimp only
  rw [if_neg (by simp [hempty, hnull, hprogress, hdone]), JsValue.parse_stringify hj,
    Option.map_some]

theorem jsonable_of_read (hstock : ∀ blob, db (store.k uuid) = some blob → Stock blob)
    (h : store.readReal uuid db = some (some v)) : v.jsonable := by
  unfold readReal decodeBlob at h
  split at h
  · cases h
  next blob hblob =>
    split at h
    · cases h
    next hmark =>
      rcases hstock blob hblob with rfl | rfl | ⟨j, hj⟩
      · exact absurd (by simp) hmark
      · exact absurd (by simp) hmark
      · unfold decode at h
        rw [JsValue.parse_stringify hj, Option.map_some] at h
        have hplain := Json.stringify_isSome j
        rw [hj] at hplain
        exact JsValue.jsonable_iff.mpr
          ⟨j, hplain.symm, (Option.some.inj (Option.some.inj h)).symm⟩

/-- What a claim is to find after a completion. -/
def expected : JsValue → Option JsValue
  | .undefined => none
  | .null => none
  | v => some v

/-- JSON can write the result down, or there is none. -/
def storable : JsValue → Bool
  | .undefined => true
  | v => v.jsonable

theorem read_storable {v : JsValue} (h : storable v) : ∃ blob, blobOf v = some blob ∧
    decodeBlob (some blob) = some (expected v) ∧ blob ≠ [] ∧ blob ≠ inboxInProgress := by
  have hdone : decodeBlob (some inboxDoneNoValue) = some none ∧ inboxDoneNoValue ≠ [] ∧
      inboxDoneNoValue ≠ inboxInProgress := by
    refine ⟨?_, by decide, by decide⟩
    unfold decodeBlob
    dsimp only
    rw [if_pos (by simp)]
  have htext (hjson : v.jsonable) (hnull : v ≠ .null) (hblob : blobOf v = encode v)
      (hexpected : expected v = some v) : ∃ blob, blobOf v = some blob ∧
      decodeBlob (some blob) = some (expected v) ∧ blob ≠ [] ∧
        blob ≠ inboxInProgress := by
    obtain ⟨j, hplain, rfl⟩ := JsValue.jsonable_iff.mp hjson
    obtain ⟨blob, hj⟩ := Option.isSome_iff_exists.mp ((Json.stringify_isSome j).trans hplain)
    have hne : j ≠ .null := by
      rintro rfl
      exact hnull rfl
    obtain ⟨hread, hempty, hprogress⟩ := read_text hj hne
    refine ⟨blob, ?_, by rw [hexpected, hread], hempty, hprogress⟩
    rw [hblob, encode, JsValue.stringify, JsValue.toJson_ofJson, Option.bind_some, hj]
  cases v with
  | undefined | null => exact ⟨_, rfl, hdone⟩
  | bool b | num n | str s | arr items | obj members => exact htext h nofun rfl rfl
  | function | bigint n | date t => cases h

end RedisInboxStore

open RedisInboxStore in
/-- In every run, after `markSeen` of a uuid and until another one of the same uuid: `isDone` is
true and every claim, whatever comes between its two commands, is lost and finds the result (or
`undefined` if it was `null` or `undefined`); and before a `markSeen` a claimed uuid is not done and
has no result. It is so if and only if there is no big integer in the result, and no `undefined`
inside of it. -/
theorem remembered_iff (store : RedisInboxStore) (s s' : InboxDb) (uuid : JsString) (v : JsValue)
    (hs : (inboxDbMachine store).Reach Machine.free s)
    (hmark : s.step store (.markSeen uuid v) = some s') :
    ((∀ t, ((inboxDbMachine store).restart s').Reach (Unmarked uuid) t →
        store.isDone uuid t.db ∧
        ∀ u, ((inboxDbMachine store).restart t).Reach (Unmarked uuid) u →
          store.claim uuid t.db u.db =
            some { acquired := false, existing := expected v }) ∧
      (uuid ∉ s.marks → s.db (store.k uuid) ≠ none →
        store.isDone uuid s.db = false ∧ store.getResult uuid s.db = none)) ↔
    storable v := by
  constructor
  · rintro ⟨hlater, -⟩
    have hclaim := (hlater s' .init).2 s' .init
    have hstock := RedisInboxStore.stocked_reach (hs.step (a := .markSeen uuid v) trivial hmark)
    have hvalue (hexpected : expected v = some v) : v.jsonable := by
      rw [hexpected] at hclaim
      unfold claim at hclaim
      split at hclaim
      · cases hclaim
      · split at hclaim
        next existing hread =>
          cases hclaim
          exact jsonable_of_read (hstock _) hread
        · split at hclaim <;> cases hclaim
    cases v with
    | undefined | null => rfl
    | bool b | num n | str s | arr items | obj members | function | bigint n | date t =>
      exact hvalue rfl
  · intro hstorable
    obtain ⟨blob, hblob, hread, hempty, hprogress⟩ := read_storable hstorable
    have hwritten : s'.db (store.k uuid) = some blob := by
      cases hmark
      show store.markSeen uuid v s.db (store.k uuid) = some blob
      rw [markSeen, hblob]
      exact Function.update_self _ _ _
    refine ⟨fun t ht => ?_, fun huuid hclaimed => ?_⟩
    · have hkept := RedisInboxStore.kept_reach hwritten ht
      refine ⟨?_, fun u hu => ?_⟩
      · unfold isDone readDone
        rw [hkept]
        exact decide_eq_true ⟨hempty, hprogress⟩
      · refine claim_of_some hkept ?_
        rw [readReal, RedisInboxStore.kept_reach hkept hu, hread]
    · have hprogress := (unmarked_reach hs huuid).resolve_left hclaimed
      unfold isDone readDone getResult readReal
      rw [hprogress]
      exact ⟨by decide, by decide +kernel⟩

/-- A claimed uuid, in the store with its defaults. -/
def claimedOnce : InboxDb := { db := RedisInboxStore.setNx {} (lit "u") fun _ => none }

theorem claimedOnce_reach : (inboxDbMachine {}).Reach Machine.free claimedOnce :=
  Machine.Reach.init.step (a := .claim (lit "u")) trivial rfl

theorem remembered_iff_list : ∃ s : InboxDb,
    claimedOnce.step {} (.markSeen (lit "u") (.arr [.null, .str (lit "null")])) = some s ∧
    RedisInboxStore.isDone {} (lit "u") s.db ∧
    RedisInboxStore.claim {} (lit "u") s.db s.db =
      some { acquired := false, existing := some (.arr [.null, .str (lit "null")]) } := by
  refine ⟨_, rfl, ?_⟩
  obtain ⟨hlater, -⟩ := (remembered_iff {} claimedOnce _ (lit "u")
    (.arr [.null, .str (lit "null")]) claimedOnce_reach rfl).mpr rfl
  obtain ⟨hdone, hclaim⟩ := hlater _ .init
  exact ⟨hdone, hclaim _ .init⟩

/-- The big integer 1 is marked: the uuid is not done, and a claim finds nothing. -/
theorem bigint_completion_forgotten : ∃ s : InboxDb,
    claimedOnce.step {} (.markSeen (lit "u") (.bigint 1)) = some s ∧
    RedisInboxStore.isDone {} (lit "u") s.db = false ∧
    (RedisInboxStore.claim {} (lit "u") s.db s.db).map (·.existing.isSome) = some false := by
  refine ⟨_, rfl, ?_, ?_⟩
  · decide +kernel
  · decide +kernel

end NevoMessaging
