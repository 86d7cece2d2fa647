import NevoMessaging.Lib.CopyOnWrite
import NevoMessaging.Lib.JsTree

/-!
# The values on the wire

`normalizeWireValue` makes a value that JSON and MessagePack can both carry: a big integer becomes a
string behind a sentinel, and a string that begins like one is escaped. `deserializeBigInt` and the
reviver of `makeBigIntReviver` undo it. Both walks copy a container only when something in it
changes.

A value is a tree here, so the check for circular references never strikes; the one for the depth
does.

Results:
1. `visit_ok`, `deserializeInner_ok`: the walks return for every value that is not too deep, with
   the result of a plain recursion.
2. `reviveString_escape`, `reviveString_sentinel`: the escape scheme.
-/

namespace NevoMessaging

open List

open JsString JsValue

def bigintSentinel : JsString := lit "@@nevo:bigint:"

def stringEscape : JsString := lit "@@nevo:str:"

def needsSentinelEscape (s : JsString) : Bool :=
  bigintSentinel.isPrefixOf s || stringEscape.isPrefixOf s

structure RangeError where
  message : String
deriving DecidableEq

def maxWireDepth : Nat := 512

def maxBigintDepth : Nat := 512

/-- A `__proto__` that comes from outside becomes a member like any other. -/
def setRebuiltKey (target : List (JsString × JsValue)) (key : JsString) (value : JsValue) :
    List (JsString × JsValue) :=
  if key = protoKey then define target key value else assign target key value

def isUndefined : JsValue → Bool
  | .undefined => true
  | _ => false

/-! ## `normalizeWireValue` -/

mutual

/-- `none` is the input itself (`===`). -/
def visit : JsValue → Nat → Bool → Except RangeError (Option JsValue)
  | .undefined, _, inArray => .ok (if inArray then some .null else none)
  | .function, _, inArray => .ok (some (if inArray then .null else .undefined))
  | .bigint n, _, _ => .ok (some (.str (bigintSentinel ++ integerText n)))
  | .str s, _, _ => .ok (if needsSentinelEscape s then some (.str (stringEscape ++ s)) else none)
  | .null, _, _ => .ok none
  | .bool _, _, _ => .ok none
  | .num _, _, _ => .ok none
  | .date time, _, _ => .ok (some (.str (JsDate.toISOString time)))
  | .arr items, depth, _ =>
    if maxWireDepth ≤ depth then
      .error ⟨"normalizeWireValue: maximum nesting depth (512) exceeded"⟩
    else (visitItems items (depth + 1)).map fun ps => (CopyOnWrite.items ps).map .arr
  | .obj members, depth, _ =>
    if maxWireDepth ≤ depth then
      .error ⟨"normalizeWireValue: maximum nesting depth (512) exceeded"⟩
    else
      (visitMembers members (depth + 1)).map fun es =>
        -- `undefined` has to go even if nothing else changes
        (CopyOnWrite.members setRebuiltKey (fun _ v => isUndefined v) (fun v => !isUndefined v)
          es).map .obj

def visitItems : List JsValue → Nat → Except RangeError (List (JsValue × Option JsValue))
  | [], _ => .ok []
  | v :: items, depth => do
    let normalized ← visit v depth true
    let rest ← visitItems items depth
    .ok ((v, normalized) :: rest)

def visitMember : JsString × JsValue → Nat →
    Except RangeError (CopyOnWrite.Entry JsString JsValue)
  | (key, item), depth => do
    let normalized ← visit item depth false
    .ok ⟨key, item, normalized⟩

def visitMembers : List (JsString × JsValue) → Nat →
    Except RangeError (List (CopyOnWrite.Entry JsString JsValue))
  | [], _ => .ok []
  | m :: members, depth => do
    let e ← visitMember m depth
    let rest ← visitMembers members depth
    .ok (e :: rest)

end

def normalizeWireValue (value : JsValue) : Except RangeError JsValue :=
  (visit value 0 true).map (·.getD value)

/-! ## Decoders -/

/-- `/^(\d+)n$/` -/
def legacyBigint (s : JsString) : Option Int :=
  if s.getLast? = some (unit 'n') ∧ isDecimal s.dropLast then some (ofDecimal s.dropLast) else none

def makeBigIntReviver (acceptLegacy : Bool) (_key : JsString) (value : JsValue) : JsValue :=
  match value with
  | .str s =>
    if stringEscape.isPrefixOf s then .str (s.drop stringEscape.length)
    else if bigintSentinel.length < s.length ∧ bigintSentinel.isPrefixOf s then
      let digits := s.drop bigintSentinel.length
      if isInteger digits then .bigint (toInteger digits) else .str s
    else if acceptLegacy then
      match legacyBigint s with
      | some n => .bigint n
      | none => .str s
    else .str s
  | value => value

/-- What `deserializeBigInt` makes of a string; unlike the reviver it goes on with the legacy form
when there are no digits behind the sentinel. -/
def deserializeString (acceptLegacy : Bool) (s : JsString) : Option JsValue :=
  if stringEscape.isPrefixOf s then some (.str (s.drop stringEscape.length))
  else if bigintSentinel.isPrefixOf s ∧ isInteger (s.drop bigintSentinel.length) then
    some (.bigint (toInteger (s.drop bigintSentinel.length)))
  else if acceptLegacy then (legacyBigint s).map .bigint
  else none

mutual

/-- `none` is the input itself (`===`). -/
def deserializeInner (acceptLegacy : Bool) : JsValue → Nat → Except RangeError (Option JsValue)
  | .str s, _ => .ok (deserializeString acceptLegacy s)
  | .arr items, depth =>
    if maxBigintDepth ≤ depth then
      .error ⟨"deserializeBigInt: maximum nesting depth (512) exceeded"⟩
    else (deserializeItems acceptLegacy items (depth + 1)).map fun ps =>
      (CopyOnWrite.items ps).map .arr
  | .obj members, depth =>
    if maxBigintDepth ≤ depth then
      .error ⟨"deserializeBigInt: maximum nesting depth (512) exceeded"⟩
    else
      (deserializeMembers acceptLegacy members (depth + 1)).map fun es =>
        (CopyOnWrite.members setRebuiltKey (fun k _ => decide (k = protoKey)) (fun _ => true)
          es).map .obj
  | .undefined, _ => .ok none
  | .function, _ => .ok none
  | .null, _ => .ok none
  | .bool _, _ => .ok none
  | .num _, _ => .ok none
  | .bigint _, _ => .ok none
  -- a date is an object without members
  | .date _, depth =>
    if maxBigintDepth ≤ depth then
      .error ⟨"deserializeBigInt: maximum nesting depth (512) exceeded"⟩
    else .ok none

def deserializeItems (acceptLegacy : Bool) :
    List JsValue → Nat → Except RangeError (List (JsValue × Option JsValue))
  | [], _ => .ok []
  | v :: items, depth => do
    let next ← deserializeInner acceptLegacy v depth
    let rest ← deserializeItems acceptLegacy items depth
    .ok ((v, next) :: rest)

def deserializeMember (acceptLegacy : Bool) :
    JsString × JsValue → Nat → Except RangeError (CopyOnWrite.Entry JsString JsValue)
  | (key, value), depth => do
    let next ← deserializeInner acceptLegacy value depth
    .ok ⟨key, value, next⟩

def deserializeMembers (acceptLegacy : Bool) :
    List (JsString × JsValue) → Nat →
      Except RangeError (List (CopyOnWrite.Entry JsString JsValue))
  | [], _ => .ok []
  | m :: members, depth => do
    let e ← deserializeMember acceptLegacy m depth
    let rest ← deserializeMembers acceptLegacy members depth
    .ok (e :: rest)

end

def deserializeBigInt (obj : JsValue) (acceptLegacy : Bool) : Except RangeError JsValue :=
  (deserializeInner acceptLegacy obj 0).map (·.getD obj)

/-! ## What the walks come to -/

/-- The encoding of a string or a big integer. -/
def wireLeaf : JsValue → JsValue
  | .str s => .str (if needsSentinelEscape s then stringEscape ++ s else s)
  | .bigint n => .str (bigintSentinel ++ integerText n)
  | v => v

def reviveString (acceptLegacy : Bool) (s : JsString) : JsValue :=
  makeBigIntReviver acceptLegacy [] (.str s)

theorem setRebuiltKey_appends : CopyOnWrite.Appends setRebuiltKey := by
  intro o k v h
  unfold setRebuiltKey
  split
  · exact define_of_not_mem v h
  next hne =>
    rw [assign, if_neg fun hproto => hne hproto.1]
    exact define_of_not_mem v h

theorem visitItems_eq (items : List JsValue) (depth : Nat) :
    visitItems items depth =
      CopyOnWrite.walk (fun v => (visit v depth true).map (v, ·)) items := by
  induction items with
  | nil => rfl
  | cons v items ih =>
    rw [visitItems, ih, CopyOnWrite.walk]
    cases visit v depth true <;> rfl

theorem visitMembers_eq (members : List (JsString × JsValue)) (depth : Nat) :
    visitMembers members depth = CopyOnWrite.walk
      (fun m => (visit m.2 depth false).map (CopyOnWrite.Entry.mk m.1 m.2)) members := by
  induction members with
  | nil => rfl
  | cons m members ih =>
    obtain ⟨k, v⟩ := m
    rw [visitMembers, ih, CopyOnWrite.walk, visitMember]
    cases visit v depth false <;> rfl

theorem deserializeItems_eq (acceptLegacy : Bool) (items : List JsValue) (depth : Nat) :
    deserializeItems acceptLegacy items depth =
      CopyOnWrite.walk (fun v => (deserializeInner acceptLegacy v depth).map (v, ·)) items := by
  induction items with
  | nil => rfl
  | cons v items ih =>
    rw [deserializeItems, ih, CopyOnWrite.walk]
    cases deserializeInner acceptLegacy v depth <;> rfl

theorem deserializeMembers_eq (acceptLegacy : Bool) (members : List (JsString × JsValue))
    (depth : Nat) : deserializeMembers acceptLegacy members depth =
      CopyOnWrite.walk (fun m => (deserializeInner acceptLegacy m.2 depth).map
        (CopyOnWrite.Entry.mk m.1 m.2)) members := by
  induction members with
  | nil => rfl
  | cons m members ih =>
    obtain ⟨k, v⟩ := m
    rw [deserializeMembers, ih, CopyOnWrite.walk, deserializeMember]
    cases deserializeInner acceptLegacy v depth <;> rfl

theorem isUndefined_project {leaf : JsValue → JsValue} (hstr : ∀ s, ¬ isUndefined (leaf (.str s)))
    (hbigint : ∀ n, ¬ isUndefined (leaf (.bigint n))) {v w : JsValue}
    (h : project leaf v = some w) : ¬ isUndefined w :=
  project_rel (R := fun _ w => ¬ isUndefined w) (fun _ => nofun) (fun _ => nofun) (fun _ => nofun)
    (fun _ => nofun) hstr hbigint (fun _ _ _ => nofun) (fun _ _ _ _ => nofun) v w h

theorem filter_project (leaf : JsValue → JsValue) (hstr : ∀ s, ¬ isUndefined (leaf (.str s)))
    (hbigint : ∀ n, ¬ isUndefined (leaf (.bigint n))) (members : List (JsString × JsValue)) :
    ((members.map fun m => (m.1, (project leaf m.2).getD .undefined)).filter
        fun m => !isUndefined m.2) =
      members.filterMap fun m => (project leaf m.2).map (m.1, ·) := by
  induction members with
  | nil => rfl
  | cons m members ih =>
    rw [map_cons, filterMap_cons, ← ih]
    cases hproject : project leaf m.2 with
    | none => rfl
    | some w =>
      have hw := isUndefined_project hstr hbigint hproject
      rw [filter_cons_of_pos (by simpa using hw)]
      rfl

/-- The walk returns, and it has encoded the leaves and left `undefined` out. -/
theorem visit_ok (v : JsValue) (depth : Nat) (inArray : Bool) (hdepth : v.depth + depth ≤ 512)
    (hkeys : v.distinct) : ∃ r, visit v depth inArray = .ok r ∧
      r.getD v = (project wireLeaf v).getD (if inArray then .null else .undefined) := by
  induction v using induct generalizing depth inArray with
  | undefined | function => cases inArray <;> exact ⟨_, rfl, rfl⟩
  | null | bool b | num n => exact ⟨none, rfl, rfl⟩
  | bigint n | date time => exact ⟨_, rfl, rfl⟩
  | str s =>
    refine ⟨_, rfl, ?_⟩
    show _ = JsValue.str (if needsSentinelEscape s then stringEscape ++ s else s)
    split <;> rfl
  | arr items ih =>
    rw [JsValue.depth] at hdepth
    have hdeep : ¬ maxWireDepth ≤ depth := by
      unfold maxWireDepth
      omega
    obtain ⟨ps, hps, hitems⟩ := CopyOnWrite.items_walk
      (f := (visit · (depth + 1) true)) (g := fun v => (project wireLeaf v).getD .null)
      fun v hv => by
        have hle := depthItems_le.mp (Nat.le_refl (depthItems items)) v hv
        exact ih v hv (depth + 1) true (by omega) (distinct_arr.mp hkeys v hv)
    refine ⟨(CopyOnWrite.items ps).map .arr, ?_, ?_⟩
    · rw [visit, if_neg hdeep, visitItems_eq, hps]
      rfl
    · rw [Option.getD_map, hitems, project_arr, Option.getD_some]
  | obj members ih =>
    rw [JsValue.depth] at hdepth
    have hdeep : ¬ maxWireDepth ≤ depth := by
      unfold maxWireDepth
      omega
    obtain ⟨hnodup, hvalues⟩ := distinct_obj.mp hkeys
    obtain ⟨es, hes, hmembers⟩ := CopyOnWrite.members_walk
      (fun _ v => isUndefined v) (fun v => !isUndefined v) setRebuiltKey_appends
      (f := (visit · (depth + 1) false)) (g := fun v => (project wireLeaf v).getD .undefined)
      (fun _ v h => by rw [h]; rfl) hnodup fun m hm => by
        have hle := depthMembers_le.mp (Nat.le_refl (depthMembers members)) m hm
        exact ih m hm (depth + 1) false (by omega) (hvalues m hm)
    refine ⟨(CopyOnWrite.members setRebuiltKey (fun _ v => isUndefined v)
      (fun v => !isUndefined v) es).map .obj, ?_, ?_⟩
    · rw [visit, if_neg hdeep, visitMembers_eq, hes]
      rfl
    · rw [Option.getD_map, hmembers, filter_project wireLeaf (fun _ => nofun) (fun _ => nofun),
        project_obj,
        Option.getD_some]

/-! ## The escape scheme -/

theorem bigintSentinel_eq_cons : ∃ s, bigintSentinel = unit '@' :: unit '@' :: s :=
  ⟨bigintSentinel.drop 2, by decide +kernel⟩

theorem stringEscape_eq_cons : ∃ s, stringEscape = unit '@' :: s :=
  ⟨stringEscape.drop 1, by decide +kernel⟩

theorem stringEscape_not_isPrefixOf (t : JsString) :
    stringEscape.isPrefixOf (bigintSentinel ++ t) = false := by
  rw [Bool.eq_false_iff]
  intro h
  have hescape := isPrefixOf_iff_prefix.mp h
  rcases prefix_or_prefix_of_prefix hescape (prefix_append bigintSentinel t) with h | h
  · exact absurd h (by decide +kernel)
  · exact absurd h (by decide +kernel)

theorem not_isPrefixOf_of_head {u : UInt16} {s : JsString} (h : u ≠ unit '@') :
    stringEscape.isPrefixOf (u :: s) = false ∧ bigintSentinel.isPrefixOf (u :: s) = false := by
  have hat : (unit '@' == u) = false := beq_eq_false_iff_ne.mpr h.symm
  obtain ⟨e, he⟩ := stringEscape_eq_cons
  obtain ⟨b, hb⟩ := bigintSentinel_eq_cons
  rw [he, hb, isPrefixOf_cons_cons, isPrefixOf_cons_cons, hat, Bool.false_and,
    Bool.false_and]
  exact ⟨rfl, rfl⟩

theorem legacyBigint_eq_none {s : JsString} (h : bigintSentinel.isPrefixOf s) :
    legacyBigint s = none := by
  obtain ⟨t, rfl⟩ := isPrefixOf_iff_prefix.mp h
  unfold legacyBigint
  rw [if_neg]
  rintro ⟨-, hdecimal⟩
  rw [isDecimal, Bool.and_eq_true, all_eq_true] at hdecimal
  have hat : unit '@' ∈ (bigintSentinel ++ t).dropLast := by
    obtain ⟨b, hb⟩ := bigintSentinel_eq_cons
    rw [hb, cons_append, cons_append, dropLast_cons_cons]
    exact mem_cons_self
  exact absurd (hdecimal.2 _ hat) (by decide)

theorem reviveString_escape (acceptLegacy : Bool) (s : JsString) :
    reviveString acceptLegacy (stringEscape ++ s) = .str s := by
  have hescape : stringEscape.isPrefixOf (stringEscape ++ s) :=
    isPrefixOf_iff_prefix.mpr (prefix_append _ _)
  rw [reviveString, makeBigIntReviver, if_pos hescape, drop_left]

theorem reviveString_sentinel (acceptLegacy : Bool) (n : Int) :
    reviveString acceptLegacy (bigintSentinel ++ integerText n) = .bigint n := by
  have hsentinel : bigintSentinel.isPrefixOf (bigintSentinel ++ integerText n) :=
    isPrefixOf_iff_prefix.mpr (prefix_append _ _)
  have hlength : bigintSentinel.length < (bigintSentinel ++ integerText n).length := by
    have hne : integerText n ≠ [] := by
      intro hnil
      have hinteger := isInteger_integerText n
      rw [hnil] at hinteger
      exact Bool.false_ne_true hinteger
    have hpos := length_pos_iff.mpr hne
    rw [length_append]
    omega
  rw [reviveString, makeBigIntReviver, if_neg (by rw [stringEscape_not_isPrefixOf]; nofun),
    if_pos ⟨hlength, hsentinel⟩]
  dsimp only
  rw [drop_left, if_pos (isInteger_integerText n), toInteger_integerText]

theorem reviveString_plain {s : JsString} (hescape : stringEscape.isPrefixOf s = false)
    (hsentinel : bigintSentinel.isPrefixOf s = false) : reviveString false s = .str s := by
  rw [reviveString, makeBigIntReviver, if_neg (by rw [hescape]; nofun),
    if_neg (fun h => by rw [hsentinel] at h; exact Bool.false_ne_true h.2),
    if_neg Bool.false_ne_true]

theorem reviveString_toISOString (time : Int) :
    reviveString false (JsDate.toISOString time) = .str (JsDate.toISOString time) := by
  obtain ⟨u, s, hiso, hu⟩ := JsDate.toISOString_eq_cons time
  rw [hiso]
  exact reviveString_plain (not_isPrefixOf_of_head hu).1 (not_isPrefixOf_of_head hu).2

theorem deserializeString_getD (acceptLegacy : Bool) (s : JsString) :
    (deserializeString acceptLegacy s).getD (.str s) = reviveString acceptLegacy s := by
  unfold deserializeString reviveString makeBigIntReviver
  dsimp only
  by_cases hescape : stringEscape.isPrefixOf s
  · rw [if_pos hescape, if_pos hescape, Option.getD_some]
  rw [if_neg hescape, if_neg hescape]
  have hlegacy : ((if acceptLegacy then (legacyBigint s).map JsValue.bigint else none).getD
    (.str s))
      = if acceptLegacy then
          match legacyBigint s with
          | some n => .bigint n
          | none => .str s
        else .str s := by
    cases acceptLegacy
    · rfl
    · cases legacyBigint s <;> rfl
  by_cases hsentinel : bigintSentinel.isPrefixOf s
  case neg =>
    have hdeserialize : ¬ (bigintSentinel.isPrefixOf s ∧
      isInteger (s.drop bigintSentinel.length)) :=
      fun h => hsentinel h.1
    have hrevive : ¬ (bigintSentinel.length < s.length ∧ bigintSentinel.isPrefixOf s) :=
      fun h => hsentinel h.2
    rw [if_neg hdeserialize, if_neg hrevive, hlegacy]
  by_cases hdigits : isInteger (s.drop bigintSentinel.length)
  · have hlength : bigintSentinel.length < s.length := by
      by_contra hshort
      rw [drop_eq_nil_of_le (Nat.le_of_not_lt hshort)] at hdigits
      exact Bool.false_ne_true hdigits
    rw [if_pos ⟨hsentinel, hdigits⟩, if_pos ⟨hlength, hsentinel⟩, if_pos hdigits, Option.getD_some]
  · -- behind the sentinel there is no number, and the legacy form does not match either
    have hdeserialize : ¬ (bigintSentinel.isPrefixOf s ∧
      isInteger (s.drop bigintSentinel.length)) :=
      fun h => hdigits h.2
    rw [if_neg hdeserialize, hlegacy, legacyBigint_eq_none hsentinel, if_neg hdigits]
    simp only [ite_self]

/-- The walk returns, and it has revived the strings. -/
theorem deserializeInner_ok (acceptLegacy : Bool) (v : JsValue) (depth : Nat)
    (hdepth : v.depth + depth ≤ 512) (hjson : v.jsonable) (hkeys : v.distinct) :
    ∃ r, deserializeInner acceptLegacy v depth = .ok r ∧
      r.getD v = mapStrings (reviveString acceptLegacy) v := by
  induction v using induct generalizing depth with
  | undefined | function | bigint n | date time => cases hjson
  | null | bool b | num n => exact ⟨none, rfl, rfl⟩
  | str s => exact ⟨_, rfl, deserializeString_getD acceptLegacy s⟩
  | arr items ih =>
    rw [JsValue.depth] at hdepth
    have hdeep : ¬ maxBigintDepth ≤ depth := by
      unfold maxBigintDepth
      omega
    obtain ⟨ps, hps, hitems⟩ := CopyOnWrite.items_walk
      (f := (deserializeInner acceptLegacy · (depth + 1)))
      (g := mapStrings (reviveString acceptLegacy)) fun v hv => by
        have hle := depthItems_le.mp (Nat.le_refl (depthItems items)) v hv
        exact ih v hv (depth + 1) (by omega) (jsonable_arr.mp hjson v hv)
          (distinct_arr.mp hkeys v hv)
    refine ⟨(CopyOnWrite.items ps).map .arr, ?_, ?_⟩
    · rw [deserializeInner, if_neg hdeep, deserializeItems_eq, hps]
      rfl
    · rw [Option.getD_map, hitems, mapStrings_arr]
  | obj members ih =>
    rw [JsValue.depth] at hdepth
    have hdeep : ¬ maxBigintDepth ≤ depth := by
      unfold maxBigintDepth
      omega
    obtain ⟨hnodup, hvalues⟩ := distinct_obj.mp hkeys
    obtain ⟨es, hes, hmembers⟩ := CopyOnWrite.members_walk
      (fun k _ => decide (k = protoKey)) (fun _ => true) setRebuiltKey_appends
      (f := (deserializeInner acceptLegacy · (depth + 1)))
      (g := mapStrings (reviveString acceptLegacy)) (fun _ _ _ => rfl) hnodup fun m hm => by
        have hle := depthMembers_le.mp (Nat.le_refl (depthMembers members)) m hm
        exact ih m hm (depth + 1) (by omega) (jsonable_obj.mp hjson m hm) (hvalues m hm)
    refine ⟨(CopyOnWrite.members setRebuiltKey (fun k _ => decide (k = protoKey)) (fun _ => true)
      es).map .obj, ?_, ?_⟩
    · rw [deserializeInner, if_neg hdeep, deserializeMembers_eq, hes]
      rfl
    · rw [Option.getD_map, hmembers, filter_true, mapStrings_obj]

theorem deserializeBigInt_ok (acceptLegacy : Bool) {v : JsValue} (hdepth : v.depth ≤ 512)
    (hjson : v.jsonable) (hkeys : v.distinct) :
    deserializeBigInt v acceptLegacy = .ok (mapStrings (reviveString acceptLegacy) v) := by
  obtain ⟨r, hr, hvalue⟩ := deserializeInner_ok acceptLegacy v 0 hdepth hjson hkeys
  rw [deserializeBigInt, hr, ← hvalue]
  rfl

theorem internalize_makeBigIntReviver (acceptLegacy : Bool) {v : JsValue} (hjson : v.jsonable) :
    internalize (makeBigIntReviver acceptLegacy) [] v =
      mapStrings (reviveString acceptLegacy) v := by
  refine internalize_eq_mapStrings (fun _ _ => rfl) (fun s => ?_) (fun k w hw => ?_) v hjson []
  · unfold reviveString makeBigIntReviver
    dsimp only
    repeat' split
    all_goals nofun
  · cases w with
    | str s => exact absurd rfl (hw s)
    | _ => rfl

end NevoMessaging
