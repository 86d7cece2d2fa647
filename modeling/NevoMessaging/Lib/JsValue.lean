import NevoMessaging.Lib.Json

/-!
# Values of the source language

The values that programs pass around: those of JSON, big integers, dates, `undefined` and functions.
Arrays have no holes, and the members of an object are its own enumerable ones, in their order.

`toJson` is what `JSON.stringify` makes of a value before it writes it down: `undefined` and
functions are left out of objects and become `null` in arrays, and a date becomes its ISO string.

Results:
1. `toJson_ofJson`: a value that was read from a text is written down as it is.
2. `jsonable_iff`: these are the values without any of the others in them.
-/

namespace JsDate

open JsString

/-- `n` in decimal with at least `width` digits. -/
def padded (width n : Nat) : JsString :=
  List.replicate (width - (decimal n).length) (unit '0') ++ decimal n

/-- Year, month and day of a day since 1970-01-01, in the proleptic Gregorian calendar. The year of
the computation begins in March, so that the leap day is its last one. -/
def civil (days : Int) : Int × Nat × Nat :=
  let era := (days + 719468) / 146097
  let dayOfEra := ((days + 719468) % 146097).toNat
  let yearOfEra :=
    (dayOfEra - dayOfEra / 1460 + dayOfEra / 36524 - dayOfEra / 146096) / 365
  let dayOfYear := dayOfEra - (365 * yearOfEra + yearOfEra / 4 - yearOfEra / 100)
  let month := (5 * dayOfYear + 2) / 153
  let day := dayOfYear - (153 * month + 2) / 5 + 1
  let year := (yearOfEra : Int) + era * 400
  if month < 10 then (year, month + 3, day) else (year + 1, month - 9, day)

/-- Four digits, or a sign and six digits. -/
def yearText (year : Int) : JsString :=
  if year < 0 then unit '-' :: padded 6 year.natAbs
  else if year ≤ 9999 then padded 4 year.toNat
  else unit '+' :: padded 6 year.toNat

/-- `Date.prototype.toISOString` for a time in milliseconds since 1970. -/
def toISOString (time : Int) : JsString :=
  let (year, month, day) := civil (time / 86400000)
  let ms := (time % 86400000).toNat
  yearText year ++ unit '-' :: padded 2 month ++ unit '-' :: padded 2 day ++ unit 'T' ::
    padded 2 (ms / 3600000) ++ unit ':' :: padded 2 (ms / 60000 % 60) ++ unit ':' ::
    padded 2 (ms / 1000 % 60) ++ unit '.' :: padded 3 (ms % 1000) ++ [unit 'Z']

theorem padded_eq_cons (width n : Nat) : ∃ u s, padded width n = u :: s ∧ isDigit u := by
  have hne : padded width n ≠ [] := fun h => decimal_ne_nil n (List.append_eq_nil_iff.mp h).2
  obtain ⟨u, s, h⟩ := List.exists_cons_of_ne_nil hne
  refine ⟨u, s, h, ?_⟩
  have hmem : u ∈ padded width n := h ▸ List.mem_cons_self
  rcases List.mem_append.mp hmem with hzero | hdigit
  · rw [List.eq_of_mem_replicate hzero]
    decide
  · exact isDigit_of_mem_decimal hdigit

theorem toISOString_eq_cons (time : Int) : ∃ u s, toISOString time = u :: s ∧ u ≠ unit '@' := by
  have hyear : ∀ year, ∃ u s, yearText year = u :: s ∧ u ≠ unit '@' := by
    intro year
    have hpadded (width n : Nat) : ∃ u s, padded width n = u :: s ∧ u ≠ unit '@' := by
      obtain ⟨u, s, h, hdigit⟩ := padded_eq_cons width n
      refine ⟨u, s, h, ?_⟩
      rintro rfl
      exact absurd hdigit (by decide)
    unfold yearText
    split
    · exact ⟨_, _, rfl, by decide⟩
    · split
      · exact hpadded 4 _
      · exact ⟨_, _, rfl, by decide⟩
  unfold toISOString
  generalize civil (time / 86400000) = date
  obtain ⟨year, month, day⟩ := date
  obtain ⟨u, s, h, hu⟩ := hyear year
  dsimp only
  rw [h]
  exact ⟨u, _, rfl, hu⟩

example : toISOString 951782400123 = lit "2000-02-29T00:00:00.123Z" := by decide +kernel

example : toISOString (-62198755200000) = lit "-000001-01-01T00:00:00.000Z" := by decide +kernel

end JsDate

inductive JsValue
  | undefined
  | function
  | null
  | bool (b : Bool)
  | num (n : JsonNumber)
  | str (s : JsString)
  | bigint (n : Int)
  | date (time : Int)
  | arr (items : List JsValue)
  | obj (members : List (JsString × JsValue))

namespace JsValue

mutual

/-- There is nothing for `undefined` and for functions. -/
def toJson : JsValue → Option Json
  | undefined => none
  | function => none
  | null => some .null
  | bool b => some (.bool b)
  | num n => some (.num n)
  | str s => some (.str s)
  | bigint n => some (.bigint n)
  | date time => some (.str (JsDate.toISOString time))
  | arr items => some (.arr (toJsonItems items))
  | obj members => some (.obj (toJsonMembers members))

def toJsonItems : List JsValue → List Json
  | [] => []
  | v :: items => (toJson v).getD .null :: toJsonItems items

def toJsonMember : JsString × JsValue → Option (JsString × Json)
  | (k, v) => (toJson v).map (k, ·)

def toJsonMembers : List (JsString × JsValue) → List (JsString × Json)
  | [] => []
  | m :: members => (toJsonMember m).toList ++ toJsonMembers members

end

mutual

def ofJson : Json → JsValue
  | .null => null
  | .bool b => bool b
  | .num n => num n
  | .str s => str s
  | .bigint n => bigint n
  | .arr items => arr (ofJsonItems items)
  | .obj members => obj (ofJsonMembers members)

def ofJsonItems : List Json → List JsValue
  | [] => []
  | v :: items => ofJson v :: ofJsonItems items

def ofJsonMember : JsString × Json → JsString × JsValue
  | (k, v) => (k, ofJson v)

def ofJsonMembers : List (JsString × Json) → List (JsString × JsValue)
  | [] => []
  | m :: members => ofJsonMember m :: ofJsonMembers members

end

mutual

theorem toJson_ofJson : ∀ v : Json, (ofJson v).toJson = some v
  | .null => rfl
  | .bool _ => rfl
  | .num _ => rfl
  | .str _ => rfl
  | .bigint _ => rfl
  | .arr items => by rw [ofJson, toJson, toJsonItems_ofJsonItems items]
  | .obj members => by rw [ofJson, toJson, toJsonMembers_ofJsonMembers members]

theorem toJsonItems_ofJsonItems : ∀ items : List Json, toJsonItems (ofJsonItems items) = items
  | [] => rfl
  | v :: items => by
    rw [ofJsonItems, toJsonItems, toJson_ofJson v, toJsonItems_ofJsonItems items, Option.getD_some]

theorem toJsonMember_ofJsonMember : ∀ m : JsString × Json, toJsonMember (ofJsonMember m) = some m
  | (k, v) => by rw [ofJsonMember, toJsonMember, toJson_ofJson v, Option.map_some]

theorem toJsonMembers_ofJsonMembers : ∀ members : List (JsString × Json),
    toJsonMembers (ofJsonMembers members) = members
  | [] => rfl
  | m :: members => by
    rw [ofJsonMembers, toJsonMembers, toJsonMember_ofJsonMember m,
      toJsonMembers_ofJsonMembers members]
    rfl

end

/-- `JSON.stringify` without a replacer, for a value that is not `undefined` and no function; it
throws on a big integer. -/
def stringify (v : JsValue) : Option JsString := v.toJson.bind Json.stringify

/-- `JSON.parse` -/
def parse (s : JsString) : Option JsValue := (Json.parse s).map ofJson

mutual

/-- There is nothing in the value but what JSON has. -/
def jsonable : JsValue → Bool
  | null => true
  | bool _ => true
  | num _ => true
  | str _ => true
  | arr items => jsonableItems items
  | obj members => jsonableMembers members
  | undefined => false
  | function => false
  | bigint _ => false
  | date _ => false

def jsonableItems : List JsValue → Bool
  | [] => true
  | v :: items => jsonable v && jsonableItems items

def jsonableMember : JsString × JsValue → Bool
  | (_, v) => jsonable v

def jsonableMembers : List (JsString × JsValue) → Bool
  | [] => true
  | m :: members => jsonableMember m && jsonableMembers members

end

mutual

theorem jsonable_ofJson : ∀ v : Json, (ofJson v).jsonable = v.plain
  | .null => rfl
  | .bool _ => rfl
  | .num _ => rfl
  | .str _ => rfl
  | .bigint _ => rfl
  | .arr items => by rw [ofJson, jsonable, Json.plain, jsonableItems_ofJsonItems items]
  | .obj members => by rw [ofJson, jsonable, Json.plain, jsonableMembers_ofJsonMembers members]

theorem jsonableItems_ofJsonItems : ∀ items : List Json,
    jsonableItems (ofJsonItems items) = Json.plainItems items
  | [] => rfl
  | v :: items => by
    rw [ofJsonItems, jsonableItems, Json.plainItems, jsonable_ofJson v,
      jsonableItems_ofJsonItems items]

theorem jsonableMember_ofJsonMember : ∀ m : JsString × Json,
    jsonableMember (ofJsonMember m) = Json.plainMember m
  | (_, v) => jsonable_ofJson v

theorem jsonableMembers_ofJsonMembers : ∀ members : List (JsString × Json),
    jsonableMembers (ofJsonMembers members) = Json.plainMembers members
  | [] => rfl
  | m :: members => by
    rw [ofJsonMembers, jsonableMembers, Json.plainMembers, jsonableMember_ofJsonMember m,
      jsonableMembers_ofJsonMembers members]

end

mutual

theorem ofJson_of_jsonable : ∀ v : JsValue, v.jsonable → ∃ j, ofJson j = v
  | null, _ => ⟨.null, rfl⟩
  | bool b, _ => ⟨.bool b, rfl⟩
  | num n, _ => ⟨.num n, rfl⟩
  | str s, _ => ⟨.str s, rfl⟩
  | arr items, h => by
    obtain ⟨js, hjs⟩ := ofJsonItems_of_jsonable items h
    exact ⟨.arr js, by rw [ofJson, hjs]⟩
  | obj members, h => by
    obtain ⟨js, hjs⟩ := ofJsonMembers_of_jsonable members h
    exact ⟨.obj js, by rw [ofJson, hjs]⟩

theorem ofJsonItems_of_jsonable : ∀ items : List JsValue, jsonableItems items →
    ∃ js, ofJsonItems js = items
  | [], _ => ⟨[], rfl⟩
  | v :: items, h => by
    obtain ⟨hv, hitems⟩ := (Bool.and_eq_true _ _).mp h
    obtain ⟨j, rfl⟩ := ofJson_of_jsonable v hv
    obtain ⟨js, rfl⟩ := ofJsonItems_of_jsonable items hitems
    exact ⟨j :: js, rfl⟩

theorem ofJsonMember_of_jsonable : ∀ m : JsString × JsValue, jsonableMember m →
    ∃ j, ofJsonMember j = m
  | (k, v), h => by
    obtain ⟨j, rfl⟩ := ofJson_of_jsonable v h
    exact ⟨(k, j), rfl⟩

theorem ofJsonMembers_of_jsonable : ∀ members : List (JsString × JsValue),
    jsonableMembers members → ∃ js, ofJsonMembers js = members
  | [], _ => ⟨[], rfl⟩
  | m :: members, h => by
    obtain ⟨hm, hmembers⟩ := (Bool.and_eq_true _ _).mp h
    obtain ⟨j, rfl⟩ := ofJsonMember_of_jsonable m hm
    obtain ⟨js, rfl⟩ := ofJsonMembers_of_jsonable members hmembers
    exact ⟨j :: js, rfl⟩

end

theorem jsonable_iff {v : JsValue} : v.jsonable ↔ ∃ j : Json, j.plain ∧ v = ofJson j := by
  constructor
  · intro h
    obtain ⟨j, rfl⟩ := ofJson_of_jsonable v h
    exact ⟨j, by rwa [jsonable_ofJson] at h, rfl⟩
  · rintro ⟨j, hplain, rfl⟩
    rwa [jsonable_ofJson]

theorem parse_stringify {j : Json} {s : JsString} (h : Json.stringify j = some s) :
    parse s = some (ofJson j) := by
  rw [parse, Json.parse_stringify h, Option.map_some]

end JsValue
