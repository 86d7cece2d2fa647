import NevoMessaging.Lib.JsValue
import Mathlib.Data.List.Nodup
import Mathlib.Order.Lattice

/-!
# Walks over values

What programs do with a value from the outside in or from the inside out: look at how deep it is,
put other values in the place of its strings, leave `undefined` out of it, or call a reviver on
every part of it as `JSON.parse` does.

The definitions follow the structure of a value. For each of them there is an equation that says
what it does with an array and an object as lists, and with `JsValue.induct` proofs need nothing
else.

Results:
1. `JsValue.induct`: induction over a value with its items and members.
2. `mapStrings_project`: values that are put in and taken out again.
3. `internalize_eq_mapStrings`: a reviver that looks at strings only.
-/

namespace JsValue

open List

theorem induct {P : JsValue → Prop}
    (undefined : P .undefined) (function : P .function) (null : P .null) (bool : ∀ b, P (.bool b))
    (num : ∀ n, P (.num n)) (str : ∀ s, P (.str s)) (bigint : ∀ n, P (.bigint n))
    (date : ∀ time, P (.date time)) (arr : ∀ items, (∀ v ∈ items, P v) → P (.arr items))
    (obj : ∀ members, (∀ m ∈ members, P m.2) → P (.obj members)) (v : JsValue) : P v :=
  @JsValue.rec P (fun items => ∀ v ∈ items, P v) (fun members => ∀ m ∈ members, P m.2)
    (fun m => P m.2) undefined function null bool num str bigint date arr obj nofun
    (fun _ _ hv hitems => forall_mem_cons.mpr ⟨hv, hitems⟩) nofun
    (fun _ _ hm hmembers => forall_mem_cons.mpr ⟨hm, hmembers⟩) (fun _ _ hv => hv) v

/-! ## Depth and keys -/

mutual

/-- How many containers there are inside each other. -/
def depth : JsValue → Nat
  | arr items => depthItems items + 1
  | obj members => depthMembers members + 1
  | _ => 0

def depthItems : List JsValue → Nat
  | [] => 0
  | v :: items => max (depth v) (depthItems items)

def depthMember : JsString × JsValue → Nat
  | (_, v) => depth v

def depthMembers : List (JsString × JsValue) → Nat
  | [] => 0
  | m :: members => max (depthMember m) (depthMembers members)

end

theorem depthItems_le {items : List JsValue} {n : Nat} :
    depthItems items ≤ n ↔ ∀ v ∈ items, v.depth ≤ n := by
  induction items with
  | nil => simp [depthItems]
  | cons v items ih => rw [depthItems, Nat.max_le, ih, forall_mem_cons]

theorem depthMembers_le {members : List (JsString × JsValue)} {n : Nat} :
    depthMembers members ≤ n ↔ ∀ m ∈ members, m.2.depth ≤ n := by
  induction members with
  | nil => simp [depthMembers]
  | cons m members ih =>
    obtain ⟨k, v⟩ := m
    rw [depthMembers, depthMember, Nat.max_le, ih, forall_mem_cons]

mutual

/-- Every object has each of its keys once. -/
def distinct : JsValue → Bool
  | arr items => distinctItems items
  | obj members => decide (members.map Prod.fst).Nodup && distinctMembers members
  | _ => true

def distinctItems : List JsValue → Bool
  | [] => true
  | v :: items => distinct v && distinctItems items

def distinctMember : JsString × JsValue → Bool
  | (_, v) => distinct v

def distinctMembers : List (JsString × JsValue) → Bool
  | [] => true
  | m :: members => distinctMember m && distinctMembers members

end

theorem distinct_arr {items : List JsValue} :
    (arr items).distinct ↔ ∀ v ∈ items, v.distinct := by
  rw [distinct]
  induction items with
  | nil => simp [distinctItems]
  | cons v items ih => rw [distinctItems, Bool.and_eq_true, ih, forall_mem_cons]

theorem distinct_obj {members : List (JsString × JsValue)} :
    (obj members).distinct ↔ (members.map Prod.fst).Nodup ∧ ∀ m ∈ members, m.2.distinct := by
  rw [distinct, Bool.and_eq_true, decide_eq_true_iff]
  refine and_congr Iff.rfl ?_
  induction members with
  | nil => simp [distinctMembers]
  | cons m members ih =>
    obtain ⟨k, v⟩ := m
    rw [distinctMembers, distinctMember, Bool.and_eq_true, ih, forall_mem_cons]

theorem jsonable_arr {items : List JsValue} :
    (arr items).jsonable ↔ ∀ v ∈ items, v.jsonable := by
  rw [jsonable]
  induction items with
  | nil => simp [jsonableItems]
  | cons v items ih => rw [jsonableItems, Bool.and_eq_true, ih, forall_mem_cons]

theorem jsonable_obj {members : List (JsString × JsValue)} :
    (obj members).jsonable ↔ ∀ m ∈ members, m.2.jsonable := by
  rw [jsonable]
  induction members with
  | nil => simp [jsonableMembers]
  | cons m members ih =>
    obtain ⟨k, v⟩ := m
    rw [jsonableMembers, jsonableMember, Bool.and_eq_true, ih, forall_mem_cons]

/-! ## Other values for strings -/

mutual

/-- Every string is replaced, wherever it stands; keys are not. -/
def mapStrings (f : JsString → JsValue) : JsValue → JsValue
  | str s => f s
  | arr items => arr (mapStringsItems f items)
  | obj members => obj (mapStringsMembers f members)
  | undefined => undefined
  | function => function
  | null => null
  | bool b => bool b
  | num n => num n
  | bigint n => bigint n
  | date time => date time

def mapStringsItems (f : JsString → JsValue) : List JsValue → List JsValue
  | [] => []
  | v :: items => mapStrings f v :: mapStringsItems f items

def mapStringsMember (f : JsString → JsValue) : JsString × JsValue → JsString × JsValue
  | (k, v) => (k, mapStrings f v)

def mapStringsMembers (f : JsString → JsValue) :
    List (JsString × JsValue) → List (JsString × JsValue)
  | [] => []
  | m :: members => mapStringsMember f m :: mapStringsMembers f members

end

theorem mapStrings_arr (f : JsString → JsValue) (items : List JsValue) :
    mapStrings f (arr items) = arr (items.map (mapStrings f)) := by
  rw [mapStrings]
  congr 1
  induction items with
  | nil => rfl
  | cons v items ih => rw [mapStringsItems, ih, map_cons]

theorem mapStrings_obj (f : JsString → JsValue) (members : List (JsString × JsValue)) :
    mapStrings f (obj members) = obj (members.map fun m => (m.1, mapStrings f m.2)) := by
  rw [mapStrings]
  congr 1
  induction members with
  | nil => rfl
  | cons m members ih =>
    obtain ⟨k, v⟩ := m
    rw [mapStringsMembers, mapStringsMember, ih, map_cons]

mutual

/-- The strings in a value, without its keys. -/
def strings : JsValue → List JsString
  | str s => [s]
  | arr items => stringsItems items
  | obj members => stringsMembers members
  | _ => []

def stringsItems : List JsValue → List JsString
  | [] => []
  | v :: items => strings v ++ stringsItems items

def stringsMember : JsString × JsValue → List JsString
  | (_, v) => strings v

def stringsMembers : List (JsString × JsValue) → List JsString
  | [] => []
  | m :: members => stringsMember m ++ stringsMembers members

end

theorem strings_arr (items : List JsValue) : strings (arr items) = items.flatMap strings := by
  rw [strings]
  induction items with
  | nil => rfl
  | cons v items ih => rw [stringsItems, ih, flatMap_cons]

theorem strings_obj (members : List (JsString × JsValue)) :
    strings (obj members) = members.flatMap fun m => strings m.2 := by
  rw [strings]
  induction members with
  | nil => rfl
  | cons m members ih =>
    obtain ⟨k, v⟩ := m
    rw [stringsMembers, stringsMember, ih, flatMap_cons]

theorem mapStrings_eq_self {f : JsString → JsValue} {v : JsValue}
    (h : ∀ s ∈ v.strings, f s = str s) : mapStrings f v = v := by
  induction v using induct with
  | str s => exact h s mem_cons_self
  | arr items ih =>
    rw [mapStrings_arr]
    have hitems : ∀ v ∈ items, mapStrings f v = v := by
      intro v hv
      refine ih v hv fun s hs => h s ?_
      rw [strings_arr]
      exact mem_flatMap.mpr ⟨v, hv, hs⟩
    rw [map_congr_left hitems, map_id']
  | obj members ih =>
    rw [mapStrings_obj]
    have hmembers : ∀ m ∈ members, (m.1, mapStrings f m.2) = m := by
      intro m hm
      rw [ih m hm fun s hs => h s ?_]
      rw [strings_obj]
      exact mem_flatMap.mpr ⟨m, hm, hs⟩
    rw [map_congr_left hmembers, map_id']
  | undefined | function | null | bool b | num n | bigint n | date time => rfl

/-! ## Values without `undefined` -/

mutual

/-- What JSON has no word for is left out, as in `toJson`. Strings and big integers are replaced by
`leaf`, dates become strings. -/
def project (leaf : JsValue → JsValue) : JsValue → Option JsValue
  | undefined => none
  | function => none
  | null => some null
  | bool b => some (bool b)
  | num n => some (num n)
  | str s => some (leaf (str s))
  | bigint n => some (leaf (bigint n))
  | date time => some (str (JsDate.toISOString time))
  | arr items => some (arr (projectItems leaf items))
  | obj members => some (obj (projectMembers leaf members))

def projectItems (leaf : JsValue → JsValue) : List JsValue → List JsValue
  | [] => []
  | v :: items => (project leaf v).getD null :: projectItems leaf items

def projectMember (leaf : JsValue → JsValue) : JsString × JsValue → Option (JsString × JsValue)
  | (k, v) => (project leaf v).map (k, ·)

def projectMembers (leaf : JsValue → JsValue) :
    List (JsString × JsValue) → List (JsString × JsValue)
  | [] => []
  | m :: members => (projectMember leaf m).toList ++ projectMembers leaf members

end

section Project

variable {leaf : JsValue → JsValue}

theorem project_arr (leaf : JsValue → JsValue) (items : List JsValue) :
    project leaf (arr items) = some (arr (items.map fun v => (project leaf v).getD null)) := by
  rw [project]
  congr 2
  induction items with
  | nil => rfl
  | cons v items ih => rw [projectItems, ih, map_cons]

theorem project_obj (leaf : JsValue → JsValue) (members : List (JsString × JsValue)) :
    project leaf (obj members) =
      some (obj (members.filterMap fun m => (project leaf m.2).map (m.1, ·))) := by
  rw [project]
  congr 2
  induction members with
  | nil => rfl
  | cons m members ih =>
    obtain ⟨k, v⟩ := m
    rw [projectMembers, ih, projectMember, filterMap_cons]
    cases project leaf v <;> rfl

theorem mapStrings_project (leaf leaf' : JsValue → JsValue) (f : JsString → JsValue)
    (hstr : ∀ s, mapStrings f (leaf (str s)) = leaf' (str s))
    (hbigint : ∀ n, mapStrings f (leaf (bigint n)) = leaf' (bigint n))
    (hdate : ∀ time, f (JsDate.toISOString time) = str (JsDate.toISOString time)) (v : JsValue) :
    (project leaf v).map (mapStrings f) = project leaf' v := by
  induction v using induct with
  | undefined | function | null | bool b | num n => rfl
  | str s => exact congrArg some (hstr s)
  | bigint n => exact congrArg some (hbigint n)
  | date time => exact congrArg some (hdate time)
  | arr items ih =>
    rw [project_arr, project_arr, Option.map_some, mapStrings_arr, map_map]
    congr 2
    refine map_congr_left fun v hv => ?_
    rw [← ih v hv, Function.comp_apply]
    cases project leaf v <;> rfl
  | obj members ih =>
    rw [project_obj, project_obj, Option.map_some, mapStrings_obj, map_filterMap]
    congr 2
    refine filterMap_congr fun m hm => ?_
    rw [← ih m hm, Option.map_map, Option.map_map]
    rfl

theorem project_project (leaf : JsValue → JsValue)
    (hdate : ∀ time, leaf (str (JsDate.toISOString time)) = str (JsDate.toISOString time))
    (v : JsValue) : (project id v).bind (project leaf) = project leaf v := by
  induction v using induct with
  | undefined | function | null | bool b | num n | str s | bigint n => rfl
  | date time => exact congrArg some (hdate time)
  | arr items ih =>
    rw [project_arr, project_arr, Option.bind_some, project_arr, map_map]
    congr 2
    refine map_congr_left fun v hv => ?_
    rw [← ih v hv, Function.comp_apply]
    cases project id v <;> rfl
  | obj members ih =>
    rw [project_obj, project_obj, Option.bind_some, project_obj, filterMap_filterMap]
    congr 2
    refine filterMap_congr fun m hm => ?_
    rw [← ih m hm]
    cases project id m.2 <;> rfl

theorem keys_filterMap_sublist (leaf : JsValue → JsValue) (members : List (JsString × JsValue)) :
    List.Sublist ((members.filterMap fun m => (project leaf m.2).map (m.1, ·)).map Prod.fst)
      (members.map Prod.fst) := by
  induction members with
  | nil => exact .slnil
  | cons m members ih =>
    rw [filterMap_cons]
    cases project leaf m.2 with
    | none => exact ih.cons m.1
    | some w => exact ih.cons_cons m.1

theorem project_rel {R : JsValue → JsValue → Prop} (hnull : ∀ v, R v null)
    (hbool : ∀ b, R (bool b) (bool b)) (hnum : ∀ n, R (num n) (num n))
    (hiso : ∀ time, R (date time) (str (JsDate.toISOString time)))
    (hstr : ∀ s, R (str s) (leaf (str s))) (hbigint : ∀ n, R (bigint n) (leaf (bigint n)))
    (harr : ∀ items ws, (∀ w ∈ ws, ∃ v ∈ items, R v w) → R (arr items) (arr ws))
    (hobj : ∀ members ws, (∀ w ∈ ws, ∃ m ∈ members, R m.2 w.2) →
      List.Sublist (ws.map Prod.fst) (members.map Prod.fst) → R (obj members) (obj ws))
    (v : JsValue) : ∀ w, project leaf v = some w → R v w := by
  induction v using induct with
  | undefined | function => exact nofun
  | null => rintro _ ⟨⟩; exact hnull _
  | bool b => rintro _ ⟨⟩; exact hbool b
  | num n => rintro _ ⟨⟩; exact hnum n
  | str s => rintro _ ⟨⟩; exact hstr s
  | bigint n => rintro _ ⟨⟩; exact hbigint n
  | date time => rintro _ ⟨⟩; exact hiso time
  | arr items ih =>
    rw [project_arr]
    rintro _ ⟨⟩
    refine harr _ _ fun w hw => ?_
    obtain ⟨v, hv, rfl⟩ := mem_map.mp hw
    refine ⟨v, hv, ?_⟩
    cases hproject : project leaf v with
    | none => exact hnull v
    | some w => exact ih v hv w hproject
  | obj members ih =>
    rw [project_obj]
    rintro _ ⟨⟩
    refine hobj _ _ (fun w hw => ?_) (keys_filterMap_sublist leaf members)
    obtain ⟨m, hm, hmap⟩ := mem_filterMap.mp hw
    obtain ⟨v, hv, rfl⟩ := Option.map_eq_some_iff.mp hmap
    exact ⟨m, hm, ih m hm v hv⟩

theorem jsonable_project (hstr : ∀ s, (leaf (str s)).jsonable)
    (hbigint : ∀ n, (leaf (bigint n)).jsonable) {v w : JsValue} (h : project leaf v = some w) :
    w.jsonable := by
  refine project_rel (R := fun _ w => w.jsonable) (fun _ => rfl) (fun _ => rfl) (fun _ => rfl)
    (fun _ => rfl) hstr hbigint (fun _ ws h => jsonable_arr.mpr fun w hw => ?_)
    (fun _ ws h _ => jsonable_obj.mpr fun w hw => ?_) v w h
  · obtain ⟨_, _, hjson⟩ := h w hw
    exact hjson
  · obtain ⟨_, _, hjson⟩ := h w hw
    exact hjson

theorem distinct_project (hstr : ∀ s, (leaf (str s)).distinct)
    (hbigint : ∀ n, (leaf (bigint n)).distinct) {v w : JsValue} (hv : v.distinct)
    (h : project leaf v = some w) : w.distinct := by
  refine project_rel (R := fun v w => v.distinct → w.distinct) (fun _ _ => rfl) (fun _ _ => rfl)
    (fun _ _ => rfl) (fun _ _ => rfl) (fun s _ => hstr s) (fun n _ => hbigint n)
    (fun items ws h hitems => distinct_arr.mpr fun w hw => ?_)
    (fun members ws h hkeys hmembers => ?_) v w h hv
  · obtain ⟨v, hv, hvw⟩ := h w hw
    exact hvw (distinct_arr.mp hitems v hv)
  · obtain ⟨hnodup, hvalues⟩ := distinct_obj.mp hmembers
    refine distinct_obj.mpr ⟨hnodup.sublist hkeys, fun w hw => ?_⟩
    obtain ⟨m, hm, hmw⟩ := h w hw
    exact hmw (hvalues m hm)

theorem depth_project (hstr : ∀ s, (leaf (str s)).depth = 0)
    (hbigint : ∀ n, (leaf (bigint n)).depth = 0) {v w : JsValue} (h : project leaf v = some w) :
    w.depth ≤ v.depth := by
  refine project_rel (R := fun v w => w.depth ≤ v.depth) (fun _ => Nat.zero_le _)
    (fun _ => Nat.le_refl _) (fun _ => Nat.le_refl _) (fun _ => Nat.le_refl _)
    (fun s => Nat.le_of_eq (hstr s)) (fun n => Nat.le_of_eq (hbigint n))
    (fun items ws h => Nat.succ_le_succ (depthItems_le.mpr fun w hw => ?_))
    (fun members ws h _ => Nat.succ_le_succ (depthMembers_le.mpr fun w hw => ?_)) v w h
  · obtain ⟨v, hv, hle⟩ := h w hw
    exact hle.trans (depthItems_le.mp (Nat.le_refl _) v hv)
  · obtain ⟨m, hm, hle⟩ := h w hw
    exact hle.trans (depthMembers_le.mp (Nat.le_refl _) m hm)

end Project

/-! ## Revivers -/

/-- A member whose new value is `undefined` is deleted. -/
def revived (key : JsString) : JsValue → Option (JsString × JsValue)
  | undefined => none
  | v => some (key, v)

mutual

/-- What `JSON.parse` does with a reviver: it is called on every part of the value, from the inside
out, with the key of the part. A hole that it leaves in an array is read as `undefined`. -/
def internalize (reviver : JsString → JsValue → JsValue) : JsString → JsValue → JsValue
  | key, arr items => reviver key (arr (internalizeItems reviver 0 items))
  | key, obj members => reviver key (obj (internalizeMembers reviver members))
  | key, undefined => reviver key undefined
  | key, function => reviver key function
  | key, null => reviver key null
  | key, bool b => reviver key (bool b)
  | key, num n => reviver key (num n)
  | key, str s => reviver key (str s)
  | key, bigint n => reviver key (bigint n)
  | key, date time => reviver key (date time)

def internalizeItems (reviver : JsString → JsValue → JsValue) : Nat → List JsValue → List JsValue
  | _, [] => []
  | i, v :: items =>
    internalize reviver (JsString.decimal i) v :: internalizeItems reviver (i + 1) items

def internalizeMember (reviver : JsString → JsValue → JsValue) :
    JsString × JsValue → Option (JsString × JsValue)
  | (k, v) => revived k (internalize reviver k v)

def internalizeMembers (reviver : JsString → JsValue → JsValue) :
    List (JsString × JsValue) → List (JsString × JsValue)
  | [] => []
  | m :: members => (internalizeMember reviver m).toList ++ internalizeMembers reviver members

end

/-- `JSON.parse` with a reviver. -/
def parseWith (reviver : JsString → JsValue → JsValue) (s : JsString) : Option JsValue :=
  (parse s).map (internalize reviver [])

/-- A reviver that changes strings only, and never into `undefined`, may as well be applied to the
strings alone. -/
theorem internalize_eq_mapStrings {reviver : JsString → JsValue → JsValue} {f : JsString → JsValue}
    (hstr : ∀ k s, reviver k (str s) = f s) (hdefined : ∀ s, f s ≠ undefined)
    (hother : ∀ k v, (∀ s, v ≠ str s) → reviver k v = v) (v : JsValue) (h : v.jsonable)
    (key : JsString) : internalize reviver key v = mapStrings f v := by
  induction v using induct generalizing key with
  | undefined | function | bigint n | date time => cases h
  | null | bool b | num n => exact hother key _ fun s hs => by cases hs
  | str s => exact hstr key s
  | arr items ih =>
    have hitems : ∀ i, internalizeItems reviver i items = items.map (mapStrings f) := by
      have hjson := jsonable_arr.mp h
      clear h
      induction items with
      | nil => exact fun _ => rfl
      | cons v items ihi =>
        intro i
        rw [internalizeItems, map_cons, ih v mem_cons_self (hjson v mem_cons_self),
          ihi (fun w hw => ih w (mem_cons_of_mem _ hw))
            fun w hw => hjson w (mem_cons_of_mem _ hw)]
    rw [internalize, hitems, hother key (arr _) (fun s hs => by cases hs), mapStrings_arr]
  | obj members ih =>
    have hmembers : internalizeMembers reviver members =
        members.map fun m => (m.1, mapStrings f m.2) := by
      have hjson := jsonable_obj.mp h
      clear h
      induction members with
      | nil => rfl
      | cons m members ihm =>
        obtain ⟨k, v⟩ := m
        have hv := ih (k, v) mem_cons_self (hjson (k, v) mem_cons_self) k
        have hne : mapStrings f v ≠ undefined := by
          have hvj : v.jsonable := hjson (k, v) mem_cons_self
          intro hundef
          cases v with
          | str s => exact hdefined s hundef
          | undefined => cases hvj
          | arr items => cases (mapStrings_arr f items).symm.trans hundef
          | obj members => cases (mapStrings_obj f members).symm.trans hundef
          | _ => cases hundef
        have hkeep : revived k (mapStrings f v) = some (k, mapStrings f v) := by
          unfold revived
          split
          · next heq => exact absurd heq hne
          · rfl
        rw [internalizeMembers, map_cons, internalizeMember, hv, hkeep,
          ihm (fun w hw => ih w (mem_cons_of_mem _ hw))
            fun w hw => hjson w (mem_cons_of_mem _ hw)]
        rfl
    rw [internalize, hmembers, hother key (obj _) (fun s hs => by cases hs), mapStrings_obj]

/-! ## Objects that are built -/

/-- A data property is defined: it takes the place of the one with its key, or goes to the end. -/
def define (members : List (JsString × JsValue)) (k : JsString) (v : JsValue) :
    List (JsString × JsValue) :=
  if k ∈ members.map Prod.fst then members.map fun m => if m.1 = k then (k, v) else m
  else members ++ [(k, v)]

def protoKey : JsString := JsString.lit "__proto__"

/-- `target[k] = v`. If there is no such property, `__proto__` means the prototype of the object and
no member comes into being. -/
def assign (members : List (JsString × JsValue)) (k : JsString) (v : JsValue) :
    List (JsString × JsValue) :=
  if k = protoKey ∧ k ∉ members.map Prod.fst then members else define members k v

theorem define_of_not_mem {members : List (JsString × JsValue)} {k : JsString} (v : JsValue)
    (h : k ∉ members.map Prod.fst) : define members k v = members ++ [(k, v)] := by
  rw [define, if_neg h]

end JsValue
