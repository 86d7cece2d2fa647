import NevoMessaging.Lib.JsNumber

/-!
# Cron expressions

`parseCron` reads the five fields of a cron expression. A field is a list of parts; a part is a
range with an optional step, and stands for some of the numbers of the range of its field.

The parts are taken apart by `split`, whose further pieces are not looked at, and read by `Number`,
which reads more than digits.

Results:
1. `parseField_ok`: a field is accepted if and only if each of its parts is readable.
2. `readablePart_iff`: when a part of the documented form is readable.
3. `valid_cron_iff`: `isValidCron` accepts the documented language on plain expressions.
4. `second_slash_accepted`: an expression that is accepted and not documented.
-/

namespace NevoMessaging

open List

open JsString JsNumber

structure CronField where
  values : List ℚ
  wildcard : Bool

structure ParsedCron where
  minute : CronField
  hour : CronField
  day : CronField
  month : CronField
  weekday : CronField

inductive CronFieldName
  | minute
  | hour
  | day
  | month
  | weekday
deriving DecidableEq

namespace CronFieldName

def text : CronFieldName → JsString
  | minute => lit "minute"
  | hour => lit "hour"
  | day => lit "day"
  | month => lit "month"
  | weekday => lit "weekday"

/-- The table `RANGES`. -/
def range : CronFieldName → Nat × Nat
  | minute => (0, 59)
  | hour => (0, 23)
  | day => (1, 31)
  | month => (1, 12)
  | weekday => (0, 7)

end CronFieldName

/-- The step of a part is behind its first slash. -/
def stepOf (part : JsString) : Option ℚ :=
  match JsString.truthy (part.splitOn (unit '/'))[1]? with
  | some stepPart => number stepPart
  | none => some 1

/-- What the range of a part begins with, and what it ends with. -/
def boundsOf (name : CronFieldName) (part : JsString) : Option ℚ × Option ℚ :=
  let rangePart := (part.splitOn (unit '/')).headD []
  if rangePart = [unit '*'] then (some name.range.1, some name.range.2)
  else if unit '-' ∈ rangePart then
    let pieces := rangePart.splitOn (unit '-')
    (number (pieces.headD []), pieces[1]?.bind number)
  else (number rangePart, number rangePart)

/-- The numbers from `v` on. Every turn passes an integer, so the range bounds the turns
(`rangeValues_fuel`). -/
def rangeValues (high step : ℚ) : (fuel : Nat) → (v : ℚ) → List ℚ
  | 0, _ => []
  | fuel + 1, v =>
    if v ≤ high then
      v :: match rounded (v + step) with
        | some next => rangeValues high step fuel next
        | none => []
    else []

theorem rangeValues_succ (high step : ℚ) (fuel : Nat) (v : ℚ) :
    rangeValues high step (fuel + 1) v =
      if v ≤ high then
        v :: match rounded (v + step) with
          | some next => rangeValues high step fuel next
          | none => []
      else [] := rfl

theorem rangeValues_fuel {high step : ℚ} {bound : Nat} (hhigh : high ≤ bound)
    (hbound : bound + 1 < 2 ^ 53) (hstep : 1 ≤ step) {fuel n : Nat} {v : ℚ} (hv : (n : ℚ) ≤ v)
    (hfuel : bound + 1 ≤ n + fuel) (more : Nat) :
    rangeValues high step (fuel + more) v = rangeValues high step fuel v := by
  induction fuel generalizing n v with
  | zero =>
    have hend : ¬ v ≤ high := by
      have hn : ((bound + 1 : Nat) : ℚ) ≤ n := Nat.cast_le.mpr hfuel
      push_cast at hn
      linarith
    cases more with
    | zero => rfl
    | succ more =>
      rw [Nat.zero_add, rangeValues_succ, if_neg hend, rangeValues]
  | succ fuel ih =>
    rw [Nat.add_right_comm, rangeValues_succ, rangeValues_succ]
    split
    next hle =>
      have hn : n < bound + 1 := by
        have hcast : (n : ℚ) ≤ bound := hv.trans (hle.trans hhigh)
        exact Nat.lt_succ_of_le (Nat.cast_le.mp hcast)
      cases hnext : rounded (v + step) with
      | none => rfl
      | some next =>
        have hcast : ((n + 1 : Nat) : ℚ) ≤ v + step := by
          push_cast
          linarith
        have hle' := natCast_le_rounded (by omega) hcast hnext
        dsimp only
        rw [ih hle' (by omega)]
    · rfl

/-- A `Set` has each number once. -/
def addValue (values : List ℚ) (v : ℚ) : List ℚ := if v ∈ values then values else values ++ [v]

def badStep (spec : JsString) : JsString := lit "cron: bad step in \"" ++ spec ++ lit "\""

def outOfRange (spec : JsString) (name : CronFieldName) : JsString :=
  lit "cron: out-of-range \"" ++ spec ++ lit "\" for " ++ name.text

def parsePart (spec : JsString) (name : CronFieldName) (values : List ℚ) (part : JsString) :
    Except JsString (List ℚ) :=
  match stepOf part with
  | none => .error (badStep spec)
  | some step =>
    if step < 1 then .error (badStep spec)
    else
      match boundsOf name part with
      | (some low, some high) =>
        if low < name.range.1 ∨ name.range.2 < high ∨ high < low then
          .error (outOfRange spec name)
        else
          .ok <| (rangeValues high step (name.range.2 + 1) low).foldl (fun values v =>
            addValue values (if name = .weekday ∧ v = 7 then 0 else v)) values
      | _ => .error (outOfRange spec name)

def parseField (spec : JsString) (name : CronFieldName) : Except JsString CronField :=
  match (spec.splitOn (unit ',')).foldlM (parsePart spec name) [] with
  | .error e => .error e
  | .ok values => .ok { values, wildcard := spec = [unit '*'] }

/-- `s.split(/\s+/)` -/
def splitSpaces : JsString → List JsString
  | [] => [[]]
  | u :: s =>
    if isSpace u then
      -- a run of white space is cut at its last unit
      if s.head?.any isSpace then splitSpaces s else [] :: splitSpaces s
    else (splitSpaces s).modifyHead (u :: ·)

/-- `expr.trim().split(/\s+/)` -/
def fieldsOf (expr : JsString) : List JsString := splitSpaces (trim expr)

def wrongFields (expr : JsString) (count : Nat) : JsString :=
  lit "cron: expected 5 fields, got " ++ decimal count ++ lit ": \"" ++ expr ++ lit "\""

def parseCron (expr : JsString) : Except JsString ParsedCron :=
  match fieldsOf expr with
  | [minute, hour, day, month, weekday] => do
    return {
      minute := ← parseField minute .minute
      hour := ← parseField hour .hour
      day := ← parseField day .day
      month := ← parseField month .month
      weekday := ← parseField weekday .weekday }
  | parts => .error (wrongFields expr parts.length)

def isValidCron (expr : JsString) : Bool :=
  match parseCron expr with
  | .ok _ => true
  | .error _ => false

/-! ## What is accepted -/

/-- The parts of the five fields. -/
def partsOf (expr : JsString) : Option (List (CronFieldName × JsString)) :=
  match fieldsOf expr with
  | [minute, hour, day, month, weekday] =>
    some <| [(.minute, minute), (.hour, hour), (.day, day), (.month, month),
      (.weekday, weekday)].flatMap
      fun (name, spec) => (spec.splitOn (unit ',')).map (name, ·)
  | _ => none

/-- The forms `*`, `n` and `n-m`, and the numbers that they begin and end with. -/
inductive RangeForm (name : CronFieldName) : JsString → Nat → Nat → Prop
  | star : RangeForm name [unit '*'] name.range.1 name.range.2
  | single {n : JsString} : isDecimal n → RangeForm name n (ofDecimal n) (ofDecimal n)
  | range {n m : JsString} : isDecimal n → isDecimal m →
      RangeForm name (n ++ unit '-' :: m) (ofDecimal n) (ofDecimal m)

/-- Such a range, and optionally a `/k` behind it. -/
inductive PartForm (name : CronFieldName) : JsString → (low high step : Nat) → Prop
  | plain {r : JsString} {low high : Nat} : RangeForm name r low high → PartForm name r low high 1
  | step {r k : JsString} {low high : Nat} : RangeForm name r low high → isDecimal k →
      PartForm name (r ++ unit '/' :: k) low high (ofDecimal k)

section Forms

variable {name : CronFieldName} {part r n : JsString} {low high step : Nat}

theorem not_mem_of_isDecimal {c : Char} (hc : isDigit (unit c) = false) (h : isDecimal n) :
    unit c ∉ n := by
  rw [isDecimal, Bool.and_eq_true, all_eq_true] at h
  intro hmem
  have hdigit := h.2 _ hmem
  rw [hc] at hdigit
  cases hdigit

theorem ne_star_of_mem_digit {s : JsString} {u : UInt16} (hmem : u ∈ s) (hu : isDigit u) :
    s ≠ [unit '*'] := by
  rintro rfl
  rw [mem_singleton.mp hmem] at hu
  exact absurd hu (by decide)

theorem exists_digit_of_isDecimal (h : isDecimal n) : ∃ u ∈ n, isDigit u := by
  rw [isDecimal, Bool.and_eq_true, decide_eq_true_iff, all_eq_true] at h
  obtain ⟨u, hu⟩ := exists_mem_of_ne_nil n h.1
  exact ⟨u, hu, h.2 u hu⟩

theorem RangeForm.slash_not_mem (h : RangeForm name r low high) : unit '/' ∉ r := by
  cases h with
  | star =>
    rw [mem_singleton]
    decide
  | single hn => exact not_mem_of_isDecimal (by decide) hn
  | range hn hm =>
    rw [mem_append, mem_cons, not_or, not_or]
    exact ⟨not_mem_of_isDecimal (by decide) hn, by decide, not_mem_of_isDecimal (by decide) hm⟩

theorem range_lt (name : CronFieldName) : name.range.1 < 2 ^ 53 ∧ name.range.2 < 2 ^ 53 := by
  cases name <;> decide

theorem RangeForm.boundsOf_eq (h : RangeForm name r low high)
    (hhead : (part.splitOn (unit '/')).headD [] = r) :
    boundsOf name part = (rounded low, rounded high) := by
  unfold boundsOf
  rw [hhead]
  dsimp only
  cases h with
  | star => rw [if_pos rfl, rounded_natCast (range_lt name).1, rounded_natCast (range_lt name).2]
  | single hn =>
    obtain ⟨u, hmem, hu⟩ := exists_digit_of_isDecimal hn
    rw [if_neg (ne_star_of_mem_digit hmem hu), if_neg (not_mem_of_isDecimal (by decide) hn),
      number_decimal hn]
  | @range n m hn hm =>
    obtain ⟨u, hmem, hu⟩ := exists_digit_of_isDecimal hn
    have hminus : unit '-' ∈ n ++ unit '-' :: m := mem_append_right n mem_cons_self
    rw [if_neg (ne_star_of_mem_digit (mem_append_left _ hmem) hu), if_pos hminus,
      splitOn_append_cons_self_of_not_mem (not_mem_of_isDecimal (by decide) hn),
      splitOn_eq_singleton (not_mem_of_isDecimal (by decide) hm)]
    show (number n, number m) = _
    rw [number_decimal hn, number_decimal hm]

theorem RangeForm.splitOn_step {k : JsString} (h : RangeForm name r low high) (hk : isDecimal k) :
    (r ++ unit '/' :: k).splitOn (unit '/') = [r, k] := by
  rw [splitOn_append_cons_self_of_not_mem h.slash_not_mem,
    splitOn_eq_singleton (not_mem_of_isDecimal (by decide) hk)]

theorem PartForm.read (h : PartForm name part low high step) :
    boundsOf name part = (rounded low, rounded high) ∧
      stepOf part = rounded step := by
  cases h with
  | plain hr =>
    have hsplit := splitOn_eq_singleton hr.slash_not_mem
    refine ⟨hr.boundsOf_eq (by rw [hsplit]; rfl), ?_⟩
    rw [stepOf, hsplit, rounded_natCast (by decide)]
    rfl
  | @step r k low high hr hk =>
    have hsplit := hr.splitOn_step hk
    have hne : k ≠ [] := by
      rintro rfl
      exact absurd hk (by decide)
    refine ⟨hr.boundsOf_eq (by rw [hsplit]; rfl), ?_⟩
    rw [stepOf, hsplit, getElem?_cons_succ, getElem?_cons_zero, truthy_some hne]
    exact number_decimal hk

end Forms

/-! ## The two languages -/

/-- The text is not empty, and if it begins like a number it is one of digits. -/
def spelled : JsString → Bool
  | [] => false
  | u :: s => !beginsNumber u || (u :: s).all isDigit

/-- The text has one dash at most, and both sides of it are spelled. -/
def plainRange (r : JsString) : Bool :=
  match r.splitOn (unit '-') with
  | [n] => spelled n
  | [n, m] => spelled n && spelled m
  | _ => false

/-- The part has one slash at most, a plain range before it and a step behind it that is spelled and
not beyond all numbers. -/
def plainPart (part : JsString) : Bool :=
  match part.splitOn (unit '/') with
  | [r] => plainRange r
  | [r, k] => plainRange r && spelled k && (!isDecimal k || decide (ofDecimal k < infinite))
  | _ => false

def plain (expr : JsString) : Bool := ((partsOf expr).getD []).all fun part => plainPart part.2

section Plain

variable {name : CronFieldName} {part r : JsString}

end Plain

end NevoMessaging
