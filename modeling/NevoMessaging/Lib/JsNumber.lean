import Mathlib.Data.Int.Log
import Mathlib.Data.List.DropRight
import Mathlib.Data.Rat.Floor
import Mathlib.Tactic.FieldSimp
import NevoMessaging.Lib.JsString

/-!
# Numbers of the source language

A finite number is a rational one in binary64. `rounded` takes a rational number to the nearest one
of them, and to the even one of two that are equally near; what is too large becomes infinite, and
then there is no result.

`number s` is `Number(s)` where that is finite. The text may be decimal with a fraction and an
exponent, or have one of the radixes 2, 8 and 16, and the empty text is 0.

Results:
1. `rounded_natCast`: integers below `2 ^ 53` are numbers.
2. `natCast_le_rounded`: rounding does not fall below an integer.
3. `number_decimal`: the number of a text of digits is the one that it spells.
4. `number_eq_none`: a text that does not begin like a number is none.
-/

namespace JsNumber

open List

open JsString

/-! ## Rounding -/

/-- The nearest integer, and the even one of two. -/
def nearest (q : ℚ) : Int :=
  let low := ⌊q⌋
  if q - low < 1 / 2 then low
  else if 1 / 2 < q - low then low + 1
  else if low % 2 = 0 then low else low + 1

/-- The distance of the numbers next to `q`. -/
def ulp (q : ℚ) : ℚ := 2 ^ max (Int.log 2 q - 52) (-1074)

/-- The least magnitude that becomes infinite: half an `ulp` more than the largest number. -/
def infinite : Nat := 2 ^ 1024 - 2 ^ 970

@[irreducible]
def rounded (q : ℚ) : Option ℚ :=
  if (infinite : ℚ) ≤ |q| then none else some (nearest (q / ulp |q|) * ulp |q|)

theorem le_nearest {n : Int} {q : ℚ} (h : (n : ℚ) ≤ q) : n ≤ nearest q := by
  have hfloor : n ≤ ⌊q⌋ := Int.le_floor.mpr h
  unfold nearest
  dsimp only
  split_ifs <;> omega

theorem nearest_intCast (n : Int) : nearest n = n := by
  unfold nearest
  dsimp only
  rw [Int.floor_intCast, sub_self, if_pos (by norm_num)]

theorem ulp_pos (q : ℚ) : 0 < ulp q := zpow_pos (by norm_num) _

theorem mul_ulp_le_rounded {q r : ℚ} {n : Int} (hq : 0 ≤ q) (h : n * ulp q ≤ q)
    (hround : rounded q = some r) : n * ulp q ≤ r := by
  unfold rounded at hround
  rw [abs_of_nonneg hq] at hround
  split at hround
  · cases hround
  · cases hround
    have hdiv : (n : ℚ) ≤ q / ulp q := (le_div_iff₀ (ulp_pos q)).mpr h
    have hle : (n : ℚ) ≤ nearest (q / ulp q) := by exact_mod_cast le_nearest hdiv
    exact mul_le_mul_of_nonneg_right hle (ulp_pos q).le

theorem exists_mul_ulp {q : ℚ} (n : Nat) (hone : 1 ≤ q) (hlog : Int.log 2 q ≤ 52) :
    ∃ m : Int, (m : ℚ) * ulp q = n := by
  have hnonneg : 0 ≤ Int.log 2 q := by
    rw [← Int.zpow_le_iff_le_log (by decide) (by linarith)]
    simpa using hone
  obtain ⟨k, hk⟩ := Int.eq_ofNat_of_zero_le (sub_nonneg.mpr hlog)
  have hulp : ulp q = ((2 : ℚ) ^ k)⁻¹ := by
    rw [ulp, max_eq_left (by omega), ← zpow_natCast, ← zpow_neg]
    congr 1
    omega
  refine ⟨(n * 2 ^ k : Nat), ?_⟩
  rw [hulp]
  push_cast
  field_simp

theorem log_natCast_le {n : Nat} (hn : n < 2 ^ 53) : Int.log 2 (n : ℚ) ≤ 52 := by
  rw [Int.log_natCast]
  rcases Nat.eq_zero_or_pos n with rfl | hpos
  · simp
  · have hlog := Nat.log_lt_of_lt_pow hpos.ne' hn
    omega

theorem rounded_natCast {n : Nat} (hn : n < 2 ^ 53) : rounded n = some (n : ℚ) := by
  have hsmall : ¬ (infinite : ℚ) ≤ n := by
    rw [Nat.cast_le]
    have hinfinite : 2 ^ 53 ≤ infinite := by decide +kernel
    omega
  unfold rounded
  rw [abs_of_nonneg (Nat.cast_nonneg n), if_neg hsmall]
  rcases Nat.eq_zero_or_pos n with rfl | hpos
  · rw [Nat.cast_zero, zero_div, show (0 : ℚ) = (0 : Int) from rfl, nearest_intCast, Int.cast_zero,
      zero_mul]
  · obtain ⟨m, hm⟩ := exists_mul_ulp n (Nat.one_le_cast.mpr hpos) (log_natCast_le hn)
    have hdiv : (n : ℚ) / ulp n = m := by rw [div_eq_iff (ulp_pos _).ne', hm]
    rw [hdiv, nearest_intCast, hm]

/-- Rounding does not fall below an integer. -/
theorem natCast_le_rounded {n : Nat} {q r : ℚ} (hn : n < 2 ^ 53) (h : (n : ℚ) ≤ q)
    (hround : rounded q = some r) : (n : ℚ) ≤ r := by
  have hq : 0 ≤ q := (Nat.cast_nonneg n).trans h
  rcases Nat.eq_zero_or_pos n with rfl | hpos
  · have hzero := mul_ulp_le_rounded (n := 0) hq (by simpa using hq) hround
    simpa using hzero
  · have hone : 1 ≤ q := (Nat.one_le_cast.mpr hpos).trans h
    by_cases hlog : Int.log 2 q ≤ 52
    · obtain ⟨m, hm⟩ := exists_mul_ulp n hone hlog
      rw [← hm] at h ⊢
      exact mul_ulp_le_rounded hq h hround
    · -- beyond 2 ^ 53 the power of two below q is a number
      have hgrid : (((2 : Int) ^ 52 : Int) : ℚ) * ulp q = 2 ^ Int.log 2 q := by
        have hcast : (((2 : Int) ^ 52 : Int) : ℚ) = 2 ^ (52 : Int) := by norm_num
        rw [ulp, max_eq_left (by omega), hcast, ← zpow_add₀ (by norm_num)]
        congr 1
        omega
      have hpow : (2 : ℚ) ^ Int.log 2 q ≤ q := by
        have hself := Int.zpow_log_le_self (b := 2) (r := q) (by decide) (by linarith)
        exact_mod_cast hself
      have hr := mul_ulp_le_rounded hq (hgrid ▸ hpow) hround
      rw [hgrid] at hr
      have hbig : (2 : ℚ) ^ (53 : Int) ≤ 2 ^ Int.log 2 q :=
        zpow_le_zpow_right₀ (by norm_num) (by omega)
      have hn' : (n : ℚ) ≤ 2 ^ (53 : Int) := by
        have hcast : (n : ℚ) ≤ ((2 ^ 53 : Nat) : ℚ) := Nat.cast_le.mpr hn.le
        exact_mod_cast hcast
      exact hn'.trans (hbig.trans hr)

/-! ## Texts -/

/-- White space and line terminators. -/
def isSpace (u : UInt16) : Bool :=
  [0x9, 0xA, 0xB, 0xC, 0xD, 0x20, 0xA0, 0x1680, 0x2000, 0x2001, 0x2002, 0x2003, 0x2004, 0x2005,
    0x2006, 0x2007, 0x2008, 0x2009, 0x200A, 0x2028, 0x2029, 0x202F, 0x205F, 0x3000,
      0xFEFF].contains u

def trim (s : JsString) : JsString := (s.dropWhile isSpace).rdropWhile isSpace

/-- The value of a digit of any radix. -/
def digitValue (u : UInt16) : Option Nat :=
  if isDigit u then some (u.toNat - 48)
  else if unit 'a' ≤ u ∧ u ≤ unit 'f' then some (u.toNat - 87)
  else if unit 'A' ≤ u ∧ u ≤ unit 'F' then some (u.toNat - 55)
  else none

def ofRadix (radix : Nat) (digits : JsString) : Option ℚ :=
  if digits = [] then none
  else (digits.foldlM (fun n u => (digitValue u).bind fun d =>
    if d < radix then some (radix * n + d) else none) 0).map fun n : Nat => (n : ℚ)

def exponent : JsString → Option Int
  | [] => some 0
  | u :: s =>
    if u = unit 'e' ∨ u = unit 'E' then
      match s with
      | [] => none
      | v :: digits =>
        if v = unit '+' then if isDecimal digits then some (ofDecimal digits) else none
        else if v = unit '-' then if isDecimal digits then some (-ofDecimal digits) else none
        else if isDecimal (v :: digits) then some (ofDecimal (v :: digits)) else none
    else none

def ofUnsigned (s : JsString) : Option ℚ :=
  let whole := s.takeWhile isDigit
  let rest := s.dropWhile isDigit
  let (fraction, rest) :=
    match rest with
    | u :: digits =>
      if u = unit '.' then (digits.takeWhile isDigit, digits.dropWhile isDigit) else ([], rest)
    | [] => ([], [])
  if whole = [] ∧ fraction = [] then none
  else (exponent rest).map fun e =>
    (ofDecimal (whole ++ fraction) : ℚ) * 10 ^ (e - fraction.length : Int)

def ofSigned (s : JsString) : Option ℚ :=
  match s with
  | u :: rest =>
    if u = unit '-' then (ofUnsigned rest).map (- ·)
    else if u = unit '+' then ofUnsigned rest
    else ofUnsigned s
  | [] => some 0

/-- The mathematical value of a text. -/
def ofText (s : JsString) : Option ℚ :=
  match s with
  | u :: v :: digits =>
    if u = unit '0' then
      if v = unit 'x' ∨ v = unit 'X' then ofRadix 16 digits
      else if v = unit 'o' ∨ v = unit 'O' then ofRadix 8 digits
      else if v = unit 'b' ∨ v = unit 'B' then ofRadix 2 digits
      else ofSigned s
    else ofSigned s
  | _ => ofSigned s

def number (s : JsString) : Option ℚ := (ofText (trim s)).bind rounded

example : number (lit " 0x1F") = some 31 := by decide +kernel

example : number (lit "-2.5e1") = some (-25) := by decide +kernel

example : number (lit "59.00000000000000000001") = some 59 := by decide +kernel

example : number (lit "1 2") = none := by decide +kernel

/-! ## Texts of digits -/

theorem not_isSpace_of_isDigit {u : UInt16} (h : isDigit u) : isSpace u = false := by
  rw [isDigit, Bool.and_eq_true, decide_eq_true_iff, decide_eq_true_iff] at h
  have hlow : 48 ≤ u.toNat := UInt16.le_iff_toNat_le.mp h.1
  have hhigh : u.toNat ≤ 57 := UInt16.le_iff_toNat_le.mp h.2
  rw [isSpace, contains_eq_mem, decide_eq_false_iff_not]
  intro hmem
  simp only [mem_cons, not_mem_nil, or_false] at hmem
  rcases hmem with h | h | h | h | h | h | h | h | h | h | h | h | h | h | h | h | h | h | h | h
    | h |
    h | h | h | h <;>
  · subst h
    simp at hlow hhigh

theorem trim_of_isDecimal {s : JsString} (h : isDecimal s) : trim s = s := by
  rw [isDecimal, Bool.and_eq_true, decide_eq_true_iff, all_eq_true] at h
  obtain ⟨hne, hdigits⟩ := h
  have hspace : ∀ u ∈ s, isSpace u = false := fun u hu => not_isSpace_of_isDigit (hdigits u hu)
  have hdrop : s.dropWhile isSpace = s := by
    rw [dropWhile_eq_self_iff]
    intro hlen
    rw [hspace _ (getElem_mem hlen)]
    exact Bool.false_ne_true
  rw [trim, hdrop, rdropWhile_eq_self_iff]
  intro hne'
  rw [hspace _ (getLast_mem hne')]
  exact Bool.false_ne_true

theorem ofUnsigned_of_isDecimal {s : JsString} (h : isDecimal s) :
    ofUnsigned s = some (ofDecimal s : ℚ) := by
  rw [isDecimal, Bool.and_eq_true, decide_eq_true_iff, all_eq_true] at h
  obtain ⟨hne, hdigits⟩ := h
  unfold ofUnsigned
  rw [takeWhile_eq_self_iff.mpr hdigits, dropWhile_eq_nil_iff.mpr hdigits]
  simp [hne, exponent]

theorem ofText_of_isDecimal {s : JsString} (h : isDecimal s) :
    ofText s = some (ofDecimal s : ℚ) := by
  have hsigned : ofSigned s = some (ofDecimal s : ℚ) := by
    unfold ofSigned
    split
    next u rest =>
      have hdigit : isDigit u := by
        rw [isDecimal, Bool.and_eq_true, all_eq_true] at h
        exact h.2 u mem_cons_self
      have hminus : u ≠ unit '-' := by
        rintro rfl
        exact absurd hdigit (by decide)
      have hplus : u ≠ unit '+' := by
        rintro rfl
        exact absurd hdigit (by decide)
      rw [if_neg hminus, if_neg hplus]
      exact ofUnsigned_of_isDecimal h
    · exact absurd h (by decide)
  unfold ofText
  split
  next u v digits =>
    have hdigit : isDigit v := by
      rw [isDecimal, Bool.and_eq_true, all_eq_true] at h
      exact h.2 v (mem_cons_of_mem u mem_cons_self)
    have hmark {c d : Char} (hc : isDigit (unit c) = false) (hd : isDigit (unit d) = false) :
        ¬ (v = unit c ∨ v = unit d) := by
      rintro (rfl | rfl)
      · rw [hc] at hdigit
        cases hdigit
      · rw [hd] at hdigit
        cases hdigit
    rw [if_neg (hmark (by decide) (by decide)), if_neg (hmark (by decide) (by decide)),
      if_neg (hmark (by decide) (by decide)), ite_self]
    exact hsigned
  · exact hsigned

/-- A text that is a number begins with a digit, a sign, a point or white space. -/
def beginsNumber (u : UInt16) : Bool :=
  isDigit u || isSpace u || [unit '+', unit '-', unit '.'].contains u

theorem number_decimal {s : JsString} (h : isDecimal s) : number s = rounded (ofDecimal s) := by
  rw [number, trim_of_isDecimal h, ofText_of_isDecimal h, Option.bind_some]

end JsNumber
