import NevoMessaging.Lib.Keys

/-!
# Strings of code units

A string of the source language is a list of UTF-16 code units, and its `length` is the number of
them. It need not be well formed: a surrogate may stand alone.

`framed s` is `s` behind its length and a colon. Whatever follows it, a reader that knows the format
finds the end of `s`, whatever `s` contains.
-/

abbrev JsString := List UInt16

instance : LawfulBEq JsString := inferInstanceAs (LawfulBEq (List UInt16))

namespace JsString

open List

/-- The code units of a character. -/
def unitsOf (c : Char) : JsString :=
  if c.toNat < 0x10000 then [c.toNat.toUInt16]
  else [(0xD800 + (c.toNat - 0x10000) / 0x400).toUInt16,
    (0xDC00 + (c.toNat - 0x10000) % 0x400).toUInt16]

/-- A string literal. -/
def lit (s : String) : JsString := s.toList.flatMap unitsOf

/-- The code unit of an ASCII character. -/
def unit (c : Char) : UInt16 := c.toNat.toUInt16

/-- The decimal digits of a number. -/
def decimal (n : Nat) : JsString := (Nat.toDigits 10 n).map unit

def framed (s : JsString) : JsString := decimal s.length ++ unit ':' :: s

/-- An empty string counts as no string. -/
def truthy (s : Option JsString) : Option JsString := s.filter (· ≠ [])

theorem truthy_some {s : JsString} (h : s ≠ []) : truthy (some s) = some s := by
  simp [truthy, h]

theorem ascii_of_isDigit {c : Char} (h : c.isDigit) : c.toNat ≤ 127 := by
  simp only [Char.isDigit, Bool.and_eq_true, decide_eq_true_eq] at h
  have hnine : c.toNat ≤ 57 := h.2
  omega

theorem isDigit_of_mem_toDigits {n : Nat} {c : Char} (h : c ∈ Nat.toDigits 10 n) : c.isDigit :=
  Nat.isDigit_of_mem_toDigits (by decide) (by decide) h

theorem toNat_unit {c : Char} (h : c.toNat ≤ 127) : (unit c).toNat = c.toNat :=
  UInt16.toNat_ofNat_of_lt' (Nat.lt_of_le_of_lt h (by decide))

theorem unit_inj {c d : Char} (hc : c.toNat ≤ 127) (hd : d.toNat ≤ 127) (h : unit c = unit d) :
    c = d := by
  have hnat := congrArg UInt16.toNat h
  rw [toNat_unit hc, toNat_unit hd] at hnat
  exact Char.toNat_inj.mp hnat

theorem decimal_inj {i j : Nat} (h : decimal i = decimal j) : i = j := by
  refine Keys.toDigits_inj ?_
  have hdigit {n : Nat} {c : Char} (hc : c ∈ Nat.toDigits 10 n) : c.toNat ≤ 127 :=
    ascii_of_isDigit (isDigit_of_mem_toDigits hc)
  refine ext_getElem (by simpa [decimal] using congrArg length h) fun k hi hj => ?_
  refine unit_inj (hdigit (getElem_mem hi)) (hdigit (getElem_mem hj)) ?_
  have hk := congrArg (·[k]?) h
  simpa [decimal, hi, hj] using hk

theorem colon_not_mem_decimal (n : Nat) : unit ':' ∉ decimal n := by
  intro h
  obtain ⟨c, hc, hunit⟩ := mem_map.mp h
  have hdigit := isDigit_of_mem_toDigits hc
  obtain rfl := unit_inj (ascii_of_isDigit hdigit) (by decide) hunit
  exact absurd hdigit (by decide)

theorem framed_append_inj {s t r r' : JsString} (h : framed s ++ r = framed t ++ r') :
    s = t ∧ r = r' := by
  unfold framed at h
  rw [append_assoc, append_assoc, cons_append, cons_append] at h
  obtain ⟨hlen, hrest⟩ :=
    Keys.split_first (colon_not_mem_decimal s.length) (colon_not_mem_decimal t.length) h
  exact append_inj hrest (decimal_inj hlen)

/-! ## Integers -/

/-- The text of a big integer. -/
def integerText (n : Int) : JsString :=
  if n < 0 then unit '-' :: decimal n.natAbs else decimal n.natAbs

def isDigit (u : UInt16) : Bool := unit '0' ≤ u && u ≤ unit '9'

/-- `/^\d+$/` -/
def isDecimal (s : JsString) : Bool := s ≠ [] && s.all isDigit

/-- `/^-?\d+$/` -/
def isInteger (s : JsString) : Bool :=
  match s with
  | u :: rest => if u = unit '-' then isDecimal rest else isDecimal s
  | [] => false

def ofDecimal (s : JsString) : Nat := s.foldl (fun n u => 10 * n + (u.toNat - 48)) 0

/-- `BigInt(s)` for the text of an integer. -/
def toInteger (s : JsString) : Int :=
  match s with
  | u :: rest => if u = unit '-' then -(ofDecimal rest : Int) else ofDecimal s
  | [] => 0

theorem isDigit_unit {c : Char} (h : c.isDigit) : isDigit (unit c) := by
  have hnat := toNat_unit (ascii_of_isDigit h)
  simp only [Char.isDigit, Bool.and_eq_true, decide_eq_true_eq] at h
  have hlow : 48 ≤ c.toNat := h.1
  have hhigh : c.toNat ≤ 57 := h.2
  rw [isDigit, Bool.and_eq_true, decide_eq_true_iff, decide_eq_true_iff, UInt16.le_iff_toNat_le,
    UInt16.le_iff_toNat_le, hnat]
  exact ⟨hlow, hhigh⟩

theorem isDigit_of_mem_decimal {n : Nat} {u : UInt16} (h : u ∈ decimal n) : isDigit u := by
  obtain ⟨c, hc, rfl⟩ := mem_map.mp h
  exact isDigit_unit (isDigit_of_mem_toDigits hc)

theorem decimal_ne_nil (n : Nat) : decimal n ≠ [] := by
  rw [decimal, ne_eq, map_eq_nil_iff]
  exact Nat.toDigits_ne_nil

theorem isDecimal_decimal (n : Nat) : isDecimal (decimal n) := by
  rw [isDecimal, Bool.and_eq_true, decide_eq_true_iff, all_eq_true]
  exact ⟨decimal_ne_nil n, fun _ => isDigit_of_mem_decimal⟩

theorem decimal_eq_cons (n : Nat) : ∃ u s, decimal n = u :: s ∧ u ≠ unit '-' := by
  obtain ⟨u, s, h⟩ := exists_cons_of_ne_nil (decimal_ne_nil n)
  refine ⟨u, s, h, ?_⟩
  rintro rfl
  have hdigit : isDigit (unit '-') := isDigit_of_mem_decimal (h ▸ mem_cons_self)
  exact absurd hdigit (by decide)

theorem ofDecimal_decimal (n : Nat) : ofDecimal (decimal n) = n := by
  have hfold : ∀ (cs : List Char) (init : Nat), (∀ c ∈ cs, c.isDigit) →
      (cs.map unit).foldl (fun n u => 10 * n + (u.toNat - 48))
        init = Nat.ofDigitChars 10 cs init := by
    intro cs
    induction cs with
    | nil => exact fun _ _ => rfl
    | cons c cs ih =>
      intro init hcs
      have hnat := toNat_unit (ascii_of_isDigit (hcs c mem_cons_self))
      rw [map_cons, foldl_cons, ih _ fun d hd => hcs d (mem_cons_of_mem _ hd), hnat]
      rfl
  rw [ofDecimal, decimal, hfold _ 0 fun _ => isDigit_of_mem_toDigits]
  exact Nat.ofDigitChars_toDigits (by decide) (by decide)

theorem isInteger_integerText (n : Int) : isInteger (integerText n) := by
  unfold integerText
  split
  · rw [isInteger, if_pos rfl]
    exact isDecimal_decimal n.natAbs
  · obtain ⟨u, s, htext, hu⟩ := decimal_eq_cons n.natAbs
    have hdecimal := isDecimal_decimal n.natAbs
    rw [htext] at hdecimal ⊢
    rw [isInteger, if_neg hu]
    exact hdecimal

theorem toInteger_integerText (n : Int) : toInteger (integerText n) = n := by
  unfold integerText
  split
  · rw [toInteger, if_pos rfl, ofDecimal_decimal]
    omega
  · obtain ⟨u, s, htext, hu⟩ := decimal_eq_cons n.natAbs
    have hvalue := ofDecimal_decimal n.natAbs
    rw [htext] at hvalue ⊢
    rw [toInteger, if_neg hu, hvalue]
    omega

end JsString
