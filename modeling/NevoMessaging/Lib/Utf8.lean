import NevoMessaging.Lib.Json

/-!
# UTF-8

The bytes of a string of code units. A surrogate that stands alone has no encoding of its own; the
replacement character U+FFFD is written for it.

A decoder takes one byte after the other. What cannot go on as it has begun is replaced as well, and
the byte that ends it is read as the first of the next character.

Results:
1. `utf8_append`: ASCII text at the beginning of a string is found at the beginning of its bytes.
2. `decodeBytes_append`: bytes can be decoded piece by piece.
-/

namespace JsString

open Json (isHigh isLow)

/-- The bytes of a unit that is not half of a pair. -/
def unitBytes (u : UInt16) : List UInt8 :=
  if u < 0x80 then [u.toUInt8]
  else if u < 0x800 then [(0xC0 + u.toNat / 0x40).toUInt8, (0x80 + u.toNat % 0x40).toUInt8]
  else if isHigh u || isLow u then [0xEF, 0xBF, 0xBD]
  else
    [(0xE0 + u.toNat / 0x1000).toUInt8, (0x80 + u.toNat / 0x40 % 0x40).toUInt8,
      (0x80 + u.toNat % 0x40).toUInt8]

/-- The bytes of a pair of surrogates. -/
def pairBytes (high low : UInt16) : List UInt8 :=
  let point := 0x10000 + (high.toNat - 0xD800) * 0x400 + (low.toNat - 0xDC00)
  [(0xF0 + point / 0x40000).toUInt8, (0x80 + point / 0x1000 % 0x40).toUInt8,
    (0x80 + point / 0x40 % 0x40).toUInt8, (0x80 + point % 0x40).toUInt8]

def utf8 : JsString → List UInt8
  | [] => []
  | [u] => unitBytes u
  | u :: v :: rest =>
    if isHigh u && isLow v then pairBytes u v ++ utf8 rest else unitBytes u ++ utf8 (v :: rest)

example : utf8 (lit "aé€😀") =
    [0x61, 0xC3, 0xA9, 0xE2, 0x82, 0xAC, 0xF0, 0x9F, 0x98, 0x80] := by decide +kernel

theorem unitBytes_ascii {u : UInt16} (h : u < 0x80) : unitBytes u = [u.toUInt8] := by
  rw [unitBytes, if_pos h]

theorem isHigh_ascii {u : UInt16} (h : u < 0x80) : isHigh u = false := by
  rw [isHigh, Bool.and_eq_false_iff, decide_eq_false_iff_not, UInt16.not_le]
  exact .inl (UInt16.lt_trans h (by decide))

theorem utf8_cons {u : UInt16} (h : u < 0x80) (s : JsString) :
    utf8 (u :: s) = u.toUInt8 :: utf8 s := by
  cases s with
  | nil => exact unitBytes_ascii h
  | cons v s =>
    rw [utf8, isHigh_ascii h, Bool.false_and, if_neg Bool.false_ne_true, unitBytes_ascii h,
      List.singleton_append]

theorem utf8_append {p : JsString} (hp : ∀ u ∈ p, u < 0x80) (s : JsString) :
    utf8 (p ++ s) = p.map UInt16.toUInt8 ++ utf8 s := by
  induction p with
  | nil => rfl
  | cons u p ih =>
    rw [List.cons_append, utf8_cons (hp u List.mem_cons_self),
      ih fun w hw => hp w (List.mem_cons_of_mem _ hw), List.map_cons, List.cons_append]

/-! ## Decoding -/

/-- A character that has begun: how many bytes are to come, what is known of it, and the bounds of
the next byte. -/
structure Decoding where
  needed : Nat := 0
  point : Nat := 0
  lower : UInt8 := 0x80
  upper : UInt8 := 0xBF

def pointUnits (point : Nat) : JsString :=
  if point < 0x10000 then [point.toUInt16]
  else [(0xD800 + (point - 0x10000) / 0x400).toUInt16, (0xDC00 + point % 0x400).toUInt16]

/-- The first byte of a character. -/
def leadByte (b : UInt8) : JsString × Decoding :=
  if b < 0x80 then ([b.toUInt16], {})
  else if b < 0xC2 ∨ 0xF4 < b then ([0xFFFD], {})
  else if b < 0xE0 then ([], { needed := 1, point := b.toNat - 0xC0 })
  else if b < 0xF0 then
    ([], {
      needed := 2
      point := b.toNat - 0xE0
      lower := if b = 0xE0 then 0xA0 else 0x80
      upper := if b = 0xED then 0x9F else 0xBF })
  else
    ([], {
      needed := 3
      point := b.toNat - 0xF0
      lower := if b = 0xF0 then 0x90 else 0x80
      upper := if b = 0xF4 then 0x8F else 0xBF })

def decodeByte (d : Decoding) (b : UInt8) : JsString × Decoding :=
  if d.needed = 0 then leadByte b
  else if d.lower ≤ b ∧ b ≤ d.upper then
    let point := d.point * 0x40 + (b.toNat - 0x80)
    if d.needed = 1 then (pointUnits point, {}) else ([], { needed := d.needed - 1, point })
  else
    let (units, d) := leadByte b
    (0xFFFD :: units, d)

def decodeBytes : Decoding → List UInt8 → JsString × Decoding
  | d, [] => ([], d)
  | d, b :: bytes =>
    let (units, d) := decodeByte d b
    let (text, d) := decodeBytes d bytes
    (units ++ text, d)

example : (decodeBytes {} (utf8 (lit "aé€😀") ++ [0xE2, 0x61])).1 =
    lit "aé€😀" ++ [0xFFFD, 0x61] := by decide +kernel

theorem decodeBytes_append (d : Decoding) (bytes bytes' : List UInt8) :
    decodeBytes d (bytes ++ bytes') =
      ((decodeBytes d bytes).1 ++ (decodeBytes (decodeBytes d bytes).2 bytes').1,
        (decodeBytes (decodeBytes d bytes).2 bytes').2) := by
  induction bytes generalizing d with
  | nil => rfl
  | cons b bytes ih => simp only [List.cons_append, decodeBytes, ih, List.append_assoc]

end JsString
