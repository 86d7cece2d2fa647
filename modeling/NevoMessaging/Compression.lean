import Mathlib.Data.Nat.Digits.Defs
import Mathlib.Data.List.GetD
import Mathlib.Data.List.Induction
import Mathlib.Data.Rat.Defs

/-!
# The size guard of zstd

Before a zstd frame is decompressed, the content size that its header declares is compared with the
cap. `FrameHeader` is the header as RFC 8878 defines it: a magic number, the descriptor byte, and
three fields whose presence and width depend on the descriptor.

Results:
1. `FrameHeader.zstdContentSize_eq`: the size is the declared one if the buffer holds the header.
2. `zstd_size_exact`: the guard throws exactly if a size is declared and greater than the cap.
-/

namespace NevoMessaging

open List

/-- The sum is exact for a size below `2 ^ 53`. -/
def zstdContentSize (buf : List UInt8) : Option Nat :=
  if buf.length < 5 then none
  else if buf.getD 0 0 ≠ 0x28 ∨ buf.getD 1 0 ≠ 0xb5 ∨ buf.getD 2 0 ≠ 0x2f ∨ buf.getD 3 0 ≠ 0xfd then
    none
  else
    let fhd := (buf.getD 4 0).toNat
    let fcsFlag := (fhd >>> 6) &&& 3
    let singleSegment := (fhd >>> 5) &&& 1
    let dictIdFlag := fhd &&& 3
    let offset := 5 + (if singleSegment = 0 then 1 else 0) +
      if dictIdFlag = 3 then 4 else dictIdFlag
    let fcsSize := if fcsFlag = 0 then (if singleSegment = 0 then 0 else 1)
      else if fcsFlag = 1 then 2 else if fcsFlag = 2 then 4 else 8
    if fcsSize = 0 ∨ buf.length < offset + fcsSize then none
    else
      let size := (range fcsSize).foldl
        (fun size i => size + (buf.getD (offset + i) 0).toNat * 2 ^ (8 * i)) 0
      some (if fcsSize = 2 then size + 256 else size)

structure PayloadTooLargeError where
  size : Nat
  cap : ℚ

def assertZstdWithinCap (buf : List UInt8) : Option ℚ → Except PayloadTooLargeError Unit
  | none => .ok ()
  | some cap =>
    match zstdContentSize buf with
    | some size => if cap < size then .error ⟨size, cap⟩ else .ok ()
    | none => .ok ()

/-! ## The header of a frame -/

/-- The flags of the descriptor byte, from the highest bits to the lowest ones. -/
structure Descriptor where
  contentSizeFlag : Fin 4
  singleSegment : Bool
  unused : Bool
  reserved : Bool
  checksum : Bool
  dictionaryIdFlag : Fin 4

namespace Descriptor

def byte (d : Descriptor) : UInt8 :=
  .ofNat (d.contentSizeFlag * 64 + d.singleSegment.toNat * 32 + d.unused.toNat * 16 +
    d.reserved.toNat * 8 + d.checksum.toNat * 4 + d.dictionaryIdFlag)

def windowSize (d : Descriptor) : Nat := if d.singleSegment then 0 else 1

def dictionaryIdSize (d : Descriptor) : Nat :=
  match d.dictionaryIdFlag with
  | 0 => 0
  | 1 => 1
  | 2 => 2
  | 3 => 4

def contentSizeSize (d : Descriptor) : Nat :=
  match d.contentSizeFlag with
  | 0 => if d.singleSegment then 1 else 0
  | 1 => 2
  | 2 => 4
  | 3 => 8

end Descriptor

structure FrameHeader where
  descriptor : Descriptor
  window : List UInt8
  dictionaryId : List UInt8
  contentSize : List UInt8
  window_length : window.length = descriptor.windowSize
  dictionaryId_length : dictionaryId.length = descriptor.dictionaryIdSize
  contentSize_length : contentSize.length = descriptor.contentSizeSize

namespace FrameHeader

def magic : List UInt8 := [0x28, 0xb5, 0x2f, 0xfd]

def bytes (h : FrameHeader) : List UInt8 :=
  magic ++ [h.descriptor.byte] ++ h.window ++ h.dictionaryId ++ h.contentSize

/-- The field is little-endian, and a field of two bytes holds the size less 256. -/
def declared (h : FrameHeader) : Option Nat :=
  let value := Nat.ofDigits 256 (h.contentSize.map UInt8.toNat)
  if h.contentSize.length = 0 then none
  else some (if h.contentSize.length = 2 then value + 256 else value)

variable {h : FrameHeader} {buf : List UInt8}

theorem length_bytes (h : FrameHeader) : h.bytes.length =
    5 + h.descriptor.windowSize + h.descriptor.dictionaryIdSize + h.contentSize.length := by
  simp only [bytes, magic, length_append, length_cons, length_nil, h.window_length,
    h.dictionaryId_length]

theorem getD_contentSize (h : FrameHeader) (i : Nat) :
    h.bytes.getD (5 + h.descriptor.windowSize + h.descriptor.dictionaryIdSize + i) 0 =
      h.contentSize.getD i 0 := by
  have hfront : (magic ++ [h.descriptor.byte] ++ h.window ++ h.dictionaryId).length =
      5 + h.descriptor.windowSize + h.descriptor.dictionaryIdSize := by
    simp only [magic, length_append, length_cons, length_nil, h.window_length,
      h.dictionaryId_length]
  rw [bytes, getD_append_right _ _ _ _ (by omega), hfront, Nat.add_sub_cancel_left]

theorem layout (d : Descriptor) :
    5 + (if (d.byte.toNat >>> 5) &&& 1 = 0 then 1 else 0) +
      (if d.byte.toNat &&& 3 = 3 then 4 else d.byte.toNat &&& 3) =
        5 + d.windowSize + d.dictionaryIdSize ∧
    (if (d.byte.toNat >>> 6) &&& 3 = 0 then (if (d.byte.toNat >>> 5) &&& 1 = 0 then 0 else 1)
      else if (d.byte.toNat >>> 6) &&& 3 = 1 then 2
      else if (d.byte.toNat >>> 6) &&& 3 = 2 then 4 else 8) = d.contentSizeSize := by
  obtain ⟨c, s, u, r, k, i⟩ := d
  revert c s u r k i
  decide +kernel

theorem foldl_bytes {l : List UInt8} {f : Nat → Nat}
    (hf : ∀ i, i < l.length → f i = (l.getD i 0).toNat) :
    (range l.length).foldl (fun size i => size + f i * 2 ^ (8 * i)) 0 =
      Nat.ofDigits 256 (l.map UInt8.toNat) := by
  induction l using reverseRecOn with
  | nil => rfl
  | append_singleton l b ih =>
    have hlast : f l.length = b.toNat := by
      rw [hf _ (by simp), getD_append_right _ _ _ _ le_rfl, Nat.sub_self, getD_cons_zero]
    have hinit := ih fun i hi => by rw [hf i (by simp; omega), getD_append _ _ _ _ hi]
    rw [length_append, length_singleton, range_succ, foldl_append, hinit, map_append,
      Nat.ofDigits_append, length_map, foldl_cons, foldl_nil, hlast, map_singleton,
      Nat.ofDigits_singleton, pow_mul, Nat.mul_comm]
    rfl

theorem agree (hbuf : buf <+: h.bytes ∨ h.bytes <+: buf) {i : Nat} (hi : i < buf.length)
    (hi' : i < h.bytes.length) : buf.getD i 0 = h.bytes.getD i 0 := by
  rcases hbuf with ⟨t, ht⟩ | ⟨t, ht⟩
  · rw [← ht, getD_append _ _ _ _ hi]
  · rw [← ht, getD_append _ _ _ _ hi']

theorem zstdContentSize_eq (hbuf : buf <+: h.bytes ∨ h.bytes <+: buf) :
    zstdContentSize buf = if h.bytes.length ≤ buf.length then h.declared else none := by
  have hlength := h.length_bytes
  unfold zstdContentSize
  split
  next hshort => rw [if_neg (by omega)]
  next hlong =>
    have hget {i : Nat} (hi : i < 5) : buf.getD i 0 = h.bytes.getD i 0 :=
      agree hbuf (by omega) (by omega)
    rw [hget (by decide), hget (by decide), hget (by decide), hget (by decide), hget (by decide),
      if_neg (by simp [bytes, magic])]
    dsimp only
    have hbyte : h.bytes.getD 4 0 = h.descriptor.byte := rfl
    rw [hbyte, (layout h.descriptor).1, (layout h.descriptor).2, ← h.contentSize_length, ← hlength]
    by_cases hfits : h.bytes.length ≤ buf.length
    · have hbytes : ∀ i, i < h.contentSize.length → (buf.getD (5 + h.descriptor.windowSize +
          h.descriptor.dictionaryIdSize + i) 0).toNat = (h.contentSize.getD i 0).toNat := by
        intro i hi
        rw [agree hbuf (by omega) (by omega), getD_contentSize]
      rw [if_pos hfits, foldl_bytes hbytes]
      simp only [hfits.not_gt, or_false]
      rfl
    · rw [if_neg hfits, if_pos (.inr (not_le.mp hfits))]

end FrameHeader

/-- A buffer that starts with a header, or with a part of one. -/
theorem zstd_size_exact (h : FrameHeader) (buf : List UInt8)
    (hbuf : buf <+: h.bytes ∨ h.bytes <+: buf) :
    zstdContentSize buf = (if h.bytes.length ≤ buf.length then h.declared else none) ∧
      ∀ cap : ℚ, (∃ e, assertZstdWithinCap buf (some cap) = .error e) ↔
        ∃ size : Nat, zstdContentSize buf = some size ∧ cap < size := by
  refine ⟨FrameHeader.zstdContentSize_eq hbuf, fun cap => ?_⟩
  unfold assertZstdWithinCap
  cases zstdContentSize buf with
  | none => simp
  | some size =>
    dsimp only
    split
    next hgt => exact ⟨fun _ => ⟨size, rfl, hgt⟩, fun _ => ⟨_, rfl⟩⟩
    next hle =>
      constructor
      · rintro ⟨e, he⟩
        cases he
      · rintro ⟨_, ⟨⟩, hgt⟩
        exact absurd hgt hle

theorem zstd_size_exact_two :
    zstdContentSize [0x28, 0xb5, 0x2f, 0xfd, 0x61, 7, 2, 1, 99] = some 514 :=
  (zstd_size_exact ⟨⟨1, true, false, false, false, 1⟩, [], [7], [2, 1], rfl, rfl, rfl⟩ _
    (.inr ⟨[99], rfl⟩)).1

end NevoMessaging
