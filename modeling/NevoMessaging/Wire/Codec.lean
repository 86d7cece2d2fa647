import Mathlib.Data.List.Infix
import NevoMessaging.Lib.Utf8
import NevoMessaging.Wire.Values

/-!
# Round trips and decoders

What a peer gets out of a value is its canonical form: `undefined` and functions are gone, dates are
strings, and everything else is as it was, a big integer too and a string that looks like an encoded
one. It gets the same from each decoder. `MessagePackCodec.decode` leaves the walk out when the
bytes of a sentinel do not occur in the message.

Results:
1. `wire_round_trip`: both ways from a value over the wire give its canonical form.
2. `relay_unchanged`: what was decoded is encoded as before.
3. `revive_of_no_sentinel`: bytes without a sentinel hold no string with one.
4. `decoders_agree`: the decoders do the same, and the shortcut is sound.
-/

namespace NevoMessaging

open List

open JsString JsValue

/-- What is left of a value on the wire. At the top `undefined` becomes `null`, as in an array. -/
def canonical (v : JsValue) : JsValue := (project id v).getD .null

/-! ## Round trips -/

/-- What the walk of `normalizeWireValue` comes to. -/
def wireValue (v : JsValue) : JsValue := (project wireLeaf v).getD .null

theorem normalizeWireValue_ok {v : JsValue} (hdepth : v.depth ≤ 512) (hkeys : v.distinct) :
    normalizeWireValue v = .ok (wireValue v) := by
  obtain ⟨r, hr, hvalue⟩ := visit_ok v 0 true hdepth hkeys
  rw [normalizeWireValue, hr]
  exact congrArg Except.ok hvalue

theorem jsonable_wireValue (v : JsValue) : (wireValue v).jsonable := by
  unfold wireValue
  cases h : project wireLeaf v with
  | none => rfl
  | some w => exact jsonable_project (fun _ => rfl) (fun _ => rfl) h

theorem distinct_wireValue {v : JsValue} (hkeys : v.distinct) : (wireValue v).distinct := by
  unfold wireValue
  cases h : project wireLeaf v with
  | none => rfl
  | some w => exact distinct_project (fun _ => rfl) (fun _ => rfl) hkeys h

theorem depth_wireValue (v : JsValue) : (wireValue v).depth ≤ v.depth := by
  unfold wireValue
  cases h : project wireLeaf v with
  | none => exact Nat.zero_le _
  | some w => exact depth_project (fun _ => rfl) (fun _ => rfl) h

theorem reviveString_wireLeaf (s : JsString) :
    mapStrings (reviveString false) (wireLeaf (.str s)) = .str s := by
  rw [wireLeaf, mapStrings]
  by_cases hneeds : needsSentinelEscape s
  · rw [if_pos hneeds]
    exact reviveString_escape false s
  · rw [if_neg hneeds]
    rw [needsSentinelEscape, Bool.or_eq_true, not_or, Bool.not_eq_true, Bool.not_eq_true] at hneeds
    exact reviveString_plain hneeds.2 hneeds.1

theorem mapStrings_wireValue (v : JsValue) :
    mapStrings (reviveString false) (wireValue v) = canonical v := by
  have hproject := mapStrings_project wireLeaf id (reviveString false) reviveString_wireLeaf
    (reviveString_sentinel false) reviveString_toISOString v
  unfold wireValue canonical
  rw [← hproject]
  cases project wireLeaf v <;> rfl

/-- Both ways over the wire return, for every value that is not nested too deep: through the walk of
`deserializeBigInt`, and through a JSON text and the reviver. -/
theorem wire_round_trip (v : JsValue) (hdepth : v.depth ≤ 512) (hkeys : v.distinct) :
    ∃ w, normalizeWireValue v = .ok w ∧
      deserializeBigInt w false = .ok (canonical v) ∧
      ∃ text, w.stringify = some text ∧
        parseWith (makeBigIntReviver false) text = some (canonical v) := by
  have hjson := jsonable_wireValue v
  refine ⟨wireValue v, normalizeWireValue_ok hdepth hkeys, ?_, ?_⟩
  · rw [deserializeBigInt_ok false ((depth_wireValue v).trans hdepth) hjson
      (distinct_wireValue hkeys), mapStrings_wireValue]
  · obtain ⟨j, hplain, hj⟩ := jsonable_iff.mp hjson
    have htext : Json.stringify j = some j.render := by rw [Json.stringify, if_pos hplain]
    refine ⟨j.render, ?_, ?_⟩
    · rw [hj, JsValue.stringify, toJson_ofJson, Option.bind_some, htext]
    · rw [parseWith, parse_stringify htext, Option.map_some, ← hj,
        internalize_makeBigIntReviver false hjson, mapStrings_wireValue]

/-- An object with a function, a string that looks like a big integer, a big integer in an array and
a `__proto__`. -/
def awkwardValue : JsValue :=
  .obj [(lit "f", .function), (lit "s", .str (lit "@@nevo:bigint:1")),
    (lit "a", .arr [.undefined, .bigint (-12)]), (lit "__proto__", .date 0)]

def awkwardCanonical : JsValue :=
  .obj [(lit "s", .str (lit "@@nevo:bigint:1")), (lit "a", .arr [.null, .bigint (-12)]),
    (lit "__proto__", .str (lit "1970-01-01T00:00:00.000Z"))]

theorem wire_round_trip_awkward : ∃ w, normalizeWireValue awkwardValue = .ok w ∧
    deserializeBigInt w false = .ok awkwardCanonical ∧
    ∃ text, w.stringify = some text ∧
      parseWith (makeBigIntReviver false) text = some awkwardCanonical := by
  have hcanonical : canonical awkwardValue = awkwardCanonical := by
    have hiso : JsDate.toISOString 0 = lit "1970-01-01T00:00:00.000Z" := by decide +kernel
    rw [awkwardCanonical, ← hiso]
    rfl
  rw [← hcanonical]
  exact wire_round_trip awkwardValue (by decide +kernel) (by decide +kernel)

/-! ## Relays -/

theorem wireLeaf_toISOString (time : Int) :
    wireLeaf (.str (JsDate.toISOString time)) = .str (JsDate.toISOString time) := by
  obtain ⟨u, s, hiso, hu⟩ := JsDate.toISOString_eq_cons time
  have hneeds : needsSentinelEscape (JsDate.toISOString time) = false := by
    rw [hiso, needsSentinelEscape, Bool.or_eq_false_iff]
    exact (not_isPrefixOf_of_head hu).symm
  rw [wireLeaf, hneeds]
  rfl

theorem wireValue_canonical (v : JsValue) : wireValue (canonical v) = wireValue v := by
  have hproject := project_project wireLeaf wireLeaf_toISOString v
  unfold wireValue canonical
  rw [← hproject]
  cases project id v <;> rfl

theorem canonical_within {v : JsValue} (hdepth : v.depth ≤ 512) (hkeys : v.distinct) :
    (canonical v).depth ≤ 512 ∧ (canonical v).distinct := by
  unfold canonical
  cases h : project id v with
  | none => exact ⟨Nat.zero_le _, rfl⟩
  | some w =>
    exact ⟨(depth_project (fun _ => rfl) (fun _ => rfl) h).trans hdepth,
      distinct_project (fun _ => rfl) (fun _ => rfl) hkeys h⟩

/-- A peer that sends on what it decoded sends what it got, so no chain of peers changes a message:
an escaped string is not escaped twice, and nothing that was only a string becomes a number. -/
theorem relay_unchanged (v : JsValue) (hdepth : v.depth ≤ 512) (hkeys : v.distinct) :
    ∃ w, normalizeWireValue v = .ok w ∧
      deserializeBigInt w false = .ok (canonical v) ∧
      normalizeWireValue (canonical v) = .ok w := by
  obtain ⟨hdepth', hkeys'⟩ := canonical_within hdepth hkeys
  refine ⟨wireValue v, normalizeWireValue_ok hdepth hkeys, ?_, ?_⟩
  · rw [deserializeBigInt_ok false ((depth_wireValue v).trans hdepth) (jsonable_wireValue v)
      (distinct_wireValue hkeys), mapStrings_wireValue]
  · rw [normalizeWireValue_ok hdepth' hkeys', wireValue_canonical]

theorem relay_unchanged_awkward : ∃ w, normalizeWireValue awkwardValue = .ok w ∧
    deserializeBigInt w false = .ok (canonical awkwardValue) ∧
    normalizeWireValue (canonical awkwardValue) = .ok w :=
  relay_unchanged awkwardValue (by decide +kernel) (by decide +kernel)

/-! ## MessagePack -/

def sentinelPrefix : JsString := lit "@@nevo:"

def sentinelProbe : List UInt8 := utf8 sentinelPrefix

/-- `buf.indexOf(SENTINEL_PROBE) !== -1` -/
def mayContainWireSentinel (data : List UInt8) : Bool :=
  data.tails.any fun rest => sentinelProbe.isPrefixOf rest

/-- The decoder of the library. It throws, with a message, or returns a value; a string of that
value stands in the data as its contiguous UTF-8 bytes. -/
structure Msgpack where
  decode : List UInt8 → Except String JsValue
  contiguous : ∀ data value, decode data = .ok value → ∀ s ∈ value.strings, utf8 s <:+: data

inductive WireData
  | bytes (data : List UInt8)
  | text (s : JsString)

/-- `Buffer.from(data, "binary")` keeps the low byte of each unit. -/
def WireData.toBytes : WireData → List UInt8
  | bytes data => data
  | text s => s.map UInt16.toUInt8

/-- `MessagingError` with `ErrorCode.PARSE_ERROR` -/
structure CodecParseError where
  message : String

def MessagePackCodec.decode (decoder : Msgpack) (data : WireData) :
    Except CodecParseError JsValue :=
  let bytes := data.toBytes
  match decoder.decode bytes with
  | .error message => .error ⟨"MessagePack decode error: " ++ message⟩
  | .ok decoded =>
    if mayContainWireSentinel bytes then
      (deserializeBigInt decoded false).mapError fun err =>
        ⟨"MessagePack decode error: " ++ err.message⟩
    else .ok decoded

theorem mayContainWireSentinel_iff {data : List UInt8} :
    mayContainWireSentinel data ↔ sentinelProbe <:+: data := by
  rw [mayContainWireSentinel, any_eq_true, infix_iff_prefix_suffix]
  constructor
  · rintro ⟨rest, hrest, hprobe⟩
    exact ⟨rest, isPrefixOf_iff_prefix.mp hprobe, (mem_tails rest data).mp hrest⟩
  · rintro ⟨rest, hprobe, hrest⟩
    exact ⟨rest, (mem_tails rest data).mpr hrest, isPrefixOf_iff_prefix.mpr hprobe⟩

theorem sentinelProbe_isPrefix {s : JsString} (h : sentinelPrefix <+: s) :
    sentinelProbe <+: utf8 s := by
  obtain ⟨t, rfl⟩ := h
  have hall : sentinelPrefix.all (· < 0x80) := by decide +kernel
  have hascii (u : UInt16) (hu : u ∈ sentinelPrefix) : u < 0x80 :=
    of_decide_eq_true (all_eq_true.mp hall u hu)
  have hprobe : sentinelProbe = sentinelPrefix.map UInt16.toUInt8 := by decide +kernel
  rw [hprobe, utf8_append hascii]
  exact prefix_append _ _

theorem sentinelPrefix_of_isPrefixOf {s : JsString}
    (h : stringEscape.isPrefixOf s ∨ bigintSentinel.isPrefixOf s) : sentinelPrefix <+: s := by
  rcases h with h | h
  · have hbegins : sentinelPrefix <+: stringEscape := by decide +kernel
    exact hbegins.trans ( isPrefixOf_iff_prefix.mp h)
  · have hbegins : sentinelPrefix <+: bigintSentinel := by decide +kernel
    exact hbegins.trans ( isPrefixOf_iff_prefix.mp h)

theorem revive_of_no_sentinel {decoder : Msgpack} {data : List UInt8} {value : JsValue}
    (hdecode : decoder.decode data = .ok value) (hnone : mayContainWireSentinel data = false) :
    mapStrings (reviveString false) value = value := by
  refine mapStrings_eq_self fun s hs => ?_
  have hbytes := decoder.contiguous data value hdecode s hs
  have hplain : ¬ (stringEscape.isPrefixOf s ∨ bigintSentinel.isPrefixOf s) := by
    intro h
    have hprobe := (sentinelProbe_isPrefix (sentinelPrefix_of_isPrefixOf h)).isInfix.trans hbytes
    have hmay := mayContainWireSentinel_iff.mpr hprobe
    rw [hnone] at hmay
    exact Bool.false_ne_true hmay
  rw [not_or, Bool.not_eq_true, Bool.not_eq_true] at hplain
  exact reviveString_plain hplain.1 hplain.2

/-- For every JSON tree that is not nested too deep, `deserializeBigInt` and the reviver, called
from the inside out, do the same; and if such a tree comes out of MessagePack, it needs no decoding
when the data has no sentinel, and `MessagePackCodec.decode` returns what `deserializeBigInt`
does. -/
theorem decoders_agree (t : JsValue) (hjson : t.jsonable) (hkeys : t.distinct)
    (hdepth : t.depth ≤ 512) :
    (∀ acceptLegacy, deserializeBigInt t acceptLegacy =
      .ok (internalize (makeBigIntReviver acceptLegacy) [] t)) ∧
    ∀ (decoder : Msgpack) (data : WireData), decoder.decode data.toBytes = .ok t →
      (mayContainWireSentinel data.toBytes = false → deserializeBigInt t false = .ok t) ∧
      ∃ value, deserializeBigInt t false = .ok value ∧
        MessagePackCodec.decode decoder data = .ok value := by
  have hwalk (acceptLegacy : Bool) := deserializeBigInt_ok acceptLegacy hdepth hjson hkeys
  refine ⟨fun acceptLegacy => ?_, fun decoder data hdecode => ?_⟩
  · rw [hwalk, internalize_makeBigIntReviver acceptLegacy hjson]
  · have hskip (hnone : mayContainWireSentinel data.toBytes = false) :
        deserializeBigInt t false = .ok t := by
      rw [hwalk, revive_of_no_sentinel hdecode hnone]
    refine ⟨hskip, _, hwalk false, ?_⟩
    unfold MessagePackCodec.decode
    dsimp only
    rw [hdecode]
    dsimp only
    split
    · rw [hwalk]
      rfl
    next hnone =>
      rw [Bool.not_eq_true] at hnone
      rw [revive_of_no_sentinel hdecode hnone]

/-- Short strings of ASCII characters, behind a byte with their length. -/
def shortStrings : Msgpack where
  decode
    | [] => .error "unexpected end"
    | head :: rest =>
      if head.toNat = 0xA0 + rest.length ∧ rest.all (· < 0x80) then
        .ok (.str (rest.map UInt8.toUInt16))
      else .error "unknown"
  contiguous := by
    intro data value h s hs
    cases data with
    | nil => cases h
    | cons head rest =>
      dsimp only at h
      split at h
      next hguard =>
        cases h
        cases List.mem_singleton.mp hs
        have hbytes : ∀ bytes : List UInt8, bytes.all (· < 0x80) →
            utf8 (bytes.map UInt8.toUInt16) = bytes := by
          intro bytes hall
          induction bytes with
          | nil => rfl
          | cons b bytes ih =>
            rw [List.all_cons, Bool.and_eq_true, decide_eq_true_iff] at hall
            have hsmall : b.toUInt16 < 0x80 := by
              rw [UInt16.lt_iff_toNat_lt, UInt8.toNat_toUInt16]
              exact UInt8.lt_iff_toNat_lt.mp hall.1
            rw [List.map_cons, utf8_cons hsmall, ih hall.2, UInt8.toUInt8_toUInt16]
        rw [hbytes rest hguard.2]
        exact (List.suffix_cons head rest).isInfix
      · cases h

/-- The bytes of the encoded big integer 7. -/
def sevenBytes : WireData := .bytes (0xAF :: utf8 (lit "@@nevo:bigint:7"))

theorem decoders_agree_seven :
    deserializeBigInt (.str (lit "@@nevo:bigint:7")) true =
      .ok (internalize (makeBigIntReviver true) [] (.str (lit "@@nevo:bigint:7"))) ∧
    ∃ value, deserializeBigInt (.str (lit "@@nevo:bigint:7")) false = .ok value ∧
      MessagePackCodec.decode shortStrings sevenBytes = .ok value := by
  obtain ⟨hagree, hcodec⟩ := decoders_agree (.str (lit "@@nevo:bigint:7")) rfl rfl (by decide)
  have hdecode : shortStrings.decode sevenBytes.toBytes = .ok (.str (lit "@@nevo:bigint:7")) := by
    rfl
  exact ⟨hagree true, (hcodec shortStrings sevenBytes hdecode).2⟩

end NevoMessaging
