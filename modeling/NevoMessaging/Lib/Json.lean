import NevoMessaging.Lib.JsString

/-!
# JSON texts

Values that can be written as JSON, and big integers, which cannot. `stringify` is what the source
language does without a replacer and without spaces: it throws (`none`) if there is a big integer
anywhere in the value. `parse` reads the texts that `stringify` writes; blanks and escapes that it
never writes are not read.

A finite number is its decimal text, which the language chooses such that reading it gives the
number back (0 and -0 have one text).

Results:
1. `parseString_quote`: a quoted string is read back.
2. `parseValue_render`: so is every value, whatever follows it.
3. `parse_stringify`: the round trip.
-/

/-- The characters of a number. -/
def numeral (u : UInt16) : Bool := u ∈ JsString.lit "0123456789+-.e"

/-- A number begins with a digit or a minus sign. -/
def numeralStart (u : UInt16) : Bool := u ∈ JsString.lit "0123456789-"

structure JsonNumber where
  text : JsString
  start : text.head?.any numeralStart
  digits : text.all numeral
deriving DecidableEq

inductive Json
  | null
  | bool (b : Bool)
  | num (n : JsonNumber)
  | str (s : JsString)
  | bigint (n : Int)
  | arr (items : List Json)
  | obj (members : List (JsString × Json))

namespace Json

open List

open JsString

def quoteMark : UInt16 := 0x22
def backslash : UInt16 := 0x5C
def comma : UInt16 := 0x2C
def colon : UInt16 := 0x3A
def openBracket : UInt16 := 0x5B
def closeBracket : UInt16 := 0x5D
def openBrace : UInt16 := 0x7B
def closeBrace : UInt16 := 0x7D

/-! ## Strings -/

def hexDigit (n : Nat) : UInt16 := if n < 10 then (0x30 + n).toUInt16 else (0x57 + n).toUInt16

def hexValue (u : UInt16) : Option Nat :=
  if 0x30 ≤ u ∧ u ≤ 0x39 then some (u.toNat - 0x30)
  else if 0x61 ≤ u ∧ u ≤ 0x66 then some (u.toNat - 0x57)
  else none

def unicodeEscape (u : UInt16) : JsString :=
  [backslash, unit 'u', hexDigit (u.toNat / 4096), hexDigit (u.toNat / 256 % 16),
    hexDigit (u.toNat / 16 % 16), hexDigit (u.toNat % 16)]

def isHigh (u : UInt16) : Bool := 0xD800 ≤ u && u ≤ 0xDBFF

def isLow (u : UInt16) : Bool := 0xDC00 ≤ u && u ≤ 0xDFFF

/-- The letter of a two-character escape. -/
def shortEscape (u : UInt16) : Option UInt16 :=
  if u = 0x08 then some (unit 'b')
  else if u = 0x09 then some (unit 't')
  else if u = 0x0A then some (unit 'n')
  else if u = 0x0C then some (unit 'f')
  else if u = 0x0D then some (unit 'r')
  else if u = quoteMark then some quoteMark
  else if u = backslash then some backslash
  else none

def shortValue (u : UInt16) : Option UInt16 :=
  if u = unit 'b' then some 0x08
  else if u = unit 't' then some 0x09
  else if u = unit 'n' then some 0x0A
  else if u = unit 'f' then some 0x0C
  else if u = unit 'r' then some 0x0D
  else if u = quoteMark then some quoteMark
  else if u = backslash then some backslash
  else none

/-- A code unit that does not begin a surrogate pair. -/
def quoteUnit (u : UInt16) : JsString :=
  match shortEscape u with
  | some e => [backslash, e]
  | none => if u < 0x20 || isHigh u || isLow u then unicodeEscape u else [u]

/-- A surrogate pair stays as it is, and a lone surrogate is escaped. -/
def quoteUnits : JsString → JsString
  | [] => []
  | [u] => quoteUnit u
  | u :: v :: s =>
    if isHigh u && isLow v then u :: v :: quoteUnits s else quoteUnit u ++ quoteUnits (v :: s)

def quote (s : JsString) : JsString := quoteMark :: (quoteUnits s ++ [quoteMark])

/-- A code unit of a string, after the first one `u` was read. -/
def parseString : JsString → Option (JsString × JsString)
  | [] => none
  | u :: s =>
    if u = quoteMark then some ([], s)
    else if u = backslash then
      match s with
      | [] => none
      | e :: s =>
        if e = unit 'u' then
          match s with
          | a :: b :: c :: d :: s => do
            let a ← hexValue a
            let b ← hexValue b
            let c ← hexValue c
            let d ← hexValue d
            let (t, rest) ← parseString s
            some ((a * 4096 + b * 256 + c * 16 + d).toUInt16 :: t, rest)
          | _ => none
        else do
          let u ← shortValue e
          let (t, rest) ← parseString s
          some (u :: t, rest)
    else do
      let (t, rest) ← parseString s
      some (u :: t, rest)

theorem hexValue_hexDigit : ∀ n, n < 16 → hexValue (hexDigit n) = some n := by decide

theorem shortValue_shortEscape {u e : UInt16} (h : shortEscape u = some e) :
    shortValue e = some u ∧ e ≠ unit 'u' := by
  unfold shortEscape at h
  repeat' split at h
  all_goals first | cases h; subst_vars; decide | cases h

theorem ne_of_shortEscape {u : UInt16} (h : shortEscape u = none) : u ≠ quoteMark ∧
    u ≠ backslash := by
  constructor
  · rintro rfl
    exact absurd h (by decide)
  · rintro rfl
    exact absurd h (by decide)

section Strings

variable {u : UInt16} {s t r : JsString}

theorem parseString_raw (hquote : u ≠ quoteMark) (hslash : u ≠ backslash)
    (h : parseString s = some (t, r)) : parseString (u :: s) = some (u :: t, r) := by
  rw [parseString.eq_def]
  dsimp only
  rw [if_neg hquote, if_neg hslash, h]
  rfl

theorem parseString_end (s : JsString) : parseString (quoteMark :: s) = some ([], s) := by
  rw [parseString.eq_def]
  exact if_pos rfl

theorem parseString_short {e : UInt16} (he : shortEscape u = some e)
    (h : parseString s = some (t, r)) :
    parseString (backslash :: e :: s) = some (u :: t, r) := by
  obtain ⟨hvalue, hu⟩ := shortValue_shortEscape he
  rw [parseString.eq_def]
  dsimp only
  rw [if_neg (by decide), if_pos rfl, if_neg hu, hvalue, h]
  rfl

theorem parseString_unicode (h : parseString s = some (t, r)) :
    parseString (unicodeEscape u ++ s) = some (u :: t, r) := by
  have hlt : u.toNat < 65536 := u.toNat_lt
  have hdigits : (u.toNat / 4096 * 4096 + u.toNat / 256 % 16 * 256 + u.toNat / 16 % 16 * 16 +
      u.toNat % 16).toUInt16 = u := by
    rw [show u.toNat / 4096 * 4096 + u.toNat / 256 % 16 * 256 + u.toNat / 16 % 16 * 16 +
      u.toNat % 16 = u.toNat by omega]
    exact UInt16.ofNat_toNat
  unfold unicodeEscape
  rw [parseString.eq_def]
  simp only [cons_append, nil_append]
  rw [if_neg (by decide), if_pos trivial, if_pos trivial, hexValue_hexDigit _ (by omega),
    hexValue_hexDigit _ (by omega),
    hexValue_hexDigit _ (by omega), hexValue_hexDigit _ (by omega), h]
  show some ((_ : UInt16) :: t, r) = _
  rw [hdigits]

theorem parseString_quoteUnit (h : parseString s = some (t, r)) :
    parseString (quoteUnit u ++ s) = some (u :: t, r) := by
  unfold quoteUnit
  cases he : shortEscape u with
  | some e => exact parseString_short he h
  | none =>
    dsimp only
    split
    · exact parseString_unicode h
    · exact parseString_raw (ne_of_shortEscape he).1 (ne_of_shortEscape he).2 h

theorem parseString_surrogate (hu : isHigh u || isLow u) (h : parseString s = some (t, r)) :
    parseString (u :: s) = some (u :: t, r) := by
  refine parseString_raw ?_ ?_ h
  · rintro rfl
    exact absurd hu (by decide)
  · rintro rfl
    exact absurd hu (by decide)

theorem parseString_quoteUnits (s rest : JsString) :
    parseString (quoteUnits s ++ quoteMark :: rest) = some (s, rest) := by
  fun_induction quoteUnits s with
  | case1 => exact parseString_end rest
  | case2 u => exact parseString_quoteUnit (parseString_end rest)
  | case3 u v s hpair ih =>
    rw [Bool.and_eq_true] at hpair
    exact parseString_surrogate (by simp [hpair.1]) (parseString_surrogate (by simp [hpair.2]) ih)
  | case4 u v s _ ih =>
    rw [append_assoc]
    exact parseString_quoteUnit ih

theorem parseString_quote (s rest : JsString) :
    parseString ((quote s ++ rest).tail) = some (s, rest) := by
  show parseString (quoteUnits s ++ [quoteMark] ++ rest) = _
  rw [append_assoc]
  exact parseString_quoteUnits s rest

end Strings

/-! ## Values -/

mutual

/-- There is no big integer in the value. -/
def plain : Json → Bool
  | bigint _ => false
  | arr items => plainItems items
  | obj members => plainMembers members
  | _ => true

def plainItems : List Json → Bool
  | [] => true
  | v :: items => plain v && plainItems items

def plainMember : JsString × Json → Bool
  | (_, v) => plain v

def plainMembers : List (JsString × Json) → Bool
  | [] => true
  | m :: members => plainMember m && plainMembers members

end

mutual

/-- The text of a value; that of a big integer is not used. -/
def render : Json → JsString
  | null => lit "null"
  | bool true => lit "true"
  | bool false => lit "false"
  | num n => n.text
  | str s => quote s
  | bigint _ => []
  | arr [] => [openBracket, closeBracket]
  | arr (v :: items) => openBracket :: (render v ++ renderItems items)
  | obj [] => [openBrace, closeBrace]
  | obj (m :: members) => openBrace :: (renderMember m ++ renderMembers members)

/-- What follows an item of an array. -/
def renderItems : List Json → JsString
  | [] => [closeBracket]
  | v :: items => comma :: (render v ++ renderItems items)

def renderMember : JsString × Json → JsString
  | (k, v) => quote k ++ colon :: render v

/-- What follows a member of an object. -/
def renderMembers : List (JsString × Json) → JsString
  | [] => [closeBrace]
  | m :: members => comma :: (renderMember m ++ renderMembers members)

end

/-- `JSON.stringify`, which throws on a big integer. -/
def stringify (v : Json) : Option JsString := if v.plain then some v.render else none

/-- The rest of a text behind a given word. -/
def skip : JsString → JsString → Option JsString
  | [], s => some s
  | u :: w, v :: s => if u = v then skip w s else none
  | _ :: _, [] => none

def parseNumber (s : JsString) : Option (Json × JsString) :=
  if h : (s.takeWhile numeral).head?.any numeralStart then
    some (num ⟨s.takeWhile numeral, h, List.all_takeWhile⟩, s.dropWhile numeral)
  else none

mutual

def parseValue : Nat → JsString → Option (Json × JsString)
  | 0, _ => none
  | _, [] => none
  | fuel + 1, u :: s =>
    if u = unit 'n' then (skip (lit "ull") s).map (null, ·)
    else if u = unit 't' then (skip (lit "rue") s).map (bool true, ·)
    else if u = unit 'f' then (skip (lit "alse") s).map (bool false, ·)
    else if u = quoteMark then (parseString s).map fun (t, rest) => (str t, rest)
    else if u = openBracket then
      match skip [closeBracket] s with
      | some rest => some (arr [], rest)
      | none => do
        let (v, rest) ← parseValue fuel s
        let (items, rest) ← parseItems fuel rest
        some (arr (v :: items), rest)
    else if u = openBrace then
      match skip [closeBrace] s with
      | some rest => some (obj [], rest)
      | none => do
        let (member, rest) ← parseMember fuel s
        let (members, rest) ← parseMembers fuel rest
        some (obj (member :: members), rest)
    else parseNumber (u :: s)

def parseItems : Nat → JsString → Option (List Json × JsString)
  | 0, _ => none
  | fuel + 1, s =>
    match skip [closeBracket] s with
    | some rest => some ([], rest)
    | none => do
      let rest ← skip [comma] s
      let (v, rest) ← parseValue fuel rest
      let (items, rest) ← parseItems fuel rest
      some (v :: items, rest)

def parseMember : Nat → JsString → Option ((JsString × Json) × JsString)
  | 0, _ => none
  | fuel + 1, s => do
    let rest ← skip [quoteMark] s
    let (k, rest) ← parseString rest
    let rest ← skip [colon] rest
    let (v, rest) ← parseValue fuel rest
    some ((k, v), rest)

def parseMembers : Nat → JsString → Option (List (JsString × Json) × JsString)
  | 0, _ => none
  | fuel + 1, s =>
    match skip [closeBrace] s with
    | some rest => some ([], rest)
    | none => do
      let rest ← skip [comma] s
      let (member, rest) ← parseMember fuel rest
      let (members, rest) ← parseMembers fuel rest
      some (member :: members, rest)

end

/-- `JSON.parse`, which throws on anything but one whole value. -/
def parse (s : JsString) : Option Json :=
  match parseValue s.length s with
  | some (v, []) => some v
  | _ => none

/-! ## The round trip -/

@[simp] theorem skip_append (w s : JsString) : skip w (w ++ s) = some s := by
  induction w with
  | nil => rfl
  | cons u w ih => rw [cons_append, skip, if_pos rfl, ih]

theorem skip_ne {u v : UInt16} (h : v ≠ u) (s : JsString) : skip [u] (v :: s) = none := by
  rw [skip, if_neg (Ne.symm h)]

/-- A text that does not go on with a number before it. -/
def Fresh (s : JsString) : Prop := ∀ u ∈ s.head?, numeral u = false

theorem parseNumber_text {n : JsonNumber} {rest : JsString} (h : Fresh rest) :
    parseNumber (n.text ++ rest) = some (num n, rest) := by
  have hstop : rest.takeWhile numeral = [] ∧ rest.dropWhile numeral = rest := by
    cases rest with
    | nil => exact ⟨rfl, rfl⟩
    | cons u rest =>
      have hu := h u rfl
      exact ⟨takeWhile_cons_of_neg (by simp [hu]), dropWhile_cons_of_neg (by simp [hu])⟩
  have hall : ∀ u ∈ n.text, numeral u := all_eq_true.mp n.digits
  have htake : (n.text ++ rest).takeWhile numeral = n.text := by
    rw [takeWhile_append_of_pos hall, hstop.1, append_nil]
  have hdrop : (n.text ++ rest).dropWhile numeral = rest := by
    rw [dropWhile_append_of_pos hall, hstop.2]
  unfold parseNumber
  simp only [htake, hdrop]
  exact dif_pos n.start

theorem render_cons : ∀ {v : Json}, v.plain → ∃ u s, v.render = u :: s ∧ u ≠ closeBracket
  | null, _ => ⟨_, _, rfl, by decide⟩
  | bool true, _ => ⟨_, _, rfl, by decide⟩
  | bool false, _ => ⟨_, _, rfl, by decide⟩
  | str s, _ => ⟨_, _, rfl, by decide⟩
  | arr [], _ => ⟨_, _, rfl, by decide⟩
  | arr (_ :: _), _ => ⟨_, _, rfl, by decide⟩
  | obj [], _ => ⟨_, _, rfl, by decide⟩
  | obj (_ :: _), _ => ⟨_, _, rfl, by decide⟩
  | num ⟨u :: text, hstart, _⟩, _ => by
    refine ⟨u, text, rfl, ?_⟩
    rintro rfl
    exact absurd (show numeralStart closeBracket from hstart) (by decide)

theorem fresh_renderItems (items : List Json) (rest : JsString) :
    Fresh (renderItems items ++ rest) := by
  cases items <;> (intro u hu; cases hu; rfl)

theorem fresh_renderMembers (members : List (JsString × Json)) (rest : JsString) :
    Fresh (renderMembers members ++ rest) := by
  cases members <;> (intro u hu; cases hu; rfl)

theorem parseValue_num {fuel : Nat} {n : JsonNumber} {rest : JsString} (hrest : Fresh rest) :
    parseValue (fuel + 1) (n.text ++ rest) = some (num n, rest) := by
  rw [← parseNumber_text hrest]
  obtain ⟨_ | ⟨u, text⟩, hstart, hdigits⟩ := n
  · exact absurd hstart (by decide)
  · have hne : ∀ w : UInt16, numeralStart w = false → u ≠ w := by
      rintro w hw rfl
      exact absurd (show numeralStart u from hstart) (by simp [hw])
    show parseValue (fuel + 1) (u :: (text ++ rest)) = _
    rw [parseValue, if_neg (hne _ (by decide)), if_neg (hne _ (by decide)),
      if_neg (hne _ (by decide)),
      if_neg (hne _ (by decide)), if_neg (hne _ (by decide)), if_neg (hne _ (by decide))]
    rfl

section Steps

variable {fuel : Nat} {s r rest : JsString} {v : Json} {items : List Json} {m : JsString × Json}
  {members : List (JsString × Json)}

theorem parseValue_arr (hs : skip [closeBracket] s = none) (hv : parseValue fuel s = some (v, r))
    (hitems : parseItems fuel r = some (items, rest)) :
    parseValue (fuel + 1) (openBracket :: s) = some (arr (v :: items), rest) := by
  rw [parseValue, if_neg (by decide), if_neg (by decide), if_neg (by decide), if_neg (by decide),
    if_pos rfl, hs]
  dsimp only
  rw [hv]
  dsimp only [bind, Option.bind]
  rw [hitems]

theorem parseValue_obj (hs : skip [closeBrace] s = none) (hm : parseMember fuel s = some (m, r))
    (hmembers : parseMembers fuel r = some (members, rest)) :
    parseValue (fuel + 1) (openBrace :: s) = some (obj (m :: members), rest) := by
  rw [parseValue, if_neg (by decide), if_neg (by decide), if_neg (by decide), if_neg (by decide),
    if_neg (by decide), if_pos rfl, hs]
  dsimp only
  rw [hm]
  dsimp only [bind, Option.bind]
  rw [hmembers]

theorem parseItems_cons (hv : parseValue fuel s = some (v, r))
    (hitems : parseItems fuel r = some (items, rest)) :
    parseItems (fuel + 1) (comma :: s) = some (v :: items, rest) := by
  rw [parseItems, skip_ne (by decide)]
  dsimp only [bind, Option.bind]
  rw [show skip [comma] (comma :: s) = some s from skip_append [comma] s]
  dsimp only
  rw [hv]
  dsimp only
  rw [hitems]

theorem parseMember_colon {k : JsString} (hv : parseValue fuel s = some (v, rest)) :
    parseMember (fuel + 1) (quote k ++ colon :: s) = some ((k, v), rest) := by
  rw [parseMember]
  show (do
    let (k, rest) ← parseString (quote k ++ colon :: s).tail
    let rest ← skip [colon] rest
    let (v, rest) ← parseValue fuel rest
    some ((k, v), rest)) = _
  rw [parseString_quote]
  dsimp only [bind, Option.bind]
  rw [show skip [colon] (colon :: s) = some s from skip_append [colon] s]
  dsimp only
  rw [hv]

theorem parseMembers_cons (hm : parseMember fuel s = some (m, r))
    (hmembers : parseMembers fuel r = some (members, rest)) :
    parseMembers (fuel + 1) (comma :: s) = some (m :: members, rest) := by
  rw [parseMembers, skip_ne (by decide)]
  dsimp only [bind, Option.bind]
  rw [show skip [comma] (comma :: s) = some s from skip_append [comma] s]
  dsimp only
  rw [hm]
  dsimp only
  rw [hmembers]

end Steps

mutual

theorem parseValue_render : ∀ {fuel : Nat} (v : Json) {rest : JsString}, v.plain → Fresh rest →
    v.render.length ≤ fuel → parseValue fuel (v.render ++ rest) = some (v, rest)
  | 0, v, _, hv, _, hfuel => by
    obtain ⟨u, s, hu, -⟩ := render_cons hv
    rw [hu] at hfuel
    exact absurd hfuel (by simp)
  | fuel + 1, null, rest, _, _, _ => rfl
  | fuel + 1, bool true, rest, _, _, _ => rfl
  | fuel + 1, bool false, rest, _, _, _ => rfl
  | fuel + 1, num n, rest, _, hrest, _ => parseValue_num hrest
  | fuel + 1, str s, rest, _, _, _ => by
    show (parseString (quote s ++ rest).tail).map (fun (t, rest) => (str t, rest)) = _
    rw [parseString_quote]
    rfl
  | fuel + 1, arr [], rest, _, _, _ => rfl
  | fuel + 1, arr (v :: items), rest, hplain, _, hfuel => by
    obtain ⟨hv, hitems⟩ := (Bool.and_eq_true _ _).mp hplain
    simp only [render, length_cons, length_append] at hfuel
    rw [render, cons_append, append_assoc]
    refine parseValue_arr ?_ (parseValue_render v hv (fresh_renderItems items rest) (by omega))
      (parseItems_renderItems items hitems (by omega))
    -- a value does not begin with a closing bracket
    obtain ⟨u, s, hu, hne⟩ := render_cons hv
    rw [hu]
    exact skip_ne hne _
  | fuel + 1, obj [], rest, _, _, _ => rfl
  | fuel + 1, obj (m :: members), rest, hplain, _, hfuel => by
    obtain ⟨hm, hmembers⟩ := (Bool.and_eq_true _ _).mp hplain
    simp only [render, length_cons, length_append] at hfuel
    rw [render, cons_append, append_assoc]
    refine parseValue_obj ?_
      (parseMember_renderMember m hm (fresh_renderMembers members rest) (by omega))
      (parseMembers_renderMembers members hmembers (by omega))
    -- it begins with a quotation mark
    obtain ⟨k, v⟩ := m
    rfl

theorem parseItems_renderItems : ∀ {fuel : Nat} (items : List Json) {rest : JsString},
    plainItems items → (renderItems items).length ≤ fuel →
    parseItems fuel (renderItems items ++ rest) = some (items, rest)
  | 0, items, _, _, hfuel => by cases items <;> exact absurd hfuel (by simp [renderItems])
  | fuel + 1, [], rest, _, _ => rfl
  | fuel + 1, v :: items, rest, hplain, hfuel => by
    obtain ⟨hv, hitems⟩ := (Bool.and_eq_true _ _).mp hplain
    simp only [renderItems, length_cons, length_append] at hfuel
    rw [renderItems, cons_append, append_assoc]
    exact parseItems_cons (parseValue_render v hv (fresh_renderItems items rest) (by omega))
      (parseItems_renderItems items hitems (by omega))

theorem parseMember_renderMember : ∀ {fuel : Nat} (m : JsString × Json) {rest : JsString},
    plainMember m → Fresh rest → (renderMember m).length ≤ fuel →
    parseMember fuel (renderMember m ++ rest) = some (m, rest)
  | 0, (k, v), _, _, _, hfuel => absurd hfuel (by simp [renderMember, quote])
  | fuel + 1, (k, v), rest, hv, hrest, hfuel => by
    simp only [renderMember, List.length_cons, List.length_append] at hfuel
    rw [renderMember, List.append_assoc, List.cons_append]
    exact parseMember_colon (parseValue_render v hv hrest (by omega))

theorem parseMembers_renderMembers : ∀ {fuel : Nat} (members : List (JsString × Json))
    {rest : JsString}, plainMembers members → (renderMembers members).length ≤ fuel →
    parseMembers fuel (renderMembers members ++ rest) = some (members, rest)
  | 0, members, _, _, hfuel => by cases members <;> exact absurd hfuel (by simp [renderMembers])
  | fuel + 1, [], rest, _, _ => rfl
  | fuel + 1, m :: members, rest, hplain, hfuel => by
    obtain ⟨hm, hmembers⟩ := (Bool.and_eq_true _ _).mp hplain
    simp only [renderMembers, length_cons, length_append] at hfuel
    rw [renderMembers, cons_append, append_assoc]
    exact parseMembers_cons
      (parseMember_renderMember m hm (fresh_renderMembers members rest) (by omega))
      (parseMembers_renderMembers members hmembers (by omega))

end

theorem parse_stringify {v : Json} {s : JsString} (h : stringify v = some s) :
    parse s = some v := by
  unfold stringify at h
  split at h
  next hplain =>
    cases h
    have hvalue : parseValue v.render.length (v.render ++ []) = some (v, []) :=
      parseValue_render v hplain nofun (Nat.le_refl _)
    rw [append_nil] at hvalue
    rw [parse, hvalue]
  · cases h

theorem head?_stringify_obj {m : JsString × Json} {members : List (JsString × Json)} {s : JsString}
    (h : stringify (obj (m :: members)) = some s) : s.head? = some openBrace := by
  unfold stringify at h
  split at h
  · cases h
    rfl
  · cases h

theorem stringify_isSome (v : Json) : (stringify v).isSome = v.plain := by
  unfold stringify
  cases v.plain <;> rfl

end Json
