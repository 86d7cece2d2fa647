import NevoMessaging.Lib.Utf8
import NevoMessaging.Transport.Filters

/-!
# Subscriptions over server-sent events

`NevoHttpClient.subscribe` reads the body of a response chunk by chunk. The decoded text is added
to a buffer, the buffer is split at every two newlines in a row, and the last part stays in the
buffer, since a later chunk may go on with it. Every other part is a frame: the payload in its
`data:` line is passed to the handler if it is of the method and matches the filter.

A chunk may end anywhere, between the two newlines or inside a character as well.

Results:
1. `splitParts_append`: a text can be split before the rest of it is there.
2. `sse_whole_stream`: the handler is given what the whole stream, split at once, would give.
-/

namespace NevoMessaging.Subscribe

open List

open JsString JsNumber

/-! ## One frame -/

/-- What the handler is called with. -/
structure Delivery where
  params : JsValue
  «meta» : JsValue

variable {σ ρ δ : Type} (host : Host σ ρ) (sub : Subscription ρ)

/-- `!(method && payload.method !== method && parseMethod(payload.method ?? "").name !== method)` -/
def ofMethod (payload : JsValue) : HostM σ Bool :=
  if sub.method = [] then pure true
  else do
    match ← host.member payload "method" with
    | .str method => pure (method = sub.method || methodName method = sub.method)
    | .null | .undefined => pure (methodName [] = sub.method)
    -- arrays have `lastIndexOf` and `slice` as well, but the name is no string then
    | .arr _ => pure false
    | _ => StateT.lift none

/-- The text after `data:` in the first line that begins with it. -/
def dataOf (part : JsString) : Option JsString :=
  ((part.splitOn (unit '\n')).find? (lit "data:").isPrefixOf).map fun line =>
    (line.drop 5).dropWhile isSpace

/-- What a frame gives to the handler, if anything. It throws if the payload is `null`, if its
method has no `lastIndexOf`, or if something in a filter has no text. -/
def frame (part : JsString) : HostM σ (Option Delivery) :=
  match (dataOf part).bind host.parseWithBigInt with
  | none => pure none
  | some payload => do
    if ← ofMethod host sub payload then
      let value ← host.member payload "meta"
      if ← matchesFilter host sub.filter value then
        let params ← host.member payload "params"
        pure (some ⟨params, if host.truthy value then value else .obj []⟩)
      else pure none
    else pure none

variable (handler : Delivery → σ → Bool × σ)

/-- The frames of a list up to the first one that throws: what the handler is called with, and the
state afterwards unless one throws. The handler may use the regular expressions too; its errors are
only logged. -/
def handleParts : List JsString → σ → List Delivery × Option σ
  | [], s => ([], some s)
  | part :: parts, s =>
    match frame host sub part s with
    | none => ([], none)
    | some (none, s) => handleParts parts s
    | some (some delivery, s) =>
      let (deliveries, s) := handleParts parts (handler delivery s).2
      (delivery :: deliveries, s)

/-! ## The loop over the chunks -/

/-- Puts `u` in front of the first part. -/
def consFirst (u : UInt16) : List JsString → List JsString
  | [] => []
  | part :: parts => (u :: part) :: parts

/-- `text.split("\n\n")` -/
def splitParts : JsString → List JsString
  | u :: v :: rest =>
    if u = unit '\n' ∧ v = unit '\n' then [] :: splitParts rest
    else consFirst u (splitParts (v :: rest))
  | text => [text]

/-- What a decoder gives for the chunks of a stream, put together. -/
def decodeAll (decode : δ → List UInt8 → JsString × δ) : δ → List (List UInt8) → JsString
  | _, [] => []
  | d, chunk :: chunks => (decode d chunk).1 ++ decodeAll decode (decode d chunk).2 chunks

/-- `new TextDecoder()`, called with `stream: true`. -/
structure StreamDecoder (δ : Type) where
  init : δ
  decode : δ → List UInt8 → JsString × δ
  /-- The output depends only on the bytes. -/
  decodeAll_eq : ∀ {chunks chunks' : List (List UInt8)}, chunks.flatten = chunks'.flatten →
    decodeAll decode init chunks = decodeAll decode init chunks'

/-- A decoder of UTF-8. A byte order mark is decoded as any other character. -/
def utf8Decoder : StreamDecoder Decoding where
  init := {}
  decode := decodeBytes
  decodeAll_eq {chunks chunks'} h := by
    have hall (d : Decoding) (chunks : List (List UInt8)) :
        decodeAll decodeBytes d chunks = (decodeBytes d chunks.flatten).1 := by
      induction chunks generalizing d with
      | nil => rfl
      | cons chunk chunks ih => rw [decodeAll, ih, flatten_cons, decodeBytes_append]
    rw [hall, hall, h]

/-- The text of a stream that comes in one piece. -/
def StreamDecoder.text (decoder : StreamDecoder δ) (bytes : List UInt8) : JsString :=
  (decoder.decode decoder.init bytes).1

variable (decoder : StreamDecoder δ)

def consume (d : δ) (buffer : JsString) (s : σ) : List (List UInt8) → List Delivery
  | [] => []
  | chunk :: chunks =>
    let (text, d) := decoder.decode d chunk
    let parts := splitParts (buffer ++ text)
    match handleParts host sub handler parts.dropLast s with
    | (deliveries, none) => deliveries
    | (deliveries, some s) =>
      deliveries ++ consume d (parts.getLast?.getD []) s chunks

/-! ## Splitting -/

theorem splitParts_ne_nil : ∀ text, splitParts text ≠ []
  | [] | [_] => cons_ne_nil _ _
  | u :: v :: rest => by
    obtain ⟨part, parts, hparts⟩ := exists_cons_of_ne_nil (splitParts_ne_nil (v :: rest))
    rw [splitParts, hparts]
    split <;> exact cons_ne_nil _ _

theorem eq_of_splitParts {part : JsString} : ∀ {text}, splitParts text = [part] → part = text
  | [], h | [_], h => (cons.inj h).1.symm
  | u :: v :: rest, h => by
    rw [splitParts] at h
    split at h
    · exact absurd (cons.inj h).2 (splitParts_ne_nil rest)
    · obtain ⟨first, parts, hparts⟩ := exists_cons_of_ne_nil (splitParts_ne_nil (v :: rest))
      rw [hparts] at h
      obtain ⟨rfl, rfl⟩ := cons.inj h
      rw [eq_of_splitParts hparts]

/-- Splitting `x` first and its last part together with `y` afterwards is splitting both at once,
wherever `x` ends. -/
theorem splitParts_append (y : JsString) : ∀ x, ∃ parts last, splitParts x = parts ++ [last] ∧
    splitParts (x ++ y) = parts ++ splitParts (last ++ y)
  | [] => ⟨[], [], rfl, rfl⟩
  | [u] => ⟨[], [u], rfl, rfl⟩
  | u :: v :: rest => by
    rw [splitParts, cons_append, cons_append, splitParts]
    split
    · obtain ⟨parts, last, hx, hxy⟩ := splitParts_append y rest
      exact ⟨[] :: parts, last, by rw [hx, cons_append], by rw [hxy, cons_append]⟩
    · next h =>
      obtain ⟨parts, last, hx, hxy⟩ := splitParts_append y (v :: rest)
      rw [hx, ← cons_append, hxy]
      cases parts with
      | nil =>
        -- `v :: rest` is a single part, and so is `u` in front of it
        obtain rfl := eq_of_splitParts hx
        refine ⟨[], u :: v :: rest, rfl, ?_⟩
        change _ = splitParts (u :: v :: (rest ++ y))
        rw [splitParts, if_neg h]
        rfl
      | cons part parts => exact ⟨(u :: part) :: parts, last, rfl, rfl⟩

theorem splitParts_last {x last : JsString} {parts : List JsString}
    (h : splitParts x = parts ++ [last]) : splitParts last = [last] := by
  obtain ⟨parts', last', hx, hlast⟩ := splitParts_append [] x
  rw [append_nil, append_nil] at hlast
  obtain ⟨rfl, hl⟩ := append_inj' (h.symm.trans hx) rfl
  obtain rfl := (cons.inj hl).1
  exact (append_cancel_left (hx.symm.trans hlast)).symm

/-! ## The whole stream -/

theorem handleParts_append (parts parts' : List JsString) (s : σ) :
    (handleParts host sub handler (parts ++ parts') s).1 =
      match handleParts host sub handler parts s with
      | (deliveries, none) => deliveries
      | (deliveries, some s) => deliveries ++ (handleParts host sub handler parts' s).1 := by
  induction parts generalizing s with
  | nil => rfl
  | cons part parts ih =>
    rw [cons_append, handleParts, handleParts]
    rcases frame host sub part s with _ | ⟨_ | delivery, s⟩
    · rfl
    · exact ih s
    · simp only [ih]
      rcases handleParts host sub handler parts (handler delivery s).2 with ⟨deliveries, _ | s⟩
      · rfl
      · rfl

/-- The invariant of the loop: the buffer is a single part. -/
theorem consume_eq (chunks : List (List UInt8)) : ∀ (d : δ) (buffer : JsString) (s : σ),
    splitParts buffer = [buffer] → consume host sub handler decoder d buffer s chunks =
      (handleParts host sub handler
        (splitParts (buffer ++ decodeAll decoder.decode d chunks)).dropLast s).1 := by
  induction chunks with
  | nil =>
    intro d buffer s h
    rw [decodeAll, append_nil, h]
    rfl
  | cons chunk chunks ih =>
    intro d buffer s _
    rw [decodeAll, ← append_assoc, consume]
    obtain ⟨parts, last, hx, hxy⟩ := splitParts_append
      (decodeAll decoder.decode (decoder.decode d chunk).2 chunks)
      (buffer ++ (decoder.decode d chunk).1)
    rw [hxy, dropLast_append_of_ne_nil (splitParts_ne_nil _), handleParts_append]
    simp only [hx, dropLast_concat, getLast?_concat, Option.getD_some]
    rcases handleParts host sub handler parts s with ⟨deliveries, _ | s⟩
    · rfl
    · simp only [ih _ _ s (splitParts_last hx)]

/-- However a stream is cut into chunks and whatever becomes of the handler, it is called with the
payloads of the parts of the whole text but the last, up to the first part that throws. -/
theorem sse_whole_stream (chunks : List (List UInt8)) (s : σ) :
    consume host sub handler decoder decoder.init [] s chunks =
      (handleParts host sub handler (splitParts (decoder.text chunks.flatten)).dropLast s).1 := by
  have hone : chunks.flatten = [chunks.flatten].flatten := by rw [flatten_singleton]
  rw [consume_eq host sub handler decoder chunks decoder.init [] s rfl, nil_append,
    decoder.decodeAll_eq hone, decodeAll, decodeAll, append_nil]
  rfl

/-- Every text is a payload, and every property of it is the text itself. -/
def echoHost : Host Unit Unit where
  parseWithBigInt text := some (.str text)
  property v _ := v
  string _ := none
  truthy _ := false
  test _ _ _ := (false, ())

/-- The chunks end inside of a character, between two newlines and inside of the third frame. -/
def cutStream : List (List UInt8) :=
  [utf8 (lit "data: ") ++ [0xC3], [0xA9, 0xA], 0xA :: utf8 (lit "data: b\n\nda")]

theorem sse_whole_stream_cut : ∃ deliveries : List Delivery,
    consume echoHost ⟨[], none, none⟩ (fun _ s => (true, s)) utf8Decoder utf8Decoder.init [] ()
      cutStream = deliveries ∧
    deliveries.map Delivery.params = [.str (lit "é"), .str (lit "b")] ∧
    deliveries = (handleParts echoHost ⟨[], none, none⟩ (fun _ s => (true, s))
      (splitParts (utf8Decoder.text cutStream.flatten)).dropLast ()).1 :=
  ⟨_, rfl, rfl, sse_whole_stream ..⟩

end NevoMessaging.Subscribe
