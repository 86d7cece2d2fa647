import NevoMessaging.Lib.JsNumber

/-!
# The body of an HTTP response

The response handler of `NevoHttpClient` collects the chunks of a body. If the server declares a
length, the chunks are copied into a buffer of this length, at most 64 KiB, at a moving offset; the
buffer grows when more is sent than was declared. Otherwise the chunks are kept in a list.

Results:
1. `Collected.data`: a chunk below the cap is added to what was collected.
2. `response_body_exact`: the body of a response is the concatenation of its chunks.
-/

namespace NevoMessaging.HttpClient

open List JsString JsNumber

/-! ## Buffers -/

abbrev Buffer := List UInt8

namespace Buffer

/-- A buffer with the bytes that happen to be in memory. -/
def allocUnsafe (memory : Nat → UInt8) (size : Nat) : Buffer := (List.range size).map memory

/-- `source.copy(target, targetStart)`; what does not fit is left out. -/
def copy (source target : Buffer) (targetStart : Nat) : Buffer :=
  target.take targetStart ++ source.take (target.length - targetStart) ++
    target.drop (targetStart + source.length)

variable {source target : Buffer} {start : Nat}

theorem length_allocUnsafe (memory : Nat → UInt8) (size : Nat) :
    (allocUnsafe memory size).length = size := by
  rw [allocUnsafe, length_map, length_range]

theorem take_copy (h : start + source.length ≤ target.length) :
    (source.copy target start).take (start + source.length) = target.take start ++ source := by
  have hsource : source.take (target.length - start) = source :=
    take_of_length_le (by omega)
  rw [copy, hsource]
  refine take_left' ?_
  rw [length_append, length_take, min_eq_left (by omega)]

theorem length_copy (h : start + source.length ≤ target.length) :
    (source.copy target start).length = target.length := by
  simp only [copy, length_append, length_take, length_drop]
  omega

/-- The buffer that the next chunk of a body is copied into; it grows if it is too short. -/
def withRoom (memory : Nat → UInt8) (preBuf : Buffer) (offset length : Nat) : Buffer :=
  if preBuf.length < offset + length then
    Buffer.copy (preBuf.take offset) (.allocUnsafe memory (offset + length)) 0
  else preBuf

theorem withRoom_spec (memory : Nat → UInt8) (preBuf : Buffer) {offset : Nat} (length : Nat)
    (h : offset ≤ preBuf.length) :
    offset + length ≤ (withRoom memory preBuf offset length).length ∧
      (withRoom memory preBuf offset length).take offset = preBuf.take offset := by
  unfold withRoom
  split
  · have hseen : (preBuf.take offset).length = offset := length_take_of_le h
    have hroom : 0 + (preBuf.take offset).length ≤
        (allocUnsafe memory (offset + length)).length := by
      rw [length_allocUnsafe]
      omega
    have htake := take_copy hroom
    rw [hseen, Nat.zero_add, List.take_zero, nil_append] at htake
    rw [length_copy hroom, length_allocUnsafe]
    exact ⟨le_rfl, htake⟩
  next hfits => exact ⟨not_lt.mp hfits, rfl⟩

end Buffer

/-! ## The response handler -/

/-- Ceiling on trusting a server-declared content-length for pre-allocation. -/
def preallocCeilingBytes : Nat := 64 * 1024

inductive HeaderValue
  | one (value : JsString)
  | many (values : List JsString)

/-- `Array.isArray(v) ? v.join(",") : String(v)`. -/
def HeaderValue.text : HeaderValue → JsString
  | .one value => value
  | .many values => (lit ",").intercalate values

structure IncomingMessage where
  statusCode : Option Nat
  headers : List (JsString × HeaderValue)

structure PayloadTooLarge where
  message : JsString
  size : Option ℚ := none
  limit : ℚ

structure Response where
  status : Nat
  body : Buffer
  headers : List (JsString × JsString)

/-- The variables of the handler. -/
structure Collector where
  preBuf : Option Buffer
  offset : Nat := 0
  chunks : List Buffer := []
  received : Nat := 0

/-- `Number(res.headers["content-length"])`, if it is finite. -/
def expected (res : IncomingMessage) : Option ℚ :=
  (res.headers.lookup (lit "content-length")).bind fun value => number value.text

variable (text : ℚ → JsString) (memory : Nat → Nat → UInt8) (wireCap : ℚ)

/-- The response has come. `memory` says what is in memory after so many bytes were received, and
`text` is how a number is written. -/
def onResponse (res : IncomingMessage) : Except PayloadTooLarge Collector :=
  match expected res with
  | none => .ok { preBuf := none }
  | some expected =>
    if wireCap < expected then
      .error {
        message := lit "Response content-length " ++ text expected ++ lit "B exceeds " ++
          text wireCap ++ lit "B"
        size := some expected
        limit := wireCap }
    else if 0 < expected then
      .ok { preBuf := some (.allocUnsafe (memory 0) ⌊min expected preallocCeilingBytes⌋.toNat) }
    else .ok { preBuf := none }

/-- `res.on("data", …)`. -/
def onData (s : Collector) (c : Buffer) : Except PayloadTooLarge Collector :=
  let received := s.received + c.length
  if wireCap < received then
    .error { message := lit "Response body exceeds " ++ text wireCap ++ lit "B", limit := wireCap }
  else
    match s.preBuf with
    | some preBuf =>
      let preBuf := preBuf.withRoom (memory received) s.offset c.length
      .ok { s with
        received, preBuf := some (c.copy preBuf s.offset), offset := s.offset + c.length }
    | none => .ok { s with received, chunks := s.chunks ++ [c] }

def Collector.body (s : Collector) : Buffer :=
  match s.preBuf with
  | some preBuf => preBuf.take s.offset
  | none => s.chunks.flatten

/-- `res.on("end", …)`. -/
def onEnd (res : IncomingMessage) (s : Collector) : Response :=
  { status := res.statusCode.getD 0
    body := s.body
    headers := res.headers.map fun (k, v) => (k, v.text) }

/-- What the promise of `sendBuffer` is settled with. -/
def receive (res : IncomingMessage) (chunks : List Buffer) : Except PayloadTooLarge Response := do
  let s ← onResponse text memory wireCap res
  let s ← chunks.foldlM (onData text memory wireCap) s
  return onEnd res s

/-! ## What is collected -/

/-- The handler has received `seen` and kept it. -/
structure Collected (seen : Buffer) (s : Collector) : Prop where
  received : s.received = seen.length
  body : s.body = seen
  offset : ∀ preBuf, s.preBuf = some preBuf → s.offset = seen.length ∧ s.offset ≤ preBuf.length

variable {text memory wireCap} {res : IncomingMessage} {s : Collector} {seen c : Buffer}

theorem body_of_none (h : s.preBuf = none) : s.body = s.chunks.flatten := by
  rw [Collector.body, h]

section Handlers

variable (text memory)

theorem collected_onResponse (h : ∀ n, expected res = some n → n ≤ wireCap) :
    ∃ s, onResponse text memory wireCap res = .ok s ∧ Collected [] s := by
  have hlist : Collected [] { preBuf := none } := ⟨rfl, rfl, nofun⟩
  unfold onResponse
  split
  · exact ⟨_, rfl, hlist⟩
  next n hn =>
    rw [if_neg (not_lt.mpr (h n hn))]
    split
    · exact ⟨_, rfl, rfl, rfl, fun _ _ => ⟨rfl, Nat.zero_le _⟩⟩
    · exact ⟨_, rfl, hlist⟩

theorem Collected.data (h : Collected seen s) (hcap : ((seen ++ c).length : ℚ) ≤ wireCap) :
    ∃ s', onData text memory wireCap s c = .ok s' ∧ Collected (seen ++ c) s' := by
  have hreceived : s.received + c.length = (seen ++ c).length := by
    rw [h.received, length_append]
  unfold onData
  dsimp only
  rw [hreceived, if_neg (not_lt.mpr hcap)]
  split
  next preBuf hbuf =>
    obtain ⟨hoffset, hle⟩ := h.offset preBuf hbuf
    obtain ⟨hroom, htake⟩ := Buffer.withRoom_spec (memory (seen ++ c).length) preBuf c.length hle
    have hseen : preBuf.take s.offset = seen := by
      have hbody := h.body
      rwa [Collector.body, hbuf] at hbody
    refine ⟨_, rfl, rfl, ?_, ?_⟩
    · show (c.copy _ s.offset).take (s.offset + c.length) = seen ++ c
      rw [Buffer.take_copy hroom, htake, hseen]
    · rintro _ ⟨rfl⟩
      refine ⟨?_, hroom.trans_eq (Buffer.length_copy hroom).symm⟩
      show s.offset + c.length = (seen ++ c).length
      rw [hoffset, length_append]
  next hbuf =>
    have hlist : ({ s with received := (seen ++ c).length, chunks := s.chunks ++ [c] } :
        Collector).preBuf = none := hbuf
    refine ⟨_, rfl, rfl, (body_of_none hlist).trans ?_, fun preBuf hsome => ?_⟩
    · rw [flatten_append, flatten_singleton, ← body_of_none hbuf, h.body]
    · cases hbuf.symm.trans hsome

theorem Collected.run {chunks : List Buffer} (h : Collected seen s)
    (hcap : ((seen ++ chunks.flatten).length : ℚ) ≤ wireCap) :
    ∃ s', chunks.foldlM (onData text memory wireCap) s = .ok s' ∧
      Collected (seen ++ chunks.flatten) s' := by
  induction chunks generalizing s seen with
  | nil => exact ⟨s, rfl, by rwa [flatten_nil, append_nil]⟩
  | cons c chunks ih =>
    rw [flatten_cons, ← append_assoc] at hcap ⊢
    have hle : (seen ++ c).length ≤ (seen ++ c ++ chunks.flatten).length :=
      (prefix_append _ _).length_le
    obtain ⟨s₁, hs₁, hc⟩ := h.data text memory ((Nat.cast_le.mpr hle).trans hcap)
    obtain ⟨s₂, hs₂, hrest⟩ := ih hc hcap
    refine ⟨s₂, ?_, hrest⟩
    rw [foldlM_cons, hs₁]
    exact hs₂

end Handlers

/-- For every value of the header `content-length` that is not a number above the cap, and all
chunks that together do not exceed the cap: the response is resolved, and its body is the
concatenation of the chunks. -/
theorem response_body_exact (text : ℚ → JsString) (memory : Nat → Nat → UInt8) (wireCap : ℚ)
    (res : IncomingMessage) (chunks : List Buffer)
    (hexpected : ∀ n, expected res = some n → n ≤ wireCap)
    (hcap : (chunks.flatten.length : ℚ) ≤ wireCap) :
    ∃ response, receive text memory wireCap res chunks = .ok response ∧
      response.body = chunks.flatten := by
  obtain ⟨s, hs, hstart⟩ := collected_onResponse text memory hexpected
  obtain ⟨s', hs', hend⟩ := hstart.run text memory hcap
  refine ⟨onEnd res s', ?_, hend.body⟩
  rw [receive, hs]
  show (chunks.foldlM (onData text memory wireCap) s >>= fun s => pure (onEnd res s)) = _
  rw [hs']
  rfl

theorem response_body_exact_grown : ∃ response,
    receive (fun _ => []) (fun _ _ => 0) 4
      { statusCode := some 200, headers := [(lit "content-length", .one (lit "1"))] }
      [[1], [2, 3]] = .ok response ∧ response.body = [1, 2, 3] := by
  have hone : number (lit "1") = some 1 := by
    decide +kernel
  refine response_body_exact (fun _ => []) (fun _ _ => 0) 4 _ [[1], [2, 3]] (fun n hn => ?_) ?_
  · rw [expected, lookup_cons_self, Option.bind_some] at hn
    cases hone.symm.trans hn
    norm_num
  · norm_num

end NevoMessaging.HttpClient
