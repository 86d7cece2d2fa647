import Mathlib.Algebra.Order.Floor.Ring
import Mathlib.Algebra.Order.Ring.Rat
import Mathlib.Data.Rat.Floor
import NevoMessaging.Lib.Join
import NevoMessaging.Lib.Machine
import NevoMessaging.Lib.Table

/-!
# RateLimiter

A limiter has a token bucket for each key, in a map whose order is that of the last use. If the map
is full, a new key takes the place of the bucket that was used least recently, provided that it is
idle; otherwise the key is served by an overflow bucket, which is shared by all such keys with the
same capacity and refill.

A bucket is an object, so it has an address: the maps refer to it by the address, and a bucket that
is dropped from its map stays in the heap and is not used any more. Numbers are rational. Every
method reads `Date.now()` where the source does; the times are arguments, in the order of the reads.
The text of an overflow key is a capacity, a colon and a refill, so here it is the pair of the two.

`LimiterRun` is a limiter with the checks that were made, in their order.
-/

namespace NevoMessaging

structure RateLimiterKeyContext where
  topic : JsString
  method : JsString
  callerService : Option JsString := none
  tenantId : Option JsString := none
deriving DecidableEq

inductive RateLimitKeyDimension
  | service
  | method
  | callerService
  | tenantId
deriving DecidableEq

abbrev RateLimiterKeyExtractor := RateLimiterKeyContext → Option JsString

structure RateLimiterScope where
  capacity : ℚ
  refillPerSec : ℚ
  «match» : Option (RateLimiterKeyContext → Bool) := none
  keyExtractor : Option RateLimiterKeyExtractor := none

structure RateLimiterOptions where
  enabled : Option Bool := none
  capacity : Option ℚ := none
  refillPerSec : Option ℚ := none
  keyExtractor : Option RateLimiterKeyExtractor := none
  keyBy : Option (List RateLimitKeyDimension) := none
  scopes : Option (List RateLimiterScope) := none
  maxEntries : Option Int := none
  idleEvictMs : Option Int := none

/-- `DEFAULT_KEY` -/
def defaultKey : RateLimiterKeyExtractor := fun ctx =>
  match JsString.truthy ctx.callerService, JsString.truthy ctx.tenantId with
  | some callerService, _ => some (JsString.joinColon [ctx.topic, ctx.method, callerService])
  | none, some tenantId =>
    some (JsString.joinColon [ctx.topic, ctx.method, JsString.lit "tenant", tenantId])
  | none, none => some (JsString.joinColon [ctx.topic, ctx.method])

/-- What is pushed to the parts of the key for a dimension. -/
def RateLimitKeyDimension.part (ctx : RateLimiterKeyContext) : RateLimitKeyDimension → JsString
  | service => ctx.topic
  | method => ctx.method
  | callerService => ctx.callerService.getD (JsString.lit "anon")
  | tenantId => ctx.tenantId.getD (JsString.lit "no-tenant")

def buildKeyFn (keyBy : List RateLimitKeyDimension) : RateLimiterKeyExtractor := fun ctx =>
  some (JsString.joinColon (keyBy.map (·.part ctx)))

namespace RateLimiter

structure Bucket where
  tokens : ℚ
  lastRefill : Int
  capacity : ℚ
  refillPerSec : ℚ
  lastTouched : Int
deriving DecidableEq

end RateLimiter

structure RateLimiter where
  enabled : Bool
  defaultCapacity : ℚ
  defaultRefill : ℚ
  defaultKeyExtractor : RateLimiterKeyExtractor
  scopes : List RateLimiterScope
  maxEntries : Int
  idleEvictMs : Int
  heap : List RateLimiter.Bucket := []
  buckets : Table (Prod.fst : JsString × Nat → JsString) := .empty
  overflowBuckets : Table (Prod.fst : (ℚ × ℚ) × Nat → ℚ × ℚ) := .empty

/-- `MessagingError` with `ErrorCode.RATE_LIMITED` -/
structure RateLimitedError where
  message : JsString
  topic : JsString
  method : JsString
  callerService : Option JsString
  tenantId : Option JsString
  retryAfterMs : Int
  retryable : Bool
deriving DecidableEq

namespace RateLimiter

def create (opts : Option RateLimiterOptions) : RateLimiter where
  enabled := opts.any (·.enabled ≠ some false)
  defaultCapacity := (opts.bind (·.capacity)).getD 100
  defaultRefill := (opts.bind (·.refillPerSec)).getD 50
  defaultKeyExtractor := (opts.bind (·.keyExtractor)).getD
    (((opts.bind (·.keyBy)).map buildKeyFn).getD defaultKey)
  scopes := (opts.bind (·.scopes)).getD []
  maxEntries := (opts.bind (·.maxEntries)).getD 100000
  idleEvictMs := (opts.bind (·.idleEvictMs)).getD (5 * 60000)

structure Picked where
  key : JsString
  capacity : ℚ
  refillPerSec : ℚ
deriving DecidableEq

/-- The scope that applies, with its index. -/
def pickScope (l : RateLimiter) (ctx : RateLimiterKeyContext) : Option Picked :=
  match l.scopes.zipIdx.find? fun (scope, _) => scope.match.all (· ctx) with
  | some (scope, i) => do
    let key ← JsString.truthy ((scope.keyExtractor.getD l.defaultKeyExtractor) ctx)
    some {
      key := JsString.lit "scope:" ++ JsString.decimal i ++ JsString.unit ':' :: key
      capacity := scope.capacity
      refillPerSec := scope.refillPerSec }
  | none => do
    let key ← JsString.truthy (l.defaultKeyExtractor ctx)
    some { key, capacity := l.defaultCapacity, refillPerSec := l.defaultRefill }

/-! ## Buckets -/

/-- The object that an entry of a map refers to. -/
def deref {K : Type} (l : RateLimiter) (row : Option (K × Nat)) : Option (Nat × Bucket) :=
  row.bind fun row => l.heap[row.2]?.map (row.2, ·)

def idle (l : RateLimiter) (b : Bucket) (now : Int) : Bool := l.idleEvictMs < now - b.lastTouched

/-- A new object; it is at the next address. -/
def newBucket (capacity refillPerSec : ℚ) (now : Int) : Bucket where
  tokens := capacity
  lastRefill := now
  capacity
  refillPerSec
  lastTouched := now

def addBucket (l : RateLimiter) (p : Picked) (now : Int) : Nat × Bucket × RateLimiter :=
  let b := newBucket p.capacity p.refillPerSec now
  (l.heap.length, b, { l with
    heap := l.heap ++ [b], buckets := l.buckets.set (p.key, l.heap.length) })

def overflowBucket (l : RateLimiter) (p : Picked) (now : Int) : Nat × Bucket × RateLimiter :=
  match l.deref (l.overflowBuckets.get? (p.capacity, p.refillPerSec)) with
  | some (addr, b) =>
    let b := { b with lastTouched := now }
    (addr, b, { l with heap := l.heap.set addr b })
  | none =>
    let b := newBucket p.capacity p.refillPerSec now
    (l.heap.length, b, { l with
      heap := l.heap ++ [b]
      overflowBuckets := l.overflowBuckets.set ((p.capacity, p.refillPerSec), l.heap.length) })

/-- The address of the bucket, and what is there. -/
def getBucket (l : RateLimiter) (p : Picked) (now : Int) : Nat × Bucket × RateLimiter :=
  match l.deref (l.buckets.get? p.key) with
  | some (addr, b) =>
    let b := { b with
      capacity := p.capacity, refillPerSec := p.refillPerSec, lastTouched := now }
    (addr, b, { l with
      heap := l.heap.set addr b, buckets := (l.buckets.erase p.key).set (p.key, addr) })
  | none =>
    if l.maxEntries ≤ l.buckets.rows.length then
      match l.buckets.rows.head? with
      | some lru =>
        if (l.deref (some lru)).any fun (_, b) => l.idle b now then
          addBucket { l with buckets := l.buckets.erase lru.1 } p now
        else l.overflowBucket p now
      | none => l.overflowBucket p now
    else l.addBucket p now

/-- The callback of the timer. -/
def evictIdle (l : RateLimiter) (now : Int) : RateLimiter :=
  { l with
    buckets := l.buckets.filter fun row => !(l.deref (some row)).any fun (_, b) => l.idle b now
    overflowBuckets :=
      l.overflowBuckets.filter fun row => !(l.deref (some row)).any fun (_, b) => l.idle b now }

namespace Bucket

def refill (b : Bucket) (now : Int) : Bucket :=
  let elapsedSec : ℚ := (now - b.lastRefill : ℤ) / 1000
  if 0 < elapsedSec then
    { b with
      tokens := min b.capacity (b.tokens + elapsedSec * b.refillPerSec), lastRefill := now }
  else b

def retryAfterMs (b : Bucket) (idleEvictMs : Int) : Int :=
  if 0 < b.refillPerSec then ⌈((1 - b.tokens) / b.refillPerSec) * 1000⌉ else idleEvictMs

/-- The time to wait if there is no token, and the bucket afterwards. -/
def take (b : Bucket) (idleEvictMs now : Int) : Option Int × Bucket :=
  let b := b.refill now
  if b.tokens < 1 then (some (b.retryAfterMs idleEvictMs), b)
  else (none, { b with tokens := b.tokens - 1 })

end Bucket

/-! ## Checks -/

/-- A check of a bucket. -/
structure Check where
  key : JsString
  capacity : ℚ
  refillPerSec : ℚ
  /-- The address of the bucket. -/
  bucket : Nat
  /-- It is an overflow bucket, not the one that `buckets` has for the key. -/
  overflow : Bool
  /-- When the bucket was looked up. -/
  touched : Int
  time : Int
  /-- Of a check that is rejected. -/
  retryAfterMs : Option Int
deriving DecidableEq

def checkBucket (l : RateLimiter) (p : Picked) (t₁ t₂ : Int) : Check × RateLimiter :=
  let (addr, b, l) := l.getBucket p t₁
  let (retryAfterMs, b) := b.take l.idleEvictMs t₂
  ({ key := p.key, capacity := p.capacity, refillPerSec := p.refillPerSec
     bucket := addr, overflow := (l.buckets.get? p.key).map Prod.snd ≠ some addr
     touched := t₁, time := t₂, retryAfterMs },
    { l with heap := l.heap.set addr b })

/-- The check of a bucket that `check` makes, if any. -/
def checked (l : RateLimiter) (ctx : RateLimiterKeyContext) (t₁ t₂ : Int) :
    Option (Check × RateLimiter) :=
  if l.enabled then (l.pickScope ctx).map (l.checkBucket · t₁ t₂) else none

def check (l : RateLimiter) (ctx : RateLimiterKeyContext) (t₁ t₂ : Int) :
    Except RateLimitedError Unit × RateLimiter :=
  match l.checked ctx t₁ t₂ with
  | none => (.ok (), l)
  | some (c, l) =>
    match c.retryAfterMs with
    | none => (.ok (), l)
    | some retryAfterMs =>
      (.error {
        message := JsString.lit "Rate limit exceeded for " ++ ctx.method
        topic := ctx.topic
        method := ctx.method
        callerService := ctx.callerService
        tenantId := ctx.tenantId
        retryAfterMs
        retryable := true }, l)

end RateLimiter

/-! ## Runs -/

structure LimiterRun where
  limiter : RateLimiter
  clock : Int
  checks : List RateLimiter.Check := []

inductive LimiterAction
  | check (ctx : RateLimiterKeyContext) (t₁ t₂ : Int)
  | evictIdle (now : Int)

/-- The clock does not go back. -/
def LimiterRun.step (s : LimiterRun) : LimiterAction → Option LimiterRun
  | .check ctx t₁ t₂ =>
    if s.clock ≤ t₁ ∧ t₁ ≤ t₂ then
      some {
        limiter := (s.limiter.check ctx t₁ t₂).2
        clock := t₂
        checks := s.checks ++ ((s.limiter.checked ctx t₁ t₂).map Prod.fst).toList }
    else none
  | .evictIdle now =>
    if s.clock ≤ now then some { s with limiter := s.limiter.evictIdle now, clock := now }
    else none

def limiterMachine (limiter : RateLimiter) (start : Int) : Machine LimiterRun LimiterAction where
  init := { limiter, clock := start }
  step := LimiterRun.step

end NevoMessaging
