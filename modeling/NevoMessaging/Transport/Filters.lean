import NevoMessaging.Lib.JsNumber
import NevoMessaging.Lib.JsValue

/-!
# What a subscription asks for

A subscription names a method, with or without a version, and may have a filter and a room. The
clients check a message against them after it has come in.

What the checks use of the language is a `Host`: reading a JSON text, properties, texts of values
and regular expressions.
-/

namespace NevoMessaging.Subscribe

open JsString

/-! ## Methods -/

/-- `parseMethod(method).name`: what stands in front of the last `@`. -/
def methodName (method : JsString) : JsString :=
  if unit '@' ∈ method then (method.rdropWhile (· ≠ unit '@')).dropLast else method

def formatMethod (name : JsString) (version : Option JsString) : JsString :=
  match JsString.truthy version with
  | none => name
  | some version => name ++ unit '@' :: version

/-- The method that is written into a message; `version` is the one of the call or the default. -/
def versionedMethod (method : JsString) (version : Option JsString) : JsString :=
  if unit '@' ∈ method then method else formatMethod method version

theorem methodName_versionedMethod {method : JsString} {version : Option JsString}
    (hm : unit '@' ∉ method) (hv : ∀ v ∈ version, unit '@' ∉ v) :
    methodName (versionedMethod method version) = method := by
  rw [versionedMethod, if_neg hm, formatMethod]
  cases hversion : JsString.truthy version with
  | none => exact if_neg hm
  | some v =>
    have hmem : v ∈ version := (Option.mem_filter_iff.mp hversion).1
    have hdrop : v.rdropWhile (· ≠ unit '@') = [] := by
      rw [List.rdropWhile_eq_nil_iff]
      intro u hu
      exact decide_eq_true fun h => hv v hmem (h ▸ hu)
    have hlast : (method ++ [unit '@'] ++ v).rdropWhile (· ≠ unit '@') = method ++ [unit '@'] := by
      rw [List.rdropWhile, List.reverse_append, List.dropWhile_append]
      rw [List.rdropWhile, List.reverse_eq_nil_iff] at hdrop
      rw [hdrop]
      simp
    show methodName (method ++ unit '@' :: v) = method
    rw [methodName, if_pos (by simp), List.append_cons, hlast, List.dropLast_concat]

/-! ## Filters -/

/-- Regular expressions may have a state: with the flags `g` and `y`, `test` goes on from where the
last match ended. -/
structure Host (σ ρ : Type) where
  /-- Nothing if it throws. -/
  parseWithBigInt : JsString → Option JsValue
  /-- What `v[key]` is for a value that is neither `null` nor `undefined`. -/
  property : JsValue → JsString → JsValue
  /-- `String(v)`, nothing if it throws. -/
  string : JsValue → Option JsString
  truthy : JsValue → Bool
  test : ρ → JsString → σ → Bool × σ

/-- A computation that may throw and may move the regular expressions. -/
abbrev HostM (σ : Type) := StateT σ Option

inductive Expected (ρ : Type)
  | text (s : JsString)
  | regExp (r : ρ)

structure SubscriptionFilter (ρ : Type) where
  headers : Option (List (JsString × Expected ρ))
  «meta» : Option (List (JsString × Expected ρ))

structure Subscription (ρ : Type) where
  method : JsString
  filter : Option (SubscriptionFilter ρ)
  room : Option JsString

variable {σ ρ : Type} (host : Host σ ρ)

/-- `v.key`, which throws for `null` and `undefined`. -/
def Host.member (v : JsValue) (key : String) : HostM σ JsValue :=
  match v with
  | .null | .undefined => StateT.lift none
  | v => pure (host.property v (lit key))

/-- `v?.key` -/
def Host.member? (v : JsValue) (key : String) : JsValue :=
  match v with
  | .null | .undefined => .undefined
  | v => host.property v (lit key)

def matchesHeaders (headers : JsValue) : List (JsString × Expected ρ) → HostM σ Bool
  | [] => pure true
  | (k, expected) :: rest =>
    match host.property headers k, expected with
    | .undefined, _ => pure false
    | actual, .regExp r => do
      let text ← StateT.lift (host.string actual)
      if ← fun s => some (host.test r text s) then matchesHeaders headers rest else pure false
    | .str actual, .text s => if s ≠ actual then pure false else matchesHeaders headers rest
    | _, .text _ => pure false

def matchesMeta (value : JsValue) : List (JsString × Expected ρ) → HostM σ Bool
  | [] => pure true
  | (k, expected) :: rest => do
    let text ← match host.property value k with
      | .null | .undefined => pure []
      | actual => StateT.lift (host.string actual)
    match expected with
    | .regExp r =>
      if ← fun s => some (host.test r text s) then matchesMeta value rest else pure false
    | .text s => if s ≠ text then pure false else matchesMeta value rest

def matchesFilter (filter : Option (SubscriptionFilter ρ)) (value : JsValue) : HostM σ Bool :=
  match filter with
  | none => pure true
  | some filter => do
    let headers := host.member? value "headers"
    if ← match filter.headers with
      | none => pure true
      | some expected =>
        if host.truthy headers then matchesHeaders host headers expected else pure false
    then match filter.meta with
      | none => pure true
      | some expected =>
        if host.truthy value then matchesMeta host value expected else pure false
    else pure false

end NevoMessaging.Subscribe
