import NevoMessaging.Lib.JsString

/-!
# Idempotency keys

The scope of a key is written in front of it, every part behind its length. The parts may contain
digits, colons and bars, so no separator tells them apart, but their lengths do.

Results:
1. `serverIdempotencyKey_inj`, `clientIdempotencyKey_inj`: a key determines its parts.
2. `idempotency_keys_injective`: both of them.
-/

namespace NevoMessaging

open JsString

def clientIdempotencyKey (serviceName method idempotencyKey : JsString) : JsString :=
  framed serviceName ++ unit '|' :: (framed method ++ unit '|' :: idempotencyKey)

structure ServerIdempotencyKeyInput where
  callerService : Option JsString := none
  tenantId : Option JsString := none
  method : JsString
  suppliedKey : Option JsString := none
  envelopeUuid : Option JsString := none

namespace ServerIdempotencyKeyInput

/-- The supplied key if it is not empty, else the uuid of the envelope. -/
def base (input : ServerIdempotencyKeyInput) : Option JsString :=
  truthy input.suppliedKey <|> truthy input.envelopeUuid

def caller (input : ServerIdempotencyKeyInput) : JsString := input.callerService.getD []

def tenant (input : ServerIdempotencyKeyInput) : JsString := input.tenantId.getD []

end ServerIdempotencyKeyInput

/-- There is no key for a request with neither a supplied key nor a uuid. -/
def serverIdempotencyKey (input : ServerIdempotencyKeyInput) : Option JsString :=
  input.base.map fun base =>
    framed input.caller ++ unit '|' ::
      (framed input.tenant ++ unit '|' :: (framed input.method ++ unit '|' :: base))

theorem clientIdempotencyKey_inj {s m k s' m' k' : JsString}
    (h : clientIdempotencyKey s m k = clientIdempotencyKey s' m' k') :
    s = s' ∧ m = m' ∧ k = k' := by
  unfold clientIdempotencyKey at h
  obtain ⟨hs, hrest⟩ := framed_append_inj h
  obtain ⟨hm, hrest⟩ := framed_append_inj (List.cons.inj hrest).2
  exact ⟨hs, hm, (List.cons.inj hrest).2⟩

theorem serverIdempotencyKey_inj {a b : ServerIdempotencyKeyInput} {key : JsString}
    (ha : serverIdempotencyKey a = some key) (hb : serverIdempotencyKey b = some key) :
    a.caller = b.caller ∧ a.tenant = b.tenant ∧ a.method = b.method ∧ a.base = b.base := by
  obtain ⟨base, hbase, rfl⟩ := Option.map_eq_some_iff.mp ha
  obtain ⟨base', hbase', heq⟩ := Option.map_eq_some_iff.mp hb
  obtain ⟨hcaller, hrest⟩ := framed_append_inj heq
  obtain ⟨htenant, hrest⟩ := framed_append_inj (List.cons.inj hrest).2
  obtain ⟨hmethod, hrest⟩ := framed_append_inj (List.cons.inj hrest).2
  refine ⟨hcaller.symm, htenant.symm, hmethod.symm, ?_⟩
  rw [hbase, hbase', (List.cons.inj hrest).2]

/-- Two requests with one key agree on everything that is in it, on the server and in the client. -/
theorem idempotency_keys_injective :
    (∀ (a b : ServerIdempotencyKeyInput) (key : JsString), serverIdempotencyKey a = some key →
      serverIdempotencyKey b = some key →
        a.callerService.getD [] = b.callerService.getD [] ∧
        a.tenantId.getD [] = b.tenantId.getD [] ∧ a.method = b.method ∧
        (truthy a.suppliedKey <|> truthy a.envelopeUuid) =
          (truthy b.suppliedKey <|> truthy b.envelopeUuid)) ∧
    ∀ s m k s' m' k' : JsString,
      clientIdempotencyKey s m k = clientIdempotencyKey s' m' k' → s = s' ∧ m = m' ∧ k = k' :=
  ⟨fun _ _ _ ha hb => serverIdempotencyKey_inj ha hb,
    fun _ _ _ _ _ _ h => clientIdempotencyKey_inj h⟩

/-- A retry of a call: the same supplied key in another envelope. -/
def retriedCall (uuid : String) : ServerIdempotencyKeyInput where
  callerService := some (lit "web")
  tenantId := none
  method := lit "1:m|2"
  suppliedKey := some (lit "k|1:")
  envelopeUuid := some (lit uuid)

theorem idempotency_keys_injective_retry :
    ∃ key, serverIdempotencyKey (retriedCall "u1") = some key ∧
      serverIdempotencyKey (retriedCall "u2") = some key ∧
      (retriedCall "u1").base = (retriedCall "u2").base ∧
      lit "or" ++ lit "ders" = lit "orders" := by
  obtain ⟨key, hkey⟩ := Option.isSome_iff_exists.mp
    (show (serverIdempotencyKey (retriedCall "u1")).isSome by decide +kernel)
  have hsame : serverIdempotencyKey (retriedCall "u2") = serverIdempotencyKey (retriedCall "u1") :=
    by decide +kernel
  have hinj := idempotency_keys_injective.1 _ _ key hkey (hsame.trans hkey)
  have hclient : clientIdempotencyKey (lit "or" ++ lit "ders") (lit "m") (lit "k") =
      clientIdempotencyKey (lit "orders") (lit "m") (lit "k") := by decide +kernel
  exact ⟨key, hkey, hsame.trans hkey, hinj.2.2.2,
    (idempotency_keys_injective.2 _ _ _ _ _ _ hclient).1⟩

end NevoMessaging
