import Kernway.Jwt
import Kernway.SecurityGate

namespace Kernway

open Kernleaf (Authorization)

/-- What the policy asks a context; `BearerAuth` gives nobody any authorities. -/
def SecurityContext.authorization (context : SecurityContext) : Authorization :=
  ⟨context.authenticated, context.roles.contains, fun _ => false⟩

/-- What an access rule asks of the roles of somebody who is known. -/
def Access.Grants (roles : List Text) : Access → Prop
  | .permitAll | .authenticated => True
  | .hasRole role => role ∈ roles
  | .hasAnyRole any => ∃ role ∈ any, role ∈ roles
  | .hasAuthority _ | .hasAnyAuthority _ | .denyAll => False

theorem decideAccess_eq_allow_iff {access : Access} {context : SecurityContext} :
    decideAccess access context.authorization = .allow ↔
      access = .permitAll ∨ context.authenticated = true ∧ access.Grants context.roles := by
  cases hknown : context.authenticated with
  | false =>
    cases access <;> simp [decideAccess, SecurityContext.authorization, hknown]
  | true =>
    cases access with
    | permitAll => simp [decideAccess]
    | authenticated => simp [decideAccess, SecurityContext.authorization, hknown, Access.Grants]
    | hasRole role =>
      by_cases hrole : role ∈ context.roles <;>
        simp [decideAccess, SecurityContext.authorization, hknown, Access.Grants, hrole]
    | hasAnyRole any =>
      by_cases hany : ∃ role ∈ any, role ∈ context.roles <;>
        simp [decideAccess, SecurityContext.authorization, hknown, Access.Grants, hany]
    | hasAuthority | hasAnyAuthority | denyAll =>
      simp [decideAccess, SecurityContext.authorization, hknown, Access.Grants]

/-- A request scope that middlewares put a security context into. -/
structure ContextScope (S : Type) extends View S where
  setContext : SecurityContext → S → S
  context_setContext : ∀ c s, context (setContext c s) = some c.authorization

namespace Jwt

/-- `Claims::role_list`. -/
def Claims.roleList (claims : Claims) : List Text :=
  match claims.custom.lookup "roles".toList with
  | some (.array parts) => parts.filterMap fun part =>
    match part with
    | .string role => some role
    | _ => none
  | _ => []

/-- The token of an `Authorization: Bearer` header. -/
def bearerToken (request : Request) : Option Text := do
  let header ← request.header "authorization".toList
  let (scheme, token) ← cutText [' '] header
  if eqIgnoreAsciiCase scheme "bearer".toList then some (trim token) else none

structure BearerAuth where
  key : Bytes
  validation : Validation

variable {S : Type} (codec : Codec)

namespace BearerAuth

def claims (auth : BearerAuth) (now : UInt64) (request : Request) : Option Claims := do
  let token ← bearerToken request
  (decodeWith codec auth.key token now auth.validation).toOption

/-- A token that does not hold makes the request an anonymous one. -/
def context (auth : BearerAuth) (now : UInt64) (request : Request) : SecurityContext :=
  match auth.claims codec now request with
  | some claims => .ofUser (claims.sub.getD []) claims.roleList
  | none => .anonymous

def middleware (scope : ContextScope S) (auth : BearerAuth) (now : UInt64) : Middleware S where
  handle request s :=
    .next request (scope.setContext (auth.context codec now request) s) fun outcome s =>
      (outcome, s)

end BearerAuth

/-- A request with a token of this key, whose claims are valid. -/
def Bears (auth : BearerAuth) (now : UInt64) (request : Request) (claims : Claims) : Prop :=
  ∃ token, bearerToken request = some token ∧ Signed codec auth.key token claims ∧
    claims.Valid now auth.validation

variable {codec} {auth : BearerAuth} {now : UInt64} {request : Request}

theorem claims_eq_some_iff {claims : Claims} :
    auth.claims codec now request = some claims ↔ Bears codec auth now request claims := by
  unfold BearerAuth.claims Bears
  simp only [Option.bind_eq_bind, Option.bind_eq_some_iff]
  refine exists_congr fun token => and_congr_right fun _ => ?_
  constructor
  · intro h
    cases hdecode : decodeWith codec auth.key token now auth.validation with
    | error err =>
      rw [hdecode] at h
      cases h
    | ok decoded =>
      rw [hdecode] at h
      cases h
      exact signed_of_decodeWith hdecode
  · rintro ⟨hsigned, hvalid⟩
    rw [hsigned.decodeWith hvalid]
    rfl

theorem arrive_eq (parseIp : Text → Option IpAddr) (scope : ContextScope S) (layer : SecurityLayer)
    (s : S) :
    arrive [auth.middleware codec scope now,
        (Guard.security layer).middleware parseIp scope.toView] request s =
      if decideAccess (layer.accessFor request.method request.path)
          (auth.context codec now request).authorization = .allow then
        some (request, scope.setContext (auth.context codec now request) s)
      else none := by
  have hdecision : layer.decision scope.toView request
      (scope.setContext (auth.context codec now request) s) =
        decideAccess (layer.accessFor request.method request.path)
          (auth.context codec now request).authorization := by
    unfold SecurityLayer.decision
    rw [scope.context_setContext]
    rfl
  simp only [arrive, BearerAuth.middleware, Guard.middleware, SecurityLayer.handle, hdecision]
  cases decideAccess (layer.accessFor request.method request.path)
    (auth.context codec now request).authorization with
  | allow => rfl
  | unauthenticated => cases layer.loginRedirect <;> rfl
  | forbidden => rfl

/-- Behind `BearerAuth` and a policy, a request arrives at a route that is not open to all exactly
with a token of the key, valid claims and the roles that the route asks for, and under the name of
its subject. -/
theorem bearer_arrive_iff (parseIp : Text → Option IpAddr) (scope : ContextScope S)
    {layer : SecurityLayer}
    (haccess : layer.accessFor request.method request.path ≠ .permitAll) {s s' : S}
    {request' : Request} :
    arrive [auth.middleware codec scope now,
        (Guard.security layer).middleware parseIp scope.toView] request s = some (request', s') ↔
      ∃ claims, Bears codec auth now request claims ∧
        (layer.accessFor request.method request.path).Grants claims.roleList ∧
        request' = request ∧
        s' = scope.setContext (.ofUser (claims.sub.getD []) claims.roleList) s := by
  rw [arrive_eq, Option.ite_none_right_eq_some, decideAccess_eq_allow_iff,
    or_iff_right haccess]
  constructor
  · rintro ⟨⟨hknown, hgrants⟩, harrived⟩
    cases hclaims : auth.claims codec now request with
    | none =>
      rw [BearerAuth.context, hclaims] at hknown
      cases hknown
    | some claims =>
      rw [BearerAuth.context, hclaims] at hgrants harrived
      cases harrived
      exact ⟨claims, claims_eq_some_iff.1 hclaims, hgrants, rfl, rfl⟩
  · rintro ⟨claims, hbears, hgrants, rfl, rfl⟩
    rw [BearerAuth.context, claims_eq_some_iff.2 hbears]
    exact ⟨⟨rfl, hgrants⟩, rfl⟩

/-- A scope that holds nothing but the context. -/
def lastContext : ContextScope (Option SecurityContext) where
  context := Option.map SecurityContext.authorization
  bans _ := ⟨[]⟩
  setContext context _ := some context
  context_setContext _ _ := rfl

theorem bearer_arrive_iff_report :
    arrive [BearerAuth.middleware emptyCodec lastContext ⟨[107], {}⟩ 100,
        (Guard.security ⟨[], .authenticated, none⟩).middleware (fun _ => none) lastContext.toView]
        reportRequest none = some (reportRequest, some .anonymous) ↔
      ∃ claims, Bears emptyCodec ⟨[107], {}⟩ 100 reportRequest claims ∧
        Access.authenticated.Grants claims.roleList ∧ reportRequest = reportRequest ∧
        some .anonymous =
          lastContext.setContext (.ofUser (claims.sub.getD []) claims.roleList) none :=
  bearer_arrive_iff _ lastContext (by decide)

end Jwt

end Kernway
