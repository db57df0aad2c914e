import Kernway.HttpPrefix
import Kernway.HttpTransfer

namespace Kernway

structure KeepAliveConfig where
  enabled : Bool
  maxRequests : UInt32

/-- The tokens of a comma-separated header value. -/
def hasToken (value token : Text) : Bool :=
  (value.splitOn ',').any fun v => eqIgnoreAsciiCase (trim v) token

def Request.wantsKeepAlive (request : Request) : Bool :=
  match request.headers.get "connection".toList with
  | some value =>
    if hasToken value "close".toList then false
    else if hasToken value "keep-alive".toList then true
    else request.version == .http11
  | none => request.version == .http11

/-- Whether the connection stays open after its request number `served`. -/
def persists (keepAlive : KeepAliveConfig) (request : Request) (served : UInt32)
    (shutdown : Bool) : Bool :=
  keepAlive.enabled && request.wantsKeepAlive && decide (served < keepAlive.maxRequests) && !shutdown

def Connection.of (persist : Bool) : Connection := if persist then .keepAlive else .close

/-- The connection after a response: what has been written to it if it is used again. -/
def afterResponse (persist : Bool) : Except Wire Wire → Option Wire
  | .error _ => none
  | .ok wire => if persist then some wire else none

/-- A response leaves a connection in use only behind a whole body, whatever the peer takes of it,
exactly where its body is there to be sent. -/
theorem kept_alive_framed_iff (host : Host) (response : Response) (isHead persist : Bool) :
    (∀ socket fuel wire result wire',
      writeResponse host socket response (.of persist) isHead fuel wire = some result →
      afterResponse persist result = some wire' →
      Framed response (.of persist) isHead wire wire') ↔
    (persist = true → isHead = false → response.body.Delivers host) := by
  constructor
  · rintro hall rfl rfl
    by_contra hshort
    obtain ⟨fuel, wire', hwrite, hunframed⟩ := writeResponse_short hshort (.of true) {}
    exact hunframed (hall _ fuel {} _ wire' hwrite rfl)
  · intro hdelivers socket fuel wire result wire' hwrite hafter
    cases result with
    | error _ => cases hafter
    | ok wire₁ =>
      cases persist with
      | false => cases hafter
      | true =>
        obtain rfl : wire₁ = wire' := Option.some.inj hafter
        refine writeResponse_framed ?_ hwrite
        cases isHead with
        | true => exact .inl rfl
        | false => exact .inr (hdelivers rfl rfl)

/-- A host whose one file has five bytes. -/
def shortHost : Host where
  «open» _ := some ⟨[104, 101, 108, 108, 111], false⟩
  given _ := 4096
  fileChunk := 262144
  fileChunk_pos := by decide

/-- Ten bytes announced of a file of five leave the connection in use five bytes behind. -/
theorem not_kept_alive_framed : ¬ ∀ (response : Response) (isHead persist : Bool) (socket : Socket)
    (fuel : Nat) (wire : Wire) (result : Except Wire Wire) (wire' : Wire),
    writeResponse shortHost socket response (.of persist) isHead fuel wire = some result →
    afterResponse persist result = some wire' →
    Framed response (.of persist) isHead wire wire' := by
  intro hall
  let response : Response := ⟨200, {}, .file [102] 10 none⟩
  have hshort : ¬ response.body.Delivers shortHost := by
    rintro (hzero | ⟨file, hopen, hle⟩)
    · exact absurd hzero (by decide)
    · obtain rfl := Option.some.inj hopen
      exact absurd hle (by decide)
  obtain ⟨fuel, wire', hwrite, hunframed⟩ := writeResponse_short hshort (.of true) {}
  exact hunframed (hall _ false true _ fuel {} _ wire' hwrite rfl)

end Kernway
