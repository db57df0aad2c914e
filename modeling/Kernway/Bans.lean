import Kernway.HttpRequest

namespace Kernway

inductive IpAddr
  | v4 (bits : BitVec 32)
  | v6 (bits : BitVec 128)
  deriving DecidableEq

/-- The number that some bytes are, the first one highest. -/
def bigEndian (bytes : Bytes) : Nat := bytes.foldl (fun n b => 256 * n + b.toNat) 0

/-- `SocketAddr::ip`, of four or sixteen bytes. -/
def SocketAddr.ipAddr (addr : SocketAddr) : Option IpAddr :=
  if addr.ip.length = 4 then some (.v4 (.ofNat 32 (bigEndian addr.ip)))
  else if addr.ip.length = 16 then some (.v6 (.ofNat 128 (bigEndian addr.ip)))
  else none

/-- `client_ip`. How a text is read as an address is the standard library's. -/
def clientIp (parseIp : Text → Option IpAddr) (remoteAddr : Option SocketAddr)
    (forwardedFor : Option Text) (trusted : List IpAddr) : Option IpAddr := do
  let peer ← remoteAddr.bind SocketAddr.ipAddr
  if ¬ peer ∈ trusted then some peer
  else
    let entries := (forwardedFor.map fun forwarded => (forwarded.splitOn ',').reverse).getD []
    let hop := entries.findSome? fun entry =>
      (parseIp (trim entry)).bind fun ip => if ip ∈ trusted then none else some ip
    some (hop.getD peer)

def IpAddr.width : IpAddr → Nat
  | v4 _ => 32
  | v6 _ => 128

/-- A block of addresses; `parse_cidr` makes no longer prefix than the address has bits. -/
structure Cidr where
  network : IpAddr
  bits : Nat
  fits : bits ≤ network.width
  deriving DecidableEq

inductive BanRule
  | ip (addr : IpAddr)
  | subnet (cidr : Cidr)
  | userAgentExact (agent : Text)
  | userAgentContains (phrase : Text)
  | user (name : Text)
  deriving DecidableEq

/-- The bits of a prefix. -/
def prefixMask (w n : Nat) : BitVec w := if n = 0 then 0 else BitVec.allOnes w <<< (w - n)

def cidrContains (cidr : Cidr) (ip : IpAddr) : Bool :=
  match cidr.network, ip with
  | .v4 net, .v4 ip =>
    let mask := prefixMask 32 cidr.bits
    net &&& mask == ip &&& mask
  | .v6 net, .v6 ip =>
    let mask := prefixMask 128 cidr.bits
    net &&& mask == ip &&& mask
  | _, _ => false

structure BanList where
  rules : List BanRule

def BanRule.bans (ip : Option IpAddr) (userAgent : Option Text) : BanRule → Bool
  | .ip banned => ip == some banned
  | .subnet cidr => ip.any (cidrContains cidr)
  | .userAgentExact exact => userAgent == some exact
  | .userAgentContains phrase => userAgent.any fun ua => containsText (toAsciiLowercase ua) phrase
  | .user _ => false

def BanList.isBanned (bans : BanList) (ip : Option IpAddr) (userAgent : Option Text) : Bool :=
  bans.rules.any (BanRule.bans ip userAgent)

end Kernway
