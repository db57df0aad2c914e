import Kernway.BanRules

namespace Kernway

variable (trusted : List IpAddr)

/-- A hop that names a trusted proxy. -/
def IsProxy (hop : Text) : Prop := ∃ ip ∈ trusted, IpAddr.parse (trim hop) = some ip

/-- The header that arrives when an outside client has sent this front of it, or none, and the
proxies have added these hops. -/
def forwardedBy (front : Option Text) (hops : List Text) : Text :=
  match front with
  | none => [','].intercalate hops
  | some front => front ++ ',' :: [','].intercalate hops

/-- The address of a client whose hop is the last before those of the proxies. -/
def clientBehind (remoteAddr : Option SocketAddr) (hop : Text) (proxies : List Text)
    (front : Option Text) : Option IpAddr :=
  clientIp IpAddr.parse remoteAddr (some (forwardedBy front (hop :: proxies))) trusted

/-- An untrusted peer is the client, else the hop before the proxies is, whatever the client has
sent to stand before it. -/
def NearestHop (remoteAddr : Option SocketAddr) (hop : Text) (proxies : List Text) : Prop :=
  ∀ peer, remoteAddr.bind SocketAddr.ipAddr = some peer →
    (peer ∉ trusted → ∀ front, clientBehind trusted remoteAddr hop proxies front = some peer) ∧
    (peer ∈ trusted → ∀ ip, IpAddr.parse (trim hop) = some ip →
      ∀ front, clientBehind trusted remoteAddr hop proxies front = some ip) ∧
    ∀ front front', clientBehind trusted remoteAddr hop proxies front =
      clientBehind trusted remoteAddr hop proxies front'

variable {trusted} {remoteAddr : Option SocketAddr} {peer : IpAddr} {hop : Text} {proxies : List Text}

/-- The address that an entry of the header is taken for. -/
def hopOf (trusted : List IpAddr) (entry : Text) : Option IpAddr :=
  (IpAddr.parse (trim entry)).bind fun ip => if ip ∈ trusted then none else some ip

theorem splitOn_forwardedBy (front : Option Text) {hops : List Text} (hne : hops ≠ [])
    (h : ∀ hop ∈ hops, ',' ∉ hop) : (forwardedBy front hops).splitOn ',' =
      (front.map fun front => front.splitOn ',').getD [] ++ hops := by
  cases front with
  | none => exact List.splitOn_intercalate ',' h hne
  | some front =>
    rw [forwardedBy, List.splitOn_append_cons_self, List.splitOn_intercalate ',' h hne]
    rfl

theorem hopOf_proxy {entry : Text} (h : IsProxy trusted entry) : hopOf trusted entry = none := by
  obtain ⟨ip, hip, hparse⟩ := h
  rw [hopOf, hparse, Option.bind_some, if_pos hip]

/-- The proxies are passed, and the hop before them, if it reads as an address, is the client. -/
theorem clientBehind_eq (hpeer : remoteAddr.bind SocketAddr.ipAddr = some peer)
    (hcomma : ∀ entry ∈ hop :: proxies, ',' ∉ entry) (hproxies : ∀ entry ∈ proxies, IsProxy trusted entry)
    (front : Option Text) : clientBehind trusted remoteAddr hop proxies front =
      if peer ∈ trusted then
        some (((hopOf trusted hop).or
          (((front.map fun front => front.splitOn ',').getD []).reverse.findSome?
            (hopOf trusted))).getD peer)
      else some peer := by
  have hskip : proxies.reverse.findSome? (hopOf trusted) = none := by
    apply List.findSome?_eq_none_iff.mpr
    intro entry hentry
    exact hopOf_proxy (hproxies entry (List.mem_reverse.mp hentry))
  have hhops : ((forwardedBy front (hop :: proxies)).splitOn ',').reverse.findSome? (hopOf trusted) =
      (hopOf trusted hop).or
        (((front.map fun front => front.splitOn ',').getD []).reverse.findSome? (hopOf trusted)) := by
    rw [splitOn_forwardedBy front (by simp) hcomma, List.reverse_append, List.reverse_cons,
      List.append_assoc, List.findSome?_append, hskip, Option.none_or, List.findSome?_append,
      List.findSome?_singleton]
  unfold clientBehind clientIp
  rw [hpeer]
  simp only [Option.bind_eq_bind, Option.bind_some, Option.map_some, Option.getD_some, ite_not]
  split
  next => exact congrArg (fun hop => some (hop.getD peer)) hhops
  next => rfl

/-- An entry that is no address, and one that is written by the client before it. -/
theorem clientBehind_display (hpeer : remoteAddr.bind SocketAddr.ipAddr = some peer)
    (htrusted : peer ∈ trusted) (hcomma : ∀ entry ∈ hop :: proxies, ',' ∉ entry)
    (hproxies : ∀ entry ∈ proxies, IsProxy trusted entry) (hhop : hopOf trusted hop = none)
    {ip : IpAddr} (hip : ip ∉ trusted) :
    clientBehind trusted remoteAddr hop proxies (some ip.display) = some ip := by
  have hplain : ',' ∉ ip.display := fun hin => (plain_of_mem_display hin).2.1 rfl
  have hread : hopOf trusted ip.display = some ip := by
    rw [hopOf, trim_plain fun c => plain_of_mem_display, IpAddr.parse_display, Option.bind_some,
      if_neg hip]
  rw [clientBehind_eq hpeer hcomma hproxies, if_pos htrusted, hhop, Option.none_or, Option.map_some,
    Option.getD_some, List.splitOn_eq_singleton hplain, List.reverse_singleton,
    List.findSome?_singleton, hread, Option.getD_some]

/-- The client's own entries are without effect exactly when the peer is no trusted proxy, or the
hop next to the proxies reads as an address, or every address there is is trusted. -/
theorem nearestHop_iff (hcomma : ∀ entry ∈ hop :: proxies, ',' ∉ entry)
    (hproxies : ∀ entry ∈ proxies, IsProxy trusted entry) (hhop : ¬ IsProxy trusted hop) :
    NearestHop trusted remoteAddr hop proxies ↔
      ∀ peer, remoteAddr.bind SocketAddr.ipAddr = some peer → peer ∈ trusted →
        (IpAddr.parse (trim hop)).isSome = true ∨ ∀ ip, ip ∈ trusted := by
  have hread : ∀ ip, IpAddr.parse (trim hop) = some ip → hopOf trusted hop = some ip := by
    intro ip hip
    have hout : ip ∉ trusted := fun hin => hhop ⟨ip, hin, hip⟩
    rw [hopOf, hip, Option.bind_some, if_neg hout]
  constructor
  · intro h peer hpeer htrusted
    cases hparse : IpAddr.parse (trim hop) with
    | some ip => exact .inl rfl
    | none =>
      refine .inr fun ip => ?_
      by_contra hip
      have hnone : hopOf trusted hop = none := by rw [hopOf, hparse, Option.bind_none]
      have hsame := (h peer hpeer).2.2 (some ip.display) none
      rw [clientBehind_display hpeer htrusted hcomma hproxies hnone hip,
        clientBehind_eq hpeer hcomma hproxies, if_pos htrusted, hnone] at hsame
      exact hip (Option.some.inj hsame ▸ htrusted)
  · intro h peer hpeer
    have heq : ∀ front, clientBehind trusted remoteAddr hop proxies front = _ :=
      clientBehind_eq hpeer hcomma hproxies
    refine ⟨fun hout front => ?_, fun htrusted ip hip front => ?_, fun front front' => ?_⟩
    · rw [heq, if_neg hout]
    · rw [heq, if_pos htrusted, hread ip hip, Option.some_or, Option.getD_some]
    · rw [heq, heq]
      by_cases htrusted : peer ∈ trusted
      · rw [if_pos htrusted, if_pos htrusted]
        rcases h peer hpeer htrusted with hsome | hall
        · obtain ⟨ip, hip⟩ := Option.isSome_iff_exists.mp hsome
          rw [hread ip hip, Option.some_or, Option.some_or]
        · -- Nothing is taken for a hop.
          have hnone : ∀ entry, hopOf trusted entry = none := by
            intro entry
            cases hparse : IpAddr.parse (trim entry) with
            | none => rw [hopOf, hparse, Option.bind_none]
            | some ip => rw [hopOf, hparse, Option.bind_some, if_pos (hall ip)]
          have hskip : ∀ entries : List Text, entries.findSome? (hopOf trusted) = none :=
            fun entries => List.findSome?_eq_none_iff.mpr fun entry _ => hnone entry
          rw [hskip, hskip]
      · rw [if_neg htrusted, if_neg htrusted]

/-- The peer 10.0.0.2, behind which 10.0.0.1 is the other trusted proxy. -/
def secondProxy : SocketAddr := ⟨[10, 0, 0, 2], 5000⟩

def twoProxies : List IpAddr := [.v4 0x0a000001, .v4 0x0a000002]

/-- What the client has sent is not taken for the hop that the proxies have added. -/
example : clientBehind twoProxies (some secondProxy) "1.2.3.4".toList [" 10.0.0.1".toList]
    (some "6.6.6.6".toList) = some (.v4 0x01020304) := by
  decide +kernel

theorem firstProxy_isProxy : ∀ entry ∈ [" 10.0.0.1".toList], IsProxy twoProxies entry := by
  intro entry hentry
  rw [List.mem_singleton.mp hentry]
  exact ⟨.v4 0x0a000001, by decide, by decide⟩

theorem nearestHop_read : NearestHop twoProxies (some secondProxy) "1.2.3.4".toList
    [" 10.0.0.1".toList] := by
  have hparse : IpAddr.parse (trim "1.2.3.4".toList) = some (.v4 0x01020304) := by decide +kernel
  have hhop : ¬ IsProxy twoProxies "1.2.3.4".toList := by
    rintro ⟨ip, hip, hread⟩
    rw [hparse] at hread
    rw [← Option.some.inj hread] at hip
    exact absurd hip (by decide)
  refine (nearestHop_iff (by decide) firstProxy_isProxy hhop).mpr fun _ _ _ => .inl ?_
  rw [hparse]
  rfl

/-- A hop with a port does not read as an address, and the client's own entry is taken instead. -/
theorem not_nearestHop : ¬ ∀ (trusted : List IpAddr) (remoteAddr : Option SocketAddr) (hop : Text)
    (proxies : List Text), (∀ entry ∈ hop :: proxies, ',' ∉ entry) →
    (∀ entry ∈ proxies, IsProxy trusted entry) → ¬ IsProxy trusted hop →
    NearestHop trusted remoteAddr hop proxies := by
  intro hall
  have hparse : IpAddr.parse (trim "1.2.3.4:80".toList) = none := by decide +kernel
  have hhop : ¬ IsProxy twoProxies "1.2.3.4:80".toList := by
    rintro ⟨ip, hip, hread⟩
    rw [hparse] at hread
    cases hread
  have hnear := hall twoProxies (some secondProxy) "1.2.3.4:80".toList [" 10.0.0.1".toList]
    (by decide) firstProxy_isProxy hhop
  have hsame := (hnear (.v4 0x0a000002) (by decide +kernel)).2.2 (some "6.6.6.6".toList) none
  revert hsame
  decide +kernel

end Kernway
