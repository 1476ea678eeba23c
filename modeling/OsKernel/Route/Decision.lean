import OsKernel.Route.Lookup

/-!
# What `route_packet` decides

`route_packet` looks the destination up once.  The entry either is a direct one,
and the packet goes to the destination itself, or names a gateway, and the
packet goes there.  A gateway is of use only if it can be reached directly.
`GatewaysOnLink` asks this of the entries: every gateway is in the network of a
direct entry whose prefix is longer than that of any entry with a gateway that
also covers it.  Then the next hop of every decision is delivered by one more
lookup, whatever the destination, so no chain of gateways and no loop can arise
(`next_hop_delivered`).

`src_ip` is not used by the source either.
-/

namespace OsKernel
namespace Route

/-- `route_action`. -/
inductive RouteAction
  | deliver
  | forward
  | drop
  | «local»
  deriving DecidableEq, Repr

/-- `route_decision`. -/
structure RouteDecision where
  action : RouteAction
  route : Option RouteEntry
  nextHop : BitVec 32
  reason : String
  deriving DecidableEq, Repr

/-- `route_packet`. -/
def routePacket (table : List RouteEntry) (_srcIp dstIp : BitVec 32)
    (isLocal : Bool) : RouteDecision :=
  if !isLocal then
    match (lookupRoute table dstIp).entry with
    | none => ⟨.drop, none, 0, "无到目标网络的路由"⟩
    | some r =>
        if r.gw = 0 then ⟨.deliver, some r, dstIp, "直连网络，直接 ARP"⟩
        else ⟨.forward, some r, r.gw, "非直连，走网关"⟩
  else
    match (lookupRoute table dstIp).entry with
    | none => ⟨.local, none, 0, "本机生成，查路由表决定出口"⟩
    | some r =>
        ⟨.local, some r, if r.gw ≠ 0 then r.gw else dstIp,
          "本机生成，查路由表决定出口"⟩

section Decision

variable {table : List RouteEntry} {srcIp dstIp : BitVec 32} {isLocal : Bool}

/-- With an entry for the destination, the decision has that entry and goes to
its gateway or, without one, to the destination, whoever sends the packet. -/
theorem routePacket_of_some {r : RouteEntry}
    (hfound : (lookupRoute table dstIp).entry = some r) :
    (routePacket table srcIp dstIp isLocal).route = some r ∧
      (routePacket table srcIp dstIp isLocal).nextHop =
        (if r.gw = 0 then dstIp else r.gw) := by
  unfold routePacket
  rw [hfound]
  cases isLocal with
  | true =>
      refine ⟨rfl, ?_⟩
      show (if r.gw ≠ 0 then r.gw else dstIp) = _
      rw [ite_not]
  | false =>
      by_cases hgw : r.gw = 0
      · simp [hgw]
      · have hgw' : ¬ r.gw = 0#32 := hgw
        simp [hgw']

/-- A decision with a route has the entry that was found. -/
theorem lookupRoute_of_route {r : RouteEntry}
    (hroute : (routePacket table srcIp dstIp isLocal).route = some r) :
    (lookupRoute table dstIp).entry = some r := by
  cases hfound : (lookupRoute table dstIp).entry with
  | none =>
      unfold routePacket at hroute
      rw [hfound] at hroute
      cases isLocal with
      | true => cases hroute
      | false => cases hroute
  | some s => rw [← hroute, (routePacket_of_some hfound).1]

/-- A destination with a direct entry is delivered. -/
theorem routePacket_of_direct {r : RouteEntry}
    (hfound : (lookupRoute table dstIp).entry = some r) (hgw : r.gw = 0) :
    routePacket table srcIp dstIp false =
      ⟨.deliver, some r, dstIp, "直连网络，直接 ARP"⟩ := by
  unfold routePacket
  rw [hfound]
  exact if_pos hgw

theorem isLongest_of_lookupRoute {r : RouteEntry}
    (hfound : (lookupRoute table dstIp).entry = some r) :
    IsLongest table dstIp r := by
  rw [lookupRoute_eq, RouteResult.report_entry] at hfound
  exact isLongest_of_longest hfound

end Decision

/-- Every gateway of the table is in the network of a direct entry, and no entry
with a gateway covers it with as long a prefix. -/
def GatewaysOnLink (table : List RouteEntry) : Prop :=
  ∀ r ∈ table, r.gw ≠ 0 →
    ∃ s ∈ table, s.gw = 0 ∧ s.Matches r.gw ∧
      ∀ t ∈ table, t.gw ≠ 0 → t.Matches r.gw →
        prefixLen t.mask < prefixLen s.mask

instance (table : List RouteEntry) : Decidable (GatewaysOnLink table) :=
  inferInstanceAs (Decidable (∀ r ∈ table, _))

/-- The longest prefix that covers a gateway is then that of a direct entry. -/
theorem GatewaysOnLink.lookup {table : List RouteEntry}
    (h : GatewaysOnLink table) {r : RouteEntry} (hr : r ∈ table)
    (hgw : r.gw ≠ 0) :
    ∃ s, (lookupRoute table r.gw).entry = some s ∧ s.gw = 0 := by
  obtain ⟨direct, hdirect, -, hcovers, hlonger⟩ := h r hr hgw
  cases hfound : (lookupRoute table r.gw).entry with
  | none =>
      rw [lookupRoute_eq, RouteResult.report_entry, longest_eq_none] at hfound
      exact absurd hcovers (hfound direct hdirect)
  | some s =>
      have hlongest := isLongest_of_lookupRoute hfound
      refine ⟨s, rfl, ?_⟩
      by_contra hother
      have hshorter := hlonger s hlongest.mem hother hlongest.hits
      have hmaximal := hlongest.maximal direct hdirect hcovers
      omega

/-- If the gateways of a table can be reached directly, the next hop of every
decision with a route is delivered to itself by a direct entry. -/
theorem next_hop_delivered {table : List RouteEntry}
    (hgateways : GatewaysOnLink table) {srcIp dstIp : BitVec 32}
    {isLocal : Bool} {r : RouteEntry}
    (hroute : (routePacket table srcIp dstIp isLocal).route = some r) :
    ∃ s ∈ table, s.gw = 0 ∧
      ∀ src, routePacket table src
          (routePacket table srcIp dstIp isLocal).nextHop false =
        ⟨.deliver, some s, (routePacket table srcIp dstIp isLocal).nextHop,
          "直连网络，直接 ARP"⟩ := by
  have hfound := lookupRoute_of_route hroute
  rw [(routePacket_of_some hfound).2]
  by_cases hgw : r.gw = 0
  · rw [if_pos hgw]
    exact ⟨r, (isLongest_of_lookupRoute hfound).mem, hgw,
      fun src => routePacket_of_direct hfound hgw⟩
  · obtain ⟨s, hs, hdirect⟩ :=
      hgateways.lookup (isLongest_of_lookupRoute hfound).mem hgw
    rw [if_neg hgw]
    exact ⟨s, (isLongest_of_lookupRoute hs).mem, hdirect,
      fun src => routePacket_of_direct hs hdirect⟩

/-- The built-in table: the gateway for a packet to `192.168.2.99` is on
`192.168.1.0/24`. -/
theorem next_hop_delivered_kernelRoutes :
    ∃ s ∈ kernelRoutes, s.gw = 0 ∧
      ∀ src, routePacket kernelRoutes src
          (routePacket kernelRoutes 0xC0A80101 0xC0A80263 false).nextHop false =
        ⟨.deliver, some s,
          (routePacket kernelRoutes 0xC0A80101 0xC0A80263 false).nextHop,
          "直连网络，直接 ARP"⟩ :=
  next_hop_delivered (show GatewaysOnLink kernelRoutes by decide)
    (r := ⟨0, 0, 0xC0A80101, 0xC0A80101, 100⟩) (by decide)

end Route
end OsKernel
