import Levos.Net.Dhcp

/-!
# Choosing a route (`net/network.c`)

`net_add_route` puts each route in front of the others, and `net_route_to`
takes the first one that matches. Behind the loop it uses the pointer the loop
left: where no route matches, that is the one of the last route of the list,
and with an empty table it was never set.

What `arp_get_eth_addr` makes of an address is a parameter.
-/

namespace Levos.Net

/-! ## The table -/

/-- A call of `net_add_route`, and whether there is memory for it. -/
structure AddedRoute where
  ok : Bool
  route : Route
deriving DecidableEq, Repr

/-- The table after the calls, the first one first. -/
def netAddRoutes (routes : List Route) : List AddedRoute → List Route
  | [] => routes
  | a :: as =>
      netAddRoutes (netAddRoute a.ok routes a.route.base a.route.netmask a.route.gateway) as

/-- The test of the loop. -/
def Route.Matches (route : Route) (dst : BitVec 32) : Prop :=
  route.base &&& route.netmask = dst &&& route.netmask

instance (route : Route) (dst : BitVec 32) : Decidable (route.Matches dst) :=
  inferInstanceAs (Decidable (_ = _))

/-- The loop of `net_route_to`: the pointer `route` behind it. -/
def routeScan (dst : BitVec 32) : Option Route → List Route → Option Route
  | route, [] => route
  | _, route :: rest => if route.Matches dst then some route else routeScan dst (some route) rest

/-- The address that a route leads to. -/
def Route.hop (route : Route) (dst : BitVec 32) : BitVec 32 :=
  if route.gateway = 0 then dst else route.gateway

section Resolving

variable {ε : Type} (arpGetEthAddr : BitVec 32 → ε)

/-- `net_route_to`; `none` where `route` was never set. -/
def netRouteTo (routes : List Route) (dst : BitVec 32) : Option ε :=
  (routeScan dst none routes).map fun route =>
    if route.gateway = 0 then arpGetEthAddr dst else arpGetEthAddr route.gateway

/-! ## What the loop leaves -/

theorem routeScan_match {dst : BitVec 32} {route : Route} (hmatch : route.Matches dst) :
    ∀ (start : Option Route) (newer older : List Route), (∀ r ∈ newer, ¬r.Matches dst) →
      routeScan dst start (newer ++ route :: older) = some route
  | _, [], older, _ => by rw [List.nil_append, routeScan, if_pos hmatch]
  | _, r :: newer, older, hnone => by
      rw [List.cons_append, routeScan, if_neg (hnone r List.mem_cons_self)]
      exact routeScan_match hmatch (some r) newer older fun r' hr' =>
        hnone r' (List.mem_cons_of_mem r hr')

/-- Where nothing matches, the pointer stays on the oldest route. -/
theorem routeScan_unmatched {dst : BitVec 32} :
    ∀ (start : Option Route) (routes : List Route), (∀ r ∈ routes, ¬r.Matches dst) →
      routeScan dst start routes = (routes.getLast?).or start
  | start, [], _ => rfl
  | start, r :: rest, hnone => by
      rw [routeScan, if_neg (hnone r List.mem_cons_self),
        routeScan_unmatched (some r) rest fun r' hr' => hnone r' (List.mem_cons_of_mem r hr')]
      cases hlast : rest.getLast? with
      | none => simp [List.getLast?_eq_none_iff.mp hlast]
      | some s => simp [List.getLast?_cons, hlast]

theorem netRouteTo_of_scan {routes : List Route} {dst : BitVec 32} {route : Route}
    (h : routeScan dst none routes = some route) :
    netRouteTo arpGetEthAddr routes dst = some (arpGetEthAddr (route.hop dst)) := by
  rw [netRouteTo, h, Option.map_some, Route.hop]
  split <;> rfl

/-- No route for the destination: the answer is that of the oldest route. -/
theorem netRouteTo_unmatched {routes : List Route} {dst : BitVec 32}
    (hnone : ∀ r ∈ routes, ¬r.Matches dst) :
    netRouteTo arpGetEthAddr routes dst =
      routes.getLast?.map fun route => arpGetEthAddr (route.hop dst) := by
  have hscan := routeScan_unmatched none routes hnone
  rw [Option.or_none] at hscan
  cases hlast : routes.getLast? with
  | none =>
      rw [netRouteTo, hscan, hlast]
      rfl
  | some route => exact netRouteTo_of_scan arpGetEthAddr (hscan.trans hlast)

/-! ## The table as it was added to -/

theorem netAddRoutes_eq (added : List AddedRoute) (routes : List Route) :
    netAddRoutes routes added = ((added.filter (·.ok)).map (·.route)).reverse ++ routes := by
  induction added generalizing routes with
  | nil => rfl
  | cons a added ih =>
      rw [netAddRoutes, ih, netAddRoute]
      cases hok : a.ok <;> simp [hok]

/-- The last element with the property, and what comes behind it. -/
theorem exists_last_of_mem {α : Type} (p : α → Bool) {l : List α} (h : ∃ a ∈ l, p a) :
    ∃ older a newer, l = older ++ a :: newer ∧ p a ∧ ∀ b ∈ newer, ¬p b := by
  obtain ⟨a, ha⟩ : ∃ a, l.reverse.find? p = some a := by
    rw [← Option.isSome_iff_exists, List.find?_isSome]
    simpa using h
  obtain ⟨hpa, newer, older, hl, hnewer⟩ := List.find?_eq_some_iff_append.mp ha
  refine ⟨older.reverse, a, newer.reverse, ?_, hpa, fun b hb => ?_⟩
  · rw [← List.reverse_reverse l, hl]
    simp
  · simpa using hnewer b (List.mem_reverse.mp hb)

/-- **The route that is taken.** For every table, whatever was added in
whatever order, and every destination that a route matches, the answer is the
destination itself or the gateway of the matching route added last; where the
netmasks did not get shorter from call to call, that is a matching route with
the longest netmask. -/
theorem netRouteTo_last (added : List AddedRoute) (dst : BitVec 32)
    (hmatch : ∃ a ∈ added, a.ok = true ∧ a.route.Matches dst) :
    ∃ older a newer, added = older ++ a :: newer ∧ a.ok = true ∧ a.route.Matches dst ∧
      (∀ b ∈ newer, b.ok = true → ¬b.route.Matches dst) ∧
      netRouteTo arpGetEthAddr (netAddRoutes [] added) dst =
        some (arpGetEthAddr (a.route.hop dst)) ∧
      (added.Pairwise (fun a b => a.route.netmask ≤ b.route.netmask) →
        ∀ b ∈ added, b.ok = true → b.route.Matches dst → b.route.netmask ≤ a.route.netmask) := by
  obtain ⟨older, a, newer, rfl, ha, hnewer⟩ :=
    exists_last_of_mem (fun a : AddedRoute => a.ok ∧ a.route.Matches dst)
      (by simpa [and_assoc] using hmatch)
  rw [decide_eq_true_eq] at ha
  have hlater : ∀ b ∈ newer, b.ok = true → ¬b.route.Matches dst := fun b hb hok hm =>
    hnewer b hb (decide_eq_true ⟨hok, hm⟩)
  refine ⟨older, a, newer, rfl, ha.1, ha.2, hlater, ?_, fun hsorted b hb hok hm => ?_⟩
  · refine netRouteTo_of_scan arpGetEthAddr ?_
    rw [netAddRoutes_eq, List.append_nil]
    have hsplit : ((((older ++ a :: newer).filter (·.ok)).map (·.route)).reverse) =
        ((newer.filter (·.ok)).map (·.route)).reverse ++
          a.route :: ((older.filter (·.ok)).map (·.route)).reverse := by
      simp [ha.1]
    rw [hsplit]
    refine routeScan_match ha.2 none _ _ fun r hr => ?_
    simp only [List.mem_reverse, List.mem_map, List.mem_filter] at hr
    obtain ⟨b, ⟨hb, hok⟩, rfl⟩ := hr
    exact hlater b hb hok
  · rw [List.pairwise_append, List.pairwise_cons] at hsorted
    rcases List.mem_append.mp hb with hold | hnew
    · exact hsorted.2.2 b hold a List.mem_cons_self
    · rcases List.mem_cons.mp hnew with rfl | hnew
      · exact BitVec.le_refl _
      · exact (hlater b hnew hok hm).elim

/-- Behind a DHCP offer every destination has a route: that of the network for
the addresses in it, the server for all others. -/
theorem netRouteTo_dhcp {ndev : DhcpDev} {dhcp : DhcpPacket} {srcMac : BitVec 48} {mem : DhcpMem}
    (hstate : ndev.state = .discover) (hgateway : mem.gatewayRoute = true)
    (hnet : mem.netRoute = true) (hserver : toBe32 dhcp.siaddr ≠ 0) (dst : BitVec 32) :
    netRouteTo arpGetEthAddr (dhcpHandleOffer ndev dhcp srcMac mem).2.routes dst =
      some (arpGetEthAddr (if toBe32 dhcp.yiaddr &&& 0xffffff00 = dst &&& 0xffffff00 then dst
        else toBe32 dhcp.siaddr)) := by
  rw [dhcpHandleOffer, if_neg (not_not_intro hstate)]
  simp only [netAddRoute, hgateway, hnet, if_true]
  by_cases hlocal : toBe32 dhcp.yiaddr &&& 0xffffff00 = dst &&& 0xffffff00
  · rw [if_pos hlocal]
    have hscan : routeScan dst none (⟨toBe32 dhcp.yiaddr, 0xffffff00, 0⟩ ::
        ⟨0, 0, toBe32 dhcp.siaddr⟩ :: ndev.routes) = some ⟨toBe32 dhcp.yiaddr, 0xffffff00, 0⟩ :=
      if_pos hlocal
    exact netRouteTo_of_scan arpGetEthAddr hscan
  · rw [if_neg hlocal]
    have hdefault : Route.Matches ⟨0, 0, toBe32 dhcp.siaddr⟩ dst := by simp [Route.Matches]
    have hscan : routeScan dst none (⟨toBe32 dhcp.yiaddr, 0xffffff00, 0⟩ ::
        ⟨0, 0, toBe32 dhcp.siaddr⟩ :: ndev.routes) = some ⟨0, 0, toBe32 dhcp.siaddr⟩ :=
      routeScan_match hdefault none [⟨toBe32 dhcp.yiaddr, 0xffffff00, 0⟩] ndev.routes
        fun r hr => by
          rw [List.mem_singleton.mp hr]
          exact hlocal
    rw [netRouteTo_of_scan arpGetEthAddr hscan, Route.hop, if_neg hserver]

end Resolving

/-- A route to the network 10.0.2.0, and then the default route. -/
def defaultAddedLast : List AddedRoute :=
  [⟨true, ⟨0x0a000200, 0xffffff00, 0⟩⟩, ⟨true, ⟨0, 0, 0x0a000202⟩⟩]

/-- The default route is taken although the other one has the longer
netmask. -/
theorem netRouteTo_default_first :
    ∃ a ∈ defaultAddedLast, a.ok = true ∧ a.route.Matches 0x0a000203 ∧
      (∀ b ∈ defaultAddedLast, b.ok = true → b.route.Matches 0x0a000203 →
        b.route.netmask ≤ a.route.netmask) ∧
      netRouteTo id (netAddRoutes [] defaultAddedLast) 0x0a000203 ≠
        some (a.route.hop 0x0a000203) := by
  decide

theorem netRouteTo_last_default :
    ∃ older a newer, defaultAddedLast = older ++ a :: newer ∧ a.ok = true ∧
      a.route.Matches 0x0a000203 ∧
      (∀ b ∈ newer, b.ok = true → ¬b.route.Matches 0x0a000203) ∧
      netRouteTo id (netAddRoutes [] defaultAddedLast) 0x0a000203 =
        some (id (a.route.hop 0x0a000203)) ∧
      (defaultAddedLast.Pairwise (fun a b => a.route.netmask ≤ b.route.netmask) →
        ∀ b ∈ defaultAddedLast, b.ok = true → b.route.Matches 0x0a000203 →
          b.route.netmask ≤ a.route.netmask) :=
  netRouteTo_last id defaultAddedLast 0x0a000203 (by decide)

end Levos.Net
