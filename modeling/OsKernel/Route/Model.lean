import Mathlib.Tactic

/-!
# The routing table `demos/route/route.c`

`lookup_route` walks the table once and keeps the matching entry with the
longest prefix seen so far.  The length of a prefix is the number of ones of
its mask.

The fields only printed (`iface_name`, `comment`) are left out.  The table is a
parameter; `kernelRoutes` is the built-in one.
-/

namespace OsKernel
namespace Route

/-- `route_entry`. -/
structure RouteEntry where
  dst : BitVec 32
  mask : BitVec 32
  gw : BitVec 32
  interface : BitVec 32
  metric : Int
  deriving DecidableEq, Repr

/-- `kernel_routes`. -/
def kernelRoutes : List RouteEntry :=
  [ ⟨0xC0A80100, 0xFFFFFF00, 0, 0xC0A80101, 0⟩,
    ⟨0x0A000000, 0xFF000000, 0, 0x0A00000A, 0⟩,
    ⟨0x00000000, 0x00000000, 0xC0A80101, 0xC0A80101, 100⟩ ]

/-- `route_matches`. -/
def routeMatches (routeDst routeMask targetIp : BitVec 32) : Bool :=
  targetIp &&& routeMask == routeDst &&& routeMask

/-- The loop of `prefix_len`, for at most the given number of rounds. -/
def prefixLenLoop : Nat → BitVec 32 → Nat → Nat
  | 0, _, len => len
  | rounds + 1, m, len =>
      if m = 0 then len
      else prefixLenLoop rounds (m >>> 1) (len + (m &&& 1).toNat)

/-- `prefix_len`; a mask is used up after 32 rounds. -/
def prefixLen (mask : BitVec 32) : Nat := prefixLenLoop 32 mask 0

/-- `route_result`. -/
structure RouteResult where
  entry : Option RouteEntry
  matchLen : Int
  deriving DecidableEq, Repr

/-- One round of the loop of `lookup_route`. -/
def lookupStep (dstIp : BitVec 32) (best : RouteResult) (r : RouteEntry) :
    RouteResult :=
  if routeMatches r.dst r.mask dstIp then
    let ml : Int := prefixLen r.mask
    if ml > best.matchLen then ⟨some r, ml⟩ else best
  else best

/-- `lookup_route`. -/
def lookupRoute (table : List RouteEntry) (dstIp : BitVec 32) : RouteResult :=
  table.foldl (lookupStep dstIp) ⟨none, -1⟩

end Route
end OsKernel
