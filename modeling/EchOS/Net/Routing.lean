import Mathlib.Data.List.Sort
import EchOS.Lib.ListTrie
import EchOS.Lib.Run

/-! The forwarding table of `net/routing.rs`: routes in a binary trie over the bits of their
prefixes. -/

namespace EchOS.Net

def prefixMask (prefixLen : ℕ) : BitVec 32 :=
  match prefixLen with
  | 0 => 0
  | bits => if 32 ≤ bits then BitVec.allOnes 32 else BitVec.allOnes 32 <<< (32 - bits)

structure RouteEntry where
  dst : BitVec 32
  dstPrefixLen : ℕ
  gateway : BitVec 32
  iface : String
  routeType : UInt8
  scope : UInt8
  metric : UInt32
  mtu : UInt16
  protocol : UInt8
  deriving DecidableEq

namespace RouteEntry

def unicast (dst : BitVec 32) (prefixLen : ℕ) (gateway : BitVec 32) (iface : String)
    (metric : UInt32) : RouteEntry :=
  { dst, dstPrefixLen := prefixLen, gateway, iface, routeType := 1
    scope := if gateway = 0 then 253 else 0
    metric, mtu := 0, protocol := 4 }

def «matches» (route : RouteEntry) (ip : BitVec 32) : Bool :=
  if route.dstPrefixLen = 0 then true
  else ip &&& prefixMask route.dstPrefixLen == route.dst &&& prefixMask route.dstPrefixLen

end RouteEntry

abbrev FibNode := ListTrie RouteEntry

structure FibTrie where
  root : FibNode
  entryCount : UInt32

def bitAt (addr : BitVec 32) (i : ℕ) : Bool := (addr >>> (31 - i)) &&& 1 != 0

def branches (addr : BitVec 32) (len : ℕ) : List Bool := (List.range len).map (bitAt addr)

namespace FibTrie

def new : FibTrie := ⟨.empty, 0⟩

def sameHop (entry route : RouteEntry) : Bool :=
  route.gateway == entry.gateway && route.iface == entry.iface

/-- A route to the same gateway over the same interface is replaced. -/
def putRoute (entry : RouteEntry) (routes : List RouteEntry) : List RouteEntry :=
  let routes :=
    match routes.findIdx? (sameHop entry) with
    | some i => routes.set i entry
    | none => routes ++ [entry]
  routes.mergeSort fun a b => a.metric ≤ b.metric

def insert (t : FibTrie) (entry : RouteEntry) : FibTrie :=
  let dst := entry.dst &&& prefixMask entry.dstPrefixLen
  let path := branches dst entry.dstPrefixLen
  let known := (t.root.itemsAt path).any (sameHop entry)
  { root := t.root.alter (putRoute entry) path
    entryCount := if known then t.entryCount else t.entryCount + 1 }

def remove (t : FibTrie) (dst : BitVec 32) (prefixLen : ℕ) : Bool × FibTrie :=
  let path := branches (dst &&& prefixMask prefixLen) prefixLen
  match t.root.nodeAt path with
  | none => (false, t)
  | some node =>
    if !node.items.isEmpty then
      (true, ⟨t.root.alter (fun _ => []) path, t.entryCount - .ofNat node.items.length⟩)
    else (false, t)

def lookupCandidates (t : FibTrie) (ip : BitVec 32) : Option (List RouteEntry) :=
  ListTrie.lastItems (branches ip 32) t.root
    (if t.root.items.isEmpty then none else some t.root.items)

def lookup (t : FibTrie) (ip : BitVec 32) : Option RouteEntry :=
  (t.lookupCandidates ip).bind (·.head?)

def len (t : FibTrie) : UInt32 := t.entryCount

end FibTrie

end EchOS.Net
