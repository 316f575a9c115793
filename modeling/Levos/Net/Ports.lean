import Levos.Lib.Bitmap

/-!
# Ephemeral ports (`net/network.c`)

Each of the two families has a bitmap of 65535 ports, the first thousand of
them reserved. `net_allocate_port` returns a `port_t`, 16 bits wide, in which
its error value `-1` is 65535.
-/

namespace Levos.Net

open Levos.Base Levos.Lib

def portCount : Nat := 65535
def reservedPorts : Nat := 1000

/-- The bitmap of a family as `net_init` sets it up. -/
def netInitPorts : Bitmap :=
  bitmapSetMultiple { bitCnt := portCount, bits := fun _ => 0 } 0 reservedPorts true

/-- `net_allocate_port`, given the bitmap its argument picks. -/
def netAllocatePort (ports : Bitmap) : BitVec 16 × Bitmap :=
  match bitmapScanAndFlip ports 0 1 false with
  | (some loc, ports) => (BitVec.ofNat 16 loc, ports)
  | (none, ports) => (-1, ports)

/-- `net_free_port`, given the bitmap its argument picks. -/
def netFreePort (ports : Bitmap) (port : BitVec 16) : Bitmap := bitmapSet ports port.toNat false

/-- The port is taken. -/
def portMarked (ports : Bitmap) (port : Nat) : Bool := bitOf ports.bits port

/-- No port is left. -/
def portsFull (ports : Bitmap) : Prop := ∀ port < ports.bitCnt, portMarked ports port = true

theorem netInitPorts_bitCnt : netInitPorts.bitCnt = portCount := by
  rw [netInitPorts, bitmapSetMultiple_bitCnt]

theorem portMarked_init (port : Nat) : portMarked netInitPorts port = decide (port < 1000) := by
  rw [portMarked, netInitPorts, bitOf_bitmapSetMultiple]
  simp [bitOf, reservedPorts]

/-- What an allocation does: it takes a port that was free, or there is none
and it returns 65535. -/
theorem netAllocatePort_spec {ports : Bitmap} (hcnt : ports.bitCnt = portCount) :
    let r := netAllocatePort ports
    (portMarked ports r.1.toNat = false ∧ r.1.toNat < portCount ∧ ¬portsFull ports ∧
        r.2.bitCnt = portCount ∧
        ∀ port, portMarked r.2 port = (portMarked ports port || decide (port = r.1.toNat))) ∨
      (portsFull ports ∧ r.1.toNat = portCount ∧ r.2 = ports) := by
  rw [netAllocatePort]
  rcases hscan : bitmapScanAndFlip ports 0 1 false with ⟨loc, ports'⟩
  cases loc with
  | none =>
      right
      refine ⟨bitmapScanAndFlip_none hscan, rfl, ?_⟩
      unfold bitmapScanAndFlip at hscan
      split at hscan
      · cases (Prod.mk.inj hscan).1
      · exact (Prod.mk.inj hscan).2.symm
  | some loc =>
      left
      obtain ⟨hlt, hclear, rfl⟩ := bitmapScanAndFlip_some hscan
      have hlt' : loc < portCount := hcnt ▸ hlt
      have hloc : (BitVec.ofNat 16 loc).toNat = loc := by
        rw [BitVec.toNat_ofNat]
        exact Nat.mod_eq_of_lt (by rw [portCount] at hlt'; omega)
      dsimp only
      rw [hloc]
      refine ⟨hclear, hlt', fun hfull => ?_, hcnt, fun port => bitOf_setBit _ _ _⟩
      have := hfull loc hlt
      rw [portMarked, hclear] at this
      cases this

theorem netFreePort_bitCnt (ports : Bitmap) (port : BitVec 16) :
    (netFreePort ports port).bitCnt = ports.bitCnt := bitmapSet_bitCnt _ _ _

theorem portMarked_free (ports : Bitmap) (port : BitVec 16) (p : Nat) :
    portMarked (netFreePort ports port) p = (decide (p ≠ port.toNat) && portMarked ports p) := by
  rw [portMarked, netFreePort, bitOf_bitmapSet, portMarked]
  by_cases h : p = port.toNat
  · simp [h]
  · simp [h]

-- a thousand writes are not to be evaluated
attribute [irreducible] netInitPorts

end Levos.Net
