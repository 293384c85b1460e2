import Mathlib.Algebra.GroupWithZero.Nat
import Mathlib.Tactic.Common

/-! Physical addresses, and the frames of 4096 bytes that they lie in. -/

namespace EchOS.Memory

/-- `PhysAddr::new` of the `x86_64` crate, of which only what is documented is used: it panics on
an address with one of the bits 52 to 63 set. -/
class PhysAddr where
  new : ℕ → Option ℕ
  new_eq : ∀ addr, new addr = if addr < 2 ^ 52 then some addr else none

instance : PhysAddr where
  new addr := if addr < 2 ^ 52 then some addr else none
  new_eq _ := rfl

/-- The number of a frame; a physical address has 52 bits. -/
abbrev PhysFrame := Fin (2 ^ 40)

/-- `PhysFrame::containing_address(PhysAddr::new(addr))`. -/
def containingAddress [PhysAddr] (addr : ℕ) : Option PhysFrame :=
  (PhysAddr.new addr).map fun addr => Fin.ofNat _ (addr / 4096)

variable [PhysAddr] {i : ℕ}

theorem containingAddress_of_lt (h : i < 2 ^ 40) : containingAddress (i * 4096) = some ⟨i, h⟩ := by
  rw [containingAddress, PhysAddr.new_eq, if_pos (by omega), Option.map_some,
    Nat.mul_div_cancel i (by decide)]
  exact congrArg some (Fin.ext (Nat.mod_eq_of_lt h))

theorem containingAddress_of_le (h : 2 ^ 40 ≤ i) : containingAddress (i * 4096) = none := by
  rw [containingAddress, PhysAddr.new_eq, if_neg (by omega), Option.map_none]

end EchOS.Memory
