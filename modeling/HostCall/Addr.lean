/-! Addresses into guest memory are 32-bit words. Address arithmetic either saturates at the last
address (headers, running positions) or is carried out on natural numbers and checked against
`Addr.space`, so no sum ever wraps round to a low address unnoticed. -/

namespace HostCall

/-- An offset into the guest's memory. -/
abbrev Addr := UInt32

namespace Addr

/-- The number of addresses. -/
def space : Nat := 0x100000000

/-- The address nearest to `n`. -/
def nearest (n : Nat) : Addr := UInt32.ofNat (min n (space - 1))

/-- `n` bytes further on, or the last address where that lies outside the address space. -/
def advance (a : Addr) (n : Nat) : Addr := nearest (a.toNat + n)

theorem toNat_lt_space (a : Addr) : UInt32.toNat a < space := UInt32.toNat_lt a

theorem toNat_ofNat_of_lt {n : Nat} (h : n < space) : (UInt32.ofNat n).toNat = n := by
  rw [UInt32.toNat_ofNat']
  exact Nat.mod_eq_of_lt h

@[simp] theorem toNat_nearest (n : Nat) : UInt32.toNat (nearest n) = min n (space - 1) := by
  simp only [nearest, UInt32.toNat_ofNat', space]
  omega

theorem toNat_nearest_of_lt {n : Nat} (h : n < space) : UInt32.toNat (nearest n) = n := by
  rw [toNat_nearest]
  omega

@[simp] theorem nearest_toNat (a : Addr) : nearest a.toNat = a := by
  have := a.toNat_lt_space
  apply UInt32.toNat_inj.1
  rw [toNat_nearest]
  omega

@[simp] theorem toNat_advance (a : Addr) (n : Nat) :
    UInt32.toNat (a.advance n) = min (a.toNat + n) (space - 1) := toNat_nearest _

theorem toNat_advance_of_lt {a : Addr} {n : Nat} (h : a.toNat + n < space) :
    UInt32.toNat (a.advance n) = a.toNat + n := by
  rw [toNat_advance]
  omega

@[simp] theorem advance_zero (a : Addr) : a.advance 0 = a := by
  have := a.toNat_lt_space
  apply UInt32.toNat_inj.1
  rw [toNat_advance]
  omega

/-- Where a running address has saturated, going on from it changes nothing. -/
theorem advance_nearest (n k : Nat) : (nearest n).advance k = nearest (n + k) := by
  apply UInt32.toNat_inj.1
  rw [toNat_advance, toNat_nearest, toNat_nearest]
  omega

end Addr

end HostCall
