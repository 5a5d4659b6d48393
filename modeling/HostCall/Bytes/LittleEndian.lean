/-! Numbers as bytes, lowest byte first. Main statements: reading what was written gives the number
modulo the capacity of its bytes, and writing what was read gives the same bytes back. -/

namespace HostCall

/-- A run of bytes. -/
abbrev Bytes := List UInt8

namespace LittleEndian

/-- The lowest `width` bytes of `n`. -/
def toBytes : (width : Nat) → (n : Nat) → Bytes
  | 0, _ => []
  | width + 1, n => UInt8.ofNat n :: toBytes width (n / 256)

/-- The number written in `bytes`, 0 for none. -/
def ofBytes : Bytes → Nat
  | [] => 0
  | b :: bs => b.toNat + 256 * ofBytes bs

/-- How many numbers `width` bytes can tell apart. -/
def capacity : (width : Nat) → Nat
  | 0 => 1
  | width + 1 => 256 * capacity width

@[simp] theorem length_toBytes (width n : Nat) : (toBytes width n).length = width := by
  induction width generalizing n with
  | zero => rfl
  | succ width ih => simp [toBytes, ih]

theorem ofBytes_lt (bs : Bytes) : ofBytes bs < capacity bs.length := by
  induction bs with
  | nil => simp [ofBytes, capacity]
  | cons b bs ih =>
    have hb : b.toNat < 256 := UInt8.toNat_lt b
    simp only [ofBytes, List.length_cons, capacity]
    omega

theorem ofBytes_toBytes (width n : Nat) : ofBytes (toBytes width n) = n % capacity width := by
  induction width generalizing n with
  | zero => simp [toBytes, ofBytes, capacity, Nat.mod_one]
  | succ width ih =>
    have h : n % (256 * capacity width) = n % 256 + 256 * (n / 256 % capacity width) :=
      Nat.mod_mul
    simp only [toBytes, ofBytes, capacity, ih, UInt8.toNat_ofNat']
    omega

theorem toBytes_ofBytes (bs : Bytes) : toBytes bs.length (ofBytes bs) = bs := by
  induction bs with
  | nil => rfl
  | cons b bs ih =>
    have hb : b.toNat < 256 := UInt8.toNat_lt b
    have hdiv : (b.toNat + 256 * ofBytes bs) / 256 = ofBytes bs := by omega
    have hlow : UInt8.ofNat (b.toNat + 256 * ofBytes bs) = b := by
      apply UInt8.toNat_inj.1
      rw [UInt8.toNat_ofNat']
      omega
    simp only [List.length_cons, toBytes, ofBytes, hdiv, hlow, ih]

end LittleEndian

end HostCall
