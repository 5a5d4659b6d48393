import HostCall.Outcome

/-! Guest memory: a run of bytes at the addresses from `base` on, which never grows. An access of
`n` bytes at `a` is in bounds when `base ≤ a` and `a + n` does not pass the last byte, counted in
natural numbers, so an access may also end beyond the last 32-bit address. An access out of bounds
changes nothing. Main statements: `getElem?_slice` and `byte?_splice`, which say byte for byte what
is read and what a write leaves. -/

namespace HostCall

structure Memory where
  base : Nat
  bytes : Array UInt8
  /-- The size given in faults. -/
  size : Nat
deriving DecidableEq

/-- `bs` in place of the bytes of `a` from index `i` on. -/
def overwrite (a : Array UInt8) : (i : Nat) → (bs : Bytes) → Array UInt8
  | _, [] => a
  | i, b :: bs => overwrite (a.setIfInBounds i b) (i + 1) bs

@[simp] theorem size_overwrite (a : Array UInt8) (i : Nat) (bs : Bytes) :
    (overwrite a i bs).size = a.size := by
  induction bs generalizing a i with
  | nil => rfl
  | cons b bs ih => rw [overwrite, ih, Array.size_setIfInBounds]

theorem getElem?_overwrite (a : Array UInt8) (i : Nat) (bs : Bytes) (k : Nat) :
    (overwrite a i bs)[k]? =
      if i ≤ k ∧ k < i + bs.length ∧ k < a.size then bs[k - i]? else a[k]? := by
  induction bs generalizing a i with
  | nil => simp [overwrite]; omega
  | cons b bs ih =>
    rw [overwrite, ih, Array.getElem?_setIfInBounds, Array.size_setIfInBounds, List.length_cons]
    rcases Nat.lt_trichotomy k i with h | rfl | h
    · rw [if_neg (by omega), if_neg (by omega), if_neg (by omega)]
    · rw [if_neg (by omega), if_pos rfl]
      by_cases hk : k < a.size
      · simp [hk]
      · simp [hk]
    · obtain ⟨d, rfl⟩ : ∃ d, k = i + 1 + d := ⟨k - (i + 1), by omega⟩
      simp [show i ≠ i + 1 + d by omega, show i ≤ i + 1 + d by omega,
        show i + 1 + d - i = d + 1 by omega, show i + (bs.length + 1) = i + 1 + bs.length by omega]

namespace Memory

/-- A memory that starts at address 0. -/
def ofBytes (bytes : Array UInt8) : Memory := ⟨0, bytes, bytes.size⟩

/-- The memory of a call that has none: no access is in bounds, not even an empty one. -/
def absent : Memory := ⟨Addr.space, #[], 0⟩

/-- The byte at address `a`. -/
def byte? (m : Memory) (a : Nat) : Option UInt8 :=
  if m.base ≤ a then m.bytes[a - m.base]? else none

def InBounds (m : Memory) (a : Addr) (n : Nat) : Prop :=
  m.base ≤ a.toNat ∧ a.toNat + n ≤ m.base + m.bytes.size

instance (m : Memory) (a : Addr) (n : Nat) : Decidable (m.InBounds a n) :=
  inferInstanceAs (Decidable (_ ∧ _))

/-- The `n` bytes from address `a` on. -/
def slice (m : Memory) (a n : Nat) : Bytes :=
  (m.bytes.extract (a - m.base) (a - m.base + n)).toList

/-- `m` with `bs` from address `a` on. -/
def splice (m : Memory) (a : Nat) (bs : Bytes) : Memory :=
  { m with bytes := overwrite m.bytes (a - m.base) bs }

def read (m : Memory) (a : Addr) (n : UInt32) : Except Fault Bytes :=
  if m.InBounds a n.toNat then .ok (m.slice a.toNat n.toNat)
  else .error (.readOutOfBounds a n m.size)

def write (m : Memory) (a : Addr) (bs : Bytes) : Except Fault Memory :=
  if m.InBounds a bs.length then .ok (m.splice a.toNat bs)
  else .error (.writeOutOfBounds a (UInt32.ofNat bs.length) m.size)

/-- Puts zeros into `n` bytes. -/
def clear (m : Memory) (a : Addr) (n : UInt32) : Except Fault Memory :=
  if m.InBounds a n.toNat then .ok (m.splice a.toNat (List.replicate n.toNat 0))
  else .error (.writeOutOfBounds a n m.size)

/-- Reads `n` bytes, none where they are out of bounds. -/
def load (m : Memory) (a : Addr) (n : UInt32) : Outcome Bytes := .ofExcept [] (m.read a n)

/-- Writes `bs`, nothing where they are out of bounds. -/
def store (m : Memory) (a : Addr) (bs : Bytes) : Outcome Memory := .ofExcept m (m.write a bs)

/-- Reads a 32-bit word, 0 where it is out of bounds. -/
def loadWord (m : Memory) (a : Addr) : Outcome UInt32 := do
  return UInt32.ofNat (LittleEndian.ofBytes (← m.load a 4))

def wordBytes (w : UInt32) : Bytes := LittleEndian.toBytes 4 w.toNat

theorem length_slice (m : Memory) {a n : Nat} (ha : m.base ≤ a)
    (hb : a + n ≤ m.base + m.bytes.size) : (m.slice a n).length = n := by
  simp only [slice, Array.length_toList, Array.size_extract]
  omega

theorem getElem?_slice (m : Memory) {a n : Nat} (ha : m.base ≤ a)
    (hb : a + n ≤ m.base + m.bytes.size) {i : Nat} (hi : i < n) :
    (m.slice a n)[i]? = m.byte? (a + i) := by
  simp only [slice, byte?, Array.getElem?_toList, Array.getElem?_extract]
  rw [if_pos (by omega), if_pos (by omega)]
  congr 1
  omega

theorem byte?_splice (m : Memory) {a : Nat} {bs : Bytes} (ha : m.base ≤ a)
    (hb : a + bs.length ≤ m.base + m.bytes.size) (k : Nat) :
    (m.splice a bs).byte? k =
      if a ≤ k ∧ k < a + bs.length then bs[k - a]? else m.byte? k := by
  simp only [byte?, splice, getElem?_overwrite]
  by_cases hk : m.base ≤ k
  · rw [if_pos hk, if_pos hk]
    by_cases h : a ≤ k ∧ k < a + bs.length
    · rw [if_pos h, if_pos (by omega)]
      congr 1
      omega
    · rw [if_neg h, if_neg (by omega)]
  · rw [if_neg hk, if_neg hk, if_neg (by omega)]

end Memory

end HostCall
