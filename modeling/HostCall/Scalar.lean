import HostCall.Bytes.LittleEndian
import HostCall.Slot

/-! Fixed-width numbers: integers and floating-point bit patterns. Each has a memory form, its bits
lowest byte first, and a stack form, one cell. The 8- and 16-bit signed integers are widened to 32
bits with their sign on the stack; nothing is rounded or checked, reading keeps the low bits. -/

namespace HostCall

/-- The bits of a 32-bit floating-point number. -/
structure F32 where
  bits : UInt32
deriving DecidableEq

/-- The bits of a 64-bit floating-point number. -/
structure F64 where
  bits : UInt64
deriving DecidableEq

structure Complex (α : Type) where
  re : α
  im : α
deriving DecidableEq

inductive Scalar where
  | i8 | i16 | i32 | i64
  | u8 | u16 | u32 | u64
  | f32 | f64
deriving DecidableEq

namespace Scalar

@[reducible] def Val : Scalar → Type
  | i8 => Int8
  | i16 => Int16
  | i32 => Int32
  | i64 => Int64
  | u8 => UInt8
  | u16 => UInt16
  | u32 => UInt32
  | u64 => UInt64
  | f32 => F32
  | f64 => F64

/-- Bytes of the memory form. -/
def width : Scalar → Nat
  | i8 | u8 => 1
  | i16 | u16 => 2
  | i32 | u32 | f32 => 4
  | i64 | u64 | f64 => 8

def slot : Scalar → SlotKind
  | i8 | i16 | i32 | u8 | u16 | u32 => .i32
  | i64 | u64 => .i64
  | f32 => .f32
  | f64 => .f64

/-- The bits of a value as a natural number. -/
def toBits : (s : Scalar) → s.Val → Nat
  | i8, v => v.toUInt8.toNat
  | i16, v => v.toUInt16.toNat
  | i32, v => v.toUInt32.toNat
  | i64, v => v.toUInt64.toNat
  | u8, v => v.toNat
  | u16, v => v.toNat
  | u32, v => v.toNat
  | u64, v => v.toNat
  | f32, v => v.bits.toNat
  | f64, v => v.bits.toNat

/-- The value with the low bits of `n`. -/
def ofBits : (s : Scalar) → Nat → s.Val
  | i8, n => (UInt8.ofNat n).toInt8
  | i16, n => (UInt16.ofNat n).toInt16
  | i32, n => (UInt32.ofNat n).toInt32
  | i64, n => (UInt64.ofNat n).toInt64
  | u8, n => UInt8.ofNat n
  | u16, n => UInt16.ofNat n
  | u32, n => UInt32.ofNat n
  | u64, n => UInt64.ofNat n
  | f32, n => ⟨UInt32.ofNat n⟩
  | f64, n => ⟨UInt64.ofNat n⟩

/-- The cell a value is pushed as. -/
def toCell : (s : Scalar) → s.Val → Cell
  | i8, v => v.toInt32.toUInt32.toUInt64
  | i16, v => v.toInt32.toUInt32.toUInt64
  | s, v => UInt64.ofNat (s.toBits v)

/-- The value that a popped cell stands for. -/
def ofCell (s : Scalar) (c : Cell) : s.Val := s.ofBits c.toNat

theorem width_pos (s : Scalar) : 0 < s.width := by cases s <;> decide

theorem toBits_lt (s : Scalar) (v : s.Val) : s.toBits v < LittleEndian.capacity s.width := by
  cases s <;> simp only [toBits, width, LittleEndian.capacity]
  case i8 => exact UInt8.toNat_lt _
  case i16 => exact UInt16.toNat_lt _
  case i32 => exact UInt32.toNat_lt _
  case i64 => exact UInt64.toNat_lt _
  case u8 => exact UInt8.toNat_lt _
  case u16 => exact UInt16.toNat_lt _
  case u32 => exact UInt32.toNat_lt _
  case u64 => exact UInt64.toNat_lt _
  case f32 => exact UInt32.toNat_lt _
  case f64 => exact UInt64.toNat_lt _

theorem ofBits_toBits (s : Scalar) (v : s.Val) : s.ofBits (s.toBits v) = v := by
  cases s <;> simp [toBits, ofBits]

theorem toBits_ofBits (s : Scalar) (n : Nat) :
    s.toBits (s.ofBits n) = n % LittleEndian.capacity s.width := by
  cases s <;> simp [toBits, ofBits, width, LittleEndian.capacity]

theorem ofCell_toCell (s : Scalar) (v : s.Val) : s.ofCell (s.toCell v) = v := by
  cases s
  case i8 =>
    apply Int8.toBitVec_inj.1
    ext i hi
    simp [toCell, ofCell, ofBits, BitVec.getElem_signExtend, hi, show i < 32 by omega]
  case i16 =>
    apply Int16.toBitVec_inj.1
    ext i hi
    simp [toCell, ofCell, ofBits, BitVec.getElem_signExtend, hi, show i < 32 by omega]
  all_goals simp [toCell, ofCell, toBits, ofBits]

end Scalar

end HostCall
