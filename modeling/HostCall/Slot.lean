/-! The operand stack holds 64-bit cells. A slot kind says how much of a cell counts and what it
stands for. -/

namespace HostCall

/-- A raw stack cell. -/
abbrev Cell := UInt64

inductive SlotKind where
  | i32
  | i64
  | f32
  | f64
  | externRef
deriving DecidableEq

namespace SlotKind

/-- The tag of the kind in the WebAssembly binary format. -/
def code : SlotKind → UInt8
  | i32 => 0x7f
  | i64 => 0x7e
  | f32 => 0x7d
  | f64 => 0x7c
  | externRef => 0x6f

def name : SlotKind → String
  | i32 => "I32"
  | i64 => "I64"
  | f32 => "F32"
  | f64 => "F64"
  | externRef => "ExternRef"

/-- The part of a cell that a slot of this kind carries: the low half for the 32-bit kinds. -/
def narrow : SlotKind → Cell → Cell
  | i32, c | f32, c => c.toUInt32.toUInt64
  | i64, c | f64, c | externRef, c => c

theorem narrow_narrow (k : SlotKind) (c : Cell) : k.narrow (k.narrow c) = k.narrow c := by
  cases k <;> simp only [narrow, UInt32.toUInt32_toUInt64]

end SlotKind

/-- The slots of several values in order. -/
def flattenSlots (groups : List (List SlotKind)) : List SlotKind := groups.flatten

end HostCall
