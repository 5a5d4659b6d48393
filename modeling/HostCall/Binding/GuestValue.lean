import HostCall.Slot

/-! Values as a guest passes them to functions and gets them back. Each knows its kind; numbers with
a floating point are given by their bits. A value that comes in fills a cell with zeros above it, a
cell that goes out is cut to the width of its slot. -/

namespace HostCall.Binding

inductive GuestValue where
  | i32 (bits : UInt32)
  | i64 (bits : UInt64)
  | f32 (bits : UInt32)
  | f64 (bits : UInt64)
  /-- A vector or a reference, for which there is no cell. -/
  | other
deriving DecidableEq

namespace GuestValue

/-- The kind of slot that the value belongs in. -/
def kind? : GuestValue → Option SlotKind
  | i32 _ => some .i32
  | i64 _ => some .i64
  | f32 _ => some .f32
  | f64 _ => some .f64
  | other => none

/-- The cell that stands for the value. -/
def cell? : GuestValue → Option Cell
  | i32 v | f32 v => some v.toUInt64
  | i64 v | f64 v => some v
  | other => none

/-- The value that a cell in a slot stands for. No function with a reference among its slots can be
linked, so what is made of one does not matter. -/
def ofCell : SlotKind → Cell → GuestValue
  | .i32, c => i32 c.toUInt32
  | .i64, c => i64 c
  | .f32, c => f32 c.toUInt32
  | .f64, c | .externRef, c => f64 c

@[simp] theorem cell?_ofCell (k : SlotKind) (c : Cell) :
    (ofCell k c).cell? = some (k.narrow c) := by
  cases k <;> rfl

theorem ofCell_narrow (k : SlotKind) (c : Cell) : ofCell k (k.narrow c) = ofCell k c := by
  cases k <;> simp only [ofCell, SlotKind.narrow, UInt32.toUInt32_toUInt64]

theorem kind?_ofCell {k : SlotKind} (hk : k ≠ .externRef) (c : Cell) :
    (ofCell k c).kind? = some k := by
  cases k with
  | externRef => contradiction
  | _ => rfl

/-- A value of a kind is what its own cell stands for in a slot of that kind. -/
theorem eq_ofCell {v : GuestValue} {k : SlotKind} {c : Cell} (hk : v.kind? = some k)
    (hc : v.cell? = some c) : v = ofCell k c := by
  cases v <;> cases hk <;> cases hc <;> simp [ofCell]

end GuestValue

end HostCall.Binding
