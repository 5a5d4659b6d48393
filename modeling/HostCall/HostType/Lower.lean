import HostCall.MemType.Write
import HostCall.Resources

/-! Pushing values onto the operand stack. What is pushed is given as a list of cells, the first
pushed first. A value with an address of its own is written there; what is out of bounds is left
out, with a fault, and the cells are pushed all the same. Types that cannot be lowered push
nothing. -/

namespace HostCall

/-- Steps that may write to memory and to the table of host values. -/
abbrev Lowering := StateT Resources Outcome

namespace Lowering

/-- Steps on the memory alone. -/
def onMemory {α : Type} (w : Writing α) : Lowering α :=
  fun env => (fun r => (r.1, { env with memory := r.2 })) <$> w env.memory

end Lowering

open Lowering

/-- The cells of an address and a length. -/
def regionCells (a : Addr) (length : Nat) : List Cell := [a.toUInt64, UInt64.ofNat length]

/-- Writes a value at its own address and gives the cells that stand for it. -/
def MemType.lower : (t : MemType) → t.Val → Writing (List Cell)
  | .scalar s, v => return [s.toCell v]
  | .bool, v => return [if v then 1 else 0]
  | .string, _ | .blob, _ => return []
  | .text, v => do
    let bs := Utf8.encode v.raw.toList
    Writing.bytes v.offset bs
    return regionCells v.offset bs.length
  | .bytes, v => do
    Writing.bytes v.offset v.raw
    return regionCells v.offset v.raw.length
  | .list t, v => do
    let _ ← Writing.elements t.size t.write v.raw v.offset
    return regionCells v.offset v.raw.length
  | .result t e, v => do
    let _ ← (MemType.result t e).write v v.offset v.dataPtr
    return [v.offset.toUInt64]

/-- Keeps a host value in the table: under a new handle if it has none, else under its own. -/
def Resources.keep (t : HostType) (v : Handle t.Val) : Lowering UInt32 := fun env =>
  match env.handles with
  | none => .failing (.unknownHandle v.id) (v.id, env)
  | some table =>
    if v.id = 0 then
      let (h, table) := table.put ⟨t, v.raw⟩
      pure (h, { env with handles := some table })
    else pure (v.id, { env with handles := some (table.set v.id ⟨t, v.raw⟩) })

/-- Gives the cells of a value, in the order in which they are pushed. -/
def HostType.lower : (t : HostType) → t.Val → Lowering (List Cell)
  | .mem t, v => onMemory (t.lower v)
  | .intPtr, v => return [v.toUInt64]
  | .uintPtr, v => return [v]
  | .unit, _ | .context, _ | .counter, _ => return []
  | .duration, v => return [v.ticks]
  | .time, v => return [v.tick.toUInt64]
  | .complex64, v => return [Scalar.f32.toCell v.im, Scalar.f32.toCell v.re]
  | .complex128, v => return [Scalar.f64.toCell v.im, Scalar.f64.toCell v.re]
  | .indirectList t, v => onMemory do
    let _ ← Writing.elements t.size t.write v.raw v.dataPtr
    Writing.header v.offset v.dataPtr (UInt32.ofNat v.raw.length)
    return [v.offset.toUInt64]
  | .pair l r, v => do
    let left ← l.lower v.1
    let right ← r.lower v.2
    return left ++ right
  | .handle t, v => do
    let h ← Resources.keep t v
    return [h.toUInt64]

end HostCall
