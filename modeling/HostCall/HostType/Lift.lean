import HostCall.MemType.Read
import HostCall.Resources

/-! Taking values off the operand stack. A value takes exactly its slots, the last one first; a cell
that is missing counts as 0 and leaves a fault. Lifting changes nothing but the stack. A type that
cannot be lifted gives its default value. -/

namespace HostCall

/-- Steps that take cells from a stack, its top first. -/
abbrev Lifting := StateT (List Cell) Outcome

namespace Lifting

def pop : Lifting Cell
  | [] => .failing .stackUnderflow (0, [])
  | c :: cs => pure (c, cs)

/-- The low half of a cell. -/
def popWord : Lifting UInt32 := do return (← pop).toUInt32

/-- An address and a length, the length on top. -/
def popRegion : Lifting (Addr × UInt32) := do
  let length ← popWord
  let a ← popWord
  return (a, length)

end Lifting

open Lifting

/-- Takes a value off the stack. Of a result only the address is there. -/
def MemType.lift (m : Memory) : (t : MemType) → Lifting t.Val
  | .scalar s => do return s.ofCell (← pop)
  | .bool => do return (← pop) != 0
  | .string => do
    let (a, length) ← popRegion
    readText a (← m.load a length)
  | .blob => do
    let (a, length) ← popRegion
    m.load a length
  | .text => do
    let (a, length) ← popRegion
    return ⟨a, ← readText a (← m.load a length)⟩
  | .bytes => do
    let (a, length) ← popRegion
    return ⟨a, ← m.load a length⟩
  | .list t => do
    let (a, count) ← popRegion
    return ⟨a, ← m.loadElements t.size (t.read m) a count⟩
  | .result t e => do
    let a ← popWord
    (MemType.result t e).read m a

/-- The host value under handle `h`, the default value where there is none of type `t`. -/
def Resources.resolve (env : Resources) (t : HostType) (h : UInt32) : Outcome t.Val :=
  match env.handles.bind (·.get? h) with
  | none => .failing (.unknownHandle h) t.default
  | some r =>
    match r.as? t with
    | none => .failing (.wrongReferent h t) t.default
    | some v => pure v

/-- Takes a value off the stack. Of a complex number the real part lies on top, of a pair the right
value. -/
def HostType.lift (env : Resources) : (t : HostType) → Lifting t.Val
  | .mem t => t.lift env.memory
  | .intPtr => do return (← pop).toInt64
  | .uintPtr => pop
  | .unit => return ()
  | .duration => do return .ofTicks (← pop)
  | .time => do return .ofTick (← pop).toInt64
  | .complex64 => do
    let re := Scalar.f32.ofCell (← pop)
    let im := Scalar.f32.ofCell (← pop)
    return ⟨re, im⟩
  | .complex128 => do
    let re := Scalar.f64.ofCell (← pop)
    let im := Scalar.f64.ofCell (← pop)
    return ⟨re, im⟩
  | .indirectList t => do
    let a ← popWord
    let (pointer, count) ← env.memory.loadHeader a
    return ⟨a, pointer, ← env.memory.loadElements t.size (t.read env.memory) pointer count⟩
  | .pair l r => do
    let right ← r.lift env
    let left ← l.lift env
    return (left, right)
  | .handle t => do
    let id ← popWord
    return ⟨id, ← env.resolve t id⟩
  | .context => return ⟨env.cancelled⟩
  | .counter => return HostType.counter.default

end HostCall
