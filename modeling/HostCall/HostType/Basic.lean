import HostCall.MemType.Basic
import HostCall.Value.Host
import HostCall.Value.Time

/-! The types of the parameters and results of host functions, and of what the host keeps behind
handles. Each has the slots it takes on the operand stack. Stack only are the pointer-wide
integers, times, complex numbers, pairs, lists handed over by one pointer and handles; `context`
takes no slots and stands for the call's cancellation flag. -/

namespace HostCall

inductive HostType where
  | mem (t : MemType)
  | intPtr
  | uintPtr
  | unit
  | duration
  | time
  | complex64
  | complex128
  | indirectList (element : MemType)
  | pair (left right : HostType)
  | handle (referent : HostType)
  | context
  | counter
deriving DecidableEq

namespace HostType

@[reducible] def Val : HostType → Type
  | mem t => t.Val
  | intPtr => Int64
  | uintPtr => UInt64
  | unit => Unit
  | duration => Duration
  | time => Timestamp
  | complex64 => Complex F32
  | complex128 => Complex F64
  | indirectList t => IndirectList t.Val
  | pair l r => l.Val × r.Val
  | handle t => Handle t.Val
  | context => Context
  | counter => Counter

def slots : HostType → List SlotKind
  | mem t => t.slots
  | intPtr | uintPtr | duration | time => [.i64]
  | unit | context | counter => []
  | complex64 => [.f32, .f32]
  | complex128 => [.f64, .f64]
  | indirectList _ | handle _ => [.i32]
  | pair l r => l.slots ++ r.slots

/-- Types whose values can be taken from the stack. A counter has no form of its own there. -/
def liftable : HostType → Bool
  | counter => false
  | pair l r => l.liftable && r.liftable
  | _ => true

/-- Types whose values can be pushed. -/
def lowerable : HostType → Bool
  | mem t => t.lowerable
  | context | counter => false
  | pair l r => l.lowerable && r.lowerable
  | _ => true

/-- The value that stands in where a handle leads nowhere. -/
def default : (t : HostType) → t.Val
  | mem t => t.default
  | intPtr => 0
  | uintPtr => 0
  | unit => ()
  | duration => ⟨0⟩
  | time => ⟨0⟩
  | complex64 => ⟨⟨0⟩, ⟨0⟩⟩
  | complex128 => ⟨⟨0⟩, ⟨0⟩⟩
  | indirectList _ => ⟨0, 0, []⟩
  | pair l r => (l.default, r.default)
  | handle t => ⟨0, t.default⟩
  | context => ⟨false⟩
  | counter => ⟨"", 0⟩

end HostType

end HostCall
