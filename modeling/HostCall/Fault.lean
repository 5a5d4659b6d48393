import HostCall.HostType.Basic

/-! What can go wrong while a value crosses the boundary. No fault ends a call: the first one is
kept and the call goes on with a zero or empty value. -/

namespace HostCall

inductive Fault where
  | readOutOfBounds (offset : Addr) (length : UInt32) (memorySize : Nat)
  | writeOutOfBounds (offset : Addr) (length : UInt32) (memorySize : Nat)
  /-- No value is kept under the handle. -/
  | unknownHandle (handle : UInt32)
  /-- The value kept under the handle has another type than the expected one. -/
  | wrongReferent (handle : UInt32) (expected : HostType)
  | stackUnderflow
  /-- The bytes at `offset` are not UTF-8. -/
  | malformedText (offset : Addr)
deriving DecidableEq

namespace Fault

def isMemory : Fault → Bool
  | readOutOfBounds .. | writeOutOfBounds .. => true
  | _ => false

def isReference : Fault → Bool
  | unknownHandle _ | wrongReferent .. => true
  | _ => false

/-- The text of a fault, where `typeName` gives the names of types. -/
def message (typeName : HostType → String) : Fault → String
  | readOutOfBounds o n size =>
    s!"Memory read out of bounds: offset {o} with length {n} exceeds memory size {size}"
  | writeOutOfBounds o n size =>
    s!"Memory write out of bounds: offset {o} with length {n} exceeds memory size {size}"
  | unknownHandle h => s!"Host reference {h} is not found"
  | wrongReferent h t =>
    s!"Host reference {h} does not hold a value of type {typeName t}"
  | stackUnderflow => "Stack underflow: popped more slots than the caller pushed"
  | malformedText o => s!"Invalid UTF-8 in string at offset {o}"

end Fault

end HostCall
