import HostCall.Fault
import HostCall.HostFn

/-! What can go wrong between a guest and the functions bound to it. -/

namespace HostCall

/-- Why a function could not be linked. -/
inductive LinkError where
  /-- Guests have no value type for the slot. -/
  | unsupportedSlot (label : String) (kind : SlotKind)
  | alreadyDefined (module function : String)
deriving DecidableEq

/-- Why a call ended the guest. -/
inductive Trap where
  | failed (label : String) (fault : Fault)
  /-- The function left another number of cells than it has result slots. -/
  | resultCount (label : String) (expected actual : Nat)
deriving DecidableEq

/-- A call that was not made: one of its arguments is of no kind that a slot can have. -/
structure ArgumentMismatch where
  label : String
deriving DecidableEq

def LinkError.message : LinkError → String
  | unsupportedSlot l k =>
    "Function '" ++ l ++ "' uses slot kind " ++ k.name ++
      ", which is not supported by the wasmtime binding"
  | alreadyDefined m f => "Wasmtime error: import of `" ++ m ++ "::" ++ f ++ "` defined twice"

def ArgumentMismatch.message (e : ArgumentMismatch) : String :=
  "Function '" ++ e.label ++ "' received an argument of an unexpected kind"

namespace Trap

def message (typeName : HostType → String) : Trap → String
  | failed l f => "Function '" ++ l ++ "' failed: " ++ f.message typeName
  | resultCount l expected actual =>
    "Function '" ++ l ++ "' produced " ++ toString actual ++ " result slots, expected " ++
      toString expected

/-- The fault behind a trap. -/
def source? : Trap → Option Fault
  | failed _ f => some f
  | resultCount .. => none

end Trap

end HostCall
