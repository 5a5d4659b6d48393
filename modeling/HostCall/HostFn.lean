import HostCall.Frame

/-! Host functions. A function is known to the guest by the slots of its parameters and results;
a call runs it on a frame. A native function is made into one from its parameter types and its
result type: the arguments are lifted from the last to the first, since the last lies on top, and
the result is lowered. -/

namespace HostCall

/-- A host function whose calls leave a note of type `ν` for the host. -/
structure HostFn (ν : Type) where
  params : List (List SlotKind)
  results : List SlotKind
  run : Frame → ν × Frame

/-- One value for each type. -/
@[reducible] def Args : List HostType → Type
  | [] => Unit
  | t :: ts => t.Val × Args ts

/-- What a native function gives back. -/
structure Reply (ν α : Type) where
  note : ν
  value : α
  /-- Whether the function cancels the call's context. -/
  cancels : Bool

/-- Lifts arguments, the last one first. -/
def liftArgs (env : Resources) : (ts : List HostType) → Lifting (Args ts)
  | [] => return ()
  | t :: ts => do
    let rest ← liftArgs env ts
    let first ← t.lift env
    return (first, rest)

namespace HostFn

variable {ν μ : Type}

def ofNative (params : List HostType) (result : HostType)
    (f : Args params → Reply ν result.Val) : HostFn ν where
  params := params.map HostType.slots
  results := result.slots
  run fr :=
    let (args, fr) := fr.taking (liftArgs fr.toResources params)
    let reply := f args
    let fr := if reply.cancels then fr.cancel else fr
    (reply.note, fr.lower result reply.value)

/-- A native function that only computes its result. -/
def ofPure (params : List HostType) (result : HostType) (f : Args params → result.Val) :
    HostFn Unit :=
  ofNative params result fun args => ⟨(), f args, false⟩

def mapNote (g : ν → μ) (fn : HostFn ν) : HostFn μ where
  params := fn.params
  results := fn.results
  run fr := (g (fn.run fr).1, (fn.run fr).2)

/-- The slots of all parameters. -/
def paramSlots (fn : HostFn ν) : List SlotKind := flattenSlots fn.params

def numParams (fn : HostFn ν) : Nat := fn.paramSlots.length

def numResults (fn : HostFn ν) : Nat := fn.results.length

def describe (fn : HostFn ν) : String :=
  "HostFunc \x7b params: " ++ bracketed (fn.params.map kinds) ++ ", results: " ++
    kinds fn.results ++ ", .. \x7d"
where
  bracketed (items : List String) : String := "[" ++ ", ".intercalate items ++ "]"
  kinds (ks : List SlotKind) : String := bracketed (ks.map SlotKind.name)

end HostFn

end HostCall
