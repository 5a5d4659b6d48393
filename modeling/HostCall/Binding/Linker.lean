import HostCall.Binding.Error
import HostCall.Registry

/-! Linking: every function of a registry is offered to a guest under the names of its module and
itself. Modules come in the order of their names, and so do the functions of each. Linking stops
at the first function that cannot be linked; those before it stay linked. -/

namespace HostCall.Binding

/-- A function as the guest can import it. -/
structure Import (ν : Type) where
  module : String
  name : String
  params : List SlotKind
  results : List SlotKind
  fn : HostFn ν

structure Linker (ν : Type) where
  imports : List (Import ν)

variable {ν : Type}

/-- How a function is called in messages. -/
def label (module name : String) : String := module ++ "." ++ name

def Import.label (i : Import ν) : String := Binding.label i.module i.name

namespace Linker

def empty : Linker ν := ⟨[]⟩

def find? (linker : Linker ν) (module name : String) : Option (Import ν) :=
  linker.imports.find? fun i => i.module == module && i.name == name

/-- The first slot of `fn` that guests have no value type for. -/
def unsupported? (fn : HostFn ν) : Option SlotKind :=
  (fn.paramSlots ++ fn.results).find? (· == .externRef)

/-- Links one function. -/
def define (linker : Linker ν) (module name : String) (fn : HostFn ν) :
    Except LinkError (Linker ν) :=
  match unsupported? fn with
  | some kind => .error (.unsupportedSlot (label module name) kind)
  | none =>
    match linker.find? module name with
    | some _ => .error (.alreadyDefined module name)
    | none => .ok ⟨linker.imports ++ [⟨module, name, fn.paramSlots, fn.results, fn⟩]⟩

/-- Links functions in turn. -/
def defineEach (linker : Linker ν) :
    List (String × String × HostFn ν) → Linker ν × Option LinkError
  | [] => (linker, none)
  | (module, name, fn) :: rest =>
    match linker.define module name fn with
    | .ok linker => linker.defineEach rest
    | .error e => (linker, some e)

end Linker

/-- All functions with the names of their modules, in the order in which they are linked. -/
def addressed (registry : Registry ν) : List (String × String × HostFn ν) :=
  registry.toList.flatMap fun m => m.functions.toList.map fun f => (m.name, f.1, f.2)

/-- Links a whole registry. -/
def Linker.defineAll (linker : Linker ν) (registry : Registry ν) : Linker ν × Option LinkError :=
  linker.defineEach (addressed registry)

end HostCall.Binding
