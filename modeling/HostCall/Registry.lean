import HostCall.HostFn
import HostCall.NameMap

/-! Host modules: functions by name, and modules by name. A name is given once; a second function
or module of that name is refused and changes nothing. -/

namespace HostCall

inductive RegistrationError where
  | duplicateFunction (module function : String)
  | duplicateModule (module : String)
deriving DecidableEq

def RegistrationError.message : RegistrationError → String
  | duplicateFunction m f => "Function '" ++ f ++ "' is already defined in module '" ++ m ++ "'"
  | duplicateModule m => "Module '" ++ m ++ "' is already defined"

structure Module (ν : Type) where
  name : String
  functions : NameMap (HostFn ν)

namespace Module

variable {ν : Type}

def empty (name : String) : Module ν := ⟨name, .empty⟩

def insert (m : Module ν) (name : String) (fn : HostFn ν) : Except RegistrationError (Module ν) :=
  match m.functions.get? name with
  | some _ => .error (.duplicateFunction m.name name)
  | none => .ok { m with functions := m.functions.set name fn }

end Module

/-- The modules that a guest can import from. -/
structure Registry (ν : Type) where
  modules : NameMap (Module ν)

namespace Registry

variable {ν : Type}

def empty : Registry ν := ⟨.empty⟩

def get? (r : Registry ν) (name : String) : Option (Module ν) := r.modules.get? name

/-- The function that a guest imports as `module` and `name`. -/
def function? (r : Registry ν) (module name : String) : Option (HostFn ν) :=
  (r.get? module).bind (·.functions.get? name)

/-- The modules in the order of their names. -/
def toList (r : Registry ν) : List (Module ν) := r.modules.toList.map (·.2)

/-- Takes in a whole module. -/
def add (r : Registry ν) (m : Module ν) : Except RegistrationError (Registry ν) :=
  match r.get? m.name with
  | some _ => .error (.duplicateModule m.name)
  | none => .ok ⟨r.modules.set m.name m⟩

/-- The module of this name, a new one if there is none, and the registry with it. -/
def getOrNew (r : Registry ν) (name : String) : Module ν × Registry ν :=
  match r.get? name with
  | some m => (m, r)
  | none => (.empty name, ⟨r.modules.set name (.empty name)⟩)

/-- Puts a function into a module of the registry. -/
def insert (r : Registry ν) (module name : String) (fn : HostFn ν) :
    Except RegistrationError (Registry ν) := do
  let (m, r) := r.getOrNew module
  return ⟨r.modules.set module (← m.insert name fn)⟩

/-- Puts functions into a module one after the other. The first that is refused ends it; those
before it stay. -/
def insertEach (r : Registry ν) (module : String) :
    List (String × HostFn ν) → Registry ν × Option RegistrationError
  | [] => (r, none)
  | (name, fn) :: rest =>
    match r.insert module name fn with
    | .ok r => r.insertEach module rest
    | .error e => (r, some e)

/-- Puts functions into a module, which is there afterwards even if none was put into it. -/
def insertAll (r : Registry ν) (module : String) (fns : List (String × HostFn ν)) :
    Registry ν × Option RegistrationError :=
  (r.getOrNew module).2.insertEach module fns

end Registry

end HostCall
