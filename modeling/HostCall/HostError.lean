import HostCall.Binding.Error
import HostCall.Registry

/-! Everything that can go wrong: while a value crosses the boundary, while functions are
registered, while they are linked and while a guest calls them. -/

namespace HostCall

inductive HostError where
  | fault (f : Fault)
  | registration (e : RegistrationError)
  | link (e : LinkError)
  | trap (t : Trap)
deriving DecidableEq

namespace HostError

def message (typeName : HostType → String) : HostError → String
  | fault f => f.message typeName
  | registration e => e.message
  | link e => e.message
  | trap t => t.message typeName

def isFault : HostError → Bool
  | fault _ => true
  | _ => false

def isRegistration : HostError → Bool
  | registration _ => true
  | _ => false

def isBinding : HostError → Bool
  | link _ | trap _ => true
  | _ => false

end HostError

end HostCall
