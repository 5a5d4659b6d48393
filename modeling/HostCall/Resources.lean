import HostCall.Memory
import HostCall.HandleTable

/-! What a call can reach beside its stack. -/

namespace HostCall

structure Resources where
  memory : Memory
  /-- The table of host values, if the call has one. -/
  handles : Option HandleTable
  cancelled : Bool

end HostCall
