/-! Values that never leave the host, and what stands for them. -/

namespace HostCall

/-- A host value and the handle that the guest knows it by, 0 if it has none yet. -/
structure Handle (α : Type) where
  id : UInt32
  raw : α
deriving DecidableEq

/-- The cancellation flag as a host function sees it. -/
structure Context where
  cancelled : Bool
deriving DecidableEq

/-- A named count. -/
structure Counter where
  name : String
  hits : UInt32
deriving DecidableEq

end HostCall
