/-! Values that carry, beside their content, where in guest memory they were found or are to be
placed. -/

namespace HostCall

/-- A value with the address of its bytes or elements. -/
structure Located (α : Type) where
  offset : UInt32
  raw : α
deriving DecidableEq

/-- A list handed over by one pointer: its header is at `offset`, its elements at `dataPtr`. -/
structure IndirectList (α : Type) where
  offset : UInt32
  dataPtr : UInt32
  raw : List α
deriving DecidableEq

/-- A success or an error, tagged in memory at `offset`. What has no room beside the tag goes to
`dataPtr` when the value is written; `dataPtr` is 0 in a value that was read. -/
structure ResultAt (ε α : Type) where
  offset : UInt32
  dataPtr : UInt32
  value : Except ε α

def ResultAt.isError {ε α : Type} (r : ResultAt ε α) : Bool :=
  match r.value with
  | .ok _ => false
  | .error _ => true

end HostCall
