import HostCall.Addr
import HostCall.Scalar
import HostCall.Value.Located

/-! The types whose values can lie in guest memory. A value takes `size` bytes at its own address;
the bytes of strings and the elements of lists lie elsewhere, and only a pointer and a length are
kept in place. -/

namespace HostCall

inductive MemType where
  | scalar (s : Scalar)
  | bool
  | string
  | blob
  | text
  | bytes
  | list (element : MemType)
  | result (ok error : MemType)
deriving DecidableEq

/-- The bytes of a pointer and a length. -/
def headerSize : Nat := 8

/-- The bytes of the tag in front of a result. -/
def tagSize : Nat := 4

namespace MemType

@[reducible] def Val : MemType → Type
  | scalar s => s.Val
  | bool => Bool
  | string => String
  | blob => Bytes
  | text => Located String
  | bytes => Located Bytes
  | list t => Located (List t.Val)
  | result t e => ResultAt e.Val t.Val

/-- Bytes taken at the value's own address. -/
def size : MemType → Nat
  | scalar s => s.width
  | bool => 1
  | string | blob | text | bytes | list _ => headerSize
  | result t e => tagSize + max t.size e.size

def slots : MemType → List SlotKind
  | scalar s => [s.slot]
  | bool | result _ _ => [.i32]
  | string | blob | text | bytes | list _ => [.i32, .i32]

/-- Strings and byte runs that know no address cannot be pushed: there is nowhere to put them. -/
def lowerable : MemType → Bool
  | string | blob => false
  | _ => true

def default : (t : MemType) → t.Val
  | scalar s => s.ofBits 0
  | bool => false
  | string => ""
  | blob => []
  | text => ⟨0, ""⟩
  | bytes => ⟨0, []⟩
  | list _ => ⟨0, []⟩
  | result t _ => ⟨0, 0, .ok t.default⟩

theorem size_pos (t : MemType) : 0 < t.size := by
  cases t <;> simp only [size, headerSize, tagSize, Nat.reduceLT]
  case scalar s => exact s.width_pos
  case result => omega

end MemType

end HostCall
