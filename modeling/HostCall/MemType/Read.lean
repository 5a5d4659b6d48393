import HostCall.Memory
import HostCall.Text.Utf8.Basic

/-! Reading values out of guest memory. Every read that fails gives zeros or nothing and leaves a
fault, and the reading goes on with what it has. A list checks its whole element region first: a
region that leaves the address space or is out of bounds gives an empty list. -/

namespace HostCall

/-- The text in `bs`, which lie at `a`, with U+FFFD for what is not UTF-8. -/
def readText (a : Addr) (bs : Bytes) : Outcome String :=
  match Utf8.decode? bs with
  | some cs => pure (String.ofList cs)
  | none => .failing (.malformedText a) (String.ofList (Utf8.decodeLossy bs))

namespace Memory

/-- The pointer and the length of the header at `a`. -/
def loadHeader (m : Memory) (a : Addr) : Outcome (Addr × UInt32) := do
  let pointer ← m.loadWord a
  let length ← m.loadWord (a.advance 4)
  return (pointer, length)

/-- `count` elements of `size` bytes from `a` on, each read by `element`. -/
def loadElements {α : Type} (m : Memory) (size : Nat) (element : Addr → Outcome α) (a : Addr)
    (count : UInt32) : Outcome (List α) :=
  let total := count.toNat * size
  if count = 0 then pure []
  else if total < Addr.space ∧ a.toNat + total ≤ Addr.space then
    match m.read a (UInt32.ofNat total) with
    | .ok _ => .all ((List.range count.toNat).map fun i => element (a + UInt32.ofNat (i * size)))
    | .error f => .failing f []
  else .failing (.readOutOfBounds a (Addr.nearest total) m.size) []

end Memory

namespace MemType

/-- The value whose memory form lies at `a`. -/
def read : (t : MemType) → Memory → (a : Addr) → Outcome t.Val
  | scalar s, m, a => do return s.ofBits (LittleEndian.ofBytes (← m.load a (UInt32.ofNat s.width)))
  | bool, m, a => do return (← m.load a 1).any (· != 0)
  | string, m, a => do
    let (pointer, length) ← m.loadHeader a
    readText pointer (← m.load pointer length)
  | blob, m, a => do
    let (pointer, length) ← m.loadHeader a
    m.load pointer length
  | text, m, a => do
    let (pointer, length) ← m.loadHeader a
    return ⟨pointer, ← readText pointer (← m.load pointer length)⟩
  | bytes, m, a => do
    let (pointer, length) ← m.loadHeader a
    return ⟨pointer, ← m.load pointer length⟩
  | list t, m, a => do
    let (pointer, count) ← m.loadHeader a
    return ⟨pointer, ← m.loadElements t.size (t.read m) pointer count⟩
  | result t e, m, a => do
    let tag ← m.loadWord a
    if tag = 0 then return ⟨a, 0, .ok (← t.read m (a.advance tagSize))⟩
    else return ⟨a, 0, .error (← e.read m (a.advance tagSize))⟩

end MemType

end HostCall
