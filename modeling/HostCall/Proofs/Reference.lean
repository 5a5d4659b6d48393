import HostCall.Frame

/-! What guest data mean. The reference decoder takes values off a stack and out of a memory with
unbounded addresses and has no value to fall back on: it is defined only where there are cells
enough, every access lies in the memory, every text is well formed and every handle leads to a
value of the expected type. -/

namespace HostCall

namespace Memory

/-- The first address after the last byte. -/
def limit (m : Memory) : Nat := m.base + m.bytes.size

/-- The `n` addresses from `a` on are in the memory; for none, `a` may also be its limit. -/
def Covers (m : Memory) (a n : Nat) : Prop := m.base ≤ a ∧ a + n ≤ m.limit

instance (m : Memory) (a n : Nat) : Decidable (m.Covers a n) := inferInstanceAs (Decidable (_ ∧ _))

/-- Its limit is an address too, or it has no address at all. So it is for a memory of fewer than
`2 ^ 32` bytes that starts at address 0, and for the memory of a call that has none. -/
def Addressable (m : Memory) : Prop := m.base < Addr.space → m.limit < Addr.space

instance (m : Memory) : Decidable m.Addressable := inferInstanceAs (Decidable (_ → _))

theorem addressable_ofBytes {bytes : Array UInt8} (h : bytes.size < Addr.space) :
    (ofBytes bytes).Addressable := by
  intro _
  simpa only [limit, ofBytes, Nat.zero_add] using h

example : absent.Addressable := by decide

theorem Addressable.limit_lt {m : Memory} (hm : m.Addressable) {a n : Nat} (ha : a < Addr.space)
    (h : m.Covers a n) : m.limit < Addr.space :=
  hm (Nat.lt_of_le_of_lt h.1 ha)

/-- The `n` bytes from address `a` on. -/
def bytes? (m : Memory) (a n : Nat) : Option Bytes :=
  if m.Covers a n then some (m.slice a n) else none

def word? (m : Memory) (a : Nat) : Option UInt32 := do
  return UInt32.ofNat (LittleEndian.ofBytes (← m.bytes? a 4))

/-- A pointer and the length after it. -/
def header? (m : Memory) (a : Nat) : Option (Addr × UInt32) := do
  return (← m.word? a, ← m.word? (a + 4))

/-- `count` elements side by side, each of `size` bytes. Unless there are none, all their bytes are
in the memory. -/
def elements? {α : Type} (m : Memory) (size : Nat) (element : Nat → Option α) (a count : Nat) :
    Option (List α) :=
  if count = 0 then some []
  else if m.Covers a (count * size) then
    (List.range count).mapM fun i => element (a + i * size)
  else none

end Memory

/-- The text in `bs`, if they are UTF-8. -/
def text? (bs : Bytes) : Option String := (Utf8.decode? bs).map String.ofList

/-- The value whose memory form lies at `a`. -/
def MemType.decodeAt (m : Memory) : (t : MemType) → (a : Nat) → Option t.Val
  | scalar s, a => do return s.ofBits (LittleEndian.ofBytes (← m.bytes? a s.width))
  | bool, a => do return (← m.bytes? a 1).any (· != 0)
  | string, a => do
    let (pointer, length) ← m.header? a
    text? (← m.bytes? pointer.toNat length.toNat)
  | blob, a => do
    let (pointer, length) ← m.header? a
    m.bytes? pointer.toNat length.toNat
  | text, a => do
    let (pointer, length) ← m.header? a
    return ⟨pointer, ← text? (← m.bytes? pointer.toNat length.toNat)⟩
  | bytes, a => do
    let (pointer, length) ← m.header? a
    return ⟨pointer, ← m.bytes? pointer.toNat length.toNat⟩
  | list t, a => do
    let (pointer, count) ← m.header? a
    return ⟨pointer, ← m.elements? t.size (t.decodeAt m) pointer.toNat count.toNat⟩
  | result t e, a => do
    if (← m.word? a) = 0 then return ⟨UInt32.ofNat a, 0, .ok (← t.decodeAt m (a + tagSize))⟩
    else return ⟨UInt32.ofNat a, 0, .error (← e.decodeAt m (a + tagSize))⟩

/-- Steps that take cells from a stack, its top first, as long as there are any. -/
abbrev Decoding := StateT (List Cell) Option

namespace Decoding

def pop : Decoding Cell
  | [] => none
  | c :: cs => some (c, cs)

/-- The low half of a cell. -/
def popWord : Decoding UInt32 := do return (← pop).toUInt32

/-- An address and a length, the length on top. -/
def popRegion : Decoding (Addr × UInt32) := do
  let length ← popWord
  return (← popWord, length)

end Decoding

open Decoding

def MemType.decode (m : Memory) : (t : MemType) → Decoding t.Val
  | scalar s => do return s.ofCell (← pop)
  | bool => do return (← pop) != 0
  | string => do
    let (a, length) ← popRegion
    text? (← m.bytes? a.toNat length.toNat)
  | blob => do
    let (a, length) ← popRegion
    m.bytes? a.toNat length.toNat
  | text => do
    let (a, length) ← popRegion
    return ⟨a, ← text? (← m.bytes? a.toNat length.toNat)⟩
  | bytes => do
    let (a, length) ← popRegion
    return ⟨a, ← m.bytes? a.toNat length.toNat⟩
  | list t => do
    let (a, count) ← popRegion
    return ⟨a, ← m.elements? t.size (t.decodeAt m) a.toNat count.toNat⟩
  | result t e => do
    let a ← popWord
    (result t e).decodeAt m a.toNat

/-- The live value under handle `h`, if it has exactly type `t`. -/
def Resources.referent? (env : Resources) (t : HostType) (h : UInt32) : Option t.Val := do
  (← (← env.handles).get? h).as? t

/-- The value that lies on top of the stack. A counter has no form there. -/
def HostType.decode (env : Resources) : (t : HostType) → Decoding t.Val
  | mem t => t.decode env.memory
  | intPtr => do return (← pop).toInt64
  | uintPtr => pop
  | unit => return ()
  | duration => do return .ofTicks (← pop)
  | time => do return .ofSeconds (← pop).toInt64
  | complex64 => do
    let re := Scalar.f32.ofCell (← pop)
    return ⟨re, Scalar.f32.ofCell (← pop)⟩
  | complex128 => do
    let re := Scalar.f64.ofCell (← pop)
    return ⟨re, Scalar.f64.ofCell (← pop)⟩
  | indirectList t => do
    let a ← popWord
    let (pointer, count) ← env.memory.header? a.toNat
    return ⟨a, pointer,
      ← env.memory.elements? t.size (t.decodeAt env.memory) pointer.toNat count.toNat⟩
  | pair l r => do
    let right ← r.decode env
    return (← l.decode env, right)
  | handle t => do
    let id ← popWord
    return ⟨id, ← env.referent? t id⟩
  | context => return ⟨env.cancelled⟩
  | counter => failure

end HostCall
