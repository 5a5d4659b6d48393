import HostCall.Bytes.LittleEndian

/-! UTF-8 text. `encode` writes characters; `scan` reads bytes one at a time and gives a character
for each well-formed sequence and a gap for each longest run of bytes that starts one and goes
astray. Text is well formed when the scan leaves no gap (`decode?`); `decodeLossy` puts U+FFFD
into every gap. -/

namespace HostCall.Utf8

/-- The byte that carries the lowest six bits of `n` inside a sequence. -/
def continuation (n : Nat) : UInt8 := UInt8.ofNat (0x80 + n % 64)

def encodeChar (c : Char) : Bytes :=
  let n := c.toNat
  if n < 0x80 then [UInt8.ofNat n]
  else if n < 0x800 then [UInt8.ofNat (0xC0 + n / 64), continuation n]
  else if n < 0x10000 then
    [UInt8.ofNat (0xE0 + n / 4096), continuation (n / 64), continuation n]
  else
    [UInt8.ofNat (0xF0 + n / 262144), continuation (n / 4096), continuation (n / 64),
      continuation n]

/-- The bytes of a sequence of characters. -/
def encode (cs : List Char) : Bytes := cs.flatMap encodeChar

/-- What the bytes read so far ask for next: a new character, or the next byte of one that has
begun, between `low` and `high`, with `missing` more to follow it. `bits` is what the bytes of that
character have given so far. -/
inductive State where
  | start
  | inside (missing bits low high : Nat)

/-- The character or the state that a first byte leads to; `none` where no sequence starts so. The
bounds on the second byte keep out overlong forms, surrogates and numbers past U+10FFFF. -/
def lead (b : Nat) : Option (Char ⊕ State) :=
  if b < 0x80 then some (.inl (Char.ofNat b))
  else if b < 0xC2 then none
  else if b < 0xE0 then some (.inr (.inside 0 (b - 0xC0) 0x80 0xBF))
  else if b = 0xE0 then some (.inr (.inside 1 0 0xA0 0xBF))
  else if b = 0xED then some (.inr (.inside 1 0xD 0x80 0x9F))
  else if b < 0xF0 then some (.inr (.inside 1 (b - 0xE0) 0x80 0xBF))
  else if b = 0xF0 then some (.inr (.inside 2 0 0x90 0xBF))
  else if b < 0xF4 then some (.inr (.inside 2 (b - 0xF0) 0x80 0xBF))
  else if b = 0xF4 then some (.inr (.inside 2 4 0x80 0x8F))
  else none

/-- Reads `b` where a character may begin. `units` is what was read before, latest first. -/
def begin? (units : List (Option Char)) (b : Nat) : State × List (Option Char) :=
  match lead b with
  | none => (.start, none :: units)
  | some (.inl c) => (.start, some c :: units)
  | some (.inr state) => (state, units)

/-- Reads one byte. A byte that does not continue the character begun before it leaves a gap for
that character and is read again as a first byte. -/
def step : State × List (Option Char) → UInt8 → State × List (Option Char)
  | (.start, units), b => begin? units b.toNat
  | (.inside missing bits low high, units), b =>
    if low ≤ b.toNat ∧ b.toNat ≤ high then
      match missing with
      | 0 => (.start, some (Char.ofNat (bits * 64 + (b.toNat - 0x80))) :: units)
      | more + 1 => (.inside more (bits * 64 + (b.toNat - 0x80)) 0x80 0xBF, units)
    else begin? (none :: units) b.toNat

/-- What has been read once the bytes are used up, latest first. -/
def finish : State × List (Option Char) → List (Option Char)
  | (.start, units) => units
  | (.inside .., units) => none :: units

/-- The characters and gaps that `bytes` complete or leave, read on from `state`. -/
def scanFrom (state : State) (bytes : Bytes) : List (Option Char) :=
  (finish (bytes.foldl step (state, []))).reverse

/-- The characters and gaps that `bytes` are made of. -/
def scan (bytes : Bytes) : List (Option Char) := scanFrom .start bytes

/-- The characters that `bytes` encode, if they encode any. -/
def decode? (bytes : Bytes) : Option (List Char) :=
  let units := scan bytes
  if units.all Option.isSome then some (units.filterMap id) else none

/-- The characters of `bytes` with U+FFFD in every gap. -/
def decodeLossy (bytes : Bytes) : List Char :=
  (scan bytes).map (·.getD (Char.ofNat 0xFFFD))

end HostCall.Utf8
