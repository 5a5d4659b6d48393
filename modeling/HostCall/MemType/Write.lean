import HostCall.Memory
import HostCall.Text.Utf8.Basic

/-! Writing values into guest memory. A value is written in two parts: `size` bytes at its own
address and the bytes or elements it points to from a second address on; what a write returns is
how many bytes it took there. Elements of a list lie side by side, what they point to follows the
last element, in the order of the elements. A write that is out of bounds leaves a fault and what
it would have changed as it was, and the others go on. -/

namespace HostCall

/-- Steps that write to memory. -/
abbrev Writing := StateT Memory Outcome

namespace Writing

def bytes (a : Addr) (bs : Bytes) : Writing Unit :=
  fun m => (fun m => ((), m)) <$> m.store a bs

def word (a : Addr) (w : UInt32) : Writing Unit := bytes a (Memory.wordBytes w)

/-- A pointer and a length, in one piece. -/
def header (a pointer : Addr) (length : UInt32) : Writing Unit :=
  bytes a (Memory.wordBytes pointer ++ Memory.wordBytes length)

/-- `bs` from `data` on and a header for them at `a`. -/
def outOfLine (a data : Addr) (bs : Bytes) : Writing UInt32 := do
  let length := UInt32.ofNat bs.length
  Writing.bytes data bs
  header a data length
  return length

/-- Runs `step` on each of `xs` in turn, handing on its result. A fold from the left, so that long
lists need no deep recursion. -/
def each {α σ : Type} (step : σ → α → Writing σ) (s : σ) (xs : List α) : Writing σ := fun m =>
  xs.foldl (fun o x => o >>= fun r => step r.1 x r.2) (pure (s, m))

theorem each_nil {α σ : Type} (step : σ → α → Writing σ) (s : σ) : each step s [] = pure s := rfl

theorem each_cons {α σ : Type} (step : σ → α → Writing σ) (s : σ) (x : α) (xs : List α) :
    each step s (x :: xs) = step s x >>= fun s => each step s xs := by
  have fold (o : Outcome (σ × Memory)) :
      xs.foldl (fun o x => o >>= fun r => step r.1 x r.2) o =
        o >>= fun r => xs.foldl (fun o x => o >>= fun r => step r.1 x r.2) (pure r) := by
    induction xs generalizing o with
    | nil => exact (bind_pure o).symm
    | cons y ys ih =>
      simp only [List.foldl_cons]
      rw [ih, bind_assoc]
      exact bind_congr fun r => by rw [pure_bind, ← ih]
  funext m
  exact fold _

/-- Writes one element of `size` bytes. A position is where the next element lies and where its
own data go. -/
def element {α : Type} (size : Nat) (write : α → Addr → Addr → Writing UInt32)
    (position : Addr × Addr) (x : α) : Writing (Addr × Addr) := do
  let taken ← write x position.1 position.2
  return (position.1.advance size, position.2.advance taken.toNat)

/-- Writes `xs` from `a` on and what they point to right behind them. -/
def elements {α : Type} (size : Nat) (write : α → Addr → Addr → Writing UInt32) (xs : List α)
    (a : Addr) : Writing UInt32 := do
  let data := a.advance ((UInt32.ofNat xs.length).toNat * size)
  let (_, data) ← each (element size write) (a, data) xs
  return data - a

end Writing

namespace MemType

/-- Writes the value's own bytes at `a` and those it points to from `data` on. -/
def write : (t : MemType) → t.Val → (a data : Addr) → Writing UInt32
  | scalar s, v, a, _ => do
    Writing.bytes a (LittleEndian.toBytes s.width (s.toBits v))
    return 0
  | bool, v, a, _ => do
    Writing.bytes a [if v then 1 else 0]
    return 0
  | string, v, a, data => Writing.outOfLine a data (Utf8.encode v.toList)
  | blob, v, a, data => Writing.outOfLine a data v
  | text, v, a, data => Writing.outOfLine a data (Utf8.encode v.raw.toList)
  | bytes, v, a, data => Writing.outOfLine a data v.raw
  | list t, v, a, data => do
    let taken ← Writing.elements t.size t.write v.raw data
    Writing.header a data (UInt32.ofNat v.raw.length)
    return taken
  | result t e, v, a, data =>
    match v.value with
    | .ok x => do
      Writing.word a 0
      t.write x (a.advance tagSize) data
    | .error x => do
      Writing.word a 1
      e.write x (a.advance tagSize) data

end MemType

end HostCall
